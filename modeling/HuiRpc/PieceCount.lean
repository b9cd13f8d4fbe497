/-
# How many pieces each packet has

The transport turns every piece of a packet into one scatter-gather entry, so besides
the bytes of a packet the number of its pieces matters.  `PieceStarts` follows that
number through the splitting loop, also when the iovec array is full and refuses pieces.
Where none is refused (`SplitCount`), the entries of the packet table differ by the number
of iovecs that reach into the packet.

`pktPieces` says the result in terms of the pushed iovecs alone.
-/
import HuiRpc.Packetise

namespace HuiRpc

open Blocks

/-- The number of iovecs of a list that reach into packet `k`, the first byte of the
list being byte `off` of the message. -/
def piecesIn (D : ℕ) : ℕ → List Iovec → ℕ → ℕ
  | _, [], _ => 0
  | off, v :: vs, k => meets D off v.iovLen k + piecesIn D (off + v.iovLen) vs k

/-- The iovecs of packet `k` of a message: a message of one packet is not re-cut and
keeps its empty iovecs. -/
def pktPieces (D : ℕ) (es : List Iovec) (k : ℕ) : ℕ :=
  if iovSum es ≤ D then es.length else piecesIn D 0 es k

variable {D b k p R : ℕ} {cnt : ℕ → ℕ} {st st' : SplitSt} {v : Iovec}

/-! ## The counts through the loop -/

/-- The pieces of the packets before `k`. -/
def piecesBefore (cnt : ℕ → ℕ) (k : ℕ) : ℕ := ∑ j ∈ Finset.range k, cnt j

theorem piecesBefore_succ (cnt : ℕ → ℕ) (k : ℕ) :
    piecesBefore cnt (k + 1) = piecesBefore cnt k + cnt k :=
  Finset.sum_range_succ cnt k

theorem piecesBefore_mono (cnt : ℕ → ℕ) {j k : ℕ} (h : j ≤ k) :
    piecesBefore cnt j ≤ piecesBefore cnt k := by
  apply Finset.sum_le_sum_of_subset
  intro i hi
  rw [Finset.mem_range] at hi ⊢
  omega

/-- A piece of packet `q` counts in front of the packets after `q`. -/
theorem piecesBefore_add_one (cnt : ℕ → ℕ) (q k : ℕ) :
    piecesBefore (fun j => cnt j + if j = q then 1 else 0) k
      = piecesBefore cnt k + if q < k then 1 else 0 := by
  unfold piecesBefore
  rw [Finset.sum_add_distrib, Finset.sum_ite_eq' (Finset.range k) q fun _ => 1]
  simp only [Finset.mem_range]

/-- `p` pieces have been cut, `cnt k` of them for packet `k`, and there are `R` places for
them: a packet starts behind the pieces before it, or at the end of a full array. -/
structure PieceStarts (R : ℕ) (cnt : ℕ → ℕ) (p : ℕ) (st : SplitSt) : Prop where
  window : st.iov.iovBegin ≤ st.iov.iovEnd
  places : st.iov.iovBegin + R = iovCapacity
  starts : ∀ k, k < st.dataIndex → st.index k = min (piecesBefore cnt k) R
  count : st.iov.iovcnt = min p R
  total : piecesBefore cnt st.dataIndex = p
  rest : ∀ k, st.dataIndex ≤ k → cnt k = 0

theorem PieceStarts.record (h : PieceStarts R cnt p st) (hr : recordPkg D st = some st') :
    PieceStarts R cnt p st' := by
  unfold recordPkg at hr
  split_ifs at hr with h1 h2
  · rw [← Option.some.inj hr]
    refine ⟨h.window, h.places, ?_, h.count, ?_, ?_⟩
    · intro k hk
      show Function.update st.index st.dataIndex st.iov.iovcnt k = _
      have hk' : k < st.dataIndex + 1 := hk
      by_cases hkq : k = st.dataIndex
      · rw [hkq, Function.update_self, h.count, h.total]
      · rw [Function.update_of_ne hkq]
        exact h.starts k (by omega)
    · show piecesBefore cnt (st.dataIndex + 1) = p
      rw [piecesBefore_succ, h.total, h.rest st.dataIndex le_rfl, Nat.add_zero]
    · intro k hk
      have hk' : st.dataIndex + 1 ≤ k := hk
      exact h.rest k (by omega)
  · rw [← Option.some.inj hr]
    exact h

/-- The open packet is the last one recorded. -/
theorem PktOpen.div_add_one (ho : PktOpen D b st) : b / D + 1 = st.dataIndex := by
  obtain ⟨-, h0, hle, hb⟩ := ho
  have hpos : 0 < st.dataIndex := by
    rcases Nat.eq_zero_or_pos st.dataIndex with hz | hz
    · rw [hz] at hb
      omega
    · exact hz
  obtain ⟨q, hq⟩ : ∃ q, st.dataIndex = q + 1 := ⟨st.dataIndex - 1, by omega⟩
  rw [hq, Nat.succ_mul] at hb
  have hdiv : b / D = q := Nat.div_eq_of_lt_le (by omega) (by rw [Nat.succ_mul]; omega)
  rw [hdiv, hq]

/-- A piece is counted for the packet it starts in, also when the array refuses it. -/
theorem PieceStarts.cut (h : PieceStarts R cnt p st) (ho : PktOpen D b st) :
    PieceStarts R (fun k => cnt k + if k = b / D then 1 else 0) (p + 1)
      (cutPiece D st v).1 := by
  have hq := ho.div_add_one
  have hw := h.window
  have hp := h.places
  have hc := h.count
  unfold Iovector.iovcnt at hc
  rw [cutPiece_eq]
  set c := min st.temp v.iovLen
  have hend : (st.iov.pushBackBuf v.iovBase c).1.iovEnd = min (st.iov.iovEnd + 1) iovCapacity :=
    Iovector.pushBackBuf_iovEnd _ _ _ (by omega)
  have hbeg : (st.iov.pushBackBuf v.iovBase c).1.iovBegin = st.iov.iovBegin :=
    Iovector.pushBackBuf_iovBegin _ _ _
  refine ⟨?_, ?_, ?_, ?_, ?_, ?_⟩
  · show (st.iov.pushBackBuf v.iovBase c).1.iovBegin ≤ (st.iov.pushBackBuf v.iovBase c).1.iovEnd
    omega
  · show (st.iov.pushBackBuf v.iovBase c).1.iovBegin + R = iovCapacity
    rw [hbeg, hp]
  · intro k hk
    have hk' : k < st.dataIndex := hk
    show st.index k = min (piecesBefore _ k) R
    rw [piecesBefore_add_one, if_neg (by omega), Nat.add_zero, h.starts k hk']
  · show (st.iov.pushBackBuf v.iovBase c).1.iovcnt = min (p + 1) R
    unfold Iovector.iovcnt
    omega
  · show piecesBefore _ st.dataIndex = p + 1
    rw [piecesBefore_add_one, if_pos (by omega), h.total]
  · intro k hk
    have hk' : st.dataIndex ≤ k := hk
    show cnt k + (if k = b / D then 1 else 0) = 0
    rw [h.rest k hk', if_neg (by omega)]

/-- A pass counts one piece, for the packet it starts in. -/
theorem piecesIn_pass (hD : 0 < D) (ha : AtPass D b st) (hv : 0 < v.iovLen)
    (hr : recordPkg D st = some st') (vs : List Iovec) (k : ℕ) :
    piecesIn D b (v :: vs) k = (if k = b / D then 1 else 0)
      + piecesIn D (b + min st'.temp v.iovLen) ((cutPiece D st' v).2 :: vs) k := by
  rw [cutPiece_rest, recordPkg_temp hr, ha.temp_eq, piecesIn, piecesIn, meets_cut b k hD hv,
    Nat.add_assoc, Nat.add_assoc b, Nat.add_sub_cancel' (Nat.min_le_right _ _)]

theorem PieceStarts.passInv (hD : 0 < D) (C : ℕ → ℕ) (N : ℕ) :
    PassInv D fun b vs st => ∃ cnt p, PieceStarts R cnt p st ∧
      (∀ k, cnt k + piecesIn D b vs k = C k) ∧ p + numPieces D b vs = N := by
  constructor
  · rintro b v vs st hv ⟨cnt, p, h, hC, hN⟩
    simp only [piecesIn, numPieces, hv, meets_zero, blocksMet_zero, Nat.zero_add] at hC hN
    exact ⟨cnt, p, h, hC, hN⟩
  · rintro b v vs st st1 ha hv hr ⟨cnt, p, h, hC, hN⟩
    refine ⟨_, _, (h.record hr).cut (ha.record hD hr), fun k => ?_, ?_⟩
    · rw [← hC k, piecesIn_pass hD ha hv hr, Nat.add_assoc]
    · rw [← hN, numPieces_pass hD ha hv hr, Nat.add_assoc]

/-- Every iovec counts once for every packet it reaches into. -/
theorem PieceStarts.splitAll (hD : 0 < D) (vs : List Iovec) (h : PieceStarts R cnt p st)
    (ha : AtPass D b st) (hs : splitIovecs D st vs = some st') :
    PieceStarts R (fun k => cnt k + piecesIn D b vs k) (p + numPieces D b vs) st' := by
  obtain ⟨-, cnt', p', h', hC, hN⟩ := (PieceStarts.passInv hD _ _).splitAll hD vs ha
    ⟨cnt, p, h, fun _ => rfl, rfl⟩ hs
  rwa [← hN, ← funext hC]

/-- No piece has been cut in front of the loop. -/
theorem pieceStarts_start (w : Iovector) (idx : ℕ → ℕ) (t n : ℕ) (hn : n ≤ iovCapacity) :
    PieceStarts (iovCapacity - n) (fun _ => 0) 0 ⟨w.setEmptyAt n, idx, 0, t⟩ := by
  have hmod : (w.setEmptyAt n).iovBegin = n := by
    apply Nat.mod_eq_of_lt
    unfold iovCapacity at hn
    omega
  refine ⟨le_rfl, ?_, ?_, ?_, rfl, fun _ _ => rfl⟩
  · show (w.setEmptyAt n).iovBegin + _ = _
    omega
  · intro k hk
    exact absurd hk (Nat.not_lt_zero k)
  · show (w.setEmptyAt n).iovcnt = min 0 _
    rw [Nat.zero_min]
    exact Nat.sub_self _

/-! ## When no piece is refused -/

/-- `cnt k` pieces have been pushed for packet `k`. -/
structure SplitCount (cnt : ℕ → ℕ) (st : SplitSt) : Prop where
  window : st.iov.iovBegin ≤ st.iov.iovEnd
  gap : ∀ k, k + 1 < st.dataIndex → st.index (k + 1) = st.index k + cnt k
  tail : ∀ k, k + 1 = st.dataIndex → st.iov.iovcnt = st.index k + cnt k
  rest : ∀ k, st.dataIndex ≤ k → cnt k = 0

/-- Where there is a place for every piece, the counts are the differences of the table. -/
theorem PieceStarts.splitCount (h : PieceStarts R cnt p st) (hp : p ≤ R) : SplitCount cnt st := by
  have hstart : ∀ k, k < st.dataIndex → st.index k = piecesBefore cnt k := by
    intro k hk
    have hle := piecesBefore_mono cnt (le_of_lt hk)
    rw [h.total] at hle
    rw [h.starts k hk, Nat.min_eq_left (by omega)]
  refine ⟨h.window, ?_, ?_, h.rest⟩
  · intro k hk
    rw [hstart _ hk, hstart k (by omega), piecesBefore_succ]
  · intro k hk
    rw [h.count, Nat.min_eq_left hp, ← h.total, ← hk, piecesBefore_succ, hstart k (by omega)]

/-! ## In terms of the pushed iovecs -/

theorem piecesIn_append (D off : ℕ) (vs ws : List Iovec) (k : ℕ) :
    piecesIn D off (vs ++ ws) k = piecesIn D off vs k + piecesIn D (off + iovSum vs) ws k := by
  induction vs generalizing off with
  | nil => simp [piecesIn]
  | cons v vs ih =>
    rw [List.cons_append, piecesIn, piecesIn, ih, iovSum_cons, Nat.add_assoc, Nat.add_assoc]

theorem piecesIn_of_iovSum_zero (D off : ℕ) (vs : List Iovec) (k : ℕ) (h : iovSum vs = 0) :
    piecesIn D off vs k = 0 := by
  induction vs generalizing off with
  | nil => rfl
  | cons v vs ih =>
    rw [iovSum_cons] at h
    rw [piecesIn, show v.iovLen = 0 by omega, meets_zero, ih _ (by omega)]

end HuiRpc
