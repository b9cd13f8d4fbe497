/-
# What a packetised message carries

`Packetise` follows the splitting loop; this module reads its result the way the
transport does, through `get_n_data` after the headers have been pushed.

* `Serializer.Ready` : what the constructor, `push_back`, `clear` and `init_data_iov`
  keep true of a serializer that is being filled;
* `PktTable` : the shape of the packet table, for any outcome of the split;
* `Fits` : the packets and the pieces fit the arrays;
* `Filled` : how a serializer comes to hold a list of iovecs.

The shape and the content are kept apart: when the iovec array overflows the table is
still a partition of the entries, but the entries are no longer the message.
-/
import HuiRpc.PieceCount

namespace HuiRpc

open Blocks

/-! ## Serializers that are being filled -/

/-- One entry is free in front for a header, and the scratch vector is as the
constructor made it. -/
structure Serializer.Ready (s : Serializer) : Prop where
  room : 1 ≤ s.iov.iovBegin
  window : s.iov.iovBegin ≤ s.iov.iovEnd
  fits : s.iov.iovEnd ≤ iovCapacity
  tCapacity : s.tIov.capacity = iovCapacity
  tBegin : s.tIov.iovBegin = defPreserve

theorem Serializer.ready_new (junk : Serializer) : (Serializer.new junk).Ready :=
  ⟨show 1 ≤ defPreserve by decide, le_rfl, show defPreserve ≤ iovCapacity by decide, rfl, rfl⟩

theorem Serializer.Ready.clear {s : Serializer} (h : s.Ready) : s.clear.Ready :=
  ⟨le_rfl, le_rfl, show 1 ≤ iovCapacity by decide, h.tCapacity, h.tBegin⟩

theorem Serializer.Ready.push {s : Serializer} (h : s.Ready) (v : Iovec) : (s.push v).Ready := by
  have hend : (s.push v).iov.iovEnd = min (s.iov.iovEnd + 1) iovCapacity :=
    Iovector.pushBackBuf_iovEnd _ _ _ h.fits
  have hbeg : (s.push v).iov.iovBegin = s.iov.iovBegin := Iovector.pushBackBuf_iovBegin _ _ _
  have hw := h.window
  have hf := h.fits
  refine ⟨?_, ?_, ?_, h.tCapacity, h.tBegin⟩
  · rw [hbeg]
    exact h.room
  · omega
  · omega

/-- The scratch copy keeps its frame. -/
theorem foldl_pushBack_frame (es : List Iovec) (t : Iovector) (hc : t.iovEnd ≤ t.capacity) :
    (es.foldl (fun t x => (t.pushBack x).1) t).capacity = t.capacity ∧
      (es.foldl (fun t x => (t.pushBack x).1) t).iovBegin = t.iovBegin := by
  induction es generalizing t with
  | nil => exact ⟨rfl, rfl⟩
  | cons x es ih =>
    rw [List.foldl_cons]
    by_cases hr : t.iovEnd < t.capacity
    · have hpush : (t.pushBack x).1 = { t with
          iovs := Function.update t.iovs t.iovEnd x, iovEnd := t.iovEnd + 1 } := by
        rw [Iovector.pushBack, if_pos hr]
      rw [hpush]
      exact ih _ hr
    · rw [Iovector.pushBack_full t x hr]
      exact ih t hc

/-- The entries that `t_iov` has room for. -/
def copied (s : Serializer) : List Iovec := s.iov.entries.take (iovCapacity - defPreserve)

theorem copyIov_entries {s : Serializer} (h : s.Ready) :
    (copyIov s.tIov s.iov.entries).entries = copied s := by
  rw [copyIov, Iovector.entries_foldl_pushBack _ _ le_rfl, Iovector.entries_clear,
    List.nil_append, copied]
  show s.iov.entries.take (s.tIov.capacity - s.tIov.iovBegin) = _
  rw [h.tBegin, h.tCapacity]

theorem iovSum_copied_le (s : Serializer) : iovSum (copied s) ≤ iovSum s.iov.entries := by
  have h := congrArg iovSum (List.take_append_drop (iovCapacity - defPreserve) s.iov.entries)
  rw [iovSum_append] at h
  unfold copied
  omega

/-! ## The outcomes of `init_data_iov` -/

variable {m : Mem} {D n k hdr : ℕ} {s s' : Serializer} {vs : List Iovec}

/-- The number of packets that the loop opens. -/
def loopPkts (D : ℕ) (s : Serializer) : ℕ := (iovSum (copied s) + D - 1) / D

/-- `sum / D`, one more when the division leaves a remainder. -/
theorem div_add_one_of_mod (D size : ℕ) (hD : 0 < D) :
    size / D + (if size % D = 0 then 0 else 1) = (size + D - 1) / D := by
  symm
  have hdm := Nat.div_add_mod size D
  have hmod := Nat.mod_lt size hD
  rw [Nat.mul_comm] at hdm
  apply eq_ceil_of_bounds hD
  · split_ifs with h
    · rw [Nat.add_zero]
      omega
    · rw [Nat.succ_mul]
      omega
  · split_ifs with h
    · rw [Nat.add_zero]
      omega
    · rw [Nat.succ_mul]
      omega

/-- The result of the loop, stored back. -/
def storeSplit (s : Serializer) (t : Iovector) (st : SplitSt) : Serializer :=
  { s with
    iov := st.iov
    totalPkg := st.dataIndex
    tIov := t.drained
    dataPkgIndex := Function.update st.index st.dataIndex st.iov.iovcnt }

/-- The state in front of the splitting loop. -/
def loopStart (D : ℕ) (s : Serializer) : SplitSt :=
  ⟨s.iov.clear.setEmptyAt (loopPkts D s), s.dataPkgIndex, 0, D⟩

/-- When the packet table has room, the bytes of the scratch copy do not wrap. -/
theorem copyIov_sum (hr : s.Ready) (hD : 0 < D) (hint : D < 2 ^ 31)
    (hn : loopPkts D s < pkgIndexSize) :
    (copyIov s.tIov s.iov.entries).sum = iovSum (copied s) := by
  have hceil := (ceil_bounds D (iovSum (copied s)) hD).1
  have hmul : loopPkts D s * D ≤ pkgIndexSize * D := Nat.mul_le_mul_right D (le_of_lt hn)
  have hsum : iovSum (copied s) ≤ pkgIndexSize * D := le_trans hceil hmul
  rw [Iovector.sum, copyIov_entries hr]
  rw [show pkgIndexSize = 2000 from rfl] at hsum
  omega

/-- **More than one packet.**  When the packet table has room the loop runs to its end,
and its invariant holds of what is stored back. -/
theorem initDataIov_large (hr : s.Ready) (hD : 0 < D) (hint : D < 2 ^ 31)
    (hs : D < s.iov.sum) (hn : loopPkts D s < pkgIndexSize) :
    ∃ st, splitIovecs D (loopStart D s) (copied s) = some st ∧ initDataIov D s
        = some (loopPkts D s, storeSplit s (copyIov s.tIov s.iov.entries) st) ∧
      st.dataIndex = loopPkts D s ∧
      (∀ m, SplitInv m D (loopPkts D s) (bytesOf m (copied s)) (iovSum (copied s))
        (numPieces D 0 (copied s)) st) ∧
      PieceStarts (iovCapacity - loopPkts D s) (piecesIn D 0 (copied s))
        (numPieces D 0 (copied s)) st := by
  have hceil := (ceil_bounds D (iovSum (copied s)) hD).1
  have hmul : loopPkts D s * D ≤ pkgIndexSize * D := Nat.mul_le_mul_right D (le_of_lt hn)
  have hsum : iovSum (copied s) ≤ pkgIndexSize * D := le_trans hceil hmul
  have hcap : loopPkts D s ≤ iovCapacity := by
    have : pkgIndexSize ≤ iovCapacity := by decide
    omega
  have hstart := fun m => splitInv_start m D (bytesOf m (copied s)) s.iov.clear
    s.dataPkgIndex hcap
  obtain ⟨st, hst⟩ := splitIovecs_total hD (copied s) (hstart fun _ => 0).2 (by omega)
  have hinv := fun m => (hstart m).1.splitAll hD hcap (copied s) (hstart m).2
    (List.prefix_refl _) hst
  have hidx : st.dataIndex = loopPkts D s := by
    have h := ((hstart fun _ => 0).2.splitAll hD (copied s) hst).dataIndex_eq hD
    rwa [Nat.zero_add] at h
  refine ⟨st, hst, ?_, hidx, fun m => ?_, ?_⟩
  · rw [initDataIov, if_neg (by omega)]
    simp only
    rw [copyIov_sum hr hD hint hn, div_add_one_of_mod D _ hD, copyIov_entries hr]
    show Option.bind (splitIovecs D (loopStart D s) (copied s)) _ = _
    rw [loopStart, hst, Option.bind_some, if_pos (by omega), hidx, storeSplit, hidx]
  · have h := hinv m
    rwa [Nat.zero_add, Nat.zero_add] at h
  · have h := (pieceStarts_start s.iov.clear s.dataPkgIndex D _ hcap).splitAll hD (copied s)
      (hstart fun _ => 0).2 hst
    simp only [Nat.zero_add] at h
    exact h

/-- **Too many packets.**  With 2000 packets or more the packet table is left. -/
theorem initDataIov_overflow (hr : s.Ready) (hD : 0 < D) (hs : D < s.iov.sum)
    (hn : pkgIndexSize ≤ loopPkts D s) : initDataIov D s = none := by
  rw [initDataIov, if_neg (by omega)]
  simp only
  rw [copyIov_entries hr]
  generalize s.iov.clear.setEmptyAt _ = w
  cases hst : splitIovecs D ⟨w, s.dataPkgIndex, 0, D⟩ (copied s) with
  | none => rfl
  | some st =>
    have hstart : AtPass D 0 ⟨w, s.dataPkgIndex, 0, D⟩ := ⟨Nat.zero_le _, Or.inl ⟨rfl, by simp⟩⟩
    have hidx := (hstart.splitAll hD (copied s) hst).dataIndex_eq hD
    rw [Nat.zero_add] at hidx
    rw [Option.bind_some, if_neg]
    rw [hidx]
    exact not_lt.mpr hn

/-! ## The packet table -/

/-- **The shape of the packet table.**  Packet `k` owns the entries from
`data_pkg_index[k]` to `data_pkg_index[k + 1]`, the last one ends at the end of the
window, and the headers have room in front. -/
structure PktTable (n : ℕ) (s : Serializer) : Prop where
  total : s.totalPkg = n
  room : n ≤ s.iov.iovBegin
  first : s.dataPkgIndex 0 = 0
  last : s.dataPkgIndex n = s.iov.iovcnt
  mono : ∀ j k, j ≤ k → k ≤ n → s.dataPkgIndex j ≤ s.dataPkgIndex k

/-- The serializer that `init_data_iov` leaves for a message of one packet. -/
def singlePkt (s : Serializer) : Serializer :=
  { s with
    totalPkg := 1
    dataPkgIndex := Function.update (Function.update s.dataPkgIndex 0 0) 1 s.iov.iovcnt }

theorem initDataIov_one (hs : s.iov.sum ≤ D) : initDataIov D s = some (1, singlePkt s) := if_pos hs

/-- A message of one packet: the table is the whole window. -/
theorem pktTable_singlePkt (hroom : 1 ≤ s.iov.iovBegin) : PktTable 1 (singlePkt s) := by
  refine ⟨rfl, hroom, rfl, rfl, ?_⟩
  intro j k hjk hk
  interval_cases k
  · rw [show j = 0 by omega]
  · show _ ≤ s.iov.iovcnt
    interval_cases j
    · exact Nat.zero_le _
    · exact le_rfl

/-- The packet table with its closing entry. -/
def SplitSt.table (st : SplitSt) : ℕ → ℕ := Function.update st.index st.dataIndex st.iov.iovcnt

theorem SplitSt.table_last (st : SplitSt) : st.table st.dataIndex = st.iov.iovcnt :=
  Function.update_self ..

theorem SplitSt.table_of_lt (st : SplitSt) (hk : k < st.dataIndex) : st.table k = st.index k :=
  Function.update_of_ne (ne_of_lt hk) ..

theorem SplitInv.table_mono {B : List UInt8} {b p : ℕ} {st : SplitSt}
    (h : SplitInv m D n B b p st) {j k : ℕ} (hjk : j ≤ k) (hk : k ≤ st.dataIndex) :
    st.table j ≤ st.table k := by
  rcases hk.lt_or_eq with hk | rfl
  · rw [st.table_of_lt (hjk.trans_lt hk), st.table_of_lt hk]
    exact h.mono j k hjk hk
  · rcases hjk.lt_or_eq with hj | rfl
    · rw [st.table_of_lt hj, st.table_last]
      exact h.bound j hj
    · exact le_rfl

/-- The entries before packet `k` are the message up to it. -/
theorem SplitInv.starts {B : List UInt8} {p : ℕ} {st : SplitSt}
    (h : SplitInv m D n B B.length p st) (hfit : n + p ≤ iovCapacity)
    (hsize : B.length ≤ st.dataIndex * D) (hk : k ≤ st.dataIndex) :
    bytesOf m (st.iov.entries.take (st.table k)) = B.take (k * D) := by
  rcases hk.lt_or_eq with hk | rfl
  · rw [st.table_of_lt hk]
    exact (h.kept hfit).2 k hk
  · rw [st.table_last, ← Iovector.length_entries, List.take_length, (h.kept hfit).1,
      List.take_length, List.take_of_length_le hsize]

/-- What the loop invariant says once the closing entry is stored. -/
theorem SplitInv.pktTable {B : List UInt8} {b p : ℕ} {st : SplitSt} (t : Iovector)
    (h : SplitInv m D n B b p st) (hidx : st.dataIndex = n) (hb : n = 0 → b = 0) :
    PktTable n (storeSplit s t st) := by
  refine ⟨hidx, h.begin_eq.ge, ?_, ?_, ?_⟩
  · show st.table 0 = 0
    rcases Nat.eq_zero_or_pos n with h0 | h0
    · -- no packet at all: no byte was cut, so no piece was pushed
      have hp : p = 0 := h.start (hb h0)
      have hlast := st.table_last
      rw [hidx, h0] at hlast
      rw [hlast, Iovector.iovcnt, h.end_eq]
      omega
    · rw [st.table_of_lt (hidx ▸ h0)]
      exact h.first (hidx ▸ h0)
  · show st.table n = st.iov.iovcnt
    rw [← hidx]
    exact st.table_last
  · intro j k hjk hk
    exact h.table_mono hjk (hidx ▸ hk)

/-- The headers go in front and move nothing. -/
theorem pushHdrs_nth (hdr : ℕ) (n i : ℕ) (s : Serializer) (h : n ≤ s.iov.iovBegin) :
    (pushHdrs hdr n s).iov.nth (n + i) = s.iov.nth i := by
  induction n generalizing s i with
  | zero => rw [Nat.zero_add, pushHdrs]
  | succ n ih =>
    rw [pushHdrs, Nat.add_right_comm, Nat.add_assoc, ih]
    · show (s.iov.pushFront _).1.nth (i + 1) = s.iov.nth i
      rw [Iovector.pushFront, if_pos (by omega)]
      show Function.update s.iov.iovs (s.iov.iovBegin - 1) _ (s.iov.iovBegin - 1 + (i + 1))
        = s.iov.iovs (s.iov.iovBegin + i)
      rw [Function.update_of_ne (by omega)]
      congr 1
      omega
    · show n ≤ (s.iov.pushFront _).1.iovBegin
      rw [Iovector.pushFront, if_pos (by omega)]
      show n ≤ s.iov.iovBegin - 1
      omega

/-- Packet `k` finds its own header. -/
theorem getNHdr_pushHdrs (hdr : ℕ) (n k : ℕ) (s : Serializer) (h : n ≤ s.iov.iovBegin)
    (hk : k < n) : getNHdr (pushHdrs hdr n s) k = hdr + k * sizeofPkthdr := by
  induction n generalizing s with
  | zero => omega
  | succ n ih =>
    have hbeg : (s.iov.pushFront ⟨hdr + n * sizeofPkthdr, sizeofPkthdr⟩).1.iovBegin
        = s.iov.iovBegin - 1 := by
      rw [Iovector.pushFront, if_pos (by omega)]
    rw [pushHdrs]
    by_cases hkn : k = n
    · have h0 := pushHdrs_nth hdr n 0
        { s with iov := (s.iov.pushFront ⟨hdr + n * sizeofPkthdr, sizeofPkthdr⟩).1 }
        (by show n ≤ (s.iov.pushFront _).1.iovBegin; rw [hbeg]; omega)
      rw [Nat.add_zero] at h0
      rw [hkn, getNHdr, h0]
      show ((s.iov.pushFront ⟨hdr + n * sizeofPkthdr, sizeofPkthdr⟩).1.nth 0).iovBase = _
      rw [Iovector.pushFront, if_pos (by omega)]
      show (Function.update s.iov.iovs (s.iov.iovBegin - 1) _ (s.iov.iovBegin - 1 + 0)).iovBase = _
      rw [Nat.add_zero, Function.update_self]
    · exact ih _ (by rw [hbeg]; omega) (by omega)

theorem pushHdrs_totalPkg (hdr n : ℕ) (s : Serializer) :
    (pushHdrs hdr n s).totalPkg = s.totalPkg := by
  induction n generalizing s with
  | zero => rfl
  | succ n ih => rw [pushHdrs, ih]

theorem pushHdrs_dataPkgIndex (hdr n : ℕ) (s : Serializer) :
    (pushHdrs hdr n s).dataPkgIndex = s.dataPkgIndex := by
  induction n generalizing s with
  | zero => rfl
  | succ n ih => rw [pushHdrs, ih]

/-- The iovecs of packet `k`, from its entry of the packet table up to the next one, before the
headers are in place. -/
def pktEntries (iov : Iovector) (index : ℕ → ℕ) (k : ℕ) : List Iovec :=
  (List.range (index (k + 1) - index k)).map fun j => iov.nth (index k + j)

/-- **`get_n_data` skips exactly the headers.** -/
theorem PktTable.getNData_eq (h : PktTable n s) (hdr k : ℕ) :
    getNData (pushHdrs hdr n s) k = pktEntries s.iov s.dataPkgIndex k := by
  unfold getNData pktEntries
  rw [pushHdrs_dataPkgIndex, pushHdrs_totalPkg, h.total]
  apply List.map_congr_left
  intro j _
  rw [Nat.add_assoc, pushHdrs_nth _ _ _ _ h.room]

/-- The only packet of a message is all of it. -/
theorem getNData_singlePkt (hroom : 1 ≤ s.iov.iovBegin) (hdr : ℕ) :
    getNData (pushHdrs hdr 1 (singlePkt s)) 0 = s.iov.entries := by
  rw [(pktTable_singlePkt hroom).getNData_eq]
  show (List.range (s.iov.iovcnt - 0)).map (fun j => s.iov.nth (0 + j)) = _
  simp only [Nat.zero_add]
  rfl

theorem length_pktEntries (iov : Iovector) (index : ℕ → ℕ) (k : ℕ) :
    (pktEntries iov index k).length = index (k + 1) - index k := by
  simp [pktEntries]

theorem PktTable.le_iovcnt (h : PktTable n s) (hk : k ≤ n) :
    s.dataPkgIndex k ≤ s.iov.iovcnt := by
  rw [← h.last]
  exact h.mono k n hk le_rfl

/-- The iovecs of a packet continue those of the packets before it. -/
theorem take_index_succ {iov : Iovector} {index : ℕ → ℕ} (hle : index k ≤ index (k + 1))
    (hin : index (k + 1) ≤ iov.iovcnt) :
    iov.entries.take (index (k + 1)) = iov.entries.take (index k) ++ pktEntries iov index k := by
  have htake : ∀ a, a ≤ iov.iovcnt → iov.entries.take a = (List.range a).map iov.nth := by
    intro a ha
    rw [Iovector.entries, ← List.map_take, List.take_range, Nat.min_eq_left ha]
  rw [htake _ hin, htake _ (hle.trans hin), pktEntries]
  conv_lhs => rw [show index (k + 1) = index k + (index (k + 1) - index k) by omega]
  rw [List.range_add, List.map_append, List.map_map]
  rfl

/-- Packet `k` continues the entries of the packets before it. -/
theorem PktTable.take_succ (h : PktTable n s) (hk : k < n) :
    s.iov.entries.take (s.dataPkgIndex (k + 1))
      = s.iov.entries.take (s.dataPkgIndex k) ++ pktEntries s.iov s.dataPkgIndex k :=
  take_index_succ (h.mono k (k + 1) (Nat.le_succ k) hk) (h.le_iovcnt hk)

/-- **The packets partition the entries**, whatever became of the message. -/
theorem PktTable.flatMap_pktEntries (h : PktTable n s) :
    (List.range n).flatMap (pktEntries s.iov s.dataPkgIndex) = s.iov.entries := by
  have hpre : ∀ k, k ≤ n →
      (List.range k).flatMap (pktEntries s.iov s.dataPkgIndex)
        = s.iov.entries.take (s.dataPkgIndex k) := by
    intro k
    induction k with
    | zero => intro _; rw [h.first]; rfl
    | succ k ih =>
      intro hk
      rw [List.range_succ, List.flatMap_append, ih (by omega), h.take_succ hk]
      simp
  rw [hpre n le_rfl, h.last, ← Iovector.length_entries, List.take_length]

/-- Where the entries before each packet are the message up to that packet, each packet
is its own block of the message. -/
theorem PktTable.bytesOf_pktEntries (h : PktTable n s) {B : List UInt8}
    (hstart : ∀ k, k ≤ n → bytesOf m (s.iov.entries.take (s.dataPkgIndex k)) = B.take (k * D))
    (hk : k < n) (hin : k * D ≤ B.length) :
    bytesOf m (pktEntries s.iov s.dataPkgIndex k) = slice B (k * D) ((k + 1) * D) := by
  apply eq_slice_of_append (hstart k (le_of_lt hk)) hin
  rw [← bytesOf_append, ← h.take_succ hk]
  exact hstart (k + 1) hk

/-! ## Packets and pieces that fit -/

/-- The packets of `es` fit the packet table, its entries fit the scratch copy, and
headers and pieces fit the iovec array.  A message of one packet is not re-cut. -/
def Fits (D : ℕ) (es : List Iovec) : Prop :=
  iovSum es ≤ D ∨
    (numPkts D (iovSum es) < pkgIndexSize ∧
      iovSum (es.take (iovCapacity - defPreserve)) = iovSum es ∧
      numPkts D (iovSum es) + numPieces D 0 es ≤ iovCapacity)

instance (D : ℕ) (es : List Iovec) : Decidable (Fits D es) :=
  inferInstanceAs (Decidable (_ ∨ _))

theorem numPieces_append (D off : ℕ) (vs ws : List Iovec) :
    numPieces D off (vs ++ ws) = numPieces D off vs + numPieces D (off + iovSum vs) ws := by
  induction vs generalizing off with
  | nil => simp [numPieces]
  | cons v vs ih =>
    rw [List.cons_append, numPieces, numPieces, ih, iovSum_cons, Nat.add_assoc, Nat.add_assoc]

/-- Entries of length zero are no pieces. -/
theorem numPieces_of_iovSum_zero (D off : ℕ) (vs : List Iovec) (h : iovSum vs = 0) :
    numPieces D off vs = 0 := by
  induction vs generalizing off with
  | nil => rfl
  | cons v vs ih =>
    rw [iovSum_cons] at h
    rw [numPieces, show v.iovLen = 0 by omega, blocksMet_zero, ih _ (by omega)]

theorem bytesOf_of_iovSum_zero (m : Mem) (vs : List Iovec) (h : iovSum vs = 0) :
    bytesOf m vs = [] := by
  rw [← List.length_eq_zero_iff, length_bytesOf, h]

/-- What the scratch copy drops when no byte is dropped. -/
theorem copied_of_iovSum_eq (h : iovSum (copied s) = iovSum s.iov.entries) :
    (∀ m, bytesOf m (copied s) = bytesOf m s.iov.entries) ∧
      (∀ D, numPieces D 0 (copied s) = numPieces D 0 s.iov.entries) ∧
      ∀ D, piecesIn D 0 (copied s) = piecesIn D 0 s.iov.entries := by
  have hsplit : copied s ++ s.iov.entries.drop (iovCapacity - defPreserve) = s.iov.entries :=
    List.take_append_drop _ _
  have hzero : iovSum (s.iov.entries.drop (iovCapacity - defPreserve)) = 0 := by
    have hsum := congrArg iovSum hsplit
    rw [iovSum_append] at hsum
    omega
  refine ⟨fun m => ?_, fun D => ?_, fun D => ?_⟩
  · conv_rhs => rw [← hsplit, bytesOf_append, bytesOf_of_iovSum_zero m _ hzero, List.append_nil]
  · conv_rhs => rw [← hsplit, numPieces_append, numPieces_of_iovSum_zero _ _ _ hzero,
      Nat.add_zero]
  · funext k
    conv_rhs => rw [← hsplit, piecesIn_append, piecesIn_of_iovSum_zero _ _ _ _ hzero,
      Nat.add_zero]

/-- **A message cut into `n` packets of `D` bytes.**  `s'` is `s` re-cut: same bytes,
and the entries before packet `k` are the first `k * D` of them. -/
structure CutInto (D n : ℕ) (s s' : Serializer) : Prop where
  ready : s'.Ready
  table : PktTable n s'
  bytes : ∀ m, bytesOf m s'.iov.entries = bytesOf m s.iov.entries
  starts : ∀ m k, k ≤ n → bytesOf m (s'.iov.entries.take (s'.dataPkgIndex k))
    = (bytesOf m s.iov.entries).take (k * D)
  pieces : ∀ k, k < n →
    s'.dataPkgIndex (k + 1) = s'.dataPkgIndex k + pktPieces D s.iov.entries k

/-- A message of one packet: the table is the whole window. -/
theorem initDataIov_cut_small (hr : s.Ready) (hint : D < 2 ^ 31)
    (hle : iovSum s.iov.entries ≤ D) :
    ∃ s', initDataIov D s = some (1, s') ∧ CutInto D 1 s s' := by
  have hsum : s.iov.sum ≤ D := by
    rw [Iovector.sum, Nat.mod_eq_of_lt (by omega)]
    exact hle
  refine ⟨_, initDataIov_one hsum, ⟨hr.room, hr.window, hr.fits, hr.tCapacity, hr.tBegin⟩,
    pktTable_singlePkt hr.room, fun _ => rfl, ?_, ?_⟩
  · intro m k hk
    interval_cases k
    · show bytesOf m (s.iov.entries.take 0) = _
      simp
    · show bytesOf m (s.iov.entries.take s.iov.iovcnt) = _
      rw [← Iovector.length_entries, List.take_length, Nat.one_mul, List.take_of_length_le]
      rw [length_bytesOf]
      exact hle
  · intro k hk
    rw [show k = 0 by omega, pktPieces, if_pos hle, Iovector.length_entries]
    show s.iov.iovcnt = 0 + s.iov.iovcnt
    omega

/-- What the loop invariant says of a message that lost no byte. -/
theorem SplitInv.cutInto {p : ℕ} {st : SplitSt} (t : Iovector)
    (ht : t.capacity = iovCapacity ∧ t.iovBegin = defPreserve)
    (hinv : ∀ m, SplitInv m D n (bytesOf m s.iov.entries) (iovSum s.iov.entries) p st)
    (hcnt : SplitCount (pktPieces D s.iov.entries) st)
    (hidx : st.dataIndex = n) (hn : 1 ≤ n) (hfit : n + p ≤ iovCapacity)
    (hsize : iovSum s.iov.entries ≤ n * D) : CutInto D n s (storeSplit s t st) := by
  have hall : ∀ m, bytesOf m st.iov.entries = bytesOf m s.iov.entries := by
    intro m
    rw [((hinv m).kept hfit).1, List.take_of_length_le (by rw [length_bytesOf])]
  have hbeg := (hinv fun _ => 0).begin_eq
  have hend := (hinv fun _ => 0).end_eq
  refine ⟨⟨?_, ?_, ?_, ht.1, ht.2⟩, (hinv fun _ => 0).pktTable t hidx (by omega), hall, ?_, ?_⟩
  · show 1 ≤ st.iov.iovBegin
    omega
  · show st.iov.iovBegin ≤ st.iov.iovEnd
    omega
  · show st.iov.iovEnd ≤ iovCapacity
    omega
  · intro m k hk
    have hm := hinv m
    rw [← length_bytesOf m] at hm
    exact hm.starts hfit (by rw [length_bytesOf, hidx]; exact hsize) (hidx ▸ hk)
  · intro k hk
    show Function.update st.index st.dataIndex st.iov.iovcnt (k + 1)
      = Function.update st.index st.dataIndex st.iov.iovcnt k + _
    rw [Function.update_of_ne (by omega : k ≠ st.dataIndex)]
    by_cases hkn : k + 1 = st.dataIndex
    · rw [hkn, Function.update_self]
      exact hcnt.tail k hkn
    · rw [Function.update_of_ne hkn]
      exact hcnt.gap k (by omega)

theorem copyIov_frame (hr : s.Ready) (es : List Iovec) :
    (copyIov s.tIov es).capacity = iovCapacity ∧
      (copyIov s.tIov es).iovBegin = defPreserve := by
  have hc : s.tIov.clear.iovEnd ≤ s.tIov.clear.capacity := by
    show s.tIov.iovBegin ≤ s.tIov.capacity
    rw [hr.tBegin, hr.tCapacity]
    decide
  obtain ⟨h1, h2⟩ := foldl_pushBack_frame es s.tIov.clear hc
  exact ⟨h1.trans hr.tCapacity, h2.trans hr.tBegin⟩

/-- A message of several packets that fits. -/
theorem initDataIov_cut_large (hr : s.Ready) (hD : 0 < D) (hint : D < 2 ^ 31)
    (hlt : D < iovSum s.iov.entries)
    (hpk : numPkts D (iovSum s.iov.entries) < pkgIndexSize)
    (hcopy : iovSum (copied s) = iovSum s.iov.entries)
    (hpc : numPkts D (iovSum s.iov.entries) + numPieces D 0 s.iov.entries ≤ iovCapacity) :
    ∃ s', initDataIov D s = some (numPkts D (iovSum s.iov.entries), s') ∧
      CutInto D (numPkts D (iovSum s.iov.entries)) s s' := by
  obtain ⟨hbytes, hpieces, hpktPieces⟩ := copied_of_iovSum_eq hcopy
  have hnum : numPkts D (iovSum s.iov.entries) = loopPkts D s := by
    rw [numPkts, if_neg (by omega), loopPkts, hcopy]
  have hceil := (ceil_bounds D (iovSum (copied s)) hD).1
  rw [hcopy] at hceil
  have hsize : iovSum s.iov.entries ≤ loopPkts D s * D := by
    rw [loopPkts, hcopy]
    exact hceil
  rw [hnum] at hpk hpc ⊢
  have hmul : loopPkts D s * D ≤ pkgIndexSize * D := Nat.mul_le_mul_right D (le_of_lt hpk)
  have hsum : D < s.iov.sum := by
    rw [show pkgIndexSize = 2000 from rfl] at hmul
    rw [Iovector.sum, Nat.mod_eq_of_lt (by omega)]
    exact hlt
  have hpos : 1 ≤ loopPkts D s := by
    rcases Nat.eq_zero_or_pos (loopPkts D s) with h0 | h0
    · rw [h0] at hsize
      omega
    · exact h0
  obtain ⟨st, -, hinit, hidx, hinv, hcnt⟩ := initDataIov_large hr hD hint hsum hpk
  have hcnt' : SplitCount (pktPieces D s.iov.entries) st := by
    have h := hcnt.splitCount (by rw [hpieces]; omega)
    rw [hpktPieces] at h
    rwa [show pktPieces D s.iov.entries = piecesIn D 0 s.iov.entries by
      funext k
      rw [pktPieces, if_neg (by omega)]]
  have hinv' : ∀ m, SplitInv m D (loopPkts D s) (bytesOf m s.iov.entries)
      (iovSum s.iov.entries) (numPieces D 0 s.iov.entries) st := by
    intro m
    rw [← hbytes, ← hpieces, ← hcopy]
    exact hinv m
  exact ⟨_, hinit, SplitInv.cutInto _ (copyIov_frame hr _) hinv' hcnt' hidx hpos hpc
    hsize⟩

/-- **The table of a message that fits.** -/
theorem initDataIov_of_fits (hr : s.Ready) (hD : 0 < D) (hint : D < 2 ^ 31)
    (hfit : Fits D s.iov.entries) :
    ∃ s', initDataIov D s = some (numPkts D (iovSum s.iov.entries), s') ∧
      CutInto D (numPkts D (iovSum s.iov.entries)) s s' := by
  by_cases hle : iovSum s.iov.entries ≤ D
  · rw [numPkts, if_pos hle]
    exact initDataIov_cut_small hr hint hle
  · rcases hfit with hsmall | ⟨hpk, hcopy, hpc⟩
    · exact absurd hsmall hle
    · exact initDataIov_cut_large hr hD hint (by omega) hpk hcopy hpc

/-- **A message that does not fit.**  If `init_data_iov` returns at all, bytes are missing
from the entries, or the byte sum had wrapped around. -/
theorem initDataIov_not_fits (hr : s.Ready) (hD : 0 < D) (hint : D < 2 ^ 31)
    (hnf : ¬ Fits D s.iov.entries) (hinit : initDataIov D s = some (n, s')) :
    PktTable n s' ∧ n < pkgIndexSize ∧
      (iovSum s'.iov.entries < iovSum s.iov.entries ∨
        (n = 1 ∧ 2 ^ 64 ≤ iovSum s'.iov.entries)) := by
  have hlt : D < iovSum s.iov.entries := by
    by_contra hle
    exact hnf (Or.inl (by omega))
  by_cases hs : s.iov.sum ≤ D
  · rw [initDataIov_one hs, Option.some.injEq] at hinit
    obtain ⟨rfl, rfl⟩ := hinit
    refine ⟨pktTable_singlePkt hr.room, by decide, Or.inr ⟨rfl, ?_⟩⟩
    show 2 ^ 64 ≤ iovSum s.iov.entries
    by_contra hwrap
    rw [Iovector.sum] at hs
    omega
  · by_cases hpk : loopPkts D s < pkgIndexSize
    · obtain ⟨st, -, hst, hidx, hinv, -⟩ := initDataIov_large hr hD hint (by omega) hpk
      rw [hinit, Option.some.injEq] at hst
      obtain ⟨rfl, rfl⟩ := hst
      have hbound := (ceil_bounds D (iovSum (copied s)) hD).1
      have hzero : loopPkts D s = 0 → iovSum (copied s) = 0 := by
        intro h0
        unfold loopPkts at h0
        rw [h0] at hbound
        omega
      refine ⟨(hinv fun _ => 0).pktTable _ hidx hzero, hpk, Or.inl ?_⟩
      show iovSum st.iov.entries < _
      have hsum := (hinv fun _ => 0).sum_le
      have hle := iovSum_copied_le s
      by_cases hcopy : iovSum (copied s) = iovSum s.iov.entries
      · -- every byte was copied, so the pieces are what did not fit
        obtain ⟨-, hpieces, -⟩ := copied_of_iovSum_eq hcopy
        have hnum : numPkts D (iovSum s.iov.entries) = loopPkts D s := by
          rw [numPkts, if_neg (by omega), loopPkts, hcopy]
        have hfull : iovCapacity < loopPkts D s + numPieces D 0 (copied s) := by
          by_contra hroom
          refine hnf (Or.inr ⟨?_, hcopy, ?_⟩)
          · rw [hnum]
            exact hpk
          · rw [hnum, ← hpieces]
            omega
        have := (hinv fun _ => 0).lost hfull
        omega
      · omega
    · rw [initDataIov_overflow hr hD (by omega) (by omega)] at hinit
      exact absurd hinit (by simp)

/-! ## Filling a serializer -/

/-- `Filled vs s`: the serializer `s` was built by its constructor and holds the pushed
iovecs `vs`, possibly re-cut by earlier calls of `init_data_iov`. -/
inductive Filled : List Iovec → Serializer → Prop
  | new (junk : Serializer) : Filled [] (Serializer.new junk)
  | clear {vs : List Iovec} {s : Serializer} : Filled vs s → Filled [] s.clear
  | push {vs : List Iovec} {s : Serializer} (v : Iovec) : Filled vs s →
      s.iov.iovEnd < iovCapacity → Filled (vs ++ [v]) (s.push v)
  | cut {vs : List Iovec} {s s' : Serializer} {D n : ℕ} : Filled vs s → 0 < D → D < 2 ^ 31 →
      Fits D s.iov.entries → initDataIov D s = some (n, s') → Filled vs s'

/-- A filled serializer is ready for its headers and holds the bytes pushed into it. -/
theorem Filled.spec (h : Filled vs s) :
    s.Ready ∧ ∀ m, bytesOf m s.iov.entries = bytesOf m vs := by
  induction h with
  | new junk => exact ⟨Serializer.ready_new junk, fun m => by simp [Serializer.new]⟩
  | clear _ ih => exact ⟨ih.1.clear, fun m => by simp [Serializer.clear]⟩
  | @push vs s v _ hroom ih =>
    refine ⟨ih.1.push v, fun m => ?_⟩
    show bytesOf m (s.iov.pushBackBuf v.iovBase v.iovLen).1.entries = _
    rw [Iovector.entries_pushBackBuf _ _ _ ih.1.window hroom, bytesOf_append, bytesOf_append,
      ih.2 m]
  | @cut vs s s' D n _ hD hint hfit hinit ih =>
    obtain ⟨s1, h1, hcut⟩ := initDataIov_of_fits ih.1 hD hint hfit
    rw [hinit] at h1
    have hs : s' = s1 := (Prod.mk.inj (Option.some.inj h1)).2
    rw [hs]
    exact ⟨hcut.ready, fun m => (hcut.bytes m).trans (ih.2 m)⟩

theorem Filled.iovSum_eq (h : Filled vs s) : iovSum s.iov.entries = iovSum vs := by
  rw [← length_bytesOf (fun _ => 0), h.spec.2, length_bytesOf]

/-! ## The partition -/

/-- Packet `k` starts inside the message. -/
theorem mul_le_of_lt_numPkts {size : ℕ} (hD : 0 < D) (hk : k < numPkts D size) :
    k * D ≤ size := by
  unfold numPkts at hk
  split_ifs at hk with h
  · rw [show k = 0 by omega, Nat.zero_mul]
    exact Nat.zero_le _
  · have hhi := (ceil_bounds D size hD).2
    have hmul : (k + 1) * D ≤ (size + D - 1) / D * D := Nat.mul_le_mul_right D hk
    rw [Nat.succ_mul] at hmul
    omega

/-- Every packet but the last ends inside the message. -/
theorem succ_mul_le_of_lt_numPkts {size : ℕ} (hD : 0 < D) (hk : k + 1 < numPkts D size) :
    (k + 1) * D ≤ size := mul_le_of_lt_numPkts hD hk

/-- The packets cover the message. -/
theorem le_numPkts_mul {size : ℕ} (hD : 0 < D) : size ≤ numPkts D size * D := by
  unfold numPkts
  split_ifs with h
  · omega
  · exact (ceil_bounds D size hD).1

/-- Packet `k` carries bytes `k * D` to `(k + 1) * D` of the message. -/
theorem CutInto.getNData (hcut : CutInto D (numPkts D (iovSum s.iov.entries)) s s') (hD : 0 < D)
    (hdr : ℕ) (m : Mem) (hk : k < numPkts D (iovSum s.iov.entries)) :
    bytesOf m (getNData (pushHdrs hdr (numPkts D (iovSum s.iov.entries)) s') k)
      = slice (bytesOf m s.iov.entries) (k * D) ((k + 1) * D) := by
  rw [hcut.table.getNData_eq]
  apply hcut.table.bytesOf_pktEntries (hcut.starts m) hk
  rw [length_bytesOf]
  exact mul_le_of_lt_numPkts hD hk

/-- The packets concatenate to the message. -/
theorem CutInto.flatMap_getNData (hcut : CutInto D (numPkts D (iovSum s.iov.entries)) s s')
    (hD : 0 < D) (hdr : ℕ) (m : Mem) :
    (List.range (numPkts D (iovSum s.iov.entries))).flatMap (fun k =>
        bytesOf m (HuiRpc.getNData (pushHdrs hdr (numPkts D (iovSum s.iov.entries)) s') k))
      = bytesOf m s.iov.entries := by
  rw [← List.take_of_length_le (l := bytesOf m s.iov.entries)
    (i := numPkts D (iovSum s.iov.entries) * D)
    (by rw [length_bytesOf]; exact le_numPkts_mul hD), ← flatMap_slice]
  apply List.flatMap_congr
  intro k hk
  exact hcut.getNData hD hdr m (List.mem_range.mp hk)

/-- **`init_data_iov` partitions the message.**  For every filled serializer and every
`D` whose packets and pieces fit, the result is the packet count of the message; packet
`k` carries bytes `[k * D, min ((k + 1) * D, sum))` of the pushed iovecs, every packet
but the last carries `D` bytes, and the packets concatenate to the message. -/
theorem initDataIov_partition (hf : Filled vs s) (hD : 1 ≤ D) (hint : D < 2 ^ 31)
    (hfit : Fits D s.iov.entries) (hdr : ℕ) :
    ∃ s', initDataIov D s = some (numPkts D (iovSum vs), s') ∧
      (∀ m k, k < numPkts D (iovSum vs) →
        bytesOf m (getNData (pushHdrs hdr (numPkts D (iovSum vs)) s') k)
          = slice (bytesOf m vs) (k * D) (min ((k + 1) * D) (iovSum vs))) ∧
      (∀ k, k + 1 < numPkts D (iovSum vs) →
        iovSum (getNData (pushHdrs hdr (numPkts D (iovSum vs)) s') k) = D) ∧
      ∀ m, (List.range (numPkts D (iovSum vs))).flatMap
        (fun k => bytesOf m (getNData (pushHdrs hdr (numPkts D (iovSum vs)) s') k))
          = bytesOf m vs := by
  obtain ⟨hr, hbytes⟩ := hf.spec
  obtain ⟨s', hinit, hcut⟩ := initDataIov_of_fits hr hD hint hfit
  have hpkt := fun m k => hcut.getNData (k := k) hD hdr m
  have hall := hcut.flatMap_getNData hD hdr
  simp only [hf.iovSum_eq, hbytes] at hinit hpkt hall
  refine ⟨s', hinit, ?_, ?_, hall⟩
  · intro m k hk
    rw [hpkt m k hk, slice, slice, ← List.take_take, List.take_of_length_le (i := iovSum vs)]
    rw [length_bytesOf]
  · intro k hk
    rw [← length_bytesOf (fun _ => 0), hpkt _ k (by omega), length_slice, length_bytesOf,
      Nat.min_eq_left (succ_mul_le_of_lt_numPkts hD hk), Nat.succ_mul]
    omega

/-- Nine bytes in two iovecs with an empty one between, in packets of four. -/
def nineBytes : Serializer :=
  (((Serializer.new default).push ⟨100, 6⟩).push ⟨200, 0⟩).push ⟨300, 3⟩

theorem nineBytes_filled : Filled [⟨100, 6⟩, ⟨200, 0⟩, ⟨300, 3⟩] nineBytes :=
  Filled.push _ (Filled.push _ (Filled.push _ (Filled.new default) (by decide)) (by decide))
    (by decide)

theorem initDataIov_partition_nineBytes :
    Fits 4 nineBytes.iov.entries ∧ ∃ s', initDataIov 4 nineBytes = some (3, s') ∧
      ∀ m k, k < 3 → bytesOf m (getNData (pushHdrs 1000 3 s') k)
        = slice (bytesOf m [⟨100, 6⟩, ⟨200, 0⟩, ⟨300, 3⟩]) (k * 4) (min ((k + 1) * 4) 9) := by
  have hfit : Fits 4 nineBytes.iov.entries := by decide
  obtain ⟨s', hinit, hpkt, -⟩ :=
    initDataIov_partition nineBytes_filled (by decide) (by decide) hfit 1000
  exact ⟨hfit, s', hinit, hpkt⟩

/-- A message of one iovec of `len` bytes. -/
def oneIovec (len : ℕ) : Serializer := (Serializer.new default).push ⟨100, len⟩

theorem oneIovec_filled (len : ℕ) : Filled [⟨100, len⟩] (oneIovec len) :=
  Filled.push _ (Filled.new default) (by decide)

end HuiRpc
