/-
# `init_data_iov` cuts a message into packets of `D` bytes

The splitting loop fills the iovec array and the packet table together, and the
length of the table is also the packet counter.  `SplitInv` ties them: after `b`
bytes and `p` pieces, every recorded packet `k` starts at the piece that begins at
byte `k * D`.  `AtPass` is the loop condition that goes with it: either the packet is
full and `b` is a boundary, or `temp` bytes are missing to the next one.

* `splitIovecs_spec` : the loop keeps the invariant and the counts;
* `splitIovecs_overflow` : it leaves the packet table exactly when a packet number
  2001 is opened;
* `initDataIov_partition` : the packets carry the message, `D` bytes each.

The invariant also follows the loop when the iovec array runs full (`lost`): the
refused pieces are then missing from the array, which is what the size accounting of
the headers is compared with later.
-/
import HuiRpc.Serializer

namespace HuiRpc

open Blocks

variable {m : Mem} {D n b p : ℕ} {B : List UInt8} {st st' : SplitSt} {v : Iovec}

/-! ## One pass of the loop body -/

/-- The loop body in one formula: `min temp len` bytes are moved. -/
theorem cutPiece_eq (D : ℕ) (st : SplitSt) (v : Iovec) :
    cutPiece D st v
      = ({ st with
            iov := (st.iov.pushBackBuf v.iovBase (min st.temp v.iovLen)).1
            temp := if st.temp ≤ v.iovLen then D else st.temp - v.iovLen },
          ⟨v.iovBase + min st.temp v.iovLen, v.iovLen - min st.temp v.iovLen⟩) := by
  unfold cutPiece
  by_cases h1 : v.iovLen < st.temp
  · rw [if_pos h1, Nat.min_eq_right (le_of_lt h1), if_neg (by omega), Nat.sub_self]
  · by_cases h2 : st.temp < v.iovLen
    · rw [if_neg h1, if_pos h2, Nat.min_eq_left (le_of_lt h2), if_pos (le_of_lt h2)]
    · have h3 : st.temp = v.iovLen := by omega
      rw [if_neg h1, if_neg h2, ← h3, Nat.min_self, if_pos le_rfl, Nat.sub_self]

/-- **The splitting invariant.**  `b` bytes of the message `B` have been cut into `p`
pieces and pushed behind the `n` places kept for the headers. -/
structure SplitInv (m : Mem) (D n : ℕ) (B : List UInt8) (b p : ℕ) (st : SplitSt) : Prop where
  begin_eq : st.iov.iovBegin = n
  end_eq : st.iov.iovEnd = min (n + p) iovCapacity
  start : b = 0 → p = 0
  first : 0 < st.dataIndex → st.index 0 = 0
  mono : ∀ j k, j ≤ k → k < st.dataIndex → st.index j ≤ st.index k
  bound : ∀ k, k < st.dataIndex → st.index k ≤ st.iov.iovcnt
  kept : n + p ≤ iovCapacity → bytesOf m st.iov.entries = B.take b ∧
    ∀ k, k < st.dataIndex → bytesOf m (st.iov.entries.take (st.index k)) = B.take (k * D)
  sum_le : iovSum st.iov.entries ≤ b
  lost : iovCapacity < n + p → iovSum st.iov.entries < b

/-- Between two passes: the packet is full at a boundary, or `temp` bytes short. -/
def AtPass (D b : ℕ) (st : SplitSt) : Prop :=
  st.dataIndex ≤ pkgIndexSize ∧ ((st.temp = D ∧ b = st.dataIndex * D) ∨
    (0 < st.temp ∧ st.temp < D ∧ b + st.temp = st.dataIndex * D))

/-- Inside a pass the packet that receives the piece has been recorded. -/
def PktOpen (D b : ℕ) (st : SplitSt) : Prop :=
  st.dataIndex ≤ pkgIndexSize ∧ 0 < st.temp ∧ st.temp ≤ D ∧ b + st.temp = st.dataIndex * D

/-- `temp` is the distance to the next packet boundary. -/
theorem AtPass.temp_eq (h : AtPass D b st) : st.temp = D - b % D := by
  rcases h with ⟨-, ⟨ht, hb⟩ | ⟨h0, hlt, hb⟩⟩
  · rw [hb, Nat.mul_mod_left, ht, Nat.sub_zero]
  · have hq : 0 < st.dataIndex := by
      rcases Nat.eq_zero_or_pos st.dataIndex with hz | hz
      · rw [hz] at hb
        omega
      · exact hz
    obtain ⟨q, hq'⟩ : ∃ q, st.dataIndex = q + 1 := ⟨st.dataIndex - 1, by omega⟩
    rw [hq', Nat.succ_mul] at hb
    have hbq : b = (D - st.temp) + D * q := by
      rw [Nat.mul_comm D q]
      omega
    rw [hbq, Nat.add_mul_mod_self_left, Nat.mod_eq_of_lt (by omega)]
    omega

/-- The packet table has no room only when packet number 2001 would be opened. -/
theorem recordPkg_eq_none (h : recordPkg D st = none) :
    st.temp = D ∧ pkgIndexSize ≤ st.dataIndex := by
  unfold recordPkg at h
  split_ifs at h with h1 h2
  exact ⟨h1, by omega⟩

theorem recordPkg_temp (h : recordPkg D st = some st') : st'.temp = st.temp := by
  unfold recordPkg at h
  split_ifs at h with h1 h2
  · rw [← Option.some.inj h]
  · rw [← Option.some.inj h]

/-- After the record the open packet lacks `temp` bytes. -/
theorem AtPass.record (hD : 0 < D) (ha : AtPass D b st) (hr : recordPkg D st = some st') :
    PktOpen D b st' := by
  obtain ⟨hq, hroom⟩ := ha
  unfold recordPkg at hr
  split_ifs at hr with h1 h2
  · rw [← Option.some.inj hr]
    show st.dataIndex + 1 ≤ pkgIndexSize ∧ 0 < st.temp ∧ st.temp ≤ D ∧
      b + st.temp = (st.dataIndex + 1) * D
    rw [Nat.succ_mul]
    omega
  · rw [← Option.some.inj hr]
    rcases hroom with ⟨ht, -⟩ | ⟨h0, hlt, hb⟩
    · exact absurd ht h1
    · exact ⟨hq, h0, le_of_lt hlt, hb⟩

/-- After the move the packet is full, or it lacks what the iovec did not fill. -/
theorem PktOpen.cut (ho : PktOpen D b st) (hv : 0 < v.iovLen) :
    AtPass D (b + min st.temp v.iovLen) (cutPiece D st v).1 := by
  obtain ⟨hq, h0, hle, hb⟩ := ho
  rw [cutPiece_eq]
  refine ⟨hq, ?_⟩
  by_cases htl : st.temp ≤ v.iovLen
  · left
    simp only [if_pos htl, Nat.min_eq_left htl]
    exact ⟨trivial, hb⟩
  · right
    simp only [if_neg htl]
    exact ⟨by omega, by omega, by omega⟩

/-- Recording a packet keeps the invariant: the packet that starts now starts at the
boundary `b`. -/
theorem SplitInv.record (hn : n ≤ iovCapacity) (h : SplitInv m D n B b p st)
    (ha : AtPass D b st) (hr : recordPkg D st = some st') : SplitInv m D n B b p st' := by
  unfold recordPkg at hr
  split_ifs at hr with h1 h2
  · have hb : b = st.dataIndex * D := by
      rcases ha with ⟨-, ⟨-, hb⟩ | ⟨-, hlt, -⟩⟩
      · exact hb
      · omega
    rw [← Option.some.inj hr]
    refine ⟨h.begin_eq, h.end_eq, h.start, ?_, ?_, ?_, ?_, h.sum_le, h.lost⟩
    · intro _
      show Function.update st.index st.dataIndex st.iov.iovcnt 0 = 0
      by_cases hz : st.dataIndex = 0
      · -- the first packet starts with an empty array
        have hp : p = 0 := h.start (by rw [hb, hz, Nat.zero_mul])
        rw [hz, Function.update_self, Iovector.iovcnt, h.begin_eq, h.end_eq, hp]
        omega
      · rw [Function.update_of_ne (by omega)]
        exact h.first (by omega)
    · intro j k hjk hk
      show Function.update st.index st.dataIndex st.iov.iovcnt j
        ≤ Function.update st.index st.dataIndex st.iov.iovcnt k
      have hk' : k < st.dataIndex + 1 := hk
      by_cases hkq : k = st.dataIndex
      · rw [hkq, Function.update_self]
        by_cases hjq : j = st.dataIndex
        · rw [hjq, Function.update_self]
        · rw [Function.update_of_ne hjq]
          exact h.bound j (by omega)
      · rw [Function.update_of_ne hkq, Function.update_of_ne (by omega)]
        exact h.mono j k hjk (by omega)
    · intro k hk
      show Function.update st.index st.dataIndex st.iov.iovcnt k ≤ st.iov.iovcnt
      have hk' : k < st.dataIndex + 1 := hk
      by_cases hkq : k = st.dataIndex
      · rw [hkq, Function.update_self]
      · rw [Function.update_of_ne hkq]
        exact h.bound k (by omega)
    · intro hfit
      obtain ⟨hall, hidx⟩ := h.kept hfit
      refine ⟨hall, fun k hk => ?_⟩
      show bytesOf m (st.iov.entries.take
        (Function.update st.index st.dataIndex st.iov.iovcnt k)) = B.take (k * D)
      have hk' : k < st.dataIndex + 1 := hk
      by_cases hkq : k = st.dataIndex
      · rw [hkq, Function.update_self, ← Iovector.length_entries, List.take_length, hall, hb]
      · rw [Function.update_of_ne hkq]
        exact hidx k (by omega)
  · rw [← Option.some.inj hr]
    exact h

/-- The place where the next bytes of the message come from. -/
theorem take_add_of_prefix {w : List UInt8} (hpre : w <+: B.drop b) :
    B.take (b + w.length) = B.take b ++ w := by
  obtain ⟨r, hr⟩ := hpre
  rw [List.take_add, ← hr, List.take_left]

/-- Moving a piece keeps the invariant. -/
theorem SplitInv.cut (hn : n ≤ iovCapacity) (h : SplitInv m D n B b p st)
    (ho : PktOpen D b st) (hv : 0 < v.iovLen) (hpre : v.bytes m <+: B.drop b) :
    SplitInv m D n B (b + min st.temp v.iovLen) (p + 1) (cutPiece D st v).1 := by
  obtain ⟨-, h0, hle, hb⟩ := ho
  have hend := h.end_eq
  have hbeg := h.begin_eq
  have hw : st.iov.iovBegin ≤ st.iov.iovEnd := by omega
  set c := min st.temp v.iovLen with hc
  have hcl : c ≤ v.iovLen := Nat.min_le_right _ _
  have hend' : (st.iov.pushBackBuf v.iovBase c).1.iovEnd = min (n + (p + 1)) iovCapacity := by
    rw [Iovector.pushBackBuf_iovEnd _ _ _ (by omega), hend]
    omega
  have hcnt : st.iov.iovcnt ≤ (st.iov.pushBackBuf v.iovBase c).1.iovcnt := by
    unfold Iovector.iovcnt
    rw [hend', Iovector.pushBackBuf_iovBegin]
    omega
  -- the entries after the push: one more piece, or the same when the array is full
  have hentries : (st.iov.iovEnd < iovCapacity ∧ (st.iov.pushBackBuf v.iovBase c).1.entries
        = st.iov.entries ++ [⟨v.iovBase, c⟩]) ∨
      (¬ st.iov.iovEnd < iovCapacity ∧
        (st.iov.pushBackBuf v.iovBase c).1.entries = st.iov.entries) := by
    by_cases hr : st.iov.iovEnd < iovCapacity
    · exact Or.inl ⟨hr, Iovector.entries_pushBackBuf _ _ _ hw hr⟩
    · exact Or.inr ⟨hr, Iovector.entries_pushBackBuf_full _ _ _ hr⟩
  have hsum := h.sum_le
  rw [cutPiece_eq]
  refine ⟨?_, hend', ?_, h.first, h.mono, ?_, ?_, ?_, ?_⟩
  · show (st.iov.pushBackBuf v.iovBase c).1.iovBegin = n
    rw [Iovector.pushBackBuf_iovBegin, hbeg]
  · intro hz
    omega
  · intro k hk
    exact le_trans (h.bound k hk) hcnt
  · intro hfit
    obtain ⟨hall, hidx⟩ := h.kept (by omega)
    have hr : st.iov.iovEnd < iovCapacity := by omega
    have he : (st.iov.pushBackBuf v.iovBase c).1.entries = st.iov.entries ++ [⟨v.iovBase, c⟩] :=
      Iovector.entries_pushBackBuf _ _ _ hw hr
    have hpiece : Iovec.bytes m ⟨v.iovBase, c⟩ <+: B.drop b := by
      rw [← Iovec.take_bytes m v c hcl]
      exact (List.take_prefix c _).trans hpre
    have htake := take_add_of_prefix hpiece
    rw [Iovec.length_bytes] at htake
    show bytesOf m (st.iov.pushBackBuf v.iovBase c).1.entries = B.take (b + c) ∧
      ∀ k, k < st.dataIndex → bytesOf m
        ((st.iov.pushBackBuf v.iovBase c).1.entries.take (st.index k)) = B.take (k * D)
    rw [he]
    refine ⟨?_, fun k hk => ?_⟩
    · rw [bytesOf_append, hall, htake]
      simp
    · have hlen : st.index k ≤ st.iov.entries.length := by
        rw [Iovector.length_entries]
        exact h.bound k hk
      rw [List.take_append_of_le_length hlen]
      exact hidx k hk
  · show iovSum (st.iov.pushBackBuf v.iovBase c).1.entries ≤ b + c
    rcases hentries with ⟨-, he⟩ | ⟨-, he⟩
    · rw [he, iovSum_append]
      simp only [iovSum_cons, iovSum_nil]
      omega
    · rw [he]
      omega
  · intro hfull
    show iovSum (st.iov.pushBackBuf v.iovBase c).1.entries < b + c
    rcases hentries with ⟨hr, he⟩ | ⟨-, he⟩
    · omega
    · rw [he]
      omega

/-! ## The whole loop -/

/-- What a pass leaves of the iovec. -/
theorem cutPiece_rest (D : ℕ) (st : SplitSt) (v : Iovec) : (cutPiece D st v).2
    = ⟨v.iovBase + min st.temp v.iovLen, v.iovLen - min st.temp v.iovLen⟩ := by
  rw [cutPiece_eq]

/-- What a pass keeps, and an iovec that has been read to its end: `I b vs st` speaks of the
`b` bytes that are cut and of the iovecs that are left. -/
structure PassInv (D : ℕ) (I : ℕ → List Iovec → SplitSt → Prop) : Prop where
  done : ∀ {b v vs st}, v.iovLen = 0 → I b (v :: vs) st → I b vs st
  pass : ∀ {b v vs st st'}, AtPass D b st → 0 < v.iovLen → recordPkg D st = some st' →
    I b (v :: vs) st →
      I (b + min st'.temp v.iovLen) ((cutPiece D st' v).2 :: vs) (cutPiece D st' v).1

section Rule

variable {I : ℕ → List Iovec → SplitSt → Prop}

/-- The loop over an iovec keeps it, and the packet count exact. -/
theorem PassInv.split (hI : PassInv D I) (hD : 0 < D) (vs : List Iovec) (fuel : ℕ) :
    ∀ {st : SplitSt} {b : ℕ} {v : Iovec}, AtPass D b st → I b (v :: vs) st →
      splitIovec D fuel st v = some st' → AtPass D (b + v.iovLen) st' ∧ I (b + v.iovLen) vs st' := by
  induction fuel with
  | zero =>
    intro st b v ha h hs
    rw [splitIovec] at hs
    split_ifs at hs with hv
    rw [hv, ← Option.some.inj hs]
    exact ⟨ha, hI.done hv h⟩
  | succ fuel ih =>
    intro st b v ha h hs
    rw [splitIovec] at hs
    split_ifs at hs with hv
    · rw [hv, ← Option.some.inj hs]
      exact ⟨ha, hI.done hv h⟩
    · have hv0 : 0 < v.iovLen := by omega
      obtain ⟨st1, hr, hs1⟩ := Option.bind_eq_some_iff.mp hs
      have hend := ih ((ha.record hD hr).cut hv0) (hI.pass ha hv0 hr h) hs1
      rw [cutPiece_rest] at hend
      rwa [show b + min st1.temp v.iovLen + (v.iovLen - min st1.temp v.iovLen)
        = b + v.iovLen by omega] at hend

/-- The loop over all iovecs keeps it. -/
theorem PassInv.splitAll (hI : PassInv D I) (hD : 0 < D) (vs : List Iovec) :
    ∀ {st : SplitSt} {b : ℕ}, AtPass D b st → I b vs st → splitIovecs D st vs = some st' →
      AtPass D (b + iovSum vs) st' ∧ I (b + iovSum vs) [] st' := by
  induction vs with
  | nil =>
    intro st b ha h hs
    rw [← Option.some.inj hs]
    exact ⟨ha, h⟩
  | cons v vs ih =>
    intro st b ha h hs
    obtain ⟨st1, hs1, hs2⟩ := Option.bind_eq_some_iff.mp hs
    obtain ⟨ha1, h1⟩ := hI.split hD vs _ ha h hs1
    rw [iovSum_cons, ← Nat.add_assoc]
    exact ih ha1 h1 hs2

end Rule

/-- The packet count alone. -/
theorem passInv_true (D : ℕ) : PassInv D fun _ _ _ => True :=
  ⟨fun _ _ => trivial, fun _ _ _ _ => trivial⟩

theorem AtPass.split (hD : 0 < D) (fuel : ℕ) (ha : AtPass D b st)
    (hs : splitIovec D fuel st v = some st') : AtPass D (b + v.iovLen) st' :=
  ((passInv_true D).split hD [] fuel ha trivial hs).1

theorem AtPass.splitAll (hD : 0 < D) (vs : List Iovec) (ha : AtPass D b st)
    (hs : splitIovecs D st vs = some st') : AtPass D (b + iovSum vs) st' :=
  ((passInv_true D).splitAll hD vs ha trivial hs).1

/-- The pieces of a pass: the one moved now, and those of what is left. -/
theorem numPieces_pass (hD : 0 < D) (ha : AtPass D b st) (hv : 0 < v.iovLen)
    (hr : recordPkg D st = some st') (vs : List Iovec) :
    numPieces D b (v :: vs)
      = 1 + numPieces D (b + min st'.temp v.iovLen) ((cutPiece D st' v).2 :: vs) := by
  rw [cutPiece_rest, recordPkg_temp hr, ha.temp_eq, numPieces, numPieces, blocksMet_cut b hD hv,
    Nat.add_assoc, Nat.add_assoc b, Nat.add_sub_cancel' (Nat.min_le_right _ _)]

/-- The packet counter after the loop is the number of blocks of the message. -/
theorem AtPass.dataIndex_eq (hD : 0 < D) (ha : AtPass D b st) :
    st.dataIndex = (b + D - 1) / D := by
  symm
  rcases ha with ⟨-, ⟨-, hb⟩ | ⟨h0, hlt, hb⟩⟩
  · exact eq_ceil_of_bounds hD (by omega) (by omega)
  · exact eq_ceil_of_bounds hD (by omega) (by omega)

/-- The pass cuts the next bytes of the message and counts one piece. -/
theorem SplitInv.passInv (hD : 0 < D) (hn : n ≤ iovCapacity) (N : ℕ) :
    PassInv D fun b vs st => bytesOf m vs <+: B.drop b ∧
      ∃ p, SplitInv m D n B b p st ∧ p + numPieces D b vs = N := by
  constructor
  · rintro b v vs st hv ⟨hpre, p, hi, hp⟩
    rw [bytesOf_cons, Iovec.bytes_eq_nil m v hv] at hpre
    rw [numPieces, hv, blocksMet_zero, Nat.zero_add] at hp
    exact ⟨hpre, p, hi, hp⟩
  · rintro b v vs st st1 ha hv hr ⟨hpre, p, hi, hp⟩
    have ho := ha.record hD hr
    rw [bytesOf_cons] at hpre
    refine ⟨?_, p + 1, (hi.record hn ha hr).cut hn ho hv ((List.prefix_append _ _).trans hpre), ?_⟩
    · have hrest := hpre.drop (min st1.temp v.iovLen)
      rw [List.drop_append_of_le_length (by rw [Iovec.length_bytes]; exact Nat.min_le_right _ _),
        Iovec.drop_bytes, List.drop_drop] at hrest
      rwa [cutPiece_rest]
    · rw [← hp, numPieces_pass hD ha hv hr, Nat.add_assoc]

/-- **All iovecs.** -/
theorem SplitInv.splitAll (hD : 0 < D) (hn : n ≤ iovCapacity) (vs : List Iovec)
    (hi : SplitInv m D n B b p st) (ha : AtPass D b st) (hpre : bytesOf m vs <+: B.drop b)
    (hs : splitIovecs D st vs = some st') :
    SplitInv m D n B (b + iovSum vs) (p + numPieces D b vs) st' := by
  obtain ⟨-, -, p', hi', hp⟩ :=
    (SplitInv.passInv hD hn (p + numPieces D b vs)).splitAll hD vs ha ⟨hpre, p, hi, rfl⟩ hs
  rwa [← hp]

/-- An iovec that ends within packet 2000 is cut to its end. -/
theorem splitIovec_total (hD : 0 < D) (fuel : ℕ) :
    ∀ {st : SplitSt} {b : ℕ} {v : Iovec}, v.iovLen ≤ fuel → AtPass D b st →
      b + v.iovLen ≤ pkgIndexSize * D → ∃ st', splitIovec D fuel st v = some st' := by
  induction fuel with
  | zero =>
    intro st b v hf _ _
    exact ⟨st, by rw [splitIovec, if_pos (by omega)]⟩
  | succ fuel ih =>
    intro st b v hf ha hcap
    rw [splitIovec]
    split_ifs with hv
    · exact ⟨st, rfl⟩
    · have hv0 : 0 < v.iovLen := by omega
      cases hr : recordPkg D st with
      | none =>
        -- packet 2001 would start at byte `2000 * D`, behind the last byte
        obtain ⟨ht, hq⟩ := recordPkg_eq_none hr
        have hb : b = st.dataIndex * D := by
          rcases ha with ⟨-, ⟨-, hb⟩ | ⟨-, hlt, -⟩⟩
          · exact hb
          · omega
        have hle : pkgIndexSize * D ≤ st.dataIndex * D := Nat.mul_le_mul_right D hq
        omega
      | some st1 =>
        have ho := ha.record hD hr
        have hmin0 : 0 < min st1.temp v.iovLen := lt_min ho.2.1 hv0
        have hlen : (cutPiece D st1 v).2.iovLen = v.iovLen - min st1.temp v.iovLen := by
          rw [cutPiece_rest]
        exact ih (by omega) (ho.cut (v := v) hv0) (by omega)

/-- A message that ends within packet 2000 is cut to its end. -/
theorem splitIovecs_total (hD : 0 < D) (vs : List Iovec) :
    ∀ {st : SplitSt} {b : ℕ}, AtPass D b st → b + iovSum vs ≤ pkgIndexSize * D →
      ∃ st', splitIovecs D st vs = some st' := by
  induction vs with
  | nil =>
    intro st b _ _
    exact ⟨st, rfl⟩
  | cons v vs ih =>
    intro st b ha hcap
    rw [iovSum_cons] at hcap
    obtain ⟨st1, hs1⟩ := splitIovec_total hD v.iovLen le_rfl ha (by omega)
    obtain ⟨st2, hs2⟩ := ih (ha.split hD _ hs1) (by omega)
    exact ⟨st2, by rw [splitIovecs, hs1]; exact hs2⟩

/-- The state in front of the loop. -/
theorem splitInv_start (m : Mem) (D : ℕ) (B : List UInt8) (iov : Iovector) (idx : ℕ → ℕ)
    (hn : n ≤ iovCapacity) :
    SplitInv m D n B 0 0 ⟨iov.setEmptyAt n, idx, 0, D⟩ ∧
      AtPass D 0 ⟨iov.setEmptyAt n, idx, 0, D⟩ := by
  have hmod : n % 2 ^ 16 = n := Nat.mod_eq_of_lt (by unfold iovCapacity at hn; omega)
  refine ⟨⟨hmod, ?_, fun _ => rfl, ?_, ?_, ?_, ?_, ?_, ?_⟩, Nat.zero_le _, ?_⟩
  · show n % 2 ^ 16 = min (n + 0) iovCapacity
    omega
  · intro h
    exact absurd h (lt_irrefl 0)
  · intro j k _ hk
    exact absurd hk (Nat.not_lt_zero k)
  · intro k hk
    exact absurd hk (Nat.not_lt_zero k)
  · intro _
    refine ⟨?_, fun k hk => absurd hk (Nat.not_lt_zero k)⟩
    show bytesOf m (iov.setEmptyAt n).entries = B.take 0
    simp
  · show iovSum (iov.setEmptyAt n).entries ≤ 0
    simp
  · intro h
    omega
  · left
    exact ⟨rfl, by simp⟩

end HuiRpc
