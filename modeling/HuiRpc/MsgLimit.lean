/-
# The advertised message limit against the arrays of `init_data_iov`

`get_max_msg_size` reports `kMaxMsgSize`, a bound that comes from the largest buffer
of the allocator.  `init_data_iov` has two bounds of its own, 2000 packet records and
2300 iovecs, and it ignores the result of every `push_back`.  Here the pushes that the
two arrays refuse are counted, and the count is compared with the advertised limit.

* `refusedPushes` : the refused calls of `push_back` in one call of `init_data_iov`;
* `PushBooks` : the books of the splitting loop, pushes tried against entries gained,
  together with the cells that it may not touch;
* `AllFits` : the condition on a message under which nothing is refused.
-/
import HuiRpc.Packets
import HuiRpc.Pkthdr

namespace HuiRpc

open Blocks

/-- `HugeAlloc::k_max_class_size`, 16 MB. -/
def kMaxClassSize : ℕ := 16 * 2 ^ 20

/-- `Rpc::kMaxMsgSize`, what `get_max_msg_size` returns. -/
def kMaxMsgSize : ℕ := kMaxClassSize - kMaxClassSize / kMaxDataPerPkt * sizeofPkthdr

/-! ## Counting refused pushes -/

/-- One if `push_back` is refused by an array of this capacity. -/
def refusedBy (capacity : ℕ) (v : Iovector) : ℕ := if v.iovEnd < capacity then 0 else 1

/-- The refused calls of `t_iov.push_back(iov[i])`. -/
def copyRefused : Iovector → List Iovec → ℕ
  | _, [] => 0
  | t, x :: xs => refusedBy t.capacity t + copyRefused (t.pushBack x).1 xs

/-- The refused calls of `_iov.push_back` while one iovec is cut. -/
def splitRefused (D : ℕ) : ℕ → SplitSt → Iovec → ℕ
  | 0, _, _ => 0
  | fuel + 1, st, v =>
      if v.iovLen = 0 then 0
      else match recordPkg D st with
        | none => 0
        | some st' => refusedBy iovCapacity st'.iov +
            splitRefused D fuel (cutPiece D st' v).1 (cutPiece D st' v).2

/-- The refused calls of `_iov.push_back` over all iovecs. -/
def splitsRefused (D : ℕ) : SplitSt → List Iovec → ℕ
  | _, [] => 0
  | st, v :: vs => splitRefused D v.iovLen st v +
      match splitIovec D v.iovLen st v with
      | none => 0
      | some st' => splitsRefused D st' vs

/-- The refused calls of `push_back` in `init_data_iov(D)`; a message of one packet is
not pushed anywhere. -/
def refusedPushes (D : ℕ) (s : Serializer) : ℕ :=
  if s.iov.sum ≤ D then 0
  else
    let t := copyIov s.tIov s.iov.entries
    let n := t.sum / D + (if t.sum % D = 0 then 0 else 1)
    copyRefused s.tIov.clear s.iov.entries +
      splitsRefused D ⟨s.iov.clear.setEmptyAt n, s.dataPkgIndex, 0, D⟩ t.entries

/-! ## The books of the loop -/

variable {D n b tries refused : ℕ} {s s' : Serializer} {st st1 st' : SplitSt} {v : Iovec}

/-- From `st` to `st'` the loop tried `tries` pushes, of which `refused` were refused;
the cells behind the two arrays are as they were. -/
structure PushBooks (st st' : SplitSt) (tries refused : ℕ) : Prop where
  count : refused + st'.iov.iovEnd = st.iov.iovEnd + tries
  cells : ∀ i, iovCapacity ≤ i → st'.iov.iovs i = st.iov.iovs i
  table : ∀ i, pkgIndexSize ≤ i → st'.index i = st.index i

theorem PushBooks.refl (st : SplitSt) : PushBooks st st 0 0 :=
  ⟨Nat.add_comm _ _, fun _ _ => rfl, fun _ _ => rfl⟩

theorem PushBooks.trans {tries' refused' : ℕ} (h : PushBooks st st1 tries refused)
    (h' : PushBooks st1 st' tries' refused') :
    PushBooks st st' (tries + tries') (refused + refused') := by
  have hc := h.count
  have hc' := h'.count
  refine ⟨by omega, fun i hi => ?_, fun i hi => ?_⟩
  · rw [h'.cells i hi, h.cells i hi]
  · rw [h'.table i hi, h.table i hi]

/-- A packet record stays inside the table and pushes nothing. -/
theorem PushBooks.record (hr : recordPkg D st = some st') : PushBooks st st' 0 0 := by
  unfold recordPkg at hr
  split_ifs at hr with h1 h2
  · rw [← Option.some.inj hr]
    refine ⟨Nat.add_comm _ _, fun _ _ => rfl, fun i hi => ?_⟩
    exact Function.update_of_ne (by omega) _ _
  · rw [← Option.some.inj hr]
    exact PushBooks.refl st

/-- A push gains an entry inside the array, or is refused. -/
theorem Iovector.pushBack_books (w : Iovector) (x : Iovec) :
    refusedBy w.capacity w + (w.pushBack x).1.iovEnd = w.iovEnd + 1 ∧
      (w.pushBack x).1.capacity = w.capacity ∧
      ∀ i, w.capacity ≤ i → (w.pushBack x).1.iovs i = w.iovs i := by
  by_cases hr : w.iovEnd < w.capacity
  · rw [refusedBy, Iovector.pushBack, if_pos hr, if_pos hr]
    refine ⟨Nat.zero_add _, rfl, fun i hi => ?_⟩
    exact Function.update_of_ne (by omega) _ _
  · rw [refusedBy, if_neg hr, Iovector.pushBack_full w x hr]
    exact ⟨Nat.add_comm _ _, rfl, fun _ _ => rfl⟩

/-- Moving a piece is one push. -/
theorem PushBooks.cut (D : ℕ) (st : SplitSt) (v : Iovec) :
    PushBooks st (cutPiece D st v).1 1 (refusedBy iovCapacity st.iov) := by
  obtain ⟨hcount, -, hcells⟩ := Iovector.pushBack_books { st.iov with capacity := iovCapacity }
    ⟨v.iovBase, min st.temp v.iovLen⟩
  rw [cutPiece_eq]
  exact ⟨hcount, hcells, fun _ _ => rfl⟩

/-- One iovec: a push for every packet it reaches into. -/
theorem PushBooks.split (hD : 0 < D) (fuel : ℕ) :
    ∀ {st : SplitSt} {b : ℕ} {v : Iovec}, AtPass D b st →
      splitIovec D fuel st v = some st' →
      PushBooks st st' (blocksMet D b v.iovLen) (splitRefused D fuel st v) := by
  induction fuel with
  | zero =>
    intro st b v _ hs
    rw [splitIovec] at hs
    split_ifs at hs with hv
    rw [hv, ← Option.some.inj hs]
    exact PushBooks.refl st
  | succ fuel ih =>
    intro st b v ha hs
    rw [splitIovec] at hs
    split_ifs at hs with hv
    · rw [splitRefused, hv, ← Option.some.inj hs]
      exact PushBooks.refl st
    · have hv0 : 0 < v.iovLen := by omega
      obtain ⟨st1, hr, hs1⟩ := Option.bind_eq_some_iff.mp hs
      have hrest := ih ((ha.record hD hr).cut hv0) hs1
      have h := (PushBooks.record hr).trans ((PushBooks.cut D st1 v).trans hrest)
      rw [congrArg Iovec.iovLen (cutPiece_rest D st1 v), recordPkg_temp hr, ha.temp_eq,
        ← blocksMet_cut b hD hv0, Nat.zero_add, Nat.zero_add] at h
      rw [splitRefused, if_neg hv, hr]
      exact h

/-- All iovecs: a push for every piece. -/
theorem PushBooks.splitAll (hD : 0 < D) (vs : List Iovec) :
    ∀ {st : SplitSt} {b : ℕ}, AtPass D b st → splitIovecs D st vs = some st' →
      PushBooks st st' (numPieces D b vs) (splitsRefused D st vs) := by
  induction vs with
  | nil =>
    intro st b _ hs
    rw [← Option.some.inj hs]
    exact PushBooks.refl st
  | cons v vs ih =>
    intro st b ha hs
    obtain ⟨st1, hs1, hs2⟩ := Option.bind_eq_some_iff.mp hs
    rw [splitsRefused, hs1]
    exact (PushBooks.split hD _ ha hs1).trans (ih (ha.split hD _ hs1) hs2)

/-- The scratch copy: a push for every entry, all inside its array. -/
theorem copyRefused_books (es : List Iovec) (t : Iovector) :
    copyRefused t es + (es.foldl (fun t x => (t.pushBack x).1) t).iovEnd
        = t.iovEnd + es.length ∧
      t.iovEnd ≤ (es.foldl (fun t x => (t.pushBack x).1) t).iovEnd ∧
      ∀ i, t.capacity ≤ i →
        (es.foldl (fun t x => (t.pushBack x).1) t).iovs i = t.iovs i := by
  induction es generalizing t with
  | nil => exact ⟨Nat.add_comm _ _, le_rfl, fun _ _ => rfl⟩
  | cons x es ih =>
    obtain ⟨hcount, hcap, hcells⟩ := t.pushBack_books x
    obtain ⟨ihc, ihe, ihi⟩ := ih (t.pushBack x).1
    have hone : refusedBy t.capacity t ≤ 1 := by
      unfold refusedBy
      split_ifs <;> omega
    rw [List.foldl_cons, copyRefused, List.length_cons]
    refine ⟨by omega, by omega, fun i hi => ?_⟩
    rw [ihi i (by rw [hcap]; exact hi), hcells i hi]

/-- The scratch copy ends inside its array. -/
theorem copyIov_iovEnd (hr : s.Ready) :
    (copyIov s.tIov s.iov.entries).iovEnd ≤ iovCapacity := by
  have hlen : (copyIov s.tIov s.iov.entries).entries.length ≤ iovCapacity - defPreserve := by
    rw [copyIov_entries hr, copied, List.length_take]
    exact Nat.min_le_left _ _
  rw [Iovector.length_entries, Iovector.iovcnt, (copyIov_frame hr _).2] at hlen
  have hcap : defPreserve < iovCapacity := by decide
  omega

/-- The scratch copy refuses nothing exactly when its 2292 places are enough. -/
theorem copyRefused_eq_zero_iff (hr : s.Ready) :
    copyRefused s.tIov.clear s.iov.entries = 0 ↔
      s.iov.entries.length ≤ iovCapacity - defPreserve := by
  obtain ⟨hbooks, hmono, -⟩ := copyRefused_books s.iov.entries s.tIov.clear
  have hend : (copyIov s.tIov s.iov.entries).entries.length
      = (copyIov s.tIov s.iov.entries).iovEnd - defPreserve := by
    rw [Iovector.length_entries, Iovector.iovcnt, (copyIov_frame hr _).2]
  have hstart : s.tIov.clear.iovEnd = defPreserve := hr.tBegin
  rw [copyIov_entries hr, copied, List.length_take] at hend
  change _ + (copyIov s.tIov s.iov.entries).iovEnd = _ at hbooks
  change _ ≤ (copyIov s.tIov s.iov.entries).iovEnd at hmono
  omega

/-- The splitting loop in front of which the packets of the copy are known. -/
theorem refusedPushes_large (hr : s.Ready) (hD : 0 < D) (hint : D < 2 ^ 31)
    (hs : D < s.iov.sum) (hn : loopPkts D s < pkgIndexSize) :
    refusedPushes D s = copyRefused s.tIov.clear s.iov.entries +
      splitsRefused D (loopStart D s) (copied s) := by
  rw [refusedPushes, if_neg (by omega)]
  simp only
  rw [copyIov_sum hr hD hint hn, div_add_one_of_mod D _ hD, copyIov_entries hr]
  rfl

/-- The books of the whole loop. -/
theorem PushBooks.loop (hD : 0 < D) {st : SplitSt}
    (hst : splitIovecs D (loopStart D s) (copied s) = some st) :
    PushBooks (loopStart D s) st (numPieces D 0 (copied s))
      (splitsRefused D (loopStart D s) (copied s)) :=
  PushBooks.splitAll hD (copied s) ⟨Nat.zero_le _, Or.inl ⟨rfl, (Nat.zero_mul D).symm⟩⟩ hst

/-- Nothing is refused exactly when the entries fit the scratch copy, and headers and
pieces fit the array. -/
theorem refusedPushes_eq_zero_iff (hr : s.Ready) (hD : 0 < D) (hint : D < 2 ^ 31)
    (hs : D < s.iov.sum) (hn : loopPkts D s < pkgIndexSize) :
    refusedPushes D s = 0 ↔ s.iov.entries.length ≤ iovCapacity - defPreserve ∧
      loopPkts D s + numPieces D 0 (copied s) ≤ iovCapacity := by
  obtain ⟨st, hst, -, -, hinv, -⟩ := initDataIov_large hr hD hint hs hn
  have hcount := (PushBooks.loop hD hst).count
  have hend := (hinv fun _ => 0).end_eq
  have hstart : (loopStart D s).iov.iovEnd = loopPkts D s := by
    apply Nat.mod_eq_of_lt
    unfold pkgIndexSize at hn
    omega
  rw [refusedPushes_large hr hD hint hs hn, Nat.add_eq_zero_iff, copyRefused_eq_zero_iff hr]
  constructor
  · rintro ⟨hlen, hzero⟩
    exact ⟨hlen, by omega⟩
  · rintro ⟨hlen, hroom⟩
    exact ⟨hlen, by omega⟩

/-! ## The cells behind the arrays -/

/-- Nothing behind the two iovec arrays and the packet table has changed. -/
structure Untouched (s s' : Serializer) : Prop where
  iov : ∀ i, iovCapacity ≤ i → s'.iov.iovs i = s.iov.iovs i
  tIov : ∀ i, iovCapacity ≤ i → s'.tIov.iovs i = s.tIov.iovs i
  table : ∀ i, pkgIndexSize ≤ i → s'.dataPkgIndex i = s.dataPkgIndex i

/-- Reading an iovec to its end moves only the cells of the window. -/
theorem Iovector.drained_iovs (w : Iovector) (h : w.iovEnd ≤ iovCapacity) (i : ℕ)
    (hi : iovCapacity ≤ i) : w.drained.iovs i = w.iovs i := by
  show (if w.iovBegin ≤ i ∧ i < w.iovEnd then _ else w.iovs i) = w.iovs i
  rw [if_neg (by omega)]

/-- A call that returns has written inside its arrays only. -/
theorem initDataIov_untouched (hr : s.Ready) (hD : 0 < D) (hint : D < 2 ^ 31)
    (hinit : initDataIov D s = some (n, s')) : Untouched s s' := by
  by_cases hs : s.iov.sum ≤ D
  · rw [initDataIov, if_pos hs, Option.some.injEq] at hinit
    obtain ⟨-, rfl⟩ := hinit
    refine ⟨fun _ _ => rfl, fun _ _ => rfl, fun i hi => ?_⟩
    show Function.update (Function.update s.dataPkgIndex 0 0) 1 s.iov.iovcnt i = _
    unfold pkgIndexSize at hi
    rw [Function.update_of_ne (by omega), Function.update_of_ne (by omega)]
  · have hn : loopPkts D s < pkgIndexSize := by
      by_contra hover
      rw [initDataIov_overflow hr hD (by omega) (by omega)] at hinit
      exact Option.some_ne_none _ hinit.symm
    obtain ⟨st, hst, hinit', hidx, -, -⟩ := initDataIov_large hr hD hint (by omega) hn
    rw [hinit, Option.some.injEq] at hinit'
    obtain ⟨-, rfl⟩ := hinit'
    have hloop := PushBooks.loop hD hst
    obtain ⟨-, -, hcopy⟩ := copyRefused_books s.iov.entries s.tIov.clear
    refine ⟨hloop.cells, fun i hi => ?_, fun i hi => ?_⟩
    · show (copyIov s.tIov s.iov.entries).drained.iovs i = s.tIov.iovs i
      rw [Iovector.drained_iovs _ (copyIov_iovEnd hr) i hi]
      exact hcopy i (by show s.tIov.capacity ≤ i; rw [hr.tCapacity]; exact hi)
    · show Function.update st.index st.dataIndex st.iov.iovcnt i = s.dataPkgIndex i
      rw [Function.update_of_ne (by omega)]
      exact hloop.table i hi

/-! ## Against the advertised limit -/

/-- **All of a message fits.**  It is one packet, or its packets fit the packet table,
its entries the scratch copy, and headers and pieces the iovec array. -/
def AllFits (D : ℕ) (es : List Iovec) : Prop :=
  iovSum es ≤ D ∨
    (numPkts D (iovSum es) < pkgIndexSize ∧ es.length ≤ iovCapacity - defPreserve ∧
      numPkts D (iovSum es) + numPieces D 0 es ≤ iovCapacity)

instance (D : ℕ) (es : List Iovec) : Decidable (AllFits D es) :=
  inferInstanceAs (Decidable (_ ∨ _))

theorem AllFits.fits {es : List Iovec} (h : AllFits D es) : Fits D es := by
  rcases h with hle | ⟨hpk, hlen, hpc⟩
  · exact Or.inl hle
  · exact Or.inr ⟨hpk, by rw [List.take_of_length_le hlen], hpc⟩

/-- A message that the scratch copy holds whole. -/
theorem loopPkts_of_length_le (hlt : D < iovSum s.iov.entries)
    (hlen : s.iov.entries.length ≤ iovCapacity - defPreserve) :
    copied s = s.iov.entries ∧ loopPkts D s = numPkts D (iovSum s.iov.entries) := by
  have hcopy : copied s = s.iov.entries := List.take_of_length_le hlen
  refine ⟨hcopy, ?_⟩
  rw [loopPkts, hcopy, numPkts, if_neg (by omega)]

/-- `size_t sum()` of a message within the limit is its size. -/
theorem sum_of_le_kMaxMsgSize (h : iovSum s.iov.entries ≤ kMaxMsgSize) :
    s.iov.sum = iovSum s.iov.entries := by
  apply Nat.mod_eq_of_lt
  exact lt_of_le_of_lt h (by decide)

/-- **What the limit does not say.**  For every message within the advertised limit,
`init_data_iov` writes inside its arrays only, refuses no push, and cuts packets that
carry all bytes, exactly when the packets, entries and pieces of the message fit. -/
theorem initDataIov_within_limit_iff (hr : s.Ready)
    (hmax : iovSum s.iov.entries ≤ kMaxMsgSize) :
    (∃ n s', initDataIov kMaxDataPerPkt s = some (n, s') ∧ Untouched s s' ∧
      refusedPushes kMaxDataPerPkt s = 0 ∧
      ∀ m hdr, (List.range n).flatMap (fun k => bytesOf m (getNData (pushHdrs hdr n s') k))
        = bytesOf m s.iov.entries) ↔
      AllFits kMaxDataPerPkt s.iov.entries := by
  have hD : 0 < kMaxDataPerPkt := by decide
  have hint : kMaxDataPerPkt < 2 ^ 31 := by decide
  have hsum := sum_of_le_kMaxMsgSize hmax
  constructor
  · rintro ⟨n, s', hinit, -, hrefused, -⟩
    by_cases hle : iovSum s.iov.entries ≤ kMaxDataPerPkt
    · exact Or.inl hle
    · have hn : loopPkts kMaxDataPerPkt s < pkgIndexSize := by
        by_contra hover
        rw [initDataIov_overflow hr hD (by omega) (by omega)] at hinit
        exact Option.some_ne_none _ hinit.symm
      obtain ⟨hlen, hroom⟩ :=
        (refusedPushes_eq_zero_iff hr hD hint (by omega) hn).mp hrefused
      obtain ⟨hcopy, hpk⟩ := loopPkts_of_length_le (D := kMaxDataPerPkt) (by omega) hlen
      rw [hpk] at hn hroom
      rw [hcopy] at hroom
      exact Or.inr ⟨hn, hlen, hroom⟩
  · intro hall
    obtain ⟨s', hinit, hcut⟩ := initDataIov_of_fits hr hD hint hall.fits
    refine ⟨_, s', hinit, initDataIov_untouched hr hD hint hinit, ?_,
      fun m hdr => hcut.flatMap_getNData hD hdr m⟩
    by_cases hle : iovSum s.iov.entries ≤ kMaxDataPerPkt
    · rw [refusedPushes, if_pos (by omega)]
    · rcases hall with hle' | ⟨hpk, hlen, hpc⟩
      · exact absurd hle' hle
      · obtain ⟨hcopy, hpk'⟩ := loopPkts_of_length_le (D := kMaxDataPerPkt) (by omega) hlen
        rw [← hpk'] at hpk hpc
        rw [← hcopy] at hpc
        exact (refusedPushes_eq_zero_iff hr hD hint (by omega) hpk).mpr ⟨hlen, hpc⟩

theorem oneIovec_entries (len : ℕ) : (oneIovec len).iov.entries = [⟨100, len⟩] := by
  show ((Serializer.new default).iov.pushBackBuf 100 len).1.entries = _
  rw [Iovector.entries_pushBackBuf _ _ _ le_rfl (by decide)]
  simp [Serializer.new]

theorem initDataIov_within_limit_two_packets :
    (oneIovec (2 * kMaxDataPerPkt)).Ready ∧
      iovSum (oneIovec (2 * kMaxDataPerPkt)).iov.entries ≤ kMaxMsgSize ∧
      ∃ n s', initDataIov kMaxDataPerPkt (oneIovec (2 * kMaxDataPerPkt)) = some (n, s') ∧
        refusedPushes kMaxDataPerPkt (oneIovec (2 * kMaxDataPerPkt)) = 0 := by
  have hr := (oneIovec_filled (2 * kMaxDataPerPkt)).spec.1
  have hmax : iovSum (oneIovec (2 * kMaxDataPerPkt)).iov.entries ≤ kMaxMsgSize := by
    rw [oneIovec_entries]
    decide
  have hall : AllFits kMaxDataPerPkt (oneIovec (2 * kMaxDataPerPkt)).iov.entries := by
    rw [oneIovec_entries]
    decide
  obtain ⟨n, s', hinit, -, hrefused, -⟩ := (initDataIov_within_limit_iff hr hmax).mpr hall
  exact ⟨hr, hmax, n, s', hinit, hrefused⟩

/-- A string of `k` full packets is within the limit up to `k = 2000`, and is cut into
`k` pieces. -/
theorem oneIovec_packets (k : ℕ) (h1 : 1 < k) (hk : k ≤ 2000) :
    iovSum (oneIovec (k * kMaxDataPerPkt)).iov.entries ≤ kMaxMsgSize ∧
      kMaxDataPerPkt < (oneIovec (k * kMaxDataPerPkt)).iov.sum ∧
      loopPkts kMaxDataPerPkt (oneIovec (k * kMaxDataPerPkt)) = k ∧
      numPieces kMaxDataPerPkt 0 (copied (oneIovec (k * kMaxDataPerPkt))) = k := by
  have hone : iovSum [(⟨100, k * kMaxDataPerPkt⟩ : Iovec)] = k * kMaxDataPerPkt := by
    rw [iovSum_cons, iovSum_nil, Nat.add_zero]
  have hsize : iovSum (oneIovec (k * kMaxDataPerPkt)).iov.entries = k * kMaxDataPerPkt := by
    rw [oneIovec_entries, hone]
  have hmax : k * kMaxDataPerPkt ≤ kMaxMsgSize :=
    le_trans (Nat.mul_le_mul_right _ hk) (by decide)
  have hcopy : copied (oneIovec (k * kMaxDataPerPkt)) = [⟨100, k * kMaxDataPerPkt⟩] := by
    rw [copied, oneIovec_entries]
    rfl
  refine ⟨by rw [hsize]; exact hmax, ?_, ?_, ?_⟩
  · rw [sum_of_le_kMaxMsgSize (by rw [hsize]; exact hmax), hsize, kMaxDataPerPkt_eq]
    omega
  · rw [loopPkts, hcopy, hone, kMaxDataPerPkt_eq]
    omega
  · rw [hcopy, kMaxDataPerPkt_eq]
    show blocksMet 4024 0 (k * 4024) + 0 = k
    rw [blocksMet, if_neg (by omega)]
    omega

/-- **The limit is above what the arrays hold.**  A string of 1151 full packets needs 2302
iovecs and loses bytes; one of 2000 full packets leaves the packet table.  Both are
below half of the advertised limit. -/
theorem limit_exceeds_arrays :
    (iovSum (oneIovec (1151 * kMaxDataPerPkt)).iov.entries ≤ kMaxMsgSize ∧
      (oneIovec (1151 * kMaxDataPerPkt)).iovfull = false ∧
      refusedPushes kMaxDataPerPkt (oneIovec (1151 * kMaxDataPerPkt)) ≠ 0 ∧
      ∃ n s', initDataIov kMaxDataPerPkt (oneIovec (1151 * kMaxDataPerPkt)) = some (n, s') ∧
        iovSum s'.iov.entries < iovSum (oneIovec (1151 * kMaxDataPerPkt)).iov.entries) ∧
    (iovSum (oneIovec (2000 * kMaxDataPerPkt)).iov.entries ≤ kMaxMsgSize ∧
      (oneIovec (2000 * kMaxDataPerPkt)).iovfull = false ∧
      initDataIov kMaxDataPerPkt (oneIovec (2000 * kMaxDataPerPkt)) = none) := by
  have hD : 0 < kMaxDataPerPkt := by decide
  have hint : kMaxDataPerPkt < 2 ^ 31 := by decide
  constructor
  · obtain ⟨hmax, hsum, hpk, hpc⟩ := oneIovec_packets 1151 (by decide) (by decide)
    have hr := (oneIovec_filled (1151 * kMaxDataPerPkt)).spec.1
    have hn : loopPkts kMaxDataPerPkt (oneIovec (1151 * kMaxDataPerPkt)) < pkgIndexSize := by
      rw [hpk]
      decide
    obtain ⟨st, -, hinit, -, hinv, -⟩ := initDataIov_large hr hD hint hsum hn
    refine ⟨hmax, rfl, fun hzero => ?_, _, _, hinit, ?_⟩
    · have hroom := ((refusedPushes_eq_zero_iff hr hD hint hsum hn).mp hzero).2
      exact absurd hroom (by decide)
    · have hlost := (hinv fun _ => 0).lost (by rw [hpk, hpc]; decide)
      exact lt_of_lt_of_le hlost (iovSum_copied_le _)
  · obtain ⟨hmax, hsum, hpk, -⟩ := oneIovec_packets 2000 (by decide) (by decide)
    exact ⟨hmax, rfl, initDataIov_overflow (oneIovec_filled _).spec.1 hD hsum (le_of_eq hpk.symm)⟩

end HuiRpc
