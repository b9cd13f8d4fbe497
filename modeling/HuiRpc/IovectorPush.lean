/-
# Pushing and truncating by bytes

`push_back(size_t)`, `push_front(size_t)`, `shrink_to` and `truncate` of `huibuffer/iovector.h`,
which allocate the buffers they push.  A buffer of more than `INT_MAX` bytes is pushed in several
pieces.

* The array comes with a record of the indices at which entries were stored, which the code does
  not keep (`IovArray.stored`).
* `malloc` is a parameter: `m i` is the answer to the call number `i`.

The results of the functions do not say whether the array had room: `reported_sizes_iff` tells when
they are right.
-/
import HuiRpc.ExtractForms

namespace HuiRpc

/-- `INT_MAX`. -/
def intMax : ℕ := 2 ^ 31 - 1

/-- An iovector with the indices at which entries were stored so far. -/
structure IovArray extends Iovector where
  stored : List ℕ

namespace IovArray

/-- A store to an element of `iovs`. -/
def put (a : IovArray) (i : ℕ) (x : Iovec) : IovArray :=
  { a with iovs := Function.update a.iovs i x, stored := a.stored ++ [i] }

/-- `push_back(struct iovec)`. -/
def pushBack (a : IovArray) (x : Iovec) : IovArray × ℕ :=
  if a.iovEnd < a.capacity then
    ({ a.put a.iovEnd x with iovEnd := a.iovEnd + 1 }, x.iovLen)
  else (a, 0)

/-- `push_front(struct iovec)`. -/
def pushFront (a : IovArray) (x : Iovec) : IovArray × ℕ :=
  if 0 < a.iovBegin then
    ({ a.put (a.iovBegin - 1) x with iovBegin := a.iovBegin - 1 }, x.iovLen)
  else (a, 0)

/-- `new_iovec(size_)`, for an answer of `malloc`. -/
def newIovec (size : ℕ) : Option ℕ → Iovec
  | some ptr => ⟨ptr, if size ≤ intMax then size else intMax⟩
  | none => ⟨0, 0⟩

section Malloc

variable (m : ℕ → Option ℕ)

/-- The loop of `push_back_more`, which has used `i` answers of `malloc`: the array, and the bytes
that are left.  It takes at most `bytes` rounds. -/
def pushBackMore : ℕ → ℕ → IovArray → ℕ → IovArray × ℕ
  | 0, _, a, bytes => (a, bytes)
  | fuel + 1, i, a, bytes =>
    if bytes = 0 then (a, bytes)
    else
      let x := newIovec bytes (m i)
      if x.iovLen = 0 then (a, bytes)
      else pushBackMore fuel (i + 1) (a.pushBack x).1 (bytes - x.iovLen)

/-- `push_back(size_t)`. -/
def pushBackBytes (a : IovArray) (bytes : ℕ) : IovArray × ℕ :=
  let x := newIovec bytes (m 0)
  if x.iovLen = 0 then (a, 0)
  else
    let r := a.pushBack x
    if r.2 = bytes then (r.1, bytes)
    else
      let rest := bytes - x.iovLen
      let r := pushBackMore m bytes 1 r.1 rest
      (r.1, x.iovLen + (rest - r.2))

/-- The loop of `push_front_more`. -/
def pushFrontMore : ℕ → ℕ → IovArray → ℕ → IovArray × ℕ
  | 0, _, a, bytes => (a, bytes)
  | fuel + 1, i, a, bytes =>
    if bytes = 0 then (a, bytes)
    else if a.iovBegin = 0 then (a, bytes)
    else
      let x := newIovec bytes (m i)
      if x.iovLen = 0 then (a, bytes)
      else pushFrontMore fuel (i + 1) (a.pushFront x).1 (bytes - x.iovLen)

/-- `push_front(size_t)`. -/
def pushFrontBytes (a : IovArray) (bytes : ℕ) : IovArray × ℕ :=
  let x := newIovec bytes (m 0)
  if x.iovLen = 0 then (a, 0)
  else
    let r := a.pushFront x
    if r.2 = bytes then (r.1, bytes)
    else
      let rest := bytes - x.iovLen
      let r := pushFrontMore m bytes 1 r.1 rest
      (r.1, x.iovLen + (rest - r.2))

end Malloc

/-- The loop of `iovector_view::shrink_to`: the entry that is cut and its new length, or the bytes
that are missing. -/
def shrinkLoop : List Iovec → ℕ → ℕ ⊕ ℕ × ℕ
  | [], size => .inl size
  | v :: vs, size =>
    if size ≤ v.iovLen then .inr (0, size)
    else
      match shrinkLoop vs (size - v.iovLen) with
      | .inl left => .inl left
      | .inr (i, len) => .inr (i + 1, len)

/-- `shrink_to(size)`.  Where bytes are missing the result is not `size`, and `iov_end` stays. -/
def shrinkTo (a : IovArray) (size : ℕ) : IovArray × ℕ :=
  if size = 0 then ({ a with iovEnd := a.iovBegin }, 0)
  else
    match shrinkLoop a.entries size with
    | .inl left => (a, size - left)
    | .inr (i, len) =>
      let x := a.iovs (a.iovBegin + i)
      ({ a.put (a.iovBegin + i) { x with iovLen := len } with iovEnd := a.iovBegin + (i + 1) }, size)

/-- `truncate(size)`. -/
def truncate (m : ℕ → Option ℕ) (a : IovArray) (size : ℕ) : IovArray × ℕ :=
  let r := a.shrinkTo size
  if r.2 = size then (r.1, size)
  else
    let p := r.1.pushBackBytes m (size - r.2)
    (p.1, r.2 + p.2)

variable {a : IovArray} {m : ℕ → Option ℕ} {x : Iovec} {fuel i bytes size : ℕ}

/-! ## Pushing one entry -/

/-- The record does not change what the functions do. -/
theorem pushBack_toIovector (a : IovArray) (x : Iovec) :
    (a.pushBack x).1.toIovector = (a.toIovector.pushBack x).1 ∧
      (a.pushBack x).2 = (a.toIovector.pushBack x).2 := by
  unfold pushBack Iovector.pushBack
  split_ifs <;> exact ⟨rfl, rfl⟩

theorem pushFront_toIovector (a : IovArray) (x : Iovec) :
    (a.pushFront x).1.toIovector = (a.toIovector.pushFront x).1 ∧
      (a.pushFront x).2 = (a.toIovector.pushFront x).2 := by
  unfold pushFront Iovector.pushFront
  split_ifs <;> exact ⟨rfl, rfl⟩

/-- An accepted `push_front`. -/
theorem pushFront_spec (hw : a.iovBegin ≤ a.iovEnd) (h : 0 < a.iovBegin) (x : Iovec) :
    (a.pushFront x).2 = x.iovLen ∧ (a.pushFront x).1.entries = x :: a.entries ∧
      (a.pushFront x).1.iovBegin ≤ (a.pushFront x).1.iovEnd := by
  refine ⟨?_, ?_, ?_⟩
  · rw [pushFront, if_pos h]
  · rw [(pushFront_toIovector a x).1, Iovector.entries_pushFront _ _ hw h]
  · rw [pushFront, if_pos h]
    show a.iovBegin - 1 ≤ a.iovEnd
    omega

/-! ## The buffers -/

theorem iovLen_newIovec (size ptr : ℕ) : (newIovec size (some ptr)).iovLen = min size intMax := by
  unfold newIovec
  split_ifs with h
  · exact (Nat.min_eq_left h).symm
  · exact (Nat.min_eq_right (Nat.le_of_not_le h)).symm

theorem iovLen_newIovec_le (size : ℕ) (ptr : Option ℕ) : (newIovec size ptr).iovLen ≤ size := by
  cases ptr with
  | none => exact Nat.zero_le _
  | some ptr =>
    exact Nat.min_le_left _ _

theorem iovLen_newIovec_eq_zero (size : ℕ) (ptr : Option ℕ) :
    (newIovec size ptr).iovLen = 0 ↔ size = 0 ∨ ptr = none := by
  cases ptr with
  | none => simp [newIovec]
  | some ptr =>
    rw [iovLen_newIovec]
    unfold intMax
    simp

/-- The buffers that `push_back` allocates, one after the other. -/
def buffers (m : ℕ → Option ℕ) : ℕ → ℕ → ℕ → List Iovec
  | 0, _, _ => []
  | fuel + 1, i, bytes =>
    let x := newIovec bytes (m i)
    if x.iovLen = 0 then [] else x :: buffers m fuel (i + 1) (bytes - x.iovLen)

theorem iovSum_buffers_le (m : ℕ → Option ℕ) (fuel i bytes : ℕ) :
    iovSum (buffers m fuel i bytes) ≤ bytes := by
  induction fuel generalizing i bytes with
  | zero => exact Nat.zero_le _
  | succ fuel ih =>
    rw [buffers]
    split_ifs with hz
    · exact Nat.zero_le _
    · have hle := iovLen_newIovec_le bytes (m i)
      have hrest := ih (i + 1) (bytes - (newIovec bytes (m i)).iovLen)
      rw [iovSum_cons]
      omega

theorem iovLen_pos_of_mem_buffers (hx : x ∈ buffers m fuel i bytes) : 0 < x.iovLen := by
  induction fuel generalizing i bytes with
  | zero => exact absurd hx List.not_mem_nil
  | succ fuel ih =>
    rw [buffers] at hx
    split_ifs at hx with hz
    · exact absurd hx List.not_mem_nil
    · rcases List.mem_cons.mp hx with rfl | hx
      · exact Nat.pos_of_ne_zero hz
      · exact ih hx

/-- **How many buffers there are**: one for every `INT_MAX` bytes, as long as `malloc` succeeds. -/
theorem lt_length_buffers (h : bytes ≤ fuel) (n : ℕ) :
    n < (buffers m fuel i bytes).length ↔ n * intMax < bytes ∧ ∀ j ≤ n, m (i + j) ≠ none := by
  induction fuel generalizing i bytes n with
  | zero =>
    rw [Nat.le_zero.mp h]
    simp [buffers]
  | succ fuel ih =>
    rw [buffers]
    cases hm : m i with
    | none =>
      refine iff_of_false (Nat.not_lt_zero n) ?_
      rintro ⟨-, hall⟩
      exact hall 0 (Nat.zero_le n) hm
    | some ptr =>
      by_cases hz : bytes = 0
      · rw [hz]
        exact iff_of_false (Nat.not_lt_zero n) fun hlt => Nat.not_lt_zero _ hlt.1
      · have hne : (newIovec bytes (some ptr)).iovLen ≠ 0 := by
          rw [Ne, iovLen_newIovec_eq_zero]
          simp [hz]
        rw [if_neg hne, List.length_cons]
        cases n with
        | zero => simp [hm, Nat.pos_of_ne_zero hz]
        | succ n =>
          rw [Nat.succ_lt_succ_iff, ih (by omega), iovLen_newIovec]
          refine and_congr ?_ ?_
          · rw [Nat.succ_mul]
            omega
          · constructor
            · intro hall j hj
              cases j with
              | zero => simp [hm]
              | succ j =>
                have := hall j (by omega)
                rwa [Nat.add_right_comm] at this
            · intro hall j hj
              have := hall (j + 1) (by omega)
              rwa [← Nat.add_assoc, Nat.add_right_comm] at this

/-- The array after a push of several entries. -/
def pushAll (a : IovArray) (xs : List Iovec) : IovArray := xs.foldl (fun a x => (a.pushBack x).1) a

theorem pushAll_toIovector (a : IovArray) (xs : List Iovec) :
    (a.pushAll xs).toIovector = xs.foldl (fun v x => (v.pushBack x).1) a.toIovector := by
  induction xs generalizing a with
  | nil => rfl
  | cons x xs ih =>
    rw [List.foldl_cons, ← (pushBack_toIovector a x).1]
    exact ih _

/-- What fits is pushed. -/
theorem entries_pushAll (hw : a.iovBegin ≤ a.iovEnd) (xs : List Iovec) :
    (a.pushAll xs).entries = a.entries ++ xs.take (a.capacity - a.iovEnd) := by
  rw [pushAll_toIovector]
  exact Iovector.entries_foldl_pushBack xs a.toIovector hw

theorem pushBackMore_eq (m : ℕ → Option ℕ) (fuel i : ℕ) (a : IovArray) (bytes : ℕ) :
    pushBackMore m fuel i a bytes = (a.pushAll (buffers m fuel i bytes),
      bytes - iovSum (buffers m fuel i bytes)) := by
  induction fuel generalizing i a bytes with
  | zero => rfl
  | succ fuel ih =>
    rw [pushBackMore, buffers]
    by_cases hz : (newIovec bytes (m i)).iovLen = 0
    · rw [if_pos hz]
      split_ifs <;> rfl
    · have hb : bytes ≠ 0 := fun hb => hz ((iovLen_newIovec_eq_zero bytes (m i)).mpr (Or.inl hb))
      rw [if_neg hb, if_neg hz, if_neg hz, ih, Nat.sub_sub]
      rfl

/-- The buffers of `push_back(bytes)`. -/
def allBuffers (m : ℕ → Option ℕ) (bytes : ℕ) : List Iovec := buffers m (bytes + 1) 0 bytes

/-- **`push_back(bytes)`** pushes its buffers, and reports all of them. -/
theorem pushBackBytes_eq (m : ℕ → Option ℕ) (a : IovArray) (bytes : ℕ) :
    a.pushBackBytes m bytes = (a.pushAll (allBuffers m bytes), iovSum (allBuffers m bytes)) := by
  have hrest := iovSum_buffers_le m bytes 1 (bytes - (newIovec bytes (m 0)).iovLen)
  have hle := iovLen_newIovec_le bytes (m 0)
  unfold pushBackBytes allBuffers
  dsimp only
  rw [buffers, Nat.zero_add]
  split_ifs with hz hr
  · rfl
  · -- the first buffer was pushed, and it is the only one
    have hlen : (newIovec bytes (m 0)).iovLen = bytes := by
      unfold pushBack at hr
      split_ifs at hr with hroom
      · exact hr
      · omega
    have hnil : buffers m bytes 1 (bytes - (newIovec bytes (m 0)).iovLen) = [] := by
      rw [hlen, Nat.sub_self]
      cases bytes with
      | zero => rfl
      | succ n =>
        rw [buffers, if_pos]
        exact (iovLen_newIovec_eq_zero 0 _).mpr (Or.inl rfl)
    rw [hnil, iovSum_cons, iovSum_nil, hlen]
    rfl
  · rw [pushBackMore_eq, iovSum_cons]
    refine Prod.ext rfl ?_
    show _ + (_ - (_ - _)) = _
    omega

/-- Some of the buffers are missing exactly if there are more than `n`. -/
theorem iovSum_take_eq_iff {xs : List Iovec} (hpos : ∀ x ∈ xs, 0 < x.iovLen) (n : ℕ) :
    iovSum (xs.take n) = iovSum xs ↔ xs.length ≤ n := by
  constructor
  · intro h
    by_contra hlt
    rw [Nat.not_le] at hlt
    have hsplit : iovSum (xs.take n) + iovSum (xs.drop n) = iovSum xs := by
      rw [← iovSum_append, List.take_append_drop]
    have hdrop : xs.drop n = xs[n] :: xs.drop (n + 1) := List.drop_eq_getElem_cons hlt
    have := hpos _ (List.getElem_mem hlt)
    rw [hdrop, iovSum_cons] at hsplit
    omega
  · intro h
    rw [List.take_of_length_le h]

theorem iovSum_take_le (xs : List Iovec) (n : ℕ) : iovSum (xs.take n) ≤ iovSum xs := by
  have h := congrArg iovSum (List.take_append_drop n xs)
  rw [iovSum_append] at h
  omega

/-! ## What the functions report -/

/-- `bytes` fit into `room` entries, or `malloc` fails before they are used up. -/
def Fits (m : ℕ → Option ℕ) (bytes room : ℕ) : Prop :=
  bytes ≤ room * intMax ∨ ∃ j ≤ room, m j = none

theorem length_allBuffers_le_iff (m : ℕ → Option ℕ) (bytes room : ℕ) :
    (allBuffers m bytes).length ≤ room ↔ Fits m bytes room := by
  rw [← Nat.not_lt, allBuffers, lt_length_buffers (Nat.le_succ bytes)]
  simp only [Nat.zero_add]
  constructor
  · intro hnot
    by_cases hle : bytes ≤ room * intMax
    · exact Or.inl hle
    · right
      by_contra hall
      push Not at hall
      exact hnot ⟨Nat.lt_of_not_le hle, hall⟩
  · rintro (hle | ⟨j, hj, hnone⟩) ⟨hlt, hall⟩
    · omega
    · exact hall j hj hnone

theorem iovSum_take_allBuffers_iff (m : ℕ → Option ℕ) (bytes room : ℕ) :
    iovSum ((allBuffers m bytes).take room) = iovSum (allBuffers m bytes) ↔ Fits m bytes room := by
  rw [← length_allBuffers_le_iff]
  exact iovSum_take_eq_iff (fun x hx => iovLen_pos_of_mem_buffers hx) room

/-- The result is the amount by which `sum()` has grown. -/
def GrewBy (a : IovArray) (r : IovArray × ℕ) : Prop := r.1.sum = (a.sum + r.2) % 2 ^ 64

/-- The result is the new `sum()`, which is at most `size`, and the bytes in front are the same. -/
structure TruncatedTo (a : IovArray) (size : ℕ) (r : IovArray × ℕ) : Prop where
  ret_eq : r.2 = r.1.sum
  sum_le : r.1.sum ≤ size
  bytes_eq : (addrs r.1.entries).take (min size a.sum) = (addrs a.entries).take (min size a.sum)

theorem grewBy_iff {r : IovArray × ℕ} {g : ℕ} (h : iovSum r.1.entries = iovSum a.entries + g)
    (hg : g ≤ r.2) (hr : r.2 < 2 ^ 64) : GrewBy a r ↔ g = r.2 := by
  unfold GrewBy Iovector.sum
  omega

theorem pushBackBytes_iff (hw : a.iovBegin ≤ a.iovEnd) (hb : bytes < 2 ^ 64) :
    GrewBy a (a.pushBackBytes m bytes) ↔ Fits m bytes (a.capacity - a.iovEnd) := by
  have hsum := iovSum_buffers_le m (bytes + 1) 0 bytes
  rw [pushBackBytes_eq]
  refine (grewBy_iff (g := iovSum ((allBuffers m bytes).take (a.capacity - a.iovEnd)))
    ?_ (iovSum_take_le _ _) (hsum.trans_lt hb)).trans ?_
  · show iovSum (a.pushAll _).entries = _
    rw [entries_pushAll hw, iovSum_append]
  · exact iovSum_take_allBuffers_iff m bytes _

/-- `push_front_more` stops when nothing is free in front. -/
theorem pushFrontMore_spec (hw : a.iovBegin ≤ a.iovEnd) :
    (pushFrontMore m fuel i a bytes).2 ≤ bytes ∧
      iovSum (pushFrontMore m fuel i a bytes).1.entries
        = iovSum a.entries + (bytes - (pushFrontMore m fuel i a bytes).2) := by
  induction fuel generalizing i a bytes with
  | zero => simp [pushFrontMore]
  | succ fuel ih =>
    rw [pushFrontMore]
    dsimp only
    split_ifs with hz hbegin hlen
    · simp
    · simp
    · simp
    · obtain ⟨-, hentries, hw'⟩ := pushFront_spec hw (Nat.pos_of_ne_zero hbegin)
        (newIovec bytes (m i))
      have hle := iovLen_newIovec_le bytes (m i)
      obtain ⟨hleft, hsum⟩ : (pushFrontMore m fuel (i + 1) (a.pushFront (newIovec bytes (m i))).1
          (bytes - (newIovec bytes (m i)).iovLen)).2 ≤ _ ∧ _ := ih hw'
      rw [hentries, iovSum_cons] at hsum
      constructor
      · omega
      · omega

theorem pushFrontBytes_iff (hw : a.iovBegin ≤ a.iovEnd) (hb : bytes < 2 ^ 64) :
    GrewBy a (a.pushFrontBytes m bytes) ↔ 0 < a.iovBegin ∨ bytes = 0 ∨ m 0 = none := by
  have hle := iovLen_newIovec_le bytes (m 0)
  have hzero := iovLen_newIovec_eq_zero bytes (m 0)
  unfold pushFrontBytes
  by_cases hz : (newIovec bytes (m 0)).iovLen = 0
  · rw [if_pos hz]
    refine iff_of_true ?_ (Or.inr (hzero.mp hz))
    exact (grewBy_iff (g := 0) rfl le_rfl (by show 0 < _; omega)).mpr rfl
  · rw [if_neg hz]
    rcases Nat.eq_zero_or_pos a.iovBegin with hbegin | hbegin
    · -- the first buffer is refused and counted
      have hpush : a.pushFront (newIovec bytes (m 0)) = (a, 0) := by
        rw [pushFront, if_neg (by omega)]
      have hmore : pushFrontMore m bytes 1 a (bytes - (newIovec bytes (m 0)).iovLen)
          = (a, bytes - (newIovec bytes (m 0)).iovLen) := by
        cases bytes with
        | zero => rfl
        | succ n =>
          rw [pushFrontMore]
          split_ifs <;> rfl
      dsimp only
      rw [hpush]
      rw [if_neg (by omega), hmore, Nat.sub_self, ← hzero]
      refine (grewBy_iff (g := 0) rfl (Nat.zero_le _) (by show _ < _; omega)).trans ?_
      show 0 = _ ↔ _
      omega
    · obtain ⟨hret, hentries, hw'⟩ := pushFront_spec hw hbegin (newIovec bytes (m 0))
      refine iff_of_true ?_ (Or.inl hbegin)
      dsimp only
      split_ifs with hall
      · refine (grewBy_iff (g := bytes) ?_ le_rfl hb).mpr rfl
        show iovSum (a.pushFront _).1.entries = _
        rw [hentries, iovSum_cons]
        omega
      · obtain ⟨hleft, hsum⟩ : (pushFrontMore m bytes 1 (a.pushFront (newIovec bytes (m 0))).1
            (bytes - (newIovec bytes (m 0)).iovLen)).2 ≤ _ ∧ _ := pushFrontMore_spec hw'
        rw [hentries, iovSum_cons] at hsum
        refine (grewBy_iff (g := (newIovec bytes (m 0)).iovLen + (bytes
          - (newIovec bytes (m 0)).iovLen - (pushFrontMore m bytes 1 _ _).2)) ?_ le_rfl ?_).mpr rfl
        · rw [hsum]
          omega
        · omega

/-! ## Truncation -/

/-- The entry at which the loop of `shrink_to` stops, and what it leaves of the view. -/
theorem shrinkLoop_of_le {vs : List Iovec} (hpos : 0 < size) (hle : size ≤ iovSum vs) :
    ∃ i len, shrinkLoop vs size = .inr (i, len) ∧ ∃ h : i < vs.length,
      frontPieces vs size = vs.take i ++ [{ vs[i] with iovLen := len }] := by
  induction vs generalizing size with
  | nil =>
    rw [iovSum_nil] at hle
    omega
  | cons v vs ih =>
    rw [shrinkLoop, frontPieces]
    by_cases hfirst : size ≤ v.iovLen
    · rw [if_pos hfirst, if_pos hfirst]
      exact ⟨0, size, rfl, Nat.succ_pos _, rfl⟩
    · rw [if_neg hfirst, if_neg hfirst]
      rw [iovSum_cons] at hle
      obtain ⟨i, len, hloop, hi, hpieces⟩ := ih (by omega : 0 < size - v.iovLen) (by omega)
      refine ⟨i + 1, len, ?_, Nat.succ_lt_succ hi, ?_⟩
      · rw [hloop]
      · rw [hpieces]
        rfl

theorem shrinkLoop_of_lt {vs : List Iovec} (hlt : iovSum vs < size) :
    shrinkLoop vs size = .inl (size - iovSum vs) := by
  induction vs generalizing size with
  | nil => rfl
  | cons v vs ih =>
    rw [iovSum_cons] at hlt
    rw [shrinkLoop, if_neg (by omega), ih (by omega), iovSum_cons, Nat.sub_sub]

theorem getElem_entries {v : Iovector} {i : ℕ} (h : i < v.entries.length) :
    v.entries[i] = v.iovs (v.iovBegin + i) := by
  simp [Iovector.entries, Iovector.nth]

/-- A first part of the window. -/
theorem entries_window_take {v : Iovector} {i : ℕ} (h : i ≤ v.iovEnd - v.iovBegin) :
    Iovector.entries { v with iovEnd := v.iovBegin + i } = v.entries.take i := by
  unfold Iovector.entries Iovector.iovcnt
  rw [← List.map_take, List.take_range, Nat.min_eq_left h, Nat.add_sub_cancel_left]
  rfl

/-- **`shrink_to`** keeps the first bytes. -/
theorem shrinkTo_of_le (hle : size ≤ iovSum a.entries) :
    (a.shrinkTo size).2 = size ∧ iovSum (a.shrinkTo size).1.entries = size ∧
      addrs (a.shrinkTo size).1.entries = (addrs a.entries).take size := by
  unfold shrinkTo
  by_cases hz : size = 0
  · rw [hz]
    have hnil : Iovector.entries { a.toIovector with iovEnd := a.iovBegin } = [] :=
      Iovector.entries_clear a.toIovector
    refine ⟨rfl, ?_, ?_⟩
    · exact congrArg iovSum hnil
    · exact congrArg addrs hnil
  · obtain ⟨i, len, hloop, hi, hpieces⟩ := shrinkLoop_of_le (Nat.pos_of_ne_zero hz) hle
    rw [if_neg hz, hloop]
    have hi' : i < a.iovEnd - a.iovBegin := by
      rwa [Iovector.length_entries] at hi
    have hentries : Iovector.entries { (a.put (a.iovBegin + i)
        { a.iovs (a.iovBegin + i) with iovLen := len }).toIovector with
          iovEnd := a.iovBegin + (i + 1) } = frontPieces a.entries size := by
      rw [hpieces, Iovector.entries_eq_snoc (show a.iovBegin < a.iovBegin + (i + 1) by omega)]
      show Iovector.entries _ ++ [Function.update a.iovs (a.iovBegin + i) _ (a.iovBegin + i)] = _
      rw [Function.update_self, getElem_entries, ← entries_window_take (v := a.toIovector) hi'.le]
      congr 1
      refine Iovector.entries_congr rfl rfl fun j _ hj => ?_
      change j < a.iovBegin + i at hj
      exact Function.update_of_ne (by omega) ..
    refine ⟨rfl, ?_, ?_⟩
    · exact (congrArg iovSum hentries).trans ((iovSum_frontPieces _ _).trans (Nat.min_eq_left hle))
    · exact (congrArg addrs hentries).trans (addrs_frontPieces size a.entries)

theorem shrinkTo_of_lt (hlt : iovSum a.entries < size) :
    a.shrinkTo size = (a, iovSum a.entries) := by
  unfold shrinkTo
  rw [if_neg (by omega), shrinkLoop_of_lt hlt]
  dsimp only
  rw [Nat.sub_sub_self hlt.le]

theorem truncate_eq_of_le (hle : size ≤ iovSum a.entries) :
    a.truncate m size = ((a.shrinkTo size).1, size) := by
  unfold truncate
  rw [if_pos (shrinkTo_of_le hle).1]

theorem truncate_eq_of_lt (hlt : iovSum a.entries < size) :
    a.truncate m size = (a.pushAll (allBuffers m (size - iovSum a.entries)),
      iovSum a.entries + iovSum (allBuffers m (size - iovSum a.entries))) := by
  unfold truncate
  rw [shrinkTo_of_lt hlt]
  dsimp only
  rw [if_neg hlt.ne, pushBackBytes_eq]

theorem truncate_of_le (hle : size ≤ iovSum a.entries) (hb : size < 2 ^ 64) :
    TruncatedTo a size (a.truncate m size) := by
  obtain ⟨-, hsum, haddrs⟩ := shrinkTo_of_le hle
  have hsum' : (a.shrinkTo size).1.sum = size := by
    unfold Iovector.sum
    rw [hsum, Nat.mod_eq_of_lt hb]
  rw [truncate_eq_of_le hle]
  refine ⟨hsum'.symm, hsum'.le, ?_⟩
  rw [haddrs, List.take_take, Nat.min_eq_left (Nat.min_le_left _ _)]

theorem truncate_of_lt (hw : a.iovBegin ≤ a.iovEnd) (hlt : iovSum a.entries < size)
    (hb : size < 2 ^ 64) :
    TruncatedTo a size (a.truncate m size) ↔
      Fits m (size - iovSum a.entries) (a.capacity - a.iovEnd) := by
  set xs := allBuffers m (size - iovSum a.entries) with hxs
  have hsum : iovSum xs ≤ size - iovSum a.entries := iovSum_buffers_le ..
  have htake := iovSum_take_le xs (a.capacity - a.iovEnd)
  have hnew : (a.pushAll xs).sum
      = iovSum a.entries + iovSum (xs.take (a.capacity - a.iovEnd)) := by
    unfold Iovector.sum
    rw [entries_pushAll hw, iovSum_append]
    exact Nat.mod_eq_of_lt (by omega)
  have hold : a.sum = iovSum a.entries := Nat.mod_eq_of_lt (hlt.trans hb)
  rw [truncate_eq_of_lt hlt, ← iovSum_take_allBuffers_iff, ← hxs]
  constructor
  · intro h
    have := h.ret_eq
    dsimp only at this
    omega
  · intro h
    refine ⟨?_, ?_, ?_⟩
    · dsimp only
      omega
    · dsimp only
      omega
    · -- the new bytes come behind the old ones
      rw [entries_pushAll hw, addrs_append, hold, Nat.min_eq_right hlt.le, ← length_addrs,
        List.take_left, List.take_length]

/-- **What the functions report.**  `push_back(bytes)` returns the growth of `sum()` exactly if the
array has room for the buffers, `push_front(bytes)` exactly if an entry is free in front or nothing
is allocated, and `truncate(size)` returns the new size exactly if it has nothing to push or room for
it. -/
theorem reported_sizes_iff (a : IovArray) (m : ℕ → Option ℕ) (bytes : ℕ)
    (hw : a.iovBegin ≤ a.iovEnd) (hb : bytes < 2 ^ 64) :
    (GrewBy a (a.pushBackBytes m bytes) ↔ Fits m bytes (a.capacity - a.iovEnd)) ∧
    (GrewBy a (a.pushFrontBytes m bytes) ↔ 0 < a.iovBegin ∨ bytes = 0 ∨ m 0 = none) ∧
    (TruncatedTo a bytes (a.truncate m bytes) ↔ bytes ≤ iovSum a.entries ∨
      Fits m (bytes - iovSum a.entries) (a.capacity - a.iovEnd)) := by
  refine ⟨pushBackBytes_iff hw hb, pushFrontBytes_iff hw hb, ?_⟩
  rcases Nat.lt_or_ge (iovSum a.entries) bytes with hlt | hle
  · rw [truncate_of_lt hw hlt hb]
    constructor
    · exact Or.inr
    · rintro (hle | hfits)
      · omega
      · exact hfits
  · exact iff_of_true (truncate_of_le hle hb) (Or.inl hle)

/-- One entry of eight bytes in an array of `capacity` entries. -/
def oneOf (capacity : ℕ) : IovArray :=
  { capacity := capacity, iovBegin := 0, iovEnd := 1, iovs := fun _ => ⟨4096, 8⟩, stored := [] }

theorem reported_sizes_oneOf :
    GrewBy (oneOf 2) ((oneOf 2).pushBackBytes (fun _ => some 8192) 5) ∧
      TruncatedTo (oneOf 2) 13 ((oneOf 2).truncate (fun _ => some 8192) 13) := by
  have hfits : Fits (fun _ => some 8192) 5 1 := Or.inl (by decide)
  refine ⟨((reported_sizes_iff (oneOf 2) _ 5 (by decide) (by decide)).1).mpr hfits, ?_⟩
  exact ((reported_sizes_iff (oneOf 2) _ 13 (by decide) (by decide)).2.2).mpr (Or.inr hfits)

/-- **A full array.**  Nothing is pushed, and the results say that it was. -/
theorem reported_sizes_full :
    (let r := (oneOf 1).pushBackBytes (fun _ => some 8192) 5; r.2 = 5 ∧ r.1.sum = 8) ∧
    (let r := (oneOf 1).pushFrontBytes (fun _ => some 8192) 5; r.2 = 5 ∧ r.1.sum = 8) ∧
    (let r := (oneOf 1).truncate (fun _ => some 8192) 13; r.2 = 13 ∧ r.1.sum = 8) ∧
    (oneOf 1).sum = 8 := by
  decide +kernel

end IovArray

/-! ## Shrinking a view -/

/-- `iovector_view`: the array that `iov` points to, and the number of its entries. -/
structure IovView where
  iov : ℕ → Iovec
  iovcnt : ℕ

namespace IovView

variable {v : IovView} {size : ℕ}

def entries (v : IovView) : List Iovec := (List.range v.iovcnt).map v.iov

/-- `shrink_less_than(size)`.  The loop is the one of `shrink_to`, but the entry at which it stops
is kept whole. -/
def shrinkLessThan (v : IovView) (size : ℕ) : IovView × ℕ :=
  if size = 0 then
    if v.iovcnt ≠ 0 then ({ v with iovcnt := 0 }, (v.iov 0).iovLen) else (v, 0)
  else
    match IovArray.shrinkLoop v.entries size with
    | .inl _ => (v, 0)
    | .inr (i, left) => ({ v with iovcnt := i + 1 }, (v.iov i).iovLen - left)

/-- The bytes of the first `k` entries. -/
def prefixSum (v : IovView) (k : ℕ) : ℕ := iovSum (v.entries.take k)

theorem prefixSum_mono (v : IovView) : Monotone v.prefixSum := by
  intro j k hjk
  unfold prefixSum
  rw [← List.take_append_drop j (v.entries.take k), List.take_take, Nat.min_eq_left hjk,
    iovSum_append]
  exact Nat.le_add_right _ _

theorem prefixSum_iovcnt (v : IovView) : v.prefixSum v.iovcnt = iovSum v.entries := by
  unfold prefixSum
  rw [List.take_of_length_le (by simp [entries])]

/-- The loop stops at the first entry with which the bytes suffice. -/
theorem shrinkLoop_first {vs : List Iovec} (hpos : 0 < size) (hle : size ≤ iovSum vs) :
    ∃ i left, IovArray.shrinkLoop vs size = .inr (i, left) ∧ i < vs.length ∧
      size ≤ iovSum (vs.take (i + 1)) ∧ iovSum (vs.take i) < size := by
  induction vs generalizing size with
  | nil =>
    rw [iovSum_nil] at hle
    omega
  | cons x vs ih =>
    rw [IovArray.shrinkLoop]
    by_cases hfirst : size ≤ x.iovLen
    · rw [if_pos hfirst]
      exact ⟨0, size, rfl, Nat.succ_pos _, by simpa [iovSum_cons] using hfirst, hpos⟩
    · rw [iovSum_cons] at hle
      obtain ⟨i, left, hloop, hi, hge, hlt⟩ := ih (by omega : 0 < size - x.iovLen) (by omega)
      rw [if_neg hfirst, hloop]
      refine ⟨i + 1, left, rfl, Nat.succ_lt_succ hi, ?_, ?_⟩
      · rw [List.take_succ_cons, iovSum_cons]
        omega
      · rw [List.take_succ_cons, iovSum_cons]
        omega

/-- **What `shrink_less_than` does:** the array stays, and the entries that are left are the
fewest that hold `size` bytes. -/
theorem shrinkLessThan_spec (hle : size ≤ iovSum v.entries) :
    ∃ k, (v.shrinkLessThan size).1 = { v with iovcnt := k } ∧ k ≤ v.iovcnt ∧
      size ≤ v.prefixSum k ∧ ∀ j < k, v.prefixSum j < size := by
  unfold shrinkLessThan
  by_cases hz : size = 0
  · refine ⟨0, ?_, Nat.zero_le _, by omega, by omega⟩
    split_ifs with hcnt
    · rfl
    · rw [← not_not.mp hcnt]
  · obtain ⟨i, left, hloop, hi, hge, hlt⟩ := shrinkLoop_first (Nat.pos_of_ne_zero hz) hle
    rw [if_neg hz, hloop]
    refine ⟨i + 1, rfl, by simpa [entries] using hi, hge, fun j hj => ?_⟩
    exact (v.prefixSum_mono (Nat.le_of_lt_succ hj)).trans_lt hlt

/-- **`shrink_less_than`** leaves as many entries as fit into `size` bytes exactly when all do with
room to spare, or when `size` is the sum of one prefix and of no other. -/
theorem shrinkLessThan_greatest_iff (v : IovView) (size : ℕ) :
    ((v.shrinkLessThan size).1.iov = v.iov ∧
      IsGreatest {k | k ≤ v.iovcnt ∧ iovSum (v.entries.take k) ≤ size}
        (v.shrinkLessThan size).1.iovcnt) ↔
      iovSum v.entries < size ∨ ∃! k, k ≤ v.iovcnt ∧ iovSum (v.entries.take k) = size := by
  rcases Nat.lt_or_ge (iovSum v.entries) size with hlt | hle
  · have hsame : (v.shrinkLessThan size).1 = v := by
      unfold shrinkLessThan
      rw [if_neg (by omega), IovArray.shrinkLoop_of_lt hlt]
    rw [hsame]
    refine iff_of_true ⟨rfl, ⟨le_rfl, ?_⟩, fun k hk => hk.1⟩ (Or.inl hlt)
    exact (prefixSum_iovcnt v).le.trans hlt.le
  · obtain ⟨k, hk, hcnt, hge, hfew⟩ := shrinkLessThan_spec hle
    rw [hk, or_iff_right (not_lt.mpr hle)]
    constructor
    · rintro ⟨-, ⟨-, hsum⟩, hmax⟩
      refine ⟨k, ⟨hcnt, le_antisymm hsum hge⟩, fun j hj => ?_⟩
      refine le_antisymm (hmax ⟨hj.1, hj.2.le⟩) (not_lt.mp fun hjk => ?_)
      exact (hfew j hjk).ne hj.2
    · rintro ⟨j, ⟨-, hj⟩, huniq⟩
      have hkj : k ≤ j := not_lt.mp fun hjk => (hfew j hjk).ne hj
      have hsum : v.prefixSum k = size := le_antisymm ((v.prefixSum_mono hkj).trans_eq hj) hge
      obtain rfl := huniq k ⟨hcnt, hsum⟩
      refine ⟨rfl, ⟨hcnt, hsum.le⟩, fun i hi => not_lt.mp fun hki => ?_⟩
      -- a longer prefix has as many bytes, so it is the same one
      have hsame : v.prefixSum i = size :=
        le_antisymm hi.2 (hsum.ge.trans (v.prefixSum_mono hki.le))
      exact hki.ne' (huniq i ⟨hi.1, hsame⟩)

/-- One entry of ten bytes is kept for five. -/
theorem shrinkLessThan_keeps_too_much :
    let v : IovView := ⟨fun _ => ⟨4096, 10⟩, 1⟩
    (v.shrinkLessThan 5).1.iovcnt = 1 ∧ iovSum (v.shrinkLessThan 5).1.entries = 10 := by
  decide

end IovView

end HuiRpc
