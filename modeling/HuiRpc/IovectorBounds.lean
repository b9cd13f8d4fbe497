/-
# The array of an iovector in a run

Every sequence of push, pop, clear, extract, shrink and truncate calls on an iovector whose array
has `C` entries (`new_iovector(C, preserve)`, `IOVectorEntity<C, P>`).

* The extraction loops work on the array here (`frontLoop`, `backLoop`), and do to the window what
  the loops of `HuiRpc.Extract` do to the list of its entries (`frontLoop_eq`, `backLoop_eq`).
* `extract_front(bytes, iovector*)` moves entries into the array of another iovector.  The calls on
  the side that gives are extractions into a view, those on the side that takes are
  `extractFrontFrom` and `extractBackFrom`.
* What the calls return is left out: see `HuiRpc.ExtractForms` and `HuiRpc.IovectorPush`.

`in_bounds_iff` says which runs stay within the array.
-/
import HuiRpc.IovectorPush
import HuiRpc.Lib.Runs

namespace HuiRpc

open Runs

namespace IovArray

/-! ## Construction -/

/-- `memcpy` of entries to the index `i`. -/
def putAll : IovArray → ℕ → List Iovec → IovArray
  | a, _, [] => a
  | a, i, x :: xs => (a.put i x).putAll (i + 1) xs

/-- `iovector(capacity, preserve)`, and the entries that `IOVectorEntity(iov, iovcnt, preserve)`
copies in.  The array is uninitialised, here `junk`. -/
def construct (capacity preserve : ℕ) (junk : ℕ → Iovec) (iov : List Iovec) : IovArray :=
  let a : IovArray := { Iovector.new capacity preserve junk with stored := [] }
  { a.putAll a.iovBegin iov with iovEnd := (a.iovEnd + iov.length) % 2 ^ 16 }

/-! ## Extraction from the array -/

section Loops

variable {σ : Type} (cb : σ → Iovec → Except σ σ)

/-- `do_extract_front` on a view of `n` entries of the array.  The view begins at `iov_begin`, to
which the caller assigns `iov_end - iovcnt` in the end. -/
def frontLoop : ℕ → IovArray → ℕ → σ → IovArray × ℕ × Except σ σ
  | 0, a, bytes, c => (a, bytes, .ok c)
  | n + 1, a, bytes, c =>
    let x := a.iovs a.iovBegin
    if bytes ≤ x.iovLen then
      match cb c ⟨x.iovBase, bytes⟩ with
      | .error c' => (a, bytes, .error c')
      | .ok c' =>
        if x.iovLen - bytes = 0 then
          ({ a.put a.iovBegin ⟨x.iovBase, 0⟩ with iovBegin := a.iovBegin + 1 }, 0, .ok c')
        else (a.put a.iovBegin ⟨x.iovBase + bytes, x.iovLen - bytes⟩, 0, .ok c')
    else
      match cb c x with
      | .error c' => (a, bytes, .error c')
      | .ok c' => frontLoop n { a with iovBegin := a.iovBegin + 1 } (bytes - x.iovLen) c'

/-- `do_extract_back` on a view that ends at `iov_end`. -/
def backLoop : ℕ → IovArray → ℕ → σ → IovArray × ℕ × Except σ σ
  | 0, a, bytes, c => (a, bytes, .ok c)
  | n + 1, a, bytes, c =>
    let x := a.iovs (a.iovEnd - 1)
    if bytes ≤ x.iovLen then
      match cb c ⟨x.iovBase + x.iovLen - bytes, bytes⟩ with
      | .error c' => (a, bytes, .error c')
      | .ok c' =>
        if x.iovLen - bytes = 0 then
          ({ a.put (a.iovEnd - 1) ⟨x.iovBase, 0⟩ with iovEnd := a.iovEnd - 1 }, 0, .ok c')
        else (a.put (a.iovEnd - 1) ⟨x.iovBase, x.iovLen - bytes⟩, 0, .ok c')
    else
      match cb c x with
      | .error c' => (a, bytes, .error c')
      | .ok c' => backLoop n { a with iovEnd := a.iovEnd - 1 } (bytes - x.iovLen) c'

/-- The forms of `iovector::extract_front`, with their callbacks. -/
def extractFrontWith (a : IovArray) (bytes : ℕ) (c : σ) : IovArray :=
  if bytes = 0 then a else (frontLoop cb (a.iovEnd - a.iovBegin) a bytes c).1

def extractBackWith (a : IovArray) (bytes : ℕ) (c : σ) : IovArray :=
  if bytes = 0 then a else (backLoop cb (a.iovEnd - a.iovBegin) a bytes c).1

end Loops

/-- `extract_front_continuous(bytes)`, with a buffer at `buf` for the bytes that are not in one
entry. -/
def extractFrontContinuous (mem : Mem) (buf : ℕ) (a : IovArray) (bytes : ℕ) : IovArray :=
  let x := a.iovs a.iovBegin
  if a.iovBegin < a.iovEnd ∧ bytes ≤ x.iovLen then
    let b := a.put a.iovBegin ⟨x.iovBase + bytes, x.iovLen - bytes⟩
    if x.iovBase = 0 then b.extractFrontWith copyUp bytes (mem, buf)
    else if x.iovLen - bytes = 0 then { b with iovBegin := b.iovBegin + 1 }
    else b
  else a.extractFrontWith copyUp bytes (mem, buf)

/-- `extract_back_continuous(bytes)`. -/
def extractBackContinuous (mem : Mem) (buf : ℕ) (a : IovArray) (bytes : ℕ) : IovArray :=
  let x := a.iovs (a.iovEnd - 1)
  if a.iovBegin < a.iovEnd ∧ bytes ≤ x.iovLen then
    let b := a.put (a.iovEnd - 1) ⟨x.iovBase, x.iovLen - bytes⟩
    if x.iovBase + (x.iovLen - bytes) = 0 then b.extractBackWith copyDown bytes (mem, buf + bytes)
    else b
  else a.extractBackWith copyDown bytes (mem, buf + bytes)

/-! ## Extraction into the array -/

/-- `resize(nn)`; the assertion is compiled out. -/
def resize (a : IovArray) (nn : ℕ) : IovArray := { a with iovEnd := (a.iovBegin + nn) % 2 ^ 16 }

/-- `iovcnt()`, a `uint16_t`. -/
def cnt (a : IovArray) : ℕ := (a.iovEnd + 2 ^ 16 - a.iovBegin) % 2 ^ 16

/-- The callback of `extract_front(bytes, iovector_view*)` for a view of `n` entries of the array,
with the number of entries that it has stored. -/
def storeFront (n : ℕ) (c : IovArray × ℕ) (x : Iovec) : Except (IovArray × ℕ) (IovArray × ℕ) :=
  if c.2 = n then .error c else .ok (c.1.put (c.1.iovBegin + c.2) x, c.2 + 1)

/-- The callback of `extract_back(bytes, iovector_view*)`, with the index of the entry that it has
stored last. -/
def storeBack (c : IovArray × ℕ) (x : Iovec) : Except (IovArray × ℕ) (IovArray × ℕ) :=
  if c.2 = c.1.iovBegin then .error c else .ok (c.1.put (c.2 - 1) x, c.2 - 1)

/-- `src.extract_front(bytes, this)`, for another iovector with the entries `src`. -/
def extractFrontFrom (a : IovArray) (src : List Iovec) (bytes : ℕ) : IovArray :=
  if bytes = 0 then a
  else
    let b := a.resize src.length
    match (doExtractFront (storeFront b.cnt) src bytes (b, 0)).2.2 with
    | .ok c => { c.1 with iovEnd := (c.1.iovBegin + c.2) % 2 ^ 16 }
    | .error c => c.1

/-- `src.extract_back(bytes, this)`. -/
def extractBackFrom (a : IovArray) (src : List Iovec) (bytes : ℕ) : IovArray :=
  if bytes = 0 then a
  else
    let b := a.resize src.length
    let stop := b.iovBegin + b.cnt
    match (doExtractBack storeBack src.reverse bytes (b, stop)).2.2 with
    | .ok c => { c.1 with iovBegin := c.2 % 2 ^ 16, iovEnd := (c.2 % 2 ^ 16 + (stop - c.2)) % 2 ^ 16 }
    | .error c => c.1

end IovArray

/-! ## Calls -/

inductive IovOp
  | pushBack (x : Iovec)
  | pushBackBuf (base len : ℕ)
  | pushBackBytes (m : ℕ → Option ℕ) (bytes : ℕ)
  | pushFront (x : Iovec)
  | pushFrontBytes (m : ℕ → Option ℕ) (bytes : ℕ)
  | popFront
  | popBack
  | clear
  | backFreeIovcnt
  | shrinkTo (size : ℕ)
  | truncate (m : ℕ → Option ℕ) (size : ℕ)
  | extractFront (bytes : ℕ)
  | extractFrontBuf (mem : Mem) (bytes buf : ℕ)
  | extractFrontView (cap bytes : ℕ)
  | extractFrontContinuous (mem : Mem) (bytes buf : ℕ)
  | extractFrontFrom (src : List Iovec) (bytes : ℕ)
  | extractBack (bytes : ℕ)
  | extractBackBuf (mem : Mem) (bytes buf : ℕ)
  | extractBackView (cap bytes : ℕ)
  | extractBackContinuous (mem : Mem) (bytes buf : ℕ)
  | extractBackFrom (src : List Iovec) (bytes : ℕ)

namespace IovArray

/-- What a call does to the array. -/
def call (a : IovArray) : IovOp → IovArray
  | .pushBack x => (a.pushBack x).1
  | .pushBackBuf base len => (pushBack { a with capacity := iovCapacity } ⟨base, len⟩).1
  | .pushBackBytes m bytes => (a.pushBackBytes m bytes).1
  | .pushFront x => (a.pushFront x).1
  | .pushFrontBytes m bytes => (a.pushFrontBytes m bytes).1
  | .popFront => if a.iovBegin < a.iovEnd then { a with iovBegin := a.iovBegin + 1 } else a
  | .popBack => if a.iovBegin < a.iovEnd then { a with iovEnd := a.iovEnd - 1 } else a
  | .clear => { a with iovEnd := a.iovBegin }
  | .backFreeIovcnt => if a.capacity = 0 then { a with capacity := iovCapacity } else a
  | .shrinkTo size => (a.shrinkTo size).1
  | .truncate m size => (a.truncate m size).1
  | .extractFront bytes => a.extractFrontWith (fun (_ : Unit) _ => .ok ()) bytes ()
  | .extractFrontBuf mem bytes buf => a.extractFrontWith copyUp bytes (mem, buf)
  | .extractFrontView cap bytes => a.extractFrontWith (storeUp cap) bytes []
  | .extractFrontContinuous mem bytes buf => a.extractFrontContinuous mem buf bytes
  | .extractFrontFrom src bytes => a.extractFrontFrom src bytes
  | .extractBack bytes => a.extractBackWith (fun (_ : Unit) _ => .ok ()) bytes ()
  | .extractBackBuf mem bytes buf => a.extractBackWith copyDown bytes (mem, buf + bytes)
  | .extractBackView cap bytes => a.extractBackWith (storeDown cap) bytes []
  | .extractBackContinuous mem bytes buf => a.extractBackContinuous mem buf bytes
  | .extractBackFrom src bytes => a.extractBackFrom src bytes

/-- The other iovector of an extraction has a `uint16_t` number of entries. -/
def Args (_ : IovArray) : IovOp → Prop
  | .extractFrontFrom src _ => src.length < 2 ^ 16
  | .extractBackFrom src _ => src.length < 2 ^ 16
  | _ => True

instance (a : IovArray) : ∀ op, Decidable (Args a op)
  | .extractFrontFrom _ _ => inferInstanceAs (Decidable (_ < _))
  | .extractBackFrom _ _ => inferInstanceAs (Decidable (_ < _))
  | .pushBack _ | .pushBackBuf _ _ | .pushBackBytes _ _ | .pushFront _ | .pushFrontBytes _ _
  | .popFront | .popBack | .clear | .backFreeIovcnt | .shrinkTo _ | .truncate _ _
  | .extractFront _ | .extractFrontBuf _ _ _ | .extractFrontView _ _
  | .extractFrontContinuous _ _ _ | .extractBack _ | .extractBackBuf _ _ _
  | .extractBackView _ _ | .extractBackContinuous _ _ _ => inferInstanceAs (Decidable True)

/-- The window lies within an array of `C` entries, and nothing was stored behind it. -/
structure InBounds (C : ℕ) (a : IovArray) : Prop where
  begin_le : a.iovBegin ≤ a.iovEnd
  end_le : a.iovEnd ≤ C
  stored_lt : ∀ i ∈ a.stored, i < C

/-- The call stays within the array. -/
def Fit (C : ℕ) (a : IovArray) : IovOp → Prop
  | .pushBack _ => a.capacity ≤ C ∨ a.iovEnd < C
  | .pushBackBuf _ _ => iovCapacity ≤ C ∨ a.iovEnd < C
  | .pushBackBytes m bytes => a.capacity ≤ C ∨ Fits m bytes (C - a.iovEnd)
  | .truncate m size => size ≤ iovSum a.entries ∨ a.capacity ≤ C ∨
      Fits m (size - iovSum a.entries) (C - a.iovEnd)
  | .extractFrontFrom src bytes => bytes = 0 ∨ a.iovBegin + (frontPieces src bytes).length ≤ C
  | .extractBackFrom src bytes => bytes = 0 ∨ a.iovBegin + src.length ≤ C
  | _ => True

variable {C n bytes : ℕ} {a b : IovArray} {x : Iovec} {src : List Iovec}

theorem InBounds.put (h : InBounds C a) {i : ℕ} (hi : i < C) (x : Iovec) : InBounds C (a.put i x) := by
  refine ⟨h.begin_le, h.end_le, fun j hj => ?_⟩
  rcases List.mem_append.mp hj with hj | hj
  · exact h.stored_lt j hj
  · rw [List.mem_singleton.mp hj]
    exact hi

/-- The window may be made smaller. -/
theorem InBounds.window (h : InBounds C a) {p q : ℕ} (hpq : p ≤ q) (hq : q ≤ C) :
    InBounds C { a with iovBegin := p, iovEnd := q } :=
  ⟨hpq, hq, h.stored_lt⟩

/-! ## The extraction loops -/

section Loops

variable {σ : Type} {cb : σ → Iovec → Except σ σ} {c : σ}

/-- The loop on the array does to the window what the loop on lists does to its entries. -/
theorem frontLoop_eq (hn : a.iovBegin + n = a.iovEnd) :
    ((frontLoop cb n a bytes c).1.entries, (frontLoop cb n a bytes c).2)
      = doExtractFront cb a.entries bytes c := by
  induction n generalizing a bytes c with
  | zero =>
    have hnil : a.entries = [] := by
      simp [Iovector.entries, Iovector.iovcnt, ← hn]
    simp [frontLoop, doExtractFront, hnil]
  | succ n ih =>
    have hlt : a.iovBegin < a.iovEnd := by omega
    have hcons := Iovector.entries_eq_cons hlt
    -- the window after a store to its first entry
    have hput : ∀ y, (a.put a.iovBegin y).entries
        = y :: Iovector.entries { a.toIovector with iovBegin := a.iovBegin + 1 } := by
      intro y
      rw [Iovector.entries_eq_cons (v := (a.put a.iovBegin y).toIovector) hlt]
      congr 1
      · exact Function.update_self ..
      · refine Iovector.entries_congr rfl rfl fun j hj _ => ?_
        change a.iovBegin + 1 ≤ j at hj
        exact Function.update_of_ne (by omega) ..
    have hrest : ∀ y, Iovector.entries
        { (a.put a.iovBegin y).toIovector with iovBegin := a.iovBegin + 1 }
          = Iovector.entries { a.toIovector with iovBegin := a.iovBegin + 1 } := by
      intro y
      refine Iovector.entries_congr rfl rfl fun j hj _ => ?_
      change a.iovBegin + 1 ≤ j at hj
      exact Function.update_of_ne (by omega) ..
    rw [hcons, frontLoop, doExtractFront]
    by_cases hle : bytes ≤ (a.iovs a.iovBegin).iovLen
    · rw [if_pos hle, if_pos hle]
      cases cb c ⟨(a.iovs a.iovBegin).iovBase, bytes⟩ with
      | error c' => exact Prod.ext hcons rfl
      | ok c' =>
        dsimp only
        split_ifs
        · exact Prod.ext (hrest _) rfl
        · exact Prod.ext (hput _) rfl
    · rw [if_neg hle, if_neg hle]
      cases cb c (a.iovs a.iovBegin) with
      | error c' => exact Prod.ext hcons rfl
      | ok c' =>
        exact ih (a := { a with iovBegin := a.iovBegin + 1 }) (by show a.iovBegin + 1 + n = a.iovEnd; omega)

theorem backLoop_eq (hn : a.iovBegin + n = a.iovEnd) :
    ((backLoop cb n a bytes c).1.entries.reverse, (backLoop cb n a bytes c).2)
      = doExtractBack cb a.entries.reverse bytes c := by
  induction n generalizing a bytes c with
  | zero =>
    have hnil : a.entries = [] := by
      simp [Iovector.entries, Iovector.iovcnt, ← hn]
    simp [backLoop, doExtractBack, hnil]
  | succ n ih =>
    have hlt : a.iovBegin < a.iovEnd := by omega
    have hsnoc := Iovector.entries_eq_snoc hlt
    have hrest : ∀ y, Iovector.entries
        { (a.put (a.iovEnd - 1) y).toIovector with iovEnd := a.iovEnd - 1 }
          = Iovector.entries { a.toIovector with iovEnd := a.iovEnd - 1 } := by
      intro y
      refine Iovector.entries_congr rfl rfl fun j _ hj => ?_
      change j < a.iovEnd - 1 at hj
      exact Function.update_of_ne (by omega) ..
    have hput : ∀ y, (a.put (a.iovEnd - 1) y).entries
        = Iovector.entries { a.toIovector with iovEnd := a.iovEnd - 1 } ++ [y] := by
      intro y
      rw [Iovector.entries_eq_snoc (v := (a.put (a.iovEnd - 1) y).toIovector) hlt]
      congr 1
      · exact hrest y
      · exact congrArg (fun x => [x]) (Function.update_self ..)
    have hrev : a.entries.reverse = a.iovs (a.iovEnd - 1) ::
        (Iovector.entries { a.toIovector with iovEnd := a.iovEnd - 1 }).reverse := by
      rw [hsnoc, List.reverse_append]
      rfl
    rw [hrev, backLoop, doExtractBack]
    by_cases hle : bytes ≤ (a.iovs (a.iovEnd - 1)).iovLen
    · rw [if_pos hle, if_pos hle]
      cases cb c ⟨(a.iovs (a.iovEnd - 1)).iovBase + (a.iovs (a.iovEnd - 1)).iovLen - bytes, bytes⟩ with
      | error c' => exact Prod.ext hrev rfl
      | ok c' =>
        dsimp only
        split_ifs
        · exact Prod.ext (congrArg List.reverse (hrest _)) rfl
        · refine Prod.ext ?_ rfl
          show (a.put _ _).entries.reverse = _
          rw [hput, List.reverse_append]
          rfl
    · rw [if_neg hle, if_neg hle]
      cases cb c (a.iovs (a.iovEnd - 1)) with
      | error c' => exact Prod.ext hrev rfl
      | ok c' =>
        exact ih (a := { a with iovEnd := a.iovEnd - 1 }) (by show a.iovBegin + n = a.iovEnd - 1; omega)

theorem InBounds.frontLoop (h : InBounds C a) (hn : a.iovBegin + n = a.iovEnd) :
    InBounds C (frontLoop cb n a bytes c).1 := by
  induction n generalizing a bytes c with
  | zero => exact h
  | succ n ih =>
    have hlt : a.iovBegin < C := by
      have := h.end_le
      omega
    rw [IovArray.frontLoop]
    by_cases hle : bytes ≤ (a.iovs a.iovBegin).iovLen
    · rw [if_pos hle]
      split
      · exact h
      · split_ifs
        · exact (h.put hlt _).window (by show a.iovBegin + 1 ≤ a.iovEnd; omega) h.end_le
        · exact h.put hlt _
    · rw [if_neg hle]
      split
      · exact h
      · refine ih (h.window (by omega) h.end_le) ?_
        show a.iovBegin + 1 + n = a.iovEnd
        omega

theorem InBounds.backLoop (h : InBounds C a) (hn : a.iovBegin + n = a.iovEnd) :
    InBounds C (backLoop cb n a bytes c).1 := by
  induction n generalizing a bytes c with
  | zero => exact h
  | succ n ih =>
    have hend := h.end_le
    have hlt : a.iovEnd - 1 < C := by omega
    rw [IovArray.backLoop]
    by_cases hle : bytes ≤ (a.iovs (a.iovEnd - 1)).iovLen
    · rw [if_pos hle]
      split
      · exact h
      · split_ifs
        · refine (h.put hlt _).window (q := a.iovEnd - 1) ?_ (by omega)
          show a.iovBegin ≤ a.iovEnd - 1
          omega
        · exact h.put hlt _
    · rw [if_neg hle]
      split
      · exact h
      · refine ih (h.window (by omega) (by omega)) ?_
        show a.iovBegin + n = a.iovEnd - 1
        omega

theorem InBounds.extractFrontWith (h : InBounds C a) :
    InBounds C (a.extractFrontWith cb bytes c) := by
  unfold IovArray.extractFrontWith
  split_ifs
  · exact h
  · exact h.frontLoop (Nat.add_sub_of_le h.begin_le)

theorem InBounds.extractBackWith (h : InBounds C a) :
    InBounds C (a.extractBackWith cb bytes c) := by
  unfold IovArray.extractBackWith
  split_ifs
  · exact h
  · exact h.backLoop (Nat.add_sub_of_le h.begin_le)

end Loops

theorem InBounds.extractFrontContinuous (h : InBounds C a) (mem : Mem) (buf : ℕ) :
    InBounds C (a.extractFrontContinuous mem buf bytes) := by
  unfold IovArray.extractFrontContinuous
  dsimp only
  split_ifs with hin hnull hused
  · exact (h.put (hin.1.trans_le h.end_le) _).extractFrontWith
  · exact (h.put (hin.1.trans_le h.end_le) _).window hin.1 h.end_le
  · exact h.put (hin.1.trans_le h.end_le) _
  · exact h.extractFrontWith

theorem InBounds.extractBackContinuous (h : InBounds C a) (mem : Mem) (buf : ℕ) :
    InBounds C (a.extractBackContinuous mem buf bytes) := by
  have hend := h.end_le
  unfold IovArray.extractBackContinuous
  dsimp only
  split_ifs with hin hnull
  · exact (h.put (by omega) _).extractBackWith
  · exact h.put (by omega) _
  · exact h.extractBackWith

/-! ## Pushes -/

/-- Where the entries of a push go. -/
theorem pushAll_frame (a : IovArray) (xs : List Iovec) :
    (a.pushAll xs).iovBegin = a.iovBegin ∧
      (a.pushAll xs).iovEnd = a.iovEnd + min xs.length (a.capacity - a.iovEnd) ∧
      ∀ i, i ∈ (a.pushAll xs).stored ↔ i ∈ a.stored ∨ a.iovEnd ≤ i ∧ i < (a.pushAll xs).iovEnd := by
  induction xs generalizing a with
  | nil =>
    refine ⟨rfl, by simp [pushAll], fun i => ?_⟩
    exact (or_iff_left fun hi => absurd hi.2 (Nat.not_lt.mpr hi.1)).symm
  | cons x xs ih =>
    have hcons : a.pushAll (x :: xs) = (a.pushBack x).1.pushAll xs := rfl
    obtain ⟨hbegin, hend, hstored⟩ := ih (a.pushBack x).1
    rw [hcons]
    unfold pushBack at hbegin hend hstored ⊢
    split_ifs at hbegin hend hstored ⊢ with hroom
    · refine ⟨hbegin, ?_, fun i => ?_⟩
      · rw [hend, List.length_cons]
        show a.iovEnd + 1 + min xs.length (a.capacity - (a.iovEnd + 1)) = _
        omega
      · rw [hstored]
        show i ∈ a.stored ++ [a.iovEnd] ∨ a.iovEnd + 1 ≤ i ∧ _ ↔ _
        rw [List.mem_append, List.mem_singleton, or_assoc, hend]
        refine or_congr_right ?_
        dsimp only
        omega
    · refine ⟨hbegin, ?_, hstored⟩
      rw [hend]
      dsimp only
      omega

theorem inBounds_pushAll_iff (h : InBounds C a) (xs : List Iovec) :
    InBounds C (a.pushAll xs) ↔ a.capacity ≤ C ∨ xs.length ≤ C - a.iovEnd := by
  obtain ⟨hbegin, hend, hstored⟩ := a.pushAll_frame xs
  have hle := h.end_le
  constructor
  · intro h'
    have := h'.end_le
    omega
  · intro hfit
    have hC : (a.pushAll xs).iovEnd ≤ C := by omega
    refine ⟨?_, hC, fun i hi => ?_⟩
    · have := h.begin_le
      omega
    · rcases (hstored i).mp hi with hi | hi
      · exact h.stored_lt i hi
      · omega

theorem InBounds.pushFront (h : InBounds C a) (x : Iovec) : InBounds C (a.pushFront x).1 := by
  have hbegin := h.begin_le
  have hend := h.end_le
  unfold IovArray.pushFront
  split_ifs with hpos
  · refine (h.put (show a.iovBegin - 1 < C by omega) x).window (p := a.iovBegin - 1) ?_ h.end_le
    show a.iovBegin - 1 ≤ a.iovEnd
    omega
  · exact h

theorem InBounds.pushFrontMore (h : InBounds C a) (m : ℕ → Option ℕ) (fuel i bytes : ℕ) :
    InBounds C (pushFrontMore m fuel i a bytes).1 := by
  induction fuel generalizing a i bytes with
  | zero => exact h
  | succ fuel ih =>
    rw [IovArray.pushFrontMore]
    dsimp only
    split_ifs
    · exact h
    · exact h
    · exact h
    · exact ih (h.pushFront _) _ _

theorem InBounds.pushFrontBytes (h : InBounds C a) (m : ℕ → Option ℕ) (bytes : ℕ) :
    InBounds C (a.pushFrontBytes m bytes).1 := by
  unfold IovArray.pushFrontBytes
  dsimp only
  split_ifs
  · exact h
  · exact h.pushFront _
  · exact (h.pushFront _).pushFrontMore m _ _ _

theorem InBounds.shrinkTo (h : InBounds C a) (size : ℕ) : InBounds C (a.shrinkTo size).1 := by
  rcases Nat.lt_or_ge (iovSum a.entries) size with hlt | hle
  · rw [shrinkTo_of_lt hlt]
    exact h
  · unfold IovArray.shrinkTo
    by_cases hz : size = 0
    · rw [if_pos hz]
      exact h.window le_rfl (h.begin_le.trans h.end_le)
    · obtain ⟨i, len, hloop, hi, -⟩ := shrinkLoop_of_le (Nat.pos_of_ne_zero hz) hle
      rw [Iovector.length_entries] at hi
      have hi' : a.iovBegin + i < a.iovEnd := by
        change i < a.iovEnd - a.iovBegin at hi
        omega
      rw [if_neg hz, hloop]
      refine (h.put (hi'.trans_le h.end_le) _).window ?_ (hi'.trans_le h.end_le)
      show a.iovBegin ≤ a.iovBegin + (i + 1)
      omega

theorem inBounds_truncate_iff (h : InBounds C a) (m : ℕ → Option ℕ) (size : ℕ) :
    InBounds C (a.truncate m size).1 ↔ size ≤ iovSum a.entries ∨ a.capacity ≤ C ∨
      Fits m (size - iovSum a.entries) (C - a.iovEnd) := by
  rcases Nat.lt_or_ge (iovSum a.entries) size with hlt | hle
  · rw [truncate_eq_of_lt hlt, inBounds_pushAll_iff h, length_allBuffers_le_iff]
    exact ⟨Or.inr, fun h => h.resolve_left (Nat.not_le.mpr hlt)⟩
  · rw [truncate_eq_of_le hle]
    exact iff_of_true (h.shrinkTo size) (Or.inl hle)

/-! ## Extraction into the array -/

/-- The entries that are stored from the front of a view with room for them. -/
theorem foldlM_storeFront (ps : List Iovec) {k : ℕ} (hfit : k + ps.length ≤ n) :
    ∃ b, ps.foldlM (storeFront n) (a, k) = .ok (b, k + ps.length) ∧ b.iovBegin = a.iovBegin ∧
      ∀ i, i ∈ b.stored ↔
        i ∈ a.stored ∨ a.iovBegin + k ≤ i ∧ i < a.iovBegin + k + ps.length := by
  induction ps generalizing a k with
  | nil => exact ⟨a, rfl, rfl, fun i => (or_iff_left fun hi => absurd hi.2 (Nat.not_lt.mpr hi.1)).symm⟩
  | cons x ps ih =>
    rw [List.length_cons] at hfit
    obtain ⟨b, hb, hbegin, hstored⟩ := ih (a := a.put (a.iovBegin + k) x) (k := k + 1) (by omega)
    refine ⟨b, ?_, hbegin, fun i => ?_⟩
    · have hroom : storeFront n (a, k) x = .ok (a.put (a.iovBegin + k) x, k + 1) := by
        unfold storeFront
        rw [if_neg (by dsimp only; omega)]
      rw [List.foldlM_cons, hroom, List.length_cons, ← Nat.add_assoc, Nat.add_right_comm]
      exact hb
    · rw [hstored]
      show i ∈ a.stored ++ [a.iovBegin + k] ∨ a.iovBegin + (k + 1) ≤ i ∧ _ < a.iovBegin + _ + _ ↔ _
      rw [List.mem_append, List.mem_singleton, or_assoc, List.length_cons]
      refine or_congr_right ?_
      omega

/-- The entries that are stored from the end of a view with room for them. -/
theorem foldlM_storeBack (ps : List Iovec) {p : ℕ} (hfit : a.iovBegin + ps.length ≤ p) :
    ∃ b, ps.foldlM storeBack (a, p) = .ok (b, p - ps.length) ∧
      ∀ i, i ∈ b.stored ↔ i ∈ a.stored ∨ p - ps.length ≤ i ∧ i < p := by
  induction ps generalizing a p with
  | nil => exact ⟨a, rfl, fun i => (or_iff_left fun hi => absurd hi.2 (Nat.not_lt.mpr hi.1)).symm⟩
  | cons x ps ih =>
    rw [List.length_cons] at hfit
    obtain ⟨b, hb, hstored⟩ := ih (a := a.put (p - 1) x) (p := p - 1)
      (show a.iovBegin + ps.length ≤ p - 1 by omega)
    refine ⟨b, ?_, fun i => ?_⟩
    · have hroom : storeBack (a, p) x = .ok (a.put (p - 1) x, p - 1) := by
        unfold storeBack
        rw [if_neg (by dsimp only; omega)]
      rw [List.foldlM_cons, hroom, List.length_cons, Nat.add_comm, ← Nat.sub_sub]
      exact hb
    · rw [hstored]
      show i ∈ a.stored ++ [p - 1] ∨ _ ↔ _
      rw [List.mem_append, List.mem_singleton, or_assoc, List.length_cons]
      refine or_congr_right ?_
      omega

/-- The view that `resize` gives has as many entries as the other iovector. -/
theorem cnt_resize (hbegin : a.iovBegin < 2 ^ 16) (hn : n < 2 ^ 16) : (a.resize n).cnt = n := by
  show ((a.iovBegin + n) % 2 ^ 16 + 2 ^ 16 - a.iovBegin) % 2 ^ 16 = n
  omega

theorem inBounds_extractFrontFrom_iff (hC : C < 2 ^ 16) (h : InBounds C a)
    (hsrc : src.length < 2 ^ 16) :
    InBounds C (a.extractFrontFrom src bytes) ↔
      bytes = 0 ∨ a.iovBegin + (frontPieces src bytes).length ≤ C := by
  have hbegin : a.iovBegin ≤ C := h.begin_le.trans h.end_le
  unfold extractFrontFrom
  by_cases hz : bytes = 0
  · rw [if_pos hz]
    exact iff_of_true h (Or.inl hz)
  · have hlen := length_frontPieces_le src bytes
    obtain ⟨b, hb, hbb, hstored⟩ := foldlM_storeFront (a := a.resize src.length) (n := src.length)
      (frontPieces src bytes) (k := 0) (by omega)
    rw [if_neg hz]
    dsimp only
    rw [cnt_resize (by omega) hsrc, doExtractFront_eq, Peel.Cut.loop_result, ← frontPieces_eq, hb]
    dsimp only
    have hbb' : b.iovBegin = a.iovBegin := hbb
    have hstored' : ∀ i, i ∈ b.stored ↔ i ∈ a.stored ∨
        a.iovBegin ≤ i ∧ i < a.iovBegin + (frontPieces src bytes).length := hstored
    constructor
    · intro h'
      by_contra hnot
      have := h'.stored_lt (a.iovBegin + (frontPieces src bytes).length - 1)
        ((hstored' _).mpr (Or.inr (by omega)))
      omega
    · rintro (hzero | hfit)
      · exact absurd hzero hz
      · refine ⟨?_, ?_, fun i hi => ?_⟩
        · show b.iovBegin ≤ (b.iovBegin + (0 + (frontPieces src bytes).length)) % 2 ^ 16
          omega
        · show (b.iovBegin + (0 + (frontPieces src bytes).length)) % 2 ^ 16 ≤ C
          omega
        · rcases (hstored' i).mp hi with hi | hi
          · exact h.stored_lt i hi
          · omega

theorem inBounds_extractBackFrom_iff (hC : C < 2 ^ 16) (h : InBounds C a)
    (hsrc : src.length < 2 ^ 16) :
    InBounds C (a.extractBackFrom src bytes) ↔ bytes = 0 ∨ a.iovBegin + src.length ≤ C := by
  have hbegin : a.iovBegin ≤ C := h.begin_le.trans h.end_le
  unfold extractBackFrom
  by_cases hz : bytes = 0
  · rw [if_pos hz]
    exact iff_of_true h (Or.inl hz)
  · have hlen := length_backPieces_le src.reverse bytes
    rw [List.length_reverse] at hlen
    set k := (backPieces src.reverse bytes).length with hk
    obtain ⟨b, hb, hstored⟩ := foldlM_storeBack (a := a.resize src.length)
      (backPieces src.reverse bytes) (p := a.iovBegin + src.length)
      (show a.iovBegin + k ≤ _ by omega)
    rw [if_neg hz]
    dsimp only
    rw [cnt_resize (by omega) hsrc, doExtractBack_eq, Peel.Cut.loop_result, ← backPieces_eq,
      show (a.resize src.length).iovBegin = a.iovBegin from rfl, hb]
    dsimp only
    rw [← hk]
    have hstored' : ∀ i, i ∈ b.stored ↔ i ∈ a.stored ∨
        a.iovBegin + src.length - k ≤ i ∧ i < a.iovBegin + src.length := hstored
    constructor
    · intro h'
      by_contra hnot
      -- the first store goes to the last entry of the view
      have hne : src.reverse ≠ [] := by
        intro hnil
        rw [List.reverse_eq_nil_iff.mp hnil, List.length_nil] at hnot
        omega
      have hpos : 0 < k := by
        rw [hk, backPieces_eq]
        exact List.length_pos_of_ne_nil (backCut.pieces_ne_nil hne)
      have := h'.stored_lt (a.iovBegin + src.length - 1) ((hstored' _).mpr (Or.inr (by omega)))
      omega
    · rintro (hzero | hfit)
      · exact absurd hzero hz
      · refine ⟨?_, ?_, fun i hi => ?_⟩
        · dsimp only
          omega
        · dsimp only
          omega
        · rcases (hstored' i).mp hi with hi | hi
          · exact h.stored_lt i hi
          · omega

/-! ## Runs -/

/-- **One call** leads from within the array to within the array exactly if it fits. -/
theorem inBounds_call_iff (hC : C < 2 ^ 16) (h : InBounds C a) {op : IovOp} (hargs : Args a op) :
    InBounds C (a.call op) ↔ Fit C a op := by
  have hend := h.end_le
  cases op with
  | pushBack x =>
    refine (inBounds_pushAll_iff h [x]).trans ?_
    simp only [Fit, List.length_singleton]
    omega
  | pushBackBuf base len =>
    have h' : InBounds C { a with capacity := iovCapacity } := ⟨h.begin_le, h.end_le, h.stored_lt⟩
    refine (inBounds_pushAll_iff h' [⟨base, len⟩]).trans ?_
    simp only [Fit, List.length_singleton]
    omega
  | pushBackBytes m bytes =>
    simp only [call, Fit, pushBackBytes_eq]
    rw [inBounds_pushAll_iff h, length_allBuffers_le_iff]
  | pushFront x => exact iff_of_true (h.pushFront x) trivial
  | pushFrontBytes m bytes => exact iff_of_true (h.pushFrontBytes m bytes) trivial
  | popFront =>
    refine iff_of_true ?_ trivial
    unfold call
    dsimp only
    split_ifs with hne
    · exact h.window hne h.end_le
    · exact h
  | popBack =>
    refine iff_of_true ?_ trivial
    unfold call
    dsimp only
    split_ifs with hne
    · exact h.window (Nat.le_sub_one_of_lt hne) (by omega)
    · exact h
  | clear => exact iff_of_true (h.window le_rfl (h.begin_le.trans h.end_le)) trivial
  | backFreeIovcnt =>
    refine iff_of_true ?_ trivial
    unfold call
    dsimp only
    split_ifs
    · exact ⟨h.begin_le, h.end_le, h.stored_lt⟩
    · exact h
  | shrinkTo size => exact iff_of_true (h.shrinkTo size) trivial
  | truncate m size => exact inBounds_truncate_iff h m size
  | extractFront bytes => exact iff_of_true h.extractFrontWith trivial
  | extractFrontBuf mem bytes buf => exact iff_of_true h.extractFrontWith trivial
  | extractFrontView cap bytes => exact iff_of_true h.extractFrontWith trivial
  | extractFrontContinuous mem bytes buf => exact iff_of_true (h.extractFrontContinuous mem buf) trivial
  | extractFrontFrom src bytes => exact inBounds_extractFrontFrom_iff hC h hargs
  | extractBack bytes => exact iff_of_true h.extractBackWith trivial
  | extractBackBuf mem bytes buf => exact iff_of_true h.extractBackWith trivial
  | extractBackView cap bytes => exact iff_of_true h.extractBackWith trivial
  | extractBackContinuous mem bytes buf => exact iff_of_true (h.extractBackContinuous mem buf) trivial
  | extractBackFrom src bytes => exact inBounds_extractBackFrom_iff hC h hargs

theorem putAll_frame (a : IovArray) (i : ℕ) (xs : List Iovec) :
    (a.putAll i xs).iovBegin = a.iovBegin ∧
      ∀ j, j ∈ (a.putAll i xs).stored ↔ j ∈ a.stored ∨ i ≤ j ∧ j < i + xs.length := by
  induction xs generalizing a i with
  | nil => exact ⟨rfl, fun j => (or_iff_left fun hj => absurd hj.2 (Nat.not_lt.mpr hj.1)).symm⟩
  | cons x xs ih =>
    obtain ⟨hbegin, hstored⟩ := ih (a.put i x) (i + 1)
    refine ⟨hbegin, fun j => ?_⟩
    rw [putAll, hstored]
    show j ∈ a.stored ++ [i] ∨ _ ↔ _
    rw [List.mem_append, List.mem_singleton, or_assoc, List.length_cons]
    refine or_congr_right ?_
    omega

/-- A new iovector is within its array exactly if what it preserves and copies fits. -/
theorem inBounds_construct_iff {preserve : ℕ} (hC : C < 2 ^ 16) (hpreserve : preserve < 2 ^ 16)
    (junk : ℕ → Iovec) (iov : List Iovec) :
    InBounds C (construct C preserve junk iov) ↔ preserve + iov.length ≤ C := by
  obtain ⟨hbegin, hstored⟩ := putAll_frame
    { Iovector.new C preserve junk with stored := [] } preserve iov
  have hstored' : ∀ j, j ∈ (construct C preserve junk iov).stored ↔
      preserve ≤ j ∧ j < preserve + iov.length := by
    intro j
    refine (hstored j).trans ?_
    show j ∈ [] ∨ _ ↔ _
    simp
  have hbegin' : (construct C preserve junk iov).iovBegin = preserve := hbegin
  have hend : (construct C preserve junk iov).iovEnd = (preserve + iov.length) % 2 ^ 16 := rfl
  constructor
  · intro h
    by_contra hnot
    rcases Nat.eq_zero_or_pos iov.length with hzero | hpos
    · have := h.end_le
      omega
    · have := h.stored_lt (preserve + iov.length - 1) ((hstored' _).mpr (by omega))
      omega
  · intro hfit
    refine ⟨by omega, by omega, fun j hj => ?_⟩
    have := (hstored' j).mp hj
    omega

/-- A call as a step. -/
def step (a : IovArray) (op : IovOp) : Option IovArray := some (a.call op)

/-- **Runs within the array.**  In all states of a run `iov_begin ≤ iov_end ≤ C`, and no entry was
stored at an index from `C` on, exactly if the constructor has room for what it preserves and copies,
and every call fits in the state in which it is made. -/
theorem in_bounds_iff {C preserve : ℕ} (hC : C < 2 ^ 16) (hpreserve : preserve < 2 ^ 16)
    (junk : ℕ → Iovec) (iov : List Iovec) {ops : List IovOp} {s : IovArray}
    (h : Run Args step (construct C preserve junk iov) ops s) :
    (∀ pre t, pre <+: ops → Run Args step (construct C preserve junk iov) pre t → InBounds C t) ↔
      preserve + iov.length ≤ C ∧
        Run (fun a op => Args a op ∧ Fit C a op) step (construct C preserve junk iov) ops s := by
  rw [← inBounds_construct_iff hC hpreserve junk iov]
  have hiff := fun hinit : InBounds C (construct C preserve junk iov) =>
    h.always_iff (g := fun a op => Args a op ∧ Fit C a op) (P := InBounds C)
      (fun _ _ hg => hg.1)
      (fun _ _ hrun => hrun.invariant hinit fun a op a' ha hg hs => by
        obtain rfl := Option.some.inj hs
        exact (inBounds_call_iff hC ha hg.1).mpr hg.2)
      (fun _ a op a' _ ha hg hs ha' => by
        obtain rfl := Option.some.inj hs
        exact ⟨hg, (inBounds_call_iff hC ha hg).mp ha'⟩)
  constructor
  · intro hall
    have hinit := hall [] _ List.nil_prefix Run.nil
    exact ⟨hinit, (hiff hinit).mp hall⟩
  · rintro ⟨hinit, hrun⟩
    exact (hiff hinit).mpr hrun

theorem in_bounds_iff_sample :
    ∃ s, Run Args step (construct 4 1 (fun _ => ⟨0, 0⟩) [⟨4096, 8⟩])
        [.pushBack ⟨8192, 5⟩, .pushFront ⟨512, 2⟩, .extractFront 9] s ∧ s.entries = [⟨4103, 1⟩, ⟨8192, 5⟩] ∧
      ∀ pre t, pre <+: [.pushBack ⟨8192, 5⟩, .pushFront ⟨512, 2⟩, .extractFront 9] →
        Run Args step (construct 4 1 (fun _ => ⟨0, 0⟩) [⟨4096, 8⟩]) pre t → InBounds 4 t := by
  have hrun : Run (fun a op => Args a op ∧ Fit 4 a op) step
      (construct 4 1 (fun _ => ⟨0, 0⟩) [⟨4096, 8⟩])
      [.pushBack ⟨8192, 5⟩, .pushFront ⟨512, 2⟩, .extractFront 9] _ :=
    ((Run.nil.snoc ⟨trivial, Or.inl (by decide)⟩ rfl).snoc ⟨trivial, trivial⟩ rfl).snoc
      ⟨trivial, trivial⟩ rfl
  have hrun' := hrun.weaken fun _ _ hg => hg.1
  refine ⟨_, hrun', by decide +kernel, ?_⟩
  exact (in_bounds_iff (by decide) (by decide) _ _ hrun').mpr ⟨by decide, hrun⟩

/-- **A store behind the array.**  `push_back(void*, size_t)` takes every array for one of 2300
entries, also that of an `IOVectorEntity<32, 0>`. -/
theorem stores_out_of_bounds :
    ∃ s, Run Args step (construct 32 0 (fun _ => ⟨0, 0⟩) []) (List.replicate 33 (.pushBackBuf 4096 8)) s ∧
      s.iovEnd = 33 ∧ 32 ∈ s.stored := by
  have hexec : (exec Args step (construct 32 0 (fun _ => ⟨0, 0⟩) [])
      (List.replicate 33 (.pushBackBuf 4096 8))).map (fun s => (s.iovEnd, decide (32 ∈ s.stored)))
        = some (33, true) := by
    decide +kernel
  obtain ⟨s, hs, hval⟩ := Option.map_eq_some_iff.mp hexec
  obtain ⟨hend, hstored⟩ := Prod.mk.inj hval
  exact ⟨s, run_of_exec hs, hend, of_decide_eq_true hstored⟩

end IovArray

end HuiRpc
