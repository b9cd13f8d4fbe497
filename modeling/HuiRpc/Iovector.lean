/-
# The iovec array of `huibuffer/iovector.h`

An `iovec` names a run of bytes by address and length; an `iovector` is a header
(`capacity`, `iov_begin`, `iov_end`) in front of a fixed array of iovecs, of which
only the window `[iov_begin, iov_end)` is content.

The array is kept as a function on indices, so that what lies outside the window
(stale entries, free slots in front of `iov_begin`) is part of the state.  The
operations are the ones of the source; `entries` reads the window back as a list,
and every operation has one lemma that says what it does to that list.

* `capacity`, `iov_begin` and `iov_end` are `uint16_t`, byte counts are `size_t`;
  stores that can wrap carry their `%`.
* `assert` is compiled out: `IF_ASSERT_RETURN` is the `if` it expands to.
-/
import Mathlib

namespace HuiRpc

/-! ## Memory and iovecs -/

/-- Byte-addressed memory. -/
abbrev Mem := ℕ → UInt8

/-- `struct iovec`: the `iovLen` bytes that start at address `iovBase`. -/
structure Iovec where
  iovBase : ℕ
  iovLen : ℕ
  deriving DecidableEq, Repr, Inhabited

/-- The bytes a memory holds at an iovec. -/
def Iovec.bytes (m : Mem) (v : Iovec) : List UInt8 :=
  (List.range v.iovLen).map fun i => m (v.iovBase + i)

/-- The bytes of a list of iovecs, in order. -/
def bytesOf (m : Mem) (vs : List Iovec) : List UInt8 :=
  vs.flatMap (Iovec.bytes m)

/-- The number of bytes of a list of iovecs. -/
def iovSum (vs : List Iovec) : ℕ :=
  (vs.map Iovec.iovLen).sum

@[simp] theorem Iovec.length_bytes (m : Mem) (v : Iovec) :
    (v.bytes m).length = v.iovLen := by
  simp [Iovec.bytes]

@[simp] theorem bytesOf_nil (m : Mem) : bytesOf m [] = [] := rfl

@[simp] theorem bytesOf_cons (m : Mem) (v : Iovec) (vs : List Iovec) :
    bytesOf m (v :: vs) = v.bytes m ++ bytesOf m vs := rfl

@[simp] theorem bytesOf_append (m : Mem) (vs ws : List Iovec) :
    bytesOf m (vs ++ ws) = bytesOf m vs ++ bytesOf m ws := by
  simp [bytesOf]

@[simp] theorem iovSum_nil : iovSum [] = 0 := rfl

@[simp] theorem iovSum_cons (v : Iovec) (vs : List Iovec) :
    iovSum (v :: vs) = v.iovLen + iovSum vs := rfl

@[simp] theorem iovSum_append (vs ws : List Iovec) :
    iovSum (vs ++ ws) = iovSum vs + iovSum ws := by
  simp [iovSum]

@[simp] theorem length_bytesOf (m : Mem) (vs : List Iovec) :
    (bytesOf m vs).length = iovSum vs := by
  induction vs with
  | nil => rfl
  | cons v vs ih => simp [ih]

/-- An iovec of length zero holds no byte, wherever it points. -/
theorem Iovec.bytes_eq_nil (m : Mem) (v : Iovec) (h : v.iovLen = 0) : v.bytes m = [] := by
  simp [Iovec.bytes, h]

/-- **Cutting an iovec.**  The first `n` bytes of an iovec are the iovec cut to
length `n`. -/
theorem Iovec.take_bytes (m : Mem) (v : Iovec) (n : ℕ) (h : n ≤ v.iovLen) :
    (v.bytes m).take n = Iovec.bytes m ⟨v.iovBase, n⟩ := by
  rw [Iovec.bytes, ← List.map_take, List.take_range, Nat.min_eq_left h]
  rfl

/-- The bytes after the first `n` are the iovec moved up by `n`. -/
theorem Iovec.drop_bytes (m : Mem) (v : Iovec) (n : ℕ) :
    (v.bytes m).drop n = Iovec.bytes m ⟨v.iovBase + n, v.iovLen - n⟩ := by
  apply List.ext_getElem
  · simp
  · intro i h1 h2
    simp [Iovec.bytes, Nat.add_assoc]

/-- A cut loses nothing: the two halves concatenate to the whole. -/
theorem Iovec.bytes_cut (m : Mem) (v : Iovec) (n : ℕ) (h : n ≤ v.iovLen) :
    Iovec.bytes m ⟨v.iovBase, n⟩ ++ Iovec.bytes m ⟨v.iovBase + n, v.iovLen - n⟩
      = v.bytes m := by
  rw [← Iovec.take_bytes m v n h, ← Iovec.drop_bytes, List.take_append_drop]

/-! ## The iovector -/

/-- Number of entries of the arrays behind `IOVector = IOVectorEntity<2300, 8>`. -/
def iovCapacity : ℕ := 2300

/-- Entries that the default constructor of `IOVector` leaves free in front. -/
def defPreserve : ℕ := 8

/-- `class iovector`: the header and the array behind it. -/
structure Iovector where
  capacity : ℕ
  iovBegin : ℕ
  iovEnd : ℕ
  iovs : ℕ → Iovec
  deriving Inhabited

namespace Iovector

/-- The constructor `iovector(capacity, preserve)`; the array is uninitialised, here
the given `junk`. -/
def new (capacity preserve : ℕ) (junk : ℕ → Iovec) : Iovector :=
  { capacity := capacity, iovBegin := preserve, iovEnd := preserve, iovs := junk }

/-- `iovcnt()`. -/
def iovcnt (v : Iovector) : ℕ := v.iovEnd - v.iovBegin

/-- `operator[]`, relative to `iov_begin`. -/
def nth (v : Iovector) (i : ℕ) : Iovec := v.iovs (v.iovBegin + i)

/-- The content of the window `[iov_begin, iov_end)`. -/
def entries (v : Iovector) : List Iovec :=
  (List.range v.iovcnt).map v.nth

/-- `sum()`, a `size_t`. -/
def sum (v : Iovector) : ℕ := iovSum v.entries % 2 ^ 64

/-- `back_free_iovcnt()`: it first repairs a zero capacity. -/
def backFreeIovcnt (v : Iovector) : Iovector × ℕ :=
  let v' := if v.capacity = 0 then { v with capacity := iovCapacity } else v
  (v', (v'.capacity + 2 ^ 16 - v'.iovEnd) % 2 ^ 16)

/-- `push_back(struct iovec)`: refused, with result `0`, when the array is full. -/
def pushBack (v : Iovector) (x : Iovec) : Iovector × ℕ :=
  if v.iovEnd < v.capacity then
    ({ v with iovs := Function.update v.iovs v.iovEnd x, iovEnd := v.iovEnd + 1 }, x.iovLen)
  else (v, 0)

/-- `push_back(void*, size_t)`: it sets the capacity to 2300 first. -/
def pushBackBuf (v : Iovector) (base len : ℕ) : Iovector × ℕ :=
  pushBack { v with capacity := iovCapacity } ⟨base, len⟩

/-- `push_front(struct iovec)`: refused when nothing is free in front. -/
def pushFront (v : Iovector) (x : Iovec) : Iovector × ℕ :=
  if 0 < v.iovBegin then
    ({ v with iovs := Function.update v.iovs (v.iovBegin - 1) x, iovBegin := v.iovBegin - 1 },
      x.iovLen)
  else (v, 0)

/-- `clear()`. -/
def clear (v : Iovector) : Iovector := { v with iovEnd := v.iovBegin }

/-- `iov_begin = iov_end = i`, an assignment to two `uint16_t`. -/
def setEmptyAt (v : Iovector) (i : ℕ) : Iovector :=
  { v with iovBegin := i % 2 ^ 16, iovEnd := i % 2 ^ 16 }

/-- Every entry of the window consumed to its end: base moved up, length zero. -/
def drained (v : Iovector) : Iovector :=
  { v with iovs := fun i =>
      if v.iovBegin ≤ i ∧ i < v.iovEnd then
        ⟨(v.iovs i).iovBase + (v.iovs i).iovLen, 0⟩
      else v.iovs i }

/-! ### What each operation does to the window -/

@[simp] theorem length_entries (v : Iovector) : v.entries.length = v.iovcnt := by
  simp [entries]

@[simp] theorem entries_new (c p : ℕ) (junk : ℕ → Iovec) : (new c p junk).entries = [] := by
  simp [entries, iovcnt, new]

@[simp] theorem entries_clear (v : Iovector) : v.clear.entries = [] := by
  simp [entries, iovcnt, clear]

@[simp] theorem entries_setEmptyAt (v : Iovector) (i : ℕ) : (v.setEmptyAt i).entries = [] := by
  simp [entries, iovcnt, setEmptyAt]

/-- The window only depends on its bounds and on the cells inside. -/
theorem entries_congr {v w : Iovector} (hb : v.iovBegin = w.iovBegin)
    (he : v.iovEnd = w.iovEnd)
    (hc : ∀ i, v.iovBegin ≤ i → i < v.iovEnd → v.iovs i = w.iovs i) :
    v.entries = w.entries := by
  unfold entries iovcnt nth
  rw [← he, ← hb]
  apply List.map_congr_left
  intro i hi
  rw [List.mem_range] at hi
  exact hc _ (by omega) (by omega)

/-- The first entry of a window, and the window behind it. -/
theorem entries_eq_cons {v : Iovector} (h : v.iovBegin < v.iovEnd) :
    v.entries = v.iovs v.iovBegin :: entries { v with iovBegin := v.iovBegin + 1 } := by
  have hcnt : v.iovEnd - v.iovBegin = (v.iovEnd - (v.iovBegin + 1)) + 1 := by omega
  simp only [entries, iovcnt, hcnt, List.range_succ_eq_map, List.map_cons, List.map_map]
  congr 1
  apply List.map_congr_left
  intro i _
  show v.iovs (v.iovBegin + (i + 1)) = v.iovs (v.iovBegin + 1 + i)
  rw [Nat.add_right_comm, Nat.add_assoc]

/-- The last entry of a window, and the window before it. -/
theorem entries_eq_snoc {v : Iovector} (h : v.iovBegin < v.iovEnd) :
    v.entries = entries { v with iovEnd := v.iovEnd - 1 } ++ [v.iovs (v.iovEnd - 1)] := by
  have hcnt : v.iovEnd - v.iovBegin = (v.iovEnd - 1 - v.iovBegin) + 1 := by omega
  simp only [entries, iovcnt, hcnt, List.range_succ, List.map_append, List.map_cons, List.map_nil,
    nth]
  rw [show v.iovBegin + (v.iovEnd - 1 - v.iovBegin) = v.iovEnd - 1 by omega]
  rfl

/-- An accepted `push_front` prepends its entry. -/
theorem entries_pushFront (v : Iovector) (x : Iovec) (hw : v.iovBegin ≤ v.iovEnd)
    (hr : 0 < v.iovBegin) : (v.pushFront x).1.entries = x :: v.entries := by
  rw [pushFront, if_pos hr, entries_eq_cons (show v.iovBegin - 1 < v.iovEnd by omega)]
  dsimp only
  rw [Function.update_self]
  congr 1
  refine entries_congr (show v.iovBegin - 1 + 1 = v.iovBegin by omega) rfl fun i hi _ => ?_
  change v.iovBegin - 1 + 1 ≤ i at hi
  exact Function.update_of_ne (by omega) ..

/-- An accepted `push_back` appends its entry. -/
theorem entries_pushBack (v : Iovector) (x : Iovec) (hw : v.iovBegin ≤ v.iovEnd)
    (hr : v.iovEnd < v.capacity) : (v.pushBack x).1.entries = v.entries ++ [x] := by
  have hcnt : v.iovEnd + 1 - v.iovBegin = (v.iovEnd - v.iovBegin) + 1 := by omega
  simp only [pushBack, if_pos hr, entries, iovcnt, nth, hcnt, List.range_succ,
    List.map_append, List.map_cons, List.map_nil]
  congr 1
  · apply List.map_congr_left
    intro i hi
    rw [List.mem_range] at hi
    show Function.update v.iovs v.iovEnd x (v.iovBegin + i) = v.iovs (v.iovBegin + i)
    rw [Function.update_of_ne (by omega)]
  · rw [show v.iovBegin + (v.iovEnd - v.iovBegin) = v.iovEnd by omega, Function.update_self]

/-- A refused `push_back` leaves the vector as it is. -/
theorem pushBack_full (v : Iovector) (x : Iovec) (hr : ¬ v.iovEnd < v.capacity) :
    v.pushBack x = (v, 0) := by
  rw [pushBack, if_neg hr]

@[simp] theorem pushBackBuf_iovBegin (v : Iovector) (b l : ℕ) :
    (v.pushBackBuf b l).1.iovBegin = v.iovBegin := by
  unfold pushBackBuf pushBack
  split_ifs <;> rfl

@[simp] theorem pushBackBuf_capacity (v : Iovector) (b l : ℕ) :
    (v.pushBackBuf b l).1.capacity = iovCapacity := by
  unfold pushBackBuf pushBack
  split_ifs <;> rfl

/-- `push_back(void*, size_t)` fills the array up to 2300 entries. -/
theorem pushBackBuf_iovEnd (v : Iovector) (b l : ℕ) (h : v.iovEnd ≤ iovCapacity) :
    (v.pushBackBuf b l).1.iovEnd = min (v.iovEnd + 1) iovCapacity := by
  unfold pushBackBuf pushBack
  split_ifs with hr
  · show v.iovEnd + 1 = _
    have : v.iovEnd < iovCapacity := hr
    omega
  · show v.iovEnd = _
    have : ¬ v.iovEnd < iovCapacity := hr
    omega

theorem entries_pushBackBuf (v : Iovector) (b l : ℕ) (hw : v.iovBegin ≤ v.iovEnd)
    (hr : v.iovEnd < iovCapacity) :
    (v.pushBackBuf b l).1.entries = v.entries ++ [⟨b, l⟩] :=
  entries_pushBack { v with capacity := iovCapacity } ⟨b, l⟩ hw hr

theorem entries_pushBackBuf_full (v : Iovector) (b l : ℕ) (hr : ¬ v.iovEnd < iovCapacity) :
    (v.pushBackBuf b l).1.entries = v.entries := by
  rw [pushBackBuf, pushBack_full _ _ hr]
  rfl

/-- Copying entry by entry keeps those that fit. -/
theorem entries_foldl_pushBack (es : List Iovec) (v : Iovector) (hw : v.iovBegin ≤ v.iovEnd) :
    (es.foldl (fun t x => (t.pushBack x).1) v).entries
      = v.entries ++ es.take (v.capacity - v.iovEnd) := by
  induction es generalizing v with
  | nil => simp
  | cons x es ih =>
    rw [List.foldl_cons]
    by_cases hr : v.iovEnd < v.capacity
    · have hpush : (v.pushBack x).1 = { v with
          iovs := Function.update v.iovs v.iovEnd x, iovEnd := v.iovEnd + 1 } := by
        rw [pushBack, if_pos hr]
      rw [ih _ (by rw [hpush]; show v.iovBegin ≤ v.iovEnd + 1; omega),
        entries_pushBack v x hw hr, hpush,
        show v.capacity - v.iovEnd = (v.capacity - (v.iovEnd + 1)) + 1 by omega,
        List.take_succ_cons, List.append_assoc]
      rfl
    · rw [pushBack_full v x hr, ih v hw, show v.capacity - v.iovEnd = 0 by omega,
        List.take_zero, List.take_zero]

end Iovector

end HuiRpc
