/-
# The hugepage allocator

Model of `util/huge_alloc.h` and `huge_alloc.cc`: one freelist for each size class, memory that
is reserved from the operating system when the lists run dry, and buffers that are halved on
their way down to the class that is asked for.  The assertions are compiled out.

* A vector is a list that starts with its back.
* An access to `freelist_` may leave the array, and `back()` may be called on an empty vector:
  both are a `Fault`, after which nothing is known.
* What the operating system answers to a reservation is an argument (`Raw`), and so is what `bsrl`
  leaves for an operand of zero (`junk`).
* `cut` is not in the source.  It counts the bytes that `reserve_hugepages` cuts into buffers.

`alloc_cases` says all that a call of `alloc` can do; the other modules use it and do not
unfold `alloc`.
-/
import HuiRpc.MsgLimit
import HuiRpc.Lib.Runs

namespace HuiRpc

open Runs

/-! ## Size classes -/

/-- `k_min_class_size`. -/
def kMinClassSize : ℕ := 64

/-- `k_num_classes`. -/
def kNumClasses : ℕ := 18

/-- `class_max_size(class_i)`. -/
def classMaxSize (c : ℕ) : ℕ := kMinClassSize * 2 ^ c

/-- `msb_index(x)`: `bsrl` on the 32 bits of `x << 1`.  For an operand of zero the instruction
leaves its result unspecified; `junk` is what it leaves there.  The function's comment says 0. -/
def msbIndex (junk : BitVec 32) (x : ℕ) : ℕ :=
  if x * 2 % 2 ^ 32 = 0 then (junk.signExtend 64).toNat else (x * 2 % 2 ^ 32).log2

/-- `get_class(size)`; the shifted size is cast to `int`. -/
@[irreducible] def getClass (junk : BitVec 32) (size : ℕ) : ℕ :=
  msbIndex junk ((size + 2 ^ 64 - 1) % 2 ^ 64 / 2 ^ 6 % 2 ^ 32)

/-- `x += n` on `size_t`. -/
@[irreducible] def addSize (x n : ℕ) : ℕ := (x + n) % 2 ^ 64

/-- `x -= n` on `size_t`. -/
@[irreducible] def subSize (x n : ℕ) : ℕ := (x + 2 ^ 64 - n) % 2 ^ 64

/-- `round_up<kHugepageSize>(x)` on `size_t`. -/
def roundUpHugepage (x : ℕ) : ℕ := (x + (2 ^ 21 - 1)) % 2 ^ 64 / 2 ^ 21 * 2 ^ 21

/-! ## State -/

/-- `Buffer`. -/
structure Buffer where
  buf : ℕ
  classSize : ℕ
  lkey : UInt32
  deriving DecidableEq

/-- `Buffer(nullptr, 0, 0)`. -/
def Buffer.null : Buffer := ⟨0, 0, 0⟩

/-- `shm_region_t`. -/
structure ShmRegion where
  buf : ℕ
  size : ℕ
  registered : Bool
  deriving DecidableEq

structure HugeAlloc where
  shmList : List ShmRegion
  freelist : ℕ → List Buffer
  prevAllocationSize : ℕ
  shmReserved : ℕ
  userAllocTot : ℕ
  cut : ℕ

/-- Undefined behaviour: an index outside of `freelist_`, or `back()` of an empty vector. -/
inductive Fault
  | index (i : ℕ)
  | emptyBack (i : ℕ)
  deriving DecidableEq

/-- What `shmget` and `shmat` give: memory at `base`, registered under `lkey`; `ENOMEM`; or an
error for which `alloc_raw` throws. -/
inductive Raw
  | mapped (base : ℕ) (lkey : UInt32)
  | noMem
  | error
  deriving DecidableEq

namespace HugeAlloc

/-- The constructor. -/
def new (initialSize : ℕ) : HugeAlloc where
  shmList := []
  freelist _ := []
  prevAllocationSize := if initialSize < kMaxClassSize then kMaxClassSize else initialSize
  shmReserved := 0
  userAllocTot := 0
  cut := 0

/-! ## The functions -/

/-- `freelist_[i] = l`. -/
def setList (a : HugeAlloc) (i : ℕ) (l : List Buffer) : HugeAlloc :=
  { a with freelist := Function.update a.freelist i l }

/-- `stats_.user_alloc_tot_ = x`. -/
def setTot (a : HugeAlloc) (x : ℕ) : HugeAlloc := { a with userAllocTot := x }

/-- `freelist_[i].push_back(b)`. -/
def pushBack (a : HugeAlloc) (i : ℕ) (b : Buffer) : Except Fault HugeAlloc :=
  if i < kNumClasses then .ok (a.setList i (b :: a.freelist i)) else .error (.index i)

/-- `freelist_[i].back()`, and `freelist_[i].pop_back()`. -/
def popBack (a : HugeAlloc) (i : ℕ) : Except Fault (Buffer × HugeAlloc) :=
  if i < kNumClasses then
    match a.freelist i with
    | [] => .error (.emptyBack i)
    | b :: l => .ok (b, a.setList i l)
  else .error (.index i)

/-- `alloc_raw(size, do_register)`; no buffer is an exception. -/
def allocRaw (a : HugeAlloc) (size : ℕ) (doRegister : Bool) (raw : Raw) :
    Option Buffer × HugeAlloc :=
  match raw with
  | .mapped base lkey =>
      (some ⟨base, 2 ^ 64 - 1, if doRegister then lkey else .ofNat (2 ^ 32 - 1)⟩,
        { a with
          shmList := a.shmList ++ [⟨base, roundUpHugepage size, doRegister⟩]
          shmReserved := addSize a.shmReserved (roundUpHugepage size) })
  | .noMem => (some Buffer.null, a)
  | .error => (none, a)

/-- The loop of `reserve_hugepages`: `n` buffers of the largest size from `base` on. -/
def addBuffers (a : HugeAlloc) (base : ℕ) (lkey : UInt32) : ℕ → Except Fault HugeAlloc
  | 0 => .ok a
  | n + 1 => do
      let a ← a.addBuffers base lkey n
      a.pushBack (kNumClasses - 1) ⟨base + n * kMaxClassSize, kMaxClassSize, lkey⟩

/-- `reserve_hugepages(size)`; no result is an exception. -/
def reserveHugepages (a : HugeAlloc) (size : ℕ) (raw : Raw) :
    Except Fault (Option Bool × HugeAlloc) :=
  match a.allocRaw size true raw with
  | (none, a) => .ok (none, a)
  | (some buffer, a) =>
      if buffer.buf = 0 then .ok (some false, a)
      else do
        let a ← a.addBuffers buffer.buf buffer.lkey (size / kMaxClassSize)
        .ok (some true, { a with cut := a.cut + size / kMaxClassSize * kMaxClassSize })

/-- `split(size_class)`. -/
def split (a : HugeAlloc) (c : ℕ) : Except Fault HugeAlloc := do
  let (b, a) ← a.popBack c
  let a ← a.pushBack (c - 1) ⟨b.buf, b.classSize / 2, b.lkey⟩
  a.pushBack (c - 1) ⟨b.buf + b.classSize / 2, b.classSize / 2, b.lkey⟩

/-- The loop that splits from class `c + k` down to class `c`. -/
def splitDown (a : HugeAlloc) (c : ℕ) : ℕ → Except Fault HugeAlloc
  | 0 => .ok a
  | k + 1 => do
      let a ← a.split (c + (k + 1))
      a.splitDown c k

/-- `alloc_from_class(size_class)`. -/
def allocFromClass (a : HugeAlloc) (c : ℕ) : Except Fault (Buffer × HugeAlloc) := do
  let (b, a) ← a.popBack c
  .ok (b, a.setTot (addSize a.userAllocTot b.classSize))

/-- The loop that looks for a class with free buffers, with `n` classes still to look at. -/
def nextClass (a : HugeAlloc) : ℕ → ℕ
  | 0 => kNumClasses
  | n + 1 =>
      if a.freelist (kNumClasses - (n + 1)) ≠ [] then kNumClasses - (n + 1) else a.nextClass n

/-- The end of `alloc`: split from `next` down to `c`, and take a buffer of `c`. -/
def splitAlloc (a : HugeAlloc) (c next : ℕ) : Except Fault (Option Buffer × HugeAlloc) := do
  let a ← a.splitDown c (next - c)
  let (b, a) ← a.allocFromClass c
  .ok (some b, a)

/-- `prev_allocation_size_ *= 2`. -/
def doubled (a : HugeAlloc) : ℕ := a.prevAllocationSize * 2 % 2 ^ 64

/-- `alloc(size)`; no buffer is an exception. -/
def alloc (a : HugeAlloc) (junk : BitVec 32) (size : ℕ) (raw : Raw) :
    Except Fault (Option Buffer × HugeAlloc) :=
  if getClass junk size < kNumClasses then
    if a.freelist (getClass junk size) ≠ [] then do
      let (b, a) ← a.allocFromClass (getClass junk size)
      .ok (some b, a)
    else if a.nextClass (kNumClasses - (getClass junk size + 1)) = kNumClasses then do
      match ← reserveHugepages { a with prevAllocationSize := a.doubled } a.doubled raw with
      | (none, a) => .ok (none, a)
      | (some false, a) =>
          .ok (some Buffer.null, { a with prevAllocationSize := a.prevAllocationSize / 2 })
      | (some true, a) => a.splitAlloc (getClass junk size) (kNumClasses - 1)
    else a.splitAlloc (getClass junk size) (a.nextClass (kNumClasses - (getClass junk size + 1)))
  else .error (.index (getClass junk size))

/-- `free_buf(buffer)`. -/
def freeBuf (a : HugeAlloc) (junk : BitVec 32) (b : Buffer) : Except Fault HugeAlloc := do
  let a ← a.pushBack (getClass junk b.classSize) b
  .ok (a.setTot (subSize a.userAllocTot b.classSize))

/-! ## What a call can do -/

variable {a a' a₀ a₁ : HugeAlloc} {b : Buffer} {c i k size : ℕ} {raw : Raw} {junk : BitVec 32}

theorem pushBack_eq_ok :
    a.pushBack i b = .ok a' ↔ i < kNumClasses ∧ a' = a.setList i (b :: a.freelist i) := by
  unfold pushBack
  by_cases hi : i < kNumClasses
  · simp [hi, eq_comm]
  · simp [hi]

theorem popBack_eq_ok :
    a.popBack i = .ok (b, a') ↔
      i < kNumClasses ∧ ∃ l, a.freelist i = b :: l ∧ a' = a.setList i l := by
  unfold popBack
  by_cases hi : i < kNumClasses
  · rw [if_pos hi]
    cases hl : a.freelist i with
    | nil => simp
    | cons x l =>
      constructor
      · intro h
        obtain ⟨rfl, rfl⟩ := Prod.mk.inj (Except.ok.inj h)
        exact ⟨hi, l, rfl, rfl⟩
      · rintro ⟨-, l', hl', rfl⟩
        obtain ⟨rfl, rfl⟩ := List.cons.inj hl'
        rfl
  · simp [hi]

/-- The halves of a buffer. -/
def lower (b : Buffer) : Buffer := ⟨b.buf, b.classSize / 2, b.lkey⟩

def upper (b : Buffer) : Buffer := ⟨b.buf + b.classSize / 2, b.classSize / 2, b.lkey⟩

theorem setList_setList (a : HugeAlloc) (i : ℕ) (l l' : List Buffer) :
    (a.setList i l).setList i l' = a.setList i l' := by
  unfold setList
  simp only [Function.update_idem]

theorem freelist_setList_self (a : HugeAlloc) (i : ℕ) (l : List Buffer) :
    (a.setList i l).freelist i = l := Function.update_self ..

theorem freelist_setList_of_ne (a : HugeAlloc) {i j : ℕ} (h : j ≠ i) (l : List Buffer) :
    (a.setList i l).freelist j = a.freelist j := Function.update_of_ne h ..

/-- **`split`** takes the back of one class and puts its halves into the class below. -/
theorem split_eq_ok :
    a.split (c + 1) = .ok a' ↔ c + 1 < kNumClasses ∧ ∃ b l, a.freelist (c + 1) = b :: l ∧
      a' = (a.setList (c + 1) l).setList c (upper b :: lower b :: a.freelist c) := by
  constructor
  · intro h
    obtain ⟨⟨b, a1⟩, hpop, h⟩ := bind_eq_ok.mp h
    obtain ⟨a2, hpush, h⟩ := bind_eq_ok.mp h
    obtain ⟨hc, l, hl, rfl⟩ := popBack_eq_ok.mp hpop
    obtain ⟨-, rfl⟩ := pushBack_eq_ok.mp hpush
    obtain ⟨-, rfl⟩ := pushBack_eq_ok.mp h
    refine ⟨hc, b, l, hl, ?_⟩
    rw [Nat.add_sub_cancel, setList_setList, freelist_setList_self,
      freelist_setList_of_ne _ (Nat.ne_of_lt (Nat.lt_succ_self c))]
    rfl
  · rintro ⟨hc, b, l, hl, rfl⟩
    refine bind_eq_ok.mpr ⟨_, popBack_eq_ok.mpr ⟨hc, l, hl, rfl⟩, ?_⟩
    refine bind_eq_ok.mpr ⟨_, pushBack_eq_ok.mpr ⟨Nat.lt_of_succ_lt hc, rfl⟩, ?_⟩
    refine pushBack_eq_ok.mpr ⟨Nat.lt_of_succ_lt hc, ?_⟩
    rw [Nat.add_sub_cancel, setList_setList, freelist_setList_self,
      freelist_setList_of_ne _ (Nat.ne_of_lt (Nat.lt_succ_self c))]
    rfl

theorem allocFromClass_eq_ok :
    a.allocFromClass c = .ok (b, a') ↔ c < kNumClasses ∧ ∃ l, a.freelist c = b :: l ∧
      a' = (a.setList c l).setTot (addSize a.userAllocTot b.classSize) := by
  constructor
  · intro h
    obtain ⟨⟨x, a1⟩, hpop, h⟩ := bind_eq_ok.mp h
    obtain ⟨hc, l, hl, rfl⟩ := popBack_eq_ok.mp hpop
    obtain ⟨rfl, rfl⟩ := Prod.mk.inj (Except.ok.inj h)
    exact ⟨hc, l, hl, rfl⟩
  · rintro ⟨hc, l, hl, rfl⟩
    exact bind_eq_ok.mpr ⟨_, popBack_eq_ok.mpr ⟨hc, l, hl, rfl⟩, rfl⟩

theorem freeBuf_eq_ok :
    a.freeBuf junk b = .ok a' ↔ getClass junk b.classSize < kNumClasses ∧
      a' = (a.setList (getClass junk b.classSize)
        (b :: a.freelist (getClass junk b.classSize))).setTot
          (subSize a.userAllocTot b.classSize) := by
  unfold freeBuf
  constructor
  · intro h
    obtain ⟨a1, hpush, h⟩ := bind_eq_ok.mp h
    obtain ⟨hc, rfl⟩ := pushBack_eq_ok.mp hpush
    exact ⟨hc, (Except.ok.inj h).symm⟩
  · rintro ⟨hc, rfl⟩
    exact bind_eq_ok.mpr ⟨_, pushBack_eq_ok.mpr ⟨hc, rfl⟩, rfl⟩

/-- The buffers that a reservation adds. -/
def newBuffers (base : ℕ) (lkey : UInt32) (n : ℕ) : List Buffer :=
  (List.range n).map fun i => ⟨base + i * kMaxClassSize, kMaxClassSize, lkey⟩

/-- The allocator after a reservation at `base`. -/
def reserved (a : HugeAlloc) (base : ℕ) (lkey : UInt32) : HugeAlloc :=
  { a.setList (kNumClasses - 1) ((newBuffers base lkey (a.doubled / kMaxClassSize)).reverse
      ++ a.freelist (kNumClasses - 1)) with
    shmList := a.shmList ++ [⟨base, roundUpHugepage a.doubled, true⟩]
    shmReserved := addSize a.shmReserved (roundUpHugepage a.doubled)
    prevAllocationSize := a.doubled
    cut := a.cut + a.doubled / kMaxClassSize * kMaxClassSize }

theorem addBuffers_eq (a : HugeAlloc) (base : ℕ) (lkey : UInt32) (n : ℕ) :
    a.addBuffers base lkey n = .ok (a.setList (kNumClasses - 1)
      ((newBuffers base lkey n).reverse ++ a.freelist (kNumClasses - 1))) := by
  induction n with
  | zero =>
    have h : a.setList (kNumClasses - 1) (a.freelist (kNumClasses - 1)) = a := by
      unfold setList
      rw [Function.update_eq_self]
    exact congrArg Except.ok h.symm
  | succ n ih =>
    refine bind_eq_ok.mpr ⟨_, ih, pushBack_eq_ok.mpr ⟨by decide, ?_⟩⟩
    rw [setList_setList, freelist_setList_self, newBuffers, List.range_succ, List.map_append,
      List.reverse_append]
    rfl

theorem reserveHugepages_mapped (a : HugeAlloc) {base : ℕ} (hbase : base ≠ 0) (lkey : UInt32) :
    reserveHugepages { a with prevAllocationSize := a.doubled } a.doubled (.mapped base lkey)
      = .ok (some true, a.reserved base lkey) := by
  unfold reserveHugepages allocRaw reserved
  simp only [if_neg hbase, addBuffers_eq]
  rfl

theorem freelist_reserved (a : HugeAlloc) (base : ℕ) (lkey : UInt32) :
    (a.reserved base lkey).freelist = Function.update a.freelist (kNumClasses - 1)
      ((newBuffers base lkey (a.doubled / kMaxClassSize)).reverse
        ++ a.freelist (kNumClasses - 1)) := rfl

/-- A reservation of the largest class size or more brings a buffer. -/
theorem freelist_reserved_ne_nil (base : ℕ) (lkey : UInt32)
    (hprev : kMaxClassSize ≤ a.doubled) :
    (a.reserved base lkey).freelist (kNumClasses - 1) ≠ [] := by
  have hn : 0 < a.doubled / kMaxClassSize :=
    Nat.div_pos hprev (by decide)
  rw [freelist_reserved, Function.update_self]
  intro h
  have hlen := congrArg List.length h
  rw [List.length_append, List.length_reverse, newBuffers, List.length_map, List.length_range,
    List.length_nil] at hlen
  omega

theorem reserveHugepages_noMem (a : HugeAlloc) (size : ℕ) :
    a.reserveHugepages size .noMem = .ok (some false, a) := rfl

theorem reserveHugepages_error (a : HugeAlloc) (size : ℕ) :
    a.reserveHugepages size .error = .ok (none, a) := rfl

/-- `a'` comes from `a` by calls of `split`. -/
inductive Splits : HugeAlloc → HugeAlloc → Prop
  | refl (a : HugeAlloc) : Splits a a
  | step {a a₁ a' : HugeAlloc} {c : ℕ} (hs : a.split (c + 1) = .ok a₁) (h : Splits a₁ a') :
      Splits a a'

theorem splitDown_splits (h : a.splitDown c k = .ok a') : Splits a a' := by
  induction k generalizing a with
  | zero => exact Except.ok.inj h ▸ Splits.refl a
  | succ k ih =>
    obtain ⟨a1, hs, h⟩ := bind_eq_ok.mp h
    exact Splits.step hs (ih h)

/-- The loop never finds an empty class on its way: each split fills the next one. -/
theorem splitDown_isOk (hlt : c + k < kNumClasses) (hne : a.freelist (c + k) ≠ []) :
    ∃ a', a.splitDown c k = .ok a' ∧ a'.freelist c ≠ [] := by
  induction k generalizing a with
  | zero => exact ⟨a, rfl, hne⟩
  | succ k ih =>
    obtain ⟨b, l, hl⟩ := List.exists_cons_of_ne_nil hne
    have hs : a.split (c + (k + 1)) = .ok _ := split_eq_ok.mpr ⟨hlt, b, l, hl, rfl⟩
    obtain ⟨a', hrun, hne'⟩ := ih (a := (a.setList (c + k + 1) l).setList (c + k)
      (upper b :: lower b :: a.freelist (c + k))) (by omega)
      (by rw [freelist_setList_self]; exact List.cons_ne_nil _ _)
    exact ⟨a', bind_eq_ok.mpr ⟨_, hs, hrun⟩, hne'⟩

theorem splitAlloc_eq_ok {r : Option Buffer × HugeAlloc} (h : a.splitAlloc c k = .ok r) :
    ∃ a₁ b, Splits a a₁ ∧ a₁.allocFromClass c = .ok (b, r.2) ∧ r.1 = some b := by
  obtain ⟨a1, hs, h⟩ := bind_eq_ok.mp h
  obtain ⟨⟨b, a2⟩, ht, h⟩ := bind_eq_ok.mp h
  rw [← Except.ok.inj h]
  exact ⟨a1, b, splitDown_splits hs, ht, rfl⟩

theorem splitAlloc_isOk (hc : c ≤ k) (hlt : k < kNumClasses) (hne : a.freelist k ≠ []) :
    ∃ b a', a.splitAlloc c k = .ok (some b, a') := by
  obtain ⟨a1, hs, hne1⟩ := splitDown_isOk (a := a) (c := c) (k := k - c) (by omega)
    (by rwa [Nat.add_sub_cancel' hc])
  obtain ⟨b, l, hl⟩ := List.exists_cons_of_ne_nil hne1
  have ht : a1.allocFromClass c = .ok _ := allocFromClass_eq_ok.mpr ⟨by omega, l, hl, rfl⟩
  exact ⟨b, _, bind_eq_ok.mpr ⟨_, hs, bind_eq_ok.mpr ⟨_, ht, rfl⟩⟩⟩

theorem nextClass_spec (a : HugeAlloc) {n : ℕ} (hn : n ≤ kNumClasses) :
    a.nextClass n = kNumClasses ∨
      (kNumClasses - n ≤ a.nextClass n ∧ a.nextClass n < kNumClasses ∧
        a.freelist (a.nextClass n) ≠ []) := by
  induction n with
  | zero => exact Or.inl rfl
  | succ n ih =>
    rw [nextClass]
    split_ifs with hne
    · right
      exact ⟨le_rfl, by omega, hne⟩
    · rcases ih (by omega) with h | ⟨h1, h2, h3⟩
      · exact Or.inl h
      · exact Or.inr ⟨by omega, h2, h3⟩

/-- **All that a call of `alloc` can do** when it stays defined: fail to reserve, throw, or
split buffers (after a reservation if need be) and take one of the class asked for. -/
theorem alloc_cases (hbase : ∀ base lkey, raw = .mapped base lkey → base ≠ 0)
    {r : Option Buffer × HugeAlloc} (h : a.alloc junk size raw = .ok r) :
    (raw = .noMem ∧ r = (some Buffer.null, { a with prevAllocationSize := a.doubled / 2 })) ∨
      (raw = .error ∧ r = (none, { a with prevAllocationSize := a.doubled })) ∨
      ∃ a₀ a₁ b, (a₀ = a ∨ ∃ base lkey, raw = .mapped base lkey ∧ a₀ = a.reserved base lkey) ∧
        Splits a₀ a₁ ∧ a₁.allocFromClass (getClass junk size) = .ok (b, r.2) ∧ r.1 = some b := by
  unfold alloc at h
  by_cases hc : getClass junk size < kNumClasses
  · rw [if_pos hc] at h
    by_cases hne : a.freelist (getClass junk size) ≠ []
    · rw [if_pos hne] at h
      obtain ⟨⟨b, a1⟩, ht, h⟩ := bind_eq_ok.mp h
      rw [← Except.ok.inj h]
      exact Or.inr (Or.inr ⟨a, a, b, Or.inl rfl, Splits.refl a, ht, rfl⟩)
    · rw [if_neg hne] at h
      by_cases hnext : a.nextClass (kNumClasses - (getClass junk size + 1)) = kNumClasses
      · rw [if_pos hnext] at h
        obtain ⟨⟨ret, a1⟩, hres, h⟩ := bind_eq_ok.mp h
        cases raw with
        | mapped base lkey =>
          rw [reserveHugepages_mapped a (hbase base lkey rfl) lkey] at hres
          obtain ⟨rfl, rfl⟩ := Prod.mk.inj (Except.ok.inj hres)
          obtain ⟨a2, b, hs, ht, hr⟩ := splitAlloc_eq_ok h
          exact Or.inr (Or.inr ⟨_, a2, b, Or.inr ⟨base, lkey, rfl, rfl⟩, hs, ht, hr⟩)
        | noMem =>
          exact Or.inl ⟨rfl, (Except.ok.inj h).symm⟩
        | error =>
          exact Or.inr (Or.inl ⟨rfl, (Except.ok.inj h).symm⟩)
      · rw [if_neg hnext] at h
        obtain ⟨a1, b, hs, ht, hr⟩ := splitAlloc_eq_ok h
        exact Or.inr (Or.inr ⟨a, a1, b, Or.inl rfl, hs, ht, hr⟩)
  · rw [if_neg hc] at h
    exact absurd h (by simp)

/-- **`alloc` is defined** when the class of the size is in range and a reservation that
succeeds brings at least one buffer. -/
theorem alloc_isOk (hbase : ∀ base lkey, raw = .mapped base lkey → base ≠ 0 ∧
      kMaxClassSize ≤ a.doubled)
    (hc : getClass junk size < kNumClasses) : ∃ r, a.alloc junk size raw = .ok r := by
  unfold alloc
  rw [if_pos hc]
  by_cases hne : a.freelist (getClass junk size) ≠ []
  · rw [if_pos hne]
    obtain ⟨b, l, hl⟩ := List.exists_cons_of_ne_nil hne
    have ht : a.allocFromClass (getClass junk size) = .ok _ :=
      allocFromClass_eq_ok.mpr ⟨hc, l, hl, rfl⟩
    exact ⟨_, bind_eq_ok.mpr ⟨_, ht, rfl⟩⟩
  · rw [if_neg hne]
    by_cases hnext : a.nextClass (kNumClasses - (getClass junk size + 1)) = kNumClasses
    · rw [if_pos hnext]
      cases raw with
      | mapped base lkey =>
        obtain ⟨hb, hprev⟩ := hbase base lkey rfl
        have hlast : getClass junk size ≤ kNumClasses - 1 := Nat.le_sub_one_of_lt hc
        obtain ⟨b, a', hrun⟩ := splitAlloc_isOk hlast (by decide)
          (freelist_reserved_ne_nil base lkey hprev)
        exact ⟨_, bind_eq_ok.mpr ⟨_, reserveHugepages_mapped a hb lkey, hrun⟩⟩
      | noMem => exact ⟨_, bind_eq_ok.mpr ⟨_, reserveHugepages_noMem _ _, rfl⟩⟩
      | error => exact ⟨_, bind_eq_ok.mpr ⟨_, reserveHugepages_error _ _, rfl⟩⟩
    · rw [if_neg hnext]
      rcases nextClass_spec a (Nat.sub_le kNumClasses (getClass junk size + 1)) with
        h | ⟨h1, h2, h3⟩
      · exact absurd h hnext
      · have hle : getClass junk size ≤ a.nextClass (kNumClasses - (getClass junk size + 1)) := by
          omega
        obtain ⟨b, a', hrun⟩ := splitAlloc_isOk hle h2 h3
        exact ⟨_, hrun⟩

end HugeAlloc

end HuiRpc
