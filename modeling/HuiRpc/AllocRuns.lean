/-
# Runs of the hugepage allocator

A run is any sequence of `alloc` and `free_buf` calls, with any answer of the operating system
to each reservation.  `Heap` is the allocator with the buffers that are in the hands of callers.

* The buffers lent out and the free ones together tile the reserved regions (`Tiles`); splitting
  halves a tile, a reservation adds tiles, and `alloc` and `free_buf` only move them.
* `Classes S` : every buffer in a freelist has a size that `S` allows for its class.
* `Sound` : the invariant, with one lemma for each thing a call can do.

The largest buffers are 16 MB and lie in class 17, whose maximum size is 8 MB.  So a buffer of
class `c` has the maximum size of the class or twice that (`Roomy`).
-/
import HuiRpc.HugeAlloc
import HuiRpc.Lib.Extents
import HuiRpc.Lib.Runs

namespace HuiRpc

open Extents Runs

/-! ## Classes and sizes -/

theorem classMaxSize_succ (c : ℕ) : classMaxSize (c + 1) = 2 * classMaxSize c := by
  unfold classMaxSize
  ring

theorem classMaxSize_pos (c : ℕ) : 0 < classMaxSize c := by
  unfold classMaxSize kMinClassSize
  positivity

/-- Where `bsrl` gives 0 for a zero operand, which is the case of class 0. -/
theorem getClass_classMaxSize {c : ℕ} (h : c ≤ kNumClasses) : getClass 0 (classMaxSize c) = c := by
  have hall : ∀ d : Fin 19, getClass 0 (classMaxSize d) = d := by decide +kernel
  exact hall ⟨c, Nat.lt_succ_of_le h⟩

/-- A size that survives the cast to `int` and leaves something to scan. -/
theorem getClass_eq {junk : BitVec 32} {size : ℕ} (hmin : kMinClassSize < size)
    (hle : size ≤ 2 ^ 37) : getClass junk size = ((size - 1) / 64 * 2).log2 := by
  unfold kMinClassSize at hmin
  have hx : (size + 2 ^ 64 - 1) % 2 ^ 64 / 2 ^ 6 % 2 ^ 32 * 2 % 2 ^ 32 = (size - 1) / 64 * 2 := by
    omega
  unfold getClass msbIndex
  rw [hx, if_neg (by omega)]

/-- The sizes that scan a zero. -/
theorem getClass_of_le {junk : BitVec 32} {size : ℕ} (hpos : 1 ≤ size)
    (hle : size ≤ kMinClassSize) : getClass junk size = (junk.signExtend 64).toNat := by
  unfold kMinClassSize at hle
  unfold getClass msbIndex
  rw [if_pos (by omega)]

/-- Whatever `bsrl` leaves for a zero operand: the smallest sizes fit in every class. -/
theorem le_classMaxSize_getClass {junk : BitVec 32} {size : ℕ} (hle : size ≤ 2 ^ 37) :
    size ≤ classMaxSize (getClass junk size) := by
  rcases Nat.lt_or_ge kMinClassSize size with hmin | hmin
  · rw [getClass_eq hmin hle]
    unfold classMaxSize kMinClassSize
    have hlog := @Nat.lt_log2_self ((size - 1) / 64 * 2)
    rw [pow_succ] at hlog
    generalize 2 ^ ((size - 1) / 64 * 2).log2 = p at hlog ⊢
    omega
  · exact le_trans hmin (Nat.le_mul_of_pos_right _ (by positivity))

/-- The sizes of the buffers in a class. -/
def Roomy (c n : ℕ) : Prop := n = classMaxSize c ∨ n = 2 * classMaxSize c

theorem Roomy.half {c n : ℕ} (h : Roomy (c + 1) n) : Roomy c (n / 2) := by
  unfold Roomy at h ⊢
  rw [classMaxSize_succ] at h
  omega

theorem Roomy.even {c n : ℕ} (h : Roomy (c + 1) n) : n / 2 + n / 2 = n := by
  unfold Roomy at h
  rw [classMaxSize_succ] at h
  omega

theorem Roomy.classMaxSize_le {c n : ℕ} (h : Roomy c n) : classMaxSize c ≤ n := by
  unfold Roomy at h
  omega

theorem Roomy.le_kMaxClassSize {c n : ℕ} (hc : c < kNumClasses) (h : Roomy c n) :
    n ≤ kMaxClassSize := by
  have hmono : classMaxSize c ≤ classMaxSize 17 := by
    exact Nat.mul_le_mul_left _ (Nat.pow_le_pow_right (by decide) (Nat.le_of_lt_succ hc))
  have hlast : 2 * classMaxSize 17 = kMaxClassSize := by decide
  unfold Roomy at h
  omega

/-- Every free buffer has a size that `S` allows for its class. -/
def Classes (S : ℕ → ℕ → Prop) (a : HugeAlloc) : Prop :=
  ∀ c < kNumClasses, ∀ b ∈ a.freelist c, S c b.classSize

namespace Classes

variable {S : ℕ → ℕ → Prop} {a a' : HugeAlloc} {c : ℕ} {b : Buffer}

/-- Only the freelists matter. -/
theorem of_freelist (h : Classes S a) (hf : a'.freelist = a.freelist) : Classes S a' := by
  unfold Classes
  rw [hf]
  exact h

/-- One list changes. -/
theorem setList (h : Classes S a) {l : List Buffer} (hl : ∀ b ∈ l, S c b.classSize) :
    Classes S (a.setList c l) := by
  intro d hd b hb
  by_cases hdc : d = c
  · subst hdc
    rw [HugeAlloc.freelist_setList_self] at hb
    exact hl b hb
  · rw [HugeAlloc.freelist_setList_of_ne a hdc] at hb
    exact h d hd b hb

theorem split (hS : ∀ c n, S (c + 1) n → S c (n / 2)) (h : Classes S a)
    (hs : a.split (c + 1) = .ok a') : Classes S a' := by
  obtain ⟨hc, b, l, hl, rfl⟩ := HugeAlloc.split_eq_ok.mp hs
  have hmem : ∀ x ∈ b :: l, S (c + 1) x.classSize := by
    rw [← hl]
    exact h (c + 1) hc
  have hhalf := hS c _ (hmem b List.mem_cons_self)
  refine (h.setList fun x hx => hmem x (List.mem_cons_of_mem _ hx)).setList ?_
  intro x hx
  rcases List.mem_cons.mp hx with rfl | hx
  · exact hhalf
  · rcases List.mem_cons.mp hx with rfl | hx
    · exact hhalf
    · exact h c (Nat.lt_of_succ_lt hc) x hx

theorem splits (hS : ∀ c n, S (c + 1) n → S c (n / 2)) (h : Classes S a)
    (hs : HugeAlloc.Splits a a') : Classes S a' := by
  induction hs with
  | refl a => exact h
  | step hs _ ih => exact ih (h.split hS hs)

theorem reserved (hlast : S (kNumClasses - 1) kMaxClassSize) (h : Classes S a) (base : ℕ)
    (lkey : UInt32) : Classes S (a.reserved base lkey) := by
  refine (setList h ?_).of_freelist (a.freelist_reserved base lkey)
  intro x hx
  rcases List.mem_append.mp hx with hx | hx
  · obtain ⟨i, -, rfl⟩ := List.mem_map.mp (List.mem_reverse.mp hx)
    exact hlast
  · exact h _ (by decide) x hx

/-- What is taken from a class, and what stays. -/
theorem taken (h : Classes S a) (ht : a.allocFromClass c = .ok (b, a')) :
    S c b.classSize ∧ Classes S a' := by
  obtain ⟨hc, l, hl, rfl⟩ := HugeAlloc.allocFromClass_eq_ok.mp ht
  have hmem : ∀ x ∈ b :: l, S c x.classSize := by
    rw [← hl]
    exact h c hc
  have hrest := h.setList fun x hx => hmem x (List.mem_cons_of_mem _ hx)
  exact ⟨hmem b List.mem_cons_self, hrest.of_freelist rfl⟩

end Classes

/-! ## The buffers as tiles -/

def Buffer.extent (b : Buffer) : Extent := ⟨b.buf, b.classSize⟩

def ShmRegion.extent (r : ShmRegion) : Extent := ⟨r.buf, r.size⟩

namespace HugeAlloc

variable {a a' : HugeAlloc} {b : Buffer} {c i : ℕ}

/-- All free buffers. -/
@[irreducible] def free (a : HugeAlloc) : List Buffer := (List.range kNumClasses).flatMap a.freelist

/-- The reserved regions. -/
def regions (a : HugeAlloc) : List Extent := a.shmList.map ShmRegion.extent

/-- Only the freelists matter. -/
theorem free_congr (h : a'.freelist = a.freelist) : a'.free = a.free := by
  unfold free
  rw [h]

theorem free_push (hi : i < kNumClasses) (b : Buffer) :
    (a.setList i (b :: a.freelist i)).free.Perm (b :: a.free) := by
  unfold free
  exact perm_flatMap_update hi b

theorem free_pop {l : List Buffer} (hi : i < kNumClasses) (hl : a.freelist i = b :: l) :
    a.free.Perm (b :: (a.setList i l).free) := by
  have hback : a.freelist
      = Function.update (a.setList i l).freelist i (b :: (a.setList i l).freelist i) := by
    funext j
    by_cases hj : j = i
    · subst hj
      rw [Function.update_self, freelist_setList_self, hl]
    · rw [Function.update_of_ne hj, freelist_setList_of_ne a hj]
  have h := perm_flatMap_update (f := (a.setList i l).freelist) hi b
  rw [← hback] at h
  unfold free
  exact h

/-- A split replaces one free buffer by its halves. -/
theorem free_split (hs : a.split (c + 1) = .ok a') :
    ∃ b rest, b ∈ a.freelist (c + 1) ∧ a.free.Perm (b :: rest) ∧
      a'.free.Perm (upper b :: lower b :: rest) := by
  obtain ⟨hc, b, l, hl, rfl⟩ := split_eq_ok.mp hs
  have hc' : c < kNumClasses := Nat.lt_of_succ_lt hc
  refine ⟨b, (a.setList (c + 1) l).free, by rw [hl]; exact List.mem_cons_self,
    free_pop hc hl, ?_⟩
  have hlist : (a.setList (c + 1) l).freelist c = a.freelist c :=
    freelist_setList_of_ne a (Nat.ne_of_lt (Nat.lt_succ_self c)) l
  -- the two halves are pushed one after the other
  have h1 := free_push (a := a.setList (c + 1) l) hc' (lower b)
  have h2 := free_push (a := (a.setList (c + 1) l).setList c
    (lower b :: (a.setList (c + 1) l).freelist c)) hc' (upper b)
  rw [setList_setList, freelist_setList_self, hlist] at h2
  rw [hlist] at h1
  exact h2.trans (h1.cons _)

/-- A reservation adds its pieces. -/
theorem free_setList_new (base : ℕ) (lkey : UInt32) (n : ℕ) :
    (a.setList (kNumClasses - 1)
      ((newBuffers base lkey n).reverse ++ a.freelist (kNumClasses - 1))).free.Perm
        (newBuffers base lkey n ++ a.free) := by
  induction n with
  | zero =>
    have h : a.setList (kNumClasses - 1) (a.freelist (kNumClasses - 1)) = a := by
      unfold setList
      rw [Function.update_eq_self]
    show (a.setList (kNumClasses - 1) (a.freelist (kNumClasses - 1))).free.Perm a.free
    rw [h]
  | succ n ih =>
    have hpush := free_push (a := a.setList (kNumClasses - 1)
      ((newBuffers base lkey n).reverse ++ a.freelist (kNumClasses - 1))) (i := kNumClasses - 1)
      (by decide) ⟨base + n * kMaxClassSize, kMaxClassSize, lkey⟩
    rw [setList_setList] at hpush
    have hnew : newBuffers base lkey (n + 1)
        = newBuffers base lkey n ++ [⟨base + n * kMaxClassSize, kMaxClassSize, lkey⟩] := by
      unfold newBuffers
      rw [List.range_succ, List.map_append]
      rfl
    rw [hnew, List.reverse_append, List.append_assoc, List.append_assoc]
    refine hpush.trans ((ih.cons _).trans ?_)
    exact List.perm_middle.symm

theorem free_reserved (a : HugeAlloc) (base : ℕ) (lkey : UInt32) :
    (a.reserved base lkey).free.Perm
      (newBuffers base lkey (a.doubled / kMaxClassSize) ++ a.free) := by
  have h : (a.reserved base lkey).free = (a.setList (kNumClasses - 1)
      ((newBuffers base lkey (a.doubled / kMaxClassSize)).reverse
        ++ a.freelist (kNumClasses - 1))).free := free_congr (a.freelist_reserved base lkey)
  rw [h]
  exact free_setList_new base lkey _

theorem extent_newBuffers (base : ℕ) (lkey : UInt32) (n : ℕ) :
    (newBuffers base lkey n).map Buffer.extent = pieces base kMaxClassSize n := by
  unfold newBuffers pieces
  rw [List.map_map]
  rfl

end HugeAlloc

/-! ## The allocator and its callers -/

/-- A buffer in the hands of a caller, with the size that was asked for. -/
structure Lent where
  buffer : Buffer
  asked : ℕ
  deriving DecidableEq

structure Heap where
  alloc : HugeAlloc
  lent : List Lent

/-- A call, and the answer of the operating system should it reserve. -/
inductive HeapAct
  | alloc (size : ℕ) (raw : Raw)
  | freeBuf (l : Lent)
  deriving DecidableEq

/-- Memory that a reservation maps is new: not null, in the lower half of the address space,
and apart from every region that the allocator has. -/
def Raw.Fresh (a : HugeAlloc) : Raw → Prop
  | .mapped base _ => 0 < base ∧ 0 < roundUpHugepage a.doubled ∧
      base + roundUpHugepage a.doubled ≤ 2 ^ 63 ∧
      ∀ r ∈ a.regions, r.Apart ⟨base, roundUpHugepage a.doubled⟩
  | .noMem => True
  | .error => True

instance (a : HugeAlloc) : (raw : Raw) → Decidable (raw.Fresh a)
  | .mapped base _ => inferInstanceAs (Decidable (0 < base ∧ 0 < roundUpHugepage a.doubled ∧
      base + roundUpHugepage a.doubled ≤ 2 ^ 63 ∧
      ∀ r ∈ a.regions, r.Apart ⟨base, roundUpHugepage a.doubled⟩))
  | .noMem => inferInstanceAs (Decidable True)
  | .error => inferInstanceAs (Decidable True)

namespace Heap

def start (initialSize : ℕ) : Heap := ⟨HugeAlloc.new initialSize, []⟩

/-- The callers free what they hold, and pass a `size_t`. -/
def guard (h : Heap) : HeapAct → Prop
  | .alloc size raw => size < 2 ^ 64 ∧ raw.Fresh h.alloc
  | .freeBuf l => l ∈ h.lent

instance (h : Heap) : (act : HeapAct) → Decidable (h.guard act)
  | .alloc size raw => inferInstanceAs (Decidable (size < 2 ^ 64 ∧ raw.Fresh h.alloc))
  | .freeBuf l => inferInstanceAs (Decidable (l ∈ h.lent))

/-- A caller keeps the buffer it gets, unless it is null. -/
def keep (h : Heap) (size : ℕ) (a : HugeAlloc) : Option Buffer → Heap
  | none => ⟨a, h.lent⟩
  | some b => if b.buf = 0 then ⟨a, h.lent⟩ else ⟨a, ⟨b, size⟩ :: h.lent⟩

/-- A call: what it returns, and the state after it. -/
def call (junk : BitVec 32) (h : Heap) : HeapAct → Except Fault (Option Buffer × Heap)
  | .alloc size raw => do
      let r ← h.alloc.alloc junk size raw
      .ok (r.1, h.keep size r.2 r.1)
  | .freeBuf l => do
      let a ← h.alloc.freeBuf junk l.buffer
      .ok (none, ⟨a, h.lent.erase l⟩)

def step (junk : BitVec 32) (h : Heap) (act : HeapAct) : Option Heap :=
  match h.call junk act with
  | .ok r => some r.2
  | .error _ => none

end Heap

/-! ## The invariant -/

/-- The extents of all buffers, those lent out first. -/
def stock (lent : List Lent) (a : HugeAlloc) : List Extent :=
  (lent.map Lent.buffer ++ a.free).map Buffer.extent

/-- The bytes lent out. -/
def lentBytes (lent : List Lent) : ℕ := total (lent.map fun l => l.buffer.extent)

theorem total_stock (lent : List Lent) (a : HugeAlloc) :
    total (stock lent a) = lentBytes lent + total (a.free.map Buffer.extent) := by
  unfold stock lentBytes
  rw [List.map_append, total_append, List.map_map]
  rfl

theorem stock_perm_cons (lent : List Lent) {a : HugeAlloc} {b : Buffer} {rest : List Buffer}
    (h : a.free.Perm (b :: rest)) :
    (stock lent a).Perm (b.extent :: (lent.map Lent.buffer ++ rest).map Buffer.extent) :=
  ((h.append_left _).trans List.perm_middle).map Buffer.extent

theorem stock_congr (lent : List Lent) {a a' : HugeAlloc} (h : a'.freelist = a.freelist) :
    stock lent a' = stock lent a := by
  unfold stock
  rw [HugeAlloc.free_congr h]

theorem stock_setTot (lent : List Lent) (a : HugeAlloc) (x : ℕ) :
    stock lent (a.setTot x) = stock lent a := stock_congr lent rfl

/-- `I` is the first value of `prev_allocation_size_`. -/
structure Sound (I : ℕ) (lent : List Lent) (a : HugeAlloc) : Prop where
  tiles : Tiles a.regions (stock lent a)
  mapped : ∀ r ∈ a.regions, 0 < r.start ∧ r.start + r.len ≤ 2 ^ 63
  bytes : total (stock lent a) = a.cut
  user : a.userAllocTot = lentBytes lent
  classes : Classes Roomy a
  lentRoomy : ∀ l ∈ lent, ∃ c < kNumClasses, Roomy c l.buffer.classSize
  asked : ∀ l ∈ lent, l.asked ≤ l.buffer.classSize ↔ l.asked ≤ 2 ^ 37
  doubled : ∃ t, a.doubled = I * 2 ^ (t + 1) % 2 ^ 64

theorem HugeAlloc.doubled_lt (a : HugeAlloc) : a.doubled < 2 ^ 64 := Nat.mod_lt _ (by decide)

theorem le_roundUpHugepage {x : ℕ} (hx : x < 2 ^ 64) (hpos : 0 < roundUpHugepage x) :
    x ≤ roundUpHugepage x := by
  unfold roundUpHugepage at hpos ⊢
  omega

/-- A size that starts between 16 MB and 1 TB and is doubled again and again is 16 MB or more
as long as it is not zero, also when it wraps. -/
theorem kMaxClassSize_le_of_pos {I t : ℕ} (hlo : kMaxClassSize ≤ I) (hhi : I ≤ 2 ^ 40)
    (hpos : 0 < I * 2 ^ (t + 1) % 2 ^ 64) : kMaxClassSize ≤ I * 2 ^ (t + 1) % 2 ^ 64 := by
  by_cases hlt : I * 2 ^ (t + 1) < 2 ^ 64
  · rw [Nat.mod_eq_of_lt hlt]
    exact le_trans hlo (Nat.le_mul_of_pos_right _ (by positivity))
  · -- a product that wraps has a factor of 2 ^ 24
    have ht : 24 ≤ t + 1 := by
      by_contra hsmall
      have hp : 2 ^ (t + 1) ≤ 2 ^ 23 := Nat.pow_le_pow_right (by decide) (by omega)
      have hprod : I * 2 ^ (t + 1) ≤ 2 ^ 40 * 2 ^ 23 := Nat.mul_le_mul hhi hp
      omega
    have hdvd : 2 ^ 24 ∣ I * 2 ^ (t + 1) := Dvd.dvd.mul_left (pow_dvd_pow 2 ht) I
    have hmod : 2 ^ 24 ∣ I * 2 ^ (t + 1) % 2 ^ 64 :=
      (Nat.dvd_mod_iff (pow_dvd_pow 2 (by decide))).mpr hdvd
    exact Nat.le_of_dvd hpos hmod

namespace Sound

variable {I size : ℕ} {lent : List Lent} {a a' : HugeAlloc} {b : Buffer} {c : ℕ} {junk : BitVec 32}

theorem stock_new (initialSize : ℕ) : stock [] (HugeAlloc.new initialSize) = [] := by
  unfold stock HugeAlloc.free
  simp [HugeAlloc.new]

theorem start (initialSize : ℕ) :
    Sound (HugeAlloc.new initialSize).prevAllocationSize [] (HugeAlloc.new initialSize) where
  tiles := by
    rw [stock_new]
    exact Tiles.nil _
  mapped r hr := absurd hr (by simp [HugeAlloc.regions, HugeAlloc.new])
  bytes := by
    rw [stock_new]
    rfl
  user := rfl
  classes c _ b hb := absurd hb (by simp [HugeAlloc.new])
  lentRoomy l hl := absurd hl (by simp)
  asked l hl := absurd hl (by simp)
  doubled := ⟨0, by rw [HugeAlloc.doubled, pow_one]⟩

theorem doubled_succ (h : Sound I lent a) :
    ∃ t, a.doubled * 2 % 2 ^ 64 = I * 2 ^ (t + 1) % 2 ^ 64 := by
  obtain ⟨t, ht⟩ := h.doubled
  refine ⟨t + 1, ?_⟩
  rw [ht, pow_succ 2 (t + 1), ← Nat.mul_assoc]
  exact (Nat.mod_modEq _ _).mul_right 2

/-- Only `prev_allocation_size_` changes. -/
theorem setPrev (h : Sound I lent a) {prev : ℕ}
    (hprev : ∃ t, prev * 2 % 2 ^ 64 = I * 2 ^ (t + 1) % 2 ^ 64) :
    Sound I lent { a with prevAllocationSize := prev } := by
  have hstock : stock lent { a with prevAllocationSize := prev } = stock lent a :=
    stock_congr lent rfl
  refine ⟨?_, h.mapped, ?_, h.user, h.classes.of_freelist rfl, h.lentRoomy, h.asked, hprev⟩
  · rw [hstock]
    exact h.tiles
  · rw [hstock]
    exact h.bytes

/-- A failed reservation halves the doubled size again, an exception leaves it behind. -/
theorem noMem (h : Sound I lent a) :
    Sound I lent { a with prevAllocationSize := a.doubled / 2 } := by
  obtain ⟨t, ht⟩ := h.doubled
  refine h.setPrev ⟨t, ?_⟩
  rw [← ht]
  unfold HugeAlloc.doubled
  omega

theorem error (h : Sound I lent a) : Sound I lent { a with prevAllocationSize := a.doubled } :=
  h.setPrev h.doubled_succ

/-- **Reservation.** -/
theorem reserved (h : Sound I lent a) {base : ℕ} {lkey : UInt32}
    (hfresh : (Raw.mapped base lkey).Fresh a) : Sound I lent (a.reserved base lkey) := by
  obtain ⟨hbase, hpos, hend, hapart⟩ := hfresh
  have hlen : a.doubled / kMaxClassSize * kMaxClassSize ≤ roundUpHugepage a.doubled :=
    le_trans (Nat.div_mul_le_self _ _) (le_roundUpHugepage a.doubled_lt hpos)
  have hregions : (a.reserved base lkey).regions
      = a.regions ++ [⟨base, roundUpHugepage a.doubled⟩] := by
    show (a.shmList ++ [_]).map ShmRegion.extent = _
    rw [List.map_append]
    rfl
  have hstock : (stock lent (a.reserved base lkey)).Perm
      (pieces base kMaxClassSize (a.doubled / kMaxClassSize) ++ stock lent a) := by
    unfold stock
    rw [← HugeAlloc.extent_newBuffers base lkey, ← List.map_append]
    refine (((a.free_reserved base lkey).append_left _).trans ?_).map _
    rw [← List.append_assoc, ← List.append_assoc]
    exact List.perm_append_comm.append_right _
  refine ⟨?_, ?_, ?_, h.user, h.classes.reserved (Or.inr (by decide)) base lkey, h.lentRoomy,
    h.asked, h.doubled_succ⟩
  · rw [hregions]
    exact (h.tiles.extend (tiles_pieces rfl hlen) hapart).perm hstock.symm
  · rw [hregions]
    intro r hr
    rcases List.mem_append.mp hr with hr | hr
    · exact h.mapped r hr
    · rw [List.mem_singleton.mp hr]
      exact ⟨hbase, hend⟩
  · rw [total_perm hstock, total_append, total_pieces, h.bytes, Nat.add_comm]
    rfl

/-- **Splitting.** -/
theorem split (h : Sound I lent a) (hs : a.split (c + 1) = .ok a') : Sound I lent a' := by
  obtain ⟨b, rest, hb, hfree, hfree'⟩ := HugeAlloc.free_split hs
  have hclasses := h.classes.split (fun _ _ => Roomy.half) hs
  obtain ⟨hc, b', l, hl, rfl⟩ := HugeAlloc.split_eq_ok.mp hs
  have heven := (h.classes (c + 1) hc b hb).even
  have hold := stock_perm_cons lent hfree
  -- the lower half goes first in the tiling, the upper one in the freelist
  have hnew := (stock_perm_cons lent hfree').trans
    ((List.perm_middle.map Buffer.extent).cons _)
  have hswap := hnew.trans (List.Perm.swap _ _ _)
  refine ⟨?_, h.mapped, ?_, h.user, hclasses, h.lentRoomy, h.asked, h.doubled⟩
  · exact (h.tiles.perm hold).halve.perm hswap.symm
  · have hb' := h.bytes
    rw [total_perm hold, total_cons] at hb'
    rw [total_perm hnew]
    simp only [List.map_cons, total_cons]
    show b.classSize / 2 + (b.classSize / 2 + _) = a.cut
    have hlen : b.extent.len = b.classSize := rfl
    omega

theorem splits (h : Sound I lent a) (hs : HugeAlloc.Splits a a') : Sound I lent a' := by
  induction hs with
  | refl a => exact h
  | step hs _ ih => exact ih (h.split hs)

/-- A free buffer is not null. -/
theorem buf_pos (h : Sound I lent a) {e : Extent} (he : e ∈ stock lent a) : 0 < e.start := by
  obtain ⟨r, hr, hin⟩ := h.tiles.inside e he
  exact lt_of_lt_of_le (h.mapped r hr).1 hin.1

/-- What is lent out fits in the address space. -/
theorem lentBytes_le (h : Sound I lent a) : lentBytes lent ≤ 2 ^ 63 := by
  have hle := h.tiles.total_le fun r hr => (h.mapped r hr).2
  rw [total_stock] at hle
  omega

/-- **Taking** a buffer of the class of the size. -/
theorem take (h : Sound I lent a) (ht : a.allocFromClass (getClass junk size) = .ok (b, a')) :
    b.buf ≠ 0 ∧ Sound I (⟨b, size⟩ :: lent) a' := by
  obtain ⟨hroomy, hclasses⟩ := h.classes.taken ht
  obtain ⟨hc, l, hl, rfl⟩ := HugeAlloc.allocFromClass_eq_ok.mp ht
  have hperm : (stock lent a).Perm (stock (⟨b, size⟩ :: lent)
      ((a.setList (getClass junk size) l).setTot (addSize a.userAllocTot b.classSize))) := by
    rw [stock_setTot]
    exact stock_perm_cons lent (HugeAlloc.free_pop hc hl)
  have hpos : 0 < b.buf := h.buf_pos (hperm.mem_iff.mpr List.mem_cons_self)
  have htiles := h.tiles.perm hperm
  refine ⟨Nat.ne_of_gt hpos, htiles, h.mapped, ?_, ?_, hclasses, ?_, ?_, h.doubled⟩
  · rw [← total_perm hperm]
    exact h.bytes
  · have hle := htiles.total_le fun r hr => (h.mapped r hr).2
    rw [total_stock] at hle
    have hcons : lentBytes (⟨b, size⟩ :: lent) = b.classSize + lentBytes lent := by
      rfl
    show addSize a.userAllocTot b.classSize = _
    rw [h.user, addSize]
    omega
  · intro x hx
    rcases List.mem_cons.mp hx with rfl | hx
    · exact ⟨_, hc, hroomy⟩
    · exact h.lentRoomy x hx
  · intro x hx
    rcases List.mem_cons.mp hx with rfl | hx
    · -- a buffer holds at most 16 MB, so it serves exactly the sizes that are not cut off
      have hmin := hroomy.classMaxSize_le
      have hmax := hroomy.le_kMaxClassSize hc
      have h16 : kMaxClassSize = 2 ^ 24 := by decide
      constructor
      · intro hle
        have hle' : size ≤ b.classSize := hle
        show size ≤ 2 ^ 37
        omega
      · intro hle
        exact le_trans (le_classMaxSize_getClass hle) hmin
    · exact h.asked x hx

/-- **Giving back** a buffer to a class that takes its size. -/
theorem putBack (h : Sound I lent a) {l : Lent} (hl : l ∈ lent) (hc : c < kNumClasses)
    (hroomy : Roomy c l.buffer.classSize) :
    Sound I (lent.erase l) ((a.setList c (l.buffer :: a.freelist c)).setTot
      (subSize a.userAllocTot l.buffer.classSize)) := by
  have hlent : lent.Perm (l :: lent.erase l) := List.perm_cons_erase hl
  have hperm : (stock lent a).Perm (stock (lent.erase l)
      ((a.setList c (l.buffer :: a.freelist c)).setTot
        (subSize a.userAllocTot l.buffer.classSize))) := by
    have hlentFree : (stock lent a).Perm
        (l.buffer.extent :: ((lent.erase l).map Lent.buffer ++ a.free).map Buffer.extent) :=
      ((hlent.map Lent.buffer).append_right a.free).map Buffer.extent
    have hfree : (a.setList c (l.buffer :: a.freelist c)).free.Perm (l.buffer :: a.free) :=
      HugeAlloc.free_push hc l.buffer
    rw [stock_setTot]
    exact hlentFree.trans (stock_perm_cons _ hfree).symm
  have hmem : ∀ x ∈ lent.erase l, x ∈ lent := fun x hx => List.mem_of_mem_erase hx
  have hlist : ∀ x ∈ l.buffer :: a.freelist c, Roomy c x.classSize := by
    intro x hx
    rcases List.mem_cons.mp hx with rfl | hx
    · exact hroomy
    · exact h.classes c hc x hx
  refine ⟨h.tiles.perm hperm, h.mapped, ?_, ?_, (h.classes.setList hlist).of_freelist rfl,
    fun x hx => h.lentRoomy x (hmem x hx), fun x hx => h.asked x (hmem x hx), h.doubled⟩
  · rw [← total_perm hperm]
    exact h.bytes
  · have hsum : lentBytes lent = l.buffer.classSize + lentBytes (lent.erase l) := by
      unfold lentBytes
      rw [total_perm (hlent.map _), List.map_cons]
      rfl
    have hle := h.lentBytes_le
    show subSize a.userAllocTot l.buffer.classSize = _
    rw [h.user, subSize]
    omega

/-- A buffer that is freed has the maximum size of the class it goes to.  The class of 64 bytes is
what `bsrl` leaves for a zero operand. -/
theorem freeBuf (h : Sound I lent a) {l : Lent} (hl : l ∈ lent)
    (hf : a.freeBuf 0 l.buffer = .ok a') : Sound I (lent.erase l) a' := by
  obtain ⟨hc, rfl⟩ := HugeAlloc.freeBuf_eq_ok.mp hf
  refine h.putBack hl hc ?_
  obtain ⟨d, hd, heq | heq⟩ := h.lentRoomy l hl
  · rw [heq, getClass_classMaxSize (Nat.le_of_lt hd)]
    exact Or.inl rfl
  · rw [← classMaxSize_succ] at heq
    rw [heq, getClass_classMaxSize hd]
    exact Or.inl rfl

end Sound

/-! ## Calls and runs -/

theorem Raw.Fresh.base_ne {a : HugeAlloc} {raw : Raw} (h : raw.Fresh a) (base : ℕ) (lkey : UInt32)
    (hraw : raw = .mapped base lkey) : base ≠ 0 := by
  subst hraw
  exact Nat.ne_of_gt h.1

/-- What a call that gets as far as taking a buffer leaves. -/
theorem Sound.served {I size : ℕ} {lent : List Lent} {a a₀ a₁ a' : HugeAlloc} {raw : Raw}
    {b : Buffer} {junk : BitVec 32} (h : Sound I lent a) (hfresh : raw.Fresh a)
    (h0 : a₀ = a ∨ ∃ base lkey, raw = .mapped base lkey ∧ a₀ = a.reserved base lkey)
    (hsplits : HugeAlloc.Splits a₀ a₁)
    (ht : a₁.allocFromClass (getClass junk size) = .ok (b, a')) :
    b.buf ≠ 0 ∧ Sound I (⟨b, size⟩ :: lent) a' := by
  have hs0 : Sound I lent a₀ := by
    rcases h0 with rfl | ⟨base, lkey, rfl, rfl⟩
    · exact h
    · exact h.reserved hfresh
  exact (hs0.splits hsplits).take ht

/-- **A call of `alloc`** keeps the invariant. -/
theorem Sound.alloc {I size : ℕ} {h h' : Heap} {raw : Raw} {ret : Option Buffer}
    {junk : BitVec 32} (hs : Sound I h.lent h.alloc) (hg : h.guard (.alloc size raw))
    (hc : h.call junk (.alloc size raw) = .ok (ret, h')) : Sound I h'.lent h'.alloc := by
  obtain ⟨r, hr, hc⟩ := bind_eq_ok.mp hc
  obtain ⟨-, rfl⟩ := Prod.mk.inj (Except.ok.inj hc)
  rcases HugeAlloc.alloc_cases hg.2.base_ne hr with ⟨-, rfl⟩ | ⟨-, rfl⟩ | htaken
  · exact hs.noMem
  · exact hs.error
  · obtain ⟨a0, a1, b, h0, hsplits, htake, hret⟩ := htaken
    obtain ⟨hne, hs'⟩ := hs.served hg.2 h0 hsplits htake
    rw [hret]
    unfold Heap.keep
    simp only [if_neg hne]
    exact hs'

/-- **One call** keeps the invariant. -/
theorem Sound.call {I : ℕ} {h h' : Heap} {act : HeapAct} {ret : Option Buffer}
    (hs : Sound I h.lent h.alloc) (hg : h.guard act) (hc : h.call 0 act = .ok (ret, h')) :
    Sound I h'.lent h'.alloc := by
  cases act with
  | alloc size raw => exact hs.alloc hg hc
  | freeBuf l =>
    obtain ⟨a, hf, hc⟩ := bind_eq_ok.mp hc
    obtain ⟨-, rfl⟩ := Prod.mk.inj (Except.ok.inj hc)
    exact hs.freeBuf hg hf

theorem Heap.step_eq_some {junk : BitVec 32} {h h' : Heap} {act : HeapAct}
    (hs : h.step junk act = some h') : ∃ ret, h.call junk act = .ok (ret, h') := by
  unfold Heap.step at hs
  cases hc : h.call junk act with
  | error e =>
    rw [hc] at hs
    exact absurd hs (by simp)
  | ok r =>
    rw [hc] at hs
    rw [← Option.some.inj hs]
    exact ⟨r.1, rfl⟩

/-- **A whole run** keeps the invariant. -/
theorem Sound.run {initialSize : ℕ} {acts : List HeapAct} {h : Heap}
    (hrun : Run Heap.guard (Heap.step 0) (Heap.start initialSize) acts h) :
    Sound (HugeAlloc.new initialSize).prevAllocationSize h.lent h.alloc := by
  refine hrun.invariant (P := fun h => Sound _ h.lent h.alloc) (Sound.start initialSize) ?_
  intro s act s' hs hg hstep
  obtain ⟨ret, hc⟩ := Heap.step_eq_some hstep
  exact hs.call hg hc

/-- What callers rely on in a state of the allocator. -/
structure HeapOk (junk : BitVec 32) (h : Heap) : Prop where
  lentApart : (h.lent.map fun l => l.buffer.extent).Pairwise Extent.Apart
  freeApart : ∀ l ∈ h.lent, ∀ b ∈ h.alloc.free, l.buffer.extent.Apart b.extent
  inside : ∀ l ∈ h.lent, ∃ r ∈ h.alloc.regions, l.buffer.extent.Inside r
  asked : ∀ l ∈ h.lent, l.asked ≤ l.buffer.classSize
  bytes : lentBytes h.lent + total (h.alloc.free.map Buffer.extent) = h.alloc.cut
  user : h.alloc.userAllocTot = lentBytes h.lent
  /-- A null buffer comes with unchanged freelists and statistics. -/
  null : ∀ size raw b h', h.guard (.alloc size raw) →
    h.call junk (.alloc size raw) = .ok (some b, h') → b.buf = 0 →
      h'.lent = h.lent ∧ h'.alloc.freelist = h.alloc.freelist ∧
      h'.alloc.shmReserved = h.alloc.shmReserved ∧ h'.alloc.userAllocTot = h.alloc.userAllocTot
  /-- A call returns or throws, unless it leaves the array of freelists. -/
  defined : ∀ act, h.guard act → (∃ r, h.call junk act = .ok r) ∨
    ∃ i, kNumClasses ≤ i ∧ h.call junk act = .error (.index i)

namespace Sound

variable {I : ℕ} {h h' : Heap} {junk : BitVec 32}

theorem lent_mem {l : Lent} (hl : l ∈ h.lent) : l.buffer.extent ∈ stock h.lent h.alloc :=
  List.mem_map_of_mem (List.mem_append_left _ (List.mem_map_of_mem hl))

/-- A null buffer is the answer to a failed reservation only. -/
theorem call_null (hs : Sound I h.lent h.alloc) {size : ℕ} {raw : Raw} {b : Buffer}
    (hg : h.guard (.alloc size raw)) (hc : h.call junk (.alloc size raw) = .ok (some b, h'))
    (hb : b.buf = 0) :
    h' = ⟨{ h.alloc with prevAllocationSize := h.alloc.doubled / 2 }, h.lent⟩ := by
  obtain ⟨r, hr, hc⟩ := bind_eq_ok.mp hc
  obtain ⟨hret, rfl⟩ := Prod.mk.inj (Except.ok.inj hc)
  rcases HugeAlloc.alloc_cases hg.2.base_ne hr with ⟨-, rfl⟩ | ⟨-, rfl⟩ | htaken
  · rfl
  · exact absurd hret (by simp)
  · obtain ⟨a0, a1, x, h0, hsplits, htake, hx⟩ := htaken
    obtain ⟨hne, -⟩ := hs.served hg.2 h0 hsplits htake
    rw [hx] at hret
    rw [← Option.some.inj hret] at hb
    exact absurd hb hne

/-- A call faults only by its class. -/
theorem call_defined (hs : Sound I h.lent h.alloc) (hlo : kMaxClassSize ≤ I) (hhi : I ≤ 2 ^ 40)
    (act : HeapAct) (hg : h.guard act) : (∃ r, h.call junk act = .ok r) ∨
      ∃ i, kNumClasses ≤ i ∧ h.call junk act = .error (.index i) := by
  cases act with
  | alloc size raw =>
    by_cases hc : getClass junk size < kNumClasses
    · left
      have hbase : ∀ base lkey, raw = .mapped base lkey → base ≠ 0 ∧
          kMaxClassSize ≤ h.alloc.doubled := by
        intro base lkey hraw
        refine ⟨hg.2.base_ne base lkey hraw, ?_⟩
        obtain ⟨t, ht⟩ := hs.doubled
        subst hraw
        have hpos := hg.2.2.1
        rw [ht]
        refine kMaxClassSize_le_of_pos hlo hhi (Nat.pos_of_ne_zero fun hz => ?_)
        rw [ht, hz] at hpos
        exact absurd hpos (by decide)
      obtain ⟨r, hr⟩ := HugeAlloc.alloc_isOk hbase hc
      exact ⟨_, bind_eq_ok.mpr ⟨r, hr, rfl⟩⟩
    · right
      refine ⟨getClass junk size, Nat.le_of_not_lt hc, ?_⟩
      unfold Heap.call HugeAlloc.alloc
      simp only [if_neg hc]
      rfl
  | freeBuf l =>
    by_cases hc : getClass junk l.buffer.classSize < kNumClasses
    · left
      exact ⟨_, bind_eq_ok.mpr
        ⟨_, HugeAlloc.freeBuf_eq_ok.mpr ⟨hc, rfl⟩, rfl⟩⟩
    · right
      refine ⟨getClass junk l.buffer.classSize, Nat.le_of_not_lt hc, ?_⟩
      unfold Heap.call HugeAlloc.freeBuf HugeAlloc.pushBack
      simp only [if_neg hc]
      rfl

end Sound

theorem HugeAlloc.new_prevAllocationSize {initialSize : ℕ} (h : initialSize ≤ 2 ^ 40) :
    kMaxClassSize ≤ (HugeAlloc.new initialSize).prevAllocationSize ∧
      (HugeAlloc.new initialSize).prevAllocationSize ≤ 2 ^ 40 := by
  have hmax : kMaxClassSize ≤ 2 ^ 40 := by decide
  unfold HugeAlloc.new
  simp only
  split_ifs
  · omega
  · omega

/-- **The books of the allocator.**  In every state of every run, buffers do not overlap, lie in
reserved regions, are all accounted for, and every call does what is said of it, exactly when
no live buffer was asked for with a size that `get_class` cuts off.  `hbsrl` is what the comment of
`msb_index` says: `bsrl` gives 0 for a zero operand. -/
theorem heap_ok_iff {junk : BitVec 32} (hbsrl : junk = 0) {initialSize : ℕ}
    (hinit : initialSize ≤ 2 ^ 40) {acts : List HeapAct} {h : Heap}
    (hrun : Run Heap.guard (Heap.step junk) (Heap.start initialSize) acts h) :
    HeapOk junk h ↔ ∀ l ∈ h.lent, l.asked ≤ 2 ^ 37 := by
  subst hbsrl
  have hs := Sound.run hrun
  obtain ⟨hlo, hhi⟩ := HugeAlloc.new_prevAllocationSize hinit
  constructor
  · intro hok l hl
    exact (hs.asked l hl).mp (hok.asked l hl)
  · intro hsizes
    have happ := hs.tiles.apart
    unfold stock at happ
    rw [List.map_append, List.pairwise_append, List.map_map] at happ
    obtain ⟨hlent, -, hcross⟩ := happ
    refine ⟨hlent, ?_, ?_, ?_, ?_, hs.user, ?_, hs.call_defined hlo hhi⟩
    · intro l hl b hb
      exact hcross _ (List.mem_map_of_mem hl) _ (List.mem_map_of_mem hb)
    · intro l hl
      exact hs.tiles.inside _ (Sound.lent_mem hl)
    · intro l hl
      exact (hs.asked l hl).mpr (hsizes l hl)
    · rw [← total_stock]
      exact hs.bytes
    · intro size raw b h' hg hc hb
      rw [hs.call_null hg hc hb]
      exact ⟨rfl, rfl, rfl, rfl⟩

/-- Two buffers are taken from a fresh reservation, one is given back. -/
def someCalls : List HeapAct :=
  [.alloc 100 (.mapped (2 ^ 21) 7), .alloc (5 * 2 ^ 20) .noMem,
    .freeBuf ⟨⟨2 ^ 21 + 33554176, 256, 7⟩, 100⟩]

theorem heap_ok_someCalls :
    ∃ h, Run Heap.guard (Heap.step 0) (Heap.start 0) someCalls h ∧
      (h.lent.map Lent.asked = [5 * 2 ^ 20]) ∧ HeapOk 0 h := by
  have hexec : (exec Heap.guard (Heap.step 0) (Heap.start 0) someCalls).map
      (fun h => h.lent.map Lent.asked) = some [5 * 2 ^ 20] := by decide +kernel
  obtain ⟨h, hh, hlent⟩ := Option.map_eq_some_iff.mp hexec
  have hrun := run_of_exec hh
  refine ⟨h, hrun, hlent, (heap_ok_iff rfl (by decide) hrun).mpr ?_⟩
  intro l hl
  have hmem : l.asked ∈ h.lent.map Lent.asked := List.mem_map_of_mem hl
  rw [hlent, List.mem_singleton] at hmem
  rw [hmem]
  decide

/-- A size of more than 128 GB loses its high bits in the cast to `int`: the caller gets 256
bytes. -/
theorem huge_size_gets_small_buffer :
    ∃ h, Run Heap.guard (Heap.step 0) (Heap.start 0)
        [.alloc (2 ^ 37 + 65) (.mapped (2 ^ 21) 7)] h ∧
      h.lent.map (fun l => (l.buffer.classSize, l.asked)) = [(256, 2 ^ 37 + 65)] := by
  have hexec : (exec Heap.guard (Heap.step 0) (Heap.start 0)
      [.alloc (2 ^ 37 + 65) (.mapped (2 ^ 21) 7)]).map
        (fun h => h.lent.map fun l => (l.buffer.classSize, l.asked))
      = some [(256, 2 ^ 37 + 65)] := by decide +kernel
  obtain ⟨h, hh, hlent⟩ := Option.map_eq_some_iff.mp hexec
  exact ⟨h, run_of_exec hh, hlent⟩

end HuiRpc
