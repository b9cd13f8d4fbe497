/-
# The sizes of the classes

The comments of the allocator say that class `c` holds buffers of `class_max_size(c)` bytes, and
its assertions check it.  But the largest class is one short of the largest buffer, so no
sequence of calls keeps it that way once a reservation has succeeded, and a size of 64 bytes or
less has whatever class `bsrl` leaves for a zero operand (`class_sizes_exact_iff`).

`get_class` itself is compared with its reference `get_class_slow` in
`getClassX86_eq_slow_iff`.
-/
import HuiRpc.AllocRuns

namespace HuiRpc

open Extents Runs

/-! ## The class of a size -/

/-- The loop of `get_class_slow`. -/
def classLoop (size : ℕ) : ℕ → ℕ → ℕ → Option ℕ
  | 0, _, _ => none
  | fuel + 1, sizeClass, classLim =>
      if classLim < size then classLoop size fuel (sizeClass + 1) (classLim * 2 % 2 ^ 64)
      else some sizeClass

/-- `get_class_slow(size)`; the limit of a class is a `size_t`. -/
def getClassSlow (size : ℕ) : Option ℕ := classLoop size 64 0 kMinClassSize

/-- The loop stops at the first class that is large enough. -/
theorem classLoop_eq {size c d fuel : ℕ} (hcd : c ≤ d) (hd : d < 58) (hfuel : d < c + fuel)
    (hle : size ≤ classMaxSize d) (hlt : ∀ e < d, classMaxSize e < size) :
    classLoop size fuel c (classMaxSize c) = some d := by
  induction fuel generalizing c with
  | zero => omega
  | succ fuel ih =>
    rw [classLoop]
    rcases Nat.eq_or_lt_of_le hcd with rfl | hc
    · rw [if_neg (not_lt.mpr hle)]
    · have hlim : classMaxSize c * 2 % 2 ^ 64 = classMaxSize (c + 1) := by
        have hpow : 2 ^ (c + 1) ≤ 2 ^ 57 := Nat.pow_le_pow_right (by omega) (by omega)
        unfold classMaxSize kMinClassSize
        rw [pow_succ] at hpow ⊢
        omega
      rw [if_pos (hlt c hc), hlim]
      exact ih hc (by omega)

/-- The class that a bit scan finds is the first one that is large enough. -/
theorem getClassSlow_eq {junk : BitVec 32} {size : ℕ} (hmin : kMinClassSize < size)
    (hle : size ≤ kMaxClassSize) : getClassSlow size = some (getClass junk size) := by
  have hmax : kMaxClassSize = 2 ^ 24 := by decide
  have hclass : getClass junk size = ((size - 1) / 64 * 2).log2 := getClass_eq hmin (by omega)
  unfold kMinClassSize at hmin
  have hx : (size - 1) / 64 * 2 ≠ 0 := by omega
  have hlt : getClass junk size < 58 := by
    rw [hclass, Nat.log2_lt hx]
    omega
  refine classLoop_eq (Nat.zero_le _) hlt (by omega) (le_classMaxSize_getClass (by omega)) ?_
  intro e he
  rw [hclass] at he
  have hpow : 2 ^ (e + 1) ≤ (size - 1) / 64 * 2 := (Nat.le_log2 hx).mp he
  unfold classMaxSize kMinClassSize
  rw [pow_succ] at hpow
  omega

/-- **The bit scan and the loop** agree exactly where `bsrl` has an operand that is not zero. -/
theorem getClassX86_eq_slow_iff (size : ℕ) (hpos : 1 ≤ size) (hle : size ≤ kMaxClassSize) :
    (∀ junk, getClassSlow size = some (getClass junk size)) ↔ kMinClassSize < size := by
  constructor
  · intro h
    by_contra hmin
    -- the operand is zero, so two results are possible
    have h0 := h 0
    rw [h 1, getClass_of_le hpos (not_lt.mp hmin), getClass_of_le hpos (not_lt.mp hmin)] at h0
    exact absurd h0 (by decide)
  · intro hmin junk
    exact getClassSlow_eq hmin hle

theorem getClassX86_eq_slow_100 :
    kMinClassSize < 100 ∧ getClassSlow 100 = some (getClass 7 100) :=
  ⟨by decide, (getClassX86_eq_slow_iff 100 (by decide) (by decide)).mpr (by decide) 7⟩

/-- A buffer of one byte, where the register held 7. -/
theorem getClassX86_ne_slow_one : getClassSlow 1 = some 0 ∧ getClass 7 1 = 7 := by
  decide +kernel

/-! ## The classes of the buffers -/

/-- Of the sizes up to `k_max_class_size`, the upper half has no class, and the smallest ones have
one only by chance. -/
theorem getClass_lt_iff {size : ℕ} (hpos : 1 ≤ size) (hle : size ≤ kMaxClassSize) :
    (∀ junk, getClass junk size < kNumClasses) ↔
      kMinClassSize < size ∧ size ≤ classMaxSize (kNumClasses - 1) := by
  have hmax : kMaxClassSize = 2 ^ 24 := by decide
  have hlast : classMaxSize (kNumClasses - 1) = 2 ^ 23 := by decide
  by_cases hmin : kMinClassSize < size
  · have hclass : ∀ junk, getClass junk size = ((size - 1) / 64 * 2).log2 :=
      fun _ => getClass_eq hmin (by omega)
    have hnz : (size - 1) / 64 * 2 ≠ 0 := by
      unfold kMinClassSize at hmin
      omega
    simp only [hclass, forall_const, hmin, true_and]
    rw [Nat.log2_lt hnz, hlast, show kNumClasses = 18 from rfl]
    omega
  · -- what the instruction leaves may be 18
    constructor
    · intro hall
      have h18 := hall 18
      rw [getClass_of_le hpos (not_lt.mp hmin)] at h18
      exact absurd h18 (by decide)
    · rintro ⟨h, -⟩
      exact absurd h hmin

/-- Every buffer in a freelist has the maximum size of its class. -/
def ClassExact (a : HugeAlloc) : Prop := Classes (fun c n => n = classMaxSize c) a

/-- A buffer that `alloc` returns has the maximum size of the class of the size. -/
def RetExact (junk : BitVec 32) : HeapAct → Option Buffer → Prop
  | .alloc size _, some b => b.buf ≠ 0 → b.classSize = classMaxSize (getClass junk size)
  | .alloc _ _, none => True
  | .freeBuf _, _ => True

namespace Heap

/-- The sequences of calls that may be made from a state; after a fault anything may. -/
def Legal (junk : BitVec 32) : Heap → List HeapAct → Prop
  | _, [] => True
  | h, act :: acts => h.guard act ∧ ∀ ret h', h.call junk act = .ok (ret, h') → Legal junk h' acts

/-- Along a sequence of calls all class sizes are exact and no call faults. -/
def Exact (junk : BitVec 32) : Heap → List HeapAct → Prop
  | h, [] => ClassExact h.alloc
  | h, act :: acts => ClassExact h.alloc ∧
      ∃ ret h', h.call junk act = .ok (ret, h') ∧ RetExact junk act ret ∧ Exact junk h' acts

/-- No buffer exists. -/
structure Bare (h : Heap) : Prop where
  classes : Classes (fun _ _ => False) h.alloc
  lent : h.lent = []

theorem Bare.classExact {h : Heap} (hb : h.Bare) : ClassExact h.alloc :=
  fun c hc b hmem => (hb.classes c hc b hmem).elim

theorem bare_start (initialSize : ℕ) : (start initialSize).Bare :=
  ⟨fun _ _ _ hb => absurd hb (by simp [start, HugeAlloc.new]), rfl⟩

variable {h h' : Heap} {size : ℕ} {raw : Raw} {ret : Option Buffer} {junk : BitVec 32}

/-- Without a reservation no buffer comes into being. -/
theorem Bare.call_of_not_mapped (hb : h.Bare) (hraw : ∀ base lkey, raw ≠ .mapped base lkey)
    (hc : h.call junk (.alloc size raw) = .ok (ret, h')) :
    (ret = none ∨ ret = some Buffer.null) ∧ h'.Bare := by
  obtain ⟨r, hr, hc⟩ := bind_eq_ok.mp hc
  obtain ⟨rfl, rfl⟩ := Prod.mk.inj (Except.ok.inj hc)
  rcases HugeAlloc.alloc_cases (fun base lkey h => absurd h (hraw base lkey)) hr with
    ⟨-, rfl⟩ | ⟨-, rfl⟩ | htaken
  · exact ⟨Or.inr rfl, hb.classes, hb.lent⟩
  · exact ⟨Or.inl rfl, hb.classes, hb.lent⟩
  · obtain ⟨a0, a1, b, h0, hsplits, htake, -⟩ := htaken
    rcases h0 with rfl | ⟨base, lkey, hm, -⟩
    · have hfalse := ((hb.classes.splits (fun _ _ h => h) hsplits).taken htake).1
      exact hfalse.elim
    · exact absurd hm (hraw base lkey)

/-- The first buffer that comes into being is twice as large as its class. -/
theorem Bare.call_of_mapped {I base : ℕ} {lkey : UInt32} (hb : h.Bare)
    (hs : Sound I h.lent h.alloc) (hg : h.guard (.alloc size (.mapped base lkey)))
    (hc : h.call junk (.alloc size (.mapped base lkey)) = .ok (ret, h')) :
    ¬ RetExact junk (.alloc size (.mapped base lkey)) ret := by
  obtain ⟨r, hr, hc⟩ := bind_eq_ok.mp hc
  obtain ⟨rfl, -⟩ := Prod.mk.inj (Except.ok.inj hc)
  rcases HugeAlloc.alloc_cases hg.2.base_ne hr with ⟨hm, -⟩ | ⟨hm, -⟩ | htaken
  · exact absurd hm (by simp)
  · exact absurd hm (by simp)
  · obtain ⟨a0, a1, b, h0, hsplits, htake, hret⟩ := htaken
    -- twice the maximum size is kept by halving
    have hhalf : ∀ c n, n = 2 * classMaxSize (c + 1) → n / 2 = 2 * classMaxSize c := by
      intro c n hn
      rw [classMaxSize_succ] at hn
      omega
    have hzero : Classes (fun c n => n = 2 * classMaxSize c) h.alloc :=
      fun c hc b hmem => (hb.classes c hc b hmem).elim
    have hdouble : Classes (fun c n => n = 2 * classMaxSize c) a0 := by
      rcases h0 with rfl | ⟨base', lkey', -, rfl⟩
      · exact hzero
      · exact hzero.reserved (by decide) base' lkey'
    obtain ⟨hnonnull, -⟩ := hs.served hg.2 h0 hsplits htake
    have hsize := ((hdouble.splits hhalf hsplits).taken htake).1
    rw [hret]
    intro hexact
    have hpos := classMaxSize_pos (getClass junk size)
    have heq := hexact hnonnull
    omega

/-- A sequence of calls from a state without buffers: every index is in range, and no buffer comes
into being. -/
theorem Bare.exact_iff {I : ℕ} {acts : List HeapAct} (hb : h.Bare) (hs : Sound I h.lent h.alloc)
    (hlegal : h.Legal junk acts) :
    h.Exact junk acts ↔ ∀ size raw, .alloc size raw ∈ acts →
      getClass junk size < kNumClasses ∧ ∀ base lkey, raw ≠ .mapped base lkey := by
  induction acts generalizing h with
  | nil => simp [Exact, hb.classExact]
  | cons act acts ih =>
    obtain ⟨hg, hrest⟩ := hlegal
    cases act with
    | freeBuf l =>
      -- there is nothing to free
      have hmem : l ∈ h.lent := hg
      rw [hb.lent] at hmem
      exact absurd hmem (by simp)
    | alloc size raw =>
      constructor
      · rintro ⟨-, ret, h', hc, hret, hexact⟩
        have hraw : ∀ base lkey, raw ≠ .mapped base lkey := by
          rintro base lkey rfl
          exact hb.call_of_mapped hs hg hc hret
        have hclass : getClass junk size < kNumClasses := by
          by_contra hge
          unfold call HugeAlloc.alloc at hc
          simp only [if_neg hge] at hc
          exact absurd hc (by simp [bind, Except.bind])
        obtain ⟨-, hb'⟩ := hb.call_of_not_mapped hraw hc
        have hlater := (ih hb' (hs.alloc hg hc) (hrest ret h' hc)).mp hexact
        intro s r hm
        rcases List.mem_cons.mp hm with heq | hm
        · obtain ⟨rfl, rfl⟩ := HeapAct.alloc.inj heq
          exact ⟨hclass, hraw⟩
        · exact hlater s r hm
      · intro hall
        obtain ⟨hclass, hraw⟩ := hall size raw List.mem_cons_self
        obtain ⟨r, hr⟩ := HugeAlloc.alloc_isOk (a := h.alloc)
          (fun base lkey hm => absurd hm (hraw base lkey)) hclass
        have hc : h.call junk (.alloc size raw) = .ok (r.1, h.keep size r.2 r.1) :=
          bind_eq_ok.mpr ⟨r, hr, rfl⟩
        obtain ⟨hret, hb'⟩ := hb.call_of_not_mapped hraw hc
        refine ⟨hb.classExact, _, _, hc, ?_, ?_⟩
        · rcases hret with hret | hret
          · rw [hret]
            trivial
          · rw [hret]
            intro hne
            exact absurd rfl hne
        · exact (ih hb' (hs.alloc hg hc) (hrest _ _ hc)).mpr
            fun s r hm => hall s r (List.mem_cons_of_mem _ hm)

end Heap

/-- **Class sizes.**  In a sequence of calls with sizes up to `k_max_class_size`, all class
sizes are exact and all indices in range, whatever `bsrl` leaves for a zero operand, if and only if
every size is more than 64 bytes and at most 8 MB and no reservation ever succeeds: with the first
buffer the sizes are wrong. -/
theorem class_sizes_exact_iff (initialSize : ℕ) (acts : List HeapAct)
    (hlegal : ∀ junk, (Heap.start initialSize).Legal junk acts)
    (hsizes : ∀ size raw, .alloc size raw ∈ acts → 1 ≤ size ∧ size ≤ kMaxClassSize) :
    (∀ junk, (Heap.start initialSize).Exact junk acts) ↔ ∀ size raw, .alloc size raw ∈ acts →
      kMinClassSize < size ∧ size ≤ classMaxSize (kNumClasses - 1) ∧
        ∀ base lkey, raw ≠ .mapped base lkey := by
  have hexact : ∀ junk, (Heap.start initialSize).Exact junk acts ↔ ∀ size raw,
      .alloc size raw ∈ acts → getClass junk size < kNumClasses ∧
        ∀ base lkey, raw ≠ .mapped base lkey :=
    fun junk => (Heap.bare_start initialSize).exact_iff (Sound.start initialSize) (hlegal junk)
  have hclass := fun size raw hm => getClass_lt_iff (hsizes size raw hm).1 (hsizes size raw hm).2
  constructor
  · intro hall size raw hm
    have hlt : ∀ junk, getClass junk size < kNumClasses :=
      fun junk => ((hexact junk).mp (hall junk) size raw hm).1
    obtain ⟨hmin, hlast⟩ := (hclass size raw hm).mp hlt
    exact ⟨hmin, hlast, ((hexact 0).mp (hall 0) size raw hm).2⟩
  · intro hall junk
    refine (hexact junk).mpr fun size raw hm => ?_
    obtain ⟨hmin, hlast, hraw⟩ := hall size raw hm
    exact ⟨(hclass size raw hm).mpr ⟨hmin, hlast⟩ junk, hraw⟩

theorem class_sizes_exact_no_memory :
    (Heap.start 0).Exact 0 [.alloc 100 .noMem, .alloc (8 * 2 ^ 20) .noMem] ∧
      (Heap.start 0).Exact 18 [.alloc 100 .noMem, .alloc (8 * 2 ^ 20) .noMem] := by
  have hall : ∀ junk, (Heap.start 0).Exact junk [.alloc 100 .noMem, .alloc (8 * 2 ^ 20) .noMem] := by
    have hmem : ∀ size raw, HeapAct.alloc size raw ∈
        [.alloc 100 .noMem, .alloc (8 * 2 ^ 20) .noMem] →
        kMinClassSize < size ∧ size ≤ classMaxSize (kNumClasses - 1) ∧ raw = .noMem := by
      intro size raw hm
      simp only [List.mem_cons, HeapAct.alloc.injEq, List.not_mem_nil, or_false] at hm
      rcases hm with ⟨rfl, rfl⟩ | ⟨rfl, rfl⟩
      · decide
      · decide
    refine (class_sizes_exact_iff 0 _ ?_ fun size raw hm => ?_).mpr fun size raw hm => ?_
    · intro junk
      exact ⟨⟨by decide, trivial⟩, fun ret h' _ => ⟨⟨by decide, trivial⟩, fun _ _ _ => trivial⟩⟩
    · obtain ⟨hmin, hmax, -⟩ := hmem size raw hm
      exact ⟨Nat.one_le_of_lt hmin, hmax.trans (by decide)⟩
    · obtain ⟨hmin, hmax, rfl⟩ := hmem size raw hm
      exact ⟨hmin, hmax, fun _ _ => Raw.noConfusion⟩
  exact ⟨hall 0, hall 18⟩

/-- After one `alloc(100)` the caller has 256 bytes of class 1, a buffer of 16 MB lies in class
17, and for more than 8 MB the index is 18. -/
theorem first_reservation_breaks_classes :
    ∃ h, Run Heap.guard (Heap.step 0) (Heap.start 0) [.alloc 100 (.mapped (2 ^ 21) 7)] h ∧
      h.lent.map (fun l => l.buffer.classSize) = [256] ∧ classMaxSize (getClass 0 100) = 128 ∧
      (h.alloc.freelist 17).map Buffer.classSize = [2 ^ 24] ∧ classMaxSize 17 = 2 ^ 23 ∧
      h.call 0 (.alloc (2 ^ 23 + 1) .noMem) = .error (.index 18) := by
  have hexec : (exec Heap.guard (Heap.step 0) (Heap.start 0)
      [.alloc 100 (.mapped (2 ^ 21) 7)]).map (fun h => (h.lent.map (fun l => l.buffer.classSize),
        (h.alloc.freelist 17).map Buffer.classSize)) = some ([256], [2 ^ 24]) := by
    decide +kernel
  obtain ⟨h, hh, heq⟩ := Option.map_eq_some_iff.mp hexec
  obtain ⟨h1, h2⟩ := Prod.mk.inj heq
  have hindex : getClass 0 (2 ^ 23 + 1) = 18 := by decide +kernel
  refine ⟨h, run_of_exec hh, h1, by decide +kernel, h2, by decide, ?_⟩
  unfold Heap.call HugeAlloc.alloc
  simp only [hindex]
  rfl

end HuiRpc
