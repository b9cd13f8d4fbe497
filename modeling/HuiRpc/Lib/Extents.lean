/-
# Extents of an address space

An extent is a run of addresses.  `Tiles R es` says that the extents `es` do not overlap and
that each of them lies inside one of the extents `R`.  This is what an allocator keeps of the
memory it has handed out and of the memory it still has, taken together.

* `Tiles.perm` — the order of the extents does not matter, so memory may change hands;
* `Tiles.halve` — an extent may be replaced by its two halves;
* `Tiles.extend` — a new extent away from `R` may be cut up and added;
* `Tiles.total_le` — the lengths add up to no more than the address space;
* `perm_flatMap_update` — lists kept in several places, of which one gets a new element.
-/
import Mathlib
import HuiRpc.Lib.Runs

namespace Extents

/-- `len` addresses from `start` on. -/
structure Extent where
  start : ℕ
  len : ℕ
  deriving DecidableEq, Repr

namespace Extent

/-- Two extents that do not overlap. -/
def Apart (e f : Extent) : Prop := e.start + e.len ≤ f.start ∨ f.start + f.len ≤ e.start

instance (e f : Extent) : Decidable (e.Apart f) := by
  unfold Apart
  infer_instance

theorem Apart.symm {e f : Extent} (h : e.Apart f) : f.Apart e := Or.symm h

/-- `e` lies inside `f`. -/
def Inside (e f : Extent) : Prop := f.start ≤ e.start ∧ e.start + e.len ≤ f.start + f.len

theorem Inside.trans {e f g : Extent} (h : e.Inside f) (h' : f.Inside g) : e.Inside g :=
  ⟨le_trans h'.1 h.1, le_trans h.2 h'.2⟩

/-- Parts of extents that do not overlap. -/
theorem Apart.mono {e f e' f' : Extent} (h : e.Apart f) (he : e'.Inside e) (hf : f'.Inside f) :
    e'.Apart f' := by
  obtain ⟨he1, he2⟩ := he
  obtain ⟨hf1, hf2⟩ := hf
  rcases h with h | h
  · left
    omega
  · right
    omega

/-- The two halves of an extent. -/
def lower (e : Extent) : Extent := ⟨e.start, e.len / 2⟩

def upper (e : Extent) : Extent := ⟨e.start + e.len / 2, e.len / 2⟩

theorem lower_inside (e : Extent) : e.lower.Inside e :=
  ⟨le_rfl, show e.start + e.len / 2 ≤ e.start + e.len by omega⟩

theorem upper_inside (e : Extent) : e.upper.Inside e :=
  ⟨show e.start ≤ e.start + e.len / 2 by omega,
    show e.start + e.len / 2 + e.len / 2 ≤ e.start + e.len by omega⟩

/-- The halves do not overlap. -/
theorem lower_apart_upper (e : Extent) : e.lower.Apart e.upper := Or.inl le_rfl

/-- The addresses of an extent. -/
def cells (e : Extent) : Finset ℕ := Finset.Ico e.start (e.start + e.len)

/-- As many addresses as `len` says. -/
theorem card_cells (e : Extent) : e.cells.card = e.len := by
  rw [cells, Nat.card_Ico, Nat.add_sub_cancel_left]

theorem Apart.disjoint {e f : Extent} (h : e.Apart f) : Disjoint e.cells f.cells := by
  rw [Finset.disjoint_left]
  intro a he hf
  rw [cells, Finset.mem_Ico] at he hf
  rcases h with h | h
  · omega
  · omega

end Extent

open Extent

/-! ## Total length -/

/-- The number of addresses, overlaps counted twice. -/
def total (es : List Extent) : ℕ := (es.map len).sum

@[simp] theorem total_nil : total [] = 0 := rfl

@[simp] theorem total_cons (e : Extent) (es : List Extent) : total (e :: es) = e.len + total es := by
  simp [total]

@[simp] theorem total_append (es fs : List Extent) : total (es ++ fs) = total es + total fs := by
  simp [total]

/-- The order does not matter. -/
theorem total_perm {es fs : List Extent} (h : es.Perm fs) : total es = total fs :=
  (h.map len).sum_eq

/-- Extents that do not overlap, counted by their addresses. -/
theorem card_cells_of_pairwise {es : List Extent} (h : es.Pairwise Apart) :
    ((es.map cells).foldr (· ∪ ·) ∅).card = total es := by
  induction es with
  | nil => rfl
  | cons e es ih =>
    rw [List.pairwise_cons] at h
    have hdisj : Disjoint e.cells ((es.map cells).foldr (· ∪ ·) ∅) := by
      have hall := h.1
      clear h ih
      induction es with
      | nil => exact Finset.disjoint_empty_right _
      | cons f fs ihf =>
        rw [List.forall_mem_cons] at hall
        exact Finset.disjoint_union_right.mpr ⟨hall.1.disjoint, ihf hall.2⟩
    rw [List.map_cons, List.foldr_cons, Finset.card_union_of_disjoint hdisj, ih h.2, card_cells,
      total_cons]

/-! ## Tilings -/

/-- The extents `es` do not overlap, and each lies inside one of `R`. -/
structure Tiles (R es : List Extent) : Prop where
  apart : es.Pairwise Apart
  inside : ∀ e ∈ es, ∃ r ∈ R, e.Inside r

namespace Tiles

variable {R es fs : List Extent} {e r : Extent} {N : ℕ}

/-- The empty tiling. -/
theorem nil (R : List Extent) : Tiles R [] := ⟨List.Pairwise.nil, fun _ h => absurd h (by simp)⟩

/-- Extents may be reordered. -/
theorem perm (h : Tiles R es) (hp : es.Perm fs) : Tiles R fs :=
  ⟨(hp.pairwise_iff Apart.symm).mp h.apart, fun e he => h.inside e (hp.mem_iff.mpr he)⟩

/-- **Halving.** -/
theorem halve (h : Tiles R (e :: es)) : Tiles R (e.lower :: e.upper :: es) := by
  obtain ⟨hcons, hpw⟩ := List.pairwise_cons.mp h.apart
  obtain ⟨r, hr, hin⟩ := h.inside e List.mem_cons_self
  constructor
  · rw [List.pairwise_cons, List.pairwise_cons]
    refine ⟨?_, ?_, hpw⟩
    · rintro f hf
      rcases List.mem_cons.mp hf with rfl | hf
      · exact e.lower_apart_upper
      · exact (hcons f hf).mono e.lower_inside ⟨le_rfl, le_rfl⟩
    · intro f hf
      exact (hcons f hf).mono e.upper_inside ⟨le_rfl, le_rfl⟩
  · intro f hf
    rcases List.mem_cons.mp hf with rfl | hf
    · exact ⟨r, hr, e.lower_inside.trans hin⟩
    · rcases List.mem_cons.mp hf with rfl | hf
      · exact ⟨r, hr, e.upper_inside.trans hin⟩
      · exact h.inside f (List.mem_cons_of_mem _ hf)

/-- **Extension.**  The tiles of a new extent join those of the old ones. -/
theorem extend (h : Tiles R es) (hr : Tiles [r] fs) (hnew : ∀ x ∈ R, x.Apart r) :
    Tiles (R ++ [r]) (fs ++ es) := by
  constructor
  · rw [List.pairwise_append]
    refine ⟨hr.apart, h.apart, ?_⟩
    intro f hf e he
    obtain ⟨x, hx, hex⟩ := h.inside e he
    obtain ⟨y, hy, hfy⟩ := hr.inside f hf
    rw [List.mem_singleton.mp hy] at hfy
    exact ((hnew x hx).mono hex hfy).symm
  · intro e he
    rcases List.mem_append.mp he with he | he
    · obtain ⟨y, hy, hey⟩ := hr.inside e he
      exact ⟨y, List.mem_append_right _ hy, hey⟩
    · obtain ⟨x, hx, hex⟩ := h.inside e he
      exact ⟨x, List.mem_append_left _ hx, hex⟩

/-- **Capacity.**  What lies below `N` adds up to at most `N`. -/
theorem total_le (h : Tiles R es) (hN : ∀ r ∈ R, r.start + r.len ≤ N) : total es ≤ N := by
  have hsub : (es.map cells).foldr (· ∪ ·) ∅ ⊆ Finset.range N := by
    have hin := h.inside
    clear h
    induction es with
    | nil => exact Finset.empty_subset _
    | cons e es ih =>
      rw [List.forall_mem_cons] at hin
      obtain ⟨r, hr, her⟩ := hin.1
      have hle := hN r hr
      obtain ⟨-, hend⟩ := her
      refine Finset.union_subset (fun a ha => ?_) (ih hin.2)
      rw [cells, Finset.mem_Ico] at ha
      rw [Finset.mem_range]
      omega
  rw [← card_cells_of_pairwise h.apart, ← Finset.card_range N]
  exact Finset.card_le_card hsub

end Tiles

/-! ## Cutting an extent into equal pieces -/

/-- The first `k` pieces of `n` addresses from `base` on. -/
def pieces (base n k : ℕ) : List Extent := (List.range k).map fun i => ⟨base + i * n, n⟩

theorem pieces_succ (base n k : ℕ) :
    pieces base n (k + 1) = pieces base n k ++ [⟨base + k * n, n⟩] := by
  rw [pieces, List.range_succ, List.map_append]
  rfl

/-- `k` pieces of length `n`. -/
theorem total_pieces (base n k : ℕ) : total (pieces base n k) = k * n := by
  induction k with
  | zero => rw [Nat.zero_mul]; rfl
  | succ k ih => rw [pieces_succ, total_append, ih, total_cons, Nat.succ_mul]; rfl

/-- The pieces tile an extent that is long enough. -/
theorem tiles_pieces {base n k : ℕ} {r : Extent} (hbase : r.start = base) (hlen : k * n ≤ r.len) :
    Tiles [r] (pieces base n k) := by
  constructor
  · rw [pieces, List.pairwise_map]
    refine List.pairwise_lt_range.imp ?_
    intro i j hij
    left
    show base + i * n + n ≤ base + j * n
    have h : (i + 1) * n ≤ j * n := Nat.mul_le_mul_right n hij
    rw [Nat.succ_mul] at h
    omega
  · intro e he
    obtain ⟨i, hi, rfl⟩ := List.mem_map.mp he
    have h : (i + 1) * n ≤ k * n := Nat.mul_le_mul_right n (List.mem_range.mp hi)
    rw [Nat.succ_mul] at h
    refine ⟨r, List.mem_singleton_self r, ?_, ?_⟩
    · show r.start ≤ base + i * n
      omega
    · show base + i * n + n ≤ r.start + r.len
      omega

/-! ## Lists in several places -/

/-- One of `n` lists gets a new element. -/
theorem perm_flatMap_update {α : Type*} {f : ℕ → List α} {n i : ℕ} (hi : i < n) (x : α) :
    ((List.range n).flatMap (Function.update f i (x :: f i))).Perm
      (x :: (List.range n).flatMap f) := by
  have h := Runs.perm_flatMap_replace (f := Function.update f i (x :: f i)) (g := f) hi
    fun j hj => Function.update_of_ne hj _ _
  rw [Function.update_self] at h
  exact (List.perm_append_right_iff (f i)).mp (h.trans List.perm_middle)

end Extents
