/-
# Block copies in a memory

A memory is a function on addresses.  A `Copy` moves `len` cells from `src` to `dst`, and a list of
copies is run in order.

* `dsts`, `srcs` — the cells that a list of copies writes and reads, in order;
* `run_of_notMem` — a cell that is not written stays;
* `map_run` — copies that do not write a cell twice and do not read a written cell leave at the
  written cells what was at the cells read.
-/
import Mathlib

namespace Copies

variable {β : Type*}

/-- `len` cells from `src` on are copied to `dst`. -/
structure Copy where
  dst : ℕ
  src : ℕ
  len : ℕ
  deriving DecidableEq, Repr

/-- The memory after one copy. -/
def Copy.apply (c : Copy) (m : ℕ → β) : ℕ → β :=
  fun a => if c.dst ≤ a ∧ a < c.dst + c.len then m (c.src + (a - c.dst)) else m a

/-- The copies in order. -/
def run (cs : List Copy) (m : ℕ → β) : ℕ → β := cs.foldl (fun m c => c.apply m) m

/-- The cells that are written. -/
def dsts (cs : List Copy) : List ℕ := cs.flatMap fun c => List.range' c.dst c.len

/-- The cells that are read. -/
def srcs (cs : List Copy) : List ℕ := cs.flatMap fun c => List.range' c.src c.len

@[simp] theorem dsts_nil : dsts [] = [] := rfl

@[simp] theorem srcs_nil : srcs [] = [] := rfl

@[simp] theorem dsts_cons (c : Copy) (cs : List Copy) :
    dsts (c :: cs) = List.range' c.dst c.len ++ dsts cs := rfl

@[simp] theorem srcs_cons (c : Copy) (cs : List Copy) :
    srcs (c :: cs) = List.range' c.src c.len ++ srcs cs := rfl

@[simp] theorem dsts_append (cs ds : List Copy) : dsts (cs ++ ds) = dsts cs ++ dsts ds :=
  List.flatMap_append

@[simp] theorem srcs_append (cs ds : List Copy) : srcs (cs ++ ds) = srcs cs ++ srcs ds :=
  List.flatMap_append

/-- The copy the other way. -/
def Copy.swap (c : Copy) : Copy := ⟨c.src, c.dst, c.len⟩

/-- Swapped copies write what was read. -/
theorem dsts_map_swap (cs : List Copy) : dsts (cs.map Copy.swap) = srcs cs := List.flatMap_map ..

theorem srcs_map_swap (cs : List Copy) : srcs (cs.map Copy.swap) = dsts cs := List.flatMap_map ..

/-- Frame rule of one copy. -/
theorem Copy.apply_of_notMem {c : Copy} {a : ℕ} (m : ℕ → β) (h : a ∉ List.range' c.dst c.len) :
    c.apply m a = m a := by
  rw [List.mem_range'_1] at h
  exact if_neg h

/-- The written cells hold what was read. -/
theorem Copy.map_apply (c : Copy) (m : ℕ → β) :
    (List.range' c.dst c.len).map (c.apply m) = (List.range' c.src c.len).map m := by
  apply List.ext_getElem
  · simp
  · intro i hi _
    rw [List.length_map, List.length_range'] at hi
    simp only [List.getElem_map, List.getElem_range', Nat.one_mul]
    have hin : c.dst ≤ c.dst + i ∧ c.dst + i < c.dst + c.len := by omega
    show (if _ then _ else _) = _
    rw [if_pos hin, Nat.add_sub_cancel_left]

/-- A cell that no copy writes stays. -/
theorem run_of_notMem {cs : List Copy} {a : ℕ} (m : ℕ → β) (h : a ∉ dsts cs) :
    run cs m a = m a := by
  induction cs generalizing m with
  | nil => rfl
  | cons c cs ih =>
    rw [dsts_cons, List.mem_append, not_or] at h
    show run cs (c.apply m) a = m a
    rw [ih _ h.2, Copy.apply_of_notMem m h.1]

/-- **Every copy is still there at the end**, if no cell is written twice and none is read that is
written. -/
theorem map_run_of_mem {cs : List Copy} (m : ℕ → β) (hnd : (dsts cs).Nodup)
    (hsep : ∀ a ∈ dsts cs, a ∉ srcs cs) {c : Copy} (hc : c ∈ cs) :
    (List.range' c.dst c.len).map (run cs m) = (List.range' c.src c.len).map m := by
  induction cs generalizing m with
  | nil => exact absurd hc List.not_mem_nil
  | cons d cs ih =>
    rw [dsts_cons, List.nodup_append] at hnd
    obtain ⟨-, hnd', hne⟩ := hnd
    show (List.range' c.dst c.len).map (run cs (d.apply m)) = _
    rcases List.mem_cons.mp hc with rfl | hc
    · -- the later copies do not write its cells
      rw [← Copy.map_apply]
      apply List.map_congr_left
      intro a ha
      exact run_of_notMem _ fun hx => hne a ha a hx rfl
    · have hsep' : ∀ a ∈ dsts cs, a ∉ srcs cs := by
        intro a ha hx
        exact hsep a (List.mem_append_right _ ha) (List.mem_append_right _ hx)
      rw [ih (d.apply m) hnd' hsep' hc]
      -- the cells it reads are not those of the first copy
      apply List.map_congr_left
      intro a ha
      apply Copy.apply_of_notMem
      intro hx
      refine hsep a (List.mem_append_left _ hx) (List.mem_append_right _ ?_)
      exact List.mem_flatMap.mpr ⟨c, hc, ha⟩

/-- **What a list of copies leaves**, read in the order of any list `ds` of them. -/
theorem map_run {cs : List Copy} (m : ℕ → β) (hnd : (dsts cs).Nodup)
    (hsep : ∀ a ∈ dsts cs, a ∉ srcs cs) (ds : List Copy) (hds : ds ⊆ cs) :
    (dsts ds).map (run cs m) = (srcs ds).map m := by
  induction ds with
  | nil => rfl
  | cons d ds ih =>
    obtain ⟨hd, hds⟩ := List.cons_subset.mp hds
    rw [dsts_cons, srcs_cons, List.map_append, List.map_append, map_run_of_mem m hnd hsep hd,
      ih hds]

end Copies
