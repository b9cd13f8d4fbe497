/-
# Histograms and order statistics

A histogram keeps, for a list of labels in increasing order, how many samples have each label.
Walking down the labels with a threshold finds the label of the sample at that place of the
sorted samples.

* `countdown l thres` — the walk: an error is the label at which it stops;
* `expand l` — the labels written out, each as often as it was counted;
* `countdown_of_lt`, `countdown_of_le` — the walk reads `expand l` at the threshold;
* `expand_counts` — written out, a histogram is the sorted list of the labels of its samples.
-/
import Mathlib

namespace Histograms

variable {β : Type*}

/-- Subtract the counts from the threshold, and stop at the label where it becomes negative. -/
def countdown : List (ℕ × β) → ℤ → Except β ℤ
  | [], thres => .ok thres
  | x :: l, thres => if thres - x.1 < 0 then .error x.2 else countdown l (thres - x.1)

/-- Each label as often as it was counted. -/
def expand (l : List (ℕ × β)) : List β := l.flatMap fun x => List.replicate x.1 x.2

theorem expand_cons (x : ℕ × β) (l : List (ℕ × β)) :
    expand (x :: l) = List.replicate x.1 x.2 ++ expand l :=
  List.flatMap_cons ..

theorem expand_append (l m : List (ℕ × β)) : expand (l ++ m) = expand l ++ expand m :=
  List.flatMap_append ..

theorem length_expand (l : List (ℕ × β)) : (expand l).length = (l.map Prod.fst).sum := by
  simp [expand]

/-- Two walks, one after the other. -/
theorem countdown_append (l m : List (ℕ × β)) :
    countdown (l ++ m) = fun thres => countdown l thres >>= countdown m := by
  funext thres
  induction l generalizing thres with
  | nil => rfl
  | cons x l ih =>
    rw [List.cons_append, countdown, countdown]
    split_ifs with hstop
    · rfl
    · exact ih _

/-- A walk with a threshold below the number of samples stops. -/
theorem countdown_of_lt {l : List (ℕ × β)} {k : ℕ} {b : β} (h : (expand l)[k]? = some b) :
    countdown l k = .error b := by
  induction l generalizing k with
  | nil => simp [expand] at h
  | cons x l ih =>
    rw [expand_cons] at h
    rw [countdown]
    by_cases hk : k < x.1
    · rw [List.getElem?_append_left (by simpa using hk), List.getElem?_replicate, if_pos hk] at h
      rw [if_pos (by omega), Option.some.inj h]
    · rw [List.getElem?_append_right (by simpa using hk), List.length_replicate] at h
      rw [if_neg (by omega), show (k : ℤ) - x.1 = ((k - x.1 : ℕ) : ℤ) by omega, ih h]

/-- With any other threshold it does not. -/
theorem countdown_of_le {l : List (ℕ × β)} {k : ℕ} (h : (expand l).length ≤ k) :
    countdown l k = .ok ((k - (expand l).length : ℕ) : ℤ) := by
  induction l generalizing k with
  | nil => rfl
  | cons x l ih =>
    rw [expand_cons, List.length_append, List.length_replicate] at h
    rw [countdown, if_neg (by omega), show (k : ℤ) - x.1 = ((k - x.1 : ℕ) : ℤ) by omega,
      ih (by omega), expand_cons, List.length_append, List.length_replicate, Nat.sub_sub]

section Sorted

variable [LinearOrder β] {bs ys : List β}

theorem count_expand (hbs : bs.Nodup) (f : β → ℕ) (a : β) :
    (expand (bs.map fun b => (f b, b))).count a = if a ∈ bs then f a else 0 := by
  induction bs with
  | nil => simp [expand]
  | cons b bs ih =>
    obtain ⟨hb, hbs⟩ := List.nodup_cons.mp hbs
    rw [List.map_cons, expand_cons, List.count_append, ih hbs, List.count_replicate]
    by_cases hab : a = b
    · subst hab
      simp [hb]
    · simp [hab, Ne.symm hab]

theorem pairwise_expand (hbs : bs.Pairwise (· < ·)) (f : β → ℕ) :
    (expand (bs.map fun b => (f b, b))).Pairwise (· ≤ ·) := by
  induction bs with
  | nil => simp [expand]
  | cons b bs ih =>
    obtain ⟨hb, hbs⟩ := List.pairwise_cons.mp hbs
    rw [List.map_cons, expand_cons, List.pairwise_append]
    refine ⟨List.pairwise_replicate.mpr (Or.inr le_rfl), ih hbs, ?_⟩
    intro x hx y hy
    obtain rfl := List.eq_of_mem_replicate hx
    -- a label further down
    obtain ⟨z, hz, hy⟩ := List.mem_flatMap.mp hy
    obtain ⟨b', hb', rfl⟩ := List.mem_map.mp hz
    rw [List.eq_of_mem_replicate hy]
    exact (hb b' hb').le

/-- **A histogram is the sorted list of the labels.** -/
theorem expand_counts (hbs : bs.Pairwise (· < ·)) (hys : ys.Pairwise (· ≤ ·))
    (hmem : ∀ y ∈ ys, y ∈ bs) : expand (bs.map fun b => (ys.count b, b)) = ys := by
  have hperm : (expand (bs.map fun b => (ys.count b, b))).Perm ys := by
    rw [List.perm_iff_count]
    intro a
    rw [count_expand (hbs.imp ne_of_lt)]
    split_ifs with ha
    · rfl
    · exact (List.count_eq_zero_of_not_mem fun hy => ha (hmem a hy)).symm
  exact hperm.eq_of_pairwise (fun _ _ _ _ h h' => le_antisymm h h') (pairwise_expand hbs _) hys

end Sorted

end Histograms
