/-
# Lists by keys

`buckets key n l` is what comes out of a list that is dealt into buckets by a key and read bucket by
bucket up to the key `n`, each bucket in the order of the list.

* `buckets_initial` — if the keys do not decrease, this is a first part of the list;
* `pairwise_buckets` — it has the order of the keys, so only such lists come out as they went in
  (`pairwise_of_buckets_map`).
-/
import Mathlib

namespace Buckets

variable {α β : Type*} {key : α → ℕ} {n : ℕ} {l : List α} {x : α}

def buckets (key : α → ℕ) (n : ℕ) (l : List α) : List α :=
  (List.range n).flatMap fun k => l.filter (key · = k)

theorem buckets_succ (key : α → ℕ) (n : ℕ) (l : List α) :
    buckets key (n + 1) l = buckets key n l ++ l.filter (key · = n) := by
  unfold buckets
  rw [List.range_succ, List.flatMap_append, List.flatMap_singleton]

theorem mem_buckets : x ∈ buckets key n l ↔ x ∈ l ∧ key x < n := by
  unfold buckets
  simp only [List.mem_flatMap, List.mem_range, List.mem_filter, decide_eq_true_eq]
  constructor
  · rintro ⟨k, hk, hx, rfl⟩
    exact ⟨hx, hk⟩
  · rintro ⟨hx, hk⟩
    exact ⟨key x, hk, hx, rfl⟩

theorem filter_buckets (p : α → Bool) (key : α → ℕ) (n : ℕ) (l : List α) :
    (buckets key n l).filter p = buckets key n (l.filter p) := by
  unfold buckets
  rw [List.filter_flatMap]
  apply List.flatMap_congr
  intro k _
  rw [List.filter_filter, List.filter_filter]
  exact List.filter_congr fun x _ => Bool.and_comm _ _

/-- The buckets come in the order of the keys. -/
theorem pairwise_buckets (key : α → ℕ) (n : ℕ) (l : List α) :
    (buckets key n l).Pairwise fun x y => key x ≤ key y := by
  induction n with
  | zero => exact List.Pairwise.nil
  | succ n ih =>
    rw [buckets_succ, List.pairwise_append]
    refine ⟨ih, List.pairwise_of_forall_mem_list ?_, ?_⟩
    · intro x hx y hy
      rw [of_decide_eq_true (List.mem_filter.mp hx).2, of_decide_eq_true (List.mem_filter.mp hy).2]
    · intro x hx y hy
      rw [of_decide_eq_true (List.mem_filter.mp hy).2]
      exact (mem_buckets.mp hx).2.le

/-- In a list with non-decreasing keys, those before `n` come first. -/
theorem buckets_eq_filter (h : l.Pairwise fun x y => key x ≤ key y) (n : ℕ) :
    buckets key n l = l.filter (key · < n) := by
  induction n with
  | zero => simp [buckets]
  | succ n ih =>
    rw [buckets_succ, ih]
    clear ih
    induction l with
    | nil => rfl
    | cons x l ih =>
      obtain ⟨hx, hl⟩ := List.pairwise_cons.mp h
      have ih := ih hl
      rcases Nat.lt_trichotomy (key x) n with hlt | heq | hgt
      · rw [List.filter_cons_of_pos (by simpa using hlt),
          List.filter_cons_of_neg (by simpa using hlt.ne),
          List.filter_cons_of_pos (by simpa using hlt.trans (Nat.lt_succ_self n)), List.cons_append,
          ih]
      · -- nothing behind `x` is before `n`
        have hnone : l.filter (key · < n) = [] := by
          rw [List.filter_eq_nil_iff]
          intro y hy
          have := hx y hy
          simp only [decide_eq_true_eq]
          omega
        rw [hnone, List.nil_append] at ih
        rw [List.filter_cons_of_neg (by simp [heq]), hnone, List.nil_append,
          List.filter_cons_of_pos (by simpa using heq),
          List.filter_cons_of_pos (by simp [heq]), ih]
      · rw [List.filter_cons_of_neg (by simpa using hgt.le),
          List.filter_cons_of_neg (by simpa using hgt.ne'),
          List.filter_cons_of_neg (by simpa using hgt), ih]

/-- **Non-decreasing keys.**  What comes out is a first part of the list. -/
theorem buckets_initial (h : l.Pairwise fun x y => key x ≤ key y) (n : ℕ) :
    buckets key n l <+: l := by
  rw [buckets_eq_filter h]
  induction l with
  | nil => exact List.prefix_refl _
  | cons x l ih =>
    obtain ⟨hx, hl⟩ := List.pairwise_cons.mp h
    by_cases hlt : key x < n
    · rw [List.filter_cons_of_pos (by simpa using hlt)]
      exact List.cons_prefix_cons.mpr ⟨rfl, ih hl⟩
    · rw [List.filter_eq_nil_iff.mpr]
      · exact List.nil_prefix
      · intro y hy
        simp only [decide_eq_true_eq]
        rcases List.mem_cons.mp hy with rfl | hy
        · exact hlt
        · have := hx y hy
          omega

/-- **Only such lists come out as they went in**, if their elements can be told apart. -/
theorem pairwise_of_buckets_map {f : α → β} (hnodup : (l.map f).Nodup)
    (h : (buckets key n l).map f = l.map f) : l.Pairwise fun x y => key x ≤ key y := by
  have hlen : (buckets key n l).length = l.length := by
    simpa using congrArg List.length h
  have hsame : buckets key n l = l := by
    refine List.ext_getElem hlen fun i hi hi' => ?_
    refine List.inj_on_of_nodup_map hnodup (mem_buckets.mp (List.getElem_mem hi)).1
      (List.getElem_mem hi') ?_
    have hget := List.getElem_of_eq h (i := i) (by simpa using hi)
    simpa only [List.getElem_map] using hget
  rw [← hsame]
  exact pairwise_buckets key n l

end Buckets
