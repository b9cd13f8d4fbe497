/-
# Taking units off a list of segments

A loop goes over a list of segments and takes `n` units off it.  It hands each segment to a callback,
the last one cut, and a segment that is used up leaves the list.

* `Cut` — the size of a segment, and the two parts of a segment that is cut;
* `Cut.pieces`, `Cut.remains` — what goes and what stays;
* `Cut.loop` — the loop, with a callback that can refuse a piece;
* `loop_result`, `loop_ok`, `loop_error` — the loop folds the callback over the pieces, and loses
  nothing when the callback refuses one;
* `Cut.Lawful` — the segments have contents which the two parts share out (`flatMap_pieces`,
  `flatMap_remains`).
-/
import Mathlib

namespace Peel

/-- How a segment is cut: the part with `n` units that is taken, and the rest. -/
structure Cut (α : Type*) where
  size : α → ℕ
  take : α → ℕ → α
  rest : α → ℕ → α

namespace Cut

variable {α β σ ε : Type*} (k : Cut α)

/-- All units of a list. -/
def total (vs : List α) : ℕ := (vs.map k.size).sum

/-- The pieces with the first `n` units. -/
def pieces : List α → ℕ → List α
  | [], _ => []
  | v :: vs, n => if n ≤ k.size v then [k.take v n] else v :: pieces vs (n - k.size v)

/-- The list without its first `n` units. -/
def remains : ℕ → List α → List α
  | _, [] => []
  | n, v :: vs =>
    if n = 0 then v :: vs
    else if n < k.size v then k.rest v n :: vs
    else remains (n - k.size v) vs

/-- The loop: the rest of the list, the units still missing, and the state of the callback, an error
if it has refused a piece. -/
def loop (cb : σ → α → Except ε σ) : List α → ℕ → σ → List α × ℕ × Except ε σ
  | [], n, c => ([], n, .ok c)
  | v :: vs, n, c =>
    if n ≤ k.size v then
      match cb c (k.take v n) with
      | .error e => (v :: vs, n, .error e)
      | .ok c' => if k.size v - n = 0 then (vs, 0, .ok c') else (k.rest v n :: vs, 0, .ok c')
    else
      match cb c v with
      | .error e => (v :: vs, n, .error e)
      | .ok c' => loop cb vs (n - k.size v) c'

variable {k} {vs rest : List α} {n left : ℕ} {c c' : σ} {cb : σ → α → Except ε σ}

theorem total_cons (v : α) (vs : List α) : k.total (v :: vs) = k.size v + k.total vs := rfl

@[simp] theorem remains_zero (vs : List α) : k.remains 0 vs = vs := by
  cases vs <;> simp [remains]

variable (k) in
theorem length_pieces_le (vs : List α) (n : ℕ) : (k.pieces vs n).length ≤ vs.length := by
  induction vs generalizing n with
  | nil => exact le_rfl
  | cons v vs ih =>
    rw [pieces]
    split_ifs
    · simp
    · simpa using ih _

variable (k) in
/-- There is a piece if there is a segment. -/
theorem pieces_ne_nil (h : vs ≠ []) : k.pieces vs n ≠ [] := by
  cases vs with
  | nil => exact absurd rfl h
  | cons v vs =>
    rw [pieces]
    split_ifs <;> exact List.cons_ne_nil _ _

theorem remains_eq_nil (h : k.total vs < n) : k.remains n vs = [] := by
  induction vs generalizing n with
  | nil => rfl
  | cons v vs ih =>
    rw [total_cons] at h
    rw [remains, if_neg (by omega), if_neg (by omega)]
    exact ih (by omega)

/-! ## What the pieces inherit -/

section All

variable {P : α → Prop}

theorem all_pieces (htake : ∀ v n, P v → n ≤ k.size v → P (k.take v n)) (h : ∀ v ∈ vs, P v) :
    ∀ v ∈ k.pieces vs n, P v := by
  induction vs generalizing n with
  | nil =>
    intro v hv
    cases hv
  | cons v vs ih =>
    rw [List.forall_mem_cons] at h
    rw [pieces]
    split_ifs with hle
    · rw [List.forall_mem_singleton]
      exact htake v n h.1 hle
    · rw [List.forall_mem_cons]
      exact ⟨h.1, ih h.2⟩

theorem all_remains (hrest : ∀ v n, P v → n < k.size v → P (k.rest v n)) (h : ∀ v ∈ vs, P v) :
    ∀ v ∈ k.remains n vs, P v := by
  induction vs generalizing n with
  | nil => exact h
  | cons v vs ih =>
    have h' := List.forall_mem_cons.mp h
    rw [remains]
    split_ifs with hz hlt
    · exact h
    · rw [List.forall_mem_cons]
      exact ⟨hrest v n h'.1 hlt, h'.2⟩
    · exact ih h'.2

end All

/-! ## The loop -/

variable (cb c) in
/-- The callback is folded over the pieces. -/
theorem loop_result (vs : List α) (n : ℕ) :
    (k.loop cb vs n c).2.2 = (k.pieces vs n).foldlM cb c := by
  induction vs generalizing n c with
  | nil => rfl
  | cons v vs ih =>
    rw [loop, pieces]
    by_cases hle : n ≤ k.size v
    · rw [if_pos hle, if_pos hle, List.foldlM_cons]
      cases cb c (k.take v n) with
      | error e => rfl
      | ok c' =>
        dsimp only
        split_ifs <;> rfl
    · rw [if_neg hle, if_neg hle, List.foldlM_cons]
      cases cb c v with
      | error e => rfl
      | ok c' => exact ih _ _

/-- A callback that takes all pieces. -/
theorem loop_ok (hn : 0 < n) (h : (k.pieces vs n).foldlM cb c = .ok c') :
    k.loop cb vs n c = (k.remains n vs, n - k.total vs, .ok c') := by
  induction vs generalizing n c with
  | nil =>
    cases h
    rfl
  | cons v vs ih =>
    rw [loop, remains, total_cons, if_neg hn.ne']
    rw [pieces] at h
    by_cases hle : n ≤ k.size v
    · rw [if_pos hle, List.foldlM_cons] at h
      rw [if_pos hle, show n - (k.size v + k.total vs) = 0 by omega]
      cases hc : cb c (k.take v n) with
      | error e =>
        rw [hc] at h
        cases h
      | ok c1 =>
        rw [hc] at h
        cases h
        split_ifs with hz hlt hlt
        · omega
        · rw [show n - k.size v = 0 by omega, remains_zero]
        · rfl
        · omega
    · rw [if_neg hle, List.foldlM_cons] at h
      rw [if_neg hle, if_neg (by omega), ← Nat.sub_sub]
      cases hc : cb c v with
      | error e =>
        rw [hc] at h
        cases h
      | ok c1 =>
        rw [hc] at h
        exact ih (by omega) h

/-! ## Contents -/

/-- Segments with contents: the first units of a segment are the part that is taken. -/
structure Lawful (k : Cut α) (content : α → List β) : Prop where
  length : ∀ v, (content v).length = k.size v
  take : ∀ v n, n ≤ k.size v → content (k.take v n) = (content v).take n
  rest : ∀ v n, n ≤ k.size v → content (k.rest v n) = (content v).drop n

namespace Lawful

variable {content : α → List β}

theorem length_flatMap (h : Lawful k content) (vs : List α) :
    (vs.flatMap content).length = k.total vs := by
  induction vs with
  | nil => rfl
  | cons v vs ih => rw [List.flatMap_cons, List.length_append, h.length, ih, total_cons]

theorem flatMap_pieces (h : Lawful k content) (vs : List α) (n : ℕ) :
    (k.pieces vs n).flatMap content = (vs.flatMap content).take n := by
  induction vs generalizing n with
  | nil => simp [pieces]
  | cons v vs ih =>
    rw [pieces, List.flatMap_cons, List.take_append, h.length]
    split_ifs with hle
    · rw [List.flatMap_singleton, h.take v n hle, Nat.sub_eq_zero_of_le hle, List.take_zero,
        List.append_nil]
    · rw [List.flatMap_cons, ih, List.take_of_length_le (l := content v) (by rw [h.length]; omega)]

theorem flatMap_remains (h : Lawful k content) (vs : List α) (n : ℕ) :
    (k.remains n vs).flatMap content = (vs.flatMap content).drop n := by
  induction vs generalizing n with
  | nil => simp [remains]
  | cons v vs ih =>
    rw [remains]
    split_ifs with hz hlt
    · rw [hz, List.drop_zero]
    · rw [List.flatMap_cons, List.flatMap_cons, h.rest v n hlt.le,
        List.drop_append_of_le_length (by rw [h.length]; exact hlt.le)]
    · rw [ih, List.flatMap_cons, List.drop_append, h.length,
        List.drop_of_length_le (l := content v) (by rw [h.length]; omega), List.nil_append]

theorem total_pieces (h : Lawful k content) (vs : List α) (n : ℕ) :
    k.total (k.pieces vs n) = min n (k.total vs) := by
  rw [← h.length_flatMap, h.flatMap_pieces, List.length_take, h.length_flatMap]

end Lawful

/-- The callback keeps in `out` what it has taken: then nothing is lost when it refuses a piece. -/
theorem loop_error (content : α → List β) (out : σ → List β) {cb : σ → α → Except σ σ}
    (hok : ∀ c v c', cb c v = .ok c' → out c' = out c ++ content v)
    (herr : ∀ c v c', cb c v = .error c' → out c' = out c)
    (h : k.loop cb vs n c = (rest, left, .error c')) :
    out c' ++ rest.flatMap content = out c ++ vs.flatMap content := by
  induction vs generalizing n c with
  | nil => cases h
  | cons v vs ih =>
    rw [loop] at h
    by_cases hle : n ≤ k.size v
    · rw [if_pos hle] at h
      cases hc : cb c (k.take v n) with
      | error e =>
        rw [hc] at h
        cases h
        rw [herr _ _ _ hc]
      | ok c1 =>
        rw [hc] at h
        split_ifs at h <;> cases h
    · rw [if_neg hle] at h
      cases hc : cb c v with
      | error e =>
        rw [hc] at h
        cases h
        rw [herr _ _ _ hc]
      | ok c1 =>
        rw [hc] at h
        rw [ih h, hok _ _ _ hc, List.append_assoc, List.flatMap_cons]

end Cut

end Peel
