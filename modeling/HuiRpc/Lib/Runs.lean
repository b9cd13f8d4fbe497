/-
# Runs of a step function

A system is a partial step function `step : σ → α → Option σ` with a guard that says which
actions may be taken in a state.  `Run guard step s₀ as s` is a run from `s₀` to `s` that takes
the actions `as`.

* `Run.invariant` — what the first state has and every step keeps holds at the end of a run;
* `Run.split`, `Run.unique` — the states on the way of a run;
* `Run.always_iff` — what holds in all states of a run exactly if its steps meet a condition;
* `run_of_exec` — executing a list of actions gives a run;
* `seg f a b` — the part from `a` to `b` of a numbered sequence, which is what a FIFO channel
  holds of the packets sent into it, and its filters;
* `sum_range_replace`, `perm_flatMap_replace` — sums and lists over the components of a system of
  which one moves.
-/
import Mathlib

namespace Runs

variable {σ α : Type*} {guard : σ → α → Prop} {step : σ → α → Option σ} {s₀ s s' : σ}
  {as : List α}

/-- The runs from `s₀`. -/
inductive Run (guard : σ → α → Prop) (step : σ → α → Option σ) (s₀ : σ) : List α → σ → Prop
  | nil : Run guard step s₀ [] s₀
  | snoc {as : List α} {s : σ} {a : α} {s' : σ} (h : Run guard step s₀ as s) (hg : guard s a)
      (hs : step s a = some s') : Run guard step s₀ (as ++ [a]) s'

/-- **The invariant rule.** -/
theorem Run.invariant {P : σ → Prop} (h : Run guard step s₀ as s) (h0 : P s₀)
    (hstep : ∀ s a s', P s → guard s a → step s a = some s' → P s') : P s := by
  induction h with
  | nil => exact h0
  | snoc _ hg hs ih => exact hstep _ _ _ ih hg hs

/-- A run under a guard is one under every weaker guard. -/
theorem Run.weaken {guard' : σ → α → Prop} (h : Run guard step s₀ as s)
    (hg : ∀ s a, guard s a → guard' s a) : Run guard' step s₀ as s := by
  induction h with
  | nil => exact Run.nil
  | snoc _ hga hs ih => exact ih.snoc (hg _ _ hga) hs

/-- Two runs one after the other. -/
theorem Run.append {as' : List α} (h : Run guard step s₀ as s) (h' : Run guard step s as' s') :
    Run guard step s₀ (as ++ as') s' := by
  induction h' with
  | nil => rwa [List.append_nil]
  | snoc _ hg hs ih =>
    rw [← List.append_assoc]
    exact ih.snoc hg hs

/-- The last step of a run. -/
theorem Run.snoc_inv {a : α} (h : Run guard step s₀ (as ++ [a]) s') :
    ∃ s, Run guard step s₀ as s ∧ guard s a ∧ step s a = some s' := by
  generalize hb : as ++ [a] = bs at h
  cases h with
  | nil => simp at hb
  | @snoc _ s _ _ h hg hs =>
    obtain ⟨rfl, ha⟩ := List.append_inj' hb rfl
    rw [List.singleton_inj] at ha
    subst ha
    exact ⟨s, h, hg, hs⟩

/-- A run of two lists of actions stops between them. -/
theorem Run.split {as' : List α} (h : Run guard step s₀ (as ++ as') s') :
    ∃ s, Run guard step s₀ as s ∧ Run guard step s as' s' := by
  induction as' using List.reverseRecOn generalizing s' with
  | nil =>
    rw [List.append_nil] at h
    exact ⟨s', h, Run.nil⟩
  | append_singleton as' a ih =>
    rw [← List.append_assoc] at h
    obtain ⟨t, h, hg, hs⟩ := h.snoc_inv
    obtain ⟨s, h1, h2⟩ := ih h
    exact ⟨s, h1, h2.snoc hg hs⟩

/-- The actions determine the state. -/
theorem Run.unique (h : Run guard step s₀ as s) (h' : Run guard step s₀ as s') : s = s' := by
  induction h generalizing s' with
  | nil =>
    generalize hb : ([] : List α) = bs at h'
    cases h' with
    | nil => rfl
    | snoc _ _ _ => simp at hb
  | @snoc as s a t _ _ hs ih =>
    obtain ⟨t', h', -, hs'⟩ := h'.snoc_inv
    rw [ih h'] at hs
    exact Option.some.inj (hs.symm.trans hs')

/-- **The condition rule.**  If `P` holds after every run under the guard `g`, and a step that
leads from `P` to `P` meets this guard, then `P` holds in all states of a run exactly if the run is
one under `g`. -/
theorem Run.always_iff {g : σ → α → Prop} {P : σ → Prop} (h : Run guard step s₀ as s)
    (hweak : ∀ s a, g s a → guard s a)
    (hP : ∀ as s, Run g step s₀ as s → P s)
    (hneed : ∀ as s a s', Run guard step s₀ as s → P s → guard s a → step s a = some s' → P s' →
      g s a) :
    (∀ pre t, pre <+: as → Run guard step s₀ pre t → P t) ↔ Run g step s₀ as s := by
  constructor
  · intro hall
    induction h with
    | nil => exact Run.nil
    | @snoc as s a s' h hg hs ih =>
      have hsafe := hneed _ _ _ _ h (hall _ _ (List.prefix_append _ _) h) hg hs
        (hall _ _ (List.prefix_refl _) (h.snoc hg hs))
      exact (ih fun pre t hpre => hall pre t (hpre.trans (List.prefix_append _ _))).snoc hsafe hs
  · rintro h' pre t ⟨rest, rfl⟩ ht
    obtain ⟨t', ht', -⟩ := h'.split
    obtain rfl := ht.unique (ht'.weaken hweak)
    exact hP _ _ ht'

/-! ## Execution -/

/-- Execute a list of actions; `none` if a guard fails or a step does. -/
def exec (guard : σ → α → Prop) [∀ s a, Decidable (guard s a)] (step : σ → α → Option σ) :
    σ → List α → Option σ
  | s, [] => some s
  | s, a :: as => if guard s a then (step s a).bind fun s' => exec guard step s' as else none

theorem run_of_exec [∀ s a, Decidable (guard s a)] (h : exec guard step s₀ as = some s) :
    Run guard step s₀ as s := by
  induction as generalizing s₀ with
  | nil =>
    rw [exec, Option.some.injEq] at h
    exact h ▸ Run.nil
  | cons a as ih =>
    rw [exec] at h
    split_ifs at h with hg
    obtain ⟨s1, hs1, hrest⟩ := Option.bind_eq_some_iff.mp h
    exact (Run.nil.snoc hg hs1).append (ih hrest)

/-- What a computation in steps returns. -/
theorem bind_eq_ok {ε β γ : Type} {x : Except ε β} {f : β → Except ε γ} {r : γ} :
    (x >>= f) = .ok r ↔ ∃ y, x = .ok y ∧ f y = .ok r := by
  cases x with
  | error e =>
    constructor
    · intro h
      cases h
    · rintro ⟨_, h, _⟩
      cases h
  | ok y =>
    constructor
    · intro h
      exact ⟨y, rfl, h⟩
    · rintro ⟨z, hz, h⟩
      rw [Except.ok.inj hz]
      exact h

/-! ## Segments of a sequence -/

section Segments

variable {β γ : Type*} {f g : ℕ → β} {a b c : ℕ}

/-- The elements `a, …, b - 1` of a sequence. -/
def seg (f : ℕ → β) (a b : ℕ) : List β := (List.range' a (b - a)).map f

@[simp] theorem seg_self (f : ℕ → β) (a : ℕ) : seg f a a = [] := by
  simp [seg]

@[simp] theorem length_seg (f : ℕ → β) (a b : ℕ) : (seg f a b).length = b - a := by
  simp [seg]

theorem seg_cons (f : ℕ → β) (h : a < b) : seg f a b = f a :: seg f (a + 1) b := by
  unfold seg
  rw [show b - a = (b - (a + 1)) + 1 by omega, List.range'_succ, List.map_cons]

/-- A segment is cut at any of its points. -/
theorem seg_append (f : ℕ → β) (hab : a ≤ b) (hbc : b ≤ c) :
    seg f a b ++ seg f b c = seg f a c := by
  unfold seg
  have h := List.range'_append_1 (s := a) (m := b - a) (n := c - b)
  rw [show a + (b - a) = b by omega, show b - a + (c - b) = c - a by omega] at h
  rw [← List.map_append, h]

theorem seg_snoc (f : ℕ → β) (h : a ≤ b) : seg f a (b + 1) = seg f a b ++ [f b] := by
  rw [← seg_append f h (Nat.le_succ b), seg_cons f (Nat.lt_succ_self b), seg_self]

theorem seg_congr (h : ∀ k, a ≤ k → k < b → f k = g k) : seg f a b = seg g a b := by
  apply List.map_congr_left
  intro k hk
  rw [List.mem_range'_1] at hk
  exact h k hk.1 (by omega)

theorem map_seg (φ : β → γ) (f : ℕ → β) (a b : ℕ) :
    (seg f a b).map φ = seg (fun k => φ (f k)) a b := by
  simp [seg]

theorem mem_seg {x : β} : x ∈ seg f a b ↔ ∃ k, a ≤ k ∧ k < b ∧ f k = x := by
  unfold seg
  rw [List.mem_map]
  constructor
  · rintro ⟨k, hk, rfl⟩
    rw [List.mem_range'_1] at hk
    exact ⟨k, hk.1, by omega, rfl⟩
  · rintro ⟨k, ha, hb, rfl⟩
    exact ⟨k, by rw [List.mem_range'_1]; omega, rfl⟩

/-- Those of the first `b` elements that lie from `a` on. -/
theorem filter_seg_ge {p : β → Bool} (h : ∀ k, k < b → (p (f k) = true ↔ a ≤ k)) :
    (seg f 0 b).filter p = seg f a b := by
  induction b with
  | zero => simp [seg]
  | succ b ih =>
    have hb := h b (Nat.lt_succ_self b)
    rw [seg_snoc f (Nat.zero_le b), List.filter_append, ih fun k hk => h k (by omega),
      List.filter_singleton]
    by_cases hab : a ≤ b
    · rw [hb.mpr hab, seg_snoc f hab]
      rfl
    · rw [Bool.eq_false_iff.mpr fun hp => hab (hb.mp hp)]
      simp [seg, show b - a = 0 by omega, show b + 1 - a = 0 by omega]

/-- Those of the first `b` elements that lie before `a`. -/
theorem filter_seg_lt {p : β → Bool} (h : ∀ k, k < b → (p (f k) = true ↔ k < a)) :
    (seg f 0 b).filter p = seg f 0 (min a b) := by
  induction b with
  | zero => simp
  | succ b ih =>
    have hb := h b (Nat.lt_succ_self b)
    rw [seg_snoc f (Nat.zero_le b), List.filter_append, ih fun k hk => h k (by omega),
      List.filter_singleton]
    by_cases hab : b < a
    · rw [hb.mpr hab, Nat.min_eq_right hab, Nat.min_eq_right (le_of_lt hab),
        seg_snoc f (Nat.zero_le b)]
      rfl
    · rw [Bool.eq_false_iff.mpr fun hp => hab (hb.mp hp), Nat.min_eq_left (by omega),
        Nat.min_eq_left (by omega)]
      simp

theorem countP_seg {p : β → Bool} (h : ∀ k, k < b → (p (f k) = true ↔ a ≤ k)) :
    (seg f 0 b).countP p = b - a := by
  rw [List.countP_eq_length_filter, filter_seg_ge h, length_seg]

/-- A segment counted from its start. -/
theorem seg_eq_map_range (f : ℕ → β) (a b : ℕ) :
    seg f a b = (List.range (b - a)).map fun k => f (a + k) := by
  unfold seg
  rw [List.range'_eq_map_range, List.map_map]
  rfl

end Segments

/-! ## Systems of components -/

/-- A sum over components changes by what the one that moves changes. -/
theorem sum_range_replace {f g : ℕ → ℕ} {n i : ℕ} (hi : i < n) (h : ∀ j, j ≠ i → f j = g j) :
    (∑ j ∈ Finset.range n, f j) + g i = (∑ j ∈ Finset.range n, g j) + f i := by
  have hmem : i ∈ Finset.range n := Finset.mem_range.mpr hi
  have hrest : ∑ j ∈ (Finset.range n).erase i, f j = ∑ j ∈ (Finset.range n).erase i, g j :=
    Finset.sum_congr rfl fun j hj => h j (Finset.ne_of_mem_erase hj)
  rw [← Finset.add_sum_erase _ f hmem, ← Finset.add_sum_erase _ g hmem, hrest]
  omega

/-- Lists kept by components, taken together, change by what the one that moves changes. -/
theorem perm_flatMap_replace {β : Type*} {f g : ℕ → List β} {n i : ℕ} (hi : i < n)
    (h : ∀ j, j ≠ i → f j = g j) :
    ((List.range n).flatMap f ++ g i).Perm ((List.range n).flatMap g ++ f i) := by
  have swap : ∀ a b c : List β, (a ++ b ++ c).Perm (a ++ c ++ b) := by
    intro a b c
    rw [List.append_assoc, List.append_assoc]
    exact List.perm_append_comm.append_left a
  induction n with
  | zero => omega
  | succ n ih =>
    simp only [List.range_succ, List.flatMap_append, List.flatMap_singleton]
    by_cases hn : i = n
    · -- the component that moves is the last one, the others are as before
      have hrest : (List.range n).flatMap f = (List.range n).flatMap g := by
        apply List.flatMap_congr
        intro j hj
        apply h
        have := List.mem_range.mp hj
        omega
      rw [hrest, hn]
      exact swap _ _ _
    · rw [h n (Ne.symm hn)]
      exact (swap _ _ _).trans (((ih (by omega)).append_right _).trans (swap _ _ _))

end Runs
