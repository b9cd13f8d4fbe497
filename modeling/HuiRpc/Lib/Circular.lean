/-
# Rings that are filled in order

A ring of `R` cells into which the items `0, 1, 2, …` are written one after the other, item `w`
into cell `w % R`.

* `Keeps R ring n` — the ring after `n` writes; `Keeps.eq_iff` says which items are still
  there;
* `chain R first last` — the cells from `first` to `last` along a circular list; `chain_eq`
  says that `t ≤ R` cells in a row are the next `t` items' cells;
* `links R` — the links of a circular list of all cells, and `follow` the cells that links lead
  to; `follow_links_cut` says that they lead through cells in a row when they are cut behind the
  last one.
-/
import HuiRpc.Lib.Runs

namespace Circular

open Runs

variable {R n w : ℕ} {ring : ℕ → ℕ}

/-- The last `R` of `n` items are in their cells. -/
def Keeps (R : ℕ) (ring : ℕ → ℕ) (n : ℕ) : Prop :=
  ∀ w, w < n → n ≤ w + R → ring (w % R) = w

theorem Keeps.zero (R : ℕ) (ring : ℕ → ℕ) : Keeps R ring 0 :=
  fun _ hw => absurd hw (Nat.not_lt_zero _)

/-- Fewer than `R` items in a row have different cells. -/
theorem eq_of_mod_eq (h : w % R = n % R) (hle : w ≤ n) (hlt : n < w + R) : w = n := by
  obtain ⟨q, hq⟩ : R ∣ n - w := (Nat.modEq_iff_dvd' hle).mp h
  rcases q with _ | q
  · omega
  · have : R ≤ R * (q + 1) := Nat.le_mul_of_pos_right R (Nat.succ_pos q)
    omega

/-- The next write only hits the cell of an item that is `R` items old. -/
theorem Keeps.write (h : Keeps R ring n) : Keeps R (Function.update ring (n % R) n) (n + 1) := by
  intro w hw hle
  by_cases hwn : w = n
  · rw [hwn, Function.update_self]
  · have hne : w % R ≠ n % R := fun heq => hwn (eq_of_mod_eq heq (by omega) (by omega))
    rw [Function.update_of_ne hne]
    exact h w (by omega) (by omega)

/-- **An item is in its cell exactly as long as fewer than `R` items came after it.** -/
theorem Keeps.eq_iff (h : Keeps R ring n) (hR : 0 < R) (hw : w < n) :
    ring (w % R) = w ↔ n ≤ w + R := by
  refine ⟨?_, h w hw⟩
  intro heq
  by_contra hlt
  -- the item that is in the cell now
  set v := w + R * ((n - 1 - w) / R) with hv
  have hdiv := Nat.div_add_mod (n - 1 - w) R
  have hmod := Nat.mod_lt (n - 1 - w) hR
  have hcell : v % R = w % R := Nat.add_mul_mod_self_left w R _
  have hnow := h v (by omega) (by omega)
  rw [hcell, heq] at hnow
  omega

/-- The cells from `first` to `last`, both included. -/
def chain (R first last : ℕ) : List ℕ :=
  if first ≤ last then List.range' first (last + 1 - first)
  else List.range' first (R - first) ++ List.range (last + 1)

/-- The index of the last of `t` cells in a row. -/
def lastOf (R first t : ℕ) : ℕ :=
  if R ≤ first + (t - 1) then first + (t - 1) - R else first + (t - 1)

theorem mod_add_of_lt {a j : ℕ} (h : a % R + j < R) : (a + j) % R = a % R + j := by
  rw [Nat.add_mod, Nat.mod_eq_of_lt (show j < R by omega), Nat.mod_eq_of_lt h]

theorem mod_add_of_le {a j : ℕ} (hR : 0 < R) (hj : j < R) (h : R ≤ a % R + j) :
    (a + j) % R = a % R + j - R := by
  have hmod := Nat.mod_lt a hR
  rw [Nat.add_mod, Nat.mod_eq_of_lt hj, Nat.mod_eq_sub_mod h, Nat.mod_eq_of_lt (by omega)]

/-- An index that is set back to 0 at the end of the ring. -/
theorem wrap_succ (a : ℕ) (hR : 0 < R) :
    (if a % R + 1 = R then 0 else a % R + 1) = (a + 1) % R := by
  have hmod := Nat.mod_lt a hR
  rw [← Nat.mod_add_mod a R 1]
  split_ifs with h
  · rw [h, Nat.mod_self]
  · exact (Nat.mod_eq_of_lt (by omega)).symm

/-- Cells in a row depend on the first cell only. -/
theorem seg_mod_congr {a b : ℕ} (h : a % R = b % R) (t : ℕ) :
    seg (· % R) a (a + t) = seg (· % R) b (b + t) := by
  rw [seg_eq_map_range, seg_eq_map_range, Nat.add_sub_cancel_left, Nat.add_sub_cancel_left]
  apply List.map_congr_left
  intro j _
  exact Nat.ModEq.add_right j h

theorem lastOf_succ (a : ℕ) {t : ℕ} (ht : 0 < t) :
    (lastOf R (a % R) t + 1) % R = (a + t) % R := by
  unfold lastOf
  have hsum : (a % R + t) % R = (a + t) % R := by
    rw [Nat.add_mod, Nat.mod_mod, ← Nat.add_mod]
  split_ifs with h
  · rw [show a % R + (t - 1) - R + 1 = a % R + t - R by omega,
      ← Nat.mod_eq_sub_mod (by omega), hsum]
  · rw [show a % R + (t - 1) + 1 = a % R + t by omega, hsum]

/-- **The chain of `t` cells from item `a` on.** -/
theorem chain_eq (a : ℕ) {t : ℕ} (hR : 0 < R) (ht : 0 < t) (hle : t ≤ R) :
    chain R (a % R) (lastOf R (a % R) t) = seg (· % R) a (a + t) := by
  have hmod := Nat.mod_lt a hR
  rw [seg_eq_map_range, Nat.add_sub_cancel_left]
  unfold chain lastOf
  by_cases hwrap : R ≤ a % R + (t - 1)
  · -- the chain goes past the end of the ring
    have hsplit : t = (R - a % R) + (a % R + t - R) := by omega
    rw [if_pos hwrap, if_neg (by omega), show a % R + (t - 1) - R + 1 = a % R + t - R by omega]
    conv_rhs => rw [hsplit, List.range_add, List.map_append]
    congr 1
    · rw [List.range'_eq_map_range]
      apply List.map_congr_left
      intro j hj
      rw [List.mem_range] at hj
      exact (mod_add_of_lt (by omega)).symm
    · rw [List.map_map]
      refine (List.map_id _).symm.trans (List.map_congr_left ?_)
      intro j hj
      rw [List.mem_range] at hj
      show j = (a + (R - a % R + j)) % R
      rw [mod_add_of_le hR (by omega) (by omega)]
      omega
  · rw [if_neg hwrap, if_pos (by omega), show a % R + (t - 1) + 1 - a % R = t by omega,
      List.range'_eq_map_range]
    apply List.map_congr_left
    intro j hj
    rw [List.mem_range] at hj
    exact (mod_add_of_lt (by omega)).symm

theorem lastOf_eq (a : ℕ) {t : ℕ} (hR : 0 < R) (hle : t ≤ R) :
    lastOf R (a % R) t = (a + (t - 1)) % R := by
  unfold lastOf
  split_ifs with h
  · exact (mod_add_of_le hR (by omega) h).symm
  · exact (mod_add_of_lt (by omega)).symm

/-! ## Circular lists -/

/-- The links of a circular list of `R` cells. -/
def links (R : ℕ) : ℕ → Option ℕ := fun i => some (if i < R - 1 then i + 1 else 0)

/-- The cells from `i` on that links lead to; `none` if they have not ended after `fuel` cells. -/
def follow (next : ℕ → Option ℕ) : ℕ → ℕ → Option (List ℕ)
  | 0, _ => none
  | fuel + 1, i =>
      match next i with
      | none => some [i]
      | some j => (follow next fuel j).map (i :: ·)

theorem links_mod (a : ℕ) (hR : 0 < R) : links R (a % R) = some ((a + 1) % R) := by
  have hmod := Nat.mod_lt a hR
  unfold links
  congr 1
  rw [← Nat.mod_add_mod a R 1]
  split_ifs with h
  · exact (Nat.mod_eq_of_lt (by omega)).symm
  · rw [show a % R + 1 = R by omega, Nat.mod_self]

/-- **Cells in a row.**  The links are cut behind the cell of item `a + t`. -/
theorem follow_links_cut (a : ℕ) {t fuel : ℕ} (hR : 0 < R) (ht : t < R) (hfuel : t < fuel) :
    follow (Function.update (links R) ((a + t) % R) none) fuel (a % R)
      = some (seg (· % R) a (a + t + 1)) := by
  induction t generalizing a fuel with
  | zero =>
    obtain ⟨f, rfl⟩ : ∃ f, fuel = f + 1 := ⟨fuel - 1, by omega⟩
    rw [follow, Nat.add_zero, Function.update_self, seg_cons _ (Nat.lt_succ_self a), seg_self]
  | succ t ih =>
    obtain ⟨f, rfl⟩ : ∃ f, fuel = f + 1 := ⟨fuel - 1, by omega⟩
    have hne : a % R ≠ (a + (t + 1)) % R := by
      intro heq
      have := eq_of_mod_eq heq (Nat.le_add_right _ _) (by omega)
      omega
    have hstep := @ih (a + 1) f (by omega) (by omega)
    rw [show a + 1 + t = a + (t + 1) by omega] at hstep
    rw [follow, Function.update_of_ne hne, links_mod a hR]
    dsimp only
    rw [hstep, Option.map_some, seg_cons _ (show a < a + (t + 1) + 1 by omega)]

end Circular
