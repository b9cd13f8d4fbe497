/-
# Blocks of a fixed size

Cutting a run of positions `[0, size)` into blocks of `D`: how many blocks there are,
how many of them an interval meets, and how both numbers change when the interval is
cut at the next block boundary.  The last section is the same cut on lists.
-/
import Mathlib

namespace Blocks

/-! ## Counting blocks -/

/-- The number of blocks of `D` that the interval `[off, off + len)` meets. -/
def blocksMet (D off len : ℕ) : ℕ :=
  if len = 0 then 0 else (off + len - 1) / D - off / D + 1

@[simp] theorem blocksMet_zero (D off : ℕ) : blocksMet D off 0 = 0 := by
  simp [blocksMet]

/-- An interval ends in the block it starts in, or reaches the next boundary. -/
theorem cut_cases (off : ℕ) {D len : ℕ} (hD : 0 < D) (hl : 0 < len) :
    (len ≤ D - off % D ∧ (off + len - 1) / D = off / D) ∨
      (D - off % D < len ∧ (off + (D - off % D)) / D = off / D + 1 ∧
        off / D + 1 ≤ (off + len - 1) / D) := by
  have hdm := Nat.div_add_mod off D
  have hmod := Nat.mod_lt off hD
  rw [Nat.mul_comm] at hdm
  rcases Nat.lt_or_ge (D - off % D) len with hlt | hle
  · right
    have hnext : off + (D - off % D) = (off / D + 1) * D := by
      rw [Nat.succ_mul]
      omega
    refine ⟨hlt, by rw [hnext, Nat.mul_div_cancel _ hD], ?_⟩
    rw [Nat.le_div_iff_mul_le hD]
    omega
  · left
    refine ⟨hle, Nat.div_eq_of_lt_le (by omega) ?_⟩
    rw [Nat.succ_mul]
    omega

/-- The block the interval starts in, and the blocks behind the next boundary. -/
theorem blocksMet_cut (off : ℕ) {D len : ℕ} (hD : 0 < D) (hl : 0 < len) :
    blocksMet D off len = 1 + blocksMet D (off + min (D - off % D) len)
      (len - min (D - off % D) len) := by
  rcases cut_cases off hD hl with ⟨hle, hq⟩ | ⟨hlt, hq, hle⟩
  · rw [Nat.min_eq_right hle, Nat.sub_self, blocksMet_zero, blocksMet, if_neg (by omega), hq]
    omega
  · rw [Nat.min_eq_left hlt.le, blocksMet, blocksMet, if_neg (by omega), if_neg (by omega), hq,
      show off + (D - off % D) + (len - (D - off % D)) - 1 = off + len - 1 by omega]
    omega

/-- Whether the interval `[off, off + len)` meets block `k`, as a count. -/
def meets (D off len k : ℕ) : ℕ :=
  if 0 < len ∧ off / D ≤ k ∧ k ≤ (off + len - 1) / D then 1 else 0

@[simp] theorem meets_zero (D off k : ℕ) : meets D off 0 k = 0 := by
  simp [meets]

/-- An interval meets the block it starts in, and those behind the next boundary. -/
theorem meets_cut (off k : ℕ) {D len : ℕ} (hD : 0 < D) (hl : 0 < len) :
    meets D off len k = (if k = off / D then 1 else 0)
      + meets D (off + min (D - off % D) len) (len - min (D - off % D) len) k := by
  rcases cut_cases off hD hl with ⟨hle, hq⟩ | ⟨hlt, hq, hle⟩
  · rw [Nat.min_eq_right hle, Nat.sub_self, meets_zero, meets, hq]
    split_ifs <;> omega
  · rw [Nat.min_eq_left hlt.le, meets, meets, hq,
      show off + (D - off % D) + (len - (D - off % D)) - 1 = off + len - 1 by omega]
    split_ifs <;> omega

/-- The number of blocks is pinned by its two bounds. -/
theorem eq_ceil_of_bounds {D size q : ℕ} (hD : 0 < D) (hlo : size ≤ q * D)
    (hhi : q * D < size + D) : (size + D - 1) / D = q := by
  apply Nat.div_eq_of_lt_le
  · omega
  · rw [Nat.succ_mul]
    omega

/-- The bounds of the number of blocks. -/
theorem ceil_bounds (D size : ℕ) (hD : 0 < D) :
    size ≤ (size + D - 1) / D * D ∧ (size + D - 1) / D * D < size + D := by
  have hdm := Nat.div_add_mod (size + D - 1) D
  have hmod := Nat.mod_lt (size + D - 1) hD
  rw [Nat.mul_comm] at hdm
  omega

/-! ## The same cut on lists -/

variable {α : Type*}

/-- Positions `[a, b)` of a list. -/
def slice (l : List α) (a b : ℕ) : List α := (l.take b).drop a

@[simp] theorem length_slice (l : List α) (a b : ℕ) :
    (slice l a b).length = min b l.length - a := by
  simp [slice]

/-- What remains of a prefix after a shorter prefix is a slice. -/
theorem eq_slice_of_append {l x y : List α} {a b : ℕ} (hx : x = l.take a)
    (ha : a ≤ l.length) (h : x ++ y = l.take b) : y = slice l a b := by
  have hlen : x.length = a := by
    rw [hx, List.length_take, Nat.min_eq_left ha]
  rw [slice, ← h, List.drop_left' hlen]

/-- The slices between consecutive multiples of `D` concatenate to the prefix they
cover. -/
theorem flatMap_slice (l : List α) (D n : ℕ) :
    (List.range n).flatMap (fun k => slice l (k * D) ((k + 1) * D)) = l.take (n * D) := by
  induction n with
  | zero => simp
  | succ n ih =>
    rw [List.range_succ, List.flatMap_append, ih]
    simp only [slice, List.flatMap_cons, List.flatMap_nil, List.append_nil]
    have hle : n * D ≤ (n + 1) * D := Nat.mul_le_mul_right D (Nat.le_succ n)
    have hmin : l.take (n * D) = (l.take ((n + 1) * D)).take (n * D) := by
      rw [List.take_take, Nat.min_eq_left hle]
    rw [hmin, List.take_append_drop]

end Blocks
