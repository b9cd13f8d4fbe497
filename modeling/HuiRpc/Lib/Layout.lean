/-
# Objects in a byte-addressed memory

Numbers of a fixed width as bytes, the lowest first, and the bytes of an object at its address.

* `ofLe_leBytes` — what was written as `w` bytes is read back, up to the width;
* `load_add`, `load_eq_append` — the bytes of an object are those of its parts, one after the other;
* `store_of_notMem`, `load_congr` — a store changes its own bytes only.
-/
import Mathlib

namespace Layout

variable {m m' : ℕ → UInt8} {a n w v : ℕ} {bs cs : List UInt8}

/-- The `w` low bytes of a number. -/
def leBytes : ℕ → ℕ → List UInt8
  | 0, _ => []
  | w + 1, v => UInt8.ofNat v :: leBytes w (v / 256)

def ofLe : List UInt8 → ℕ
  | [] => 0
  | b :: bs => b.toNat + 256 * ofLe bs

@[simp] theorem length_leBytes (w v : ℕ) : (leBytes w v).length = w := by
  induction w generalizing v with
  | zero => rfl
  | succ w ih => rw [leBytes, List.length_cons, ih]

theorem ofLe_leBytes (w v : ℕ) : ofLe (leBytes w v) = v % 256 ^ w := by
  induction w generalizing v with
  | zero => rw [pow_zero, Nat.mod_one]; rfl
  | succ w ih =>
    have hbyte : (UInt8.ofNat v).toNat = v % 256 := UInt8.toNat_ofNat'
    rw [leBytes, ofLe, ih, hbyte, pow_succ', Nat.mod_mul]

/-- The `n` bytes at the address `a`. -/
def load (m : ℕ → UInt8) (a n : ℕ) : List UInt8 := (List.range' a n).map m

@[simp] theorem length_load (m : ℕ → UInt8) (a n : ℕ) : (load m a n).length = n := by
  simp [load]

theorem load_add (m : ℕ → UInt8) (a n k : ℕ) :
    load m a (n + k) = load m a n ++ load m (a + n) k := by
  unfold load
  rw [← List.map_append, List.range'_append_1]

theorem load_congr (h : ∀ x, a ≤ x → x < a + n → m x = m' x) : load m a n = load m' a n := by
  apply List.map_congr_left
  intro x hx
  rw [List.mem_range'_1] at hx
  exact h x hx.1 hx.2

/-- The first part of an object and the rest. -/
theorem load_eq_append (h : load m a n = bs ++ cs) :
    load m a bs.length = bs ∧ load m (a + bs.length) cs.length = cs := by
  have hlen : n = bs.length + cs.length := by
    have := congrArg List.length h
    rwa [length_load, List.length_append] at this
  rw [hlen, load_add] at h
  exact List.append_inj h (length_load ..)

/-- Bytes `bs` are stored at the address `a`. -/
def store (m : ℕ → UInt8) (a : ℕ) (bs : List UInt8) : ℕ → UInt8 :=
  fun x => if a ≤ x ∧ x < a + bs.length then bs.getD (x - a) 0 else m x

theorem store_of_notMem (m : ℕ → UInt8) {x : ℕ} (h : x < a ∨ a + bs.length ≤ x) :
    store m a bs x = m x := by
  unfold store
  rw [if_neg]
  omega

/-- The number in `w` bytes at the address `a`. -/
def num (m : ℕ → UInt8) (a w : ℕ) : ℕ := ofLe (load m a w)

theorem num_eq (h : load m a w = leBytes w v) (hv : v < 256 ^ w) : num m a w = v := by
  unfold num
  rw [h, ofLe_leBytes, Nat.mod_eq_of_lt hv]

/-- A number at the beginning of an object, and the rest. -/
theorem num_of_append (h : load m a n = leBytes w v ++ cs) (hv : v < 256 ^ w) :
    num m a w = v ∧ load m (a + w) cs.length = cs := by
  obtain ⟨hfirst, hrest⟩ := load_eq_append h
  rw [length_leBytes] at hfirst hrest
  exact ⟨num_eq hfirst hv, hrest⟩

end Layout
