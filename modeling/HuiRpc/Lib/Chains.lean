/-
# Chains of linked nodes

Nodes are numbers and `next` gives the successor of a node.  `Path next r l` says that the nodes
after `r` are those of `l`, in this order, and that the chain ends there.  A `Family` is a set of
chains that start at the nodes `0, …, n - 1`, with a list of free nodes beside them; no node is in
two places, so no chain is cyclic and no two chains meet.

* `walk` — a search along a chain, which ends by `walk_spec`;
* `Family.extend` — a free node is linked behind the last node of a chain;
* `Family.release` — the nodes behind the first node of a chain are set free;
* `Family.grow` — new nodes become free;
* `Family.length_le` — a chain is no longer than the number of nodes.
-/
import Mathlib
import HuiRpc.Lib.Runs

namespace Chains

variable {next next' : ℕ → Option ℕ} {r s : ℕ} {l : List ℕ}

/-- From `r` on, `next` leads through the nodes of `l` and then ends. -/
def Path (next : ℕ → Option ℕ) : ℕ → List ℕ → Prop
  | r, [] => next r = none
  | r, s :: l => next r = some s ∧ Path next s l

/-- The last node of a chain. -/
def tip (r : ℕ) (l : List ℕ) : ℕ := l.getLastD r

@[simp] theorem tip_nil (r : ℕ) : tip r [] = r := rfl

@[simp] theorem tip_cons (r s : ℕ) (l : List ℕ) : tip r (s :: l) = tip s l :=
  List.getLastD_cons ..

@[simp] theorem tip_append_singleton (r s : ℕ) (l : List ℕ) : tip r (l ++ [s]) = s := by
  simp [tip]

theorem tip_mem (r : ℕ) (l : List ℕ) : tip r l ∈ r :: l := by
  induction l generalizing r with
  | nil => simp
  | cons s l ih =>
    rw [tip_cons]
    exact List.mem_cons_of_mem r (ih s)

/-- A path depends on the links of its own nodes only. -/
theorem Path.congr (h : Path next r l) (hn : ∀ x ∈ r :: l, next' x = next x) : Path next' r l := by
  induction l generalizing r with
  | nil => exact (hn r (by simp)).trans h
  | cons s l ih =>
    refine ⟨(hn r (by simp)).trans h.1, ih h.2 fun x hx => ?_⟩
    exact hn x (List.mem_cons_of_mem r hx)

/-- A new node is linked behind the last one. -/
theorem Path.snoc (h : Path next r l) (hnd : (r :: l).Nodup) (htip : next' (tip r l) = some s)
    (hs : next' s = none) (hrest : ∀ x ∈ r :: l, x ≠ tip r l → next' x = next x) :
    Path next' r (l ++ [s]) := by
  induction l generalizing r with
  | nil => exact ⟨htip, hs⟩
  | cons t l ih =>
    rw [tip_cons] at htip hrest
    have hr : r ≠ tip t l := by
      rintro rfl
      exact (List.nodup_cons.mp hnd).1 (tip_mem t l)
    refine ⟨(hrest r (by simp) hr).trans h.1, ?_⟩
    exact ih h.2 (List.nodup_cons.mp hnd).2 htip fun x hx => hrest x (List.mem_cons_of_mem r hx)

/-! ## Searches -/

/-- Follow the links until `look` finds something, and take `last` of the last node if it does
not. -/
def walk {β : Type*} (next : ℕ → Option ℕ) (look : ℕ → Option β) (last : ℕ → β) :
    ℕ → ℕ → Option β
  | 0, _ => none
  | fuel + 1, r =>
    match look r with
    | some x => some x
    | none =>
      match next r with
      | none => some (last r)
      | some s => walk next look last fuel s

/-- A search along a chain ends. -/
theorem walk_spec {β : Type*} {look : ℕ → Option β} {last : ℕ → β} {fuel : ℕ} (h : Path next r l)
    (hfuel : (r :: l).length ≤ fuel) :
    (∃ s ∈ r :: l, ∃ x, look s = some x ∧ walk next look last fuel r = some x) ∨
    ((∀ s ∈ r :: l, look s = none) ∧ walk next look last fuel r = some (last (tip r l))) := by
  induction l generalizing r fuel with
  | nil =>
    obtain ⟨fuel, rfl⟩ : ∃ f, fuel = f + 1 := ⟨fuel - 1, by simp at hfuel; omega⟩
    have hnext : next r = none := h
    cases hlook : look r with
    | some x => exact Or.inl ⟨r, by simp, x, hlook, by simp [walk, hlook]⟩
    | none => exact Or.inr ⟨by simpa using hlook, by simp [walk, hlook, hnext]⟩
  | cons t l ih =>
    obtain ⟨fuel, rfl⟩ : ∃ f, fuel = f + 1 := ⟨fuel - 1, by simp at hfuel; omega⟩
    have hnext : next r = some t := h.1
    cases hlook : look r with
    | some x => exact Or.inl ⟨r, by simp, x, hlook, by simp [walk, hlook]⟩
    | none =>
      have hwalk : walk next look last (fuel + 1) r = walk next look last fuel t := by
        simp [walk, hlook, hnext]
      rw [hwalk, tip_cons]
      rcases ih h.2 (Nat.le_of_succ_le_succ hfuel) with ⟨s, hs, hfound⟩ | ⟨hno, hend⟩
      · exact Or.inl ⟨s, List.mem_cons_of_mem r hs, hfound⟩
      · refine Or.inr ⟨fun s hs => ?_, hend⟩
        rcases List.mem_cons.mp hs with rfl | hs
        · exact hlook
        · exact hno s hs

/-! ## Families of chains -/

/-- The nodes of the chains that start at `0, …, n - 1` and go on with `tail`. -/
def nodes (n : ℕ) (tail : ℕ → List ℕ) : List ℕ := (List.range n).flatMap fun i => i :: tail i

theorem mem_nodes {n : ℕ} {tail : ℕ → List ℕ} {x : ℕ} :
    x ∈ nodes n tail ↔ ∃ i < n, x ∈ i :: tail i := by
  simp [nodes]

/-- One of the chains gets another tail. -/
theorem nodes_update {n i : ℕ} (tail : ℕ → List ℕ) (hi : i < n) (t : List ℕ) :
    (nodes n (Function.update tail i t) ++ tail i).Perm (nodes n tail ++ t) := by
  have h := Runs.perm_flatMap_replace (f := fun j => j :: Function.update tail i t j)
    (g := fun j => j :: tail j) hi fun j hj => by rw [Function.update_of_ne hj]
  rw [Function.update_self] at h
  -- both sides still have the first node of the chain in the middle
  exact (List.perm_cons i).mp (List.perm_middle.symm.trans (h.trans List.perm_middle))

/-- Chains and free nodes, no node in two places, all below `bound`. -/
structure Family (next : ℕ → Option ℕ) (n : ℕ) (tail : ℕ → List ℕ) (free : List ℕ)
    (bound : ℕ) : Prop where
  path : ∀ i < n, Path next i (tail i)
  nodup : (nodes n tail ++ free).Nodup
  lt_bound : ∀ x ∈ nodes n tail ++ free, x < bound

namespace Family

variable {n i j x bound : ℕ} {tail : ℕ → List ℕ} {free : List ℕ}

/-- The chains of single nodes. -/
theorem start (hnext : ∀ i < n, next i = none) (hn : n ≤ bound) :
    Family next n (fun _ => []) [] bound where
  path := hnext
  nodup := by
    simpa [nodes] using List.nodup_range
  lt_bound := by
    intro x hx
    rw [List.append_nil, mem_nodes] at hx
    obtain ⟨i, hi, hx⟩ := hx
    rw [List.mem_singleton.mp hx]
    omega

theorem chain_nodup (h : Family next n tail free bound) (hi : i < n) : (i :: tail i).Nodup := by
  have hall := (List.nodup_flatMap.mp (List.nodup_append.mp h.nodup).1).1
  exact hall i (List.mem_range.mpr hi)

/-- A node lies in one chain only. -/
theorem eq_of_mem (h : Family next n tail free bound) (hi : i < n) (hj : j < n)
    (hxi : x ∈ i :: tail i) (hxj : x ∈ j :: tail j) : i = j := by
  by_contra hij
  have hdis := (List.nodup_flatMap.mp (List.nodup_append.mp h.nodup).1).2
  have : Std.Symm (Function.onFun List.Disjoint fun i => i :: tail i) := ⟨fun _ _ h => h.symm⟩
  exact hdis.forall (List.mem_range.mpr hi) (List.mem_range.mpr hj) hij hxi hxj

theorem notMem_free (h : Family next n tail free bound) (hi : i < n) (hx : x ∈ i :: tail i) :
    x ∉ free := by
  intro hfree
  exact (List.nodup_append.mp h.nodup).2.2 x (mem_nodes.mpr ⟨i, hi, hx⟩) x hfree rfl

/-- A chain has no more nodes than there are. -/
theorem length_le (h : Family next n tail free bound) (hi : i < n) :
    (i :: tail i).length ≤ bound := by
  have hsub : (i :: tail i) ⊆ List.range bound := by
    intro x hx
    exact List.mem_range.mpr
      (h.lt_bound x (List.mem_append_left free (mem_nodes.mpr ⟨i, hi, hx⟩)))
  have hle := ((h.chain_nodup hi).subperm hsub).length_le
  rwa [List.length_range] at hle

/-- A free node is linked behind the last node of a chain. -/
theorem extend (h : Family next n tail (s :: free) bound) (hi : i < n)
    (htip : next' (tip i (tail i)) = some s) (hs : next' s = none)
    (hrest : ∀ x, x ≠ tip i (tail i) → x ≠ s → next' x = next x) :
    Family next' n (Function.update tail i (tail i ++ [s])) free bound := by
  have hne : ∀ j < n, ∀ x ∈ j :: tail j, x ≠ s := by
    rintro j hj x hx rfl
    exact h.notMem_free hj hx (List.mem_cons_self ..)
  have hperm : (nodes n (Function.update tail i (tail i ++ [s])) ++ free).Perm
      (nodes n tail ++ s :: free) := by
    have hnodes := nodes_update tail hi (tail i ++ [s])
    have hswap : (nodes n tail ++ (tail i ++ [s])).Perm (nodes n tail ++ [s] ++ tail i) := by
      rw [List.append_assoc]
      exact List.perm_append_comm.append_left _
    have hcancel := (List.perm_append_right_iff (tail i)).mp (hnodes.trans hswap)
    have hfree := hcancel.append_right free
    rwa [List.append_assoc] at hfree
  refine ⟨fun j hj => ?_, hperm.nodup_iff.mpr h.nodup,
    fun x hx => h.lt_bound x (hperm.mem_iff.mp hx)⟩
  by_cases hji : j = i
  · subst hji
    rw [Function.update_self]
    exact (h.path j hj).snoc (h.chain_nodup hj) htip hs
      fun x hx hxt => hrest x hxt (hne j hj x hx)
  · rw [Function.update_of_ne hji]
    refine (h.path j hj).congr fun x hx => hrest x ?_ (hne j hj x hx)
    rintro rfl
    exact hji (h.eq_of_mem hj hi hx (tip_mem i (tail i)))

/-- The nodes behind the first node of a chain are set free, in any order. -/
theorem release {back : List ℕ} (h : Family next n tail free bound) (hi : i < n)
    (hback : back.Perm (tail i)) (hhead : next' i = none)
    (hrest : ∀ x, x ∉ i :: tail i → next' x = next x) :
    Family next' n (Function.update tail i []) (back ++ free) bound := by
  have hperm : (nodes n (Function.update tail i []) ++ (back ++ free)).Perm
      (nodes n tail ++ free) := by
    have hnodes := nodes_update tail hi []
    rw [List.append_nil] at hnodes
    rw [← List.append_assoc]
    exact ((hback.append_left _).trans hnodes).append_right free
  refine ⟨fun j hj => ?_, hperm.nodup_iff.mpr h.nodup,
    fun x hx => h.lt_bound x (hperm.mem_iff.mp hx)⟩
  by_cases hji : j = i
  · subst hji
    rwa [Function.update_self]
  · rw [Function.update_of_ne hji]
    exact (h.path j hj).congr fun x hx => hrest x fun hxi => hji (h.eq_of_mem hj hi hx hxi)

/-- Nodes that were not there before become free. -/
theorem grow {fresh : List ℕ} {bound' : ℕ} (h : Family next n tail free bound)
    (hnd : fresh.Nodup) (hfresh : ∀ x ∈ fresh, bound ≤ x ∧ x < bound') (hb : bound ≤ bound') :
    Family next n tail (fresh ++ free) bound' := by
  have hperm : (nodes n tail ++ (fresh ++ free)).Perm (fresh ++ (nodes n tail ++ free)) := by
    rw [← List.append_assoc, ← List.append_assoc]
    exact List.perm_append_comm.append_right free
  refine ⟨h.path, hperm.nodup_iff.mpr ?_, fun x hx => ?_⟩
  · refine List.nodup_append.mpr ⟨hnd, h.nodup, ?_⟩
    rintro x hx y hy rfl
    have := (hfresh x hx).1
    have := h.lt_bound x hy
    omega
  · rcases List.mem_append.mp (hperm.mem_iff.mp hx) with hx | hx
    · exact (hfresh x hx).2
    · exact (h.lt_bound x hx).trans_le hb

/-- Links of nodes in no chain do not matter. -/
theorem congr (h : Family next n tail free bound)
    (hn : ∀ i < n, ∀ x ∈ i :: tail i, next' x = next x) : Family next' n tail free bound where
  path := fun i hi => (h.path i hi).congr (hn i hi)
  nodup := h.nodup
  lt_bound := h.lt_bound

end Family

end Chains
