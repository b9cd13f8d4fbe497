/-
# Ordered forests

A forest is a sequence of leaves and of trees, each tree a forest again.  The leaves of the
sequence itself are its *roots*, those inside trees are *deep*.

* `map`, `leaves`, `roots`, `deep` and how they commute;
* `mapDepth f g` : `f` on the roots and `g` on the deep leaves; it is `map f` exactly when the
  two functions agree on the deep leaves;
* `weave` : put a list of values in the place of the roots;
* `fill` : put a list of values in the place of all leaves, given the shape.
-/
import Mathlib

namespace Forests

variable {α β γ δ : Type*}

inductive Forest (α : Type*) where
  | nil
  | leaf (a : α) (rest : Forest α)
  | tree (sub rest : Forest α)
  deriving DecidableEq

namespace Forest

def map (f : α → β) : Forest α → Forest β
  | nil => nil
  | leaf a rest => leaf (f a) (rest.map f)
  | tree sub rest => tree (sub.map f) (rest.map f)

/-- All leaves, in order. -/
def leaves : Forest α → List α
  | nil => []
  | leaf a rest => a :: rest.leaves
  | tree sub rest => sub.leaves ++ rest.leaves

/-- The leaves outside of all trees. -/
def roots : Forest α → List α
  | nil => []
  | leaf a rest => a :: rest.roots
  | tree _ rest => rest.roots

/-- The leaves inside of trees. -/
def deep : Forest α → List α
  | nil => []
  | leaf _ rest => rest.deep
  | tree sub rest => sub.leaves ++ rest.deep

/-- One function on the roots, another one on the deep leaves. -/
def mapDepth (f g : α → β) : Forest α → Forest β
  | nil => nil
  | leaf a rest => leaf (f a) (rest.mapDepth f g)
  | tree sub rest => tree (sub.map g) (rest.mapDepth f g)

/-- The values of a list in the place of the roots, and `g` on everything else. -/
def weave (g : α → β) : Forest α → List β → Forest β
  | nil, _ => nil
  | leaf a rest, [] => leaf (g a) (rest.weave g [])
  | leaf _ rest, b :: bs => leaf b (rest.weave g bs)
  | tree sub rest, bs => tree (sub.map g) (rest.weave g bs)

/-- The values of a list in the place of all leaves, and the values left over. -/
def fill : Forest α → List β → Forest β × List β
  | nil, bs => (nil, bs)
  | leaf _ _, [] => (nil, [])
  | leaf _ rest, b :: bs => (leaf b (rest.fill bs).1, (rest.fill bs).2)
  | tree sub rest, bs =>
      (tree (sub.fill bs).1 (rest.fill (sub.fill bs).2).1, (rest.fill (sub.fill bs).2).2)

@[simp] theorem map_map (f : α → β) (g : β → γ) (t : Forest α) :
    (t.map f).map g = t.map fun a => g (f a) := by
  induction t with
  | nil => rfl
  | leaf a rest ih => simp only [map, ih]
  | tree sub rest ihs ih => simp only [map, ihs, ih]

@[simp] theorem leaves_map (f : α → β) (t : Forest α) : (t.map f).leaves = t.leaves.map f := by
  induction t with
  | nil => rfl
  | leaf a rest ih => simp only [map, leaves, ih, List.map_cons]
  | tree sub rest ihs ih => simp only [map, leaves, ihs, ih, List.map_append]

theorem roots_sublist_leaves (t : Forest α) : t.roots.Sublist t.leaves := by
  induction t with
  | nil => exact List.Sublist.refl _
  | leaf a rest ih => exact ih.cons_cons a
  | tree sub rest _ ih => exact ih.trans (List.sublist_append_right ..)

/-- Two functions have the same image of a forest if they agree on its leaves. -/
theorem map_eq_map_iff (f g : α → β) (t : Forest α) :
    t.map f = t.map g ↔ ∀ a ∈ t.leaves, f a = g a := by
  induction t with
  | nil => simp [map, leaves]
  | leaf a rest ih => simp only [map, leaves, leaf.injEq, ih, List.forall_mem_cons]
  | tree sub rest ihs ih => simp only [map, leaves, tree.injEq, ihs, ih, List.forall_mem_append]

/-- **Roots and deep leaves.** -/
theorem mapDepth_eq_map_iff (f g : α → β) (t : Forest α) :
    t.mapDepth f g = t.map f ↔ ∀ a ∈ t.deep, g a = f a := by
  induction t with
  | nil => simp [mapDepth, map, deep]
  | leaf a rest ih => simp only [mapDepth, map, deep, leaf.injEq, true_and, ih]
  | tree sub rest _ ih =>
    simp only [mapDepth, map, deep, tree.injEq, ih, map_eq_map_iff, List.forall_mem_append]

@[simp] theorem roots_mapDepth (f g : α → β) (t : Forest α) :
    (t.mapDepth f g).roots = t.roots.map f := by
  induction t with
  | nil => rfl
  | leaf a rest ih => simp only [mapDepth, roots, ih, List.map_cons]
  | tree sub rest _ ih => simp only [mapDepth, roots, ih]

theorem map_mapDepth (f g : α → β) (h : β → γ) (t : Forest α) :
    (t.mapDepth f g).map h = t.mapDepth (fun a => h (f a)) fun a => h (g a) := by
  induction t with
  | nil => rfl
  | leaf a rest ih => simp only [mapDepth, map, ih]
  | tree sub rest _ ih => simp only [mapDepth, map, map_map, ih]

/-- What a forest shows whose roots were replaced: the list at the roots, the old values
below. -/
theorem map_weave (f : α → δ) (p q : α → β) (g : β → γ) (h : γ → δ) (t : Forest α)
    (cs : List γ) (hcs : cs.map h = t.roots.map f) :
    ((t.mapDepth p q).weave g cs).map h = t.mapDepth f fun a => h (g (q a)) := by
  induction t generalizing cs with
  | nil => rfl
  | leaf a rest ih =>
    cases cs with
    | nil => simp [roots] at hcs
    | cons c cs =>
      simp only [roots, List.map_cons, List.cons.injEq] at hcs
      simp only [mapDepth, weave, map, ih cs hcs.2, hcs.1]
  | tree sub rest _ ih => simp only [mapDepth, weave, map, map_map, ih cs hcs]

/-- A forest is filled with its own leaves. -/
theorem fill_map_leaves (k : α → γ) (t : Forest α) (rest : List α) :
    (t.map k).fill (t.leaves ++ rest) = (t, rest) := by
  induction t generalizing rest with
  | nil => rfl
  | leaf a r ih => simp only [map, leaves, List.cons_append, fill, ih]
  | tree sub r ihs ih => simp only [map, leaves, List.append_assoc, fill, ihs, ih]

end Forest

end Forests
