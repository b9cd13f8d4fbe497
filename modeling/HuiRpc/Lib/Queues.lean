/-
# Intrusive lists and queues that are compacted in place

Two ways to keep elements in a row.

A doubly linked list keeps its links in the nodes, between two nodes that are always there.
`IsList h r t xs` says that the links of `h` lead from `r` through the nodes of `xs` to `t` and
back.

* `IsList.insertBefore` — a node that is not in the list is linked in front of `t`;
* `IsList.unlink` — a node of the list is taken out, wherever it stands;
* `Seg.walk`, `Seg.reverse` — following the links lists the nodes, in either direction;
* `IsList.unique` — the links determine the list.

A queue in an array is swept by one loop that looks at every element and writes those that stay
back to the front of the same array.

* `Swept` — what a sweep does: every element has its turn and either stays or does not;
* `Swept.sweep` — the loop does just that, although it overwrites what it reads.
-/
import Mathlib

namespace Queues

/-! ## Links -/

variable {α : Type*}

/-- The two links of every node; `none` is the null pointer. -/
structure Links (α : Type*) where
  next : α → Option α
  prev : α → Option α

section Lists

variable [DecidableEq α] {h h' : Links α} {r t x : α} {xs l m : List α}

/-- Link `x` in front of `t`. -/
def Links.insertBefore (h : Links α) (t x : α) : Option (Links α) :=
  (h.prev t).map fun p =>
    { next := Function.update (Function.update h.next p (some x)) x (some t)
      prev := Function.update (Function.update h.prev x (some p)) t (some x) }

/-- Take `x` out.  The second assignment reads the links of `x` again. -/
def Links.unlink (h : Links α) (x : α) : Option (Links α) :=
  (h.prev x).bind fun p =>
    let next := Function.update h.next p (h.next x)
    (next x).map fun n => ⟨next, Function.update h.prev n (h.prev x)⟩

/-- The links lead from `a` through the nodes of the list, and back. -/
def Seg (h : Links α) : α → List α → Prop
  | _, [] => True
  | a, b :: l => h.next a = some b ∧ h.prev b = some a ∧ Seg h b l

omit [DecidableEq α] in
/-- A segment is cut at any of its nodes. -/
theorem seg_append {a b : α} : Seg h a (l ++ b :: m) ↔
    Seg h a l ∧ h.next (l.getLastD a) = some b ∧ h.prev b = some (l.getLastD a) ∧ Seg h b m := by
  induction l generalizing a with
  | nil => simp [Seg]
  | cons c l ih =>
    rw [List.cons_append, Seg, Seg, ih, List.getLastD_cons]
    constructor
    · rintro ⟨h1, h2, h3, h4⟩
      exact ⟨⟨h1, h2, h3⟩, h4⟩
    · rintro ⟨⟨h1, h2, h3⟩, h4⟩
      exact ⟨h1, h2, h3, h4⟩

omit [DecidableEq α] in
/-- A segment depends on the links between its nodes only. -/
theorem Seg.congr {a : α} (hs : Seg h a l) (hnext : ∀ b ∈ (a :: l).dropLast, h'.next b = h.next b)
    (hprev : ∀ b ∈ l, h'.prev b = h.prev b) : Seg h' a l := by
  induction l generalizing a with
  | nil => trivial
  | cons b l ih =>
    obtain ⟨h1, h2, h3⟩ := hs
    refine ⟨?_, ?_, ?_⟩
    · rw [hnext a (by simp), h1]
    · rw [hprev b (by simp), h2]
    · apply ih h3
      · intro c hc
        apply hnext
        rw [List.dropLast_cons_cons]
        exact List.mem_cons_of_mem _ hc
      · intro c hc
        exact hprev c (List.mem_cons_of_mem _ hc)

omit [DecidableEq α] in
/-- In a list without repetition the last node is not among the others. -/
theorem ne_last_of_mem_dropLast {a b : α} (hnd : (a :: l).Nodup) (hb : b ∈ (a :: l).dropLast) :
    b ≠ l.getLastD a := by
  rintro rfl
  have hlast : (a :: l).dropLast ++ [l.getLastD a] = a :: l := by
    rw [← List.getLast_eq_getLastD (List.cons_ne_nil _ _), List.dropLast_append_getLast]
  rw [← hlast] at hnd
  exact (List.nodup_append.mp hnd).2.2 _ hb _ (List.mem_singleton_self _) rfl

/-- A list between `r` and `t`. -/
structure IsList (h : Links α) (r t : α) (xs : List α) : Prop where
  nodup : (r :: xs ++ [t]).Nodup
  seg : Seg h r (xs ++ [t])

omit [DecidableEq α] in
theorem IsList.nodup_mid (hl : IsList h r t xs) : xs.Nodup :=
  (List.nodup_cons.mp (List.nodup_append.mp hl.nodup).1).2

omit [DecidableEq α] in
theorem IsList.root_notMem (hl : IsList h r t xs) : r ∉ xs :=
  (List.nodup_cons.mp (List.nodup_append.mp hl.nodup).1).1

omit [DecidableEq α] in
theorem IsList.tail_notMem (hl : IsList h r t xs) : t ∉ xs := fun hm =>
  (List.nodup_append.mp hl.nodup).2.2 t (List.mem_cons_of_mem _ hm) t (List.mem_singleton_self t) rfl

/-- Follow the links from `a` up to `stop`; `none` is a null pointer or a walk that is too long. -/
def walk (link : α → Option α) (stop : α) : ℕ → α → Option (List α)
  | 0, _ => none
  | fuel + 1, a => (link a).bind fun b =>
      if b = stop then some [] else (walk link stop fuel b).map (b :: ·)

/-- A walk along the links of a segment. -/
theorem Seg.walk {a : α} {n : ℕ} (hs : Seg h a (xs ++ [t])) (ht : t ∉ xs) (hn : xs.length < n) :
    walk h.next t n a = some xs := by
  induction xs generalizing a n with
  | nil =>
    obtain ⟨n, rfl⟩ := Nat.exists_eq_add_of_lt hn
    rw [Queues.walk, hs.1, Option.bind_some, if_pos rfl]
  | cons x xs ih =>
    obtain ⟨n, rfl⟩ := Nat.exists_eq_add_of_lt hn
    obtain ⟨hn, -, hs⟩ := hs
    have hx : ¬ x = t := fun he => ht (he ▸ List.mem_cons_self)
    rw [Queues.walk, hn, Option.bind_some, if_neg hx,
      ih hs (fun hm => ht (List.mem_cons_of_mem _ hm)) (by rw [List.length_cons]; omega)]
    rfl

/-- The links determine the list. -/
theorem IsList.unique {ys : List α} (hl : IsList h r t xs) (hl' : IsList h r t ys) : xs = ys := by
  have hx := hl.seg.walk hl.tail_notMem (n := xs.length + ys.length + 1) (by omega)
  have hy := hl'.seg.walk hl'.tail_notMem (n := xs.length + ys.length + 1) (by omega)
  exact Option.some.inj (hx.symm.trans hy)

omit [DecidableEq α] in
/-- The links read backwards. -/
theorem Seg.reverse {a b : α} (hs : Seg h a (xs ++ [b])) :
    Seg ⟨h.prev, h.next⟩ b (xs.reverse ++ [a]) := by
  induction xs generalizing a with
  | nil => exact ⟨hs.2.1, hs.1, trivial⟩
  | cons x xs ih =>
    obtain ⟨hn, hp, hs⟩ := hs
    rw [List.reverse_cons, List.append_assoc, List.singleton_append, seg_append]
    obtain ⟨h1, h2, h3, -⟩ := seg_append.mp (ih hs)
    exact ⟨h1, h2, h3, hp, hn, trivial⟩

omit [DecidableEq α] in
/-- Each link has its inverse. -/
theorem Seg.bind_prev {a : α} (hs : Seg h a (xs ++ [t])) :
    ∀ b ∈ a :: xs, (h.next b).bind h.prev = some b := by
  induction xs generalizing a with
  | nil =>
    intro b hb
    rw [List.mem_singleton.mp hb, hs.1, Option.bind_some, hs.2.1]
  | cons x xs ih =>
    obtain ⟨hn, hp, hs⟩ := hs
    intro b hb
    rcases List.mem_cons.mp hb with rfl | hb
    · rw [hn, Option.bind_some, hp]
    · exact ih hs b hb

omit [DecidableEq α] in
theorem getLastD_mem (a : α) (l : List α) : l.getLastD a ∈ a :: l := by
  rw [← List.getLast_eq_getLastD (List.cons_ne_nil _ _)]
  exact List.getLast_mem _

/-- **A new node** is linked at the end of the list. -/
theorem IsList.insertBefore (hl : IsList h r t xs) (hx : x ∉ r :: xs ++ [t]) :
    ∃ h', h.insertBefore t x = some h' ∧ IsList h' r t (xs ++ [x]) := by
  obtain ⟨hseg, hn, hp, -⟩ := seg_append.mp hl.seg
  set p := xs.getLastD r with hpdef
  have hpmem : p ∈ r :: xs := getLastD_mem r xs
  have hnd : (r :: xs).Nodup ∧ t ∉ r :: xs := by
    have := List.nodup_append.mp hl.nodup
    exact ⟨this.1, fun ht => this.2.2 t ht t (List.mem_singleton_self t) rfl⟩
  have hxr : x ∉ r :: xs := fun hm => hx (List.mem_append_left _ hm)
  have hxt : x ≠ t := by
    rintro rfl
    exact hx (by simp)
  have hpx : p ≠ x := fun he => hxr (he ▸ hpmem)
  refine ⟨_, by rw [Links.insertBefore, hp, Option.map_some], ?_, ?_⟩
  · have hperm : (r :: (xs ++ [x]) ++ [t]).Perm (x :: (r :: xs ++ [t])) := by
      rw [← List.cons_append, List.append_assoc]
      exact List.perm_middle
    rw [hperm.nodup_iff, List.nodup_cons]
    exact ⟨hx, hl.nodup⟩
  · -- the old part, then the links around `x`
    rw [seg_append]
    refine ⟨?_, ?_, ?_, trivial⟩
    · rw [seg_append]
      refine ⟨hseg.congr ?_ ?_, ?_, ?_, trivial⟩
      · intro b hb
        have hbp : b ≠ p := ne_last_of_mem_dropLast hnd.1 hb
        have hbx : b ≠ x := fun he => hxr (he ▸ List.mem_of_mem_dropLast hb)
        show Function.update _ _ _ b = _
        rw [Function.update_of_ne hbx, Function.update_of_ne hbp]
      · intro b hb
        have hbt : b ≠ t := fun he => hnd.2 (he ▸ List.mem_cons_of_mem _ hb)
        have hbx : b ≠ x := fun he => hxr (he ▸ List.mem_cons_of_mem _ hb)
        show Function.update _ _ _ b = _
        rw [Function.update_of_ne hbt, Function.update_of_ne hbx]
      · show Function.update _ _ _ p = _
        rw [Function.update_of_ne hpx, Function.update_self]
      · show Function.update _ _ _ x = _
        rw [Function.update_of_ne hxt, Function.update_self]
    · rw [List.getLastD_concat]
      exact Function.update_self ..
    · rw [List.getLastD_concat]
      exact Function.update_self ..

/-- **A node of the list** is taken out. -/
theorem IsList.unlink (hl : IsList h r t xs) (hx : x ∈ xs) :
    ∃ h', h.unlink x = some h' ∧ IsList h' r t (xs.erase x) := by
  obtain ⟨ys, zs, rfl⟩ := List.append_of_mem hx
  -- the node after `x` is in `zs` or is `t`
  obtain ⟨n, ws, hws⟩ : ∃ n ws, zs ++ [t] = n :: ws := by
    cases zs with
    | nil => exact ⟨t, [], rfl⟩
    | cons n zs => exact ⟨n, zs ++ [t], rfl⟩
  have hall : r :: (ys ++ x :: zs) ++ [t] = (r :: ys) ++ x :: (n :: ws) := by
    rw [← hws]
    simp
  have hseg := hl.seg
  rw [List.append_assoc, List.cons_append, hws] at hseg
  obtain ⟨hfront, hpn, hxp, hxn, hnx, hback⟩ := seg_append.mp hseg
  set p := ys.getLastD r with hpdef
  have hpmem : p ∈ r :: ys := getLastD_mem r ys
  have hnd := hl.nodup
  rw [hall, List.nodup_middle, List.nodup_cons, List.nodup_append] at hnd
  obtain ⟨hxout, hndf, hndb, hdisj⟩ := hnd
  have hpx : x ≠ p := fun he => hxout (he ▸ List.mem_append_left _ hpmem)
  have hxfront : x ∉ ys := fun hm => hxout (List.mem_append_left _ (List.mem_cons_of_mem _ hm))
  refine ⟨⟨Function.update h.next p (some n), Function.update h.prev n (some p)⟩, ?_, ?_, ?_⟩
  · unfold Links.unlink
    rw [hxp, Option.bind_some, hxn]
    dsimp only
    rw [Function.update_of_ne hpx, hxn, Option.map_some]
  · rw [List.erase_append_right _ hxfront, List.erase_cons_head]
    have hsame : r :: (ys ++ zs) ++ [t] = (r :: ys) ++ (n :: ws) := by
      rw [← hws]
      simp
    rw [hsame, List.nodup_append]
    exact ⟨hndf, hndb, hdisj⟩
  · rw [List.erase_append_right _ hxfront, List.erase_cons_head, List.append_assoc, hws, seg_append]
    refine ⟨hfront.congr ?_ ?_, ?_, ?_, hback.congr ?_ ?_⟩
    · intro b hb
      exact Function.update_of_ne (ne_last_of_mem_dropLast hndf hb) _ _
    · intro b hb
      apply Function.update_of_ne
      rintro rfl
      exact hdisj b (List.mem_cons_of_mem _ hb) b (List.mem_cons_self ..) rfl
    · exact Function.update_self ..
    · exact Function.update_self ..
    · intro b hb
      apply Function.update_of_ne
      rintro rfl
      exact hdisj p hpmem p (List.mem_of_mem_dropLast hb) rfl
    · intro b hb
      apply Function.update_of_ne
      rintro rfl
      exact (List.nodup_cons.mp hndb).1 hb

end Lists

/-! ## Sweeps -/

section Sweeps

variable {σ : Type*} {visit : σ → α → Option (σ × Bool)} {s s' : σ} {q gone kept : List α}

/-- The elements have their turn one after the other; `visit` says what happens to an element, and
whether it stays. -/
inductive Swept (visit : σ → α → Option (σ × Bool)) : σ → List α → List α → List α → σ → Prop
  | nil (s : σ) : Swept visit s [] [] [] s
  | drop {s s₁ s' : σ} {x : α} {q gone kept : List α} (hv : visit s x = some (s₁, false))
      (h : Swept visit s₁ q gone kept s') : Swept visit s (x :: q) (x :: gone) kept s'
  | keep {s s₁ s' : σ} {x : α} {q gone kept : List α} (hv : visit s x = some (s₁, true))
      (h : Swept visit s₁ q gone kept s') : Swept visit s (x :: q) gone (x :: kept) s'

/-- The loop: `n` elements from index `r` on are still to be looked at, and those that stayed are
in front of index `w`. -/
def sweep (visit : σ → α → Option (σ × Bool)) : ℕ → ℕ → ℕ → List α → σ → Option (σ × List α × ℕ)
  | 0, _, w, a, s => some (s, a, w)
  | n + 1, r, w, a, s =>
      a[r]?.bind fun x => (visit s x).bind fun y =>
        if y.2 = true then sweep visit n (r + 1) (w + 1) (a.set w x) y.1
        else sweep visit n (r + 1) w a y.1

/-- What was written back does not reach what has not been read. -/
theorem Swept.sweep_from (hs : Swept visit s q gone kept s') : ∀ (a : List α) (r w : ℕ), w ≤ r →
    a.drop r = q → ∃ a' w', sweep visit q.length r w a s = some (s', a', w') ∧
      a'.take w' = a.take w ++ kept := by
  induction hs with
  | nil s =>
    intro a r w _ _
    exact ⟨a, w, rfl, (List.append_nil _).symm⟩
  | @drop s s₁ s' x q gone kept hv _ ih =>
    intro a r w hle hq
    have hget : a[r]? = some x := by
      rw [← List.head?_drop, hq]
      rfl
    obtain ⟨a', w', hsweep, hkept⟩ := ih a (r + 1) w (by omega) (by
      rw [← List.drop_drop, hq]
      rfl)
    refine ⟨a', w', ?_, hkept⟩
    rw [List.length_cons, sweep, hget, Option.bind_some, hv, Option.bind_some]
    exact hsweep
  | @keep s s₁ s' x q gone kept hv _ ih =>
    intro a r w hle hq
    have hget : a[r]? = some x := by
      rw [← List.head?_drop, hq]
      rfl
    have hlt : r < a.length := (List.getElem?_eq_some_iff.mp hget).1
    obtain ⟨a', w', hsweep, hkept⟩ := ih (a.set w x) (r + 1) (w + 1) (by omega) (by
      rw [List.drop_set_of_lt (by omega), ← List.drop_drop, hq]
      rfl)
    refine ⟨a', w', ?_, ?_⟩
    · rw [List.length_cons, sweep, hget, Option.bind_some, hv, Option.bind_some]
      exact hsweep
    · rw [hkept, List.take_add_one, List.take_set_of_le (le_refl w), List.getElem?_set_self (by omega),
        List.append_assoc]
      rfl

/-- **The loop over the whole queue.** -/
theorem Swept.sweep (hs : Swept visit s q gone kept s') :
    ∃ a w, sweep visit q.length 0 0 q s = some (s', a, w) ∧ a.take w = kept := by
  obtain ⟨a, w, h1, h2⟩ := hs.sweep_from q 0 0 (le_refl 0) rfl
  exact ⟨a, w, h1, by rw [h2, List.take_zero, List.nil_append]⟩

end Sweeps

end Queues
