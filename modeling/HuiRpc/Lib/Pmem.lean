/-
# Persistent memory and crashes

A memory of parts `a : A`, each of which reaches the medium as a whole.  What is written stays
pending until a drain; at a crash every part holds its durable value or that of some write that
is pending, independently of the others.

* `run m evs` — writes and drains, one after the other;
* `Image m img` — what a crash in the state `m` may leave;
* `Image.of_persist`, `Image.of_persist_single` — crashes in a copy that is drained at once: a
  copy of one part is atomic;
* `Triple C P evs Q` — crash Hoare logic: from a state with `P`, every state on the way has the
  crash condition `C`, and the state at the end has `Q`.
-/
import Mathlib

namespace Pmem

variable {A : Type*} {α : A → Type*}

/-- A copy, as the list of its parts, or a drain. -/
inductive Ev (α : A → Type*)
  | write (parts : List ((a : A) × α a))
  | drain

structure Mem (α : A → Type*) where
  durable : ∀ a, α a
  pending : List ((a : A) × α a)

/-- What a crash may leave. -/
def Image (m : Mem α) (img : ∀ a, α a) : Prop :=
  ∀ a, img a = m.durable a ∨ ⟨a, img a⟩ ∈ m.pending

variable {m : Mem α} {img : ∀ a, α a} {a : A}

theorem Image.eq_durable (h : Image m img) (ha : ∀ w ∈ m.pending, w.1 ≠ a) :
    img a = m.durable a :=
  (h a).resolve_right fun hmem => ha _ hmem rfl

theorem Image.of_pending_nil (h : Image m img) (hp : m.pending = []) : img = m.durable := by
  funext a
  apply h.eq_durable
  simp [hp]

/-- A crash in the first or in the second of two sequences. -/
theorem prefix_append_cases {pre evs evs' : List (Ev α)} (h : pre <+: evs ++ evs') :
    pre <+: evs ∨ ∃ rest, rest <+: evs' ∧ pre = evs ++ rest := by
  rcases le_total pre.length evs.length with hle | hle
  · exact Or.inl (List.prefix_of_prefix_length_le h (List.prefix_append _ _) hle)
  · obtain ⟨rest, rfl⟩ := List.prefix_of_prefix_length_le (List.prefix_append _ _) h hle
    exact Or.inr ⟨rest, (List.prefix_append_right_inj evs).mp h, rfl⟩

variable [DecidableEq A]

/-- The memory with all the writes. -/
def flush (f : ∀ a, α a) (ws : List ((a : A) × α a)) : ∀ a, α a :=
  ws.foldl (fun f w => Function.update f w.1 w.2) f

theorem flush_snoc (f : ∀ a, α a) (ws : List ((a : A) × α a)) (w : (a : A) × α a) :
    flush f (ws ++ [w]) = Function.update (flush f ws) w.1 w.2 := by
  unfold flush
  rw [List.foldl_append]
  rfl

theorem flush_of_notMem {f : ∀ a, α a} {ws : List ((a : A) × α a)} (h : ∀ w ∈ ws, w.1 ≠ a) :
    flush f ws a = f a := by
  induction ws using List.reverseRecOn with
  | nil => rfl
  | append_singleton ws w ih =>
    rw [flush_snoc, Function.update_of_ne (h w (by simp)).symm]
    exact ih fun w' hw' => h w' (List.mem_append_left _ hw')

/-- A part that is written gets the value of one of the writes. -/
theorem flush_mem {f : ∀ a, α a} {ws : List ((a : A) × α a)} {x : α a} (h : ⟨a, x⟩ ∈ ws) :
    ⟨a, flush f ws a⟩ ∈ ws := by
  induction ws using List.reverseRecOn with
  | nil => simp at h
  | append_singleton ws w ih =>
    rw [flush_snoc]
    by_cases hw : w.1 = a
    · subst hw
      rw [Function.update_self]
      exact List.mem_append_right _ List.mem_cons_self
    · rw [Function.update_of_ne (Ne.symm hw)]
      refine List.mem_append_left _ (ih ?_)
      rcases List.mem_append.mp h with h | h
      · exact h
      · rw [List.mem_singleton] at h
        exact absurd (congrArg Sigma.fst h).symm hw

/-- A crash may leave one of the pending writes and nothing else of them. -/
theorem image_update {w : (a : A) × α a} (h : w ∈ m.pending) :
    Image m (Function.update m.durable w.1 w.2) := by
  intro a
  by_cases ha : a = w.1
  · subst ha
    right
    rwa [Function.update_self]
  · left
    rw [Function.update_of_ne ha]

/-! ## Runs -/

def step (m : Mem α) : Ev α → Mem α
  | .write ws => { m with pending := m.pending ++ ws }
  | .drain => ⟨flush m.durable m.pending, []⟩

def run (m : Mem α) (evs : List (Ev α)) : Mem α := evs.foldl step m

theorem run_append (m : Mem α) (evs evs' : List (Ev α)) :
    run m (evs ++ evs') = run (run m evs) evs' :=
  List.foldl_append

/-- A copy and the drain behind it. -/
def persist (ws : List ((a : A) × α a)) : List (Ev α) := [.write ws, .drain]

/-- With nothing pending, drains and empty copies change nothing. -/
theorem run_idle {evs : List (Ev α)} (hp : m.pending = [])
    (h : ∀ e ∈ evs, e = .write [] ∨ e = .drain) : run m evs = m := by
  induction evs with
  | nil => rfl
  | cons e evs ih =>
    have hstep : step m e = m := by
      rcases h e List.mem_cons_self with rfl | rfl
      · show { m with pending := m.pending ++ [] } = m
        rw [List.append_nil]
      · obtain ⟨durable, pending⟩ := m
        subst hp
        rfl
    show run (step m e) evs = m
    rw [hstep]
    exact ih fun e' he' => h e' (List.mem_cons_of_mem e he')

/-! ## Crashes in a copy that is drained at once -/

theorem run_persist (hp : m.pending = []) (ws : List ((a : A) × α a)) :
    run m (persist ws) = ⟨flush m.durable ws, []⟩ := by
  show (⟨flush m.durable (m.pending ++ ws), []⟩ : Mem α) = _
  rw [hp, List.nil_append]

/-- A part is old, or the copy has it. -/
theorem Image.of_persist {ws : List ((a : A) × α a)} {pre : List (Ev α)} (hp : m.pending = [])
    (hpre : pre <+: persist ws) (h : Image (run m pre) img) :
    ∀ a, img a = m.durable a ∨ ⟨a, img a⟩ ∈ ws := by
  obtain ⟨durable, pending⟩ := m
  subst hp
  rcases List.prefix_concat_iff.mp (show pre <+: [.write ws] ++ [.drain] from hpre) with rfl | hpre
  · -- the copy is drained
    intro a
    rw [h.of_pending_nil rfl]
    show flush durable ws a = durable a ∨ ⟨a, flush durable ws a⟩ ∈ ws
    by_cases hmem : ∀ w ∈ ws, w.1 ≠ a
    · exact Or.inl (flush_of_notMem hmem)
    · push Not at hmem
      obtain ⟨w, hw, rfl⟩ := hmem
      exact Or.inr (flush_mem hw)
  · rcases List.prefix_concat_iff.mp (show pre <+: [] ++ [.write ws] from hpre) with rfl | hpre
    · exact h
    · rw [List.prefix_nil.mp hpre] at h
      intro a
      exact Or.inl (congrFun (h.of_pending_nil rfl) a)

/-- **A copy of one part is atomic.** -/
theorem Image.of_persist_single {w : (a : A) × α a} {pre : List (Ev α)} (hp : m.pending = [])
    (hpre : pre <+: persist [w]) (h : Image (run m pre) img) :
    img = m.durable ∨ img = flush m.durable [w] := by
  have hparts := h.of_persist hp hpre
  have hother : ∀ a, a ≠ w.1 → img a = m.durable a := by
    intro a ha
    refine (hparts a).resolve_right fun hmem => ?_
    exact ha (congrArg Sigma.fst (List.mem_singleton.mp hmem))
  rcases hparts w.1 with hold | hnew
  · left
    funext a
    by_cases ha : a = w.1
    · rw [ha, hold]
    · exact hother a ha
  · right
    rw [← List.mem_singleton.mp hnew]
    funext a
    show img a = Function.update m.durable w.1 (img w.1) a
    by_cases ha : a = w.1
    · rw [ha, Function.update_self]
    · rw [Function.update_of_ne ha, hother a ha]

/-! ## Crash Hoare logic -/

def Triple (C P : Mem α → Prop) (evs : List (Ev α)) (Q : Mem α → Prop) : Prop :=
  ∀ m, P m → (∀ pre, pre <+: evs → C (run m pre)) ∧ Q (run m evs)

variable {C P Q R : Mem α → Prop} {e : Ev α} {evs evs' : List (Ev α)}

theorem Triple.nil (hC : ∀ m, P m → C m) : Triple C P [] P := by
  intro m hm
  refine ⟨fun pre hpre => ?_, hm⟩
  rw [List.prefix_nil.mp hpre]
  exact hC m hm

theorem Triple.single (hP : ∀ m, P m → C m) (hstep : ∀ m, P m → Q (step m e))
    (hQ : ∀ m, Q m → C m) : Triple C P [e] Q := by
  intro m hm
  refine ⟨fun pre hpre => ?_, hstep m hm⟩
  rcases List.prefix_concat_iff.mp (show pre <+: [] ++ [e] from hpre) with rfl | h
  · exact hQ _ (hstep m hm)
  · rw [List.prefix_nil.mp h]
    exact hP m hm

theorem Triple.seq (h : Triple C P evs Q) (h' : Triple C Q evs' R) :
    Triple C P (evs ++ evs') R := by
  intro m hm
  obtain ⟨hpre, hQ⟩ := h m hm
  obtain ⟨hpre', hR⟩ := h' _ hQ
  rw [run_append]
  refine ⟨fun pre hp => ?_, hR⟩
  rcases prefix_append_cases hp with hp | ⟨rest, hrest, rfl⟩
  · exact hpre pre hp
  · rw [run_append]
    exact hpre' rest hrest

/-- The rule for `persist`. -/
theorem Triple.persist {ws : List ((a : A) × α a)} (hP : ∀ m, P m → C m)
    (hwrite : ∀ m, P m → Q (step m (.write ws))) (hQ : ∀ m, Q m → C m)
    (hdrain : ∀ m, Q m → R (step m .drain)) (hR : ∀ m, R m → C m) :
    Triple C P (Pmem.persist ws) R :=
  (Triple.single hP hwrite hQ).seq (Triple.single hQ hdrain hR)

end Pmem
