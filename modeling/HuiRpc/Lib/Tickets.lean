/-
# Slots that hold tickets

A pool of slots, some of them in a list of free slots.  A slot that is taken gets the next
ticket; a slot that is released puts its ticket on the list of used ones.  `Book` says that the
two lists and the slots agree, so that

* no ticket is used twice, and none is used while a slot still holds it;
* no two slots hold the same ticket.

It is kept by `Book.take`, `Book.release` and whatever leaves the holders alone (`Book.congr`).
-/
import Mathlib

namespace Tickets

variable {ι : Type*} {dom busy busy' : ι → Prop} {tag tag' : ι → ℕ} {free : List ι}
  {used : List ℕ} {next : ℕ} {i : ι}

/-- The slots are those of `dom`; the busy ones hold the ticket `tag`. -/
structure Book (dom busy : ι → Prop) (tag : ι → ℕ) (free : List ι) (used : List ℕ)
    (next : ℕ) : Prop where
  freeNodup : free.Nodup
  mem_free : ∀ i, i ∈ free ↔ dom i ∧ ¬ busy i
  usedNodup : used.Nodup
  used_lt : ∀ t ∈ used, t < next
  tag_lt : ∀ i, dom i → busy i → tag i < next
  tag_new : ∀ i, dom i → busy i → tag i ∉ used
  tag_inj : ∀ i j, dom i → dom j → busy i → busy j → tag i = tag j → i = j

/-- All slots but `i` are as before. -/
def SameBut (i : ι) (busy busy' : ι → Prop) (tag tag' : ι → ℕ) : Prop :=
  ∀ j, j ≠ i → (busy' j ↔ busy j) ∧ tag' j = tag j

/-- At the start all slots are free. -/
theorem Book.start (hfree : free.Nodup) (hmem : ∀ i, i ∈ free ↔ dom i) (hidle : ∀ i, ¬ busy i) :
    Book dom busy tag free [] 0 where
  freeNodup := hfree
  mem_free := by
    intro i
    rw [hmem, and_iff_left (hidle i)]
  usedNodup := List.nodup_nil
  used_lt := fun _ ht => absurd ht List.not_mem_nil
  tag_lt := fun i _ hb => absurd hb (hidle i)
  tag_new := fun i _ hb => absurd hb (hidle i)
  tag_inj := fun i _ _ _ hb => absurd hb (hidle i)

theorem Book.congr (h : Book dom busy tag free used next) (hb : ∀ j, busy' j ↔ busy j)
    (ht : ∀ j, tag' j = tag j) : Book dom busy' tag' free used next := by
  obtain rfl : busy' = busy := funext fun j => propext (hb j)
  obtain rfl : tag' = tag := funext ht
  exact h

/-- A slot that stays busy with its ticket. -/
theorem Book.stay (h : Book dom busy tag free used next) (hsame : SameBut i busy busy' tag tag')
    (hold : busy i) (hnew : busy' i) (htag : tag' i = tag i) :
    Book dom busy' tag' free used next := by
  refine h.congr ?_ ?_
  · intro j
    by_cases hj : j = i
    · rw [hj]
      exact iff_of_true hnew hold
    · exact (hsame j hj).1
  · intro j
    by_cases hj : j = i
    · rw [hj, htag]
    · exact (hsame j hj).2

/-- A ticket that no slot gets. -/
theorem Book.skip (h : Book dom busy tag free used next) :
    Book dom busy tag free used (next + 1) :=
  { h with
    used_lt := fun t ht => Nat.lt_succ_of_lt (h.used_lt t ht)
    tag_lt := fun i hi hb => Nat.lt_succ_of_lt (h.tag_lt i hi hb) }

/-- A free slot gets the next ticket. -/
theorem Book.take (h : Book dom busy tag (i :: free) used next)
    (hsame : SameBut i busy busy' tag tag') (hnew : busy' i) (htag : tag' i = next) :
    Book dom busy' tag' free used (next + 1) := by
  have hnd := List.nodup_cons.mp h.freeNodup
  have hlt : ∀ j, j ≠ i → dom j → busy' j → tag' j < next := by
    intro j hj hd hb
    rw [(hsame j hj).2]
    exact h.tag_lt j hd ((hsame j hj).1.mp hb)
  exact {
    freeNodup := hnd.2
    mem_free := by
      intro j
      by_cases hj : j = i
      · rw [hj]
        exact iff_of_false hnd.1 fun hx => hx.2 hnew
      · rw [(hsame j hj).1, ← h.mem_free, List.mem_cons]
        exact (or_iff_right hj).symm
    usedNodup := h.usedNodup
    used_lt := fun t ht => Nat.lt_succ_of_lt (h.used_lt t ht)
    tag_lt := by
      intro j hd hb
      by_cases hj : j = i
      · rw [hj, htag]
        exact Nat.lt_succ_self _
      · exact Nat.lt_succ_of_lt (hlt j hj hd hb)
    tag_new := by
      intro j hd hb
      by_cases hj : j = i
      · rw [hj, htag]
        exact fun hx => absurd (h.used_lt _ hx) (Nat.lt_irrefl _)
      · rw [(hsame j hj).2]
        exact h.tag_new j hd ((hsame j hj).1.mp hb)
    tag_inj := by
      intro j k hdj hdk hbj hbk heq
      by_cases hj : j = i
      · by_cases hk : k = i
        · rw [hj, hk]
        · have := hlt k hk hdk hbk
          rw [hj, htag] at heq
          omega
      · by_cases hk : k = i
        · have := hlt j hj hdj hbj
          rw [hk, htag] at heq
          omega
        · rw [(hsame j hj).2, (hsame k hk).2] at heq
          exact h.tag_inj j k hdj hdk ((hsame j hj).1.mp hbj) ((hsame k hk).1.mp hbk) heq }

/-- A busy slot becomes free, and its ticket is used. -/
theorem Book.release (h : Book dom busy tag free used next)
    (hsame : SameBut i busy busy' tag tag') (hd : dom i) (hold : busy i) (hidle : ¬ busy' i) :
    Book dom busy' tag' (i :: free) (used ++ [tag i]) next := by
  have hne : ∀ j, busy' j → j ≠ i := by
    rintro j hj rfl
    exact hidle hj
  exact {
    freeNodup := List.nodup_cons.mpr ⟨fun hx => ((h.mem_free i).mp hx).2 hold, h.freeNodup⟩
    mem_free := by
      intro j
      rw [List.mem_cons]
      by_cases hj : j = i
      · rw [hj]
        exact iff_of_true (Or.inl rfl) ⟨hd, hidle⟩
      · rw [(hsame j hj).1, h.mem_free]
        exact or_iff_right hj
    usedNodup := by
      refine List.nodup_append.mpr ⟨h.usedNodup, List.nodup_singleton _, ?_⟩
      rintro t ht u hu rfl
      rw [List.mem_singleton] at hu
      exact h.tag_new i hd hold (hu ▸ ht)
    used_lt := by
      intro t ht
      rw [List.mem_append, List.mem_singleton] at ht
      rcases ht with ht | rfl
      · exact h.used_lt t ht
      · exact h.tag_lt i hd hold
    tag_lt := by
      intro j hdj hb
      have hj := hne j hb
      rw [(hsame j hj).2]
      exact h.tag_lt j hdj ((hsame j hj).1.mp hb)
    tag_new := by
      intro j hdj hb
      have hj := hne j hb
      have hbj := (hsame j hj).1.mp hb
      rw [(hsame j hj).2, List.mem_append, List.mem_singleton, not_or]
      exact ⟨h.tag_new j hdj hbj, fun heq => hj (h.tag_inj j i hdj hd hbj hold heq)⟩
    tag_inj := by
      intro j k hdj hdk hbj hbk heq
      have hj := hne j hbj
      have hk := hne k hbk
      rw [(hsame j hj).2, (hsame k hk).2] at heq
      exact h.tag_inj j k hdj hdk ((hsame j hj).1.mp hbj) ((hsame k hk).1.mp hbk) heq }

end Tickets
