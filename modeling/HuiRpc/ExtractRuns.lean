/-
# Sequences of continuous extractions

`extract_front_continuous` and `extract_back_continuous` return a pointer into the iovector when one
entry holds all bytes, and a pointer to a copy otherwise.  Which of the two happens depends on how
the bytes are cut into entries, and so does what is left behind: the copying path removes entries
that it has used up, the in-place path at the back leaves them empty.

* `ContOp.spec` — what the two functions are for, on a list of bytes that is shortened at its ends;
* `ContOp.extract_extracts` — one call does this on the bytes of the iovector, whatever the cut;
* `continuous_extraction` — so do all sequences of calls, and two iovectors with the same bytes give
  the same results.
-/
import HuiRpc.ExtractForms

namespace HuiRpc

open Copies

/-! ## The calls -/

/-- `extract_front_continuous(n)` or `extract_back_continuous(n)`. -/
inductive ContOp
  | front (n : ℕ)
  | back (n : ℕ)

namespace ContOp

def size : ContOp → ℕ
  | front n => n
  | back n => n

/-- On a list of bytes: what is returned, `none` for a null pointer, and the bytes that are left.
A call that finds too few bytes uses them up. -/
def spec (w : List UInt8) : ContOp → Option (List UInt8) × List UInt8
  | front n => if w.length < n then (none, []) else (some (w.take n), w.drop n)
  | back n =>
      if w.length < n then (none, [])
      else (some (w.drop (w.length - n)), w.take (w.length - n))

/-- The results of a sequence of calls. -/
def specAll : List ContOp → List UInt8 → List (Option (List UInt8))
  | [], _ => []
  | op :: ops, w => (op.spec w).1 :: specAll ops (op.spec w).2

/-- The pointer that is returned. -/
def extract (e : Extractor) : ContOp → ℕ × Extractor
  | front n => e.extractFrontContinuous n
  | back n => e.extractBackContinuous n

end ContOp

namespace Extractor

/-- A sequence of calls, with the buffers that they return. -/
def extractAll : List ContOp → Extractor → List (Option Iovec) × Extractor
  | [], e => ([], e)
  | op :: ops, e =>
      let r := op.extract e
      let rs := extractAll ops r.2
      ((if r.1 = 0 then none else some ⟨r.1, op.size⟩) :: rs.1, rs.2)

/-- The results of a sequence of calls, read when all of them are done. -/
def results (e : Extractor) (ops : List ContOp) : List (Option (List UInt8)) :=
  (extractAll ops e).1.map (Option.map (Iovec.bytes (extractAll ops e).2.mem))

/-! ## Too few bytes -/

variable {e : Extractor} {n : ℕ}

/-- `e'` comes after `e` and has no bytes left. -/
structure Drained (e e' : Extractor) : Prop where
  ok : e'.Ok
  grows : Grows e e'
  empty : e'.view = []

/-- Copies to new memory that used up the view. -/
theorem drained_of_run {cs : List Copy} (hok : e.Ok) (hcs : ∀ a ∈ dsts cs, e.brk ≤ a) :
    Drained e ⟨[], run cs e.mem, e.brk + n⟩ where
  ok := ⟨fun v hv => absurd hv List.not_mem_nil,
    Nat.lt_of_lt_of_le hok.pos (Nat.le_add_right _ _)⟩
  grows := by
    refine ⟨Nat.le_add_right _ _, fun a ha => run_of_notMem _ fun hx => ?_⟩
    have := hcs a hx
    omega
  empty := rfl

theorem copyFront_drained (hok : e.Ok) (hlen : iovSum e.view < n) :
    Drained e (e.copyFront n).2 := by
  rw [copyFront_eq (by omega), dropFront_eq, Peel.Cut.remains_eq_nil hlen]
  refine drained_of_run hok fun a ha => ?_
  rw [dsts_upCopies, List.mem_range'_1] at ha
  exact ha.1

theorem copyBack_drained (hok : e.Ok) (hlen : iovSum e.view < n) :
    Drained e (e.copyBack n).2 := by
  have hsum := iovSum_backPieces_reverse e.view n
  rw [← iovSum_reverse] at hlen
  rw [copyBack_eq (by omega), dropBack_eq, Peel.Cut.remains_eq_nil hlen]
  refine drained_of_run hok fun a ha => ?_
  have hrev : a ∈ dsts (downCopies (e.brk + n) (backPieces e.view.reverse n)).reverse := by
    obtain ⟨c, hc, hac⟩ := List.mem_flatMap.mp ha
    exact List.mem_flatMap.mpr ⟨c, List.mem_reverse.mpr hc, hac⟩
  rw [dsts_downCopies (by omega), List.mem_range'_1] at hrev
  omega

theorem extractFrontContinuous_drained (hok : e.Ok) (hlen : iovSum e.view < n) :
    Drained e (e.extractFrontContinuous n).2 := by
  have hcopy := copyFront_drained hok hlen
  unfold extractFrontContinuous
  split
  · exact hcopy
  · rename_i v vs hview
    rw [hview, iovSum_cons] at hlen
    rw [if_pos (by omega)]
    exact hcopy

theorem extractBackContinuous_drained (hok : e.Ok) (hlen : iovSum e.view < n) :
    Drained e (e.extractBackContinuous n).2 := by
  have hcopy := copyBack_drained hok hlen
  unfold extractBackContinuous
  split
  · exact hcopy
  · rename_i v vs hview
    rw [← iovSum_reverse, hview, iovSum_cons] at hlen
    rw [if_pos (by omega)]
    exact hcopy

/-! ## One call -/

/-- **What one call does**: on the bytes of the iovector it is `ContOp.spec`, and the buffer that it
returns holds the bytes in live memory. -/
structure Extracts (e : Extractor) (op : ContOp) (r : ℕ × Extractor) : Prop where
  ok : r.2.Ok
  grows : Grows e r.2
  left : r.2.remaining = (op.spec e.remaining).2
  live : r.1 ≠ 0 → Live r.2.brk ⟨r.1, op.size⟩
  result : (if r.1 = 0 then none else some (Iovec.bytes r.2.mem ⟨r.1, op.size⟩))
    = (op.spec e.remaining).1

theorem Extracts.of_gives {op : ContOp} {r : ℕ × Extractor} {w l : List UInt8} (h0 : r.1 ≠ 0)
    (h : Gives e r.2 [⟨r.1, op.size⟩] w l) (hspec : op.spec e.remaining = (some w, l)) :
    Extracts e op r where
  ok := h.ok
  grows := h.grows
  left := by
    rw [hspec]
    exact h.left
  live := fun _ => h.live _ (List.mem_singleton_self _)
  result := by
    have htaken := h.taken
    rw [bytesOf_cons, bytesOf_nil, List.append_nil] at htaken
    rw [if_neg h0, htaken, hspec]

theorem Extracts.of_drained {op : ContOp} {r : ℕ × Extractor} (h0 : r.1 = 0) (h : Drained e r.2)
    (hspec : op.spec e.remaining = (none, [])) : Extracts e op r where
  ok := h.ok
  grows := h.grows
  left := by
    rw [hspec, remaining, h.empty]
    rfl
  live := fun hne => absurd h0 hne
  result := by
    rw [if_pos h0, hspec]

end Extractor

open Extractor

/-- One call, whatever the entries and whichever path is taken. -/
theorem ContOp.extract_extracts {e : Extractor} (hok : e.Ok) (op : ContOp) (hpos : 1 ≤ op.size) :
    Extracts e op (op.extract e) := by
  have hsum : e.remaining.length = iovSum e.view := length_bytesOf e.mem e.view
  cases op with
  | front n =>
    by_cases hlen : e.remaining.length < n
    · refine Extracts.of_drained (extractFrontContinuous_short hlen)
        (extractFrontContinuous_drained hok (by omega)) ?_
      exact if_pos hlen
    · obtain ⟨h0, hgives⟩ := extractFrontContinuous_spec hok hpos (not_lt.mp hlen)
      exact Extracts.of_gives h0 hgives (if_neg hlen)
  | back n =>
    by_cases hlen : e.remaining.length < n
    · refine Extracts.of_drained (extractBackContinuous_short hlen)
        (extractBackContinuous_drained hok (by omega)) ?_
      exact if_pos hlen
    · obtain ⟨h0, hgives⟩ := extractBackContinuous_spec hok hpos (not_lt.mp hlen)
      exact Extracts.of_gives h0 hgives (if_neg hlen)

/-! ## Sequences of calls -/

namespace Extractor

theorem extractAll_grows (ops : List ContOp) {e : Extractor} (hok : e.Ok)
    (hops : ∀ op ∈ ops, 1 ≤ op.size) : Grows e (extractAll ops e).2 := by
  induction ops generalizing e with
  | nil => exact Grows.refl e
  | cons op ops ih =>
    have hstep := op.extract_extracts hok (hops op (List.mem_cons_self ..))
    exact hstep.grows.trans (ih hstep.ok fun x hx => hops x (List.mem_cons_of_mem _ hx))

/-- **A sequence of calls** is the same sequence on the bytes of the iovector.  A buffer that a call
has returned still holds its bytes when all calls are done. -/
theorem results_eq_specAll (ops : List ContOp) {e : Extractor} (hok : e.Ok)
    (hops : ∀ op ∈ ops, 1 ≤ op.size) : e.results ops = ContOp.specAll ops e.remaining := by
  induction ops generalizing e with
  | nil => rfl
  | cons op ops ih =>
    have hstep := op.extract_extracts hok (hops op (List.mem_cons_self ..))
    have hops' : ∀ x ∈ ops, 1 ≤ x.size := fun x hx => hops x (List.mem_cons_of_mem _ hx)
    have hgrows := extractAll_grows ops hstep.ok hops'
    unfold results extractAll
    rw [List.map_cons]
    congr 1
    · rw [← hstep.result]
      by_cases h0 : (op.extract e).1 = 0
      · rw [if_pos h0, if_pos h0]
        rfl
      · rw [if_neg h0, if_neg h0, Option.map_some]
        rw [(hstep.live h0).bytes_congr hgrows.agree]
    · rw [← hstep.left]
      exact ih hstep.ok hops'

/-- **Continuous extraction.**  For every iovector and `n ≥ 1`: the two functions return null iff
fewer than `n` bytes are left.  Otherwise they return a buffer with the first or the last `n` bytes,
and the other bytes are left.  Two iovectors with the same bytes, cut in any two ways, give the same
results for every sequence of calls. -/
theorem continuous_extraction {e : Extractor} (hok : e.Ok) :
    (∀ n, 1 ≤ n → ((e.extractFrontContinuous n).1 = 0 ↔ iovSum e.view < n) ∧
      ((e.extractBackContinuous n).1 = 0 ↔ iovSum e.view < n) ∧
      (n ≤ iovSum e.view →
        Gives e (e.extractFrontContinuous n).2 [⟨(e.extractFrontContinuous n).1, n⟩]
          (e.remaining.take n) (e.remaining.drop n) ∧
        Gives e (e.extractBackContinuous n).2 [⟨(e.extractBackContinuous n).1, n⟩]
          (e.remaining.drop (e.remaining.length - n))
          (e.remaining.take (e.remaining.length - n)))) ∧
    ∀ e' : Extractor, e'.Ok → e'.remaining = e.remaining →
      ∀ ops : List ContOp, (∀ op ∈ ops, 1 ≤ op.size) → e'.results ops = e.results ops := by
  have hsum : e.remaining.length = iovSum e.view := length_bytesOf e.mem e.view
  constructor
  · intro n hn
    refine ⟨⟨fun h0 => ?_, fun hlt => ?_⟩, ⟨fun h0 => ?_, fun hlt => ?_⟩, fun hle => ⟨?_, ?_⟩⟩
    · by_contra hge
      exact (extractFrontContinuous_spec hok hn (by omega)).1 h0
    · exact extractFrontContinuous_short (by omega)
    · by_contra hge
      exact (extractBackContinuous_spec hok hn (by omega)).1 h0
    · exact extractBackContinuous_short (by omega)
    · exact (extractFrontContinuous_spec hok hn (by omega)).2
    · exact (extractBackContinuous_spec hok hn (by omega)).2
  · intro e' hok' hsame ops hops
    rw [results_eq_specAll ops hok' hops, results_eq_specAll ops hok hops, hsame]

instance (brk : ℕ) (v : Iovec) : Decidable (Live brk v) := inferInstanceAs (Decidable (_ ∨ _ ∧ _))

/-- Six bytes in one entry. -/
def oneEntry : Extractor := ⟨[⟨16, 6⟩], fun a => UInt8.ofNat a, 64⟩

/-- The same bytes, cut into three entries with an empty one between them. -/
def fourEntries : Extractor := ⟨[⟨16, 1⟩, ⟨40, 0⟩, ⟨17, 3⟩, ⟨20, 2⟩], fun a => UInt8.ofNat a, 64⟩

/-- The first call is answered in place by one iovector and by a copy by the other, the last one
finds too few bytes. -/
theorem continuous_extraction_cut :
    fourEntries.results [.front 2, .back 3, .front 2]
        = oneEntry.results [.front 2, .back 3, .front 2] ∧
      oneEntry.results [.front 2, .back 3, .front 2]
        = [some [16, 17], some [19, 20, 21], none] :=
  ⟨(continuous_extraction ⟨by decide, by decide⟩).2 fourEntries ⟨by decide, by decide⟩ (by decide) _
    (by decide), by decide⟩

end Extractor

end HuiRpc
