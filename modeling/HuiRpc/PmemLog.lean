/-
# The persistent Raft log

`PmemLog` of `apps/smr/pmem_log.h`, with the crashes of `HuiRpc.Lib.Pmem`.

* `term` and `voted_for` share one aligned word and `num_entries` is another; an entry is written
  byte by byte.
* The log in memory is what `v.num_entries` and the mapped file show; the persisted log is what a
  crash leaves of the file, up to the persisted `num_entries`.
* `pmemLog_crash_consistent` — a crash in any call leaves the log and the vote before the call or
  after it.

Entries are addressed by their index: the mapped file is taken to have room for them.
-/
import HuiRpc.Lib.Pmem

namespace HuiRpc

open Pmem

/-- The parts of the file that are persisted as a whole. -/
inductive PLoc (size : ℕ)
  | termVote
  | numEntries
  | entry (i : ℕ) (j : Fin size)
  deriving DecidableEq

/-- `term` and `voted_for`, `num_entries`, and a byte. -/
abbrev PLoc.Val {size : ℕ} : PLoc size → Type
  | termVote => BitVec 32 × BitVec 32
  | numEntries => ℕ
  | entry _ _ => BitVec 8

/-- A `T`, as its bytes. -/
abbrev LogEntry (size : ℕ) := Fin size → BitVec 8

/-- The file, and the memory that it is in. -/
abbrev PFile (size : ℕ) := ∀ a : PLoc size, a.Val

abbrev PMem (size : ℕ) := Pmem.Mem fun a : PLoc size => a.Val

abbrev PEv (size : ℕ) := Ev fun a : PLoc size => a.Val

namespace PFile

variable {size : ℕ}

def termVote (f : PFile size) : BitVec 32 × BitVec 32 := f .termVote

def entry (f : PFile size) (i : ℕ) : LogEntry size := fun j => f (.entry i j)

/-- The first `n` entries. -/
def entries (f : PFile size) (n : ℕ) : List (LogEntry size) := (List.range n).map f.entry

/-- The persisted log. -/
def log (f : PFile size) : List (LogEntry size) := f.entries (f .numEntries)

theorem log_congr {f g : PFile size} (hnum : f .numEntries = g .numEntries)
    (hentry : ∀ i < g .numEntries, f.entry i = g.entry i) : f.log = g.log := by
  unfold log entries
  rw [hnum]
  exact List.map_congr_left fun i hi => hentry i (List.mem_range.mp hi)

theorem length_entries (f : PFile size) (n : ℕ) : (f.entries n).length = n := by
  simp [entries]

theorem entries_take (f : PFile size) {k n : ℕ} (h : k ≤ n) :
    (f.entries n).take k = f.entries k := by
  unfold entries
  rw [← List.map_take, List.take_range, min_eq_left h]

theorem entries_succ (f : PFile size) (n : ℕ) :
    f.entries (n + 1) = f.entries n ++ [f.entry n] := by
  unfold entries
  rw [List.range_succ, List.map_append]
  rfl

end PFile

/-- `v.num_entries` and the file. -/
structure PmemLog (size : ℕ) where
  numEntries : ℕ
  mem : PMem size

/-- A number as a `size_t`. -/
@[irreducible] def wrap64 (n : ℕ) : ℕ := n % 2 ^ 64

theorem wrap64_lt (n : ℕ) : wrap64 n < 2 ^ 64 := by
  unfold wrap64
  omega

theorem wrap64_of_lt {n : ℕ} (h : n < 2 ^ 64) : wrap64 n = n := by
  unfold wrap64
  omega

theorem wrap64_pred {n : ℕ} (h0 : 0 < n) (h : n < 2 ^ 64) : wrap64 (n + (2 ^ 64 - 1)) = n - 1 := by
  unfold wrap64
  omega

def int32Max : ℤ := 2 ^ 31 - 1

inductive LogCall (size : ℕ)
  | truncate (numEntries : ℕ)
  | pop
  | append (entry : LogEntry size)
  | persistVote (votedFor : BitVec 32)
  | persistTerm (term : ℤ) (votedFor : BitVec 32)

namespace PmemLog

variable {size : ℕ}

/-- `pmem_memcpy_persist` of `num_entries`, and of an entry. -/
def putNumEntries (n : ℕ) : List (PEv size) := persist [⟨.numEntries, n⟩]

def putEntry (i : ℕ) (e : LogEntry size) : List (PEv size) :=
  persist ((List.finRange size).map fun j => ⟨.entry i j, e j⟩)

def putTermVote (p : BitVec 32 × BitVec 32) : List (PEv size) :=
  persist [⟨.termVote, p⟩]

/-- `v.num_entries` after a call. -/
def nextNumEntries (s : PmemLog size) : LogCall size → ℕ
  | .truncate n => wrap64 n
  | .pop => wrap64 (s.numEntries + (2 ^ 64 - 1))
  | .append _ => wrap64 (s.numEntries + 1)
  | .persistVote _ => s.numEntries
  | .persistTerm _ _ => s.numEntries

/-- The writes of a call.  `persist_vote` writes half of the word that it shares with the term;
`persist_term` throws before it writes if the term is too large. -/
def events (s : PmemLog size) (call : LogCall size) : List (PEv size) :=
  match call with
  | .truncate _ => putNumEntries (s.nextNumEntries call)
  | .pop => putNumEntries (s.nextNumEntries call)
  | .append e => putEntry s.numEntries e ++ putNumEntries (s.nextNumEntries call)
  | .persistVote v => putTermVote ((PFile.termVote s.mem.durable).1, v)
  | .persistTerm t v => if t < int32Max then putTermVote (BitVec.ofInt 32 t, v) else []

def step (s : PmemLog size) (call : LogCall size) : PmemLog size :=
  ⟨s.nextNumEntries call, run s.mem (s.events call)⟩

/-- The metadata are reset in the file `old`. -/
def reset (old : PFile size) : PmemLog size :=
  ⟨0, ⟨flush old [⟨.termVote, (0, 0)⟩, ⟨.numEntries, (0 : ℕ)⟩], []⟩⟩

/-- The constructor: the metadata are reset and a garbage entry is appended. -/
def init (old : PFile size) (garbage : LogEntry size) : PmemLog size :=
  (reset old).step (.append garbage)

def runCalls (s : PmemLog size) (calls : List (LogCall size)) : PmemLog size := calls.foldl step s

/-- The log and the vote in memory. -/
def log (s : PmemLog size) : List (LogEntry size) :=
  PFile.entries (flush s.mem.durable s.mem.pending) s.numEntries

def termVote (s : PmemLog size) : BitVec 32 × BitVec 32 :=
  PFile.termVote (flush s.mem.durable s.mem.pending)

end PmemLog

/-! ## What the calls mean -/

namespace LogCall

variable {size : ℕ}

/-- A call on a list of entries. -/
def onLog (l : List (LogEntry size)) : LogCall size → List (LogEntry size)
  | truncate n => l.take n
  | pop => l.dropLast
  | append e => l ++ [e]
  | persistVote _ => l
  | persistTerm _ _ => l

/-- A call on term and vote. -/
def onTermVote (p : BitVec 32 × BitVec 32) : LogCall size → BitVec 32 × BitVec 32
  | persistVote v => (p.1, v)
  | persistTerm t v => if t < int32Max then (BitVec.ofInt 32 t, v) else p
  | _ => p

/-- The call is one of a list: `truncate` does not extend it, `pop` has an entry to pop, and the
length stays a `size_t`. -/
def InRange (l : List (LogEntry size)) : LogCall size → Prop
  | truncate n => n ≤ l.length
  | pop => l ≠ []
  | append _ => l.length + 1 < 2 ^ 64
  | persistVote _ => True
  | persistTerm _ _ => True

end LogCall

namespace PmemLog

variable {size : ℕ} {s : PmemLog size} {call : LogCall size}

/-! ## Between calls -/

/-- Between calls nothing is pending, and the persisted number of entries is the `size_t` in
memory. -/
structure Quiet (s : PmemLog size) : Prop where
  pending : s.mem.pending = []
  numEntries : s.mem.durable .numEntries = s.numEntries
  lt : s.numEntries < 2 ^ 64

theorem Quiet.log_eq (h : s.Quiet) : s.log = PFile.log s.mem.durable := by
  unfold log PFile.log
  rw [h.pending, h.numEntries]
  rfl

theorem Quiet.termVote_eq (h : s.Quiet) : s.termVote = PFile.termVote s.mem.durable := by
  unfold termVote
  rw [h.pending]
  rfl

/-- The file with an entry. -/
def withEntry (f : PFile size) (i : ℕ) (e : LogEntry size) : PFile size :=
  flush f ((List.finRange size).map fun j => ⟨.entry i j, e j⟩)

/-- The file after a call. -/
def fileAfter (s : PmemLog size) (call : LogCall size) : PFile size :=
  match call with
  | .truncate _ => Function.update s.mem.durable .numEntries (s.nextNumEntries call)
  | .pop => Function.update s.mem.durable .numEntries (s.nextNumEntries call)
  | .append e =>
    Function.update (withEntry s.mem.durable s.numEntries e) .numEntries (s.nextNumEntries call)
  | .persistVote _ => Function.update s.mem.durable .termVote (call.onTermVote s.termVote)
  | .persistTerm _ _ => Function.update s.mem.durable .termVote (call.onTermVote s.termVote)

/-- An entry is not the metadata, nor another entry. -/
theorem withEntry_of_ne {f : PFile size} {i : ℕ} {e : LogEntry size} {a : PLoc size}
    (ha : ∀ j, a ≠ .entry i j) : withEntry f i e a = f a := by
  refine flush_of_notMem fun w hw => ?_
  obtain ⟨j, -, rfl⟩ := List.mem_map.mp hw
  exact (ha j).symm

theorem withEntry_entry (f : PFile size) (i : ℕ) (e : LogEntry size) :
    PFile.entry (withEntry f i e) i = e := by
  funext j
  have hmem := flush_mem (f := f) (List.mem_map_of_mem (f := fun j : Fin size =>
    (⟨.entry i j, e j⟩ : (a : PLoc size) × a.Val)) (List.mem_finRange j))
  obtain ⟨j', -, heq⟩ := List.mem_map.mp hmem
  obtain ⟨hloc, hval⟩ := Sigma.mk.inj heq
  cases hloc
  exact (eq_of_heq hval).symm

/-- **What a call leaves.** -/
theorem Quiet.step_mem (h : s.Quiet) (call : LogCall size) :
    (s.step call).mem = ⟨s.fileAfter call, []⟩ := by
  have hp := h.pending
  cases call with
  | truncate n => exact run_persist hp _
  | pop => exact run_persist hp _
  | append e =>
    show run s.mem (putEntry s.numEntries e ++ putNumEntries _) = _
    rw [run_append, putEntry, run_persist hp]
    exact run_persist rfl _
  | persistVote v =>
    show run s.mem (persist [⟨.termVote, (_, v)⟩]) = _
    rw [← h.termVote_eq]
    exact run_persist hp _
  | persistTerm t v =>
    show run s.mem (if t < int32Max then _ else []) = _
    by_cases ht : t < int32Max
    · have hafter : (LogCall.persistTerm t v : LogCall size).onTermVote s.termVote
          = (BitVec.ofInt 32 t, v) := if_pos ht
      rw [if_pos ht, fileAfter, hafter]
      exact run_persist hp _
    · -- nothing is written
      have hafter : (LogCall.persistTerm t v : LogCall size).onTermVote s.termVote = s.termVote :=
        if_neg ht
      rw [if_neg ht, fileAfter, hafter, h.termVote_eq]
      show s.mem = ⟨Function.update s.mem.durable _ (s.mem.durable .termVote), []⟩
      rw [Function.update_eq_self, ← hp]

theorem Quiet.step (h : s.Quiet) (call : LogCall size) : (s.step call).Quiet := by
  refine ⟨by rw [h.step_mem], ?_, ?_⟩
  · rw [h.step_mem]
    show s.fileAfter call .numEntries = s.nextNumEntries call
    cases call with
    | truncate n => rw [fileAfter, Function.update_self]
    | pop => rw [fileAfter, Function.update_self]
    | append e => rw [fileAfter, Function.update_self]
    | persistVote v => exact h.numEntries
    | persistTerm t v => exact h.numEntries
  · cases call with
    | truncate n => exact wrap64_lt _
    | pop => exact wrap64_lt _
    | append e => exact wrap64_lt _
    | persistVote v => exact h.lt
    | persistTerm t v => exact h.lt

/-! ## Crashes -/

/-- An entry beyond the end does not count. -/
theorem Quiet.hidden (h : s.Quiet) {f : PFile size}
    (hf : ∀ a, (∀ j, a ≠ .entry s.numEntries j) → f a = s.mem.durable a) :
    f.log = PFile.log s.mem.durable ∧ f.termVote = PFile.termVote s.mem.durable := by
  refine ⟨PFile.log_congr (hf _ fun j => by simp) fun i hi => ?_, hf _ fun j => by simp⟩
  rw [h.numEntries] at hi
  funext j
  refine hf (.entry i j) fun j' heq => ?_
  rw [PLoc.entry.injEq] at heq
  exact absurd heq.1 (Nat.ne_of_lt hi)

/-- **A crash in a call** leaves the log, term and vote of before, or the file of after. -/
theorem Quiet.crash (h : s.Quiet) {pre : List (PEv size)} (hpre : pre <+: s.events call)
    {img : PFile size} (himg : Image (run s.mem pre) img) :
    (img.log = PFile.log s.mem.durable ∧ img.termVote = PFile.termVote s.mem.durable) ∨
      img = s.fileAfter call := by
  -- a copy of one part is atomic
  have hsingle : ∀ w : (a : PLoc size) × a.Val, pre <+: persist [w] →
      (img.log = PFile.log s.mem.durable ∧ img.termVote = PFile.termVote s.mem.durable) ∨
        img = Function.update s.mem.durable w.1 w.2 := by
    intro w hw
    rcases himg.of_persist_single h.pending hw with rfl | rfl
    · exact Or.inl ⟨rfl, rfl⟩
    · exact Or.inr rfl
  cases call with
  | truncate n => exact hsingle _ hpre
  | pop => exact hsingle _ hpre
  | persistVote v =>
    have hafter := hsingle _ hpre
    rw [← h.termVote_eq] at hafter ⊢
    exact hafter
  | persistTerm t v =>
    rw [events] at hpre
    split_ifs at hpre with ht
    · have hafter := hsingle _ hpre
      rw [fileAfter, show (LogCall.persistTerm t v : LogCall size).onTermVote s.termVote
        = (BitVec.ofInt 32 t, v) from if_pos ht]
      exact hafter
    · rw [List.prefix_nil.mp hpre] at himg
      rw [himg.of_pending_nil h.pending]
      exact Or.inl ⟨rfl, rfl⟩
  | append e =>
    rcases prefix_append_cases hpre with hpre | ⟨rest, hrest, rfl⟩
    · -- the entry is being written behind the end of the log
      left
      refine h.hidden fun a ha => (himg.of_persist h.pending hpre a).resolve_right fun hmem => ?_
      obtain ⟨j, -, heq⟩ := List.mem_map.mp hmem
      exact ha j (congrArg Sigma.fst heq).symm
    · -- the entry is in the file, and `num_entries` is being written
      rw [run_append, putEntry, run_persist h.pending] at himg
      rcases himg.of_persist_single rfl hrest with rfl | rfl
      · exact Or.inl (h.hidden fun a ha => withEntry_of_ne ha)
      · exact Or.inr rfl

/-! ## What the calls do -/

theorem Quiet.step_termVote (h : s.Quiet) (call : LogCall size) :
    (s.step call).termVote = call.onTermVote s.termVote := by
  rw [(h.step call).termVote_eq, h.step_mem]
  show s.fileAfter call .termVote = _
  cases call with
  | truncate n => exact h.termVote_eq.symm
  | pop => exact h.termVote_eq.symm
  | append e =>
    rw [fileAfter, Function.update_of_ne (by simp), withEntry_of_ne (by simp)]
    exact h.termVote_eq.symm
  | persistVote v => rw [fileAfter, Function.update_self]
  | persistTerm t v => rw [fileAfter, Function.update_self]

theorem length_log (s : PmemLog size) : s.log.length = s.numEntries := by
  exact PFile.length_entries _ _

/-- **On lists**: the calls do what they are called after. -/
theorem Quiet.step_log (h : s.Quiet) (hr : call.InRange s.log) :
    (s.step call).log = call.onLog s.log := by
  have hlen := s.length_log
  have hlt := h.lt
  -- the logs before and after, as entries of the file
  have hbefore : s.log = PFile.entries s.mem.durable s.numEntries := by
    rw [h.log_eq, PFile.log, h.numEntries]
  have hafter : (s.step call).log = PFile.entries (s.fileAfter call) (s.nextNumEntries call) := by
    unfold log
    rw [h.step_mem]
    rfl
  rw [hafter]
  cases call with
  | truncate n =>
    have hn : n ≤ s.numEntries := hlen ▸ hr
    rw [nextNumEntries, wrap64_of_lt (hn.trans_lt hlt), LogCall.onLog, hbefore,
      PFile.entries_take _ hn]
    rfl
  | pop =>
    have hpos : 0 < s.numEntries := hlen ▸ List.length_pos_of_ne_nil hr
    rw [nextNumEntries, wrap64_pred hpos hlt, LogCall.onLog, List.dropLast_eq_take, hlen, hbefore,
      PFile.entries_take _ (Nat.sub_le _ _)]
    rfl
  | append e =>
    have hroom : s.numEntries + 1 < 2 ^ 64 := hlen ▸ hr
    rw [nextNumEntries, wrap64_of_lt hroom, LogCall.onLog, hbefore, PFile.entries_succ]
    -- the old entries are where they were
    have hold : PFile.entries (s.fileAfter (.append e)) s.numEntries
        = PFile.entries s.mem.durable s.numEntries := by
      refine List.map_congr_left fun i hi => funext fun j => ?_
      refine withEntry_of_ne fun j' heq => ?_
      rw [PLoc.entry.injEq] at heq
      exact absurd heq.1 (Nat.ne_of_lt (List.mem_range.mp hi))
    have hnew : PFile.entry (s.fileAfter (.append e)) s.numEntries = e :=
      withEntry_entry s.mem.durable s.numEntries e
    rw [hold, hnew]
  | persistVote v => exact hbefore.symm
  | persistTerm t v => exact hbefore.symm

/-! ## Runs -/

theorem reset_quiet (old : PFile size) : (reset old).Quiet :=
  ⟨rfl, rfl, Nat.two_pow_pos 64⟩

theorem init_log (old : PFile size) (garbage : LogEntry size) :
    (init old garbage).log = [garbage] := by
  have hroom : (LogCall.append garbage).InRange (reset old).log := by
    show 0 + 1 < 2 ^ 64
    decide
  exact (reset_quiet old).step_log hroom

/-- The log after the constructor and some calls. -/
def afterCalls (old : PFile size) (garbage : LogEntry size) (calls : List (LogCall size)) :
    PmemLog size :=
  (init old garbage).runCalls calls

theorem afterCalls_snoc (old : PFile size) (garbage : LogEntry size) (calls : List (LogCall size))
    (call : LogCall size) :
    afterCalls old garbage (calls ++ [call]) = (afterCalls old garbage calls).step call :=
  List.foldl_append

/-- **Runs**: the log is quiet, with the term and vote that the calls established. -/
theorem afterCalls_spec (old : PFile size) (garbage : LogEntry size)
    (calls : List (LogCall size)) :
    (afterCalls old garbage calls).Quiet ∧
      (afterCalls old garbage calls).termVote = calls.foldl LogCall.onTermVote (0, 0) := by
  induction calls using List.reverseRecOn with
  | nil => exact ⟨(reset_quiet old).step _, (reset_quiet old).step_termVote _⟩
  | append_singleton calls call ih =>
    rw [afterCalls_snoc, List.foldl_append]
    refine ⟨ih.1.step call, ?_⟩
    rw [ih.1.step_termVote, ih.2]
    rfl

/-- **Crash consistency.**  A crash in any call of any sequence leaves the log of before or after
the call, with the term and vote that the calls had established by then; and the log in memory is
the list that the calls build from the garbage entry. -/
theorem pmemLog_crash_consistent (old : PFile size) (garbage : LogEntry size)
    (calls : List (LogCall size)) (call : LogCall size) :
    (∀ pre img, pre <+: (afterCalls old garbage calls).events call →
      Image (run (afterCalls old garbage calls).mem pre) img →
      ∃ calls' ∈ [calls, calls ++ [call]], PFile.log img = (afterCalls old garbage calls').log ∧
        PFile.termVote img = calls'.foldl LogCall.onTermVote (0, 0)) ∧
    (afterCalls old garbage []).log = [garbage] ∧
    (call.InRange (afterCalls old garbage calls).log →
      (afterCalls old garbage (calls ++ [call])).log
        = call.onLog (afterCalls old garbage calls).log) := by
  obtain ⟨hquiet, hvote⟩ := afterCalls_spec old garbage calls
  obtain ⟨hquiet', hvote'⟩ := afterCalls_spec old garbage (calls ++ [call])
  refine ⟨fun pre img hpre himg => ?_, init_log old garbage, fun hr => ?_⟩
  · rcases hquiet.crash hpre himg with ⟨hlog, hterm⟩ | rfl
    · refine ⟨calls, by simp, ?_, ?_⟩
      · rw [hquiet.log_eq, hlog]
      · rw [hterm, ← hquiet.termVote_eq, hvote]
    · refine ⟨calls ++ [call], by simp, ?_, ?_⟩
      · rw [hquiet'.log_eq, afterCalls_snoc, hquiet.step_mem]
      · rw [← hvote', hquiet'.termVote_eq, afterCalls_snoc, hquiet.step_mem]
  · rw [afterCalls_snoc]
    exact hquiet.step_log hr

end PmemLog

end HuiRpc
