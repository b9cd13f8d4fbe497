/-
# The invariant of a session

All slots of a session follow the protocol of `HuiRpc.SlotProtocol`, the credits that are not
at hand are those of packets that wait for an answer, and the free-slot vector, the stall queue
and the continuations invoked so far account for every request.

A step moves one slot and leaves the others alone.  `Moved` says what such a step has to show
about its slot; the invariant of the session follows from it, and so does the decrease of
`Sys.work`, the number of protocol steps left.
-/
import HuiRpc.SlotSteps
import HuiRpc.Lib.Tickets

namespace HuiRpc

open Runs

variable {E : Env} {s s' : Sys} {i j : ℕ}

/-! ## Slots in a session -/

/-- What concerns slot `i`. -/
def Sys.view (s : Sys) (i : ℕ) : View :=
  ⟨s.cli.slots i, s.srv.slots i, ofSlot i s.cli.tx, ofSlot i s.srv.tx, s.trace i⟩

/-- The slot has a request. -/
def Sys.Active (s : Sys) (i : ℕ) : Prop := (s.cli.slots i).txMsgbuf ≠ none

/-- A slot without a request. -/
structure Idle (v : View) : Prop where
  tx : v.cs.txMsgbuf = none
  up : v.up = []
  down : v.down = []
  unacked : v.tr.unacked = 0
  settled : v.tr.called = 0 ∨ v.tr.resp.isSome
  synced : v.ss.curReqNum = v.cs.curReqNum % 2 ^ 32

/-- A slot with a request: it follows the protocol, and it has a packet outstanding unless it
has not started. -/
def Running (E : Env) (v : View) : Prop :=
  ∃ s q c, Core E v s q c ∧ (v.cs.numTx = 0 ∨ c < v.cs.numTx)

structure SlotInv (E : Env) (i : ℕ) (v : View) : Prop where
  num : v.cs.curReqNum % kSessionReqWindow = i
  cap : v.ss.reqIov.capacity < 2 ^ 16
  state : Idle v ∨ Running E v

/-- All packets that the client may have to send for an RPC.  The number of response packets
counts as large as it can be before the answer. -/
def Trace.total (t : Trace) : ℕ := t.N + if t.resp.isSome then t.M - 1 else pkgIndexSize

/-- Steps that an RPC still has to take, at least. -/
def View.work (v : View) : ℕ :=
  match v.cs.txMsgbuf with
  | none => 0
  | some _ => 3 * (v.tr.total - v.cs.numTx) + 2 * v.up.length + v.down.length

def Sys.work (s : Sys) : ℕ := ∑ i ∈ Finset.range kSessionReqWindow, (s.view i).work

/-! ## The invariant -/

/-- Slots and credits. -/
structure Base (E : Env) (s : Sys) : Prop where
  slot : ∀ i, i < kSessionReqWindow → SlotInv E i (s.view i)
  credits : s.cli.credits + ∑ i ∈ Finset.range kSessionReqWindow, (s.trace i).unacked
    = kSessionCredits
  ok : s.cli.ok = true
  backlog : s.cli.backlog = []

/-- The record of a completed RPC with `N` request and `M` response packets. -/
structure Done.Ok (E : Env) (d : Done) : Prop where
  answered : d.trace.resp.isSome
  called : d.trace.called = 1
  numTx : d.numTx = d.trace.N + d.trace.M - 1
  cliSent : d.trace.cliSent
    = (seg (d.trace.cliPkt E) 0 (d.trace.N + d.trace.M - 1)).map WirePkt.hdr
  srvSent : d.trace.srvSent
    = (seg (d.trace.srvPkt E) 0 (d.trace.N + d.trace.M - 1)).map WirePkt.hdr
  cliRcvd : d.trace.cliRcvd
    = (seg (d.trace.srvPkt E) 0 (d.trace.N + d.trace.M - 1)).map WirePkt.hdr
  buf : d.buf.Holds d.trace.respMsg

/-- The queues of the client and the tags of the requests: a request is a ticket, held by its
slot and used when the request is done. -/
structure Books (E : Env) (s : Sys) : Prop where
  tickets : Tickets.Book (· < kSessionReqWindow) s.Active (fun i => (s.cli.slots i).tag)
    s.cli.freeVec (s.done.map Done.tag) s.next
  stallNodup : s.cli.stallq.Nodup
  stall : ∀ i, i ∈ s.cli.stallq ↔
    i < kSessionReqWindow ∧ s.Active i ∧ (s.cli.slots i).numTx = 0
  conts : s.cli.conts = s.done.map fun d => (d.tag, d.buf)
  done : ∀ d ∈ s.done, d.Ok E
  tagAll : ∀ t, t < s.next → t ∈ s.done.map Done.tag ∨
    ∃ i, i < kSessionReqWindow ∧ s.Active i ∧ (s.cli.slots i).tag = t

/-- **The invariant of a session.** -/
structure Inv (E : Env) (s : Sys) : Prop where
  base : Base E s
  books : Books E s

/-! ## Moving one slot -/

/-- A step that moves slot `i` only. -/
structure Moved (E : Env) (s s' : Sys) (i : ℕ) : Prop where
  lt : i < kSessionReqWindow
  others : ∀ j, j ≠ i → s'.view j = s.view j
  slot : SlotInv E i (s'.view i)
  credits : s'.cli.credits + (s'.trace i).unacked = s.cli.credits + (s.trace i).unacked
  ok : s'.cli.ok = s.cli.ok
  backlog : s'.cli.backlog = s.cli.backlog

theorem Base.moved (h : Base E s) (hm : Moved E s s' i) : Base E s' where
  slot := by
    intro j hj
    by_cases hji : j = i
    · rw [hji]
      exact hm.slot
    · rw [hm.others j hji]
      exact h.slot j hj
  credits := by
    have hsum := sum_range_replace (f := fun j => (s'.trace j).unacked)
      (g := fun j => (s.trace j).unacked) hm.lt fun j hj => by
        have := congrArg View.tr (hm.others j hj)
        show Trace.unacked (s'.view j).tr = Trace.unacked (s.view j).tr
        rw [this]
    have hcr := hm.credits
    have hold := h.credits
    omega
  ok := hm.ok.trans h.ok
  backlog := hm.backlog.trans h.backlog

theorem Moved.work_lt (hm : Moved E s s' i) (hw : (s'.view i).work < (s.view i).work) :
    s'.work < s.work := by
  have hsum := sum_range_replace (f := fun j => (s'.view j).work) (g := fun j => (s.view j).work)
    hm.lt fun j hj => by
      show (s'.view j).work = (s.view j).work
      rw [hm.others j hj]
  unfold Sys.work
  omega

/-! ## The books -/

theorem Sys.active_congr (h : s'.cli.slots j = s.cli.slots j) : s'.Active j ↔ s.Active j := by
  unfold Sys.Active
  rw [h]

theorem Sys.sameBut (h : ∀ j, j ≠ i → s'.cli.slots j = s.cli.slots j) :
    Tickets.SameBut i s.Active s'.Active (fun j => (s.cli.slots j).tag)
      fun j => (s'.cli.slots j).tag :=
  fun j hj => ⟨Sys.active_congr (h j hj), congrArg CliSlot.tag (h j hj)⟩

/-- The books only depend on the slots and queues of the client. -/
theorem Books.congr (h : Books E s) (hslots : s'.cli.slots = s.cli.slots)
    (hfree : s'.cli.freeVec = s.cli.freeVec) (hstall : s'.cli.stallq = s.cli.stallq)
    (hconts : s'.cli.conts = s.cli.conts) (hdone : s'.done = s.done) (hnext : s'.next = s.next) :
    Books E s' := by
  have hact : s'.Active = s.Active := funext fun j =>
    propext (Sys.active_congr (congrFun hslots j))
  obtain ⟨htickets, hnd, hst, hc, hd, hall⟩ := h
  refine ⟨?_, ?_, ?_, ?_, ?_, ?_⟩
  · rw [hact, hslots, hfree, hdone, hnext]
    exact htickets
  · rwa [hstall]
  · rwa [hstall, hact, hslots]
  · rwa [hconts, hdone]
  · rwa [hdone]
  · rwa [hnext, hdone, hact, hslots]

/-- The books when slot `i` goes on with its request. -/
theorem Books.stay (h : Books E s) (hold : s.Active i) (hnew : s'.Active i)
    (hothers : ∀ j, j ≠ i → s'.cli.slots j = s.cli.slots j)
    (htag : (s'.cli.slots i).tag = (s.cli.slots i).tag) (hfree : s'.cli.freeVec = s.cli.freeVec)
    (hconts : s'.cli.conts = s.cli.conts) (hdone : s'.done = s.done) (hnext : s'.next = s.next)
    (hnd : s'.cli.stallq.Nodup)
    (hstall : ∀ j, j ∈ s'.cli.stallq ↔
      j < kSessionReqWindow ∧ s'.Active j ∧ (s'.cli.slots j).numTx = 0) : Books E s' where
  tickets := by
    rw [hfree, hdone, hnext]
    exact h.tickets.stay (Sys.sameBut hothers) hold hnew htag
  stallNodup := hnd
  stall := hstall
  conts := by rw [hconts, hdone, h.conts]
  done := hdone ▸ h.done
  tagAll := by
    intro t ht
    rw [hnext] at ht
    rw [hdone]
    rcases h.tagAll t ht with hd | ⟨j, hj, ha, htj⟩
    · exact Or.inl hd
    · by_cases hji : j = i
      · rw [hji] at hj htj
        exact Or.inr ⟨i, hj, hnew, htag.trans htj⟩
      · exact Or.inr ⟨j, hj, (Sys.active_congr (hothers j hji)).mpr ha, by rwa [hothers j hji]⟩

/-- The books when a slot moves on that is not in the stall queue, before or after. -/
theorem Books.moved (h : Books E s) (hm : Moved E s s' i) (hfree : s'.cli.freeVec = s.cli.freeVec)
    (hstall : s'.cli.stallq = s.cli.stallq) (hconts : s'.cli.conts = s.cli.conts)
    (hdone : s'.done = s.done) (hnext : s'.next = s.next) (hold : s.Active i) (hnew : s'.Active i)
    (htag : (s'.cli.slots i).tag = (s.cli.slots i).tag)
    (hzero : (s'.cli.slots i).numTx = 0 ↔ (s.cli.slots i).numTx = 0) : Books E s' := by
  have hothers : ∀ j, j ≠ i → s'.cli.slots j = s.cli.slots j := fun j hj =>
    congrArg View.cs (hm.others j hj)
  refine h.stay hold hnew hothers htag hfree hconts hdone hnext (hstall ▸ h.stallNodup) ?_
  intro j
  rw [hstall, h.stall]
  by_cases hj : j = i
  · rw [hj, hzero, iff_of_true hold hnew]
  · rw [Sys.active_congr (hothers j hj), hothers j hj]

/-- The books when slot `i` leaves the stall queue. -/
theorem Books.leaveStall (h : Books E s) (hi : i ∈ s.cli.stallq)
    (hothers : ∀ j, j ≠ i → s'.cli.slots j = s.cli.slots j) (hact : s'.Active i)
    (hpos : (s'.cli.slots i).numTx ≠ 0) (htag : (s'.cli.slots i).tag = (s.cli.slots i).tag)
    (hfree : s'.cli.freeVec = s.cli.freeVec) (hstall : s'.cli.stallq = s.cli.stallq.erase i)
    (hconts : s'.cli.conts = s.cli.conts) (hdone : s'.done = s.done)
    (hnext : s'.next = s.next) : Books E s' := by
  refine h.stay ((h.stall i).mp hi).2.1 hact hothers htag hfree hconts hdone hnext
    (hstall ▸ h.stallNodup.erase i) ?_
  intro j
  rw [hstall, h.stallNodup.mem_erase_iff]
  by_cases hj : j = i
  · rw [hj]
    exact iff_of_false (fun hx => hx.1 rfl) fun hx => hpos hx.2.2
  · rw [Sys.active_congr (hothers j hj), hothers j hj, ← h.stall]
    exact and_iff_right hj

/-- The books when slot `i` completes its RPC. -/
theorem Books.finish {d : Done} (h : Books E s) (hi : i < kSessionReqWindow) (hact : s.Active i)
    (hstart : (s.cli.slots i).numTx ≠ 0) (hd : d.Ok E) (htag : d.tag = (s.cli.slots i).tag)
    (hothers : ∀ j, j ≠ i → s'.cli.slots j = s.cli.slots j) (hidle : ¬ s'.Active i)
    (hfree : s'.cli.freeVec = i :: s.cli.freeVec) (hstall : s'.cli.stallq = s.cli.stallq)
    (hconts : s'.cli.conts = s.cli.conts ++ [(d.tag, d.buf)]) (hdone : s'.done = s.done ++ [d])
    (hnext : s'.next = s.next) : Books E s' := by
  have htags : s'.done.map Done.tag = s.done.map Done.tag ++ [(s.cli.slots i).tag] := by
    rw [hdone, List.map_append, List.map_singleton, htag]
  exact {
    tickets := by
      rw [hfree, htags, hnext]
      exact h.tickets.release (Sys.sameBut hothers) hi hact hidle
    stallNodup := hstall ▸ h.stallNodup
    stall := by
      intro j
      rw [hstall, h.stall]
      by_cases hj : j = i
      · rw [hj]
        exact iff_of_false (fun hx => hstart hx.2.2) fun hx => hidle hx.2.1
      · rw [Sys.active_congr (hothers j hj), hothers j hj]
    conts := by
      rw [hconts, hdone, h.conts, List.map_append]
      rfl
    done := by
      intro x hx
      rw [hdone, List.mem_append, List.mem_singleton] at hx
      rcases hx with hx | rfl
      · exact h.done x hx
      · exact hd
    tagAll := by
      intro t ht
      rw [hnext] at ht
      rw [htags, List.mem_append, List.mem_singleton]
      rcases h.tagAll t ht with hx | ⟨j, hj, ha, htj⟩
      · exact Or.inl (Or.inl hx)
      · by_cases hji : j = i
        · rw [hji] at htj
          exact Or.inl (Or.inr htj.symm)
        · refine Or.inr ⟨j, hj, (Sys.active_congr (hothers j hji)).mpr ha, ?_⟩
          rw [hothers j hji]
          exact htj }

/-- The books when slot `i` gets the next request and waits in the stall queue. -/
theorem Books.start {rest : List ℕ} (h : Books E s) (hfree : s.cli.freeVec = i :: rest)
    (hfree' : s'.cli.freeVec = rest) (hothers : ∀ j, j ≠ i → s'.cli.slots j = s.cli.slots j)
    (hact : s'.Active i) (hzero : (s'.cli.slots i).numTx = 0)
    (htag : (s'.cli.slots i).tag = s.next) (hstall : s'.cli.stallq = s.cli.stallq ++ [i])
    (hconts : s'.cli.conts = s.cli.conts) (hdone : s'.done = s.done)
    (hnext : s'.next = s.next + 1) : Books E s' := by
  have hmem : i ∈ s.cli.freeVec := by
    rw [hfree]
    exact List.mem_cons_self ..
  obtain ⟨hi, hidle⟩ := (h.tickets.mem_free i).mp hmem
  have hnotin : i ∉ s.cli.stallq := fun hx => hidle ((h.stall i).mp hx).2.1
  exact {
    tickets := by
      rw [hfree', hdone, hnext]
      have hbook := h.tickets
      rw [hfree] at hbook
      exact hbook.take (Sys.sameBut hothers) hact htag
    stallNodup := by
      rw [hstall, List.nodup_append]
      refine ⟨h.stallNodup, List.nodup_singleton _, ?_⟩
      rintro x hx y hy rfl
      rw [List.mem_singleton] at hy
      exact hnotin (hy ▸ hx)
    stall := by
      intro j
      rw [hstall, List.mem_append, List.mem_singleton]
      by_cases hj : j = i
      · rw [hj]
        exact iff_of_true (Or.inr rfl) ⟨hi, hact, hzero⟩
      · rw [Sys.active_congr (hothers j hj), hothers j hj, ← h.stall]
        exact or_iff_left hj
    conts := by rw [hconts, hdone, h.conts]
    done := hdone ▸ h.done
    tagAll := by
      intro t ht
      rw [hdone]
      by_cases htn : t = s.next
      · exact Or.inr ⟨i, hi, hact, htag.trans htn.symm⟩
      · rcases h.tagAll t (by omega) with hx | ⟨j, hj, ha, htj⟩
        · exact Or.inl hx
        · have hji : j ≠ i := by
            rintro rfl
            exact hidle ha
          refine Or.inr ⟨j, hj, (Sys.active_congr (hothers j hji)).mpr ha, ?_⟩
          rw [hothers j hji]
          exact htj }

end HuiRpc
