/-
# Every RPC of a session

The invariant of `HuiRpc.SessionInv` holds in every reachable state, since the session starts
with it and every action keeps it.  What it says about RPCs:

* `rpcs_exactly_once` — packet numbers, counters and the continuation of every RPC, finished
  or not, and that every RPC gets finished;
* `credits_conserved` — where the credits of the session are.
-/
import HuiRpc.SessionSteps

namespace HuiRpc

open Runs

variable {E : Env} {s : Sys} {i : ℕ}

/-! ## The invariant of reachable states -/

theorem Idle.init {i : ℕ} (hi : i < kSessionReqWindow) : Idle (Sys.init.view i) :=
  ⟨rfl, rfl, rfl, rfl, Or.inl rfl, (Nat.mod_eq_of_lt (lt_trans hi (by decide))).symm⟩

theorem Sys.not_active_init (i : ℕ) : ¬ Sys.init.Active i := fun h => h rfl

theorem Inv.init (E : Env) : Inv E Sys.init where
  base := {
    slot := fun i hi => ⟨Nat.mod_eq_of_lt hi, Nat.two_pow_pos 16, Or.inl (Idle.init hi)⟩
    credits := by
      rfl
    ok := rfl
    backlog := rfl }
  books := {
    tickets := Tickets.Book.start List.nodup_range (fun _ => List.mem_range) Sys.not_active_init
    stallNodup := List.nodup_nil
    stall := fun i => iff_of_false List.not_mem_nil fun h => Sys.not_active_init i h.2.1
    conts := rfl
    done := fun d hd => absurd hd List.not_mem_nil
    tagAll := fun t ht => absurd ht (Nat.not_lt_zero t) }

/-- The application enqueues a request. -/
def Act.isEnqueue : Act → Bool
  | .enqueue _ _ _ => true
  | _ => false

/-- **One step.**  An action that may be taken does not fail and keeps the invariant.  Other than
a new request it gets work done, or is a pass over the stall queue with nothing to do. -/
theorem Inv.step (h : Inv E s) {a : Act} (hen : s.Enabled a) :
    ∃ s', s.step E a = some s' ∧ Inv E s' ∧ (a.isEnqueue = true ∨ s'.work < s.work ∨
      (a = .stall ∧ s' = s ∧ (s.cli.stallq = [] ∨ s.cli.credits = 0))) := by
  cases a with
  | enqueue reqType lkey msg =>
    obtain ⟨s', hs, hinv⟩ := h.enqueue hen reqType lkey msg
    exact ⟨s', hs, hinv, Or.inl rfl⟩
  | answer i lkey msg =>
    obtain ⟨s', hs, hinv, hlt⟩ := h.answer hen
    exact ⟨s', hs, hinv, Or.inr (Or.inl hlt)⟩
  | recvSrv preReq body =>
    obtain ⟨s', hs, hinv, hlt⟩ := h.recvSrv hen preReq body
    exact ⟨s', hs, hinv, Or.inr (Or.inl hlt)⟩
  | recvCli stale =>
    obtain ⟨s', hs, hinv, hlt⟩ := h.recvCli hen stale
    exact ⟨s', hs, hinv, Or.inr (Or.inl hlt)⟩
  | stall =>
    obtain ⟨s', hs, hinv, hlt | hsame⟩ := h.stall
    · exact ⟨s', hs, hinv, Or.inr (Or.inl hlt)⟩
    · exact ⟨s', hs, hinv, Or.inr (Or.inr ⟨rfl, hsame⟩)⟩

theorem Reachable.inv (h : Reachable E s) : Inv E s := by
  obtain ⟨as, hrun⟩ := h
  refine hrun.invariant (Inv.init E) ?_
  intro s a s' hinv hen hs
  obtain ⟨s'', hs'', hinv', -⟩ := hinv.step hen
  rw [hs''] at hs
  exact Option.some.inj hs ▸ hinv'

/-! ## Packet numbers -/

/-- The packet numbers of the packets of one type, in the order of the list. -/
def pktNums (ty : PktType) (hs : List Pkthdr) : List ℕ :=
  (hs.filter fun h => h.pktType = ty).map Pkthdr.pktNum

namespace Trace

variable {t : Trace} {a : ℕ}

/-- Request packets among the first `a` packets of the client. -/
theorem pktNums_req (E : Env) (ha : a ≤ t.N + t.M - 1) :
    pktNums .kReq ((seg (t.cliPkt E) 0 a).map WirePkt.hdr) = List.range (min t.N a) := by
  unfold pktNums
  rw [map_seg, filter_seg_lt (a := t.N), map_seg, seg_eq_map_range]
  · refine (List.map_congr_left ?_).trans (List.map_id _)
    intro k hk
    rw [List.mem_range] at hk
    rw [Nat.zero_add, cliPkt_num E (by omega), if_pos (by omega), id]
  · intro k _
    rw [cliPkt_type]
    split_ifs with hN <;> simp [hN]

/-- RFRs among the first `a` packets of the client. -/
theorem pktNums_rfr (E : Env) (ha : a ≤ t.N + t.M - 1) :
    pktNums .kRFR ((seg (t.cliPkt E) 0 a).map WirePkt.hdr) = List.range' 1 (a - t.N) := by
  unfold pktNums
  rw [map_seg, filter_seg_ge (a := t.N), map_seg, seg_eq_map_range, List.range'_eq_map_range]
  · apply List.map_congr_left
    intro k hk
    rw [List.mem_range] at hk
    rw [cliPkt_num E (by omega), if_neg (by omega)]
    omega
  · intro k _
    rw [cliPkt_type]
    split_ifs with hN
    · simp [hN]
    · simp [Nat.le_of_not_lt hN]

/-- Response packets among the first `a` packets of the server. -/
theorem pktNums_resp (E : Env) (ha : a ≤ t.N + t.M - 1) :
    pktNums .kResp ((seg (t.srvPkt E) 0 a).map WirePkt.hdr) = List.range (a + 1 - t.N) := by
  have hpos := t.N_pos
  unfold pktNums
  rw [map_seg, filter_seg_ge (a := t.N - 1), map_seg, seg_eq_map_range,
    show a - (t.N - 1) = a + 1 - t.N by omega]
  · refine (List.map_congr_left ?_).trans (List.map_id _)
    intro k hk
    rw [List.mem_range] at hk
    rw [srvPkt_num E (by omega), if_neg (by omega), id]
    omega
  · intro k _
    rw [decide_eq_true_eq, srvPkt_type]
    split_ifs with hN
    · simp only [false_iff]
      omega
    · simp only [true_iff]
      omega

end Trace

/-! ## Finished and unfinished RPCs -/

/-- **A finished RPC** with `N` request and `M` response packets.  The headers processed by the
client up to the continuation are part of its trace. -/
structure Done.Complete (d : Done) : Prop where
  req_pos : 1 ≤ d.trace.N
  resp_pos : 1 ≤ d.trace.M
  answered : d.trace.resp.isSome
  called : d.trace.called = 1
  reqs : pktNums .kReq d.trace.cliSent = List.range d.trace.N
  rfrs : pktNums .kRFR d.trace.cliSent = List.range' 1 (d.trace.M - 1)
  resps : pktNums .kResp d.trace.srvSent = List.range d.trace.M
  processed : pktNums .kResp d.trace.cliRcvd = List.range d.trace.M
  numTx : d.numTx = d.trace.N + d.trace.M - 1
  buf : d.buf.Holds d.trace.respMsg

theorem Done.Ok.complete {d : Done} (h : d.Ok E) : d.Complete where
  req_pos := d.trace.N_pos
  resp_pos := d.trace.M_pos
  answered := h.answered
  called := h.called
  reqs := by
    have hM := d.trace.M_pos
    rw [h.cliSent, Trace.pktNums_req E (le_refl _), Nat.min_eq_left (by omega)]
  rfrs := by
    rw [h.cliSent, Trace.pktNums_rfr E (le_refl _)]
    congr 1
    omega
  resps := by
    have hM := d.trace.M_pos
    rw [h.srvSent, Trace.pktNums_resp E (le_refl _)]
    congr 1
    omega
  processed := by
    have hM := d.trace.M_pos
    rw [h.cliRcvd, Trace.pktNums_resp E (le_refl _)]
    congr 1
    omega
  numTx := h.numTx
  buf := h.buf

/-- **An unfinished RPC** in slot `i`: what was sent so far is a beginning of what a finished RPC
sends, not all responses are processed, the continuation was not invoked, and the slot waits for
credits or for an answer. -/
structure Sys.Unfinished (s : Sys) (i : ℕ) : Prop where
  reqs : ∃ n ≤ (s.trace i).N, pktNums .kReq (s.trace i).cliSent = List.range n
  rfrs : ∃ n ≤ (s.trace i).M - 1, pktNums .kRFR (s.trace i).cliSent = List.range' 1 n
  resps : ∃ n ≤ (s.trace i).M, pktNums .kResp (s.trace i).srvSent = List.range n
  processed : ∃ n < (s.trace i).M, pktNums .kResp (s.trace i).cliRcvd = List.range n
  waiting : (s.cli.slots i).tag ∉ s.cli.conts.map Prod.fst
  outstanding : i ∈ s.cli.stallq ∨ 0 < (s.trace i).unacked

theorem Inv.running (h : Inv E s) (hi : i < kSessionReqWindow) (ha : s.Active i) :
    Running E (s.view i) := by
  rcases (h.base.slot i hi).state with hidle | hrun
  · exact absurd hidle.tx ha
  · exact hrun

theorem Inv.conts_tags (h : Inv E s) : s.cli.conts.map Prod.fst = s.done.map Done.tag := by
  rw [h.books.conts, List.map_map]
  rfl

theorem Inv.unfinished (h : Inv E s) (hi : i < kSessionReqWindow) (ha : s.Active i) :
    s.Unfinished i := by
  obtain ⟨a, q, c, hcore, hbusy⟩ := h.running hi ha
  have hqs := hcore.q_le
  have hst := hcore.s_le
  have hle := hcore.numTx_le
  have hunf := hcore.unfinished
  have hM := (s.view i).tr.M_pos
  exact {
    reqs := ⟨_, Nat.min_le_left _ _, by
      show pktNums _ (s.view i).tr.cliSent = _
      rw [hcore.cliSent, Trace.pktNums_req E hle]
      rfl⟩
    rfrs := ⟨(s.view i).cs.numTx - (s.view i).tr.N,
      by show _ ≤ (s.view i).tr.M - 1; omega, by
        show pktNums _ (s.view i).tr.cliSent = _
        rw [hcore.cliSent, Trace.pktNums_rfr E hle]⟩
    resps := ⟨q + 1 - (s.view i).tr.N, by show _ ≤ (s.view i).tr.M; omega, by
      show pktNums _ (s.view i).tr.srvSent = _
      rw [hcore.srvSent, Trace.pktNums_resp E (by omega)]⟩
    processed := ⟨c + 1 - (s.view i).tr.N, by show _ < (s.view i).tr.M; omega, by
      show pktNums _ (s.view i).tr.cliRcvd = _
      rw [hcore.cliRcvd, Trace.pktNums_resp E (by omega)]⟩
    waiting := by
      rw [h.conts_tags]
      exact h.books.tickets.tag_new i hi ha
    outstanding := by
      rcases hbusy with h0 | hlt
      · exact Or.inl ((h.books.stall i).mpr ⟨hi, ha, h0⟩)
      · right
        show 0 < (s.view i).tr.unacked
        rw [hcore.unacked]
        omega }

/-! ## Every RPC gets finished -/

/-- Nothing but a new request changes the state. -/
def Sys.Quiet (E : Env) (s : Sys) : Prop :=
  ∀ a s', s.Enabled a → s.step E a = some s' → a.isEnqueue = true ∨ s' = s

theorem Inv.quiet_step (h : Inv E s) (hq : s.Quiet E) {a : Act} (hen : s.Enabled a) :
    a.isEnqueue = true ∨ (a = .stall ∧ (s.cli.stallq = [] ∨ s.cli.credits = 0)) := by
  obtain ⟨s', hs, -, hcase⟩ := h.step hen
  rcases hcase with he | hlt | ⟨ha, -, hwhy⟩
  · exact Or.inl he
  · rcases hq a s' hen hs with he | rfl
    · exact Or.inl he
    · exact absurd hlt (Nat.lt_irrefl _)
  · exact Or.inr ⟨ha, hwhy⟩

/-- In a quiet state a slot with a foreground handler has not started. -/
theorem Inv.quiet_slot (h : Inv E s) (hq : s.Quiet E) (hi : i < kSessionReqWindow)
    (ha : s.Active i) (hfg : E.fn (s.trace i).reqBuf.hdr0.reqType = .kForeground) :
    (s.cli.slots i).numTx = 0 := by
  have htx : s.cli.tx = [] := by
    by_contra hne
    rcases h.quiet_step (a := .recvSrv 0 0) hq hne with he | ⟨he, -⟩ <;> cases he
  have hrx : s.srv.tx = [] := by
    by_contra hne
    rcases h.quiet_step (a := .recvCli fun _ => 0) hq hne with he | ⟨he, -⟩ <;> cases he
  obtain ⟨a, q, c, hcore, hbusy⟩ := h.running hi ha
  by_contra hne
  have hlt : c < (s.view i).cs.numTx := hbusy.resolve_left hne
  -- both channels are empty, so the server has everything and the client has all answers
  have hup := congrArg List.length hcore.up
  have hdown := congrArg List.length hcore.down
  rw [length_seg, show (s.view i).up = ofSlot i s.cli.tx from rfl, htx] at hup
  rw [length_seg, show (s.view i).down = ofSlot i s.srv.tx from rfl, hrx] at hdown
  have hup0 : 0 = (s.view i).cs.numTx - a := hup
  have hqs := hcore.q_eq
  -- so there is no answer yet, although the handler was invoked
  have hno : ¬ (s.view i).tr.resp.isSome := by
    intro hr
    rw [if_pos hr] at hqs
    omega
  rw [if_neg hno] at hqs
  have hst := hcore.s_le
  have hcalled := hcore.called
  rw [if_pos ⟨by omega, hfg⟩] at hcalled
  have hen : s.Enabled (.answer i 0 default) :=
    ⟨hi, by show 0 < (s.view i).tr.called; omega, Option.not_isSome_iff_eq_none.mp hno⟩
  rcases h.quiet_step hq hen with he | ⟨he, -⟩ <;> cases he

/-- In a quiet state no slot has a request and all credits are at hand, if all handlers run in
the foreground. -/
theorem Inv.quiet_idle (h : Inv E s) (hq : s.Quiet E)
    (hfg : ∀ i < kSessionReqWindow, s.Active i →
      E.fn (s.trace i).reqBuf.hdr0.reqType = .kForeground) :
    s.cli.credits = kSessionCredits ∧ ∀ i < kSessionReqWindow, ¬ s.Active i := by
  have hstart : ∀ i < kSessionReqWindow, s.Active i → (s.cli.slots i).numTx = 0 :=
    fun i hi ha => h.quiet_slot hq hi ha (hfg i hi ha)
  have hunacked : ∀ i < kSessionReqWindow, (s.trace i).unacked = 0 := by
    intro i hi
    rcases (h.base.slot i hi).state with hidle | ⟨a, q, c, hcore, -⟩
    · exact hidle.unacked
    · have h0 := hstart i hi (Sys.active_of_core hcore)
      have hun := hcore.unacked
      rw [show (s.view i).cs.numTx = 0 from h0, Nat.zero_sub] at hun
      exact hun
  have hcredits : s.cli.credits = kSessionCredits := by
    have hsum := h.base.credits
    rwa [Finset.sum_eq_zero fun i hi => hunacked i (Finset.mem_range.mp hi)] at hsum
  have hnone : s.cli.stallq = [] := by
    rcases h.quiet_step (a := .stall) hq trivial with he | ⟨-, hnil | h0⟩
    · cases he
    · exact hnil
    · rw [hcredits] at h0
      exact absurd h0 (by decide)
  refine ⟨hcredits, fun i hi ha => ?_⟩
  have hmem := (h.books.stall i).mpr ⟨hi, ha, hstart i hi ha⟩
  rw [hnone] at hmem
  exact absurd hmem List.not_mem_nil

/-- **In a quiet state every RPC is finished**, if all handlers run in the foreground. -/
theorem Inv.quiet_done (h : Inv E s) (hq : s.Quiet E)
    (hfg : ∀ i < kSessionReqWindow, s.Active i →
      E.fn (s.trace i).reqBuf.hdr0.reqType = .kForeground) :
    ∀ t < s.next, t ∈ s.cli.conts.map Prod.fst := by
  intro t ht
  rw [h.conts_tags]
  rcases h.books.tagAll t ht with hd | ⟨i, hi, ha, -⟩
  · exact hd
  · exact absurd ha ((h.quiet_idle hq hfg).2 i hi)

/-! ## The main results -/

/-- **Every RPC runs exactly once and in order.**  In every reachable state of a session, for any
handlers and any interleaving of any number of slots:

* every finished RPC is `Complete`: one RFR for each of the response packets `1, …, M - 1` and
  one response packet for each of `0, …, M - 1`, all in order, `N + M - 1` packets of the client,
  and a buffer with the payloads concatenated;
* the continuations invoked are those of the finished RPCs, each once, and an RPC that was
  enqueued is finished or is the one of exactly one slot;
* the RPC of a slot is `Unfinished`: it sent a beginning of the above, its continuation was not
  invoked, and it is in the stall queue or has a packet outstanding;
* no action that may be taken fails, and all but new requests get work done, so that they come to
  an end; then every RPC with a foreground handler is finished. -/
theorem rpcs_exactly_once (E : Env) (s : Sys) (h : Reachable E s) :
    (∀ d ∈ s.done, d.Complete) ∧
    s.cli.conts = s.done.map (fun d => (d.tag, d.buf)) ∧
    (s.cli.conts.map Prod.fst).Nodup ∧
    (∀ t, t < s.next → Xor (t ∈ s.cli.conts.map Prod.fst)
      (∃ i, i < kSessionReqWindow ∧ s.Active i ∧ (s.cli.slots i).tag = t)) ∧
    (∀ i j, i < kSessionReqWindow → j < kSessionReqWindow → s.Active i → s.Active j →
      (s.cli.slots i).tag = (s.cli.slots j).tag → i = j) ∧
    (∀ i, i < kSessionReqWindow → s.Active i → s.Unfinished i) ∧
    (∀ a, s.Enabled a → ∃ s', s.step E a = some s' ∧
      (a.isEnqueue = true ∨ s'.work < s.work ∨ (a = .stall ∧ s' = s))) ∧
    (s.Quiet E → (∀ i < kSessionReqWindow, s.Active i →
        E.fn (s.trace i).reqBuf.hdr0.reqType = .kForeground) →
      ∀ t < s.next, t ∈ s.cli.conts.map Prod.fst) := by
  have hinv := h.inv
  refine ⟨fun d hd => (hinv.books.done d hd).complete, hinv.books.conts, ?_, ?_,
    hinv.books.tickets.tag_inj, fun i hi ha => hinv.unfinished hi ha, ?_, hinv.quiet_done⟩
  · rw [hinv.conts_tags]
    exact hinv.books.tickets.usedNodup
  · intro t ht
    rw [hinv.conts_tags]
    rcases hinv.books.tagAll t ht with hd | ⟨i, hi, ha, htag⟩
    · refine Or.inl ⟨hd, ?_⟩
      rintro ⟨i, hi, ha, rfl⟩
      exact hinv.books.tickets.tag_new i hi ha hd
    · exact Or.inr ⟨⟨i, hi, ha, htag⟩, htag ▸ hinv.books.tickets.tag_new i hi ha⟩
  · intro a hen
    obtain ⟨s', hs, -, hcase⟩ := hinv.step hen
    refine ⟨s', hs, ?_⟩
    rcases hcase with he | hlt | ⟨ha, hsame, -⟩
    · exact Or.inl he
    · exact Or.inr (Or.inl hlt)
    · exact Or.inr (Or.inr ⟨ha, hsame⟩)

/-- Endpoints for sample runs; all handlers run in the foreground. -/
def sampleEnv : Env := ⟨⟨3, default⟩, ⟨5, default⟩, fun _ => .kForeground⟩

/-- An RPC with two packets either way, from its request to its continuation. -/
def sampleRun : List Act :=
  [.enqueue 1 0 twoPkts, .recvSrv 0 4096, .recvSrv 0 8192, .answer 0 0 twoPkts,
    .recvCli fun _ => 0, .recvCli fun _ => 0, .stall, .recvSrv 0 0, .recvCli fun _ => 0]

theorem sampleRun_exec : ((exec Sys.Enabled (Sys.step sampleEnv) Sys.init sampleRun).map
    fun s => (s.done.map Done.tag, s.done.map Done.numTx, s.next, s.work))
      = some ([0], [3], 1, 0) := by
  decide +kernel

/-- The sample run reaches a state with no work left, in which its only RPC is finished. -/
theorem rpcs_exactly_once_sample : ∃ s, Reachable sampleEnv s ∧ s.done.map Done.tag = [0] ∧
    (∀ d ∈ s.done, d.Complete) ∧ (s.cli.conts.map Prod.fst).Nodup ∧ s.next = 1 ∧
      s.Quiet sampleEnv ∧ ∀ t < s.next, t ∈ s.cli.conts.map Prod.fst := by
  obtain ⟨s, hs, hval⟩ := Option.map_eq_some_iff.mp sampleRun_exec
  simp only [Prod.mk.injEq] at hval
  obtain ⟨hdone, -, hnext, hwork⟩ := hval
  have hr : Reachable sampleEnv s := ⟨sampleRun, run_of_exec hs⟩
  obtain ⟨hcomplete, -, hnodup, -, -, -, hstep, hfinished⟩ := rpcs_exactly_once sampleEnv s hr
  have hquiet : s.Quiet sampleEnv := by
    intro a s' hen hs'
    obtain ⟨s1, hs1, hcase⟩ := hstep a hen
    obtain rfl := Option.some.inj (hs1.symm.trans hs')
    rcases hcase with he | hlt | ⟨-, hsame⟩
    · exact Or.inl he
    · rw [hwork] at hlt
      exact absurd hlt (Nat.not_lt_zero _)
    · exact Or.inr hsame
  exact ⟨s, hr, hdone, hcomplete, hnodup, hnext, hquiet, hfinished hquiet fun _ _ _ => rfl⟩

/-- A message of one byte. -/
def oneByte : TxMsg := TxMsg.ofBytes [1] (by decide)

/-- One request more than the session has slots; the server answers the first one. -/
def sampleBacklog : List Act :=
  List.replicate 33 (.enqueue 1 0 oneByte) ++ [.recvSrv 0 4096, .answer 0 0 oneByte]

/-- The sample endpoints with handlers that run in the background. -/
def sampleBgEnv : Env := { sampleEnv with fn := fun _ => .kBackground }

/-- **RPCs that are never finished.**  With 33 requests on a session the last one waits in the
backlog.  At the response to the first one the client starts it through a null header, before the
continuation is invoked.  And a request of one packet whose handler runs in the background arrives,
but no handler is invoked: no packet is on its way, no slot is stalled, and the RPC is not
finished. -/
theorem rpcs_left_unfinished :
    (∃ s, Run (fun _ _ => True) (Sys.step sampleEnv) Sys.init sampleBacklog s ∧ s.next = 33 ∧
      s.cli.conts.length = 0 ∧ s.srv.tx.length = 1 ∧
      s.step sampleEnv (.recvCli fun _ => 0) = none) ∧
    ∃ s, Run Sys.Enabled (Sys.step sampleBgEnv) Sys.init [.enqueue 1 0 oneByte, .recvSrv 0 4096] s ∧
      s.next = 1 ∧ s.cli.conts.length = 0 ∧ s.cli.tx.length = 0 ∧ s.srv.tx.length = 0 ∧
      s.cli.stallq.length = 0 ∧ s.srv.calls.length = 0 ∧ s.srv.bgReqs.length = 0 := by
  constructor
  · have hexec : (exec (fun _ _ => True) (Sys.step sampleEnv) Sys.init sampleBacklog).map
        (fun s => (s.next, s.cli.conts.length, s.srv.tx.length,
          (s.step sampleEnv (.recvCli fun _ => 0)).isNone)) = some (33, 0, 1, true) := by
      decide +kernel
    obtain ⟨s, hs, hval⟩ := Option.map_eq_some_iff.mp hexec
    simp only [Prod.mk.injEq, Option.isNone_iff_eq_none] at hval
    exact ⟨s, run_of_exec hs, hval⟩
  · have hexec : (exec Sys.Enabled (Sys.step sampleBgEnv) Sys.init
        [.enqueue 1 0 oneByte, .recvSrv 0 4096]).map (fun s => [s.next, s.cli.conts.length,
          s.cli.tx.length, s.srv.tx.length, s.cli.stallq.length, s.srv.calls.length,
          s.srv.bgReqs.length]) = some [1, 0, 0, 0, 0, 0, 0] := by
      decide +kernel
    obtain ⟨s, hs, hval⟩ := Option.map_eq_some_iff.mp hexec
    simp only [List.cons.injEq, and_true] at hval
    exact ⟨s, run_of_exec hs, hval⟩

/-- **Credits are conserved.**  In every reachable state the credits at hand and the packets of
the client that wait for an answer add up to the credits of the session, and no assertion on the
credits has failed. -/
theorem credits_conserved (E : Env) (s : Sys) (h : Reachable E s) :
    s.cli.credits + ∑ i ∈ Finset.range kSessionReqWindow,
        ((s.trace i).unackedReqs + (s.trace i).unackedRfrs) = kSessionCredits ∧
      s.cli.credits ≤ kSessionCredits ∧ s.cli.ok = true := by
  have hinv := h.inv
  have hsum : s.cli.credits + ∑ i ∈ Finset.range kSessionReqWindow,
      ((s.trace i).unackedReqs + (s.trace i).unackedRfrs) = kSessionCredits := hinv.base.credits
  exact ⟨hsum, by omega, hinv.base.ok⟩

/-- While the two packets of a request wait for their answers, two credits are out. -/
theorem credits_conserved_sample : ∃ s, Reachable sampleEnv s ∧ s.cli.credits = 30 ∧
    s.cli.credits + ∑ i ∈ Finset.range kSessionReqWindow,
      ((s.trace i).unackedReqs + (s.trace i).unackedRfrs) = kSessionCredits := by
  have hexec : ((exec Sys.Enabled (Sys.step sampleEnv) Sys.init (sampleRun.take 2)).map
      fun s => s.cli.credits) = some 30 := by
    decide +kernel
  obtain ⟨s, hs, hcr⟩ := Option.map_eq_some_iff.mp hexec
  have hr : Reachable sampleEnv s := ⟨_, run_of_exec hs⟩
  exact ⟨s, hr, hcr, (credits_conserved sampleEnv s hr).1⟩

end HuiRpc
