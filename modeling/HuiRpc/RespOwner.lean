/-
# The response in a server slot

`tx_msgbuf_` of a server slot is the response that `enqueue_response` was last given.  When a new
request arrives the old response should be buried: `bury_resp_msgbuf_server_st` sets the pointer to
null, but its call in `process_small_req_st` is commented out and `process_large_req_one_st` has
none.

A slot lives in phases: it waits for a request, collects its packets, is served by a handler and
waits again once the handler has answered.

* `SlotLife` — the slot with its phase and the request whose response `tx_msgbuf_` is;
* `response_current_iff` — in every run in order, `tx_msgbuf_` is always the response of the current
  request, and null when a handler may answer, iff every request finds `tx_msgbuf_` null;
* `response_stale` — the second request of a slot finds the response of the first one.
-/
import HuiRpc.ServerOrder

namespace HuiRpc

open Runs

/-! ## The life of a slot -/

inductive Phase
  | idle
  | collecting
  | serving
  deriving DecidableEq

/-- A server slot.  `owner` is the request number at the last `enqueue_response`. -/
structure SlotLife where
  ctx : SrvCtx
  phase : Phase
  owner : Option ℕ

namespace SlotLife

def init (i : ℕ) : SlotLife := ⟨Srv.init.ctx i, .idle, none⟩

section Steps

variable (cli srv : Endpoint) (fn : ℕ → ReqFuncType) (reqs : ReqLog)

def step (s : SlotLife) (a : SrvAct) : Option SlotLife :=
  (s.ctx.step cli srv fn reqs a).map fun c =>
    match a with
    | .req _ _ _ _ =>
        ⟨c, if c.handled.length = s.ctx.handled.length then .collecting else .serving, s.owner⟩
    | .rfr _ _ => ⟨c, s.phase, s.owner⟩
    | .answer _ _ => ⟨c, .idle, some s.ctx.slot.curReqNum⟩

/-- What may happen next when the packets arrive in order: the client sends a request when it has
the response of the last one, and an RFR for the next packet of a response.  A handler answers
once. -/
def InTurn (s : SlotLife) : SrvAct → Prop
  | .req n k _ _ => n < 2 ^ 32 ∧ k < (reqs n).1.totalPkt ∧
      ((k = 0 ∧ n = s.ctx.slot.curReqNum + kSessionReqWindow ∧ s.phase = .idle) ∨
        (0 < k ∧ n = s.ctx.slot.curReqNum ∧ k = s.ctx.slot.numRx ∧ s.phase = .collecting))
  | .rfr resp j => s.ctx.slot.Expects reqs (rfrHdr cli resp j) ∧ s.phase = .idle
  | .answer _ _ => s.phase = .serving

/-- And a request finds no response in the slot. -/
def InTurnBuried (s : SlotLife) (a : SrvAct) : Prop :=
  s.InTurn cli reqs a ∧
    match a with
    | .req _ k _ _ => k = 0 → s.ctx.slot.txMsgbuf.isNone
    | .rfr _ _ => True
    | .answer _ _ => True

instance (s : SlotLife) (a : SrvAct) : Decidable (s.InTurn cli reqs a) :=
  match a with
  | .req _ _ _ _ => inferInstanceAs (Decidable (_ ∧ _ ∧ ((_ ∧ _ ∧ _) ∨ (_ ∧ _ ∧ _ ∧ _))))
  | .rfr _ _ => inferInstanceAs (Decidable (_ ∧ _))
  | .answer _ _ => inferInstanceAs (Decidable (_ = _))

instance (s : SlotLife) (a : SrvAct) : Decidable (s.InTurnBuried cli reqs a) :=
  match a with
  | .req n k p b => inferInstanceAs (Decidable (s.InTurn cli reqs (.req n k p b) ∧ (_ → _)))
  | .rfr r j => inferInstanceAs (Decidable (s.InTurn cli reqs (.rfr r j) ∧ True))
  | .answer l m => inferInstanceAs (Decidable (s.InTurn cli reqs (.answer l m) ∧ True))

end Steps

/-- A response in the slot is that of the current request, and there is none when the handler may
call `enqueue_response`. -/
def Current (s : SlotLife) : Prop :=
  (s.ctx.slot.txMsgbuf.isSome → s.owner = some s.ctx.slot.curReqNum) ∧
    (s.phase = .serving → s.ctx.slot.txMsgbuf.isNone)

end SlotLife

/-! ## What the handlers do to the response -/

theorem processSmallReq_txMsgbuf (fn : ℕ → ReqFuncType) (body : ℕ) (h : Pkthdr) (c : SrvCtx) :
    (processSmallReq fn body h c).slot.txMsgbuf = c.slot.txMsgbuf := by
  unfold processSmallReq
  split <;> rfl

theorem processLargeReqOne_txMsgbuf (e : Endpoint) (fn : ℕ → ReqFuncType) (preReq body : ℕ)
    (h : Pkthdr) (c : SrvCtx) :
    (processLargeReqOne e fn preReq body h c).slot.txMsgbuf = c.slot.txMsgbuf := by
  obtain ⟨tx, -, ⟨-, heq⟩ | ⟨v, -, heq⟩⟩ := processLargeReqOne_cases e fn preReq body h c
  · rw [heq]
    exact trackReq_txMsgbuf h c.slot
  · rw [heq, (handleReq_frame fn h _).2]
    exact trackReq_txMsgbuf h c.slot

variable {cli srv : Endpoint} {fn : ℕ → ReqFuncType} {reqs : ReqLog} {n k preReq body : ℕ}

/-- **A request packet** does not touch the response, and packet 0 makes its request the current
one. -/
theorem reqStep_spec {c c' : SrvCtx} (hn : n < 2 ^ 32) (hk : k < (reqs n).1.totalPkt)
    (hs : c.step cli srv fn reqs (.req n k preReq body) = some c') :
    c'.slot.txMsgbuf = c.slot.txMsgbuf ∧ (k = 0 → c'.slot.curReqNum = n) := by
  have hs' : c' = if (reqHdr reqs n k).msgSize ≤ kMaxDataPerPkt
      then processSmallReq fn body (reqHdr reqs n k) c
      else processLargeReqOne srv fn preReq body (reqHdr reqs n k) c := (Option.some.inj hs).symm
  have hnum := reqHdr_reqNum reqs k hn
  split_ifs at hs' with hsmall
  · rw [hs', processSmallReq_txMsgbuf, (processSmallReq_counted fn body _ c).curReqNum]
    exact ⟨rfl, fun _ => hnum⟩
  · rw [hs', processLargeReqOne_txMsgbuf,
      (processLargeReqOne_counted srv fn preReq body _ c).curReqNum]
    refine ⟨rfl, ?_⟩
    intro h0
    unfold trackReq
    rw [if_pos ((reqHdr_pktNum reqs hk).trans h0)]
    exact hnum

/-! ## Runs -/

namespace SlotLife

variable {s s' : SlotLife} {a : SrvAct}

/-- What holds while every request finds no response: before the answer there is none. -/
structure Buried (s : SlotLife) : Prop where
  owner : s.ctx.slot.txMsgbuf.isSome → s.owner = some s.ctx.slot.curReqNum
  busy : s.phase ≠ .idle → s.ctx.slot.txMsgbuf.isNone

theorem Buried.current (h : s.Buried) : s.Current :=
  ⟨h.owner, fun hp => h.busy (by rw [hp]; decide)⟩

/-- **One step in turn**, a request finding no response. -/
theorem Buried.step (h : s.Buried) (hg : s.InTurnBuried cli reqs a)
    (hs : s.step cli srv fn reqs a = some s') : s'.Buried := by
  obtain ⟨c, hc, rfl⟩ := Option.map_eq_some_iff.mp hs
  cases a with
  | req n k preReq body =>
    obtain ⟨⟨hn, hk, hturn⟩, hfirst⟩ := hg
    have htx := (reqStep_spec hn hk hc).1
    -- packet 0 finds no response by the guard, a later one by the phase
    have hnone : s.ctx.slot.txMsgbuf.isNone := by
      rcases hturn with ⟨h0, -⟩ | ⟨-, -, -, hphase⟩
      · exact hfirst h0
      · exact h.busy (by rw [hphase]; decide)
    have hnone' : c.slot.txMsgbuf.isNone := by
      rw [htx]
      exact hnone
    refine ⟨?_, fun _ => hnone'⟩
    intro hsome
    have hsome' : c.slot.txMsgbuf.isSome := hsome
    rw [Option.isNone_iff_eq_none.mp hnone'] at hsome'
    cases hsome'
  | rfr resp j =>
    obtain ⟨b, -, rfl⟩ := Option.map_eq_some_iff.mp hc
    exact ⟨h.owner, h.busy⟩
  | answer lkey msg =>
    obtain rfl := Option.some.inj hc
    exact ⟨fun _ => rfl, fun hp => absurd rfl hp⟩

theorem buried_run {as : List SrvAct} {i : ℕ}
    (h : Run (InTurnBuried cli reqs) (step cli srv fn reqs) (init i) as s) : s.Buried :=
  h.invariant ⟨fun hx => absurd hx Bool.false_ne_true, fun _ => rfl⟩
    fun _ _ _ hi hg hs => hi.step hg hs

/-- A request that finds a response makes it that of an old request. -/
theorem buried_of_current (hcur : s.Current) (hg : s.InTurn cli reqs a)
    (hs : s.step cli srv fn reqs a = some s') (hcur' : s'.Current) :
    s.InTurnBuried cli reqs a := by
  refine ⟨hg, ?_⟩
  cases a with
  | rfr resp j => trivial
  | answer lkey msg => trivial
  | req n k preReq body =>
    intro h0
    obtain ⟨hn, hk, ⟨-, hnext, -⟩ | ⟨hpos, -⟩⟩ := hg
    · obtain ⟨c, hc, rfl⟩ := Option.map_eq_some_iff.mp hs
      obtain ⟨htx, hnum⟩ := reqStep_spec hn hk hc
      by_contra hne
      have hsome : s.ctx.slot.txMsgbuf.isSome := by
        rw [Option.isSome_iff_ne_none]
        exact fun h => hne (Option.isNone_iff_eq_none.mpr h)
      -- the response keeps its owner while the slot moves on to the next request
      have howner := hcur.1 hsome
      have howner' : s.owner = some c.slot.curReqNum := hcur'.1 (by
        show c.slot.txMsgbuf.isSome
        rw [htx]
        exact hsome)
      rw [howner, hnum h0, hnext, Option.some.injEq] at howner'
      unfold kSessionReqWindow at howner'
      omega
    · omega

/-- **The response of a slot.**  In every run in order, of any number of requests, a response in the
slot is in every state that of the current request and there is none when the handler may answer,
iff every request found no response in the slot. -/
theorem response_current_iff {as : List SrvAct} {i : ℕ}
    (hrun : Run (InTurn cli reqs) (step cli srv fn reqs) (init i) as s) :
    (∀ pre t, pre <+: as → Run (InTurn cli reqs) (step cli srv fn reqs) (init i) pre t →
        t.Current) ↔
      Run (InTurnBuried cli reqs) (step cli srv fn reqs) (init i) as s := by
  refine hrun.always_iff (fun _ _ hg => hg.1) ?_ ?_
  · exact fun _ _ h => (buried_run h).current
  · exact fun _ _ _ _ _ hcur hg hs hcur' => buried_of_current hcur hg hs hcur'

/-- One request of two packets, answered by two packets. -/
theorem response_current_first :
    ∃ s, Run (InTurn sampleEnv.cli sampleReqs)
        (step sampleEnv.cli sampleEnv.srv sampleEnv.fn sampleReqs) (init 0) inOrderActs s ∧
      ∀ pre t, pre <+: inOrderActs → Run (InTurn sampleEnv.cli sampleReqs)
        (step sampleEnv.cli sampleEnv.srv sampleEnv.fn sampleReqs) (init 0) pre t →
          t.Current := by
  have hexec : (exec (InTurnBuried sampleEnv.cli sampleReqs)
      (step sampleEnv.cli sampleEnv.srv sampleEnv.fn sampleReqs) (init 0)
        inOrderActs).isSome = true := by
    decide +kernel
  obtain ⟨s, hs⟩ := Option.isSome_iff_exists.mp hexec
  have hrun := (run_of_exec hs).weaken fun _ _ hg => hg.1
  exact ⟨s, hrun, (response_current_iff hrun).mpr (run_of_exec hs)⟩

/-- **The second request of a slot.**  When its handler may answer, the slot still holds the
response of the first request. -/
theorem response_stale :
    ∃ s, Run (InTurn sampleEnv.cli sampleReqs)
        (step sampleEnv.cli sampleEnv.srv sampleEnv.fn sampleReqs) (init 0)
        (inOrderActs ++ [.req 64 0 0 4096, .req 64 1 0 8192]) s ∧
      s.phase = .serving ∧ s.ctx.slot.curReqNum = 64 ∧ s.ctx.slot.txMsgbuf.isSome ∧
      s.owner = some 32 ∧ ¬ s.Current := by
  have hexec : (exec (InTurn sampleEnv.cli sampleReqs)
      (step sampleEnv.cli sampleEnv.srv sampleEnv.fn sampleReqs) (init 0)
        (inOrderActs ++ [.req 64 0 0 4096, .req 64 1 0 8192])).map (fun s =>
          (s.phase, s.ctx.slot.curReqNum, s.ctx.slot.txMsgbuf.isSome, s.owner))
        = some (.serving, 64, true, some 32) := by
    decide +kernel
  obtain ⟨s, hs, hval⟩ := Option.map_eq_some_iff.mp hexec
  simp only [Prod.mk.injEq] at hval
  obtain ⟨hphase, hnum, hsome, howner⟩ := hval
  refine ⟨s, run_of_exec hs, hphase, hnum, hsome, howner, ?_⟩
  intro hcur
  have := hcur.1 hsome
  rw [howner, hnum] at this
  exact absurd this (by decide)

end SlotLife

end HuiRpc
