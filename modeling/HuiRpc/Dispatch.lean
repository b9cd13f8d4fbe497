/-
# Packets find the session they were sent on

The header of a data or control packet names the session at the receiver by
`dest_session_num_`, a field of four bits (`pkthdr.h`).  `process_comps_st` takes the session
with that number.

* `Sys.Stamped` — every packet that the handlers of a session send carries the low four bits
  of `remote_session_num_`;
* `World.Inv.peers` — the two ends of a connected session know each other's number;
* `dispatched_to_peer_iff` — so a packet reaches the other end exactly if its number is less
  than 16;
* `dispatched_elsewhere` — the packets of the 17th session reach the first one.
-/
import HuiRpc.SmAgree
import HuiRpc.Session

namespace HuiRpc

open Runs

/-! ## What the handlers send -/

/-- Values of `dest_session_num_`. -/
def numDestSessionNums : ℕ := 2 ^ 4

/-- The packets sent, and those of the buffer that a slot points at, are for session `d`. -/
structure Stamped (d : ℕ) (tx : List WirePkt) (buf : Option MsgBuf) : Prop where
  tx : ∀ p ∈ tx, p.hdr.destSessionNum = d
  buf : ∀ b, buf = some b → ∀ k, (b.pkts k).hdr.destSessionNum = d

theorem TxMsg.fill_destSessionNum (t : TxMsg) (kind : MsgKind) (a : SendArgs) (k : ℕ) :
    ((t.fill kind a).pkts k).hdr.destSessionNum = a.remoteSessionNum % numDestSessionNums := by
  cases kind <;> rfl

variable {d : ℕ} {tx : List WirePkt} {buf : Option MsgBuf} {p : WirePkt}

theorem Stamped.snoc (h : Stamped d tx buf) (hp : p.hdr.destSessionNum = d) :
    Stamped d (tx ++ [p]) buf := by
  refine ⟨fun q hq => ?_, h.buf⟩
  rcases List.mem_append.mp hq with hq | hq
  · exact h.tx q hq
  · rw [List.mem_singleton.mp hq]
    exact hp

/-- A new buffer. -/
theorem Stamped.fill (h : Stamped d tx buf) (t : TxMsg) (kind : MsgKind) {a : SendArgs}
    (ha : a.remoteSessionNum % numDestSessionNums = d) : Stamped d tx (some (t.fill kind a)) := by
  refine ⟨h.tx, fun b hb k => ?_⟩
  obtain rfl := Option.some.inj hb
  rw [TxMsg.fill_destSessionNum, ha]

section Client

variable {c c' : CliCtx} {e : Endpoint}

theorem Stamped.kickLoop {pkt : ℕ → WirePkt} (h : Stamped d c.tx c.slot.txMsgbuf)
    (hpkt : ∀ k, (pkt k).hdr.destSessionNum = d) (n : ℕ) :
    Stamped d (kickLoop pkt n c).tx (kickLoop pkt n c).slot.txMsgbuf := by
  rw [kickLoop_eq]
  refine ⟨fun q hq => ?_, h.buf⟩
  rcases List.mem_append.mp hq with hq | hq
  · exact h.tx q hq
  · obtain ⟨k, -, rfl⟩ := List.mem_map.mp hq
    exact hpkt k

theorem Stamped.kickReq (h : Stamped d c.tx c.slot.txMsgbuf) (hs : kickReq c = some c') :
    Stamped d c'.tx c'.slot.txMsgbuf := by
  obtain ⟨b, hb, rfl⟩ := Option.map_eq_some_iff.mp hs
  exact Stamped.kickLoop (c := c.assert (0 < c.credits)) h (h.buf b hb) _

theorem Stamped.kickRfr {resp : Option Pkthdr}
    (h : Stamped (e.remoteSessionNum % numDestSessionNums) c.tx c.slot.txMsgbuf)
    (hs : kickRfr e resp c = some c') :
    Stamped (e.remoteSessionNum % numDestSessionNums) c'.tx c'.slot.txMsgbuf := by
  obtain ⟨b, -, hs⟩ := Option.bind_eq_some_iff.mp hs
  obtain ⟨hd, -, rfl⟩ := Option.map_eq_some_iff.mp hs
  exact Stamped.kickLoop (c := c.assert (0 < c.credits)) h (fun _ => rfl) _

theorem Stamped.processExplCr (h : Stamped d c.tx c.slot.txMsgbuf)
    (hs : processExplCr c = some c') : Stamped d c'.tx c'.slot.txMsgbuf := by
  obtain ⟨b, -, hs⟩ := Option.bind_eq_some_iff.mp hs
  dsimp only at hs
  split_ifs at hs with hpend
  · exact Stamped.kickReq (c := bumpCredits c) h hs
  · obtain rfl := Option.some.inj hs
    exact h

/-- A slot that is given up has no buffer. -/
theorem Stamped.giveUp (h : Stamped d c.tx c.slot.txMsgbuf) (resp : RespBuf) :
    Stamped d (giveUp c resp).1.tx (giveUp c resp).1.slot.txMsgbuf :=
  ⟨h.tx, fun _ hb => absurd hb (by simp [HuiRpc.giveUp])⟩

theorem Stamped.processRespOne {hd : Pkthdr} {data : List UInt8} {r : Option RespBuf}
    (h : Stamped (e.remoteSessionNum % numDestSessionNums) c.tx c.slot.txMsgbuf)
    (hs : processRespOne e hd data c = some (c', r)) :
    Stamped (e.remoteSessionNum % numDestSessionNums) c'.tx c'.slot.txMsgbuf := by
  unfold HuiRpc.processRespOne at hs
  set c₁ : CliCtx := { bumpCredits c with
    slot := { (bumpCredits c).slot with numRx := (bumpCredits c).slot.numRx + 1 } } with hc₁
  have h₁ : Stamped (e.remoteSessionNum % numDestSessionNums) c₁.tx c₁.slot.txMsgbuf := h
  split_ifs at hs with hsmall
  · have hgive := h₁.giveUp (RespBuf.addSmall hd data)
    rwa [Option.some.inj hs] at hgive
  · obtain ⟨b, -, hs⟩ := Option.bind_eq_some_iff.mp hs
    obtain ⟨c₂, hc₂, hs⟩ := Option.map_eq_some_iff.mp hs
    have h₂ : Stamped (e.remoteSessionNum % numDestSessionNums) c₂.tx c₂.slot.txMsgbuf := by
      split_ifs at hc₂ with hall
      · exact h₁.kickRfr hc₂
      · obtain rfl := Option.some.inj hc₂
        exact h₁
    split_ifs at hs with hlast
    · obtain ⟨rfl, -⟩ := Prod.mk.inj hs
      exact h₂
    · have hgive := h₂.giveUp (c₂.slot.resp.addLarge hd data)
      rwa [hs] at hgive

end Client

/-- Every packet of a client session is for session `d`. -/
def Cli.Stamped (d : ℕ) (c : Cli) : Prop := ∀ i, HuiRpc.Stamped d c.tx (c.slots i).txMsgbuf

/-- Every packet of a server session is for session `d`. -/
def Srv.Stamped (d : ℕ) (s : Srv) : Prop := ∀ i, HuiRpc.Stamped d s.tx (s.slots i).txMsgbuf

namespace Cli

variable {c c' : Cli} {e : Endpoint} {i : ℕ}

theorem Stamped.put {x : CliCtx} (h : c.Stamped d) (hx : HuiRpc.Stamped d x.tx x.slot.txMsgbuf) :
    (c.put i x).Stamped d := by
  intro j
  refine ⟨hx.tx, fun b hb => ?_⟩
  by_cases hj : j = i
  · subst hj
    replace hb : (Function.update c.slots j x.slot j).txMsgbuf = some b := hb
    rw [Function.update_self] at hb
    exact hx.buf b hb
  · replace hb : (Function.update c.slots i x.slot j).txMsgbuf = some b := hb
    rw [Function.update_of_ne hj] at hb
    exact (h j).buf b hb

theorem Stamped.enqueueRequest {reqType lkey tag : ℕ} {msg : TxMsg}
    (h : c.Stamped (e.remoteSessionNum % numDestSessionNums))
    (hs : c.enqueueRequest e reqType lkey msg tag = some c') :
    c'.Stamped (e.remoteSessionNum % numDestSessionNums) := by
  unfold Cli.enqueueRequest at hs
  split at hs
  · obtain rfl := Option.some.inj hs
    exact h
  · next i rest hfree =>
    set c₁ : Cli := { c with
      slots := Function.update c.slots i (fillSlot e reqType lkey msg tag (c.slots i)) } with hc₁
    have h₁ : c₁.Stamped (e.remoteSessionNum % numDestSessionNums) :=
      h.put (i := i) (x := ⟨c.credits, c.ok, fillSlot e reqType lkey msg tag (c.slots i), c.tx⟩)
        ((h i).fill msg .request rfl)
    dsimp only at hs
    split_ifs at hs with hcred
    · obtain ⟨x, hx, rfl⟩ := Option.map_eq_some_iff.mp hs
      exact h₁.put ((h₁ i).kickReq hx)
    · obtain rfl := Option.some.inj hs
      exact h₁

theorem Stamped.recv {stale : ℕ → UInt8} (h : c.Stamped (e.remoteSessionNum % numDestSessionNums))
    (hs : c.recv e stale p = some c') : c'.Stamped (e.remoteSessionNum % numDestSessionNums) := by
  unfold Cli.recv at hs
  split at hs
  · unfold Cli.recvResp at hs
    obtain ⟨⟨x, r⟩, hx, hs⟩ := Option.bind_eq_some_iff.mp hs
    have hput := h.put (i := p.hdr.reqNum % kSessionReqWindow) ((h _).processRespOne hx)
    cases r with
    | none =>
      obtain rfl := Option.some.inj hs
      exact hput
    | some resp =>
      unfold Cli.finish at hs
      dsimp only at hs
      split_ifs at hs with hback
      obtain rfl := Option.some.inj hs
      exact hput
  · obtain ⟨x, hx, rfl⟩ := Option.map_eq_some_iff.mp hs
    exact h.put ((h _).processExplCr hx)
  · simp at hs
  · simp at hs

theorem Stamped.stallLoop {q kept : List ℕ} {r : Cli × List ℕ}
    (h : c.Stamped (e.remoteSessionNum % numDestSessionNums))
    (hs : stallLoop e q c kept = some r) : r.1.Stamped (e.remoteSessionNum % numDestSessionNums) := by
  induction q generalizing c kept with
  | nil =>
    obtain rfl := Option.some.inj hs
    exact h
  | cons i q ih =>
    rw [Cli.stallLoop] at hs
    split_ifs at hs with hcred
    · obtain ⟨x, hx, hs⟩ := Option.bind_eq_some_iff.mp hs
      refine ih (h.put ?_) hs
      obtain ⟨b, -, hx⟩ := Option.bind_eq_some_iff.mp hx
      split_ifs at hx with hpend
      · exact (h i).kickReq hx
      · exact (h i).kickRfr hx
    · exact ih h hs

theorem Stamped.processCreditStallQueue (h : c.Stamped (e.remoteSessionNum % numDestSessionNums))
    (hs : c.processCreditStallQueue e = some c') :
    c'.Stamped (e.remoteSessionNum % numDestSessionNums) := by
  obtain ⟨r, hr, rfl⟩ := Option.map_eq_some_iff.mp hs
  exact h.stallLoop hr

end Cli

namespace Srv

variable {s s' : Srv} {e : Endpoint} {i : ℕ}

theorem Stamped.put {x : SrvCtx} (h : s.Stamped d) (hx : HuiRpc.Stamped d x.tx x.slot.txMsgbuf) :
    (s.put i x).Stamped d := by
  intro j
  refine ⟨hx.tx, fun b hb => ?_⟩
  by_cases hj : j = i
  · subst hj
    replace hb : (Function.update s.slots j x.slot j).txMsgbuf = some b := hb
    rw [Function.update_self] at hb
    exact hx.buf b hb
  · replace hb : (Function.update s.slots i x.slot j).txMsgbuf = some b := hb
    rw [Function.update_of_ne hj] at hb
    exact (h j).buf b hb

theorem Stamped.processSmallReq {c : SrvCtx} (h : HuiRpc.Stamped d c.tx c.slot.txMsgbuf)
    (fn : ℕ → ReqFuncType) (body : ℕ) (hd : Pkthdr) :
    HuiRpc.Stamped d (processSmallReq fn body hd c).tx
      (processSmallReq fn body hd c).slot.txMsgbuf := by
  unfold HuiRpc.processSmallReq
  cases fn hd.reqType <;> exact h

theorem Stamped.processLargeReqOne {c : SrvCtx}
    (h : HuiRpc.Stamped (e.remoteSessionNum % numDestSessionNums) c.tx c.slot.txMsgbuf)
    (fn : ℕ → ReqFuncType) (preReq body : ℕ) (hd : Pkthdr) :
    HuiRpc.Stamped (e.remoteSessionNum % numDestSessionNums)
      (processLargeReqOne e fn preReq body hd c).tx
      (processLargeReqOne e fn preReq body hd c).slot.txMsgbuf := by
  obtain ⟨tx, htx, hcase⟩ := processLargeReqOne_cases e fn preReq body hd c
  -- a credit return may have been sent, and the response is the same
  have hsent : HuiRpc.Stamped (e.remoteSessionNum % numDestSessionNums) tx
      (trackReq hd c.slot).txMsgbuf := by
    rw [trackReq_txMsgbuf]
    rcases htx with rfl | rfl
    · exact h
    · exact h.snoc rfl
  rcases hcase with ⟨-, heq⟩ | ⟨v, -, heq⟩
  · rw [heq]
    exact hsent
  · rw [heq, (handleReq_frame fn hd _).1, (handleReq_frame fn hd _).2]
    exact hsent

theorem Stamped.recvSlot {fn : ℕ → ReqFuncType} {preReq body : ℕ} {hd : Pkthdr} {c c' : SrvCtx}
    (h : HuiRpc.Stamped (e.remoteSessionNum % numDestSessionNums) c.tx c.slot.txMsgbuf)
    (hs : recvSlot e fn preReq body hd c = some c') :
    HuiRpc.Stamped (e.remoteSessionNum % numDestSessionNums) c'.tx c'.slot.txMsgbuf := by
  unfold Srv.recvSlot at hs
  split at hs
  · obtain rfl := Option.some.inj hs
    split_ifs with hsmall
    · exact Stamped.processSmallReq h fn body hd
    · exact Stamped.processLargeReqOne h fn preReq body hd
  · obtain ⟨b, hb, rfl⟩ := Option.map_eq_some_iff.mp hs
    exact HuiRpc.Stamped.snoc h (h.buf b hb _)
  · simp at hs
  · simp at hs

theorem Stamped.recv {fn : ℕ → ReqFuncType} {preReq body : ℕ}
    (h : s.Stamped (e.remoteSessionNum % numDestSessionNums))
    (hs : s.recv e fn preReq body p = some s') :
    s'.Stamped (e.remoteSessionNum % numDestSessionNums) := by
  obtain ⟨x, hx, rfl⟩ := Option.map_eq_some_iff.mp hs
  exact h.put (Stamped.recvSlot (h _) hx)

theorem Stamped.answer {lkey : ℕ} {msg : TxMsg}
    (h : s.Stamped (e.remoteSessionNum % numDestSessionNums)) :
    (s.answer e i lkey msg).Stamped (e.remoteSessionNum % numDestSessionNums) := by
  refine h.put ?_
  have hfill := (h i).fill msg .response
    (a := ⟨(s.slots i).reqType, e.remoteSessionNum, (s.slots i).curReqNum, lkey⟩) rfl
  exact hfill.snoc (hfill.buf _ rfl 0)

end Srv

/-- Every packet of a session is for the session at the other end, as far as the header says. -/
structure Sys.Stamped (E : Env) (s : Sys) : Prop where
  cli : s.cli.Stamped (E.cli.remoteSessionNum % numDestSessionNums)
  srv : s.srv.Stamped (E.srv.remoteSessionNum % numDestSessionNums)

theorem Sys.Stamped.step {E : Env} {s s' : Sys} {x : Act} (h : s.Stamped E)
    (hs : s.step E x = some s') : s'.Stamped E := by
  cases x with
  | enqueue reqType lkey msg =>
    obtain ⟨c, hc, rfl⟩ := Option.map_eq_some_iff.mp hs
    exact ⟨h.cli.enqueueRequest hc, h.srv⟩
  | answer i lkey msg =>
    obtain rfl := Option.some.inj hs
    exact ⟨h.cli, h.srv.answer⟩
  | recvSrv preReq body =>
    unfold Sys.step at hs
    dsimp only at hs
    split at hs
    · simp at hs
    · next p rest htx =>
      obtain ⟨v, hv, rfl⟩ := Option.map_eq_some_iff.mp hs
      refine ⟨fun i => ⟨fun q hq => (h.cli i).tx q ?_, (h.cli i).buf⟩, h.srv.recv hv⟩
      rw [htx]
      exact List.mem_cons_of_mem p hq
  | recvCli stale =>
    unfold Sys.step at hs
    dsimp only at hs
    split at hs
    · simp at hs
    · next p rest htx =>
      obtain ⟨c, hc, rfl⟩ := Option.map_eq_some_iff.mp hs
      refine ⟨h.cli.recv hc, fun i => ⟨fun q hq => (h.srv i).tx q ?_, (h.srv i).buf⟩⟩
      rw [htx]
      exact List.mem_cons_of_mem p hq
  | stall =>
    obtain ⟨c, hc, rfl⟩ := Option.map_eq_some_iff.mp hs
    exact ⟨h.cli.processCreditStallQueue hc, h.srv⟩

/-- **Every packet carries the low bits of the number at the other end.** -/
theorem Reachable.stamped {E : Env} {s : Sys} (h : Reachable E s) : s.Stamped E := by
  obtain ⟨xs, hrun⟩ := h
  refine hrun.invariant ⟨fun _ => ⟨?_, ?_⟩, fun _ => ⟨?_, ?_⟩⟩ fun _ _ _ hx _ hs => hx.step hs
  · exact fun _ hq => absurd hq List.not_mem_nil
  · exact fun _ hb => absurd hb (by simp [Sys.init, Cli.init])
  · exact fun _ hq => absurd hq List.not_mem_nil
  · exact fun _ hb => absurd hb (by simp [Sys.init, Srv.init])

/-! ## Dispatch -/

/-- The session that `process_comps_st` takes a packet for, with its entry: none if the number
is out of range, or its session is buried or not connected. -/
def Sm.dispatch (r : Sm) (h : Pkthdr) : Option (ℕ × SmSession) :=
  if r.sessionVec.length ≤ h.destSessionNum then none
  else
    match r.sessionVec[h.destSessionNum]?.join with
    | none => none
    | some s => if s.state ≠ .kConnected then none else some (h.destSessionNum, s)

/-- A connected session gets the packets with its number, and no other packet. -/
theorem Sm.dispatch_eq_iff {r : Sm} {h : Pkthdr} {i : ℕ} {s : SmSession}
    (hs : r.sessionVec[i]? = some (some s)) (hstate : s.state = .kConnected) :
    r.dispatch h = some (i, s) ↔ h.destSessionNum = i := by
  unfold Sm.dispatch
  constructor
  · intro hd
    split_ifs at hd
    split at hd
    · simp at hd
    · split_ifs at hd
      exact (Prod.mk.inj (Option.some.inj hd)).1
  · rintro rfl
    have hlt := Sm.lt_of_getElem? hs
    rw [if_neg (by omega), hs]
    exact if_neg (not_not.mpr hstate)

namespace World

variable {K : Cluster} {w : World} {a b : RpcAddr} {i j : ℕ} {s s' : SmSession}

/-- A session that is connected at both ends: `s` is the client's end in entry `i` of the Rpc at
`a`, and `s'` the server's in entry `j` of the Rpc at `b`. -/
structure Peers (w : World) (a : RpcAddr) (i : ℕ) (s : SmSession) (b : RpcAddr) (j : ℕ)
    (s' : SmSession) : Prop where
  cli : w.vec a i = some (some s)
  cliRole : s.role = .kClient
  cliState : s.state = .kConnected
  srv : w.vec b j = some (some s')
  srvRole : s'.role = .kServer
  srvState : s'.state = .kConnected
  token : s.uniqToken = s'.uniqToken

/-- **The two ends of a session know each other.** -/
theorem Inv.peers (h : Inv K w) (hp : w.Peers a i s b j s') :
    s.server.toRpcAddr = b ∧ s.remoteSessionNum = j ∧ s'.client.toRpcAddr = a ∧
      s'.remoteSessionNum = i := by
  have hcli := h.cli a i s hp.cli hp.cliRole
  have hsrv := h.srv b j s' hp.srv hp.srvRole
  have hcreated := hcli.server (by simp [hp.cliState])
  rw [hp.token] at hcreated
  obtain ⟨hb, hj⟩ := h.server_unique hp.srv hp.srvRole hcreated
  have hopen := hcli.opened
  rw [hp.token] at hopen
  obtain ⟨ha, hi, -⟩ := h.unique _ _ _ _ _ _ _ hsrv.opened hopen
  obtain ⟨-, -, -, hremote⟩ := ((h.good b).entry j s' hp.srv).server hp.srvRole
  refine ⟨hb, ?_, ha, hremote.trans hi⟩
  exact ((((h.good a).entry i s hp.cli).client hp.cliRole).2 hp.cliState).trans hj

end World

/-! ## The result -/

theorem mod_numDestSessionNums (n : ℕ) : n % numDestSessionNums = n ↔ n < numDestSessionNums :=
  ⟨fun h => h ▸ Nat.mod_lt n (by decide), Nat.mod_eq_of_lt⟩

/-- **Packets reach the other end exactly if its number has four bits.**  In every state of the
Rpcs and for a session connected at both ends, whatever its handlers have sent so far. -/
theorem dispatched_to_peer_iff (K : Cluster) {guard : World → NetAct → Prop} {xs : List NetAct}
    {w : World} (h : World.NetRun K guard xs w)
    (hlen : ∀ a, (w.rpcs a).sessionVec.length ≤ numSessionNums) {a b : RpcAddr} {i j : ℕ}
    {s s' : SmSession} (hp : w.Peers a i s b j s') {E : Env}
    (hcli : E.cli.remoteSessionNum = s.remoteSessionNum)
    (hsrv : E.srv.remoteSessionNum = s'.remoteSessionNum) {S : Sys} (hS : Reachable E S) :
    (∀ p ∈ S.cli.tx, (p.hdr.destSessionNum = s.remoteSessionNum ∧
      (w.rpcs b).dispatch p.hdr = some (j, s')) ↔ j < numDestSessionNums) ∧
    (∀ p ∈ S.srv.tx, (p.hdr.destSessionNum = s'.remoteSessionNum ∧
      (w.rpcs a).dispatch p.hdr = some (i, s)) ↔ i < numDestSessionNums) := by
  obtain ⟨-, hj, -, hi⟩ := (World.Inv.run h hlen).peers hp
  have hstamp := hS.stamped
  constructor
  · intro q hq
    have hdest := (hstamp.cli 0).tx q hq
    rw [hcli, hj] at hdest
    rw [Sm.dispatch_eq_iff hp.srv hp.srvState, hj, and_self, hdest, mod_numDestSessionNums]
  · intro q hq
    have hdest := (hstamp.srv 0).tx q hq
    rw [hsrv, hi] at hdest
    rw [Sm.dispatch_eq_iff hp.cli hp.cliState, hi, and_self, hdest, mod_numDestSessionNums]

/-! ## Samples -/

/-- The client's end of session `n` before and after it is connected, and the server's end. -/
def sampleOpened (n : ℕ) : SmSession :=
  Sm.newClient (sampleCluster.cfg sampleCli) ['s'] 31850 0 n n

def sampleSrvEnd (n : ℕ) : SmSession :=
  Sm.newServer (sampleCluster.cfg sampleSrv) (Sm.smReq (sampleOpened n)) 1 n

def sampleAccept (n : ℕ) : SmPkt := Sm.accept (Sm.smReq (sampleOpened n)) (sampleSrvEnd n)

def sampleCliEnd (n : ℕ) : SmSession := Sm.connected (sampleOpened n) (sampleAccept n) 1

/-- The client opens session `n`, and it is connected. -/
def sampleConnect (n : ℕ) : List NetAct :=
  [.api sampleCli (.createSession ['s'] 31850 0 n),
    .deliver sampleSrv some [] (Sm.smReq (sampleOpened n)),
    .deliver sampleCli some [] (sampleAccept n)]

/-- `n` sessions are connected. -/
def sampleSessions (n : ℕ) : List NetAct :=
  .register sampleCli :: .register sampleSrv :: (List.range n).flatMap sampleConnect

theorem sampleSessions_exec :
    (exec (fun w x => w.Enabled x ∧ True) (World.step sampleCluster) World.init
      (sampleSessions 17)).map (fun w =>
        ((w.rpcs sampleCli).sessionVec, (w.rpcs sampleSrv).sessionVec))
      = some ((List.range 17).map fun n => some (sampleCliEnd n),
        (List.range 17).map fun n => some (sampleSrvEnd n)) := by
  decide +kernel

/-- Seventeen sessions can be connected. -/
theorem exists_sampleSessions : ∃ w,
    World.NetRun sampleCluster (fun _ _ => True) (sampleSessions 17) w ∧
    (∀ a, (w.rpcs a).sessionVec.length ≤ numSessionNums) ∧
    ∀ n < 17, w.Peers sampleCli n (sampleCliEnd n) sampleSrv n (sampleSrvEnd n) := by
  obtain ⟨w, hw, he⟩ := Option.map_eq_some_iff.mp sampleSessions_exec
  have hrun := run_of_exec hw
  have hcli : (w.rpcs sampleCli).sessionVec = _ := congrArg Prod.fst he
  have hsrv : (w.rpcs sampleSrv).sessionVec = _ := congrArg Prod.snd he
  refine ⟨w, hrun, ?_, fun n hn => ⟨?_, rfl, rfl, ?_, rfl, rfl, rfl⟩⟩
  · exact World.length_le_of_movers hrun [sampleCli, sampleSrv] (by decide) (by
      simp [hcli, hsrv, numSessionNums])
  · unfold World.vec
    rw [hcli]
    simp [hn]
  · unfold World.vec
    rw [hsrv]
    simp [hn]

/-- A session with number `n` at both ends. -/
def sampleNumEnv (n : ℕ) : Env := ⟨⟨n, default⟩, ⟨n, default⟩, fun _ => .kForeground⟩

theorem samplePkt_exec : ∀ n < 17,
    (exec Sys.Enabled (Sys.step (sampleNumEnv n)) Sys.init [.enqueue 1 0 default]).map
      (fun S => S.cli.tx.isEmpty) = some false := by
  decide +kernel

/-- One small request sends a packet. -/
theorem exists_samplePkt {n : ℕ} (hn : n < 17) :
    ∃ S, Reachable (sampleNumEnv n) S ∧ S.cli.tx ≠ [] := by
  obtain ⟨S, hS, he⟩ := Option.map_eq_some_iff.mp (samplePkt_exec n hn)
  refine ⟨S, ⟨_, run_of_exec hS⟩, ?_⟩
  intro hnil
  rw [hnil] at he
  simp at he

/-- The packets of the sixteenth session reach its other end. -/
theorem dispatched_to_peer_sample : ∃ (w : World) (S : Sys), Reachable (sampleNumEnv 15) S ∧ S.cli.tx ≠ [] ∧
    ∀ p ∈ S.cli.tx, (w.rpcs sampleSrv).dispatch p.hdr = some (15, sampleSrvEnd 15) := by
  obtain ⟨w, hrun, hlen, hpeers⟩ := exists_sampleSessions
  obtain ⟨S, hS, hne⟩ := exists_samplePkt (n := 15) (by decide)
  have hall := (dispatched_to_peer_iff sampleCluster hrun hlen (hpeers 15 (by decide)) rfl rfl hS).1
  exact ⟨w, S, hS, hne, fun p hp => ((hall p hp).mpr (by decide)).2⟩

/-- The packets of the seventeenth session reach the first one. -/
theorem dispatched_elsewhere : ∃ w S,
    World.NetRun sampleCluster (fun _ _ => True) (sampleSessions 17) w ∧
    w.Peers sampleCli 16 (sampleCliEnd 16) sampleSrv 16 (sampleSrvEnd 16) ∧
    Reachable (sampleNumEnv 16) S ∧ S.cli.tx ≠ [] ∧
    ∀ p ∈ S.cli.tx, p.hdr.destSessionNum ≠ 16 ∧
      (w.rpcs sampleSrv).dispatch p.hdr = some (0, sampleSrvEnd 0) := by
  obtain ⟨w, hrun, -, hpeers⟩ := exists_sampleSessions
  obtain ⟨S, hS, hne⟩ := exists_samplePkt (n := 16) (by decide)
  refine ⟨w, S, hrun, hpeers 16 (by decide), hS, hne, fun p hp => ?_⟩
  have hdest : p.hdr.destSessionNum = 0 := (hS.stamped.cli 0).tx p hp
  have hfirst := hpeers 0 (by decide)
  exact ⟨by rw [hdest]; decide, (Sm.dispatch_eq_iff hfirst.srv hfirst.srvState).mpr hdest⟩

end HuiRpc
