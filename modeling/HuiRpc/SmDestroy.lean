/-
# Rpcs that are destroyed, and disconnect responses

The Rpcs of `HuiRpc.SmWorld` now come and go.  `~Rpc` deletes the sessions of an Rpc and takes it
out of the table of its Nexus, without a word to the other side; later a new Rpc may be created in
its place.  In between, `sm_thread_func` answers the requests for it.

* The network is the one of `HuiRpc.SmWorld`: a packet that was sent is delivered any number of
  times, at any time, or never.  That tokens are drawn once is not needed here.
* What is left of a destroyed Rpc is not looked at.

`RespAsserts` are the assertions of `handle_disconnect_resp_st`.  `Sm.Ending` follows the
disconnect requests of an Rpc: the session of a request is buried, or still disconnecting and just
as the request says.  `disconnect_resp_asserts` says when the assertions hold, and
`disconnect_rejected` shows runs in which they do not.
-/
import HuiRpc.SmPending

namespace HuiRpc

open Runs

/-! ## The assertions -/

/-- `SessionEndpoint::operator==`, which leaves out the routing info. -/
def SessionEndpoint.Same (e e' : SessionEndpoint) : Prop :=
  e.transportType = e'.transportType ∧ e.hostname = e'.hostname ∧ e.smUdpPort = e'.smUdpPort ∧
    e.rpcId = e'.rpcId ∧ e.sessionNum = e'.sessionNum

/-- The assertions of `handle_disconnect_resp_st`, in the Rpc at `a`. -/
structure RespAsserts (a : RpcAddr) (r : Sm) (p : SmPkt) : Prop where
  rpcId : p.client.rpcId = a.rpcId
  errType : p.errType = .kNoError
  sessionNum : p.client.sessionNum < r.sessionVec.length
  session : ∀ s : SmSession, r.sessionVec[p.client.sessionNum]? = some (some s) →
    s.role = .kClient ∧ s.state = .kDisconnectInProgress ∧ s.client.Same p.client ∧
      s.server.Same p.server

/-! ## Rpcs that come and go -/

inductive LifeAct
  | create (a : RpcAddr)
  | destroy (a : RpcAddr)
  | net (x : NetAct)

namespace World

def lifeStep (K : Cluster) (w : World) : LifeAct → Option World
  | .create a => some { w with
      rpcs := Function.update w.rpcs a Sm.init
      up := Function.update w.up a true }
  | .destroy a => some { w with up := Function.update w.up a false }
  | .net x => w.step K x

/-- When an action may be taken. -/
def Lives (w : World) : LifeAct → Prop
  | .create a => w.up a = false
  | .destroy a => w.up a = true
  | .net (.register _) => False
  | .net (.api a _) => w.up a = true
  | .net (.deliver a _ _ p) => p ∈ w.net ∧ p.dest = a ∧ w.up a = true
  | .net (.reject p) => p ∈ w.net ∧ p.pktType.isReq = true ∧ w.up p.server.toRpcAddr = false

instance (w : World) (x : LifeAct) : Decidable (w.Lives x) :=
  match x with
  | .create _ => inferInstanceAs (Decidable (_ = _))
  | .destroy _ => inferInstanceAs (Decidable (_ = _))
  | .net (.register _) => isFalse id
  | .net (.api _ _) => inferInstanceAs (Decidable (_ = _))
  | .net (.deliver _ _ _ _) => inferInstanceAs (Decidable (_ ∧ _ ∧ _))
  | .net (.reject _) => inferInstanceAs (Decidable (_ ∧ _ ∧ _))

/-- The Rpc has no more entries than there are session numbers. -/
def Roomy (r : Option Sm) : Prop := ∀ r', r = some r' → r'.sessionVec.length ≤ numSessionNums

instance (r : Option Sm) : Decidable (Roomy r) :=
  match r with
  | none => isTrue fun _ h => by cases h
  | some r' => decidable_of_iff (r'.sessionVec.length ≤ numSessionNums)
      ⟨fun h _ he => Option.some.inj he ▸ h, fun h => h r' rfl⟩

/-- What the assertions need of an action.

* A new Rpc does not come to the address of one that has sent a disconnect request.
* The session numbers of an Rpc do not run out.
* No disconnect request comes to a management thread whose Rpc is not there. -/
def Kept (K : Cluster) (w : World) : LifeAct → Prop
  | .create a => ∀ q ∈ w.net, q.pktType = .kDisconnectReq → q.client.toRpcAddr ≠ a
  | .destroy _ => True
  | .net (.register _) => True
  | .net (.api a c) => Roomy ((w.rpcs a).step (K.cfg a) (.api c))
  | .net (.deliver a resolve cb p) => Roomy ((w.rpcs a).step (K.cfg a) (.recv resolve cb p))
  | .net (.reject p) => p.pktType ≠ .kDisconnectReq

instance (K : Cluster) (w : World) (x : LifeAct) : Decidable (w.Kept K x) :=
  match x with
  | .create _ => inferInstanceAs (Decidable (∀ _ ∈ w.net, _ → _))
  | .destroy _ => isTrue trivial
  | .net (.register _) => isTrue trivial
  | .net (.api _ _) => inferInstanceAs (Decidable (Roomy _))
  | .net (.deliver _ _ _ _) => inferInstanceAs (Decidable (Roomy _))
  | .net (.reject _) => inferInstanceAs (Decidable (¬ _ = _))

end World

/-- The runs with the actions that `guard` admits. -/
abbrev LifeRun (K : Cluster) (guard : World → LifeAct → Prop) : List LifeAct → World → Prop :=
  Run (fun w x => w.Lives x ∧ guard w x) (World.lifeStep K) World.init

/-! ## Disconnect requests -/

namespace Sm

variable {C : SmCfg} {a : RpcAddr} {Q : List SmPkt} {r r' : Sm} {s s' : SmSession} {p q : SmPkt}
  {i : ℕ} {cb : List ApiCall} {resolve : ℕ → Option ℕ}

/-- The session that a packet names is buried, or is disconnecting and as the packet says. -/
def Closes (r : Sm) (q : SmPkt) : Prop :=
  r.sessionVec[q.client.sessionNum]? = some none ∨
    ∃ s, r.sessionVec[q.client.sessionNum]? = some (some s) ∧ s.role = .kClient ∧
      s.state = .kDisconnectInProgress ∧ s.client = q.client ∧ s.server = q.server

theorem Closes.push (h : Closes r q) {x : Option SmSession}
    (hv : r'.sessionVec = r.sessionVec ++ [x]) : Closes r' q := by
  unfold Closes
  rw [hv]
  rcases h with hnull | ⟨s, hs, hrest⟩
  · exact Or.inl (getElem?_snoc.mpr (Or.inl hnull))
  · exact Or.inr ⟨s, getElem?_snoc.mpr (Or.inl hs), hrest⟩

theorem Closes.setNull (h : Closes r q) (hv : r'.sessionVec = r.sessionVec.set i none) :
    Closes r' q := by
  unfold Closes
  rw [hv]
  by_cases hi : i = q.client.sessionNum
  · left
    rw [hi]
    rcases h with hnull | ⟨s, hs, -⟩
    · exact List.getElem?_set_self (lt_of_getElem? hnull)
    · exact List.getElem?_set_self (lt_of_getElem? hs)
  · rw [List.getElem?_set_ne hi]
    exact h

/-- A session that is not disconnecting may be written. -/
theorem Closes.write (h : Closes r q) (hs : r.sessionVec[i]? = some (some s))
    (hstate : s.state ≠ .kDisconnectInProgress)
    (hv : r'.sessionVec = r.sessionVec.set i (some s')) : Closes r' q := by
  have hi : i ≠ q.client.sessionNum := by
    rintro rfl
    rcases h with hnull | ⟨t, ht, -, hdisc, -⟩
    · rw [hs] at hnull
      simp at hnull
    · rw [hs] at ht
      obtain rfl : s = t := by simpa using ht
      exact hstate hdisc
  unfold Closes
  rw [hv, List.getElem?_set_ne hi]
  exact h

/-- A disconnect response to a request of `Q`. -/
def Answers (Q : List SmPkt) (q : SmPkt) : Prop :=
  q.errType = .kNoError ∧
    ∃ p ∈ Q, p.pktType = .kDisconnectReq ∧ p.client = q.client ∧ p.server = q.server

/-- **The disconnects of the Rpc at `a`**, where `Q` are the packets sent before the event at hand.

* `own` — client sessions know where they are;
* `role` — only client sessions connect and disconnect;
* `req` — all disconnect requests of the Rpc are of sessions that are closed or closing;
* `mine` — the Rpc sends disconnect requests of its own sessions only;
* `resp` — and disconnect responses only to requests. -/
structure Ending (a : RpcAddr) (Q : List SmPkt) (r : Sm) : Prop where
  own : ∀ (i : ℕ) (s : SmSession), r.sessionVec[i]? = some (some s) → s.role = .kClient →
    s.client.toRpcAddr = a ∧ s.client.sessionNum = i
  role : ∀ (i : ℕ) (s : SmSession), r.sessionVec[i]? = some (some s) → s.state ≠ .kConnected →
    s.role = .kClient
  req : ∀ q ∈ Q ++ r.out, q.pktType = .kDisconnectReq → q.client.toRpcAddr = a → Closes r q
  mine : ∀ q ∈ r.out, q.pktType = .kDisconnectReq → q.client.toRpcAddr = a
  resp : ∀ q ∈ r.out, q.pktType = .kDisconnectResp → Answers Q q

/-- What a move has to do, with the packets `ps`. -/
theorem Ending.move (h : Ending a Q r) (ps : List SmPkt) (hout : r'.out = r.out ++ ps)
    (hentry : ∀ (i : ℕ) (s : SmSession), r'.sessionVec[i]? = some (some s) →
      r.sessionVec[i]? = some (some s) ∨
        ((s.role = .kClient → s.client.toRpcAddr = a ∧ s.client.sessionNum = i) ∧
          (s.state ≠ .kConnected → s.role = .kClient)))
    (hclosed : ∀ q, Closes r q → Closes r' q)
    (hreq : ∀ q ∈ ps, q.pktType = .kDisconnectReq → q.client.toRpcAddr = a ∧ Closes r' q)
    (hresp : ∀ q ∈ ps, q.pktType = .kDisconnectResp → Answers Q q) : Ending a Q r' where
  own := by
    intro i s hs
    rcases hentry i s hs with hold | ⟨hown, -⟩
    · exact h.own i s hold
    · exact hown
  role := by
    intro i s hs
    rcases hentry i s hs with hold | ⟨-, hrole⟩
    · exact h.role i s hold
    · exact hrole
  req := by
    intro q hq hty haddr
    rw [hout, ← List.append_assoc] at hq
    rcases List.mem_append.mp hq with hold | hnew
    · exact hclosed q (h.req q hold hty haddr)
    · exact (hreq q hnew hty).2
  mine := by
    intro q hq hty
    rw [hout] at hq
    rcases List.mem_append.mp hq with hold | hnew
    · exact h.mine q hold hty
    · exact (hreq q hnew hty).1
  resp := by
    intro q hq hty
    rw [hout] at hq
    rcases List.mem_append.mp hq with hold | hnew
    · exact h.resp q hold hty
    · exact hresp q hnew hty

/-- A move that leaves the sessions alone and sends no disconnect request. -/
theorem Ending.note (h : Ending a Q r) (ps : List SmPkt) (hv : r'.sessionVec = r.sessionVec)
    (hout : r'.out = r.out ++ ps) (hreq : ∀ q ∈ ps, q.pktType ≠ .kDisconnectReq)
    (hresp : ∀ q ∈ ps, q.pktType = .kDisconnectResp → Answers Q q) : Ending a Q r' := by
  refine h.move ps hout ?_ ?_ (fun q hq hty => absurd hty (hreq q hq)) hresp
  · intro i s hs
    rw [hv] at hs
    exact Or.inl hs
  · intro q hq
    unfold Closes
    rw [hv]
    exact hq

theorem Ending.congr (h : Ending a Q r) (hv : r'.sessionVec = r.sessionVec)
    (hout : r'.out = r.out) : Ending a Q r' :=
  h.note [] hv (by rw [hout, List.append_nil]) (fun _ hq => absurd hq List.not_mem_nil)
    fun _ hq => absurd hq List.not_mem_nil

/-- A packet that has nothing to do with disconnecting. -/
theorem Ending.udpTx (h : Ending a Q r) (hreq : p.pktType ≠ .kDisconnectReq)
    (hresp : p.pktType ≠ .kDisconnectResp) : Ending a Q (r.udpTx p) := by
  refine h.note [p] rfl rfl ?_ ?_
  · intro q hq
    rw [List.mem_singleton.mp hq]
    exact hreq
  · intro q hq hty
    rw [List.mem_singleton.mp hq] at hty
    exact absurd hty hresp

theorem Ending.setNull (h : Ending a Q r) (i : ℕ) :
    Ending a Q { r with sessionVec := r.sessionVec.set i none } := by
  refine h.move [] (List.append_nil _).symm ?_ (fun q hq => hq.setNull rfl)
    (fun _ hq => absurd hq List.not_mem_nil) fun _ hq => absurd hq List.not_mem_nil
  intro j s hs
  rcases getElem?_set_some hs with ⟨-, he⟩ | ⟨-, hs⟩
  · simp at he
  · exact Or.inl hs

theorem Ending.bury (h : Ending a Q r) (hb : r.burySession s = some r') : Ending a Q r' := by
  obtain ⟨-, rfl⟩ := burySession_cases hb
  exact h.setNull _

/-- A new session at the end of the vector. -/
theorem Ending.push (h : Ending a Q r) (ps : List SmPkt)
    (hv : r'.sessionVec = r.sessionVec ++ [some s]) (hout : r'.out = r.out ++ ps)
    (hown : s.role = .kClient → s.client.toRpcAddr = a ∧ s.client.sessionNum = r.sessionVec.length)
    (hrole : s.state ≠ .kConnected → s.role = .kClient)
    (hps : ∀ q ∈ ps, q.pktType ≠ .kDisconnectReq ∧ q.pktType ≠ .kDisconnectResp) :
    Ending a Q r' := by
  refine h.move ps hout ?_ (fun q hq => hq.push hv)
    (fun q hq hty => absurd hty (hps q hq).1) fun q hq hty => absurd hty (hps q hq).2
  intro i t ht
  rw [hv] at ht
  rcases getElem?_snoc.mp ht with hold | ⟨rfl, he⟩
  · exact Or.inl hold
  · obtain rfl := Option.some.inj he
    exact Or.inr ⟨hown, hrole⟩

theorem Ending.openClient (h : Ending a Q r) (haddr : C.toRpcAddr = a)
    (hlt : r.sessionVec.length < numSessionNums) (hostname : List Char) (port rpcId token : ℕ) :
    Ending a Q (r.openClient C hostname port rpcId token) := by
  refine h.push [smReq (newClient C hostname port rpcId token
    (r.sessionVec.length % numSessionNums))] (openClient_sessionVec C r hostname port rpcId token)
    rfl (fun _ => ⟨haddr, Nat.mod_eq_of_lt hlt⟩) (fun _ => rfl) ?_
  intro q hq
  have hreq : q.pktType = .kConnectReq := by
    rw [List.mem_singleton.mp hq]
    rfl
  rw [hreq]
  exact ⟨by decide, by decide⟩

theorem Ending.openServer (h : Ending a Q r) (hty : p.pktType = .kConnectReq) (rinfo : ℕ) :
    Ending a Q (r.openServer C p rinfo) := by
  refine h.push [accept p (newServer C p rinfo (r.sessionVec.length % numSessionNums))]
    (openServer_sessionVec C r p rinfo) rfl ?_ ?_ ?_
  · intro hrole
    exact absurd (show SessionRole.kServer = .kClient from hrole) (by decide)
  · intro hstate
    exact absurd rfl hstate
  · intro q hq
    have hresp : q.pktType = .kConnectResp := by
      rw [List.mem_singleton.mp hq]
      simp [accept, SmPkt.constructResp, hty, SmPktType.reqToResp]
    rw [hresp]
    exact ⟨by decide, by decide⟩

/-- A client session that is not disconnecting is written, and keeps its own end. -/
theorem Ending.write (h : Ending a Q r) (ps : List SmPkt) (hs : r.sessionVec[i]? = some (some s))
    (hrole : s.role = .kClient) (hstate : s.state ≠ .kDisconnectInProgress)
    (hv : r'.sessionVec = r.sessionVec.set i (some s')) (hout : r'.out = r.out ++ ps)
    (hrole' : s'.role = .kClient) (hclient : s'.client = s.client)
    (hps : ∀ q ∈ ps, q = smReq s' ∧ s'.state = .kDisconnectInProgress) : Ending a Q r' := by
  have hown := h.own i s hs hrole
  have hget : r'.sessionVec[i]? = some (some s') := by
    rw [hv]
    exact List.getElem?_set_self (lt_of_getElem? hs)
  refine h.move ps hout ?_ (fun q hq => hq.write hs hstate hv) ?_ ?_
  · intro j t ht
    rw [hv] at ht
    rcases getElem?_set_some ht with ⟨rfl, he⟩ | ⟨-, ht⟩
    · obtain rfl := Option.some.inj he
      rw [hclient]
      exact Or.inr ⟨fun _ => hown, fun _ => hrole'⟩
    · exact Or.inl ht
  · intro q hq _
    obtain ⟨rfl, hdisc⟩ := hps q hq
    have hnum : (smReq s').client.sessionNum = i := by
      show s'.client.sessionNum = i
      rw [hclient]
      exact hown.2
    refine ⟨?_, Or.inr ⟨s', ?_, hrole', hdisc, rfl, rfl⟩⟩
    · show s'.client.toRpcAddr = a
      rw [hclient]
      exact hown.1
    · rw [hnum]
      exact hget
  · intro q hq hty
    obtain ⟨rfl, hdisc⟩ := hps q hq
    simp [smReq, hdisc] at hty

/-- **A session starts to disconnect.** -/
theorem Ending.closeClient (h : Ending a Q r) (hs : r.sessionVec[i]? = some (some s))
    (hrole : s.role = .kClient) (hstate : s.state ≠ .kDisconnectInProgress)
    (server : SessionEndpoint) : Ending a Q (r.closeClient i { s with server := server }) := by
  refine h.write [smReq { s with server := server, state := .kDisconnectInProgress }] hs hrole
    hstate rfl rfl hrole rfl ?_
  intro q hq
  exact ⟨List.mem_singleton.mp hq, rfl⟩

theorem Ending.call (h : Ending a Q r) (haddr : C.toRpcAddr = a) (c : ApiCall)
    (hlen : (r.call C c).sessionVec.length ≤ numSessionNums) : Ending a Q (r.call C c) := by
  rcases call_cases C r c with he | ⟨hostname, port, rpcId, token, -, -, he⟩ |
      ⟨i, s, hs, hrole, hstate, he⟩
  · rwa [he]
  · rw [he] at hlen ⊢
    have hv : (r.openClient C hostname port rpcId token).sessionVec.length
        = r.sessionVec.length + 1 := List.length_append
    exact h.openClient haddr (by omega) hostname port rpcId token
  · rw [he]
    exact h.closeClient hs hrole (by rw [hstate]; decide) s.server

theorem Ending.smHandler (h : Ending a Q r) (haddr : C.toRpcAddr = a) (s : SmSession)
    (ev : SmEventType) (err : SmErrType)
    (hlen : (r.smHandler C cb s ev err).sessionVec.length ≤ numSessionNums) :
    Ending a Q (r.smHandler C cb s ev err) :=
  smHandler_ind_le s ev err (h.congr rfl rfl) (fun _ c _ hx hle => hx.call haddr c hle) hlen

/-- A session is buried after the callback for it. -/
theorem Ending.farewell (h : Ending a Q r) (haddr : C.toRpcAddr = a) {ev : SmEventType}
    {err : SmErrType} (hb : (r.freeRingEntries.smHandler C cb s ev err).burySession s = some r')
    (hlen : r'.sessionVec.length ≤ numSessionNums) : Ending a Q r' := by
  have hfree : Ending a Q r.freeRingEntries := h.congr rfl rfl
  obtain ⟨-, rfl⟩ := burySession_cases hb
  rw [List.length_set] at hlen
  exact (hfree.smHandler haddr s _ _ hlen).setNull _

/-- A connect request. -/
theorem Ending.connectReq (h : Ending a Q r) (hty : p.pktType = .kConnectReq)
    (hs : r.handleConnectReq C resolve p = some r') : Ending a Q r' := by
  have hresp : ∀ err, (p.constructResp err).pktType = .kConnectResp := by
    intro err
    simp [SmPkt.constructResp, hty, SmPktType.reqToResp]
  rcases handleConnectReq_cases hs with
    ⟨n, -, ⟨-, rfl⟩ | ⟨s, -, ⟨-, rfl⟩ | ⟨-, rfl⟩⟩⟩ | ⟨-, ⟨err, -, rfl⟩ | ⟨rinfo, -, rfl⟩⟩
  · exact h
  · exact h
  · have hacc : (accept p s).pktType = .kConnectResp := hresp .kNoError
    exact h.udpTx (by rw [hacc]; decide) (by rw [hacc]; decide)
  · exact h.udpTx (by rw [hresp]; decide) (by rw [hresp]; decide)
  · exact h.openServer hty rinfo

/-- A disconnect request is answered. -/
theorem Ending.answer (h : Ending a Q r) (hp : p ∈ Q) (hty : p.pktType = .kDisconnectReq) :
    Ending a Q (r.udpTx (p.constructResp .kNoError)) := by
  refine h.note [p.constructResp .kNoError] rfl rfl ?_ ?_
  · intro q hq
    rw [List.mem_singleton.mp hq]
    simp [SmPkt.constructResp, hty, SmPktType.reqToResp]
  · intro q hq _
    rw [List.mem_singleton.mp hq]
    exact ⟨rfl, p, hp, hty, rfl, rfl⟩

theorem Ending.disconnectReq (h : Ending a Q r) (hp : p ∈ Q) (hty : p.pktType = .kDisconnectReq)
    (hs : r.handleDisconnectReq p = some r') : Ending a Q r' := by
  rcases handleDisconnectReq_cases hs with ⟨-, rfl⟩ | ⟨s, -, hb⟩
  · exact h.answer hp hty
  · have hfree : Ending a Q r.freeRingEntries := h.congr rfl rfl
    exact (hfree.answer hp hty).bury hb

/-- A connect response. -/
theorem Ending.connectResp (h : Ending a Q r) (haddr : C.toRpcAddr = a)
    (hs : r.handleConnectResp C resolve cb p = some r')
    (hlen : r'.sessionVec.length ≤ numSessionNums) : Ending a Q r' := by
  rcases handleConnectResp_cases hs with ⟨-, rfl⟩ | ⟨s, hget, ⟨-, rfl⟩ |
    ⟨hstate, rfl | ⟨-, -, hb⟩ | ⟨-, rfl⟩ | ⟨-, rinfo, rfl⟩⟩⟩
  · exact h
  · exact h
  · exact h.congr rfl rfl
  · exact h.farewell haddr hb hlen
  · have hrole := h.role _ s hget (by rw [hstate]; decide)
    exact h.closeClient hget hrole (by rw [hstate]; decide) p.server
  · have hrole := h.role _ s hget (by rw [hstate]; decide)
    have hw : Ending a Q (r.write p.client.sessionNum (connected s p rinfo)) :=
      h.write [] hget hrole (by rw [hstate]; decide) rfl (List.append_nil _).symm hrole rfl
        fun _ hq => absurd hq List.not_mem_nil
    exact hw.smHandler haddr _ _ _ hlen

/-- A disconnect response. -/
theorem Ending.disconnectResp (h : Ending a Q r) (haddr : C.toRpcAddr = a)
    (hs : r.handleDisconnectResp C cb p = some r')
    (hlen : r'.sessionVec.length ≤ numSessionNums) : Ending a Q r' := by
  rcases handleDisconnectResp_cases hs with ⟨-, rfl⟩ | ⟨s, -, hb⟩
  · exact h
  · exact h.farewell haddr hb hlen

/-- **One event.**  A packet that is received is one of `Q`. -/
theorem Ending.step {y : SmAct} (h : Ending a Q { r with out := [] }) (haddr : C.toRpcAddr = a)
    (hQ : ∀ resolve cb p, y = .recv resolve cb p → p ∈ Q) (hs : r.step C y = some r')
    (hlen : r'.sessionVec.length ≤ numSessionNums) : Ending a Q r' := by
  cases y with
  | api c =>
    obtain rfl := Option.some.inj hs
    exact h.call haddr c hlen
  | recv resolve cb p =>
    obtain ⟨r₁, hf, hcase⟩ := recv_cases hs
    have h₁ : Ending a Q r₁ := h.congr hf.sessionVec hf.out
    rcases hcase with ⟨hty, hs⟩ | ⟨hty, hs⟩ | ⟨-, hs⟩ | ⟨-, hs⟩
    · exact h₁.connectReq hty hs
    · exact h₁.disconnectReq (hQ resolve cb p rfl) hty hs
    · exact h₁.connectResp haddr hs hlen
    · exact h₁.disconnectResp haddr hs hlen

/-- The packets of the event are sent. -/
theorem Ending.settle (h : Ending a Q r) : Ending a (Q ++ r.out) { r with out := [] } where
  own := h.own
  role := h.role
  req := by
    intro q hq
    rw [List.append_nil] at hq
    exact h.req q hq
  mine := fun _ hq => absurd hq List.not_mem_nil
  resp := fun _ hq => absurd hq List.not_mem_nil

/-- Another Rpc has sent packets. -/
theorem Ending.grow (h : Ending a Q { r with out := [] }) {ps : List SmPkt}
    (hps : ∀ q ∈ ps, q.pktType = .kDisconnectReq → q.client.toRpcAddr ≠ a) :
    Ending a (Q ++ ps) { r with out := [] } where
  own := h.own
  role := h.role
  req := by
    intro q hq hty haddr
    rw [List.append_nil] at hq
    rcases List.mem_append.mp hq with hold | hnew
    · exact h.req q (List.mem_append_left _ hold) hty haddr
    · exact absurd haddr (hps q hnew hty)
  mine := fun _ hq => absurd hq List.not_mem_nil
  resp := fun _ hq => absurd hq List.not_mem_nil

/-- A new Rpc, of which no disconnect request is in the network. -/
theorem Ending.init (hQ : ∀ q ∈ Q, q.pktType = .kDisconnectReq → q.client.toRpcAddr ≠ a) :
    Ending a Q Sm.init where
  own := fun _ _ hs => by simp [Sm.init] at hs
  role := fun _ _ hs => by simp [Sm.init] at hs
  req := by
    intro q hq hty haddr
    rw [show Sm.init.out = [] from rfl, List.append_nil] at hq
    exact absurd haddr (hQ q hq hty)
  mine := fun _ hq => absurd hq List.not_mem_nil
  resp := fun _ hq => absurd hq List.not_mem_nil

theorem Answers.mono (h : Answers Q q) (ps : List SmPkt) : Answers (Q ++ ps) q := by
  obtain ⟨herr, p, hp, hrest⟩ := h
  exact ⟨herr, p, List.mem_append_left _ hp, hrest⟩

end Sm

/-! ## Runs -/

namespace World

variable {K : Cluster} {w w' : World} {a : RpcAddr} {p : SmPkt} {r' : Sm}

/-- The disconnects of all Rpcs, between two events. -/
structure EndInv (w : World) : Prop where
  rpc : ∀ a, Sm.Ending a w.net { w.rpcs a with out := [] }
  resp : ∀ q ∈ w.net, q.pktType = .kDisconnectResp → Sm.Answers w.net q

theorem EndInv.init : EndInv World.init where
  rpc := fun _ => Sm.Ending.init fun _ hq => absurd hq List.not_mem_nil
  resp := fun _ hq => absurd hq List.not_mem_nil

/-- An event of the Rpc at `a`. -/
theorem EndInv.put (h : EndInv w) (hr : Sm.Ending a w.net r') (ts : List ℕ) :
    EndInv ((w.draw ts).put a r') where
  rpc := by
    intro b
    by_cases hb : b = a
    · subst hb
      rw [put_rpcs_self]
      exact hr.settle
    · rw [put_rpcs_ne _ _ hb]
      refine (h.rpc b).grow fun q hq hty haddr => ?_
      exact hb (haddr.symm.trans (hr.mine q hq hty))
  resp := by
    intro q hq hty
    rcases List.mem_append.mp hq with hold | hnew
    · exact (h.resp q hold hty).mono r'.out
    · exact (hr.resp q hnew hty).mono r'.out

/-- The management thread answers a request that is not a disconnect request. -/
theorem EndInv.reject (h : EndInv w) (hreq : p.pktType.isReq = true)
    (hne : p.pktType ≠ .kDisconnectReq) :
    EndInv { w with net := w.net ++ [p.constructResp .kInvalidRemoteRpcId] } := by
  have hty : (p.constructResp .kInvalidRemoteRpcId).pktType ≠ .kDisconnectReq ∧
      (p.constructResp .kInvalidRemoteRpcId).pktType ≠ .kDisconnectResp := by
    show p.pktType.reqToResp ≠ _ ∧ p.pktType.reqToResp ≠ _
    cases htype : p.pktType <;> rw [htype] at hreq hne <;>
      simp [SmPktType.reqToResp, SmPktType.isReq] at hreq hne ⊢
  refine ⟨fun a => (h.rpc a).grow ?_, ?_⟩
  · intro q hq hdisc
    rw [List.mem_singleton.mp hq] at hdisc
    exact absurd hdisc hty.1
  · intro q hq hdisc
    rcases List.mem_append.mp hq with hold | hnew
    · exact (h.resp q hold hdisc).mono _
    · rw [List.mem_singleton.mp hnew] at hdisc
      exact absurd hdisc hty.2

/-- **Every action that is `Kept` keeps the invariant.** -/
theorem EndInv.step {x : LifeAct} (h : EndInv w) (hen : w.Lives x) (hk : w.Kept K x)
    (hs : w.lifeStep K x = some w') : EndInv w' := by
  cases x with
  | create a =>
    obtain rfl := Option.some.inj hs
    refine ⟨fun b => ?_, h.resp⟩
    dsimp only
    by_cases hb : b = a
    · subst hb
      rw [Function.update_self]
      exact Sm.Ending.init hk
    · rw [Function.update_of_ne hb]
      exact h.rpc b
  | destroy a =>
    obtain rfl := Option.some.inj hs
    exact ⟨h.rpc, h.resp⟩
  | net x =>
    cases x with
    | register a => exact absurd hen id
    | api a c =>
      obtain rfl := step_api hs
      refine h.put ((h.rpc a).step (y := .api c) (K.cfg_addr a) ?_ rfl (hk _ rfl)) _
      intro _ _ _ hy
      cases hy
    | deliver a resolve cb p =>
      obtain ⟨r', hr', rfl⟩ := step_deliver hs
      refine h.put ((h.rpc a).step (K.cfg_addr a) ?_ hr' (hk _ hr')) _
      intro resolve' cb' p' hy
      obtain ⟨-, -, rfl⟩ : resolve = resolve' ∧ cb = cb' ∧ p = p' := by simpa using hy
      exact hen.1
    | reject p =>
      obtain rfl := Option.some.inj hs
      exact h.reject hen.2.1 hk

theorem EndInv.run {xs : List LifeAct} (h : LifeRun K (Kept K) xs w) : EndInv w :=
  h.invariant EndInv.init fun _ _ _ hw hg hs => hw.step hg.1 hg.2 hs

/-- A disconnect response in the network meets the assertions. -/
theorem EndInv.asserts (h : EndInv w) (hp : p ∈ w.net) (hty : p.pktType = .kDisconnectResp)
    (haddr : p.client.toRpcAddr = a) : RespAsserts a (w.rpcs a) p := by
  obtain ⟨herr, q, hq, hreq, hcli, hsrv⟩ := h.resp p hp hty
  have hclose := (h.rpc a).req q (List.mem_append_left _ hq) hreq (by rw [hcli, haddr])
  unfold Sm.Closes at hclose
  rw [hcli] at hclose
  refine ⟨by rw [← haddr], herr, ?_, ?_⟩
  · rcases hclose with hnull | ⟨s, hs, -⟩
    · exact Sm.lt_of_getElem? hnull
    · exact Sm.lt_of_getElem? hs
  · intro s hs
    rcases hclose with hnull | ⟨t, ht, hrole, hstate, hc, hv⟩
    · rw [show (w.rpcs a).sessionVec[p.client.sessionNum]? = some none from hnull] at hs
      simp at hs
    · obtain rfl : s = t := by
        rw [show (w.rpcs a).sessionVec[p.client.sessionNum]? = some (some t) from ht] at hs
        simpa using hs.symm
      rw [hc, hv, hsrv]
      exact ⟨hrole, hstate, ⟨rfl, rfl, rfl, rfl, rfl⟩, ⟨rfl, rfl, rfl, rfl, rfl⟩⟩

end World

/-- **Disconnect responses.**  In every run in which no disconnect request comes to a management
thread after its Rpc was destroyed, no Rpc takes the address of one that has sent a disconnect
request, and the session numbers do not run out, every disconnect response that
`handle_disconnect_resp_st` may be called with meets its assertions. -/
theorem disconnect_resp_asserts (K : Cluster) {xs : List LifeAct} {w : World}
    (h : LifeRun K (World.Kept K) xs w) (a : RpcAddr) (resolve : ℕ → Option ℕ) (cb : List ApiCall)
    (p : SmPkt) (hen : w.Lives (.net (.deliver a resolve cb p)))
    (hty : p.pktType = .kDisconnectResp) : RespAsserts a (w.rpcs a) p := by
  have haddr : p.client.toRpcAddr = a := by
    rw [← World.dest_resp (by rw [hty]; rfl)]
    exact hen.2.1
  exact (World.EndInv.run h).asserts hen.1 hty haddr

/-! ## A server that is destroyed -/

/-- A client session is connected. -/
def sampleConnecting : List LifeAct :=
  [.create sampleCli, .create sampleSrv,
    .net (.api sampleCli (.createSession ['s'] 31850 0 7)),
    .net (.deliver sampleSrv some [] sampleReq), .net (.deliver sampleCli some [] sampleSmResp)]

/-- The client's disconnect request. -/
def sampleDisconnectReq : SmPkt := { sampleSmResp with pktType := .kDisconnectReq }

/-- The client disconnects, and the server answers and is destroyed. -/
def sampleDisconnect : List LifeAct :=
  sampleConnecting ++ [.net (.api sampleCli (.destroySession 0 true)),
    .net (.deliver sampleSrv some [] sampleDisconnectReq), .destroy sampleSrv]

theorem disconnect_resp_asserts_sample : ∃ w,
    LifeRun sampleCluster (World.Kept sampleCluster) sampleDisconnect w ∧
    w.Lives (.net (.deliver sampleCli some [] (sampleDisconnectReq.constructResp .kNoError))) ∧
    RespAsserts sampleCli (w.rpcs sampleCli) (sampleDisconnectReq.constructResp .kNoError) := by
  have hexec : (exec (fun w x => w.Lives x ∧ w.Kept sampleCluster x)
      (World.lifeStep sampleCluster) World.init sampleDisconnect).map (fun w => decide (w.Lives
        (.net (.deliver sampleCli some [] (sampleDisconnectReq.constructResp .kNoError)))))
      = some true := by
    decide +kernel
  obtain ⟨w, hw, hval⟩ := Option.map_eq_some_iff.mp hexec
  have hen := of_decide_eq_true hval
  exact ⟨w, run_of_exec hw, hen,
    disconnect_resp_asserts sampleCluster (run_of_exec hw) sampleCli some [] _ hen rfl⟩

/-- The server is destroyed first, and its management thread answers the client. -/
def sampleDestroyed : List LifeAct :=
  sampleConnecting ++ [.destroy sampleSrv, .net (.api sampleCli (.destroySession 0 true)),
    .net (.reject sampleDisconnectReq)]

/-- The client is destroyed before it has the server's answer; a new one opens a session. -/
def sampleRecreated : List LifeAct :=
  sampleConnecting ++ [.net (.api sampleCli (.destroySession 0 true)),
    .net (.deliver sampleSrv some [] sampleDisconnectReq), .destroy sampleCli, .create sampleCli,
    .net (.api sampleCli (.createSession ['s'] 31850 0 8))]

/-- The state of the client's session, if the response may be delivered. -/
def sampleOutcome (p : SmPkt) (w : World) : Option SessionState :=
  if w.Lives (.net (.deliver sampleCli some [] p)) then
    (w.vec sampleCli p.client.sessionNum).join.map SmSession.state
  else none

theorem sampleOutcome_eq_some {p : SmPkt} {w : World} {st : SessionState}
    (h : sampleOutcome p w = some st) : w.Lives (.net (.deliver sampleCli some [] p)) ∧
      ∃ s, w.vec sampleCli p.client.sessionNum = some (some s) ∧ s.state = st := by
  unfold sampleOutcome at h
  split_ifs at h with hen
  obtain ⟨s, hs, hst⟩ := Option.map_eq_some_iff.mp h
  exact ⟨hen, s, Option.join_eq_some_iff.mp hs, hst⟩

/-- **Responses that fail the assertions.**  A disconnecting client is told that there is no such
Rpc; and a new client gets the answer to its predecessor while its own session connects. -/
theorem disconnect_rejected :
    (∃ w p, LifeRun sampleCluster (fun _ _ => True) sampleDestroyed w ∧
      w.Lives (.net (.deliver sampleCli some [] p)) ∧ p.pktType = .kDisconnectResp ∧
      p.errType = .kInvalidRemoteRpcId ∧
      (∃ s, w.vec sampleCli p.client.sessionNum = some (some s) ∧
        s.state = .kDisconnectInProgress) ∧
      ¬ RespAsserts sampleCli (w.rpcs sampleCli) p) ∧
    ∃ w p, LifeRun sampleCluster (fun _ _ => True) sampleRecreated w ∧
      w.Lives (.net (.deliver sampleCli some [] p)) ∧ p.pktType = .kDisconnectResp ∧
      (∃ s, w.vec sampleCli p.client.sessionNum = some (some s) ∧
        s.state = .kConnectInProgress) ∧
      ¬ RespAsserts sampleCli (w.rpcs sampleCli) p := by
  constructor
  · have hexec : (exec (fun w x => w.Lives x ∧ True) (World.lifeStep sampleCluster) World.init
        sampleDestroyed).map
          (sampleOutcome (sampleDisconnectReq.constructResp .kInvalidRemoteRpcId))
        = some (some .kDisconnectInProgress) := by
      decide +kernel
    obtain ⟨w, hw, hval⟩ := Option.map_eq_some_iff.mp hexec
    obtain ⟨hen, hs⟩ := sampleOutcome_eq_some hval
    refine ⟨w, _, run_of_exec hw, hen, rfl, rfl, hs, fun hall => ?_⟩
    exact absurd hall.errType (by decide)
  · have hexec : (exec (fun w x => w.Lives x ∧ True) (World.lifeStep sampleCluster) World.init
        sampleRecreated).map (sampleOutcome (sampleDisconnectReq.constructResp .kNoError))
        = some (some .kConnectInProgress) := by
      decide +kernel
    obtain ⟨w, hw, hval⟩ := Option.map_eq_some_iff.mp hexec
    obtain ⟨hen, s, hs, hst⟩ := sampleOutcome_eq_some hval
    refine ⟨w, _, run_of_exec hw, hen, rfl, ⟨s, hs, hst⟩, fun hall => ?_⟩
    have hdisc := (hall.session s hs).2.1
    rw [hst] at hdisc
    exact absurd hdisc (by decide)

end HuiRpc
