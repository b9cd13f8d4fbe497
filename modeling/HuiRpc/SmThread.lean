/-
# Packets at the session-management thread

`Nexus::sm_thread_func` (`nexus_impl/nexus_sm_thread.cc`) hands a packet to the Rpc it is for, and
`Rpc::handle_sm_rx_st` (`rpc_impl/rpc_sm_helpers.cc`) takes it from there.  A packet comes from the
network, so its types are any `int`, and its Rpc ids any `uint8_t`.

* `smThreadRecv` — one packet in `sm_thread_func`, with the table of hooks;
* `rpcRecv` — the packet in `handle_sm_rx_st` of the Rpc;
* `smPacket_handled_iff` — which packets are handled without a fault;
* `heartbeat_outside_table` — heartbeats are not.

A fault is an exception, an index outside the table of hooks, or an index outside `session_vec_`.
Messages are logged at a level: `ERPC_WARN` from 2 on, `ERPC_INFO` from 3 on; what is logged is
computed only then, and this throws, too, for values that are not in the enumeration.
-/
import HuiRpc.SmRuns

namespace HuiRpc

open Runs

def kMaxRpcId : ℕ := 254

def kInvalidRpcId : ℕ := kMaxRpcId + 1

inductive SmFault
  | runtimeError (what : String)
  | hookIndex (rpcId : ℕ)
  | sessionIndex
  deriving DecidableEq, Repr

/-- `SmPkt` as it comes from the network. -/
structure RawSmPkt where
  pktType : ℤ
  errType : ℤ
  uniqToken : ℕ
  client : SessionEndpoint
  server : SessionEndpoint
  deriving DecidableEq, Repr

/-! ## Enumerations and their values -/

def SmPktType.toInt : SmPktType → ℤ
  | .kUnblock => 0
  | .kPingReq => 1
  | .kPingResp => 2
  | .kConnectReq => 3
  | .kConnectResp => 4
  | .kDisconnectReq => 5
  | .kDisconnectResp => 6

def SmPktType.all : List SmPktType :=
  [.kUnblock, .kPingReq, .kPingResp, .kConnectReq, .kConnectResp, .kDisconnectReq, .kDisconnectResp]

def SmPktType.ofInt (n : ℤ) : Option SmPktType := SmPktType.all.find? (·.toInt = n)

def SmErrType.toInt : SmErrType → ℤ
  | .kNoError => 0
  | .kSrvDisconnected => 1
  | .kRingExhausted => 2
  | .kOutOfMemory => 3
  | .kRoutingResolutionFailure => 4
  | .kInvalidRemoteRpcId => 5
  | .kInvalidTransport => 6

def SmErrType.all : List SmErrType :=
  [.kNoError, .kSrvDisconnected, .kRingExhausted, .kOutOfMemory, .kRoutingResolutionFailure,
    .kInvalidRemoteRpcId, .kInvalidTransport]

def SmErrType.ofInt (n : ℤ) : Option SmErrType := SmErrType.all.find? (·.toInt = n)

/-- `TransportType` has the values `0, …, 4`. -/
def kMaxTransportType : ℕ := 4

/-- The switch of `sm_pkt_type_str` and `sm_pkt_type_is_req`. -/
def RawSmPkt.type (p : RawSmPkt) : Except SmFault SmPktType :=
  match SmPktType.ofInt p.pktType with
  | some t => .ok t
  | none => .error (.runtimeError "Invalid session management packet type.")

/-- The switch of `sm_err_type_str`. -/
def RawSmPkt.err (p : RawSmPkt) : Except SmFault SmErrType :=
  match SmErrType.ofInt p.errType with
  | some e => .ok e
  | none => .error (.runtimeError "Invalid session management error type")

/-! ## The management thread -/

inductive SmDone
  | forwarded (rpcId : ℕ)
  | answered (p : RawSmPkt)
  | dropped
  deriving DecidableEq, Repr

/-- `ERPC_INFO` with `sm_pkt.to_string()`. -/
def logPkt (level : ℕ) (p : RawSmPkt) : Except SmFault Unit :=
  if 3 ≤ level then do
    let _ ← p.type
    let _ ← p.err
  else .ok ()

/-- `target_rpc_id`, a `uint8_t`. -/
def RawSmPkt.target (p : RawSmPkt) (t : SmPktType) : ℕ :=
  (if t.isReq then p.server.rpcId else p.client.rpcId) % 256

/-- `sm_construct_resp` with `kInvalidRemoteRpcId`. -/
def RawSmPkt.invalidRpcResp (p : RawSmPkt) (t : SmPktType) : RawSmPkt :=
  { p with pktType := t.reqToResp.toInt, errType := SmErrType.kInvalidRemoteRpcId.toInt }

/-- One packet in `sm_thread_func`; `hooks` says which entries of `reg_hooks_arr_` are not null. -/
def smThreadRecv (level : ℕ) (hooks : Fin (kMaxRpcId + 1) → Bool) (p : RawSmPkt) :
    Except SmFault SmDone :=
  if p.pktType = SmPktType.kUnblock.toInt then .ok .dropped
  else do
    logPkt level p
    let t ← p.type
    if h : p.target t < kMaxRpcId + 1 then
      if hooks ⟨p.target t, h⟩ then .ok (.forwarded (p.target t))
      else if t.isReq then .ok (.answered (p.invalidRpcResp t))
      else .ok .dropped
    else .error (.hookIndex (p.target t))

/-! ## The Rpc -/

/-- The packet for the handlers of `HuiRpc.Sm`.  They compare the error with `kNoError` and
`kInvalidRemoteRpcId` only, so a value outside the enumeration is like any other error. -/
def RawSmPkt.toPkt (p : RawSmPkt) (t : SmPktType) : SmPkt :=
  { pktType := t
    errType := (SmErrType.ofInt p.errType).getD .kOutOfMemory
    uniqToken := p.uniqToken
    client := p.client
    server := p.server }

/-- `ERPC_WARN` in the handlers: the transport of a new connect request that does not match, and the
error of a connect response that its session waits for. -/
def warnPkt (level : ℕ) (C : SmCfg) (r : Sm) (p : RawSmPkt) (t : SmPktType) : Except SmFault Unit :=
  if 2 ≤ level then
    if t = .kConnectReq ∧ r.connReqTokenMap p.uniqToken = none ∧
        p.server.transportType ≠ C.transportType ∧ kMaxTransportType < p.server.transportType then
      .error (.runtimeError "eRPC: Invalid transport")
    else if t = .kConnectResp ∧ (r.sessionVec[p.client.sessionNum]?.join).any
        (·.state = .kConnectInProgress) then p.err.map fun _ => ()
    else .ok ()
  else .ok ()

/-- `none` is an index outside `session_vec_`. -/
def ofHandler : Option Sm → Except SmFault Sm
  | some r => .ok r
  | none => .error .sessionIndex

/-- One packet in `handle_sm_rx_st`. -/
def rpcRecv (level : ℕ) (C : SmCfg) (resolve : ℕ → Option ℕ) (cb : List ApiCall) (r : Sm)
    (p : RawSmPkt) : Except SmFault Sm := do
  let t ← p.type
  if t = .kUnblock ∨ t = .kPingReq ∨ t = .kPingResp then
    .error (.runtimeError "Invalid packet type")
  else do
    warnPkt level C r p t
    ofHandler (r.handleSmRx C resolve cb (p.toPkt t))

/-! ## Indices into the vector of sessions -/

namespace Sm

variable {C : SmCfg} {r r' : Sm} {s : SmSession} {p : SmPkt} {resolve : ℕ → Option ℕ}
  {cb : List ApiCall} {i : ℕ}

/-- The numbers that the `Rpc` keeps are indices of entries, also where they have wrapped. -/
structure Low (r : Sm) : Prop where
  num : ∀ (i : ℕ) (s : SmSession), r.sessionVec[i]? = some (some s) → s.localSessionNum ≤ i
  token : ∀ t n, r.connReqTokenMap t = some n → n < r.sessionVec.length

theorem Low.init : Low Sm.init where
  num := by simp [Sm.init]
  token := by simp [Sm.init]

theorem Low.congr (h : Low r) (hv : r'.sessionVec = r.sessionVec)
    (hm : r'.connReqTokenMap = r.connReqTokenMap) : Low r' where
  num := by
    rw [hv]
    exact h.num
  token := by
    rw [hv, hm]
    exact h.token

theorem Low.push (h : Low r) (hv : r'.sessionVec = r.sessionVec ++ [some s])
    (hs : s.localSessionNum ≤ r.sessionVec.length)
    (hm : ∀ t n, r'.connReqTokenMap t = some n → r.connReqTokenMap t = some n ∨
      n ≤ r.sessionVec.length) : Low r' where
  num := by
    intro i t ht
    rw [hv] at ht
    rcases getElem?_snoc.mp ht with ht | ⟨rfl, he⟩
    · exact h.num i t ht
    · obtain rfl := Option.some.inj he
      exact hs
  token := by
    intro t n hn
    rw [hv, List.length_append, List.length_singleton]
    rcases hm t n hn with hold | hle
    · have := h.token t n hold
      omega
    · omega

theorem Low.write (h : Low r) (hv : r'.sessionVec = r.sessionVec.set i (some s))
    (hs : s.localSessionNum ≤ i) (hm : r'.connReqTokenMap = r.connReqTokenMap) : Low r' where
  num := by
    intro j t ht
    rw [hv] at ht
    rcases getElem?_set_some ht with ⟨rfl, he⟩ | ⟨-, ht⟩
    · obtain rfl := Option.some.inj he
      exact hs
    · exact h.num j t ht
  token := by
    rw [hv, hm, List.length_set]
    exact h.token

theorem Low.setNull (h : Low r) (i : ℕ) : Low { r with sessionVec := r.sessionVec.set i none } where
  num := by
    intro j t ht
    rcases getElem?_set_some ht with ⟨-, he⟩ | ⟨-, ht⟩
    · simp at he
    · exact h.num j t ht
  token := by
    intro t n hn
    rw [List.length_set]
    exact h.token t n hn

theorem Low.call (h : Low r) (c : ApiCall) : Low (r.call C c) := by
  rcases call_cases C r c with he | ⟨hostname, port, rpcId, token, -, -, he⟩ | ⟨i, s, hs, -, -, he⟩
  · rwa [he]
  · rw [he]
    exact h.push (openClient_sessionVec C r hostname port rpcId token) (Nat.mod_le _ _)
      fun _ _ hn => Or.inl hn
  · rw [he]
    exact h.write (s := { s with state := .kDisconnectInProgress }) rfl (h.num i s hs) rfl

theorem Low.smHandler (h : Low r) (s : SmSession) (ev : SmEventType) (err : SmErrType) :
    Low (r.smHandler C cb s ev err) :=
  smHandler_ind s ev err (h.congr rfl rfl) fun _ c _ hr => hr.call c

theorem Low.step {a : SmAct} (h : Low r) (hs : r.step C a = some r') : Low r' := by
  cases a with
  | api c =>
    obtain rfl := Option.some.inj hs
    have h0 : Low { r with out := [] } := h.congr rfl rfl
    exact h0.call c
  | recv resolve cb p =>
    obtain ⟨r1, hf, he⟩ := recv_effect hs
    have h1 : Low r1 := h.congr hf.sessionVec hf.connReqTokenMap
    have hfree : Low r1.freeRingEntries := h1.congr rfl rfl
    cases he with
    | idle out pending => exact h1.congr rfl rfl
    | openServer rinfo =>
      refine h1.push (openServer_sessionVec C r1 p rinfo) (Nat.mod_le _ _) fun t n hn => ?_
      by_cases ht : t = p.uniqToken
      · subst ht
        rw [show (r1.openServer C p rinfo).connReqTokenMap p.uniqToken = _ from
          Function.update_self ..] at hn
        obtain rfl := Option.some.inj hn
        exact Or.inr (Nat.mod_le _ _)
      · rw [show (r1.openServer C p rinfo).connReqTokenMap t = _ from
          Function.update_of_ne ht ..] at hn
        exact Or.inl hn
    | closeClient s hget =>
      exact h1.write (s := { s with server := p.server, state := .kDisconnectInProgress }) rfl
        (h1.num _ s hget) rfl
    | connect s rinfo hget =>
      have hw : Low (r1.write p.client.sessionNum (connected s p rinfo)) :=
        h1.write rfl (h1.num _ s hget) rfl
      exact hw.smHandler _ _ _
    | answer n s hget q =>
      have hsent : Low (r1.freeRingEntries.udpTx q) := hfree.congr rfl rfl
      exact hsent.setNull _
    | farewell n s hget ev err => exact (hfree.smHandler s _ _).setNull _

theorem Low.run {as : List SmAct} (h : SmRun C as r) : Low r :=
  h.invariant Low.init fun _ _ _ hr _ hs => hr.step hs

/-- Burying a session after any calls stays inside the vector. -/
theorem Low.bury_isSome (h : Low r) (hs : r.sessionVec[i]? = some (some s))
    (hg : r.sessionVec.length ≤ r'.sessionVec.length) : (r'.burySession s).isSome = true := by
  have := h.num i s hs
  have := lt_of_getElem? hs
  unfold burySession
  rw [if_pos (by omega)]
  rfl

theorem Low.handleConnectReq_isSome (h : Low r) :
    (r.handleConnectReq C resolve p).isSome = true := by
  unfold handleConnectReq
  split
  · rfl
  · next n hn =>
    rw [List.getElem?_eq_getElem (h.token _ n hn)]
    rfl

/-- A handler that needs an entry of `session_vec_` returns if the entry is there. -/
theorem isSome_getElem?_bind {α β : Type*} {l : List α} {i : ℕ} {f : α → Option β}
    (hf : ∀ x, l[i]? = some x → (f x).isSome = true) :
    (l[i]?.bind f).isSome = true ↔ i < l.length := by
  by_cases hlt : i < l.length
  · rw [List.getElem?_eq_getElem hlt]
    exact iff_of_true (hf _ (List.getElem?_eq_getElem hlt)) hlt
  · rw [List.getElem?_eq_none (by omega)]
    exact iff_of_false (by simp) hlt

theorem Low.handleDisconnectReq_isSome (h : Low r) :
    (r.handleDisconnectReq p).isSome = true ↔ p.server.sessionNum < r.sessionVec.length := by
  apply isSome_getElem?_bind
  intro x hx
  cases x with
  | none => rfl
  | some s => exact h.bury_isSome hx le_rfl

theorem Low.handleDisconnectResp_isSome (h : Low r) :
    (r.handleDisconnectResp C cb p).isSome = true ↔
      p.client.sessionNum < r.sessionVec.length := by
  have hgrow : Grown r r.freeRingEntries := Grown.of_eq rfl
  apply isSome_getElem?_bind
  intro x hx
  cases x with
  | none => rfl
  | some s => exact h.bury_isSome hx (hgrow.smHandler s _ _).length_le

theorem Low.handleConnectResp_isSome (h : Low r) :
    (r.handleConnectResp C resolve cb p).isSome = true ↔
      p.client.sessionNum < r.sessionVec.length := by
  have hgrow : Grown r r.freeRingEntries := Grown.of_eq rfl
  apply isSome_getElem?_bind
  intro x hx
  cases x with
  | none => rfl
  | some s =>
    dsimp only
    split_ifs
    · rfl
    · rfl
    · exact h.bury_isSome hx (hgrow.smHandler s _ _).length_le
    · split <;> rfl

end Sm

/-! ## Which packets are handled -/

/-- The packet is forwarded to an Rpc that is there and handled by it, answered, or dropped. -/
def SmHandled (level : ℕ) (hooks : Fin (kMaxRpcId + 1) → Bool) (C : SmCfg)
    (resolve : ℕ → Option ℕ) (cb : List ApiCall) (r : Sm) (p : RawSmPkt) : Prop :=
  ∃ d, smThreadRecv level hooks p = .ok d ∧ ∀ id, d = .forwarded id →
    (∃ h, hooks ⟨id, h⟩ = true) ∧ ∃ r', rpcRecv level C resolve cb r p = .ok r'

/-- The error type is in the enumeration. -/
def RawSmPkt.ErrOk (p : RawSmPkt) : Prop := ∃ e, SmErrType.ofInt p.errType = some e

/-- What an Rpc needs of a packet of type `t`: that it has a handler for it, that the session it
names is in the vector, and that what it would log is in the enumeration. -/
def RpcOk (level : ℕ) (C : SmCfg) (r : Sm) (p : RawSmPkt) : SmPktType → Prop
  | .kConnectReq => level < 2 ∨ r.connReqTokenMap p.uniqToken ≠ none ∨
      p.server.transportType = C.transportType ∨ p.server.transportType ≤ kMaxTransportType
  | .kDisconnectReq => p.server.sessionNum < r.sessionVec.length
  | .kConnectResp => p.client.sessionNum < r.sessionVec.length ∧
      (level < 2 ∨ p.ErrOk ∨ ∀ s : SmSession,
        r.sessionVec[p.client.sessionNum]? = some (some s) → s.state ≠ .kConnectInProgress)
  | .kDisconnectResp => p.client.sessionNum < r.sessionVec.length
  | .kUnblock => False
  | .kPingReq => False
  | .kPingResp => False

/-- What the management thread needs of a packet: types in the enumeration and an id inside the
table of hooks. -/
def SmPktOk (level : ℕ) (hooks : Fin (kMaxRpcId + 1) → Bool) (C : SmCfg) (r : Sm)
    (p : RawSmPkt) : Prop :=
  p.pktType = SmPktType.kUnblock.toInt ∨
    ∃ t, SmPktType.ofInt p.pktType = some t ∧ (level < 3 ∨ p.ErrOk) ∧
      ∃ h : p.target t < kMaxRpcId + 1, hooks ⟨p.target t, h⟩ = true → RpcOk level C r p t

theorem RawSmPkt.type_eq_ok {p : RawSmPkt} {t : SmPktType} :
    p.type = .ok t ↔ SmPktType.ofInt p.pktType = some t := by
  unfold RawSmPkt.type
  cases SmPktType.ofInt p.pktType <;> simp

theorem RawSmPkt.err_eq_ok {p : RawSmPkt} : (∃ e, p.err = .ok e) ↔ p.ErrOk := by
  unfold RawSmPkt.err RawSmPkt.ErrOk
  cases SmErrType.ofInt p.errType <;> simp

theorem logPkt_eq_ok {level : ℕ} {p : RawSmPkt} {t : SmPktType}
    (ht : SmPktType.ofInt p.pktType = some t) :
    logPkt level p = .ok () ↔ level < 3 ∨ p.ErrOk := by
  unfold logPkt
  split_ifs with hlev
  · rw [RawSmPkt.type_eq_ok.mpr ht, ← RawSmPkt.err_eq_ok]
    constructor
    · intro h
      obtain ⟨-, -, h⟩ := bind_eq_ok.mp h
      obtain ⟨e, he, -⟩ := bind_eq_ok.mp h
      exact Or.inr ⟨e, he⟩
    · rintro (h | ⟨e, he⟩)
      · omega
      · exact bind_eq_ok.mpr ⟨t, rfl, bind_eq_ok.mpr ⟨e, he, rfl⟩⟩
  · exact iff_of_true rfl (Or.inl (by omega))

theorem warnPkt_eq_ok {level : ℕ} {C : SmCfg} {r : Sm} {p : RawSmPkt} {t : SmPktType} :
    warnPkt level C r p t = .ok () ↔ level < 2 ∨
      (t = .kConnectReq → r.connReqTokenMap p.uniqToken ≠ none ∨
        p.server.transportType = C.transportType ∨ p.server.transportType ≤ kMaxTransportType) ∧
      (t = .kConnectResp → p.ErrOk ∨ ∀ s : SmSession,
        r.sessionVec[p.client.sessionNum]? = some (some s) → s.state ≠ .kConnectInProgress) := by
  have hwait : (r.sessionVec[p.client.sessionNum]?.join).any (·.state = .kConnectInProgress) = true ↔
      ¬ ∀ s : SmSession, r.sessionVec[p.client.sessionNum]? = some (some s) →
        s.state ≠ .kConnectInProgress := by
    simp only [Option.any_eq_true, decide_eq_true_eq, Option.join_eq_some_iff, not_forall, not_not,
      exists_prop]
  unfold warnPkt
  by_cases hlev : 2 ≤ level
  · have hnot : ¬ level < 2 := by omega
    split_ifs with hreq hresp
    · -- the transport is not in the enumeration
      obtain ⟨rfl, htok, hne, hlt⟩ := hreq
      refine iff_of_false (by simp) ?_
      rintro (hl | ⟨h, -⟩)
      · exact hnot hl
      · rcases h rfl with h | h | h
        · exact h htok
        · exact hne h
        · omega
    · -- the session waits for the response
      obtain ⟨rfl, hw⟩ := hresp
      rw [hwait] at hw
      have herr : p.err.map (fun _ => ()) = .ok () ↔ p.ErrOk := by
        rw [← RawSmPkt.err_eq_ok]
        cases p.err <;> simp [Except.map]
      rw [herr]
      constructor
      · intro h
        exact Or.inr ⟨fun hc => (by cases hc), fun _ => Or.inl h⟩
      · rintro (hl | ⟨-, h⟩)
        · exact absurd hl hnot
        · exact (h rfl).resolve_right hw
    · refine iff_of_true rfl (Or.inr ⟨fun ht => ?_, fun ht => ?_⟩)
      · by_contra h
        rw [not_or, not_or, not_not, Nat.not_le] at h
        exact hreq ⟨ht, h⟩
      · right
        by_contra h
        exact hresp ⟨ht, hwait.mpr h⟩
  · rw [if_neg hlev]
    exact iff_of_true rfl (Or.inl (by omega))

theorem ofHandler_isOk {x : Option Sm} : (∃ r, ofHandler x = .ok r) ↔ x.isSome = true := by
  cases x <;> simp [ofHandler]

/-- A packet that has a handler. -/
theorem rpcRecv_isOk_of_handler {level : ℕ} {C : SmCfg} {r : Sm} {p : RawSmPkt} {t : SmPktType}
    {resolve : ℕ → Option ℕ} {cb : List ApiCall} (ht : SmPktType.ofInt p.pktType = some t)
    (hne : ¬ (t = .kUnblock ∨ t = .kPingReq ∨ t = .kPingResp)) :
    (∃ r', rpcRecv level C resolve cb r p = .ok r') ↔
      warnPkt level C r p t = .ok () ∧ (r.handleSmRx C resolve cb (p.toPkt t)).isSome = true := by
  unfold rpcRecv
  rw [RawSmPkt.type_eq_ok.mpr ht, ← ofHandler_isOk]
  constructor
  · rintro ⟨r', h⟩
    obtain ⟨t', ht', h⟩ := bind_eq_ok.mp h
    obtain rfl := Except.ok.inj ht'
    rw [if_neg hne] at h
    obtain ⟨⟨⟩, hw, h⟩ := bind_eq_ok.mp h
    exact ⟨hw, r', h⟩
  · rintro ⟨hw, r', h⟩
    refine ⟨r', bind_eq_ok.mpr ⟨t, rfl, ?_⟩⟩
    rw [if_neg hne]
    exact bind_eq_ok.mpr ⟨(), hw, h⟩

/-- **The Rpc** handles exactly the packets that are fit for it. -/
theorem rpcRecv_isOk {level : ℕ} {C : SmCfg} {r : Sm} {p : RawSmPkt} {t : SmPktType}
    {resolve : ℕ → Option ℕ} {cb : List ApiCall} (h : r.Low)
    (ht : SmPktType.ofInt p.pktType = some t) :
    (∃ r', rpcRecv level C resolve cb r p = .ok r') ↔ RpcOk level C r p t := by
  -- the handler works on the state without the pending request
  have hlow : (r.erasePending (p.toPkt t)).Low := by
    unfold Sm.erasePending
    split_ifs
    · exact h
    · exact h.congr rfl rfl
  by_cases hne : t = .kUnblock ∨ t = .kPingReq ∨ t = .kPingResp
  · refine iff_of_false ?_ ?_
    · rintro ⟨r', hr⟩
      obtain ⟨t', ht', hr⟩ := bind_eq_ok.mp hr
      rw [RawSmPkt.type_eq_ok.mpr ht] at ht'
      obtain rfl := Except.ok.inj ht'
      rw [if_pos hne] at hr
      cases hr
    · rcases hne with rfl | rfl | rfl <;> exact id
  · rw [rpcRecv_isOk_of_handler ht hne, warnPkt_eq_ok]
    cases t with
    | kUnblock => exact absurd (Or.inl rfl) hne
    | kPingReq => exact absurd (Or.inr (Or.inl rfl)) hne
    | kPingResp => exact absurd (Or.inr (Or.inr rfl)) hne
    | kConnectReq =>
      have hsome : (r.handleSmRx C resolve cb (p.toPkt .kConnectReq)).isSome = true :=
        hlow.handleConnectReq_isSome
      simp [RpcOk, hsome]
    | kDisconnectReq =>
      have hsome : (r.handleSmRx C resolve cb (p.toPkt .kDisconnectReq)).isSome = true ↔
          p.server.sessionNum < r.sessionVec.length := by
        exact hlow.handleDisconnectReq_isSome
      simp [RpcOk, hsome]
    | kConnectResp =>
      have hsome : (r.handleSmRx C resolve cb (p.toPkt .kConnectResp)).isSome = true ↔
          p.client.sessionNum < r.sessionVec.length := by
        exact hlow.handleConnectResp_isSome
      simp [RpcOk, hsome, and_comm]
    | kDisconnectResp =>
      have hsome : (r.handleSmRx C resolve cb (p.toPkt .kDisconnectResp)).isSome = true ↔
          p.client.sessionNum < r.sessionVec.length := by
        exact hlow.handleDisconnectResp_isSome
      simp [RpcOk, hsome]

/-- The management thread past its log message. -/
theorem smThreadRecv_eq_ok {level : ℕ} {hooks : Fin (kMaxRpcId + 1) → Bool} {p : RawSmPkt}
    {d : SmDone} (hun : p.pktType ≠ SmPktType.kUnblock.toInt) :
    smThreadRecv level hooks p = .ok d ↔
      ∃ t, SmPktType.ofInt p.pktType = some t ∧ (level < 3 ∨ p.ErrOk) ∧
        ∃ h : p.target t < kMaxRpcId + 1,
          d = if hooks ⟨p.target t, h⟩ then .forwarded (p.target t)
            else if t.isReq then .answered (p.invalidRpcResp t) else .dropped := by
  unfold smThreadRecv
  rw [if_neg hun]
  constructor
  · intro h
    obtain ⟨⟨⟩, hlog, h⟩ := bind_eq_ok.mp h
    obtain ⟨t, ht, h⟩ := bind_eq_ok.mp h
    rw [RawSmPkt.type_eq_ok] at ht
    refine ⟨t, ht, (logPkt_eq_ok ht).mp hlog, ?_⟩
    by_cases hlt : p.target t < kMaxRpcId + 1
    · refine ⟨hlt, ?_⟩
      split_ifs at h ⊢ <;> exact (Except.ok.inj h).symm
    · rw [dif_neg hlt] at h
      cases h
  · rintro ⟨t, ht, hlog, hlt, rfl⟩
    refine bind_eq_ok.mpr ⟨(), (logPkt_eq_ok ht).mpr hlog, bind_eq_ok.mpr ⟨t, ?_, ?_⟩⟩
    · exact RawSmPkt.type_eq_ok.mpr ht
    · split_ifs <;> rfl

/-- **Packets at the management thread.**  For every packet, every table of hooks and every state
that the target Rpc can reach, the packet is forwarded and handled, answered or dropped exactly
if it meets `SmPktOk`. -/
theorem smPacket_handled_iff {C : SmCfg} {as : List SmAct} {r : Sm} (h : SmRun C as r) (level : ℕ)
    (hooks : Fin (kMaxRpcId + 1) → Bool) (resolve : ℕ → Option ℕ) (cb : List ApiCall)
    (p : RawSmPkt) :
    SmHandled level hooks C resolve cb r p ↔ SmPktOk level hooks C r p := by
  have hlow := Sm.Low.run h
  by_cases hun : p.pktType = SmPktType.kUnblock.toInt
  · refine iff_of_true ⟨.dropped, ?_, fun id hid => by cases hid⟩ (Or.inl hun)
    unfold smThreadRecv
    rw [if_pos hun]
  · constructor
    · rintro ⟨d, hd, hfwd⟩
      obtain ⟨t, ht, hlog, hlt, rfl⟩ := (smThreadRecv_eq_ok hun).mp hd
      refine Or.inr ⟨t, ht, hlog, hlt, fun hhook => ?_⟩
      exact (rpcRecv_isOk hlow ht).mp (hfwd (p.target t) (if_pos hhook)).2
    · rintro (hun' | ⟨t, ht, hlog, hlt, hok⟩)
      · exact absurd hun' hun
      · refine ⟨_, (smThreadRecv_eq_ok hun).mpr ⟨t, ht, hlog, hlt, rfl⟩, fun id hid => ?_⟩
        by_cases hhook : hooks ⟨p.target t, hlt⟩ = true
        · rw [if_pos hhook] at hid
          obtain rfl := SmDone.forwarded.inj hid
          exact ⟨⟨hlt, hhook⟩, (rpcRecv_isOk hlow ht).mpr (hok hhook)⟩
        · split_ifs at hid

/-! ## Heartbeats -/

/-- `make_heartbeat`: most fields stay as the constructor of `SessionEndpoint` sets them, and the
transport type is not set at all. -/
def makeHeartbeat (hostname : List Char) (smUdpPort : ℕ) (remHostname : List Char)
    (remSmUdpPort transport : ℕ) : RawSmPkt where
  pktType := SmPktType.kPingReq.toInt
  errType := SmErrType.kNoError.toInt
  uniqToken := 0
  client := ⟨⟨hostname, smUdpPort, kInvalidRpcId⟩, transport, kInvalidSessionNum, 0⟩
  server := ⟨⟨remHostname, remSmUdpPort, kInvalidRpcId⟩, transport, kInvalidSessionNum, 0⟩

theorem smThreadRecv_heartbeat (level : ℕ) (hooks : Fin (kMaxRpcId + 1) → Bool)
    (hostname remHostname : List Char) (port remPort transport : ℕ) :
    smThreadRecv level hooks (makeHeartbeat hostname port remHostname remPort transport)
      = .error (.hookIndex 255) := by
  have hlog : logPkt level (makeHeartbeat hostname port remHostname remPort transport)
      = .ok () := by
    unfold logPkt
    split_ifs <;> rfl
  have htype : (makeHeartbeat hostname port remHostname remPort transport).pktType
      ≠ SmPktType.kUnblock.toInt := by
    show (1 : ℤ) ≠ 0
    decide
  unfold smThreadRecv
  rw [hlog]
  rfl

/-- A packet for the first Rpc of the sample server. -/
def samplePkt (type : ℤ) : RawSmPkt where
  pktType := type
  errType := 0
  uniqToken := 7
  client := ⟨sampleCliCfg.toRpcAddr, 0, 0, 2⟩
  server := ⟨sampleSrvCfg.toRpcAddr, 0, 0, 1⟩

/-- Every heartbeat is looked up one entry behind the table of hooks; a ping to an Rpc that is
there, and a disconnect request for a session that never was, end in an exception of the Rpc; a
type outside the enumeration ends in one of the management thread. -/
theorem heartbeat_outside_table :
    (∀ level hooks hostname port remHostname remPort transport,
      smThreadRecv level hooks (makeHeartbeat hostname port remHostname remPort transport)
        = .error (.hookIndex 255)) ∧
    (smThreadRecv 0 (fun _ => true) (samplePkt SmPktType.kPingReq.toInt) = .ok (.forwarded 0) ∧
      rpcRecv 0 sampleSrvCfg some [] Sm.init (samplePkt SmPktType.kPingReq.toInt)
        = .error (.runtimeError "Invalid packet type")) ∧
    (smThreadRecv 0 (fun _ => true) (samplePkt SmPktType.kDisconnectReq.toInt)
        = .ok (.forwarded 0) ∧
      rpcRecv 0 sampleSrvCfg some [] Sm.init (samplePkt SmPktType.kDisconnectReq.toInt)
        = .error .sessionIndex) ∧
    smThreadRecv 0 (fun _ => true) (samplePkt 7)
      = .error (.runtimeError "Invalid session management packet type.") :=
  ⟨fun level hooks hostname port remHostname remPort transport =>
      smThreadRecv_heartbeat level hooks hostname remHostname port remPort transport,
    ⟨rfl, rfl⟩, ⟨rfl, rfl⟩, rfl⟩

/-- A connect request that the Rpc takes. -/
theorem smPacket_handled_connectReq :
    SmHandled 6 (fun _ => true) sampleSrvCfg some [] Sm.init
      (samplePkt SmPktType.kConnectReq.toInt) := by
  refine (smPacket_handled_iff (C := sampleSrvCfg) Run.nil 6 (fun _ => true) some [] _).mpr
    (Or.inr ⟨.kConnectReq, rfl, Or.inr ⟨.kNoError, rfl⟩, by decide, fun _ => ?_⟩)
  exact Or.inr (Or.inr (Or.inl rfl))

end HuiRpc
