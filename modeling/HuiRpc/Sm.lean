/-
# Session management of one Rpc

Model of `rpc_impl/rpc_sm_api.cc`, `rpc_connect_handlers.cc`, `rpc_disconnect_handlers.cc` and
`rpc_sm_helpers.cc`, with the types of `sm_types.h`: an `Rpc` that creates and destroys client
sessions, and that handles connect and disconnect requests and responses.

* A session is known by its index in `session_vec_`, which only grows; a buried session leaves
  a null entry.  Session numbers have 16 bits, `ring_entries_available_` is a `size_t`.
* The callback of the application may call `create_session` and `destroy_session`; the calls
  it makes are an argument of the packet's handler.
* So are the result of `resolve_remote_routing_info`, the token drawn by `create_session`, and
  whether all slots of a session are free, which belongs to the datapath.
* `none` is an index outside `session_vec_` or an exception.
* The calls come from the thread that created the `Rpc`.  Session resets are not reachable.
-/
import HuiRpc.Client
import HuiRpc.Lib.Runs

namespace HuiRpc

/-! ## Constants and types -/

/-- Entries of the receive ring. -/
def kNumRxRingEntries : ℕ := 16384 * 2

def kMaxHostnameLen : ℕ := 128

def kInvalidSessionNum : ℕ := 65535

/-- Values of a `uint16_t`. -/
def numSessionNums : ℕ := 2 ^ 16

inductive SessionRole
  | kServer
  | kClient
  deriving DecidableEq, Repr

inductive SessionState
  | kConnectInProgress
  | kConnected
  | kDisconnectInProgress
  | kResetInProgress
  deriving DecidableEq, Repr

inductive SmPktType
  | kUnblock
  | kPingReq
  | kPingResp
  | kConnectReq
  | kConnectResp
  | kDisconnectReq
  | kDisconnectResp
  deriving DecidableEq, Repr

inductive SmErrType
  | kNoError
  | kSrvDisconnected
  | kRingExhausted
  | kOutOfMemory
  | kRoutingResolutionFailure
  | kInvalidRemoteRpcId
  | kInvalidTransport
  deriving DecidableEq, Repr

inductive SmEventType
  | kConnected
  | kConnectFailed
  | kDisconnected
  | kDisconnectFailed
  deriving DecidableEq, Repr

/-- Where an `Rpc` is: the process, by host and management port, and the id in it. -/
structure RpcAddr where
  hostname : List Char
  smUdpPort : ℕ
  rpcId : ℕ
  deriving DecidableEq, Repr

/-- `SessionEndpoint`. -/
structure SessionEndpoint extends RpcAddr where
  transportType : ℕ
  sessionNum : ℕ
  routingInfo : ℕ
  deriving DecidableEq, Repr

/-- `SmPkt`. -/
structure SmPkt where
  pktType : SmPktType
  errType : SmErrType
  uniqToken : ℕ
  client : SessionEndpoint
  server : SessionEndpoint
  deriving DecidableEq, Repr

/-- `sm_pkt_type_is_req`. -/
def SmPktType.isReq : SmPktType → Bool
  | .kPingReq => true
  | .kConnectReq => true
  | .kDisconnectReq => true
  | .kPingResp => false
  | .kUnblock => false
  | .kConnectResp => false
  | .kDisconnectResp => false

/-- `sm_pkt_type_req_to_resp`, on the requests. -/
def SmPktType.reqToResp : SmPktType → SmPktType
  | .kPingReq => .kPingResp
  | .kConnectReq => .kConnectResp
  | .kDisconnectReq => .kDisconnectResp
  | t => t

/-- `sm_construct_resp`. -/
def SmPkt.constructResp (p : SmPkt) (err : SmErrType) : SmPkt :=
  { p with pktType := p.pktType.reqToResp, errType := err }

/-- The management fields of `Session`. -/
structure SmSession where
  role : SessionRole
  uniqToken : ℕ
  state : SessionState
  client : SessionEndpoint
  server : SessionEndpoint
  localSessionNum : ℕ
  remoteSessionNum : ℕ
  deriving DecidableEq, Repr

/-- What an `Rpc` knows about itself. -/
structure SmCfg extends RpcAddr where
  transportType : ℕ
  routingInfo : ℕ
  retryConnectOnInvalidRpcId : Bool
  deriving DecidableEq, Repr

/-- A call of `sm_handler_`, with the token of the session. -/
structure SmEvent where
  sessionNum : ℕ
  eventType : SmEventType
  errType : SmErrType
  uniqToken : ℕ
  deriving DecidableEq, Repr

/-- What the calls of the application return; the errors are negative `errno` values. -/
inductive SmRet
  | sessionNum (n : ℕ)
  | ok
  | eperm
  | einval
  | enomem
  | ebusy
  | ealready
  deriving DecidableEq, Repr

/-- The calls of the application. -/
inductive ApiCall
  | createSession (hostname : List Char) (smUdpPort rpcId uniqToken : ℕ)
  | destroySession (n : ℤ) (slotsFree : Bool)
  deriving DecidableEq, Repr

/-- The management state of an `Rpc`.  `out` are the packets sent in the event at hand.  The
last three fields are a record that the code does not keep: the server sessions that were ever
created, by token and number, the client sessions, with the server asked for, and the calls of
`sm_handler_`. -/
structure Sm where
  sessionVec : List (Option SmSession)
  ringEntriesAvailable : ℕ
  connReqTokenMap : ℕ → Option ℕ
  smPendingReqs : Finset ℕ
  out : List SmPkt
  created : List (ℕ × ℕ)
  opened : List (ℕ × ℕ × RpcAddr)
  events : List SmEvent

namespace Sm

def init : Sm :=
  { sessionVec := []
    ringEntriesAvailable := kNumRxRingEntries
    connReqTokenMap := fun _ => none
    smPendingReqs := ∅
    out := []
    created := []
    opened := []
    events := [] }

/-! ## Helpers -/

/-- `have_ring_entries`. -/
def haveRingEntries (r : Sm) : Prop := kSessionCredits ≤ r.ringEntriesAvailable

instance (r : Sm) : Decidable r.haveRingEntries := inferInstanceAs (Decidable (_ ≤ _))

/-- `alloc_ring_entries`; the counter wraps below zero. -/
def allocRingEntries (r : Sm) : Sm :=
  { r with ringEntriesAvailable :=
      if kSessionCredits ≤ r.ringEntriesAvailable then r.ringEntriesAvailable - kSessionCredits
      else r.ringEntriesAvailable + 2 ^ 64 - kSessionCredits }

/-- `free_ring_entries`; the counter wraps at the top. -/
def freeRingEntries (r : Sm) : Sm :=
  { r with ringEntriesAvailable :=
      if r.ringEntriesAvailable + kSessionCredits < 2 ^ 64 then
        r.ringEntriesAvailable + kSessionCredits
      else r.ringEntriesAvailable + kSessionCredits - 2 ^ 64 }

/-- `session_vec_.push_back`. -/
def pushBack (s : SmSession) (r : Sm) : Sm := { r with sessionVec := r.sessionVec ++ [some s] }

/-- A write through the pointer in entry `i`. -/
def write (i : ℕ) (s : SmSession) (r : Sm) : Sm :=
  { r with sessionVec := r.sessionVec.set i (some s) }

/-- `sm_pkt_udp_tx_st`. -/
def udpTx (p : SmPkt) (r : Sm) : Sm := { r with out := r.out ++ [p] }

/-- The request that `send_sm_req_st` sends. -/
def smReq (s : SmSession) : SmPkt :=
  { pktType := if s.state = .kConnectInProgress then .kConnectReq else .kDisconnectReq
    errType := .kNoError
    uniqToken := s.uniqToken
    client := s.client
    server := s.server }

/-- `send_sm_req_st`. -/
def sendSmReq (s : SmSession) (r : Sm) : Sm :=
  udpTx (smReq s) { r with smPendingReqs := insert s.localSessionNum r.smPendingReqs }

/-- `bury_session_st`. -/
def burySession (s : SmSession) (r : Sm) : Option Sm :=
  if s.localSessionNum < r.sessionVec.length then
    some { r with sessionVec := r.sessionVec.set s.localSessionNum none }
  else none

/-! ## The calls of the application -/

/-- The session that `create_session_st` makes.  Its remote number is not set before it is
connected. -/
def newClient (C : SmCfg) (hostname : List Char) (smUdpPort rpcId uniqToken num : ℕ) :
    SmSession :=
  { role := .kClient
    uniqToken := uniqToken
    state := .kConnectInProgress
    client := ⟨C.toRpcAddr, C.transportType, num, C.routingInfo⟩
    server := ⟨⟨hostname, smUdpPort, rpcId⟩, C.transportType, kInvalidSessionNum, 0⟩
    localSessionNum := num
    remoteSessionNum := 0 }

/-- The end of `create_session_st`, when nothing speaks against the session. -/
def openClient (C : SmCfg) (hostname : List Char) (smUdpPort rpcId uniqToken : ℕ) (r : Sm) : Sm :=
  let num := r.sessionVec.length % numSessionNums
  let s := newClient C hostname smUdpPort rpcId uniqToken num
  let r := { r with opened := r.opened ++ [(uniqToken, num, s.server.toRpcAddr)] }
  (r.allocRingEntries.pushBack s).sendSmReq s

/-- `create_session_st`. -/
def createSession (C : SmCfg) (hostname : List Char) (smUdpPort rpcId uniqToken : ℕ) (r : Sm) :
    Sm × SmRet :=
  if hostname.length = 0 ∨ kMaxHostnameLen < hostname.length then (r, .einval)
  else if hostname = C.hostname ∧ rpcId = C.rpcId ∧ smUdpPort = C.smUdpPort then (r, .einval)
  else if ¬ r.haveRingEntries then (r, .enomem)
  else (r.openClient C hostname smUdpPort rpcId uniqToken,
    .sessionNum (r.sessionVec.length % numSessionNums))

/-- The session in entry `i` starts to disconnect. -/
def closeClient (i : ℕ) (s : SmSession) (r : Sm) : Sm :=
  let s' := { s with state := .kDisconnectInProgress }
  (r.write i s').sendSmReq s'

/-- `destroy_session_st`. -/
def destroySession (n : ℤ) (slotsFree : Bool) (r : Sm) : Sm × SmRet :=
  if n < 0 ∨ r.sessionVec.length ≤ n.toNat then (r, .einval)
  else
    match r.sessionVec[n.toNat]?.join with
    | none => (r, .eperm)
    | some s =>
        if s.role ≠ .kClient then (r, .einval)
        else if slotsFree = false then (r, .ebusy)
        else
          match s.state with
          | .kConnectInProgress => (r, .eperm)
          | .kConnected => (r.closeClient n.toNat s, .ok)
          | .kDisconnectInProgress => (r, .ealready)
          | .kResetInProgress => (r, .ok)

/-- One call of the application. -/
def call (C : SmCfg) (r : Sm) : ApiCall → Sm
  | .createSession hostname smUdpPort rpcId uniqToken =>
      (r.createSession C hostname smUdpPort rpcId uniqToken).1
  | .destroySession n slotsFree => (r.destroySession n slotsFree).1

/-- `sm_handler_`, which makes the calls `cb`. -/
def smHandler (C : SmCfg) (cb : List ApiCall) (s : SmSession) (ev : SmEventType) (err : SmErrType)
    (r : Sm) : Sm :=
  cb.foldl (call C)
    { r with events := r.events ++ [⟨s.localSessionNum, ev, err, s.uniqToken⟩] }

/-! ## The packet handlers -/

/-- The session that `handle_connect_req_st` makes; `rinfo` is the client's routing info as
resolved. -/
def newServer (C : SmCfg) (p : SmPkt) (rinfo num : ℕ) : SmSession :=
  { role := .kServer
    uniqToken := p.uniqToken
    state := .kConnected
    client := { p.client with routingInfo := rinfo }
    server := { p.server with sessionNum := num, routingInfo := C.routingInfo }
    localSessionNum := num
    remoteSessionNum := p.client.sessionNum }

/-- The answer of a server that has session `s` for the request. -/
def accept (p : SmPkt) (s : SmSession) : SmPkt :=
  { p.constructResp .kNoError with server := s.server }

/-- The end of `handle_connect_req_st`, when nothing speaks against the session. -/
def openServer (C : SmCfg) (p : SmPkt) (rinfo : ℕ) (r : Sm) : Sm :=
  let num := r.sessionVec.length % numSessionNums
  let s := newServer C p rinfo num
  let r := { r with
    connReqTokenMap := Function.update r.connReqTokenMap p.uniqToken (some num)
    created := r.created ++ [(p.uniqToken, num)] }
  (r.allocRingEntries.pushBack s).udpTx (accept p s)

/-- `handle_connect_req_st` for a token that it does not know. -/
def handleNewConnectReq (C : SmCfg) (resolve : ℕ → Option ℕ) (p : SmPkt) (r : Sm) : Sm :=
  if p.server.transportType ≠ C.transportType then
    r.udpTx (p.constructResp .kInvalidTransport)
  else if ¬ r.haveRingEntries then r.udpTx (p.constructResp .kRingExhausted)
  else
    match resolve p.client.routingInfo with
    | none => r.udpTx (p.constructResp .kRoutingResolutionFailure)
    | some rinfo => r.openServer C p rinfo

/-- `handle_connect_req_st`. -/
def handleConnectReq (C : SmCfg) (resolve : ℕ → Option ℕ) (p : SmPkt) (r : Sm) : Option Sm :=
  match r.connReqTokenMap p.uniqToken with
  | none => some (r.handleNewConnectReq C resolve p)
  | some num =>
      r.sessionVec[num]?.map fun
        | none => r
        | some s => if s.state ≠ .kConnected then r else r.udpTx (accept p s)

/-- `handle_connect_resp_st`. -/
def handleConnectResp (C : SmCfg) (resolve : ℕ → Option ℕ) (cb : List ApiCall) (p : SmPkt)
    (r : Sm) : Option Sm :=
  r.sessionVec[p.client.sessionNum]?.bind fun
    | none => some r
    | some s =>
        if s.state ≠ .kConnectInProgress then some r
        else if p.errType = .kInvalidRemoteRpcId ∧ C.retryConnectOnInvalidRpcId = true then
          some { r with smPendingReqs := insert s.localSessionNum r.smPendingReqs }
        else if p.errType ≠ .kNoError then
          (r.freeRingEntries.smHandler C cb s .kConnectFailed p.errType).burySession s
        else
          match resolve p.server.routingInfo with
          | none => some (r.closeClient p.client.sessionNum { s with server := p.server })
          | some rinfo =>
              let s' := { s with
                server := { p.server with routingInfo := rinfo }
                remoteSessionNum := p.server.sessionNum
                state := .kConnected }
              some ((r.write p.client.sessionNum s').smHandler C cb s' .kConnected .kNoError)

/-- `handle_disconnect_req_st`. -/
def handleDisconnectReq (p : SmPkt) (r : Sm) : Option Sm :=
  r.sessionVec[p.server.sessionNum]?.bind fun
    | none => some (r.udpTx (p.constructResp .kNoError))
    | some s => (r.freeRingEntries.udpTx (p.constructResp .kNoError)).burySession s

/-- `handle_disconnect_resp_st`. -/
def handleDisconnectResp (C : SmCfg) (cb : List ApiCall) (p : SmPkt) (r : Sm) : Option Sm :=
  r.sessionVec[p.client.sessionNum]?.bind fun
    | none => some r
    | some s => (r.freeRingEntries.smHandler C cb s .kDisconnected .kNoError).burySession s

/-- A response removes the pending request of its session. -/
def erasePending (p : SmPkt) (r : Sm) : Sm :=
  if p.pktType.isReq then r
  else { r with smPendingReqs := r.smPendingReqs.erase p.client.sessionNum }

/-- One packet in `handle_sm_rx_st`. -/
def handleSmRx (C : SmCfg) (resolve : ℕ → Option ℕ) (cb : List ApiCall) (p : SmPkt) (r : Sm) :
    Option Sm :=
  let r := r.erasePending p
  match p.pktType with
  | .kConnectReq => r.handleConnectReq C resolve p
  | .kDisconnectReq => r.handleDisconnectReq p
  | .kConnectResp => r.handleConnectResp C resolve cb p
  | .kDisconnectResp => r.handleDisconnectResp C cb p
  | .kUnblock => none
  | .kPingReq => none
  | .kPingResp => none

end Sm

/-! ## Events -/

/-- What happens to an `Rpc`. -/
inductive SmAct
  | api (c : ApiCall)
  | recv (resolve : ℕ → Option ℕ) (cb : List ApiCall) (p : SmPkt)

/-- One event. -/
def Sm.step (C : SmCfg) (r : Sm) : SmAct → Option Sm
  | .api c => some ({ r with out := [] }.call C c)
  | .recv resolve cb p => { r with out := [] }.handleSmRx C resolve cb p

/-- The runs of an `Rpc` under any calls and any packets. -/
abbrev SmRun (C : SmCfg) : List SmAct → Sm → Prop :=
  Runs.Run (fun _ _ => True) (Sm.step C) Sm.init

end HuiRpc
