/-
# A session: client and server over FIFO channels

The client of `HuiRpc.Client` and the server of `HuiRpc.Server` joined by two lossless FIFO
channels, which are the lists of packets that each side has handed to its transport.  One
step is one call of the application (`enqueue_request`, `enqueue_response`), one received
packet on either side, or one pass over the stall queue, in any order.

Next to the state of the code there is a record of what was sent and received for the RPC
that a slot works on (`Trace`), and of every completed RPC (`Done`).  The code does not read
it.

* A request is only enqueued while a slot is free.  The backlog is not part of this system.
* A response is only enqueued for a request whose handler was invoked and has not answered.
* The two sides look at the same slot: both take `req_num_ % kSessionReqWindow`.
-/
import HuiRpc.Server
import HuiRpc.Lib.Runs

namespace HuiRpc

/-! ## The state -/

/-- What happened to the RPC of a slot: its request, the answer with its `lkey`, how often
the handler was invoked, and the headers sent by either side and processed by the client. -/
structure Trace where
  req : TxMsg
  args : SendArgs
  resp : Option (TxMsg × ℕ)
  called : ℕ
  cliSent : List Pkthdr
  srvSent : List Pkthdr
  cliRcvd : List Pkthdr

/-- A completed RPC: its tag, what happened to it, `num_tx_` at its end and the buffer that
the continuation got. -/
structure Done where
  tag : ℕ
  trace : Trace
  numTx : ℕ
  buf : RespBuf

/-- The two endpoints and the registered handlers. -/
structure Env where
  cli : Endpoint
  srv : Endpoint
  fn : ℕ → ReqFuncType

/-- The session at both ends.  `next` is the tag of the next request. -/
structure Sys where
  cli : Cli
  srv : Srv
  trace : ℕ → Trace
  next : ℕ
  done : List Done

/-- The trace of a request before anything happened to it. -/
def Trace.start (req : TxMsg) (args : SendArgs) : Trace := ⟨req, args, none, 0, [], [], []⟩

def Sys.init : Sys :=
  ⟨Cli.init, Srv.init, fun _ => Trace.start default ⟨0, 0, 0, 0⟩, 0, []⟩

/-! ## Steps -/

inductive Act
  | enqueue (reqType lkey : ℕ) (msg : TxMsg)
  | answer (i lkey : ℕ) (msg : TxMsg)
  | recvSrv (preReq body : ℕ)
  | recvCli (stale : ℕ → UInt8)
  | stall

/-- The slot of a packet. -/
def slotOf (h : Pkthdr) : ℕ := h.reqNum % kSessionReqWindow

/-- The packets of slot `i`. -/
def ofSlot (i : ℕ) (ps : List WirePkt) : List WirePkt :=
  ps.filter fun p => slotOf p.hdr = i

/-- The headers of slot `i` that were appended to a channel. -/
def newHdrs (i : ℕ) (old new : List WirePkt) : List Pkthdr :=
  (ofSlot i (new.drop old.length)).map WirePkt.hdr

namespace Sys

/-- The traces after client and server have sent packets. -/
def log (s : Sys) (c : Cli) (v : Srv) (j : ℕ) : Trace :=
  { s.trace j with
    cliSent := (s.trace j).cliSent ++ newHdrs j s.cli.tx c.tx
    srvSent := (s.trace j).srvSent ++ newHdrs j s.srv.tx v.tx }

/-- The record of an RPC that a step of the client completed, if it did. -/
def completed (s : Sys) (c : Cli) (i : ℕ) (t : Trace) : List Done :=
  if s.cli.conts.length < c.conts.length then
    [⟨(c.slots i).tag, t, (c.slots i).numTx, (c.slots i).resp⟩]
  else []

/-- When an action may be taken. -/
def Enabled (s : Sys) : Act → Prop
  | .enqueue _ _ _ => s.cli.freeVec ≠ []
  | .answer i _ _ => i < kSessionReqWindow ∧ 0 < (s.trace i).called ∧ (s.trace i).resp = none
  | .recvSrv _ _ => s.cli.tx ≠ []
  | .recvCli _ => s.srv.tx ≠ []
  | .stall => True

instance (s : Sys) (a : Act) : Decidable (s.Enabled a) :=
  match a with
  | .enqueue _ _ _ => inferInstanceAs (Decidable (¬ s.cli.freeVec = []))
  | .answer i _ _ =>
      match h : (s.trace i).resp with
      | none => decidable_of_iff (i < kSessionReqWindow ∧ 0 < (s.trace i).called)
          ⟨fun x => ⟨x.1, x.2, h⟩, fun x => ⟨x.1, x.2.1⟩⟩
      | some _ => isFalse fun x => absurd (h.symm.trans x.2.2) (by simp)
  | .recvSrv _ _ => decidable_of_iff (s.cli.tx.isEmpty = false) (by simp [Enabled])
  | .recvCli _ => decidable_of_iff (s.srv.tx.isEmpty = false) (by simp [Enabled])
  | .stall => isTrue trivial

/-- One step; `none` if the code goes through a null pointer. -/
def step (E : Env) (s : Sys) : Act → Option Sys
  | .enqueue reqType lkey msg =>
      (s.cli.enqueueRequest E.cli reqType lkey msg s.next).map fun c =>
        let i := s.cli.freeVec.headD 0
        let args := ⟨reqType, E.cli.remoteSessionNum, (c.slots i).curReqNum, lkey⟩
        let s1 := { s with trace := Function.update s.trace i (Trace.start msg args) }
        { s with cli := c, trace := s1.log c s.srv, next := s.next + 1 }
  | .answer i lkey msg =>
      let v := s.srv.answer E.srv i lkey msg
      let t := { s.log s.cli v i with resp := some (msg, lkey) }
      some { s with srv := v, trace := Function.update (s.log s.cli v) i t }
  | .recvSrv preReq body =>
      match s.cli.tx with
      | [] => none
      | p :: rest =>
          (s.srv.recv E.srv E.fn preReq body p).map fun v =>
            let i := slotOf p.hdr
            let t := { s.log s.cli v i with
              called := (s.trace i).called + (v.calls.length - s.srv.calls.length) }
            { s with
              cli := { s.cli with tx := rest }
              srv := v
              trace := Function.update (s.log s.cli v) i t }
  | .recvCli stale =>
      match s.srv.tx with
      | [] => none
      | p :: rest =>
          (s.cli.recv E.cli stale p).map fun c =>
            let i := slotOf p.hdr
            let t := { s.log c s.srv i with cliRcvd := (s.trace i).cliRcvd ++ [p.hdr] }
            { s with
              cli := c
              srv := { s.srv with tx := rest }
              trace := Function.update (s.log c s.srv) i t
              done := s.done ++ s.completed c i t }
  | .stall =>
      (s.cli.processCreditStallQueue E.cli).map fun c =>
        { s with cli := c, trace := s.log c s.srv }

end Sys

/-- The states that some run reaches. -/
def Reachable (E : Env) (s : Sys) : Prop :=
  ∃ as, Runs.Run Sys.Enabled (Sys.step E) Sys.init as s

/-! ## Packets that are waiting for an answer -/

/-- Whether processing `q` returns the credit of `p`: a credit return or the first response
packet for a request packet, the response packet asked for in the case of an RFR. -/
def acks (q p : Pkthdr) : Bool :=
  match p.pktType with
  | .kReq => (q.pktType = .kExplCR ∧ q.pktNum = p.pktNum) ∨ (q.pktType = .kResp ∧ q.pktNum = 0)
  | .kRFR => q.pktType = .kResp ∧ q.pktNum = p.pktNum
  | .kExplCR => false
  | .kResp => false

/-- A packet of the client whose answer has not been processed. -/
def Trace.waiting (t : Trace) (p : Pkthdr) : Bool := ! t.cliRcvd.any fun q => acks q p

/-- Request packets whose credit return or first response packet has not been processed. -/
def Trace.unackedReqs (t : Trace) : ℕ :=
  t.cliSent.countP fun p => p.pktType = .kReq ∧ t.waiting p = true

/-- RFRs whose response packet has not been processed. -/
def Trace.unackedRfrs (t : Trace) : ℕ :=
  t.cliSent.countP fun p => p.pktType = .kRFR ∧ t.waiting p = true

/-- Packets of the client that wait for an answer. -/
def Trace.unacked (t : Trace) : ℕ := t.unackedReqs + t.unackedRfrs

end HuiRpc
