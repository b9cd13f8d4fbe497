/-
# The client side of a session: credits, slots, and what is sent

Model of the client handlers of `rpc_impl/rpc_kick.cc`, `rpc_rfr.cc`, `rpc_cr.cc`,
`rpc_resp.cc`, `rpc_req.cc` and `rpc_queues.cc`.  A handler works on one slot, on the
credits of the session, and on the packets handed to the transport (`CliCtx`); `Cli` is the
session with all its slots, the free-slot vector, the stall queue and the backlog.

* `none` is a read or write through a null pointer: `tx_msgbuf_` of a slot that is not in
  use, the response header that the stall queue does not have, the request header that a
  request from the backlog does not have.
* The assertions on the credits are not compiled in; whether they would have held so far is
  kept in `ok`.
* The order of the TX batch is the order of sending, so the batch, the send queue and the
  wire are one list `tx`.
* Congestion control, the timing wheel and the list of active RPCs change no packet and no
  counter, and are left out.  So is the branch of a call from a background thread.
-/
import HuiRpc.TxMsg

namespace HuiRpc

/-! ## Constants and machine arithmetic -/

/-- Credits of a session. -/
def kSessionCredits : ℕ := 32

/-- Slots of a session. -/
def kSessionReqWindow : ℕ := 32

/-- `a - b` on `size_t`. -/
def sizeSub (a b : ℕ) : ℕ := (a + 2 ^ 64 - b) % 2 ^ 64

theorem sizeSub_of_sub_lt {a b : ℕ} (hb : b ≤ a) (hlt : a - b < 2 ^ 64) :
    sizeSub a b = a - b := by
  unfold sizeSub
  rw [show a + 2 ^ 64 - b = (a - b) + 2 ^ 64 by omega, Nat.add_mod_right, Nat.mod_eq_of_lt hlt]

theorem sizeSub_eq {a b : ℕ} (hb : b ≤ a) (ha : a < 2 ^ 64) : sizeSub a b = a - b :=
  sizeSub_of_sub_lt hb (by omega)

/-- `wire_pkts(N, M)`. -/
def wirePkts (reqPkgNum respPkgNum : ℕ) : ℕ := sizeSub (reqPkgNum + respPkgNum) 1

/-- What an endpoint puts into the packets it sends: the number of the session at its peer,
and a control header as the constructor of `Rpc` left it.  Only its `total_pkt` and `lkey`
survive, the other fields are written for every control packet. -/
structure Endpoint where
  remoteSessionNum : ℕ
  ctrl : Pkthdr
  deriving Inhabited

/-! ## The slot -/

/-- The client fields of `SSlot`.  `resp` is `dyn_resp_msgbuf_`. -/
structure CliSlot where
  txMsgbuf : Option MsgBuf
  curReqNum : ℕ
  tag : ℕ
  numTx : ℕ
  numRx : ℕ
  resp : RespBuf

/-- What the handlers of one slot read and write. -/
structure CliCtx where
  credits : ℕ
  ok : Bool
  slot : CliSlot
  tx : List WirePkt

/-- An assertion. -/
def CliCtx.assert (c : CliCtx) (p : Prop) [Decidable p] : CliCtx :=
  { c with ok := c.ok && decide p }

/-- `bump_credits`. -/
def bumpCredits (c : CliCtx) : CliCtx :=
  let c := c.assert (c.credits < kSessionCredits)
  { c with credits := c.credits + 1 }

/-- The loop of `kick_req_st` and `kick_rfr_st`: packet `num_tx_` is sent, one credit is
spent.  The loop runs at most as often as there are credits, so they do not wrap. -/
def kickLoop (pkt : ℕ → WirePkt) : ℕ → CliCtx → CliCtx
  | 0, c => c
  | n + 1, c => kickLoop pkt n { c with
      tx := c.tx ++ [pkt c.slot.numTx]
      slot := { c.slot with numTx := c.slot.numTx + 1 }
      credits := c.credits - 1 }

/-- `kick_req_st`. -/
def kickReq (c : CliCtx) : Option CliCtx :=
  let c := c.assert (0 < c.credits)
  c.slot.txMsgbuf.map fun b =>
    kickLoop b.pkts (min c.credits (sizeSub b.hdr0.totalPkt c.slot.numTx)) c

/-- The header that `enqueue_rfr_st` writes. -/
def rfrHdr (e : Endpoint) (resp : Pkthdr) (pktNum : ℕ) : Pkthdr :=
  { e.ctrl with
    reqType := resp.reqType
    msgSize := 0
    destSessionNum := e.remoteSessionNum % 2 ^ 4
    pktType := .kRFR
    pktNum := pktNum % 2 ^ 16
    reqNum := resp.reqNum
    magic := kPktHdrMagic
    thisMsgSize := 0 }

/-- `enqueue_rfr_st` when `num_tx_` is `numTx`. -/
def rfrPkt (e : Endpoint) (b : MsgBuf) (resp : Pkthdr) (numTx : ℕ) : WirePkt :=
  ⟨rfrHdr e resp (sizeSub numTx b.hdr0.totalPkt + 1), []⟩

/-- `kick_rfr_st`. -/
def kickRfr (e : Endpoint) (resp : Option Pkthdr) (c : CliCtx) : Option CliCtx :=
  let c := c.assert (0 < c.credits)
  c.slot.txMsgbuf.bind fun b => resp.map fun h =>
    let rfrPndng := sizeSub (wirePkts b.hdr0.totalPkt h.totalPkt) c.slot.numTx
    kickLoop (rfrPkt e b h) (min c.credits rfrPndng) c

/-- `req_pkts_pending`. -/
def reqPktsPending (s : CliSlot) (b : MsgBuf) : Prop := s.numTx < b.totalPkg

instance (s : CliSlot) (b : MsgBuf) : Decidable (reqPktsPending s b) :=
  inferInstanceAs (Decidable (_ < _))

/-- `process_expl_cr_st`. -/
def processExplCr (c : CliCtx) : Option CliCtx :=
  c.slot.txMsgbuf.bind fun b =>
    let c := bumpCredits c
    if reqPktsPending c.slot b then kickReq c else some c

/-- The end of `process_resp_one_st`: the slot is given up, and its buffer goes to the
continuation. -/
def giveUp (c : CliCtx) (resp : RespBuf) : CliCtx × Option RespBuf :=
  ({ c with slot := { c.slot with numRx := 0, txMsgbuf := none, resp := resp } }, some resp)

/-- `process_resp_one_st` up to the point where the slot is given up.  `data` is what the
header's `this_msg_size` reads from the body.  The second result is the buffer for the
continuation, if the response is complete. -/
def processRespOne (e : Endpoint) (h : Pkthdr) (data : List UInt8) (c : CliCtx) :
    Option (CliCtx × Option RespBuf) :=
  let c := bumpCredits c
  let c := { c with slot := { c.slot with numRx := c.slot.numRx + 1 } }
  if h.msgSize ≤ kMaxDataPerPkt then some (giveUp c (RespBuf.addSmall h data))
  else
    c.slot.txMsgbuf.bind fun b =>
      (if c.slot.numTx ≠ wirePkts b.hdr0.totalPkt h.totalPkt then kickRfr e (some h) c
        else some c).map fun c =>
          let resp := c.slot.resp.addLarge h data
          if c.slot.numRx ≠ h.totalPkt then
            ({ c with slot := { c.slot with resp := resp } }, none)
          else giveUp c resp

/-! ## The session -/

/-- The client session.  `freeVec` is `sslot_free_vec_` with its back first, `conts` lists
the continuations invoked, with their tag and buffer. -/
structure Cli where
  credits : ℕ
  ok : Bool
  slots : ℕ → CliSlot
  freeVec : List ℕ
  backlog : List (TxMsg × ℕ)
  stallq : List ℕ
  tx : List WirePkt
  conts : List (ℕ × RespBuf)

namespace Cli

/-- The session after its constructor. -/
def init : Cli :=
  { credits := kSessionCredits
    ok := true
    slots := fun i => ⟨none, i, 0, 0, 0, ⟨true, [], 0⟩⟩
    freeVec := List.range kSessionReqWindow
    backlog := []
    stallq := []
    tx := []
    conts := [] }

/-- What the handlers of slot `i` see. -/
def ctx (c : Cli) (i : ℕ) : CliCtx := ⟨c.credits, c.ok, c.slots i, c.tx⟩

/-- The session after a handler of slot `i`. -/
def put (c : Cli) (i : ℕ) (x : CliCtx) : Cli :=
  { c with credits := x.credits, ok := x.ok, slots := Function.update c.slots i x.slot,
           tx := x.tx }

/-- The part of `enqueue_request` that fills the slot. -/
def fillSlot (e : Endpoint) (reqType lkey : ℕ) (msg : TxMsg) (tag : ℕ) (s : CliSlot) : CliSlot :=
  let reqNum := s.curReqNum + kSessionReqWindow
  { s with
    txMsgbuf := some (msg.fill .request ⟨reqType, e.remoteSessionNum, reqNum, lkey⟩)
    curReqNum := reqNum
    tag := tag
    numTx := 0
    numRx := 0 }

/-- `enqueue_request` in the dispatch thread. -/
def enqueueRequest (e : Endpoint) (reqType lkey : ℕ) (msg : TxMsg) (tag : ℕ) (c : Cli) :
    Option Cli :=
  match c.freeVec with
  | [] => some { c with backlog := c.backlog ++ [(msg, tag)] }
  | i :: rest =>
      let c := { c with
        freeVec := rest
        slots := Function.update c.slots i (fillSlot e reqType lkey msg tag (c.slots i)) }
      if 0 < c.credits then (kickReq (c.ctx i)).map (c.put i)
      else some { c with stallq := c.stallq ++ [i] }

/-- The end of `process_resp_one_st`: the slot is free again, a request from the backlog is
started (through a null header), and the continuation is invoked. -/
def finish (c : Cli) (i : ℕ) (resp : RespBuf) : Option Cli :=
  let c := { c with freeVec := i :: c.freeVec }
  if c.backlog ≠ [] then none
  else some { c with conts := c.conts ++ [((c.slots i).tag, resp)] }


/-- A response packet for slot `i`. -/
def recvResp (e : Endpoint) (i : ℕ) (h : Pkthdr) (data : List UInt8) (c : Cli) : Option Cli :=
  (processRespOne e h data (c.ctx i)).bind fun r =>
    match r.2 with
    | none => some (c.put i r.1)
    | some resp => (c.put i r.1).finish i resp

/-- The client's part of `process_comps_st`.  A server sends responses and credit returns
only. -/
def recv (e : Endpoint) (stale : ℕ → UInt8) (p : WirePkt) (c : Cli) : Option Cli :=
  let i := p.hdr.reqNum % kSessionReqWindow
  match p.hdr.pktType with
  | .kResp => c.recvResp e i p.hdr (readBody stale p.payload p.hdr.thisMsgSize)
  | .kExplCR => (processExplCr (c.ctx i)).map (c.put i)
  | .kReq => none
  | .kRFR => none

/-- One slot of the stall queue, with a credit at hand. -/
def stallKick (e : Endpoint) (x : CliCtx) : Option CliCtx :=
  x.slot.txMsgbuf.bind fun b =>
    if reqPktsPending x.slot b then kickReq x else kickRfr e none x

/-- The loop of `process_credit_stall_queue_st`; `kept` is the part of the queue written
back so far. -/
def stallLoop (e : Endpoint) : List ℕ → Cli → List ℕ → Option (Cli × List ℕ)
  | [], c, kept => some (c, kept)
  | i :: rest, c, kept =>
      if 0 < c.credits then
        (stallKick e (c.ctx i)).bind fun x => stallLoop e rest (c.put i x) kept
      else stallLoop e rest c (kept ++ [i])

/-- `process_credit_stall_queue_st`. -/
def processCreditStallQueue (e : Endpoint) (c : Cli) : Option Cli :=
  (stallLoop e c.stallq c []).map fun r => { r.1 with stallq := r.2 }

end Cli

/-! ## What the kicks send -/

/-- The context after the packets from `num_tx_` on were sent, `n` of them. -/
def CliCtx.sent (c : CliCtx) (pkt : ℕ → WirePkt) (n : ℕ) : CliCtx :=
  { c with
    tx := c.tx ++ (List.range' c.slot.numTx n).map pkt
    slot := { c.slot with numTx := c.slot.numTx + n }
    credits := c.credits - n }

/-- The loop of a kick in closed form. -/
theorem kickLoop_eq (pkt : ℕ → WirePkt) (n : ℕ) : ∀ c : CliCtx, kickLoop pkt n c = c.sent pkt n := by
  unfold CliCtx.sent
  induction n with
  | zero =>
    intro c
    simp [kickLoop]
  | succ n ih =>
    intro c
    rw [kickLoop, ih, List.range'_succ, List.map_cons]
    simp only [List.append_assoc, List.singleton_append, CliCtx.mk.injEq, CliSlot.mk.injEq,
      and_true, true_and]
    omega

/-- An assertion that holds changes nothing. -/
theorem CliCtx.assert_of {c : CliCtx} {p : Prop} [Decidable p] (h : p) : c.assert p = c := by
  simp [CliCtx.assert, h]

/-- **`kick_req_st`** with a credit at hand sends request packets until the credits or the
packets run out. -/
theorem kickReq_eq {c : CliCtx} {b : MsgBuf} (hb : c.slot.txMsgbuf = some b)
    (hpos : 0 < c.credits) (htx : c.slot.numTx ≤ b.hdr0.totalPkt)
    (hN : b.hdr0.totalPkt < 2 ^ 64) :
    kickReq c = some (c.sent b.pkts (min c.credits (b.hdr0.totalPkt - c.slot.numTx))) := by
  unfold kickReq
  simp only [CliCtx.assert_of hpos, hb, Option.map_some]
  rw [sizeSub_eq htx hN, kickLoop_eq]

/-- **`kick_rfr_st`** sends requests for response packets. -/
theorem kickRfr_eq {c : CliCtx} {b : MsgBuf} (e : Endpoint) (h : Pkthdr)
    (hb : c.slot.txMsgbuf = some b) (hpos : 0 < c.credits)
    (htx : c.slot.numTx ≤ b.hdr0.totalPkt + h.totalPkt - 1)
    (hM : 0 < h.totalPkt) (hlt : b.hdr0.totalPkt + h.totalPkt < 2 ^ 64) :
    kickRfr e (some h) c = some (c.sent (rfrPkt e b h)
      (min c.credits (b.hdr0.totalPkt + h.totalPkt - 1 - c.slot.numTx))) := by
  have hwire : wirePkts b.hdr0.totalPkt h.totalPkt = b.hdr0.totalPkt + h.totalPkt - 1 :=
    sizeSub_eq (by omega) hlt
  unfold kickRfr
  simp only [CliCtx.assert_of hpos, hb, Option.bind_some, Option.map_some]
  rw [hwire, sizeSub_eq htx (by omega), kickLoop_eq]

end HuiRpc
