/-
# Saved calls and their replay

`enqueue_request` and `enqueue_response` run in the dispatch thread.  A call from a
background thread is saved in a queue, a request that finds no free slot is saved in the
backlog of its session, and the event loop replays the saved records later.  Here both
functions are modelled with all their parameters, so that a replayed call can be compared
with the direct one.

* `ReqCall.save`, `EnqReqArgs.replay` : what a record keeps of a call, and the call made
  from it.  The record has no header, context or `lkey`; the replay passes its arguments by
  position, so that `cont_etid_` arrives as `_lkey`, and the address of the record's own
  `resp_msgbuf_`;
* `none` is a write through a null header pointer;
* `processBgQueuesEnqueueRequest_isSome_iff`, `processBgQueuesEnqueueResponse_isSome_iff` :
  when the event loop survives its queues.

Buffers, headers and slots are kept by address.  `Client` and `Server` follow the packets
of one session and have no use for the pointers kept here.
-/
import HuiRpc.Server

namespace HuiRpc

/-! ## Header memory and message buffers -/

def kMaxBgThreads : ℕ := 8

/-- The thread id of a continuation that runs in the dispatch thread. -/
def kInvalidBgETid : ℕ := kMaxBgThreads

/-- The packet headers and the serializers, by address. -/
structure SendMem where
  hdrs : HdrStore
  bufs : ℕ → Serializer

/-- The header writing of `enqueue_request` and `enqueue_response`: the headers at `hdr`
are filled and pushed in front of the buffer at `buf`. -/
def SendMem.fillMsg (kind : MsgKind) (a : SendArgs) (hdr buf : ℕ) (m : SendMem) : SendMem :=
  let h0 := kind.hdr0 (m.hdrs hdr) a (m.bufs buf).iov.sum
  { hdrs := fillHdrs m.hdrs hdr h0
    bufs := Function.update m.bufs buf (pushHdrs hdr h0.totalPkt (m.bufs buf)) }

/-- The caller's packet count followed by `fillMsg` is what the transport gets. -/
theorem launch_eq_fillMsg (kind : MsgKind) (a : SendArgs) (m : SendMem) (hdr buf : ℕ) :
    launch kind a m.hdrs hdr (m.bufs buf) = (initDataIov kMaxDataPerPkt (m.bufs buf)).map fun r =>
      let m' := SendMem.fillMsg kind a hdr buf
        { hdrs := Function.update m.hdrs hdr { m.hdrs hdr with totalPkt := r.1 % 2 ^ 16 }
          bufs := Function.update m.bufs buf r.2 }
      (r.1, m'.hdrs, m'.bufs buf) := by
  unfold launch SendMem.fillMsg
  simp only [Function.update_self, fillHdrs, Function.update_idem]

/-! ## Requests: the arguments -/

/-- The arguments of `enqueue_request`.  Pointers are addresses, `none` is `nullptr`. -/
structure ReqCall where
  sessionNum : ℕ
  reqType : ℕ
  reqMsgbuf : ℕ
  respMsgbuf : ℕ
  contFunc : ℕ
  tag : ℕ
  lkey : ℕ
  pkthdr : Option ℕ
  context : Option ℕ
  contEtid : ℕ
  deriving DecidableEq

/-- `struct enq_req_args_t`. -/
structure EnqReqArgs where
  sessionNum : ℕ
  reqType : ℕ
  reqMsgbuf : ℕ
  respMsgbuf : ℕ
  contFunc : ℕ
  tag : ℕ
  contEtid : ℕ
  deriving DecidableEq

/-- The record that is saved: `cont_etid` in the backlog, `get_etid()` in the queue. -/
def ReqCall.save (a : ReqCall) (etid : ℕ) : EnqReqArgs :=
  ⟨a.sessionNum, a.reqType, a.reqMsgbuf, a.respMsgbuf, a.contFunc, a.tag, etid⟩

/-- The call made from a record whose `resp_msgbuf_` lies at address `p`.  The seventh
parameter is `_lkey`; the header, the context and the thread id are the defaults. -/
def EnqReqArgs.replay (p : ℕ) (r : EnqReqArgs) : ReqCall :=
  { sessionNum := r.sessionNum
    reqType := r.reqType
    reqMsgbuf := r.reqMsgbuf
    respMsgbuf := p
    contFunc := r.contFunc
    tag := r.tag
    lkey := r.contEtid % 2 ^ 32
    pkthdr := none
    context := none
    contEtid := kInvalidBgETid }

/-! ## Requests: the call -/

/-- The client fields of `SSlot` that the call writes. -/
structure ReqSlot where
  txMsgbuf : Option ℕ
  curReqNum : ℕ
  c : ℕ
  respMsgbuf : ℕ
  contFunc : ℕ
  tag : ℕ
  numRx : ℕ
  numTx : ℕ
  contEtid : ℕ
  deriving Inhabited

/-- The client session. -/
structure ReqSess where
  remoteSessionNum : ℕ
  credits : ℕ
  slots : ℕ → ReqSlot
  freeVec : List ℕ
  backlog : List EnqReqArgs

/-- What `enqueue_request` reads and writes.  `tx` lists the packets handed to the
transport, by session, slot and packet index. -/
structure ReqSt where
  mem : SendMem
  sessions : ℕ → ReqSess
  stallq : List (ℕ × ℕ)
  tx : List (ℕ × ℕ × ℕ)
  bgReqs : List EnqReqArgs

namespace ReqSt

def putSess (st : ReqSt) (sn : ℕ) (s : ReqSess) : ReqSt :=
  { st with sessions := Function.update st.sessions sn s }

/-- A pass of the loop in `kick_req_st`. -/
def sendPkt (sn i : ℕ) (st : ReqSt) : ReqSt :=
  let s := st.sessions sn
  let slot := s.slots i
  { st.putSess sn { s with
      slots := Function.update s.slots i { slot with numTx := slot.numTx + 1 }
      credits := s.credits - 1 } with
    tx := st.tx ++ [(sn, i, slot.numTx)] }

/-- `kick_req_st` for the message at `buf`. -/
def kickReq (sn i buf : ℕ) (st : ReqSt) : ReqSt :=
  let totalPkt := (st.mem.hdrs (getNHdr (st.mem.bufs buf) 0)).totalPkt
  let sending := min (st.sessions sn).credits (sizeSub totalPkt ((st.sessions sn).slots i).numTx)
  (List.range sending).foldl (fun st _ => sendPkt sn i st) st

/-- The slot of a new request. -/
def fillSlot (a : ReqCall) (slot : ReqSlot) : ReqSlot :=
  { txMsgbuf := some a.reqMsgbuf
    curReqNum := slot.curReqNum + kSessionReqWindow
    c := a.context.getD slot.c
    respMsgbuf := a.respMsgbuf
    contFunc := a.contFunc
    tag := a.tag
    numRx := 0
    numTx := 0
    contEtid := a.contEtid }

/-- `enqueue_request` with the free slot `i` and the header memory at `hdr`. -/
def start (a : ReqCall) (i hdr : ℕ) (rest : List ℕ) (st : ReqSt) : ReqSt :=
  let s := st.sessions a.sessionNum
  let slot := fillSlot a (s.slots i)
  let args : SendArgs := ⟨a.reqType, s.remoteSessionNum, slot.curReqNum, a.lkey⟩
  let st := { st.putSess a.sessionNum { s with
      freeVec := rest
      slots := Function.update s.slots i slot } with
    mem := st.mem.fillMsg .request args hdr a.reqMsgbuf }
  if 0 < s.credits then st.kickReq a.sessionNum i a.reqMsgbuf
  else { st with stallq := st.stallq ++ [(a.sessionNum, i)] }

/-- A request that finds no free slot. -/
def toBacklog (a : ReqCall) (st : ReqSt) : ReqSt :=
  let s := st.sessions a.sessionNum
  st.putSess a.sessionNum { s with backlog := s.backlog ++ [a.save a.contEtid] }

/-- `enqueue_request` in the dispatch thread. -/
def dispatchRequest (a : ReqCall) (st : ReqSt) : Option ReqSt :=
  match (st.sessions a.sessionNum).freeVec with
  | [] => some (st.toBacklog a)
  | i :: rest => a.pkthdr.map fun hdr => st.start a i hdr rest

/-- `enqueue_request` in the thread `etid`; `creator` is the dispatch thread. -/
def enqueueRequest (creator etid : ℕ) (a : ReqCall) (st : ReqSt) : Option ReqSt :=
  if etid ≠ creator then some { st with bgReqs := st.bgReqs ++ [a.save etid] }
  else st.dispatchRequest a

/-- A pass of `process_bg_queues_enqueue_request_st`, with its local record at `p`. -/
def replayBg (p : ℕ) (st : ReqSt) : Option ReqSt :=
  match st.bgReqs with
  | [] => some st
  | r :: rest => dispatchRequest (r.replay p) { st with bgReqs := rest }

/-- The loop of `process_bg_queues_enqueue_request_st`. -/
def replayBgLoop (p : ℕ) : ℕ → ReqSt → Option ReqSt
  | 0, st => some st
  | n + 1, st => (st.replayBg p).bind (replayBgLoop p n)

/-- `process_bg_queues_enqueue_request_st`: as many passes as the queue had records. -/
def processBgQueuesEnqueueRequest (p : ℕ) (st : ReqSt) : Option ReqSt :=
  st.replayBgLoop p st.bgReqs.length

/-- `enq_req_backlog_.pop()`. -/
def popBacklog (sn : ℕ) (st : ReqSt) : ReqSt :=
  st.putSess sn { st.sessions sn with backlog := (st.sessions sn).backlog.tail }

/-- The end of `process_resp_one_st`: the request in front of the backlog, whose record is
at `p`, gets the slot that has just been freed. -/
def replayBacklog (p sn : ℕ) (st : ReqSt) : Option ReqSt :=
  match (st.sessions sn).backlog with
  | [] => some st
  | r :: _ => (st.dispatchRequest (r.replay p)).map (popBacklog sn)

end ReqSt

/-! ## Responses -/

/-- The arguments of `enqueue_response`; the handle names a session and a slot. -/
structure RespCall where
  reqHandle : ℕ × ℕ
  respMsgbuf : ℕ
  lkey : ℕ
  pkthdr : Option ℕ
  context : Option ℕ
  deriving DecidableEq

/-- `struct enq_resp_args_t`. -/
structure EnqRespArgs where
  reqHandle : ℕ × ℕ
  respMsgbuf : ℕ
  deriving DecidableEq

def RespCall.save (a : RespCall) : EnqRespArgs := ⟨a.reqHandle, a.respMsgbuf⟩

/-- The call made from a record: every other parameter has its default. -/
def EnqRespArgs.replay (r : EnqRespArgs) : RespCall :=
  ⟨r.reqHandle, r.respMsgbuf, 2 ^ 32 - 1, none, none⟩

/-- The server fields of `SSlot` that the call reads and writes. -/
structure RespSlot where
  txMsgbuf : Option ℕ
  curReqNum : ℕ
  c : ℕ
  reqType : ℕ
  savNumReqPkts : ℕ
  deriving Inhabited

/-- The server session. -/
structure RespSess where
  connected : Bool
  remoteSessionNum : ℕ
  slots : ℕ → RespSlot

/-- What `enqueue_response` reads and writes. -/
structure RespSt where
  mem : SendMem
  sessions : ℕ → RespSess
  tx : List (ℕ × ℕ × ℕ)
  bgResps : List EnqRespArgs

namespace RespSt

def slot (st : RespSt) (h : ℕ × ℕ) : RespSlot := (st.sessions h.1).slots h.2

def putSlot (st : RespSt) (h : ℕ × ℕ) (x : RespSlot) : RespSt :=
  let s := st.sessions h.1
  let s' := { s with slots := Function.update s.slots h.2 x }
  { st with sessions := Function.update st.sessions h.1 s' }

/-- `enqueue_response` in the dispatch thread.  The first branch is that of a session which
is not connected. -/
def dispatchResponse (a : RespCall) (st : RespSt) : Option RespSt :=
  let s := st.sessions a.reqHandle.1
  let slot := { st.slot a.reqHandle with
    c := a.context.getD (st.slot a.reqHandle).c
    savNumReqPkts := 1 }
  if s.connected = false then
    some (st.putSlot a.reqHandle { slot with reqType := kInvalidReqType })
  else a.pkthdr.map fun hdr =>
    let args : SendArgs := ⟨slot.reqType, s.remoteSessionNum, slot.curReqNum, a.lkey⟩
    { st.putSlot a.reqHandle { slot with
        txMsgbuf := some a.respMsgbuf, reqType := kInvalidReqType } with
      mem := st.mem.fillMsg .response args hdr a.respMsgbuf
      tx := st.tx ++ [(a.reqHandle.1, a.reqHandle.2, 0)] }

/-- `enqueue_response` in the thread `etid`. -/
def enqueueResponse (creator etid : ℕ) (a : RespCall) (st : RespSt) : Option RespSt :=
  if etid ≠ creator then some { st with bgResps := st.bgResps ++ [a.save] }
  else st.dispatchResponse a

/-- A pass of `process_bg_queues_enqueue_response_st`. -/
def replayBg (st : RespSt) : Option RespSt :=
  match st.bgResps with
  | [] => some st
  | r :: rest => dispatchResponse r.replay { st with bgResps := rest }

/-- The loop of `process_bg_queues_enqueue_response_st`. -/
def replayBgLoop : ℕ → RespSt → Option RespSt
  | 0, st => some st
  | n + 1, st => st.replayBg.bind (replayBgLoop n)

/-- `process_bg_queues_enqueue_response_st`. -/
def processBgQueuesEnqueueResponse (st : RespSt) : Option RespSt :=
  st.replayBgLoop st.bgResps.length

end RespSt

/-! ## Replaying a request -/

namespace ReqSt

variable {a : ReqCall} {r : EnqReqArgs} {st : ReqSt} {p sn : ℕ}

@[simp] theorem replay_sessionNum (r : EnqReqArgs) (p : ℕ) :
    (r.replay p).sessionNum = r.sessionNum := rfl

/-- A replayed request that finds a free slot writes through a null header. -/
theorem dispatchRequest_replay_of_free (st : ReqSt) (r : EnqReqArgs) (p : ℕ)
    (hfree : (st.sessions r.sessionNum).freeVec ≠ []) :
    st.dispatchRequest (r.replay p) = none := by
  unfold dispatchRequest
  rw [replay_sessionNum]
  cases h : (st.sessions r.sessionNum).freeVec with
  | nil => exact absurd h hfree
  | cons i rest => rfl

/-- A direct call that finds a free slot needs its header only. -/
theorem dispatchRequest_eq_none_iff (hfree : (st.sessions a.sessionNum).freeVec ≠ []) :
    st.dispatchRequest a = none ↔ a.pkthdr = none := by
  unfold dispatchRequest
  cases h : (st.sessions a.sessionNum).freeVec with
  | nil => exact absurd h hfree
  | cons i rest => exact Option.map_eq_none_iff

/-- Without a free slot a request goes to the backlog. -/
theorem dispatchRequest_of_full (st : ReqSt) (a : ReqCall)
    (hfull : (st.sessions a.sessionNum).freeVec = []) :
    st.dispatchRequest a = some (st.toBacklog a) := by
  unfold dispatchRequest
  rw [hfull]

/-- The backlog tells two requests apart by their records. -/
theorem toBacklog_inj (st : ReqSt) {a b : ReqCall} (hsn : b.sessionNum = a.sessionNum) :
    st.toBacklog b = st.toBacklog a ↔ b.save b.contEtid = a.save a.contEtid := by
  constructor
  · intro h
    have hback := congrArg (fun st => (st.sessions a.sessionNum).backlog) h
    simp only [toBacklog, putSess, hsn, Function.update_self] at hback
    exact List.singleton_inj.mp (List.append_cancel_left hback)
  · intro h
    unfold toBacklog
    rw [hsn, h]

end ReqSt

/-- The condition under which a request survives its replay from the background queue in
the state `st`, with the record at `p`. -/
def ReqCall.Replayable (p : ℕ) (st : ReqSt) (a : ReqCall) : Prop :=
  if (st.sessions a.sessionNum).freeVec = [] then
    a.respMsgbuf = p ∧ a.contEtid = kInvalidBgETid
  else a.pkthdr = none

/-- **A request, direct and replayed.** -/
theorem ReqSt.dispatchRequest_replay_iff (a : ReqCall) (etid p : ℕ) (st : ReqSt) :
    st.dispatchRequest ((a.save etid).replay p) = st.dispatchRequest a ↔
      a.Replayable p st := by
  unfold ReqCall.Replayable
  split_ifs with hfull
  · rw [dispatchRequest_of_full st a hfull,
      dispatchRequest_of_full st ((a.save etid).replay p) hfull,
      Option.some.injEq, toBacklog_inj st (a := a) (b := (a.save etid).replay p) rfl]
    unfold ReqCall.save EnqReqArgs.replay
    simp only [EnqReqArgs.mk.injEq, true_and]
    rw [eq_comm, @eq_comm _ kInvalidBgETid]
  · rw [dispatchRequest_replay_of_free st (a.save etid) p hfull, eq_comm,
      dispatchRequest_eq_none_iff hfull]

/-! ## Replaying a response -/

namespace RespSt

variable {a : RespCall} {st : RespSt}

@[simp] theorem replay_reqHandle (r : EnqRespArgs) : r.replay.reqHandle = r.reqHandle := rfl

@[simp] theorem replay_save_reqHandle (a : RespCall) :
    a.save.replay.reqHandle = a.reqHandle := rfl

/-- A replayed response on a connected session writes through a null header. -/
theorem dispatchResponse_replay_of_connected (st : RespSt) (r : EnqRespArgs)
    (hc : (st.sessions r.reqHandle.1).connected = true) :
    st.dispatchResponse r.replay = none := by
  unfold dispatchResponse
  rw [replay_reqHandle, if_neg (by rw [hc]; decide)]
  rfl

theorem dispatchResponse_eq_none_iff (hc : (st.sessions a.reqHandle.1).connected = true) :
    st.dispatchResponse a = none ↔ a.pkthdr = none := by
  unfold dispatchResponse
  rw [if_neg (by rw [hc]; decide)]
  exact Option.map_eq_none_iff

/-- On a session that is not connected the slot is all that changes. -/
theorem dispatchResponse_of_closed (st : RespSt) (a : RespCall)
    (hc : (st.sessions a.reqHandle.1).connected = false) :
    st.dispatchResponse a = some (st.putSlot a.reqHandle { st.slot a.reqHandle with
      c := a.context.getD (st.slot a.reqHandle).c
      savNumReqPkts := 1
      reqType := kInvalidReqType }) := by
  unfold dispatchResponse
  rw [if_pos hc]

@[simp] theorem slot_putSlot (st : RespSt) (h : ℕ × ℕ) (x : RespSlot) :
    (st.putSlot h x).slot h = x := by
  simp [putSlot, slot]

theorem putSlot_inj {h : ℕ × ℕ} {x y : RespSlot} : st.putSlot h x = st.putSlot h y ↔ x = y := by
  constructor
  · intro hxy
    have hslot := congrArg (fun st => st.slot h) hxy
    simpa using hslot
  · rintro rfl
    rfl

end RespSt

/-- The condition under which a response survives its replay: no header on a connected
session, and on any other no context that the slot does not have yet. -/
def RespCall.Replayable (st : RespSt) (a : RespCall) : Prop :=
  if (st.sessions a.reqHandle.1).connected = true then a.pkthdr = none
  else a.context.getD (st.slot a.reqHandle).c = (st.slot a.reqHandle).c

/-- **A response, direct and replayed.** -/
theorem RespSt.dispatchResponse_replay_iff (a : RespCall) (st : RespSt) :
    st.dispatchResponse a.save.replay = st.dispatchResponse a ↔ a.Replayable st := by
  unfold RespCall.Replayable
  split_ifs with hc
  · rw [dispatchResponse_replay_of_connected st a.save hc, eq_comm, dispatchResponse_eq_none_iff hc]
  · have hc' : (st.sessions a.reqHandle.1).connected = false := by simpa using hc
    rw [dispatchResponse_of_closed st a hc', dispatchResponse_of_closed st a.save.replay hc',
      Option.some.injEq, replay_save_reqHandle, putSlot_inj]
    simp only [RespSlot.mk.injEq, true_and, and_true]
    exact eq_comm

/-! ## The queues -/

namespace ReqSt

variable {st : ReqSt} {p : ℕ}

@[simp] theorem toBacklog_freeVec (a : ReqCall) (st : ReqSt) (sn : ℕ) :
    ((st.toBacklog a).sessions sn).freeVec = (st.sessions sn).freeVec := by
  unfold toBacklog putSess
  by_cases h : sn = a.sessionNum
  · rw [h]
    simp
  · simp [Function.update_of_ne h]

/-- The event loop survives the background requests exactly when none of them finds a free
slot: then all of them only move to a backlog. -/
theorem processBgQueuesEnqueueRequest_isSome_iff (p : ℕ) (st : ReqSt) :
    (st.processBgQueuesEnqueueRequest p).isSome ↔
      ∀ r ∈ st.bgReqs, (st.sessions r.sessionNum).freeVec = [] := by
  unfold processBgQueuesEnqueueRequest
  -- the queue shrinks by its head in every pass, and no pass changes a free vector
  generalize hq : st.bgReqs = q
  induction q generalizing st with
  | nil => simp [replayBgLoop]
  | cons r rest ih =>
    rw [List.length_cons, replayBgLoop, replayBg, hq]
    simp only [List.forall_mem_cons]
    by_cases hfree : (st.sessions r.sessionNum).freeVec = []
    · rw [dispatchRequest_of_full { st with bgReqs := rest } (r.replay p) hfree, Option.bind_some,
        ih (toBacklog (r.replay p) { st with bgReqs := rest }) rfl]
      simp only [toBacklog_freeVec, hfree, true_and]
    · rw [dispatchRequest_replay_of_free { st with bgReqs := rest } r p hfree]
      simp [hfree]

end ReqSt

namespace RespSt

theorem putSlot_connected (st : RespSt) (h : ℕ × ℕ) (x : RespSlot) (sn : ℕ) :
    ((st.putSlot h x).sessions sn).connected = (st.sessions sn).connected := by
  unfold putSlot
  by_cases hsn : sn = h.1
  · rw [hsn]
    simp
  · simp [Function.update_of_ne hsn]

/-- The event loop survives the background responses exactly when none of them is for a
connected session. -/
theorem processBgQueuesEnqueueResponse_isSome_iff (st : RespSt) :
    st.processBgQueuesEnqueueResponse.isSome ↔
      ∀ r ∈ st.bgResps, (st.sessions r.reqHandle.1).connected = false := by
  unfold processBgQueuesEnqueueResponse
  generalize hq : st.bgResps = q
  induction q generalizing st with
  | nil => simp [replayBgLoop]
  | cons r rest ih =>
    rw [List.length_cons, replayBgLoop, replayBg, hq]
    simp only [List.forall_mem_cons]
    cases hc : (st.sessions r.reqHandle.1).connected with
    | false =>
      rw [dispatchResponse_of_closed { st with bgResps := rest } r.replay hc, Option.bind_some, ih _ rfl]
      simp only [putSlot_connected, true_and]
    | true =>
      rw [dispatchResponse_replay_of_connected { st with bgResps := rest } r hc]
      simp

end RespSt

/-! ## Direct and replayed calls -/

/-- **A saved call is not the call that was made.**  A request replayed from the background
queue or from the backlog, and a response replayed from its queue, have the effect of the
direct call exactly under the stated conditions; with a header to fill they never have. -/
theorem replayed_as_direct_iff (creator : ℕ) :
    (∀ (a : ReqCall) (etid p : ℕ) (st : ReqSt) (rest : List EnqReqArgs),
      st.bgReqs = a.save etid :: rest →
      (st.replayBg p = ReqSt.enqueueRequest creator creator a { st with bgReqs := rest } ↔
        a.Replayable p st)) ∧
    (∀ (a : ReqCall) (p : ℕ) (st : ReqSt) (rest : List EnqReqArgs),
      (st.sessions a.sessionNum).backlog = a.save a.contEtid :: rest →
      (st.sessions a.sessionNum).freeVec ≠ [] →
      (st.replayBacklog p a.sessionNum
          = (st.enqueueRequest creator creator a).map (ReqSt.popBacklog a.sessionNum) ↔
        a.pkthdr = none)) ∧
    ∀ (a : RespCall) (st : RespSt) (rest : List EnqRespArgs), st.bgResps = a.save :: rest →
      (st.replayBg = RespSt.enqueueResponse creator creator a { st with bgResps := rest } ↔
        a.Replayable st) := by
  refine ⟨?_, ?_, ?_⟩
  · intro a etid p st rest hq
    rw [ReqSt.replayBg, hq, ReqSt.enqueueRequest, if_neg (not_not.mpr rfl)]
    exact ReqSt.dispatchRequest_replay_iff a etid p { st with bgReqs := rest }
  · intro a p st rest hq hfree
    rw [ReqSt.replayBacklog, hq, ReqSt.enqueueRequest, if_neg (not_not.mpr rfl)]
    simp only
    rw [ReqSt.dispatchRequest_replay_of_free st _ p hfree, Option.map_none, eq_comm,
      Option.map_eq_none_iff, ReqSt.dispatchRequest_eq_none_iff hfree]
  · intro a st rest hq
    rw [RespSt.replayBg, hq, RespSt.enqueueResponse, if_neg (not_not.mpr rfl)]
    exact RespSt.dispatchResponse_replay_iff a { st with bgResps := rest }

/-- One client session with the given free slots and saved requests. -/
def sampleReqSt (free : List ℕ) (bgReqs backlog : List EnqReqArgs) : ReqSt :=
  { mem := ⟨fun _ => { (default : Pkthdr) with totalPkt := 1 }, fun _ => Serializer.new default⟩
    sessions := fun _ => ⟨3, kSessionCredits, fun _ => default, free, backlog⟩
    stallq := []
    tx := []
    bgReqs := bgReqs }

/-- One server session with the given state and saved responses. -/
def sampleRespSt (connected : Bool) (bgResps : List EnqRespArgs) : RespSt :=
  { mem := ⟨fun _ => { (default : Pkthdr) with totalPkt := 1 }, fun _ => Serializer.new default⟩
    sessions := fun _ => ⟨connected, 3, fun _ => default⟩
    tx := []
    bgResps := bgResps }

/-- A request with its header at address 1000 and the caller's variable at 200. -/
def sampleReqCall : ReqCall := ⟨0, 2, 100, 200, 1, 5, 7, some 1000, none, kInvalidBgETid⟩

/-- A response with its header at address 1000. -/
def sampleRespCall : RespCall := ⟨(0, 0), 100, 7, some 1000, none⟩

theorem replayed_as_direct_closed_session :
    RespSt.replayBg (sampleRespSt false [sampleRespCall.save])
      = RespSt.enqueueResponse 0 0 sampleRespCall (sampleRespSt false []) :=
  ((replayed_as_direct_iff 0).2.2 sampleRespCall (sampleRespSt false [sampleRespCall.save]) []
    rfl).mpr rfl

/-- **What a replay loses.**  The direct calls fill the header at 1000 with `lkey` 7 and
note the caller's variable; the replayed ones write through a null header.  The request
that is replayed has the thread id as its `lkey` and points at its own record. -/
theorem replay_loses_header :
    ((sampleReqSt [0] [] []).enqueueRequest 0 0 sampleReqCall).map
        (fun st => ((st.mem.hdrs 1000).lkey, ((st.sessions 0).slots 0).respMsgbuf))
      = some (7, 200) ∧
    (sampleReqSt [0] [sampleReqCall.save 4] []).replayBg 900 = none ∧
    (sampleReqSt [0] [] [sampleReqCall.save sampleReqCall.contEtid]).replayBacklog 900 0 = none ∧
    (sampleReqCall.save 4).replay 900
      = { sampleReqCall with respMsgbuf := 900, lkey := 4, pkthdr := none } ∧
    ((sampleRespSt true []).enqueueResponse 0 0 sampleRespCall).map
        (fun st => (st.mem.hdrs 1000).lkey) = some 7 ∧
    (sampleRespSt true [sampleRespCall.save]).replayBg = none := by
  refine ⟨by decide +kernel, ?_, ?_, by decide, by decide +kernel, ?_⟩
  · exact ReqSt.dispatchRequest_replay_of_free (sampleReqSt [0] [] []) (sampleReqCall.save 4) 900
      (by decide)
  · have h := ReqSt.dispatchRequest_replay_of_free
      (sampleReqSt [0] [] [sampleReqCall.save sampleReqCall.contEtid])
      (sampleReqCall.save sampleReqCall.contEtid) 900 (by decide)
    exact congrArg (Option.map (ReqSt.popBacklog 0)) h
  · exact RespSt.dispatchResponse_replay_of_connected (sampleRespSt true []) sampleRespCall.save rfl

end HuiRpc
