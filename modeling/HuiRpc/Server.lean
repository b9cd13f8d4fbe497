/-
# The server side of a session: request assembly and responses

Model of the server handlers of `rpc_impl/rpc_req.cc`, `rpc_cr.cc`, `rpc_rfr.cc` and
`rpc_resp.cc`, in the same style as the client's: a handler works on one slot, on the
packets handed to the transport and on the list of handler invocations (`SrvCtx`).

* A request is collected in `dyn_resp_msgbuf_.iov` as entries that point into the receive
  ring.  `process_large_req_one_st` compares the end of the last entry with the new body.
  When the window is empty that entry is `iovs[-1]`: the pointer `pre_req` in front of the
  vector as its base, and the header of the vector as its length.
* `pre_req` belongs to the application and the body is an address in the ring; both are
  parameters.
* `none` is a read through the null `tx_msgbuf_` of a slot that has no response.
* The checks of packet order are computed or commented out, but never used.
-/
import HuiRpc.Client

namespace HuiRpc

/-! ## The slot -/

def kInvalidReqType : ℕ := 255

/-- `sizeof(ctrl_buffer)`. -/
def sizeofCtrlBuffer : ℕ := 24

/-- `enum ReqFuncType`. -/
inductive ReqFuncType
  | kForeground
  | kBackground
  deriving DecidableEq, Repr

/-- The server fields of `SSlot`.  `reqIov` is `dyn_resp_msgbuf_.iov`. -/
structure SrvSlot where
  curReqNum : ℕ
  numRx : ℕ
  reqType : ℕ
  savNumReqPkts : ℕ
  txMsgbuf : Option MsgBuf
  reqIov : Iovector

/-- A request as its handler finds it. -/
structure Call where
  reqNum : ℕ
  reqType : ℕ
  req : List Iovec
  deriving DecidableEq

/-- What the handlers of one slot read and write.  `calls` are the invocations of the
request handler, `bgReqs` the requests given to background threads. -/
structure SrvCtx where
  slot : SrvSlot
  tx : List WirePkt
  calls : List Call
  bgReqs : List Call

/-- The request in the slot. -/
def SrvSlot.call (s : SrvSlot) : Call := ⟨s.curReqNum, s.reqType, s.reqIov.entries⟩

/-! ## Collecting a request -/

/-- The 64 bits in front of `iovs`: `capacity`, `iov_begin`, `iov_end`, and `nbases`, which
is 0 in a slot. -/
def Iovector.hdrWord (v : Iovector) : ℕ :=
  v.capacity + 2 ^ 16 * v.iovBegin + 2 ^ 32 * v.iovEnd

/-- `back()`, also of an empty window. -/
def backEntry (preReq : ℕ) (v : Iovector) : Iovec :=
  if v.iovEnd = 0 then ⟨preReq, v.hdrWord⟩ else v.iovs (v.iovEnd - 1)

/-- `back().iov_len += n`. -/
def growBack (v : Iovector) (n : ℕ) : Iovector :=
  if v.iovEnd = 0 then
    let w := v.hdrWord + n
    { v with capacity := w % 2 ^ 16, iovBegin := w / 2 ^ 16 % 2 ^ 16,
             iovEnd := w / 2 ^ 32 % 2 ^ 16 }
  else
    let b := v.iovs (v.iovEnd - 1)
    { v with iovs := Function.update v.iovs (v.iovEnd - 1) ⟨b.iovBase, b.iovLen + n⟩ }

/-- The body of a packet joins the last entry if it lies right behind it, and gets an entry
of its own otherwise.  `none` is the early return after a refused push. -/
def collect (preReq body n : ℕ) (v : Iovector) : Option Iovector :=
  if ((backEntry preReq v).iovBase + (backEntry preReq v).iovLen) % 2 ^ 64 = body then
    some (growBack v n)
  else if (v.pushBackBuf body n).2 = n then some (v.pushBackBuf body n).1
  else none

/-! ## The handlers -/

/-- The header that `enqueue_cr_st` writes. -/
def crHdr (e : Endpoint) (req : Pkthdr) : Pkthdr :=
  { e.ctrl with
    reqType := req.reqType
    msgSize := sizeofCtrlBuffer
    destSessionNum := e.remoteSessionNum % 2 ^ 4
    pktType := .kExplCR
    pktNum := req.pktNum
    reqNum := req.reqNum
    magic := kPktHdrMagic
    thisMsgSize := 0 }

/-- `process_small_req_st`.  A background request is neither collected nor submitted. -/
def processSmallReq (fn : ℕ → ReqFuncType) (body : ℕ) (h : Pkthdr) (c : SrvCtx) : SrvCtx :=
  let slot := { c.slot with curReqNum := h.reqNum, numRx := 1, reqType := h.reqType }
  match fn h.reqType with
  | .kForeground =>
      let slot := { slot with
        reqIov := ((slot.reqIov.setEmptyAt 0).pushBackBuf body h.msgSize).1 }
      { c with slot := slot, calls := c.calls ++ [slot.call] }
  | .kBackground => { c with slot := slot }

/-- The packet-count bookkeeping of `process_large_req_one_st`. -/
def trackReq (h : Pkthdr) (s : SrvSlot) : SrvSlot :=
  if h.pktNum = 0 then
    { s with reqIov := s.reqIov.setEmptyAt 0, curReqNum := h.reqNum, numRx := 1 }
  else { s with numRx := s.numRx + 1 }

/-- The end of `process_large_req_one_st`: the handler of a complete request. -/
def handleReq (fn : ℕ → ReqFuncType) (h : Pkthdr) (c : SrvCtx) : SrvCtx :=
  if c.slot.numRx ≠ h.totalPkt then c
  else
    let slot := { c.slot with reqType := h.reqType }
    match fn h.reqType with
    | .kForeground => { c with slot := slot, calls := c.calls ++ [slot.call] }
    | .kBackground => { c with slot := slot, bgReqs := c.bgReqs ++ [slot.call] }

/-- `process_large_req_one_st`. -/
def processLargeReqOne (e : Endpoint) (fn : ℕ → ReqFuncType) (preReq body : ℕ) (h : Pkthdr)
    (c : SrvCtx) : SrvCtx :=
  let c := { c with slot := trackReq h c.slot }
  let c := if h.pktNum + 1 ≠ h.totalPkt then { c with tx := c.tx ++ [⟨crHdr e h, []⟩] } else c
  match collect preReq body h.thisMsgSize c.slot.reqIov with
  | none => c
  | some v => handleReq fn h { c with slot := { c.slot with reqIov := v } }

/-- `resp_ntoi`. -/
def respNtoi (pktNum numReqPkts : ℕ) : ℕ := sizeSub pktNum (sizeSub numReqPkts 1)

/-- `process_rfr_st`. -/
def processRfr (h : Pkthdr) (c : SrvCtx) : Option SrvCtx :=
  let slot := { c.slot with numRx := c.slot.numRx + 1 }
  slot.txMsgbuf.map fun b =>
    { c with slot := slot, tx := c.tx ++ [b.pkts (respNtoi h.pktNum slot.savNumReqPkts)] }

/-- `enqueue_response` in the dispatch thread, for a connected session. -/
def enqueueResponse (e : Endpoint) (lkey : ℕ) (msg : TxMsg) (c : SrvCtx) : SrvCtx :=
  let b := msg.fill .response ⟨c.slot.reqType, e.remoteSessionNum, c.slot.curReqNum, lkey⟩
  { c with
    slot := { c.slot with savNumReqPkts := 1, txMsgbuf := some b, reqType := kInvalidReqType }
    tx := c.tx ++ [b.pkts 0] }

/-! ## The session -/

/-- The server session. -/
structure Srv where
  slots : ℕ → SrvSlot
  tx : List WirePkt
  calls : List Call
  bgReqs : List Call

namespace Srv

/-- The session after its constructor: the slots are cleared by `memset`. -/
def init : Srv :=
  { slots := fun i => ⟨i, 0, kInvalidReqType, 0, none, ⟨0, 0, 0, fun _ => ⟨0, 0⟩⟩⟩
    tx := []
    calls := []
    bgReqs := [] }

/-- What the handlers of slot `i` see. -/
def ctx (s : Srv) (i : ℕ) : SrvCtx := ⟨s.slots i, s.tx, s.calls, s.bgReqs⟩

/-- The session after a handler of slot `i`. -/
def put (s : Srv) (i : ℕ) (x : SrvCtx) : Srv :=
  ⟨Function.update s.slots i x.slot, x.tx, x.calls, x.bgReqs⟩

/-- The server's part of `process_comps_st` for one slot.  A client sends requests and
requests for response packets only. -/
def recvSlot (e : Endpoint) (fn : ℕ → ReqFuncType) (preReq body : ℕ) (h : Pkthdr) (c : SrvCtx) :
    Option SrvCtx :=
  match h.pktType with
  | .kReq =>
      some (if h.msgSize ≤ kMaxDataPerPkt then processSmallReq fn body h c
        else processLargeReqOne e fn preReq body h c)
  | .kRFR => processRfr h c
  | .kResp => none
  | .kExplCR => none

/-- The server's part of `process_comps_st`. -/
def recv (e : Endpoint) (fn : ℕ → ReqFuncType) (preReq body : ℕ) (p : WirePkt) (s : Srv) :
    Option Srv :=
  let i := p.hdr.reqNum % kSessionReqWindow
  (recvSlot e fn preReq body p.hdr (s.ctx i)).map (s.put i)

/-- A handler's answer for slot `i`. -/
def answer (e : Endpoint) (i lkey : ℕ) (msg : TxMsg) (s : Srv) : Srv :=
  s.put i (enqueueResponse e lkey msg (s.ctx i))

end Srv

/-! ## What the handlers change -/

/-- The end of a request changes the request type of the slot, and the invocations. -/
theorem handleReq_frame (fn : ℕ → ReqFuncType) (h : Pkthdr) (c : SrvCtx) :
    (handleReq fn h c).tx = c.tx ∧
      (handleReq fn h c).slot = { c.slot with reqType := (handleReq fn h c).slot.reqType } := by
  unfold handleReq
  split_ifs
  · exact ⟨rfl, rfl⟩
  · split <;> exact ⟨rfl, rfl⟩

/-- The bookkeeping does not touch the response. -/
theorem trackReq_txMsgbuf (h : Pkthdr) (s : SrvSlot) :
    (trackReq h s).txMsgbuf = s.txMsgbuf := by
  unfold trackReq
  split_ifs <;> rfl

/-- **`process_large_req_one_st`** after its bookkeeping and the credit return: the body is
refused, or it is collected and the request may be complete. -/
theorem processLargeReqOne_cases (e : Endpoint) (fn : ℕ → ReqFuncType) (preReq body : ℕ)
    (h : Pkthdr) (c : SrvCtx) :
    ∃ tx, (tx = c.tx ∨ tx = c.tx ++ [⟨crHdr e h, []⟩]) ∧
      ((collect preReq body h.thisMsgSize (trackReq h c.slot).reqIov = none ∧
          processLargeReqOne e fn preReq body h c = { c with slot := trackReq h c.slot, tx := tx }) ∨
        ∃ v, collect preReq body h.thisMsgSize (trackReq h c.slot).reqIov = some v ∧
          processLargeReqOne e fn preReq body h c
            = handleReq fn h { c with slot := { trackReq h c.slot with reqIov := v }, tx := tx }) := by
  refine ⟨if h.pktNum + 1 ≠ h.totalPkt then c.tx ++ [⟨crHdr e h, []⟩] else c.tx, ?_, ?_⟩
  · split_ifs
    · exact Or.inr rfl
    · exact Or.inl rfl
  · have heq : processLargeReqOne e fn preReq body h c
        = match collect preReq body h.thisMsgSize (trackReq h c.slot).reqIov with
          | none => { c with
              slot := trackReq h c.slot
              tx := if h.pktNum + 1 ≠ h.totalPkt then c.tx ++ [⟨crHdr e h, []⟩] else c.tx }
          | some v => handleReq fn h { c with
              slot := { trackReq h c.slot with reqIov := v }
              tx := if h.pktNum + 1 ≠ h.totalPkt then c.tx ++ [⟨crHdr e h, []⟩] else c.tx } := by
      unfold processLargeReqOne
      split_ifs <;> rfl
    rw [heq]
    cases collect preReq body h.thisMsgSize (trackReq h c.slot).reqIov with
    | none => exact Or.inl ⟨rfl, rfl⟩
    | some v => exact Or.inr ⟨v, rfl, rfl⟩

/-! ## Collecting never fails early -/

/-- A body of at most `2 ^ 16` bytes adds at most one entry to the window. -/
theorem collect_iovEnd (preReq body : ℕ) {n : ℕ} {v : Iovector} (hend : v.iovEnd < iovCapacity)
    (hcap : v.capacity < 2 ^ 16) (hbeg : v.iovBegin < 2 ^ 16 - 1) (hn : n < 2 ^ 16) :
    ∃ v', collect preReq body n v = some v' ∧ v'.iovEnd ≤ v.iovEnd + 1 ∧
      v'.capacity < 2 ^ 16 ∧ v'.iovBegin ≤ v.iovBegin + 1 := by
  unfold collect
  split_ifs with hadj hret
  · refine ⟨_, rfl, ?_⟩
    unfold growBack
    split_ifs with h0
    · have hw : v.hdrWord = v.capacity + 2 ^ 16 * v.iovBegin := by
        unfold Iovector.hdrWord
        rw [h0, Nat.mul_zero, Nat.add_zero]
      simp only [hw]
      refine ⟨?_, ?_, ?_⟩ <;> omega
    · exact ⟨Nat.le_succ _, hcap, Nat.le_succ _⟩
  · refine ⟨_, rfl, ?_, ?_, ?_⟩
    · rw [Iovector.pushBackBuf_iovEnd _ _ _ (le_of_lt hend)]
      exact Nat.min_le_left _ _
    · rw [Iovector.pushBackBuf_capacity]
      decide
    · rw [Iovector.pushBackBuf_iovBegin]
      exact Nat.le_succ _
  · exfalso
    apply hret
    unfold Iovector.pushBackBuf Iovector.pushBack
    rw [if_pos hend]

/-! ## A request that arrives in order -/

/-- A slot that has the first `k` packets of a request and waits for more. -/
structure Assembling (a : SendArgs) (k : ℕ) (s : SrvSlot) : Prop where
  curReqNum : s.curReqNum = a.reqNum % 2 ^ 32
  numRx : s.numRx = k
  iovEnd : s.reqIov.iovEnd ≤ k
  iovBegin : s.reqIov.iovBegin ≤ k

/-- What packet `k` of the request `msg` does.  The last one runs a foreground handler, or
submits the request if it has several packets. -/
structure TookPkt (e : Endpoint) (fn : ℕ → ReqFuncType) (msg : TxMsg) (a : SendArgs) (k : ℕ)
    (c c' : SrvCtx) : Prop where
  tx : c'.tx = c.tx ++ if k + 1 < msg.totalPkt then
    [⟨crHdr e ((msg.fill .request a).pkts k).hdr, []⟩] else []
  calls : c'.calls = c.calls ++ if k + 1 = msg.totalPkt ∧ fn (a.reqType % 2 ^ 8) = .kForeground then
    [c'.slot.call] else []
  bgReqs : c'.bgReqs = c.bgReqs ++ if k + 1 = msg.totalPkt ∧
    fn (a.reqType % 2 ^ 8) = .kBackground ∧ kMaxDataPerPkt < msg.msgSize then [c'.slot.call] else []
  curReqNum : c'.slot.curReqNum = a.reqNum % 2 ^ 32
  assembling : k + 1 < msg.totalPkt → Assembling a (k + 1) c'.slot
  type : k + 1 = msg.totalPkt → c'.slot.reqType = a.reqType % 2 ^ 8
  capacity : c'.slot.reqIov.capacity < 2 ^ 16

section InOrder

variable (e : Endpoint) (fn : ℕ → ReqFuncType) (preReq body : ℕ) {msg : TxMsg} {a : SendArgs} {k : ℕ}
  {c : SrvCtx}

/-- **`process_small_req_st`** on the only packet of a request. -/
theorem processSmallReq_took (hN : msg.totalPkt = 1) (hcap : c.slot.reqIov.capacity < 2 ^ 16) :
    TookPkt e fn msg a 0 c (processSmallReq fn body ((msg.fill .request a).pkts 0).hdr c) := by
  have hnot : ¬ (0 + 1 < msg.totalPkt) := by omega
  have hsmall : ¬ kMaxDataPerPkt < msg.msgSize := not_lt.mpr (msg.small_iff.mpr hN)
  unfold processSmallReq
  rw [TxMsg.fill_reqType]
  cases hfn : fn (a.reqType % 2 ^ 8) with
  | kForeground =>
    exact {
      tx := by rw [if_neg hnot, List.append_nil]
      calls := by rw [if_pos ⟨by omega, hfn⟩]
      bgReqs := by rw [if_neg fun h => hsmall h.2.2, List.append_nil]
      curReqNum := rfl
      assembling := fun h => absurd h hnot
      type := fun _ => rfl
      capacity := by
        show (Iovector.pushBackBuf _ _ _).1.capacity < _
        rw [Iovector.pushBackBuf_capacity]
        decide }
  | kBackground =>
    exact {
      tx := by rw [if_neg hnot, List.append_nil]
      calls := by rw [hfn, if_neg (fun h => by cases h.2), List.append_nil]
      bgReqs := by rw [if_neg fun h => hsmall h.2.2, List.append_nil]
      curReqNum := rfl
      assembling := fun h => absurd h hnot
      type := fun _ => rfl
      capacity := hcap }

/-- The bookkeeping of `process_large_req_one_st` on packet `k`. -/
theorem trackReq_took {s : SrvSlot} (hk : k < msg.totalPkt) (hs : 0 < k → Assembling a k s) :
    let s' := trackReq ((msg.fill .request a).pkts k).hdr s
    s'.curReqNum = a.reqNum % 2 ^ 32 ∧ s'.numRx = k + 1 ∧ s'.reqIov.iovEnd ≤ k ∧
      s'.reqIov.iovBegin ≤ k ∧ s'.reqIov.capacity = s.reqIov.capacity := by
  have hnum : ((msg.fill .request a).pkts k).hdr.pktNum = k := msg.fill_pktNum _ _ k hk
  show (trackReq _ _).curReqNum = _ ∧ (trackReq _ _).numRx = _ ∧ (trackReq _ _).reqIov.iovEnd ≤ _ ∧
    (trackReq _ _).reqIov.iovBegin ≤ _ ∧ (trackReq _ _).reqIov.capacity = _
  unfold trackReq
  rw [hnum]
  split_ifs with h0
  · exact ⟨rfl, by rw [h0], Nat.zero_le _, Nat.zero_le _, rfl⟩
  · have h := hs (Nat.pos_of_ne_zero h0)
    exact ⟨h.curReqNum, by show s.numRx + 1 = _; rw [h.numRx], h.iovEnd, h.iovBegin, rfl⟩

/-- **`process_large_req_one_st`** on packet `k` of a request of several packets. -/
theorem processLargeReqOne_took (hlarge : kMaxDataPerPkt < msg.msgSize) (hk : k < msg.totalPkt)
    (hs : 0 < k → Assembling a k c.slot) (hcap : c.slot.reqIov.capacity < 2 ^ 16) :
    TookPkt e fn msg a k c
      (processLargeReqOne e fn preReq body ((msg.fill .request a).pkts k).hdr c) := by
  have hlt := msg.lt
  unfold pkgIndexSize at hlt
  have hdata : (msg.data k).length < 2 ^ 16 := by
    have := msg.data_le k hk
    rw [kMaxDataPerPkt_eq] at this
    omega
  obtain ⟨hcur, hrx, hend, hbeg, hcap'⟩ := trackReq_took hk hs
  set sl := trackReq ((msg.fill .request a).pkts k).hdr c.slot with hsl
  obtain ⟨v', hcol, hend', hcap'', hbeg'⟩ := collect_iovEnd preReq body
    (v := sl.reqIov) (n := (msg.data k).length) (by unfold iovCapacity; omega) (by omega)
    (by omega) hdata
  -- the context before the handler is looked up
  have hpre : processLargeReqOne e fn preReq body ((msg.fill .request a).pkts k).hdr c
      = handleReq fn ((msg.fill .request a).pkts k).hdr { c with
          slot := { sl with reqIov := v' }
          tx := c.tx ++ if k + 1 < msg.totalPkt then
            [⟨crHdr e ((msg.fill .request a).pkts k).hdr, []⟩] else [] } := by
    unfold processLargeReqOne
    simp only [msg.fill_pktNum _ _ k hk, TxMsg.fill_totalPkt, TxMsg.fill_thisMsgSize, ← hsl]
    by_cases hlast : k + 1 < msg.totalPkt
    · rw [if_pos (by omega), if_pos hlast]
      simp only [hcol]
    · rw [if_neg (by omega), if_neg hlast, List.append_nil]
      simp only [hcol]
  rw [hpre]
  generalize htx : (c.tx ++ if k + 1 < msg.totalPkt then
    [(⟨crHdr e ((msg.fill .request a).pkts k).hdr, []⟩ : WirePkt)] else []) = tx
  unfold handleReq
  rw [TxMsg.fill_reqType]
  by_cases hlast : k + 1 = msg.totalPkt
  · rw [if_neg (by show ¬ (sl.numRx ≠ msg.totalPkt); omega)]
    cases hfn : fn (a.reqType % 2 ^ 8) with
    | kForeground =>
      exact {
        tx := htx.symm
        calls := by rw [if_pos ⟨hlast, hfn⟩]
        bgReqs := by rw [hfn, if_neg (fun h => by cases h.2.1), List.append_nil]
        curReqNum := hcur
        assembling := fun h => absurd h (by omega)
        type := fun _ => rfl
        capacity := hcap'' }
    | kBackground =>
      exact {
        tx := htx.symm
        calls := by rw [hfn, if_neg (fun h => by cases h.2), List.append_nil]
        bgReqs := by rw [if_pos ⟨hlast, hfn, hlarge⟩]
        curReqNum := hcur
        assembling := fun h => absurd h (by omega)
        type := fun _ => rfl
        capacity := hcap'' }
  · rw [if_pos (by show sl.numRx ≠ msg.totalPkt; omega)]
    exact {
      tx := htx.symm
      calls := by rw [if_neg fun h => hlast h.1, List.append_nil]
      bgReqs := by rw [if_neg fun h => hlast h.1, List.append_nil]
      curReqNum := hcur
      assembling := fun _ => ⟨hcur, hrx, by show v'.iovEnd ≤ _; omega, by
        show v'.iovBegin ≤ _
        omega⟩
      type := fun heq => absurd heq hlast
      capacity := hcap'' }

/-- **A request packet at the server.** -/
theorem recvSlot_took (hk : k < msg.totalPkt) (hs : 0 < k → Assembling a k c.slot)
    (hcap : c.slot.reqIov.capacity < 2 ^ 16) :
    ∃ c', Srv.recvSlot e fn preReq body ((msg.fill .request a).pkts k).hdr c = some c' ∧
      TookPkt e fn msg a k c c' := by
  unfold Srv.recvSlot
  rw [show ((msg.fill .request a).pkts k).hdr.pktType = .kReq from rfl]
  refine ⟨_, rfl, ?_⟩
  rw [TxMsg.fill_msgSize]
  split_ifs with hsmall
  · have hone : msg.totalPkt = 1 := msg.small_iff.mp hsmall
    obtain rfl : k = 0 := by omega
    exact processSmallReq_took e fn body hone hcap
  · exact processLargeReqOne_took e fn preReq body (by omega) hk hs hcap

end InOrder

end HuiRpc
