/-
# The handlers on an active slot

For a slot that follows the protocol, what each handler of the client and of the server does
with the packet that comes next: it returns normally, sends the next packets of its sequence,
and moves the counters of `Core` on.  The results are stated on the context that the handler
works on, so that they do not mention the other slots.
-/
import HuiRpc.SlotProtocol

namespace HuiRpc

open Runs

variable {E : Env} {v : View} {s q c n : ℕ} {x : CliCtx}

/-! ## Sending -/

theorem CliCtx.sent_zero (x : CliCtx) (pkt : ℕ → WirePkt) : x.sent pkt 0 = x := by
  simp [CliCtx.sent]

theorem CliCtx.sent_tx (x : CliCtx) (pkt : ℕ → WirePkt) (n : ℕ) :
    (x.sent pkt n).tx = x.tx ++ seg pkt x.slot.numTx (x.slot.numTx + n) := by
  unfold CliCtx.sent seg
  rw [Nat.add_sub_cancel_left]

theorem CliCtx.sent_congr (x : CliCtx) {pkt pkt' : ℕ → WirePkt}
    (h : ∀ k, x.slot.numTx ≤ k → k < x.slot.numTx + n → pkt k = pkt' k) :
    x.sent pkt n = x.sent pkt' n := by
  have hseg := seg_congr h
  unfold seg at hseg
  rw [Nat.add_sub_cancel_left] at hseg
  unfold CliCtx.sent
  rw [hseg]

/-- **`kick_req_st` on an active slot.** -/
theorem kickReq_core {t : Trace} (hb : x.slot.txMsgbuf = some t.reqBuf) (hpos : 0 < x.credits)
    (htx : x.slot.numTx ≤ t.N) :
    kickReq x = some (x.sent (t.cliPkt E) (min x.credits (t.N - x.slot.numTx))) := by
  have htot : t.reqBuf.hdr0.totalPkt = t.N := t.req.hdr0_totalPkt _ _
  have hN := t.N_lt
  unfold pkgIndexSize at hN
  rw [kickReq_eq hb hpos (by omega) (by omega), htot, Option.some.injEq]
  apply x.sent_congr
  intro k _ hk
  rw [Trace.cliPkt_req E (by omega)]

/-- A request number and type are all that an RFR takes from the response header. -/
theorem rfrHdr_congr (e : Endpoint) {h h' : Pkthdr} (ht : h.reqType = h'.reqType)
    (hn : h.reqNum = h'.reqNum) (k : ℕ) : rfrHdr e h k = rfrHdr e h' k := by
  unfold rfrHdr
  rw [ht, hn]

/-- The request type and number in the headers of the response are those of the request. -/
theorem Trace.respBuf_hdr (E : Env) (t : Trace) (k : ℕ) :
    ((t.respBuf E).pkts k).hdr.reqType = t.reqBuf.hdr0.reqType ∧
      ((t.respBuf E).pkts k).hdr.reqNum = t.reqBuf.hdr0.reqNum := by
  have htype : t.reqBuf.hdr0.reqType = t.args.reqType % 2 ^ 8 := t.req.fill_reqType _ _ 0
  have hnum : t.reqBuf.hdr0.reqNum = t.args.reqNum % 2 ^ 32 := t.req.fill_reqNum _ _ 0
  constructor
  · refine (t.respMsg.fill_reqType _ _ k).trans ?_
    show t.reqBuf.hdr0.reqType % 2 ^ 8 = _
    rw [htype, Nat.mod_mod]
  · refine (t.respMsg.fill_reqNum _ _ k).trans ?_
    show t.reqBuf.hdr0.reqNum % 2 ^ 32 = _
    rw [hnum, Nat.mod_mod]

/-- **`kick_rfr_st` on an active slot**, after a response packet. -/
theorem kickRfr_core {t : Trace} {k : ℕ} (hb : x.slot.txMsgbuf = some t.reqBuf) (hpos : 0 < x.credits)
    (hlo : t.N ≤ x.slot.numTx) (htx : x.slot.numTx ≤ t.N + t.M - 1) :
    kickRfr E.cli (some ((t.respBuf E).pkts k).hdr) x
      = some (x.sent (t.cliPkt E)
          (min x.credits (t.N + t.M - 1 - x.slot.numTx))) := by
  have htot : t.reqBuf.hdr0.totalPkt = t.N := t.req.hdr0_totalPkt _ _
  have htotM : ((t.respBuf E).pkts k).hdr.totalPkt = t.M := t.respMsg.fill_totalPkt _ _ k
  have hN := t.N_lt
  have hM := t.M_lt
  have hMpos := t.M_pos
  unfold pkgIndexSize at hN hM
  rw [kickRfr_eq E.cli _ hb hpos (by rw [htot, htotM]; exact htx) (by omega) (by omega), htot, htotM,
    Option.some.injEq]
  apply x.sent_congr
  intro j hlo' hj
  obtain ⟨htype, hnum⟩ := t.respBuf_hdr E k
  rw [Trace.cliPkt_rfr E (by omega)]
  unfold rfrPkt
  rw [htot, sizeSub_eq (by omega) (by omega), rfrHdr_congr E.cli htype hnum]

/-! ## The client -/

/-- The view after the client processed `Q c` and sent `n` packets; `cs` are the fields of the
slot, but for `num_tx_`. -/
def View.cliStep (E : Env) (v : View) (cs : CliSlot) (q c n : ℕ) : View :=
  { v with
    cs := { cs with numTx := v.cs.numTx + n }
    up := v.up ++ seg (v.tr.cliPkt E) v.cs.numTx (v.cs.numTx + n)
    down := seg (v.tr.srvPkt E) (c + 1) q
    tr := { v.tr with
      cliSent := v.tr.cliSent
        ++ (seg (v.tr.cliPkt E) v.cs.numTx (v.cs.numTx + n)).map WirePkt.hdr
      cliRcvd := v.tr.cliRcvd ++ [(v.tr.srvPkt E c).hdr] } }

theorem bumpCredits_eq (hcr : x.credits < kSessionCredits) :
    bumpCredits x = { x with credits := x.credits + 1 } := by
  unfold bumpCredits
  simp only [CliCtx.assert_of hcr]

/-- **`process_expl_cr_st`**: the credit comes back, and request packets follow while there are
any. -/
theorem processExplCr_core (h : Core E v s q c) (hx : x.slot = v.cs) (hcq : c < q)
    (hN : c + 1 < v.tr.N) (hcr : x.credits < kSessionCredits) :
    ∃ n, n ≤ x.credits + 1 ∧ c + 1 < v.cs.numTx + n ∧
      processExplCr x = some (({ x with credits := x.credits + 1 } : CliCtx).sent
        (v.tr.cliPkt E) n) ∧
      Core E (v.cliStep E v.cs q c n) s q (c + 1) := by
  have hqs := h.q_le
  have hst := h.s_le
  have hlim := h.limit
  rw [Trace.limit_of_lt (by omega)] at hlim
  have hb : x.slot.txMsgbuf = some v.tr.reqBuf := by rw [hx, h.buf]
  have htx : x.slot.numTx = v.cs.numTx := by rw [hx]
  have hcore := h.cliCr hcq hN
  refine ⟨min (x.credits + 1) (v.tr.N - v.cs.numTx), Nat.min_le_left _ _, by omega, ?_, ?_⟩
  · unfold processExplCr
    rw [hb, Option.bind_some]
    simp only [bumpCredits_eq hcr]
    split_ifs with hpend
    · rw [kickReq_core (x := { x with credits := x.credits + 1 }) (E := E) hb (Nat.succ_pos _)
        (by show x.slot.numTx ≤ v.tr.N; omega)]
      show some (CliCtx.sent _ _ (min (x.credits + 1) (v.tr.N - x.slot.numTx))) = _
      rw [htx]
    · have hfull : ¬ x.slot.numTx < v.tr.N := hpend
      rw [show v.tr.N - v.cs.numTx = 0 by omega, Nat.min_zero, CliCtx.sent_zero]
  · apply Core.kick hcore
    show v.cs.numTx + _ ≤ v.tr.limit (c + 1)
    rw [Trace.limit_of_lt hN]
    omega

/-- The bytes of a response packet are all read. -/
theorem Trace.readBody_resp (E : Env) (t : Trace) (k : ℕ) (stale : ℕ → UInt8) :
    readBody stale ((t.respBuf E).pkts k).payload ((t.respBuf E).pkts k).hdr.thisMsgSize
      = t.respMsg.data k := readBody_length stale (t.respMsg.data k)

theorem Trace.respBuf_msgSize (E : Env) (t : Trace) (k : ℕ) :
    ((t.respBuf E).pkts k).hdr.msgSize = t.respMsg.msgSize := t.respMsg.fill_msgSize _ _ k

theorem Trace.respBuf_totalPkt (E : Env) (t : Trace) (k : ℕ) :
    ((t.respBuf E).pkts k).hdr.totalPkt = t.M := t.respMsg.fill_totalPkt _ _ k

/-- The response buffer takes packet `j` of a response of several packets. -/
theorem RespBuf.addLarge_fill (b : RespBuf) (t : TxMsg) (kind : MsgKind) (a : SendArgs) {j : ℕ}
    (hj : j < t.totalPkt)
    (hb : 0 < j → b = ⟨false, (List.range j).flatMap t.data, t.msgSize⟩) :
    b.addLarge ((t.fill kind a).pkts j).hdr (t.data j)
      = ⟨false, (List.range (j + 1)).flatMap t.data, t.msgSize⟩ := by
  unfold RespBuf.addLarge
  rw [t.fill_pktNum kind a j hj]
  rcases Nat.eq_zero_or_pos j with h0 | h0
  · rw [if_pos h0, h0]
    simp
  · rw [hb h0]
    simp [show j ≠ 0 by omega, List.range_succ]

/-- Packet `j` of the response joins the buffer. -/
theorem Core.addLarge (h : Core E v s q c) (hN : v.tr.N ≤ c + 1)
    (hj : c + 1 - v.tr.N < v.tr.M) :
    v.cs.resp.addLarge ((v.tr.respBuf E).pkts (c + 1 - v.tr.N)).hdr
        (v.tr.respMsg.data (c + 1 - v.tr.N))
      = ⟨false, (List.range (c + 2 - v.tr.N)).flatMap v.tr.respMsg.data,
          v.tr.respMsg.msgSize⟩ := by
  rw [show c + 2 - v.tr.N = c + 1 - v.tr.N + 1 by omega]
  exact RespBuf.addLarge_fill _ _ _ _ hj fun hpos => h.resp (by omega)

/-- The fields of the slot after response packet `c + 1 - N`, but for `num_tx_`. -/
def View.gotResp (v : View) (c : ℕ) : CliSlot :=
  { v.cs with
    numRx := v.cs.numRx + 1
    resp := ⟨false, (List.range (c + 2 - v.tr.N)).flatMap v.tr.respMsg.data,
      v.tr.respMsg.msgSize⟩ }

/-- A response packet implies that all request packets were sent. -/
theorem Core.le_numTx (h : Core E v s q c) (hcq : c < q) (hN : v.tr.N ≤ c + 1) :
    v.tr.resp.isSome ∧ v.tr.N ≤ v.cs.numTx := by
  have hq := h.q_eq
  have hst := h.s_le
  split_ifs at hq with hr
  · exact ⟨hr, le_trans (h.whole hr) hst⟩
  · omega

/-- The RFRs that follow a response packet. -/
theorem kickRfr_after (h : Core E v s q c) (hcq : c < q) (hN : v.tr.N ≤ c + 1) {k : ℕ}
    (hb : x.slot.txMsgbuf = some v.tr.reqBuf) (hpos : 0 < x.credits)
    (htx : x.slot.numTx = v.cs.numTx) :
    (if x.slot.numTx ≠ wirePkts v.tr.reqBuf.hdr0.totalPkt ((v.tr.respBuf E).pkts k).hdr.totalPkt
      then kickRfr E.cli (some ((v.tr.respBuf E).pkts k).hdr) x else some x)
      = some (x.sent (v.tr.cliPkt E) (min x.credits (v.tr.N + v.tr.M - 1 - x.slot.numTx))) := by
  have htot : v.tr.reqBuf.hdr0.totalPkt = v.tr.N := v.tr.req.hdr0_totalPkt _ _
  have htotM : ((v.tr.respBuf E).pkts k).hdr.totalPkt = v.tr.M := v.tr.respMsg.fill_totalPkt _ _ k
  have hNpos := v.tr.N_pos
  have hMlt := v.tr.M_lt
  have hNlt := v.tr.N_lt
  unfold pkgIndexSize at hMlt hNlt
  have hlim := h.numTx_le
  have hlo := (h.le_numTx hcq hN).2
  have hwire : wirePkts v.tr.N v.tr.M = v.tr.N + v.tr.M - 1 := sizeSub_eq (by omega) (by omega)
  rw [htot, htotM, hwire]
  split_ifs with hne
  · exact kickRfr_core hb hpos (by omega) (by omega)
  · rw [show v.tr.N + v.tr.M - 1 - x.slot.numTx = 0 by omega, Nat.min_zero, CliCtx.sent_zero]

/-- The context in `process_resp_one_st` after the counters were updated. -/
def CliCtx.counted (x : CliCtx) : CliCtx :=
  { x with credits := x.credits + 1, slot := { x.slot with numRx := x.slot.numRx + 1 } }

/-- `process_resp_one_st` on a packet of a response of several packets. -/
theorem processRespOne_large {h : Pkthdr} {data : List UInt8} {b : MsgBuf} {e : Endpoint}
    (hcr : x.credits < kSessionCredits) (hb : x.slot.txMsgbuf = some b)
    (hl : ¬ h.msgSize ≤ kMaxDataPerPkt) :
    processRespOne e h data x
      = (if x.counted.slot.numTx ≠ wirePkts b.hdr0.totalPkt h.totalPkt
          then kickRfr e (some h) x.counted else some x.counted).map fun c =>
            if c.slot.numRx ≠ h.totalPkt then
              ({ c with slot := { c.slot with resp := c.slot.resp.addLarge h data } }, none)
            else giveUp c (c.slot.resp.addLarge h data) := by
  have hbind : ∀ {β : Type} (f : MsgBuf → Option β), x.slot.txMsgbuf.bind f = f b := by
    intro β f
    rw [hb, Option.bind_some]
  unfold processRespOne
  simp only [bumpCredits_eq hcr]
  rw [if_neg hl]
  exact hbind _

/-- **`process_resp_one_st`, more packets to come**: the credit comes back, and RFRs follow
while there are response packets to ask for. -/
theorem processRespOne_more (h : Core E v s q c) (hx : x.slot = v.cs) (hcq : c < q)
    (hN : v.tr.N ≤ c + 1) (hmore : c + 1 < v.tr.N + v.tr.M - 1)
    (hcr : x.credits < kSessionCredits) (stale : ℕ → UInt8) :
    ∃ n, n ≤ x.credits + 1 ∧ c + 1 < v.cs.numTx + n ∧
      processRespOne E.cli (v.tr.srvPkt E c).hdr (readBody stale (v.tr.srvPkt E c).payload
        (v.tr.srvPkt E c).hdr.thisMsgSize) x
        = some (({ x with credits := x.credits + 1, slot := v.gotResp c } : CliCtx).sent
          (v.tr.cliPkt E) n, none) ∧
      Core E (v.cliStep E (v.gotResp c) q c n) s q (c + 1) := by
  obtain ⟨cr, ok, sl, tx⟩ := x
  obtain rfl : sl = v.cs := hx
  have hqs := h.q_le
  have hst := h.s_le
  have hlim := h.numTx_le
  have hlarge : ¬ v.tr.respMsg.msgSize ≤ kMaxDataPerPkt := by
    rw [v.tr.respMsg.small_iff]
    show ¬ v.tr.M = 1
    omega
  have hkick := kickRfr_after h hcq hN (k := c + 1 - v.tr.N)
    (x := CliCtx.counted ⟨cr, ok, v.cs, tx⟩) h.buf (Nat.succ_pos _) rfl
  refine ⟨min (cr + 1) (v.tr.N + v.tr.M - 1 - v.cs.numTx), Nat.min_le_left _ _, by
    show c + 1 < _; omega, ?_, ?_⟩
  · rw [Trace.srvPkt_resp E hN, Trace.readBody_resp]
    rw [processRespOne_large hcr h.buf (by rw [Trace.respBuf_msgSize]; exact hlarge), hkick,
      Option.map_some]
    show some (if v.cs.numRx + 1 ≠ ((v.tr.respBuf E).pkts (c + 1 - v.tr.N)).hdr.totalPkt
      then (_, none) else giveUp _ (v.cs.resp.addLarge _ _)) = _
    rw [if_pos (by rw [Trace.respBuf_totalPkt, h.numRx]; omega), Option.some.injEq, Prod.mk.injEq]
    refine ⟨?_, rfl⟩
    show CliCtx.mk _ _ ⟨_, _, _, _, _, v.cs.resp.addLarge _ _⟩ _ = _
    rw [h.addLarge hN (by omega)]
    rfl
  · apply Core.kick (h.cliResp hcq hN hmore)
    show v.cs.numTx + _ ≤ v.tr.limit (c + 1)
    rw [Trace.limit_of_le hN]
    omega

/-- The buffer of a complete response: the payloads one after the other, announced with the
message size, or with the size of the only packet. -/
structure RespBuf.Holds (b : RespBuf) (msg : TxMsg) : Prop where
  nonempty : b.iovEmpty = false
  copied : b.copied = (List.range msg.totalPkt).flatMap msg.data
  iovLen : b.iovLen = if msg.totalPkt = 1 then (msg.data 0).length else msg.msgSize

/-- **`process_resp_one_st`, the last packet**: the slot is given up with a whole response, and
nothing of the RPC is left in the channels. -/
theorem processRespOne_last (h : Core E v s q c) (hx : x.slot = v.cs) (hcq : c < q)
    (hlast : c + 1 = v.tr.N + v.tr.M - 1) (hcr : x.credits < kSessionCredits)
    (stale : ℕ → UInt8) :
    ∃ buf : RespBuf, buf.Holds v.tr.respMsg ∧
      processRespOne E.cli (v.tr.srvPkt E c).hdr (readBody stale (v.tr.srvPkt E c).payload
        (v.tr.srvPkt E c).hdr.thisMsgSize) x
        = some ({ x with
            credits := x.credits + 1
            slot := { v.cs with numRx := 0, txMsgbuf := none, resp := buf } }, some buf) ∧
      v.tr.resp.isSome ∧ v.cs.numTx = v.tr.N + v.tr.M - 1 ∧ s = v.cs.numTx ∧ q = v.cs.numTx := by
  obtain ⟨cr, ok, sl, tx⟩ := x
  obtain rfl : sl = v.cs := hx
  have hqs := h.q_le
  have hst := h.s_le
  have hlim := h.numTx_le
  have hMpos := v.tr.M_pos
  have hN : v.tr.N ≤ c + 1 := by omega
  have hj : c + 1 - v.tr.N = v.tr.M - 1 := by omega
  have hr := (h.le_numTx hcq hN).1
  rw [Trace.srvPkt_resp E hN, Trace.readBody_resp]
  by_cases hM : v.tr.M = 1
  · refine ⟨RespBuf.addSmall ((v.tr.respBuf E).pkts (c + 1 - v.tr.N)).hdr
      (v.tr.respMsg.data (c + 1 - v.tr.N)), ⟨rfl, ?_, ?_⟩, ?_, hr, by omega, by omega, by omega⟩
    · show v.tr.respMsg.data (c + 1 - v.tr.N) = (List.range v.tr.M).flatMap _
      rw [hj, hM]
      simp
    · show (v.tr.respMsg.data (c + 1 - v.tr.N)).length = if v.tr.M = 1 then _ else _
      rw [if_pos hM, hj, hM]
    · unfold processRespOne
      simp only [bumpCredits_eq (show CliCtx.credits ⟨cr, ok, v.cs, tx⟩ < _ from hcr)]
      rw [if_pos (by rw [Trace.respBuf_msgSize, v.tr.respMsg.small_iff]; exact hM)]
      rfl
  · have hlarge : ¬ v.tr.respMsg.msgSize ≤ kMaxDataPerPkt := by
      rw [v.tr.respMsg.small_iff]
      exact hM
    have hkick := kickRfr_after h hcq hN (k := c + 1 - v.tr.N)
      (x := CliCtx.counted ⟨cr, ok, v.cs, tx⟩) h.buf (Nat.succ_pos _) rfl
    rw [show v.tr.N + v.tr.M - 1 - (CliCtx.counted ⟨cr, ok, v.cs, tx⟩).slot.numTx = 0 by
      show v.tr.N + v.tr.M - 1 - v.cs.numTx = 0
      omega, Nat.min_zero, CliCtx.sent_zero] at hkick
    refine ⟨⟨false, (List.range (c + 2 - v.tr.N)).flatMap v.tr.respMsg.data,
      v.tr.respMsg.msgSize⟩, ⟨rfl, ?_, ?_⟩, ?_, hr, by omega, by omega, by omega⟩
    · show _ = (List.range v.tr.M).flatMap _
      rw [show c + 2 - v.tr.N = v.tr.M by omega]
    · show v.tr.respMsg.msgSize = if v.tr.M = 1 then _ else _
      rw [if_neg hM]
    · rw [processRespOne_large hcr h.buf (by rw [Trace.respBuf_msgSize]; exact hlarge), hkick,
        Option.map_some]
      show some (if v.cs.numRx + 1 ≠ ((v.tr.respBuf E).pkts (c + 1 - v.tr.N)).hdr.totalPkt
        then (_, none) else giveUp _ (v.cs.resp.addLarge _ _)) = _
      rw [if_neg (by rw [Trace.respBuf_totalPkt, h.numRx]; omega), h.addLarge hN (by omega)]
      rfl

/-! ## The server -/

variable {y : SrvCtx} {preReq body : ℕ}

/-- What the server's slot and the lists of the context are after request packet `s`. -/
structure TookReq (E : Env) (t : Trace) (s : ℕ) (y y' : SrvCtx) : Prop where
  tx : y'.tx = y.tx ++ crFor E t s
  calls : y'.calls.length - y.calls.length
    = if s + 1 = t.N ∧ E.fn t.reqBuf.hdr0.reqType = .kForeground then 1 else 0
  curReqNum : y'.slot.curReqNum = t.reqBuf.hdr0.reqNum
  counted : s + 1 < t.N → y'.slot.numRx = s + 1 ∧ y'.slot.reqIov.iovEnd ≤ s + 1 ∧
    y'.slot.reqIov.iovBegin ≤ s + 1
  type : s + 1 = t.N → y'.slot.reqType = t.reqBuf.hdr0.reqType
  capacity : y'.slot.reqIov.capacity < 2 ^ 16

/-- Request packet `s` in the terms of the protocol. -/
theorem TookPkt.tookReq {t : Trace} {y' : SrvCtx} (h : TookPkt E.srv E.fn t.req t.args s y y') :
    TookReq E t s y y' where
  tx := by
    rw [h.tx]
    unfold crFor
    rw [show t.req.totalPkt = t.N from rfl]
    by_cases hs : s + 1 < t.N
    · rw [if_pos hs, if_pos hs, Trace.srvPkt_cr E hs]
      rfl
    · rw [if_neg hs, if_neg hs]
  calls := by
    have hiff : (s + 1 = t.N ∧ E.fn t.reqBuf.hdr0.reqType = .kForeground) ↔
        (s + 1 = t.req.totalPkt ∧ E.fn (t.args.reqType % 2 ^ 8) = .kForeground) := Iff.rfl
    rw [h.calls, if_congr hiff rfl rfl]
    split_ifs <;> simp
  curReqNum := h.curReqNum
  counted := fun hs =>
    ⟨(h.assembling hs).numRx, (h.assembling hs).iovEnd, (h.assembling hs).iovBegin⟩
  type := h.type
  capacity := h.capacity

/-- **A request packet at the server.** -/
theorem recvSlot_req (preReq body : ℕ) (h : Core E v s q c) (hy : y.slot = v.ss) (hN : s < v.tr.N)
    (hcap : v.ss.reqIov.capacity < 2 ^ 16) :
    ∃ y', Srv.recvSlot E.srv E.fn preReq body (v.tr.cliPkt E s).hdr y = some y' ∧
      TookReq E v.tr s y y' := by
  have hasm : 0 < s → Assembling v.tr.args s y.slot := by
    intro hpos
    obtain ⟨hrx, hend, hbeg⟩ := h.srv.counted hpos hN
    rw [hy]
    exact ⟨h.srv.started hpos, hrx, hend, hbeg⟩
  have hk : s < v.tr.req.totalPkt := hN
  obtain ⟨y', hrecv, htook⟩ := recvSlot_took E.srv E.fn preReq body hk hasm
    (by rw [hy]; exact hcap)
  rw [Trace.cliPkt_req E hN]
  exact ⟨y', hrecv, htook.tookReq⟩

/-- **An RFR at the server**: the response packet asked for is the next one. -/
theorem recvSlot_rfr (preReq body : ℕ) (h : Core E v s q c) (hy : y.slot = v.ss) (hs : s < v.cs.numTx)
    (hN : v.tr.N ≤ s) :
    Srv.recvSlot E.srv E.fn preReq body (v.tr.cliPkt E s).hdr y = some { y with
      slot := { v.ss with numRx := v.ss.numRx + 1 }
      tx := y.tx ++ [v.tr.srvPkt E s] } := by
  obtain ⟨sl, tx, calls, bg⟩ := y
  obtain rfl : sl = v.ss := hy
  have hlim := h.limit
  have hle : v.tr.N ≤ c := by
    by_contra hlt
    rw [Trace.limit_of_lt (by omega)] at hlim
    omega
  obtain ⟨hbuf, hsav⟩ := h.srv.answered (h.answered_of_le hle)
  have hM := v.tr.M_lt
  unfold pkgIndexSize at hM
  rw [Trace.limit_of_le hle] at hlim
  have hnum : (v.tr.cliPkt E s).hdr.pktNum = s - v.tr.N + 1 := by
    rw [Trace.cliPkt_num E (by omega), if_neg (by omega)]
  have hidx : respNtoi (s - v.tr.N + 1) 1 = s + 1 - v.tr.N := by
    unfold respNtoi
    rw [sizeSub_eq (le_refl 1) (by omega), sizeSub_eq (by omega) (by omega)]
    omega
  unfold Srv.recvSlot
  rw [show (v.tr.cliPkt E s).hdr.pktType = .kRFR by
    rw [Trace.cliPkt_type, if_neg (by omega)]]
  show Option.map _ v.ss.txMsgbuf = _
  rw [hbuf, Option.map_some, Trace.srvPkt_resp E (by omega)]
  simp only [hsav, hnum, hidx]

end HuiRpc
