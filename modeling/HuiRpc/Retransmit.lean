/-
# Retransmission after a packet loss

`pkt_loss_retransmit_st` takes back the credits of the packets that it thinks are lost,
`num_tx_ - num_rx_` of them, and starts again at packet `num_rx_`.  It supposes that `num_rx_`
counts all packets that were acknowledged.  But the increment of `num_rx_` in
`process_expl_cr_st` is commented out, so that `num_rx_` counts response packets only, and so is
the call of `kick_rfr_st` for a slot that has sent its request.

* Credit returns and responses arrive in order or are lost: every packet that arrives acknowledges
  a later packet of the client than those before (`CliRun.Acks`).
* Credit return `k` acknowledges request packet `k`, response packet `j` the last request packet or
  RFR `j`; in the order of sending this is packet `N - 1 + j` (`ackNum`).
* Nothing is in the timing wheel (`kick_req_st` does not use it), so the branch for packets in the
  wheel is left out.

`retransmit_exact_iff` — the rollback is right exactly if nothing was acknowledged since the request
was started, or nothing is to be done.
-/
import HuiRpc.ClientOrder

namespace HuiRpc

open Runs

/-! ## The function -/

/-- `pkt_loss_retransmit_st`. -/
def pktLossRetransmit (x : CliCtx) : Option CliCtx :=
  let delta := sizeSub x.slot.numTx x.slot.numRx
  let x := x.assert (x.credits + delta ≤ kSessionCredits)
  if delta = 0 then some x
  else
    let x := { x with
      credits := x.credits + delta
      slot := { x.slot with numTx := x.slot.numRx } }
    x.slot.txMsgbuf.bind fun b => if reqPktsPending x.slot b then kickReq x else some x

/-- The number of the client's packet that a header acknowledges, for a request of `N` packets. -/
def ackNum (N : ℕ) (h : Pkthdr) : ℕ :=
  if h.pktType = .kExplCR then h.pktNum else N - 1 + h.pktNum

/-- The number of a packet of the client: request packets first, then RFRs. -/
def sendNum (N : ℕ) (p : WirePkt) : ℕ :=
  if p.hdr.pktType = .kReq then p.hdr.pktNum else N - 1 + p.hdr.pktNum

/-- `w` is the first number that is not among `acks`. -/
def FirstMissing (acks : List ℕ) (w : ℕ) : Prop := w ∉ acks ∧ ∀ v < w, v ∈ acks

inductive RetxAct
  | act (a : CliAct)
  | retransmit (i : ℕ)

namespace CliRun

/-- Packets of the request in slot `i`. -/
def reqPkts (s : CliRun) (i : ℕ) : ℕ := (s.cli.slots i).txMsgbuf.elim 0 MsgBuf.totalPkg

/-- The packets of slot `i` that were acknowledged. -/
def acks (s : CliRun) (i : ℕ) : List ℕ := (s.rcvd i).map (ackNum (s.reqPkts i))

/-- The packet arrives in order: it acknowledges a packet of the current request that is out, and a
later one than the packets before. -/
def Acks (s : CliRun) (h : Pkthdr) : Prop :=
  s.Busy (slotOf h) ∧ h.reqNum = (s.cli.slots (slotOf h)).curReqNum % 2 ^ 32 ∧
    ((h.pktType = .kExplCR ∧ h.pktNum + 1 < s.reqPkts (slotOf h)) ∨ h.pktType = .kResp) ∧
    ackNum (s.reqPkts (slotOf h)) h < (s.cli.slots (slotOf h)).numTx ∧
    ∀ v ∈ s.acks (slotOf h), v < ackNum (s.reqPkts (slotOf h)) h

/-- Nothing of the request of slot `i` was acknowledged, or `num_rx_` packets are all that was
sent. -/
def Fresh (s : CliRun) (i : ℕ) : Prop :=
  (s.cli.slots i).numTx = (s.cli.slots i).numRx ∨ s.rcvd i = []

def retxStep (e : Endpoint) (s : CliRun) : RetxAct → Option CliRun
  | .act a => s.step e a
  | .retransmit i => (pktLossRetransmit (s.cli.ctx i)).map fun x => { s with cli := s.cli.put i x }

/-- Packets arrive in order or not at all, and a slot is rolled back when it is fresh. -/
def InOrderOrLost (s : CliRun) : RetxAct → Prop
  | .act (.enqueue _ _ _) => True
  | .act (.deliver _ p) => s.Acks p.hdr
  | .act .stall => True
  | .retransmit i => i < kSessionReqWindow ∧ s.Busy i ∧ s.Fresh i

instance (s : CliRun) (h : Pkthdr) : Decidable (s.Acks h) :=
  inferInstanceAs (Decidable (_ ∧ _ ∧ ((_ ∧ _) ∨ _) ∧ _ ∧ ∀ v ∈ s.acks (slotOf h), v < _))

instance (s : CliRun) (i : ℕ) : Decidable (s.Fresh i) :=
  inferInstanceAs (Decidable (_ = _ ∨ s.rcvd i = []))

instance (s : CliRun) (a : RetxAct) : Decidable (s.InOrderOrLost a) :=
  match a with
  | .act (.enqueue _ _ _) => isTrue trivial
  | .act (.deliver _ p) => inferInstanceAs (Decidable (s.Acks p.hdr))
  | .act .stall => isTrue trivial
  | .retransmit i => inferInstanceAs (Decidable (_ ∧ s.Busy i ∧ s.Fresh i))

/-- **What a rollback of slot `i` should do.**  The assertion holds; the session gets back the
credits of the packets that are not acknowledged, less those it spends on `pkts`; and if there are
such packets, sending goes on with the first of them. -/
def RollsBack (s : CliRun) (i : ℕ) : Prop :=
  s.cli.credits + sizeSub (s.cli.slots i).numTx (s.cli.slots i).numRx ≤ kSessionCredits ∧
    ∃ x pkts, pktLossRetransmit (s.cli.ctx i) = some x ∧ x.tx = s.cli.tx ++ pkts ∧
      x.credits + pkts.length = s.cli.credits + s.out i ∧
      (s.out i ≠ 0 → ∃ w, FirstMissing (s.acks i) w ∧
        pkts.head?.map (sendNum (s.reqPkts i)) = some w)

end CliRun

/-! ## What the function does -/

section Function

variable {x : CliCtx} {msg : TxMsg} {a : SendArgs}

/-- The state from which transmission goes on. -/
def rolledBack (x : CliCtx) : CliCtx :=
  { x.assert (x.credits + (x.slot.numTx - x.slot.numRx) ≤ kSessionCredits) with
    credits := x.credits + (x.slot.numTx - x.slot.numRx)
    slot := { x.slot with numTx := x.slot.numRx } }

theorem pktLossRetransmit_idle (heq : x.slot.numTx = x.slot.numRx) :
    pktLossRetransmit x = some (x.assert (x.credits + 0 ≤ kSessionCredits)) := by
  have hzero : sizeSub x.slot.numTx x.slot.numRx = 0 := by
    rw [heq, sizeSub_of_sub_lt le_rfl (by rw [Nat.sub_self]; decide), Nat.sub_self]
  unfold pktLossRetransmit
  simp only [hzero]
  rfl

/-- Request packets are sent again, from packet `num_rx_` on. -/
theorem pktLossRetransmit_req (hb : x.slot.txMsgbuf = some (msg.fill .request a))
    (hlt : x.slot.numRx < x.slot.numTx) (hdelta : x.slot.numTx - x.slot.numRx < 2 ^ 64)
    (hrx : x.slot.numRx < msg.totalPkt) :
    pktLossRetransmit x = some ((rolledBack x).sent (msg.fill .request a).pkts
      (min (rolledBack x).credits (msg.totalPkt - x.slot.numRx))) := by
  have hsub := sizeSub_of_sub_lt hlt.le hdelta
  have hN := msg.lt
  unfold pkgIndexSize at hN
  have hkick := kickReq_eq (c := rolledBack x) (b := msg.fill .request a) hb
    (show 0 < x.credits + (x.slot.numTx - x.slot.numRx) by omega)
    (show x.slot.numRx ≤ (msg.fill .request a).hdr0.totalPkt by
      rw [TxMsg.hdr0_totalPkt]
      omega)
    (by rw [TxMsg.hdr0_totalPkt]; omega)
  unfold pktLossRetransmit
  simp only [hsub]
  rw [if_neg (by omega)]
  show Option.bind x.slot.txMsgbuf _ = _
  rw [hb]
  have hpending : reqPktsPending (rolledBack x).slot (msg.fill .request a) := hrx
  exact (if_pos hpending).trans hkick

/-- After the request packets nothing is sent. -/
theorem pktLossRetransmit_rfr (hb : x.slot.txMsgbuf = some (msg.fill .request a))
    (hlt : x.slot.numRx < x.slot.numTx) (hdelta : x.slot.numTx - x.slot.numRx < 2 ^ 64)
    (hrx : msg.totalPkt ≤ x.slot.numRx) : pktLossRetransmit x = some (rolledBack x) := by
  have hsub := sizeSub_of_sub_lt hlt.le hdelta
  unfold pktLossRetransmit
  simp only [hsub]
  rw [if_neg (by omega)]
  show Option.bind x.slot.txMsgbuf _ = _
  rw [hb]
  have hpending : ¬ reqPktsPending (rolledBack x).slot (msg.fill .request a) := not_lt.mpr hrx
  exact if_neg hpending

end Function

/-! ## What the acknowledgements say -/

/-- A slot and the headers processed for its request. -/
structure SlotAcks (slot : CliSlot) (rs : List Pkthdr) (msg : TxMsg) (a : SendArgs) : Prop where
  buf : slot.txMsgbuf = some (msg.fill .request a)
  numRx : slot.numRx = rs.countP (·.pktType = .kResp)
  kinds : ∀ h ∈ rs, (h.pktType = .kExplCR ∧ h.pktNum + 1 < msg.totalPkt) ∨ h.pktType = .kResp
  sorted : (rs.map (ackNum msg.totalPkt)).Pairwise (· < ·)
  sent : ∀ h ∈ rs, ackNum msg.totalPkt h < slot.numTx

/-- Different numbers below `n` are at most `n`. -/
theorem length_le_of_sorted {l : List ℕ} {n : ℕ} (hs : l.Pairwise (· < ·)) (hn : ∀ v ∈ l, v < n) :
    l.length ≤ n := by
  have hnodup : l.Nodup := hs.imp fun h => Nat.ne_of_lt h
  have hsub : l ⊆ List.range n := fun v hv => List.mem_range.mpr (hn v hv)
  have hlen := (List.subperm_of_subset hnodup hsub).length_le
  rwa [List.length_range] at hlen

namespace SlotAcks

variable {slot slot' : CliSlot} {rs : List Pkthdr} {msg : TxMsg} {a : SendArgs}

/-- Responses and credit returns make up all headers. -/
theorem length_eq (h : SlotAcks slot rs msg a) :
    rs.length = slot.numRx + rs.countP (·.pktType = .kExplCR) := by
  have hor : ∀ x ∈ rs, x.pktType = .kExplCR ↔ ¬ x.pktType = .kResp := by
    intro x hx
    rcases h.kinds x hx with ⟨hcr, -⟩ | hresp
    · rw [hcr]
      decide
    · rw [hresp]
      decide
  have hcr : rs.countP (·.pktType = .kExplCR)
      = rs.countP fun x => ¬ decide (x.pktType = .kResp) = true :=
    List.countP_congr fun x hx => by simpa using hor x hx
  rw [h.numRx, hcr]
  exact List.length_eq_countP_add_countP _

/-- At most one credit return for every request packet but the last. -/
theorem countP_cr_lt (h : SlotAcks slot rs msg a) :
    rs.countP (·.pktType = .kExplCR) < pkgIndexSize := by
  rw [List.countP_eq_length_filter]
  have hsorted := h.sorted.sublist ((List.filter_sublist (l := rs)
    (p := fun x => decide (x.pktType = .kExplCR))).map _)
  have hlen := length_le_of_sorted (n := msg.totalPkt) hsorted (by
    intro v hv
    obtain ⟨x, hx, rfl⟩ := List.mem_map.mp hv
    obtain ⟨hmem, hty⟩ := List.mem_filter.mp hx
    have hcr : x.pktType = .kExplCR := of_decide_eq_true hty
    unfold ackNum
    rw [if_pos hcr]
    rcases h.kinds x hmem with ⟨-, hlt⟩ | hresp
    · omega
    · rw [hcr] at hresp
      cases hresp)
  rw [List.length_map] at hlen
  exact lt_of_le_of_lt hlen msg.lt

/-- Another packet was sent, and the rest of the slot is as it was. -/
theorem more (h : SlotAcks slot rs msg a) (hbuf : slot'.txMsgbuf = slot.txMsgbuf)
    (hrx : slot'.numRx = slot.numRx) (htx : slot.numTx ≤ slot'.numTx) :
    SlotAcks slot' rs msg a where
  buf := hbuf.trans h.buf
  numRx := hrx.trans h.numRx
  kinds := h.kinds
  sorted := h.sorted
  sent := fun x hx => lt_of_lt_of_le (h.sent x hx) htx

/-- One more header, in order. -/
theorem snoc {hd : Pkthdr} (h : SlotAcks slot rs msg a) (hbuf : slot'.txMsgbuf = slot.txMsgbuf)
    (hrx : slot'.numRx = slot.numRx + if hd.pktType = .kResp then 1 else 0)
    (htx : slot.numTx ≤ slot'.numTx)
    (hkind : (hd.pktType = .kExplCR ∧ hd.pktNum + 1 < msg.totalPkt) ∨ hd.pktType = .kResp)
    (hout : ackNum msg.totalPkt hd < slot.numTx)
    (hlater : ∀ v ∈ rs.map (ackNum msg.totalPkt), v < ackNum msg.totalPkt hd) :
    SlotAcks slot' (rs ++ [hd]) msg a where
  buf := hbuf.trans h.buf
  numRx := by
    rw [hrx, h.numRx, List.countP_append, List.countP_singleton]
    simp only [decide_eq_true_eq]
  kinds := by
    intro x hx
    rcases List.mem_append.mp hx with hx | hx
    · exact h.kinds x hx
    · rw [List.mem_singleton.mp hx]
      exact hkind
  sorted := by
    rw [List.map_append]
    refine List.pairwise_append.mpr ⟨h.sorted, List.pairwise_singleton _ _, ?_⟩
    intro v hv w hw
    rw [List.mem_singleton.mp hw]
    exact hlater v hv
  sent := by
    intro x hx
    rcases List.mem_append.mp hx with hx | hx
    · exact lt_of_lt_of_le (h.sent x hx) htx
    · rw [List.mem_singleton.mp hx]
      exact lt_of_lt_of_le hout htx

end SlotAcks

/-! ## The invariant -/

/-- The credits, and what was acknowledged of the request of every slot. -/
structure RetxInv (s : CliRun) : Prop where
  client : ClientInv s
  acks : ∀ i, s.Busy i → ∃ msg a, SlotAcks (s.cli.slots i) (s.rcvd i) msg a

variable {s s' : CliRun} {e : Endpoint} {i n : ℕ} {x : CliCtx}

theorem RetxInv.init : RetxInv CliRun.init :=
  ⟨ClientInv.init, fun i hb => absurd hb (CliRun.not_busy_init i)⟩

theorem SlotAcks.reqPkts {msg : TxMsg} {a : SendArgs}
    (h : SlotAcks (s.cli.slots i) (s.rcvd i) msg a) : s.reqPkts i = msg.totalPkt := by
  unfold CliRun.reqPkts
  rw [h.buf]
  rfl

/-- Slots that were kicked, and no others, have sent more. -/
theorem RetxInv.sentMore (hinv : RetxInv s) (hclient : ClientInv s') (hrcvd : s'.rcvd = s.rcvd)
    (hslots : ∀ j, (s'.cli.slots j).txMsgbuf = (s.cli.slots j).txMsgbuf ∧
      (s'.cli.slots j).numRx = (s.cli.slots j).numRx ∧
      (s.cli.slots j).numTx ≤ (s'.cli.slots j).numTx) : RetxInv s' := by
  refine ⟨hclient, fun j hb => ?_⟩
  obtain ⟨hbuf, hrx, htx⟩ := hslots j
  unfold CliRun.Busy at hb
  rw [hbuf] at hb
  obtain ⟨msg, a, hacks⟩ := hinv.acks j hb
  rw [hrcvd]
  exact ⟨msg, a, hacks.more hbuf hrx htx⟩

theorem RetxInv.stallStep (hinv : RetxInv s) (hs : s.step e .stall = some s') : RetxInv s' := by
  have hclient := hinv.client.stallStep hs
  obtain ⟨c, hc, rfl⟩ := Option.map_eq_some_iff.mp hs
  obtain ⟨⟨c', kept⟩, hl, rfl⟩ := Option.map_eq_some_iff.mp hc
  exact hinv.sentMore hclient rfl (stallLoop_sentOn s.cli.stallq s.cli [] c' kept hl).slot

/-- A new request has no acknowledgement. -/
theorem RetxInv.enqueue {reqType lkey : ℕ} {msg : TxMsg} (hinv : RetxInv s)
    (hs : s.step e (.enqueue reqType lkey msg) = some s') : RetxInv s' := by
  have hclient := hinv.client.enqueue hs
  obtain ⟨c, hc, rfl⟩ := Option.map_eq_some_iff.mp hs
  refine ⟨hclient, ?_⟩
  unfold Cli.enqueueRequest at hc
  cases hfree : s.cli.freeVec with
  | nil =>
    rw [hfree] at hc
    obtain rfl := Option.some.inj hc
    exact hinv.acks
  | cons i rest =>
    rw [hfree] at hc
    -- the slot with the new request, before anything is sent
    have hfilled : ∀ j, (s.filled e i rest reqType lkey msg).Busy j →
        ∃ m a, SlotAcks ((s.filled e i rest reqType lkey msg).cli.slots j)
          (Function.update s.rcvd i [] j) m a := by
      intro j hb
      by_cases hj : j = i
      · subst hj
        have hself : (s.filled e j rest reqType lkey msg).cli.slots j
            = Cli.fillSlot e reqType lkey msg s.next (s.cli.slots j) := Function.update_self ..
        rw [hself, Function.update_self]
        exact ⟨msg, _, rfl, rfl, fun _ hx => absurd hx List.not_mem_nil, List.Pairwise.nil,
          fun _ hx => absurd hx List.not_mem_nil⟩
      · have hother : (s.filled e i rest reqType lkey msg).cli.slots j = s.cli.slots j :=
          Function.update_of_ne hj _ _
        unfold CliRun.Busy at hb
        rw [hother] at hb ⊢
        rw [Function.update_of_ne hj]
        exact hinv.acks j hb
    dsimp only at hc
    split_ifs at hc with hpos
    · obtain ⟨y, hy, rfl⟩ := Option.map_eq_some_iff.mp hc
      obtain ⟨n, hk⟩ := kickReq_kicked hy
      intro j hb
      obtain ⟨hbuf, hrx, htx⟩ := hk.sentOn.slot j
      have hb' : (s.filled e i rest reqType lkey msg).Busy j := by
        exact (congrArg Option.isSome hbuf).symm.trans hb
      obtain ⟨m, a, hacks⟩ := hfilled j hb'
      exact ⟨m, a, hacks.more hbuf hrx htx⟩
    · obtain rfl := Option.some.inj hc
      exact hfilled

/-- **A packet that arrives in order.** -/
theorem RetxInv.deliver {stale : ℕ → UInt8} {p : WirePkt} (hinv : RetxInv s)
    (hg : s.Acks p.hdr) (hs : s.step e (.deliver stale p) = some s') : RetxInv s' := by
  obtain ⟨hbusy, -, hkind, hout, hlater⟩ := hg
  obtain ⟨msg, a, hacks⟩ := hinv.acks _ hbusy
  rw [CliRun.acks, hacks.reqPkts] at hlater
  rw [hacks.reqPkts] at hkind hout
  -- fewer acknowledgements than packets out, so the credit that comes back was one that was spent
  have hlen := length_le_of_sorted hacks.sorted hlater
  rw [List.length_map] at hlen
  have hclient := hinv.client.deliver hbusy (by omega) hs
  obtain ⟨c, hc, rfl⟩ := Option.map_eq_some_iff.mp hs
  obtain ⟨n, hr⟩ := Cli.recv_recvd hc
  refine ⟨hclient, fun j hb => ?_⟩
  by_cases hj : j = slotOf p.hdr
  · subst hj
    have hb' : (c.slots (slotOf p.hdr)).txMsgbuf.isSome = true := hb
    -- the slot goes on, or this was the last packet and the slot is free
    rcases hr.rest with ⟨hbuf, hrx, -, -⟩ | ⟨hbuf, -, -⟩
    · refine ⟨msg, a, ?_⟩
      show SlotAcks (c.slots _) (Function.update s.rcvd _ _ _) msg a
      rw [Function.update_self]
      exact hacks.snoc hbuf hrx (by rw [hr.numTx]; exact Nat.le_add_right _ _) hkind hout hlater
    · rw [hbuf] at hb'
      cases hb'
  · have hb' : (c.slots j).txMsgbuf.isSome = true := hb
    rw [hr.others j hj] at hb'
    show ∃ msg a, SlotAcks (c.slots j) (Function.update s.rcvd _ _ j) msg a
    rw [hr.others j hj, Function.update_of_ne hj]
    exact hinv.acks j hb'

/-- The packets out of a slot are at most as many as the credits of the session. -/
theorem ClientInv.out_le (h : ClientInv s) (hi : i < kSessionReqWindow) :
    s.cli.credits + s.out i ≤ kSessionCredits := by
  have hsum : s.out i ≤ ∑ j ∈ Finset.range kSessionReqWindow, s.out j :=
    Finset.single_le_sum (fun _ _ => Nat.zero_le _) (Finset.mem_range.mpr hi)
  have := h.credits
  omega

/-- **What is out of a slot**: `num_tx_ - num_rx_` also counts the packets for which a credit return
came. -/
theorem RetxInv.delta (hinv : RetxInv s) (hb : s.Busy i) {msg : TxMsg} {a : SendArgs}
    (hacks : SlotAcks (s.cli.slots i) (s.rcvd i) msg a) (hi : i < kSessionReqWindow) :
    (s.cli.slots i).numRx ≤ (s.cli.slots i).numTx ∧
      (s.cli.slots i).numTx - (s.cli.slots i).numRx
        = s.out i + (s.rcvd i).countP (·.pktType = .kExplCR) ∧
      (s.cli.slots i).numTx - (s.cli.slots i).numRx < 2 ^ 64 := by
  have hlen := hacks.length_eq
  have hcr := hacks.countP_cr_lt
  have hans := hinv.client.answers i hb
  have hout := CliRun.out_of_busy hb
  have hle := hinv.client.out_le hi
  unfold pkgIndexSize at hcr
  unfold kSessionCredits at hle
  refine ⟨by omega, by omega, by omega⟩

/-- Nothing was acknowledged: packet 0 and those behind it are sent again. -/
theorem RetxInv.retransmit_nil (hinv : RetxInv s) (hb : s.Busy i) (hi : i < kSessionReqWindow)
    {msg : TxMsg} {a : SendArgs} (hacks : SlotAcks (s.cli.slots i) (s.rcvd i) msg a)
    (hnil : s.rcvd i = []) (hne : (s.cli.slots i).numTx ≠ (s.cli.slots i).numRx) :
    ∃ m, 0 < m ∧ pktLossRetransmit (s.cli.ctx i)
        = some ((rolledBack (s.cli.ctx i)).sent (msg.fill .request a).pkts m) ∧
      m ≤ s.cli.credits + (s.cli.slots i).numTx ∧ (s.cli.slots i).numRx = 0 ∧
      s.out i = (s.cli.slots i).numTx := by
  obtain ⟨hle, hdelta, hlt⟩ := hinv.delta hb hacks hi
  have hrx : (s.cli.slots i).numRx = 0 := by
    rw [hacks.numRx, hnil]
    rfl
  have hout : s.out i = (s.cli.slots i).numTx := by
    rw [CliRun.out_of_busy hb, hnil]
    rfl
  have hpos := msg.pos
  refine ⟨_, ?_, pktLossRetransmit_req (x := s.cli.ctx i) hacks.buf
    (show (s.cli.slots i).numRx < (s.cli.slots i).numTx by omega) hlt
    (show (s.cli.slots i).numRx < msg.totalPkt by omega), ?_, hrx, hout⟩
  · show 0 < min (s.cli.credits + ((s.cli.slots i).numTx - (s.cli.slots i).numRx))
      (msg.totalPkt - (s.cli.slots i).numRx)
    omega
  · show min (s.cli.credits + ((s.cli.slots i).numTx - (s.cli.slots i).numRx))
      (msg.totalPkt - (s.cli.slots i).numRx) ≤ _
    omega

/-- **A rollback of a fresh slot.** -/
theorem RetxInv.retransmit (hinv : RetxInv s) (hi : i < kSessionReqWindow) (hb : s.Busy i)
    (hfresh : s.Fresh i) (hs : s.retxStep e (.retransmit i) = some s') : RetxInv s' := by
  obtain ⟨y, hy, rfl⟩ := Option.map_eq_some_iff.mp hs
  obtain ⟨msg, a, hacks⟩ := hinv.acks i hb
  by_cases heq : (s.cli.slots i).numTx = (s.cli.slots i).numRx
  · -- nothing to do
    have hidle := pktLossRetransmit_idle (x := s.cli.ctx i) heq
    obtain rfl := Option.some.inj (hidle.symm.trans hy)
    have hk : Kicked (s.cli.ctx i)
        ((s.cli.ctx i).assert ((s.cli.ctx i).credits + 0 ≤ kSessionCredits)) 0 :=
      ⟨Nat.zero_le _, rfl, rfl, List.prefix_refl _⟩
    exact hinv.sentMore (hinv.client.kick s.cli.stallq hi hb hk hinv.client.stall) rfl hk.sentOn.slot
  · have hnil := hfresh.resolve_left heq
    obtain ⟨m, -, hretx, hm, hrx, hout⟩ := hinv.retransmit_nil hb hi hacks hnil heq
    obtain rfl := Option.some.inj (hretx.symm.trans hy)
    set y := (rolledBack (s.cli.ctx i)).sent (msg.fill .request a).pkts m with hydef
    set t : CliRun := { s with cli := s.cli.put i y } with ht
    have hself : t.cli.slots i = y.slot := Function.update_self ..
    have hnum : (t.cli.slots i).numTx = m := by
      rw [hself]
      show (s.cli.slots i).numRx + m = m
      omega
    have hbuf : (t.cli.slots i).txMsgbuf = (s.cli.slots i).txMsgbuf := by
      rw [hself]
      rfl
    have hbt : t.Busy i := by
      unfold CliRun.Busy
      rw [hbuf]
      exact hb
    have hone : OneSlot s t i := {
      lt := hi
      slots := fun j hj => Function.update_of_ne hj _ _
      rcvd := fun _ _ => rfl
      credits := by
        rw [CliRun.out_of_busy hbt, hout, hnum, show t.rcvd i = [] from hnil]
        show s.cli.credits + ((s.cli.slots i).numTx - (s.cli.slots i).numRx) - m
          + (m - 0) ≤ _
        omega
      answers := by
        intro _
        rw [show t.rcvd i = [] from hnil]
        exact Nat.zero_le _
      stall := hinv.client.stall }
    refine ⟨hinv.client.moved hone (hinv.client.tickets.stay hone.sameBut hb hbt ?_), ?_⟩
    · show (t.cli.slots i).tag = _
      rw [hself]
      rfl
    · intro j hbj
      by_cases hj : j = i
      · subst hj
        refine ⟨msg, a, hbuf.trans hacks.buf, ?_, ?_, ?_, ?_⟩
        · rw [hself]
          exact hacks.numRx
        · exact hacks.kinds
        · exact hacks.sorted
        · intro h hh
          rw [show t.rcvd j = [] from hnil] at hh
          exact absurd hh List.not_mem_nil
      · have hold := hinv.acks j ((hone.busy_iff hj).mp hbj)
        rwa [← hone.slots j hj] at hold

theorem RetxInv.step {a : RetxAct} (hinv : RetxInv s) (hg : s.InOrderOrLost a)
    (hs : s.retxStep e a = some s') : RetxInv s' := by
  cases a with
  | act a =>
    cases a with
    | enqueue reqType lkey msg => exact hinv.enqueue hs
    | deliver stale p => exact hinv.deliver hg hs
    | stall => exact hinv.stallStep hs
  | retransmit i => exact hinv.retransmit hg.1 hg.2.1 hg.2.2 hs

/-! ## The rollback is right exactly for a fresh slot -/

/-- What a call returns: the credits of `num_tx_ - num_rx_` packets, and packets from `num_rx_` on. -/
theorem RetxInv.spec (hinv : RetxInv s) (hb : s.Busy i) (hi : i < kSessionReqWindow)
    {msg : TxMsg} {a : SendArgs} (hacks : SlotAcks (s.cli.slots i) (s.rcvd i) msg a) :
    ∃ y m, pktLossRetransmit (s.cli.ctx i) = some y ∧
      y.tx = s.cli.tx ++ (List.range' (s.cli.slots i).numRx m).map (msg.fill .request a).pkts ∧
      y.credits + m
        = s.cli.credits + ((s.cli.slots i).numTx - (s.cli.slots i).numRx) ∧
      (0 < m ↔ (s.cli.slots i).numRx < (s.cli.slots i).numTx ∧
        (s.cli.slots i).numRx < msg.totalPkt) := by
  obtain ⟨hle, -, hlt⟩ := hinv.delta hb hacks hi
  by_cases heq : (s.cli.slots i).numTx = (s.cli.slots i).numRx
  · refine ⟨_, 0, pktLossRetransmit_idle (x := s.cli.ctx i) heq, ?_, ?_, by omega⟩
    · show s.cli.tx = _
      simp
    · show s.cli.credits + 0 = _
      omega
  · have hless : (s.cli.slots i).numRx < (s.cli.slots i).numTx := by omega
    by_cases hrx : (s.cli.slots i).numRx < msg.totalPkt
    · refine ⟨_, _, pktLossRetransmit_req (x := s.cli.ctx i) hacks.buf hless hlt hrx, rfl, ?_, ?_⟩
      · show s.cli.credits + ((s.cli.slots i).numTx - (s.cli.slots i).numRx)
          - min (s.cli.credits + ((s.cli.slots i).numTx - (s.cli.slots i).numRx))
            (msg.totalPkt - (s.cli.slots i).numRx)
          + min (s.cli.credits + ((s.cli.slots i).numTx - (s.cli.slots i).numRx))
            (msg.totalPkt - (s.cli.slots i).numRx) = _
        omega
      · show 0 < min (s.cli.credits + ((s.cli.slots i).numTx - (s.cli.slots i).numRx))
          (msg.totalPkt - (s.cli.slots i).numRx) ↔ _
        omega
    · refine ⟨_, 0, pktLossRetransmit_rfr (x := s.cli.ctx i) hacks.buf hless hlt (not_lt.mp hrx),
        ?_, rfl, by omega⟩
      show s.cli.tx = _
      simp

/-- Sending goes on with packet `num_rx_`, or not at all. -/
theorem head_range' {msg : TxMsg} {a : SendArgs} {k m : ℕ} (hk : 0 < m → k < msg.totalPkt) :
    ((List.range' k m).map (msg.fill .request a).pkts).head?.map (sendNum msg.totalPkt)
      = if 0 < m then some k else none := by
  cases m with
  | zero => rfl
  | succ m =>
    rw [List.range'_succ, if_pos (Nat.succ_pos m), List.map_cons, List.head?_cons, Option.map_some]
    have hkind : ((msg.fill .request a).pkts k).hdr.pktType = .kReq := rfl
    unfold sendNum
    rw [if_pos hkind, msg.fill_pktNum _ _ k (hk (Nat.succ_pos m))]

/-- Responses do not acknowledge packet 0 of a request of several packets. -/
theorem zero_notMem_acks {N : ℕ} {rs : List Pkthdr} (hN : 1 < N)
    (hcr : rs.countP (·.pktType = .kExplCR) = 0) : 0 ∉ rs.map (ackNum N) := by
  intro hzero
  obtain ⟨h, hh, hack⟩ := List.mem_map.mp hzero
  have hresp : ¬ h.pktType = .kExplCR := by
    have := List.countP_eq_zero.mp hcr h hh
    simpa using this
  unfold ackNum at hack
  rw [if_neg hresp] at hack
  omega

/-- **The rollback.**  In every state that is reached with credit returns and responses delivered in
order or lost, and for every slot with a request, `pkt_loss_retransmit_st` keeps its assertion,
returns the credits of the packets that are not acknowledged and goes on with the first of them iff
nothing of the request was acknowledged, or nothing is to be done. -/
theorem retransmit_exact_iff {as : List RetxAct}
    (hrun : Run CliRun.InOrderOrLost (CliRun.retxStep e) CliRun.init as s)
    (hi : i < kSessionReqWindow) (hb : s.Busy i) : s.RollsBack i ↔ s.Fresh i := by
  have hinv : RetxInv s := hrun.invariant RetxInv.init fun _ _ _ hk hg hs => hk.step hg hs
  obtain ⟨msg, a, hacks⟩ := hinv.acks i hb
  obtain ⟨hle, hdelta, hlt⟩ := hinv.delta hb hacks hi
  obtain ⟨y, m, hretx, htx, hcredits, hm⟩ := hinv.spec hb hi hacks
  have hhead := head_range' (a := a) (k := (s.cli.slots i).numRx) (m := m) fun h => (hm.mp h).2
  have hcap := hinv.client.out_le hi
  have hlen := hacks.length_eq
  unfold CliRun.RollsBack CliRun.Fresh
  rw [sizeSub_of_sub_lt hle hlt, hacks.reqPkts]
  constructor
  · rintro ⟨-, y', pkts, hy', htx', hcr', hresume⟩
    obtain rfl := Option.some.inj (hretx.symm.trans hy')
    obtain rfl := List.append_cancel_left (htx.symm.trans htx')
    rw [List.length_map, List.length_range'] at hcr'
    by_contra hno
    rw [not_or] at hno
    -- no credit return came, so the headers are responses
    have hcr : (s.rcvd i).countP (·.pktType = .kExplCR) = 0 := by omega
    obtain ⟨w, hfirst, hw⟩ := hresume (by omega)
    rw [hhead] at hw
    split_ifs at hw with hpos
    obtain rfl := Option.some.inj hw
    have hrx : 0 < (s.cli.slots i).numRx := by
      have := List.length_pos_of_ne_nil hno.2
      omega
    -- packet 0 of the request was not acknowledged, so `num_rx_` is not the first such packet
    have hzero := hfirst.2 0 hrx
    rw [CliRun.acks, hacks.reqPkts] at hzero
    exact zero_notMem_acks (by omega) hcr hzero
  · rintro (heq | hnil)
    · have hout : s.out i = 0 := by omega
      refine ⟨by omega, y, _, hretx, htx, ?_, fun h => absurd hout h⟩
      rw [List.length_map, List.length_range']
      omega
    · have hcr : (s.rcvd i).countP (·.pktType = .kExplCR) = 0 := by
        rw [hnil]
        rfl
      refine ⟨by omega, y, _, hretx, htx, ?_, ?_⟩
      · rw [List.length_map, List.length_range']
        omega
      · intro hout
        have hrx : (s.cli.slots i).numRx = 0 := by
          rw [hacks.numRx, hnil]
          rfl
        have hpos : 0 < m := hm.mpr ⟨by omega, by rw [hrx]; exact msg.pos⟩
        refine ⟨(s.cli.slots i).numRx, ⟨?_, ?_⟩, ?_⟩
        · rw [CliRun.acks, hnil]
          exact List.not_mem_nil
        · intro v hv
          omega
        · rw [hhead, if_pos hpos]

/-- A request of two packets before anything of it was acknowledged, once rolled back already. -/
theorem retransmit_exact_twoPkts :
    ∃ s, Run CliRun.InOrderOrLost (CliRun.retxStep sampleEnv.cli) CliRun.init
        [.act (.enqueue 1 0 twoPkts), .retransmit 0] s ∧
      (s.cli.slots 0).numTx = 2 ∧ s.cli.credits = 30 ∧ s.RollsBack 0 := by
  have hexec : (exec CliRun.InOrderOrLost (CliRun.retxStep sampleEnv.cli) CliRun.init
      [.act (.enqueue 1 0 twoPkts), .retransmit 0]).map (fun s =>
        ((s.cli.slots 0).numTx, s.cli.credits, (s.cli.slots 0).txMsgbuf.isSome, s.rcvd 0))
        = some (2, 30, true, []) := by
    decide +kernel
  obtain ⟨s, hs, hval⟩ := Option.map_eq_some_iff.mp hexec
  simp only [Prod.mk.injEq] at hval
  obtain ⟨htx, hcr, hbusy, hrcvd⟩ := hval
  exact ⟨s, run_of_exec hs, htx, hcr,
    (retransmit_exact_iff (run_of_exec hs) (by decide) hbusy).mpr (Or.inr hrcvd)⟩

/-- **A rollback after a credit return.**  Of two request packets the first was acknowledged.  The
assertion fails: 31 credits and 2 packets are more than 32, where one packet is out. -/
theorem retransmit_after_cr :
    ∃ s, Run CliRun.InOrderOrLost (CliRun.retxStep sampleEnv.cli) CliRun.init
        [.act (.enqueue 1 0 twoPkts), .act (.deliver (fun _ => 0) sampleCr)] s ∧
      s.Busy 0 ∧ s.out 0 = 1 ∧
      s.cli.credits + sizeSub (s.cli.slots 0).numTx (s.cli.slots 0).numRx = 33 ∧
      ¬ s.RollsBack 0 := by
  have hexec : (exec CliRun.InOrderOrLost (CliRun.retxStep sampleEnv.cli) CliRun.init
      [.act (.enqueue 1 0 twoPkts), .act (.deliver (fun _ => 0) sampleCr)]).map (fun s =>
        ((s.cli.slots 0).txMsgbuf.isSome, s.out 0,
          s.cli.credits + sizeSub (s.cli.slots 0).numTx (s.cli.slots 0).numRx))
        = some (true, 1, 33) := by
    decide +kernel
  obtain ⟨s, hs, hval⟩ := Option.map_eq_some_iff.mp hexec
  simp only [Prod.mk.injEq] at hval
  obtain ⟨hbusy, hout, hsum⟩ := hval
  refine ⟨s, run_of_exec hs, hbusy, hout, hsum, fun hroll => ?_⟩
  have hle := hroll.1
  rw [hsum] at hle
  exact absurd hle (by decide)

end HuiRpc
