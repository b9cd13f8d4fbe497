/-
# The TX batch and the ring of control headers

`enqueue_pkt_tx_burst_st` and `enqueue_hdr_tx_burst_st` collect packets in `tx_burst_arr_`, and
`do_tx_burst_st` gives them to the transport when the array is full or when the event loop asks for
it.  An item only points at its packet.  A control packet is a header in a ring of
`2 * kUnsigBatch` headers: `enqueue_cr_st` and `enqueue_rfr_st` write the header at
`ctrl_msgbuf_head_` and move the head on, and the transport reads the header when it is given the
batch.

* The constructor of `Rpc` makes the control buffer `i` point at header `i`, so an item for a
  control packet is modelled by the index of its header.
* A data packet is what `enqueue_pkt_tx_burst_st` is given; its buffer is the caller's.
* `enqueued` records every packet with its contents at the time of the call.

`handed_as_enqueued` says that the transport gets exactly these packets, in this order.
-/
import HuiRpc.SendQueue
import HuiRpc.Server

namespace HuiRpc

/-! ## State -/

/-- `tx_burst_item_t`. -/
inductive BurstItem (D : Type)
  | data (pkt : D)
  | ctrl (index : ℕ)

/-- A packet with its contents. -/
inductive BurstPkt (D : Type)
  | data (pkt : D)
  | ctrl (hdr : Pkthdr)

/-- The batch, the control headers, and what the transport was given. -/
structure TxBatch (D : Type) where
  txBurstArr : List (BurstItem D)
  ctrlMsgbufsHdr : ℕ → Pkthdr
  ctrlMsgbufHead : ℕ
  handed : List (BurstPkt D)
  enqueued : List (BurstPkt D)

namespace TxBatch

variable {D : Type}

/-- `tx_batch_i_`. -/
def txBatchI (t : TxBatch D) : ℕ := t.txBurstArr.length

/-- After the constructor, which writes the `lkey` of the headers. -/
def init (hdrs : ℕ → Pkthdr) : TxBatch D := ⟨[], hdrs, 0, [], []⟩

/-- What the transport reads for an item. -/
def read (t : TxBatch D) : BurstItem D → BurstPkt D
  | .data p => .data p
  | .ctrl i => .ctrl (t.ctrlMsgbufsHdr i)

/-- `do_tx_burst_st`. -/
def doTxBurst (t : TxBatch D) : TxBatch D :=
  { t with handed := t.handed ++ t.txBurstArr.map t.read, txBurstArr := [] }

/-- The end of `enqueue_pkt_tx_burst_st` and of `enqueue_hdr_tx_burst_st`. -/
def add (item : BurstItem D) (t : TxBatch D) : TxBatch D :=
  let t := { t with txBurstArr := t.txBurstArr ++ [item] }
  if t.txBatchI = kPostlist then t.doTxBurst else t

/-- `enqueue_pkt_tx_burst_st`. -/
def enqueuePkt (p : D) (t : TxBatch D) : TxBatch D :=
  add (.data p) { t with enqueued := t.enqueued ++ [.data p] }

/-- A control packet: the header at the head of the ring is written, the rest of it stays. -/
def enqueueCtrl (hdr : Pkthdr → Pkthdr) (t : TxBatch D) : TxBatch D :=
  let index := t.ctrlMsgbufHead
  let head := if index + 1 = 2 * kUnsigBatch then 0 else index + 1
  let h := hdr (t.ctrlMsgbufsHdr index)
  add (.ctrl index) { t with
    ctrlMsgbufHead := head
    ctrlMsgbufsHdr := Function.update t.ctrlMsgbufsHdr index h
    enqueued := t.enqueued ++ [.ctrl h] }

/-- `enqueue_cr_st` on a session with the given number at its peer. -/
def enqueueCr (remoteSessionNum : ℕ) (req : Pkthdr) (t : TxBatch D) : TxBatch D :=
  t.enqueueCtrl fun ctrl => crHdr ⟨remoteSessionNum, ctrl⟩ req

/-- `enqueue_rfr_st`, for the response packet `pktNum`. -/
def enqueueRfr (remoteSessionNum : ℕ) (resp : Pkthdr) (pktNum : ℕ) (t : TxBatch D) : TxBatch D :=
  t.enqueueCtrl fun ctrl => rfrHdr ⟨remoteSessionNum, ctrl⟩ resp pktNum

/-- What the event loop and `drain_tx_batch_and_dma_queue` do. -/
def flush (t : TxBatch D) : TxBatch D := if 0 < t.txBatchI then t.doTxBurst else t

end TxBatch

/-- The calls that concern the batch. -/
inductive TxCall (D : Type)
  | pkt (p : D)
  | cr (remoteSessionNum : ℕ) (req : Pkthdr)
  | rfr (remoteSessionNum : ℕ) (resp : Pkthdr) (pktNum : ℕ)
  | flush

namespace TxBatch

variable {D : Type}

def step (t : TxBatch D) : TxCall D → TxBatch D
  | .pkt p => t.enqueuePkt p
  | .cr r req => t.enqueueCr r req
  | .rfr r resp n => t.enqueueRfr r resp n
  | .flush => t.flush

/-- A sequence of calls. -/
def calls (t : TxBatch D) (as : List (TxCall D)) : TxBatch D := as.foldl step t

/-! ## Control headers in the batch -/

/-- Control packets in a list of items. -/
def ctrls (items : List (BurstItem D)) : List ℕ :=
  items.filterMap fun
    | .data _ => none
    | .ctrl i => some i

/-- The indices `l` are the last ones that were used before the head, in order. -/
def BeforeHead (head : ℕ) : List ℕ → Prop
  | [] => True
  | i :: l => i < 2 * kUnsigBatch ∧ (i + (l.length + 1)) % (2 * kUnsigBatch) = head ∧ BeforeHead head l

theorem BeforeHead.snoc {head : ℕ} {l : List ℕ} (h : BeforeHead head l)
    (hhead : head < 2 * kUnsigBatch) :
    BeforeHead ((head + 1) % (2 * kUnsigBatch)) (l ++ [head]) := by
  induction l with
  | nil => exact ⟨hhead, rfl, trivial⟩
  | cons i l ih =>
    obtain ⟨hi, heq, hl⟩ := h
    refine ⟨hi, ?_, ih hl⟩
    show (i + ((l ++ [head]).length + 1)) % _ = _
    rw [List.length_append, List.length_singleton, ← heq]
    unfold kUnsigBatch
    omega

/-- With less than a turn of them in the batch, the head is not one of them. -/
theorem BeforeHead.ne_head {head : ℕ} {l : List ℕ} (h : BeforeHead head l)
    (hlen : l.length < 2 * kUnsigBatch) {i : ℕ} (hi : i ∈ l) : i ≠ head := by
  induction l with
  | nil => exact absurd hi List.not_mem_nil
  | cons j l ih =>
    obtain ⟨hj, heq, hl⟩ := h
    rw [List.length_cons] at hlen
    rcases List.mem_cons.mp hi with rfl | hi
    · -- the first index is 1 to 127 behind the head
      unfold kUnsigBatch at *
      omega
    · exact ih hl (by omega) hi

/-- **The invariant of the batch.**  It has room for a packet, its control packets were the last
ones, and what the transport was given and would be given now is what was enqueued. -/
structure Inv (t : TxBatch D) : Prop where
  room : t.txBatchI < kPostlist
  head : t.ctrlMsgbufHead < 2 * kUnsigBatch
  recent : BeforeHead t.ctrlMsgbufHead (ctrls t.txBurstArr)
  order : t.handed ++ t.txBurstArr.map t.read = t.enqueued

theorem inv_init (hdrs : ℕ → Pkthdr) : (init hdrs : TxBatch D).Inv :=
  ⟨show 0 < kPostlist by decide, show 0 < 2 * kUnsigBatch by decide, trivial, rfl⟩

theorem Inv.doTxBurst {t : TxBatch D} (hhead : t.ctrlMsgbufHead < 2 * kUnsigBatch)
    (horder : t.handed ++ t.txBurstArr.map t.read = t.enqueued) : t.doTxBurst.Inv :=
  ⟨show 0 < kPostlist by decide, hhead, trivial, by
    show t.handed ++ t.txBurstArr.map t.read ++ [] = t.enqueued
    rw [List.append_nil, horder]⟩

/-- An item is added; the batch is given away when it is full. -/
theorem Inv.add {t : TxBatch D} {item : BurstItem D} (hroom : t.txBatchI < kPostlist)
    (hhead : t.ctrlMsgbufHead < 2 * kUnsigBatch)
    (hrecent : BeforeHead t.ctrlMsgbufHead (ctrls (t.txBurstArr ++ [item])))
    (horder : t.handed ++ (t.txBurstArr ++ [item]).map t.read = t.enqueued) : (t.add item).Inv := by
  unfold TxBatch.add
  dsimp only
  split_ifs with hfull
  · exact Inv.doTxBurst hhead horder
  · refine ⟨?_, hhead, hrecent, horder⟩
    have hlen : (t.txBurstArr ++ [item]).length = t.txBatchI + 1 := by
      rw [List.length_append, List.length_singleton, txBatchI]
    change ¬ (t.txBurstArr ++ [item]).length = kPostlist at hfull
    show (t.txBurstArr ++ [item]).length < kPostlist
    omega

theorem Inv.enqueuePkt {t : TxBatch D} (h : t.Inv) (p : D) : (t.enqueuePkt p).Inv := by
  apply Inv.add
  · exact h.room
  · exact h.head
  · show BeforeHead t.ctrlMsgbufHead (ctrls (t.txBurstArr ++ [.data p]))
    have hctrls : ctrls (t.txBurstArr ++ [.data p]) = ctrls t.txBurstArr := by
      simp [ctrls]
    rw [hctrls]
    exact h.recent
  · show t.handed ++ (t.txBurstArr ++ [BurstItem.data p]).map t.read = t.enqueued ++ [.data p]
    rw [List.map_append, ← List.append_assoc, h.order]
    rfl

theorem mem_ctrls {items : List (BurstItem D)} {i : ℕ} (h : BurstItem.ctrl i ∈ items) :
    i ∈ ctrls items :=
  List.mem_filterMap.mpr ⟨_, h, rfl⟩

theorem length_ctrls_le (items : List (BurstItem D)) : (ctrls items).length ≤ items.length :=
  List.length_filterMap_le _ _

/-- **A control packet.**  The header that is written belongs to no packet of the batch. -/
theorem Inv.enqueueCtrl {t : TxBatch D} (h : t.Inv) (hdr : Pkthdr → Pkthdr) :
    (t.enqueueCtrl hdr).Inv := by
  have hroom := h.room
  -- a batch has fewer packets than the ring has headers
  have hlen : (ctrls t.txBurstArr).length < 2 * kUnsigBatch := by
    have hle := length_ctrls_le t.txBurstArr
    unfold txBatchI kPostlist at hroom
    unfold kUnsigBatch
    omega
  -- the head is moved by a comparison, which is the remainder for a head inside the ring
  have hnext : (if t.ctrlMsgbufHead + 1 = 2 * kUnsigBatch then 0 else t.ctrlMsgbufHead + 1)
      = (t.ctrlMsgbufHead + 1) % (2 * kUnsigBatch) := by
    have hhead := h.head
    unfold kUnsigBatch at hhead ⊢
    split_ifs with hlast <;> omega
  unfold TxBatch.enqueueCtrl
  simp only [hnext]
  apply Inv.add
  · exact hroom
  · exact Nat.mod_lt _ (by decide)
  · show BeforeHead _ (ctrls (t.txBurstArr ++ [.ctrl t.ctrlMsgbufHead]))
    have hctrls : ctrls (t.txBurstArr ++ [.ctrl t.ctrlMsgbufHead])
        = ctrls t.txBurstArr ++ [t.ctrlMsgbufHead] := by
      simp [ctrls]
    rw [hctrls]
    exact h.recent.snoc h.head
  · -- the items of the batch read the headers they read before
    rw [List.map_append, ← List.append_assoc]
    show t.handed ++ t.txBurstArr.map _ ++ _ = _
    rw [← h.order]
    congr 1
    · congr 1
      apply List.map_congr_left
      intro item hitem
      cases item with
      | data p => rfl
      | ctrl i =>
        have hne := h.recent.ne_head hlen (mem_ctrls hitem)
        show BurstPkt.ctrl (Function.update t.ctrlMsgbufsHdr t.ctrlMsgbufHead _ i) = _
        rw [Function.update_of_ne hne]
        rfl
    · show [BurstPkt.ctrl (Function.update t.ctrlMsgbufsHdr t.ctrlMsgbufHead _ t.ctrlMsgbufHead)] = _
      rw [Function.update_self]

theorem Inv.flush {t : TxBatch D} (h : t.Inv) : t.flush.Inv := by
  unfold TxBatch.flush
  split_ifs with hpos
  · exact Inv.doTxBurst h.head h.order
  · exact h

/-- A burst leaves no packet in the batch. -/
theorem txBurstArr_flush (t : TxBatch D) : t.flush.txBurstArr = [] := by
  unfold TxBatch.flush
  split_ifs with hpos
  · rfl
  · exact List.eq_nil_of_length_eq_zero (Nat.eq_zero_of_not_pos hpos)

theorem Inv.step {t : TxBatch D} (h : t.Inv) (a : TxCall D) : (t.step a).Inv := by
  cases a with
  | pkt p => exact h.enqueuePkt p
  | cr r req => exact h.enqueueCtrl fun ctrl => crHdr ⟨r, ctrl⟩ req
  | rfr r resp n => exact h.enqueueCtrl fun ctrl => rfrHdr ⟨r, ctrl⟩ resp n
  | flush => exact h.flush

theorem Inv.calls {t : TxBatch D} (h : t.Inv) (as : List (TxCall D)) : (t.calls as).Inv := by
  induction as generalizing t with
  | nil => exact h
  | cons a as ih => exact ih (h.step a)

/-- What a call enqueues, on the headers as they are. -/
def enqueues (t : TxBatch D) : TxCall D → List (BurstPkt D)
  | .pkt p => [.data p]
  | .cr r req => [.ctrl (crHdr ⟨r, t.ctrlMsgbufsHdr t.ctrlMsgbufHead⟩ req)]
  | .rfr r resp n => [.ctrl (rfrHdr ⟨r, t.ctrlMsgbufsHdr t.ctrlMsgbufHead⟩ resp n)]
  | .flush => []

theorem enqueued_add (t : TxBatch D) (item : BurstItem D) : (t.add item).enqueued = t.enqueued := by
  unfold TxBatch.add
  dsimp only
  split_ifs <;> rfl

/-- The record grows by the packet of the call. -/
theorem enqueued_step (t : TxBatch D) (a : TxCall D) :
    (t.step a).enqueued = t.enqueued ++ t.enqueues a := by
  cases a with
  | pkt p => exact enqueued_add _ _
  | cr r req => exact enqueued_add _ _
  | rfr r resp n => exact enqueued_add _ _
  | flush =>
    show t.flush.enqueued = t.enqueued ++ []
    rw [List.append_nil]
    unfold TxBatch.flush
    split_ifs <;> rfl

/-- **The transport gets what was enqueued.**  After every sequence of calls, with bursts wherever
the event loop asks for them, the batch is not full, and the packets given to the transport
followed by those of the batch as they are now are the packets enqueued, each once, in order, and
each control packet with the header written for it by its call.  The next burst empties the batch,
and then the transport has been given exactly what was enqueued. -/
theorem handed_as_enqueued (hdrs : ℕ → Pkthdr) (as : List (TxCall D)) :
    let t : TxBatch D := (init hdrs).calls as
    t.txBatchI < kPostlist ∧ t.handed ++ t.txBurstArr.map t.read = t.enqueued ∧
      (∀ a, (t.step a).enqueued = t.enqueued ++ t.enqueues a) ∧
      (t.step .flush).txBurstArr = [] ∧ (t.step .flush).handed = t.enqueued := by
  intro t
  have h : t.Inv := (inv_init hdrs).calls as
  have hempty : (t.step .flush).txBurstArr = [] := txBurstArr_flush t
  refine ⟨h.room, h.order, enqueued_step t, hempty, ?_⟩
  -- what is left of the batch after the burst adds nothing
  have horder := (h.step .flush).order
  rw [hempty, List.map_nil, List.append_nil, enqueued_step] at horder
  exact horder.trans (List.append_nil _)

end TxBatch

end HuiRpc
