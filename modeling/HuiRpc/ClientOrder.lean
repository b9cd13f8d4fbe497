/-
# The client and packets out of order

Credit returns and response packets that reach the client in any order, any number of times or
not at all.  `in_order_client` would reject packets out of order, but its calls in
`process_expl_cr_st` and `process_resp_one_st` are commented out.

* `CliRun.Expects` — the next answer to the request of a slot;
* `continuation_once_iff_expected` — as long as only expected packets arrive, every continuation
  is invoked at most once, the credits stay within those of the session, and `tx_msgbuf_` is not
  read when it is null; a packet that is not expected changes the credits or `num_tx_`;
* `continuation_twice` — a duplicate response invokes the continuation again and leaves 33
  credits, and a late credit return goes through the null `tx_msgbuf_`.
-/
import HuiRpc.ServerOrder

namespace HuiRpc

open Runs

/-! ## A client and a network -/

/-- The client, with the headers that it processed for the request of every slot.  `next` is the
tag of the next request. -/
structure CliRun where
  cli : Cli
  rcvd : ℕ → List Pkthdr
  next : ℕ

inductive CliAct
  | enqueue (reqType lkey : ℕ) (msg : TxMsg)
  | deliver (stale : ℕ → UInt8) (p : WirePkt)
  | stall

namespace CliRun

def init : CliRun := ⟨Cli.init, fun _ => [], 0⟩

/-- The slot has a request. -/
def Busy (s : CliRun) (i : ℕ) : Prop := (s.cli.slots i).txMsgbuf.isSome = true

instance (s : CliRun) (i : ℕ) : Decidable (s.Busy i) := inferInstanceAs (Decidable (_ = _))

def step (e : Endpoint) (s : CliRun) : CliAct → Option CliRun
  | .enqueue reqType lkey msg =>
      (s.cli.enqueueRequest e reqType lkey msg s.next).map fun c =>
        let rcvd := match s.cli.freeVec with
          | [] => s.rcvd
          | i :: _ => Function.update s.rcvd i []
        ⟨c, rcvd, s.next + 1⟩
  | .deliver stale p =>
      (s.cli.recv e stale p).map fun c =>
        let i := slotOf p.hdr
        { s with cli := c, rcvd := Function.update s.rcvd i (s.rcvd i ++ [p.hdr]) }
  | .stall => (s.cli.processCreditStallQueue e).map fun c => { s with cli := c }

/-- The packets that a network may deliver: any packet of a server, at any time. -/
def Arrives (_s : CliRun) : CliAct → Prop
  | .enqueue _ _ _ => True
  | .deliver _ p => p.hdr.pktType = .kResp ∨ p.hdr.pktType = .kExplCR
  | .stall => True

/-- The packet is the next answer to the request of its slot: the credit return for the next
request packet, or after those the next response packet. -/
def Expects (s : CliRun) (h : Pkthdr) : Prop :=
  let i := slotOf h
  let n := (s.rcvd i).length
  s.Busy i ∧ h.reqNum = (s.cli.slots i).curReqNum % 2 ^ 32 ∧ n < (s.cli.slots i).numTx ∧
    ((h.pktType = .kExplCR ∧ h.pktNum = n ∧
        n + 1 < ((s.cli.slots i).txMsgbuf.elim 0 MsgBuf.totalPkg)) ∨
      (h.pktType = .kResp ∧ h.pktNum = (s.cli.slots i).numRx ∧
        ((s.cli.slots i).txMsgbuf.elim 0 MsgBuf.totalPkg) ≤ n + 1))

instance (s : CliRun) (h : Pkthdr) : Decidable (s.Expects h) :=
  inferInstanceAs (Decidable (_ ∧ _ ∧ _ ∧ (_ ∨ _)))

/-- The packets that arrive in order. -/
def ArrivesInOrder (s : CliRun) : CliAct → Prop
  | .enqueue _ _ _ => True
  | .deliver _ p => s.Expects p.hdr
  | .stall => True

instance (s : CliRun) (a : CliAct) : Decidable (s.Arrives a) :=
  match a with
  | .enqueue _ _ _ => isTrue trivial
  | .deliver _ _ => inferInstanceAs (Decidable (_ ∨ _))
  | .stall => isTrue trivial

instance (s : CliRun) (a : CliAct) : Decidable (s.ArrivesInOrder a) :=
  match a with
  | .enqueue _ _ _ => isTrue trivial
  | .deliver _ p => inferInstanceAs (Decidable (s.Expects p.hdr))
  | .stall => isTrue trivial

/-- A packet that is not expected changes neither credits nor counters nor response bytes. -/
def Unaffected (s : CliRun) (h : Pkthdr) (c : Cli) : Prop :=
  ¬ s.Expects h → c.credits = s.cli.credits ∧
    (c.slots (slotOf h)).numRx = (s.cli.slots (slotOf h)).numRx ∧
    (c.slots (slotOf h)).numTx = (s.cli.slots (slotOf h)).numTx ∧
    (c.slots (slotOf h)).resp = (s.cli.slots (slotOf h)).resp

end CliRun

/-! ## What the handlers do to credits and counters -/

variable {x x' : CliCtx} {c c' : Cli} {e : Endpoint} {i n : ℕ}

/-- `n` packets were sent. -/
structure Kicked (x x' : CliCtx) (n : ℕ) : Prop where
  le : n ≤ x.credits
  credits : x'.credits = x.credits - n
  slot : x'.slot = { x.slot with numTx := x.slot.numTx + n }
  tx : x.tx <+: x'.tx

theorem Kicked.numTx (h : Kicked x x' n) : x'.slot.numTx = x.slot.numTx + n :=
  congrArg CliSlot.numTx h.slot

theorem Kicked.tag (h : Kicked x x' n) : x'.slot.tag = x.slot.tag := by
  rw [h.slot]

theorem Kicked.numRx (h : Kicked x x' n) : x'.slot.numRx = x.slot.numRx := by
  rw [h.slot]

theorem Kicked.txMsgbuf (h : Kicked x x' n) : x'.slot.txMsgbuf = x.slot.txMsgbuf := by
  rw [h.slot]

theorem kickLoop_kicked {pkt : ℕ → WirePkt} {m : ℕ} {p : Prop} [Decidable p] (x : CliCtx) :
    Kicked x (kickLoop pkt (min x.credits m) (x.assert p)) (min x.credits m) := by
  rw [kickLoop_eq]
  exact ⟨Nat.min_le_left _ _, rfl, rfl, List.prefix_append _ _⟩

theorem kickReq_kicked (h : kickReq x = some x') : ∃ n, Kicked x x' n := by
  obtain ⟨b, -, rfl⟩ := Option.map_eq_some_iff.mp h
  exact ⟨_, kickLoop_kicked x⟩

theorem kickRfr_kicked {resp : Option Pkthdr} (h : kickRfr e resp x = some x') :
    ∃ n, Kicked x x' n := by
  obtain ⟨b, -, hb⟩ := Option.bind_eq_some_iff.mp h
  obtain ⟨r, -, rfl⟩ := Option.map_eq_some_iff.mp hb
  exact ⟨_, kickLoop_kicked x⟩

theorem stallKick_kicked (h : Cli.stallKick e x = some x') : ∃ n, Kicked x x' n := by
  obtain ⟨b, -, hkick⟩ := Option.bind_eq_some_iff.mp h
  split_ifs at hkick
  · exact kickReq_kicked hkick
  · exact kickRfr_kicked hkick

/-- Packets were sent, and nothing else happened to the slots. -/
structure Cli.SentOn (c c' : Cli) : Prop where
  slot : ∀ j, (c'.slots j).txMsgbuf = (c.slots j).txMsgbuf ∧
    (c'.slots j).numRx = (c.slots j).numRx ∧ (c.slots j).numTx ≤ (c'.slots j).numTx
  tag : ∀ j, (c'.slots j).tag = (c.slots j).tag
  tx : c.tx <+: c'.tx

theorem Kicked.sentOn (hk : Kicked (c.ctx i) x n) : c.SentOn (c.put i x) := by
  have hself : (c.put i x).slots i = x.slot := Function.update_self ..
  have hother : ∀ j, j ≠ i → (c.put i x).slots j = c.slots j := fun j hj =>
    Function.update_of_ne hj _ _
  refine ⟨?_, ?_, hk.tx⟩
  · intro j
    by_cases hj : j = i
    · rw [hj, hself]
      refine ⟨hk.txMsgbuf, hk.numRx, ?_⟩
      rw [hk.numTx]
      exact Nat.le_add_right _ _
    · rw [hother j hj]
      exact ⟨rfl, rfl, le_rfl⟩
  · intro j
    by_cases hj : j = i
    · rw [hj, hself]
      exact hk.tag
    · rw [hother j hj]

/-- The loop over the stall queue only sends. -/
theorem stallLoop_sentOn (rest : List ℕ) : ∀ (c : Cli) (kept : List ℕ) c' kept',
    Cli.stallLoop e rest c kept = some (c', kept') → c.SentOn c' := by
  induction rest with
  | nil =>
    intro c kept c' kept' hl
    obtain ⟨rfl, rfl⟩ := Prod.mk.inj (Option.some.inj hl)
    exact ⟨fun _ => ⟨rfl, rfl, le_rfl⟩, fun _ => rfl, List.prefix_refl _⟩
  | cons i rest ih =>
    intro c kept c' kept' hl
    rw [Cli.stallLoop] at hl
    split_ifs at hl with hpos
    · obtain ⟨x, hx, hl'⟩ := Option.bind_eq_some_iff.mp hl
      obtain ⟨n, hk⟩ := stallKick_kicked hx
      have hfirst := hk.sentOn
      have hrest := ih _ _ _ _ hl'
      refine ⟨?_, fun j => (hrest.tag j).trans (hfirst.tag j), hfirst.tx.trans hrest.tx⟩
      intro j
      obtain ⟨hbuf, hrx, htx⟩ := hrest.slot j
      obtain ⟨hbuf', hrx', htx'⟩ := hfirst.slot j
      exact ⟨hbuf.trans hbuf', hrx.trans hrx', htx'.trans htx⟩
    · exact ih _ _ _ _ hl

/-- A new request while no slot is free. -/
theorem Cli.enqueueRequest_backlog {reqType lkey tag : ℕ} {msg : TxMsg} (hfree : c.freeVec = []) :
    c.enqueueRequest e reqType lkey msg tag
      = some { c with backlog := c.backlog ++ [(msg, tag)] } := by
  unfold Cli.enqueueRequest
  split
  · rfl
  · rename_i hcons
    rw [hfree] at hcons
    cases hcons

/-- A new request in a free slot: the slot is filled, and packets may be sent. -/
theorem Cli.enqueueRequest_sentOn {reqType lkey tag : ℕ} {msg : TxMsg} {rest : List ℕ}
    (hfree : c.freeVec = i :: rest) (h : c.enqueueRequest e reqType lkey msg tag = some c') :
    ({ c with
      freeVec := rest
      slots := Function.update c.slots i (Cli.fillSlot e reqType lkey msg tag (c.slots i)) } :
        Cli).SentOn c' := by
  unfold Cli.enqueueRequest at h
  rw [hfree] at h
  dsimp only at h
  split_ifs at h with hpos
  · obtain ⟨x, hx, rfl⟩ := Option.map_eq_some_iff.mp h
    obtain ⟨n, hk⟩ := kickReq_kicked hx
    exact hk.sentOn
  · obtain rfl := Option.some.inj h
    exact ⟨fun _ => ⟨rfl, rfl, le_rfl⟩, fun _ => rfl, List.prefix_refl _⟩

/-- A received packet gave one credit and made the client send `n` packets. -/
structure Took (x x' : CliCtx) (n : ℕ) : Prop where
  le : n ≤ x.credits + 1
  credits : x'.credits = x.credits + 1 - n
  numTx : x'.slot.numTx = x.slot.numTx + n
  tag : x'.slot.tag = x.slot.tag
  tx : x.tx <+: x'.tx

theorem processExplCr_took (h : processExplCr x = some x') :
    ∃ n, Took x x' n ∧ x'.slot.txMsgbuf = x.slot.txMsgbuf ∧ x'.slot.numRx = x.slot.numRx := by
  obtain ⟨b, -, hb⟩ := Option.bind_eq_some_iff.mp h
  dsimp only at hb
  split_ifs at hb with hp
  · obtain ⟨n, hk⟩ := kickReq_kicked hb
    exact ⟨n, ⟨hk.le, hk.credits, hk.numTx, hk.tag, hk.tx⟩, hk.txMsgbuf, hk.numRx⟩
  · obtain rfl := Option.some.inj hb
    exact ⟨0, ⟨Nat.zero_le _, rfl, rfl, rfl, List.prefix_refl _⟩, rfl, rfl⟩

/-- The slot is kept for the rest of the response, or given up with a buffer. -/
theorem processRespOne_took {h : Pkthdr} {data : List UInt8} {r : Option RespBuf}
    (hr : processRespOne e h data x = some (x', r)) :
    ∃ n, Took x x' n ∧ ((r = none ∧ x'.slot.txMsgbuf = x.slot.txMsgbuf ∧
        x'.slot.numRx = x.slot.numRx + 1) ∨
      (r.isSome = true ∧ x'.slot.txMsgbuf = none)) := by
  unfold processRespOne at hr
  split_ifs at hr with hsmall
  · obtain ⟨rfl, rfl⟩ := Prod.mk.inj (Option.some.inj hr)
    exact ⟨0, ⟨Nat.zero_le _, rfl, rfl, rfl, List.prefix_refl _⟩, Or.inr ⟨rfl, rfl⟩⟩
  · obtain ⟨b, -, hb⟩ := Option.bind_eq_some_iff.mp hr
    obtain ⟨y, hy, hret⟩ := Option.map_eq_some_iff.mp hb
    -- `y` is the state after the RFRs, if there are any to send
    have hkick : ∃ n, Kicked { bumpCredits x with
        slot := { x.slot with numRx := x.slot.numRx + 1 } } y n := by
      split_ifs at hy
      · exact kickRfr_kicked hy
      · obtain rfl := Option.some.inj hy
        exact ⟨0, Nat.zero_le _, rfl, rfl, List.prefix_refl _⟩
    obtain ⟨n, hk⟩ := hkick
    split_ifs at hret with hlast
    · obtain ⟨rfl, rfl⟩ := Prod.mk.inj hret
      exact ⟨n, ⟨hk.le, hk.credits, hk.numTx, hk.tag, hk.tx⟩,
        Or.inl ⟨rfl, hk.txMsgbuf, hk.numRx⟩⟩
    · obtain ⟨rfl, rfl⟩ := Prod.mk.inj hret
      exact ⟨n, ⟨hk.le, hk.credits, hk.numTx, hk.tag, hk.tx⟩, Or.inr ⟨rfl, rfl⟩⟩

/-- A received packet for slot `i`, in the session; `k` says whether it counts as a response. -/
structure Recvd (c c' : Cli) (i n k : ℕ) : Prop where
  le : n ≤ c.credits + 1
  credits : c'.credits = c.credits + 1 - n
  numTx : (c'.slots i).numTx = (c.slots i).numTx + n
  tag : (c'.slots i).tag = (c.slots i).tag
  others : ∀ j, j ≠ i → c'.slots j = c.slots j
  stallq : c'.stallq = c.stallq
  tx : c.tx <+: c'.tx
  rest : ((c'.slots i).txMsgbuf = (c.slots i).txMsgbuf ∧
      (c'.slots i).numRx = (c.slots i).numRx + k ∧ c'.freeVec = c.freeVec ∧
      c'.conts = c.conts) ∨
    ((c'.slots i).txMsgbuf = none ∧ c'.freeVec = i :: c.freeVec ∧
      c'.conts.map Prod.fst = c.conts.map Prod.fst ++ [(c.slots i).tag])

theorem Took.recvd {k : ℕ} (h : Took (c.ctx i) x n)
    (hbuf : x.slot.txMsgbuf = (c.slots i).txMsgbuf) (hrx : x.slot.numRx = (c.slots i).numRx + k) :
    Recvd c (c.put i x) i n k where
  le := h.le
  credits := h.credits
  numTx := by
    rw [← show (c.ctx i).slot = c.slots i from rfl, ← h.numTx]
    exact congrArg CliSlot.numTx (Function.update_self ..)
  tag := by
    rw [← show (c.ctx i).slot = c.slots i from rfl, ← h.tag]
    exact congrArg CliSlot.tag (Function.update_self ..)
  others := fun _ hj => Function.update_of_ne hj _ _
  stallq := rfl
  tx := h.tx
  rest := Or.inl ⟨(congrArg CliSlot.txMsgbuf (Function.update_self ..)).trans hbuf,
    (congrArg CliSlot.numRx (Function.update_self ..)).trans hrx, rfl, rfl⟩

/-- The slot is free again and its continuation was invoked. -/
theorem Took.finished {buf : RespBuf} (h : Took (c.ctx i) x n) (hbuf : x.slot.txMsgbuf = none)
    (hf : (c.put i x).finish i buf = some c') (k : ℕ) : Recvd c c' i n k := by
  have hself : (c.put i x).slots i = x.slot := Function.update_self ..
  unfold Cli.finish at hf
  dsimp only at hf
  split_ifs at hf with hback
  obtain rfl := Option.some.inj hf
  exact {
    le := h.le
    credits := h.credits
    numTx := (congrArg CliSlot.numTx hself).trans h.numTx
    tag := (congrArg CliSlot.tag hself).trans h.tag
    others := fun _ hj => Function.update_of_ne hj _ _
    stallq := rfl
    tx := h.tx
    rest := by
      refine Or.inr ⟨(congrArg CliSlot.txMsgbuf hself).trans hbuf, rfl, ?_⟩
      rw [List.map_append, hself, h.tag]
      rfl }

/-- **One received packet.** -/
theorem Cli.recv_recvd {stale : ℕ → UInt8} {p : WirePkt} (h : c.recv e stale p = some c') :
    ∃ n, Recvd c c' (slotOf p.hdr) n (if p.hdr.pktType = .kResp then 1 else 0) := by
  unfold Cli.recv at h
  split at h
  · rename_i hty
    rw [if_pos hty]
    obtain ⟨⟨x, r⟩, hx, hret⟩ := Option.bind_eq_some_iff.mp h
    obtain ⟨n, htook, ⟨rfl, hbuf, hrx⟩ | ⟨hr, hbuf⟩⟩ := processRespOne_took hx
    · obtain rfl := Option.some.inj hret
      exact ⟨n, htook.recvd hbuf hrx⟩
    · obtain ⟨buf, rfl⟩ := Option.isSome_iff_exists.mp hr
      exact ⟨n, htook.finished hbuf hret 1⟩
  · rename_i hty
    rw [if_neg (by rw [hty]; decide)]
    obtain ⟨x, hx, rfl⟩ := Option.map_eq_some_iff.mp h
    obtain ⟨n, htook, hbuf, hrx⟩ := processExplCr_took hx
    exact ⟨n, htook.recvd hbuf hrx⟩
  · cases h
  · cases h

/-- A packet is processed without a null read if its slot has a request and no request waits in
the backlog. -/
theorem Cli.recv_isSome {stale : ℕ → UInt8} {p : WirePkt} {b : MsgBuf}
    (hb : (c.slots (slotOf p.hdr)).txMsgbuf = some b) (hback : c.backlog = [])
    (hty : p.hdr.pktType = .kResp ∨ p.hdr.pktType = .kExplCR) :
    (c.recv e stale p).isSome = true := by
  have hfin : ∀ x buf, ((c.put (slotOf p.hdr) x).finish (slotOf p.hdr) buf).isSome = true := by
    intro x buf
    unfold Cli.finish
    rw [if_neg (by show ¬ c.backlog ≠ []; rw [hback]; exact fun hne => hne rfl)]
    rfl
  unfold Cli.recv
  rcases hty with hty | hty
  · rw [hty]
    show (c.recvResp e (slotOf p.hdr) _ _).isSome = true
    have hproc : (processRespOne e p.hdr (readBody stale p.payload p.hdr.thisMsgSize)
        (c.ctx (slotOf p.hdr))).isSome = true := by
      unfold processRespOne
      split_ifs
      · rfl
      · show (Option.bind (c.slots (slotOf p.hdr)).txMsgbuf _).isSome = true
        rw [hb, Option.bind_some, Option.isSome_map]
        split_ifs
        · show (Option.bind (c.slots (slotOf p.hdr)).txMsgbuf _).isSome = true
          rw [hb]
          rfl
        · rfl
    obtain ⟨⟨x, r⟩, hx⟩ := Option.isSome_iff_exists.mp hproc
    unfold Cli.recvResp
    rw [hx]
    cases r with
    | none => rfl
    | some buf => exact hfin x buf
  · rw [hty]
    show ((processExplCr (c.ctx (slotOf p.hdr))).map _).isSome = true
    unfold processExplCr
    rw [Option.isSome_map, show (c.ctx (slotOf p.hdr)).slot.txMsgbuf = some b from hb,
      Option.bind_some]
    dsimp only
    split_ifs
    · show (Option.map _ (c.slots (slotOf p.hdr)).txMsgbuf).isSome = true
      rw [hb]
      rfl
    · rfl

/-! ## The invariant -/

namespace CliRun

/-- Packets of the request of slot `i` whose answer was not processed. -/
def out (s : CliRun) (i : ℕ) : ℕ :=
  if s.Busy i then (s.cli.slots i).numTx - (s.rcvd i).length else 0

/-- The tags of the continuations invoked. -/
def invoked (s : CliRun) : List ℕ := s.cli.conts.map Prod.fst

end CliRun

/-- Credits at hand or out, and the tags of the requests as tickets of the slots. -/
structure ClientInv (s : CliRun) : Prop where
  credits : s.cli.credits + ∑ i ∈ Finset.range kSessionReqWindow, s.out i ≤ kSessionCredits
  answers : ∀ i, s.Busy i → (s.rcvd i).length ≤ (s.cli.slots i).numTx
  stall : ∀ i ∈ s.cli.stallq, i < kSessionReqWindow
  tickets : Tickets.Book (· < kSessionReqWindow) s.Busy (fun i => (s.cli.slots i).tag)
    s.cli.freeVec s.invoked s.next

theorem CliRun.not_busy_init (i : ℕ) : ¬ CliRun.init.Busy i := Bool.false_ne_true

theorem ClientInv.init : ClientInv CliRun.init where
  credits := by
    exact le_refl _
  answers := fun i hb => absurd hb (CliRun.not_busy_init i)
  stall := fun _ hi => absurd hi List.not_mem_nil
  tickets := Tickets.Book.start List.nodup_range (fun _ => List.mem_range) CliRun.not_busy_init

section Moves

variable {s s' : CliRun}

/-- Slot `i` moved and the other slots did not; no credit came from nowhere. -/
structure OneSlot (s s' : CliRun) (i : ℕ) : Prop where
  lt : i < kSessionReqWindow
  slots : ∀ j, j ≠ i → s'.cli.slots j = s.cli.slots j
  rcvd : ∀ j, j ≠ i → s'.rcvd j = s.rcvd j
  credits : s'.cli.credits + s'.out i ≤ s.cli.credits + s.out i
  answers : s'.Busy i → (s'.rcvd i).length ≤ (s'.cli.slots i).numTx
  stall : ∀ j ∈ s'.cli.stallq, j < kSessionReqWindow

theorem OneSlot.busy_iff {j : ℕ} (h : OneSlot s s' i) (hj : j ≠ i) : s'.Busy j ↔ s.Busy j := by
  unfold CliRun.Busy
  rw [h.slots j hj]

theorem OneSlot.sameBut (h : OneSlot s s' i) :
    Tickets.SameBut i s.Busy s'.Busy (fun j => (s.cli.slots j).tag)
      fun j => (s'.cli.slots j).tag :=
  fun j hj => ⟨h.busy_iff hj, congrArg CliSlot.tag (h.slots j hj)⟩

theorem ClientInv.moved (hinv : ClientInv s) (h : OneSlot s s' i)
    (hbook : Tickets.Book (· < kSessionReqWindow) s'.Busy (fun i => (s'.cli.slots i).tag)
      s'.cli.freeVec s'.invoked s'.next) : ClientInv s' where
  credits := by
    have hsum := sum_range_replace (f := s'.out) (g := s.out) h.lt fun j hj => by
      unfold CliRun.out
      rw [h.slots j hj, h.rcvd j hj]
      exact if_congr (h.busy_iff hj) rfl rfl
    have hold := hinv.credits
    have hcr := h.credits
    omega
  answers := by
    intro j hb
    by_cases hj : j = i
    · subst hj
      exact h.answers hb
    · rw [h.slots j hj, h.rcvd j hj]
      exact hinv.answers j ((h.busy_iff hj).mp hb)
  stall := h.stall
  tickets := hbook

end Moves

/-! ## Steps -/

variable {s s' : CliRun}

theorem CliRun.out_of_busy (h : s.Busy i) :
    s.out i = (s.cli.slots i).numTx - (s.rcvd i).length := if_pos h

theorem CliRun.out_of_idle (h : ¬ s.Busy i) : s.out i = 0 := if_neg h

/-- **A packet** for a slot that has a request with a packet out. -/
theorem ClientInv.deliver {stale : ℕ → UInt8} {p : WirePkt} (hinv : ClientInv s)
    (hbusy : s.Busy (slotOf p.hdr))
    (hlt : (s.rcvd (slotOf p.hdr)).length < (s.cli.slots (slotOf p.hdr)).numTx)
    (hs : s.step e (.deliver stale p) = some s') : ClientInv s' := by
  obtain ⟨c, hc, rfl⟩ := Option.map_eq_some_iff.mp hs
  obtain ⟨n, hr⟩ := Cli.recv_recvd hc
  set i := slotOf p.hdr with hi
  set t : CliRun := { s with cli := c, rcvd := Function.update s.rcvd i (s.rcvd i ++ [p.hdr]) }
    with ht
  have hlen : (t.rcvd i).length = (s.rcvd i).length + 1 := by
    show (Function.update s.rcvd i _ i).length = _
    rw [Function.update_self, List.length_append, List.length_singleton]
  have hnum : (t.cli.slots i).numTx = (s.cli.slots i).numTx + n := hr.numTx
  have hcr : t.cli.credits = s.cli.credits + 1 - n := hr.credits
  have hle := hr.le
  have hone : OneSlot s t i := {
    lt := slotOf_lt p.hdr
    slots := hr.others
    rcvd := fun j hj => Function.update_of_ne hj _ _
    credits := by
      rw [CliRun.out_of_busy hbusy, hcr]
      by_cases hb : t.Busy i
      · rw [CliRun.out_of_busy hb]
        omega
      · rw [CliRun.out_of_idle hb]
        omega
    answers := fun _ => by omega
    stall := by
      show ∀ j ∈ c.stallq, _
      rw [hr.stallq]
      exact hinv.stall }
  refine hinv.moved hone ?_
  rcases hr.rest with ⟨hbuf, -, hfree, hconts⟩ | ⟨hbuf, hfree, hconts⟩
  · -- the slot waits for the rest of the response
    have hb : t.Busy i := by
      show (c.slots i).txMsgbuf.isSome = true
      rw [hbuf]
      exact hbusy
    have hinvoked : t.invoked = s.invoked := congrArg (List.map Prod.fst) hconts
    rw [hinvoked, show t.cli.freeVec = s.cli.freeVec from hfree]
    exact hinv.tickets.stay hone.sameBut hbusy hb hr.tag
  · have hb : ¬ t.Busy i := by
      show ¬ (c.slots i).txMsgbuf.isSome = true
      rw [hbuf]
      exact Bool.false_ne_true
    have hinvoked : t.invoked = s.invoked ++ [(s.cli.slots i).tag] := hconts
    rw [hinvoked, show t.cli.freeVec = i :: s.cli.freeVec from hfree]
    exact hinv.tickets.release hone.sameBut (slotOf_lt p.hdr) hbusy hb

/-- **A kick** of a slot that has a request. -/
theorem ClientInv.kick (hinv : ClientInv s) (stallq : List ℕ) (hi : i < kSessionReqWindow)
    (hbusy : s.Busy i) (hk : Kicked (s.cli.ctx i) x n)
    (hstall : ∀ j ∈ stallq, j < kSessionReqWindow) :
    ClientInv { s with cli := { s.cli.put i x with stallq := stallq } } := by
  set t : CliRun := { s with cli := { s.cli.put i x with stallq := stallq } } with ht
  have hself : t.cli.slots i = x.slot := Function.update_self ..
  have hnum : (t.cli.slots i).numTx = (s.cli.slots i).numTx + n := by
    rw [hself]
    exact hk.numTx
  have hb : t.Busy i := by
    show (t.cli.slots i).txMsgbuf.isSome = true
    rw [hself, hk.txMsgbuf]
    exact hbusy
  have hle : n ≤ s.cli.credits := hk.le
  have hcr : t.cli.credits = s.cli.credits - n := hk.credits
  have hans := hinv.answers i hbusy
  have hone : OneSlot s t i := {
    lt := hi
    slots := fun j hj => Function.update_of_ne hj _ _
    rcvd := fun _ _ => rfl
    credits := by
      rw [CliRun.out_of_busy hbusy, CliRun.out_of_busy hb, hcr, hnum,
        show t.rcvd i = s.rcvd i from rfl]
      omega
    answers := fun _ => by
      rw [hnum, show t.rcvd i = s.rcvd i from rfl]
      omega
    stall := hstall }
  refine hinv.moved hone (hinv.tickets.stay hone.sameBut hbusy hb ?_)
  show (t.cli.slots i).tag = _
  rw [hself, hk.tag]
  rfl

/-- The loop over the stall queue. -/
theorem ClientInv.stallLoop (rest : List ℕ) : ∀ (c : Cli) (kept : List ℕ),
    ClientInv { s with cli := c } → (∀ j ∈ rest, j < kSessionReqWindow) →
    (∀ j ∈ kept, j < kSessionReqWindow) → ∀ c' kept',
    Cli.stallLoop e rest c kept = some (c', kept') →
    ClientInv { s with cli := { c' with stallq := kept' } } := by
  induction rest with
  | nil =>
    intro c kept hinv _ hkept c' kept' hl
    obtain ⟨rfl, rfl⟩ := Prod.mk.inj (Option.some.inj hl)
    exact ⟨hinv.credits, hinv.answers, hkept, hinv.tickets⟩
  | cons i rest ih =>
    intro c kept hinv hrest hkept c' kept' hl
    have hi := hrest i (List.mem_cons_self ..)
    have hrest' : ∀ j ∈ rest, j < kSessionReqWindow := fun j hj =>
      hrest j (List.mem_cons_of_mem _ hj)
    rw [Cli.stallLoop] at hl
    split_ifs at hl with hpos
    · obtain ⟨x, hx, hl'⟩ := Option.bind_eq_some_iff.mp hl
      obtain ⟨b, hb, -⟩ := Option.bind_eq_some_iff.mp hx
      obtain ⟨n, hk⟩ := stallKick_kicked hx
      have hbusy : ({ s with cli := c } : CliRun).Busy i := by
        show (c.slots i).txMsgbuf.isSome = true
        rw [show (c.slots i).txMsgbuf = some b from hb]
        rfl
      exact ih _ kept (hinv.kick c.stallq hi hbusy hk hinv.stall) hrest' hkept c' kept'
        hl'
    · refine ih c (kept ++ [i]) hinv hrest' ?_ c' kept' hl
      intro j hj
      rw [List.mem_append, List.mem_singleton] at hj
      rcases hj with hj | rfl
      · exact hkept j hj
      · exact hi

theorem ClientInv.stallStep (hinv : ClientInv s) (hs : s.step e .stall = some s') :
    ClientInv s' := by
  obtain ⟨c, hc, rfl⟩ := Option.map_eq_some_iff.mp hs
  obtain ⟨⟨c', kept⟩, hl, rfl⟩ := Option.map_eq_some_iff.mp hc
  exact ClientInv.stallLoop s.cli.stallq s.cli [] hinv hinv.stall
    (fun _ hj => absurd hj List.not_mem_nil) c' kept hl

/-- The state in which the new request is in slot `i` and nothing of it was sent. -/
def CliRun.filled (e : Endpoint) (s : CliRun) (i : ℕ) (rest : List ℕ) (reqType lkey : ℕ)
    (msg : TxMsg) : CliRun :=
  { cli := { s.cli with
      freeVec := rest
      slots := Function.update s.cli.slots i
        (Cli.fillSlot e reqType lkey msg s.next (s.cli.slots i)) }
    rcvd := Function.update s.rcvd i []
    next := s.next + 1 }

theorem ClientInv.fill {rest : List ℕ} (hinv : ClientInv s) (hfree : s.cli.freeVec = i :: rest)
    (reqType lkey : ℕ) (msg : TxMsg) :
    ClientInv (s.filled e i rest reqType lkey msg) ∧ (s.filled e i rest reqType lkey msg).Busy i := by
  obtain ⟨hi, hidle⟩ := (hinv.tickets.mem_free i).mp (by rw [hfree]; exact List.mem_cons_self ..)
  set t := s.filled e i rest reqType lkey msg with ht
  have hslot : t.cli.slots i = Cli.fillSlot e reqType lkey msg s.next (s.cli.slots i) :=
    Function.update_self ..
  have hrcvd : t.rcvd i = [] := Function.update_self ..
  have hb : t.Busy i := by
    show (t.cli.slots i).txMsgbuf.isSome = true
    rw [hslot]
    rfl
  have hone : OneSlot s t i := {
    lt := hi
    slots := fun j hj => Function.update_of_ne hj _ _
    rcvd := fun j hj => Function.update_of_ne hj _ _
    credits := by
      rw [CliRun.out_of_busy hb, hslot]
      show s.cli.credits + (0 - _) ≤ _
      omega
    answers := by
      intro _
      rw [hrcvd]
      exact Nat.zero_le _
    stall := hinv.stall }
  have hbook := hinv.tickets
  rw [hfree] at hbook
  refine ⟨hinv.moved hone (hbook.take hone.sameBut hb ?_), hb⟩
  show (t.cli.slots i).tag = s.next
  rw [hslot]
  rfl

/-- **A new request**, which goes to the backlog when there is no slot. -/
theorem ClientInv.enqueue {reqType lkey : ℕ} {msg : TxMsg} (hinv : ClientInv s)
    (hs : s.step e (.enqueue reqType lkey msg) = some s') : ClientInv s' := by
  obtain ⟨c, hc, rfl⟩ := Option.map_eq_some_iff.mp hs
  unfold Cli.enqueueRequest at hc
  cases hfree : s.cli.freeVec with
  | nil =>
    rw [hfree] at hc
    obtain rfl := Option.some.inj hc
    have hbook := hinv.tickets.skip
    rw [hfree] at hbook
    exact ⟨hinv.credits, hinv.answers, hinv.stall, hbook⟩
  | cons i rest =>
    rw [hfree] at hc
    obtain ⟨hfill, hb⟩ := hinv.fill (e := e) hfree reqType lkey msg
    have hi := ((hinv.tickets.mem_free i).mp (by rw [hfree]; exact List.mem_cons_self ..)).1
    dsimp only at hc
    split_ifs at hc with hpos
    · obtain ⟨x, hx, rfl⟩ := Option.map_eq_some_iff.mp hc
      obtain ⟨n, hk⟩ := kickReq_kicked hx
      exact hfill.kick s.cli.stallq hi hb hk hinv.stall
    · obtain rfl := Option.some.inj hc
      refine ⟨hfill.credits, hfill.answers, ?_, hfill.tickets⟩
      intro j hj
      rcases List.mem_append.mp hj with hj | hj
      · exact hinv.stall j hj
      · rw [List.mem_singleton.mp hj]
        exact hi

theorem ClientInv.step {a : CliAct} (hinv : ClientInv s) (hg : s.ArrivesInOrder a)
    (hs : s.step e a = some s') : ClientInv s' := by
  cases a with
  | enqueue reqType lkey msg => exact hinv.enqueue hs
  | deliver stale p => exact hinv.deliver hg.1 hg.2.2.1 hs
  | stall => exact hinv.stallStep hs

/-! ## The main result -/

/-- A received packet always changes the credits or `num_tx_`. -/
theorem CliRun.unaffected_iff {stale : ℕ → UInt8} {p : WirePkt}
    (hc : s.cli.recv e stale p = some c) : s.Unaffected p.hdr c ↔ s.Expects p.hdr := by
  constructor
  · intro hu
    by_contra hno
    obtain ⟨hcr, -, htx, -⟩ := hu hno
    obtain ⟨n, hr⟩ := Cli.recv_recvd hc
    have h1 := hr.credits
    have h2 := hr.numTx
    omega
  · exact fun hexp hno => absurd hexp hno

/-- **In order, every continuation is invoked at most once.**  In every run of a client that
only gets expected packets, no continuation was invoked twice, the credits do not exceed those of
the session, and an expected packet is processed without reading a null `tx_msgbuf_` (a request
in the backlog is what a packet can fail on).  A packet leaves credits, counters and response
bytes alone as it should exactly if it is expected. -/
theorem continuation_once_iff_expected (e : Endpoint) (as : List CliAct) (s : CliRun)
    (hrun : Run CliRun.ArrivesInOrder (CliRun.step e) CliRun.init as s) :
    s.invoked.Nodup ∧ s.cli.credits ≤ kSessionCredits ∧
    (∀ stale p, s.Expects p.hdr → s.cli.recv e stale p = none → s.cli.backlog ≠ []) ∧
    (∀ stale p c, s.cli.recv e stale p = some c →
      (s.Unaffected p.hdr c ↔ s.Expects p.hdr)) := by
  have hinv : ClientInv s := hrun.invariant ClientInv.init fun _ _ _ hi hg hs => hi.step hg hs
  refine ⟨hinv.tickets.usedNodup, ?_, ?_, fun _ _ _ hc => CliRun.unaffected_iff hc⟩
  · have hcr := hinv.credits
    omega
  · intro stale p hexp hnone hback
    obtain ⟨hbusy, -, -, hty⟩ := hexp
    obtain ⟨b, hb⟩ := Option.isSome_iff_exists.mp hbusy
    have hsome : (s.cli.recv e stale p).isSome = true := by
      refine Cli.recv_isSome hb hback ?_
      rcases hty with ⟨hty, -⟩ | ⟨hty, -⟩
      · exact Or.inr hty
      · exact Or.inl hty
    rw [hnone] at hsome
    cases hsome

/-- The credit return for the first packet of request 32. -/
def sampleCr : WirePkt := ⟨crHdr sampleEnv.srv (reqHdr sampleReqs 32 0), []⟩

/-- A small response to request 32. -/
def sampleResp : WirePkt :=
  ((TxMsg.ofBytes [7] (by decide)).fill .response ⟨1, 5, 32, 0⟩).pkts 0

/-- A two-packet request with its credit return and its response. -/
def sampleExchange : List CliAct :=
  [.enqueue 1 0 twoPkts, .deliver (fun _ => 0) sampleCr, .deliver (fun _ => 0) sampleResp]

theorem continuation_once_sample : ∃ s, Run CliRun.ArrivesInOrder (CliRun.step sampleEnv.cli)
    CliRun.init sampleExchange s ∧ s.invoked = [0] ∧ s.invoked.Nodup ∧
      s.cli.credits ≤ kSessionCredits := by
  have hexec : (exec CliRun.ArrivesInOrder (CliRun.step sampleEnv.cli) CliRun.init
      sampleExchange).map CliRun.invoked = some [0] := by
    decide +kernel
  obtain ⟨s, hs, hinv⟩ := Option.map_eq_some_iff.mp hexec
  have hmain := continuation_once_iff_expected sampleEnv.cli _ s (run_of_exec hs)
  exact ⟨s, run_of_exec hs, hinv, hmain.1, hmain.2.1⟩

/-- **Out of order.**  The network duplicates the response: the continuation is invoked a second
time and there are 33 credits.  It duplicates the credit return: the second one finds no
`tx_msgbuf_` and goes through a null pointer. -/
theorem continuation_twice :
    (∃ as s, Run CliRun.Arrives (CliRun.step sampleEnv.cli) CliRun.init as s ∧
      ¬ s.invoked.Nodup ∧ kSessionCredits < s.cli.credits) ∧
    (∃ as s, Run CliRun.Arrives (CliRun.step sampleEnv.cli) CliRun.init as s ∧
      s.cli.backlog = [] ∧ s.cli.recv sampleEnv.cli (fun _ => 0) sampleCr = none) := by
  constructor
  · have hexec : (exec CliRun.Arrives (CliRun.step sampleEnv.cli) CliRun.init
        (sampleExchange ++ [.deliver (fun _ => 0) sampleResp])).map
          (fun s => (s.invoked, s.cli.credits)) = some ([0, 0], 33) := by
      decide +kernel
    obtain ⟨s, hs, hval⟩ := Option.map_eq_some_iff.mp hexec
    refine ⟨_, s, run_of_exec hs, ?_, ?_⟩
    · rw [show s.invoked = [0, 0] from congrArg Prod.fst hval]
      decide
    · rw [show s.cli.credits = 33 from congrArg Prod.snd hval]
      decide
  · have hexec : (exec CliRun.Arrives (CliRun.step sampleEnv.cli) CliRun.init sampleExchange).map
        (fun s => (s.cli.backlog.isEmpty,
          (s.cli.recv sampleEnv.cli (fun _ => 0) sampleCr).isNone)) = some (true, true) := by
      decide +kernel
    obtain ⟨s, hs, hval⟩ := Option.map_eq_some_iff.mp hexec
    exact ⟨_, s, run_of_exec hs, List.isEmpty_iff.mp (congrArg Prod.fst hval),
      Option.isNone_iff_eq_none.mp (congrArg Prod.snd hval)⟩

end HuiRpc
