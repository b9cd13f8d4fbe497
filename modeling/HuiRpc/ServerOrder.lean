/-
# A server slot and packets out of order

The client's packets for one slot, received in any order, any number of times or not at all.
The handlers of `HuiRpc.Server` do not look at the order: `process_large_req_one_st` computes
whether a packet is the next one and does not use it, and the same check is commented out in
`process_rfr_st`.

* `SrvSlot.Expects` — the next packet in the order in which the client sends them;
* `handler_once_iff_expected` — as long as only expected packets arrive, the handler is invoked
  at most once for a request number; a packet out of order disturbs the slot;
* `handler_twice` — a duplicate request invokes the handler again, and an old RFR makes the
  server send a packet of the current response.
-/
import HuiRpc.Rpcs

namespace HuiRpc

open Runs

/-! ## Packets of the client -/

/-- The requests of a slot by their number: the message and the arguments of
`enqueue_request`. -/
abbrev ReqLog := ℕ → TxMsg × SendArgs

/-- Header of packet `k` of request `n`. -/
def reqHdr (reqs : ReqLog) (n k : ℕ) : Pkthdr :=
  (((reqs n).1.fill .request { (reqs n).2 with reqNum := n }).pkts k).hdr

/-- What happens to a server slot: packet `k` of request `n` arrives, an RFR arrives that the
client sent on seeing the response header `resp`, or the handler answers. -/
inductive SrvAct
  | req (n k preReq body : ℕ)
  | rfr (resp : Pkthdr) (j : ℕ)
  | answer (lkey : ℕ) (msg : TxMsg)

/-- `is_next_pkt_same_req`. -/
def isNextPktSameReq (s : SrvSlot) (h : Pkthdr) : Prop :=
  h.reqNum = s.curReqNum ∧ h.pktNum = s.numRx

/-- `is_first_pkt_next_req`. -/
def isFirstPktNextReq (s : SrvSlot) (h : Pkthdr) : Prop :=
  h.reqNum = s.curReqNum + kSessionReqWindow ∧ h.pktNum = 0

/-- The packet is the next one: the next packet of this request, the first packet of the next
one, or the RFR for the next response packet. -/
def SrvSlot.Expects (reqs : ReqLog) (s : SrvSlot) (h : Pkthdr) : Prop :=
  (h.pktType = .kReq ∧
    (isFirstPktNextReq s h ∨ (kMaxDataPerPkt < h.msgSize ∧ isNextPktSameReq s h))) ∨
  (h.pktType = .kRFR ∧
    h.reqNum = s.curReqNum ∧ h.pktNum + (reqs s.curReqNum).1.totalPkt = s.numRx + 1)

instance (s : SrvSlot) (h : Pkthdr) : Decidable (isNextPktSameReq s h) :=
  inferInstanceAs (Decidable (_ ∧ _))

instance (s : SrvSlot) (h : Pkthdr) : Decidable (isFirstPktNextReq s h) :=
  inferInstanceAs (Decidable (_ ∧ _))

instance (reqs : ReqLog) (s : SrvSlot) (h : Pkthdr) : Decidable (s.Expects reqs h) :=
  inferInstanceAs (Decidable ((_ ∧ (_ ∨ _)) ∨ (_ ∧ _)))

section Slot

variable (cli srv : Endpoint) (fn : ℕ → ReqFuncType) (reqs : ReqLog)

/-- The header that arrives. -/
def SrvAct.hdr : SrvAct → Option Pkthdr
  | .req n k _ _ => some (reqHdr reqs n k)
  | .rfr resp j => some (rfrHdr cli resp j)
  | .answer _ _ => none

def SrvCtx.step (c : SrvCtx) : SrvAct → Option SrvCtx
  | .req n k preReq body => Srv.recvSlot srv fn preReq body (reqHdr reqs n k) c
  | .rfr resp j => Srv.recvSlot srv fn 0 0 (rfrHdr cli resp j) c
  | .answer lkey msg => some (enqueueResponse srv lkey msg c)

/-- The packets that a network may deliver: any packet of any request, at any time.  Request
numbers have 32 bits in a header, and none is used twice. -/
def SrvCtx.Arrives (_c : SrvCtx) : SrvAct → Prop
  | .req n k _ _ => n < 2 ^ 32 ∧ k < (reqs n).1.totalPkt
  | .rfr _ _ => True
  | .answer _ _ => True

/-- The packets that arrive in order. -/
def SrvCtx.ArrivesInOrder (c : SrvCtx) (a : SrvAct) : Prop :=
  c.Arrives reqs a ∧ ∀ h ∈ a.hdr cli reqs, c.slot.Expects reqs h

instance (c : SrvCtx) (a : SrvAct) : Decidable (c.Arrives reqs a) :=
  match a with
  | .req _ _ _ _ => inferInstanceAs (Decidable (_ ∧ _))
  | .rfr _ _ => isTrue trivial
  | .answer _ _ => isTrue trivial

instance (c : SrvCtx) (a : SrvAct) : Decidable (c.ArrivesInOrder cli reqs a) :=
  inferInstanceAs (Decidable (_ ∧ _))

end Slot

/-- Request numbers of the handler invocations, in the dispatch thread or in the background. -/
def SrvCtx.handled (c : SrvCtx) : List ℕ := (c.calls ++ c.bgReqs).map Call.reqNum

/-- A packet out of order leaves the slot alone, and an RFR of an old request makes the server
send nothing. -/
def Undisturbed (reqs : ReqLog) (h : Pkthdr) (c c' : SrvCtx) : Prop :=
  (¬ c.slot.Expects reqs h → c'.slot.numRx = c.slot.numRx ∧
    c'.slot.curReqNum = c.slot.curReqNum ∧ c'.slot.reqIov = c.slot.reqIov) ∧
  (h.pktType = .kRFR → h.reqNum < c.slot.curReqNum → c'.tx = c.tx)

/-! ## What the handlers do to the counters -/

/-- The effect of a packet on the counters: they become `num` and `rx`, and the handler is
invoked only if these are all packets. -/
structure Counted (c c' : SrvCtx) (num rx total : ℕ) : Prop where
  curReqNum : c'.slot.curReqNum = num
  numRx : c'.slot.numRx = rx
  handled : c'.handled = c.handled ∨ (rx = total ∧ c'.handled.Perm (num :: c.handled))

variable {c c' : SrvCtx} {h : Pkthdr} {fn : ℕ → ReqFuncType} {reqs : ReqLog}

theorem handled_call (c : SrvCtx) (slot : SrvSlot) (x : Call) :
    ({ c with slot := slot, calls := c.calls ++ [x] } : SrvCtx).handled.Perm
      (x.reqNum :: c.handled) := by
  unfold SrvCtx.handled
  rw [List.append_assoc, List.singleton_append]
  exact List.perm_middle.map _

theorem handled_bg (c : SrvCtx) (slot : SrvSlot) (x : Call) :
    ({ c with slot := slot, bgReqs := c.bgReqs ++ [x] } : SrvCtx).handled.Perm
      (x.reqNum :: c.handled) := by
  unfold SrvCtx.handled
  rw [← List.append_assoc, List.map_append]
  exact List.perm_append_singleton _ _

theorem handleReq_counted (fn : ℕ → ReqFuncType) (h : Pkthdr) (c : SrvCtx) :
    Counted c (handleReq fn h c) c.slot.curReqNum c.slot.numRx h.totalPkt := by
  unfold handleReq
  split_ifs with hrx
  · exact ⟨rfl, rfl, Or.inl rfl⟩
  · split
    · exact ⟨rfl, rfl, Or.inr ⟨not_not.mp hrx, handled_call c _ _⟩⟩
    · exact ⟨rfl, rfl, Or.inr ⟨not_not.mp hrx, handled_bg c _ _⟩⟩

theorem processSmallReq_counted (fn : ℕ → ReqFuncType) (body : ℕ) (h : Pkthdr) (c : SrvCtx) :
    Counted c (processSmallReq fn body h c) h.reqNum 1 1 := by
  unfold processSmallReq
  dsimp only
  split
  · exact ⟨rfl, rfl, Or.inr ⟨rfl, handled_call c _ _⟩⟩
  · exact ⟨rfl, rfl, Or.inl rfl⟩

theorem processLargeReqOne_counted (e : Endpoint) (fn : ℕ → ReqFuncType) (preReq body : ℕ)
    (h : Pkthdr) (c : SrvCtx) :
    Counted c (processLargeReqOne e fn preReq body h c) (trackReq h c.slot).curReqNum
      (trackReq h c.slot).numRx h.totalPkt := by
  obtain ⟨tx, -, ⟨-, heq⟩ | ⟨v, -, heq⟩⟩ := processLargeReqOne_cases e fn preReq body h c
  · rw [heq]
    exact ⟨rfl, rfl, Or.inl rfl⟩
  · obtain ⟨hnum, hrx, hhandled⟩ := handleReq_counted fn h
      { c with slot := { trackReq h c.slot with reqIov := v }, tx := tx }
    rw [heq]
    exact ⟨hnum, hrx, hhandled⟩

/-! ## Headers of requests -/

theorem reqHdr_reqNum (reqs : ReqLog) {n : ℕ} (k : ℕ) (hn : n < 2 ^ 32) :
    (reqHdr reqs n k).reqNum = n :=
  ((reqs n).1.fill_reqNum _ _ k).trans (Nat.mod_eq_of_lt hn)

theorem reqHdr_totalPkt (reqs : ReqLog) (n k : ℕ) :
    (reqHdr reqs n k).totalPkt = (reqs n).1.totalPkt := (reqs n).1.fill_totalPkt _ _ k

theorem reqHdr_msgSize (reqs : ReqLog) (n k : ℕ) :
    (reqHdr reqs n k).msgSize = (reqs n).1.msgSize := (reqs n).1.fill_msgSize _ _ k

theorem reqHdr_pktNum (reqs : ReqLog) {n k : ℕ} (hk : k < (reqs n).1.totalPkt) :
    (reqHdr reqs n k).pktNum = k := (reqs n).1.fill_pktNum _ _ k hk

/-! ## At most one invocation -/

/-- The request numbers handled so far.  That of the slot is among them only when the request
is complete. -/
structure OnceInv (reqs : ReqLog) (c : SrvCtx) : Prop where
  nodup : c.handled.Nodup
  le : ∀ n ∈ c.handled, n ≤ c.slot.curReqNum
  complete : c.slot.curReqNum ∈ c.handled → (reqs c.slot.curReqNum).1.totalPkt ≤ c.slot.numRx

theorem OnceInv.init (reqs : ReqLog) (i : ℕ) : OnceInv reqs (Srv.init.ctx i) where
  nodup := List.nodup_nil
  le := fun _ hn => absurd hn List.not_mem_nil
  complete := fun hn => absurd hn List.not_mem_nil

theorem OnceInv.frame (hi : OnceInv reqs c) (hnum : c'.slot.curReqNum = c.slot.curReqNum)
    (hrx : c.slot.numRx ≤ c'.slot.numRx) (hh : c'.handled = c.handled) : OnceInv reqs c' where
  nodup := hh ▸ hi.nodup
  le := by
    rw [hh, hnum]
    exact hi.le
  complete := by
    rw [hh, hnum]
    exact fun hn => le_trans (hi.complete hn) hrx

/-- A packet of a request that is not handled yet. -/
theorem OnceInv.counted {num rx : ℕ} (hi : OnceInv reqs c)
    (hc : Counted c c' num rx (reqs num).1.totalPkt) (hle : c.slot.curReqNum ≤ num)
    (hnew : num ∉ c.handled) : OnceInv reqs c' := by
  rcases hc.handled with hsame | ⟨hrx, hperm⟩
  · exact {
      nodup := hsame ▸ hi.nodup
      le := by
        intro n hn
        rw [hsame] at hn
        rw [hc.curReqNum]
        exact le_trans (hi.le n hn) hle
      complete := by
        intro hn
        rw [hsame, hc.curReqNum] at hn
        exact absurd hn hnew }
  · exact {
      nodup := hperm.nodup_iff.mpr (List.nodup_cons.mpr ⟨hnew, hi.nodup⟩)
      le := by
        intro n hn
        rw [hc.curReqNum]
        rcases List.mem_cons.mp (hperm.mem_iff.mp hn) with rfl | hold
        · exact le_refl _
        · exact le_trans (hi.le n hold) hle
      complete := by
        intro _
        rw [hc.curReqNum, hc.numRx, hrx] }

theorem trackReq_next (s : SrvSlot) (hnext : isNextPktSameReq s h) :
    (trackReq h s).curReqNum = s.curReqNum := by
  unfold trackReq
  split_ifs
  · exact hnext.1
  · rfl

theorem trackReq_first (s : SrvSlot) (hfirst : isFirstPktNextReq s h) :
    (trackReq h s).curReqNum = h.reqNum := by
  unfold trackReq
  rw [if_pos hfirst.2]

/-- **One expected request packet.** -/
theorem OnceInv.req {srv : Endpoint} {n k preReq body : ℕ} (hi : OnceInv reqs c)
    (hn : n < 2 ^ 32) (hk : k < (reqs n).1.totalPkt)
    (hexp : c.slot.Expects reqs (reqHdr reqs n k))
    (hs : Srv.recvSlot srv fn preReq body (reqHdr reqs n k) c = some c') : OnceInv reqs c' := by
  have hs' : c' = if (reqHdr reqs n k).msgSize ≤ kMaxDataPerPkt
      then processSmallReq fn body (reqHdr reqs n k) c
      else processLargeReqOne srv fn preReq body (reqHdr reqs n k) c := (Option.some.inj hs).symm
  have hnum := reqHdr_reqNum reqs k hn
  have htot := reqHdr_totalPkt reqs n k
  rcases hexp with ⟨-, hfirst | ⟨hlarge, hnext⟩⟩ | ⟨hty, -⟩
  · -- the first packet of a request with a larger number
    have hgt : c.slot.curReqNum < n := by
      have := hfirst.1
      rw [hnum] at this
      unfold kSessionReqWindow at this
      omega
    have hnew : n ∉ c.handled := fun hx => absurd (hi.le n hx) (by omega)
    split_ifs at hs' with hsmall
    · rw [reqHdr_msgSize, (reqs n).1.small_iff] at hsmall
      have hc := processSmallReq_counted fn body (reqHdr reqs n k) c
      rw [← hs', hnum] at hc
      have hc' : Counted c c' n 1 (reqs n).1.totalPkt := by
        rw [hsmall]
        exact hc
      exact hi.counted hc' (le_of_lt hgt) hnew
    · have hc := processLargeReqOne_counted srv fn preReq body (reqHdr reqs n k) c
      rw [← hs', htot, trackReq_first c.slot hfirst, hnum] at hc
      exact hi.counted hc (le_of_lt hgt) hnew
  · -- the next packet of the request of the slot, which is not complete
    rw [if_neg (by omega)] at hs'
    have hcur : n = c.slot.curReqNum := hnum.symm.trans hnext.1
    have hrx : k = c.slot.numRx := (reqHdr_pktNum reqs hk).symm.trans hnext.2
    have hc := processLargeReqOne_counted srv fn preReq body (reqHdr reqs n k) c
    rw [← hs', htot, trackReq_next c.slot hnext, ← hcur] at hc
    refine hi.counted hc (le_of_eq hcur.symm) ?_
    intro hx
    rw [hcur] at hx hk
    have := hi.complete hx
    omega
  · cases hty

/-- **One step in order** keeps the invariant. -/
theorem OnceInv.step {cli srv : Endpoint} {a : SrvAct} (hi : OnceInv reqs c)
    (hg : c.ArrivesInOrder cli reqs a) (hs : c.step cli srv fn reqs a = some c') :
    OnceInv reqs c' := by
  obtain ⟨harr, hexp⟩ := hg
  cases a with
  | req n k preReq body => exact hi.req harr.1 harr.2 (hexp _ rfl) hs
  | rfr resp j =>
    obtain ⟨b, -, rfl⟩ := Option.map_eq_some_iff.mp hs
    exact hi.frame rfl (Nat.le_succ _) rfl
  | answer lkey msg =>
    obtain rfl := Option.some.inj hs
    exact hi.frame rfl (le_refl _) rfl

/-! ## Packets out of order -/

theorem undisturbed_of_expects (hexp : c.slot.Expects reqs h) : Undisturbed reqs h c c' := by
  refine ⟨fun hno => absurd hexp hno, ?_⟩
  intro hty hlt
  rcases hexp with ⟨hreq, -⟩ | ⟨-, hnum, -⟩
  · rw [hty] at hreq
    cases hreq
  · exact absurd hnum (by omega)

/-- An RFR, or a packet of a large request that is not the first one, is counted in any
order. -/
theorem expects_of_undisturbed {srv : Endpoint} {preReq body : ℕ}
    (hkind : h.pktType = .kRFR ∨ (h.pktType = .kReq ∧ kMaxDataPerPkt < h.msgSize ∧ h.pktNum ≠ 0))
    (hs : Srv.recvSlot srv fn preReq body h c = some c') (hu : Undisturbed reqs h c c') :
    c.slot.Expects reqs h := by
  have hcount : c'.slot.numRx = c.slot.numRx + 1 := by
    unfold Srv.recvSlot at hs
    rcases hkind with hty | ⟨hty, hlarge, hne⟩
    · rw [hty] at hs
      obtain ⟨b, -, rfl⟩ := Option.map_eq_some_iff.mp hs
      rfl
    · rw [hty] at hs
      obtain rfl := Option.some.inj hs
      rw [if_neg (by omega), (processLargeReqOne_counted srv fn preReq body h c).numRx]
      unfold trackReq
      rw [if_neg hne]
  by_contra hno
  have := (hu.1 hno).1
  omega

/-- **In order, the handler is invoked at most once for a request number.**  In every run of a
slot that only gets expected packets the handler was invoked at most once for a request number,
and the next packet, if it is expected, leaves the slot undisturbed; an RFR or a packet of a
large request other than the first one disturbs the slot if it is not expected. -/
theorem handler_once_iff_expected (cli srv : Endpoint) (fn : ℕ → ReqFuncType) (reqs : ReqLog)
    (i : ℕ) (as : List SrvAct) (c : SrvCtx)
    (hrun : Run (SrvCtx.ArrivesInOrder cli reqs) (SrvCtx.step cli srv fn reqs)
      (Srv.init.ctx i) as c) :
    c.handled.Nodup ∧
    ∀ a h c', c.Arrives reqs a → a.hdr cli reqs = some h → c.step cli srv fn reqs a = some c' →
      (c.slot.Expects reqs h → Undisturbed reqs h c c') ∧
      (h.pktType = .kRFR ∨ (kMaxDataPerPkt < h.msgSize ∧ h.pktNum ≠ 0) →
        Undisturbed reqs h c c' → c.slot.Expects reqs h) := by
  have hinv : OnceInv reqs c := hrun.invariant (OnceInv.init reqs i)
    fun _ _ _ hi hg hs => hi.step hg hs
  refine ⟨hinv.nodup, ?_⟩
  intro a h c' _ hh hs
  refine ⟨undisturbed_of_expects, ?_⟩
  intro hkind hu
  cases a with
  | req n k preReq body =>
    obtain rfl := Option.some.inj hh
    refine expects_of_undisturbed ?_ hs hu
    rcases hkind with hty | hlarge
    · exact Or.inl hty
    · exact Or.inr ⟨rfl, hlarge⟩
  | rfr resp j =>
    obtain rfl := Option.some.inj hh
    have hrfr : Srv.recvSlot srv fn 0 0 (rfrHdr cli resp j) c = some c' := hs
    exact expects_of_undisturbed (Or.inl rfl) hrfr hu
  | answer lkey msg => cases hh

/-- Two-packet requests in every slot. -/
def sampleReqs : ReqLog := fun _ => (twoPkts, ⟨1, 3, 0, 0⟩)

/-- The packets of request 32, its answer, and the RFR for the second response packet. -/
def inOrderActs : List SrvAct :=
  [.req 32 0 0 4096, .req 32 1 0 8192, .answer 0 twoPkts, .rfr (reqHdr sampleReqs 32 0) 1]

/-- The packets of request 32 in order: one invocation. -/
theorem handler_once_inOrder : ∃ c, Run (SrvCtx.ArrivesInOrder sampleEnv.cli sampleReqs)
    (SrvCtx.step sampleEnv.cli sampleEnv.srv sampleEnv.fn sampleReqs) (Srv.init.ctx 0)
      inOrderActs c ∧ c.handled = [32] ∧ c.handled.Nodup := by
  have hexec : ((exec (SrvCtx.ArrivesInOrder sampleEnv.cli sampleReqs)
      (SrvCtx.step sampleEnv.cli sampleEnv.srv sampleEnv.fn sampleReqs) (Srv.init.ctx 0)
        inOrderActs).map SrvCtx.handled) = some [32] := by
    decide +kernel
  obtain ⟨c, hc, hh⟩ := Option.map_eq_some_iff.mp hexec
  have hrun := run_of_exec hc
  exact ⟨c, hrun, hh, (handler_once_iff_expected _ _ _ _ _ _ _ hrun).1⟩

/-- **Out of order.**  After request 32 and its answer the network delivers the packets of
request 32 again: the handler is invoked a second time.  And when request 64 was answered, an old
RFR of request 32 makes the server send a packet of the new response. -/
theorem handler_twice :
    (∃ as c, Run (SrvCtx.Arrives sampleReqs)
      (SrvCtx.step sampleEnv.cli sampleEnv.srv sampleEnv.fn sampleReqs) (Srv.init.ctx 0) as c ∧
      ¬ c.handled.Nodup) ∧
    (∃ as c c', Run (SrvCtx.Arrives sampleReqs)
      (SrvCtx.step sampleEnv.cli sampleEnv.srv sampleEnv.fn sampleReqs) (Srv.init.ctx 0) as c ∧
      c.step sampleEnv.cli sampleEnv.srv sampleEnv.fn sampleReqs
        (.rfr (reqHdr sampleReqs 32 0) 1) = some c' ∧
      ¬ Undisturbed sampleReqs (rfrHdr sampleEnv.cli (reqHdr sampleReqs 32 0) 1) c c') := by
  constructor
  · have hexec : ((exec (SrvCtx.Arrives sampleReqs)
        (SrvCtx.step sampleEnv.cli sampleEnv.srv sampleEnv.fn sampleReqs) (Srv.init.ctx 0)
          (inOrderActs ++ [.req 32 0 0 4096, .req 32 1 0 8192])).map SrvCtx.handled)
        = some [32, 32] := by
      decide +kernel
    obtain ⟨c, hc, hh⟩ := Option.map_eq_some_iff.mp hexec
    refine ⟨_, c, run_of_exec hc, ?_⟩
    rw [hh]
    decide
  · have hexec : ((exec (SrvCtx.Arrives sampleReqs)
        (SrvCtx.step sampleEnv.cli sampleEnv.srv sampleEnv.fn sampleReqs) (Srv.init.ctx 0)
          (inOrderActs ++ [.req 64 0 0 4096, .req 64 1 0 8192, .answer 0 twoPkts])).bind fun c =>
          (c.step sampleEnv.cli sampleEnv.srv sampleEnv.fn sampleReqs
            (.rfr (reqHdr sampleReqs 32 0) 1)).map fun c' =>
              (c.slot.curReqNum, c.tx.length, c'.tx.length)) = some (64, 5, 6) := by
      decide +kernel
    obtain ⟨c, hc, hrest⟩ := Option.bind_eq_some_iff.mp hexec
    obtain ⟨c', hc', hval⟩ := Option.map_eq_some_iff.mp hrest
    refine ⟨_, c, c', run_of_exec hc, hc', ?_⟩
    intro hu
    have hcur : c.slot.curReqNum = 64 := congrArg Prod.fst hval
    have htx := hu.2 rfl (by rw [hcur]; decide)
    have hlen : c.tx.length = 5 ∧ c'.tx.length = 6 :=
      ⟨congrArg (fun x => x.2.1) hval, congrArg (fun x => x.2.2) hval⟩
    rw [htx] at hlen
    omega

end HuiRpc
