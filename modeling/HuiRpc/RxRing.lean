/-
# The receive ring and requests that point into it

Model of `process_comps_st` and of `rx_burst`, `post_recvs` and `init_recvs` of the transport.
The NIC writes arriving packets into the posted entries of the ring, in the order in which they
were posted.  `process_comps_st` looks at up to `kPostlist` of them, hands the body of a request
packet to `process_large_req_one_st`, which only keeps a pointer to it, and gives all entries of
the batch back.  `post_recvs` collects what it is given until there are `kRecvSlack` entries.

* The ring has any number of entries `R`.  `Rx.ring r` is the number of the packet that entry
  `r` holds, counting all packets from the start.
* `Rx.held` lists the packets whose bodies the request of a slot points at.
* A packet is one of a multi-packet request, or one that leaves the requests alone (a packet for
  a client session, or one that is dropped); the packets of a slot arrive in order.
-/
import HuiRpc.ServerOrder
import HuiRpc.Lib.Circular

namespace HuiRpc

open Runs Circular

/-! ## The state -/

/-- RECVs batched before posting. -/
def kRecvSlack : ℕ := 32

/-- The ring: its number of entries, and the address of its bodies, which do not wrap around the
address space. -/
structure RingCfg where
  R : ℕ
  bodyBase : ℕ
  pos : 0 < R
  fits : bodyBase + R * kMaxDataPerPkt < 2 ^ 64

/-- `rx_ring_[r][1]`. -/
def RingCfg.bodyAddr (g : RingCfg) (r : ℕ) : ℕ := g.bodyBase + r * kMaxDataPerPkt

/-- A packet of a multi-packet request of a session, or one that leaves the requests alone. -/
inductive RxPkt
  | req (session : ℕ) (h : Pkthdr)
  | other

/-- The receive side of an `Rpc`.  A slot is named by its session and its index.

* `log` — the packets written by the NIC so far;
* `rq` — the posted entries, first to be keeps first;
* `burst`, `batch` — size of the batch in progress and what is left of it;
* `handled` — number of packets looked at;
* `called` — the slot whose handler the last step invoked. -/
structure Rx where
  log : List RxPkt
  ring : ℕ → ℕ
  rq : List ℕ
  rxRingHead : ℕ
  recvHead : ℕ
  recvsToPost : ℕ
  burst : ℕ
  batch : ℕ
  handled : ℕ
  slots : ℕ × ℕ → SrvSlot
  held : ℕ × ℕ → List ℕ
  called : Option (ℕ × ℕ)

inductive RxAct
  | write (p : RxPkt)
  | poll (n : ℕ)
  | handle (preReq : ℕ)

namespace Rx

/-- After `init_recvs`: all entries are posted. -/
def init (g : RingCfg) : Rx where
  log := []
  ring := fun _ => 0
  rq := List.range g.R
  rxRingHead := 0
  recvHead := 0
  recvsToPost := 0
  burst := 0
  batch := 0
  handled := 0
  slots := fun k => Srv.init.slots k.2
  held := fun _ => []
  called := none

/-- The packet in the ring entry that is looked at next. -/
def current (s : Rx) : RxPkt := s.log.getD (s.ring s.rxRingHead) .other

/-- Packets of a session that were not looked at yet, and so have not given back their credit. -/
def pending (s : Rx) (session : ℕ) : ℕ :=
  (s.log.drop s.handled).countP fun
    | .req x _ => x = session
    | .other => false

/-! ## Steps -/

/-- `post_recvs`. -/
def postRecvs (g : RingCfg) (n : ℕ) (s : Rx) : Rx :=
  let t := s.recvsToPost + n
  if t < kRecvSlack then { s with recvsToPost := t }
  else
    let last := lastOf g.R s.recvHead t
    { s with
      rq := s.rq ++ chain g.R s.recvHead last
      recvHead := (last + 1) % g.R
      recvsToPost := 0 }

/-- The dispatch of one packet in `process_comps_st`. -/
def dispatch (e : Endpoint) (fn : ℕ → ReqFuncType) (g : RingCfg) (preReq : ℕ) (s : Rx) : Rx :=
  match s.current with
  | .other => { s with called := none }
  | .req session h =>
      let k := (session, slotOf h)
      let w := s.ring s.rxRingHead
      let body := g.bodyAddr s.rxRingHead
      let x := processLargeReqOne e fn preReq body h ⟨s.slots k, [], [], []⟩
      let held := if h.pktNum = 0 then [w] else s.held k ++ [w]
      { s with
        slots := Function.update s.slots k x.slot
        held := Function.update s.held k held
        called := if x.calls = [] then none else some k }

/-- The counters of the loop of `process_comps_st`. -/
def tick (g : RingCfg) (s : Rx) : Rx :=
  { s with
    rxRingHead := if s.rxRingHead + 1 = g.R then 0 else s.rxRingHead + 1
    handled := s.handled + 1
    batch := s.batch - 1 }

/-- `post_recvs` behind the last turn of the loop. -/
def finishBatch (g : RingCfg) (s : Rx) : Rx :=
  if s.batch = 0 then { s.postRecvs g s.burst with burst := 0 } else s

/-- One turn of the loop of `process_comps_st`. -/
def handle (e : Endpoint) (fn : ℕ → ReqFuncType) (g : RingCfg) (preReq : ℕ) (s : Rx) : Rx :=
  ((s.dispatch e fn g preReq).tick g).finishBatch g

def step (e : Endpoint) (fn : ℕ → ReqFuncType) (g : RingCfg) (s : Rx) : RxAct → Option Rx
  | .write p =>
      match s.rq with
      | [] => none
      | r :: rest => some { s with
          log := s.log ++ [p]
          ring := Function.update s.ring r s.log.length
          rq := rest
          called := none }
  | .poll n => some { s with burst := n, batch := n, called := none }
  | .handle preReq => some (s.handle e fn g preReq)

/-- A header as a client writes it. -/
def Sendable (h : Pkthdr) : Prop :=
  h.pktType = .kReq ∧ kMaxDataPerPkt < h.msgSize ∧ h.thisMsgSize ≤ kMaxDataPerPkt ∧
    h.pktNum < pkgIndexSize

/-- When an action may be taken.  The NIC needs a posted entry, and a session a credit. -/
def Enabled (s : Rx) : RxAct → Prop
  | .write p => s.rq ≠ [] ∧
      match p with
      | .req session h => Sendable h ∧ s.pending session < kSessionCredits
      | .other => True
  | .poll n => s.batch = 0 ∧ 0 < n ∧ n ≤ kPostlist ∧ s.handled + n ≤ s.log.length
  | .handle _ => 0 < s.batch ∧
      match s.current with
      | .req session h => h.pktNum = 0 ∨ isNextPktSameReq (s.slots (session, slotOf h)) h
      | .other => True

instance (h : Pkthdr) : Decidable (Sendable h) := inferInstanceAs (Decidable (_ ∧ _ ∧ _ ∧ _))

instance (s : Rx) (a : RxAct) : Decidable (s.Enabled a) :=
  match a with
  | .write (.req session h) => decidable_of_iff
      (s.rq.isEmpty = false ∧ Sendable h ∧ s.pending session < kSessionCredits)
      (by simp [Enabled])
  | .write .other => decidable_of_iff (s.rq.isEmpty = false) (by simp [Enabled])
  | .poll _ => inferInstanceAs (Decidable (_ ∧ _ ∧ _ ∧ _))
  | .handle _ =>
      match h : s.current with
      | .req session hd => decidable_of_iff
          (0 < s.batch ∧ (hd.pktNum = 0 ∨ isNextPktSameReq (s.slots (session, slotOf hd)) hd))
          (by simp [Enabled, h])
      | .other => decidable_of_iff (0 < s.batch) (by simp [Enabled, h])

end Rx

/-! ## The ring -/

section Ring

variable {g : RingCfg} {s s' : Rx} {e : Endpoint} {fn : ℕ → ReqFuncType}

/-- Posted entries follow the packets written, and what is neither posted nor holds a packet to
be looked at waits in `recvs_to_post` or belongs to the batch. -/
structure RingInv (g : RingCfg) (s : Rx) : Prop where
  rq : s.rq = seg (· % g.R) s.log.length (s.log.length + s.rq.length)
  balance : s.log.length + s.rq.length + s.recvsToPost + (s.burst - s.batch) = g.R + s.handled
  recvHead : s.recvHead = (s.log.length + s.rq.length) % g.R
  rxRingHead : s.rxRingHead = s.handled % g.R
  avail : s.handled + s.batch ≤ s.log.length
  batch_le : s.batch ≤ s.burst
  idle : s.batch = 0 → s.burst = 0
  keeps : Keeps g.R s.ring s.log.length

theorem RingInv.init (g : RingCfg) : RingInv g (Rx.init g) where
  rq := by
    show List.range g.R = seg (· % g.R) 0 (0 + (List.range g.R).length)
    rw [List.length_range, seg_eq_map_range, Nat.zero_add]
    refine (List.map_id _).symm.trans (List.map_congr_left ?_)
    intro j hj
    rw [List.mem_range] at hj
    show j = (0 + j) % g.R
    rw [Nat.zero_add, Nat.mod_eq_of_lt hj]
  balance := by
    show 0 + (List.range g.R).length + 0 + (0 - 0) = g.R + 0
    rw [List.length_range]
    omega
  recvHead := by
    show 0 = (0 + (List.range g.R).length) % g.R
    rw [List.length_range, Nat.zero_add, Nat.mod_self]
  rxRingHead := (Nat.zero_mod _).symm
  avail := le_refl _
  batch_le := le_refl _
  idle := fun _ => rfl
  keeps := Keeps.zero _ _

/-- The packet that is looked at next is in the ring. -/
theorem RingInv.ring_head (h : RingInv g s) (hb : 0 < s.batch) :
    s.ring s.rxRingHead = s.handled := by
  have hav := h.avail
  have hbal := h.balance
  rw [h.rxRingHead]
  exact h.keeps s.handled (by omega) (by omega)

theorem RingInv.write {p : RxPkt} (h : RingInv g s)
    (hs : s.step e fn g (.write p) = some s') : RingInv g s' := by
  cases hrq : s.rq with
  | nil =>
    simp only [Rx.step, hrq] at hs
    cases hs
  | cons r rest =>
    simp only [Rx.step, hrq, Option.some.injEq] at hs
    have hq := h.rq
    have hlen : s.rq.length = rest.length + 1 := by rw [hrq, List.length_cons]
    rw [hlen, seg_cons _ (by omega), hrq, List.cons.injEq] at hq
    obtain ⟨hr, hrest⟩ := hq
    have hbal := h.balance
    have hhead := h.recvHead
    have hav := h.avail
    have hsum : s.log.length + 1 + rest.length = s.log.length + s.rq.length := by omega
    subst hs
    have hlog : (s.log ++ [p]).length = s.log.length + 1 := by
      rw [List.length_append, List.length_singleton]
    exact {
      rq := by
        show rest = seg _ (s.log ++ [p]).length ((s.log ++ [p]).length + rest.length)
        rw [hlog, hsum, hlen]
        exact hrest
      balance := by
        show (s.log ++ [p]).length + rest.length + s.recvsToPost + (s.burst - s.batch) = _
        rw [hlog, hsum]
        exact hbal
      recvHead := by
        show s.recvHead = ((s.log ++ [p]).length + rest.length) % g.R
        rw [hlog, hsum]
        exact hhead
      rxRingHead := h.rxRingHead
      avail := by
        show s.handled + s.batch ≤ (s.log ++ [p]).length
        omega
      batch_le := h.batch_le
      idle := h.idle
      keeps := by
        show Keeps g.R (Function.update s.ring r s.log.length) (s.log ++ [p]).length
        rw [hlog, hr]
        exact h.keeps.write }

theorem RingInv.poll {n : ℕ} (h : RingInv g s) (hen : s.Enabled (.poll n))
    (hs : s.step e fn g (.poll n) = some s') : RingInv g s' := by
  obtain ⟨hb, hn, -, hav⟩ := hen
  have hburst := h.idle hb
  obtain rfl := Option.some.inj hs
  have hbal := h.balance
  exact {
    rq := h.rq
    balance := by
      show s.log.length + s.rq.length + s.recvsToPost + (n - n) = g.R + s.handled
      omega
    recvHead := h.recvHead
    rxRingHead := h.rxRingHead
    avail := hav
    batch_le := le_refl _
    idle := fun h0 => absurd h0 (show n ≠ 0 by omega)
    keeps := h.keeps }

/-- The dispatch of a packet does not touch the ring. -/
structure SameRing (s s' : Rx) : Prop where
  log : s'.log = s.log
  ring : s'.ring = s.ring
  rq : s'.rq = s.rq
  rxRingHead : s'.rxRingHead = s.rxRingHead
  recvHead : s'.recvHead = s.recvHead
  recvsToPost : s'.recvsToPost = s.recvsToPost
  burst : s'.burst = s.burst
  batch : s'.batch = s.batch
  handled : s'.handled = s.handled

theorem Rx.dispatch_sameRing (e : Endpoint) (fn : ℕ → ReqFuncType) (g : RingCfg) (preReq : ℕ)
    (s : Rx) : SameRing s (s.dispatch e fn g preReq) := by
  unfold Rx.dispatch
  split <;> exact ⟨rfl, rfl, rfl, rfl, rfl, rfl, rfl, rfl, rfl⟩

theorem RingInv.congr (h : RingInv g s) (hsame : SameRing s s') : RingInv g s' where
  rq := by
    rw [hsame.rq, hsame.log]
    exact h.rq
  balance := by
    rw [hsame.log, hsame.rq, hsame.recvsToPost, hsame.burst, hsame.batch, hsame.handled]
    exact h.balance
  recvHead := by
    rw [hsame.recvHead, hsame.log, hsame.rq]
    exact h.recvHead
  rxRingHead := by
    rw [hsame.rxRingHead, hsame.handled]
    exact h.rxRingHead
  avail := by
    rw [hsame.handled, hsame.batch, hsame.log]
    exact h.avail
  batch_le := by
    rw [hsame.batch, hsame.burst]
    exact h.batch_le
  idle := by
    rw [hsame.batch, hsame.burst]
    exact h.idle
  keeps := by
    rw [hsame.ring, hsame.log]
    exact h.keeps

/-- `post_recvs` of what the batch has used up.  In between, the entries of the batch count
neither as posted nor as waiting. -/
theorem RingInv.postRecvs (hrq : s.rq = seg (· % g.R) s.log.length (s.log.length + s.rq.length))
    (hbal : s.log.length + s.rq.length + s.recvsToPost + s.burst = g.R + s.handled)
    (hhead : s.recvHead = (s.log.length + s.rq.length) % g.R)
    (hrx : s.rxRingHead = s.handled % g.R) (hav : s.handled ≤ s.log.length) (hb : s.batch = 0)
    (hkeeps : Keeps g.R s.ring s.log.length) :
    RingInv g { s.postRecvs g s.burst with burst := 0 } := by
  unfold Rx.postRecvs
  dsimp only
  split_ifs with hslack
  · exact {
      rq := hrq
      balance := by
        show s.log.length + s.rq.length + (s.recvsToPost + s.burst) + (0 - s.batch)
          = g.R + s.handled
        omega
      recvHead := hhead
      rxRingHead := hrx
      avail := by
        show s.handled + s.batch ≤ s.log.length
        omega
      batch_le := le_of_eq hb
      idle := fun _ => rfl
      keeps := hkeeps }
  · -- no more than `R` entries can have been used up
    set t := s.recvsToPost + s.burst with ht
    set last := s.log.length + s.rq.length with hlast
    have hpos : 0 < t := by
      unfold kRecvSlack at hslack
      omega
    have hle : t ≤ g.R := by omega
    have hchain : chain g.R s.recvHead (lastOf g.R s.recvHead t)
        = seg (· % g.R) last (last + t) := by
      rw [hhead]
      exact chain_eq last g.pos hpos hle
    have hlen : (s.rq ++ chain g.R s.recvHead (lastOf g.R s.recvHead t)).length
        = s.rq.length + t := by
      rw [List.length_append, hchain, length_seg]
      omega
    have hsum : s.log.length + (s.rq.length + t) = last + t := by omega
    exact {
      rq := by
        show s.rq ++ chain g.R s.recvHead (lastOf g.R s.recvHead t) = seg (· % g.R) s.log.length
          (s.log.length + (s.rq ++ chain g.R s.recvHead (lastOf g.R s.recvHead t)).length)
        rw [hlen, hchain, hsum, ← seg_append _ (show s.log.length ≤ last by omega)
          (Nat.le_add_right last t)]
        congr 1
      balance := by
        show s.log.length + (s.rq ++ chain g.R s.recvHead (lastOf g.R s.recvHead t)).length + 0
          + (0 - s.batch) = g.R + s.handled
        omega
      recvHead := by
        show (lastOf g.R s.recvHead t + 1) % g.R = (s.log.length
          + (s.rq ++ chain g.R s.recvHead (lastOf g.R s.recvHead t)).length) % g.R
        rw [hlen, hsum, hhead]
        exact lastOf_succ last hpos
      rxRingHead := hrx
      avail := by
        show s.handled + s.batch ≤ s.log.length
        omega
      batch_le := le_of_eq hb
      idle := fun _ => rfl
      keeps := hkeeps }

/-- One packet of the batch is done. -/
theorem RingInv.tick (h : RingInv g s) (hb : 0 < s.batch) :
    RingInv g ((s.tick g).finishBatch g) := by
  have hbal := h.balance
  have hav := h.avail
  have hle := h.batch_le
  have hhead : (s.tick g).rxRingHead = (s.tick g).handled % g.R := by
    show (if s.rxRingHead + 1 = g.R then 0 else s.rxRingHead + 1) = (s.handled + 1) % g.R
    rw [h.rxRingHead]
    exact wrap_succ s.handled g.pos
  unfold Rx.finishBatch
  split_ifs with h0
  · have hlast : s.batch - 1 = 0 := h0
    refine RingInv.postRecvs h.rq ?_ h.recvHead hhead ?_ h0 h.keeps
    · show s.log.length + s.rq.length + s.recvsToPost + s.burst = g.R + (s.handled + 1)
      omega
    · show s.handled + 1 ≤ s.log.length
      omega
  · exact {
      rq := h.rq
      balance := by
        show s.log.length + s.rq.length + s.recvsToPost + (s.burst - (s.batch - 1))
          = g.R + (s.handled + 1)
        omega
      recvHead := h.recvHead
      rxRingHead := hhead
      avail := by
        show s.handled + 1 + (s.batch - 1) ≤ s.log.length
        omega
      batch_le := by
        show s.batch - 1 ≤ s.burst
        omega
      idle := fun hx => absurd hx h0
      keeps := h.keeps }

end Ring

/-! ## Where the entries of a request point -/

/-- All entries lie below `B` and in `P`, those in front of the window included. -/
def Iovector.Within (v : Iovector) (P : ℕ → Prop) (B : ℕ) : Prop :=
  ∀ j, j < v.iovEnd → (v.iovs j).iovBase + (v.iovs j).iovLen ≤ B ∧
    ∀ a, (v.iovs j).iovBase ≤ a → a < (v.iovs j).iovBase + (v.iovs j).iovLen → P a

theorem Iovector.Within.mono {v : Iovector} {P Q : ℕ → Prop} {B : ℕ} (h : v.Within P B)
    (hPQ : ∀ a, P a → Q a) : v.Within Q B :=
  fun j hj => ⟨(h j hj).1, fun a h1 h2 => hPQ a ((h j hj).2 a h1 h2)⟩

theorem Iovector.Within.entries {v : Iovector} {P : ℕ → Prop} {B : ℕ} (h : v.Within P B)
    {x : Iovec} (hx : x ∈ v.entries) : ∀ a, x.iovBase ≤ a → a < x.iovBase + x.iovLen → P a := by
  obtain ⟨j, hj, rfl⟩ := List.mem_map.mp hx
  rw [List.mem_range] at hj
  unfold Iovector.iovcnt at hj
  exact (h (v.iovBegin + j) (by omega)).2

/-- **Collecting a body** keeps the entries within the bodies. -/
theorem collect_within {v v' : Iovector} {P : ℕ → Prop} {B preReq body n : ℕ} (h : v.Within P B)
    (hB : B < 2 ^ 64) (hbody : ∀ a, body ≤ a → a < body + n → P a) (hend : body + n ≤ B)
    (hcap : v.capacity < 2 ^ 16) (hbeg : v.iovBegin < 2 ^ 16 - 1) (hn : n < 2 ^ 16)
    (hc : collect preReq body n v = some v') : v'.Within P B := by
  unfold collect at hc
  split_ifs at hc with hadj hret
  · obtain rfl := Option.some.inj hc
    unfold backEntry at hadj
    unfold growBack
    split_ifs with h0
    · -- the header of the vector grows, and the window stays empty
      intro j hj
      have hj' : j < (v.hdrWord + n) / 2 ^ 32 % 2 ^ 16 := hj
      unfold Iovector.hdrWord at hj'
      omega
    · rw [if_neg h0] at hadj
      intro j hj
      by_cases hlast : j = v.iovEnd - 1
      · obtain ⟨hle, hP⟩ := h (v.iovEnd - 1) (by omega)
        rw [hlast]
        dsimp only
        rw [Function.update_self]
        refine ⟨by dsimp only; omega, ?_⟩
        intro a h1 h2
        dsimp only at h1 h2
        by_cases hold : a < (v.iovs (v.iovEnd - 1)).iovBase + (v.iovs (v.iovEnd - 1)).iovLen
        · exact hP a h1 hold
        · exact hbody a (by omega) (by omega)
      · dsimp only
        rw [Function.update_of_ne hlast]
        exact h j hj
  · obtain rfl := Option.some.inj hc
    unfold Iovector.pushBackBuf Iovector.pushBack
    split_ifs with hfull
    · intro j hj
      by_cases hlast : j = v.iovEnd
      · rw [hlast]
        dsimp only
        rw [Function.update_self]
        exact ⟨hend, hbody⟩
      · have hj' : j < v.iovEnd + 1 := hj
        dsimp only
        rw [Function.update_of_ne hlast]
        exact h j (by omega)
    · exact h

/-- What `process_large_req_one_st` collects. -/
theorem processLargeReqOne_reqIov {e : Endpoint} {fn : ℕ → ReqFuncType} {preReq body : ℕ}
    {h : Pkthdr} {c : SrvCtx} {v : Iovector}
    (hv : collect preReq body h.thisMsgSize (trackReq h c.slot).reqIov = some v) :
    (processLargeReqOne e fn preReq body h c).slot.reqIov = v := by
  obtain ⟨tx, -, ⟨hnone, -⟩ | ⟨w, hw, heq⟩⟩ := processLargeReqOne_cases e fn preReq body h c
  · rw [hv] at hnone
    cases hnone
  · rw [heq, (handleReq_frame fn h _).2]
    exact Option.some.inj (hw.symm.trans hv)

/-! ## The packets of a request -/

section Held

variable {g : RingCfg} {log log' : List RxPkt} {m m' n : ℕ} {ws : List ℕ} {v v' : Iovector}
  {k : ℕ × ℕ}

/-- Address `a` lies in the body of one of the packets `ws`. -/
def RingCfg.InBodies (g : RingCfg) (ws : List ℕ) (a : ℕ) : Prop :=
  ∃ w ∈ ws, g.bodyAddr (w % g.R) ≤ a ∧ a < g.bodyAddr (w % g.R) + kMaxDataPerPkt

/-- Packet number `w` is packet `j` of request `n` of slot `k`. -/
def IsPacket (log : List RxPkt) (k : ℕ × ℕ) (n j w : ℕ) : Prop :=
  ∃ h, log[w]? = some (.req k.1 h) ∧ slotOf h = k.2 ∧ h.reqNum = n ∧ h.pktNum = j

theorem IsPacket.mono {j w : ℕ} (h : IsPacket log k n j w) (hlog : log <+: log') :
    IsPacket log' k n j w := by
  obtain ⟨hd, hget, hrest⟩ := h
  obtain ⟨rest, rfl⟩ := hlog
  refine ⟨hd, ?_, hrest⟩
  rw [List.getElem?_append_left (List.getElem?_eq_some_iff.mp hget).1, hget]

/-- **The beginning of request `n` of slot `k`**, when `m` packets were looked at: `ws` are its
first packets, and the entries of `v` lie in their bodies. -/
structure HeldAt (g : RingCfg) (log : List RxPkt) (m : ℕ) (k : ℕ × ℕ) (n : ℕ) (ws : List ℕ)
    (v : Iovector) : Prop where
  lt : ∀ w ∈ ws, w < m
  sorted : ws.Pairwise (· < ·)
  packet : ∀ j w, ws[j]? = some w → IsPacket log k n j w
  within : v.Within (g.InBodies ws) (g.bodyBase + g.R * kMaxDataPerPkt)
  iovEnd : v.iovEnd ≤ ws.length
  iovBegin : v.iovBegin ≤ ws.length
  capacity : v.capacity < 2 ^ 16

theorem HeldAt.nil (hend : v.iovEnd = 0) (hbeg : v.iovBegin = 0) (hcap : v.capacity < 2 ^ 16) :
    HeldAt g log m k n [] v where
  lt := fun _ hw => absurd hw List.not_mem_nil
  sorted := List.Pairwise.nil
  packet := by
    intro j w hw
    cases hw
  within := fun j hj => absurd hj (by omega)
  iovEnd := le_of_eq hend
  iovBegin := le_of_eq hbeg
  capacity := hcap

theorem HeldAt.mono (h : HeldAt g log m k n ws v) (hlog : log <+: log') (hm : m ≤ m') :
    HeldAt g log' m' k n ws v :=
  { h with
    lt := fun w hw => lt_of_lt_of_le (h.lt w hw) hm
    packet := fun j w hw => (h.packet j w hw).mono hlog }

/-- The body of a ring entry lies in the ring. -/
theorem RingCfg.body_le (g : RingCfg) (w : ℕ) {len : ℕ} (hlen : len ≤ kMaxDataPerPkt) :
    g.bodyAddr (w % g.R) + len ≤ g.bodyBase + g.R * kMaxDataPerPkt := by
  have hlt := Nat.mod_lt w g.pos
  have hmul : (w % g.R + 1) * kMaxDataPerPkt ≤ g.R * kMaxDataPerPkt := Nat.mul_le_mul_right _ hlt
  rw [Nat.succ_mul] at hmul
  unfold RingCfg.bodyAddr
  omega

/-- **One more packet**: it is pushed or joined to the last entry. -/
theorem HeldAt.snoc {len : ℕ} (h : HeldAt g log m k n ws v) (preReq : ℕ)
    (hp : IsPacket log k n ws.length m) (hlen : len ≤ kMaxDataPerPkt)
    (hws : ws.length < pkgIndexSize) :
    ∃ v', collect preReq (g.bodyAddr (m % g.R)) len v = some v' ∧
      HeldAt g log (m + 1) k n (ws ++ [m]) v' := by
  have hD : kMaxDataPerPkt < 2 ^ 16 := by decide
  have hI : pkgIndexSize < iovCapacity := by decide
  have hI' : pkgIndexSize < 2 ^ 16 - 1 := by decide
  have hend := h.iovEnd
  have hbeg := h.iovBegin
  obtain ⟨v', hc, hend', hcap', hbeg'⟩ := collect_iovEnd preReq (g.bodyAddr (m % g.R))
    (show v.iovEnd < iovCapacity by omega) h.capacity (by omega) (show len < 2 ^ 16 by omega)
  have hlast : ∀ a, g.bodyAddr (m % g.R) ≤ a → a < g.bodyAddr (m % g.R) + len →
      g.InBodies (ws ++ [m]) a := fun a h1 h2 =>
    ⟨m, List.mem_append_right _ (List.mem_singleton_self m), h1, by omega⟩
  have hold : v.Within (g.InBodies (ws ++ [m])) (g.bodyBase + g.R * kMaxDataPerPkt) := by
    refine h.within.mono ?_
    rintro a ⟨w, hw, ha⟩
    exact ⟨w, List.mem_append_left _ hw, ha⟩
  refine ⟨v', hc, ?_⟩
  exact {
    lt := by
      intro w hw
      rcases List.mem_append.mp hw with hw | hw
      · exact Nat.lt_succ_of_lt (h.lt w hw)
      · rw [List.mem_singleton.mp hw]
        exact Nat.lt_succ_self m
    sorted := by
      refine List.pairwise_append.mpr ⟨h.sorted, List.pairwise_singleton _ _, ?_⟩
      intro w hw x hx
      rw [List.mem_singleton.mp hx]
      exact h.lt w hw
    packet := by
      intro j w hw
      by_cases hj : j < ws.length
      · rw [List.getElem?_append_left hj] at hw
        exact h.packet j w hw
      · rw [List.getElem?_append_right (by omega)] at hw
        obtain ⟨h0, rfl⟩ := List.getElem?_eq_some_iff.mp hw
        rw [List.length_singleton] at h0
        rw [List.getElem_singleton, show j = ws.length by omega]
        exact hp
    within := collect_within hold g.fits hlast (g.body_le m hlen) h.capacity (by omega) (by omega) hc
    iovEnd := by
      rw [List.length_append, List.length_singleton]
      omega
    iovBegin := by
      rw [List.length_append, List.length_singleton]
      omega
    capacity := hcap' }

end Held

/-! ## Runs -/

section RxRuns

variable {g : RingCfg} {s s' : Rx} {e : Endpoint} {fn : ℕ → ReqFuncType} {k : ℕ × ℕ}

/-- The request in slot `k`. -/
structure HeldInv (g : RingCfg) (s : Rx) (k : ℕ × ℕ) : Prop where
  held : HeldAt g s.log s.handled k (s.slots k).curReqNum (s.held k) (s.slots k).reqIov
  length : (s.held k).length = (s.slots k).numRx

/-- Ring, requests, and the packets that arrive. -/
structure RxInv (g : RingCfg) (s : Rx) : Prop where
  ring : RingInv g s
  held : ∀ k, HeldInv g s k
  sendable : ∀ session h, RxPkt.req session h ∈ s.log → Rx.Sendable h
  called : ∀ k, s.called = some k → s.held k ≠ []

theorem RxInv.init (g : RingCfg) : RxInv g (Rx.init g) where
  ring := RingInv.init g
  held := fun _ => ⟨HeldAt.nil rfl rfl (Nat.two_pow_pos 16), rfl⟩
  sendable := fun _ _ h => absurd h List.not_mem_nil
  called := fun _ h => by cases h

theorem RxInv.write {p : RxPkt} (h : RxInv g s) (hen : s.Enabled (.write p))
    (hs : s.step e fn g (.write p) = some s') : RxInv g s' := by
  have hring := h.ring.write hs
  obtain ⟨r, rest, hrq⟩ := List.exists_cons_of_ne_nil hen.1
  simp only [Rx.step, hrq, Option.some.injEq] at hs
  subst hs
  exact {
    ring := hring
    held := fun k => ⟨(h.held k).held.mono (List.prefix_append _ _) (le_refl _), (h.held k).length⟩
    sendable := by
      intro session hd hmem
      rcases List.mem_append.mp hmem with hmem | hmem
      · exact h.sendable session hd hmem
      · obtain rfl := List.mem_singleton.mp hmem
        exact hen.2.1
    called := fun _ hx => by cases hx }

theorem RxInv.poll {n : ℕ} (h : RxInv g s) (hen : s.Enabled (.poll n))
    (hs : s.step e fn g (.poll n) = some s') : RxInv g s' := by
  have hring := h.ring.poll hen hs
  obtain rfl := Option.some.inj hs
  exact ⟨hring, fun k => ⟨(h.held k).held, (h.held k).length⟩, h.sendable, fun _ hx => by cases hx⟩

/-- The counters and `post_recvs` do not touch the requests. -/
structure SameSlots (s s' : Rx) : Prop where
  log : s'.log = s.log
  handled : s'.handled = s.handled + 1
  slots : s'.slots = s.slots
  held : s'.held = s.held
  called : s'.called = s.called

theorem Rx.tick_sameSlots (g : RingCfg) (s : Rx) : SameSlots s ((s.tick g).finishBatch g) := by
  unfold Rx.finishBatch
  split_ifs
  · unfold Rx.postRecvs
    dsimp only
    split_ifs <;> exact ⟨rfl, rfl, rfl, rfl, rfl⟩
  · exact ⟨rfl, rfl, rfl, rfl, rfl⟩

theorem RxInv.tick (h : RingInv g s) (hb : 0 < s.batch)
    (hheld : ∀ k, HeldAt g s.log (s.handled + 1) k (s.slots k).curReqNum (s.held k)
      (s.slots k).reqIov ∧ (s.held k).length = (s.slots k).numRx)
    (hsend : ∀ session h, RxPkt.req session h ∈ s.log → Rx.Sendable h)
    (hcall : ∀ k, s.called = some k → s.held k ≠ []) :
    RxInv g ((s.tick g).finishBatch g) := by
  obtain ⟨hlog, hhandled, hslots, hheld', hcalled⟩ := s.tick_sameSlots g
  refine ⟨h.tick hb, ?_, ?_, ?_⟩
  · intro k
    constructor
    · rw [hlog, hhandled, hslots, hheld']
      exact (hheld k).1
    · rw [hslots, hheld']
      exact (hheld k).2
  · rw [hlog]
    exact hsend
  · rw [hcalled, hheld']
    exact hcall

/-- **The request after its next packet.** -/
theorem HeldInv.next {session : ℕ} {hd : Pkthdr} (h : HeldInv g s (session, slotOf hd))
    (e : Endpoint) (fn : ℕ → ReqFuncType) (preReq : ℕ)
    (hget : s.log[s.handled]? = some (.req session hd)) (hsend : Rx.Sendable hd)
    (hord : hd.pktNum = 0 ∨ isNextPktSameReq (s.slots (session, slotOf hd)) hd) :
    let k := (session, slotOf hd)
    let x := processLargeReqOne e fn preReq (g.bodyAddr (s.handled % g.R)) hd
      ⟨s.slots k, [], [], []⟩
    let ws := if hd.pktNum = 0 then [s.handled] else s.held k ++ [s.handled]
    HeldAt g s.log (s.handled + 1) k x.slot.curReqNum ws x.slot.reqIov ∧
      ws.length = x.slot.numRx := by
  obtain ⟨-, -, hlen, hnum⟩ := hsend
  intro k x ws
  -- the slot once the packet is counted, and the packets before this one
  obtain ⟨ws0, hws, hat, hcount, hpkt⟩ : ∃ ws0, ws = ws0 ++ [s.handled] ∧
      HeldAt g s.log s.handled k (trackReq hd (s.slots k)).curReqNum ws0
        (trackReq hd (s.slots k)).reqIov ∧
      (trackReq hd (s.slots k)).numRx = ws0.length + 1 ∧
      (ws0.length = hd.pktNum ∧ (trackReq hd (s.slots k)).curReqNum = hd.reqNum) := by
    by_cases h0 : hd.pktNum = 0
    · refine ⟨[], if_pos h0, ?_, ?_, ?_⟩
      · rw [trackReq, if_pos h0]
        exact HeldAt.nil rfl rfl h.held.capacity
      · rw [trackReq, if_pos h0]
        rfl
      · rw [trackReq, if_pos h0]
        exact ⟨h0.symm, rfl⟩
    · have hnext := hord.resolve_left h0
      refine ⟨s.held k, if_neg h0, ?_, ?_, ?_⟩
      · rw [trackReq, if_neg h0]
        exact h.held
      · rw [trackReq, if_neg h0, h.length]
      · rw [trackReq, if_neg h0, h.length]
        exact ⟨hnext.2.symm, hnext.1.symm⟩
  have hp : IsPacket s.log k (trackReq hd (s.slots k)).curReqNum ws0.length s.handled :=
    ⟨hd, hget, rfl, hpkt.2.symm, hpkt.1.symm⟩
  obtain ⟨v', hc, hat'⟩ := hat.snoc preReq hp hlen (by omega)
  have hcounted := processLargeReqOne_counted e fn preReq (g.bodyAddr (s.handled % g.R)) hd
    ⟨s.slots k, [], [], []⟩
  have hiov : x.slot.reqIov = v' := processLargeReqOne_reqIov hc
  rw [hws, hiov, show x.slot.curReqNum = _ from hcounted.curReqNum,
    show x.slot.numRx = _ from hcounted.numRx]
  refine ⟨hat', ?_⟩
  rw [List.length_append]
  exact hcount.symm

theorem RxInv.handle {preReq : ℕ} (h : RxInv g s) (hen : s.Enabled (.handle preReq)) :
    RxInv g (s.handle e fn g preReq) := by
  obtain ⟨hb, hord⟩ := hen
  have hsame := s.dispatch_sameRing e fn g preReq
  have hhead := h.ring.ring_head hb
  have hav := h.ring.avail
  have hring : RingInv g (s.dispatch e fn g preReq) := h.ring.congr hsame
  have hbatch : 0 < (s.dispatch e fn g preReq).batch := by
    rw [hsame.batch]
    exact hb
  have hrest : ∀ k, HeldAt g s.log (s.handled + 1) k (s.slots k).curReqNum (s.held k)
      (s.slots k).reqIov := fun k =>
    (h.held k).held.mono (List.prefix_refl _) (Nat.le_succ _)
  cases hcur : s.current with
  | other =>
    refine RxInv.tick hring hbatch ?_ ?_ ?_
    · intro k
      simp only [Rx.dispatch, hcur]
      exact ⟨hrest k, (h.held k).length⟩
    · rw [hsame.log]
      exact h.sendable
    · simp only [Rx.dispatch, hcur]
      exact fun _ hx => by cases hx
  | req session hd =>
    rw [hcur] at hord
    have hget : s.log[s.handled]? = some (.req session hd) := by
      have hc := hcur
      unfold Rx.current at hc
      rw [hhead, List.getD_eq_getElem?_getD, List.getElem?_eq_getElem (by omega)] at hc
      rw [List.getElem?_eq_getElem (by omega), ← hc]
      rfl
    have hsend := h.sendable session hd (List.mem_of_getElem? hget)
    obtain ⟨hat, hlen⟩ := (h.held (session, slotOf hd)).next e fn preReq hget hsend hord
    refine RxInv.tick hring hbatch ?_ ?_ ?_
    · intro k
      simp only [Rx.dispatch, hcur, hhead]
      by_cases hk : k = (session, slotOf hd)
      · subst hk
        simp only [Function.update_self, h.ring.rxRingHead]
        exact ⟨hat, hlen⟩
      · simp only [Function.update_of_ne hk]
        exact ⟨hrest k, (h.held k).length⟩
    · rw [hsame.log]
      exact h.sendable
    · simp only [Rx.dispatch, hcur, hhead]
      intro k hcall
      split_ifs at hcall
      obtain rfl := Option.some.inj hcall
      rw [Function.update_self]
      split_ifs
      · exact List.cons_ne_nil _ _
      · exact List.append_ne_nil_of_right_ne_nil _ (List.cons_ne_nil _ _)

theorem RxInv.step {a : RxAct} (h : RxInv g s) (hen : s.Enabled a)
    (hs : s.step e fn g a = some s') : RxInv g s' := by
  cases a with
  | write p => exact h.write hen hs
  | poll n => exact h.poll hen hs
  | handle preReq =>
    obtain rfl := Option.some.inj hs
    exact h.handle hen

/-- **When a request's bodies are intact.**  In every run, when the handler of a request is
invoked, the entries of its iovec lie in the bodies of its packets, and no later packet was
written into any of these bodies exactly if at most `R` packets, of all sessions, were written
since its first packet. -/
theorem bodies_intact_iff (g : RingCfg) (e : Endpoint) (fn : ℕ → ReqFuncType) (as : List RxAct)
    (s : Rx) (hrun : Run Rx.Enabled (Rx.step e fn g) (Rx.init g) as s) (k : ℕ × ℕ)
    (hcall : s.called = some k) :
    ∃ first rest, s.held k = first :: rest ∧
      (s.held k).length = (s.slots k).numRx ∧
      (∀ j w, (s.held k)[j]? = some w → IsPacket s.log k (s.slots k).curReqNum j w) ∧
      (∀ x ∈ (s.slots k).reqIov.entries, ∀ a, x.iovBase ≤ a → a < x.iovBase + x.iovLen →
        g.InBodies (s.held k) a) ∧
      ((∀ w ∈ s.held k, s.ring (w % g.R) = w) ↔ s.log.length ≤ first + g.R) := by
  have hinv : RxInv g s := hrun.invariant (RxInv.init g) fun _ _ _ hi hg hs => hi.step hg hs
  obtain ⟨hheld, hlen⟩ := hinv.held k
  obtain ⟨first, rest, hws⟩ := List.exists_cons_of_ne_nil (hinv.called k hcall)
  have hav := hinv.ring.avail
  have hlog : ∀ w ∈ s.held k, w < s.log.length := fun w hw => by
    have := hheld.lt w hw
    omega
  refine ⟨first, rest, hws, hlen, hheld.packet, fun x hx => hheld.within.entries hx, ?_⟩
  constructor
  · intro hall
    have hmem : first ∈ s.held k := by
      rw [hws]
      exact List.mem_cons_self ..
    exact (hinv.ring.keeps.eq_iff g.pos (hlog first hmem)).mp (hall first hmem)
  · intro hle w hw
    refine (hinv.ring.keeps.eq_iff g.pos (hlog w hw)).mpr ?_
    -- the first packet is the oldest one
    have hsorted := hheld.sorted
    rw [hws] at hw hsorted
    rcases List.mem_cons.mp hw with rfl | hw
    · exact hle
    · have := (List.pairwise_cons.mp hsorted).1 w hw
      omega

end RxRuns

/-- A ring of 64 entries with bodies from address 4096, enough for two sessions. -/
def ring64 : RingCfg := ⟨64, 4096, by decide, by decide⟩

/-- Packet `k` of request `n` of a session arrives and is looked at. -/
def arrival (session n k : ℕ) : List RxAct :=
  [.write (.req session (reqHdr sampleReqs n k)), .poll 1, .handle 0]

/-- The two packets of a request, one behind the other. -/
theorem bodies_intact_sample : ∃ s, Run Rx.Enabled (Rx.step sampleEnv.srv sampleEnv.fn ring64)
    (Rx.init ring64) (arrival 0 32 0 ++ arrival 0 32 1) s ∧ s.called = some (0, 0) ∧
      ∀ w ∈ s.held (0, 0), s.ring (w % 64) = w := by
  have hexec : (exec Rx.Enabled (Rx.step sampleEnv.srv sampleEnv.fn ring64) (Rx.init ring64)
      (arrival 0 32 0 ++ arrival 0 32 1)).map (fun s => (s.called, s.held (0, 0), s.log.length))
        = some (some (0, 0), [0, 1], 2) := by
    decide +kernel
  obtain ⟨s, hs, hval⟩ := Option.map_eq_some_iff.mp hexec
  have hcall : s.called = some (0, 0) := congrArg Prod.fst hval
  have hlog : s.log.length = 2 := congrArg (fun x => x.2.2) hval
  obtain ⟨first, rest, -, -, -, -, hiff⟩ := bodies_intact_iff ring64 sampleEnv.srv sampleEnv.fn _ s
    (run_of_exec hs) (0, 0) hcall
  refine ⟨s, run_of_exec hs, hcall, hiff.mpr ?_⟩
  rw [hlog]
  exact le_trans (by decide) (Nat.le_add_left 64 first)

/-- Session 0 sends the first packet of a request, then session 1 sends 32 requests of two packets
each, and then the second packet of session 0 arrives. -/
def slowRequest : List RxAct :=
  arrival 0 32 0 ++ (List.range 32).flatMap
    (fun j => arrival 1 (32 * (j + 1)) 0 ++ arrival 1 (32 * (j + 1)) 1) ++ arrival 0 32 1

/-- **A body that is written over.**  When the handler of session 0 is invoked, its iovec still
starts at the body of ring entry 0, which holds the last packet of session 1. -/
theorem body_overwritten : ∃ s, Run Rx.Enabled (Rx.step sampleEnv.srv sampleEnv.fn ring64)
    (Rx.init ring64) slowRequest s ∧ s.called = some (0, 0) ∧
      (s.slots (0, 0)).reqIov.entries = [⟨ring64.bodyAddr 0, 5000⟩] ∧
      s.held (0, 0) = [0, 65] ∧ s.ring 0 = 64 := by
  have hexec : (exec Rx.Enabled (Rx.step sampleEnv.srv sampleEnv.fn ring64) (Rx.init ring64)
      slowRequest).map (fun s => (s.called, (s.slots (0, 0)).reqIov.entries, s.held (0, 0), s.ring 0))
        = some (some (0, 0), [⟨ring64.bodyAddr 0, 5000⟩], [0, 65], 64) := by
    decide +kernel
  obtain ⟨s, hs, hval⟩ := Option.map_eq_some_iff.mp hexec
  refine ⟨s, run_of_exec hs, congrArg Prod.fst hval, congrArg (fun x => x.2.1) hval,
    congrArg (fun x => x.2.2.1) hval, congrArg (fun x => x.2.2.2) hval⟩

end HuiRpc
