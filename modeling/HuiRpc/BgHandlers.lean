/-
# Foreground and background handlers

A request handler is registered as a foreground or as a background one.  Foreground handlers
run in the dispatch thread.  For a background handler `submit_bg_req_st` pushes a work item
with the slot into the queue of a background thread, which runs the handler when it pops the
item (`bg_thread_func`).  `BgSrv` is the server session together with these queues.

* `recvSlot_moved` : what any packet can do to a slot and to the list of invocations;
* `Progress` : a request of which `k` packets have arrived, with the runs of its handler so far
  and its work items;
* `Progress.run` : it is kept by every run that delivers the packets of the request in order,
  whatever happens to the other slots and in the background threads meanwhile.
-/
import HuiRpc.Server
import HuiRpc.Lib.Runs

namespace HuiRpc

open Runs

/-! ## The server with its background threads -/

/-- `queue` holds the work items of all background threads in the order of their submission,
each with its thread and its slot; `ran` lists the handlers run in background threads. -/
structure BgSrv where
  srv : Srv
  queue : List (ℕ × ℕ)
  ran : List Call

/-- A packet arrives (`thread` is the random choice of `submit_bg_req_st`), a handler answers,
or a background thread takes its next work item. -/
inductive BgAct
  | recv (preReq body thread : ℕ) (p : WirePkt)
  | answer (i lkey : ℕ) (msg : TxMsg)
  | bgRun (thread : ℕ)

/-- The slot that an action of the dispatch thread works on. -/
def BgAct.slot : BgAct → Option ℕ
  | .recv _ _ _ p => some (p.hdr.reqNum % kSessionReqWindow)
  | .answer i _ _ => some i
  | .bgRun _ => none

def BgAct.pkt : BgAct → Option WirePkt
  | .recv _ _ _ p => some p
  | .answer _ _ _ => none
  | .bgRun _ => none

namespace BgSrv

def init : BgSrv := ⟨Srv.init, [], []⟩

/-- `bg_thread_func`: the thread pops its oldest work item, and runs the handler of the type
that the slot has then. -/
def bgRun (thread : ℕ) (b : BgSrv) : BgSrv :=
  match b.queue.find? fun w => w.1 = thread with
  | none => b
  | some w => { b with
      queue := b.queue.eraseP fun w => w.1 = thread
      ran := b.ran ++ [(b.srv.slots w.2).call] }

/-- `submit_bg_req_st` for every request that the packet has completed in the background. -/
def submit (thread i : ℕ) (s : Srv) (b : BgSrv) : BgSrv :=
  { b with
    srv := s
    queue := b.queue ++ List.replicate (s.bgReqs.length - b.srv.bgReqs.length) (thread, i) }

def step (e : Endpoint) (fn : ℕ → ReqFuncType) (b : BgSrv) : BgAct → Option BgSrv
  | .recv preReq body thread p => (b.srv.recv e fn preReq body p).map fun s =>
      b.submit thread (p.hdr.reqNum % kSessionReqWindow) s
  | .answer i lkey msg => some { b with srv := b.srv.answer e i lkey msg }
  | .bgRun thread => some (b.bgRun thread)

/-- The states that the server can reach, from any packets. -/
def Reachable (e : Endpoint) (fn : ℕ → ReqFuncType) (b : BgSrv) : Prop :=
  ∃ acts, Run (fun _ _ => True) (step e fn) init acts b

end BgSrv

/-! ## What a packet can do -/

variable {e : Endpoint} {fn : ℕ → ReqFuncType} {preReq body : ℕ} {h : Pkthdr} {c c' : SrvCtx}

/-- The handler runs only on the request of the slot, and the slot keeps its request or takes
that of the packet. -/
structure SlotMoved (h : Pkthdr) (c c' : SrvCtx) : Prop where
  calls : ∃ xs, c'.calls = c.calls ++ xs ∧ ∀ x ∈ xs, x.reqNum = c'.slot.curReqNum
  cur : c'.slot.curReqNum = h.reqNum ∨ c'.slot.curReqNum = c.slot.curReqNum
  capacity : c.slot.reqIov.capacity < 2 ^ 16 → c'.slot.reqIov.capacity < 2 ^ 16

theorem handleReq_calls (fn : ℕ → ReqFuncType) (h : Pkthdr) (c : SrvCtx) :
    ∃ xs, (handleReq fn h c).calls = c.calls ++ xs ∧ ∀ x ∈ xs, x.reqNum = c.slot.curReqNum := by
  unfold handleReq
  split_ifs with hrx
  · exact ⟨[], by simp⟩
  · cases fn h.reqType with
    | kForeground =>
      refine ⟨[_], rfl, ?_⟩
      intro x hx
      rw [List.mem_singleton.mp hx]
      rfl
    | kBackground => exact ⟨[], by simp⟩

theorem processSmallReq_moved (fn : ℕ → ReqFuncType) (body : ℕ) (h : Pkthdr) (c : SrvCtx) :
    SlotMoved h c (processSmallReq fn body h c) := by
  unfold processSmallReq
  cases fn h.reqType with
  | kForeground =>
    refine ⟨⟨[_], rfl, ?_⟩, Or.inl rfl, fun _ => ?_⟩
    · intro x hx
      rw [List.mem_singleton.mp hx]
      rfl
    · show (Iovector.pushBackBuf _ _ _).1.capacity < _
      rw [Iovector.pushBackBuf_capacity]
      decide
  | kBackground => exact ⟨⟨[], by simp⟩, Or.inl rfl, id⟩

/-- Collecting keeps the capacity a 16-bit number. -/
theorem collect_capacity {n : ℕ} {v v' : Iovector} (hcol : collect preReq body n v = some v')
    (hcap : v.capacity < 2 ^ 16) : v'.capacity < 2 ^ 16 := by
  unfold collect at hcol
  split_ifs at hcol with hadj hret
  · rw [← Option.some.inj hcol]
    unfold growBack
    split_ifs
    · exact Nat.mod_lt _ (by decide)
    · exact hcap
  · rw [← Option.some.inj hcol, Iovector.pushBackBuf_capacity]
    decide

theorem trackReq_moved (h : Pkthdr) (s : SrvSlot) :
    ((trackReq h s).curReqNum = h.reqNum ∨ (trackReq h s).curReqNum = s.curReqNum) ∧
      (trackReq h s).reqIov.capacity = s.reqIov.capacity := by
  unfold trackReq
  split_ifs
  · exact ⟨Or.inl rfl, rfl⟩
  · exact ⟨Or.inr rfl, rfl⟩

theorem processLargeReqOne_moved (e : Endpoint) (fn : ℕ → ReqFuncType) (preReq body : ℕ)
    (h : Pkthdr) (c : SrvCtx) : SlotMoved h c (processLargeReqOne e fn preReq body h c) := by
  obtain ⟨hcur, hcap⟩ := trackReq_moved h c.slot
  obtain ⟨tx, -, ⟨-, heq⟩ | ⟨v, hcol, heq⟩⟩ := processLargeReqOne_cases e fn preReq body h c
  · rw [heq]
    exact ⟨⟨[], by simp⟩, hcur, fun hc => lt_of_eq_of_lt hcap hc⟩
  · set y : SrvCtx := { c with slot := { trackReq h c.slot with reqIov := v }, tx := tx } with hy
    obtain ⟨xs, hxs, hmine⟩ := handleReq_calls fn h y
    have hframe := (handleReq_frame fn h y).2
    have hnum : (handleReq fn h y).slot.curReqNum = (trackReq h c.slot).curReqNum := by
      rw [hframe]
    rw [heq]
    refine ⟨⟨xs, hxs, ?_⟩, ?_, fun hc => ?_⟩
    · intro x hx
      rw [hnum]
      exact hmine x hx
    · rw [hnum]
      exact hcur
    · rw [hframe]
      exact collect_capacity hcol (lt_of_eq_of_lt hcap hc)

/-- **A packet at a slot.** -/
theorem recvSlot_moved (hs : Srv.recvSlot e fn preReq body h c = some c') : SlotMoved h c c' := by
  unfold Srv.recvSlot at hs
  cases htype : h.pktType with
  | kReq =>
    rw [htype] at hs
    rw [← Option.some.inj hs]
    split_ifs
    · exact processSmallReq_moved fn body h c
    · exact processLargeReqOne_moved e fn preReq body h c
  | kRFR =>
    rw [htype] at hs
    obtain ⟨b, -, rfl⟩ := Option.map_eq_some_iff.mp hs
    exact ⟨⟨[], by simp⟩, Or.inr rfl, id⟩
  | kResp =>
    rw [htype] at hs
    exact absurd hs.symm (Option.some_ne_none _)
  | kExplCR =>
    rw [htype] at hs
    exact absurd hs.symm (Option.some_ne_none _)

/-! ## The invariant of the server -/

namespace BgSrv

variable {b b' : BgSrv} {act : BgAct}

/-- Every slot has a request number of its own residue, and the work items name slots. -/
structure Ok (b : BgSrv) : Prop where
  cur : ∀ j, j < kSessionReqWindow → (b.srv.slots j).curReqNum % kSessionReqWindow = j
  capacity : ∀ j, (b.srv.slots j).reqIov.capacity < 2 ^ 16
  items : ∀ w ∈ b.queue, w.2 < kSessionReqWindow

theorem Ok.init : BgSrv.init.Ok where
  cur := fun j hj => Nat.mod_eq_of_lt hj
  capacity := fun _ => show (0 : ℕ) < 2 ^ 16 by decide
  items := by simp [BgSrv.init]

/-- The step of a packet, taken apart. -/
theorem step_recv {thread : ℕ} {p : WirePkt}
    (hs : b.step e fn (.recv preReq body thread p) = some b') :
    ∃ c', Srv.recvSlot e fn preReq body p.hdr (b.srv.ctx (p.hdr.reqNum % kSessionReqWindow))
        = some c' ∧
      b' = b.submit thread (p.hdr.reqNum % kSessionReqWindow)
        (b.srv.put (p.hdr.reqNum % kSessionReqWindow) c') := by
  unfold step at hs
  obtain ⟨s, hrecv, rfl⟩ := Option.map_eq_some_iff.mp hs
  unfold Srv.recv at hrecv
  obtain ⟨c', hslot, rfl⟩ := Option.map_eq_some_iff.mp hrecv
  exact ⟨c', hslot, rfl⟩

/-- A work item that is popped is one of the queue. -/
theorem bgRun_cases (thread : ℕ) (b : BgSrv) : b.bgRun thread = b ∨
    ∃ w, b.queue.Perm (w :: (b.bgRun thread).queue) ∧ (b.bgRun thread).srv = b.srv ∧
      (b.bgRun thread).ran = b.ran ++ [(b.srv.slots w.2).call] := by
  unfold bgRun
  cases hf : b.queue.find? fun w => w.1 = thread with
  | none => exact Or.inl rfl
  | some w =>
    refine Or.inr ⟨w, ?_, rfl, rfl⟩
    obtain ⟨hw, as, bs, hq, has⟩ := List.find?_eq_some_iff_append.mp hf
    show b.queue.Perm (w :: b.queue.eraseP _)
    rw [hq, List.eraseP_append_right _ (by simpa using has),
      List.eraseP_cons_of_pos (p := fun x : ℕ × ℕ => decide (x.1 = thread)) hw]
    exact List.perm_middle

theorem put_slots_of_ne (s : Srv) (c : SrvCtx) {i j : ℕ} (h : j ≠ i) :
    (s.put i c).slots j = s.slots j := by
  unfold Srv.put
  exact Function.update_of_ne h _ _

theorem put_slots_self (s : Srv) (c : SrvCtx) (i : ℕ) : (s.put i c).slots i = c.slot := by
  unfold Srv.put
  exact Function.update_self _ _ _

theorem Ok.put (h : b.Ok) {i thread : ℕ} (hi : i < kSessionReqWindow) {c : SrvCtx}
    (hcur : c.slot.curReqNum % kSessionReqWindow = i) (hcap : c.slot.reqIov.capacity < 2 ^ 16) :
    (b.submit thread i (b.srv.put i c)).Ok where
  cur := by
    intro j hj
    show ((b.srv.put i c).slots j).curReqNum % _ = j
    by_cases hji : j = i
    · rw [hji, put_slots_self, hcur]
    · rw [put_slots_of_ne _ _ hji]
      exact h.cur j hj
  capacity := by
    intro j
    show ((b.srv.put i c).slots j).reqIov.capacity < _
    by_cases hji : j = i
    · rw [hji, put_slots_self]
      exact hcap
    · rw [put_slots_of_ne _ _ hji]
      exact h.capacity j
  items := by
    intro w hw
    rcases List.mem_append.mp hw with hold | hnew
    · exact h.items w hold
    · rw [List.eq_of_mem_replicate hnew]
      exact hi

theorem mod_window_lt (n : ℕ) : n % kSessionReqWindow < kSessionReqWindow :=
  Nat.mod_lt _ (by decide)

theorem Ok.step (h : b.Ok) (hs : b.step e fn act = some b') : b'.Ok := by
  cases act with
  | recv preReq body thread p =>
    obtain ⟨c', hslot, rfl⟩ := step_recv hs
    have hm := recvSlot_moved hslot
    apply h.put (mod_window_lt _)
    · rcases hm.cur with hc | hc
      · rw [hc]
      · rw [hc]
        exact h.cur _ (mod_window_lt _)
    · exact hm.capacity (h.capacity _)
  | answer i lkey msg =>
    rw [← Option.some.inj hs]
    refine ⟨fun j hj => ?_, fun j => ?_, h.items⟩
    · show ((b.srv.put i _).slots j).curReqNum % _ = j
      by_cases hji : j = i
      · rw [hji, put_slots_self]
        rw [hji] at hj
        exact h.cur i hj
      · rw [put_slots_of_ne _ _ hji]
        exact h.cur j hj
    · show ((b.srv.put i _).slots j).reqIov.capacity < _
      by_cases hji : j = i
      · rw [hji, put_slots_self]
        exact h.capacity i
      · rw [put_slots_of_ne _ _ hji]
        exact h.capacity j
  | bgRun thread =>
    rw [← Option.some.inj hs]
    rcases bgRun_cases thread b with heq | ⟨w, hperm, hsrv, -⟩
    · rw [heq]
      exact h
    · refine ⟨fun j hj => ?_, fun j => ?_, fun x hx => ?_⟩
      · rw [hsrv]
        exact h.cur j hj
      · rw [hsrv]
        exact h.capacity j
      · exact h.items x (hperm.mem_iff.mpr (List.mem_cons_of_mem w hx))

theorem Reachable.ok (h : Reachable e fn b) : b.Ok := by
  obtain ⟨acts, hrun⟩ := h
  exact hrun.invariant Ok.init fun _ _ _ hok _ hs => hok.step hs

/-! ## The runs of a handler -/

/-- The slot of a request. -/
def slotIdx (a : SendArgs) : ℕ := a.reqNum % 2 ^ 32 % kSessionReqWindow

/-- An invocation is one for the request `a`. -/
def isRunOf (a : SendArgs) (x : Call) : Bool :=
  x.reqNum = a.reqNum % 2 ^ 32 ∧ x.reqType = a.reqType % 2 ^ 8

/-- How often the handler ran in the dispatch thread. -/
def inlineRuns (a : SendArgs) (b : BgSrv) : ℕ := b.srv.calls.countP (isRunOf a)

/-- How often the handler ran in a background thread. -/
def bgRuns (a : SendArgs) (b : BgSrv) : ℕ := b.ran.countP (isRunOf a)

/-- The work items of a slot. -/
def pending (i : ℕ) (b : BgSrv) : ℕ := b.queue.countP fun w => w.2 = i

variable {msg : TxMsg} {a : SendArgs} {b₀ : BgSrv} {k : ℕ}

/-- An invocation of another slot is not one for this request. -/
theorem isRunOf_eq_false {x : Call} (h : x.reqNum % kSessionReqWindow ≠ slotIdx a) :
    isRunOf a x = false := by
  unfold isRunOf
  rw [decide_eq_false_iff_not]
  rintro ⟨hnum, -⟩
  exact h (by rw [hnum]; rfl)

/-- Nothing that concerns the request `a` has changed. -/
structure Unmoved (a : SendArgs) (b b' : BgSrv) : Prop where
  slot : b'.srv.slots (slotIdx a) = b.srv.slots (slotIdx a)
  inlineRuns : b'.inlineRuns a = b.inlineRuns a
  bgRuns : b'.bgRuns a = b.bgRuns a
  pending : b'.pending (slotIdx a) = b.pending (slotIdx a)

/-- The dispatch thread works on another slot. -/
theorem Unmoved.of_ne (hok : b.Ok) (hs : b.step e fn act = some b') {j : ℕ}
    (hj : act.slot = some j) (hne : j ≠ slotIdx a) : Unmoved a b b' := by
  cases act with
  | recv preReq body thread p =>
    obtain ⟨c', hslot, rfl⟩ := step_recv hs
    obtain rfl : p.hdr.reqNum % kSessionReqWindow = j := Option.some.inj hj
    have hm := recvSlot_moved hslot
    have hcur : c'.slot.curReqNum % kSessionReqWindow = p.hdr.reqNum % kSessionReqWindow := by
      rcases hm.cur with hc | hc
      · rw [hc]
      · rw [hc]
        exact hok.cur _ (mod_window_lt _)
    refine ⟨put_slots_of_ne _ _ (Ne.symm hne), ?_, rfl, ?_⟩
    · obtain ⟨xs, hxs, hmine⟩ := hm.calls
      show c'.calls.countP _ = b.srv.calls.countP _
      have hzero : xs.countP (isRunOf a) = 0 := by
        rw [List.countP_eq_zero]
        intro x hx
        rw [isRunOf_eq_false (by rw [hmine x hx, hcur]; exact hne)]
        decide
      rw [hxs, List.countP_append, hzero]
      rfl
    · show (b.queue ++ List.replicate _ (thread, _)).countP _ = b.queue.countP _
      rw [List.countP_append, List.countP_replicate, if_neg (by simpa using hne), Nat.add_zero]
  | answer i lkey msg =>
    obtain rfl : i = j := Option.some.inj hj
    rw [← Option.some.inj hs]
    exact ⟨put_slots_of_ne _ _ (Ne.symm hne), rfl, rfl, rfl⟩
  | bgRun thread => exact absurd hj (Option.some_ne_none j).symm

/-- **A request of which `k` packets have arrived** since the state `b₀`, with the handler
runs that it has caused and will cause. -/
structure Progress (fn : ℕ → ReqFuncType) (msg : TxMsg) (a : SendArgs) (b₀ : BgSrv) (k : ℕ)
    (b : BgSrv) : Prop where
  assembling : 0 < k → k < msg.totalPkt → Assembling a k (b.srv.slots (slotIdx a))
  whole : msg.totalPkt ≤ k → (b.srv.slots (slotIdx a)).curReqNum = a.reqNum % 2 ^ 32 ∧
    (b.srv.slots (slotIdx a)).reqType = a.reqType % 2 ^ 8
  inlineRuns : b.inlineRuns a = b₀.inlineRuns a +
    if msg.totalPkt ≤ k ∧ fn (a.reqType % 2 ^ 8) = .kForeground then 1 else 0
  bgRuns : b.bgRuns a + b.pending (slotIdx a) = b₀.bgRuns a +
    if msg.totalPkt ≤ k ∧ fn (a.reqType % 2 ^ 8) = .kBackground ∧ kMaxDataPerPkt < msg.msgSize
      then 1 else 0
  mono : b₀.bgRuns a ≤ b.bgRuns a

theorem Progress.start (hpend : b.pending (slotIdx a) = 0) : Progress fn msg a b 0 b where
  assembling := fun h => absurd h (lt_irrefl 0)
  whole := fun h => absurd msg.pos (by omega)
  inlineRuns := by rw [if_neg fun h => absurd msg.pos (by omega), Nat.add_zero]
  bgRuns := by rw [hpend, if_neg fun h => absurd msg.pos (by omega)]
  mono := le_rfl

theorem Progress.unmoved (h : Progress fn msg a b₀ k b) (hu : Unmoved a b b') :
    Progress fn msg a b₀ k b' where
  assembling := by rw [hu.slot]; exact h.assembling
  whole := by rw [hu.slot]; exact h.whole
  inlineRuns := by rw [hu.inlineRuns]; exact h.inlineRuns
  bgRuns := by rw [hu.bgRuns, hu.pending]; exact h.bgRuns
  mono := by rw [hu.bgRuns]; exact h.mono

/-- The next packet of the request arrives. -/
theorem Progress.recv (h : Progress fn msg a b₀ k b) (hok : b.Ok) (hk : k < msg.totalPkt)
    {thread : ℕ}
    (hs : b.step e fn (.recv preReq body thread ((msg.fill .request a).pkts k)) = some b') :
    Progress fn msg a b₀ (k + 1) b' := by
  have hidx : ((msg.fill .request a).pkts k).hdr.reqNum % kSessionReqWindow = slotIdx a := by
    rw [TxMsg.fill_reqNum]
    rfl
  obtain ⟨c', hslot, rfl⟩ := step_recv hs
  rw [hidx] at hslot ⊢
  obtain ⟨c₁, hslot₁, htook⟩ := recvSlot_took e fn preReq body (c := b.srv.ctx (slotIdx a)) hk
    (fun hpos => h.assembling hpos hk) (hok.capacity (slotIdx a))
  obtain rfl : c' = c₁ := Option.some.inj (hslot.symm.trans hslot₁)
  have hself : (b.srv.put (slotIdx a) c').slots (slotIdx a) = c'.slot := put_slots_self _ _ _
  have hinl := h.inlineRuns
  have hbg := h.bgRuns
  have hnot : ¬ msg.totalPkt ≤ k := by omega
  rw [if_neg fun hc => hnot hc.1, Nat.add_zero] at hinl
  rw [if_neg fun hc => hnot hc.1, Nat.add_zero] at hbg
  -- the call that the last packet makes is one for this request
  have hcall : k + 1 = msg.totalPkt → isRunOf a c'.slot.call = true := by
    intro hlast
    unfold isRunOf
    rw [decide_eq_true_iff]
    exact ⟨htook.curReqNum, htook.type hlast⟩
  refine ⟨fun _ hlt => ?_, fun hle => ?_, ?_, ?_, h.mono⟩
  · show Assembling a (k + 1) ((b.srv.put (slotIdx a) c').slots (slotIdx a))
    rw [hself]
    exact htook.assembling hlt
  · show ((b.srv.put (slotIdx a) c').slots (slotIdx a)).curReqNum = _ ∧
      ((b.srv.put (slotIdx a) c').slots (slotIdx a)).reqType = _
    rw [hself]
    exact ⟨htook.curReqNum, htook.type (by omega)⟩
  · show c'.calls.countP _ = _
    rw [htook.calls, List.countP_append, show (b.srv.ctx (slotIdx a)).calls = b.srv.calls from rfl,
      show b.srv.calls.countP (isRunOf a) = b.inlineRuns a from rfl, hinl]
    congr 1
    by_cases hlast : k + 1 = msg.totalPkt
    · by_cases hfg : fn (a.reqType % 2 ^ 8) = .kForeground
      · rw [if_pos ⟨hlast, hfg⟩, if_pos ⟨le_of_eq hlast.symm, hfg⟩]
        simp [hcall hlast]
      · rw [if_neg fun hc => hfg hc.2, if_neg fun hc => hfg hc.2, List.countP_nil]
    · rw [if_neg fun hc => hlast hc.1, if_neg fun hc => absurd hc.1 (by omega), List.countP_nil]
  · show b.bgRuns a + (b.queue ++ List.replicate
      (c'.bgReqs.length - b.srv.bgReqs.length) (thread, slotIdx a)).countP _ = _
    rw [List.countP_append, List.countP_replicate, if_pos (by simp), htook.bgReqs,
      List.length_append, show (b.srv.ctx (slotIdx a)).bgReqs = b.srv.bgReqs from rfl,
      Nat.add_sub_cancel_left, ← Nat.add_assoc]
    change b.bgRuns a + b.pending (slotIdx a) + _ = _
    rw [hbg]
    congr 1
    by_cases hlast : k + 1 = msg.totalPkt
    · by_cases hbk : fn (a.reqType % 2 ^ 8) = .kBackground ∧ kMaxDataPerPkt < msg.msgSize
      · rw [if_pos ⟨hlast, hbk⟩, if_pos ⟨le_of_eq hlast.symm, hbk⟩, List.length_singleton]
      · rw [if_neg fun hc => hbk hc.2, if_neg fun hc => hbk hc.2, List.length_nil]
    · rw [if_neg fun hc => hlast hc.1, if_neg fun hc => absurd hc.1 (by omega), List.length_nil]

/-- A background thread takes a work item.  One of this slot exists only after the request is
complete, so that the slot still holds it. -/
theorem Progress.bgRun (h : Progress fn msg a b₀ k b) (hok : b.Ok) (thread : ℕ) :
    Progress fn msg a b₀ k (b.bgRun thread) := by
  rcases bgRun_cases thread b with heq | ⟨w, hperm, hsrv, hran⟩
  · rw [heq]
    exact h
  · have hpend : b.pending (slotIdx a)
        = (b.bgRun thread).pending (slotIdx a) + if w.2 = slotIdx a then 1 else 0 := by
      unfold BgSrv.pending
      rw [hperm.countP_eq, List.countP_cons]
      simp
    have hruns : (b.bgRun thread).bgRuns a
        = b.bgRuns a + if isRunOf a (b.srv.slots w.2).call then 1 else 0 := by
      unfold BgSrv.bgRuns
      rw [hran, List.countP_append, List.countP_singleton]
    have hbg := h.bgRuns
    have hmono := h.mono
    -- the item is for this slot exactly if its run is one for this request
    have hiff : (if w.2 = slotIdx a then 1 else 0)
        = if isRunOf a (b.srv.slots w.2).call then 1 else 0 := by
      by_cases hw : w.2 = slotIdx a
      · have hwhole : msg.totalPkt ≤ k := by
          by_contra hlt
          rw [if_neg fun hc => hlt hc.1] at hbg
          rw [if_pos hw] at hpend
          omega
        have hrun : isRunOf a (b.srv.slots w.2).call = true := by
          unfold isRunOf
          rw [decide_eq_true_iff, hw]
          exact h.whole hwhole
        rw [if_pos hw, if_pos hrun]
      · have hmem : w ∈ b.queue := hperm.mem_iff.mpr List.mem_cons_self
        have hcur := hok.cur w.2 (hok.items w hmem)
        rw [if_neg hw, isRunOf_eq_false (by rw [← hcur] at hw; exact hw)]
        rfl
    refine ⟨?_, ?_, ?_, ?_, ?_⟩
    · rw [hsrv]
      exact h.assembling
    · rw [hsrv]
      exact h.whole
    · unfold BgSrv.inlineRuns
      rw [hsrv]
      exact h.inlineRuns
    · rw [hruns, ← hiff, ← hbg, hpend]
      omega
    · omega

/-- The packets that arrive for a slot, with `none` for an answer. -/
def arrivals (i : ℕ) (acts : List BgAct) : List (Option WirePkt) :=
  (acts.filter fun act => act.slot = some i).map BgAct.pkt

/-- **A run that delivers the packets of a request in order.** -/
theorem Progress.run {acts : List BgAct} (hok : b₀.Ok) (hpend : b₀.pending (slotIdx a) = 0)
    (hrun : Run (fun _ _ => True) (BgSrv.step e fn) b₀ acts b) :
    ∀ k, k ≤ msg.totalPkt →
      arrivals (slotIdx a) acts = (seg (msg.fill .request a).pkts 0 k).map some →
      Progress fn msg a b₀ k b ∧ b.Ok := by
  induction hrun with
  | nil =>
    intro k _ harr
    obtain rfl : k = 0 := by
      have hlen := congrArg List.length harr
      simpa [arrivals] using hlen.symm
    exact ⟨Progress.start hpend, hok⟩
  | @snoc acts b act b' _ _ hs ih =>
    intro k hk harr
    have hsplit : arrivals (slotIdx a) (acts ++ [act]) = arrivals (slotIdx a) acts
        ++ if act.slot = some (slotIdx a) then [act.pkt] else [] := by
      unfold arrivals
      rw [List.filter_append, List.map_append, List.filter_singleton]
      congr 1
      by_cases hact : act.slot = some (slotIdx a)
      · simp [hact]
      · simp [hact]
    rw [hsplit] at harr
    by_cases hact : act.slot = some (slotIdx a)
    · -- the next packet of the request
      rw [if_pos hact] at harr
      cases k with
      | zero => simp at harr
      | succ k =>
        rw [seg_snoc _ (Nat.zero_le k), List.map_append, List.map_singleton] at harr
        obtain ⟨hprev, hlast⟩ := List.append_inj' harr rfl
        obtain ⟨hp, hok'⟩ := ih k (by omega) hprev
        have hpkt : act.pkt = some ((msg.fill .request a).pkts k) := List.singleton_inj.mp hlast
        cases act with
        | recv preReq body thread p =>
          obtain rfl : p = (msg.fill .request a).pkts k := Option.some.inj hpkt
          exact ⟨hp.recv hok' (by omega) hs, hok'.step hs⟩
        | answer i lkey msg => exact absurd hpkt (Option.some_ne_none _).symm
        | bgRun thread => exact absurd hpkt (Option.some_ne_none _).symm
    · rw [if_neg hact, List.append_nil] at harr
      obtain ⟨hp, hok'⟩ := ih k hk harr
      refine ⟨?_, hok'.step hs⟩
      cases hslot : act.slot with
      | some j => exact hp.unmoved (Unmoved.of_ne hok' hs hslot fun hj => hact (by rw [hslot, hj]))
      | none =>
        cases act with
        | recv preReq body thread p => exact absurd hslot (Option.some_ne_none _)
        | answer i lkey msg => exact absurd hslot (Option.some_ne_none _)
        | bgRun thread =>
          rw [← Option.some.inj hs]
          exact hp.bgRun hok' thread

end BgSrv

/-! ## Once on every request -/

open BgSrv

/-- **When the handler runs.**  Let the packets of a request arrive in order at a server in any
reachable state, with anything happening to the other slots, and let the background threads
take the work items of its slot.  The handler has run once, in the thread it is registered for,
exactly when it is a foreground handler or the request has more than one packet. -/
theorem handler_runs_once_iff (e : Endpoint) (fn : ℕ → ReqFuncType) (msg : TxMsg) (a : SendArgs)
    (acts : List BgAct) (b₀ b : BgSrv) (hr : Reachable e fn b₀)
    (hpend : b₀.pending (slotIdx a) = 0)
    (hrun : Run (fun _ _ => True) (BgSrv.step e fn) b₀ acts b)
    (harr : arrivals (slotIdx a) acts = (seg (msg.fill .request a).pkts 0 msg.totalPkt).map some)
    (hend : b.pending (slotIdx a) = 0) :
    (b.inlineRuns a = b₀.inlineRuns a +
        (if fn (a.reqType % 2 ^ 8) = .kForeground then 1 else 0) ∧
      b.bgRuns a = b₀.bgRuns a + if fn (a.reqType % 2 ^ 8) = .kBackground then 1 else 0) ↔
    (fn (a.reqType % 2 ^ 8) = .kForeground ∨ kMaxDataPerPkt < msg.msgSize) := by
  obtain ⟨hp, -⟩ := Progress.run hr.ok hpend hrun msg.totalPkt le_rfl harr
  have hinl := hp.inlineRuns
  have hbg := hp.bgRuns
  rw [hend, Nat.add_zero] at hbg
  simp only [le_refl, true_and] at hinl hbg
  rw [hinl, hbg]
  cases hfn : fn (a.reqType % 2 ^ 8) with
  | kForeground => simp
  | kBackground => simp

/-- Request 32, of type 1. -/
def sampleBgArgs : SendArgs := ⟨1, 3, 32, 0⟩

/-- A message of three bytes. -/
def onePkt : TxMsg := TxMsg.ofBytes [1, 2, 3] (by decide)

theorem handler_runs_once_two_packets : ∃ b, b.inlineRuns sampleBgArgs = 0 ∧
    b.bgRuns sampleBgArgs = 1 ∧
    Run (fun _ _ => True) (BgSrv.step default fun _ => .kBackground) BgSrv.init
      [.recv 0 4096 0 ((twoPkts.fill .request sampleBgArgs).pkts 0),
        .recv 0 8192 0 ((twoPkts.fill .request sampleBgArgs).pkts 1), .bgRun 0] b := by
  have hexec : (exec (fun _ _ => True) (BgSrv.step default fun _ => .kBackground) BgSrv.init
      [.recv 0 4096 0 ((twoPkts.fill .request sampleBgArgs).pkts 0),
        .recv 0 8192 0 ((twoPkts.fill .request sampleBgArgs).pkts 1), .bgRun 0]).map
      (fun b => b.queue) = some [] := by
    decide +kernel
  obtain ⟨b, hb, hq⟩ := Option.map_eq_some_iff.mp hexec
  have hrun := run_of_exec hb
  have hmain := (handler_runs_once_iff default (fun _ => .kBackground) twoPkts sampleBgArgs _
    BgSrv.init b ⟨[], Run.nil⟩ rfl hrun rfl (by unfold BgSrv.pending; rw [hq]; rfl)).mpr
      (Or.inr (by decide))
  exact ⟨b, hmain.1, hmain.2, hrun⟩

/-- **A request that no thread handles.**  A request of three bytes for a background handler is
noted in its slot, but the handler neither runs nor is submitted. -/
theorem small_bg_request_dropped : ∃ b,
    Run (fun _ _ => True) (BgSrv.step default fun _ => .kBackground) BgSrv.init
      [.recv 0 4096 0 ((onePkt.fill .request sampleBgArgs).pkts 0), .bgRun 0] b ∧
    b.inlineRuns sampleBgArgs = 0 ∧ b.bgRuns sampleBgArgs = 0 ∧ b.queue = [] ∧
    (b.srv.slots 0).reqType = 1 := by
  have hexec : (exec (fun _ _ => True) (BgSrv.step default fun _ => .kBackground) BgSrv.init
      [.recv 0 4096 0 ((onePkt.fill .request sampleBgArgs).pkts 0), .bgRun 0]).map
      (fun b => (b.inlineRuns sampleBgArgs, b.bgRuns sampleBgArgs, b.queue,
        (b.srv.slots 0).reqType)) = some (0, 0, [], 1) := by
    decide +kernel
  obtain ⟨b, hb, hq⟩ := Option.map_eq_some_iff.mp hexec
  simp only [Prod.mk.injEq] at hq
  exact ⟨b, run_of_exec hb, hq⟩

end HuiRpc
