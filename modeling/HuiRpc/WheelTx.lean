/-
# Packets sent through the timing wheel

`enqueue_wheel_req_st` and `enqueue_wheel_rfr_st` put a packet into the timing wheel, and
`process_wheel_st` reaps the wheel and adds what is in the ready queue to the TX batch.  The two
insertions differ in the packet only; the desired time, which the congestion control of the session
computes, is an argument.

* A wheel entry keeps 16 bits of the packet number and a pointer to the slot.  It does not say
  whether the packet is a request packet or an RFR; `WheelPkt.kind` records it.
* In `process_wheel_st` a packet is a request packet if its number is less than 1, and the branch
  for the others is commented out.

* `OnTime.perm_log` — every inserted entry is in the ready queue or in a slot of the wheel, once;
* `wheel_packets` — `wheel_count_` counts the packets of a slot that are still in the wheel or in the
  ready queue, and the packets sent are the ones reaped iff these are all request packets 0.
-/
import HuiRpc.WheelRuns

namespace HuiRpc

open Runs

/-! ## Where the inserted entries are -/

section Due

variable {α : Type}

theorem dueAt_cons (x : Slotted α) (log : List (Slotted α)) (t : ℕ) :
    dueAt (x :: log) t = if x.time = t then x.entry :: dueAt log t else dueAt log t := by
  unfold dueAt
  rw [List.filter_cons]
  simp only [decide_eq_true_eq]
  split_ifs <;> rfl

theorem dueBefore_cons (x : Slotted α) (log : List (Slotted α)) (t : ℕ) :
    dueBefore (x :: log) t = if x.time < t then x.entry :: dueBefore log t else dueBefore log t := by
  unfold dueBefore
  rw [List.filter_cons]
  simp only [decide_eq_true_eq]
  split_ifs <;> rfl

/-- Entries whose times are either past or the time of exactly one slot. -/
theorem perm_due {n T : ℕ} {time : ℕ → ℕ} (log : List (Slotted α))
    (h : ∀ x ∈ log, (x.time < T ∧ ∀ i < n, x.time ≠ time i) ∨
      (¬ x.time < T ∧ ∃ i < n, ∀ j < n, x.time = time j ↔ j = i)) :
    (log.map (·.entry)).Perm
      (dueBefore log T ++ (List.range n).flatMap fun i => dueAt log (time i)) := by
  induction log with
  | nil => simp [dueBefore, dueAt]
  | cons x log ih =>
    have hrest := ih fun y hy => h y (List.mem_cons_of_mem x hy)
    rw [dueBefore_cons]
    rcases h x (List.mem_cons_self ..) with ⟨hpast, hnone⟩ | ⟨hlate, i, hi, hslot⟩
    · have hsame : ((List.range n).flatMap fun i => dueAt (x :: log) (time i))
          = (List.range n).flatMap fun i => dueAt log (time i) := by
        apply List.flatMap_congr
        intro j hj
        rw [dueAt_cons, if_neg (hnone j (List.mem_range.mp hj))]
      rw [if_pos hpast, hsame]
      exact hrest.cons _
    · -- the slot `i` holds one entry more, the others are as before
      have hone : ((List.range n).flatMap fun j => dueAt (x :: log) (time j))
          = (List.range n).flatMap fun j =>
            if j = i then x.entry :: dueAt log (time j) else dueAt log (time j) := by
        apply List.flatMap_congr
        intro j hj
        rw [dueAt_cons]
        simp only [hslot j (List.mem_range.mp hj)]
      have hmove := perm_flatMap_replace (f := fun j => if j = i then x.entry :: dueAt log (time j)
        else dueAt log (time j)) (g := fun j => dueAt log (time j)) hi fun j hj => if_neg hj
      simp only [if_true] at hmove
      have hmid : ((List.range n).flatMap (fun j => dueAt log (time j))
            ++ x.entry :: dueAt log (time i)).Perm
          ((x.entry :: (List.range n).flatMap fun j => dueAt log (time j))
            ++ dueAt log (time i)) := List.perm_middle
      have hcons := (List.perm_append_right_iff _).mp (hmove.trans hmid)
      rw [if_neg hlate, hone]
      exact ((hrest.cons _).trans List.perm_middle.symm).trans (hcons.symm.append_left _)

/-- **The entries of a wheel.**  Every entry inserted so far was pushed to the ready queue or is in a
slot, once. -/
theorem OnTime.perm_log {c : WheelConf} {base a : ℕ} {log : List (Slotted α)} {w : TimingWheel α}
    (h : OnTime c base a log w) :
    (log.map (·.entry)).Perm (w.readyQueue ++
      (List.range c.numWslots).flatMap fun i => dueAt log (w.bkt i).txTsc) := by
  refine (perm_due log ?_).trans (h.ready.symm.append_right _)
  intro x hx
  obtain ⟨m, hm, htime⟩ := h.near x hx
  -- the slots have the times `a`, ..., `a + n - 1`: slot `m % n` has time `m` unless `m` is past
  by_cases hpast : m < a
  · refine Or.inl ⟨by rw [htime, slotTime_lt_iff]; exact hpast, ?_⟩
    intro i hi heq
    obtain ⟨k, hk, hk', rfl⟩ := OnTime.exists_slot c a hi
    rw [htime, h.times k hk hk'] at heq
    have := slotTime_inj heq
    omega
  · refine Or.inr ⟨by rw [htime, slotTime_lt_iff]; exact hpast, m % c.numWslots,
      Nat.mod_lt _ c.numWslots_pos, ?_⟩
    intro j hj
    obtain ⟨k, hk, hk', rfl⟩ := OnTime.exists_slot c a hj
    rw [htime, h.times k hk hk']
    constructor
    · intro heq
      rw [slotTime_inj heq]
    · intro heq
      by_contra hne
      exact OnTime.mod_ne hk hk' (not_lt.mp hpast) hm (fun hkm => hne (by rw [hkm])) heq

end Due

/-! ## The ready queue only grows -/

namespace TimingWheel

variable {α : Type}

theorem readyQueue_reapChain (ws fuel : ℕ) (o : Option ℕ) (w : TimingWheel α) :
    w.readyQueue <+: (reapChain ws fuel o w).readyQueue := by
  induction fuel generalizing o w with
  | zero => exact List.prefix_refl _
  | succ fuel ih =>
    cases o with
    | none => exact List.prefix_refl _
    | some r =>
      refine List.IsPrefix.trans ?_ (ih (w.bkt r).next (w.reapBkt ws r))
      have hpush : (w.reapBkt ws r).readyQueue = w.readyQueue ++ (w.bkt r).entries := by
        unfold reapBkt
        split_ifs <;> rfl
      rw [hpush]
      exact List.prefix_append _ _

theorem readyQueue_reap (c : WheelConf) (w : TimingWheel α) (ts : ℕ) :
    w.readyQueue <+: (w.reap c ts).readyQueue := by
  have hloop : ∀ fuel (w : TimingWheel α), w.readyQueue <+: (reapLoop c ts fuel w).readyQueue := by
    intro fuel
    induction fuel with
    | zero => exact fun _ => List.prefix_refl _
    | succ fuel ih =>
      intro w
      unfold reapLoop
      split_ifs
      · exact (readyQueue_reapChain _ _ _ w).trans (ih (w.advance c))
      · exact List.prefix_refl _
  exact hloop _ w

end TimingWheel

/-! ## Packets -/

inductive WheelKind
  | req
  | rfr
  deriving DecidableEq

/-- A packet put into the wheel, with its number. -/
structure WheelPkt where
  kind : WheelKind
  sslot : ℕ
  pktNum : ℕ
  deriving DecidableEq

/-- `pkt_num_` of the wheel entry. -/
def WheelPkt.entNum (p : WheelPkt) : ℕ := p.pktNum % 2 ^ 16

/-- What `process_wheel_st` adds to the TX batch for an entry. -/
def WheelPkt.sends (p : WheelPkt) : Option WheelPkt :=
  if p.entNum < 1 then some ⟨.req, p.sslot, p.entNum⟩ else none

/-- The wheel with the fields of the slots that the functions write.  Of the ready queue the first
`popped` entries are gone; `sent` are the packets that `process_wheel_st` added to the TX batch. -/
structure WheelTx where
  run : WheelRun WheelPkt
  popped : ℕ
  wheelCount : ℕ → ℕ
  inWheel : ℕ → ℕ → Bool
  sent : List WheelPkt

inductive WheelTxAct
  | enqueueWheelReq (sslot pktNum refTsc desired : ℕ)
  | enqueueWheelRfr (sslot pktNum refTsc desired : ℕ)
  | processWheel (curTsc : ℕ)

/-- The call of the wheel. -/
def WheelTxAct.call : WheelTxAct → WheelCall WheelPkt
  | enqueueWheelReq sslot pktNum refTsc desired => .insert ⟨.req, sslot, pktNum⟩ refTsc desired
  | enqueueWheelRfr sslot pktNum refTsc desired => .insert ⟨.rfr, sslot, pktNum⟩ refTsc desired
  | processWheel curTsc => .reap curTsc

/-- The packet that is put into the wheel. -/
def WheelTxAct.put : WheelTxAct → Option WheelPkt
  | enqueueWheelReq sslot pktNum _ _ => some ⟨.req, sslot, pktNum⟩
  | enqueueWheelRfr sslot pktNum _ _ => some ⟨.rfr, sslot, pktNum⟩
  | processWheel _ => none

namespace WheelTx

variable {c : WheelConf} {base : ℕ} {s s' : WheelTx}

def start (c : WheelConf) (base : ℕ) : WheelTx where
  run := WheelRun.start c base
  popped := 0
  wheelCount := fun _ => 0
  inWheel := fun _ _ => false
  sent := []

/-- The entries popped from the ready queue so far. -/
def reaped (s : WheelTx) : List WheelPkt := s.run.wheel.readyQueue.take s.popped

/-- `ready_queue_`. -/
def ready (s : WheelTx) : List WheelPkt := s.run.wheel.readyQueue.drop s.popped

def setInWheel (s : WheelTx) (p : WheelPkt) (n : ℕ) (b : Bool) : WheelTx :=
  { s with
    inWheel := Function.update s.inWheel p.sslot
      (Function.update (s.inWheel p.sslot) (n % kSessionCredits) b) }

/-- `enqueue_wheel_req_st` and `enqueue_wheel_rfr_st`. -/
def enqueueWheel (c : WheelConf) (p : WheelPkt) (refTsc desired : ℕ) (s : WheelTx) :
    Option WheelTx :=
  (WheelRun.step c s.run (.insert p refTsc desired)).map fun r =>
    { (s.setInWheel p p.pktNum true) with
      run := r
      wheelCount := Function.update s.wheelCount p.sslot (s.wheelCount p.sslot + 1) }

/-- The body of the loop of `process_wheel_st`. -/
def processEnt (s : WheelTx) (ent : WheelPkt) : WheelTx :=
  { (s.setInWheel ent ent.entNum false) with
    sent := s.sent ++ ent.sends.toList
    wheelCount := Function.update s.wheelCount ent.sslot (s.wheelCount ent.sslot - 1)
    popped := s.popped + 1 }

/-- `process_wheel_st`. -/
def processWheel (c : WheelConf) (curTsc : ℕ) (s : WheelTx) : Option WheelTx :=
  (WheelRun.step c s.run (.reap curTsc)).map fun r =>
    let s := { s with run := r }
    s.ready.foldl processEnt s

def step (c : WheelConf) (s : WheelTx) : WheelTxAct → Option WheelTx
  | .enqueueWheelReq sslot pktNum refTsc desired =>
      s.enqueueWheel c ⟨.req, sslot, pktNum⟩ refTsc desired
  | .enqueueWheelRfr sslot pktNum refTsc desired =>
      s.enqueueWheel c ⟨.rfr, sslot, pktNum⟩ refTsc desired
  | .processWheel curTsc => s.processWheel c curTsc

/-- The wheel is called within its assertions. -/
def guard (c : WheelConf) (s : WheelTx) (a : WheelTxAct) : Prop := WheelRun.guard c s.run a.call

instance (c : WheelConf) (s : WheelTx) (a : WheelTxAct) : Decidable (guard c s a) :=
  inferInstanceAs (Decidable (WheelRun.guard c s.run a.call))

/-! ## The loop of `process_wheel_st` -/

theorem foldl_processEnt (ents : List WheelPkt) (s : WheelTx) :
    (ents.foldl processEnt s).run = s.run ∧
      (ents.foldl processEnt s).popped = s.popped + ents.length ∧
      (ents.foldl processEnt s).sent = s.sent ++ ents.filterMap WheelPkt.sends ∧
      ∀ x, (ents.foldl processEnt s).wheelCount x
        = s.wheelCount x - ents.countP (·.sslot = x) := by
  induction ents generalizing s with
  | nil => simp
  | cons e ents ih =>
    obtain ⟨hrun, hpop, hsent, hcount⟩ := ih (s.processEnt e)
    refine ⟨hrun, ?_, ?_, ?_⟩
    · rw [List.foldl_cons, hpop, List.length_cons]
      show s.popped + 1 + _ = _
      omega
    · rw [List.foldl_cons, hsent, List.filterMap_cons]
      show s.sent ++ e.sends.toList ++ _ = _
      rw [List.append_assoc]
      cases e.sends <;> rfl
    · intro x
      rw [List.foldl_cons, hcount, List.countP_cons]
      show Function.update s.wheelCount e.sslot (s.wheelCount e.sslot - 1) x - _ = _
      by_cases hx : e.sslot = x
      · subst hx
        rw [Function.update_self, if_pos (by simp)]
        omega
      · rw [Function.update_of_ne (Ne.symm hx), if_neg (by simpa using hx)]
        omega

/-! ## Runs -/

theorem enqueueWheel_run {p : WheelPkt} {refTsc desired : ℕ}
    (hs : s.enqueueWheel c p refTsc desired = some s') :
    WheelRun.step c s.run (.insert p refTsc desired) = some s'.run := by
  obtain ⟨r, hr, rfl⟩ := Option.map_eq_some_iff.mp hs
  exact hr

theorem processWheel_run {curTsc : ℕ} (hs : s.processWheel c curTsc = some s') :
    WheelRun.step c s.run (.reap curTsc) = some s'.run := by
  obtain ⟨r, hr, rfl⟩ := Option.map_eq_some_iff.mp hs
  rw [(foldl_processEnt _ _).1]
  exact hr

/-- The wheel of a run makes a run of its own. -/
theorem run_step {a : WheelTxAct} (hs : step c s a = some s') :
    WheelRun.step c s.run a.call = some s'.run := by
  cases a with
  | enqueueWheelReq sslot pktNum ref desired => exact enqueueWheel_run hs
  | enqueueWheelRfr sslot pktNum ref desired => exact enqueueWheel_run hs
  | processWheel cur => exact processWheel_run hs

theorem run_run {acts : List WheelTxAct} (h : Run (guard c) (step c) (start c base) acts s) :
    Run (WheelRun.guard c) (WheelRun.step c) (WheelRun.start c base) (acts.map (·.call)) s.run := by
  induction h with
  | nil => exact Run.nil
  | snoc _ hg hs ih =>
    rw [List.map_append]
    exact ih.snoc hg (run_step hs)

theorem readyQueue_step {r r' : WheelRun WheelPkt} {a : WheelCall WheelPkt}
    (hs : WheelRun.step c r a = some r') : r.wheel.readyQueue <+: r'.wheel.readyQueue := by
  cases a with
  | reap ts =>
    obtain rfl := Option.some.inj hs
    exact TimingWheel.readyQueue_reap c r.wheel ts
  | insert ent ref desired =>
    obtain rfl := Option.some.inj hs
    show _ <+: ((r.wheel.reap c ref).insertIntoWslot _ ent).readyQueue
    rw [((r.wheel.reap c ref).insertIntoWslot_frame _ ent).2.2]
    exact TimingWheel.readyQueue_reap c r.wheel ref

/-- What was popped stays in front when the queue grows. -/
theorem take_of_prefix {r : WheelRun WheelPkt}
    (hpre : s.run.wheel.readyQueue <+: r.wheel.readyQueue)
    (hle : s.popped ≤ s.run.wheel.readyQueue.length) :
    r.wheel.readyQueue.take s.popped = s.reaped := by
  obtain ⟨rest, hrest⟩ := hpre
  rw [← hrest, List.take_append_of_le_length hle]
  rfl

/-- Every packet is in the ready queue, popped or not, or in a slot of the wheel. -/
theorem perm_log {r : WheelRun WheelPkt} (h : WheelRun.Inv c base r) :
    ∃ q, r.wheel.Holds c q ∧ (r.log.map (·.entry)).Perm
      (r.wheel.readyQueue ++ (List.range c.numWslots).flatMap q) := by
  obtain ⟨a, hot, -, -⟩ := h.onTime
  exact ⟨_, hot.holds, hot.perm_log⟩

/-- What is sent and counted, by the packets popped so far. -/
structure Inv (c : WheelConf) (base : ℕ) (s : WheelTx) : Prop where
  run : WheelRun.Inv c base s.run
  popped_le : s.popped ≤ s.run.wheel.readyQueue.length
  sent : s.sent = s.reaped.filterMap WheelPkt.sends
  count : ∀ x, s.wheelCount x + s.reaped.countP (·.sslot = x)
    = (s.run.log.map (·.entry)).countP (·.sslot = x)

theorem Inv.start (c : WheelConf) (base : ℕ) : Inv c base (start c base) where
  run := WheelRun.Inv.start c base
  popped_le := Nat.zero_le _
  sent := rfl
  count := fun _ => rfl

/-- An insertion pops nothing. -/
theorem Inv.enqueueWheel {p : WheelPkt} {refTsc desired : ℕ} (h : Inv c base s)
    (hg : WheelRun.guard c s.run (.insert p refTsc desired))
    (hs : s.enqueueWheel c p refTsc desired = some s') : Inv c base s' := by
  obtain ⟨r, hr, rfl⟩ := Option.map_eq_some_iff.mp hs
  have hpre := readyQueue_step hr
  have hreaped := take_of_prefix hpre h.popped_le
  exact {
    run := h.run.step hg hr
    popped_le := h.popped_le.trans hpre.length_le
    sent := by
      show s.sent = (r.wheel.readyQueue.take s.popped).filterMap _
      rw [hreaped]
      exact h.sent
    count := by
      intro x
      show Function.update s.wheelCount p.sslot (s.wheelCount p.sslot + 1) x
        + (r.wheel.readyQueue.take s.popped).countP _ = (r.log.map _).countP _
      obtain rfl := Option.some.inj hr
      have hold := h.count x
      rw [hreaped, List.map_append, List.countP_append, ← hold]
      by_cases hx : p.sslot = x
      · subst hx
        rw [Function.update_self]
        simp only [List.map_cons, List.map_nil, List.countP_singleton, decide_true, if_true]
        omega
      · rw [Function.update_of_ne (Ne.symm hx)]
        simp [hx] }

/-- `process_wheel_st` pops all that is ready. -/
theorem Inv.processWheel {curTsc : ℕ} (h : Inv c base s)
    (hg : WheelRun.guard c s.run (.reap curTsc)) (hs : s.processWheel c curTsc = some s') :
    Inv c base s' := by
  obtain ⟨r, hr, rfl⟩ := Option.map_eq_some_iff.mp hs
  have hpre := readyQueue_step hr
  have hinv := h.run.step hg hr
  have hreaped := take_of_prefix hpre h.popped_le
  -- the loop runs over what was not popped, also over what the reap has just pushed
  have hsplit : s.reaped ++ r.wheel.readyQueue.drop s.popped = r.wheel.readyQueue := by
    rw [← hreaped, List.take_append_drop]
  have hlen : s.popped + (r.wheel.readyQueue.drop s.popped).length
      = r.wheel.readyQueue.length := by
    have := hpre.length_le
    have := h.popped_le
    rw [List.length_drop]
    omega
  obtain ⟨hrun, hpop, hsent, hcount⟩ :=
    foldl_processEnt (r.wheel.readyQueue.drop s.popped) { s with run := r }
  set t := (r.wheel.readyQueue.drop s.popped).foldl processEnt { s with run := r } with ht
  have hall : t.reaped = r.wheel.readyQueue := by
    unfold reaped
    rw [hrun, hpop]
    exact List.take_of_length_le hlen.ge
  show Inv c base t
  exact {
    run := by
      rw [hrun]
      exact hinv
    popped_le := by
      rw [hrun, hpop]
      exact hlen.le
    sent := by
      rw [hall, hsent]
      conv_rhs => rw [← hsplit, List.filterMap_append, ← h.sent]
    count := by
      intro x
      -- the packets popped now are among those logged, so the subtraction does not stop at 0
      obtain ⟨q, -, hperm⟩ := perm_log hinv
      have hlog := hperm.countP_eq (·.sslot = x)
      have hold := h.count x
      have hsame : r.log = s.run.log := by
        obtain rfl := Option.some.inj hr
        rfl
      have hqueue := congrArg (List.countP (·.sslot = x)) hsplit
      rw [List.countP_append] at hlog hqueue
      rw [hall, hcount, hrun]
      show s.wheelCount x - (r.wheel.readyQueue.drop s.popped).countP _ + _
        = (r.log.map _).countP _
      rw [hsame] at hlog ⊢
      omega }

theorem Inv.step {a : WheelTxAct} (h : Inv c base s) (hg : guard c s a)
    (hs : step c s a = some s') : Inv c base s' := by
  cases a with
  | enqueueWheelReq sslot pktNum ref desired => exact h.enqueueWheel hg hs
  | enqueueWheelRfr sslot pktNum ref desired => exact h.enqueueWheel hg hs
  | processWheel cur => exact h.processWheel hg hs

/-- What was put into the wheel is what the calls inserted. -/
theorem log_eq_put {acts : List WheelTxAct} (h : Run (guard c) (step c) (start c base) acts s) :
    s.run.log.map (·.entry) = acts.filterMap (·.put) := by
  have hlog := WheelRun.log_eq_inserted (run_run h)
  have hfst := congrArg (List.map Prod.fst) hlog
  rw [List.map_map, List.filterMap_map, List.map_filterMap] at hfst
  refine hfst.trans ?_
  apply List.filterMap_congr
  intro a _
  cases a <;> rfl

/-- A packet is sent as it was put into the wheel only if it is a request packet 0. -/
theorem sends_eq_self (p : WheelPkt) : p.sends = some p ↔ p.kind = .req ∧ p.pktNum = 0 := by
  obtain ⟨kind, sslot, pktNum⟩ := p
  unfold WheelPkt.sends WheelPkt.entNum
  constructor
  · intro h
    split_ifs at h with hlt
    obtain ⟨hkind, -, hnum⟩ := WheelPkt.mk.inj (Option.some.inj h)
    refine ⟨hkind.symm, ?_⟩
    show pktNum = 0
    omega
  · rintro ⟨rfl, rfl⟩
    rfl

/-- The packets sent for a list of entries are these entries exactly if each one is. -/
theorem filterMap_sends_eq (l : List WheelPkt) :
    l.filterMap WheelPkt.sends = l ↔ ∀ p ∈ l, p.sends = some p := by
  induction l with
  | nil => simp
  | cons p l ih =>
    rw [List.forall_mem_cons, ← ih, List.filterMap_cons]
    cases hp : p.sends with
    | none =>
      -- the list would be longer than `l`
      simp only [reduceCtorEq, false_and, iff_false]
      intro heq
      have hlen := List.length_filterMap_le WheelPkt.sends l
      rw [heq, List.length_cons] at hlen
      omega
    | some p' => simp

/-- **Packets through the wheel.**  In every run every packet put into the wheel was popped by
`process_wheel_st`, is in the ready queue or is in a slot of the wheel, once; `wheel_count_` of a
slot is the number of its packets in the ready queue and in the wheel; and the packets added to the
TX batch are those popped, each once and in this order, iff all packets popped are request
packets 0. -/
theorem wheel_packets {acts : List WheelTxAct}
    (hrun : Run (guard c) (step c) (start c base) acts s) :
    (∃ q, s.run.wheel.Holds c q ∧
      (acts.filterMap (·.put)).Perm
        (s.reaped ++ (s.ready ++ (List.range c.numWslots).flatMap q)) ∧
      ∀ x, s.wheelCount x
        = (s.ready ++ (List.range c.numWslots).flatMap q).countP (·.sslot = x)) ∧
    (s.sent = s.reaped ↔ ∀ p ∈ s.reaped, p.kind = .req ∧ p.pktNum = 0) := by
  have hinv : Inv c base s := hrun.invariant (Inv.start c base) fun _ _ _ hi hg hs => hi.step hg hs
  obtain ⟨q, hholds, hperm⟩ := perm_log hinv.run
  have hsplit : s.reaped ++ s.ready = s.run.wheel.readyQueue := List.take_append_drop _ _
  rw [← hsplit, List.append_assoc] at hperm
  refine ⟨⟨q, hholds, ?_, ?_⟩, ?_⟩
  · rw [← log_eq_put hrun]
    exact hperm
  · intro x
    have hcount := hinv.count x
    rw [hperm.countP_eq, List.countP_append] at hcount
    omega
  · rw [hinv.sent, filterMap_sends_eq]
    exact forall₂_congr fun p _ => sends_eq_self p

/-- Request packets 0 of three slots. -/
def firstPkts : List WheelTxAct :=
  [.enqueueWheelReq 5 0 10 13, .enqueueWheelReq 6 0 11 11, .processWheel 13,
    .enqueueWheelReq 7 0 13 17]

theorem wheel_packets_firstPkts :
    ∃ s, Run (guard WheelRun.smallConf) (step WheelRun.smallConf) (start WheelRun.smallConf 10)
        firstPkts s ∧ s.sent = s.reaped ∧ s.sent = [⟨.req, 6, 0⟩] := by
  have hexec : (exec (guard WheelRun.smallConf) (step WheelRun.smallConf)
      (start WheelRun.smallConf 10) firstPkts).map (fun s => (s.reaped, s.sent))
        = some ([⟨.req, 6, 0⟩], [⟨.req, 6, 0⟩]) := by
    decide +kernel
  obtain ⟨s, hs, hval⟩ := Option.map_eq_some_iff.mp hexec
  have hrun := run_of_exec hs
  obtain ⟨hreaped, hsent⟩ := Prod.mk.inj hval
  refine ⟨s, hrun, (wheel_packets hrun).2.mpr ?_, hsent⟩
  rw [hreaped]
  decide

/-- **Packets that are never sent.**  Request packet 1 and RFR 1 of slot 5 are reaped and dropped. -/
theorem wheel_drops_packets :
    ∃ s, Run (guard WheelRun.smallConf) (step WheelRun.smallConf) (start WheelRun.smallConf 10)
        [.enqueueWheelReq 5 1 10 11, .enqueueWheelRfr 5 1 10 11, .processWheel 20] s ∧
      s.reaped = [⟨.req, 5, 1⟩, ⟨.rfr, 5, 1⟩] ∧ s.sent = [] ∧ s.sent ≠ s.reaped := by
  have hexec : (exec (guard WheelRun.smallConf) (step WheelRun.smallConf)
      (start WheelRun.smallConf 10)
      [.enqueueWheelReq 5 1 10 11, .enqueueWheelRfr 5 1 10 11, .processWheel 20]).map
        (fun s => (s.reaped, s.sent)) = some ([⟨.req, 5, 1⟩, ⟨.rfr, 5, 1⟩], []) := by
    decide +kernel
  obtain ⟨s, hs, hval⟩ := Option.map_eq_some_iff.mp hexec
  obtain ⟨hreaped, hsent⟩ := Prod.mk.inj hval
  refine ⟨s, run_of_exec hs, hreaped, hsent, ?_⟩
  rw [hreaped, hsent]
  exact List.cons_ne_nil _ _ |>.symm

end WheelTx

end HuiRpc
