/-
# The heartbeat manager

`HeartbeatMgr` of `src/heartbeat_mgr.h`: remote URIs that are tracked, a queue of send and check
events ordered by time, and the loop of `do_one`.

* Every `rdtsc()` that a result depends on is an argument; those of the messages are left out.
* `std::priority_queue` may return any of the earliest events: `HbTick.pick` chooses.
* `do_one` is given the readings of its iterations.  A loop that has not ended when they are used
  up is a loop that is still going on.
* `HbRun` adds what the environment did: when a URI was added and when heartbeats arrived.

A heartbeat does not move the stored time of its URI, because `emplace` does not overwrite
(`stored_eq_addedAt`), so a check fails a URI iff the URI was added too long ago
(`iter_some`): `kept_alive_not_failed` says when this does no harm and
`kept_alive_failed` gives a run in which it does.
-/
import HuiRpc.Lib.Runs

namespace HuiRpc

open Runs

/-- `EventType`. -/
inductive HbEventType
  | send
  | check
  deriving DecidableEq

/-- `HeartbeatMgr::Event`. -/
structure HbEvent (U : Type) where
  type : HbEventType
  remUri : U
  tsc : ℕ
  deriving DecidableEq

/-- The readings of the clock in one iteration of `do_one`: in `in_future`, in the comparison with
the last heartbeat, and for the next event; and the choice among the earliest events. -/
structure HbTick where
  future : ℕ
  check : ℕ
  sched : ℕ
  pick : ℕ

/-- `hb_event_pqueue_`, `map_last_hb_rx_` and the URIs to which a heartbeat was sent. -/
structure HbMgr (U : Type) where
  queue : List (HbEvent U)
  lastHbRx : U → Option ℕ
  sent : List U

namespace HbMgr

variable {U : Type}

def init : HbMgr U := ⟨[], fun _ => none, []⟩

/-- `hb_send_delta_tsc_` and `hb_check_delta_tsc_`, from `failure_timeout_tsc_`. -/
def scheduleHbSend (timeout : ℕ) (m : HbMgr U) (remUri : U) (now : ℕ) : HbMgr U :=
  { m with queue := m.queue ++ [⟨.send, remUri, now + timeout / 10⟩] }

def scheduleHbCheck (timeout : ℕ) (m : HbMgr U) (remUri : U) (now : ℕ) : HbMgr U :=
  { m with queue := m.queue ++ [⟨.check, remUri, now + timeout / 2⟩] }

/-- `hb_event_pqueue_.top()`. -/
def top (m : HbMgr U) (pick : ℕ) : Option (HbEvent U) :=
  let earliest := m.queue.filter fun e => m.queue.all fun e' => e.tsc ≤ e'.tsc
  earliest[pick % earliest.length]?

variable [DecidableEq U]

/-- `map_last_hb_rx_.emplace`. -/
def emplace (m : HbMgr U) (uri : U) (tsc : ℕ) : HbMgr U :=
  { m with lastHbRx :=
      if (m.lastHbRx uri).isSome then m.lastHbRx
      else Function.update m.lastHbRx uri (some tsc) }

/-- `unlocked_add_remote`. -/
def addRemote (timeout : ℕ) (m : HbMgr U) (uri : U) (curTsc sendTsc checkTsc : ℕ) : HbMgr U :=
  ((m.emplace uri curTsc).scheduleHbSend timeout uri sendTsc).scheduleHbCheck timeout uri checkTsc

/-- `unlocked_receive_hb`. -/
def receiveHb (m : HbMgr U) (uri : U) (now : ℕ) : HbMgr U :=
  if m.lastHbRx uri = none then m else m.emplace uri now

/-- The `switch` of `do_one` for an event of a URI that is tracked; the URIs that fail come with
the reading that they fail at. -/
def handle (timeout : ℕ) (m : HbMgr U) (e : HbEvent U) (lastPingRx : ℕ) (t : HbTick) :
    HbMgr U × List (U × ℕ) :=
  match e.type with
  | .send => ({ m with sent := m.sent ++ [e.remUri] }.scheduleHbSend timeout e.remUri t.sched, [])
  | .check =>
    if t.check - lastPingRx > timeout then
      ({ m with lastHbRx := Function.update m.lastHbRx e.remUri none }, [(e.remUri, t.check)])
    else (m.scheduleHbCheck timeout e.remUri t.sched, [])

/-- One iteration of `do_one`; `none` is `break`. -/
def iter (timeout : ℕ) (m : HbMgr U) (t : HbTick) : Option (HbMgr U × List (U × ℕ)) :=
  match m.top t.pick with
  | none => none
  | some e =>
    if e.tsc > t.future then none
    else
      match m.lastHbRx e.remUri with
      | none => none
      | some lastPingRx =>
        some ({ m with queue := m.queue.erase e }.handle timeout e lastPingRx t)

/-- `do_one`. -/
def doOne (timeout : ℕ) : HbMgr U → List HbTick → HbMgr U × List (U × ℕ)
  | m, [] => (m, [])
  | m, t :: ts =>
    match m.iter timeout t with
    | none => (m, [])
    | some (m', failed) =>
      let (m'', failed') := doOne timeout m' ts
      (m'', failed ++ failed')

variable {timeout : ℕ} {m m' : HbMgr U} {t : HbTick} {failed : List (U × ℕ)} {u : U}

/-! ## What the calls do to the stored times -/

theorem emplace_lastHbRx (m : HbMgr U) (uri : U) (now : ℕ) :
    (m.emplace uri now).lastHbRx u
      = if u = uri ∧ m.lastHbRx u = none then some now else m.lastHbRx u := by
  unfold emplace
  by_cases hu : u = uri
  · subst hu
    cases h : m.lastHbRx u with
    | none => simp
    | some last => simp [h]
  · split_ifs <;> simp_all

/-- **A heartbeat changes nothing.** -/
theorem receiveHb_eq (m : HbMgr U) (uri : U) (now : ℕ) : m.receiveHb uri now = m := by
  unfold receiveHb
  split_ifs with h
  · rfl
  · unfold emplace
    rw [if_pos (Option.isSome_iff_ne_none.mpr h)]

/-- The event that an iteration puts in the place of `e`. -/
def renew (timeout : ℕ) (t : HbTick) (e : HbEvent U) : HbEvent U :=
  ⟨e.type, e.remUri, t.sched + match e.type with | .send => timeout / 10 | .check => timeout / 2⟩

/-- **What an iteration does**: the top event is due and its remote is tracked; it is replaced by the
next event of its kind, unless it is a check and the remote fails. -/
theorem iter_some (h : m.iter timeout t = some (m', failed)) :
    ∃ e last, m.top t.pick = some e ∧ e.tsc ≤ t.future ∧ m.lastHbRx e.remUri = some last ∧
      ((¬ (e.type = .check ∧ timeout < t.check - last) ∧ failed = [] ∧
          m'.lastHbRx = m.lastHbRx ∧
          m'.sent = m.sent ++ (if e.type = .send then [e.remUri] else []) ∧
          m'.queue = m.queue.erase e ++ [renew timeout t e]) ∨
        (e.type = .check ∧ timeout < t.check - last ∧ failed = [(e.remUri, t.check)] ∧
          m'.lastHbRx = Function.update m.lastHbRx e.remUri none ∧ m'.sent = m.sent ∧
          m'.queue = m.queue.erase e)) := by
  unfold iter at h
  split at h
  · cases h
  · next e htop =>
    split_ifs at h with hfuture
    split at h
    · cases h
    · next last hlast =>
      refine ⟨e, last, htop, Nat.le_of_not_lt hfuture, hlast, ?_⟩
      unfold handle at h
      unfold renew
      cases htype : e.type with
      | send =>
        simp only [htype] at h
        obtain ⟨rfl, rfl⟩ := h
        exact Or.inl ⟨fun hc => (nomatch hc.1), rfl, rfl, rfl, rfl⟩
      | check =>
        simp only [htype, Option.some.injEq] at h
        split_ifs at h with hlate
        · obtain ⟨rfl, rfl⟩ := Prod.mk.inj h
          exact Or.inr ⟨rfl, hlate, rfl, rfl, rfl, rfl⟩
        · obtain ⟨rfl, rfl⟩ := Prod.mk.inj h
          exact Or.inl ⟨fun hc => hlate hc.2, rfl, rfl, (List.append_nil _).symm, rfl⟩

/-- **The loop**: a URI that fails was tracked, and stored too long ago; no time is stored. -/
theorem doOne_spec (m : HbMgr U) (ts : List HbTick) :
    (∀ p ∈ (m.doOne timeout ts).2, ∃ last, m.lastHbRx p.1 = some last ∧ last + timeout < p.2 ∧
      ∃ t ∈ ts, t.check = p.2) ∧
    ∀ u last, (m.doOne timeout ts).1.lastHbRx u = some last → m.lastHbRx u = some last := by
  induction ts generalizing m with
  | nil => exact ⟨by simp [doOne], fun u last h => h⟩
  | cons t ts ih =>
    rw [doOne]
    cases hiter : m.iter timeout t with
    | none => exact ⟨by simp, fun u last h => h⟩
    | some x =>
      obtain ⟨m', failed⟩ := x
      obtain ⟨hfail, hstored⟩ := ih m'
      -- the times of the next state are times of this one
      have hback : ∀ u last, m'.lastHbRx u = some last → m.lastHbRx u = some last := by
        intro u last hu
        obtain ⟨e, -, -, -, -, ⟨-, -, hsame, -⟩ | ⟨-, -, -, hsame, -⟩⟩ := iter_some hiter
        · rwa [hsame] at hu
        · rw [hsame, Function.update_apply] at hu
          split_ifs at hu
          exact hu
      refine ⟨fun p hp => ?_, fun u last h => hback u last (hstored u last h)⟩
      rcases List.mem_append.mp hp with hp | hp
      · obtain ⟨e, last, -, -, hlast, ⟨-, rfl, -⟩ | ⟨-, hlate, rfl, -⟩⟩ := iter_some hiter
        · simp at hp
        · rw [List.mem_singleton.mp hp]
          exact ⟨last, hlast, by show last + timeout < t.check; omega, t, by simp, rfl⟩
      · obtain ⟨last, hlast, hlate, t', ht', heq⟩ := hfail p hp
        exact ⟨last, hback _ _ hlast, hlate, t', List.mem_cons_of_mem t ht', heq⟩

end HbMgr

/-! ## Runs -/

/-- The manager, the times at which the URIs that are tracked were added, the calls of
`unlocked_receive_hb` with their times, and the last reading of the clock. -/
structure HbRun (U : Type) where
  mgr : HbMgr U
  addedAt : U → ℕ
  recvs : List (U × ℕ)
  now : ℕ

inductive HbAct (U : Type)
  | add (uri : U) (curTsc sendTsc checkTsc : ℕ)
  | recv (uri : U) (now : ℕ)
  | doOne (ticks : List HbTick)

/-- The readings of the clock in a call, in order. -/
def HbAct.readings {U : Type} : HbAct U → List ℕ
  | add _ curTsc sendTsc checkTsc => [curTsc, sendTsc, checkTsc]
  | recv _ now => [now]
  | doOne ticks => ticks.flatMap fun t => [t.future, t.check, t.sched]

namespace HbRun

variable {U : Type} [DecidableEq U]

def init : HbRun U := ⟨HbMgr.init, fun _ => 0, [], 0⟩

/-- The clock does not go back. -/
def Clock (s : HbRun U) (a : HbAct U) : Prop := (s.now :: a.readings).Pairwise (· ≤ ·)

def step (timeout : ℕ) (s : HbRun U) (a : HbAct U) : Option (HbRun U) :=
  let now := a.readings.getLast?.getD s.now
  some <| match a with
  | .add uri curTsc sendTsc checkTsc =>
    { s with
      mgr := s.mgr.addRemote timeout uri curTsc sendTsc checkTsc
      addedAt :=
        if s.mgr.lastHbRx uri = none then Function.update s.addedAt uri curTsc else s.addedAt
      now := now }
  | .recv uri tsc =>
    { s with mgr := s.mgr.receiveHb uri tsc, recvs := s.recvs ++ [(uri, tsc)], now := now }
  | .doOne ticks => { s with mgr := (s.mgr.doOne timeout ticks).1, now := now }

/-- Up to the time `t`, there was a heartbeat from `u` in every window of length `timeout` since
`u` was added. -/
def KeptAlive (timeout : ℕ) (s : HbRun U) (u : U) (t : ℕ) : Prop :=
  ∀ w, s.addedAt u ≤ w → w + timeout ≤ t → ∃ r, (u, r) ∈ s.recvs ∧ w ≤ r ∧ r ≤ w + timeout

/-- A call of `do_one` reads the clock at most `timeout` after a URI that is tracked and kept
alive was added. -/
def Timely (timeout : ℕ) (s : HbRun U) (ticks : List HbTick) : Prop :=
  ∀ u, s.mgr.lastHbRx u ≠ none → ∀ t ∈ ticks, s.KeptAlive timeout u t.check →
    t.check ≤ s.addedAt u + timeout

variable {timeout : ℕ} {s : HbRun U} {acts : List (HbAct U)}

/-- **The stored time is the time at which the URI was added**, in every run. -/
theorem stored_eq_addedAt (h : Run Clock (step timeout) init acts s) :
    ∀ u last, s.mgr.lastHbRx u = some last → last = s.addedAt u := by
  refine h.invariant (P := fun s => ∀ u last, s.mgr.lastHbRx u = some last → last = s.addedAt u)
    ?_ ?_
  · rintro u last ⟨⟩
  · intro s a s' ih _ hs u last hu
    cases a with
    | add uri curTsc sendTsc checkTsc =>
      cases hs
      have hlast : (s.mgr.emplace uri curTsc).lastHbRx u = some last := hu
      rw [HbMgr.emplace_lastHbRx] at hlast
      show last = (if s.mgr.lastHbRx uri = none then _ else s.addedAt) u
      split_ifs at hlast with hnew
      · obtain ⟨rfl, hnone⟩ := hnew
        rw [if_pos hnone, Function.update_self]
        exact (Option.some.inj hlast).symm
      · -- the URI was tracked before the call
        have hu' : ¬ (s.mgr.lastHbRx uri = none ∧ u = uri) := by
          rintro ⟨hnone, rfl⟩
          exact hnew ⟨rfl, hnone⟩
        split_ifs with hnone
        · rw [Function.update_of_ne fun heq => hu' ⟨hnone, heq⟩]
          exact ih u last hlast
        · exact ih u last hlast
    | recv uri tsc =>
      cases hs
      have hlast : (s.mgr.receiveHb uri tsc).lastHbRx u = some last := hu
      rw [HbMgr.receiveHb_eq] at hlast
      exact ih u last hlast
    | doOne ticks =>
      cases hs
      exact ih u last ((HbMgr.doOne_spec s.mgr ticks).2 u last hu)

/-- **No URI that is kept alive fails**, in any state of any run, if `do_one` is called at most
`timeout` after the URI was added. -/
theorem kept_alive_not_failed (h : Run Clock (step timeout) init acts s) (ticks : List HbTick)
    (htimely : Timely timeout s ticks) :
    ∀ p ∈ (s.mgr.doOne timeout ticks).2, ¬ s.KeptAlive timeout p.1 p.2 := by
  intro p hp halive
  obtain ⟨last, hlast, hlate, t, ht, hcheck⟩ := (HbMgr.doOne_spec s.mgr ticks).1 p hp
  have hadded := stored_eq_addedAt h p.1 last hlast
  have hle := htimely p.1 (by simp [hlast]) t ht (hcheck ▸ halive)
  omega

instance (s : HbRun U) (a : HbAct U) : Decidable (Clock s a) :=
  inferInstanceAs (Decidable (List.Pairwise _ _))

/-- A URI is added at time 0, and heartbeats arrive at 4 and at 8. -/
def sampleHeartbeats : List (HbAct Unit) := [.add () 0 0 0, .recv () 4, .recv () 8]

/-- The check at time 9 passes. -/
theorem kept_alive_not_failed_sampleHeartbeats :
    ∃ s, Run Clock (step 10) init sampleHeartbeats s ∧ Timely 10 s [⟨9, 9, 9, 0⟩, ⟨9, 9, 9, 0⟩] ∧
      ∀ p ∈ (s.mgr.doOne 10 [⟨9, 9, 9, 0⟩, ⟨9, 9, 9, 0⟩]).2, ¬ s.KeptAlive 10 p.1 p.2 := by
  have hexec : (exec Clock (step 10) init sampleHeartbeats).map (fun s => s.addedAt ()) = some 0 := by
    decide +kernel
  obtain ⟨s, hs, hadded⟩ := Option.map_eq_some_iff.mp hexec
  have htimely : Timely 10 s [⟨9, 9, 9, 0⟩, ⟨9, 9, 9, 0⟩] := by
    intro u _ t ht _
    obtain rfl : t = ⟨9, 9, 9, 0⟩ := by simpa using ht
    show 9 ≤ s.addedAt u + 10
    omega
  exact ⟨s, run_of_exec hs, htimely, kept_alive_not_failed (run_of_exec hs) _ htimely⟩

/-- **A URI that is kept alive fails.**  At time 12 there was a heartbeat in every window of
length 10, but the stored time is still 0. -/
theorem kept_alive_failed :
    ∃ s ticks, Run Clock (step 10) init sampleHeartbeats s ∧ Clock s (.doOne ticks) ∧
      ∃ p ∈ (s.mgr.doOne 10 ticks).2, s.KeptAlive 10 p.1 p.2 := by
  have hexec : (exec Clock (step 10) init sampleHeartbeats).map (fun s =>
      (decide (Clock s (.doOne [⟨12, 12, 12, 0⟩, ⟨12, 12, 12, 0⟩])), s.addedAt (), s.recvs,
        (s.mgr.doOne 10 [⟨12, 12, 12, 0⟩, ⟨12, 12, 12, 0⟩]).2))
      = some (true, 0, [((), 4), ((), 8)], [((), 12)]) := by
    decide +kernel
  obtain ⟨s, hs, hval⟩ := Option.map_eq_some_iff.mp hexec
  simp only [Prod.mk.injEq] at hval
  obtain ⟨hclock, hadded, hrecvs, hfailed⟩ := hval
  refine ⟨s, _, run_of_exec hs, of_decide_eq_true hclock, ((), 12), by simp [hfailed], ?_⟩
  intro w _ hw
  refine ⟨4, by simp [hrecvs], ?_, by omega⟩
  show w ≤ 4
  omega

end HbRun

end HuiRpc
