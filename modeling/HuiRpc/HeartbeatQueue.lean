/-
# The event queue of the heartbeat manager

What `do_one` of `src/heartbeat_mgr.h` leaves in the event queue, and what calls of the manager put
into it.

* `do_one` stops at the first due event whose remote is not tracked, and leaves it in the queue: it
  is in the way of all later events until the remote is added again.  `do_one_drains_iff` says when
  no due event is left.
* `unlocked_add_remote` schedules a send and a check event whether or not there are such events
  already, and no send event ever leaves the queue for good (`HbLog.Inv`): `one_event_each_iff` says
  that there is one event of each kind for a URI exactly if no URI is added twice.
-/
import HuiRpc.Heartbeat

namespace HuiRpc

open Runs

/-- All readings of an iteration are between `b` and `t`. -/
def HbTick.Within (k : HbTick) (b t : ℕ) : Prop :=
  k.future ∈ Set.Icc b t ∧ k.check ∈ Set.Icc b t ∧ k.sched ∈ Set.Icc b t

namespace HbMgr

variable {U : Type} [DecidableEq U] {timeout : ℕ} {m m' : HbMgr U} {k : HbTick} {ts : List HbTick}
  {b t pick : ℕ} {e : HbEvent U} {failed : List (U × ℕ)}

/-! ## The earliest event -/

omit [DecidableEq U] in
theorem mem_of_top (h : m.top pick = some e) : e ∈ m.queue ∧ ∀ e' ∈ m.queue, e.tsc ≤ e'.tsc := by
  unfold top at h
  have hmem := List.mem_of_getElem? h
  rw [List.mem_filter, List.all_eq_true] at hmem
  exact ⟨hmem.1, fun e' he' => of_decide_eq_true (hmem.2 e' he')⟩

omit [DecidableEq U] in
theorem mem_earliest (he : e ∈ m.queue) (hmin : ∀ e' ∈ m.queue, e.tsc ≤ e'.tsc) :
    e ∈ m.queue.filter fun e => m.queue.all fun e' => e.tsc ≤ e'.tsc := by
  rw [List.mem_filter, List.all_eq_true]
  exact ⟨he, fun e' he' => decide_eq_true (hmin e' he')⟩

omit [DecidableEq U] in
/-- Any of the earliest events may be the top. -/
theorem exists_top (he : e ∈ m.queue) (hmin : ∀ e' ∈ m.queue, e.tsc ≤ e'.tsc) :
    ∃ pick, m.top pick = some e := by
  obtain ⟨i, hi, hget⟩ := List.mem_iff_getElem.mp (mem_earliest he hmin)
  refine ⟨i, ?_⟩
  unfold top
  dsimp only
  rw [Nat.mod_eq_of_lt hi, List.getElem?_eq_getElem hi, hget]

omit [DecidableEq U] in
/-- A queue has an earliest event. -/
theorem exists_earliest (he : e ∈ m.queue) :
    ∃ e' ∈ m.queue, e'.tsc ≤ e.tsc ∧ ∀ e'' ∈ m.queue, e'.tsc ≤ e''.tsc := by
  cases hmin : m.queue.argmin HbEvent.tsc with
  | none =>
    rw [List.argmin_eq_none] at hmin
    exact absurd hmin (List.ne_nil_of_mem he)
  | some e' =>
    exact ⟨e', List.argmin_mem hmin, List.le_of_mem_argmin he hmin,
      fun e'' he'' => List.le_of_mem_argmin he'' hmin⟩

omit [DecidableEq U] in
theorem queue_eq_nil_of_top (h : m.top pick = none) : m.queue = [] := by
  rcases hq : m.queue with _ | ⟨e, rest⟩
  · rfl
  · have he : e ∈ m.queue := by simp [hq]
    obtain ⟨e', he', -, hmin⟩ := exists_earliest he
    unfold top at h
    have hlen := List.getElem?_eq_none_iff.mp h
    exact absurd (Nat.mod_lt pick (List.length_pos_of_mem (mem_earliest he' hmin)))
      (Nat.not_lt.mpr hlen)

/-! ## One iteration -/

/-- The top event is due and its remote is not tracked. -/
def Blocked (m : HbMgr U) (k : HbTick) : Prop :=
  ∃ e, m.top k.pick = some e ∧ e.tsc ≤ k.future ∧ m.lastHbRx e.remUri = none

/-- The loop ends when there is no event, when the top is in the future, or when it is blocked. -/
theorem iter_eq_none (h : m.iter timeout k = none) :
    (∀ e ∈ m.queue, k.future < e.tsc) ∨ m.Blocked k := by
  unfold iter at h
  split at h
  · next htop =>
    left
    intro e he
    rw [queue_eq_nil_of_top htop] at he
    exact absurd he List.not_mem_nil
  · next e htop =>
    split_ifs at h with hfuture
    · left
      intro e' he'
      exact lt_of_lt_of_le hfuture ((mem_of_top htop).2 e' he')
    · split at h
      · next hnone => exact Or.inr ⟨e, htop, Nat.le_of_not_lt hfuture, hnone⟩
      · cases h

theorem iter_of_blocked (h : m.Blocked k) : m.iter timeout k = none := by
  obtain ⟨e, htop, hdue, hnone⟩ := h
  unfold iter
  rw [htop]
  dsimp only
  rw [if_neg (Nat.not_lt.mpr hdue), hnone]

/-- An event that is due and whose remote is tracked is handled. -/
theorem iter_of_tracked {last : ℕ} (htop : m.top k.pick = some e) (hdue : e.tsc ≤ k.future)
    (hlast : m.lastHbRx e.remUri = some last) : ∃ r, m.iter timeout k = some r := by
  unfold iter
  rw [htop]
  dsimp only
  rw [if_neg (Nat.not_lt.mpr hdue), hlast]
  exact ⟨_, rfl⟩

/-! ## The loop -/

/-- The reading of the clock at which `do_one` returns; `none` if the loop goes on. -/
def returnTsc (timeout : ℕ) : HbMgr U → List HbTick → Option ℕ
  | _, [] => none
  | m, k :: ks =>
    match m.iter timeout k with
    | none => some k.future
    | some (m', _) => returnTsc timeout m' ks

/-- The last iteration finds a due event of a remote that is not tracked. -/
def StopsAtUntracked (timeout : ℕ) : HbMgr U → List HbTick → Prop
  | _, [] => False
  | m, k :: ks =>
    match m.iter timeout k with
    | none => m.Blocked k
    | some (m', _) => StopsAtUntracked timeout m' ks

/-- No event in the queue is due at `t`. -/
def Drained (m : HbMgr U) (t : ℕ) : Prop := ∀ e ∈ m.queue, t < e.tsc

/-- **The loop**, whatever the clock does in the meantime. -/
theorem drained_iff (h : m.returnTsc timeout ts = some t) :
    (m.doOne timeout ts).1.Drained t ↔ ¬ m.StopsAtUntracked timeout ts := by
  induction ts generalizing m with
  | nil => cases h
  | cons k ks ih =>
    rw [returnTsc] at h
    rw [doOne, StopsAtUntracked]
    cases hiter : m.iter timeout k with
    | none =>
      rw [hiter] at h
      obtain rfl := Option.some.inj h
      constructor
      · rintro hdrained ⟨e, htop, hdue, -⟩
        have hlt := hdrained e (mem_of_top htop).1
        omega
      · intro hnot
        rcases iter_eq_none hiter with hdrained | hblocked
        · exact hdrained
        · exact absurd hblocked hnot
    | some r =>
      rw [hiter] at h
      exact ih h

/-! ## A call shorter than `hb_send_delta_tsc_` -/

/-- A check of `u` at time `t` fails it. -/
def Late (timeout : ℕ) (m : HbMgr U) (t : ℕ) (u : U) : Prop :=
  ∃ last, m.lastHbRx u = some last ∧ timeout < t - last

/-- All events that are due at `t` belong to remotes that are tracked, and the check of a remote that
is late is due after its other events. -/
structure Clear (timeout : ℕ) (m : HbMgr U) (t : ℕ) : Prop where
  tracked : ∀ e ∈ m.queue, e.tsc ≤ t → m.lastHbRx e.remUri ≠ none
  last : ∀ c ∈ m.queue, c.type = .check → c.tsc ≤ t → m.Late timeout t c.remUri →
    ∀ e ∈ m.queue.erase c, e.remUri = c.remUri → e.tsc ≤ t → e.tsc < c.tsc

/-- The number of events that are due. -/
def due (m : HbMgr U) (t : ℕ) : ℕ := m.queue.countP fun e => e.tsc ≤ t

section Within

variable (hshort : t < b + timeout / 10) (hk : k.Within b t)
include hshort hk

/-- The queue after an iteration, as far as it is due. -/
theorem mem_iter_of_due (h : m.iter timeout k = some (m', failed)) :
    ∃ e0 last, m.top k.pick = some e0 ∧ e0.tsc ≤ t ∧ m.lastHbRx e0.remUri = some last ∧
      (∀ u, m'.lastHbRx u = none → m.lastHbRx u = none ∨ u = e0.remUri) ∧
      (∀ u last, m'.lastHbRx u = some last → m.lastHbRx u = some last) ∧
      (m'.lastHbRx e0.remUri = none ↔ e0.type = .check ∧ timeout < k.check - last) ∧
      ∃ later, (∀ e ∈ later, t < e.tsc) ∧ m'.queue = m.queue.erase e0 ++ later := by
  obtain ⟨hfuture, -, hsched⟩ := hk
  obtain ⟨e0, last, htop, hdue, hlast, hcases⟩ := iter_some h
  refine ⟨e0, last, htop, hdue.trans hfuture.2, hlast, ?_⟩
  rcases hcases with ⟨hnot, -, hmap, -, hq⟩ | ⟨htype, hlate, -, hmap, -, hq⟩
  · rw [hmap]
    refine ⟨fun u => Or.inl, fun u l => id, iff_of_false (by simp [hlast]) hnot, _, ?_, hq⟩
    intro e he
    rw [List.mem_singleton.mp he]
    -- the new time is a delta after the reading, which is `b` or later
    have hb := hsched.1
    unfold renew
    cases e0.type <;> dsimp only <;> omega
  · rw [hmap]
    refine ⟨fun u hu => ?_, fun u l hu => ?_, ?_, [], by simp, by simpa using hq⟩
    · by_cases hue : u = e0.remUri
      · exact Or.inr hue
      · rw [Function.update_of_ne hue] at hu
        exact Or.inl hu
    · by_cases hue : u = e0.remUri
      · rw [hue, Function.update_self] at hu
        cases hu
      · rwa [Function.update_of_ne hue] at hu
    · rw [Function.update_self]
      exact iff_of_true rfl ⟨htype, hlate⟩

/-- Every iteration leaves one due event less. -/
theorem due_iter (h : m.iter timeout k = some (m', failed)) : m'.due t < m.due t := by
  obtain ⟨e0, last, htop, hdue, -, -, -, -, later, hlater, hq⟩ := mem_iter_of_due hshort hk h
  have hzero : later.countP (fun e => decide (e.tsc ≤ t)) = 0 := by
    rw [List.countP_eq_zero]
    intro e he
    have := hlater e he
    simpa using this
  have herase := List.countP_erase (fun e : HbEvent U => decide (e.tsc ≤ t)) m.queue e0
  unfold due
  rw [hq, List.countP_append, hzero]
  have hmem : e0 ∈ m.queue := (mem_of_top htop).1
  have hcount : 0 < m.queue.countP fun e => decide (e.tsc ≤ t) :=
    List.countP_pos_iff.mpr ⟨e0, hmem, by simpa using hdue⟩
  simp only [hmem, hdue, decide_true, and_self, if_true] at herase
  omega

/-- In a state that is clear no iteration is blocked, and the next state is clear. -/
theorem Clear.iter (hc : m.Clear timeout t) (h : m.iter timeout k = some (m', failed)) :
    m'.Clear timeout t := by
  obtain ⟨e0, last0, htop, hdue, hlast0, hnone, hsome, hfails, later, hlater, hq⟩ :=
    mem_iter_of_due hshort hk h
  obtain ⟨hmem, hmin⟩ := mem_of_top htop
  have hold : ∀ e ∈ m'.queue, e.tsc ≤ t → e ∈ m.queue.erase e0 := by
    intro e he hle
    rw [hq, List.mem_append] at he
    rcases he with he | he
    · exact he
    · have := hlater e he
      omega
  refine ⟨fun e he hle hun => ?_, fun c hc' htype hcle hlate e he hue hle => ?_⟩
  · have hin := hold e he hle
    rcases hnone _ hun with hun' | hue
    · exact hc.tracked e (List.mem_of_mem_erase hin) hle hun'
    · -- the remote failed in this iteration, and its check was the last of its due events
      rw [hue, hfails] at hun
      have hlate : m.Late timeout t e0.remUri :=
        ⟨last0, hlast0, hun.2.trans_le (Nat.sub_le_sub_right hk.2.1.2 last0)⟩
      have hlt := hc.last e0 hmem hun.1 hdue hlate e hin hue hle
      have := hmin e (List.mem_of_mem_erase hin)
      omega
  · have hcin := hold c hc' hcle
    obtain ⟨l, hl, hltl⟩ := hlate
    refine hc.last c (List.mem_of_mem_erase hcin) htype hcle ⟨l, hsome _ _ hl, hltl⟩ e ?_ hue hle
    rw [hq, List.erase_append_left _ hcin, List.mem_append] at he
    rcases he with he | he
    · rw [List.erase_comm] at he
      exact List.mem_of_mem_erase he
    · have := hlater e he
      omega

omit hshort in
theorem Clear.not_blocked (hc : m.Clear timeout t) : ¬ m.Blocked k := by
  rintro ⟨e, htop, hdue, hnone⟩
  exact hc.tracked e (mem_of_top htop).1 (hdue.trans hk.1.2) hnone

end Within

theorem Clear.not_stops (hshort : t < b + timeout / 10) (hts : ∀ k ∈ ts, k.Within b t)
    (hc : m.Clear timeout t) : ¬ m.StopsAtUntracked timeout ts := by
  induction ts generalizing m with
  | nil => exact id
  | cons k ks ih =>
    rw [StopsAtUntracked]
    have hk := hts k (List.mem_cons_self ..)
    cases hiter : m.iter timeout k with
    | none => exact hc.not_blocked hk
    | some r =>
      exact ih (fun k' hk' => hts k' (List.mem_cons_of_mem _ hk')) (hc.iter hshort hk hiter)

/-- Where a state is not clear: a due event of a remote that is not tracked, or one that comes after
the check of its late remote. -/
def Stuck (timeout : ℕ) (m : HbMgr U) (t : ℕ) : Prop :=
  (∃ e ∈ m.queue, e.tsc ≤ t ∧ m.lastHbRx e.remUri = none) ∨
    ∃ c ∈ m.queue, c.type = .check ∧ c.tsc ≤ t ∧ m.Late timeout t c.remUri ∧
      ∃ e ∈ m.queue.erase c, e.remUri = c.remUri ∧ e.tsc ≤ t ∧ c.tsc ≤ e.tsc

theorem stuck_of_not_clear (h : ¬ m.Clear timeout t) : m.Stuck timeout t := by
  by_contra hnot
  unfold Stuck at hnot
  push Not at hnot
  exact h ⟨fun e he hle => hnot.1 e he hle,
    fun c hc htype hle hlate e he hue hle' => hnot.2 c hc htype hle hlate e he hue hle'⟩

/-- A due event of a remote that is not tracked stays. -/
theorem Stuck.of_untracked (hshort : t < b + timeout / 10) (hk : k.Within b t)
    (h : m.iter timeout k = some (m', failed)) (he : e ∈ m.queue) (hle : e.tsc ≤ t)
    (hnone : m.lastHbRx e.remUri = none) : m'.Stuck timeout t := by
  obtain ⟨e0, last0, htop, hdue, hlast0, -, hsome, -, later, -, hq⟩ := mem_iter_of_due hshort hk h
  refine Or.inl ⟨e, ?_, hle, ?_⟩
  · have hne : e ≠ e0 := by
      rintro rfl
      rw [hnone] at hlast0
      cases hlast0
    rw [hq]
    exact List.mem_append_left _ ((List.mem_erase_of_ne hne).mpr he)
  · cases hu : m'.lastHbRx e.remUri with
    | none => rfl
    | some l =>
      rw [hsome _ _ hu] at hnone
      cases hnone

/-- **A state that is not clear gets stuck**, if the queue gives the checks of late remotes first. -/
theorem Stuck.stops (hle : b ≤ t) (hshort : t < b + timeout / 10) (h : m.Stuck timeout t) :
    ∃ ts, (∀ k ∈ ts, k.Within b t) ∧ m.returnTsc timeout ts = some t ∧
      m.StopsAtUntracked timeout ts := by
  -- a clock that stands still is enough
  have hstill : ∀ pick, HbTick.Within ⟨t, t, t, pick⟩ b t :=
    fun _ => ⟨⟨hle, le_rfl⟩, ⟨hle, le_rfl⟩, ⟨hle, le_rfl⟩⟩
  induction hn : m.due t using Nat.strong_induction_on generalizing m with
  | _ n ih =>
    -- one iteration that keeps the state stuck, with the induction for the rest
    have hstep : ∀ e0 pick, m.top pick = some e0 → e0.tsc ≤ t →
        (∀ m' failed, m.iter timeout ⟨t, t, t, pick⟩ = some (m', failed) → m'.Stuck timeout t) →
        ∃ ts, (∀ k ∈ ts, k.Within b t) ∧ m.returnTsc timeout ts = some t ∧
          m.StopsAtUntracked timeout ts := by
      intro e0 pick htop hdue hkeep
      have hk := hstill pick
      cases hlast : m.lastHbRx e0.remUri with
      | none =>
        have hblocked : m.Blocked ⟨t, t, t, pick⟩ := ⟨e0, htop, hdue, hlast⟩
        refine ⟨[⟨t, t, t, pick⟩], by simpa using hk, ?_, ?_⟩
        · rw [returnTsc, iter_of_blocked hblocked]
        · rw [StopsAtUntracked, iter_of_blocked hblocked]
          exact hblocked
      | some last =>
        obtain ⟨⟨m', failed⟩, hiter⟩ : ∃ r, m.iter timeout ⟨t, t, t, pick⟩ = some r :=
          iter_of_tracked htop hdue hlast
        obtain ⟨ts, hts, hret, hstop⟩ := ih _ (hn ▸ due_iter hshort hk hiter)
          (hkeep m' failed hiter) rfl
        refine ⟨⟨t, t, t, pick⟩ :: ts, ?_, ?_, ?_⟩
        · rintro k' (_ | ⟨_, hk'⟩)
          · exact hk
          · exact hts k' hk'
        · rw [returnTsc, hiter]
          exact hret
        · rw [StopsAtUntracked, hiter]
          exact hstop
    rcases h with ⟨e, he, hle, hnone⟩ | ⟨c, hc, htype, hcle, ⟨last, hlast, hlate⟩, e, he, hue, hle,
      hce⟩
    · obtain ⟨e0, he0, hle0, hmin⟩ := exists_earliest he
      obtain ⟨pick, htop⟩ := exists_top he0 hmin
      exact hstep e0 pick htop (hle0.trans hle) fun m' failed hiter =>
        Stuck.of_untracked hshort (hstill pick) hiter he hle hnone
    · by_cases hfirst : ∀ e' ∈ m.queue, c.tsc ≤ e'.tsc
      · -- the check comes first, its remote fails, and the other event remains
        obtain ⟨pick, htop⟩ := exists_top hc hfirst
        refine hstep c pick htop hcle fun m' failed hiter => ?_
        obtain ⟨e0, last0, htop0, -, hlast0, -, -, hfails, later, -, hq⟩ :=
          mem_iter_of_due hshort (hstill pick) hiter
        obtain rfl : c = e0 := Option.some.inj (htop.symm.trans htop0)
        obtain rfl : last = last0 := Option.some.inj (hlast.symm.trans hlast0)
        refine Or.inl ⟨e, ?_, hle, ?_⟩
        · rw [hq]
          exact List.mem_append_left _ he
        · rw [hue]
          exact hfails.mpr ⟨htype, hlate⟩
      · -- another event comes before the check and leaves both
        obtain ⟨e0, he0, hle0, hmin⟩ := exists_earliest hc
        obtain ⟨pick, htop⟩ := exists_top he0 hmin
        refine hstep e0 pick htop (hle0.trans hcle) fun m' failed hiter => ?_
        have hlt : e0.tsc < c.tsc := by
          push Not at hfirst
          obtain ⟨e', he', hlt'⟩ := hfirst
          exact (hmin e' he').trans_lt hlt'
        obtain ⟨e1, last1, htop1, -, hlast1, hnone, hsome, -, later, -, hq⟩ :=
          mem_iter_of_due hshort (hstill pick) hiter
        obtain rfl : e0 = e1 := Option.some.inj (htop.symm.trans htop1)
        have hcin : c ∈ m.queue.erase e0 := by
          refine (List.mem_erase_of_ne ?_).mpr hc
          rintro rfl
          exact absurd hlt (lt_irrefl _)
        have hein : e ∈ (m.queue.erase e0).erase c := by
          rw [List.erase_comm]
          refine (List.mem_erase_of_ne ?_).mpr he
          rintro rfl
          omega
        have hcq : c ∈ m'.queue := by
          rw [hq]
          exact List.mem_append_left _ hcin
        cases hcl : m'.lastHbRx c.remUri with
        | none => exact Or.inl ⟨c, hcq, hcle, hcl⟩
        | some l =>
          have hsame : l = last := Option.some.inj ((hsome _ _ hcl).symm.trans hlast)
          refine Or.inr ⟨c, hcq, htype, hcle, ⟨l, hcl, hsame ▸ hlate⟩, e, ?_, hue, hle, hce⟩
          rw [hq, List.erase_append_left _ hcin]
          exact List.mem_append_left _ hein

/-- **What `do_one` leaves.**  When it returns at time `t`, no event that is due is left exactly if
the last iteration did not find a due event of a remote that is not tracked on top of the queue.  For
a call that is shorter than `hb_send_delta_tsc_`, this is so for every course of the clock and every
order of events with the same time exactly if all due events belong to remotes that are tracked and
the check of a late one is due after its others. -/
theorem do_one_drains_iff (timeout : ℕ) (m : HbMgr U) :
    (∀ ts t, m.returnTsc timeout ts = some t →
      ((m.doOne timeout ts).1.Drained t ↔ ¬ m.StopsAtUntracked timeout ts)) ∧
    (∀ b t, b ≤ t → t < b + timeout / 10 →
      ((∀ ts, (∀ k ∈ ts, k.Within b t) → m.returnTsc timeout ts = some t →
        (m.doOne timeout ts).1.Drained t) ↔ m.Clear timeout t)) := by
  refine ⟨fun ts t h => drained_iff h, fun b t hle hshort => ⟨fun hall => ?_, ?_⟩⟩
  · by_contra hnot
    obtain ⟨ts, hts, hret, hstop⟩ := (stuck_of_not_clear hnot).stops hle hshort
    exact (drained_iff hret).mp (hall ts hts hret) hstop
  · intro hc ts hts hret
    exact (drained_iff hret).mpr (hc.not_stops hshort hts)

end HbMgr

/-- Two URIs are added, the first one fails, and at time 120 its send event stands before the one of
the second URI. -/
def sampleLateRemote : List (HbAct Bool) :=
  [.add false 0 0 0, .add true 60 60 60, .doOne (List.replicate 4 ⟨105, 105, 105, 0⟩)]

/-- **A send event of a tracked URI is left.**  It is due at 115, and `do_one` returns at 120. -/
theorem do_one_leaves_due_event :
    ∃ s ticks e, Run HbRun.Clock (HbRun.step 100) HbRun.init sampleLateRemote s ∧
      HbRun.Clock s (.doOne ticks) ∧ s.mgr.returnTsc 100 ticks = some 120 ∧
      e ∈ s.mgr.queue ∧ s.mgr.lastHbRx e.remUri ≠ none ∧ e.tsc ≤ 120 ∧
      e ∈ (s.mgr.doOne 100 ticks).1.queue := by
  have hexec : (exec HbRun.Clock (HbRun.step 100) HbRun.init sampleLateRemote).map (fun s =>
      (decide (HbRun.Clock s (.doOne (List.replicate 2 ⟨120, 120, 120, 0⟩))),
        [s.mgr.returnTsc 100 (List.replicate 2 ⟨120, 120, 120, 0⟩), s.mgr.lastHbRx true],
        [s.mgr.queue, (s.mgr.doOne 100 (List.replicate 2 ⟨120, 120, 120, 0⟩)).1.queue]))
      = some (true, [some 120, some 60],
          [[⟨.check, true, 110⟩, ⟨.send, false, 115⟩, ⟨.send, true, 115⟩],
            [⟨.send, false, 115⟩, ⟨.send, true, 115⟩, ⟨.check, true, 170⟩]]) := by
    decide +kernel
  obtain ⟨s, hs, hval⟩ := Option.map_eq_some_iff.mp hexec
  simp only [Prod.mk.injEq, List.cons.injEq, and_true] at hval
  obtain ⟨hclock, ⟨hret, hlast⟩, hqueue, hleft⟩ := hval
  refine ⟨s, _, ⟨.send, true, 115⟩, run_of_exec hs, of_decide_eq_true hclock, hret, ?_, ?_, ?_, ?_⟩
  · simp [hqueue]
  · simp [hlast]
  · show 115 ≤ 120
    omega
  · rw [hleft]
    simp

/-! ## The events of a URI -/

/-- The manager with a record that the code does not keep: the URIs that were added, in order; how
often a URI began to be tracked; the heartbeats that were sent, with the readings of the iteration;
and the failures that were reported, with the number of the tracking period. -/
structure HbLog (U : Type) where
  mgr : HbMgr U
  now : ℕ
  added : List U
  period : U → ℕ
  sends : List (U × HbTick)
  fails : List (U × ℕ)

/-- The URI that a call adds. -/
def HbAct.addedUri {U : Type} : HbAct U → Option U
  | add uri _ _ _ => some uri
  | _ => none

namespace HbLog

variable {U : Type} [DecidableEq U] {timeout : ℕ} {s s' : HbLog U} {a : HbAct U}
  {acts : List (HbAct U)} {k : HbTick} {ts : List HbTick}

def init : HbLog U := ⟨HbMgr.init, 0, [], fun _ => 0, [], []⟩

/-- One iteration of `do_one`; the heartbeat that it sent is the last one of `sent`. -/
def tick (timeout : ℕ) (s : HbLog U) (k : HbTick) : Option (HbLog U) :=
  (s.mgr.iter timeout k).map fun (m, failed) =>
    { s with
      mgr := m
      sends := s.sends ++ (m.sent.drop s.mgr.sent.length).map fun u => (u, k)
      fails := s.fails ++ failed.map fun p => (p.1, s.period p.1) }

def doOne (timeout : ℕ) : HbLog U → List HbTick → HbLog U
  | s, [] => s
  | s, k :: ks =>
    match s.tick timeout k with
    | none => s
    | some s' => doOne timeout s' ks

/-- The record does not change what `do_one` does. -/
theorem doOne_mgr (s : HbLog U) (ts : List HbTick) :
    (s.doOne timeout ts).mgr = (s.mgr.doOne timeout ts).1 := by
  induction ts generalizing s with
  | nil => rfl
  | cons k ks ih =>
    rw [doOne, HbMgr.doOne, tick]
    cases hiter : s.mgr.iter timeout k with
    | none => rfl
    | some r => exact ih _

/-- What every iteration keeps, `do_one` keeps. -/
theorem doOne_induct {P : HbLog U → Prop} (h : P s)
    (hstep : ∀ s k s', k ∈ ts → P s → s.tick timeout k = some s' → P s') :
    P (s.doOne timeout ts) := by
  induction ts generalizing s with
  | nil => exact h
  | cons k ks ih =>
    rw [doOne]
    cases htick : s.tick timeout k with
    | none => exact h
    | some s' =>
      exact ih (hstep s k s' (List.mem_cons_self ..) h htick)
        fun s k' s' hk' => hstep s k' s' (List.mem_cons_of_mem _ hk')

/-- The clock does not go back. -/
def Clock (s : HbLog U) (a : HbAct U) : Prop := (s.now :: a.readings).Pairwise (· ≤ ·)

instance (s : HbLog U) (a : HbAct U) : Decidable (Clock s a) :=
  inferInstanceAs (Decidable (List.Pairwise _ _))

def step (timeout : ℕ) (s : HbLog U) (a : HbAct U) : Option (HbLog U) :=
  let now := a.readings.getLast?.getD s.now
  some <| match a with
  | .add uri curTsc sendTsc checkTsc =>
    { s with
      mgr := s.mgr.addRemote timeout uri curTsc sendTsc checkTsc
      added := s.added ++ [uri]
      period :=
        if s.mgr.lastHbRx uri = none then Function.update s.period uri (s.period uri + 1)
        else s.period
      now := now }
  | .recv uri tsc => { s with mgr := s.mgr.receiveHb uri tsc, now := now }
  | .doOne ticks => { s.doOne timeout ticks with now := now }

/-- **The record changes nothing**: its runs are the runs of `HbRun` with the same calls. -/
theorem run_hbRun (h : Run Clock (step timeout) HbLog.init acts s) :
    ∃ r, Run HbRun.Clock (HbRun.step timeout) HbRun.init acts r ∧ r.mgr = s.mgr ∧
      r.now = s.now := by
  induction h with
  | nil => exact ⟨HbRun.init, .nil, rfl, rfl⟩
  | @snoc _ t a t' _ hg hs ih =>
    obtain ⟨r, hr, hmgr, hnow⟩ := ih
    have hclock : r.Clock a := by
      unfold HbRun.Clock
      rw [hnow]
      exact hg
    refine ⟨_, hr.snoc hclock rfl, ?_⟩
    obtain rfl := Option.some.inj hs
    cases a with
    | add uri c1 c2 c3 => exact ⟨by rw [← hmgr], by rw [← hnow]⟩
    | recv uri tsc => exact ⟨by rw [← hmgr], by rw [← hnow]⟩
    | doOne ticks => exact ⟨by rw [doOne_mgr, ← hmgr], by rw [← hnow]⟩

/-- A heartbeat that is received changes nothing. -/
theorem step_recv (s : HbLog U) (uri : U) (tsc : ℕ) :
    step timeout s (.recv uri tsc) = some { s with now := tsc } := by
  unfold step
  simp only [HbMgr.receiveHb_eq]
  rfl

/-- The events of one kind of a URI. -/
def events (s : HbLog U) (type : HbEventType) (u : U) : ℕ :=
  s.mgr.queue.countP fun e => e.type = type ∧ e.remUri = u

/-- At most one send and one check event of every URI that is tracked is queued, the heartbeats to a
URI are `hb_send_delta_tsc_` apart, and a failure is reported at most once in a tracking period. -/
structure OneEventEach (timeout : ℕ) (s : HbLog U) : Prop where
  send : ∀ u, s.mgr.lastHbRx u ≠ none → s.events .send u ≤ 1
  check : ∀ u, s.mgr.lastHbRx u ≠ none → s.events .check u ≤ 1
  spaced : s.sends.Pairwise fun x y => x.1 = y.1 → x.2.sched + timeout / 10 ≤ y.2.future
  reported : s.fails.Nodup

/-! ### One iteration -/

/-- What an iteration does to the record. -/
theorem tick_some (h : s.tick timeout k = some s') :
    s'.added = s.added ∧ s'.period = s.period ∧
    ∃ e last, e ∈ s.mgr.queue ∧ e.tsc ≤ k.future ∧ s.mgr.lastHbRx e.remUri = some last ∧
      ((s'.mgr.lastHbRx = s.mgr.lastHbRx ∧ s'.fails = s.fails ∧
          s'.sends = s.sends ++ (if e.type = .send then [(e.remUri, k)] else []) ∧
          s'.mgr.queue = s.mgr.queue.erase e ++ [HbMgr.renew timeout k e]) ∨
        (e.type = .check ∧ s'.mgr.lastHbRx = Function.update s.mgr.lastHbRx e.remUri none ∧
          s'.fails = s.fails ++ [(e.remUri, s.period e.remUri)] ∧ s'.sends = s.sends ∧
          s'.mgr.queue = s.mgr.queue.erase e)) := by
  obtain ⟨⟨m, failed⟩, hiter, rfl⟩ := Option.map_eq_some_iff.mp h
  refine ⟨rfl, rfl, ?_⟩
  obtain ⟨e, last, htop, hdue, hlast, hcases⟩ := HbMgr.iter_some hiter
  refine ⟨e, last, (HbMgr.mem_of_top htop).1, hdue, hlast, ?_⟩
  rcases hcases with ⟨-, rfl, hmap, hsent, hq⟩ | ⟨htype, -, rfl, hmap, hsent, hq⟩
  · refine Or.inl ⟨hmap, by simp, ?_, hq⟩
    split_ifs at hsent ⊢ <;> simp [hsent]
  · exact Or.inr ⟨htype, hmap, by simp, by simp [hsent], hq⟩

/-- An event that is replaced by one of its kind. -/
theorem countP_replace {l : List (HbEvent U)} {e f : HbEvent U} (he : e ∈ l)
    (htype : f.type = e.type) (huri : f.remUri = e.remUri) (type : HbEventType) (u : U) :
    (l.erase e ++ [f]).countP (fun x => decide (x.type = type ∧ x.remUri = u))
      = l.countP fun x => decide (x.type = type ∧ x.remUri = u) := by
  have herase := List.countP_erase (fun x : HbEvent U => decide (x.type = type ∧ x.remUri = u)) l e
  rw [List.countP_append, herase, List.countP_singleton]
  by_cases hp : e.type = type ∧ e.remUri = u
  · have hcount : 0 < l.countP fun x => decide (x.type = type ∧ x.remUri = u) :=
      List.countP_pos_iff.mpr ⟨e, he, by simpa using hp⟩
    simp only [he, hp, htype, huri, decide_true, and_self, if_true]
    omega
  · simp [he, hp, htype, huri]

/-- No iteration takes a send event out of the queue for good, and none adds a check event. -/
theorem events_tick (h : s.tick timeout k = some s') (u : U) :
    s'.events .send u = s.events .send u ∧ s'.events .check u ≤ s.events .check u := by
  obtain ⟨-, -, e, last, he, -, -, hcases⟩ := tick_some h
  unfold events
  rcases hcases with ⟨-, -, -, hq⟩ | ⟨htype, -, -, -, hq⟩
  · have hkeep := countP_replace (f := HbMgr.renew timeout k e) he rfl rfl
    rw [hq]
    exact ⟨hkeep .send u, (hkeep .check u).le⟩
  · rw [hq, List.countP_erase, List.countP_erase]
    exact ⟨by simp [htype], Nat.sub_le _ _⟩

/-! ### All runs -/

/-- There are as many send events of a URI as it was added, and a failure is reported for a tracking
period that is over. -/
structure Inv (s : HbLog U) : Prop where
  send : ∀ u, s.events .send u = s.added.count u
  check : ∀ u, s.events .check u ≤ s.added.count u
  past : ∀ x ∈ s.fails, x.2 ≤ s.period x.1
  fresh : ∀ u, s.mgr.lastHbRx u ≠ none → (u, s.period u) ∉ s.fails
  reported : s.fails.Nodup

theorem Inv.init : Inv (init : HbLog U) where
  send := fun _ => rfl
  check := fun _ => le_rfl
  past := fun _ hx => absurd hx List.not_mem_nil
  fresh := fun _ _ => List.not_mem_nil
  reported := List.nodup_nil

theorem Inv.tick (h : Inv s) (hs : s.tick timeout k = some s') : Inv s' := by
  have hevents := events_tick hs
  obtain ⟨hadded, hperiod, e, last, -, -, hlast, hcases⟩ := tick_some hs
  -- the failures and the tracking set, in the two cases
  have hfails : (∀ x ∈ s'.fails, x.2 ≤ s'.period x.1) ∧
      (∀ u, s'.mgr.lastHbRx u ≠ none → (u, s'.period u) ∉ s'.fails) ∧ s'.fails.Nodup := by
    rw [hperiod]
    rcases hcases with ⟨hmap, hfail, -, -⟩ | ⟨-, hmap, hfail, -, -⟩
    · rw [hmap, hfail]
      exact ⟨h.past, h.fresh, h.reported⟩
    · have hnew : (e.remUri, s.period e.remUri) ∉ s.fails := h.fresh _ (by simp [hlast])
      rw [hmap, hfail]
      refine ⟨fun x hx => ?_, fun u hu hmem => ?_, ?_⟩
      · rcases List.mem_append.mp hx with hx | hx
        · exact h.past x hx
        · rw [List.mem_singleton.mp hx]
      · rw [Function.update_apply] at hu
        split_ifs at hu with hue
        · exact absurd rfl hu
        · rcases List.mem_append.mp hmem with hmem | hmem
          · exact h.fresh u hu hmem
          · exact hue (Prod.mk.inj (List.mem_singleton.mp hmem)).1
      · rw [List.nodup_append]
        refine ⟨h.reported, List.nodup_singleton _, fun x hx y hy hxy => ?_⟩
        rw [List.mem_singleton.mp hy] at hxy
        exact hnew (hxy ▸ hx)
  refine ⟨fun u => ?_, fun u => ?_, hfails.1, hfails.2.1, hfails.2.2⟩
  · rw [(hevents u).1, hadded]
    exact h.send u
  · rw [hadded]
    exact (hevents u).2.trans (h.check u)

/-- What `unlocked_add_remote` puts into the queue. -/
theorem events_add (s : HbLog U) (uri : U) (c1 c2 c3 : ℕ) (type : HbEventType) (u : U) :
    (s.mgr.addRemote timeout uri c1 c2 c3).queue.countP
        (fun e => decide (e.type = type ∧ e.remUri = u))
      = s.events type u + [uri].count u := by
  have hqueue : (s.mgr.addRemote timeout uri c1 c2 c3).queue
      = s.mgr.queue ++ [⟨.send, uri, c2 + timeout / 10⟩] ++ [⟨.check, uri, c3 + timeout / 2⟩] := rfl
  rw [hqueue, List.countP_append, List.countP_append, List.countP_singleton, List.countP_singleton,
    List.count_singleton]
  unfold events
  by_cases hu : uri = u
  · cases type with
    | send => simp [hu]
    | check => simp [hu]
  · simp [hu]

theorem Inv.step (h : Inv s) (hs : step timeout s a = some s') : Inv s' := by
  cases a with
  | add uri c1 c2 c3 =>
    obtain rfl := Option.some.inj hs
    refine ⟨fun u => ?_, fun u => ?_, ?_, ?_, h.reported⟩
    · exact (events_add s uri c1 c2 c3 .send u).trans (by rw [h.send, ← List.count_append])
    · refine (events_add s uri c1 c2 c3 .check u).trans_le ?_
      show _ ≤ (s.added ++ [uri]).count u
      rw [List.count_append]
      exact Nat.add_le_add_right (h.check u) _
    · intro x hx
      have hx' := h.past x hx
      dsimp only
      split_ifs
      · rw [Function.update_apply]
        split_ifs with hxu
        · rw [hxu] at hx'
          omega
        · exact hx'
      · exact hx'
    · intro u hu hmem
      have hlast : (s.mgr.emplace uri c1).lastHbRx u ≠ none := hu
      rw [HbMgr.emplace_lastHbRx] at hlast
      dsimp only at hmem
      split_ifs at hmem with huri
      · by_cases hux : u = uri
        · -- the new period has no failure yet
          rw [hux, Function.update_self] at hmem
          have hpast : s.period uri + 1 ≤ s.period uri := h.past _ hmem
          omega
        · rw [Function.update_of_ne hux] at hmem
          rw [if_neg fun hh => hux hh.1] at hlast
          exact h.fresh u hlast hmem
      · have hold : ¬ (u = uri ∧ s.mgr.lastHbRx u = none) := by
          rintro ⟨rfl, hnone⟩
          exact huri hnone
        rw [if_neg hold] at hlast
        exact h.fresh u hlast hmem
  | recv uri tsc =>
    rw [step_recv] at hs
    obtain rfl := Option.some.inj hs
    exact ⟨h.send, h.check, h.past, h.fresh, h.reported⟩
  | doOne ticks =>
    obtain rfl := Option.some.inj hs
    have hdone : Inv (s.doOne timeout ticks) := doOne_induct h fun _ _ _ _ h hs => h.tick hs
    exact ⟨hdone.send, hdone.check, hdone.past, hdone.fresh, hdone.reported⟩

theorem Inv.run (h : Run Clock (HbLog.step timeout) HbLog.init acts s) : Inv s :=
  h.invariant Inv.init fun _ _ _ hinv _ hs => hinv.step hs

/-! ### Runs that add no URI twice -/

/-- Every heartbeat that was sent is `hb_send_delta_tsc_` before the send event that its URI has now,
and before those that were sent later. -/
structure Apart (timeout : ℕ) (s : HbLog U) : Prop where
  spaced : s.sends.Pairwise fun x y => x.1 = y.1 → x.2.sched + timeout / 10 ≤ y.2.future
  ahead : ∀ x ∈ s.sends, ∀ e ∈ s.mgr.queue, e.type = .send → e.remUri = x.1 →
    x.2.sched + timeout / 10 ≤ e.tsc
  known : ∀ x ∈ s.sends, x.1 ∈ s.added

omit [DecidableEq U] in
theorem Apart.init : Apart timeout (init : HbLog U) where
  spaced := List.Pairwise.nil
  ahead := fun _ hx => absurd hx List.not_mem_nil
  known := fun _ hx => absurd hx List.not_mem_nil

/-- Only one send event of a URI is in the queue, so none is left when it is taken out. -/
theorem Inv.send_erase {e e' : HbEvent U} (h : Inv s) (hnodup : s.added.Nodup)
    (he : e ∈ s.mgr.queue) (htype : e.type = .send) (he' : e' ∈ s.mgr.queue.erase e)
    (htype' : e'.type = .send) : e'.remUri ≠ e.remUri := by
  intro huri
  have hone : s.events .send e.remUri ≤ 1 := by
    rw [h.send]
    exact List.nodup_iff_count_le_one.mp hnodup _
  have hzero : (s.mgr.queue.erase e).countP
      (fun x => decide (x.type = .send ∧ x.remUri = e.remUri)) = 0 := by
    rw [List.countP_erase]
    unfold events at hone
    simp only [he, htype, decide_true, and_self, if_true]
    omega
  exact List.countP_eq_zero.mp hzero e' he' (by simp [htype', huri])

theorem Apart.tick (h : Apart timeout s) (hinv : Inv s) (hnodup : s.added.Nodup)
    (hk : k.future ≤ k.sched) (hs : s.tick timeout k = some s') : Apart timeout s' := by
  obtain ⟨hadded, -, e, last, he, hdue, -, hcases⟩ := tick_some hs
  rcases hcases with ⟨-, -, hsends, hq⟩ | ⟨-, -, -, hsends, hq⟩
  · by_cases htype : e.type = .send
    · rw [if_pos htype] at hsends
      have huri : e.remUri ∈ s.added := by
        rw [← List.count_pos_iff, ← hinv.send]
        exact List.countP_pos_iff.mpr ⟨e, he, by simp [htype]⟩
      refine ⟨?_, ?_, ?_⟩
      · rw [hsends, List.pairwise_append]
        refine ⟨h.spaced, List.pairwise_singleton _ _, fun x hx y hy hxy => ?_⟩
        rw [List.mem_singleton.mp hy] at hxy ⊢
        exact (h.ahead x hx e he htype hxy.symm).trans hdue
      · intro x hx e' he' htype' huri'
        rw [hsends, List.mem_append, List.mem_singleton] at hx
        rw [hq, List.mem_append, List.mem_singleton] at he'
        -- the send event of a URI that was served now is the new one
        rcases he' with he' | rfl
        · rcases hx with hx | rfl
          · exact h.ahead x hx e' (List.mem_of_mem_erase he') htype' huri'
          · exact absurd huri' (hinv.send_erase hnodup he htype he' htype')
        · have htsc : (HbMgr.renew timeout k e).tsc = k.sched + timeout / 10 := by
            unfold HbMgr.renew
            rw [htype]
          rw [htsc]
          rcases hx with hx | rfl
          · have hold := h.ahead x hx e he htype huri'
            omega
          · exact le_rfl
      · intro x hx
        rw [hadded]
        rw [hsends, List.mem_append, List.mem_singleton] at hx
        rcases hx with hx | rfl
        · exact h.known x hx
        · exact huri
    · rw [if_neg htype, List.append_nil] at hsends
      refine ⟨hsends ▸ h.spaced, ?_, ?_⟩
      · intro x hx e' he' htype'
        rw [hq, List.mem_append, List.mem_singleton] at he'
        rcases he' with he' | rfl
        · exact h.ahead x (hsends ▸ hx) e' (List.mem_of_mem_erase he') htype'
        · exact absurd htype' htype
      · rw [hsends, hadded]
        exact h.known
  · refine ⟨hsends ▸ h.spaced, ?_, ?_⟩
    · intro x hx e' he'
      rw [hq] at he'
      exact h.ahead x (hsends ▸ hx) e' (List.mem_of_mem_erase he')
    · rw [hsends, hadded]
      exact h.known

/-- The clock does not go back, and no URI is added that was added before. -/
def Once (s : HbLog U) (a : HbAct U) : Prop :=
  Clock s a ∧ ∀ u, a.addedUri = some u → u ∉ s.added

omit [DecidableEq U] in
theorem Clock.future_le_sched {ticks : List HbTick} (h : Clock s (.doOne ticks)) (hk : k ∈ ticks) :
    k.future ≤ k.sched := by
  have hread := (List.pairwise_cons.mp h).2
  have hsub : [k.future, k.check, k.sched].Sublist (HbAct.doOne (U := U) ticks).readings :=
    List.sublist_flatten_of_mem (List.mem_map_of_mem hk)
  have hpair := hread.sublist hsub
  simp only [List.pairwise_cons] at hpair
  exact hpair.1 _ (by simp)

theorem added_doOne (s : HbLog U) (ts : List HbTick) : (s.doOne timeout ts).added = s.added := by
  refine doOne_induct (P := fun t => t.added = s.added) rfl fun t k t' _ ht hs => ?_
  rw [(tick_some hs).1, ht]

/-- The URIs that a run adds. -/
theorem added_step (hs : step timeout s a = some s') :
    s'.added = s.added ++ a.addedUri.toList := by
  cases a with
  | add uri c1 c2 c3 =>
    obtain rfl := Option.some.inj hs
    rfl
  | recv uri tsc =>
    obtain rfl := Option.some.inj hs
    exact (List.append_nil _).symm
  | doOne ticks =>
    obtain rfl := Option.some.inj hs
    exact (added_doOne s ticks).trans (List.append_nil _).symm

theorem added_run {guard : HbLog U → HbAct U → Prop}
    (h : Run guard (step timeout) HbLog.init acts s) : s.added = acts.filterMap HbAct.addedUri := by
  induction h with
  | nil => rfl
  | snoc _ _ hs ih =>
    rw [added_step hs, ih, List.filterMap_append]
    rfl

theorem Apart.step (h : Apart timeout s) (hinv : Inv s) (hnodup : s.added.Nodup)
    (hg : Once s a) (hs : step timeout s a = some s') : Apart timeout s' := by
  cases a with
  | add uri c1 c2 c3 =>
    have hnew : uri ∉ s.added := hg.2 uri rfl
    obtain rfl := Option.some.inj hs
    refine ⟨h.spaced, ?_, fun x hx => List.mem_append_left _ (h.known x hx)⟩
    intro x hx e he htype huri
    have hin : e ∈ s.mgr.queue ++ [⟨.send, uri, c2 + timeout / 10⟩] ++
      [⟨.check, uri, c3 + timeout / 2⟩] := he
    rw [List.append_assoc, List.mem_append] at hin
    rcases hin with hin | hin
    · exact h.ahead x hx e hin htype huri
    · -- nothing was sent to the new URI
      have heq : e.remUri = uri := by
        simp only [List.cons_append, List.nil_append, List.mem_cons, List.not_mem_nil,
          or_false] at hin
        rcases hin with rfl | rfl <;> rfl
      rw [heq] at huri
      exact absurd (huri ▸ h.known x hx) hnew
  | recv uri tsc =>
    rw [step_recv] at hs
    obtain rfl := Option.some.inj hs
    exact ⟨h.spaced, h.ahead, h.known⟩
  | doOne ticks =>
    obtain rfl := Option.some.inj hs
    have hdone : Apart timeout (s.doOne timeout ticks) ∧ Inv (s.doOne timeout ticks) ∧
        (s.doOne timeout ticks).added.Nodup := by
      refine doOne_induct (P := fun t => Apart timeout t ∧ Inv t ∧ t.added.Nodup)
        ⟨h, hinv, hnodup⟩ fun t k t' hk ht hs => ?_
      refine ⟨ht.1.tick ht.2.1 ht.2.2 (hg.1.future_le_sched hk) hs, ht.2.1.tick hs, ?_⟩
      rw [(tick_some hs).1]
      exact ht.2.2
    exact ⟨hdone.1.spaced, hdone.1.ahead, hdone.1.known⟩

theorem nodup_of_once (h : Run Once (step timeout) HbLog.init acts s) : s.added.Nodup := by
  refine h.invariant (P := fun s => s.added.Nodup) List.nodup_nil fun s a s' hnodup hg hs => ?_
  rw [added_step hs]
  cases hadd : a.addedUri with
  | none => simpa using hnodup
  | some u =>
    rw [List.nodup_append]
    refine ⟨hnodup, List.nodup_singleton u, fun x hx y hy hxy => ?_⟩
    rw [List.mem_singleton.mp hy] at hxy
    exact hg.2 u hadd (hxy ▸ hx)

theorem Apart.run (h : Run Once (HbLog.step timeout) HbLog.init acts s) : Apart timeout s := by
  induction h with
  | nil => exact Apart.init
  | snoc h hg hs ih =>
    exact ih.step (Inv.run (h.weaken fun _ _ hg => hg.1)) (nodup_of_once h) hg hs

theorem oneEventEach_of_once (h : Run Once (step timeout) HbLog.init acts s) :
    OneEventEach timeout s := by
  have hinv := Inv.run (h.weaken fun _ _ hg => hg.1)
  have hone := List.nodup_iff_count_le_one.mp (nodup_of_once h)
  refine ⟨fun u _ => ?_, fun u _ => (hinv.check u).trans (hone u), (Apart.run h).spaced,
    hinv.reported⟩
  rw [hinv.send]
  exact hone u

/-- A run adds no URI twice exactly if each of its steps adds one that is new. -/
theorem once_iff (h : Run Clock (step timeout) HbLog.init acts s) :
    Run Once (step timeout) HbLog.init acts s ↔ (acts.filterMap HbAct.addedUri).Nodup := by
  constructor
  · intro honce
    rw [← added_run honce]
    exact nodup_of_once honce
  · intro hnodup
    induction h with
    | nil => exact Run.nil
    | @snoc as s a s' h hg hs ih =>
      rw [List.filterMap_append, List.nodup_append] at hnodup
      refine (ih hnodup.1).snoc ⟨hg, fun u hu hmem => ?_⟩ hs
      rw [added_run h] at hmem
      exact hnodup.2.2 u hmem u (by simp [hu]) rfl

/-- **One event of each kind.**  In all states of a run there is at most one send and one check event
for every tracked URI, heartbeats are apart, and failures are reported once, exactly if the run adds
no URI twice. -/
theorem one_event_each_iff (h : Run Clock (step timeout) HbLog.init acts s) :
    (∀ pre t, pre <+: acts → Run Clock (step timeout) HbLog.init pre t → OneEventEach timeout t) ↔
      (acts.filterMap HbAct.addedUri).Nodup := by
  rw [← once_iff h]
  refine h.always_iff (fun _ _ hg => hg.1) (fun _ _ => oneEventEach_of_once) ?_
  intro as s a s' hrun _ hg hs hone
  refine ⟨hg, fun u hu hmem => ?_⟩
  -- a URI that is added again has two send events, and it is tracked
  have hinv' := Inv.run (hrun.snoc hg hs)
  cases a with
  | add uri c1 c2 c3 =>
    obtain rfl : uri = u := Option.some.inj hu
    have htracked : s'.mgr.lastHbRx uri ≠ none := by
      obtain rfl := Option.some.inj hs
      show (s.mgr.emplace uri c1).lastHbRx uri ≠ none
      rw [HbMgr.emplace_lastHbRx]
      split_ifs with hnone
      · exact Option.some_ne_none _
      · exact fun hh => hnone ⟨rfl, hh⟩
    have htwo := hone.send uri htracked
    rw [hinv'.send, added_step hs, List.count_append] at htwo
    have hold : 0 < s.added.count uri := List.count_pos_iff.mpr hmem
    have hnew : ((HbAct.add uri c1 c2 c3).addedUri.toList).count uri = 1 := by
      simp [HbAct.addedUri]
    omega
  | recv uri tsc => cases hu
  | doOne ticks => cases hu

/-- A URI is added, a heartbeat to it is sent, and a second URI is added. -/
def sampleAdds : List (HbAct Bool) :=
  [.add false 0 0 0, .doOne [⟨10, 10, 10, 0⟩], .add true 20 20 20]

theorem one_event_each_iff_sample :
    ∃ s, Run Clock (step 100) HbLog.init sampleAdds s ∧
      ∀ pre t, pre <+: sampleAdds → Run Clock (step 100) HbLog.init pre t → OneEventEach 100 t := by
  have hexec : (exec Clock (step 100) HbLog.init sampleAdds).isSome = true := by decide +kernel
  obtain ⟨s, hs⟩ := Option.isSome_iff_exists.mp hexec
  exact ⟨s, run_of_exec hs, (one_event_each_iff (run_of_exec hs)).mpr (by decide)⟩

/-- **Two send events of a URI that is added twice**, and two heartbeats at one time. -/
theorem one_event_each_lost :
    ∃ s, Run Clock (step 100) (HbLog.init : HbLog Bool)
        [.add false 0 0 0, .add false 0 0 0, .doOne (List.replicate 3 ⟨10, 10, 10, 0⟩)] s ∧
      s.mgr.lastHbRx false ≠ none ∧ s.events .send false = 2 ∧ s.events .check false = 2 ∧
      (s.sends.map fun x => (x.1, x.2.future)) = [(false, 10), (false, 10)] := by
  have hexec : (exec Clock (step 100) (HbLog.init : HbLog Bool)
      [.add false 0 0 0, .add false 0 0 0, .doOne (List.replicate 3 ⟨10, 10, 10, 0⟩)]).map
      (fun s => (s.mgr.lastHbRx false, [s.events .send false, s.events .check false],
        s.sends.map fun x => (x.1, x.2.future)))
      = some (some 0, [2, 2], [(false, 10), (false, 10)]) := by
    decide +kernel
  obtain ⟨s, hs, hval⟩ := Option.map_eq_some_iff.mp hexec
  simp only [Prod.mk.injEq, List.cons.injEq, and_true] at hval
  obtain ⟨hlast, ⟨hsend, hcheck⟩, hsends⟩ := hval
  exact ⟨s, run_of_exec hs, by simp [hlast], hsend, hcheck, hsends⟩

end HbLog

end HuiRpc
