/-
# Runs of the timing wheel

`reap` and `insert` of `src/cc/timing_wheel.h`, and runs of such calls.  Slot times are counted
from the construction on: the slot number `m` of a wheel built at time `base` is reaped at
`slotTime c base m`, whatever turn of the wheel it belongs to, and lies in `wheel_[m % N]`.

* `OnTime c base a log w` — the wheel has reaped the slots before `a`, the next `N` slot times stand
  around the cursor, and each slot holds the entries of its time;
* `OnTime.reap` — the loop of `reap` stops at the first slot whose time is not reached;
* `OnTime.dstWslot_eq`, `slotNumber_bracket` — the slot that `insert` picks is at most one width
  later than desired;
* `entries_leave_on_time` — every entry is in the ready queue exactly from the call on that reaches
  its slot time;
* `wslot_delta_lt_iff` — the frequencies for which the horizon fits into the wheel.
-/
import HuiRpc.TimingWheel
import HuiRpc.Lib.Circular
import HuiRpc.Client

namespace HuiRpc

open Runs

namespace TimingWheel

variable {α : Type}

/-- The body of the loop of `reap`. -/
def advance (c : WheelConf) (w : TimingWheel α) : TimingWheel α :=
  let cur := w.curWslot
  let w := (w.reapWslot cur).modify cur fun b =>
    { b with txTsc := b.txTsc + c.width * c.numWslots }
  { w with curWslot := if cur + 1 = c.numWslots then 0 else cur + 1 }

theorem advance_bkt (c : WheelConf) (w : TimingWheel α) (x : ℕ) :
    (w.advance c).bkt x = if x = w.curWslot then
        { (w.reapWslot w.curWslot).bkt x with
          txTsc := ((w.reapWslot w.curWslot).bkt x).txTsc + c.width * c.numWslots }
      else (w.reapWslot w.curWslot).bkt x :=
  modify_bkt (w.reapWslot w.curWslot) w.curWslot
    (fun b => { b with txTsc := b.txTsc + c.width * c.numWslots }) x

def reapLoop (c : WheelConf) (reapTsc : ℕ) : ℕ → TimingWheel α → TimingWheel α
  | 0, w => w
  | fuel + 1, w =>
    if (w.bkt w.curWslot).txTsc ≤ reapTsc then reapLoop c reapTsc fuel (w.advance c) else w

/-- `reap`; every round moves the time at the cursor on, see `OnTime.reap`. -/
def reap (c : WheelConf) (w : TimingWheel α) (reapTsc : ℕ) : TimingWheel α :=
  reapLoop c reapTsc (reapTsc + 1) w

/-- `wslot_delta` of `insert`, where the entry does not go into the current slot. -/
def wslotDelta (c : WheelConf) (w : TimingWheel α) (desired : ℕ) : ℕ :=
  1 + (desired - (w.bkt w.curWslot).txTsc) / c.width

def dstWslot (c : WheelConf) (w : TimingWheel α) (desired : ℕ) : ℕ :=
  if desired ≤ (w.bkt w.curWslot).txTsc then w.curWslot
  else
    let dst := w.curWslot + w.wslotDelta c desired
    if c.numWslots ≤ dst then dst - c.numWslots else dst

def insert (c : WheelConf) (w : TimingWheel α) (ent : α) (refTsc desired : ℕ) : TimingWheel α :=
  let w := w.reap c refTsc
  w.insertIntoWslot (w.dstWslot c desired) ent

/-- The assertion on `wslot_delta`, after the wheel was advanced to `refTsc`. -/
def DeltaOk (c : WheelConf) (w : TimingWheel α) (desired : ℕ) : Prop :=
  desired ≤ (w.bkt w.curWslot).txTsc ∨ w.wslotDelta c desired < c.numWslots

instance (c : WheelConf) (w : TimingWheel α) (desired : ℕ) : Decidable (w.DeltaOk c desired) :=
  inferInstanceAs (Decidable (_ ∨ _))

end TimingWheel

/-! ## Slot times -/

/-- An inserted entry with the time of the slot it was put into. -/
structure Slotted (α : Type) where
  entry : α
  desired : ℕ
  time : ℕ
  deriving DecidableEq

/-- The time of the slot number `m`. -/
def slotTime (c : WheelConf) (base m : ℕ) : ℕ := base + (m + 1) * c.width

theorem slotTime_lt_iff (c : WheelConf) (base : ℕ) {m m' : ℕ} :
    slotTime c base m < slotTime c base m' ↔ m < m' := by
  unfold slotTime
  rw [Nat.add_lt_add_iff_left, Nat.mul_lt_mul_right c.width_pos, Nat.add_lt_add_iff_right]

theorem slotTime_inj {c : WheelConf} {base m m' : ℕ} (h : slotTime c base m = slotTime c base m') :
    m = m' := by
  rcases Nat.lt_trichotomy m m' with hlt | heq | hlt
  · have := (slotTime_lt_iff c base).mpr hlt
    omega
  · exact heq
  · have := (slotTime_lt_iff c base).mpr hlt
    omega

/-- A turn of the wheel later. -/
theorem slotTime_add (c : WheelConf) (base m : ℕ) :
    slotTime c base (m + c.numWslots) = slotTime c base m + c.width * c.numWslots := by
  unfold slotTime
  ring

theorem slotTime_add_width (c : WheelConf) (base m k : ℕ) :
    slotTime c base (m + k) = slotTime c base m + k * c.width := by
  unfold slotTime
  ring

/-- The slot for a desired time, when the slots before `a` are reaped. -/
def slotNumber (c : WheelConf) (base a desired : ℕ) : ℕ :=
  if desired ≤ slotTime c base a then a
  else a + (1 + (desired - slotTime c base a) / c.width)

theorem le_slotNumber (c : WheelConf) (base a desired : ℕ) : a ≤ slotNumber c base a desired := by
  unfold slotNumber
  split_ifs
  · exact le_rfl
  · exact Nat.le_add_right _ _

/-- The slot is not before the desired time, and at most one width later. -/
theorem slotNumber_bracket (c : WheelConf) {base a desired : ℕ} (h : base + a * c.width ≤ desired) :
    desired ≤ slotTime c base (slotNumber c base a desired) ∧
      slotTime c base (slotNumber c base a desired) ≤ desired + c.width := by
  unfold slotNumber
  split_ifs with hle
  · refine ⟨hle, ?_⟩
    unfold slotTime
    rw [Nat.succ_mul]
    omega
  · have hdiv := Nat.div_add_mod (desired - slotTime c base a) c.width
    have hmod := Nat.mod_lt (desired - slotTime c base a) c.width_pos
    rw [slotTime_add_width, Nat.add_mul, Nat.mul_comm (_ / _)]
    omega

/-- The entries of one slot time. -/
def dueAt {α : Type} (log : List (Slotted α)) (t : ℕ) : List α :=
  (log.filter (·.time = t)).map (·.entry)

/-- The entries of all slot times before `t`. -/
def dueBefore {α : Type} (log : List (Slotted α)) (t : ℕ) : List α :=
  (log.filter (·.time < t)).map (·.entry)

/-- The wheel after the slots before `a`. -/
structure OnTime {α : Type} (c : WheelConf) (base a : ℕ) (log : List (Slotted α))
    (w : TimingWheel α) : Prop where
  holds : w.Holds c fun i => dueAt log (w.bkt i).txTsc
  cur_eq : w.curWslot = a % c.numWslots
  times : ∀ m, a ≤ m → m < a + c.numWslots →
    (w.bkt (m % c.numWslots)).txTsc = slotTime c base m
  near : ∀ x ∈ log, ∃ m < a + c.numWslots, x.time = slotTime c base m
  ready : w.readyQueue.Perm (dueBefore log (slotTime c base a))

/-- What one round of the loop of `reap` keeps, the loop keeps; it stops at the first slot whose time
is not reached. -/
theorem reapLoop_induct {α : Type} {c : WheelConf} {base a : ℕ} {w : TimingWheel α}
    {P : ℕ → TimingWheel α → Prop}
    (htime : ∀ a w, P a w → (w.bkt w.curWslot).txTsc = slotTime c base a)
    (hadv : ∀ a w, P a w → P (a + 1) (w.advance c)) (h : P a w) {ts fuel : ℕ}
    (hts : base + a * c.width ≤ ts) (hfuel : ts < slotTime c base a + fuel) :
    ∃ a', P a' (TimingWheel.reapLoop c ts fuel w) ∧ base + a' * c.width ≤ ts ∧
      ts < slotTime c base a' := by
  induction fuel generalizing a w with
  | zero => exact ⟨a, h, hts, hfuel⟩
  | succ fuel ih =>
    unfold TimingWheel.reapLoop
    rw [htime a w h]
    split_ifs with hle
    · have hlt := (slotTime_lt_iff c base).mpr (Nat.lt_add_one a)
      exact ih (hadv a w h) hle (by omega)
    · exact ⟨a, h, hts, Nat.lt_of_not_le hle⟩

namespace OnTime

variable {α : Type} {c : WheelConf} {base a : ℕ} {log : List (Slotted α)} {w : TimingWheel α}

theorem init (c : WheelConf) (base : ℕ) :
    OnTime c base 0 [] (TimingWheel.init c base : TimingWheel α) where
  holds := TimingWheel.holds_init c base
  cur_eq := (Nat.zero_mod _).symm
  times := by
    intro m _ hm
    rw [Nat.mod_eq_of_lt (by omega)]
    rfl
  near := fun _ hx => absurd hx List.not_mem_nil
  ready := List.Perm.refl _

theorem cur_lt (h : OnTime c base a log w) : w.curWslot < c.numWslots := by
  rw [h.cur_eq]
  exact Nat.mod_lt _ c.numWslots_pos

/-- The time at the cursor. -/
theorem cur_time (h : OnTime c base a log w) :
    (w.bkt w.curWslot).txTsc = slotTime c base a := by
  rw [h.cur_eq]
  exact h.times a le_rfl (Nat.lt_add_of_pos_right c.numWslots_pos)

/-- Another slot of the next `N` is another bucket. -/
theorem mod_ne {m m' : ℕ} (hm : a ≤ m) (hm' : m < a + c.numWslots) (hn : a ≤ m')
    (hn' : m' < a + c.numWslots) (hne : m ≠ m') : m % c.numWslots ≠ m' % c.numWslots := by
  intro h
  rcases Nat.le_total m m' with hle | hle
  · exact hne (Circular.eq_of_mod_eq h hle (by omega))
  · exact hne (Circular.eq_of_mod_eq h.symm hle (by omega)).symm

/-- Every bucket of the wheel is one of the next `N` slots. -/
theorem exists_slot (c : WheelConf) (a : ℕ) {i : ℕ} (hi : i < c.numWslots) :
    ∃ m, a ≤ m ∧ m < a + c.numWslots ∧ m % c.numWslots = i := by
  have hmod := Nat.mod_lt a c.numWslots_pos
  have hdiv := Nat.div_add_mod a c.numWslots
  refine ⟨a + (i + c.numWslots - a % c.numWslots) % c.numWslots, Nat.le_add_right _ _,
    Nat.add_lt_add_left (Nat.mod_lt _ c.numWslots_pos) a, ?_⟩
  rw [Nat.add_mod_mod, show a + (i + c.numWslots - a % c.numWslots)
      = c.numWslots * (a / c.numWslots) + (i + c.numWslots) by omega,
    Nat.mul_add_mod, Nat.add_mod_right, Nat.mod_eq_of_lt hi]

/-- What is due with the next slot is what was due before and what the slot holds. -/
theorem perm_dueBefore (h : OnTime c base a log w) :
    (dueBefore log (slotTime c base a) ++ dueAt log (slotTime c base a)).Perm
      (dueBefore log (slotTime c base (a + 1))) := by
  have hor : ∀ x ∈ log, x.time < slotTime c base (a + 1) ↔
      x.time < slotTime c base a ∨ x.time = slotTime c base a := by
    intro x hx
    obtain ⟨m, -, hm⟩ := h.near x hx
    rw [hm, slotTime_lt_iff, slotTime_lt_iff, Nat.lt_succ_iff_lt_or_eq]
    constructor
    · rintro (hlt | rfl)
      · exact Or.inl hlt
      · exact Or.inr rfl
    · rintro (hlt | heq)
      · exact Or.inl hlt
      · exact Or.inr (slotTime_inj heq)
  have hsplit := List.filter_append_perm (fun x : Slotted α => x.time < slotTime c base a)
    (log.filter (·.time < slotTime c base (a + 1)))
  rw [List.filter_filter, List.filter_filter] at hsplit
  unfold dueBefore dueAt
  rw [← List.map_append]
  refine List.Perm.map _ ?_
  convert hsplit using 2
  · refine List.filter_congr fun x hx => ?_
    grind
  · refine List.filter_congr fun x hx => ?_
    grind

/-- One round of the loop of `reap`. -/
theorem advance (h : OnTime c base a log w) : OnTime c base (a + 1) log (w.advance c) := by
  obtain ⟨hholds, htx, hcur, hready⟩ := h.holds.reapWslot h.cur_lt
  have hbkt : ∀ x, ((w.advance c).bkt x).txTsc
      = if x = w.curWslot then slotTime c base (a + c.numWslots) else (w.bkt x).txTsc := by
    intro x
    rw [TimingWheel.advance_bkt]
    split_ifs with hx
    · rw [slotTime_add, ← h.cur_time, ← htx, hx]
    · exact htx x
  refine ⟨?_, ?_, ?_, ?_, ?_⟩
  · refine hholds.congr (fun x => ?_) rfl fun i hi => ?_
    · rw [TimingWheel.advance_bkt]
      split_ifs <;> exact ⟨rfl, rfl, rfl⟩
    · rw [hbkt]
      by_cases hne : i = w.curWslot
      · -- a slot time so late was never given to an entry
        rw [if_pos hne, hne, Function.update_self]
        unfold dueAt
        rw [List.filter_eq_nil_iff.mpr, List.map_nil]
        intro x hx htime
        obtain ⟨m, hm, heq⟩ := h.near x hx
        have := slotTime_inj (heq.symm.trans (of_decide_eq_true htime))
        omega
      · rw [if_neg hne, Function.update_of_ne hne]
  · show (if w.curWslot + 1 = c.numWslots then 0 else w.curWslot + 1) = _
    rw [h.cur_eq]
    have hlt := Nat.mod_lt a c.numWslots_pos
    split_ifs with hlast
    · rw [← Nat.mod_add_mod, hlast, Nat.mod_self]
    · exact (Circular.mod_add_of_lt (by omega)).symm
  · intro m hm hm'
    rw [hbkt, h.cur_eq]
    by_cases hlast : m = a + c.numWslots
    · rw [hlast, Nat.add_mod_right, if_pos rfl]
    · rw [if_neg (mod_ne (by omega) (by omega) le_rfl
        (Nat.lt_add_of_pos_right c.numWslots_pos) (by omega))]
      exact h.times m (by omega) (by omega)
  · intro x hx
    obtain ⟨m, hm, heq⟩ := h.near x hx
    exact ⟨m, by omega, heq⟩
  · show (w.reapWslot w.curWslot).readyQueue.Perm _
    rw [hready, h.cur_time]
    exact (h.ready.append_right _).trans h.perm_dueBefore

/-- **The loop of `reap`** stops at the first slot whose time is not reached. -/
theorem reap (h : OnTime c base a log w) {ts : ℕ} (hts : base + a * c.width ≤ ts) :
    ∃ a', OnTime c base a' log (w.reap c ts) ∧ base + a' * c.width ≤ ts ∧
      ts < slotTime c base a' :=
  reapLoop_induct (fun _ _ => cur_time) (fun _ _ => advance) h hts (by omega)

/-- **The slot that `insert` picks.** -/
theorem dstWslot_eq (h : OnTime c base a log w) {desired : ℕ} (hok : w.DeltaOk c desired) :
    slotNumber c base a desired < a + c.numWslots ∧
      w.dstWslot c desired = slotNumber c base a desired % c.numWslots := by
  unfold TimingWheel.DeltaOk TimingWheel.wslotDelta at hok
  unfold TimingWheel.dstWslot TimingWheel.wslotDelta slotNumber
  rw [h.cur_time] at hok ⊢
  by_cases hle : desired ≤ slotTime c base a
  · rw [if_pos hle, if_pos hle]
    exact ⟨Nat.lt_add_of_pos_right c.numWslots_pos, h.cur_eq⟩
  · rw [if_neg hle]
    have hlt := hok.resolve_left hle
    refine ⟨Nat.add_lt_add_left hlt a, ?_⟩
    rw [h.cur_eq]
    dsimp only
    split_ifs with hwrap
    · rw [Circular.mod_add_of_le c.numWslots_pos hlt hwrap]
    · rw [Circular.mod_add_of_lt (Nat.lt_of_not_le hwrap)]

/-- An entry goes into the bucket of one of the next `N` slots. -/
theorem insertIntoWslot (h : OnTime c base a log w) {m : ℕ} (hm : a ≤ m)
    (hm' : m < a + c.numWslots) (x : Slotted α) (hx : x.time = slotTime c base m) :
    OnTime c base a (log ++ [x]) (w.insertIntoWslot (m % c.numWslots) x.entry) := by
  have hlt := Nat.mod_lt m c.numWslots_pos
  obtain ⟨htx, hcur, hready⟩ := w.insertIntoWslot_frame (m % c.numWslots) x.entry
  refine ⟨?_, hcur.trans h.cur_eq, ?_, ?_, ?_⟩
  · refine (h.holds.insertIntoWslot hlt x.entry).congr (fun _ => ⟨rfl, rfl, rfl⟩) rfl
      fun i hi => ?_
    obtain ⟨k, hk, hk', rfl⟩ := exists_slot c a hi
    rw [htx]
    unfold dueAt
    rw [List.filter_append, List.filter_singleton, hx]
    by_cases hkm : k = m
    · subst hkm
      rw [h.times k hk hk']
      simp
    · have hne : ¬ slotTime c base m = slotTime c base k := fun heq => hkm (slotTime_inj heq).symm
      rw [Function.update_of_ne (mod_ne hk hk' hm hm' hkm), h.times k hk hk', decide_eq_false hne]
      simp
  · intro k hk hk'
    rw [htx]
    exact h.times k hk hk'
  · intro y hy
    rcases List.mem_append.mp hy with hy | hy
    · exact h.near y hy
    · rw [List.mem_singleton.mp hy]
      exact ⟨m, hm', hx⟩
  · -- the slot of the new entry is not reaped yet
    have hlate : ¬ x.time < slotTime c base a := by
      rw [hx, slotTime_lt_iff]
      omega
    have hsame : dueBefore (log ++ [x]) (slotTime c base a) = dueBefore log (slotTime c base a) := by
      unfold dueBefore
      rw [List.filter_append, List.filter_singleton, decide_eq_false hlate]
      simp
    rw [hready, hsame]
    exact h.ready

end OnTime

/-! ## Runs of calls -/

inductive WheelCall (α : Type) where
  | insert (ent : α) (refTsc desired : ℕ)
  | reap (reapTsc : ℕ)

/-- A wheel with the latest timestamp it was called with and what was inserted so far. -/
structure WheelRun (α : Type) where
  wheel : TimingWheel α
  now : ℕ
  log : List (Slotted α)

namespace WheelRun

variable {α : Type} {c : WheelConf} {base : ℕ} {s s' : WheelRun α} {acts : List (WheelCall α)}

def start (c : WheelConf) (base : ℕ) : WheelRun α where
  wheel := TimingWheel.init c base
  now := base
  log := []

/-- Timestamps do not decrease, and `insert` is called within its assertions. -/
def guard (c : WheelConf) (s : WheelRun α) : WheelCall α → Prop
  | .insert _ refTsc desired => s.now ≤ refTsc ∧ refTsc ≤ desired ∧
      desired - refTsc ≤ c.horizon ∧ (s.wheel.reap c refTsc).DeltaOk c desired
  | .reap reapTsc => s.now ≤ reapTsc

instance (c : WheelConf) (s : WheelRun α) : ∀ a, Decidable (guard c s a)
  | .insert _ _ _ => inferInstanceAs (Decidable (_ ∧ _ ∧ _ ∧ _))
  | .reap _ => inferInstanceAs (Decidable (_ ≤ _))

/-- A call; the slot time of an entry is `tx_tsc_` of the slot it goes into. -/
def step (c : WheelConf) (s : WheelRun α) : WheelCall α → Option (WheelRun α)
  | .insert ent refTsc desired =>
    let w := s.wheel.reap c refTsc
    some {
      wheel := s.wheel.insert c ent refTsc desired
      now := refTsc
      log := s.log ++ [⟨ent, desired, (w.bkt (w.dstWslot c desired)).txTsc⟩] }
  | .reap reapTsc => some { s with wheel := s.wheel.reap c reapTsc, now := reapTsc }

/-- What a call inserts. -/
def inserted : WheelCall α → Option (α × ℕ)
  | .insert ent _ desired => some (ent, desired)
  | .reap _ => none

/-- The wheel is on time with the calls. -/
structure Inv (c : WheelConf) (base : ℕ) (s : WheelRun α) : Prop where
  onTime : ∃ a, OnTime c base a s.log s.wheel ∧ base + a * c.width ≤ s.now ∧
    s.now < slotTime c base a
  bracket : ∀ x ∈ s.log, x.desired ≤ x.time ∧ x.time ≤ x.desired + c.width

theorem Inv.start (c : WheelConf) (base : ℕ) : Inv c base (start c base : WheelRun α) where
  onTime := by
    refine ⟨0, OnTime.init c base, by simp [WheelRun.start], ?_⟩
    have := c.width_pos
    simp only [WheelRun.start, slotTime]
    omega
  bracket := fun _ hx => absurd hx List.not_mem_nil

theorem Inv.step {a : WheelCall α} (h : Inv c base s) (hg : guard c s a)
    (hs : step c s a = some s') : Inv c base s' := by
  obtain ⟨k, hot, hpast, -⟩ := h.onTime
  cases a with
  | reap ts =>
    obtain rfl := Option.some.inj hs
    obtain ⟨k', hot', hpast', hnext'⟩ := hot.reap (hpast.trans hg)
    exact ⟨⟨k', hot', hpast', hnext'⟩, h.bracket⟩
  | insert ent ref desired =>
    obtain ⟨hnow, hdes, -, hok⟩ := hg
    obtain rfl := Option.some.inj hs
    obtain ⟨k', hot', hpast', hnext'⟩ := hot.reap (hpast.trans hnow)
    obtain ⟨hm', hdst⟩ := hot'.dstWslot_eq hok
    have hm := le_slotNumber c base k' desired
    have htime : ((s.wheel.reap c ref).bkt ((s.wheel.reap c ref).dstWslot c desired)).txTsc
        = slotTime c base (slotNumber c base k' desired) := by
      rw [hdst, hot'.times _ hm hm']
    refine ⟨⟨k', ?_, hpast', hnext'⟩, ?_⟩
    · have hins := hot'.insertIntoWslot hm hm' ⟨ent, desired, _⟩ htime
      rwa [← hdst] at hins
    · intro x hx
      rcases List.mem_append.mp hx with hx | hx
      · exact h.bracket x hx
      · rw [List.mem_singleton.mp hx, htime]
        exact slotNumber_bracket c (hpast'.trans hdes)

theorem Inv.run (h : Run (guard c) (WheelRun.step c) (WheelRun.start c base) acts s) :
    Inv c base s :=
  h.invariant (Inv.start c base) fun _ _ _ hinv hg hs => hinv.step hg hs

/-- The slot times of a run are reached by the timestamps exactly when their slots are reaped. -/
theorem Inv.ready (h : Inv c base s) :
    s.wheel.readyQueue.Perm ((s.log.filter (·.time ≤ s.now)).map (·.entry)) := by
  obtain ⟨a, hot, hpast, hnext⟩ := h.onTime
  have hsame : s.log.filter (·.time ≤ s.now) = s.log.filter (·.time < slotTime c base a) := by
    refine List.filter_congr fun x hx => ?_
    obtain ⟨m, -, hm⟩ := hot.near x hx
    rw [decide_eq_decide, hm, slotTime_lt_iff]
    constructor
    · intro hle
      exact (slotTime_lt_iff c base).mp (hle.trans_lt hnext)
    · intro hlt
      have hmul : (m + 1) * c.width ≤ a * c.width := Nat.mul_le_mul_right _ hlt
      unfold slotTime
      omega
  rw [hsame]
  exact hot.ready

theorem log_eq_inserted (h : Run (guard c) (step c) (start c base) acts s) :
    s.log.map (fun x => (x.entry, x.desired)) = acts.filterMap inserted := by
  induction h with
  | nil => rfl
  | @snoc acts s a s' _ hg hs ih =>
    rw [List.filterMap_append, ← ih]
    cases a with
    | insert ent ref desired =>
      obtain rfl := Option.some.inj hs
      rw [List.map_append]
      rfl
    | reap ts =>
      obtain rfl := Option.some.inj hs
      exact (List.append_nil _).symm

/-- What was inserted keeps its slot time. -/
theorem log_prefix (h : Run (guard c) (step c) s acts s') : s.log <+: s'.log := by
  refine h.invariant (P := fun t => s.log <+: t.log) (List.prefix_refl _)
    fun t a t' hpre _ hs => ?_
  cases a with
  | insert ent ref desired =>
    obtain rfl := Option.some.inj hs
    exact hpre.trans (List.prefix_append ..)
  | reap ts =>
    obtain rfl := Option.some.inj hs
    exact hpre

/-- **Every entry leaves the wheel on time.**  In every run the log lists the entries inserted so
far with their slot times, which lie between the desired time and one width later and never
change, and at any point the ready queue has received exactly the entries whose slot time the
calls have reached, each once. -/
theorem entries_leave_on_time (c : WheelConf) (base : ℕ) (acts : List (WheelCall α))
    (s : WheelRun α) (h : Run (guard c) (step c) (start c base) acts s) :
    s.log.map (fun x => (x.entry, x.desired)) = acts.filterMap inserted ∧
      (∀ x ∈ s.log, x.desired ≤ x.time ∧ x.time ≤ x.desired + c.width) ∧
      (∀ acts' s', Run (guard c) (step c) s acts' s' → s.log <+: s'.log) ∧
      s.wheel.readyQueue.Perm ((s.log.filter (·.time ≤ s.now)).map (·.entry)) :=
  ⟨log_eq_inserted h, (Inv.run h).bracket, fun _ _ h' => log_prefix h', (Inv.run h).ready⟩

/-- A wheel of three slots that are two ticks wide. -/
def smallConf : WheelConf := ⟨3, 2, 8, by decide, Nat.two_pos⟩

/-- The second entry is due first, and the last call skips many turns of the wheel. -/
def smallCalls : List (WheelCall ℕ) :=
  [.insert 7 10 13, .insert 8 11 11, .reap 13, .insert 9 13 17, .reap 100]

theorem entries_leave_on_time_smallCalls :
    ∃ s, Run (guard smallConf) (step smallConf) (start smallConf 10) smallCalls s ∧
      s.wheel.readyQueue = [8, 7, 9] ∧
      s.wheel.readyQueue.Perm ((s.log.filter (·.time ≤ s.now)).map (·.entry)) := by
  have hexec : (exec (guard smallConf) (step smallConf) (start smallConf 10) smallCalls).map
      (·.wheel.readyQueue) = some [8, 7, 9] := by
    decide +kernel
  obtain ⟨s, hs, hready⟩ := Option.map_eq_some_iff.mp hexec
  have hrun := run_of_exec hs
  exact ⟨s, hrun, hready, (entries_leave_on_time smallConf 10 smallCalls s hrun).2.2.2⟩

end WheelRun

/-! ## The slot width and the horizon -/

/-- What `measure_rdtsc_freq` returns, within its assertion. -/
structure TscFreq where
  ghz : ℚ
  lower : 1 / 2 ≤ ghz
  upper : ghz ≤ 5

def usToCycles (us freqGhz : ℚ) : ℕ := ⌊us * 1000 * freqGhz⌋₊

/-- `Timely::kMinRate`. -/
def kMinRate : ℚ := 15 * 1000 * 1000

def kWheelSlotWidthUs : ℚ := 1 / 2

/-- `kWheelHorizonUs` for a transport with this `kMTU`. -/
def wheelHorizonUs (mtu : ℕ) : ℚ := 1000000 * (kSessionCredits * mtu : ℕ) / kMinRate

/-- `kWheelNumWslots`. -/
def wheelNumWslots (mtu : ℕ) : ℕ := 1 + ⌈wheelHorizonUs mtu / kWheelSlotWidthUs⌉₊

/-- The wheel that the constructor sets up. -/
def TscFreq.wheelConf (f : TscFreq) (mtu : ℕ) : WheelConf where
  numWslots := wheelNumWslots mtu
  width := usToCycles kWheelSlotWidthUs f.ghz
  horizon := usToCycles (wheelHorizonUs mtu) f.ghz
  numWslots_pos := Nat.add_pos_left Nat.one_pos _
  width_pos := by
    have hf := f.lower
    refine Nat.floor_pos.mpr ?_
    unfold kWheelSlotWidthUs
    linarith

namespace WheelRun

variable {α : Type} {c : WheelConf}

/-- Every insertion within the horizon, whatever was called before. -/
def DeltasOk (α : Type) (c : WheelConf) : Prop :=
  ∀ (base : ℕ) (acts : List (WheelCall α)) (s : WheelRun α),
    Run (guard c) (step c) (start c base) acts s → ∀ refTsc desired : ℕ,
      s.now ≤ refTsc → refTsc ≤ desired → desired - refTsc ≤ c.horizon →
        (s.wheel.reap c refTsc).DeltaOk c desired

/-- The wheel must be as long as the horizon. -/
theorem deltasOk_iff (hN : c.horizon ≠ 0 → 1 < c.numWslots) :
    DeltasOk α c ↔ c.horizon ≤ (c.numWslots - 1) * c.width := by
  have hw := c.width_pos
  constructor
  · intro h
    by_contra hlong
    -- the cursor is at the first slot, one tick before its time
    have hok := h 0 [] (start c 0) .nil (c.width - 1) (c.width - 1 + c.horizon) (Nat.zero_le _)
    have htime : ((start c 0 : WheelRun α).wheel.bkt 0).txTsc = c.width := by
      show 0 + (0 + 1) * c.width = c.width
      omega
    have hreap : (start c 0 : WheelRun α).wheel.reap c (c.width - 1) = (start c 0).wheel := by
      show TimingWheel.reapLoop c (c.width - 1) (c.width - 1 + 1) (start c 0).wheel = _
      rw [TimingWheel.reapLoop, if_neg]
      show ¬ ((start c 0 : WheelRun α).wheel.bkt 0).txTsc ≤ _
      omega
    rw [hreap] at hok
    unfold TimingWheel.DeltaOk TimingWheel.wslotDelta at hok
    rw [show (start c 0 : WheelRun α).wheel.curWslot = 0 from rfl, htime] at hok
    have hone : c.width ≤ (c.numWslots - 1) * c.width :=
      Nat.le_mul_of_pos_left _ (Nat.sub_pos_of_lt (hN (by omega)))
    have hdiv : c.numWslots - 1 ≤ (c.width - 1 + c.horizon - c.width) / c.width :=
      (Nat.le_div_iff_mul_le hw).mpr (by omega)
    omega
  · intro hlong base acts s hrun ref desired hnow hdes hhor
    obtain ⟨a, hot, hpast, -⟩ := (Inv.run hrun).onTime
    obtain ⟨b, hot', -, hnext⟩ := hot.reap (hpast.trans hnow)
    unfold TimingWheel.DeltaOk TimingWheel.wslotDelta
    rw [hot'.cur_time]
    rcases Nat.lt_or_ge (slotTime c base b) desired with hlt | hge
    · have hdiv : (desired - slotTime c base b) / c.width < c.numWslots - 1 :=
        (Nat.div_lt_iff_lt_mul hw).mpr (by omega)
      omega
    · exact Or.inl hge

/-- **The slot delta stays below the number of slots** exactly where the truncated width, times the
number of slots after the first, covers the truncated horizon. -/
theorem wslot_delta_lt_iff (α : Type) (f : TscFreq) (mtu : ℕ) :
    DeltasOk α (f.wheelConf mtu) ↔
      ⌊wheelHorizonUs mtu * 1000 * f.ghz⌋₊ ≤ ⌈wheelHorizonUs mtu * 2⌉₊ * ⌊500 * f.ghz⌋₊ := by
  have hwidth : (f.wheelConf mtu).width = ⌊500 * f.ghz⌋₊ := by
    show ⌊(1 / 2 : ℚ) * 1000 * f.ghz⌋₊ = _
    norm_num
  have hslots : (f.wheelConf mtu).numWslots - 1 = ⌈wheelHorizonUs mtu * 2⌉₊ := by
    show 1 + ⌈wheelHorizonUs mtu / (1 / 2)⌉₊ - 1 = _
    rw [Nat.add_sub_cancel_left, div_div_eq_mul_div, div_one]
  have hsome : (f.wheelConf mtu).horizon ≠ 0 → 1 < (f.wheelConf mtu).numWslots := by
    intro hne
    have hpos : 0 < wheelHorizonUs mtu := by
      refine lt_of_le_of_ne (by unfold wheelHorizonUs kMinRate; positivity) fun hz => hne ?_
      show ⌊wheelHorizonUs mtu * 1000 * f.ghz⌋₊ = 0
      rw [← hz, zero_mul, zero_mul, Nat.floor_zero]
    have hceil : 0 < ⌈wheelHorizonUs mtu * 2⌉₊ := Nat.ceil_pos.mpr (mul_pos hpos two_pos)
    omega
  rw [deltasOk_iff hsome, hwidth, hslots]
  rfl

/-- 2.501 GHz on RoCE. -/
def oddFreq : TscFreq := ⟨2501 / 1000, by norm_num, by norm_num⟩

/-- A slot is 1250 ticks wide, not 1250.5, so the 17478 slots are shorter than the horizon: an
entry for the end of the horizon is put 17484 slots ahead. -/
theorem wslot_delta_wraps :
    let c := oddFreq.wheelConf kMTU
    let w := (TimingWheel.init c 0 : TimingWheel ℕ)
    ((w.reap c 1249).wslotDelta c (1249 + c.horizon) = 17484 ∧ c.numWslots = 17478 ∧
      (w.reap c 1249).dstWslot c (1249 + c.horizon) = 6) := by
  decide +kernel

end WheelRun

end HuiRpc
