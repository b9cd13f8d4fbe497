/-
# The order in which the timing wheel gives entries

Whether entries that are inserted with non-decreasing desired times, as those of one session, come
out of the wheel in the order of their insertion.

* `BySlot` — the ready queue has received the slots one after the other, each in the order of the
  insertions;
* `wslotOf` — the slot of an entry, from the timestamps of its insertion alone.  A desired time that
  is the time of a slot goes into this slot if it is the current one, and into the next one else;
* `leaves_in_order_iff` — so two entries with the same desired time change places exactly if this is
  the time of a slot that becomes the current one between their insertions.
-/
import HuiRpc.WheelRuns
import HuiRpc.Lib.Buckets

namespace HuiRpc

open Runs Buckets

/-! ## Slot by slot -/

/-- The wheel after the slots before `a`, whose entries came out slot by slot. -/
structure BySlot {α : Type} (c : WheelConf) (base a : ℕ) (log : List (Slotted α))
    (w : TimingWheel α) : Prop extends OnTime c base a log w where
  bySlot : w.readyQueue = (List.range a).flatMap fun m => dueAt log (slotTime c base m)

namespace BySlot

variable {α : Type} {c : WheelConf} {base a : ℕ} {log : List (Slotted α)} {w : TimingWheel α}

theorem init (c : WheelConf) (base : ℕ) :
    BySlot c base 0 [] (TimingWheel.init c base : TimingWheel α) where
  toOnTime := OnTime.init c base
  bySlot := rfl

theorem advance (h : BySlot c base a log w) : BySlot c base (a + 1) log (w.advance c) where
  toOnTime := h.toOnTime.advance
  bySlot := by
    obtain ⟨-, -, -, hready⟩ := h.holds.reapWslot h.cur_lt
    show (w.reapWslot w.curWslot).readyQueue = _
    rw [hready, h.cur_time, h.bySlot, List.range_succ, List.flatMap_append, List.flatMap_singleton]

theorem reap (h : BySlot c base a log w) {ts : ℕ} (hts : base + a * c.width ≤ ts) :
    ∃ a', BySlot c base a' log (w.reap c ts) ∧ base + a' * c.width ≤ ts ∧
      ts < slotTime c base a' :=
  reapLoop_induct (fun _ _ h => h.cur_time) (fun _ _ => advance) h hts (by omega)

theorem insertIntoWslot (h : BySlot c base a log w) {m : ℕ} (hm : a ≤ m)
    (hm' : m < a + c.numWslots) (x : Slotted α) (hx : x.time = slotTime c base m) :
    BySlot c base a (log ++ [x]) (w.insertIntoWslot (m % c.numWslots) x.entry) where
  toOnTime := h.toOnTime.insertIntoWslot hm hm' x hx
  bySlot := by
    rw [(w.insertIntoWslot_frame _ _).2.2, h.bySlot]
    apply List.flatMap_congr
    intro k hk
    -- the slot of the new entry is none of those that came out
    have hne : ¬ x.time = slotTime c base k := by
      intro heq
      have := slotTime_inj (hx.symm.trans heq)
      have := List.mem_range.mp hk
      omega
    unfold dueAt
    rw [List.filter_append, List.filter_singleton, decide_eq_false hne]
    simp

end BySlot

/-! ## The slot of an entry -/

/-- The arguments of a call of `insert`. -/
structure Insertion (α : Type) where
  ent : α
  refTsc : ℕ
  desired : ℕ

def WheelCall.insertion {α : Type} : WheelCall α → Option (Insertion α)
  | insert ent refTsc desired => some ⟨ent, refTsc, desired⟩
  | reap _ => none

variable {α : Type} {c : WheelConf} {base : ℕ} {x y : Insertion α}

/-- The current slot at the insertion. -/
def curSlot (c : WheelConf) (base : ℕ) (x : Insertion α) : ℕ := (x.refTsc - base) / c.width

def wslotOf (c : WheelConf) (base : ℕ) (x : Insertion α) : ℕ :=
  if x.desired = slotTime c base (curSlot c base x) then curSlot c base x
  else (x.desired - base) / c.width

/-- An inserted entry as the log has it. -/
def slotted (c : WheelConf) (base : ℕ) (x : Insertion α) : Slotted α :=
  ⟨x.ent, x.desired, slotTime c base (wslotOf c base x)⟩

/-- The desired time is the time of a slot, which became the current one between the insertions. -/
def Tie (c : WheelConf) (base : ℕ) (x y : Insertion α) : Prop :=
  ∃ k, x.desired = slotTime c base k ∧ y.desired = slotTime c base k ∧
    x.refTsc < base + k * c.width ∧ base + k * c.width ≤ y.refTsc ∧ y.refTsc < slotTime c base k

/-- The number of the slot to which a time belongs. -/
theorem div_width_eq_iff {t a : ℕ} (hbase : base ≤ t) :
    (t - base) / c.width = a ↔ base + a * c.width ≤ t ∧ t < slotTime c base a := by
  rw [Nat.div_eq_iff c.width_pos]
  have hpos := c.width_pos
  unfold slotTime
  rw [Nat.succ_mul]
  omega

theorem slotTime_div_width (c : WheelConf) (base k : ℕ) :
    (slotTime c base k - base) / c.width = k + 1 := by
  unfold slotTime
  rw [Nat.add_sub_cancel_left, Nat.mul_div_cancel _ c.width_pos]

/-- The slot that `insert` picks depends on the timestamps only. -/
theorem slotNumber_eq_wslotOf (hbase : base ≤ x.refTsc) (hdes : x.refTsc ≤ x.desired) :
    slotNumber c base (curSlot c base x) x.desired = wslotOf c base x := by
  have ha := (div_width_eq_iff (c := c) hbase).mp rfl
  unfold slotNumber wslotOf
  change base + curSlot c base x * c.width ≤ x.refTsc ∧ x.refTsc < slotTime c base (curSlot c base x)
    at ha
  generalize curSlot c base x = a at ha
  rcases Nat.lt_trichotomy x.desired (slotTime c base a) with hlt | heq | hgt
  · rw [if_pos hlt.le, if_neg hlt.ne]
    exact ((div_width_eq_iff (hbase.trans hdes)).mpr ⟨ha.1.trans hdes, hlt⟩).symm
  · rw [if_pos heq.le, if_pos heq]
  · rw [if_neg (Nat.not_le.mpr hgt), if_neg hgt.ne']
    have hsplit : x.desired - base = (x.desired - slotTime c base a) + (a + 1) * c.width := by
      have : slotTime c base a = base + (a + 1) * c.width := rfl
      omega
    rw [hsplit, Nat.add_mul_div_right _ _ c.width_pos]
    ring

theorem wslotOf_le (c : WheelConf) (base : ℕ) (x : Insertion α) :
    wslotOf c base x ≤ (x.desired - base) / c.width := by
  unfold wslotOf
  split_ifs with h
  · rw [h, slotTime_div_width]
    exact Nat.le_succ _
  · exact le_rfl

/-- **Which entries change places.**  For two insertions with non-decreasing times, the second one
goes into an earlier slot exactly if they tie. -/
theorem wslotOf_lt_iff (hbase : base ≤ x.refTsc) (href : x.refTsc ≤ y.refTsc)
    (hdes : x.desired ≤ y.desired) : wslotOf c base y < wslotOf c base x ↔ Tie c base x y := by
  have hx := (div_width_eq_iff (c := c) hbase).mp rfl
  have hy := (div_width_eq_iff (c := c) (hbase.trans href)).mp rfl
  change base + curSlot c base x * c.width ≤ x.refTsc ∧ x.refTsc < slotTime c base (curSlot c base x)
    at hx
  change base + curSlot c base y * c.width ≤ y.refTsc ∧ y.refTsc < slotTime c base (curSlot c base y)
    at hy
  constructor
  · intro hlt
    have hle := wslotOf_le c base x
    have hmono : (x.desired - base) / c.width ≤ (y.desired - base) / c.width :=
      Nat.div_le_div_right (Nat.sub_le_sub_right hdes base)
    -- only an entry for the time of its current slot goes that early
    have hcur : y.desired = slotTime c base (curSlot c base y) := by
      by_contra hne
      unfold wslotOf at hlt
      rw [if_neg hne] at hlt
      unfold wslotOf at hle
      omega
    have hslot : wslotOf c base y = curSlot c base y := by
      unfold wslotOf
      rw [if_pos hcur]
    have hxdes : x.desired = slotTime c base (curSlot c base y) := by
      have hge : (curSlot c base y + 1) * c.width ≤ x.desired - base :=
        (Nat.le_div_iff_mul_le c.width_pos).mp (by omega)
      have : slotTime c base (curSlot c base y) = base + (curSlot c base y + 1) * c.width := rfl
      omega
    refine ⟨curSlot c base y, hxdes, hcur, ?_, hy.1, hy.2⟩
    by_contra hnot
    -- otherwise both have the same current slot
    have hsame : curSlot c base x = curSlot c base y :=
      (div_width_eq_iff hbase).mpr ⟨Nat.le_of_not_lt hnot, href.trans_lt hy.2⟩
    have hxslot : wslotOf c base x = curSlot c base y := by
      unfold wslotOf
      rw [hsame, if_pos hxdes]
    omega
  · rintro ⟨k, hxdes, hydes, hxref, hylo, hyhi⟩
    have hycur : curSlot c base y = k := (div_width_eq_iff (hbase.trans href)).mpr ⟨hylo, hyhi⟩
    have hxcur : curSlot c base x ≠ k := by
      intro heq
      rw [heq] at hx
      omega
    have hyslot : wslotOf c base y = k := by
      unfold wslotOf
      rw [hycur, if_pos hydes]
    have hxslot : wslotOf c base x = k + 1 := by
      unfold wslotOf
      rw [if_neg, hxdes, slotTime_div_width]
      rw [hxdes]
      exact fun heq => hxcur (slotTime_inj heq).symm
    omega

/-! ## Runs -/

namespace WheelRun

variable {s s' : WheelRun α} {acts : List (WheelCall α)}

/-- What was inserted in a run, in order. -/
def insertions (acts : List (WheelCall α)) : List (Insertion α) :=
  acts.filterMap WheelCall.insertion

theorem insertions_insert (acts : List (WheelCall α)) (ent : α) (refTsc desired : ℕ) :
    insertions (acts ++ [.insert ent refTsc desired]) = insertions acts ++ [⟨ent, refTsc, desired⟩] :=
  List.filterMap_append

theorem insertions_reap (acts : List (WheelCall α)) (reapTsc : ℕ) :
    insertions (acts ++ [.reap reapTsc]) = insertions acts :=
  List.filterMap_append.trans (List.append_nil _)

/-- The entries come out slot by slot, and the slots are those of the timestamps. -/
structure Ordered (c : WheelConf) (base : ℕ) (acts : List (WheelCall α)) (s : WheelRun α) : Prop where
  bySlot : ∃ a, BySlot c base a s.log s.wheel ∧ base + a * c.width ≤ s.now ∧
    s.now < slotTime c base a
  log_eq : s.log = (insertions acts).map (slotted c base)
  since : ∀ x ∈ insertions acts, base ≤ x.refTsc ∧ x.refTsc ≤ s.now
  mono : (insertions acts).Pairwise fun x y => x.refTsc ≤ y.refTsc

theorem Ordered.start (c : WheelConf) (base : ℕ) :
    Ordered c base [] (start c base : WheelRun α) where
  bySlot := by
    refine ⟨0, BySlot.init c base, by simp [WheelRun.start], ?_⟩
    have := c.width_pos
    simp only [WheelRun.start, slotTime]
    omega
  log_eq := rfl
  since := fun _ hx => absurd hx List.not_mem_nil
  mono := List.Pairwise.nil

theorem Ordered.reap (h : Ordered c base acts s) {ts : ℕ} (hts : s.now ≤ ts) :
    Ordered c base (acts ++ [.reap ts]) { s with wheel := s.wheel.reap c ts, now := ts } := by
  obtain ⟨a, hslot, hpast, -⟩ := h.bySlot
  refine ⟨hslot.reap (hpast.trans hts), ?_, ?_, ?_⟩
  · rw [insertions_reap]
    exact h.log_eq
  · rw [insertions_reap]
    exact fun x hx => ⟨(h.since x hx).1, (h.since x hx).2.trans hts⟩
  · rw [insertions_reap]
    exact h.mono

theorem Ordered.insert (h : Ordered c base acts s) {ent : α} {ref desired : ℕ}
    (hg : guard c s (.insert ent ref desired)) (hs : step c s (.insert ent ref desired) = some s') :
    Ordered c base (acts ++ [.insert ent ref desired]) s' := by
  obtain ⟨hnow, hdes, -, hok⟩ := hg
  obtain ⟨k, hslot, hpast, -⟩ := h.bySlot
  obtain ⟨k', hslot', hpast', hnext'⟩ := hslot.reap (hpast.trans hnow)
  have hbase : base ≤ ref := (Nat.le_add_right _ _).trans hpast'
  obtain ⟨hm', hdst⟩ := hslot'.dstWslot_eq hok
  have hcur : curSlot c base ⟨ent, ref, desired⟩ = k' := (div_width_eq_iff hbase).mpr ⟨hpast', hnext'⟩
  have hnumber : slotNumber c base k' desired = wslotOf c base ⟨ent, ref, desired⟩ :=
    hcur ▸ slotNumber_eq_wslotOf (x := ⟨ent, ref, desired⟩) hbase hdes
  have htime : ((s.wheel.reap c ref).bkt ((s.wheel.reap c ref).dstWslot c desired)).txTsc
      = slotTime c base (slotNumber c base k' desired) := by
    rw [hdst, hslot'.times _ (le_slotNumber ..) hm']
  obtain rfl := Option.some.inj hs
  refine ⟨⟨k', ?_, hpast', hnext'⟩, ?_, ?_, ?_⟩
  · have hins := hslot'.insertIntoWslot (le_slotNumber ..) hm' ⟨ent, desired, _⟩ htime
    rwa [← hdst] at hins
  · show s.log ++ [_] = _
    rw [insertions_insert, List.map_append, ← h.log_eq, htime, hnumber]
    rfl
  · intro x hx
    rw [insertions_insert, List.mem_append, List.mem_singleton] at hx
    rcases hx with hx | rfl
    · exact ⟨(h.since x hx).1, (h.since x hx).2.trans hnow⟩
    · exact ⟨hbase, le_rfl⟩
  · rw [insertions_insert, List.pairwise_append]
    refine ⟨h.mono, List.pairwise_singleton _ _, fun x hx y hy => ?_⟩
    rw [List.mem_singleton.mp hy]
    exact (h.since x hx).2.trans hnow

theorem Ordered.run (h : Run (guard c) (step c) (WheelRun.start c base) acts s) :
    Ordered c base acts s := by
  induction h with
  | nil => exact Ordered.start c base
  | @snoc acts s a s' _ hg hs ih =>
    cases a with
    | insert ent ref desired => exact ih.insert hg hs
    | reap ts =>
      obtain rfl := Option.some.inj hs
      exact ih.reap hg

/-- The ready queue of a run. -/
theorem Ordered.ready (h : Ordered c base acts s) :
    ∃ a, s.now < slotTime c base a ∧
      s.wheel.readyQueue = (buckets (wslotOf c base) a (insertions acts)).map (·.ent) := by
  obtain ⟨a, hslot, -, hnext⟩ := h.bySlot
  refine ⟨a, hnext, ?_⟩
  rw [hslot.bySlot, buckets, List.map_flatMap]
  apply List.flatMap_congr
  intro k _
  unfold dueAt
  rw [h.log_eq, List.filter_map, List.map_map]
  congr 1
  apply List.filter_congr
  intro x _
  rw [Function.comp_apply, decide_eq_decide]
  constructor
  · intro heq
    exact slotTime_inj heq
  · intro heq
    show slotTime c base (wslotOf c base x) = _
    rw [heq]

/-- Those of the entries that have the property `p`, in the order of their insertion. -/
def ofSession (p : α → Bool) (acts : List (WheelCall α)) : List (Insertion α) :=
  (insertions acts).filter fun x => p x.ent

theorem Ordered.ready_ofSession (h : Ordered c base acts s) (p : α → Bool) :
    ∃ a, s.now < slotTime c base a ∧ s.wheel.readyQueue.filter p
      = (buckets (wslotOf c base) a (ofSession p acts)).map (·.ent) := by
  obtain ⟨a, ha, hready⟩ := h.ready
  refine ⟨a, ha, ?_⟩
  rw [hready, List.filter_map, filter_buckets]
  rfl

/-- No ties means that the slots do not decrease. -/
theorem Ordered.not_tie_iff (h : Ordered c base acts s) {p : α → Bool}
    (hmono : (ofSession p acts).Pairwise fun x y => x.desired ≤ y.desired) :
    (ofSession p acts).Pairwise (fun x y => ¬ Tie c base x y) ↔
      (ofSession p acts).Pairwise fun x y => wslotOf c base x ≤ wslotOf c base y := by
  have href : (ofSession p acts).Pairwise fun x y => x.refTsc ≤ y.refTsc :=
    h.mono.sublist List.filter_sublist
  have hbase : ∀ x ∈ ofSession p acts, base ≤ x.refTsc := fun x hx =>
    (h.since x (List.mem_filter.mp hx).1).1
  generalize ofSession p acts = l at hmono href hbase
  have hpair : ∀ x ∈ l, ∀ y, x.refTsc ≤ y.refTsc → x.desired ≤ y.desired →
      (¬ Tie c base x y ↔ wslotOf c base x ≤ wslotOf c base y) := by
    intro x hx y hxy hdes
    rw [← wslotOf_lt_iff (hbase x hx) hxy hdes, Nat.not_lt]
  constructor
  · intro hno
    refine (hno.and (href.and hmono)).imp_of_mem fun hx _ hxy => ?_
    exact (hpair _ hx _ hxy.2.1 hxy.2.2).mp hxy.1
  · intro hle
    refine (hle.and (href.and hmono)).imp_of_mem fun hx _ hxy => ?_
    exact (hpair _ hx _ hxy.2.1 hxy.2.2).mpr hxy.1

/-- Also after a further call of `reap`, the ready queue has received a first part of the entries
with the property `p`, in the order of their insertion. -/
def InInsertionOrder (c : WheelConf) (p : α → Bool) (acts : List (WheelCall α)) (s : WheelRun α) :
    Prop :=
  ∀ ts, s.now ≤ ts → (s.wheel.reap c ts).readyQueue.filter p <+: (ofSession p acts).map (·.ent)

theorem ofSession_reap (p : α → Bool) (acts : List (WheelCall α)) (ts : ℕ) :
    ofSession p (acts ++ [.reap ts]) = ofSession p acts := by
  unfold ofSession
  rw [insertions_reap]

/-- Non-decreasing slots give the order of insertion. -/
theorem Ordered.inInsertionOrder (h : Ordered c base acts s) {p : α → Bool}
    (hslots : (ofSession p acts).Pairwise fun x y => wslotOf c base x ≤ wslotOf c base y) :
    InInsertionOrder c p acts s := by
  intro ts hts
  obtain ⟨a, -, hready⟩ := (h.reap hts).ready_ofSession p
  rw [ofSession_reap] at hready
  exact hready ▸ (buckets_initial hslots a).map _

/-- Only non-decreasing slots do: a late call of `reap` brings all entries out. -/
theorem Ordered.slots_of_inInsertionOrder (h : Ordered c base acts s) {p : α → Bool}
    (hnodup : ((ofSession p acts).map (·.ent)).Nodup) (hin : InInsertionOrder c p acts s) :
    (ofSession p acts).Pairwise fun x y => wslotOf c base x ≤ wslotOf c base y := by
  set ts := s.now + ((ofSession p acts).map fun x => slotTime c base (wslotOf c base x)).sum with hts
  have hle : s.now ≤ ts := Nat.le_add_right _ _
  obtain ⟨a, ha, hready⟩ := (h.reap hle).ready_ofSession p
  rw [ofSession_reap] at hready
  have hpre := hin ts hle
  change (s.wheel.reap c ts).readyQueue.filter p = _ at hready
  rw [hready] at hpre
  obtain ⟨rest, hrest⟩ := hpre
  refine pairwise_of_buckets_map (n := a) hnodup ?_
  -- nothing is missing, so nothing is left
  have hnil : rest = [] := by
    rw [List.eq_nil_iff_forall_not_mem]
    intro e he
    have hmem : e ∈ (ofSession p acts).map (·.ent) := hrest ▸ List.mem_append_right _ he
    obtain ⟨x, hx, rfl⟩ := List.mem_map.mp hmem
    have hsum : slotTime c base (wslotOf c base x)
        ≤ ((ofSession p acts).map fun x => slotTime c base (wslotOf c base x)).sum :=
      List.le_sum_of_mem (List.mem_map.mpr ⟨x, hx, rfl⟩)
    have htime : slotTime c base (wslotOf c base x) ≤ ts := hsum.trans (Nat.le_add_left _ _)
    have hout : x ∈ buckets (wslotOf c base) a (ofSession p acts) :=
      mem_buckets.mpr ⟨hx, (slotTime_lt_iff c base).mp (htime.trans_lt ha)⟩
    rw [← hrest, List.nodup_append] at hnodup
    exact hnodup.2.2 _ (List.mem_map_of_mem hout) _ he rfl
  rw [hnil, List.append_nil] at hrest
  exact hrest

/-- **The order of a session.**  If the entries of a session are inserted with non-decreasing desired
times, they come out in the order of their insertion unless two of them tie, and only then, if they
can be told apart. -/
theorem leaves_in_order_iff (h : Run (guard c) (step c) (start c base) acts s) (p : α → Bool)
    (hmono : (ofSession p acts).Pairwise fun x y => x.desired ≤ y.desired) :
    ((ofSession p acts).Pairwise (fun x y => ¬ Tie c base x y) → InInsertionOrder c p acts s) ∧
    (((ofSession p acts).map (·.ent)).Nodup →
      (InInsertionOrder c p acts s ↔ (ofSession p acts).Pairwise fun x y => ¬ Tie c base x y)) := by
  have hord := Ordered.run h
  rw [hord.not_tie_iff hmono]
  constructor
  · exact hord.inInsertionOrder
  · intro hnodup
    constructor
    · exact hord.slots_of_inInsertionOrder hnodup
    · exact hord.inInsertionOrder

/-- A wheel of eight slots that are ten ticks wide. -/
def tenTicks : WheelConf := ⟨8, 10, 40, by decide, by decide⟩

/-- Three entries of one session, the last two for the same time. -/
def sessionCalls : List (WheelCall ℕ) :=
  [.insert 1 3 15, .insert 2 14 35, .insert 3 17 35, .reap 25]

theorem leaves_in_order_iff_sample :
    ∃ s, Run (guard tenTicks) (step tenTicks) (start tenTicks 0) sessionCalls s ∧
      s.wheel.readyQueue = [1] ∧ InInsertionOrder tenTicks (fun _ => true) sessionCalls s := by
  have hexec : (exec (guard tenTicks) (step tenTicks) (start tenTicks 0) sessionCalls).map
      (·.wheel.readyQueue) = some [1] := by
    decide +kernel
  obtain ⟨s, hs, hready⟩ := Option.map_eq_some_iff.mp hexec
  have hrun := run_of_exec hs
  have hlist : ofSession (fun _ => true) sessionCalls = [⟨1, 3, 15⟩, ⟨2, 14, 35⟩, ⟨3, 17, 35⟩] := rfl
  refine ⟨s, hrun, hready, (leaves_in_order_iff hrun (fun _ => true) ?_).1 ?_⟩
  · rw [hlist]
    simp
  · -- 15 and 35 are not the time of a slot
    have hno : ∀ x ∈ ofSession (fun _ => true) sessionCalls, ∀ k,
        x.desired ≠ slotTime tenTicks 0 k := by
      rw [hlist]
      unfold slotTime tenTicks
      intro x hx k
      simp only [List.mem_cons, List.not_mem_nil, or_false] at hx
      rcases hx with rfl | rfl | rfl
      all_goals
        dsimp only
        omega
    refine List.pairwise_of_forall_mem_list fun x hx y _ htie => ?_
    obtain ⟨k, hk, -⟩ := htie
    exact hno x hx k hk

/-- **Two entries change places.**  Both are to be sent at 20, the time of the second slot, which
becomes the current one between their insertions. -/
theorem leaves_out_of_order :
    ∃ s, Run (guard tenTicks) (step tenTicks) (start tenTicks 0)
        [.insert 1 5 20, .insert 2 12 20, .reap 30] s ∧
      s.wheel.readyQueue = [2, 1] ∧
      ¬ InInsertionOrder tenTicks (fun _ => true) [.insert 1 5 20, .insert 2 12 20, .reap 30] s := by
  have hexec : (exec (guard tenTicks) (step tenTicks) (start tenTicks 0)
      [.insert 1 5 20, .insert 2 12 20, .reap 30]).map
      (fun s => [s.wheel.readyQueue, (s.wheel.reap tenTicks 30).readyQueue, [s.now]])
      = some [[2, 1], [2, 1], [30]] := by
    decide +kernel
  obtain ⟨s, hs, hval⟩ := Option.map_eq_some_iff.mp hexec
  simp only [List.cons.injEq, and_true] at hval
  obtain ⟨hready, hlater, hnow⟩ := hval
  refine ⟨s, run_of_exec hs, hready, fun hin => ?_⟩
  have hpre := hin 30 hnow.le
  rw [hlater] at hpre
  revert hpre
  decide

end WheelRun

end HuiRpc
