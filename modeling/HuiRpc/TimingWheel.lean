/-
# The timing wheel

`src/cc/timing_wheel.h`: a wheel of slots, each a chain of buckets with room for
`kWheelBucketCap` entries.  Buckets are named by numbers: the slots `wheel_[0], …, wheel_[N - 1]`
are the buckets `0, …, N - 1`, and the buckets that the pool (`src/util/mempool.h`) has handed out
so far lie above them.

* `Holds c w q` — the chains of the wheel `w` hold the entries `q`, slot by slot;
* `Holds.insertIntoWslot` — an insertion adds its entry behind those of one slot, also when the
  chain grows;
* `Holds.reapWslot` — a slot that is reaped gives all its entries to the ready queue, in order,
  and its chained buckets back to the pool.

Assertions are compiled out, and the ready queue is kept as the list of all that was pushed.
-/
import Mathlib
import HuiRpc.Lib.Chains

namespace HuiRpc

open Chains

/-- Wheel entries per bucket. -/
def kWheelBucketCap : ℕ := 5

/-- The number of slots `kWheelNumWslots`, `wslot_width_tsc_` and `horizon_tsc_`. -/
structure WheelConf where
  numWslots : ℕ
  width : ℕ
  horizon : ℕ
  numWslots_pos : 0 < numWslots
  width_pos : 0 < width

/-- `wheel_bkt_t`; of `entry_` the valid entries. -/
structure WheelBkt (α : Type) where
  entries : List α := []
  txTsc : ℕ := 0
  last : ℕ := 0
  next : Option ℕ := none

/-- `reset_bkt`. -/
def WheelBkt.reset {α : Type} (b : WheelBkt α) : WheelBkt α := { b with next := none, entries := [] }

/-! ## The pool -/

/-- A pool of buckets; `free` starts with the back of `pool_`, and `brk` is the first bucket that
was never allocated. -/
structure MemPool where
  free : List ℕ
  brk : ℕ
  numToAlloc : ℕ

namespace MemPool

/-- `MB(2) / sizeof(wheel_bkt_t)`. -/
def kStart : ℕ := 2097152 / 64

def extendPool (p : MemPool) : MemPool where
  free := (List.range' p.brk p.numToAlloc).reverse ++ p.free
  brk := p.brk + p.numToAlloc
  numToAlloc := 2 * p.numToAlloc

/-- `alloc`; the back of an empty vector does not arise, see `alloc_family`. -/
def alloc (p : MemPool) : ℕ × MemPool :=
  let p := if p.free = [] then p.extendPool else p
  (p.free.headD 0, { p with free := p.free.tail })

def release (p : MemPool) (r : ℕ) : MemPool := { p with free := r :: p.free }

/-- The bucket that `alloc` returns was free before or is new. -/
theorem alloc_family {next : ℕ → Option ℕ} {n : ℕ} {tail : ℕ → List ℕ} {p : MemPool}
    (h : Family next n tail p.free p.brk) (hnum : 0 < p.numToAlloc) :
    Family next n tail (p.alloc.1 :: p.alloc.2.free) p.alloc.2.brk ∧
      0 < p.alloc.2.numToAlloc := by
  have pop : ∀ p : MemPool, p.free ≠ [] → Family next n tail p.free p.brk →
      Family next n tail (p.free.headD 0 :: p.free.tail) p.brk := by
    intro p hp h
    rcases hfree : p.free with _ | ⟨r, rest⟩
    · exact absurd hfree hp
    · rwa [hfree] at h
  unfold alloc
  by_cases hfree : p.free = []
  · rw [if_pos hfree]
    refine ⟨pop p.extendPool ?_ ?_, ?_⟩
    · intro hnil
      have hlen := congrArg List.length hnil
      simp [extendPool] at hlen
      omega
    · refine h.grow (List.nodup_reverse.mpr List.nodup_range') ?_ (Nat.le_add_right _ _)
      intro x hx
      rw [List.mem_reverse, List.mem_range'_1] at hx
      exact hx
    · show 0 < 2 * p.numToAlloc
      omega
  · rw [if_neg hfree]
    exact ⟨pop p hfree h, hnum⟩

end MemPool

/-! ## The wheel -/

structure TimingWheel (α : Type) where
  bkt : ℕ → WheelBkt α
  curWslot : ℕ
  pool : MemPool
  readyQueue : List α

namespace TimingWheel

variable {α : Type} {c : WheelConf} {w w' : TimingWheel α} {ws : ℕ} {e : α}

/-- The constructor, at time `base`. -/
def init (c : WheelConf) (base : ℕ) : TimingWheel α where
  bkt i := { txTsc := base + (i + 1) * c.width, last := i }
  curWslot := 0
  pool := { free := [], brk := c.numWslots, numToAlloc := MemPool.kStart }
  readyQueue := []

def modify (w : TimingWheel α) (r : ℕ) (f : WheelBkt α → WheelBkt α) : TimingWheel α :=
  { w with bkt := Function.update w.bkt r (f (w.bkt r)) }

def push (w : TimingWheel α) (es : List α) : TimingWheel α :=
  { w with readyQueue := w.readyQueue ++ es }

def allocBkt (w : TimingWheel α) : ℕ × TimingWheel α :=
  let (r, pool) := w.pool.alloc
  (r, { w with pool := pool }.modify r WheelBkt.reset)

/-- Allocate a new bucket and make it the last one of the slot `ws`. -/
def growChain (w : TimingWheel α) (ws last : ℕ) : TimingWheel α :=
  let (r, w) := w.allocBkt
  let w := w.modify last fun b => { b with next := some r }
  w.modify ws fun b => { b with last := r }

def insertIntoWslot (w : TimingWheel α) (ws : ℕ) (e : α) : TimingWheel α :=
  let last := (w.bkt ws).last
  let w := w.modify last fun b => { b with entries := b.entries ++ [e] }
  if (w.bkt last).entries.length = kWheelBucketCap then w.growChain ws last else w

/-- The body of the loop of `reap_wslot`: one bucket of the slot `ws`. -/
def reapBkt (w : TimingWheel α) (ws r : ℕ) : TimingWheel α :=
  let w := (w.push (w.bkt r).entries).modify r WheelBkt.reset
  if r = ws then w else { w with pool := w.pool.release r }

/-- The loop of `reap_wslot`; the successor is read before the bucket is reset. -/
def reapChain (ws : ℕ) : ℕ → Option ℕ → TimingWheel α → TimingWheel α
  | 0, _, w => w
  | _ + 1, none, w => w
  | fuel + 1, some r, w => reapChain ws fuel (w.bkt r).next (w.reapBkt ws r)

/-- `reap_wslot`; there are fewer than `brk` buckets to visit. -/
def reapWslot (w : TimingWheel α) (ws : ℕ) : TimingWheel α :=
  (reapChain ws w.pool.brk (some ws) w).modify ws fun b => { b with last := ws }

/-! ## What the chains hold -/

/-- The links of the buckets. -/
def links (w : TimingWheel α) (r : ℕ) : Option ℕ := (w.bkt r).next

/-- The entries of the buckets `l`. -/
def entriesOf (w : TimingWheel α) (l : List ℕ) : List α := l.flatMap fun r => (w.bkt r).entries

/-- The chain of the slot `i` consists of the buckets `i :: tail i`. -/
structure Chained (c : WheelConf) (w : TimingWheel α) (tail : ℕ → List ℕ) : Prop where
  family : Family w.links c.numWslots tail w.pool.free w.pool.brk
  last_eq : ∀ i < c.numWslots, (w.bkt i).last = tip i (tail i)
  numToAlloc_pos : 0 < w.pool.numToAlloc

/-- `entry_` of the last bucket of each chain has room for one more. -/
def Room (c : WheelConf) (w : TimingWheel α) (tail : ℕ → List ℕ) : Prop :=
  ∀ i < c.numWslots, (w.bkt (tip i (tail i))).entries.length < kWheelBucketCap

/-- The slots of the wheel hold the entries `q`. -/
def Holds (c : WheelConf) (w : TimingWheel α) (q : ℕ → List α) : Prop :=
  ∃ tail, Chained c w tail ∧ Room c w tail ∧ ∀ i < c.numWslots, w.entriesOf (i :: tail i) = q i

theorem entriesOf_cons (w : TimingWheel α) (r : ℕ) (l : List ℕ) :
    w.entriesOf (r :: l) = (w.bkt r).entries ++ w.entriesOf l :=
  List.flatMap_cons ..

theorem entriesOf_congr {l : List ℕ}
    (h : ∀ r ∈ l, (w'.bkt r).entries = (w.bkt r).entries) : w'.entriesOf l = w.entriesOf l :=
  List.flatMap_congr h

/-- One more entry in the last bucket is one more entry at the end. -/
theorem entriesOf_snoc {r : ℕ} {l : List ℕ} (hnd : (r :: l).Nodup)
    (htip : (w'.bkt (tip r l)).entries = (w.bkt (tip r l)).entries ++ [e])
    (hrest : ∀ x ∈ r :: l, x ≠ tip r l → (w'.bkt x).entries = (w.bkt x).entries) :
    w'.entriesOf (r :: l) = w.entriesOf (r :: l) ++ [e] := by
  induction l generalizing r with
  | nil => simpa [entriesOf] using htip
  | cons s l ih =>
    rw [tip_cons] at htip hrest
    have hr : r ≠ tip s l := by
      rintro rfl
      exact (List.nodup_cons.mp hnd).1 (tip_mem s l)
    have hrec := ih (List.nodup_cons.mp hnd).2 htip fun x hx =>
      hrest x (List.mem_cons_of_mem r hx)
    have hhead := hrest r (by simp) hr
    rw [entriesOf_cons w', hrec, hhead, entriesOf_cons w r, List.append_assoc]

theorem holds_init (c : WheelConf) (base : ℕ) :
    Holds c (init c base : TimingWheel α) fun _ => [] := by
  refine ⟨fun _ => [], ⟨Family.start (fun _ _ => rfl) le_rfl, fun _ _ => rfl, ?_⟩, ?_, ?_⟩
  · show 0 < 2097152 / 64
    omega
  · intro i _
    show 0 < 5
    omega
  · intro i _
    rfl

/-- Only the entries, the links and the pool matter. -/
theorem Holds.congr {q q' : ℕ → List α} (h : Holds c w q)
    (hbkt : ∀ x, (w'.bkt x).entries = (w.bkt x).entries ∧ (w'.bkt x).next = (w.bkt x).next ∧
      (w'.bkt x).last = (w.bkt x).last) (hpool : w'.pool = w.pool)
    (hq : ∀ i < c.numWslots, q' i = q i) : Holds c w' q' := by
  obtain ⟨tail, hch, hroom, hent⟩ := h
  refine ⟨tail, ⟨?_, fun i hi => ?_, ?_⟩, fun i hi => ?_, fun i hi => ?_⟩
  · rw [hpool]
    exact hch.family.congr fun i hi x _ => (hbkt x).2.1
  · rw [(hbkt i).2.2, hch.last_eq i hi]
  · rw [hpool]
    exact hch.numToAlloc_pos
  · rw [(hbkt _).1]
    exact hroom i hi
  · rw [hq i hi, ← hent i hi]
    exact entriesOf_congr fun x _ => (hbkt x).1

/-! ### Insertion -/

theorem modify_bkt (w : TimingWheel α) (r : ℕ) (f : WheelBkt α → WheelBkt α) (x : ℕ) :
    (w.modify r f).bkt x = if x = r then f (w.bkt x) else w.bkt x := by
  by_cases h : x = r
  · subst h
    rw [if_pos rfl]
    exact Function.update_self ..
  · rw [if_neg h]
    exact Function.update_of_ne h ..

/-- The last bucket of another slot is another bucket. -/
theorem Chained.ne_tip {tail : ℕ → List ℕ} {i x : ℕ} (h : Chained c w tail)
    (hi : i < c.numWslots) (hws : ws < c.numWslots) (hx : x ∈ i :: tail i) (hne : i ≠ ws) :
    x ≠ tip ws (tail ws) := by
  rintro rfl
  exact hne (h.family.eq_of_mem hi hws hx (tip_mem ws (tail ws)))

/-- One more entry in the last bucket of a slot. -/
theorem Chained.addEntry {tail : ℕ → List ℕ} (h : Chained c w tail) (hws : ws < c.numWslots)
    (hw' : w' = w.modify (tip ws (tail ws)) fun b => { b with entries := b.entries ++ [e] }) :
    Chained c w' tail ∧
      ∀ i < c.numWslots, w'.entriesOf (i :: tail i)
        = Function.update (fun i => w.entriesOf (i :: tail i)) ws
            (w.entriesOf (ws :: tail ws) ++ [e]) i := by
  subst hw'
  refine ⟨⟨?_, ?_, h.numToAlloc_pos⟩, ?_⟩
  · refine h.family.congr fun i hi x hx => ?_
    unfold links
    rw [modify_bkt]
    split_ifs <;> rfl
  · intro i hi
    rw [modify_bkt, ← h.last_eq i hi]
    split_ifs <;> rfl
  · intro i hi
    by_cases hne : i = ws
    · subst hne
      rw [Function.update_self]
      refine entriesOf_snoc (h.family.chain_nodup hws) ?_ fun x hx hne => ?_
      · rw [modify_bkt, if_pos rfl]
      · rw [modify_bkt, if_neg hne]
    · rw [Function.update_of_ne hne]
      refine entriesOf_congr fun x hx => ?_
      rw [modify_bkt, if_neg (h.ne_tip hi hws hx hne)]

/-- What the buckets are after a chain has grown by the bucket `r` that the pool gave. -/
theorem growChain_bkt (w : TimingWheel α) (ws last x : ℕ) :
    let r := w.pool.alloc.1
    (((w.growChain ws last).bkt x).entries = if x = r then [] else (w.bkt x).entries) ∧
    (((w.growChain ws last).bkt x).next = if x = last then some r else
      if x = r then none else (w.bkt x).next) ∧
    (((w.growChain ws last).bkt x).last = if x = ws then r else (w.bkt x).last) ∧
    ((w.growChain ws last).bkt x).txTsc = (w.bkt x).txTsc := by
  unfold growChain allocBkt
  simp only [modify_bkt]
  split_ifs <;> simp [WheelBkt.reset]

/-- The chain of a slot grows by an empty bucket. -/
theorem Chained.growChain {tail : ℕ → List ℕ} (h : Chained c w tail) (hws : ws < c.numWslots) :
    ∃ r, Chained c (w.growChain ws (tip ws (tail ws))) (Function.update tail ws (tail ws ++ [r])) ∧
      (∀ i < c.numWslots, r ∉ i :: tail i) ∧
      ∀ x, ((w.growChain ws (tip ws (tail ws))).bkt x).entries
        = if x = r then [] else (w.bkt x).entries := by
  set r := w.pool.alloc.1 with hr
  obtain ⟨hfam, hnum⟩ := MemPool.alloc_family h.family h.numToAlloc_pos
  have hfresh : ∀ i < c.numWslots, r ∉ i :: tail i := fun i hi hmem =>
    hfam.notMem_free hi hmem (List.mem_cons_self ..)
  have hbkt := growChain_bkt w ws (tip ws (tail ws))
  have hne : r ≠ tip ws (tail ws) := fun heq => hfresh ws hws (heq ▸ tip_mem ws (tail ws))
  refine ⟨r, ⟨?_, ?_, hnum⟩, hfresh, fun x => (hbkt x).1⟩
  · refine hfam.extend hws ?_ ?_ ?_
    · exact ((hbkt _).2.1).trans (if_pos rfl)
    · exact ((hbkt _).2.1).trans ((if_neg hne).trans (if_pos rfl))
    · intro x hx hxr
      exact ((hbkt _).2.1).trans ((if_neg hx).trans (if_neg hxr))
  · intro i hi
    rw [(hbkt i).2.2.1]
    by_cases hiws : i = ws
    · subst hiws
      rw [if_pos rfl, Function.update_self, tip_append_singleton]
    · rw [if_neg hiws, Function.update_of_ne hiws, h.last_eq i hi]

/-- The times, the cursor and the ready queue are not touched by an insertion into a slot. -/
theorem insertIntoWslot_frame (w : TimingWheel α) (ws : ℕ) (e : α) :
    (∀ x, ((w.insertIntoWslot ws e).bkt x).txTsc = (w.bkt x).txTsc) ∧
      (w.insertIntoWslot ws e).curWslot = w.curWslot ∧
      (w.insertIntoWslot ws e).readyQueue = w.readyQueue := by
  have hadd : ∀ r x, ((w.modify r fun b => { b with entries := b.entries ++ [e] }).bkt x).txTsc
      = (w.bkt x).txTsc := by
    intro r x
    rw [modify_bkt]
    split_ifs <;> rfl
  unfold insertIntoWslot
  dsimp only
  split_ifs
  · refine ⟨fun x => ?_, rfl, rfl⟩
    rw [(growChain_bkt _ _ _ x).2.2.2, hadd]
  · exact ⟨hadd _, rfl, rfl⟩

/-- **Insertion into a slot.**  The entry comes behind those of the slot, whether or not the chain
has to grow for it. -/
theorem Holds.insertIntoWslot {q : ℕ → List α} (h : Holds c w q) (hws : ws < c.numWslots) (e : α) :
    Holds c (w.insertIntoWslot ws e) (Function.update q ws (q ws ++ [e])) := by
  obtain ⟨tail, hch, hroom, hq⟩ := h
  set r := tip ws (tail ws) with hr
  set w1 := w.modify r fun b => { b with entries := b.entries ++ [e] } with hw1
  obtain ⟨hch1, hent⟩ := hch.addEntry hws hw1
  have hq1 : ∀ i < c.numWslots, w1.entriesOf (i :: tail i)
      = Function.update q ws (q ws ++ [e]) i := by
    intro i hi
    rw [hent i hi, hq ws hws]
    by_cases hne : i = ws
    · rw [hne, Function.update_self, Function.update_self]
    · rw [Function.update_of_ne hne, Function.update_of_ne hne, hq i hi]
  -- the other slots have room as before
  have hroom1 : ∀ i < c.numWslots, i ≠ ws →
      (w1.bkt (tip i (tail i))).entries.length < kWheelBucketCap := by
    intro i hi hne
    rw [hw1, modify_bkt, if_neg (hch.ne_tip hi hws (tip_mem i (tail i)) hne)]
    exact hroom i hi
  have hins : w.insertIntoWslot ws e
      = if (w1.bkt r).entries.length = kWheelBucketCap then w1.growChain ws r else w1 := by
    unfold TimingWheel.insertIntoWslot
    rw [hch.last_eq ws hws]
  have hle : (w1.bkt r).entries.length ≤ kWheelBucketCap := by
    rw [modify_bkt, if_pos rfl, List.length_append]
    exact hroom ws hws
  rw [hins]
  split_ifs with hfull
  · obtain ⟨s, hch2, hfresh, hent2⟩ := hch1.growChain hws
    have hsame : ∀ i < c.numWslots, ∀ x ∈ i :: tail i,
        ((w1.growChain ws r).bkt x).entries = (w1.bkt x).entries := by
      intro i hi x hx
      rw [hent2 x, if_neg]
      rintro rfl
      exact hfresh i hi hx
    refine ⟨_, hch2, ?_, ?_⟩
    · intro i hi
      by_cases hne : i = ws
      · subst hne
        rw [Function.update_self, tip_append_singleton, hent2, if_pos rfl]
        exact Nat.succ_pos 4
      · rw [Function.update_of_ne hne, hsame i hi _ (tip_mem i (tail i))]
        exact hroom1 i hi hne
    · intro i hi
      rw [← hq1 i hi]
      have hold := entriesOf_congr (hsame i hi)
      by_cases hne : i = ws
      · -- the new bucket is empty
        subst hne
        rw [Function.update_self, ← List.cons_append, ← hold]
        unfold entriesOf
        rw [List.flatMap_append, List.flatMap_singleton, hent2, if_pos rfl, List.append_nil]
      · rw [Function.update_of_ne hne, hold]
  · refine ⟨tail, hch1, fun i hi => ?_, hq1⟩
    by_cases hne : i = ws
    · subst hne
      exact lt_of_le_of_ne hle hfull
    · exact hroom1 i hi hne

/-! ### Reaping a slot -/

/-- The wheel after the buckets `l` of the slot `ws` were reaped. -/
def emptied (w : TimingWheel α) (ws : ℕ) (l : List ℕ) : TimingWheel α where
  bkt x := if x ∈ l then (w.bkt x).reset else w.bkt x
  curWslot := w.curWslot
  pool := { w.pool with free := (l.filter (· ≠ ws)).reverse ++ w.pool.free }
  readyQueue := w.readyQueue ++ w.entriesOf l

@[simp] theorem emptied_nil (w : TimingWheel α) (ws : ℕ) : w.emptied ws [] = w := by
  simp [emptied, entriesOf]

theorem reapBkt_bkt (w : TimingWheel α) (ws r x : ℕ) :
    (w.reapBkt ws r).bkt x = if x = r then (w.bkt x).reset else w.bkt x := by
  unfold reapBkt
  split_ifs <;> simp_all [modify_bkt, push]

theorem reapBkt_emptied {r : ℕ} {l : List ℕ} (hr : r ∉ l) :
    (w.reapBkt ws r).emptied ws l = w.emptied ws (r :: l) := by
  have hne : ∀ x ∈ l, x ≠ r := by
    rintro x hx rfl
    exact hr hx
  have hent : (w.reapBkt ws r).entriesOf l = w.entriesOf l := by
    refine entriesOf_congr fun x hx => ?_
    rw [reapBkt_bkt, if_neg (hne x hx)]
  unfold emptied
  rw [hent, entriesOf_cons, ← List.append_assoc]
  congr 1
  · funext x
    rw [reapBkt_bkt]
    by_cases hxr : x = r
    · simp [hxr, hr]
    · simp [hxr]
  · unfold reapBkt
    split_ifs <;> rfl
  · unfold reapBkt
    by_cases hrs : r = ws <;> simp [hrs, MemPool.release, modify, push]
  · unfold reapBkt
    split_ifs <;> rfl

theorem reapChain_none (ws fuel : ℕ) (w : TimingWheel α) : reapChain ws fuel none w = w := by
  cases fuel <;> rfl

/-- The loop visits the chain and stops at its end. -/
theorem reapChain_eq {r : ℕ} {l : List ℕ} {fuel : ℕ} (h : Path w.links r l)
    (hnd : (r :: l).Nodup) (hfuel : (r :: l).length ≤ fuel) :
    reapChain ws fuel (some r) w = w.emptied ws (r :: l) := by
  induction l generalizing r w fuel with
  | nil =>
    obtain ⟨fuel, rfl⟩ : ∃ f, fuel = f + 1 := ⟨fuel - 1, by simp at hfuel; omega⟩
    have hnext : (w.bkt r).next = none := h
    rw [reapChain, hnext, reapChain_none, ← reapBkt_emptied (List.not_mem_nil), emptied_nil]
  | cons s l ih =>
    obtain ⟨fuel, rfl⟩ : ∃ f, fuel = f + 1 := ⟨fuel - 1, by simp at hfuel; omega⟩
    have hnext : (w.bkt r).next = some s := h.1
    have hr := (List.nodup_cons.mp hnd).1
    have hpath : Path (w.reapBkt ws r).links s l := by
      refine h.2.congr fun x hx => ?_
      unfold links
      rw [reapBkt_bkt, if_neg]
      rintro rfl
      exact hr hx
    rw [reapChain, hnext, ih hpath (List.nodup_cons.mp hnd).2 (by simp at hfuel ⊢; omega),
      reapBkt_emptied hr]

namespace Chained

variable {tail : ℕ → List ℕ}

theorem reapWslot_eq (h : Chained c w tail) (hws : ws < c.numWslots) :
    w.reapWslot ws = (w.emptied ws (ws :: tail ws)).modify ws fun b => { b with last := ws } := by
  unfold reapWslot
  rw [reapChain_eq (h.family.path ws hws) (h.family.chain_nodup hws) (h.family.length_le hws)]

theorem reapWslot_bkt (h : Chained c w tail) (hws : ws < c.numWslots) (x : ℕ) :
    (w.reapWslot ws).bkt x
      = if x = ws then { (w.bkt x).reset with last := ws }
        else if x ∈ tail ws then (w.bkt x).reset else w.bkt x := by
  rw [h.reapWslot_eq hws, modify_bkt]
  unfold emptied
  by_cases hx : x = ws <;> simp [hx]

/-- All buckets but the first one go back to the pool. -/
theorem released_perm (h : Chained c w tail) (hws : ws < c.numWslots) :
    ((ws :: tail ws).filter (· ≠ ws)).reverse.Perm (tail ws) := by
  have hself : (tail ws).filter (· ≠ ws) = tail ws := by
    refine List.filter_eq_self.mpr fun x hx => ?_
    rw [decide_eq_true_eq]
    rintro rfl
    exact (List.nodup_cons.mp (h.family.chain_nodup hws)).1 hx
  rw [List.filter_cons_of_neg (by simp), hself]
  exact List.reverse_perm _

/-- The chains after a slot was reaped. -/
theorem reapWslot (h : Chained c w tail) (hws : ws < c.numWslots) :
    Chained c (w.reapWslot ws) (Function.update tail ws []) := by
  have hbkt := h.reapWslot_bkt hws
  have hpool : (w.reapWslot ws).pool
      = { w.pool with free := ((ws :: tail ws).filter (· ≠ ws)).reverse ++ w.pool.free } := by
    rw [h.reapWslot_eq hws]
    rfl
  refine ⟨?_, ?_, ?_⟩
  · rw [hpool]
    refine h.family.release hws (h.released_perm hws) ?_ fun x hx => ?_
    · unfold links
      rw [hbkt, if_pos rfl]
      rfl
    · rw [List.mem_cons, not_or] at hx
      unfold links
      rw [hbkt, if_neg hx.1, if_neg hx.2]
  · intro i hi
    rw [hbkt]
    by_cases hne : i = ws
    · rw [if_pos hne, hne, Function.update_self]
      rfl
    · have hnot : i ∉ tail ws := fun hmem =>
        hne (h.family.eq_of_mem hi hws (List.mem_cons_self ..) (List.mem_cons_of_mem ws hmem))
      rw [if_neg hne, if_neg hnot, Function.update_of_ne hne, h.last_eq i hi]
  · rw [hpool]
    exact h.numToAlloc_pos

end Chained

/-- **Reaping a slot.**  All its entries go to the ready queue, in their order, the slot is empty
afterwards, and nothing else changes. -/
theorem Holds.reapWslot {q : ℕ → List α} (h : Holds c w q) (hws : ws < c.numWslots) :
    Holds c (w.reapWslot ws) (Function.update q ws []) ∧
      (∀ x, ((w.reapWslot ws).bkt x).txTsc = (w.bkt x).txTsc) ∧
      (w.reapWslot ws).curWslot = w.curWslot ∧
      (w.reapWslot ws).readyQueue = w.readyQueue ++ q ws := by
  obtain ⟨tail, hch, hroom, hq⟩ := h
  have hbkt := hch.reapWslot_bkt hws
  -- the buckets of the other slots are as they were
  have hsame : ∀ i < c.numWslots, i ≠ ws → ∀ x ∈ i :: tail i,
      (w.reapWslot ws).bkt x = w.bkt x := by
    intro i hi hne x hx
    have hnot : x ∉ ws :: tail ws := fun hmem => hne (hch.family.eq_of_mem hi hws hx hmem)
    rw [List.mem_cons, not_or] at hnot
    rw [hbkt, if_neg hnot.1, if_neg hnot.2]
  refine ⟨⟨_, hch.reapWslot hws, fun i hi => ?_, fun i hi => ?_⟩, fun x => ?_, ?_, ?_⟩
  · by_cases hne : i = ws
    · rw [hne, Function.update_self, tip_nil, hbkt, if_pos rfl]
      exact Nat.succ_pos 4
    · rw [Function.update_of_ne hne, hsame i hi hne _ (tip_mem i (tail i))]
      exact hroom i hi
  · by_cases hne : i = ws
    · rw [hne, Function.update_self, Function.update_self, entriesOf_cons, hbkt, if_pos rfl]
      rfl
    · rw [Function.update_of_ne hne, Function.update_of_ne hne, ← hq i hi]
      exact entriesOf_congr fun x hx => by rw [hsame i hi hne x hx]
  · rw [hbkt]
    split_ifs <;> rfl
  · rw [hch.reapWslot_eq hws]
    rfl
  · rw [hch.reapWslot_eq hws, ← hq ws hws]
    rfl

end TimingWheel

end HuiRpc
