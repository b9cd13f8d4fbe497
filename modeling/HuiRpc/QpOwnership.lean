/-
# Ownership of queue pairs

`ownership_memzone_t` of `dpdk_transport.h`: a table in shared memory that says which process owns
which queue pair of which physical port, and one counter for all ports.  Every call holds the mutex
of the table, so calls are steps.

* Processes are born and die.  Two processes that live at the same time have different PIDs; a PID
  is used again after its process has died.
* `kill(pid, 0)` succeeds if a live process has the PID and the daemon may signal it.  Free queue
  pairs have the PID 0, for which `kill` succeeds.
* `owners` is a record that the code does not keep: who got a queue pair and has neither returned it
  nor, being dead, lost it to the daemon.

`qp_ownership` says that in every run the table is right about the owners and the counter about the
table, as long as the steps are `Safe`; `qp_ownership_lost` shows runs in which they are not.
-/
import HuiRpc.Lib.Runs

namespace HuiRpc

open Runs

def kMaxPhyPorts : ℕ := 16

def kMaxQueuesPerPort : ℕ := 16

instance : NeZero kMaxPhyPorts := ⟨by decide⟩

instance : NeZero kMaxQueuesPerPort := ⟨by decide⟩

abbrev PhyPort := Fin kMaxPhyPorts

abbrev QpId := Fin kMaxQueuesPerPort

/-- An element of `owner_`; the PID 0 means that the queue pair is free. -/
structure QpOwner where
  pid : ℕ
  procRandomId : ℕ
  deriving DecidableEq

structure OwnershipMemzone where
  epoch : ℕ
  numQpsAvailable : ℕ
  owner : PhyPort → QpId → QpOwner

/-- What `free_qp` returns. -/
inductive FreeQpRet
  | ok
  | ealready
  | eperm
  deriving DecidableEq

namespace OwnershipMemzone

def init : OwnershipMemzone := ⟨0, kMaxQueuesPerPort, fun _ _ => ⟨0, 0⟩⟩

def setOwner (z : OwnershipMemzone) (port : PhyPort) (i : QpId) (o : QpOwner) : OwnershipMemzone :=
  { z with owner := Function.update z.owner port (Function.update (z.owner port) i o) }

/-- `epoch_++`. -/
def nextEpoch (z : OwnershipMemzone) : OwnershipMemzone :=
  { z with epoch := (z.epoch + 1) % 2 ^ 64 }

/-- `num_qps_available_--`. -/
def takeOne (z : OwnershipMemzone) : OwnershipMemzone :=
  { z with numQpsAvailable := (2 ^ 64 - 1 + z.numQpsAvailable) % 2 ^ 64 }

/-- `num_qps_available_++`. -/
def giveOne (z : OwnershipMemzone) : OwnershipMemzone :=
  { z with numQpsAvailable := (z.numQpsAvailable + 1) % 2 ^ 64 }

@[simp] theorem nextEpoch_owner (z : OwnershipMemzone) : z.nextEpoch.owner = z.owner := rfl

@[simp] theorem takeOne_owner (z : OwnershipMemzone) : z.takeOne.owner = z.owner := rfl

@[simp] theorem giveOne_owner (z : OwnershipMemzone) : z.giveOne.owner = z.owner := rfl

/-- The sanity check of `get_qp`: another process with the same PID owns a queue pair. -/
def Clash (z : OwnershipMemzone) (port : PhyPort) (myPid procRandomId : ℕ) : Prop :=
  ∃ i, (z.owner port i).pid = myPid ∧ (z.owner port i).procRandomId ≠ procRandomId

instance (z : OwnershipMemzone) (port : PhyPort) (myPid procRandomId : ℕ) :
    Decidable (z.Clash port myPid procRandomId) :=
  inferInstanceAs (Decidable (∃ _, _))

/-- `get_qp`; `none` is `kInvalidQpId`. -/
def getQp (z : OwnershipMemzone) (port : PhyPort) (myPid procRandomId : ℕ) :
    OwnershipMemzone × Option QpId :=
  let z := z.nextEpoch
  if z.Clash port myPid procRandomId then (z, none)
  else
    match (List.finRange kMaxQueuesPerPort).find? fun i => (z.owner port i).pid = 0 with
    | none => (z, none)
    | some i => ((z.setOwner port i ⟨myPid, procRandomId⟩).takeOne, some i)

/-- `free_qp`. -/
def freeQp (z : OwnershipMemzone) (port : PhyPort) (qpId : QpId) (myPid : ℕ) :
    OwnershipMemzone × FreeQpRet :=
  let z := z.nextEpoch
  let owner := z.owner port qpId
  if owner.pid = 0 then (z, .ealready)
  else if owner.pid ≠ myPid then (z, .eperm)
  else (z.giveOne.setOwner port qpId { owner with pid := 0 }, .ok)

/-- The body of the loop of `daemon_reclaim_qps_from_crashed`. -/
def reclaimQp (kill : ℕ → Bool) (port : PhyPort) (z : OwnershipMemzone) (i : QpId) :
    OwnershipMemzone :=
  if kill (z.owner port i).pid then z
  else z.giveOne.setOwner port i { z.owner port i with pid := 0 }

/-- `daemon_reclaim_qps_from_crashed`. -/
def daemonReclaim (kill : ℕ → Bool) (z : OwnershipMemzone) (port : PhyPort) : OwnershipMemzone :=
  (List.finRange kMaxQueuesPerPort).foldl (reclaimQp kill port) z

/-! ## The table and the counter -/

variable {z : OwnershipMemzone} {port : PhyPort} {i : QpId} {kill : ℕ → Bool} {pid rid : ℕ}

/-- The queue pairs that are owned. -/
def owned (z : OwnershipMemzone) : Finset (PhyPort × QpId) :=
  Finset.univ.filter fun q => (z.owner q.1 q.2).pid ≠ 0

/-- The counter is right, and has not wrapped around. -/
def Counts (z : OwnershipMemzone) : Prop := z.numQpsAvailable + z.owned.card = kMaxQueuesPerPort

theorem setOwner_owner (z : OwnershipMemzone) (port : PhyPort) (i : QpId) (o : QpOwner)
    (port' : PhyPort) (j : QpId) :
    (z.setOwner port i o).owner port' j
      = if port' = port ∧ j = i then o else z.owner port' j := by
  unfold setOwner
  by_cases hp : port' = port
  · subst hp
    by_cases hj : j = i
    · subst hj
      simp
    · simp [hj]
  · simp [hp]

theorem mem_owned {q : PhyPort × QpId} : q ∈ z.owned ↔ (z.owner q.1 q.2).pid ≠ 0 := by
  simp [owned]

/-- A queue pair that gets an owner. -/
theorem owned_setOwner_of_free {o : QpOwner} (hfree : (z.owner port i).pid = 0) (ho : o.pid ≠ 0) :
    (z.setOwner port i o).owned.card = z.owned.card + 1 := by
  have hins : (z.setOwner port i o).owned = insert (port, i) z.owned := by
    ext ⟨port', j⟩
    simp only [Finset.mem_insert, mem_owned, setOwner_owner]
    split_ifs with hq
    · simp [hq, ho]
    · simp [hq]
  rw [hins, Finset.card_insert_of_notMem]
  rw [mem_owned]
  exact not_not.mpr hfree

/-- A queue pair that loses its owner. -/
theorem owned_setOwner_of_owned {o : QpOwner} (hown : (z.owner port i).pid ≠ 0) (ho : o.pid = 0) :
    (z.setOwner port i o).owned.card + 1 = z.owned.card := by
  have herase : (z.setOwner port i o).owned = z.owned.erase (port, i) := by
    ext ⟨port', j⟩
    simp only [Finset.mem_erase, mem_owned, setOwner_owner]
    split_ifs with hq
    · simp [hq, ho]
    · simp [hq]
  rw [herase]
  exact Finset.card_erase_add_one (mem_owned.mpr hown)

/-- Returning a queue pair keeps the counter right. -/
theorem Counts.release (h : z.Counts) (hown : (z.owner port i).pid ≠ 0) {o : QpOwner}
    (ho : o.pid = 0) : (z.giveOne.setOwner port i o).Counts := by
  have hcard : (z.giveOne.setOwner port i o).owned.card + 1 = z.owned.card := by
    rw [owned_setOwner_of_owned (z := z.giveOne) hown ho]
    rfl
  have hnum : (z.giveOne.setOwner port i o).numQpsAvailable = (z.numQpsAvailable + 1) % 2 ^ 64 := rfl
  unfold Counts kMaxQueuesPerPort at h ⊢
  omega

/-- Taking a queue pair keeps the counter right, unless it is zero. -/
theorem Counts.take (h : z.Counts) (hfree : (z.owner port i).pid = 0)
    (hroom : z.owned.card < kMaxQueuesPerPort) {o : QpOwner} (ho : o.pid ≠ 0) :
    (z.setOwner port i o).takeOne.Counts := by
  have hcard : (z.setOwner port i o).takeOne.owned.card = z.owned.card + 1 := by
    exact owned_setOwner_of_free hfree ho
  have hnum : (z.setOwner port i o).takeOne.numQpsAvailable
      = (2 ^ 64 - 1 + z.numQpsAvailable) % 2 ^ 64 := rfl
  unfold Counts kMaxQueuesPerPort at h ⊢
  unfold kMaxQueuesPerPort at hroom
  omega

/-! ## What the calls do -/

/-- `get_qp` fails and leaves the table as it is, or it takes a free queue pair. -/
theorem getQp_cases (z : OwnershipMemzone) (port : PhyPort) (pid rid : ℕ) :
    (z.getQp port pid rid = (z.nextEpoch, none) ∧
      (z.Clash port pid rid ∨ ∀ i, (z.owner port i).pid ≠ 0)) ∨
    ∃ i, (z.owner port i).pid = 0 ∧ ¬ z.Clash port pid rid ∧
      z.getQp port pid rid = ((z.nextEpoch.setOwner port i ⟨pid, rid⟩).takeOne, some i) := by
  unfold getQp
  by_cases hclash : z.Clash port pid rid
  · left
    rw [if_pos (show z.nextEpoch.Clash port pid rid from hclash)]
    exact ⟨rfl, Or.inl hclash⟩
  · rw [if_neg (show ¬ z.nextEpoch.Clash port pid rid from hclash)]
    cases hfind : (List.finRange kMaxQueuesPerPort).find?
        fun i => (z.nextEpoch.owner port i).pid = 0 with
    | none =>
      left
      refine ⟨rfl, Or.inr fun i hi => ?_⟩
      have hnone := List.find?_eq_none.mp hfind i (List.mem_finRange i)
      exact hnone (decide_eq_true hi)
    | some i =>
      right
      have hfree := List.find?_some hfind
      exact ⟨i, of_decide_eq_true hfree, hclash, rfl⟩

/-- `free_qp` fails and leaves the table as it is, or it returns a queue pair with the PID of the
caller. -/
theorem freeQp_cases (z : OwnershipMemzone) (port : PhyPort) (i : QpId) (pid : ℕ) :
    ((z.freeQp port i pid).1 = z.nextEpoch ∧ (z.freeQp port i pid).2 ≠ .ok) ∨
    (z.owner port i).pid ≠ 0 ∧ (z.owner port i).pid = pid ∧
      z.freeQp port i pid
        = (z.nextEpoch.giveOne.setOwner port i { z.owner port i with pid := 0 }, .ok) := by
  unfold freeQp
  by_cases hzero : (z.nextEpoch.owner port i).pid = 0
  · rw [if_pos hzero]
    exact Or.inl ⟨rfl, by simp⟩
  · rw [if_neg hzero]
    by_cases hpid : (z.nextEpoch.owner port i).pid = pid
    · rw [if_neg (not_not.mpr hpid)]
      exact Or.inr ⟨hzero, hpid, rfl⟩
    · rw [if_pos hpid]
      exact Or.inl ⟨rfl, by simp⟩

/-- One round of the loop frees its queue pair if `kill` fails. -/
theorem reclaimQp_owner (kill : ℕ → Bool) (port : PhyPort) (z : OwnershipMemzone) (i : QpId)
    (port' : PhyPort) (j : QpId) :
    (z.reclaimQp kill port i).owner port' j
      = if port' = port ∧ j = i ∧ kill (z.owner port i).pid = false then
          { z.owner port' j with pid := 0 }
        else z.owner port' j := by
  unfold reclaimQp
  by_cases hkill : kill (z.owner port i).pid
  · rw [if_pos hkill, if_neg]
    rintro ⟨-, -, hfalse⟩
    simp [hkill] at hfalse
  · rw [if_neg hkill, setOwner_owner]
    by_cases hq : port' = port ∧ j = i
    · obtain ⟨rfl, rfl⟩ := hq
      simp [hkill]
    · rw [if_neg hq, if_neg fun h => hq ⟨h.1, h.2.1⟩]
      rfl

theorem Counts.reclaimQp (h : z.Counts) (hkill : kill 0 = true) (port : PhyPort) (i : QpId) :
    (z.reclaimQp kill port i).Counts := by
  unfold OwnershipMemzone.reclaimQp
  split_ifs with hfail
  · exact h
  · apply h.release _ rfl
    intro hzero
    rw [hzero] at hfail
    exact hfail hkill

/-- The loop over some queue pairs of the port, each once. -/
theorem foldl_reclaimQp (hkill : kill 0 = true) (port : PhyPort) {l : List QpId} (hnd : l.Nodup)
    (z : OwnershipMemzone) :
    (z.Counts → (l.foldl (OwnershipMemzone.reclaimQp kill port) z).Counts) ∧
    ∀ port' j, (l.foldl (OwnershipMemzone.reclaimQp kill port) z).owner port' j
      = if port' = port ∧ j ∈ l ∧ kill (z.owner port' j).pid = false then
          { z.owner port' j with pid := 0 }
        else z.owner port' j := by
  induction l generalizing z with
  | nil => exact ⟨id, fun port' j => by simp⟩
  | cons i l ih =>
    obtain ⟨hi, hnd'⟩ := List.nodup_cons.mp hnd
    obtain ⟨hcount, howner⟩ := ih hnd' (z.reclaimQp kill port i)
    refine ⟨fun h => hcount (h.reclaimQp hkill port i), fun port' j => ?_⟩
    rw [List.foldl_cons, howner, reclaimQp_owner]
    by_cases hq : port' = port ∧ j = i
    · obtain ⟨rfl, rfl⟩ := hq
      simp [hi]
    · by_cases hp : port' = port
      · have hj : j ≠ i := fun h => hq ⟨hp, h⟩
        simp [hp, hj]
      · simp [hp]

/-- **The daemon** frees the queue pairs of the port for whose PID `kill` fails. -/
theorem daemonReclaim_owner (hkill : kill 0 = true) (z : OwnershipMemzone) (port port' : PhyPort)
    (j : QpId) :
    (z.daemonReclaim kill port).owner port' j
      = if port' = port ∧ kill (z.owner port' j).pid = false then
          { z.owner port' j with pid := 0 }
        else z.owner port' j := by
  have h := (foldl_reclaimQp hkill port (List.nodup_finRange _) z).2 port' j
  simpa [daemonReclaim, List.mem_finRange] using h

theorem Counts.daemonReclaim (h : z.Counts) (hkill : kill 0 = true) (port : PhyPort) :
    (z.daemonReclaim kill port).Counts :=
  (foldl_reclaimQp hkill port (List.nodup_finRange _) z).1 h

theorem counts_init : init.Counts := by
  have hnone : init.owned = ∅ := by
    ext q
    rw [mem_owned]
    simp [init]
  show kMaxQueuesPerPort + init.owned.card = kMaxQueuesPerPort
  rw [hnone, Finset.card_empty, Nat.add_zero]

end OwnershipMemzone

/-! ## Processes -/

/-- The PIDs and random numbers of processes. -/
structure Procs (P : Type) where
  pid : P → ℕ
  randomId : P → ℕ
  pid_pos : ∀ p, 0 < pid p

/-- The memzone, the processes that live, those that have died, and the owners. -/
structure QpWorld (P : Type) where
  zone : OwnershipMemzone
  live : List P
  gone : List P
  owners : List (P × PhyPort × QpId)

inductive QpAct (P : Type)
  | born (p : P)
  | die (p : P)
  | getQp (p : P) (port : PhyPort)
  | freeQp (p : P) (port : PhyPort) (i : QpId)
  | reclaim (port : PhyPort) (allowed : P → Bool)

namespace QpWorld

variable {P : Type} [DecidableEq P] {R : Procs P} {s s' : QpWorld P} {a : QpAct P}
  {acts : List (QpAct P)}

def init : QpWorld P := ⟨OwnershipMemzone.init, [], [], []⟩

/-- Whether `kill(pid, 0)` returns 0 for a daemon that may signal the processes `allowed`. -/
def kill (R : Procs P) (s : QpWorld P) (allowed : P → Bool) (pid : ℕ) : Bool :=
  pid = 0 || s.live.any fun p => R.pid p = pid && allowed p

/-- A process is born once, with a PID that is not in use, and only live processes call. -/
def guard (R : Procs P) (s : QpWorld P) : QpAct P → Prop
  | .born p => p ∉ s.live ∧ p ∉ s.gone ∧ ∀ q ∈ s.live, R.pid q ≠ R.pid p
  | .die p => p ∈ s.live
  | .getQp p _ => p ∈ s.live
  | .freeQp p _ _ => p ∈ s.live
  | .reclaim _ _ => True

instance (R : Procs P) (s : QpWorld P) : ∀ a, Decidable (guard R s a)
  | .born _ => inferInstanceAs (Decidable (_ ∧ _ ∧ _))
  | .die _ => inferInstanceAs (Decidable (_ ∈ _))
  | .getQp _ _ => inferInstanceAs (Decidable (_ ∈ _))
  | .freeQp _ _ _ => inferInstanceAs (Decidable (_ ∈ _))
  | .reclaim _ _ => inferInstanceAs (Decidable True)

def step (R : Procs P) (s : QpWorld P) : QpAct P → Option (QpWorld P)
  | .born p => some { s with live := p :: s.live }
  | .die p => some { s with live := s.live.filter (· ≠ p), gone := p :: s.gone }
  | .getQp p port =>
    let r := s.zone.getQp port (R.pid p) (R.randomId p)
    some { s with zone := r.1, owners := (r.2.toList.map fun i => (p, port, i)) ++ s.owners }
  | .freeQp p port i =>
    let r := s.zone.freeQp port i (R.pid p)
    some { s with
      zone := r.1
      owners := if r.2 = .ok then s.owners.filter (· ≠ (p, port, i)) else s.owners }
  | .reclaim port allowed =>
    let zone := s.zone.daemonReclaim (s.kill R allowed) port
    some { s with
      zone := zone
      owners := s.owners.filter fun o => o.1 ∈ s.live ∨ (zone.owner o.2.1 o.2.2).pid ≠ 0 }

/-- The steps that go well: a queue pair is taken while fewer than `kMaxQueuesPerPort` are owned on
all ports together, none is returned by a process that has the PID of its dead owner, and the daemon
may signal the live owners. -/
def Safe (R : Procs P) (s : QpWorld P) : QpAct P → Prop
  | .born _ => True
  | .die _ => True
  | .getQp p port => s.zone.Clash port (R.pid p) (R.randomId p) ∨
      (∀ i, (s.zone.owner port i).pid ≠ 0) ∨ s.zone.owned.card < kMaxQueuesPerPort
  | .freeQp p port i => ∀ q ∈ s.owners, q.2 = (port, i) → R.pid q.1 = R.pid p → q.1 ∈ s.live
  | .reclaim port allowed => ∀ q ∈ s.owners, q.2.1 = port → q.1 ∈ s.live → allowed q.1 = true

instance (R : Procs P) (s : QpWorld P) : ∀ a, Decidable (Safe R s a)
  | .born _ => inferInstanceAs (Decidable True)
  | .die _ => inferInstanceAs (Decidable True)
  | .getQp _ _ => inferInstanceAs (Decidable (_ ∨ _ ∨ _))
  | .freeQp _ _ _ => inferInstanceAs (Decidable (∀ _, _))
  | .reclaim _ _ => inferInstanceAs (Decidable (∀ _, _))

/-- The calls that fail. -/
def Fails (R : Procs P) (s : QpWorld P) : QpAct P → Prop
  | .getQp p port => (s.zone.getQp port (R.pid p) (R.randomId p)).2 = none
  | .freeQp p port i => (s.zone.freeQp port i (R.pid p)).2 ≠ .ok
  | _ => False

/-- A queue pair has at most one owner, those with an owner are the ones that are owned in the
table, and the counter is right. -/
structure Sound (s : QpWorld P) : Prop where
  unique : ∀ p q port i, (p, port, i) ∈ s.owners → (q, port, i) ∈ s.owners → p = q
  listed : ∀ port i, (s.zone.owner port i).pid ≠ 0 ↔ ∃ p, (p, port, i) ∈ s.owners
  counts : s.zone.Counts

/-- A queue pair is released by its owner, or by the daemon when its owner is dead; a call that
fails changes no ownership. -/
structure StepSound (R : Procs P) (s : QpWorld P) (a : QpAct P) (s' : QpWorld P) : Prop where
  released : ∀ port i, (s.zone.owner port i).pid ≠ 0 → (s'.zone.owner port i).pid = 0 →
    ∃ p, (p, port, i) ∈ s.owners ∧
      (a = .freeQp p port i ∨ p ∉ s.live ∧ ∃ allowed, a = .reclaim port allowed)
  failed : Fails R s a → s'.zone.owner = s.zone.owner ∧ s'.owners = s.owners

/-! ## Runs -/

/-- The table says who owns the queue pair `i`. -/
def CellOk (R : Procs P) (s : QpWorld P) (port : PhyPort) (i : QpId) : Prop :=
  ((s.zone.owner port i).pid = 0 ∧ ∀ p, (p, port, i) ∉ s.owners) ∨
    ∃ p, (∀ q, (q, port, i) ∈ s.owners ↔ q = p) ∧ (s.zone.owner port i).pid = R.pid p

structure Inv (R : Procs P) (s : QpWorld P) : Prop where
  cell : ∀ port i, CellOk R s port i
  counts : s.zone.Counts
  pids : ∀ p ∈ s.live, ∀ q ∈ s.live, R.pid p = R.pid q → p = q

omit [DecidableEq P] in
theorem Inv.init (R : Procs P) : Inv R (init : QpWorld P) where
  cell := fun _ _ => Or.inl ⟨rfl, fun _ => List.not_mem_nil⟩
  counts := OwnershipMemzone.counts_init
  pids := fun _ hp => absurd hp List.not_mem_nil

omit [DecidableEq P] in
theorem Inv.sound (h : Inv R s) : Sound s where
  unique := by
    intro p q port i hp hq
    rcases h.cell port i with ⟨-, hnone⟩ | ⟨r, hr, -⟩
    · exact absurd hp (hnone p)
    · rw [(hr p).mp hp, (hr q).mp hq]
  listed := by
    intro port i
    rcases h.cell port i with ⟨hzero, hnone⟩ | ⟨r, hr, hpid⟩
    · exact iff_of_false (not_not.mpr hzero) fun ⟨p, hp⟩ => hnone p hp
    · refine iff_of_true ?_ ⟨r, (hr r).mpr rfl⟩
      rw [hpid]
      exact (R.pid_pos r).ne'
  counts := h.counts

omit [DecidableEq P] in
/-- A cell whose PID and owners did not change. -/
theorem CellOk.congr {port : PhyPort} {i : QpId} (h : CellOk R s port i)
    (hpid : (s'.zone.owner port i).pid = (s.zone.owner port i).pid)
    (hown : ∀ p, (p, port, i) ∈ s'.owners ↔ (p, port, i) ∈ s.owners) : CellOk R s' port i := by
  unfold CellOk
  simp only [hpid, hown]
  exact h

/-- What a step does to the processes. -/
theorem Inv.pids_step (h : Inv R s) (hg : guard R s a) (hs : step R s a = some s') :
    ∀ p ∈ s'.live, ∀ q ∈ s'.live, R.pid p = R.pid q → p = q := by
  cases a with
  | born r =>
    obtain rfl := Option.some.inj hs
    obtain ⟨-, -, hnew⟩ := hg
    intro p hp q hq hpq
    rcases List.mem_cons.mp hp with hpr | hp'
    · rcases List.mem_cons.mp hq with hqr | hq'
      · rw [hpr, hqr]
      · exact absurd (hpr ▸ hpq).symm (hnew q hq')
    · rcases List.mem_cons.mp hq with hqr | hq'
      · exact absurd (hqr ▸ hpq) (hnew p hp')
      · exact h.pids p hp' q hq' hpq
  | die r =>
    obtain rfl := Option.some.inj hs
    intro p hp q hq hpq
    exact h.pids p (List.mem_of_mem_filter hp) q (List.mem_of_mem_filter hq) hpq
  | getQp r port =>
    obtain rfl := Option.some.inj hs
    exact h.pids
  | freeQp r port i =>
    obtain rfl := Option.some.inj hs
    exact h.pids
  | reclaim port allowed =>
    obtain rfl := Option.some.inj hs
    exact h.pids

/-- `get_qp` keeps the table and the counter right. -/
theorem Inv.getQp {p : P} {port : PhyPort} (h : Inv R s) (hsafe : Safe R s (.getQp p port))
    (hs : step R s (.getQp p port) = some s') :
    (∀ port' j, CellOk R s' port' j) ∧ s'.zone.Counts ∧ StepSound R s (.getQp p port) s' := by
  obtain rfl := Option.some.inj hs
  rcases s.zone.getQp_cases port (R.pid p) (R.randomId p) with
    ⟨hret, -⟩ | ⟨i, hfree, hclash, hret⟩
  · rw [hret]
    refine ⟨h.cell, h.counts, fun port' j hne hzero => absurd hzero hne, fun _ => ⟨rfl, rfl⟩⟩
  · have hroom : s.zone.owned.card < kMaxQueuesPerPort := by
      rcases hsafe with hbad | hfull | hroom
      · exact absurd hbad hclash
      · exact absurd hfree (hfull i)
      · exact hroom
    have hpos : R.pid p ≠ 0 := (R.pid_pos p).ne'
    have hcell : ∀ port' j, ((s.zone.nextEpoch.setOwner port i
        ⟨R.pid p, R.randomId p⟩).takeOne.owner port' j)
        = if port' = port ∧ j = i then ⟨R.pid p, R.randomId p⟩ else s.zone.owner port' j := by
      intro port' j
      rw [OwnershipMemzone.takeOne_owner, OwnershipMemzone.setOwner_owner,
        OwnershipMemzone.nextEpoch_owner]
    rw [hret]
    refine ⟨fun port' j => ?_, ?_, ?_, ?_⟩
    · by_cases hq : port' = port ∧ j = i
      · obtain ⟨rfl, rfl⟩ := hq
        -- nobody owned it before
        have hnone : ∀ q, (q, port', j) ∉ s.owners := by
          rcases h.cell port' j with ⟨-, hnone⟩ | ⟨r, -, hpid⟩
          · exact hnone
          · exact absurd (hpid.symm.trans hfree) (R.pid_pos r).ne'
        refine Or.inr ⟨p, fun q => ?_, ?_⟩
        · simp [hnone]
        · rw [hcell, if_pos ⟨rfl, rfl⟩]
      · refine (h.cell port' j).congr ?_ fun q => ?_
        · dsimp only
          rw [hcell, if_neg hq]
        · have hne : ¬ (q = p ∧ port' = port ∧ j = i) := fun hh => hq hh.2
          simp [hne]
    · exact OwnershipMemzone.Counts.take (z := s.zone.nextEpoch) h.counts hfree hroom hpos
    · intro port' j hne hzero
      rw [hcell] at hzero
      split_ifs at hzero
      · exact absurd hzero hpos
      · exact absurd hzero hne
    · intro hfail
      simp only [Fails, hret] at hfail
      cases hfail

/-- `free_qp` keeps the table and the counter right. -/
theorem Inv.freeQp {p : P} {port : PhyPort} {i : QpId} (h : Inv R s) (hlive : p ∈ s.live)
    (hsafe : Safe R s (.freeQp p port i)) (hs : step R s (.freeQp p port i) = some s') :
    (∀ port' j, CellOk R s' port' j) ∧ s'.zone.Counts ∧ StepSound R s (.freeQp p port i) s' := by
  obtain rfl := Option.some.inj hs
  rcases s.zone.freeQp_cases port i (R.pid p) with ⟨hzone, hret⟩ | ⟨hown, hpid, hret⟩
  · rw [hzone, if_neg hret]
    exact ⟨h.cell, h.counts, fun port' j hne hzero => absurd hzero hne, fun _ => ⟨rfl, rfl⟩⟩
  · -- the owner has the PID of the caller, and lives
    have howner : ∀ q, (q, port, i) ∈ s.owners ↔ q = p := by
      rcases h.cell port i with ⟨hzero, -⟩ | ⟨r, hr, hrpid⟩
      · exact absurd hzero hown
      · have hsame : R.pid r = R.pid p := hrpid.symm.trans hpid
        have hrlive : r ∈ s.live := hsafe (r, port, i) ((hr r).mpr rfl) rfl hsame
        obtain rfl := h.pids r hrlive p hlive hsame
        exact hr
    have hcell : ∀ port' j, ((s.zone.nextEpoch.giveOne.setOwner port i
        { s.zone.owner port i with pid := 0 }).owner port' j)
        = if port' = port ∧ j = i then { s.zone.owner port i with pid := 0 }
          else s.zone.owner port' j := by
      intro port' j
      rw [OwnershipMemzone.setOwner_owner, OwnershipMemzone.giveOne_owner,
        OwnershipMemzone.nextEpoch_owner]
    rw [hret]
    refine ⟨fun port' j => ?_, ?_, ?_, ?_⟩
    · by_cases hq : port' = port ∧ j = i
      · obtain ⟨rfl, rfl⟩ := hq
        refine Or.inl ⟨?_, fun q => ?_⟩
        · rw [hcell, if_pos ⟨rfl, rfl⟩]
        · simp [howner]
      · refine (h.cell port' j).congr ?_ fun q => ?_
        · rw [hcell, if_neg hq]
        · have hne : (q, port', j) ≠ (p, port, i) := by
            rintro ⟨⟩
            exact hq ⟨rfl, rfl⟩
          rw [if_pos rfl, List.mem_filter, decide_eq_true hne]
          exact and_iff_left rfl
    · exact OwnershipMemzone.Counts.release (z := s.zone.nextEpoch) h.counts hown rfl
    · intro port' j hne hzero
      rw [hcell] at hzero
      split_ifs at hzero with hq
      · obtain ⟨rfl, rfl⟩ := hq
        exact ⟨p, (howner p).mpr rfl, Or.inl rfl⟩
      · exact absurd hzero hne
    · intro hfail
      simp only [Fails, hret] at hfail
      exact absurd rfl hfail

/-- The daemon keeps the table and the counter right. -/
theorem Inv.reclaim {port : PhyPort} {allowed : P → Bool} (h : Inv R s)
    (hsafe : Safe R s (.reclaim port allowed)) (hs : step R s (.reclaim port allowed) = some s') :
    (∀ port' j, CellOk R s' port' j) ∧ s'.zone.Counts ∧
      StepSound R s (.reclaim port allowed) s' := by
  have hkill : s.kill R allowed 0 = true := by
    simp [kill]
  have hcell := OwnershipMemzone.daemonReclaim_owner hkill s.zone port
  have hcounts := h.counts.daemonReclaim hkill port
  unfold QpWorld.step at hs
  dsimp only at hs
  generalize s.zone.daemonReclaim (s.kill R allowed) port = zone at hs hcell hcounts
  obtain rfl := Option.some.inj hs
  -- a queue pair for whose PID the signal fails has a dead owner
  have hdead : ∀ j r, (r, port, j) ∈ s.owners →
      s.kill R allowed (R.pid r) = false → r ∉ s.live := by
    intro j r hr hfail hlive
    have hallowed := hsafe (r, port, j) hr rfl hlive
    have hsome : (s.live.any fun p => R.pid p = R.pid r && allowed p) = true :=
      List.any_eq_true.mpr ⟨r, hlive, by simpa using hallowed⟩
    unfold kill at hfail
    rw [hsome, Bool.or_true] at hfail
    cases hfail
  refine ⟨fun port' j => ?_, hcounts, ?_, False.elim⟩
  · by_cases hq : port' = port ∧ s.kill R allowed (s.zone.owner port' j).pid = false
    · have hzero : (zone.owner port' j).pid = 0 := by
        rw [hcell, if_pos hq]
      refine Or.inl ⟨hzero, fun r hr => ?_⟩
      obtain ⟨hmem, hkeep⟩ := List.mem_filter.mp hr
      rcases h.cell port' j with ⟨-, hnone⟩ | ⟨p, hp, hpid⟩
      · exact hnone r hmem
      · obtain rfl := (hp r).mp hmem
        rw [hpid] at hq
        have hgone := hdead j r (hq.1 ▸ hmem) hq.2
        simp [hgone, hzero] at hkeep
    · have hsame : zone.owner port' j = s.zone.owner port' j := by
        rw [hcell, if_neg hq]
      refine (h.cell port' j).congr (congrArg QpOwner.pid hsame) fun r => ?_
      constructor
      · intro hr
        exact List.mem_of_mem_filter hr
      · intro hr
        have hne : (s.zone.owner port' j).pid ≠ 0 := (h.sound.listed port' j).mpr ⟨r, hr⟩
        refine List.mem_filter.mpr ⟨hr, ?_⟩
        simp [hsame, hne]
  · intro port' j hne hzero
    rw [hcell] at hzero
    split_ifs at hzero with hq
    · obtain ⟨rfl, hfail⟩ := hq
      rcases h.cell port' j with ⟨hfree, -⟩ | ⟨p, hp, hpid⟩
      · exact absurd hfree hne
      · rw [hpid] at hfail
        have hmem := (hp p).mpr rfl
        exact ⟨p, hmem, Or.inr ⟨hdead j p hmem hfail, allowed, rfl⟩⟩
    · exact absurd hzero hne

/-- **One step.** -/
theorem Inv.step (h : Inv R s) (hg : guard R s a) (hsafe : Safe R s a)
    (hs : step R s a = some s') : Inv R s' ∧ StepSound R s a s' := by
  have hpids := h.pids_step hg hs
  cases a with
  | born p =>
    obtain rfl := Option.some.inj hs
    exact ⟨⟨h.cell, h.counts, hpids⟩, fun _ _ hne hzero => absurd hzero hne, False.elim⟩
  | die p =>
    obtain rfl := Option.some.inj hs
    exact ⟨⟨h.cell, h.counts, hpids⟩, fun _ _ hne hzero => absurd hzero hne, False.elim⟩
  | getQp p port =>
    obtain ⟨hcell, hcounts, hstep⟩ := h.getQp hsafe hs
    exact ⟨⟨hcell, hcounts, hpids⟩, hstep⟩
  | freeQp p port i =>
    obtain ⟨hcell, hcounts, hstep⟩ := h.freeQp hg hsafe hs
    exact ⟨⟨hcell, hcounts, hpids⟩, hstep⟩
  | reclaim port allowed =>
    obtain ⟨hcell, hcounts, hstep⟩ := h.reclaim hsafe hs
    exact ⟨⟨hcell, hcounts, hpids⟩, hstep⟩

theorem Inv.run (h : Run (fun s a => guard R s a ∧ Safe R s a) (QpWorld.step R) QpWorld.init
    acts s) : Inv R s :=
  h.invariant (Inv.init R) fun _ _ _ hinv hg hs => (hinv.step hg.1 hg.2 hs).1

/-- **Ownership of queue pairs.**  In every run of safe steps a queue pair has at most one owner, the
counter is `kMaxQueuesPerPort` less the queue pairs that are owned, only its owner or the reclaim of
a dead owner releases a queue pair, and calls that fail change no ownership. -/
theorem qp_ownership (R : Procs P)
    (h : Run (fun s a => guard R s a ∧ Safe R s a) (QpWorld.step R) init acts s) :
    Sound s ∧ ∀ a s', guard R s a → Safe R s a → QpWorld.step R s a = some s' →
      StepSound R s a s' :=
  ⟨(Inv.run h).sound, fun _ _ hg hsafe hs => ((Inv.run h).step hg hsafe hs).2⟩

/-- The processes 0 and 2 have the same PID. -/
def sampleProcs : Procs ℕ := ⟨fun p => 1 + p % 2, id, fun _ => Nat.add_pos_left Nat.one_pos _⟩

/-- Two processes take queue pairs of two ports; one returns its own, the other dies. -/
def sampleOwnership : List (QpAct ℕ) :=
  [.born 0, .getQp 0 0, .born 1, .getQp 1 1, .freeQp 0 0 0, .die 1, .reclaim 1 fun _ => true]

theorem qp_ownership_sample :
    ∃ s, Run (fun s a => guard sampleProcs s a ∧ Safe sampleProcs s a) (QpWorld.step sampleProcs)
        init sampleOwnership s ∧ s.zone.numQpsAvailable = 16 ∧ Sound s := by
  have hexec : (exec (fun s a => guard sampleProcs s a ∧ Safe sampleProcs s a)
      (QpWorld.step sampleProcs) init sampleOwnership).map (·.zone.numQpsAvailable) = some 16 := by
    decide +kernel
  obtain ⟨s, hs, hnum⟩ := Option.map_eq_some_iff.mp hexec
  exact ⟨s, run_of_exec hs, hnum, (qp_ownership sampleProcs (run_of_exec hs)).1⟩

/-- A process that takes all queue pairs of one port, and then one of another. -/
def seventeenQps : List (QpAct ℕ) := .born 0 :: (List.replicate 16 (.getQp 0 0) ++ [.getQp 0 1])

/-- A process takes a queue pair and dies, and another one gets its PID. -/
def pidReuse : List (QpAct ℕ) := [.born 0, .getQp 0 0, .die 0, .born 2]

/-- **The counter wraps around** with the seventeenth queue pair, and a process with the PID of a
dead owner releases a queue pair that it does not own. -/
theorem qp_ownership_lost :
    (∃ s, Run (guard sampleProcs) (QpWorld.step sampleProcs) init seventeenQps s ∧ ¬ Sound s) ∧
    ∃ s s', Run (guard sampleProcs) (QpWorld.step sampleProcs) init pidReuse s ∧
      guard sampleProcs s (.freeQp 2 0 0) ∧
      QpWorld.step sampleProcs s (.freeQp 2 0 0) = some s' ∧
      ¬ StepSound sampleProcs s (.freeQp 2 0 0) s' := by
  constructor
  · have hexec : (exec (guard sampleProcs) (QpWorld.step sampleProcs) init seventeenQps).map
        (·.zone.numQpsAvailable) = some (2 ^ 64 - 1) := by
      decide +kernel
    obtain ⟨s, hs, hnum⟩ := Option.map_eq_some_iff.mp hexec
    refine ⟨s, run_of_exec hs, fun hsound => ?_⟩
    have hcounts := hsound.counts
    unfold OwnershipMemzone.Counts kMaxQueuesPerPort at hcounts
    omega
  · have hexec : (exec (guard sampleProcs) (QpWorld.step sampleProcs) init pidReuse).map (fun s =>
        (s.live, s.owners, (s.zone.owner 0 0).pid,
          ((s.zone.freeQp 0 0 1).1.owner 0 0).pid)) = some ([2], [(0, 0, 0)], 1, 0) := by
      decide +kernel
    obtain ⟨s, hs, hval⟩ := Option.map_eq_some_iff.mp hexec
    simp only [Prod.mk.injEq] at hval
    obtain ⟨hlive, howners, hpid, hfreed⟩ := hval
    refine ⟨s, _, run_of_exec hs, ?_, rfl, fun hstep => ?_⟩
    · show 2 ∈ s.live
      simp [hlive]
    · obtain ⟨p, hp, hrel⟩ := hstep.released 0 0 (by simp [hpid]) hfreed
      rw [howners, List.mem_singleton, Prod.mk.injEq] at hp
      rcases hrel with hfree | ⟨-, allowed, hreclaim⟩
      · cases hfree
        exact absurd hp.1 (by decide)
      · cases hreclaim

end QpWorld

end HuiRpc
