/-
# Resetting a client session

Model of `handle_reset_client_st`, which ends a session whose server has failed.  It takes the slots
of the session out of the credit stall queue, and should then fail every request: unlink its slot
from the active list, give the slot back, and invoke the continuation.

* `Resetting` is the `Rpc` of `HuiRpc.RpcQueues` with the slots whose continuation was invoked.  A
  continuation is called and does not call back into the `Rpc`.
* The loop over the slots has the test that selects a slot as an argument.  The code's test is
  `tx_msgbuf_ == nullptr`, which selects the slots without a request.
* The links of a slot that never had a request are null, those of a slot that had one are stale.
* The assertions may be compiled in or not.  `push_back` to a full `FixedVector` without them writes
  behind its array; what the vector is then is an argument (`Build.overflow`).
* The session is buried at the end, so `handleResetClient` returns the queues as they are just
  before.

`reset_client_never` says that no reset does what is meant, and `resetSlots_isSome` that the
opposite test would do it.
-/
import HuiRpc.RpcRuns
import HuiRpc.Sm

namespace HuiRpc

open Runs Queues

/-! ## The model -/

/-- How the code is compiled: whether the assertions are in, and what a `push_back` to a full
free-slot vector leaves if they are not. -/
structure Build where
  asserts : Bool
  overflow : List ℕ → ℕ → List ℕ

/-- An `Rpc` in the middle of a reset.  `failed` are the slots whose continuation was invoked, in
order. -/
structure Resetting where
  rpc : RpcSys
  failed : List ℕ

/-- The `tx_msgbuf_` of slot `i` of session `n`. -/
def RpcSys.txMsgbuf (x : RpcSys) (n i : ℕ) : Option MsgBuf := ((x.sess n).cli.slots i).txMsgbuf

/-- `sslot_free_vec_` of session `n`, its back first. -/
def RpcSys.freeVec (x : RpcSys) (n : ℕ) : List ℕ := (x.sess n).cli.freeVec

/-- The slots of session `n` that have a request. -/
def RpcSys.activeSlots (x : RpcSys) (n : ℕ) : List ℕ :=
  (List.range kSessionReqWindow).filter fun i => (x.txMsgbuf n i).isSome

/-- `FixedVector::push_back`. -/
def Build.pushBack (B : Build) (v : List ℕ) (i : ℕ) : Option (List ℕ) :=
  if v.length < kSessionReqWindow then some (i :: v)
  else if B.asserts then none
  else some (B.overflow v i)

/-- Slot `i` of session `n` has no request. -/
def RpcSys.clearSlot (x : RpcSys) (n i : ℕ) (freeVec : List ℕ) : RpcSys :=
  let t := x.sess n
  x.setSess n { t with cli := { t.cli with
    freeVec := freeVec
    slots := Function.update t.cli.slots i { t.cli.slots i with txMsgbuf := none } } }

namespace Resetting

variable (B : Build) (n : ℕ) (picks : Option MsgBuf → Bool)

/-- One turn of the loop that invokes the continuations. -/
def failSlot (r : Resetting) (i : ℕ) : Option Resetting :=
  if picks (r.rpc.txMsgbuf n i) then
    -- `delete_from_active_rpc_list`
    (r.rpc.active.unlink (.slot n i)).bind fun active =>
      (B.pushBack (r.rpc.freeVec n) i).map fun v =>
        { rpc := { r.rpc.clearSlot n i v with active := active }
          failed := r.failed ++ [i] }
  else some r

/-- The first loop: `stallq_.erase(std::remove(…))` for every slot. -/
def unstall (q : List (ℕ × ℕ)) : List (ℕ × ℕ) :=
  (List.range kSessionReqWindow).foldl (fun q i => q.filter (· ≠ (n, i))) q

/-- Both loops. -/
def resetSlots (x : RpcSys) : Option Resetting :=
  (List.range kSessionReqWindow).foldlM (failSlot B n picks)
    ⟨{ x with stallq := unstall n x.stallq }, []⟩

/-- `handle_reset_client_st`. -/
def handleResetClient (C : SmCfg) (cb : List ApiCall) (s : SmSession) (x : RpcSys) (m : Sm) :
    Option (Resetting × Sm) :=
  (resetSlots B s.localSessionNum Option.isNone x).bind fun r =>
    if B.asserts = true ∧ (r.rpc.freeVec s.localSessionNum).length ≠ kSessionReqWindow then none
    else
      let s' := { s with state := .kDisconnectInProgress }
      let m := (m.write s.localSessionNum s').freeRingEntries
      if B.asserts = true ∧ kNumRxRingEntries < m.ringEntriesAvailable then none
      else ((m.smHandler C cb s' .kDisconnected .kSrvDisconnected).burySession s').map (r, ·)

end Resetting

/-- **What a reset of session `n` should do** to `x`.

* `failed` — the continuation of every request is invoked once, and no other;
* `list` — the active list loses the slots of the session that had a request;
* `stall` — no slot of the session is in the stall queue;
* `free` — the free-slot vector has every index once. -/
structure ResetDone (n : ℕ) (x : RpcSys) (r : Resetting) : Prop where
  failed : r.failed.Perm (x.activeSlots n)
  list : ∀ xs, IsList x.active .root .tail xs →
    IsList r.rpc.active .root .tail (xs.filter (· ∉ (x.activeSlots n).map (Node.slot n)))
  stall : ∀ i, i < kSessionReqWindow → (n, i) ∉ r.rpc.stallq
  free : (r.rpc.freeVec n).Perm (List.range kSessionReqWindow)

/-! ## The loops -/

namespace Resetting

variable {B : Build} {n i j : ℕ} {picks : Option MsgBuf → Bool} {r r' : Resetting} {l : List ℕ}

theorem mem_unstall {q : List (ℕ × ℕ)} {p : ℕ × ℕ} :
    p ∈ unstall n q ↔ p ∈ q ∧ ∀ i, i < kSessionReqWindow → p ≠ (n, i) := by
  have hfold : ∀ (l : List ℕ) (q : List (ℕ × ℕ)),
      p ∈ l.foldl (fun q i => q.filter (· ≠ (n, i))) q ↔ p ∈ q ∧ ∀ i ∈ l, p ≠ (n, i) := by
    intro l
    induction l with
    | nil => simp
    | cons i l ih =>
      intro q
      rw [List.foldl_cons, ih, List.mem_filter, List.forall_mem_cons, decide_eq_true_eq, and_assoc]
  unfold unstall
  rw [hfold]
  simp only [List.mem_range]

/-- What a turn can do. -/
theorem failSlot_cases (h : failSlot B n picks r i = some r') :
    (picks (r.rpc.txMsgbuf n i) = true ∧ ∃ active v,
      r.rpc.active.unlink (.slot n i) = some active ∧ B.pushBack (r.rpc.freeVec n) i = some v ∧
      r' = ⟨{ r.rpc.clearSlot n i v with active := active }, r.failed ++ [i]⟩) ∨
    (picks (r.rpc.txMsgbuf n i) = false ∧ r' = r) := by
  unfold failSlot at h
  split_ifs at h with hp
  · obtain ⟨active, hun, h⟩ := Option.bind_eq_some_iff.mp h
    obtain ⟨v, hv, rfl⟩ := Option.map_eq_some_iff.mp h
    exact Or.inl ⟨hp, active, v, hun, hv, rfl⟩
  · exact Or.inr ⟨Bool.eq_false_iff.mpr hp, (Option.some.inj h).symm⟩

/-- Clearing a slot leaves the others alone. -/
theorem txMsgbuf_clearSlot {x : RpcSys} {v : List ℕ} (hj : j ≠ i) :
    (x.clearSlot n i v).txMsgbuf n j = x.txMsgbuf n j := by
  unfold RpcSys.txMsgbuf RpcSys.clearSlot RpcSys.setSess
  dsimp only
  rw [Function.update_self]
  dsimp only
  rw [Function.update_of_ne hj]

theorem filter_clearSlot {x : RpcSys} {v : List ℕ} (hi : i ∉ l) :
    l.filter (fun j => picks ((x.clearSlot n i v).txMsgbuf n j))
      = l.filter fun j => picks (x.txMsgbuf n j) := by
  apply List.filter_congr
  intro j hj
  have hji : j ≠ i := by
    rintro rfl
    exact hi hj
  rw [txMsgbuf_clearSlot hji]

theorem freeVec_clearSlot {x : RpcSys} {v : List ℕ} : (x.clearSlot n i v).freeVec n = v := by
  unfold RpcSys.freeVec RpcSys.clearSlot RpcSys.setSess
  dsimp only
  rw [Function.update_self]

/-- **The loop invokes the continuations of the slots that the test selects.** -/
theorem foldlM_failed (hnd : l.Nodup) (h : l.foldlM (failSlot B n picks) r = some r') :
    r'.failed = r.failed ++ l.filter fun i => picks (r.rpc.txMsgbuf n i) := by
  induction l generalizing r with
  | nil =>
    obtain rfl := Option.some.inj h
    rw [List.filter_nil, List.append_nil]
  | cons a l ih =>
    obtain ⟨ha, hnd⟩ := List.nodup_cons.mp hnd
    obtain ⟨r₁, hr₁, h⟩ := Option.bind_eq_some_iff.mp h
    rw [ih hnd h, List.filter_cons]
    rcases failSlot_cases hr₁ with ⟨hp, active, v, -, -, rfl⟩ | ⟨hp, rfl⟩
    · -- the slots that come later are as before
      have hsame : l.filter (fun j => picks ((r.rpc.clearSlot n a v).txMsgbuf n j))
          = l.filter fun j => picks (r.rpc.txMsgbuf n j) := filter_clearSlot ha
      rw [if_pos hp, ← hsame]
      exact List.append_assoc _ _ _
    · rw [if_neg (by rw [hp]; decide)]

theorem resetSlots_failed {x : RpcSys} (h : resetSlots B n picks x = some r) :
    r.failed = (List.range kSessionReqWindow).filter fun i => picks (x.txMsgbuf n i) := by
  unfold resetSlots at h
  generalize unstall n x.stallq = q at h
  exact foldlM_failed List.nodup_range h

/-! ## What the code does -/

/-- **No reset does what is meant.**  Whatever the state of the session and its `Rpc`, and whether
the assertions are compiled in or not. -/
theorem reset_client_never (B : Build) (C : SmCfg) (cb : List ApiCall) (s : SmSession) (x : RpcSys)
    (m : Sm) : ¬ ∃ r m', handleResetClient B C cb s x m = some (r, m') ∧
      ResetDone s.localSessionNum x r := by
  rintro ⟨r, m', h, hdone⟩
  obtain ⟨r₁, hr₁, h⟩ := Option.bind_eq_some_iff.mp h
  have hfailed := resetSlots_failed hr₁
  obtain rfl : r₁ = r := by
    dsimp only at h
    split_ifs at h
    obtain ⟨_, -, heq⟩ := Option.map_eq_some_iff.mp h
    exact (Prod.mk.inj heq).1
  -- slot 0 has a request or not, and its continuation is invoked or not
  have hmem := hdone.failed.mem_iff (a := 0)
  rw [hfailed] at hmem
  unfold RpcSys.activeSlots at hmem
  rw [List.mem_filter, List.mem_filter] at hmem
  cases hbuf : x.txMsgbuf s.localSessionNum 0 with
  | none =>
    rw [hbuf] at hmem
    exact absurd (hmem.mp ⟨by decide, rfl⟩).2 Bool.false_ne_true
  | some b =>
    rw [hbuf] at hmem
    exact absurd (hmem.mpr ⟨by decide, rfl⟩).2 Bool.false_ne_true

/-- A session with a request in every slot: nothing happens to them. -/
theorem resetSlots_full {x : RpcSys} (h : ∀ i, i < kSessionReqWindow → x.txMsgbuf n i ≠ none) :
    resetSlots B n Option.isNone x = some ⟨{ x with stallq := unstall n x.stallq }, []⟩ := by
  have hturn : ∀ (l : List ℕ) (r : Resetting), (∀ i ∈ l, r.rpc.txMsgbuf n i ≠ none) →
      l.foldlM (failSlot B n Option.isNone) r = some r := by
    intro l
    induction l with
    | nil => exact fun _ _ => rfl
    | cons a l ih =>
      intro r hr
      have hskip : failSlot B n Option.isNone r a = some r := by
        refine if_neg fun hnone => ?_
        exact hr a List.mem_cons_self (Option.isNone_iff_eq_none.mp hnone)
      rw [List.foldlM_cons, hskip]
      exact ih r fun i hi => hr i (List.mem_cons_of_mem _ hi)
  unfold resetSlots
  generalize unstall n x.stallq = q
  exact hturn _ _ fun i hi => h i (List.mem_range.mp hi)

/-- A session whose first slot has a request, and whose second slot never had one: the reset goes
through the null link of the second slot. -/
theorem resetSlots_unused {x : RpcSys} (h0 : x.txMsgbuf n 0 ≠ none) (h1 : x.txMsgbuf n 1 = none)
    (hnull : x.active.prev (.slot n 1) = none) : resetSlots B n Option.isNone x = none := by
  have hrange : List.range kSessionReqWindow = 0 :: 1 :: List.range' 2 30 := by decide
  unfold resetSlots
  generalize unstall n x.stallq = q
  rw [hrange, List.foldlM_cons]
  have hskip : failSlot B n Option.isNone ⟨{ x with stallq := q }, []⟩ 0
      = some ⟨{ x with stallq := q }, []⟩ :=
    if_neg fun hnone => h0 (Option.isNone_iff_eq_none.mp hnone)
  have hcrash : failSlot B n Option.isNone ⟨{ x with stallq := q }, []⟩ 1 = none := by
    have hunlink : x.active.unlink (.slot n 1) = none := by
      unfold Links.unlink
      rw [hnull, Option.bind_none]
    refine (if_pos (Option.isNone_iff_eq_none.mpr h1)).trans ?_
    rw [hunlink, Option.bind_none]
  rw [hskip]
  show List.foldlM _ _ (1 :: _) = none
  rw [List.foldlM_cons, hcrash]
  rfl

/-- A build without assertions. -/
def releaseBuild : Build := ⟨false, fun v _ => v⟩

/-- The `Rpc` that has session 0 to the server `s`. -/
def sampleResetCfg : SmCfg := ⟨⟨['c'], 31850, 0⟩, 0, 1, false⟩

/-- **A reset loses the requests.**  With one request, in slot 0, it goes through the null links of
slot 1, however it is compiled.  With a request in every slot it returns, if the assertion on
the vector is not compiled in, and has invoked no continuation and given back no slot. -/
theorem reset_client_requests_lost :
    (∃ x, Run RpcSys.InOrder (RpcSys.step fun _ => sampleEnv) RpcSys.init
        [.enqueue 0 1 0 default] x ∧ x.activeSlots 0 = [0] ∧
      ∀ B C cb s m, s.localSessionNum = 0 → handleResetClient B C cb s x m = none) ∧
    ∃ x, Run RpcSys.InOrder (RpcSys.step fun _ => sampleEnv) RpcSys.init
        (List.replicate 32 (.enqueue 0 1 0 default)) x ∧ x.activeSlots 0 = List.range 32 ∧
      ∃ r m', handleResetClient releaseBuild sampleResetCfg []
        (Sm.newClient sampleResetCfg ['s'] 31850 0 7 0) x
        (Sm.init.openClient sampleResetCfg ['s'] 31850 0 7) = some (r, m') ∧
      r.failed = [] ∧ r.rpc.freeVec 0 = [] := by
  constructor
  · have hexec : ((exec RpcSys.InOrder (RpcSys.step fun _ => sampleEnv) RpcSys.init
        [.enqueue 0 1 0 default]).map fun x => (x.activeSlots 0, (x.txMsgbuf 0 0).isSome,
          (x.txMsgbuf 0 1).isNone, x.active.prev (.slot 0 1))) = some ([0], true, true, none) := by
      decide +kernel
    obtain ⟨x, hx, hval⟩ := Option.map_eq_some_iff.mp hexec
    simp only [Prod.mk.injEq] at hval
    obtain ⟨hact, h0, h1, hnull⟩ := hval
    refine ⟨x, run_of_exec hx, hact, ?_⟩
    intro B C cb s m hs
    unfold handleResetClient
    rw [hs, resetSlots_unused (Option.isSome_iff_ne_none.mp h0) (Option.isNone_iff_eq_none.mp h1)
      hnull]
    rfl
  · have hexec : ((exec RpcSys.InOrder (RpcSys.step fun _ => sampleEnv) RpcSys.init
        (List.replicate 32 (.enqueue 0 1 0 default))).map fun x =>
          (x.activeSlots 0, x.freeVec 0)) = some (List.range 32, []) := by
      decide +kernel
    obtain ⟨x, hx, hval⟩ := Option.map_eq_some_iff.mp hexec
    obtain ⟨hact, hfree⟩ := Prod.mk.inj hval
    have hfull : ∀ i, i < kSessionReqWindow → x.txMsgbuf 0 i ≠ none := by
      intro i hi
      have hmem : i ∈ x.activeSlots 0 := by
        rw [hact]
        exact List.mem_range.mpr hi
      exact Option.isSome_iff_ne_none.mp (List.mem_filter.mp hmem).2
    refine ⟨x, run_of_exec hx, hact, ?_⟩
    unfold handleResetClient
    rw [show (Sm.newClient sampleResetCfg ['s'] 31850 0 7 0).localSessionNum = 0 from rfl,
      resetSlots_full hfull]
    generalize unstall 0 x.stallq = q
    exact ⟨_, _, rfl, rfl, hfree⟩

/-! ## The opposite test -/

theorem filter_notMem_cons {x : Node} {xs ys : List Node} (hnd : xs.Nodup) :
    xs.filter (· ∉ x :: ys) = (xs.erase x).filter (· ∉ ys) := by
  rw [hnd.erase_eq_filter, List.filter_filter]
  apply List.filter_congr
  intro y _
  by_cases hyx : y = x
  · simp [hyx]
  · simp [hyx]

/-- The turn of a slot that has a request, is in the active list and finds room in the vector. -/
theorem failSlot_isSome {xs : List Node} (hlist : IsList r.rpc.active .root .tail xs)
    (hmem : Node.slot n i ∈ xs) (hp : (r.rpc.txMsgbuf n i).isSome = true)
    (hroom : (r.rpc.freeVec n).length < kSessionReqWindow) :
    ∃ active, IsList active .root .tail (xs.erase (.slot n i)) ∧
      failSlot B n Option.isSome r i
        = some ⟨{ r.rpc.clearSlot n i (i :: r.rpc.freeVec n) with active := active },
          r.failed ++ [i]⟩ := by
  obtain ⟨active, hun, hlist'⟩ := hlist.unlink hmem
  have hpush : B.pushBack (r.rpc.freeVec n) i = some (i :: r.rpc.freeVec n) := if_pos hroom
  refine ⟨active, hlist', ?_⟩
  unfold failSlot
  rw [if_pos hp, hun, Option.bind_some, hpush, Option.map_some]

/-- The loop with the opposite test, on slots whose requests are in the active list. -/
theorem foldlM_isSome {xs : List Node} (hnd : l.Nodup)
    (hlist : IsList r.rpc.active .root .tail xs)
    (hmem : ∀ i ∈ l, (r.rpc.txMsgbuf n i).isSome = true → Node.slot n i ∈ xs)
    (hroom : (r.rpc.freeVec n).length + (l.filter fun i => (r.rpc.txMsgbuf n i).isSome).length
      ≤ kSessionReqWindow) :
    ∃ r', l.foldlM (failSlot B n Option.isSome) r = some r' ∧ r'.rpc.stallq = r.rpc.stallq ∧
      (r'.rpc.freeVec n).Perm
        ((l.filter fun i => (r.rpc.txMsgbuf n i).isSome) ++ r.rpc.freeVec n) ∧
      IsList r'.rpc.active .root .tail
        (xs.filter (· ∉ (l.filter fun i => (r.rpc.txMsgbuf n i).isSome).map (Node.slot n))) := by
  induction l generalizing r xs with
  | nil =>
    simpa using hlist
  | cons a l ih =>
    obtain ⟨ha, hnd⟩ := List.nodup_cons.mp hnd
    have hmem' : ∀ i ∈ l, (r.rpc.txMsgbuf n i).isSome = true → Node.slot n i ∈ xs := fun i hi =>
      hmem i (List.mem_cons_of_mem _ hi)
    rw [List.filter_cons] at hroom ⊢
    by_cases hp : (r.rpc.txMsgbuf n a).isSome = true
    · rw [if_pos hp] at hroom ⊢
      rw [List.length_cons] at hroom
      obtain ⟨active, hlist', hturn⟩ :=
        @failSlot_isSome B n a r xs hlist (hmem a List.mem_cons_self hp) hp (by omega)
      set r₁ : Resetting := ⟨{ r.rpc.clearSlot n a (a :: r.rpc.freeVec n) with active := active },
        r.failed ++ [a]⟩ with hr₁
      have hfree : r₁.rpc.freeVec n = a :: r.rpc.freeVec n := freeVec_clearSlot
      have hsame : (l.filter fun i => (r₁.rpc.txMsgbuf n i).isSome)
          = l.filter fun i => (r.rpc.txMsgbuf n i).isSome := filter_clearSlot ha
      -- the other slots are still in the list
      have hstay : ∀ i ∈ l, (r₁.rpc.txMsgbuf n i).isSome = true →
          Node.slot n i ∈ xs.erase (.slot n a) := by
        intro i hi hsome
        have hia : i ≠ a := by
          rintro rfl
          exact ha hi
        rw [show r₁.rpc.txMsgbuf n i = r.rpc.txMsgbuf n i from txMsgbuf_clearSlot hia] at hsome
        refine hlist.nodup_mid.mem_erase_iff.mpr ⟨?_, hmem' i hi hsome⟩
        exact fun he => hia (Node.slot.inj he).2
      obtain ⟨r', hr', hstall, hperm, hrest⟩ := ih hnd hlist' hstay (by
        rw [hsame, hfree, List.length_cons]
        omega)
      rw [hsame, hfree] at hperm
      rw [hsame, ← filter_notMem_cons hlist.nodup_mid] at hrest
      refine ⟨r', ?_, hstall, hperm.trans List.perm_middle, ?_⟩
      · rw [List.foldlM_cons, hturn]
        exact hr'
      · exact hrest
    · rw [if_neg hp] at hroom ⊢
      obtain ⟨r', hr', hrest⟩ := ih hnd hlist hmem' hroom
      refine ⟨r', ?_, hrest⟩
      have hturn : failSlot B n Option.isSome r a = some r := if_neg hp
      rw [List.foldlM_cons, hturn]
      exact hr'

/-- **With the opposite test** the loops do what a reset should do, in every state of a run in which
packets arrive in order. -/
theorem resetSlots_isSome {E : ℕ → Env} {x : RpcSys} (h : RpcInv E x) (B : Build) (n : ℕ) :
    ∃ r, resetSlots B n Option.isSome x = some r ∧ ResetDone n x r := by
  obtain ⟨xs, hlist, hmem⟩ := h.active
  have htick := (h.sess n).books.tickets
  have hnd : (x.freeVec n).Nodup := htick.freeNodup
  have hfree : ∀ i, i ∈ x.freeVec n ↔ i < kSessionReqWindow ∧ x.txMsgbuf n i = none := fun i =>
    (htick.mem_free i).trans (and_congr_right fun _ => not_not)
  -- the slots with a request and the free ones are all slots
  have hall : (x.activeSlots n ++ x.freeVec n).Perm (List.range kSessionReqWindow) := by
    have hactive : ∀ i, i ∈ x.activeSlots n ↔ i < kSessionReqWindow ∧ x.txMsgbuf n i ≠ none := by
      intro i
      unfold RpcSys.activeSlots
      rw [List.mem_filter, List.mem_range, Option.isSome_iff_ne_none]
    refine (List.perm_ext_iff_of_nodup ?_ List.nodup_range).mpr ?_
    · refine List.nodup_append.mpr ⟨List.nodup_range.filter _, hnd, ?_⟩
      rintro i hi j hj rfl
      exact ((hactive i).mp hi).2 ((hfree i).mp hj).2
    · intro i
      rw [List.mem_append, hactive, hfree, List.mem_range, ← and_or_left]
      exact and_iff_left (ne_or_eq _ _)
  have hlen := hall.length_eq
  rw [List.length_append] at hlen
  have hwait : ∀ i, i < kSessionReqWindow → (n, i) ∉ unstall n x.stallq := fun i hi hm =>
    (mem_unstall.mp hm).2 i hi rfl
  unfold resetSlots
  generalize unstall n x.stallq = q at hwait
  obtain ⟨r, hr, hstall, hperm, hlist'⟩ := @foldlM_isSome B n ⟨{ x with stallq := q }, []⟩
    (List.range kSessionReqWindow) xs List.nodup_range hlist
    (fun i hi hsome => (hmem n i).mpr ⟨List.mem_range.mp hi, Option.isSome_iff_ne_none.mp hsome⟩)
    (by
      rw [Nat.add_comm]
      exact hlen.le)
  refine ⟨r, hr, ?_, ?_, ?_, ?_⟩
  · exact List.Perm.of_eq (foldlM_failed List.nodup_range hr)
  · intro ys hys
    rw [hys.unique hlist]
    exact hlist'
  · rw [hstall]
    exact hwait
  · exact hperm.trans hall

end Resetting

end HuiRpc
