/-
# The replicated state machine's server

`client_req_handler` and the commit poll of `server_func` in `apps/smr/server.h`.  A request that
reaches the leader is saved in `leader_saveinfo`, of which there is one, and answered when its log
entry is committed; every other request is answered at once.

* What the Raft library returns is an argument of the step: the current leader, the result of
  `raft_recv_entry`, and the commit status of the saved entry.
* An iteration of the main loop is any number of requests and then a poll; `init_erpc` also runs
  the event loop.  Here requests and polls come in any order.
* `rt_assert` throws: the server takes no step after it.  The asserts are compiled out.
* Requests passed in, requests accepted and the responses are recorded with their handles.

* `run_counts` — in every run a handle is answered at most as often as it was passed in;
* `handles_kept_iff` — no accepted handle is ever forgotten iff `in_use` is false whenever a
  request reaches the leader.
-/
import HuiRpc.Lib.Runs

namespace HuiRpc

open Runs

/-- `client_resp_t`. -/
inductive ClientResp
  | success
  | failRedirect (leaderNodeId : ℤ)
  | failTryAgain
  deriving DecidableEq

/-- `leader_saveinfo`, with what was passed in, accepted and answered. -/
structure SmrServer (H : Type) where
  inUse : Bool
  reqHandle : Option H
  passed : List H
  accepted : List H
  responses : List (H × ClientResp)
  thrown : Bool

/-- A call of `client_req_handler`, with the id of the current leader if there is one and the
result of `raft_recv_entry`; and the end of an iteration of the main loop, with the commit
status. -/
inductive SmrAct (H : Type)
  | clientReq (reqHandle : H) (leader : Option ℤ) (recvEntry : ℤ)
  | poll (commitStatus : ℤ)

/-- A request for which this node is the leader. -/
def SmrAct.reachesLeader {H : Type} (nodeId : ℤ) : SmrAct H → Bool
  | clientReq _ leader _ => leader == some nodeId
  | poll _ => false

namespace SmrServer

variable {H : Type}

def init : SmrServer H := ⟨false, none, [], [], [], false⟩

/-- `send_client_response`. -/
def sendClientResponse (s : SmrServer H) (h : H) (resp : ClientResp) : SmrServer H :=
  { s with responses := s.responses ++ [(h, resp)] }

/-- `client_req_handler`. -/
def clientReqHandler (nodeId : ℤ) (s : SmrServer H) (h : H) (leader : Option ℤ)
    (recvEntry : ℤ) : SmrServer H :=
  let s := { s with passed := s.passed ++ [h] }
  match leader with
  | none => s.sendClientResponse h .failTryAgain
  | some leaderNodeId =>
    if leaderNodeId ≠ nodeId then s.sendClientResponse h (.failRedirect leaderNodeId)
    else
      { s with
        inUse := true
        reqHandle := some h
        accepted := s.accepted ++ [h]
        thrown := s.thrown || recvEntry != 0 }

/-- The end of an iteration of `server_func`. -/
def pollCommit (s : SmrServer H) (commitStatus : ℤ) : SmrServer H :=
  match s.inUse, s.reqHandle with
  | true, some h =>
    if commitStatus = 1 then { s with inUse := false }.sendClientResponse h .success else s
  | _, _ => s

def step (nodeId : ℤ) (s : SmrServer H) : SmrAct H → Option (SmrServer H)
  | .clientReq h leader recvEntry => some (s.clientReqHandler nodeId h leader recvEntry)
  | .poll commitStatus => some (s.pollCommit commitStatus)

/-- The server still runs. -/
def Live (s : SmrServer H) (_ : SmrAct H) : Prop := s.thrown = false

/-- A request reaches the leader only while no handle is saved. -/
def SlotFree (nodeId : ℤ) (s : SmrServer H) (a : SmrAct H) : Prop :=
  Live s a ∧ (a.reachesLeader nodeId = true → s.inUse = false)

variable {nodeId : ℤ} {s s' : SmrServer H} {a : SmrAct H} {acts : List (SmrAct H)}

/-! ## What a step can do -/

/-- A request is answered at once, a request is saved, the saved one is answered, or nothing
happens. -/
theorem step_cases (hs : step nodeId s a = some s') :
    (∃ h resp, a.reachesLeader nodeId = false ∧ resp ≠ .success ∧
      s' = { s with passed := s.passed ++ [h], responses := s.responses ++ [(h, resp)] }) ∨
    (∃ h, ∃ e : ℤ, a.reachesLeader nodeId = true ∧
      s' = { s with inUse := true, reqHandle := some h, passed := s.passed ++ [h],
                    accepted := s.accepted ++ [h], thrown := s.thrown || e != 0 }) ∨
    (∃ h, a.reachesLeader nodeId = false ∧ s.inUse = true ∧ s.reqHandle = some h ∧
      s' = { s with inUse := false, responses := s.responses ++ [(h, .success)] }) ∨
    (a.reachesLeader nodeId = false ∧ s' = s) := by
  cases a with
  | clientReq h leader e =>
    obtain rfl := Option.some.inj hs
    unfold clientReqHandler
    cases leader with
    | none => exact Or.inl ⟨h, .failTryAgain, rfl, by simp, rfl⟩
    | some leaderNodeId =>
      dsimp only
      split_ifs with hne
      · exact Or.inl ⟨h, .failRedirect leaderNodeId, by simpa [SmrAct.reachesLeader] using hne,
          by simp, rfl⟩
      · exact Or.inr (Or.inl ⟨h, e, by simpa [SmrAct.reachesLeader] using hne, rfl⟩)
  | poll status =>
    obtain rfl := Option.some.inj hs
    unfold pollCommit
    split
    · next h hin hreq =>
      split_ifs
      · exact Or.inr (Or.inr (Or.inl ⟨h, rfl, hin, hreq, rfl⟩))
      · exact Or.inr (Or.inr (Or.inr ⟨rfl, rfl⟩))
    · exact Or.inr (Or.inr (Or.inr ⟨rfl, rfl⟩))

/-! ## Counts -/

variable [DecidableEq H]

/-- One if the handle is the one in `leader_saveinfo`. -/
def saved (s : SmrServer H) (h : H) : ℕ := if s.inUse = true ∧ s.reqHandle = some h then 1 else 0

/-- How often a handle was answered, and how often with success. -/
def answered (s : SmrServer H) (h : H) : ℕ := s.responses.countP fun r => r.1 = h

def succeeded (s : SmrServer H) (h : H) : ℕ := s.responses.count (h, .success)

/-- **No handle is forgotten**: of the times that a handle was accepted, all are answered but the
one that is saved. -/
def Kept (s : SmrServer H) : Prop := ∀ h, s.accepted.count h ≤ s.succeeded h + s.saved h

theorem count_snoc (l : List H) (h h' : H) :
    (l ++ [h]).count h' = l.count h' + if h = h' then 1 else 0 := by
  rw [List.count_append, List.count_singleton]
  simp

theorem answered_respond (s : SmrServer H) (h h' : H) (resp : ClientResp) :
    (s.sendClientResponse h resp).answered h' = s.answered h' + if h = h' then 1 else 0 := by
  unfold answered sendClientResponse
  simp [List.countP_cons]

theorem succeeded_respond (s : SmrServer H) (h h' : H) (resp : ClientResp) :
    (s.sendClientResponse h resp).succeeded h'
      = s.succeeded h' + if h = h' ∧ resp = .success then 1 else 0 := by
  unfold succeeded sendClientResponse
  simp [List.count_singleton]

/-- How a step changes the five numbers. -/
structure Moves (s s' : SmrServer H) (passed accepted answered succeeded : H → ℕ)
    (saved : H → ℕ) : Prop where
  passed : ∀ h, s'.passed.count h = s.passed.count h + passed h
  accepted : ∀ h, s'.accepted.count h = s.accepted.count h + accepted h
  answered : ∀ h, s'.answered h = s.answered h + answered h
  succeeded : ∀ h, s'.succeeded h = s.succeeded h + succeeded h
  saved : ∀ h, s'.saved h = saved h

/-- The step in numbers: a request is answered at once, a request is saved, the saved one is
answered, or nothing happens. -/
theorem step_moves (hs : step nodeId s a = some s') :
    (∃ h, a.reachesLeader nodeId = false ∧ s'.inUse = s.inUse ∧
      Moves s s' (fun h' => if h = h' then 1 else 0) 0 (fun h' => if h = h' then 1 else 0) 0
        s.saved) ∨
    (∃ h, a.reachesLeader nodeId = true ∧
      Moves s s' (fun h' => if h = h' then 1 else 0) (fun h' => if h = h' then 1 else 0) 0 0
        fun h' => if h = h' then 1 else 0) ∨
    (∃ h, a.reachesLeader nodeId = false ∧ s'.inUse = false ∧
      (∀ h', s.saved h' = if h = h' then 1 else 0) ∧
      Moves s s' 0 0 (fun h' => if h = h' then 1 else 0) (fun h' => if h = h' then 1 else 0) 0) ∨
    (a.reachesLeader nodeId = false ∧ s' = s) := by
  rcases step_cases hs with ⟨h, resp, ha, hresp, rfl⟩ | ⟨h, e, ha, rfl⟩ |
    ⟨h, ha, hin, hreq, rfl⟩ | hidle
  · refine Or.inl ⟨h, ha, rfl, fun h' => count_snoc _ h h', fun _ => rfl,
      fun h' => s.answered_respond h h' resp, fun h' => ?_, fun _ => rfl⟩
    have hsucc := s.succeeded_respond h h' resp
    rwa [if_neg fun hand => hresp hand.2] at hsucc
  · refine Or.inr (Or.inl ⟨h, ha, fun h' => count_snoc _ h h', fun h' => count_snoc _ h h',
      fun _ => rfl, fun _ => rfl, fun h' => ?_⟩)
    simp [saved]
  · refine Or.inr (Or.inr (Or.inl ⟨h, ha, rfl, fun h' => ?_, fun _ => rfl, fun _ => rfl,
      fun h' => s.answered_respond h h' .success, fun h' => ?_, fun _ => rfl⟩))
    · simp [saved, hin, hreq]
    · have hsucc := s.succeeded_respond h h' .success
      rwa [if_congr (and_iff_left rfl) rfl rfl] at hsucc
  · exact Or.inr (Or.inr (Or.inr hidle))

/-- In every run: a handle is answered, or saved, at most as often as it was passed in, and
answered with success, or saved, at most as often as it was accepted. -/
structure Counts (s : SmrServer H) : Prop where
  passed : ∀ h, s.answered h + s.saved h ≤ s.passed.count h
  accepted : ∀ h, s.succeeded h + s.saved h ≤ s.accepted.count h
  holder : s.inUse = true → ∃ h, s.saved h = 1

theorem Counts.step (hc : Counts s) (hs : step nodeId s a = some s') : Counts s' := by
  rcases step_moves hs with ⟨h, -, hin, hm⟩ | ⟨h, -, hm⟩ | ⟨h, -, hin, hsaved, hm⟩ | ⟨-, rfl⟩
  · refine ⟨fun h' => ?_, fun h' => ?_, fun hin' => ?_⟩
    · rw [hm.answered, hm.saved, hm.passed]
      have := hc.passed h'
      omega
    · rw [hm.succeeded, hm.saved, hm.accepted]
      exact hc.accepted h'
    · obtain ⟨h', hh'⟩ := hc.holder (hin ▸ hin')
      exact ⟨h', (hm.saved h').trans hh'⟩
  · refine ⟨fun h' => ?_, fun h' => ?_, fun _ => ⟨h, by rw [hm.saved, if_pos rfl]⟩⟩
    · rw [hm.answered, hm.saved, hm.passed]
      have := hc.passed h'
      simp only [Pi.zero_apply]
      omega
    · rw [hm.succeeded, hm.saved, hm.accepted]
      have := hc.accepted h'
      simp only [Pi.zero_apply]
      omega
  · refine ⟨fun h' => ?_, fun h' => ?_, fun hin' => absurd (hin ▸ hin') (by simp)⟩
    · rw [hm.answered, hm.saved, hm.passed, ← hsaved]
      exact hc.passed h'
    · rw [hm.succeeded, hm.saved, hm.accepted, ← hsaved]
      exact hc.accepted h'
  · exact hc

/-- **Every run** keeps the counts. -/
theorem run_counts (h : Run Live (step nodeId) init acts s) : Counts s :=
  h.invariant ⟨fun _ => le_rfl, fun _ => le_rfl, fun h => absurd h (by simp [init])⟩
    fun _ _ _ hc _ hs => hc.step hs

/-! ## Forgotten handles -/

/-- A step that finds the place free forgets no handle. -/
theorem Kept.step (hk : Kept s) (hg : SlotFree nodeId s a) (hs : step nodeId s a = some s') :
    Kept s' := by
  intro h'
  have hold := hk h'
  rcases step_moves hs with ⟨h, -, -, hm⟩ | ⟨h, ha, hm⟩ | ⟨h, -, -, hsaved, hm⟩ | ⟨-, rfl⟩
  · rw [hm.succeeded, hm.saved, hm.accepted]
    exact hold
  · have hfree : s.saved h' = 0 := if_neg fun hand => by simp [hg.2 ha] at hand
    rw [hm.succeeded, hm.saved, hm.accepted]
    omega
  · rw [hm.succeeded, hm.saved, hm.accepted, ← hsaved]
    exact hold
  · exact hold

/-- A step that finds the place taken forgets the handle that was there. -/
theorem slotFree_of_kept (hc : Counts s) (hlive : Live s a) (hs : step nodeId s a = some s')
    (hk : Kept s') : SlotFree nodeId s a := by
  refine ⟨hlive, fun ha => ?_⟩
  by_contra hin
  obtain ⟨h0, hsaved⟩ := hc.holder (by simpa using hin)
  rcases step_moves hs with ⟨h, ha', -⟩ | ⟨h, -, hm⟩ | ⟨h, ha', -⟩ | ⟨ha', -⟩
  · exact absurd (ha.symm.trans ha') (by simp)
  · have hlow := hc.accepted h0
    have hhigh := hk h0
    rw [hm.succeeded, hm.saved, hm.accepted] at hhigh
    simp only [Pi.zero_apply] at hhigh
    omega
  · exact absurd (ha.symm.trans ha') (by simp)
  · exact absurd (ha.symm.trans ha') (by simp)

/-- **Handles at the leader.**  In every run a handle is answered at most as often as it was passed
in; and no accepted handle is forgotten in any state of the run iff every request that reached the
leader found `in_use` false. -/
theorem handles_kept_iff (hrun : Run Live (step nodeId) init acts s) :
    (∀ h, s.answered h ≤ s.passed.count h) ∧
    ((∀ pre t, pre <+: acts → Run Live (step nodeId) init pre t → Kept t) ↔
      Run (SlotFree nodeId) (step nodeId) init acts s) := by
  constructor
  · intro h
    have := (run_counts hrun).passed h
    omega
  · refine hrun.always_iff (fun _ _ hg => hg.1) ?_ ?_
    · intro _ _ hfree
      exact hfree.invariant (fun _ => Nat.zero_le _) fun _ _ _ hk hg hs => hk.step hg hs
    · intro _ _ _ _ hrun _ hlive hs hk
      exact slotFree_of_kept (run_counts hrun) hlive hs hk

instance (s : SmrServer H) (a : SmrAct H) : Decidable (Live s a) :=
  inferInstanceAs (Decidable (_ = _))

instance (nodeId : ℤ) (s : SmrServer H) (a : SmrAct H) : Decidable (SlotFree nodeId s a) :=
  inferInstanceAs (Decidable (_ ∧ _))

/-- Node 7 accepts a request, commits it and accepts another one, and redirects a third one when
node 8 is the leader. -/
def sampleRequests : List (SmrAct ℕ) :=
  [.clientReq 0 (some 7) 0, .poll 0, .poll 1, .clientReq 1 (some 7) 0, .clientReq 2 (some 8) 0]

theorem handles_kept_sampleRequests :
    ∃ s, Run Live (step 7) init sampleRequests s ∧ (∀ h, s.answered h ≤ s.passed.count h) ∧
      ∀ pre t, pre <+: sampleRequests → Run Live (step 7) init pre t → Kept t := by
  have hexec : (exec (SlotFree 7) (step 7) init sampleRequests).isSome = true := by
    decide
  obtain ⟨s, hs⟩ := Option.isSome_iff_exists.mp hexec
  have hfree := run_of_exec hs
  have hlive := hfree.weaken fun _ _ hg => hg.1
  exact ⟨s, hlive, (handles_kept_iff hlive).1, (handles_kept_iff hlive).2.mpr hfree⟩

/-- **A handle is forgotten**: the second request takes the place of the first one, which is never
answered. -/
theorem handle_forgotten :
    ∃ s, Run Live (step 7) init [.clientReq 0 (some 7) 0, .clientReq 1 (some 7) 0] s ∧
      ¬ Kept s := by
  have hexec : (exec Live (step 7) init [.clientReq 0 (some 7) 0, .clientReq 1 (some 7) 0]).map
      (fun s => (s.accepted.count 0, s.succeeded 0, s.saved 0)) = some (1, 0, 0) := by
    decide
  obtain ⟨s, hs, hval⟩ := Option.map_eq_some_iff.mp hexec
  simp only [Prod.mk.injEq] at hval
  refine ⟨s, run_of_exec hs, fun hk => ?_⟩
  have := hk 0
  omega

end SmrServer

end HuiRpc
