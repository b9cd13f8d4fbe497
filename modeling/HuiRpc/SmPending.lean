/-
# Pending session-management requests

A client session that waits for a response should be in `sm_pending_reqs_`, so that the management
part of `pkt_loss_scan_st` (`rpc_impl/rpc_pkt_loss.cc`) sends its request again.

* `Sm.PendingBut ex r` — the waiting client sessions are pending, apart from those with a number
  in `ex`; a response first takes its own session out of the set, and the handler has to put it
  back if it still waits;
* `Sm.Stale` — a connect response for a session that is disconnecting by now, which the handler
  drops without putting the session back;
* `all_pending_iff` — along a run all waiting sessions are pending exactly if there is none such;
* `pending_request_forgotten` — a second copy of a connect response is one.
-/
import HuiRpc.SmAgree

namespace HuiRpc

open Runs

/-- The session waits for a response. -/
def SmSession.Waiting (s : SmSession) : Prop :=
  s.role = .kClient ∧ (s.state = .kConnectInProgress ∨ s.state = .kDisconnectInProgress)

namespace Sm

variable {C : SmCfg} {r r' : Sm} {s : SmSession} {p : SmPkt} {resolve : ℕ → Option ℕ}
  {cb : List ApiCall} {i n : ℕ} {ex : ℕ → Prop}

/-! ## The scan -/

/-- The body of the scan's loop; `timedOut` says for which sessions `kSMTimeoutMs` has passed. -/
def scanOne (timedOut : ℕ → Bool) (r : Sm) (n : ℕ) : Sm :=
  match r.sessionVec[n]?.join with
  | none => r
  | some s =>
      if (s.state = .kConnectInProgress ∨ s.state = .kDisconnectInProgress) ∧ timedOut n = true then
        r.sendSmReq s
      else r

/-- The management part of `pkt_loss_scan_st`, with the order in which the set is iterated. -/
def smScan (timedOut : ℕ → Bool) (order : List ℕ) (r : Sm) : Sm := order.foldl (scanOne timedOut) r

theorem scanOne_sessionVec (timedOut : ℕ → Bool) (r : Sm) (n : ℕ) :
    (r.scanOne timedOut n).sessionVec = r.sessionVec := by
  unfold scanOne
  split
  · rfl
  · split_ifs <;> rfl

theorem mem_out_scanOne {q : SmPkt} (timedOut : ℕ → Bool) (n : ℕ) (h : q ∈ r.out) :
    q ∈ (r.scanOne timedOut n).out := by
  unfold scanOne
  split
  · exact h
  · split_ifs
    · exact List.mem_append_left _ h
    · exact h

theorem mem_out_smScan {q : SmPkt} (timedOut : ℕ → Bool) (order : List ℕ) (h : q ∈ r.out) :
    q ∈ (r.smScan timedOut order).out := by
  induction order generalizing r with
  | nil => exact h
  | cons n order ih => exact ih (mem_out_scanOne timedOut n h)

/-- A session in the set whose time is over gets its request sent again. -/
theorem smScan_resends {timedOut : ℕ → Bool} {order : List ℕ} (hn : n ∈ order)
    (hs : r.sessionVec[n]? = some (some s)) (hw : s.Waiting) (ht : timedOut n = true) :
    smReq s ∈ (r.smScan timedOut order).out := by
  induction order generalizing r with
  | nil => exact absurd hn List.not_mem_nil
  | cons m order ih =>
    rcases List.mem_cons.mp hn with rfl | hn
    · apply mem_out_smScan timedOut order
      unfold scanOne
      rw [hs]
      dsimp only [Option.join_some]
      rw [if_pos ⟨hw.2, ht⟩]
      exact List.mem_append_right _ (List.mem_singleton.mpr rfl)
    · exact ih hn (by rw [scanOne_sessionVec]; exact hs)

/-! ## Waiting sessions are pending -/

/-- The waiting client sessions are pending, apart from those with a number in `ex`. -/
def PendingBut (ex : ℕ → Prop) (r : Sm) : Prop :=
  ∀ (i : ℕ) (s : SmSession), r.sessionVec[i]? = some (some s) → s.Waiting →
    s.localSessionNum ∈ r.smPendingReqs ∨ ex s.localSessionNum

def AllPending (r : Sm) : Prop :=
  ∀ (i : ℕ) (s : SmSession), r.sessionVec[i]? = some (some s) → s.Waiting →
    s.localSessionNum ∈ r.smPendingReqs

theorem AllPending.but (h : AllPending r) (ex : ℕ → Prop) : PendingBut ex r :=
  fun i s hs hw => Or.inl (h i s hs hw)

/-- Nothing is exempt if no waiting session has an exempt number. -/
theorem PendingBut.all (h : PendingBut ex r)
    (hex : ∀ (i : ℕ) (s : SmSession), r.sessionVec[i]? = some (some s) → s.Waiting →
      ¬ ex s.localSessionNum) : AllPending r :=
  fun i s hs hw => (h i s hs hw).resolve_right (hex i s hs hw)

/-- The exempt number is back. -/
theorem PendingBut.mem (h : PendingBut (· = n) r) (hn : n ∈ r.smPendingReqs) : AllPending r := by
  intro i s hs hw
  rcases h i s hs hw with hmem | rfl
  · exact hmem
  · exact hn

theorem PendingBut.congr (h : PendingBut ex r) (hv : r'.sessionVec = r.sessionVec)
    (hp : r.smPendingReqs ⊆ r'.smPendingReqs) : PendingBut ex r' := by
  intro i s hs hw
  rw [hv] at hs
  exact (h i s hs hw).imp_left fun hmem => hp hmem

/-- A new session is not waiting or is pending. -/
theorem PendingBut.push (h : PendingBut ex r) (hv : r'.sessionVec = r.sessionVec ++ [some s])
    (hp : r.smPendingReqs ⊆ r'.smPendingReqs)
    (hnew : s.Waiting → s.localSessionNum ∈ r'.smPendingReqs) : PendingBut ex r' := by
  intro i t ht hw
  rw [hv] at ht
  rcases getElem?_snoc.mp ht with ht | ⟨-, he⟩
  · exact (h i t ht hw).imp_left fun hmem => hp hmem
  · obtain rfl := Option.some.inj he
    exact Or.inl (hnew hw)

/-- A session that is written is not waiting or is pending. -/
theorem PendingBut.write (h : PendingBut ex r) (hv : r'.sessionVec = r.sessionVec.set i (some s))
    (hp : r.smPendingReqs ⊆ r'.smPendingReqs)
    (hnew : s.Waiting → s.localSessionNum ∈ r'.smPendingReqs) : PendingBut ex r' := by
  intro j t ht hw
  rw [hv] at ht
  rcases getElem?_set_some ht with ⟨-, he⟩ | ⟨-, ht⟩
  · obtain rfl := Option.some.inj he
    exact Or.inl (hnew hw)
  · exact (h j t ht hw).imp_left fun hmem => hp hmem

theorem PendingBut.closeClient (h : PendingBut ex r) (i : ℕ) (s : SmSession) :
    PendingBut ex (r.closeClient i s) :=
  h.write (s := { s with state := .kDisconnectInProgress }) rfl (Finset.subset_insert _ _)
    fun _ => Finset.mem_insert_self _ _

theorem PendingBut.call (h : PendingBut ex r) (c : ApiCall) : PendingBut ex (r.call C c) := by
  rcases call_cases C r c with he | ⟨hostname, port, rpcId, token, -, -, he⟩ | ⟨i, s, -, -, -, he⟩
  · rwa [he]
  · rw [he]
    exact h.push (openClient_sessionVec C r hostname port rpcId token) (Finset.subset_insert _ _)
      fun _ => Finset.mem_insert_self _ _
  · rw [he]
    exact h.closeClient i s

theorem PendingBut.smHandler (h : PendingBut ex r) (s : SmSession) (ev : SmEventType)
    (err : SmErrType) : PendingBut ex (r.smHandler C cb s ev err) :=
  smHandler_ind s ev err (h.congr rfl fun _ hx => hx) fun _ c _ hr => hr.call c

/-- The session with the exempt number is buried. -/
theorem PendingBut.setNull (h : PendingBut (· = n) r) (hg : Good r) :
    AllPending { r with sessionVec := r.sessionVec.set n none } := by
  intro i s hs hw
  rcases getElem?_set_some hs with ⟨-, he⟩ | ⟨hne, hs⟩
  · simp at he
  · refine (h i s hs hw).resolve_right fun heq => hne ?_
    rw [← (hg.entry i s hs).localNum, heq]

/-! ## One event -/

/-- A connect response for a client session that is disconnecting. -/
def Stale (r : Sm) : SmAct → Prop
  | .api _ => False
  | .recv _ _ p => p.pktType = .kConnectResp ∧
      ∃ s, r.sessionVec[p.client.sessionNum]? = some (some s) ∧ s.role = .kClient ∧
        s.state = .kDisconnectInProgress

/-- The state in which the handler of a packet is called: of a response, the own session is
exempt. -/
theorem AllPending.erase (h : AllPending r) (p : SmPkt) :
    PendingBut (· = p.client.sessionNum) (erasePending p { r with out := [] }) := by
  unfold erasePending
  split_ifs
  · exact fun i s hs hw => Or.inl (h i s hs hw)
  · intro i s hs hw
    by_cases heq : s.localSessionNum = p.client.sessionNum
    · exact Or.inr heq
    · exact Or.inl (Finset.mem_erase.mpr ⟨heq, h i s hs hw⟩)

theorem AllPending.eraseReq (h : AllPending r) (hreq : p.pktType.isReq = true) :
    AllPending (erasePending p { r with out := [] }) := by
  unfold erasePending
  rw [if_pos hreq]
  exact h

theorem AllPending.congr (h : AllPending r) (hv : r'.sessionVec = r.sessionVec)
    (hp : r.smPendingReqs ⊆ r'.smPendingReqs) : AllPending r' :=
  ((h.but fun _ => False).congr hv hp).all fun _ _ _ _ => not_false

theorem AllPending.call (h : AllPending r) (c : ApiCall) : AllPending (r.call C c) :=
  ((h.but fun _ => False).call c).all fun _ _ _ _ => not_false

theorem AllPending.smHandler (h : AllPending r) (s : SmSession) (ev : SmEventType)
    (err : SmErrType) : AllPending (r.smHandler C cb s ev err) :=
  ((h.but fun _ => False).smHandler s ev err).all fun _ _ _ _ => not_false

theorem AllPending.setNull (h : AllPending r) (hg : Good r) (n : ℕ) :
    AllPending { r with sessionVec := r.sessionVec.set n none } :=
  (h.but (· = n)).setNull hg

/-- A connect response. -/
theorem PendingBut.handleConnectResp (h : PendingBut (· = p.client.sessionNum) r) (hg : Good r)
    (hs : r.handleConnectResp C resolve cb p = some r')
    (hlen : r'.sessionVec.length ≤ numSessionNums)
    (hst : ∀ s : SmSession, r.sessionVec[p.client.sessionNum]? = some (some s) →
      s.role = .kClient → s.state ≠ .kDisconnectInProgress) : AllPending r' := by
  -- a session with the number of the response is in its entry
  have hnum : ∀ (i : ℕ) (t : SmSession), r.sessionVec[i]? = some (some t) →
      t.localSessionNum = p.client.sessionNum → i = p.client.sessionNum :=
    fun i t ht heq => (hg.entry i t ht).localNum.symm.trans heq
  rcases handleConnectResp_cases hs with ⟨hnull, rfl⟩ | ⟨s, hget, ⟨hstate, rfl⟩ |
      ⟨hstate, rfl | ⟨-, -, hb⟩ | ⟨-, rfl⟩ | ⟨-, rinfo, rfl⟩⟩⟩
  · refine h.all fun i t ht hw heq => ?_
    rw [hnum i t ht heq, hnull] at ht
    simp at ht
  · refine h.all fun i t ht hw heq => ?_
    rw [hnum i t ht heq] at ht
    obtain rfl : s = t := by simpa [hget] using ht
    rcases hw.2 with hc | hd
    · exact hstate hc
    · exact hst s hget hw.1 hd
  all_goals have hn : s.localSessionNum = p.client.sessionNum := (hg.entry _ s hget).localNum
  · refine PendingBut.mem (h.congr rfl (Finset.subset_insert _ _)) ?_
    rw [← hn]
    exact Finset.mem_insert_self _ _
  · obtain ⟨-, rfl⟩ := burySession_cases hb
    rw [List.length_set] at hlen
    have hfree : Good r.freeRingEntries := hg.congr rfl rfl rfl
    have hpend : PendingBut (· = p.client.sessionNum) r.freeRingEntries :=
      h.congr rfl fun _ hx => hx
    rw [hn]
    exact (hpend.smHandler s _ _).setNull (hfree.smHandler s _ _ hlen)
  · refine (h.closeClient _ _).mem ?_
    rw [← hn]
    exact Finset.mem_insert_self _ _
  · -- the session is connected before the callback
    refine AllPending.smHandler ?_ _ _ _
    have hnot : ¬ (connected s p rinfo).Waiting := by
      rintro ⟨-, hc | hd⟩
      · cases hc
      · cases hd
    refine PendingBut.all (h.write rfl (fun _ hx => hx) fun hw => absurd hw hnot)
      fun i t ht hw heq => ?_
    rcases getElem?_set_some ht with ⟨-, he⟩ | ⟨hne, ht⟩
    · obtain rfl := Option.some.inj he
      exact hnot hw
    · exact hne (hnum i t ht heq)

/-- A disconnect response buries its session. -/
theorem PendingBut.handleDisconnectResp (h : PendingBut (· = p.client.sessionNum) r) (hg : Good r)
    (hs : r.handleDisconnectResp C cb p = some r')
    (hlen : r'.sessionVec.length ≤ numSessionNums) : AllPending r' := by
  rcases handleDisconnectResp_cases hs with ⟨hnull, rfl⟩ | ⟨s, hget, hb⟩
  · refine h.all fun i t ht hw heq => ?_
    rw [← heq, (hg.entry i t ht).localNum, ht] at hnull
    simp at hnull
  · obtain ⟨-, rfl⟩ := burySession_cases hb
    rw [List.length_set] at hlen
    have hfree : Good r.freeRingEntries := hg.congr rfl rfl rfl
    have hpend : PendingBut (· = p.client.sessionNum) r.freeRingEntries :=
      h.congr rfl fun _ hx => hx
    rw [(hg.entry _ s hget).localNum]
    exact (hpend.smHandler s _ _).setNull (hfree.smHandler s _ _ hlen)

/-- **One event keeps the waiting sessions pending**, unless it is a stale response. -/
theorem AllPending.step {a : SmAct} (h : AllPending r) (hg : Good r) (hs : r.step C a = some r')
    (hlen : r'.sessionVec.length ≤ numSessionNums) (hst : ¬ r.Stale a) : AllPending r' := by
  cases a with
  | api c =>
    obtain rfl := Option.some.inj hs
    have h0 : AllPending { r with out := [] } := h
    exact h0.call c
  | recv resolve cb p =>
    have hf := fresh_erasePending r p
    have hg1 := hg.congr hf.sessionVec hf.created hf.connReqTokenMap
    rcases recv_handler hs with ⟨ht, hs⟩ | ⟨ht, hs⟩ | ⟨ht, hs⟩ | ⟨ht, hs⟩
    · have h1 := h.eraseReq (p := p) (by rw [ht]; rfl)
      rcases handleConnectReq_cases hs with
        ⟨n, -, ⟨-, rfl⟩ | ⟨s, -, ⟨-, rfl⟩ | ⟨-, rfl⟩⟩⟩ | ⟨-, ⟨err, -, rfl⟩ | ⟨rinfo, -, rfl⟩⟩
      · exact h1
      · exact h1
      · exact h1.congr rfl fun _ hx => hx
      · exact h1.congr rfl fun _ hx => hx
      · have hnew := (h1.but fun _ => False).push (openServer_sessionVec C _ p rinfo)
          (fun _ hx => hx) fun hw => absurd hw.1 (by simp [newServer])
        exact hnew.all fun _ _ _ _ => not_false
    · have h1 := h.eraseReq (p := p) (by rw [ht]; rfl)
      rcases handleDisconnectReq_cases hs with ⟨-, rfl⟩ | ⟨s, -, hb⟩
      · exact h1.congr rfl fun _ hx => hx
      · obtain ⟨-, rfl⟩ := burySession_cases hb
        have h2 : AllPending (udpTx (p.constructResp .kNoError)
            (freeRingEntries (erasePending p { r with out := [] }))) := h1.congr rfl fun _ hx => hx
        exact h2.setNull (hg1.congr rfl rfl rfl) _
    · refine (h.erase p).handleConnectResp hg1 hs hlen fun s hget hrole hstate => hst ⟨ht, s, ?_⟩
      rw [hf.sessionVec] at hget
      exact ⟨hget, hrole, hstate⟩
    · exact (h.erase p).handleDisconnectResp hg1 hs hlen

/-- After a stale response its session waits and is not pending. -/
theorem Stale.not_allPending {a : SmAct} (hst : r.Stale a) (hg : Good r)
    (hs : r.step C a = some r') : ¬ AllPending r' := by
  cases a with
  | api c => exact hst.elim
  | recv resolve cb p =>
    obtain ⟨ht, s, hget, hrole, hstate⟩ := hst
    have hf := fresh_erasePending r p
    have hr' : r' = erasePending p { r with out := [] } := by
      rcases recv_handler hs with ⟨ht', -⟩ | ⟨ht', -⟩ | ⟨-, hs⟩ | ⟨ht', -⟩
      · rw [ht] at ht'
        cases ht'
      · rw [ht] at ht'
        cases ht'
      · rcases handleConnectResp_cases hs with ⟨hnull, -⟩ | ⟨t, hget', ⟨-, rfl⟩ | ⟨hstate', -⟩⟩
        · rw [hf.sessionVec, hget] at hnull
          simp at hnull
        · rfl
        · rw [hf.sessionVec, hget] at hget'
          obtain rfl : s = t := by simpa using hget'
          rw [hstate] at hstate'
          cases hstate'
      · rw [ht] at ht'
        cases ht'
    intro hall
    have hmem := hall p.client.sessionNum s (by rw [hr', hf.sessionVec]; exact hget)
      ⟨hrole, Or.inr hstate⟩
    rw [hr', (hg.entry _ s hget).localNum] at hmem
    unfold erasePending at hmem
    rw [if_neg (by rw [ht]; decide)] at hmem
    exact Finset.notMem_erase _ _ hmem

/-! ## Runs -/

theorem allPending_init : AllPending Sm.init := by
  intro i s hs
  simp [Sm.init] at hs

/-- A run without stale responses. -/
theorem allPending_run {as : List SmAct} (h : SmRun C as r)
    (hlen : r.sessionVec.length ≤ numSessionNums)
    (hst : ∀ as₁ a as₂ r₁, as = as₁ ++ a :: as₂ → SmRun C as₁ r₁ → ¬ r₁.Stale a) :
    AllPending r := by
  induction h with
  | nil => exact allPending_init
  | @snoc as r a r' hrun _ hs ih =>
    have hlen1 := le_trans (length_le_step hs) hlen
    refine (ih hlen1 fun as₁ b as₂ r₁ has => ?_).step (good_run hrun hlen1).1 hs hlen
      (hst as a [] r rfl hrun)
    exact hst as₁ b (as₂ ++ [a]) r₁ (by rw [has, List.append_assoc, List.cons_append])

end Sm

/-- **Pending requests.**  In a run with no more than `2 ^ 16` sessions, every waiting client
session is pending in every state exactly if no connect response is handled for a session that is
disconnecting; and from a state in which all are pending, the scan sends the request of every
waiting session again once its time is over, in whatever order it goes through the set. -/
theorem all_pending_iff (C : SmCfg) {as : List SmAct} {r : Sm} (h : SmRun C as r)
    (hlen : r.sessionVec.length ≤ numSessionNums) :
    ((∀ as₁ as₂ r₁, as = as₁ ++ as₂ → SmRun C as₁ r₁ → r₁.AllPending) ↔
      ∀ as₁ a as₂ r₁, as = as₁ ++ a :: as₂ → SmRun C as₁ r₁ → ¬ r₁.Stale a) ∧
    (r.AllPending → ∀ (order : List ℕ) (timedOut : ℕ → Bool),
      (∀ n ∈ r.smPendingReqs, n ∈ order) →
      ∀ (i : ℕ) (s : SmSession), r.sessionVec[i]? = some (some s) → s.Waiting →
        timedOut s.localSessionNum = true → Sm.smReq s ∈ (r.smScan timedOut order).out) := by
  -- the states on the way have no more sessions than the last one
  have hmid : ∀ as₁ as₂ r₁, as = as₁ ++ as₂ → SmRun C as₁ r₁ →
      r₁.sessionVec.length ≤ numSessionNums := by
    rintro as₁ as₂ r₁ rfl hrun
    obtain ⟨x, hx, hrest⟩ := h.split
    obtain rfl := hx.unique hrun
    exact le_trans (Sm.length_le_run hrest) hlen
  refine ⟨⟨?_, ?_⟩, ?_⟩
  · intro hall as₁ a as₂ r₁ has hrun hst
    have h' := h
    rw [has, ← List.singleton_append, ← List.append_assoc] at h'
    obtain ⟨r₂, h2, -⟩ := h'.split
    obtain ⟨x, hx, -, hs⟩ := h2.snoc_inv
    obtain rfl := hx.unique hrun
    exact hst.not_allPending (Sm.good_run hrun (hmid as₁ _ x has hrun)).1 hs
      (hall _ as₂ r₂ (by rw [has, List.append_assoc, List.singleton_append]) h2)
  · intro hst as₁ as₂ r₁ has hrun
    refine Sm.allPending_run hrun (hmid as₁ as₂ r₁ has hrun) fun bs₁ a bs₂ r₂ hbs => ?_
    exact hst bs₁ a (bs₂ ++ as₂) r₂ (by rw [has, hbs, List.append_assoc, List.cons_append])
  · intro hall order timedOut horder i s hs hw ht
    have hn := ((Sm.good_run h hlen).1.entry i s hs).localNum
    have hmem := horder _ (hall i s hs hw)
    rw [hn] at hmem ht
    exact Sm.smScan_resends hmem hs hw ht

theorem sampleOpen_exec :
    (exec (fun _ _ => True) (Sm.step sampleCliCfg) Sm.init [sampleOpen]).map
      (fun r => (r.sessionVec.length, r.smPendingReqs)) = some (1, {0}) := by
  decide +kernel

theorem all_pending_sampleOpen : ∃ r, SmRun sampleCliCfg [sampleOpen] r ∧
    r.smPendingReqs = {0} ∧
    ∀ as₁ as₂ r₁, [sampleOpen] = as₁ ++ as₂ → SmRun sampleCliCfg as₁ r₁ → r₁.AllPending := by
  obtain ⟨r, hr, he⟩ := Option.map_eq_some_iff.mp sampleOpen_exec
  have hlen : r.sessionVec.length = 1 := congrArg Prod.fst he
  have hrun := run_of_exec hr
  refine ⟨r, hrun, congrArg Prod.snd he,
    (all_pending_iff sampleCliCfg hrun (by rw [hlen]; decide)).1.mpr ?_⟩
  intro as₁ a as₂ r₁ has _ hst
  have hmem : a ∈ [sampleOpen] := by
    rw [has]
    simp
  rw [List.mem_singleton.mp hmem] at hst
  exact hst

/-! ## A second copy of a connect response -/

/-- The server's answer to `sampleReq`. -/
def sampleSmResp : SmPkt :=
  Sm.accept sampleReq (Sm.newServer (sampleCluster.cfg sampleSrv) sampleReq 1 0)

/-- The client connects its session and starts to disconnect it. -/
def sampleDisconnecting : List NetAct :=
  [.register sampleCli, .register sampleSrv, .api sampleCli (.createSession ['s'] 31850 0 7),
    .deliver sampleSrv some [] sampleReq, .deliver sampleCli some [] sampleSmResp,
    .api sampleCli (.destroySession 0 true)]

/-- Role, state and number of the session in entry 0, and what is pending. -/
def sampleView (r : Sm) : Option (SessionRole × SessionState × ℕ) × Finset ℕ :=
  ((r.sessionVec[0]?.join).map fun s => (s.role, s.state, s.localSessionNum), r.smPendingReqs)

theorem sampleDisconnecting_exec :
    (exec (fun w x => w.Enabled x ∧ True) (World.step sampleCluster) World.init
      (sampleDisconnecting ++ [.deliver sampleCli some [] sampleSmResp])).map
        (fun w => sampleView (w.rpcs sampleCli))
      = some (some (.kClient, .kDisconnectInProgress, 0), ∅) := by
  decide +kernel

/-- The client's disconnect request is outstanding, and a second copy of the connect response has
taken the session out of the set. -/
theorem pending_request_forgotten : ∃ xs w,
    World.NetRun sampleCluster (fun _ _ => True) xs w ∧
    ∃ s, w.vec sampleCli 0 = some (some s) ∧ s.role = .kClient ∧
      s.state = .kDisconnectInProgress ∧ s.localSessionNum ∉ (w.rpcs sampleCli).smPendingReqs := by
  obtain ⟨w, hw, he⟩ := Option.map_eq_some_iff.mp sampleDisconnecting_exec
  have hview := congrArg Prod.fst he
  have hpend : (w.rpcs sampleCli).smPendingReqs = ∅ := congrArg Prod.snd he
  obtain ⟨s, hs, hfields⟩ := Option.map_eq_some_iff.mp hview
  simp only [Prod.mk.injEq] at hfields
  refine ⟨_, w, run_of_exec hw, s, Option.join_eq_some_iff.mp hs, hfields.1, hfields.2.1, ?_⟩
  rw [hpend]
  exact Finset.notMem_empty _

end HuiRpc
