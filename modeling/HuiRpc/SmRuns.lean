/-
# Session numbers, tokens and ring entries in the runs of an Rpc

* `ring_entries_conserved` — the ring entries add up, and duplicates move none;
* `one_session_per_token` — a connect request that comes again creates no second session and
  gets the number of the first;
* `sessions_numbered_iff` — a session carries the number of its entry as long as no more than
  `2 ^ 16` sessions are created;
* `session_misnumbered` — the next one gets number 0, and entry 0 is not its own.
-/
import HuiRpc.SmInv

namespace HuiRpc

open Runs

namespace Sm

variable {C : SmCfg} {r r' : Sm} {s : SmSession} {p : SmPkt} {resolve : ℕ → Option ℕ}
  {cb : List ApiCall} {i : ℕ}

/-! ## Runs -/

/-- The vector grows, and then a session that was in it before may be buried. -/
theorem grown_step {a : SmAct} (h : r.step C a = some r') :
    ∃ x, Grown r x ∧ (r'.sessionVec = x.sessionVec ∨
      ∃ (n : ℕ) (s : SmSession), r.sessionVec[n]? = some (some s) ∧
        r'.sessionVec = x.sessionVec.set s.localSessionNum none) := by
  cases a with
  | api c =>
    obtain rfl := Option.some.inj h
    have hgrow : Grown r { r with out := [] } := Grown.of_eq rfl
    exact ⟨_, hgrow.call c, Or.inl rfl⟩
  | recv resolve cb p =>
    obtain ⟨r1, hf, he⟩ := recv_effect h
    have hfresh : Grown r r1 := Grown.of_eq hf.sessionVec
    have hfree : Grown r r1.freeRingEntries := Grown.of_eq hf.sessionVec
    cases he with
    | idle out pending => exact ⟨r1, hfresh, Or.inl rfl⟩
    | openServer rinfo =>
      exact ⟨r1.openServer C p rinfo,
        Grown.push (by rw [openServer_sessionVec, hf.sessionVec]) rfl, Or.inl rfl⟩
    | closeClient s hget =>
      exact ⟨_, Grown.write (by rw [← hf.sessionVec]; rfl), Or.inl rfl⟩
    | connect s rinfo hget =>
      have hw : Grown r (r1.write p.client.sessionNum (connected s p rinfo)) :=
        Grown.write (by rw [← hf.sessionVec]; rfl)
      exact ⟨_, hw.smHandler _ _ _, Or.inl rfl⟩
    | answer n s hget q =>
      rw [hf.sessionVec] at hget
      exact ⟨r1, hfresh, Or.inr ⟨n, s, hget, rfl⟩⟩
    | farewell n s hget ev err =>
      rw [hf.sessionVec] at hget
      exact ⟨_, hfree.smHandler s ev err, Or.inr ⟨n, s, hget, rfl⟩⟩

/-- The vector only grows. -/
theorem length_le_step {a : SmAct} (h : r.step C a = some r') :
    r.sessionVec.length ≤ r'.sessionVec.length := by
  obtain ⟨x, hx, hv | ⟨n, s, -, hv⟩⟩ := grown_step h
  · rw [hv]
    exact hx.length_le
  · rw [hv, List.length_set]
    exact hx.length_le

theorem length_le_run {as : List SmAct}
    (h : Run (fun _ _ => True) (Sm.step C) r as r') :
    r.sessionVec.length ≤ r'.sessionVec.length :=
  h.invariant (P := fun x => r.sessionVec.length ≤ x.sessionVec.length) (le_refl _)
    fun _ _ _ hx _ hs => le_trans hx (length_le_step hs)

/-- While no more than `2 ^ 16` sessions are created, the sessions are in order and the ring
entries add up. -/
theorem good_run {as : List SmAct} (h : SmRun C as r)
    (hlen : r.sessionVec.length ≤ numSessionNums) : Good r ∧ r.load = kNumRxRingEntries := by
  have key : r.sessionVec.length ≤ numSessionNums → Good r ∧ r.load = kNumRxRingEntries := by
    refine h.invariant
      (P := fun x => x.sessionVec.length ≤ numSessionNums → Good x ∧ x.load = kNumRxRingEntries)
      (fun _ => ⟨Good.init, rfl⟩) ?_
    intro x a x' hx _ hs hle
    obtain ⟨hgood, hload⟩ := hx (le_trans (length_le_step hs) hle)
    refine ⟨hgood.step hs hle, ?_⟩
    rw [load_step hgood (by rw [hload]; decide) hs, hload]
  exact key hlen

/-- What the handlers take for a duplicate: a connect request with a known token, and any other
packet whose session is gone, or no longer waits for a connect response. -/
def Duplicate (r : Sm) (p : SmPkt) : Prop :=
  match p.pktType with
  | .kConnectReq => r.connReqTokenMap p.uniqToken ≠ none
  | .kConnectResp => ∀ s : SmSession,
      r.sessionVec[p.client.sessionNum]? = some (some s) → s.state ≠ .kConnectInProgress
  | .kDisconnectReq => r.sessionVec[p.server.sessionNum]? = some none
  | .kDisconnectResp => r.sessionVec[p.client.sessionNum]? = some none
  | _ => False

/-- A duplicate changes no session and no ring entry. -/
theorem duplicate_unchanged (hd : Duplicate r p) (h : r.step C (.recv resolve cb p) = some r') :
    r'.ringEntriesAvailable = r.ringEntriesAvailable ∧ r'.sessionVec = r.sessionVec := by
  obtain ⟨r1, hf, hcase⟩ := recv_cases h
  unfold Duplicate at hd
  rw [← hf.connReqTokenMap, ← hf.sessionVec] at hd
  rw [← hf.ringEntriesAvailable, ← hf.sessionVec]
  rcases hcase with ⟨ht, hs⟩ | ⟨ht, hs⟩ | ⟨ht, hs⟩ | ⟨ht, hs⟩
  · rw [ht] at hd
    rcases handleConnectReq_cases hs with
      ⟨n, -, ⟨-, rfl⟩ | ⟨s, -, ⟨-, rfl⟩ | ⟨-, rfl⟩⟩⟩ | ⟨hnew, -⟩
    · exact ⟨rfl, rfl⟩
    · exact ⟨rfl, rfl⟩
    · exact ⟨rfl, rfl⟩
    · exact absurd hnew hd
  · rw [ht] at hd
    rcases handleDisconnectReq_cases hs with ⟨-, rfl⟩ | ⟨s, hget, -⟩
    · exact ⟨rfl, rfl⟩
    · exact absurd (hget.symm.trans hd) (by simp)
  · rw [ht] at hd
    rcases handleConnectResp_cases hs with ⟨-, rfl⟩ | ⟨s, hget, ⟨-, rfl⟩ | ⟨hstate, -⟩⟩
    · exact ⟨rfl, rfl⟩
    · exact ⟨rfl, rfl⟩
    · exact absurd hstate (hd s hget)
  · rw [ht] at hd
    rcases handleDisconnectResp_cases hs with ⟨-, rfl⟩ | ⟨s, hget, -⟩
    · exact ⟨rfl, rfl⟩
    · exact absurd (hget.symm.trans hd) (by simp)

/-- Only a connect request with a new token creates a server session, and it is answered with
the number of that session. -/
theorem created_step {a : SmAct} (h : r.step C a = some r') :
    r'.created = r.created ∨
    ∃ resolve cb p s, a = .recv resolve cb p ∧ p.pktType = .kConnectReq ∧
      r.connReqTokenMap p.uniqToken = none ∧
      r'.created = r.created ++ [(p.uniqToken, s.server.sessionNum)] ∧
      r'.sessionVec = r.sessionVec ++ [some s] ∧ r'.out = [accept p s] := by
  have hcall : ∀ (x : Sm) (c : ApiCall), x.created = r.created →
      (x.call C c).created = r.created := by
    intro x c hx
    rcases call_cases C x c with he | ⟨hostname, port, rpcId, token, -, -, he⟩ |
      ⟨i, s, -, -, -, he⟩ <;> rw [he] <;> exact hx
  cases a with
  | api c =>
    obtain rfl := Option.some.inj h
    exact Or.inl (hcall _ c rfl)
  | recv resolve cb p =>
    obtain ⟨r1, hf, he⟩ := recv_effect h
    have hhandler : ∀ (x : Sm) (s : SmSession) ev err, x.created = r1.created →
        (x.smHandler C cb s ev err).created = r.created := by
      intro x s ev err hx
      exact smHandler_ind (P := fun y => y.created = r.created) s ev err (hx.trans hf.created)
        fun y c _ hy => hcall y c hy
    cases he with
    | idle out pending => exact Or.inl hf.created
    | openServer rinfo hty hnew =>
      set s := newServer C p rinfo (r1.sessionVec.length % numSessionNums) with hsdef
      refine Or.inr ⟨resolve, cb, p, s, rfl, hty, ?_, ?_, ?_, ?_⟩
      · rw [← hf.connReqTokenMap]
        exact hnew
      · rw [← hf.created]
        rfl
      · rw [← hf.sessionVec, openServer_sessionVec]
      · show r1.out ++ [accept p s] = [accept p s]
        rw [hf.out, List.nil_append]
    | closeClient s => exact Or.inl hf.created
    | connect s rinfo => exact Or.inl (hhandler _ _ _ _ rfl)
    | answer n s hget q => exact Or.inl hf.created
    | farewell n s hget ev err => exact Or.inl (hhandler _ s _ _ rfl)

/-- A connect request with the token of a session that was created is answered with the
session's number, or not at all once the session is buried. -/
theorem known_token (h : Good r) {t n : ℕ} (hmem : (t, n) ∈ r.created) (C : SmCfg)
    (resolve : ℕ → Option ℕ) (cb : List ApiCall) (hp : p.pktType = .kConnectReq)
    (ht : p.uniqToken = t) :
    ∃ r', r.step C (.recv resolve cb p) = some r' ∧ r'.created = r.created ∧
      r'.sessionVec = r.sessionVec ∧
      ((∃ s, r.sessionVec[n]? = some (some s) ∧ s.state = .kConnected ∧
          s.server.sessionNum = n ∧ r'.out = [accept p s]) ∨
        (r.sessionVec[n]? = some none ∧ r'.out = [])) := by
  subst ht
  have hmap : r.connReqTokenMap p.uniqToken = some n := (h.tokenMap _ n).mpr hmem
  have hstep : r.step C (.recv resolve cb p)
      = handleConnectReq C resolve p { r with out := [] } := by
    show handleSmRx C resolve cb p { r with out := [] } = _
    unfold handleSmRx erasePending
    rw [hp]
    rfl
  rw [hstep]
  unfold handleConnectReq
  rw [hmap]
  rcases h.made _ n hmem with hnull | ⟨s, hs, hrole, -⟩
  · refine ⟨{ r with out := [] }, ?_, rfl, rfl, Or.inr ⟨hnull, rfl⟩⟩
    dsimp only
    rw [hnull]
    rfl
  · obtain ⟨-, hstate, hnum, -⟩ := (h.entry n s hs).server hrole
    refine ⟨{ r with out := [accept p s] }, ?_, rfl, rfl, Or.inl ⟨s, hs, hstate, hnum, rfl⟩⟩
    dsimp only
    rw [hs, Option.map_some]
    dsimp only
    rw [if_neg fun hne : s.state ≠ .kConnected => hne hstate]
    rfl

/-! ## Session numbers -/

/-- Every live session is in the entry of its number, so that burying it clears its own entry
and a packet with its number finds it. -/
def Numbered (r : Sm) : Prop :=
  ∀ (i : ℕ) (s : SmSession), r.sessionVec[i]? = some (some s) → s.localSessionNum = i ∧
    r.sessionVec[s.localSessionNum]? = some (some s) ∧
    r.burySession s = some { r with sessionVec := r.sessionVec.set i none }

theorem Good.numbered (h : Good r) : Numbered r := by
  intro i s hs
  have hnum := (h.entry i s hs).localNum
  refine ⟨hnum, by rw [hnum]; exact hs, ?_⟩
  unfold burySession
  rw [hnum, if_pos (lt_of_getElem? hs)]

/-- A session that an event adds is live after it, and its number has 16 bits. -/
theorem new_step {a : SmAct} (hg : Good r) (h : r.step C a = some r')
    (hle : r.sessionVec.length ≤ i) (hlt : i < r'.sessionVec.length) :
    ∃ s, r'.sessionVec[i]? = some (some s) ∧ s.localSessionNum = i % numSessionNums := by
  obtain ⟨x, hx, hv | ⟨n, s, hget, hv⟩⟩ := grown_step h
  · rw [hv] at hlt ⊢
    exact hx.new i hle hlt
  · -- a buried session is an old one, so that it leaves the new entries alone
    rw [hv, List.length_set] at hlt
    obtain ⟨s', hs', hnum⟩ := hx.new i hle hlt
    refine ⟨s', ?_, hnum⟩
    have hn := lt_of_getElem? hget
    rw [hv, (hg.entry n s hget).localNum, List.getElem?_set_ne (by omega)]
    exact hs'

/-- The event that adds session `2 ^ 16` gives it number 0. -/
theorem not_numbered_step {a : SmAct} (hg : Good r) (h : r.step C a = some r')
    (hle : r.sessionVec.length ≤ numSessionNums) (hlt : numSessionNums < r'.sessionVec.length) :
    ¬ Numbered r' := by
  intro hnum
  obtain ⟨s, hs, hmod⟩ := new_step hg h hle hlt
  have hloc := (hnum _ s hs).1
  rw [hmod] at hloc
  exact absurd hloc (by decide)

theorem exists_not_numbered {as : List SmAct} (h : SmRun C as r) :
    numSessionNums < r.sessionVec.length →
      ∃ as₁ as₂ r₁, as = as₁ ++ as₂ ∧ SmRun C as₁ r₁ ∧ ¬ Numbered r₁ := by
  induction h with
  | nil =>
    intro hlt
    exact absurd hlt (by decide)
  | @snoc as r a r' h hg hs ih =>
    intro hlt
    by_cases hprev : numSessionNums < r.sessionVec.length
    · obtain ⟨as₁, as₂, r₁, rfl, hrun, hnot⟩ := ih hprev
      exact ⟨as₁, as₂ ++ [a], r₁, by rw [List.append_assoc], hrun, hnot⟩
    · have hle : r.sessionVec.length ≤ numSessionNums := by omega
      exact ⟨as ++ [a], [], r', by rw [List.append_nil], h.snoc hg hs,
        not_numbered_step (good_run h hle).1 hs hle hlt⟩

end Sm

/-! ## The results -/

/-- **Ring entries are conserved.**  After every event, the ring entries that are available and
those of the live sessions add up to the ring, and a duplicate packet moves none. -/
theorem ring_entries_conserved (C : SmCfg) {as : List SmAct} {r : Sm} (h : SmRun C as r)
    (hlen : r.sessionVec.length < numSessionNums) :
    r.ringEntriesAvailable + kSessionCredits * r.numActiveSessions = kNumRxRingEntries ∧
    r.ringEntriesAvailable ≤ kNumRxRingEntries ∧
    ∀ resolve cb p r', r.step C (.recv resolve cb p) = some r' → r.Duplicate p →
      r'.ringEntriesAvailable = r.ringEntriesAvailable ∧ r'.sessionVec = r.sessionVec := by
  have hload : r.ringEntriesAvailable + kSessionCredits * r.numActiveSessions
      = kNumRxRingEntries := (Sm.good_run h (le_of_lt hlen)).2
  exact ⟨hload, by omega, fun _ _ _ _ hs hd => Sm.duplicate_unchanged hd hs⟩

/-- **One session per token.**  No token gets two server sessions.  The request that creates one
is answered with its number; every later request with that token creates none, is answered with
the same number while the session is connected, and with nothing once it is buried. -/
theorem one_session_per_token (C : SmCfg) {as : List SmAct} {r : Sm} (h : SmRun C as r)
    (hlen : r.sessionVec.length < numSessionNums) :
    (r.created.map Prod.fst).Nodup ∧
    (∀ a r', r.step C a = some r' → r'.created = r.created ∨
      ∃ resolve cb p s, a = .recv resolve cb p ∧ p.pktType = .kConnectReq ∧
        p.uniqToken ∉ r.created.map Prod.fst ∧
        r'.created = r.created ++ [(p.uniqToken, s.server.sessionNum)] ∧
        r'.sessionVec = r.sessionVec ++ [some s] ∧ r'.out = [Sm.accept p s]) ∧
    (∀ t n, (t, n) ∈ r.created → ∀ resolve cb p, p.pktType = .kConnectReq → p.uniqToken = t →
      ∃ r', r.step C (.recv resolve cb p) = some r' ∧ r'.created = r.created ∧
        r'.sessionVec = r.sessionVec ∧
        ((∃ s, r.sessionVec[n]? = some (some s) ∧ s.state = .kConnected ∧
            s.server.sessionNum = n ∧ r'.out = [Sm.accept p s]) ∨
          (r.sessionVec[n]? = some none ∧ r'.out = []))) := by
  have hgood := (Sm.good_run h (le_of_lt hlen)).1
  refine ⟨hgood.nodup, ?_, ?_⟩
  · intro a r' hs
    rcases Sm.created_step hs with hc | ⟨resolve, cb, p, s, rfl, hp, hnew, hrest⟩
    · exact Or.inl hc
    · refine Or.inr ⟨resolve, cb, p, s, rfl, hp, ?_, hrest⟩
      rw [List.mem_map]
      rintro ⟨⟨t, n⟩, hmem, ht⟩
      rw [← ht, (hgood.tokenMap t n).mpr hmem] at hnew
      simp at hnew
  · intro t n hmem resolve cb p hp ht
    exact Sm.known_token hgood hmem C resolve cb hp ht

/-- **Session numbers.**  In a run, every live session is in the entry of its number in every
state exactly if no more than `2 ^ 16` sessions are created. -/
theorem sessions_numbered_iff (C : SmCfg) {as : List SmAct} {r : Sm} (h : SmRun C as r) :
    (∀ as₁ as₂ r₁, as = as₁ ++ as₂ → SmRun C as₁ r₁ → r₁.Numbered) ↔
      r.sessionVec.length ≤ numSessionNums := by
  constructor
  · intro hall
    by_contra hlt
    obtain ⟨as₁, as₂, r₁, has, hrun, hnot⟩ := Sm.exists_not_numbered h (by omega)
    exact hnot (hall as₁ as₂ r₁ has hrun)
  · rintro hle as₁ as₂ r₁ rfl hrun
    obtain ⟨x, hx, hrest⟩ := h.split
    obtain rfl := hx.unique hrun
    exact (Sm.good_run hx (le_trans (Sm.length_le_run hrest) hle)).1.numbered

/-! ## Samples -/

/-- Host, management port and id of two Rpcs. -/
def sampleSrvCfg : SmCfg := ⟨⟨['s'], 31850, 0⟩, 0, 1, false⟩

def sampleCliCfg : SmCfg := ⟨⟨['c'], 31850, 0⟩, 0, 2, false⟩

/-- The connect request of a client session. -/
def sampleConnectReq (token num : ℕ) : SmPkt :=
  Sm.smReq (Sm.newClient sampleCliCfg ['s'] 31850 0 token num)

def sampleSmRun : List SmAct :=
  [.recv some [] (sampleConnectReq 7 0), .recv some [] (sampleConnectReq 7 0)]

theorem sampleSmRun_exec :
    (exec (fun _ _ => True) (Sm.step sampleSrvCfg) Sm.init sampleSmRun).map
      (fun r => (r.sessionVec.length, r.ringEntriesAvailable, r.created, r.out.length))
      = some (1, 32736, [(7, 0)], 1) := by
  decide +kernel

theorem ring_entries_conserved_sample : ∃ as r, SmRun sampleSrvCfg as r ∧
    r.sessionVec.length = 1 ∧
    r.ringEntriesAvailable + kSessionCredits * r.numActiveSessions = kNumRxRingEntries := by
  obtain ⟨r, hr, he⟩ := Option.map_eq_some_iff.mp sampleSmRun_exec
  have hlen : r.sessionVec.length = 1 := congrArg (fun x => x.1) he
  have hrun := run_of_exec hr
  exact ⟨_, r, hrun, hlen, (ring_entries_conserved sampleSrvCfg hrun (by rw [hlen]; decide)).1⟩

theorem one_session_per_token_sample : ∃ as r, SmRun sampleSrvCfg as r ∧
    r.created = [(7, 0)] ∧ (r.created.map Prod.fst).Nodup := by
  obtain ⟨r, hr, he⟩ := Option.map_eq_some_iff.mp sampleSmRun_exec
  have hlen : r.sessionVec.length = 1 := congrArg (fun x => x.1) he
  have hrun := run_of_exec hr
  exact ⟨_, r, hrun, congrArg (fun x => x.2.2.1) he,
    (one_session_per_token sampleSrvCfg hrun (by rw [hlen]; decide)).1⟩

theorem sessions_numbered_sample : ∃ as r, SmRun sampleSrvCfg as r ∧
    r.sessionVec.length = 1 ∧
    ∀ as₁ as₂ r₁, as = as₁ ++ as₂ → SmRun sampleSrvCfg as₁ r₁ → r₁.Numbered := by
  obtain ⟨r, hr, he⟩ := Option.map_eq_some_iff.mp sampleSmRun_exec
  have hlen : r.sessionVec.length = 1 := congrArg (fun x => x.1) he
  have hrun := run_of_exec hr
  exact ⟨_, r, hrun, hlen, (sessions_numbered_iff sampleSrvCfg hrun).mpr (by rw [hlen]; decide)⟩

/-! ## More than `2 ^ 16` sessions -/

/-- The server refuses session `num`. -/
def sampleRefusal (num : ℕ) : SmPkt := (sampleConnectReq 0 num).constructResp .kRingExhausted

/-- A session that is opened. -/
def sampleOpen : SmAct := .api (.createSession ['s'] 31850 0 0)

/-- The client opens a session. -/
theorem step_sampleOpen {r : Sm} (hring : kSessionCredits ≤ r.ringEntriesAvailable) :
    r.step sampleCliCfg sampleOpen
      = some (Sm.openClient sampleCliCfg ['s'] 31850 0 0 { r with out := [] }) := by
  show some (Sm.createSession sampleCliCfg ['s'] 31850 0 0 { r with out := [] }).1 = _
  unfold Sm.createSession
  rw [if_neg (by decide), if_neg (by decide), if_neg]
  exact not_not.mpr hring

/-- A session that is opened and refused leaves a null entry and no other trace. -/
theorem step_sampleRefusal {r : Sm} (hlen : r.sessionVec.length < numSessionNums)
    (hring : r.ringEntriesAvailable = kNumRxRingEntries) :
    ∃ r', (Sm.openClient sampleCliCfg ['s'] 31850 0 0 r).step sampleCliCfg
        (.recv some [] (sampleRefusal r.sessionVec.length)) = some r' ∧
      r'.sessionVec = r.sessionVec ++ [none] ∧ r'.ringEntriesAvailable = kNumRxRingEntries := by
  have hmod : r.sessionVec.length % numSessionNums = r.sessionVec.length := Nat.mod_eq_of_lt hlen
  set x := Sm.openClient sampleCliCfg ['s'] 31850 0 0 r with hx
  have hv : x.sessionVec = r.sessionVec ++
      [some (Sm.newClient sampleCliCfg ['s'] 31850 0 0 r.sessionVec.length)] := by
    rw [hx, Sm.openClient_sessionVec, hmod]
  have hr : x.ringEntriesAvailable = kNumRxRingEntries - kSessionCredits := by
    show r.allocRingEntries.ringEntriesAvailable = _
    show (if _ then _ else _) = _
    rw [hring]
    rfl
  set y := Sm.erasePending (sampleRefusal r.sessionVec.length) { x with out := [] } with hy
  have hyv : y.sessionVec = x.sessionVec := rfl
  have hyr : y.ringEntriesAvailable = x.ringEntriesAvailable := rfl
  refine ⟨{ y.freeRingEntries.smHandler sampleCliCfg []
      (Sm.newClient sampleCliCfg ['s'] 31850 0 0 r.sessionVec.length) .kConnectFailed
      .kRingExhausted with sessionVec := r.sessionVec ++ [none] }, ?_, rfl, ?_⟩
  · show y.handleConnectResp sampleCliCfg some [] (sampleRefusal r.sessionVec.length) = _
    have hget : y.sessionVec[r.sessionVec.length]?
        = some (some (Sm.newClient sampleCliCfg ['s'] 31850 0 0 r.sessionVec.length)) := by
      rw [hyv, hv]
      exact Sm.getElem?_snoc.mpr (Or.inr ⟨rfl, rfl⟩)
    unfold Sm.handleConnectResp
    rw [show (sampleRefusal r.sessionVec.length).client.sessionNum = r.sessionVec.length from rfl,
      hget, Option.bind_some]
    show Sm.burySession _ (y.freeRingEntries.smHandler sampleCliCfg [] _ .kConnectFailed _) = _
    unfold Sm.burySession
    rw [if_pos]
    · show some ({ y.freeRingEntries.smHandler sampleCliCfg [] _ _ _ with
        sessionVec := y.sessionVec.set r.sessionVec.length none } : Sm) = _
      rw [hyv, hv, List.set_append_right _ _ (le_refl _), Nat.sub_self]
      rfl
    · show r.sessionVec.length < y.sessionVec.length
      exact Sm.lt_of_getElem? hget
  · show (if y.ringEntriesAvailable + kSessionCredits < 2 ^ 64 then _ else _) = _
    rw [hyr, hr]
    rfl

/-- Any number of sessions can be opened and refused one after the other. -/
theorem exists_all_null (n : ℕ) : n ≤ numSessionNums → ∃ as r, SmRun sampleCliCfg as r ∧
    r.sessionVec = List.replicate n none ∧ r.ringEntriesAvailable = kNumRxRingEntries := by
  induction n with
  | zero =>
    intro _
    exact ⟨[], Sm.init, Run.nil, rfl, rfl⟩
  | succ n ih =>
    intro hn
    obtain ⟨as, r, hrun, hvec, hring⟩ := ih (by omega)
    have hopen := step_sampleOpen (r := r) (by rw [hring]; decide)
    obtain ⟨r', hstep, hvec', hring'⟩ := step_sampleRefusal (r := { r with out := [] })
      (by rw [hvec, List.length_replicate]; omega) hring
    refine ⟨_, r', (hrun.snoc trivial hopen).snoc trivial hstep, ?_, hring'⟩
    rw [hvec', hvec, List.replicate_succ']

/-- After `2 ^ 16` sessions were opened and refused, the next one is in entry `2 ^ 16` and gets
number 0, where there is a null entry. -/
theorem session_misnumbered : ∃ as r, SmRun sampleCliCfg as r ∧ ¬ r.Numbered ∧
    ∃ s, r.sessionVec[numSessionNums]? = some (some s) ∧ s.localSessionNum = 0 ∧
      r.sessionVec[s.localSessionNum]? = some none := by
  obtain ⟨as, r, hrun, hvec, hring⟩ := exists_all_null numSessionNums (le_refl _)
  have hlen : r.sessionVec.length = numSessionNums := by rw [hvec, List.length_replicate]
  have hopen := step_sampleOpen (r := r) (by rw [hring]; decide)
  set x := Sm.openClient sampleCliCfg ['s'] 31850 0 0 { r with out := [] } with hx
  have hv : x.sessionVec = r.sessionVec ++ [some (Sm.newClient sampleCliCfg ['s'] 31850 0 0 0)] := by
    rw [Sm.openClient_sessionVec]
    rw [hlen, Nat.mod_self]
  have hget : x.sessionVec[numSessionNums]?
      = some (some (Sm.newClient sampleCliCfg ['s'] 31850 0 0 0)) := by
    rw [hv]
    exact Sm.getElem?_snoc.mpr (Or.inr ⟨hlen.symm, rfl⟩)
  have hzero : x.sessionVec[0]? = some none := by
    rw [hv, Sm.getElem?_snoc, hvec]
    exact Or.inl (List.getElem?_replicate_of_lt (by decide))
  refine ⟨_, x, hrun.snoc trivial hopen, ?_, _, hget, rfl, hzero⟩
  intro hnum
  exact absurd (hnum _ _ hget).1 (by decide)

end HuiRpc
