/-
# What one event does to the sessions of an Rpc

The cases of every handler of `HuiRpc.Sm`, and what they keep, for any calls of the application
and any packets.

* `call_cases`, `recv_cases` and the `handle…_cases` say what an event can do, `recv_effect` what it
  can do to the sessions;
* `Sm.Good` — every live session carries the number of its entry, and the token map names the
  server sessions that were created, each token once;
* `Sm.load` — ring entries that are available, and those of the live sessions.
-/
import HuiRpc.Sm

namespace HuiRpc

namespace Sm

variable {C : SmCfg} {r r' : Sm} {s : SmSession} {p : SmPkt} {resolve : ℕ → Option ℕ}
  {cb : List ApiCall} {i : ℕ}

/-! ## What a call and a packet can do -/

/-- `create_session` is refused or opens a session. -/
theorem createSession_cases (C : SmCfg) (r : Sm) (hostname : List Char)
    (smUdpPort rpcId uniqToken : ℕ) :
    (r.createSession C hostname smUdpPort rpcId uniqToken).1 = r ∨
    (r.haveRingEntries ∧ (r.createSession C hostname smUdpPort rpcId uniqToken).1
      = r.openClient C hostname smUdpPort rpcId uniqToken) := by
  unfold createSession
  split_ifs with hlen hself hring
  · exact Or.inl rfl
  · exact Or.inl rfl
  · exact Or.inr ⟨hring, rfl⟩
  · exact Or.inl rfl

/-- `destroy_session` is refused or starts to disconnect a connected client session. -/
theorem destroySession_cases (r : Sm) (n : ℤ) (slotsFree : Bool) :
    (r.destroySession n slotsFree).1 = r ∨
    ∃ i s, r.sessionVec[i]? = some (some s) ∧ s.role = .kClient ∧ s.state = .kConnected ∧
      (r.destroySession n slotsFree).1 = r.closeClient i s := by
  unfold destroySession
  by_cases hrange : n < 0 ∨ r.sessionVec.length ≤ n.toNat
  · rw [if_pos hrange]
    exact Or.inl rfl
  · rw [if_neg hrange]
    cases hs : r.sessionVec[n.toNat]?.join with
    | none => exact Or.inl rfl
    | some s =>
      dsimp only
      split_ifs with hrole hfree
      · exact Or.inl rfl
      · exact Or.inl rfl
      · split
        · exact Or.inl rfl
        · next hstate =>
          exact Or.inr ⟨n.toNat, s, Option.join_eq_some_iff.mp hs, not_not.mp hrole, hstate, rfl⟩
        · exact Or.inl rfl
        · exact Or.inl rfl

/-- A call of the application is refused, opens a session, or starts to disconnect one. -/
theorem call_cases (C : SmCfg) (r : Sm) (c : ApiCall) :
    r.call C c = r ∨
    (∃ hostname smUdpPort rpcId uniqToken,
      c = .createSession hostname smUdpPort rpcId uniqToken ∧ r.haveRingEntries ∧
      r.call C c = r.openClient C hostname smUdpPort rpcId uniqToken) ∨
    (∃ i s, r.sessionVec[i]? = some (some s) ∧ s.role = .kClient ∧ s.state = .kConnected ∧
      r.call C c = r.closeClient i s) := by
  cases c with
  | createSession hostname smUdpPort rpcId uniqToken =>
    rcases createSession_cases C r hostname smUdpPort rpcId uniqToken with h | ⟨hring, h⟩
    · exact Or.inl h
    · exact Or.inr (Or.inl ⟨hostname, smUdpPort, rpcId, uniqToken, rfl, hring, h⟩)
  | destroySession n slotsFree =>
    rcases destroySession_cases r n slotsFree with h | h
    · exact Or.inl h
    · exact Or.inr (Or.inr h)

/-- A connect request: a known token is answered while its session is connected, a new one is
refused or gets a session. -/
theorem handleConnectReq_cases (h : r.handleConnectReq C resolve p = some r') :
    (∃ n, r.connReqTokenMap p.uniqToken = some n ∧
      ((r.sessionVec[n]? = some none ∧ r' = r) ∨
        ∃ s, r.sessionVec[n]? = some (some s) ∧
          ((s.state ≠ .kConnected ∧ r' = r) ∨
            (s.state = .kConnected ∧ r' = r.udpTx (accept p s))))) ∨
    (r.connReqTokenMap p.uniqToken = none ∧
      ((∃ err, err ≠ .kNoError ∧ r' = r.udpTx (p.constructResp err)) ∨
        ∃ rinfo, r.haveRingEntries ∧ r' = r.openServer C p rinfo)) := by
  unfold handleConnectReq at h
  cases ht : r.connReqTokenMap p.uniqToken with
  | some n =>
    rw [ht] at h
    obtain ⟨e, he, rfl⟩ := Option.map_eq_some_iff.mp h
    refine Or.inl ⟨n, rfl, ?_⟩
    cases e with
    | none => exact Or.inl ⟨he, rfl⟩
    | some s =>
      refine Or.inr ⟨s, he, ?_⟩
      dsimp only
      split_ifs with hstate
      · exact Or.inl ⟨hstate, rfl⟩
      · exact Or.inr ⟨not_not.mp hstate, rfl⟩
  | none =>
    rw [ht, Option.some.injEq] at h
    refine Or.inr ⟨rfl, ?_⟩
    subst h
    unfold handleNewConnectReq
    split_ifs with htr hring
    · exact Or.inl ⟨.kInvalidTransport, by decide, rfl⟩
    · cases resolve p.client.routingInfo with
      | none => exact Or.inl ⟨.kRoutingResolutionFailure, by decide, rfl⟩
      | some rinfo => exact Or.inr ⟨rinfo, hring, rfl⟩
    · exact Or.inl ⟨.kRingExhausted, by decide, rfl⟩

/-- The session after `handle_connect_resp_st` accepted the server's answer. -/
def connected (s : SmSession) (p : SmPkt) (rinfo : ℕ) : SmSession :=
  { s with
    server := { p.server with routingInfo := rinfo }
    remoteSessionNum := p.server.sessionNum
    state := .kConnected }

/-- A connect response: ignored, kept for a retry, fatal, or the session is connected or, if
the server's address cannot be resolved, disconnected. -/
theorem handleConnectResp_cases (h : r.handleConnectResp C resolve cb p = some r') :
    (r.sessionVec[p.client.sessionNum]? = some none ∧ r' = r) ∨
    ∃ s, r.sessionVec[p.client.sessionNum]? = some (some s) ∧
      ((s.state ≠ .kConnectInProgress ∧ r' = r) ∨
        s.state = .kConnectInProgress ∧
          ((r' = { r with smPendingReqs := insert s.localSessionNum r.smPendingReqs }) ∨
            (p.errType ≠ .kNoError ∧
              ¬ (p.errType = .kInvalidRemoteRpcId ∧ C.retryConnectOnInvalidRpcId = true) ∧
              (r.freeRingEntries.smHandler C cb s .kConnectFailed p.errType).burySession s
                = some r') ∨
            (p.errType = .kNoError ∧
              r' = r.closeClient p.client.sessionNum { s with server := p.server }) ∨
            (p.errType = .kNoError ∧ ∃ rinfo,
              r' = (r.write p.client.sessionNum (connected s p rinfo)).smHandler C cb
                (connected s p rinfo) .kConnected .kNoError))) := by
  obtain ⟨e, he, hr⟩ := Option.bind_eq_some_iff.mp h
  cases e with
  | none => exact Or.inl ⟨he, (Option.some.inj hr).symm⟩
  | some s =>
    refine Or.inr ⟨s, he, ?_⟩
    dsimp only at hr
    split_ifs at hr with hstate hretry herr
    · exact Or.inl ⟨hstate, (Option.some.inj hr).symm⟩
    · exact Or.inr ⟨not_not.mp hstate, Or.inl (Option.some.inj hr).symm⟩
    · exact Or.inr ⟨not_not.mp hstate, Or.inr (Or.inl ⟨herr, hretry, hr⟩)⟩
    · refine Or.inr ⟨not_not.mp hstate, Or.inr (Or.inr ?_)⟩
      cases hres : resolve p.server.routingInfo with
      | none =>
        rw [hres] at hr
        exact Or.inl ⟨not_not.mp herr, (Option.some.inj hr).symm⟩
      | some rinfo =>
        rw [hres] at hr
        exact Or.inr ⟨not_not.mp herr, rinfo, (Option.some.inj hr).symm⟩

/-- A disconnect request is answered, and buries the session it names. -/
theorem handleDisconnectReq_cases (h : r.handleDisconnectReq p = some r') :
    (r.sessionVec[p.server.sessionNum]? = some none ∧
      r' = r.udpTx (p.constructResp .kNoError)) ∨
    ∃ s, r.sessionVec[p.server.sessionNum]? = some (some s) ∧
      (r.freeRingEntries.udpTx (p.constructResp .kNoError)).burySession s = some r' := by
  obtain ⟨e, he, hr⟩ := Option.bind_eq_some_iff.mp h
  cases e with
  | none => exact Or.inl ⟨he, (Option.some.inj hr).symm⟩
  | some s => exact Or.inr ⟨s, he, hr⟩

/-- A disconnect response buries the session it names. -/
theorem handleDisconnectResp_cases (h : r.handleDisconnectResp C cb p = some r') :
    (r.sessionVec[p.client.sessionNum]? = some none ∧ r' = r) ∨
    ∃ s, r.sessionVec[p.client.sessionNum]? = some (some s) ∧
      (r.freeRingEntries.smHandler C cb s .kDisconnected .kNoError).burySession s = some r' := by
  obtain ⟨e, he, hr⟩ := Option.bind_eq_some_iff.mp h
  cases e with
  | none => exact Or.inl ⟨he, (Option.some.inj hr).symm⟩
  | some s => exact Or.inr ⟨s, he, hr⟩

/-- The state in which a handler is called: the packets of the last event are gone, and maybe
a pending request. -/
structure Fresh (r r₁ : Sm) : Prop where
  sessionVec : r₁.sessionVec = r.sessionVec
  ringEntriesAvailable : r₁.ringEntriesAvailable = r.ringEntriesAvailable
  connReqTokenMap : r₁.connReqTokenMap = r.connReqTokenMap
  created : r₁.created = r.created
  opened : r₁.opened = r.opened
  events : r₁.events = r.events
  out : r₁.out = []

theorem fresh_erasePending (r : Sm) (p : SmPkt) : Fresh r (erasePending p { r with out := [] }) := by
  unfold erasePending
  split_ifs <;> exact ⟨rfl, rfl, rfl, rfl, rfl, rfl, rfl⟩

/-- A packet goes to the handler of its type, after a response has removed a pending request. -/
theorem recv_handler (h : r.step C (.recv resolve cb p) = some r') :
    (p.pktType = .kConnectReq ∧
      (erasePending p { r with out := [] }).handleConnectReq C resolve p = some r') ∨
    (p.pktType = .kDisconnectReq ∧
      (erasePending p { r with out := [] }).handleDisconnectReq p = some r') ∨
    (p.pktType = .kConnectResp ∧
      (erasePending p { r with out := [] }).handleConnectResp C resolve cb p = some r') ∨
    (p.pktType = .kDisconnectResp ∧
      (erasePending p { r with out := [] }).handleDisconnectResp C cb p = some r') := by
  replace h : handleSmRx C resolve cb p { r with out := [] } = some r' := h
  unfold handleSmRx at h
  split at h
  · next ht => exact Or.inl ⟨ht, h⟩
  · next ht => exact Or.inr (Or.inl ⟨ht, h⟩)
  · next ht => exact Or.inr (Or.inr (Or.inl ⟨ht, h⟩))
  · next ht => exact Or.inr (Or.inr (Or.inr ⟨ht, h⟩))
  all_goals simp at h

theorem recv_cases (h : r.step C (.recv resolve cb p) = some r') :
    ∃ r₁, Fresh r r₁ ∧
      ((p.pktType = .kConnectReq ∧ r₁.handleConnectReq C resolve p = some r') ∨
        (p.pktType = .kDisconnectReq ∧ r₁.handleDisconnectReq p = some r') ∨
        (p.pktType = .kConnectResp ∧ r₁.handleConnectResp C resolve cb p = some r') ∨
        (p.pktType = .kDisconnectResp ∧ r₁.handleDisconnectResp C cb p = some r')) :=
  ⟨_, fresh_erasePending r p, recv_handler h⟩

/-- Burying writes a null entry at the session's number. -/
theorem burySession_cases (h : r.burySession s = some r') :
    s.localSessionNum < r.sessionVec.length ∧
      r' = { r with sessionVec := r.sessionVec.set s.localSessionNum none } := by
  unfold burySession at h
  split_ifs at h with hlt
  exact ⟨hlt, (Option.some.inj h).symm⟩

/-- What a handler can do to the sessions, from the state in which it is called. -/
inductive Effect (C : SmCfg) (cb : List ApiCall) (p : SmPkt) (r : Sm) : Sm → Prop
  | idle (out : List SmPkt) (pending : Finset ℕ) :
    Effect C cb p r { r with out := out, smPendingReqs := pending }
  | openServer (rinfo : ℕ) (hty : p.pktType = .kConnectReq)
    (hnew : r.connReqTokenMap p.uniqToken = none) (hring : r.haveRingEntries) :
    Effect C cb p r (r.openServer C p rinfo)
  | closeClient (s : SmSession) (hget : r.sessionVec[p.client.sessionNum]? = some (some s))
    (hstate : s.state = .kConnectInProgress) :
    Effect C cb p r (r.closeClient p.client.sessionNum { s with server := p.server })
  | connect (s : SmSession) (rinfo : ℕ)
    (hget : r.sessionVec[p.client.sessionNum]? = some (some s))
    (hstate : s.state = .kConnectInProgress) :
    Effect C cb p r ((r.write p.client.sessionNum (connected s p rinfo)).smHandler C cb
      (connected s p rinfo) .kConnected .kNoError)
  | answer (n : ℕ) (s : SmSession) (hget : r.sessionVec[n]? = some (some s)) (q : SmPkt) :
    Effect C cb p r { r.freeRingEntries.udpTx q with
      sessionVec := r.sessionVec.set s.localSessionNum none }
  | farewell (n : ℕ) (s : SmSession) (hget : r.sessionVec[n]? = some (some s)) (ev : SmEventType)
    (err : SmErrType) :
    Effect C cb p r { r.freeRingEntries.smHandler C cb s ev err with
      sessionVec := (r.freeRingEntries.smHandler C cb s ev err).sessionVec.set
        s.localSessionNum none }

/-- A packet has one of the effects. -/
theorem recv_effect (h : r.step C (.recv resolve cb p) = some r') :
    ∃ r₁, Fresh r r₁ ∧ Effect C cb p r₁ r' := by
  obtain ⟨r₁, hf, hcase⟩ := recv_cases h
  refine ⟨r₁, hf, ?_⟩
  rcases hcase with ⟨hty, hs⟩ | ⟨-, hs⟩ | ⟨-, hs⟩ | ⟨-, hs⟩
  · rcases handleConnectReq_cases hs with
      ⟨n, -, ⟨-, rfl⟩ | ⟨s, -, ⟨-, rfl⟩ | ⟨-, rfl⟩⟩⟩ |
      ⟨hnew, ⟨err, -, rfl⟩ | ⟨rinfo, hring, rfl⟩⟩
    · exact .idle _ _
    · exact .idle _ _
    · exact .idle _ _
    · exact .idle _ _
    · exact .openServer rinfo hty hnew hring
  · rcases handleDisconnectReq_cases hs with ⟨-, rfl⟩ | ⟨s, hget, hb⟩
    · exact .idle _ _
    · obtain ⟨-, rfl⟩ := burySession_cases hb
      exact .answer _ s hget _
  · rcases handleConnectResp_cases hs with ⟨-, rfl⟩ | ⟨s, hget, ⟨-, rfl⟩ |
      ⟨hstate, rfl | ⟨-, -, hb⟩ | ⟨-, rfl⟩ | ⟨-, rinfo, rfl⟩⟩⟩
    · exact .idle _ _
    · exact .idle _ _
    · exact .idle _ _
    · obtain ⟨-, rfl⟩ := burySession_cases hb
      exact .farewell _ s hget _ _
    · exact .closeClient s hget hstate
    · exact .connect s rinfo hget hstate
  · rcases handleDisconnectResp_cases hs with ⟨-, rfl⟩ | ⟨s, hget, hb⟩
    · exact .idle _ _
    · obtain ⟨-, rfl⟩ := burySession_cases hb
      exact .farewell _ s hget _ _

/-- What every call keeps holds after all of them. -/
theorem calls_ind {P : Sm → Prop} (h0 : P r) (hcall : ∀ r, ∀ c ∈ cb, P r → P (r.call C c)) :
    P (cb.foldl (call C) r) := by
  induction cb generalizing r with
  | nil => exact h0
  | cons c cb ih =>
    exact ih (hcall r c List.mem_cons_self h0)
      fun x c' hc' => hcall x c' (List.mem_cons_of_mem c hc')

/-- What holds before the callback and is kept by every call holds after it. -/
theorem smHandler_ind {P : Sm → Prop} (s : SmSession) (ev : SmEventType) (err : SmErrType)
    (h0 : P { r with events := r.events ++ [⟨s.localSessionNum, ev, err, s.uniqToken⟩] })
    (hcall : ∀ r, ∀ c ∈ cb, P r → P (r.call C c)) : P (r.smHandler C cb s ev err) :=
  calls_ind h0 hcall

/-! ## Entries of the vector -/

theorem getElem?_snoc {α : Type*} {l : List α} {x y : α} {i : ℕ} :
    (l ++ [x])[i]? = some y ↔ l[i]? = some y ∨ (i = l.length ∧ x = y) := by
  rcases Nat.lt_trichotomy i l.length with hlt | rfl | hgt
  · rw [List.getElem?_append_left hlt]
    exact ⟨Or.inl, fun h => h.resolve_right fun h' => by omega⟩
  · simp
  · rw [List.getElem?_eq_none (by simp; omega), List.getElem?_eq_none (by omega)]
    simp
    omega

theorem lt_of_getElem? {α : Type*} {l : List α} {x : α} {i : ℕ} (h : l[i]? = some x) :
    i < l.length := (List.getElem?_eq_some_iff.mp h).1

theorem getElem?_set_some {α : Type*} {l : List α} {x y : α} {i j : ℕ}
    (h : (l.set i x)[j]? = some y) : (j = i ∧ y = x) ∨ (j ≠ i ∧ l[j]? = some y) := by
  by_cases hij : j = i
  · subst hij
    have hlt : j < l.length := by
      have := lt_of_getElem? h
      rwa [List.length_set] at this
    rw [List.getElem?_set_self hlt, Option.some.injEq] at h
    exact Or.inl ⟨rfl, h.symm⟩
  · rw [List.getElem?_set_ne (Ne.symm hij)] at h
    exact Or.inr ⟨hij, h⟩

theorem openClient_sessionVec (C : SmCfg) (r : Sm) (hostname : List Char) (port rpcId token : ℕ) :
    (r.openClient C hostname port rpcId token).sessionVec = r.sessionVec ++
      [some (newClient C hostname port rpcId token (r.sessionVec.length % numSessionNums))] := rfl

theorem openServer_sessionVec (C : SmCfg) (r : Sm) (p : SmPkt) (rinfo : ℕ) :
    (r.openServer C p rinfo).sessionVec = r.sessionVec ++
      [some (newServer C p rinfo (r.sessionVec.length % numSessionNums))] := rfl

/-! ## The vector grows -/

/-- The vector has only grown since `r`, by live sessions with the number of their entry as a
`uint16_t`, and no session of `r` is buried. -/
structure Grown (r r' : Sm) : Prop where
  length_le : r.sessionVec.length ≤ r'.sessionVec.length
  old : ∀ (i : ℕ) (s : SmSession), r.sessionVec[i]? = some (some s) → ∃ s', r'.sessionVec[i]? = some (some s')
  new : ∀ i, r.sessionVec.length ≤ i → i < r'.sessionVec.length →
    ∃ s, r'.sessionVec[i]? = some (some s) ∧ s.localSessionNum = i % numSessionNums

theorem Grown.of_eq (h : r'.sessionVec = r.sessionVec) : Grown r r' where
  length_le := by rw [h]
  old := fun i s hs => ⟨s, by rw [h]; exact hs⟩
  new := by
    intro i hle hlt
    rw [h] at hlt
    omega

theorem Grown.push (hv : r'.sessionVec = r.sessionVec ++ [some s])
    (hs : s.localSessionNum = r.sessionVec.length % numSessionNums) : Grown r r' where
  length_le := by rw [hv]; simp
  old := fun i s' h => ⟨s', by rw [hv]; exact getElem?_snoc.mpr (Or.inl h)⟩
  new := by
    intro i hle hlt
    rw [hv, List.length_append, List.length_singleton] at hlt
    obtain rfl : i = r.sessionVec.length := by omega
    exact ⟨s, by rw [hv]; exact getElem?_snoc.mpr (Or.inr ⟨rfl, rfl⟩), hs⟩

theorem Grown.write {s' : SmSession}
    (hv : r'.sessionVec = r.sessionVec.set i (some s')) : Grown r r' where
  length_le := by rw [hv, List.length_set]
  old := by
    intro j t hj
    rw [hv]
    by_cases hij : i = j
    · subst hij
      exact ⟨s', List.getElem?_set_self (lt_of_getElem? hj)⟩
    · exact ⟨t, by rw [List.getElem?_set_ne hij]; exact hj⟩
  new := by
    intro j hle hlt
    rw [hv, List.length_set] at hlt
    omega

/-- A call changes the state and not the number of a session. -/
theorem Grown.call {r₀ : Sm} (h : Grown r₀ r) (c : ApiCall) : Grown r₀ (r.call C c) := by
  rcases call_cases C r c with he | ⟨hostname, port, rpcId, token, -, -, he⟩ |
      ⟨i, s, hs, -, -, he⟩
  · rwa [he]
  · rw [he]
    have hv := openClient_sessionVec C r hostname port rpcId token
    refine ⟨?_, ?_, ?_⟩
    · rw [hv, List.length_append]
      exact Nat.le_add_right_of_le h.length_le
    · intro i s hs
      obtain ⟨s', hs'⟩ := h.old i s hs
      exact ⟨s', by rw [hv]; exact getElem?_snoc.mpr (Or.inl hs')⟩
    · intro i hle hlt
      rw [hv, List.length_append] at hlt
      rcases Nat.lt_succ_iff_lt_or_eq.mp hlt with hlt | rfl
      · obtain ⟨s, hs, hnum⟩ := h.new i hle hlt
        exact ⟨s, getElem?_snoc.mpr (Or.inl hs), hnum⟩
      · exact ⟨_, getElem?_snoc.mpr (Or.inr ⟨rfl, rfl⟩), rfl⟩
  · rw [he]
    have hw : Grown r (r.closeClient i s) := Grown.write rfl
    refine ⟨le_trans h.length_le hw.length_le, ?_, ?_⟩
    · intro j t ht
      obtain ⟨t', ht'⟩ := h.old j t ht
      exact hw.old j t' ht'
    · intro j hle hlt
      have hv : (r.closeClient i s).sessionVec
          = r.sessionVec.set i (some { s with state := .kDisconnectInProgress }) := rfl
      rw [hv, List.length_set] at hlt
      obtain ⟨t, ht, hnum⟩ := h.new j hle hlt
      rw [hv]
      by_cases hij : i = j
      · subst hij
        rw [hs] at ht
        obtain rfl : s = t := by simpa using ht
        exact ⟨_, List.getElem?_set_self hlt, hnum⟩
      · exact ⟨t, by rw [List.getElem?_set_ne hij]; exact ht, hnum⟩

theorem Grown.smHandler {r₀ : Sm} (h : Grown r₀ r) (s : SmSession) (ev : SmEventType)
    (err : SmErrType) : Grown r₀ (r.smHandler C cb s ev err) :=
  smHandler_ind s ev err ⟨h.length_le, h.old, h.new⟩ fun _ c _ hr => hr.call c

/-- What every call keeps while there are session numbers left.  The vector only grows, so it was
short enough before each call. -/
theorem smHandler_ind_le {P : Sm → Prop} (s : SmSession) (ev : SmEventType) (err : SmErrType)
    (h0 : P { r with events := r.events ++ [⟨s.localSessionNum, ev, err, s.uniqToken⟩] })
    (hcall : ∀ r, ∀ c ∈ cb, P r → (r.call C c).sessionVec.length ≤ numSessionNums →
      P (r.call C c))
    (hlen : (r.smHandler C cb s ev err).sessionVec.length ≤ numSessionNums) :
    P (r.smHandler C cb s ev err) := by
  have key : (r.smHandler C cb s ev err).sessionVec.length ≤ numSessionNums →
      P (r.smHandler C cb s ev err) := by
    refine smHandler_ind (P := fun x => x.sessionVec.length ≤ numSessionNums → P x) s ev err
      (fun _ => h0) ?_
    intro x c hc hx hle
    have hgrow : Grown x (x.call C c) := (Grown.of_eq rfl).call c
    exact hcall x c hc (hx (le_trans hgrow.length_le hle)) hle
  exact key hlen

/-! ## The invariant -/

/-- What a live entry `i` holds. -/
structure EntryOk (created : List (ℕ × ℕ)) (i : ℕ) (s : SmSession) : Prop where
  localNum : s.localSessionNum = i
  server : s.role = .kServer → (s.uniqToken, i) ∈ created ∧ s.state = .kConnected ∧
    s.server.sessionNum = i ∧ s.remoteSessionNum = s.client.sessionNum
  client : s.role = .kClient → s.client.sessionNum = i ∧
    (s.state = .kConnected → s.remoteSessionNum = s.server.sessionNum)

/-- The invariant of the sessions and tokens. -/
structure Good (r : Sm) : Prop where
  entry : ∀ (i : ℕ) (s : SmSession), r.sessionVec[i]? = some (some s) → EntryOk r.created i s
  nodup : (r.created.map Prod.fst).Nodup
  tokenMap : ∀ t n, r.connReqTokenMap t = some n ↔ (t, n) ∈ r.created
  made : ∀ t n, (t, n) ∈ r.created → r.sessionVec[n]? = some none ∨
    ∃ s, r.sessionVec[n]? = some (some s) ∧ s.role = .kServer ∧ s.uniqToken = t

theorem Good.init : Good Sm.init where
  entry := by simp [Sm.init]
  nodup := by simp [Sm.init]
  tokenMap := by simp [Sm.init]
  made := by simp [Sm.init]

/-- Ring entries, packets, pending requests and events do not matter. -/
theorem Good.congr (h : Good r) (hv : r'.sessionVec = r.sessionVec) (hc : r'.created = r.created)
    (hm : r'.connReqTokenMap = r.connReqTokenMap) : Good r' := by
  refine ⟨?_, ?_, ?_, ?_⟩
  · rw [hv, hc]
    exact h.entry
  · rw [hc]
    exact h.nodup
  · rw [hm, hc]
    exact h.tokenMap
  · rw [hv, hc]
    exact h.made

theorem Good.write {s' : SmSession} (h : Good r) (hs : r.sessionVec[i]? = some (some s))
    (hrole : s'.role = s.role) (htok : s'.uniqToken = s.uniqToken)
    (hok : EntryOk r.created i s') : Good (r.write i s') := by
  refine ⟨?_, h.nodup, h.tokenMap, ?_⟩
  · intro j t ht
    rcases getElem?_set_some ht with ⟨rfl, he⟩ | ⟨-, he⟩
    · rw [Option.some.injEq] at he
      exact he ▸ hok
    · exact h.entry j t he
  · intro t n hmem
    show (r.sessionVec.set i (some s'))[n]? = _ ∨
      ∃ s, (r.sessionVec.set i (some s'))[n]? = _ ∧ _
    by_cases hin : i = n
    · subst hin
      rcases h.made t i hmem with hnull | ⟨s1, hs1, hr, ht⟩
      · rw [hs] at hnull
        simp at hnull
      · rw [hs] at hs1
        obtain rfl : s = s1 := by simpa using hs1
        exact Or.inr ⟨s', List.getElem?_set_self (lt_of_getElem? hs), hrole.trans hr, htok.trans ht⟩
    · rw [List.getElem?_set_ne hin]
      exact h.made t n hmem

theorem Good.setNull (h : Good r) (i : ℕ) :
    Good { r with sessionVec := r.sessionVec.set i none } := by
  refine ⟨?_, h.nodup, h.tokenMap, ?_⟩
  · intro j t ht
    rcases getElem?_set_some ht with ⟨-, he⟩ | ⟨-, he⟩
    · simp at he
    · exact h.entry j t he
  · intro t n hmem
    show (r.sessionVec.set i none)[n]? = _ ∨ ∃ s, (r.sessionVec.set i none)[n]? = _ ∧ _
    by_cases hin : i = n
    · subst hin
      have hlt : i < r.sessionVec.length := by
        rcases h.made t i hmem with hnull | ⟨s1, hs1, -⟩
        · exact lt_of_getElem? hnull
        · exact lt_of_getElem? hs1
      exact Or.inl (List.getElem?_set_self hlt)
    · rw [List.getElem?_set_ne hin]
      exact h.made t n hmem

theorem Good.openClient (h : Good r) (hlt : r.sessionVec.length < numSessionNums)
    (hostname : List Char) (port rpcId token : ℕ) :
    Good (r.openClient C hostname port rpcId token) := by
  have hnum : r.sessionVec.length % numSessionNums = r.sessionVec.length := Nat.mod_eq_of_lt hlt
  refine ⟨?_, h.nodup, h.tokenMap, ?_⟩
  · intro i s hs
    rw [openClient_sessionVec, getElem?_snoc, Option.some.injEq] at hs
    rcases hs with hs | ⟨rfl, rfl⟩
    · exact h.entry i s hs
    · refine ⟨hnum, fun hrole => absurd hrole (by simp [newClient]), fun _ => ⟨hnum, ?_⟩⟩
      intro hstate
      simp [newClient] at hstate
  · intro t n hmem
    rcases h.made t n hmem with hnull | ⟨s, hs, hrest⟩
    · exact Or.inl (getElem?_snoc.mpr (Or.inl hnull))
    · exact Or.inr ⟨s, getElem?_snoc.mpr (Or.inl hs), hrest⟩

theorem Good.openServer (h : Good r) (hlt : r.sessionVec.length < numSessionNums)
    (hnew : r.connReqTokenMap p.uniqToken = none) (rinfo : ℕ) :
    Good (r.openServer C p rinfo) := by
  have hnum : r.sessionVec.length % numSessionNums = r.sessionVec.length := Nat.mod_eq_of_lt hlt
  have hfresh : ∀ n, (p.uniqToken, n) ∉ r.created := by
    intro n hmem
    rw [(h.tokenMap _ n).mpr hmem] at hnew
    simp at hnew
  refine ⟨?_, ?_, ?_, ?_⟩
  · intro i s hs
    show EntryOk (r.created ++ [(p.uniqToken, r.sessionVec.length % numSessionNums)]) i s
    rw [hnum]
    rw [openServer_sessionVec, getElem?_snoc, Option.some.injEq] at hs
    rcases hs with hs | ⟨rfl, rfl⟩
    · have hok := h.entry i s hs
      exact ⟨hok.localNum, fun hrole => ⟨List.mem_append_left _ (hok.server hrole).1,
        (hok.server hrole).2⟩, hok.client⟩
    · refine ⟨hnum, fun _ => ⟨?_, rfl, hnum, rfl⟩, fun hrole => absurd hrole (by simp [newServer])⟩
      exact List.mem_append_right _ (List.mem_singleton.mpr rfl)
  · show ((r.created ++ [_]).map Prod.fst).Nodup
    rw [List.map_append, List.map_singleton]
    refine h.nodup.append (List.nodup_singleton _) ?_
    rw [List.disjoint_singleton, List.mem_map]
    rintro ⟨⟨t, n⟩, hmem, rfl⟩
    exact hfresh n hmem
  · intro t n
    show Function.update r.connReqTokenMap p.uniqToken _ t = some n ↔ (t, n) ∈ r.created ++ [_]
    rw [List.mem_append, List.mem_singleton, Prod.mk.injEq]
    by_cases ht : t = p.uniqToken
    · subst ht
      rw [Function.update_self, Option.some.injEq]
      constructor
      · intro hn
        exact Or.inr ⟨rfl, hn.symm⟩
      · rintro (hmem | ⟨-, hn⟩)
        · exact absurd hmem (hfresh n)
        · exact hn.symm
    · rw [Function.update_of_ne ht, h.tokenMap]
      exact ⟨Or.inl, fun hor => hor.resolve_right fun hr => ht hr.1⟩
  · intro t n hmem
    rcases List.mem_append.mp hmem with hmem | hmem
    · rcases h.made t n hmem with hnull | ⟨s, hs, hrest⟩
      · exact Or.inl (getElem?_snoc.mpr (Or.inl hnull))
      · exact Or.inr ⟨s, getElem?_snoc.mpr (Or.inl hs), hrest⟩
    · rw [List.mem_singleton] at hmem
      obtain ⟨rfl, rfl⟩ := hmem
      exact Or.inr ⟨_, getElem?_snoc.mpr (Or.inr ⟨hnum, rfl⟩), rfl, rfl⟩

theorem Good.closeClient (h : Good r) (hs : r.sessionVec[i]? = some (some s))
    (hrole : s.role = .kClient) (server : SessionEndpoint) :
    Good (r.closeClient i { s with server := server }) := by
  have hok := h.entry i s hs
  have hw : Good (r.write i { s with server := server, state := .kDisconnectInProgress }) := by
    refine h.write hs rfl rfl ⟨hok.localNum, fun hr => ?_, fun _ => ⟨(hok.client hrole).1, ?_⟩⟩
    · exact absurd (hrole.symm.trans hr) (by simp)
    · intro hstate
      simp at hstate
  exact hw.congr rfl rfl rfl

theorem Good.call (h : Good r) (c : ApiCall)
    (hlen : (r.call C c).sessionVec.length ≤ numSessionNums) : Good (r.call C c) := by
  rcases call_cases C r c with he | ⟨hostname, port, rpcId, token, -, -, he⟩ |
      ⟨i, s, hs, hrole, -, he⟩
  · rwa [he]
  · rw [he] at hlen ⊢
    have hv : (r.openClient C hostname port rpcId token).sessionVec.length
        = r.sessionVec.length + 1 := List.length_append
    exact h.openClient (by omega) hostname port rpcId token
  · rw [he]
    exact h.closeClient hs hrole s.server

theorem Good.smHandler (h : Good r) (s : SmSession) (ev : SmEventType) (err : SmErrType)
    (hlen : (r.smHandler C cb s ev err).sessionVec.length ≤ numSessionNums) :
    Good (r.smHandler C cb s ev err) :=
  smHandler_ind_le s ev err (h.congr rfl rfl rfl) (fun _ c _ hx hle => hx.call c hle) hlen

/-- **One event keeps the sessions in order**, while there are session numbers left. -/
theorem Good.step {a : SmAct} (h : Good r) (hs : r.step C a = some r')
    (hlen : r'.sessionVec.length ≤ numSessionNums) : Good r' := by
  cases a with
  | api c =>
    obtain rfl := Option.some.inj hs
    have h0 : Good { r with out := [] } := h.congr rfl rfl rfl
    exact h0.call c hlen
  | recv resolve cb p =>
    obtain ⟨r1, hf, he⟩ := recv_effect hs
    have h1 : Good r1 := h.congr hf.sessionVec hf.created hf.connReqTokenMap
    have hfree : Good r1.freeRingEntries := h1.congr rfl rfl rfl
    cases he with
    | idle out pending => exact h1.congr rfl rfl rfl
    | openServer rinfo _ hnew =>
      have hv : (r1.openServer C p rinfo).sessionVec.length = r1.sessionVec.length + 1 :=
        List.length_append
      exact h1.openServer (by omega) hnew rinfo
    | closeClient s hget hstate =>
      have hrole : s.role = .kClient := by
        cases hr : s.role with
        | kClient => rfl
        | kServer =>
          have := ((h1.entry _ s hget).server hr).2.1
          rw [hstate] at this
          simp at this
      exact h1.closeClient hget hrole p.server
    | connect s rinfo hget hstate =>
      have hok := h1.entry _ s hget
      have hw : Good (r1.write p.client.sessionNum (connected s p rinfo)) := by
        refine h1.write hget rfl rfl ⟨hok.localNum, fun hr => ?_, fun hr => ?_⟩
        · have := (hok.server hr).2.1
          rw [hstate] at this
          simp at this
        · exact ⟨(hok.client hr).1, fun _ => rfl⟩
      exact hw.smHandler _ _ _ hlen
    | answer n s hget q =>
      have hsent : Good (r1.freeRingEntries.udpTx q) := h1.congr rfl rfl rfl
      exact hsent.setNull _
    | farewell n s hget ev err =>
      rw [List.length_set] at hlen
      exact (hfree.smHandler s _ _ hlen).setNull _

/-! ## Ring entries -/

/-- `num_active_sessions_st`. -/
def numActiveSessions (r : Sm) : ℕ := r.sessionVec.countP Option.isSome

/-- Ring entries that are available, and those of the live sessions. -/
def load (r : Sm) : ℕ := r.ringEntriesAvailable + kSessionCredits * r.numActiveSessions

theorem numActiveSessions_push (h : r'.sessionVec = r.sessionVec ++ [some s]) :
    r'.numActiveSessions = r.numActiveSessions + 1 := by
  unfold numActiveSessions
  rw [h, List.countP_append]
  rfl

theorem numActiveSessions_write {s' : SmSession} (hs : r.sessionVec[i]? = some (some s))
    (h : r'.sessionVec = r.sessionVec.set i (some s')) :
    r'.numActiveSessions = r.numActiveSessions := by
  obtain ⟨hlt, hget⟩ := List.getElem?_eq_some_iff.mp hs
  have hpos : 0 < r.sessionVec.countP Option.isSome :=
    List.countP_pos_iff.mpr ⟨some s, hget ▸ List.getElem_mem hlt, rfl⟩
  unfold numActiveSessions
  rw [h, List.countP_set hlt, hget]
  simp only [Option.isSome_some, if_true]
  omega

theorem numActiveSessions_null (hs : r.sessionVec[i]? = some (some s))
    (h : r'.sessionVec = r.sessionVec.set i none) :
    r'.numActiveSessions + 1 = r.numActiveSessions := by
  obtain ⟨hlt, hget⟩ := List.getElem?_eq_some_iff.mp hs
  have hpos : 0 < r.sessionVec.countP Option.isSome :=
    List.countP_pos_iff.mpr ⟨some s, hget ▸ List.getElem_mem hlt, rfl⟩
  unfold numActiveSessions
  rw [h, List.countP_set hlt, hget]
  simp only [Option.isSome_some, Option.isSome_none, if_true, Bool.false_eq_true, if_false]
  omega

/-- A new session takes the entries that it found available. -/
theorem load_push (hring : r.haveRingEntries) (hv : r'.sessionVec = r.sessionVec ++ [some s])
    (hr : r'.ringEntriesAvailable = r.allocRingEntries.ringEntriesAvailable) :
    r'.load = r.load := by
  unfold haveRingEntries at hring
  have halloc : r.allocRingEntries.ringEntriesAvailable
      = r.ringEntriesAvailable - kSessionCredits := if_pos hring
  unfold load
  rw [numActiveSessions_push hv, hr, Nat.mul_add]
  omega

theorem load_call (C : SmCfg) (r : Sm) (c : ApiCall) : (r.call C c).load = r.load := by
  rcases call_cases C r c with he | ⟨hostname, port, rpcId, token, -, hring, he⟩ |
      ⟨i, s, hs, -, -, he⟩
  · rw [he]
  · rw [he]
    exact load_push hring (openClient_sessionVec C r hostname port rpcId token) rfl
  · rw [he]
    unfold load
    rw [numActiveSessions_write hs rfl]
    rfl

theorem load_smHandler (s : SmSession) (ev : SmEventType) (err : SmErrType) :
    (r.smHandler C cb s ev err).load = r.load :=
  smHandler_ind (P := fun x => x.load = r.load) s ev err rfl
    fun x c _ hx => (load_call C x c).trans hx

theorem load_free (h : r.load + kSessionCredits < 2 ^ 64) :
    r.freeRingEntries.load = r.load + kSessionCredits := by
  unfold load at h ⊢
  show (if _ then _ else _) + kSessionCredits * r.numActiveSessions = _
  rw [if_pos (by omega)]
  omega

/-- Freeing the entries of a session and burying it, with any calls in between, keeps the
load. -/
theorem load_bury (h : r.load + kSessionCredits < 2 ^ 64)
    (hs : r.sessionVec[i]? = some (some s)) {x : Sm}
    (hx : Grown r x) (hload : x.load = r.freeRingEntries.load) :
    load { x with sessionVec := x.sessionVec.set i none } = r.load := by
  obtain ⟨s', hs'⟩ := hx.old _ s hs
  have hnum : numActiveSessions { x with sessionVec := x.sessionVec.set i none } + 1
      = x.numActiveSessions := numActiveSessions_null hs' rfl
  rw [load_free h] at hload
  unfold load at hload ⊢
  rw [← hnum, Nat.mul_add] at hload
  dsimp only at hload ⊢
  omega

/-- **One event keeps the ring entries.** -/
theorem load_step {a : SmAct} (h : Good r) (hload : r.load + kSessionCredits < 2 ^ 64)
    (hs : r.step C a = some r') : r'.load = r.load := by
  cases a with
  | api c =>
    obtain rfl := Option.some.inj hs
    exact load_call C _ c
  | recv resolve cb p =>
    obtain ⟨r1, hf, he⟩ := recv_effect hs
    have h1 : Good r1 := h.congr hf.sessionVec hf.created hf.connReqTokenMap
    have hl : r1.load = r.load := by
      unfold load numActiveSessions
      rw [hf.ringEntriesAvailable, hf.sessionVec]
    rw [← hl] at hload ⊢
    have hgrow : Grown r1 r1.freeRingEntries := Grown.of_eq rfl
    cases he with
    | idle out pending => rfl
    | openServer rinfo _ _ hring =>
      exact load_push hring (openServer_sessionVec C r1 p rinfo) rfl
    | closeClient s hget =>
      unfold load
      rw [numActiveSessions_write hget rfl]
      rfl
    | connect s rinfo hget =>
      rw [load_smHandler]
      unfold load
      rw [numActiveSessions_write hget rfl]
      rfl
    | answer n s hget q =>
      have hsent : Grown r1 (r1.freeRingEntries.udpTx q) := Grown.of_eq rfl
      rw [(h1.entry n s hget).localNum]
      exact load_bury hload hget hsent rfl
    | farewell n s hget ev err =>
      rw [(h1.entry n s hget).localNum]
      exact load_bury hload hget (hgrow.smHandler s _ _) (load_smHandler s _ _)

end Sm

end HuiRpc
