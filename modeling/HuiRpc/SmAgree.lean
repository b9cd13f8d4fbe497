/-
# Client and server agree on their sessions

Runs of the Rpcs of `HuiRpc.SmWorld` over a network that delays, duplicates, reorders and loses
packets.

* `World.Inv.run` — the invariant holds in every state, as long as no Rpc creates more than
  `2 ^ 16` sessions;
* `no_server_session_after_burial` — if no connect request is handled after its token was
  refused, a client session that was buried has no server session;
* `refused_then_connected` — a copy of the request that comes later gets one.
-/
import HuiRpc.SmSteps

namespace HuiRpc

open Runs

namespace World

variable {K : Cluster} {w w' : World} {a b : RpcAddr} {i n t : ℕ} {s : SmSession} {p : SmPkt}
  {r r' r₁ : Sm} {x : NetAct} {cb : List ApiCall} {resolve : ℕ → Option ℕ}

/-! ## States that differ where the invariant does not look -/

/-- The fields that the invariant looks at. -/
structure Alike (r r' : Sm) : Prop where
  sessionVec : r'.sessionVec = r.sessionVec
  opened : r'.opened = r.opened
  created : r'.created = r.created
  connReqTokenMap : r'.connReqTokenMap = r.connReqTokenMap
  events : r'.events = r.events

theorem Inv.congr (h : Inv K w) (hr : ∀ a, Alike (w.rpcs a) (w'.rpcs a)) (hnet : w'.net = w.net)
    (hup : ∀ a, w.up a = true → w'.up a = true) (htok : w.tokens ⊆ w'.tokens) : Inv K w' := by
  have hext : Ext w w' :=
    ⟨fun a y hy => by rwa [(hr a).opened], fun a y hy => by rwa [(hr a).created],
      fun q hq => by rwa [hnet]⟩
  have hvec : ∀ a i, w'.vec a i = w.vec a i := fun a i => by
    unfold vec
    rw [(hr a).sessionVec]
  have htold : ∀ a ev t, w'.Told a ev t → w.Told a ev t := by
    rintro a ev t ⟨e, he, hrest⟩
    rw [(hr a).events] at he
    exact ⟨e, he, hrest⟩
  have hsent : ∀ type t, w'.Sent type t → w.Sent type t := by
    rintro type t ⟨q, hq, hrest⟩
    rw [hnet] at hq
    exact ⟨q, hq, hrest⟩
  refine ⟨?_, ?_, ?_, ?_, ?_, ?_, ?_, ?_, ?_, ?_, ?_, ?_, ?_⟩
  · intro a
    exact (h.good a).congr (hr a).sessionVec (hr a).created (hr a).connReqTokenMap
  · intro a t n b hmem
    rw [(hr a).opened] at hmem
    exact htok (h.token a t n b hmem)
  · intro a a' t n n' b b' hmem hmem'
    rw [(hr a).opened] at hmem
    rw [(hr a').opened] at hmem'
    exact h.unique a a' t n n' b b' hmem hmem'
  · intro a i s hs hrole
    rw [hvec] at hs
    exact (h.cli a i s hs hrole).mono hext
  · intro b i s hs hrole
    rw [hvec] at hs
    exact (h.srv b i s hs hrole).mono hext
  · intro a t n b hmem
    rw [(hr a).opened] at hmem
    rw [hvec]
    exact h.entry a t n b hmem
  · intro b t m hmem
    rw [(hr b).created] at hmem
    obtain ⟨hb, a, n, hn⟩ := h.created b t m hmem
    exact ⟨hup b hb, a, n, hext.opened a hn⟩
  · intro a t ht
    obtain ⟨q, hq, hrest⟩ := h.failed a t (htold a _ t ht)
    exact ⟨q, hext.net hq, hrest⟩
  · intro a t ht
    exact (h.closed a t (htold a _ t ht)).mono hext
  · intro q hq
    rw [hnet] at hq
    exact (h.pkt q hq).mono hext
  · intro t ht a i s hs
    rw [hvec] at hs
    exact h.closing t (hsent _ t ht) a i s hs
  · intro q hq hty
    rw [hnet] at hq
    rw [hvec]
    exact h.answered q hq hty
  · intro b t m hmem hnull
    rw [(hr b).created] at hmem
    rw [hvec] at hnull
    exact (h.gone b t m hmem hnull).mono hext

/-- An Rpc starts to handle an event, with the tokens that it will draw. -/
theorem Inv.enter (h : Inv K w) (hf : Sm.Fresh (w.rpcs a) r₁) (ts : List ℕ) :
    Inv K ((w.draw ts).put a r₁) := by
  refine h.congr ?_ ?_ (fun _ hb => hb) (List.subset_append_left _ _)
  · intro b
    by_cases hb : b = a
    · subst hb
      rw [put_rpcs_self]
      exact ⟨hf.sessionVec, hf.opened, hf.created, hf.connReqTokenMap, hf.events⟩
    · rw [put_rpcs_ne _ _ hb]
      exact ⟨rfl, rfl, rfl, rfl, rfl⟩
  · show w.net ++ r₁.out = w.net
    rw [hf.out, List.append_nil]

theorem fresh_out (r : Sm) : Sm.Fresh r { r with out := [] } := ⟨rfl, rfl, rfl, rfl, rfl, rfl, rfl⟩

/-- New tokens are unused. -/
theorem Inv.unused (h : Inv K w) (ht : t ∉ w.tokens) (hf : Sm.Fresh (w.rpcs a) r₁) (ts : List ℕ) :
    ((w.draw ts).put a r₁).Unused t := by
  intro a' n b hmem
  refine ht (h.token a' t n b ?_)
  by_cases ha : a' = a
  · subst ha
    rwa [put_rpcs_self, hf.opened] at hmem
  · rwa [put_rpcs_ne _ _ ha] at hmem

/-! ## The packets -/

/-- A connect request. -/
theorem Inv.connectReq {C : SmCfg} (h : Inv K (w.put a r)) (hp : p ∈ (w.put a r).net)
    (hty : p.pktType = .kConnectReq) (haddr : p.server.toRpcAddr = a) (hup : w.up a = true)
    (hs : r.handleConnectReq C resolve p = some r')
    (hlen : r'.sessionVec.length ≤ numSessionNums) : Inv K (w.put a r') := by
  have hok := h.pkt p hp
  have hresp : ∀ err, (p.constructResp err).pktType = .kConnectResp := by
    intro err
    simp [SmPkt.constructResp, hty, SmPktType.reqToResp]
  rcases Sm.handleConnectReq_cases hs with
    ⟨n, hn, ⟨-, rfl⟩ | ⟨s, hget, ⟨-, rfl⟩ | ⟨-, rfl⟩⟩⟩ | ⟨hnew, ⟨err, herr, rfl⟩ | ⟨rinfo, -, rfl⟩⟩
  · exact h
  · exact h
  · -- the session of a known token is named again
    obtain ⟨hrole, htok⟩ : s.role = .kServer ∧ s.uniqToken = p.uniqToken := by
      rcases h.goodAt.made _ n ((h.goodAt.tokenMap _ n).mp hn) with hnull | ⟨s', hs', hrest⟩
      · rw [hget] at hnull
        simp at hnull
      · rw [hget] at hs'
        obtain rfl : s = s' := by simpa using hs'
        exact hrest
    have hsrv := h.srv a n s (by rwa [put_vec_self]) hrole
    obtain ⟨hmem, -, hnum, -⟩ := (h.goodAt.entry n s hget).server hrole
    refine h.udpTx ⟨?_, Or.inr (Or.inl (hresp .kNoError)), fun _ _ => ?_⟩ (hresp .kNoError)
    · show (p.uniqToken, p.client.sessionNum, s.server.toRpcAddr) ∈ _
      rw [show s.server.toRpcAddr = p.server.toRpcAddr from hsrv.addr.trans haddr.symm]
      exact hok.opened
    · show (p.uniqToken, s.server.sessionNum) ∈ ((w.put a r).rpcs s.server.toRpcAddr).created
      rw [hsrv.addr, hnum, ← htok, put_rpcs_self]
      exact hmem
  · refine h.udpTx ⟨hok.opened, Or.inr (Or.inl (hresp _)), fun hno _ => ?_⟩ (hresp _)
    exact absurd (hno (hresp err)) herr
  · rw [Sm.openServer_sessionVec, List.length_append, List.length_singleton] at hlen
    exact h.openServer (by omega) hp haddr hnew hty hup C rinfo

/-- A disconnect request. -/
theorem Inv.disconnectReq (h : Inv K (w.put a r)) (hp : p ∈ (w.put a r).net)
    (hty : p.pktType = .kDisconnectReq) (haddr : p.server.toRpcAddr = a)
    (hs : r.handleDisconnectReq p = some r') : Inv K (w.put a r') := by
  have hok := h.pkt p hp
  have hresp : (p.constructResp .kNoError).pktType = .kDisconnectResp := by
    simp [SmPkt.constructResp, hty, SmPktType.reqToResp]
  rcases Sm.handleDisconnectReq_cases hs with ⟨hnull, rfl⟩ | ⟨s, hget, hb⟩
  · refine h.note [p.constructResp .kNoError] rfl rfl rfl rfl rfl ?_ fun e he => Or.inl he
    intro q hq
    rw [List.mem_singleton] at hq
    subst hq
    refine ⟨⟨hok.opened, Or.inr (Or.inr (Or.inr hresp)), fun _ _ => ?_⟩, by simp [hresp], fun _ => ?_⟩
    · exact hok.created (fun hd => absurd (hty.symm.trans hd) (by simp)) (by simp [hty])
    · show (w.put a r).vec p.server.toRpcAddr p.server.sessionNum = some none
      rw [haddr, put_vec_self]
      exact hnull
  · obtain ⟨-, rfl⟩ := Sm.burySession_cases hb
    have hnum : s.localSessionNum = p.server.sessionNum := (h.goodAt.entry _ s hget).localNum
    rw [hnum]
    exact h.clearServer hget hp hty haddr rfl

/-- The session that a response names is the client session of its token. -/
theorem Inv.named (h : Inv K (w.put a r)) (hp : p ∈ (w.put a r).net)
    (haddr : p.client.toRpcAddr = a)
    (hget : r.sessionVec[p.client.sessionNum]? = some (some s)) :
    (s.uniqToken, p.client.sessionNum, p.server.toRpcAddr) ∈ r.opened ∧ s.role = .kClient ∧
      s.uniqToken = p.uniqToken := by
  have hopen := (h.pkt p hp).opened
  rw [haddr] at hopen
  rcases h.entry _ _ _ _ hopen with ⟨s', hs', hrole, htok⟩ | hnull
  · rw [put_vec_self, hget] at hs'
    obtain rfl : s = s' := by simpa using hs'
    rw [put_rpcs_self] at hopen
    exact ⟨htok ▸ hopen, hrole, htok⟩
  · rw [put_vec_self, hget] at hnull
    simp at hnull

/-- A session is buried after the callback for it. -/
theorem Inv.bury {ev : SmEventType} {err : SmErrType} (h : Inv K (w.put a r))
    (hget : r.sessionVec[i]? = some (some s)) (hopen : (t, i, b) ∈ r.opened)
    (hb : (r.freeRingEntries.smHandler (K.cfg a) cb s ev err).burySession s = some r')
    (hlen : r'.sessionVec.length ≤ numSessionNums)
    (hnodup : (cb.flatMap ApiCall.tokens).Nodup)
    (htok : ∀ t ∈ cb.flatMap ApiCall.tokens, t ∈ w.tokens ∧ (w.put a r).Unused t)
    (hfailed : ev = .kConnectFailed →
      ∃ q ∈ (w.put a r).net, q.Fatal K ∧ q.uniqToken = s.uniqToken)
    (hclosed : ev = .kDisconnected → (w.put a r).Sent .kDisconnectResp s.uniqToken) :
    Inv K (w.put a r') := by
  have hnum : s.localSessionNum = i := (h.goodAt.entry i s hget).localNum
  obtain ⟨-, rfl⟩ := Sm.burySession_cases hb
  rw [List.length_set] at hlen
  have hfree : Inv K (w.put a r.freeRingEntries) := h.same rfl rfl rfl rfl rfl rfl
  have hdone := hfree.smHandler s err hlen hnodup
    (fun t ht => ⟨(htok t ht).1, (htok t ht).2.put fun _ _ hx => hx⟩) hfailed hclosed
  rw [hnum]
  exact hdone.clearClient (calls_opened_subset (K.cfg a) _ cb hopen)

/-- A connect response. -/
theorem Inv.connectResp (h : Inv K (w.put a r)) (hp : p ∈ (w.put a r).net)
    (hty : p.pktType = .kConnectResp) (haddr : p.client.toRpcAddr = a)
    (hs : r.handleConnectResp (K.cfg a) resolve cb p = some r')
    (hlen : r'.sessionVec.length ≤ numSessionNums)
    (hnodup : (cb.flatMap ApiCall.tokens).Nodup)
    (htok : ∀ t ∈ cb.flatMap ApiCall.tokens, t ∈ w.tokens ∧ (w.put a r).Unused t) :
    Inv K (w.put a r') := by
  rcases Sm.handleConnectResp_cases hs with ⟨-, rfl⟩ | ⟨s, hget, ⟨-, rfl⟩ |
    ⟨hstate, rfl | ⟨herr, hretry, hb⟩ | ⟨herr, rfl⟩ | ⟨herr, rinfo, rfl⟩⟩⟩
  · exact h
  · exact h
  · exact h.same rfl rfl rfl rfl rfl rfl
  · obtain ⟨hopen, -, hst⟩ := h.named hp haddr hget
    rw [← haddr] at hretry
    exact h.bury hget hopen hb hlen hnodup htok
      (fun _ => ⟨p, hp, ⟨hty, herr, hretry⟩, hst.symm⟩) (by simp)
  · obtain ⟨hopen, hrole, hst⟩ := h.named hp haddr hget
    have hcreated := (h.pkt p hp).created (fun _ => herr) (by simp [hty])
    exact h.closeClient hget hrole hopen (hst ▸ hcreated)
  · obtain ⟨hopen, hrole, hst⟩ := h.named hp haddr hget
    have hcreated := (h.pkt p hp).created (fun _ => herr) (by simp [hty])
    have hconn := h.connected hget hrole hstate hopen (hst ▸ hcreated) rinfo
    exact hconn.smHandler _ _ hlen hnodup
      (fun t ht => ⟨(htok t ht).1, (htok t ht).2.put fun _ _ hx => hx⟩) (by simp) (by simp)

/-- A disconnect response. -/
theorem Inv.disconnectResp (h : Inv K (w.put a r)) (hp : p ∈ (w.put a r).net)
    (hty : p.pktType = .kDisconnectResp) (haddr : p.client.toRpcAddr = a)
    (hs : r.handleDisconnectResp (K.cfg a) cb p = some r')
    (hlen : r'.sessionVec.length ≤ numSessionNums)
    (hnodup : (cb.flatMap ApiCall.tokens).Nodup)
    (htok : ∀ t ∈ cb.flatMap ApiCall.tokens, t ∈ w.tokens ∧ (w.put a r).Unused t) :
    Inv K (w.put a r') := by
  rcases Sm.handleDisconnectResp_cases hs with ⟨-, rfl⟩ | ⟨s, hget, hb⟩
  · exact h
  · obtain ⟨hopen, -, hst⟩ := h.named hp haddr hget
    exact h.bury hget hopen hb hlen hnodup htok (by simp) fun _ => ⟨p, hp, hty, hst.symm⟩

/-! ## Runs -/

theorem dest_req (h : p.pktType.isReq = true) : p.dest = p.server.toRpcAddr := if_pos h

theorem dest_resp (h : p.pktType.isReq = false) : p.dest = p.client.toRpcAddr := by
  unfold SmPkt.dest
  rw [h]
  rfl

theorem step_api {c : ApiCall} (h : w.step K (.api a c) = some w') :
    w' = (w.draw c.tokens).put a ({ w.rpcs a with out := [] }.call (K.cfg a) c) :=
  (Option.some.inj h).symm

theorem step_deliver (h : w.step K (.deliver a resolve cb p) = some w') :
    ∃ r', (w.rpcs a).step (K.cfg a) (.recv resolve cb p) = some r' ∧
      w' = (w.draw (cb.flatMap ApiCall.tokens)).put a r' := by
  obtain ⟨r', hr', rfl⟩ := Option.map_eq_some_iff.mp h
  exact ⟨r', hr', rfl⟩

/-- The Nexus answers connect requests only: a disconnect request names an Rpc that is there. -/
theorem Inv.rejected (h : Inv K w) (hp : p ∈ w.net) (hreq : p.pktType.isReq = true)
    (hup : w.up p.server.toRpcAddr = false) : p.pktType = .kConnectReq := by
  have hok := h.pkt p hp
  rcases hok.kind with hty | hty | hty | hty
  · exact hty
  · simp [hty, SmPktType.isReq] at hreq
  · have hmem := hok.created (by simp [hty]) (by simp [hty])
    rw [(h.created _ _ _ hmem).1] at hup
    simp at hup
  · simp [hty, SmPktType.isReq] at hreq

/-- The answer of the Nexus is as if the Rpc that is not there sent it. -/
theorem Inv.reject (h : Inv K w) (hp : p ∈ w.net) (hty : p.pktType = .kConnectReq) :
    Inv K { w with net := w.net ++ [p.constructResp .kInvalidRemoteRpcId] } := by
  set q := p.constructResp .kInvalidRemoteRpcId with hq
  have hresp : q.pktType = .kConnectResp := by
    simp [hq, SmPkt.constructResp, hty, SmPktType.reqToResp]
  set a := p.server.toRpcAddr
  have henter := h.enter (fresh_out (w.rpcs a)) []
  have hok := henter.pkt p (List.mem_append_left _ hp)
  have hsend := henter.udpTx (p := q)
    ⟨hok.opened, Or.inr (Or.inl hresp), fun hno _ => absurd (hno hresp) (by simp [hq,
      SmPkt.constructResp])⟩ hresp
  refine hsend.congr (fun b => ?_) rfl (fun _ hb => hb) ?_
  · by_cases hb : b = a
    · subst hb
      rw [put_rpcs_self]
      exact ⟨rfl, rfl, rfl, rfl, rfl⟩
    · rw [put_rpcs_ne _ _ hb]
      exact ⟨rfl, rfl, rfl, rfl, rfl⟩
  · show w.tokens ++ [] ⊆ w.tokens
    rw [List.append_nil]
    exact fun _ ht => ht

/-- **Every action keeps the invariant**, while there are session numbers left. -/
theorem Inv.step (h : Inv K w) (hen : w.Enabled x) (hs : w.step K x = some w')
    (hlen : ∀ a, (w'.rpcs a).sessionVec.length ≤ numSessionNums) : Inv K w' := by
  cases x with
  | register a =>
    obtain rfl := Option.some.inj hs
    refine h.congr (fun _ => ⟨rfl, rfl, rfl, rfl, rfl⟩) rfl ?_ fun _ ht => ht
    intro b hb
    by_cases hab : b = a
    · subst hab
      exact Function.update_self _ _ _
    · exact (Function.update_of_ne hab _ _).trans hb
  | api a c =>
    obtain rfl := step_api hs
    obtain ⟨-, -, hnew⟩ := hen
    have hlen' := hlen a
    rw [put_rpcs_self] at hlen'
    refine (h.enter (fresh_out _) c.tokens).call c hlen' fun t ht => ⟨?_, ?_⟩
    · exact List.mem_append_right _ ht
    · exact h.unused (hnew t ht) (fresh_out _) _
  | deliver a resolve cb p =>
    obtain ⟨r', hr', rfl⟩ := step_deliver hs
    obtain ⟨hp, hdest, hup, hnodup, hnew⟩ := hen
    have hlen' := hlen a
    rw [put_rpcs_self] at hlen'
    obtain ⟨r₁, hf, hcase⟩ := Sm.recv_cases hr'
    have h₁ := h.enter hf (cb.flatMap ApiCall.tokens)
    have hp₁ : p ∈ ((w.draw (cb.flatMap ApiCall.tokens)).put a r₁).net :=
      List.mem_append_left _ hp
    have htok : ∀ t ∈ cb.flatMap ApiCall.tokens,
        t ∈ (w.draw (cb.flatMap ApiCall.tokens)).tokens ∧
          ((w.draw (cb.flatMap ApiCall.tokens)).put a r₁).Unused t := fun t ht =>
      ⟨List.mem_append_right _ ht, h.unused (hnew t ht) hf _⟩
    rcases hcase with ⟨hty, hs⟩ | ⟨hty, hs⟩ | ⟨hty, hs⟩ | ⟨hty, hs⟩
    · rw [dest_req (by simp [hty, SmPktType.isReq])] at hdest
      exact h₁.connectReq hp₁ hty hdest hup hs hlen'
    · rw [dest_req (by simp [hty, SmPktType.isReq])] at hdest
      exact h₁.disconnectReq hp₁ hty hdest hs
    · rw [dest_resp (by simp [hty, SmPktType.isReq])] at hdest
      exact h₁.connectResp hp₁ hty hdest hs hlen' hnodup htok
    · rw [dest_resp (by simp [hty, SmPktType.isReq])] at hdest
      exact h₁.disconnectResp hp₁ hty hdest hs hlen' hnodup htok
  | reject p =>
    obtain rfl := Option.some.inj hs
    obtain ⟨hp, hreq, hup⟩ := hen
    exact h.reject hp (h.rejected hp hreq hup)

theorem Inv.init : Inv K World.init where
  good := fun _ => Sm.Good.init
  token := fun _ _ _ _ h => absurd h List.not_mem_nil
  unique := fun _ _ _ _ _ _ _ h => absurd h List.not_mem_nil
  cli := fun _ _ _ h => by simp [vec, World.init, Sm.init] at h
  srv := fun _ _ _ h => by simp [vec, World.init, Sm.init] at h
  entry := fun _ _ _ _ h => absurd h List.not_mem_nil
  created := fun _ _ _ h => absurd h List.not_mem_nil
  failed := fun _ _ ⟨_, h, _⟩ => absurd h List.not_mem_nil
  closed := fun _ _ ⟨_, h, _⟩ => absurd h List.not_mem_nil
  pkt := fun _ h => absurd h List.not_mem_nil
  closing := fun _ ⟨_, h, _⟩ => absurd h List.not_mem_nil
  answered := fun _ h => absurd h List.not_mem_nil
  gone := fun _ _ _ h => absurd h List.not_mem_nil

/-- The vectors only grow. -/
theorem length_le_step (hs : w.step K x = some w') (a : RpcAddr) :
    (w.rpcs a).sessionVec.length ≤ (w'.rpcs a).sessionVec.length := by
  have hput : ∀ b ts r', (w.rpcs b).sessionVec.length ≤ r'.sessionVec.length →
      (w.rpcs a).sessionVec.length ≤ (((w.draw ts).put b r').rpcs a).sessionVec.length := by
    intro b ts r' hle
    by_cases hab : a = b
    · subst hab
      rwa [put_rpcs_self]
    · rw [put_rpcs_ne _ _ hab]
      exact le_refl _
  cases x with
  | register b =>
    obtain rfl := Option.some.inj hs
    exact le_refl _
  | api b c =>
    obtain rfl := step_api hs
    exact hput b _ _ (Sm.length_le_step (a := .api c) rfl)
  | deliver b resolve cb p =>
    obtain ⟨r', hr', rfl⟩ := step_deliver hs
    exact hput b _ r' (Sm.length_le_step hr')
  | reject p =>
    obtain rfl := Option.some.inj hs
    exact le_refl _

/-! ## Refusals -/

/-- No server session has a token that was refused. -/
def Refused (K : Cluster) (w : World) : Prop :=
  ∀ q ∈ w.net, q.Fatal K → ∀ m, (q.uniqToken, m) ∉ (w.rpcs q.server.toRpcAddr).created

/-- A connect request is handled only if its token was not refused before. -/
def NotRefused (K : Cluster) (w : World) : NetAct → Prop
  | .deliver _ _ _ p =>
      p.pktType = .kConnectReq → ∀ q ∈ w.net, q.Fatal K → q.uniqToken ≠ p.uniqToken
  | .register _ => True
  | .api _ _ => True
  | .reject _ => True

instance (K : Cluster) (p : SmPkt) : Decidable (p.Fatal K) :=
  inferInstanceAs (Decidable (_ ∧ _ ∧ ¬ (_ ∧ _)))

instance (K : Cluster) (w : World) (x : NetAct) : Decidable (w.NotRefused K x) :=
  match x with
  | .deliver _ _ _ p => inferInstanceAs (Decidable
      (p.pktType = .kConnectReq → ∀ q ∈ w.net, q.Fatal K → q.uniqToken ≠ p.uniqToken))
  | .register _ => isTrue trivial
  | .api _ _ => isTrue trivial
  | .reject _ => isTrue trivial

/-- No packet among these refuses a session. -/
def Unrefusing (ps : List SmPkt) : Prop := ∀ q ∈ ps, q.pktType = .kConnectResp → q.errType = .kNoError

theorem Unrefusing.snoc {ps : List SmPkt} (h : Unrefusing ps)
    (hp : p.pktType = .kConnectResp → p.errType = .kNoError) : Unrefusing (ps ++ [p]) := by
  intro q hq
  rcases List.mem_append.mp hq with hq | hq
  · exact h q hq
  · rw [List.mem_singleton.mp hq]
    exact hp

/-- The requests of a client refuse nothing. -/
theorem Unrefusing.smReq {ps : List SmPkt} (h : Unrefusing ps) (s : SmSession) :
    Unrefusing (ps ++ [Sm.smReq s]) := h.snoc fun _ => rfl

theorem Unrefusing.call {C : SmCfg} (h : Unrefusing r.out) (c : ApiCall) :
    Unrefusing (r.call C c).out := by
  rcases Sm.call_cases C r c with he | ⟨hostname, port, rpcId, token, -, -, he⟩ |
      ⟨i, s, -, -, -, he⟩
  · rwa [he]
  · rw [he]
    exact h.smReq _
  · rw [he]
    exact h.smReq _

/-- A server refuses a token for which it has created no session. -/
theorem refusal_step {C : SmCfg} {y : SmAct} {q : SmPkt} (h : r.step C y = some r')
    (hq : q ∈ r'.out) (hty : q.pktType = .kConnectResp) (herr : q.errType ≠ .kNoError) :
    ∃ resolve cb p, y = .recv resolve cb p ∧ p.pktType = .kConnectReq ∧
      r.connReqTokenMap p.uniqToken = none ∧ q.uniqToken = p.uniqToken ∧ q.server = p.server ∧
      r'.created = r.created := by
  have hno : ¬ Unrefusing r'.out := fun hall => herr (hall q hq hty)
  cases y with
  | api c =>
    obtain rfl := Option.some.inj h
    exact absurd (Unrefusing.call (fun _ hx => absurd hx List.not_mem_nil) c) hno
  | recv resolve cb p =>
    obtain ⟨r₁, hf, hcase⟩ := Sm.recv_cases h
    have hout : Unrefusing r₁.out := by
      rw [hf.out]
      exact fun _ hx => absurd hx List.not_mem_nil
    have hhandler : ∀ (z : Sm) (s : SmSession) ev err, z.out = r₁.out →
        Unrefusing (z.smHandler C cb s ev err).out := by
      intro z s ev err hz
      refine Sm.smHandler_ind (P := fun z => Unrefusing z.out) s ev err ?_ fun _ c _ hx => hx.call c
      show Unrefusing z.out
      rwa [hz]
    rcases hcase with ⟨hp, hs⟩ | ⟨hp, hs⟩ | ⟨hp, hs⟩ | ⟨hp, hs⟩
    · rcases Sm.handleConnectReq_cases hs with
        ⟨n, -, ⟨-, rfl⟩ | ⟨s, -, ⟨-, rfl⟩ | ⟨-, rfl⟩⟩⟩ | ⟨hnew, ⟨err, -, rfl⟩ | ⟨rinfo, -, rfl⟩⟩
      · exact absurd hout hno
      · exact absurd hout hno
      · exact absurd (hout.snoc fun _ => rfl) hno
      · -- the only answer with an error
        rw [hf.connReqTokenMap] at hnew
        replace hq : q ∈ r₁.out ++ [p.constructResp err] := hq
        rw [hf.out, List.nil_append, List.mem_singleton] at hq
        subst hq
        exact ⟨resolve, cb, p, rfl, hp, hnew, rfl, rfl, hf.created⟩
      · exact absurd (hout.snoc fun _ => rfl) hno
    · have hresp : (p.constructResp .kNoError).pktType = .kConnectResp →
          (p.constructResp .kNoError).errType = .kNoError := fun _ => rfl
      rcases Sm.handleDisconnectReq_cases hs with ⟨-, rfl⟩ | ⟨s, -, hb⟩
      · exact absurd (hout.snoc hresp) hno
      · obtain ⟨-, rfl⟩ := Sm.burySession_cases hb
        exact absurd (hout.snoc hresp) hno
    · rcases Sm.handleConnectResp_cases hs with ⟨-, rfl⟩ | ⟨s, -, ⟨-, rfl⟩ |
        ⟨-, rfl | ⟨-, -, hb⟩ | ⟨-, rfl⟩ | ⟨-, rinfo, rfl⟩⟩⟩
      · exact absurd hout hno
      · exact absurd hout hno
      · exact absurd hout hno
      · obtain ⟨-, rfl⟩ := Sm.burySession_cases hb
        exact absurd (hhandler r₁.freeRingEntries s _ _ rfl) hno
      · exact absurd (hout.smReq _) hno
      · exact absurd (hhandler (r₁.write _ (Sm.connected s p rinfo)) _ _ _ rfl) hno
    · rcases Sm.handleDisconnectResp_cases hs with ⟨-, rfl⟩ | ⟨s, -, hb⟩
      · exact absurd hout hno
      · obtain ⟨-, rfl⟩ := Sm.burySession_cases hb
        exact absurd (hhandler r₁.freeRingEntries s _ _ rfl) hno

/-- One event of the Rpc at `a`. -/
theorem Refused.event {y : SmAct} {ts : List ℕ} (h : Inv K w) (hr : Refused K w)
    (hs : (w.rpcs a).step (K.cfg a) y = some r')
    (hnot : ∀ resolve cb p, y = .recv resolve cb p → p.pktType = .kConnectReq →
      p.server.toRpcAddr = a ∧ ∀ q ∈ w.net, q.Fatal K → q.uniqToken ≠ p.uniqToken) :
    Refused K ((w.draw ts).put a r') := by
  intro q hq hfatal m hmem
  rcases List.mem_append.mp hq with hold | hnew
  · -- an old refusal: the request at hand has another token
    refine hr q hold hfatal m ?_
    by_cases ha : q.server.toRpcAddr = a
    · rw [ha, put_rpcs_self] at hmem
      rw [ha]
      rcases Sm.created_step hs with hc | ⟨resolve, cb, p, s, rfl, hp, -, hc, -⟩
      · rwa [hc] at hmem
      · rw [hc, List.mem_append, List.mem_singleton, Prod.mk.injEq] at hmem
        rcases hmem with hmem | ⟨htok, -⟩
        · exact hmem
        · exact absurd htok ((hnot resolve cb p rfl hp).2 q hold hfatal)
    · rwa [put_rpcs_ne _ _ ha] at hmem
  · -- a new one: its token has no session
    obtain ⟨resolve, cb, p, rfl, hp, hmap, htok, hsrv, hc⟩ :=
      refusal_step hs hnew hfatal.1 hfatal.2.1
    rw [hsrv, (hnot resolve cb p rfl hp).1, put_rpcs_self, hc, htok,
      ← (h.good a).tokenMap, hmap] at hmem
    simp at hmem

theorem Refused.step (h : Inv K w) (hr : Refused K w) (hen : w.Enabled x)
    (hnot : w.NotRefused K x) (hs : w.step K x = some w') : Refused K w' := by
  cases x with
  | register a =>
    obtain rfl := Option.some.inj hs
    exact hr
  | api a c =>
    obtain rfl := step_api hs
    exact Refused.event (y := .api c) h hr rfl fun _ _ _ hy => by simp at hy
  | deliver a resolve cb p =>
    obtain ⟨r', hr', rfl⟩ := step_deliver hs
    refine Refused.event h hr hr' fun resolve' cb' p' hy hp => ?_
    obtain ⟨rfl, rfl, rfl⟩ : resolve = resolve' ∧ cb = cb' ∧ p = p' := by simpa using hy
    refine ⟨?_, hnot hp⟩
    rw [← dest_req (by simp [hp, SmPktType.isReq])]
    exact hen.2.1
  | reject p =>
    obtain rfl := Option.some.inj hs
    intro q hq hfatal m hmem
    rcases List.mem_append.mp hq with hold | hnew
    · exact hr q hold hfatal m hmem
    · -- an Rpc that is not there has no session
      obtain rfl := List.mem_singleton.mp hnew
      have hup := (h.created _ _ _ hmem).1
      exact absurd (hup.symm.trans hen.2.2) (by simp)

/-- The runs of the Rpcs, with the actions that `guard` admits. -/
abbrev NetRun (K : Cluster) (guard : World → NetAct → Prop) : List NetAct → World → Prop :=
  Run (fun w x => w.Enabled x ∧ guard w x) (World.step K) World.init

variable {guard : World → NetAct → Prop} {xs : List NetAct}

/-- **The invariant holds along every run.** -/
theorem Inv.run (h : NetRun K guard xs w)
    (hlen : ∀ a, (w.rpcs a).sessionVec.length ≤ numSessionNums) : Inv K w := by
  have key : (∀ a, (w.rpcs a).sessionVec.length ≤ numSessionNums) → Inv K w := by
    refine h.invariant
      (P := fun w => (∀ a, (w.rpcs a).sessionVec.length ≤ numSessionNums) → Inv K w)
      (fun _ => Inv.init) ?_
    intro w x w' ih hg hs hle
    exact (ih fun a => le_trans (length_le_step hs a) (hle a)).step hg.1 hs hle
  exact key hlen

theorem Refused.run (h : NetRun K (NotRefused K) xs w)
    (hlen : ∀ a, (w.rpcs a).sessionVec.length ≤ numSessionNums) : Refused K w := by
  induction h with
  | nil => exact fun _ hq => absurd hq List.not_mem_nil
  | snoc h hg hs ih =>
    have hle := fun a => le_trans (length_le_step hs a) (hlen a)
    exact Refused.step (Inv.run h hle) (ih hle) hg.1 hg.2 hs

/-- A live server session is the one that was created for its token, at the server that its
client asked for. -/
theorem Inv.server_unique (h : Inv K w) (hs : w.vec b i = some (some s))
    (hrole : s.role = .kServer) {c : RpcAddr} {m : ℕ}
    (hmem : (s.uniqToken, m) ∈ (w.rpcs c).created) : c = b ∧ m = i := by
  obtain ⟨-, a, n, hopen⟩ := h.created _ _ _ hmem
  obtain ⟨-, -, rfl⟩ := h.unique _ _ _ _ _ _ _ hopen (h.srv b i s hs hrole).opened
  refine ⟨rfl, ?_⟩
  have hown := ((h.good c).entry i s hs).server hrole |>.1
  have hm := ((h.good c).tokenMap _ _).mpr hmem
  have hi := ((h.good c).tokenMap _ _).mpr hown
  exact Option.some.inj (hm.symm.trans hi)

/-- A token whose client session was told of the end of a disconnect has no server session. -/
theorem Inv.no_session_of_closed (h : Inv K w) (ht : w.Told a .kDisconnected t)
    (hs : w.vec b i = some (some s)) (hrole : s.role = .kServer) : s.uniqToken ≠ t := by
  rintro rfl
  obtain ⟨q, hq, hty, htok⟩ := h.closed a _ ht
  have hmem := (h.pkt q hq).created (by simp [hty]) (by simp [hty])
  have hnull := h.answered q hq hty
  rw [htok] at hmem
  obtain ⟨hc, hm⟩ := h.server_unique hs hrole hmem
  rw [hc, hm, hs] at hnull
  simp at hnull

/-- A token that was refused has no server session. -/
theorem Inv.no_session_of_failed (h : Inv K w) (hr : Refused K w)
    (ht : w.Told a .kConnectFailed t) (hs : w.vec b i = some (some s))
    (hrole : s.role = .kServer) : s.uniqToken ≠ t := by
  rintro rfl
  obtain ⟨q, hq, hfatal, htok⟩ := h.failed a _ ht
  have hopen := (h.pkt q hq).opened
  rw [htok] at hopen
  obtain ⟨-, -, hb⟩ := h.unique _ _ _ _ _ _ _ hopen (h.srv b i s hs hrole).opened
  refine hr q hq hfatal i ?_
  rw [hb, htok]
  exact (((h.good b).entry i s hs).server hrole).1

end World

/-! ## The result -/

/-- **No server session after the burial.**  If no Rpc creates more than `2 ^ 16` sessions, and
no connect request is handled after its token was refused, then once a client has buried the
session of a token, no Rpc has a server session of that token. -/
theorem no_server_session_after_burial (K : Cluster) {xs : List NetAct} {w : World}
    (h : World.NetRun K (World.NotRefused K) xs w)
    (hlen : ∀ a, (w.rpcs a).sessionVec.length ≤ numSessionNums) (a : RpcAddr) (t : ℕ)
    (ht : w.Told a .kConnectFailed t ∨ w.Told a .kDisconnected t) (b : RpcAddr) (i : ℕ)
    (s : SmSession) (hs : w.vec b i = some (some s)) (hrole : s.role = .kServer) :
    s.uniqToken ≠ t := by
  have hinv := World.Inv.run h hlen
  rcases ht with hfailed | hclosed
  · exact hinv.no_session_of_failed (World.Refused.run h hlen) hfailed hs hrole
  · exact hinv.no_session_of_closed hclosed hs hrole

/-! ## A request that comes twice -/

/-- The Rpc that an action moves. -/
def NetAct.mover : NetAct → Option RpcAddr
  | .register _ => none
  | .api a _ => some a
  | .deliver a _ _ _ => some a
  | .reject _ => none

/-- An Rpc moves in its own actions only. -/
theorem World.rpcs_unmoved {K : Cluster} {guard : World → NetAct → Prop} {xs : List NetAct}
    {w : World} (h : World.NetRun K guard xs w) {a : RpcAddr}
    (ha : ∀ x ∈ xs, x.mover ≠ some a) : w.rpcs a = Sm.init := by
  induction h with
  | nil => rfl
  | @snoc xs w x w' _ _ hs ih =>
    have hx := ha x (List.mem_append_right _ (List.mem_singleton.mpr rfl))
    have hw := ih fun y hy => ha y (List.mem_append_left _ hy)
    cases x with
    | register b =>
      obtain rfl := Option.some.inj hs
      exact hw
    | api b c =>
      obtain rfl := World.step_api hs
      rw [World.put_rpcs_ne _ _ fun hab => hx (congrArg some hab.symm)]
      exact hw
    | deliver b resolve cb p =>
      obtain ⟨r', -, rfl⟩ := World.step_deliver hs
      rw [World.put_rpcs_ne _ _ fun hab => hx (congrArg some hab.symm)]
      exact hw
    | reject p =>
      obtain rfl := Option.some.inj hs
      exact hw

/-- If only some Rpcs move, it is enough to look at their vectors. -/
theorem World.length_le_of_movers {K : Cluster} {guard : World → NetAct → Prop}
    {xs : List NetAct} {w : World} (h : World.NetRun K guard xs w) (as : List RpcAddr)
    (hx : ∀ x ∈ xs, x.mover ∈ none :: as.map some)
    (hlen : ∀ a ∈ as, (w.rpcs a).sessionVec.length ≤ numSessionNums) (a : RpcAddr) :
    (w.rpcs a).sessionVec.length ≤ numSessionNums := by
  by_cases ha : a ∈ as
  · exact hlen a ha
  · rw [World.rpcs_unmoved h fun x hmem hmover => ?_]
    · decide
    · have hin := hx x hmem
      rw [hmover] at hin
      simp [ha] at hin

def sampleCluster : Cluster := ⟨fun a => ⟨a, 0, 1, false⟩, fun _ => rfl⟩

def sampleSrv : RpcAddr := ⟨['s'], 31850, 0⟩

def sampleCli : RpcAddr := ⟨['c'], 31850, 0⟩

/-- The connect request of the client's first session. -/
def sampleReq : SmPkt :=
  Sm.smReq (Sm.newClient (sampleCluster.cfg sampleCli) ['s'] 31850 0 7 0)

/-- The server cannot resolve the client's address; the client gets the answer. -/
def sampleFailure : List NetAct :=
  [.register sampleCli, .register sampleSrv, .api sampleCli (.createSession ['s'] 31850 0 7),
    .deliver sampleSrv (fun _ => none) [] sampleReq,
    .deliver sampleCli some [] (sampleReq.constructResp .kRoutingResolutionFailure)]

/-- A second copy of the request arrives. -/
def sampleCopy : NetAct := .deliver sampleSrv some [] sampleReq

theorem sampleFailure_exec :
    (exec (fun w x => w.Enabled x ∧ w.NotRefused sampleCluster x) (World.step sampleCluster)
      World.init sampleFailure).map (fun w => ((w.rpcs sampleCli).events,
        (w.rpcs sampleCli).sessionVec, (w.rpcs sampleSrv).sessionVec))
      = some ([⟨0, .kConnectFailed, .kRoutingResolutionFailure, 7⟩], [none], []) := by
  decide +kernel

theorem no_server_session_sample : ∃ xs w,
    World.NetRun sampleCluster (World.NotRefused sampleCluster) xs w ∧
    w.Told sampleCli .kConnectFailed 7 ∧
    ∀ b i s, w.vec b i = some (some s) → s.role = .kServer → s.uniqToken ≠ 7 := by
  obtain ⟨w, hw, he⟩ := Option.map_eq_some_iff.mp sampleFailure_exec
  have hrun := run_of_exec hw
  have hev : (w.rpcs sampleCli).events = _ := congrArg (fun x => x.1) he
  have hcli : (w.rpcs sampleCli).sessionVec = _ := congrArg (fun x => x.2.1) he
  have hsrv : (w.rpcs sampleSrv).sessionVec = _ := congrArg (fun x => x.2.2) he
  have htold : w.Told sampleCli .kConnectFailed 7 :=
    ⟨_, by rw [hev]; exact List.mem_singleton.mpr rfl, rfl, rfl⟩
  have hlen := World.length_le_of_movers hrun [sampleCli, sampleSrv] (by decide) (by
    simp [hcli, hsrv, numSessionNums])
  exact ⟨_, w, hrun, htold,
    no_server_session_after_burial sampleCluster hrun hlen sampleCli 7 (Or.inl htold)⟩

theorem sampleCopy_exec :
    (exec (fun w x => w.Enabled x ∧ True) (World.step sampleCluster) World.init
      (sampleFailure ++ [sampleCopy])).map (fun w => ((w.rpcs sampleCli).events,
        (w.rpcs sampleCli).sessionVec, (w.rpcs sampleSrv).sessionVec))
      = some ([⟨0, .kConnectFailed, .kRoutingResolutionFailure, 7⟩], [none],
        [some (Sm.newServer (sampleCluster.cfg sampleSrv) sampleReq 1 0)]) := by
  decide +kernel

/-- The client has buried its session, and a copy of its request creates a server session. -/
theorem refused_then_connected : ∃ xs w,
    World.NetRun sampleCluster (fun _ _ => True) xs w ∧
    w.Told sampleCli .kConnectFailed 7 ∧ w.vec sampleCli 0 = some none ∧
    ∃ s, w.vec sampleSrv 0 = some (some s) ∧ s.role = .kServer ∧ s.state = .kConnected ∧
      s.uniqToken = 7 := by
  obtain ⟨w, hw, he⟩ := Option.map_eq_some_iff.mp sampleCopy_exec
  have hrun := run_of_exec hw
  have hev : (w.rpcs sampleCli).events = _ := congrArg (fun x => x.1) he
  have hcli : (w.rpcs sampleCli).sessionVec = _ := congrArg (fun x => x.2.1) he
  have hsrv : (w.rpcs sampleSrv).sessionVec = _ := congrArg (fun x => x.2.2) he
  refine ⟨_, w, hrun, ⟨_, by rw [hev]; exact List.mem_singleton.mpr rfl, rfl, rfl⟩, ?_, ?_⟩
  · unfold World.vec
    rw [hcli]
    rfl
  · refine ⟨Sm.newServer (sampleCluster.cfg sampleSrv) sampleReq 1 0, ?_, rfl, rfl, rfl⟩
    unfold World.vec
    rw [hsrv]
    rfl

end HuiRpc
