/-
# Rpcs that manage sessions over a lossy network

Any number of Rpcs of `HuiRpc.Sm`, and the management packets between them.  A packet that was
sent stays in the network: it is delivered any number of times, in any order, or never.  The
Nexus of a process answers a request for an Rpc that is not there (`nexus_sm_thread.cc`).

* A token is drawn once.  The code draws 64 random bits for every session.
* An Rpc that was created stays.

The invariant `World.Inv` follows a session from both ends by its token: what its packets say,
when its entry is null, and which packets are in the network then.  `Delta` says what one move
of an Rpc may do, and `World.Inv.move` that this keeps the invariant.
-/
import HuiRpc.SmRuns

namespace HuiRpc

open Runs

/-! ## The state -/

/-- The Rpcs by address, the packets sent so far, which Rpcs are there, and the tokens drawn. -/
structure World where
  rpcs : RpcAddr → Sm
  net : List SmPkt
  up : RpcAddr → Bool
  tokens : List ℕ

/-- The configurations, each with the address that it is for. -/
structure Cluster where
  cfg : RpcAddr → SmCfg
  cfg_addr : ∀ a, (cfg a).toRpcAddr = a

inductive NetAct
  | register (a : RpcAddr)
  | api (a : RpcAddr) (c : ApiCall)
  | deliver (a : RpcAddr) (resolve : ℕ → Option ℕ) (cb : List ApiCall) (p : SmPkt)
  | reject (p : SmPkt)

/-- The Rpc a packet is sent to. -/
def SmPkt.dest (p : SmPkt) : RpcAddr :=
  if p.pktType.isReq then p.server.toRpcAddr else p.client.toRpcAddr

/-- A connect response that makes the client bury its session. -/
def SmPkt.Fatal (K : Cluster) (p : SmPkt) : Prop :=
  p.pktType = .kConnectResp ∧ p.errType ≠ .kNoError ∧
    ¬ (p.errType = .kInvalidRemoteRpcId ∧
      (K.cfg p.client.toRpcAddr).retryConnectOnInvalidRpcId = true)

/-- The tokens that a call draws. -/
def ApiCall.tokens : ApiCall → List ℕ
  | .createSession _ _ _ uniqToken => [uniqToken]
  | .destroySession _ _ => []

namespace World

def init : World := ⟨fun _ => Sm.init, [], fun _ => false, []⟩

/-- The tokens are new. -/
def FreshTokens (w : World) (ts : List ℕ) : Prop := ts.Nodup ∧ ∀ t ∈ ts, t ∉ w.tokens

instance (w : World) (ts : List ℕ) : Decidable (w.FreshTokens ts) :=
  inferInstanceAs (Decidable (_ ∧ _))

/-- When an action may be taken. -/
def Enabled (w : World) : NetAct → Prop
  | .register _ => True
  | .api a c => w.up a = true ∧ w.FreshTokens c.tokens
  | .deliver a _ cb p =>
      p ∈ w.net ∧ p.dest = a ∧ w.up a = true ∧ w.FreshTokens (cb.flatMap ApiCall.tokens)
  | .reject p => p ∈ w.net ∧ p.pktType.isReq = true ∧ w.up p.server.toRpcAddr = false

instance (w : World) (x : NetAct) : Decidable (w.Enabled x) :=
  match x with
  | .register _ => isTrue trivial
  | .api _ _ => inferInstanceAs (Decidable (_ ∧ _))
  | .deliver _ _ _ _ => inferInstanceAs (Decidable (_ ∧ _ ∧ _ ∧ _))
  | .reject _ => inferInstanceAs (Decidable (_ ∧ _ ∧ _))

/-- The Rpc at `a` has come to `r`, and its packets are sent. -/
def put (w : World) (a : RpcAddr) (r : Sm) : World :=
  { w with rpcs := Function.update w.rpcs a r, net := w.net ++ r.out }

/-- The tokens `ts` are drawn. -/
def draw (w : World) (ts : List ℕ) : World := { w with tokens := w.tokens ++ ts }

def step (K : Cluster) (w : World) : NetAct → Option World
  | .register a => some { w with up := Function.update w.up a true }
  | .api a c =>
      ((w.rpcs a).step (K.cfg a) (.api c)).map fun r => (w.draw c.tokens).put a r
  | .deliver a resolve cb p =>
      ((w.rpcs a).step (K.cfg a) (.recv resolve cb p)).map fun r =>
        (w.draw (cb.flatMap ApiCall.tokens)).put a r
  | .reject p => some { w with net := w.net ++ [p.constructResp .kInvalidRemoteRpcId] }

/-! ## The invariant -/

/-- Entry `i` of the Rpc at `a`. -/
def vec (w : World) (a : RpcAddr) (i : ℕ) : Option (Option SmSession) := (w.rpcs a).sessionVec[i]?

/-- The client session of token `t` was buried after event `ev`. -/
def Told (w : World) (a : RpcAddr) (ev : SmEventType) (t : ℕ) : Prop :=
  ∃ e ∈ (w.rpcs a).events, e.eventType = ev ∧ e.uniqToken = t

/-- A packet of the given type about token `t` was sent. -/
def Sent (w : World) (type : SmPktType) (t : ℕ) : Prop :=
  ∃ q ∈ w.net, q.pktType = type ∧ q.uniqToken = t

/-- What a live client session says is so. -/
structure CliOk (w : World) (a : RpcAddr) (i : ℕ) (s : SmSession) : Prop where
  opened : (s.uniqToken, i, s.server.toRpcAddr) ∈ (w.rpcs a).opened
  addr : s.client.toRpcAddr = a
  server : s.state ≠ .kConnectInProgress →
    (s.uniqToken, s.server.sessionNum) ∈ (w.rpcs s.server.toRpcAddr).created

/-- What a live server session says is so. -/
structure SrvOk (w : World) (b : RpcAddr) (s : SmSession) : Prop where
  opened : (s.uniqToken, s.client.sessionNum, b) ∈ (w.rpcs s.client.toRpcAddr).opened
  addr : s.server.toRpcAddr = b

/-- What a packet says is so. -/
structure PktOk (w : World) (p : SmPkt) : Prop where
  opened : (p.uniqToken, p.client.sessionNum, p.server.toRpcAddr) ∈
    (w.rpcs p.client.toRpcAddr).opened
  kind : p.pktType = .kConnectReq ∨ p.pktType = .kConnectResp ∨ p.pktType = .kDisconnectReq ∨
    p.pktType = .kDisconnectResp
  created : (p.pktType = .kConnectResp → p.errType = .kNoError) → p.pktType ≠ .kConnectReq →
    (p.uniqToken, p.server.sessionNum) ∈ (w.rpcs p.server.toRpcAddr).created

/-- A disconnect request about this token leaves the session no choice. -/
def Closing (w : World) (t : ℕ) : Prop :=
  ∀ a i s, w.vec a i = some (some s) → s.role = .kClient → s.uniqToken = t →
    s.state = .kDisconnectInProgress

/-- The invariant. -/
structure Inv (K : Cluster) (w : World) : Prop where
  good : ∀ a, (w.rpcs a).Good
  token : ∀ a t n b, (t, n, b) ∈ (w.rpcs a).opened → t ∈ w.tokens
  unique : ∀ a a' t n n' b b', (t, n, b) ∈ (w.rpcs a).opened → (t, n', b') ∈ (w.rpcs a').opened →
    a = a' ∧ n = n' ∧ b = b'
  cli : ∀ a i s, w.vec a i = some (some s) → s.role = .kClient → w.CliOk a i s
  srv : ∀ b i s, w.vec b i = some (some s) → s.role = .kServer → w.SrvOk b s
  entry : ∀ a t n b, (t, n, b) ∈ (w.rpcs a).opened →
    (∃ s, w.vec a n = some (some s) ∧ s.role = .kClient ∧ s.uniqToken = t) ∨ w.vec a n = some none
  created : ∀ b t m, (t, m) ∈ (w.rpcs b).created → w.up b = true ∧
    ∃ a n, (t, n, b) ∈ (w.rpcs a).opened
  failed : ∀ a t, w.Told a .kConnectFailed t → ∃ q ∈ w.net, q.Fatal K ∧ q.uniqToken = t
  closed : ∀ a t, w.Told a .kDisconnected t → w.Sent .kDisconnectResp t
  pkt : ∀ p ∈ w.net, w.PktOk p
  closing : ∀ t, w.Sent .kDisconnectReq t → w.Closing t
  answered : ∀ p ∈ w.net, p.pktType = .kDisconnectResp →
    w.vec p.server.toRpcAddr p.server.sessionNum = some none
  gone : ∀ b t m, (t, m) ∈ (w.rpcs b).created → w.vec b m = some none → w.Sent .kDisconnectReq t

/-! ## Moves -/

/-- What grows. -/
structure Ext (w w' : World) : Prop where
  opened : ∀ a, (w.rpcs a).opened ⊆ (w'.rpcs a).opened
  created : ∀ a, (w.rpcs a).created ⊆ (w'.rpcs a).created
  net : w.net ⊆ w'.net

variable {K : Cluster} {w w' : World} {a b : RpcAddr} {i t : ℕ} {s : SmSession} {p : SmPkt} {r r' : Sm}

theorem Sent.mono {type : SmPktType} (h : w.Sent type t) (he : Ext w w') : w'.Sent type t := by
  obtain ⟨q, hq, hrest⟩ := h
  exact ⟨q, he.net hq, hrest⟩

theorem CliOk.mono (h : w.CliOk a i s) (he : Ext w w') : w'.CliOk a i s :=
  ⟨he.opened _ h.opened, h.addr, fun hs => he.created _ (h.server hs)⟩

theorem SrvOk.mono (h : w.SrvOk b s) (he : Ext w w') : w'.SrvOk b s :=
  ⟨he.opened _ h.opened, h.addr⟩

theorem PktOk.mono (h : w.PktOk p) (he : Ext w w') : w'.PktOk p :=
  ⟨he.opened _ h.opened, h.kind, fun h1 h2 => he.created _ (h.created h1 h2)⟩

/-- What one move of an Rpc may do: the state after it, and what is new in it. -/
structure Delta (K : Cluster) (w w' : World) : Prop where
  ext : Ext w w'
  up : w'.up = w.up
  tokens : w'.tokens = w.tokens
  good : ∀ a, (w'.rpcs a).Good
  /-- A null entry stays null. -/
  null : ∀ a i, w.vec a i = some none → w'.vec a i = some none
  /-- A live entry keeps its role and token, or becomes null. -/
  live : ∀ a i s, w.vec a i = some (some s) → w'.vec a i = some none ∨
    ∃ s', w'.vec a i = some (some s') ∧ s'.role = s.role ∧ s'.uniqToken = s.uniqToken
  /-- An entry that was written. -/
  written : ∀ a i s, w'.vec a i = some (some s) → w.vec a i = some (some s) ∨
    ((s.role = .kClient → w'.CliOk a i s) ∧ (s.role = .kServer → w'.SrvOk a s) ∧
      (s.role = .kClient → s.state ≠ .kDisconnectInProgress → ¬ w'.Sent .kDisconnectReq s.uniqToken))
  /-- An entry that was cleared: a server session only after a disconnect request. -/
  cleared : ∀ a i t, w'.vec a i = some none → (t, i) ∈ (w'.rpcs a).created →
    w.vec a i = some none ∨ w'.Sent .kDisconnectReq t
  /-- A packet that was sent. -/
  sent : ∀ q ∈ w'.net, q ∈ w.net ∨ (w'.PktOk q ∧
    (q.pktType = .kDisconnectReq → w'.Closing q.uniqToken) ∧
    (q.pktType = .kDisconnectResp →
      w'.vec q.server.toRpcAddr q.server.sessionNum = some none))
  /-- A client session that was opened. -/
  opened : ∀ a t n b, (t, n, b) ∈ (w'.rpcs a).opened → (t, n, b) ∈ (w.rpcs a).opened ∨
    (t ∈ w'.tokens ∧ (∃ s, w'.vec a n = some (some s) ∧ s.role = .kClient ∧ s.uniqToken = t) ∧
      ∀ a' n' b', (t, n', b') ∈ (w'.rpcs a').opened → a = a' ∧ n = n' ∧ b = b')
  /-- A server session that was created. -/
  created : ∀ b t m, (t, m) ∈ (w'.rpcs b).created → (t, m) ∈ (w.rpcs b).created ∨
    ((∃ s, w'.vec b m = some (some s)) ∧ w.up b = true ∧ ∃ a n, (t, n, b) ∈ (w'.rpcs a).opened)
  /-- A callback. -/
  told : ∀ a t ev, w'.Told a ev t → w.Told a ev t ∨
    ((ev = .kConnectFailed → ∃ q ∈ w'.net, q.Fatal K ∧ q.uniqToken = t) ∧
      (ev = .kDisconnected → w'.Sent .kDisconnectResp t))

/-- **A move keeps the invariant.** -/
theorem Inv.move (h : Inv K w) (hd : Delta K w w') : Inv K w' where
  good := hd.good
  token := by
    intro a t n b hmem
    rcases hd.opened a t n b hmem with hold | ⟨ht, -⟩
    · rw [hd.tokens]
      exact h.token a t n b hold
    · exact ht
  unique := by
    intro a a' t n n' b b' hmem hmem'
    rcases hd.opened a t n b hmem with hold | ⟨-, -, huniq⟩
    · rcases hd.opened a' t n' b' hmem' with hold' | ⟨-, -, huniq⟩
      · exact h.unique a a' t n n' b b' hold hold'
      · obtain ⟨rfl, rfl, rfl⟩ := huniq a n b hmem
        exact ⟨rfl, rfl, rfl⟩
    · exact huniq a' n' b' hmem'
  cli := by
    intro a i s hs hrole
    rcases hd.written a i s hs with hold | ⟨hnew, -⟩
    · exact (h.cli a i s hold hrole).mono hd.ext
    · exact hnew hrole
  srv := by
    intro b i s hs hrole
    rcases hd.written b i s hs with hold | ⟨-, hnew, -⟩
    · exact (h.srv b i s hold hrole).mono hd.ext
    · exact hnew hrole
  entry := by
    intro a t n b hmem
    rcases hd.opened a t n b hmem with hold | ⟨-, hs, -⟩
    · rcases h.entry a t n b hold with ⟨s, hs, hrole, htok⟩ | hnull
      · rcases hd.live a n s hs with hnull | ⟨s', hs', hrole', htok'⟩
        · exact Or.inr hnull
        · exact Or.inl ⟨s', hs', hrole'.trans hrole, htok'.trans htok⟩
      · exact Or.inr (hd.null a n hnull)
    · exact Or.inl hs
  created := by
    intro b t m hmem
    rw [hd.up]
    rcases hd.created b t m hmem with hold | ⟨-, hup, a, n, hn⟩
    · obtain ⟨hup, a, n, hn⟩ := h.created b t m hold
      exact ⟨hup, a, n, hd.ext.opened a hn⟩
    · exact ⟨hup, a, n, hn⟩
  failed := by
    intro a t ht
    rcases hd.told a t _ ht with hold | ⟨hnew, -⟩
    · obtain ⟨q, hq, hrest⟩ := h.failed a t hold
      exact ⟨q, hd.ext.net hq, hrest⟩
    · exact hnew rfl
  closed := by
    intro a t ht
    rcases hd.told a t _ ht with hold | ⟨-, hnew⟩
    · exact (h.closed a t hold).mono hd.ext
    · exact hnew rfl
  pkt := by
    intro q hq
    rcases hd.sent q hq with hold | ⟨hok, -⟩
    · exact (h.pkt q hold).mono hd.ext
    · exact hok
  closing := by
    rintro t ⟨q, hq, hty, rfl⟩
    rcases hd.sent q hq with hold | ⟨-, hnew, -⟩
    · -- an old request: a session that was written since then is disconnecting
      intro a i s hs hrole htok
      rcases hd.written a i s hs with hsold | ⟨-, -, hno⟩
      · exact h.closing _ ⟨q, hold, hty, rfl⟩ a i s hsold hrole htok
      · by_contra hstate
        exact hno hrole hstate ⟨q, hq, hty, htok.symm⟩
    · exact hnew hty
  answered := by
    intro q hq hty
    rcases hd.sent q hq with hold | ⟨-, -, hnew⟩
    · exact hd.null _ _ (h.answered q hold hty)
    · exact hnew hty
  gone := by
    intro b t m hmem hnull
    rcases hd.cleared b m t hnull hmem with hold | hsent
    · rcases hd.created b t m hmem with hcold | ⟨⟨s, hs⟩, -⟩
      · exact (h.gone b t m hcold hold).mono hd.ext
      · rw [hs] at hnull
        simp at hnull
    · exact hsent

/-! ## Moves of one Rpc -/

@[simp] theorem put_rpcs_self (w : World) (a : RpcAddr) (r : Sm) : (w.put a r).rpcs a = r := by
  simp [put]

theorem put_rpcs_ne (w : World) (r : Sm) (h : b ≠ a) : (w.put a r).rpcs b = w.rpcs b := by
  simp [put, h]

theorem put_vec_self (w : World) (a : RpcAddr) (r : Sm) (i : ℕ) :
    (w.put a r).vec a i = r.sessionVec[i]? := by
  unfold vec
  rw [put_rpcs_self]

theorem put_vec_ne (w : World) (r r' : Sm) (h : b ≠ a) (i : ℕ) :
    (w.put a r').vec b i = (w.put a r).vec b i := by
  unfold vec
  rw [put_rpcs_ne w r' h, put_rpcs_ne w r h]

theorem mem_put_net (w : World) (a : RpcAddr) {q : SmPkt} :
    q ∈ (w.put a r).net ↔ q ∈ w.net ∨ q ∈ r.out := List.mem_append

/-- What a move of the Rpc at `a` from `r` to `r'` has to do, with the packets `ps`. -/
structure Local (K : Cluster) (w : World) (a : RpcAddr) (r r' : Sm) (ps : List SmPkt) : Prop where
  out : r'.out = r.out ++ ps
  openedMono : r.opened ⊆ r'.opened
  createdMono : r.created ⊆ r'.created
  good : r'.Good
  null : ∀ i : ℕ, r.sessionVec[i]? = some none → r'.sessionVec[i]? = some none
  live : ∀ (i : ℕ) (s : SmSession), r.sessionVec[i]? = some (some s) →
    r'.sessionVec[i]? = some none ∨
    ∃ s', r'.sessionVec[i]? = some (some s') ∧ s'.role = s.role ∧ s'.uniqToken = s.uniqToken
  written : ∀ (i : ℕ) (s : SmSession), r'.sessionVec[i]? = some (some s) →
    r.sessionVec[i]? = some (some s) ∨
    ((s.role = .kClient → (w.put a r').CliOk a i s) ∧ (s.role = .kServer → (w.put a r').SrvOk a s) ∧
      (s.role = .kClient → s.state ≠ .kDisconnectInProgress →
        ¬ (w.put a r').Sent .kDisconnectReq s.uniqToken))
  cleared : ∀ i t : ℕ, r'.sessionVec[i]? = some none → (t, i) ∈ r'.created →
    r.sessionVec[i]? = some none ∨ (w.put a r').Sent .kDisconnectReq t
  sent : ∀ q ∈ ps, (w.put a r').PktOk q ∧
    (q.pktType = .kDisconnectReq → (w.put a r').Closing q.uniqToken) ∧
    (q.pktType = .kDisconnectResp →
      (w.put a r').vec q.server.toRpcAddr q.server.sessionNum = some none)
  opened : ∀ t n b, (t, n, b) ∈ r'.opened → (t, n, b) ∈ r.opened ∨
    (t ∈ w.tokens ∧
      (∃ s : SmSession, r'.sessionVec[n]? = some (some s) ∧ s.role = .kClient ∧ s.uniqToken = t) ∧
      ∀ a' n' b', (t, n', b') ∈ ((w.put a r').rpcs a').opened → a = a' ∧ n = n' ∧ b = b')
  created : ∀ t m, (t, m) ∈ r'.created → (t, m) ∈ r.created ∨
    ((∃ s : SmSession, r'.sessionVec[m]? = some (some s)) ∧ w.up a = true ∧
      ∃ a' n, (t, n, a) ∈ ((w.put a r').rpcs a').opened)
  told : ∀ e ∈ r'.events, e ∈ r.events ∨
    ((e.eventType = .kConnectFailed →
        ∃ q ∈ (w.put a r').net, q.Fatal K ∧ q.uniqToken = e.uniqToken) ∧
      (e.eventType = .kDisconnected → (w.put a r').Sent .kDisconnectResp e.uniqToken))

/-- The other Rpcs keep their records, and the one at `a` loses nothing of its own. -/
theorem put_subset {β : Type*} (f : Sm → List β) (hf : f r ⊆ f r') (b : RpcAddr) :
    f ((w.put a r).rpcs b) ⊆ f ((w.put a r').rpcs b) := by
  by_cases hb : b = a
  · subst hb
    rw [put_rpcs_self, put_rpcs_self]
    exact hf
  · rw [put_rpcs_ne w r hb, put_rpcs_ne w r' hb]
    exact List.Subset.refl _

theorem Ext.put {ps : List SmPkt} (ho : r.opened ⊆ r'.opened) (hc : r.created ⊆ r'.created)
    (hout : r'.out = r.out ++ ps) : Ext (w.put a r) (w.put a r') where
  opened := put_subset Sm.opened ho
  created := put_subset Sm.created hc
  net := by
    intro q hq
    rw [mem_put_net] at hq ⊢
    rw [hout, List.mem_append]
    exact hq.imp_right Or.inl

/-- A move of one Rpc is a move of the world. -/
theorem Local.delta {ps : List SmPkt} (h : Inv K (w.put a r)) (hl : Local K w a r r' ps) :
    Delta K (w.put a r) (w.put a r') where
  ext := Ext.put hl.openedMono hl.createdMono hl.out
  up := rfl
  tokens := rfl
  good := by
    intro b
    by_cases hb : b = a
    · subst hb
      rw [put_rpcs_self]
      exact hl.good
    · have hgood := h.good b
      rw [put_rpcs_ne w r hb] at hgood
      rwa [put_rpcs_ne w r' hb]
  null := by
    intro b i hnull
    by_cases hb : b = a
    · subst hb
      rw [put_vec_self] at hnull ⊢
      exact hl.null i hnull
    · rwa [put_vec_ne w r r' hb]
  live := by
    intro b i s hs
    by_cases hb : b = a
    · subst hb
      rw [put_vec_self] at hs ⊢
      exact hl.live i s hs
    · exact Or.inr ⟨s, by rwa [put_vec_ne w r r' hb], rfl, rfl⟩
  written := by
    intro b i s hs
    by_cases hb : b = a
    · subst hb
      rw [put_vec_self] at hs ⊢
      exact hl.written i s hs
    · rw [put_vec_ne w r r' hb] at hs
      exact Or.inl hs
  cleared := by
    intro b i t hnull hmem
    by_cases hb : b = a
    · subst hb
      rw [put_vec_self] at hnull ⊢
      rw [put_rpcs_self] at hmem
      exact hl.cleared i t hnull hmem
    · rw [put_vec_ne w r r' hb] at hnull
      exact Or.inl hnull
  sent := by
    intro q hq
    rw [mem_put_net, hl.out, List.mem_append, ← or_assoc] at hq
    rcases hq with hold | hnew
    · exact Or.inl ((mem_put_net w a).mpr hold)
    · exact Or.inr (hl.sent q hnew)
  opened := by
    intro b t n c hmem
    by_cases hb : b = a
    · subst hb
      rw [put_rpcs_self] at hmem ⊢
      rw [put_vec_self]
      exact hl.opened t n c hmem
    · rw [put_rpcs_ne w r' hb] at hmem
      rw [put_rpcs_ne w r hb]
      exact Or.inl hmem
  created := by
    intro b t m hmem
    by_cases hb : b = a
    · subst hb
      rw [put_rpcs_self] at hmem ⊢
      rw [put_vec_self]
      exact hl.created t m hmem
    · rw [put_rpcs_ne w r' hb] at hmem
      rw [put_rpcs_ne w r hb]
      exact Or.inl hmem
  told := by
    rintro b t ev ⟨e, he, rfl, rfl⟩
    by_cases hb : b = a
    · subst hb
      rw [put_rpcs_self] at he
      refine (hl.told e he).imp_left fun hold => ⟨e, ?_, rfl, rfl⟩
      rwa [put_rpcs_self]
    · rw [put_rpcs_ne w r' hb] at he
      exact Or.inl ⟨e, by rwa [put_rpcs_ne w r hb], rfl, rfl⟩

theorem Inv.moveAt (h : Inv K (w.put a r)) (ps : List SmPkt) (hl : Local K w a r r' ps) :
    Inv K (w.put a r') := h.move (hl.delta h)

end World

end HuiRpc
