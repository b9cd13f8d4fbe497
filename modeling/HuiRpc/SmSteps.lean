/-
# Every event of an Rpc is a sequence of moves

The handlers of `HuiRpc.Sm`, cut into the moves of `HuiRpc.SmWorld`: a record is written, a
packet is sent, a client or a server session is opened, a session starts to disconnect or is
connected, an entry is cleared, a callback makes its calls.  `HuiRpc.SmAgree` puts them together.
-/
import HuiRpc.SmWorld

namespace HuiRpc

open Runs

namespace World

variable {K : Cluster} {w w' : World} {a b : RpcAddr} {i n t : ℕ} {s : SmSession} {p : SmPkt}
  {r r' : Sm}

/-! ## Records and packets -/

theorem Inv.goodAt (h : Inv K (w.put a r)) : r.Good := by
  have := h.good a
  rwa [put_rpcs_self] at this

/-- The state changes in fields that the invariant does not look at, and maybe packets are sent
and the application is told something. -/
theorem Inv.note (h : Inv K (w.put a r)) (ps : List SmPkt) (hv : r'.sessionVec = r.sessionVec)
    (ho : r'.opened = r.opened) (hc : r'.created = r.created)
    (hm : r'.connReqTokenMap = r.connReqTokenMap) (hout : r'.out = r.out ++ ps)
    (hsent : ∀ q ∈ ps, (w.put a r).PktOk q ∧ q.pktType ≠ .kDisconnectReq ∧
      (q.pktType = .kDisconnectResp →
        (w.put a r).vec q.server.toRpcAddr q.server.sessionNum = some none))
    (htold : ∀ e ∈ r'.events, e ∈ r.events ∨
      ((e.eventType = .kConnectFailed →
          ∃ q ∈ (w.put a r).net, q.Fatal K ∧ q.uniqToken = e.uniqToken) ∧
        (e.eventType = .kDisconnected → (w.put a r).Sent .kDisconnectResp e.uniqToken))) :
    Inv K (w.put a r') := by
  have hext : Ext (w.put a r) (w.put a r') :=
    Ext.put (by rw [ho]; exact List.Subset.refl _) (by rw [hc]; exact List.Subset.refl _) hout
  have hvec : ∀ b i, (w.put a r').vec b i = (w.put a r).vec b i := by
    intro b i
    by_cases hb : b = a
    · subst hb
      rw [put_vec_self, put_vec_self, hv]
    · rw [put_vec_ne w r r' hb]
  refine h.moveAt ps ⟨hout, fun x hx => by rwa [ho], fun x hx => by rwa [hc],
    h.goodAt.congr hv hc hm, ?_, ?_, ?_, ?_, ?_, ?_, ?_, ?_⟩
  · intro i hi
    rwa [hv]
  · intro i s hs
    exact Or.inr ⟨s, by rwa [hv], rfl, rfl⟩
  · intro i s hs
    rw [hv] at hs
    exact Or.inl hs
  · intro i t hi _
    rw [hv] at hi
    exact Or.inl hi
  · intro q hq
    obtain ⟨hok, hty, hnull⟩ := hsent q hq
    exact ⟨hok.mono hext, fun hd => absurd hd hty, fun hd => by rw [hvec]; exact hnull hd⟩
  · intro t n b hmem
    rw [ho] at hmem
    exact Or.inl hmem
  · intro t m hmem
    rw [hc] at hmem
    exact Or.inl hmem
  · intro e he
    refine (htold e he).imp_right fun hnew => ⟨fun hf => ?_, fun hd => (hnew.2 hd).mono hext⟩
    obtain ⟨q, hq, hrest⟩ := hnew.1 hf
    exact ⟨q, hext.net hq, hrest⟩

/-- Nothing that matters changes. -/
theorem Inv.same (h : Inv K (w.put a r)) (hv : r'.sessionVec = r.sessionVec)
    (ho : r'.opened = r.opened) (hc : r'.created = r.created)
    (hm : r'.connReqTokenMap = r.connReqTokenMap) (hout : r'.out = r.out)
    (he : r'.events = r.events) : Inv K (w.put a r') :=
  h.note [] hv ho hc hm (by rw [hout, List.append_nil]) (fun q hq => by simp at hq)
    fun e hmem => Or.inl (by rwa [he] at hmem)

/-- A connect response is sent. -/
theorem Inv.udpTx (h : Inv K (w.put a r)) (hok : (w.put a r).PktOk p)
    (hty : p.pktType = .kConnectResp) : Inv K (w.put a (r.udpTx p)) := by
  refine h.note [p] rfl rfl rfl rfl rfl ?_ fun e he => Or.inl he
  intro q hq
  rw [List.mem_singleton] at hq
  subst hq
  exact ⟨hok, by simp [hty], fun hd => absurd (hty.symm.trans hd) (by simp)⟩

/-! ## A client session is opened -/

/-- No session has the token yet. -/
def Unused (w : World) (t : ℕ) : Prop := ∀ a n b, (t, n, b) ∉ (w.rpcs a).opened

theorem Unused.not_sent {type : SmPktType} (h : Inv K w) (ht : w.Unused t) : ¬ w.Sent type t := by
  rintro ⟨q, hq, -, rfl⟩
  exact ht _ _ _ (h.pkt q hq).opened

/-- A session is added at the end of the vector, and the packet `q` about it is sent. -/
theorem Inv.push {q : SmPkt} (h : Inv K (w.put a r)) (hv : r'.sessionVec = r.sessionVec ++ [some s])
    (hout : r'.out = r.out ++ [q]) (hevents : r'.events = r.events) (ho : r.opened ⊆ r'.opened)
    (hc : r.created ⊆ r'.created) (hgood : r'.Good)
    (hcli : s.role = .kClient → (w.put a r').CliOk a r.sessionVec.length s ∧
      ¬ (w.put a r').Sent .kDisconnectReq s.uniqToken)
    (hsrv : s.role = .kServer → (w.put a r').SrvOk a s) (hok : (w.put a r').PktOk q)
    (hreq : q.pktType ≠ .kDisconnectReq) (hresp : q.pktType ≠ .kDisconnectResp)
    (hopened : ∀ t n b, (t, n, b) ∈ r'.opened → (t, n, b) ∈ r.opened ∨ (t ∈ w.tokens ∧
      (n = r.sessionVec.length ∧ s.role = .kClient ∧ s.uniqToken = t) ∧
      ∀ a' n' b', (t, n', b') ∈ ((w.put a r').rpcs a').opened → a = a' ∧ n = n' ∧ b = b'))
    (hcreated : ∀ t m, (t, m) ∈ r'.created → (t, m) ∈ r.created ∨
      (m = r.sessionVec.length ∧ w.up a = true ∧
        ∃ a' n, (t, n, a) ∈ ((w.put a r').rpcs a').opened)) : Inv K (w.put a r') := by
  have hlast : r'.sessionVec[r.sessionVec.length]? = some (some s) := by
    rw [hv]
    exact Sm.getElem?_snoc.mpr (Or.inr ⟨rfl, rfl⟩)
  have hstay : ∀ (i : ℕ) (x : Option SmSession), r.sessionVec[i]? = some x →
      r'.sessionVec[i]? = some x := by
    intro i x hx
    rw [hv]
    exact Sm.getElem?_snoc.mpr (Or.inl hx)
  refine h.moveAt [q] ⟨hout, ho, hc, hgood, fun i hi => hstay i none hi, ?_, ?_, ?_, ?_, ?_, ?_, ?_⟩
  · intro i x hx
    exact Or.inr ⟨x, hstay i _ hx, rfl, rfl⟩
  · intro i x hx
    rw [hv, Sm.getElem?_snoc, Option.some.injEq] at hx
    rcases hx with hx | ⟨rfl, rfl⟩
    · exact Or.inl hx
    · exact Or.inr ⟨fun hr => (hcli hr).1, hsrv, fun hr _ => (hcli hr).2⟩
  · intro i u hi _
    rw [hv, Sm.getElem?_snoc] at hi
    rcases hi with hi | ⟨-, hi⟩
    · exact Or.inl hi
    · simp at hi
  · intro q' hq'
    rw [List.mem_singleton.mp hq']
    exact ⟨hok, fun hd => absurd hd hreq, fun hd => absurd hd hresp⟩
  · intro u n b hx
    refine (hopened u n b hx).imp_right ?_
    rintro ⟨ht, ⟨rfl, hrest⟩, huniq⟩
    exact ⟨ht, ⟨s, hlast, hrest⟩, huniq⟩
  · intro u m hx
    refine (hcreated u m hx).imp_right ?_
    rintro ⟨rfl, hrest⟩
    exact ⟨⟨s, hlast⟩, hrest⟩
  · intro e he
    rw [hevents] at he
    exact Or.inl he

theorem Inv.openClient (h : Inv K (w.put a r)) (hlt : r.sessionVec.length < numSessionNums)
    (hostname : List Char) (port rpcId : ℕ) (ht : t ∈ w.tokens) (hun : (w.put a r).Unused t) :
    Inv K (w.put a (r.openClient (K.cfg a) hostname port rpcId t)) := by
  have hnum : r.sessionVec.length % numSessionNums = r.sessionVec.length := Nat.mod_eq_of_lt hlt
  set s := Sm.newClient (K.cfg a) hostname port rpcId t r.sessionVec.length with hs
  set r' := r.openClient (K.cfg a) hostname port rpcId t with hr'
  have hv : r'.sessionVec = r.sessionVec ++ [some s] := by
    rw [hr', Sm.openClient_sessionVec, hnum]
  have ho : r'.opened = r.opened ++ [(t, r.sessionVec.length, s.server.toRpcAddr)] := by
    show r.opened ++ [(t, r.sessionVec.length % numSessionNums, _)] = _
    rw [hnum]
  have hout : r'.out = r.out ++ [Sm.smReq s] := by
    show r.out ++ [Sm.smReq (Sm.newClient (K.cfg a) hostname port rpcId t
      (r.sessionVec.length % numSessionNums))] = _
    rw [hnum]
  have haddr : s.client.toRpcAddr = a := K.cfg_addr a
  have hmem : (t, r.sessionVec.length, s.server.toRpcAddr) ∈ ((w.put a r').rpcs a).opened := by
    rw [put_rpcs_self, ho]
    exact List.mem_append_right _ (List.mem_singleton.mpr rfl)
  have hold : ∀ a' n b, (t, n, b) ∈ ((w.put a r').rpcs a').opened →
      a = a' ∧ r.sessionVec.length = n ∧ s.server.toRpcAddr = b := by
    intro a' n b hx
    by_cases ha : a' = a
    · subst ha
      rw [put_rpcs_self, ho, List.mem_append, List.mem_singleton, Prod.mk.injEq,
        Prod.mk.injEq] at hx
      rcases hx with hx | ⟨-, rfl, rfl⟩
      · exact absurd (by rwa [put_rpcs_self]) (hun a' n b)
      · exact ⟨rfl, rfl, rfl⟩
    · rw [put_rpcs_ne w r' ha] at hx
      exact absurd (by rwa [put_rpcs_ne w r ha]) (hun a' n b)
  have hnosent : ¬ (w.put a r').Sent .kDisconnectReq t := by
    rintro ⟨q, hq, hty, htok⟩
    rw [mem_put_net, hout, List.mem_append, ← or_assoc, List.mem_singleton] at hq
    rcases hq with hq | rfl
    · exact hun.not_sent h ⟨q, (mem_put_net w a).mpr hq, hty, htok⟩
    · simp [Sm.smReq, hs, Sm.newClient] at hty
  have hty : (Sm.smReq s).pktType = .kConnectReq := rfl
  refine h.push hv hout rfl (by rw [ho]; exact List.subset_append_left _ _) (fun _ hx => hx)
    (h.goodAt.openClient hlt hostname port rpcId t)
    (fun _ => ⟨⟨hmem, haddr, fun hne => absurd rfl hne⟩, hnosent⟩) ?_ ?_
    (by rw [hty]; decide) (by rw [hty]; decide) ?_ fun _ _ hx => Or.inl hx
  · intro hrole
    simp [hs, Sm.newClient] at hrole
  · refine ⟨?_, Or.inl hty, fun _ hne => absurd hty hne⟩
    show (t, r.sessionVec.length, s.server.toRpcAddr) ∈
      ((w.put a r').rpcs s.client.toRpcAddr).opened
    rw [haddr]
    exact hmem
  · intro u n b hx
    rw [ho, List.mem_append, List.mem_singleton] at hx
    rcases hx with hx | ⟨rfl, rfl, rfl⟩
    · exact Or.inl hx
    · exact Or.inr ⟨ht, ⟨rfl, rfl, rfl⟩, hold⟩

/-! ## A client session changes its state -/

/-- The client session in entry `i` is written. -/
theorem Inv.writeClient (h : Inv K (w.put a r)) (ps : List SmPkt) (s' : SmSession) (r' : Sm)
    (hs : r.sessionVec[i]? = some (some s)) (hrole : s.role = .kClient)
    (hrole' : s'.role = s.role) (htok : s'.uniqToken = s.uniqToken)
    (hv : r'.sessionVec = r.sessionVec.set i (some s')) (ho : r'.opened = r.opened)
    (hc : r'.created = r.created) (he : r'.events = r.events) (hout : r'.out = r.out ++ ps)
    (hgood : r'.Good) (hcli : (w.put a r').CliOk a i s')
    (hno : s'.state ≠ .kDisconnectInProgress → ¬ (w.put a r').Sent .kDisconnectReq s'.uniqToken)
    (hsent : ∀ q ∈ ps, (w.put a r').PktOk q ∧
      (q.pktType = .kDisconnectReq → (w.put a r').Closing q.uniqToken) ∧
      q.pktType ≠ .kDisconnectResp) : Inv K (w.put a r') := by
  have hlt : i < r.sessionVec.length := Sm.lt_of_getElem? hs
  refine h.moveAt ps ⟨hout, fun x hx => by rwa [ho], fun x hx => by rwa [hc], hgood,
    ?_, ?_, ?_, ?_, ?_, ?_, ?_, ?_⟩
  · intro j hj
    have hne : i ≠ j := by
      rintro rfl
      rw [hs] at hj
      simp at hj
    rw [hv, List.getElem?_set_ne hne]
    exact hj
  · intro j x hx
    rw [hv]
    by_cases hij : i = j
    · subst hij
      rw [hs] at hx
      obtain rfl : s = x := by simpa using hx
      exact Or.inr ⟨s', List.getElem?_set_self hlt, hrole', htok⟩
    · exact Or.inr ⟨x, by rwa [List.getElem?_set_ne hij], rfl, rfl⟩
  · intro j x hx
    rw [hv] at hx
    rcases Sm.getElem?_set_some hx with ⟨hji, hxs⟩ | ⟨-, hold⟩
    · obtain rfl : x = s' := Option.some.inj hxs
      subst hji
      exact Or.inr ⟨fun _ => hcli, fun hr => absurd (hrole.symm.trans (hrole'.symm.trans hr))
        (by simp), fun _ hne => hno hne⟩
    · exact Or.inl hold
  · intro j u hj _
    rw [hv] at hj
    rcases Sm.getElem?_set_some hj with ⟨-, hnone⟩ | ⟨-, hold⟩
    · simp at hnone
    · exact Or.inl hold
  · intro q hq
    obtain ⟨hok, hclosing, hty⟩ := hsent q hq
    exact ⟨hok, hclosing, fun hd => absurd hd hty⟩
  · intro u n b hx
    rw [ho] at hx
    exact Or.inl hx
  · intro u m hx
    rw [hc] at hx
    exact Or.inl hx
  · intro e hmem
    rw [he] at hmem
    exact Or.inl hmem

/-- A token has one client session. -/
theorem Inv.client_unique (h : Inv K (w.put a r)) (hopen : (t, i, b) ∈ r.opened) {a' : RpcAddr}
    {j : ℕ} (hx : (w.put a r).vec a' j = some (some s)) (hrole : s.role = .kClient)
    (htok : s.uniqToken = t) : a' = a ∧ j = i := by
  have hcli := (h.cli a' j s hx hrole).opened
  rw [htok] at hcli
  obtain ⟨ha, hj, -⟩ := h.unique a' a t j i _ b hcli (by rwa [put_rpcs_self])
  exact ⟨ha, hj⟩

/-- A client session starts to disconnect from the server session that `server` names. -/
theorem Inv.closeClient (h : Inv K (w.put a r)) (hs : r.sessionVec[i]? = some (some s))
    (hrole : s.role = .kClient) {server : SessionEndpoint}
    (hopen : (s.uniqToken, i, server.toRpcAddr) ∈ r.opened)
    (hcreated : (s.uniqToken, server.sessionNum) ∈
      ((w.put a r).rpcs server.toRpcAddr).created) :
    Inv K (w.put a (r.closeClient i { s with server := server })) := by
  set s' : SmSession := { s with server := server, state := .kDisconnectInProgress } with hs'
  set r' := r.closeClient i { s with server := server } with hr'
  have hv : r'.sessionVec = r.sessionVec.set i (some s') := rfl
  have hnum : s.client.sessionNum = i := ((h.goodAt.entry i s hs).client hrole).1
  have haddr : s.client.toRpcAddr = a := (h.cli a i s (by rwa [put_vec_self]) hrole).addr
  have hmem : (s.uniqToken, i, server.toRpcAddr) ∈ ((w.put a r').rpcs a).opened := by
    rwa [put_rpcs_self]
  have hcr : (s.uniqToken, server.sessionNum) ∈ ((w.put a r').rpcs server.toRpcAddr).created :=
    put_subset Sm.created (show r.created ⊆ r'.created from List.Subset.refl _) _ hcreated
  have hreq : (Sm.smReq s').pktType = .kDisconnectReq := rfl
  refine h.writeClient [Sm.smReq s'] s' r' hs hrole rfl rfl hv rfl rfl rfl rfl
    (h.goodAt.closeClient hs hrole server) ⟨hmem, haddr, fun _ => hcr⟩
    (fun hne => absurd rfl hne) ?_
  intro q hq
  rw [List.mem_singleton] at hq
  subst hq
  refine ⟨⟨?_, Or.inr (Or.inr (Or.inl hreq)), fun _ _ => hcr⟩, fun _ => ?_, by simp [hreq]⟩
  · show (s.uniqToken, s.client.sessionNum, server.toRpcAddr) ∈
      ((w.put a r').rpcs s.client.toRpcAddr).opened
    rw [hnum, haddr]
    exact hmem
  · -- the token has one client session, and it is the one that was written
    intro a' j x hx hxrole hxtok
    by_cases ha : a' = a
    · subst ha
      rw [put_vec_self, hv] at hx
      rcases Sm.getElem?_set_some hx with ⟨-, hxs⟩ | ⟨hne, hold⟩
      · rw [Option.some.inj hxs]
      · exact absurd (h.client_unique hopen (by rwa [put_vec_self]) hxrole hxtok).2 hne
    · rw [put_vec_ne w r r' ha] at hx
      exact absurd (h.client_unique hopen hx hxrole hxtok).1 ha

/-- A client session is connected to the server session that the response names. -/
theorem Inv.connected (h : Inv K (w.put a r)) (hs : r.sessionVec[i]? = some (some s))
    (hrole : s.role = .kClient) (hstate : s.state = .kConnectInProgress)
    (hopen : (s.uniqToken, i, p.server.toRpcAddr) ∈ r.opened)
    (hcreated : (s.uniqToken, p.server.sessionNum) ∈
      ((w.put a r).rpcs p.server.toRpcAddr).created) (rinfo : ℕ) :
    Inv K (w.put a (r.write i (Sm.connected s p rinfo))) := by
  have hok := h.goodAt.entry i s hs
  have haddr : s.client.toRpcAddr = a := (h.cli a i s (by rwa [put_vec_self]) hrole).addr
  have hgood : (r.write i (Sm.connected s p rinfo)).Good := by
    refine h.goodAt.write hs rfl rfl ⟨hok.localNum, fun hr => ?_, fun hr => ?_⟩
    · exact absurd (hrole.symm.trans hr) (by simp)
    · exact ⟨(hok.client hr).1, fun _ => rfl⟩
  -- a session that waits for its connect response has sent no disconnect request
  have hnosent : ¬ (w.put a r).Sent .kDisconnectReq s.uniqToken := by
    intro hsent
    have := h.closing _ hsent a i s (by rwa [put_vec_self]) hrole rfl
    rw [hstate] at this
    simp at this
  refine h.writeClient [] (Sm.connected s p rinfo) (r.write i (Sm.connected s p rinfo))
    hs hrole rfl rfl rfl rfl rfl rfl (List.append_nil _).symm hgood
    ⟨?_, haddr, fun _ => ?_⟩ (fun _ => hnosent) fun q hq => by simp at hq
  · rw [put_rpcs_self]
    exact hopen
  · have hsub : r.created ⊆ (r.write i (Sm.connected s p rinfo)).created := List.Subset.refl _
    exact put_subset Sm.created hsub _ hcreated

/-! ## An entry is cleared -/

/-- Entry `i` is cleared.  If a server session was created in it, a disconnect request was sent. -/
theorem Inv.clear (h : Inv K (w.put a r)) (ps : List SmPkt)
    (hv : r'.sessionVec = r.sessionVec.set i none) (ho : r'.opened = r.opened)
    (hc : r'.created = r.created) (hm : r'.connReqTokenMap = r.connReqTokenMap)
    (he : r'.events = r.events) (hout : r'.out = r.out ++ ps)
    (hgone : ∀ u, (u, i) ∈ r.created →
      r.sessionVec[i]? = some none ∨ (w.put a r').Sent .kDisconnectReq u)
    (hsent : ∀ q ∈ ps, (w.put a r').PktOk q ∧ q.pktType ≠ .kDisconnectReq ∧
      (q.pktType = .kDisconnectResp →
        (w.put a r').vec q.server.toRpcAddr q.server.sessionNum = some none)) :
    Inv K (w.put a r') := by
  refine h.moveAt ps ⟨hout, fun x hx => by rwa [ho], fun x hx => by rwa [hc],
    (h.goodAt.setNull i).congr hv hc hm, ?_, ?_, ?_, ?_, ?_, ?_, ?_, ?_⟩
  · intro j hj
    rw [hv]
    by_cases hij : i = j
    · subst hij
      exact List.getElem?_set_self (Sm.lt_of_getElem? hj)
    · rwa [List.getElem?_set_ne hij]
  · intro j x hx
    rw [hv]
    by_cases hij : i = j
    · subst hij
      exact Or.inl (List.getElem?_set_self (Sm.lt_of_getElem? hx))
    · rw [List.getElem?_set_ne hij]
      exact Or.inr ⟨x, hx, rfl, rfl⟩
  · intro j x hx
    rw [hv] at hx
    rcases Sm.getElem?_set_some hx with ⟨-, hnone⟩ | ⟨-, hold⟩
    · simp at hnone
    · exact Or.inl hold
  · intro j u hj hmem
    rw [hv] at hj
    rw [hc] at hmem
    rcases Sm.getElem?_set_some hj with ⟨rfl, -⟩ | ⟨-, hold⟩
    · exact hgone u hmem
    · exact Or.inl hold
  · intro q hq
    obtain ⟨hok, hty, hnull⟩ := hsent q hq
    exact ⟨hok, fun hd => absurd hd hty, hnull⟩
  · intro u n b hx
    rw [ho] at hx
    exact Or.inl hx
  · intro u m hx
    rw [hc] at hx
    exact Or.inl hx
  · intro e hmem
    rw [he] at hmem
    exact Or.inl hmem

/-- The entry of a client session is cleared. -/
theorem Inv.clearClient (h : Inv K (w.put a r)) (hopen : (t, i, b) ∈ r.opened) :
    Inv K (w.put a { r with sessionVec := r.sessionVec.set i none }) := by
  refine h.clear [] rfl rfl rfl rfl rfl (List.append_nil _).symm ?_ fun q hq => by simp at hq
  intro u hmem
  -- the entry belongs to a client session, so that no server session was created in it
  rcases h.entry a t i b (by rwa [put_rpcs_self]) with ⟨s, hs, hrole, -⟩ | hnull
  · rw [put_vec_self] at hs
    rcases h.goodAt.made u i hmem with hnull | ⟨s', hs', hrole', -⟩
    · exact Or.inl hnull
    · rw [hs] at hs'
      obtain rfl : s = s' := by simpa using hs'
      exact absurd (hrole.symm.trans hrole') (by simp)
  · rw [put_vec_self] at hnull
    exact Or.inl hnull

/-- A disconnect request clears the entry of a server session and is answered. -/
theorem Inv.clearServer (h : Inv K (w.put a r)) (hs : r.sessionVec[i]? = some (some s))
    (hp : p ∈ (w.put a r).net) (hty : p.pktType = .kDisconnectReq)
    (haddr : p.server.toRpcAddr = a) (hnum : p.server.sessionNum = i) :
    Inv K (w.put a { r.freeRingEntries.udpTx (p.constructResp .kNoError) with
      sessionVec := r.sessionVec.set i none }) := by
  have hok := h.pkt p hp
  have hcreated : (p.uniqToken, i) ∈ r.created := by
    have := hok.created (fun hd => absurd (hty.symm.trans hd) (by simp)) (by simp [hty])
    rwa [haddr, hnum, put_rpcs_self] at this
  have htok : ∀ u, (u, i) ∈ r.created → s.uniqToken = u := by
    intro u hu
    rcases h.goodAt.made u i hu with hnull | ⟨s', hs', -, ht⟩
    · rw [hs] at hnull
      simp at hnull
    · rw [hs] at hs'
      obtain rfl : s = s' := by simpa using hs'
      exact ht
  set r' : Sm := { r.freeRingEntries.udpTx (p.constructResp .kNoError) with
    sessionVec := r.sessionVec.set i none } with hr'
  have hout : r'.out = r.out ++ [p.constructResp .kNoError] := rfl
  have hext : Ext (w.put a r) (w.put a r') :=
    Ext.put (List.Subset.refl r.opened) (List.Subset.refl r.created) hout
  refine h.clear [p.constructResp .kNoError] rfl rfl rfl rfl rfl hout ?_ ?_
  · intro u hu
    refine Or.inr ⟨p, hext.net hp, hty, ?_⟩
    rw [← htok u hu, htok _ hcreated]
  · intro q hq
    rw [List.mem_singleton] at hq
    subst hq
    have hresp : (p.constructResp .kNoError).pktType = .kDisconnectResp := by
      simp [SmPkt.constructResp, hty, SmPktType.reqToResp]
    refine ⟨⟨hext.opened _ hok.opened, Or.inr (Or.inr (Or.inr hresp)), fun _ _ => ?_⟩,
      by simp [hresp], fun _ => ?_⟩
    · show (p.uniqToken, p.server.sessionNum) ∈ ((w.put a r').rpcs p.server.toRpcAddr).created
      rw [haddr, hnum, put_rpcs_self]
      exact hcreated
    · show (w.put a r').vec p.server.toRpcAddr p.server.sessionNum = some none
      rw [haddr, hnum, put_vec_self]
      exact List.getElem?_set_self (Sm.lt_of_getElem? hs)

/-! ## A server session is created -/

/-- A connect request creates a server session and is answered with its number. -/
theorem Inv.openServer (h : Inv K (w.put a r)) (hlt : r.sessionVec.length < numSessionNums)
    (hp : p ∈ (w.put a r).net) (haddr : p.server.toRpcAddr = a)
    (hnew : r.connReqTokenMap p.uniqToken = none) (hty : p.pktType = .kConnectReq)
    (hup : w.up a = true) (C : SmCfg) (rinfo : ℕ) : Inv K (w.put a (r.openServer C p rinfo)) := by
  have hnum : r.sessionVec.length % numSessionNums = r.sessionVec.length := Nat.mod_eq_of_lt hlt
  have hok := h.pkt p hp
  set s := Sm.newServer C p rinfo r.sessionVec.length with hs
  set r' := r.openServer C p rinfo with hr'
  have hv : r'.sessionVec = r.sessionVec ++ [some s] := by
    rw [hr', Sm.openServer_sessionVec, hnum]
  have hc : r'.created = r.created ++ [(p.uniqToken, r.sessionVec.length)] := by
    show r.created ++ [(p.uniqToken, r.sessionVec.length % numSessionNums)] = _
    rw [hnum]
  have hout : r'.out = r.out ++ [Sm.accept p s] := by
    show r.out ++ [Sm.accept p (Sm.newServer C p rinfo (r.sessionVec.length % numSessionNums))] = _
    rw [hnum]
  have hopened : (p.uniqToken, p.client.sessionNum, a) ∈
      ((w.put a r').rpcs p.client.toRpcAddr).opened := by
    have := hok.opened
    rw [haddr] at this
    exact put_subset Sm.opened (show r.opened ⊆ r'.opened from List.Subset.refl _) _ this
  have hmem : (p.uniqToken, r.sessionVec.length) ∈ ((w.put a r').rpcs a).created := by
    rw [put_rpcs_self, hc]
    exact List.mem_append_right _ (List.mem_singleton.mpr rfl)
  have hresp : (Sm.accept p s).pktType = .kConnectResp := by
    simp [Sm.accept, SmPkt.constructResp, hty, SmPktType.reqToResp]
  refine h.push hv hout rfl (fun _ hx => hx) (by rw [hc]; exact List.subset_append_left _ _)
    (h.goodAt.openServer hlt hnew rinfo) ?_ (fun _ => ⟨hopened, haddr⟩)
    ⟨?_, Or.inr (Or.inl hresp), fun _ _ => ?_⟩ (by rw [hresp]; decide) (by rw [hresp]; decide)
    (fun _ _ _ hx => Or.inl hx) ?_
  · intro hrole
    simp [hs, Sm.newServer] at hrole
  · show (p.uniqToken, p.client.sessionNum, p.server.toRpcAddr) ∈
      ((w.put a r').rpcs p.client.toRpcAddr).opened
    rw [haddr]
    exact hopened
  · show (p.uniqToken, r.sessionVec.length) ∈ ((w.put a r').rpcs p.server.toRpcAddr).created
    rw [haddr]
    exact hmem
  · intro u m hx
    rw [hc, List.mem_append, List.mem_singleton] at hx
    rcases hx with hx | ⟨rfl, rfl⟩
    · exact Or.inl hx
    · exact Or.inr ⟨rfl, hup, _, _, hopened⟩

/-! ## The calls of the application -/

/-- A call opens a session under the token it draws, or none. -/
theorem call_opened (C : SmCfg) (r : Sm) (c : ApiCall) :
    (r.call C c).opened = r.opened ∨
      ∃ x, (r.call C c).opened = r.opened ++ [x] ∧ x.1 ∈ c.tokens := by
  rcases Sm.call_cases C r c with he | ⟨hostname, port, rpcId, token, rfl, -, he⟩ |
      ⟨i, s, -, -, -, he⟩
  · exact Or.inl (by rw [he])
  · refine Or.inr ⟨(token, r.sessionVec.length % numSessionNums, ⟨hostname, port, rpcId⟩), ?_, ?_⟩
    · rw [he]
      rfl
    · exact List.mem_singleton.mpr rfl
  · refine Or.inl ?_
    rw [he]
    rfl

theorem calls_opened_subset (C : SmCfg) (r : Sm) (cb : List ApiCall) :
    r.opened ⊆ (cb.foldl (Sm.call C) r).opened := by
  refine Sm.calls_ind (P := fun x => r.opened ⊆ x.opened) (List.Subset.refl _) ?_
  intro x c _ hx
  rcases call_opened C x c with he | ⟨y, he, -⟩
  · rwa [he]
  · rw [he]
    exact fun z hz => List.mem_append_left _ (hx hz)

theorem Unused.put (h : (w.put a r).Unused t) (ho : ∀ n b, (t, n, b) ∈ r'.opened →
    (t, n, b) ∈ r.opened) : (w.put a r').Unused t := by
  intro a' n b hmem
  by_cases ha : a' = a
  · subst ha
    rw [put_rpcs_self] at hmem
    exact h a' n b (by rw [put_rpcs_self]; exact ho n b hmem)
  · rw [put_rpcs_ne w r' ha] at hmem
    exact h a' n b (by rwa [put_rpcs_ne w r ha])

theorem Inv.call (h : Inv K (w.put a r)) (c : ApiCall)
    (hlen : (r.call (K.cfg a) c).sessionVec.length ≤ numSessionNums)
    (htok : ∀ t ∈ c.tokens, t ∈ w.tokens ∧ (w.put a r).Unused t) :
    Inv K (w.put a (r.call (K.cfg a) c)) := by
  rcases Sm.call_cases (K.cfg a) r c with he | ⟨hostname, port, rpcId, token, rfl, -, he⟩ |
      ⟨i, s, hs, hrole, hstate, he⟩
  · rwa [he]
  · obtain ⟨hdrawn, hun⟩ := htok token (List.mem_singleton.mpr rfl)
    rw [he] at hlen ⊢
    rw [Sm.openClient_sessionVec, List.length_append, List.length_singleton] at hlen
    exact h.openClient (by omega) hostname port rpcId hdrawn hun
  · rw [he]
    have hcli := h.cli a i s (by rwa [put_vec_self]) hrole
    have hopen := hcli.opened
    rw [put_rpcs_self] at hopen
    exact h.closeClient hs hrole hopen (hcli.server (by simp [hstate]))

/-- The calls of a callback draw new tokens. -/
theorem Inv.calls {cb : List ApiCall} (h : Inv K (w.put a r))
    (hlen : (cb.foldl (Sm.call (K.cfg a)) r).sessionVec.length ≤ numSessionNums)
    (hnodup : (cb.flatMap ApiCall.tokens).Nodup)
    (htok : ∀ t ∈ cb.flatMap ApiCall.tokens, t ∈ w.tokens ∧ (w.put a r).Unused t) :
    Inv K (w.put a (cb.foldl (Sm.call (K.cfg a)) r)) := by
  induction cb generalizing r with
  | nil => exact h
  | cons c cb ih =>
    obtain ⟨-, hnodup', hdisj⟩ := List.nodup_append'.mp hnodup
    have hgrow : Sm.Grown (r.call (K.cfg a) c)
        (cb.foldl (Sm.call (K.cfg a)) (r.call (K.cfg a) c)) :=
      Sm.calls_ind (Sm.Grown.of_eq rfl) fun _ c' _ hx => hx.call c'
    refine ih (h.call c (le_trans hgrow.length_le hlen) fun t ht => ?_) hlen hnodup' fun t ht => ?_
    · exact htok t (List.mem_append_left _ ht)
    · -- a token of a later call was not drawn by this one
      obtain ⟨hdrawn, hun⟩ := htok t (List.mem_append_right _ ht)
      refine ⟨hdrawn, hun.put fun n b hmem => ?_⟩
      rcases call_opened (K.cfg a) r c with he | ⟨x, he, hx⟩
      · rwa [he] at hmem
      · rw [he, List.mem_append, List.mem_singleton] at hmem
        rcases hmem with hmem | rfl
        · exact hmem
        · exact absurd ht (hdisj hx)

/-- A callback tells the application what the packets at hand say. -/
theorem Inv.smHandler {cb : List ApiCall} {ev : SmEventType} (h : Inv K (w.put a r))
    (s : SmSession) (err : SmErrType)
    (hlen : (r.smHandler (K.cfg a) cb s ev err).sessionVec.length ≤ numSessionNums)
    (hnodup : (cb.flatMap ApiCall.tokens).Nodup)
    (htok : ∀ t ∈ cb.flatMap ApiCall.tokens, t ∈ w.tokens ∧ (w.put a r).Unused t)
    (hfailed : ev = .kConnectFailed →
      ∃ q ∈ (w.put a r).net, q.Fatal K ∧ q.uniqToken = s.uniqToken)
    (hclosed : ev = .kDisconnected → (w.put a r).Sent .kDisconnectResp s.uniqToken) :
    Inv K (w.put a (r.smHandler (K.cfg a) cb s ev err)) := by
  set e : SmEvent := ⟨s.localSessionNum, ev, err, s.uniqToken⟩ with he
  have hnote : Inv K (w.put a { r with events := r.events ++ [e] }) := by
    refine h.note [] rfl rfl rfl rfl (List.append_nil _).symm (fun q hq => by simp at hq) ?_
    intro x hx
    rcases List.mem_append.mp hx with hx | hx
    · exact Or.inl hx
    · rw [List.mem_singleton] at hx
      subst hx
      exact Or.inr ⟨hfailed, hclosed⟩
  exact hnote.calls hlen hnodup fun t ht => ⟨(htok t ht).1, (htok t ht).2.put fun _ _ hx => hx⟩

end World

end HuiRpc
