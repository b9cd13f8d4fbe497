/-
# Every step keeps the invariant of a session

One section for every kind of step.  The part that concerns the slot comes from
`HuiRpc.SlotSteps`; here it is put into the session: the other slots do not notice, the credits
balance, and the queues and tags stay right.
-/
import HuiRpc.SessionInv

namespace HuiRpc

open Runs

variable {E : Env} {s s' : Sys} {i j : ℕ} {c : Cli} {w : Srv} {ps rs : List WirePkt}

/-! ## Channels and the trace -/

theorem ofSlot_append (i : ℕ) (ps rs : List WirePkt) :
    ofSlot i (ps ++ rs) = ofSlot i ps ++ ofSlot i rs := List.filter_append ..

/-- Packets of slot `i`. -/
def AllOf (i : ℕ) (ps : List WirePkt) : Prop := ∀ p ∈ ps, slotOf p.hdr = i

theorem AllOf.self (h : AllOf i ps) : ofSlot i ps = ps :=
  List.filter_eq_self.mpr fun p hp => decide_eq_true (h p hp)

theorem AllOf.other (h : AllOf i ps) (hj : j ≠ i) : ofSlot j ps = [] :=
  List.filter_eq_nil_iff.mpr fun p hp hpj => hj (by
    rw [decide_eq_true_eq] at hpj
    exact hpj.symm.trans (h p hp))

theorem AllOf.nil (i : ℕ) : AllOf i [] := fun p hp => absurd hp (by simp)

/-- What the trace gets when both sides append to their channels. -/
theorem Sys.log_eq (s : Sys) (hc : c.tx = s.cli.tx ++ ps) (hw : w.tx = s.srv.tx ++ rs) (j : ℕ) :
    s.log c w j = { s.trace j with
      cliSent := (s.trace j).cliSent ++ (ofSlot j ps).map WirePkt.hdr
      srvSent := (s.trace j).srvSent ++ (ofSlot j rs).map WirePkt.hdr } := by
  unfold Sys.log newHdrs
  rw [hc, hw, List.drop_left, List.drop_left]

theorem Sys.log_cli (s : Sys) (hc : c.tx = s.cli.tx ++ ps) (hps : AllOf i ps) :
    s.log c s.srv i = { s.trace i with
      cliSent := (s.trace i).cliSent ++ ps.map WirePkt.hdr } := by
  rw [s.log_eq hc (List.append_nil s.srv.tx).symm i, hps.self]
  simp [ofSlot]

theorem Sys.log_srv (s : Sys) (hw : w.tx = s.srv.tx ++ rs) (hrs : AllOf i rs) :
    s.log s.cli w i = { s.trace i with
      srvSent := (s.trace i).srvSent ++ rs.map WirePkt.hdr } := by
  rw [s.log_eq (List.append_nil s.cli.tx).symm hw i, hrs.self]
  simp [ofSlot]

/-- Packets of slot `i` are not in the trace of another slot. -/
theorem Sys.log_other (s : Sys) (hc : c.tx = s.cli.tx ++ ps) (hw : w.tx = s.srv.tx ++ rs)
    (hps : AllOf i ps) (hrs : AllOf i rs) (hj : j ≠ i) : s.log c w j = s.trace j := by
  rw [s.log_eq hc hw, hps.other hj, hrs.other hj, List.map_nil, List.append_nil, List.append_nil]

/-- The packets of a slot in a segment of its packets. -/
theorem allOf_seg {f : ℕ → WirePkt} {a b n : ℕ} (hf : ∀ k, (f k).hdr.reqNum = n % 2 ^ 32)
    (hn : n % kSessionReqWindow = i) : AllOf i (seg f a b) := by
  intro p hp
  obtain ⟨k, -, -, rfl⟩ := mem_seg.mp hp
  unfold slotOf
  rw [hf, mod_window, hn]

theorem Core.allOf_cli {v : View} {a q b x y : ℕ} (h : Core E v a q b)
    (hi : v.cs.curReqNum % kSessionReqWindow = i) : AllOf i (seg (v.tr.cliPkt E) x y) :=
  allOf_seg (Trace.cliPkt_reqNum E) (by rw [h.reqNum, hi])

theorem Core.slotOf_srv {v : View} {a q b : ℕ} (h : Core E v a q b)
    (hi : v.cs.curReqNum % kSessionReqWindow = i) (k : ℕ) : slotOf (v.tr.srvPkt E k).hdr = i := by
  unfold slotOf
  rw [Trace.srvPkt_reqNum, mod_window, h.reqNum, hi]

/-- A slot with a packet in a channel is running. -/
theorem SlotInv.running_of_up {v : View} (h : SlotInv E i v) (hne : v.up ≠ []) : Running E v := by
  rcases h.state with hidle | hrun
  · exact absurd hidle.up hne
  · exact hrun

theorem SlotInv.running_of_down {v : View} (h : SlotInv E i v) (hne : v.down ≠ []) :
    Running E v := by
  rcases h.state with hidle | hrun
  · exact absurd hidle.down hne
  · exact hrun

theorem Sys.active_of_core {a q b : ℕ} (h : Core E (s.view i) a q b) : s.Active i := by
  unfold Sys.Active
  rw [show (s.cli.slots i).txMsgbuf = _ from h.buf]
  simp

/-! ## A packet at the server -/

theorem slotOf_lt (h : Pkthdr) : slotOf h < kSessionReqWindow :=
  Nat.mod_lt _ (by decide)

/-- The head of a channel is the head of its slot's packets. -/
theorem ofSlot_cons_self {p : WirePkt} (hi : slotOf p.hdr = i) (rest : List WirePkt) :
    ofSlot i (p :: rest) = p :: ofSlot i rest :=
  List.filter_cons_of_pos (decide_eq_true hi)

theorem ofSlot_cons_other {p : WirePkt} (hi : slotOf p.hdr = i) (rest : List WirePkt)
    (hj : j ≠ i) : ofSlot j (p :: rest) = ofSlot j rest :=
  List.filter_cons_of_neg (by rw [decide_eq_true_eq, hi]; exact hj.symm)

/-- A step that moves slot `i` to `v`. -/
theorem Moved.to {v : View} (hi : i < kSessionReqWindow) (hview : s'.view i = v)
    (hothers : ∀ j, j ≠ i → s'.view j = s.view j) (hslot : SlotInv E i v)
    (hcredits : s'.cli.credits + v.tr.unacked = s.cli.credits + (s.view i).tr.unacked)
    (hok : s'.cli.ok = s.cli.ok) (hbacklog : s'.cli.backlog = s.cli.backlog) : Moved E s s' i where
  lt := hi
  others := hothers
  slot := hview ▸ hslot
  credits := by
    subst hview
    exact hcredits
  ok := hok
  backlog := hbacklog

/-- The state after the server took a packet of slot `i`, in terms of what its handler did. -/
def Sys.afterSrv (s : Sys) (rest : List WirePkt) (i : ℕ) (y : SrvCtx) : Sys :=
  let w := s.srv.put i y
  let t := { s.log s.cli w i with
    called := (s.trace i).called + (y.calls.length - s.srv.calls.length) }
  { s with cli := { s.cli with tx := rest }, srv := w, trace := Function.update (s.log s.cli w) i t }

theorem Sys.recvSrv_eq {p : WirePkt} {rest : List WirePkt} {preReq body : ℕ} {y : SrvCtx}
    (hi : slotOf p.hdr = i) (htx : s.cli.tx = p :: rest)
    (hy : Srv.recvSlot E.srv E.fn preReq body p.hdr (s.srv.ctx i) = some y) :
    s.step E (.recvSrv preReq body) = some (s.afterSrv rest i y) := by
  subst hi
  have hrecv : s.srv.recv E.srv E.fn preReq body p = some (s.srv.put (slotOf p.hdr) y) := by
    show Option.map _ (Srv.recvSlot E.srv E.fn preReq body p.hdr (s.srv.ctx (slotOf p.hdr))) = _
    rw [hy, Option.map_some]
    rfl
  unfold Sys.step
  simp only [htx, hrecv]
  rfl

section AfterSrv

variable {p : WirePkt} {rest : List WirePkt} {y : SrvCtx}

theorem Sys.view_afterSrv (rest : List WirePkt) (htx : y.tx = s.srv.tx ++ rs) (hrs : AllOf i rs) :
    (s.afterSrv rest i y).view i = { s.view i with
      ss := y.slot
      up := ofSlot i rest
      down := (s.view i).down ++ rs
      tr := { s.trace i with
        called := (s.trace i).called + (y.calls.length - s.srv.calls.length)
        srvSent := (s.trace i).srvSent ++ rs.map WirePkt.hdr } } := by
  have hlog := s.log_srv (w := s.srv.put i y) htx hrs
  unfold Sys.view Sys.afterSrv
  simp only [hlog]
  simp only [Srv.put, htx, ofSlot_append, hrs.self, Function.update_self]

theorem Sys.view_afterSrv_other (hi : slotOf p.hdr = i) (hp : s.cli.tx = p :: rest)
    (htx : y.tx = s.srv.tx ++ rs) (hrs : AllOf i rs) (hj : j ≠ i) :
    (s.afterSrv rest i y).view j = s.view j := by
  have hlog := s.log_other (w := s.srv.put i y) (List.append_nil s.cli.tx).symm htx (AllOf.nil i)
    hrs hj
  unfold Sys.view Sys.afterSrv
  simp only [Function.update_of_ne hj, hlog]
  simp only [Srv.put, Function.update_of_ne hj, htx, hp, ofSlot_cons_other hi rest hj,
    ofSlot_append, hrs.other hj, List.append_nil]

/-- The client's books do not change when the server takes a packet. -/
theorem Books.afterSrv (h : Books E s) : Books E (s.afterSrv rest i y) :=
  h.congr rfl rfl rfl rfl rfl rfl

end AfterSrv

/-- Work left, for a slot that follows the protocol. -/
theorem Core.work_eq {v : View} {a q b : ℕ} (h : Core E v a q b) :
    v.work = 3 * (v.tr.total - v.cs.numTx) + 2 * v.up.length + v.down.length := by
  unfold View.work
  rw [h.buf]

/-- What the server's step means for a slot, whatever the packet was. -/
theorem Moved.afterSrv {p : WirePkt} {rest : List WirePkt} {y : SrvCtx} {a q b : ℕ}
    (h : Base E s) (hi : slotOf p.hdr = i) (hp : s.cli.tx = p :: rest)
    (htx : y.tx = s.srv.tx ++ rs) (hrs : AllOf i rs) (hlen : rs.length ≤ 1)
    (hcap : y.slot.reqIov.capacity < 2 ^ 16) (hold : Core E (s.view i) a q b)
    (hbusy : (s.cli.slots i).numTx = 0 ∨ b < (s.cli.slots i).numTx) (a' q' : ℕ)
    (hnew : Core E ((s.afterSrv rest i y).view i) a' q' b) :
    Moved E s (s.afterSrv rest i y) i ∧ (s.afterSrv rest i y).work < s.work := by
  have hview := s.view_afterSrv rest htx hrs
  have hlt : i < kSessionReqWindow := hi ▸ slotOf_lt _
  have hm : Moved E s (s.afterSrv rest i y) i := Moved.to hlt rfl
    (fun j hj => s.view_afterSrv_other hi hp htx hrs hj)
    ⟨(h.slot i hlt).num, by rw [hview]; exact hcap, Or.inr ⟨a', q', b, hnew, hbusy⟩⟩
    (congrArg (s.cli.credits + ·) (hold.unacked_congr hnew rfl)) rfl rfl
  refine ⟨hm, hm.work_lt ?_⟩
  rw [hold.work_eq, hnew.work_eq, hview]
  show 3 * ((s.trace i).total - (s.cli.slots i).numTx) + 2 * (ofSlot _ rest).length
      + (ofSlot _ s.srv.tx ++ rs).length
    < 3 * ((s.trace i).total - (s.cli.slots i).numTx) + 2 * (ofSlot _ s.cli.tx).length
      + (ofSlot _ s.srv.tx).length
  rw [hp, ofSlot_cons_self hi, List.length_append, List.length_cons]
  omega

/-- The head of a segment. -/
theorem seg_eq_cons {f : ℕ → WirePkt} {a b : ℕ} {p : WirePkt} {ps : List WirePkt}
    (h : p :: ps = seg f a b) : a < b ∧ p = f a ∧ ps = seg f (a + 1) b := by
  have hlt : a < b := by
    have hlen := congrArg List.length h
    rw [List.length_cons, length_seg] at hlen
    omega
  rw [seg_cons f hlt, List.cons.injEq] at h
  exact ⟨hlt, h⟩

theorem Core.allOf_crFor {v : View} {a q b : ℕ} (h : Core E v a q b)
    (hi : v.cs.curReqNum % kSessionReqWindow = i) (k : ℕ) :
    AllOf i (crFor E v.tr k) ∧ (crFor E v.tr k).length ≤ 1 := by
  unfold crFor
  split_ifs
  · exact ⟨List.forall_mem_singleton.mpr (h.slotOf_srv hi k), le_refl 1⟩
  · exact ⟨AllOf.nil i, Nat.zero_le 1⟩

/-- **The server takes the next packet.** -/
theorem Inv.recvSrv (h : Inv E s) (hne : s.cli.tx ≠ []) (preReq body : ℕ) :
    ∃ s', s.step E (.recvSrv preReq body) = some s' ∧ Inv E s' ∧ s'.work < s.work := by
  obtain ⟨p, rest, hp⟩ := List.exists_cons_of_ne_nil hne
  obtain ⟨i, hi⟩ : ∃ i, slotOf p.hdr = i := ⟨_, rfl⟩
  have hslot := h.base.slot i (hi ▸ slotOf_lt _)
  have hup : (s.view i).up = p :: ofSlot i rest := by
    show ofSlot _ s.cli.tx = _
    rw [hp, ofSlot_cons_self hi]
  obtain ⟨a, q, b, hcore, hbusy⟩ := hslot.running_of_up (by rw [hup]; simp)
  obtain ⟨ha, hpa, hrest⟩ := seg_eq_cons (hup.symm.trans hcore.up)
  by_cases hN : a < (s.view i).tr.N
  · obtain ⟨y, hy, htook⟩ := recvSlot_req (y := s.srv.ctx i) preReq body hcore rfl hN hslot.cap
    rw [← hpa] at hy
    obtain ⟨hall, hlen⟩ := hcore.allOf_crFor hslot.num a
    obtain ⟨q', hnew⟩ := hcore.srvReq ha hN y.slot htook.curReqNum htook.counted htook.type
    have hview := s.view_afterSrv rest htook.tx hall
    obtain ⟨hm, hw⟩ := Moved.afterSrv h.base hi hp htook.tx hall hlen htook.capacity
      hcore hbusy (a + 1) q' (by
        rw [hview, hrest, show y.calls.length - s.srv.calls.length = _ from htook.calls]
        exact hnew)
    exact ⟨_, Sys.recvSrv_eq hi hp hy, ⟨h.base.moved hm, h.books.afterSrv⟩, hw⟩
  · have hle : (s.view i).tr.N ≤ a := by omega
    let y : SrvCtx := { s.srv.ctx i with
      slot := { (s.view i).ss with numRx := (s.view i).ss.numRx + 1 }
      tx := s.srv.tx ++ [(s.view i).tr.srvPkt E a] }
    have hy : Srv.recvSlot E.srv E.fn preReq body p.hdr (s.srv.ctx i) = some y := by
      have hrfr := recvSlot_rfr (y := s.srv.ctx i) preReq body hcore rfl ha hle
      rwa [← hpa] at hrfr
    have hall : AllOf i [(s.view i).tr.srvPkt E a] :=
      List.forall_mem_singleton.mpr (hcore.slotOf_srv hslot.num a)
    have hnew := hcore.srvRfr ha hle ((s.view i).ss.numRx + 1)
    obtain ⟨hm, hw⟩ := Moved.afterSrv (y := y) h.base hi hp rfl hall (le_refl 1) hslot.cap
      hcore hbusy (a + 1) (a + 1) (by
        rw [s.view_afterSrv (y := y) rest rfl hall, hrest,
          show y.calls.length - s.srv.calls.length = 0 from Nat.sub_self _]
        exact hnew)
    exact ⟨_, Sys.recvSrv_eq hi hp hy, ⟨h.base.moved hm, h.books.afterSrv⟩, hw⟩

/-! ## An answer -/

/-- The state after the server sent an answer for slot `i`. -/
def Sys.afterAnswer (s : Sys) (w : Srv) (i lkey : ℕ) (msg : TxMsg) : Sys :=
  let t := { s.log s.cli w i with resp := some (msg, lkey) }
  { s with srv := w, trace := Function.update (s.log s.cli w) i t }

theorem Sys.view_afterAnswer {y : SrvCtx} (lkey : ℕ) (msg : TxMsg) (htx : y.tx = s.srv.tx ++ rs)
    (hrs : AllOf i rs) :
    (s.afterAnswer (s.srv.put i y) i lkey msg).view i = { s.view i with
      ss := y.slot
      down := (s.view i).down ++ rs
      tr := { (s.trace i).answer msg lkey with
        srvSent := (s.trace i).srvSent ++ rs.map WirePkt.hdr } } := by
  have hlog := s.log_srv (w := s.srv.put i y) htx hrs
  unfold Sys.view Sys.afterAnswer
  simp only [hlog]
  simp only [Srv.put, htx, ofSlot_append, hrs.self, Trace.answer, Function.update_self]

theorem Sys.view_afterAnswer_other {y : SrvCtx} (lkey : ℕ) (msg : TxMsg)
    (htx : y.tx = s.srv.tx ++ rs) (hrs : AllOf i rs) (hj : j ≠ i) :
    (s.afterAnswer (s.srv.put i y) i lkey msg).view j = s.view j := by
  have hlog := s.log_other (w := s.srv.put i y) (List.append_nil s.cli.tx).symm htx (AllOf.nil i)
    hrs hj
  unfold Sys.view Sys.afterAnswer
  simp only [Function.update_of_ne hj, hlog]
  simp only [Srv.put, Function.update_of_ne hj, htx, ofSlot_append, hrs.other hj,
    List.append_nil]

/-- The response that `enqueue_response` writes is that of the protocol. -/
theorem enqueueResponse_core {v : View} {a q b : ℕ} {y : SrvCtx} (h : Core E v a q b)
    (hy : y.slot = v.ss) (hN : v.tr.N ≤ a) (hno : v.tr.resp = none) (lkey : ℕ) (msg : TxMsg) :
    enqueueResponse E.srv lkey msg y = { y with
      slot := { v.ss with
        savNumReqPkts := 1
        txMsgbuf := some ((v.tr.answer msg lkey).respBuf E)
        reqType := kInvalidReqType }
      tx := y.tx ++ [((v.tr.answer msg lkey).respBuf E).pkts 0] } := by
  have htype := h.srv.type hN hno
  have hnum := h.srv.started (lt_of_lt_of_le v.tr.N_pos hN)
  unfold enqueueResponse
  simp only [hy, htype, hnum]
  rfl

/-- **The handler of slot `i` answers.** -/
theorem Inv.answer {lkey : ℕ} {msg : TxMsg} (h : Inv E s) (hen : s.Enabled (.answer i lkey msg)) :
    ∃ s', s.step E (.answer i lkey msg) = some s' ∧ Inv E s' ∧ s'.work < s.work := by
  obtain ⟨hi, hcalled, hno⟩ := hen
  have hslot := h.base.slot i hi
  obtain ⟨a, q, b, hcore, hbusy⟩ : Running E (s.view i) := by
    rcases hslot.state with hidle | hrun
    · rcases hidle.settled with h0 | hr
      · exact absurd (show (s.trace i).called = 0 from h0) (by omega)
      · exact absurd (show (s.trace i).resp.isSome from hr) (by rw [hno]; simp)
    · exact hrun
  obtain ⟨hN, hfg⟩ : (s.view i).tr.N ≤ a ∧
      E.fn (s.view i).tr.reqBuf.hdr0.reqType = .kForeground := by
    by_contra hnot
    have hc := hcore.called
    rw [if_neg hnot] at hc
    exact absurd (show (s.trace i).called = 0 from hc) (by omega)
  have henq := enqueueResponse_core (y := s.srv.ctx i) hcore rfl hN hno lkey msg
  set y : SrvCtx := enqueueResponse E.srv lkey msg (s.srv.ctx i) with hy
  have htx : y.tx = s.srv.tx ++ [(((s.view i).tr.answer msg lkey).respBuf E).pkts 0] := by
    rw [henq]
    rfl
  have hall : AllOf i [(((s.view i).tr.answer msg lkey).respBuf E).pkts 0] := by
    refine List.forall_mem_singleton.mpr ?_
    unfold slotOf
    rw [(Trace.respBuf_hdr E ((s.view i).tr.answer msg lkey) 0).2]
    show ((s.view i).tr.req.fill .request (s.view i).tr.args |>.pkts 0).hdr.reqNum % _ = i
    rw [TxMsg.fill_reqNum, mod_window, hcore.reqNum]
    exact hslot.num
  have hview := s.view_afterAnswer lkey msg htx hall
  have hnew := hcore.answer hN hno hfg msg lkey
  have hnew' : Core E ((s.afterAnswer (s.srv.put i y) i lkey msg).view i) a a b := by
    rw [hview, henq]
    exact hnew
  have hm : Moved E s (s.afterAnswer (s.srv.put i y) i lkey msg) i := Moved.to hi rfl
    (fun j hj => s.view_afterAnswer_other lkey msg htx hall hj)
    ⟨hslot.num, by rw [hview, henq]; exact hslot.cap, Or.inr ⟨a, a, b, hnew', hbusy⟩⟩
    (congrArg (s.cli.credits + ·) (hcore.unacked_congr hnew' rfl)) rfl rfl
  refine ⟨_, rfl, ⟨h.base.moved hm, ?_⟩, hm.work_lt ?_⟩
  · exact h.books.congr rfl rfl rfl rfl rfl rfl
  · obtain ⟨-, hnumTx, -⟩ := hcore.at_answer hN hno
    have hM := msg.lt
    have htotal : (s.view i).tr.total = (s.view i).tr.N + pkgIndexSize := by
      unfold Trace.total
      rw [if_neg (by rw [show (s.view i).tr.resp = none from hno]; simp)]
    rw [hcore.work_eq, hnew'.work_eq, hview, htotal, hnumTx]
    show 3 * ((s.view i).tr.N + (msg.totalPkt - 1) - (s.view i).tr.N)
      + 2 * (s.view i).up.length + ((s.view i).down ++ [_]).length < _
    rw [List.length_append, List.length_singleton]
    omega

/-! ## A packet at the client -/

/-- The credits that are not at hand are those of waiting packets. -/
theorem Base.credits_add_le (h : Base E s) (hi : i < kSessionReqWindow) :
    s.cli.credits + (s.trace i).unacked ≤ kSessionCredits := by
  have hle := Finset.single_le_sum (f := fun j => (s.trace j).unacked)
    (fun _ _ => Nat.zero_le _) (Finset.mem_range.mpr hi)
  have hsum := h.credits
  omega

theorem Trace.le_total (t : Trace) : t.N + t.M - 1 ≤ t.total := by
  unfold Trace.total
  cases hr : t.resp with
  | none =>
    rw [t.M_of_none hr]
    simp
  | some r =>
    rw [Option.isSome_some, if_pos rfl]
    omega

/-- The state after the client took a packet with header `hd` of slot `i`. -/
def Sys.afterCli (s : Sys) (rest : List WirePkt) (i : ℕ) (hd : Pkthdr) (c : Cli) : Sys :=
  let t := { s.log c s.srv i with cliRcvd := (s.trace i).cliRcvd ++ [hd] }
  { s with
    cli := c
    srv := { s.srv with tx := rest }
    trace := Function.update (s.log c s.srv) i t
    done := s.done ++ s.completed c i t }

theorem Sys.recvCli_eq {p : WirePkt} {rest : List WirePkt} {stale : ℕ → UInt8}
    (hi : slotOf p.hdr = i) (htx : s.srv.tx = p :: rest)
    (hc : s.cli.recv E.cli stale p = some c) :
    s.step E (.recvCli stale) = some (s.afterCli rest i p.hdr c) := by
  subst hi
  unfold Sys.step
  simp only [htx, hc]
  rfl

theorem Sys.afterCli_done {rest : List WirePkt} {hd : Pkthdr} (h : c.conts = s.cli.conts) :
    (s.afterCli rest i hd c).done = s.done := by
  show s.done ++ s.completed c i _ = s.done
  unfold Sys.completed
  rw [h, if_neg (Nat.lt_irrefl _), List.append_nil]

section AfterCli

variable {p : WirePkt} {rest : List WirePkt} {cs : CliSlot}

theorem Sys.view_afterCli (rest : List WirePkt) (hd : Pkthdr)
    (hslots : c.slots = Function.update s.cli.slots i cs) (htx : c.tx = s.cli.tx ++ ps)
    (hps : AllOf i ps) :
    (s.afterCli rest i hd c).view i = { s.view i with
      cs := cs
      up := (s.view i).up ++ ps
      down := ofSlot i rest
      tr := { s.trace i with
        cliSent := (s.trace i).cliSent ++ ps.map WirePkt.hdr
        cliRcvd := (s.trace i).cliRcvd ++ [hd] } } := by
  unfold Sys.view Sys.afterCli
  simp only [Function.update_self, s.log_cli htx hps, hslots, htx, ofSlot_append, hps.self]

theorem Sys.view_afterCli_other (hi : slotOf p.hdr = i) (hp : s.srv.tx = p :: rest)
    (hslots : c.slots = Function.update s.cli.slots i cs) (htx : c.tx = s.cli.tx ++ ps)
    (hps : AllOf i ps) (hj : j ≠ i) : (s.afterCli rest i p.hdr c).view j = s.view j := by
  have hlog := s.log_other htx (List.append_nil s.srv.tx).symm hps (AllOf.nil i) hj
  unfold Sys.view Sys.afterCli
  simp only [Function.update_of_ne hj, hlog, hslots, htx, hp, ofSlot_cons_other hi rest hj,
    ofSlot_append, hps.other hj, List.append_nil]

end AfterCli

/-- **The client goes on with a slot**: it took `Q b`, changed the fields of the slot to `cs`
and sent `n` packets. -/
theorem Inv.afterCli {p : WirePkt} {rest : List WirePkt} {cs : CliSlot} {a q b n : ℕ}
    (h : Inv E s) (hi : slotOf p.hdr = i) (hp : s.srv.tx = p :: rest)
    (hcore : Core E (s.view i) a q b) (hpb : p = (s.view i).tr.srvPkt E b) (hbq : b < q)
    (hrest : ofSlot i rest = seg ((s.view i).tr.srvPkt E) (b + 1) q)
    (hn : n ≤ s.cli.credits + 1) (hlt : b + 1 < (s.view i).cs.numTx + n)
    (hnumTx : cs.numTx = (s.view i).cs.numTx) (htag : cs.tag = (s.view i).cs.tag)
    (hreq : cs.curReqNum = (s.view i).cs.curReqNum)
    (hnew : Core E ((s.view i).cliStep E cs q b n) a q (b + 1)) :
    let s' := s.afterCli rest i p.hdr (s.cli.put i
      (CliCtx.sent ⟨s.cli.credits + 1, s.cli.ok, cs, s.cli.tx⟩ ((s.view i).tr.cliPkt E) n))
    Inv E s' ∧ s'.work < s.work := by
  intro s'
  have hslot := h.base.slot i (hi ▸ slotOf_lt _)
  have hall := hcore.allOf_cli (x := cs.numTx) (y := cs.numTx + n) hslot.num
  have hview : s'.view i = (s.view i).cliStep E cs q b n := by
    have hv := s.view_afterCli rest p.hdr (c := s.cli.put i
      (CliCtx.sent ⟨s.cli.credits + 1, s.cli.ok, cs, s.cli.tx⟩ ((s.view i).tr.cliPkt E) n)) rfl
      (CliCtx.sent_tx _ _ _) hall
    rw [hrest] at hv
    refine hv.trans ?_
    unfold View.cliStep CliCtx.sent
    rw [← hpb]
    simp only [hnumTx]
    rfl
  have hqa := hcore.q_le
  have hst := hcore.s_le
  have hm : Moved E s s' i := by
    refine Moved.to (hi ▸ slotOf_lt _) hview
      (fun j hj => s.view_afterCli_other hi hp rfl (CliCtx.sent_tx _ _ _) hall hj)
      ⟨?_, hslot.cap, Or.inr ⟨a, q, b + 1, hnew, Or.inr hlt⟩⟩ ?_ rfl rfl
    · show cs.curReqNum % _ = _
      rw [hreq]
      exact hslot.num
    · rw [hcore.unacked, hnew.unacked]
      show s.cli.credits + 1 - n + ((s.view i).cs.numTx + n - (b + 1)) = _
      omega
  refine ⟨⟨h.base.moved hm, ?_⟩, hm.work_lt ?_⟩
  · have hcs : s'.cli.slots i = { cs with numTx := (s.view i).cs.numTx + n } :=
      congrArg View.cs hview
    refine h.books.moved hm rfl rfl rfl ?_ rfl (Sys.active_of_core hcore)
      (Sys.active_of_core (by rw [hview]; exact hnew)) ?_ ?_
    · exact Sys.afterCli_done rfl
    · rw [hcs]
      exact htag
    · rw [hcs]
      show (s.view i).cs.numTx + n = 0 ↔ (s.view i).cs.numTx = 0
      omega
  · rw [hcore.work_eq, hview, hnew.work_eq]
    have hle : (s.view i).cs.numTx + n ≤ (s.view i).tr.N + (s.view i).tr.M - 1 := hnew.numTx_le
    have htot := (s.view i).tr.le_total
    show 3 * ((s.view i).tr.total - ((s.view i).cs.numTx + n))
      + 2 * ((s.view i).up ++ seg _ _ _).length + (seg _ (b + 1) q).length < _
    rw [List.length_append, length_seg, length_seg, hcore.down, length_seg]
    omega

/-- The client session after slot `i` completed with the buffer `buf`. -/
def Cli.finished (c : Cli) (i : ℕ) (buf : RespBuf) : Cli :=
  { c.put i ⟨c.credits + 1, c.ok,
      { c.slots i with numRx := 0, txMsgbuf := none, resp := buf }, c.tx⟩ with
    freeVec := i :: c.freeVec
    conts := c.conts ++ [((c.slots i).tag, buf)] }

theorem Sys.afterCli_done_finished (s : Sys) (rest : List WirePkt) (i : ℕ) (hd : Pkthdr)
    (buf : RespBuf) :
    (s.afterCli rest i hd (s.cli.finished i buf)).done = s.done ++ [⟨(s.cli.slots i).tag,
      (s.afterCli rest i hd (s.cli.finished i buf)).trace i, (s.cli.slots i).numTx, buf⟩] := by
  have hslot : (s.cli.finished i buf).slots i
      = { s.cli.slots i with numRx := 0, txMsgbuf := none, resp := buf } :=
    Function.update_self ..
  have hlen : s.cli.conts.length < (s.cli.finished i buf).conts.length := by
    show _ < (s.cli.conts ++ [_]).length
    rw [List.length_append]
    exact Nat.lt_succ_self _
  unfold Sys.afterCli Sys.completed
  simp only [Function.update_self, hslot, if_pos hlen]

/-- A slot after its last packet `Q b` has been processed. -/
def View.finished (E : Env) (v : View) (b : ℕ) (buf : RespBuf) : View :=
  { v with
    cs := { v.cs with numRx := 0, txMsgbuf := none, resp := buf }
    up := []
    down := []
    tr := { v.tr with cliRcvd := v.tr.cliRcvd ++ [(v.tr.srvPkt E b).hdr] } }

section Finished

variable {v : View} {a q b : ℕ} {buf : RespBuf}

/-- The last packet leaves the slot without a request. -/
theorem Core.idle_finished (h : Core E v a q b) (hlast : b + 1 = v.tr.N + v.tr.M - 1)
    (hr : v.tr.resp.isSome) (hnumTx : v.cs.numTx = v.tr.N + v.tr.M - 1) (ha : a = v.cs.numTx) :
    Idle (v.finished E b buf) where
  tx := rfl
  up := rfl
  down := rfl
  unacked := by
    have hsent : v.tr.cliSent = (seg (v.tr.cliPkt E) 0 (b + 1)).map WirePkt.hdr := by
      rw [h.cliSent, hnumTx, ← hlast]
    exact (Trace.unacked_eq (t := (v.finished E b buf).tr) E (le_of_eq hlast) hsent
      h.cliRcvd_snoc).trans (Nat.sub_self _)
  settled := Or.inr hr
  synced := by
    show v.ss.curReqNum = v.cs.curReqNum % 2 ^ 32
    rw [h.srv.started (by omega), ← h.reqNum]
    exact v.tr.req.fill_reqNum _ _ _

/-- The record of the RPC is what the trace holds then. -/
theorem Core.done_finished (h : Core E v a q b) (hlast : b + 1 = v.tr.N + v.tr.M - 1)
    (hbuf : buf.Holds v.tr.respMsg) (hr : v.tr.resp.isSome)
    (hnumTx : v.cs.numTx = v.tr.N + v.tr.M - 1) (hq : q = v.cs.numTx) (tag : ℕ) :
    Done.Ok E ⟨tag, (v.finished E b buf).tr, v.cs.numTx, buf⟩ where
  answered := hr
  called := by
    show v.tr.called = 1
    rw [h.called, if_pos ⟨h.whole hr, h.foreground hr⟩]
  numTx := hnumTx
  cliSent := by
    show v.tr.cliSent = _
    rw [h.cliSent, hnumTx]
    rfl
  srvSent := by
    show v.tr.srvSent = _
    rw [h.srvSent, hq, hnumTx]
    rfl
  cliRcvd := hlast ▸ h.cliRcvd_snoc
  buf := hbuf

end Finished

/-- **The client completes an RPC**: it took the last packet, and nothing else of the RPC was in
the channels. -/
theorem Inv.finishCli {p : WirePkt} {rest : List WirePkt} {buf : RespBuf} {a q b : ℕ}
    (h : Inv E s) (hi : slotOf p.hdr = i) (hp : s.srv.tx = p :: rest)
    (hcore : Core E (s.view i) a q b) (hpb : p = (s.view i).tr.srvPkt E b)
    (hrest : ofSlot i rest = seg ((s.view i).tr.srvPkt E) (b + 1) q)
    (hlast : b + 1 = (s.view i).tr.N + (s.view i).tr.M - 1)
    (hbuf : buf.Holds (s.view i).tr.respMsg) (hr : (s.view i).tr.resp.isSome)
    (hnumTx : (s.view i).cs.numTx = (s.view i).tr.N + (s.view i).tr.M - 1)
    (ha : a = (s.view i).cs.numTx) (hq : q = (s.view i).cs.numTx) :
    let s' := s.afterCli rest i p.hdr (s.cli.finished i buf)
    Inv E s' ∧ s'.work < s.work := by
  intro s'
  have hlt : i < kSessionReqWindow := hi ▸ slotOf_lt _
  have hslot := h.base.slot i hlt
  have hview : s'.view i = (s.view i).finished E b buf := by
    have hup : (s.view i).up = [] := by
      rw [hcore.up, ha, seg_self]
    have hdown : ofSlot i rest = [] := by
      rw [hrest, hlast, ← hnumTx, ← hq, seg_self]
    refine (s.view_afterCli rest p.hdr (c := s.cli.finished i buf) rfl
      (List.append_nil s.cli.tx).symm (AllOf.nil _)).trans ?_
    unfold View.finished
    rw [hup, hdown, ← hpb]
    simp only [List.map_nil, List.append_nil]
    rfl
  have hothers : ∀ j, j ≠ i → s'.view j = s.view j := fun j hj =>
    s.view_afterCli_other hi hp rfl (List.append_nil s.cli.tx).symm (AllOf.nil _) hj
  have hidle : Idle ((s.view i).finished E b buf) := hcore.idle_finished hlast hr hnumTx ha
  have hm : Moved E s s' i := by
    refine Moved.to hlt hview hothers ⟨hslot.num, hslot.cap, Or.inl hidle⟩ ?_ rfl rfl
    rw [hcore.unacked, hidle.unacked]
    show s.cli.credits + 1 + 0 = _
    omega
  refine ⟨⟨h.base.moved hm, ?_⟩, hm.work_lt ?_⟩
  · have hd : Done.Ok E ⟨(s.cli.slots i).tag, (s'.view i).tr, (s.cli.slots i).numTx, buf⟩ := by
      rw [hview]
      exact hcore.done_finished hlast hbuf hr hnumTx hq _
    refine h.books.finish hlt (Sys.active_of_core hcore) ?_ hd rfl
      (fun j hj => congrArg View.cs (hothers j hj)) ?_ rfl rfl rfl ?_ rfl
    · show (s.view i).cs.numTx ≠ 0
      omega
    · intro hact
      exact hact (congrArg (·.cs.txMsgbuf) hview)
    · exact s.afterCli_done_finished rest i p.hdr buf
  · rw [hview, hcore.work_eq, hcore.down, length_seg]
    show 0 < _
    omega

/-- A credit return at the session. -/
theorem Cli.recv_cr {e : Endpoint} {stale : ℕ → UInt8} {p : WirePkt} {x : CliCtx}
    (hi : slotOf p.hdr = i) (htype : p.hdr.pktType = .kExplCR)
    (hx : processExplCr (c.ctx i) = some x) : c.recv e stale p = some (c.put i x) := by
  subst hi
  unfold Cli.recv
  rw [htype]
  show (processExplCr (c.ctx (slotOf p.hdr))).map _ = _
  rw [hx]
  rfl

/-- A response packet at the session. -/
theorem Cli.recv_resp {e : Endpoint} {stale : ℕ → UInt8} {p : WirePkt}
    {r : CliCtx × Option RespBuf} (hi : slotOf p.hdr = i) (htype : p.hdr.pktType = .kResp)
    (hx : processRespOne e p.hdr (readBody stale p.payload p.hdr.thisMsgSize) (c.ctx i) = some r) :
    c.recv e stale p = match r.2 with
      | none => some (c.put i r.1)
      | some resp => (c.put i r.1).finish i resp := by
  subst hi
  unfold Cli.recv
  rw [htype]
  show (processRespOne e p.hdr _ (c.ctx (slotOf p.hdr))).bind _ = _
  rw [hx]
  rfl

/-- The packet that the client receives next is the next answer to the request of its slot. -/
theorem Inv.next_answer {p : WirePkt} {rest : List WirePkt} (h : Inv E s) (hi : slotOf p.hdr = i)
    (htx : s.srv.tx = p :: rest) :
    ∃ a q b, Core E (s.view i) a q b ∧ b < q ∧ p = (s.view i).tr.srvPkt E b ∧
      ofSlot i rest = seg ((s.view i).tr.srvPkt E) (b + 1) q := by
  have hdown : (s.view i).down = p :: ofSlot i rest := by
    show ofSlot _ s.srv.tx = _
    rw [htx, ofSlot_cons_self hi]
  obtain ⟨a, q, b, hcore, -⟩ :=
    (h.base.slot i (hi ▸ slotOf_lt _)).running_of_down (by rw [hdown]; simp)
  obtain ⟨hbq, hpb, hrest⟩ := seg_eq_cons (hdown.symm.trans hcore.down)
  exact ⟨a, q, b, hcore, hbq, hpb, hrest⟩

/-- **The client takes the next packet.** -/
theorem Inv.recvCli (h : Inv E s) (hne : s.srv.tx ≠ []) (stale : ℕ → UInt8) :
    ∃ s', s.step E (.recvCli stale) = some s' ∧ Inv E s' ∧ s'.work < s.work := by
  obtain ⟨p, rest, hp⟩ := List.exists_cons_of_ne_nil hne
  obtain ⟨i, hi⟩ : ∃ i, slotOf p.hdr = i := ⟨_, rfl⟩
  obtain ⟨a, q, b, hcore, hbq, hpb, hrest⟩ := h.next_answer hi hp
  have hcr : (s.cli.ctx i).credits < kSessionCredits := by
    have hle := h.base.credits_add_le (i := i) (hi ▸ slotOf_lt _)
    have hun : (s.trace i).unacked = _ := hcore.unacked
    have hqa := hcore.q_le
    have hst := hcore.s_le
    show s.cli.credits < kSessionCredits
    omega
  have hptype : p.hdr.pktType = if b + 1 < (s.view i).tr.N then .kExplCR else .kResp :=
    (congrArg (fun r => r.hdr.pktType) hpb).trans (Trace.srvPkt_type E _ b)
  by_cases hN : b + 1 < (s.view i).tr.N
  · rw [if_pos hN] at hptype
    obtain ⟨n, hn, hlt, hx, hnew⟩ := processExplCr_core (x := s.cli.ctx i) hcore rfl hbq hN hcr
    exact ⟨_, Sys.recvCli_eq hi hp (Cli.recv_cr hi hptype hx),
      h.afterCli hi hp hcore hpb hbq hrest hn hlt rfl rfl rfl hnew⟩
  · rw [if_neg hN] at hptype
    have hunf := hcore.unfinished
    by_cases hmore : b + 1 < (s.view i).tr.N + (s.view i).tr.M - 1
    · obtain ⟨n, hn, hlt, hx, hnew⟩ := processRespOne_more (x := s.cli.ctx i) hcore rfl hbq
        (by omega) hmore hcr stale
      rw [← hpb] at hx
      exact ⟨_, Sys.recvCli_eq hi hp (Cli.recv_resp hi hptype hx),
        h.afterCli hi hp hcore hpb hbq hrest hn hlt rfl rfl rfl hnew⟩
    · have hlast : b + 1 = (s.view i).tr.N + (s.view i).tr.M - 1 := by
        omega
      obtain ⟨buf, hbuf, hx, hr, hnumTx, ha, hq⟩ := processRespOne_last (x := s.cli.ctx i) hcore
        rfl hbq hlast hcr stale
      rw [← hpb] at hx
      have hrecv : s.cli.recv E.cli stale p = some (s.cli.finished i buf) := by
        rw [Cli.recv_resp hi hptype hx]
        show Cli.finish _ _ _ = _
        unfold Cli.finish
        rw [if_neg (by
          show ¬ (s.cli.backlog ≠ [])
          rw [h.base.backlog]
          exact fun hx => hx rfl), Option.some.injEq]
        unfold Cli.finished Cli.put
        simp only [Function.update_self]
        rfl
      exact ⟨_, Sys.recvCli_eq hi hp hrecv,
        h.finishCli hi hp hcore hpb hrest hlast hbuf hr hnumTx ha hq⟩

/-! ## Kicks -/

/-- The state after the client sent packets. -/
def Sys.sendOn (s : Sys) (c : Cli) : Sys := { s with cli := c, trace := s.log c s.srv }

theorem Sys.view_sendOn {cs : CliSlot} (hslots : c.slots = Function.update s.cli.slots i cs)
    (htx : c.tx = s.cli.tx ++ ps) (hps : AllOf i ps) :
    (s.sendOn c).view i = { s.view i with
      cs := cs
      up := (s.view i).up ++ ps
      tr := { s.trace i with cliSent := (s.trace i).cliSent ++ ps.map WirePkt.hdr } } := by
  unfold Sys.view Sys.sendOn
  simp only [s.log_cli htx hps, hslots, Function.update_self, htx, ofSlot_append, hps.self]

theorem Sys.view_sendOn_other {cs : CliSlot} (hslots : c.slots = Function.update s.cli.slots i cs)
    (htx : c.tx = s.cli.tx ++ ps) (hps : AllOf i ps) (hj : j ≠ i) :
    (s.sendOn c).view j = s.view j := by
  have hlog := s.log_other htx (List.append_nil s.srv.tx).symm hps (AllOf.nil i) hj
  unfold Sys.view Sys.sendOn
  simp only [hlog, hslots, Function.update_of_ne hj, htx, ofSlot_append, hps.other hj,
    List.append_nil]

theorem Sys.sendOn_self (s : Sys) : s.sendOn s.cli = s := by
  have hlog : s.log s.cli s.srv = s.trace := by
    funext j
    rw [s.log_eq (List.append_nil _).symm (List.append_nil _).symm j]
    simp [ofSlot]
  unfold Sys.sendOn
  rw [hlog]

/-- Sending twice is sending once. -/
theorem Sys.sendOn_sendOn {c c' : Cli} (hlen : s.cli.tx.length ≤ c.tx.length)
    (htx : c'.tx = c.tx ++ ps) : (s.sendOn c).sendOn c' = s.sendOn c' := by
  have hlog : (s.sendOn c).log c' s.srv = s.log c' s.srv := by
    unfold Sys.log Sys.sendOn Sys.log newHdrs
    simp only [List.append_assoc, ← List.map_append, ← ofSlot_append, List.drop_length,
      List.append_nil]
    rw [htx, List.drop_left, List.drop_append_of_le_length hlen]
  show ({ s with cli := c', trace := (s.sendOn c).log c' s.srv } : Sys) = _
  rw [hlog]
  rfl

/-- What the client sends for slot `i` when it leaves the stall queue. -/
def Sys.kickCtx (E : Env) (s : Sys) (i : ℕ) : CliCtx :=
  (s.cli.ctx i).sent ((s.trace i).cliPkt E) (min s.cli.credits (s.trace i).N)

/-- The state after slot `i` left the stall queue. -/
def Sys.kicked (E : Env) (s : Sys) (i : ℕ) : Sys :=
  s.sendOn { s.cli.put i (s.kickCtx E i) with stallq := s.cli.stallq.erase i }

/-- A slot in the stall queue is at the start of the protocol. -/
theorem Inv.stalled_core (h : Inv E s) (hi : i ∈ s.cli.stallq) :
    Core E (s.view i) 0 0 0 ∧ (s.view i).cs.numTx = 0 := by
  obtain ⟨hlt, hact, hzero⟩ := (h.books.stall i).mp hi
  have hzero' : (s.view i).cs.numTx = 0 := hzero
  rcases (h.base.slot i hlt).state with hidle | ⟨a, q, b, hcore, -⟩
  · exact absurd hidle.tx hact
  · have hqa := hcore.q_le
    have hst := hcore.s_le
    have hcq := hcore.c_le
    obtain ⟨rfl, rfl, rfl⟩ : a = 0 ∧ q = 0 ∧ b = 0 := by omega
    exact ⟨hcore, hzero'⟩

/-- What `process_credit_stall_queue_st` sends for a slot. -/
theorem Inv.kick_eq (h : Inv E s) (hi : i ∈ s.cli.stallq) (hpos : 0 < s.cli.credits) :
    kickReq (s.cli.ctx i) = some (s.kickCtx E i) ∧
      Cli.stallKick E.cli (s.cli.ctx i) = some (s.kickCtx E i) := by
  obtain ⟨hcore, hzero⟩ := h.stalled_core hi
  have hNpos := (s.trace i).N_pos
  have hkick : kickReq (s.cli.ctx i) = some (s.kickCtx E i) := by
    have hk := kickReq_core (x := s.cli.ctx i) (t := s.trace i) (E := E) hcore.buf hpos
      (by show (s.view i).cs.numTx ≤ _; omega)
    rw [show (s.cli.ctx i).slot.numTx = 0 from hzero, Nat.sub_zero] at hk
    exact hk
  refine ⟨hkick, ?_⟩
  unfold Cli.stallKick
  rw [show (s.cli.ctx i).slot.txMsgbuf = some (s.trace i).reqBuf from hcore.buf, Option.bind_some,
    if_pos (by show (s.view i).cs.numTx < (s.trace i).N; omega), hkick]

/-- **A slot leaves the stall queue**: with a credit at hand, request packets are sent. -/
theorem Inv.kick (h : Inv E s) (hi : i ∈ s.cli.stallq) (hpos : 0 < s.cli.credits) :
    kickReq (s.cli.ctx i) = some (s.kickCtx E i) ∧
      Cli.stallKick E.cli (s.cli.ctx i) = some (s.kickCtx E i) ∧
      Inv E (s.kicked E i) ∧ (s.kicked E i).work < s.work := by
  obtain ⟨hkick, hstall⟩ := h.kick_eq hi hpos
  obtain ⟨hcore, hzero⟩ := h.stalled_core hi
  have hlt := ((h.books.stall i).mp hi).1
  have hslot := h.base.slot i hlt
  have hNpos := (s.trace i).N_pos
  set n := min s.cli.credits (s.trace i).N with hn
  have hall := hcore.allOf_cli (x := (s.cli.slots i).numTx) (y := (s.cli.slots i).numTx + n)
    hslot.num
  have htx : (s.kickCtx E i).tx = s.cli.tx ++ _ := CliCtx.sent_tx _ _ _
  have hnew := hcore.kick (n := n) (by
    rw [Trace.limit_of_lt (show 0 < (s.view i).tr.N from hNpos)]
    show _ ≤ (s.trace i).N
    omega)
  have hview : (s.kicked E i).view i = _ := Sys.view_sendOn (s := s)
    (c := { s.cli.put i (s.kickCtx E i) with stallq := s.cli.stallq.erase i }) rfl htx hall
  have hnew' : Core E ((s.kicked E i).view i) 0 0 0 := by
    rw [hview]
    exact hnew
  have hcs : ((s.kicked E i).view i).cs = { s.cli.slots i with numTx := (s.cli.slots i).numTx + n } :=
    congrArg View.cs hview
  have hsent : 0 < (s.cli.slots i).numTx + n := by omega
  have hm : Moved E s (s.kicked E i) i := by
    refine Moved.to hlt hview (fun j hj => Sys.view_sendOn_other (s := s) rfl htx hall hj)
      ⟨hslot.num, hslot.cap, Or.inr ⟨0, 0, 0, hnew, Or.inr hsent⟩⟩ ?_ rfl rfl
    refine (congrArg (s.cli.credits - n + ·) hnew.unacked).trans ?_
    rw [hcore.unacked]
    show s.cli.credits - n + ((s.view i).cs.numTx + n - 0) = _
    omega
  refine ⟨hkick, hstall, ⟨h.base.moved hm, ?_⟩, hm.work_lt ?_⟩
  · refine h.books.leaveStall hi (fun j hj => congrArg View.cs (hm.others j hj))
      (Sys.active_of_core hnew') ?_ ?_ rfl rfl rfl rfl rfl
    · show ((s.kicked E i).view i).cs.numTx ≠ 0
      rw [hcs]
      exact hsent.ne'
    · show ((s.kicked E i).view i).cs.tag = _
      rw [hcs]
  · rw [hcore.work_eq, hnew'.work_eq, hcs, hview]
    have htot := (s.view i).tr.le_total
    have hle : (s.view i).cs.numTx + n ≤ (s.view i).tr.N + (s.view i).tr.M - 1 := hnew.numTx_le
    show 3 * ((s.view i).tr.total - ((s.view i).cs.numTx + n))
      + 2 * ((s.view i).up ++ seg _ _ _).length + (s.view i).down.length < _
    rw [List.length_append, length_seg]
    omega

/-- The loop of `process_credit_stall_queue_st`.  In the middle of the loop the queue is what was
written back followed by what has not been looked at. -/
theorem Inv.stallLoop (s : Sys) (rest : List ℕ) : ∀ (c : Cli) (kept : List ℕ),
    Inv E (s.sendOn { c with stallq := kept ++ rest }) → s.cli.tx.length ≤ c.tx.length →
    ∃ c' kept', Cli.stallLoop E.cli rest c kept = some (c', kept') ∧
      Inv E (s.sendOn { c' with stallq := kept' }) ∧
      ((s.sendOn { c' with stallq := kept' }).work
          < (s.sendOn { c with stallq := kept ++ rest }).work ∨
        (c' = c ∧ kept' = kept ++ rest ∧ (rest = [] ∨ c.credits = 0))) := by
  induction rest with
  | nil =>
    intro c kept h _
    rw [List.append_nil] at h
    exact ⟨c, kept, rfl, h, Or.inr ⟨rfl, (List.append_nil _).symm, Or.inl rfl⟩⟩
  | cons i rest ih =>
    intro c kept h hlen
    by_cases hpos : 0 < c.credits
    · obtain ⟨-, hkick, hinv, hwork⟩ := h.kick (i := i) (by simp [Sys.sendOn]) hpos
      set m := s.sendOn { c with stallq := kept ++ i :: rest } with hm
      have htx : (m.kickCtx E i).tx = c.tx ++ _ := CliCtx.sent_tx _ _ _
      have herase : (kept ++ i :: rest).erase i = kept ++ rest := by
        have hnd : (kept ++ i :: rest).Nodup := h.books.stallNodup
        have hni : i ∉ kept := fun hi => (List.nodup_append.mp hnd).2.2 i hi i
          (List.mem_cons_self ..) rfl
        rw [List.erase_append_right _ hni, List.erase_cons_head]
      have hnext : m.kicked E i = s.sendOn { c.put i (m.kickCtx E i) with stallq := kept ++ rest } := by
        refine (Sys.sendOn_sendOn (c := { c with stallq := kept ++ i :: rest }) hlen htx).trans ?_
        show s.sendOn { c.put i (m.kickCtx E i) with stallq := (kept ++ i :: rest).erase i } = _
        rw [herase]
      rw [hnext] at hinv hwork
      obtain ⟨c', kept', hloop, hinv', hlt⟩ := ih (c.put i (m.kickCtx E i)) kept hinv (by
        show _ ≤ (m.kickCtx E i).tx.length
        rw [htx, List.length_append]
        omega)
      refine ⟨c', kept', ?_, hinv', Or.inl ?_⟩
      · rw [Cli.stallLoop, if_pos hpos, show c.ctx i = m.cli.ctx i from rfl, hkick, Option.bind_some]
        exact hloop
      · rcases hlt with hlt | ⟨rfl, rfl, -⟩
        · exact lt_trans hlt hwork
        · exact hwork
    · rw [show kept ++ i :: rest = (kept ++ [i]) ++ rest by simp] at h ⊢
      obtain ⟨c', kept', hloop, hinv', hlt⟩ := ih c (kept ++ [i]) h hlen
      refine ⟨c', kept', ?_, hinv', ?_⟩
      · rw [Cli.stallLoop, if_neg hpos]
        exact hloop
      · rcases hlt with hlt | ⟨hc, hkept, -⟩
        · exact Or.inl hlt
        · exact Or.inr ⟨hc, hkept, Or.inr (by omega)⟩

/-- **A pass over the stall queue** gets something done, or changes nothing because there is no
stalled slot or no credit. -/
theorem Inv.stall (h : Inv E s) :
    ∃ s', s.step E .stall = some s' ∧ Inv E s' ∧
      (s'.work < s.work ∨ (s' = s ∧ (s.cli.stallq = [] ∨ s.cli.credits = 0))) := by
  have hself : s.sendOn { s.cli with stallq := [] ++ s.cli.stallq } = s := s.sendOn_self
  obtain ⟨c', kept', hloop, hinv, hlt⟩ := Inv.stallLoop s s.cli.stallq s.cli []
    (by rw [hself]; exact h) (le_refl _)
  refine ⟨s.sendOn { c' with stallq := kept' }, ?_, hinv, ?_⟩
  · show (s.cli.processCreditStallQueue E.cli).map _ = _
    unfold Cli.processCreditStallQueue
    rw [hloop]
    rfl
  · rcases hlt with hlt | ⟨rfl, rfl, hwhy⟩
    · exact Or.inl hlt
    · exact Or.inr ⟨hself, hwhy⟩

/-! ## A new request -/

/-- The state in which the new request is in slot `i` and in the stall queue. -/
def Sys.started (E : Env) (s : Sys) (i reqType lkey : ℕ) (rest : List ℕ) (msg : TxMsg) : Sys :=
  let cs := Cli.fillSlot E.cli reqType lkey msg s.next (s.cli.slots i)
  { s with
    cli := { s.cli with
      freeVec := rest, stallq := s.cli.stallq ++ [i], slots := Function.update s.cli.slots i cs }
    trace := Function.update s.trace i
      (Trace.start msg ⟨reqType, E.cli.remoteSessionNum, cs.curReqNum, lkey⟩)
    next := s.next + 1 }

theorem Inv.start {rest : List ℕ} (h : Inv E s) (reqType lkey : ℕ) (msg : TxMsg)
    (hfree : s.cli.freeVec = i :: rest) : Inv E (s.started E i reqType lkey rest msg) := by
  obtain ⟨hi, hidle⟩ := (h.books.tickets.mem_free i).mp (by rw [hfree]; exact List.mem_cons_self ..)
  have hslot := h.base.slot i hi
  obtain hidle' : Idle (s.view i) := by
    rcases hslot.state with hx | ⟨a, q, b, hcore, -⟩
    · exact hx
    · exact absurd (Sys.active_of_core hcore) hidle
  set cs := Cli.fillSlot E.cli reqType lkey msg s.next (s.cli.slots i) with hcs
  set t := Trace.start msg ⟨reqType, E.cli.remoteSessionNum, cs.curReqNum, lkey⟩ with ht
  have hview : (s.started E i reqType lkey rest msg).view i = ⟨cs, s.srv.slots i, [], [], t⟩ := by
    have hup : ofSlot i s.cli.tx = [] := hidle'.up
    have hdown : ofSlot i s.srv.tx = [] := hidle'.down
    unfold Sys.view Sys.started
    simp only [Function.update_self, hup, hdown]
    rfl
  have hcore : Core E ⟨cs, s.srv.slots i, [], [], t⟩ 0 0 0 :=
    Core.start reqType lkey msg s.next hidle'.synced
  have hm : Moved E s (s.started E i reqType lkey rest msg) i := by
    refine Moved.to hi hview ?_ ⟨?_, hslot.cap, Or.inr ⟨0, 0, 0, hcore, Or.inl rfl⟩⟩ ?_ rfl rfl
    · intro j hj
      unfold Sys.view Sys.started
      simp only [Function.update_of_ne hj]
    · show (_ + kSessionReqWindow) % kSessionReqWindow = i
      rw [Nat.add_mod_right]
      exact hslot.num
    · rw [hidle'.unacked]
      exact congrArg (s.cli.credits + ·) hcore.unacked
  have hslots : (s.started E i reqType lkey rest msg).cli.slots i = cs := congrArg View.cs hview
  refine ⟨h.base.moved hm, h.books.start hfree rfl
    (fun j hj => congrArg View.cs (hm.others j hj)) ?_ ?_ ?_ rfl rfl rfl rfl⟩
  · exact Sys.active_of_core (by rw [hview]; exact hcore)
  · rw [hslots]
    rfl
  · rw [hslots]
    rfl

/-- The step of `enqueue_request` in terms of the started state. -/
theorem Sys.enqueue_eq {reqType lkey : ℕ} {msg : TxMsg} {rest : List ℕ}
    (hfree : s.cli.freeVec = i :: rest)
    (henq : s.cli.enqueueRequest E.cli reqType lkey msg s.next = some c)
    (hcur : (c.slots i).curReqNum = (s.cli.slots i).curReqNum + kSessionReqWindow) :
    s.step E (.enqueue reqType lkey msg) = some ((s.started E i reqType lkey rest msg).sendOn c) := by
  have hhead : s.cli.freeVec.headD 0 = i := by rw [hfree]; rfl
  show (s.cli.enqueueRequest E.cli reqType lkey msg s.next).map _ = _
  rw [henq, Option.map_some, hhead]
  dsimp only
  rw [hcur]
  rfl

/-- **The application enqueues a request** while a slot is free. -/
theorem Inv.enqueue (h : Inv E s) (hne : s.cli.freeVec ≠ []) (reqType lkey : ℕ) (msg : TxMsg) :
    ∃ s', s.step E (.enqueue reqType lkey msg) = some s' ∧ Inv E s' := by
  obtain ⟨i, rest, hfree⟩ := List.exists_cons_of_ne_nil hne
  have hinv := h.start reqType lkey msg hfree
  set m := s.started E i reqType lkey rest msg with hm
  have hnotin : i ∉ s.cli.stallq := by
    intro hx
    have hact := ((h.books.stall i).mp hx).2.1
    exact ((h.books.tickets.mem_free i).mp (by rw [hfree]; exact List.mem_cons_self ..)).2 hact
  -- the client before the kick: as in `m`, but not yet in the stall queue
  set c1 : Cli := { s.cli with
    freeVec := rest
    slots := Function.update s.cli.slots i
      (Cli.fillSlot E.cli reqType lkey msg s.next (s.cli.slots i)) } with hc1
  by_cases hpos : 0 < s.cli.credits
  · obtain ⟨hkick, -, hinv', -⟩ := hinv.kick (i := i)
      (by show i ∈ s.cli.stallq ++ [i]; simp) hpos
    have henq : s.cli.enqueueRequest E.cli reqType lkey msg s.next
        = some (c1.put i (m.kickCtx E i)) := by
      unfold Cli.enqueueRequest
      rw [hfree]
      show (if 0 < s.cli.credits then (kickReq (c1.ctx i)).map (c1.put i) else _) = _
      rw [if_pos hpos, show c1.ctx i = m.cli.ctx i from rfl, hkick, Option.map_some]
    have herase : m.cli.stallq.erase i = s.cli.stallq := by
      show (s.cli.stallq ++ [i]).erase i = _
      rw [List.erase_append_right _ hnotin, List.erase_cons_head, List.append_nil]
    refine ⟨m.kicked E i, ?_, hinv'⟩
    rw [Sys.enqueue_eq hfree henq]
    · unfold Sys.kicked
      rw [herase]
      rfl
    · show (Function.update c1.slots i (m.kickCtx E i).slot i).curReqNum = _
      rw [Function.update_self]
      show (Function.update s.cli.slots i _ i).curReqNum = _
      rw [Function.update_self]
      rfl
  · have henq : s.cli.enqueueRequest E.cli reqType lkey msg s.next
        = some { c1 with stallq := s.cli.stallq ++ [i] } := by
      unfold Cli.enqueueRequest
      rw [hfree]
      show (if 0 < s.cli.credits then (kickReq (c1.ctx i)).map (c1.put i) else _) = _
      rw [if_neg hpos]
    refine ⟨m, ?_, hinv⟩
    rw [Sys.enqueue_eq hfree henq]
    · exact congrArg some m.sendOn_self
    · show (Function.update s.cli.slots i _ i).curReqNum = _
      rw [Function.update_self]
      rfl

end HuiRpc
