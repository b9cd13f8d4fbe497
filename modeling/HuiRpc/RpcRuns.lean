/-
# The queues of an Rpc in every run

While packets arrive in order, every step of an `Rpc` keeps the invariant of `HuiRpc.RpcQueues`.
What it says about the stall queue and the slots:

* `StallPass` — a pass over the stall queue as it should be: every slot has its turn, and is
  kicked with `kick_req_st` if its session has a credit then, or kept in its place;
* `stall_queue_in_order` — the stall queue has every slot once, only slots that have sent nothing,
  and `process_credit_stall_queue_st` is such a pass;
* `slots_in_order` — free-slot vector, active list and backlog agree with the slots;
* `in_order_returns` — no step goes through a null pointer, unless a packet arrives at a session with
  a backlog;
* `stall_queue_late_credit`, `slot_freed_twice` — a late packet breaks both.
-/
import HuiRpc.RpcQueues

namespace HuiRpc

open Runs Queues

variable {E : ℕ → Env} {s s' : RpcSys} {n : ℕ}

/-! ## Steps of one session -/

/-- A step of a session that keeps its invariant. -/
theorem Inv.of_step {E : Env} {t t' : Sys} {a : Act} (h : Inv E t) (hen : t.Enabled a)
    (hs : t.step E a = some t') : Inv E t' := by
  obtain ⟨t'', hs'', hinv, -⟩ := h.step hen
  rw [hs''] at hs
  exact Option.some.inj hs ▸ hinv

/-- A new request links its slot. -/
theorem RpcInv.link {reqType lkey i : ℕ} {msg : TxMsg} {rest : List ℕ} {t' : Sys} (h : RpcInv E s)
    (hfree : (s.sess n).cli.freeVec = i :: rest)
    (ht' : (s.sess n).step (E n) (.enqueue reqType lkey msg) = some t') :
    ∃ links, s.active.insertBefore .tail (.slot n i) = some links ∧
      RpcSys.ListsActive ⟨Function.update s.sess n (t'.restall []),
        s.stallq ++ t'.cli.stallq.map fun i => (n, i), links, s.unanswered⟩ := by
  obtain ⟨hi, hidle⟩ := ((h.sess n).books.tickets.mem_free i).mp
    (show i ∈ (s.sess n).cli.freeVec by rw [hfree]; exact List.mem_cons_self ..)
  -- the slot has a request now, the others are as before
  have hsent : ∀ j, (t'.cli.slots j).txMsgbuf = (Function.update (s.sess n).cli.slots i
      (Cli.fillSlot (E n).cli reqType lkey msg (s.sess n).next ((s.sess n).cli.slots i)) j).txMsgbuf := by
    obtain ⟨c, hc, rfl⟩ := Option.map_eq_some_iff.mp ht'
    exact fun j => ((Cli.enqueueRequest_sentOn hfree hc).slot j).1
  apply h.active.start hi hidle
  · show (t'.cli.slots i).txMsgbuf ≠ none
    rw [hsent, Function.update_self]
    simp [Cli.fillSlot]
  · intro j hj
    show (t'.cli.slots j).txMsgbuf ≠ none ↔ _
    rw [hsent, Function.update_of_ne hj]
    rfl

/-- **A new request.** -/
theorem RpcInv.enqueue {reqType lkey : ℕ} {msg : TxMsg} (h : RpcInv E s)
    (hs : s.enqueueRequest E n reqType lkey msg = some s') : RpcInv E s' := by
  unfold RpcSys.enqueueRequest at hs
  dsimp only at hs
  cases hfree : (s.sess n).cli.freeVec with
  | nil =>
    rw [hfree] at hs
    rw [Cli.enqueueRequest_backlog hfree] at hs
    obtain rfl := Option.some.inj hs
    exact h.moved (fun _ _ => rfl) (h.sess n) (h.noQueue n) (fun _ => hfree) (h.waiting n)
      (fun _ _ => rfl) (h.active.same fun _ => Iff.rfl)
  | cons i rest =>
    rw [hfree] at hs
    obtain ⟨links, hlinks, hs⟩ := Option.bind_eq_some_iff.mp hs
    obtain ⟨t', ht', rfl⟩ := Option.map_eq_some_iff.mp hs
    obtain ⟨links', hlinks', hlist⟩ := h.link hfree ht'
    obtain rfl := Option.some.inj (hlinks.symm.trans hlinks')
    have hne : (s.sess n).cli.freeVec ≠ [] := by
      rw [hfree]
      exact List.cons_ne_nil _ _
    obtain ⟨hreq, hback⟩ := Sys.enqueue_requeue (q := stalledOf s.stallq n) hne (h.noQueue n) ht'
    have hinv := (h.sess n).of_step (a := .enqueue reqType lkey msg) hne hreq
    obtain ⟨hi, hidle⟩ := ((h.sess n).books.tickets.mem_free i).mp
      (show i ∈ (s.sess n).cli.freeVec by rw [hfree]; exact List.mem_cons_self ..)
    obtain ⟨hwait, hwait'⟩ := Sys.enqueue_waiting hfree ht'
    refine h.moved ?_ ?_ rfl ?_ ?_ (fun _ _ => rfl) hlist
    · intro m hm
      rw [stalledOf_append, stalledOf_other _ hm, List.append_nil]
    · rw [stalledOf_append, stalledOf_self]
      exact hinv
    · intro hb
      refine absurd (h.backlog n ?_) hne
      rwa [← hback]
    · intro j hj
      show s.unanswered n j = t'.waitingCalls j
      rw [h.waiting n j hj]
      by_cases hji : j = i
      · rw [hji, hwait]
        exact (h.sess n).waitingCalls_idle hi hidle
      · exact (hwait' j hji).symm

/-- A step at the server, after which `k` calls of slot `i` wait for their answer. -/
theorem RpcInv.atServer {t' : Sys} {i k : ℕ} (h : RpcInv E s)
    (hinv : Inv (E n) (t'.requeue (stalledOf s.stallq n)))
    (hcli : t'.cli = { (s.sess n).cli with tx := t'.cli.tx })
    (hwait : ∀ j, j < kSessionReqWindow →
      t'.waitingCalls j = if j = i then k else (s.sess n).waitingCalls j) :
    RpcInv E ((s.setSess n t').setUnanswered n i k) := by
  refine h.moved (fun _ _ => rfl) hinv ?_ ?_ ?_ ?_ ?_
  · rw [hcli]
    exact h.noQueue n
  · rw [hcli]
    exact h.backlog n
  · intro j hj
    show Function.update s.unanswered n (Function.update (s.unanswered n) i k) n j = _
    rw [Function.update_self, Function.update_apply, hwait j hj, h.waiting n j hj]
  · intro m hm
    exact Function.update_of_ne hm _ _
  · refine h.active.same fun j => ?_
    unfold Sys.Active
    rw [hcli]

/-- **An answer.** -/
theorem RpcInv.answer {i lkey : ℕ} {msg : TxMsg} (h : RpcInv E s)
    (hg : i < kSessionReqWindow ∧ 0 < s.unanswered n i)
    (hs : s.answer E n i lkey msg = some s') : RpcInv E s' := by
  obtain ⟨t', ht', rfl⟩ := Option.map_eq_some_iff.mp hs
  obtain ⟨hi, hpos⟩ := hg
  have hun := h.waiting n i hi
  have hreq := Sys.answer_requeue (q := stalledOf s.stallq n) ht'
  obtain ⟨hen, hwait, hwait'⟩ := (h.sess n).answer_waiting hi
    (show 0 < (s.sess n).waitingCalls i by omega) hreq
  have hcli : t'.cli = (s.sess n).cli := (Sys.answer_goes ht').1
  apply h.atServer ((h.sess n).of_step hen hreq)
  · rw [hcli]
  · intro j _
    split_ifs with hji
    · rw [hun, hji]
      exact hwait
    · exact hwait' j hji

/-- **A packet at the server**, the oldest of its channel. -/
theorem RpcInv.recvSrv {preReq body : ℕ} (h : RpcInv E s)
    (hs : s.recvSrv E n 0 preReq body = some s') : RpcInv E s' := by
  obtain ⟨p, hp, hs⟩ := Option.bind_eq_some_iff.mp hs
  obtain ⟨t', ht', rfl⟩ := Option.map_eq_some_iff.mp hs
  rw [Sys.upFirst_zero] at ht'
  rw [← List.head?_eq_getElem?] at hp
  obtain ⟨rest, htx⟩ := List.head?_eq_some_iff.mp hp
  have hreq := Sys.recvSrv_requeue (q := stalledOf s.stallq n) ht'
  have htx' : ((s.sess n).requeue (stalledOf s.stallq n)).cli.tx = p :: rest := htx
  have hinv := (h.sess n).of_step (a := .recvSrv preReq body)
    (show _ ≠ [] by rw [htx']; exact List.cons_ne_nil _ _) hreq
  apply h.atServer hinv
  · rw [(Sys.recvSrv_calls htx ht').1]
  · intro j hj
    have hwait := (h.sess n).recvSrv_waiting hinv htx' hreq hj
    change t'.waitingCalls j = (s.sess n).waitingCalls j + _ at hwait
    rw [hwait]
    split_ifs with hjp
    · rw [← hjp, h.waiting n j hj]
      rfl
    · rfl

/-- The slot of a packet that arrives in order has a request, and is unlinked if the packet
completes it. -/
theorem RpcInv.unlink {stale : ℕ → UInt8} {p : WirePkt} {rest : List WirePkt} {t' : Sys}
    (h : RpcInv E s) (htx : (s.sess n).srv.tx = p :: rest)
    (ht' : (s.sess n).step (E n) (.recvCli stale) = some t') :
    ∃ links, (if (s.sess n).cli.conts.length < t'.cli.conts.length then
        s.active.unlink (.slot n (slotOf p.hdr)) else some s.active) = some links ∧
      RpcSys.ListsActive ⟨Function.update s.sess n t', s.stallq, links, s.unanswered⟩ := by
  have htx' : ((s.sess n).requeue (stalledOf s.stallq n)).srv.tx = p :: rest := htx
  obtain ⟨a, q, b, hcore, -⟩ := (h.sess n).next_answer rfl htx'
  have hact : (s.sess n).Active (slotOf p.hdr) := Sys.active_of_core hcore
  obtain ⟨m, hr⟩ : ∃ m, Recvd (s.sess n).cli t'.cli (slotOf p.hdr) m
      (if p.hdr.pktType = .kResp then 1 else 0) := by
    simp only [Sys.step, htx] at ht'
    obtain ⟨c, hc, rfl⟩ := Option.map_eq_some_iff.mp ht'
    exact Cli.recv_recvd hc
  have hothers : ∀ j, j ≠ slotOf p.hdr → (t'.Active j ↔ (s.sess n).Active j) := fun j hj =>
    Sys.active_congr (hr.others j hj)
  rcases hr.rest with ⟨hbuf, -, -, hconts⟩ | ⟨hbuf, -, hconts⟩
  · -- the RPC goes on
    refine ⟨s.active, if_neg (by rw [hconts]; exact Nat.lt_irrefl _), ?_⟩
    refine h.active.same fun j => ?_
    by_cases hj : j = slotOf p.hdr
    · subst hj
      unfold Sys.Active
      rw [hbuf]
    · exact hothers j hj
  · -- the RPC is complete
    have hlen : (s.sess n).cli.conts.length < t'.cli.conts.length := by
      have := congrArg List.length hconts
      rw [List.length_append, List.length_map, List.length_map, List.length_singleton] at this
      omega
    rw [if_pos hlen]
    exact h.active.finish (slotOf_lt p.hdr) hact (fun hx => hx hbuf) hothers

/-- **A packet at the client**, the oldest of its channel. -/
theorem RpcInv.recvCli {stale : ℕ → UInt8} (h : RpcInv E s)
    (hs : s.recvCli E n 0 stale = some s') : RpcInv E s' := by
  obtain ⟨p, hp, hs⟩ := Option.bind_eq_some_iff.mp hs
  obtain ⟨t', ht', hs⟩ := Option.bind_eq_some_iff.mp hs
  obtain ⟨links, hlinks, rfl⟩ := Option.map_eq_some_iff.mp hs
  rw [Sys.downFirst_zero] at ht'
  rw [← List.head?_eq_getElem?] at hp
  obtain ⟨rest, htx⟩ := List.head?_eq_some_iff.mp hp
  obtain ⟨links', hlinks', hlist⟩ := h.unlink htx ht'
  obtain rfl := Option.some.inj (hlinks.symm.trans hlinks')
  -- the step does not read the stall queue, so it is also one of the session with its part of the
  -- global queue, for which the invariant of one session holds
  obtain ⟨hreq, hstallq, hback, hfree⟩ :=
    Sys.recvCli_requeue (q := stalledOf s.stallq n) ht'
  have htx' : ((s.sess n).requeue (stalledOf s.stallq n)).srv.tx = p :: rest := htx
  have hinv := (h.sess n).of_step (a := .recvCli stale)
    (show _ ≠ [] by rw [htx']; exact List.cons_ne_nil _ _) hreq
  refine h.moved (fun _ _ => rfl) hinv ?_ ?_ ?_ (fun _ _ => rfl) hlist
  · rw [hstallq]
    exact h.noQueue n
  · intro hb
    rcases hfree with hfree | hnil
    · rw [hfree]
      exact h.backlog n (by rwa [← hback])
    · exact absurd hnil hb
  · intro j hj
    rw [Sys.recvCli_waiting ht' j]
    exact h.waiting n j hj

/-! ## A pass over the stall queue -/

/-- **A pass over the stall queue.**  The slots of the queue have their turn in order.  If its
session has a credit, a slot that has request packets to send is kicked with `kick_req_st`;
otherwise it stays.  The two lists are those kicked and those that stay. -/
inductive StallPass : RpcSys → List (ℕ × ℕ) → List (ℕ × ℕ) → List (ℕ × ℕ) → RpcSys → Prop
  | nil (s : RpcSys) : StallPass s [] [] [] s
  | kick {s s' : RpcSys} {n i : ℕ} {rest kicked kept : List (ℕ × ℕ)} {b : MsgBuf} {y : CliCtx}
      (hpos : 0 < (s.sess n).cli.credits) (hb : ((s.sess n).cli.slots i).txMsgbuf = some b)
      (hreq : reqPktsPending ((s.sess n).cli.slots i) b)
      (hk : kickReq ((s.sess n).cli.ctx i) = some y)
      (h : StallPass (s.setSess n ((s.sess n).sendOn ((s.sess n).cli.put i y))) rest kicked kept s') :
      StallPass s ((n, i) :: rest) ((n, i) :: kicked) kept s'
  | keep {s s' : RpcSys} {n i : ℕ} {rest kicked kept : List (ℕ × ℕ)}
      (hzero : (s.sess n).cli.credits = 0) (h : StallPass s rest kicked kept s') :
      StallPass s ((n, i) :: rest) kicked ((n, i) :: kept) s'

/-- The turns of a pass are those of the code. -/
theorem StallPass.swept {q kicked kept : List (ℕ × ℕ)} (h : StallPass s q kicked kept s')
    (E : ℕ → Env) : Swept (RpcSys.stallTurn E) s q kicked kept s' := by
  induction h with
  | nil s => exact Swept.nil s
  | @kick s s' n i rest kicked kept b y hpos hb hreq hk _ ih =>
    refine Swept.drop ?_ ih
    unfold RpcSys.stallTurn
    dsimp only
    rw [if_pos hpos]
    refine Option.map_eq_some_iff.mpr ⟨y, ?_, rfl⟩
    unfold Cli.stallKick
    rw [show ((s.sess n).cli.ctx i).slot.txMsgbuf = some b from hb, Option.bind_some,
      if_pos (show reqPktsPending ((s.sess n).cli.ctx i).slot b from hreq)]
    exact hk
  | @keep s s' n i rest kicked kept hzero _ ih =>
    refine Swept.keep ?_ ih
    unfold RpcSys.stallTurn
    dsimp only
    rw [if_neg (by omega)]

/-- The queue of a session when slot `i` leaves it. -/
theorem stalledOf_erase {kept rest : List (ℕ × ℕ)} {i : ℕ}
    (hnd : (stalledOf (kept ++ (n, i) :: rest) n).Nodup) :
    (stalledOf (kept ++ (n, i) :: rest) n).erase i = stalledOf (kept ++ rest) n := by
  rw [stalledOf_append, stalledOf_cons_self] at hnd ⊢
  have hni : i ∉ stalledOf kept n := fun hx =>
    (List.nodup_append.mp hnd).2.2 i hx i (List.mem_cons_self ..) rfl
  rw [List.erase_append_right _ hni, List.erase_cons_head, stalledOf_append]

/-- **The turn of a slot whose session has a credit.** -/
theorem RpcInv.kick {kept rest : List (ℕ × ℕ)} {i : ℕ}
    (h : RpcInv E { s with stallq := kept ++ (n, i) :: rest })
    (hpos : 0 < (s.sess n).cli.credits) :
    ∃ b y, ((s.sess n).cli.slots i).txMsgbuf = some b ∧
      reqPktsPending ((s.sess n).cli.slots i) b ∧ kickReq ((s.sess n).cli.ctx i) = some y ∧
      RpcInv E { s.setSess n ((s.sess n).sendOn ((s.sess n).cli.put i y)) with
        stallq := kept ++ rest } := by
  have hinv := h.sess n
  dsimp only at hinv
  have hmem : i ∈ stalledOf (kept ++ (n, i) :: rest) n := by
    rw [mem_stalledOf]
    simp
  obtain ⟨hkick, hstall, hnew, -⟩ := hinv.kick hmem hpos
  obtain ⟨b, hb, hcase⟩ := Option.bind_eq_some_iff.mp hstall
  obtain ⟨m, hk⟩ := kickReq_kicked hkick
  set y := ((s.sess n).requeue (stalledOf (kept ++ (n, i) :: rest) n)).kickCtx (E n) i with hy
  have hk' : Kicked ((s.sess n).cli.ctx i) y m := hk
  have hsent := hk'.sentOn
  -- nothing was sent yet, so there are request packets to send
  have hreq : reqPktsPending ((s.sess n).cli.slots i) b := by
    obtain ⟨hcore, hzero⟩ := hinv.stalled_core hmem
    have hbuf : b = ((s.sess n).trace i).reqBuf :=
      Option.some.inj (hb.symm.trans hcore.buf)
    show ((s.sess n).cli.slots i).numTx < b.totalPkg
    rw [show ((s.sess n).cli.slots i).numTx = 0 from hzero, hbuf]
    exact ((s.sess n).trace i).N_pos
  refine ⟨b, y, hb, hreq, hkick, ?_⟩
  refine h.moved ?_ ?_ (h.noQueue n) (h.backlog n) (h.waiting n) (fun _ _ => rfl) ?_
  · intro m hm
    dsimp only
    rw [stalledOf_append, stalledOf_append, stalledOf_cons_other i rest hm]
  · rw [← stalledOf_erase hinv.books.stallNodup]
    exact hnew
  · refine h.active.same (q := kept ++ rest) fun j => ?_
    show (((s.sess n).cli.put i y).slots j).txMsgbuf ≠ none ↔ _
    rw [(hsent.slot j).1]
    rfl

/-- **The sweep.**  In the middle of the loop the queue is what was kept followed by what has not
had its turn. -/
theorem RpcInv.pass (rest : List (ℕ × ℕ)) : ∀ (s : RpcSys) (kept : List (ℕ × ℕ)),
    RpcInv E { s with stallq := kept ++ rest } →
    ∃ s' kicked stay, StallPass s rest kicked stay s' ∧
      RpcInv E { s' with stallq := kept ++ stay } := by
  induction rest with
  | nil =>
    intro s kept h
    exact ⟨s, [], [], StallPass.nil s, h⟩
  | cons x rest ih =>
    obtain ⟨n, i⟩ := x
    intro s kept h
    by_cases hpos : 0 < (s.sess n).cli.credits
    · obtain ⟨b, y, hb, hreq, hk, hnew⟩ := h.kick hpos
      obtain ⟨s', kicked, stay, hpass, hinv⟩ := ih _ kept hnew
      exact ⟨s', (n, i) :: kicked, stay, StallPass.kick hpos hb hreq hk hpass, hinv⟩
    · -- the slot stays, behind those kept so far
      rw [show kept ++ (n, i) :: rest = (kept ++ [(n, i)]) ++ rest by simp] at h
      obtain ⟨s', kicked, stay, hpass, hinv⟩ := ih s (kept ++ [(n, i)]) h
      refine ⟨s', kicked, (n, i) :: stay, StallPass.keep (by omega) hpass, ?_⟩
      rwa [List.append_assoc, List.singleton_append] at hinv

/-- **`process_credit_stall_queue_st`** is a pass over the queue. -/
theorem RpcInv.stall (h : RpcInv E s) :
    ∃ s' kicked kept, StallPass s s.stallq kicked kept s' ∧
      s.processCreditStallQueue E = some { s' with stallq := kept } ∧
      RpcInv E { s' with stallq := kept } := by
  obtain ⟨s', kicked, kept, hpass, hinv⟩ := RpcInv.pass s.stallq s [] h
  obtain ⟨a, w, hsweep, hkept⟩ := (hpass.swept E).sweep
  refine ⟨s', kicked, kept, hpass, ?_, hinv⟩
  unfold RpcSys.processCreditStallQueue
  rw [hsweep, Option.map_some]
  dsimp only
  rw [hkept]

/-! ## Every run -/

theorem RpcInv.step {a : RpcAct} (h : RpcInv E s) (hg : s.InOrder a) (hs : s.step E a = some s') :
    RpcInv E s' := by
  obtain ⟨harr, hold⟩ := hg
  cases a with
  | enqueue n reqType lkey msg => exact h.enqueue hs
  | answer n i lkey msg => exact h.answer harr hs
  | recvSrv n j preReq body =>
    obtain rfl : j = 0 := hold
    exact h.recvSrv hs
  | recvCli n j stale =>
    obtain rfl : j = 0 := hold
    exact h.recvCli hs
  | stall =>
    obtain ⟨s'', kicked, kept, -, hstep, hinv⟩ := h.stall
    obtain rfl := Option.some.inj (hstep.symm.trans hs)
    exact hinv

theorem RpcInv.of_run {as : List RpcAct} (h : Run RpcSys.InOrder (RpcSys.step E) RpcSys.init as s) :
    RpcInv E s :=
  h.invariant (RpcInv.init E) fun _ _ _ hinv hg hs => hinv.step hg hs

end HuiRpc
