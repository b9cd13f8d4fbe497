/-
# The queues of an Rpc and the slots of its sessions

An `Rpc` has any number of client sessions.  Every session has its slots, its free-slot vector, its
credits and its backlog; the credit stall queue and the list of active RPCs are shared.  Here the
sessions of `HuiRpc.Session` run side by side under one `Rpc`:

* `enqueue_request` takes a free slot, links it into the active list and sends or stalls, or puts
  the request into the backlog when no slot is free;
* `process_resp_one_st` unlinks a slot whose response is complete;
* `process_credit_stall_queue_st` sweeps the queue in place.

The network loses and duplicates nothing, but it may hand over any packet of a channel (`Arrives`).
In `InOrder` runs it hands over the oldest one, as the sessions of `HuiRpc.Session` assume; then
`RpcInv` holds in every state.

* A continuation that enqueues requests is an `enqueue` after the packet that completed its RPC:
  the call of the continuation is the last thing that `process_resp_one_st` does.
* A request in the backlog is never started: the call in `process_resp_one_st` has no header to
  fill, and the step does not return.
-/
import HuiRpc.TxStamps
import HuiRpc.Lib.Queues

namespace HuiRpc

open Runs Queues

/-! ## The model -/

/-- The nodes of the active list: the two sentinels, and slot `i` of session `n`. -/
inductive Node
  | root
  | tail
  | slot (n i : ℕ)
  deriving DecidableEq

/-- The sessions, the stall queue and the links of the active list.  `unanswered` counts the
handler calls of a server slot that have not been answered. -/
structure RpcSys where
  sess : ℕ → Sys
  stallq : List (ℕ × ℕ)
  active : Links Node
  unanswered : ℕ → ℕ → ℕ

inductive RpcAct
  | enqueue (n reqType lkey : ℕ) (msg : TxMsg)
  | answer (n i lkey : ℕ) (msg : TxMsg)
  | recvSrv (n j preReq body : ℕ)
  | recvCli (n j : ℕ) (stale : ℕ → UInt8)
  | stall

/-- Packet `j` of the client's channel comes first. -/
def Sys.upFirst (t : Sys) (j : ℕ) : Sys :=
  { t with cli := { t.cli with tx := t.cli.tx[j]?.toList ++ t.cli.tx.eraseIdx j } }

/-- Packet `j` of the server's channel comes first. -/
def Sys.downFirst (t : Sys) (j : ℕ) : Sys :=
  { t with srv := { t.srv with tx := t.srv.tx[j]?.toList ++ t.srv.tx.eraseIdx j } }

/-- The session with `q` as its stall queue.  The queue of an `Rpc` is not in its sessions. -/
def Sys.restall (t : Sys) (q : List ℕ) : Sys := { t with cli := { t.cli with stallq := q } }

namespace RpcSys

/-- The sentinels are linked to each other, all other links are null. -/
def init : RpcSys where
  sess := fun _ => Sys.init
  stallq := []
  active := {
    next := fun x => if x = .root then some .tail else none
    prev := fun x => if x = .tail then some .root else none }
  unanswered := fun _ _ => 0

def setSess (s : RpcSys) (n : ℕ) (t : Sys) : RpcSys :=
  { s with sess := Function.update s.sess n t }

def setUnanswered (s : RpcSys) (n i k : ℕ) : RpcSys :=
  { s with unanswered := Function.update s.unanswered n (Function.update (s.unanswered n) i k) }

variable (E : ℕ → Env) (s : RpcSys)

/-- `enqueue_request`. -/
def enqueueRequest (n reqType lkey : ℕ) (msg : TxMsg) : Option RpcSys :=
  let t := s.sess n
  match t.cli.freeVec with
  | [] =>
      (t.cli.enqueueRequest (E n).cli reqType lkey msg t.next).map fun c =>
        s.setSess n { t with cli := c }
  | i :: _ =>
      -- `add_to_active_rpc_list`
      (s.active.insertBefore .tail (.slot n i)).bind fun active =>
        (t.step (E n) (.enqueue reqType lkey msg)).map fun t' =>
          { s.setSess n (t'.restall []) with
            stallq := s.stallq ++ t'.cli.stallq.map fun i => (n, i)
            active := active }

/-- A packet at the client. -/
def recvCli (n j : ℕ) (stale : ℕ → UInt8) : Option RpcSys :=
  let t := s.sess n
  t.srv.tx[j]?.bind fun p =>
    ((t.downFirst j).step (E n) (.recvCli stale)).bind fun t' =>
      -- `delete_from_active_rpc_list`
      (if t.cli.conts.length < t'.cli.conts.length then s.active.unlink (.slot n (slotOf p.hdr))
        else some s.active).map fun active => { s.setSess n t' with active := active }

/-- A packet at the server. -/
def recvSrv (n j preReq body : ℕ) : Option RpcSys :=
  let t := s.sess n
  t.cli.tx[j]?.bind fun p =>
    ((t.upFirst j).step (E n) (.recvSrv preReq body)).map fun t' =>
      (s.setSess n t').setUnanswered n (slotOf p.hdr)
        (s.unanswered n (slotOf p.hdr) + (t'.srv.calls.length - t.srv.calls.length))

/-- `enqueue_response` for a handler that was called. -/
def answer (n i lkey : ℕ) (msg : TxMsg) : Option RpcSys :=
  ((s.sess n).step (E n) (.answer i lkey msg)).map fun t' =>
    (s.setSess n t').setUnanswered n i (s.unanswered n i - 1)

/-- The turn of a slot in `process_credit_stall_queue_st`, and whether it stays in the queue. -/
def stallTurn (x : ℕ × ℕ) : Option (RpcSys × Bool) :=
  let t := s.sess x.1
  if 0 < t.cli.credits then
    (Cli.stallKick (E x.1).cli (t.cli.ctx x.2)).map fun y =>
      (s.setSess x.1 (t.sendOn (t.cli.put x.2 y)), false)
  else some (s, true)

/-- `process_credit_stall_queue_st`. -/
def processCreditStallQueue : Option RpcSys :=
  (sweep (stallTurn E) s.stallq.length 0 0 s.stallq s).map fun r =>
    { r.1 with stallq := r.2.1.take r.2.2 }

def step : RpcAct → Option RpcSys
  | .enqueue n reqType lkey msg => s.enqueueRequest E n reqType lkey msg
  | .answer n i lkey msg => s.answer E n i lkey msg
  | .recvSrv n j preReq body => s.recvSrv E n j preReq body
  | .recvCli n j stale => s.recvCli E n j stale
  | .stall => s.processCreditStallQueue E

/-- Any packet that is in flight may arrive, and a handler that was called may answer. -/
def Arrives : RpcAct → Prop
  | .enqueue _ _ _ _ => True
  | .answer n i _ _ => i < kSessionReqWindow ∧ 0 < s.unanswered n i
  | .recvSrv n j _ _ => j < (s.sess n).cli.tx.length
  | .recvCli n j _ => j < (s.sess n).srv.tx.length
  | .stall => True

instance (a : RpcAct) : Decidable (s.Arrives a) :=
  match a with
  | .enqueue _ _ _ _ => isTrue trivial
  | .answer _ _ _ _ => inferInstanceAs (Decidable (_ ∧ _))
  | .recvSrv _ _ _ _ => inferInstanceAs (Decidable (_ < _))
  | .recvCli _ _ _ => inferInstanceAs (Decidable (_ < _))
  | .stall => isTrue trivial

/-- The packet that arrives is the oldest one of its channel. -/
def Oldest : RpcAct → Prop
  | .enqueue _ _ _ _ => True
  | .answer _ _ _ _ => True
  | .recvSrv _ j _ _ => j = 0
  | .recvCli _ j _ => j = 0
  | .stall => True

instance (a : RpcAct) : Decidable (Oldest a) :=
  match a with
  | .enqueue _ _ _ _ => isTrue trivial
  | .answer _ _ _ _ => isTrue trivial
  | .recvSrv _ _ _ _ => inferInstanceAs (Decidable (_ = _))
  | .recvCli _ _ _ => inferInstanceAs (Decidable (_ = _))
  | .stall => isTrue trivial

/-- Packets arrive in order. -/
def InOrder (a : RpcAct) : Prop := s.Arrives a ∧ Oldest a

instance (a : RpcAct) : Decidable (s.InOrder a) := inferInstanceAs (Decidable (_ ∧ _))

end RpcSys

/-! ## A session without its queues -/

/-- The session as `HuiRpc.Session` has it: with its part of the stall queue, and no backlog. -/
def Cli.requeue (c : Cli) (q : List ℕ) : Cli := { c with stallq := q, backlog := [] }

def Sys.requeue (t : Sys) (q : List ℕ) : Sys := { t with cli := t.cli.requeue q }

section Requeue

variable {E : Env} {t t' : Sys} {q : List ℕ}

theorem Sys.upFirst_zero (t : Sys) : t.upFirst 0 = t := by
  unfold Sys.upFirst
  have htx : t.cli.tx[0]?.toList ++ t.cli.tx.eraseIdx 0 = t.cli.tx := by
    cases t.cli.tx <;> rfl
  rw [htx]

theorem Sys.downFirst_zero (t : Sys) : t.downFirst 0 = t := by
  unfold Sys.downFirst
  have htx : t.srv.tx[0]?.toList ++ t.srv.tx.eraseIdx 0 = t.srv.tx := by
    cases t.srv.tx <;> rfl
  rw [htx]

theorem Sys.recvSrv_requeue {preReq body : ℕ} (hs : t.step E (.recvSrv preReq body) = some t') :
    (t.requeue q).step E (.recvSrv preReq body) = some (t'.requeue q) := by
  cases htx : t.cli.tx with
  | nil => simp only [Sys.step, htx, reduceCtorEq] at hs
  | cons p rest =>
    have htx' : (t.requeue q).cli.tx = p :: rest := htx
    simp only [Sys.step, htx] at hs
    obtain ⟨v, hv, rfl⟩ := Option.map_eq_some_iff.mp hs
    have hv' : (t.requeue q).srv.recv E.srv E.fn preReq body p = some v := hv
    simp only [Sys.step, htx', hv']
    rfl

theorem Sys.answer_requeue {i lkey : ℕ} {msg : TxMsg}
    (hs : t.step E (.answer i lkey msg) = some t') :
    (t.requeue q).step E (.answer i lkey msg) = some (t'.requeue q) := by
  obtain rfl := Option.some.inj hs
  rfl

/-- A packet at the client does not look at the queues, unless it completes an RPC while there is
a backlog. -/
theorem Cli.recv_requeue {e : Endpoint} {c c' : Cli} {stale : ℕ → UInt8} {p : WirePkt}
    (h : c.recv e stale p = some c') :
    (c.requeue q).recv e stale p = some (c'.requeue q) ∧ c'.stallq = c.stallq ∧
      c'.backlog = c.backlog ∧ (c'.freeVec = c.freeVec ∨ c'.backlog = []) := by
  unfold Cli.recv at h ⊢
  dsimp only at h ⊢
  split at h
  · obtain ⟨⟨x, r⟩, hx, hret⟩ := Option.bind_eq_some_iff.mp h
    have hx' : processRespOne e p.hdr (readBody stale p.payload p.hdr.thisMsgSize)
        ((c.requeue q).ctx (p.hdr.reqNum % kSessionReqWindow)) = some (x, r) := hx
    unfold Cli.recvResp
    rw [hx']
    cases r with
    | none =>
      obtain rfl := Option.some.inj hret
      exact ⟨rfl, rfl, rfl, Or.inl rfl⟩
    | some buf =>
      -- the slot is given up, so the backlog was empty
      unfold Cli.finish at hret ⊢
      dsimp only at hret ⊢
      split_ifs at hret with hback
      obtain rfl := Option.some.inj hret
      have hnil : (c.put (p.hdr.reqNum % kSessionReqWindow) x).backlog = [] := not_not.mp hback
      refine ⟨?_, rfl, rfl, Or.inr hnil⟩
      rfl
  · obtain ⟨x, hx, rfl⟩ := Option.map_eq_some_iff.mp h
    have hx' : processExplCr ((c.requeue q).ctx (p.hdr.reqNum % kSessionReqWindow)) = some x := hx
    rw [hx']
    exact ⟨rfl, rfl, rfl, Or.inl rfl⟩
  · cases h
  · cases h

theorem Sys.recvCli_requeue {stale : ℕ → UInt8} (hs : t.step E (.recvCli stale) = some t') :
    (t.requeue q).step E (.recvCli stale) = some (t'.requeue q) ∧
      t'.cli.stallq = t.cli.stallq ∧
      t'.cli.backlog = t.cli.backlog ∧ (t'.cli.freeVec = t.cli.freeVec ∨ t'.cli.backlog = []) := by
  cases htx : t.srv.tx with
  | nil => simp only [Sys.step, htx, reduceCtorEq] at hs
  | cons p rest =>
    have htx' : (t.requeue q).srv.tx = p :: rest := htx
    simp only [Sys.step, htx] at hs
    obtain ⟨c, hc, rfl⟩ := Option.map_eq_some_iff.mp hs
    obtain ⟨hc', hrest⟩ := Cli.recv_requeue (q := q) hc
    have hc'' : (t.requeue q).cli.recv E.cli stale p = some (c.requeue q) := hc'
    refine ⟨?_, hrest⟩
    simp only [Sys.step, htx', hc'']
    rfl

/-- A new request only appends to the stall queue. -/
theorem Sys.enqueue_requeue {reqType lkey : ℕ} {msg : TxMsg} (hfree : t.cli.freeVec ≠ [])
    (hnil : t.cli.stallq = []) (hs : t.step E (.enqueue reqType lkey msg) = some t') :
    (t.requeue q).step E (.enqueue reqType lkey msg) = some (t'.requeue (q ++ t'.cli.stallq)) ∧
      t'.cli.backlog = t.cli.backlog := by
  obtain ⟨i, rest, hi⟩ := List.exists_cons_of_ne_nil hfree
  have hi' : (t.requeue q).cli.freeVec = i :: rest := hi
  obtain ⟨c, hc, rfl⟩ := Option.map_eq_some_iff.mp hs
  have hc' : (t.requeue q).cli.enqueueRequest E.cli reqType lkey msg (t.requeue q).next
      = some (c.requeue (q ++ c.stallq)) ∧ c.backlog = t.cli.backlog := by
    unfold Cli.enqueueRequest at hc ⊢
    rw [hi] at hc
    rw [hi']
    dsimp only at hc ⊢
    by_cases hpos : 0 < t.cli.credits
    · rw [if_pos hpos] at hc
      rw [if_pos (show 0 < (t.requeue q).cli.credits from hpos)]
      obtain ⟨x, hx, rfl⟩ := Option.map_eq_some_iff.mp hc
      refine ⟨?_, rfl⟩
      refine Option.map_eq_some_iff.mpr ⟨x, hx, ?_⟩
      unfold Cli.put Cli.requeue
      rw [hnil, List.append_nil]
      rfl
    · rw [if_neg hpos] at hc
      rw [if_neg (show ¬ 0 < (t.requeue q).cli.credits from hpos)]
      obtain rfl := Option.some.inj hc
      refine ⟨?_, rfl⟩
      rw [hnil]
      rfl
  refine ⟨?_, hc'.2⟩
  refine Option.map_eq_some_iff.mpr ⟨_, hc'.1, ?_⟩
  rfl

end Requeue

/-! ## Handler calls that wait for their answer -/

/-- Calls of the handler for the request of slot `i` that have not been answered. -/
def Sys.waitingCalls (t : Sys) (i : ℕ) : ℕ :=
  if (t.trace i).resp.isSome then 0 else (t.trace i).called

section Calls

variable {E : Env} {t t' : Sys} {i j : ℕ}

theorem Sys.waitingCalls_congr (hresp : (t'.trace i).resp = (t.trace i).resp)
    (hcalled : (t'.trace i).called = (t.trace i).called) : t'.waitingCalls i = t.waitingCalls i := by
  unfold Sys.waitingCalls
  rw [hresp, hcalled]

/-- A slot without a request waits for no answer. -/
theorem Inv.waitingCalls_idle (h : Inv E t) (hi : i < kSessionReqWindow) (ha : ¬ t.Active i) :
    t.waitingCalls i = 0 := by
  unfold Sys.waitingCalls
  rcases (h.base.slot i hi).state with hidle | ⟨a, q, b, hcore, -⟩
  · rcases hidle.settled with hzero | hsome
    · rw [show (t.trace i).called = 0 from hzero, ite_self]
    · exact if_pos hsome
  · exact absurd (Sys.active_of_core hcore) ha

/-- The handler of a request is called once at most, and just once before its answer. -/
theorem Inv.called_le (h : Inv E t) (hi : i < kSessionReqWindow) (ha : t.Active i) :
    (t.trace i).called ≤ 1 ∧ ((t.trace i).resp.isSome → (t.trace i).called = 1) := by
  obtain ⟨a, q, b, hcore, -⟩ := h.running hi ha
  have hcalled : (t.trace i).called = _ := hcore.called
  rw [hcalled]
  constructor
  · split_ifs
    · exact le_refl 1
    · exact Nat.zero_le 1
  · intro hr
    exact if_pos ⟨hcore.whole hr, hcore.foreground hr⟩

/-- What a packet at the server does to the calls. -/
theorem Sys.recvSrv_calls {preReq body : ℕ} {p : WirePkt} {rest : List WirePkt}
    (htx : t.cli.tx = p :: rest) (hs : t.step E (.recvSrv preReq body) = some t') :
    t'.cli = { t.cli with tx := rest } ∧ ∀ j, (t'.trace j).resp = (t.trace j).resp ∧
      (t'.trace j).called = (t.trace j).called +
        if j = slotOf p.hdr then t'.srv.calls.length - t.srv.calls.length else 0 := by
  simp only [Sys.step, htx] at hs
  obtain ⟨v, -, rfl⟩ := Option.map_eq_some_iff.mp hs
  refine ⟨rfl, fun j => ?_⟩
  dsimp only
  by_cases hj : j = slotOf p.hdr
  · subst hj
    rw [Function.update_self, if_pos rfl]
    exact ⟨rfl, rfl⟩
  · rw [Function.update_of_ne hj, if_neg hj]
    exact ⟨rfl, rfl⟩

/-- **A packet at the server** adds the handler calls that it makes. -/
theorem Inv.recvSrv_waiting {preReq body : ℕ} {p : WirePkt} {rest : List WirePkt} (h : Inv E t)
    (h' : Inv E t') (htx : t.cli.tx = p :: rest)
    (hs : t.step E (.recvSrv preReq body) = some t') (hj : j < kSessionReqWindow) :
    t'.waitingCalls j = t.waitingCalls j +
      if j = slotOf p.hdr then t'.srv.calls.length - t.srv.calls.length else 0 := by
  obtain ⟨hcli, hcalls⟩ := Sys.recvSrv_calls htx hs
  obtain ⟨hresp, hcalled⟩ := hcalls j
  by_cases hr : (t.trace j).resp.isSome
  · -- an answered request is not handed to its handler again
    have hr' : (t'.trace j).resp.isSome := hresp ▸ hr
    have hnone : (if j = slotOf p.hdr then t'.srv.calls.length - t.srv.calls.length else 0) = 0 := by
      by_cases hjp : j = slotOf p.hdr
      · have hup : (t.view j).up ≠ [] := by
          show ofSlot j t.cli.tx ≠ []
          rw [htx, hjp, ofSlot_cons_self rfl]
          exact List.cons_ne_nil _ _
        obtain ⟨a, q, b, hcore, -⟩ := (h.base.slot j hj).running_of_up hup
        have hact : t.Active j := Sys.active_of_core hcore
        have hact' : t'.Active j := by
          unfold Sys.Active
          rw [hcli]
          exact hact
        have h1 := (h.called_le hj hact).2 hr
        have h2 := (h'.called_le hj hact').2 hr'
        omega
      · exact if_neg hjp
    unfold Sys.waitingCalls
    rw [if_pos hr, if_pos hr', hnone]
  · have hr' : ¬ (t'.trace j).resp.isSome := hresp ▸ hr
    unfold Sys.waitingCalls
    rw [if_neg hr, if_neg hr', hcalled]

/-- **An answer** is the only one that its slot waits for. -/
theorem Inv.answer_waiting {lkey : ℕ} {msg : TxMsg} (h : Inv E t) (hi : i < kSessionReqWindow)
    (hpos : 0 < t.waitingCalls i) (hs : t.step E (.answer i lkey msg) = some t') :
    t.Enabled (.answer i lkey msg) ∧ t'.waitingCalls i = t.waitingCalls i - 1 ∧
      ∀ j, j ≠ i → t'.waitingCalls j = t.waitingCalls j := by
  have hact : t.Active i := by
    by_contra hno
    rw [h.waitingCalls_idle hi hno] at hpos
    exact absurd hpos (Nat.lt_irrefl 0)
  have hle := (h.called_le hi hact).1
  have hnone : ¬ (t.trace i).resp.isSome := by
    intro hr
    unfold Sys.waitingCalls at hpos
    rw [if_pos hr] at hpos
    exact absurd hpos (Nat.lt_irrefl 0)
  have hw : t.waitingCalls i = (t.trace i).called := if_neg hnone
  obtain rfl := Option.some.inj hs
  refine ⟨⟨hi, by omega, Option.not_isSome_iff_eq_none.mp hnone⟩, ?_, ?_⟩
  · rw [hw, show (t.trace i).called - 1 = 0 by omega]
    apply if_pos
    dsimp only
    rw [Function.update_self]
    rfl
  · intro j hj
    apply Sys.waitingCalls_congr <;> dsimp only <;> rw [Function.update_of_ne hj] <;> rfl

theorem Sys.recvCli_waiting {stale : ℕ → UInt8} (hs : t.step E (.recvCli stale) = some t') (j : ℕ) :
    t'.waitingCalls j = t.waitingCalls j := by
  cases htx : t.srv.tx with
  | nil => simp only [Sys.step, htx, reduceCtorEq] at hs
  | cons p rest =>
    simp only [Sys.step, htx] at hs
    obtain ⟨c, -, rfl⟩ := Option.map_eq_some_iff.mp hs
    by_cases hj : j = slotOf p.hdr
    · apply Sys.waitingCalls_congr <;> dsimp only <;> rw [hj, Function.update_self] <;> rfl
    · apply Sys.waitingCalls_congr <;> dsimp only <;> rw [Function.update_of_ne hj] <;> rfl

/-- A new request waits for no answer. -/
theorem Sys.enqueue_waiting {reqType lkey : ℕ} {msg : TxMsg} {rest : List ℕ}
    (hfree : t.cli.freeVec = i :: rest) (hs : t.step E (.enqueue reqType lkey msg) = some t') :
    t'.waitingCalls i = 0 ∧ ∀ j, j ≠ i → t'.waitingCalls j = t.waitingCalls j := by
  obtain ⟨c, -, rfl⟩ := Option.map_eq_some_iff.mp hs
  have hhead : t.cli.freeVec.headD 0 = i := by rw [hfree]; rfl
  constructor
  · have hcalled : ∀ f : Trace → ℕ, f (Function.update t.trace (t.cli.freeVec.headD 0)
        (Trace.start msg ⟨reqType, E.cli.remoteSessionNum,
          (c.slots (t.cli.freeVec.headD 0)).curReqNum, lkey⟩) i)
        = f (Trace.start msg ⟨reqType, E.cli.remoteSessionNum, (c.slots i).curReqNum, lkey⟩) := by
      intro f
      rw [hhead, Function.update_self]
    exact hcalled fun x => if x.resp.isSome then 0 else x.called
  · intro j hj
    apply Sys.waitingCalls_congr <;> unfold Sys.log <;> dsimp only <;>
      rw [hhead, Function.update_of_ne hj]

end Calls

/-! ## The invariant -/

/-- The slots of session `n` in the stall queue. -/
def stalledOf (q : List (ℕ × ℕ)) (n : ℕ) : List ℕ := (q.filter fun x => x.1 = n).map Prod.snd

theorem stalledOf_append (q q' : List (ℕ × ℕ)) (n : ℕ) :
    stalledOf (q ++ q') n = stalledOf q n ++ stalledOf q' n := by
  unfold stalledOf
  rw [List.filter_append, List.map_append]

theorem stalledOf_self (l : List ℕ) (n : ℕ) : stalledOf (l.map fun i => (n, i)) n = l := by
  unfold stalledOf
  rw [List.filter_eq_self.mpr, List.map_map]
  · exact List.map_id l
  · intro x hx
    obtain ⟨i, -, rfl⟩ := List.mem_map.mp hx
    exact decide_eq_true rfl

theorem stalledOf_other (l : List ℕ) {m n : ℕ} (h : m ≠ n) :
    stalledOf (l.map fun i => (n, i)) m = [] := by
  unfold stalledOf
  rw [List.filter_eq_nil_iff.mpr]
  · rfl
  · intro x hx hm
    obtain ⟨i, -, rfl⟩ := List.mem_map.mp hx
    rw [decide_eq_true_eq] at hm
    exact h hm.symm

theorem stalledOf_cons_self (n i : ℕ) (q : List (ℕ × ℕ)) :
    stalledOf ((n, i) :: q) n = i :: stalledOf q n := by
  simp [stalledOf]

theorem stalledOf_cons_other {m n : ℕ} (i : ℕ) (q : List (ℕ × ℕ)) (h : m ≠ n) :
    stalledOf ((n, i) :: q) m = stalledOf q m := by
  simp [stalledOf, Ne.symm h]

theorem mem_stalledOf {q : List (ℕ × ℕ)} {n i : ℕ} : i ∈ stalledOf q n ↔ (n, i) ∈ q := by
  unfold stalledOf
  rw [List.mem_map]
  constructor
  · rintro ⟨⟨m, j⟩, hmem, rfl⟩
    obtain ⟨hq, hm⟩ := List.mem_filter.mp hmem
    rw [decide_eq_true_eq] at hm
    rw [← hm]
    exact hq
  · intro hmem
    exact ⟨(n, i), List.mem_filter.mpr ⟨hmem, decide_eq_true rfl⟩, rfl⟩

/-- The links of the active list lead through the slots that have a request. -/
def RpcSys.ListsActive (s : RpcSys) : Prop :=
  ∃ xs, IsList s.active .root .tail xs ∧
    ∀ n i, Node.slot n i ∈ xs ↔ i < kSessionReqWindow ∧ (s.sess n).Active i

/-- **The invariant of an Rpc** while packets arrive in order. -/
structure RpcInv (E : ℕ → Env) (s : RpcSys) : Prop where
  sess : ∀ n, Inv (E n) ((s.sess n).requeue (stalledOf s.stallq n))
  noQueue : ∀ n, (s.sess n).cli.stallq = []
  backlog : ∀ n, (s.sess n).cli.backlog ≠ [] → (s.sess n).cli.freeVec = []
  waiting : ∀ n i, i < kSessionReqWindow → s.unanswered n i = (s.sess n).waitingCalls i
  active : s.ListsActive

theorem RpcInv.init (E : ℕ → Env) : RpcInv E RpcSys.init where
  sess := fun n => Inv.init (E n)
  noQueue := fun _ => rfl
  backlog := fun _ h => absurd rfl h
  waiting := fun _ _ _ => rfl
  active := by
    refine ⟨[], ⟨by decide, rfl, rfl, trivial⟩, fun n i => ?_⟩
    exact iff_of_false List.not_mem_nil fun h => Sys.not_active_init i h.2

section Steps

variable {E : ℕ → Env} {s s' : RpcSys} {n : ℕ} {t' : Sys}

/-- A step that moves session `n` only. -/
theorem RpcInv.moved {q : List (ℕ × ℕ)} {links : Links Node} {u : ℕ → ℕ → ℕ} (h : RpcInv E s)
    (hq : ∀ m, m ≠ n → stalledOf q m = stalledOf s.stallq m)
    (hinv : Inv (E n) (t'.requeue (stalledOf q n))) (hnil : t'.cli.stallq = [])
    (hback : t'.cli.backlog ≠ [] → t'.cli.freeVec = [])
    (hun : ∀ i, i < kSessionReqWindow → u n i = t'.waitingCalls i)
    (hun' : ∀ m, m ≠ n → u m = s.unanswered m)
    (hlist : RpcSys.ListsActive ⟨Function.update s.sess n t', q, links, u⟩) :
    RpcInv E ⟨Function.update s.sess n t', q, links, u⟩ := by
  refine ⟨fun m => ?_, fun m => ?_, fun m => ?_, fun m i hi => ?_, hlist⟩ <;> dsimp only <;>
    by_cases hm : m = n
  · subst hm
    rw [Function.update_self]
    exact hinv
  · rw [Function.update_of_ne hm, hq m hm]
    exact h.sess m
  · subst hm
    rw [Function.update_self]
    exact hnil
  · rw [Function.update_of_ne hm]
    exact h.noQueue m
  · subst hm
    rw [Function.update_self]
    exact hback
  · rw [Function.update_of_ne hm]
    exact h.backlog m
  · subst hm
    rw [Function.update_self]
    exact hun i hi
  · rw [Function.update_of_ne hm, hun' m hm]
    exact h.waiting m i hi

/-- The active list when no slot starts or ends. -/
theorem RpcSys.ListsActive.same {q : List (ℕ × ℕ)} {u : ℕ → ℕ → ℕ} (h : s.ListsActive)
    (hact : ∀ i, t'.Active i ↔ (s.sess n).Active i) :
    RpcSys.ListsActive ⟨Function.update s.sess n t', q, s.active, u⟩ := by
  obtain ⟨xs, hlist, hmem⟩ := h
  refine ⟨xs, hlist, fun m i => ?_⟩
  rw [hmem]
  dsimp only
  by_cases hm : m = n
  · subst hm
    rw [Function.update_self, hact]
  · rw [Function.update_of_ne hm]

/-- The active list when slot `i` starts. -/
theorem RpcSys.ListsActive.start {q : List (ℕ × ℕ)} {u : ℕ → ℕ → ℕ} {i : ℕ} (h : s.ListsActive)
    (hi : i < kSessionReqWindow) (hidle : ¬ (s.sess n).Active i) (hnew : t'.Active i)
    (hothers : ∀ j, j ≠ i → (t'.Active j ↔ (s.sess n).Active j)) :
    ∃ links, s.active.insertBefore .tail (.slot n i) = some links ∧
      RpcSys.ListsActive ⟨Function.update s.sess n t', q, links, u⟩ := by
  obtain ⟨xs, hlist, hmem⟩ := h
  have hnotin : Node.slot n i ∉ Node.root :: xs ++ [Node.tail] := by
    simp only [List.cons_append, List.mem_cons, reduceCtorEq, List.mem_append, List.not_mem_nil,
      or_false, false_or]
    exact fun hx => hidle ((hmem n i).mp hx).2
  obtain ⟨links, hins, hlist'⟩ := hlist.insertBefore hnotin
  refine ⟨links, hins, xs ++ [.slot n i], hlist', fun m j => ?_⟩
  rw [List.mem_append, List.mem_singleton, hmem]
  dsimp only
  by_cases hm : m = n
  · subst hm
    rw [Function.update_self]
    by_cases hj : j = i
    · subst hj
      exact iff_of_true (Or.inr rfl) ⟨hi, hnew⟩
    · rw [hothers j hj]
      exact or_iff_left fun he => hj (Node.slot.inj he).2
  · rw [Function.update_of_ne hm]
    exact or_iff_left fun he => hm (Node.slot.inj he).1

/-- The active list when slot `i` ends. -/
theorem RpcSys.ListsActive.finish {q : List (ℕ × ℕ)} {u : ℕ → ℕ → ℕ} {i : ℕ} (h : s.ListsActive)
    (hi : i < kSessionReqWindow) (hact : (s.sess n).Active i) (hidle : ¬ t'.Active i)
    (hothers : ∀ j, j ≠ i → (t'.Active j ↔ (s.sess n).Active j)) :
    ∃ links, s.active.unlink (.slot n i) = some links ∧
      RpcSys.ListsActive ⟨Function.update s.sess n t', q, links, u⟩ := by
  obtain ⟨xs, hlist, hmem⟩ := h
  obtain ⟨links, hun, hlist'⟩ := hlist.unlink ((hmem n i).mpr ⟨hi, hact⟩)
  refine ⟨links, hun, xs.erase (.slot n i), hlist', fun m j => ?_⟩
  rw [hlist.nodup_mid.mem_erase_iff, hmem]
  dsimp only
  by_cases hm : m = n
  · subst hm
    rw [Function.update_self]
    by_cases hj : j = i
    · subst hj
      exact iff_of_false (fun hx => hx.1 rfl) fun hx => hidle hx.2
    · rw [hothers j hj]
      exact and_iff_right fun he => hj (Node.slot.inj he).2
  · rw [Function.update_of_ne hm]
    exact and_iff_right fun he => hm (Node.slot.inj he).1

end Steps

/-! ## The active list on its own -/

/-- `add_to_active_rpc_list`. -/
def addToActiveRpcList (h : Links Node) (x : ℕ × ℕ) : Option (Links Node) :=
  h.insertBefore .tail (.slot x.1 x.2)

/-- `delete_from_active_rpc_list`. -/
def deleteFromActiveRpcList (h : Links Node) (x : ℕ × ℕ) : Option (Links Node) :=
  h.unlink (.slot x.1 x.2)

inductive ListCall
  | add (x : ℕ × ℕ)
  | delete (x : ℕ × ℕ)

namespace ListCall

def call (h : Links Node) : ListCall → Option (Links Node)
  | .add x => addToActiveRpcList h x
  | .delete x => deleteFromActiveRpcList h x

/-- The slots that are present after a call, in the order of addition. -/
def present (l : List (ℕ × ℕ)) : ListCall → List (ℕ × ℕ)
  | .add x => l ++ [x]
  | .delete x => l.erase x

/-- A slot is added only when it is absent, and deleted only when it is present. -/
def Allowed : List (ℕ × ℕ) → List ListCall → Prop
  | _, [] => True
  | l, .add x :: calls => x ∉ l ∧ Allowed (l ++ [x]) calls
  | l, .delete x :: calls => x ∈ l ∧ Allowed (l.erase x) calls

end ListCall

/-- The nodes of the slots `l`. -/
def slotNodes (l : List (ℕ × ℕ)) : List Node := l.map fun x => .slot x.1 x.2

theorem slotNode_injective : Function.Injective fun x : ℕ × ℕ => Node.slot x.1 x.2 :=
  fun _ _ h => Prod.ext (Node.slot.inj h).1 (Node.slot.inj h).2

theorem mem_slotNodes {l : List (ℕ × ℕ)} {x : ℕ × ℕ} : Node.slot x.1 x.2 ∈ slotNodes l ↔ x ∈ l :=
  List.mem_map_of_injective slotNode_injective

/-- The calls keep a list. -/
theorem isList_calls {calls : List ListCall} {h : Links Node} {l : List (ℕ × ℕ)}
    (hl : IsList h .root .tail (slotNodes l)) (ha : ListCall.Allowed l calls) :
    ∃ h', calls.foldlM ListCall.call h = some h' ∧
      IsList h' .root .tail (slotNodes (calls.foldl ListCall.present l)) := by
  induction calls generalizing h l with
  | nil => exact ⟨h, rfl, hl⟩
  | cons a calls ih =>
    -- one call
    obtain ⟨h₁, hcall, hl₁, ha₁⟩ : ∃ h₁, a.call h = some h₁ ∧
        IsList h₁ .root .tail (slotNodes (a.present l)) ∧ ListCall.Allowed (a.present l) calls := by
      cases a with
      | add x =>
        have hnew : Node.slot x.1 x.2 ∉ Node.root :: slotNodes l ++ [.tail] := by
          simpa [mem_slotNodes] using ha.1
        obtain ⟨h₁, hins, hl₁⟩ := hl.insertBefore hnew
        refine ⟨h₁, hins, ?_, ha.2⟩
        rwa [ListCall.present, slotNodes, List.map_append]
      | delete x =>
        obtain ⟨h₁, hun, hl₁⟩ := hl.unlink (mem_slotNodes.mpr ha.1)
        refine ⟨h₁, hun, ?_, ha.2⟩
        rwa [ListCall.present, slotNodes, List.map_erase slotNode_injective]
    obtain ⟨h', hrun, hl'⟩ := ih hl₁ ha₁
    refine ⟨h', ?_, hl'⟩
    rw [List.foldlM_cons, hcall]
    exact hrun

/-- **The active list** holds the slots that are present, in the order of addition. -/
theorem active_list_lists_present (calls : List ListCall) (ha : ListCall.Allowed [] calls) :
    ∃ h, calls.foldlM ListCall.call RpcSys.init.active = some h ∧
      let xs := slotNodes (calls.foldl ListCall.present [])
      walk h.next .tail (xs.length + 1) .root = some xs ∧
      walk h.prev .root (xs.length + 1) .tail = some xs.reverse ∧
      (∀ x ∈ Node.root :: xs, (h.next x).bind h.prev = some x) ∧
      ∀ x ∈ Node.tail :: xs, (h.prev x).bind h.next = some x := by
  have hstart : IsList RpcSys.init.active .root .tail (slotNodes []) :=
    ⟨by decide, rfl, rfl, trivial⟩
  obtain ⟨h, hrun, hl⟩ := isList_calls hstart ha
  refine ⟨h, hrun, ?_⟩
  intro xs
  have hback := hl.seg.reverse
  refine ⟨hl.seg.walk hl.tail_notMem (Nat.lt_succ_self _), ?_, hl.seg.bind_prev, ?_⟩
  · refine hback.walk (fun hm => hl.root_notMem (List.mem_reverse.mp hm)) ?_
    rw [List.length_reverse]
    exact Nat.lt_succ_self _
  · intro x hx
    refine hback.bind_prev x ?_
    rwa [List.mem_cons, List.mem_reverse, ← List.mem_cons]

/-- The calls of `rpc_list_test`, up to its first check. -/
def listTest : List ListCall :=
  [.add (0, 0), .add (0, 1), .add (0, 2), .add (0, 3), .delete (0, 3), .delete (0, 1)]

theorem active_list_lists_present_test :
    ∃ h, listTest.foldlM ListCall.call RpcSys.init.active = some h ∧
      walk h.next .tail 3 .root = some [.slot 0 0, .slot 0 2] := by
  have hallowed : ListCall.Allowed [] listTest := by
    simp [listTest, ListCall.Allowed]
  obtain ⟨h, hrun, hnext, -⟩ := active_list_lists_present listTest hallowed
  exact ⟨h, hrun, hnext⟩

end HuiRpc
