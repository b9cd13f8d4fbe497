/-
# Signaled sends of the transport

`IBTransport::tx_burst` asks for a completion for one send in `kUnsigBatch`, and polls one
completion before it asks for the next.  `get_signaled_flag` decides both while the batch is still
being built, so a poll comes before the sends of its own batch are posted.  `tx_flush` polls the
completion that is left, posts one more signaled send and polls that too.

* `posted` lists the sends since the queue pair was made, by whether they are signaled.  Sends
  complete in order, so a polled completion tells that all sends up to its own are done.
* `poll_cq_one_helper` waits for the oldest signaled send that was not polled.  It is `none` when
  there is none, which in the code is a loop that does not end.
* `nb_tx` has 64 bits and does not reach its end.

`sends_bounded` says that no poll hangs and that the queue never overflows.
-/
import HuiRpc.TxBurst

namespace HuiRpc

/-- Send queue depth. -/
def kSQDepth : ℕ := 128

/-- One send in so many is signaled. -/
def kUnsigBatch : ℕ := 64

/-! ## The queue -/

/-- The send side of `IBTransport`.  `peak` is the largest number of sends so far that were posted
and not known to be complete. -/
structure SendQueue where
  nbTx : ℕ
  posted : List Bool
  polled : ℕ
  peak : ℕ
  deriving DecidableEq

/-- The sends behind the `n`-th signaled one. -/
def sendsBehind : ℕ → List Bool → ℕ
  | 0, l => l.length
  | _ + 1, [] => 0
  | n + 1, true :: l => sendsBehind n l
  | n + 1, false :: l => sendsBehind (n + 1) l

namespace SendQueue

def init : SendQueue := ⟨0, [], 0, 0⟩

/-- Sends that are posted and not known to be complete. -/
def outstanding (q : SendQueue) : ℕ := sendsBehind q.polled q.posted

/-- Signaled sends that are posted and not polled. -/
def unpolled (q : SendQueue) : ℕ := q.posted.count true - q.polled

/-- `poll_cq_one_helper(send_cq)`. -/
def poll (q : SendQueue) : Option SendQueue :=
  if q.polled < q.posted.count true then some { q with polled := q.polled + 1 } else none

/-- `ibv_post_send`. -/
def post (flags : List Bool) (q : SendQueue) : SendQueue :=
  { q with
    posted := q.posted ++ flags
    peak := max q.peak (sendsBehind q.polled (q.posted ++ flags)) }

/-- `get_signaled_flag`. -/
def getSignaledFlag (q : SendQueue) : Option (SendQueue × Bool) :=
  if q.nbTx % kUnsigBatch = 0 then
    (if q.nbTx ≠ 0 then q.poll else some q).map fun q => ({ q with nbTx := q.nbTx + 1 }, true)
  else some ({ q with nbTx := q.nbTx + 1 }, false)

/-- The loop of `tx_burst` that builds the work requests, with their flags so far. -/
def buildBatch : ℕ → SendQueue → List Bool → Option (SendQueue × List Bool)
  | 0, q, flags => some (q, flags)
  | n + 1, q, flags =>
      q.getSignaledFlag.bind fun r => buildBatch n r.1 (flags ++ [r.2])

/-- `tx_burst` of `n` packets. -/
def txBurst (n : ℕ) (q : SendQueue) : Option SendQueue :=
  (buildBatch n q []).map fun r => r.1.post r.2

/-- `tx_flush`. -/
def txFlush (q : SendQueue) : Option SendQueue :=
  if q.nbTx = 0 then some q
  else q.poll.bind fun q => (q.post [true]).poll.map fun q => { q with nbTx := 0 }

end SendQueue

/-- The calls of the transport. -/
inductive SendCall
  | txBurst (numPkts : ℕ)
  | txFlush

/-- A burst has at least one packet and at most a postlist. -/
def SendCall.Valid : SendCall → Prop
  | .txBurst n => 1 ≤ n ∧ n ≤ kPostlist
  | .txFlush => True

namespace SendQueue

def step (q : SendQueue) : SendCall → Option SendQueue
  | .txBurst n => q.txBurst n
  | .txFlush => q.txFlush

/-- A sequence of calls. -/
def calls : SendQueue → List SendCall → Option SendQueue
  | q, [] => some q
  | q, a :: as => (q.step a).bind fun q => q.calls as

end SendQueue

/-! ## Sends behind a polled one -/

/-- The sends up to a signaled one, with `n` signaled ones among them. -/
structure UpToSignaled (n : ℕ) (pre : List Bool) : Prop where
  count : pre.count true = n
  last : pre = [] ∨ ∃ l, pre = l ++ [true]

theorem UpToSignaled.nil : UpToSignaled 0 [] := ⟨rfl, Or.inl rfl⟩

/-- One more signaled send, with unsignaled ones before it. -/
theorem UpToSignaled.snoc {n : ℕ} {pre : List Bool} (h : UpToSignaled n pre) (gap : ℕ) :
    UpToSignaled (n + 1) (pre ++ List.replicate gap false ++ [true]) := by
  refine ⟨?_, Or.inr ⟨_, rfl⟩⟩
  simp [h.count, List.count_replicate]

theorem UpToSignaled.sendsBehind {n : ℕ} {pre : List Bool} (h : UpToSignaled n pre)
    (rest : List Bool) : sendsBehind n (pre ++ rest) = rest.length := by
  induction pre generalizing n with
  | nil =>
    obtain rfl : n = 0 := h.count.symm
    rw [List.nil_append, HuiRpc.sendsBehind]
  | cons b pre ih =>
    obtain ⟨l, hl⟩ : ∃ l, b :: pre = l ++ [true] := h.last.resolve_left (List.cons_ne_nil _ _)
    have hlast : pre = [] ∨ ∃ l, pre = l ++ [true] := by
      cases l with
      | nil => exact Or.inl (List.cons.inj hl).2
      | cons c l => exact Or.inr ⟨l, (List.cons.inj hl).2⟩
    have hcount := h.count
    cases b with
    | true =>
      rw [List.count_cons_self] at hcount
      subst hcount
      exact ih ⟨rfl, hlast⟩
    | false =>
      rw [List.count_cons_of_ne (by decide)] at hcount
      -- an unsignaled send is not the last one, so there is a signaled one behind it
      have hpos : 0 < n := by
        have hmem : true ∈ pre := by
          have : true ∈ false :: pre := by
            rw [hl]
            simp
          simpa using this
        rw [← hcount]
        exact List.count_pos_iff.mpr hmem
      obtain ⟨n, rfl⟩ : ∃ k, n = k + 1 := ⟨n - 1, by omega⟩
      exact ih ⟨hcount, hlast⟩

/-! ## The shape of the queue -/

/-- The sends that are not known to be complete when `nb_tx` is `n`: none, or at most one period
of unsignaled ones, the signaled one, and the unsignaled ones since. -/
def Pending (n : ℕ) (rest : List Bool) : Prop :=
  (n = 0 ∧ rest = []) ∨
  (0 < n ∧ ∃ gap, gap < kUnsigBatch ∧
    rest = List.replicate gap false ++ true :: List.replicate ((n - 1) % kUnsigBatch) false)

/-- The sends posted, followed by those of the batch being built. -/
def Shape (q : SendQueue) (flags : List Bool) : Prop :=
  ∃ pre rest, q.posted ++ flags = pre ++ rest ∧ UpToSignaled q.polled pre ∧ Pending q.nbTx rest

theorem Pending.length_lt {n : ℕ} {rest : List Bool} (h : Pending n rest) :
    rest.length < kSQDepth := by
  rcases h with ⟨-, rfl⟩ | ⟨-, gap, hgap, rfl⟩
  · decide
  · have hmod := Nat.mod_lt (n - 1) (show 0 < kUnsigBatch by decide)
    simp only [List.length_append, List.length_replicate, List.length_cons]
    unfold kUnsigBatch at hgap hmod
    unfold kSQDepth kUnsigBatch
    omega

theorem Pending.count {n : ℕ} {rest : List Bool} (h : Pending n rest) :
    rest.count true = if n = 0 then 0 else 1 := by
  rcases h with ⟨rfl, rfl⟩ | ⟨hn, gap, -, rfl⟩
  · rfl
  · rw [if_neg (by omega)]
    simp [List.count_replicate]

/-- Polling the one signaled send leaves the unsignaled ones behind it. -/
theorem Shape.polled {q : SendQueue} {flags : List Bool} (h : Shape q flags) (hn : 0 < q.nbTx) :
    ∃ pre, q.posted ++ flags = pre ++ List.replicate ((q.nbTx - 1) % kUnsigBatch) false ∧
      UpToSignaled (q.polled + 1) pre := by
  obtain ⟨pre, rest, heq, hpre, ⟨hz, -⟩ | ⟨-, gap, -, rfl⟩⟩ := h
  · omega
  · refine ⟨_, ?_, hpre.snoc gap⟩
    rw [heq]
    simp

/-- With less than a period of sends in the batch being built, the signaled send is posted. -/
theorem Shape.poll {q : SendQueue} {flags : List Bool} (h : Shape q flags) (hn : 0 < q.nbTx)
    (hlen : flags.length ≤ (q.nbTx - 1) % kUnsigBatch) :
    q.poll = some { q with polled := q.polled + 1 } := by
  obtain ⟨pre, heq, hpre⟩ := h.polled hn
  have hsuffix : flags <:+ List.replicate ((q.nbTx - 1) % kUnsigBatch) false := by
    refine List.suffix_of_suffix_length_le (List.suffix_append q.posted flags) ?_ (by simpa)
    rw [heq]
    exact List.suffix_append _ _
  -- so the flags of the batch being built are unsignaled, and the count is that of `posted`
  have hflags : flags.count true = 0 := by
    refine List.count_eq_zero.mpr fun hmem => ?_
    exact Bool.false_ne_true (List.eq_of_mem_replicate (hsuffix.subset hmem)).symm
  have hcount := congrArg (List.count true) heq
  rw [List.count_append, List.count_append, hflags, hpre.count, List.count_replicate] at hcount
  rw [SendQueue.poll, if_pos]
  simp at hcount
  omega

/-- **One work request.**  `get_signaled_flag` does not hang and keeps the shape. -/
theorem Shape.getSignaledFlag {q : SendQueue} {flags : List Bool} (h : Shape q flags)
    (hlen : flags.length < kUnsigBatch) :
    ∃ q' b, q.getSignaledFlag = some (q', b) ∧ q'.posted = q.posted ∧ q'.peak = q.peak ∧
      Shape q' (flags ++ [b]) := by
  unfold SendQueue.getSignaledFlag
  by_cases hmod : q.nbTx % kUnsigBatch = 0
  · rw [if_pos hmod]
    by_cases h0 : q.nbTx = 0
    · -- the first send after a flush
      rw [if_neg (by omega)]
      refine ⟨_, _, rfl, rfl, rfl, ?_⟩
      obtain ⟨pre, rest, heq, hpre, ⟨-, rfl⟩ | ⟨hn, -⟩⟩ := h
      · refine ⟨pre, [true], ?_, hpre, Or.inr ⟨Nat.succ_pos _, 0, by decide, ?_⟩⟩
        · show q.posted ++ (flags ++ [true]) = pre ++ [true]
          rw [← List.append_assoc, heq, List.append_nil]
        · show [true] = List.replicate 0 false ++ true :: List.replicate ((q.nbTx + 1 - 1) % _) false
          rw [h0]
          rfl
      · omega
    · -- a whole period since the last signaled send: it is polled, and its period becomes the gap
      have hlast : (q.nbTx - 1) % kUnsigBatch = kUnsigBatch - 1 := by
        unfold kUnsigBatch at hmod ⊢
        omega
      rw [if_pos h0, h.poll (by omega) (by omega)]
      refine ⟨_, _, rfl, rfl, rfl, ?_⟩
      obtain ⟨pre, heq, hpre⟩ := h.polled (by omega)
      rw [hlast] at heq
      refine ⟨pre, _, ?_, hpre, Or.inr ⟨Nat.succ_pos _, kUnsigBatch - 1, by decide, rfl⟩⟩
      show q.posted ++ (flags ++ [true])
        = pre ++ (_ ++ true :: List.replicate ((q.nbTx + 1 - 1) % _) false)
      rw [← List.append_assoc, heq, Nat.add_sub_cancel, hmod, List.append_assoc]
      rfl
  · -- within a period
    rw [if_neg hmod]
    refine ⟨_, _, rfl, rfl, rfl, ?_⟩
    obtain ⟨pre, rest, heq, hpre, ⟨hz, -⟩ | ⟨hn, gap, hgap, rfl⟩⟩ := h
    · rw [hz] at hmod
      exact absurd rfl hmod
    · refine ⟨pre, _, ?_, hpre, Or.inr ⟨Nat.succ_pos _, gap, hgap, rfl⟩⟩
      have hnext : (q.nbTx + 1 - 1) % kUnsigBatch = (q.nbTx - 1) % kUnsigBatch + 1 := by
        unfold kUnsigBatch at hmod ⊢
        omega
      show q.posted ++ (flags ++ [false])
        = pre ++ (_ ++ true :: List.replicate ((q.nbTx + 1 - 1) % _) false)
      rw [← List.append_assoc, heq, hnext, List.replicate_succ']
      simp

/-- The work requests of a batch. -/
theorem Shape.buildBatch (n : ℕ) : ∀ {q : SendQueue} {flags : List Bool}, Shape q flags →
    flags.length + n ≤ kUnsigBatch →
    ∃ q' flags', SendQueue.buildBatch n q flags = some (q', flags') ∧ q'.peak = q.peak ∧
      Shape q' flags' := by
  induction n with
  | zero =>
    intro q flags h _
    exact ⟨q, flags, rfl, rfl, h⟩
  | succ n ih =>
    intro q flags h hlen
    obtain ⟨q1, b, hflag, -, hpeak, h1⟩ := h.getSignaledFlag (by omega)
    obtain ⟨q', flags', hrest, hpeak', h'⟩ := ih h1 (by
      rw [List.length_append, List.length_singleton]
      omega)
    refine ⟨q', flags', ?_, hpeak'.trans hpeak, h'⟩
    rw [SendQueue.buildBatch, hflag, Option.bind_some]
    exact hrest

/-- Posting the batch. -/
theorem Shape.post {q : SendQueue} {flags : List Bool} (h : Shape q flags)
    (hpeak : q.peak ≤ kSQDepth) : Shape (q.post flags) [] ∧ (q.post flags).peak ≤ kSQDepth := by
  obtain ⟨pre, rest, heq, hpre, hrest⟩ := h
  refine ⟨⟨pre, rest, ?_, hpre, hrest⟩, ?_⟩
  · show q.posted ++ flags ++ [] = _
    rw [List.append_nil, heq]
  · show max q.peak (sendsBehind q.polled (q.posted ++ flags)) ≤ _
    have := hrest.length_lt
    rw [heq, hpre.sendsBehind]
    omega

/-- **`tx_burst`** does not hang. -/
theorem Shape.txBurst {q : SendQueue} (h : Shape q []) (hpeak : q.peak ≤ kSQDepth) {n : ℕ}
    (hn : n ≤ kPostlist) :
    ∃ q', q.txBurst n = some q' ∧ Shape q' [] ∧ q'.peak ≤ kSQDepth := by
  have hlen : n ≤ kUnsigBatch := le_trans hn (by decide)
  obtain ⟨q1, flags, hbuild, hpeak1, h1⟩ := h.buildBatch n (by simpa using hlen)
  obtain ⟨h2, hpeak2⟩ := h1.post (by omega)
  exact ⟨_, by rw [SendQueue.txBurst, hbuild]; rfl, h2, hpeak2⟩

/-- **`tx_flush`** polls what is left, and what it posts itself. -/
theorem Shape.txFlush {q : SendQueue} (h : Shape q []) (hpeak : q.peak ≤ kSQDepth) :
    ∃ q', q.txFlush = some q' ∧ Shape q' [] ∧ q'.peak ≤ kSQDepth := by
  unfold SendQueue.txFlush
  by_cases h0 : q.nbTx = 0
  · rw [if_pos h0]
    exact ⟨q, rfl, h, hpeak⟩
  · rw [if_neg h0, h.poll (by omega) (Nat.zero_le _), Option.bind_some]
    obtain ⟨pre, heq, hpre⟩ := h.polled (by omega)
    rw [List.append_nil] at heq
    set r := (q.nbTx - 1) % kUnsigBatch
    have hr : r < kUnsigBatch := Nat.mod_lt _ (by decide)
    -- behind the last polled send there are the unsignaled ones, and now the flush
    have hpost : q.posted ++ [true] = pre ++ List.replicate r false ++ [true] := by rw [heq]
    have hall := hpre.snoc r
    have hcount : (q.posted ++ [true]).count true = q.polled + 2 := by
      rw [hpost]
      exact hall.count
    refine ⟨_, by
      rw [SendQueue.poll, if_pos (by
        show q.polled + 1 < (q.posted ++ [true]).count true
        omega)]
      rfl, ⟨_, [], ?_, hall, Or.inl ⟨rfl, rfl⟩⟩, ?_⟩
    · show q.posted ++ [true] ++ [] = _
      rw [hpost]
    · show max q.peak (sendsBehind (q.polled + 1) (q.posted ++ [true])) ≤ _
      rw [hpost, List.append_assoc, hpre.sendsBehind]
      simp only [List.length_append, List.length_replicate, List.length_singleton]
      unfold kUnsigBatch at hr
      unfold kSQDepth
      unfold kSQDepth at hpeak
      omega

/-- One call. -/
theorem Shape.step {q : SendQueue} (h : Shape q []) (hpeak : q.peak ≤ kSQDepth) {a : SendCall}
    (ha : a.Valid) : ∃ q', q.step a = some q' ∧ Shape q' [] ∧ q'.peak ≤ kSQDepth := by
  cases a with
  | txBurst n => exact h.txBurst hpeak ha.2
  | txFlush => exact h.txFlush hpeak

/-- All calls. -/
theorem Shape.calls (as : List SendCall) : ∀ {q : SendQueue}, Shape q [] → q.peak ≤ kSQDepth →
    (∀ a ∈ as, a.Valid) → ∃ q', q.calls as = some q' ∧ Shape q' [] ∧ q'.peak ≤ kSQDepth := by
  induction as with
  | nil =>
    intro q h hpeak _
    exact ⟨q, rfl, h, hpeak⟩
  | cons a as ih =>
    intro q h hpeak hvalid
    obtain ⟨q1, hstep, h1, hpeak1⟩ := h.step hpeak (hvalid a (List.mem_cons_self ..))
    obtain ⟨q', hrest, h', hpeak'⟩ := ih h1 hpeak1 fun b hb => hvalid b (List.mem_cons_of_mem _ hb)
    refine ⟨q', ?_, h', hpeak'⟩
    rw [SendQueue.calls, hstep, Option.bind_some]
    exact hrest

/-- **Sends and completions.**  Whatever the sizes of the bursts and wherever the flushes are, no
poll waits for a completion that does not come, at no time are more than `kSQDepth` sends posted
and not known to be complete, and between two calls exactly one signaled send is not polled
unless nothing was sent since the last flush. -/
theorem sends_bounded (as : List SendCall) (hvalid : ∀ a ∈ as, a.Valid) :
    ∃ q, SendQueue.init.calls as = some q ∧ q.outstanding ≤ kSQDepth ∧ q.peak ≤ kSQDepth ∧
      (0 < q.nbTx → q.unpolled = 1) := by
  have hinit : Shape SendQueue.init [] := ⟨[], [], rfl, UpToSignaled.nil, Or.inl ⟨rfl, rfl⟩⟩
  obtain ⟨q, hcalls, ⟨pre, rest, heq, hpre, hrest⟩, hpeak⟩ :=
    hinit.calls as (Nat.zero_le _) hvalid
  rw [List.append_nil] at heq
  refine ⟨q, hcalls, ?_, hpeak, fun hpos => ?_⟩
  · rw [SendQueue.outstanding, heq, hpre.sendsBehind]
    exact le_of_lt hrest.length_lt
  · rw [SendQueue.unpolled, heq, List.count_append, hpre.count, hrest.count, if_neg (by omega)]
    omega

/-- Five full bursts, a flush and a burst of three. -/
theorem sends_bounded_five_bursts :
    (∀ a ∈ List.replicate 5 (SendCall.txBurst 16) ++ [.txFlush, .txBurst 3], a.Valid) ∧
      ∃ q, SendQueue.init.calls (List.replicate 5 (.txBurst 16) ++ [.txFlush, .txBurst 3]) = some q ∧
        q.peak ≤ kSQDepth := by
  have hvalid : ∀ a ∈ List.replicate 5 (SendCall.txBurst 16) ++ [.txFlush, .txBurst 3],
      a.Valid := by
    intro a ha
    simp only [List.mem_append, List.mem_replicate, List.mem_cons, List.not_mem_nil, or_false] at ha
    rcases ha with ⟨-, rfl⟩ | rfl | rfl
    · exact ⟨by decide, by decide⟩
    · exact trivial
    · exact ⟨by decide, by decide⟩
  obtain ⟨q, hcalls, -, hpeak, -⟩ := sends_bounded _ hvalid
  exact ⟨hvalid, q, hcalls, hpeak⟩

end HuiRpc
