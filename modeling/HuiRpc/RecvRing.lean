/-
# Posting receives again

Model of `init_recvs`, `rx_burst` and `post_recvs` of the InfiniBand transport with the loop of
`process_comps_st`.  The receive descriptors are a circular list.  `post_recvs` collects the entries
that were used up; when there are `kRecvSlack` of them it cuts the list behind the last one, gives
the part from `recv_head` on to the NIC, which follows the links up to a null pointer, and closes
the list again.

* The NIC uses the posted receives in order.  A packet that arrives during a call may as well have
  arrived before it: the NIC and the call touch different members.
* With `use_fast_recv` a modified driver is told only how many receives to post.  The driver is not
  part of the repository: what it posts is a parameter, and `DriverInOrder` is the assumption about
  it.  Nothing is assumed about an unmodified driver.
* `arrived`, `consumed` and `reposted` are a record that the code does not keep: the entries that
  packets arrived in, that `process_comps_st` looked at, and that `post_recvs` posted, in order.
* `HuiRpc.RxRing` follows the bodies of requests through such a ring.

`recv_ring_in_step` says that both indices stay in step in every run.
-/
import HuiRpc.RxRing

namespace HuiRpc

open Runs Circular

/-! ## The ring -/

/-- The number of entries, whether the probe found a modified driver, and the receives that this
driver posts for a `num_sge` of `n` when it has posted `posted` of them before. -/
structure RecvCfg where
  R : ℕ
  useFastRecv : Bool
  fastRecv : (posted n : ℕ) → List ℕ
  fits : kRecvSlack + kPostlist ≤ R

/-- A modified driver posts the receives around the ring from entry 0 on. -/
def DriverInOrder (C : RecvCfg) : Prop :=
  C.useFastRecv = true → ∀ posted n, C.fastRecv posted n = seg (· % C.R) posted (posted + n)

/-- The transport's receive descriptors with the `Rpc`'s ring index.

* `next` — `recv_wr[i].next`;
* `rq` — the posted receives that no packet has arrived in yet. -/
structure RecvRing where
  next : ℕ → Option ℕ
  recvHead : ℕ
  recvsToPost : ℕ
  rxRingHead : ℕ
  rq : List ℕ
  arrived : List ℕ
  consumed : List ℕ
  reposted : List ℕ

namespace RecvRing

variable (C : RecvCfg)

/-- The ring with its first receives posted. -/
def init : RecvRing where
  next := links C.R
  recvHead := 0
  recvsToPost := 0
  rxRingHead := 0
  rq := List.range C.R
  arrived := []
  consumed := []
  reposted := []

/-- `ibv_post_recv(qp, first_wr, …)`: the posted receives; `none` if the list does not end. -/
def ibvPostRecv (next : ℕ → Option ℕ) (first : ℕ) : Option (List ℕ) :=
  follow next (C.R + 1) first

/-- `init_recvs`: the links, the cut behind the last entry, and the links again. -/
def initRecvs : Option RecvRing :=
  let next := Function.update (links C.R) (C.R - 1) none
  (ibvPostRecv C next 0).map fun posted =>
    { init C with next := Function.update next (C.R - 1) (some 0), rq := posted }

/-- One turn of the loop of `process_comps_st`. -/
def consume (s : RecvRing) : RecvRing :=
  { s with
    consumed := s.consumed ++ [s.rxRingHead]
    rxRingHead := if s.rxRingHead + 1 = C.R then 0 else s.rxRingHead + 1 }

/-- `post_recvs(num_recvs)`. -/
def postRecvs (numRecvs : ℕ) (s : RecvRing) : Option RecvRing :=
  let t := s.recvsToPost + numRecvs
  if t < kRecvSlack then some { s with recvsToPost := t }
  else if C.useFastRecv then
    let posted := C.fastRecv s.reposted.length t
    some { s with
      rq := s.rq ++ posted
      reposted := s.reposted ++ posted
      recvsToPost := 0 }
  else
    let last := lastOf C.R s.recvHead t
    let temp := s.next last
    let next := Function.update s.next last none
    (ibvPostRecv C next s.recvHead).map fun posted =>
      { s with
        next := Function.update next last temp
        rq := s.rq ++ posted
        reposted := s.reposted ++ posted
        recvHead := (last + 1) % C.R
        recvsToPost := 0 }

/-- `process_comps_st`, for a batch of `n` packets. -/
def processComps (n : ℕ) (s : RecvRing) : Option RecvRing :=
  if n = 0 then some s else postRecvs C n ((consume C)^[n] s)

inductive Act
  | arrive
  | comps (n : ℕ)
  deriving DecidableEq

def step (s : RecvRing) : Act → Option RecvRing
  | .arrive =>
      match s.rq with
      | [] => none
      | r :: rest => some { s with rq := rest, arrived := s.arrived ++ [r] }
  | .comps n => processComps C n s

/-- A packet needs a posted receive; `rx_burst` returns at most `kPostlist` packets that have
arrived. -/
def Enabled (s : RecvRing) : Act → Prop
  | .arrive => s.rq ≠ []
  | .comps n => n ≤ kPostlist ∧ s.consumed.length + n ≤ s.arrived.length

instance (s : RecvRing) (a : Act) : Decidable (s.Enabled a) :=
  match a with
  | .arrive => decidable_of_iff (s.rq.isEmpty = false) (by simp [Enabled])
  | .comps _ => inferInstanceAs (Decidable (_ ∧ _))

/-- **What holds after each call.**

* `order`, `once` — the receives are posted again around the ring from entry 0 on, each as often as
  it was looked at before and in that order;
* `slack` — except for fewer than `kRecvSlack` that wait;
* `closed` — the list is circular;
* `looked` — each packet was looked at where it arrived;
* `head` — the next packet is, or will be, in the entry that `rx_ring_head_` names. -/
structure InStep (s : RecvRing) : Prop where
  order : s.reposted = (List.range s.reposted.length).map (· % C.R)
  once : s.reposted <+: s.consumed
  slack : s.consumed.length < s.reposted.length + kRecvSlack
  closed : s.next = links C.R
  looked : s.consumed <+: s.arrived
  head : (s.arrived.drop s.consumed.length ++ s.rq).head? = some s.rxRingHead

/-! ## The invariant -/

/-- The ring by the numbers of receives posted again and of packets looked at and arrived. -/
structure Inv (s : RecvRing) (posted looked came : ℕ) : Prop where
  next : s.next = links C.R
  recvHead : C.useFastRecv = false → s.recvHead = posted % C.R
  recvsToPost : posted + s.recvsToPost = looked
  slack : s.recvsToPost < kRecvSlack
  rxRingHead : s.rxRingHead = looked % C.R
  looked_le : looked ≤ came
  came_le : came ≤ posted + C.R
  rq : s.rq = seg (· % C.R) came (posted + C.R)
  arrived : s.arrived = seg (· % C.R) 0 came
  consumed : s.consumed = seg (· % C.R) 0 looked
  reposted : s.reposted = seg (· % C.R) 0 posted

variable {C}

theorem pos_R : 0 < C.R := by
  have := C.fits
  unfold kRecvSlack at this
  omega

theorem range_eq_seg : List.range C.R = seg (· % C.R) 0 C.R := by
  unfold seg
  rw [← List.range_eq_range']
  refine (List.map_id _).symm.trans (List.map_congr_left ?_)
  intro j hj
  rw [List.mem_range] at hj
  exact (Nat.mod_eq_of_lt hj).symm

theorem Inv.init : Inv C (init C) 0 0 0 where
  next := rfl
  recvHead := fun _ => (Nat.zero_mod _).symm
  recvsToPost := rfl
  slack := by
    show 0 < kRecvSlack
    decide
  rxRingHead := (Nat.zero_mod _).symm
  looked_le := le_rfl
  came_le := Nat.zero_le _
  rq := by
    rw [Nat.zero_add]
    exact range_eq_seg
  arrived := (seg_self _ _).symm
  consumed := (seg_self _ _).symm
  reposted := (seg_self _ _).symm

/-- The links that are cut and closed again are the old ones. -/
theorem initRecvs_eq : initRecvs C = some (RecvRing.init C) := by
  have hR : 0 < C.R := pos_R
  have hcut := @follow_links_cut C.R 0 (C.R - 1) (C.R + 1) hR (by omega) (by omega)
  rw [Nat.zero_add, Nat.zero_mod, Nat.mod_eq_of_lt (show C.R - 1 < C.R by omega),
    show C.R - 1 + 1 = C.R by omega, ← range_eq_seg] at hcut
  have hclosed : Function.update (Function.update (links C.R) (C.R - 1) none) (C.R - 1) (some 0)
      = links C.R := by
    rw [Function.update_idem]
    refine Function.update_eq_self_iff.mpr ?_
    unfold links
    rw [if_neg (lt_irrefl _)]
  unfold initRecvs ibvPostRecv
  dsimp only
  rw [hcut, hclosed]
  rfl

theorem Inv.arrive {s s' : RecvRing} {p l c : ℕ} (h : Inv C s p l c)
    (hs : s.step C .arrive = some s') : Inv C s' p l (c + 1) := by
  have hrq := h.rq
  simp only [step] at hs
  by_cases hlt : c < p + C.R
  · rw [seg_cons _ hlt] at hrq
    rw [hrq] at hs
    obtain rfl := Option.some.inj hs
    have harr : s.arrived ++ [c % C.R] = seg (· % C.R) 0 (c + 1) := by
      rw [h.arrived, seg_snoc _ (Nat.zero_le c)]
    exact { h with
      looked_le := Nat.le_succ_of_le h.looked_le
      came_le := hlt
      rq := rfl
      arrived := harr }
  · have hle := h.came_le
    rw [show c = p + C.R by omega, seg_self] at hrq
    rw [hrq] at hs
    cases hs

/-! ## Batches -/

/-- The loop of `process_comps_st` looks at the next entries of the ring. -/
theorem consume_iterate {s : RecvRing} {l : ℕ} (hhead : s.rxRingHead = l % C.R)
    (hcons : s.consumed = seg (· % C.R) 0 l) (n : ℕ) :
    (consume C)^[n] s
      = { s with rxRingHead := (l + n) % C.R, consumed := seg (· % C.R) 0 (l + n) } := by
  induction n with
  | zero =>
    rw [Function.iterate_zero_apply, Nat.add_zero, ← hhead, ← hcons]
  | succ n ih =>
    rw [Function.iterate_succ_apply', ih]
    unfold consume
    rw [wrap_succ (l + n) pos_R, ← seg_snoc (· % C.R) (Nat.zero_le (l + n)), Nat.add_assoc]

/-- The NIC follows the list from `recv_head` on up to the cut. -/
theorem ibvPostRecv_cut (p : ℕ) {t : ℕ} (ht : 0 < t) (hle : t ≤ C.R) :
    ibvPostRecv C (Function.update (links C.R) (lastOf C.R (p % C.R) t) none) (p % C.R)
      = some (seg (· % C.R) p (p + t)) := by
  have hcut := @follow_links_cut C.R p (t - 1) (C.R + 1) pos_R (by omega) (by omega)
  rw [show p + (t - 1) + 1 = p + t by omega] at hcut
  rw [lastOf_eq p pos_R hle]
  exact hcut

/-- The receives posted again are the ones of the entries that come around next. -/
theorem seg_repost (p c t : ℕ) (hle : c ≤ p + C.R) :
    seg (· % C.R) c (p + C.R) ++ seg (· % C.R) p (p + t) = seg (· % C.R) c (p + t + C.R) := by
  have hround : seg (· % C.R) p (p + t) = seg (· % C.R) (p + C.R) (p + C.R + t) :=
    seg_mod_congr (Nat.add_mod_right p C.R).symm t
  rw [hround, seg_append _ hle (Nat.le_add_right _ _), Nat.add_right_comm]

/-- Both ways of posting `t` receives: they go behind the ones that are posted, and none waits. -/
theorem Inv.repost {s s' : RecvRing} {p l c n t : ℕ} (h : Inv C s p l c) (ht : p + t = l + n)
    (hle : l + n ≤ c) (hnext : s'.next = links C.R)
    (hrecv : C.useFastRecv = false → s'.recvHead = (p + t) % C.R) (hwait : s'.recvsToPost = 0)
    (hring : s'.rxRingHead = (l + n) % C.R) (hrq : s'.rq = s.rq ++ seg (· % C.R) p (p + t))
    (harr : s'.arrived = s.arrived) (hcons : s'.consumed = seg (· % C.R) 0 (l + n))
    (hre : s'.reposted = s.reposted ++ seg (· % C.R) p (p + t)) : Inv C s' (p + t) (l + n) c where
  next := hnext
  recvHead := hrecv
  recvsToPost := by
    rw [hwait]
    exact ht
  slack := by
    rw [hwait]
    decide
  rxRingHead := hring
  looked_le := hle
  came_le := by
    have := h.came_le
    omega
  rq := by
    rw [hrq, h.rq, seg_repost p c t h.came_le]
  arrived := harr.trans h.arrived
  consumed := hcons
  reposted := by
    rw [hre, h.reposted, seg_append _ (Nat.zero_le p) (Nat.le_add_right p t)]

/-- **One batch.**  `post_recvs` does not fail, and either all receives of the batch wait or none
is left waiting. -/
theorem Inv.processComps {s : RecvRing} {p l c n : ℕ} (hdrv : DriverInOrder C)
    (h : Inv C s p l c) (hn : n ≤ kPostlist) (hle : l + n ≤ c) :
    ∃ s' p', processComps C n s = some s' ∧ Inv C s' p' (l + n) c := by
  unfold RecvRing.processComps
  split_ifs with h0
  · rw [h0]
    exact ⟨s, p, rfl, h⟩
  have hR := C.fits
  have hslack := h.slack
  have hlooked := h.recvsToPost
  rw [consume_iterate h.rxRingHead h.consumed n]
  unfold RecvRing.postRecvs
  dsimp only
  split_ifs with ht hfast
  · have hwait : p + (s.recvsToPost + n) = l + n := by omega
    exact ⟨_, p, rfl, { h with
      recvsToPost := hwait
      slack := ht
      rxRingHead := rfl
      looked_le := hle
      consumed := rfl }⟩
  · -- the driver has posted as many receives as there were posted again
    set t := s.recvsToPost + n
    have hposted : C.fastRecv s.reposted.length t = seg (· % C.R) p (p + t) := by
      rw [h.reposted, length_seg, Nat.sub_zero]
      exact hdrv hfast p t
    rw [hposted]
    exact ⟨_, p + t, rfl, h.repost (by omega) hle h.next
      (fun hslow => absurd (hfast.symm.trans hslow) (by decide)) rfl rfl rfl rfl rfl rfl⟩
  · -- the list is cut behind the last receive that waits, and closed again
    set t := s.recvsToPost + n
    have hpost := @ibvPostRecv_cut C p t (by omega) (by omega)
    rw [h.next, h.recvHead (Bool.eq_false_iff.mpr hfast), hpost, Option.map_some,
      Function.update_idem, Function.update_eq_self]
    exact ⟨_, p + t, rfl, h.repost (by omega) hle rfl
      (fun _ => lastOf_succ p (by omega)) rfl rfl rfl rfl rfl rfl⟩

/-! ## Runs -/

theorem Inv.step {s s' : RecvRing} {a : Act} (hdrv : DriverInOrder C)
    (h : ∃ p l c, Inv C s p l c) (hg : s.Enabled a) (hs : s.step C a = some s') :
    ∃ p l c, Inv C s' p l c := by
  obtain ⟨p, l, c, h⟩ := h
  cases a with
  | arrive => exact ⟨p, l, c + 1, h.arrive hs⟩
  | comps n =>
    obtain ⟨hn, hle⟩ := hg
    rw [h.consumed, h.arrived, length_seg, length_seg, Nat.sub_zero, Nat.sub_zero] at hle
    obtain ⟨t, p', ht, hInv⟩ := Inv.processComps hdrv h hn hle
    obtain rfl := Option.some.inj (ht.symm.trans hs)
    exact ⟨p', l + n, c, hInv⟩

/-- Segments from 0 on extend each other. -/
theorem seg_isPrefix {a b : ℕ} (hab : a ≤ b) :
    seg (· % C.R) 0 a <+: seg (· % C.R) 0 b :=
  ⟨seg (· % C.R) a b, seg_append _ (Nat.zero_le a) hab⟩

theorem Inv.inStep {s : RecvRing} {p l c : ℕ} (h : Inv C s p l c) : InStep C s := by
  have hR := C.fits
  have hslack := h.slack
  have hposted := h.recvsToPost
  constructor
  case order =>
    rw [h.reposted, length_seg, seg_eq_map_range]
    simp only [Nat.zero_add]
  case once =>
    rw [h.reposted, h.consumed]
    exact seg_isPrefix (by omega)
  case slack =>
    rw [h.reposted, h.consumed, length_seg, length_seg]
    omega
  case closed => exact h.next
  case looked =>
    rw [h.consumed, h.arrived]
    exact seg_isPrefix h.looked_le
  case head =>
    -- the packets that wait, then the posted receives: the entries from the ring index on
    have hwait : s.arrived.drop s.consumed.length = seg (· % C.R) l c := by
      rw [h.arrived, h.consumed, length_seg, Nat.sub_zero,
        ← seg_append _ (Nat.zero_le l) h.looked_le]
      exact List.drop_left' (by rw [length_seg, Nat.sub_zero])
    rw [hwait, h.rq, seg_append _ h.looked_le h.came_le, seg_cons _ (by omega), List.head?_cons,
      h.rxRingHead]

/-- **The ring stays in step.**  After `init_recvs` and any sequence of arriving packets and of
batches, both indices agree, and no call of `process_comps_st` fails.  A modified driver, if there
is one, has to post around the ring. -/
theorem recv_ring_in_step {s₀ s : RecvRing} {as : List Act} (hdrv : DriverInOrder C)
    (h0 : initRecvs C = some s₀) (h : Run Enabled (step C) s₀ as s) :
    InStep C s ∧ ∀ n, s.Enabled (.comps n) → ∃ s', s.step C (.comps n) = some s' := by
  obtain rfl := Option.some.inj (initRecvs_eq.symm.trans h0)
  obtain ⟨p, l, c, hInv⟩ := h.invariant ⟨0, 0, 0, Inv.init⟩ fun _ _ _ => Inv.step hdrv
  refine ⟨hInv.inStep, ?_⟩
  rintro n ⟨hn, hle⟩
  rw [hInv.consumed, hInv.arrived, length_seg, length_seg, Nat.sub_zero, Nat.sub_zero] at hle
  obtain ⟨s', -, hs, -⟩ := Inv.processComps hdrv hInv hn hle
  exact ⟨s', hs⟩

/-- A ring of 48 entries with an unmodified driver. -/
def smallRing : RecvCfg := ⟨48, false, fun _ _ => [], by decide⟩

/-- 40 packets, looked at in batches of 16, 16 and 5. -/
def fortyPackets : List Act :=
  List.replicate 40 .arrive ++ [.comps 16, .comps 16, .comps 5]

/-- The second batch makes 32 receives, which are posted; the five of the third wait. -/
theorem recv_ring_in_step_forty :
    ∃ s, s.reposted.length = 32 ∧ s.rxRingHead = 37 ∧ s.recvHead = 32 ∧ InStep smallRing s ∧
      ∃ s', s.step smallRing (.comps 3) = some s' := by
  have hexec : (exec Enabled (step smallRing) (RecvRing.init smallRing) fortyPackets).map
      (fun s => (s.reposted.length, s.rxRingHead, s.recvHead,
        decide (s.Enabled (.comps 3)))) = some (32, 37, 32, true) := by decide +kernel
  obtain ⟨s, hs, heq⟩ := Option.map_eq_some_iff.mp hexec
  simp only [Prod.mk.injEq, decide_eq_true_eq] at heq
  obtain ⟨hposted, hring, hhead, hmore⟩ := heq
  have hdrv : DriverInOrder smallRing := fun hfast => absurd hfast (by decide)
  obtain ⟨hstep, hreturns⟩ := recv_ring_in_step hdrv initRecvs_eq (run_of_exec hs)
  exact ⟨s, hposted, hring, hhead, hstep, hreturns 3 hmore⟩

end RecvRing

end HuiRpc
