/-
# Request numbers wrap on the wire

The client counts requests in 64 bits, the header has 32 bits for the number, and the server
keeps the number of the header in a field of 64 bits.  Before it takes the first packet of a
request, the server tests whether `req_num_` is `cur_req_num_ + kSessionReqWindow` (an assertion
of `process_small_req_st`, `is_first_pkt_next_req` of `process_large_req_one_st`).

* `next_request_expected_iff` — the first packet of a request always goes to the slot it was
  issued on, and the test holds exactly if the low 32 bits of the request number are at least
  `kSessionReqWindow`;
* `next_request_unexpected` — it fails for request `2 ^ 27` of slot 0.
-/
import HuiRpc.ServerOrder

namespace HuiRpc

open Runs

variable {E : Env} {s s' : Sys} {i : ℕ} {p : WirePkt} {rest : List WirePkt}

/-! ## The first packet of a request -/

/-- **The first packet of a request at the server.**  It is packet 0 of the request in the
client's slot with the same index, and the server's slot has the number of the request
before. -/
theorem Inv.first_packet (h : Inv E s) (hp : s.cli.tx = p :: rest)
    (htype : p.hdr.pktType = .kReq) (hnum : p.hdr.pktNum = 0) :
    (∃ b, (s.cli.slots (slotOf p.hdr)).txMsgbuf = some b ∧ p = b.pkts 0) ∧
    ∃ n, (s.cli.slots (slotOf p.hdr)).curReqNum = n + kSessionReqWindow ∧
      p.hdr.reqNum = (n + kSessionReqWindow) % 2 ^ 32 ∧
      (s.srv.slots (slotOf p.hdr)).curReqNum = n % 2 ^ 32 := by
  have hslot := h.base.slot _ (slotOf_lt p.hdr)
  have hup : (s.view (slotOf p.hdr)).up = p :: ofSlot (slotOf p.hdr) rest := by
    show ofSlot _ s.cli.tx = _
    rw [hp, ofSlot_cons_self rfl]
  obtain ⟨a, q, b, hcore, -⟩ := hslot.running_of_up (by rw [hup]; simp)
  obtain ⟨-, hpa, -⟩ := seg_eq_cons (hup.symm.trans hcore.up)
  -- the only request packet with number 0 is packet 0
  have hN : a < (s.view (slotOf p.hdr)).tr.N := by
    have hty := Trace.cliPkt_type E (s.view (slotOf p.hdr)).tr a
    rw [← hpa, htype] at hty
    by_contra hlt
    rw [if_neg hlt] at hty
    simp at hty
  have hreq := hpa.trans (Trace.cliPkt_req E hN)
  obtain rfl : a = 0 := by
    have hk : ((s.view (slotOf p.hdr)).tr.reqBuf.pkts a).hdr.pktNum = a :=
      (s.view (slotOf p.hdr)).tr.req.fill_pktNum .request _ a hN
    rw [← hreq, hnum] at hk
    exact hk.symm
  obtain ⟨n, hcli, hsrv⟩ := hcore.srv.waiting rfl
  refine ⟨⟨_, hcore.buf, hreq⟩, n, hcli, ?_, hsrv⟩
  have hr := Trace.cliPkt_reqNum E (t := (s.view (slotOf p.hdr)).tr) 0
  rwa [← hpa, hcore.reqNum, hcli] at hr

/-- The numbers of two requests that follow each other, as the server compares them. -/
theorem succ_reqNum_iff (n : ℕ) :
    (n + kSessionReqWindow) % 2 ^ 32 = n % 2 ^ 32 + kSessionReqWindow ↔
      kSessionReqWindow ≤ (n + kSessionReqWindow) % 2 ^ 32 := by
  omega

/-- **The test of the request number.**  In every reachable state of a session, the first packet
of a request goes to the slot that it was issued on, and the server's test holds exactly if the
low 32 bits of the request number are at least `kSessionReqWindow`. -/
theorem next_request_expected_iff (E : Env) (s : Sys) (h : Reachable E s) {p : WirePkt}
    {rest : List WirePkt} (hp : s.cli.tx = p :: rest) (htype : p.hdr.pktType = .kReq)
    (hnum : p.hdr.pktNum = 0) :
    (∃ b, (s.cli.slots (slotOf p.hdr)).txMsgbuf = some b ∧ p = b.pkts 0) ∧
    (isFirstPktNextReq (s.srv.slots (slotOf p.hdr)) p.hdr ↔
      kSessionReqWindow ≤ (s.cli.slots (slotOf p.hdr)).curReqNum % 2 ^ 32) := by
  obtain ⟨hslot, n, hcli, hreq, hsrv⟩ := h.inv.first_packet hp htype hnum
  refine ⟨hslot, ?_⟩
  unfold isFirstPktNextReq
  rw [hnum, hreq, hsrv, hcli, eq_self_iff_true, and_true]
  exact succ_reqNum_iff n

/-! ## Actions other than a new request -/

/-- The request numbers of the slots stay, and slots are only added to the free ones. -/
structure Cli.Later (c c' : Cli) : Prop where
  reqNum : ∀ i, (c'.slots i).curReqNum = (c.slots i).curReqNum
  free : c.freeVec <:+ c'.freeVec

theorem Cli.Later.refl (c : Cli) : c.Later c := ⟨fun _ => rfl, List.suffix_rfl⟩

theorem Cli.Later.trans {c c' c'' : Cli} (h : c.Later c') (h' : c'.Later c'') : c.Later c'' :=
  ⟨fun i => (h'.reqNum i).trans (h.reqNum i), h.free.trans h'.free⟩

theorem Cli.put_slots_self (c : Cli) (i : ℕ) (x : CliCtx) : (c.put i x).slots i = x.slot := by
  exact Function.update_self i x.slot c.slots

theorem Cli.Later.put {x : CliCtx} (c : Cli) (hx : x.slot.curReqNum = (c.slots i).curReqNum) :
    c.Later (c.put i x) := by
  refine ⟨fun j => ?_, List.suffix_rfl⟩
  by_cases hj : j = i
  · rw [hj, Cli.put_slots_self, hx]
  · show (Function.update c.slots i x.slot j).curReqNum = _
    rw [Function.update_of_ne hj]

section Slot

variable {x x' : CliCtx} {e : Endpoint}

theorem kickLoop_curReqNum (pkt : ℕ → WirePkt) (n : ℕ) (x : CliCtx) :
    (kickLoop pkt n x).slot.curReqNum = x.slot.curReqNum := by
  rw [kickLoop_eq]
  rfl

theorem kickReq_curReqNum (h : kickReq x = some x') : x'.slot.curReqNum = x.slot.curReqNum := by
  obtain ⟨b, -, rfl⟩ := Option.map_eq_some_iff.mp h
  exact kickLoop_curReqNum _ _ _

theorem kickRfr_curReqNum {resp : Option Pkthdr} (h : kickRfr e resp x = some x') :
    x'.slot.curReqNum = x.slot.curReqNum := by
  obtain ⟨b, -, h⟩ := Option.bind_eq_some_iff.mp h
  obtain ⟨hd, -, rfl⟩ := Option.map_eq_some_iff.mp h
  exact kickLoop_curReqNum _ _ _

theorem processExplCr_curReqNum (h : processExplCr x = some x') :
    x'.slot.curReqNum = x.slot.curReqNum := by
  obtain ⟨b, -, h⟩ := Option.bind_eq_some_iff.mp h
  dsimp only at h
  split_ifs at h with hpend
  · have hkick := kickReq_curReqNum h
    exact hkick
  · obtain rfl := Option.some.inj h
    rfl

theorem processRespOne_curReqNum {hd : Pkthdr} {data : List UInt8} {r : Option RespBuf}
    (h : processRespOne e hd data x = some (x', r)) :
    x'.slot.curReqNum = x.slot.curReqNum := by
  unfold processRespOne at h
  split_ifs at h with hsmall
  · obtain ⟨rfl, -⟩ := Prod.mk.inj (Option.some.inj h)
    rfl
  · obtain ⟨b, -, h⟩ := Option.bind_eq_some_iff.mp h
    obtain ⟨x₂, hx₂, h⟩ := Option.map_eq_some_iff.mp h
    have hsame : x₂.slot.curReqNum = x.slot.curReqNum := by
      split_ifs at hx₂ with hall
      · have hkick := kickRfr_curReqNum hx₂
        exact hkick
      · obtain rfl := Option.some.inj hx₂
        rfl
    split_ifs at h with hlast
    · obtain ⟨rfl, -⟩ := Prod.mk.inj h
      exact hsame
    · obtain ⟨rfl, -⟩ := Prod.mk.inj h
      exact hsame

end Slot

theorem Cli.Later.recv {c c' : Cli} {e : Endpoint} {stale : ℕ → UInt8}
    (h : c.recv e stale p = some c') : c.Later c' := by
  unfold Cli.recv at h
  split at h
  · unfold Cli.recvResp at h
    obtain ⟨⟨x, r⟩, hx, h⟩ := Option.bind_eq_some_iff.mp h
    have hput := Cli.Later.put c (processRespOne_curReqNum hx)
    cases r with
    | none =>
      obtain rfl := Option.some.inj h
      exact hput
    | some resp =>
      unfold Cli.finish at h
      dsimp only at h
      split_ifs at h with hback
      obtain rfl := Option.some.inj h
      exact ⟨hput.reqNum, hput.free.trans (List.suffix_cons _ _)⟩
  · obtain ⟨x, hx, rfl⟩ := Option.map_eq_some_iff.mp h
    exact Cli.Later.put c (processExplCr_curReqNum hx)
  · simp at h
  · simp at h

theorem Cli.Later.stallLoop {c : Cli} {e : Endpoint} {q kept : List ℕ} {r : Cli × List ℕ}
    (h : Cli.stallLoop e q c kept = some r) : c.Later r.1 := by
  induction q generalizing c kept with
  | nil =>
    obtain rfl := Option.some.inj h
    exact Cli.Later.refl c
  | cons i q ih =>
    rw [Cli.stallLoop] at h
    split_ifs at h with hcred
    · obtain ⟨x, hx, h⟩ := Option.bind_eq_some_iff.mp h
      refine (Cli.Later.put c ?_).trans (ih h)
      obtain ⟨b, -, hx⟩ := Option.bind_eq_some_iff.mp hx
      split_ifs at hx with hpend
      · exact kickReq_curReqNum hx
      · exact kickRfr_curReqNum hx
    · exact ih h

/-- Only a new request changes the request number of a slot or takes a free slot. -/
theorem Sys.later_step {x : Act} (hx : x.isEnqueue = false) (hs : s.step E x = some s') :
    s.cli.Later s'.cli := by
  cases x with
  | enqueue reqType lkey msg => simp [Act.isEnqueue] at hx
  | answer i lkey msg =>
    obtain rfl := Option.some.inj hs
    exact Cli.Later.refl _
  | recvSrv preReq body =>
    unfold Sys.step at hs
    dsimp only at hs
    split at hs
    · simp at hs
    · obtain ⟨v, -, rfl⟩ := Option.map_eq_some_iff.mp hs
      exact ⟨fun _ => rfl, List.suffix_rfl⟩
  | recvCli stale =>
    unfold Sys.step at hs
    dsimp only at hs
    split at hs
    · simp at hs
    · obtain ⟨c, hc, rfl⟩ := Option.map_eq_some_iff.mp hs
      exact Cli.Later.recv hc
  | stall =>
    obtain ⟨c, hc, rfl⟩ := Option.map_eq_some_iff.mp hs
    obtain ⟨r, hr, rfl⟩ := Option.map_eq_some_iff.mp hc
    have hl := Cli.Later.stallLoop hr
    exact ⟨hl.reqNum, hl.free⟩

/-- **Every session can come to rest** without a new request. -/
theorem Reachable.exists_quiet (h : Reachable E s) :
    ∃ s', Reachable E s' ∧ s'.Quiet E ∧ s.cli.Later s'.cli := by
  induction hw : s.work using Nat.strong_induction_on generalizing s with
  | h m ih =>
    by_cases hq : s.Quiet E
    · exact ⟨s, h, hq, Cli.Later.refl _⟩
    · unfold Sys.Quiet at hq
      push Not at hq
      obtain ⟨x, s₁, hen, hs, hx, hne⟩ := hq
      obtain ⟨xs, hrun⟩ := h
      have h₁ : Reachable E s₁ := ⟨xs ++ [x], hrun.snoc hen hs⟩
      -- an action that is not a new request and changes the state gets work done
      obtain ⟨s₂, hs₂, -, hcase⟩ := (Reachable.inv ⟨xs, hrun⟩).step hen
      obtain rfl : s₁ = s₂ := Option.some.inj (hs.symm.trans hs₂)
      rcases hcase with he | hlt | ⟨-, hsame, -⟩
      · exact absurd he hx
      · obtain ⟨s', hr', hq', hl'⟩ := ih s₁.work (hw ▸ hlt) h₁ rfl
        exact ⟨s', hr', hq', (Sys.later_step (by simpa using hx) hs).trans hl'⟩
      · exact absurd hsame hne

/-! ## Many requests on slot 0 -/

theorem quiet_sample (h : Reachable sampleEnv s) (hq : s.Quiet sampleEnv) :
    s.cli.credits = kSessionCredits ∧ ∀ i < kSessionReqWindow, ¬ s.Active i :=
  h.inv.quiet_idle hq fun _ _ _ => rfl

/-- A new request takes the free slot `i`. -/
theorem Sys.enqueue_fields {xs : List ℕ} {reqType lkey : ℕ} {msg : TxMsg}
    (hfree : s.cli.freeVec = i :: xs) (hs : s.step E (.enqueue reqType lkey msg) = some s') :
    s'.cli.freeVec = xs ∧
      (s'.cli.slots i).curReqNum = (s.cli.slots i).curReqNum + kSessionReqWindow := by
  obtain ⟨c, hc, rfl⟩ := Option.map_eq_some_iff.mp hs
  unfold Cli.enqueueRequest at hc
  rw [hfree] at hc
  dsimp only at hc
  split_ifs at hc with hcred
  · obtain ⟨x, hx, rfl⟩ := Option.map_eq_some_iff.mp hc
    refine ⟨rfl, ?_⟩
    show ((Cli.put _ i x).slots i).curReqNum = _
    rw [Cli.put_slots_self, kickReq_curReqNum hx]
    exact congrArg CliSlot.curReqNum (Function.update_self i _ s.cli.slots)
  · obtain rfl := Option.some.inj hc
    exact ⟨rfl, congrArg CliSlot.curReqNum (Function.update_self i _ s.cli.slots)⟩

/-- With a credit at hand the first packet of the request is sent. -/
theorem Sys.enqueue_first {xs : List ℕ} {reqType lkey : ℕ} {msg : TxMsg}
    (hfree : s.cli.freeVec = i :: xs) (hpos : 0 < s.cli.credits) (htx : s.cli.tx = [])
    (hs : s.step E (.enqueue reqType lkey msg) = some s') :
    ∃ rest, s'.cli.tx = (msg.fill .request ⟨reqType, E.cli.remoteSessionNum,
      (s.cli.slots i).curReqNum + kSessionReqWindow, lkey⟩).pkts 0 :: rest := by
  obtain ⟨c, hc, rfl⟩ := Option.map_eq_some_iff.mp hs
  unfold Cli.enqueueRequest at hc
  rw [hfree] at hc
  dsimp only at hc
  rw [if_pos hpos] at hc
  obtain ⟨x, hx, rfl⟩ := Option.map_eq_some_iff.mp hc
  set b := msg.fill .request ⟨reqType, E.cli.remoteSessionNum,
    (s.cli.slots i).curReqNum + kSessionReqWindow, lkey⟩ with hb
  have hslot := Function.update_self i
    (Cli.fillSlot E.cli reqType lkey msg s.next (s.cli.slots i)) s.cli.slots
  have htot : b.hdr0.totalPkt = msg.totalPkt := msg.hdr0_totalPkt _ _
  have hpos' := msg.pos
  have hlt := msg.lt
  have hkick := kickReq_eq (c := ⟨s.cli.credits, s.cli.ok,
    Cli.fillSlot E.cli reqType lkey msg s.next (s.cli.slots i), s.cli.tx⟩) (b := b) rfl hpos
    (Nat.zero_le _) (by rw [htot]; unfold pkgIndexSize at hlt; omega)
  replace hx : kickReq ⟨s.cli.credits, s.cli.ok, Function.update s.cli.slots i
    (Cli.fillSlot E.cli reqType lkey msg s.next (s.cli.slots i)) i, s.cli.tx⟩ = some x := hx
  rw [hslot, hkick] at hx
  obtain rfl := Option.some.inj hx
  show ∃ rest, s.cli.tx ++ (List.range' 0 (min s.cli.credits (b.hdr0.totalPkt - 0))).map b.pkts = _
  rw [htot, htx, show min s.cli.credits (msg.totalPkt - 0)
    = (min s.cli.credits msg.totalPkt - 1) + 1 by omega, List.range'_succ, List.map_cons]
  exact ⟨_, rfl⟩

/-- A list without repetition that ends in `ys` and has one more element than `ys`. -/
theorem eq_cons_of_suffix {α : Type*} {x : α} {xs ys : List α} (hs : ys <:+ xs) (hxs : xs.Nodup)
    (hmem : ∀ y, y ∈ xs ↔ y ∈ x :: ys) (hx : x ∉ ys) : xs = x :: ys := by
  obtain ⟨zs, rfl⟩ := hs
  obtain ⟨hzs, -, hdisj⟩ := List.nodup_append'.mp hxs
  have hall : ∀ z ∈ zs, z = x := by
    intro z hz
    rcases List.mem_cons.mp ((hmem z).mp (List.mem_append_left _ hz)) with hzx | hzy
    · exact hzx
    · exact absurd hzy (hdisj hz)
  have hin : x ∈ zs := by
    rcases List.mem_append.mp ((hmem x).mpr List.mem_cons_self) with hz | hy
    · exact hz
    · exact absurd hy hx
  have hzs' : zs = [x] := by
    rw [List.eq_replicate_of_mem hall] at hzs hin ⊢
    rw [List.nodup_replicate] at hzs
    rw [List.mem_replicate] at hin
    rw [show zs.length = 1 by omega]
    rfl
  rw [hzs']
  rfl

/-- Any number of requests can be made on slot 0, one after the other: a slot that was just
given up is the next to be taken. -/
theorem exists_many (k : ℕ) : ∃ s xs, Reachable sampleEnv s ∧ s.Quiet sampleEnv ∧
    s.cli.freeVec = 0 :: xs ∧ (s.cli.slots 0).curReqNum = kSessionReqWindow * k := by
  induction k with
  | zero =>
    obtain ⟨s, hs, hq, hl⟩ := Reachable.exists_quiet (E := sampleEnv) ⟨[], Run.nil⟩
    have hfree : s.cli.freeVec = List.range kSessionReqWindow := by
      obtain ⟨zs, hz⟩ := hl.free
      have hlen : s.cli.freeVec.length ≤ kSessionReqWindow := by
        have hsub : s.cli.freeVec ⊆ List.range kSessionReqWindow := fun i hi =>
          List.mem_range.mpr ((hs.inv.books.tickets.mem_free i).mp hi).1
        have := (hs.inv.books.tickets.freeNodup.subperm hsub).length_le
        rwa [List.length_range] at this
      have hzlen := congrArg List.length hz
      rw [List.length_append, show Sys.init.cli.freeVec = List.range kSessionReqWindow from rfl,
        List.length_range] at hzlen
      obtain rfl := List.length_eq_zero_iff.mp (show zs.length = 0 by omega)
      exact hz.symm
    exact ⟨s, _, hs, hq, hfree, hl.reqNum 0⟩
  | succ k ih =>
    obtain ⟨s, xs, ⟨as, hrun⟩, hq, hfree, hnum⟩ := ih
    have hen : s.Enabled (.enqueue 1 0 default) := by
      show s.cli.freeVec ≠ []
      rw [hfree]
      exact List.cons_ne_nil _ _
    obtain ⟨s₁, hs₁, -⟩ := (Reachable.inv ⟨as, hrun⟩).step hen
    obtain ⟨hfree₁, hnum₁⟩ := Sys.enqueue_fields hfree hs₁
    obtain ⟨s₂, hs₂, hq₂, hl⟩ := Reachable.exists_quiet (E := sampleEnv)
      ⟨_, hrun.snoc hen hs₁⟩
    -- all slots are free before and after
    have hfree₂ : s₂.cli.freeVec = 0 :: xs := by
      have hbook := (Reachable.inv ⟨as, hrun⟩).books.tickets
      have hbook₂ := hs₂.inv.books.tickets
      have hnd := hbook.freeNodup
      rw [hfree, List.nodup_cons] at hnd
      refine eq_cons_of_suffix (hfree₁ ▸ hl.free) hbook₂.freeNodup (fun i => ?_) hnd.1
      rw [← hfree, hbook.mem_free, hbook₂.mem_free]
      have hidle := (quiet_sample ⟨as, hrun⟩ hq).2 i
      have hidle₂ := (quiet_sample hs₂ hq₂).2 i
      constructor
      · exact fun hi => ⟨hi.1, hidle hi.1⟩
      · exact fun hi => ⟨hi.1, hidle₂ hi.1⟩
    refine ⟨s₂, xs, hs₂, hq₂, hfree₂, ?_⟩
    rw [hl.reqNum, hnum₁, hnum, Nat.mul_succ]

/-- Nothing is in flight when no slot has a request. -/
theorem Inv.cli_tx_nil (h : Inv E s) (hidle : ∀ i < kSessionReqWindow, ¬ s.Active i) :
    s.cli.tx = [] := by
  cases htx : s.cli.tx with
  | nil => rfl
  | cons p rest =>
    have hup : (s.view (slotOf p.hdr)).up ≠ [] := by
      show ofSlot _ s.cli.tx ≠ []
      rw [htx, ofSlot_cons_self rfl]
      exact List.cons_ne_nil _ _
    obtain ⟨a, q, b, hcore, -⟩ := (h.base.slot _ (slotOf_lt p.hdr)).running_of_up hup
    exact absurd (Sys.active_of_core hcore) (hidle _ (slotOf_lt p.hdr))

/-- Request `k + 1` of slot 0 is on its way, and nothing else is. -/
theorem exists_first_packet (k : ℕ) : ∃ s p rest, Reachable sampleEnv s ∧ s.cli.tx = p :: rest ∧
    p.hdr.pktType = .kReq ∧ p.hdr.pktNum = 0 ∧
    p.hdr.reqNum = kSessionReqWindow * (k + 1) % 2 ^ 32 ∧
    (s.cli.slots 0).curReqNum = kSessionReqWindow * (k + 1) := by
  obtain ⟨s, xs, hs, hq, hfree, hnum⟩ := exists_many k
  obtain ⟨hcred, hidle⟩ := quiet_sample hs hq
  have hen : s.Enabled (.enqueue 1 0 default) := by
    show s.cli.freeVec ≠ []
    rw [hfree]
    exact List.cons_ne_nil _ _
  obtain ⟨s₁, hs₁, -⟩ := hs.inv.step hen
  obtain ⟨rest, htx⟩ := Sys.enqueue_first hfree (by rw [hcred]; decide) (hs.inv.cli_tx_nil hidle) hs₁
  obtain ⟨-, hnum₁⟩ := Sys.enqueue_fields hfree hs₁
  obtain ⟨as, hrun⟩ := hs
  refine ⟨s₁, _, rest, ⟨_, hrun.snoc hen hs₁⟩, htx, rfl, rfl, ?_, ?_⟩
  · rw [TxMsg.fill_reqNum, hnum, Nat.mul_succ]
  · rw [hnum₁, hnum, Nat.mul_succ]

/-- The second request of slot 0 passes the test. -/
theorem next_request_expected_sample : ∃ s p rest, Reachable sampleEnv s ∧ s.cli.tx = p :: rest ∧
    p.hdr.reqNum = 64 ∧ isFirstPktNextReq (s.srv.slots (slotOf p.hdr)) p.hdr := by
  obtain ⟨s, p, rest, hs, htx, htype, hnum, hreq, hcur⟩ := exists_first_packet 1
  have hslot : slotOf p.hdr = 0 := by
    unfold slotOf
    rw [hreq]
    decide
  refine ⟨s, p, rest, hs, htx, hreq, ?_⟩
  have hiff := (next_request_expected_iff sampleEnv s hs htx htype hnum).2
  rw [hslot] at hiff ⊢
  exact hiff.mpr (by rw [hcur]; decide)

/-- Request `2 ^ 27` of slot 0 has the number `2 ^ 32`, which is 0 in the header, and the server
waits for `2 ^ 32`. -/
theorem next_request_unexpected : ∃ s p rest, Reachable sampleEnv s ∧ s.cli.tx = p :: rest ∧
    p.hdr.pktType = .kReq ∧ p.hdr.pktNum = 0 ∧ slotOf p.hdr = 0 ∧
    (s.cli.slots 0).curReqNum = 2 ^ 32 ∧ p.hdr.reqNum = 0 ∧
    (s.srv.slots 0).curReqNum + kSessionReqWindow = 2 ^ 32 ∧
    ¬ isFirstPktNextReq (s.srv.slots 0) p.hdr := by
  obtain ⟨s, p, rest, hs, htx, htype, hnum, hreq, hcur⟩ := exists_first_packet (2 ^ 27 - 1)
  have hreq0 : p.hdr.reqNum = 0 := hreq
  have hslot : slotOf p.hdr = 0 := by
    unfold slotOf
    rw [hreq0]
    rfl
  have hcur' : (s.cli.slots 0).curReqNum = 2 ^ 32 := hcur
  obtain ⟨-, n, hcli, -, hsrv⟩ := hs.inv.first_packet htx htype hnum
  rw [hslot] at hcli hsrv
  refine ⟨s, p, rest, hs, htx, htype, hnum, hslot, hcur', hreq0, ?_, ?_⟩
  · omega
  · rintro ⟨htest, -⟩
    rw [hreq0] at htest
    exact absurd htest (by unfold kSessionReqWindow; omega)

end HuiRpc
