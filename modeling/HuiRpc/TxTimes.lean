/-
# The transmit time of the packet that triggered an answer

`update_timely_rate` takes the transmit time of entry `pkt_num_ % 32` for a received packet.

* `TsInv.stamp` — a request packet that the server has got and whose answer has not been processed
  finds its own time in the table: there are no more than 32 such packets, so no later one has the
  same entry;
* `TsInv.read_iff` — which received packets read the time of the packet that triggered them;
* `timestamps_match_iff` — the same for whole RPCs: response packets are numbered from 0 again,
  and no time is recorded for RFRs;
* `timestamps_mixed` — a request of two packets whose response reads the time of packet 0.
-/
import HuiRpc.TxStamps

namespace HuiRpc

open Runs

variable {E : Env} {s s' : Sys} {i j : ℕ}

/-! ## The time of a packet -/

section Stamps

variable {u : TsSys} {k a q b : ℕ}

/-- The entry of a packet of the client. -/
theorem Core.tsEntry_cliPkt (h : Core E (s.view i) a q b)
    (hi : (s.cli.slots i).curReqNum % kSessionReqWindow = i)
    (hk : k < (s.trace i).N + (s.trace i).M - 1) :
    tsEntry ((s.trace i).cliPkt E k).hdr
      = if k < (s.trace i).N then some (i, k % kSessionCredits) else none := by
  have hslot : slotOf ((s.trace i).cliPkt E k).hdr = i := by
    unfold slotOf
    rw [Trace.cliPkt_reqNum, mod_window, show (s.trace i).args.reqNum = _ from h.reqNum]
    exact hi
  unfold tsEntry
  rw [Trace.cliPkt_type]
  split_ifs with hN
  · show some (slotOf _, ((s.trace i).cliPkt E k).hdr.pktNum % kSessionCredits) = _
    rw [hslot, Trace.cliPkt_num E hk, if_pos hN]
  · rfl

/-- Of the packets that a slot put into the batch, those that the server got have left it. -/
theorem TsInv.flushed (h : TsInv E u) (hcore : Core E (u.sys.view i) a q b) (ha : 0 < a) :
    ∃ older cur, ((u.burst.map Stamp.item).filter fun x => slotOf x.hdr = i) = older ++ cur ∧
      a ≤ cur.length ∧ cur.map BatchItem.hdr <+: (u.sys.trace i).cliSent ∧
      ∀ x ∈ cur, x.tag = (u.sys.cli.slots i).tag := by
  obtain ⟨older, cur, hits, hhdr, htag⟩ := h.sent i
  have hlen : cur.length = (u.sys.cli.slots i).numTx := by
    have hl := congrArg List.length hhdr
    rw [show (u.sys.trace i).cliSent = _ from hcore.cliSent, List.length_map, List.length_map,
      length_seg] at hl
    exact hl
  have hle : a ≤ (u.sys.cli.slots i).numTx := hcore.s_le
  -- what is still in the batch is in the channel
  have hrest : (u.batch.filter fun x => slotOf x.hdr = i).length
      ≤ (u.sys.cli.slots i).numTx - a := by
    have hsuf := (h.batch.filter fun x => decide (slotOf x = i)).length_le
    rw [List.filter_map, List.filter_map, List.length_map, List.length_map] at hsuf
    have hup := congrArg List.length (show ofSlot i u.sys.cli.tx = _ from hcore.up)
    rw [length_seg] at hup
    exact hsuf.trans (le_of_eq hup)
  -- the packets of the request end the list of all packets of the slot; the boundary between what
  -- left the batch and what is in it cannot lie before them, since `a > 0` of them have left
  unfold TsSys.items at hits
  rw [List.filter_append] at hits
  rcases List.append_eq_append_iff.mp hits with ⟨mid, -, hmid⟩ | ⟨mid, hmid, hcur⟩
  · have := congrArg List.length hmid
    rw [List.length_append] at this
    omega
  · refine ⟨older, mid, hmid, ?_, ?_, fun x hx => htag x (by rw [hcur]; simp [hx])⟩
    · have := congrArg List.length hcur
      rw [List.length_append] at this
      omega
    · rw [← hhdr, hcur, List.map_append]
      exact List.prefix_append _ _

/-- **The time of an outstanding request packet** that the server has got. -/
theorem TsInv.stamp (h : TsInv E u) (hi : i < kSessionReqWindow)
    (hcore : Core E (u.sys.view i) a q b) (hka : k < a) (hkN : k < (u.sys.trace i).N)
    (hout : (u.sys.cli.slots i).numTx ≤ k + kSessionCredits) :
    ∃ st, u.txTs i (k % kSessionCredits) = some st ∧
      st.item = ⟨((u.sys.trace i).cliPkt E k).hdr, (u.sys.cli.slots i).tag⟩ := by
  obtain ⟨older, cur, hburst, hlen, hpre, htag⟩ := h.flushed hcore (by omega)
  have hnum := (h.inv.base.slot i hi).num
  have hnumTx := hcore.numTx_le
  have hsent : (u.sys.trace i).cliSent = _ := hcore.cliSent
  -- packet `m` of the request, among those that left the batch
  have hget : ∀ m (hm : m < cur.length), cur[m].hdr = ((u.sys.trace i).cliPkt E m).hdr ∧
      m < (u.sys.cli.slots i).numTx := by
    intro m hm
    have hm' : m < (cur.map BatchItem.hdr).length := by rwa [List.length_map]
    have hmlt := lt_of_lt_of_le hm' hpre.length_le
    rw [hsent, List.length_map, length_seg] at hmlt
    have hx := hpre.getElem hm'
    rw [List.getElem_map] at hx
    refine ⟨hx.trans ?_, hmlt⟩
    simp only [hsent]
    simp [seg, Sys.view]
  have hkc : k < cur.length := by omega
  -- the stamp of packet `k`, and those that were taken after it
  have hsplit : (u.burst.filter fun x => slotOf x.item.hdr = i).map Stamp.item
      = (older ++ cur.take k) ++ cur[k] :: cur.drop (k + 1) := by
    rw [List.append_assoc, List.getElem_cons_drop, List.take_append_drop, ← hburst,
      List.filter_map]
    rfl
  obtain ⟨before, rest, hsts, -, hrest⟩ := List.map_eq_append_iff.mp hsplit
  obtain ⟨st, later, rfl, hst, hlater⟩ := List.map_eq_cons_iff.mp hrest
  have hentry : ∀ m (hm : m < cur.length), tsEntry cur[m].hdr
      = if m < (u.sys.trace i).N then some (i, m % kSessionCredits) else none := by
    intro m hm
    obtain ⟨hx, hmlt⟩ := hget m hm
    rw [hx]
    exact hcore.tsEntry_cliPkt hnum (lt_of_lt_of_le hmlt hnumTx)
  refine ⟨st, ?_, ?_⟩
  · rw [h.table, TsTable.foldl_write_slot, hsts]
    apply TsTable.foldl_write_last
    · rw [hst, hentry k hkc, if_pos hkN]
    · intro x hx
      have hx' : x.item ∈ cur.drop (k + 1) := hlater ▸ List.mem_map_of_mem hx
      obtain ⟨m, hm, hxm⟩ := List.mem_iff_getElem.mp hx'
      rw [List.length_drop] at hm
      rw [List.getElem_drop] at hxm
      have hmlt := (hget (k + 1 + m) (by omega)).2
      rw [← hxm, hentry (k + 1 + m) (by omega)]
      split_ifs with hN
      · -- fewer than 32 packets later, so in another entry
        intro heq
        have hmod := (Prod.mk.inj (Option.some.inj heq)).2
        unfold kSessionCredits at hmod hout
        omega
      · simp
  · have hxk := (hget k hkc).1
    have hxt := htag cur[k] (List.getElem_mem hkc)
    rw [hst]
    cases hck : cur[k] with
    | mk hdr tag =>
      rw [hck] at hxk hxt
      rw [show hdr = _ from hxk, show tag = _ from hxt]

end Stamps

/-! ## The time that is read -/

/-- A credit return, or a first response packet whose entry is that of the last request packet. -/
def Read.Harmless (r : Read) : Prop :=
  r.hdr.pktType = .kExplCR ∨ (r.hdr.pktNum = 0 ∧ (r.reqPkts - 1) % kSessionCredits = 0)

section Reads

variable {u u' : TsSys} {p : WirePkt} {rest : List WirePkt}

/-- A time in the entry that is read was taken for a request packet of this entry. -/
theorem TsInv.read_entry {st : Stamp} (h : TsInv E u) (hst : (u.readFor p).stamp = some st) :
    st.item.hdr.pktType = .kReq ∧
      st.item.hdr.pktNum % kSessionCredits = p.hdr.pktNum % kSessionCredits := by
  change u.txTs (slotOf p.hdr) (p.hdr.pktNum % kSessionCredits) = some st at hst
  rw [h.table] at hst
  exact (TsTable.slotOf_of_tsEntry (TsTable.foldl_write_entry hst)).2

/-- The next packet to be answered is at most 32 packets behind `num_tx_`. -/
theorem Inv.outstanding_le {t : Sys} {i a q b : ℕ} (h : Inv E t) (hi : i < kSessionReqWindow)
    (hcore : Core E (t.view i) a q b) : (t.cli.slots i).numTx ≤ b + kSessionCredits := by
  have hcr := h.base.credits_add_le hi
  rw [show (t.trace i).unacked = _ from hcore.unacked] at hcr
  have hview : (t.view i).cs.numTx = (t.cli.slots i).numTx := rfl
  omega

/-- The time of request packet `b`, if this is the entry that is read. -/
theorem TsInv.read_own {a q b : ℕ} (h : TsInv E u) (hcore : Core E (u.sys.view (slotOf p.hdr)) a q b)
    (hbq : b < q) (hbN : b < (u.sys.trace (slotOf p.hdr)).N)
    (hmod : p.hdr.pktNum % kSessionCredits = b % kSessionCredits) :
    ∃ st, (u.readFor p).stamp = some st ∧ st.item.tag = (u.readFor p).tag ∧
      st.item.hdr.pktType = .kReq ∧ st.item.hdr.pktNum = b := by
  have hlt := slotOf_lt p.hdr
  have hunf : b < (u.sys.trace (slotOf p.hdr)).N + (u.sys.trace (slotOf p.hdr)).M - 1 :=
    hcore.unfinished
  obtain ⟨st, hst, hitem⟩ := h.stamp hlt hcore (lt_of_lt_of_le hbq hcore.q_le) hbN
    (h.inv.outstanding_le hlt hcore)
  refine ⟨st, ?_, ?_, ?_, ?_⟩
  · show u.txTs (slotOf p.hdr) (p.hdr.pktNum % kSessionCredits) = some st
    rw [hmod, hst]
  · rw [hitem]
    rfl
  · rw [hitem]
    show ((u.sys.trace (slotOf p.hdr)).cliPkt E b).hdr.pktType = _
    rw [Trace.cliPkt_type, if_pos hbN]
  · rw [hitem]
    show ((u.sys.trace (slotOf p.hdr)).cliPkt E b).hdr.pktNum = _
    rw [Trace.cliPkt_num E hunf, if_pos hbN]

/-- **Which packets read the time of the packet that triggered them.** -/
theorem TsInv.read_iff (h : TsInv E u) (htx : u.sys.srv.tx = p :: rest) :
    (u.readFor p).Right ↔ (u.readFor p).Harmless := by
  obtain ⟨a, q, b, hcore, hbq, hpb, -⟩ := h.inv.next_answer rfl htx
  set i := slotOf p.hdr with hi
  have hunf : b < (u.sys.trace i).N + (u.sys.trace i).M - 1 := hcore.unfinished
  have hty : p.hdr.pktType = if b + 1 < (u.sys.trace i).N then .kExplCR else .kResp := by
    rw [hpb]
    exact Trace.srvPkt_type E _ b
  have hnum : p.hdr.pktNum = if b + 1 < (u.sys.trace i).N then b else b + 1 - (u.sys.trace i).N := by
    rw [hpb]
    exact Trace.srvPkt_num E hunf
  have hhdr : (u.readFor p).hdr = p.hdr := rfl
  have hreq : (u.readFor p).reqPkts = (u.sys.trace i).N := rfl
  unfold Read.Right Read.Harmless Triggers
  rw [hhdr, hreq]
  rcases Nat.lt_trichotomy (b + 1) (u.sys.trace i).N with hlast | hlast | hlast
  · -- a credit return
    rw [if_pos hlast] at hty hnum
    obtain ⟨st, hst, htag, hreqty, hreqnum⟩ := h.read_own hcore hbq
      (show b < (u.sys.trace i).N by omega) (by rw [hnum])
    refine iff_of_true ⟨st, hst, htag, ?_⟩ (Or.inl hty)
    rw [hty]
    exact ⟨hreqty, by rw [hreqnum, hnum]⟩
  · -- the first response packet
    rw [if_neg (by omega)] at hty hnum
    have hzero : p.hdr.pktNum = 0 := by omega
    simp only [hty, hzero, reduceCtorEq, false_or, true_and]
    constructor
    · rintro ⟨st, hst, -, -, hst1⟩
      have hmod := (h.read_entry hst).2
      rw [hzero, Nat.zero_mod] at hmod
      rw [← hst1, Nat.add_sub_cancel, hmod]
    · intro hmod
      have hentry : p.hdr.pktNum % kSessionCredits = b % kSessionCredits := by
        rw [hzero, Nat.zero_mod, show b = (u.sys.trace i).N - 1 by omega, hmod]
      obtain ⟨st, hst, htag, hreqty, hreqnum⟩ := h.read_own hcore hbq
        (show b < (u.sys.trace i).N by omega) hentry
      exact ⟨st, hst, htag, hreqty, by rw [hreqnum, hlast]⟩
  · -- a later response packet, triggered by an RFR
    rw [if_neg (by omega)] at hty hnum
    have hne : p.hdr.pktNum ≠ 0 := by omega
    simp only [hty, reduceCtorEq, false_or, hne, false_and, iff_false]
    rintro ⟨st, hst, -, hst1, -⟩
    rw [(h.read_entry hst).1] at hst1
    cases hst1

/-! ## The reads of an RPC -/

/-- The reads with tag `tag` are those for the packets that the RPC `t` received. -/
def ReadsOf (rs : List Read) (tag : ℕ) (t : Trace) : Prop :=
  (rs.filter fun r => r.tag = tag).map (fun r => (r.hdr, r.reqPkts))
    = t.cliRcvd.map fun h => (h, t.N)

structure ReadsInv (u : TsSys) : Prop where
  right : ∀ r ∈ u.reads, r.Right ↔ r.Harmless
  below : ∀ r ∈ u.reads, r.tag < u.sys.next
  active : ∀ i < kSessionReqWindow, u.sys.Active i →
    ReadsOf u.reads (u.sys.cli.slots i).tag (u.sys.trace i)
  done : ∀ d ∈ u.sys.done, ReadsOf u.reads d.tag d.trace

theorem ReadsInv.init : ReadsInv TsSys.init where
  right := fun _ hr => absurd hr List.not_mem_nil
  below := fun _ hr => absurd hr List.not_mem_nil
  active := fun i _ ha => absurd ha (Sys.not_active_init i)
  done := fun _ hd => absurd hd List.not_mem_nil

theorem Sys.Goes.N {got : List Pkthdr} (hg : s.Goes s' j got) :
    (s'.trace j).N = (s.trace j).N := congrArg TxMsg.totalPkt hg.req

/-- A slot that goes on without a packet. -/
theorem ReadsOf.goes {rs : List Read} (h : ReadsOf rs (s.cli.slots j).tag (s.trace j))
    (hg : s.Goes s' j []) : ReadsOf rs (s'.cli.slots j).tag (s'.trace j) := by
  unfold ReadsOf at h ⊢
  rw [hg.tag, hg.cliRcvd, hg.N, List.append_nil]
  exact h

/-- A read for another RPC. -/
theorem ReadsOf.other {rs : List Read} {r : Read} {tag : ℕ} {t : Trace} (h : ReadsOf rs tag t)
    (hne : r.tag ≠ tag) : ReadsOf (rs ++ [r]) tag t := by
  unfold ReadsOf at h ⊢
  rw [List.filter_append, List.filter_singleton, decide_eq_false hne]
  simpa using h

/-- A read for the RPC. -/
theorem ReadsOf.own {rs : List Read} {r : Read} {tag : ℕ} {t t' : Trace} (h : ReadsOf rs tag t)
    (htag : r.tag = tag) (hrcvd : t'.cliRcvd = t.cliRcvd ++ [r.hdr]) (hN : t'.N = t.N)
    (hr : r.reqPkts = t.N) : ReadsOf (rs ++ [r]) tag t' := by
  unfold ReadsOf at h ⊢
  rw [List.filter_append, List.filter_singleton, decide_eq_true htag, List.map_append, h, hrcvd,
    List.map_append, hN]
  show _ ++ [(r.hdr, r.reqPkts)] = _
  rw [hr]
  rfl

/-- A step without a packet at the client, in which no slot starts. -/
theorem ReadsInv.quiet {t : Sys} {b : List BatchItem} (h : ReadsInv u) (hdone : t.done = u.sys.done)
    (hnext : t.next = u.sys.next) (hgo : ∀ j, u.sys.Goes t j []) :
    ReadsInv { u with sys := t, batch := b } where
  right := h.right
  below := hnext ▸ h.below
  active := fun j hj ha => (h.active j hj ((hgo j).active ha)).goes (hgo j)
  done := hdone ▸ h.done

/-- A new request: nothing was read for its tag. -/
theorem ReadsInv.start {t : Sys} {b : List BatchItem} (h : ReadsInv u) (hdone : t.done = u.sys.done)
    (hnext : t.next = u.sys.next + 1) (hstart : u.sys.Starts t i)
    (hgo : ∀ j, j ≠ i → u.sys.Goes t j []) : ReadsInv { u with sys := t, batch := b } where
  right := h.right
  below := by
    intro r hr
    show r.tag < t.next
    have hlt := h.below r hr
    omega
  active := by
    intro j hj ha
    by_cases hji : j = i
    · subst hji
      show ReadsOf u.reads (t.cli.slots j).tag (t.trace j)
      unfold ReadsOf
      have hnone : (u.reads.filter fun r => r.tag = u.sys.next) = [] := by
        apply List.filter_eq_nil_iff.mpr
        intro r hr htag
        rw [decide_eq_true_eq] at htag
        exact absurd (h.below r hr) (by omega)
      rw [hstart.tag, hstart.cliRcvd, hnone]
      rfl
    · exact (h.active j hj ((hgo j hji).active ha)).goes (hgo j hji)
  done := hdone ▸ h.done

/-- **A packet at the client** adds a read for the RPC of its slot. -/
theorem ReadsInv.recvCli {stale : ℕ → UInt8} {t : Sys} {b : List BatchItem} (h : ReadsInv u)
    (hts : TsInv E u) (hs : u.sys.step E (.recvCli stale) = some t) :
    ReadsInv { u with sys := t, batch := b, reads := u.reads ++ u.newReads (.recvCli stale) } := by
  obtain ⟨p, rest, htx, -, hnext, hgo, hdone⟩ := Sys.recvCli_goes hs
  obtain ⟨a, q, m, hcore, -⟩ := hts.inv.next_answer rfl htx
  have hact : u.sys.Active (slotOf p.hdr) := Sys.active_of_core hcore
  have hi := slotOf_lt p.hdr
  have htick := hts.inv.books.tickets
  have hnew : u.newReads (.recvCli stale) = [u.readFor p] := by
    show (u.sys.srv.tx.take 1).map u.readFor = _
    rw [htx]
    rfl
  have hpgo := hgo (slotOf p.hdr)
  unfold gotBy at hpgo
  rw [if_pos rfl] at hpgo
  have hown : ReadsOf (u.reads ++ [u.readFor p]) (u.sys.cli.slots (slotOf p.hdr)).tag
      (t.trace (slotOf p.hdr)) :=
    (h.active _ hi hact).own rfl hpgo.cliRcvd hpgo.N rfl
  rw [hnew]
  refine ⟨?_, ?_, ?_, ?_⟩
  · intro r hr
    rcases List.mem_append.mp hr with hr | hr
    · exact h.right r hr
    · rw [List.mem_singleton.mp hr]
      exact hts.read_iff htx
  · intro r hr
    show r.tag < t.next
    rw [hnext]
    rcases List.mem_append.mp hr with hr | hr
    · exact h.below r hr
    · rw [List.mem_singleton.mp hr]
      exact htick.tag_lt _ hi hact
  · intro j hj ha
    by_cases hji : j = slotOf p.hdr
    · subst hji
      show ReadsOf _ (t.cli.slots (slotOf p.hdr)).tag _
      rw [hpgo.tag]
      exact hown
    · have hjgo := hgo j
      unfold gotBy at hjgo
      rw [if_neg hji] at hjgo
      have hja := hjgo.active ha
      refine ReadsOf.goes ((h.active j hj hja).other ?_) hjgo
      exact fun htag => hji (htick.tag_inj _ _ hj hi hja hact htag.symm)
  · intro d hd
    rcases hdone d hd with hold | ⟨htag, htrace⟩
    · refine (h.done d hold).other ?_
      intro htag
      have hmem : d.tag ∈ u.sys.done.map Done.tag := List.mem_map_of_mem hold
      rw [← htag] at hmem
      exact htick.tag_new _ hi hact hmem
    · rw [htag, htrace]
      exact hown

theorem ReadsInv.step {a : TsAct} (h : ReadsInv u) (hts : TsInv E u) (hg : u.Enabled a)
    (hs : u.step E a = some u') : ReadsInv u' := by
  cases a with
  | burst tscs =>
    obtain rfl := Option.some.inj hs
    exact ⟨h.right, h.below, h.active, h.done⟩
  | sys a =>
    obtain ⟨t, ht, rfl⟩ := Option.map_eq_some_iff.mp hs
    cases a with
    | enqueue reqType lkey msg =>
      obtain ⟨-, hdone, hnext, i, hstart, hgo⟩ := Sys.enqueue_goes hg ht
      rw [show u.newReads (.enqueue reqType lkey msg) = [] from rfl, List.append_nil]
      exact h.start hdone hnext hstart hgo
    | recvCli stale => exact h.recvCli hts ht
    | answer i lkey msg =>
      obtain ⟨-, hdone, hnext, hgo⟩ := Sys.answer_goes ht
      rw [show u.newReads (.answer i lkey msg) = [] from rfl, List.append_nil]
      exact h.quiet hdone hnext hgo
    | recvSrv preReq body =>
      obtain ⟨-, hdone, hnext, hgo⟩ := Sys.recvSrv_goes ht
      rw [show u.newReads (.recvSrv preReq body) = [] from rfl, List.append_nil]
      exact h.quiet hdone hnext hgo
    | stall =>
      obtain ⟨-, hdone, hnext, hgo⟩ := Sys.stall_goes ht
      rw [show u.newReads .stall = [] from rfl, List.append_nil]
      exact h.quiet hdone hnext hgo

end Reads

/-! ## The main result -/

theorem TsInv.of_run {as : List TsAct} {u : TsSys}
    (h : Run TsSys.Enabled (TsSys.step E) TsSys.init as u) : TsInv E u ∧ ReadsInv u := by
  refine h.invariant (P := fun u => TsInv E u ∧ ReadsInv u) ⟨TsInv.init E, ReadsInv.init⟩ ?_
  rintro u a u' ⟨hts, hreads⟩ hg hs
  exact ⟨hts.step hg hs, hreads.step hts hg hs⟩

/-- All packets of a finished RPC are harmless if it has one response packet, and its request
fills its last round through the table with one packet. -/
theorem Done.Ok.harmless_iff {d : Done} (hd : d.Ok E) {rs : List Read}
    (hrs : ReadsOf rs d.tag d.trace) :
    (∀ r ∈ rs, r.tag = d.tag → r.Harmless) ↔
      d.trace.M = 1 ∧ (d.trace.N - 1) % kSessionCredits = 0 := by
  have hpos := d.trace.N_pos
  have hM := d.trace.M_pos
  -- the reads are those for the packets `Q 0, …` of the server
  have hmem : ∀ h n, (h, n) ∈ (rs.filter fun r => r.tag = d.tag).map (fun r => (r.hdr, r.reqPkts))
      ↔ (∃ k < d.trace.N + d.trace.M - 1, (d.trace.srvPkt E k).hdr = h) ∧ n = d.trace.N := by
    intro h n
    rw [show _ = _ from hrs, hd.cliRcvd, List.map_map, map_seg, mem_seg]
    constructor
    · rintro ⟨k, -, hk, heq⟩
      obtain ⟨h1, h2⟩ := Prod.mk.inj heq
      exact ⟨⟨k, hk, h1⟩, h2.symm⟩
    · rintro ⟨⟨k, hk, rfl⟩, rfl⟩
      exact ⟨k, Nat.zero_le _, hk, rfl⟩
  constructor
  · intro hall
    -- the packet `Q (N + M - 2)` is the last response packet
    obtain ⟨r, hr, hrh⟩ := List.mem_map.mp ((hmem _ _).mpr
      ⟨⟨d.trace.N + d.trace.M - 2, by omega, rfl⟩, rfl⟩)
    obtain ⟨hr, htag⟩ := List.mem_filter.mp hr
    obtain ⟨hhdr, hN⟩ := Prod.mk.inj hrh
    have hharm := hall r hr (of_decide_eq_true htag)
    unfold Read.Harmless at hharm
    rw [hhdr, hN, Trace.srvPkt_type, Trace.srvPkt_num E (by omega), if_neg (by omega),
      if_neg (by omega)] at hharm
    rcases hharm with hcr | ⟨hzero, hmod⟩
    · cases hcr
    · exact ⟨by omega, hmod⟩
  · rintro ⟨hone, hmod⟩ r hr htag
    obtain ⟨⟨k, hk, hkr⟩, hN⟩ := (hmem r.hdr r.reqPkts).mp
      (List.mem_map.mpr ⟨r, List.mem_filter.mpr ⟨hr, decide_eq_true htag⟩, rfl⟩)
    unfold Read.Harmless
    rw [← hkr, hN, Trace.srvPkt_type, Trace.srvPkt_num E hk]
    by_cases hlast : k + 1 < d.trace.N
    · exact Or.inl (if_pos hlast)
    · refine Or.inr ⟨?_, hmod⟩
      rw [if_neg hlast]
      omega

/-- **Timestamps.**  In every run of a session with congestion control, with any number of packets
either way and bursts at any time: `update_timely_rate` is called for the packets that an RPC
receives.  A call gets the time of the packet that triggered the received one if this is a credit
return, or the first response packet to a request of `1`, `33`, `65`, … packets, and only then.  So
all calls for a finished RPC get the right times exactly if its request has such a number of packets
and its response is one packet. -/
theorem timestamps_match_iff (E : Env) (as : List TsAct) (u : TsSys)
    (h : Run TsSys.Enabled (TsSys.step E) TsSys.init as u) :
    (∀ r ∈ u.reads, r.Right ↔ r.Harmless) ∧
    ∀ d ∈ u.sys.done,
      (u.reads.filter fun r => r.tag = d.tag).map Read.hdr = d.trace.cliRcvd ∧
      ((∀ r ∈ u.reads, r.tag = d.tag → r.Right) ↔
        d.trace.M = 1 ∧ (d.trace.N - 1) % kSessionCredits = 0) := by
  obtain ⟨hts, hreads⟩ := TsInv.of_run h
  refine ⟨hreads.right, fun d hd => ⟨?_, ?_⟩⟩
  · have hrs := congrArg (List.map Prod.fst) (hreads.done d hd)
    rw [List.map_map, List.map_map] at hrs
    exact hrs.trans (List.map_id _)
  · rw [← (hts.inv.books.done d hd).harmless_iff (hreads.done d hd)]
    constructor
    · intro hall r hr htag
      exact (hreads.right r hr).mp (hall r hr htag)
    · intro hall r hr htag
      exact (hreads.right r hr).mpr (hall r hr htag)

/-- An RPC of one packet either way, with a burst after each of the client's packets. -/
def sampleTimed : List TsAct :=
  [.sys (.enqueue 1 0 default), .burst [100], .sys (.recvSrv 0 4096), .sys (.answer 0 0 default),
    .sys (.recvCli fun _ => 0)]

/-- The only call for a small RPC gets the right time. -/
theorem timestamps_match_small : ∃ u, Run TsSys.Enabled (TsSys.step sampleEnv) TsSys.init
    sampleTimed u ∧ u.reads.length = 1 ∧ u.sys.done.map Done.tag = [0] ∧
      ∀ d ∈ u.sys.done, d.trace.N = 1 ∧ d.trace.M = 1 ∧
        ∀ r ∈ u.reads, r.tag = d.tag → r.Right := by
  have hexec : ((exec TsSys.Enabled (TsSys.step sampleEnv) TsSys.init sampleTimed).map
      fun u => (u.reads.length, u.sys.done.map Done.tag,
        u.sys.done.map fun d => (d.trace.N, d.trace.M))) = some (1, [0], [(1, 1)]) := by
    decide +kernel
  obtain ⟨u, hu, hval⟩ := Option.map_eq_some_iff.mp hexec
  have hrun := run_of_exec hu
  obtain ⟨hreads, hrest⟩ := Prod.mk.inj hval
  obtain ⟨htags, hNM⟩ := Prod.mk.inj hrest
  refine ⟨u, hrun, hreads, htags, fun d hd => ?_⟩
  have hmem : (d.trace.N, d.trace.M) ∈ [(1, 1)] := hNM ▸ List.mem_map_of_mem hd
  rw [List.mem_singleton, Prod.mk.injEq] at hmem
  refine ⟨hmem.1, hmem.2, ?_⟩
  apply (((timestamps_match_iff sampleEnv _ u hrun).2 d hd).2).mpr
  rw [hmem.1, hmem.2]
  exact ⟨rfl, rfl⟩

/-- An RPC with a request of two packets and a response of one. -/
def sampleMixed : List TsAct :=
  [.sys (.enqueue 1 0 twoPkts), .burst [100, 200], .sys (.recvSrv 0 4096), .sys (.recvSrv 0 8192),
    .sys (.answer 0 0 default), .sys (.recvCli fun _ => 0), .sys (.recvCli fun _ => 0)]

/-- Request packets 0 and 1 leave at times 100 and 200.  The response is triggered by packet 1, and
`update_timely_rate` reads 100 for it. -/
theorem timestamps_mixed : ∃ u, Run TsSys.Enabled (TsSys.step sampleEnv) TsSys.init sampleMixed u ∧
    (u.txTs 0 1).map Stamp.tsc = some 200 ∧
    ∃ r ∈ u.reads, r.hdr.pktType = .kResp ∧ r.stamp.map Stamp.tsc = some 100 ∧ ¬ r.Right := by
  have hexec : ((exec TsSys.Enabled (TsSys.step sampleEnv) TsSys.init sampleMixed).map
      fun u => (u.txTs 0 1).map Stamp.tsc) = some (some 200) := by
    decide +kernel
  have hhdr : ((exec TsSys.Enabled (TsSys.step sampleEnv) TsSys.init sampleMixed).map
      fun u => u.reads[1]?.map fun r => (r.hdr.pktType, r.hdr.pktNum, r.reqPkts))
      = some (some (.kResp, 0, 2)) := by
    decide +kernel
  have hstamp : ((exec TsSys.Enabled (TsSys.step sampleEnv) TsSys.init sampleMixed).map
      fun u => u.reads[1]?.bind fun r => r.stamp.map fun st => (st.tsc, st.item.hdr.pktNum))
      = some (some (100, 0)) := by
    decide +kernel
  obtain ⟨u, hu, hts⟩ := Option.map_eq_some_iff.mp hexec
  rw [hu, Option.map_some, Option.some.injEq] at hhdr hstamp
  obtain ⟨r, hr, hrval⟩ := Option.map_eq_some_iff.mp hhdr
  rw [hr, Option.bind_some, Option.map_eq_some_iff] at hstamp
  simp only [Prod.mk.injEq] at hrval hstamp
  obtain ⟨hty, hnum, hreq⟩ := hrval
  obtain ⟨st, hst, htsc, hpkt⟩ := hstamp
  refine ⟨u, run_of_exec hu, hts, r, List.mem_of_getElem? hr, hty, by rw [hst, Option.map_some, htsc], ?_⟩
  rintro ⟨st', hst', -, htrig⟩
  obtain rfl := Option.some.inj (hst.symm.trans hst')
  unfold Triggers at htrig
  rw [hty, hnum, hreq, hpkt] at htrig
  exact absurd htrig.2 (by decide)

end HuiRpc
