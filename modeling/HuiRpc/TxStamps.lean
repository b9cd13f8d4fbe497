/-
# Transmit timestamps

With congestion control enabled, a client slot keeps the transmit times of its packets in
`tx_ts_`, a table of `kSessionCredits` entries.  `kick_req_st` hands `&tx_ts_[num_tx_ % 32]` to
the TX batch with every request packet, and `do_tx_burst_st` writes the time through it; RFRs go
without a pointer.  For a received credit return or response packet, `update_timely_rate` reads
entry `pkt_num_ % 32`.

The session of `HuiRpc.Session` is run with the TX batch and the table.  A packet of the client
can be received once it has left the batch.

* `TsTable.foldl_write_last` — an entry holds the last time written to it;
* `Sys.Goes`, `Sys.Starts` — what a step of the session does to the traces of its slots;
* `TsInv` — how the table, the batch and the channel belong together, in every run.
-/
import HuiRpc.ClientOrder

namespace HuiRpc

open Runs

/-! ## The table -/

/-- The entry of `tx_ts_` that is handed to the TX batch with a packet of the client, as the
number of its slot and its index.  The number of a request packet is `num_tx_`, see
`kickReq_tsEntry`. -/
def tsEntry (h : Pkthdr) : Option (ℕ × ℕ) :=
  match h.pktType with
  | .kReq => some (slotOf h, h.pktNum % kSessionCredits)
  | .kRFR => none
  | .kExplCR => none
  | .kResp => none

/-- A packet in the TX batch, with the tag of its request. -/
structure BatchItem where
  hdr : Pkthdr
  tag : ℕ

/-- A time, with the packet it was taken for. -/
structure Stamp where
  tsc : ℕ
  item : BatchItem

/-- `tx_ts_` of all slots.  An entry that was never written is `none`. -/
abbrev TsTable := ℕ → ℕ → Option Stamp

/-- The write of `do_tx_burst_st` for one packet. -/
def TsTable.write (tbl : TsTable) (st : Stamp) : TsTable :=
  match tsEntry st.item.hdr with
  | none => tbl
  | some (i, k) => Function.update tbl i (Function.update (tbl i) k (some st))

/-- The value that `update_timely_rate` gets for a packet of slot `i`. -/
def updateTimelyRate (tbl : TsTable) (i pktNum : ℕ) : Option Stamp := tbl i (pktNum % kSessionCredits)

/-- The packet of the client that makes the server send `q`, for a request of `n` packets: the
request packet of a credit return, the last request packet for the first response packet, and an
RFR for every other. -/
def Triggers (n : ℕ) (p q : Pkthdr) : Prop :=
  match q.pktType with
  | .kExplCR => p.pktType = .kReq ∧ p.pktNum = q.pktNum
  | .kResp =>
      if q.pktNum = 0 then p.pktType = .kReq ∧ p.pktNum + 1 = n
      else p.pktType = .kRFR ∧ p.pktNum = q.pktNum
  | .kReq => False
  | .kRFR => False

/-- A call of `update_timely_rate`: for which request, of how many packets, the packet received
and the value read. -/
structure Read where
  tag : ℕ
  reqPkts : ℕ
  hdr : Pkthdr
  stamp : Option Stamp

/-- The value is the time recorded for the packet that triggered the received one. -/
def Read.Right (r : Read) : Prop :=
  ∃ st, r.stamp = some st ∧ st.item.tag = r.tag ∧ Triggers r.reqPkts st.item.hdr r.hdr

/-! ## The session with its TX batch -/

/-- The session, the TX batch of the client and the table.  `burst` lists all packets that left
the batch, and `reads` the calls of `update_timely_rate`. -/
structure TsSys where
  sys : Sys
  batch : List BatchItem
  txTs : TsTable
  burst : List Stamp
  reads : List Read

/-- Either a step of the session, or a burst with the times taken for the packets, one for each. -/
inductive TsAct
  | sys (a : Act)
  | burst (tscs : List ℕ)

namespace TsSys

def init : TsSys := ⟨Sys.init, [], fun _ _ => none, [], []⟩

/-- What a handler of the client put into the batch. -/
def newItems (c c' : Cli) : List BatchItem :=
  (c'.tx.drop c.tx.length).map fun p => ⟨p.hdr, (c'.slots (slotOf p.hdr)).tag⟩

/-- The call of `update_timely_rate` for the received packet `p`. -/
def readFor (s : TsSys) (p : WirePkt) : Read :=
  ⟨(s.sys.cli.slots (slotOf p.hdr)).tag, (s.sys.trace (slotOf p.hdr)).N, p.hdr,
    updateTimelyRate s.txTs (slotOf p.hdr) p.hdr.pktNum⟩

/-- The calls of `update_timely_rate` in a step.  They come before the handler sends. -/
def newReads (s : TsSys) : Act → List Read
  | .recvCli _ => (s.sys.srv.tx.take 1).map s.readFor
  | .enqueue _ _ _ => []
  | .answer _ _ _ => []
  | .recvSrv _ _ => []
  | .stall => []

/-- The server only gets packets that left the batch.  A burst in the middle of a handler, when
the batch is full, takes the first packets of what the handler enqueued. -/
def Enabled (s : TsSys) : TsAct → Prop
  | .sys (.recvSrv preReq body) =>
      s.sys.Enabled (.recvSrv preReq body) ∧ s.batch.length < s.sys.cli.tx.length
  | .sys a => s.sys.Enabled a
  | .burst tscs => tscs.length ≤ s.batch.length

instance (s : TsSys) (a : TsAct) : Decidable (s.Enabled a) :=
  match a with
  | .sys (.recvSrv _ _) => inferInstanceAs (Decidable (_ ∧ _))
  | .sys (.enqueue t l m) => inferInstanceAs (Decidable (s.sys.Enabled (.enqueue t l m)))
  | .sys (.answer i l m) => inferInstanceAs (Decidable (s.sys.Enabled (.answer i l m)))
  | .sys (.recvCli st) => inferInstanceAs (Decidable (s.sys.Enabled (.recvCli st)))
  | .sys .stall => inferInstanceAs (Decidable (s.sys.Enabled .stall))
  | .burst _ => inferInstanceAs (Decidable (_ ≤ _))

/-- The stamps of a burst. -/
def stamps (s : TsSys) (tscs : List ℕ) : List Stamp := List.zipWith Stamp.mk tscs s.batch

def step (E : Env) (s : TsSys) : TsAct → Option TsSys
  | .sys a => (s.sys.step E a).map fun t =>
      { s with
        sys := t
        batch := s.batch ++ newItems s.sys.cli t.cli
        reads := s.reads ++ s.newReads a }
  | .burst tscs => some { s with
      batch := s.batch.drop tscs.length
      txTs := (s.stamps tscs).foldl TsTable.write s.txTs
      burst := s.burst ++ s.stamps tscs }

/-- All packets that were put into the batch. -/
def items (s : TsSys) : List BatchItem := s.burst.map Stamp.item ++ s.batch

end TsSys

/-! ## What the kicks hand over -/

/-- **`kick_req_st`** hands over the entries from `num_tx_` on. -/
theorem kickReq_tsEntry {x x' : CliCtx} {t : TxMsg} {a : SendArgs} {i : ℕ}
    (hbuf : x.slot.txMsgbuf = some (t.fill .request a)) (hnum : a.reqNum % kSessionReqWindow = i)
    (hpos : 0 < x.credits) (htx : x.slot.numTx ≤ t.totalPkt) (hk : kickReq x = some x') :
    ∃ n ps, x'.tx = x.tx ++ ps ∧ x'.slot.numTx = x.slot.numTx + n ∧
      ps.map (fun p => tsEntry p.hdr)
        = (List.range' x.slot.numTx n).map fun k => some (i, k % kSessionCredits) := by
  have htotal : (t.fill .request a).hdr0.totalPkt = t.totalPkt := t.hdr0_totalPkt ..
  have hlt := t.lt
  unfold pkgIndexSize at hlt
  rw [kickReq_eq hbuf hpos (by omega) (by omega), Option.some.injEq] at hk
  subst hk
  refine ⟨_, _, rfl, rfl, ?_⟩
  rw [List.map_map]
  apply List.map_congr_left
  intro k hk
  rw [List.mem_range'_1] at hk
  have hslot : slotOf ((t.fill .request a).pkts k).hdr = i := by
    unfold slotOf
    rw [t.fill_reqNum, mod_window, hnum]
  show some (slotOf _, ((t.fill .request a).pkts k).hdr.pktNum % kSessionCredits) = _
  rw [hslot, t.fill_pktNum _ _ _ (by omega)]

/-! ## What the table holds -/

namespace TsTable

variable {tbl tbl' : TsTable} {st : Stamp} {sts : List Stamp} {i k : ℕ}

theorem write_of_entry (h : tsEntry st.item.hdr = some (i, k)) : tbl.write st i k = some st := by
  unfold write
  rw [h]
  simp

theorem write_of_ne (h : tsEntry st.item.hdr ≠ some (i, k)) : tbl.write st i k = tbl i k := by
  unfold write
  cases he : tsEntry st.item.hdr with
  | none => rfl
  | some e =>
    obtain ⟨j, m⟩ := e
    show Function.update tbl j (Function.update (tbl j) m (some st)) i k = _
    by_cases hj : i = j
    · subst hj
      have hm : k ≠ m := by
        rintro rfl
        exact h he
      rw [Function.update_self, Function.update_of_ne hm]
    · rw [Function.update_of_ne hj]

/-- The entry of a packet is one of its slot. -/
theorem slotOf_of_tsEntry {h : Pkthdr} (he : tsEntry h = some (i, k)) :
    slotOf h = i ∧ h.pktType = .kReq ∧ h.pktNum % kSessionCredits = k := by
  unfold tsEntry at he
  split at he
  · rename_i hty
    obtain ⟨h1, h2⟩ := Prod.mk.inj (Option.some.inj he)
    exact ⟨h1, hty, h2⟩
  all_goals cases he

/-- An entry holds the last time written to it. -/
theorem foldl_write_last {later : List Stamp} (h : tsEntry st.item.hdr = some (i, k))
    (hlater : ∀ x ∈ later, tsEntry x.item.hdr ≠ some (i, k)) :
    ((sts ++ st :: later).foldl write tbl) i k = some st := by
  induction later using List.reverseRecOn with
  | nil =>
    rw [List.foldl_append]
    exact write_of_entry h
  | append_singleton later x ih =>
    rw [← List.cons_append, ← List.append_assoc, List.foldl_append]
    show TsTable.write _ x i k = _
    rw [write_of_ne (hlater x (by simp))]
    exact ih fun y hy => hlater y (by simp [hy])

/-- A time in the table was written there. -/
theorem foldl_write_entry (h : (sts.foldl write fun _ _ => none) i k = some st) :
    tsEntry st.item.hdr = some (i, k) := by
  induction sts using List.reverseRecOn with
  | nil => cases h
  | append_singleton sts x ih =>
    rw [List.foldl_append] at h
    change TsTable.write _ x i k = some st at h
    by_cases hx : tsEntry x.item.hdr = some (i, k)
    · rw [write_of_entry hx, Option.some.injEq] at h
      exact h ▸ hx
    · rw [write_of_ne hx] at h
      exact ih h

/-- What a slot's part of the table holds depends on the packets of the slot only. -/
theorem foldl_write_slot (tbl : TsTable) (sts : List Stamp) (i k : ℕ) :
    (sts.foldl write tbl) i k
      = ((sts.filter fun x => slotOf x.item.hdr = i).foldl write tbl) i k := by
  induction sts using List.reverseRecOn with
  | nil => rfl
  | append_singleton sts x ih =>
    rw [List.foldl_append, List.filter_append, List.foldl_append]
    show TsTable.write _ x i k = _
    by_cases hx : tsEntry x.item.hdr = some (i, k)
    · have hslot : slotOf x.item.hdr = i := (slotOf_of_tsEntry hx).1
      rw [write_of_entry hx, List.filter_singleton, hslot, decide_eq_true rfl]
      exact (write_of_entry hx).symm
    · rw [write_of_ne hx, ih, List.filter_singleton]
      cases decide (slotOf x.item.hdr = i) with
      | true => exact (write_of_ne hx).symm
      | false => rfl

end TsTable

/-! ## What a step does to a slot -/

variable {E : Env} {s s' : Sys} {i j : ℕ}

/-- Slot `j` goes on with its request and receives the packets `got`. -/
structure Sys.Goes (s s' : Sys) (j : ℕ) (got : List Pkthdr) : Prop where
  active : s'.Active j → s.Active j
  tag : (s'.cli.slots j).tag = (s.cli.slots j).tag
  req : (s'.trace j).req = (s.trace j).req
  cliSent : (s'.trace j).cliSent = (s.trace j).cliSent ++ newHdrs j s.cli.tx s'.cli.tx
  cliRcvd : (s'.trace j).cliRcvd = (s.trace j).cliRcvd ++ got

/-- Slot `j` starts with a new request. -/
structure Sys.Starts (s s' : Sys) (j : ℕ) : Prop where
  tag : (s'.cli.slots j).tag = s.next
  cliSent : (s'.trace j).cliSent = newHdrs j s.cli.tx s'.cli.tx
  cliRcvd : (s'.trace j).cliRcvd = []

theorem newHdrs_self (j : ℕ) (ps : List WirePkt) : newHdrs j ps ps = [] := by
  simp [newHdrs, ofSlot]

/-- A request packet, RFR or answer changes nothing at the client but its channel. -/
theorem Sys.recvSrv_goes {preReq body : ℕ} (hs : s.step E (.recvSrv preReq body) = some s') :
    (∃ p, s.cli.tx = p :: s'.cli.tx) ∧ s'.done = s.done ∧ s'.next = s.next ∧
      ∀ j, s.Goes s' j [] := by
  cases htx : s.cli.tx with
  | nil => simp only [Sys.step, htx, reduceCtorEq] at hs
  | cons p rest =>
    simp only [Sys.step, htx] at hs
    obtain ⟨v, -, rfl⟩ := Option.map_eq_some_iff.mp hs
    refine ⟨⟨p, rfl⟩, rfl, rfl, fun j => ?_⟩
    have hnew : newHdrs j s.cli.tx rest = [] := by
      unfold newHdrs
      rw [htx, List.length_cons, List.drop_eq_nil_of_le (Nat.le_succ _)]
      rfl
    -- only the counter of handler calls is written for the packet's slot
    by_cases hj : j = slotOf p.hdr
    · subst hj
      refine ⟨id, rfl, ?_, ?_, ?_⟩ <;> dsimp only <;> rw [Function.update_self]
      · rfl
      · show _ ++ newHdrs _ s.cli.tx s.cli.tx = _ ++ newHdrs _ s.cli.tx rest
        rw [newHdrs_self, hnew]
      · exact (List.append_nil _).symm
    · refine ⟨id, rfl, ?_, ?_, ?_⟩ <;> dsimp only <;> rw [Function.update_of_ne hj]
      · rfl
      · show _ ++ newHdrs _ s.cli.tx s.cli.tx = _ ++ newHdrs _ s.cli.tx rest
        rw [newHdrs_self, hnew]
      · exact (List.append_nil _).symm

theorem Sys.answer_goes {lkey : ℕ} {msg : TxMsg} (hs : s.step E (.answer i lkey msg) = some s') :
    s'.cli = s.cli ∧ s'.done = s.done ∧ s'.next = s.next ∧ ∀ j, s.Goes s' j [] := by
  obtain rfl := Option.some.inj hs
  refine ⟨rfl, rfl, rfl, fun j => ?_⟩
  by_cases hj : j = i
  · subst hj
    refine ⟨id, rfl, ?_, ?_, ?_⟩ <;> dsimp only <;> rw [Function.update_self]
    · rfl
    · rfl
    · exact (List.append_nil _).symm
  · refine ⟨id, rfl, ?_, ?_, ?_⟩ <;> dsimp only <;> rw [Function.update_of_ne hj]
    · rfl
    · rfl
    · exact (List.append_nil _).symm

theorem Sys.stall_goes (hs : s.step E .stall = some s') :
    s.cli.tx <+: s'.cli.tx ∧ s'.done = s.done ∧ s'.next = s.next ∧ ∀ j, s.Goes s' j [] := by
  obtain ⟨c, hc, rfl⟩ := Option.map_eq_some_iff.mp hs
  obtain ⟨⟨c', kept⟩, hl, rfl⟩ := Option.map_eq_some_iff.mp hc
  have hsent := stallLoop_sentOn _ _ _ _ _ hl
  refine ⟨hsent.tx, rfl, rfl, fun j => ⟨?_, hsent.tag j, rfl, rfl, (List.append_nil _).symm⟩⟩
  intro hact
  have hbuf : (c'.slots j).txMsgbuf = (s.cli.slots j).txMsgbuf := (hsent.slot j).1
  unfold Sys.Active
  rw [← hbuf]
  exact hact

/-- The packets of a step that slot `j` receives. -/
def gotBy (p : WirePkt) (j : ℕ) : List Pkthdr := if j = slotOf p.hdr then [p.hdr] else []

/-- A packet at the client.  An RPC that it completes is that of the packet's slot. -/
theorem Sys.recvCli_goes {stale : ℕ → UInt8} (hs : s.step E (.recvCli stale) = some s') :
    ∃ p rest, s.srv.tx = p :: rest ∧ s.cli.tx <+: s'.cli.tx ∧ s'.next = s.next ∧
      (∀ j, s.Goes s' j (gotBy p j)) ∧
      ∀ d ∈ s'.done, d ∈ s.done ∨ (d.tag = (s.cli.slots (slotOf p.hdr)).tag ∧
        d.trace = s'.trace (slotOf p.hdr)) := by
  cases htx : s.srv.tx with
  | nil => simp only [Sys.step, htx, reduceCtorEq] at hs
  | cons p rest =>
    simp only [Sys.step, htx] at hs
    obtain ⟨c, hc, rfl⟩ := Option.map_eq_some_iff.mp hs
    obtain ⟨n, hr⟩ := Cli.recv_recvd hc
    refine ⟨p, rest, rfl, hr.tx, rfl, fun j => ?_, fun d hd => ?_⟩
    · by_cases hj : j = slotOf p.hdr
      · subst hj
        unfold gotBy
        rw [if_pos rfl]
        refine ⟨fun hact => ?_, hr.tag, ?_, ?_, ?_⟩
        · unfold Sys.Active at hact ⊢
          rcases hr.rest with ⟨hbuf, -⟩ | ⟨hbuf, -⟩
          · rw [← hbuf]
            exact hact
          · exact absurd hbuf hact
        all_goals dsimp only
        all_goals rw [Function.update_self]
        all_goals rfl
      · unfold gotBy
        rw [if_neg hj]
        have hslot := hr.others j hj
        refine ⟨(Sys.active_congr hslot).mp, congrArg CliSlot.tag hslot, ?_, ?_, ?_⟩
        all_goals dsimp only
        all_goals rw [Function.update_of_ne hj]
        · rfl
        · rfl
        · exact (List.append_nil _).symm
    · rcases List.mem_append.mp hd with hd | hd
      · exact Or.inl hd
      · right
        unfold Sys.completed at hd
        split_ifs at hd
        · rw [List.mem_singleton] at hd
          subst hd
          refine ⟨hr.tag, ?_⟩
          dsimp only
          rw [Function.update_self]
        · cases hd

theorem Sys.enqueue_goes {reqType lkey : ℕ} {msg : TxMsg} (hfree : s.cli.freeVec ≠ [])
    (hs : s.step E (.enqueue reqType lkey msg) = some s') :
    s.cli.tx <+: s'.cli.tx ∧ s'.done = s.done ∧ s'.next = s.next + 1 ∧
      ∃ i, s.Starts s' i ∧ ∀ j, j ≠ i → s.Goes s' j [] := by
  obtain ⟨i, rest, hi⟩ := List.exists_cons_of_ne_nil hfree
  obtain ⟨c, hc, rfl⟩ := Option.map_eq_some_iff.mp hs
  have hhead : s.cli.freeVec.headD 0 = i := by rw [hi]; rfl
  -- the slots with the new request, and the packets sent for it
  have hsent := Cli.enqueueRequest_sentOn hi hc
  refine ⟨hsent.tx, rfl, rfl, i, ⟨?_, ?_, ?_⟩, fun j hj => ⟨?_, ?_, ?_, ?_, ?_⟩⟩
  · refine (hsent.tag i).trans ?_
    dsimp only
    rw [Function.update_self]
    rfl
  · unfold Sys.log
    dsimp only
    rw [hhead, Function.update_self]
    rfl
  · unfold Sys.log
    dsimp only
    rw [hhead, Function.update_self]
    rfl
  · intro hact
    have hbuf := (hsent.slot j).1
    dsimp only at hbuf
    rw [Function.update_of_ne hj] at hbuf
    unfold Sys.Active at hact ⊢
    rw [← hbuf]
    exact hact
  · refine (hsent.tag j).trans ?_
    dsimp only
    rw [Function.update_of_ne hj]
  all_goals unfold Sys.log
  all_goals dsimp only
  all_goals rw [hhead, Function.update_of_ne hj]
  exact (List.append_nil _).symm

/-! ## The invariant of the table -/

/-- The last packets of slot `i` in `its` have the headers `hs` and the tag `tag`. -/
def EndsWith (its : List BatchItem) (i tag : ℕ) (hs : List Pkthdr) : Prop :=
  ∃ older cur, (its.filter fun x => slotOf x.hdr = i) = older ++ cur ∧
    cur.map BatchItem.hdr = hs ∧ ∀ x ∈ cur, x.tag = tag

/-- The table was written by the bursts, the batch holds packets that are last in the channel, and
the packets of a request are the last ones of their slot. -/
structure TsInv (E : Env) (s : TsSys) : Prop where
  inv : Inv E s.sys
  table : s.txTs = s.burst.foldl TsTable.write fun _ _ => none
  batch : s.batch.map BatchItem.hdr <:+ s.sys.cli.tx.map WirePkt.hdr
  sent : ∀ i, EndsWith s.items i (s.sys.cli.slots i).tag (s.sys.trace i).cliSent

theorem TsInv.init (E : Env) : TsInv E TsSys.init :=
  ⟨Inv.init E, rfl, List.suffix_refl _, fun _ => ⟨[], [], rfl, rfl, by simp⟩⟩

/-- The packets of slot `i` that a handler put into the batch. -/
theorem newItems_hdrs (c c' : Cli) (i : ℕ) :
    ((TsSys.newItems c c').filter fun x => slotOf x.hdr = i).map BatchItem.hdr
      = newHdrs i c.tx c'.tx := by
  unfold TsSys.newItems newHdrs ofSlot
  rw [List.filter_map, List.map_map]
  rfl

theorem newItems_tag {c c' : Cli} {x : BatchItem} (hx : x ∈ TsSys.newItems c c') :
    x.tag = (c'.slots (slotOf x.hdr)).tag := by
  obtain ⟨p, -, rfl⟩ := List.mem_map.mp hx
  rfl

/-- New packets of a slot that goes on. -/
theorem EndsWith.goes {its : List BatchItem} {got : List Pkthdr} (hg : s.Goes s' j got)
    (h : EndsWith its j (s.cli.slots j).tag (s.trace j).cliSent) :
    EndsWith (its ++ TsSys.newItems s.cli s'.cli) j (s'.cli.slots j).tag
      (s'.trace j).cliSent := by
  obtain ⟨older, cur, hits, hhdr, htag⟩ := h
  refine ⟨older, cur ++ (TsSys.newItems s.cli s'.cli).filter fun x => slotOf x.hdr = j, ?_, ?_, ?_⟩
  · rw [List.filter_append, hits, List.append_assoc]
  · rw [List.map_append, hhdr, newItems_hdrs, hg.cliSent]
  · intro x hx
    rcases List.mem_append.mp hx with hx | hx
    · rw [hg.tag]
      exact htag x hx
    · obtain ⟨hx, hslot⟩ := List.mem_filter.mp hx
      rw [decide_eq_true_eq] at hslot
      rw [newItems_tag hx, hslot]

/-- The first packets of a new request. -/
theorem EndsWith.starts (its : List BatchItem) (hs : s.Starts s' j) :
    EndsWith (its ++ TsSys.newItems s.cli s'.cli) j (s'.cli.slots j).tag
      (s'.trace j).cliSent := by
  refine ⟨its.filter fun x => slotOf x.hdr = j,
    (TsSys.newItems s.cli s'.cli).filter fun x => slotOf x.hdr = j, List.filter_append .., ?_, ?_⟩
  · rw [newItems_hdrs, hs.cliSent]
  · intro x hx
    obtain ⟨hx, hslot⟩ := List.mem_filter.mp hx
    rw [decide_eq_true_eq] at hslot
    rw [newItems_tag hx, hslot]

section Keeps

variable {u u' : TsSys}

/-- A handler of the client appends the same packets to the channel and to the batch. -/
theorem suffix_newItems {c c' : Cli} {b : List BatchItem} (htx : c.tx <+: c'.tx)
    (hb : b.map BatchItem.hdr <:+ c.tx.map WirePkt.hdr) :
    (b ++ TsSys.newItems c c').map BatchItem.hdr <:+ c'.tx.map WirePkt.hdr := by
  obtain ⟨new, hnew⟩ := htx
  obtain ⟨gone, hgone⟩ := hb
  refine ⟨gone, ?_⟩
  unfold TsSys.newItems
  rw [← hnew, List.drop_left, List.map_append, List.map_append, ← hgone, List.append_assoc,
    List.map_map]
  rfl

/-- No handler of the client ran. -/
theorem newItems_eq_nil {c c' : Cli} (h : c'.tx.length ≤ c.tx.length) :
    TsSys.newItems c c' = [] := by
  unfold TsSys.newItems
  rw [List.drop_eq_nil_of_le h]
  rfl

/-- **A step of the session keeps the invariant.** -/
theorem TsInv.sysStep {a : Act} (h : TsInv E u) (hg : u.Enabled (.sys a))
    (hs : u.step E (.sys a) = some u') : TsInv E u' := by
  obtain ⟨t, ht, rfl⟩ := Option.map_eq_some_iff.mp hs
  have hen : u.sys.Enabled a := by
    cases a with
    | recvSrv preReq body => exact hg.1
    | enqueue reqType lkey msg => exact hg
    | answer i lkey msg => exact hg
    | recvCli stale => exact hg
    | stall => exact hg
  obtain ⟨t', ht', hinv, -⟩ := h.inv.step hen
  obtain rfl := Option.some.inj (ht'.symm.trans ht)
  have hitems : ∀ rs, TsSys.items { u with
      sys := t', batch := u.batch ++ TsSys.newItems u.sys.cli t'.cli, reads := rs }
      = u.items ++ TsSys.newItems u.sys.cli t'.cli := fun _ => (List.append_assoc ..).symm
  refine ⟨hinv, h.table, ?_, ?_⟩
  · show (u.batch ++ TsSys.newItems u.sys.cli t'.cli).map BatchItem.hdr
      <:+ t'.cli.tx.map WirePkt.hdr
    cases a with
    | enqueue reqType lkey msg => exact suffix_newItems (Sys.enqueue_goes hen ht).1 h.batch
    | recvCli stale =>
      obtain ⟨p, rest, -, htx, -⟩ := Sys.recvCli_goes ht
      exact suffix_newItems htx h.batch
    | stall => exact suffix_newItems (Sys.stall_goes ht).1 h.batch
    | answer i lkey msg =>
      have hcli := (Sys.answer_goes ht).1
      exact suffix_newItems (by rw [hcli]) h.batch
    | recvSrv preReq body =>
      -- the packet that the server got is not in the batch any more
      obtain ⟨p, hp⟩ := (Sys.recvSrv_goes ht).1
      rw [newItems_eq_nil (by rw [hp]; exact Nat.le_succ _), List.append_nil]
      have hbatch := h.batch
      rw [hp, List.map_cons, List.suffix_cons_iff] at hbatch
      rcases hbatch with heq | hsuf
      · have hlen := congrArg List.length heq
        have hlt := hg.2
        rw [hp] at hlt
        simp only [List.length_map, List.length_cons] at hlen hlt
        omega
      · exact hsuf
  · intro j
    rw [hitems]
    cases a with
    | enqueue reqType lkey msg =>
      obtain ⟨-, -, -, i, hstart, hgo⟩ := Sys.enqueue_goes hen ht
      by_cases hj : j = i
      · rw [hj]
        exact EndsWith.starts u.items hstart
      · exact (h.sent j).goes (hgo j hj)
    | recvCli stale =>
      obtain ⟨p, rest, -, -, -, hgo, -⟩ := Sys.recvCli_goes ht
      exact (h.sent j).goes (hgo j)
    | stall => exact (h.sent j).goes ((Sys.stall_goes ht).2.2.2 j)
    | answer i lkey msg => exact (h.sent j).goes ((Sys.answer_goes ht).2.2.2 j)
    | recvSrv preReq body => exact (h.sent j).goes ((Sys.recvSrv_goes ht).2.2.2 j)

/-- The packets of a burst are the first ones of the batch. -/
theorem stamps_items (u : TsSys) (tscs : List ℕ) :
    (u.stamps tscs).map Stamp.item = u.batch.take tscs.length := by
  unfold TsSys.stamps
  rw [List.map_zipWith]
  show List.zipWith (fun _ x => x) tscs u.batch = _
  apply List.ext_getElem
  · simp
  · intro k h1 h2
    simp

/-- **A burst keeps the invariant.** -/
theorem TsInv.burst {tscs : List ℕ} (h : TsInv E u) (hs : u.step E (.burst tscs) = some u') :
    TsInv E u' := by
  obtain rfl := Option.some.inj hs
  have hitems : TsSys.items { u with
      batch := u.batch.drop tscs.length
      txTs := (u.stamps tscs).foldl TsTable.write u.txTs
      burst := u.burst ++ u.stamps tscs } = u.items := by
    unfold TsSys.items
    rw [List.map_append, stamps_items u tscs, List.append_assoc, List.take_append_drop]
  refine ⟨h.inv, ?_, ?_, ?_⟩
  · show (u.stamps tscs).foldl TsTable.write u.txTs = (u.burst ++ u.stamps tscs).foldl _ _
    rw [List.foldl_append, ← h.table]
  · show (u.batch.drop tscs.length).map BatchItem.hdr <:+ _
    rw [List.map_drop]
    exact (List.drop_suffix _ _).trans h.batch
  · intro j
    rw [hitems]
    exact h.sent j

theorem TsInv.step {a : TsAct} (h : TsInv E u) (hg : u.Enabled a) (hs : u.step E a = some u') :
    TsInv E u' := by
  cases a with
  | sys a => exact h.sysStep hg hs
  | burst tscs => exact h.burst hs

end Keeps

end HuiRpc
