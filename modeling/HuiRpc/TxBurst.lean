/-
# `tx_burst` and what the receiver reads

`IBTransport::tx_burst` writes one row of scatter-gather entries for every packet of a
burst: the header, then the payload iovecs of `get_n_data`, unless the header says that
the packet carries no byte.  The rows are `send_sgl[kPostlist][16]`, one array, filled in
order and posted together at the end: a longer row runs into the next one, and out of the
array at the last.

The receiving side takes the bytes of a ring entry as the header counts them; what lies
behind the received bytes is the rest of an older packet (`stale`).
-/
import HuiRpc.Pkthdr

namespace HuiRpc

/-! ## The scatter-gather rows -/

/-- Work requests of one burst. -/
def kPostlist : ℕ := 16

/-- Entries of one row of `send_sgl`. -/
def sglRow : ℕ := 16

/-- `tx_burst_item_t`: a message and one of its packets. -/
structure TxItem where
  msgBuffer : Serializer
  pktIdx : ℕ

/-- The entries that `tx_burst` stores for an item. -/
def sgeRow (hs : HdrStore) (it : TxItem) : List Iovec :=
  ⟨getNHdr it.msgBuffer it.pktIdx, sizeofPkthdr⟩ ::
    (if (hs (getNHdr it.msgBuffer it.pktIdx)).thisMsgSize ≠ 0 then
      getNData it.msgBuffer it.pktIdx else [])

/-- Consecutive stores `sgl[at + j] = row[j]`; `none` outside `send_sgl`. -/
def storeRow (sgl : ℕ → Iovec) : ℕ → List Iovec → Option (ℕ → Iovec)
  | _, [] => some sgl
  | i, v :: vs =>
      if i < kPostlist * sglRow then storeRow (Function.update sgl i v) (i + 1) vs else none

/-- The loop over the items of a burst, from row `i` on. -/
def fillRows (hs : HdrStore) : ℕ → List TxItem → (ℕ → Iovec) → Option (ℕ → Iovec)
  | _, [], sgl => some sgl
  | i, it :: its, sgl =>
      (storeRow sgl (i * sglRow) (sgeRow hs it)).bind fun sgl' => fillRows hs (i + 1) its sgl'

/-- What is posted for item `i`: `num_sge` entries from the start of its row. -/
def postedRow (hs : HdrStore) (sgl : ℕ → Iovec) (i : ℕ) (it : TxItem) : List Iovec :=
  (List.range (sgeRow hs it).length).map fun j => sgl (i * sglRow + j)

/-- `tx_burst`: the posted scatter-gather lists, one for each item. -/
def txBurst (hs : HdrStore) (sgl : ℕ → Iovec) (items : List TxItem) :
    Option (List (List Iovec)) :=
  (fillRows hs 0 items sgl).map fun sgl' => items.mapIdx fun i it => postedRow hs sgl' i it

theorem storeRow_spec (vs : List Iovec) : ∀ (sgl : ℕ → Iovec) (i : ℕ),
    i + vs.length ≤ kPostlist * sglRow →
    ∃ sgl', storeRow sgl i vs = some sgl' ∧ (∀ j, j < i → sgl' j = sgl j) ∧
      ∀ j, j < vs.length → vs[j]? = some (sgl' (i + j)) := by
  induction vs with
  | nil =>
    intro sgl i _
    exact ⟨sgl, rfl, fun _ _ => rfl, fun j hj => absurd hj (Nat.not_lt_zero j)⟩
  | cons v vs ih =>
    intro sgl i hlen
    rw [List.length_cons] at hlen
    obtain ⟨sgl', hs, hlow, hrow⟩ := ih (Function.update sgl i v) (i + 1) (by omega)
    refine ⟨sgl', ?_, ?_, ?_⟩
    · rw [storeRow, if_pos (by omega), hs]
    · intro j hj
      rw [hlow j (by omega), Function.update_of_ne (by omega)]
    · intro j hj
      cases j with
      | zero => rw [Nat.add_zero, hlow i (by omega), Function.update_self, List.getElem?_cons_zero]
      | succ j =>
        rw [List.length_cons] at hj
        rw [List.getElem?_cons_succ, hrow j (by omega), Nat.add_right_comm, Nat.add_assoc]

/-- A row that does not fit leaves `send_sgl`. -/
theorem storeRow_overflow (vs : List Iovec) : ∀ (sgl : ℕ → Iovec) (i : ℕ),
    i ≤ kPostlist * sglRow → kPostlist * sglRow < i + vs.length → storeRow sgl i vs = none := by
  induction vs with
  | nil =>
    intro sgl i hi hlen
    rw [List.length_nil] at hlen
    omega
  | cons v vs ih =>
    intro sgl i hi hlen
    rw [List.length_cons] at hlen
    rw [storeRow]
    split_ifs with h
    · exact ih _ _ (by omega) (by omega)
    · rfl

/-- Every row of a burst has room. -/
def RowsFit (hs : HdrStore) (items : List TxItem) : Prop :=
  ∀ it ∈ items, (sgeRow hs it).length ≤ sglRow

/-- Rows that fit are filled, and what was stored below them stays. -/
theorem fillRows_spec (hs : HdrStore) (items : List TxItem) : ∀ (sgl : ℕ → Iovec) (i : ℕ),
    i + items.length ≤ kPostlist → RowsFit hs items →
    ∃ sgl', fillRows hs i items sgl = some sgl' ∧ (∀ j, j < i * sglRow → sgl' j = sgl j) ∧
      ∀ k it, items[k]? = some it → postedRow hs sgl' (i + k) it = sgeRow hs it := by
  induction items with
  | nil =>
    intro sgl i _ _
    exact ⟨sgl, rfl, fun _ _ => rfl, fun k it hk => by simp at hk⟩
  | cons it its ih =>
    intro sgl i hlen hfit
    rw [List.length_cons] at hlen
    have hrow : (sgeRow hs it).length ≤ sglRow := hfit it (List.mem_cons_self ..)
    have hbound : (i + 1) * sglRow ≤ kPostlist * sglRow := Nat.mul_le_mul_right _ (by omega)
    rw [Nat.succ_mul] at hbound
    obtain ⟨sgl1, hs1, hlow1, hrow1⟩ := storeRow_spec (sgeRow hs it) sgl (i * sglRow) (by omega)
    obtain ⟨sgl2, hs2, hlow2, hrow2⟩ := ih sgl1 (i + 1) (by omega)
      fun x hx => hfit x (List.mem_cons_of_mem _ hx)
    rw [Nat.succ_mul] at hlow2
    refine ⟨sgl2, ?_, ?_, ?_⟩
    · rw [fillRows, hs1]
      exact hs2
    · intro j hj
      rw [hlow2 j (by omega), hlow1 j hj]
    · intro k x hk
      cases k with
      | zero =>
        -- the later rows lie above this one
        rw [List.getElem?_cons_zero, Option.some.injEq] at hk
        rw [← hk, Nat.add_zero]
        apply List.ext_getElem?
        intro j
        unfold postedRow
        by_cases hj : j < (sgeRow hs it).length
        · rw [List.getElem?_map, List.getElem?_range hj, hrow1 j hj, Option.map_some,
            hlow2 _ (by omega)]
        · rw [List.getElem?_eq_none (by simpa using hj), List.getElem?_eq_none (by omega)]
      | succ k =>
        have h := hrow2 k x hk
        rwa [Nat.add_right_comm, Nat.add_assoc] at h

/-- **A burst whose rows fit** posts for every item its header and its payload. -/
theorem txBurst_of_fit (hs : HdrStore) (sgl : ℕ → Iovec) (items : List TxItem)
    (hlen : items.length ≤ kPostlist) (hfit : RowsFit hs items) :
    txBurst hs sgl items = some (items.map (sgeRow hs)) := by
  obtain ⟨sgl', hfill, -, hrows⟩ := fillRows_spec hs items sgl 0 (by omega) hfit
  rw [txBurst, hfill, Option.map_some, Option.some.injEq]
  apply List.ext_getElem?
  intro k
  rw [List.getElem?_mapIdx, List.getElem?_map]
  cases hk : items[k]? with
  | none => rfl
  | some it =>
    have h := hrows k it hk
    rw [Nat.zero_add] at h
    rw [Option.map_some, Option.map_some, h]

/-- An item whose row fits, in a burst with others whose rows fit. -/
theorem txBurst_row {hs : HdrStore} {pre post : List TxItem} {it : TxItem} (hpre : RowsFit hs pre)
    (hrow : (sgeRow hs it).length ≤ sglRow) (hpost : RowsFit hs post)
    (hlen : pre.length + 1 + post.length ≤ kPostlist) (sgl : ℕ → Iovec) :
    ∃ rows, txBurst hs sgl (pre ++ it :: post) = some rows ∧
      rows[pre.length]? = some (sgeRow hs it) := by
  have hfit : RowsFit hs (pre ++ it :: post) :=
    List.forall_mem_append.mpr ⟨hpre, List.forall_mem_cons.mpr ⟨hrow, hpost⟩⟩
  refine ⟨_, txBurst_of_fit hs sgl _ ?_ hfit, ?_⟩
  · rw [List.length_append, List.length_cons]
    omega
  · rw [List.getElem?_map, List.getElem?_append_right le_rfl, Nat.sub_self,
      List.getElem?_cons_zero, Option.map_some]

/-- **The last row of a full burst.**  A packet with more entries than a row leaves
`send_sgl` there. -/
theorem txBurst_last_overflow (hs : HdrStore) (sgl : ℕ → Iovec) (pre : List TxItem) (it : TxItem)
    (hlen : pre.length + 1 = kPostlist) (hfit : RowsFit hs pre)
    (hrow : sglRow < (sgeRow hs it).length) : txBurst hs sgl (pre ++ [it]) = none := by
  have happ : ∀ (xs : List TxItem) (sgl : ℕ → Iovec) (i : ℕ),
      fillRows hs i (xs ++ [it]) sgl
        = (fillRows hs i xs sgl).bind fun sgl' => fillRows hs (i + xs.length) [it] sgl' := by
    intro xs
    induction xs with
    | nil => intro sgl i; rfl
    | cons x xs ih =>
      intro sgl i
      rw [List.cons_append, fillRows, fillRows]
      cases storeRow sgl (i * sglRow) (sgeRow hs x) with
      | none => rfl
      | some sgl' =>
        rw [Option.bind_some, Option.bind_some, ih, List.length_cons, Nat.add_assoc,
          Nat.add_comm 1]
  obtain ⟨sgl', hfill, -, -⟩ := fillRows_spec hs pre sgl 0 (by omega) hfit
  have hi : pre.length * sglRow + sglRow = kPostlist * sglRow := by rw [← hlen, Nat.succ_mul]
  rw [txBurst, happ, hfill, Option.bind_some, Nat.zero_add, fillRows,
    storeRow_overflow _ _ _ (by omega) (by omega)]
  rfl

/-! ## The wire and the receiver -/

/-- A packet on the wire. -/
structure WirePkt where
  hdr : Pkthdr
  payload : List UInt8

/-- The packet that a posted list sends: the header its first entry points at, and the
bytes of the others. -/
def wirePkt (m : Mem) (hs : HdrStore) (row : List Iovec) : WirePkt :=
  ⟨hs (row.headD default).iovBase, bytesOf m row.tail⟩

/-- `n` bytes read from a ring entry that a packet was received in. -/
def readBody (stale : ℕ → UInt8) (payload : List UInt8) (n : ℕ) : List UInt8 :=
  (List.range n).map fun j => payload.getD j (stale j)

@[simp] theorem length_readBody (stale : ℕ → UInt8) (payload : List UInt8) (n : ℕ) :
    (readBody stale payload n).length = n := by
  simp [readBody]

/-- A reader that takes as many bytes as were received gets what was sent. -/
theorem readBody_length (stale : ℕ → UInt8) (payload : List UInt8) :
    readBody stale payload payload.length = payload := by
  apply List.ext_getElem
  · simp
  · intro i h1 h2
    simp [readBody, h2]

/-- The response buffer of a client slot: whether its iovector is the empty one that
`process_resp_one_st` resets it to, the bytes copied to `new_buff` (`used_size` many), and
the length its only entry announces. -/
structure RespBuf where
  iovEmpty : Bool
  copied : List UInt8
  iovLen : ℕ
  deriving DecidableEq, Repr, Inhabited

/-- A response of one packet: the entry is the ring body itself. -/
def RespBuf.addSmall (h : Pkthdr) (data : List UInt8) : RespBuf :=
  ⟨false, data, h.thisMsgSize⟩

/-- A packet of a longer response: the first one allocates `msg_size_` bytes, the others
are copied behind what is there. -/
def RespBuf.addLarge (b : RespBuf) (h : Pkthdr) (data : List UInt8) : RespBuf :=
  let b := if h.pktNum = 0 then { b with iovEmpty := true } else b
  if b.iovEmpty then ⟨false, data, h.msgSize⟩ else { b with copied := b.copied ++ data }

/-- The bytes that the continuation reads: those announced, of which the copied ones are
defined. -/
def RespBuf.read (b : RespBuf) (junk : ℕ → UInt8) : List UInt8 :=
  readBody junk b.copied b.iovLen

/-- The bytes of packet `i` as its header counts them. -/
def pktData (stale : ℕ → ℕ → UInt8) (i : ℕ) (p : WirePkt) : List UInt8 :=
  readBody (stale i) p.payload p.hdr.thisMsgSize

/-- The request a handler reads: `process_small_req_st` takes `msg_size_` bytes of the only
packet, `process_large_req_one_st` lists the bodies of all packets. -/
def reqReceived (stale : ℕ → ℕ → UInt8) : List WirePkt → List UInt8
  | [] => []
  | p :: ps =>
      if p.hdr.msgSize ≤ kMaxDataPerPkt then readBody (stale 0) p.payload p.hdr.msgSize
      else ((p :: ps).mapIdx (pktData stale)).flatten

/-- The response a continuation reads, through the buffer of `process_resp_one_st`. -/
def respReceived (stale : ℕ → ℕ → UInt8) (junk : ℕ → UInt8) : List WirePkt → List UInt8
  | [] => []
  | p :: ps =>
      if p.hdr.msgSize ≤ kMaxDataPerPkt then
        (RespBuf.addSmall p.hdr (pktData stale 0 p)).read junk
      else
        (((p :: ps).mapIdx fun i (q : WirePkt) => (q.hdr, pktData stale i q)).foldl
          (fun (b : RespBuf) x => b.addLarge x.1 x.2) default).read junk

def received (kind : MsgKind) (stale : ℕ → ℕ → UInt8) (junk : ℕ → UInt8) (ps : List WirePkt) :
    List UInt8 :=
  match kind with
  | .request => reqReceived stale ps
  | .response => respReceived stale junk ps

/-! ### What the receiver makes of a list of packets -/

variable {stale : ℕ → ℕ → UInt8} {junk : ℕ → UInt8} {ps : List WirePkt}

/-- After its first packet a response buffer only grows. -/
theorem foldl_addLarge_tail (xs : List (Pkthdr × List UInt8)) (b : RespBuf)
    (hb : b.iovEmpty = false) (hnum : ∀ x ∈ xs, x.1.pktNum ≠ 0) :
    xs.foldl (fun (b : RespBuf) x => b.addLarge x.1 x.2) b
      = ⟨false, b.copied ++ xs.flatMap Prod.snd, b.iovLen⟩ := by
  induction xs generalizing b with
  | nil =>
    obtain ⟨e, c, l⟩ := b
    simp_all
  | cons x xs ih =>
    have hx : b.addLarge x.1 x.2 = ⟨false, b.copied ++ x.2, b.iovLen⟩ := by
      unfold RespBuf.addLarge
      rw [if_neg (hnum x (List.mem_cons_self ..))]
      simp only [hb, Bool.false_eq_true, if_false]
    rw [List.foldl_cons, hx, ih _ rfl fun y hy => hnum y (List.mem_cons_of_mem _ hy),
      List.flatMap_cons, List.append_assoc]

/-- **Response assembly.**  Packet 0 followed by packets of other numbers leaves the
concatenation, announced with the message size of packet 0. -/
theorem foldl_addLarge (x : Pkthdr × List UInt8) (xs : List (Pkthdr × List UInt8)) (b : RespBuf)
    (hx : x.1.pktNum = 0) (hnum : ∀ y ∈ xs, y.1.pktNum ≠ 0) :
    (x :: xs).foldl (fun (b : RespBuf) x => b.addLarge x.1 x.2) b
      = ⟨false, (x :: xs).flatMap Prod.snd, x.1.msgSize⟩ := by
  have hfirst : b.addLarge x.1 x.2 = ⟨false, x.2, x.1.msgSize⟩ := by
    unfold RespBuf.addLarge
    rw [if_pos hx]
    rfl
  rw [List.foldl_cons, hfirst, foldl_addLarge_tail _ _ rfl hnum, List.flatMap_cons]

/-- Packet 0 comes first and no other packet has its number. -/
def NumberedFrom0 (ps : List WirePkt) : Prop :=
  ∀ i p, ps[i]? = some p → (p.hdr.pktNum = 0 ↔ i = 0)

theorem respReceived_large (p : WirePkt) (ps : List WirePkt) (hnum : NumberedFrom0 (p :: ps))
    (hlarge : ¬ p.hdr.msgSize ≤ kMaxDataPerPkt) :
    respReceived stale junk (p :: ps)
      = readBody junk ((p :: ps).mapIdx (pktData stale)).flatten p.hdr.msgSize := by
  have hp : p.hdr.pktNum = 0 := (hnum 0 p rfl).mpr rfl
  rw [respReceived, if_neg hlarge, List.mapIdx_cons, foldl_addLarge _ _ _ hp]
  · rw [RespBuf.read, ← List.mapIdx_cons (f := fun i (q : WirePkt) => (q.hdr, pktData stale i q)),
      List.flatMap_def]
    have hsnd : ((p :: ps).mapIdx fun i (q : WirePkt) => (q.hdr, pktData stale i q)).map Prod.snd
        = (p :: ps).mapIdx (pktData stale) := by
      apply List.ext_getElem?
      intro i
      rw [List.getElem?_map, List.getElem?_mapIdx, List.getElem?_mapIdx, Option.map_map]
      rfl
    rw [hsnd]
  · intro y hy
    obtain ⟨i, hi, rfl⟩ := List.getElem_of_mem hy
    rw [List.length_mapIdx] at hi
    rw [List.getElem_mapIdx]
    intro h0
    have := (hnum (i + 1) ps[i] (by simp [hi])).mp h0
    omega

/-- The receiver reads no more bytes than the headers announce. -/
theorem length_received_le (kind : MsgKind) (X : ℕ) (hnum : NumberedFrom0 ps)
    (hmsg : ∀ p ∈ ps, p.hdr.msgSize ≤ X)
    (hthis : (ps.map fun p => p.hdr.thisMsgSize).sum ≤ X) :
    (received kind stale junk ps).length ≤ X := by
  have hflat : ((ps.mapIdx (pktData stale)).flatten).length
      = (ps.map fun p => p.hdr.thisMsgSize).sum := by
    rw [List.length_flatten]
    congr 1
    apply List.ext_getElem?
    intro i
    rw [List.getElem?_map, List.getElem?_mapIdx, List.getElem?_map, Option.map_map]
    congr 1
    funext p
    exact length_readBody ..
  cases ps with
  | nil => cases kind <;> exact Nat.zero_le _
  | cons p ps =>
    have hp := hmsg p (List.mem_cons_self ..)
    have hpt : p.hdr.thisMsgSize ≤ X := by
      rw [List.map_cons, List.sum_cons] at hthis
      omega
    cases kind with
    | request =>
      show (reqReceived stale (p :: ps)).length ≤ X
      rw [reqReceived]
      split_ifs with h
      · rw [length_readBody]
        exact hp
      · rw [hflat]
        exact hthis
    | response =>
      show (respReceived stale junk (p :: ps)).length ≤ X
      by_cases h : p.hdr.msgSize ≤ kMaxDataPerPkt
      · rw [respReceived, if_pos h, RespBuf.read, length_readBody]
        exact hpt
      · rw [respReceived_large p ps hnum h, length_readBody]
        exact hp

/-- **Headers that count right.**  When every header counts its own payload, the message
size is the total, and only a message of one packet is short, the receiver reads the
concatenated payloads. -/
theorem received_eq (kind : MsgKind) (hnum : NumberedFrom0 ps)
    (hthis : ∀ p ∈ ps, p.hdr.thisMsgSize = p.payload.length)
    (hmsg : ∀ p ∈ ps, p.hdr.msgSize = (ps.flatMap WirePkt.payload).length)
    (hone : ∀ p ∈ ps, p.hdr.msgSize ≤ kMaxDataPerPkt → ps.length = 1) :
    received kind stale junk ps = ps.flatMap WirePkt.payload := by
  have hflat : (ps.mapIdx (pktData stale)).flatten = ps.flatMap WirePkt.payload := by
    congr 1
    apply List.ext_getElem?
    intro i
    rw [List.getElem?_mapIdx, List.getElem?_map]
    cases hi : ps[i]? with
    | none => rfl
    | some p =>
      rw [Option.map_some, Option.map_some, pktData, hthis p (List.mem_of_getElem? hi),
        readBody_length]
  cases ps with
  | nil => cases kind <;> rfl
  | cons p ps =>
    have hmem : p ∈ p :: ps := List.mem_cons_self ..
    by_cases h : p.hdr.msgSize ≤ kMaxDataPerPkt
    · have hnil : ps = [] := by
        have := hone p hmem h
        simpa using this
      subst hnil
      have hsize := hmsg p hmem
      rw [List.flatMap_cons, List.flatMap_nil, List.append_nil] at hsize ⊢
      cases kind with
      | request =>
        show reqReceived stale [p] = _
        rw [reqReceived, if_pos h, hsize, readBody_length]
      | response =>
        show respReceived stale junk [p] = _
        rw [respReceived, if_pos h]
        show readBody junk (pktData stale 0 p) p.hdr.thisMsgSize = _
        rw [pktData, hthis p hmem, readBody_length, readBody_length]
    · cases kind with
      | request =>
        show reqReceived stale (p :: ps) = _
        rw [reqReceived, if_neg h, hflat]
      | response =>
        show respReceived stale junk (p :: ps) = _
        rw [respReceived_large p ps hnum h, hflat, hmsg p hmem, readBody_length]

end HuiRpc
