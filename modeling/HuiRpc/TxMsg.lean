/-
# Messages as the protocol sees them

The datapath moves whole packets.  A `TxMsg` is what the packetiser hands to it: a number
of packets, the message size and the bytes of every packet.  `TxMsg.fill` is the message
once `enqueue_request` or `enqueue_response` has written the headers, with
`this_msg_size` the number of bytes sent.

`launch_eq_fill` ties this to the serializer and to `tx_burst`: whatever fits the arrays of
`init_data_iov` and the rows of `send_sgl` is sent as such a message, packet by packet.
-/
import HuiRpc.WireMsg

namespace HuiRpc

open Blocks

/-! ## The message and its packets -/

/-- A packetised message.  The bounds are those of `init_data_iov`: at most 1999 packets,
one packet exactly when the bytes fit into one, at most `kMaxDataPerPkt` bytes in a packet,
and no more bytes in the packets than the message has. -/
structure TxMsg where
  totalPkt : ℕ
  msgSize : ℕ
  data : ℕ → List UInt8
  pos : 0 < totalPkt
  lt : totalPkt < pkgIndexSize
  msgSize_lt : msgSize < 2 ^ 24
  small_iff : msgSize ≤ kMaxDataPerPkt ↔ totalPkt = 1
  data_le : ∀ k, k < totalPkt → (data k).length ≤ kMaxDataPerPkt
  length_le : ((List.range totalPkt).flatMap data).length ≤ msgSize

/-- A message of one packet with the given bytes. -/
def TxMsg.ofBytes (bs : List UInt8) (h : bs.length ≤ kMaxDataPerPkt) : TxMsg where
  totalPkt := 1
  msgSize := bs.length
  data := fun _ => bs
  pos := Nat.one_pos
  lt := by decide
  msgSize_lt := by
    rw [kMaxDataPerPkt_eq] at h
    omega
  small_iff := ⟨fun _ => rfl, fun _ => h⟩
  data_le := fun _ _ => h
  length_le := by simp

instance : Inhabited TxMsg := ⟨TxMsg.ofBytes [] (Nat.zero_le _)⟩

/-- A message of 5000 bytes in two packets. -/
def twoPkts : TxMsg where
  totalPkt := 2
  msgSize := 5000
  data := fun k => if k = 0 then List.replicate 4024 1 else List.replicate 976 2
  pos := by decide
  lt := by decide
  msgSize_lt := by decide
  small_iff := by decide
  data_le := by
    intro k _
    split_ifs <;> rw [List.length_replicate] <;> decide
  length_le := by
    rw [List.length_flatMap, show List.range 2 = [0, 1] from rfl, List.map_cons, List.map_singleton,
      if_pos rfl, if_neg Nat.one_ne_zero, List.length_replicate, List.length_replicate]
    decide

/-- A message buffer that a slot points at: `total_pkg` of the serializer, and what is sent
for every packet index. -/
structure MsgBuf where
  totalPkg : ℕ
  pkts : ℕ → WirePkt

/-- `get_n_hdr(0)`. -/
def MsgBuf.hdr0 (b : MsgBuf) : Pkthdr := (b.pkts 0).hdr

/-- The message after `enqueue_request` / `enqueue_response` filled its headers. -/
def TxMsg.fill (t : TxMsg) (kind : MsgKind) (a : SendArgs) : MsgBuf :=
  { totalPkg := t.totalPkt
    pkts := fun k => ⟨kind.hdr a t.totalPkt t.msgSize k (t.data k).length, t.data k⟩ }

section Fill

variable (t : TxMsg) (kind : MsgKind) (a : SendArgs) (k : ℕ)

@[simp] theorem TxMsg.fill_totalPkt : ((t.fill kind a).pkts k).hdr.totalPkt = t.totalPkt := by
  cases kind <;> rfl

@[simp] theorem TxMsg.fill_msgSize : ((t.fill kind a).pkts k).hdr.msgSize = t.msgSize := by
  cases kind <;> exact Nat.mod_eq_of_lt t.msgSize_lt

@[simp] theorem TxMsg.fill_reqNum : ((t.fill kind a).pkts k).hdr.reqNum = a.reqNum % 2 ^ 32 := by
  cases kind <;> rfl

@[simp] theorem TxMsg.fill_reqType : ((t.fill kind a).pkts k).hdr.reqType = a.reqType % 2 ^ 8 := by
  cases kind <;> rfl

@[simp] theorem TxMsg.fill_thisMsgSize :
    ((t.fill kind a).pkts k).hdr.thisMsgSize = (t.data k).length := rfl

theorem TxMsg.fill_pktNum (hk : k < t.totalPkt) : ((t.fill kind a).pkts k).hdr.pktNum = k := by
  have hlt := t.lt
  unfold pkgIndexSize at hlt
  exact Nat.mod_eq_of_lt (by omega)

theorem TxMsg.hdr0_totalPkt : (t.fill kind a).hdr0.totalPkt = t.totalPkt :=
  t.fill_totalPkt kind a 0

end Fill

/-! ## The serializer sends such messages -/

variable {s : Serializer}

theorem numPkts_pos (D size : ℕ) (hD : 0 < D) : 0 < numPkts D size := by
  unfold numPkts
  split_ifs with h
  · exact Nat.one_pos
  · exact Nat.div_pos (by omega) hD

/-- One packet is enough exactly for what fits into one. -/
theorem le_iff_numPkts_eq_one (D size : ℕ) (hD : 0 < D) : size ≤ D ↔ numPkts D size = 1 := by
  constructor
  · intro h
    rw [numPkts, if_pos h]
  · intro h
    have hle : size ≤ numPkts D size * D := le_numPkts_mul hD
    rwa [h, Nat.one_mul] at hle

/-- The header only keeps 24 bits of the message size. -/
theorem MsgKind.hdr_congr (kind : MsgKind) (a : SendArgs) (n k l : ℕ) {x y : ℕ}
    (h : x % 2 ^ 24 = y % 2 ^ 24) : kind.hdr a n x k l = kind.hdr a n y k l := by
  cases kind <;> simp only [MsgKind.hdr, MsgKind.hdr0, Pkthdr.enqueueRequest,
    Pkthdr.enqueueResponse, Pkthdr.fill, h]

/-- The bytes that the transport sends for packet `k`: none when the header says so. -/
theorem payload_sent (m : Mem) (hs' : HdrStore) (s' : Serializer) (k : ℕ) :
    (wirePkt m hs' (sgeRow hs' ⟨s', k⟩)).payload
      = if (hs' (getNHdr s' k)).thisMsgSize ≠ 0 then bytesOf m (getNData s' k) else [] := by
  show bytesOf m (if _ then _ else _) = _
  split_ifs <;> rfl

/-- The header arithmetic counts the bytes that are sent, also when the last header says
`0` for a full packet: then nothing is sent. -/
theorem hdrSize_eq_sent {D size k : ℕ} (hD : 0 < D) (hk : k < numPkts D size)
    (hne : (if k + 1 = numPkts D size then size % D else D) ≠ 0) :
    (if k + 1 = numPkts D size then size % D else D) = pktBytes D size k := by
  split_ifs at hne ⊢ with hl
  · have hdvd : ¬ D ∣ size := fun h => hne (Nat.mod_eq_zero_of_dvd h)
    have hpos : 0 < size := Nat.pos_of_ne_zero fun h => hdvd (h ▸ dvd_zero D)
    rw [pktBytes_last hD hpos hl, if_neg hdvd]
  · rw [pktBytes_of_lt hD (by omega)]

/-- **What the serializer sends.**  A message that fits the arrays of `init_data_iov`, with no
packet of more than fifteen pieces, is cut into the packets of a `TxMsg` with its size and packet
count; all packets but the last are full.  Every burst that holds one of its packets posts a row
that sends this packet. -/
theorem launch_eq_fill (kind : MsgKind) (a : SendArgs) (hs : HdrStore) (hdr : ℕ) (m : Mem)
    (hr : s.Ready) (hfit : Fits kMaxDataPerPkt s.iov.entries)
    (hpieces : ∀ k, k < numPkts kMaxDataPerPkt (iovSum s.iov.entries) →
      pktPieces kMaxDataPerPkt s.iov.entries k ≤ 15) :
    ∃ (t : TxMsg) (hs' : HdrStore) (s' : Serializer),
      launch kind a hs hdr s = some (t.totalPkt, hs', s') ∧
      t.totalPkt = numPkts kMaxDataPerPkt (iovSum s.iov.entries) ∧
      t.msgSize = iovSum s.iov.entries ∧
      (∀ k, k + 1 < t.totalPkt → (t.data k).length = kMaxDataPerPkt) ∧
      ∀ k, k < t.totalPkt → ∀ sgl pre post, RowsFit hs' pre → RowsFit hs' post →
        pre.length + 1 + post.length ≤ kPostlist →
        ∃ rows row, txBurst hs' sgl (pre ++ ⟨s', k⟩ :: post) = some rows ∧
          rows[pre.length]? = some row ∧ wirePkt m hs' row = (t.fill kind a).pkts k := by
  obtain ⟨s1, hs', s', hl, hcut, hspec, hsize⟩ := launch_of_fits kind a hs hdr hr hfit
  have hD : 0 < kMaxDataPerPkt := by decide
  have hlt := hfit.iovSum_lt
  set size := iovSum s.iov.entries with hsz
  set n := numPkts kMaxDataPerPkt size with hn
  let data : ℕ → List UInt8 := fun k => (wirePkt m hs' (sgeRow hs' ⟨s', k⟩)).payload
  have hpkt : ∀ k, k < n → iovSum (getNData s' k) = pktBytes kMaxDataPerPkt size k := by
    intro k hk
    rw [hspec.data, hcut.iovSum_pktEntries hD hk]
  have hthis : ∀ k, k < n → (hs' (getNHdr s' k)).thisMsgSize = (data k).length := by
    intro k hk
    have h := hspec.thisMsgSize hk
    rw [hsize] at h
    show _ = (wirePkt m hs' (sgeRow hs' ⟨s', k⟩)).payload.length
    rw [payload_sent]
    split_ifs with hne
    · rw [length_bytesOf, hpkt k hk, h]
      exact hdrSize_eq_sent hD hk (h ▸ hne)
    · rw [List.length_nil]
      omega
  have hone : ∀ k, k < n → (data k).length ≤ kMaxDataPerPkt := by
    intro k hk
    rw [← hthis k hk, hspec.thisMsgSize hk]
    split_ifs
    · exact le_of_lt (Nat.mod_lt _ hD)
    · exact le_refl _
  have hle : ((List.range n).flatMap data).length ≤ size := by
    have hbytes : iovSum s1.iov.entries = size := by
      rw [← length_bytesOf fun _ => 0, hcut.bytes, length_bytesOf]
    rw [← hbytes, ← hcut.table.sum_pktEntries, List.length_flatMap]
    apply List.sum_le_sum
    intro k hk
    rw [← hspec.data, ← length_bytesOf m]
    show (wirePkt m hs' (sgeRow hs' ⟨s', k⟩)).payload.length ≤ _
    rw [payload_sent]
    split_ifs
    · exact le_refl _
    · exact Nat.zero_le _
  refine ⟨⟨n, size, data, numPkts_pos _ _ hD, hfit.numPkts_lt, hlt,
    le_iff_numPkts_eq_one _ _ hD, hone, hle⟩, hs', s', hl, rfl, rfl, ?_, ?_⟩
  · intro k hk
    have hk' : k + 1 < n := hk
    show (data k).length = _
    rw [← hthis k (by omega), hspec.thisMsgSize (by omega), if_neg (by omega)]
  · intro k hk sgl pre post hpre hpost hlen
    obtain ⟨rows, hrows, hrow⟩ := txBurst_row hpre
      (hspec.length_sgeRow_le hcut hk (hpieces k hk)) hpost hlen sgl
    refine ⟨rows, _, hrows, hrow, ?_⟩
    have hhdr : hs' (getNHdr s' k) = kind.hdr a n size k (data k).length := by
      rw [← hthis k hk, hspec.hdr k hk]
      apply kind.hdr_congr
      rw [hsize, Nat.mod_eq_of_lt hlt]
    show (⟨hs' (getNHdr s' k), data k⟩ : WirePkt) = ⟨kind.hdr a n size k (data k).length, data k⟩
    rw [hhdr]

/-- A message of 5000 bytes, and a burst of its second packet alone. -/
theorem launch_eq_fill_fiveThousand : ∃ (t : TxMsg) (hs' : HdrStore) (s' : Serializer),
    t.totalPkt = 2 ∧ launch .request ⟨1, 0, 32, 7⟩ (fun _ => default) 9000 (oneIovec 5000)
      = some (t.totalPkt, hs', s') ∧
    ∃ rows row, txBurst hs' (fun _ => default) [⟨s', 1⟩] = some rows ∧ rows[0]? = some row ∧
      wirePkt (fun _ => 0) hs' row = (t.fill .request ⟨1, 0, 32, 7⟩).pkts 1 := by
  obtain ⟨t, hs', s', hl, hn, -, -, hsent⟩ := launch_eq_fill .request ⟨1, 0, 32, 7⟩
    (fun _ => default) 9000 (fun _ => 0) (oneIovec_filled 5000).spec.1 (by decide) (by decide)
  have htwo : t.totalPkt = 2 := hn
  have hnone : RowsFit hs' [] := fun it hit => absurd hit List.not_mem_nil
  exact ⟨t, hs', s', htwo, hl,
    hsent 1 (by omega) (fun _ => default) [] [] hnone hnone (by decide)⟩

end HuiRpc
