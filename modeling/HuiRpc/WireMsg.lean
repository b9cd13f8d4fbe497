/-
# Messages on the wire: header sizes against packet contents

The partition of `init_data_iov` put together with the header arithmetic of
`enqueue_request` / `enqueue_response`, the transmit rows of `tx_burst`, and the two
receivers.  `Conveys` is what has to hold for a message to arrive; the main theorem says
for which messages it does.

The last header gets `msg_size_ % kMaxDataPerPkt`, which is `0` and not `kMaxDataPerPkt`
when the message ends on a packet boundary; `tx_burst` then sends the header alone.
-/
import HuiRpc.TxBurst

namespace HuiRpc

open Blocks

variable {kind : MsgKind} {a : SendArgs} {hs hs' : HdrStore} {hdr n k : ℕ}
  {s s' s1 : Serializer} {vs : List Iovec}

/-! ## The message after the call -/

/-- The packets of a message as the transport sends them. -/
def sentPkts (m : Mem) (hs : HdrStore) (s : Serializer) (n : ℕ) : List WirePkt :=
  (List.range n).map fun k => wirePkt m hs (sgeRow hs ⟨s, k⟩)

/-- **The message arrives.**  Every header counts the bytes of its packet, every burst that
holds one of its packets posts exactly the header and those bytes, and the receiver reads
the message whatever its buffers held before. -/
def Conveys (kind : MsgKind) (a : SendArgs) (hs : HdrStore) (hdr : ℕ) (s : Serializer)
    (vs : List Iovec) : Prop :=
  ∃ n hs' s', launch kind a hs hdr s = some (n, hs', s') ∧
    (∀ k, k < n → (hs' (getNHdr s' k)).thisMsgSize = iovSum (getNData s' k)) ∧
    (∀ k, k < n → ∀ sgl pre post, RowsFit hs' pre → RowsFit hs' post →
      pre.length + 1 + post.length ≤ kPostlist →
      ∃ rows, txBurst hs' sgl (pre ++ ⟨s', k⟩ :: post) = some rows ∧
        rows[pre.length]? = some (⟨getNHdr s' k, sizeofPkthdr⟩ :: getNData s' k)) ∧
    ∀ m stale junk, received kind stale junk (sentPkts m hs' s' n) = bytesOf m vs

/-- What the call leaves, in terms of the packetised message `s1`. -/
structure Launched (kind : MsgKind) (a : SendArgs) (n : ℕ) (s1 : Serializer) (hs' : HdrStore)
    (s' : Serializer) : Prop where
  hdr : ∀ k, k < n → hs' (getNHdr s' k) = kind.hdr a n s1.iov.sum k
    (if k + 1 = n then s1.iov.sum % 2 ^ 24 % kMaxDataPerPkt else kMaxDataPerPkt)
  lt : n < pkgIndexSize
  data : ∀ k, getNData s' k = pktEntries s1.iov s1.dataPkgIndex k

theorem MsgKind.hdr0_eq (kind : MsgKind) (h : Pkthdr) (a : SendArgs) (size : ℕ) :
    (kind.hdr0 h a size).totalPkt = h.totalPkt ∧ (kind.hdr0 h a size).msgSize = size % 2 ^ 24 ∧
      (kind.hdr0 h a size).pktNum = 0 ∧
      (kind.hdr0 h a size).thisMsgSize = kMaxDataPerPkt := by
  cases kind <;> exact ⟨rfl, rfl, rfl, rfl⟩

/-- The calls fill the header of every packet. -/
theorem launch_spec (kind : MsgKind) (a : SendArgs) (hs : HdrStore) (hdr : ℕ)
    (hinit : initDataIov kMaxDataPerPkt s = some (n, s1)) (htab : PktTable n s1)
    (hn : n < pkgIndexSize) :
    ∃ hs' s', launch kind a hs hdr s = some (n, hs', s') ∧ Launched kind a n s1 hs' s' := by
  have hmod : n % 2 ^ 16 = n := Nat.mod_eq_of_lt (by unfold pkgIndexSize at hn; omega)
  obtain ⟨htot, hmsg, hnum, hthis⟩ :=
    kind.hdr0_eq { hs hdr with totalPkt := n % 2 ^ 16 } a s1.iov.sum
  rw [show ({ hs hdr with totalPkt := n % 2 ^ 16 } : Pkthdr).totalPkt = n from hmod] at htot
  set h0 := kind.hdr0 { hs hdr with totalPkt := n % 2 ^ 16 } a s1.iov.sum with hh0
  refine ⟨fillHdrs hs hdr h0, pushHdrs hdr n s1, ?_, ?_, hn, fun k => htab.getNData_eq hdr k⟩
  · rw [launch, hinit]
    show some (n, fillHdrs hs hdr h0, pushHdrs hdr h0.totalPkt s1) = _
    rw [htot]
  · intro k hk
    rw [getNHdr_pushHdrs hdr n k s1 htab.room hk]
    refine (fillHdrs_apply hs hdr k h0 (by omega) hnum).trans ?_
    rw [htot]
    cases kind <;> rfl

theorem Launched.thisMsgSize (h : Launched kind a n s1 hs' s') (hk : k < n) :
    (hs' (getNHdr s' k)).thisMsgSize
      = if k + 1 = n then s1.iov.sum % 2 ^ 24 % kMaxDataPerPkt else kMaxDataPerPkt := by
  rw [h.hdr k hk]
  rfl

theorem Launched.msgSize (h : Launched kind a n s1 hs' s') (hk : k < n) :
    (hs' (getNHdr s' k)).msgSize = s1.iov.sum % 2 ^ 24 := by
  rw [h.hdr k hk]
  exact (kind.hdr0_eq _ a _).2.1

theorem Launched.pktNum (h : Launched kind a n s1 hs' s') (hk : k < n) :
    (hs' (getNHdr s' k)).pktNum = k := by
  rw [h.hdr k hk]
  have := h.lt
  exact Nat.mod_eq_of_lt (by unfold pkgIndexSize at this; omega)

theorem getElem?_sentPkts (m : Mem) (hk : k < n) :
    (sentPkts m hs' s' n)[k]? = some (wirePkt m hs' (sgeRow hs' ⟨s', k⟩)) := by
  rw [sentPkts, List.getElem?_map, List.getElem?_range hk, Option.map_some]

theorem Launched.numbered (h : Launched kind a n s1 hs' s') (m : Mem) :
    NumberedFrom0 (sentPkts m hs' s' n) := by
  intro i p hp
  have hi : i < n := by
    by_contra hge
    rw [List.getElem?_eq_none (by simp [sentPkts]; omega)] at hp
    exact absurd hp (by simp)
  rw [getElem?_sentPkts m hi, Option.some.injEq] at hp
  have hnum : p.hdr.pktNum = i := by
    rw [← hp]
    exact h.pktNum hi
  rw [hnum]

theorem mem_sentPkts {m : Mem} {p : WirePkt} (hp : p ∈ sentPkts m hs' s' n) :
    ∃ k, k < n ∧ p = wirePkt m hs' (sgeRow hs' ⟨s', k⟩) := by
  obtain ⟨k, hk, rfl⟩ := List.mem_map.mp hp
  exact ⟨k, List.mem_range.mp hk, rfl⟩

/-! ## Bytes that are missing from the entries do not arrive -/

/-- The packets' iovecs sum up to the entries. -/
theorem PktTable.sum_pktEntries (h : PktTable n s1) :
    ((List.range n).map fun k => iovSum (pktEntries s1.iov s1.dataPkgIndex k)).sum
      = iovSum s1.iov.entries := by
  rw [← h.flatMap_pktEntries, iovSum, List.map_flatMap, List.flatMap_def, List.sum_flatten,
    List.map_map]
  rfl

theorem Launched.length_received_le (h : Launched kind a n s1 hs' s') (htab : PktTable n s1)
    (hagree : ∀ k, k < n → (hs' (getNHdr s' k)).thisMsgSize = iovSum (getNData s' k))
    (m : Mem) (stale : ℕ → ℕ → UInt8) (junk : ℕ → UInt8) :
    (received kind stale junk (sentPkts m hs' s' n)).length ≤ iovSum s1.iov.entries := by
  apply HuiRpc.length_received_le kind _ (h.numbered m)
  · intro p hp
    obtain ⟨k, hk, rfl⟩ := mem_sentPkts hp
    show (hs' (getNHdr s' k)).msgSize ≤ _
    rw [h.msgSize hk]
    exact le_trans (Nat.mod_le _ _) (Nat.mod_le _ _)
  · rw [← htab.sum_pktEntries, sentPkts, List.map_map]
    apply le_of_eq
    congr 1
    apply List.map_congr_left
    intro k hk
    show (hs' (getNHdr s' k)).thisMsgSize = _
    rw [hagree k (List.mem_range.mp hk), h.data]

/-- A message that does not fit the arrays is not conveyed. -/
theorem not_conveys_of_not_fits (hf : Filled vs s) (hnf : ¬ Fits kMaxDataPerPkt s.iov.entries) :
    ¬ Conveys kind a hs hdr s vs := by
  rintro ⟨n, hs', s', hl, hagree, -, hrecv⟩
  obtain ⟨r, hinit, -⟩ := Option.map_eq_some_iff.mp hl
  obtain ⟨n1, s1⟩ := r
  obtain ⟨htab, hn, hlost⟩ :=
    initDataIov_not_fits hf.spec.1 (by decide) (by decide) hnf hinit
  obtain ⟨hs2, s2, hl2, hspec⟩ := launch_spec kind a hs hdr hinit htab hn
  rw [hl] at hl2
  obtain ⟨rfl, rfl, rfl⟩ : n = n1 ∧ hs' = hs2 ∧ s' = s2 := by
    simpa using hl2
  rcases hlost with hlost | ⟨hone, hwrap⟩
  · have hlen := hspec.length_received_le htab hagree (fun _ => 0)
      (fun _ _ => 0) (fun _ => 0)
    rw [hrecv, length_bytesOf, ← hf.iovSum_eq] at hlen
    omega
  · -- one packet that claims all bytes, with a 16-bit size
    have h0 := hagree 0 (by omega)
    have hsum := htab.sum_pktEntries
    rw [hone] at hsum
    simp only [List.range_one, List.map_cons, List.map_nil, List.sum_cons, List.sum_nil,
      Nat.add_zero] at hsum
    rw [hspec.data, hsum, hspec.thisMsgSize (k := 0) (by omega), if_pos (by omega)] at h0
    have hmod := Nat.mod_lt (s1.iov.sum % 2 ^ 24) (show 0 < kMaxDataPerPkt by decide)
    rw [kMaxDataPerPkt_eq] at hmod h0
    omega

/-! ## The header arithmetic -/

/-- The number of bytes of packet `k` of a message of `size` bytes. -/
def pktBytes (D size k : ℕ) : ℕ := min ((k + 1) * D) size - k * D

/-- Only the first packet of an empty message is empty. -/
theorem pktBytes_pos {D size : ℕ} (hD : 0 < D) (hpos : 0 < size) (hk : k < numPkts D size) :
    0 < pktBytes D size k := by
  have hlt : k * D < size := by
    rcases Nat.eq_zero_or_pos k with h0 | h0
    · rw [h0, Nat.zero_mul]
      exact hpos
    · unfold numPkts at hk
      split_ifs at hk with h
      · omega
      · have hhi := (ceil_bounds D size hD).2
        have hmul : (k + 1) * D ≤ (size + D - 1) / D * D := Nat.mul_le_mul_right D hk
        rw [Nat.succ_mul] at hmul
        omega
  unfold pktBytes
  rw [Nat.succ_mul]
  omega

/-- A packet but the last is full. -/
theorem pktBytes_of_lt {D size : ℕ} (hD : 0 < D) (hk : k + 1 < numPkts D size) :
    pktBytes D size k = D := by
  have h := succ_mul_le_of_lt_numPkts hD hk
  unfold pktBytes
  rw [Nat.min_eq_left h, Nat.succ_mul]
  omega

/-- **The last packet.**  It holds the remainder of the division when there is one, and is
full otherwise. -/
theorem pktBytes_last {D size : ℕ} (hD : 0 < D) (hpos : 0 < size)
    (hk : k + 1 = numPkts D size) :
    pktBytes D size k = if D ∣ size then D else size % D := by
  have hle : size ≤ numPkts D size * D := le_numPkts_mul hD
  have hlow := pktBytes_pos hD hpos (k := k) (by omega)
  rw [← hk, Nat.succ_mul] at hle
  have hsize : pktBytes D size k = size - k * D := by
    unfold pktBytes
    rw [Nat.min_eq_right (by rw [Nat.succ_mul]; exact hle)]
  rw [hsize] at hlow ⊢
  have hsplit : size = (size - k * D) + D * k := by
    have hcomm := Nat.mul_comm D k
    omega
  split_ifs with hdvd
  · have hdvd' : D ∣ size - k * D := by
      rw [hsplit] at hdvd
      exact (Nat.dvd_add_left (Dvd.intro k rfl)).mp hdvd
    have := Nat.le_of_dvd hlow hdvd'
    omega
  · have hne : size - k * D ≠ D := by
      intro heq
      apply hdvd
      rw [hsplit, heq]
      exact (Nat.dvd_add_right (dvd_refl D)).mpr (Dvd.intro k rfl)
    conv_rhs => rw [hsplit, Nat.add_mul_mod_self_left]
    rw [Nat.mod_eq_of_lt (by omega)]

/-- What the header arithmetic comes to: right for every packet, but for the last one of
a message that ends on a packet boundary. -/
theorem hdrSize_eq_pktBytes_iff {D size : ℕ} (hD : 0 < D) (hpos : 0 < size) :
    (∀ k, k < numPkts D size →
      (if k + 1 = numPkts D size then size % D else D) = pktBytes D size k) ↔ ¬ D ∣ size := by
  constructor
  · intro h hdvd
    have hn : 0 < numPkts D size := by
      unfold numPkts
      split_ifs with hle
      · exact Nat.one_pos
      · exact Nat.div_pos (by omega) hD
    have hlast := h (numPkts D size - 1) (by omega)
    rw [if_pos (by omega), pktBytes_last hD hpos (by omega), if_pos hdvd,
      Nat.mod_eq_zero_of_dvd hdvd] at hlast
    omega
  · intro hdvd k hk
    by_cases hl : k + 1 = numPkts D size
    · rw [if_pos hl, pktBytes_last hD hpos hl, if_neg hdvd]
    · rw [if_neg hl, pktBytes_of_lt hD (by omega)]

/-! ## Messages that fit -/

/-- The bytes of packet `k` of a message cut into `D` bytes each. -/
theorem CutInto.iovSum_pktEntries {D : ℕ} (hD : 0 < D)
    (h : CutInto D (numPkts D (iovSum s.iov.entries)) s s1)
    (hk : k < numPkts D (iovSum s.iov.entries)) :
    iovSum (pktEntries s1.iov s1.dataPkgIndex k) = pktBytes D (iovSum s.iov.entries) k := by
  have hb := h.table.bytesOf_pktEntries (h.starts fun _ => 0) hk
    (by rw [length_bytesOf]; exact mul_le_of_lt_numPkts hD hk)
  rw [← length_bytesOf fun _ => 0, hb, length_slice, length_bytesOf, pktBytes]

/-- A message that fits is shorter than what `msg_size_` can hold. -/
theorem Fits.iovSum_lt {es : List Iovec} (h : Fits kMaxDataPerPkt es) : iovSum es < 2 ^ 24 := by
  rcases h with h | ⟨h, -, -⟩
  · rw [kMaxDataPerPkt_eq] at h
    omega
  · have hle : iovSum es ≤ numPkts kMaxDataPerPkt (iovSum es) * kMaxDataPerPkt :=
      le_numPkts_mul (by decide)
    have hmul : numPkts kMaxDataPerPkt (iovSum es) * kMaxDataPerPkt
        ≤ pkgIndexSize * kMaxDataPerPkt := Nat.mul_le_mul_right _ (le_of_lt h)
    rw [show pkgIndexSize * kMaxDataPerPkt = 8048000 from rfl] at hmul
    omega

theorem Fits.numPkts_lt {D : ℕ} {es : List Iovec} (h : Fits D es) :
    numPkts D (iovSum es) < pkgIndexSize := by
  rcases h with h | ⟨h, -, -⟩
  · rw [numPkts, if_pos h]
    decide
  · exact h

/-- A message that fits goes through the calls; its headers hold what the header
arithmetic says. -/
theorem launch_of_fits (kind : MsgKind) (a : SendArgs) (hs : HdrStore) (hdr : ℕ)
    (hr : s.Ready) (hfit : Fits kMaxDataPerPkt s.iov.entries) :
    ∃ s1 hs' s', launch kind a hs hdr s
        = some (numPkts kMaxDataPerPkt (iovSum s.iov.entries), hs', s') ∧
      CutInto kMaxDataPerPkt (numPkts kMaxDataPerPkt (iovSum s.iov.entries)) s s1 ∧
      Launched kind a (numPkts kMaxDataPerPkt (iovSum s.iov.entries)) s1 hs' s' ∧
      s1.iov.sum % 2 ^ 24 = iovSum s.iov.entries := by
  obtain ⟨s1, hinit, hcut⟩ := initDataIov_of_fits hr (by decide) (by decide) hfit
  obtain ⟨hs', s', hl, hspec⟩ := launch_spec kind a hs hdr hinit hcut.table hfit.numPkts_lt
  refine ⟨s1, hs', s', hl, hcut, hspec, ?_⟩
  have hlt := hfit.iovSum_lt
  have hsum : iovSum s1.iov.entries = iovSum s.iov.entries := by
    rw [← length_bytesOf fun _ => 0, hcut.bytes, length_bytesOf]
  rw [Iovector.sum, hsum, Nat.mod_eq_of_lt (a := iovSum s.iov.entries) (by omega),
    Nat.mod_eq_of_lt hlt]

/-- A packet of at most fifteen pieces has room in its row, behind its header. -/
theorem Launched.length_sgeRow_le {D : ℕ} (h : Launched kind a n s1 hs' s') (hcut : CutInto D n s s1)
    (hk : k < n) (hpieces : pktPieces D s.iov.entries k ≤ 15) :
    (sgeRow hs' ⟨s', k⟩).length ≤ sglRow := by
  have hlen : (getNData s' k).length = pktPieces D s.iov.entries k := by
    rw [h.data, length_pktEntries, hcut.pieces k hk]
    omega
  unfold sgeRow sglRow
  rw [List.length_cons]
  split_ifs
  · rw [hlen]
    omega
  · decide

/-- A message that ends on a packet boundary is not conveyed: its last header says `0`. -/
theorem not_conveys_of_dvd (hf : Filled vs s) (hpos : 1 ≤ iovSum vs)
    (hfit : Fits kMaxDataPerPkt s.iov.entries) (hdvd : kMaxDataPerPkt ∣ iovSum vs) :
    ¬ Conveys kind a hs hdr s vs := by
  rintro ⟨n, hs1, s2, hl, hagree, -, -⟩
  obtain ⟨s1, hs', s', hl', hcut, hspec, hsize⟩ := launch_of_fits kind a hs hdr hf.spec.1 hfit
  rw [hl', Option.some.injEq] at hl
  obtain ⟨rfl, rfl, rfl⟩ := hl
  have hD : 0 < kMaxDataPerPkt := by decide
  refine (hdrSize_eq_pktBytes_iff hD hpos).mp ?_ hdvd
  intro k hk
  rw [← hf.iovSum_eq] at hk ⊢
  have h := hagree k hk
  rw [hspec.thisMsgSize hk, hspec.data, hcut.iovSum_pktEntries hD hk, hsize] at h
  exact h

/-- Fifteen packets of messages without data, to fill the rows in front. -/
def emptyItems : List TxItem := List.replicate 15 ⟨default, 0⟩

theorem rowsFit_emptyItems (hs : HdrStore) : RowsFit hs emptyItems := by
  intro it hit
  rw [List.eq_of_mem_replicate hit]
  unfold sgeRow
  split_ifs <;> decide

/-- A message with a packet of more than fifteen pieces is not conveyed: at the end of a
full burst its row leaves `send_sgl`. -/
theorem not_conveys_of_pieces (hf : Filled vs s) (hpos : 1 ≤ iovSum vs)
    (hfit : Fits kMaxDataPerPkt s.iov.entries)
    (hk : k < numPkts kMaxDataPerPkt (iovSum vs))
    (hpieces : 15 < pktPieces kMaxDataPerPkt s.iov.entries k) :
    ¬ Conveys kind a hs hdr s vs := by
  rintro ⟨n, hs1, s2, hl, hagree, hburst, -⟩
  obtain ⟨s1, hs', s', hl', hcut, hspec, hsize⟩ := launch_of_fits kind a hs hdr hf.spec.1 hfit
  rw [hl', Option.some.injEq, Prod.mk.injEq, Prod.mk.injEq] at hl
  obtain ⟨rfl, rfl, rfl⟩ := hl
  rw [← hf.iovSum_eq] at hk hpos
  have hD : 0 < kMaxDataPerPkt := by decide
  have hne : (hs' (getNHdr s' k)).thisMsgSize ≠ 0 := by
    rw [hagree k hk, hspec.data, hcut.iovSum_pktEntries hD hk]
    have := pktBytes_pos hD hpos hk
    omega
  have hrow : sglRow < (sgeRow hs' ⟨s', k⟩).length := by
    have hlen : (getNData s' k).length = pktPieces kMaxDataPerPkt s.iov.entries k := by
      rw [hspec.data, length_pktEntries, hcut.pieces k hk]
      omega
    rw [sgeRow, if_pos hne, List.length_cons, hlen]
    unfold sglRow
    omega
  obtain ⟨rows, hrows, -⟩ := hburst k hk (fun _ => default) emptyItems []
    (rowsFit_emptyItems hs') (fun it hit => absurd hit (by simp)) (by decide)
  rw [txBurst_last_overflow hs' _ emptyItems ⟨s', k⟩ rfl (rowsFit_emptyItems hs') hrow] at hrows
  exact absurd hrows (by simp)

/-- Every other message is conveyed. -/
theorem conveys_of_fits (hf : Filled vs s) (hpos : 1 ≤ iovSum vs)
    (hfit : Fits kMaxDataPerPkt s.iov.entries) (hdvd : ¬ kMaxDataPerPkt ∣ iovSum vs)
    (hpieces : ∀ k, k < numPkts kMaxDataPerPkt (iovSum vs) →
      pktPieces kMaxDataPerPkt s.iov.entries k ≤ 15) :
    Conveys kind a hs hdr s vs := by
  obtain ⟨s1, hs', s', hl, hcut, hspec, hsize⟩ := launch_of_fits kind a hs hdr hf.spec.1 hfit
  have hD : 0 < kMaxDataPerPkt := by decide
  rw [← hf.iovSum_eq] at hpos hdvd hpieces
  have hbytes : ∀ k, k < numPkts kMaxDataPerPkt (iovSum s.iov.entries) →
      iovSum (getNData s' k) = pktBytes kMaxDataPerPkt (iovSum s.iov.entries) k := by
    intro k hk
    rw [hspec.data, hcut.iovSum_pktEntries hD hk]
  have hagree : ∀ k, k < numPkts kMaxDataPerPkt (iovSum s.iov.entries) →
      (hs' (getNHdr s' k)).thisMsgSize = iovSum (getNData s' k) := by
    intro k hk
    rw [hspec.thisMsgSize hk, hsize, hbytes k hk]
    exact (hdrSize_eq_pktBytes_iff hD hpos).mpr hdvd k hk
  have hrow : ∀ k, k < numPkts kMaxDataPerPkt (iovSum s.iov.entries) →
      sgeRow hs' ⟨s', k⟩ = ⟨getNHdr s' k, sizeofPkthdr⟩ :: getNData s' k := by
    intro k hk
    have hne : (hs' (getNHdr s' k)).thisMsgSize ≠ 0 := by
      rw [hagree k hk, hbytes k hk]
      have := pktBytes_pos hD hpos hk
      omega
    rw [sgeRow, if_pos hne]
  refine ⟨_, hs', s', hl, hagree, ?_, ?_⟩
  · intro k hk sgl pre post hpre hpost hlen
    rw [← hrow k hk]
    exact txBurst_row hpre (hspec.length_sgeRow_le hcut hk (hpieces k hk)) hpost hlen sgl
  · intro m stale junk
    have hflat : (sentPkts m hs' s' (numPkts kMaxDataPerPkt (iovSum s.iov.entries))).flatMap
        WirePkt.payload = bytesOf m vs := by
      rw [← hf.spec.2 m, ← hcut.bytes m, ← hcut.table.flatMap_pktEntries, sentPkts,
        List.flatMap_map, bytesOf, List.flatMap_assoc]
      apply List.flatMap_congr
      intro k hk
      show bytesOf m (sgeRow hs' ⟨s', k⟩).tail = _
      rw [hrow k (List.mem_range.mp hk), List.tail_cons, hspec.data]
      rfl
    rw [received_eq kind (hspec.numbered m), hflat]
    · intro p hp
      obtain ⟨k, hk, rfl⟩ := mem_sentPkts hp
      show (hs' (getNHdr s' k)).thisMsgSize = (bytesOf m (sgeRow hs' ⟨s', k⟩).tail).length
      rw [hagree k hk, hrow k hk, List.tail_cons, length_bytesOf]
    · intro p hp
      obtain ⟨k, hk, rfl⟩ := mem_sentPkts hp
      show (hs' (getNHdr s' k)).msgSize = _
      rw [hspec.msgSize hk, hsize, hflat, length_bytesOf, hf.iovSum_eq]
    · intro p hp hsmall
      obtain ⟨k, hk, rfl⟩ := mem_sentPkts hp
      have hle : iovSum s.iov.entries ≤ kMaxDataPerPkt := by
        rw [← hsize, ← hspec.msgSize hk]
        exact hsmall
      rw [sentPkts, List.length_map, List.length_range, numPkts, if_pos hle]

/-! ## Which messages arrive -/

/-- **Which messages are conveyed.**  Every request and every response of at least one byte
is conveyed exactly when its packets and pieces fit the arrays, no packet has more than
fifteen pieces, and the message does not end on a packet boundary. -/
theorem conveys_iff (kind : MsgKind) (a : SendArgs) (hs : HdrStore) (hdr : ℕ)
    (hf : Filled vs s) (hpos : 1 ≤ iovSum vs) :
    Conveys kind a hs hdr s vs ↔
      Fits kMaxDataPerPkt s.iov.entries ∧
        (∀ k, k < numPkts kMaxDataPerPkt (iovSum vs) →
          pktPieces kMaxDataPerPkt s.iov.entries k ≤ 15) ∧
        ¬ kMaxDataPerPkt ∣ iovSum vs := by
  constructor
  · intro h
    have hfit : Fits kMaxDataPerPkt s.iov.entries := by
      by_contra hnf
      exact not_conveys_of_not_fits hf hnf h
    refine ⟨hfit, ?_, ?_⟩
    · intro k hk
      by_contra hgt
      exact not_conveys_of_pieces hf hpos hfit hk (by omega) h
    · intro hdvd
      exact not_conveys_of_dvd hf hpos hfit hdvd h
  · rintro ⟨hfit, hpieces, hdvd⟩
    exact conveys_of_fits hf hpos hfit hdvd hpieces

theorem conveys_iff_fiveThousand : Conveys .request ⟨1, 0, 32, 7⟩ (fun _ => default) 9000
    (oneIovec 5000) [⟨100, 5000⟩] :=
  (conveys_iff .request ⟨1, 0, 32, 7⟩ (fun _ => default) 9000 (oneIovec_filled 5000)
    (by decide)).mpr ⟨by decide, by decide, by decide⟩

/-- **A message of exactly one full packet is lost**: the header of its only packet says `0`
bytes where the packetiser assigned 4024, so `tx_burst` posts the header alone. -/
theorem not_conveys_fullPacket :
    (launch .request ⟨1, 0, 32, 7⟩ (fun _ => default) 9000 (oneIovec 4024)).map (fun r =>
        (r.1, (r.2.1 (getNHdr r.2.2 0)).thisMsgSize, iovSum (getNData r.2.2 0),
          sgeRow r.2.1 ⟨r.2.2, 0⟩)) = some (1, 0, 4024, [⟨9000, sizeofPkthdr⟩]) ∧
      ¬ Conveys .request ⟨1, 0, 32, 7⟩ (fun _ => default) 9000 (oneIovec 4024) [⟨100, 4024⟩] :=
  ⟨by decide, not_conveys_of_dvd (oneIovec_filled 4024) (by decide) (by decide) (by decide)⟩

end HuiRpc
