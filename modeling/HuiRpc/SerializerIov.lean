/-
# The other packetiser

`SerializerIOV` of `huibuffer/serialize.h`, whose `init_data_iov` has the same splitting loop as
that of `Serializer` but no path for messages of one packet, fills a local vector, and copies the
pieces back behind the entries for the headers.

* `SerializerIov.FitsIov` — packets and pieces fit the packet table, the local vector and the
  vector of the message;
* `SerializerIov.initDataIov_cut` — packet `k` carries bytes `k * D` to `(k + 1) * D`;
* `packetisers_agree_iff` — the two packetisers agree on every message with a byte, and differ on
  a message without one: `Serializer` makes one empty packet of it and `SerializerIOV` none.
-/
import HuiRpc.Packets

namespace HuiRpc

open Blocks

/-- `class SerializerIOV`. -/
structure SerializerIov where
  iov : Iovector
  iovfull : Bool
  totalPkg : ℕ
  dataPkgIndex : ℕ → ℕ
  deriving Inhabited

namespace SerializerIov

/-- The constructor; `total_pkg` and the packet table are not initialised. -/
def new (junk : SerializerIov) : SerializerIov :=
  { iov := Iovector.new iovCapacity defPreserve junk.iov.iovs
    iovfull := false
    totalPkg := junk.totalPkg
    dataPkgIndex := junk.dataPkgIndex }

/-- `process_field(buffer &)`. -/
def processBuffer (s : SerializerIov) (v : Iovec) : SerializerIov :=
  let (iov, free) := s.iov.backFreeIovcnt
  if 0 < free then
    if 0 < v.iovLen then { s with iov := (iov.pushBackBuf v.iovBase v.iovLen).1 }
    else { s with iov := iov }
  else { s with iov := iov, iovfull := true }

/-- The pieces go behind `iov_begin = iov_end = data_index`. -/
def copyBack (iov : Iovector) (dataIndex : ℕ) (pieces : List Iovec) : Iovector :=
  pieces.foldl (fun t x => (t.pushBack x).1) (iov.setEmptyAt dataIndex)

/-- The result of the loop, stored back. -/
def storeBack (s : SerializerIov) (st : SplitSt) : SerializerIov :=
  { s with
    iov := copyBack s.iov st.dataIndex st.iov.entries
    totalPkg := st.dataIndex
    dataPkgIndex := st.table }

/-- `init_data_iov(maxDataPerPkt)`: the packet count and the serializer after it, or `none` when
the packet table overflows; `junk` is what the local vector holds before. -/
def initDataIov (D : ℕ) (junk : ℕ → Iovec) (s : SerializerIov) : Option (ℕ × SerializerIov) :=
  (splitIovecs D ⟨Iovector.new iovCapacity defPreserve junk, s.dataPkgIndex, 0, D⟩
      s.iov.entries).bind fun st =>
    if st.dataIndex < pkgIndexSize then some (st.dataIndex, s.storeBack st) else none

/-- The vector is one that the constructor and `push_back` make. -/
structure Ready (s : SerializerIov) : Prop where
  capacity : s.iov.capacity = iovCapacity
  window : s.iov.iovBegin ≤ s.iov.iovEnd
  fits : s.iov.iovEnd ≤ iovCapacity

/-- The number of packets that the loop opens. -/
def loopPktsIov (D : ℕ) (es : List Iovec) : ℕ := (iovSum es + D - 1) / D

/-- The packets fit the packet table, the pieces the local vector, and both together the vector
of the message. -/
def FitsIov (D : ℕ) (es : List Iovec) : Prop :=
  loopPktsIov D es < pkgIndexSize ∧ defPreserve + numPieces D 0 es ≤ iovCapacity ∧
    loopPktsIov D es + numPieces D 0 es ≤ iovCapacity

instance (D : ℕ) (es : List Iovec) : Decidable (FitsIov D es) :=
  inferInstanceAs (Decidable (_ ∧ _))

variable {D : ℕ} {s : SerializerIov}

theorem ready_new (junk : SerializerIov) : (new junk).Ready :=
  ⟨rfl, le_rfl, show defPreserve ≤ iovCapacity by decide⟩

theorem Ready.processBuffer (h : s.Ready) (v : Iovec) : (s.processBuffer v).Ready := by
  have hback : s.iov.backFreeIovcnt.1 = s.iov := by
    unfold Iovector.backFreeIovcnt
    rw [h.capacity]
    rfl
  unfold SerializerIov.processBuffer
  dsimp only
  rw [hback]
  split_ifs
  · have hend := Iovector.pushBackBuf_iovEnd s.iov v.iovBase v.iovLen h.fits
    have hbeg := Iovector.pushBackBuf_iovBegin s.iov v.iovBase v.iovLen
    have hwindow := h.window
    have hfits := h.fits
    refine ⟨Iovector.pushBackBuf_capacity _ _ _, ?_, ?_⟩
    · show (s.iov.pushBackBuf _ _).1.iovBegin ≤ (s.iov.pushBackBuf _ _).1.iovEnd
      omega
    · show (s.iov.pushBackBuf _ _).1.iovEnd ≤ iovCapacity
      omega
  · exact ⟨h.capacity, h.window, h.fits⟩
  · exact ⟨h.capacity, h.window, h.fits⟩

/-- The pieces are copied back as they are. -/
theorem entries_copyBack {iov : Iovector} {n : ℕ} {pieces : List Iovec}
    (hc : iov.capacity = iovCapacity) (hfit : n + pieces.length ≤ iovCapacity) :
    (copyBack iov n pieces).entries = pieces := by
  rw [copyBack, Iovector.entries_foldl_pushBack _ _ le_rfl, Iovector.entries_setEmptyAt,
    List.nil_append, List.take_of_length_le]
  show pieces.length ≤ iov.capacity - n % 2 ^ 16
  omega

/-- The loop, on the local vector. -/
theorem splitLocal (hD : 0 < D) (junk : ℕ → Iovec) (index : ℕ → ℕ) {es : List Iovec}
    (hfit : FitsIov D es) :
    ∃ st, splitIovecs D ⟨Iovector.new iovCapacity defPreserve junk, index, 0, D⟩ es = some st ∧
      st.dataIndex = loopPktsIov D es ∧
      ∀ m, SplitInv m D defPreserve (bytesOf m es) (iovSum es) (numPieces D 0 es) st := by
  have hstart := fun m => splitInv_start m D (bytesOf m es)
    (Iovector.new iovCapacity defPreserve junk) index (show defPreserve ≤ iovCapacity by decide)
  have hpass := (hstart fun _ => 0).2
  have htotal : 0 + iovSum es ≤ pkgIndexSize * D := by
    have hsize := (ceil_bounds D (iovSum es) hD).1
    have hmul := Nat.mul_le_mul_right D hfit.1.le
    unfold loopPktsIov at hmul
    omega
  obtain ⟨st, hst⟩ := splitIovecs_total hD es hpass htotal
  refine ⟨st, hst, ?_, fun m => ?_⟩
  · have hlast := (hpass.splitAll hD _ hst).dataIndex_eq hD
    rwa [Nat.zero_add] at hlast
  · have hinv := (hstart m).1.splitAll hD (by decide) es hpass (List.prefix_refl _) hst
    rwa [Nat.zero_add, Nat.zero_add] at hinv

/-- **The packets of a message that fits.** -/
theorem initDataIov_cut (hr : s.Ready) (hD : 0 < D) (junk : ℕ → Iovec)
    (hfit : FitsIov D s.iov.entries) :
    ∃ s', s.initDataIov D junk = some (loopPktsIov D s.iov.entries, s') ∧
      ∀ m k, k < loopPktsIov D s.iov.entries →
        bytesOf m (pktEntries s'.iov s'.dataPkgIndex k)
          = slice (bytesOf m s.iov.entries) (k * D) ((k + 1) * D) := by
  obtain ⟨st, hst, hidx, hinv⟩ := splitLocal hD junk s.dataPkgIndex hfit
  obtain ⟨hpkts, hlocal, hback⟩ := hfit
  have hcnt : st.iov.iovcnt = numPieces D 0 s.iov.entries := by
    rw [Iovector.iovcnt, (hinv fun _ => 0).begin_eq, (hinv fun _ => 0).end_eq]
    omega
  have hentries : (s.storeBack st).iov.entries = st.iov.entries := by
    apply entries_copyBack hr.capacity
    rw [Iovector.length_entries, hcnt, hidx]
    exact hback
  have hcnt' : (s.storeBack st).iov.iovcnt = st.iov.iovcnt := by
    rw [← Iovector.length_entries, hentries, Iovector.length_entries]
  refine ⟨s.storeBack st, ?_, fun m k hk => ?_⟩
  · unfold initDataIov
    rw [hst, Option.bind_some, hidx, if_pos hpkts]
  · have hm := hinv m
    rw [← length_bytesOf m] at hm
    have hsize : (bytesOf m s.iov.entries).length ≤ st.dataIndex * D := by
      rw [length_bytesOf, hidx]
      exact (ceil_bounds D _ hD).1
    rw [← hidx] at hk
    have hstarts : ∀ i ≤ st.dataIndex, bytesOf m ((s.storeBack st).iov.entries.take (st.table i))
        = (bytesOf m s.iov.entries).take (i * D) := by
      intro i hi
      rw [hentries]
      exact hm.starts hlocal hsize hi
    have hlast : st.table (k + 1) ≤ (s.storeBack st).iov.iovcnt := by
      rw [hcnt', ← st.table_last]
      exact hm.table_mono hk le_rfl
    show bytesOf m (pktEntries (s.storeBack st).iov st.table k) = _
    apply eq_slice_of_append (hstarts k hk.le)
    · rw [length_bytesOf]
      have hceil := (ceil_bounds D (iovSum s.iov.entries) hD).2
      have hmul := Nat.mul_le_mul_right D (Nat.succ_le_of_lt hk)
      rw [hidx] at hmul
      unfold loopPktsIov at hmul
      rw [Nat.succ_mul] at hmul
      omega
    · rw [← bytesOf_append, ← take_index_succ (hm.table_mono (Nat.le_succ k) hk) hlast]
      exact hstarts (k + 1) hk

end SerializerIov

/-! ## Agreement -/

open SerializerIov

variable {D : ℕ} {s : Serializer} {r : SerializerIov}

/-- The two packet counts. -/
theorem numPkts_eq_loopPktsIov_iff (hD : 0 < D) (es : List Iovec) :
    numPkts D (iovSum es) = loopPktsIov D es ↔ iovSum es ≠ 0 := by
  unfold numPkts loopPktsIov
  split_ifs with hle
  · constructor
    · intro h h0
      rw [h0, Nat.div_eq_of_lt (by omega)] at h
      cases h
    · intro h0
      symm
      apply eq_ceil_of_bounds hD <;> omega
  · exact iff_of_true rfl (by omega)

/-- **The packetisers agree** on a list of iovecs that fits both, in the number of packets and in
the bytes of every packet, iff the list holds a byte. -/
theorem packetisers_agree_iff (hs : s.Ready) (hr : r.Ready) (hes : r.iov.entries = s.iov.entries)
    (hD : 1 ≤ D) (hint : D < 2 ^ 31) (hfit : Fits D s.iov.entries)
    (hfit' : FitsIov D s.iov.entries) (junk : ℕ → Iovec) :
    (∃ n s' r', initDataIov D s = some (n, s') ∧ r.initDataIov D junk = some (n, r') ∧
      ∀ m k, k < n → bytesOf m (pktEntries s'.iov s'.dataPkgIndex k)
        = bytesOf m (pktEntries r'.iov r'.dataPkgIndex k)) ↔
    iovSum s.iov.entries ≠ 0 := by
  obtain ⟨s', hinit, hcut⟩ := initDataIov_of_fits hs hD hint hfit
  obtain ⟨r', hinit', hcut'⟩ := initDataIov_cut hr hD junk (hes ▸ hfit')
  rw [hes] at hinit' hcut'
  rw [← numPkts_eq_loopPktsIov_iff hD]
  constructor
  · rintro ⟨n, s1, r1, h1, h1', -⟩
    rw [hinit] at h1
    rw [hinit'] at h1'
    exact (Prod.mk.inj (Option.some.inj h1)).1.trans (Prod.mk.inj (Option.some.inj h1')).1.symm
  · intro hn
    refine ⟨_, s', r', hinit, hn ▸ hinit', fun m k hk => ?_⟩
    rw [hcut' m k (hn ▸ hk)]
    apply hcut.table.bytesOf_pktEntries (hcut.starts m) hk
    rw [length_bytesOf]
    exact mul_le_of_lt_numPkts hD hk

/-- The nine bytes of `nineBytes`, in the other serializer. -/
def nineBytesIov : SerializerIov :=
  ((SerializerIov.new default).processBuffer ⟨100, 6⟩).processBuffer ⟨300, 3⟩

theorem packetisers_agree_nineBytes :
    ∃ n s' r', initDataIov 4 (((Serializer.new default).push ⟨100, 6⟩).push ⟨300, 3⟩)
        = some (n, s') ∧ nineBytesIov.initDataIov 4 (fun _ => default) = some (n, r') ∧
      ∀ m k, k < n → bytesOf m (pktEntries s'.iov s'.dataPkgIndex k)
        = bytesOf m (pktEntries r'.iov r'.dataPkgIndex k) :=
  (packetisers_agree_iff (((Serializer.ready_new default).push _).push _)
    (((ready_new default).processBuffer _).processBuffer _) (by decide) (by decide) (by decide)
    (by decide) (by decide) _).mpr (by decide)

/-- **An empty message**: one packet for the one, none for the other. -/
theorem packetisers_differ_on_empty :
    Fits 4 (Serializer.new default).iov.entries ∧ FitsIov 4 (Serializer.new default).iov.entries ∧
      (initDataIov 4 (Serializer.new default)).map Prod.fst = some 1 ∧
      ((SerializerIov.new default).initDataIov 4 fun _ => default).map Prod.fst = some 0 := by
  decide

end HuiRpc
