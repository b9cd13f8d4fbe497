/-
# Rows of scatter-gather entries

`tx_burst` writes a packet's header and payload iovecs into one row of `send_sgl`, which has 16
entries.  `serialize` bounds the iovecs of a message by the 2300 entries of its iovector, and
`init_data_iov` bounds a packet by its bytes; neither bounds the iovecs of a packet.

* `initDataIov_cut_counts` : how many iovecs every packet has, also when the iovector is full and
  refuses pieces;
* `FewPieces` : the condition on the pushed iovecs under which no packet has more than 15;
* `rows_fit_iff` : what `serialize` accepts stays inside the rows exactly then.
-/
import HuiRpc.Nested
import HuiRpc.WireMsg

namespace HuiRpc

open Blocks Forests

/-! ## Serializers after `serialize` -/

/-- Serialising leaves a serializer that is ready for its headers. -/
theorem Serializer.Ready.processBuffer {s : Serializer} (h : s.Ready) (hf : s.Fillable)
    (v : Iovec) : (s.processBuffer v).Ready := by
  have hback : s.iov.backFreeIovcnt.1 = s.iov := by
    unfold Iovector.backFreeIovcnt
    rw [if_neg (by rw [hf.capacity]; decide)]
  have hsame : ∀ b, ({ s with iov := s.iov.backFreeIovcnt.1, iovfull := b } : Serializer).Ready := by
    intro b
    rw [hback]
    exact ⟨h.room, h.window, h.fits, h.tCapacity, h.tBegin⟩
  unfold Serializer.processBuffer
  split_ifs with hroom hlen
  · rw [hback]
    exact h.push v
  · exact hsame s.iovfull
  · exact hsame true

/-- A serializer to which fields can be added and that can then be packetised. -/
structure Serializer.Open (s : Serializer) : Prop where
  fillable : s.Fillable
  ready : s.Ready

theorem Serializer.open_new (junk : Serializer) : (Serializer.new junk).Open :=
  ⟨Serializer.fillable_new junk, Serializer.ready_new junk⟩

theorem Serializer.Open.processBuffer {s : Serializer} (h : s.Open) (v : Iovec) :
    (s.processBuffer v).Open :=
  ⟨(h.fillable.processBuffer v).fillable, h.ready.processBuffer h.fillable v⟩

theorem Serializer.Open.processArray {s : Serializer} (h : s.Open) (vs : List Iovec) (n : UInt64) :
    (vs.foldl (fun (c : Serializer × UInt64) v =>
      (c.1.processBuffer v, c.2 + .ofNat v.iovLen)) (s, n)).1.Open := by
  induction vs generalizing s n with
  | nil => exact h
  | cons v vs ih => exact ih (h.processBuffer v) _

theorem Serializer.Open.processField {s : Serializer} (h : s.Open) (f : Field) :
    (s.processField f).1.Open := by
  cases f with
  | string v => exact h.processBuffer v
  | buffer v => exact h.processBuffer v
  | iovecArray ptr vs => exact h.processArray vs 0

theorem Serializer.Open.processStruct {s : Serializer} (h : s.Open) (fields : Forest Member) :
    (s.processStruct fields).1.Open := by
  induction fields generalizing s with
  | nil => exact h
  | leaf a rest ih => exact ih (h.processField a.field)
  | tree inner rest _ ih => exact ih h

theorem Serializer.Open.serializeStruct {s : Serializer} (h : s.Open) (size obj : ℕ)
    (fields : Forest Member) : (s.serializeStruct size obj fields).1.Open :=
  (h.processStruct fields).processBuffer ⟨obj, size⟩

/-! ## The iovecs of every packet -/

variable {D n k : ℕ} {s s' : Serializer}

theorem length_getNData (hdr n : ℕ) (s : Serializer) (k : ℕ) :
    (getNData (pushHdrs hdr n s) k).length = s.dataPkgIndex (k + 1) - s.dataPkgIndex k := by
  unfold getNData
  rw [List.length_map, List.length_range, pushHdrs_dataPkgIndex]

/-- The packets that the splitting loop makes of the iovecs `es`, of which the scratch copy
holds 2292. -/
def cutPkts (D : ℕ) (es : List Iovec) : ℕ :=
  (iovSum (es.take (iovCapacity - defPreserve)) + D - 1) / D

/-- The iovecs of packet `k` of a message that is re-cut: those of the scratch copy that reach into
it, as far as the iovector has places left by the headers and the packets before. -/
def cutPieces (D : ℕ) (es : List Iovec) (k : ℕ) : ℕ :=
  let cnt := piecesIn D 0 (es.take (iovCapacity - defPreserve))
  min (cnt k) (iovCapacity - cutPkts D es - piecesBefore cnt k)

/-- **At most 15 iovecs in every packet**, said of the iovecs that were pushed: a message of one
packet has at most 15, and one that is re-cut has fewer than 2000 packets, into each of which
at most 15 of the iovecs reach.  The byte sum is the one `size_t` holds. -/
def FewPieces (D : ℕ) (es : List Iovec) : Prop :=
  if iovSum es % 2 ^ 64 ≤ D then es.length ≤ 15
  else cutPkts D es < pkgIndexSize ∧ ∀ k, k < cutPkts D es → cutPieces D es k ≤ 15

instance (D : ℕ) (es : List Iovec) : Decidable (FewPieces D es) :=
  inferInstanceAs (Decidable (if iovSum es % 2 ^ 64 ≤ D then es.length ≤ 15
    else cutPkts D es < pkgIndexSize ∧ ∀ k, k < cutPkts D es → cutPieces D es k ≤ 15))

/-- The packet table with its closing entry, for every message that the loop re-cuts. -/
theorem PieceStarts.table_eq {R p : ℕ} {cnt : ℕ → ℕ} {st : SplitSt} (h : PieceStarts R cnt p st)
    (hk : k ≤ st.dataIndex) : st.table k = min (piecesBefore cnt k) R := by
  rcases hk.lt_or_eq with hk | rfl
  · rw [st.table_of_lt hk, h.starts k hk]
  · rw [st.table_last, h.count, h.total]

/-- A message that is re-cut. -/
theorem initDataIov_cut_counts (hr : s.Ready) (hD : 0 < D) (hint : D < 2 ^ 31)
    (hs : D < s.iov.sum) (hn : cutPkts D s.iov.entries < pkgIndexSize) :
    ∃ s', initDataIov D s = some (cutPkts D s.iov.entries, s') ∧
      ∀ hdr k, k < cutPkts D s.iov.entries →
        (getNData (pushHdrs hdr (cutPkts D s.iov.entries) s') k).length
          = cutPieces D s.iov.entries k := by
  obtain ⟨st, -, hinit, hidx, -, hcnt⟩ := initDataIov_large hr hD hint hs hn
  refine ⟨_, hinit, fun hdr k hk => ?_⟩
  change k < loopPkts D s at hk
  rw [length_getNData]
  show st.table (k + 1) - st.table k = _
  rw [hcnt.table_eq (by omega), hcnt.table_eq (by omega), piecesBefore_succ]
  show _ = min (piecesIn D 0 (copied s) k)
    (iovCapacity - loopPkts D s - piecesBefore (piecesIn D 0 (copied s)) k)
  omega

/-! ## What `serialize` accepts -/

/-- After `init_data_iov(kMaxDataPerPkt)` every packet has at most 15 payload iovecs, and whatever
its header says `tx_burst` writes at most the 16 entries of its row. -/
def RowsHold (s : Serializer) : Prop :=
  ∃ n s', initDataIov kMaxDataPerPkt s = some (n, s') ∧ ∀ hdr k, k < n →
    (getNData (pushHdrs hdr n s') k).length ≤ 15 ∧
      ∀ hs, (sgeRow hs ⟨pushHdrs hdr n s', k⟩).length ≤ sglRow

/-- A row is the header and at most the payload. -/
theorem length_sgeRow_le (hs : HdrStore) (it : TxItem) :
    (sgeRow hs it).length ≤ 1 + (getNData it.msgBuffer it.pktIdx).length := by
  unfold sgeRow
  rw [List.length_cons]
  split_ifs with h
  · omega
  · rw [List.length_nil]
    omega

/-- The rows hold exactly when every packet has at most 15 iovecs. -/
theorem rowsHold_iff_of_counts {c : ℕ → ℕ} (hinit : initDataIov kMaxDataPerPkt s = some (n, s'))
    (hcnt : ∀ hdr k, k < n → (getNData (pushHdrs hdr n s') k).length = c k) :
    RowsHold s ↔ ∀ k, k < n → c k ≤ 15 := by
  constructor
  · rintro ⟨n', s'', hinit', hrows⟩ k hk
    rw [hinit, Option.some.injEq] at hinit'
    obtain ⟨rfl, rfl⟩ := hinit'
    rw [← hcnt 0 k hk]
    exact (hrows 0 k hk).1
  · intro hle
    refine ⟨n, s', hinit, fun hdr k hk => ?_⟩
    have hlen : (getNData (pushHdrs hdr n s') k).length ≤ 15 := by
      rw [hcnt hdr k hk]
      exact hle k hk
    refine ⟨hlen, fun hs => ?_⟩
    have hrow : (sgeRow hs ⟨pushHdrs hdr n s', k⟩).length
        ≤ 1 + (getNData (pushHdrs hdr n s') k).length := length_sgeRow_le hs _
    unfold sglRow
    omega

/-- The rows of a ready serializer. -/
theorem rowsHold_iff (hr : s.Ready) : RowsHold s ↔ FewPieces kMaxDataPerPkt s.iov.entries := by
  have hD : 0 < kMaxDataPerPkt := by decide
  have hint : kMaxDataPerPkt < 2 ^ 31 := by decide
  unfold FewPieces
  split_ifs with hle
  · rw [rowsHold_iff_of_counts (c := fun _ => s.iov.entries.length) (initDataIov_one hle)]
    · exact ⟨fun h => h 0 Nat.one_pos, fun h _ _ => h⟩
    · intro hdr k hk
      rw [show k = 0 by omega, getNData_singlePkt hr.room]
  · have hsum : kMaxDataPerPkt < s.iov.sum := not_le.mp hle
    by_cases hn : cutPkts kMaxDataPerPkt s.iov.entries < pkgIndexSize
    · obtain ⟨s', hinit, hcnt⟩ := initDataIov_cut_counts hr hD hint hsum hn
      rw [rowsHold_iff_of_counts hinit hcnt]
      exact ⟨fun h => ⟨hn, h⟩, fun h => h.2⟩
    · -- the packet table overflows: the call does not return
      constructor
      · rintro ⟨n, s', hinit, -⟩
        rw [initDataIov_overflow hr hD hsum (not_lt.mp hn)] at hinit
        exact absurd hinit (by simp)
      · intro h
        exact absurd h.1 hn

/-- **Which accepted messages stay inside their rows.**  A message, however its fields are nested,
that `serialize` adds to an open serializer without setting `iovfull` is cut into packets
that fit the rows of `tx_burst` exactly when few enough of the pushed iovecs reach into
each packet. -/
theorem rows_fit_iff (ho : s.Open) (size obj : ℕ) (fields : Forest Member)
    (hacc : (s.serializeStruct size obj fields).1.iovfull = false) :
    RowsHold (s.serializeStruct size obj fields).1 ↔
      FewPieces kMaxDataPerPkt (s.iov.entries ++
        nonEmpty ((outerFields fields).flatMap Field.iovecs ++ [⟨obj, size⟩])) := by
  have hpush := (ho.fillable.serializeStruct size obj fields).1
  rw [rowsHold_iff (ho.serializeStruct size obj fields).ready, hpush.entries,
    List.take_of_length_le (hpush.full hacc).2]

/-- `n` strings of one byte. -/
def tinyStrings : ℕ → Forest Member
  | 0 => .nil
  | n + 1 => .leaf ⟨.string ⟨1000 + n, 1⟩, 0⟩ (tinyStrings n)

theorem rows_fit_threeStrings :
    (Serializer.new default).Open ∧
      ((Serializer.new default).serializeStruct 48 5000 (tinyStrings 3)).1.iovfull = false ∧
      RowsHold ((Serializer.new default).serializeStruct 48 5000 (tinyStrings 3)).1 :=
  ⟨Serializer.open_new default, by decide,
    (rows_fit_iff (Serializer.open_new default) 48 5000 (tinyStrings 3) (by decide)).mpr (by decide)⟩

/-- **Fifteen strings of one byte.**  With the body they are sixteen iovecs of one packet; the
header that `enqueue_request` writes announces 255 bytes, and the row of `tx_burst` gets a
seventeenth entry. -/
theorem rows_overrun_fifteenStrings :
    ((Serializer.new default).serializeStruct 240 5000 (tinyStrings 15)).1.iovfull = false ∧
      (launch .request ⟨1, 0, 32, 7⟩ (fun _ => default) 9000
        ((Serializer.new default).serializeStruct 240 5000 (tinyStrings 15)).1).map (fun r =>
          (r.1, (getNData r.2.2 0).length, (sgeRow r.2.1 ⟨r.2.2, 0⟩).length)) = some (1, 16, 17) ∧
      ¬ RowsHold ((Serializer.new default).serializeStruct 240 5000 (tinyStrings 15)).1 := by
  refine ⟨by decide +kernel, by decide +kernel, fun hrows => ?_⟩
  rw [rowsHold_iff ((Serializer.open_new default).serializeStruct 240 5000 _).ready] at hrows
  revert hrows
  decide +kernel

end HuiRpc
