/-
# Messages that embed messages

Model of `serialize` and `deserialize` for messages some of whose fields are messages again.
`PROCESS_FIELDS` defines the member `process_fields` of a message, and the two archives call
it on the outermost message.  For an embedded message `ArchiveBase::process_field(T&)` calls
the member `serialize_fields` instead, which `PROCESS_FIELDS` does not define: it is the empty one
of the base class `Message`.  So the fields of an embedded message are neither pushed nor extracted,
on both sides; they travel as they stand in the body.

* `Member` : a field with the `summed_size` it holds before;
* `processStruct`, `desStruct` : `process_fields` of the outermost message in both archives,
  equal to the flat ones on the fields outside of embedded messages;
* `deserializeStruct_restores_iff` : when the round trip brings every field back.
-/
import HuiRpc.RoundTrip
import HuiRpc.Lib.Forests

namespace HuiRpc

open Forests

/-! ## Messages -/

/-- A field of a message.  `summedSize` is what an array holds before it is serialised; the
other kinds have no such member. -/
structure Member where
  field : Field
  summedSize : UInt64

/-- The header of a field as it stands in the object. -/
def Member.held (a : Member) : FieldHdr :=
  match a.field with
  | .string v => .buf (.ofNat v.iovBase) (.ofNat v.iovLen)
  | .buffer v => .buf (.ofNat v.iovBase) (.ofNat v.iovLen)
  | .iovecArray ptr vs => .arr ptr (.ofNat (vs.length * 16)) a.summedSize

theorem Member.kind_held (a : Member) : a.held.kind = a.field.kind := by
  unfold Member.held
  cases a.field <;> rfl

/-- How an object whose fields have the given kinds and nesting lies in memory; the embedded
messages lie inside of it. -/
structure StructLayout (σ : Type) (shape : Forest FieldKind) where
  size : ℕ
  size_pos : 0 < size
  encode : σ → Forest FieldHdr → List UInt8
  decode : List UInt8 → σ × Forest FieldHdr
  length_encode : ∀ x hs, hs.map FieldHdr.kind = shape → (encode x hs).length = size
  decode_encode : ∀ x hs, hs.map FieldHdr.kind = shape → decode (encode x hs) = (x, hs)

/-- A message value: the scalar members of all levels, and the fields with their nesting. -/
structure StructMsg (σ : Type) (shape : Forest FieldKind) where
  scalars : σ
  fields : Forest Member
  kinds_eq : fields.map (fun a => a.field.kind) = shape
  size_lt : ∀ a ∈ fields.leaves, iovSum a.field.iovecs < 2 ^ 64

/-! ## The two archives -/

/-- `ArchiveBase::process_field(T&)` of the serializer, for an embedded message: it calls
`Message::serialize_fields`, which does nothing. -/
def Serializer.processEmbedded (s : Serializer) (inner : Forest Member) :
    Serializer × Forest FieldHdr :=
  (s, inner.map Member.held)

/-- `x.process_fields(non_aligned)`. -/
def Serializer.processStruct (s : Serializer) : Forest Member → Serializer × Forest FieldHdr
  | .nil => (s, .nil)
  | .leaf a rest =>
      let r := s.processField a.field
      let rs := r.1.processStruct rest
      (rs.1, .leaf r.2 rs.2)
  | .tree inner rest =>
      let r := s.processEmbedded inner
      let rs := r.1.processStruct rest
      (rs.1, .tree r.2 rs.2)

/-- `serialize(x)` for an object at address `obj`, and the headers that then stand in it. -/
def Serializer.serializeStruct (s : Serializer) (size obj : ℕ) (fields : Forest Member) :
    Serializer × Forest FieldHdr :=
  let r := s.processStruct fields
  (r.1.processBuffer ⟨obj, size⟩, r.2)

/-- `ArchiveBase::process_field(T&)` of the deserializer, for an embedded message. -/
def desEmbedded (e : Extractor) (failed : Bool) (inner : Forest FieldHdr) :
    Extractor × Bool × Forest FieldVal :=
  (e, failed, inner.map FieldVal.stale)

/-- `t->process_fields(non_aligned)`. -/
def desStruct (e : Extractor) (failed : Bool) :
    Forest FieldHdr → Extractor × Bool × Forest FieldVal
  | .nil => (e, failed, .nil)
  | .leaf h rest =>
      let r := desField e failed h
      let rs := desStruct r.1 r.2.1 rest
      (rs.1, rs.2.1, .leaf r.2.2 rs.2.2)
  | .tree inner rest =>
      let r := desEmbedded e failed inner
      let rs := desStruct r.1 r.2.1 rest
      (rs.1, rs.2.1, .tree r.2.2 rs.2.2)

/-- `deserialize<T>(iov)`. -/
def deserializeStruct {σ : Type} {shape : Forest FieldKind} (L : StructLayout σ shape)
    (e : Extractor) : Option (σ × Forest FieldVal) × Extractor × Bool :=
  let r := e.extractBackContinuous L.size
  if r.1 = 0 then (none, r.2, true)
  else
    let o := L.decode (Iovec.bytes r.2.mem ⟨r.1, L.size⟩)
    let rs := desStruct r.2 false o.2
    (some (o.1, rs.2.2), rs.1, rs.2.1)

/-! ## Only the outermost fields are processed -/

/-- The fields outside of embedded messages. -/
def outerFields (fields : Forest Member) : List Field := fields.roots.map Member.field

/-- The headers in the object after `serialize`. -/
def sentHdrs (fields : Forest Member) : Forest FieldHdr :=
  fields.mapDepth (fun a => a.field.hdr) Member.held

/-- **The serializer** pushes what it pushes for a message without the embedded ones. -/
theorem Serializer.Fillable.processStruct {s : Serializer} (h : s.Fillable)
    (fields : Forest Member) :
    (s.processStruct fields).1 = (s.processFields (outerFields fields)).1 ∧
      (s.processStruct fields).2 = sentHdrs fields := by
  induction fields generalizing s with
  | nil => exact ⟨rfl, rfl⟩
  | leaf a rest ih =>
    obtain ⟨hpush, hhdr⟩ := h.processField a.field
    obtain ⟨h1, h2⟩ := ih hpush.fillable
    refine ⟨h1, ?_⟩
    show Forest.leaf (s.processField a.field).2 _ = _
    rw [hhdr, h2]
    rfl
  | tree inner rest _ ih =>
    obtain ⟨h1, h2⟩ := ih h
    refine ⟨h1, ?_⟩
    show Forest.tree (inner.map Member.held) (s.processStruct rest).2 = _
    rw [h2]
    rfl

theorem Serializer.Fillable.serializeStruct {s : Serializer} (h : s.Fillable) (size obj : ℕ)
    (fields : Forest Member) :
    Pushed s (s.serializeStruct size obj fields).1
        ((outerFields fields).flatMap Field.iovecs ++ [⟨obj, size⟩]) ∧
      (s.serializeStruct size obj fields).2 = sentHdrs fields := by
  obtain ⟨h1, h2⟩ := h.processStruct fields
  refine ⟨?_, h2⟩
  show Pushed s ((s.processStruct fields).1.processBuffer ⟨obj, size⟩) _
  rw [h1]
  exact (h.pushed size obj (outerFields fields)).1

/-- **The deserializer** extracts what it extracts for a message without the embedded ones,
and leaves the embedded ones as they are. -/
theorem desStruct_eq (e : Extractor) (failed : Bool) (hs : Forest FieldHdr) :
    desStruct e failed hs = ((desFields e failed hs.roots).1, (desFields e failed hs.roots).2.1,
      hs.weave FieldVal.stale (desFields e failed hs.roots).2.2) := by
  induction hs generalizing e failed with
  | nil => rfl
  | leaf h rest ih =>
    rw [desStruct, ih]
    rfl
  | tree inner rest _ ih =>
    rw [desStruct, ih]
    rfl

theorem roots_sentHdrs (fields : Forest Member) :
    (sentHdrs fields).roots = (outerFields fields).map Field.hdr := by
  rw [sentHdrs, Forest.roots_mapDepth, outerFields, List.map_map]
  rfl

theorem map_kind_sentHdrs (fields : Forest Member) :
    (sentHdrs fields).map FieldHdr.kind = fields.map fun a => a.field.kind := by
  rw [sentHdrs, Forest.map_mapDepth]
  simp only [kind_hdr, Member.kind_held]
  exact (Forest.mapDepth_eq_map_iff _ _ _).mpr fun a _ => rfl

/-! ## When everything has room -/

/-- What a deserialised message shows when the bytes of the outer fields and the body have
arrived: the outer fields are back, the embedded ones are empty. -/
theorem desStruct_spec {e : Extractor} (hok : e.Ok) (m : Mem) (fields : Forest Member)
    (hlt : ∀ a ∈ fields.leaves, iovSum a.field.iovecs < 2 ^ 64)
    (hrem : e.remaining = (outerFields fields).flatMap (Field.bytes m)) :
    ∃ vals e', desStruct e false (sentHdrs fields) = (e', false, vals) ∧
      vals.map (FieldVal.bytes e'.mem)
        = fields.mapDepth (fun a => a.field.bytes m) (fun _ => []) := by
  have hltRoots : ∀ f ∈ outerFields fields, iovSum f.iovecs < 2 ^ 64 := by
    intro f hf
    obtain ⟨a, ha, rfl⟩ := List.mem_map.mp hf
    exact hlt a (fields.roots_sublist_leaves.subset ha)
  obtain ⟨e', vals, hrun, -, hvals, -⟩ := desFields_spec m _ hok hrem hltRoots
  refine ⟨(sentHdrs fields).weave FieldVal.stale vals, e', ?_, ?_⟩
  · rw [desStruct_eq, roots_sentHdrs, hrun]
  · rw [outerFields, List.map_map] at hvals
    exact Forest.map_weave (fun a : Member => a.field.bytes m) _ _ _ _ fields vals hvals

/-! ## Too few bytes -/

/-- How many bytes a deserialised field refers to. -/
def FieldVal.size : FieldVal → ℕ
  | .buf _ len => len
  | .arr vs => iovSum vs
  | .stale _ => 0

theorem FieldVal.length_bytes (m : Mem) (v : FieldVal) : (v.bytes m).length = v.size := by
  cases v with
  | buf ptr len => exact Iovec.length_bytes m ⟨ptr, len⟩
  | arr vs => exact length_bytesOf m vs
  | stale h => rfl

/-- A field that was extracted without failure took its bytes from the fragments. -/
theorem desField_size {e e' : Extractor} (hok : e.Ok) {h : FieldHdr} {v : FieldVal}
    (hrun : desField e false h = (e', false, v)) :
    e'.Ok ∧ v.size + e'.remaining.length = e.remaining.length := by
  cases h with
  | buf ptr len =>
    rw [desField] at hrun
    by_cases hz : len.toNat = 0
    · rw [if_pos hz] at hrun
      obtain ⟨rfl, -, rfl⟩ := hrun
      exact ⟨hok, Nat.zero_add _⟩
    · rw [if_neg hz] at hrun
      by_cases hlen : len.toNat ≤ e.remaining.length
      · obtain ⟨-, hg⟩ := Extractor.extractFrontContinuous_spec hok (by omega) hlen
        simp only [Prod.mk.injEq] at hrun
        obtain ⟨rfl, -, rfl⟩ := hrun
        refine ⟨hg.ok, ?_⟩
        rw [hg.left, List.length_drop, FieldVal.size]
        omega
      · -- too few bytes: the pointer is null, so `failed` is set
        have hnull := Extractor.extractFrontContinuous_short (Nat.lt_of_not_le hlen)
        simp [hnull] at hrun
  | arr ptr len summedSize =>
    rw [desField] at hrun
    by_cases hlen : summedSize.toNat ≤ e.remaining.length
    · obtain ⟨hret, hg⟩ := Extractor.extractFrontView_spec hok hlen
      simp only [if_pos hret] at hrun
      obtain ⟨rfl, -, rfl⟩ := hrun
      refine ⟨hg.ok, ?_⟩
      have htaken := congrArg List.length hg.taken
      rw [length_bytesOf, List.length_take] at htaken
      rw [hg.left, List.length_drop, FieldVal.size]
      omega
    · have hret := Extractor.extractFrontView_short (Nat.lt_of_not_le hlen)
      simp [hret] at hrun

theorem desField_failed (e : Extractor) (h : FieldHdr) : (desField e true h).2.1 = true := by
  cases h with
  | buf ptr len =>
    rw [desField]
    split_ifs
    · rfl
    · exact ite_self _
  | arr ptr len summedSize =>
    rw [desField]
    split_ifs <;> rfl

theorem desStruct_failed (e : Extractor) (hs : Forest FieldHdr) :
    (desStruct e true hs).2.1 = true := by
  induction hs generalizing e with
  | nil => rfl
  | leaf h rest ih =>
    show (desStruct (desField e true h).1 (desField e true h).2.1 rest).2.1 = true
    rw [desField_failed]
    exact ih _
  | tree inner rest _ ih => exact ih e

/-- The bytes that all fields of a deserialised message refer to. -/
def valsSize (vals : Forest FieldVal) : ℕ := (vals.leaves.map FieldVal.size).sum

/-- A message that was deserialised without failure refers to no more bytes than there were;
the fields of embedded messages count nothing. -/
theorem desStruct_size {e e' : Extractor} (hok : e.Ok) {hs : Forest FieldHdr}
    {vals : Forest FieldVal} (hrun : desStruct e false hs = (e', false, vals)) :
    valsSize vals + e'.remaining.length = e.remaining.length := by
  induction hs generalizing e vals with
  | nil =>
    obtain ⟨rfl, -, rfl⟩ := hrun
    exact Nat.zero_add _
  | leaf h rest ih =>
    rcases hone : desField e false h with ⟨e1, b, v⟩
    simp only [desStruct, hone, Prod.mk.injEq] at hrun
    obtain ⟨he, hb, rfl⟩ := hrun
    cases b with
    | true =>
      rw [desStruct_failed] at hb
      exact absurd hb (by decide)
    | false =>
      obtain ⟨hok1, hv⟩ := desField_size hok hone
      have hrest : valsSize (desStruct e1 false rest).2.2 + e'.remaining.length
          = e1.remaining.length := ih hok1 (Prod.ext he (Prod.ext hb rfl))
      unfold valsSize at hrest ⊢
      rw [Forest.leaves, List.map_cons, List.sum_cons]
      omega
  | tree inner rest _ ih =>
    simp only [desStruct, desEmbedded, Prod.mk.injEq] at hrun
    obtain ⟨he, hb, rfl⟩ := hrun
    have hrest : valsSize (desStruct e false rest).2.2 + e'.remaining.length
        = e.remaining.length := ih hok (Prod.ext he (Prod.ext hb rfl))
    have hzero : ((inner.map FieldVal.stale).leaves.map FieldVal.size).sum = 0 := by
      exact List.sum_eq_zero (by simp [FieldVal.size])
    unfold valsSize at hrest ⊢
    rw [Forest.leaves, List.map_append, List.sum_append, hzero, Nat.zero_add]
    exact hrest

/-- The body counts too. -/
theorem deserializeStruct_size {σ : Type} {shape : Forest FieldKind} {e e' : Extractor}
    (hok : e.Ok) (L : StructLayout σ shape) {x : σ} {vals : Forest FieldVal}
    (hrun : deserializeStruct L e = (some (x, vals), e', false)) :
    valsSize vals + L.size ≤ e.remaining.length := by
  unfold deserializeStruct at hrun
  by_cases hlen : L.size ≤ e.remaining.length
  · obtain ⟨hne, hg⟩ := Extractor.extractBackContinuous_spec hok L.size_pos hlen
    simp only [if_neg hne, Prod.mk.injEq, Option.some.injEq] at hrun
    obtain ⟨⟨-, hvals⟩, he, hb⟩ := hrun
    have hsize := desStruct_size hg.ok (Prod.ext he (Prod.ext hb hvals))
    rw [hg.left, List.length_take] at hsize
    omega
  · have hnull := Extractor.extractBackContinuous_short (Nat.lt_of_not_le hlen)
    simp [hnull] at hrun

/-- How many bytes the fields of a message hold, and how many of them are pushed. -/
theorem iovSum_outerFields_le (fields : Forest Member) :
    iovSum ((outerFields fields).flatMap Field.iovecs)
      ≤ (fields.leaves.map fun a => iovSum a.field.iovecs).sum := by
  have hsum : ∀ as : List Member, iovSum ((as.map Member.field).flatMap Field.iovecs)
      = (as.map fun a => iovSum a.field.iovecs).sum := by
    intro as
    induction as with
    | nil => rfl
    | cons a as ih =>
      rw [List.map_cons, List.flatMap_cons, iovSum_append, ih, List.map_cons, List.sum_cons]
  rw [outerFields, hsum]
  exact (fields.roots_sublist_leaves.map _).sum_le_sum fun _ _ => Nat.zero_le _

/-- When the iovector is full before the body, the body is missing. -/
theorem Pushed.length_entries_le {s s' : Serializer} {vs : List Iovec} {body : Iovec}
    (h : Pushed s s' (vs ++ [body])) (hempty : s.iov.entries = [])
    (hfull : s.room ≤ (nonEmpty vs).length) (m : Mem) :
    (bytesOf m s'.iov.entries).length ≤ iovSum vs := by
  have hsub : ((nonEmpty vs).take s.room).Sublist vs :=
    (List.take_sublist ..).trans List.filter_sublist
  rw [h.entries, hempty, List.nil_append, nonEmpty_append, List.take_append_of_le_length hfull,
    length_bytesOf]
  exact (hsub.map _).sum_le_sum fun _ _ => Nat.zero_le _

/-! ## The round trip -/

/-- **Round trip of nested messages.**  From every fragmentation of the serialised bytes the
scalar members and the bytes of every field, at every depth, come back without failure
exactly when all fields of embedded messages are empty and the iovector has room for the
outer fields and the body. -/
theorem deserializeStruct_restores_iff {σ : Type} {shape : Forest FieldKind}
    (L : StructLayout σ shape) (msg : StructMsg σ shape) (s : Serializer) (hs : s.Fillable)
    (hempty : s.iov.entries = []) (obj : ℕ) (m : Mem)
    (hobj : Iovec.bytes m ⟨obj, L.size⟩
      = L.encode msg.scalars (s.serializeStruct L.size obj msg.fields).2)
    (e : Extractor) (hok : e.Ok)
    (hfrag : e.remaining = bytesOf m (s.serializeStruct L.size obj msg.fields).1.iov.entries) :
    (∃ vals e', deserializeStruct L e = (some (msg.scalars, vals), e', false) ∧
        vals.map (FieldVal.bytes e'.mem) = msg.fields.map fun a => a.field.bytes m) ↔
      (∀ a ∈ msg.fields.deep, iovSum a.field.iovecs = 0) ∧
        (nonEmpty ((outerFields msg.fields).flatMap Field.iovecs)).length < s.room := by
  obtain ⟨hpush, hhdrs⟩ := hs.serializeStruct L.size obj msg.fields
  have hkinds : (sentHdrs msg.fields).map FieldHdr.kind = shape := by
    rw [map_kind_sentHdrs, msg.kinds_eq]
  have hsize := L.length_encode msg.scalars _ hkinds
  rw [hhdrs] at hobj
  by_cases hroom : (nonEmpty ((outerFields msg.fields).flatMap Field.iovecs)).length < s.room
  · have hall : (nonEmpty ((outerFields msg.fields).flatMap Field.iovecs ++
        [⟨obj, L.size⟩])).length ≤ s.room := by
      have hbody : (nonEmpty [⟨obj, L.size⟩]).length ≤ 1 := List.length_filter_le ..
      rw [nonEmpty_append, List.length_append]
      omega
    rw [hpush.bytesOf_entries hempty hall m, hobj] at hfrag
    obtain ⟨hne, hg⟩ := extractBody_spec hok (by rw [hsize]; exact L.size_pos) hfrag
    rw [hsize] at hne hg
    have hbody := hg.taken
    rw [bytesOf_cons, bytesOf_nil, List.append_nil] at hbody
    obtain ⟨vals, e', hrun, hvals⟩ := desStruct_spec hg.ok m msg.fields msg.size_lt hg.left
    have hdes : deserializeStruct L e = (some (msg.scalars, vals), e', false) := by
      unfold deserializeStruct
      simp only [if_neg hne, hbody, L.decode_encode _ _ hkinds, hrun]
    -- the object is determined, so its fields decide
    have hdeep : vals.map (FieldVal.bytes e'.mem) = msg.fields.map (fun a => a.field.bytes m) ↔
        ∀ a ∈ msg.fields.deep, iovSum a.field.iovecs = 0 := by
      rw [hvals, Forest.mapDepth_eq_map_iff]
      apply forall₂_congr
      intro a _
      rw [← length_bytesOf m, List.length_eq_zero_iff]
      exact eq_comm
    constructor
    · rintro ⟨vals', e'', hdes', hvals'⟩
      rw [hdes] at hdes'
      obtain ⟨rfl, rfl⟩ := hdes'
      exact ⟨hdeep.mp hvals', hroom⟩
    · rintro ⟨hempty', -⟩
      exact ⟨vals, e', hdes, hdeep.mpr hempty'⟩
  · -- without room for the body, fewer bytes arrive than the fields refer to
    refine iff_of_false ?_ fun h => hroom h.2
    rintro ⟨vals, e', hdes, hvals⟩
    have hle := hpush.length_entries_le hempty (Nat.le_of_not_lt hroom) m
    rw [← hfrag] at hle
    have hfields := iovSum_outerFields_le msg.fields
    have hsum : valsSize vals = (msg.fields.leaves.map fun a => iovSum a.field.iovecs).sum := by
      have h := congrArg (fun t => (t.leaves.map List.length).sum) hvals
      unfold valsSize
      simpa only [Forest.leaves_map, List.map_map, Function.comp_def, FieldVal.length_bytes,
        Field.bytes, length_bytesOf] using h
    have hless := deserializeStruct_size hok L hdes
    have hpos := L.size_pos
    omega

/-! ## A layout of words -/

/-- An object with one 64-bit scalar and then the fields of all levels, without padding. -/
def wordStructLayout (shape : Forest FieldKind) : StructLayout UInt64 shape where
  size := 8 + (shape.leaves.map FieldKind.size).sum
  size_pos := by omega
  encode x hs := word x ++ hs.leaves.flatMap FieldHdr.words
  decode bs := (readWord bs, (shape.fill (readHdrs shape.leaves (bs.drop 8))).1)
  length_encode x hs h := by
    rw [List.length_append, length_word, length_flatMap_words, ← h, Forest.leaves_map]
  decode_encode x hs h := by
    have hfill := Forest.fill_map_leaves FieldHdr.kind hs []
    rw [List.append_nil] at hfill
    rw [readWord_word, drop_word, ← h, Forest.leaves_map, readHdrs_words, hfill]

/-- A string, and an embedded message with a string. -/
def pairShape : Forest FieldKind := .leaf .buf (.tree (.leaf .buf .nil) .nil)

/-- A message of that shape with strings of `n` bytes at 100 and of `k` bytes at 200. -/
def pairMsg (n k : Fin 50) : StructMsg UInt64 pairShape where
  scalars := 7
  fields := .leaf ⟨.string ⟨100, n⟩, 0⟩ (.tree (.leaf ⟨.string ⟨200, k⟩, 0⟩ .nil) .nil)
  kinds_eq := rfl
  size_lt := by
    intro a ha
    have hn := n.isLt
    have hk := k.isLt
    simp only [Forest.leaves, List.append_nil, List.mem_cons,
      List.not_mem_nil, or_false] at ha
    rcases ha with rfl | rfl
    · show iovSum [⟨100, n⟩] < 2 ^ 64
      simp [iovSum]
      omega
    · show iovSum [⟨200, k⟩] < 2 ^ 64
      simp [iovSum]
      omega

/-- The sender's memory, the object at 1000, and what arrives at 5000 in two fragments. -/
def pairMem (n k : Fin 50) : Mem := fun a =>
  if a < 1000 then UInt8.ofNat a
  else ((wordStructLayout pairShape).encode 7 (sentHdrs (pairMsg n k).fields)).getD (a - 1000) 0

def pairFragments (n k : Fin 50) : Extractor where
  view := [⟨5000, 2⟩, ⟨5002, n.val + 38⟩]
  mem := fun a => ((Iovec.bytes (pairMem n k) ⟨100, n⟩)
    ++ Iovec.bytes (pairMem n k) ⟨1000, 40⟩).getD (a - 5000) 0
  brk := 6000

theorem deserializeStruct_restores_pair :
    ∃ vals e', deserializeStruct (wordStructLayout pairShape) (pairFragments 3 0)
        = (some (7, vals), e', false) ∧
      vals.map (FieldVal.bytes e'.mem)
        = (pairMsg 3 0).fields.map fun a => a.field.bytes (pairMem 3 0) :=
  (deserializeStruct_restores_iff (wordStructLayout pairShape) (pairMsg 3 0)
    (Serializer.new default) (Serializer.fillable_new default) (by simp [Serializer.new]) 1000
    (pairMem 3 0) (by decide +kernel) (pairFragments 3 0)
    ⟨by unfold pairFragments Live; decide, by decide⟩ (by decide +kernel)).mpr
    ⟨by decide, by decide⟩

/-- The embedded string of two bytes is not sent: the receiver's object holds the sender's
address 200, and nothing has failed. -/
theorem embedded_string_lost :
    Iovec.bytes (pairMem 3 2) ⟨1000, 40⟩ = (wordStructLayout pairShape).encode 7
        ((Serializer.new default).serializeStruct 40 1000 (pairMsg 3 2).fields).2 ∧
      (pairFragments 3 2).remaining = bytesOf (pairMem 3 2)
        ((Serializer.new default).serializeStruct 40 1000 (pairMsg 3 2).fields).1.iov.entries ∧
      ((pairMsg 3 2).fields.deep.map fun a => a.field.bytes (pairMem 3 2)) = [[200, 201]] ∧
      (deserializeStruct (wordStructLayout pairShape) (pairFragments 3 2)).1
        = some (7, .leaf (.buf 6000 3) (.tree (.leaf (.stale (.buf 200 2)) .nil) .nil)) ∧
      (deserializeStruct (wordStructLayout pairShape) (pairFragments 3 2)).2.2 = false := by
  refine ⟨?_, ?_, ?_, ?_, ?_⟩
  · decide +kernel
  · decide +kernel
  · decide +kernel
  · decide +kernel
  · decide +kernel

end HuiRpc
