/-
# Serialising and deserialising a message

Model of `Serializer::serialize` and `Deserializer::deserialize` for messages whose
`PROCESS_FIELDS` list strings, buffers and iovec arrays.

The serializer pushes the fields in order and the object itself (the *body*) last; nothing
is copied, the pushed iovecs point at the sender's memory.  The body carries the lengths of
the fields.  The deserializer takes the body from the back of whatever fragments arrive,
reads the lengths in it, and takes the fields from the front.

* How the compiler lays out the object is a parameter: a `BodyLayout` encodes the scalar
  members and the field headers in `sizeof(T)` bytes, and decodes them again.
* The deserialised object is kept as a record; the pointers stored into it do not touch the
  bytes of other fragments.
-/
import HuiRpc.Packets
import HuiRpc.Extract

namespace HuiRpc

/-! ## Messages -/

/-- The fields that `PROCESS_FIELDS` may list, as the sender holds them. -/
inductive Field
  | string (v : Iovec)
  | buffer (v : Iovec)
  | iovecArray (ptr : UInt64) (vs : List Iovec)

/-- A string is a `buffer` for both archives. -/
inductive FieldKind
  | buf
  | arr
  deriving DecidableEq, Repr

/-- The part of a field that lies in the body. -/
inductive FieldHdr
  | buf (ptr len : UInt64)
  | arr (ptr len summedSize : UInt64)
  deriving DecidableEq

def Field.kind : Field → FieldKind
  | .string _ => .buf
  | .buffer _ => .buf
  | .iovecArray _ _ => .arr

def FieldHdr.kind : FieldHdr → FieldKind
  | .buf _ _ => .buf
  | .arr _ _ _ => .arr

/-- The iovecs of a field. -/
def Field.iovecs : Field → List Iovec
  | .string v => [v]
  | .buffer v => [v]
  | .iovecArray _ vs => vs

/-- The bytes of a field. -/
def Field.bytes (m : Mem) (f : Field) : List UInt8 := bytesOf m f.iovecs

/-- How an object with scalar members `σ` and fields of the given kinds lies in memory. -/
structure BodyLayout (σ : Type) (kinds : List FieldKind) where
  size : ℕ
  size_pos : 0 < size
  encode : σ → List FieldHdr → List UInt8
  decode : List UInt8 → σ × List FieldHdr
  length_encode : ∀ x hs, hs.map FieldHdr.kind = kinds → (encode x hs).length = size
  decode_encode : ∀ x hs, hs.map FieldHdr.kind = kinds → decode (encode x hs) = (x, hs)

/-- A message value.  All of it lies in memory, so its bytes can be counted. -/
structure Msg (σ : Type) (kinds : List FieldKind) where
  scalars : σ
  fields : List Field
  kinds_eq : fields.map Field.kind = kinds
  size_lt : ∀ f ∈ fields, iovSum f.iovecs < 2 ^ 64

/-! ## The serializer -/

/-- `Serializer::process_field(buffer&)`. -/
def Serializer.processBuffer (s : Serializer) (v : Iovec) : Serializer :=
  if 0 < s.iov.backFreeIovcnt.2 then
    if 0 < v.iovLen then
      { s with iov := (s.iov.backFreeIovcnt.1.pushBackBuf v.iovBase v.iovLen).1 }
    else { s with iov := s.iov.backFreeIovcnt.1 }
  else { s with iov := s.iov.backFreeIovcnt.1, iovfull := true }

/-- `Serializer::process_field` for each kind of field; the array notes its byte sum. -/
def Serializer.processField (s : Serializer) : Field → Serializer × FieldHdr
  | .string v => (s.processBuffer v, .buf (.ofNat v.iovBase) (.ofNat v.iovLen))
  | .buffer v => (s.processBuffer v, .buf (.ofNat v.iovBase) (.ofNat v.iovLen))
  | .iovecArray ptr vs =>
      let r := vs.foldl (fun (c : Serializer × UInt64) v =>
        (c.1.processBuffer v, c.2 + .ofNat v.iovLen)) (s, 0)
      (r.1, .arr ptr (.ofNat (vs.length * 16)) r.2)

/-- `x.process_fields(non_aligned)`; none of these fields is an aligned one. -/
def Serializer.processFields (s : Serializer) : List Field → Serializer × List FieldHdr
  | [] => (s, [])
  | f :: fs =>
      let r := s.processField f
      let rs := r.1.processFields fs
      (rs.1, r.2 :: rs.2)

/-- `serialize(x)` for an object at address `obj`: the serializer, and the field headers
that then stand in the object. -/
def Serializer.serialize (s : Serializer) (size obj : ℕ) (fields : List Field) :
    Serializer × List FieldHdr :=
  let r := s.processFields fields
  (r.1.processBuffer ⟨obj, size⟩, r.2)

/-- A serializer that can be filled. -/
structure Serializer.Fillable (s : Serializer) : Prop where
  capacity : s.iov.capacity = iovCapacity
  window : s.iov.iovBegin ≤ s.iov.iovEnd
  fits : s.iov.iovEnd ≤ iovCapacity

theorem Serializer.fillable_new (junk : Serializer) : (Serializer.new junk).Fillable :=
  ⟨rfl, le_rfl, show defPreserve ≤ iovCapacity by decide⟩

/-- The iovecs that are pushed at all. -/
def nonEmpty (vs : List Iovec) : List Iovec := vs.filter fun v => 0 < v.iovLen

theorem nonEmpty_append (vs ws : List Iovec) :
    nonEmpty (vs ++ ws) = nonEmpty vs ++ nonEmpty ws := List.filter_append ..

/-- `back_free_iovcnt()` of a serializer that can be filled. -/
def Serializer.room (s : Serializer) : ℕ := iovCapacity - s.iov.iovEnd

/-- `s'` is `s` with the iovecs `vs` pushed, the empty ones left out, as far as there is
room; when `iovfull` is not set, there was room for all of them. -/
structure Pushed (s s' : Serializer) (vs : List Iovec) : Prop where
  fillable : s'.Fillable
  entries : s'.iov.entries = s.iov.entries ++ (nonEmpty vs).take s.room
  room : s'.room = s.room - (nonEmpty vs).length
  full : s'.iovfull = false → s.iovfull = false ∧ (nonEmpty vs).length ≤ s.room

theorem Pushed.refl {s : Serializer} (h : s.Fillable) : Pushed s s [] :=
  ⟨h, by simp [nonEmpty], rfl, fun hf => ⟨hf, Nat.zero_le _⟩⟩

theorem Pushed.trans {s s' s'' : Serializer} {vs ws : List Iovec} (h : Pushed s s' vs)
    (h' : Pushed s' s'' ws) : Pushed s s'' (vs ++ ws) := by
  refine ⟨h'.fillable, ?_, ?_, fun hf => ?_⟩
  · rw [h'.entries, h.entries, h.room, nonEmpty_append, List.take_append, List.append_assoc]
  · rw [h'.room, h.room, nonEmpty_append, List.length_append]
    omega
  · obtain ⟨hf', hw⟩ := h'.full hf
    obtain ⟨hf'', hv⟩ := h.full hf'
    rw [h.room] at hw
    refine ⟨hf'', ?_⟩
    rw [nonEmpty_append, List.length_append]
    omega

theorem Serializer.Fillable.processBuffer {s : Serializer} (h : s.Fillable) (v : Iovec) :
    Pushed s (s.processBuffer v) [v] := by
  have hcap := h.capacity
  have hfit := h.fits
  have hwin := h.window
  have hback : s.iov.backFreeIovcnt = (s.iov, s.room) := by
    unfold Iovector.backFreeIovcnt Serializer.room
    rw [if_neg (by rw [hcap]; decide)]
    simp only [hcap, Prod.mk.injEq, true_and]
    unfold iovCapacity at hfit ⊢
    omega
  unfold Serializer.processBuffer
  rw [hback]
  by_cases hroom : 0 < s.room
  · rw [if_pos hroom]
    by_cases hv : 0 < v.iovLen
    · rw [if_pos hv]
      have hlt : s.iov.iovEnd < iovCapacity := Nat.lt_of_sub_pos hroom
      have hend := Iovector.pushBackBuf_iovEnd s.iov v.iovBase v.iovLen hfit
      have hbeg := Iovector.pushBackBuf_iovBegin s.iov v.iovBase v.iovLen
      have hcap' : (s.iov.pushBackBuf v.iovBase v.iovLen).1.capacity = iovCapacity := by
        unfold Iovector.pushBackBuf Iovector.pushBack
        split_ifs <;> rfl
      have hone : nonEmpty [v] = [v] := List.filter_cons_of_pos (by simpa using hv)
      refine ⟨⟨hcap', ?_, ?_⟩, ?_, ?_, fun hf => ⟨hf, ?_⟩⟩
      · show (s.iov.pushBackBuf v.iovBase v.iovLen).1.iovBegin
          ≤ (s.iov.pushBackBuf v.iovBase v.iovLen).1.iovEnd
        omega
      · show (s.iov.pushBackBuf v.iovBase v.iovLen).1.iovEnd ≤ iovCapacity
        omega
      · show (s.iov.pushBackBuf v.iovBase v.iovLen).1.entries = _
        rw [Iovector.entries_pushBackBuf _ _ _ hwin hlt, hone, List.take_of_length_le hroom]
      · show iovCapacity - (s.iov.pushBackBuf v.iovBase v.iovLen).1.iovEnd = s.room - _
        rw [hone, List.length_singleton]
        unfold Serializer.room
        omega
      · rw [hone]
        exact hroom
    · rw [if_neg hv]
      have hnone : nonEmpty [v] = [] := List.filter_cons_of_neg (by simpa using hv)
      refine ⟨h, ?_, ?_, fun hf => ⟨hf, ?_⟩⟩
      · rw [hnone, List.take_nil, List.append_nil]
      · rw [hnone]
        rfl
      · rw [hnone]
        exact Nat.zero_le _
  · rw [if_neg hroom]
    have hz : s.room = 0 := by omega
    refine ⟨⟨hcap, hwin, hfit⟩, ?_, ?_, fun hf => absurd hf (by simp)⟩
    · rw [hz, List.take_zero, List.append_nil]
    · show s.room = _
      rw [hz, Nat.zero_sub]

/-- The headers that the serializer leaves in the object. -/
def Field.hdr : Field → FieldHdr
  | .string v => .buf (.ofNat v.iovBase) (.ofNat v.iovLen)
  | .buffer v => .buf (.ofNat v.iovBase) (.ofNat v.iovLen)
  | .iovecArray ptr vs => .arr ptr (.ofNat (vs.length * 16)) (.ofNat (iovSum vs))

theorem Serializer.foldl_processBuffer {s : Serializer} (h : s.Fillable) (vs : List Iovec)
    (n : ℕ) :
    Pushed s (vs.foldl (fun (c : Serializer × UInt64) v =>
        (c.1.processBuffer v, c.2 + .ofNat v.iovLen)) (s, .ofNat n)).1 vs ∧
      (vs.foldl (fun (c : Serializer × UInt64) v =>
        (c.1.processBuffer v, c.2 + .ofNat v.iovLen)) (s, .ofNat n)).2 = .ofNat (n + iovSum vs) := by
  induction vs generalizing s n with
  | nil => exact ⟨Pushed.refl h, rfl⟩
  | cons v vs ih =>
    have hv := h.processBuffer v
    obtain ⟨h1, h2⟩ := ih hv.fillable (n + v.iovLen)
    rw [List.foldl_cons, ← UInt64.ofNat_add]
    refine ⟨hv.trans h1, ?_⟩
    rw [h2, iovSum_cons, Nat.add_assoc]

theorem Serializer.Fillable.processField {s : Serializer} (h : s.Fillable) (f : Field) :
    Pushed s (s.processField f).1 f.iovecs ∧ (s.processField f).2 = f.hdr := by
  cases f with
  | string v => exact ⟨h.processBuffer v, rfl⟩
  | buffer v => exact ⟨h.processBuffer v, rfl⟩
  | iovecArray ptr vs =>
    obtain ⟨h1, h2⟩ := Serializer.foldl_processBuffer h vs 0
    rw [Nat.zero_add] at h2
    refine ⟨h1, ?_⟩
    show FieldHdr.arr ptr _ (vs.foldl _ (s, UInt64.ofNat 0)).2 = _
    rw [h2]
    rfl

theorem Serializer.Fillable.processFields {s : Serializer} (h : s.Fillable) (fs : List Field) :
    Pushed s (s.processFields fs).1 (fs.flatMap Field.iovecs) ∧
      (s.processFields fs).2 = fs.map Field.hdr := by
  induction fs generalizing s with
  | nil => exact ⟨Pushed.refl h, rfl⟩
  | cons f fs ih =>
    obtain ⟨h1, h2⟩ := h.processField f
    obtain ⟨h3, h4⟩ := ih h1.fillable
    refine ⟨?_, ?_⟩
    · exact h1.trans h3
    · show (s.processField f).2 :: ((s.processField f).1.processFields fs).2 = _
      rw [h2, h4, List.map_cons]

theorem bytesOf_nonEmpty (m : Mem) (vs : List Iovec) : bytesOf m (nonEmpty vs) = bytesOf m vs := by
  unfold nonEmpty
  induction vs with
  | nil => rfl
  | cons v vs ih =>
    by_cases hv : 0 < v.iovLen
    · rw [List.filter_cons_of_pos (by simpa using hv), bytesOf_cons, bytesOf_cons, ih]
    · rw [List.filter_cons_of_neg (by simpa using hv), bytesOf_cons, ih,
        Iovec.bytes_eq_nil m v (by omega), List.nil_append]

theorem bytesOf_flatMap_iovecs (m : Mem) (fs : List Field) :
    bytesOf m (fs.flatMap Field.iovecs) = fs.flatMap (Field.bytes m) := by
  rw [bytesOf, List.flatMap_assoc]
  rfl

/-- What `serialize` pushes: the fields in order, then the body. -/
theorem Serializer.Fillable.pushed {s : Serializer} (h : s.Fillable) (size obj : ℕ)
    (fs : List Field) :
    Pushed s (s.serialize size obj fs).1 (fs.flatMap Field.iovecs ++ [⟨obj, size⟩]) ∧
      (s.serialize size obj fs).2 = fs.map Field.hdr := by
  obtain ⟨h1, h2⟩ := h.processFields fs
  exact ⟨h1.trans (h1.fillable.processBuffer ⟨obj, size⟩), h2⟩

/-- **The serialised bytes**, when all of them have room. -/
theorem Pushed.bytesOf_entries {s s' : Serializer} {fs : List Field} {body : Iovec}
    (h : Pushed s s' (fs.flatMap Field.iovecs ++ [body])) (hempty : s.iov.entries = [])
    (hroom : (nonEmpty (fs.flatMap Field.iovecs ++ [body])).length ≤ s.room) (m : Mem) :
    bytesOf m s'.iov.entries = fs.flatMap (Field.bytes m) ++ body.bytes m := by
  rw [h.entries, hempty, List.nil_append, List.take_of_length_le hroom, bytesOf_nonEmpty,
    bytesOf_append, bytesOf_flatMap_iovecs, bytesOf_cons, bytesOf_nil, List.append_nil]

/-! ## The deserializer -/

/-- A field of the deserialised object.  A field that was not extracted stays as the body
brought it. -/
inductive FieldVal
  | buf (ptr len : ℕ)
  | arr (vs : List Iovec)
  | stale (hdr : FieldHdr)
  deriving DecidableEq

/-- The bytes a deserialised field refers to. -/
def FieldVal.bytes (m : Mem) : FieldVal → List UInt8
  | .buf ptr len => Iovec.bytes m ⟨ptr, len⟩
  | .arr vs => bytesOf m vs
  | .stale _ => []

/-- `Deserializer::process_field` for a buffer and for an iovec array: the rest of the
fragments, `failed`, and the field. -/
def desField (e : Extractor) (failed : Bool) : FieldHdr → Extractor × Bool × FieldVal
  | .buf ptr len =>
      if len.toNat = 0 then (e, failed, .buf ptr.toNat 0)
      else
        let r := e.extractFrontContinuous len.toNat
        (r.2, if r.1 = 0 then true else failed, .buf r.1 len.toNat)
  | .arr ptr len summedSize =>
      let r := e.extractFrontView summedSize.toNat
      if r.1 = some summedSize.toNat then (r.2.2, failed, .arr r.2.1)
      else (r.2.2, true, .stale (.arr ptr len summedSize))

/-- `t->process_fields(non_aligned)`. -/
def desFields (e : Extractor) (failed : Bool) :
    List FieldHdr → Extractor × Bool × List FieldVal
  | [] => (e, failed, [])
  | h :: hs =>
      let r := desField e failed h
      let rs := desFields r.1 r.2.1 hs
      (rs.1, rs.2.1, r.2.2 :: rs.2.2)

/-- `deserialize<T>(iov)`: the object (`none` for a null pointer), what is left of the
fragments, and `failed`. -/
def deserialize {σ : Type} {kinds : List FieldKind} (L : BodyLayout σ kinds) (e : Extractor) :
    Option (σ × List FieldVal) × Extractor × Bool :=
  let r := e.extractBackContinuous L.size
  if r.1 = 0 then (none, r.2, true)
  else
    let o := L.decode (Iovec.bytes r.2.mem ⟨r.1, L.size⟩)
    let rs := desFields r.2 false o.2
    (some (o.1, rs.2.2), rs.1, rs.2.1)

open Extractor in
/-- **One field.**  When the fragments start with the bytes of the field, they are what it
gets, and the rest is left. -/
theorem desField_spec {e : Extractor} (hok : e.Ok) (failed : Bool) (f : Field) (m : Mem)
    (r : List UInt8) (hrem : e.remaining = f.bytes m ++ r) (hlt : iovSum f.iovecs < 2 ^ 64) :
    ∃ e' vs val, desField e failed f.hdr = (e', failed, val) ∧
      Gives e e' vs (f.bytes m) r ∧ ∀ mem, val.bytes mem = bytesOf mem vs := by
  have hlen : (f.bytes m).length = iovSum f.iovecs := length_bytesOf m _
  have htake : e.remaining.take (iovSum f.iovecs) = f.bytes m := by
    rw [hrem, ← hlen, List.take_left]
  have hdrop : e.remaining.drop (iovSum f.iovecs) = r := by
    rw [hrem, ← hlen, List.drop_left]
  have hle : iovSum f.iovecs ≤ e.remaining.length := by
    rw [hrem, List.length_append, hlen]
    omega
  -- strings and buffers take the same path
  have hbuf : ∀ v : Iovec, f.iovecs = [v] → f.hdr = .buf (.ofNat v.iovBase) (.ofNat v.iovLen) →
      ∃ e' vs val, desField e failed f.hdr = (e', failed, val) ∧
        Gives e e' vs (f.bytes m) r ∧ ∀ mem, val.bytes mem = bytesOf mem vs := by
    intro v hv hh
    have hsum : iovSum f.iovecs = v.iovLen := by
      rw [hv]
      simp
    rw [hsum] at hlt htake hdrop hle hlen
    have hnat : (UInt64.ofNat v.iovLen).toNat = v.iovLen := UInt64.toNat_ofNat_of_lt hlt
    rw [hh, desField, hnat]
    by_cases hz : v.iovLen = 0
    · rw [if_pos hz]
      rw [hz, List.length_eq_zero_iff] at hlen
      refine ⟨e, [], _, rfl, ⟨hok, Grows.refl e, fun x hx => absurd hx (by simp), ?_, ?_⟩,
        fun mem => rfl⟩
      · rw [hlen]
        rfl
      · rw [hrem, hlen, List.nil_append]
    · obtain ⟨hne, hg⟩ := extractFrontContinuous_spec hok (by omega) hle
      rw [if_neg hz]
      simp only [if_neg hne]
      rw [htake, hdrop] at hg
      refine ⟨_, _, _, rfl, hg, fun mem => ?_⟩
      rw [bytesOf_cons, bytesOf_nil, List.append_nil]
      rfl
  cases f with
  | string v => exact hbuf v rfl rfl
  | buffer v => exact hbuf v rfl rfl
  | iovecArray ptr vs =>
    obtain ⟨hret, hg⟩ := extractFrontView_spec hok hle
    have hnat : (UInt64.ofNat (iovSum vs)).toNat = iovSum vs := UInt64.toNat_ofNat_of_lt hlt
    rw [htake, hdrop] at hg
    refine ⟨_, _, .arr _, ?_, hg, fun mem => rfl⟩
    show desField e failed (.arr ptr (.ofNat (vs.length * 16)) (.ofNat (iovSum vs))) = _
    have hret' : (e.extractFrontView (iovSum vs)).1 = some (iovSum vs) := hret
    rw [desField, hnat, if_pos hret']
    rfl

open Extractor in
/-- **Some fields.**  When the fragments start with the bytes of the fields, they get them, and keep
them as long as memory only grows. -/
theorem desFields_prefix (m : Mem) (r : List UInt8) (fs : List Field) :
    ∀ {e : Extractor}, e.Ok → e.remaining = fs.flatMap (Field.bytes m) ++ r →
      (∀ f ∈ fs, iovSum f.iovecs < 2 ^ 64) →
      ∃ e' vals, desFields e false (fs.map Field.hdr) = (e', false, vals) ∧ e'.Ok ∧ Grows e e' ∧
        e'.remaining = r ∧
        ∀ e'', Grows e' e'' → vals.map (FieldVal.bytes e''.mem) = fs.map (Field.bytes m) := by
  induction fs with
  | nil =>
    intro e hok hrem _
    exact ⟨e, [], rfl, hok, Grows.refl e, hrem, fun _ _ => rfl⟩
  | cons f fs ih =>
    intro e hok hrem hlt
    rw [List.flatMap_cons, List.append_assoc] at hrem
    obtain ⟨e1, vs, val, hrun, hg, hval⟩ :=
      desField_spec hok false f m _ hrem (hlt f (List.mem_cons_self ..))
    obtain ⟨e2, vals, hrun2, hok2, hgrow, hrest, hvals⟩ := ih hg.ok hg.left
      fun x hx => hlt x (List.mem_cons_of_mem _ hx)
    refine ⟨e2, val :: vals, ?_, hok2, hg.grows.trans hgrow, hrest, fun e3 hgrow3 => ?_⟩
    · rw [List.map_cons, desFields, hrun]
      simp only [hrun2]
    · -- what was extracted lies in old memory, which stays
      rw [List.map_cons, List.map_cons, hvals e3 hgrow3, hval,
        bytesOf_congr hg.live (hgrow.trans hgrow3).agree, hg.taken]

open Extractor in
/-- **All fields.** -/
theorem desFields_spec (m : Mem) (fs : List Field) {e : Extractor} (hok : e.Ok)
    (hrem : e.remaining = fs.flatMap (Field.bytes m))
    (hlt : ∀ f ∈ fs, iovSum f.iovecs < 2 ^ 64) :
    ∃ e' vals, desFields e false (fs.map Field.hdr) = (e', false, vals) ∧ Grows e e' ∧
      vals.map (FieldVal.bytes e'.mem) = fs.map (Field.bytes m) ∧ e'.remaining = [] := by
  obtain ⟨e', vals, hrun, -, hgrow, hrest, hvals⟩ :=
    desFields_prefix m [] fs hok (by rw [hrem, List.append_nil]) hlt
  exact ⟨e', vals, hrun, hgrow, hvals e' (Grows.refl e'), hrest⟩

theorem kind_hdr (f : Field) : f.hdr.kind = f.kind := by
  cases f <;> rfl

open Extractor in
/-- **The body.**  It is taken from the back, and what stood before it is left. -/
theorem extractBody_spec {e : Extractor} (hok : e.Ok) {w body : List UInt8}
    (hpos : 0 < body.length) (hrem : e.remaining = w ++ body) :
    (e.extractBackContinuous body.length).1 ≠ 0 ∧
      Gives e (e.extractBackContinuous body.length).2
        [⟨(e.extractBackContinuous body.length).1, body.length⟩] body w := by
  have hlen : e.remaining.length - body.length = w.length := by
    rw [hrem, List.length_append, Nat.add_sub_cancel]
  obtain ⟨hne, hg⟩ := extractBackContinuous_spec hok hpos
    (by rw [hrem, List.length_append]; omega)
  rw [hlen, hrem, List.drop_left, List.take_left] at hg
  exact ⟨hne, hg⟩

/-! ## The round trip -/

/-- **Round trip.**  A message that serialises without setting `iovfull` is recovered from
every fragmentation of its bytes: the scalar members are the original ones, every field
holds the bytes of the original field, nothing has failed and no byte is left over. -/
theorem deserialize_serialize {σ : Type} {kinds : List FieldKind} (L : BodyLayout σ kinds)
    (msg : Msg σ kinds) (s : Serializer) (hs : s.Fillable) (hempty : s.iov.entries = [])
    (obj : ℕ) (m : Mem)
    (hfull : (s.serialize L.size obj msg.fields).1.iovfull = false)
    (hobj : Iovec.bytes m ⟨obj, L.size⟩
      = L.encode msg.scalars (s.serialize L.size obj msg.fields).2)
    (e : Extractor) (hok : e.Ok)
    (hfrag : e.remaining = bytesOf m (s.serialize L.size obj msg.fields).1.iov.entries) :
    ∃ vals e', deserialize L e = (some (msg.scalars, vals), e', false) ∧
      vals.map (FieldVal.bytes e'.mem) = msg.fields.map (Field.bytes m) ∧
      e'.remaining = [] := by
  obtain ⟨hpush, hhdrs⟩ := hs.pushed L.size obj msg.fields
  have hkinds : (msg.fields.map Field.hdr).map FieldHdr.kind = kinds := by
    rw [List.map_map]
    refine Eq.trans ?_ msg.kinds_eq
    apply List.map_congr_left
    intro f _
    exact kind_hdr f
  rw [hhdrs] at hobj
  rw [hpush.bytesOf_entries hempty (hpush.full hfull).2 m, hobj] at hfrag
  have hsize := L.length_encode msg.scalars _ hkinds
  obtain ⟨hne, hg⟩ := extractBody_spec hok (by rw [hsize]; exact L.size_pos) hfrag
  rw [hsize] at hne hg
  have hbody := hg.taken
  rw [bytesOf_cons, bytesOf_nil, List.append_nil] at hbody
  obtain ⟨e', vals, hrun, -, hvals, hrest⟩ := desFields_spec m msg.fields hg.ok hg.left msg.size_lt
  refine ⟨vals, e', ?_, hvals, hrest⟩
  unfold deserialize
  simp only [if_neg hne, hbody, L.decode_encode _ _ hkinds, hrun]

/-! ## A layout of words -/

/-- `n` bytes of `x`, the lowest first. -/
def leBytes : ℕ → ℕ → List UInt8
  | 0, _ => []
  | n + 1, x => UInt8.ofNat x :: leBytes n (x / 256)

/-- The number that little-endian bytes stand for. -/
def ofLeBytes : List UInt8 → ℕ
  | [] => 0
  | b :: bs => b.toNat + 256 * ofLeBytes bs

theorem length_leBytes (n x : ℕ) : (leBytes n x).length = n := by
  induction n generalizing x with
  | zero => rfl
  | succ n ih => rw [leBytes, List.length_cons, ih]

theorem ofLeBytes_leBytes (n x : ℕ) : ofLeBytes (leBytes n x) = x % 256 ^ n := by
  induction n generalizing x with
  | zero => rw [leBytes, ofLeBytes, pow_zero, Nat.mod_one]
  | succ n ih =>
    have hbyte : (UInt8.ofNat x).toNat = x % 256 := by simp
    rw [leBytes, ofLeBytes, ih, hbyte, Nat.pow_succ, Nat.mul_comm (256 ^ n), Nat.mod_mul]

/-- One 64-bit member. -/
def word (x : UInt64) : List UInt8 := leBytes 8 x.toNat

def readWord (bs : List UInt8) : UInt64 := .ofNat (ofLeBytes (bs.take 8))

theorem length_word (x : UInt64) : (word x).length = 8 := length_leBytes 8 _

theorem readWord_word (x : UInt64) (bs : List UInt8) : readWord (word x ++ bs) = x := by
  rw [readWord, ← length_word x, List.take_left, word, ofLeBytes_leBytes,
    Nat.mod_eq_of_lt (by have := x.toNat_lt; omega), UInt64.ofNat_toNat]

theorem drop_word (x : UInt64) (bs : List UInt8) : (word x ++ bs).drop 8 = bs := by
  rw [← length_word x, List.drop_left]

/-- The words of a field header. -/
def FieldHdr.words : FieldHdr → List UInt8
  | .buf ptr len => word ptr ++ word len
  | .arr ptr len summedSize => word ptr ++ word len ++ word summedSize

def FieldKind.size : FieldKind → ℕ
  | .buf => 16
  | .arr => 24

def readHdrs : List FieldKind → List UInt8 → List FieldHdr
  | [], _ => []
  | .buf :: ks, bs => .buf (readWord bs) (readWord (bs.drop 8)) :: readHdrs ks (bs.drop 16)
  | .arr :: ks, bs =>
      .arr (readWord bs) (readWord (bs.drop 8)) (readWord (bs.drop 16)) :: readHdrs ks (bs.drop 24)

theorem length_flatMap_words (hs : List FieldHdr) :
    (hs.flatMap FieldHdr.words).length = ((hs.map FieldHdr.kind).map FieldKind.size).sum := by
  induction hs with
  | nil => rfl
  | cons h hs ih =>
    rw [List.flatMap_cons, List.length_append, ih, List.map_cons, List.map_cons]
    cases h <;> simp [FieldHdr.words, FieldHdr.kind, FieldKind.size, length_word]

theorem readHdrs_words (hs : List FieldHdr) :
    readHdrs (hs.map FieldHdr.kind) (hs.flatMap FieldHdr.words) = hs := by
  induction hs with
  | nil => rfl
  | cons h hs ih =>
    rw [List.map_cons, List.flatMap_cons]
    cases h with
    | buf ptr len =>
      have h16 : ((FieldHdr.buf ptr len).words ++ hs.flatMap FieldHdr.words).drop 16
          = hs.flatMap FieldHdr.words := by
        rw [show (16 : ℕ) = 8 + 8 from rfl, ← List.drop_drop, FieldHdr.words, List.append_assoc,
          drop_word, drop_word]
      rw [FieldHdr.kind, readHdrs, h16, ih, FieldHdr.words, List.append_assoc, readWord_word,
        drop_word, readWord_word]
    | arr ptr len sum =>
      have h16 : ((FieldHdr.arr ptr len sum).words ++ hs.flatMap FieldHdr.words).drop 16
          = word sum ++ hs.flatMap FieldHdr.words := by
        rw [show (16 : ℕ) = 8 + 8 from rfl, ← List.drop_drop, FieldHdr.words, List.append_assoc,
          List.append_assoc, drop_word, drop_word]
      have h24 : ((FieldHdr.arr ptr len sum).words ++ hs.flatMap FieldHdr.words).drop 24
          = hs.flatMap FieldHdr.words := by
        rw [show (24 : ℕ) = 16 + 8 from rfl, ← List.drop_drop, h16, drop_word]
      rw [FieldHdr.kind, readHdrs, h16, h24, ih, readWord_word, FieldHdr.words, List.append_assoc,
        List.append_assoc, readWord_word, drop_word, readWord_word]

/-- An object with one 64-bit scalar and then its fields, without padding. -/
def wordLayout (kinds : List FieldKind) : BodyLayout UInt64 kinds where
  size := 8 + (kinds.map FieldKind.size).sum
  size_pos := by omega
  encode x hs := word x ++ hs.flatMap FieldHdr.words
  decode bs := (readWord bs, readHdrs kinds (bs.drop 8))
  length_encode x hs h := by rw [List.length_append, length_word, length_flatMap_words, h]
  decode_encode x hs h := by
    rw [readWord_word, drop_word, ← h, readHdrs_words]

/-- A message with a string, an array of three iovecs (one empty) and an empty buffer. -/
def sampleMsg : Msg UInt64 [.buf, .arr, .buf] where
  scalars := 7
  fields := [.string ⟨100, 3⟩, .iovecArray 400 [⟨200, 2⟩, ⟨0, 0⟩, ⟨300, 1⟩], .buffer ⟨0, 0⟩]
  kinds_eq := rfl
  size_lt := by decide

/-- The sender's memory: the object at address 1000. -/
def sampleMem : Mem := fun a =>
  if a < 1000 then UInt8.ofNat a
  else ((wordLayout [.buf, .arr, .buf]).encode 7 (sampleMsg.fields.map Field.hdr)).getD
    (a - 1000) 0

/-- The seventy bytes, received from address 5000 on in fragments of 1, 0, 40 and 29. -/
def sampleFragments : Extractor where
  view := [⟨5000, 1⟩, ⟨0, 0⟩, ⟨5001, 40⟩, ⟨5041, 29⟩]
  mem := fun a => (sampleMsg.fields.flatMap (Field.bytes sampleMem)
    ++ Iovec.bytes sampleMem ⟨1000, 64⟩).getD (a - 5000) 0
  brk := 6000

theorem deserialize_serialize_sample :
    ∃ vals e', deserialize (wordLayout [.buf, .arr, .buf]) sampleFragments
        = (some (7, vals), e', false) ∧
      vals.map (FieldVal.bytes e'.mem) = sampleMsg.fields.map (Field.bytes sampleMem) ∧
      e'.remaining = [] :=
  deserialize_serialize (wordLayout [.buf, .arr, .buf]) sampleMsg (Serializer.new default)
    (Serializer.fillable_new default) (by simp [Serializer.new]) 1000 sampleMem (by decide)
    (by decide +kernel) sampleFragments
    ⟨by unfold sampleFragments Live; decide, by decide⟩ (by decide +kernel)

end HuiRpc
