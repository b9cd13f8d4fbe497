/-
# The request of `flat_log.h`

Model of `serialize` and `deserialize` for `request`, whose embedded messages define their own
`serialize_fields`.  A request has strings, and an array `ChunkLocation` of replicas each of which
has a string `CSLocation`.

* Both archives first process the array as a buffer: its bytes hold the lengths and, until they are
  replaced, the pointers of the sender.
* Then `AccelerateOpenOptionsPB::serialize_fields` runs once for each replica, but always on
  `ChunkLocation.begin()`: the first string is pushed and extracted as often as there are replicas,
  and the others never.
* How the compiler lays out a request and a replica is a parameter, as in `HuiRpc.RoundTrip`.

`flat_request_restored_iff` says when a request comes back whole.
-/
import HuiRpc.Nested

namespace HuiRpc

/-! ## Requests -/

/-- How a value lies in memory. -/
structure Layout (α : Type) where
  size : ℕ
  size_pos : 0 < size
  encode : α → List UInt8
  decode : List UInt8 → α
  length_encode : ∀ x, (encode x).length = size
  decode_encode : ∀ x, decode (encode x) = x

/-- The members of a `buffer`, an `array` or a `string`. -/
structure BufHdr where
  ptr : UInt64
  len : UInt64
  deriving DecidableEq

/-- What both archives make of it. -/
def BufHdr.hdr (h : BufHdr) : FieldHdr := .buf h.ptr h.len

/-- The members of a buffer that the sender holds at `v`. -/
def Iovec.bufHdr (v : Iovec) : BufHdr := ⟨.ofNat v.iovBase, .ofNat v.iovLen⟩

/-- `ReplicaLocationPB`; `disk` are the other members. -/
structure Replica (ρ : Type) where
  csLocation : Iovec
  disk : ρ

/-- The variable-length members of `request` and of the messages that lie in it. -/
structure FlatHdr where
  data : BufHdr
  placement : BufHdr
  chunkLocation : BufHdr
  strategies : BufHdr
  hostName : BufHdr
  userId : BufHdr
  deriving DecidableEq

/-- A `request` with its embedded messages; `scalars` are the members of fixed size, of all of
them.  `chunkPtr` is where the array of the replicas lies. -/
structure FlatRequest (σ ρ : Type) where
  scalars : σ
  data : Iovec
  placement : Iovec
  chunkPtr : ℕ
  replicas : List (Replica ρ)
  strategies : Iovec
  hostName : Iovec
  userId : Iovec

section Requests

variable {σ ρ : Type} (L : Layout (σ × FlatHdr)) (R : Layout (BufHdr × ρ)) (q : FlatRequest σ ρ)

/-- `ChunkLocation`. -/
def FlatRequest.chunkLocation : Iovec := ⟨q.chunkPtr, q.replicas.length * R.size⟩

/-- The members as they stand in the object. -/
def FlatRequest.hdr : FlatHdr where
  data := q.data.bufHdr
  placement := q.placement.bufHdr
  chunkLocation := (q.chunkLocation R).bufHdr
  strategies := q.strategies.bufHdr
  hostName := q.hostName.bufHdr
  userId := q.userId.bufHdr

/-- A request that lies in memory, at `obj`. -/
structure FlatRequest.Holds (m : Mem) (obj : ℕ) : Prop where
  body : Iovec.bytes m ⟨obj, L.size⟩ = L.encode (q.scalars, q.hdr R)
  array : (q.chunkLocation R).bytes m
    = q.replicas.flatMap fun r => R.encode (r.csLocation.bufHdr, r.disk)
  sizes : ∀ v ∈ [q.data, q.placement, q.chunkLocation R, q.strategies, q.hostName, q.userId],
    v.iovLen < 2 ^ 64
  locations : ∀ r ∈ q.replicas, r.csLocation.iovLen < 2 ^ 64

/-! ## The serializer -/

/-- The loop of `AccelerateOpenOptionsPB::serialize_fields`: `ChunkLocation.begin()` each time. -/
def Serializer.processLocations (rs : List (Replica ρ)) : ℕ → Serializer → Serializer
  | 0, s => s
  | n + 1, s =>
      match rs with
      | [] => s
      | first :: _ => processLocations rs n (s.processField (.string first.csLocation)).1

/-- `AccelerateOpenOptionsPB::serialize_fields`. -/
def Serializer.processOpenChunkOptions (s : Serializer) : Serializer :=
  let s := (s.processField (.string q.placement)).1
  let s := (s.processField (.buffer (q.chunkLocation R))).1
  processLocations q.replicas q.replicas.length s

/-- `serialize(x)` for a request at `obj`. -/
def Serializer.serializeRequest (s : Serializer) (size obj : ℕ) : Serializer :=
  let s := (s.processField (.string q.data)).1
  let s := s.processOpenChunkOptions R q
  let s := (s.processField (.buffer q.strategies)).1
  let s := (s.processField (.string q.hostName)).1
  let s := (s.processField (.string q.userId)).1
  s.processBuffer ⟨obj, size⟩

/-! ## The deserializer -/

/-- A request as the receiver sees it. -/
structure FlatVal (σ ρ : Type) where
  scalars : σ
  data : FieldVal
  placement : FieldVal
  replicas : List (FieldVal × ρ)
  strategies : FieldVal
  hostName : FieldVal
  userId : FieldVal

/-- The replicas in the bytes of the array. -/
def readReplicas : ℕ → List UInt8 → List (BufHdr × ρ)
  | 0, _ => []
  | n + 1, bs => R.decode (bs.take R.size) :: readReplicas n (bs.drop R.size)

/-- The loop of `AccelerateOpenOptionsPB::serialize_fields`: the string of the first replica is
extracted again and again. -/
def desLocations (h : FieldHdr) :
    ℕ → Extractor → Bool → FieldVal → Extractor × Bool × FieldVal
  | 0, e, failed, v => (e, failed, v)
  | n + 1, e, failed, _ =>
      let r := desField e failed h
      desLocations h n r.1 r.2.1 r.2.2

/-- What becomes of the replicas. -/
def desReplicas (e : Extractor) (failed : Bool) :
    List (BufHdr × ρ) → Extractor × Bool × List (FieldVal × ρ)
  | [] => (e, failed, [])
  | first :: rest =>
      let r := desLocations first.1.hdr (rest.length + 1) e failed (.stale first.1.hdr)
      (r.1, r.2.1, (r.2.2, first.2) :: rest.map fun x => (.stale x.1.hdr, x.2))

/-- A null pointer. -/
def FieldVal.isNull : FieldVal → Bool
  | .buf 0 _ => true
  | _ => false

/-- `t->process_fields(non_aligned)`, for the object with the members `x` and `h`; `none` when the
array is read through a null pointer. -/
def desRequest (e : Extractor) (x : σ) (h : FlatHdr) : Option (FlatVal σ ρ) × Extractor × Bool :=
  let data := desField e false h.data.hdr
  let placement := desField data.1 data.2.1 h.placement.hdr
  let chunk := desField placement.1 placement.2.1 h.chunkLocation.hdr
  let n := h.chunkLocation.len.toNat / R.size
  if n ≠ 0 ∧ chunk.2.2.isNull = true then (none, chunk.1, true)
  else
    let rs := desReplicas chunk.1 chunk.2.1 (readReplicas R n (chunk.2.2.bytes chunk.1.mem))
    let strategies := desField rs.1 rs.2.1 h.strategies.hdr
    let hostName := desField strategies.1 strategies.2.1 h.hostName.hdr
    let userId := desField hostName.1 hostName.2.1 h.userId.hdr
    (some
      { scalars := x
        data := data.2.2
        placement := placement.2.2
        replicas := rs.2.2
        strategies := strategies.2.2
        hostName := hostName.2.2
        userId := userId.2.2 }, userId.1, userId.2.1)

/-- `deserialize<request>(iov)`. -/
def deserializeRequest (e : Extractor) : Option (FlatVal σ ρ) × Extractor × Bool :=
  let b := e.extractBackContinuous L.size
  if b.1 = 0 then (none, b.2, true)
  else
    let o := L.decode (Iovec.bytes b.2.mem ⟨b.1, L.size⟩)
    desRequest R b.2 o.1 o.2

/-- The received request shows what the sender's does. -/
structure Restores (m : Mem) (val : FlatVal σ ρ) (mem : Mem) : Prop where
  scalars : val.scalars = q.scalars
  data : val.data.bytes mem = q.data.bytes m
  placement : val.placement.bytes mem = q.placement.bytes m
  replicas : val.replicas.map (fun x => (x.1.bytes mem, x.2))
    = q.replicas.map fun r => (r.csLocation.bytes m, r.disk)
  strategies : val.strategies.bytes mem = q.strategies.bytes m
  hostName : val.hostName.bytes mem = q.hostName.bytes m
  userId : val.userId.bytes mem = q.userId.bytes m

/-! ## What is pushed -/

/-- The strings that the loop pushes. -/
def locationFields (rs : List (Replica ρ)) : List Field :=
  match rs with
  | [] => []
  | first :: rest => List.replicate (rest.length + 1) (.string first.csLocation)

/-- All that is pushed before the body. -/
def FlatRequest.pushed : List Field :=
  [.string q.data, .string q.placement, .buffer (q.chunkLocation R)] ++
    (locationFields q.replicas ++ [.buffer q.strategies, .string q.hostName, .string q.userId])

theorem Serializer.processFields_append (s : Serializer) (fs gs : List Field) :
    (s.processFields (fs ++ gs)).1 = ((s.processFields fs).1.processFields gs).1 := by
  induction fs generalizing s with
  | nil => rfl
  | cons f fs ih => exact ih _

theorem Serializer.processLocations_eq (s : Serializer) (first : Replica ρ)
    (rest : List (Replica ρ)) (n : ℕ) :
    processLocations (first :: rest) n s
      = (s.processFields (List.replicate n (.string first.csLocation))).1 := by
  induction n generalizing s with
  | zero => rfl
  | succ n ih =>
    rw [processLocations, ih]
    rfl

/-- The serializer pushes these fields and the body. -/
theorem Serializer.serializeRequest_eq (s : Serializer) (size obj : ℕ) :
    s.serializeRequest R q size obj = (s.serialize size obj (q.pushed R)).1 := by
  have hlocs : ∀ t : Serializer, processLocations q.replicas q.replicas.length t
      = (t.processFields (locationFields q.replicas)).1 := by
    intro t
    cases q.replicas with
    | nil => rfl
    | cons first rest => exact processLocations_eq t first rest _
  unfold serializeRequest processOpenChunkOptions serialize FlatRequest.pushed
  dsimp only
  rw [processFields_append, processFields_append, hlocs]
  simp only [processFields]

theorem iovSum_replicate (n : ℕ) (v : Iovec) :
    iovSum ((List.replicate n (Field.string v)).flatMap Field.iovecs) = n * v.iovLen := by
  induction n with
  | zero => simp
  | succ n ih =>
    rw [List.replicate_succ, List.flatMap_cons, iovSum_append, ih, Nat.succ_mul]
    simp only [Field.iovecs, iovSum_cons, iovSum_nil]
    omega

theorem FlatRequest.iovSum_pushed : iovSum ((q.pushed R).flatMap Field.iovecs)
    = q.data.iovLen + q.placement.iovLen + q.replicas.length * R.size
      + iovSum ((locationFields q.replicas).flatMap Field.iovecs)
      + q.strategies.iovLen + q.hostName.iovLen + q.userId.iovLen := by
  unfold FlatRequest.pushed
  simp only [List.flatMap_append, iovSum_append, List.flatMap_cons, List.flatMap_nil,
    Field.iovecs, List.append_nil, iovSum_cons, iovSum_nil, FlatRequest.chunkLocation]
  ring

/-! ## What is extracted -/

theorem readReplicas_encode (rs : List (Replica ρ)) :
    readReplicas R rs.length (rs.flatMap fun r => R.encode (r.csLocation.bufHdr, r.disk))
      = rs.map fun r => (r.csLocation.bufHdr, r.disk) := by
  induction rs with
  | nil => rfl
  | cons r rs ih =>
    have hlen := R.length_encode (r.csLocation.bufHdr, r.disk)
    rw [List.length_cons, List.flatMap_cons, readReplicas, List.take_left' hlen,
      List.drop_left' hlen, ih, R.decode_encode, List.map_cons]

variable {R}

/-- The loop leaves the first string with its bytes. -/
theorem desLocations_spec (m : Mem) (r : List UInt8) {v : Iovec} (hlt : v.iovLen < 2 ^ 64) (n : ℕ)
    {e : Extractor} (hok : e.Ok)
    (hrem : e.remaining = (List.replicate n (Field.string v)).flatMap (Field.bytes m) ++ r)
    (old : FieldVal) :
    ∃ e' val, desLocations v.bufHdr.hdr n e false old = (e', false, val) ∧ e'.Ok ∧
      Extractor.Grows e e' ∧ e'.remaining = r ∧
      (0 < n → ∀ e'', Extractor.Grows e' e'' → val.bytes e''.mem = v.bytes m) := by
  induction n generalizing e old with
  | zero => exact ⟨e, old, rfl, hok, Extractor.Grows.refl e, hrem, fun h => absurd h (lt_irrefl 0)⟩
  | succ n ih =>
    rw [List.replicate_succ, List.flatMap_cons, List.append_assoc] at hrem
    obtain ⟨e1, vs, val, hrun, hg, hval⟩ :=
      desField_spec hok false (.string v) m _ hrem (by simpa [Field.iovecs] using hlt)
    obtain ⟨e2, val2, hrun2, hok2, hgrow, hrest, hlast⟩ := ih hg.ok hg.left val
    have hrun' : desField e false v.bufHdr.hdr = (e1, false, val) := hrun
    refine ⟨e2, val2, ?_, hok2, hg.grows.trans hgrow, hrest, fun _ e3 hgrow3 => ?_⟩
    · rw [desLocations, hrun']
      exact hrun2
    · rcases Nat.eq_zero_or_pos n with rfl | hn
      · -- the last round
        cases hrun2
        have htaken : bytesOf e1.mem vs = v.bytes m := by
          rw [hg.taken]
          exact List.append_nil _
        rw [hval, bytesOf_congr hg.live hgrow3.agree, htaken]
      · exact hlast hn e3 hgrow3

/-- What the received replicas show: the first string is there, the others are not. -/
def shownReplicas (m : Mem) (rs : List (Replica ρ)) : List (List UInt8 × ρ) :=
  match rs with
  | [] => []
  | first :: rest => (first.csLocation.bytes m, first.disk) :: rest.map fun r => ([], r.disk)

theorem desReplicas_spec (m : Mem) (r : List UInt8) (rs : List (Replica ρ))
    (hlt : ∀ x ∈ rs, x.csLocation.iovLen < 2 ^ 64) {e : Extractor} (hok : e.Ok)
    (hrem : e.remaining = (locationFields rs).flatMap (Field.bytes m) ++ r) :
    ∃ e' vals, desReplicas e false (rs.map fun r => (r.csLocation.bufHdr, r.disk))
        = (e', false, vals) ∧ e'.Ok ∧ Extractor.Grows e e' ∧ e'.remaining = r ∧
      ∀ e'', Extractor.Grows e' e'' →
        vals.map (fun x => (x.1.bytes e''.mem, x.2)) = shownReplicas m rs := by
  cases rs with
  | nil => exact ⟨e, [], rfl, hok, Extractor.Grows.refl e, hrem, fun _ _ => rfl⟩
  | cons first rest =>
    obtain ⟨e', val, hrun, hok', hgrow, hrest, hval⟩ := desLocations_spec m r
      (hlt first List.mem_cons_self) (rest.length + 1) hok hrem (.stale first.csLocation.bufHdr.hdr)
    refine ⟨e', (val, first.disk) ::
      rest.map fun r => (.stale r.csLocation.bufHdr.hdr, r.disk), ?_, hok', hgrow, hrest, ?_⟩
    · rw [List.map_cons, desReplicas, List.length_map, hrun, List.map_map]
      rfl
    · intro e'' hgrow''
      rw [List.map_cons, List.map_map, hval (Nat.succ_pos _) e'' hgrow'']
      rfl

/-- An array that was extracted is not null. -/
theorem desField_isNull {e : Extractor} {failed : Bool} {h : BufHdr}
    (hrun : (desField e failed h.hdr).2.1 = false) (hlen : h.len.toNat ≠ 0) :
    (desField e failed h.hdr).2.2.isNull = false := by
  unfold BufHdr.hdr desField at hrun ⊢
  simp only [if_neg hlen] at hrun ⊢
  by_cases hz : (e.extractFrontContinuous h.len.toNat).1 = 0
  · rw [if_pos hz] at hrun
    cases hrun
  · unfold FieldVal.isNull
    split
    · next heq => exact absurd (FieldVal.buf.inj heq).1 hz
    · rfl

/-! ## What has failed stays failed -/

theorem desField_not_failed {e : Extractor} {failed : Bool} {h : FieldHdr}
    (hrun : (desField e failed h).2.1 = false) : failed = false := by
  cases failed with
  | false => rfl
  | true =>
    rw [desField_failed] at hrun
    cases hrun

theorem desLocations_failed (h : FieldHdr) (n : ℕ) (e : Extractor) (v : FieldVal) :
    (desLocations h n e true v).2.1 = true := by
  induction n generalizing e v with
  | zero => rfl
  | succ n ih =>
    rw [desLocations, desField_failed]
    exact ih _ _

theorem desReplicas_not_failed {e : Extractor} {failed : Bool} {rs : List (BufHdr × ρ)}
    (hrun : (desReplicas e failed rs).2.1 = false) : failed = false := by
  cases failed with
  | false => rfl
  | true =>
    cases rs with
    | nil => exact hrun
    | cons first rest =>
      exact absurd ((desLocations_failed _ _ _ _).symm.trans hrun) (by decide)

/-- `process_fields` by its three parts: the fields up to the array, the replicas, and the rest. -/
theorem desRequest_eq_some {e e' : Extractor} {x : σ} {h : FlatHdr} {val : FlatVal σ ρ} :
    desRequest R e x h = (some val, e', false) ↔
      val.scalars = x ∧ ∃ e1 chunk e2,
        desFields e false [h.data.hdr, h.placement.hdr, h.chunkLocation.hdr]
          = (e1, false, [val.data, val.placement, chunk]) ∧
        desReplicas e1 false (readReplicas R (h.chunkLocation.len.toNat / R.size)
          (chunk.bytes e1.mem)) = (e2, false, val.replicas) ∧
        desFields e2 false [h.strategies.hdr, h.hostName.hdr, h.userId.hdr]
          = (e', false, [val.strategies, val.hostName, val.userId]) := by
  simp only [desRequest, desFields]
  rcases hdata : desField e false h.data.hdr with ⟨ed, bd, data⟩
  rcases hplace : desField ed bd h.placement.hdr with ⟨ep, bp, placement⟩
  rcases hchunk : desField ep bp h.chunkLocation.hdr with ⟨e1, b1, chunk⟩
  simp only [Prod.mk.injEq, List.cons.injEq, and_true]
  constructor
  · intro hrun
    split_ifs at hrun with hnull
    · cases hrun
    · rcases hreps : desReplicas e1 b1 (readReplicas R (h.chunkLocation.len.toNat / R.size)
        (chunk.bytes e1.mem)) with ⟨e2, b2, reps⟩
      rw [hreps] at hrun
      simp only [Prod.mk.injEq, Option.some.injEq] at hrun
      obtain ⟨rfl, he, hf⟩ := hrun
      obtain rfl : b2 = false :=
        desField_not_failed (desField_not_failed (desField_not_failed hf))
      obtain rfl : b1 = false := desReplicas_not_failed (by rw [hreps])
      exact ⟨rfl, e1, chunk, e2, ⟨rfl, rfl, rfl, rfl, rfl⟩, hreps, he, hf, rfl, rfl, rfl⟩
  · rintro ⟨hx, e1', chunk', e2, ⟨rfl, rfl, hvdata, hvplace, rfl⟩, hreps, he, hf, hv1, hv2, hv3⟩
    have hnull : ¬ (h.chunkLocation.len.toNat / R.size ≠ 0 ∧ chunk.isNull = true) := by
      rintro ⟨hn, hz⟩
      have hlen : h.chunkLocation.len.toNat ≠ 0 := by
        intro hz
        rw [hz, Nat.zero_div] at hn
        exact hn rfl
      have hnot := @desField_isNull ep bp h.chunkLocation (by rw [hchunk]) hlen
      rw [hchunk, hz] at hnot
      cases hnot
    rw [if_neg hnull, hreps]
    subst hx
    rw [he, hf, hv1, hv2, hv3, hvdata, hvplace]

/-! ## How many bytes are extracted -/

theorem desFields_not_failed {e : Extractor} {failed : Bool} {hs : List FieldHdr}
    (hrun : (desFields e failed hs).2.1 = false) : failed = false := by
  induction hs generalizing e failed with
  | nil => exact hrun
  | cons h hs ih => exact desField_not_failed (ih hrun)

theorem desFields_size {e e' : Extractor} (hok : e.Ok) {hs : List FieldHdr}
    {vals : List FieldVal} (hrun : desFields e false hs = (e', false, vals)) :
    e'.Ok ∧ (vals.map FieldVal.size).sum + e'.remaining.length = e.remaining.length := by
  induction hs generalizing e vals with
  | nil =>
    cases hrun
    exact ⟨hok, Nat.zero_add _⟩
  | cons h hs ih =>
    rcases hone : desField e false h with ⟨e1, b, v⟩
    rcases htail : desFields e1 b hs with ⟨e2, b2, vs⟩
    simp only [desFields, hone, htail] at hrun
    obtain ⟨rfl, rfl, rfl⟩ := hrun
    obtain rfl : b = false := desFields_not_failed (by rw [htail])
    obtain ⟨hok1, hv⟩ := desField_size hok hone
    obtain ⟨hok', hrest⟩ := ih hok1 htail
    refine ⟨hok', ?_⟩
    rw [List.map_cons, List.sum_cons]
    omega

theorem desField_buf_size (e : Extractor) (failed : Bool) (h : BufHdr) :
    (desField e failed h.hdr).2.2.size = h.len.toNat := by
  rw [BufHdr.hdr, desField]
  by_cases hz : h.len.toNat = 0
  · rw [if_pos hz]
    exact hz.symm
  · rw [if_neg hz]
    rfl

theorem desLocations_size {h : BufHdr} {n : ℕ} {e e' : Extractor} {v v' : FieldVal} (hok : e.Ok)
    (hrun : desLocations h.hdr n e false v = (e', false, v')) :
    e'.Ok ∧ n * h.len.toNat + e'.remaining.length = e.remaining.length ∧
      (0 < n → v'.size = h.len.toNat) := by
  induction n generalizing e v with
  | zero =>
    cases hrun
    exact ⟨hok, by omega, fun h => absurd h (lt_irrefl 0)⟩
  | succ n ih =>
    have hsize := desField_buf_size e false h
    rcases hone : desField e false h.hdr with ⟨e1, b, v1⟩
    rw [hone] at hsize
    rw [desLocations, hone] at hrun
    dsimp only at hrun hsize
    cases b with
    | true =>
      have hfailed := (desLocations_failed _ _ _ _).symm.trans (congrArg (·.2.1) hrun)
      exact absurd hfailed (by simp)
    | false =>
      obtain ⟨hok1, hv⟩ := desField_size hok hone
      obtain ⟨hok', hrest, hlast⟩ := ih hok1 hrun
      refine ⟨hok', ?_, fun _ => ?_⟩
      · rw [Nat.succ_mul]
        omega
      · rcases Nat.eq_zero_or_pos n with rfl | hn
        · cases hrun
          exact hsize
        · exact hlast hn

/-- The size of the string of the first replica. -/
def firstSize (rs : List (FieldVal × ρ)) : ℕ :=
  match rs with
  | [] => 0
  | first :: _ => first.1.size

theorem desReplicas_size {e e' : Extractor} (hok : e.Ok) {rs : List (BufHdr × ρ)}
    {vals : List (FieldVal × ρ)} (hrun : desReplicas e false rs = (e', false, vals)) :
    e'.Ok ∧ vals.length = rs.length ∧
      vals.length * firstSize vals + e'.remaining.length = e.remaining.length := by
  cases rs with
  | nil =>
    cases hrun
    exact ⟨hok, rfl, by simp⟩
  | cons first rest =>
    rcases hone : desLocations first.1.hdr (rest.length + 1) e false (.stale first.1.hdr)
      with ⟨e1, b, v⟩
    simp only [desReplicas, hone] at hrun
    obtain ⟨rfl, rfl, rfl⟩ := hrun
    obtain ⟨hok', hsum, hv⟩ := desLocations_size hok hone
    refine ⟨hok', by simp, ?_⟩
    rw [List.length_cons, List.length_map]
    show (rest.length + 1) * v.size + _ = _
    rw [hv (Nat.succ_pos _)]
    exact hsum

theorem length_readReplicas (n : ℕ) (bs : List UInt8) : (readReplicas R n bs).length = n := by
  induction n generalizing bs with
  | zero => rfl
  | succ n ih => rw [readReplicas, List.length_cons, ih]

variable {L}

/-- A request that was received without failure refers to no more bytes than there were. -/
theorem deserializeRequest_size {e e' : Extractor} (hok : e.Ok) {val : FlatVal σ ρ}
    (hrun : deserializeRequest L R e = (some val, e', false)) :
    val.data.size + val.placement.size + val.replicas.length * R.size
      + val.replicas.length * firstSize val.replicas + val.strategies.size + val.hostName.size
      + val.userId.size + L.size ≤ e.remaining.length := by
  unfold deserializeRequest at hrun
  by_cases hlen : L.size ≤ e.remaining.length
  · obtain ⟨hne, hg⟩ := Extractor.extractBackContinuous_spec hok L.size_pos hlen
    rw [if_neg hne] at hrun
    obtain ⟨-, e1, chunk, e2, hfront, hreps, hback⟩ := desRequest_eq_some.mp hrun
    obtain ⟨hok1, hsum1⟩ := desFields_size hg.ok hfront
    obtain ⟨hok2, hcount, hsum2⟩ := desReplicas_size hok1 hreps
    obtain ⟨-, hsum3⟩ := desFields_size hok2 hback
    -- the array has room for the replicas that are read from it
    have hchunk : val.replicas.length * R.size ≤ chunk.size := by
      simp only [desFields, Prod.mk.injEq, List.cons.injEq, and_true] at hfront
      rw [← hfront.2.2.2.2, desField_buf_size, hcount, length_readReplicas]
      exact Nat.div_mul_le_self _ _
    have hleft := congrArg List.length hg.left
    rw [List.length_take] at hleft
    simp only [List.map_cons, List.sum_cons] at hsum1 hsum3
    omega
  · have hnull := Extractor.extractBackContinuous_short (Nat.lt_of_not_le hlen)
    simp [hnull] at hrun

/-! ## The round trip -/

variable {q}

/-- When everything has arrived, all members are there but the strings of the other replicas. -/
theorem deserializeRequest_arrived {m : Mem} {obj : ℕ} (hq : q.Holds L R m obj) {e : Extractor}
    (hok : e.Ok)
    (hrem : e.remaining = (q.pushed R).flatMap (Field.bytes m) ++ L.encode (q.scalars, q.hdr R)) :
    ∃ val e', deserializeRequest L R e = (some val, e', false) ∧ val.scalars = q.scalars ∧
      [val.data, val.placement, val.strategies, val.hostName, val.userId].map
        (FieldVal.bytes e'.mem)
        = [q.data, q.placement, q.strategies, q.hostName, q.userId].map (Iovec.bytes m) ∧
      val.replicas.map (fun x => (x.1.bytes e'.mem, x.2)) = shownReplicas m q.replicas := by
  have hsize := L.length_encode (q.scalars, q.hdr R)
  obtain ⟨hne, hg⟩ := extractBody_spec hok (by rw [hsize]; exact L.size_pos) hrem
  rw [hsize] at hne hg
  have hbody := hg.taken
  rw [bytesOf_cons, bytesOf_nil, List.append_nil] at hbody
  have hleft := hg.left
  rw [FlatRequest.pushed, List.flatMap_append, List.flatMap_append] at hleft
  have hlt : ∀ f : Field, ∀ v ∈ [q.data, q.placement, q.chunkLocation R, q.strategies, q.hostName,
      q.userId], f.iovecs = [v] → iovSum f.iovecs < 2 ^ 64 := by
    intro f v hv hf
    rw [hf, iovSum_cons]
    exact hq.sizes v hv
  obtain ⟨e1, vals1, hrun1, hok1, hgrow1, hrem1, hvals1⟩ := desFields_prefix m _ _ hg.ok hleft (by
    simp only [List.mem_cons, List.not_mem_nil, or_false]
    rintro f (rfl | rfl | rfl)
    · exact hlt _ q.data (by simp) rfl
    · exact hlt _ q.placement (by simp) rfl
    · exact hlt _ (q.chunkLocation R) (by simp) rfl)
  obtain ⟨e2, reps, hrun2, hok2, hgrow2, hrem2, hvals2⟩ :=
    desReplicas_spec m _ q.replicas hq.locations hok1 hrem1
  obtain ⟨e3, vals3, hrun3, -, hgrow3, -, hvals3⟩ := desFields_prefix m [] _ hok2
    (by rw [hrem2, List.append_nil]) (by
    simp only [List.mem_cons, List.not_mem_nil, or_false]
    rintro f (rfl | rfl | rfl)
    · exact hlt _ q.strategies (by simp) rfl
    · exact hlt _ q.hostName (by simp) rfl
    · exact hlt _ q.userId (by simp) rfl)
  obtain ⟨data, placement, chunk, rfl⟩ : ∃ a b c, vals1 = [a, b, c] :=
    List.length_eq_three.mp (by simpa using congrArg List.length (hvals1 e1 (.refl e1)))
  obtain ⟨strategies, hostName, userId, rfl⟩ : ∃ a b c, vals3 = [a, b, c] :=
    List.length_eq_three.mp (by simpa using congrArg List.length (hvals3 e3 (.refl e3)))
  have hone : ∀ v : Iovec, bytesOf m [v] = v.bytes m := fun v => List.append_nil _
  have hfront := hvals1 e3 (hgrow2.trans hgrow3)
  have hchunk := hvals1 e1 (.refl e1)
  have hback := hvals3 e3 (.refl e3)
  simp only [List.map_cons, List.map_nil, List.cons.injEq, and_true, Field.bytes, Field.iovecs,
    hone] at hfront hchunk hback
  refine ⟨⟨q.scalars, data, placement, reps, strategies, hostName, userId⟩, e3, ?_, rfl, ?_,
    hvals2 e3 hgrow3⟩
  · have hnum : (q.hdr R).chunkLocation.len.toNat / R.size = q.replicas.length := by
      have hnat : (q.hdr R).chunkLocation.len.toNat = q.replicas.length * R.size :=
        UInt64.toNat_ofNat_of_lt (hq.sizes (q.chunkLocation R) (by simp))
      rw [hnat, Nat.mul_div_cancel _ R.size_pos]
    unfold deserializeRequest
    simp only [if_neg hne, hbody, L.decode_encode]
    refine desRequest_eq_some.mpr ⟨rfl, e1, chunk, e2, hrun1, ?_, hrun3⟩
    rw [hnum, hchunk.2.2, hq.array, readReplicas_encode]
    exact hrun2
  · simp only [List.map_cons, List.map_nil]
    rw [hfront.1, hfront.2.1, hback.1, hback.2.1, hback.2.2]

/-- The strings of the other replicas must be empty for nothing to be missing. -/
theorem shownReplicas_eq_iff (m : Mem) (rs : List (Replica ρ)) :
    shownReplicas m rs = rs.map (fun r => (r.csLocation.bytes m, r.disk)) ↔
      ∀ r ∈ rs.tail, r.csLocation.iovLen = 0 := by
  cases rs with
  | nil => simp [shownReplicas]
  | cons first rest =>
    simp only [shownReplicas, List.map_cons, List.cons.injEq, true_and, List.map_inj_left,
      Prod.mk.injEq, and_true, List.tail_cons]
    apply forall₂_congr
    intro r _
    rw [← Iovec.length_bytes m, List.length_eq_zero_iff]
    exact eq_comm

/-- A restored request refers to as many bytes as were to be pushed. -/
theorem Restores.size {m mem : Mem} {val : FlatVal σ ρ} (h : Restores q m val mem) :
    val.data.size + val.placement.size + val.replicas.length * R.size
      + val.replicas.length * firstSize val.replicas + val.strategies.size + val.hostName.size
      + val.userId.size = iovSum ((q.pushed R).flatMap Field.iovecs) := by
  have hlen : ∀ {v : FieldVal} {w : Iovec}, v.bytes mem = w.bytes m → v.size = w.iovLen := by
    intro v w hvw
    rw [← FieldVal.length_bytes mem, hvw, Iovec.length_bytes]
  have hcount : val.replicas.length = q.replicas.length := by
    simpa using congrArg List.length h.replicas
  have hlocs : val.replicas.length * firstSize val.replicas
      = iovSum ((locationFields q.replicas).flatMap Field.iovecs) := by
    have hreps := h.replicas
    rw [hcount]
    cases hq : q.replicas with
    | nil => simp [locationFields]
    | cons first rest =>
      cases hv : val.replicas with
      | nil =>
        rw [hv, hq] at hreps
        cases hreps
      | cons v vs =>
        rw [hv, hq, List.map_cons, List.map_cons, List.cons.injEq, Prod.mk.injEq] at hreps
        unfold firstSize locationFields
        dsimp only
        rw [hlen hreps.1.1, List.length_cons, iovSum_replicate]
  rw [FlatRequest.iovSum_pushed, hlen h.data, hlen h.placement, hlen h.strategies,
    hlen h.hostName, hlen h.userId, hlocs, hcount]

variable (L R q)

/-- **The round trip of a request.**  From every fragmentation of the pushed bytes a request comes
back whole iff the string of every replica but the first is empty, and the iovector has room for
all that is pushed. -/
theorem flat_request_restored_iff (s : Serializer) (hs : s.Fillable) (hempty : s.iov.entries = [])
    (m : Mem) (obj : ℕ) (hq : q.Holds L R m obj) (e : Extractor) (hok : e.Ok)
    (hfrag : e.remaining = bytesOf m (s.serializeRequest R q L.size obj).iov.entries) :
    (∃ val e', deserializeRequest L R e = (some val, e', false) ∧ Restores q m val e'.mem) ↔
      (∀ r ∈ q.replicas.tail, r.csLocation.iovLen = 0) ∧
        (nonEmpty ((q.pushed R).flatMap Field.iovecs)).length < s.room := by
  obtain ⟨hpush, -⟩ := hs.pushed L.size obj (q.pushed R)
  rw [Serializer.serializeRequest_eq] at hfrag
  by_cases hroom : (nonEmpty ((q.pushed R).flatMap Field.iovecs)).length < s.room
  · have hall : (nonEmpty ((q.pushed R).flatMap Field.iovecs ++ [⟨obj, L.size⟩])).length
        ≤ s.room := by
      have hbody : (nonEmpty [⟨obj, L.size⟩]).length ≤ 1 := List.length_filter_le ..
      rw [nonEmpty_append, List.length_append]
      omega
    rw [hpush.bytesOf_entries hempty hall m, hq.body] at hfrag
    obtain ⟨val, e', hrun, hscalars, hfields, hreps⟩ := deserializeRequest_arrived hq hok hfrag
    rw [← shownReplicas_eq_iff m]
    constructor
    · rintro ⟨val', e'', hrun', hres⟩
      rw [hrun] at hrun'
      obtain ⟨rfl, rfl⟩ := hrun'
      exact ⟨hreps.symm.trans hres.replicas, hroom⟩
    · rintro ⟨hshown, -⟩
      simp only [List.map_cons, List.map_nil, List.cons.injEq, and_true] at hfields
      obtain ⟨hdata, hplacement, hstrategies, hhost, huser⟩ := hfields
      exact ⟨val, e', hrun, hscalars, hdata, hplacement, hreps.trans hshown, hstrategies, hhost,
        huser⟩
  · -- without room for the body, fewer bytes arrive than the request refers to
    refine iff_of_false ?_ fun h => hroom h.2
    rintro ⟨val, e', hrun, hres⟩
    have hle := hpush.length_entries_le hempty (Nat.le_of_not_lt hroom) m
    rw [← hfrag] at hle
    have hless := deserializeRequest_size hok hrun
    have hsum := hres.size (R := R)
    have hpos := L.size_pos
    omega

end Requests

/-! ## A layout of words -/

/-- Members of 64 bits, without padding. -/
def words (xs : List UInt64) : List UInt8 := xs.flatMap word

def readWords : ℕ → List UInt8 → List UInt64
  | 0, _ => []
  | n + 1, bs => readWord bs :: readWords n (bs.drop 8)

theorem length_words (xs : List UInt64) : (words xs).length = 8 * xs.length := by
  unfold words
  induction xs with
  | nil => rfl
  | cons x xs ih =>
    rw [List.flatMap_cons, List.length_append, length_word, ih, List.length_cons]
    omega

theorem readWords_words {n : ℕ} (xs : List UInt64) (h : xs.length = n) :
    readWords n (words xs) = xs := by
  unfold words
  induction xs generalizing n with
  | nil =>
    subst h
    rfl
  | cons x xs ih =>
    subst h
    rw [List.flatMap_cons, List.length_cons, readWords, readWord_word, drop_word, ih rfl]

/-- A replica with one other member. -/
def wordReplicaLayout : Layout (BufHdr × UInt64) where
  size := 24
  size_pos := by decide
  encode x := words [x.1.ptr, x.1.len, x.2]
  decode bs :=
    match readWords 3 bs with
    | [ptr, len, disk] => (⟨ptr, len⟩, disk)
    | _ => (⟨0, 0⟩, 0)
  length_encode x := length_words _
  decode_encode x := by
    rw [readWords_words _ (by rfl)]

/-- A request with one scalar member. -/
def wordFlatLayout : Layout (UInt64 × FlatHdr) where
  size := 104
  size_pos := by decide
  encode x := words [x.1, x.2.data.ptr, x.2.data.len, x.2.placement.ptr, x.2.placement.len,
    x.2.chunkLocation.ptr, x.2.chunkLocation.len, x.2.strategies.ptr, x.2.strategies.len,
    x.2.hostName.ptr, x.2.hostName.len, x.2.userId.ptr, x.2.userId.len]
  decode bs :=
    match readWords 13 bs with
    | [x, p1, l1, p2, l2, p3, l3, p4, l4, p5, l5, p6, l6] =>
        (x, ⟨⟨p1, l1⟩, ⟨p2, l2⟩, ⟨p3, l3⟩, ⟨p4, l4⟩, ⟨p5, l5⟩, ⟨p6, l6⟩⟩)
    | _ => (0, ⟨⟨0, 0⟩, ⟨0, 0⟩, ⟨0, 0⟩, ⟨0, 0⟩, ⟨0, 0⟩, ⟨0, 0⟩⟩)
  length_encode x := length_words _
  decode_encode x := by
    rw [readWords_words _ (by rfl)]

/-- A request with three bytes of data and two replicas, with strings of two and of `k` bytes. -/
def twoReplicas (k : ℕ) : FlatRequest UInt64 UInt64 where
  scalars := 7
  data := ⟨100, 3⟩
  placement := ⟨0, 0⟩
  chunkPtr := 400
  replicas := [⟨⟨200, 2⟩, 5⟩, ⟨⟨300, k⟩, 6⟩]
  strategies := ⟨0, 0⟩
  hostName := ⟨0, 0⟩
  userId := ⟨0, 0⟩

/-- The sender's memory: the array at 400, the object at 1000. -/
def twoReplicasMem (k : ℕ) : Mem := fun a =>
  if a < 400 then UInt8.ofNat a
  else if a < 1000 then
    ((twoReplicas k).replicas.flatMap fun r =>
      wordReplicaLayout.encode (r.csLocation.bufHdr, r.disk)).getD (a - 400) 0
  else (wordFlatLayout.encode (7, (twoReplicas k).hdr wordReplicaLayout)).getD (a - 1000) 0

/-- What arrives, from 5000 on in two fragments. -/
def twoReplicasFragments (k : ℕ) : Extractor where
  view := [⟨5000, 20⟩, ⟨5020, 139⟩]
  mem := fun a => (((twoReplicas k).pushed wordReplicaLayout).flatMap
    (Field.bytes (twoReplicasMem k)) ++ Iovec.bytes (twoReplicasMem k) ⟨1000, 104⟩).getD
      (a - 5000) 0
  brk := 6000

theorem flat_request_restored_second_empty :
    ∃ val e', deserializeRequest wordFlatLayout wordReplicaLayout (twoReplicasFragments 0)
        = (some val, e', false) ∧ Restores (twoReplicas 0) (twoReplicasMem 0) val e'.mem :=
  (flat_request_restored_iff wordFlatLayout wordReplicaLayout (twoReplicas 0)
    (Serializer.new default) (Serializer.fillable_new default) (by simp [Serializer.new])
    (twoReplicasMem 0) 1000
    ⟨by decide +kernel, by decide +kernel, by decide, by decide⟩ (twoReplicasFragments 0)
    ⟨by unfold twoReplicasFragments Live; decide, by decide⟩ (by decide +kernel)).mpr
    ⟨by decide, by decide⟩

/-- The second replica has a string of two bytes: the receiver is left with the sender's address. -/
theorem second_replica_lost :
    (twoReplicas 2).Holds wordFlatLayout wordReplicaLayout (twoReplicasMem 2) 1000 ∧
      (twoReplicasFragments 2).remaining = bytesOf (twoReplicasMem 2)
        ((Serializer.new default).serializeRequest wordReplicaLayout (twoReplicas 2) 104
          1000).iov.entries ∧
      (deserializeRequest wordFlatLayout wordReplicaLayout (twoReplicasFragments 2)).2.2 = false ∧
      ¬ ∃ val e', deserializeRequest wordFlatLayout wordReplicaLayout (twoReplicasFragments 2)
          = (some val, e', false) ∧ Restores (twoReplicas 2) (twoReplicasMem 2) val e'.mem := by
  refine ⟨⟨by decide +kernel, by decide +kernel, by decide, by decide⟩, by decide +kernel,
    by decide +kernel, ?_⟩
  rintro ⟨val, e', hrun, hres⟩
  have hsecond : (deserializeRequest wordFlatLayout wordReplicaLayout
      (twoReplicasFragments 2)).1.map (fun v => v.replicas.tail)
        = some [(.stale (.buf 300 2), 6)] := by decide +kernel
  rw [hrun] at hsecond
  have htail := congrArg List.tail hres.replicas
  have hval : val.replicas.tail = [(.stale (.buf 300 2), 6)] := Option.some.inj hsecond
  rw [← List.map_tail, hval] at htail
  have hbytes : [(([] : List UInt8), (6 : UInt64))]
      = [(Iovec.bytes (twoReplicasMem 2) ⟨300, 2⟩, 6)] := htail
  exact absurd hbytes (by decide)

end HuiRpc
