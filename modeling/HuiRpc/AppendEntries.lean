/-
# Append-entries requests of the replicated state machine

`app_appendentries_t::serialize` and `unpack` of `apps/smr/appendentries.h`, and the pool
`AppMemPool` of `apps/apps_common.h` that the buffers of the unpacked commands come from.

* The structs have their layout for 64-bit targets; what is in their padding is a parameter.
* Pointers into the memory of the sender are sent as null.
* The request arrives in any number of iovecs, which `unpack` copies into one buffer, `pre_req`.
* The array for the unpacked entries is apart from the memory: it is the list that `unpack` returns.

`unpack_serialize` says that the receiver gets what was sent, each command in a buffer of its own.
-/
import HuiRpc.ExtractForms
import HuiRpc.Lib.Extents
import HuiRpc.Lib.Layout
import HuiRpc.Lib.Runs

namespace HuiRpc

open Copies Extents Layout Runs

/-! ## The pool -/

/-- `AppMemPool<T>`: the arrays it has allocated with their numbers of objects, the objects that are
free, the back of `pool_` first, and the end of the memory that is in use. -/
structure AppMemPool where
  numToAlloc : ℕ
  backingPtrVec : List (ℕ × ℕ)
  pool : List ℕ
  brk : ℕ

namespace AppMemPool

variable {size a n : ℕ} {p : AppMemPool} {out : List ℕ}

def init : AppMemPool := ⟨1024, [], [], 1⟩

/-- `extend_pool`, for objects of `size` bytes. -/
def extendPool (size : ℕ) (p : AppMemPool) : AppMemPool where
  numToAlloc := 2 * p.numToAlloc
  backingPtrVec := p.backingPtrVec ++ [(p.brk, p.numToAlloc)]
  pool := ((List.range p.numToAlloc).map fun i => p.brk + i * size).reverse ++ p.pool
  brk := p.brk + p.numToAlloc * size

/-- `alloc`; the pool is not empty where its back is taken, see `Ok.alloc`. -/
def alloc (size : ℕ) (p : AppMemPool) : ℕ × AppMemPool :=
  let p := if p.pool = [] then p.extendPool size else p
  (p.pool.headD 0, { p with pool := p.pool.tail })

def free (p : AppMemPool) (t : ℕ) : AppMemPool := { p with pool := t :: p.pool }

/-- The memory of an array of objects. -/
def backing (size : ℕ) (b : ℕ × ℕ) : Extent := ⟨b.1, b.2 * size⟩

/-- An object of one of the arrays. -/
def IsObject (size : ℕ) (p : AppMemPool) (a : ℕ) : Prop :=
  ∃ b ∈ p.backingPtrVec, ∃ k < b.2, a = b.1 + k * size

/-- The objects that are free and those that are handed out are different objects of the arrays,
which do not overlap. -/
structure Ok (size : ℕ) (p : AppMemPool) (out : List ℕ) : Prop where
  nodup : (out ++ p.pool).Nodup
  objects : ∀ a ∈ out ++ p.pool, p.IsObject size a
  apart : p.backingPtrVec.Pairwise fun b c => (backing size b).Apart (backing size c)
  below : ∀ b ∈ p.backingPtrVec, b.1 + b.2 * size ≤ p.brk
  num_pos : 0 < p.numToAlloc

theorem Ok.init (size : ℕ) : Ok size init [] where
  nodup := List.nodup_nil
  objects := fun _ ha => absurd ha List.not_mem_nil
  apart := List.Pairwise.nil
  below := fun _ hb => absurd hb List.not_mem_nil
  num_pos := by decide

/-- An element lies in its array. -/
theorem inside_backing {b : ℕ × ℕ} {k : ℕ} (hk : k < b.2) :
    Extent.Inside ⟨b.1 + k * size, size⟩ (backing size b) := by
  have hmul : (k + 1) * size ≤ b.2 * size := Nat.mul_le_mul_right size hk
  rw [Nat.succ_mul] at hmul
  refine ⟨Nat.le_add_right _ _, ?_⟩
  show b.1 + k * size + size ≤ b.1 + b.2 * size
  omega

/-- Different objects do not overlap. -/
theorem Ok.apart_objects {a' : ℕ} (h : Ok size p out) (ha : p.IsObject size a)
    (ha' : p.IsObject size a') (hne : a ≠ a') : Extent.Apart ⟨a, size⟩ ⟨a', size⟩ := by
  obtain ⟨b, hb, k, hk, rfl⟩ := ha
  obtain ⟨b', hb', k', hk', rfl⟩ := ha'
  by_cases hbb : b = b'
  · -- two elements of one array
    subst hbb
    have hkk : k ≠ k' := by
      rintro rfl
      exact hne rfl
    rcases Nat.lt_or_gt_of_ne hkk with hlt | hlt
    · have hmul : (k + 1) * size ≤ k' * size := Nat.mul_le_mul_right size hlt
      rw [Nat.succ_mul] at hmul
      left
      show b.1 + k * size + size ≤ b.1 + k' * size
      omega
    · have hmul : (k' + 1) * size ≤ k * size := Nat.mul_le_mul_right size hlt
      rw [Nat.succ_mul] at hmul
      right
      show b.1 + k' * size + size ≤ b.1 + k * size
      omega
  · have hsymm : Std.Symm fun b c : ℕ × ℕ => (backing size b).Apart (backing size c) :=
      ⟨fun _ _ h => h.symm⟩
    exact (h.apart.forall hb hb' hbb).mono (inside_backing hk) (inside_backing hk')

/-- The objects that were handed out last do not overlap. -/
theorem Ok.apart_out {bufs : List ℕ} (h : Ok size p (out ++ bufs)) :
    bufs.Pairwise fun a b => Extent.Apart ⟨a, size⟩ ⟨b, size⟩ := by
  have hnd := (List.nodup_append.mp (List.nodup_append.mp h.nodup).1).2.1
  refine List.Pairwise.imp_of_mem ?_ hnd
  intro a b ha hb hne
  have hobj : ∀ x ∈ bufs, p.IsObject size x := fun x hx =>
    h.objects x (List.mem_append_left _ (List.mem_append_right _ hx))
  exact h.apart_objects (hobj a ha) (hobj b hb) hne

/-- A new array is apart from the memory in use. -/
theorem Ok.extendPool (hsize : 0 < size) (h : Ok size p out) : Ok size (p.extendPool size) out := by
  have hnew : ∀ x, x ∈ ((List.range p.numToAlloc).map fun i => p.brk + i * size).reverse →
      ∃ k < p.numToAlloc, x = p.brk + k * size := by
    intro x hx
    rw [List.mem_reverse, List.mem_map] at hx
    obtain ⟨k, hk, rfl⟩ := hx
    exact ⟨k, List.mem_range.mp hk, rfl⟩
  have hold : ∀ x ∈ out ++ p.pool, x < p.brk := by
    intro x hx
    obtain ⟨b, hb, k, hk, rfl⟩ := h.objects x hx
    have hin : b.1 + k * size + size ≤ b.1 + b.2 * size := (inside_backing hk).2
    have := h.below b hb
    omega
  have hmem : ∀ x ∈ out ++ (p.extendPool size).pool,
      (∃ k < p.numToAlloc, x = p.brk + k * size) ∨ x ∈ out ++ p.pool := by
    intro x hx
    rcases List.mem_append.mp hx with hx | hx
    · exact Or.inr (List.mem_append_left _ hx)
    · rcases List.mem_append.mp hx with hx | hx
      · exact Or.inl (hnew x hx)
      · exact Or.inr (List.mem_append_right _ hx)
  refine ⟨?_, fun x hx => ?_, ?_, fun b hb => ?_, ?_⟩
  · obtain ⟨hout, hpool, hdisj⟩ := List.nodup_append.mp h.nodup
    refine List.nodup_append.mpr ⟨hout, List.nodup_append.mpr ⟨?_, hpool, ?_⟩, ?_⟩
    · refine List.nodup_reverse.mpr (List.Nodup.map (fun i j hij => ?_) List.nodup_range)
      exact Nat.eq_of_mul_eq_mul_right hsize (Nat.add_left_cancel hij)
    · rintro x hx y hy rfl
      obtain ⟨k, -, rfl⟩ := hnew x hx
      have := hold _ (List.mem_append_right _ hy)
      omega
    · rintro x hx y hy rfl
      rcases List.mem_append.mp hy with hy | hy
      · obtain ⟨k, -, rfl⟩ := hnew x hy
        have := hold _ (List.mem_append_left _ hx)
        omega
      · exact hdisj x hx x hy rfl
  · rcases hmem x hx with ⟨k, hk, rfl⟩ | hx
    · exact ⟨(p.brk, p.numToAlloc), List.mem_append_right _ (List.mem_singleton_self _), k, hk, rfl⟩
    · obtain ⟨b, hb, hobj⟩ := h.objects x hx
      exact ⟨b, List.mem_append_left _ hb, hobj⟩
  · refine List.pairwise_append.mpr ⟨h.apart, List.pairwise_singleton _ _, fun b hb c hc => ?_⟩
    rw [List.mem_singleton.mp hc]
    exact Or.inl (h.below b hb)
  · show b.1 + b.2 * size ≤ p.brk + p.numToAlloc * size
    rcases List.mem_append.mp hb with hb | hb
    · exact (h.below b hb).trans (Nat.le_add_right _ _)
    · rw [List.mem_singleton.mp hb]
  · exact Nat.mul_pos Nat.two_pos h.num_pos

/-- **`alloc`** hands out an object that was free or is new. -/
theorem Ok.alloc (hsize : 0 < size) (h : Ok size p out) :
    Ok size (p.alloc size).2 (out ++ [(p.alloc size).1]) := by
  have hpop : ∀ q : AppMemPool, Ok size q out → q.pool ≠ [] →
      Ok size { q with pool := q.pool.tail } (out ++ [q.pool.headD 0]) := by
    intro q hq hne
    have hsplit : out ++ [q.pool.headD 0] ++ q.pool.tail = out ++ q.pool := by
      rw [List.append_assoc]
      cases hpool : q.pool with
      | nil => exact absurd hpool hne
      | cons x xs => rfl
    refine ⟨?_, ?_, hq.apart, hq.below, hq.num_pos⟩
    · rw [hsplit]
      exact hq.nodup
    · rw [hsplit]
      exact hq.objects
  unfold AppMemPool.alloc
  by_cases hempty : p.pool = []
  · rw [if_pos hempty]
    refine hpop _ (h.extendPool hsize) fun hnil => ?_
    have hlen := congrArg List.length hnil
    have := h.num_pos
    simp [AppMemPool.extendPool] at hlen
    omega
  · rw [if_neg hempty]
    exact hpop p h hempty

theorem Ok.free (h : Ok size p out) (ha : a ∈ out) : Ok size (p.free a) (out.erase a) := by
  have hperm : (out.erase a ++ (p.free a).pool).Perm (out ++ p.pool) :=
    List.perm_middle.trans ((List.perm_cons_erase ha).symm.append_right _)
  refine ⟨hperm.nodup_iff.mpr h.nodup, fun x hx => ?_, h.apart, h.below, h.num_pos⟩
  exact h.objects x (hperm.mem_iff.mp hx)

/-- The memory of the pool is apart from an extent below the end of the memory in use. -/
structure Away (size : ℕ) (p : AppMemPool) (e : Extent) : Prop where
  below : e.start + e.len ≤ p.brk
  apart : ∀ b ∈ p.backingPtrVec, (backing size b).Apart e

theorem Away.alloc {e : Extent} (h : Away size p e) : Away size (p.alloc size).2 e := by
  unfold AppMemPool.alloc
  split_ifs
  · refine ⟨h.below.trans (Nat.le_add_right _ _), fun b hb => ?_⟩
    rcases List.mem_append.mp hb with hb | hb
    · exact h.apart b hb
    · rw [List.mem_singleton.mp hb]
      exact Or.inr h.below
  · exact ⟨h.below, h.apart⟩

theorem Away.apart_object {e : Extent} (h : Away size p e) (ha : p.IsObject size a) :
    Extent.Apart ⟨a, size⟩ e := by
  obtain ⟨b, hb, k, hk, rfl⟩ := ha
  exact (h.apart b hb).mono (inside_backing hk) ⟨le_rfl, le_rfl⟩

/-! ### Reachable pools -/

/-- A pool and the objects it has handed out and not got back. -/
structure Lending where
  pool : AppMemPool
  out : List ℕ

/-- Other allocations move the end of the memory in use. -/
inductive PoolAct
  | alloc
  | free (t : ℕ)
  | other (size : ℕ)

namespace Lending

/-- Only what was handed out is given back. -/
def guard (s : Lending) : PoolAct → Prop
  | .free t => t ∈ s.out
  | _ => True

instance (s : Lending) : ∀ a, Decidable (guard s a)
  | .alloc => inferInstanceAs (Decidable True)
  | .free _ => inferInstanceAs (Decidable (_ ∈ _))
  | .other _ => inferInstanceAs (Decidable True)

def step (size : ℕ) (s : Lending) : PoolAct → Option Lending
  | .alloc => some ⟨(s.pool.alloc size).2, s.out ++ [(s.pool.alloc size).1]⟩
  | .free t => some ⟨s.pool.free t, s.out.erase t⟩
  | .other n => some { s with pool := { s.pool with brk := s.pool.brk + n } }

theorem ok_of_run (hsize : 0 < size) {acts : List PoolAct} {s : Lending}
    (h : Run guard (step size) ⟨AppMemPool.init, []⟩ acts s) : Ok size s.pool s.out := by
  refine h.invariant (P := fun s => Ok size s.pool s.out) (Ok.init size) fun s a s' hok hg hs => ?_
  cases a with
  | alloc =>
    obtain rfl := Option.some.inj hs
    exact hok.alloc hsize
  | free t =>
    obtain rfl := Option.some.inj hs
    exact hok.free hg
  | other n =>
    obtain rfl := Option.some.inj hs
    exact ⟨hok.nodup, hok.objects, hok.apart,
      fun b hb => (hok.below b hb).trans (Nat.le_add_right _ _), hok.num_pos⟩

end Lending

end AppMemPool

/-! ## The structs -/

/-- `msg_entry_t`. -/
structure MsgEntry where
  term : BitVec 64
  id : BitVec 32
  type : BitVec 32
  dataBuf : ℕ
  dataLen : BitVec 32
  deriving DecidableEq

def sizeofMsgEntry : ℕ := 32

def sizeofClientReq : ℕ := 40

def sizeofAppendentries : ℕ := 56

/-- The bytes of a `msg_entry_t`, with its padding. -/
def MsgEntry.toBytes (e : MsgEntry) (pad : BitVec 32) : List UInt8 :=
  leBytes 8 e.term.toNat ++ (leBytes 4 e.id.toNat ++ (leBytes 4 e.type.toNat ++
    (leBytes 8 e.dataBuf ++ (leBytes 4 e.dataLen.toNat ++ leBytes 4 pad.toNat))))

/-- The `msg_entry_t` at an address. -/
def MsgEntry.read (m : Mem) (a : ℕ) : MsgEntry where
  term := BitVec.ofNat 64 (num m a 8)
  id := BitVec.ofNat 32 (num m (a + 8) 4)
  type := BitVec.ofNat 32 (num m (a + 12) 4)
  dataBuf := num m (a + 16) 8
  dataLen := BitVec.ofNat 32 (num m (a + 24) 4)

/-- `node_id` and the fields of `msg_ae` other than `entries`. -/
structure AeHeader where
  nodeId : BitVec 32
  term : BitVec 64
  prevLogIdx : BitVec 64
  prevLogTerm : BitVec 64
  leaderCommit : BitVec 64
  nEntries : BitVec 32
  deriving DecidableEq

/-- The bytes of an `app_appendentries_t` with the pointer `entries`. -/
def AeHeader.toBytes (h : AeHeader) (entries : ℕ) (pad pad' : BitVec 32) : List UInt8 :=
  leBytes 4 h.nodeId.toNat ++ (leBytes 4 pad.toNat ++ (leBytes 8 h.term.toNat ++
    (leBytes 8 h.prevLogIdx.toNat ++ (leBytes 8 h.prevLogTerm.toNat ++
      (leBytes 8 h.leaderCommit.toNat ++ (leBytes 4 h.nEntries.toNat ++ (leBytes 4 pad'.toNat ++
        leBytes 8 entries)))))))

/-- The header at an address. -/
def AeHeader.read (m : Mem) (a : ℕ) : AeHeader where
  nodeId := BitVec.ofNat 32 (num m a 4)
  term := BitVec.ofNat 64 (num m (a + 8) 8)
  prevLogIdx := BitVec.ofNat 64 (num m (a + 16) 8)
  prevLogTerm := BitVec.ofNat 64 (num m (a + 24) 8)
  leaderCommit := BitVec.ofNat 64 (num m (a + 32) 8)
  nEntries := BitVec.ofNat 32 (num m (a + 40) 4)

/-- `msg_appendentries_t`; `n_entries` is the number of its entries, an `int`. -/
structure MsgAppendentries where
  term : BitVec 64
  prevLogIdx : BitVec 64
  prevLogTerm : BitVec 64
  leaderCommit : BitVec 64
  entries : List MsgEntry
  nEntries_lt : entries.length < 2 ^ 31

def MsgAppendentries.header (msg : MsgAppendentries) (nodeId : BitVec 32) : AeHeader :=
  ⟨nodeId, msg.term, msg.prevLogIdx, msg.prevLogTerm, msg.leaderCommit,
    BitVec.ofNat 32 msg.entries.length⟩

/-! ## Serialization -/

/-- The loop of `serialize` from the entry number `i` on: each entry without its pointer, and then
its `client_req_t`. -/
def serializeEntries (m : Mem) (pad : ℕ → BitVec 32) : ℕ → List MsgEntry → List UInt8
  | _, [] => []
  | i, e :: es =>
    MsgEntry.toBytes { e with dataBuf := 0 } (pad i) ++
      (load m e.dataBuf sizeofClientReq ++ serializeEntries m pad (i + 1) es)

/-- `app_appendentries_t::serialize`, from the memory `m` of the sender. -/
def serialize (m : Mem) (pad : ℕ → BitVec 32) (nodeId : BitVec 32) (msg : MsgAppendentries) :
    List UInt8 :=
  (msg.header nodeId).toBytes 0 (pad 0) (pad 1) ++ serializeEntries m pad 2 msg.entries

/-- What `unpack` leaves: the memory, the pool, and the array `msg_ae.entries`. -/
structure Unpacked where
  mem : Mem
  pool : AppMemPool
  entries : List MsgEntry

/-- The loop of `unpack`, for `n` more entries at `buf`. -/
def unpackLoop : ℕ → Mem → AppMemPool → ℕ → Unpacked
  | 0, m, pool, _ => ⟨m, pool, []⟩
  | n + 1, m, pool, buf =>
    let e := MsgEntry.read m buf
    let buf := buf + sizeofMsgEntry
    let r := pool.alloc sizeofClientReq
    let m := copyMem m r.1 buf sizeofClientReq
    let rest := unpackLoop n m r.2 (buf + sizeofClientReq)
    { rest with entries := { e with dataBuf := r.1 } :: rest.entries }

def kStaticMsgEntryArrSize : ℕ := 16

/-- `app_appendentries_t::unpack`.  The iovecs are copied to `preReq`; the entries go to the array
`staticArr` of the caller, or to one that is allocated at `newArr`. -/
def unpack (m : Mem) (iov : Iovector) (preReq staticArr newArr : ℕ) (pool : AppMemPool) : Unpacked :=
  let m := run (upCopies preReq iov.entries) m
  let nEntries := num m (preReq + 40) 4
  if nEntries = 0 then ⟨m, pool, []⟩
  else
    let entries := if nEntries ≤ kStaticMsgEntryArrSize then staticArr else newArr
    let m := store m (preReq + 48) (leBytes 8 entries)
    unpackLoop nEntries m pool (preReq + sizeofAppendentries)

/-! ## Reading what was written -/

section Reading

variable {m m' : Mem} {a n : ℕ} {e : MsgEntry} {h : AeHeader} {pad pad' : BitVec 32}

theorem MsgEntry.read_toBytes (hload : load m a n = e.toBytes pad) (hbuf : e.dataBuf < 2 ^ 64) :
    MsgEntry.read m a = e := by
  obtain ⟨hterm, hload⟩ := num_of_append hload e.term.isLt
  obtain ⟨hid, hload⟩ := num_of_append hload e.id.isLt
  obtain ⟨htype, hload⟩ := num_of_append hload e.type.isLt
  obtain ⟨hdata, hload⟩ := num_of_append hload hbuf
  obtain ⟨hlen, -⟩ := num_of_append hload e.dataLen.isLt
  unfold MsgEntry.read
  rw [hterm, hid, htype, hdata, hlen]
  simp only [BitVec.ofNat_toNat, BitVec.setWidth_eq]

/-- The header, and the number of entries as `unpack` reads it. -/
theorem AeHeader.read_toBytes {entries : ℕ} (hload : load m a n = h.toBytes entries pad pad') :
    AeHeader.read m a = h ∧ num m (a + 40) 4 = h.nEntries.toNat := by
  obtain ⟨hnode, hload⟩ := num_of_append hload h.nodeId.isLt
  obtain ⟨-, hload⟩ := num_of_append hload pad.isLt
  obtain ⟨hterm, hload⟩ := num_of_append hload h.term.isLt
  obtain ⟨hidx, hload⟩ := num_of_append hload h.prevLogIdx.isLt
  obtain ⟨hlog, hload⟩ := num_of_append hload h.prevLogTerm.isLt
  obtain ⟨hcommit, hload⟩ := num_of_append hload h.leaderCommit.isLt
  obtain ⟨hn, -⟩ := num_of_append hload h.nEntries.isLt
  refine ⟨?_, hn⟩
  unfold AeHeader.read
  rw [hnode, hterm, hidx, hlog, hcommit, hn]
  simp only [BitVec.ofNat_toNat, BitVec.setWidth_eq]

/-- The header does not depend on the memory from its pointer on. -/
theorem AeHeader.read_congr (hm : ∀ x, a ≤ x → x < a + 48 → m x = m' x) :
    AeHeader.read m a = AeHeader.read m' a := by
  have hnum : ∀ o w, o + w ≤ 48 → num m (a + o) w = num m' (a + o) w := by
    intro o w how
    unfold num
    rw [load_congr fun x hx hx' => hm x (by omega) (by omega)]
  have hnode := hnum 0 4 (by omega)
  rw [Nat.add_zero] at hnode
  unfold AeHeader.read
  rw [hnode, hnum 8 8 (by omega), hnum 16 8 (by omega), hnum 24 8 (by omega),
    hnum 32 8 (by omega), hnum 40 4 (by omega)]

@[simp] theorem MsgEntry.length_toBytes (e : MsgEntry) (pad : BitVec 32) :
    (e.toBytes pad).length = sizeofMsgEntry := by
  simp [MsgEntry.toBytes, sizeofMsgEntry]

@[simp] theorem AeHeader.length_toBytes (h : AeHeader) (entries : ℕ) (pad pad' : BitVec 32) :
    (h.toBytes entries pad pad').length = sizeofAppendentries := by
  simp [AeHeader.toBytes, sizeofAppendentries]

theorem load_copyMem (m : Mem) (dst src n : ℕ) : load (copyMem m dst src n) dst n = load m src n := by
  have h := copyMem_bytes m dst src n
  rwa [Iovec.bytes_eq_map, Iovec.bytes_eq_map] at h

theorem copyMem_of_notMem (m : Mem) {dst src n x : ℕ} (h : ¬ (dst ≤ x ∧ x < dst + n)) :
    copyMem m dst src n x = m x :=
  if_neg h

end Reading

/-! ## The round trip -/

/-- `e'` is the entry `e` with another buffer, which holds the same `client_req_t`. -/
def SameEntry (sender receiver : Mem) (e e' : MsgEntry) : Prop :=
  e' = { e with dataBuf := e'.dataBuf } ∧
    load receiver e'.dataBuf sizeofClientReq = load sender e.dataBuf sizeofClientReq

/-- What the loop of `unpack` makes of the entries at `buf`, in a buffer `R` away from the pool. -/
structure UnpackedFrom (sender m : Mem) (R : Extent) (out : List ℕ) (es : List MsgEntry)
    (r : Unpacked) : Prop where
  entries : List.Forall₂ (SameEntry sender r.mem) es r.entries
  pool_ok : r.pool.Ok sizeofClientReq (out ++ r.entries.map (·.dataBuf))
  away : r.pool.Away sizeofClientReq R
  frame : ∀ x, (∀ e ∈ r.entries, ¬ (e.dataBuf ≤ x ∧ x < e.dataBuf + sizeofClientReq)) →
    r.mem x = m x

namespace UnpackedFrom

variable {sender m : Mem} {R : Extent} {out : List ℕ} {es : List MsgEntry} {r : Unpacked}

theorem isObject (h : UnpackedFrom sender m R out es r) {e : MsgEntry} (he : e ∈ r.entries) :
    r.pool.IsObject sizeofClientReq e.dataBuf :=
  h.pool_ok.objects _ (List.mem_append_left _
    (List.mem_append_right _ (List.mem_map.mpr ⟨e, he, rfl⟩)))

/-- The buffer with the request stays. -/
theorem mem_eq (h : UnpackedFrom sender m R out es r) {x : ℕ} (hx : R.start ≤ x)
    (hx' : x < R.start + R.len) : r.mem x = m x := by
  refine h.frame x fun e he hin => ?_
  have hapart := h.away.apart_object (h.isObject he)
  unfold Extent.Apart at hapart
  dsimp only at hapart
  omega

end UnpackedFrom

/-- **The loop of `unpack`.** -/
theorem unpackLoop_spec {sender : Mem} {pad : ℕ → BitVec 32} {R : Extent} (es : List MsgEntry)
    {i n buf : ℕ} {m : Mem} {pool : AppMemPool} {out : List ℕ} (hok : pool.Ok sizeofClientReq out)
    (haway : pool.Away sizeofClientReq R)
    (hload : load m buf n = serializeEntries sender pad i es) (hstart : R.start ≤ buf)
    (hstop : buf + n ≤ R.start + R.len) :
    UnpackedFrom sender m R out es (unpackLoop es.length m pool buf) := by
  induction es generalizing i n buf m pool out with
  | nil => exact ⟨List.Forall₂.nil, by simpa [unpackLoop] using hok, haway, fun _ _ => rfl⟩
  | cons e es ih =>
    -- the entry, its command and the rest
    have hlen := congrArg List.length hload
    obtain ⟨hentry, hload⟩ := load_eq_append hload
    obtain ⟨hreq, hrest⟩ := load_eq_append hload
    simp only [serializeEntries, length_load, List.length_append, MsgEntry.length_toBytes]
      at hlen hentry hreq hrest
    have hread := MsgEntry.read_toBytes hentry (by show 0 < 2 ^ 64; omega)
    set a := (pool.alloc sizeofClientReq).1 with ha
    set pool' := (pool.alloc sizeofClientReq).2 with hpool'
    set m' := copyMem m a (buf + sizeofMsgEntry) sizeofClientReq with hm'
    have hok' : pool'.Ok sizeofClientReq (out ++ [a]) := hok.alloc (by decide)
    have haway' : pool'.Away sizeofClientReq R := haway.alloc
    -- the copy leaves the request as it is
    have hapart : Extent.Apart ⟨a, sizeofClientReq⟩ R :=
      haway'.apart_object (hok'.objects a (by simp))
    have hkeep : ∀ x, R.start ≤ x → x < R.start + R.len → m' x = m x := by
      intro x hx hx'
      apply copyMem_of_notMem
      unfold Extent.Apart at hapart
      dsimp only at hapart
      omega
    have hrest' : load m' (buf + sizeofMsgEntry + sizeofClientReq)
        (serializeEntries sender pad (i + 1) es).length = serializeEntries sender pad (i + 1) es := by
      rw [← hrest]
      rw [length_load]
      refine load_congr fun x hx hx' => hkeep x (by omega) (by omega)
    have hspec := ih hok' haway' hrest' (by omega) (by omega)
    set r := unpackLoop es.length m' pool' (buf + sizeofMsgEntry + sizeofClientReq) with hr
    have hunpack : unpackLoop (es.length + 1) m pool buf
        = { r with entries := { MsgEntry.read m buf with dataBuf := a } :: r.entries } := rfl
    rw [List.length_cons, hunpack, hread]
    -- the later buffers are other objects
    have hother : ∀ x, a ≤ x → x < a + sizeofClientReq → r.mem x = m' x := by
      intro x hx hx'
      refine hspec.frame x fun e' he' hin => ?_
      have hne : a ≠ e'.dataBuf := by
        have hnd := (List.nodup_append.mp hspec.pool_ok.nodup).1
        rw [List.nodup_append] at hnd
        exact hnd.2.2 a (by simp) _ (List.mem_map.mpr ⟨e', he', rfl⟩)
      have hobj : r.pool.IsObject sizeofClientReq a :=
        hspec.pool_ok.objects a (by simp)
      have := hspec.pool_ok.apart_objects hobj (hspec.isObject he') hne
      unfold Extent.Apart at this
      dsimp only at this
      omega
    refine ⟨List.Forall₂.cons ⟨rfl, ?_⟩ hspec.entries, ?_, hspec.away, fun x hx => ?_⟩
    · show load r.mem a sizeofClientReq = _
      rw [load_congr hother, hm', load_copyMem, hreq]
    · have hpool := hspec.pool_ok
      rwa [List.append_assoc] at hpool
    · rw [hspec.frame x fun e' he' => hx e' (List.mem_cons_of_mem _ he')]
      exact copyMem_of_notMem m (hx _ (List.mem_cons_self ..))

/-- The iovecs are copied one after the other. -/
theorem load_upCopies (m : Mem) (vs : List Iovec) (buf : ℕ)
    (h : ∀ x ∈ addrs vs, x ∉ List.range' buf (iovSum vs)) :
    load (run (upCopies buf vs) m) buf (iovSum vs) = bytesOf m vs := by
  have hdst := dsts_upCopies buf vs
  have hsrc := srcs_upCopies buf vs
  have hnodup : (dsts (upCopies buf vs)).Nodup := hdst ▸ List.nodup_range'
  have hrun := map_run m hnodup (fun a ha hx => h a (hsrc ▸ hx) (hdst ▸ ha)) _
    (List.Subset.refl _)
  rw [hdst, hsrc, ← bytesOf_eq_map] at hrun
  exact hrun

/-- **`unpack`**, for a request that was serialized, in a buffer away from the pool. -/
theorem unpack_spec {sender m : Mem} {pad : ℕ → BitVec 32} {nodeId : BitVec 32}
    {msg : MsgAppendentries} {iov : Iovector} {preReq : ℕ} (staticArr newArr : ℕ)
    {pool : AppMemPool} {out : List ℕ} (hok : pool.Ok sizeofClientReq out)
    (hbytes : bytesOf m iov.entries = serialize sender pad nodeId msg)
    (hfresh : ∀ x ∈ addrs iov.entries, x ∉ List.range' preReq (iovSum iov.entries))
    (haway : pool.Away sizeofClientReq ⟨preReq, iovSum iov.entries⟩) :
    let r := unpack m iov preReq staticArr newArr pool
    AeHeader.read r.mem preReq = msg.header nodeId ∧
      List.Forall₂ (SameEntry sender r.mem) msg.entries r.entries ∧
      r.pool.Ok sizeofClientReq (out ++ r.entries.map (·.dataBuf)) := by
  have hload := load_upCopies m iov.entries preReq hfresh
  rw [hbytes, serialize] at hload
  have hsum := congrArg List.length hload
  obtain ⟨hhdr, hentries⟩ := load_eq_append hload
  rw [AeHeader.length_toBytes] at hhdr hentries
  rw [length_load, List.length_append, AeHeader.length_toBytes] at hsum
  obtain ⟨hread, hnum⟩ := AeHeader.read_toBytes hhdr
  have hn : (msg.header nodeId).nEntries.toNat = msg.entries.length := by
    have := msg.nEntries_lt
    show (BitVec.ofNat 32 msg.entries.length).toNat = _
    rw [BitVec.toNat_ofNat]
    omega
  rw [hn] at hnum
  have hsize : sizeofAppendentries = 56 := rfl
  unfold unpack
  dsimp only
  rw [hnum]
  set m1 := run (upCopies preReq iov.entries) m with hm1
  by_cases hz : msg.entries.length = 0
  · -- a keepalive
    rw [List.length_eq_zero_iff.mp hz]
    exact ⟨hread, List.Forall₂.nil, by simpa using hok⟩
  · rw [if_neg hz]
    set m2 := store m1 (preReq + 48) (leBytes 8 (if msg.entries.length ≤ kStaticMsgEntryArrSize
      then staticArr else newArr)) with hm2
    have hstore : ∀ x, x < preReq + 48 ∨ preReq + 56 ≤ x → m2 x = m1 x := by
      intro x hx
      apply store_of_notMem
      rw [length_leBytes]
      omega
    have hentries2 : load m2 (preReq + sizeofAppendentries)
        (serializeEntries sender pad 2 msg.entries).length
          = serializeEntries sender pad 2 msg.entries := by
      rw [load_congr fun x hx hx' => hstore x (by omega), hentries]
    have hspec := unpackLoop_spec msg.entries hok haway hentries2 (by dsimp only; omega)
      (by dsimp only; omega)
    refine ⟨?_, hspec.entries, hspec.pool_ok⟩
    rw [← hread]
    refine AeHeader.read_congr fun x hx hx' => ?_
    rw [hspec.mem_eq hx (by dsimp only; omega)]
    exact hstore x (Or.inl hx')

open AppMemPool in
/-- **The round trip of an append-entries request.**  However the bytes of `serialize` are cut into
iovecs, `unpack` yields the node id, the header fields, and for every entry its header fields and its
command, in buffers that do not overlap and that the pool has handed out for them. -/
theorem unpack_serialize {acts : List PoolAct} {s : Lending}
    (hpool : Run Lending.guard (Lending.step sizeofClientReq) ⟨AppMemPool.init, []⟩ acts s)
    (sender : Mem) (pad : ℕ → BitVec 32) (nodeId : BitVec 32) (msg : MsgAppendentries)
    (m : Mem) (iov : Iovector) (preReq staticArr newArr : ℕ)
    (hbytes : bytesOf m iov.entries = serialize sender pad nodeId msg)
    (hfresh : ∀ x ∈ addrs iov.entries, x ∉ List.range' preReq (iovSum iov.entries))
    (haway : s.pool.Away sizeofClientReq ⟨preReq, iovSum iov.entries⟩) :
    let r := unpack m iov preReq staticArr newArr s.pool
    AeHeader.read r.mem preReq = msg.header nodeId ∧
      List.Forall₂ (SameEntry sender r.mem) msg.entries r.entries ∧
      (r.entries.map (·.dataBuf)).Pairwise
        (fun a b => Extent.Apart ⟨a, sizeofClientReq⟩ ⟨b, sizeofClientReq⟩) ∧
      r.pool.Ok sizeofClientReq (s.out ++ r.entries.map (·.dataBuf)) := by
  have hok := Lending.ok_of_run (by decide) hpool
  obtain ⟨hhdr, hentries, hok'⟩ := unpack_spec staticArr newArr hok hbytes hfresh haway
  exact ⟨hhdr, hentries, hok'.apart_out, hok'⟩

/-- Two commands of the sender, at 1000 and 2000. -/
def twoCommands : MsgAppendentries where
  term := 7
  prevLogIdx := 11
  prevLogTerm := 6
  leaderCommit := 10
  entries := [⟨7, 1, 0, 1000, 40⟩, ⟨7, 2, 0, 2000, 40⟩]
  nEntries_lt := by decide

def senderMem : Mem := fun a => UInt8.ofNat (a / 8)

/-- The request as it arrived, cut in the middle of a field. -/
def receiverMem : Mem := fun a => (serialize senderMem (fun _ => 0) 3 twoCommands).getD (a - 5000) 0

def twoFragments : Iovector :=
  ⟨2300, 0, 2, fun i => if i = 0 then ⟨5000, 51⟩ else ⟨5051, 149⟩⟩

theorem unpack_serialize_twoCommands :
    ∃ s : AppMemPool.Lending, s.pool.pool = [] ∧
      let r := unpack receiverMem twoFragments 8000 100 200 s.pool
      AeHeader.read r.mem 8000 = twoCommands.header 3 ∧
        List.Forall₂ (SameEntry senderMem r.mem) twoCommands.entries r.entries := by
  have hpool : Run AppMemPool.Lending.guard (AppMemPool.Lending.step sizeofClientReq)
      ⟨AppMemPool.init, []⟩ [.other 9000] _ := Run.nil.snoc trivial rfl
  have hentries : twoFragments.entries = [⟨5000, 51⟩, ⟨5051, 149⟩] := by decide
  have hbytes : bytesOf receiverMem twoFragments.entries
      = serialize senderMem (fun _ => 0) 3 twoCommands := by
    decide +kernel
  have hfresh : ∀ x ∈ addrs twoFragments.entries,
      x ∉ List.range' 8000 (iovSum twoFragments.entries) := by
    rw [hentries]
    intro x hx hx'
    rw [List.mem_range'_1] at hx'
    simp only [addrs_cons, addrs_nil, List.append_nil, List.mem_append, List.mem_range'_1] at hx
    omega
  have haway : AppMemPool.Away sizeofClientReq ⟨1024, [], [], 1 + 9000⟩
      ⟨8000, iovSum twoFragments.entries⟩ := by
    exact ⟨by decide, fun b hb => absurd hb List.not_mem_nil⟩
  have h := unpack_serialize hpool senderMem (fun _ => 0) 3 twoCommands receiverMem twoFragments
    8000 100 200 hbytes hfresh haway
  exact ⟨_, rfl, h.1, h.2.1⟩

end HuiRpc
