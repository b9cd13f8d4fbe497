/-
# The persistent hash table

`apps/persistent_kv/pmica.h`: a hash table of buckets with `kSlotsPerBucket` slots each, whose
overflow goes into chains of extra buckets, and a redo log.  Buckets are named by their index from
`buckets_` on; the extra bucket `e` is the bucket `num_regular_buckets - 1 + e`, and `e = 0` means
that there is none.

* The searches along a chain take fuel; `none` is a search that does not end.
* The table's operations also return the writes that they issue to persistent memory, in order,
  so that the runs of `HuiRpc.RedoLog` can look at what a crash leaves of them.
* The free list starts with its back.  Printing and prefetching are left out, and so are the size
  of the file and the mapping of it.
-/
import Mathlib

namespace HuiRpc

def kSlotsPerBucket : ℕ := 5

instance : NeZero kSlotsPerBucket := ⟨by decide⟩

def kMaxBatchSize : ℕ := 16

def kNumRedoLogEntries : ℕ := kMaxBatchSize * 8

/-- `rte_align64pow2`. -/
@[irreducible] def rteAlign64pow2 (v : ℕ) : ℕ :=
  let v := (v + (2 ^ 64 - 1)) % 2 ^ 64
  let v := v ||| v >>> 1
  let v := v ||| v >>> 2
  let v := v ||| v >>> 4
  let v := v ||| v >>> 8
  let v := v ||| v >>> 16
  let v := v ||| v >>> 32
  (v + 1) % 2 ^ 64

/-- What a table is built with; `hash` is `get_hash`, and `zeroValue` the value that `memset`
leaves. -/
structure PmicaConf (K V : Type) where
  numRequestedKeys : ℕ
  numExtraBuckets : ℕ
  invalidKey : K
  zeroValue : V
  hash : K → ℕ
  requested_ge : kSlotsPerBucket ≤ numRequestedKeys
  requested_lt : numRequestedKeys < 2 ^ 64

namespace PmicaConf

variable {K V : Type} (c : PmicaConf K V)

def numRegularBuckets : ℕ := rteAlign64pow2 (c.numRequestedKeys / kSlotsPerBucket)

def numTotalBuckets : ℕ := c.numRegularBuckets + c.numExtraBuckets

/-- `key_hash & (num_regular_buckets - 1)`. -/
def bucketIndex (keyHash : ℕ) : ℕ := keyHash &&& (c.numRegularBuckets - 1)

/-- `&extra_buckets_[e]`. -/
def extraBucket (e : ℕ) : ℕ := c.numRegularBuckets - 1 + e

end PmicaConf

structure Slot (K V : Type) where
  key : K
  value : V
  deriving DecidableEq

structure Bucket (K V : Type) where
  nextExtraBucketIdx : ℕ
  slotArr : Fin kSlotsPerBucket → Slot K V

structure PmicaOpts where
  redoBatch : Bool
  asyncDrain : Bool

/-- What is written to persistent memory with one call. -/
inductive PmWrite (K V : Type)
  | redoEntry (idx seqNum : ℕ) (key : K) (value : V)
  | committedSeqNum (seqNum : ℕ)
  | slot (bucket : ℕ) (i : Fin kSlotsPerBucket) (s : Slot K V)
  | nextExtraBucketIdx (bucket e : ℕ)

/-- `pmem_memcpy_nodrain`, `pmem_memcpy_persist` and `pmem_drain`. -/
inductive PmOp (K V : Type)
  | nodrain (w : PmWrite K V)
  | persist (w : PmWrite K V)
  | drain

/-- The buckets and the free list of extra buckets. -/
structure PmicaTable (K V : Type) where
  buckets : ℕ → Bucket K V
  extraBucketFreeList : List ℕ

namespace PmicaTable

variable {K V : Type} [DecidableEq K]

/-- The constructor, after `reset`. -/
def init (c : PmicaConf K V) : PmicaTable K V where
  buckets _ := ⟨0, fun _ => ⟨c.invalidKey, c.zeroValue⟩⟩
  extraBucketFreeList := (List.range' 1 c.numExtraBuckets).reverse

/-- The loop over the slots of a bucket, for the first one with the key. -/
def findSlot (b : Bucket K V) (key : K) : Option (Fin kSlotsPerBucket) :=
  (List.finRange kSlotsPerBucket).find? fun i => (b.slotArr i).key = key

/-- `find_item_index`: bucket and slot of the key, or that there is none. -/
def findItemIndex (c : PmicaConf K V) (t : PmicaTable K V) (key : K) :
    ℕ → ℕ → Option (Option (ℕ × Fin kSlotsPerBucket))
  | 0, _ => none
  | fuel + 1, b =>
    match findSlot (t.buckets b) key with
    | some i => some (some (b, i))
    | none =>
      if (t.buckets b).nextExtraBucketIdx = 0 then some none
      else findItemIndex c t key fuel (c.extraBucket (t.buckets b).nextExtraBucketIdx)

/-- `get`. -/
def get (c : PmicaConf K V) (t : PmicaTable K V) (keyHash : ℕ) (key : K) : Option (Option V) :=
  (findItemIndex c t key c.numTotalBuckets (c.bucketIndex keyHash)).map fun loc =>
    loc.map fun (b, i) => ((t.buckets b).slotArr i).value

def setNext (t : PmicaTable K V) (b e : ℕ) : PmicaTable K V :=
  { t with buckets := Function.update t.buckets b { t.buckets b with nextExtraBucketIdx := e } }

def setSlot (t : PmicaTable K V) (b : ℕ) (i : Fin kSlotsPerBucket) (s : Slot K V) :
    PmicaTable K V :=
  let old := t.buckets b
  { t with buckets :=
      Function.update t.buckets b { old with slotArr := Function.update old.slotArr i s } }

/-- `alloc_extra_bucket`: the table with the new bucket linked behind `b`, and its number. -/
def allocExtraBucket (t : PmicaTable K V) (b : ℕ) : Option (PmicaTable K V × ℕ) :=
  match t.extraBucketFreeList with
  | [] => none
  | e :: rest => some ({ t with extraBucketFreeList := rest }.setNext b e, e)

/-- The end of `get_empty`, when the chain that ends with `b` has no empty slot. -/
def growChain (c : PmicaConf K V) (t : PmicaTable K V) (b : ℕ) :
    PmicaTable K V × Option (ℕ × Fin kSlotsPerBucket) × List (PmOp K V) :=
  match t.allocExtraBucket b with
  | some (t', e) => (t', some (c.extraBucket e, 0), [.persist (.nextExtraBucketIdx b e)])
  | none => (t, none, [])

/-- `get_empty`: the table, the empty slot if there is one, and the writes. -/
def getEmpty (c : PmicaConf K V) (t : PmicaTable K V) :
    ℕ → ℕ → Option (PmicaTable K V × Option (ℕ × Fin kSlotsPerBucket) × List (PmOp K V))
  | 0, _ => none
  | fuel + 1, b =>
    match findSlot (t.buckets b) c.invalidKey with
    | some i => some (t, some (b, i), [])
    | none =>
      if (t.buckets b).nextExtraBucketIdx = 0 then some (t.growChain c b)
      else getEmpty c t fuel (c.extraBucket (t.buckets b).nextExtraBucketIdx)

/-- The copy at the end of `set_nodrain`. -/
def putSlot (opts : PmicaOpts) (t : PmicaTable K V) (b : ℕ) (i : Fin kSlotsPerBucket)
    (s : Slot K V) : PmicaTable K V × List (PmOp K V) :=
  (t.setSlot b i s, [if opts.asyncDrain then .nodrain (.slot b i s) else .persist (.slot b i s)])

/-- `set_nodrain`: the table, whether there was room, and the writes. -/
def setNodrain (c : PmicaConf K V) (opts : PmicaOpts) (t : PmicaTable K V) (keyHash : ℕ) (key : K)
    (value : V) : Option (PmicaTable K V × Bool × List (PmOp K V)) := do
  let loc ← findItemIndex c t key c.numTotalBuckets (c.bucketIndex keyHash)
  match loc with
  | some (b, i) =>
    let (t, ops) := t.putSlot opts b i ⟨key, value⟩
    some (t, true, ops)
  | none =>
    let (t, empty, ops) ← getEmpty c t c.numTotalBuckets (c.bucketIndex keyHash)
    match empty with
    | some (b, i) =>
      let (t, ops') := t.putSlot opts b i ⟨key, value⟩
      some (t, true, ops ++ ops')
    | none => some (t, false, ops)

end PmicaTable

/-! ## Batches -/

/-- One operation of a batch; of a GET the value is what `value_arr` holds before. -/
structure BatchOp (K V : Type) where
  isSet : Bool
  keyHash : ℕ
  key : K
  value : V

/-- A result: of a SET whether it had room, of a GET the value found. -/
inductive KvRes (V : Type)
  | set (ok : Bool)
  | get (value : Option V)
  deriving DecidableEq

/-- The table with the sequence number and the writes issued so far. -/
structure PmicaMap (K V : Type) where
  table : PmicaTable K V
  curSequenceNumber : ℕ
  trace : List (PmOp K V)

namespace PmicaMap

variable {K V : Type} [DecidableEq K]

def init (c : PmicaConf K V) : PmicaMap K V := ⟨PmicaTable.init c, 1, []⟩

def emit (m : PmicaMap K V) (ops : List (PmOp K V)) : PmicaMap K V :=
  { m with trace := m.trace ++ ops }

/-- The body of the first loop for a SET. -/
def logSet (opts : PmicaOpts) (m : PmicaMap K V) (key : K) (value : V) : PmicaMap K V :=
  let seq := m.curSequenceNumber
  let m := if seq % kNumRedoLogEntries = 0 then m.emit [.drain] else m
  let entry := PmWrite.redoEntry (seq % kNumRedoLogEntries) seq key value
  let m :=
    if opts.redoBatch then m.emit [.nodrain entry]
    else m.emit [.persist entry, .persist (.committedSeqNum seq)]
  { m with curSequenceNumber := seq + 1 }

/-- The first loop: the SETs are logged. -/
def logSets (opts : PmicaOpts) (m : PmicaMap K V) (ops : List (BatchOp K V)) : PmicaMap K V :=
  ops.foldl (fun m op => if op.isSet then m.logSet opts op.key op.value else m) m

/-- With batching, the log is committed once. -/
def commit (opts : PmicaOpts) (m : PmicaMap K V) (ops : List (BatchOp K V)) : PmicaMap K V :=
  if opts.redoBatch = true ∧ ops.any (·.isSet) = true then
    m.emit [.drain, .persist (.committedSeqNum m.curSequenceNumber)]
  else m

/-- One operation of the second loop. -/
def doOp (c : PmicaConf K V) (opts : PmicaOpts) (m : PmicaMap K V) (op : BatchOp K V) :
    Option (PmicaMap K V × KvRes V) :=
  if op.isSet then
    (m.table.setNodrain c opts op.keyHash op.key op.value).map fun (t, ok, ops) =>
      ({ m with table := t }.emit ops, .set ok)
  else
    (m.table.get c op.keyHash op.key).map fun res => (m, .get res)

/-- The second loop. -/
def doOps (c : PmicaConf K V) (opts : PmicaOpts) :
    PmicaMap K V → List (BatchOp K V) → Option (PmicaMap K V × List (KvRes V))
  | m, [] => some (m, [])
  | m, op :: ops => do
    let (m, res) ← m.doOp c opts op
    let (m, rest) ← doOps c opts m ops
    some (m, res :: rest)

/-- `batch_op_drain_helper`. -/
def batchOpDrainHelper (c : PmicaConf K V) (opts : PmicaOpts) (m : PmicaMap K V)
    (ops : List (BatchOp K V)) : Option (PmicaMap K V × List (KvRes V)) :=
  doOps c opts ((m.logSets opts ops).commit opts ops) ops

end PmicaMap

/-! ## Calls -/

/-- One operation on the map. -/
inductive KvOp (K V : Type)
  | set (key : K) (value : V)
  | get (key : K)

namespace KvOp

variable {K V : Type}

def key : KvOp K V → K
  | set key _ => key
  | get key => key

/-- An operation as `batch_op_drain` hands it over, with its hash; a GET does not read its
value. -/
def toBatch (c : PmicaConf K V) : KvOp K V → BatchOp K V
  | set key value => ⟨true, c.hash key, key, value⟩
  | get key => ⟨false, c.hash key, key, c.zeroValue⟩

end KvOp

/-- The calls of the map, with the options they are made under. -/
inductive KvCall (K V : Type)
  | set (opts : PmicaOpts) (key : K) (value : V)
  | get (key : K)
  | batch (opts : PmicaOpts) (ops : List (KvOp K V))

namespace KvCall

variable {K V : Type}

/-- What a call does, in order. -/
def ops : KvCall K V → List (KvOp K V)
  | set _ key value => [.set key value]
  | get key => [.get key]
  | batch _ ops => ops

/-- The call of one operation. -/
def one (opts : PmicaOpts) : KvOp K V → KvCall K V
  | .set key value => set opts key value
  | .get key => get key

/-- The calls that make a batch one by one. -/
def oneByOne : KvCall K V → List (KvCall K V)
  | set opts key value => [set opts key value]
  | get key => [get key]
  | batch opts ops => ops.map (one opts)

/-- The keys are valid and a batch fits into `keyhash_arr`. -/
structure Valid (c : PmicaConf K V) (call : KvCall K V) : Prop where
  key : ∀ op ∈ call.ops, op.key ≠ c.invalidKey
  size : call.ops.length ≤ kMaxBatchSize

end KvCall

namespace PmicaMap

variable {K V : Type} [DecidableEq K]

/-- `batch_op_drain`; `none` if `keyhash_arr` overflows. -/
def batchOpDrain (c : PmicaConf K V) (opts : PmicaOpts) (m : PmicaMap K V)
    (ops : List (KvOp K V)) : Option (PmicaMap K V × List (KvRes V)) :=
  if ops.length ≤ kMaxBatchSize then m.batchOpDrainHelper c opts (ops.map (KvOp.toBatch c))
  else none

def call (c : PmicaConf K V) (m : PmicaMap K V) :
    KvCall K V → Option (PmicaMap K V × List (KvRes V))
  | .set opts key value =>
    (m.table.setNodrain c opts (c.hash key) key value).map fun (t, ok, ops) =>
      ({ m with table := t }.emit ops, [.set ok])
  | .get key => (m.table.get c (c.hash key) key).map fun res => (m, [.get res])
  | .batch opts ops => m.batchOpDrain c opts ops

/-- Calls one after the other, with all their results. -/
def calls (c : PmicaConf K V) :
    PmicaMap K V → List (KvCall K V) → Option (PmicaMap K V × List (KvRes V))
  | m, [] => some (m, [])
  | m, x :: xs => do
    let (m, res) ← m.call c x
    let (m, rest) ← calls c m xs
    some (m, res ++ rest)

end PmicaMap

end HuiRpc
