/-
# Extracting bytes from an iovector

Model of the extraction functions of `iovector.h` and `iovector.cpp`: the loops
`do_extract_front` and `do_extract_back`, generic in their callback, and on top of them
the copying, viewing and continuous variants that the `Deserializer` calls.

The window of the iovector is a list here: extraction only shortens it at its ends, and
nothing depends on where it lies in the array.  Memory and `malloc` are explicit, since
the continuous variants return a pointer into a fragment when one fragment holds all the
bytes, and a copy in new memory when the bytes cross a fragment boundary.

* `malloc` hands out the addresses from `brk` on;
* a null pointer is address `0`;
* `addrs vs` — the addresses of the bytes of a view, in order;
* `dropFront n vs`, `dropBack n vs` — the view without its first or last `n` bytes;
* both loops are the loop of `HuiRpc.Lib.Peel`, for entries that are cut from their front or from
  their end (`frontCut`, `backCut`).
-/
import HuiRpc.Iovector
import HuiRpc.Lib.Peel
import HuiRpc.Lib.Copies

namespace HuiRpc

open Peel Copies

/-! ## Memory -/

/-- `memcpy(dst, src, n)`. -/
def copyMem (m : Mem) (dst src n : ℕ) : Mem :=
  fun a => if dst ≤ a ∧ a < dst + n then m (src + (a - dst)) else m a

/-- An iovec of live memory: below `brk`, and not at the null address. -/
def Live (brk : ℕ) (v : Iovec) : Prop :=
  v.iovLen = 0 ∨ (0 < v.iovBase ∧ v.iovBase + v.iovLen ≤ brk)

theorem Live.mono {brk brk' : ℕ} {v : Iovec} (h : Live brk v) (hle : brk ≤ brk') :
    Live brk' v := by
  rcases h with h | ⟨h1, h2⟩
  · exact Or.inl h
  · exact Or.inr ⟨h1, by omega⟩

theorem Live.take {brk k : ℕ} {v : Iovec} (h : Live brk v) (hk : k ≤ v.iovLen) :
    Live brk ⟨v.iovBase, k⟩ := by
  rcases h with h | ⟨h1, h2⟩
  · exact Or.inl (show k = 0 by omega)
  · exact Or.inr ⟨h1, show v.iovBase + k ≤ brk by omega⟩

theorem Live.drop {brk k : ℕ} {v : Iovec} (h : Live brk v) (hk : k ≤ v.iovLen) :
    Live brk ⟨v.iovBase + k, v.iovLen - k⟩ := by
  rcases h with h | ⟨h1, h2⟩
  · exact Or.inl (show v.iovLen - k = 0 by omega)
  · exact Or.inr ⟨show 0 < v.iovBase + k by omega,
      show v.iovBase + k + (v.iovLen - k) ≤ brk by omega⟩

theorem Live.drop_sub {brk k : ℕ} {v : Iovec} (h : Live brk v) (hk : k ≤ v.iovLen) :
    Live brk ⟨v.iovBase + v.iovLen - k, k⟩ := by
  rcases h with h | ⟨h1, h2⟩
  · exact Or.inl (show k = 0 by omega)
  · exact Or.inr ⟨show 0 < v.iovBase + v.iovLen - k by omega,
      show v.iovBase + v.iovLen - k + k ≤ brk by omega⟩

/-- Two memories that agree below `brk` hold the same bytes there. -/
theorem Live.bytes_congr {brk : ℕ} {v : Iovec} {m m' : Mem} (h : Live brk v)
    (hm : ∀ a, a < brk → m' a = m a) : v.bytes m' = v.bytes m := by
  apply List.map_congr_left
  intro i hi
  rw [List.mem_range] at hi
  apply hm
  rcases h with h | ⟨-, h⟩
  · omega
  · omega

theorem bytesOf_congr {brk : ℕ} {vs : List Iovec} {m m' : Mem} (h : ∀ v ∈ vs, Live brk v)
    (hm : ∀ a, a < brk → m' a = m a) : bytesOf m' vs = bytesOf m vs := by
  apply List.flatMap_congr
  intro v hv
  exact (h v hv).bytes_congr hm

theorem copyMem_bytes (m : Mem) (dst src n : ℕ) :
    Iovec.bytes (copyMem m dst src n) ⟨dst, n⟩ = Iovec.bytes m ⟨src, n⟩ := by
  apply List.map_congr_left
  intro i hi
  have hi' : i < n := List.mem_range.mp hi
  show copyMem m dst src n (dst + i) = m (src + i)
  rw [copyMem, if_pos (by omega), Nat.add_sub_cancel_left]

/-! ## The extraction loops -/

variable {σ : Type}

/-- `do_extract_front`: the rest of the view, the bytes still missing, and the captured variables of
the callback, as an error if it has refused a piece. -/
def doExtractFront (cb : σ → Iovec → Except σ σ) :
    List Iovec → ℕ → σ → List Iovec × ℕ × Except σ σ
  | [], bytes, c => ([], bytes, .ok c)
  | v :: vs, bytes, c =>
      if bytes ≤ v.iovLen then
        match cb c ⟨v.iovBase, bytes⟩ with
        | .error c' => (v :: vs, bytes, .error c')
        | .ok c' =>
            if v.iovLen - bytes = 0 then (vs, 0, .ok c')
            else (⟨v.iovBase + bytes, v.iovLen - bytes⟩ :: vs, 0, .ok c')
      else
        match cb c v with
        | .error c' => (v :: vs, bytes, .error c')
        | .ok c' => doExtractFront cb vs (bytes - v.iovLen) c'

/-- `do_extract_back`, on the view read from its end. -/
def doExtractBack (cb : σ → Iovec → Except σ σ) :
    List Iovec → ℕ → σ → List Iovec × ℕ × Except σ σ
  | [], bytes, c => ([], bytes, .ok c)
  | v :: vs, bytes, c =>
      if bytes ≤ v.iovLen then
        match cb c ⟨v.iovBase + v.iovLen - bytes, bytes⟩ with
        | .error c' => (v :: vs, bytes, .error c')
        | .ok c' =>
            if v.iovLen - bytes = 0 then (vs, 0, .ok c')
            else (⟨v.iovBase, v.iovLen - bytes⟩ :: vs, 0, .ok c')
      else
        match cb c v with
        | .error c' => (v :: vs, bytes, .error c')
        | .ok c' => doExtractBack cb vs (bytes - v.iovLen) c'

/-- The pieces that the front loop hands to its callback. -/
def frontPieces : List Iovec → ℕ → List Iovec
  | [], _ => []
  | v :: vs, bytes =>
      if bytes ≤ v.iovLen then [⟨v.iovBase, bytes⟩] else v :: frontPieces vs (bytes - v.iovLen)

/-- The pieces that the back loop hands to its callback, the last one first. -/
def backPieces : List Iovec → ℕ → List Iovec
  | [], _ => []
  | v :: vs, bytes =>
      if bytes ≤ v.iovLen then [⟨v.iovBase + v.iovLen - bytes, bytes⟩]
      else v :: backPieces vs (bytes - v.iovLen)

/-- The view without its first `n` bytes.  An entry that is used up is gone. -/
def dropFront : ℕ → List Iovec → List Iovec
  | _, [] => []
  | n, v :: vs =>
      if n = 0 then v :: vs
      else if n < v.iovLen then ⟨v.iovBase + n, v.iovLen - n⟩ :: vs
      else dropFront (n - v.iovLen) vs

/-- The view without its last `n` bytes, both read from the end. -/
def dropBack : ℕ → List Iovec → List Iovec
  | _, [] => []
  | n, v :: vs =>
      if n = 0 then v :: vs
      else if n < v.iovLen then ⟨v.iovBase, v.iovLen - n⟩ :: vs
      else dropBack (n - v.iovLen) vs

variable {cb : σ → Iovec → Except σ σ} {c c' : σ} {vs : List Iovec} {n brk : ℕ}

/-- An entry that is cut from its front. -/
def frontCut : Cut Iovec where
  size := Iovec.iovLen
  take v n := ⟨v.iovBase, n⟩
  rest v n := ⟨v.iovBase + n, v.iovLen - n⟩

/-- An entry that is cut from its end. -/
def backCut : Cut Iovec where
  size := Iovec.iovLen
  take v n := ⟨v.iovBase + v.iovLen - n, n⟩
  rest v n := ⟨v.iovBase, v.iovLen - n⟩

theorem frontPieces_eq : frontPieces = frontCut.pieces := by
  delta frontPieces Cut.pieces
  rfl

theorem backPieces_eq : backPieces = backCut.pieces := by
  delta backPieces Cut.pieces
  rfl

theorem dropFront_eq : dropFront = frontCut.remains := by
  delta dropFront Cut.remains
  rfl

theorem dropBack_eq : dropBack = backCut.remains := by
  delta dropBack Cut.remains
  rfl

@[simp] theorem dropFront_zero (vs : List Iovec) : dropFront 0 vs = vs := by
  cases vs <;> simp [dropFront]

@[simp] theorem dropBack_zero (vs : List Iovec) : dropBack 0 vs = vs := by
  cases vs <;> simp [dropBack]

theorem dropFront_cons {n : ℕ} (h : 0 < n) (v : Iovec) (vs : List Iovec) :
    dropFront n (v :: vs) = if n < v.iovLen then ⟨v.iovBase + n, v.iovLen - n⟩ :: vs
      else dropFront (n - v.iovLen) vs := by
  rw [dropFront, if_neg (by omega)]

theorem doExtractFront_eq (cb : σ → Iovec → Except σ σ) :
    doExtractFront cb = frontCut.loop cb := by
  funext vs
  induction vs with
  | nil => rfl
  | cons v vs ih =>
    funext n c
    rw [doExtractFront, Cut.loop, ih]
    refine if_congr Iff.rfl ?_ ?_
    · rw [show frontCut.take v n = ⟨v.iovBase, n⟩ from rfl]
      cases cb c ⟨v.iovBase, n⟩ <;> rfl
    · cases cb c v <;> rfl

theorem doExtractBack_eq (cb : σ → Iovec → Except σ σ) :
    doExtractBack cb = backCut.loop cb := by
  funext vs
  induction vs with
  | nil => rfl
  | cons v vs ih =>
    funext n c
    rw [doExtractBack, Cut.loop, ih]
    refine if_congr Iff.rfl ?_ ?_
    · rw [show backCut.take v n = ⟨v.iovBase + v.iovLen - n, n⟩ from rfl]
      cases cb c ⟨v.iovBase + v.iovLen - n, n⟩ <;> rfl
    · cases cb c v <;> rfl

/-- **The front loop**, with a callback that takes all pieces. -/
theorem doExtractFront_of_foldlM (hn : 0 < n) (h : (frontPieces vs n).foldlM cb c = .ok c') :
    doExtractFront cb vs n c = (dropFront n vs, n - iovSum vs, .ok c') := by
  rw [frontPieces_eq] at h
  rw [doExtractFront_eq, dropFront_eq]
  exact Cut.loop_ok hn h

/-- **The back loop**, with a callback that takes all pieces. -/
theorem doExtractBack_of_foldlM (hn : 0 < n) (h : (backPieces vs n).foldlM cb c = .ok c') :
    doExtractBack cb vs n c = (dropBack n vs, n - iovSum vs, .ok c') := by
  rw [backPieces_eq] at h
  rw [doExtractBack_eq, dropBack_eq]
  exact Cut.loop_ok hn h

/-- A callback that takes every piece. -/
theorem doExtractFront_ok (f : σ → Iovec → σ) (c : σ) (hn : 0 < n) :
    doExtractFront (fun c v => .ok (f c v)) vs n c
      = (dropFront n vs, n - iovSum vs, .ok ((frontPieces vs n).foldl f c)) :=
  doExtractFront_of_foldlM hn List.foldlM_pure

theorem doExtractBack_ok (f : σ → Iovec → σ) (c : σ) (hn : 0 < n) :
    doExtractBack (fun c v => .ok (f c v)) vs n c
      = (dropBack n vs, n - iovSum vs, .ok ((backPieces vs n).foldl f c)) :=
  doExtractBack_of_foldlM hn List.foldlM_pure

theorem length_frontPieces_le (vs : List Iovec) (n : ℕ) :
    (frontPieces vs n).length ≤ vs.length := by
  rw [frontPieces_eq]
  exact frontCut.length_pieces_le vs n

theorem length_backPieces_le (vs : List Iovec) (n : ℕ) : (backPieces vs n).length ≤ vs.length := by
  rw [backPieces_eq]
  exact backCut.length_pieces_le vs n

theorem frontPieces_live (h : ∀ v ∈ vs, Live brk v) : ∀ v ∈ frontPieces vs n, Live brk v := by
  rw [frontPieces_eq]
  exact Cut.all_pieces (fun v n hv hle => hv.take hle) h

theorem backPieces_live (h : ∀ v ∈ vs, Live brk v) : ∀ v ∈ backPieces vs n, Live brk v := by
  rw [backPieces_eq]
  exact Cut.all_pieces (fun v n hv hle => hv.drop_sub hle) h

theorem dropFront_live (h : ∀ v ∈ vs, Live brk v) : ∀ v ∈ dropFront n vs, Live brk v := by
  rw [dropFront_eq]
  exact Cut.all_remains (fun v n hv hlt => hv.drop hlt.le) h

theorem dropBack_live (h : ∀ v ∈ vs, Live brk v) : ∀ v ∈ dropBack n vs, Live brk v := by
  rw [dropBack_eq]
  exact Cut.all_remains (fun v n hv _ => hv.take (Nat.sub_le _ _)) h

/-! ## The bytes of a view by their addresses -/

/-- The addresses of the bytes of a view. -/
def addrs (vs : List Iovec) : List ℕ := vs.flatMap fun v => List.range' v.iovBase v.iovLen

@[simp] theorem addrs_nil : addrs [] = [] := rfl

@[simp] theorem addrs_cons (v : Iovec) (vs : List Iovec) :
    addrs (v :: vs) = List.range' v.iovBase v.iovLen ++ addrs vs := rfl

@[simp] theorem addrs_append (vs ws : List Iovec) : addrs (vs ++ ws) = addrs vs ++ addrs ws :=
  List.flatMap_append

@[simp] theorem length_addrs (vs : List Iovec) : (addrs vs).length = iovSum vs := by
  induction vs with
  | nil => rfl
  | cons v vs ih => rw [addrs_cons, List.length_append, List.length_range', ih, iovSum_cons]

theorem iovSum_reverse (vs : List Iovec) : iovSum vs.reverse = iovSum vs := by
  simp [iovSum]

theorem Iovec.bytes_eq_map (m : Mem) (v : Iovec) :
    v.bytes m = (List.range' v.iovBase v.iovLen).map m := by
  rw [List.range'_eq_map_range, List.map_map]
  rfl

theorem bytesOf_eq_map (m : Mem) (vs : List Iovec) : bytesOf m vs = (addrs vs).map m := by
  induction vs with
  | nil => rfl
  | cons v vs ih => rw [bytesOf_cons, addrs_cons, List.map_append, ih, Iovec.bytes_eq_map]

theorem frontCut_lawful : frontCut.Lawful fun v => List.range' v.iovBase v.iovLen where
  length v := List.length_range'
  take v n h := (List.take_range'_of_length_ge h).symm
  rest v n h := by
    rw [List.drop_range', Nat.mul_one]
    rfl

/-- Cut from its end, an entry is read from its end. -/
theorem backCut_lawful : backCut.Lawful fun v => (List.range' v.iovBase v.iovLen).reverse where
  length v := by
    rw [List.length_reverse, List.length_range']
    rfl
  take v n h := by
    change n ≤ v.iovLen at h
    rw [List.take_reverse, List.length_range', List.drop_range', Nat.mul_one,
      ← Nat.add_sub_assoc h, Nat.sub_sub_self h]
    rfl
  rest v n h := by
    rw [List.drop_reverse, List.length_range', List.take_range'_of_length_ge (Nat.sub_le _ _)]
    rfl

theorem addrs_frontPieces (n : ℕ) (vs : List Iovec) :
    addrs (frontPieces vs n) = (addrs vs).take n := by
  rw [frontPieces_eq]
  exact frontCut_lawful.flatMap_pieces vs n

theorem addrs_dropFront (n : ℕ) (vs : List Iovec) :
    addrs (dropFront n vs) = (addrs vs).drop n := by
  rw [dropFront_eq]
  exact frontCut_lawful.flatMap_remains vs n

/-- The addresses of a view that is read from its end. -/
theorem addrs_reverse (vs : List Iovec) :
    addrs vs.reverse = (vs.flatMap fun v => (List.range' v.iovBase v.iovLen).reverse).reverse := by
  rw [List.reverse_flatMap]
  simp [addrs, Function.comp_def]

/-- The bytes that stay, for a view that is read from its end. -/
theorem addrs_dropBack (n : ℕ) (vs : List Iovec) :
    addrs (dropBack n vs).reverse = (addrs vs.reverse).take (iovSum vs - n) := by
  rw [addrs_reverse, addrs_reverse, dropBack_eq, backCut_lawful.flatMap_remains, List.reverse_drop,
    backCut_lawful.length_flatMap]
  rfl

/-- The bytes that go, for a view that is read from its end. -/
theorem addrs_backPieces (n : ℕ) (vs : List Iovec) :
    addrs (backPieces vs n).reverse = (addrs vs.reverse).drop (iovSum vs - n) := by
  rw [addrs_reverse, addrs_reverse, backPieces_eq, backCut_lawful.flatMap_pieces, List.reverse_take,
    backCut_lawful.length_flatMap]
  rfl

theorem iovSum_frontPieces (vs : List Iovec) (n : ℕ) :
    iovSum (frontPieces vs n) = min n (iovSum vs) := by
  rw [frontPieces_eq]
  exact frontCut_lawful.total_pieces vs n

theorem iovSum_backPieces_reverse (vs : List Iovec) (n : ℕ) :
    iovSum (backPieces vs.reverse n) = min n (iovSum vs) := by
  rw [backPieces_eq, ← iovSum_reverse vs]
  exact backCut_lawful.total_pieces vs.reverse n

theorem bytesOf_frontPieces (m : Mem) (vs : List Iovec) (n : ℕ) :
    bytesOf m (frontPieces vs n) = (bytesOf m vs).take n := by
  rw [bytesOf_eq_map, addrs_frontPieces, List.map_take, bytesOf_eq_map]

theorem bytesOf_dropFront (m : Mem) (vs : List Iovec) (n : ℕ) :
    bytesOf m (dropFront n vs) = (bytesOf m vs).drop n := by
  rw [bytesOf_eq_map, addrs_dropFront, List.map_drop, bytesOf_eq_map]

theorem bytesOf_backPieces (m : Mem) (vs : List Iovec) (n : ℕ) :
    bytesOf m (backPieces vs.reverse n).reverse = (bytesOf m vs).drop (iovSum vs - n) := by
  rw [bytesOf_eq_map, addrs_backPieces, List.reverse_reverse, iovSum_reverse, List.map_drop,
    bytesOf_eq_map]

theorem bytesOf_dropBack (m : Mem) (vs : List Iovec) (n : ℕ) :
    bytesOf m (dropBack n vs.reverse).reverse = (bytesOf m vs).take (iovSum vs - n) := by
  rw [bytesOf_eq_map, addrs_dropBack, List.reverse_reverse, iovSum_reverse, List.map_take,
    bytesOf_eq_map]

/-! ## The callbacks -/

/-- The callback of `extract_front(bytes, buf)`: copy, and move the pointer up. -/
def copyUp (c : Mem × ℕ) (v : Iovec) : Except (Mem × ℕ) (Mem × ℕ) :=
  .ok (copyMem c.1 c.2 v.iovBase v.iovLen, c.2 + v.iovLen)

/-- The callback of `extract_back(bytes, buf)`: move the pointer down, and copy. -/
def copyDown (c : Mem × ℕ) (v : Iovec) : Except (Mem × ℕ) (Mem × ℕ) :=
  .ok (copyMem c.1 (c.2 - v.iovLen) v.iovBase v.iovLen, c.2 - v.iovLen)

/-- The callback of `extract_front(bytes, iovector_view*)` for an array of `cap` iovecs. -/
def storeUp (cap : ℕ) (out : List Iovec) (v : Iovec) : Except (List Iovec) (List Iovec) :=
  if out.length = cap then .error out else .ok (out ++ [v])

/-- The callback of `extract_back(bytes, iovector_view*)`, which fills the array from its end. -/
def storeDown (cap : ℕ) (out : List Iovec) (v : Iovec) : Except (List Iovec) (List Iovec) :=
  if out.length = cap then .error out else .ok (v :: out)

/-- A callback that puts pieces into an array of `cap` entries, one place for each. -/
theorem foldlM_store {cap : ℕ} {out : List Iovec} {put : List Iovec → Iovec → List Iovec}
    (hput : ∀ out v, (put out v).length = out.length + 1) (ps : List Iovec)
    (hout : out.length ≤ cap) :
    (out.length + ps.length ≤ cap →
      ps.foldlM (fun out v => if out.length = cap then Except.error out else .ok (put out v)) out
        = .ok (ps.foldl put out)) ∧
    (cap < out.length + ps.length → ∃ out', out'.length = cap ∧
      ps.foldlM (fun out v => if out.length = cap then Except.error out else .ok (put out v)) out
        = .error out') := by
  induction ps generalizing out with
  | nil => exact ⟨fun _ => rfl, fun h => absurd h (Nat.not_lt.mpr hout)⟩
  | cons v ps ih =>
    rw [List.length_cons, List.foldlM_cons]
    by_cases hfull : out.length = cap
    · rw [if_pos hfull]
      exact ⟨fun h => by omega, fun _ => ⟨out, hfull, rfl⟩⟩
    · have hlen := hput out v
      obtain ⟨hfit, hover⟩ := @ih (put out v) (by omega)
      rw [if_neg hfull]
      exact ⟨fun h => hfit (by omega), fun h => hover (by omega)⟩

/-- Listing at most as many pieces as there are places never fails. -/
theorem foldlM_storeUp {cap : ℕ} {ps : List Iovec} (h : ps.length ≤ cap) :
    ps.foldlM (storeUp cap) [] = .ok ps := by
  have hfold := (@foldlM_store cap [] (fun out v => out ++ [v]) (fun _ _ => List.length_append) ps
    (Nat.zero_le cap)).1 (by rwa [List.length_nil, Nat.zero_add])
  rw [List.foldl_append_eq_append, List.nil_append, ← List.flatMap_def,
    List.flatMap_singleton'] at hfold
  exact hfold

/-! ## The functions of the iovector -/

/-- An iovector that bytes are extracted from, with the memory around it. -/
structure Extractor where
  view : List Iovec
  mem : Mem
  brk : ℕ

namespace Extractor

/-- `do_malloc(size)`. -/
def doMalloc (e : Extractor) (size : ℕ) : ℕ × Extractor :=
  (e.brk, { e with brk := e.brk + size })

/-- `size_t extract_front(size_t bytes, void* buf)`. -/
def extractFront (e : Extractor) (bytes buf : ℕ) : ℕ × Extractor :=
  if bytes = 0 then (0, e)
  else
    match doExtractFront copyUp e.view bytes (e.mem, buf) with
    | (rest, left, .ok c) => (bytes - left, { e with view := rest, mem := c.1 })
    | (rest, _, .error c) => (2 ^ 64 - 1, { e with view := rest, mem := c.1 })

/-- `size_t extract_back(size_t bytes, void* buf)`. -/
def extractBack (e : Extractor) (bytes buf : ℕ) : ℕ × Extractor :=
  if bytes = 0 then (0, e)
  else
    match doExtractBack copyDown e.view.reverse bytes (e.mem, buf + bytes) with
    | (rest, left, .ok c) => (bytes - left, { e with view := rest.reverse, mem := c.1 })
    | (rest, _, .error c) => (2 ^ 64 - 1, { e with view := rest.reverse, mem := c.1 })

/-- `ssize_t extract_front(size_t bytes, iovector_view* iov)` for an empty `iov`: the listed
pieces go to a new array of `iovcnt()` iovecs.  `none` is the result `-1`. -/
def extractFrontView (e : Extractor) (bytes : ℕ) : Option ℕ × List Iovec × Extractor :=
  if bytes = 0 then (some 0, [], e)
  else
    let e1 := (e.doMalloc (e.view.length * 16)).2
    match doExtractFront (storeUp e.view.length) e1.view bytes [] with
    | (rest, left, .ok ps) => (some (bytes - left), ps, { e1 with view := rest })
    | (rest, _, .error ps) => (none, ps, { e1 with view := rest })

/-- The copying path of `extract_front_continuous`. -/
def copyFront (e : Extractor) (bytes : ℕ) : ℕ × Extractor :=
  let r := (e.doMalloc bytes).2.extractFront bytes (e.doMalloc bytes).1
  (if r.1 = bytes then (e.doMalloc bytes).1 else 0, r.2)

/-- The copying path of `extract_back_continuous`. -/
def copyBack (e : Extractor) (bytes : ℕ) : ℕ × Extractor :=
  let r := (e.doMalloc bytes).2.extractBack bytes (e.doMalloc bytes).1
  (if r.1 = bytes then (e.doMalloc bytes).1 else 0, r.2)

/-- `extract_front_continuous(bytes)`: in place when the first entry is long enough. -/
def extractFrontContinuous (e : Extractor) (bytes : ℕ) : ℕ × Extractor :=
  match e.view with
  | [] => e.copyFront bytes
  | v :: vs =>
      if v.iovLen < bytes then e.copyFront bytes
      else
        let v' : Iovec := ⟨v.iovBase + bytes, v.iovLen - bytes⟩
        if v.iovBase = 0 then copyFront { e with view := v' :: vs } bytes
        else (v.iovBase, { e with view := if v'.iovLen = 0 then vs else v' :: vs })

/-- `extract_back_continuous(bytes)`: in place when the last entry is long enough; an entry
that becomes empty stays. -/
def extractBackContinuous (e : Extractor) (bytes : ℕ) : ℕ × Extractor :=
  match e.view.reverse with
  | [] => e.copyBack bytes
  | v :: vs =>
      if v.iovLen < bytes then e.copyBack bytes
      else
        let v' : Iovec := ⟨v.iovBase, v.iovLen - bytes⟩
        if v.iovBase + v'.iovLen = 0 then copyBack { e with view := (v' :: vs).reverse } bytes
        else (v.iovBase + v'.iovLen, { e with view := (v' :: vs).reverse })

end Extractor

/-! ## Copies -/

/-- The copies of `extract_front(bytes, buf)`. -/
def upCopies : ℕ → List Iovec → List Copy
  | _, [] => []
  | buf, v :: vs => ⟨buf, v.iovBase, v.iovLen⟩ :: upCopies (buf + v.iovLen) vs

/-- The copies of `extract_back(bytes, buf)`, below `top`. -/
def downCopies : ℕ → List Iovec → List Copy
  | _, [] => []
  | top, v :: vs => ⟨top - v.iovLen, v.iovBase, v.iovLen⟩ :: downCopies (top - v.iovLen) vs

theorem dsts_upCopies (buf : ℕ) (ps : List Iovec) :
    dsts (upCopies buf ps) = List.range' buf (iovSum ps) := by
  induction ps generalizing buf with
  | nil => rfl
  | cons v ps ih => rw [upCopies, dsts_cons, ih, iovSum_cons, List.range'_append_1]

theorem srcs_upCopies (buf : ℕ) (ps : List Iovec) : srcs (upCopies buf ps) = addrs ps := by
  induction ps generalizing buf with
  | nil => rfl
  | cons v ps ih => rw [upCopies, srcs_cons, ih, addrs_cons]

theorem srcs_downCopies (top : ℕ) (ps : List Iovec) : srcs (downCopies top ps) = addrs ps := by
  induction ps generalizing top with
  | nil => rfl
  | cons v ps ih => rw [downCopies, srcs_cons, ih, addrs_cons]

/-- Read from the last copy on, the copies fill the memory below `top`. -/
theorem dsts_downCopies {top : ℕ} {ps : List Iovec} (h : iovSum ps ≤ top) :
    dsts (downCopies top ps).reverse = List.range' (top - iovSum ps) (iovSum ps) := by
  induction ps generalizing top with
  | nil => rfl
  | cons v ps ih =>
    rw [iovSum_cons] at h
    rw [downCopies, List.reverse_cons, dsts_append, ih (by omega), iovSum_cons, dsts_cons, dsts_nil,
      List.append_nil, Nat.add_comm v.iovLen, ← List.range'_append_1,
      show top - (iovSum ps + v.iovLen) + iovSum ps = top - v.iovLen by omega,
      show top - v.iovLen - iovSum ps = top - (iovSum ps + v.iovLen) by omega]

theorem srcs_downCopies_reverse (top : ℕ) (ps : List Iovec) :
    srcs (downCopies top ps).reverse = addrs ps.reverse := by
  induction ps generalizing top with
  | nil => rfl
  | cons v ps ih =>
    rw [downCopies, List.reverse_cons, srcs_append, ih, List.reverse_cons, addrs_append]
    rfl

theorem foldl_copyUp (ps : List Iovec) (m : Mem) (buf : ℕ) :
    ps.foldl (fun c v => (copyMem c.1 c.2 v.iovBase v.iovLen, c.2 + v.iovLen)) (m, buf)
      = (run (upCopies buf ps) m, buf + iovSum ps) := by
  induction ps generalizing m buf with
  | nil => rfl
  | cons v ps ih =>
    rw [List.foldl_cons, ih, iovSum_cons, ← Nat.add_assoc]
    rfl

theorem foldl_copyDown (ps : List Iovec) (m : Mem) (top : ℕ) :
    ps.foldl (fun c v => (copyMem c.1 (c.2 - v.iovLen) v.iovBase v.iovLen, c.2 - v.iovLen)) (m, top)
      = (run (downCopies top ps) m, top - iovSum ps) := by
  induction ps generalizing m top with
  | nil => rfl
  | cons v ps ih =>
    rw [List.foldl_cons, ih, iovSum_cons, ← Nat.sub_sub]
    rfl

/-- `ret` bytes leave the front of the view `vs`, as many of `bytes` as there are. -/
def LeavesFront (vs : List Iovec) (bytes ret : ℕ) (rest : List Iovec) : Prop :=
  ret = min bytes (iovSum vs) ∧ ∀ m, bytesOf m rest = (bytesOf m vs).drop ret

/-- `ret` bytes leave the back of the view `vs`. -/
def LeavesBack (vs : List Iovec) (bytes ret : ℕ) (rest : List Iovec) : Prop :=
  ret = min bytes (iovSum vs) ∧ ∀ m, bytesOf m rest = (bytesOf m vs).take (iovSum vs - ret)

/-- The bytes that leave the front are at `buf` afterwards, and no other memory is written.  The
buffer does not overlap the view, as `memcpy` requires. -/
def CopiesFront (vs : List Iovec) (bytes : ℕ) : Prop :=
  ∀ (e : Extractor) (buf : ℕ), e.view = vs → (∀ a ∈ addrs vs, a ∉ List.range' buf bytes) →
    let r := e.extractFront bytes buf
    LeavesFront vs bytes r.1 r.2.view ∧
      Iovec.bytes r.2.mem ⟨buf, r.1⟩ = (bytesOf e.mem vs).take r.1 ∧
      bytesOf r.2.mem r.2.view = bytesOf e.mem r.2.view ∧
      ∀ a, a ∉ List.range' buf r.1 → r.2.mem a = e.mem a

/-- The bytes that leave the back end at the end of the buffer. -/
def CopiesBack (vs : List Iovec) (bytes : ℕ) : Prop :=
  ∀ (e : Extractor) (buf : ℕ), e.view = vs → (∀ a ∈ addrs vs, a ∉ List.range' buf bytes) →
    let r := e.extractBack bytes buf
    LeavesBack vs bytes r.1 r.2.view ∧
      Iovec.bytes r.2.mem ⟨buf + bytes - r.1, r.1⟩
        = (bytesOf e.mem vs).drop (iovSum vs - r.1) ∧
      bytesOf r.2.mem r.2.view = bytesOf e.mem r.2.view ∧
      ∀ a, a ∉ List.range' (buf + bytes - r.1) r.1 → r.2.mem a = e.mem a

section Forms

variable {bytes : ℕ}

theorem drop_min_length {α : Type} (l : List α) (n : ℕ) : l.drop (min n l.length) = l.drop n := by
  rcases le_total n l.length with h | h
  · rw [Nat.min_eq_left h]
  · rw [Nat.min_eq_right h, List.drop_length, List.drop_of_length_le h]

theorem take_min_length {α : Type} (l : List α) (n : ℕ) : l.take (min n l.length) = l.take n := by
  rcases le_total n l.length with h | h
  · rw [Nat.min_eq_left h]
  · rw [Nat.min_eq_right h, List.take_length, List.take_of_length_le h]

theorem sub_min_iovSum : iovSum vs - min bytes (iovSum vs) = iovSum vs - bytes := by
  omega

variable (vs bytes) in
theorem leavesFront_dropFront :
    LeavesFront vs bytes (min bytes (iovSum vs)) (dropFront bytes vs) := by
  refine ⟨rfl, fun m => ?_⟩
  rw [bytesOf_dropFront, ← length_bytesOf m vs, drop_min_length]

variable (vs bytes) in
theorem leavesBack_dropBack :
    LeavesBack vs bytes (min bytes (iovSum vs)) (dropBack bytes vs.reverse).reverse := by
  refine ⟨rfl, fun m => ?_⟩
  rw [bytesOf_dropBack, sub_min_iovSum]

theorem bytesOf_frontPieces_min (m : Mem) :
    bytesOf m (frontPieces vs bytes) = (bytesOf m vs).take (min bytes (iovSum vs)) := by
  rw [bytesOf_frontPieces, ← length_bytesOf m vs, take_min_length]

theorem bytesOf_backPieces_min (m : Mem) :
    bytesOf m (backPieces vs.reverse bytes).reverse
      = (bytesOf m vs).drop (iovSum vs - min bytes (iovSum vs)) := by
  rw [bytesOf_backPieces, sub_min_iovSum]

/-- A view keeps its bytes when they are not written. -/
theorem bytesOf_run {cs : List Copy} (m : Mem) (h : ∀ a ∈ addrs vs, a ∉ dsts cs) :
    bytesOf (run cs m) vs = bytesOf m vs := by
  rw [bytesOf_eq_map, bytesOf_eq_map]
  apply List.map_congr_left
  intro a ha
  exact run_of_notMem m (h a ha)

namespace Extractor

theorem extractFront_eq (e : Extractor) {bytes : ℕ} (hb : 0 < bytes) (buf : ℕ) :
    e.extractFront bytes buf = (min bytes (iovSum e.view),
      { e with
        view := dropFront bytes e.view
        mem := run (upCopies buf (frontPieces e.view bytes)) e.mem }) := by
  have hloop : doExtractFront copyUp e.view bytes (e.mem, buf) = _ :=
    doExtractFront_ok (fun c v => (copyMem c.1 c.2 v.iovBase v.iovLen, c.2 + v.iovLen))
      (e.mem, buf) hb
  unfold extractFront
  rw [if_neg (by omega), hloop, foldl_copyUp]
  dsimp only
  rw [show bytes - (bytes - iovSum e.view) = min bytes (iovSum e.view) by omega]

theorem extractBack_eq (e : Extractor) {bytes : ℕ} (hb : 0 < bytes) (buf : ℕ) :
    e.extractBack bytes buf = (min bytes (iovSum e.view),
      { e with
        view := (dropBack bytes e.view.reverse).reverse
        mem := run (downCopies (buf + bytes) (backPieces e.view.reverse bytes)) e.mem }) := by
  have hloop : doExtractBack copyDown e.view.reverse bytes (e.mem, buf + bytes) = _ :=
    doExtractBack_ok
      (fun c v => (copyMem c.1 (c.2 - v.iovLen) v.iovBase v.iovLen, c.2 - v.iovLen))
      (e.mem, buf + bytes) hb
  unfold extractBack
  rw [if_neg (by omega), hloop, foldl_copyDown]
  dsimp only
  rw [iovSum_reverse, show bytes - (bytes - iovSum e.view) = min bytes (iovSum e.view) by omega]

end Extractor

variable (vs) in
theorem copiesFront (hb : 1 ≤ bytes) : CopiesFront vs bytes := by
  rintro e buf rfl hsep
  have hdst : dsts (upCopies buf (frontPieces e.view bytes))
      = List.range' buf (min bytes (iovSum e.view)) := by
    rw [dsts_upCopies, iovSum_frontPieces]
  -- the bytes of the view are not in the part of the buffer that is written
  have hout : ∀ a ∈ addrs e.view, a ∉ dsts (upCopies buf (frontPieces e.view bytes)) := by
    intro a ha hx
    apply hsep a ha
    rw [hdst, List.mem_range'_1] at hx
    rw [List.mem_range'_1]
    omega
  have hsrc : ∀ a ∈ srcs (upCopies buf (frontPieces e.view bytes)), a ∈ addrs e.view := by
    intro a ha
    rw [srcs_upCopies, addrs_frontPieces] at ha
    exact List.mem_of_mem_take ha
  have hcopy := map_run e.mem (by rw [hdst]; exact List.nodup_range')
    (fun a ha hx => hout a (hsrc a hx) ha) _ (List.Subset.refl _)
  rw [hdst, srcs_upCopies, ← bytesOf_eq_map, bytesOf_frontPieces_min] at hcopy
  rw [e.extractFront_eq hb buf]
  refine ⟨leavesFront_dropFront e.view bytes, ?_, ?_, ?_⟩
  · rw [Iovec.bytes_eq_map]
    exact hcopy
  · apply bytesOf_run
    intro a ha
    rw [addrs_dropFront] at ha
    exact hout a (List.mem_of_mem_drop ha)
  · intro a ha
    apply run_of_notMem
    rw [hdst]
    exact ha

variable (vs) in
theorem copiesBack (hb : 1 ≤ bytes) : CopiesBack vs bytes := by
  rintro e buf rfl hsep
  have hsum : iovSum (backPieces e.view.reverse bytes) ≤ buf + bytes := by
    rw [iovSum_backPieces_reverse]
    omega
  have hdst : dsts (downCopies (buf + bytes) (backPieces e.view.reverse bytes)).reverse
      = List.range' (buf + bytes - min bytes (iovSum e.view)) (min bytes (iovSum e.view)) := by
    rw [dsts_downCopies hsum, iovSum_backPieces_reverse]
  -- the copies go downwards; written and read are the same cells in either order
  have hperm : (dsts (downCopies (buf + bytes) (backPieces e.view.reverse bytes))).Perm
      (List.range' (buf + bytes - min bytes (iovSum e.view)) (min bytes (iovSum e.view))) := by
    rw [← hdst]
    exact (List.reverse_perm _).symm.flatMap_right _
  have hout : ∀ a ∈ addrs e.view,
      a ∉ dsts (downCopies (buf + bytes) (backPieces e.view.reverse bytes)) := by
    intro a ha hx
    apply hsep a ha
    rw [hperm.mem_iff, List.mem_range'_1] at hx
    rw [List.mem_range'_1]
    omega
  have hsrc : ∀ a ∈ srcs (downCopies (buf + bytes) (backPieces e.view.reverse bytes)),
      a ∈ addrs e.view := by
    intro a ha
    rw [srcs_downCopies] at ha
    have hrev : a ∈ addrs (backPieces e.view.reverse bytes).reverse := by
      obtain ⟨v, hv, hav⟩ := List.mem_flatMap.mp ha
      exact List.mem_flatMap.mpr ⟨v, List.mem_reverse.mpr hv, hav⟩
    rw [addrs_backPieces, List.reverse_reverse] at hrev
    exact List.mem_of_mem_drop hrev
  have hcopy := map_run e.mem (hperm.nodup_iff.mpr List.nodup_range')
    (fun a ha hx => hout a (hsrc a hx) ha) _ (List.reverse_perm _).subset
  rw [hdst, srcs_downCopies_reverse, ← bytesOf_eq_map, bytesOf_backPieces_min] at hcopy
  rw [e.extractBack_eq hb buf]
  refine ⟨leavesBack_dropBack e.view bytes, ?_, ?_, ?_⟩
  · rw [Iovec.bytes_eq_map]
    exact hcopy
  · apply bytesOf_run
    intro a ha
    rw [addrs_dropBack, List.reverse_reverse] at ha
    exact hout a (List.mem_of_mem_take ha)
  · intro a ha
    apply run_of_notMem
    rw [hperm.mem_iff]
    exact ha

end Forms

/-! ## What the functions extract -/

namespace Extractor

/-- The bytes that are left. -/
def remaining (e : Extractor) : List UInt8 := bytesOf e.mem e.view

/-- The entries are live memory. -/
structure Ok (e : Extractor) : Prop where
  live : ∀ v ∈ e.view, Live e.brk v
  pos : 0 < e.brk

/-- `e'` comes after `e`: only memory that is new since has changed. -/
structure Grows (e e' : Extractor) : Prop where
  brk_le : e.brk ≤ e'.brk
  agree : ∀ a, a < e.brk → e'.mem a = e.mem a

theorem Grows.refl (e : Extractor) : Grows e e := ⟨le_rfl, fun _ _ => rfl⟩

theorem Grows.trans {e e' e'' : Extractor} (h : Grows e e') (h' : Grows e' e'') :
    Grows e e'' := by
  refine ⟨le_trans h.brk_le h'.brk_le, fun a ha => ?_⟩
  rw [h'.agree a (lt_of_lt_of_le ha h.brk_le), h.agree a ha]

/-- **What an extraction gives**: the iovecs `vs` hold the bytes `w` in live memory, and
`e'` has the bytes `r` left. -/
structure Gives (e e' : Extractor) (vs : List Iovec) (w r : List UInt8) : Prop where
  ok : e'.Ok
  grows : Grows e e'
  live : ∀ v ∈ vs, Live e'.brk v
  taken : bytesOf e'.mem vs = w
  left : e'.remaining = r

variable {e : Extractor} {n : ℕ}

theorem Ok.le_iovSum (hlen : n ≤ e.remaining.length) : n ≤ iovSum e.view := by
  rw [← length_bytesOf e.mem]
  exact hlen

/-- Bytes that were copied to newly allocated memory. -/
theorem Gives.copied {rest : List Iovec} {m : Mem} {w r : List UInt8} (hok : e.Ok)
    (hrest : ∀ v ∈ rest, Live e.brk v) (hlow : ∀ a, a < e.brk → m a = e.mem a)
    (hcat : Iovec.bytes m ⟨e.brk, n⟩ = w) (hleft : bytesOf e.mem rest = r) :
    Gives e ⟨rest, m, e.brk + n⟩ [⟨e.brk, n⟩] w r where
  ok := ⟨fun v hv => (hrest v hv).mono (Nat.le_add_right _ _),
    Nat.lt_of_lt_of_le hok.pos (Nat.le_add_right _ _)⟩
  grows := ⟨Nat.le_add_right _ _, hlow⟩
  live := by
    intro v hv
    rw [List.mem_singleton.mp hv]
    exact Or.inr ⟨hok.pos, le_rfl⟩
  taken := by
    rw [bytesOf_cons, bytesOf_nil, List.append_nil]
    exact hcat
  left := by
    show bytesOf m rest = _
    rw [bytesOf_congr hrest hlow]
    exact hleft

/-- New memory is apart from the view. -/
theorem Ok.notMem_range' (hok : e.Ok) : ∀ a ∈ addrs e.view, a ∉ List.range' e.brk n := by
  intro a ha hx
  obtain ⟨v, hv, hav⟩ := List.mem_flatMap.mp ha
  rw [List.mem_range'_1] at hav hx
  rcases hok.live v hv with hz | ⟨-, hle⟩ <;> omega

theorem copyFront_eq (hpos : 0 < n) :
    e.copyFront n = (if min n (iovSum e.view) = n then e.brk else 0,
      ⟨dropFront n e.view, run (upCopies e.brk (frontPieces e.view n)) e.mem, e.brk + n⟩) := by
  unfold copyFront doMalloc
  rw [extractFront_eq _ hpos]

theorem copyBack_eq (hpos : 0 < n) :
    e.copyBack n = (if min n (iovSum e.view) = n then e.brk else 0,
      ⟨(dropBack n e.view.reverse).reverse,
        run (downCopies (e.brk + n) (backPieces e.view.reverse n)) e.mem, e.brk + n⟩) := by
  unfold copyBack doMalloc
  rw [extractBack_eq _ hpos]

theorem copyFront_spec (hok : e.Ok) (hpos : 0 < n) (hlen : n ≤ e.remaining.length) :
    (e.copyFront n).1 ≠ 0 ∧ Gives e (e.copyFront n).2 [⟨(e.copyFront n).1, n⟩]
      (e.remaining.take n) (e.remaining.drop n) := by
  have hmin := Nat.min_eq_left (Ok.le_iovSum hlen)
  have hcopies := copiesFront e.view hpos ⟨e.view, e.mem, e.brk + n⟩ e.brk rfl hok.notMem_range'
  rw [extractFront_eq _ hpos] at hcopies
  rw [hmin] at hcopies
  obtain ⟨-, hcat, -, hout⟩ := hcopies
  rw [copyFront_eq hpos, if_pos hmin]
  refine ⟨Nat.pos_iff_ne_zero.mp hok.pos, Gives.copied hok (dropFront_live hok.live) ?_ hcat
    (bytesOf_dropFront e.mem e.view n)⟩
  intro a ha
  apply hout
  rw [List.mem_range'_1]
  omega

theorem copyBack_spec (hok : e.Ok) (hpos : 0 < n) (hlen : n ≤ e.remaining.length) :
    (e.copyBack n).1 ≠ 0 ∧ Gives e (e.copyBack n).2 [⟨(e.copyBack n).1, n⟩]
      (e.remaining.drop (e.remaining.length - n)) (e.remaining.take (e.remaining.length - n)) := by
  have hmin := Nat.min_eq_left (Ok.le_iovSum hlen)
  have hcopies := copiesBack e.view hpos ⟨e.view, e.mem, e.brk + n⟩ e.brk rfl hok.notMem_range'
  rw [extractBack_eq _ hpos] at hcopies
  dsimp only at hcopies
  rw [hmin, Nat.add_sub_cancel] at hcopies
  obtain ⟨-, hcat, -, hout⟩ := hcopies
  rw [copyBack_eq hpos, if_pos hmin, show e.remaining.length = iovSum e.view from length_bytesOf ..]
  refine ⟨Nat.pos_iff_ne_zero.mp hok.pos, Gives.copied hok ?_ ?_ hcat
    (bytesOf_dropBack e.mem e.view n)⟩
  · intro v hv
    exact dropBack_live (fun v hv => hok.live v (List.mem_reverse.mp hv)) v (List.mem_reverse.mp hv)
  · intro a ha
    apply hout
    rw [List.mem_range'_1]
    omega

/-- **`extract_front_continuous`** gives the first `n` bytes, in place or copied. -/
theorem extractFrontContinuous_spec (hok : e.Ok) (hpos : 0 < n)
    (hlen : n ≤ e.remaining.length) :
    (e.extractFrontContinuous n).1 ≠ 0 ∧
      Gives e (e.extractFrontContinuous n).2 [⟨(e.extractFrontContinuous n).1, n⟩]
        (e.remaining.take n) (e.remaining.drop n) := by
  unfold extractFrontContinuous
  split
  · exact copyFront_spec hok hpos hlen
  · rename_i v vs hview
    by_cases hshort : v.iovLen < n
    · rw [if_pos hshort]
      exact copyFront_spec hok hpos hlen
    · have hbase : v.iovBase ≠ 0 := by
        rcases hok.live v (by rw [hview]; exact List.mem_cons_self) with h | ⟨h, -⟩ <;> omega
      have hpieces : frontPieces e.view n = [⟨v.iovBase, n⟩] := by
        rw [hview, frontPieces, if_pos (by omega)]
      have hdrop : (if v.iovLen - n = 0 then vs else ⟨v.iovBase + n, v.iovLen - n⟩ :: vs)
          = dropFront n e.view := by
        rw [hview, dropFront_cons hpos]
        split_ifs
        · omega
        · rw [show n - v.iovLen = 0 by omega, dropFront_zero]
        · rfl
        · omega
      rw [if_neg hshort]
      simp only [if_neg hbase, hdrop, ← hpieces]
      exact ⟨hbase, ⟨dropFront_live hok.live, hok.pos⟩, ⟨le_rfl, fun _ _ => rfl⟩,
        frontPieces_live hok.live, bytesOf_frontPieces e.mem e.view n,
        bytesOf_dropFront e.mem e.view n⟩

/-- **`extract_back_continuous`** gives the last `n` bytes, in place or copied. -/
theorem extractBackContinuous_spec (hok : e.Ok) (hpos : 0 < n)
    (hlen : n ≤ e.remaining.length) :
    (e.extractBackContinuous n).1 ≠ 0 ∧
      Gives e (e.extractBackContinuous n).2 [⟨(e.extractBackContinuous n).1, n⟩]
        (e.remaining.drop (e.remaining.length - n))
        (e.remaining.take (e.remaining.length - n)) := by
  unfold extractBackContinuous
  split
  · exact copyBack_spec hok hpos hlen
  · rename_i v vs hview
    by_cases hshort : v.iovLen < n
    · rw [if_pos hshort]
      exact copyBack_spec hok hpos hlen
    · have hrev : ∀ x ∈ v :: vs, Live e.brk x := by
        rw [← hview]
        exact fun x hx => hok.live x (List.mem_reverse.mp hx)
      rw [List.forall_mem_cons] at hrev
      have hptr : v.iovBase + (v.iovLen - n) ≠ 0 := by
        rcases hrev.1 with h | ⟨h, -⟩ <;> omega
      have hpieces : backPieces e.view.reverse n = [⟨v.iovBase + (v.iovLen - n), n⟩] := by
        rw [hview, backPieces, if_pos (by omega), Nat.add_sub_assoc (by omega)]
      -- an entry that is used up stays, and has no bytes
      have hleft : bytesOf e.mem ((⟨v.iovBase, v.iovLen - n⟩ : Iovec) :: vs).reverse
          = bytesOf e.mem (dropBack n e.view.reverse).reverse := by
        rw [hview, dropBack, if_neg hpos.ne']
        split_ifs with hlt
        · rfl
        · rw [show n - v.iovLen = 0 by omega, dropBack_zero, List.reverse_cons, bytesOf_append,
            bytesOf_cons, Iovec.bytes_eq_nil _ _ (show v.iovLen - n = 0 by omega)]
          simp
      rw [if_neg hshort, show e.remaining.length = iovSum e.view from length_bytesOf ..]
      simp only [if_neg hptr]
      refine ⟨hptr, ⟨?_, hok.pos⟩, ⟨le_rfl, fun _ _ => rfl⟩, ?_, ?_, ?_⟩
      · intro x hx
        rcases List.mem_cons.mp (List.mem_reverse.mp hx) with rfl | hx
        · exact hrev.1.take (Nat.sub_le _ _)
        · exact hrev.2 x hx
      · rw [← hpieces]
        exact backPieces_live fun x hx => hok.live x (List.mem_reverse.mp hx)
      · refine Eq.trans ?_ (bytesOf_backPieces e.mem e.view n)
        rw [hpieces]
        rfl
      · exact hleft.trans (bytesOf_dropBack e.mem e.view n)

/-- **`extract_front` into a view** lists the first `n` bytes without copying them. -/
theorem extractFrontView_spec (hok : e.Ok) (hlen : n ≤ e.remaining.length) :
    (e.extractFrontView n).1 = some n ∧
      Gives e (e.extractFrontView n).2.2 (e.extractFrontView n).2.1
        (e.remaining.take n) (e.remaining.drop n) := by
  by_cases hz : n = 0
  · rw [extractFrontView, if_pos hz, hz]
    exact ⟨rfl, hok, Grows.refl e, fun v hv => absurd hv (by simp), rfl, rfl⟩
  · have hlist := foldlM_storeUp (length_frontPieces_le e.view n)
    have hres : e.extractFrontView n = (some n, frontPieces e.view n,
        ⟨dropFront n e.view, e.mem, e.brk + e.view.length * 16⟩) := by
      unfold extractFrontView doMalloc
      simp only [if_neg hz, doExtractFront_of_foldlM (Nat.pos_of_ne_zero hz) hlist,
        Nat.sub_eq_zero_of_le (Ok.le_iovSum hlen), Nat.sub_zero]
    rw [hres]
    refine ⟨rfl, ⟨fun v hv => (dropFront_live hok.live v hv).mono (Nat.le_add_right _ _),
      Nat.lt_of_lt_of_le hok.pos (Nat.le_add_right _ _)⟩, ⟨Nat.le_add_right _ _, fun _ _ => rfl⟩,
      ?_, bytesOf_frontPieces e.mem e.view n, bytesOf_dropFront e.mem e.view n⟩
    intro v hv
    exact (frontPieces_live hok.live v hv).mono (Nat.le_add_right _ _)

/-! ### Too few bytes -/

theorem iovSum_view_lt (hlen : e.remaining.length < n) : iovSum e.view < n := by
  rw [← length_bytesOf e.mem]
  exact hlen

theorem copyFront_short (hlen : e.remaining.length < n) : (e.copyFront n).1 = 0 := by
  have hsum := iovSum_view_lt hlen
  rw [copyFront_eq (by omega), if_neg (by omega)]

theorem copyBack_short (hlen : e.remaining.length < n) : (e.copyBack n).1 = 0 := by
  have hsum := iovSum_view_lt hlen
  rw [copyBack_eq (by omega), if_neg (by omega)]

/-- `extract_front_continuous` returns null when fewer bytes are left. -/
theorem extractFrontContinuous_short (hlen : e.remaining.length < n) :
    (e.extractFrontContinuous n).1 = 0 := by
  have hsum := iovSum_view_lt hlen
  unfold extractFrontContinuous
  split
  · exact copyFront_short hlen
  · rename_i v vs hview
    rw [hview, iovSum_cons] at hsum
    rw [if_pos (by omega)]
    exact copyFront_short hlen

/-- `extract_back_continuous` returns null when fewer bytes are left. -/
theorem extractBackContinuous_short (hlen : e.remaining.length < n) :
    (e.extractBackContinuous n).1 = 0 := by
  have hsum := iovSum_view_lt hlen
  unfold extractBackContinuous
  split
  · exact copyBack_short hlen
  · rename_i v vs hview
    have hview' : e.view = vs.reverse ++ [v] := by
      rw [← List.reverse_cons, ← hview, List.reverse_reverse]
    rw [hview', iovSum_append, iovSum_cons] at hsum
    rw [if_pos (by omega)]
    exact copyBack_short hlen

/-- `extract_front` into a view does not report `n` bytes when fewer are left. -/
theorem extractFrontView_short (hlen : e.remaining.length < n) :
    (e.extractFrontView n).1 ≠ some n := by
  have hsum := iovSum_view_lt hlen
  have hlist := foldlM_storeUp (length_frontPieces_le e.view n)
  unfold extractFrontView doMalloc
  simp only [if_neg (by omega : ¬ n = 0), doExtractFront_of_foldlM (by omega) hlist]
  intro h
  have hn : n - (n - iovSum e.view) = n := Option.some.inj h
  omega

end Extractor

end HuiRpc
