/-
# The forms of `extract_front` and `extract_back`

`iovector_view` has three forms of each: one that discards the bytes, one that copies them into a
buffer, and one that lists them in the iovec array of another view.  All of them are the loops of
`HuiRpc.Extract` with different callbacks.  The listing forms leave the pieces listed so far in the
array when they return `-1`.

`extract_forms` says what each of the forms extracts and leaves.
-/
import HuiRpc.Extract

namespace HuiRpc

open Peel

/-! ## The forms that discard -/

/-- `size_t extract_front(size_t bytes)`: the result, and the rest of the view. -/
def viewExtractFront (vs : List Iovec) (bytes : ℕ) : ℕ × List Iovec :=
  if bytes = 0 then (0, vs)
  else
    match doExtractFront (fun (_ : Unit) _ => .ok ()) vs bytes () with
    | (rest, left, _) => (bytes - left, rest)

/-- `size_t extract_back(size_t bytes)`. -/
def viewExtractBack (vs : List Iovec) (bytes : ℕ) : ℕ × List Iovec :=
  if bytes = 0 then (0, vs)
  else
    match doExtractBack (fun (_ : Unit) _ => .ok ()) vs.reverse bytes () with
    | (rest, left, _) => (bytes - left, rest.reverse)

theorem viewExtractFront_eq (vs : List Iovec) (bytes : ℕ) :
    viewExtractFront vs bytes = (min bytes (iovSum vs), dropFront bytes vs) := by
  unfold viewExtractFront
  split_ifs with hz
  · rw [hz, dropFront_zero, Nat.zero_min]
  · rw [doExtractFront_ok (fun _ _ => ()) () (by omega)]
    dsimp only
    rw [show bytes - (bytes - iovSum vs) = min bytes (iovSum vs) by omega]

theorem viewExtractBack_eq (vs : List Iovec) (bytes : ℕ) :
    viewExtractBack vs bytes
      = (min bytes (iovSum vs), (dropBack bytes vs.reverse).reverse) := by
  unfold viewExtractBack
  split_ifs with hz
  · rw [hz, dropBack_zero, Nat.zero_min, List.reverse_reverse]
  · rw [doExtractBack_ok (fun _ _ => ()) () (by omega)]
    dsimp only
    rw [iovSum_reverse, show bytes - (bytes - iovSum vs) = min bytes (iovSum vs) by omega]

/-! ## The forms that list -/

/-- `ssize_t extract_front(size_t bytes, iovector_view* iov)` with an array of `cap` iovecs: the
result, `none` for `-1`, the pieces listed, and the rest of the view. -/
def viewExtractFrontInto (cap : ℕ) (vs : List Iovec) (bytes : ℕ) :
    Option ℕ × List Iovec × List Iovec :=
  if bytes = 0 then (some 0, [], vs)
  else
    match doExtractFront (storeUp cap) vs bytes [] with
    | (rest, left, .ok out) => (some (bytes - left), out, rest)
    | (rest, _, .error out) => (none, out, rest)

/-- `ssize_t extract_back(size_t bytes, iovector_view* iov)`. -/
def viewExtractBackInto (cap : ℕ) (vs : List Iovec) (bytes : ℕ) :
    Option ℕ × List Iovec × List Iovec :=
  if bytes = 0 then (some 0, [], vs)
  else
    match doExtractBack (storeDown cap) vs.reverse bytes [] with
    | (rest, left, .ok out) => (some (bytes - left), out, rest.reverse)
    | (rest, _, .error out) => (none, out, rest.reverse)

/-- The array that the forms of `iovector` list into: a new one with `iovcnt()` entries if the
array they are given is empty. -/
def arrayCap (cap : ℕ) (vs : List Iovec) : ℕ := if cap = 0 then vs.length else cap

/-- `iovector::extract_front(size_t bytes, iovector_view* iov)`, for `bytes > 0`. -/
def iovectorExtractFrontInto (cap : ℕ) (vs : List Iovec) (bytes : ℕ) :
    Option ℕ × List Iovec × List Iovec :=
  viewExtractFrontInto (arrayCap cap vs) vs bytes

/-- `iovector::extract_back(size_t bytes, iovector_view* iov)`, for `bytes > 0`. -/
def iovectorExtractBackInto (cap : ℕ) (vs : List Iovec) (bytes : ℕ) :
    Option ℕ × List Iovec × List Iovec :=
  viewExtractBackInto (arrayCap cap vs) vs bytes

section Listing

variable {cap n : ℕ} {vs out : List Iovec}

/-- The array is large enough for all pieces. -/
theorem doExtractFront_fits (hn : 0 < n) (hfit : (frontPieces vs n).length ≤ cap) :
    doExtractFront (storeUp cap) vs n []
      = (dropFront n vs, n - iovSum vs, .ok (frontPieces vs n)) :=
  doExtractFront_of_foldlM hn (foldlM_storeUp hfit)

theorem doExtractBack_fits (hn : 0 < n) (hfit : (backPieces vs n).length ≤ cap) :
    doExtractBack (storeDown cap) vs n []
      = (dropBack n vs, n - iovSum vs, .ok (backPieces vs n).reverse) := by
  have hfold := (@foldlM_store cap [] (fun out v => v :: out) (fun _ _ => List.length_cons)
    (backPieces vs n) (Nat.zero_le cap)).1 (by rwa [List.length_nil, Nat.zero_add])
  rw [List.foldl_flip_cons_eq_append, List.append_nil, List.map_id'] at hfold
  exact doExtractBack_of_foldlM hn hfold

/-- The array is used up: nothing is lost. -/
theorem doExtractFront_full (hfull : cap < (frontPieces vs n).length) :
    ∃ rest left out, doExtractFront (storeUp cap) vs n [] = (rest, left, .error out) ∧
      out.length = cap ∧ addrs out ++ addrs rest = addrs vs := by
  obtain ⟨out, hlen, hfold⟩ := (@foldlM_store cap [] (fun out v => out ++ [v])
    (fun _ _ => List.length_append) (frontPieces vs n) (Nat.zero_le cap)).2
    (by rwa [List.length_nil, Nat.zero_add])
  rw [frontPieces_eq] at hfold
  have hloop : frontCut.loop (storeUp cap) vs n [] = (_, _, .error out) :=
    Prod.ext rfl (Prod.ext rfl ((Cut.loop_result [] (storeUp cap) vs n).trans hfold))
  rw [doExtractFront_eq]
  refine ⟨_, _, out, hloop, hlen, Cut.loop_error _ addrs ?_ ?_ hloop⟩
  · intro c v c' hc
    unfold storeUp at hc
    split_ifs at hc
    cases hc
    rw [addrs_append, addrs_cons, addrs_nil, List.append_nil]
  · intro c v c' hc
    unfold storeUp at hc
    split_ifs at hc
    cases hc
    rfl

theorem doExtractBack_full (hfull : cap < (backPieces vs n).length) :
    ∃ rest left out, doExtractBack (storeDown cap) vs n [] = (rest, left, .error out) ∧
      out.length = cap ∧ addrs rest.reverse ++ addrs out = addrs vs.reverse := by
  obtain ⟨out, hlen, hfold⟩ := (@foldlM_store cap [] (fun out v => v :: out)
    (fun _ _ => List.length_cons) (backPieces vs n) (Nat.zero_le cap)).2
    (by rwa [List.length_nil, Nat.zero_add])
  rw [backPieces_eq] at hfold
  have hloop : backCut.loop (storeDown cap) vs n [] = (_, _, .error out) :=
    Prod.ext rfl (Prod.ext rfl ((Cut.loop_result [] (storeDown cap) vs n).trans hfold))
  rw [doExtractBack_eq]
  refine ⟨_, _, out, hloop, hlen, ?_⟩
  -- the array is filled from its end
  have hrev := Cut.loop_error (fun v : Iovec => (List.range' v.iovBase v.iovLen).reverse)
    (fun out => (addrs out).reverse) ?_ ?_ hloop
  · rw [addrs_reverse, addrs_reverse, ← List.reverse_reverse (addrs out), ← List.reverse_append, hrev]
    rfl
  · intro c v c' hc
    unfold storeDown at hc
    split_ifs at hc
    cases hc
    rw [addrs_cons, List.reverse_append]
  · intro c v c' hc
    unfold storeDown at hc
    split_ifs at hc
    cases hc
    rfl

end Listing

/-! ## What every form extracts -/

/-- The listed pieces are the bytes that leave the front.  The result `-1` means that the array is
full, and then the pieces and the rest of the view are all bytes. -/
def ListsFront (cap : ℕ) (vs : List Iovec) (bytes : ℕ) : Option ℕ × List Iovec × List Iovec → Prop
  | (some ret, out, rest) => LeavesFront vs bytes ret rest ∧ out.length ≤ cap ∧
      ∀ m, bytesOf m out = (bytesOf m vs).take ret
  | (none, out, rest) => out.length = cap ∧ ∀ m, bytesOf m out ++ bytesOf m rest = bytesOf m vs

def ListsBack (cap : ℕ) (vs : List Iovec) (bytes : ℕ) : Option ℕ × List Iovec × List Iovec → Prop
  | (some ret, out, rest) => LeavesBack vs bytes ret rest ∧ out.length ≤ cap ∧
      ∀ m, bytesOf m out = (bytesOf m vs).drop (iovSum vs - ret)
  | (none, out, rest) => out.length = cap ∧ ∀ m, bytesOf m rest ++ bytesOf m out = bytesOf m vs

section Forms

variable {vs : List Iovec} {bytes : ℕ}

variable (vs) in
theorem listsFront (cap : ℕ) (hb : 1 ≤ bytes) :
    ListsFront cap vs bytes (viewExtractFrontInto cap vs bytes) := by
  unfold viewExtractFrontInto
  rw [if_neg (by omega)]
  by_cases hfit : (frontPieces vs bytes).length ≤ cap
  · rw [doExtractFront_fits hb hfit]
    dsimp only
    rw [show bytes - (bytes - iovSum vs) = min bytes (iovSum vs) by omega]
    exact ⟨leavesFront_dropFront vs bytes, hfit, bytesOf_frontPieces_min⟩
  · obtain ⟨rest, left, out, hrun, hlen, hcat⟩ := doExtractFront_full (not_le.mp hfit)
    rw [hrun]
    refine ⟨hlen, fun m => ?_⟩
    rw [bytesOf_eq_map, bytesOf_eq_map, ← List.map_append, hcat, bytesOf_eq_map]

variable (vs) in
theorem listsBack (cap : ℕ) (hb : 1 ≤ bytes) :
    ListsBack cap vs bytes (viewExtractBackInto cap vs bytes) := by
  unfold viewExtractBackInto
  rw [if_neg (by omega)]
  by_cases hfit : (backPieces vs.reverse bytes).length ≤ cap
  · rw [doExtractBack_fits hb hfit]
    dsimp only
    rw [iovSum_reverse, show bytes - (bytes - iovSum vs) = min bytes (iovSum vs) by omega]
    refine ⟨leavesBack_dropBack vs bytes, ?_, bytesOf_backPieces_min⟩
    rwa [List.length_reverse]
  · obtain ⟨rest, left, out, hrun, hlen, hcat⟩ := doExtractBack_full (not_le.mp hfit)
    rw [hrun]
    refine ⟨hlen, fun m => ?_⟩
    rw [bytesOf_eq_map, bytesOf_eq_map, ← List.map_append, hcat, List.reverse_reverse,
      bytesOf_eq_map]

/-- The array of `iovcnt()` entries holds all pieces. -/
theorem iovectorExtractFrontInto_zero (hb : 1 ≤ bytes) :
    iovectorExtractFrontInto 0 vs bytes
      = (some (min bytes (iovSum vs)), frontPieces vs bytes, dropFront bytes vs) := by
  unfold iovectorExtractFrontInto viewExtractFrontInto arrayCap
  rw [if_pos rfl, if_neg (by omega), doExtractFront_fits hb (length_frontPieces_le vs bytes)]
  dsimp only
  rw [show bytes - (bytes - iovSum vs) = min bytes (iovSum vs) by omega]

theorem iovectorExtractBackInto_zero (hb : 1 ≤ bytes) :
    iovectorExtractBackInto 0 vs bytes
      = (some (min bytes (iovSum vs)), (backPieces vs.reverse bytes).reverse,
          (dropBack bytes vs.reverse).reverse) := by
  have hfit := length_backPieces_le vs.reverse bytes
  rw [List.length_reverse] at hfit
  unfold iovectorExtractBackInto viewExtractBackInto arrayCap
  rw [if_pos rfl, if_neg (by omega), doExtractBack_fits hb hfit, iovSum_reverse]
  dsimp only
  rw [show bytes - (bytes - iovSum vs) = min bytes (iovSum vs) by omega]

/-- The listing form that the `Deserializer` calls. -/
theorem Extractor.extractFrontView_eq (e : Extractor) (hb : 1 ≤ bytes) :
    (e.extractFrontView bytes).1 = (iovectorExtractFrontInto 0 e.view bytes).1 ∧
      (e.extractFrontView bytes).2.1 = (iovectorExtractFrontInto 0 e.view bytes).2.1 ∧
      (e.extractFrontView bytes).2.2.view = (iovectorExtractFrontInto 0 e.view bytes).2.2 := by
  have hlist := foldlM_storeUp (length_frontPieces_le e.view bytes)
  rw [iovectorExtractFrontInto_zero hb]
  unfold Extractor.extractFrontView Extractor.doMalloc
  rw [if_neg (by omega)]
  dsimp only
  rw [doExtractFront_of_foldlM hb hlist]
  refine ⟨?_, rfl, rfl⟩
  show some (bytes - (bytes - iovSum e.view)) = _
  rw [show bytes - (bytes - iovSum e.view) = min bytes (iovSum e.view) by omega]

variable (vs) in
/-- **Extraction.**  For every view and `bytes ≥ 1`, the forms that discard, copy and list extract
`min bytes (sum())` bytes, from the front or from the back.  The copies and the listed pieces are
these bytes in order, and the rest of the view is the other bytes.  The listing forms return `-1`
only when their array is full, and those of `iovector` never when they make the array themselves. -/
theorem extract_forms (hb : 1 ≤ bytes) :
    LeavesFront vs bytes (viewExtractFront vs bytes).1 (viewExtractFront vs bytes).2 ∧
    LeavesBack vs bytes (viewExtractBack vs bytes).1 (viewExtractBack vs bytes).2 ∧
    CopiesFront vs bytes ∧ CopiesBack vs bytes ∧
    (∀ cap, ListsFront cap vs bytes (viewExtractFrontInto cap vs bytes) ∧
      ListsBack cap vs bytes (viewExtractBackInto cap vs bytes)) ∧
    (∀ cap, ListsFront (arrayCap cap vs) vs bytes (iovectorExtractFrontInto cap vs bytes) ∧
      ListsBack (arrayCap cap vs) vs bytes (iovectorExtractBackInto cap vs bytes)) ∧
    (iovectorExtractFrontInto 0 vs bytes).1 ≠ none ∧
    (iovectorExtractBackInto 0 vs bytes).1 ≠ none := by
  refine ⟨?_, ?_, copiesFront vs hb, copiesBack vs hb, ?_, ?_, ?_, ?_⟩
  · rw [viewExtractFront_eq]
    exact leavesFront_dropFront vs bytes
  · rw [viewExtractBack_eq]
    exact leavesBack_dropBack vs bytes
  · intro cap
    exact ⟨listsFront vs cap hb, listsBack vs cap hb⟩
  · intro cap
    exact ⟨listsFront vs _ hb, listsBack vs _ hb⟩
  · rw [iovectorExtractFrontInto_zero hb]
    exact Option.some_ne_none _
  · rw [iovectorExtractBackInto_zero hb]
    exact Option.some_ne_none _

end Forms

/-- Five bytes from three entries, one of them empty, into an array of one entry: it is full after
the first piece, and three bytes are left. -/
theorem extract_forms_full :
    (viewExtractFrontInto 1 [⟨100, 2⟩, ⟨200, 0⟩, ⟨300, 3⟩] 5).1 = none ∧
      ListsFront 1 [⟨100, 2⟩, ⟨200, 0⟩, ⟨300, 3⟩] 5
        (viewExtractFrontInto 1 [⟨100, 2⟩, ⟨200, 0⟩, ⟨300, 3⟩] 5) :=
  ⟨by decide, ((extract_forms _ (by decide)).2.2.2.2.1 1).1⟩

end HuiRpc
