/-
# Slices

`iovector_view::slice(count, offset, iov)` lists in the array of `iov` the bytes of the view from
`offset` on, at most `count` of them, without copying.

* `pos` is meant to be the position of the entry at hand, but only an entry that is taken moves it.
  So the entries before the first one that is longer than the offset do not count: the slice starts
  `offset` bytes into that one.
* `iovector::slice` returns at once when `count` is zero and leaves `iov` as it is; it allocates an
  array when it is given none.  A null `iov` counts as one without an array.

`slice_iff` says on which views the slice is the one that is asked for.
-/
import HuiRpc.ExtractForms

namespace HuiRpc

/-! ## The loop -/

/-- What is taken of an entry at `pos`. -/
def sliceEntry (count offset pos : ℕ) (p : Iovec) : Iovec :=
  let e : Iovec :=
    if pos < offset then ⟨p.iovBase + (offset - pos), p.iovLen - (offset - pos)⟩ else p
  if count < e.iovLen then ⟨e.iovBase, count⟩ else e

/-- The loop of `slice`: what it returns, and the array it has filled. -/
def sliceLoop (cap offset : ℕ) :
    List Iovec → ℕ → ℕ → ℕ → List Iovec → ℕ × List Iovec
  | [], _, _, ret, out => (ret, out)
  | p :: ps, count, pos, ret, out =>
      if count ≠ 0 ∧ offset < pos + p.iovLen then
        let e := sliceEntry count offset pos p
        if (out ++ [e]).length = cap then (ret + e.iovLen, out ++ [e])
        else
          sliceLoop cap offset ps (count - e.iovLen) (pos + p.iovLen) (ret + e.iovLen) (out ++ [e])
      else sliceLoop cap offset ps count pos ret out

/-- `iovector_view::slice`, for an array of `cap` entries; `none` for `-1`. -/
def viewSlice (cap count offset : ℕ) (vs : List Iovec) : Option ℕ × List Iovec :=
  if cap = 0 then (none, [])
  else
    match sliceLoop cap offset vs count 0 0 [] with
    | (ret, out) => (some ret, out)

/-- `iovector::slice`, for an array that holds `init`. -/
def iovectorSlice (init : List Iovec) (count offset : ℕ) (vs : List Iovec) :
    Option ℕ × List Iovec :=
  if count = 0 then (some 0, init)
  else if init = [] then viewSlice vs.length count offset vs
  else viewSlice init.length count offset vs

/-- **What a slice is.**  The entries list the bytes asked for, in order, all of them unless the
array is used up, and the number of listed bytes is returned. -/
structure Sliced (cap count offset : ℕ) (vs : List Iovec) (r : Option ℕ × List Iovec) : Prop where
  listed : addrs r.2 <+: ((addrs vs).drop offset).take count
  cutOff : addrs r.2 ≠ ((addrs vs).drop offset).take count → r.2.length = cap
  ret : r.1 = some (iovSum r.2)

/-- Nothing is asked for, or nothing is there, or the slice starts in the first entry that is not
empty. -/
def SliceStarts (count offset : ℕ) (vs : List Iovec) : Prop :=
  count = 0 ∨ iovSum vs ≤ offset ∨
    ∃ empties v rest, vs = empties ++ v :: rest ∧ iovSum empties = 0 ∧ offset < v.iovLen

/-! ## What the loop lists -/

section Loop

variable {cap count offset pos : ℕ} {p : Iovec} {ps : List Iovec}

theorem addrs_sliceEntry :
    addrs [sliceEntry count offset pos p]
      = ((List.range' p.iovBase p.iovLen).drop (offset - pos)).take count := by
  have hcut : ∀ e : Iovec, addrs [if count < e.iovLen then (⟨e.iovBase, count⟩ : Iovec) else e]
      = (List.range' e.iovBase e.iovLen).take count := by
    intro e
    split_ifs with hlt
    · rw [List.take_range'_of_length_ge hlt.le, addrs_cons, addrs_nil, List.append_nil]
    · rw [List.take_range'_of_length_le (not_lt.mp hlt), addrs_cons, addrs_nil, List.append_nil]
  unfold sliceEntry
  rw [hcut]
  split_ifs with hpos
  · rw [List.drop_range', Nat.mul_one]
  · rw [Nat.sub_eq_zero_of_le (not_lt.mp hpos), List.drop_zero]

/-- An entry that reaches past the offset is taken, and then the bytes of the others. -/
theorem sliceEntry_split (hp : offset < pos + p.iovLen) :
    (sliceEntry count offset pos p).iovLen = min count (p.iovLen - (offset - pos)) ∧
      ((addrs (p :: ps)).drop (offset - pos)).take count
        = addrs [sliceEntry count offset pos p]
          ++ (addrs ps).take (count - (sliceEntry count offset pos p).iovLen) := by
  have hlen : (sliceEntry count offset pos p).iovLen = min count (p.iovLen - (offset - pos)) := by
    have hl := congrArg List.length (@addrs_sliceEntry count offset pos p)
    rw [length_addrs, List.length_take, List.length_drop, List.length_range', iovSum_cons,
      iovSum_nil] at hl
    exact hl
  refine ⟨hlen, ?_⟩
  rw [addrs_cons, List.drop_append_of_le_length (by rw [List.length_range']; omega),
    List.take_append, List.length_drop, List.length_range', addrs_sliceEntry, hlen]
  congr 2
  omega

/-- One turn that takes its entry, if the turns after it list what they should. -/
theorem sliceLoop_taken {e : Iovec} (he : e = sliceEntry count offset pos p) (hcount : count ≠ 0)
    (hp : offset < pos + p.iovLen) (ret : ℕ) {out : List Iovec} (hout : out.length < cap)
    (hrest : (out ++ [e]).length < cap → ∃ more,
      sliceLoop cap offset ps (count - e.iovLen) (pos + p.iovLen) (ret + e.iovLen) (out ++ [e])
        = (ret + e.iovLen + iovSum more, out ++ [e] ++ more) ∧
      addrs more <+: (addrs ps).take (count - e.iovLen) ∧
      (addrs more ≠ (addrs ps).take (count - e.iovLen) → (out ++ [e] ++ more).length = cap)) :
    ∃ more, sliceLoop cap offset (p :: ps) count pos ret out
        = (ret + iovSum (e :: more), out ++ e :: more) ∧
      addrs (e :: more) <+: ((addrs (p :: ps)).drop (offset - pos)).take count ∧
      (addrs (e :: more) ≠ ((addrs (p :: ps)).drop (offset - pos)).take count →
        (out ++ e :: more).length = cap) := by
  have hsplit := (@sliceEntry_split count offset pos p ps hp).2
  rw [sliceLoop, if_pos ⟨hcount, hp⟩, hsplit]
  dsimp only
  rw [← he]
  split_ifs with hfull
  · refine ⟨[], ?_, List.prefix_append _ _, fun _ => hfull⟩
    rw [iovSum_cons, iovSum_nil, Nat.add_zero]
  · have hroom : (out ++ [e]).length < cap := by
      rw [List.length_append, List.length_singleton] at hfull ⊢
      omega
    obtain ⟨more, hmore, hlist, hcut⟩ := hrest hroom
    rw [List.append_assoc, List.singleton_append] at hmore hcut
    refine ⟨more, ?_, ?_, ?_⟩
    · rw [hmore, iovSum_cons, Nat.add_assoc]
    · rw [← List.singleton_append, addrs_append]
      exact (List.prefix_append_right_inj _).mpr hlist
    · rw [← List.singleton_append, addrs_append]
      intro hne
      exact hcut fun heq => hne (by rw [heq])

/-- Behind the offset the loop lists whole entries until `count` or the array is used up. -/
theorem sliceLoop_behind (hpos : offset < pos) (ret : ℕ) (out : List Iovec)
    (hout : out.length < cap) :
    ∃ more, sliceLoop cap offset ps count pos ret out = (ret + iovSum more, out ++ more) ∧
      addrs more <+: (addrs ps).take count ∧
      (addrs more ≠ (addrs ps).take count → (out ++ more).length = cap) := by
  induction ps generalizing count pos ret out with
  | nil => exact ⟨[], by simp [sliceLoop], by simp, by simp⟩
  | cons p ps ih =>
    by_cases hcount : count = 0
    · obtain ⟨more, hmore, hlist, hcut⟩ := @ih count pos hpos ret out hout
      rw [sliceLoop, hmore]
      rw [hcount] at hlist hcut ⊢
      exact ⟨more, rfl, hlist, hcut⟩
    · have htake : offset < pos + p.iovLen := by omega
      obtain ⟨more, hmore, hlist, hcut⟩ := sliceLoop_taken rfl hcount htake ret hout
        fun hroom => ih htake _ _ hroom
      rw [Nat.sub_eq_zero_of_le hpos.le] at hlist hcut
      exact ⟨_ :: more, hmore, hlist, hcut⟩

/-- The entries that the loop skips at first: none of them moves `pos`. -/
def skipped (offset : ℕ) (vs : List Iovec) : List Iovec := vs.takeWhile fun v => v.iovLen ≤ offset

/-- The entries from the first one on that is longer than the offset. -/
def unskipped (offset : ℕ) (vs : List Iovec) : List Iovec :=
  vs.dropWhile fun v => v.iovLen ≤ offset

theorem sliceLoop_unskipped (vs : List Iovec) :
    sliceLoop cap offset vs count 0 0 []
      = sliceLoop cap offset (unskipped offset vs) count 0 0 [] := by
  induction vs with
  | nil => rfl
  | cons v vs ih =>
    unfold unskipped
    by_cases hle : v.iovLen ≤ offset
    · rw [List.dropWhile_cons_of_pos (by simpa using hle), sliceLoop, if_neg (by omega)]
      exact ih
    · rw [List.dropWhile_cons_of_neg (by simpa using hle)]

theorem lt_of_unskipped {vs : List Iovec} (h : unskipped offset vs = p :: ps) :
    offset < p.iovLen := by
  induction vs with
  | nil => cases h
  | cons v vs ih =>
    unfold unskipped at h
    by_cases hle : v.iovLen ≤ offset
    · rw [List.dropWhile_cons_of_pos (by simpa using hle)] at h
      exact ih h
    · rw [List.dropWhile_cons_of_neg (by simpa using hle)] at h
      rw [← (List.cons.inj h).1]
      exact not_le.mp hle

theorem addrs_skipped_append (offset : ℕ) (vs : List Iovec) :
    addrs vs = addrs (skipped offset vs) ++ addrs (unskipped offset vs) := by
  rw [← addrs_append]
  exact congrArg addrs List.takeWhile_append_dropWhile.symm

theorem sliceLoop_zero (vs : List Iovec) : sliceLoop cap offset vs 0 0 0 [] = (0, []) := by
  induction vs with
  | nil => rfl
  | cons v vs ih =>
    exact ih

/-- From an entry on that is longer than the offset, the loop lists the bytes behind the offset. -/
theorem sliceLoop_first (hcap : 1 ≤ cap) (hcount : count ≠ 0) (hp : offset < p.iovLen) :
    ∃ e more, sliceLoop cap offset (p :: ps) count 0 0 [] = (iovSum (e :: more), e :: more) ∧
      0 < e.iovLen ∧ addrs (e :: more) <+: ((addrs (p :: ps)).drop offset).take count ∧
      (addrs (e :: more) ≠ ((addrs (p :: ps)).drop offset).take count →
        (e :: more).length = cap) := by
  have htake : offset < 0 + p.iovLen := by omega
  have hlen := (@sliceEntry_split count offset 0 p ps htake).1
  obtain ⟨more, hmore, hlist, hcut⟩ := @sliceLoop_taken cap count offset 0 p ps _ rfl hcount htake 0
    [] hcap fun hroom => sliceLoop_behind htake _ _ hroom
  rw [Nat.zero_add] at hmore
  exact ⟨_, more, hmore, by omega, hlist, hcut⟩

end Loop

/-! ## Which slice it is -/

section Slices

variable {cap count offset : ℕ} {vs : List Iovec}

/-- The slice of a view is that of its entries from the first one on that is longer than the
offset. -/
theorem viewSlice_sliced (hcap : 1 ≤ cap) :
    Sliced cap count offset (unskipped offset vs) (viewSlice cap count offset vs) := by
  unfold viewSlice
  rw [if_neg (by omega)]
  by_cases hcount : count = 0
  · rw [hcount, sliceLoop_zero]
    exact ⟨by simp, by simp, rfl⟩
  · rw [sliceLoop_unskipped]
    cases htail : unskipped offset vs with
    | nil => exact ⟨by simp [sliceLoop], by simp [sliceLoop], rfl⟩
    | cons p ps =>
      obtain ⟨e, more, hrun, -, hlist, hcut⟩ := sliceLoop_first hcap hcount (lt_of_unskipped htail)
      rw [hrun]
      exact ⟨hlist, hcut, rfl⟩

/-- When the slice starts where it should, the skipped entries make no difference. -/
theorem SliceStarts.unskipped_eq (h : SliceStarts count offset vs) :
    ((addrs (unskipped offset vs)).drop offset).take count
      = ((addrs vs).drop offset).take count := by
  have happ := addrs_skipped_append offset vs
  rcases h with rfl | hsum | ⟨empties, v, rest, hvs, hempty, hv⟩
  · rw [List.take_zero, List.take_zero]
  · -- nothing is there, before or after
    have hlen := congrArg List.length happ
    rw [List.length_append, length_addrs, length_addrs, length_addrs] at hlen
    rw [List.drop_eq_nil_of_le (by rw [length_addrs]; omega),
      List.drop_eq_nil_of_le (by rw [length_addrs]; omega)]
  · have hskip : skipped offset vs = empties := by
      unfold skipped
      rw [hvs, List.takeWhile_append_of_pos, List.takeWhile_cons_of_neg (by simpa using hv),
        List.append_nil]
      intro x hx
      have hle : x.iovLen ≤ iovSum empties :=
        List.single_le_sum (fun _ _ => Nat.zero_le _) _ (List.mem_map_of_mem hx)
      simp only [decide_eq_true_eq]
      omega
    have hnil : addrs empties = [] := List.eq_nil_of_length_eq_zero (by rw [length_addrs, hempty])
    rw [happ, hskip, hnil, List.nil_append]

/-- The first byte that is listed is the one at the offset. -/
theorem getElem?_of_listed {l : List ℕ} {e : Iovec} {more : List Iovec} (he : 0 < e.iovLen)
    (h : addrs (e :: more) <+: (l.drop offset).take count) : l[offset]? = some e.iovBase := by
  have hhead : (addrs (e :: more)).head? = some e.iovBase := by
    obtain ⟨n, hn⟩ : ∃ n, e.iovLen = n + 1 := ⟨e.iovLen - 1, by omega⟩
    rw [addrs_cons, hn]
    rfl
  obtain ⟨t, ht⟩ := h
  have hcount : count ≠ 0 := by
    rintro rfl
    rw [(List.append_eq_nil_iff.mp ht).1] at hhead
    cases hhead
  have htake : ((l.drop offset).take count).head? = (l.drop offset).head? := by
    rw [List.head?_take, if_neg hcount]
  rw [← List.head?_drop, ← htake, ← ht, List.head?_append, hhead]
  rfl

/-- **`slice`.**  The slice of every view is the one that is asked for if nothing is asked for, or
nothing is there, or it starts in the first entry that is not empty; if no byte is listed twice in
the view, only then.  `iovector::slice` is the same, once something is asked for. -/
theorem slice_iff {cap : ℕ} (hcap : 1 ≤ cap) (count offset : ℕ) (vs : List Iovec) :
    (SliceStarts count offset vs →
      Sliced cap count offset vs (viewSlice cap count offset vs)) ∧
    ((addrs vs).Nodup → Sliced cap count offset vs (viewSlice cap count offset vs) →
      SliceStarts count offset vs) ∧
    ∀ init : List Iovec, init.length = cap → 1 ≤ count →
      iovectorSlice init count offset vs = viewSlice cap count offset vs := by
  refine ⟨fun hstarts => ?_, fun hnd hsliced => ?_, fun init hinit hcount => ?_⟩
  · obtain ⟨hlist, hcut, hret⟩ := @viewSlice_sliced cap count offset vs hcap
    rw [hstarts.unskipped_eq] at hlist hcut
    exact ⟨hlist, hcut, hret⟩
  · by_contra hnot
    have hcount : count ≠ 0 := fun h => hnot (Or.inl h)
    have hsum : offset < iovSum vs := not_le.mp fun h => hnot (Or.inr (Or.inl h))
    obtain ⟨hlist, hcut, -⟩ := hsliced
    unfold viewSlice at hlist hcut
    rw [if_neg (by omega), sliceLoop_unskipped] at hlist hcut
    cases htail : unskipped offset vs with
    | nil =>
      -- every entry is skipped, and nothing is listed
      rw [htail] at hcut
      have hne : addrs [] ≠ ((addrs vs).drop offset).take count := by
        intro heq
        have hl := congrArg List.length heq
        rw [List.length_take, List.length_drop, length_addrs, length_addrs, iovSum_nil] at hl
        omega
      have hl : ([] : List Iovec).length = cap := hcut hne
      rw [List.length_nil] at hl
      omega
    | cons p ps =>
      have hp := lt_of_unskipped htail
      obtain ⟨e, more, hrun, he, hlisted, -⟩ :=
        @sliceLoop_first cap count offset p ps hcap hcount hp
      rw [htail, hrun] at hlist
      rw [← htail] at hlisted
      -- the first listed byte is at the offset both in the view and in what is left of it
      have hat := getElem?_of_listed he hlist
      have hat' := getElem?_of_listed he hlisted
      have happ := addrs_skipped_append offset vs
      have hback : (addrs vs)[(addrs (skipped offset vs)).length + offset]? = some e.iovBase := by
        rw [happ, List.getElem?_append_right (Nat.le_add_right _ _), Nat.add_sub_cancel_left]
        exact hat'
      have hidx := (List.getElem?_inj (by rw [length_addrs]; exact hsum) hnd).mp
        (hat.trans hback.symm)
      rw [length_addrs] at hidx
      refine hnot (Or.inr (Or.inr ⟨skipped offset vs, p, ps, ?_, by omega, hp⟩))
      rw [← htail]
      exact List.takeWhile_append_dropWhile.symm
  · unfold iovectorSlice
    rw [if_neg (by omega), if_neg, hinit]
    rintro rfl
    rw [List.length_nil] at hinit
    omega

/-- A slice that starts in the first entry and ends in the second. -/
theorem slice_across :
    1 ≤ 2 ∧ Sliced 2 4 2 [⟨100, 4⟩, ⟨200, 4⟩] (some 4, [⟨102, 2⟩, ⟨200, 2⟩]) :=
  ⟨by decide, (slice_iff (by decide) 4 2 [⟨100, 4⟩, ⟨200, 4⟩]).1
    (Or.inr (Or.inr ⟨[], _, _, rfl, rfl, by decide⟩))⟩

/-- The last four bytes of two entries of four are not found. -/
theorem slice_second_entry :
    viewSlice 8 4 4 [⟨100, 4⟩, ⟨200, 4⟩] = (some 0, []) ∧
      ¬ Sliced 8 4 4 [⟨100, 4⟩, ⟨200, 4⟩] (viewSlice 8 4 4 [⟨100, 4⟩, ⟨200, 4⟩]) := by
  have hrun : viewSlice 8 4 4 [⟨100, 4⟩, ⟨200, 4⟩] = (some 0, []) := by decide
  refine ⟨hrun, fun h => ?_⟩
  exact absurd (h.cutOff (by decide)) (by decide)

end Slices

end HuiRpc
