/-
# Copying between two views

`iovector_view::memcpy_iov` copies bytes from the front of one view to the memory of another.  Every
round copies as much as the size, the first entry of the destination and the first entry of the
source allow, and takes these bytes from both views with `extract_front`.

* A round that copies nothing changes nothing, since `extract_front(0)` returns at once.  So when
  one of the two first entries is empty, the loop does not end.
* `copies` are the calls of `memcpy`, in order.

`memcpy_iov_iff` says when the loop ends, and what it has copied then.
-/
import HuiRpc.ExtractForms

namespace HuiRpc

open Copies

/-! ## The loop -/

/-- The variables of `memcpy_iov`, with the calls of `memcpy` so far. -/
structure CopyState where
  dest : List Iovec
  src : List Iovec
  size : ℕ
  actual : ℕ
  copies : List Copy
  deriving DecidableEq

/-- `stepsize`. -/
def stepsize (size : ℕ) (v w : Iovec) : ℕ :=
  let s := if v.iovLen < size then v.iovLen else size
  if w.iovLen < s then w.iovLen else s

/-- The loop of `memcpy_iov`; `none` if it has not ended after `fuel` tests of its condition. -/
def memcpyIov : ℕ → CopyState → Option CopyState
  | 0, _ => none
  | fuel + 1, s =>
      if s.size = 0 then some s
      else
        match s.dest, s.src with
        | v :: _, w :: _ =>
            let k := stepsize s.size v w
            memcpyIov fuel
              { dest := (viewExtractFront s.dest k).2
                src := (viewExtractFront s.src k).2
                size := s.size - k
                actual := s.actual + k
                copies := s.copies ++ [⟨v.iovBase, w.iovBase, k⟩] }
        | _, _ => some s

/-- The call `memcpy_iov(dest, src, size)`. -/
def CopyState.start (dest src : List Iovec) (size : ℕ) : CopyState := ⟨dest, src, size, 0, []⟩

/-- The number of bytes that there are to copy. -/
def copyable (dest src : List Iovec) (size : ℕ) : ℕ := min size (min (iovSum dest) (iovSum src))

/-- **What `memcpy_iov` is for.**  It ends; it has taken the same number of bytes from both views,
as many as there are; these bytes of the source were copied in order to these bytes of the
destination.  If the destination does not overlap the source or itself, it then holds them, and no
other memory has changed. -/
def CopiesAll (dest src : List Iovec) (size : ℕ) : Prop :=
  ∃ fuel s, memcpyIov fuel (CopyState.start dest src size) = some s ∧
    s.actual = copyable dest src size ∧
    addrs s.dest = (addrs dest).drop s.actual ∧ addrs s.src = (addrs src).drop s.actual ∧
    dsts s.copies = (addrs dest).take s.actual ∧ srcs s.copies = (addrs src).take s.actual ∧
    ∀ m : Mem, (addrs dest).Nodup → (∀ a ∈ addrs dest, a ∉ addrs src) →
      (bytesOf (run s.copies m) dest).take s.actual = (bytesOf m src).take s.actual ∧
      ∀ a, a ∉ (addrs dest).take s.actual → run s.copies m a = m a

/-- No empty entry of one view is reached while there are bytes to copy and the other view has an
entry left. -/
def MeetsNoEmpty (dest src : List Iovec) (size : ℕ) : Prop :=
  ∀ p < size, ∀ v vs w ws, dropFront p dest = v :: vs → dropFront p src = w :: ws →
    0 < v.iovLen ∧ 0 < w.iovLen

/-! ## The first bytes of a view -/

theorem dropFront_add (a b : ℕ) (vs : List Iovec) :
    dropFront (a + b) vs = dropFront b (dropFront a vs) := by
  induction vs generalizing a with
  | nil => rfl
  | cons v vs ih =>
    rcases Nat.eq_zero_or_pos a with rfl | ha
    · rw [dropFront_zero, Nat.zero_add]
    · rcases Nat.eq_zero_or_pos b with rfl | hb
      · rw [dropFront_zero, Nat.add_zero]
      · rw [dropFront_cons (by omega), dropFront_cons ha]
        by_cases hlt : a < v.iovLen
        · rw [if_pos hlt, dropFront_cons hb]
          -- both cut the same entry
          show _ = if b < v.iovLen - a then
            (⟨v.iovBase + a + b, v.iovLen - a - b⟩ : Iovec) :: vs
            else dropFront (b - (v.iovLen - a)) vs
          by_cases hab : a + b < v.iovLen
          · rw [if_pos hab, if_pos (by omega), Nat.add_assoc, Nat.sub_sub]
          · rw [if_neg hab, if_neg (by omega)]
            congr 1
            omega
        · rw [if_neg hlt, if_neg (by omega), ← ih]
          congr 1
          omega

theorem iovSum_dropFront (n : ℕ) (vs : List Iovec) : iovSum (dropFront n vs) = iovSum vs - n := by
  rw [← length_addrs, addrs_dropFront, List.length_drop, length_addrs]

theorem length_dropFront_le (n : ℕ) (vs : List Iovec) :
    (dropFront n vs).length ≤ vs.length := by
  induction vs generalizing n with
  | nil => exact le_rfl
  | cons v vs ih =>
    rcases Nat.eq_zero_or_pos n with rfl | hn
    · rw [dropFront_zero]
    · rw [dropFront_cons hn]
      split_ifs
      · simp
      · exact (ih _).trans (by simp)

/-- An entry that is used up is gone. -/
theorem length_dropFront_lt {v : Iovec} (h : 0 < v.iovLen) (vs : List Iovec) :
    (dropFront v.iovLen (v :: vs)).length < (v :: vs).length := by
  rw [dropFront_cons h, if_neg (lt_irrefl _), Nat.sub_self, dropFront_zero]
  exact Nat.lt_succ_self _

/-- Inside the first entry, something of it is left. -/
theorem dropFront_of_lt {n : ℕ} {v x : Iovec} {vs xs : List Iovec} (h : n < v.iovLen)
    (hx : dropFront n (v :: vs) = x :: xs) : 0 < x.iovLen := by
  rcases Nat.eq_zero_or_pos n with rfl | hn
  · rw [← (List.cons.inj hx).1]
    omega
  · rw [dropFront_cons hn, if_pos h] at hx
    rw [← (List.cons.inj hx).1]
    show 0 < v.iovLen - n
    omega

theorem take_addrs_cons {n : ℕ} {v : Iovec} (h : n ≤ v.iovLen) (vs : List Iovec) :
    (addrs (v :: vs)).take n = List.range' v.iovBase n := by
  rw [addrs_cons, List.take_append_of_le_length (by rwa [List.length_range']),
    List.take_range'_of_length_ge h]

/-! ## One round -/

section Round

variable {v w : Iovec} {vs ws : List Iovec} {size : ℕ}

theorem stepsize_eq (size : ℕ) (v w : Iovec) :
    stepsize size v w = min size (min v.iovLen w.iovLen) := by
  unfold stepsize
  dsimp only
  split_ifs <;> omega

/-- A round keeps the condition. -/
theorem MeetsNoEmpty.step {dest src : List Iovec} {k : ℕ} (h : MeetsNoEmpty dest src size) :
    MeetsNoEmpty (dropFront k dest) (dropFront k src) (size - k) := by
  intro p hp x xs y ys hx hy
  rw [← dropFront_add] at hx hy
  exact h (k + p) (by omega) x xs y ys hx hy

/-- And when the condition fails, it still does after the round. -/
theorem MeetsNoEmpty.of_step
    (h : MeetsNoEmpty (dropFront (stepsize size v w) (v :: vs))
      (dropFront (stepsize size v w) (w :: ws)) (size - stepsize size v w)) :
    MeetsNoEmpty (v :: vs) (w :: ws) size := by
  intro p hp x xs y ys hx hy
  have hstep := stepsize_eq size v w
  by_cases hlt : p < stepsize size v w
  · exact ⟨dropFront_of_lt (by omega) hx, dropFront_of_lt (by omega) hy⟩
  · obtain ⟨d, rfl⟩ := Nat.exists_eq_add_of_le (not_lt.mp hlt)
    rw [dropFront_add] at hx hy
    exact h d (by omega) x xs y ys hx hy

/-- One round of the loop. -/
theorem memcpyIov_succ {fuel : ℕ} {s : CopyState} (hsize : s.size ≠ 0) (hd : s.dest = v :: vs)
    (hs : s.src = w :: ws) :
    memcpyIov (fuel + 1) s = memcpyIov fuel
      { dest := dropFront (stepsize s.size v w) s.dest
        src := dropFront (stepsize s.size v w) s.src
        size := s.size - stepsize s.size v w
        actual := s.actual + stepsize s.size v w
        copies := s.copies ++ [⟨v.iovBase, w.iovBase, stepsize s.size v w⟩] } := by
  rw [memcpyIov, if_neg hsize, hd, hs]
  simp only [viewExtractFront_eq]

/-- **The loop does not end** when an empty entry is reached. -/
theorem memcpyIov_eq_none (fuel : ℕ) (s : CopyState) (h : ¬ MeetsNoEmpty s.dest s.src s.size) :
    memcpyIov fuel s = none := by
  induction fuel generalizing s with
  | zero => rfl
  | succ fuel ih =>
    obtain ⟨dest, src, size, actual, copies⟩ := s
    have hsize : size ≠ 0 := by
      rintro rfl
      exact h fun p hp => absurd hp (Nat.not_lt_zero p)
    cases dest with
    | nil => exact absurd (fun p _ x xs _ _ hx => absurd hx (by simp [dropFront])) h
    | cons v vs =>
      cases src with
      | nil => exact absurd (fun p _ _ _ y ys _ hy => absurd hy (by simp [dropFront])) h
      | cons w ws =>
        rw [memcpyIov_succ hsize rfl rfl]
        apply ih
        intro hnext
        exact h (MeetsNoEmpty.of_step hnext)

/-- What the loop has copied when it ends in `s'`. -/
structure Copied (s s' : CopyState) (n : ℕ) : Prop where
  actual : s'.actual = s.actual + n
  dest : addrs s'.dest = (addrs s.dest).drop n
  src : addrs s'.src = (addrs s.src).drop n
  dsts : dsts s'.copies = dsts s.copies ++ (addrs s.dest).take n
  srcs : srcs s'.copies = srcs s.copies ++ (addrs s.src).take n

theorem Copied.refl (s : CopyState) : Copied s s 0 where
  actual := rfl
  dest := by rw [List.drop_zero]
  src := by rw [List.drop_zero]
  dsts := by rw [List.take_zero, List.append_nil]
  srcs := by rw [List.take_zero, List.append_nil]

/-- One round, and then `n` bytes more. -/
theorem Copied.round {s s' : CopyState} {n k : ℕ} (hd : s.dest = v :: vs) (hs : s.src = w :: ws)
    (hv : k ≤ v.iovLen) (hw : k ≤ w.iovLen)
    (h : Copied
      { dest := dropFront k s.dest
        src := dropFront k s.src
        size := s.size - k
        actual := s.actual + k
        copies := s.copies ++ [⟨v.iovBase, w.iovBase, k⟩] } s' n) : Copied s s' (k + n) where
  actual := by rw [h.actual, Nat.add_assoc]
  dest := by rw [h.dest, addrs_dropFront, List.drop_drop]
  src := by rw [h.src, addrs_dropFront, List.drop_drop]
  dsts := by
    rw [h.dsts, dsts_append, dsts_cons, dsts_nil, List.append_nil, addrs_dropFront, List.take_add,
      List.append_assoc, hd, take_addrs_cons hv]
  srcs := by
    rw [h.srcs, srcs_append, srcs_cons, srcs_nil, List.append_nil, addrs_dropFront, List.take_add,
      List.append_assoc, hs, take_addrs_cons hw]

/-- What is left to copy after a round. -/
theorem copyable_round {dest src : List Iovec} (hd : dest = v :: vs) (hs : src = w :: ws) :
    stepsize size v w + copyable (dropFront (stepsize size v w) dest)
      (dropFront (stepsize size v w) src) (size - stepsize size v w) = copyable dest src size := by
  have hk := stepsize_eq size v w
  unfold copyable
  rw [iovSum_dropFront, iovSum_dropFront, hd, hs, iovSum_cons, iovSum_cons]
  omega

/-- **If the loop ends**, it has copied all that there is to copy. -/
theorem memcpyIov_copied (fuel : ℕ) (s s' : CopyState) (h : memcpyIov fuel s = some s') :
    Copied s s' (copyable s.dest s.src s.size) := by
  induction fuel generalizing s with
  | zero => cases h
  | succ fuel ih =>
    by_cases hsize : s.size = 0
    · rw [memcpyIov, if_pos hsize] at h
      rw [copyable, hsize, ← Option.some.inj h]
      exact Copied.refl s
    · cases hd : s.dest with
      | nil =>
        rw [memcpyIov, if_neg hsize, hd] at h
        rw [copyable, iovSum_nil, Nat.zero_min, Nat.min_zero, ← Option.some.inj h]
        exact Copied.refl s
      | cons v vs =>
        cases hs : s.src with
        | nil =>
          rw [memcpyIov, if_neg hsize, hd, hs] at h
          rw [copyable, iovSum_nil, Nat.min_zero, Nat.min_zero, ← Option.some.inj h]
          exact Copied.refl s
        | cons w ws =>
          rw [memcpyIov_succ hsize hd hs] at h
          have hk := stepsize_eq s.size v w
          rw [← hd, ← hs, ← copyable_round hd hs]
          exact (ih _ h).round hd hs (by omega) (by omega)

/-- Every round uses up the size or an entry, unless an empty entry is reached. -/
theorem length_round (size : ℕ) {dest src : List Iovec} (hd : dest = v :: vs) (hs : src = w :: ws)
    (hv : 0 < v.iovLen) (hw : 0 < w.iovLen) :
    size - stepsize size v w = 0 ∨
      (dropFront (stepsize size v w) dest).length + (dropFront (stepsize size v w) src).length
        < dest.length + src.length := by
  have hk := stepsize_eq size v w
  have hdle := length_dropFront_le (stepsize size v w) dest
  have hsle := length_dropFront_le (stepsize size v w) src
  rcases (show stepsize size v w = size ∨ stepsize size v w = v.iovLen ∨
    stepsize size v w = w.iovLen by omega) with heq | heq | heq
  · exact Or.inl (by omega)
  · have hlt := length_dropFront_lt hv vs
    rw [heq] at hdle hsle ⊢
    rw [← hd] at hlt
    omega
  · have hlt := length_dropFront_lt hw ws
    rw [heq] at hdle hsle ⊢
    rw [← hs] at hlt
    omega

/-- **The loop ends** when no empty entry is reached. -/
theorem memcpyIov_ends (fuel : ℕ) (s : CopyState) (hpos : 0 < fuel)
    (hfuel : s.size = 0 ∨ s.dest.length + s.src.length < fuel)
    (h : MeetsNoEmpty s.dest s.src s.size) : ∃ s', memcpyIov fuel s = some s' := by
  induction fuel generalizing s with
  | zero => exact absurd hpos (lt_irrefl 0)
  | succ fuel ih =>
    by_cases hsize : s.size = 0
    · exact ⟨s, by rw [memcpyIov, if_pos hsize]⟩
    · cases hd : s.dest with
      | nil => exact ⟨s, by rw [memcpyIov, if_neg hsize, hd]⟩
      | cons v vs =>
        cases hs : s.src with
        | nil => exact ⟨s, by rw [memcpyIov, if_neg hsize, hd, hs]⟩
        | cons w ws =>
          obtain ⟨hv, hw⟩ := h 0 (by omega) v vs w ws (by rw [dropFront_zero, hd])
            (by rw [dropFront_zero, hs])
          have hround := length_round s.size hd hs hv hw
          have hlen : 2 ≤ s.dest.length + s.src.length := by
            rw [hd, hs, List.length_cons, List.length_cons]
            omega
          rw [memcpyIov_succ hsize hd hs]
          exact ih _ (by omega) (hround.imp id fun hlt => by dsimp only; omega) h.step

end Round

/-- What a call has copied when it returns. -/
theorem memcpyIov_start {fuel : ℕ} {dest src : List Iovec} {size : ℕ} {s : CopyState}
    (h : memcpyIov fuel (CopyState.start dest src size) = some s) :
    s.actual = copyable dest src size ∧ Copied (CopyState.start dest src size) s s.actual := by
  have hcopied := memcpyIov_copied _ _ _ h
  have hact : s.actual = copyable dest src size := by
    rw [hcopied.actual]
    exact Nat.zero_add _
  refine ⟨hact, ?_⟩
  rw [hact]
  exact hcopied

/-- Where the destination does not overlap the source or itself, it holds what was copied, and no
other memory has changed. -/
theorem bytesOf_run_take {dest src : List Iovec} {cs : List Copy} {n : ℕ}
    (hd : dsts cs = (addrs dest).take n) (hs : srcs cs = (addrs src).take n) (m : Mem)
    (hnd : (addrs dest).Nodup) (hsep : ∀ a ∈ addrs dest, a ∉ addrs src) :
    (bytesOf (run cs m) dest).take n = (bytesOf m src).take n ∧
      ∀ a, a ∉ (addrs dest).take n → run cs m a = m a := by
  have hcopy := map_run m (by rw [hd]; exact hnd.sublist (List.take_sublist _ _)) (by
    rw [hd, hs]
    intro a ha hx
    exact hsep a (List.mem_of_mem_take ha) (List.mem_of_mem_take hx)) cs (List.Subset.refl _)
  rw [hd, hs] at hcopy
  refine ⟨?_, fun a ha => run_of_notMem m (by rwa [hd])⟩
  rw [bytesOf_eq_map, bytesOf_eq_map, ← List.map_take, ← List.map_take]
  exact hcopy

/-- **`memcpy_iov`.**  For every two views and every size, it ends and copies all that there is to
copy iff no empty entry is reached. -/
theorem memcpy_iov_iff (dest src : List Iovec) (size : ℕ) :
    CopiesAll dest src size ↔ MeetsNoEmpty dest src size := by
  constructor
  · rintro ⟨fuel, s, hrun, -⟩
    by_contra hmeets
    rw [memcpyIov_eq_none fuel _ hmeets] at hrun
    cases hrun
  · intro hmeets
    obtain ⟨s, hrun⟩ := memcpyIov_ends (dest.length + src.length + 1)
      (CopyState.start dest src size) (Nat.succ_pos _) (Or.inr (Nat.lt_succ_self _)) hmeets
    obtain ⟨hact, hcopied⟩ := memcpyIov_start hrun
    exact ⟨_, s, hrun, hact, hcopied.dest, hcopied.src, hcopied.dsts, hcopied.srcs,
      fun m hnd hsep => bytesOf_run_take hcopied.dsts hcopied.srcs m hnd hsep⟩

/-- Four bytes are copied to a view whose first entry is empty: the loop runs forever. -/
theorem memcpy_iov_empty_entry : ¬ CopiesAll [⟨100, 0⟩, ⟨200, 4⟩] [⟨300, 4⟩] 4 := by
  rintro ⟨fuel, s, hrun, -⟩
  have hmeets : ¬ MeetsNoEmpty [⟨100, 0⟩, ⟨200, 4⟩] [⟨300, 4⟩] 4 := by
    intro h
    exact absurd (h 0 (by decide) _ _ _ _ rfl rfl).1 (by decide)
  rw [memcpyIov_eq_none fuel _ hmeets] at hrun
  cases hrun

end HuiRpc
