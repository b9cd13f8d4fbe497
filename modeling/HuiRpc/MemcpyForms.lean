/-
# The overloads of `memcpy_to` and `memcpy_from`

`iovector_view` has eight overloads that copy from or to another view, and `iovector` has sixteen
that copy from or to a view or another iovector.  They forward to each other and in the end to
`memcpy_iov`.

* A call changes the view it extracts from.  A constant side is therefore cloned first, into an
  `IOVectorEntity<32, 0>` on the stack.  Its constructor copies all the entries into an array of
  32, whatever their number: `assert` is compiled out.
* `iovector::view()` shares the array of the iovector, so what a call does to an entry in place
  stays there; the entries it pops stay in the array too.
* `memcpy_to` of a constant view into a constant view calls `memcpy_from`.

Every overload is one `Overload`, and `Overload.call_eq_some` says what the forwarding comes to.
`memcpy_overloads` says which calls do what their names say.
-/
import HuiRpc.Memcpy

namespace HuiRpc

open Copies

/-! ## The overloads of `iovector_view` -/

/-- What a call leaves: the entries of the receiver and the argument, the number it returns, and
the calls of `memcpy`. -/
structure CopyOut where
  self : List Iovec
  arg : List Iovec
  actual : ℕ
  copies : List Copy
  deriving DecidableEq

/-- The same call, seen from the argument. -/
def CopyOut.swap (o : CopyOut) : CopyOut := ⟨o.arg, o.self, o.actual, o.copies⟩

/-- The array of the clone. -/
def kCloneCapacity : ℕ := 32

/-- `IOVectorEntity<32, 0>(iov, iovcnt)`; `none` if it writes past its array. -/
def cloneView (vs : List Iovec) : Option (List Iovec) :=
  if vs.length ≤ kCloneCapacity then some vs else none

section Calls

-- `fuel` bounds the tests of the loop's condition in `memcpy_iov`
variable (fuel : ℕ) (self arg : List Iovec) (size : ℕ)

/-- `memcpy_to(iovector_view*)`. -/
def viewMemcpyTo : Option CopyOut :=
  (memcpyIov fuel (.start arg self size)).map fun s => ⟨s.src, s.dest, s.actual, s.copies⟩

/-- `memcpy_from(iovector_view*)`. -/
def viewMemcpyFrom : Option CopyOut :=
  (memcpyIov fuel (.start self arg size)).map fun s => ⟨s.dest, s.src, s.actual, s.copies⟩

/-- `memcpy_to(iovector_view*) const`. -/
def constViewMemcpyTo : Option CopyOut :=
  (cloneView self).bind fun co =>
    (viewMemcpyTo fuel co arg size).map fun o => { o with self := self }

/-- `memcpy_from(iovector_view*) const`. -/
def constViewMemcpyFrom : Option CopyOut :=
  (cloneView self).bind fun co =>
    (viewMemcpyFrom fuel co arg size).map fun o => { o with self := self }

/-- `memcpy_to(const iovector_view*)`. -/
def viewMemcpyToConst : Option CopyOut :=
  (constViewMemcpyFrom fuel arg self size).map CopyOut.swap

/-- `memcpy_from(const iovector_view*)`. -/
def viewMemcpyFromConst : Option CopyOut :=
  (constViewMemcpyTo fuel arg self size).map CopyOut.swap

/-- `memcpy_to(const iovector_view*) const`.  It calls `memcpy_from`. -/
def constViewMemcpyToConst : Option CopyOut :=
  (cloneView self).bind fun co =>
    (viewMemcpyFromConst fuel co arg size).map fun o => { o with self := self }

/-- `memcpy_from(const iovector_view*) const`. -/
def constViewMemcpyFromConst : Option CopyOut :=
  (cloneView self).bind fun co =>
    (viewMemcpyFromConst fuel co arg size).map fun o => { o with self := self }

/-! ## The overloads of `iovector` -/

/-- The array of an iovector after calls of `extract_front` on a view of it: an entry that is
popped stays as it was then. -/
def arrayAfter (popped : List Iovec) : List Iovec → List ℕ → List Iovec
  | vs, [] => popped ++ vs
  | vs, k :: ks =>
      let rest := (viewExtractFront vs k).2
      arrayAfter (popped ++ vs.take (vs.length - rest.length)) rest ks

/-- The entries of an iovector after `copies` were made through a view of it. -/
def sharedArray (vs : List Iovec) (copies : List Copy) : List Iovec :=
  arrayAfter [] vs (copies.map Copy.len)

/-- The receiver was a view of an iovector. -/
def CopyOut.shareSelf (o : CopyOut) : CopyOut := { o with self := sharedArray self o.copies }

/-- The argument was a view of an iovector. -/
def CopyOut.shareArg (o : CopyOut) : CopyOut := { o with arg := sharedArray arg o.copies }

/-- `memcpy_to(iovector_view*)`. -/
def iovectorMemcpyToView : Option CopyOut :=
  (viewMemcpyTo fuel self arg size).map (CopyOut.shareSelf self)

/-- `memcpy_from(iovector_view*)`. -/
def iovectorMemcpyFromView : Option CopyOut :=
  (viewMemcpyFrom fuel self arg size).map (CopyOut.shareSelf self)

/-- `memcpy_to(iovector_view*) const`. -/
def constIovectorMemcpyToView : Option CopyOut := constViewMemcpyTo fuel self arg size

/-- `memcpy_from(iovector_view*) const`. -/
def constIovectorMemcpyFromView : Option CopyOut := constViewMemcpyFrom fuel self arg size

/-- `memcpy_to(const iovector_view*)`. -/
def iovectorMemcpyToConstView : Option CopyOut :=
  (constViewMemcpyFrom fuel arg self size).map fun o => CopyOut.shareSelf self o.swap

/-- `memcpy_from(const iovector_view*)`. -/
def iovectorMemcpyFromConstView : Option CopyOut :=
  (constViewMemcpyTo fuel arg self size).map fun o => CopyOut.shareSelf self o.swap

/-- `memcpy_to(const iovector_view*) const`. -/
def constIovectorMemcpyToConstView : Option CopyOut := constViewMemcpyToConst fuel self arg size

/-- `memcpy_from(const iovector_view*) const`. -/
def constIovectorMemcpyFromConstView : Option CopyOut :=
  constViewMemcpyFromConst fuel self arg size

/-- `memcpy_to(iovector*)`. -/
def iovectorMemcpyTo : Option CopyOut :=
  (iovectorMemcpyToView fuel self arg size).map (CopyOut.shareArg arg)

/-- `memcpy_from(iovector*)`. -/
def iovectorMemcpyFrom : Option CopyOut :=
  (iovectorMemcpyFromView fuel self arg size).map (CopyOut.shareArg arg)

/-- `memcpy_to(iovector*) const`. -/
def constIovectorMemcpyTo : Option CopyOut :=
  (constIovectorMemcpyToView fuel self arg size).map (CopyOut.shareArg arg)

/-- `memcpy_from(iovector*) const`. -/
def constIovectorMemcpyFrom : Option CopyOut :=
  (constIovectorMemcpyFromView fuel self arg size).map (CopyOut.shareArg arg)

/-- `memcpy_to(const iovector*)`. -/
def iovectorMemcpyToConst : Option CopyOut :=
  (constIovectorMemcpyFrom fuel arg self size).map CopyOut.swap

/-- `memcpy_from(const iovector*)`. -/
def iovectorMemcpyFromConst : Option CopyOut :=
  (constIovectorMemcpyTo fuel arg self size).map CopyOut.swap

/-- `memcpy_to(const iovector*) const`. -/
def constIovectorMemcpyToConst : Option CopyOut :=
  constIovectorMemcpyToConstView fuel self arg size

/-- `memcpy_from(const iovector*) const`. -/
def constIovectorMemcpyFromConst : Option CopyOut :=
  constIovectorMemcpyFromConstView fuel self arg size

end Calls

/-! ## The forms that take a buffer -/

/-- The loop of the buffer forms, with the buffer as the destination: where it is in the buffer at
the end, and the copies. -/
def bufferLoop : ℕ → ℕ → List Iovec → ℕ × List Copy
  | buf, _, [] => (buf, [])
  | buf, size, x :: xs =>
      let len := if size < x.iovLen then size else x.iovLen
      if size - len = 0 then (buf + len, [⟨buf, x.iovBase, len⟩])
      else
        match bufferLoop (buf + len) (size - len) xs with
        | (stop, copies) => (stop, ⟨buf, x.iovBase, len⟩ :: copies)

/-- `iovector_view::memcpy_to(void* buf, size_t size)`. -/
def viewMemcpyToBuf (self : List Iovec) (buf size : ℕ) : ℕ × List Copy :=
  match bufferLoop buf size self with
  | (stop, copies) => (stop - buf, copies)

/-- `iovector_view::memcpy_from(const void* buf, size_t size)`. -/
def viewMemcpyFromBuf (self : List Iovec) (buf size : ℕ) : ℕ × List Copy :=
  match bufferLoop buf size self with
  | (stop, copies) => (stop - buf, copies.map Copy.swap)

/-- `iovector::memcpy_to(void* buf, size_t size)`. -/
def iovectorMemcpyToBuf (self : List Iovec) (buf size : ℕ) : ℕ × List Copy :=
  viewMemcpyToBuf self buf size

/-- `iovector::memcpy_from(const void* buf, size_t size)`. -/
def iovectorMemcpyFromBuf (self : List Iovec) (buf size : ℕ) : ℕ × List Copy :=
  viewMemcpyFromBuf self buf size

/-- What a form that takes a buffer is for; `r` is what it returns, with its copies. -/
structure BufferMeant (dest src : List Iovec) (size : ℕ) (r : ℕ × List Copy) : Prop where
  actual : r.1 = copyable dest src size
  dsts : dsts r.2 = (addrs dest).take r.1
  srcs : srcs r.2 = (addrs src).take r.1
  mem : ∀ m : Mem, (addrs dest).Nodup → (∀ a ∈ addrs dest, a ∉ addrs src) →
    (bytesOf (run r.2 m) dest).take r.1 = (bytesOf m src).take r.1 ∧
      ∀ a, a ∉ (addrs dest).take r.1 → run r.2 m a = m a

/-! ## All of them -/

/-- The name of an overload. -/
inductive Dir
  | memcpyTo
  | memcpyFrom
  deriving DecidableEq

/-- The class of the receiver, and that of the argument. -/
inductive Sides
  | views
  | iovectorView
  | iovectors
  deriving DecidableEq

/-- An overload that copies between views or iovectors. -/
structure Overload where
  dir : Dir
  sides : Sides
  selfConst : Bool
  argConst : Bool
  deriving DecidableEq

namespace Overload

/-- The call that the compiler selects. -/
def call (fuel : ℕ) : Overload → List Iovec → List Iovec → ℕ → Option CopyOut
  | ⟨.memcpyTo, .views, false, false⟩ => viewMemcpyTo fuel
  | ⟨.memcpyFrom, .views, false, false⟩ => viewMemcpyFrom fuel
  | ⟨.memcpyTo, .views, false, true⟩ => viewMemcpyToConst fuel
  | ⟨.memcpyFrom, .views, false, true⟩ => viewMemcpyFromConst fuel
  | ⟨.memcpyTo, .views, true, false⟩ => constViewMemcpyTo fuel
  | ⟨.memcpyFrom, .views, true, false⟩ => constViewMemcpyFrom fuel
  | ⟨.memcpyTo, .views, true, true⟩ => constViewMemcpyToConst fuel
  | ⟨.memcpyFrom, .views, true, true⟩ => constViewMemcpyFromConst fuel
  | ⟨.memcpyTo, .iovectorView, false, false⟩ => iovectorMemcpyToView fuel
  | ⟨.memcpyFrom, .iovectorView, false, false⟩ => iovectorMemcpyFromView fuel
  | ⟨.memcpyTo, .iovectorView, false, true⟩ => iovectorMemcpyToConstView fuel
  | ⟨.memcpyFrom, .iovectorView, false, true⟩ => iovectorMemcpyFromConstView fuel
  | ⟨.memcpyTo, .iovectorView, true, false⟩ => constIovectorMemcpyToView fuel
  | ⟨.memcpyFrom, .iovectorView, true, false⟩ => constIovectorMemcpyFromView fuel
  | ⟨.memcpyTo, .iovectorView, true, true⟩ => constIovectorMemcpyToConstView fuel
  | ⟨.memcpyFrom, .iovectorView, true, true⟩ => constIovectorMemcpyFromConstView fuel
  | ⟨.memcpyTo, .iovectors, false, false⟩ => iovectorMemcpyTo fuel
  | ⟨.memcpyFrom, .iovectors, false, false⟩ => iovectorMemcpyFrom fuel
  | ⟨.memcpyTo, .iovectors, false, true⟩ => iovectorMemcpyToConst fuel
  | ⟨.memcpyFrom, .iovectors, false, true⟩ => iovectorMemcpyFromConst fuel
  | ⟨.memcpyTo, .iovectors, true, false⟩ => constIovectorMemcpyTo fuel
  | ⟨.memcpyFrom, .iovectors, true, false⟩ => constIovectorMemcpyFrom fuel
  | ⟨.memcpyTo, .iovectors, true, true⟩ => constIovectorMemcpyToConst fuel
  | ⟨.memcpyFrom, .iovectors, true, true⟩ => constIovectorMemcpyFromConst fuel

section Spec

variable (o : Overload) (self arg : List Iovec) (size : ℕ)

/-- The side that is to be written. -/
def target : List Iovec :=
  match o.dir with
  | .memcpyTo => arg
  | .memcpyFrom => self

/-- The side that is to be read. -/
def source : List Iovec :=
  match o.dir with
  | .memcpyTo => self
  | .memcpyFrom => arg

/-- **What an overload is for.**  It copies, in order, the first bytes of the source to the first
bytes of the target, as many as there are, and touches no other memory; a constant side keeps its
entries. -/
structure Meant (out : CopyOut) : Prop where
  actual : out.actual = copyable (o.target self arg) (o.source self arg) size
  dsts : dsts out.copies = (addrs (o.target self arg)).take out.actual
  srcs : srcs out.copies = (addrs (o.source self arg)).take out.actual
  keepsSelf : o.selfConst = true → out.self = self
  keepsArg : o.argConst = true → out.arg = arg
  mem : ∀ m : Mem, (addrs (o.target self arg)).Nodup →
    (∀ a ∈ addrs (o.target self arg), a ∉ addrs (o.source self arg)) →
    (bytesOf (run out.copies m) (o.target self arg)).take out.actual
        = (bytesOf m (o.source self arg)).take out.actual ∧
      ∀ a, a ∉ (addrs (o.target self arg)).take out.actual → run out.copies m a = m a

/-- The call returns, and did what it is for. -/
def DoesIt : Prop := ∃ fuel out, o.call fuel self arg size = some out ∧ o.Meant self arg size out

/-- The constant sides fit into their clones. -/
def Fits : Prop :=
  (o.selfConst = true → self.length ≤ kCloneCapacity) ∧
    (o.argConst = true → arg.length ≤ kCloneCapacity)

/-- The calls that copy the wrong way. -/
def Reversed : Prop := o.dir = .memcpyTo ∧ o.selfConst = true ∧ o.argConst = true

instance : Decidable o.Reversed := inferInstanceAs (Decidable (_ ∧ _ ∧ _))

/-! ## What the forwarding comes to -/

/-- The call of `memcpy_iov` in the end. -/
def start : CopyState :=
  if o.Reversed then .start self arg size
  else .start (o.target self arg) (o.source self arg) size

/-- What an overload leaves of the receiver or the argument: a constant one is as it was, of a
view the rest is left, and of an iovector the array. -/
def leaves (const shared : Bool) (vs rest : List Iovec) (copies : List Copy) : List Iovec :=
  if const then vs else if shared then sharedArray vs copies else rest

/-- What the overload leaves when the loop has ended in `s`. -/
def returned (s : CopyState) : CopyOut where
  self := leaves o.selfConst (o.sides ≠ .views) self
    (if o.dir = .memcpyTo then s.src else s.dest) s.copies
  arg := leaves o.argConst (o.sides = .iovectors) arg
    (if o.dir = .memcpyTo then s.dest else s.src) s.copies
  actual := s.actual
  copies := s.copies

end Spec

end Overload

theorem cloneView_bind_eq_some {vs : List Iovec} {f : List Iovec → Option CopyOut} {out : CopyOut} :
    (cloneView vs).bind f = some out ↔ vs.length ≤ kCloneCapacity ∧ f vs = some out := by
  unfold cloneView
  split_ifs with h <;> simp [h]

theorem pos_of_mem_dropFront {vs : List Iovec} (h : ∀ v ∈ vs, 0 < v.iovLen) (n : ℕ) :
    ∀ v ∈ dropFront n vs, 0 < v.iovLen := by
  rw [dropFront_eq]
  exact Peel.Cut.all_remains (fun _ _ _ hlt => Nat.sub_pos_of_lt hlt) h

/-- Views without empty entries meet none. -/
theorem meetsNoEmpty_of_pos {dest src : List Iovec} {size : ℕ} (hd : ∀ v ∈ dest, 0 < v.iovLen)
    (hs : ∀ v ∈ src, 0 < v.iovLen) : MeetsNoEmpty dest src size := by
  intro p _ v vs w ws hv hw
  constructor
  · exact pos_of_mem_dropFront hd p v (by rw [hv]; exact List.mem_cons_self)
  · exact pos_of_mem_dropFront hs p w (by rw [hw]; exact List.mem_cons_self)

namespace Overload

variable {o : Overload} {self arg : List Iovec} {size fuel : ℕ} {out : CopyOut}

/-- **The forwarding graph.**  Every overload clones its constant sides and calls `memcpy_iov`
once. -/
theorem call_eq_some : o.call fuel self arg size = some out ↔
    o.Fits self arg ∧
      ∃ s, memcpyIov fuel (o.start self arg size) = some s ∧ o.returned self arg s = out := by
  obtain ⟨dir, sides, selfConst, argConst⟩ := o
  cases dir <;> cases sides <;> cases selfConst <;> cases argConst <;>
    simp [call, Fits, start, Reversed, returned, leaves, target, source, viewMemcpyTo,
      viewMemcpyFrom, constViewMemcpyTo, constViewMemcpyFrom, viewMemcpyToConst,
      viewMemcpyFromConst, constViewMemcpyToConst, constViewMemcpyFromConst,
      iovectorMemcpyToView, iovectorMemcpyFromView, constIovectorMemcpyToView,
      constIovectorMemcpyFromView, iovectorMemcpyToConstView, iovectorMemcpyFromConstView,
      constIovectorMemcpyToConstView, constIovectorMemcpyFromConstView, iovectorMemcpyTo,
      iovectorMemcpyFrom, constIovectorMemcpyTo, constIovectorMemcpyFrom, iovectorMemcpyToConst,
      iovectorMemcpyFromConst, constIovectorMemcpyToConst, constIovectorMemcpyFromConst,
      cloneView_bind_eq_some, CopyOut.swap, CopyOut.shareSelf, CopyOut.shareArg, and_assoc]

/-- When the loop ends, the call has done what it is for, up to the direction. -/
theorem meant_of_call (h : o.call fuel self arg size = some out) :
    out.actual = copyable self arg size ∧
      (if o.Reversed then
        dsts out.copies = (addrs self).take out.actual ∧
          srcs out.copies = (addrs arg).take out.actual
      else o.Meant self arg size out) := by
  obtain ⟨-, s, hrun, rfl⟩ := call_eq_some.mp h
  unfold start at hrun
  split_ifs at hrun ⊢ with hrev
  · obtain ⟨hact, hcopied⟩ := memcpyIov_start hrun
    exact ⟨hact, hcopied.dsts, hcopied.srcs⟩
  · obtain ⟨hact, hcopied⟩ := memcpyIov_start hrun
    refine ⟨?_, hact, hcopied.dsts, hcopied.srcs, fun hc => if_pos hc, fun hc => if_pos hc,
      bytesOf_run_take hcopied.dsts hcopied.srcs⟩
    show s.actual = _
    rw [hact]
    unfold copyable target source
    cases o.dir
    · dsimp only
      omega
    · rfl

/-- A call that goes the wrong way has done what it is for when both ways are the same. -/
theorem meant_of_reversed (h : o.call fuel self arg size = some out) (hrev : o.Reversed)
    (hsame : (addrs self).take (copyable self arg size)
      = (addrs arg).take (copyable self arg size)) : o.Meant self arg size out := by
  obtain ⟨hact, hdid⟩ := meant_of_call h
  rw [if_pos hrev] at hdid
  obtain ⟨-, s, -, rfl⟩ := call_eq_some.mp h
  obtain ⟨hdir, hcself, hcarg⟩ := hrev
  have htarget : o.target self arg = arg := by rw [target, hdir]
  have hsource : o.source self arg = self := by rw [source, hdir]
  rw [← hact] at hsame
  have hd := hdid.1.trans hsame
  have hs := hdid.2.trans hsame.symm
  refine ⟨?_, by rw [htarget, hd], by rw [hsource, hs], fun _ => if_pos hcself,
    fun _ => if_pos hcarg, ?_⟩
  · rw [hact, htarget, hsource]
    unfold copyable
    omega
  · rw [htarget, hsource]
    exact bytesOf_run_take hd hs

/-- Between views without empty entries every call returns whose constant sides fit. -/
theorem call_returns (hself : ∀ v ∈ self, 0 < v.iovLen) (harg : ∀ v ∈ arg, 0 < v.iovLen)
    (hfits : o.Fits self arg) (size : ℕ) :
    ∃ fuel out, o.call fuel self arg size = some out := by
  have hends : ∀ dest src : List Iovec, (∀ v ∈ dest, 0 < v.iovLen) → (∀ v ∈ src, 0 < v.iovLen) →
      ∃ fuel s, memcpyIov fuel (CopyState.start dest src size) = some s := by
    intro dest src hd hs
    obtain ⟨s, hrun⟩ := memcpyIov_ends (dest.length + src.length + 1)
      (CopyState.start dest src size) (Nat.succ_pos _) (Or.inr (Nat.lt_succ_self _))
      (meetsNoEmpty_of_pos hd hs)
    exact ⟨_, s, hrun⟩
  have hrun : ∃ fuel s, memcpyIov fuel (o.start self arg size) = some s := by
    unfold start target source
    split_ifs
    · exact hends self arg hself harg
    · cases o.dir
      · exact hends arg self harg hself
      · exact hends self arg hself harg
  obtain ⟨fuel, s, hs⟩ := hrun
  exact ⟨fuel, _, call_eq_some.mpr ⟨hfits, s, hs, rfl⟩⟩

end Overload

/-- The buffer is used up to `stop`, and the copies go there from the first bytes of the view. -/
theorem bufferLoop_eq (buf size : ℕ) (vs : List Iovec) :
    (bufferLoop buf size vs).1 = buf + min size (iovSum vs) ∧
      dsts (bufferLoop buf size vs).2 = List.range' buf (min size (iovSum vs)) ∧
      srcs (bufferLoop buf size vs).2 = (addrs vs).take (min size (iovSum vs)) := by
  induction vs generalizing buf size with
  | nil => simp [bufferLoop]
  | cons x xs ih =>
    have hlen : (if size < x.iovLen then size else x.iovLen) = min size x.iovLen := by
      split_ifs <;> omega
    rw [bufferLoop, hlen, iovSum_cons]
    by_cases hstop : size - min size x.iovLen = 0
    · rw [if_pos hstop, show min size (x.iovLen + iovSum xs) = min size x.iovLen by omega,
        take_addrs_cons (Nat.min_le_right _ _)]
      simp
    · obtain ⟨h1, h2, h3⟩ := ih (buf + min size x.iovLen) (size - min size x.iovLen)
      rw [if_neg hstop, show min size (x.iovLen + iovSum xs)
          = min size x.iovLen + min (size - min size x.iovLen) (iovSum xs) by omega]
      refine ⟨by rw [h1, Nat.add_assoc], ?_, ?_⟩
      · rw [dsts_cons, h2, List.range'_append_1]
      · rw [srcs_cons, h3, List.take_add, take_addrs_cons (Nat.min_le_right _ _),
          show min size x.iovLen = x.iovLen by omega, addrs_cons,
          List.drop_left' (List.length_range' ..)]

theorem viewMemcpyToBuf_meant (self : List Iovec) (buf size : ℕ) :
    BufferMeant [⟨buf, size⟩] self size (viewMemcpyToBuf self buf size) := by
  obtain ⟨h1, h2, h3⟩ := bufferLoop_eq buf size self
  have hact : (viewMemcpyToBuf self buf size).1 = min size (iovSum self) := by
    show (bufferLoop buf size self).1 - buf = _
    rw [h1, Nat.add_sub_cancel_left]
  have hd : dsts (viewMemcpyToBuf self buf size).2
      = (addrs [⟨buf, size⟩]).take (viewMemcpyToBuf self buf size).1 := by
    rw [hact, take_addrs_cons (v := ⟨buf, size⟩) (Nat.min_le_left _ _)]
    exact h2
  have hs : srcs (viewMemcpyToBuf self buf size).2
      = (addrs self).take (viewMemcpyToBuf self buf size).1 := by
    rw [hact]
    exact h3
  refine ⟨?_, hd, hs, bytesOf_run_take hd hs⟩
  rw [copyable, iovSum_cons]
  dsimp only
  omega

theorem viewMemcpyFromBuf_meant (self : List Iovec) (buf size : ℕ) :
    BufferMeant self [⟨buf, size⟩] size (viewMemcpyFromBuf self buf size) := by
  have hto := viewMemcpyToBuf_meant self buf size
  have hd : dsts (viewMemcpyFromBuf self buf size).2
      = (addrs self).take (viewMemcpyFromBuf self buf size).1 :=
    (dsts_map_swap _).trans hto.srcs
  have hs : srcs (viewMemcpyFromBuf self buf size).2
      = (addrs [⟨buf, size⟩]).take (viewMemcpyFromBuf self buf size).1 :=
    (srcs_map_swap _).trans hto.dsts
  refine ⟨hto.actual.trans ?_, hd, hs, bytesOf_run_take hd hs⟩
  unfold copyable
  omega

/-- **The overloads of `memcpy_to` and `memcpy_from`.**  Between views or iovectors without empty
entries, an overload does what its name says iff its constant sides fit into their clones, and, for
`memcpy_to` between two constant sides, the bytes to copy are the same memory on both sides.  The
forms that take a buffer always do. -/
theorem memcpy_overloads {self arg : List Iovec} (hself : ∀ v ∈ self, 0 < v.iovLen)
    (harg : ∀ v ∈ arg, 0 < v.iovLen) (size : ℕ) :
    (∀ o : Overload, o.DoesIt self arg size ↔ o.Fits self arg ∧ (o.Reversed →
      (addrs self).take (copyable self arg size) = (addrs arg).take (copyable self arg size))) ∧
    ∀ buf, BufferMeant [⟨buf, size⟩] self size (viewMemcpyToBuf self buf size) ∧
      BufferMeant self [⟨buf, size⟩] size (viewMemcpyFromBuf self buf size) ∧
      BufferMeant [⟨buf, size⟩] self size (iovectorMemcpyToBuf self buf size) ∧
      BufferMeant self [⟨buf, size⟩] size (iovectorMemcpyFromBuf self buf size) := by
  refine ⟨fun o => ⟨?_, ?_⟩, fun buf => ⟨viewMemcpyToBuf_meant self buf size,
    viewMemcpyFromBuf_meant self buf size, viewMemcpyToBuf_meant self buf size,
    viewMemcpyFromBuf_meant self buf size⟩⟩
  · rintro ⟨fuel, out, hcall, -, hdsts, -⟩
    refine ⟨(Overload.call_eq_some.mp hcall).1, fun hrev => ?_⟩
    obtain ⟨hact, hdid⟩ := Overload.meant_of_call hcall
    rw [if_pos hrev] at hdid
    -- it has written the receiver, and should have written the argument
    rw [hdid.1, hact] at hdsts
    unfold Overload.target at hdsts
    rw [hrev.1] at hdsts
    exact hdsts
  · rintro ⟨hfits, hsame⟩
    obtain ⟨fuel, out, hcall⟩ := Overload.call_returns hself harg hfits size
    refine ⟨fuel, out, hcall, ?_⟩
    obtain ⟨hact, hdid⟩ := Overload.meant_of_call hcall
    by_cases hrev : o.Reversed
    · exact Overload.meant_of_reversed hcall hrev (hsame hrev)
    · rwa [if_neg hrev] at hdid

/-- An overload of each kind, between an entry of four bytes and one of two. -/
theorem memcpy_overloads_two :
    (∀ v ∈ ([⟨100, 4⟩] : List Iovec), 0 < v.iovLen) ∧
      (∀ v ∈ ([⟨200, 2⟩] : List Iovec), 0 < v.iovLen) ∧
      (⟨.memcpyTo, .iovectors, true, false⟩ : Overload).DoesIt [⟨100, 4⟩] [⟨200, 2⟩] 3 ∧
      (⟨.memcpyFrom, .views, true, true⟩ : Overload).DoesIt [⟨100, 4⟩] [⟨200, 2⟩] 3 ∧
      BufferMeant [⟨300, 3⟩] [⟨100, 4⟩] 3 (viewMemcpyToBuf [⟨100, 4⟩] 300 3) := by
  have hself : ∀ v ∈ ([⟨100, 4⟩] : List Iovec), 0 < v.iovLen := by decide
  have harg : ∀ v ∈ ([⟨200, 2⟩] : List Iovec), 0 < v.iovLen := by decide
  obtain ⟨hall, hbuf⟩ := memcpy_overloads hself harg 3
  refine ⟨hself, harg, (hall _).mpr ⟨⟨?_, ?_⟩, ?_⟩, (hall _).mpr ⟨⟨?_, ?_⟩, ?_⟩, (hbuf 300).1⟩ <;>
    decide

/-- `memcpy_to` between two constant views writes the receiver; the clone of a constant view of 33
entries overruns its array. -/
theorem memcpy_to_const_const :
    (⟨.memcpyTo, .views, true, true⟩ : Overload).call 2 [⟨100, 4⟩] [⟨200, 4⟩] 4
        = some ⟨[⟨100, 4⟩], [⟨200, 4⟩], 4, [⟨100, 200, 4⟩]⟩ ∧
      ¬ (⟨.memcpyTo, .views, true, true⟩ : Overload).DoesIt [⟨100, 4⟩] [⟨200, 4⟩] 4 ∧
      ¬ (⟨.memcpyTo, .views, true, false⟩ : Overload).DoesIt (List.replicate 33 ⟨100, 1⟩)
        [⟨200, 4⟩] 4 := by
  refine ⟨by decide, ?_, fun ⟨fuel, out, hcall, _⟩ =>
    absurd ((Overload.call_eq_some.mp hcall).1.1 rfl) (by decide)⟩
  rintro ⟨fuel, out, hcall, -, hdsts, -⟩
  obtain ⟨hact, hdid⟩ := Overload.meant_of_call hcall
  rw [hdid.1, hact] at hdsts
  revert hdsts
  decide

end HuiRpc
