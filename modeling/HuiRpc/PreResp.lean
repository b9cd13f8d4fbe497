/-
# The response buffer of a server slot

The constructor of `Session` clears every slot with `memset`, after the members of the slot were
constructed.  In `pre_resp_msgbuf_` this leaves both iovectors with capacity 0.  The overload
`push_back(void*, size_t)`, which fills the buffer, sets the capacity of `iov` to 2300; the
overload `push_back(struct iovec)`, by which `init_data_iov` makes its scratch copy, does not, so
`t_iov` refuses every entry.

`preResp_packets_iff` compares such a buffer with one that was constructed.
-/
import HuiRpc.Packets

namespace HuiRpc

open Blocks

/-- A serializer whose memory is all zero. -/
def Serializer.zeroed : Serializer :=
  { iov := ⟨0, 0, 0, fun _ => ⟨0, 0⟩⟩
    totalPkg := 0
    tIov := ⟨0, 0, 0, fun _ => ⟨0, 0⟩⟩
    dataPkgIndex := fun _ => 0
    iovfull := false
    isSick := false
    usedSize := 0
    newBuff := none }

/-- `clear()`, and then `iov.push_back(base, len)` for every piece of the response. -/
def Serializer.respond (s : Serializer) (vs : List Iovec) : Serializer :=
  vs.foldl Serializer.push s.clear

/-- Both give the same number of packets, and the same bytes in every packet. -/
def SamePackets (D : ℕ) (s₁ s₂ : Serializer) : Prop :=
  ∃ n s₁' s₂', initDataIov D s₁ = some (n, s₁') ∧ initDataIov D s₂ = some (n, s₂') ∧
    ∀ m hdr k, k < n →
      bytesOf m (getNData (pushHdrs hdr n s₁') k) = bytesOf m (getNData (pushHdrs hdr n s₂') k)

variable {s : Serializer} {vs : List Iovec} {D : ℕ}

/-! ## Filling -/

/-- Pushes fill the window up to the end of the array, whatever the capacity was. -/
theorem foldl_push (vs : List Iovec) : ∀ s : Serializer, s.iov.iovBegin ≤ s.iov.iovEnd →
    s.iov.iovEnd ≤ iovCapacity →
    (vs.foldl Serializer.push s).iov.iovBegin = s.iov.iovBegin ∧
      (vs.foldl Serializer.push s).iov.entries
        = s.iov.entries ++ vs.take (iovCapacity - s.iov.iovEnd) ∧
      (vs.foldl Serializer.push s).tIov = s.tIov := by
  induction vs with
  | nil =>
    intro s _ _
    exact ⟨rfl, by rw [List.take_nil, List.append_nil]; rfl, rfl⟩
  | cons v vs ih =>
    intro s hwin hfit
    have hend : (s.push v).iov.iovEnd = min (s.iov.iovEnd + 1) iovCapacity :=
      Iovector.pushBackBuf_iovEnd _ _ _ hfit
    have hbeg : (s.push v).iov.iovBegin = s.iov.iovBegin := Iovector.pushBackBuf_iovBegin _ _ _
    obtain ⟨h1, h2, h3⟩ := ih (s.push v) (by omega) (by omega)
    refine ⟨h1.trans hbeg, ?_, h3⟩
    rw [List.foldl_cons, h2, hend]
    by_cases hr : s.iov.iovEnd < iovCapacity
    · rw [show (s.push v).iov.entries = s.iov.entries ++ [v] from
          Iovector.entries_pushBackBuf _ _ _ hwin hr,
        show iovCapacity - s.iov.iovEnd = iovCapacity - min (s.iov.iovEnd + 1) iovCapacity + 1 by
          omega, List.take_succ_cons, List.append_assoc]
      rfl
    · rw [show (s.push v).iov.entries = s.iov.entries from
          Iovector.entries_pushBackBuf_full _ _ _ hr,
        show iovCapacity - min (s.iov.iovEnd + 1) iovCapacity = 0 by omega,
        show iovCapacity - s.iov.iovEnd = 0 by omega, List.take_zero, List.take_zero]

/-- A response: its pieces start at entry 1, and those that fit are there. -/
theorem respond_spec (s : Serializer) (vs : List Iovec) :
    (s.respond vs).iov.iovBegin = 1 ∧
      (s.respond vs).iov.entries = vs.take (iovCapacity - 1) ∧ (s.respond vs).tIov = s.tIov := by
  obtain ⟨h1, h2, h3⟩ := foldl_push vs s.clear le_rfl (show 1 ≤ iovCapacity by decide)
  refine ⟨h1, ?_, h3⟩
  rw [show s.respond vs = vs.foldl Serializer.push s.clear from rfl, h2]
  show s.clear.iov.entries ++ _ = _
  rw [show s.clear.iov.entries = [] from Iovector.entries_setEmptyAt _ _, List.nil_append]
  rfl

theorem Serializer.Ready.respond (h : s.Ready) (vs : List Iovec) : (s.respond vs).Ready := by
  unfold Serializer.respond
  generalize hs : s.clear = t
  have ht : t.Ready := hs ▸ h.clear
  clear hs
  induction vs generalizing t with
  | nil => exact ht
  | cons v vs ih => exact ih _ (ht.push v)

/-! ## The two buffers -/

/-- A vector of capacity 0 takes no entry. -/
theorem copyIov_of_capacity_zero {t : Iovector} (ht : t.capacity = 0) (es : List Iovec) :
    copyIov t es = t.clear := by
  unfold copyIov
  induction es with
  | nil => rfl
  | cons x es ih =>
    rw [List.foldl_cons, Iovector.pushBack_full _ _ (by
      show ¬ t.iovBegin < t.capacity
      omega)]
    exact ih

/-- **The cleared buffer.**  A response of more than one packet becomes no packet at all. -/
theorem initDataIov_zeroed (hs : D < (Serializer.zeroed.respond vs).iov.sum) :
    ∃ s', initDataIov D (Serializer.zeroed.respond vs) = some (0, s') := by
  have ht : (Serializer.zeroed.respond vs).tIov = Serializer.zeroed.tIov :=
    (respond_spec _ vs).2.2
  have hempty : Serializer.zeroed.tIov.clear.entries = [] := Iovector.entries_clear _
  rw [initDataIov, if_neg (by omega), ht, copyIov_of_capacity_zero rfl]
  dsimp only
  rw [hempty]
  exact ⟨_, rfl⟩

/-- **A cleared and a constructed buffer.**  For every response the two give the same packets
exactly when the response is one packet, or none of the pieces that the scratch copy holds has a
byte. -/
theorem preResp_packets_iff (hD : 0 < D) (hint : D < 2 ^ 31) (junk : Serializer)
    (vs : List Iovec) :
    SamePackets D (Serializer.zeroed.respond vs) ((Serializer.new junk).respond vs) ↔
      iovSum (vs.take (iovCapacity - 1)) % 2 ^ 64 ≤ D ∨
        iovSum (vs.take (iovCapacity - defPreserve)) = 0 := by
  obtain ⟨hbeg₁, hent₁, -⟩ := respond_spec Serializer.zeroed vs
  obtain ⟨hbeg₂, hent₂, -⟩ := respond_spec (Serializer.new junk) vs
  have hready : ((Serializer.new junk).respond vs).Ready := (Serializer.ready_new junk).respond vs
  have hsum₁ : (Serializer.zeroed.respond vs).iov.sum
      = iovSum (vs.take (iovCapacity - 1)) % 2 ^ 64 := by rw [Iovector.sum, hent₁]
  have hsum₂ : ((Serializer.new junk).respond vs).iov.sum
      = iovSum (vs.take (iovCapacity - 1)) % 2 ^ 64 := by rw [Iovector.sum, hent₂]
  by_cases hle : iovSum (vs.take (iovCapacity - 1)) % 2 ^ 64 ≤ D
  · refine iff_of_true ?_ (Or.inl hle)
    refine ⟨1, _, _, initDataIov_one (hsum₁ ▸ hle), initDataIov_one (hsum₂ ▸ hle), ?_⟩
    intro m hdr k hk
    rw [show k = 0 by omega, getNData_singlePkt hbeg₁.ge, getNData_singlePkt hbeg₂.ge, hent₁, hent₂]
  · -- more than one packet: the cleared buffer makes none, so the other one must make none either
    rw [or_iff_right hle]
    have hlarge₁ : D < (Serializer.zeroed.respond vs).iov.sum := by omega
    obtain ⟨s₁', hzero⟩ := initDataIov_zeroed hlarge₁
    have hcopied : copied ((Serializer.new junk).respond vs)
        = vs.take (iovCapacity - defPreserve) := by
      rw [copied, hent₂, List.take_take]
      rfl
    have hlarge : D < ((Serializer.new junk).respond vs).iov.sum := by omega
    have hceil := ceil_bounds D (iovSum (vs.take (iovCapacity - defPreserve))) hD
    constructor
    · rintro ⟨n, t₁, t₂, h1, h2, -⟩
      obtain ⟨rfl, -⟩ := Prod.mk.inj (Option.some.inj (hzero.symm.trans h1))
      by_cases hn : loopPkts D ((Serializer.new junk).respond vs) < pkgIndexSize
      · obtain ⟨st, -, hinit, -⟩ := initDataIov_large hready hD hint hlarge hn
        obtain ⟨hpk, -⟩ := Prod.mk.inj (Option.some.inj (h2.symm.trans hinit))
        rw [loopPkts, hcopied] at hpk
        rw [← hpk, Nat.zero_mul] at hceil
        omega
      · rw [initDataIov_overflow hready hD hlarge (not_lt.mp hn)] at h2
        exact absurd h2 (by simp)
    · intro hempty
      have hpk : loopPkts D ((Serializer.new junk).respond vs) = 0 := by
        rw [loopPkts, hcopied, hempty, Nat.zero_add]
        exact Nat.div_eq_of_lt (by omega)
      obtain ⟨st, -, hinit, -⟩ := initDataIov_large hready hD hint hlarge (by rw [hpk]; decide)
      rw [hpk] at hinit
      exact ⟨0, _, _, hzero, hinit, fun m hdr k hk => absurd hk (Nat.not_lt_zero k)⟩

/-- A response of 20 bytes, as the replicated state machine sends it. -/
theorem preResp_packets_twenty :
    SamePackets 4024 (Serializer.zeroed.respond [⟨100, 20⟩])
      ((Serializer.new default).respond [⟨100, 20⟩]) :=
  (preResp_packets_iff (by decide) (by decide) default [⟨100, 20⟩]).mpr (Or.inl (by decide))

/-- **A response of two packets.**  The constructed buffer makes two packets of 5000 bytes, the
cleared one none. -/
theorem preResp_loses_packets :
    (initDataIov 4024 (Serializer.zeroed.respond [⟨100, 5000⟩])).map Prod.fst = some 0 ∧
      (initDataIov 4024 ((Serializer.new default).respond [⟨100, 5000⟩])).map Prod.fst = some 2 ∧
      ¬ SamePackets 4024 (Serializer.zeroed.respond [⟨100, 5000⟩])
        ((Serializer.new default).respond [⟨100, 5000⟩]) := by
  have hzero : (initDataIov 4024 (Serializer.zeroed.respond [⟨100, 5000⟩])).map Prod.fst
      = some 0 := by decide +kernel
  have htwo : (initDataIov 4024 ((Serializer.new default).respond [⟨100, 5000⟩])).map Prod.fst
      = some 2 := by decide +kernel
  refine ⟨hzero, htwo, ?_⟩
  rintro ⟨n, s₁, s₂, h1, h2, -⟩
  rw [h1] at hzero
  rw [h2] at htwo
  have hn0 : n = 0 := Option.some.inj hzero
  have hn2 : n = 2 := Option.some.inj htwo
  omega

end HuiRpc
