/-
# Assembling a request of several packets

`process_large_req_one_st` keeps a request as a list of entries that point into the receive ring.
A body that lies right behind the last entry is joined to it, and any other body gets an entry of
its own.  The test reads `back()` also for packet 0, right after the list was emptied; the entry
that it then finds is the memory in front of the list (`backEntry`).

* `afterPkts` — the slot after the first packets of a request, each in any entry of the ring;
* `Joined` — the bodies received so far are in the list, and its last entry ends with the last body;
* `Short` — the list lacks the body of packet 0;
* `request_assembled_iff` — packet 0 of every request reads `back()` of an empty list; even so the
  request is complete when its handler is invoked exactly when the body of packet 0 does not happen
  to lie behind what stands in front of the list.
-/
import HuiRpc.RxRing

namespace HuiRpc

/-- A message of several packets as the packetiser cuts it: all but the last are full
(`launch_eq_fill`). -/
structure LargeMsg extends TxMsg where
  large : kMaxDataPerPkt < msgSize
  full : ∀ k, k + 1 < totalPkt → (data k).length = kMaxDataPerPkt

theorem LargeMsg.one_lt (msg : LargeMsg) : 1 < msg.totalPkt := by
  have hpos := msg.pos
  have hone : msg.totalPkt ≠ 1 := fun h => absurd (msg.small_iff.mpr h) (not_le.mpr msg.large)
  omega

/-! ## The last entry of a list -/

namespace Iovector

variable {v : Iovector}

/-- A list that is not empty ends with its last entry. -/
theorem entries_back (h : v.iovBegin < v.iovEnd) :
    v.entries = ({ v with iovEnd := v.iovEnd - 1 } : Iovector).entries
      ++ [v.iovs (v.iovEnd - 1)] := by
  have hcnt : v.iovEnd - v.iovBegin = (v.iovEnd - 1 - v.iovBegin) + 1 := by omega
  have hlast : v.iovBegin + (v.iovEnd - 1 - v.iovBegin) = v.iovEnd - 1 := by omega
  simp only [entries, iovcnt, nth, hcnt, List.range_succ, List.map_append, List.map_cons,
    List.map_nil, hlast]
  rfl

/-- A window whose bounds have met is empty. -/
theorem entries_eq_nil (h : v.iovEnd ≤ v.iovBegin) : v.entries = [] := by
  unfold entries iovcnt
  rw [Nat.sub_eq_zero_of_le h]
  rfl

end Iovector

theorem growBack_of_pos {v : Iovector} (n : ℕ) (h : 0 < v.iovEnd) :
    (growBack v n).iovBegin = v.iovBegin ∧ (growBack v n).iovEnd = v.iovEnd ∧
      (growBack v n).iovs = Function.update v.iovs (v.iovEnd - 1)
        ⟨(v.iovs (v.iovEnd - 1)).iovBase, (v.iovs (v.iovEnd - 1)).iovLen + n⟩ := by
  unfold growBack
  rw [if_neg h.ne']
  exact ⟨rfl, rfl, rfl⟩

/-- `back().iov_len += n` on a list that is not empty. -/
theorem entries_growBack {v : Iovector} (n : ℕ) (h : v.iovBegin < v.iovEnd) :
    (growBack v n).entries = ({ v with iovEnd := v.iovEnd - 1 } : Iovector).entries
      ++ [⟨(v.iovs (v.iovEnd - 1)).iovBase, (v.iovs (v.iovEnd - 1)).iovLen + n⟩] := by
  obtain ⟨hbeg, hend, hiovs⟩ := growBack_of_pos n (show 0 < v.iovEnd by omega)
  rw [Iovector.entries_back (by omega), hend, hiovs, Function.update_self]
  congr 1
  refine Iovector.entries_congr ?_ rfl ?_
  · exact hbeg
  · intro i _ hi
    have hi' : i < v.iovEnd - 1 := hi
    exact Function.update_of_ne (by omega) _ _

/-- Two runs of bytes, the second right behind the first. -/
theorem Iovec.bytes_add (m : Mem) (b l n : ℕ) :
    Iovec.bytes m ⟨b, l + n⟩ = Iovec.bytes m ⟨b, l⟩ ++ Iovec.bytes m ⟨b + l, n⟩ := by
  rw [← Iovec.bytes_cut m ⟨b, l + n⟩ l (Nat.le_add_right l n)]
  simp

/-- A body adds at most its own bytes to the list. -/
theorem collect_sum_le {preReq body n : ℕ} {v v' : Iovector} (hcap : v.capacity < 2 ^ 16)
    (hbeg : v.iovBegin < 2 ^ 16 - 1) (hend : v.iovEnd < iovCapacity) (hn : n < 2 ^ 16)
    (hc : collect preReq body n v = some v') : iovSum v'.entries ≤ iovSum v.entries + n := by
  unfold collect at hc
  split_ifs at hc with hadj hret
  · obtain rfl := Option.some.inj hc
    by_cases hwin : v.iovBegin < v.iovEnd
    · rw [entries_growBack n hwin, Iovector.entries_back hwin]
      simp only [iovSum_append, iovSum_cons]
      omega
    · -- the window stays empty, also when the header of the vector grows
      rw [Iovector.entries_eq_nil (v := growBack v n)]
      · exact Nat.zero_le _
      · unfold growBack
        split_ifs with h0
        · show (v.hdrWord + n) / 2 ^ 32 % 2 ^ 16 ≤ _
          unfold Iovector.hdrWord
          omega
        · exact not_lt.mp hwin
  · obtain rfl := Option.some.inj hc
    by_cases hwin : v.iovBegin ≤ v.iovEnd
    · rw [Iovector.entries_pushBackBuf v body n hwin hend]
      simp
    · rw [Iovector.entries_eq_nil]
      · exact Nat.zero_le _
      · rw [Iovector.pushBackBuf_iovBegin, Iovector.pushBackBuf_iovEnd _ _ _ hend.le]
        omega

/-! ## The packets of one request -/

section Request

variable (e : Endpoint) (fn : ℕ → ReqFuncType) (g : RingCfg) (pos preReq : ℕ → ℕ) (msg : LargeMsg)
  (a : SendArgs) (c : SrvCtx)

/-- Header of packet `k`. -/
def LargeMsg.hdr (k : ℕ) : Pkthdr := ((msg.fill .request a).pkts k).hdr

/-- Where packet `k` is received: its body in ring entry `pos k`. -/
def LargeMsg.body (k : ℕ) : Iovec := ⟨g.bodyAddr (pos k % g.R), (msg.data k).length⟩

/-- The slot after the first `k` packets.  What stands in front of the list may be another value
at every packet. -/
def afterPkts : ℕ → SrvCtx
  | 0 => c
  | k + 1 => processLargeReqOne e fn (preReq k) (g.bodyAddr (pos k % g.R)) (msg.hdr a k)
      (afterPkts k)

/-- The list of which packet `k` reads `back()`. -/
def readIov (k : ℕ) : Iovector :=
  (trackReq (msg.hdr a k) (afterPkts e fn g pos preReq msg a c k).slot).reqIov

/-- Invocations since `c`, in the dispatch thread or in the background. -/
def SrvCtx.callsSince (c c' : SrvCtx) : List Call :=
  c'.calls.drop c.calls.length ++ c'.bgReqs.drop c.bgReqs.length

/-- The handler is invoked once, for a list that holds the bodies of all packets in order. -/
def Assembled : Prop :=
  ∃ x, c.callsSince (afterPkts e fn g pos preReq msg a c msg.totalPkt) = [x] ∧
    ∀ m, bytesOf m x.req = bytesOf m ((List.range msg.totalPkt).map (msg.body g pos))

/-- What stands in front of the emptied list ends at the body of packet 0. -/
def PhantomAdjacent : Prop :=
  (preReq 0 + c.slot.reqIov.capacity) % 2 ^ 64 = g.bodyAddr (pos 0 % g.R)

instance : Decidable (PhantomAdjacent g pos preReq c) := inferInstanceAs (Decidable (_ = _))

variable {msg} in
theorem LargeMsg.length_lt {k : ℕ} (hk : k < msg.totalPkt) : (msg.data k).length < 2 ^ 16 := by
  have h := msg.data_le k hk
  have hD : kMaxDataPerPkt < 2 ^ 16 := by decide
  omega

variable {g pos msg} in
theorem LargeMsg.body_lt {k : ℕ} (hk : k < msg.totalPkt) :
    g.bodyAddr (pos k % g.R) + (msg.data k).length < 2 ^ 64 :=
  lt_of_le_of_lt (g.body_le (pos k) (msg.data_le k hk)) g.fits

theorem readIov_zero : readIov e fn g pos preReq msg a c 0 = c.slot.reqIov.setEmptyAt 0 := by
  have hnum : (msg.hdr a 0).pktNum = 0 := msg.fill_pktNum _ _ 0 msg.pos
  show (trackReq _ c.slot).reqIov = _
  unfold trackReq
  rw [if_pos hnum]

theorem readIov_of_pos {k : ℕ} (h0 : 0 < k) (hk : k < msg.totalPkt) :
    readIov e fn g pos preReq msg a c k
      = (afterPkts e fn g pos preReq msg a c k).slot.reqIov := by
  have hnum : (msg.hdr a k).pktNum = k := msg.fill_pktNum _ _ k hk
  unfold readIov trackReq
  rw [if_neg (by omega)]

variable {e fn g pos preReq msg a c} in
/-- The list after packet `k`. -/
theorem reqIov_afterPkts {k : ℕ} {v : Iovector}
    (hv : collect (preReq k) (g.bodyAddr (pos k % g.R)) (msg.data k).length
      (readIov e fn g pos preReq msg a c k) = some v) :
    (afterPkts e fn g pos preReq msg a c (k + 1)).slot.reqIov = v :=
  processLargeReqOne_reqIov hv

/-- Every packet is taken as the next one. -/
theorem afterPkts_took (hcap : c.slot.reqIov.capacity < 2 ^ 16) : ∀ k, k < msg.totalPkt →
    TookPkt e fn msg.toTxMsg a k (afterPkts e fn g pos preReq msg a c k)
      (afterPkts e fn g pos preReq msg a c (k + 1)) := by
  intro k
  induction k with
  | zero =>
    intro hk
    exact processLargeReqOne_took e fn _ _ msg.large hk (fun h => absurd h (lt_irrefl 0)) hcap
  | succ k ih =>
    intro hk
    have htook := ih (by omega)
    exact processLargeReqOne_took e fn _ _ msg.large hk (fun _ => htook.assembling hk)
      htook.capacity

/-- Before the last packet nothing was invoked. -/
theorem calls_afterPkts (hcap : c.slot.reqIov.capacity < 2 ^ 16) : ∀ k, k < msg.totalPkt →
    (afterPkts e fn g pos preReq msg a c k).calls = c.calls ∧
      (afterPkts e fn g pos preReq msg a c k).bgReqs = c.bgReqs := by
  intro k
  induction k with
  | zero => exact fun _ => ⟨rfl, rfl⟩
  | succ k ih =>
    intro hk
    have htook := afterPkts_took e fn g pos preReq msg a c hcap k (by omega)
    obtain ⟨hcalls, hbg⟩ := ih (by omega)
    constructor
    · rw [htook.calls, if_neg fun h => absurd h.1 (by omega), List.append_nil, hcalls]
    · rw [htook.bgReqs, if_neg fun h => absurd h.1 (by omega), List.append_nil, hbg]

/-- The last packet invokes the handler, once, for the list as it then is. -/
theorem callsSince_afterPkts (hcap : c.slot.reqIov.capacity < 2 ^ 16) :
    c.callsSince (afterPkts e fn g pos preReq msg a c msg.totalPkt)
      = [(afterPkts e fn g pos preReq msg a c msg.totalPkt).slot.call] := by
  obtain ⟨N, hN⟩ : ∃ N, msg.totalPkt = N + 1 := Nat.exists_eq_succ_of_ne_zero msg.pos.ne'
  obtain ⟨hcalls, hbg⟩ := calls_afterPkts e fn g pos preReq msg a c hcap N (by omega)
  have htook := afterPkts_took e fn g pos preReq msg a c hcap N (by omega)
  rw [hN]
  unfold SrvCtx.callsSince
  rw [htook.calls, htook.bgReqs, hcalls, hbg, List.drop_left, List.drop_left]
  cases hfn : fn (a.reqType % 2 ^ 8) with
  | kForeground => rw [if_pos ⟨hN.symm, rfl⟩, if_neg (fun h => by cases h.2.1), List.append_nil]
  | kBackground => rw [if_neg (fun h => by cases h.2), if_pos ⟨hN.symm, rfl, msg.large⟩,
      List.nil_append]

/-- So the request is assembled when the list holds the bodies of all packets. -/
theorem assembled_iff (hcap : c.slot.reqIov.capacity < 2 ^ 16) :
    Assembled e fn g pos preReq msg a c ↔
      ∀ m, bytesOf m (afterPkts e fn g pos preReq msg a c msg.totalPkt).slot.reqIov.entries
        = bytesOf m ((List.range msg.totalPkt).map (msg.body g pos)) := by
  unfold Assembled
  rw [callsSince_afterPkts e fn g pos preReq msg a c hcap]
  constructor
  · rintro ⟨x, hx, hbytes⟩
    obtain rfl := List.singleton_inj.mp hx
    exact hbytes
  · intro hbytes
    exact ⟨_, rfl, hbytes⟩

/-! ## Packet 0 got an entry -/

/-- The list after `k` packets, `k > 0`: the bodies so far, in order, and its last entry ends with
the last body. -/
structure Joined (k : ℕ) (v : Iovector) : Prop where
  iovBegin : v.iovBegin = 0
  iovEnd_pos : 0 < v.iovEnd
  iovEnd_le : v.iovEnd ≤ k
  back : (v.iovs (v.iovEnd - 1)).iovBase + (v.iovs (v.iovEnd - 1)).iovLen
    = (msg.body g pos (k - 1)).iovBase + (msg.body g pos (k - 1)).iovLen
  bytes : ∀ m, bytesOf m v.entries = bytesOf m ((List.range k).map (msg.body g pos))

variable {g pos preReq msg c}

/-- Body `k` as a new entry. -/
theorem joined_push {k : ℕ} {v : Iovector} (hbeg : v.iovBegin = 0) (hend : v.iovEnd ≤ k)
    (hk : k < msg.totalPkt)
    (hbytes : ∀ m, bytesOf m v.entries = bytesOf m ((List.range k).map (msg.body g pos))) :
    (v.pushBackBuf (g.bodyAddr (pos k % g.R)) (msg.data k).length).2 = (msg.data k).length ∧
      Joined g pos msg (k + 1)
        (v.pushBackBuf (g.bodyAddr (pos k % g.R)) (msg.data k).length).1 := by
  have hlt := msg.lt
  have hroom : v.iovEnd < iovCapacity := by
    have : pkgIndexSize < iovCapacity := by decide
    omega
  have hpush : (v.pushBackBuf (g.bodyAddr (pos k % g.R)) (msg.data k).length).2
        = (msg.data k).length ∧
      (v.pushBackBuf (g.bodyAddr (pos k % g.R)) (msg.data k).length).1.iovEnd = v.iovEnd + 1 ∧
      (v.pushBackBuf (g.bodyAddr (pos k % g.R)) (msg.data k).length).1.iovs
        = Function.update v.iovs v.iovEnd (msg.body g pos k) := by
    unfold Iovector.pushBackBuf Iovector.pushBack
    rw [if_pos hroom]
    exact ⟨rfl, rfl, rfl⟩
  obtain ⟨hret, hend', hiovs⟩ := hpush
  refine ⟨hret, ?_⟩
  exact {
    iovBegin := (Iovector.pushBackBuf_iovBegin _ _ _).trans hbeg
    iovEnd_pos := by
      rw [hend']
      exact Nat.succ_pos _
    iovEnd_le := by
      rw [hend']
      exact Nat.succ_le_succ hend
    back := by
      rw [hend', hiovs, Nat.add_sub_cancel, Nat.add_sub_cancel, Function.update_self]
    bytes := by
      intro m
      rw [Iovector.entries_pushBackBuf v _ _ (by omega) hroom, bytesOf_append, hbytes,
        List.range_succ, List.map_append, bytesOf_append]
      rfl }

/-- **One more packet**: its body is joined to the last entry or gets one of its own. -/
theorem Joined.collect {k : ℕ} {v : Iovector} (h : Joined g pos msg k v) (h0 : 0 < k)
    (hk : k < msg.totalPkt) (pre : ℕ) :
    ∃ v', collect pre (g.bodyAddr (pos k % g.R)) (msg.data k).length v = some v' ∧
      Joined g pos msg (k + 1) v' := by
  have hne : v.iovEnd ≠ 0 := h.iovEnd_pos.ne'
  have hspace : (msg.body g pos (k - 1)).iovBase + (msg.body g pos (k - 1)).iovLen < 2 ^ 64 :=
    LargeMsg.body_lt (by omega)
  have hback : ((backEntry pre v).iovBase + (backEntry pre v).iovLen) % 2 ^ 64
      = (v.iovs (v.iovEnd - 1)).iovBase + (v.iovs (v.iovEnd - 1)).iovLen := by
    unfold backEntry
    rw [if_neg hne, h.back, Nat.mod_eq_of_lt hspace]
  unfold HuiRpc.collect
  rw [hback]
  split_ifs with hadj hret
  · -- adjacent in the ring: the last entry grows by the body
    have hwin : v.iovBegin < v.iovEnd := by
      rw [h.iovBegin]
      exact h.iovEnd_pos
    obtain ⟨hbeg, hend, hiovs⟩ := growBack_of_pos (msg.data k).length h.iovEnd_pos
    refine ⟨_, rfl, ?_⟩
    exact {
      iovBegin := hbeg.trans h.iovBegin
      iovEnd_pos := by
        rw [hend]
        exact h.iovEnd_pos
      iovEnd_le := by
        rw [hend]
        exact Nat.le_succ_of_le h.iovEnd_le
      back := by
        rw [hend, hiovs, Function.update_self]
        show (v.iovs (v.iovEnd - 1)).iovBase
          + ((v.iovs (v.iovEnd - 1)).iovLen + (msg.data k).length)
            = g.bodyAddr (pos k % g.R) + (msg.data k).length
        omega
      bytes := by
        intro m
        have hold := h.bytes m
        rw [Iovector.entries_back hwin, bytesOf_append] at hold
        rw [entries_growBack _ hwin, bytesOf_append, List.range_succ, List.map_append,
          bytesOf_append, ← hold, List.append_assoc]
        simp only [List.map_cons, List.map_nil, bytesOf_cons, bytesOf_nil, List.append_nil]
        rw [Iovec.bytes_add, hadj]
        rfl }
  · exact ⟨_, rfl, (joined_push h.iovBegin h.iovEnd_le hk h.bytes).2⟩
  · exact absurd (joined_push h.iovBegin h.iovEnd_le hk h.bytes).1 hret

/-- **The run of the packets** when packet 0 got an entry. -/
theorem joined_afterPkts (hadj : ¬ PhantomAdjacent g pos preReq c) : ∀ k, 0 < k →
    k ≤ msg.totalPkt →
    Joined g pos msg k (afterPkts e fn g pos preReq msg a c k).slot.reqIov := by
  intro k h0
  induction k, h0 using Nat.le_induction with
  | base =>
    intro hk
    have hempty : ∀ m, bytesOf m (c.slot.reqIov.setEmptyAt 0).entries
        = bytesOf m ((List.range 0).map (msg.body g pos)) := by
      intro m
      rw [Iovector.entries_setEmptyAt]
      rfl
    obtain ⟨hret, hjoin⟩ := joined_push rfl (Nat.zero_le 0) msg.pos hempty
    have hcol : collect (preReq 0) (g.bodyAddr (pos 0 % g.R)) (msg.data 0).length
        (readIov e fn g pos preReq msg a c 0)
        = some ((c.slot.reqIov.setEmptyAt 0).pushBackBuf (g.bodyAddr (pos 0 % g.R))
            (msg.data 0).length).1 := by
      have hfar : ¬ ((backEntry (preReq 0) (c.slot.reqIov.setEmptyAt 0)).iovBase
          + (backEntry (preReq 0) (c.slot.reqIov.setEmptyAt 0)).iovLen) % 2 ^ 64
            = g.bodyAddr (pos 0 % g.R) := hadj
      rw [readIov_zero, collect, if_neg hfar, if_pos hret]
    rw [reqIov_afterPkts hcol]
    exact hjoin
  | succ k h0 ih =>
    intro hk
    obtain ⟨v, hcol, hjoin⟩ := (ih (by omega)).collect h0 (by omega) (preReq k)
    rw [← readIov_of_pos e fn g pos preReq msg a c h0 (by omega)] at hcol
    rw [reqIov_afterPkts hcol]
    exact hjoin

/-! ## Packet 0 was joined to what stands in front of the list -/

variable (msg) in
/-- The list after `k` packets, `k > 0`, without the body of packet 0. -/
structure Short (k : ℕ) (v : Iovector) : Prop where
  capacity : v.capacity < 2 ^ 16
  iovBegin : v.iovBegin ≤ k
  iovEnd : v.iovEnd ≤ k
  sum : iovSum v.entries + (msg.data 0).length
    ≤ ((List.range k).map fun j => (msg.data j).length).sum

theorem Short.collect {k : ℕ} {v : Iovector} (h : Short msg k v) (hk : k < msg.totalPkt)
    (pre body : ℕ) :
    ∃ v', collect pre body (msg.data k).length v = some v' ∧ Short msg (k + 1) v' := by
  have hlt := msg.lt
  have hroom : v.iovEnd < iovCapacity := by
    have : pkgIndexSize < iovCapacity := by decide
    have := h.iovEnd
    omega
  have hbeg : v.iovBegin < 2 ^ 16 - 1 := by
    have : pkgIndexSize < 2 ^ 16 - 1 := by decide
    have := h.iovBegin
    omega
  obtain ⟨v', hcol, hend', hcap', hbeg'⟩ :=
    collect_iovEnd pre body hroom h.capacity hbeg (msg.length_lt hk)
  refine ⟨v', hcol, hcap', hbeg'.trans (Nat.succ_le_succ h.iovBegin),
    hend'.trans (Nat.succ_le_succ h.iovEnd), ?_⟩
  have hsum := collect_sum_le h.capacity hbeg hroom (msg.length_lt hk) hcol
  have hold := h.sum
  rw [List.range_succ, List.map_append, List.sum_append, List.map_cons, List.map_nil,
    List.sum_singleton]
  omega

/-- Packet 0 leaves the list empty. -/
theorem afterPkts_one_of_phantom (hcap : c.slot.reqIov.capacity < 2 ^ 16)
    (hadj : PhantomAdjacent g pos preReq c) :
    (afterPkts e fn g pos preReq msg a c 1).slot.reqIov.entries = [] ∧
      Short msg 1 (afterPkts e fn g pos preReq msg a c 1).slot.reqIov := by
  have hcol : collect (preReq 0) (g.bodyAddr (pos 0 % g.R)) (msg.data 0).length
      (readIov e fn g pos preReq msg a c 0)
      = some (growBack (c.slot.reqIov.setEmptyAt 0) (msg.data 0).length) := by
    exact if_pos hadj
  -- `back()` of the emptied list is the header of the vector: its `iov_len` is the capacity and
  -- the two bounds, so the body's length is added to the capacity and may carry into `iov_begin`
  have hlen := msg.length_lt msg.pos
  rw [reqIov_afterPkts hcol]
  have hgrow : growBack (c.slot.reqIov.setEmptyAt 0) (msg.data 0).length
      = { c.slot.reqIov with
          capacity := (c.slot.reqIov.capacity + (msg.data 0).length) % 2 ^ 16
          iovBegin := (c.slot.reqIov.capacity + (msg.data 0).length) / 2 ^ 16 % 2 ^ 16
          iovEnd := (c.slot.reqIov.capacity + (msg.data 0).length) / 2 ^ 32 % 2 ^ 16 } := rfl
  have hend : (c.slot.reqIov.capacity + (msg.data 0).length) / 2 ^ 32 % 2 ^ 16 = 0 := by omega
  rw [hgrow, hend]
  have hnil := Iovector.entries_eq_nil (v := { c.slot.reqIov with
    capacity := (c.slot.reqIov.capacity + (msg.data 0).length) % 2 ^ 16
    iovBegin := (c.slot.reqIov.capacity + (msg.data 0).length) / 2 ^ 16 % 2 ^ 16
    iovEnd := 0 }) (Nat.zero_le _)
  refine ⟨hnil, Nat.mod_lt _ (by decide), ?_, Nat.zero_le _, ?_⟩
  · show (c.slot.reqIov.capacity + (msg.data 0).length) / 2 ^ 16 % 2 ^ 16 ≤ 1
    omega
  · rw [hnil]
    simp

/-- **The run of the packets** when packet 0 was joined to what stands in front of the list. -/
theorem short_afterPkts (hcap : c.slot.reqIov.capacity < 2 ^ 16)
    (hadj : PhantomAdjacent g pos preReq c) : ∀ k, 0 < k → k ≤ msg.totalPkt →
    Short msg k (afterPkts e fn g pos preReq msg a c k).slot.reqIov := by
  intro k h0
  induction k, h0 using Nat.le_induction with
  | base => exact fun _ => (afterPkts_one_of_phantom e fn a hcap hadj).2
  | succ k h0 ih =>
    intro hk
    obtain ⟨v, hcol, hshort⟩ := (ih (by omega)).collect (by omega) (preReq k)
      (g.bodyAddr (pos k % g.R))
    rw [← readIov_of_pos e fn g pos preReq msg a c h0 (by omega)] at hcol
    rw [reqIov_afterPkts hcol]
    exact hshort

/-- A list that lacks the body of packet 0 has too few bytes. -/
theorem Short.bytes_ne {v : Iovector} (h : Short msg msg.totalPkt v) (m : Mem) :
    bytesOf m v.entries ≠ bytesOf m ((List.range msg.totalPkt).map (msg.body g pos)) := by
  intro heq
  -- counting is enough: packet 0 of a large message is full
  have hlen := congrArg List.length heq
  rw [length_bytesOf, length_bytesOf] at hlen
  have hsum : iovSum ((List.range msg.totalPkt).map (msg.body g pos))
      = ((List.range msg.totalPkt).map fun j => (msg.data j).length).sum := by
    rw [iovSum, List.map_map]
    rfl
  have hfull := msg.full 0 msg.one_lt
  have hD : 0 < kMaxDataPerPkt := by decide
  have := h.sum
  omega

variable (g pos preReq msg c)

/-- **A request of several packets**, received in order in any entries of the ring.  Never is
`back()` read of non-empty lists only: packet 0 reads it of an empty list.  The later packets read
it of a list that is not empty, and the handler is invoked once, for a list with the bodies of all
packets in order, exactly when what stands in front of the emptied list does not end at the body of
packet 0. -/
theorem request_assembled_iff (hcap : c.slot.reqIov.capacity < 2 ^ 16) :
    ¬ ((∀ k, k < msg.totalPkt → (readIov e fn g pos preReq msg a c k).entries ≠ []) ∧
        Assembled e fn g pos preReq msg a c) ∧
      (readIov e fn g pos preReq msg a c 0).entries = [] ∧
      ((∀ k, 0 < k → k < msg.totalPkt → (readIov e fn g pos preReq msg a c k).entries ≠ []) ↔
        ¬ PhantomAdjacent g pos preReq c) ∧
      (Assembled e fn g pos preReq msg a c ↔ ¬ PhantomAdjacent g pos preReq c) := by
  have hzero : (readIov e fn g pos preReq msg a c 0).entries = [] := by
    rw [readIov_zero]
    exact Iovector.entries_setEmptyAt _ _
  refine ⟨fun hsafe => hsafe.1 0 msg.pos hzero, hzero, ?_, ?_⟩
  · constructor
    · intro hread hadj
      apply hread 1 Nat.one_pos msg.one_lt
      rw [readIov_of_pos e fn g pos preReq msg a c Nat.one_pos msg.one_lt]
      exact (afterPkts_one_of_phantom e fn a hcap hadj).1
    · intro hadj k h0 hk hnil
      have hjoin : Joined g pos msg k (afterPkts e fn g pos preReq msg a c k).slot.reqIov :=
        joined_afterPkts e fn a hadj k h0 hk.le
      rw [readIov_of_pos e fn g pos preReq msg a c h0 hk] at hnil
      have hlen := congrArg List.length hnil
      rw [Iovector.length_entries, Iovector.iovcnt, hjoin.iovBegin] at hlen
      exact absurd hlen hjoin.iovEnd_pos.ne'
  · rw [assembled_iff e fn g pos preReq msg a c hcap]
    constructor
    · intro hall hadj
      exact (short_afterPkts e fn a hcap hadj _ msg.pos le_rfl).bytes_ne (fun _ => 0) (hall _)
    · intro hadj
      exact (joined_afterPkts e fn a hadj _ msg.pos le_rfl).bytes

end Request

/-! ## A request of two packets -/

/-- A message of 5000 bytes. -/
def twoLarge : LargeMsg where
  toTxMsg := twoPkts
  large := by decide
  full := by
    intro k hk
    have hk' : k + 1 < 2 := hk
    obtain rfl : k = 0 := by omega
    show (List.replicate 4024 (1 : UInt8)).length = _
    rw [List.length_replicate]
    decide

/-- Scattered over the ring, with nothing in front of the list: the request is complete, although
its packet 0 reads `back()` of an empty list. -/
theorem request_assembled_scattered :
    Assembled sampleEnv.srv sampleEnv.fn ring64 (fun k => 63 - 5 * k) (fun _ => 0) twoLarge
        ⟨1, 3, 32, 0⟩ (Srv.init.ctx 0) ∧
      ¬ ∀ k, k < 2 → (readIov sampleEnv.srv sampleEnv.fn ring64 (fun k => 63 - 5 * k) (fun _ => 0)
        twoLarge ⟨1, 3, 32, 0⟩ (Srv.init.ctx 0) k).entries ≠ [] := by
  obtain ⟨hnever, -, -, hiff⟩ := request_assembled_iff sampleEnv.srv sampleEnv.fn ring64
    (fun k => 63 - 5 * k) (fun _ => 0) twoLarge ⟨1, 3, 32, 0⟩ (Srv.init.ctx 0) (by decide)
  have hdone := hiff.mpr (by decide)
  exact ⟨hdone, fun hread => hnever ⟨hread, hdone⟩⟩

/-- **A request that loses its first packet.**  Packet 0 reads `back()` of the list that was just
emptied.  In front of a new list stands the address 4096 with the length 0, and packet 0 arrives
in entry 0 of the ring, at address 4096: its body is joined to that entry and is missing when the
handler is invoked. -/
theorem request_loses_packet_zero :
    (readIov sampleEnv.srv sampleEnv.fn ring64 id (fun _ => 4096) twoLarge ⟨1, 3, 32, 0⟩
        (Srv.init.ctx 0) 0).entries = [] ∧
      ((Srv.init.ctx 0).callsSince (afterPkts sampleEnv.srv sampleEnv.fn ring64 id
        (fun _ => 4096) twoLarge ⟨1, 3, 32, 0⟩ (Srv.init.ctx 0) 2)).map
          (fun x => iovSum x.req) = [0] ∧
      ¬ Assembled sampleEnv.srv sampleEnv.fn ring64 id (fun _ => 4096) twoLarge ⟨1, 3, 32, 0⟩
        (Srv.init.ctx 0) := by
  refine ⟨by decide +kernel, by decide +kernel, ?_⟩
  rw [assembled_iff _ _ _ _ _ _ _ _ (by decide)]
  intro hall
  have hadj : PhantomAdjacent ring64 id (fun _ => 4096) (Srv.init.ctx 0) := by decide
  exact (short_afterPkts _ _ _ (by decide) hadj _ twoLarge.pos le_rfl).bytes_ne (fun _ => 0) (hall _)

end HuiRpc
