/-
# Packet headers

Model of `pkthdr.h`, and of the header writing that `enqueue_request` and
`enqueue_response` share: header 0 is filled field by field, copied to the headers of
the other packets with its own `pkt_num_`, and the last one gets the rest of the
message as its `this_msg_size`.

* a header field is a bit field; every store carries the `%` of its width;
* `total_pkt` is set by the caller, to the result of `init_data_iov`;
* headers are kept by address, apart from the payload memory.
-/
import HuiRpc.Packets

namespace HuiRpc

/-! ## Constants -/

/-- `kMTU` of a RoCE build. -/
def kMTU : ℕ := 4096

/-- `kMaxDataPerPkt = kMTU - sizeof(pkthdr_t)`. -/
def kMaxDataPerPkt : ℕ := kMTU - sizeofPkthdr

def kPktHdrMagic : ℕ := 11

theorem kMaxDataPerPkt_eq : kMaxDataPerPkt = 4024 := rfl

/-! ## The header -/

/-- `enum PktType`. -/
inductive PktType
  | kReq
  | kRFR
  | kExplCR
  | kResp
  deriving DecidableEq, Repr, Inhabited

/-- `struct pkthdr_t`, without the headroom of the network headers. -/
structure Pkthdr where
  reqType : ℕ
  msgSize : ℕ
  destSessionNum : ℕ
  pktType : PktType
  pktNum : ℕ
  reqNum : ℕ
  magic : ℕ
  lkey : ℕ
  totalPkt : ℕ
  thisMsgSize : ℕ
  deriving DecidableEq, Repr, Inhabited

/-- What the caller of `enqueue_request` / `enqueue_response` and the slot supply. -/
structure SendArgs where
  reqType : ℕ
  remoteSessionNum : ℕ
  reqNum : ℕ
  lkey : ℕ

/-- Header 0 of a message of `size` bytes.  Every field but `total_pkt` is written. -/
def Pkthdr.fill (h : Pkthdr) (pktType : PktType) (pktNum : ℕ) (a : SendArgs) (size : ℕ) :
    Pkthdr :=
  { h with
    reqType := a.reqType % 2 ^ 8
    msgSize := size % 2 ^ 24
    destSessionNum := a.remoteSessionNum % 2 ^ 4
    pktType := pktType
    pktNum := pktNum % 2 ^ 16
    reqNum := a.reqNum % 2 ^ 32
    lkey := a.lkey % 2 ^ 32
    magic := kPktHdrMagic
    thisMsgSize := kMaxDataPerPkt % 2 ^ 16 }

/-- Header 0 in `enqueue_request`. -/
def Pkthdr.enqueueRequest (h : Pkthdr) (a : SendArgs) (size : ℕ) : Pkthdr :=
  h.fill .kReq 0 a size

/-- Header 0 in `enqueue_response`; `sav_num_req_pkts_` has just been set to 1. -/
def Pkthdr.enqueueResponse (h : Pkthdr) (a : SendArgs) (size : ℕ) : Pkthdr :=
  let savNumReqPkts := 1
  h.fill .kResp (savNumReqPkts - 1) a size

/-- The two kinds of messages. -/
inductive MsgKind
  | request
  | response
  deriving DecidableEq, Repr

def MsgKind.hdr0 : MsgKind → Pkthdr → SendArgs → ℕ → Pkthdr
  | .request => Pkthdr.enqueueRequest
  | .response => Pkthdr.enqueueResponse

/-- Header `k` of a message of `n` packets and `size` bytes, with the given packet size. -/
def MsgKind.hdr (kind : MsgKind) (a : SendArgs) (n size k thisMsgSize : ℕ) : Pkthdr :=
  { kind.hdr0 { (default : Pkthdr) with totalPkt := n } a size with
    pktNum := k % 2 ^ 16, thisMsgSize := thisMsgSize }

/-! ## The header array -/

/-- The packet headers in memory, by address. -/
abbrev HdrStore := ℕ → Pkthdr

/-- `pkthdr + i`. -/
def hdrAddr (hdr i : ℕ) : ℕ := hdr + i * sizeofPkthdr

theorem hdrAddr_inj {hdr i j : ℕ} : hdrAddr hdr i = hdrAddr hdr j ↔ i = j := by
  unfold hdrAddr sizeofPkthdr
  omega

/-- `for (i = 1; i < total_pkt; ++i)`: header 0 copied, with its own packet number. -/
def copyHdrs (hdr : ℕ) : ℕ → HdrStore → HdrStore
  | 0, hs => hs
  | i + 1, hs =>
      let hs' := copyHdrs hdr i hs
      Function.update hs' (hdrAddr hdr (i + 1)) { hs' hdr with pktNum := (i + 1) % 2 ^ 16 }

/-- All headers of a message: header 0, the copies, and the size of the last packet. -/
def fillHdrs (hs : HdrStore) (hdr : ℕ) (h0 : Pkthdr) : HdrStore :=
  let hs1 := copyHdrs hdr (h0.totalPkt - 1) (Function.update hs hdr h0)
  let last := hdrAddr hdr h0.totalPkt - sizeofPkthdr
  Function.update hs1 last
    { hs1 last with thisMsgSize := h0.msgSize % kMaxDataPerPkt % 2 ^ 16 }

theorem copyHdrs_zero (hdr i : ℕ) (hs : HdrStore) : copyHdrs hdr i hs hdr = hs hdr := by
  induction i with
  | zero => rfl
  | succ i ih =>
    have hne : hdr ≠ hdrAddr hdr (i + 1) := by
      unfold hdrAddr sizeofPkthdr
      omega
    rw [copyHdrs, Function.update_of_ne hne, ih]

/-- A copied header is header 0 with its own packet number. -/
theorem copyHdrs_apply (hdr i k : ℕ) (hs : HdrStore) (hk : 1 ≤ k) (hki : k ≤ i) :
    copyHdrs hdr i hs (hdrAddr hdr k) = { hs hdr with pktNum := k % 2 ^ 16 } := by
  induction i with
  | zero => omega
  | succ i ih =>
    rw [copyHdrs]
    by_cases hkq : k = i + 1
    · rw [hkq, Function.update_self, copyHdrs_zero]
    · rw [Function.update_of_ne (by rw [Ne, hdrAddr_inj]; exact hkq), ih (by omega)]

/-- **The headers of a message.**  Packet `k` has number `k`, and its size is a full
packet but for the last one. -/
theorem fillHdrs_apply (hs : HdrStore) (hdr k : ℕ) (h0 : Pkthdr) (hk : k < h0.totalPkt)
    (h0num : h0.pktNum = 0) :
    fillHdrs hs hdr h0 (hdrAddr hdr k) = { h0 with
      pktNum := k % 2 ^ 16
      thisMsgSize := if k + 1 = h0.totalPkt then h0.msgSize % kMaxDataPerPkt
        else h0.thisMsgSize } := by
  have hlast : hdrAddr hdr h0.totalPkt - sizeofPkthdr = hdrAddr hdr (h0.totalPkt - 1) := by
    unfold hdrAddr sizeofPkthdr
    omega
  have hcopy : ∀ j, j < h0.totalPkt →
      copyHdrs hdr (h0.totalPkt - 1) (Function.update hs hdr h0) (hdrAddr hdr j)
        = { h0 with pktNum := j % 2 ^ 16 } := by
    intro j hj
    rcases Nat.eq_zero_or_pos j with hz | hz
    · have haddr : hdrAddr hdr 0 = hdr := by simp [hdrAddr]
      rw [hz, haddr, copyHdrs_zero, Function.update_self, Nat.zero_mod, ← h0num]
    · rw [copyHdrs_apply _ _ _ _ hz (by omega), Function.update_self]
  have hsmall : h0.msgSize % kMaxDataPerPkt % 2 ^ 16 = h0.msgSize % kMaxDataPerPkt := by
    have := Nat.mod_lt h0.msgSize (show 0 < kMaxDataPerPkt by decide)
    rw [kMaxDataPerPkt_eq] at this ⊢
    omega
  unfold fillHdrs
  rw [hlast]
  by_cases hkl : k + 1 = h0.totalPkt
  · rw [show h0.totalPkt - 1 = k by omega, Function.update_self, if_pos hkl,
      show k = h0.totalPkt - 1 by omega, hcopy _ (by omega), hsmall]
  · rw [Function.update_of_ne (by rw [Ne, hdrAddr_inj]; omega), if_neg hkl, hcopy k hk]

/-! ## Handing a message to the transport -/

/-- The caller packetises and notes the packet count in header 0; the call then fills
the headers and pushes them in front. -/
def launch (kind : MsgKind) (a : SendArgs) (hs : HdrStore) (hdr : ℕ) (s : Serializer) :
    Option (ℕ × HdrStore × Serializer) :=
  (initDataIov kMaxDataPerPkt s).map fun r =>
    let h0 := kind.hdr0 { hs hdr with totalPkt := r.1 % 2 ^ 16 } a r.2.iov.sum
    (r.1, fillHdrs hs hdr h0, pushHdrs hdr h0.totalPkt r.2)

end HuiRpc
