/-
# The `Serializer` and its packetiser

Model of the sending half of `huibuffer/serialization.h`: the `Serializer`, the
splitting loop `init_data_iov`, and the two readers `get_n_hdr` and `get_n_data` that
the transport uses.

`init_data_iov(D)` re-cuts the iovecs of the message so that no piece crosses a
packet boundary, and records in `data_pkg_index` at which piece every packet starts.
The array has 2000 entries and no bound check, so the model returns `none` where the
source stores outside it; a `push_back` that the full iovec array refuses is not an
error in the source and is not one here.
-/
import HuiRpc.Iovector
import HuiRpc.Lib.Blocks

namespace HuiRpc

open Blocks

/-! ## State -/

/-- Entries of `uint32_t data_pkg_index[2000]`. -/
def pkgIndexSize : ℕ := 2000

/-- `class Serializer`. -/
structure Serializer where
  iov : Iovector
  totalPkg : ℕ
  tIov : Iovector
  dataPkgIndex : ℕ → ℕ
  iovfull : Bool
  isSick : Bool
  usedSize : ℕ
  newBuff : Option ℕ
  deriving Inhabited

namespace Serializer

/-- The constructor.  Only the two iovectors and the two flags are initialised; the
other members hold the junk of the memory the object is built in. -/
def new (junk : Serializer) : Serializer :=
  { iov := Iovector.new iovCapacity defPreserve junk.iov.iovs
    totalPkg := junk.totalPkg
    tIov := Iovector.new iovCapacity defPreserve junk.tIov.iovs
    dataPkgIndex := junk.dataPkgIndex
    iovfull := false
    isSick := false
    usedSize := junk.usedSize
    newBuff := junk.newBuff }

/-- `clear()`: one entry stays free in front.  `new_buff`, which the constructor leaves unset, is taken
as null or allocated, so that the `delete` is defined. -/
def clear (s : Serializer) : Serializer :=
  { s with iov := s.iov.setEmptyAt 1, usedSize := 0, isSick := false, newBuff := none }

/-- `iov.push_back(base, len)`. -/
def push (s : Serializer) (v : Iovec) : Serializer :=
  { s with iov := (s.iov.pushBackBuf v.iovBase v.iovLen).1 }

end Serializer

/-! ## The splitting loop -/

/-- The variables of the splitting loop: the array being refilled, the packet table,
`data_index` (a reference to `total_pkg`), and `temp`, the room left in the packet. -/
structure SplitSt where
  iov : Iovector
  index : ℕ → ℕ
  dataIndex : ℕ
  temp : ℕ

/-- A full `temp` starts a new packet at the next piece. -/
def recordPkg (D : ℕ) (st : SplitSt) : Option SplitSt :=
  if st.temp = D then
    if st.dataIndex < pkgIndexSize then
      some { st with
        index := Function.update st.index st.dataIndex st.iov.iovcnt
        dataIndex := st.dataIndex + 1 }
    else none
  else some st

/-- The three branches of the loop body: the piece ends inside the packet, the packet
ends inside the piece, or both end together. -/
def cutPiece (D : ℕ) (st : SplitSt) (v : Iovec) : SplitSt × Iovec :=
  if v.iovLen < st.temp then
    ({ st with iov := (st.iov.pushBackBuf v.iovBase v.iovLen).1, temp := st.temp - v.iovLen },
      ⟨v.iovBase + v.iovLen, 0⟩)
  else if st.temp < v.iovLen then
    ({ st with iov := (st.iov.pushBackBuf v.iovBase st.temp).1, temp := D },
      ⟨v.iovBase + st.temp, v.iovLen - st.temp⟩)
  else
    ({ st with iov := (st.iov.pushBackBuf v.iovBase v.iovLen).1, temp := D },
      ⟨v.iovBase + v.iovLen, 0⟩)

/-- `while (_t_iov.iov_len > 0)`.  Every pass with `temp > 0` shortens the iovec, so
its length is enough fuel. -/
def splitIovec (D : ℕ) : ℕ → SplitSt → Iovec → Option SplitSt
  | 0, st, v => if v.iovLen = 0 then some st else none
  | fuel + 1, st, v =>
      if v.iovLen = 0 then some st
      else (recordPkg D st).bind fun st' =>
        splitIovec D fuel (cutPiece D st' v).1 (cutPiece D st' v).2

/-- The loop over all iovecs; one of length zero is passed over. -/
def splitIovecs (D : ℕ) : SplitSt → List Iovec → Option SplitSt
  | st, [] => some st
  | st, v :: vs => (splitIovec D v.iovLen st v).bind fun st' => splitIovecs D st' vs

/-- The copy of the message that the loop cuts: `t_iov.push_back(iov[i])`. -/
def copyIov (t : Iovector) (es : List Iovec) : Iovector :=
  es.foldl (fun t x => (t.pushBack x).1) t.clear

/-- `init_data_iov(maxDataPerPkt)`: the packet count and the serializer after it, or
`none` when the packet table overflows. -/
def initDataIov (D : ℕ) (s : Serializer) : Option (ℕ × Serializer) :=
  if s.iov.sum ≤ D then
    some (1, { s with
      totalPkg := 1
      dataPkgIndex := Function.update (Function.update s.dataPkgIndex 0 0) 1 s.iov.iovcnt })
  else
    let t := copyIov s.tIov s.iov.entries
    let n := t.sum / D + (if t.sum % D = 0 then 0 else 1)
    (splitIovecs D ⟨s.iov.clear.setEmptyAt n, s.dataPkgIndex, 0, D⟩ t.entries).bind fun st =>
      if st.dataIndex < pkgIndexSize then
        some (st.dataIndex, { s with
          iov := st.iov
          totalPkg := st.dataIndex
          tIov := t.drained
          dataPkgIndex := Function.update st.index st.dataIndex st.iov.iovcnt })
      else none

/-! ## The readers -/

/-- `sizeof(pkthdr_t)` with the 42-byte headroom of a RoCE build: the bit fields that
follow end at byte 68, and the 64-bit ones align the struct to 8. -/
def sizeofPkthdr : ℕ := 72

/-- The header pushes of `enqueue_request` / `enqueue_response`: header `n - 1` first,
header 0 last, from the header array at address `hdr`. -/
def pushHdrs (hdr : ℕ) : ℕ → Serializer → Serializer
  | 0, s => s
  | n + 1, s => pushHdrs hdr n
      { s with iov := (s.iov.pushFront ⟨hdr + n * sizeofPkthdr, sizeofPkthdr⟩).1 }

/-- `get_n_hdr(n)`: the address of the header of packet `n`. -/
def getNHdr (s : Serializer) (n : ℕ) : ℕ := (s.iov.nth n).iovBase

/-- `get_n_data(n)`: the payload iovecs of packet `n`; the headers come first. -/
def getNData (s : Serializer) (n : ℕ) : List Iovec :=
  (List.range (s.dataPkgIndex (n + 1) - s.dataPkgIndex n)).map fun j =>
    s.iov.nth (s.totalPkg + s.dataPkgIndex n + j)

/-- `data_size_to_num_pkts` for packets of `D` data bytes. -/
def numPkts (D size : ℕ) : ℕ :=
  if size ≤ D then 1 else (size + D - 1) / D

/-- The number of pieces that the packet boundaries cut a list of iovecs into, its
first byte being byte `off` of the message. -/
def numPieces (D : ℕ) : ℕ → List Iovec → ℕ
  | _, [] => 0
  | off, v :: vs => blocksMet D off v.iovLen + numPieces D (off + v.iovLen) vs

end HuiRpc
