/-
# Where the tables lie in the file

A server of `apps/persistent_kv` puts one table for each thread into a file: the table of the thread
`i` starts at `i * get_required_bytes`.  The constructor of `HashMap` puts the redo log first and the
buckets behind it, from the next multiple of 256 on.

* `get_required_bytes` computes with `size_t`, and rounds the sum of all sizes up to a multiple of
  256; the constructor rounds the size of the log alone.
* The size of a bucket depends on `Key` and `Value` and is an argument.  An entry of the log has 128
  bytes whatever they are.
* Places in the file are not reduced modulo `2 ^ 64`: a table that does not fit into the address
  space cannot be mapped.

`required_bytes_enough_iff` says when the parts of a table stay within the required bytes, so that
the tables of two threads do not overlap.
-/
import HuiRpc.PmicaRefine
import HuiRpc.Lib.Extents

namespace HuiRpc

open Extents

/-- `sizeof(RedoLogEntry)`, with its padding. -/
def kRedoLogEntrySize : ℕ := 128

/-- `sizeof(RedoLog)`. -/
def sizeofRedoLog : ℕ := kNumRedoLogEntries * kRedoLogEntrySize + 8

/-- `roundup<256>` on `size_t`. -/
def roundup256 (x : ℕ) : ℕ := (x + 255) % 2 ^ 64 &&& (2 ^ 64 - 256)

/-- The mask clears the last eight bits. -/
theorem and_mask256 {n : ℕ} (h : n < 2 ^ 64) : n &&& (2 ^ 64 - 256) = n / 256 * 256 := by
  have hmask : 2 ^ 64 - 256 = (2 ^ 56 - 1) <<< 8 := by
    decide
  have hcut : n / 256 * 256 = n >>> 8 <<< 8 := by
    rw [Nat.shiftLeft_eq, Nat.shiftRight_eq_div_pow]
  rw [hmask, hcut]
  apply Nat.eq_of_testBit_eq
  intro i
  rw [Nat.testBit_and, Nat.testBit_shiftLeft, Nat.testBit_shiftLeft, Nat.testBit_shiftRight,
    Nat.testBit_two_pow_sub_one]
  by_cases hlow : 8 ≤ i
  · rw [show 8 + (i - 8) = i by omega]
    by_cases hhigh : i < 64
    · simp [hlow, show i - 8 < 56 by omega]
    · have hbit : n.testBit i = false :=
        Nat.testBit_lt_two_pow (h.trans_le (Nat.pow_le_pow_right (by omega) (by omega)))
      simp [hbit]
  · simp [hlow]

theorem roundup256_eq (x : ℕ) : roundup256 x = (x + 255) % 2 ^ 64 / 256 * 256 :=
  and_mask256 (Nat.mod_lt _ (by omega))

namespace PmicaConf

variable {K V : Type} (c : PmicaConf K V) (bucketSize : ℕ)

/-- `get_required_bytes`. -/
def getRequiredBytes : ℕ :=
  let numTotalBuckets := (c.numRegularBuckets + c.numExtraBuckets) % 2 ^ 64
  let totSize := (sizeofRedoLog + numTotalBuckets * bucketSize) % 2 ^ 64
  roundup256 totSize

/-- `bucket_offset` of the constructor. -/
def bucketOffset : ℕ := roundup256 sizeofRedoLog

/-- `buckets_[b]` of a table at `fileOffset`. -/
def bucketAt (fileOffset b : ℕ) : Extent :=
  ⟨fileOffset + bucketOffset + b * bucketSize, bucketSize⟩

/-- The redo log, the regular buckets and the extra buckets of a table at `fileOffset`. -/
def parts (fileOffset : ℕ) : List Extent :=
  ⟨fileOffset, sizeofRedoLog⟩ ::
    ((List.range c.numRegularBuckets).map (bucketAt bucketSize fileOffset) ++
      (List.range' 1 c.numExtraBuckets).map fun e =>
        bucketAt bucketSize fileOffset (c.extraBucket e))

theorem mem_parts {fileOffset : ℕ} {p : Extent} :
    p ∈ c.parts bucketSize fileOffset ↔ p = ⟨fileOffset, sizeofRedoLog⟩ ∨
      ∃ b < c.numTotalBuckets, p = bucketAt bucketSize fileOffset b := by
  have hpos := c.numRegularBuckets_pos
  unfold parts numTotalBuckets extraBucket
  simp only [List.mem_cons, List.mem_append, List.mem_map, List.mem_range, List.mem_range'_1]
  constructor
  · rintro (rfl | ⟨b, hb, rfl⟩ | ⟨e, he, rfl⟩)
    · exact Or.inl rfl
    · exact Or.inr ⟨b, by omega, rfl⟩
    · exact Or.inr ⟨c.numRegularBuckets - 1 + e, by omega, rfl⟩
  · rintro (rfl | ⟨b, hb, rfl⟩)
    · exact Or.inl rfl
    · by_cases hreg : b < c.numRegularBuckets
      · exact Or.inr (Or.inl ⟨b, hreg, rfl⟩)
      · -- an extra bucket, which is counted from the last regular one
        refine Or.inr (Or.inr ⟨b - (c.numRegularBuckets - 1), by omega, ?_⟩)
        rw [show c.numRegularBuckets - 1 + (b - (c.numRegularBuckets - 1)) = b by omega]

/-- The parts of a table end where its last bucket does. -/
theorem parts_inside_iff (n : ℕ) :
    (∀ fileOffset, ∀ p ∈ c.parts bucketSize fileOffset, p.Inside ⟨fileOffset, n⟩) ↔
      bucketOffset + c.numTotalBuckets * bucketSize ≤ n := by
  have hpos : 0 < c.numTotalBuckets := Nat.add_pos_left c.numRegularBuckets_pos _
  constructor
  · intro h
    have hlast := (h 0 (bucketAt bucketSize 0 (c.numTotalBuckets - 1))
      ((c.mem_parts bucketSize).mpr (Or.inr ⟨_, by omega, rfl⟩))).2
    have hmul : (c.numTotalBuckets - 1) * bucketSize + bucketSize
        = c.numTotalBuckets * bucketSize := by
      rw [← Nat.succ_mul, Nat.succ_eq_add_one, Nat.sub_add_cancel hpos]
    simp only [bucketAt] at hlast
    omega
  · intro h fileOffset p hp
    have hlog : sizeofRedoLog ≤ bucketOffset := by
      decide
    rcases (c.mem_parts bucketSize).mp hp with rfl | ⟨b, hb, rfl⟩
    · exact ⟨le_rfl, show fileOffset + sizeofRedoLog ≤ fileOffset + n by omega⟩
    · have hmul : (b + 1) * bucketSize ≤ c.numTotalBuckets * bucketSize :=
        Nat.mul_le_mul_right _ hb
      rw [Nat.succ_mul] at hmul
      refine ⟨?_, ?_⟩
      · show fileOffset ≤ fileOffset + bucketOffset + b * bucketSize
        omega
      · show fileOffset + bucketOffset + b * bucketSize + bucketSize ≤ fileOffset + n
        omega

/-- Tables that are placed `n` apart and stay within `n` do not overlap. -/
theorem parts_apart {n i j : ℕ}
    (h : ∀ fileOffset, ∀ p ∈ c.parts bucketSize fileOffset, p.Inside ⟨fileOffset, n⟩)
    (hij : i ≠ j) {p q : Extent} (hp : p ∈ c.parts bucketSize (i * n))
    (hq : q ∈ c.parts bucketSize (j * n)) : p.Apart q := by
  have hrooms : Extent.Apart ⟨i * n, n⟩ ⟨j * n, n⟩ := by
    rcases Nat.lt_or_gt_of_ne hij with hlt | hgt
    · left
      show i * n + n ≤ j * n
      rw [← Nat.succ_mul]
      exact Nat.mul_le_mul_right n hlt
    · right
      show j * n + n ≤ i * n
      rw [← Nat.succ_mul]
      exact Nat.mul_le_mul_right n hgt
  exact hrooms.mono (h _ p hp) (h _ q hq)

/-- The two ways to round, compared. -/
theorem bucketOffset_add_le_iff :
    bucketOffset + c.numTotalBuckets * bucketSize ≤ c.getRequiredBytes bucketSize ↔
      sizeofRedoLog + c.numTotalBuckets * bucketSize + 255 < 2 ^ 64 ∧
        (c.numTotalBuckets * bucketSize % 256 = 0 ∨
          248 < c.numTotalBuckets * bucketSize % 256) := by
  have hoff : bucketOffset = 16640 := by
    decide
  have hlog : sizeofRedoLog = 16392 := by
    decide
  unfold getRequiredBytes
  rw [roundup256_eq, hoff, hlog, ← numTotalBuckets]
  rcases Nat.lt_or_ge c.numTotalBuckets (2 ^ 64) with hlt | hge
  · rw [Nat.mod_eq_of_lt hlt]
    omega
  · -- so many buckets do not fit, unless they are empty
    rcases Nat.eq_zero_or_pos bucketSize with rfl | hpos
    · simp
    · have hle : 2 ^ 64 ≤ c.numTotalBuckets * bucketSize :=
        hge.trans (Nat.le_mul_of_pos_right _ hpos)
      omega

/-- **When `get_required_bytes` is enough.**  The parts of a table stay within the required bytes,
and the tables of two threads do not overlap, exactly if the sizes do not exceed `size_t` and the
bytes of all buckets are a multiple of 256, or at most seven bytes short of one. -/
theorem required_bytes_enough_iff :
    ((∀ fileOffset, ∀ p ∈ c.parts bucketSize fileOffset,
        p.Inside ⟨fileOffset, c.getRequiredBytes bucketSize⟩) ∧
      ∀ i j, i ≠ j → ∀ p ∈ c.parts bucketSize (i * c.getRequiredBytes bucketSize),
        ∀ q ∈ c.parts bucketSize (j * c.getRequiredBytes bucketSize), p.Apart q) ↔
      sizeofRedoLog + c.numTotalBuckets * bucketSize + 255 < 2 ^ 64 ∧
        (c.numTotalBuckets * bucketSize % 256 = 0 ∨
          248 < c.numTotalBuckets * bucketSize % 256) := by
  rw [← c.bucketOffset_add_le_iff, ← c.parts_inside_iff]
  constructor
  · intro h
    exact h.1
  · intro h
    exact ⟨h, fun i j hij p hp q hq => c.parts_apart bucketSize h hij hp hq⟩

end PmicaConf

/-- Five keys without extra buckets, as for `HashMap<size_t, size_t>`. -/
def fiveKeys : PmicaConf ℕ ℕ :=
  ⟨5, 0, 0, 0, id, PmicaMap.sampleConf.requested_ge, PmicaMap.sampleConf.requested_lt⟩

/-- With keys and values of eight bytes, the only bucket of the first table lies in the log of the
second one. -/
theorem required_bytes_too_few :
    ∃ p ∈ fiveKeys.parts 96 (0 * fiveKeys.getRequiredBytes 96),
      ∃ q ∈ fiveKeys.parts 96 (1 * fiveKeys.getRequiredBytes 96), ¬ p.Apart q := by
  have hbytes : fiveKeys.getRequiredBytes 96 = 16640 := by
    decide +kernel
  refine ⟨PmicaConf.bucketAt 96 0 0, ?_, ⟨16640, sizeofRedoLog⟩, ?_, ?_⟩
  · rw [Nat.zero_mul]
    refine (fiveKeys.mem_parts 96).mpr (Or.inr ⟨0, ?_, rfl⟩)
    exact Nat.add_pos_left fiveKeys.numRegularBuckets_pos _
  · rw [hbytes]
    exact (fiveKeys.mem_parts 96).mpr (Or.inl rfl)
  · unfold Extent.Apart
    decide +kernel

end HuiRpc
