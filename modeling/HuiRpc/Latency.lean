/-
# The latency histogram

`src/util/latency.h`: samples in microseconds are counted in bins, five segments of 128 bins that
are 1, 2, 4, 8 and 16 microseconds wide and a last bin for all from 3968 on.

* `binLow us` — the lower bound of the bin of a sample;
* `tally s` — the object that has counted the samples `s`, read off the samples;
* `Records.eq_tally` — any combination of `update` and `+=` comes to that;
* `perc_of_records` — `perc` gives the bin of an order statistic.

Counters are natural numbers, and the fraction that `perc` is called with is rational.
-/
import HuiRpc.Lib.Histograms

namespace HuiRpc

open Histograms

/-- The bins `bin0_`, …, `bin4_` and `bin5_`. -/
@[ext]
structure Latency where
  bin0 : Fin 128 → ℕ
  bin1 : Fin 128 → ℕ
  bin2 : Fin 128 → ℕ
  bin3 : Fin 128 → ℕ
  bin4 : Fin 128 → ℕ
  bin5 : ℕ

namespace Latency

variable {l o : Latency} {s t : Multiset ℕ} {us : ℕ}

/-- `reset`, as the constructor calls it. -/
def reset : Latency := ⟨fun _ => 0, fun _ => 0, fun _ => 0, fun _ => 0, fun _ => 0, 0⟩

/-- `bin[i]++`. -/
def incr (bin : Fin 128 → ℕ) (i : Fin 128) : Fin 128 → ℕ := Function.update bin i (bin i + 1)

def update (l : Latency) (us : ℕ) : Latency :=
  if h : us < 128 then { l with bin0 := incr l.bin0 ⟨us, h⟩ }
  else if h : us < 384 then { l with bin1 := incr l.bin1 ⟨(us - 128) / 2, by omega⟩ }
  else if h : us < 896 then { l with bin2 := incr l.bin2 ⟨(us - 384) / 4, by omega⟩ }
  else if h : us < 1920 then { l with bin3 := incr l.bin3 ⟨(us - 896) / 8, by omega⟩ }
  else if h : us < 3968 then { l with bin4 := incr l.bin4 ⟨(us - 1920) / 16, by omega⟩ }
  else { l with bin5 := l.bin5 + 1 }

/-- `operator+=`. -/
def merge (l o : Latency) : Latency where
  bin0 := fun i => l.bin0 i + o.bin0 i
  bin1 := fun i => l.bin1 i + o.bin1 i
  bin2 := fun i => l.bin2 i + o.bin2 i
  bin3 := fun i => l.bin3 i + o.bin3 i
  bin4 := fun i => l.bin4 i + o.bin4 i
  bin5 := l.bin5 + o.bin5

/-- A loop of `count`. -/
def countBins (bin : Fin 128 → ℕ) (count : ℕ) : ℕ :=
  (List.finRange 128).foldl (fun count i => count + bin i) count

def count (l : Latency) : ℕ :=
  countBins l.bin4 (countBins l.bin3 (countBins l.bin2 (countBins l.bin1 (countBins l.bin0 0))))
    + l.bin5

/-- The counters of a segment with the lower bounds of their bins. -/
def segment (low width : ℕ) (bin : Fin 128 → ℕ) : List (ℕ × ℕ) :=
  (List.finRange 128).map fun i => (bin i, low + i * width)

/-- `static_cast<int64_t>` rounds towards zero. -/
def toInt64 (x : ℚ) : ℤ := if 0 ≤ x then ⌊x⌋ else ⌈x⌉

/-- `perc(p)`; each loop returns at the bin where `thres` becomes negative. -/
def perc (l : Latency) (p : ℚ) : ℕ :=
  let r := do
    let thres ← countdown (segment 0 1 l.bin0) (toInt64 (p * l.count))
    let thres ← countdown (segment 128 2 l.bin1) thres
    let thres ← countdown (segment 384 4 l.bin2) thres
    let thres ← countdown (segment 896 8 l.bin3) thres
    countdown (segment 1920 16 l.bin4) thres
  match r with
  | .error us => us
  | .ok _ => 3968

/-! ## Samples -/

/-- The object has been given the samples, by `update` and by `+=`. -/
inductive Records : Latency → Multiset ℕ → Prop
  | reset : Records reset 0
  | update {l : Latency} {s : Multiset ℕ} (us : ℕ) (h : Records l s) :
      Records (l.update us) (us ::ₘ s)
  | merge {l o : Latency} {s t : Multiset ℕ} (h : Records l s) (h' : Records o t) :
      Records (l.merge o) (s + t)

/-- The lower bound of the bin of a sample. -/
def binLow (us : ℕ) : ℕ :=
  if us < 128 then us
  else if us < 384 then 128 + (us - 128) / 2 * 2
  else if us < 896 then 384 + (us - 384) / 4 * 4
  else if us < 1920 then 896 + (us - 896) / 8 * 8
  else if us < 3968 then 1920 + (us - 1920) / 16 * 16
  else 3968

theorem binLow_eq (us : ℕ) :
    (us < 128 ∧ binLow us = us) ∨
    (128 ≤ us ∧ us < 384 ∧ binLow us = 128 + (us - 128) / 2 * 2) ∨
    (384 ≤ us ∧ us < 896 ∧ binLow us = 384 + (us - 384) / 4 * 4) ∨
    (896 ≤ us ∧ us < 1920 ∧ binLow us = 896 + (us - 896) / 8 * 8) ∨
    (1920 ≤ us ∧ us < 3968 ∧ binLow us = 1920 + (us - 1920) / 16 * 16) ∨
    (3968 ≤ us ∧ binLow us = 3968) := by
  unfold binLow
  split_ifs <;> omega

theorem binLow_mono : Monotone binLow := by
  intro a b hab
  have ha := binLow_eq a
  have hb := binLow_eq b
  omega

/-- Every sample in its bin. -/
def tally (s : Multiset ℕ) : Latency :=
  let n low := (s.map binLow).count low
  { bin0 := fun i => n (0 + i * 1)
    bin1 := fun i => n (128 + i * 2)
    bin2 := fun i => n (384 + i * 4)
    bin3 := fun i => n (896 + i * 8)
    bin4 := fun i => n (1920 + i * 16)
    bin5 := n 3968 }

theorem tally_zero : tally 0 = reset := rfl

/-- A bin after one more sample. -/
theorem count_binLow_cons (low us : ℕ) (s : Multiset ℕ) :
    ((us ::ₘ s).map binLow).count low
      = if low = binLow us then (s.map binLow).count low + 1 else (s.map binLow).count low := by
  rw [Multiset.map_cons, Multiset.count_cons]
  split_ifs <;> rfl

theorem incr_apply (bin : Fin 128 → ℕ) (i j : Fin 128) :
    incr bin i j = if j = i then bin j + 1 else bin j := by
  unfold incr
  by_cases h : j = i
  · rw [if_pos h, h, Function.update_self]
  · rw [if_neg h, Function.update_of_ne h]

theorem update_tally (us : ℕ) (s : Multiset ℕ) : (tally s).update us = tally (us ::ₘ s) := by
  have hlow := binLow_eq us
  unfold update
  -- a counter is raised exactly when the lower bound of its bin is that of the sample
  split_ifs with h0 h1 h2 h3 h4 <;> ext i <;>
    simp only [tally, incr_apply, count_binLow_cons, Fin.ext_iff] <;> split_ifs <;> omega

theorem merge_tally (s t : Multiset ℕ) : (tally s).merge (tally t) = tally (s + t) := by
  unfold merge tally
  simp only [Multiset.map_add, Multiset.count_add]

/-- **The object is determined by the samples.** -/
theorem Records.eq_tally (h : Records l s) : l = tally s := by
  induction h with
  | reset => exact tally_zero.symm
  | update us _ ih => rw [ih, update_tally]
  | merge _ _ ih ih' => rw [ih, ih', merge_tally]

/-! ## Order statistics -/

/-- All bins, from the lowest on. -/
def bins (l : Latency) : List (ℕ × ℕ) :=
  segment 0 1 l.bin0 ++ segment 128 2 l.bin1 ++ segment 384 4 l.bin2 ++ segment 896 8 l.bin3 ++
    segment 1920 16 l.bin4

/-- The lower bounds of all bins. -/
def lows : List ℕ := (bins reset).map Prod.snd ++ [3968]

theorem pairwise_lows : lows.Pairwise (· < ·) :=
  List.isChain_iff_pairwise.mp (by decide +kernel)

theorem binLow_mem_lows (us : ℕ) : binLow us ∈ lows := by
  have hseg : ∀ low width i : ℕ, i < 128 →
      low + i * width ∈ (segment low width fun _ => 0).map Prod.snd := by
    intro low width i hi
    refine List.mem_map.mpr ⟨_, List.mem_map.mpr ⟨⟨i, hi⟩, List.mem_finRange _, rfl⟩, rfl⟩
  unfold lows bins
  simp only [List.map_append, List.mem_append]
  rcases binLow_eq us with ⟨h, hb⟩ | ⟨-, h, hb⟩ | ⟨-, h, hb⟩ | ⟨-, h, hb⟩ | ⟨-, h, hb⟩ | ⟨-, hb⟩
  · have hlow := hseg 0 1 us h
    rw [Nat.zero_add, Nat.mul_one, ← hb] at hlow
    exact .inl (.inl (.inl (.inl (.inl hlow))))
  · exact .inl (.inl (.inl (.inl (.inr (hb ▸ hseg 128 2 _ (by omega))))))
  · exact .inl (.inl (.inl (.inr (hb ▸ hseg 384 4 _ (by omega)))))
  · exact .inl (.inl (.inr (hb ▸ hseg 896 8 _ (by omega))))
  · exact .inl (.inr (hb ▸ hseg 1920 16 _ (by omega)))
  · exact .inr (List.mem_singleton.mpr hb)

theorem sum_segment (low width : ℕ) (bin : Fin 128 → ℕ) (n : ℕ) :
    countBins bin n = n + ((segment low width bin).map Prod.fst).sum := by
  unfold countBins segment
  generalize List.finRange 128 = is
  induction is generalizing n with
  | nil => rfl
  | cons i is ih =>
    rw [List.foldl_cons, ih]
    simp only [List.map_cons, List.sum_cons]
    omega

theorem count_eq (l : Latency) : l.count = (expand (l.bins ++ [(l.bin5, 3968)])).length := by
  rw [length_expand]
  unfold count bins
  rw [sum_segment 1920 16, sum_segment 896 8, sum_segment 384 4, sum_segment 128 2,
    sum_segment 0 1]
  simp only [List.map_append, List.sum_append, List.map_cons, List.map_nil, List.sum_cons,
    List.sum_nil]
  omega

/-- `perc` reads the bins at the threshold. -/
theorem perc_eq {p : ℚ} {k b : ℕ} (hk : toInt64 (p * l.count) = k)
    (h : (expand (l.bins ++ [(l.bin5, 3968)]))[k]? = some b) : l.perc p = b := by
  have hperc : l.perc p = match countdown l.bins k with
      | .error us => us
      | .ok _ => 3968 := by
    unfold perc bins
    simp only [hk, List.append_assoc, countdown_append]
  rw [hperc]
  rw [expand_append] at h
  by_cases hlt : k < (expand l.bins).length
  · rw [List.getElem?_append_left hlt] at h
    rw [countdown_of_lt h]
  · rw [List.getElem?_append_right (not_lt.mp hlt)] at h
    rw [countdown_of_le (not_lt.mp hlt)]
    have hb := List.mem_of_getElem? h
    rw [expand_cons, show expand ([] : List (ℕ × ℕ)) = [] from rfl, List.append_nil] at hb
    exact (List.eq_of_mem_replicate hb).symm

/-- The bins of the samples, written out, are the sorted samples. -/
theorem expand_tally (s : Multiset ℕ) :
    expand ((tally s).bins ++ [((tally s).bin5, 3968)]) = s.sort.map binLow := by
  have hcount : (tally s).bins ++ [((tally s).bin5, 3968)]
      = lows.map fun b => ((s.sort.map binLow).count b, b) := by
    have hs : ∀ b, (s.sort.map binLow).count b = (s.map binLow).count b := by
      intro b
      rw [← Multiset.coe_count, ← Multiset.map_coe, Multiset.sort_eq]
    simp only [hs, lows, bins, segment, List.map_append, List.map_map]
    rfl
  rw [hcount]
  apply expand_counts pairwise_lows
  · exact (Multiset.pairwise_sort s _).map _ fun _ _ h => binLow_mono h
  · intro y hy
    obtain ⟨us, -, rfl⟩ := List.mem_map.mp hy
    exact binLow_mem_lows us

theorem toInt64_floor {n : ℕ} {p : ℚ} (hp : 0 ≤ p) : toInt64 (p * n) = ⌊p * n⌋₊ := by
  have hpos : 0 ≤ p * n := mul_nonneg hp (Nat.cast_nonneg n)
  unfold toInt64
  rw [if_pos hpos, Int.natCast_floor_eq_floor hpos]

theorem foldl_update_tally (us : List ℕ) (s : Multiset ℕ) :
    us.foldl update (tally s) = tally (s + us) := by
  induction us generalizing s with
  | nil => rw [List.foldl_nil, Multiset.coe_nil, add_zero]
  | cons u us ih =>
    rw [List.foldl_cons, update_tally, ih, ← Multiset.cons_coe, Multiset.cons_add,
      Multiset.add_cons]

/-- **Percentiles of any combination of `update` and `+=`.** -/
theorem perc_of_records (h : Records l s) (hs : 0 < s.card) :
    l.count = s.card ∧
    (∀ p : ℚ, 0 ≤ p → p < 1 →
      ∃ us, s.sort[⌊p * s.card⌋₊]? = some us ∧ l.perc p = binLow us) ∧
    ∀ (o : Latency) (us : List ℕ), Records o us → l.merge o = us.foldl update l := by
  obtain rfl := h.eq_tally
  have hcount : (tally s).count = s.card := by
    rw [count_eq, expand_tally, List.length_map, Multiset.length_sort]
  refine ⟨hcount, ?_, ?_⟩
  · intro p hp hp1
    have hk : ⌊p * s.card⌋₊ < s.sort.length := by
      rw [Multiset.length_sort, Nat.floor_lt (mul_nonneg hp (Nat.cast_nonneg _))]
      exact mul_lt_of_lt_one_left (Nat.cast_pos.mpr hs) hp1
    refine ⟨_, List.getElem?_eq_getElem hk, perc_eq (k := ⌊p * s.card⌋₊) ?_ ?_⟩
    · rw [hcount, toInt64_floor hp]
    · rw [expand_tally, List.getElem?_map, List.getElem?_eq_getElem hk]
      rfl
  · intro o us ho
    rw [ho.eq_tally, merge_tally, foldl_update_tally]

/-- Three samples, one of them merged in from another object. -/
theorem perc_of_records_three :
    ((reset.update 300).update 5000 |>.merge (reset.update 7)).count = 3 ∧
      ((reset.update 300).update 5000 |>.merge (reset.update 7)).perc (1 / 2) = 300 := by
  have h : Records ((reset.update 300).update 5000 |>.merge (reset.update 7)) {5000, 300, 7} :=
    ((Records.reset.update 300).update 5000).merge (Records.reset.update 7)
  obtain ⟨hcount, hperc, -⟩ := perc_of_records h (by decide)
  refine ⟨hcount, ?_⟩
  obtain ⟨us, hus, heq⟩ := hperc (1 / 2) (by norm_num) (by norm_num)
  have hk : ⌊(1 / 2 : ℚ) * (Multiset.card {5000, 300, 7} : ℕ)⌋₊ = 1 := by
    norm_num [Nat.floor_eq_iff]
  rw [hk] at hus
  have hsort : Multiset.sort {5000, 300, 7} = [7, 300, 5000] := by
    rw [show ({5000, 300, 7} : Multiset ℕ) = 7 ::ₘ 300 ::ₘ {5000} by decide,
      Multiset.sort_cons, Multiset.sort_cons, Multiset.sort_singleton] <;> decide
  rw [hsort] at hus
  rw [heq, ← Option.some.inj hus]
  rfl

end Latency

end HuiRpc
