/-
# The persistent hash table is a finite map

Refinement of the table of `HuiRpc.Pmica` to a map from keys to values.

* `TableOk c t tail` — the bucket chains, which do not meet, lie inside the table and end, and
  every valid key stands in one slot of the chain that its hash belongs to;
* `Reads t M` — the slots hold the map `M`;
* `find_spec`, `getEmpty_spec` — the searches end, and what they find;
* `setNodrain_spec` — a SET either updates the map or changes nothing;
* `hashMap_refines_map` — any sequence of calls.
-/
import HuiRpc.Pmica
import HuiRpc.Lib.Chains

namespace HuiRpc

open Chains

/-! ## The number of buckets -/

/-- Smearing the bits does not make a number longer. -/
theorem smear_lt {v n : ℕ} (h : v < 2 ^ n) (k : ℕ) : v ||| v >>> k < 2 ^ n :=
  Nat.or_lt_two_pow h (lt_of_le_of_lt (Nat.shiftRight_le v k) h)

theorem rteAlign64pow2_pos {v : ℕ} (h0 : 0 < v) (h : v ≤ 2 ^ 62) : 0 < rteAlign64pow2 v := by
  have hpred : (v + (2 ^ 64 - 1)) % 2 ^ 64 = v - 1 := by
    omega
  have hlt : v - 1 < 2 ^ 62 := by
    omega
  have hsmear := smear_lt (smear_lt (smear_lt (smear_lt (smear_lt (smear_lt hlt 1) 2) 4) 8) 16) 32
  unfold rteAlign64pow2
  rw [hpred, Nat.mod_eq_of_lt (by omega)]
  exact Nat.succ_pos _

namespace PmicaConf

variable {K V : Type} (c : PmicaConf K V)

theorem numRegularBuckets_pos : 0 < c.numRegularBuckets := by
  have h5 : (5 : ℕ) ≤ c.numRequestedKeys := c.requested_ge
  have hlt := c.requested_lt
  apply rteAlign64pow2_pos
  · show 0 < c.numRequestedKeys / 5
    omega
  · show c.numRequestedKeys / 5 ≤ 2 ^ 62
    omega

theorem bucketIndex_lt (keyHash : ℕ) : c.bucketIndex keyHash < c.numRegularBuckets := by
  have hpos := c.numRegularBuckets_pos
  have hle : c.bucketIndex keyHash ≤ c.numRegularBuckets - 1 := Nat.and_le_right
  omega

end PmicaConf

namespace PmicaTable

variable {K V : Type} {c : PmicaConf K V} {t t' : PmicaTable K V} {k : K} {v : V}
  {b e fuel : ℕ} {i : Fin kSlotsPerBucket} {tail : ℕ → List ℕ}

/-! ## Chains of buckets -/

/-- The bucket behind a bucket. -/
def links (c : PmicaConf K V) (t : PmicaTable K V) (b : ℕ) : Option ℕ :=
  if (t.buckets b).nextExtraBucketIdx = 0 then none
  else some (c.extraBucket (t.buckets b).nextExtraBucketIdx)

def keyAt (t : PmicaTable K V) (b : ℕ) (i : Fin kSlotsPerBucket) : K := ((t.buckets b).slotArr i).key

/-- The chains of buckets; that of the regular bucket `j` is `j :: tail j`. -/
structure ChainsOk (c : PmicaConf K V) (t : PmicaTable K V) (tail : ℕ → List ℕ) : Prop where
  family : Family (t.links c) c.numRegularBuckets tail (t.extraBucketFreeList.map c.extraBucket)
    c.numTotalBuckets
  /-- Free extra buckets are numbered from one on and end a chain. -/
  free_pos : ∀ e ∈ t.extraBucketFreeList, 0 < e
  free_next : ∀ e ∈ t.extraBucketFreeList, (t.buckets (c.extraBucket e)).nextExtraBucketIdx = 0

/-- The representation invariant. -/
structure TableOk (c : PmicaConf K V) (t : PmicaTable K V) (tail : ℕ → List ℕ) : Prop
    extends ChainsOk c t tail where
  /-- Free extra buckets are empty. -/
  free_key : ∀ e ∈ t.extraBucketFreeList, ∀ i, t.keyAt (c.extraBucket e) i = c.invalidKey
  /-- A valid key stands in the chain of its hash. -/
  home : ∀ b i, t.keyAt b i ≠ c.invalidKey →
    b ∈ c.bucketIndex (c.hash (t.keyAt b i)) :: tail (c.bucketIndex (c.hash (t.keyAt b i)))
  /-- A valid key stands in one slot. -/
  unique : ∀ b i b' i', t.keyAt b i = t.keyAt b' i' → t.keyAt b i ≠ c.invalidKey →
    b = b' ∧ i = i'

/-- The slots hold the map `M`. -/
def Reads (c : PmicaConf K V) (t : PmicaTable K V) (M : K → Option V) : Prop :=
  ∀ k, k ≠ c.invalidKey → ∀ v, M k = some v ↔ ∃ b i, (t.buckets b).slotArr i = ⟨k, v⟩

theorem init_chainsOk (c : PmicaConf K V) : ChainsOk c (init c) fun _ => [] where
  family := by
    have hstart : Family ((init c).links c) c.numRegularBuckets (fun _ => []) []
        c.numRegularBuckets := Family.start (fun _ _ => rfl) le_rfl
    rw [← List.append_nil (List.map _ _)]
    refine hstart.grow ?_ ?_ (Nat.le_add_right _ _)
    · refine (List.nodup_reverse.mpr List.nodup_range').map fun x y hxy => ?_
      exact Nat.add_left_cancel hxy
    · intro x hx
      obtain ⟨e, he, rfl⟩ := List.mem_map.mp hx
      have hmem := List.mem_range'_1.mp (List.mem_reverse.mp he)
      have hpos := c.numRegularBuckets_pos
      unfold PmicaConf.extraBucket PmicaConf.numTotalBuckets
      omega
  free_pos := by
    intro e he
    exact (List.mem_range'_1.mp (List.mem_reverse.mp he)).1
  free_next := fun _ _ => rfl

theorem init_ok (c : PmicaConf K V) : TableOk c (init c) fun _ => [] where
  toChainsOk := init_chainsOk c
  free_key := fun _ _ _ => rfl
  home := fun _ _ h => absurd rfl h
  unique := fun _ _ _ _ _ h => absurd rfl h

theorem init_reads (c : PmicaConf K V) : Reads c (init c) fun _ => none := by
  intro k hk v
  refine iff_of_false (by simp) ?_
  rintro ⟨b, i, h⟩
  exact hk (congrArg Slot.key h).symm

/-- A bucket that ends its chain, and one that does not. -/
theorem links_eq_none : t.links c b = none ↔ (t.buckets b).nextExtraBucketIdx = 0 := by
  unfold links
  split_ifs with h <;> simp [h]

theorem links_eq_some {r : ℕ} : t.links c b = some r ↔
    (t.buckets b).nextExtraBucketIdx ≠ 0 ∧ c.extraBucket (t.buckets b).nextExtraBucketIdx = r := by
  unfold links
  split_ifs with h <;> simp [h]

/-- The table is in order and holds the map `M`. -/
def Rep (c : PmicaConf K V) (t : PmicaTable K V) (M : K → Option V) : Prop :=
  (∃ tail, TableOk c t tail) ∧ Reads c t M

theorem rep_init (c : PmicaConf K V) : Rep c (init c) fun _ => none :=
  ⟨⟨_, init_ok c⟩, init_reads c⟩

/-! ## Writes -/

theorem setSlot_slotArr (t : PmicaTable K V) (b : ℕ) (i : Fin kSlotsPerBucket) (s : Slot K V)
    (b' : ℕ) (i' : Fin kSlotsPerBucket) :
    ((t.setSlot b i s).buckets b').slotArr i'
      = if b' = b ∧ i' = i then s else (t.buckets b').slotArr i' := by
  unfold setSlot
  by_cases hb : b' = b
  · subst hb
    simp [Function.update_apply]
  · simp [hb]

theorem setSlot_next (t : PmicaTable K V) (b : ℕ) (i : Fin kSlotsPerBucket) (s : Slot K V)
    (b' : ℕ) : ((t.setSlot b i s).buckets b').nextExtraBucketIdx
      = (t.buckets b').nextExtraBucketIdx := by
  unfold setSlot
  by_cases hb : b' = b
  · subst hb
    simp
  · simp [hb]

theorem setNext_slotArr (t : PmicaTable K V) (b e b' : ℕ) :
    ((t.setNext b e).buckets b').slotArr = (t.buckets b').slotArr := by
  unfold setNext
  by_cases hb : b' = b
  · subst hb
    simp
  · simp [hb]

theorem setNext_next (t : PmicaTable K V) (b e b' : ℕ) :
    ((t.setNext b e).buckets b').nextExtraBucketIdx
      = if b' = b then e else (t.buckets b').nextExtraBucketIdx := by
  unfold setNext
  by_cases hb : b' = b
  · subst hb
    simp
  · simp [hb]

/-- The slot for a key: its own or an empty one of its chain, with the key nowhere else. -/
structure Fits (c : PmicaConf K V) (t : PmicaTable K V) (tail : ℕ → List ℕ) (k : K) (b : ℕ)
    (i : Fin kSlotsPerBucket) : Prop where
  mem : b ∈ c.bucketIndex (c.hash k) :: tail (c.bucketIndex (c.hash k))
  key : t.keyAt b i = k ∨ t.keyAt b i = c.invalidKey
  only : ∀ b' i', t.keyAt b' i' = k → b' = b ∧ i' = i

/-- Writing a slot leaves the chains. -/
theorem ChainsOk.setSlot (h : ChainsOk c t tail) (b : ℕ) (i : Fin kSlotsPerBucket)
    (s : Slot K V) : ChainsOk c (t.setSlot b i s) tail := by
  refine ⟨h.family.congr fun j hj x hx => ?_, h.free_pos, fun e he => ?_⟩
  · unfold links
    rw [setSlot_next]
  · rw [setSlot_next]
    exact h.free_next e he

/-- **A slot is written**: the invariant is kept. -/
theorem TableOk.setSlot (h : TableOk c t tail) (hf : Fits c t tail k b i) (v : V) :
    TableOk c (t.setSlot b i ⟨k, v⟩) tail := by
  have hkey : ∀ b' i', (t.setSlot b i ⟨k, v⟩).keyAt b' i'
      = if b' = b ∧ i' = i then k else t.keyAt b' i' := by
    intro b' i'
    unfold keyAt
    rw [setSlot_slotArr]
    split_ifs <;> rfl
  -- a bucket of a chain is not free
  have hnotfree : ∀ e ∈ t.extraBucketFreeList, c.extraBucket e ≠ b := by
    rintro e he rfl
    exact h.family.notMem_free (c.bucketIndex_lt _) hf.mem (List.mem_map.mpr ⟨e, he, rfl⟩)
  refine ⟨h.toChainsOk.setSlot b i _, ?_, ?_, ?_⟩
  · intro e he i'
    rw [hkey, if_neg fun hc => hnotfree e he hc.1]
    exact h.free_key e he i'
  · intro b' i' hvalid
    rw [hkey] at hvalid ⊢
    split_ifs at hvalid ⊢ with hat
    · rw [hat.1]
      exact hf.mem
    · exact h.home b' i' hvalid
  · intro b1 i1 b2 i2 heq hvalid
    rw [hkey] at hvalid
    rw [hkey, hkey] at heq
    split_ifs at heq hvalid with h1 h2 h2
    · exact ⟨h1.1.trans h2.1.symm, h1.2.trans h2.2.symm⟩
    · exact absurd (hf.only b2 i2 heq.symm) h2
    · exact absurd (hf.only b1 i1 heq) h1
    · exact h.unique b1 i1 b2 i2 heq hvalid

/-- What `alloc_extra_bucket` changes. -/
theorem allocExtraBucket_spec (ha : t.allocExtraBucket b = some (t', e)) :
    t.extraBucketFreeList = e :: t'.extraBucketFreeList ∧
      (∀ b', (t'.buckets b').slotArr = (t.buckets b').slotArr) ∧
      ∀ b', (t'.buckets b').nextExtraBucketIdx
        = if b' = b then e else (t.buckets b').nextExtraBucketIdx := by
  unfold allocExtraBucket at ha
  split at ha
  · cases ha
  · next e' rest hfree =>
    obtain ⟨rfl, rfl⟩ := Prod.mk.inj (Option.some.inj ha)
    exact ⟨hfree, setNext_slotArr _ b e', setNext_next _ b e'⟩

/-- **An extra bucket is linked** behind the last bucket of a chain. -/
theorem ChainsOk.allocExtraBucket {j : ℕ} (h : ChainsOk c t tail) (hj : j < c.numRegularBuckets)
    (ha : t.allocExtraBucket (tip j (tail j)) = some (t', e)) :
    ChainsOk c t' (Function.update tail j (tail j ++ [c.extraBucket e])) := by
  obtain ⟨hfree, -, hnext⟩ := allocExtraBucket_spec ha
  have hmem : e ∈ t.extraBucketFreeList := by
    rw [hfree]
    exact List.mem_cons_self ..
  have hsub : ∀ e' ∈ t'.extraBucketFreeList, e' ∈ t.extraBucketFreeList := by
    rw [hfree]
    exact fun e' he => List.mem_cons_of_mem e he
  -- a free bucket is not the last bucket of the chain
  have hne : ∀ e' ∈ t.extraBucketFreeList, c.extraBucket e' ≠ tip j (tail j) := by
    intro e' he heq
    exact h.family.notMem_free hj (tip_mem j (tail j)) (List.mem_map.mpr ⟨e', he, heq⟩)
  have hfam := h.family
  rw [hfree] at hfam
  refine ⟨?_, fun e' he => h.free_pos e' (hsub e' he), ?_⟩
  · refine hfam.extend hj ?_ ?_ ?_
    · rw [links_eq_some, hnext, if_pos rfl]
      exact ⟨(h.free_pos e hmem).ne', rfl⟩
    · rw [links_eq_none, hnext, if_neg (hne e hmem)]
      exact h.free_next e hmem
    · intro x hx _
      unfold links
      rw [hnext, if_neg hx]
  · intro e' he
    rw [hnext, if_neg (hne e' (hsub e' he))]
    exact h.free_next e' (hsub e' he)

/-- The new bucket is empty, and no slot changes. -/
theorem TableOk.allocExtraBucket {j : ℕ} (h : TableOk c t tail) (hj : j < c.numRegularBuckets)
    (ha : t.allocExtraBucket (tip j (tail j)) = some (t', e)) :
    TableOk c t' (Function.update tail j (tail j ++ [c.extraBucket e])) ∧
      (∀ b, (t'.buckets b).slotArr = (t.buckets b).slotArr) ∧
      ∀ i, t.keyAt (c.extraBucket e) i = c.invalidKey := by
  obtain ⟨hfree, hslot, -⟩ := allocExtraBucket_spec ha
  have hkey : ∀ b i, t'.keyAt b i = t.keyAt b i := by
    intro b i
    unfold keyAt
    rw [hslot]
  have hsub : ∀ e' ∈ e :: t'.extraBucketFreeList, e' ∈ t.extraBucketFreeList := by
    rw [hfree]
    exact fun e' he => he
  refine ⟨⟨h.toChainsOk.allocExtraBucket hj ha, ?_, ?_, ?_⟩, hslot,
    h.free_key e (hsub e List.mem_cons_self)⟩
  · intro e' he i
    rw [hkey]
    exact h.free_key e' (hsub e' (List.mem_cons_of_mem e he)) i
  · intro b i hvalid
    rw [hkey] at hvalid ⊢
    have hhome := h.home b i hvalid
    by_cases hji : c.bucketIndex (c.hash (t.keyAt b i)) = j
    · rw [hji] at hhome ⊢
      rw [Function.update_self]
      exact List.mem_append_left _ hhome
    · rw [Function.update_of_ne hji]
      exact hhome
  · intro b1 i1 b2 i2 heq hvalid
    rw [hkey, hkey] at heq
    rw [hkey] at hvalid
    exact h.unique b1 i1 b2 i2 heq hvalid

variable [DecidableEq K]

/-- **A slot is written**: the map is updated. -/
theorem Reads.setSlot {M : K → Option V} (h : Reads c t M) (hf : Fits c t tail k b i)
    (v : V) : Reads c (t.setSlot b i ⟨k, v⟩) (Function.update M k (some v)) := by
  intro k' hk' v'
  by_cases hkk : k' = k
  · subst hkk
    rw [Function.update_self, Option.some.injEq]
    constructor
    · rintro rfl
      exact ⟨b, i, by rw [setSlot_slotArr, if_pos ⟨rfl, rfl⟩]⟩
    · rintro ⟨b', i', hslot⟩
      rw [setSlot_slotArr] at hslot
      split_ifs at hslot with hat
      · exact (congrArg Slot.value hslot)
      · exact absurd (hf.only b' i' (congrArg Slot.key hslot)) hat
  · rw [Function.update_of_ne hkk, h k' hk' v']
    constructor
    · rintro ⟨b', i', hslot⟩
      refine ⟨b', i', ?_⟩
      rw [setSlot_slotArr, if_neg]
      · exact hslot
      · -- the slot that is written held the key or none
        rintro ⟨rfl, rfl⟩
        have hold : t.keyAt b' i' = k' := congrArg Slot.key hslot
        rcases hf.key with hkey | hkey
        · exact hkk (hold.symm.trans hkey)
        · exact hk' (hold.symm.trans hkey)
    · rintro ⟨b', i', hslot⟩
      rw [setSlot_slotArr] at hslot
      split_ifs at hslot with hat
      · exact absurd (congrArg Slot.key hslot).symm hkk
      · exact ⟨b', i', hslot⟩

/-! ## Searches -/

theorem findSlot_eq_none {bkt : Bucket K V} : findSlot bkt k = none ↔
    ∀ i, (bkt.slotArr i).key ≠ k := by
  unfold findSlot
  simp [List.find?_eq_none]

theorem key_of_findSlot {bkt : Bucket K V} (h : findSlot bkt k = some i) :
    (bkt.slotArr i).key = k := by
  simpa using List.find?_some h

/-- `find_item_index` walks along the chain. -/
theorem findItemIndex_eq_walk (c : PmicaConf K V) (t : PmicaTable K V) (k : K) (fuel b : ℕ) :
    findItemIndex c t k fuel b = walk (t.links c)
      (fun b => (findSlot (t.buckets b) k).map fun i => some (b, i)) (fun _ => none) fuel b := by
  induction fuel generalizing b with
  | zero => rfl
  | succ fuel ih =>
    rw [findItemIndex, walk]
    cases findSlot (t.buckets b) k with
    | some i => rfl
    | none =>
      dsimp only [Option.map_none]
      unfold links
      split_ifs
      · rfl
      · exact ih _

/-- **`find_item_index`** ends, and finds the key if it is in the chain. -/
theorem find_spec {l : List ℕ} (h : Path (t.links c) b l) (hfuel : (b :: l).length ≤ fuel) :
    (findItemIndex c t k fuel b = some none ∧ ∀ b' ∈ b :: l, ∀ i, t.keyAt b' i ≠ k) ∨
    ∃ b' i, findItemIndex c t k fuel b = some (some (b', i)) ∧ b' ∈ b :: l ∧ t.keyAt b' i = k := by
  rw [findItemIndex_eq_walk]
  rcases walk_spec h hfuel with ⟨b', hb', x, hlook, hwalk⟩ | ⟨hno, hwalk⟩
  · obtain ⟨i, hi, rfl⟩ := Option.map_eq_some_iff.mp hlook
    exact Or.inr ⟨b', i, hwalk, hb', key_of_findSlot hi⟩
  · refine Or.inl ⟨hwalk, fun b' hb' => ?_⟩
    exact findSlot_eq_none.mp (Option.map_eq_none_iff.mp (hno b' hb'))

theorem getEmpty_eq_walk (c : PmicaConf K V) (t : PmicaTable K V) (fuel b : ℕ) :
    getEmpty c t fuel b = walk (t.links c)
      (fun b => (findSlot (t.buckets b) c.invalidKey).map fun i => (t, some (b, i), []))
      (t.growChain c) fuel b := by
  induction fuel generalizing b with
  | zero => rfl
  | succ fuel ih =>
    rw [getEmpty, walk]
    cases findSlot (t.buckets b) c.invalidKey with
    | some i => rfl
    | none =>
      dsimp only [Option.map_none]
      unfold links
      split_ifs
      · rfl
      · exact ih _

/-- **`get_empty`** ends, and allocates an extra bucket only if all slots of the chain are
taken. -/
theorem getEmpty_spec {l : List ℕ} (h : Path (t.links c) b l) (hfuel : (b :: l).length ≤ fuel) :
    (∃ b' i, getEmpty c t fuel b = some (t, some (b', i), []) ∧ b' ∈ b :: l ∧
      t.keyAt b' i = c.invalidKey) ∨
    getEmpty c t fuel b = some (t.growChain c (tip b l)) := by
  rw [getEmpty_eq_walk]
  rcases walk_spec h hfuel with ⟨b', hb', x, hlook, hwalk⟩ | ⟨-, hwalk⟩
  · obtain ⟨i, hi, rfl⟩ := Option.map_eq_some_iff.mp hlook
    exact Or.inl ⟨b', i, hwalk, hb', key_of_findSlot hi⟩
  · exact Or.inr hwalk

/-! ## The operations -/

/-- **`get`** reads the map. -/
theorem get_spec {M : K → Option V} (h : Rep c t M) (hk : k ≠ c.invalidKey) :
    t.get c (c.hash k) k = some (M k) := by
  obtain ⟨⟨tail, hok⟩, hreads⟩ := h
  have hj := c.bucketIndex_lt (c.hash k)
  unfold get
  rcases find_spec (k := k) (hok.family.path _ hj) (hok.family.length_le hj) with
    ⟨hres, hno⟩ | ⟨b, i, hres, -, hkey⟩
  · rw [hres]
    cases hM : M k with
    | none => rfl
    | some v =>
      obtain ⟨b, i, hslot⟩ := (hreads k hk v).mp hM
      have hkey : t.keyAt b i = k := congrArg Slot.key hslot
      have hhome := hok.home b i (hkey ▸ hk)
      rw [hkey] at hhome
      exact absurd hkey (hno b hhome i)
  · rw [hres]
    have hM := (hreads k hk ((t.buckets b).slotArr i).value).mpr ⟨b, i, by rw [← hkey]; rfl⟩
    rw [hM]
    rfl

/-- Where a key that is not in the table goes. -/
theorem getEmpty_fits {M : K → Option V} (hok : TableOk c t tail) (hr : Reads c t M)
    (hno : ∀ b i, t.keyAt b i ≠ k) :
    ∃ t' empty ops, getEmpty c t c.numTotalBuckets (c.bucketIndex (c.hash k))
        = some (t', empty, ops) ∧
      ((empty = none ∧ t' = t) ∨ ∃ b i tail', empty = some (b, i) ∧ TableOk c t' tail' ∧
        Reads c t' M ∧ Fits c t' tail' k b i) := by
  have hj := c.bucketIndex_lt (c.hash k)
  rcases getEmpty_spec (hok.family.path _ hj) (hok.family.length_le hj) with
    ⟨b, i, hres, hmem, hkey⟩ | hres
  · refine ⟨t, some (b, i), [], hres, Or.inr ⟨b, i, tail, rfl, hok, hr, hmem, Or.inr hkey, ?_⟩⟩
    exact fun b' i' hb' => absurd hb' (hno b' i')
  · rw [hres]
    unfold growChain
    cases halloc : t.allocExtraBucket (tip _ (tail (c.bucketIndex (c.hash k)))) with
    | none => exact ⟨t, none, [], rfl, Or.inl ⟨rfl, rfl⟩⟩
    | some x =>
      obtain ⟨t', e⟩ := x
      obtain ⟨hok', hslot, hempty⟩ := hok.allocExtraBucket hj halloc
      have hkeys : ∀ b i, t'.keyAt b i = t.keyAt b i := by
        intro b i
        unfold keyAt
        rw [hslot]
      refine ⟨t', _, _, rfl, Or.inr ⟨c.extraBucket e, 0, _, rfl, hok', ?_, ?_, Or.inr ?_, ?_⟩⟩
      · intro k' hk' v'
        rw [hr k' hk' v']
        simp only [hslot]
      · simp
      · rw [hkeys]
        exact hempty 0
      · intro b' i' hb'
        rw [hkeys] at hb'
        exact absurd hb' (hno b' i')

/-- **`set_nodrain`** updates the map, or has no room and changes nothing. -/
theorem setNodrain_spec {M : K → Option V} (h : Rep c t M) (hk : k ≠ c.invalidKey)
    (opts : PmicaOpts) (v : V) :
    ∃ t' ok ops, t.setNodrain c opts (c.hash k) k v = some (t', ok, ops) ∧
      ((ok = true ∧ Rep c t' (Function.update M k (some v))) ∨ (ok = false ∧ t' = t)) := by
  obtain ⟨⟨tail, hok⟩, hr⟩ := h
  have hj := c.bucketIndex_lt (c.hash k)
  unfold setNodrain
  rcases find_spec (k := k) (hok.family.path _ hj) (hok.family.length_le hj) with
    ⟨hres, hno⟩ | ⟨b, i, hres, hmem, hkey⟩
  · have hnowhere : ∀ b i, t.keyAt b i ≠ k := by
      intro b i hkey
      have hhome := hok.home b i (hkey ▸ hk)
      rw [hkey] at hhome
      exact hno b hhome i hkey
    obtain ⟨t', empty, ops, hempty, hcase⟩ := getEmpty_fits hok hr hnowhere
    rw [hres]
    simp only [hempty]
    rcases hcase with ⟨rfl, rfl⟩ | ⟨b, i, tail', rfl, hok', hr', hfits⟩
    · exact ⟨t', false, ops, rfl, Or.inr ⟨rfl, rfl⟩⟩
    · exact ⟨_, true, _, rfl, Or.inl ⟨rfl, ⟨tail', hok'.setSlot hfits v⟩, hr'.setSlot hfits v⟩⟩
  · have hfits : Fits c t tail k b i := by
      refine ⟨hmem, Or.inl hkey, fun b' i' hb' => ?_⟩
      exact hok.unique b' i' b i (hb'.trans hkey.symm) (hb' ▸ hk)
    rw [hres]
    exact ⟨_, true, _, rfl, Or.inl ⟨rfl, ⟨tail, hok.setSlot hfits v⟩, hr.setSlot hfits v⟩⟩

end PmicaTable

/-! ## Sequences of calls -/

section Events

variable {K V : Type} [DecidableEq K]

/-- What a SET of `k` that had room wrote. -/
def writtenBy (k : K) : KvOp K V × KvRes V → Option V
  | (.set k' v, .set true) => if k' = k then some v else none
  | _ => none

/-- The value of the latest successful SET of a key. -/
def latestSet (events : List (KvOp K V × KvRes V)) (k : K) : Option V :=
  events.reverse.findSome? (writtenBy k)

theorem latestSet_snoc (events : List (KvOp K V × KvRes V)) (e : KvOp K V × KvRes V) (k : K) :
    latestSet (events ++ [e]) k = (writtenBy k e).or (latestSet events k) := by
  unfold latestSet
  rw [List.reverse_append, List.reverse_singleton, List.singleton_append, List.findSome?_cons]
  cases writtenBy k e <;> rfl

theorem latestSet_set (events : List (KvOp K V × KvRes V)) (k : K) (v : V) :
    latestSet (events ++ [(.set k v, .set true)])
      = Function.update (latestSet events) k (some v) := by
  funext k'
  rw [latestSet_snoc, Function.update_apply]
  by_cases h : k = k'
  · simp [writtenBy, h]
  · rw [if_neg (Ne.symm h)]
    simp [writtenBy, h]

/-- An event that writes nothing. -/
theorem latestSet_skip (events : List (KvOp K V × KvRes V)) {e : KvOp K V × KvRes V}
    (he : ∀ k, writtenBy k e = none) : latestSet (events ++ [e]) = latestSet events := by
  funext k
  rw [latestSet_snoc, he]
  rfl

/-- Every GET returns the value of the latest successful SET before it. -/
def Lawful (events : List (KvOp K V × KvRes V)) : Prop :=
  ∀ pre k res post, events = pre ++ (.get k, res) :: post → res = .get (latestSet pre k)

theorem Lawful.snoc {events : List (KvOp K V × KvRes V)} {e : KvOp K V × KvRes V}
    (h : Lawful events) (he : ∀ k, e.1 = .get k → e.2 = .get (latestSet events k)) :
    Lawful (events ++ [e]) := by
  intro pre k res post hsplit
  rcases List.eq_nil_or_concat post with rfl | ⟨post, e', rfl⟩
  · obtain ⟨rfl, hlast⟩ := List.append_inj' hsplit rfl
    rw [List.singleton_inj] at hlast
    rw [hlast] at he
    exact he k rfl
  · rw [List.concat_eq_append, ← List.cons_append, ← List.append_assoc] at hsplit
    exact h pre k res post (List.append_inj' hsplit rfl).1

end Events

namespace PmicaMap

variable {K V : Type} {c : PmicaConf K V} {t t' t'' : PmicaTable K V} {opts : PmicaOpts}
  {events : List (KvOp K V × KvRes V)}

/-- The computation takes the table `t` to `t'` and returns `r`, whatever was logged. -/
def Acts {R : Type} (f : PmicaMap K V → Option (PmicaMap K V × R)) (t t' : PmicaTable K V)
    (r : R) : Prop :=
  ∀ m : PmicaMap K V, m.table = t → ∃ m', f m = some (m', r) ∧ m'.table = t'

/-- One computation after the other. -/
theorem Acts.comp {R S T : Type} {f : PmicaMap K V → Option (PmicaMap K V × R)}
    {g : PmicaMap K V → Option (PmicaMap K V × S)} {h : PmicaMap K V → Option (PmicaMap K V × T)}
    {r : R} {s : S} {x : T} (hf : Acts f t t' r) (hg : Acts g t' t'' s)
    (hh : ∀ m m' m'', f m = some (m', r) → g m' = some (m'', s) → h m = some (m'', x)) :
    Acts h t t'' x := by
  intro m hm
  obtain ⟨m', hm', ht'⟩ := hf m hm
  obtain ⟨m'', hm'', ht''⟩ := hg m' ht'
  exact ⟨m'', hh m m' m'' hm' hm'', ht''⟩

theorem logSet_table (m : PmicaMap K V) (k : K) (v : V) : (m.logSet opts k v).table = m.table := by
  unfold logSet
  dsimp only
  split_ifs <;> rfl

theorem logSets_table (m : PmicaMap K V) (ops : List (BatchOp K V)) :
    (m.logSets opts ops).table = m.table := by
  unfold logSets
  induction ops generalizing m with
  | nil => rfl
  | cons op ops ih =>
    rw [List.foldl_cons, ih]
    split_ifs
    · exact m.logSet_table op.key op.value
    · rfl

theorem commit_table (m : PmicaMap K V) (ops : List (BatchOp K V)) :
    (m.commit opts ops).table = m.table := by
  unfold commit
  split_ifs <;> rfl

variable [DecidableEq K]

/-- The state of the table after the events. -/
structure After (c : PmicaConf K V) (t : PmicaTable K V) (events : List (KvOp K V × KvRes V)) :
    Prop where
  rep : t.Rep c (latestSet events)
  lawful : Lawful events

/-- **One operation**, in a batch or alone. -/
theorem doOp_spec (h : After c t events) {op : KvOp K V} (hk : op.key ≠ c.invalidKey)
    (opts : PmicaOpts) :
    ∃ t' r, After c t' (events ++ [(op, r)]) ∧
      Acts (fun m => m.doOp c opts (op.toBatch c)) t t' r ∧
      Acts (fun m => m.call c (.one opts op)) t t' [r] := by
  cases op with
  | get k =>
    have hget := PmicaTable.get_spec h.rep hk
    refine ⟨t, .get (latestSet events k), ⟨?_, h.lawful.snoc ?_⟩, ?_, ?_⟩
    · rw [latestSet_skip events fun k' => rfl]
      exact h.rep
    · rintro k' ⟨⟩
      rfl
    · rintro m rfl
      exact ⟨m, congrArg (Option.map _) hget, rfl⟩
    · rintro m rfl
      exact ⟨m, congrArg (Option.map _) hget, rfl⟩
  | set k v =>
    obtain ⟨t', ok, ops, hset, hcase⟩ := PmicaTable.setNodrain_spec h.rep hk opts v
    have hrep : t'.Rep c (latestSet (events ++ [(.set k v, .set ok)])) := by
      rcases hcase with ⟨rfl, hrep⟩ | ⟨rfl, rfl⟩
      · rw [latestSet_set]
        exact hrep
      · rw [latestSet_skip events fun k' => rfl]
        exact h.rep
    refine ⟨t', .set ok, ⟨hrep, h.lawful.snoc ?_⟩, ?_, ?_⟩
    · rintro k' ⟨⟩
    · rintro m rfl
      exact ⟨_, congrArg (Option.map _) hset, rfl⟩
    · rintro m rfl
      exact ⟨_, congrArg (Option.map _) hset, rfl⟩

theorem Acts.calls_nil (t : PmicaTable K V) : Acts (fun m => m.calls c []) t t [] :=
  fun m hm => ⟨m, rfl, hm⟩

theorem Acts.calls_cons {x : KvCall K V} {xs : List (KvCall K V)} {r rs : List (KvRes V)}
    (hx : Acts (fun m => m.call c x) t t' r) (hxs : Acts (fun m => m.calls c xs) t' t'' rs) :
    Acts (fun m => m.calls c (x :: xs)) t t'' (r ++ rs) := by
  refine hx.comp hxs fun m m' m'' (hm' : m.call c x = _) (hm'' : m'.calls c xs = _) => ?_
  show (m.call c x).bind _ = _
  rw [hm']
  show (m'.calls c xs).bind _ = _
  rw [hm'', Option.bind_some]

theorem calls_append (m : PmicaMap K V) (xs ys : List (KvCall K V)) :
    m.calls c (xs ++ ys) = (m.calls c xs).bind fun p =>
      (p.1.calls c ys).map fun q => (q.1, p.2 ++ q.2) := by
  induction xs generalizing m with
  | nil =>
    show m.calls c ys = (m.calls c ys).map fun q => (q.1, [] ++ q.2)
    simp
  | cons x xs ih =>
    show (m.call c x).bind _ = ((m.call c x).bind _).bind _
    rw [Option.bind_assoc]
    congr 1
    funext p
    show (p.1.calls c (xs ++ ys)).bind _ = ((p.1.calls c xs).bind _).bind _
    rw [ih, Option.bind_assoc, Option.bind_assoc]
    congr 1
    funext q
    show ((q.1.calls c ys).map _).bind _ = (q.1.calls c ys).map _
    rw [Option.bind_map, Option.map_eq_bind]
    congr 1
    funext o
    show some (o.1, p.2 ++ (q.2 ++ o.2)) = some (o.1, p.2 ++ q.2 ++ o.2)
    rw [List.append_assoc]

theorem Acts.calls_append {xs ys : List (KvCall K V)} {rs rs' : List (KvRes V)}
    (hx : Acts (fun m => m.calls c xs) t t' rs) (hy : Acts (fun m => m.calls c ys) t' t'' rs') :
    Acts (fun m => m.calls c (xs ++ ys)) t t'' (rs ++ rs') := by
  refine hx.comp hy fun m m' m'' (hm' : m.calls c xs = _) (hm'' : m'.calls c ys = _) => ?_
  show m.calls c (xs ++ ys) = _
  rw [PmicaMap.calls_append, hm', Option.bind_some, hm'', Option.map_some]

/-- **The second loop of a batch**, and the same operations one by one. -/
theorem doOps_spec {ops : List (KvOp K V)} (h : After c t events)
    (hk : ∀ op ∈ ops, op.key ≠ c.invalidKey) (opts : PmicaOpts) :
    ∃ t' rs, rs.length = ops.length ∧ After c t' (events ++ ops.zip rs) ∧
      Acts (fun m => m.doOps c opts (ops.map (KvOp.toBatch c))) t t' rs ∧
      Acts (fun m => m.calls c (ops.map (KvCall.one opts))) t t' rs := by
  induction ops generalizing t events with
  | nil =>
    refine ⟨t, [], rfl, ?_, fun m hm => ⟨m, rfl, hm⟩, Acts.calls_nil t⟩
    rwa [List.zip_nil_left, List.append_nil]
  | cons op ops ih =>
    obtain ⟨t1, r, h1, hop, hcall⟩ := doOp_spec h (hk op List.mem_cons_self) opts
    obtain ⟨t', rs, hlen, h', hops, hcalls⟩ := ih h1 fun o ho => hk o (List.mem_cons_of_mem _ ho)
    refine ⟨t', r :: rs, congrArg Nat.succ hlen, ?_, ?_, hcall.calls_cons hcalls⟩
    · rw [List.zip_cons_cons, List.append_cons]
      exact h'
    · refine hop.comp hops fun m m1 m' (hm1 : m.doOp c opts (op.toBatch c) = _)
        (hm' : m1.doOps c opts (ops.map (KvOp.toBatch c)) = _) => ?_
      show (m.doOp c opts (op.toBatch c)).bind _ = _
      rw [hm1]
      show (m1.doOps c opts (ops.map (KvOp.toBatch c))).bind _ = _
      rw [hm', Option.bind_some]

/-- **One call**, and what it does one by one. -/
theorem call_spec {x : KvCall K V} (h : After c t events) (hx : x.Valid c) :
    ∃ t' rs, rs.length = x.ops.length ∧ After c t' (events ++ x.ops.zip rs) ∧
      Acts (fun m => m.call c x) t t' rs ∧ Acts (fun m => m.calls c x.oneByOne) t t' rs := by
  have hone : ∀ (opts : PmicaOpts) (op : KvOp K V), op.key ≠ c.invalidKey →
      ∃ t' rs, rs.length = 1 ∧ After c t' (events ++ [op].zip rs) ∧
        Acts (fun m => m.call c (.one opts op)) t t' rs ∧
        Acts (fun m => m.calls c [.one opts op]) t t' rs := by
    intro opts op hop
    obtain ⟨t', r, h', -, hcall⟩ := doOp_spec h hop opts
    exact ⟨t', [r], rfl, h', hcall, hcall.calls_cons (Acts.calls_nil t')⟩
  cases x with
  | set opts k v => exact hone opts (.set k v) (hx.key _ List.mem_cons_self)
  -- A GET does not depend on the options.
  | get k => exact hone ⟨true, true⟩ (.get k) (hx.key _ List.mem_cons_self)
  | batch opts ops =>
    obtain ⟨t', rs, hlen, h', hops, hcalls⟩ := doOps_spec h hx.key opts
    refine ⟨t', rs, hlen, h', ?_, hcalls⟩
    intro m hm
    have hlogged : ((m.logSets opts (ops.map (KvOp.toBatch c))).commit opts
        (ops.map (KvOp.toBatch c))).table = t := by
      rw [commit_table, logSets_table, hm]
    obtain ⟨m', hm', ht'⟩ := hops _ hlogged
    exact ⟨m', (if_pos hx.size).trans hm', ht'⟩

/-- **Calls**, and what they do one by one. -/
theorem calls_spec {xs : List (KvCall K V)} (h : After c t events) (hxs : ∀ x ∈ xs, x.Valid c) :
    ∃ t' rs, rs.length = (xs.flatMap KvCall.ops).length ∧
      After c t' (events ++ (xs.flatMap KvCall.ops).zip rs) ∧
      Acts (fun m => m.calls c xs) t t' rs ∧
      Acts (fun m => m.calls c (xs.flatMap KvCall.oneByOne)) t t' rs := by
  induction xs generalizing t events with
  | nil =>
    refine ⟨t, [], rfl, ?_, Acts.calls_nil t, Acts.calls_nil t⟩
    rwa [List.flatMap_nil, List.zip_nil_left, List.append_nil]
  | cons x xs ih =>
    obtain ⟨t1, r, hr, h1, hcall, hone⟩ := call_spec h (hxs x List.mem_cons_self)
    obtain ⟨t', rs, hrs, h', hcalls, hones⟩ := ih h1 fun y hy => hxs y (List.mem_cons_of_mem _ hy)
    refine ⟨t', r ++ rs, ?_, ?_, hcall.calls_cons hcalls, ?_⟩
    · rw [List.flatMap_cons, List.length_append, List.length_append, hr, hrs]
    · rw [List.flatMap_cons, List.zip_append hr.symm, ← List.append_assoc]
      exact h'
    · exact hone.calls_append hones

/-- **The hash table is a finite map.**  Any sequence of calls returns; every GET, in a batch or
alone, has the value of the latest successful SET of its key; batches do what their operations do
one by one; and at the end the chains and keys are in order and every valid key reads the value
that was last set. -/
theorem hashMap_refines_map (c : PmicaConf K V) (xs : List (KvCall K V))
    (hxs : ∀ x ∈ xs, x.Valid c) :
    ∃ m rs, (init c).calls c xs = some (m, rs) ∧ rs.length = (xs.flatMap KvCall.ops).length ∧
      Lawful ((xs.flatMap KvCall.ops).zip rs) ∧
      (∀ k, k ≠ c.invalidKey → m.table.get c (c.hash k) k
        = some (latestSet ((xs.flatMap KvCall.ops).zip rs) k)) ∧
      (∃ m', (init c).calls c (xs.flatMap KvCall.oneByOne) = some (m', rs) ∧
        m'.table = m.table) ∧
      ∃ tail, PmicaTable.TableOk c m.table tail := by
  have h0 : After c (PmicaTable.init c) [] := by
    refine ⟨PmicaTable.rep_init c, ?_⟩
    intro pre k res post h
    simp at h
  obtain ⟨t', rs, hlen, h', hcalls, hones⟩ := calls_spec h0 hxs
  obtain ⟨m, hm, rfl⟩ := hcalls (init c) rfl
  exact ⟨m, rs, hm, hlen, h'.lawful, fun k hk => PmicaTable.get_spec h'.rep hk,
    hones (init c) rfl, h'.rep.1⟩

/-- One regular bucket and one extra bucket. -/
def sampleConf : PmicaConf ℕ ℕ := ⟨5, 1, 0, 0, id, by decide, by decide⟩

/-- Eleven keys, of which the last has no room, and two lookups. -/
def sampleBatch : KvCall ℕ ℕ :=
  .batch ⟨true, true⟩ ((List.range' 1 11).map (fun k => KvOp.set k (10 * k)) ++ [.get 3, .get 11])

theorem hashMap_refines_map_sampleBatch :
    (∀ x ∈ [sampleBatch, .get 10], x.Valid sampleConf) ∧
      ∃ m rs, (init sampleConf).calls sampleConf [sampleBatch, .get 10] = some (m, rs) ∧
        Lawful (([sampleBatch, .get 10].flatMap KvCall.ops).zip rs) := by
  have hvalid : ∀ x ∈ [sampleBatch, .get 10], x.Valid sampleConf := by
    intro x hx
    fin_cases hx
    · exact ⟨by decide, by decide⟩
    · exact ⟨by decide, by decide⟩
  obtain ⟨m, rs, hrun, -, hlawful, -⟩ := hashMap_refines_map sampleConf _ hvalid
  exact ⟨hvalid, m, rs, hrun, hlawful⟩

example : ((init sampleConf).calls sampleConf [sampleBatch, .get 10]).map Prod.snd
    = some (List.replicate 10 (.set true) ++ [.set false, .get (some 30), .get none,
      .get (some 100)]) := by
  decide +kernel

end PmicaMap

end HuiRpc
