import Hixo.Foundation.SlabPool
import Hixo.Slub.ShiftLeft

/-!
# The layout of a formatted region

Where `slub_format` puts the header, the bitmaps and the use maps, and what these bytes say. The
state of the allocator is a pool of blocks (`SlabPool`): which object type owns each assigned
block, and how many of its slots are handed out.

* `Represents m p n pool`: the bytes of the region at `p` with `n` blocks describe `pool`;
* `offeredBlocks n`: how many of the `n` blocks the top bitmap offers at all;
* `metadataEnd p n`: the address after the last use map;
* `Represents.congr`: the description depends only on the metadata.
-/

namespace Hixo.Slub

open ByteMem

/-! ## Object types -/

@[simp] theorem objTypeCount_eq : objTypeCount = 9 := rfl

theorem blockSize_eq : blockSize = 4096 := rfl

@[simp] theorem sizeofSlubT_eq : sizeofSlubT = 64 := rfl

/-- The object sizes are the powers of two from 8 on. -/
theorem typeSize_eq {t : ℕ} (ht : t < objTypeCount) : typeSize t = 2 ^ (t + 3) := by
  rw [objTypeCount_eq] at ht
  interval_cases t <;> rfl

theorem typeSize_pos {t : ℕ} (ht : t < objTypeCount) : 0 < typeSize t := by
  rw [typeSize_eq ht]
  exact Nat.two_pow_pos _

/-- The objects of a block fill it exactly. -/
theorem occupy_mul_typeSize {t : ℕ} (ht : t < objTypeCount) :
    occupy t * typeSize t = blockSize := by
  rw [objTypeCount_eq] at ht
  interval_cases t <;> rfl

theorem occupy_pos {t : ℕ} (ht : t < objTypeCount) : 0 < occupy t := by
  rw [objTypeCount_eq] at ht
  interval_cases t <;> decide

theorem occupy_le {t : ℕ} : occupy t ≤ 8 * occupyLen t := by
  rw [occupyLen]
  omega

/-- A slot of a block ends inside the block. -/
theorem slot_end_le {t u : ℕ} (ht : t < objTypeCount) (hu : u < occupy t) :
    u * typeSize t + typeSize t ≤ blockSize := by
  rw [← occupy_mul_typeSize ht, ← Nat.succ_mul]
  exact Nat.mul_le_mul_right _ hu

/-- The parts of a use map that belong to different object types do not overlap. -/
theorem usemapOffset_add_le {t t' : ℕ} (ht' : t' < objTypeCount) (h : t < t') :
    usemapOffset t + occupyLen t ≤ usemapOffset t' := by
  have hall : ∀ t' < objTypeCount, ∀ t < t', usemapOffset t + occupyLen t ≤ usemapOffset t' := by
    decide
  exact hall t' ht' t h

theorem usemapOffset_succ (t : ℕ) : usemapOffset (t + 1) = usemapOffset t + occupyLen t := by
  simp [usemapOffset, List.range_succ]

theorem usemapOffset_add_le_size {t : ℕ} (ht : t < objTypeCount) :
    usemapOffset t + occupyLen t ≤ 129 := by
  rw [objTypeCount_eq] at ht
  interval_cases t <;> decide

/-- The type chosen for an object size: the smallest power of two from 8 on that is at least the
size. -/
theorem typeOfSize_eq_some_iff {s t : ℕ} :
    typeOfSize s = some t ↔
      t < objTypeCount ∧ s ≤ typeSize t ∧ ∀ t' < t, typeSize t' < s := by
  rw [typeOfSize, List.find?_range_eq_some]
  simp only [List.mem_range, decide_eq_true_eq, Bool.not_eq_true', decide_eq_false_iff_not, not_le]
  constructor
  · rintro ⟨hle, ht, hlt⟩
    exact ⟨ht, hle, hlt⟩
  · rintro ⟨ht, hle, hlt⟩
    exact ⟨hle, ht, hlt⟩

/-- Sizes up to 2048 have an object type. -/
theorem exists_typeOfSize {s : ℕ} (hs : s ≤ 2048) : ∃ t, typeOfSize s = some t := by
  refine Option.ne_none_iff_exists'.mp fun hnone => ?_
  have hlast := List.find?_range_eq_none.mp hnone 8 (by decide)
  have hsize : typeSize 8 = 2048 := rfl
  simp [hsize] at hlast
  omega

/-! ## Addresses -/

/-- The bytes of one block bitmap of a region with `n` blocks. -/
def bitmapBytes (n : ℕ) : ℕ := (n + 7) / 8

/-- The address of the top bitmap of the region at `p`. -/
def topBitmapAt (p : ℕ) : ℕ := p + 64

/-- The address of the block bitmap of object type `t`. -/
def typeBitmapAt (p n t : ℕ) : ℕ := p + 64 + bitmapBytes n * (t + 1)

/-- The address of the use map of block `k`. -/
def usemapAt (p n k : ℕ) : ℕ := p + 64 + bitmapBytes n * 10 + 129 * k

/-- The address after the last use map. -/
def metadataEnd (p n : ℕ) : ℕ := p + 64 + bitmapBytes n * 10 + 129 * n

/-- The address of slot `u` of block `k` when the block belongs to object type `t`. -/
def slotAt (p k t u : ℕ) : ℕ := p + blockSize + k * blockSize + u * typeSize t

/-- The number of blocks the top bitmap offers: `slub_format` marks the bits from
`nblocks % 8` on in its last byte, which is the whole byte when 8 divides `nblocks`. -/
def offeredBlocks (n : ℕ) : ℕ := if n % 8 = 0 then n - 8 else n

theorem offeredBlocks_le (n : ℕ) : offeredBlocks n ≤ n := by
  unfold offeredBlocks
  split <;> omega

/-- The bitmaps of two object types do not share a byte. -/
theorem typeBitmapAt_add_inj {p n t t' i i' : ℕ} (hi : i < bitmapBytes n)
    (hi' : i' < bitmapBytes n) (h : typeBitmapAt p n t + i = typeBitmapAt p n t' + i') :
    t = t' ∧ i = i' := by
  have hpos : 0 < bitmapBytes n := by omega
  have hsum : bitmapBytes n * (t + 1) + i = bitmapBytes n * (t' + 1) + i' := by
    unfold typeBitmapAt at h
    omega
  have ht : t + 1 = t' + 1 := by
    have hdiv := congrArg (· / bitmapBytes n) hsum
    simpa [Nat.mul_add_div hpos, Nat.div_eq_of_lt hi, Nat.div_eq_of_lt hi'] using hdiv
  refine ⟨by omega, ?_⟩
  rw [ht] at hsum
  omega

/-- The bitmap of an object type lies between the top bitmap and the use maps. -/
theorem typeBitmapAt_bounds {p n t : ℕ} (ht : t < objTypeCount) :
    topBitmapAt p + bitmapBytes n ≤ typeBitmapAt p n t ∧
      typeBitmapAt p n t + bitmapBytes n ≤ usemapAt p n 0 := by
  rw [objTypeCount_eq] at ht
  have hlow : bitmapBytes n * 1 ≤ bitmapBytes n * (t + 1) := Nat.mul_le_mul_left _ (by omega)
  have hhigh : bitmapBytes n * (t + 1 + 1) ≤ bitmapBytes n * 10 :=
    Nat.mul_le_mul_left _ (by omega)
  rw [Nat.mul_succ] at hhigh
  unfold topBitmapAt typeBitmapAt usemapAt
  omega

/-- Two bytes of use maps coincide only when block, object type and byte do. -/
theorem usemapAt_add_inj {p n k k' t t' i i' : ℕ} (ht : t < objTypeCount)
    (ht' : t' < objTypeCount) (hi : i < occupyLen t) (hi' : i' < occupyLen t')
    (h : usemapAt p n k + usemapOffset t + i = usemapAt p n k' + usemapOffset t' + i') :
    k = k' ∧ t = t' ∧ i = i' := by
  have hsize := usemapOffset_add_le_size ht
  have hsize' := usemapOffset_add_le_size ht'
  unfold usemapAt at h
  obtain rfl : k = k' := by omega
  -- maps of two types of one block lie apart, so the types are equal
  have htt : t = t' := by
    rcases lt_trichotomy t t' with hlt | heq | hgt
    · have := usemapOffset_add_le ht' hlt
      omega
    · exact heq
    · have := usemapOffset_add_le ht hgt
      omega
  subst htt
  exact ⟨rfl, rfl, by omega⟩

/-- The use map of a block lies after the bitmaps and before the end of the metadata. -/
theorem usemapAt_bounds {p n k t i : ℕ} (hk : k < n) (ht : t < objTypeCount)
    (hi : i < occupyLen t) :
    usemapAt p n 0 ≤ usemapAt p n k + usemapOffset t + i ∧
      usemapAt p n k + usemapOffset t + i < metadataEnd p n := by
  have hsize := usemapOffset_add_le_size ht
  unfold usemapAt metadataEnd
  omega

/-! ## What the metadata says -/

/-- The bytes of the region at `p` with `n` blocks describe `pool`. -/
structure Represents (m : ByteMem) (p n : ℕ) (pool : SlabPool ℕ) : Prop where
  /-- The header is the one `slub_format` wrote. -/
  header : SlubT.load m p = formatHeader p n
  /-- The top bitmap marks the assigned blocks and those that are never offered. -/
  top : ∀ k < 8 * bitmapBytes n,
    m.bit (topBitmapAt p) k = true ↔ k < pool.length ∨ offeredBlocks n ≤ k
  /-- The bitmap of an object type marks the blocks it owns. -/
  types : ∀ t < objTypeCount, ∀ k < 8 * bitmapBytes n,
    m.bit (typeBitmapAt p n t) k = true ↔ ∃ u, pool[k]? = some ⟨t, u⟩
  /-- The use map of a block marks the padding bits and the slots handed out. -/
  use : ∀ k < n, ∀ t < objTypeCount, ∀ j < 8 * occupyLen t,
    m.bit (usemapAt p n k + usemapOffset t) j = true ↔
      occupy t ≤ j ∨ ∃ u, pool[k]? = some ⟨t, u⟩ ∧ j < u
  /-- No more blocks are assigned than offered. -/
  length_le : pool.length ≤ offeredBlocks n
  /-- Owners are object types, and no block hands out more slots than it has. -/
  wellFormed : ∀ (k : ℕ) (b : SlabBlock ℕ), pool[k]? = some b →
    b.owner < objTypeCount ∧ b.used ≤ occupy b.owner

/-- The header that is loaded depends only on its own bytes. -/
theorem load_congr {m m' : ByteMem} {p : ℕ} (h : Set.EqOn m' m (Set.Ico p (p + 64))) :
    SlubT.load m' p = SlubT.load m p := by
  have hfield (i : ℕ) (hi : i < 8) : readField m' p i = readField m p i := by
    refine readLE_congr (h.mono (Set.Ico_subset_Ico ?_ ?_)) <;> simp only [wordSize] <;> omega
  simp only [SlubT.load, hfield 0 (by omega), hfield 1 (by omega), hfield 2 (by omega),
    hfield 3 (by omega), hfield 4 (by omega), hfield 5 (by omega), hfield 6 (by omega),
    hfield 7 (by omega)]

/-- Memory outside the metadata does not matter for the pool it represents. -/
theorem Represents.congr {m m' : ByteMem} {p n : ℕ} {pool : SlabPool ℕ}
    (h : Represents m p n pool) (heq : Set.EqOn m' m (Set.Ico p (metadataEnd p n))) :
    Represents m' p n pool where
  -- every part of the description reads below the end of the metadata, where the memories agree
  header := by
    refine (load_congr (heq.mono (Set.Ico_subset_Ico le_rfl ?_))).trans h.header
    unfold metadataEnd
    omega
  top k hk := by
    have hbyte : m'.bit (topBitmapAt p) k = m.bit (topBitmapAt p) k := by
      refine bit_congr (heq ?_)
      simp only [Set.mem_Ico, topBitmapAt, metadataEnd]
      omega
    rw [hbyte]
    exact h.top k hk
  types t ht k hk := by
    have hbyte : m'.bit (typeBitmapAt p n t) k = m.bit (typeBitmapAt p n t) k := by
      refine bit_congr (heq ?_)
      have hbounds := typeBitmapAt_bounds (p := p) (n := n) ht
      simp only [Set.mem_Ico, topBitmapAt, usemapAt, metadataEnd] at hbounds ⊢
      omega
    rw [hbyte]
    exact h.types t ht k hk
  use k hk t ht j hj := by
    have hbyte : m'.bit (usemapAt p n k + usemapOffset t) j =
        m.bit (usemapAt p n k + usemapOffset t) j := by
      refine bit_congr (heq ?_)
      have hbounds := usemapAt_bounds (p := p) hk ht (show j / 8 < occupyLen t by omega)
      simp only [Set.mem_Ico, usemapAt, metadataEnd] at hbounds ⊢
      omega
    rw [hbyte]
    exact h.use k hk t ht j hj
  length_le := h.length_le
  wellFormed := h.wellFormed

end Hixo.Slub
