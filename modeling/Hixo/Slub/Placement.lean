import Hixo.Slub.Runs

/-!
# Where the objects are

The placement of the objects handed out in a run without stores.

* `results_wellPlaced`: blocks belong to at most one object type, every object is a slot of a
  block its type owns, and objects do not overlap;
* `resultsInRegion_iff`: the objects stay inside the region exactly when the region has 32 pages
  or more, or a number of pages that is a multiple of eight. The header page is not deducted
  from the number of blocks, so that in all other regions the last block ends past the region.
-/

namespace Hixo.Slub

open ByteMem SlabPool

/-! ## Ownership -/

/-- `size` is the smallest power of two from 8 to 2048 that is at least `s`. -/
def IsLeastClassSize (s size : ℕ) : Prop :=
  ∃ i, size = 2 ^ i ∧ 3 ≤ i ∧ i ≤ 11 ∧ s ≤ 2 ^ i ∧ ∀ j, 3 ≤ j → s ≤ 2 ^ j → i ≤ j

/-- The bitmaps in memory and the results of a run fit together. -/
structure WellPlaced (p : ℕ) (tr : List Event) (m : ByteMem) : Prop where
  /-- No block is marked for two object types. -/
  types_disjoint : ∀ t < objTypeCount, ∀ t' < objTypeCount, t ≠ t' →
    ∀ k < 8 * (SlubT.load m p).bitmapSize,
      ¬(m.bit ((SlubT.load m p).typeBitmap t) k = true ∧
        m.bit ((SlubT.load m p).typeBitmap t') k = true)
  /-- A block marked for an object type is marked in the top bitmap. -/
  types_subset_top : ∀ t < objTypeCount, ∀ k < 8 * (SlubT.load m p).bitmapSize,
    m.bit ((SlubT.load m p).typeBitmap t) k = true → m.bit (SlubT.load m p).bitmap k = true
  /-- An object is a slot of a block of the region that is marked for its type. -/
  isSlot : ∀ s r, .alloc s (some r) ∈ tr → ∃ t k u, typeOfSize s = some t ∧
    IsLeastClassSize s (typeSize t) ∧ k < (SlubT.load m p).nblocks ∧
    m.bit ((SlubT.load m p).typeBitmap t) k = true ∧
    r = (SlubT.load m p).block + k * blockSize + u * typeSize t ∧
    r + typeSize t ≤ (SlubT.load m p).block + (k + 1) * blockSize
  /-- No two objects overlap, counting the full slot of each. -/
  disjoint : tr.Pairwise DisjointResults

theorem isLeastClassSize_of_typeOfSize {s t : ℕ} (h : typeOfSize s = some t) :
    IsLeastClassSize s (typeSize t) := by
  obtain ⟨ht, hle, hlt⟩ := typeOfSize_eq_some_iff.mp h
  have hsize := typeSize_eq ht
  rw [objTypeCount_eq] at ht
  refine ⟨t + 3, hsize, by omega, by omega, hsize ▸ hle, fun j hj hsj => ?_⟩
  by_contra hgt
  have hsmaller := hlt (j - 3) (by omega)
  rw [typeSize_eq (by rw [objTypeCount_eq]; omega), Nat.sub_add_cancel hj] at hsmaller
  omega

/-- In every run without stores, the block bitmaps of the object types are pairwise disjoint and
contained in the top bitmap; every object is a slot of a block of the region that the type
chosen for the request owns; and no two objects overlap. -/
theorem results_wellPlaced {p size : ℕ} {tr : List Event} {m : ByteMem}
    (hfits : p + size ≤ 2 ^ 64) (hrun : Run p size tr m) (honly : AllocOnly tr) :
    WellPlaced p tr m := by
  obtain ⟨pool, hrep, hserved, -⟩ := hrun.exists_pool hfits (Or.inl honly)
  have hbytes : bitmapBytes (blockCount size) = (blockCount size + 7) / 8 := rfl
  have hload : (SlubT.load m p).bitmapSize = bitmapBytes (blockCount size) := by
    rw [hrep.header]
    rfl
  have htypes {t k : ℕ} (ht : t < objTypeCount) (hk : k < 8 * bitmapBytes (blockCount size)) :
      m.bit ((SlubT.load m p).typeBitmap t) k = true ↔ ∃ u, pool[k]? = some ⟨t, u⟩ := by
    rw [hrep.header, formatHeader_typeBitmap]
    exact hrep.types t ht k hk
  refine ⟨fun t ht t' ht' htt k hk => ?_, fun t ht k hk hset => ?_, fun s r hmem => ?_,
    hserved.disjoint⟩
  · -- a block has one owner
    rw [hload] at hk
    rw [htypes ht hk, htypes ht' hk]
    rintro ⟨⟨u, hu⟩, u', hu'⟩
    rw [hu] at hu'
    simp only [Option.some.injEq, SlabBlock.mk.injEq] at hu'
    exact htt hu'.1
  · -- a block of a type is a block of the pool, hence marked in the top bitmap
    rw [hload] at hk
    obtain ⟨u, hu⟩ := (htypes ht hk).mp hset
    have htop := (hrep.top k hk).mpr (Or.inl (List.getElem?_eq_some_iff.mp hu).1)
    rwa [hrep.header]
  · -- an object is the slot of a block that its type owns
    obtain ⟨t, k, u, v, ht, hk, hu, rfl⟩ := hserved.isSlot s r hmem
    have hkn := hrep.lt_of_getElem? hk
    obtain ⟨htlt, hv⟩ := hrep.owned hk
    have hset := (htypes htlt (by omega)).mpr ⟨v, hk⟩
    have hend := (slotAt_bounds (p := p) (k := k) htlt (lt_of_lt_of_le hu hv)).2
    refine ⟨t, k, u, ht, isLeastClassSize_of_typeOfSize ht, ?_, hset, ?_, ?_⟩ <;>
      rw [hrep.header]
    · exact hkn
    · rfl
    · exact hend

/-- The case of four pages: objects of 8 and of 100 bytes in turn, the first ones in one block and
the others in the next one. -/
theorem results_wellPlaced_four_pages :
    ∃ m, Run 4096 16384 [.alloc 8 (some 8192), .alloc 100 (some 12288), .alloc 8 (some 8200),
        .alloc 100 (some 12416)] m ∧
      WellPlaced 4096 [.alloc 8 (some 8192), .alloc 100 (some 12288), .alloc 8 (some 8200),
        .alloc 100 (some 12416)] m := by
  obtain ⟨m, hrun, hrep⟩ :=
    @exists_run_format 4096 16384 (by decide) (by decide) (by decide)
  have halloc₁ : SlabPool.alloc occupy 8 (offeredBlocks (blockCount 16384)) [] 0 =
      .slot 0 0 [⟨0, 1⟩] := by decide
  have halloc₂ : SlabPool.alloc occupy 8 (offeredBlocks (blockCount 16384)) [⟨0, 1⟩] 4 =
      .slot 1 0 [⟨0, 1⟩, ⟨4, 1⟩] := by decide
  have halloc₃ : SlabPool.alloc occupy 8 (offeredBlocks (blockCount 16384)) [⟨0, 1⟩, ⟨4, 1⟩] 0 =
      .slot 0 1 [⟨0, 2⟩, ⟨4, 1⟩] := by decide
  have halloc₄ : SlabPool.alloc occupy 8 (offeredBlocks (blockCount 16384)) [⟨0, 2⟩, ⟨4, 1⟩] 4 =
      .slot 1 1 [⟨0, 2⟩, ⟨4, 2⟩] := by decide
  obtain ⟨m₁, hrun₁, hrep₁⟩ :=
    hrun.alloc_slot (s := 8) hrep (by decide) (by decide) (by decide) halloc₁
  obtain ⟨m₂, hrun₂, hrep₂⟩ :=
    hrun₁.alloc_slot (s := 100) hrep₁ (by decide) (by decide) (by decide) halloc₂
  obtain ⟨m₃, hrun₃, hrep₃⟩ :=
    hrun₂.alloc_slot (s := 8) hrep₂ (by decide) (by decide) (by decide) halloc₃
  obtain ⟨m₄, hrun₄, -⟩ :=
    hrun₃.alloc_slot (s := 100) hrep₃ (by decide) (by decide) (by decide) halloc₄
  exact ⟨m₄, hrun₄, results_wellPlaced (by decide) hrun₄ (fun _ _ => by simp)⟩

/-! ## The end of the region -/

/-- Every object handed out in a run without stores lies between the header page and the end of
the region. -/
def ResultsInRegion (p size : ℕ) : Prop :=
  ∀ tr m, Run p size tr m → AllocOnly tr →
    ∀ s r, .alloc s (some r) ∈ tr → p + blockSize ≤ r ∧ r + s ≤ p + size

/-- When the last block that is offered ends inside the region, so does every object. -/
theorem resultsInRegion_of_le {p size : ℕ} (hfits : p + size ≤ 2 ^ 64)
    (hend : blockSize + offeredBlocks (blockCount size) * blockSize ≤ size) :
    ResultsInRegion p size := by
  intro tr m hrun honly s r hmem
  obtain ⟨pool, hrep, hserved, -⟩ := hrun.exists_pool hfits (Or.inl honly)
  refine ⟨hserved.le_result hrep hmem, ?_⟩
  obtain ⟨t, k, u, v, ht, hk, hu, rfl⟩ := hserved.isSlot s r hmem
  obtain ⟨htlt, hv⟩ := hrep.owned hk
  have hsize := (typeOfSize_eq_some_iff.mp ht).2.1
  have hslot := (slotAt_bounds (p := p) (k := k) htlt (lt_of_lt_of_le hu hv)).2
  have hklt : k < offeredBlocks (blockCount size) :=
    lt_of_lt_of_le (List.getElem?_eq_some_iff.mp hk).1 hrep.length_le
  have hmul : (k + 1) * blockSize ≤ offeredBlocks (blockCount size) * blockSize :=
    Nat.mul_le_mul_right _ hklt
  omega

/-- When all blocks are offered and the last one ends past the region, some run hands out an
object that ends past the region. -/
theorem not_resultsInRegion_of_lt {p size : ℕ} (hp : 0 < p) (hfits : p + size ≤ 2 ^ 64)
    (hsize : 2 * blockSize ≤ size)
    (hend : size < blockSize + offeredBlocks (blockCount size) * blockSize) :
    ¬ResultsInRegion p size := by
  intro hall
  obtain ⟨hlow, hhigh⟩ := blockCount_bounds hsize
  have hoffered := offeredBlocks_le (blockCount size)
  set c := offeredBlocks (blockCount size) with hc
  simp only [blockSize_eq] at hsize hend
  have htlt := fillType_lt (c - 1)
  obtain ⟨hle, ht⟩ := typeOfSize_typeSize htlt
  -- fill all blocks but the last one, and the last one but for one slot
  obtain ⟨tr, m, hrun, honly, hrep⟩ := exists_run_filled hp hfits
    (by simpa only [blockSize_eq] using hsize) (c := c - 1) (by omega)
  have hfull (k : ℕ) (b : SlabBlock ℕ) (hk : (filledPool (c - 1))[k]? = some b)
      (howner : b.owner = fillType (c - 1)) :
      occupy (fillType (c - 1)) ≤ b.used ∧ k / 8 = (filledPool (c - 1)).length / 8 := by
    have hkc : k < c - 1 := by simpa using (List.getElem?_eq_some_iff.mp hk).1
    rw [length_filledPool]
    exact filledPool_full (by omega) (by omega) hk howner
  have htwo : 2 ≤ occupy (fillType (c - 1)) := by
    have hall : ∀ t < objTypeCount, 2 ≤ occupy t := by decide
    exact hall _ htlt
  have hserve : SlabPool.serve occupy 8 c (filledPool (c - 1))
      (List.replicate (occupy (fillType (c - 1)) - 1) (fillType (c - 1))) =
      some (filledPool (c - 1) ++ [⟨fillType (c - 1), occupy (fillType (c - 1)) - 1⟩]) :=
    serve_replicate (by omega) (by omega) (by omega) (by rw [length_filledPool]; omega) hfull
  obtain ⟨tr', m', hrun', honly', hrep'⟩ := hrun.serve honly hrep
    (fun t' ht' => (List.eq_of_mem_replicate ht') ▸ htlt) hserve
  -- the last slot ends where the last block ends
  have halloc : SlabPool.alloc occupy 8 c
      (filledPool (c - 1) ++ [⟨fillType (c - 1), occupy (fillType (c - 1)) - 1⟩])
      (fillType (c - 1)) = _ := alloc_append (by omega) (by omega) hfull
  rw [length_filledPool] at halloc
  obtain ⟨m'', hrun'', -⟩ :=
    hrun'.alloc_slot hrep' (typeSize_pos htlt) hle ht halloc
  have hin := (hall _ _ hrun'' honly'.append_alloc (typeSize (fillType (c - 1)))
    (slotAt p (c - 1) (fillType (c - 1)) (occupy (fillType (c - 1)) - 1)) (by simp)).2
  have hfill := occupy_mul_typeSize htlt
  have hlast : (occupy (fillType (c - 1)) - 1) * typeSize (fillType (c - 1)) +
      typeSize (fillType (c - 1)) = blockSize := by
    rw [← Nat.succ_mul, ← hfill]
    congr 1
    omega
  unfold slotAt at hin
  simp only [blockSize_eq] at hin hlast
  omega

/-- The objects of every run stay inside the region exactly when the region has 32 pages or
more, or a number of pages that is a multiple of eight. -/
theorem resultsInRegion_iff {p size : ℕ} (hp : 0 < p) (hfits : p + size ≤ 2 ^ 64)
    (hsize : 2 * blockSize ≤ size) :
    ResultsInRegion p size ↔ 32 ≤ size / blockSize ∨ size / blockSize % 8 = 0 := by
  have hiff : blockSize + offeredBlocks (blockCount size) * blockSize ≤ size ↔
      32 ≤ size / blockSize ∨ size / blockSize % 8 = 0 := by
    simp only [blockSize_eq] at hsize ⊢
    unfold offeredBlocks blockCount
    simp only [blockSize_eq, show blocksMax = 32 from rfl]
    split <;> split <;> omega
  rw [← hiff]
  constructor
  · intro hall
    by_contra hend
    exact not_resultsInRegion_of_lt hp hfits hsize (not_le.mp hend) hall
  · exact resultsInRegion_of_le hfits

/-- The case of a region of 32 pages. -/
theorem resultsInRegion_iff_pages :
    ResultsInRegion 4096 131072 ↔ 32 ≤ 131072 / blockSize ∨ 131072 / blockSize % 8 = 0 :=
  resultsInRegion_iff (by decide) (by decide) (by decide)

/-- On a region of two pages the third object of 2048 bytes starts where the region ends. -/
theorem resultsInRegion_two_pages :
    (∃ m, Run 4096 8192
      [.alloc 2048 (some 8192), .alloc 2048 (some 10240), .alloc 2048 (some 12288)] m) ∧
      ¬ResultsInRegion 4096 8192 := by
  obtain ⟨m, hrun, hrep⟩ :=
    @exists_run_format 4096 8192 (by decide) (by decide) (by decide)
  -- the three requests: two fill the first block, and the third takes a new one
  have halloc₁ : SlabPool.alloc occupy 8 (offeredBlocks (blockCount 8192)) [] 8 =
      .slot 0 0 [⟨8, 1⟩] := by decide
  have halloc₂ : SlabPool.alloc occupy 8 (offeredBlocks (blockCount 8192)) [⟨8, 1⟩] 8 =
      .slot 0 1 [⟨8, 2⟩] := by decide
  have halloc₃ : SlabPool.alloc occupy 8 (offeredBlocks (blockCount 8192)) [⟨8, 2⟩] 8 =
      .slot 1 0 [⟨8, 2⟩, ⟨8, 1⟩] := by decide
  obtain ⟨m₁, hrun₁, hrep₁⟩ :=
    hrun.alloc_slot (s := 2048) hrep (by decide) (by decide) (by decide) halloc₁
  obtain ⟨m₂, hrun₂, hrep₂⟩ :=
    hrun₁.alloc_slot (s := 2048) hrep₁ (by decide) (by decide) (by decide) halloc₂
  obtain ⟨m₃, hrun₃, -⟩ :=
    hrun₂.alloc_slot (s := 2048) hrep₂ (by decide) (by decide) (by decide) halloc₃
  refine ⟨⟨m₃, hrun₃⟩, fun hall => ?_⟩
  have hmem := List.mem_append_right [.alloc 2048 (some 8192), .alloc 2048 (some 10240)]
    (List.mem_singleton.mpr (rfl : Event.alloc 2048 (some 12288) = _))
  have hin := (hall _ _ hrun₃ (fun _ _ => by simp) 2048 12288 hmem).2
  omega

end Hixo.Slub
