import Hixo.Slub.Runs

/-!
# Metadata and objects

Whether the bookkeeping of a region and the data of its callers stay apart. The blocks start at
a fixed distance of one page, while the use maps grow with the number of blocks, and nothing
compares the two.

* `metadataEnd_le_iff`: up to 30 blocks the metadata fits into the header page;
* `noInterference_iff`: exactly then stores of the callers and allocations do not interfere.
-/

namespace Hixo.Slub

open ByteMem SlabPool

/-- The byte belongs to the header, to a block bitmap or to a use map of a region. -/
def InMetadata (slb : SlubT) (x : ℕ) : Prop :=
  (slb.self ≤ x ∧ x < slb.self + sizeofSlubT) ∨
    (slb.bitmap ≤ x ∧ x < slb.bitmap + slb.bitmapSize * (objTypeCount + 1)) ∨
    (slb.usemap ≤ x ∧ x < slb.usemap + slb.usemapSize * slb.nblocks)

/-- In every run, a store of a caller into an object leaves the metadata alone, and an
allocation leaves all objects alone that were handed out earlier. -/
structure NoInterference (p size : ℕ) : Prop where
  /-- No store into an object changes a byte of the metadata. -/
  store : ∀ tr m a b, Run p size tr m → InObject tr a →
    ∀ x, InMetadata (formatHeader p (blockCount size)) x → m.store a b x = m x
  /-- No allocation changes a byte of an object. -/
  alloc : ∀ tr m s r m', Run p size tr m → 0 < s → s ≤ 2048 →
    slubAlloc m p s = .ok (r, m') → ∀ x, InObject tr x → m' x = m x

/-- The header, the bitmaps and the use maps lie side by side. -/
theorem inMetadata_iff {p n x : ℕ} :
    InMetadata (formatHeader p n) x ↔ p ≤ x ∧ x < metadataEnd p n := by
  have husemap : (formatHeader p n).usemapSize = 129 := rfl
  unfold InMetadata metadataEnd bitmapBytes
  rw [husemap]
  simp only [formatHeader, objTypeCount_eq, sizeofSlubT_eq]
  omega

/-- The metadata fits into the header page up to 30 blocks. -/
theorem metadataEnd_le_iff {p n : ℕ} (hn : n ≤ 31) :
    metadataEnd p n ≤ p + blockSize ↔ n ≤ 30 := by
  unfold metadataEnd bitmapBytes
  rw [blockSize_eq]
  omega

/-- A region has at most 30 blocks when it is smaller than 31 pages. -/
theorem blockCount_le_iff {size : ℕ} : blockCount size ≤ 30 ↔ size < 31 * blockSize := by
  unfold blockCount
  rw [blockSize_eq, show blocksMax = 32 from rfl]
  split <;> omega

variable {p size : ℕ}

/-- When the metadata ends before the blocks, no byte belongs to both. -/
theorem noInterference_of_le (hfits : p + size ≤ 2 ^ 64)
    (hmeta : metadataEnd p (blockCount size) ≤ p + blockSize) : NoInterference p size := by
  -- every byte of an object lies behind the header page
  have hobject {tr : List Event} {m : ByteMem} {x : ℕ} (hrun : Run p size tr m)
      (hx : InObject tr x) : p + blockSize ≤ x := by
    obtain ⟨pool, hrep, hserved, -⟩ := hrun.exists_pool hfits (Or.inr hmeta)
    obtain ⟨s, r, hmem, hrx, -⟩ := hx
    exact (hserved.le_result hrep hmem).trans hrx
  refine ⟨fun tr m a b hrun ha x hx => ?_, fun tr m s r m' hrun hs hle halloc x hx => ?_⟩
  · have hstore := hobject hrun ha
    have hend := (inMetadata_iff.mp hx).2
    exact store_of_ne m b (by omega)
  · have hlow := hobject hrun hx
    obtain ⟨pool, hrep, -, -⟩ := hrun.exists_pool hfits (Or.inr hmeta)
    obtain ⟨t, ht⟩ := exists_typeOfSize hle
    have hspec := slubAlloc_spec hrep hrun.accepted.1 hs ht
    cases hout : SlabPool.alloc occupy 8 (offeredBlocks (blockCount size)) pool t with
    | slot k u pool' =>
      simp only [hout] at hspec
      obtain ⟨m'', hret, -, hframe⟩ := hspec
      simp only [hret, Except.ok.injEq, Prod.mk.injEq] at halloc
      obtain ⟨-, rfl⟩ := halloc
      exact hframe x (by omega)
    | exhausted =>
      simp only [hout] at hspec
      simp only [hspec, Except.ok.injEq, Prod.mk.injEq] at halloc
      rw [halloc.2]
    | stuck =>
      simp only [hout] at hspec
      simp [hspec] at halloc

/-- The first object of a region, at the start of block 0. -/
theorem exists_run_first (hp : 0 < p) (hfits : p + size ≤ 2 ^ 64)
    (hsize : 2 * blockSize ≤ size) (hoffered : 0 < offeredBlocks (blockCount size)) :
    ∃ m, Run p size [.alloc 8 (some (p + blockSize))] m := by
  obtain ⟨m, hrun, hrep⟩ := exists_run_format hp hfits hsize
  have halloc : SlabPool.alloc occupy 8 (offeredBlocks (blockCount size)) [] 0 =
      .slot 0 0 [⟨0, 1⟩] := by
    have hnone : existing occupy 8 [] 0 = none := by decide
    have hfresh : existing occupy 8 [⟨0, 0⟩] 0 = some 0 := by decide
    simp [SlabPool.alloc, hnone, hfresh, hoffered, carve, usedOf]
  obtain ⟨m', hrun', -⟩ := hrun.alloc_slot (s := 8) hrep (by omega) (by omega)
    (t := 0) (by decide) halloc
  exact ⟨m', by simpa [slotAt] using hrun'⟩

/-- With 31 blocks the use map of the last one reaches into block 0. -/
theorem not_noInterference_of_lt (hp : 0 < p) (hfits : p + size ≤ 2 ^ 64)
    (hsize : 2 * blockSize ≤ size) (hmeta : p + blockSize < metadataEnd p (blockCount size)) :
    ¬NoInterference p size := by
  intro hsafe
  have hbounds := blockCount_bounds hsize
  have hcount : blockCount size = 31 := by
    have hlarge := (metadataEnd_le_iff (p := p) hbounds.2).not.mp (by omega)
    omega
  obtain ⟨m, hrun⟩ := exists_run_first hp hfits hsize (by rw [hcount]; decide)
  have hobject : InObject [.alloc 8 (some (p + blockSize))] (p + blockSize) :=
    ⟨8, p + blockSize, by simp, le_rfl, by omega⟩
  have hin : InMetadata (formatHeader p (blockCount size)) (p + blockSize) :=
    inMetadata_iff.mpr ⟨by omega, hmeta⟩
  -- any other byte stored there changes the use map
  have hstore := hsafe.store _ m _ (m (p + blockSize) + 1) hrun hobject _ hin
  rw [store_self] at hstore
  simp at hstore

/-- Stores of the callers and allocations do not interfere exactly when the region is smaller
than 31 pages. -/
theorem noInterference_iff (hp : 0 < p) (hfits : p + size ≤ 2 ^ 64)
    (hsize : 2 * blockSize ≤ size) : NoInterference p size ↔ size < 31 * blockSize := by
  have hbounds := blockCount_bounds hsize
  rw [← blockCount_le_iff, ← metadataEnd_le_iff (p := p) hbounds.2]
  constructor
  · intro hsafe
    by_contra hmeta
    exact not_noInterference_of_lt hp hfits hsize (not_le.mp hmeta) hsafe
  · exact noInterference_of_le hfits

/-- The case of a region of 16 pages. -/
theorem noInterference_iff_pages :
    NoInterference 4096 65536 ↔ 65536 < 31 * blockSize :=
  noInterference_iff (by decide) (by decide) (by decide)

/-- On a region of 31 pages the first object of eight bytes shares a byte with the use map of
the last block. -/
theorem noInterference_31_pages :
    (∃ m, Run 4096 126976 [.alloc 8 (some 8192)] m ∧
      InMetadata (formatHeader 4096 (blockCount 126976)) 8192 ∧
      m.store 8192 (m 8192 + 1) 8192 ≠ m 8192) ∧
      ¬NoInterference 4096 126976 := by
  refine ⟨?_, not_noInterference_of_lt (by decide) (by decide) (by decide) (by decide)⟩
  obtain ⟨m, hrun⟩ :=
    @exists_run_first 4096 126976 (by decide) (by decide) (by decide) (by decide)
  exact ⟨m, hrun, inMetadata_iff.mpr (by decide), by simp⟩

end Hixo.Slub
