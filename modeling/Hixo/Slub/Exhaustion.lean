import Hixo.Slub.Runs

/-!
# Fresh blocks and the end of the pool

What happens when no block that a type owns has a slot left. `slub_alloc` then assigns a fresh
block and asserts that the search finds it, or returns `NULL`.

* `retrySucceeds_iff`: the assertion holds in every run exactly when at most eight blocks are
  offered. The search looks at one byte of the bitmap of the type, so that a ninth block of a
  type is out of reach;
* `noPrematureExhaustion_iff`: `NULL` means that nothing is left exactly when the number of
  blocks is not a multiple of eight. Otherwise the tail mark in the top bitmap covers the last
  eight blocks.
-/

namespace Hixo.Slub

open ByteMem SlabPool

variable {p size : ℕ}

/-! ## The assertion after the second search -/

/-- In no run without stores does the assertion after the second search of `slub_alloc` fail. -/
def RetrySucceeds (p size : ℕ) : Prop :=
  ∀ tr m s, Run p size tr m → AllocOnly tr → 0 < s → s ≤ 2048 →
    slubAlloc m p s ≠ .error .retryFound

/-- When at most eight blocks are offered, all of them are in one byte of a bitmap. -/
theorem retrySucceeds_of_le (hfits : p + size ≤ 2 ^ 64)
    (hoffered : offeredBlocks (blockCount size) ≤ 8) : RetrySucceeds p size := by
  intro tr m s hrun honly hs hle hfail
  obtain ⟨pool, hrep, -, -⟩ := hrun.exists_pool hfits (Or.inl honly)
  obtain ⟨t, ht⟩ := exists_typeOfSize hle
  have htlt : t < objTypeCount := (typeOfSize_eq_some_iff.mp ht).1
  have hspec := slubAlloc_spec hrep hrun.accepted.1 hs ht
  -- only a stuck request fails the assertion, and its new block is in another byte of the bitmap
  cases hout : SlabPool.alloc occupy 8 (offeredBlocks (blockCount size)) pool t with
  | slot k u pool' =>
    simp only [hout] at hspec
    obtain ⟨m', hret, -⟩ := hspec
    simp [hret] at hfail
  | exhausted =>
    simp only [hout] at hspec
    simp [hspec] at hfail
  | stuck =>
    obtain ⟨-, hroom, k, hk, hne⟩ :=
      (alloc_eq_stuck_iff (by omega) (occupy_pos htlt)).mp hout
    obtain ⟨⟨u, hu⟩, -⟩ := firstOwned_eq_some_iff.mp hk
    have hklt := (List.getElem?_eq_some_iff.mp hu).1
    omega

/-- After eight full blocks of 2048-byte objects, a request for one more gets block 8, which the
search does not find. -/
theorem exists_run_stuck (hp : 0 < p) (hfits : p + size ≤ 2 ^ 64) (hsize : 2 * blockSize ≤ size)
    (hoffered : 8 < offeredBlocks (blockCount size)) :
    ∃ tr m, Run p size tr m ∧ AllocOnly tr ∧ slubAlloc m p 2048 = .error .retryFound := by
  obtain ⟨tr, m, hrun, honly, hrep⟩ := exists_run_filled hp hfits hsize (c := 8) (by omega)
  have hstuck : SlabPool.alloc occupy 8 (offeredBlocks (blockCount size)) (filledPool 8) 8 =
      .stuck := by
    refine (alloc_eq_stuck_iff (by omega) (by decide)).mpr ⟨by decide, ?_, 0, by decide, ?_⟩ <;>
      rw [length_filledPool]
    · exact hoffered
    · decide
  have hspec := slubAlloc_spec (s := 2048) (t := 8) hrep hp (by omega) (by decide)
  simp only [hstuck] at hspec
  exact ⟨tr, m, hrun, honly, hspec⟩

/-- The assertion holds in every run exactly when the region has at most eight pages, or 16. -/
theorem retrySucceeds_iff (hp : 0 < p) (hfits : p + size ≤ 2 ^ 64)
    (hsize : 2 * blockSize ≤ size) :
    RetrySucceeds p size ↔ size / blockSize ≤ 8 ∨ size / blockSize = 16 := by
  have hiff : offeredBlocks (blockCount size) ≤ 8 ↔
      size / blockSize ≤ 8 ∨ size / blockSize = 16 := by
    unfold offeredBlocks blockCount
    rw [show blocksMax = 32 from rfl]
    split <;> split <;> omega
  rw [← hiff]
  constructor
  · intro hall
    by_contra hmany
    obtain ⟨tr, m, hrun, honly, hfail⟩ := exists_run_stuck hp hfits hsize (not_le.mp hmany)
    exact hall tr m 2048 hrun honly (by omega) le_rfl hfail
  · exact retrySucceeds_of_le hfits

/-- The case of a region of two pages. -/
theorem retrySucceeds_iff_pages :
    RetrySucceeds 4096 8192 ↔ 8192 / blockSize ≤ 8 ∨ 8192 / blockSize = 16 :=
  retrySucceeds_iff (by decide) (by decide) (by decide)

/-- On a region of nine pages the assertion fails in some run. -/
theorem retrySucceeds_nine_pages :
    (∃ tr m, Run 4096 36864 tr m ∧ AllocOnly tr ∧
      slubAlloc m 4096 2048 = .error .retryFound) ∧
      ¬RetrySucceeds 4096 36864 := by
  obtain ⟨tr, m, hrun, honly, hfail⟩ :=
    @exists_run_stuck 4096 36864 (by decide) (by decide) (by decide) (by decide)
  exact ⟨⟨tr, m, hrun, honly, hfail⟩,
    fun hall => hall tr m 2048 hrun honly (by decide) le_rfl hfail⟩

/-! ## `NULL` -/

/-- Block `k` is assigned to object type `t`: its bit in the bitmap of the type is set. -/
def Assigned (m : ByteMem) (p t k : ℕ) : Prop :=
  m.bit ((SlubT.load m p).typeBitmap t) k = true

/-- Every block is assigned to some object type, and every slot of the blocks of type `t` is a
result of the run. -/
structure NothingLeft (p : ℕ) (tr : List Event) (m : ByteMem) (t : ℕ) : Prop where
  /-- Every block is assigned. -/
  assigned : ∀ k < (SlubT.load m p).nblocks, ∃ t' < objTypeCount, Assigned m p t' k
  /-- Every slot of a block of the type was handed out. -/
  served : ∀ k < (SlubT.load m p).nblocks, Assigned m p t k → ∀ u < occupy t,
    ∃ s, .alloc s (some ((SlubT.load m p).block + k * blockSize + u * typeSize t)) ∈ tr

/-- In every run without stores, `slub_alloc` returns `NULL` only when nothing is left for the
type of the request. -/
def NoPrematureExhaustion (p size : ℕ) : Prop :=
  ∀ tr m s t m', Run p size tr m → AllocOnly tr → 0 < s → s ≤ 2048 → typeOfSize s = some t →
    slubAlloc m p s = .ok (none, m') → NothingLeft p tr m t

/-- When all blocks are offered, an exhausted pool has assigned all of them. -/
theorem noPrematureExhaustion_of_offered (hfits : p + size ≤ 2 ^ 64)
    (hoffered : offeredBlocks (blockCount size) = blockCount size) :
    NoPrematureExhaustion p size := by
  intro tr m s t m' hrun honly hs hle ht hnull
  have hbytes : bitmapBytes (blockCount size) = (blockCount size + 7) / 8 := rfl
  obtain ⟨pool, hrep, hserved, hone⟩ := hrun.exists_pool hfits (Or.inl honly)
  have htlt : t < objTypeCount := (typeOfSize_eq_some_iff.mp ht).1
  have hspec := slubAlloc_spec hrep hrun.accepted.1 hs ht
  have hblocks : (SlubT.load m p).nblocks = blockCount size := by
    rw [hrep.header]
    rfl
  -- what the bitmaps say about a block is what the pool says
  have hassigned {t' k : ℕ} (ht' : t' < objTypeCount) (hk : k < blockCount size) :
      Assigned m p t' k ↔ ∃ u, pool[k]? = some ⟨t', u⟩ := by
    unfold Assigned
    rw [hrep.header, formatHeader_typeBitmap]
    exact hrep.types t' ht' k (by omega)
  cases hout : SlabPool.alloc occupy 8 (offeredBlocks (blockCount size)) pool t with
  | slot k u pool' =>
    simp only [hout] at hspec
    obtain ⟨m'', hret, -⟩ := hspec
    simp [hret] at hnull
  | stuck =>
    simp only [hout] at hspec
    simp [hspec] at hnull
  | exhausted =>
    obtain ⟨hfail, hlimit⟩ := alloc_eq_exhausted_iff.mp hout
    rw [hoffered] at hlimit
    refine ⟨fun k hk => ?_, fun k hk hmark u hu => ?_⟩ <;> rw [hblocks] at hk
    · -- every block is assigned, since the pool has reached the limit
      have hget : pool[k]? = some pool[k] := List.getElem?_eq_getElem (by omega)
      have howner := (hrep.wellFormed k _ hget).1
      exact ⟨pool[k].owner, howner, (hassigned howner hk).mpr ⟨pool[k].used, hget⟩⟩
    · -- a block of the type is full, and its slots are results of the run
      obtain ⟨v, hv⟩ := (hassigned htlt hk).mp hmark
      have hfull := full_of_existing_eq_none (by omega) hone hfail hv rfl
      obtain ⟨s', -, hmem⟩ := hserved.isResult k t v u hv (by simpa using lt_of_lt_of_le hu hfull)
      rw [hrep.header]
      exact ⟨s', hmem⟩

/-- When the number of blocks is a multiple of eight, the last eight are never offered: with the
others full, a request for 2048 bytes returns `NULL`. -/
theorem exists_run_exhausted (hp : 0 < p) (hfits : p + size ≤ 2 ^ 64)
    (hsize : 2 * blockSize ≤ size) (hmod : blockCount size % 8 = 0) :
    ∃ tr m, Run p size tr m ∧ AllocOnly tr ∧ slubAlloc m p 2048 = .ok (none, m) ∧
      ∀ t < objTypeCount, ¬Assigned m p t (blockCount size - 1) := by
  have hbytes : bitmapBytes (blockCount size) = (blockCount size + 7) / 8 := rfl
  obtain ⟨hlow, hhigh⟩ := blockCount_bounds hsize
  have hoffered : offeredBlocks (blockCount size) = blockCount size - 8 := if_pos hmod
  obtain ⟨tr, m, hrun, honly, hrep⟩ := exists_run_filled hp hfits hsize le_rfl
  have hexhausted : SlabPool.alloc occupy 8 (offeredBlocks (blockCount size))
      (filledPool (offeredBlocks (blockCount size))) 8 = .exhausted := by
    -- every block that is offered is taken and full, and the last one is not offered
    refine alloc_eq_exhausted_iff.mpr ⟨?_, by rw [length_filledPool]⟩
    refine existing_eq_none_of_full fun k b hk howner => ?_
    have hkn : k < offeredBlocks (blockCount size) := by
      simpa using (List.getElem?_eq_some_iff.mp hk).1
    have hfirst : (0 : ℕ) < 64 := by omega
    exact (filledPool_full (by omega) hfirst hk howner).1
  have hspec := slubAlloc_spec (s := 2048) (t := 8) hrep hp (by omega) (by decide)
  simp only [hexhausted] at hspec
  refine ⟨tr, m, hrun, honly, hspec, fun t ht hmark => ?_⟩
  unfold Assigned at hmark
  rw [hrep.header, formatHeader_typeBitmap, hrep.types t ht _ (by omega)] at hmark
  obtain ⟨u, hu⟩ := hmark
  have hklt : blockCount size - 1 < offeredBlocks (blockCount size) := by
    simpa using (List.getElem?_eq_some_iff.mp hu).1
  omega

/-- `NULL` means that nothing is left exactly when the region has 32 pages or more, or a number
of pages that is not a multiple of eight. -/
theorem noPrematureExhaustion_iff (hp : 0 < p) (hfits : p + size ≤ 2 ^ 64)
    (hsize : 2 * blockSize ≤ size) :
    NoPrematureExhaustion p size ↔ 32 ≤ size / blockSize ∨ size / blockSize % 8 ≠ 0 := by
  obtain ⟨hlow, hhigh⟩ := blockCount_bounds hsize
  have hiff : blockCount size % 8 ≠ 0 ↔ 32 ≤ size / blockSize ∨ size / blockSize % 8 ≠ 0 := by
    unfold blockCount
    rw [show blocksMax = 32 from rfl]
    split <;> omega
  rw [← hiff]
  -- with a multiple of eight blocks the last eight are not offered, which the run above shows
  constructor
  · intro hall hmod
    obtain ⟨tr, m, hrun, honly, hnull, hfree⟩ := exists_run_exhausted hp hfits hsize hmod
    have hleft := hall tr m 2048 8 m hrun honly (by omega) le_rfl (by decide) hnull
    obtain ⟨pool, hrep, -⟩ := hrun.exists_pool hfits (Or.inl honly)
    have hblocks : (SlubT.load m p).nblocks = blockCount size := by
      rw [hrep.header]
      rfl
    obtain ⟨t, ht, hmark⟩ := hleft.assigned (blockCount size - 1) (by omega)
    exact hfree t ht hmark
  · intro hmod
    exact noPrematureExhaustion_of_offered hfits (if_neg hmod)

/-- The case of a region of two pages. -/
theorem noPrematureExhaustion_iff_pages :
    NoPrematureExhaustion 4096 8192 ↔ 32 ≤ 8192 / blockSize ∨ 8192 / blockSize % 8 ≠ 0 :=
  noPrematureExhaustion_iff (by decide) (by decide) (by decide)

/-- On a region of eight pages the first request returns `NULL`. -/
theorem noPrematureExhaustion_eight_pages :
    (∃ m, Run 4096 32768 [] m ∧ slubAlloc m 4096 2048 = .ok (none, m)) ∧
      ¬NoPrematureExhaustion 4096 32768 := by
  obtain ⟨m, hrun, hrep⟩ :=
    @exists_run_format 4096 32768 (by decide) (by decide) (by decide)
  have hspec := slubAlloc_spec (s := 2048) (t := 8) hrep (by decide) (by decide) (by decide)
  have hout : SlabPool.alloc occupy 8 (offeredBlocks (blockCount 32768)) [] 8 = .exhausted := by
    decide
  simp only [hout] at hspec
  refine ⟨⟨m, hrun, hspec⟩, fun hall => ?_⟩
  have hleft := hall [] m 2048 8 m hrun (fun _ _ => by simp) (by decide) le_rfl (by decide) hspec
  have hblocks : (SlubT.load m 4096).nblocks = 8 := by
    rw [hrep.header]
    rfl
  obtain ⟨t, ht, hmark⟩ := hleft.assigned 0 (by omega)
  unfold Assigned at hmark
  rw [hrep.header, formatHeader_typeBitmap, hrep.types t ht _ (by decide)] at hmark
  simp at hmark

end Hixo.Slub
