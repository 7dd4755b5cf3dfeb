import Hixo.Slub.Layout

/-!
# `slub_format` sets up an empty pool

The memory `slub_format` leaves describes the pool without assigned blocks
(`represents_of_slubFormat`). The initialisation of the use maps is two nested loops over
`mem_shift_left`; each is described by the bytes it leaves alone and by the bits it writes
(`formatUsemap_spec`, `formatUsemaps_spec`).
-/

namespace Hixo.Slub

open ByteMem

/-! ## The header -/

/-- The fields of the header fit into machine words when the region does. -/
theorem load_save (m : ByteMem) {p : ℕ} {slb : SlubT}
    (h : ∀ v ∈ [slb.magicNo, slb.nblocks, slb.bitmap, slb.bitmapSize, slb.usemap,
      slb.usemapSize, slb.block, slb.self], v < 2 ^ 64) :
    SlubT.load (slb.save m p) p = slb := by
  -- a field that is read back is the one written last at its place
  have hread (m : ByteMem) (i v : ℕ) (hv : v < 2 ^ 64) :
      readField (writeField m p i v) p i = v := by
    rw [readField, writeField, readLE_writeLE_self]
    exact Nat.mod_eq_of_lt hv
  -- the fields do not overlap
  have hskip (m : ByteMem) (i j v : ℕ) (hij : i ≠ j) :
      readField (writeField m p j v) p i = readField m p i := by
    refine readLE_writeLE_of_disjoint m v ?_
    simp only [wordSize]
    omega
  simp only [List.forall_mem_cons, List.not_mem_nil, false_implies, implies_true,
    and_true] at h
  obtain ⟨h0, h1, h2, h3, h4, h5, h6, h7⟩ := h
  simp (disch := decide) only [SlubT.load, SlubT.save, hskip]
  simp only [hread _ _ _ h0, hread _ _ _ h1, hread _ _ _ h2, hread _ _ _ h3, hread _ _ _ h4,
    hread _ _ _ h5, hread _ _ _ h6, hread _ _ _ h7]

/-! ## The use maps -/

/-- The inner loop after its first `c` object types: the offset has moved past their parts, only
these parts have changed, and each has its own bits shifted. -/
private theorem formatUsemap_fold (m : ByteMem) (base : ℕ) {c : ℕ} (hc : c ≤ objTypeCount) :
    let acc := (List.range c).foldl
      (fun (acc : ByteMem × ℕ) j =>
        (memShiftLeft acc.1 (base + acc.2) (occupyLen j) (occupy j), acc.2 + occupyLen j))
      (m, 0)
    acc.2 = usemapOffset c ∧
      (∀ x, ¬(base ≤ x ∧ x < base + usemapOffset c) → acc.1 x = m x) ∧
      ∀ t < c, ∀ j < 8 * occupyLen t, acc.1.bit (base + usemapOffset t) j =
        (decide (occupy t ≤ j) && m.bit (base + usemapOffset t) (j - occupy t)) := by
  induction c with
  | zero => simp [usemapOffset]
  | succ c ih =>
    obtain ⟨hoff, hframe, hbits⟩ := ih (by omega)
    rw [List.range_succ, List.foldl_append]
    simp only [List.foldl_cons, List.foldl_nil]
    generalize (List.range c).foldl _ (m, 0) = acc at hoff hframe hbits ⊢
    obtain ⟨m', off⟩ := acc
    dsimp only at hoff hframe hbits ⊢
    subst hoff
    have hshift : Set.EqOn (memShiftLeft m' (base + usemapOffset c) (occupyLen c) (occupy c)) m'
        (Set.Ico (base + usemapOffset c) (base + usemapOffset c + occupyLen c))ᶜ :=
      eqOn_memShiftLeft m' disjoint_compl_left
    refine ⟨(usemapOffset_succ c).symm, fun x hx => ?_, fun t ht j hj => ?_⟩
    · rw [usemapOffset_succ] at hx
      rw [hshift (by simp only [Set.mem_compl_iff, Set.mem_Ico]; omega)]
      exact hframe x (by omega)
    · rcases Nat.lt_succ_iff_lt_or_eq.mp ht with hlt | rfl
      · -- an earlier part keeps the bits it was given
        have hsep := usemapOffset_add_le (by omega : c < objTypeCount) hlt
        rw [bit_congr (hshift (by simp only [Set.mem_compl_iff, Set.mem_Ico]; omega))]
        exact hbits t hlt j hj
      · -- the part of this round was untouched before
        rw [bit_memShiftLeft m' hj]
        congr 1
        exact bit_congr (hframe _ (by omega))

/-- `formatUsemap` shifts the bits of every part of one use map, and changes nothing else. -/
theorem formatUsemap_spec (m : ByteMem) (base : ℕ) :
    (∀ x, ¬(base ≤ x ∧ x < base + 129) → formatUsemap m base x = m x) ∧
      ∀ t < objTypeCount, ∀ j < 8 * occupyLen t,
        (formatUsemap m base).bit (base + usemapOffset t) j =
          (decide (occupy t ≤ j) && m.bit (base + usemapOffset t) (j - occupy t)) :=
  (formatUsemap_fold m base le_rfl).2

/-- After its first `c` blocks the outer loop has formatted the use maps of these blocks, and
nothing else. -/
private theorem formatUsemaps_fold (m : ByteMem) (base c : ℕ) :
    let m' := (List.range c).foldl (fun m i => formatUsemap m (base + 129 * i)) m
    (∀ x, ¬(base ≤ x ∧ x < base + 129 * c) → m' x = m x) ∧
      ∀ k < c, ∀ t < objTypeCount, ∀ j < 8 * occupyLen t,
        m'.bit (base + 129 * k + usemapOffset t) j =
          (decide (occupy t ≤ j) && m.bit (base + 129 * k + usemapOffset t) (j - occupy t)) := by
  induction c with
  | zero => simp
  | succ c ih =>
    obtain ⟨hframe, hbits⟩ := ih
    rw [List.range_succ, List.foldl_append]
    simp only [List.foldl_cons, List.foldl_nil]
    generalize (List.range c).foldl _ m = m' at hframe hbits ⊢
    obtain ⟨hframe', hbits'⟩ := formatUsemap_spec m' (base + 129 * c)
    refine ⟨fun x hx => ?_, fun k hk t ht j hj => ?_⟩
    · rw [hframe' x (by omega)]
      exact hframe x (by omega)
    · have hsize := usemapOffset_add_le_size ht
      rcases Nat.lt_succ_iff_lt_or_eq.mp hk with hlt | rfl
      · rw [bit_congr (hframe' _ (by omega))]
        exact hbits k hlt t ht j hj
      · rw [hbits' t ht j hj]
        congr 1
        exact bit_congr (hframe _ (by omega))

/-- The use maps after `slub_format`, when their bytes were all ones: exactly the bits past the
last slot of a block are set. -/
theorem formatUsemaps_spec (m : ByteMem) {p n : ℕ}
    (hones : ∀ x, usemapAt p n 0 ≤ x ∧ x < metadataEnd p n → m x = 0xFF) :
    (∀ x, ¬(usemapAt p n 0 ≤ x ∧ x < metadataEnd p n) →
        formatUsemaps (formatHeader p n) m x = m x) ∧
      ∀ k < n, ∀ t < objTypeCount, ∀ j < 8 * occupyLen t,
        ((formatUsemaps (formatHeader p n) m).bit (usemapAt p n k + usemapOffset t) j = true ↔
          occupy t ≤ j) := by
  have hfold := formatUsemaps_fold m (usemapAt p n 0) n
  have hdef : formatUsemaps (formatHeader p n) m =
      (List.range n).foldl (fun m i => formatUsemap m (usemapAt p n 0 + 129 * i)) m := rfl
  obtain ⟨hframe, hbits⟩ := hfold
  rw [hdef]
  refine ⟨fun x hx => hframe x ?_, fun k hk t ht j hj => ?_⟩
  · -- the fold writes nothing outside the use maps
    unfold metadataEnd at hx
    unfold usemapAt at hx ⊢
    omega
  · have haddr : usemapAt p n k = usemapAt p n 0 + 129 * k := by
      unfold usemapAt
      omega
    rw [haddr, hbits k hk t ht j hj, ← haddr]
    have hbounds := usemapAt_bounds (p := p) hk ht
      (show (j - occupy t) / 8 < occupyLen t by omega)
    have hbyte := hones _ hbounds
    simp only [Bool.and_eq_true, decide_eq_true_eq, and_iff_left_iff_imp]
    -- all bits of a use map are set before, and only those below `occupy t` are cleared
    intro _
    rw [bit, hbyte]
    exact (eq_allOnes_iff _).mp rfl _ (Nat.mod_lt _ (by omega))

/-! ## The bitmaps -/

/-- The tail of the top bitmap: the bits from `offeredBlocks n` on are set. -/
theorem bit_topBitmap (m : ByteMem) {p n k : ℕ} (hn : 0 < n) (hk : k < 8 * bitmapBytes n)
    (hzero : ∀ i < bitmapBytes n, m (topBitmapAt p + i) = 0) :
    (m.store (topBitmapAt p + (bitmapBytes n - 1)) (0xFF#8 <<< (n % 8))).bit (topBitmapAt p) k =
      true ↔ offeredBlocks n ≤ k := by
  have hbytes : bitmapBytes n = (n + 7) / 8 := rfl
  by_cases hlast : k / 8 = bitmapBytes n - 1
  · have hset : (0xFF#8).getLsbD (k % 8 - n % 8) = true :=
      (eq_allOnes_iff _).mp rfl _ (by omega)
    rw [bit, hlast, store_self, BitVec.getLsbD_shiftLeft, hset, offeredBlocks]
    simp only [Bool.and_true, Bool.and_eq_true, decide_eq_true_eq, Bool.not_eq_true',
      decide_eq_false_iff_not, not_lt]
    split <;> omega
  · rw [bit, store_of_ne m _ (by omega), hzero _ (by omega), offeredBlocks]
    simp only [BitVec.ofNat_eq_ofNat, BitVec.getLsbD_zero, Bool.false_eq_true, false_iff, not_le]
    split <;> omega

/-! ## The formatted region -/

/-- An accepted region of at least two pages has from 2 up to 31 blocks. -/
theorem blockCount_bounds {size : ℕ} (h : 2 * blockSize ≤ size) :
    2 ≤ blockCount size ∧ blockCount size ≤ 31 := by
  simp only [blockSize_eq] at h
  unfold blockCount
  simp only [blockSize_eq, show blocksMax = 32 from rfl]
  split <;> omega

/-- `slub_format` accepts a region exactly when it has room for two pages, and then formats
it. -/
theorem slubFormat_eq_some_iff {m m' : ByteMem} {p size : ℕ} :
    slubFormat m p size = .ok (some m') ↔
      0 < p ∧ 2 * blockSize ≤ size ∧ formatRegion m p (blockCount size) = m' := by
  have husemap : (formatHeader p (blockCount size)).usemapSize ≠ 0 := by
    rw [show (formatHeader p (blockCount size)).usemapSize = 129 from rfl]
    decide
  unfold slubFormat
  rw [if_neg husemap]
  -- the checks that are left are the one on the pointer and those on the room
  by_cases hp : p = 0
  · simp [hp]
  by_cases hsize : 2 * blockSize ≤ size
  · have hbitmap : (formatHeader p (blockCount size)).bitmapSize ≠ 0 := by
      have hcount := (blockCount_bounds hsize).1
      rw [show (formatHeader p (blockCount size)).bitmapSize = (blockCount size + 7) / 8 from rfl]
      omega
    rw [if_neg hp, if_neg (by simp only [blockSize_eq] at hsize; omega),
      if_neg (by simp only [blockSize_eq] at hsize ⊢; omega), if_neg hbitmap]
    simp [hsize, Nat.pos_of_ne_zero hp]
  · have hroom : (size : ℤ) - blockSize < blockSize := by
      simp only [blockSize_eq] at hsize ⊢
      omega
    rw [if_neg hp, if_pos hroom]
    split <;> simp [hsize]

/-- An accepted region is left with the description of a pool without assigned blocks. -/
theorem represents_of_slubFormat {m m' : ByteMem} {p size : ℕ} (hfits : p + size ≤ 2 ^ 64)
    (h : slubFormat m p size = .ok (some m')) :
    Represents m' p (blockCount size) [] := by
  obtain ⟨hp, hsize, hm'⟩ := slubFormat_eq_some_iff.mp h
  obtain ⟨hlow, hhigh⟩ := blockCount_bounds hsize
  simp only [blockSize_eq] at hsize
  set n := blockCount size with hn
  have hbytes : bitmapBytes n = (n + 7) / 8 := rfl
  -- name the memories between the steps of `slub_format`
  set slb := formatHeader p n with hslb
  set m₁ := slb.save m p with hm₁
  set m₂ := m₁.fill slb.bitmap (slb.bitmapSize * (objTypeCount + 1)) 0 with hm₂
  set m₃ := m₂.store (slb.bitmap + (slb.bitmapSize - 1)) (0xFF#8 <<< (slb.nblocks % 8)) with hm₃
  set m₄ := m₃.fill slb.usemap (slb.usemapSize * slb.nblocks) 0xFF with hm₄
  replace hm' : m' = formatUsemaps slb m₄ := hm'.symm
  have hbitmap : slb.bitmap = topBitmapAt p := rfl
  have hbitmapSize : slb.bitmapSize = bitmapBytes n := rfl
  have husemap : slb.usemap = usemapAt p n 0 := rfl
  have husemapSize : slb.usemapSize = 129 := rfl
  have hnblocks : slb.nblocks = n := rfl
  rw [hbitmap, hbitmapSize, objTypeCount_eq] at hm₂
  rw [hbitmap, hbitmapSize, hnblocks] at hm₃
  rw [husemap, husemapSize, hnblocks] at hm₄
  have hend : usemapAt p n 0 + 129 * n = metadataEnd p n := rfl
  have htop : topBitmapAt p + bitmapBytes n * 10 = usemapAt p n 0 := rfl
  have hstart : p + 64 = topBitmapAt p := rfl
  obtain ⟨hframe, huse⟩ := formatUsemaps_spec (p := p) (n := n) m₄ fun x hx => by
    rw [hm₄, fill_of_mem _ _ (by omega)]
  rw [← hslb, ← hm'] at hframe huse
  -- below the use maps the result is `m₃`, in the bitmaps past the top one it is zero
  have hlow₃ (x : ℕ) (hx : x < usemapAt p n 0) : m' x = m₃ x := by
    rw [hframe x (by omega), hm₄, fill_of_notMem _ _ (by omega)]
  have hzero (x : ℕ) (hx : topBitmapAt p ≤ x ∧ x < usemapAt p n 0) : m₂ x = 0 := by
    rw [hm₂, fill_of_mem _ _ (by omega)]
  refine ⟨?_, fun k hk => ?_, fun t ht k hk => ?_, fun k hk t ht j hj => ?_, ?_, ?_⟩
  · have hload : SlubT.load m' p = SlubT.load m₁ p := by
      refine load_congr fun x hx => ?_
      simp only [Set.mem_Ico] at hx
      rw [hlow₃ x (by omega), hm₃, store_of_ne _ _ (by omega), hm₂,
        fill_of_notMem _ _ (by omega)]
    rw [hload, hm₁, load_save]
    simp only [List.forall_mem_cons, List.not_mem_nil, false_implies, implies_true, and_true]
    unfold usemapAt at htop
    simp only [hbitmap, hbitmapSize, husemap, husemapSize, hnblocks,
      show slb.magicNo = 0xE78F8A from rfl, show slb.block = p + 4096 from rfl,
      show slb.self = p from rfl, topBitmapAt, usemapAt]
    omega
  · rw [bit_congr (hlow₃ _ (by omega)), hm₃,
      bit_topBitmap m₂ (by omega) hk fun i hi => hzero _ (by omega)]
    simp
  · obtain ⟨hafter, hbefore⟩ := typeBitmapAt_bounds (p := p) (n := n) ht
    have hclear : m'.bit (typeBitmapAt p n t) k = false := by
      rw [bit, hlow₃ _ (by omega), hm₃, store_of_ne _ _ (by omega), hzero _ (by omega)]
      simp
    simp [hclear]
  · rw [huse k hk t ht j hj]
    simp
  · simp
  · simp

end Hixo.Slub
