import Hixo.Slub.Format

/-!
# `slub_alloc` refines the slab pool

On memory that describes a pool, `slub_alloc` does what `SlabPool.alloc` does to the pool, with
a window of eight blocks: the search looks at one byte of a block bitmap. Each function of the
allocator is shown to do its part.

* `allocIndexFromUsemap_eq`: the first clear bit of a use map is the next slot of the block;
* `slubAllocFromExisted_eq`: the search over the blocks of a type is `SlabPool.existing`;
* `allocIndexFromTopBitmap_eq`: a fresh block is the next block of the pool;
* `slubAlloc_spec`: the three outcomes of `slub_alloc`.
-/

namespace Hixo.Slub

open ByteMem SlabPool

variable {m : ByteMem} {p n t : ℕ} {pool : SlabPool ℕ}

/-! ## Addresses in the header -/

theorem formatHeader_typeBitmap (p n t : ℕ) :
    (formatHeader p n).typeBitmap t = typeBitmapAt p n t := rfl

theorem formatHeader_usemap (p n k : ℕ) :
    (formatHeader p n).usemap + k * (formatHeader p n).usemapSize = usemapAt p n k := by
  rw [Nat.mul_comm k]
  rfl

/-- A block of the pool is one of the blocks of the region. -/
theorem Represents.lt_of_getElem? {k : ℕ} {b : SlabBlock ℕ} (h : Represents m p n pool)
    (hk : pool[k]? = some b) : k < n := by
  have hlt := (List.getElem?_eq_some_iff.mp hk).1
  exact lt_of_lt_of_le hlt (h.length_le.trans (offeredBlocks_le n))

/-- An assigned block belongs to an object type and hands out no more slots than it has. -/
theorem Represents.owned {k u : ℕ} (h : Represents m p n pool) (hk : pool[k]? = some ⟨t, u⟩) :
    t < objTypeCount ∧ u ≤ occupy t :=
  h.wellFormed k _ hk

/-! ## Slots of a block -/

/-- The use map of a block that belongs to `t`: the first clear bit is the next slot, and there
is none when the block is full. -/
theorem allocIndexFromUsemap_eq {k u : ℕ} (h : Represents m p n pool)
    (hk : pool[k]? = some ⟨t, u⟩) :
    allocIndexFromUsemap m t (usemapAt p n k) =
      if u < occupy t then (some u, m.setBit (usemapAt p n k + usemapOffset t) u)
      else (none, m) := by
  have hkn := h.lt_of_getElem? hk
  have ht := (h.owned hk).1
  have hbit (j : ℕ) (hj : j < 8 * occupyLen t) :
      m.bit (usemapAt p n k + usemapOffset t) j = true ↔ occupy t ≤ j ∨ j < u := by
    rw [h.use k hkn t ht j hj, hk]
    simp
  have hlen := occupy_le (t := t)
  unfold allocIndexFromUsemap
  -- the bits below `u` are set and the rest clear, up to `occupy t`
  by_cases hu : u < occupy t
  · have hscan : m.firstClearBit (usemapAt p n k + usemapOffset t) (occupyLen t) =
        some (u / 8, u % 8) := by
      refine (firstClearBit_eq_some_iff _ _ _ _ _).mpr ⟨by omega, by omega, ?_, fun j hj => ?_⟩
      · rw [Nat.div_add_mod', ← Bool.not_eq_true, hbit u (by omega)]
        omega
      · rw [Nat.div_add_mod'] at hj
        rw [hbit j (by omega)]
        omega
    rw [hscan, if_pos hu]
    simp only [Nat.div_add_mod']
    rfl
  · have hscan : m.firstClearBit (usemapAt p n k + usemapOffset t) (occupyLen t) = none := by
      refine (firstClearBit_eq_none_iff _ _ _).mpr fun j hj => ?_
      rw [hbit j hj]
      omega
    rw [hscan, if_neg hu]

/-- Setting the bit of the next slot hands it out. -/
theorem Represents.setBit_usemap {k u : ℕ} (h : Represents m p n pool)
    (hk : pool[k]? = some ⟨t, u⟩) (hu : u < occupy t) :
    Represents (m.setBit (usemapAt p n k + usemapOffset t) u) p n
      (pool.modify k fun b => { b with used := b.used + 1 }) := by
  have hkn := h.lt_of_getElem? hk
  have ht := (h.owned hk).1
  have hlen := occupy_le (t := t)
  have hbounds := usemapAt_bounds (p := p) hkn ht (show u / 8 < occupyLen t by omega)
  have hsame (i : ℕ) (hi : i ≠ k) :
      (pool.modify k fun b => { b with used := b.used + 1 })[i]? = pool[i]? :=
    List.getElem?_modify_ne _ _ (Ne.symm hi)
  have hget : (pool.modify k fun b => { b with used := b.used + 1 })[k]? = some ⟨t, u + 1⟩ := by
    simp [hk]
  refine ⟨?_, fun i hi => ?_, fun t' ht' i hi => ?_, fun i hi t' ht' j hj => ?_, ?_, ?_⟩
  · -- the header and the top bitmap lie before the use maps
    refine (load_congr (eqOn_setBit m _ _ ?_)).trans h.header
    simp only [Set.mem_Ico, usemapAt] at hbounds ⊢
    omega
  · rw [bit_setBit_of_ne m (by simp only [topBitmapAt, usemapAt] at hbounds ⊢; omega),
      h.top i hi, List.length_modify]
  · -- the bitmaps are before the use maps, and no block changes its type
    have hbefore := (typeBitmapAt_bounds (p := p) (n := n) ht').2
    rw [bit_setBit_of_ne m (by omega), h.types t' ht' i hi]
    by_cases hik : i = k
    · subst hik
      simp [hk]
    · rw [hsame i hik]
  · -- the use maps: the one that is written gains exactly the bit of slot `u`
    by_cases hbyte : i = k ∧ t' = t
    · obtain ⟨rfl, rfl⟩ := hbyte
      rw [bit_setBit, Bool.or_eq_true, decide_eq_true_eq, h.use i hi t' ht' j hj, hget, hk]
      simp only [Option.some.injEq, SlabBlock.mk.injEq, true_and, exists_eq_left']
      omega
    · -- the use maps of other blocks, and those of the block for other types
      have hne : usemapAt p n i + usemapOffset t' + j / 8 ≠
          usemapAt p n k + usemapOffset t + u / 8 := by
        intro haddr
        obtain ⟨hik, htt, -⟩ := usemapAt_add_inj ht' ht (by omega) (by omega) haddr
        exact hbyte ⟨hik, htt⟩
      rw [bit_setBit_of_ne m hne, h.use i hi t' ht' j hj]
      by_cases hik : i = k
      · subst hik
        have htt : t' ≠ t := fun htt => hbyte ⟨rfl, htt⟩
        simp [hk, Ne.symm htt]
      · rw [hsame i hik]
  · rw [List.length_modify]
    exact h.length_le
  · intro i b hi
    by_cases hik : i = k
    · subst hik
      obtain rfl : (⟨t, u + 1⟩ : SlabBlock ℕ) = b := Option.some.inj (hget.symm.trans hi)
      exact ⟨ht, hu⟩
    · rw [hsame i hik] at hi
      exact h.wellFormed i b hi

/-! ## The search over the blocks of a type -/

/-- The inner loop of the search tries the blocks of one bitmap byte in order. -/
theorem allocFromByte_eq {i : ℕ} (h : Represents m p n pool) (ht : t < objTypeCount)
    (hi : i < bitmapBytes n) {js : List ℕ} (hjs : ∀ j ∈ js, j < 8) :
    allocFromByte (formatHeader p n) t i m js =
      match (js.map fun j => i * 8 + j).find? fun k => HasRoom occupy pool t k with
      | some k => (some (slotAt p k t (usedOf pool k)),
          m.setBit (usemapAt p n k + usemapOffset t) (usedOf pool k))
      | none => (none, m) := by
  induction js with
  | nil => rfl
  | cons j js ih =>
    have hj : j < 8 := hjs j (by simp)
    have ih := ih fun j' hj' => hjs j' (by simp [hj'])
    -- the source tests the bit of the type bitmap, which says who owns the block
    have hbit : (m (typeBitmapAt p n t + i)).getLsbD j = true ↔
        ∃ u, pool[i * 8 + j]? = some ⟨t, u⟩ := by
      rw [← bit_mul_add m _ i hj]
      exact h.types t ht _ (by omega)
    rw [allocFromByte, formatHeader_typeBitmap, formatHeader_usemap, List.map_cons,
      List.find?_cons]
    by_cases howned : ∃ u, pool[i * 8 + j]? = some ⟨t, u⟩
    · obtain ⟨u, hu⟩ := howned
      rw [if_neg (by simpa using hbit.mpr ⟨u, hu⟩), allocIndexFromUsemap_eq h hu]
      by_cases hroom : u < occupy t
      · have hyes : HasRoom occupy pool t (i * 8 + j) := ⟨u, hu, hroom⟩
        simp only [hroom, if_true, hyes, decide_true, usedOf, hu]
        rfl
      · -- the use map of the block is full: the loop goes on
        have hno : ¬HasRoom occupy pool t (i * 8 + j) := by
          rintro ⟨v, hv, hlt⟩
          rw [hu] at hv
          simp only [Option.some.injEq, SlabBlock.mk.injEq, true_and] at hv
          omega
        simp only [hroom, if_false, hno, decide_false]
        exact ih
    · -- a block of another type, or of none
      have hno : ¬HasRoom occupy pool t (i * 8 + j) := by
        rintro ⟨u, hu, -⟩
        exact howned ⟨u, hu⟩
      rw [if_pos (by simpa using fun hset => howned (hbit.mp hset))]
      simp only [hno, decide_false]
      exact ih

/-- The first non-zero byte of the bitmap of a type is the one of its first block. -/
theorem find_bitmapByte_eq (h : Represents m p n pool) (ht : t < objTypeCount) :
    (List.range (bitmapBytes n)).find? (fun i => m (typeBitmapAt p n t + i) != 0) =
      (firstOwned pool t).map (· / 8) := by
  -- a byte of the bitmap is 0 when none of its eight blocks belongs to the type
  have hzero (i : ℕ) (hi : i < bitmapBytes n)
      (hnone : ∀ k, k / 8 = i → ∀ u, pool[k]? ≠ some ⟨t, u⟩) :
      m (typeBitmapAt p n t + i) = 0 := by
    refine (eq_zero_iff _).mpr fun j hj => ?_
    rw [← bit_mul_add m _ i hj, ← Bool.not_eq_true, h.types t ht _ (by omega)]
    rintro ⟨u, hu⟩
    exact hnone _ (by omega) u hu
  cases hfirst : firstOwned pool t with
  | none =>
    rw [Option.map_none]
    refine List.find?_range_eq_none.mpr fun i hi => ?_
    have hbyte := hzero i hi fun k _ u hu => firstOwned_eq_none_iff.mp hfirst k _ hu rfl
    simpa using hbyte
  | some k =>
    obtain ⟨⟨u, hu⟩, hbefore⟩ := firstOwned_eq_some_iff.mp hfirst
    have hkn := h.lt_of_getElem? hu
    have hbytes : bitmapBytes n = (n + 7) / 8 := rfl
    rw [Option.map_some]
    refine List.find?_range_eq_some.mpr ⟨?_, List.mem_range.mpr (by omega), fun i hi => ?_⟩
    · have hset := (h.types t ht k (by omega)).mpr ⟨u, hu⟩
      have hne : m (typeBitmapAt p n t + k / 8) ≠ 0 := by
        intro hbyte
        rw [bit, hbyte] at hset
        simp at hset
      simpa using hne
    · have hbyte := hzero i (by omega) fun k' hk' v hv => hbefore k' _ (by omega) hv rfl
      simpa using hbyte

/-- The search over the blocks that a type already owns. -/
theorem slubAllocFromExisted_eq (h : Represents m p n pool) (ht : t < objTypeCount) :
    slubAllocFromExisted m (formatHeader p n) t =
      match existing occupy 8 pool t with
      | some k => (some (slotAt p k t (usedOf pool k)),
          m.setBit (usemapAt p n k + usemapOffset t) (usedOf pool k))
      | none => (none, m) := by
  unfold slubAllocFromExisted existing
  simp only [formatHeader_typeBitmap]
  rw [show (formatHeader p n).bitmapSize = bitmapBytes n from rfl, find_bitmapByte_eq h ht]
  -- the byte of the first block that the type owns is the first one that is not 0
  cases hfirst : firstOwned pool t with
  | none => rfl
  | some k =>
    obtain ⟨⟨u, hu⟩, -⟩ := firstOwned_eq_some_iff.mp hfirst
    have hkn := h.lt_of_getElem? hu
    have hbytes : bitmapBytes n = (n + 7) / 8 := rfl
    simp only [Option.map_some]
    rw [allocFromByte_eq h ht (by omega) fun j hj => List.mem_range.mp hj]

/-! ## Fresh blocks -/

/-- Marking the next block in the top bitmap and in the bitmap of a type assigns it. -/
theorem Represents.setBit_bitmaps (h : Represents m p n pool) (ht : t < objTypeCount)
    (hroom : pool.length < offeredBlocks n) :
    Represents ((m.setBit (topBitmapAt p) pool.length).setBit (typeBitmapAt p n t) pool.length)
      p n (pool ++ [⟨t, 0⟩]) := by
  have hbytes : bitmapBytes n = (n + 7) / 8 := rfl
  have hoffered := offeredBlocks_le n
  obtain ⟨hafter, hbefore⟩ := typeBitmapAt_bounds (p := p) (n := n) ht
  -- every entry of the longer pool is an old one, or it is the new block
  have hget (k : ℕ) (b : SlabBlock ℕ) : (pool ++ [(⟨t, 0⟩ : SlabBlock ℕ)])[k]? = some b ↔
      pool[k]? = some b ∨ k = pool.length ∧ b = ⟨t, 0⟩ := by
    rcases lt_trichotomy k pool.length with hlt | rfl | hgt
    · rw [List.getElem?_append_left hlt]
      simp [hlt.ne]
    · simp [eq_comm]
    · rw [List.getElem?_eq_none (by simp; omega), List.getElem?_eq_none (by omega)]
      simp [hgt.ne']
  refine ⟨?_, fun k hk => ?_, fun t' ht' k hk => ?_, fun k hk t' ht' j hj => ?_, ?_, ?_⟩
  · -- both bits are behind the header
    refine ((load_congr (eqOn_setBit _ _ _ ?_)).trans
      (load_congr (eqOn_setBit m _ _ ?_))).trans h.header <;>
    · simp only [Set.mem_Ico, topBitmapAt] at hafter ⊢
      omega
  · -- the top bitmap gets one more bit, the one after the last block
    rw [bit_setBit_of_ne _ (by omega), bit_setBit, Bool.or_eq_true, decide_eq_true_eq,
      h.top k hk, List.length_append, List.length_singleton]
    omega
  · -- the bitmaps of the types: only the one of `t` gets a bit
    have hinner : (m.setBit (topBitmapAt p) pool.length).bit (typeBitmapAt p n t') k =
        m.bit (typeBitmapAt p n t') k := by
      have hafter' := (typeBitmapAt_bounds (p := p) (n := n) ht').1
      exact bit_setBit_of_ne m (by omega)
    by_cases htt : t' = t
    · subst htt
      rw [bit_setBit, hinner, Bool.or_eq_true, decide_eq_true_eq, h.types t' ht' k hk]
      simp only [hget, SlabBlock.mk.injEq, true_and, exists_or]
      constructor
      · rintro (rfl | hold)
        · exact Or.inr ⟨0, rfl, rfl⟩
        · exact Or.inl hold
      · rintro (hold | ⟨-, rfl, -⟩)
        · exact Or.inr hold
        · exact Or.inl rfl
    · have hne : typeBitmapAt p n t' + k / 8 ≠ typeBitmapAt p n t + pool.length / 8 := by
        intro haddr
        exact htt (typeBitmapAt_add_inj (by omega) (by omega) haddr).1
      rw [bit_setBit_of_ne _ hne, hinner, h.types t' ht' k hk]
      simp [hget, htt]
  · -- the use maps are behind the bitmaps, and the new block has no slot in use
    have hbounds := usemapAt_bounds (p := p) hk ht' (show j / 8 < occupyLen t' by omega)
    rw [bit_setBit_of_ne _ (by omega), bit_setBit_of_ne _ (by omega), h.use k hk t' ht' j hj]
    simp only [hget, SlabBlock.mk.injEq]
    constructor
    · rintro (hpad | ⟨u, hu, hlt⟩)
      · exact Or.inl hpad
      · exact Or.inr ⟨u, Or.inl hu, hlt⟩
    · rintro (hpad | ⟨u, hu | ⟨-, -, rfl⟩, hlt⟩)
      · exact Or.inl hpad
      · exact Or.inr ⟨u, hu, hlt⟩
      · omega
  · rw [List.length_append, List.length_singleton]
    omega
  · intro k b hk
    rcases (hget k b).mp hk with hold | ⟨-, rfl⟩
    · exact h.wellFormed k b hold
    · exact ⟨ht, Nat.zero_le _⟩

/-- Taking a fresh block: the next block of the pool, unless all offered ones are assigned. -/
theorem allocIndexFromTopBitmap_eq (h : Represents m p n pool) :
    allocIndexFromTopBitmap m (formatHeader p n) t =
      if pool.length < offeredBlocks n then
        (some pool.length,
          (m.setBit (topBitmapAt p) pool.length).setBit (typeBitmapAt p n t) pool.length)
      else (none, m) := by
  have hbytes : bitmapBytes n = (n + 7) / 8 := rfl
  have hoffered := offeredBlocks_le n
  unfold allocIndexFromTopBitmap
  rw [show (formatHeader p n).bitmap = topBitmapAt p from rfl,
    show (formatHeader p n).bitmapSize = bitmapBytes n from rfl, formatHeader_typeBitmap]
  -- the blocks of the pool are the ones marked, so the first clear bit is that of the next block
  by_cases hroom : pool.length < offeredBlocks n
  · have hscan : m.firstClearBit (topBitmapAt p) (bitmapBytes n) =
        some (pool.length / 8, pool.length % 8) := by
      refine (firstClearBit_eq_some_iff _ _ _ _ _).mpr ⟨by omega, by omega, ?_, fun k hk => ?_⟩
      · rw [Nat.div_add_mod', ← Bool.not_eq_true, h.top _ (by omega)]
        omega
      · rw [Nat.div_add_mod'] at hk
        rw [h.top k (by omega)]
        exact Or.inl hk
    rw [hscan, if_pos hroom]
    simp only [Nat.div_add_mod', memSetBit, if_true]
    rfl
  · have hscan : m.firstClearBit (topBitmapAt p) (bitmapBytes n) = none := by
      refine (firstClearBit_eq_none_iff _ _ _).mpr fun k hk => ?_
      rw [h.top k hk]
      omega
    rw [hscan, if_neg hroom]

/-! ## One allocation -/

/-- `slub_alloc` on memory that describes a pool does what the pool does: it returns the next
slot of a block, `NULL` when no block is left, or fails its last assertion when the fresh block
is out of reach of the search. Outside the metadata it changes nothing. -/
theorem slubAlloc_spec {s : ℕ} (h : Represents m p n pool) (hp : 0 < p) (hs : 0 < s)
    (ht : typeOfSize s = some t) :
    match SlabPool.alloc occupy 8 (offeredBlocks n) pool t with
    | .slot k u pool' => ∃ m', slubAlloc m p s = .ok (some (slotAt p k t u), m') ∧
        Represents m' p n pool' ∧
        ∀ x, ¬(p + 64 ≤ x ∧ x < metadataEnd p n) → m' x = m x
    | .exhausted => slubAlloc m p s = .ok (none, m)
    | .stuck => slubAlloc m p s = .error .retryFound := by
  have htlt : t < objTypeCount := (typeOfSize_eq_some_iff.mp ht).1
  have hbytes : bitmapBytes n = (n + 7) / 8 := rfl
  have hoffered := offeredBlocks_le n
  obtain ⟨hafter, hbefore⟩ := typeBitmapAt_bounds (p := p) (n := n) htlt
  -- the bytes that hold the next slot of a block lie in the metadata
  have hslot {m' : ByteMem} {pool' : SlabPool ℕ} {k : ℕ} (h' : Represents m' p n pool')
      (hk : existing occupy 8 pool' t = some k) :
      Represents (m'.setBit (usemapAt p n k + usemapOffset t) (usedOf pool' k)) p n
          (pool'.modify k fun b => { b with used := b.used + 1 }) ∧
        ∀ x, ¬(p + 64 ≤ x ∧ x < metadataEnd p n) →
          m'.setBit (usemapAt p n k + usemapOffset t) (usedOf pool' k) x = m' x := by
    obtain ⟨u, hu, hlt⟩ := hasRoom_of_existing_eq_some hk
    have hused : usedOf pool' k = u := by simp [usedOf, hu]
    have hlen := occupy_le (t := t)
    have hbounds := usemapAt_bounds (p := p) (h'.lt_of_getElem? hu) htlt
      (show u / 8 < occupyLen t by omega)
    rw [hused]
    refine ⟨h'.setBit_usemap hu hlt, fun x hx => store_of_ne m' _ ?_⟩
    simp only [usemapAt] at hbounds ⊢
    omega
  have hexisted {m' : ByteMem} {pool' : SlabPool ℕ} (h' : Represents m' p n pool') :=
    slubAllocFromExisted_eq h' htlt
  unfold slubAlloc SlabPool.alloc
  simp only [h.header, ht, if_neg (Nat.pos_iff_ne_zero.mp hp), if_neg (Nat.pos_iff_ne_zero.mp hs),
    show (formatHeader p n).magicNo = 0xE78F8A from rfl, ne_eq, not_true_eq_false, if_false,
    hexisted h]
  cases hex : existing occupy 8 pool t with
  | some k =>
    obtain ⟨hrep, hframe⟩ := hslot h hex
    exact ⟨_, rfl, hrep, hframe⟩
  | none =>
    simp only [allocIndexFromTopBitmap_eq h]
    by_cases hroom : pool.length < offeredBlocks n
    · simp only [hroom, if_true]
      have hfresh := h.setBit_bitmaps htlt hroom
      simp only [hexisted hfresh]
      cases hex' : existing occupy 8 (pool ++ [⟨t, 0⟩]) t with
      | some k =>
        obtain ⟨hrep, hframe⟩ := hslot hfresh hex'
        refine ⟨_, rfl, hrep, fun x hx => (hframe x hx).trans ?_⟩
        simp only [topBitmapAt, usemapAt, metadataEnd] at hafter hbefore hx
        rw [setBit, store_of_ne _ _ (by omega), setBit,
          store_of_ne _ _ (by simp only [topBitmapAt]; omega)]
      | none => rfl
    · simp only [hroom, if_false]

end Hixo.Slub
