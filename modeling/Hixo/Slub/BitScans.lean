import Mathlib.Data.List.Find
import Hixo.Slub.Layout

/-!
# The bit scans of `slub.c`

Four scans look for a clear bit: `mem_detect_bit`, the test `mem_is_filled`, which compares words
and then the bytes that are left, and the loops inside of `alloc_index_from_top_bitmap` and
`alloc_index_from_usemap`. They agree about every array.

* `promote_eq_ones_iff`, `promote_and_eq_zero_iff`: comparing a signed `char` with an `int`;
* `memDetectBit_eq`, `memIsFilled_eq`: the scans as searches for the least bit;
* `firstClearBit_map`: the loops inside of the allocator as the same search;
* `bitScans_agree`: all four, for every array.
-/

namespace Hixo.Slub

open ByteMem

variable {m : ByteMem} {p len type usemap : ℕ}

/-! ## Bytes as `int` -/

/-- A `char` equals `~0` when all its bits are set: it is extended by its sign. -/
theorem promote_eq_ones_iff {c : BitVec 8} : ~~~0#32 = promote c ↔ c = 0xFF#8 := by
  have hones : (~~~0#32).toInt = (0xFF#8).toInt := by decide
  rw [← BitVec.toInt_inj, promote, BitVec.toInt_signExtend_of_le (by decide), hones,
    BitVec.toInt_inj, eq_comm]

theorem promote_eq_zero_iff {c : BitVec 8} : 0#32 = promote c ↔ c = 0#8 := by
  have hzero : (0#32).toInt = (0#8).toInt := by decide
  rw [← BitVec.toInt_inj, promote, BitVec.toInt_signExtend_of_le (by decide), hzero,
    BitVec.toInt_inj, eq_comm]

/-- The mask `1 << j` takes bit `j` out of a `char`. -/
theorem promote_and_eq_zero_iff {c : BitVec 8} {j : ℕ} (hj : j < 8) :
    promote c &&& 1#32 <<< j = 0#32 ↔ c.getLsbD j = false := by
  have hbit : (promote c).getLsbD j = c.getLsbD j := by
    rw [promote, BitVec.getLsbD_signExtend, if_pos hj]
    simp [show j < 32 by omega]
  rw [← BitVec.twoPow_eq, BitVec.and_twoPow, hbit]
  cases c.getLsbD j with
  | false => simp
  | true =>
    have hne : BitVec.twoPow 32 j ≠ 0#32 := by
      intro heq
      have htest := congrArg (fun x => x.getLsbD j) heq
      simp [show j < 32 by omega] at htest
    simpa using hne

/-! ## The scans -/

/-- In one byte, `mem_detect_bit` finds the first bit with the value it looks for. -/
theorem findBit_eq (c : BitVec 8) (zero : ℤ) :
    (if zero ≠ 0 then
        if ~~~0#32 = promote c then none
        else (List.range 8).find? fun j => promote c &&& 1#32 <<< j == 0#32
      else
        if 0#32 = promote c then none
        else (List.range 8).find? fun j => promote c &&& 1#32 <<< j != 0#32) =
      (List.range 8).find? fun j => c.getLsbD j == decide (zero = 0) := by
  by_cases hzero : zero = 0
  · rw [if_neg (not_not.mpr hzero), decide_eq_true hzero]
    by_cases hc : c = 0#8
    · -- a byte that is skipped has no set bit
      rw [if_pos (promote_eq_zero_iff.mpr hc), eq_comm, List.find?_range_eq_none]
      intro j hj
      simp [(eq_zero_iff c).mp hc j hj]
    · rw [if_neg fun h => hc (promote_eq_zero_iff.mp h)]
      refine List.find?_congr fun j hj => ?_
      have hiff := promote_and_eq_zero_iff (c := c) (List.mem_range.mp hj)
      cases hbit : c.getLsbD j <;> simp [bne, hiff, hbit]
  · rw [if_pos hzero, decide_eq_false hzero]
    by_cases hc : c = 0xFF#8
    · -- a byte that is skipped has no clear bit
      rw [if_pos (promote_eq_ones_iff.mpr hc), eq_comm, List.find?_range_eq_none]
      intro j hj
      simp [(eq_allOnes_iff c).mp hc j hj]
    · rw [if_neg fun h => hc (promote_eq_ones_iff.mp h)]
      refine List.find?_congr fun j hj => ?_
      have hiff := promote_and_eq_zero_iff (c := c) (List.mem_range.mp hj)
      cases hbit : c.getLsbD j <;> simp [hiff, hbit]

/-- A search for a bit in one byte of the array is a search in that byte. -/
theorem find?_bit_eq (i : ℕ) (value : Bool) :
    ((List.range 8).find? fun j => m.bit p (i * 8 + j) == value) =
      (List.range 8).find? fun j => (m (p + i)).getLsbD j == value :=
  List.find?_congr fun _ hj => by rw [bit_mul_add m p i (List.mem_range.mp hj)]

/-- `mem_detect_bit` searches for the least clear bit, or for the least set one. -/
theorem memDetectBit_eq (hp : p ≠ 0) (hlen : 0 < len) (zero : ℤ) :
    memDetectBit m p len zero =
      .ok ((List.range (8 * len)).find? fun k => m.bit p k == decide (zero = 0)) := by
  rw [memDetectBit, if_neg hp, if_neg (Nat.ne_of_gt hlen), find?_range_mul_eight]
  congr 2
  funext i
  rw [find?_bit_eq, ← findBit_eq]
  dsimp only
  split_ifs <;> rfl

/-- The loops inside of the allocator search for the least clear bit. -/
theorem firstClearBit_map (m : ByteMem) (p len : ℕ) :
    ((m.firstClearBit p len).map fun ij => ij.1 * 8 + ij.2) =
      (List.range (8 * len)).find? fun k => m.bit p k == false := by
  cases hscan : m.firstClearBit p len with
  | none =>
    rw [Option.map_none, eq_comm, List.find?_range_eq_none]
    intro k hk
    simp [(firstClearBit_eq_none_iff m p len).mp hscan k hk]
  | some ij =>
    obtain ⟨i, j⟩ := ij
    obtain ⟨hi, hj, hclear, hbefore⟩ := (firstClearBit_eq_some_iff m p len i j).mp hscan
    rw [Option.map_some, eq_comm, List.find?_range_eq_some]
    refine ⟨by simp [hclear], by simp; omega, fun k hk => ?_⟩
    simp [hbefore k hk]

/-- A word equals `~0` when all its bits are set. -/
theorem word_eq_ones_iff {a : ℕ} :
    (~~~0#32).signExtend 64 = BitVec.ofNat 64 (m.readLE a wordSize) ↔
      ∀ k < 64, m.bit a k = true := by
  have hones : (~~~0#32).signExtend 64 = BitVec.allOnes 64 := by decide
  have hbit {k : ℕ} (hk : k < 64) :
      (BitVec.ofNat 64 (m.readLE a wordSize)).getLsbD k = m.bit a k := by
    rw [BitVec.getLsbD_ofNat, testBit_readLE]
    simp [wordSize, hk]
  rw [hones]
  constructor
  · intro heq k hk
    rw [← hbit hk, ← heq, BitVec.getLsbD_allOnes, decide_eq_true hk]
  · intro hall
    refine BitVec.eq_of_getLsbD_eq fun k hk => ?_
    rw [hbit hk, hall k hk, BitVec.getLsbD_allOnes, decide_eq_true hk]

/-- `mem_is_filled` tells whether all bits of the array are set. -/
theorem memIsFilled_eq (hp : p ≠ 0) (hlen : 0 < len) :
    ∃ filled, memIsFilled m p len = .ok filled ∧
      (filled = true ↔ ∀ k < 8 * len, m.bit p k = true) := by
  -- words first and then the bytes of the tail
  rw [memIsFilled, if_neg hp, if_neg (Nat.ne_of_gt hlen)]
  refine ⟨_, rfl, ?_⟩
  simp only [Bool.and_eq_true, List.all_eq_true, List.mem_range, beq_iff_eq, word_eq_ones_iff,
    promote_eq_ones_iff, eq_allOnes_iff, bit_add]
  simp only [wordSize]
  constructor
  · rintro ⟨hwords, hbytes⟩ k hk
    by_cases hword : k / 64 < len / 8
    · -- a bit of a word
      have hbit := hwords (k / 64) hword (k % 64) (Nat.mod_lt k (by decide))
      rwa [show 8 * (8 * (k / 64)) + k % 64 = k by omega] at hbit
    · -- a bit of the tail
      have hbit := hbytes (k / 8 - 8 * (len / 8)) (by omega) (k % 8) (Nat.mod_lt k (by decide))
      rwa [show p + 8 * (len / 8) + (k / 8 - 8 * (len / 8)) = p + k / 8 by omega] at hbit
  · intro hall
    refine ⟨fun i hi k hk => hall _ (by omega), fun i hi j hj => ?_⟩
    rw [Nat.add_assoc, ← bit_mul_add m p _ hj]
    exact hall _ (by omega)

/-! ## Agreement -/

/-- `r` is the least bit of the array with this value. -/
def LeastBit (m : ByteMem) (p len : ℕ) (value : Bool) : Option ℕ → Prop
  | none => ∀ k < 8 * len, m.bit p k ≠ value
  | some k => k < 8 * len ∧ m.bit p k = value ∧ ∀ i < k, m.bit p i ≠ value

/-- The memory in which `mem_set_bit(p, len, r, 1)` was called, unless `r` is -1. -/
def afterSet (m : ByteMem) (p : ℕ) : Option ℕ → ByteMem
  | none => m
  | some k => memSetBit m p k true

/-- What the scans do with the array of `len` bytes at `p`. -/
structure DetectsBits (m : ByteMem) (p len : ℕ) : Prop where
  /-- `mem_detect_bit(p, len, 1)` finds the least clear bit. -/
  clear : ∃ r, memDetectBit m p len 1 = .ok r ∧ LeastBit m p len false r
  /-- `mem_detect_bit(p, len, 0)` finds the least set bit. -/
  set : ∃ r, memDetectBit m p len 0 = .ok r ∧ LeastBit m p len true r
  /-- `mem_is_filled` is true when there is no clear bit. -/
  filled : ∃ filled, memIsFilled m p len = .ok filled ∧
    (filled = true ↔ memDetectBit m p len 1 = .ok none)

/-- `alloc_index_from_top_bitmap` finds what `mem_detect_bit` finds in the top bitmap and sets this
bit there. Otherwise only the same bit in the bitmap of the type changes. -/
structure ScansTopBitmap (m : ByteMem) (slb : SlubT) (type : ℕ) (r : Option ℕ) (m' : ByteMem) :
    Prop where
  index : memDetectBit m slb.bitmap slb.bitmapSize 1 = .ok r
  range : Set.EqOn m' (afterSet m slb.bitmap r) (Set.Ico slb.bitmap (slb.bitmap + slb.bitmapSize))
  unchanged : r = none → m' = m
  typeBit : ∀ k, r = some k → ∀ i,
    m'.bit (slb.typeBitmap type) i = (decide (i = k) || m.bit (slb.typeBitmap type) i)
  others : ∀ k, r = some k → ∀ a ∉ Set.Ico slb.bitmap (slb.bitmap + slb.bitmapSize),
    a ≠ slb.typeBitmap type + k / 8 → m' a = m a

/-- `alloc_index_from_usemap` finds what `mem_detect_bit` finds in the part of the use map that
belongs to the type, sets this bit and changes nothing else. -/
structure ScansUsemap (m : ByteMem) (type usemap : ℕ) (r : Option ℕ) (m' : ByteMem) : Prop where
  index : memDetectBit m (usemap + usemapOffset type) (occupyLen type) 1 = .ok r
  memory : m' = afterSet m (usemap + usemapOffset type) r

/-- A search from the first bit on finds the least bit with a value. -/
theorem leastBit_find? (m : ByteMem) (p len : ℕ) (value : Bool) :
    LeastBit m p len value ((List.range (8 * len)).find? fun k => m.bit p k == value) := by
  cases hscan : (List.range (8 * len)).find? fun k => m.bit p k == value with
  | none =>
    intro k hk
    simpa using List.find?_range_eq_none.mp hscan k hk
  | some k =>
    obtain ⟨hvalue, hk, hbefore⟩ := List.find?_range_eq_some.mp hscan
    exact ⟨by simpa using hk, by simpa using hvalue, fun i hi => by simpa using hbefore i hi⟩

theorem detectsBits (hp : p ≠ 0) (hlen : 0 < len) : DetectsBits m p len := by
  obtain ⟨filled, hfilled, hiff⟩ := memIsFilled_eq (m := m) hp hlen
  refine ⟨⟨_, memDetectBit_eq hp hlen 1, leastBit_find? m p len _⟩,
    ⟨_, memDetectBit_eq hp hlen 0, leastBit_find? m p len _⟩, filled, hfilled, ?_⟩
  rw [hiff, memDetectBit_eq hp hlen 1, Except.ok.injEq, List.find?_range_eq_none]
  simp

/-- Setting a bit, with the byte and the place in it given separately. -/
theorem memSetBit_mul_add {i j : ℕ} (hj : j < 8) :
    memSetBit m p (i * 8 + j) true = m.store (p + i) (m (p + i) ||| 1#8 <<< j) := by
  rw [memSetBit, if_pos rfl, show (i * 8 + j) / 8 = i by omega, show (i * 8 + j) % 8 = j by omega]

/-- The loop in `alloc_index_from_usemap` finds the first free object of its type. -/
theorem scansUsemap (hp : usemap + usemapOffset type ≠ 0) (hlen : 0 < occupyLen type) :
    ScansUsemap m type usemap (allocIndexFromUsemap m type usemap).1
      (allocIndexFromUsemap m type usemap).2 := by
  have hmap := firstClearBit_map m (usemap + usemapOffset type) (occupyLen type)
  have hindex := memDetectBit_eq (m := m) hp hlen 1
  rw [decide_eq_false one_ne_zero, ← hmap] at hindex
  rw [allocIndexFromUsemap]
  -- both scans stop at the same first clear bit
  cases hscan : m.firstClearBit (usemap + usemapOffset type) (occupyLen type) with
  | none =>
    rw [hscan] at hindex
    exact ⟨hindex, rfl⟩
  | some ij =>
    obtain ⟨i, j⟩ := ij
    obtain ⟨-, hj, -⟩ := (firstClearBit_eq_some_iff _ _ _ i j).mp hscan
    rw [hscan] at hindex
    exact ⟨hindex, (memSetBit_mul_add hj).symm⟩

/-- The loop in `alloc_index_from_top_bitmap` finds the first block that is not used. -/
theorem scansTopBitmap {slb : SlubT} (hp : slb.bitmap ≠ 0) (hlen : 0 < slb.bitmapSize) :
    ScansTopBitmap m slb type (allocIndexFromTopBitmap m slb type).1
      (allocIndexFromTopBitmap m slb type).2 := by
  have hmap := firstClearBit_map m slb.bitmap slb.bitmapSize
  have hindex := memDetectBit_eq (m := m) hp hlen 1
  rw [decide_eq_false one_ne_zero, ← hmap] at hindex
  rw [allocIndexFromTopBitmap]
  cases hscan : m.firstClearBit slb.bitmap slb.bitmapSize with
  | none =>
    rw [hscan] at hindex
    exact ⟨hindex, Set.eqOn_refl _ _, fun _ => rfl, by simp, by simp⟩
  | some ij =>
    obtain ⟨i, j⟩ := ij
    obtain ⟨hi, hj, -⟩ := (firstClearBit_eq_some_iff _ _ _ i j).mp hscan
    rw [hscan] at hindex
    dsimp only
    rw [← memSetBit_mul_add hj]
    -- the bitmap of the type lies behind the top bitmap
    have hbehind : slb.bitmap + slb.bitmapSize ≤ slb.typeBitmap type := by
      rw [SlubT.typeBitmap, Nat.mul_succ]
      omega
    have hout {a : ℕ} (ha : a ∉ Set.Ico slb.bitmap (slb.bitmap + slb.bitmapSize)) :
        memSetBit m slb.bitmap (i * 8 + j) true a = m a :=
      eqOn_setBit m slb.bitmap (i * 8 + j) (s := {a}) (by
        rintro rfl
        exact ha ⟨by omega, by omega⟩) rfl
    refine ⟨hindex, eqOn_setBit _ _ _ ?_, by simp, ?_, ?_⟩
    · rintro ⟨-, hlt⟩
      omega
    · rintro k hk b
      obtain rfl := Option.some.inj hk
      have hsame : (memSetBit m slb.bitmap (i * 8 + j) true).bit (slb.typeBitmap type) b =
          m.bit (slb.typeBitmap type) b :=
        bit_congr (hout fun hmem => by
          have hlt := hmem.2
          omega)
      rw [← hsame]
      exact bit_setBit _ _ _ _
    · rintro k hk a ha hne
      obtain rfl := Option.some.inj hk
      exact (store_of_ne _ _ hne).trans (hout ha)

/-- The four scans agree about every array: `mem_detect_bit` finds the least clear bit or the least
set one, `mem_is_filled` is true when there is no clear bit, and the loops of the allocator find
the least clear bit of their array and set it. -/
theorem bitScans_agree (m : ByteMem) :
    (∀ p len, p ≠ 0 → 0 < len → DetectsBits m p len) ∧
      (∀ slb type, slb.bitmap ≠ 0 → 0 < slb.bitmapSize → ∃ r m',
        allocIndexFromTopBitmap m slb type = (r, m') ∧ ScansTopBitmap m slb type r m') ∧
      ∀ type usemap, type < objTypeCount → usemap ≠ 0 → ∃ r m',
        allocIndexFromUsemap m type usemap = (r, m') ∧ ScansUsemap m type usemap r m' := by
  refine ⟨fun p len hp hlen => detectsBits hp hlen,
    fun slb type hp hlen => ⟨_, _, rfl, scansTopBitmap hp hlen⟩,
    fun type usemap htype husemap => ⟨_, _, rfl, scansUsemap (by omega) ?_⟩⟩
  have hall : ∀ type < objTypeCount, 0 < occupyLen type := by decide
  exact hall type htype

/-- A memory in which the nine bytes from 4096 on are filled, and those behind them have three bits
each. -/
def filledFront : ByteMem := fun a => if a < 4105 then 0xFF else 0x07

/-- The case of arrays that begin with filled bytes: eleven bytes, which are a word and three bytes
more, as any array and as a top bitmap, and the eight bytes of a use map that belong to a type. -/
theorem bitScans_agree_filledFront :
    DetectsBits filledFront 4096 11 ∧
      (∃ r m',
        allocIndexFromTopBitmap filledFront ⟨0xE78F8A, 88, 4096, 11, 4300, 128, 8192, 4032⟩ 2 =
          (r, m') ∧
        ScansTopBitmap filledFront ⟨0xE78F8A, 88, 4096, 11, 4300, 128, 8192, 4032⟩ 2 r m') ∧
      ∃ r m', allocIndexFromUsemap filledFront 3 3988 = (r, m') ∧
        ScansUsemap filledFront 3 3988 r m' := by
  obtain ⟨hbits, htop, husemap⟩ := bitScans_agree filledFront
  exact ⟨hbits 4096 11 (by decide) (by decide), htop _ 2 (by decide) (by decide),
    husemap 3 3988 (by decide) (by decide)⟩

/-- The least clear bit of the eleven bytes is the fourth one of the tenth byte. -/
example : memDetectBit filledFront 4096 11 1 = .ok (some 75) := by decide

end Hixo.Slub
