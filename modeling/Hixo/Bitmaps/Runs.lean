import Hixo.Bitmaps.Defs
import Hixo.Foundation.ByteMemory

/-!
# Runs on a bitmap

The offset of a bit is compared with `8 * m_size - 1`. The wrapping of this arithmetic does no harm
to a bitmap of the greatest size; but of a bitmap of size 0, every offset passes. And a creation
that fails leaves a size without bytes.

* `Op`, `Op.run`: the operations on a bitmap;
* `Meets`: every operation of a run has its promised result;
* `Invariant`, `Op.run_spec`: the sizes and the bits in reachable states, and what an operation
  does to them;
* `meets_iff`: the runs whose operations all have their promised results.
-/

namespace Hixo.Bitmaps

open ByteBlock

/-! ## Runs -/

/-- An operation on a bitmap. -/
inductive Op where
  | create (nbits : UInt32) (allocated : Bool)
  | set (k : UInt32)
  | isSet (k : UInt32)
  | destroy

/-- The result of an operation, and the bitmap after it. -/
def Op.run (bm : Bitmap) : Op → Except Fault (Bool × Bitmap)
  | .create nbits allocated => .ok (createBitmap allocated bm nbits)
  | .set k => bitmapSet bm k
  | .isSet k => do
    let rslt ← bitmapIsSet bm k
    .ok (rslt, bm)
  | .destroy => .ok (true, destroyBitmap bm)

/-- The bits that were set since the last successful creation. -/
def Op.bits (rslt : Bool) (bits : Set UInt32) : Op → Set UInt32
  | .create _ _ => if rslt then ∅ else bits
  | .set k => if rslt then insert k bits else bits
  | .isSet _ => bits
  | .destroy => bits

/-- The offset `k` is below 8 times the number of the bytes that are allocated. -/
def InRange (bm : Bitmap) (k : UInt32) : Prop := k.toNat < 8 * (bm.data.getD []).length

/-- The promised result of an operation, when `bits` were set. -/
def Op.Answers (bm : Bitmap) (bits : Set UInt32) (rslt : Bool) : Op → Prop
  | .create nbits allocated => rslt = true ↔ nbits ≠ 0 ∧ allocated = true
  | .set k => rslt = true ↔ InRange bm k
  | .isSet k => rslt = true ↔ InRange bm k ∧ k ∈ bits
  | .destroy => rslt = true

/-- Every operation of the run has its promised result, and accesses no byte that is not
allocated. -/
def Meets (bm : Bitmap) (bits : Set UInt32) : List Op → Prop
  | [] => True
  | op :: ops => ∃ rslt bm', op.run bm = .ok (rslt, bm') ∧ op.Answers bm bits rslt ∧
      Meets bm' (op.bits rslt bits) ops

/-- A bitmap without bytes has a size, and the offset `k` is not below 8 times this size. -/
def Guarded (bm : Bitmap) (k : UInt32) : Prop :=
  bm.data = none → bm.size ≠ 0 ∧ 8 * bm.size.toNat ≤ k.toNat

/-- A bit of a bitmap without bytes is used only when its offset is refused. -/
def Op.Safe (bm : Bitmap) : Op → Prop
  | .set k | .isSet k => Guarded bm k
  | .create _ _ | .destroy => True

/-- Every operation of the run is safe in the state before it. -/
def AllSafe (bm : Bitmap) : List Op → Prop
  | [] => True
  | op :: ops => op.Safe bm ∧ ∀ rslt bm', op.run bm = .ok (rslt, bm') → AllSafe bm' ops

/-- A bitmap that was not created, or that was destroyed. -/
def noBitmap : Bitmap := ⟨none, 0⟩

/-! ## Bits -/

variable {bm bm' : Bitmap} {bytes : List UInt8} {k i : UInt32} {bits : Set UInt32}

/-- The bytes of a block as a memory. -/
def memOf (bytes : List UInt8) : ByteMem := fun a => (bytes.getD a 0).toBitVec

/-- In a block of zeros, no bit is set. -/
theorem bit_replicate_zero (n a k : ℕ) : (memOf (List.replicate n 0)).bit a k = false := by
  have hbyte : (List.replicate n (0 : UInt8)).getD (a + k / 8) 0 = 0 := by
    rw [List.getD_eq_getElem?_getD, List.getElem?_replicate]
    split <;> rfl
  rw [ByteMem.bit, memOf, hbyte]
  simp

theorem toBitVec_bitMask : (bitMask k).toBitVec = 1#8 <<< (k.toNat % 8) := by
  rw [bitMask, UInt8.toBitVec_ofNat', UInt32.toNat_mod]
  apply BitVec.eq_of_toNat_eq
  simp

/-- The test that `bitmap_is_set` makes on a byte tells whether the bit is set. -/
theorem and_bitMask_ne_zero {b : UInt8} :
    b &&& bitMask k ≠ 0 ↔ b.toBitVec.getLsbD (k.toNat % 8) = true := by
  have hlt : k.toNat % 8 < 8 := Nat.mod_lt _ (by decide)
  -- a mask is not zero, since it has its bit
  have hmask : BitVec.twoPow 8 (k.toNat % 8) ≠ 0 := by
    intro hzero
    have hbit := congrArg (fun v => v.getLsbD (k.toNat % 8)) hzero
    simp [hlt] at hbit
  rw [ne_eq, ← UInt8.toBitVec_inj, UInt8.toBitVec_and, toBitVec_bitMask, ← BitVec.twoPow_eq,
    BitVec.and_twoPow]
  cases b.toBitVec.getLsbD (k.toNat % 8) with
  | false => simp
  | true => simpa using hmask

/-- What `bitmap_set` writes sets one bit. -/
theorem memOf_set (hk : k.toNat / 8 < bytes.length) :
    memOf (bytes.set (k.toNat / 8) (bytes.getD (k.toNat / 8) 0 ||| bitMask k)) =
      (memOf bytes).setBit 0 k.toNat := by
  funext a
  rw [ByteMem.setBit, Nat.zero_add]
  by_cases ha : a = k.toNat / 8
  · subst ha
    rw [ByteMem.store_self, memOf, memOf]
    simp [hk, toBitVec_bitMask]
  · rw [ByteMem.store_of_ne _ _ ha, memOf, memOf]
    simp [List.getD_eq_getElem?_getD, List.getElem?_set_ne (Ne.symm ha)]

/-! ## The range of offsets -/

/-- The sizes and the bits in a reachable state. -/
structure Invariant (bm : Bitmap) (bits : Set UInt32) : Prop where
  size_le : bm.size.toNat ≤ 2 ^ 29
  length_eq : ∀ bytes, bm.data = some bytes → bytes.length = bm.size.toNat ∧ bm.size ≠ 0
  bit_iff : ∀ bytes, bm.data = some bytes →
    ∀ k, InRange bm k → ((memOf bytes).bit 0 k.toNat = true ↔ k ∈ bits)

/-- A bitmap without bytes keeps the invariant, whatever bits it stands for. -/
theorem Invariant.of_none (hdata : bm.data = none) (hsize : bm.size.toNat ≤ 2 ^ 29) :
    Invariant bm bits := by
  have hnone : ∀ bytes, bm.data ≠ some bytes := fun bytes hbytes => by
    rw [hdata] at hbytes
    cases hbytes
  exact ⟨hsize, fun bytes hbytes => absurd hbytes (hnone bytes),
    fun bytes hbytes => absurd hbytes (hnone bytes)⟩

/-- `8 * m_size - 1` is the offset of the last bit, unless the size is 0. -/
theorem refused_iff (hinv : Invariant bm bits) :
    k > 8 * bm.size - 1 ↔ bm.size ≠ 0 ∧ 8 * bm.size.toNat ≤ k.toNat := by
  have hsize := hinv.size_le
  have hk := k.toNat_lt
  rw [gt_iff_lt, UInt32.lt_iff_toNat_lt, UInt32.toNat_sub, UInt32.toNat_mul, ne_eq,
    ← UInt32.toNat_inj]
  simp only [UInt32.reduceToNat]
  omega

/-- An offset in the range of a bitmap that has bytes passes. -/
theorem refused_iff_of_data (hinv : Invariant bm bits) (hdata : bm.data = some bytes) :
    k > 8 * bm.size - 1 ↔ ¬ InRange bm k := by
  obtain ⟨hlength, hsize⟩ := hinv.length_eq bytes hdata
  rw [refused_iff hinv, InRange, hdata, Option.getD_some, hlength, Nat.not_lt]
  exact and_iff_right hsize

/-- No offset is in the range of a bitmap that has no bytes. -/
theorem not_inRange_of_none (hdata : bm.data = none) : ¬ InRange bm k := by
  rw [InRange, hdata]
  simp

/-- A bitmap with a bit in range has bytes. -/
theorem InRange.exists_data (hk : InRange bm k) : ∃ bytes, bm.data = some bytes := by
  cases hdata : bm.data with
  | none => exact absurd hk (not_inRange_of_none hdata)
  | some bytes => exact ⟨bytes, rfl⟩

/-- The byte that holds a bit in range is one of the bitmap. -/
theorem InRange.div_lt (hk : InRange bm k) (hdata : bm.data = some bytes) :
    k.toNat / 8 < bytes.length := by
  rw [InRange, hdata] at hk
  exact Nat.div_lt_of_lt_mul hk

/-- Without bytes, the offsets that pass lead to an access outside. -/
theorem guarded_iff (hinv : Invariant bm bits) (hdata : bm.data = none) :
    Guarded bm k ↔ k > 8 * bm.size - 1 := by
  rw [refused_iff hinv]
  exact imp_iff_right hdata

/-- An offset out of range is refused, if it is guarded. -/
theorem Guarded.refused (hguard : Guarded bm k) (hinv : Invariant bm bits) (hk : ¬ InRange bm k) :
    k > 8 * bm.size - 1 := by
  cases hdata : bm.data with
  | none => exact (guarded_iff hinv hdata).mp hguard
  | some bytes => exact (refused_iff_of_data hinv hdata).mpr hk

/-- Without bytes, an offset that is not refused is a fault. -/
theorem load_of_not_guarded (hguard : ¬ Guarded bm k) (i : ℤ) :
    load bm.data i = .error (.overrun i) := by
  rw [(Classical.not_imp.mp hguard).1]
  rfl

/-! ## Operations -/

/-- `bitmap_set` with an offset in range sets the bit in its byte and returns true. -/
theorem bitmapSet_of_inRange (hinv : Invariant bm bits) (hdata : bm.data = some bytes)
    (hk : InRange bm k) :
    bitmapSet bm k = .ok (true, ⟨some (bytes.set (k.toNat / 8)
      (bytes.getD (k.toNat / 8) 0 ||| bitMask k)), bm.size⟩) := by
  have hlt := hk.div_lt hdata
  have hdiv : (k / 8).toNat = k.toNat / 8 := UInt32.toNat_div _ _
  rw [bitmapSet, if_neg (fun h => (refused_iff_of_data hinv hdata).mp h hk), hdata, hdiv,
    Programs.bind_of_eq_ok (load_of_lt hlt), Programs.bind_of_eq_ok (store_of_lt hlt)]

/-- `bitmap_is_set` with an offset in range returns the bit. -/
theorem bitmapIsSet_of_inRange (hinv : Invariant bm bits) (hdata : bm.data = some bytes)
    (hk : InRange bm k) : bitmapIsSet bm k = .ok ((memOf bytes).bit 0 k.toNat) := by
  have hlt := hk.div_lt hdata
  have hdiv : (k / 8).toNat = k.toNat / 8 := UInt32.toNat_div _ _
  rw [bitmapIsSet, if_neg (fun h => (refused_iff_of_data hinv hdata).mp h hk), hdata, hdiv,
    Programs.bind_of_eq_ok (load_of_lt hlt), ByteMem.bit, Nat.zero_add, memOf]
  simp only [and_bitMask_ne_zero, Bool.decide_eq_true]

/-- After `bitmap_set` the bitmap stands for the same bits and the new one. -/
theorem Invariant.set (hinv : Invariant bm bits) (hdata : bm.data = some bytes)
    (hk : InRange bm k) :
    Invariant ⟨some (bytes.set (k.toNat / 8) (bytes.getD (k.toNat / 8) 0 ||| bitMask k)), bm.size⟩
      (insert k bits) := by
  obtain ⟨hlength, hsize⟩ := hinv.length_eq bytes hdata
  have hlt := hk.div_lt hdata
  -- the size stays, and of the bits only `k` is new
  refine ⟨hinv.size_le, ?_, ?_⟩
  · rintro _ ⟨⟩
    exact ⟨by rw [List.length_set, hlength], hsize⟩
  · rintro _ ⟨⟩ i hi
    have hi' : InRange bm i := by
      rw [InRange, hdata]
      simpa [InRange] using hi
    rw [memOf_set hlt, ByteMem.bit_setBit, Bool.or_eq_true, decide_eq_true_iff,
      hinv.bit_iff bytes hdata i hi', UInt32.toNat_inj, Set.mem_insert_iff]

/-- A creation succeeds when it is asked for bits and the allocation succeeds. -/
theorem createBitmap_eq_true_iff {nbits : UInt32} {allocated : Bool} :
    (createBitmap allocated bm nbits).1 = true ↔ nbits ≠ 0 ∧ allocated = true := by
  rw [createBitmap]
  split
  · rename_i hzero
    simp [← hzero]
  · rename_i hzero
    cases allocated <;> simp [calloc, Ne.symm hzero]

/-- The size that is computed for a number of bits. -/
theorem toNat_size {nbits : UInt32} (hnbits : nbits ≠ 0) :
    ((nbits - 1) / 8 + 1).toNat = (nbits.toNat - 1) / 8 + 1 := by
  have hlt := nbits.toNat_lt
  have hpos : nbits.toNat ≠ 0 := fun heq => hnbits (UInt32.toNat_inj.mp heq)
  rw [UInt32.toNat_add, UInt32.toNat_div, UInt32.toNat_sub]
  simp only [UInt32.reduceToNat]
  omega

/-- A new bitmap has no bits, and one that could not be created has no bytes. -/
theorem Invariant.create (nbits : UInt32) (allocated : Bool) (hinv : Invariant bm bits) :
    Invariant (createBitmap allocated bm nbits).2
      (if (createBitmap allocated bm nbits).1 then ∅ else bits) := by
  rw [createBitmap]
  split
  · exact hinv
  · rename_i hzero
    have hsize := toNat_size (Ne.symm hzero)
    have hlt := nbits.toNat_lt
    have hle : ((nbits - 1) / 8 + 1).toNat ≤ 2 ^ 29 := by omega
    cases allocated with
    | false => exact Invariant.of_none rfl hle
    | true =>
      refine ⟨hle, ?_, ?_⟩
      · -- a number of bits that is not 0 needs at least one byte
        rintro _ ⟨⟩
        refine ⟨List.length_replicate, fun heq => ?_⟩
        have hzero : ((nbits - 1) / 8 + 1).toNat = 0 := congrArg UInt32.toNat heq
        omega
      · -- `calloc` and `memset` leave zeros
        rintro _ ⟨⟩ k -
        exact iff_of_false (by simp [bit_replicate_zero]) (Set.notMem_empty k)

/-- A destroyed bitmap has no bytes. -/
theorem Invariant.destroy : Invariant (destroyBitmap bm) bits := by
  have hdata : (destroyBitmap bm).data = none := by
    rw [destroyBitmap]
    split
    · rfl
    · rename_i hnone
      exact not_not.mp hnone
  exact Invariant.of_none hdata (Nat.zero_le _)

/-- A safe operation has its promised result, and keeps the invariant. -/
theorem Op.run_spec {op : Op} (hinv : Invariant bm bits) (hsafe : op.Safe bm) :
    ∃ rslt bm', op.run bm = .ok (rslt, bm') ∧ op.Answers bm bits rslt ∧
      Invariant bm' (op.bits rslt bits) := by
  cases op with
  | create nbits allocated =>
    exact ⟨_, _, rfl, createBitmap_eq_true_iff, hinv.create nbits allocated⟩
  | destroy => exact ⟨_, _, rfl, rfl, Invariant.destroy⟩
  | set k =>
    by_cases hk : InRange bm k
    · obtain ⟨bytes, hdata⟩ := hk.exists_data
      exact ⟨_, _, bitmapSet_of_inRange hinv hdata hk, iff_of_true rfl hk, hinv.set hdata hk⟩
    · have hrun : bitmapSet bm k = .ok (false, bm) := if_pos (hsafe.refused hinv hk)
      exact ⟨_, _, hrun, iff_of_false (by decide) hk, hinv⟩
  | isSet k =>
    by_cases hk : InRange bm k
    · obtain ⟨bytes, hdata⟩ := hk.exists_data
      refine ⟨_, bm, Programs.bind_of_eq_ok (bitmapIsSet_of_inRange hinv hdata hk), ?_, hinv⟩
      exact (hinv.bit_iff bytes hdata k hk).trans (and_iff_right hk).symm
    · have hrun : bitmapIsSet bm k = .ok false := if_pos (hsafe.refused hinv hk)
      exact ⟨_, bm, Programs.bind_of_eq_ok hrun, iff_of_false (by decide) fun h => hk h.1, hinv⟩

/-- An operation that accesses no byte outside was safe. -/
theorem Op.safe_of_run {op : Op} {rslt : Bool} (hinv : Invariant bm bits)
    (hrun : op.run bm = .ok (rslt, bm')) : op.Safe bm := by
  -- without bytes, an offset that passes leads to a load that is a fault
  have hpass : ∀ k, ¬ Guarded bm k → ¬ k > 8 * bm.size - 1 := fun k hguard hgt =>
    hguard ((guarded_iff hinv (Classical.not_imp.mp hguard).1).mpr hgt)
  cases op with
  | create nbits allocated => trivial
  | destroy => trivial
  | set k =>
    by_contra hguard
    rw [run, bitmapSet, if_neg (hpass k hguard), load_of_not_guarded hguard] at hrun
    cases hrun
  | isSet k =>
    by_contra hguard
    rw [run, bitmapIsSet, if_neg (hpass k hguard), load_of_not_guarded hguard] at hrun
    cases hrun

/-- From a state of the invariant on, the runs with the promised results are those with safe
operations. -/
theorem meets_iff_allSafe {ops : List Op} (hinv : Invariant bm bits) :
    Meets bm bits ops ↔ AllSafe bm ops := by
  induction ops generalizing bm bits with
  | nil => exact Iff.rfl
  | cons op ops ih =>
    constructor
    · rintro ⟨rslt, bm', hrun, -, hmeets⟩
      -- no fault occurred, so that the operation was safe and has the state of `run_spec`
      have hsafe := Op.safe_of_run hinv hrun
      obtain ⟨rslt', bm'', hrun', -, hinv'⟩ := Op.run_spec hinv hsafe
      obtain ⟨rfl, rfl⟩ := Prod.mk.inj (Except.ok.inj (hrun.symm.trans hrun'))
      refine ⟨hsafe, fun rslt' bm'' hrun'' => ?_⟩
      obtain ⟨rfl, rfl⟩ := Prod.mk.inj (Except.ok.inj (hrun.symm.trans hrun''))
      exact (ih hinv').mp hmeets
    · rintro ⟨hsafe, hrest⟩
      obtain ⟨rslt, bm', hrun, hanswers, hinv'⟩ := Op.run_spec hinv hsafe
      exact ⟨rslt, bm', hrun, hanswers, (ih hinv').mpr (hrest rslt bm' hrun)⟩

/-- The runs whose operations all have their promised results, from a bitmap that does not exist
yet: no bit is used while there are no bytes, unless its offset is refused. -/
theorem meets_iff (ops : List Op) : Meets noBitmap ∅ ops ↔ AllSafe noBitmap ops :=
  meets_iff_allSafe (Invariant.of_none rfl (Nat.zero_le _))

/-- A bitmap that was destroyed does not refuse a bit. -/
theorem not_meets_destroyed :
    ¬ Meets noBitmap ∅ [.create 8 true, .destroy, .isSet 0] := by
  rintro ⟨_, _, ⟨⟩, -, _, _, ⟨⟩, -, _, _, ⟨⟩, -⟩

end Hixo.Bitmaps
