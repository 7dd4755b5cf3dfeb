import Hixo.Slub.Defs

/-!
# `mem_shift_left` shifts a bit string

`mem_shift_left` works in two passes from the top of the array down: whole bytes first, then
the remaining bits with a carry from the byte below. Each pass is described by what it leaves at
every address (`moveBytesUp_apply`, `shiftBytesUp_apply`), because the order of the passes makes
sure that a byte is read before it is overwritten.

* `bit_memShiftLeft`: bit `k` of the result is bit `k - n` of the argument, or clear when
  `k < n`;
* `eqOn_memShiftLeft`: no byte outside the array changes;
* `memShiftLeft_spec`: both, for the number whose little-endian bytes are the array.
-/

namespace Hixo.Slub

open ByteMem

/-! ## The two passes -/

/-- The byte pass moves the `n` bytes at `base` up by `emptyBytes`. -/
theorem moveBytesUp_apply (m : ByteMem) (base emptyBytes n x : ℕ) :
    moveBytesUp m base emptyBytes n x =
      if base + emptyBytes ≤ x ∧ x < base + emptyBytes + n then m (x - emptyBytes) else m x := by
  -- the top byte is moved first, and the others do not read it
  induction n generalizing m with
  | zero => simp [moveBytesUp, show ¬(base + emptyBytes ≤ x ∧ x < base + emptyBytes) by omega]
  | succ n ih =>
    rw [moveBytesUp, ih]
    by_cases htop : x = base + (n + emptyBytes)
    · subst htop
      rw [if_neg (by omega), if_pos (by omega), store_self]
      congr 1
      omega
    · have hiff : (base + emptyBytes ≤ x ∧ x < base + emptyBytes + n) ↔
          (base + emptyBytes ≤ x ∧ x < base + emptyBytes + (n + 1)) := by omega
      by_cases hx : base + emptyBytes ≤ x ∧ x < base + emptyBytes + n
      · rw [if_pos hx, if_pos (hiff.mp hx), store_of_ne m _ (by omega)]
      · rw [if_neg hx, if_neg (fun h => hx (hiff.mpr h)), store_of_ne m _ htop]

/-- The bit pass shifts the `n` bytes above byte `emptyBytes`, each with the carry of the byte
below it. -/
theorem shiftBytesUp_apply (m : ByteMem) (base emptyBytes partBits n x : ℕ) :
    shiftBytesUp m base emptyBytes partBits n x =
      if base + emptyBytes < x ∧ x ≤ base + emptyBytes + n then
        (m x <<< partBits) ||| (m (x - 1) >>> (8 - partBits))
      else m x := by
  -- as above, and each byte also takes the high bits of the one below
  induction n generalizing m with
  | zero =>
    simp [shiftBytesUp, show ¬(base + emptyBytes < x ∧ x ≤ base + emptyBytes) by omega]
  | succ n ih =>
    rw [shiftBytesUp, ih]
    by_cases htop : x = base + (emptyBytes + n + 1)
    · subst htop
      rw [if_neg (by omega), if_pos (by omega), store_self]
      congr 2
    · have hiff : (base + emptyBytes < x ∧ x ≤ base + emptyBytes + n) ↔
          (base + emptyBytes < x ∧ x ≤ base + emptyBytes + (n + 1)) := by omega
      by_cases hx : base + emptyBytes < x ∧ x ≤ base + emptyBytes + n
      · rw [if_pos hx, if_pos (hiff.mp hx), store_of_ne m _ htop, store_of_ne m _ (by omega)]
      · rw [if_neg hx, if_neg (fun h => hx (hiff.mpr h)), store_of_ne m _ htop]

/-! ## The bytes of the result -/

/-- A shift by the whole width or more clears the array. -/
theorem memShiftLeft_of_le (m : ByteMem) {p len n : ℕ} (h : len * 8 ≤ n) :
    memShiftLeft m p len n = m.fill p len 0 := by
  simp [memShiftLeft, h]

/-- What the byte pass of a shift by less than the width leaves at each address. -/
private theorem bytePass_apply (m : ByteMem) {p len emptyBytes : ℕ} (h : emptyBytes < len)
    (x : ℕ) :
    (if emptyBytes > 0 then
        (moveBytesUp m p emptyBytes (len - emptyBytes)).fill p emptyBytes 0
      else m) x =
      if p ≤ x ∧ x < p + emptyBytes then 0#8
      else if p ≤ x ∧ x < p + len then m (x - emptyBytes) else m x := by
  by_cases hpos : emptyBytes > 0
  · rw [if_pos hpos]
    by_cases hlow : p ≤ x ∧ x < p + emptyBytes
    · rw [if_pos hlow, fill_of_mem _ _ hlow]
      rfl
    · rw [if_neg hlow, fill_of_notMem _ _ hlow, moveBytesUp_apply]
      have hiff : (p + emptyBytes ≤ x ∧ x < p + emptyBytes + (len - emptyBytes)) ↔
          (p ≤ x ∧ x < p + len) := by omega
      simp only [hiff]
  · obtain rfl : emptyBytes = 0 := by omega
    simp

/-- The bytes a shift by less than the width leaves in the array. -/
theorem memShiftLeft_apply (m : ByteMem) {p len n i : ℕ} (hn : n < len * 8) (hi : i < len) :
    memShiftLeft m p len n (p + i) =
      if i < n / 8 then 0#8
      else if i = n / 8 then m p <<< (n % 8)
      else (m (p + (i - n / 8)) <<< (n % 8)) ||| (m (p + (i - n / 8 - 1)) >>> (8 - n % 8)) := by
  have hlt : n / 8 < len := by omega
  simp only [memShiftLeft, if_neg (not_le.mpr hn)]
  -- the byte at the border gets its value from the last line of the function
  by_cases hmid : i = n / 8
  · subst hmid
    rw [store_self, shiftBytesUp_apply, if_neg (by omega), bytePass_apply m hlt,
      if_neg (by omega), if_pos (by omega), if_neg (lt_irrefl _), if_pos rfl,
      Nat.add_sub_cancel]
  · rw [store_of_ne _ _ (by omega), shiftBytesUp_apply]
    by_cases hlow : i < n / 8
    · rw [if_neg (by omega), bytePass_apply m hlt, if_pos (by omega), if_pos hlow]
    · rw [if_pos (by omega), bytePass_apply m hlt, bytePass_apply m hlt, if_neg (by omega),
        if_pos (by omega), if_neg (by omega), if_pos (by omega), if_neg hlow, if_neg hmid,
        show p + i - n / 8 = p + (i - n / 8) by omega,
        show p + i - 1 - n / 8 = p + (i - n / 8 - 1) by omega]

/-- A shift changes no byte outside the array. -/
theorem eqOn_memShiftLeft (m : ByteMem) {p len n : ℕ} {s : Set ℕ}
    (hs : Disjoint s (Set.Ico p (p + len))) : Set.EqOn (memShiftLeft m p len n) m s := by
  by_cases hn : len * 8 ≤ n
  · rw [memShiftLeft_of_le m hn]
    exact eqOn_fill m p len 0 hs
  · have hlt : n / 8 < len := by omega
    intro x hx
    have hout : ¬(p ≤ x ∧ x < p + len) := Set.disjoint_left.mp hs hx
    simp only [memShiftLeft, if_neg hn]
    rw [store_of_ne _ _ (by omega), shiftBytesUp_apply, if_neg (by omega),
      bytePass_apply m hlt, if_neg (by omega), if_neg hout]

/-! ## The bits of the result -/

/-- Bit `i` of a byte shifted by less than its width. -/
private theorem getLsbD_shiftLeft_byte (b : BitVec 8) {i n : ℕ} (hi : i < 8) :
    (b <<< n).getLsbD i = (decide (n ≤ i) && b.getLsbD (i - n)) := by
  rw [BitVec.getLsbD_shiftLeft]
  by_cases h : n ≤ i
  · simp [h, hi]
  · simp [h, hi, show i < n by omega]

/-- `mem_shift_left` moves every bit of the array up by `n` places and clears the low ones. -/
theorem bit_memShiftLeft (m : ByteMem) {p len n k : ℕ} (hk : k < 8 * len) :
    (memShiftLeft m p len n).bit p k = (decide (n ≤ k) && m.bit p (k - n)) := by
  by_cases hn : len * 8 ≤ n
  · -- everything is shifted out
    rw [memShiftLeft_of_le m hn, bit, fill_of_mem _ _ (by omega)]
    simp [show ¬n ≤ k by omega]
  · rw [bit, memShiftLeft_apply m (by omega) (by omega)]
    by_cases hlow : k / 8 < n / 8
    · -- a byte below the whole bytes of the shift is cleared
      simp [hlow, show ¬n ≤ k by omega]
    · rw [if_neg hlow]
      have hr : k % 8 < 8 := Nat.mod_lt _ (by omega)
      by_cases hmid : k / 8 = n / 8
      · -- the lowest byte that is kept: no carry comes in
        rw [if_pos hmid, getLsbD_shiftLeft_byte _ hr]
        by_cases hle : n ≤ k
        · have hbyte : (k - n) / 8 = 0 := by omega
          have hpos : (k - n) % 8 = k % 8 - n % 8 := by omega
          simp [hle, bit, hbyte, hpos, show n % 8 ≤ k % 8 by omega]
        · simp [hle, show ¬n % 8 ≤ k % 8 by omega]
      · rw [if_neg hmid, BitVec.getLsbD_or, getLsbD_shiftLeft_byte _ hr,
          BitVec.getLsbD_ushiftRight]
        have hle : n ≤ k := by omega
        by_cases hpart : n % 8 ≤ k % 8
        · -- the bit comes from the byte shifted into this place
          have hbyte : (k - n) / 8 = k / 8 - n / 8 := by omega
          have hpos : (k - n) % 8 = k % 8 - n % 8 := by omega
          have hcarry : (m (p + (k / 8 - n / 8 - 1))).getLsbD (8 - n % 8 + k % 8) = false :=
            BitVec.getLsbD_of_ge _ _ (by omega)
          simp [hle, hpart, bit, hbyte, hpos, hcarry]
        · -- the bit is carried in from the byte below
          have hbyte : (k - n) / 8 = k / 8 - n / 8 - 1 := by omega
          have hpos : (k - n) % 8 = 8 - n % 8 + k % 8 := by omega
          simp [hle, hpart, bit, hbyte, hpos]

/-- An array, read as a little-endian number of `8 * len` bits, is multiplied by `2 ^ n`, and what
does not fit is lost. -/
theorem readLE_memShiftLeft (m : ByteMem) (p len n : ℕ) :
    (memShiftLeft m p len n).readLE p len = m.readLE p len * 2 ^ n % 2 ^ (8 * len) := by
  apply Nat.eq_of_testBit_eq
  intro k
  rw [testBit_readLE, Nat.testBit_mod_two_pow, Nat.testBit_mul_two_pow, testBit_readLE]
  by_cases hk : k < 8 * len
  · rw [bit_memShiftLeft m hk]
    by_cases hn : n ≤ k
    · simp [hk, hn, show k - n < 8 * len by omega]
    · simp [hk, hn]
  · simp [hk]

/-- `mem_shift_left` multiplies the number in the array by `2 ^ n`, modulo its width, and changes
no byte outside the array. -/
theorem memShiftLeft_spec (m : ByteMem) (p len n : ℕ) :
    (memShiftLeft m p len n).readLE p len = m.readLE p len * 2 ^ n % 2 ^ (8 * len) ∧
      Set.EqOn (memShiftLeft m p len n) m (Set.Ico p (p + len))ᶜ :=
  ⟨readLE_memShiftLeft m p len n, eqOn_memShiftLeft m disjoint_compl_left⟩

end Hixo.Slub
