import Mathlib.Data.Set.Function
import Mathlib.Order.CompletePartialOrder
import Mathlib.Order.Interval.Set.Basic
import Mathlib.Tactic.IntervalCases

/-!
# Byte-addressed memory

A memory maps every address to a byte. The module collects what programs that keep packed
bits and machine words in raw memory rely on:

* `ByteMem.store`, `ByteMem.fill`: writing one byte, and one byte value over a range;
* `ByteMem.readLE`, `ByteMem.writeLE`: little-endian words of any number of bytes, with the
  round trip `readLE_writeLE_self`;
* `ByteMem.bit`, `ByteMem.setBit`: bit `k` of the packed bits that start at an address, which is
  bit `k` of the word there (`testBit_readLE`);
* `ByteMem.firstClearBit`: the scan for the first clear bit of a byte range, which finds the
  least clear bit (`firstClearBit_eq_some_iff`, `firstClearBit_eq_none_iff`).

Frame conditions are stated with `Set.EqOn` on sets of addresses.
-/

/-- A byte-addressed memory. -/
abbrev ByteMem := ℕ → BitVec 8

namespace ByteMem

/-! ## Bytes -/

/-- Write the byte `b` at address `a`. -/
def store (m : ByteMem) (a : ℕ) (b : BitVec 8) : ByteMem :=
  Function.update m a b

/-- Write the byte `b` over the `len` bytes from address `a` on. -/
def fill (m : ByteMem) (a len : ℕ) (b : BitVec 8) : ByteMem :=
  fun x => if a ≤ x ∧ x < a + len then b else m x

@[simp]
theorem store_self (m : ByteMem) (a : ℕ) (b : BitVec 8) : m.store a b a = b := by
  simp [store]

theorem store_of_ne (m : ByteMem) {a x : ℕ} (b : BitVec 8) (h : x ≠ a) :
    m.store a b x = m x := by
  simp [store, h]

theorem fill_of_mem (m : ByteMem) {a len x : ℕ} (b : BitVec 8) (h : a ≤ x ∧ x < a + len) :
    m.fill a len b x = b := by
  simp [fill, h]

theorem fill_of_notMem (m : ByteMem) {a len x : ℕ} (b : BitVec 8)
    (h : ¬(a ≤ x ∧ x < a + len)) : m.fill a len b x = m x := by
  simp [fill, h]

/-- A store changes no address but its own. -/
theorem eqOn_store (m : ByteMem) (a : ℕ) (b : BitVec 8) {s : Set ℕ} (h : a ∉ s) :
    Set.EqOn (m.store a b) m s :=
  fun _ hx => store_of_ne m b fun hxa => h (hxa ▸ hx)

/-- A fill changes no address outside its range. -/
theorem eqOn_fill (m : ByteMem) (a len : ℕ) (b : BitVec 8) {s : Set ℕ}
    (h : Disjoint s (Set.Ico a (a + len))) : Set.EqOn (m.fill a len b) m s :=
  fun _ hx => fill_of_notMem m b fun hmem => Set.disjoint_left.mp h hx hmem

/-! ## Little-endian words -/

/-- The number whose `n` little-endian bytes start at address `a`. -/
def readLE (m : ByteMem) (a : ℕ) : ℕ → ℕ
  | 0 => 0
  | n + 1 => (m a).toNat + 256 * readLE m (a + 1) n

/-- Write the `n` low bytes of `v`, least significant first, from address `a` on. -/
def writeLE (m : ByteMem) (a : ℕ) : ℕ → ℕ → ByteMem
  | 0, _ => m
  | n + 1, v => writeLE (m.store a (BitVec.ofNat 8 v)) (a + 1) n (v / 256)

/-- Writing a word changes no address outside it. -/
theorem writeLE_of_notMem (m : ByteMem) (a n v : ℕ) {x : ℕ} (h : x < a ∨ a + n ≤ x) :
    writeLE m a n v x = m x := by
  induction n generalizing m a v with
  | zero => rfl
  | succ n ih =>
    rw [writeLE, ih _ _ _ (by omega), store_of_ne m _ (by omega)]

theorem eqOn_writeLE (m : ByteMem) (a n v : ℕ) {s : Set ℕ}
    (h : Disjoint s (Set.Ico a (a + n))) : Set.EqOn (writeLE m a n v) m s := by
  intro x hx
  refine writeLE_of_notMem m a n v ?_
  have hmem := Set.disjoint_left.mp h hx
  simp only [Set.mem_Ico] at hmem
  omega

/-- A word depends only on its own bytes. -/
theorem readLE_congr {m m' : ByteMem} {a n : ℕ} (h : Set.EqOn m' m (Set.Ico a (a + n))) :
    readLE m' a n = readLE m a n := by
  induction n generalizing a with
  | zero => rfl
  | succ n ih =>
    have hhead : m' a = m a := h (by simp)
    have htail : Set.EqOn m' m (Set.Ico (a + 1) (a + 1 + n)) :=
      h.mono (Set.Ico_subset_Ico (by omega) (by omega))
    rw [readLE, readLE, hhead, ih htail]

/-- A word that was written is read back, as far as it fits. -/
theorem readLE_writeLE_self (m : ByteMem) (a n v : ℕ) :
    readLE (writeLE m a n v) a n = v % 256 ^ n := by
  induction n generalizing m a v with
  | zero => simp [readLE, Nat.mod_one]
  | succ n ih =>
    rw [readLE, writeLE, ih, writeLE_of_notMem _ _ _ _ (by omega), store_self,
      BitVec.toNat_ofNat, Nat.pow_succ 256 n, Nat.mul_comm (256 ^ n) 256, Nat.mod_mul]

/-- A word is left alone by a write elsewhere. -/
theorem readLE_writeLE_of_disjoint (m : ByteMem) {a b n k : ℕ} (v : ℕ)
    (h : a + n ≤ b ∨ b + k ≤ a) : readLE (writeLE m b k v) a n = readLE m a n := by
  refine readLE_congr (eqOn_writeLE m b k v ?_)
  rw [Set.disjoint_left]
  intro x hx hx'
  simp only [Set.mem_Ico] at hx hx'
  omega

/-! ## Packed bits -/

/-- Bit `k` of the packed bits that start at address `a`: bit `k % 8` of byte `k / 8`. -/
def bit (m : ByteMem) (a k : ℕ) : Bool :=
  (m (a + k / 8)).getLsbD (k % 8)

/-- Set bit `k` of the packed bits that start at address `a`. -/
def setBit (m : ByteMem) (a k : ℕ) : ByteMem :=
  m.store (a + k / 8) (m (a + k / 8) ||| 1#8 <<< (k % 8))

theorem getLsbD_or_shiftLeft_one (b : BitVec 8) {i j : ℕ} (hi : i < 8) (hj : j < 8) :
    (b ||| 1#8 <<< j).getLsbD i = (decide (i = j) || b.getLsbD i) := by
  have hone : (1#8 <<< j).getLsbD i = decide (i = j) := by
    rw [BitVec.getLsbD_shiftLeft, BitVec.getLsbD_one]
    by_cases hij : i = j
    · simp [hij, hj]
    · by_cases hlt : i < j
      · simp [hij, hlt]
      · simp [hij, hi, show i - j ≠ 0 by omega]
  rw [BitVec.getLsbD_or, hone, Bool.or_comm]

/-- Setting a bit sets exactly that bit of its bit string. -/
@[simp]
theorem bit_setBit (m : ByteMem) (a k i : ℕ) :
    (m.setBit a k).bit a i = (decide (i = k) || m.bit a i) := by
  by_cases hbyte : i / 8 = k / 8
  · have hik : (i % 8 = k % 8) = (i = k) := by
      apply propext
      constructor <;> intro h <;> omega
    rw [bit, setBit, hbyte, store_self,
      getLsbD_or_shiftLeft_one _ (Nat.mod_lt _ (by omega)) (Nat.mod_lt _ (by omega)), bit,
      hbyte]
    simp only [hik]
  · have hne : i ≠ k := fun h => hbyte (h ▸ rfl)
    rw [bit, setBit, store_of_ne m _ (by omega), bit]
    simp [hne]

/-- Setting a bit changes no byte but the one that holds it. -/
theorem eqOn_setBit (m : ByteMem) (a k : ℕ) {s : Set ℕ} (h : a + k / 8 ∉ s) :
    Set.EqOn (m.setBit a k) m s :=
  eqOn_store m _ _ h

/-- A bit depends only on the byte that holds it. -/
theorem bit_congr {m m' : ByteMem} {a k : ℕ} (h : m' (a + k / 8) = m (a + k / 8)) :
    m'.bit a k = m.bit a k := by
  rw [bit, bit, h]

/-- Setting a bit leaves the bits held by other bytes alone. -/
theorem bit_setBit_of_ne (m : ByteMem) {a b k i : ℕ} (h : b + i / 8 ≠ a + k / 8) :
    (m.setBit a k).bit b i = m.bit b i :=
  bit_congr (store_of_ne m _ h)

/-- A bit of a byte range, with the byte and the position inside it given separately. -/
theorem bit_mul_add (m : ByteMem) (a i : ℕ) {j : ℕ} (hj : j < 8) :
    m.bit a (i * 8 + j) = (m (a + i)).getLsbD j := by
  rw [bit, show (i * 8 + j) / 8 = i by omega, show (i * 8 + j) % 8 = j by omega]

/-- The bits that start `c` bytes further on are those from `8 * c` on. -/
theorem bit_add (m : ByteMem) (a c k : ℕ) : m.bit (a + c) k = m.bit a (8 * c + k) := by
  rw [bit, bit, show a + c + k / 8 = a + (8 * c + k) / 8 by omega,
    show (8 * c + k) % 8 = k % 8 by omega]

/-- The bits of a word are the packed bits of its bytes. -/
theorem testBit_readLE (m : ByteMem) (a n k : ℕ) :
    (m.readLE a n).testBit k = (decide (k < 8 * n) && m.bit a k) := by
  induction n generalizing a k with
  | zero => simp [readLE]
  | succ n ih =>
    have hbyte : (m a).toNat < 2 ^ 8 := (m a).isLt
    rw [readLE, Nat.add_comm, show 256 = 2 ^ 8 from rfl,
      Nat.testBit_two_pow_mul_add _ hbyte]
    by_cases hk : k < 8
    · rw [if_pos hk, bit, Nat.div_eq_of_lt hk, Nat.mod_eq_of_lt hk, Nat.add_zero]
      simp [BitVec.getLsbD, show k < 8 * (n + 1) by omega]
    · rw [if_neg hk, ih, bit, bit, show a + 1 + (k - 8) / 8 = a + k / 8 by omega,
        show (k - 8) % 8 = k % 8 by omega]
      congr 1
      simp only [decide_eq_decide]
      omega

/-- A byte is all ones exactly when its eight bits are set. -/
theorem eq_allOnes_iff (b : BitVec 8) : b = 0xFF#8 ↔ ∀ j < 8, b.getLsbD j = true := by
  constructor
  · rintro rfl j hj
    interval_cases j <;> rfl
  · intro h
    apply BitVec.eq_of_getLsbD_eq
    intro j hj
    rw [h j hj]
    interval_cases j <;> rfl

/-- A byte is zero exactly when its eight bits are clear. -/
theorem eq_zero_iff (b : BitVec 8) : b = 0#8 ↔ ∀ j < 8, b.getLsbD j = false := by
  constructor
  · rintro rfl j hj
    simp
  · intro h
    apply BitVec.eq_of_getLsbD_eq
    intro j hj
    simp [h j hj]

/-! ## Scanning for a clear bit -/

/-- A search over the bits of a byte range, byte by byte. -/
theorem find?_range_mul_eight (q : ℕ → Bool) (len : ℕ) :
    (List.range (8 * len)).find? q = (List.range len).findSome? fun i =>
      ((List.range 8).find? fun j => q (i * 8 + j)).map fun j => i * 8 + j := by
  induction len with
  | zero => rfl
  | succ len ih =>
    have hlast : (fun j => q (8 * len + j)) = fun j => q (len * 8 + j) := by
      funext j
      rw [Nat.mul_comm]
    rw [Nat.mul_succ, List.range_add, List.find?_append, ih, List.range_succ (n := len),
      List.findSome?_append, List.find?_map, List.findSome?_cons, List.findSome?_nil]
    simp only [Function.comp_def, hlast]
    congr 1
    cases (List.range 8).find? fun j => q (len * 8 + j) with
    | none => rfl
    | some j => rw [Option.map_some, Option.map_some, Nat.mul_comm]

/-- The first clear bit of the `len` bytes from address `a` on, as a byte index and a position
in that byte: the first byte that is not all ones, and its first clear bit. -/
def firstClearBit (m : ByteMem) (a len : ℕ) : Option (ℕ × ℕ) :=
  match (List.range len).find? fun i => m (a + i) != 0xFF#8 with
  | none => none
  | some i =>
    match (List.range 8).find? fun j => !(m (a + i)).getLsbD j with
    | none => none
    | some j => some (i, j)

/-- The scan finds nothing exactly when every bit of the range is set. -/
theorem firstClearBit_eq_none_iff (m : ByteMem) (a len : ℕ) :
    m.firstClearBit a len = none ↔ ∀ k < 8 * len, m.bit a k = true := by
  unfold firstClearBit
  constructor
  · intro h k hk
    split at h
    next hbytes =>
      have hfull : m (a + k / 8) = 0xFF#8 := by
        simpa using List.find?_range_eq_none.mp hbytes (k / 8) (by omega)
      exact (eq_allOnes_iff _).mp hfull (k % 8) (by omega)
    -- a byte that is not full has a clear bit, so the inner search cannot fail
    next i hbytes =>
      split at h
      next hbits =>
        have hne : m (a + i) ≠ 0xFF#8 := by
          simpa using (List.find?_range_eq_some.mp hbytes).1
        refine absurd ((eq_allOnes_iff _).mpr fun j hj => ?_) hne
        simpa using List.find?_range_eq_none.mp hbits j hj
      next => simp at h
  · intro h
    have hbytes : (List.range len).find? (fun i => m (a + i) != 0xFF#8) = none := by
      refine List.find?_range_eq_none.mpr fun i hi => ?_
      have hfull : m (a + i) = 0xFF#8 := by
        refine (eq_allOnes_iff _).mpr fun j hj => ?_
        rw [← bit_mul_add m a i hj]
        exact h _ (by omega)
      simp [hfull]
    rw [hbytes]

/-- The scan finds the least clear bit of the range. -/
theorem firstClearBit_eq_some_iff (m : ByteMem) (a len i j : ℕ) :
    m.firstClearBit a len = some (i, j) ↔
      i < len ∧ j < 8 ∧ m.bit a (i * 8 + j) = false ∧ ∀ k < i * 8 + j, m.bit a k = true := by
  unfold firstClearBit
  constructor
  · intro h
    split at h
    next => simp at h
    next i' hbytes =>
      obtain ⟨-, hi, hbefore⟩ := List.find?_range_eq_some.mp hbytes
      split at h
      next => simp at h
      next j' hbits =>
        obtain ⟨hclear, hj, hset⟩ := List.find?_range_eq_some.mp hbits
        simp only [Option.some.injEq, Prod.mk.injEq] at h
        obtain ⟨rfl, rfl⟩ := h
        simp only [List.mem_range] at hi hj
        refine ⟨hi, hj, ?_, fun k hk => ?_⟩
        · rw [bit_mul_add m a _ hj]
          simpa using hclear
        · -- the bits of the bytes before, and those before `j` in the byte itself
          by_cases hbyte : k / 8 < i'
          · have hfull : m (a + k / 8) = 0xFF#8 := by simpa using hbefore _ hbyte
            exact (eq_allOnes_iff _).mp hfull _ (by omega)
          · have hk' : k / 8 = i' := by omega
            rw [bit, hk']
            simpa using hset (k % 8) (by omega)
  · rintro ⟨hi, hj, hclear, hbefore⟩
    have hne : m (a + i) ≠ 0xFF#8 := by
      intro hfull
      rw [bit_mul_add m a i hj, (eq_allOnes_iff _).mp hfull j hj] at hclear
      cases hclear
    -- the bytes before are full, so that the scan gets to byte `i`
    have hbytes : (List.range len).find? (fun i => m (a + i) != 0xFF#8) = some i := by
      refine List.find?_range_eq_some.mpr ⟨by simpa using hne, by simpa using hi, ?_⟩
      intro i' hi'
      have hfull : m (a + i') = 0xFF#8 := by
        refine (eq_allOnes_iff _).mpr fun j' hj' => ?_
        rw [← bit_mul_add m a i' hj']
        exact hbefore _ (by omega)
      simp [hfull]
    have hbits : (List.range 8).find? (fun j => !(m (a + i)).getLsbD j) = some j := by
      refine List.find?_range_eq_some.mpr ⟨?_, by simpa using hj, ?_⟩
      · rw [← bit_mul_add m a i hj, hclear]
        rfl
      · intro j' hj'
        rw [← bit_mul_add m a i (by omega : j' < 8), hbefore _ (by omega)]
        rfl
    rw [hbytes]
    simp only [hbits]

end ByteMem
