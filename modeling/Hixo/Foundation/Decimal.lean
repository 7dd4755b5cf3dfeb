import Hixo.Foundation.HttpMessage
import Mathlib.Algebra.Group.Nat.Defs
import Mathlib.Algebra.Order.Group.Unbundled.Int
import Mathlib.Data.Int.Notation

/-!
# Decimal texts

The canonical decimal text of an integer: its digits without leading zeros, behind a minus sign if
it is negative. Programs that divide by ten find the digits from the last one on, and programs that
multiply by ten read them from the first one on.

* `text`: the text of an integer, as bytes;
* `lowFirst`: the digits of a number from the last one on, with the rule `lowFirst_of_pos` for one
  division and the number of digits in `length_lowFirst_le_iff`;
* `text_of_ne_zero`: the text by its sign and its digits;
* `length_text_lt_iff`: the numbers whose texts are short;
* `valueFrom`, `Numeral`: the number that a text denotes, also one with leading zeros;
* `numeral_iff`, `numeral_text`: the numerals by their sign and their digits, and the canonical one.
-/

namespace Decimal

open HttpMessage

/-- The sign of a text. -/
def sign (n : ℤ) : List UInt8 := if n < 0 then octets ['-'] else []

/-- The canonical decimal text of an integer. -/
def text (n : ℤ) : List UInt8 := sign n ++ octets (Nat.toDigits 10 n.natAbs)

/-- The digits of a number, the last one first; zero has none. -/
def lowFirst (n : ℕ) : List UInt8 :=
  if n = 0 then [] else (octets (Nat.toDigits 10 n)).reverse

/-- The number of digits of a number. -/
def places (n : ℕ) : ℕ := (Nat.toDigits 10 n).length

/-- The byte of a digit. -/
def digit (d : ℕ) : UInt8 := UInt8.ofNat (48 + d)

/-- Whether a byte is a digit. -/
def isDigit (b : UInt8) : Bool := 48 ≤ b && b ≤ 57

/-- The number `n`, followed by the digits `ds`. -/
def valueFrom (n : ℕ) (ds : List UInt8) : ℕ := ds.foldl (fun n b => 10 * n + (b.toNat - 48)) n

/-- The text is an optional minus sign and at least one digit, and denotes the number `v`. -/
def Numeral (bs : List UInt8) (v : ℤ) : Prop :=
  ∃ ds, ds ≠ [] ∧ (∀ b ∈ ds, isDigit b = true) ∧
    (bs = ds ∧ v = valueFrom 0 ds ∨ bs = 45 :: ds ∧ v = -valueFrom 0 ds)

/-- The minus sign of a text, if it has one. -/
def minus (bs : List UInt8) : List UInt8 := if bs.head? = some 45 then [45] else []

/-- The text behind its minus sign. -/
def unsigned (bs : List UInt8) : List UInt8 := if bs.head? = some 45 then bs.tail else bs

/-! ## Digits -/

/-- The byte of the character of a digit is the byte of the digit. -/
theorem octets_digitChar {d : ℕ} (hd : d < 10) : octets [Nat.digitChar d] = [digit d] := by
  have hall : ∀ d < 10, octets [Nat.digitChar d] = [digit d] := by decide
  exact hall d hd

@[simp]
theorem lowFirst_zero : lowFirst 0 = [] := rfl

/-- A division by ten takes off the last digit. -/
theorem lowFirst_of_pos {n : ℕ} (hn : 0 < n) :
    lowFirst n = digit (n % 10) :: lowFirst (n / 10) := by
  have hmod : n % 10 < 10 := Nat.mod_lt n (by decide)
  rw [lowFirst, if_neg (Nat.ne_of_gt hn)]
  rcases Nat.lt_or_ge n 10 with hlt | hge
  · rw [Nat.toDigits_of_lt_base hlt, octets_digitChar hlt, Nat.div_eq_of_lt hlt,
      Nat.mod_eq_of_lt hlt]
    rfl
  · have hdiv : n / 10 ≠ 0 := by omega
    rw [Nat.toDigits_of_base_le (by decide) hge, octets_append, octets_digitChar hmod,
      List.reverse_append, lowFirst, if_neg hdiv]
    rfl

/-- A number has at most `k` digits exactly when it is below `10 ^ k`. -/
theorem length_lowFirst_le_iff {n k : ℕ} : (lowFirst n).length ≤ k ↔ n < 10 ^ k := by
  induction k generalizing n with
  | zero =>
    rcases Nat.eq_zero_or_pos n with rfl | hn
    · simp
    · rw [lowFirst_of_pos hn, List.length_cons]
      omega
  | succ k ih =>
    rcases Nat.eq_zero_or_pos n with rfl | hn
    · exact ⟨fun _ => Nat.pow_pos (by decide), fun _ => Nat.zero_le _⟩
    · rw [lowFirst_of_pos hn, List.length_cons, Nat.add_le_add_iff_right, ih,
        Nat.div_lt_iff_lt_mul (by decide), Nat.pow_succ]

/-- A number takes at most `k` places exactly when it is below `10 ^ k`. -/
theorem places_le_iff {n k : ℕ} (hk : 0 < k) : places n ≤ k ↔ n < 10 ^ k := by
  rw [places, Nat.length_toDigits_le_iff (by decide) hk]

/-! ## Texts -/

theorem text_zero : text 0 = [48] := rfl

/-- The text of a number other than zero is its sign and its digits. -/
theorem text_of_ne_zero {n : ℤ} (hn : n ≠ 0) :
    text n = sign n ++ (lowFirst n.natAbs).reverse := by
  rw [text, lowFirst, if_neg (Int.natAbs_ne_zero.mpr hn), List.reverse_reverse]

/-- The text of a number has its places, and one character for a minus. -/
theorem length_text (n : ℤ) : (text n).length = places n.natAbs + if n < 0 then 1 else 0 := by
  rw [text, sign, List.length_append, octets, octets, List.length_map, places, Nat.add_comm]
  split <;> rfl

/-- The text has fewer than `k` characters exactly for the numbers between these two powers of ten.
-/
theorem length_text_lt_iff {n : ℤ} {k : ℕ} (hk : 2 ≤ k) :
    (text n).length < k ↔ -10 ^ (k - 2) < n ∧ n < 10 ^ (k - 1) := by
  have hpow : ∀ m : ℕ, (0 : ℤ) < 10 ^ m := fun m => Int.pow_pos (by decide)
  rcases eq_or_ne n 0 with rfl | hn
  · rw [text_zero, List.length_singleton]
    exact ⟨fun _ => ⟨Int.neg_neg_of_pos (hpow _), hpow _⟩, fun _ => hk⟩
  rw [text_of_ne_zero hn, List.length_append, List.length_reverse]
  -- the sign takes one place of those there are
  rcases lt_or_gt_of_ne hn with hneg | hpos
  · have hlen : (sign n).length = 1 := by
      rw [sign, if_pos hneg]
      rfl
    have hle : (lowFirst n.natAbs).length ≤ k - 2 ↔ n.natAbs < 10 ^ (k - 2) :=
      length_lowFirst_le_iff
    have hcast : ((10 ^ (k - 2) : ℕ) : ℤ) = 10 ^ (k - 2) := Int.natCast_pow 10 _
    have hupper := hpow (k - 1)
    omega
  · have hlen : (sign n).length = 0 := by
      rw [sign, if_neg (by omega)]
      rfl
    have hle : (lowFirst n.natAbs).length ≤ k - 1 ↔ n.natAbs < 10 ^ (k - 1) :=
      length_lowFirst_le_iff
    have hcast : ((10 ^ (k - 1) : ℕ) : ℤ) = 10 ^ (k - 1) := Int.natCast_pow 10 _
    have hlower := hpow (k - 2)
    omega

/-! ## Numerals -/

theorem valueFrom_cons (n : ℕ) (b : UInt8) (ds : List UInt8) :
    valueFrom n (b :: ds) = valueFrom (10 * n + (b.toNat - 48)) ds := by
  rw [valueFrom, List.foldl_cons, valueFrom]

/-- More digits make no smaller number. -/
theorem le_valueFrom (n : ℕ) (ds : List UInt8) : n ≤ valueFrom n ds := by
  induction ds generalizing n with
  | nil => exact Nat.le_refl n
  | cons b ds ih =>
    rw [valueFrom_cons]
    exact Nat.le_trans (by omega) (ih _)

/-- A text is its minus sign and what comes behind it. -/
theorem minus_append_unsigned (bs : List UInt8) : minus bs ++ unsigned bs = bs := by
  cases bs with
  | nil => rfl
  | cons b bs =>
    by_cases hb : b = 45
    · subst hb
      rfl
    · simp [minus, unsigned, hb]

/-- A numeral is an optional minus and at least one digit, and denotes the value of its digits with
that sign. -/
theorem numeral_iff {bs : List UInt8} {v : ℤ} :
    Numeral bs v ↔ unsigned bs ≠ [] ∧ (∀ b ∈ unsigned bs, isDigit b = true) ∧
      v = if minus bs = [] then (valueFrom 0 (unsigned bs) : ℤ)
        else -valueFrom 0 (unsigned bs) := by
  have hminus : isDigit 45 = false := by decide
  constructor
  · rintro ⟨ds, hne, hds, ⟨rfl, rfl⟩ | ⟨rfl, rfl⟩⟩
    · -- a digit is no minus sign
      have hhead : bs.head? ≠ some 45 := by
        intro hhead
        rw [hds 45 (List.mem_of_mem_head? hhead)] at hminus
        cases hminus
      rw [minus, unsigned, if_neg hhead, if_neg hhead]
      exact ⟨hne, hds, rfl⟩
    · exact ⟨hne, hds, rfl⟩
  · rintro ⟨hne, hds, hv⟩
    refine ⟨unsigned bs, hne, hds, ?_⟩
    by_cases hhead : bs.head? = some 45
    · have hsplit := minus_append_unsigned bs
      rw [minus, if_pos hhead] at hsplit hv
      exact Or.inr ⟨hsplit.symm, by simpa using hv⟩
    · have hsplit := minus_append_unsigned bs
      rw [minus, if_neg hhead] at hsplit hv
      exact Or.inl ⟨hsplit.symm, by simpa using hv⟩

/-- The digits of a number denote it. -/
theorem digits_toDigits (n : ℕ) :
    (∀ b ∈ octets (Nat.toDigits 10 n), isDigit b = true) ∧
      valueFrom 0 (octets (Nat.toDigits 10 n)) = n := by
  have hdigits : ∀ c ∈ Nat.toDigits 10 n, c.isDigit := fun c hc =>
    Nat.isDigit_of_mem_toDigits (by decide) (by decide) hc
  refine ⟨fun b hb => ?_, ?_⟩
  · have hrange := digit_of_mem_octets hdigits hb
    simp [isDigit, hrange.1, hrange.2]
  · rw [valueFrom, foldl_octets hdigits, Nat.ofDigitChars_toDigits (by decide) (by decide)]

/-- The sign of a text is its minus sign, and its digits come behind it. -/
theorem unsigned_text (n : ℤ) :
    minus (text n) = sign n ∧ unsigned (text n) = octets (Nat.toDigits 10 n.natAbs) := by
  by_cases hneg : n < 0
  · rw [text, sign, if_pos hneg]
    exact ⟨rfl, rfl⟩
  · have hhead : (octets (Nat.toDigits 10 n.natAbs)).head? ≠ some 45 := by
      intro hhead
      exact absurd ((digits_toDigits n.natAbs).1 45 (List.mem_of_mem_head? hhead)) (by decide)
    rw [text, sign, if_neg hneg, List.nil_append, minus, unsigned, if_neg hhead, if_neg hhead]
    exact ⟨rfl, rfl⟩

/-- The canonical text of a number denotes it. -/
theorem numeral_text (n : ℤ) : Numeral (text n) n := by
  obtain ⟨hminus, hunsigned⟩ := unsigned_text n
  obtain ⟨hdigits, hvalue⟩ := digits_toDigits n.natAbs
  have hne : octets (Nat.toDigits 10 n.natAbs) ≠ [] := by
    simp [octets, Nat.toDigits_ne_nil]
  rw [numeral_iff, hminus, hunsigned, hvalue]
  refine ⟨hne, hdigits, ?_⟩
  rw [sign]
  by_cases hneg : n < 0
  · rw [if_pos hneg, if_neg (by decide), Int.ofNat_natAbs_of_nonpos (by omega), neg_neg]
  · rw [if_neg hneg, if_pos rfl, Int.natAbs_of_nonneg (by omega)]

end Decimal
