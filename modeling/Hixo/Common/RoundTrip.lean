import Hixo.AdvString.Strtoi
import Hixo.Common.Wtoa

/-!
# Writing a number and reading it back

`itostr` and `wtoa` write the same text, `count_places` is its length, and `strtoi` reads the number
back, for every number that has a negation.

* `RoundTrips`: what the four functions do with a number and two buffers;
* `roundTrips`: they do so for every buffer with room for the text.
-/

namespace Hixo.Common

open AdvString Decimal

/-- In buffers with these bytes `itostr` and `wtoa` write the same text of `k` characters, with a
zero behind it, and `strtoi` reads the number back. -/
def RoundTrips (num : ℤ) (k : ℕ) (n : ℤ) (bytes bytes' : List UInt8) : Prop :=
  ∃ str post post', str.length = k ∧ 0 ∉ str ∧
    itostr num (some bytes) n = .ok (0, some (str ++ 0 :: post)) ∧
    wtoa num k (some bytes') n = .ok (true, some (str ++ 0 :: post')) ∧
    ∀ w, strtoi (some (str ++ 0 :: post)) k (some w) = .ok (0, some num)

/-- The canonical text of a number is read to its end. -/
theorem strtoi_text {num : ℤ} (hmin : integerMin < num) (hmax : num ≤ integerMax)
    (post : List UInt8) (w : ℤ) :
    strtoi (some (text num ++ post)) (text num).length (some w) = .ok (0, some num) := by
  obtain ⟨hminus, hunsigned⟩ := unsigned_text num
  obtain ⟨hdigits, hvalue⟩ := digits_toDigits num.natAbs
  obtain ⟨-, -, hnum⟩ := numeral_iff.mp (numeral_text num)
  rw [hminus, hunsigned] at hnum
  have hlength := length_text_bounds hmin hmax
  have hne : text num ≠ [] := List.length_pos_iff.mp hlength.1
  -- the sign of the text is the sign of the buffer
  have hsign : minus (sign num ++ (HttpMessage.octets (Nat.toDigits 10 num.natAbs) ++ post)) =
      sign num := by
    rw [← List.append_assoc, ← text, ← hminus, minus, minus, List.head?_append_of_ne_nil _ hne]
  have hfits :
      (valueFrom 0 (HttpMessage.octets (Nat.toDigits 10 num.natAbs)) : ℤ) ≤ integerMax := by
    rw [hvalue]
    simp only [integerMin, integerMax] at *
    omega
  have hlen : ((text num).length : ℤ) =
      (sign num).length + (HttpMessage.octets (Nat.toDigits 10 num.natAbs)).length := by
    rw [text, List.length_append, Int.natCast_add]
  have hrun := strtoi_append (w := w) hsign hdigits hlen (by omega) hfits
    (by simp only [intMax]; omega)
  rw [← List.append_assoc, ← hnum] at hrun
  exact hrun

/-- A text has no zero in it. -/
theorem zero_notMem_text (num : ℤ) : 0 ∉ text num := by
  intro hmem
  rw [text, List.mem_append] at hmem
  rcases hmem with hsign | hdigit
  · rw [sign] at hsign
    split at hsign
    · exact absurd hsign (by decide)
    · cases hsign
  · exact absurd ((digits_toDigits num.natAbs).1 0 hdigit) (by decide)

/-- A buffer with room for a text and a zero is that part of it, a byte and the rest. -/
theorem exists_eq_append_cons {bytes : List UInt8} {k : ℕ} (h : k < bytes.length) :
    ∃ old b post, bytes = old ++ b :: post ∧ old.length = k := by
  refine ⟨bytes.take k, bytes[k], bytes.drop (k + 1), ?_, ?_⟩
  · rw [List.getElem_cons_drop, List.take_append_drop]
  · rw [List.length_take]
    omega

/-- For every number but `INTEGER_MIN` and all buffers of at least `n` bytes, where `n` is more than
what `count_places` says, the text is written by both functions and read back. -/
theorem roundTrips (num : ℤ) (hmin : integerMin < num) (hmax : num ≤ integerMax) :
    ∃ k : ℕ, countPlaces num = .ok (k : ℤ) ∧ ∀ (n : ℤ) (bytes bytes' : List UInt8),
      k + 1 ≤ n → n ≤ integerMax → n ≤ bytes.length → n ≤ bytes'.length →
        RoundTrips num k n bytes bytes' := by
  refine ⟨(text num).length, countPlaces_eq num hmin.le hmax,
    fun n bytes bytes' hroom hn hbytes hbytes' => ?_⟩
  obtain ⟨old, b, post, rfl, hold⟩ :=
    exists_eq_append_cons (show (text num).length < bytes.length by omega)
  obtain ⟨old', b', post', rfl, hold'⟩ :=
    exists_eq_append_cons (show (text num).length < bytes'.length by omega)
  exact ⟨text num, post, post', rfl, zero_notMem_text num,
    itostr_append b post hmin hn hold (by omega),
    wtoa_append hmin hmax (integerMin_lt (by omega)) hn (by omega) b' post' hold',
    fun w => strtoi_text hmin hmax (0 :: post) w⟩

theorem roundTrips_minus_five :
    ∃ k : ℕ, countPlaces (-5) = .ok (k : ℤ) ∧ ∀ (n : ℤ) (bytes bytes' : List UInt8),
      k + 1 ≤ n → n ≤ integerMax → n ≤ bytes.length → n ≤ bytes'.length →
        RoundTrips (-5) k n bytes bytes' :=
  roundTrips (-5) (by decide) (by decide)

end Hixo.Common
