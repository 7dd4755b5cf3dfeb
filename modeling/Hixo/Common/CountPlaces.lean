import Hixo.Common.Defs
import Hixo.AdvString.Itostr

/-!
# `count_places` counts the characters of a number

The table has the greatest number with `i + 1` digits at its place `i`. The search keeps the number
of digits between `start + 1` and `end + 1`, and what it stored in `rslt` is the right one as soon
as the two meet.

* `placesMaxAt_eq`: the table;
* `searchPlaces_eq`: the search, from any interval that the number of digits is in;
* `countPlaces_eq`: the result is the length of the canonical text.
-/

namespace Hixo.Common

open ByteBlock AdvString Decimal

/-- The table holds the greatest number with `i + 1` digits at index `i`. -/
theorem placesMaxAt_eq {i : ℕ} (hi : i < 18) : placesMaxAt i = .ok (10 ^ (i + 1) - 1) := by
  have hall : ∀ i : ℕ, i < 18 → placesMaxAt i = .ok (10 ^ (i + 1) - 1) := by decide
  exact hall i hi

/-- A number is at most the entry at `i` exactly when it has at most `i + 1` digits. -/
theorem le_placesMax_iff {n i : ℕ} : (n : ℤ) ≤ 10 ^ (i + 1) - 1 ↔ places n ≤ i + 1 := by
  have hcast : ((10 ^ (i + 1) : ℕ) : ℤ) = 10 ^ (i + 1) := Int.natCast_pow 10 _
  rw [places_le_iff (Nat.succ_pos i)]
  omega

/-- The search finds the number of digits if it is in the interval, and in `rslt` when the interval
is empty. -/
theorem searchPlaces_eq {n start stop : ℕ} {rslt : ℤ} (hle : start ≤ stop) (hstop : stop ≤ 18)
    (hlow : start + 1 ≤ places n) (hhigh : places n ≤ stop + 1)
    (hrslt : start = stop → rslt = places n) :
    searchPlaces n rslt start stop = .ok (places n) := by
  -- the interval from `start` to `stop` shrinks; the number of places stays between its ends
  induction hlen : stop - start using Nat.strong_induction_on generalizing start stop rslt with
  | _ len ih =>
    have hrange {x : ℤ} (h₀ : 0 ≤ x) (h : x ≤ 20) : intptr x = .ok x := by
      refine intptr_of_mem ?_ ?_ <;> simp only [integerMin, integerMax] <;> omega
    rw [searchPlaces]
    by_cases hlt : (start : ℤ) < stop
    · obtain ⟨middle, hmiddle⟩ : ∃ middle, middle = start + (stop - start) / 2 := ⟨_, rfl⟩
      have hcast : (start : ℤ) + ((stop : ℤ) - start).tdiv 2 = middle := by
        rw [Int.tdiv_eq_ediv_of_nonneg (by omega)]
        omega
      rw [if_pos hlt, hcast, Programs.bind_of_eq_ok (hrange (by omega) (by omega)),
        Programs.bind_of_eq_ok (hrange (by omega) (by omega)),
        Programs.bind_of_eq_ok (placesMaxAt_eq (by omega))]
      by_cases hmax : places n ≤ middle + 1
      · -- the number is at most the one in the middle, and the search goes on below
        rw [if_pos (le_placesMax_iff.mpr hmax),
          Programs.bind_of_eq_ok (hrange (by omega) (by omega))]
        exact ih (middle - start) (by omega) (by omega) (by omega) hlow hmax
          (fun heq => by omega) rfl
      · -- it is greater, and the search goes on above
        rw [if_neg fun h => hmax (le_placesMax_iff.mp h),
          Programs.bind_of_eq_ok (hrange (by omega) (by omega)),
          Programs.bind_of_eq_ok (hrange (by omega) (by omega))]
        rw [show (middle : ℤ) + 1 = (middle + 1 : ℕ) from rfl]
        exact ih (stop - (middle + 1)) (by omega) (by omega) hstop (by omega) hhigh
          (fun heq => by omega) rfl
    · rw [if_neg hlt, hrslt (by omega)]

/-- No `intptr_t` has more digits than the table has places for. -/
theorem places_le {n : ℕ} (hn : (n : ℤ) ≤ integerMax) : places n ≤ 19 := by
  rw [places_le_iff (by decide)]
  simp only [integerMax] at hn
  omega

/-- The texts of the other numbers have at least one character and at most 20. -/
theorem length_text_bounds {num : ℤ} (hmin : integerMin < num) (hmax : num ≤ integerMax) :
    0 < (text num).length ∧ (text num).length ≤ 20 := by
  have hlow : 1 ≤ places num.natAbs := Nat.length_toDigits_pos
  have hhigh : places num.natAbs ≤ 19 := by
    refine places_le ?_
    simp only [integerMin, integerMax] at *
    omega
  rw [length_text]
  split <;> omega

/-- The search over the whole table finds the number of digits. -/
theorem searchPlaces_placesMax {n : ℕ} (hn : (n : ℤ) ≤ integerMax) :
    searchPlaces n 0 0 placesMax.length = .ok (places n) := by
  have hlow : 1 ≤ places n := Nat.length_toDigits_pos
  exact searchPlaces_eq (Nat.zero_le _) le_rfl hlow (places_le hn) fun heq => absurd heq (by decide)

/-- `ABS_VALUE` gives the absolute value of every number but `INTEGER_MIN`. -/
theorem absValue_eq {num : ℤ} (hmin : integerMin < num) (hmax : num ≤ integerMax) :
    absValue num = .ok (num.natAbs : ℤ) := by
  rw [absValue, if_neg (by omega)]
  by_cases hpos : num > 0
  · rw [if_pos hpos, Int.natAbs_of_nonneg (by omega)]
  · rw [if_neg hpos, Int.ofNat_natAbs_of_nonpos (by omega)]
    refine intptr_of_mem ?_ ?_ <;> simp only [integerMin, integerMax] at * <;> omega

/-- `count_places` returns the number of characters of the canonical text, for every number. -/
theorem countPlaces_eq (num : ℤ) (hmin : integerMin ≤ num) (hmax : num ≤ integerMax) :
    countPlaces num = .ok ((text num).length : ℤ) := by
  -- the sign adds one place
  have hsign {k : ℕ} (hk : k ≤ 19) :
      (if num < 0 then intptr ((k : ℤ) + 1) else .ok (k : ℤ)) =
        .ok ((k + if num < 0 then 1 else 0 : ℕ) : ℤ) := by
    split
    · refine intptr_of_mem ?_ ?_ <;> simp only [integerMin, integerMax] <;> omega
    · rfl
  rw [countPlaces, length_text]
  rcases eq_or_lt_of_le hmin with rfl | hmin
  · -- the least number has as many digits as the one behind it
    have hnext : intptr (integerMin + 1) = .ok (-integerMax) := by decide
    have habs : absValue (-integerMax) = .ok (integerMax.toNat : ℤ) := by decide
    have hplaces : places integerMin.natAbs = places integerMax.toNat := by decide
    rw [if_pos rfl, Programs.bind_of_eq_ok hnext, Programs.bind_of_eq_ok habs]
    dsimp only
    rw [Programs.bind_of_eq_ok (searchPlaces_placesMax (by decide)), hplaces, hsign (by decide)]
  · have hsearch : (num.natAbs : ℤ) ≤ integerMax := by
      simp only [integerMin, integerMax] at *
      omega
    rw [if_neg (by omega), Programs.bind_of_eq_ok (absValue_eq hmin hmax)]
    dsimp only
    rw [Programs.bind_of_eq_ok (searchPlaces_placesMax hsearch), hsign (places_le hsearch)]

/-! ## A sample -/

theorem countPlaces_eq_integerMin :
    countPlaces integerMin = .ok ((text integerMin).length : ℤ) :=
  countPlaces_eq integerMin (by decide) (by decide)

end Hixo.Common
