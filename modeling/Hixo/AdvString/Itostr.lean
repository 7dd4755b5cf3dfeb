import Hixo.AdvString.Defs
import Hixo.Foundation.Decimal

/-!
# The text that `itostr` writes

`itostr` is given a buffer and its size. It counts the digits against the size, but neither the
sign nor the zero at the end; so it is right when the whole text is shorter than the buffer, and
wrong as soon as it is not.

* `writeSign_append`, `writeDigits_append`, `strreverse_append`: the parts of `itostr`;
* `itostr_append`: a text that fits is written, and nothing behind its end is touched;
* `Converts`, `converts_iff`: the buffers into which a number is converted as promised.
-/

namespace Hixo.AdvString

open ByteBlock Decimal

variable {num n start stop : ℤ} {pre old post : List UInt8}

/-! ## The parts -/

theorem intptr_of_mem {value : ℤ} (hmin : integerMin ≤ value) (hmax : value ≤ integerMax) :
    intptr value = .ok value := if_pos ⟨hmin, hmax⟩

/-- One less than a number above `INTEGER_MIN` is an `intptr_t`. -/
theorem intptr_pred (hmin : integerMin < n) (hmax : n ≤ integerMax) :
    intptr (n - 1) = .ok (n - 1) :=
  intptr_of_mem (by omega) (by omega)

theorem integerMin_lt (hn : 0 ≤ n) : integerMin < n := lt_of_lt_of_le (by decide) hn

/-- The sign is written, and the rest of the buffer stays. -/
theorem writeSign_append (post : List UInt8) (hmin : integerMin < num)
    (hpre : pre.length = (sign num).length) :
    writeSign num (some (pre ++ post)) =
      .ok ((num.natAbs : ℤ), (sign num).length, some (sign num ++ post)) := by
  by_cases hneg : num < 0
  · have hsign : sign num = [45] := if_pos hneg
    have habs : intptr (-num) = .ok (num.natAbs : ℤ) := by
      rw [Int.ofNat_natAbs_of_nonpos (by omega)]
      refine intptr_of_mem ?_ ?_ <;> simp only [integerMin, integerMax] at * <;> omega
    rw [hsign] at hpre ⊢
    obtain ⟨b, rfl⟩ := List.length_eq_one_iff.mp hpre
    have hstore : store (some ([b] ++ post)) 0 '-'.toNat.toUInt8 = .ok (some ([45] ++ post)) :=
      store_append [] _ rfl
    rw [writeSign, if_pos hneg, Programs.bind_of_eq_ok hstore, Programs.bind_of_eq_ok habs]
    rfl
  · have hsign : sign num = [] := if_neg hneg
    rw [hsign] at hpre ⊢
    obtain rfl := List.length_eq_zero_iff.mp hpre
    rw [writeSign, if_neg hneg, Int.natAbs_of_nonneg (by omega)]
    rfl

/-- The byte that the loop stores is the last digit. -/
theorem ofInt_tmod (m : ℕ) : UInt8.ofInt ('0'.toNat + (m : ℤ).tmod 10) = digit (m % 10) := by
  have hall : ∀ d < 10, UInt8.ofInt ('0'.toNat + (d : ℕ)) = digit d := by decide
  exact hall (m % 10) (Nat.mod_lt m (by decide))

/-- A pass of the loop stores one digit and goes on with the others. -/
theorem writeDigits_step {p p' : ByteBlock} (hnum : num ≠ 0) (hn : n - 1 ≠ 0)
    (hstore : store p stop (UInt8.ofInt ('0'.toNat + num.tmod 10)) = .ok p') :
    writeDigits num n stop p = writeDigits (num.tdiv 10) (n - 1) (stop + 1) p' := by
  rw [writeDigits, if_neg hnum, if_neg hn]
  exact Programs.bind_of_eq_ok hstore

/-- The loop is over when no digit is left, or no room. -/
theorem writeDigits_done {p : ByteBlock} (hdone : num = 0 ∨ n - 1 = 0) :
    writeDigits num n stop p = .ok (stop, p) := by
  rw [writeDigits]
  split
  · rfl
  · rw [if_pos (hdone.resolve_left ‹_›)]

/-- The loop writes the digits from the last one on, as long as there is room. -/
theorem writeDigits_append (pre post : List UInt8) {m room : ℕ} (hn : n = room + 1)
    (hstop : stop = pre.length) (hold : old.length = ((lowFirst m).take room).length) :
    writeDigits m n stop (some (pre ++ (old ++ post))) =
      .ok (stop + old.length, some (pre ++ ((lowFirst m).take room ++ post))) := by
  induction room generalizing m n stop pre old with
  | zero =>
    obtain rfl := List.length_eq_zero_iff.mp hold
    rw [writeDigits_done (Or.inr (by omega)), List.take_zero, List.length_nil, Int.natCast_zero,
      add_zero]
  | succ room ih =>
    rcases Nat.eq_zero_or_pos m with rfl | hm
    · obtain rfl := List.length_eq_zero_iff.mp hold
      rw [writeDigits_done (Or.inl Int.natCast_zero), lowFirst_zero, List.take_nil, List.length_nil,
        Int.natCast_zero, add_zero]
    · rw [lowFirst_of_pos hm, List.take_succ_cons, List.length_cons] at hold
      obtain ⟨b, old, rfl⟩ := List.exists_of_length_succ _ hold
      -- the pass writes the lowest digit at `stop`
      have hfirst : store (some (pre ++ b :: (old ++ post))) stop
          (UInt8.ofInt ('0'.toNat + (m : ℤ).tmod 10)) =
            .ok (some (pre ++ digit (m % 10) :: (old ++ post))) := by
        rw [store_append _ _ hstop, ofInt_tmod]
      have hdiv : (m : ℤ).tdiv 10 = ((m / 10 : ℕ) : ℤ) := rfl
      have hnext : stop + 1 = (pre ++ [digit (m % 10)]).length := by
        rw [List.length_append, List.length_singleton, hstop]
        rfl
      -- the other digits go behind it, into one place less
      have hrest := ih (pre ++ [digit (m % 10)]) (show n - 1 = (room : ℤ) + 1 by omega) hnext
        (Nat.succ.inj hold)
      simp only [List.append_assoc, List.singleton_append] at hrest
      have hlen : stop + ((b :: old).length : ℤ) = stop + 1 + old.length := by
        rw [List.length_cons]
        omega
      rw [List.cons_append, writeDigits_step (by omega) (by omega) hfirst, hdiv, hrest, hlen,
        lowFirst_of_pos hm, List.take_succ_cons, List.cons_append]

/-- `strreverse` turns round the part of the buffer between its two indices, and nothing else. -/
theorem strreverse_append (pre mid post : List UInt8) (hstart : start = pre.length)
    (hstop : stop = start + mid.length) :
    strreverse (some (pre ++ (mid ++ post))) start stop =
      .ok (0, some (pre ++ (mid.reverse ++ post))) := by
  have hvalid : ¬(some (pre ++ (mid ++ post)) = none ∨ start < 0 ∨ stop < 0) := by
    simp only [reduceCtorEq, false_or]
    omega
  rw [strreverse, if_neg hvalid, if_neg (by omega)]
  by_cases hlt : start < stop
  · have hreverse := reverseRange_append pre mid post hstart
      (show stop - 1 = ((pre ++ mid).length : ℤ) - 1 by
        rw [List.length_append]
        omega)
    rw [if_pos hlt, Programs.bind_of_eq_ok hreverse]
  · obtain rfl : mid = [] := List.length_eq_zero_iff.mp (by omega)
    rw [if_neg hlt]
    rfl

/-! ## The text -/

section

variable (hnum : num ≠ 0) (hmin : integerMin < num) (hn : n ≤ integerMax)

include hnum hmin hn

/-- What `itostr` does before it writes the zero: the sign is written, and of the digits the last
`n - 1`. -/
theorem itostr_eq_store (pre old post : List UInt8) (hroom : 2 ≤ n)
    (hpre : pre.length = (sign num).length)
    (hold : old.length = ((lowFirst num.natAbs).take (n - 1).toNat).length) :
    itostr num (some (pre ++ (old ++ post))) n = (do
      let p ← store
        (some (sign num ++ (((lowFirst num.natAbs).take (n - 1).toNat).reverse ++ post)))
        ((sign num).length + old.length) 0
      .ok (0, p)) := by
  -- the three parts, each on the buffer that the one before it leaves
  have hsign := writeSign_append (old ++ post) hmin hpre
  have hdigits := writeDigits_append (sign num) post
    (show n = ((n - 1).toNat : ℤ) + 1 by omega) rfl hold
  have hreverse := strreverse_append (sign num) ((lowFirst num.natAbs).take (n - 1).toNat) post
    rfl rfl
  rw [← hold] at hreverse
  rw [itostr, if_neg (Option.some_ne_none _),
    Programs.bind_of_eq_ok (intptr_pred (integerMin_lt (by omega)) hn), if_neg (by omega),
    if_neg hnum, Programs.bind_of_eq_ok hsign]
  simp only [Programs.bind_of_eq_ok hdigits, Programs.bind_of_eq_ok hreverse]

/-- With room for the digits and the zero, the digits are all there. -/
theorem itostr_of_length_lt {b : UInt8} (hold : old.length = (text num).length)
    (hfits : old.length < n) :
    itostr num (some (old ++ b :: post)) n = .ok (0, some (text num ++ 0 :: post)) := by
  have htext := text_of_ne_zero hnum
  have hpos : 0 < (lowFirst num.natAbs).length := by
    rw [lowFirst_of_pos (Int.natAbs_pos.mpr hnum)]
    exact Nat.succ_pos _
  have hlen : old.length = (sign num).length + (lowFirst num.natAbs).length := by
    rw [hold, htext, List.length_append, List.length_reverse]
  -- the loop does not run out of room
  have hall : (lowFirst num.natAbs).take (n - 1).toNat = lowFirst num.natAbs :=
    List.take_of_length_le (by omega)
  have hrest : (old.drop (sign num).length).length = (lowFirst num.natAbs).length := by
    rw [List.length_drop]
    omega
  rw [← List.take_append_drop (sign num).length old, List.append_assoc,
    itostr_eq_store hnum hmin hn _ _ _ (by omega) (by rw [List.length_take]; omega)
      (by rw [hall, hrest]), hall, hrest, ← List.append_assoc, ← htext,
    Programs.bind_of_eq_ok (store_append _ _ (by rw [← hold, hlen, Int.natCast_add]))]

/-- A positive number with more digits than room loses the first of them. -/
theorem itostr_truncates (hpos : 0 < num) (hroom : 2 ≤ n) (hlen : old.length = n)
    (hlong : n ≤ (text num).length) :
    itostr num (some old) n =
      .ok (0, some (((lowFirst num.natAbs).take (n - 1).toNat).reverse ++ [0])) := by
  have hsign : sign num = [] := if_neg (by omega)
  have htake : ((lowFirst num.natAbs).take (n - 1).toNat).length = (n - 1).toNat := by
    rw [text_of_ne_zero hnum, hsign, List.nil_append, List.length_reverse] at hlong
    rw [List.length_take]
    omega
  have hdrop : old.dropLast.length = (n - 1).toNat := by
    rw [List.length_dropLast]
    omega
  have hne : old ≠ [] := List.length_pos_iff.mp (by omega)
  have hrun := itostr_eq_store hnum hmin hn [] old.dropLast [old.getLast hne] hroom
    (by rw [hsign]) (hdrop.trans htake.symm)
  rw [List.nil_append, List.dropLast_append_getLast hne, hsign, List.nil_append] at hrun
  -- the zero takes the last byte
  have hlast : n - 1 = ((lowFirst num.natAbs).take (n - 1).toNat).reverse.length := by
    rw [List.length_reverse, htake]
    omega
  have hplace : (([] : List UInt8).length : ℤ) + old.dropLast.length = n - 1 := by
    rw [hdrop, List.length_nil]
    omega
  rw [hrun, hplace, Programs.bind_of_eq_ok (store_append _ _ hlast)]

/-- Behind the sign of a number with too many digits there is no room for the zero. -/
theorem itostr_overrun (hneg : num < 0) (hroom : 2 ≤ n) (hlen : old.length = n)
    (hlong : n ≤ (text num).length) : itostr num (some old) n = .error (.overrun n) := by
  have hsign : (sign num).length = 1 := by
    rw [sign, if_pos hneg]
    rfl
  have htake : ((lowFirst num.natAbs).take (n - 1).toNat).length = (n - 1).toNat := by
    rw [text_of_ne_zero hnum, List.length_append, hsign, List.length_reverse] at hlong
    rw [List.length_take]
    omega
  have hdrop : (old.drop 1).length = (n - 1).toNat := by
    rw [List.length_drop]
    omega
  have hrun := itostr_eq_store hnum hmin hn (old.take 1) (old.drop 1) [] hroom
    (by rw [hsign, List.length_take]; omega) (hdrop.trans htake.symm)
  -- the sign and `n - 1` digits fill the buffer
  have hplace : ((sign num).length : ℤ) + (old.drop 1).length = n := by
    rw [hsign, hdrop]
    omega
  rw [List.append_nil, List.take_append_drop, hplace, List.append_nil, store_of_length_le
    (by rw [List.length_append, List.length_reverse, hsign, htake]; omega)] at hrun
  exact hrun

end

/-- A text that fits is written, and nothing behind its end is touched. -/
theorem itostr_append (b : UInt8) (post : List UInt8) (hmin : integerMin < num)
    (hn : n ≤ integerMax) (hold : old.length = (text num).length) (hfits : old.length < n) :
    itostr num (some (old ++ b :: post)) n = .ok (0, some (text num ++ 0 :: post)) := by
  rcases eq_or_ne num 0 with rfl | hnum
  · obtain ⟨c, rfl⟩ := List.length_eq_one_iff.mp hold
    have hroom : 2 ≤ n := by
      rw [List.length_singleton] at hfits
      omega
    have hdigit : store (some ([c] ++ b :: post)) 0 '0'.toNat.toUInt8 =
        .ok (some ([48] ++ b :: post)) := store_append [] _ rfl
    have hend : store (some ([48] ++ b :: post)) 1 0 = .ok (some (text 0 ++ 0 :: post)) :=
      store_append [48] _ rfl
    rw [itostr, if_neg (Option.some_ne_none _),
      Programs.bind_of_eq_ok (intptr_pred (integerMin_lt (by omega)) hn),
      if_neg (by omega), if_pos rfl, Programs.bind_of_eq_ok hdigit, Programs.bind_of_eq_ok hend]
  · exact itostr_of_length_lt hnum hmin hn hold hfits

/-- For the least number `itostr` computes a negation that does not exist. -/
theorem itostr_integerMin {bytes : List UInt8} (hn : n ≤ integerMax) (hroom : 2 ≤ n)
    (hlen : bytes.length = n) : itostr integerMin (some bytes) n = .error .overflow := by
  obtain ⟨b, post, rfl⟩ := List.exists_cons_of_length_pos (show 0 < bytes.length by omega)
  have hstore : store (some (b :: post)) 0 '-'.toNat.toUInt8 = .ok (some (45 :: post)) :=
    store_append [] _ rfl
  have hneg : intptr (-integerMin) = .error .overflow := by decide
  rw [itostr, if_neg (Option.some_ne_none _),
    Programs.bind_of_eq_ok (intptr_pred (integerMin_lt (by omega)) hn),
    if_neg (by omega), if_neg (by decide), writeSign, if_pos (by decide),
    Programs.bind_of_eq_ok hstore, hneg]
  rfl

/-! ## The promise -/

/-- `itostr` on a buffer with these bytes: it does not reach beyond the buffer, and either the
buffer begins with the whole text and a zero in the end, or the result is -1. -/
def Converts (num n : ℤ) (bytes : List UInt8) : Prop :=
  ∃ rslt bytes', itostr num (some bytes) n = .ok (rslt, some bytes') ∧
    bytes'.length = bytes.length ∧ (rslt = 0 ∧ text num ++ [0] <+: bytes' ∨ rslt = -1)

/-- A buffer of at most one byte is refused. -/
theorem converts_of_le_one {bytes : List UInt8} (hmin : integerMin < n) (hsmall : n ≤ 1) :
    Converts num n bytes := by
  have hroom : intptr (n - 1) = .ok (n - 1) :=
    intptr_pred hmin (le_trans hsmall (by decide))
  refine ⟨-1, bytes, ?_, rfl, Or.inr rfl⟩
  rw [itostr, if_neg (Option.some_ne_none _), Programs.bind_of_eq_ok hroom, if_pos (by omega)]

/-- For the least size, `n - 1` is out of range. -/
theorem not_converts_integerMin {bytes : List UInt8} : ¬Converts num integerMin bytes := by
  rintro ⟨rslt, bytes', hrun, -⟩
  have hroom : intptr (integerMin - 1) = .error .overflow := by decide
  rw [itostr, if_neg (Option.some_ne_none _), hroom] at hrun
  cases hrun

/-- In a buffer of two bytes or more, a number is converted if its text is shorter. -/
theorem converts_iff_length_text_lt {bytes : List UInt8} (hmin : integerMin < num)
    (hn : n ≤ integerMax) (hroom : 2 ≤ n) (hlen : bytes.length = n) :
    Converts num n bytes ↔ (text num).length < n := by
  constructor
  · rintro ⟨rslt, bytes', hrun, hsame, hpromise⟩
    by_contra hlong
    rw [not_lt] at hlong
    rcases lt_trichotomy num 0 with hneg | rfl | hpos
    · rw [itostr_overrun (by omega) hmin hn hneg hroom hlen hlong] at hrun
      cases hrun
    · rw [text_zero, List.length_singleton] at hlong
      omega
    · rw [itostr_truncates (by omega) hmin hn hpos hroom hlen hlong] at hrun
      obtain rfl : 0 = rslt := (Prod.mk.inj (Except.ok.inj hrun)).1
      -- the whole text is longer than the buffer
      rcases hpromise with ⟨-, hprefix⟩ | hfail
      · have hle := hprefix.length_le
        rw [List.length_append, List.length_singleton] at hle
        omega
      · exact absurd hfail (by decide)
  · intro hfits
    obtain ⟨b, post, hpost⟩ := List.exists_cons_of_length_pos
      (show 0 < (bytes.drop (text num).length).length by rw [List.length_drop]; omega)
    have hold : (bytes.take (text num).length).length = (text num).length := by
      rw [List.length_take]
      omega
    have hsplit : bytes = bytes.take (text num).length ++ b :: post := by
      rw [← hpost, List.take_append_drop]
    have hrun := itostr_append b post hmin hn hold (by omega)
    rw [← hsplit] at hrun
    refine ⟨0, _, hrun, ?_, Or.inl ⟨rfl, ?_⟩⟩
    · rw [hsplit, List.length_append, List.length_append, hold, List.length_cons,
        List.length_cons]
    · exact ⟨post, by rw [List.append_assoc, List.singleton_append]⟩

/-- `itostr` converts a number into a buffer of exactly `n` bytes (none if `n` is negative) as
promised if and only if the size is too small and can be seen to be, or the whole text and the
zero fit. -/
theorem converts_iff (num n : ℤ) (bytes : List UInt8)
    (hnum : integerMin ≤ num ∧ num ≤ integerMax) (hn : integerMin ≤ n ∧ n ≤ integerMax)
    (hbytes : bytes.length = n.toNat) :
    Converts num n bytes ↔ integerMin < n ∧
      (2 ≤ n → integerMin < num ∧ -10 ^ (n.toNat - 2) < num ∧ num < 10 ^ (n.toNat - 1)) := by
  rcases lt_or_ge n 2 with hsmall | hroom
  · rcases eq_or_lt_of_le hn.1 with rfl | hmin
    · exact ⟨fun h => absurd h not_converts_integerMin, fun h => absurd h.1 (lt_irrefl _)⟩
    · exact ⟨fun _ => ⟨hmin, fun hroom => absurd hroom (not_le.mpr hsmall)⟩,
        fun _ => converts_of_le_one hmin (by omega)⟩
  · have hlen : bytes.length = n := by omega
    have hmin : integerMin < n := integerMin_lt (by omega)
    rcases eq_or_lt_of_le hnum.1 with rfl | hlow
    · refine ⟨?_, fun h => absurd (h.2 hroom).1 (lt_irrefl _)⟩
      rintro ⟨rslt, bytes', hrun, -⟩
      rw [itostr_integerMin hn.2 hroom hlen] at hrun
      cases hrun
    · have hshort : (text num).length < n ↔ (text num).length < n.toNat := by omega
      rw [converts_iff_length_text_lt hlow hn.2 hroom hlen, hshort,
        length_text_lt_iff (by omega)]
      exact ⟨fun h => ⟨hmin, fun _ => ⟨hlow, h⟩⟩, fun h => (h.2 hroom).2⟩

/-! ## A sample -/

theorem converts_iff_minus_five :
    Converts (-5) 3 [0, 0, 0] ↔ integerMin < 3 ∧
      (2 ≤ (3 : ℤ) → integerMin < -5 ∧ -10 ^ ((3 : ℤ).toNat - 2) < (-5 : ℤ) ∧
        (-5 : ℤ) < 10 ^ ((3 : ℤ).toNat - 1)) :=
  converts_iff (-5) 3 [0, 0, 0] (by decide) (by decide) rfl

/-- Of the number 123, two digits are left in a buffer of three bytes. -/
theorem not_converts_truncated :
    ¬∀ (num n : ℤ) (bytes : List UInt8), integerMin ≤ num ∧ num ≤ integerMax →
      integerMin ≤ n ∧ n ≤ integerMax → bytes.length = n.toNat → Converts num n bytes := by
  intro hall
  obtain ⟨rslt, bytes', hrun, -, hpromise⟩ :=
    hall 123 3 [0, 0, 0] (by decide) (by decide) rfl
  have htext : itostr 123 (some [0, 0, 0]) 3 = .ok (0, some [50, 51, 0]) :=
    itostr_truncates (by decide) (by decide) (by decide) (by decide) (by decide) rfl
      (by decide)
  rw [htext] at hrun
  obtain ⟨rfl, hbytes⟩ := Prod.mk.inj (Except.ok.inj hrun)
  obtain rfl := Option.some.inj hbytes
  exact absurd hpromise (by decide)

end Hixo.AdvString
