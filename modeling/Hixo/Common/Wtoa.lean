import Hixo.Common.CountPlaces

/-!
# The text that `wtoa` writes

`wtoa` compares the number of places that its caller says with the size of the buffer, and then
writes as many characters as the number has. For `INTEGER_MIN` it copies the text without the zero
at its end.

* `wtoaDigits_eq`, `strReverse_append`: the parts of `wtoa`;
* `wtoa_append`, `wtoa_overrun`: the text is written if it fits, and otherwise the buffer overflows;
* `WritesText`, `writesText_iff`: the calls that do what is promised.
-/

namespace Hixo.Common

open ByteBlock AdvString Decimal

variable {num places len : ℤ} {m : ℕ} {old post bytes : List UInt8}

/-! ## The parts -/

/-- The character that the loop stores is the last digit. -/
theorem ofInt_sub_tdiv (m : ℕ) :
    UInt8.ofInt ((m : ℤ) - (m : ℤ).tdiv 10 * 10 + '0'.toNat) = digit (m % 10) := by
  have hmod : (m : ℤ) - (m : ℤ).tdiv 10 * 10 = (m : ℤ).tmod 10 := by
    have hdiv := Int.mul_tdiv_add_tmod (m : ℤ) 10
    omega
  rw [hmod, add_comm, ofInt_tmod]

/-- The loop writes the digits from the last one on. -/
theorem wtoaDigits_eq {stop : ℤ} {buf : ByteBlock} :
    wtoaDigits m stop buf =
      storeAll buf stop (lowFirst m) >>= fun buf => .ok (stop + (lowFirst m).length, buf) := by
  -- the recursion of the loop is the one of `lowFirst`, the digits with the last one first
  induction m using Nat.strong_induction_on generalizing stop buf with
  | _ m ih =>
    rcases Nat.eq_zero_or_pos m with rfl | hm
    · rw [wtoaDigits, if_neg (by omega)]
      simp [storeAll, bind, Except.bind]
    · have hdiv : (m : ℤ).tdiv 10 = ((m / 10 : ℕ) : ℤ) := rfl
      rw [wtoaDigits, if_pos (by omega), lowFirst_of_pos hm, storeAll]
      dsimp only
      rw [ofInt_sub_tdiv]
      -- a store that fails ends both sides
      cases hstore : store buf stop (digit (m % 10)) with
      | error fault => rfl
      | ok buf' =>
        have hlen : stop + 1 + ((lowFirst (m / 10)).length : ℤ) =
            stop + ((lowFirst (m / 10)).length + 1 : ℕ) := by omega
        rw [Programs.bind_of_eq_ok rfl, Programs.bind_of_eq_ok rfl, hdiv,
          ih _ (Nat.div_lt_self hm (by decide)), List.length_cons, hlen]

/-- `str_reverse` turns round the first bytes of the buffer, and nothing else. -/
theorem strReverse_append (mid post : List UInt8) (hpos : 0 < mid.length)
    (hlen : mid.length ≤ 2 ^ 31) :
    strReverse (some (mid ++ post)) mid.length = .ok (some (mid.reverse ++ post)) := by
  have hlast : intptr ((mid.length : ℤ) - 1) = .ok ((mid.length : ℤ) - 1) := by
    refine intptr_of_mem ?_ ?_ <;> simp only [integerMin, integerMax] <;> omega
  -- the place of the last byte is an `int`
  have hint : ((mid.length : ℤ) - 1).bmod 4294967296 = (mid.length : ℤ) - 1 :=
    Int.bmod_eq_of_le (by omega) (by omega)
  rw [strReverse, Programs.bind_of_eq_ok hlast, hint]
  exact reverseRange_append [] mid post rfl (by rw [List.nil_append])

/-! ## The text -/

/-- The characters of a text, from the last one on. -/
theorem reverse_text (hnum : num ≠ 0) : (text num).reverse = lowFirst num.natAbs ++ sign num := by
  have hsign : (sign num).reverse = sign num := by
    rw [sign]
    split <;> rfl
  rw [text_of_ne_zero hnum, List.reverse_append, List.reverse_reverse, hsign]

section

variable (hmin : integerMin < num) (hmax : num ≤ integerMax) (hlen : integerMin < len)
  (hlen' : len ≤ integerMax) (hroom : places ≤ len - 1)

include hmin hmax hlen hlen' hroom

/-- What `wtoa` does with a number other than zero: it stores the characters from the last one on,
reverses them and adds the zero. -/
theorem wtoa_eq_storeAll (hnum : num ≠ 0) (buf : ByteBlock) :
    wtoa num places buf len = (do
      let buf ← storeAll buf 0 (text num).reverse
      let buf ← strReverse buf (text num).length
      let buf ← store buf (text num).length 0
      .ok (true, buf)) := by
  have habs := absValue_eq hmin hmax
  have hpred : intptr (len - 1) = .ok (len - 1) := intptr_pred hlen hlen'
  have hne : (num.natAbs : ℤ) ≠ 0 := by omega
  rw [wtoa, Programs.bind_of_eq_ok habs, Programs.bind_of_eq_ok hpred, if_neg (not_lt.mpr hroom),
    if_neg (by omega), if_neg hne, wtoaDigits_eq, reverse_text hnum, storeAll_bind, zero_add]
  -- the loop writes the digits, and then the sign comes
  cases hdigits : storeAll buf 0 (lowFirst num.natAbs) with
  | error fault => rfl
  | ok buf' =>
    have hlength : (text num).length = (lowFirst num.natAbs).length + (sign num).length := by
      rw [← List.length_reverse, reverse_text hnum, List.length_append]
    simp only [Programs.bind_of_eq_ok (rfl : Except.ok buf' = .ok buf')]
    by_cases hneg : num < 0
    · have hsign : sign num = ['-'.toNat.toUInt8] := if_pos hneg
      rw [hlength, hsign, List.length_singleton, storeAll]
      simp only [hneg, if_true, bind, Except.bind]
      cases hstore : store buf' (lowFirst num.natAbs).length '-'.toNat.toUInt8 with
      | error fault => rfl
      | ok buf'' => rfl
    · have hsign : sign num = [] := if_neg hneg
      rw [hlength, hsign, List.length_nil, storeAll]
      simp only [hneg, if_false]
      rfl

/-- A text that fits is written, and nothing behind its zero is touched. -/
theorem wtoa_append (b : UInt8) (post : List UInt8) (hold : old.length = (text num).length) :
    wtoa num places (some (old ++ b :: post)) len = .ok (true, some (text num ++ 0 :: post)) := by
  -- zero has a branch of its own
  rcases eq_or_ne num 0 with rfl | hnum
  · obtain ⟨c, rfl⟩ := List.length_eq_one_iff.mp hold
    have hpred : intptr (len - 1) = .ok (len - 1) := intptr_pred hlen hlen'
    have hdigit : store (some ([c] ++ b :: post)) 0 '0'.toNat.toUInt8 =
        .ok (some ([48] ++ b :: post)) := store_append [] _ rfl
    have hend : store (some ([48] ++ b :: post)) 1 0 = .ok (some (text 0 ++ 0 :: post)) :=
      store_append [48] _ rfl
    have habs : absValue 0 = .ok 0 := by decide
    rw [wtoa, Programs.bind_of_eq_ok habs, Programs.bind_of_eq_ok hpred,
      if_neg (not_lt.mpr hroom), if_neg (by decide), if_pos rfl, Programs.bind_of_eq_ok hdigit,
      Programs.bind_of_eq_ok hend]
  · -- the text is written from its end, with the sign behind the digits, and reversed
    have hstore : storeAll (some (old ++ b :: post)) 0 (text num).reverse =
        .ok (some ((text num).reverse ++ b :: post)) :=
      storeAll_append [] (b :: post) rfl (hold.trans List.length_reverse.symm)
    have hlength := length_text_bounds hmin hmax
    have hreverse := strReverse_append (text num).reverse (b :: post)
      (by rw [List.length_reverse]; exact hlength.1) (by rw [List.length_reverse]; omega)
    rw [List.length_reverse, List.reverse_reverse] at hreverse
    rw [wtoa_eq_storeAll hmin hmax hlen hlen' hroom hnum, Programs.bind_of_eq_ok hstore,
      Programs.bind_of_eq_ok hreverse, Programs.bind_of_eq_ok (store_append _ _ rfl)]

/-- In a buffer without room for the text and the zero, `wtoa` writes beyond the end. -/
theorem wtoa_overrun (hshort : bytes.length ≤ (text num).length) :
    ∃ fault, wtoa num places (some bytes) len = .error fault := by
  rcases eq_or_ne num 0 with rfl | hnum
  · have hpred : intptr (len - 1) = .ok (len - 1) := intptr_pred hlen hlen'
    have habs : absValue 0 = .ok 0 := by decide
    rw [text_zero, List.length_singleton] at hshort
    -- the digit of zero or the zero behind it does not fit
    rw [wtoa, Programs.bind_of_eq_ok habs, Programs.bind_of_eq_ok hpred,
      if_neg (not_lt.mpr hroom), if_neg (by decide), if_pos rfl]
    cases bytes with
    | nil => exact ⟨_, rfl⟩
    | cons c bytes =>
      obtain rfl : bytes = [] := by
        rw [List.length_cons] at hshort
        exact List.length_eq_zero_iff.mp (by omega)
      exact ⟨_, rfl⟩
  · rw [wtoa_eq_storeAll hmin hmax hlen hlen' hroom hnum]
    rcases lt_or_eq_of_le hshort with hlt | heq
    · -- not even the characters fit
      obtain ⟨fault, hfault⟩ :
          ∃ fault, storeAll (some bytes) 0 (text num).reverse = .error fault :=
        storeAll_overrun le_rfl (Int.natCast_nonneg bytes.length)
          (by rw [List.length_reverse]; omega)
      exact ⟨fault, by rw [hfault]; rfl⟩
    · -- only the zero does not
      have hlength := length_text_bounds hmin hmax
      have hstore : storeAll (some bytes) 0 (text num).reverse = .ok (some (text num).reverse) := by
        have hall := storeAll_append (i := 0) [] [] rfl (heq.trans List.length_reverse.symm)
        simpa using hall
      have hreverse := strReverse_append (text num).reverse []
        (by rw [List.length_reverse]; exact hlength.1) (by rw [List.length_reverse]; omega)
      rw [List.length_reverse, List.reverse_reverse, List.append_nil, List.append_nil] at hreverse
      exact ⟨_, by rw [Programs.bind_of_eq_ok hstore, Programs.bind_of_eq_ok hreverse,
        store_of_length_le le_rfl]; rfl⟩

end

/-- The text that is copied for `INTEGER_MIN` is the one of that number. -/
theorem strIntegerMin_eq : strIntegerMin = text integerMin := by decide

/-- For `INTEGER_MIN` the text is copied without a zero. -/
theorem wtoa_integerMin (hlen : integerMin < len) (hlen' : len ≤ integerMax)
    (hroom : places ≤ len - 1) (buf : ByteBlock) :
    wtoa integerMin places buf len = (do
      let buf ← storeAll buf 0 (text integerMin)
      .ok (true, buf)) := by
  have habs : absValue integerMin = .ok (-1) := by decide
  have hpred : intptr (len - 1) = .ok (len - 1) := intptr_pred hlen hlen'
  rw [wtoa, Programs.bind_of_eq_ok habs, Programs.bind_of_eq_ok hpred, if_neg (not_lt.mpr hroom),
    if_pos rfl, strncpy, strIntegerMin_eq, List.take_length, Nat.sub_self, List.replicate_zero,
    List.append_nil]

/-! ## The promise -/

/-- `wtoa` on a buffer with these bytes: the result is `NULL` and the buffer is as before, or the
buffer begins with the text and a zero. -/
def WritesText (num places len : ℤ) (bytes : List UInt8) : Prop :=
  ∃ found bytes', wtoa num places (some bytes) len = .ok (found, some bytes') ∧
    bytes'.length = bytes.length ∧
      (found = false ∧ bytes' = bytes ∨ found = true ∧ text num ++ [0] <+: bytes')

/-- The absolute value is computed for every number. -/
theorem exists_absValue_eq (hnum : integerMin ≤ num ∧ num ≤ integerMax) :
    ∃ value, absValue num = .ok value := by
  rcases eq_or_lt_of_le hnum.1 with rfl | hmin
  · exact ⟨-1, by decide⟩
  · exact ⟨_, absValue_eq hmin hnum.2⟩

/-- A call that is refused does no harm. -/
theorem writesText_of_refused (hnum : integerMin ≤ num ∧ num ≤ integerMax) (hlen : integerMin < len)
    (hlen' : len ≤ integerMax) (hrefused : len - 1 < places) : WritesText num places len bytes := by
  have hpred : intptr (len - 1) = .ok (len - 1) := intptr_pred hlen hlen'
  obtain ⟨value, habs⟩ := exists_absValue_eq hnum
  refine ⟨false, bytes, ?_, rfl, Or.inl ⟨rfl, rfl⟩⟩
  rw [wtoa, Programs.bind_of_eq_ok habs, Programs.bind_of_eq_ok hpred, if_pos hrefused]

/-- A number other than `INTEGER_MIN` is written as promised if its text is shorter than the
buffer. -/
theorem writesText_iff_of_ne (hmin : integerMin < num) (hmax : num ≤ integerMax)
    (hlen : integerMin < len) (hlen' : len ≤ integerMax) (hroom : places ≤ len - 1) :
    WritesText num places len bytes ↔ (text num).length < bytes.length := by
  constructor
  · rintro ⟨found, bytes', hrun, -⟩
    by_contra hshort
    obtain ⟨fault, hfault⟩ := wtoa_overrun hmin hmax hlen hlen' hroom (not_lt.mp hshort)
    rw [hfault] at hrun
    cases hrun
  · -- the buffer is what the text replaces, one byte for the zero, and the rest
    intro hfits
    obtain ⟨b, post, hpost⟩ := List.exists_cons_of_length_pos
      (show 0 < (bytes.drop (text num).length).length by rw [List.length_drop]; omega)
    have hold : (bytes.take (text num).length).length = (text num).length := by
      rw [List.length_take]
      omega
    have hrun := wtoa_append hmin hmax hlen hlen' hroom b post hold
    rw [← hpost, List.take_append_drop] at hrun
    refine ⟨true, _, hrun, ?_, Or.inr ⟨rfl, post, by simp⟩⟩
    have htotal := congrArg List.length hpost
    rw [List.length_drop, List.length_cons] at htotal
    rw [List.length_append, List.length_cons]
    omega

/-- `INTEGER_MIN` is written as promised if its text is shorter than the buffer and the zero was
there before. -/
theorem writesText_integerMin_iff (hlen : integerMin < len) (hlen' : len ≤ integerMax)
    (hroom : places ≤ len - 1) :
    WritesText integerMin places len bytes ↔ bytes[20]? = some 0 := by
  have htext : (text integerMin).length = 20 := by decide
  rw [WritesText, wtoa_integerMin hlen hlen' hroom]
  -- the copy needs twenty bytes, and what was behind them stays
  rcases Nat.lt_or_ge bytes.length 20 with hlt | hge
  · obtain ⟨fault, hfault⟩ : ∃ fault, storeAll (some bytes) 0 (text integerMin) = .error fault :=
      storeAll_overrun le_rfl (Int.natCast_nonneg bytes.length) (by rw [htext]; omega)
    rw [hfault, List.getElem?_eq_none (by omega)]
    simp [bind, Except.bind]
  · have hold : (bytes.take 20).length = (text integerMin).length := by
      rw [List.length_take, htext]
      omega
    have hstore := storeAll_append (i := 0) [] (bytes.drop 20) rfl hold
    rw [List.nil_append, List.nil_append, List.take_append_drop] at hstore
    -- the zero of the promise is the byte that was there before
    have hprefix : text integerMin ++ [0] <+: text integerMin ++ bytes.drop 20 ↔
        bytes[20]? = some 0 := by
      rw [List.prefix_append_right_inj, ← List.head?_drop]
      cases bytes.drop 20 with
      | nil => simp
      | cons c rest => simp [List.cons_prefix_cons, eq_comm]
    rw [Programs.bind_of_eq_ok hstore, ← hprefix]
    constructor
    · rintro ⟨found, bytes', hrun, -, hpromise⟩
      obtain ⟨rfl, hbytes⟩ := Prod.mk.inj (Except.ok.inj hrun)
      obtain rfl := Option.some.inj hbytes
      exact (hpromise.resolve_left fun hnull => absurd hnull.1 (by decide)).2
    · intro hzero
      refine ⟨true, _, rfl, ?_, Or.inr ⟨rfl, hzero⟩⟩
      rw [List.length_append, htext, List.length_drop]
      omega

/-- A call of `wtoa` with a buffer of exactly `len` bytes (none if `len` is negative) does what is
promised if and only if it is refused, or the whole text fits with its zero, which for
`INTEGER_MIN` must be there before. -/
theorem writesText_iff (num places len : ℤ) (bytes : List UInt8)
    (hnum : integerMin ≤ num ∧ num ≤ integerMax) (hlen : integerMin ≤ len ∧ len ≤ integerMax)
    (hbytes : bytes.length = len.toNat) :
    WritesText num places len bytes ↔ integerMin < len ∧
      (places ≤ len - 1 →
        (text num).length < len ∧ (num = integerMin → bytes[20]? = some 0)) := by
  rcases eq_or_lt_of_le hlen.1 with rfl | hlow
  · -- `len - 1` is out of range
    refine iff_of_false ?_ fun h => absurd h.1 (lt_irrefl _)
    rintro ⟨found, bytes', hrun, -⟩
    obtain ⟨value, habs⟩ := exists_absValue_eq hnum
    have hpred : intptr (integerMin - 1) = .error .overflow := by decide
    rw [wtoa, Programs.bind_of_eq_ok habs, hpred] at hrun
    cases hrun
  rw [and_iff_right hlow]
  rcases lt_or_ge (len - 1) places with hrefused | hroom
  · exact iff_of_true (writesText_of_refused hnum hlow hlen.2 hrefused)
      fun hroom => absurd hroom (not_le.mpr hrefused)
  rw [imp_iff_right hroom]
  rcases eq_or_lt_of_le hnum.1 with rfl | hmin
  · -- the text has twenty characters, so that the byte behind it is in a buffer of more
    rw [writesText_integerMin_iff hlow hlen.2 hroom, imp_iff_right rfl]
    refine (and_iff_right_of_imp fun hzero => ?_).symm
    have hlt := (List.getElem?_eq_some_iff.mp hzero).1
    have htext : (text integerMin).length = 20 := by decide
    omega
  · rw [writesText_iff_of_ne hmin hnum.2 hlow hlen.2 hroom, hbytes, and_iff_left fun h => by omega]
    omega

/-! ## A sample -/

theorem writesText_iff_forty_two :
    WritesText 42 2 3 [7, 7, 7] ↔ integerMin < 3 ∧
      ((2 : ℤ) ≤ 3 - 1 → (text 42).length < (3 : ℤ) ∧
        (42 = integerMin → ([7, 7, 7] : List UInt8)[20]? = some 0)) :=
  writesText_iff 42 2 3 [7, 7, 7] (by decide) (by decide) rfl

/-- With the number of places of `INTEGER_MAX`, `INTEGER_MIN` is written without a zero. -/
theorem not_writesText_integerMin :
    ¬∀ (num places len : ℤ) (bytes : List UInt8), integerMin ≤ num ∧ num ≤ integerMax →
      integerMin ≤ len ∧ len ≤ integerMax → bytes.length = len.toNat →
        WritesText num places len bytes := by
  intro hall
  have hwrites := hall integerMin 19 20 (List.replicate 20 7) (by decide) (by decide) rfl
  have hzero := (writesText_integerMin_iff (by decide) (by decide) (by decide)).mp hwrites
  exact absurd hzero (by decide)

end Hixo.Common
