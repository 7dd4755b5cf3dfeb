import Hixo.AdvString.Itostr

/-!
# The number that `strtoi` reads

`strtoi` multiplies by ten and adds the next digit, without a look at the range of `intptr_t`, and
it takes a minus sign without digits for zero. So it is right about every text whose leading digits
denote a number up to `INTEGER_MAX`, the lone sign apart, and wrong about all others, also about
the text of `INTEGER_MIN`.

* `readDigits_append`, `readDigits_overflow`: the loop, while the digits fit and when they do not;
* `strtoi_append`: a numeral that fits is read;
* `Parses`, `parses_iff`: the texts about which `strtoi` is right.
-/

namespace Hixo.AdvString

open ByteBlock Decimal

variable {n i : ℤ} {v : ℕ} {b : UInt8} {bs ds pre post : List UInt8}

/-! ## The loop -/

theorem not_separator (hb : isDigit b = true) :
    ¬(b > '9'.toNat.toUInt8 ∨ b < '0'.toNat.toUInt8) := by
  simp only [isDigit, Bool.and_eq_true, decide_eq_true_eq] at hb
  rintro (hhigh | hlow)
  · exact absurd hb.2 (UInt8.not_le.mpr hhigh)
  · exact absurd hb.1 (UInt8.not_le.mpr hlow)

theorem separator (hb : isDigit b = false) : b > '9'.toNat.toUInt8 ∨ b < '0'.toNat.toUInt8 := by
  by_contra hnot
  rw [not_or, gt_iff_lt, UInt8.not_lt, UInt8.not_lt] at hnot
  have hdigit : isDigit b = true := by
    simp only [isDigit, Bool.and_eq_true, decide_eq_true_eq]
    exact ⟨hnot.2, hnot.1⟩
  rw [hb] at hdigit
  cases hdigit

/-- What a pass of the loop does at a digit. -/
theorem readDigits_digit (hb : isDigit b = true) (hi : i = pre.length) (hn : i < n) :
    readDigits (some (pre ++ b :: post)) n i v = (do
      let value ← intptr ((v : ℤ) * 10)
      let value ← intptr (value + (b.toNat - '0'.toNat : ℤ))
      let _ ← int (i + 1)
      readDigits (some (pre ++ b :: post)) n (i + 1) value) := by
  rw [readDigits, if_pos hn, Programs.bind_of_eq_ok (load_append _ _ hi),
    if_neg (not_separator hb)]

/-- A digit makes the value ten times as large and adds itself. -/
theorem mul_ten_add (hb : isDigit b = true) :
    (v : ℤ) * 10 + (b.toNat - '0'.toNat : ℤ) = (10 * v + (b.toNat - 48) : ℕ) := by
  simp only [isDigit, Bool.and_eq_true, decide_eq_true_eq, UInt8.le_iff_toNat_le] at hb
  have hlow : 48 ≤ b.toNat := hb.1
  have hzero : ('0'.toNat : ℤ) = 48 := rfl
  omega

/-- A digit that fits is read, and the loop goes on behind it. -/
theorem readDigits_step (hb : isDigit b = true) (hi : i = pre.length) (hn : i < n)
    (hfits : ((10 * v + (b.toNat - 48) : ℕ) : ℤ) ≤ integerMax) (hint : i < intMax) :
    readDigits (some (pre ++ b :: post)) n i v =
      readDigits (some (pre ++ b :: post)) n (i + 1) (10 * v + (b.toNat - 48) : ℕ) := by
  -- neither the product nor the sum leaves the range
  have hmul : intptr ((v : ℤ) * 10) = .ok ((v : ℤ) * 10) := by
    refine intptr_of_mem ?_ ?_ <;> simp only [integerMin, integerMax] at * <;> omega
  have hadd : intptr ((v : ℤ) * 10 + (b.toNat - '0'.toNat : ℤ)) =
      .ok ((10 * v + (b.toNat - 48) : ℕ) : ℤ) := by
    rw [mul_ten_add hb]
    refine intptr_of_mem ?_ hfits
    simp only [integerMin]
    omega
  -- the place stays an `int`
  have hnext : int (i + 1) = .ok (i + 1) := by
    refine if_pos ⟨?_, ?_⟩ <;> simp only [intMax] at * <;> omega
  rw [readDigits_digit hb hi hn, Programs.bind_of_eq_ok hmul, Programs.bind_of_eq_ok hadd,
    Programs.bind_of_eq_ok hnext]

/-- A digit that does not fit is a fault, and so is one too many for an `int`. -/
theorem readDigits_fault (hb : isDigit b = true) (hi : i = pre.length) (hn : i < n)
    (hlarge : integerMax < ((10 * v + (b.toNat - 48) : ℕ) : ℤ) ∨ intMax ≤ i) :
    readDigits (some (pre ++ b :: post)) n i v = .error .overflow := by
  rw [readDigits_digit hb hi hn]
  -- the first of the three operations that leaves its range is the fault
  by_cases hmul : intptr ((v : ℤ) * 10) = .ok ((v : ℤ) * 10)
  · rw [Programs.bind_of_eq_ok hmul, mul_ten_add hb]
    by_cases hadd : ((10 * v + (b.toNat - 48) : ℕ) : ℤ) ≤ integerMax
    · have hint : int (i + 1) = .error .overflow :=
        if_neg fun hmem => by
          have hle := hlarge.resolve_left (not_lt.mpr hadd)
          omega
      have hok : intptr ((10 * v + (b.toNat - 48) : ℕ) : ℤ) =
          .ok ((10 * v + (b.toNat - 48) : ℕ) : ℤ) := by
        refine intptr_of_mem ?_ hadd
        simp only [integerMin]
        omega
      rw [Programs.bind_of_eq_ok hok, hint]
      rfl
    · have hfault : intptr ((10 * v + (b.toNat - 48) : ℕ) : ℤ) = .error .overflow :=
        if_neg fun hmem => hadd hmem.2
      rw [hfault]
      rfl
  · have hfault : intptr ((v : ℤ) * 10) = .error .overflow :=
      if_neg fun hmem => hmul (if_pos hmem)
    rw [hfault]
    rfl

/-- Digits that fit are read, and the loop goes on behind them. -/
theorem readDigits_append (pre post : List UInt8) (hds : ∀ b ∈ ds, isDigit b = true)
    (hi : i = pre.length) (hn : i + ds.length ≤ n) (hfits : (valueFrom v ds : ℤ) ≤ integerMax)
    (hint : i + ds.length ≤ intMax) :
    readDigits (some (pre ++ (ds ++ post))) n i v =
      readDigits (some (pre ++ (ds ++ post))) n (i + ds.length) (valueFrom v ds) := by
  induction ds generalizing pre i v with
  | nil => simp [valueFrom]
  | cons b ds ih =>
    -- the digits are read one by one; `pre` is what lies behind
    rw [List.length_cons] at hn hint
    have hle := le_valueFrom (10 * v + (b.toNat - 48)) ds
    have hval := valueFrom_cons v b ds
    have hone : readDigits (some (pre ++ b :: (ds ++ post))) n i v =
        readDigits (some (pre ++ b :: (ds ++ post))) n (i + 1) (10 * v + (b.toNat - 48) : ℕ) :=
      readDigits_step (hds b List.mem_cons_self) hi (by omega) (by omega) (by omega)
    have hrest := ih (pre ++ [b]) (fun b hb => hds b (List.mem_cons_of_mem _ hb))
      (show i + 1 = (pre ++ [b]).length by simp [hi]) (by omega) hfits (by omega)
    simp only [List.append_assoc, List.singleton_append] at hrest
    rw [List.cons_append, hone, hrest, valueFrom_cons, List.length_cons]
    congr 1
    omega

/-- Digits whose value or whose count does not fit are a fault. -/
theorem readDigits_overflow (pre post : List UInt8) (hds : ∀ b ∈ ds, isDigit b = true)
    (hi : i = pre.length) (hn : i + ds.length ≤ n) (hv : (v : ℤ) ≤ integerMax)
    (hlarge : integerMax < (valueFrom v ds : ℤ) ∨ intMax < i + ds.length)
    (hint : i ≤ intMax) :
    readDigits (some (pre ++ (ds ++ post))) n i v = .error .overflow := by
  induction ds generalizing pre i v with
  | nil =>
    simp only [valueFrom, List.foldl_nil, List.length_nil] at hlarge
    omega
  | cons b ds ih =>
    have hb := hds b List.mem_cons_self
    rw [List.length_cons] at hn hlarge
    rw [List.cons_append]
    -- the induction stops at the digit that is too much
    by_cases hfault : integerMax < ((10 * v + (b.toNat - 48) : ℕ) : ℤ) ∨ intMax ≤ i
    · exact readDigits_fault hb hi (by omega) hfault
    · rw [not_or, not_lt, not_le] at hfault
      have hrest := ih (pre ++ [b]) (fun b hb => hds b (List.mem_cons_of_mem _ hb))
        (show i + 1 = (pre ++ [b]).length by simp [hi]) (by omega) hfault.1
        (by rw [valueFrom_cons] at hlarge; omega) (by omega)
      simp only [List.append_assoc, List.singleton_append] at hrest
      rw [readDigits_step hb hi (by omega) hfault.1 hfault.2, hrest]

/-! ## The call -/

section

variable {m : List UInt8} {w : ℤ} (hm : minus (m ++ (ds ++ post)) = m)

include hm

/-- What `strtoi` does with a text of at least one byte. -/
theorem strtoi_eq (hn : 1 ≤ n) (hne : m ++ (ds ++ post) ≠ []) :
    strtoi (some (m ++ (ds ++ post))) n (some w) = (do
      let (rslt, number) ← readDigits (some (m ++ (ds ++ post))) n m.length 0
      if rslt = 0 then do
        let number ← if m ≠ [] then intptr (0 - number) else .ok number
        .ok (rslt, some number)
      else .ok (rslt, some w)) := by
  obtain ⟨c, rest, hbytes⟩ := List.exists_cons_of_ne_nil hne
  rw [hbytes] at hm ⊢
  have hvalid : ¬(some (c :: rest) = none ∨ some w = none ∨ n < 1) := by
    simp only [reduceCtorEq, false_or]
    omega
  have hload : load (some (c :: rest)) 0 = .ok c := load_append [] rest rfl
  rw [strtoi, if_neg hvalid, Programs.bind_of_eq_ok hload]
  -- the loop starts behind the sign
  by_cases hc : c = 45
  · have hsign : m = [45] := by rw [← hm, minus, hc, List.head?_cons, if_pos rfl]
    have hstart : c = '-'.toNat.toUInt8 := hc
    rw [hsign, if_pos hstart]
    rfl
  · have hsign : m = [] := by
      rw [← hm, minus, List.head?_cons, if_neg fun heq => hc (Option.some.inj heq)]
    have hstart : c ≠ '-'.toNat.toUInt8 := hc
    rw [hsign, if_neg hstart]
    rfl

variable (hds : ∀ b ∈ ds, isDigit b = true)

include hds

/-- A sign and digits that fit are read to the end. -/
theorem strtoi_append (hn : n = m.length + ds.length) (hpos : 1 ≤ n)
    (hfits : (valueFrom 0 ds : ℤ) ≤ integerMax) (hint : n ≤ intMax) :
    strtoi (some (m ++ (ds ++ post))) n (some w) =
      .ok (0, some (if m = [] then (valueFrom 0 ds : ℤ) else -valueFrom 0 ds)) := by
  have hne : m ++ (ds ++ post) ≠ [] := by
    intro hnil
    obtain ⟨rfl, hrest⟩ := List.append_eq_nil_iff.mp hnil
    obtain ⟨rfl, -⟩ := List.append_eq_nil_iff.mp hrest
    simp only [List.length_nil] at hn
    omega
  -- the loop runs through the digits to the end of the text
  have hrun := readDigits_append (v := 0) m post hds rfl (le_of_eq hn.symm) hfits
    (hn ▸ hint)
  have hend : readDigits (some (m ++ (ds ++ post))) n (m.length + ds.length) (valueFrom 0 ds) =
      .ok (0, (valueFrom 0 ds : ℤ)) := by
    rw [readDigits, if_neg (by omega)]
  rw [hend, Int.natCast_zero] at hrun
  rw [strtoi_eq hm hpos hne, Programs.bind_of_eq_ok hrun]
  by_cases hsign : m = []
  · simp [hsign, bind, Except.bind]
  · -- a value up to `INTEGER_MAX` has a negation
    have hneg : intptr (0 - (valueFrom 0 ds : ℤ)) = .ok (-(valueFrom 0 ds : ℤ)) := by
      rw [zero_sub]
      refine intptr_of_mem ?_ ?_ <;> simp only [integerMin, integerMax] at * <;> omega
    simp only [if_pos, ne_eq, hsign, not_false_eq_true, hneg]
    rfl

/-- Another byte behind digits that fit ends the call, and the number stays. -/
theorem strtoi_separator (hb : isDigit b = false) (hpost : post.head? = some b)
    (hn : m.length + ds.length < n) (hfits : (valueFrom 0 ds : ℤ) ≤ integerMax)
    (hint : ((m.length + ds.length : ℕ) : ℤ) ≤ intMax) :
    strtoi (some (m ++ (ds ++ post))) n (some w) = .ok (-1, some w) := by
  obtain ⟨rest, rfl⟩ := List.head?_eq_some_iff.mp hpost
  -- the loop stops at the byte behind the digits
  have hrun := readDigits_append (v := 0) m (b :: rest) hds rfl (le_of_lt hn) hfits
    (by rwa [← Int.natCast_add])
  have hplace : (m.length : ℤ) + ds.length = (m ++ ds).length := by
    rw [List.length_append, Int.natCast_add]
  have hload : load (some (m ++ (ds ++ b :: rest))) (m.length + ds.length) = .ok b := by
    rw [← List.append_assoc]
    exact load_append _ _ hplace
  have hend : readDigits (some (m ++ (ds ++ b :: rest))) n (m.length + ds.length)
      (valueFrom 0 ds) = .ok (-1, (valueFrom 0 ds : ℤ)) := by
    rw [readDigits, if_pos hn, Programs.bind_of_eq_ok hload, if_pos (separator hb)]
  rw [hend, Int.natCast_zero] at hrun
  rw [strtoi_eq hm (by omega) (by simp), Programs.bind_of_eq_ok hrun]
  rfl

/-- Digits that do not fit are a fault, whatever comes behind them. -/
theorem strtoi_overflow (hn : m.length + ds.length ≤ n) (hpos : 1 ≤ n)
    (hlarge : integerMax < (valueFrom 0 ds : ℤ) ∨ intMax < ((m.length + ds.length : ℕ) : ℤ)) :
    strtoi (some (m ++ (ds ++ post))) n (some w) = .error .overflow := by
  -- the sign has at most one byte, so that the place is an `int` when the loop starts
  have hsign : m.length ≤ 1 := by
    rw [← hm, minus]
    split <;> simp
  have hne : m ++ (ds ++ post) ≠ [] := by
    intro hnil
    obtain ⟨rfl, hrest⟩ := List.append_eq_nil_iff.mp hnil
    obtain ⟨rfl, -⟩ := List.append_eq_nil_iff.mp hrest
    exact absurd hlarge (by decide)
  have hrun := readDigits_overflow (v := 0) m post hds rfl hn (by decide)
    (by rwa [← Int.natCast_add]) (by simp only [intMax]; omega)
  rw [Int.natCast_zero] at hrun
  rw [strtoi_eq hm hpos hne, hrun]
  rfl

end

/-! ## The promise -/

/-- `strtoi` on a text of these bytes: the result is 0 and the number is the one denoted if the text
is a numeral in the range of `intptr_t`; otherwise the result is -1 and the number stays `w`. -/
def Parses (bytes : List UInt8) (w : ℤ) : Prop :=
  ∃ rslt v, strtoi (some bytes) bytes.length (some w) = .ok (rslt, some v) ∧
    (rslt = 0 ∧ Numeral bytes v ∧ integerMin ≤ v ∧ v ≤ integerMax ∨
      rslt = -1 ∧ v = w ∧ ¬∃ u, Numeral bytes u ∧ integerMin ≤ u ∧ u ≤ integerMax)

/-- The digits with which a text begins, behind its sign. -/
def leadingDigits (bytes : List UInt8) : List UInt8 := (unsigned bytes).takeWhile isDigit

/-- The text is no lone sign, its leading digits denote a number up to `INTEGER_MAX`, and an `int`
counts them. -/
def Readable (bytes : List UInt8) : Prop :=
  bytes ≠ [45] ∧ (valueFrom 0 (leadingDigits bytes) : ℤ) ≤ integerMax ∧
    (((minus bytes).length + (leadingDigits bytes).length : ℕ) : ℤ) ≤ intMax

/-- A text is its sign, its leading digits and the rest, which begins with another byte. -/
theorem exists_eq_append (bytes : List UInt8) : ∃ post,
    bytes = minus bytes ++ (leadingDigits bytes ++ post) ∧
      unsigned bytes = leadingDigits bytes ++ post ∧
      (∀ b ∈ leadingDigits bytes, isDigit b = true) ∧
      ∀ b, post.head? = some b → isDigit b = false := by
  have hsplit := List.takeWhile_append_dropWhile (p := isDigit) (l := unsigned bytes)
  refine ⟨(unsigned bytes).dropWhile isDigit, ?_, hsplit.symm, fun b hb => ?_, fun b hb => ?_⟩
  · rw [leadingDigits, hsplit, minus_append_unsigned]
  · exact List.all_eq_true.mp List.all_takeWhile b hb
  · have hhead := List.head?_dropWhile_not isDigit (unsigned bytes)
    rw [hb] at hhead
    exact hhead

/-- A lone sign is no numeral, but `strtoi` takes it for one. -/
theorem not_parses_minus (w : ℤ) : ¬Parses [45] w := by
  rintro ⟨rslt, v, hrun, hpromise⟩
  have hzero : strtoi (some [45]) 1 (some w) = .ok (0, some 0) :=
    strtoi_append (m := [45]) (show minus ([45] ++ ([] ++ [])) = [45] from rfl) (by simp) rfl le_rfl
      (by decide) (by decide)
  obtain ⟨rfl, -⟩ := Prod.mk.inj (Except.ok.inj (hzero.symm.trans hrun))
  rcases hpromise with ⟨-, hnumeral, -⟩ | ⟨hfail, -⟩
  · exact (numeral_iff.mp hnumeral).1 rfl
  · exact absurd hfail (by decide)

/-- The text of a number is read if the digits fit. -/
theorem parses_of_digits {bytes : List UInt8} {w : ℤ} (hne : unsigned bytes ≠ [])
    (hdigits : ∀ b ∈ unsigned bytes, isDigit b = true)
    (hfits : (valueFrom 0 (unsigned bytes) : ℤ) ≤ integerMax)
    (hint : (bytes.length : ℤ) ≤ intMax) : Parses bytes w := by
  have hsplit := minus_append_unsigned bytes
  have hlen : bytes.length = (minus bytes).length + (unsigned bytes).length := by
    rw [← List.length_append, hsplit]
  have hpos : 0 < (unsigned bytes).length := List.length_pos_iff.mpr hne
  have hsign : minus (minus bytes ++ (unsigned bytes ++ [])) = minus bytes := by
    rw [List.append_nil, hsplit]
  have hrun := strtoi_append (w := w) hsign hdigits (by rw [hlen, Int.natCast_add]) (by omega) hfits
    hint
  rw [List.append_nil, hsplit] at hrun
  -- the number is in the range, with either sign
  refine ⟨0, _, hrun, Or.inl ⟨rfl, numeral_iff.mpr ⟨hne, hdigits, rfl⟩, ?_⟩⟩
  split <;> simp only [integerMin, integerMax] at * <;> omega

/-- A text with another byte behind its leading digits is refused if they fit. -/
theorem parses_of_separator {bytes post : List UInt8} {w : ℤ}
    (hsplit : bytes = minus bytes ++ (leadingDigits bytes ++ b :: post))
    (hunsigned : unsigned bytes = leadingDigits bytes ++ b :: post)
    (hdigits : ∀ b ∈ leadingDigits bytes, isDigit b = true) (hb : isDigit b = false)
    (hfits : (valueFrom 0 (leadingDigits bytes) : ℤ) ≤ integerMax)
    (hint : (((minus bytes).length + (leadingDigits bytes).length : ℕ) : ℤ) ≤ intMax) :
    Parses bytes w := by
  have hlen := congrArg List.length hsplit
  simp only [List.length_append, List.length_cons] at hlen
  have hrun := strtoi_separator (n := bytes.length) (w := w) (congrArg minus hsplit.symm) hdigits hb
    rfl
    (by omega) hfits hint
  rw [← hsplit] at hrun
  refine ⟨-1, w, hrun, Or.inr ⟨rfl, rfl, ?_⟩⟩
  -- a numeral has no other byte in it
  rintro ⟨u, hnumeral, -⟩
  have hall := (numeral_iff.mp hnumeral).2.1 b (hunsigned ▸ by simp)
  rw [hb] at hall
  cases hall

/-- `strtoi` is right about a text of at least one byte if and only if the text is readable. -/
theorem parses_iff (bytes : List UInt8) (w : ℤ) (hne : bytes ≠ []) :
    Parses bytes w ↔ Readable bytes := by
  obtain ⟨post, hsplit, hunsigned, hdigits, hpost⟩ := exists_eq_append bytes
  have hlen := congrArg List.length hsplit
  rw [List.length_append, List.length_append] at hlen
  have hpos : 0 < bytes.length := List.length_pos_iff.mpr hne
  constructor
  · intro hparses
    refine ⟨fun hminus => not_parses_minus w (hminus ▸ hparses), ?_⟩
    -- digits that do not fit end the call without a result
    by_contra hlarge
    obtain ⟨rslt, v, hrun, -⟩ := hparses
    rw [not_and_or, not_le, not_le] at hlarge
    have hfault := strtoi_overflow (n := bytes.length) (w := w) (congrArg minus hsplit.symm) hdigits
      (by omega) (by omega) hlarge
    rw [← hsplit, hrun] at hfault
    cases hfault
  · rintro ⟨hminus, hfits, hint⟩
    cases post with
    | nil =>
      rw [List.append_nil] at hsplit hunsigned
      have hdigits' : unsigned bytes ≠ [] := by
        intro hnil
        have hsign := minus_append_unsigned bytes
        rw [hnil, List.append_nil, minus] at hsign
        split at hsign
        · exact hminus hsign.symm
        · exact hne hsign.symm
      refine parses_of_digits hdigits' (hunsigned ▸ hdigits) (hunsigned ▸ hfits) ?_
      rwa [hlen, List.length_nil, Nat.add_zero]
    | cons b post =>
      exact parses_of_separator hsplit hunsigned hdigits (hpost b rfl) hfits hint

/-! ## A sample -/

theorem parses_iff_forty_two : Parses [52, 50] 7 ↔ Readable [52, 50] :=
  parses_iff [52, 50] 7 (by decide)

/-- A lone sign is read as zero. -/
theorem not_parses_lone_sign :
    ¬∀ (bytes : List UInt8) (w : ℤ), bytes ≠ [] → Parses bytes w :=
  fun hall => not_parses_minus 7 (hall [45] 7 (by decide))

end Hixo.AdvString
