import Hixo.AdvString.Defs

/-!
# The helpers of `common.h` for integers

`common.h` has a second way to write an integer as text: `count_places` counts the characters of
the text by a binary search, and `wtoa` writes it. As in `adv_string.c`, arithmetic out of range is
a fault, and so is an access outside a table or a buffer.

* `absValue`: the absolute value, -1 for `INTEGER_MIN`;
* `countPlaces`: the number of characters, with its loop `searchPlaces`;
* `wtoa`: the text, with its loop `wtoaDigits` and the reversal `strReverse`.
-/

namespace Hixo.Common

open ByteBlock AdvString

/-- `abs_value` -/
def absValue (num : ℤ) : Except Fault ℤ :=
  if integerMin = num then .ok (-1)
  else if num > 0 then .ok num
  else intptr (-num)

/-! ## Counting places -/

/-- The table `places_max` of `count_places`. -/
def placesMax : List ℤ :=
  [9, 99, 999, 9999, 99999, 999999, 9999999, 99999999, 999999999, 9999999999, 99999999999,
    999999999999, 9999999999999, 99999999999999, 999999999999999, 9999999999999999,
    99999999999999999, 999999999999999999]

/-- `places_max[i]` -/
def placesMaxAt (i : ℤ) : Except Fault ℤ :=
  if i < 0 then .error (.overrun i)
  else match placesMax[i.toNat]? with
    | none => .error (.overrun i)
    | some max => .ok max

/-- The loop of `count_places` (`stop` is `end` in the source). -/
def searchPlaces (positive rslt start stop : ℤ) : Except Fault ℤ :=
  if start < stop then do
    let middle := start + (stop - start).tdiv 2
    let _ ← intptr (stop - start)
    let _ ← intptr middle
    let max ← placesMaxAt middle
    if positive ≤ max then do
      let rslt ← intptr (middle + 1)
      searchPlaces positive rslt start middle
    else do
      let rslt ← intptr (middle + 2)
      let _ ← intptr (middle + 1)
      searchPlaces positive rslt (middle + 1) stop
  else .ok rslt
termination_by (stop - start).toNat
decreasing_by
  all_goals
    simp only [Int.tdiv_eq_ediv_of_nonneg (show 0 ≤ stop - start by omega)]
    omega

/-- `count_places` -/
def countPlaces (num : ℤ) : Except Fault ℤ := do
  let positive ←
    if integerMin = num then do
      let next ← intptr (num + 1)
      absValue next
    else absValue num
  let rslt ← searchPlaces positive 0 0 placesMax.length
  if num < 0 then intptr (rslt + 1) else .ok rslt

/-! ## Writing the text -/

/-- `__str_reverse__`: the places are an `int`, to which `len - 1` is converted. -/
def strReverse (str : ByteBlock) (len : ℤ) : Except Fault ByteBlock := do
  let last ← intptr (len - 1)
  reverseRange str 0 (last.bmod 4294967296)

/-- `strncpy`: at most `n` bytes of the text, filled up with zeros. -/
def strncpy (dest : ByteBlock) (src : List UInt8) (n : ℕ) : Except Fault ByteBlock :=
  storeAll dest 0 (src.take n ++ List.replicate (n - src.length) 0)

/-- `STR_INTEGER_MIN`, without the zero at its end. -/
def strIntegerMin : List UInt8 := "-9223372036854775808".toList.map fun c => c.toNat.toUInt8

/-- The loop of `wtoa` (`stop` is `end` in the source). -/
def wtoaDigits (value stop : ℤ) (buf : ByteBlock) : Except Fault (ℤ × ByteBlock) :=
  if value > 0 then do
    let next := value.tdiv 10
    let buf ← store buf stop (UInt8.ofInt (value - next * 10 + '0'.toNat))
    wtoaDigits next (stop + 1) buf
  else .ok (stop, buf)
termination_by value.toNat
decreasing_by
  rw [Int.tdiv_eq_ediv_of_nonneg (by omega)]
  omega

/-- `wtoa`: whether the result is `buf`, and not `NULL`, and what is in the buffer. -/
def wtoa (num places : ℤ) (buf : ByteBlock) (len : ℤ) : Except Fault (Bool × ByteBlock) := do
  let value ← absValue num
  let room ← intptr (len - 1)
  if places > room then .ok (false, buf)
  else if integerMin = num then do
    let buf ← strncpy buf strIntegerMin strIntegerMin.length
    .ok (true, buf)
  else if value = 0 then do
    let buf ← store buf 0 '0'.toNat.toUInt8
    let buf ← store buf 1 0
    .ok (true, buf)
  else do
    let (stop, buf) ← wtoaDigits value 0 buf
    let (stop, buf) ←
      if num < 0 then do
        let buf ← store buf stop '-'.toNat.toUInt8
        .ok (stop + 1, buf)
      else .ok (stop, buf)
    let buf ← strReverse buf stop
    let buf ← store buf stop 0
    .ok (true, buf)

end Hixo.Common
