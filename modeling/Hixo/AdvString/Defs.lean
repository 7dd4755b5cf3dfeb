import Hixo.Foundation.ByteBlock

/-!
# Numbers as text

`adv_string.c`: integers are written as decimal text into a buffer of the caller, and read back
from it. The model is that of a machine with 64 bits; arithmetic that leaves the range of
`intptr_t` is a fault, and so is an access outside the buffer.

* `integerMin`, `integerMax`, `intptr`: the range of `intptr_t`;
* `strreverse`: the reversal of a part of the buffer;
* `itostr`: the text of an integer, with its loop `writeDigits`;
* `strtoi`: the integer of a text, with its loop `readDigits`.
-/

namespace Hixo.AdvString

open ByteBlock

/-- `INTEGER_MAX` -/
def integerMax : ℤ := 9223372036854775807

/-- `INTEGER_MIN` -/
def integerMin : ℤ := -9223372036854775808

/-- A result of arithmetic on `intptr_t`, or on `ssize_t`. -/
def intptr (value : ℤ) : Except Fault ℤ :=
  if integerMin ≤ value ∧ value ≤ integerMax then .ok value else .error .overflow

/-- `strreverse` -/
def strreverse (p : ByteBlock) (start stop : ℤ) : Except Fault (ℤ × ByteBlock) :=
  if p = none ∨ start < 0 ∨ stop < 0 then .ok (-1, p)
  else if start > stop then .ok (-1, p)
  else if start < stop then do
    let p ← reverseRange p start (stop - 1)
    .ok (0, p)
  else .ok (0, p)

/-- The sign that `itostr` writes: what is left of the number, `start`, and the buffer. -/
def writeSign (num : ℤ) (p : ByteBlock) : Except Fault (ℤ × ℤ × ByteBlock) :=
  if num < 0 then do
    let p ← store p 0 '-'.toNat.toUInt8
    let num ← intptr (-num)
    .ok (num, 1, p)
  else .ok (num, 0, p)

/-- The loop of `itostr`, from the place `stop` on (`end` in the source). The quotient and the
remainder are those of C, which round toward zero. -/
def writeDigits (num n stop : ℤ) (p : ByteBlock) : Except Fault (ℤ × ByteBlock) :=
  if num = 0 then .ok (stop, p)
  else if n - 1 = 0 then .ok (stop, p)
  else do
    let x := num.tmod 10
    let p ← store p stop (UInt8.ofInt ('0'.toNat + x))
    writeDigits (num.tdiv 10) (n - 1) (stop + 1) p
termination_by num.natAbs
decreasing_by
  rw [Int.natAbs_tdiv]
  exact Nat.div_lt_self (Int.natAbs_pos.mpr ‹_›) (by decide)

/-- `itostr` -/
def itostr (num : ℤ) (p : ByteBlock) (n : ℤ) : Except Fault (ℤ × ByteBlock) :=
  if p = none then .ok (-1, p)
  else do
    let room ← intptr (n - 1)
    if room < 1 then .ok (-1, p)
    else if num = 0 then do
      let p ← store p 0 '0'.toNat.toUInt8
      let p ← store p 1 0
      .ok (0, p)
    else do
      let (num, start, p) ← writeSign num p
      let (stop, p) ← writeDigits num n start p
      let (_, p) ← strreverse p start stop
      let p ← store p stop 0
      .ok (0, p)

/-- The greatest value of an `int`. -/
def intMax : ℤ := 2147483647

/-- A result of arithmetic on `int`. -/
def int (value : ℤ) : Except Fault ℤ :=
  if -intMax - 1 ≤ value ∧ value ≤ intMax then .ok value else .error .overflow

/-- The loop of `strtoi` from the place `i` on, which is an `int`: `rslt` and `value`. -/
def readDigits (p : ByteBlock) (n i value : ℤ) : Except Fault (ℤ × ℤ) :=
  if i < n then do
    let c ← load p i
    if c > '9'.toNat.toUInt8 ∨ c < '0'.toNat.toUInt8 then .ok (-1, value)
    else do
      let value ← intptr (value * 10)
      let value ← intptr (value + (c.toNat - '0'.toNat : ℤ))
      let _ ← int (i + 1)
      readDigits p n (i + 1) value
  else .ok (0, value)
termination_by (n - i).toNat

/-- `strtoi`; `value` is what `p_value` points to, `none` for `NULL`. -/
def strtoi (p : ByteBlock) (n : ℤ) (value : Option ℤ) : Except Fault (ℤ × Option ℤ) :=
  if p = none ∨ value = none ∨ n < 1 then .ok (-1, value)
  else do
    let c ← load p 0
    let start : ℤ := if c = '-'.toNat.toUInt8 then 1 else 0
    let (rslt, number) ← readDigits p n start 0
    if rslt = 0 then do
      let number ← if start ≠ 0 then intptr (0 - number) else .ok number
      .ok (rslt, some number)
    else .ok (rslt, value)

end Hixo.AdvString
