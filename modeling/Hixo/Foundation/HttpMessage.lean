import Mathlib.Data.List.Basic

/-!
# Messages with a head and a body

A message is a sequence of bytes: the lines of its head, each ended by CR LF, an empty line, and
the body. The line `Content-Length: n` says how long the body is, in decimal digits.

* `writeHead`, `readHead`: the bytes of a head, and what a receiver makes of a message;
* `readHead_writeHead`: a head is read back with its lines, and what follows it is the body;
* `contentLength`: the length that a head announces;
* `readDecimal_toDigits`: a number is read back from its digits;
* `carries_writeHead`: a message that announces the length of its body carries this body.
-/

namespace HttpMessage

/-- The bytes of an ASCII text. -/
def octets (text : List Char) : List UInt8 := text.map fun c => c.toNat.toUInt8

/-- The bytes of a head with these lines. -/
def writeHead : List (List UInt8) → List UInt8
  | [] => [13, 10]
  | line :: lines => line ++ 13 :: 10 :: writeHead lines

/-- Read the lines of a head up to the empty line; `line` is the part of the current line that was
already read. The rest of the message is its body. -/
def readHead (line : List UInt8) : List UInt8 → Option (List (List UInt8) × List UInt8)
  | 13 :: 10 :: rest =>
    if line = [] then some ([], rest)
    else (readHead [] rest).map fun (lines, body) => (line :: lines, body)
  | b :: rest => readHead (line ++ [b]) rest
  | [] => none

/-- Read a number in decimal digits. -/
def readDecimal (digits : List UInt8) : Option ℕ :=
  if digits ≠ [] ∧ digits.all fun b => decide (48 ≤ b ∧ b ≤ 57) then
    some (digits.foldl (fun n b => 10 * n + (b.toNat - 48)) 0)
  else none

/-- The field that announces the length of the body. -/
def lengthField : List UInt8 := octets "Content-Length: ".toList

/-- The length of the body that a head announces. -/
def contentLength (lines : List (List UInt8)) : Option ℕ :=
  lines.findSome? fun line =>
    if lengthField <+: line then readDecimal (line.drop lengthField.length) else none

/-- A receiver of the message gets this body, and the head announces its length. -/
def Carries (message body : List UInt8) : Prop :=
  ∃ lines, readHead [] message = some (lines, body) ∧ contentLength lines = some body.length

/-- The bytes of a text are those of its two parts. -/
theorem octets_append {text text' : List Char} :
    octets (text ++ text') = octets text ++ octets text' := List.map_append

/-! ## The head -/

/-- A head in two parts has the lines of the first part, and then the second part as a head. -/
theorem writeHead_append {lines lines' : List (List UInt8)} :
    writeHead (lines ++ lines') = lines.flatMap (· ++ [13, 10]) ++ writeHead lines' := by
  induction lines with
  | nil => rfl
  | cons line lines ih => simp [writeHead, ih]

/-- A byte that is not CR belongs to the current line. -/
theorem readHead_cons {line rest : List UInt8} {b : UInt8} (hb : b ≠ 13) :
    readHead line (b :: rest) = readHead (line ++ [b]) rest := by
  rw [readHead]
  rintro rest' rfl
  exact absurd rfl hb

/-- Bytes without CR belong to the current line. -/
theorem readHead_append {line bs rest : List UInt8} (hbs : 13 ∉ bs) :
    readHead line (bs ++ rest) = readHead (line ++ bs) rest := by
  induction bs generalizing line with
  | nil => simp
  | cons b bs ih =>
    simp only [List.mem_cons, not_or] at hbs
    rw [List.cons_append, readHead_cons (Ne.symm hbs.1), ih hbs.2, List.append_assoc,
      List.singleton_append]

/-- A head is read back with its lines, and what follows it is the body. -/
theorem readHead_writeHead {lines : List (List UInt8)} {body : List UInt8}
    (hlines : ∀ line ∈ lines, line ≠ [] ∧ 13 ∉ line) :
    readHead [] (writeHead lines ++ body) = some (lines, body) := by
  induction lines with
  | nil => rfl
  | cons line lines ih =>
    obtain ⟨hne, hcr⟩ := hlines line List.mem_cons_self
    have hrest := ih fun l hl => hlines l (List.mem_cons_of_mem _ hl)
    rw [writeHead, List.append_assoc, readHead_append hcr, List.nil_append, List.cons_append,
      List.cons_append, readHead, if_neg hne, hrest]
    rfl

/-! ## Numbers -/

/-- The byte of a decimal digit is its code, between those of 0 and 9. -/
theorem toNat_digit {c : Char} (hc : c.isDigit) :
    (c.toNat.toUInt8).toNat = c.toNat ∧ 48 ≤ c.toNat ∧ c.toNat ≤ 57 := by
  have hrange : 48 ≤ c.toNat ∧ c.toNat ≤ 57 := by
    simp only [Char.isDigit, ge_iff_le, Bool.and_eq_true, decide_eq_true_eq] at hc
    exact hc
  refine ⟨?_, hrange⟩
  simp only [Nat.toUInt8, UInt8.toNat_ofNat']
  omega

/-- The bytes of digits are decimal digits. -/
theorem digit_of_mem_octets {digits : List Char} (hdigits : ∀ c ∈ digits, c.isDigit) {b : UInt8}
    (hb : b ∈ octets digits) : 48 ≤ b ∧ b ≤ 57 := by
  obtain ⟨c, hc, rfl⟩ := List.mem_map.mp hb
  obtain ⟨hval, hlow, hhigh⟩ := toNat_digit (hdigits c hc)
  simp only [UInt8.le_iff_toNat_le, hval]
  exact ⟨hlow, hhigh⟩

/-- The value of digits does not depend on whether they are taken as bytes or as characters. -/
theorem foldl_octets {digits : List Char} (hdigits : ∀ c ∈ digits, c.isDigit) (n : ℕ) :
    (octets digits).foldl (fun n b => 10 * n + (b.toNat - 48)) n =
      Nat.ofDigitChars 10 digits n := by
  induction digits generalizing n with
  | nil => simp [octets]
  | cons c digits ih =>
    have hval := (toNat_digit (hdigits c List.mem_cons_self)).1
    have hrest := ih (fun d hd => hdigits d (List.mem_cons_of_mem _ hd)) (10 * n + (c.toNat - 48))
    simp only [octets, List.map_cons, List.foldl_cons, hval] at hrest ⊢
    rw [hrest, Nat.ofDigitChars_cons]
    rfl

/-- A number is read back from its digits. -/
theorem readDecimal_toDigits (n : ℕ) : readDecimal (octets (Nat.toDigits 10 n)) = some n := by
  have hdigits : ∀ c ∈ Nat.toDigits 10 n, c.isDigit := fun c hc =>
    Nat.isDigit_of_mem_toDigits (by decide) (by decide) hc
  have hne : octets (Nat.toDigits 10 n) ≠ [] := by
    simp [octets, Nat.toDigits_ne_nil]
  have hall : (octets (Nat.toDigits 10 n)).all fun b => decide (48 ≤ b ∧ b ≤ 57) :=
    List.all_eq_true.mpr fun b hb => decide_eq_true (digit_of_mem_octets hdigits hb)
  rw [readDecimal, if_pos ⟨hne, hall⟩, foldl_octets hdigits,
    Nat.ofDigitChars_toDigits (by decide) (by decide)]

/-! ## Messages -/

/-- The line that announces a length is no empty line, and it has no CR. -/
theorem lengthLine_valid (n : ℕ) :
    lengthField ++ octets (Nat.toDigits 10 n) ≠ [] ∧
      13 ∉ lengthField ++ octets (Nat.toDigits 10 n) := by
  have hfield : lengthField ≠ [] ∧ 13 ∉ lengthField := by decide
  refine ⟨List.append_ne_nil_of_left_ne_nil hfield.1 _, fun hmem => ?_⟩
  rcases List.mem_append.mp hmem with hmem | hmem
  · exact hfield.2 hmem
  · have hdigit := digit_of_mem_octets (fun c hc =>
      Nat.isDigit_of_mem_toDigits (by decide) (by decide) hc) hmem
    exact absurd hdigit.1 (by decide)

/-- A head announces the length of its first line that does. -/
theorem contentLength_eq {lines lines' : List (List UInt8)}
    (hlines : ∀ line ∈ lines, ¬lengthField <+: line) (n : ℕ) :
    contentLength (lines ++ (lengthField ++ octets (Nat.toDigits 10 n)) :: lines') = some n := by
  have hnone : lines.findSome? (fun line =>
      if lengthField <+: line then readDecimal (line.drop lengthField.length) else none) = none :=
    List.findSome?_eq_none_iff.mpr fun line hline => if_neg (hlines line hline)
  rw [contentLength, List.findSome?_append, hnone, Option.none_or, List.findSome?_cons,
    if_pos (List.prefix_append ..), List.drop_left, readDecimal_toDigits]

/-- A message that announces the length of its body carries this body. -/
theorem carries_writeHead {lines lines' : List (List UInt8)} {body : List UInt8}
    (hvalid : ∀ line ∈ lines ++ lines', line ≠ [] ∧ 13 ∉ line)
    (hlines : ∀ line ∈ lines, ¬lengthField <+: line) :
    Carries (writeHead (lines ++ (lengthField ++ octets (Nat.toDigits 10 body.length)) :: lines') ++
      body) body := by
  refine ⟨_, readHead_writeHead fun line hline => ?_, contentLength_eq hlines _⟩
  rcases List.mem_append.mp hline with hline | hline
  · exact hvalid line (List.mem_append_left _ hline)
  rcases List.mem_cons.mp hline with rfl | hline
  · exact lengthLine_valid _
  · exact hvalid line (List.mem_append_right _ hline)

/-- What a message carries is determined by its bytes. -/
theorem Carries.unique {message body body' : List UInt8} (h : Carries message body)
    (h' : Carries message body') : body = body' := by
  obtain ⟨lines, hread, -⟩ := h
  obtain ⟨lines', hread', -⟩ := h'
  exact (Prod.mk.inj (Option.some.inj (hread.symm.trans hread'))).2

/-- A message has at least the end of its head. -/
theorem Carries.ne_nil {message body : List UInt8} (h : Carries message body) : message ≠ [] := by
  rintro rfl
  obtain ⟨lines, hread, -⟩ := h
  cases hread

end HttpMessage
