import Hixo.Foundation.Programs
import Mathlib.Data.Int.Notation
import Mathlib.Data.List.Induction

/-!
# Blocks of bytes

A pointer to characters points to a block of bytes, or nowhere. An access outside the block is a
fault, and so is a result of signed arithmetic outside its range.

* `ByteBlock.calloc`: a new block;
* `ByteBlock.load`, `ByteBlock.store`: one byte of the block, with the rules `load_append` and
  `store_append` for a block that is split at the byte;
* `ByteBlock.storeAll`: several bytes, one after the other; `storeAll_append` says what it leaves,
  and `storeAll_overrun` that it does not write beyond the end;
* `ByteBlock.reverseRange`: the bytes from one place to another are reversed, by exchanging the
  outermost two and going on between them; `reverseRange_append` says what it leaves.
-/

/-- What a pointer to characters points to: the bytes of a block, `none` for `NULL`. -/
abbrev ByteBlock := Option (List UInt8)

namespace ByteBlock

/-- Ways in which a program on blocks has no defined result. -/
inductive Fault where
  /-- There is no byte at this place. -/
  | overrun (i : ℤ)
  /-- The result of signed arithmetic is out of range. -/
  | overflow
  deriving DecidableEq

/-- `calloc(1, size)`: a block of zeros, if the allocation succeeds. -/
def calloc (allocated : Bool) (size : ℤ) : ByteBlock :=
  if allocated then some (List.replicate size.toNat 0) else none

/-- The byte at place `i`. -/
def load (p : ByteBlock) (i : ℤ) : Except Fault UInt8 :=
  match p with
  | none => .error (.overrun i)
  | some bytes =>
    if i < 0 then .error (.overrun i)
    else match bytes[i.toNat]? with
      | none => .error (.overrun i)
      | some b => .ok b

/-- Write the byte at place `i`. -/
def store (p : ByteBlock) (i : ℤ) (b : UInt8) : Except Fault ByteBlock :=
  match p with
  | none => .error (.overrun i)
  | some bytes =>
    if 0 ≤ i ∧ i < bytes.length then .ok (some (bytes.set i.toNat b))
    else .error (.overrun i)

/-- Write the bytes from place `i` on. -/
def storeAll (p : ByteBlock) (i : ℤ) : List UInt8 → Except Fault ByteBlock
  | [] => .ok p
  | b :: bs => do
    let p ← store p i b
    storeAll p (i + 1) bs

/-- Reverse the bytes from place `i` to place `j`. -/
def reverseRange (p : ByteBlock) (i j : ℤ) : Except Fault ByteBlock :=
  if i < j then do
    let tmp ← load p i
    let b ← load p j
    let p ← store p i b
    let p ← store p j tmp
    reverseRange p (i + 1) (j - 1)
  else .ok p
termination_by (j - i).toNat

/-! ## Allocation -/

/-- A new block is as large as it was asked for. -/
theorem length_calloc {allocated : Bool} {bytes : List UInt8} {size : ℤ} (hsize : 0 ≤ size)
    (hblock : calloc allocated size = some bytes) : bytes.length = size := by
  cases allocated with
  | false => cases hblock
  | true =>
    obtain rfl := Option.some.inj hblock
    rw [List.length_replicate, Int.toNat_of_nonneg hsize]

/-! ## One byte -/

variable {b b' : UInt8} {i : ℤ}

/-- A load from a block that is split at the byte. -/
theorem load_append (pre post : List UInt8) (hi : i = pre.length) :
    load (some (pre ++ b :: post)) i = .ok b := by
  subst hi
  rw [load, if_neg (by omega), Int.toNat_natCast, List.getElem?_append_right (Nat.le_refl _),
    Nat.sub_self]
  rfl

/-- A store into a block that is split at the byte. -/
theorem store_append (pre post : List UInt8) (hi : i = pre.length) :
    store (some (pre ++ b :: post)) i b' = .ok (some (pre ++ b' :: post)) := by
  subst hi
  have hlt : (pre.length : ℤ) < (pre ++ b :: post).length := by
    rw [List.length_append, List.length_cons]
    omega
  rw [store, if_pos ⟨Int.natCast_nonneg _, hlt⟩, Int.toNat_natCast,
    List.set_append_right _ _ (Nat.le_refl _), Nat.sub_self, List.set_cons_zero]

/-- A load inside a block gives its byte. -/
theorem load_of_lt {bytes : List UInt8} {n : ℕ} (hn : n < bytes.length) :
    load (some bytes) n = .ok (bytes.getD n 0) := by
  rw [load, if_neg (by omega), Int.toNat_natCast, List.getD_eq_getElem?_getD,
    List.getElem?_eq_getElem hn, Option.getD_some]

/-- A store inside a block replaces its byte. -/
theorem store_of_lt {bytes : List UInt8} {n : ℕ} (hn : n < bytes.length) :
    store (some bytes) n b = .ok (some (bytes.set n b)) := by
  rw [store, if_pos ⟨Int.natCast_nonneg _, by omega⟩, Int.toNat_natCast]

/-- A store behind the end of a block is a fault. -/
theorem store_of_length_le {bytes : List UInt8} (hi : bytes.length ≤ i) :
    store (some bytes) i b = .error (.overrun i) := by
  rw [store, if_neg (by omega)]

/-! ## Several bytes -/

variable {bytes old bs cs : List UInt8}

theorem storeAll_cons {p p' : ByteBlock} (h : store p i b = .ok p') :
    storeAll p i (b :: bs) = storeAll p' (i + 1) bs := Programs.bind_of_eq_ok h

/-- Bytes can be stored in two parts. -/
theorem storeAll_bind {p : ByteBlock} :
    storeAll p i (bs ++ cs) = storeAll p i bs >>= fun p => storeAll p (i + bs.length) cs := by
  induction bs generalizing p i with
  | nil => simp [storeAll, bind, Except.bind]
  | cons b bs ih =>
    rw [List.cons_append, storeAll, storeAll, List.length_cons]
    cases hstore : store p i b with
    | error fault => rfl
    | ok p' =>
      have hlen : i + 1 + (bs.length : ℤ) = i + (bs.length + 1 : ℕ) := by omega
      rw [Programs.bind_of_eq_ok rfl, Programs.bind_of_eq_ok rfl, ih, hlen]

/-- Bytes that are stored replace as many of the block. -/
theorem storeAll_append (pre post : List UInt8) (hi : i = pre.length)
    (hold : old.length = bs.length) :
    storeAll (some (pre ++ (old ++ post))) i bs = .ok (some (pre ++ (bs ++ post))) := by
  induction bs generalizing pre old i with
  | nil =>
    obtain rfl := List.length_eq_zero_iff.mp hold
    rfl
  | cons b bs ih =>
    obtain ⟨c, old, rfl⟩ := List.exists_of_length_succ _ hold
    have hrest := ih (pre ++ [b]) (show i + 1 = (pre ++ [b]).length by simp [hi])
      (Nat.succ.inj hold)
    simp only [List.append_assoc, List.singleton_append] at hrest
    rw [List.cons_append, storeAll_cons (store_append _ _ hi), hrest, List.cons_append]

/-- Bytes that reach beyond the end are a fault. -/
theorem storeAll_overrun (hi : 0 ≤ i) (hle : i ≤ bytes.length)
    (hlong : bytes.length < i + bs.length) :
    ∃ fault, storeAll (some bytes) i bs = .error fault := by
  induction bs generalizing bytes i with
  | nil =>
    rw [List.length_nil] at hlong
    omega
  | cons b bs ih =>
    rw [List.length_cons] at hlong
    by_cases hend : bytes.length ≤ i
    · exact ⟨_, by rw [storeAll, store_of_length_le hend]; rfl⟩
    · have hstore : store (some bytes) i b = .ok (some (bytes.set i.toNat b)) :=
        if_pos ⟨hi, Int.not_le.mp hend⟩
      rw [storeAll_cons hstore]
      exact ih (by omega) (by rw [List.length_set]; omega) (by rw [List.length_set]; omega)

/-! ## Reversing -/

/-- Nothing is exchanged when at most one byte is there. -/
theorem reverseRange_of_le {p : ByteBlock} {j : ℤ} (h : j ≤ i) : reverseRange p i j = .ok p := by
  rw [reverseRange, if_neg (Int.not_lt.mpr h)]

/-- Turning a range round exchanges its first and last byte, and goes on between them. -/
theorem reverseRange_exchange (pre mid post : List UInt8) {j : ℤ} (hi : i = pre.length)
    (hj : j = (b :: (pre ++ mid)).length) :
    reverseRange (some (pre ++ b :: (mid ++ b' :: post))) i j =
      reverseRange (some ((pre ++ [b']) ++ (mid ++ b :: post))) (i + 1) (j - 1) := by
  have hlt : i < j := by
    rw [hi, hj, List.length_cons, List.length_append]
    omega
  -- the block, split at the byte at `j`, before and after the store at `i`
  have hsplit : ∀ c : UInt8, pre ++ c :: (mid ++ b' :: post) = (pre ++ c :: mid) ++ b' :: post :=
    fun c => by rw [List.append_assoc, List.cons_append]
  have hlen : ∀ c : UInt8, j = (pre ++ c :: mid).length := fun c => by
    rw [hj, List.length_cons, List.length_append, List.length_append, List.length_cons]
    omega
  rw [reverseRange, if_pos hlt, Programs.bind_of_eq_ok (load_append _ _ hi), hsplit b,
    Programs.bind_of_eq_ok (load_append _ _ (hlen b)), ← hsplit b,
    Programs.bind_of_eq_ok (store_append _ _ hi), hsplit b',
    Programs.bind_of_eq_ok (store_append _ _ (hlen b'))]
  simp

/-- The bytes between the two places are reversed, and the others stay. -/
theorem reverseRange_append (pre mid post : List UInt8) {j : ℤ} (hi : i = pre.length)
    (hj : j = (pre ++ mid).length - 1) :
    reverseRange (some (pre ++ (mid ++ post))) i j =
      .ok (some (pre ++ (mid.reverse ++ post))) := by
  -- induction from both ends, as the loop takes one byte from each
  induction mid using List.bidirectionalRec generalizing pre post i j with
  | nil =>
    rw [List.append_nil] at hj
    exact reverseRange_of_le (by omega)
  | singleton b =>
    rw [List.length_append, List.length_singleton] at hj
    exact reverseRange_of_le (by omega)
  | cons_append b mid b' ih =>
    simp only [List.length_append, List.length_cons, List.length_nil] at hj
    have hinner := ih (pre ++ [b']) (b :: post)
      (show i + 1 = ((pre ++ [b']).length : ℤ) by
        rw [List.length_append, List.length_singleton, hi]
        omega)
      (show j - 1 = ((pre ++ [b'] ++ mid).length : ℤ) - 1 by
        simp only [List.length_append, List.length_singleton]
        omega)
    rw [List.cons_append, List.append_assoc, List.singleton_append,
      reverseRange_exchange _ _ _ hi (by rw [List.length_cons, List.length_append]; omega), hinner]
    simp

end ByteBlock
