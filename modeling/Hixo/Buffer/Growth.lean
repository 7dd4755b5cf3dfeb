import Hixo.Buffer.Defs

/-!
# Growing a buffer

`hixo_expand_buffer` replaces the block of a buffer by a new one of twice the size, and gives the
old block back without copying what is in it.

* `firstBytes`: the bytes in use;
* `Grows`, `grows_iff_expandable`: when an expansion keeps them;
* `Step`, `Step.run`: appending to a buffer, and expanding it;
* `KeepsAll`, `growing_iff`: when the buffer holds all that was appended to it.
-/

namespace Hixo.Buffer

open AdvString ByteBlock

variable {α : Type} {allocated : Bool} {buf buf' : HixoBuffer α} {bytes held : List UInt8}

/-- A buffer of positive capacity, with no more bytes in use than it has. -/
structure Valid (buf : HixoBuffer α) : Prop where
  capacity_pos : 0 < hixoBufferGetCapacity buf
  size_nonneg : 0 ≤ hixoBufferGetSize buf
  size_le : hixoBufferGetSize buf ≤ hixoBufferGetCapacity buf
  /-- The block, unless there is none, has the size that the buffer says. -/
  length_data : ∀ bytes, hixoBufferGetData buf = some bytes →
    bytes.length = hixoBufferGetCapacity buf

/-- The bytes in use, the first `m_size` of the block; `none` when there is no block for them. -/
def firstBytes (buf : HixoBuffer α) : Option (List UInt8) :=
  if hixoBufferGetSize buf = 0 then some []
  else (hixoBufferGetData buf).map fun bytes => bytes.take (hixoBufferGetSize buf).toNat

/-- What is promised of `hixo_expand_buffer`: the capacity is doubled, and all else is kept. -/
def Grows (allocated : Bool) (buf : HixoBuffer α) : Prop :=
  ∃ buf' bytes, hixoExpandBuffer allocated buf = .ok buf' ∧
    buf'.size = buf.size ∧ buf'.offset = buf.offset ∧ buf'.node = buf.node ∧
    hixoBufferGetCapacity buf' = 2 * hixoBufferGetCapacity buf ∧
    firstBytes buf = some bytes ∧ firstBytes buf' = some bytes

/-- The double of the capacity is an `ssize_t`, the bytes in use are zeros, and there are none if
the allocation fails. -/
def Expandable (allocated : Bool) (buf : HixoBuffer α) : Prop :=
  2 * hixoBufferGetCapacity buf ≤ integerMax ∧
    ∃ n, firstBytes buf = some (List.replicate n 0) ∧ (allocated = true ∨ n = 0)

/-! ## The bytes in use -/

/-- A new buffer is valid, and holds nothing. -/
theorem hixoCreateBuffer_spec {self : α} {capacity : ℤ} (hdata : hixoBufferGetData buf = none)
    (hpos : 0 < capacity) :
    ∃ buf', hixoCreateBuffer allocated self buf capacity = .ok (true, buf') ∧ Valid buf' ∧
      firstBytes buf' = some [] := by
  -- with a positive capacity, the outcome of `calloc` decides only whether there is a block
  have hcreate : hixoCreateBuffer allocated self buf capacity =
      .ok (true, ⟨0, 0, ⟨self, self⟩, ⟨calloc allocated capacity, capacity⟩⟩) := by
    rw [hixoBufferGetData] at hdata
    rw [hixoCreateBuffer, if_neg (not_not.mpr hdata), if_neg (by omega), if_pos hpos,
      hixoCreateByteArray, if_pos hpos]
  refine ⟨_, hcreate, ⟨hpos, Int.le_refl 0, ?_, fun bytes => length_calloc ?_⟩, rfl⟩
  · exact Int.le_of_lt hpos
  · exact Int.le_of_lt hpos

/-- The bytes in use are the first ones of the block. -/
theorem firstBytes_of_data {rest : List UInt8} (hdata : hixoBufferGetData buf = some (held ++ rest))
    (hsize : hixoBufferGetSize buf = held.length) : firstBytes buf = some held := by
  rw [firstBytes, hdata, hsize]
  split
  · rename_i hzero
    rw [List.length_eq_zero_iff.mp (Int.natCast_eq_zero.mp hzero)]
  · simp

/-- A block begins with the bytes in use. -/
theorem Valid.exists_rest (hvalid : Valid buf) (hheld : firstBytes buf = some held)
    (hdata : hixoBufferGetData buf = some bytes) :
    hixoBufferGetSize buf = held.length ∧ ∃ rest, bytes = held ++ rest := by
  have hsize := hvalid.size_nonneg
  have hle := hvalid.size_le
  have hlength := hvalid.length_data bytes hdata
  -- the two cases of `firstBytes`: no byte is in use, or the first ones of the block are
  rw [firstBytes, hdata] at hheld
  split at hheld
  · obtain rfl := Option.some.inj hheld
    exact ⟨by simpa, bytes, rfl⟩
  · obtain rfl := Option.some.inj hheld
    refine ⟨?_, bytes.drop (hixoBufferGetSize buf).toNat, (List.take_append_drop _ _).symm⟩
    rw [List.length_take]
    omega

/-- `hixo_buffer_get_size` gives the number of the bytes in use. -/
theorem Valid.size_eq (hvalid : Valid buf) (hheld : firstBytes buf = some held) :
    hixoBufferGetSize buf = held.length := by
  cases hdata : hixoBufferGetData buf with
  | some bytes => exact (hvalid.exists_rest hheld hdata).1
  | none =>
    rw [firstBytes, hdata] at hheld
    split at hheld
    · obtain rfl := Option.some.inj hheld
      simpa
    · cases hheld

/-! ## Expanding -/

/-- An expansion puts a new block in the place of the old one. -/
theorem hixoExpandBuffer_eq (hvalid : Valid buf) :
    hixoExpandBuffer allocated buf =
      if 2 * hixoBufferGetCapacity buf ≤ integerMax then
        .ok { buf with
          byteArray := ⟨calloc allocated (2 * hixoBufferGetCapacity buf),
            2 * hixoBufferGetCapacity buf⟩ }
      else .error (.block .overflow) := by
  have hpos := hvalid.capacity_pos
  rw [hixoBufferGetCapacity] at hpos ⊢
  have hmin : integerMin ≤ 2 * buf.byteArray.capacity := by
    rw [integerMin]
    omega
  rw [hixoExpandBuffer, intptr]
  -- the bound decides whether `data_size` overflows; when it does not, the assertion holds
  by_cases hle : 2 * buf.byteArray.capacity ≤ integerMax
  · have htwo : 2 * buf.byteArray.capacity > 0 := by omega
    rw [if_pos ⟨hmin, hle⟩, if_pos hle, Except.mapError, Programs.bind_of_eq_ok rfl, if_pos htwo,
      hixoCreateByteArray, if_pos htwo]
    rfl
  · rw [if_neg (fun h => hle h.2), if_neg hle]
    rfl

/-- Of an expansion, the bytes in use are zeros. -/
theorem firstBytes_expanded (hvalid : Valid buf)
    (hexpand : hixoExpandBuffer allocated buf = .ok buf') :
    firstBytes buf' = some held ↔
      held = List.replicate (hixoBufferGetSize buf).toNat 0 ∧ (allocated = true ∨ held = []) := by
  have hnonneg := hvalid.size_nonneg
  have hle := hvalid.size_le
  rw [hixoExpandBuffer_eq hvalid] at hexpand
  split at hexpand
  · obtain rfl := Except.ok.inj hexpand
    have hsize : ∀ array, hixoBufferGetSize { buf with byteArray := array } =
        hixoBufferGetSize buf := fun _ => rfl
    -- the bytes are read from the new block, and the size is the old one
    rw [firstBytes, hsize, hixoBufferGetData, calloc]
    by_cases hzero : hixoBufferGetSize buf = 0
    · rw [if_pos hzero, hzero]
      simp only [Int.toNat_zero, List.replicate_zero, Option.some.injEq, eq_comm (a := held)]
      exact ⟨fun h => ⟨h, .inr h⟩, And.left⟩
    · -- the new block is longer than what is in use
      have hmin : min (hixoBufferGetSize buf).toNat (2 * hixoBufferGetCapacity buf).toNat =
          (hixoBufferGetSize buf).toNat := by omega
      rw [if_neg hzero]
      cases allocated with
      | true => simp [hmin, eq_comm]
      -- without a block, there is nothing to read
      | false =>
        simp only [Bool.false_eq_true, if_false, Option.map_none, false_or, reduceCtorEq,
          false_iff, not_and]
        rintro rfl
        simp
        omega
  · cases hexpand

/-- An expansion that kept the bytes in use had nothing to lose. -/
theorem expandable_of_kept (hvalid : Valid buf)
    (hexpand : hixoExpandBuffer allocated buf = .ok buf') (hbefore : firstBytes buf = some held)
    (hafter : firstBytes buf' = some held) : Expandable allocated buf := by
  obtain ⟨rfl, hall⟩ := (firstBytes_expanded hvalid hexpand).mp hafter
  rw [List.replicate_eq_nil_iff] at hall
  refine ⟨?_, _, hbefore, hall⟩
  by_contra hlarge
  rw [hixoExpandBuffer_eq hvalid, if_neg hlarge] at hexpand
  cases hexpand

/-- An expansion keeps the bytes in use if and only if it has nothing to lose. -/
theorem grows_iff_expandable (hvalid : Valid buf) :
    Grows allocated buf ↔ Expandable allocated buf := by
  constructor
  · rintro ⟨buf', bytes, hexpand, -, -, -, -, hbefore, hafter⟩
    exact expandable_of_kept hvalid hexpand hbefore hafter
  · -- `n` zeros are in use before, and the same number of zeros after
    rintro ⟨hle, n, hbefore, hall⟩
    have hexpand : hixoExpandBuffer allocated buf = _ :=
      (hixoExpandBuffer_eq hvalid).trans (if_pos hle)
    refine ⟨_, _, hexpand, rfl, rfl, rfl, rfl, hbefore,
      (firstBytes_expanded hvalid hexpand).mpr ⟨?_, by rwa [List.replicate_eq_nil_iff]⟩⟩
    have hsize := hvalid.size_eq hbefore
    rw [List.length_replicate] at hsize
    rw [hsize, Int.toNat_natCast]

/-! ## Appending -/

/-- Copy bytes behind those in use, and count them. -/
def append (buf : HixoBuffer α) (bytes : List UInt8) : Except Fault (HixoBuffer α) := do
  let data ← (storeAll (hixoBufferGetData buf) (hixoBufferGetSize buf) bytes).mapError
    .block
  .ok (hixoBufferSetSize { buf with byteArray := { buf.byteArray with data } }
    (hixoBufferGetSize buf + bytes.length))

/-- What a user does with a buffer that is to take bytes. -/
inductive Step where
  /-- Append bytes, as many as there is room for. A longer write is several of these. -/
  | append (bytes : List UInt8)
  /-- Expand the buffer. -/
  | expand (allocated : Bool)

/-- The effect of a step. -/
def Step.run (buf : HixoBuffer α) : Step → Except Fault (HixoBuffer α)
  | .append bytes => Buffer.append buf bytes
  | .expand allocated => hixoExpandBuffer allocated buf

/-- The bytes that a step appends. -/
def Step.appended : Step → List UInt8
  | .append bytes => bytes
  | .expand _ => []

/-- Bytes are appended when there is room for them, and the buffer is expanded when it is full. -/
def Step.Allowed (buf : HixoBuffer α) : Step → Prop
  | .append bytes => hixoBufferGetSize buf + bytes.length ≤ hixoBufferGetCapacity buf
  | .expand _ => hixoBufferFull buf = true

/-- There is a block to append to, and an expansion loses nothing. -/
def Step.Safe (buf : HixoBuffer α) : Step → Prop
  | .append bytes => bytes = [] ∨ hixoBufferGetData buf ≠ none
  | .expand allocated => Expandable allocated buf

/-- Every step is allowed in the state before it. -/
def Legal : HixoBuffer α → List Step → Prop
  | _, [] => True
  | buf, s :: steps => s.Allowed buf ∧ ∀ buf', s.run buf = .ok buf' → Legal buf' steps

/-- Every step is safe in the state before it. -/
def AllSafe : HixoBuffer α → List Step → Prop
  | _, [] => True
  | buf, s :: steps => s.Safe buf ∧ ∀ buf', s.run buf = .ok buf' → AllSafe buf' steps

/-- In every state of the run, the buffer holds the bytes `held` and those appended so far. -/
def KeepsAll (held : List UInt8) : HixoBuffer α → List Step → Prop
  | buf, [] => firstBytes buf = some held
  | buf, s :: steps => firstBytes buf = some held ∧
      ∃ buf', s.run buf = .ok buf' ∧ KeepsAll (held ++ s.appended) buf' steps

/-- A size that is not negative is stored as it is. -/
theorem hixoBufferSetSize_of_nonneg {size : ℤ} (hsize : 0 ≤ size) :
    hixoBufferSetSize buf size = { buf with size } := by
  rw [hixoBufferSetSize]
  split
  · rfl
  · rw [show size = 0 by omega]

/-- Bytes that fit are written behind those in use. -/
theorem append_eq {rest : List UInt8} (hvalid : Valid buf)
    (hdata : hixoBufferGetData buf = some (held ++ rest))
    (hsize : hixoBufferGetSize buf = held.length) (hroom : Step.Allowed buf (.append bytes)) :
    append buf bytes = .ok { buf with
      size := (held ++ bytes).length
      byteArray.data := some (held ++ (bytes ++ rest.drop bytes.length)) } := by
  have hlength := hvalid.length_data _ hdata
  rw [Step.Allowed] at hroom
  rw [List.length_append] at hlength
  -- the bytes that are overwritten
  have hold : (rest.take bytes.length).length = bytes.length := by
    rw [List.length_take]
    omega
  have hstore := storeAll_append held (rest.drop bytes.length) hsize hold
  rw [List.take_append_drop, ← hdata] at hstore
  rw [append, hstore, Except.mapError, Programs.bind_of_eq_ok rfl,
    hixoBufferSetSize_of_nonneg (by omega), hsize, List.length_append, Int.natCast_add]

/-- A buffer that bytes were appended to is valid and holds them. -/
theorem append_spec (hvalid : Valid buf) (hheld : firstBytes buf = some held)
    (hroom : Step.Allowed buf (.append bytes)) (hsafe : Step.Safe buf (.append bytes)) :
    ∃ buf', append buf bytes = .ok buf' ∧ Valid buf' ∧ firstBytes buf' = some (held ++ bytes) := by
  have hsize := hvalid.size_eq hheld
  cases hdata : hixoBufferGetData buf with
  | none =>
    obtain rfl : bytes = [] := hsafe.resolve_right (absurd hdata)
    -- nothing is written, so that no block is needed
    refine ⟨buf, ?_, hvalid, by rwa [List.append_nil]⟩
    rw [append, hdata, storeAll, Except.mapError, Programs.bind_of_eq_ok rfl,
      hixoBufferSetSize_of_nonneg (by simpa using hvalid.size_nonneg), ← hdata]
    simp [hixoBufferGetData, hixoBufferGetSize]
  | some block =>
    obtain ⟨-, rest, rfl⟩ := hvalid.exists_rest hheld hdata
    have hlength := hvalid.length_data _ hdata
    have hpos := hvalid.capacity_pos
    -- the block is as long as before, with the bytes in the place of others
    refine ⟨_, append_eq hvalid hdata hsize hroom, ⟨hpos, Int.natCast_nonneg _, ?_, ?_⟩, ?_⟩
    · rw [Step.Allowed, hsize, ← Int.natCast_add, ← List.length_append] at hroom
      exact hroom
    · rintro _ ⟨⟩
      rw [Step.Allowed] at hroom
      simp only [List.length_append, List.length_drop, hixoBufferGetCapacity] at hlength hroom ⊢
      omega
    · exact firstBytes_of_data (by rw [hixoBufferGetData, List.append_assoc]) rfl

/-- Without a block, bytes cannot be appended. -/
theorem append_of_none (hdata : hixoBufferGetData buf = none) (hbytes : bytes ≠ []) :
    ∃ fault, append buf bytes = .error fault := by
  obtain ⟨b, bs, rfl⟩ := List.exists_cons_of_ne_nil hbytes
  rw [append, hdata]
  exact ⟨_, rfl⟩

/-- `hixo_expand_buffer` leaves a valid buffer. -/
theorem valid_expanded (hvalid : Valid buf) (hexpand : hixoExpandBuffer allocated buf = .ok buf') :
    Valid buf' := by
  have hpos := hvalid.capacity_pos
  have hle := hvalid.size_le
  rw [hixoExpandBuffer_eq hvalid] at hexpand
  split at hexpand
  · obtain rfl := Except.ok.inj hexpand
    have hlarge : (0 : ℤ) < 2 * hixoBufferGetCapacity buf := by omega
    refine ⟨hlarge, hvalid.size_nonneg, ?_, fun bytes hbytes => ?_⟩
    · show hixoBufferGetSize buf ≤ 2 * hixoBufferGetCapacity buf
      omega
    · exact length_calloc (Int.le_of_lt hlarge) hbytes
  · cases hexpand

/-! ## Runs -/

variable {s : Step} {steps : List Step}

/-- A step that is allowed and safe keeps the bytes and appends its own. -/
theorem Step.run_spec (hvalid : Valid buf) (hheld : firstBytes buf = some held)
    (hallowed : s.Allowed buf) (hsafe : s.Safe buf) :
    ∃ buf', s.run buf = .ok buf' ∧ Valid buf' ∧ firstBytes buf' = some (held ++ s.appended) := by
  cases s with
  | append bytes => exact append_spec hvalid hheld hallowed hsafe
  | expand allocated =>
    obtain ⟨buf', bytes, hexpand, -, -, -, -, hbefore, hafter⟩ :=
      (grows_iff_expandable hvalid).mpr hsafe
    obtain rfl : held = bytes := Option.some.inj (hheld.symm.trans hbefore)
    exact ⟨buf', hexpand, valid_expanded hvalid hexpand, by rwa [appended, List.append_nil]⟩

/-- A step that keeps the bytes was safe. -/
theorem Step.safe_of_run (hvalid : Valid buf) (hheld : firstBytes buf = some held)
    (hrun : s.run buf = .ok buf') (hafter : firstBytes buf' = some (held ++ s.appended)) :
    s.Safe buf := by
  cases s with
  | append bytes =>
    by_contra hunsafe
    -- the first of the bytes is stored to `NULL`
    obtain ⟨hbytes, hdata⟩ := not_or.mp hunsafe
    obtain ⟨fault, herror⟩ := append_of_none (not_not.mp hdata) hbytes
    rw [Step.run, herror] at hrun
    cases hrun
  | expand allocated =>
    rw [appended, List.append_nil] at hafter
    exact expandable_of_kept hvalid hrun hheld hafter

/-- In the first state of a run that keeps the bytes, they are there. -/
theorem KeepsAll.firstBytes_eq (hkeeps : KeepsAll held buf steps) : firstBytes buf = some held := by
  cases steps with
  | nil => exact hkeeps
  | cons s steps => exact hkeeps.1

/-- A run keeps all bytes if and only if its steps are safe. -/
theorem keepsAll_iff (hvalid : Valid buf) (hheld : firstBytes buf = some held)
    (hlegal : Legal buf steps) : KeepsAll held buf steps ↔ AllSafe buf steps := by
  induction steps generalizing buf held with
  | nil => exact iff_of_true hheld trivial
  | cons s steps ih =>
    constructor
    · -- the step kept the bytes, so that it was safe and the run goes on from a valid buffer
      rintro ⟨-, buf', hrun, hkeeps⟩
      have hsafe := Step.safe_of_run hvalid hheld hrun hkeeps.firstBytes_eq
      refine ⟨hsafe, fun buf'' hrun' => ?_⟩
      obtain ⟨_, hrun'', hvalid', hheld'⟩ := Step.run_spec hvalid hheld hlegal.1 hsafe
      obtain rfl := Except.ok.inj (hrun.symm.trans hrun')
      obtain rfl := Except.ok.inj (hrun.symm.trans hrun'')
      exact (ih hvalid' hheld' (hlegal.2 buf' hrun)).mp hkeeps
    · rintro ⟨hsafe, hsafe'⟩
      obtain ⟨buf', hrun, hvalid', hheld'⟩ := Step.run_spec hvalid hheld hlegal.1 hsafe
      exact ⟨hheld, buf', hrun, (ih hvalid' hheld' (hlegal.2 buf' hrun)).mpr (hsafe' buf' hrun)⟩

/-- An expansion doubles the capacity and keeps the rest, and a run of appends and expansions keeps
all bytes, exactly when there is nothing to lose at any expansion. -/
theorem growing_iff (hvalid : Valid buf) :
    (∀ allocated, Grows allocated buf ↔ Expandable allocated buf) ∧
      ∀ held steps, firstBytes buf = some held → Legal buf steps →
        (KeepsAll held buf steps ↔ AllSafe buf steps) :=
  ⟨fun _ => grows_iff_expandable hvalid, fun _ _ => keepsAll_iff hvalid⟩

/-- The case of a buffer of two bytes that takes two zeros, is expanded, and takes another byte. -/
theorem growing_iff_zeros :
    KeepsAll [] (⟨0, 0, ⟨0, 0⟩, ⟨some [0, 0], 2⟩⟩ : HixoBuffer ℕ)
      [.append [0, 0], .expand true, .append [7]] := by
  refine ((growing_iff ⟨by decide, by decide, by decide, ?_⟩).2 [] _ rfl ?_).mpr ?_
  · rintro _ ⟨⟩
    rfl
  · -- the run is legal: the bytes fit, and the buffer is full when it is expanded
    refine ⟨by unfold Step.Allowed; decide, ?_⟩
    rintro _ ⟨⟩
    refine ⟨by unfold Step.Allowed; decide, ?_⟩
    rintro _ ⟨⟩
    exact ⟨by unfold Step.Allowed; decide, fun _ _ => trivial⟩
  · -- and safe: there are only zeros at the expansion
    refine ⟨.inr nofun, ?_⟩
    rintro _ ⟨⟩
    refine ⟨⟨by decide, 2, rfl, .inl rfl⟩, ?_⟩
    rintro _ ⟨⟩
    exact ⟨.inr nofun, fun _ _ => trivial⟩

/-- An expansion of a buffer with one byte that is not zero loses it. -/
theorem not_grows_one_byte :
    Valid (⟨0, 1, ⟨0, 0⟩, ⟨some [1], 1⟩⟩ : HixoBuffer ℕ) ∧
      ¬ Grows true (⟨0, 1, ⟨0, 0⟩, ⟨some [1], 1⟩⟩ : HixoBuffer ℕ) := by
  refine ⟨⟨by decide, by decide, by decide, ?_⟩, ?_⟩
  · rintro _ ⟨⟩
    rfl
  · rintro ⟨_, _, ⟨⟩, -, -, -, -, ⟨⟩, hafter⟩
    exact absurd hafter (by decide)

end Hixo.Buffer
