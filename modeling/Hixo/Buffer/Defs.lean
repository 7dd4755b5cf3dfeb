import Hixo.AdvString.Defs

/-!
# Byte arrays and buffers

`buffer.c` and `buffer.h`: a buffer is an array of bytes on the heap with the number of bytes that
are in use. Whether `calloc` succeeds is a parameter of each operation that calls it.

* `hixoCreateByteArray`, `hixoByteArrayTransfer`, `hixoDestroyByteArray`: the array;
* `hixoCreateBuffer`, `hixoExpandBuffer`, `hixoDestroyBuffer`: the buffer;
* `hixoBufferGetData`, `hixoBufferFull`, `hixoBufferGetSize`, `hixoBufferGetCapacity`,
  `hixoBufferSetSize`: what its users see of it.
-/

namespace Hixo.Buffer

open AdvString

/-- Ways in which an operation on buffers has no defined result. -/
inductive Fault where
  /-- An access outside a block, or arithmetic on `ssize_t` out of range. -/
  | block (fault : ByteBlock.Fault)
  /-- An `assert` failed. -/
  | assertion
  deriving DecidableEq

/-- `hixo_array_t` -/
structure HixoArray where
  /-- `mp_data` -/
  data : ByteBlock
  /-- `m_capacity` -/
  capacity : ℤ
  deriving DecidableEq

/-- `dlist_t`, with cells at addresses in `α`. -/
structure Dlist (α : Type) where
  /-- `mp_next` -/
  next : α
  /-- `mp_prev` -/
  prev : α
  deriving DecidableEq

/-- `hixo_buffer_t` -/
structure HixoBuffer (α : Type) where
  /-- `m_offset` -/
  offset : ℤ
  /-- `m_size` -/
  size : ℤ
  /-- `m_node` -/
  node : Dlist α
  /-- `m_byte_array` -/
  byteArray : HixoArray
  deriving DecidableEq

/-! ## Byte arrays -/

/-- `hixo_create_byte_array` -/
def hixoCreateByteArray (allocated : Bool) (capacity : ℤ) : HixoArray :=
  if capacity > 0 then ⟨ByteBlock.calloc allocated capacity, capacity⟩ else ⟨none, 0⟩

/-- `hixo_byte_array_transfer`: the receiver and the sender afterwards. The block that the receiver
had is given back. -/
def hixoByteArrayTransfer (_recv send : HixoArray) : HixoArray × HixoArray :=
  (⟨send.data, send.capacity⟩, ⟨none, 0⟩)

/-- `hixo_destroy_byte_array` -/
def hixoDestroyByteArray (array : HixoArray) : HixoArray := { array with data := none }

/-! ## Buffers -/

variable {α : Type}

/-- `hixo_create_buffer` for the buffer whose `m_node` is at `self`: whether the result is
`HIXO_OK`, and the buffer. -/
def hixoCreateBuffer (allocated : Bool) (self : α) (buf : HixoBuffer α) (capacity : ℤ) :
    Except Fault (Bool × HixoBuffer α) :=
  if buf.byteArray.data ≠ none then .error .assertion
  else if capacity < 0 then .ok (false, buf)
  else if capacity > 0 then
    .ok (true, ⟨0, 0, ⟨self, self⟩, hixoCreateByteArray allocated capacity⟩)
  else .ok (true, ⟨0, 0, ⟨self, self⟩, hixoCreateByteArray allocated 0⟩)

/-- `hixo_expand_buffer` -/
def hixoExpandBuffer (allocated : Bool) (buf : HixoBuffer α) : Except Fault (HixoBuffer α) := do
  let dataSize ← (intptr (2 * buf.byteArray.capacity)).mapError .block
  if dataSize > 0 then
    let tmpArray := hixoCreateByteArray allocated dataSize
    .ok { buf with byteArray := (hixoByteArrayTransfer buf.byteArray tmpArray).1 }
  else .error .assertion

/-- `hixo_destroy_buffer` -/
def hixoDestroyBuffer (buf : HixoBuffer α) : HixoBuffer α :=
  { buf with byteArray := hixoDestroyByteArray buf.byteArray }

/-- `hixo_buffer_get_data` -/
def hixoBufferGetData (buf : HixoBuffer α) : ByteBlock := buf.byteArray.data

/-- `hixo_buffer_get_size` -/
def hixoBufferGetSize (buf : HixoBuffer α) : ℤ := buf.size

/-- `hixo_buffer_get_capacity` -/
def hixoBufferGetCapacity (buf : HixoBuffer α) : ℤ := buf.byteArray.capacity

/-- `hixo_buffer_full` -/
def hixoBufferFull (buf : HixoBuffer α) : Bool := buf.size ≥ buf.byteArray.capacity

/-- `hixo_buffer_set_size` -/
def hixoBufferSetSize (buf : HixoBuffer α) (size : ℤ) : HixoBuffer α :=
  { buf with size := if size > 0 then size else 0 }

end Hixo.Buffer
