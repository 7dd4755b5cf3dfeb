import Hixo.Foundation.ByteBlock

/-!
# Bitmaps

`bitmap.h`: a bitmap is an array of bytes on the heap with its size in bytes. The size and the
offsets of bits are of type `uint32_t`, and arithmetic on them wraps. Whether `calloc` succeeds is a
parameter of `createBitmap`.
-/

namespace Hixo.Bitmaps

open ByteBlock

/-- `bitmap_t` -/
structure Bitmap where
  /-- `mp_data` -/
  data : ByteBlock
  /-- `m_size` -/
  size : UInt32

/-- `create_bitmap`: whether the result is `HIXO_OK`, and the bitmap. -/
def createBitmap (allocated : Bool) (bm : Bitmap) (nbits : UInt32) : Bool × Bitmap :=
  if 0 = nbits then (false, bm)
  else
    let size := (nbits - 1) / 8 + 1
    match calloc allocated size.toNat with
    | none => (false, ⟨none, size⟩)
    | some _ => (true, ⟨some (List.replicate size.toNat 0), size⟩)

/-- `1 << byte_bit_offset` -/
def bitMask (bitOffset : UInt32) : UInt8 := UInt8.ofNat (1 <<< (bitOffset % 8).toNat)

/-- `bitmap_set`: whether the result is `HIXO_OK`, and the bitmap. -/
def bitmapSet (bm : Bitmap) (bitOffset : UInt32) : Except Fault (Bool × Bitmap) :=
  let byteOffset := bitOffset / 8
  if bitOffset > 8 * bm.size - 1 then .ok (false, bm)
  else do
    let byte ← load bm.data byteOffset.toNat
    let data ← store bm.data byteOffset.toNat (byte ||| bitMask bitOffset)
    .ok (true, { bm with data })

/-- `bitmap_is_set` -/
def bitmapIsSet (bm : Bitmap) (bitOffset : UInt32) : Except Fault Bool :=
  let byteOffset := bitOffset / 8
  if bitOffset > 8 * bm.size - 1 then .ok false
  else do
    let byte ← load bm.data byteOffset.toNat
    .ok (byte &&& bitMask bitOffset ≠ 0)

/-- `destroy_bitmap` -/
def destroyBitmap (bm : Bitmap) : Bitmap :=
  let bm := if bm.data ≠ none then { bm with data := none } else bm
  { bm with size := 0 }

end Hixo.Bitmaps
