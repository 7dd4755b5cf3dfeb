import Hixo.Foundation.ByteMemory

/-!
# The block allocator of `slub.c`

`slub_format` lays out a caller's region: one header page with the `slub_t` record, ten block
bitmaps and one use map for each block, then the blocks. `slub_alloc` serves an object from a
block that its object type already owns, or assigns the type a fresh block.

The region is part of one byte memory, and every field of `slub_t` is a machine word in it, so
that `slub_alloc` reads back what is in memory and a stray write would be seen.

* Sizes, indices and addresses are natural numbers; the C results `-1` and `NULL` are `none`.
* `char` is signed and eight bits wide, so that comparing a byte with `~0` asks whether all of
  its bits are set, and `x & (1 << j)` asks for bit `j`.
* `slub_objs_shift` holds no state after `RESOLV_OCCUPY`: the `occupy` column is computed.
* A failing `assert` is an exception that names it.
-/

namespace Hixo.Slub

open ByteMem

/-! ## Object types -/

/-- `BLOCKS_MAX` -/
def blocksMax : ℕ := 32

/-- `BLOCK_SIZE` -/
def blockSize : ℕ := 4096

/-- The `shift` column of `slub_objs_shift`, without the sentinel `NONE_OBJ_SHIFT`. -/
def slubObjsShift : List ℕ := [3, 4, 5, 6, 7, 8, 9, 10, 11]

/-- `obj_type_count`, as `RESOLV_OCCUPY` counts it: the entries before the sentinel. -/
def objTypeCount : ℕ := slubObjsShift.length

/-- `1 << slub_objs_shift[type].shift` -/
def typeSize (type : ℕ) : ℕ := 1 <<< slubObjsShift.getD type 0

/-- `slub_objs_shift[type].occupy`: how many objects of the type a block holds. -/
def occupy (type : ℕ) : ℕ := blockSize / typeSize type

/-- `(slub_objs_shift[type].occupy + 7) / 8`: the bytes of a use map that belong to `type`. -/
def occupyLen (type : ℕ) : ℕ := (occupy type + 7) / 8

/-! ## The header -/

/-- The fields of `slub_t`. -/
structure SlubT where
  /-- `magic_no`, `0xE78F8A` once the region is formatted. -/
  magicNo : ℕ
  /-- `nblocks`: the number of blocks. -/
  nblocks : ℕ
  /-- `bitmap`: the address of the top bitmap; the bitmap of each object type follows. -/
  bitmap : ℕ
  /-- `bitmap_size`: the bytes of one of these bitmaps. -/
  bitmapSize : ℕ
  /-- `usemap`: the address of the use map of block 0. -/
  usemap : ℕ
  /-- `usemap_size`: the bytes of the use map of one block. -/
  usemapSize : ℕ
  /-- `block`: the address of block 0. -/
  block : ℕ
  /-- `self`: the address of the region. -/
  self : ℕ
  deriving DecidableEq, Repr

/-- The size of a pointer and of `intptr_t` on a 64-bit build. -/
def wordSize : ℕ := 8

/-- `sizeof(slub_t)`: eight words. -/
def sizeofSlubT : ℕ := 8 * wordSize

/-- The `i`-th word of the `slub_t` at `p`. -/
def readField (m : ByteMem) (p i : ℕ) : ℕ := m.readLE (p + wordSize * i) wordSize

/-- Store `v` in the `i`-th word of the `slub_t` at `p`. -/
def writeField (m : ByteMem) (p i v : ℕ) : ByteMem := m.writeLE (p + wordSize * i) wordSize v

/-- The `slub_t` at address `p`. -/
def SlubT.load (m : ByteMem) (p : ℕ) : SlubT where
  magicNo := readField m p 0
  nblocks := readField m p 1
  bitmap := readField m p 2
  bitmapSize := readField m p 3
  usemap := readField m p 4
  usemapSize := readField m p 5
  block := readField m p 6
  self := readField m p 7

/-- Write all fields of a `slub_t` at address `p`. -/
def SlubT.save (slb : SlubT) (m : ByteMem) (p : ℕ) : ByteMem :=
  let m := writeField m p 0 slb.magicNo
  let m := writeField m p 1 slb.nblocks
  let m := writeField m p 2 slb.bitmap
  let m := writeField m p 3 slb.bitmapSize
  let m := writeField m p 4 slb.usemap
  let m := writeField m p 5 slb.usemapSize
  let m := writeField m p 6 slb.block
  writeField m p 7 slb.self

/-! ## Shifting and setting bits -/

/-- The first loop of `mem_shift_left`: `base[i + empty_bytes] = base[i]` for `i` from `n - 1`
down to `0`. -/
def moveBytesUp (m : ByteMem) (base emptyBytes : ℕ) : ℕ → ByteMem
  | 0 => m
  | i + 1 => moveBytesUp (m.store (base + (i + emptyBytes)) (m (base + i))) base emptyBytes i

/-- The second loop of `mem_shift_left`: for `i` from `empty_bytes + n` down to
`empty_bytes + 1`, shift byte `i` and carry in the high bits of byte `i - 1`. -/
def shiftBytesUp (m : ByteMem) (base emptyBytes partBits : ℕ) : ℕ → ByteMem
  | 0 => m
  | n + 1 =>
    let i := emptyBytes + n + 1
    shiftBytesUp
      (m.store (base + i) ((m (base + i) <<< partBits) ||| (m (base + (i - 1)) >>> (8 - partBits))))
      base emptyBytes partBits n

/-- `mem_shift_left(p, len, n)` -/
def memShiftLeft (m : ByteMem) (p len n : ℕ) : ByteMem :=
  let emptyBytes := n / 8
  let partBits := n % 8
  if n ≥ len * 8 then m.fill p len 0
  else
    let m :=
      if emptyBytes > 0 then (moveBytesUp m p emptyBytes (len - emptyBytes)).fill p emptyBytes 0
      else m
    let m := shiftBytesUp m p emptyBytes partBits (len - 1 - emptyBytes)
    m.store (p + emptyBytes) (m (p + emptyBytes) <<< partBits)

/-- `mem_set_bit(p, len, n, value)` -/
def memSetBit (m : ByteMem) (p n : ℕ) (value : Bool) : ByteMem :=
  if value then m.store (p + n / 8) (m (p + n / 8) ||| 1#8 <<< (n % 8))
  else m.store (p + n / 8) (m (p + n / 8) &&& ~~~(1#8 <<< (n % 8)))

/-! ## Scanning for bits -/

/-- The assertions of the scans. -/
inductive ScanAssertion
  /-- `NULL != p` -/
  | arrayNotNull
  /-- `len > 0` -/
  | lenPositive
  deriving DecidableEq, Repr

/-- A `char` in an expression: it is signed, and it becomes an `int`. -/
def promote (c : BitVec 8) : BitVec 32 := c.signExtend 32

/-- `mem_is_filled(p, len)`: the words of the array first, then the bytes behind them. -/
def memIsFilled (m : ByteMem) (p len : ℕ) : Except ScanAssertion Bool :=
  let nints := len / wordSize
  let nbytes := len % wordSize
  if p = 0 then .error .arrayNotNull
  else if len = 0 then .error .lenPositive
  else .ok <|
    ((List.range nints).all fun i =>
      (~~~0#32).signExtend 64 == BitVec.ofNat 64 (m.readLE (p + wordSize * i) wordSize)) &&
    (List.range nbytes).all fun i => ~~~0#32 == promote (m (p + wordSize * nints + i))

/-- `mem_detect_bit(p, len, zero)`: the bytes in order, and in a byte that can hold such a bit its
bits in order. -/
def memDetectBit (m : ByteMem) (p len : ℕ) (zero : ℤ) : Except ScanAssertion (Option ℕ) :=
  if p = 0 then .error .arrayNotNull
  else if len = 0 then .error .lenPositive
  else .ok <| (List.range len).findSome? fun i =>
    let byte := promote (m (p + i))
    if zero ≠ 0 then
      if ~~~0#32 = byte then none
      else ((List.range 8).find? fun j => byte &&& 1#32 <<< j == 0#32).map fun j => i * 8 + j
    else
      if 0#32 = byte then none
      else ((List.range 8).find? fun j => byte &&& 1#32 <<< j != 0#32).map fun j => i * 8 + j

/-! ## `slub_format` -/

/-- The assertions of `slub_format` and `slub_alloc`. -/
inductive Assertion
  /-- `NULL != p` -/
  | regionNotNull
  /-- `size > 0` or `obj_size > 0` -/
  | sizePositive
  /-- `slb->bitmap_size > 0` -/
  | bitmapSizePositive
  /-- `slb->usemap_size > 0` -/
  | usemapSizePositive
  /-- `0xE78F8A == slb->magic_no` -/
  | magicNo
  /-- `-1 != type` -/
  | typeFound
  /-- `NULL != rslt`, after the second call of `slub_alloc_from_existed` -/
  | retryFound
  deriving DecidableEq, Repr

/-- `nblocks` as `slub_format` computes it from the size of the region. -/
def blockCount (size : ℕ) : ℕ :=
  if size / blockSize ≥ blocksMax then blocksMax - 1 else size / blockSize

/-- The header `slub_format` writes for a region at `p` with `nblocks` blocks. -/
def formatHeader (p nblocks : ℕ) : SlubT :=
  let bitmap := p + sizeofSlubT
  let bitmapSize := (nblocks + 7) / 8
  { magicNo := 0xE78F8A
    nblocks
    bitmap
    bitmapSize
    usemap := bitmap + bitmapSize * (objTypeCount + 1)
    usemapSize := ((List.range objTypeCount).map occupyLen).sum
    block := p + blockSize
    self := p }

/-- The inner loop of the use-map initialisation: `j` runs over the object types, with the
offset of the part of the use map at `base` that belongs to type `j`. -/
def formatUsemap (m : ByteMem) (base : ℕ) : ByteMem :=
  ((List.range objTypeCount).foldl
    (fun (acc : ByteMem × ℕ) j =>
      (memShiftLeft acc.1 (base + acc.2) (occupyLen j) (occupy j), acc.2 + occupyLen j))
    (m, 0)).1

/-- The outer loop of the use-map initialisation, over all blocks. -/
def formatUsemaps (slb : SlubT) (m : ByteMem) : ByteMem :=
  (List.range slb.nblocks).foldl
    (fun m i => formatUsemap m (slb.usemap + slb.usemapSize * i)) m

/-- The memory `slub_format` leaves in a region at `p` with `nblocks` blocks: the header, the
block bitmaps with the tail of the top bitmap pre-set, and the use maps. -/
def formatRegion (m : ByteMem) (p nblocks : ℕ) : ByteMem :=
  let slb := formatHeader p nblocks
  let m := slb.save m p
  let m := m.fill slb.bitmap (slb.bitmapSize * (objTypeCount + 1)) 0
  let m := m.store (slb.bitmap + (slb.bitmapSize - 1)) (0xFF#8 <<< (slb.nblocks % 8))
  let m := m.fill slb.usemap (slb.usemapSize * slb.nblocks) 0xFF
  formatUsemaps slb m

/-- `slub_format(p, size)`: `none` when the region is too small (the result `-1`), otherwise
the formatted memory. On that path the C function returns a variable it never set, so the
result says nothing but that the region was accepted. -/
def slubFormat (m : ByteMem) (p size : ℕ) : Except Assertion (Option ByteMem) :=
  if p = 0 then .error .regionNotNull
  else if size = 0 then .error .sizePositive
  else if (size : ℤ) - blockSize < blockSize then .ok none
  else if (formatHeader p (blockCount size)).bitmapSize = 0 then .error .bitmapSizePositive
  else if (formatHeader p (blockCount size)).usemapSize = 0 then .error .usemapSizePositive
  else .ok (some (formatRegion m p (blockCount size)))

/-! ## `slub_alloc` -/

/-- `&slb->bitmap[slb->bitmap_size * (type + 1)]`: the block bitmap of an object type. -/
def SlubT.typeBitmap (slb : SlubT) (type : ℕ) : ℕ :=
  slb.bitmap + slb.bitmapSize * (type + 1)

/-- `alloc_index_from_top_bitmap(slb, type)`: take the first block no type owns. -/
def allocIndexFromTopBitmap (m : ByteMem) (slb : SlubT) (type : ℕ) : Option ℕ × ByteMem :=
  match m.firstClearBit slb.bitmap slb.bitmapSize with
  | none => (none, m)
  | some (i, j) =>
    let m := m.store (slb.bitmap + i) (m (slb.bitmap + i) ||| 1#8 <<< j)
    let rslt := i * 8 + j
    (some rslt, memSetBit m (slb.typeBitmap type) rslt true)

/-- The offset of the part of a use map that belongs to `type`. -/
def usemapOffset (type : ℕ) : ℕ := ((List.range type).map occupyLen).sum

/-- `alloc_index_from_usemap(type, usemap, usemap_size)`: take the first free slot for `type` in
one block. -/
def allocIndexFromUsemap (m : ByteMem) (type usemap : ℕ) : Option ℕ × ByteMem :=
  match m.firstClearBit (usemap + usemapOffset type) (occupyLen type) with
  | none => (none, m)
  | some (i, j) =>
    (some (i * 8 + j), m.store (usemap + usemapOffset type + i)
      (m (usemap + usemapOffset type + i) ||| 1#8 <<< j))

/-- The inner loop of `slub_alloc_from_existed`: try the blocks of bitmap byte `i` at the bit
positions `js`. -/
def allocFromByte (slb : SlubT) (type i : ℕ) : ByteMem → List ℕ → Option ℕ × ByteMem
  | m, [] => (none, m)
  | m, j :: js =>
    if (m (slb.typeBitmap type + i)).getLsbD j = false then allocFromByte slb type i m js
    else
      match allocIndexFromUsemap m type (slb.usemap + (i * 8 + j) * slb.usemapSize) with
      | (some rsltIndex, m) =>
        (some (slb.block + (i * 8 + j) * blockSize + rsltIndex * typeSize type), m)
      | (none, m) => allocFromByte slb type i m js

/-- `slub_alloc_from_existed(slb, type)`: only the first non-zero byte of the bitmap of `type`
is searched, because the outer loop ends with a `break` after it. -/
def slubAllocFromExisted (m : ByteMem) (slb : SlubT) (type : ℕ) : Option ℕ × ByteMem :=
  match (List.range slb.bitmapSize).find? fun i => m (slb.typeBitmap type + i) != 0 with
  | none => (none, m)
  | some i => allocFromByte slb type i m (List.range 8)

/-- The search for the object type in `slub_alloc`: the first whose objects are large enough. -/
def typeOfSize (objSize : ℕ) : Option ℕ :=
  (List.range objTypeCount).find? fun i => objSize ≤ typeSize i

/-- `slub_alloc(p, obj_size)`: the address of the object, or `none` for `NULL`. -/
def slubAlloc (m : ByteMem) (p objSize : ℕ) : Except Assertion (Option ℕ × ByteMem) :=
  let slb := SlubT.load m p
  if p = 0 then .error .regionNotNull
  else if objSize = 0 then .error .sizePositive
  else if slb.magicNo ≠ 0xE78F8A then .error .magicNo
  else
    match typeOfSize objSize with
    | none => .error .typeFound
    | some type =>
      match slubAllocFromExisted m slb type with
      | (some rslt, m) => .ok (some rslt, m)
      | (none, m) =>
        match allocIndexFromTopBitmap m slb type with
        | (none, m) => .ok (none, m)
        | (some _, m) =>
          match slubAllocFromExisted m slb type with
          | (some rslt, m) => .ok (some rslt, m)
          | (none, _) => .error .retryFound

end Hixo.Slub
