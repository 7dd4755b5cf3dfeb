import Hixo.Foundation.ByteMemory
import Hixo.Foundation.LinkedList

/-!
# Pools of elements

`resource.c` on byte-addressed memory. The elements of a pool lie one after the other in memory
from `calloc`. An element that is not in use is on the free list of the pool, whose nodes are
words inside of the elements themselves. With `DEBUG_FLAG` the first word of an element says which
pool it belongs to, and bit 0 of that word whether the element is in use.

* `Pool`: `hixo_resource_t` together with the memory of its elements;
* `addNode`, `rmNode`: the operations of `list.h` on the free list;
* `createResource`, `allocResource`, `freeResource`: the operations of `resource.c`.
-/

namespace Hixo

namespace Resource

/-- Why the program stops. -/
inductive Abort
  /-- An `int` overflows. -/
  | overflow
  /-- `assert(rm_node(..))` -/
  | nodeRemoved
  /-- The assertions on `*pp_belong`. -/
  | belong
  deriving DecidableEq, Repr

/-- A `hixo_resource_t` and the memory. -/
structure Pool where
  /-- The memory. -/
  mem : ByteMem
  /-- `mp_start`, where 0 is `NULL`. -/
  start : ℕ := 0
  /-- `mp_end` -/
  stop : ℕ := 0
  /-- `m_offset` -/
  offset : BitVec 32 := 0
  /-- `mp_free_list` -/
  freeList : ℕ := 0
  /-- `m_used` -/
  used : ℤ := 0
  /-- `m_capacity` -/
  capacity : BitVec 32 := 0

/-- What a `list_t **` points to: the field `mp_free_list`, or the node at an address. -/
abbrev Link : Type := Option ℕ

namespace Pool

/-- The word at an address. -/
def word (p : Pool) (a : ℕ) : ℕ := p.mem.readLE a 8

/-- Store a word. -/
def setWord (p : Pool) (a v : ℕ) : Pool := { p with mem := p.mem.writeLE a 8 v }

/-- `*pp_curr` -/
def load (p : Pool) : Link → ℕ
  | none => p.freeList
  | some a => p.word a

/-- `*pp_curr = v` -/
def save (p : Pool) : Link → ℕ → Pool
  | none, v => { p with freeList := v }
  | some a, v => p.setWord a v

/-- The links of the free list. -/
def links (p : Pool) : LinkHeap Link :=
  fun c => if p.load c = 0 then none else some (some (p.load c))

/-! ## `list.h` -/

/-- `add_node(&mp_free_list, p_node)` -/
def addNode (p : Pool) (node : ℕ) : Pool :=
  (p.save (some node) (p.load none)).save none node

/-- `rm_node(&mp_free_list, p_node)` from `pp_curr` on: whether the node was found. `none` when
the loop makes more than `fuel` passes. -/
def rmNode (p : Pool) (node : ℕ) : ℕ → Link → Option (Bool × Pool)
  | 0, _ => none
  | fuel + 1, curr =>
    if p.load curr = 0 then some (false, p)
    else if node = p.load curr then
      some (true, (p.save curr (p.word node)).save (some node) 0)
    else rmNode p node fuel (some (p.load curr))

/-! ## `resource.c` -/

/-- The first loop of `create_resource`, with `DEBUG_FLAG`: every element belongs to `rsc`. -/
def markElements (p : Pool) (rsc count size : ℕ) : Pool :=
  (List.range count).foldl (fun p i => p.setWord (p.start + i * size) rsc) p

/-- The second loop of `create_resource`: every element is free. -/
def linkElements (p : Pool) (count size offset : ℕ) : Pool :=
  (List.range count).foldl (fun p i => p.addNode (p.start + i * size + offset)) p

/-- `create_resource(rsc, count, size, offset)`, where `calloc` is the result of `calloc` and 0 is
`NULL`: whether it returns `HIXO_OK`. The index of both loops is an `int`. -/
def createResource (debug : Bool) (rsc calloc : ℕ) (p : Pool) (count size offset : ℕ) :
    Except Abort (Bool × Pool) :=
  if count = 0 ∨ size = 0 then .ok (false, p)
  else if p.start ≠ 0 then .ok (false, p)
  else
    let p := { p with start := calloc }
    if calloc = 0 then .ok (false, p)
    else
      let p := { p with mem := p.mem.fill p.start (count * size) 0 }
      if 2 ^ 31 ≤ count then .error .overflow
      else
        let p := if debug then p.markElements rsc count size else p
        let p := { p with
          stop := p.start + count * size
          offset := BitVec.ofNat 32 offset
          freeList := 0 }
        let p := p.linkElements count size offset
        .ok (true, { p with used := 0, capacity := BitVec.ofNat 32 count })

/-- `alloc_resource(rsc)`: the element, or `none` for `NULL`. -/
def allocResource (debug : Bool) (rsc : ℕ) (p : Pool) : Except Abort (Option ℕ × Pool) :=
  if p.load none = 0 then .ok (none, p)
  else
    let node := p.load none
    -- the loop ends in its first pass
    match p.rmNode node 1 none with
    | some (true, p) =>
      let p := { p with used := p.used + 1 }
      let elemt := ((node : ℤ) - p.offset.toInt).toNat
      if debug then
        if p.word elemt = rsc then .ok (some elemt, p.setWord elemt (p.word elemt ||| 1))
        else .error .belong
      else .ok (some elemt, p)
    | _ => .error .nodeRemoved

/-- `free_resource(rsc, elemt)`, where an element of 0 is `NULL`. -/
def freeResource (debug : Bool) (rsc : ℕ) (p : Pool) (elemt : ℕ) : Except Abort Pool :=
  if elemt = 0 then .ok p
  else if elemt < p.start ∨ p.stop ≤ elemt then .ok p
  else
    let p := p.addNode ((elemt : ℤ) + p.offset.toInt).toNat
    let p := { p with used := p.used - 1 }
    if debug then
      let belong := p.word elemt
      if belong - belong % 2 = rsc ∧ belong % 2 = 1 then
        .ok (p.setWord elemt (belong - belong % 2))
      else .error .belong
    else .ok p

end Pool

end Resource

end Hixo
