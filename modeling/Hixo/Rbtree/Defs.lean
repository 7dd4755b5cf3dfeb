import Hixo.Foundation.ColoredTree
import Mathlib.Logic.Function.Basic

/-!
# The red-black tree

`rbtree.h` and `rbtree.c`: trees whose nodes are parts of other structures and are linked by
pointers. The colour of a node is in the lowest bit of the word that holds the address of its
parent.

* `RbNode`, `Memory`: a node, and the memory with its nodes and roots;
* `rbParent`, `rbColor`, `rbSetParent`, `rbSetColor`: the word of a node;
* `rbLinkNode`, `rbInsertColor`: insertion;
* `rbErase`, `rbEraseColor`, `rbReplaceNode`: erasure and replacement;
* `rbFirst`, `rbLast`, `rbNext`, `rbPrev`: the way through a tree.

Code that the source writes once for each side is written here for a side `d`, and stands under its
own name for each of the two.
-/

namespace Hixo.Rbtree

open ColoredTree

/-- An address; `NULL` is 0. -/
abbrev Addr := BitVec 64

/-- Ways in which the functions break off. -/
inductive Fault where
  /-- `NULL` was followed. -/
  | null
  /-- A pointer that does not point to a node was followed. -/
  | wild
  /-- A loop does not come to its end. -/
  | endless
  /-- A number does not fit into its type. -/
  | outOfRange
  deriving DecidableEq

/-- `struct rb_node` -/
structure RbNode where
  /-- `rb_parent_color` -/
  rbParentColor : BitVec 64
  /-- `rb_right` -/
  rbRight : Addr
  /-- `rb_left` -/
  rbLeft : Addr
  deriving DecidableEq

/-- `RB_RED` -/
def rbRed : BitVec 64 := 0

/-- `RB_BLACK` -/
def rbBlack : BitVec 64 := 1

namespace RbNode

/-- `rb_parent` -/
def rbParent (n : RbNode) : Addr := n.rbParentColor &&& ~~~3

/-- `rb_color` -/
def rbColor (n : RbNode) : BitVec 64 := n.rbParentColor &&& 1

/-- `rb_is_red` -/
def rbIsRed (n : RbNode) : Bool := n.rbColor == 0

/-- `rb_is_black` -/
def rbIsBlack (n : RbNode) : Bool := n.rbColor != 0

/-- `rb_set_red` -/
def rbSetRed (n : RbNode) : RbNode := { n with rbParentColor := n.rbParentColor &&& ~~~1 }

/-- `rb_set_black` -/
def rbSetBlack (n : RbNode) : RbNode := { n with rbParentColor := n.rbParentColor ||| 1 }

/-- `rb_set_parent` -/
def rbSetParent (p : Addr) (n : RbNode) : RbNode :=
  { n with rbParentColor := (n.rbParentColor &&& 3) ||| p }

/-- `rb_set_color` -/
def rbSetColor (color : BitVec 64) (n : RbNode) : RbNode :=
  { n with rbParentColor := (n.rbParentColor &&& ~~~1) ||| color }

/-- `rb_left` or `rb_right` -/
def child (d : Side) (n : RbNode) : Addr :=
  match d with
  | .left => n.rbLeft
  | .right => n.rbRight

/-- Let `rb_left` or `rb_right` be `a`. -/
def setChild (d : Side) (a : Addr) (n : RbNode) : RbNode :=
  match d with
  | .left => { n with rbLeft := a }
  | .right => { n with rbRight := a }

end RbNode

open RbNode

/-- The memory, as far as trees are concerned: the nodes, and the roots of the trees. -/
structure Memory (ρ : Type) where
  /-- The node at an address, `none` where there is no node. -/
  node : Addr → Option RbNode
  /-- `rb_node` of a `struct rb_root`. -/
  rbNode : ρ → Addr

/-- `struct rb_node **`: where a pointer to a node is kept. -/
inductive Link (ρ : Type) where
  /-- `rb_node` of a root. -/
  | root (r : ρ)
  /-- `rb_left` or `rb_right` of a node. -/
  | child (d : Side) (a : Addr)

namespace Memory

variable {ρ : Type}

/-- The node that a pointer points to. -/
def read (m : Memory ρ) (a : Addr) : Except Fault RbNode :=
  if a = 0 then .error .null
  else
    match m.node a with
    | none => .error .wild
    | some n => .ok n

/-- Put a node at an address. -/
def write (m : Memory ρ) (a : Addr) (n : RbNode) : Memory ρ :=
  { m with node := Function.update m.node a (some n) }

/-- Change the node that a pointer points to. -/
def modify (m : Memory ρ) (a : Addr) (f : RbNode → RbNode) : Except Fault (Memory ρ) := do
  let n ← m.read a
  return m.write a (f n)

/-- The subtree at a pointer is empty or its root is black. -/
def absentOrBlack (m : Memory ρ) (a : Addr) : Except Fault Bool :=
  if a = 0 then .ok true
  else do
    let n ← m.read a
    return n.rbIsBlack

/-- Change the parent of a node, when the pointer is not `NULL`. -/
def reparent (m : Memory ρ) (a p : Addr) : Except Fault (Memory ρ) :=
  if a = 0 then .ok m else m.modify a (rbSetParent p)

variable [DecidableEq ρ]

/-- Let `rb_node` of a root be `a`. -/
def setRoot (m : Memory ρ) (r : ρ) (a : Addr) : Memory ρ :=
  { m with rbNode := Function.update m.rbNode r a }

/-- `*rb_link` -/
def load (m : Memory ρ) : Link ρ → Except Fault Addr
  | .root r => .ok (m.rbNode r)
  | .child d a => do
    let n ← m.read a
    return n.child d

/-- `*rb_link = b` -/
def store (m : Memory ρ) (link : Link ρ) (b : Addr) : Except Fault (Memory ρ) :=
  match link with
  | .root r => .ok (m.setRoot r b)
  | .child d a => m.modify a (setChild d b)

/-- Put `new` in the place of `old` under its parent, or make it the root when there is no parent.
The code asks first whether `old` is on the side `d`. -/
def replaceChild (d : Side) (m : Memory ρ) (r : ρ) (parent old new : Addr) :
    Except Fault (Memory ρ) :=
  if parent = 0 then .ok (m.setRoot r new)
  else do
    let n ← m.read parent
    if n.child d = old then m.modify parent (setChild d new)
    else m.modify parent (setChild d.other new)

/-- The rotation at a node towards the side `d`. -/
def rotate (d : Side) (m : Memory ρ) (node : Addr) (r : ρ) : Except Fault (Memory ρ) := do
  let other := (← m.read node).child d.other
  let parent := (← m.read node).rbParent
  let inner := (← m.read other).child d
  let m ← m.modify node (setChild d.other inner)
  let m ← m.reparent ((← m.read other).child d) node
  let m ← m.modify other (setChild d node)
  let m ← m.modify other (rbSetParent parent)
  let m ← m.replaceChild d r parent node other
  m.modify node (rbSetParent other)

/-- `__rb_rotate_left` -/
def rbRotateLeft (m : Memory ρ) (node : Addr) (r : ρ) : Except Fault (Memory ρ) :=
  rotate .left m node r

/-- `__rb_rotate_right` -/
def rbRotateRight (m : Memory ρ) (node : Addr) (r : ρ) : Except Fault (Memory ρ) :=
  rotate .right m node r

end Memory

open Memory

variable {ρ : Type} [DecidableEq ρ]

/-! ## Insertion -/

/-- `rb_link_node` -/
def rbLinkNode (m : Memory ρ) (node parent : Addr) (link : Link ρ) : Except Fault (Memory ρ) := do
  let m ← m.modify node fun n => { n with rbParentColor := parent }
  let m ← m.modify node (setChild .right 0)
  let m ← m.modify node (setChild .left 0)
  m.store link node

/-- A pass of the loop of `rb_insert_color`, where `parent` is on the side `d` of `gparent`: the
memory and `node` after it. -/
def insertPass (d : Side) (m : Memory ρ) (node parent gparent : Addr) (r : ρ) :
    Except Fault (Memory ρ × Addr) := do
  let uncle := (← m.read gparent).child d.other
  if ← m.absentOrBlack uncle then
    let (m, node, parent) ←
      if (← m.read parent).child d.other = node then do
        let m ← rotate d m parent r
        pure (m, parent, node)
      else pure (m, node, parent)
    let m ← m.modify parent rbSetBlack
    let m ← m.modify gparent rbSetRed
    let m ← rotate d.other m gparent r
    return (m, node)
  else
    let m ← m.modify uncle rbSetBlack
    let m ← m.modify parent rbSetBlack
    let m ← m.modify gparent rbSetRed
    return (m, gparent)

/-- The loop of `rb_insert_color`. -/
def insertLoop (r : ρ) : ℕ → Memory ρ → Addr → Except Fault (Memory ρ)
  | 0, _, _ => .error .endless
  | fuel + 1, m, node => do
    let parent := (← m.read node).rbParent
    if ← m.absentOrBlack parent then return m
    else
      let gparent := (← m.read parent).rbParent
      let left := (← m.read gparent).rbLeft
      let (m, node) ← insertPass (if parent = left then .left else .right) m node parent gparent r
      insertLoop r fuel m node

/-- `rb_insert_color` -/
def rbInsertColor (fuel : ℕ) (m : Memory ρ) (node : Addr) (r : ρ) : Except Fault (Memory ρ) := do
  let m ← insertLoop r fuel m node
  m.modify (m.rbNode r) rbSetBlack

/-! ## Erasure -/

/-- How a pass of the loop of `__rb_erase_color` ends. -/
inductive Pass where
  /-- The loop goes on. -/
  | again (node parent : Addr)
  /-- `break` -/
  | done (node : Addr)

/-- Neither child of a node is red. -/
def childrenBlack (m : Memory ρ) (a : Addr) : Except Fault Bool := do
  let n ← m.read a
  if ← m.absentOrBlack n.rbLeft then m.absentOrBlack n.rbRight else return false

/-- The first part of a pass of the loop of `__rb_erase_color`, where `node` is on the side `d` of
`parent`: the memory and `other`, which is not red any more. -/
def eraseSibling (d : Side) (m : Memory ρ) (parent : Addr) (r : ρ) :
    Except Fault (Memory ρ × Addr) := do
  let other := (← m.read parent).child d.other
  if (← m.read other).rbIsRed then
    let m ← m.modify other rbSetBlack
    let m ← m.modify parent rbSetRed
    let m ← rotate d m parent r
    return (m, (← m.read parent).child d.other)
  else return (m, other)

/-- The second part of a pass of the loop of `__rb_erase_color`. -/
def eraseAround (d : Side) (m : Memory ρ) (parent other : Addr) (r : ρ) :
    Except Fault (Memory ρ × Pass) := do
  if ← childrenBlack m other then
    let m ← m.modify other rbSetRed
    return (m, .again parent (← m.read parent).rbParent)
  else
    let (m, other) ←
      if ← m.absentOrBlack ((← m.read other).child d.other) then do
        let m ← m.modify ((← m.read other).child d) rbSetBlack
        let m ← m.modify other rbSetRed
        let m ← rotate d.other m other r
        pure (m, (← m.read parent).child d.other)
      else pure (m, other)
    let m ← m.modify other (rbSetColor (← m.read parent).rbColor)
    let m ← m.modify parent rbSetBlack
    let m ← m.modify ((← m.read other).child d.other) rbSetBlack
    let m ← rotate d m parent r
    return (m, .done (m.rbNode r))

/-- The loop of `__rb_erase_color`: the memory and `node` after it. -/
def eraseLoop (r : ρ) : ℕ → Memory ρ → Addr → Addr → Except Fault (Memory ρ × Addr)
  | 0, _, _, _ => .error .endless
  | fuel + 1, m, node, parent => do
    if ← m.absentOrBlack node then
      if node = m.rbNode r then return (m, node)
      else
        let left := (← m.read parent).rbLeft
        let d := if left = node then .left else .right
        let (m, other) ← eraseSibling d m parent r
        match ← eraseAround d m parent other r with
        | (m, .again node parent) => eraseLoop r fuel m node parent
        | (m, .done node) => return (m, node)
    else return (m, node)

/-- `__rb_erase_color` -/
def rbEraseColor (fuel : ℕ) (m : Memory ρ) (node parent : Addr) (r : ρ) :
    Except Fault (Memory ρ) := do
  let (m, node) ← eraseLoop r fuel m node parent
  if node = 0 then return m else m.modify node rbSetBlack

/-- Go down on the side `d` as far as possible. -/
def descend (d : Side) : ℕ → Memory ρ → Addr → Except Fault Addr
  | 0, _, _ => .error .endless
  | fuel + 1, m, n => do
    let below := (← m.read n).child d
    if below = 0 then return n else descend d fuel m below

/-- `rb_erase` of a node with at most one child. -/
def eraseUpper (fuel : ℕ) (m : Memory ρ) (node child : Addr) (r : ρ) :
    Except Fault (Memory ρ) := do
  let parent := (← m.read node).rbParent
  let color := (← m.read node).rbColor
  let m ← m.reparent child parent
  let m ← m.replaceChild .left r parent node child
  if color = rbBlack then rbEraseColor fuel m child parent r else return m

/-- The part of `rb_erase` in which `node`, the next node after `old`, leaves its place: the memory,
and the parent of that place. -/
def eraseDetach (m : Memory ρ) (old node child parent : Addr) :
    Except Fault (Memory ρ × Addr) := do
  if parent = old then return (m, node)
  else
    let m ← m.reparent child parent
    let m ← m.modify parent (setChild .left child)
    let m ← m.modify node (setChild .right (← m.read old).rbRight)
    let m ← m.modify (← m.read old).rbRight (rbSetParent node)
    return (m, parent)

/-- `rb_erase` of a node with two children: the next node takes its place. -/
def eraseInner (fuel : ℕ) (m : Memory ρ) (old : Addr) (r : ρ) : Except Fault (Memory ρ) := do
  let node ← descend .left fuel m (← m.read old).rbRight
  let m ← m.replaceChild .left r (← m.read old).rbParent old node
  let child := (← m.read node).rbRight
  let parent := (← m.read node).rbParent
  let color := (← m.read node).rbColor
  let (m, parent) ← eraseDetach m old node child parent
  let word := (← m.read old).rbParentColor
  let m ← m.modify node fun n => { n with rbParentColor := word }
  let m ← m.modify node (setChild .left (← m.read old).rbLeft)
  let m ← m.modify (← m.read old).rbLeft (rbSetParent node)
  if color = rbBlack then rbEraseColor fuel m child parent r else return m

/-- `rb_erase` -/
def rbErase (fuel : ℕ) (m : Memory ρ) (node : Addr) (r : ρ) : Except Fault (Memory ρ) := do
  let n ← m.read node
  if n.rbLeft = 0 then eraseUpper fuel m node n.rbRight r
  else if n.rbRight = 0 then eraseUpper fuel m node n.rbLeft r
  else eraseInner fuel m node r

/-- `rb_replace_node` -/
def rbReplaceNode (m : Memory ρ) (victim new : Addr) (r : ρ) : Except Fault (Memory ρ) := do
  let parent := (← m.read victim).rbParent
  let m ← m.replaceChild .left r parent victim new
  let m ← m.reparent (← m.read victim).rbLeft new
  let m ← m.reparent (← m.read victim).rbRight new
  let v ← m.read victim
  m.modify new fun _ => v

/-! ## The way through a tree -/

/-- The node at the end of the tree on the side `d`. -/
def outermost (d : Side) (fuel : ℕ) (m : Memory ρ) (r : ρ) : Except Fault Addr :=
  if m.rbNode r = 0 then .ok 0 else descend d fuel m (m.rbNode r)

/-- `rb_first` -/
def rbFirst (fuel : ℕ) (m : Memory ρ) (r : ρ) : Except Fault Addr := outermost .left fuel m r

/-- `rb_last` -/
def rbLast (fuel : ℕ) (m : Memory ρ) (r : ρ) : Except Fault Addr := outermost .right fuel m r

/-- Go up as long as the node is on the side `d` of its parent: the parent of the last node. -/
def climb (d : Side) : ℕ → Memory ρ → Addr → Except Fault Addr
  | 0, _, _ => .error .endless
  | fuel + 1, m, node => do
    let parent := (← m.read node).rbParent
    if parent = 0 then return parent
    else if node = (← m.read parent).child d then climb d fuel m parent
    else return parent

/-- The neighbour of a node on the side `d`. -/
def neighbour (d : Side) (fuel : ℕ) (m : Memory ρ) (node : Addr) : Except Fault Addr := do
  let n ← m.read node
  if n.rbParent = node then return 0
  else if n.child d = 0 then climb d fuel m node
  else descend d.other fuel m (n.child d)

/-- `rb_next` -/
def rbNext (fuel : ℕ) (m : Memory ρ) (node : Addr) : Except Fault Addr :=
  neighbour .right fuel m node

/-- `rb_prev` -/
def rbPrev (fuel : ℕ) (m : Memory ρ) (node : Addr) : Except Fault Addr :=
  neighbour .left fuel m node

/-- `RB_CLEAR_NODE` -/
def rbClearNode (m : Memory ρ) (node : Addr) : Except Fault (Memory ρ) :=
  m.modify node (rbSetParent node)

/-- `RB_EMPTY_NODE` -/
def rbEmptyNode (m : Memory ρ) (node : Addr) : Except Fault Bool := do
  let n ← m.read node
  return n.rbParent = node

/-- `RB_EMPTY_ROOT` -/
def rbEmptyRoot (m : Memory ρ) (r : ρ) : Bool := m.rbNode r = 0

end Hixo.Rbtree
