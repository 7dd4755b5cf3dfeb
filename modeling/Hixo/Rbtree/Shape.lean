import Hixo.Rbtree.Defs
import Hixo.Foundation.Programs
import Hixo.Foundation.RedBlack

/-!
# Trees in memory

The trees of addresses that a memory holds, and what the writes of `rbtree.c` do to them.

* `pack`, `cell`: the words of a node;
* `Shape`, `Spine`: a subtree in memory, and the nodes above it;
* `Holds`: a root holds a tree;
* `Focus`: a root holds a tree, seen from a subtree, and all else is as it was in another memory;
* `Shape.reparent`, `Spine.store`, `Focus.modify_color`, `Focus.rotate`: the writes.
-/

namespace Hixo.Rbtree

open ColoredTree RbTree RbNode Memory

variable {ρ : Type} {m m' m₀ : Memory ρ} {r : ρ} {own : List Addr} {par a b h k : Addr}
  {c c' : Color} {d : Side} {t u s : RbTree Addr} {p q : List (Frame Addr)} {f : Frame Addr}

/-! ## The word of a node -/

/-- A colour as the lowest bit of a word. -/
def bits : Color → BitVec 64
  | .red => rbRed
  | .black => rbBlack

/-- The address of the parent and a colour in one word. -/
def pack (par : Addr) (c : Color) : BitVec 64 := par ||| bits c

/-- The two lowest bits of an address are free for the colour. -/
def Aligned (a : Addr) : Prop := a &&& 3 = 0

/-- The address of a node. -/
structure Valid (a : Addr) : Prop where
  ne_null : a ≠ 0
  aligned : Aligned a

instance (a : Addr) : Decidable (Aligned a) := inferInstanceAs (Decidable (a &&& 3 = 0))

instance (a : Addr) : Decidable (Valid a) :=
  decidable_of_iff (a ≠ 0 ∧ Aligned a) ⟨fun h => ⟨h.1, h.2⟩, fun h => ⟨h.ne_null, h.aligned⟩⟩

/-- `NULL` has its lowest bits free. -/
theorem aligned_zero : Aligned 0 := by
  decide

/-- An address has none of the two lowest bits. -/
theorem Aligned.and_low (ha : Aligned a) (x : BitVec 64) (hx : 3 &&& x = x) : a &&& x = 0 := by
  rw [← hx, ← BitVec.and_assoc, show a &&& 3 = 0 from ha]
  exact BitVec.zero_and

/-- An address stays as it is when some of the two lowest bits are cleared. -/
theorem Aligned.and_high (ha : Aligned a) (x : BitVec 64) (hx : 3 &&& x = x) :
    a &&& ~~~x = a := by
  have hall : x ||| ~~~x = BitVec.allOnes 64 := by
    simp
  have hsplit : a &&& (x ||| ~~~x) = (a &&& x) ||| (a &&& ~~~x) := BitVec.and_or_distrib_left
  rw [hall, BitVec.and_allOnes, ha.and_low x hx] at hsplit
  exact (hsplit.trans BitVec.zero_or).symm

/-- With the colour red, a word is the address of the parent. -/
theorem pack_red : pack a .red = a := BitVec.or_zero

/-- Clearing both lowest bits of a word gives the address of the parent. -/
theorem pack_and_not_three (ha : Aligned a) : pack a c &&& ~~~3 = a := by
  rw [pack, BitVec.and_or_distrib_right, ha.and_high 3 (by decide)]
  cases c <;> exact BitVec.or_zero

/-- The two lowest bits of a word are the colour. -/
theorem pack_and_three (ha : Aligned a) : pack a c &&& 3 = bits c := by
  rw [pack, BitVec.and_or_distrib_right, ha.and_low 3 (by decide)]
  cases c <;> rfl

/-- The lowest bit of a word is the colour. -/
theorem pack_and_one (ha : Aligned a) : pack a c &&& 1 = bits c := by
  rw [pack, BitVec.and_or_distrib_right, ha.and_low 1 (by decide)]
  cases c <;> rfl

/-- Clearing the lowest bit of a word gives the address of the parent. -/
theorem pack_and_not_one (ha : Aligned a) : pack a c &&& ~~~1 = a := by
  rw [pack, BitVec.and_or_distrib_right, ha.and_high 1 (by decide)]
  cases c <;> exact BitVec.or_zero

/-- A node with the subtree `h` on the side `d` and the subtree `k` on the other one. -/
def cell (par : Addr) (c : Color) (d : Side) (h k : Addr) : RbNode :=
  match d with
  | .left => ⟨pack par c, k, h⟩
  | .right => ⟨pack par c, h, k⟩

namespace RbNode

/-- The word of a node packs its parent and its colour. -/
@[simp]
theorem rbParentColor_cell : (cell par c d h k).rbParentColor = pack par c := by
  cases d <;> rfl

/-- The pointer to the subtree on the side `d`. -/
@[simp]
theorem child_cell : (cell par c d h k).child d = h := by
  cases d <;> rfl

/-- The pointer to the subtree on the other side. -/
@[simp]
theorem child_other_cell : (cell par c d h k).child d.other = k := by
  cases d <;> rfl

/-- Storing a child on the side `d` replaces the first subtree. -/
@[simp]
theorem setChild_cell : (cell par c d h k).setChild d a = cell par c d a k := by
  cases d <;> rfl

/-- Storing a child on the other side replaces the second subtree. -/
@[simp]
theorem setChild_other_cell : (cell par c d h k).setChild d.other a = cell par c d h a := by
  cases d <;> rfl

/-- `rb_parent` gives the parent of a node. -/
theorem rbParent_cell (hpar : Aligned par) : (cell par c d h k).rbParent = par := by
  rw [rbParent, rbParentColor_cell, pack_and_not_three hpar]

/-- `rb_color` gives the colour of a node. -/
theorem rbColor_cell (hpar : Aligned par) : (cell par c d h k).rbColor = bits c := by
  rw [rbColor, rbParentColor_cell, pack_and_one hpar]

/-- `rb_is_black` tells whether a node is black. -/
theorem rbIsBlack_cell (hpar : Aligned par) :
    (cell par c d h k).rbIsBlack = decide (c = .black) := by
  rw [rbIsBlack, rbColor_cell hpar]
  cases c <;> rfl

/-- `rb_is_red` tells whether a node is red. -/
theorem rbIsRed_cell (hpar : Aligned par) : (cell par c d h k).rbIsRed = decide (c = .red) := by
  rw [rbIsRed, rbColor_cell hpar]
  cases c <;> rfl

/-- `rb_set_black` makes a node black, and changes nothing else of it. -/
theorem rbSetBlack_cell : (cell par c d h k).rbSetBlack = cell par .black d h k := by
  have hword : pack par c ||| 1 = pack par .black := by
    rw [pack, BitVec.or_assoc]
    cases c <;> rfl
  cases d <;> exact congrArg (fun w => RbNode.mk w _ _) hword

/-- `rb_set_color` gives a node a colour, and changes nothing else of it. -/
theorem rbSetColor_cell (hpar : Aligned par) :
    (cell par c d h k).rbSetColor (bits c') = cell par c' d h k := by
  have hword : pack par c &&& ~~~1 ||| bits c' = pack par c' := by
    rw [pack_and_not_one hpar]
    rfl
  cases d <;> exact congrArg (fun w => RbNode.mk w _ _) hword

/-- `rb_set_red` makes a node red, and changes nothing else of it. -/
theorem rbSetRed_cell (hpar : Aligned par) :
    (cell par c d h k).rbSetRed = cell par .red d h k := by
  have hword : pack par c &&& ~~~1 = pack par .red :=
    (pack_and_not_one hpar).trans pack_red.symm
  cases d <;> exact congrArg (fun w => RbNode.mk w _ _) hword

/-- `rb_set_parent` gives a node another parent, and keeps its colour. -/
theorem rbSetParent_cell (hpar : Aligned par) :
    (cell par c d h k).rbSetParent a = cell a c d h k := by
  have hword : pack par c &&& 3 ||| a = pack a c := by
    rw [pack_and_three hpar, BitVec.or_comm]
    rfl
  cases d <;> exact congrArg (fun w => RbNode.mk w _ _) hword

end RbNode

/-! ## Reading and writing -/

namespace Memory

/-- A node that is there can be read. -/
theorem read_eq (ha : a ≠ 0) {n : RbNode} (hn : m.node a = some n) : m.read a = .ok n := by
  rw [Memory.read, if_neg ha, hn]

/-- Changing a node that is there writes the changed node back. -/
theorem modify_eq (ha : a ≠ 0) {n : RbNode} (hn : m.node a = some n) (g : RbNode → RbNode) :
    m.modify a g = .ok (m.write a (g n)) := by
  rw [Memory.modify, Programs.bind_of_eq_ok (read_eq ha hn)]
  rfl

/-- What was written to a node is read back. -/
@[simp]
theorem write_node_self {n : RbNode} : (m.write a n).node a = some n :=
  Function.update_self ..

/-- A write leaves all other nodes alone. -/
theorem write_node_of_ne {n : RbNode} (h : b ≠ a) : (m.write a n).node b = m.node b :=
  Function.update_of_ne h ..

/-- A write to a node leaves the roots alone. -/
@[simp]
theorem write_rbNode {n : RbNode} : (m.write a n).rbNode = m.rbNode := rfl

/-- A write to a root leaves the nodes alone. -/
@[simp]
theorem setRoot_node [DecidableEq ρ] : (m.setRoot r a).node = m.node := rfl

end Memory

/-! ## Trees in memory -/

/-- The pointer to a tree. -/
def addr : RbTree Addr → Addr
  | .leaf => 0
  | .node _ _ a _ => a

/-- The node above a subtree, `par` when the path is empty. -/
def top (par : Addr) : List (Frame Addr) → Addr
  | [] => par
  | f :: _ => f.value

/-- The pointer to the tree around a subtree to which `h` points. -/
def rootOf : List (Frame Addr) → Addr → Addr
  | [], h => h
  | f :: p, _ => rootOf p f.value

/-- Where the pointer to a subtree is kept. -/
def linkAt (r : ρ) : List (Frame Addr) → Link ρ
  | [] => .root r
  | f :: _ => .child f.side f.value

/-- The memory has the nodes of a tree, whose root has the parent `par`. -/
def Shape (m : Memory ρ) (par : Addr) : RbTree Addr → Prop
  | .leaf => True
  | .node c l a r => m.node a = some ⟨pack par c, addr r, addr l⟩ ∧ Shape m a l ∧ Shape m a r

/-- The memory has the nodes of the tree around a subtree to which `h` points. The root has the
parent `par`. -/
def Spine (m : Memory ρ) (par : Addr) : List (Frame Addr) → Addr → Prop
  | [], _ => True
  | f :: p, h => m.node f.value = some (cell (top par p) f.color f.side h (addr f.sibling)) ∧
      Shape m f.value f.sibling ∧ Spine m par p f.value

/-- The root holds a tree. -/
structure Holds (m : Memory ρ) (r : ρ) (t : RbTree Addr) : Prop where
  root : m.rbNode r = addr t
  shape : Shape m 0 t
  nodup : t.inorder.Nodup
  valid : ∀ a ∈ t.inorder, Valid a

/-- There are nodes at the same addresses. -/
def SameCells (m m' : Memory ρ) : Prop := ∀ a, (m'.node a).isSome = (m.node a).isSome

/-- Only the contents of the nodes `own` and the root `r` may differ. -/
structure Unchanged (own : List Addr) (r : ρ) (m m' : Memory ρ) : Prop where
  node : ∀ a ∉ own, m'.node a = m.node a
  rbNode : ∀ s ≠ r, m'.rbNode s = m.rbNode s
  cells : SameCells m m'

/-- The root `r` holds a tree, seen from its subtree `t`. The memory differs from `m₀` only in the
root and in the nodes `own`, to which those of the tree belong. -/
structure Focus (m₀ : Memory ρ) (own : List Addr) (r : ρ) (m : Memory ρ) (p : List (Frame Addr))
    (t : RbTree Addr) : Prop where
  root : m.rbNode r = rootOf p (addr t)
  spine : Spine m 0 p (addr t)
  shape : Shape m (top 0 p) t
  nodup : (plug p t).inorder.Nodup
  valid : ∀ a ∈ (plug p t).inorder, Valid a
  owned : ∀ a ∈ (plug p t).inorder, a ∈ own
  rest : Unchanged own r m₀ m

@[simp]
theorem top_nil : top par [] = par := rfl

@[simp]
theorem top_cons : top par (f :: p) = f.value := rfl

/-- The node above a subtree only depends on the first step up. -/
theorem top_append : top par (q ++ f :: p) = top f.value q := by
  cases q <;> rfl

@[simp]
theorem addr_leaf : addr .leaf = 0 := rfl

/-- The pointer to a node is its address. -/
@[simp]
theorem addr_join : addr (join d c a t u) = a := by
  cases d <;> rfl

/-- Painting a tree does not move its root. -/
@[simp]
theorem addr_paint : addr (t.paint c) = addr t := by
  cases t <;> rfl

/-- The pointer to a tree that is not empty is one of its addresses. -/
theorem addr_mem (ht : t ≠ .leaf) : addr t ∈ t.inorder := by
  cases t with
  | leaf => exact absurd rfl ht
  | node c l a r => exact List.mem_append_right _ List.mem_cons_self

/-- The pointer to a tree is `NULL` when the tree is empty, and else one of its addresses. -/
theorem addr_eq_zero_or_mem (t : RbTree Addr) : addr t = 0 ∨ addr t ∈ t.inorder := by
  cases t with
  | leaf => exact .inl rfl
  | node c l a r => exact .inr (addr_mem nofun)

/-- Only the pointer to the empty tree is `NULL`. -/
theorem addr_eq_zero_iff (hvalid : ∀ a ∈ t.inorder, Valid a) : addr t = 0 ↔ t = .leaf := by
  constructor
  · intro h
    by_contra hne
    exact (hvalid _ (addr_mem hne)).ne_null h
  · rintro rfl
    rfl

/-- The pointer to a whole tree, from its subtree at the end of the path. -/
theorem addr_plug : addr (plug p t) = rootOf p (addr t) := by
  induction p generalizing t with
  | nil => rfl
  | cons f p ih => rw [plug_cons, ih, Frame.close, addr_join, rootOf]

@[simp]
theorem shape_leaf : Shape m par .leaf := trivial

/-- A node is in memory when its own cell is there, with pointers to both subtrees, and the subtrees
are below it. -/
theorem shape_join : Shape m par (join d c a t u) ↔
    m.node a = some (cell par c d (addr t) (addr u)) ∧ Shape m a t ∧ Shape m a u := by
  cases d
  · exact Iff.rfl
  · exact and_congr_right fun _ => and_comm

/-- A tree in memory is a subtree in memory and the nodes around it. -/
theorem shape_plug : Shape m par (plug p t) ↔ Spine m par p (addr t) ∧ Shape m (top par p) t := by
  induction p generalizing t with
  | nil => simp [Spine, top]
  | cons f p ih =>
    rw [plug_cons, ih, Frame.close, shape_join, addr_join, Spine, top]
    tauto

/-- A subtree is in every memory with the same nodes at its addresses. -/
theorem Shape.congr (ht : Shape m par t) (h : ∀ a ∈ t.inorder, m'.node a = m.node a) :
    Shape m' par t := by
  induction t generalizing par with
  | leaf => trivial
  | node c l a r hl hr =>
    obtain ⟨ha, htl, htr⟩ := ht
    refine ⟨(h a ?_).trans ha, hl htl fun b hb => h b ?_, hr htr fun b hb => h b ?_⟩ <;>
      simp [inorder, *]

/-- The nodes around a subtree are in every memory that has the same nodes at their addresses. -/
theorem Spine.congr (hp : Spine m par p h) (hsame : ∀ a ∈ outside p, m'.node a = m.node a) :
    Spine m' par p h := by
  induction p generalizing h with
  | nil => trivial
  | cons f p ih =>
    obtain ⟨hf, hs, hp⟩ := hp
    have hsame : ∀ a ∈ f.value :: (f.sibling.inorder ++ outside p), m'.node a = m.node a :=
      fun a ha => hsame a (outside_cons_perm.mem_iff.mpr ha)
    refine ⟨(hsame _ List.mem_cons_self).trans hf, hs.congr fun a ha => hsame a ?_,
      ih hp fun a ha => hsame a ?_⟩ <;> simp [ha]

/-! ## Writes at a subtree -/

theorem SameCells.refl (m : Memory ρ) : SameCells m m := fun _ => rfl

theorem SameCells.trans {m'' : Memory ρ} (h : SameCells m m') (h' : SameCells m' m'') :
    SameCells m m'' :=
  fun a => (h' a).trans (h a)

/-- Writing to a node that is there leaves the addresses of nodes as they are. -/
theorem SameCells.write (h : SameCells m m') (n : RbNode) (ha : m'.node a ≠ none) :
    SameCells m (m'.write a n) := by
  intro b
  rcases eq_or_ne b a with rfl | hne
  · rw [write_node_self, ← h b, Option.isSome_iff_ne_none.mpr ha]
    rfl
  · rw [write_node_of_ne hne, h b]

/-- No write changes nothing. -/
theorem Unchanged.refl (own : List Addr) (r : ρ) (m : Memory ρ) : Unchanged own r m m :=
  ⟨fun _ _ => rfl, fun _ _ => rfl, .refl m⟩

/-- Two runs of writes to the same root and the same nodes make one. -/
theorem Unchanged.trans {m'' : Memory ρ} (h : Unchanged own r m m') (h' : Unchanged own r m' m'') :
    Unchanged own r m m'' :=
  ⟨fun a ha => (h'.node a ha).trans (h.node a ha),
    fun s hs => (h'.rbNode s hs).trans (h.rbNode s hs), h.cells.trans h'.cells⟩

/-- When the root of a subtree gets another parent, the subtree is in memory below that parent, and
no node outside of it changes. -/
theorem Shape.reparent (ht : Shape m par t) (hpar : Aligned par) (hnodup : t.inorder.Nodup)
    (hvalid : ∀ a ∈ t.inorder, Valid a) (new : Addr) :
    ∃ m', m.reparent (addr t) new = .ok m' ∧ Shape m' new t ∧ m'.rbNode = m.rbNode ∧
      (∀ a, a ∉ t.inorder → m'.node a = m.node a) ∧ SameCells m m' := by
  cases t with
  | leaf => exact ⟨m, rfl, trivial, rfl, fun _ _ => rfl, .refl m⟩
  | node c l a r =>
    obtain ⟨ha, hl, hr⟩ := ht
    have ha0 : a ≠ 0 := (hvalid a (addr_mem nofun)).ne_null
    have hnodup := nodup_join (d := .left) (c := c) (t := l) (u := r) |>.mp hnodup
    refine ⟨m.write a (cell new c .left (addr l) (addr r)), ?_, ⟨write_node_self, ?_, ?_⟩, rfl, ?_,
      (SameCells.refl m).write _ (by simp [ha])⟩
    · rw [Memory.reparent, addr, if_neg ha0, modify_eq ha0 ha, ← rbSetParent_cell hpar]
      rfl
    · exact hl.congr fun b hb => write_node_of_ne (ne_of_mem_of_not_mem hb hnodup.1.1)
    · exact hr.congr fun b hb => write_node_of_ne (ne_of_mem_of_not_mem hb hnodup.1.2)
    · intro b hb
      exact write_node_of_ne fun heq => hb (heq ▸ addr_mem nofun)

/-- When the pointer to a subtree is changed in its parent, the nodes around stay, and point to the
new subtree. -/
theorem Spine.setChild (hp : Spine m par (f :: p) h) (hnodup : (outside (f :: p)).Nodup)
    (hf0 : f.value ≠ 0) (new : Addr) :
    ∃ m', m.modify f.value (RbNode.setChild f.side new) = .ok m' ∧ Spine m' par (f :: p) new ∧
      m'.rbNode = m.rbNode ∧ (∀ a, a ≠ f.value → m'.node a = m.node a) ∧ SameCells m m' := by
  obtain ⟨hf, hs, hp⟩ := hp
  rw [nodup_outside_cons] at hnodup
  refine ⟨m.write f.value (cell (top par p) f.color f.side new (addr f.sibling)), ?_,
    ⟨write_node_self, hs.congr fun a ha => ?_, hp.congr fun a ha => ?_⟩, rfl,
    fun a ha => write_node_of_ne ha, (SameCells.refl m).write _ (by simp [hf])⟩
  · rw [modify_eq hf0 hf, setChild_cell]
  · exact write_node_of_ne (ne_of_mem_of_not_mem ha hnodup.1.1)
  · exact write_node_of_ne (ne_of_mem_of_not_mem ha hnodup.1.2)

section

variable [DecidableEq ρ]

/-- When the pointer to a subtree is changed in its parent or in the root, the nodes around stay,
and point to the new subtree. -/
theorem Spine.store (hp : Spine m 0 p h) (hroot : m.rbNode r = rootOf p h)
    (hnodup : (outside p).Nodup) (hvalid : ∀ a ∈ outside p, Valid a) (new : Addr) :
    ∃ m', m.store (linkAt r p) new = .ok m' ∧ Spine m' 0 p new ∧
      m'.rbNode r = rootOf p new ∧ (∀ s ≠ r, m'.rbNode s = m.rbNode s) ∧
      (∀ a, a ∉ outside p → m'.node a = m.node a) ∧ SameCells m m' := by
  cases p with
  | nil =>
    exact ⟨m.setRoot r new, rfl, trivial, Function.update_self .., fun s hs =>
      Function.update_of_ne hs .., fun _ _ => rfl, .refl m⟩
  | cons f p =>
    obtain ⟨m', hrun, hspine, hroots, hnode, hcells⟩ :=
      hp.setChild hnodup (hvalid _ (by simp)).ne_null new
    exact ⟨m', hrun, hspine, (congrFun hroots r).trans hroot, fun s _ => congrFun hroots s,
      fun a ha => hnode a fun heq => ha (by simp [heq]), hcells⟩

/-- The code finds the place where the pointer to a subtree is kept: the root, or the right one of
the two sides of the parent. -/
theorem Spine.replaceChild_eq (d : Side) (hp : Spine m 0 p h)
    (hvalid : ∀ a ∈ outside p, Valid a) (hh : h ∉ outside p) (hh0 : h ≠ 0) (new : Addr) :
    m.replaceChild d r (top 0 p) h new = m.store (linkAt r p) new := by
  cases p with
  | nil => rfl
  | cons f p =>
    have hf0 : f.value ≠ 0 := (hvalid _ (by simp)).ne_null
    have hne : addr f.sibling ≠ h := by
      rcases addr_eq_zero_or_mem f.sibling with hz | hmem
      · exact hz ▸ hh0.symm
      · exact ne_of_mem_of_not_mem (mem_outside_cons.mpr (.inr (.inl hmem))) hh
    rw [Memory.replaceChild, top, if_neg hf0, Programs.bind_of_eq_ok (read_eq hf0 hp.1)]
    rcases Side.eq_or_eq_other f.side d with rfl | rfl
    · rw [child_cell, if_pos rfl]
      rfl
    · rw [child_other_cell, if_neg hne, Side.other_other]
      rfl

end

/-! ## A tree seen from a subtree -/

/-- A tree seen from a subtree is the tree seen from its parent. -/
theorem focus_close : Focus m₀ own r m (f :: p) t ↔ Focus m₀ own r m p (f.close t) := by
  have hshape : Spine m 0 (f :: p) (addr t) ∧ Shape m f.value t ↔
      Spine m 0 p f.value ∧ Shape m (top 0 p) (f.close t) := by
    rw [Frame.close, shape_join, Spine]
    tauto
  have haddr : addr (f.close t) = f.value := addr_join
  constructor
  · rintro ⟨hroot, hspine, hs, hnodup, hvalid, howned, hrest⟩
    obtain ⟨hspine, hs⟩ := hshape.mp ⟨hspine, hs⟩
    exact ⟨hroot.trans (congrArg (rootOf p) haddr.symm), haddr ▸ hspine, hs, hnodup, hvalid, howned,
      hrest⟩
  · rintro ⟨hroot, hspine, hs, hnodup, hvalid, howned, hrest⟩
    obtain ⟨hspine, hs⟩ := hshape.mpr ⟨haddr ▸ hspine, hs⟩
    exact ⟨hroot.trans (congrArg (rootOf p) haddr), hspine, hs, hnodup, hvalid, howned, hrest⟩

/-- A tree seen from a subtree is the tree seen from its root. -/
theorem focus_plug : Focus m₀ own r m p t ↔ Focus m₀ own r m [] (plug p t) := by
  induction p generalizing t with
  | nil => rfl
  | cons f p ih => rw [focus_close, ih, plug_cons]

/-- A tree can be seen from any node on the path. -/
theorem focus_append : Focus m₀ own r m (q ++ p) t ↔ Focus m₀ own r m p (plug q t) := by
  rw [focus_plug, plug_append, ← focus_plug]

/-- A tree that a root holds can be seen from its root. -/
theorem Holds.focus (h : Holds m r t) (howned : ∀ a ∈ t.inorder, a ∈ own) :
    Focus m own r m [] t :=
  ⟨h.root, trivial, h.shape, h.nodup, h.valid, howned, .refl own r m⟩

namespace Focus

/-- A tree that is seen from a subtree is held by its root. -/
theorem holds (h : Focus m₀ own r m p t) : Holds m r (plug p t) :=
  ⟨h.root.trans addr_plug.symm, shape_plug.mpr ⟨h.spine, h.shape⟩, h.nodup, h.valid⟩

/-- The address of the node above a subtree, or `NULL`, has its lowest bits free. -/
theorem aligned_top (h : Focus m₀ own r m p t) : Aligned (top 0 p) := by
  cases p with
  | nil => exact aligned_zero
  | cons f p => exact (h.valid _ (mem_inorder_plug.mpr (.inr (by simp [top])))).aligned

/-- The subtree from which a tree is seen has a valid address. -/
theorem valid_root (h : Focus m₀ own r m p (join d c a t u)) : Valid a :=
  h.valid a (by simp)

/-- The memory has the node from which a tree is seen. -/
theorem node (h : Focus m₀ own r m p (join d c a t u)) :
    m.node a = some (cell (top 0 p) c d (addr t) (addr u)) :=
  (shape_join.mp h.shape).1

/-- The nodes around point to the node from which a tree is seen. -/
theorem spine_join (h : Focus m₀ own r m p (join d c a t u)) : Spine m 0 p a := by
  have hspine := h.spine
  rwa [addr_join] at hspine

/-- The root points to the top of the path, or to the node from which the tree is seen. -/
theorem root_join (h : Focus m₀ own r m p (join d c a t u)) : m.rbNode r = rootOf p a := by
  rw [h.root, addr_join]

/-- The node from which a tree is seen can be read. -/
theorem read (h : Focus m₀ own r m p (join d c a t u)) :
    m.read a = .ok (cell (top 0 p) c d (addr t) (addr u)) :=
  read_eq h.valid_root.ne_null h.node

/-- A subtree is empty exactly when the pointer to it is `NULL`. -/
theorem addr_eq_zero_iff (h : Focus m₀ own r m p t) : addr t = 0 ↔ t = .leaf :=
  Rbtree.addr_eq_zero_iff fun a ha => h.valid a (mem_inorder_plug.mpr (.inl ha))

/-- The test for `NULL` or black says whether the root of the subtree is black, a leaf being black.
-/
theorem absentOrBlack (h : Focus m₀ own r m p t) :
    m.absentOrBlack (addr t) = .ok (decide (t.color = .black)) := by
  cases t with
  | leaf => rfl
  | node c l a u =>
    have h : Focus m₀ own r m p (join .left c a l u) := h
    rw [Memory.absentOrBlack, addr, if_neg h.valid_root.ne_null, Programs.bind_of_eq_ok h.read,
      rbIsBlack_cell h.aligned_top]
    rfl

/-- When writes bring the nodes of the tree into another order and change nothing else, the root
holds the new tree. -/
theorem rearrange (h : Focus m₀ own r m p t) {t' : RbTree Addr} {p' : List (Frame Addr)}
    (hperm : (plug p' t').inorder.Perm (plug p t).inorder)
    (hroot : m'.rbNode r = rootOf p' (addr t'))
    (hspine : Spine m' 0 p' (addr t')) (hshape : Shape m' (top 0 p') t')
    (hnode : ∀ a ∉ (plug p t).inorder, m'.node a = m.node a)
    (hrbNode : ∀ s ≠ r, m'.rbNode s = m.rbNode s) (hcells : SameCells m m') :
    Focus m₀ own r m' p' t' :=
  ⟨hroot, hspine, hshape, hperm.nodup_iff.mpr h.nodup, fun a ha => h.valid a (hperm.mem_iff.mp ha),
    fun a ha => h.owned a (hperm.mem_iff.mp ha),
    h.rest.trans ⟨fun a ha => hnode a fun hmem => ha (h.owned a hmem), hrbNode, hcells⟩⟩

/-- A write that only changes the colour of a node paints it. -/
theorem modify_color (h : Focus m₀ own r m p (join d c a t u)) {g : RbNode → RbNode}
    (hg : g (cell (top 0 p) c d (addr t) (addr u)) = cell (top 0 p) c' d (addr t) (addr u)) :
    ∃ m', m.modify a g = .ok m' ∧ Focus m₀ own r m' p (join d c' a t u) := by
  obtain ⟨hnode, ht, hu⟩ := shape_join.mp h.shape
  obtain ⟨hnodup, -, hout⟩ := nodup_plug.mp h.nodup
  have hout : a ∉ outside p := hout a (by simp)
  obtain ⟨⟨hat, hau⟩, -⟩ := nodup_join.mp hnodup
  refine ⟨m.write a (cell (top 0 p) c' d (addr t) (addr u)), ?_, h.rearrange ?_ ?_ ?_ ?_ ?_
    (fun _ _ => rfl) ((SameCells.refl m).write _ (by simp [hnode]))⟩
  · rw [modify_eq h.valid_root.ne_null hnode, hg]
  · rw [inorder_plug_congr (inorder_join_congr rfl rfl)]
  · rw [addr_join]
    exact h.root_join
  · rw [addr_join]
    exact h.spine_join.congr fun b hb => write_node_of_ne (ne_of_mem_of_not_mem hb hout)
  · exact shape_join.mpr ⟨write_node_self,
      ht.congr fun b hb => write_node_of_ne (ne_of_mem_of_not_mem hb hat),
      hu.congr fun b hb => write_node_of_ne (ne_of_mem_of_not_mem hb hau)⟩
  · intro b hb
    exact write_node_of_ne fun heq => hb (heq ▸ by simp)

/-- `rb_set_black` paints a subtree black. -/
theorem setBlack (h : Focus m₀ own r m p t) (ht : t ≠ .leaf) :
    ∃ m', m.modify (addr t) rbSetBlack = .ok m' ∧ Focus m₀ own r m' p (t.paint .black) := by
  obtain ⟨c, a, u, v, rfl⟩ := eq_join .left ht
  rw [addr_join, paint_join]
  exact h.modify_color rbSetBlack_cell

/-- `rb_set_red` paints a subtree red. -/
theorem setRed (h : Focus m₀ own r m p t) (ht : t ≠ .leaf) :
    ∃ m', m.modify (addr t) rbSetRed = .ok m' ∧ Focus m₀ own r m' p (t.paint .red) := by
  obtain ⟨c, a, u, v, rfl⟩ := eq_join .left ht
  rw [addr_join, paint_join]
  exact h.modify_color (rbSetRed_cell h.aligned_top)

/-- `rb_set_color` paints a subtree. -/
theorem setColor (h : Focus m₀ own r m p t) (ht : t ≠ .leaf) (c : Color) :
    ∃ m', m.modify (addr t) (rbSetColor (bits c)) = .ok m' ∧
      Focus m₀ own r m' p (t.paint c) := by
  obtain ⟨c', a, u, v, rfl⟩ := eq_join .left ht
  rw [addr_join, paint_join]
  exact h.modify_color (rbSetColor_cell h.aligned_top)

variable [DecidableEq ρ]

/-- A rotation lifts the child on the other side above the node, and moves the inner subtree over.
-/
theorem rotate (h : Focus m₀ own r m p (join d c a s (join d c' b t u))) :
    ∃ m', Memory.rotate d m a r = .ok m' ∧
      Focus m₀ own r m' p (join d c' b (join d c a s t) u) := by
  obtain ⟨ha, hs, hinner⟩ := shape_join.mp h.shape
  obtain ⟨hb, ht, hu⟩ := shape_join.mp hinner
  rw [addr_join] at ha
  have ha0 : a ≠ 0 := (h.valid a (by simp)).ne_null
  have hb0 : b ≠ 0 := (h.valid b (by simp)).ne_null
  have haligned : Aligned a := (h.valid a (by simp)).aligned
  have hbligned : Aligned b := (h.valid b (by simp)).aligned
  -- all addresses are different
  obtain ⟨hnodup, houtside, hout⟩ := nodup_plug.mp h.nodup
  obtain ⟨⟨has, hainner⟩, hsnodup, hinnerNodup, hsinner⟩ := nodup_join.mp hnodup
  obtain ⟨⟨hbt, hbu⟩, htnodup, hunodup, htu⟩ := nodup_join.mp hinnerNodup
  simp only [mem_inorder_join, not_or] at hainner hsinner hout
  obtain ⟨hab, hat, hau⟩ := hainner
  have haout : a ∉ outside p := hout a (.inl rfl)
  have hbout : b ∉ outside p := hout b (by simp)
  -- the child on the other side takes over the inner subtree
  let m₁ := m.write a (cell (top 0 p) c d (addr s) (addr t))
  have hb₁ : m₁.node b = some (cell a c' d (addr t) (addr u)) :=
    (write_node_of_ne (Ne.symm hab)).trans hb
  have ht₁ : Shape m₁ b t :=
    ht.congr fun z hz => write_node_of_ne (ne_of_mem_of_not_mem hz hat)
  obtain ⟨m₂, hrun₂, ht₂, hroot₂, hnode₂, hcells₂⟩ := ht₁.reparent hbligned htnodup
    (fun z hz => h.valid z (by simp [hz])) a
  have ha₂ : m₂.node a = some (cell (top 0 p) c d (addr s) (addr t)) :=
    (hnode₂ a hat).trans write_node_self
  have hb₂ : m₂.node b = some (cell a c' d (addr t) (addr u)) := (hnode₂ b hbt).trans hb₁
  let m₃ := m₂.write b (cell a c' d a (addr u))
  let m₄ := m₃.write b (cell (top 0 p) c' d a (addr u))
  have hnode₄ : ∀ z, z ≠ b → m₄.node z = m₂.node z := fun z hz =>
    (write_node_of_ne hz).trans (write_node_of_ne hz)
  have hspine₄ : Spine m₄ 0 p a := h.spine_join.congr fun z hz => by
    rw [hnode₄ z (ne_of_mem_of_not_mem hz hbout),
      hnode₂ z fun hmem => hout z (by simp [hmem]) hz,
      write_node_of_ne (ne_of_mem_of_not_mem hz haout)]
  have hvalid : ∀ z ∈ outside p, Valid z := fun z hz => h.valid z (mem_inorder_plug.mpr (.inr hz))
  obtain ⟨m₅, hrun₅, hspine₅, hroot₅, hroots₅, hnode₅, hcells₅⟩ := hspine₄.store
    ((congrFun hroot₂ r).trans h.root_join) houtside hvalid b
  rw [← hspine₄.replaceChild_eq d hvalid haout ha0] at hrun₅
  have ha₅ : m₅.node a = some (cell (top 0 p) c d (addr s) (addr t)) :=
    (hnode₅ a haout).trans ((hnode₄ a hab).trans ha₂)
  let m₆ := m₅.write a (cell b c d (addr s) (addr t))
  have hnode₆ : ∀ z, z ≠ a → z ≠ b → z ∉ outside p → m₆.node z = m₂.node z := fun z hza hzb hz =>
    (write_node_of_ne hza).trans ((hnode₅ z hz).trans (hnode₄ z hzb))
  have hsame : ∀ z, z ≠ a → z ≠ b → z ∉ t.inorder → z ∉ outside p → m₆.node z = m.node z :=
    fun z hza hzb hzt hz =>
      (hnode₆ z hza hzb hz).trans ((hnode₂ z hzt).trans (write_node_of_ne hza))
  refine ⟨m₆, ?_, h.rearrange ?_ ?_ ?_ ?_ ?_ ?_ ?_⟩
  · have hrun₁ : m.modify a (setChild d.other (addr t)) = .ok m₁ := by
      rw [modify_eq ha0 ha, setChild_other_cell]
    have hrun₃ : m₂.modify b (setChild d a) = .ok m₃ := by
      rw [modify_eq hb0 hb₂, setChild_cell]
    have hrun₄ : m₃.modify b (rbSetParent (top 0 p)) = .ok m₄ := by
      rw [modify_eq hb0 write_node_self, rbSetParent_cell haligned]
    have hrun₆ : m₅.modify a (rbSetParent b) = .ok m₆ := by
      rw [modify_eq ha0 ha₅, rbSetParent_cell h.aligned_top]
    simp only [Memory.rotate, read_eq ha0 ha, read_eq hb0 hb, read_eq hb0 hb₁, child_cell,
      child_other_cell, rbParent_cell h.aligned_top, hrun₁, hrun₂, hrun₃, hrun₄, hrun₅, hrun₆,
      Programs.ok_bind]
  · refine List.Perm.of_eq (inorder_plug_congr ?_)
    cases d <;> simp [join, inorder]
  · rw [addr_join]
    exact hroot₅
  · rw [addr_join]
    exact hspine₅.congr fun z hz => write_node_of_ne (ne_of_mem_of_not_mem hz haout)
  · refine shape_join.mpr ⟨?_, shape_join.mpr ⟨?_, ?_, ?_⟩, ?_⟩
    · rw [addr_join, write_node_of_ne (Ne.symm hab), hnode₅ b hbout]
      exact write_node_self
    · exact write_node_self
    · exact hs.congr fun z hz => hsame z (ne_of_mem_of_not_mem hz has) (hsinner z hz).1
        (hsinner z hz).2.1 (hout z (by simp [hz]))
    · exact ht₂.congr fun z hz => hnode₆ z (ne_of_mem_of_not_mem hz hat)
        (ne_of_mem_of_not_mem hz hbt) (hout z (by simp [hz]))
    · exact hu.congr fun z hz => hsame z (ne_of_mem_of_not_mem hz hau)
        (ne_of_mem_of_not_mem hz hbu) (fun hmem => htu z hmem hz) (hout z (by simp [hz]))
  · intro z hz
    simp only [mem_inorder_plug, mem_inorder_join, not_or] at hz
    exact hsame z hz.1.1 hz.1.2.2.1 hz.1.2.2.2.1 hz.2
  · exact fun s hs => (hroots₅ s hs).trans (congrFun hroot₂ s)
  · have hcells₄ : SameCells m m₄ := (((SameCells.refl m).write _ (by simp [ha])).trans
      hcells₂ |>.write _ (by simp [hb₂])).write _ (by rw [write_node_self]; simp)
    exact (hcells₄.trans hcells₅).write _ (by simp [ha₅])

/-- A rotation towards the other side undoes this. -/
theorem rotate_other (h : Focus m₀ own r m p (join d c a (join d c' b t u) s)) :
    ∃ m', Memory.rotate d.other m a r = .ok m' ∧
      Focus m₀ own r m' p (join d c' b t (join d c a u s)) := by
  have h : Focus m₀ own r m p (join d.other c a s (join d.other c' b u t)) := by
    simpa only [join_other] using h
  simpa only [join_other] using h.rotate

end Focus

end Hixo.Rbtree
