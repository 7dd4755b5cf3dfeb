import Mathlib.Data.List.Nodup

/-!
# Binary trees with colours, and their paths

A tree whose nodes are red or black, its nodes from left to right, and the path from a subtree up to
the root. What is said of the left side is said of both sides at once.

* `RbTree.join`, `RbTree.child`, `RbTree.paint`: trees by sides;
* `RbTree.inorder`: the values from left to right;
* `Frame`, `plug`: one step up, and the whole tree around a subtree;
* `before`, `after`, `inorder_plug`: the values on both sides of a subtree;
* `exists_plug_of_mem`: every value is the root of a subtree.
-/

namespace ColoredTree

/-- The colour of a node. -/
inductive Color where
  | red
  | black
deriving DecidableEq

/-- One of the two sides of a node. -/
inductive Side where
  | left
  | right
deriving DecidableEq

/-- The opposite side. -/
def Side.other : Side → Side
  | .left => .right
  | .right => .left

/-- The side opposite to the opposite side is the side itself. -/
@[simp]
theorem Side.other_other (d : Side) : d.other.other = d := by
  cases d <;> rfl

/-- The opposite side is another one. -/
@[simp]
theorem Side.other_ne (d : Side) : d.other ≠ d := by
  cases d <;> decide

@[simp]
theorem Side.ne_other (d : Side) : d ≠ d.other := by
  cases d <;> decide

/-- There are only the side and the opposite one. -/
theorem Side.eq_or_eq_other (d e : Side) : e = d ∨ e = d.other := by
  cases d <;> cases e <;> decide

/-- A binary tree whose nodes have a colour. -/
inductive RbTree (α : Type) where
  | leaf
  | node (color : Color) (left : RbTree α) (value : α) (right : RbTree α)
deriving DecidableEq

namespace RbTree

variable {α : Type} {d : Side} {c c' : Color} {a b : α} {t u : RbTree α}

/-- A node with `t` on the side `d` and `u` on the other one. -/
def join (d : Side) (c : Color) (a : α) (t u : RbTree α) : RbTree α :=
  match d with
  | .left => .node c t a u
  | .right => .node c u a t

/-- The subtree on a side. -/
def child (d : Side) : RbTree α → RbTree α
  | .leaf => .leaf
  | .node _ l _ r =>
    match d with
    | .left => l
    | .right => r

/-- The colour of the root, black for a leaf. -/
def color : RbTree α → Color
  | .leaf => .black
  | .node c _ _ _ => c

/-- Give the root a colour. -/
def paint (c : Color) : RbTree α → RbTree α
  | .leaf => .leaf
  | .node _ l a r => .node c l a r

/-- The values from left to right. -/
def inorder : RbTree α → List α
  | .leaf => []
  | .node _ l a r => l.inorder ++ a :: r.inorder

/-- The number of nodes. -/
def size : RbTree α → ℕ
  | .leaf => 0
  | .node _ l _ r => l.size + r.size + 1

/-- The number of nodes on a longest way down. -/
def height : RbTree α → ℕ
  | .leaf => 0
  | .node _ l _ r => max l.height r.height + 1

/-- A node is the same from both sides, with the subtrees exchanged. -/
@[simp]
theorem join_other : join d.other c a t u = join d c a u t := by
  cases d <;> rfl

/-- A node is no leaf. -/
@[simp]
theorem join_ne_leaf : join d c a t u ≠ leaf := by
  cases d <;> exact nofun

@[simp]
theorem child_leaf : (leaf : RbTree α).child d = leaf := rfl

/-- The subtree that was put on a side is found there. -/
@[simp]
theorem child_join : (join d c a t u).child d = t := by
  cases d <;> rfl

/-- The other subtree is found on the other side. -/
@[simp]
theorem child_other_join : (join d c a t u).child d.other = u := by
  cases d <;> rfl

@[simp]
theorem color_leaf : (leaf : RbTree α).color = .black := rfl

@[simp]
theorem color_node {l r : RbTree α} : (node c l a r).color = c := rfl

/-- The colour of a node does not depend on the side. -/
@[simp]
theorem color_join : (join d c a t u).color = c := by
  cases d <;> rfl

@[simp]
theorem paint_leaf : (leaf : RbTree α).paint c = leaf := rfl

/-- Painting a node changes its colour only. -/
@[simp]
theorem paint_join : (join d c a t u).paint c' = join d c' a t u := by
  cases d <;> rfl

/-- Painting leaves the values in their order. -/
@[simp]
theorem inorder_paint : (t.paint c).inorder = t.inorder := by
  cases t <;> rfl

/-- Only the leaf looks like a leaf when it is painted. -/
@[simp]
theorem paint_eq_leaf : t.paint c = leaf ↔ t = leaf := by
  cases t <;> simp [paint]

/-- A tree that is no leaf is a node, and can be taken apart on either side. -/
theorem eq_join (d : Side) (h : t ≠ leaf) :
    ∃ c a u v, t = join d c a u v := by
  cases t with
  | leaf => exact absurd rfl h
  | node c l a r =>
    cases d with
    | left => exact ⟨c, a, l, r, rfl⟩
    | right => exact ⟨c, a, r, l, rfl⟩

/-- A tree with a red root is a node. -/
theorem ne_leaf_of_color (h : t.color = .red) : t ≠ leaf := by
  rintro rfl
  cases h

/-- A tree with a red root is a red join on any side. -/
theorem eq_join_of_red (d : Side) (h : t.color = .red) :
    ∃ a u v, t = join d .red a u v := by
  obtain ⟨c, a, u, v, rfl⟩ := eq_join d (ne_leaf_of_color h)
  obtain rfl : c = .red := color_join.symm.trans h
  exact ⟨a, u, v, rfl⟩

/-- Painting a tree in its own colour leaves it as it is. -/
@[simp]
theorem paint_color : t.paint t.color = t := by
  cases t <;> rfl

/-- A node is one higher than the higher one of its subtrees. -/
theorem height_join : (join d c a t u).height = max t.height u.height + 1 := by
  cases d
  · rfl
  · exact congrArg (· + 1) (Nat.max_comm u.height t.height)

/-- A tree has as many values as nodes. -/
theorem length_inorder : t.inorder.length = t.size := by
  induction t with
  | leaf => rfl
  | node c l a r hl hr => simp [inorder, size, hl, hr, Nat.add_assoc]

/-- Up to their order, the values of a node are its own and those of the subtrees. -/
theorem inorder_join_perm : (join d c a t u).inorder.Perm (a :: (t.inorder ++ u.inorder)) := by
  cases d
  · exact List.perm_middle
  · exact List.perm_middle.trans (List.perm_append_comm.cons a)

/-- A value of a node is its own or one of a subtree. -/
@[simp]
theorem mem_inorder_join :
    b ∈ (join d c a t u).inorder ↔ b = a ∨ b ∈ t.inorder ∨ b ∈ u.inorder := by
  rw [inorder_join_perm.mem_iff]
  simp

/-- A node has no value twice when neither subtree has, nor the value of the node, and the subtrees
share none. -/
theorem nodup_join : (join d c a t u).inorder.Nodup ↔
    (a ∉ t.inorder ∧ a ∉ u.inorder) ∧ t.inorder.Nodup ∧ u.inorder.Nodup ∧
      ∀ b ∈ t.inorder, b ∉ u.inorder := by
  rw [inorder_join_perm.nodup_iff, List.nodup_cons, List.nodup_append', List.mem_append, not_or,
    List.disjoint_left]

/-- Only the leaf has no values. -/
@[simp]
theorem inorder_eq_nil : t.inorder = [] ↔ t = leaf := by
  cases t <;> simp [inorder]

end RbTree

open RbTree

/-- A step up in a tree: a node without its subtree on one side. -/
structure Frame (α : Type) where
  /-- The side of the missing subtree. -/
  side : Side
  /-- The colour of the node. -/
  color : Color
  /-- The value of the node. -/
  value : α
  /-- The subtree on the other side. -/
  sibling : RbTree α

variable {α : Type} {f g : Frame α} {p q : List (Frame α)} {t u : RbTree α} {d : Side} {a : α}

namespace Frame

/-- The node with its missing subtree. -/
def close (f : Frame α) (t : RbTree α) : RbTree α := join f.side f.color f.value t f.sibling

/-- The values of the node that come before the missing subtree. -/
def before (f : Frame α) : List α :=
  match f.side with
  | .left => []
  | .right => f.sibling.inorder ++ [f.value]

/-- The values of the node that come after the missing subtree. -/
def after (f : Frame α) : List α :=
  match f.side with
  | .left => f.value :: f.sibling.inorder
  | .right => []

/-- The values of a node lie around those of the subtree that is put into it. -/
theorem inorder_close : (f.close t).inorder = f.before ++ (t.inorder ++ f.after) := by
  obtain ⟨side, c, a, s⟩ := f
  cases side <;> simp [close, before, after, join, inorder]

end Frame

/-- The tree around a subtree, from the bottom up. -/
def plug : List (Frame α) → RbTree α → RbTree α
  | [], t => t
  | f :: p, t => plug p (f.close t)

/-- The values before the subtree at the end of a path. -/
def before : List (Frame α) → List α
  | [] => []
  | f :: p => before p ++ f.before

/-- The values after the subtree at the end of a path. -/
def after : List (Frame α) → List α
  | [] => []
  | f :: p => f.after ++ after p

/-- The values of the tree around a subtree. -/
def outside (p : List (Frame α)) : List α := before p ++ after p

@[simp]
theorem plug_nil : plug [] t = t := rfl

@[simp]
theorem plug_cons : plug (f :: p) t = plug p (f.close t) := rfl

/-- A longer path goes up the first part, and then the second. -/
theorem plug_append : plug (q ++ p) t = plug p (plug q t) := by
  induction q generalizing t with
  | nil => rfl
  | cons f q ih => exact ih

/-- The values of a whole tree lie around those of the subtree at the end of the path. -/
theorem inorder_plug : (plug p t).inorder = before p ++ (t.inorder ++ after p) := by
  induction p generalizing t with
  | nil => simp [before, after]
  | cons f p ih => simp [ih, before, after, Frame.inorder_close]

/-- Up to their order, the values of a whole tree are those of the subtree and those outside. -/
theorem inorder_plug_perm : (plug p t).inorder.Perm (t.inorder ++ outside p) := by
  rw [inorder_plug, outside, ← List.append_assoc, ← List.append_assoc]
  exact List.perm_append_comm.append_right (after p)

/-- A value of a whole tree is in the subtree or outside. -/
@[simp]
theorem mem_inorder_plug : a ∈ (plug p t).inorder ↔ a ∈ t.inorder ∨ a ∈ outside p := by
  rw [inorder_plug_perm.mem_iff, List.mem_append]

/-- A whole tree has no value twice when neither the subtree nor the outside has, and they share
none. -/
theorem nodup_plug : (plug p t).inorder.Nodup ↔
    t.inorder.Nodup ∧ (outside p).Nodup ∧ ∀ a ∈ t.inorder, a ∉ outside p := by
  rw [inorder_plug_perm.nodup_iff, List.nodup_append', List.disjoint_left]

/-- Up to their order, the values of a step up are its own and those of the sibling. -/
theorem Frame.outside_perm :
    (f.before ++ f.after).Perm (f.value :: f.sibling.inorder) := by
  obtain ⟨side, c, a, s⟩ := f
  cases side
  · exact List.Perm.refl _
  · simp only [Frame.before, Frame.after, List.append_nil]
    exact List.perm_append_comm

@[simp]
theorem outside_nil : outside ([] : List (Frame α)) = [] := rfl

/-- Up to their order, the values outside are those of the first step up and those outside of it. -/
theorem outside_cons_perm :
    (outside (f :: p)).Perm (f.value :: (f.sibling.inorder ++ outside p)) := by
  have h : (outside (f :: p)).Perm ((f.before ++ f.after) ++ outside p) := by
    simp only [outside, before, after, List.append_assoc]
    refine (List.perm_append_comm_assoc (before p) f.before _).trans ?_
    exact (List.perm_append_comm_assoc (before p) f.after _).append_left f.before
  exact h.trans (Frame.outside_perm.append_right (outside p))

/-- A value outside is that of the parent, one of the sibling, or outside of the parent. -/
@[simp]
theorem mem_outside_cons :
    a ∈ outside (f :: p) ↔ a = f.value ∨ a ∈ f.sibling.inorder ∨ a ∈ outside p := by
  rw [outside_cons_perm.mem_iff]
  simp

/-- There is no value twice outside when neither the sibling nor the rest has one twice, the value
of the parent is in neither, and they share none. -/
theorem nodup_outside_cons : (outside (f :: p)).Nodup ↔
    (f.value ∉ f.sibling.inorder ∧ f.value ∉ outside p) ∧ f.sibling.inorder.Nodup ∧
      (outside p).Nodup ∧ ∀ a ∈ f.sibling.inorder, a ∉ outside p := by
  rw [outside_cons_perm.nodup_iff, List.nodup_cons, List.nodup_append', List.mem_append, not_or,
    List.disjoint_left]

/-- What comes before a subtree is first what comes before the upper part of the path. -/
theorem before_append : before (q ++ p) = before p ++ before q := by
  induction q with
  | nil => simp [before]
  | cons f q ih => simp [before, ih]

/-- What comes after a subtree is last what comes after the upper part of the path. -/
theorem after_append : after (q ++ p) = after q ++ after p := by
  induction q with
  | nil => rfl
  | cons f q ih => simp [after, ih]

/-- Nothing comes before a subtree that is on the left of all nodes above it. -/
theorem before_eq_nil (hleft : ∀ f ∈ p, f.side = .left) : before p = [] := by
  induction p with
  | nil => rfl
  | cons f p ih =>
    have hf : f.before = [] := by
      rw [Frame.before, hleft f List.mem_cons_self]
    rw [before, hf, ih fun g hg => hleft g (List.mem_cons_of_mem f hg)]
    rfl

/-- The whole tree around a node is a node. -/
theorem plug_ne_leaf (h : t ≠ leaf) : plug p t ≠ leaf := by
  induction p generalizing t with
  | nil => exact h
  | cons f p ih => exact ih join_ne_leaf

/-- Every value of a tree is the root of a subtree. -/
theorem exists_plug_of_mem (h : a ∈ t.inorder) :
    ∃ p c l r, t = plug p (.node c l a r) := by
  suffices h' : ∀ q : List (Frame α), ∃ p c l r, plug q t = plug p (.node c l a r) from h' []
  induction t with
  | leaf => exact absurd h List.not_mem_nil
  | node c l b r hl hr =>
    intro q
    rcases List.mem_append.mp h with h | h
    · exact hl h (⟨.left, c, b, r⟩ :: q)
    · rcases List.mem_cons.mp h with rfl | h
      · exact ⟨q, c, l, r, rfl⟩
      · exact hr h (⟨.right, c, b, l⟩ :: q)

/-- A value of a tree without repetitions is at one place: what comes before and after it is what
the path and the subtrees say. -/
theorem split_of_plug {xs ys : List α} {c : Color} {l r : RbTree α}
    (h : (plug p (.node c l a r)).inorder = xs ++ a :: ys)
    (hnodup : (xs ++ a :: ys).Nodup) :
    xs = before p ++ l.inorder ∧ ys = r.inorder ++ after p := by
  rw [inorder_plug] at h
  have h' : (before p ++ l.inorder) ++ a :: (r.inorder ++ after p) = xs ++ a :: ys := by
    simpa [inorder] using h
  have hnodup' := h' ▸ hnodup
  have hleft : a ∉ before p ++ l.inorder := fun hmem =>
    (List.nodup_append.mp hnodup').2.2 a hmem a List.mem_cons_self rfl
  have hright : a ∉ r.inorder ++ after p :=
    (List.nodup_cons.mp (List.nodup_append.mp hnodup').2.1).1
  obtain ⟨h₁, -, h₂⟩ := (List.append_cons_inj_of_notMem hleft hright).mp h'
  exact ⟨h₁.symm, h₂.symm⟩

/-! ## The way towards a side -/

/-- Values in the order in which they are met on the way towards a side. -/
def Side.order (d : Side) (xs : List α) : List α :=
  match d with
  | .left => xs.reverse
  | .right => xs

/-- The values that lie beyond the subtree at the end of a path, on the way towards a side. -/
def beyond (d : Side) (p : List (Frame α)) : List α :=
  match d with
  | .left => (before p).reverse
  | .right => after p

@[simp]
theorem Side.order_nil : d.order ([] : List α) = [] := by
  cases d <;> rfl

/-- On the way towards a side, a node comes between its two subtrees. -/
theorem Side.order_inorder_join {c : Color} : d.order (join d c a t u).inorder =
    d.order u.inorder ++ a :: d.order t.inorder := by
  cases d <;> simp [order, join, inorder]

/-- On the way towards a side, a subtree comes between what lies beyond it on both sides. -/
theorem order_inorder_plug : d.order (plug p t).inorder =
    (beyond d.other p).reverse ++ (d.order t.inorder ++ beyond d p) := by
  rw [inorder_plug]
  cases d <;> simp [Side.order, beyond, Side.other]

/-- Beyond a subtree that is on the side `d` of its parent, there is what is beyond the parent. -/
theorem beyond_cons_of_eq (hf : f.side = d) : beyond d (f :: p) = beyond d p := by
  subst hf
  cases hside : f.side <;> simp [beyond, before, after, Frame.before, Frame.after, hside]

/-- Beyond a subtree that is on the other side of its parent, there is the parent first. -/
theorem beyond_cons_of_ne (hf : f.side ≠ d) :
    beyond d (f :: p) = f.value :: (d.order f.sibling.inorder ++ beyond d p) := by
  obtain ⟨side, c, a, s⟩ := f
  cases d <;> cases side <;>
    simp_all [beyond, before, after, Frame.before, Frame.after, Side.order]

/-- Nothing is beyond a subtree that is on the side `d` of all nodes above it. -/
theorem beyond_eq_nil (hp : ∀ f ∈ p, f.side = d) : beyond d p = [] := by
  induction p with
  | nil => cases d <;> rfl
  | cons f p ih =>
    rw [beyond_cons_of_eq (hp f List.mem_cons_self),
      ih fun g hg => hp g (List.mem_cons_of_mem f hg)]

/-- The first node on the way towards a side is the last one on the way down the other side. -/
theorem order_plug_other {c : Color} (hq : ∀ f ∈ q, f.side = d.other) :
    d.order (plug q (join d.other c a .leaf u)).inorder =
      a :: (d.order u.inorder ++ beyond d q) := by
  rw [order_inorder_plug, beyond_eq_nil hq, join_other, Side.order_inorder_join]
  simp [inorder]

end ColoredTree
