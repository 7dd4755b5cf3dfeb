import Hixo.Rbtree.Walk
import Mathlib.Data.Fintype.Basic

/-!
# Runs on red-black trees

The operations of `rbtree.h`, on a memory that holds any number of trees. They do to the nodes what
the same operations do to sequences of nodes, whatever goes through a tree agrees with its sequence,
and the loops make a number of steps that is logarithmic in the number of nodes.

* `Represents`: the memory holds red-black trees with these sequences of nodes;
* `Op`, `Op.run`, `Op.apply`, `Op.Legal`: the operations in memory and on sequences;
* `Holds.insert`, `Holds.erase`, `Holds.replace`: one operation on one tree;
* `Agrees`, `Represents.agrees`: the ways through a tree;
* `Op.represents_step`, `rbtree_refines`: one operation, and a run.
-/

namespace Hixo.Rbtree

open ColoredTree RbTree RbNode Memory

variable {ρ : Type} [DecidableEq ρ] {m m' : Memory ρ} {r s : ρ} {own xs ys : List Addr}
  {a b parent : Addr} {c : Color} {d : Side} {t t' : RbTree Addr} {p : List (Frame Addr)}
  {link : Link ρ} {seqs : ρ → List Addr} {trees : ρ → RbTree Addr} {n fuel : ℕ}

/-! ## Operations -/

/-- `a` and `b`, with `a` on the side `d`. -/
def pair (d : Side) (a b : Addr) : List Addr :=
  match d with
  | .left => [a, b]
  | .right => [b, a]

/-- A sequence with `a` right beside `b`, on the side `d`. -/
def insertBeside (d : Side) (b a : Addr) : List Addr → List Addr
  | [] => []
  | x :: xs => if x = b then pair d a x ++ xs else x :: insertBeside d b a xs

/-- The sequence of a tree, when `a` is linked where a pointer is kept. -/
def insertAt (link : Link ρ) (a : Addr) (xs : List Addr) : List Addr :=
  match link with
  | .root _ => [a]
  | .child d b => insertBeside d b a xs

/-- The node is a child of `parent`, or the root when `parent` is `NULL`. -/
def Place (r : ρ) (xs : List Addr) (parent : Addr) : Link ρ → Prop
  | .root s => s = r ∧ parent = 0
  | .child _ b => b = parent ∧ parent ∈ xs

/-- An operation that changes a tree. -/
inductive Op (ρ : Type) where
  /-- `rb_link_node` and `rb_insert_color` -/
  | insert (r : ρ) (node parent : Addr) (link : Link ρ)
  /-- `rb_erase` -/
  | erase (r : ρ) (node : Addr)
  /-- `rb_replace_node` -/
  | replace (r : ρ) (victim new : Addr)

/-- The operation in memory. -/
def Op.run (fuel : ℕ) (m : Memory ρ) : Op ρ → Except Fault (Memory ρ)
  | .insert r a parent link => do
    let m ← rbLinkNode m a parent link
    rbInsertColor fuel m a r
  | .erase r a => rbErase fuel m a r
  | .replace r victim new => rbReplaceNode m victim new r

/-- The operation on the sequences. -/
def Op.apply (seqs : ρ → List Addr) : Op ρ → ρ → List Addr
  | .insert r a _ link => Function.update seqs r (insertAt link a (seqs r))
  | .erase r a => Function.update seqs r ((seqs r).erase a)
  | .replace r victim new =>
    Function.update seqs r ((seqs r).map fun x => if x = victim then new else x)

/-- The root whose tree is changed. -/
def Op.root : Op ρ → ρ
  | .insert r _ _ _ | .erase r _ | .replace r _ _ => r

/-- There is a node at this address, and it is in no tree. -/
structure Free (m : Memory ρ) (seqs : ρ → List Addr) (a : Addr) : Prop where
  valid : Valid a
  node : m.node a ≠ none
  notMem : ∀ r, a ∉ seqs r

/-- The nodes that are written. -/
def Op.writes (seqs : ρ → List Addr) : Op ρ → List Addr
  | .insert r a _ _ | .replace r _ a => a :: seqs r
  | .erase r _ => seqs r

/-- A node is inserted where a pointer of the tree is `NULL`, a node of the tree is erased or
replaced, and a node that comes into the tree is in no tree. -/
def Op.Legal (m : Memory ρ) (seqs : ρ → List Addr) : Op ρ → Prop
  | .insert r a parent link => Free m seqs a ∧ Place r (seqs r) parent link ∧ m.load link = .ok 0
  | .erase r a => a ∈ seqs r
  | .replace r victim new => victim ∈ seqs r ∧ Free m seqs new

section Decidable

variable [Fintype ρ]

instance (m : Memory ρ) (seqs : ρ → List Addr) (a : Addr) : Decidable (Free m seqs a) :=
  decidable_of_iff (Valid a ∧ m.node a ≠ none ∧ ∀ r, a ∉ seqs r)
    ⟨fun h => ⟨h.1, h.2.1, h.2.2⟩, fun h => ⟨h.valid, h.node, h.notMem⟩⟩

instance (r : ρ) (xs : List Addr) (parent : Addr) : ∀ link, Decidable (Place r xs parent link)
  | .root _ | .child _ _ => inferInstanceAs (Decidable (_ ∧ _))

instance (m : Memory ρ) (seqs : ρ → List Addr) : ∀ op : Op ρ, Decidable (op.Legal m seqs)
  | .insert _ _ _ _ => inferInstanceAs (Decidable (_ ∧ _ ∧ _))
  | .erase r a => inferInstanceAs (Decidable (a ∈ seqs r))
  | .replace _ _ _ => inferInstanceAs (Decidable (_ ∧ _))

end Decidable

/-- The memory holds red-black trees with these sequences of nodes, and no node is in two trees. -/
structure Represents (m : Memory ρ) (seqs : ρ → List Addr) : Prop where
  holds : ∀ r, ∃ t, Holds m r t ∧ RedBlack t ∧ t.inorder = seqs r
  separate : ∀ r s, r ≠ s → ∀ a ∈ seqs r, a ∉ seqs s

/-- Whatever goes through the tree of `r` agrees with its sequence. -/
structure Agrees (fuel : ℕ) (m : Memory ρ) (r : ρ) (xs : List Addr) : Prop where
  emptyRoot : rbEmptyRoot m r = xs.isEmpty
  emptyNode : ∀ a ∈ xs, rbEmptyNode m a = .ok false
  first : rbFirst fuel m r = .ok (xs.headD 0)
  last : rbLast fuel m r = .ok (xs.reverse.headD 0)
  next : ∀ ys a zs, xs = ys ++ a :: zs → rbNext fuel m a = .ok (zs.headD 0)
  prev : ∀ ys a zs, xs = ys ++ a :: zs → rbPrev fuel m a = .ok (ys.reverse.headD 0)
  forward : ∀ n > xs.length, (do visit (rbNext fuel m) n (← rbFirst fuel m r)) = .ok xs
  backward : ∀ n > xs.length, (do visit (rbPrev fuel m) n (← rbLast fuel m r)) = .ok xs.reverse

/-- Every operation of a sequence is legal, in the memory that the operations before it leave. -/
def Legal (fuel : ℕ) (m : Memory ρ) (seqs : ρ → List Addr) : List (Op ρ) → Prop
  | [] => True
  | op :: ops => op.Legal m seqs ∧ ∀ m', op.run fuel m = .ok m' → Legal fuel m' (op.apply seqs) ops

instance decidableLegal [Fintype ρ] (fuel : ℕ) :
    ∀ (m : Memory ρ) (seqs : ρ → List Addr) (ops : List (Op ρ)), Decidable (Legal fuel m seqs ops)
  | _, _, [] => isTrue trivial
  | m, seqs, op :: ops =>
    have := fun m' => decidableLegal fuel m' (op.apply seqs) ops
    inferInstanceAs (Decidable (op.Legal m seqs ∧
      ∀ m', op.run fuel m = .ok m' → Legal fuel m' (op.apply seqs) ops))

/-- In every state of a run, the memory holds red-black trees with the sequences that the operations
on sequences give, and the ways through them agree. Every operation returns, and writes only the
nodes of its tree and the node that comes into it. -/
def Refines (fuel : ℕ) (m : Memory ρ) (seqs : ρ → List Addr) : List (Op ρ) → Prop
  | [] => Represents m seqs ∧ ∀ r, Agrees fuel m r (seqs r)
  | op :: ops => Represents m seqs ∧ (∀ r, Agrees fuel m r (seqs r)) ∧
      ∃ m', op.run fuel m = .ok m' ∧ Unchanged (op.writes seqs) op.root m m' ∧
        Refines fuel m' (op.apply seqs) ops

/-! ## One operation on one tree -/

omit [DecidableEq ρ]

theorem insertBeside_append (hb : b ∉ xs) :
    insertBeside d b a (xs ++ b :: ys) = xs ++ (pair d a b ++ ys) := by
  induction xs with
  | nil => exact if_pos rfl
  | cons x xs ih =>
    rw [List.mem_cons, not_or] at hb
    rw [List.cons_append, insertBeside, if_neg (Ne.symm hb.1), ih hb.2]
    rfl

/-- In a sequence without repetitions, nothing before or after a node is the node itself. -/
theorem notMem_of_split (hxs : (xs ++ a :: ys).Nodup) : a ∉ xs ∧ a ∉ ys :=
  ⟨fun hmem => (List.nodup_append.mp hxs).2.2 a hmem a List.mem_cons_self rfl,
    (List.nodup_cons.mp (List.nodup_append.mp hxs).2.1).1⟩

/-- What is in a sequence into which `a` is inserted. -/
theorem insertAt_subset (link : Link ρ) : insertAt link a xs ⊆ a :: xs := by
  cases link with
  | root s => simp [insertAt]
  | child d b =>
    rw [insertAt]
    induction xs with
    | nil => simp [insertBeside]
    | cons x xs ih =>
      rw [insertBeside]
      split
      · cases d <;> simp [pair]
      · intro z hz
        rcases List.mem_cons.mp hz with rfl | hz
        · simp
        · have := ih hz
          simp only [List.mem_cons] at this ⊢
          tauto

theorem length_insertAt_le (link : Link ρ) : (insertAt link a xs).length ≤ xs.length + 1 := by
  cases link with
  | root s => simp [insertAt]
  | child d b =>
    rw [insertAt]
    induction xs with
    | nil => simp [insertBeside]
    | cons x xs ih =>
      rw [insertBeside]
      split
      · cases d <;> simp [pair]
      · simpa using ih

/-- A sequence without repetitions, with `b` in the place of `a`. -/
theorem map_replace (hxs : (xs ++ a :: ys).Nodup) :
    ((xs ++ a :: ys).map fun x => if x = a then b else x) = xs ++ b :: ys := by
  obtain ⟨hleft, hright⟩ := notMem_of_split hxs
  have hid : ∀ zs : List Addr, a ∉ zs → (zs.map fun x => if x = a then b else x) = zs :=
    fun zs hzs => (List.map_congr_left fun x hx => if_neg (ne_of_mem_of_not_mem hx hzs)).trans
      (List.map_id zs)
  rw [List.map_append, List.map_cons, if_pos rfl, hid xs hleft, hid ys hright]

/-- Where a pointer of the tree is `NULL`, there is an empty subtree. -/
theorem Holds.exists_leaf (h : Holds m r t) (hplace : Place r t.inorder parent link)
    (hload : m.load link = .ok 0) (a : Addr) :
    ∃ p, t = plug p .leaf ∧ parent = top 0 p ∧ link = linkAt r p ∧
      insertAt link a t.inorder = before p ++ a :: after p := by
  cases link with
  | root s =>
    obtain ⟨rfl, rfl⟩ := hplace
    have hroot : addr t = 0 := h.root.symm.trans (Except.ok.inj hload)
    obtain rfl : t = .leaf := (addr_eq_zero_iff h.valid).mp hroot
    exact ⟨[], rfl, rfl, rfl, rfl⟩
  | child d b =>
    obtain ⟨rfl, hmem⟩ := hplace
    obtain ⟨p, c, u, v, rfl⟩ : ∃ p c u v, t = plug p (join d c b u v) := by
      obtain ⟨p, c, l, x, rfl⟩ := exists_plug_of_mem hmem
      cases d
      · exact ⟨p, c, l, x, rfl⟩
      · exact ⟨p, c, x, l, rfl⟩
    have hfocus := h.focus_at
    have hchild : Focus m _ r m (⟨d, c, b, v⟩ :: p) u := focus_close.mpr hfocus
    have hleaf : addr u = 0 := by
      rw [Memory.load, hfocus.read, Programs.ok_bind, child_cell] at hload
      exact Except.ok.inj hload
    obtain rfl : u = .leaf := hchild.addr_eq_zero_iff.mp hleaf
    refine ⟨⟨d, c, b, v⟩ :: p, rfl, rfl, rfl, ?_⟩
    have hnodup := h.nodup
    rw [inorder_plug] at hnodup ⊢
    -- the node `b` with what comes before and after it
    cases d with
    | left =>
      have hsplit : before p ++ ((join .left c b .leaf v).inorder ++ after p) =
          before p ++ b :: (v.inorder ++ after p) := rfl
      rw [hsplit] at hnodup ⊢
      rw [insertAt, insertBeside_append (notMem_of_split hnodup).1]
      simp [pair, before, after, Frame.before, Frame.after]
    | right =>
      have hsplit : before p ++ ((join .right c b .leaf v).inorder ++ after p) =
          (before p ++ v.inorder) ++ b :: after p := by
        simp [join, inorder]
      rw [hsplit] at hnodup ⊢
      rw [insertAt, insertBeside_append (notMem_of_split hnodup).1]
      simp [pair, before, after, Frame.before, Frame.after]

variable [DecidableEq ρ]

/-- A node is linked into a tree at the end of a path, and the tree is mended. -/
theorem Holds.insert_plug (h : Holds m r (plug p .leaf)) (hrb : RedBlack (plug p .leaf))
    (hvalid : Valid a) (hnode : m.node a ≠ none) (hfresh : a ∉ (plug p .leaf).inorder)
    (hfuel : Nat.log 2 ((plug p .leaf).size + 1) < fuel) :
    ∃ m' t', (Op.insert r a (top 0 p) (linkAt r p)).run fuel m = .ok m' ∧ Holds m' r t' ∧
      RedBlack t' ∧ t'.inorder = before p ++ a :: after p ∧
      Unchanged (a :: (plug p .leaf).inorder) r m m' := by
  have hheight := hrb.height_le
  have hlength := length_add_height_le (p := p) (t := .leaf)
  obtain ⟨n, hleaf, hhole, -⟩ := redBlack_plug.mp hrb
  obtain rfl : n = 0 := hleaf
  have hfocus : Focus m (a :: (plug p .leaf).inorder) r m p .leaf :=
    focus_plug.mpr (h.focus fun _ hb => List.mem_cons_of_mem a hb)
  have hout : a ∉ outside p := fun hmem => hfresh (mem_inorder_plug.mpr (.inr hmem))
  obtain ⟨m₁, hrun₁, h₁⟩ := hfocus.rbLinkNode hvalid hnode hout List.mem_cons_self
  have hbal : Balanced (.node .red .leaf a .leaf) 0 := ⟨fun _ => ⟨rfl, rfl⟩, 0, rfl, rfl, rfl⟩
  have hfuel : p.length + 2 ≤ 2 * fuel := by omega
  obtain ⟨m₂, hrun₂, h₂⟩ := h₁.rbInsertColor rfl hhole hfuel
  refine ⟨m₂, _, (Programs.bind_of_eq_ok hrun₁).trans hrun₂, h₂.holds,
    insertFix_redBlack rfl hbal hhole, ?_, h₂.rest⟩
  rw [plug_nil, inorder_insertFix, inorder_plug]
  rfl

/-- A node is linked into a tree, and the tree is mended. -/
theorem Holds.insert (h : Holds m r t) (hrb : RedBlack t) (hvalid : Valid a)
    (hnode : m.node a ≠ none) (hfresh : a ∉ t.inorder) (hplace : Place r t.inorder parent link)
    (hload : m.load link = .ok 0) (hfuel : Nat.log 2 (t.size + 1) < fuel) :
    ∃ m' t', (Op.insert r a parent link).run fuel m = .ok m' ∧ Holds m' r t' ∧ RedBlack t' ∧
      t'.inorder = insertAt link a t.inorder ∧ Unchanged (a :: t.inorder) r m m' := by
  obtain ⟨p, rfl, rfl, rfl, hinsert⟩ := h.exists_leaf hplace hload a
  rw [hinsert]
  exact h.insert_plug hrb hvalid hnode hfresh hfuel

/-- A node is taken out of a tree, and the tree is mended. -/
theorem Holds.erase (h : Holds m r t) (hrb : RedBlack t) (ha : a ∈ t.inorder)
    (hfuel : 2 * Nat.log 2 (t.size + 1) ≤ fuel) :
    ∃ m' t', rbErase fuel m a r = .ok m' ∧ Holds m' r t' ∧ RedBlack t' ∧
      t'.inorder = t.inorder.erase a ∧ Unchanged t.inorder r m m' := by
  obtain ⟨xs, ys, hsplit⟩ := List.append_of_mem ha
  obtain ⟨p, c, u, v, rfl, rfl, rfl⟩ := h.exists_split hsplit
  obtain ⟨m', t', hrun, h', hrb', hinorder⟩ :=
    h.focus_at.rbErase hrb (hrb.height_le.trans hfuel)
  refine ⟨m', t', hrun, h'.holds, hrb', ?_, h'.rest⟩
  have hnodup := h.nodup
  rw [hsplit] at hnodup ⊢
  rw [List.erase_append_right _ (notMem_of_split hnodup).1, List.erase_cons_head, hinorder]
  simp

/-- `rb_replace_node` puts another node into the place of a node of the tree, and changes no other
nodes. -/
theorem Holds.replace (h : Holds m r t) (hrb : RedBlack t) (ha : a ∈ t.inorder) (hvalid : Valid b)
    (hnode : m.node b ≠ none) (hfresh : b ∉ t.inorder) :
    ∃ m' t', rbReplaceNode m a b r = .ok m' ∧ Holds m' r t' ∧ RedBlack t' ∧
      t'.inorder = (t.inorder.map fun x => if x = a then b else x) ∧
      Unchanged (b :: t.inorder) r m m' := by
  obtain ⟨xs, ys, hsplit⟩ := List.append_of_mem ha
  obtain ⟨p, c, u, v, rfl, rfl, rfl⟩ := h.exists_split hsplit
  have hfocus : Focus m (b :: (plug p (join .left c a u v)).inorder) r m p (join .left c a u v) :=
    focus_plug.mpr (h.focus fun _ hz => List.mem_cons_of_mem b hz)
  obtain ⟨m', hrun, h'⟩ := hfocus.rbReplaceNode hvalid hnode hfresh List.mem_cons_self
  refine ⟨m', _, hrun, h'.holds, ?_, ?_, h'.rest⟩
  · obtain ⟨n, hbal, hhole, htop⟩ := redBlack_plug.mp hrb
    exact redBlack_plug.mpr ⟨n, balanced_join.mpr (balanced_join.mp hbal), hhole, fun hred =>
      htop (color_join.trans (color_join.symm.trans hred))⟩
  · have hnodup := h.nodup
    rw [hsplit] at hnodup ⊢
    rw [map_replace hnodup, inorder_plug]
    simp [join, inorder]

/-! ## All trees -/

omit [DecidableEq ρ]

/-- The functions that go through a tree find its nodes in the order of the sequence. -/
theorem Holds.agrees (h : Holds m r t) (hfuel : t.height ≤ fuel) : Agrees fuel m r t.inorder where
  emptyRoot := by
    rw [rbEmptyRoot, h.root, Bool.eq_iff_iff, decide_eq_true_iff, addr_eq_zero_iff h.valid,
      List.isEmpty_iff, inorder_eq_nil]
  emptyNode _ := h.rbEmptyNode
  first := h.rbFirst hfuel
  last := h.rbLast hfuel
  next _ _ _ hsplit := h.rbNext hsplit hfuel
  prev _ _ _ hsplit := h.rbPrev hsplit hfuel
  forward _ hn := h.visit_next hfuel hn
  backward _ hn := h.visit_prev hfuel hn

/-- The functions that go through the trees find their nodes in the order of the sequences. -/
theorem Represents.agrees (h : Represents m seqs)
    (hfuel : ∀ r, 2 * Nat.log 2 ((seqs r).length + 1) ≤ fuel) (r : ρ) :
    Agrees fuel m r (seqs r) := by
  obtain ⟨t, ht, hrb, hseq⟩ := h.holds r
  have hfuel := hfuel r
  rw [← hseq, length_inorder] at hfuel
  exact hseq ▸ ht.agrees (hrb.height_le.trans hfuel)

/-- A tree is in every memory with the same nodes and the same root. -/
theorem Holds.congr (h : Holds m r t) (hroot : m'.rbNode r = m.rbNode r)
    (hnode : ∀ a ∈ t.inorder, m'.node a = m.node a) : Holds m' r t :=
  ⟨hroot.trans h.root, h.shape.congr hnode, h.nodup, h.valid⟩

variable [DecidableEq ρ]

/-- When one tree changes within its own nodes, all others stay what they were. -/
theorem Represents.update (h : Represents m seqs) (ht : Holds m' r t) (hrb : RedBlack t)
    (hseq : t.inorder = xs) (hrest : Unchanged own r m m')
    (hown : ∀ s, s ≠ r → ∀ a ∈ seqs s, a ∉ own) (hxs : ∀ a ∈ xs, a ∈ own) :
    Represents m' (Function.update seqs r xs) := by
  refine ⟨fun s => ?_, fun s s' hne a ha ha' => ?_⟩
  · rcases eq_or_ne s r with rfl | hs
    · exact ⟨t, ht, hrb, by rw [Function.update_self, hseq]⟩
    · obtain ⟨u, hu, hrbu, hsequ⟩ := h.holds s
      exact ⟨u, hu.congr (hrest.rbNode s hs) fun a ha => hrest.node a (hown s hs a (hsequ ▸ ha)),
        hrbu, by rw [Function.update_of_ne hs, hsequ]⟩
  · rcases eq_or_ne s r with rfl | hs
    · rw [Function.update_self] at ha
      rw [Function.update_of_ne (Ne.symm hne)] at ha'
      exact hown s' (Ne.symm hne) a ha' (hxs a ha)
    · rw [Function.update_of_ne hs] at ha
      rcases eq_or_ne s' r with rfl | hs'
      · rw [Function.update_self] at ha'
        exact hown s hs a ha (hxs a ha')
      · rw [Function.update_of_ne hs'] at ha'
        exact h.separate s s' hne a ha ha'

/-- One operation does to the memory what it does to the sequences. -/
theorem Op.represents_step {op : Op ρ} (h : Represents m seqs) (hlegal : op.Legal m seqs)
    (hfuel : 2 * Nat.log 2 ((seqs op.root).length + 1) < fuel) :
    ∃ m', op.run fuel m = .ok m' ∧ Unchanged (op.writes seqs) op.root m m' ∧
      Represents m' (op.apply seqs) := by
  obtain ⟨t, ht, hrb, hseq⟩ := h.holds op.root
  rw [← hseq, length_inorder] at hfuel
  cases op with
  | insert r a parent link =>
    obtain ⟨hfree, hplace, hload⟩ := hlegal
    have hfuel : Nat.log 2 (t.size + 1) < fuel := by omega
    obtain ⟨m', t', hrun, ht', hrb', hinorder, hrest⟩ := ht.insert hrb hfree.valid hfree.node
      (hseq ▸ hfree.notMem r) (hseq ▸ hplace) hload hfuel
    rw [hseq] at hinorder hrest
    refine ⟨m', hrun, hrest, h.update ht' hrb' hinorder hrest (fun s hs b hb hmem => ?_)
      fun b hb => insertAt_subset link hb⟩
    rcases List.mem_cons.mp hmem with rfl | hmem
    · exact hfree.notMem s hb
    · exact h.separate s r hs b hb hmem
  | erase r a =>
    have hmem : a ∈ t.inorder := hseq ▸ (hlegal : a ∈ seqs r)
    obtain ⟨m', t', hrun, ht', hrb', hinorder, hrest⟩ := ht.erase hrb hmem hfuel.le
    rw [hseq] at hinorder hrest
    exact ⟨m', hrun, hrest, h.update ht' hrb' hinorder hrest
      (fun s hs b hb => h.separate s r hs b hb) fun b hb => List.mem_of_mem_erase hb⟩
  | replace r a b =>
    obtain ⟨hmem, hfree⟩ := hlegal
    obtain ⟨m', t', hrun, ht', hrb', hinorder, hrest⟩ := ht.replace hrb (hseq ▸ hmem) hfree.valid
      hfree.node (hseq ▸ hfree.notMem r)
    rw [hseq] at hinorder hrest
    refine ⟨m', hrun, hrest, h.update ht' hrb' hinorder hrest (fun s hs z hz hmem => ?_)
      fun z hz => ?_⟩
    · rcases List.mem_cons.mp hmem with rfl | hmem
      · exact hfree.notMem s hz
      · exact h.separate s r hs z hz hmem
    · obtain ⟨x, hx, rfl⟩ := List.mem_map.mp hz
      split
      · exact List.mem_cons_self
      · exact List.mem_cons_of_mem b hx

theorem Op.length_apply_le (op : Op ρ) (r : ρ) :
    (op.apply seqs r).length ≤ (seqs r).length + 1 := by
  cases op with
  | insert s a parent link =>
    rcases eq_or_ne r s with rfl | hs
    · rw [Op.apply, Function.update_self]
      exact length_insertAt_le link
    · rw [Op.apply, Function.update_of_ne hs]
      exact Nat.le_succ _
  | erase s a =>
    rcases eq_or_ne r s with rfl | hs
    · rw [Op.apply, Function.update_self]
      exact (List.length_erase_le).trans (Nat.le_succ _)
    · rw [Op.apply, Function.update_of_ne hs]
      exact Nat.le_succ _
  | replace s a b =>
    rcases eq_or_ne r s with rfl | hs
    · rw [Op.apply, Function.update_self, List.length_map]
      exact Nat.le_succ _
    · rw [Op.apply, Function.update_of_ne hs]
      exact Nat.le_succ _

/-- Every sequence of legal operations, on any number of trees, does to the memory what it does to
the sequences of nodes. -/
theorem rbtree_refines {ops : List (Op ρ)} {n : ℕ} (h : Represents m seqs)
    (hlegal : Legal fuel m seqs ops) (hn : ∀ r, (seqs r).length + ops.length ≤ n)
    (hfuel : 2 * Nat.log 2 (n + 1) < fuel) : Refines fuel m seqs ops := by
  have hlog : ∀ r, 2 * Nat.log 2 ((seqs r).length + 1) < fuel := fun r =>
    lt_of_le_of_lt (Nat.mul_le_mul_left 2 (Nat.log_mono_right (by have := hn r; omega))) hfuel
  induction ops generalizing m seqs with
  | nil => exact ⟨h, h.agrees fun r => (hlog r).le⟩
  | cons op ops ih =>
    obtain ⟨m', hrun, hrest, h'⟩ := op.represents_step h hlegal.1 (hlog op.root)
    have hn' : ∀ r, (op.apply seqs r).length + ops.length ≤ n := fun r => by
      have hr := hn r
      have hle : (op.apply seqs r).length ≤ (seqs r).length + 1 := op.length_apply_le r
      rw [List.length_cons] at hr
      omega
    refine ⟨h, h.agrees fun r => (hlog r).le, m', hrun, hrest,
      ih h' (hlegal.2 m' hrun) hn' fun r => ?_⟩
    have hr := hn' r
    exact lt_of_le_of_lt (Nat.mul_le_mul_left 2 (Nat.log_mono_right (by omega))) hfuel

/-- The case of two empty trees and six nodes. The third node makes the first tree turn at its root,
and the fifth one turns it twice below. Then an inner node is erased, and another one is replaced by
a node that comes from the second tree. -/
theorem rbtree_refines_two_trees : Refines 8
    ⟨fun a => if a ∈ [8, 16, 24, 32, 40, 48] then some ⟨0, 0, 0⟩ else none, fun _ => 0⟩
    (fun _ => [])
    [.insert true 8 0 (.root true), .insert true 16 8 (.child .right 8),
      .insert true 24 16 (.child .right 16), .insert true 32 24 (.child .right 24),
      .insert true 40 32 (.child .left 32), .insert false 48 0 (.root false), .erase true 16,
      .erase false 48, .replace true 24 48] := by
  refine rbtree_refines (n := 9) ⟨fun _ => ⟨.leaf, ⟨rfl, trivial, List.nodup_nil, nofun⟩,
    ⟨rfl, 0, rfl⟩, rfl⟩, nofun⟩ ?_ (fun _ => le_rfl) (by decide)
  decide +kernel

end Hixo.Rbtree
