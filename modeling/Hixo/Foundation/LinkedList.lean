import Mathlib.Data.List.Nodup

/-!
# Singly linked lists in a heap of link cells

A link cell holds the address of another cell or `NULL`. A list starts in a head cell and runs
through the cells of its nodes; several lists live in one heap.

* `addNode`, `rmNode`: the pointer operations;
* `IsList h a xs`: the list that starts in cell `a` runs through the nodes `xs` and ends;
* `IsList.nodup`: such a list does not meet itself;
* `IsList.addNode`, `IsList.rmNode`: what the operations do to a list;
* `IsList.rmNode_of_notMem`: the search for what is not in a list;
* `IsList.congr`: they leave all lists alone whose cells they do not write.
-/

/-- A heap of link cells: the cell that each cell points to, `none` for `NULL`. -/
def LinkHeap (α : Type) : Type := α → Option α

namespace LinkHeap

variable {α : Type} [DecidableEq α]

/-- All cells point to `NULL`. -/
def unlinked : LinkHeap α := fun _ => none

/-- Let the cell `c` point to `next`. -/
def link (h : LinkHeap α) (c : α) (next : Option α) : LinkHeap α :=
  fun x => if x = c then next else h x

/-- Put `node` at the front of the list that starts in cell `head`. -/
def addNode (h : LinkHeap α) (head node : α) : LinkHeap α :=
  (h.link node (h head)).link head (some node)

/-- Take `node` out of the list that starts in cell `curr` and clear its link. The result says
whether it was found; `none` when the search did not end within `fuel` cells. -/
def rmNode (h : LinkHeap α) (node : α) : ℕ → α → Option (Bool × LinkHeap α)
  | 0, _ => none
  | fuel + 1, curr =>
    match h curr with
    | none => some (false, h)
    | some next =>
      if next = node then
        some (true, (h.link curr (h node)).link node none)
      else rmNode h node fuel next

/-- The list that starts in cell `a` runs through the cells `xs` and ends. -/
def IsList (h : LinkHeap α) : α → List α → Prop
  | a, [] => h a = none
  | a, x :: xs => h a = some x ∧ IsList h x xs

instance decidableIsList (h : LinkHeap α) : ∀ a xs, Decidable (h.IsList a xs)
  | a, [] => inferInstanceAs (Decidable (h a = none))
  | a, x :: xs =>
    have := decidableIsList h x xs
    inferInstanceAs (Decidable (h a = some x ∧ h.IsList x xs))

variable {h h' : LinkHeap α} {a node : α} {xs ys : List α}

/-- A cell whose link was set has that link. -/
@[simp]
theorem link_self (h : LinkHeap α) (c : α) (next : Option α) : h.link c next c = next :=
  if_pos rfl

/-- Setting the link of a cell leaves all others alone. -/
theorem link_of_ne (h : LinkHeap α) {c x : α} (next : Option α) (hne : x ≠ c) :
    h.link c next x = h x :=
  if_neg hne

/-! ## Lists -/

omit [DecidableEq α] in
/-- A list depends only on its own cells. -/
theorem IsList.congr (hlist : IsList h a xs) (heq : ∀ c ∈ a :: xs, h' c = h c) :
    IsList h' a xs := by
  induction xs generalizing a with
  | nil => exact (heq a (by simp)).trans hlist
  | cons x xs ih =>
    exact ⟨(heq a (by simp)).trans hlist.1,
      ih hlist.2 fun c hc => heq c (List.mem_cons_of_mem _ hc)⟩

omit [DecidableEq α] in
/-- The head cell determines the list. -/
theorem IsList.unique (hxs : IsList h a xs) (hys : IsList h a ys) : xs = ys := by
  induction xs generalizing a ys with
  | nil =>
    cases ys with
    | nil => rfl
    | cons y ys => exact absurd (hxs.symm.trans hys.1) (by simp)
  | cons x xs ih =>
    cases ys with
    | nil => exact absurd (hys.symm.trans hxs.1) (by simp)
    | cons y ys =>
      -- both lists go on with the same cell
      obtain rfl : x = y := Option.some.inj (hxs.1.symm.trans hys.1)
      rw [ih hxs.2 hys.2]

omit [DecidableEq α] in
/-- From a node on, a list is the list of that node. -/
theorem IsList.of_append {zs : List α} {x : α} (hlist : IsList h a (zs ++ x :: xs)) :
    IsList h x xs := by
  induction zs generalizing a with
  | nil => exact hlist.2
  | cons z zs ih => exact ih hlist.2

omit [DecidableEq α] in
/-- A list passes through its head cell and through every node once. -/
theorem IsList.nodup (hlist : IsList h a xs) : (a :: xs).Nodup := by
  -- a cell that comes twice would start two lists of different lengths
  have hfresh {a : α} {xs : List α} (hlist : IsList h a xs) : a ∉ xs := by
    intro hmem
    obtain ⟨zs, ys, rfl⟩ := List.append_of_mem hmem
    have hlen := congrArg List.length (hlist.unique hlist.of_append)
    simp only [List.length_append, List.length_cons] at hlen
    omega
  induction xs generalizing a with
  | nil => simp
  | cons x xs ih => exact List.nodup_cons.mpr ⟨hfresh hlist, ih hlist.2⟩

omit [DecidableEq α] in
/-- An empty list ends at its head. -/
@[simp]
theorem isList_nil : IsList h a [] ↔ h a = none := Iff.rfl

omit [DecidableEq α] in
/-- A list goes on from its first cell. -/
@[simp]
theorem isList_cons {x : α} : IsList h a (x :: xs) ↔ h a = some x ∧ IsList h x xs := Iff.rfl

/-! ## Adding a node -/

/-- After `addNode` the head leads to the new node. -/
theorem addNode_head (h : LinkHeap α) (head node : α) : addNode h head node head = some node :=
  link_self ..

/-- `addNode` changes no other cell than the head and the node. -/
theorem addNode_of_ne {head c : α} (hhead : c ≠ head) (hnode : c ≠ node) :
    addNode h head node c = h c := by
  rw [addNode, link_of_ne _ _ hhead, link_of_ne _ _ hnode]

/-- A node outside of a list becomes its first node. -/
theorem IsList.addNode (hlist : IsList h a xs) (hnode : node ∉ a :: xs) :
    IsList (h.addNode a node) a (node :: xs) := by
  have hne : node ≠ a := fun heq => hnode (heq ▸ List.mem_cons_self)
  have hlink : h.addNode a node node = h a := by
    -- the link of the new node is set first, and then the head
    rw [LinkHeap.addNode, link_of_ne _ _ hne, link_self]
  refine ⟨addNode_head h a node, ?_⟩
  cases xs with
  | nil => exact hlink.trans hlist
  | cons x xs =>
    refine ⟨hlink.trans hlist.1, hlist.2.congr fun c hc => addNode_of_ne ?_ ?_⟩
    · rintro rfl
      exact (List.nodup_cons.mp hlist.nodup).1 hc
    · rintro rfl
      exact hnode (List.mem_cons_of_mem _ hc)

/-! ## Removing a node -/

/-- A search that ended ends the same way with more fuel. -/
theorem rmNode_mono {fuel fuel' : ℕ} {r : Bool × LinkHeap α}
    (hrun : h.rmNode node fuel a = some r) (hle : fuel ≤ fuel') :
    h.rmNode node fuel' a = some r := by
  induction fuel generalizing a fuel' with
  | zero => cases hrun
  | succ fuel ih =>
    obtain ⟨fuel', rfl⟩ := Nat.exists_eq_succ_of_ne_zero (Nat.ne_of_gt (Nat.zero_lt_of_lt hle))
    -- the search takes the same branch at every cell
    rw [rmNode] at hrun ⊢
    cases hnext : h a with
    | none =>
      rw [hnext] at hrun
      exact hrun
    | some next =>
      rw [hnext] at hrun
      dsimp only at hrun ⊢
      split at hrun
      · rwa [if_pos ‹_›]
      · rw [if_neg ‹_›]
        exact ih hrun (Nat.le_of_succ_le_succ hle)

/-- A node of a list is taken out, its link is cleared, and no cell outside of the list
changes. -/
theorem IsList.rmNode {fuel : ℕ} (hlist : IsList h a xs) (hfuel : xs.length < fuel)
    (hnode : node ∈ xs) :
    ∃ h', h.rmNode node fuel a = some (true, h') ∧ IsList h' a (xs.erase node) ∧
      h' node = none ∧ ∀ c ∉ a :: xs, h' c = h c := by
  induction xs generalizing a fuel with
  | nil => simp at hnode
  | cons x xs ih =>
    obtain ⟨fuel, rfl⟩ := Nat.exists_eq_succ_of_ne_zero (Nat.ne_of_gt (Nat.zero_lt_of_lt hfuel))
    have hnodup := List.nodup_cons.mp hlist.nodup
    have hax : a ≠ x := fun heq => hnodup.1 (heq ▸ List.mem_cons_self)
    rw [LinkHeap.rmNode, hlist.1]
    by_cases heq : x = node
    · -- the first node goes: its link moves into the head cell
      subst heq
      simp only [if_true, List.erase_cons_head]
      refine ⟨_, rfl, ?_, link_self .., fun c hc => ?_⟩
      · have hhead : (h.link a (h x)).link x none a = h x := by
          rw [link_of_ne _ _ hax, link_self]
        have htail : ∀ c ∈ xs, (h.link a (h x)).link x none c = h c := by
          intro c hc
          have hcx : c ≠ x := fun heq => (List.nodup_cons.mp hnodup.2).1 (heq ▸ hc)
          have hca : c ≠ a := fun heq => hnodup.1 (List.mem_cons_of_mem _ (heq ▸ hc))
          rw [link_of_ne _ _ hcx, link_of_ne _ _ hca]
        cases xs with
        | nil => exact hhead.trans hlist.2
        | cons y ys => exact ⟨hhead.trans hlist.2.1, hlist.2.2.congr htail⟩
      · have hcx : c ≠ x := fun heq => hc (heq ▸ by simp)
        have hca : c ≠ a := fun heq => hc (heq ▸ by simp)
        rw [link_of_ne _ _ hcx, link_of_ne _ _ hca]
    · -- the node is further back: the loop goes on with the link of the first node
      simp only [heq, if_false]
      have hmem : node ∈ xs := (List.mem_cons.mp hnode).resolve_left (Ne.symm heq)
      have hrest : xs.length < fuel := Nat.lt_of_succ_lt_succ hfuel
      obtain ⟨h', hrm, hlist', hclear, hframe⟩ := ih hlist.2 hrest hmem
      refine ⟨h', hrm, ?_, hclear, fun c hc => hframe c fun hc' => hc (List.mem_cons_of_mem _ hc')⟩
      rw [List.erase_cons_tail (by simpa using heq)]
      exact ⟨(hframe a hnodup.1).trans hlist.1, hlist'⟩

/-- What is not a node of the list is not found, and nothing changes. -/
theorem IsList.rmNode_of_notMem {fuel : ℕ} (hlist : IsList h a xs) (hfuel : xs.length < fuel)
    (hnode : node ∉ xs) : h.rmNode node fuel a = some (false, h) := by
  induction xs generalizing a fuel with
  | nil =>
    obtain ⟨fuel, rfl⟩ := Nat.exists_eq_succ_of_ne_zero (Nat.ne_of_gt hfuel)
    rw [LinkHeap.rmNode, hlist]
  | cons x xs ih =>
    obtain ⟨fuel, rfl⟩ := Nat.exists_eq_succ_of_ne_zero (Nat.ne_of_gt (Nat.zero_lt_of_lt hfuel))
    obtain ⟨hne, hnode⟩ := List.ne_and_not_mem_of_not_mem_cons hnode
    simp only [LinkHeap.rmNode, hlist.1, if_neg (Ne.symm hne)]
    exact ih hlist.2 (Nat.lt_of_succ_lt_succ hfuel) hnode

end LinkHeap
