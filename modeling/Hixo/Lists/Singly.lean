import Hixo.Foundation.HeadedLists
import Hixo.Foundation.LinkedList

/-!
# Runs on singly linked lists

`add_node` and `rm_node` of `list.h`, on a heap that holds any number of lists. The operations on
the cells do what the same operations do to sequences of nodes.

* `Represents`: the heap holds these lists;
* `Op`, `Op.Legal`, `Op.apply`: the operations on sequences of nodes;
* `Op.Runs`, `Op.Effect`: the operations on the heap, and which cells they change;
* `Op.refines_step`, `singly_refines`: one operation, and a run.
-/

namespace Hixo.Lists.Singly

open LinkHeap HeadedLists

variable {α : Type} [DecidableEq α]

/-- The heap holds these lists, and no cell belongs to two of them. -/
structure Represents (h : LinkHeap α) (lists : HeadedLists α) : Prop where
  separate : Separate lists
  isList : All lists h.IsList

/-- An operation on the list of a head. -/
inductive Op (α : Type) where
  /-- `add_node` -/
  | addNode (head node : α)
  /-- `rm_node` -/
  | rmNode (head node : α)

/-- The head of the list that the operation is called for. -/
def Op.head : Op α → α
  | .addNode head _ | .rmNode head _ => head

/-- A node that is added is in no list. A node that is removed may be anywhere. -/
def Op.Legal (lists : HeadedLists α) : Op α → Prop
  | .addNode head node => (lists head).isSome ∧ Free lists node
  | .rmNode head _ => (lists head).isSome

instance [Fintype α] (lists : HeadedLists α) : ∀ op : Op α, Decidable (op.Legal lists)
  | .addNode _ _ => inferInstanceAs (Decidable (_ ∧ _))
  | .rmNode head _ => inferInstanceAs (Decidable (lists head).isSome)

/-- What the operation does to the sequences. -/
def Op.apply (lists : HeadedLists α) : Op α → HeadedLists α
  | .addNode head node =>
    Function.update lists head ((lists head).map fun nodes => node :: nodes)
  | .rmNode head node =>
    Function.update lists head ((lists head).map fun nodes => nodes.erase node)

/-- The operation on the heap ends with the heap `h'`. `rm_node` then returns `TRUE` if and only if
the node was a member. -/
def Op.Runs (lists : HeadedLists α) (h h' : LinkHeap α) : Op α → Prop
  | .addNode head node => h' = h.addNode head node
  | .rmNode head node => ∃ bound, ∀ fuel ≥ bound,
      h.rmNode node fuel head = some (decide (node ∈ (lists head).getD []), h')

/-- What the operation leaves as it is, and the link of a node that was removed. -/
def Op.Effect (lists : HeadedLists α) (h h' : LinkHeap α) : Op α → Prop
  | .addNode head node => ∀ c, c ≠ head → c ≠ node → h' c = h c
  | .rmNode head node =>
    if node ∈ (lists head).getD [] then
      h' node = none ∧ ∀ c ∉ head :: (lists head).getD [], h' c = h c
    else h' = h

/-- All cells of the other lists are as before. -/
def Others (lists : HeadedLists α) (h h' : LinkHeap α) (op : Op α) : Prop :=
  ∀ b nodes, b ≠ op.head → lists b = some nodes → ∀ c ∈ b :: nodes, h' c = h c

/-- Every operation of a sequence is legal. -/
def Legal (lists : HeadedLists α) : List (Op α) → Prop
  | [] => True
  | op :: ops => op.Legal lists ∧ Legal (op.apply lists) ops

instance decidableLegal [Fintype α] : ∀ (lists : HeadedLists α) (ops : List (Op α)),
    Decidable (Legal lists ops)
  | _, [] => isTrue trivial
  | lists, op :: ops =>
    have := decidableLegal (op.apply lists) ops
    inferInstanceAs (Decidable (op.Legal lists ∧ Legal (op.apply lists) ops))

/-- Every operation of a sequence ends, does to the heap what it does to the sequences of nodes, and
touches no other list. -/
def Refines (lists : HeadedLists α) (h : LinkHeap α) : List (Op α) → Prop
  | [] => Represents h lists
  | op :: ops => Represents h lists ∧ ∃ h', op.Runs lists h h' ∧ op.Effect lists h h' ∧
      Others lists h h' op ∧ Refines (op.apply lists) h' ops

variable {h h' : LinkHeap α} {lists : HeadedLists α} {head node : α} {nodes nodes' : List α}
  {op : Op α} {ops : List (Op α)}

/-- When only cells of one list and free cells change, the heap holds the same other lists. -/
theorem Represents.update (hrep : Represents h lists)
    (hcells : ∀ c ∈ head :: nodes', Free lists c ∨ ∃ nodes, lists head = some nodes ∧
      c ∈ head :: nodes)
    (hothers : ∀ b nodes, b ≠ head → lists b = some nodes → ∀ c ∈ b :: nodes, h' c = h c)
    (hlist : IsList h' head nodes') :
    Represents h' (Function.update lists head (some nodes')) :=
  ⟨hrep.separate.update hcells,
    All.update (fun b nodes hne hb => (hrep.isList b nodes hb).congr (hothers b nodes hne hb))
      hlist⟩

/-- `add_node` puts a free node at the front of a list. -/
theorem refines_addNode (hrep : Represents h lists) (hhead : lists head = some nodes)
    (hfree : Free lists node) :
    Others lists h (h.addNode head node) (.addNode head node) ∧
      Represents (h.addNode head node) (Op.apply lists (.addNode head node)) := by
  have hothers : Others lists h (h.addNode head node) (.addNode head node) := by
    intro b nodes' hne hb c hc
    -- the two cells that are written are the new node and the head of this list
    have hcn : c ≠ node := fun heq => hfree b nodes' hb (heq ▸ hc)
    have hch : c ≠ head := by
      rintro rfl
      exact hrep.separate c nodes b nodes' hhead hb (Ne.symm hne) c List.mem_cons_self hc
    exact addNode_of_ne hch hcn
  refine ⟨hothers, ?_⟩
  rw [Op.apply, hhead]
  exact hrep.update (cells_of_free hhead hfree fun c hc => List.mem_cons.mp hc) hothers
    ((hrep.isList head nodes hhead).addNode (hfree head nodes hhead))

/-- `rm_node` takes a member out of its list. -/
theorem refines_rmNode (hrep : Represents h lists) (hhead : lists head = some nodes)
    (hnode : node ∈ nodes) :
    ∃ h', (∀ fuel ≥ nodes.length + 1, h.rmNode node fuel head = some (true, h')) ∧
      h' node = none ∧ (∀ c ∉ head :: nodes, h' c = h c) ∧
      Others lists h h' (.rmNode head node) ∧
      Represents h' (Op.apply lists (.rmNode head node)) := by
  have hlist := hrep.isList head nodes hhead
  obtain ⟨h', hrun, hlist', hclear, hframe⟩ :=
    hlist.rmNode (Nat.lt_succ_self nodes.length) hnode
  -- the cells that are written belong to this list
  have hothers : Others lists h h' (.rmNode head node) := fun b nodes' hne hb c hc =>
    hframe c fun hmem => hrep.separate head nodes b nodes' hhead hb (Ne.symm hne) c hmem hc
  refine ⟨h', fun fuel hfuel => rmNode_mono hrun hfuel, hclear, hframe, hothers, ?_⟩
  rw [Op.apply, hhead]
  exact hrep.update (cells_of_subset hhead List.erase_subset) hothers hlist'

/-- One operation does to the heap what it does to the sequences of nodes. -/
theorem Op.refines_step (hrep : Represents h lists) (hlegal : op.Legal lists) :
    ∃ h', op.Runs lists h h' ∧ op.Effect lists h h' ∧ Others lists h h' op ∧
      Represents h' (op.apply lists) := by
  cases op with
  | addNode head node =>
    obtain ⟨nodes, hhead⟩ := Option.isSome_iff_exists.mp hlegal.1
    obtain ⟨hothers, hrep'⟩ := refines_addNode hrep hhead hlegal.2
    exact ⟨_, rfl, fun c hch hcn => addNode_of_ne hch hcn, hothers, hrep'⟩
  | rmNode head node =>
    obtain ⟨nodes, hhead⟩ := Option.isSome_iff_exists.mp hlegal
    have hget : (lists head).getD [] = nodes := by rw [hhead, Option.getD_some]
    by_cases hnode : node ∈ nodes
    · obtain ⟨h', hrun, hclear, hframe, hothers, hrep'⟩ := refines_rmNode hrep hhead hnode
      refine ⟨h', ⟨nodes.length + 1, ?_⟩, ?_, hothers, hrep'⟩
      · rwa [hget, decide_eq_true hnode]
      · rw [Effect, hget, if_pos hnode]
        exact ⟨hclear, hframe⟩
    · -- the search ends at the end of the list, and neither heap nor sequence changes
      have hlist := hrep.isList head nodes hhead
      refine ⟨h, ⟨nodes.length + 1, fun fuel hfuel => ?_⟩, ?_, fun _ _ _ _ _ _ => rfl, ?_⟩
      · rw [hget, decide_eq_false hnode]
        exact hlist.rmNode_of_notMem hfuel hnode
      · rw [Effect, hget, if_neg hnode]
      · have hsame : Op.apply lists (.rmNode head node) = lists := by
          rw [apply, hhead, Option.map_some, List.erase_of_not_mem hnode, ← hhead,
            Function.update_eq_self]
        rwa [hsame]

/-- Every sequence of legal operations does to the heap what it does to the sequences of nodes:
`add_node` prepends, `rm_node` ends and takes out exactly the node, and tells whether it was a
member, and the other lists are not touched. -/
theorem singly_refines (hrep : Represents h lists) (hlegal : Legal lists ops) :
    Refines lists h ops := by
  induction ops generalizing h lists with
  | nil => exact hrep
  | cons op ops ih =>
    obtain ⟨h', hruns, heffect, hothers, hrep'⟩ := Op.refines_step hrep hlegal.1
    exact ⟨hrep, h', hruns, heffect, hothers, ih hrep' hlegal.2⟩

/-- The case of two lists at 0 and 1. A node is removed from the middle of the first one and added
to the second one, and `rm_node` is called for a node of the other list and for one that is in
none. -/
theorem singly_refines_two_lists :
    Refines (fun c : Fin 7 => if c = 0 ∨ c = 1 then some [] else none) unlinked
      [.addNode 0 2, .addNode 0 3, .addNode 0 4, .addNode 1 5, .rmNode 0 3, .rmNode 0 5,
        .addNode 1 3, .rmNode 1 5, .rmNode 0 6] :=
  singly_refines ⟨by decide, by decide⟩ (by decide)

end Hixo.Lists.Singly
