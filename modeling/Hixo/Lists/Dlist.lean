import Hixo.Foundation.HeadedLists
import Hixo.Foundation.RingBackward

/-!
# Runs on doubly linked rings

The operations `dlist_*` of `list.h`, on a heap that holds any number of rings. They do to the cells
what the same operations do to sequences of nodes, and whatever reads a ring agrees with its
sequence.

* `Represents`: the heap holds these rings;
* `Op`, `Op.run`, `Op.apply`, `Op.Legal`: the operations on the heap and on sequences of nodes;
* `forEachF`, `forEachP`, `forEachFSafe`, `forEachPSafe`: the nodes that the loops visit;
* `Agrees`, `Represents.agrees`: what is read from a ring;
* `Op.represents_step`, `dlist_refines`: one operation, and a run.
-/

namespace Hixo.Lists.Dlist

open RingHeap HeadedLists

variable {α : Type} [DecidableEq α]

/-- The heap holds these rings, and no cell belongs to two of them. -/
structure Represents (h : RingHeap α) (rings : HeadedLists α) : Prop where
  separate : Separate rings
  isRing : All rings h.IsRing

/-! ## Operations -/

/-- An operation that changes rings. -/
inductive Op (α : Type) where
  /-- `dlist_init` -/
  | init (node : α)
  /-- `dlist_add_head` -/
  | addHead (list node : α)
  /-- `dlist_add_tail` -/
  | addTail (list node : α)
  /-- `dlist_del` -/
  | del (node : α)
  /-- `dlist_merge` -/
  | merge (head body : α)

/-- The operation on the heap. -/
def Op.run (h : RingHeap α) : Op α → RingHeap α
  | .init node => h.init node
  | .addHead list node => h.addHead list node
  | .addTail list node => h.addTail list node
  | .del node => h.del node
  | .merge head body => h.merge head body

/-- The operation on the sequences. -/
def Op.apply (rings : HeadedLists α) : Op α → HeadedLists α
  | .init node => Function.update rings node (some [])
  | .addHead list node => Function.update rings list ((rings list).map fun nodes => node :: nodes)
  | .addTail list node => Function.update rings list ((rings list).map fun nodes => nodes ++ [node])
  | .del node => rings.erase node
  | .merge head body =>
    Function.update (Function.update rings body (some [])) head
      (some ((rings head).getD [] ++ (rings body).getD []))

/-- A node that is added or made a head is in no ring, one that is taken out is a member of a ring,
and two rings that are merged are different. -/
def Op.Legal (rings : HeadedLists α) : Op α → Prop
  | .init node => Free rings node
  | .addHead list node | .addTail list node => (rings list).isSome ∧ Free rings node
  | .del node => ∃ list nodes, rings list = some nodes ∧ node ∈ nodes
  | .merge head body => (rings head).isSome ∧ (rings body).isSome ∧ head ≠ body

instance [Fintype α] (rings : HeadedLists α) : ∀ op : Op α, Decidable (op.Legal rings)
  | .init node => inferInstanceAs (Decidable (Free rings node))
  | .addHead _ _ | .addTail _ _ => inferInstanceAs (Decidable (_ ∧ _))
  | .del node => inferInstanceAs (Decidable (∃ list, ∃ nodes ∈ rings list, node ∈ nodes))
  | .merge _ _ => inferInstanceAs (Decidable (_ ∧ _ ∧ _))

/-- The operation is on the ring of `list`. -/
def Op.Involves (rings : HeadedLists α) (list : α) : Op α → Prop
  | .init node => list = node
  | .addHead head _ | .addTail head _ => list = head
  | .del node => node ∈ (rings list).getD []
  | .merge head body => list = head ∨ list = body

/-- All cells of the other rings are as before. -/
def Others (rings : HeadedLists α) (h h' : RingHeap α) (op : Op α) : Prop :=
  ∀ list nodes, ¬op.Involves rings list → rings list = some nodes →
    ∀ c ∈ list :: nodes, Same h h' c

/-! ## What is read from a ring -/

/-- `dlist_for_each_f`: the nodes that the loop visits. -/
def forEachF : RingHeap α → α → ℕ → Except Unit (List α) := visit id

/-- `dlist_for_each_p`: the nodes that the loop visits. -/
def forEachP : RingHeap α → α → ℕ → Except Unit (List α) := visit RingHeap.flip

/-- `dlist_for_each_f_safe` with a body that deletes the doomed nodes: the nodes that the loop
visits, and the heap after it. -/
def forEachFSafe (doomed : α → Bool) :
    RingHeap α → α → ℕ → Except Unit (List α × RingHeap α) := visitSafe id doomed

/-- `dlist_for_each_p_safe` with a body that deletes the doomed nodes: the nodes that the loop
visits, and the heap after it. -/
def forEachPSafe (doomed : α → Bool) :
    RingHeap α → α → ℕ → Except Unit (List α × RingHeap α) := visitSafe RingHeap.flip doomed

/-- Whatever reads the ring of `list` agrees with its sequence of nodes. -/
structure Agrees (h : RingHeap α) (rings : HeadedLists α) (list : α) (nodes : List α) : Prop where
  prev_next : ∀ c ∈ list :: nodes, h.prev (h.next c) = c
  next_prev : ∀ c ∈ list :: nodes, h.next (h.prev c) = c
  isEmpty : h.isEmpty list = nodes.isEmpty
  getHead : h.getHead list = nodes.head?
  getTail : h.getTail list = nodes.getLast?
  forward : ∀ fuel > nodes.length, forEachF h list fuel = .ok nodes
  backward : ∀ fuel > nodes.length, forEachP h list fuel = .ok nodes.reverse
  forwardSafe : ∀ doomed : α → Bool, ∀ fuel > nodes.length, ∃ h',
    forEachFSafe doomed h list fuel = .ok (nodes, h') ∧
      Represents h' (Function.update rings list (some (nodes.filter fun x => !doomed x))) ∧
      ∀ c ∉ list :: nodes, Same h h' c
  backwardSafe : ∀ doomed : α → Bool, ∀ fuel > nodes.length, ∃ h',
    forEachPSafe doomed h list fuel = .ok (nodes.reverse, h') ∧
      Represents h' (Function.update rings list (some (nodes.filter fun x => !doomed x))) ∧
      ∀ c ∉ list :: nodes, Same h h' c

/-- Every operation of a sequence is legal. -/
def Legal (rings : HeadedLists α) : List (Op α) → Prop
  | [] => True
  | op :: ops => op.Legal rings ∧ Legal (op.apply rings) ops

instance decidableLegal [Fintype α] : ∀ (rings : HeadedLists α) (ops : List (Op α)),
    Decidable (Legal rings ops)
  | _, [] => isTrue trivial
  | rings, op :: ops =>
    have := decidableLegal (op.apply rings) ops
    inferInstanceAs (Decidable (op.Legal rings ∧ Legal (op.apply rings) ops))

/-- In every state of a run, the heap holds the rings that the operations on sequences give, and
what is read from them agrees. Every operation leaves the other rings as they are. -/
def Refines (rings : HeadedLists α) (h : RingHeap α) : List (Op α) → Prop
  | [] => Represents h rings ∧ All rings (Agrees h rings)
  | op :: ops => Represents h rings ∧ All rings (Agrees h rings) ∧ Others rings h (op.run h) op ∧
      Refines (op.apply rings) (op.run h) ops

/-! ## Reading -/

variable {h h' : RingHeap α} {rings : HeadedLists α} {list node head body : α}
  {nodes nodes' : List α} {op : Op α} {ops : List (Op α)}

/-- When only cells of one ring and free cells change, the heap holds the same other rings. -/
theorem Represents.update (hrep : Represents h rings)
    (hcells : ∀ c ∈ list :: nodes', Free rings c ∨ ∃ nodes, rings list = some nodes ∧
      c ∈ list :: nodes)
    (hothers : ∀ b nodes, b ≠ list → rings b = some nodes → ∀ c ∈ b :: nodes, Same h h' c)
    (hring : IsRing h' list nodes') :
    Represents h' (Function.update rings list (some nodes')) :=
  ⟨hrep.separate.update hcells,
    All.update (fun b nodes hne hb => (hrep.isRing b nodes hb).congr (hothers b nodes hne hb))
      hring⟩

omit [DecidableEq α] in
/-- A cell of one ring is in no other one. -/
theorem Represents.notMem (hrep : Represents h rings) (hlist : rings list = some nodes) {b c : α}
    (hne : b ≠ list) (hb : rings b = some nodes') (hc : c ∈ b :: nodes') : c ∉ list :: nodes :=
  hrep.separate b nodes' list nodes hb hlist hne c hc

/-- A ring from which some nodes were taken out, in a heap that is otherwise the same. -/
theorem Represents.filter (hrep : Represents h rings) (hlist : rings list = some nodes)
    {p : α → Bool} (hring : IsRing h' list (nodes.filter p))
    (hsame : ∀ c ∉ list :: nodes, Same h h' c) :
    Represents h' (Function.update rings list (some (nodes.filter p))) := by
  have hothers : ∀ b nodes, b ≠ list → rings b = some nodes → ∀ c ∈ b :: nodes, Same h h' c :=
    fun b nodes' hne hb c hc => hsame c (hrep.notMem hlist hne hb hc)
  exact hrep.update (cells_of_subset hlist (List.filter_subset_self nodes)) hothers hring

/-- What is read from a ring agrees with its sequence. -/
theorem Represents.agrees (hrep : Represents h rings) : All rings (Agrees h rings) := by
  intro list nodes hlist
  have hring := hrep.isRing list nodes hlist
  refine ⟨fun c => hring.prev_next, fun c => hring.next_prev, hring.isEmpty_eq, hring.getHead_eq,
    hring.getTail_eq, fun fuel => visit_eq hring, fun fuel hfuel => ?_, fun doomed fuel hfuel => ?_,
    fun doomed fuel hfuel => ?_⟩
  · -- backward, the loop runs through the ring of the flipped heap
    exact visit_eq hring.flip (by simpa using hfuel)
  · obtain ⟨h', hrun, hring', hsame⟩ := visitSafe_eq id doomed (fun _ _ => rfl) hring hfuel
    exact ⟨h', hrun, hrep.filter hlist hring' hsame, hsame⟩
  · obtain ⟨h', hrun, hring', hsame⟩ :=
      visitSafe_eq RingHeap.flip doomed (fun _ _ => flip_del) hring.flip (by simpa using hfuel)
    -- what is left of the flipped ring, read forward
    have hring'' : IsRing h' list (nodes.filter fun x => !doomed x) := by
      simpa [List.filter_reverse] using hring'.flip
    have hsame' : ∀ c ∉ list :: nodes, Same h h' c := fun c hc => (hsame c (by simpa using hc)).flip
    exact ⟨h', hrun, hrep.filter hlist hring'' hsame', hsame'⟩

/-! ## One operation -/

/-- When a free node comes into one ring, the other rings stay as they are. -/
theorem Represents.add (hrep : Represents h rings) (hlist : rings list = some nodes)
    (hfree : Free rings node) (hnew : ∀ c ∈ nodes', c = node ∨ c ∈ nodes)
    (hsame : ∀ c ∉ node :: list :: nodes, Same h h' c) (hring : IsRing h' list nodes') :
    (∀ b nodes, b ≠ list → rings b = some nodes → ∀ c ∈ b :: nodes, Same h h' c) ∧
      Represents h' (Function.update rings list (some nodes')) := by
  have hothers : ∀ b nodes, b ≠ list → rings b = some nodes → ∀ c ∈ b :: nodes, Same h h' c := by
    intro b nodes'' hne hb c hc
    refine hsame c fun hmem => ?_
    -- the cell is neither the new node, which is in no ring, nor one of this ring
    rcases List.mem_cons.mp hmem with rfl | hmem
    · exact hfree b nodes'' hb hc
    · exact hrep.notMem hlist hne hb hc hmem
  exact ⟨hothers, hrep.update (cells_of_free hlist hfree hnew) hothers hring⟩

/-- `dlist_del` takes a node out of its ring, and leaves the other rings as they are. -/
theorem Represents.del (hrep : Represents h rings) (hlist : rings list = some nodes)
    (hnode : node ∈ nodes) :
    (∀ c ∉ list :: nodes, Same h (h.del node) c) ∧ Represents (h.del node) (rings.erase node) := by
  have hring := hrep.isRing list nodes hlist
  rw [erase_eq_update hrep.separate hlist hnode]
  obtain ⟨left, right, rfl⟩ := List.append_of_mem hnode
  -- the node is not met before its place
  have hleft : node ∉ left := fun hmem =>
    (List.nodup_append.mp (List.nodup_cons.mp hring.nodup).2).2.2 node hmem node
      List.mem_cons_self rfl
  have hsame : ∀ c ∉ list :: (left ++ node :: right), Same h (h.del node) c :=
    fun c hc => hring.del_same hc
  have hothers : ∀ b nodes, b ≠ list → rings b = some nodes →
      ∀ c ∈ b :: nodes, Same h (h.del node) c :=
    fun b nodes hne hb c hc => hsame c (hrep.notMem hlist hne hb hc)
  refine ⟨hsame, hrep.update (cells_of_subset hlist List.erase_subset) hothers ?_⟩
  rw [List.erase_append_right _ hleft, List.erase_cons_head]
  exact hring.del

/-- The nodes of a ring are moved to the end of another one. -/
theorem Represents.merge (hrep : Represents h rings) (hhead : rings head = some nodes)
    (hbody : rings body = some nodes') (hne : head ≠ body) :
    (∀ b nodes, b ≠ head → b ≠ body → rings b = some nodes →
      ∀ c ∈ b :: nodes, Same h (h.merge head body) c) ∧
      Represents (h.merge head body) (Function.update (Function.update rings body (some []))
        head (some (nodes ++ nodes'))) := by
  obtain ⟨hring, hempty, hsame⟩ := (hrep.isRing head nodes hhead).merge
    (hrep.isRing body nodes' hbody) (hrep.separate head nodes body nodes' hhead hbody hne)
  have hothers : ∀ b nodes, b ≠ head → b ≠ body → rings b = some nodes →
      ∀ c ∈ b :: nodes, Same h (h.merge head body) c := by
    intro b nodes'' hbh hbb hb c hc
    -- the cells that `merge` writes are those of the two rings
    have hch := hrep.notMem hhead hbh hb hc
    have hcb := hrep.notMem hbody hbb hb hc
    refine hsame c fun hmem => ?_
    simp only [List.mem_cons, List.mem_append] at hmem hch hcb
    tauto
  refine ⟨hothers, ?_, ?_⟩
  · exact hrep.separate.merge hhead hbody hne (List.nodup_cons.mp (hrep.isRing _ _ hbody).nodup).1
  · refine All.update (fun b nodes'' hbh hb => ?_) hring
    -- the second ring is empty afterwards, and the others are as before
    by_cases hbb : b = body
    · subst hbb
      rw [Function.update_self] at hb
      exact Option.some.inj hb ▸ hempty
    · rw [Function.update_of_ne hbb] at hb
      exact (hrep.isRing b nodes'' hb).congr (hothers b nodes'' hbh hbb hb)

/-- One operation does to the heap what it does to the sequences of nodes. -/
theorem Op.represents_step (hrep : Represents h rings) (hlegal : op.Legal rings) :
    Others rings h (op.run h) op ∧ Represents (op.run h) (op.apply rings) := by
  cases op with
  | init node =>
    have hothers : ∀ b nodes, b ≠ node → rings b = some nodes →
        ∀ c ∈ b :: nodes, Same h (h.init node) c := by
      intro b nodes _ hb c hc
      -- the node is in no ring, and no other cell is written
      refine init_same ?_
      rintro rfl
      exact hlegal b nodes hb hc
    refine ⟨hothers, hrep.update (fun c hc => .inl ?_) hothers isRing_init⟩
    rwa [List.mem_singleton.mp hc]
  | addHead list node =>
    obtain ⟨nodes, hlist⟩ := Option.isSome_iff_exists.mp hlegal.1
    have hring := hrep.isRing list nodes hlist
    have hnode := hlegal.2 list nodes hlist
    rw [apply, hlist]
    exact hrep.add hlist hlegal.2 (fun c hc => List.mem_cons.mp hc)
      (fun c hc => hring.addHead_same hnode hc) (hring.addHead hnode)
  | addTail list node =>
    obtain ⟨nodes, hlist⟩ := Option.isSome_iff_exists.mp hlegal.1
    have hring := hrep.isRing list nodes hlist
    have hnode := hlegal.2 list nodes hlist
    rw [apply, hlist]
    refine hrep.add hlist hlegal.2 (fun c hc => ?_) (fun c hc => hring.addTail_same hc)
      (hring.addTail hnode)
    simpa [or_comm] using hc
  | del node =>
    obtain ⟨list, nodes, hlist, hnode⟩ := hlegal
    obtain ⟨hsame, hrep'⟩ := hrep.del hlist hnode
    -- a ring that the node is not in is another one
    refine ⟨fun b nodes' hnot hb c hc => hsame c (hrep.notMem hlist ?_ hb hc), hrep'⟩
    rintro rfl
    refine hnot ?_
    rwa [Involves, hlist]
  | merge head body =>
    obtain ⟨hhead, hbody, hne⟩ := hlegal
    obtain ⟨nodes, hhead⟩ := Option.isSome_iff_exists.mp hhead
    obtain ⟨nodes', hbody⟩ := Option.isSome_iff_exists.mp hbody
    obtain ⟨hothers, hrep'⟩ := hrep.merge hhead hbody hne
    refine ⟨fun b nodes'' hnot => ?_, ?_⟩
    · exact hothers b nodes'' (fun heq => hnot (.inl heq)) fun heq => hnot (.inr heq)
    · rwa [apply, hhead, hbody]

/-- Every sequence of legal operations does to the heap what it does to the sequences of nodes, and
what is read from the rings agrees with them in every state. -/
theorem dlist_refines (hrep : Represents h rings) (hlegal : Legal rings ops) :
    Refines rings h ops := by
  induction ops generalizing h rings with
  | nil => exact ⟨hrep, hrep.agrees⟩
  | cons op ops ih =>
    obtain ⟨hothers, hrep'⟩ := Op.represents_step hrep hlegal.1
    exact ⟨hrep, hrep.agrees, hothers, ih hrep' hlegal.2⟩

/-- The case of two rings that are made, get nodes at both ends, lose one from the middle, and are
merged before nodes of both of them are deleted. -/
theorem dlist_refines_two_rings :
    Refines (fun _ : Fin 7 => none) ⟨id, id⟩
      [.init 0, .init 1, .addTail 0 2, .addTail 0 3, .addHead 0 4, .addHead 1 5, .addTail 1 6,
        .del 2, .merge 0 1, .addHead 1 2, .del 5, .del 3] :=
  dlist_refines ⟨nofun, nofun⟩ (by decide)

end Hixo.Lists.Dlist
