import Mathlib.Data.List.Nodup

/-!
# Doubly linked rings in a heap of link cells

Every cell has two links, to the next cell and to the previous one. A ring starts in a head cell,
runs through the cells of its nodes and comes back to the head; several rings live in one heap.

* `init`, `addTail`, `isEmpty`, `getHead`, `merge`, `del`: the pointer operations;
* `IsRing h a xs`: the ring of the head `a` runs through the nodes `xs`;
* `IsRing.addTail`, `IsRing.merge`, `IsRing.del`: what the operations do to rings;
* `addTail_same`, `merge_same`, `del_same`: they leave the cells of other rings alone;
* `forEach`, `forEachSafe`: the loops over a ring, with rules for each.
-/

/-- A heap of cells with two links each. -/
@[ext]
structure RingHeap (α : Type) where
  /-- The cell after a cell. -/
  next : α → α
  /-- The cell before a cell. -/
  prev : α → α

namespace RingHeap

variable {α : Type} [DecidableEq α]

/-- Let `next` of the cell `c` be `x`. -/
def setNext (h : RingHeap α) (c x : α) : RingHeap α :=
  { h with next := Function.update h.next c x }

/-- Let `prev` of the cell `c` be `x`. -/
def setPrev (h : RingHeap α) (c x : α) : RingHeap α :=
  { h with prev := Function.update h.prev c x }

/-- Make the cell `a` an empty ring. -/
def init (h : RingHeap α) (a : α) : RingHeap α :=
  (h.setNext a a).setPrev a a

/-- Put the cell `node` between the cells `p` and `q`. -/
def addOrig (h : RingHeap α) (node p q : α) : RingHeap α :=
  (((h.setPrev q node).setNext node q).setPrev node p).setNext p node

/-- Put `node` at the end of the ring of `a`. -/
def addTail (h : RingHeap α) (a node : α) : RingHeap α :=
  h.addOrig node (h.prev a) a

/-- Whether the ring of `a` has no node. -/
def isEmpty (h : RingHeap α) (a : α) : Bool :=
  h.prev a = h.next a ∧ a = h.prev a

/-- The first node of the ring of `a`, `none` when it is empty. -/
def getHead (h : RingHeap α) (a : α) : Option α :=
  if h.isEmpty a then none else some (h.next a)

/-- Move the nodes of the ring of `b` to the end of the ring of `a`. -/
def merge (h : RingHeap α) (a b : α) : RingHeap α :=
  if h.isEmpty b then h
  else
    let h := h.setPrev (h.next b) (h.prev a)
    let h := h.setNext (h.prev b) a
    let h := h.setNext (h.prev a) (h.next b)
    let h := h.setPrev a (h.prev b)
    h.init b

/-- Link the cells around `node` with each other. The links of `node` stay. -/
def del (h : RingHeap α) (node : α) : RingHeap α :=
  (h.setPrev (h.next node) (h.prev node)).setNext (h.prev node) (h.next node)

/-- `x` comes right before `y`. -/
def Linked (h : RingHeap α) (x y : α) : Prop := h.next x = y ∧ h.prev y = x

/-- The cells from `a` to `b`, with `xs` between them, are linked in both directions. -/
def Segment (h : RingHeap α) : α → List α → α → Prop
  | a, [], b => h.Linked a b
  | a, x :: xs, b => h.Linked a x ∧ Segment h x xs b

/-- The ring of the head `a` runs through the nodes `xs`. -/
structure IsRing (h : RingHeap α) (a : α) (xs : List α) : Prop where
  segment : h.Segment a xs a
  nodup : (a :: xs).Nodup

/-- The cell `c` has the same links in both heaps. -/
def Same (h h' : RingHeap α) (c : α) : Prop := h'.next c = h.next c ∧ h'.prev c = h.prev c

variable {h h' : RingHeap α} {a b c p q x y node : α} {xs ys : List α}

@[simp]
theorem setNext_next : (h.setNext c x).next = Function.update h.next c x := rfl

@[simp]
theorem setNext_prev : (h.setNext c x).prev = h.prev := rfl

@[simp]
theorem setPrev_next : (h.setPrev c x).next = h.next := rfl

@[simp]
theorem setPrev_prev : (h.setPrev c x).prev = Function.update h.prev c x := rfl

/-! ## Segments -/

omit [DecidableEq α] in
@[simp]
theorem segment_nil : h.Segment a [] b ↔ h.Linked a b := Iff.rfl

omit [DecidableEq α] in
@[simp]
theorem segment_cons : h.Segment a (x :: xs) b ↔ h.Linked a x ∧ h.Segment x xs b := Iff.rfl

omit [DecidableEq α] in
/-- A segment is cut at each of its cells. -/
theorem segment_append :
    h.Segment a (xs ++ y :: ys) b ↔ h.Segment a xs y ∧ h.Segment y ys b := by
  induction xs generalizing a with
  | nil => exact Iff.rfl
  | cons x xs ih => rw [List.cons_append, segment_cons, segment_cons, ih, and_assoc]

omit [DecidableEq α] in
/-- A segment depends on `next` of all cells but its last and on `prev` of all but its first. -/
theorem Segment.congr (hseg : h.Segment a xs b) (hnext : ∀ c ∈ a :: xs, h'.next c = h.next c)
    (hprev : ∀ c ∈ xs ++ [b], h'.prev c = h.prev c) : h'.Segment a xs b := by
  induction xs generalizing a with
  | nil => exact ⟨(hnext a (by simp)).trans hseg.1, (hprev b (by simp)).trans hseg.2⟩
  | cons x xs ih =>
    refine ⟨⟨(hnext a (by simp)).trans hseg.1.1, (hprev x (by simp)).trans hseg.1.2⟩, ?_⟩
    exact ih hseg.2 (fun c hc => hnext c (List.mem_cons_of_mem _ hc))
      fun c hc => hprev c (List.mem_cons_of_mem _ hc)

omit [DecidableEq α] in
/-- The cell before the end of a segment is one of its cells. -/
theorem Segment.prev_mem (hseg : h.Segment a xs b) : h.prev b ∈ a :: xs := by
  induction xs generalizing a with
  | nil => simp [hseg.2]
  | cons x xs ih => exact List.mem_cons_of_mem _ (ih hseg.2)

omit [DecidableEq α] in
/-- The cell after the start of a segment is one of its cells. -/
theorem Segment.next_mem (hseg : h.Segment a xs b) : h.next a ∈ xs ++ [b] := by
  cases xs with
  | nil => simp [hseg.1]
  | cons x xs => simp [hseg.1.1]

omit [DecidableEq α] in
/-- Only the last link of a segment mentions its end: when it is set to another cell, the segment
ends there. -/
theorem Segment.retarget (hseg : h.Segment a xs b) (hnodup : (a :: xs).Nodup)
    (hnext : ∀ c ∈ a :: xs, c ≠ h.prev b → h'.next c = h.next c)
    (hprev : ∀ c ∈ xs, h'.prev c = h.prev c) (hlink : h'.Linked (h.prev b) q) :
    h'.Segment a xs q := by
  induction xs generalizing a with
  | nil =>
    rw [hseg.2] at hlink
    exact hlink
  | cons x xs ih =>
    have htail := List.nodup_cons.mp hnodup
    -- the last cell lies behind `a`
    have hne : a ≠ h.prev b := fun heq => htail.1 (heq ▸ Segment.prev_mem hseg.2)
    refine ⟨⟨(hnext a (by simp) hne).trans hseg.1.1, (hprev x (by simp)).trans hseg.1.2⟩, ?_⟩
    exact ih hseg.2 htail.2 (fun c hc => hnext c (List.mem_cons_of_mem _ hc))
      fun c hc => hprev c (List.mem_cons_of_mem _ hc)

/-! ## Rings -/

omit [DecidableEq α] in
/-- A ring depends only on its own cells. -/
theorem IsRing.congr (hring : IsRing h a xs) (hsame : ∀ c ∈ a :: xs, Same h h' c) :
    IsRing h' a xs := by
  refine ⟨hring.segment.congr (fun c hc => (hsame c hc).1) fun c hc => (hsame c ?_).2,
    hring.nodup⟩
  rcases List.mem_append.mp hc with hc | hc
  · exact List.mem_cons_of_mem _ hc
  · exact List.mem_singleton.mp hc ▸ List.mem_cons_self

omit [DecidableEq α] in
/-- The cell before the head of a ring is one of its cells. -/
theorem IsRing.prev_mem (hring : IsRing h a xs) : h.prev a ∈ a :: xs :=
  hring.segment.prev_mem

omit [DecidableEq α] in
/-- The cell after the head of a ring that has nodes. -/
theorem IsRing.next_eq (hring : IsRing h a (x :: xs)) : h.next a = x := hring.segment.1.1

omit [DecidableEq α] in
/-- The cell after the head of an empty ring is the head. -/
theorem IsRing.next_eq_self (hring : IsRing h a []) : h.next a = a := hring.segment.1

/-- `isEmpty` tells whether a ring has no node. -/
theorem IsRing.isEmpty_eq (hring : IsRing h a xs) : h.isEmpty a = xs.isEmpty := by
  cases xs with
  | nil =>
    obtain ⟨hnext, hprev⟩ := hring.segment
    simp [isEmpty, hnext, hprev]
  | cons x xs =>
    have hne : a ≠ h.prev a := by
      intro heq
      have hmem := Segment.prev_mem hring.segment.2
      rw [← heq] at hmem
      exact (List.nodup_cons.mp hring.nodup).1 hmem
    simp [isEmpty, hne]

/-- `getHead` gives the first node. -/
theorem IsRing.getHead_eq (hring : IsRing h a xs) : h.getHead a = xs.head? := by
  rw [getHead, hring.isEmpty_eq]
  cases xs with
  | nil => rfl
  | cons x xs => simp [hring.next_eq]

/-- A cell that was made a ring is one, without nodes. -/
theorem isRing_init : IsRing (h.init a) a [] :=
  ⟨by simp [init, Linked], by simp⟩

/-- `init` changes the links of one cell. -/
theorem init_same (hne : c ≠ a) : Same h (h.init a) c := by
  simp [Same, init, hne]

/-! ## Adding a node -/

/-- `addTail` changes the links of the node and of cells of the ring. -/
theorem IsRing.addTail_same (hring : IsRing h a xs) (hc : c ∉ node :: a :: xs) :
    Same h (h.addTail a node) c := by
  have hprev : c ≠ h.prev a := fun heq => hc (List.mem_cons_of_mem _ (heq ▸ hring.prev_mem))
  simp only [List.mem_cons, not_or] at hc
  simp [Same, addTail, addOrig, Function.update_of_ne, hc.1, hc.2.1, hprev]

/-- A node outside of a ring becomes its last node. -/
theorem IsRing.addTail (hring : IsRing h a xs) (hnode : node ∉ a :: xs) :
    IsRing (h.addTail a node) a (xs ++ [node]) := by
  have hmem := hring.prev_mem
  have hna : node ≠ a := fun heq => hnode (heq ▸ List.mem_cons_self)
  have hnp : h.prev a ≠ node := fun heq => hnode (heq ▸ hmem)
  have hax : a ∉ xs := (List.nodup_cons.mp hring.nodup).1
  refine ⟨segment_append.mpr ⟨?_, ?_⟩, ?_⟩
  · -- the last node has a new successor, and the head a new predecessor; the rest is as it was
    refine hring.segment.retarget hring.nodup (fun c hc hcp => ?_) (fun c hc => ?_) ?_
    · have hcn : c ≠ node := fun heq => hnode (heq ▸ hc)
      simp [RingHeap.addTail, addOrig, hcn, hcp]
    · have hcn : c ≠ node := fun heq => hnode (heq ▸ List.mem_cons_of_mem _ hc)
      have hca : c ≠ a := fun heq => hax (heq ▸ hc)
      simp [RingHeap.addTail, addOrig, hcn, hca]
    · simp [Linked, RingHeap.addTail, addOrig]
  · simp [Linked, RingHeap.addTail, addOrig, hnp.symm, hna.symm]
  · rw [← List.cons_append]
    refine List.nodup_append.mpr ⟨hring.nodup, by simp, fun c hc d hd heq => ?_⟩
    exact hnode ((List.mem_singleton.mp hd) ▸ heq ▸ hc)

/-! ## Removing a node -/

/-- `del` changes the links of cells of the ring. -/
theorem IsRing.del_same (hring : IsRing h a (xs ++ node :: ys)) (hc : c ∉ a :: (xs ++ node :: ys)) :
    Same h (h.del node) c := by
  obtain ⟨hleft, hright⟩ := segment_append.mp hring.segment
  have hcp : c ≠ h.prev node := by
    rintro rfl
    refine hc ?_
    rw [← List.cons_append]
    exact List.mem_append_left _ hleft.prev_mem
  have hcn : c ≠ h.next node := by
    rintro rfl
    have hmem := hright.next_mem
    simp only [List.mem_append, List.mem_singleton] at hmem
    simp only [List.mem_cons, List.mem_append] at hc
    tauto
  simp [Same, del, hcp, hcn]

/-- A node of a ring is taken out. -/
theorem IsRing.del (hring : IsRing h a (xs ++ node :: ys)) : IsRing (h.del node) a (xs ++ ys) := by
  obtain ⟨hleft, hright⟩ := segment_append.mp hring.segment
  have hnodup := hring.nodup
  have hsub : (a :: (xs ++ ys)).Nodup :=
    hnodup.sublist (((List.sublist_cons_self node ys).append_left xs).cons_cons a)
  rw [← List.cons_append] at hnodup
  obtain ⟨hxs, hys, hdisj⟩ := List.nodup_append.mp hnodup
  refine ⟨?_, hsub⟩
  cases ys with
  | nil =>
    -- the node was the last one: the cell before it is linked with the head
    rw [List.append_nil]
    have hnext : h.next node = a := hright.1
    refine hleft.retarget hxs (fun c _ hcp => ?_) (fun c hc => ?_) ?_
    · simp [RingHeap.del, hcp]
    · have hca : c ≠ a := fun heq => (List.nodup_cons.mp hxs).1 (heq ▸ hc)
      simp [RingHeap.del, hnext, hca]
    · simp [Linked, RingHeap.del, hnext]
  | cons y ys =>
    have hnext : h.next node = y := hright.1.1
    refine segment_append.mpr ⟨?_, ?_⟩
    · refine hleft.retarget hxs (fun c _ hcp => ?_) (fun c hc => ?_) ?_
      · simp [RingHeap.del, hcp]
      · have hcy : c ≠ y := hdisj c (List.mem_cons_of_mem _ hc) y (by simp)
        simp [RingHeap.del, hnext, hcy]
      · simp [Linked, RingHeap.del, hnext]
    · refine hright.2.congr (fun c hc => ?_) fun c hc => ?_
      · have hcp : c ≠ h.prev node := fun heq =>
          hdisj c (heq ▸ hleft.prev_mem) c (List.mem_cons_of_mem _ hc) rfl
        simp [RingHeap.del, hcp]
      · have hcy : c ≠ y := by
          rintro rfl
          rcases List.mem_append.mp hc with hc | hc
          · exact (List.nodup_cons.mp (List.nodup_cons.mp hys).2).1 hc
          · exact hdisj a List.mem_cons_self c (by simp) (List.mem_singleton.mp hc).symm
        simp [RingHeap.del, hnext, hcy]

/-! ## Merging rings -/

/-- When there is nothing to move, `merge` does nothing. -/
theorem IsRing.merge_nil (hb : IsRing h b []) : h.merge a b = h := by
  rw [RingHeap.merge, hb.isEmpty_eq]
  rfl

/-- The links that `merge` writes: those at the two seams, and those of the head `b`. -/
theorem merge_eq (hempty : h.isEmpty b = false) (hyb : h.next b ≠ b) (hya : h.next b ≠ a)
    (hzb : h.prev b ≠ b) :
    h.merge a b =
      { next := Function.update (Function.update (Function.update h.next (h.prev b) a)
          (h.prev a) (h.next b)) b b
        prev := Function.update (Function.update (Function.update h.prev (h.next b) (h.prev a))
          a (h.prev b)) b b } := by
  ext c
  · simp [RingHeap.merge, hempty, init, Function.update_of_ne hyb.symm,
      Function.update_of_ne hya.symm, Function.update_of_ne hzb.symm]
  · simp [RingHeap.merge, hempty, init, Function.update_of_ne hyb.symm,
      Function.update_of_ne hya.symm, Function.update_of_ne hzb.symm]

/-- The nodes of the second ring come behind those of the first one. -/
theorem IsRing.merge (ha : IsRing h a xs) (hb : IsRing h b ys)
    (hdisj : ∀ c ∈ a :: xs, c ∉ b :: ys) :
    IsRing (h.merge a b) a (xs ++ ys) ∧ IsRing (h.merge a b) b [] ∧
      ∀ c ∉ a :: b :: (xs ++ ys), Same h (h.merge a b) c := by
  cases ys with
  | nil =>
    rw [hb.merge_nil, List.append_nil]
    exact ⟨ha, hb, fun c _ => ⟨rfl, rfl⟩⟩
  | cons y ys =>
    obtain ⟨⟨hnext, hprev⟩, hseg⟩ := hb.segment
    have hnodup := List.nodup_cons.mp hb.nodup
    have hz : h.prev b ∈ y :: ys := hseg.prev_mem
    have hp : h.prev a ∈ a :: xs := ha.prev_mem
    -- the cells `p`, `z` of the seams and the heads are different where the writes need it
    have hyb : y ≠ b := fun heq => hnodup.1 (heq ▸ List.mem_cons_self)
    have hya : y ≠ a := fun heq => hdisj a List.mem_cons_self (by simp [heq])
    have hzb : h.prev b ≠ b := fun heq => hnodup.1 (heq ▸ hz)
    have hab : a ≠ b := fun heq => hdisj a List.mem_cons_self (by simp [heq])
    have hpb : h.prev a ≠ b := fun heq => hdisj _ hp (by simp [heq])
    have hout : ∀ c ∈ a :: xs, c ∉ y :: ys := fun c hc hmem =>
      hdisj c hc (List.mem_cons_of_mem _ hmem)
    have hmerge := merge_eq (h := h) (a := a) (b := b) hb.isEmpty_eq (hnext ▸ hyb)
      (hnext ▸ hya) hzb
    rw [hnext] at hmerge
    rw [hmerge]
    refine ⟨⟨segment_append.mpr ⟨?_, ?_⟩, ?_⟩, ⟨by simp [Linked], by simp⟩, fun c hc => ?_⟩
    · refine ha.segment.retarget ha.nodup (fun c hc hcp => ?_) (fun c hc => ?_) ?_
      · have hcb : c ≠ b := fun heq => hdisj c hc (by simp [heq])
        have hcz : c ≠ h.prev b := fun heq => hout c hc (heq ▸ hz)
        simp [hcb, hcp, hcz]
      · have hcb : c ≠ b := fun heq => hdisj c (List.mem_cons_of_mem _ hc) (by simp [heq])
        have hca : c ≠ a := fun heq => (List.nodup_cons.mp ha.nodup).1 (heq ▸ hc)
        have hcy : c ≠ y := fun heq => hout c (List.mem_cons_of_mem _ hc) (by simp [heq])
        simp [hcb, hca, hcy]
      · simp [Linked, hpb, hyb, hya]
    · refine hseg.retarget hnodup.2 (fun c hc hcz => ?_) (fun c hc => ?_) ?_
      · have hcb : c ≠ b := fun heq => hnodup.1 (heq ▸ hc)
        have hcp : c ≠ h.prev a := fun heq => hout c (heq ▸ hp) hc
        simp [hcb, hcp, hcz]
      · have hcb : c ≠ b := fun heq => hnodup.1 (heq ▸ List.mem_cons_of_mem _ hc)
        have hca : c ≠ a := fun heq => hout a List.mem_cons_self (heq ▸ List.mem_cons_of_mem _ hc)
        have hcy : c ≠ y := fun heq => (List.nodup_cons.mp hnodup.2).1 (heq ▸ hc)
        simp [hcb, hca, hcy]
      · have hzp : h.prev b ≠ h.prev a := fun heq => hout _ hp (heq ▸ hz)
        simp [Linked, hzb, hzp, hab]
    · rw [← List.cons_append]
      refine List.nodup_append.mpr ⟨ha.nodup, hnodup.2, fun c hc d hd heq => ?_⟩
      exact hout c hc (heq ▸ hd)
    · simp only [List.mem_cons, List.mem_append, not_or] at hc
      have hcp : c ≠ h.prev a := by
        rintro rfl
        simp only [List.mem_cons] at hp
        tauto
      have hcz : c ≠ h.prev b := by
        rintro rfl
        simp only [List.mem_cons] at hz
        tauto
      simp [Same, hc.1, hc.2.1, hc.2.2.2.1, hcp, hcz]

/-! ## Loops -/

/-- What a pass of a loop over a ring ends with. -/
inductive Pass (σ : Type) where
  /-- The loop goes on. -/
  | next (s : σ)
  /-- The loop was left by `break`. -/
  | stop (s : σ)

variable {σ ε : Type}

/-- `dlist_for_each_f`: from the cell `pos` on, up to the head `list`. The next cell is read after
the body. `endless` when the head is not met within `fuel` cells. -/
def forEach (links : σ → RingHeap α) (endless : ε) (list : α) (body : α → σ → Except ε (Pass σ)) :
    ℕ → α → σ → Except ε σ
  | 0, _, _ => .error endless
  | fuel + 1, pos, s =>
    if pos = list then .ok s
    else
      match body pos s with
      | .error e => .error e
      | .ok (.stop s') => .ok s'
      | .ok (.next s') => forEach links endless list body fuel ((links s').next pos) s'

/-- `dlist_for_each_f_safe`: as `forEach`, with the next cell `cur` read before the body. -/
def forEachSafe (links : σ → RingHeap α) (endless : ε) (list : α) (body : α → σ → Except ε σ) :
    ℕ → α → α → σ → Except ε σ
  | 0, _, _, _ => .error endless
  | fuel + 1, pos, cur, s =>
    if pos = list then .ok s
    else
      match body pos s with
      | .error e => .error e
      | .ok s' => forEachSafe links endless list body fuel cur ((links s').next cur) s'

omit [DecidableEq α] in
/-- `next` of a cell of a ring leads to the cell behind it, or to the head. -/
theorem IsRing.next_of_append {rest : List α} (hring : IsRing h a (xs ++ x :: rest)) :
    h.next x = (rest ++ [a]).head (by simp) := by
  have hright := (segment_append.mp hring.segment).2
  cases rest with
  | nil => exact hright.1
  | cons y rest => exact hright.1.1

omit [DecidableEq α] in
/-- `next` of the head leads to the first cell of the ring, or back to the head. -/
theorem IsRing.next_head (hring : IsRing h a xs) : h.next a = (xs ++ [a]).head (by simp) := by
  cases xs with
  | nil => exact hring.next_eq_self
  | cons x xs => exact hring.next_eq

section Rule

variable {links : σ → RingHeap α} {endless : ε} {list : α} {body : α → σ → Except ε (Pass σ)}
  {P : List α → List α → σ → Prop} {Q : σ → Prop}

/-- A loop whose body keeps the ring, from one of its heads on. -/
theorem forEach_from (hring : ∀ vs rest s, P vs rest s → IsRing (links s) list (vs ++ rest))
    (hbody : ∀ vs x rest s, P vs (x :: rest) s →
      (∃ s', body x s = .ok (.next s') ∧ P (vs ++ [x]) rest s') ∨
        ∃ s', body x s = .ok (.stop s') ∧ Q s')
    (hend : ∀ vs s, P vs [] s → Q s) {vs rest : List α} {s : σ} {fuel : ℕ} {pos : α}
    (hP : P vs rest s) (hfuel : rest.length < fuel) (hpos : pos = (rest ++ [list]).head (by simp)) :
    ∃ s', forEach links endless list body fuel pos s = .ok s' ∧ Q s' := by
  induction rest generalizing vs s fuel pos with
  | nil =>
    obtain ⟨fuel, rfl⟩ := Nat.exists_eq_succ_of_ne_zero (Nat.ne_of_gt hfuel)
    exact ⟨s, by simp [forEach, hpos], hend vs s hP⟩
  | cons x rest ih =>
    obtain ⟨fuel, rfl⟩ := Nat.exists_eq_succ_of_ne_zero (Nat.ne_of_gt (Nat.zero_lt_of_lt hfuel))
    obtain rfl : pos = x := hpos
    -- a node of the ring is not the list itself, so the loop goes on
    have hne : pos ≠ list := by
      rintro rfl
      exact (List.nodup_cons.mp (hring _ _ _ hP).nodup).1 (by simp)
    rcases hbody vs pos rest s hP with ⟨s', hrun, hP'⟩ | ⟨s', hrun, hQ⟩
    · have hring' := hring _ _ _ hP'
      rw [List.append_assoc, List.singleton_append] at hring'
      obtain ⟨s'', hrest, hQ⟩ := ih hP' (Nat.lt_of_succ_lt_succ hfuel) hring'.next_of_append
      exact ⟨s'', by simpa [forEach, hne, hrun] using hrest, hQ⟩
    · exact ⟨s', by simp [forEach, hne, hrun], hQ⟩

variable (links endless) in
/-- The rule for a loop whose body keeps the ring: `P` holds between the passes, of the nodes that
were visited and of those that are left, and `Q` when the loop is over. -/
theorem forEach_rule (hring : ∀ vs rest s, P vs rest s → IsRing (links s) list (vs ++ rest))
    (hbody : ∀ vs x rest s, P vs (x :: rest) s →
      (∃ s', body x s = .ok (.next s') ∧ P (vs ++ [x]) rest s') ∨
        ∃ s', body x s = .ok (.stop s') ∧ Q s')
    (hend : ∀ vs s, P vs [] s → Q s) {s : σ} {fuel : ℕ} (hP : P [] xs s)
    (hfuel : xs.length < fuel) :
    ∃ s', forEach links endless list body fuel ((links s).next list) s = .ok s' ∧ Q s' :=
  forEach_from hring hbody hend hP hfuel (hring _ _ _ hP).next_head

end Rule

section SafeRule

variable (links : σ → RingHeap α) (endless : ε) {list : α} {body : α → σ → Except ε σ}

/-- A loop whose body may take the visited node out of the ring, from a cell on: `P` holds between
the passes, of the visited nodes that were kept and of those that are left. -/
theorem forEachSafe_from {P : List α → List α → σ → Prop}
    (hring : ∀ kept rest s, P kept rest s → IsRing (links s) list (kept ++ rest))
    (hbody : ∀ kept x rest s, P kept (x :: rest) s →
      ∃ s', body x s = .ok s' ∧ (P kept rest s' ∨ P (kept ++ [x]) rest s'))
    {kept rest : List α} {s : σ} {fuel : ℕ} {pos : α} (hP : P kept rest s)
    (hfuel : rest.length < fuel) (hpos : pos = (rest ++ [list]).head (by simp)) :
    ∃ s' kept', forEachSafe links endless list body fuel pos ((links s).next pos) s = .ok s' ∧
      P kept' [] s' := by
  induction rest generalizing kept s fuel pos with
  | nil =>
    obtain ⟨fuel, rfl⟩ := Nat.exists_eq_succ_of_ne_zero (Nat.ne_of_gt hfuel)
    exact ⟨s, kept, by simp [forEachSafe, hpos], hP⟩
  | cons x rest ih =>
    obtain ⟨fuel, rfl⟩ := Nat.exists_eq_succ_of_ne_zero (Nat.ne_of_gt (Nat.zero_lt_of_lt hfuel))
    obtain rfl : pos = x := hpos
    have hring₁ := hring _ _ _ hP
    have hne : pos ≠ list := by
      rintro rfl
      exact (List.nodup_cons.mp hring₁.nodup).1 (by simp)
    obtain ⟨s', hrun, hP'⟩ := hbody kept pos rest s hP
    -- the cell that was read before the body is the first of those that are left
    have hcur := hring₁.next_of_append
    rw [forEachSafe, if_neg hne, hrun]
    have hrest := Nat.lt_of_succ_lt_succ hfuel
    rcases hP' with hP' | hP'
    · exact ih hP' hrest hcur
    · exact ih hP' hrest hcur

/-- The rule for a loop whose body takes the visited node out of the ring: `P` holds between the
passes, of the nodes that are left. -/
theorem forEachSafe_rule {P : List α → σ → Prop}
    (hring : ∀ rest s, P rest s → IsRing (links s) list rest)
    (hbody : ∀ x rest s, P (x :: rest) s → ∃ s', body x s = .ok s' ∧ P rest s')
    {rest : List α} {s : σ} {fuel : ℕ} (hP : P rest s) (hfuel : rest.length < fuel) :
    ∃ s', forEachSafe links endless list body fuel ((links s).next list)
      ((links s).next ((links s).next list)) s = .ok s' ∧ P [] s' := by
  obtain ⟨s', kept, hrun, -, hP'⟩ :=
    forEachSafe_from links endless (P := fun kept rest s => kept = [] ∧ P rest s)
      (fun kept rest s ⟨hkept, hP⟩ => by
        rw [hkept]
        exact hring rest s hP)
      (fun kept x rest s ⟨hkept, hP⟩ => by
        obtain ⟨s', hrun, hP'⟩ := hbody x rest s hP
        exact ⟨s', hrun, .inl ⟨hkept, hP'⟩⟩)
      ⟨rfl, hP⟩ hfuel (hring _ _ hP).next_head
  exact ⟨s', hrun, hP'⟩

end SafeRule

end RingHeap
