import Hixo.Foundation.RingList

/-!
# Rings, forward and backward

A ring that is read along `prev` is a ring with the nodes in the other order.

* `flip`, `IsRing.flip`: the heap with its links exchanged;
* `addHead`, `getTail`: the operations at the other end of a ring, with what they do to it;
* `IsRing.prev_next`, `IsRing.next_prev`: the links are inverse to each other;
* `visit`, `visitSafe`: the nodes that a loop over a ring visits, in either direction, while some of
  them are taken out.
-/

namespace RingHeap

variable {α : Type} [DecidableEq α]

/-- The heap with `next` and `prev` exchanged. -/
def flip (h : RingHeap α) : RingHeap α := ⟨h.prev, h.next⟩

/-- Put `node` at the front of the ring of `a`. -/
def addHead (h : RingHeap α) (a node : α) : RingHeap α :=
  h.addOrig node a (h.next a)

/-- The last node of the ring of `a`, `none` when it is empty. -/
def getTail (h : RingHeap α) (a : α) : Option α :=
  if h.isEmpty a then none else some (h.prev a)

variable {h h' : RingHeap α} {a b c node : α} {xs : List α}

omit [DecidableEq α] in
@[simp]
theorem flip_next : h.flip.next = h.prev := rfl

omit [DecidableEq α] in
@[simp]
theorem flip_prev : h.flip.prev = h.next := rfl

omit [DecidableEq α] in
@[simp]
theorem flip_flip : h.flip.flip = h := rfl

theorem flip_del : (h.del node).flip = h.flip.del node := rfl

omit [DecidableEq α] in
theorem Same.flip (hsame : Same h h' c) : Same h.flip h'.flip c := And.symm hsame

omit [DecidableEq α] in
theorem Same.trans {h'' : RingHeap α} (hsame : Same h h' c) (hsame' : Same h' h'' c) :
    Same h h'' c := ⟨hsame'.1.trans hsame.1, hsame'.2.trans hsame.2⟩

omit [DecidableEq α] in
/-- Backward, a segment leads from its end to its beginning. -/
theorem Segment.flip (hseg : h.Segment a xs b) : h.flip.Segment b xs.reverse a := by
  induction xs generalizing a with
  | nil => exact And.symm hseg
  | cons x xs ih =>
    rw [List.reverse_cons]
    exact segment_append.mpr ⟨ih hseg.2, And.symm hseg.1⟩

omit [DecidableEq α] in
/-- Backward, a ring has its nodes in the opposite order. -/
theorem IsRing.flip (hring : IsRing h a xs) : IsRing h.flip a xs.reverse := by
  refine ⟨hring.segment.flip, ?_⟩
  have hnodup := List.nodup_cons.mp hring.nodup
  exact List.nodup_cons.mpr ⟨fun hmem => hnodup.1 (List.mem_reverse.mp hmem),
    List.nodup_reverse.mpr hnodup.2⟩

omit [DecidableEq α] in
/-- The cell after the cell before a cell of a segment. -/
theorem Segment.prev_next (hseg : h.Segment a xs b) (hc : c ∈ a :: xs) : h.prev (h.next c) = c := by
  induction xs generalizing a with
  | nil =>
    obtain rfl := List.mem_singleton.mp hc
    rw [hseg.1, hseg.2]
  | cons x xs ih =>
    rcases List.mem_cons.mp hc with rfl | hc
    · rw [hseg.1.1, hseg.1.2]
    · exact ih hseg.2 hc

omit [DecidableEq α] in
/-- In a ring, `prev` leads back to where `next` came from. -/
theorem IsRing.prev_next (hring : IsRing h a xs) (hc : c ∈ a :: xs) : h.prev (h.next c) = c :=
  hring.segment.prev_next hc

omit [DecidableEq α] in
/-- In a ring, `next` leads back to where `prev` came from. -/
theorem IsRing.next_prev (hring : IsRing h a xs) (hc : c ∈ a :: xs) : h.next (h.prev c) = c :=
  hring.flip.prev_next (by simpa using hc)

/-- `getTail` gives the last node. -/
theorem IsRing.getTail_eq (hring : IsRing h a xs) : h.getTail a = xs.getLast? := by
  have hprev : h.prev a = (xs.reverse ++ [a]).head (by simp) := hring.flip.next_head
  rw [getTail, hring.isEmpty_eq, List.getLast?_eq_head?_reverse]
  cases hxs : xs.reverse with
  | nil => simp [List.reverse_eq_nil_iff.mp hxs]
  | cons y ys =>
    have hne : xs ≠ [] := fun heq => by simp [heq] at hxs
    simp only [hxs] at hprev
    simp [hprev, hne]

/-! ## Adding a node at the front -/

/-- Backward, a node that is put at the front is put at the end. -/
theorem flip_addHead (hna : node ≠ a) (hnn : node ≠ h.next a) :
    (h.addHead a node).flip = h.flip.addTail a node := by
  ext c
  · simp [addHead, addTail, addOrig, Function.update_comm hnn]
  · simp [addHead, addTail, addOrig, Function.update_comm hna]

/-- A node outside of a ring is added at the end of the ring that is read backward. -/
theorem IsRing.flip_addHead (hring : IsRing h a xs) (hnode : node ∉ a :: xs) :
    (h.addHead a node).flip = h.flip.addTail a node := by
  have hnext : h.next a ∈ a :: xs.reverse := hring.flip.prev_mem
  refine RingHeap.flip_addHead (fun heq => hnode (heq ▸ List.mem_cons_self)) fun heq => hnode ?_
  rw [heq]
  simpa using hnext

/-- `addHead` changes the links of the node and of cells of the ring. -/
theorem IsRing.addHead_same (hring : IsRing h a xs) (hnode : node ∉ a :: xs)
    (hc : c ∉ node :: a :: xs) : Same h (h.addHead a node) c := by
  have hsame : Same h.flip (h.flip.addTail a node) c :=
    hring.flip.addTail_same (by simpa using hc)
  rw [← hring.flip_addHead hnode] at hsame
  exact hsame.flip

/-- A node outside of a ring becomes its first node. -/
theorem IsRing.addHead (hring : IsRing h a xs) (hnode : node ∉ a :: xs) :
    IsRing (h.addHead a node) a (node :: xs) := by
  have hflip : IsRing (h.flip.addTail a node) a (xs.reverse ++ [node]) :=
    hring.flip.addTail (by simpa using hnode)
  rw [← hring.flip_addHead hnode] at hflip
  simpa using hflip.flip

/-! ## Loops -/

/-- The nodes that a loop over the ring of `list` visits, in a heap that is read as `turn` says. -/
def visit (turn : RingHeap α → RingHeap α) (h : RingHeap α) (list : α) (fuel : ℕ) :
    Except Unit (List α) :=
  forEach (fun _ => turn h) () list (fun pos visited => .ok (.next (visited ++ [pos]))) fuel
    ((turn h).next list) []

/-- The nodes that a safe loop over the ring of `list` visits, and the heap after it, when it takes
out the nodes that are `doomed`. -/
def visitSafe (turn : RingHeap α → RingHeap α) (doomed : α → Bool) (h : RingHeap α) (list : α)
    (fuel : ℕ) : Except Unit (List α × RingHeap α) :=
  forEachSafe (fun s => turn s.2) () list
    (fun pos s => .ok (s.1 ++ [pos], if doomed pos then s.2.del pos else s.2)) fuel
    ((turn h).next list) ((turn h).next ((turn h).next list)) ([], h)

section Visit

variable {turn : RingHeap α → RingHeap α} {doomed : α → Bool} {fuel : ℕ}

/-- A loop visits the nodes of the ring in their order. -/
theorem visit_eq (hring : IsRing (turn h) a xs) (hfuel : xs.length < fuel) :
    visit turn h a fuel = .ok xs := by
  suffices hrun : ∃ s, visit turn h a fuel = .ok s ∧ s = xs by
    obtain ⟨s, hrun, rfl⟩ := hrun
    exact hrun
  rw [visit]
  -- between the passes, the loop has collected the nodes that lie behind it
  refine forEach_rule (fun _ => turn h) () (P := fun vs rest s => s = vs ∧ vs ++ rest = xs)
    (Q := fun s => s = xs) ?_ ?_ ?_ ⟨rfl, rfl⟩ hfuel
  · rintro vs rest s ⟨-, hall⟩
    rwa [hall]
  · rintro vs x rest s ⟨rfl, hall⟩
    exact .inl ⟨_, rfl, rfl, by rw [List.append_assoc, List.singleton_append, hall]⟩
  · rintro vs s ⟨rfl, hall⟩
    rwa [List.append_nil] at hall

variable (turn doomed) in
/-- A safe loop visits the nodes of the ring in their order, and leaves those that are not
doomed. -/
theorem visitSafe_eq (hturn : ∀ h x, turn (h.del x) = (turn h).del x)
    (hring : IsRing (turn h) a xs) (hfuel : xs.length < fuel) :
    ∃ h', visitSafe turn doomed h a fuel = .ok (xs, h') ∧
      IsRing (turn h') a (xs.filter fun x => !doomed x) ∧
      ∀ c ∉ a :: xs, Same (turn h) (turn h') c := by
  -- between the passes, of the visited nodes those that are not doomed are still in the ring
  let P : List α → List α → List α × RingHeap α → Prop := fun kept rest s =>
    s.1 ++ rest = xs ∧ kept = s.1.filter (fun x => !doomed x) ∧
      IsRing (turn s.2) a (kept ++ rest) ∧ ∀ c ∉ a :: xs, Same (turn h) (turn s.2) c
  suffices hrun : ∃ s kept, visitSafe turn doomed h a fuel = .ok s ∧ P kept [] s by
    obtain ⟨⟨visited, h'⟩, kept, hrun, hall, rfl, hring', hsame⟩ := hrun
    obtain rfl : visited = xs := by simpa using hall
    exact ⟨h', hrun, by simpa using hring', hsame⟩
  rw [visitSafe]
  have hstart : P [] xs ([], h) := ⟨rfl, rfl, hring, fun c _ => ⟨rfl, rfl⟩⟩
  refine forEachSafe_from (fun s => turn s.2) () (fun kept rest s hP => hP.2.2.1) ?_ hstart hfuel
    hring.next_head
  rintro kept x rest ⟨visited, h'⟩ ⟨hall, rfl, hring', hsame⟩
  have hall' : visited ++ [x] ++ rest = xs := by
    rw [List.append_assoc, List.singleton_append, hall]
  refine ⟨_, rfl, ?_⟩
  cases hx : doomed x with
  | true =>
    refine .inl ⟨hall', by simp [hx], ?_, fun c hc => ?_⟩
    · rw [if_pos rfl, hturn]
      exact hring'.del
    · rw [if_pos rfl, hturn]
      refine (hsame c hc).trans (hring'.del_same fun hmem => hc ?_)
      rw [← hall]
      simp only [List.mem_cons, List.mem_append, List.mem_filter] at hmem ⊢
      tauto
  | false =>
    refine .inr ⟨hall', by simp [hx], ?_, hsame⟩
    rwa [List.append_assoc, List.singleton_append]

end Visit

end RingHeap
