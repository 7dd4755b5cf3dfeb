import Hixo.Rbtree.Erasure

/-!
# The way through a red-black tree

`rb_first`, `rb_last`, `rb_next` and `rb_prev` agree with the order of the nodes, and
`rb_replace_node` puts another node into the place of one.

* `Focus.climb`, `Focus.neighbour`: the next node towards a side;
* `Holds.rbFirst`, `Holds.rbLast`, `Holds.rbNext`, `Holds.rbPrev`: the four functions;
* `visit`, `Holds.visit`: a loop over all nodes;
* `Focus.rbReplaceNode`: replacement.
-/

namespace Hixo.Rbtree

open ColoredTree RbTree RbNode Memory

variable {ρ : Type} {m m' m₀ : Memory ρ} {r : ρ} {own : List Addr}
  {par a b h k : Addr} {c c' : Color} {d : Side} {t u s : RbTree Addr} {p q : List (Frame Addr)}
  {f g : Frame Addr} {n fuel : ℕ} {xs ys : List Addr}

namespace Focus

/-- Going up ends at the first node beyond a subtree. -/
theorem climb (h : Focus m₀ own r m p t) (ht : t ≠ .leaf) (hfuel : p.length < fuel) :
    Rbtree.climb d fuel m (addr t) = .ok ((beyond d p).headD 0) := by
  induction p generalizing t fuel with
  | nil =>
    obtain ⟨fuel, rfl⟩ := Nat.exists_eq_succ_of_ne_zero (Nat.ne_zero_of_lt hfuel)
    obtain ⟨c, a, u, v, rfl⟩ := eq_join .left ht
    rw [addr_join, beyond_eq_nil (by simp)]
    simp only [Rbtree.climb, h.read, rbParent_cell h.aligned_top, Programs.ok_bind]
    rfl
  | cons f p ih =>
    obtain ⟨fuel, rfl⟩ := Nat.exists_eq_succ_of_ne_zero (Nat.ne_zero_of_lt hfuel)
    have habove := focus_close.mp h
    have hne := habove.addr_ne (.inl ht)
    have hf0 : f.value ≠ 0 := habove.valid_root.ne_null
    have hparent : ∃ w, m.read (addr t) = .ok w ∧ w.rbParent = f.value := by
      obtain ⟨c, a, u, v, rfl⟩ := eq_join .left ht
      exact ⟨_, (congrArg m.read addr_join).trans h.read, rbParent_cell h.aligned_top⟩
    obtain ⟨w, hread, hw⟩ := hparent
    simp only [Rbtree.climb, hread, hw, if_neg hf0, h.read_above, Programs.ok_bind]
    rcases eq_or_ne f.side d with rfl | hside
    · have hup := ih habove join_ne_leaf (Nat.lt_of_succ_lt_succ hfuel)
      rw [Frame.close, addr_join] at hup
      rw [child_cell, if_pos rfl, beyond_cons_of_eq rfl, hup]
    · obtain rfl : d = f.side.other := (Side.eq_or_eq_other f.side d).resolve_left (Ne.symm hside)
      rw [child_other_cell, if_neg (Ne.symm hne), beyond_cons_of_ne hside]
      rfl

/-- No node is its own parent. -/
theorem top_ne (h : Focus m₀ own r m p (join d c a t u)) : top 0 p ≠ a := by
  cases p with
  | nil => exact h.valid_root.ne_null.symm
  | cons f p =>
    exact ne_of_mem_of_not_mem (mem_outside_cons.mpr (.inl rfl))
      ((nodup_plug.mp h.nodup).2.2 a (by simp))

/-- The neighbour of a node is the first node beyond it. -/
theorem neighbour (h : Focus m₀ own r m p (join d c a t u))
    (hfuel : (plug p (join d c a t u)).height ≤ fuel) :
    Rbtree.neighbour d fuel m a = .ok ((d.order t.inorder ++ beyond d p).headD 0) := by
  have hheight := length_add_height_le (p := p) (t := join d c a t u)
  rw [height_join] at hheight
  have hlength : p.length < fuel := by omega
  have hheightChild : t.height ≤ fuel := by omega
  have hchild : Focus m₀ own r m (⟨d, c, a, u⟩ :: p) t := focus_close.mpr h
  have htop : top 0 p ≠ a := h.top_ne
  simp only [Rbtree.neighbour, h.read, rbParent_cell h.aligned_top, if_neg htop, child_cell,
    hchild.addr_eq_zero_iff, Programs.ok_bind]
  by_cases hleaf : t = .leaf
  · have hup := h.climb (d := d) join_ne_leaf hlength
    rw [addr_join] at hup
    rw [if_pos hleaf, hup, hleaf]
    simp [inorder]
  · obtain ⟨q, c', b, v, hrun, rfl, hside⟩ := hchild.descend (d := d.other) hleaf hheightChild
    rw [if_neg hleaf, hrun, order_plug_other hside]
    rfl

end Focus

/-! ## The functions -/

namespace Holds

/-- A tree that a root holds can be seen from each of its subtrees. -/
theorem focus_at (h : Holds m r (plug p t)) : Focus m (plug p t).inorder r m p t :=
  focus_plug.mpr (h.focus fun _ ha => ha)

/-- The loop down one side of the tree ends at its outermost node there. -/
theorem outermost (h : Holds m r t) (hfuel : t.height ≤ fuel) :
    Rbtree.outermost d.other fuel m r = .ok ((d.order t.inorder).headD 0) := by
  have hfocus : Focus m t.inorder r m [] t := h.focus fun _ ha => ha
  rw [Rbtree.outermost, h.root]
  by_cases hleaf : t = .leaf
  · rw [if_pos (hfocus.addr_eq_zero_iff.mpr hleaf), hleaf, inorder, Side.order_nil]
    rfl
  · obtain ⟨q, c, a, u, hrun, rfl, hside⟩ := hfocus.descend (d := d.other) hleaf hfuel
    rw [if_neg fun hz => hleaf (hfocus.addr_eq_zero_iff.mp hz), hrun, order_plug_other hside]
    rfl

/-- `rb_first` gives the first node. -/
theorem rbFirst (h : Holds m r t) (hfuel : t.height ≤ fuel) :
    Rbtree.rbFirst fuel m r = .ok (t.inorder.headD 0) :=
  h.outermost (d := .right) hfuel

/-- `rb_last` gives the last node. -/
theorem rbLast (h : Holds m r t) (hfuel : t.height ≤ fuel) :
    Rbtree.rbLast fuel m r = .ok (t.inorder.reverse.headD 0) :=
  h.outermost (d := .left) hfuel

/-- Every node of a tree is the root of a subtree, between the nodes before it and after it. -/
theorem exists_split (h : Holds m r t) (ht : t.inorder = xs ++ a :: ys) :
    ∃ p c u v, t = plug p (join .left c a u v) ∧ xs = before p ++ u.inorder ∧
      ys = v.inorder ++ after p := by
  obtain ⟨p, c, u, v, rfl⟩ := exists_plug_of_mem (a := a) (t := t) (by simp [ht])
  obtain ⟨hxs, hys⟩ := split_of_plug ht (ht ▸ h.nodup)
  exact ⟨p, c, u, v, rfl, hxs, hys⟩

/-- `rb_next` gives the node that comes next, `NULL` after the last one. -/
theorem rbNext (h : Holds m r t) (ht : t.inorder = xs ++ a :: ys) (hfuel : t.height ≤ fuel) :
    Rbtree.rbNext fuel m a = .ok (ys.headD 0) := by
  obtain ⟨p, c, u, v, rfl, -, rfl⟩ := h.exists_split ht
  have hfocus : Focus m _ r m p (join .right c a v u) := h.focus_at
  exact hfocus.neighbour hfuel

/-- `rb_prev` gives the node that comes before, `NULL` before the first one. -/
theorem rbPrev (h : Holds m r t) (ht : t.inorder = xs ++ a :: ys) (hfuel : t.height ≤ fuel) :
    Rbtree.rbPrev fuel m a = .ok (xs.reverse.headD 0) := by
  obtain ⟨p, c, u, v, rfl, rfl, -⟩ := h.exists_split ht
  rw [List.reverse_append]
  exact h.focus_at.neighbour hfuel

/-- A node of a tree is not taken for an empty one. -/
theorem rbEmptyNode (h : Holds m r t) (ha : a ∈ t.inorder) :
    Rbtree.rbEmptyNode m a = .ok false := by
  obtain ⟨p, c, u, v, rfl⟩ := exists_plug_of_mem ha
  have hfocus : Focus m _ r m p (join .left c a u v) := h.focus_at
  have hne : top 0 p ≠ a := hfocus.top_ne
  simp only [Rbtree.rbEmptyNode, hfocus.read, rbParent_cell hfocus.aligned_top, Programs.ok_bind]
  exact congrArg Except.ok (decide_eq_false hne)

end Holds

/-- The nodes that a loop visits, from the node `a` on, when each step is the function `next`. -/
def visit (next : Addr → Except Fault Addr) : ℕ → Addr → Except Fault (List Addr)
  | 0, _ => .error .endless
  | fuel + 1, a =>
    if a = 0 then .ok []
    else do
      let b ← next a
      let nodes ← visit next fuel b
      return a :: nodes

/-- A loop visits the nodes of a list, when each step leads from a node of the list to the next. -/
theorem visit_eq {next : Addr → Except Fault Addr} (hxs : ∀ a ∈ xs, a ≠ 0)
    (hnext : ∀ ys a zs, xs = ys ++ a :: zs → next a = .ok (zs.headD 0)) (hfuel : xs.length < n) :
    visit next n (xs.headD 0) = .ok xs := by
  suffices h : ∀ ys zs, xs = ys ++ zs → ∀ n > zs.length, visit next n (zs.headD 0) = .ok zs from
    h [] xs rfl n hfuel
  intro ys zs
  induction zs generalizing ys with
  | nil =>
    intro _ n hn
    obtain ⟨n, rfl⟩ := Nat.exists_eq_succ_of_ne_zero (Nat.ne_zero_of_lt hn)
    exact if_pos rfl
  | cons a zs ih =>
    intro heq n hn
    obtain ⟨n, rfl⟩ := Nat.exists_eq_succ_of_ne_zero (Nat.ne_zero_of_lt hn)
    have ha : a ≠ 0 := hxs a (by simp [heq])
    have hrest := ih (ys ++ [a]) (by simp [heq]) n (Nat.lt_of_succ_lt_succ hn)
    rw [List.headD_cons, visit, if_neg ha, hnext ys a zs heq, Programs.ok_bind, hrest]
    rfl

namespace Holds

/-- A loop with `rb_first` and `rb_next` visits the nodes in their order. -/
theorem visit_next (h : Holds m r t) (hfuel : t.height ≤ fuel) (hn : t.inorder.length < n) :
    (do visit (Rbtree.rbNext fuel m) n (← Rbtree.rbFirst fuel m r)) = .ok t.inorder := by
  rw [h.rbFirst hfuel, Programs.ok_bind]
  exact visit_eq (fun a ha => (h.valid a ha).ne_null) (fun ys a zs heq => h.rbNext heq hfuel) hn

/-- A loop with `rb_last` and `rb_prev` visits the nodes in the reverse order. -/
theorem visit_prev (h : Holds m r t) (hfuel : t.height ≤ fuel) (hn : t.inorder.length < n) :
    (do visit (Rbtree.rbPrev fuel m) n (← Rbtree.rbLast fuel m r)) = .ok t.inorder.reverse := by
  rw [h.rbLast hfuel, Programs.ok_bind]
  refine visit_eq (fun a ha => (h.valid a (List.mem_reverse.mp ha)).ne_null)
    (fun ys a zs heq => ?_) (by simpa using hn)
  have hsplit : t.inorder = zs.reverse ++ a :: ys.reverse := by
    rw [← t.inorder.reverse_reverse, heq]
    simp
  rw [h.rbPrev hsplit hfuel, List.reverse_reverse]

end Holds

/-! ## Replacement -/

section

variable [DecidableEq ρ]

/-- `rb_replace_node` puts a node that is not in the tree into the place of another one. -/
theorem Focus.rbReplaceNode (h : Focus m₀ own r m p (join .left c a t u)) (hvalid : Valid b)
    (hnode : m.node b ≠ none) (hfresh : b ∉ (plug p (join .left c a t u)).inorder)
    (hown : b ∈ own) :
    ∃ m', Rbtree.rbReplaceNode m a b r = .ok m' ∧ Focus m₀ own r m' p (join .left c b t u) := by
  obtain ⟨w, hw⟩ := Option.ne_none_iff_exists'.mp hnode
  obtain ⟨ha, ht, hu⟩ := shape_join.mp h.shape
  have ha0 : a ≠ 0 := h.valid_root.ne_null
  -- all addresses are different
  obtain ⟨hnodup, houtside, hout⟩ := nodup_plug.mp h.nodup
  obtain ⟨⟨hat, hau⟩, htnodup, hunodup, htu⟩ := nodup_join.mp hnodup
  have hvalids := h.valid
  have howneds := h.owned
  simp only [mem_inorder_plug, mem_inorder_join, not_or] at hfresh hvalids howneds
  simp only [mem_inorder_join] at hout
  obtain ⟨⟨hba, hbt, hbu⟩, hbout⟩ := hfresh
  have haout : a ∉ outside p := hout a (.inl rfl)
  have hvalidOut : ∀ z ∈ outside p, Valid z := fun z hz => hvalids z (.inr hz)
  -- the pointer to `a`, and the parents of its children
  obtain ⟨m₁, hrun₁, hspine₁, hroot₁, hroots₁, hnode₁, hcells₁⟩ :=
    h.spine_join.store h.root_join houtside hvalidOut b
  rw [← h.spine_join.replaceChild_eq .left hvalidOut haout ha0] at hrun₁
  have ha₁ : m₁.node a = some (cell (top 0 p) c .left (addr t) (addr u)) :=
    (hnode₁ a haout).trans ha
  obtain ⟨m₂, hrun₂, ht₂, hroot₂, hnode₂, hcells₂⟩ := (ht.congr fun z hz =>
    hnode₁ z (hout z (.inr (.inl hz))) : Shape m₁ a t).reparent h.valid_root.aligned htnodup
    (fun z hz => hvalids z (.inl (.inr (.inl hz)))) b
  have ha₂ := (hnode₂ a hat).trans ha₁
  obtain ⟨m₃, hrun₃, hu₃, hroot₃, hnode₃, hcells₃⟩ := (hu.congr fun z hz =>
    (hnode₂ z fun hzt => htu z hzt hz).trans (hnode₁ z (hout z (.inr (.inr hz)))) :
      Shape m₂ a u).reparent h.valid_root.aligned hunodup
    (fun z hz => hvalids z (.inl (.inr (.inr hz)))) b
  have ha₃ := (hnode₃ a hau).trans ha₂
  let m₄ := m₃.write b (cell (top 0 p) c .left (addr t) (addr u))
  have hw₃ : m₃.node b = some w := by
    rw [hnode₃ b hbu, hnode₂ b hbt, hnode₁ b hbout, hw]
  have hnodup' : (plug p (join .left c b t u)).inorder.Nodup := by
    refine nodup_plug.mpr ⟨nodup_join.mpr ⟨⟨hbt, hbu⟩, htnodup, hunodup, htu⟩, houtside, ?_⟩
    intro z hz
    rcases mem_inorder_join.mp hz with rfl | hz
    · exact hbout
    · exact hout z (.inr hz)
  refine ⟨m₄, ?_, ?_, ?_, shape_join.mpr ⟨write_node_self, ?_, ?_⟩, hnodup', fun z hz => ?_,
    fun z hz => ?_, h.rest.trans ⟨fun z hz => ?_, fun s hs => ?_, ?_⟩⟩
  · have hrun₄ : m₃.modify b (fun _ => cell (top 0 p) c .left (addr t) (addr u)) = .ok m₄ :=
      modify_eq hvalid.ne_null hw₃ _
    have hleft : (cell (top 0 p) c .left (addr t) (addr u)).rbLeft = addr t := rfl
    have hright : (cell (top 0 p) c .left (addr t) (addr u)).rbRight = addr u := rfl
    simp only [Rbtree.rbReplaceNode, h.read, rbParent_cell h.aligned_top, hrun₁, read_eq ha0 ha₁,
      hleft, hrun₂, read_eq ha0 ha₂, hright, hrun₃, read_eq ha0 ha₃, hrun₄, Programs.ok_bind]
  · rw [addr_join]
    exact (congrFun (hroot₃.trans hroot₂) r).trans hroot₁
  · rw [addr_join]
    exact hspine₁.congr fun z hz => by
      rw [write_node_of_ne (ne_of_mem_of_not_mem hz hbout),
        hnode₃ z fun hzu => hout z (.inr (.inr hzu)) hz,
        hnode₂ z fun hzt => hout z (.inr (.inl hzt)) hz]
  · exact ht₂.congr fun z hz => (write_node_of_ne (ne_of_mem_of_not_mem hz hbt)).trans
      (hnode₃ z (htu z hz))
  · exact hu₃.congr fun z hz => write_node_of_ne (ne_of_mem_of_not_mem hz hbu)
  · rcases mem_inorder_plug.mp hz with hz | hz
    · rcases mem_inorder_join.mp hz with rfl | hz
      · exact hvalid
      · exact hvalids z (.inl (.inr hz))
    · exact hvalids z (.inr hz)
  · rcases mem_inorder_plug.mp hz with hz | hz
    · rcases mem_inorder_join.mp hz with rfl | hz
      · exact hown
      · exact howneds z (.inl (.inr hz))
    · exact howneds z (.inr hz)
  · rw [write_node_of_ne (ne_of_mem_of_not_mem hown hz).symm,
      hnode₃ z fun hzu => hz (howneds z (.inl (.inr (.inr hzu)))),
      hnode₂ z fun hzt => hz (howneds z (.inl (.inr (.inl hzt)))),
      hnode₁ z fun hzo => hz (howneds z (.inr hzo))]
  · exact (congrFun (hroot₃.trans hroot₂) s).trans (hroots₁ s hs)
  · exact ((hcells₁.trans hcells₂).trans hcells₃).write _ (by simp [hw₃])

end

end Hixo.Rbtree
