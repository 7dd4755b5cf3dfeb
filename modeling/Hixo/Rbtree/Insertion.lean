import Hixo.Rbtree.Shape

/-!
# Insertion into a red-black tree

`rb_link_node` puts a red leaf into the tree, and `rb_insert_color` does in memory what `insertFix`
does to trees.

* `Focus.insertPass_recolor`, `Focus.insertPass_turn`: a pass of the loop;
* `Focus.insertLoop`, `Focus.rbInsertColor`: the loop and the function;
* `Focus.rbLinkNode`: the new leaf.
-/

namespace Hixo.Rbtree

open ColoredTree RbTree RbNode Memory

variable {ρ : Type} [DecidableEq ρ] {m m' m₀ : Memory ρ} {r : ρ} {own : List Addr}
  {par a b h k : Addr} {c c' : Color} {d : Side} {t u s : RbTree Addr} {p q : List (Frame Addr)}
  {f g : Frame Addr} {n fuel : ℕ}

/-- The side of a child, as the loops find it. -/
theorem side_of_cell (hne : k ≠ h) :
    (if (cell par c d h k).rbLeft = h then Side.left else .right) = d := by
  cases d
  · exact if_pos rfl
  · exact if_neg hne

namespace Focus

omit [DecidableEq ρ] in
/-- The pointers to the two subtrees of a node are different, when one of them is not empty. -/
theorem addr_ne (h : Focus m₀ own r m p (join d c a t u)) (hne : t ≠ .leaf ∨ u ≠ .leaf) :
    addr u ≠ addr t := by
  obtain ⟨-, hdis⟩ := (nodup_join.mp (nodup_plug.mp h.nodup).1).2.2
  have hvalid : ∀ b, b ∈ t.inorder ∨ b ∈ u.inorder → b ≠ 0 := fun b hb =>
    (h.valid b (mem_inorder_plug.mpr (.inl (mem_inorder_join.mpr (.inr hb))))).ne_null
  intro heq
  rcases addr_eq_zero_or_mem t with ht | ht <;> rcases addr_eq_zero_or_mem u with hu | hu
  · rcases hne with hne | hne
    · exact hvalid _ (.inl (addr_mem hne)) ht
    · exact hvalid _ (.inr (addr_mem hne)) hu
  · exact hvalid _ (.inr hu) (heq.trans ht)
  · exact hvalid _ (.inl ht) (heq.symm.trans hu)
  · exact hdis _ ht (heq ▸ hu)

omit [DecidableEq ρ] in
/-- A tree that is seen from a subtree can be seen from the subtree beside it. -/
theorem sibling : Focus m₀ own r m (f :: p) t ↔
    Focus m₀ own r m (⟨f.side.other, f.color, f.value, t⟩ :: p) f.sibling := by
  rw [focus_close, focus_close, Frame.close, Frame.close, join_other]

omit [DecidableEq ρ] in
/-- The node above a subtree holds pointers to the subtree and to its sibling. -/
theorem read_above (h : Focus m₀ own r m (f :: p) t) :
    m.read f.value = .ok (cell (top 0 p) f.color f.side (addr t) (addr f.sibling)) :=
  (focus_close.mp h).read

omit [DecidableEq ρ] in
theorem absentOrBlack_above (h : Focus m₀ own r m (f :: p) t) :
    m.absentOrBlack f.value = .ok (decide (f.color = .black)) := by
  have habove := (focus_close.mp h).absentOrBlack
  rwa [Frame.close, addr_join, color_join] at habove

/-! ## A pass of the loop -/

/-- Under a red uncle, the colours are exchanged, and the loop goes on two nodes above. -/
theorem insertPass_recolor (h : Focus m₀ own r m (f :: g :: p) t)
    (huncle : g.sibling.color = .red) :
    ∃ m', insertPass g.side m (addr t) f.value g.value r = .ok (m', g.value) ∧
      Focus m₀ own r m' p
        (join g.side .red g.value ((f.close t).paint .black) (g.sibling.paint .black)) := by
  have hparent := focus_close.mp h
  have hread := hparent.read_above
  have huncle' := (sibling.mp hparent).absentOrBlack
  obtain ⟨m₁, hrun₁, h₁⟩ := (sibling.mp hparent).setBlack (ne_leaf_of_color huncle)
  have h₁ := sibling.mp h₁
  rw [Side.other_other] at h₁
  obtain ⟨m₂, hrun₂, h₂⟩ := h₁.setBlack join_ne_leaf
  obtain ⟨m₃, hrun₃, h₃⟩ := (focus_close.mp h₂).setRed join_ne_leaf
  have hparentAddr : addr (f.close t) = f.value := addr_join
  have hgAddr : addr (Frame.close ⟨g.side, g.color, g.value, g.sibling.paint .black⟩
    ((f.close t).paint .black)) = g.value := addr_join
  rw [hparentAddr] at hrun₂
  rw [hgAddr] at hrun₃
  refine ⟨m₃, ?_, by simpa only [Frame.close, paint_join] using h₃⟩
  simp only [insertPass, hread, child_other_cell, huncle', huncle, hrun₁, hrun₂, hrun₃,
    Programs.ok_bind]
  rfl

/-- The last steps of a pass: the parent takes the place of the grandparent. -/
theorem insertPass_lift (h : Focus m₀ own r m (g :: p) (join g.side c b t u)) :
    ∃ m₁ m₂ m₃, m.modify b rbSetBlack = .ok m₁ ∧ m₁.modify g.value rbSetRed = .ok m₂ ∧
      Memory.rotate g.side.other m₂ g.value r = .ok m₃ ∧
      Focus m₀ own r m₃ p
        (join g.side .black b t (join g.side .red g.value u g.sibling)) := by
  obtain ⟨m₁, hrun₁, h₁⟩ := h.setBlack join_ne_leaf
  obtain ⟨m₂, hrun₂, h₂⟩ := (focus_close.mp h₁).setRed join_ne_leaf
  obtain ⟨m₃, hrun₃, h₃⟩ := rotate_other (by simpa only [Frame.close, paint_join] using h₂)
  simp only [Frame.close, addr_join] at hrun₁ hrun₂
  exact ⟨m₁, m₂, m₃, hrun₁, hrun₂, hrun₃, h₃⟩

/-- The loop stops below a black node. -/
theorem insertLoop_stop (h : Focus m₀ own r m p t) (ht : t ≠ .leaf)
    (hp : topColor p = .black ∨ p = []) (hfuel : 0 < fuel) :
    Rbtree.insertLoop r fuel m (addr t) = .ok m := by
  obtain ⟨fuel, rfl⟩ := Nat.exists_eq_succ_of_ne_zero hfuel.ne'
  obtain ⟨c, a, u, v, rfl⟩ := eq_join .left ht
  have habove : m.absentOrBlack (top 0 p) = .ok true := by
    cases p with
    | nil => rfl
    | cons f p =>
      have hf : f.color = .black := hp.resolve_right nofun
      rw [top, h.absentOrBlack_above, hf]
      rfl
  simp only [Rbtree.insertLoop, addr_join, h.read, rbParent_cell h.aligned_top, habove,
    Programs.ok_bind]
  rfl

/-- Below a red node, the loop makes a pass. -/
theorem insertLoop_step (h : Focus m₀ own r m (f :: g :: p) t) (ht : t ≠ .leaf)
    (hf : f.color = .red) : Rbtree.insertLoop r (fuel + 1) m (addr t) =
      (do
        let (m', b) ← insertPass g.side m (addr t) f.value g.value r
        Rbtree.insertLoop r fuel m' b) := by
  have hparent := focus_close.mp h
  have hne : addr g.sibling ≠ f.value := by
    have hne := (focus_close.mp hparent).addr_ne (.inl join_ne_leaf)
    rwa [Frame.close, addr_join] at hne
  have hside : (if f.value = (cell (top 0 p) g.color g.side f.value (addr g.sibling)).rbLeft
      then Side.left else .right) = g.side :=
    (if_congr eq_comm rfl rfl).trans (side_of_cell hne)
  have halign : Aligned f.value := h.aligned_top
  have halign' : Aligned g.value := hparent.aligned_top
  have hread := h.read_above
  have hread' := hparent.read_above
  have habove := h.absentOrBlack_above
  obtain ⟨c, a, u, v, rfl⟩ := eq_join .left ht
  simp only [Frame.close, addr_join, top_cons] at hread hread'
  simp only [Rbtree.insertLoop, addr_join, h.read, top_cons, rbParent_cell halign, habove, hf,
    hread, rbParent_cell halign', hread', hside, Programs.ok_bind]
  rfl

/-- Under a black uncle, the subtree of the grandparent is turned, and the loop stops then. -/
theorem insertPass_turn (h : Focus m₀ own r m (f :: g :: p) t) (hred : t.color = .red)
    (hf : f.color = .red) (huncle : g.sibling.color = .black) :
    ∃ m' b, insertPass g.side m (addr t) f.value g.value r = .ok (m', b) ∧
      Focus m₀ own r m' p (insertTurn f g t) ∧
      ∀ fuel > 0, Rbtree.insertLoop r fuel m' b = .ok m' := by
  have hparent := focus_close.mp h
  have hread := hparent.read_above
  have huncle' := (sibling.mp hparent).absentOrBlack
  have hsib : addr f.sibling ≠ addr t := hparent.addr_ne (.inl (ne_leaf_of_color hred))
  by_cases hside : f.side = g.side
  · -- `node` is an outer child
    have hchild : (cell (top 0 (g :: p)) f.color f.side (addr t) (addr f.sibling)).child
        g.side.other = addr f.sibling := by
      rw [← hside, child_other_cell]
    obtain ⟨m₁, m₂, m₃, hrun₁, hrun₂, hrun₃, h₃⟩ := insertPass_lift (hside ▸ hparent :
      Focus m₀ own r m (g :: p) (join g.side f.color f.value t f.sibling))
    refine ⟨m₃, addr t, ?_, (insertTurn_outer hside).symm ▸ h₃, fun fuel hfuel => ?_⟩
    · simp only [insertPass, hread, child_other_cell, huncle', huncle, h.read_above, hchild,
        if_neg hsib, hrun₁, hrun₂, hrun₃, Programs.ok_bind, pure_bind, decide_true, if_true]
      rfl
    · exact insertLoop_stop (p := ⟨g.side, .black, f.value,
        join g.side .red g.value f.sibling g.sibling⟩ :: p) (focus_close.mpr h₃)
        (ne_leaf_of_color hred) (.inl rfl) hfuel
  · -- `node` is an inner child, and changes places with its parent first
    have hother : f.side = g.side.other := (Side.eq_or_eq_other g.side f.side).resolve_left hside
    obtain ⟨b, v, w, rfl⟩ := eq_join_of_red g.side hred
    have hchild : (cell (top 0 (g :: p)) f.color f.side b (addr f.sibling)).child
        g.side.other = b := by
      rw [← hother, child_cell]
    have hparent' : Focus m₀ own r m (g :: p)
        (join g.side f.color f.value f.sibling (join g.side .red b v w)) := by
      rw [← join_other, ← hother]
      exact hparent
    obtain ⟨m₀', hrun₀, h₀⟩ := hparent'.rotate
    obtain ⟨m₁, m₂, m₃, hrun₁, hrun₂, hrun₃, h₃⟩ := insertPass_lift h₀
    refine ⟨m₃, f.value, ?_, ?_, fun fuel hfuel => ?_⟩
    · simp only [insertPass, hread, child_other_cell, huncle', huncle, h.read_above, hchild, hrun₀,
        if_true, addr_join, hrun₁, hrun₂, hrun₃, Programs.ok_bind, pure_bind, decide_true]
      rfl
    · rw [insertTurn_inner hside]
      exact hf ▸ h₃
    · have hstop := insertLoop_stop (p := ⟨g.side, .black, b,
        join g.side .red g.value w g.sibling⟩ :: p) (focus_close.mpr h₃) join_ne_leaf (.inl rfl)
        hfuel
      rwa [addr_join] at hstop

/-! ## The function -/

/-- The loop mends the tree above a red node. -/
theorem insertLoop (h : Focus m₀ own r m p t) (hred : t.color = .red) (hp : Hole p n)
    (hfuel : p.length + 2 ≤ 2 * fuel) :
    ∃ m', Rbtree.insertLoop r fuel m (addr t) = .ok m' ∧
      Focus m₀ own r m' [] (insertUp p t) := by
  induction p, t using insertUp.induct generalizing m fuel n with
  | case1 t =>
    rw [List.length_nil] at hfuel
    exact ⟨m, h.insertLoop_stop (ne_leaf_of_color hred) (.inr rfl) (by omega), h⟩
  | case2 f t =>
    -- the parent is the root, which is black
    have hf : f.color = .black := Color.ne_red.mp fun hf => absurd (hp.1 hf).2 (by simp [topColor])
    exact ⟨m, h.insertLoop_stop (ne_leaf_of_color hred) (.inl hf) (by omega), focus_close.mp h⟩
  | case3 f g p t hblack =>
    rw [insertUp, if_pos hblack]
    exact ⟨m, h.insertLoop_stop (ne_leaf_of_color hred) (.inl hblack) (by omega), focus_plug.mp h⟩
  | case4 f g p t hfred huncle ih =>
    have hf : f.color = .red := Color.ne_black.mp hfred
    obtain ⟨fuel, rfl⟩ : ∃ k, fuel = k + 1 := ⟨fuel - 1, by omega⟩
    obtain ⟨m₁, hrun₁, h₁⟩ := h.insertPass_recolor huncle
    have hfuel : p.length + 2 ≤ 2 * fuel := by
      simp only [List.length_cons] at hfuel
      omega
    obtain ⟨m₂, hrun₂, h₂⟩ := ih h₁ color_join hp.2.2.2.2 hfuel
    rw [addr_join] at hrun₂
    refine ⟨m₂, ?_, ?_⟩
    · rw [h.insertLoop_step (ne_leaf_of_color hred) hf, hrun₁]
      exact hrun₂
    · rw [insertUp, if_neg hfred, if_pos huncle]
      exact h₂
  | case5 f g p t hfred huncle =>
    have hf : f.color = .red := Color.ne_black.mp hfred
    obtain ⟨fuel, rfl⟩ : ∃ k, fuel = k + 1 := ⟨fuel - 1, by omega⟩
    obtain ⟨m₁, b, hrun₁, h₁, hstop⟩ := h.insertPass_turn hred hf (Color.ne_red.mp huncle)
    refine ⟨m₁, ?_, ?_⟩
    · rw [h.insertLoop_step (ne_leaf_of_color hred) hf, hrun₁]
      rw [List.length_cons, List.length_cons] at hfuel
      exact hstop fuel (by omega)
    · rw [insertUp, if_neg hfred, if_neg huncle]
      exact focus_plug.mp h₁

/-- `rb_insert_color` mends the tree above a red node. -/
theorem rbInsertColor (h : Focus m₀ own r m p t) (hred : t.color = .red) (hp : Hole p n)
    (hfuel : p.length + 2 ≤ 2 * fuel) :
    ∃ m', Rbtree.rbInsertColor fuel m (addr t) r = .ok m' ∧
      Focus m₀ own r m' [] (insertFix p t) := by
  obtain ⟨m₁, hrun₁, h₁⟩ := h.insertLoop hred hp hfuel
  have hne : insertUp p t ≠ .leaf := fun hleaf => by
    have hmem : addr t ∈ (insertUp p t).inorder := by
      rw [inorder_insertUp, mem_inorder_plug]
      exact .inl (addr_mem (ne_leaf_of_color hred))
    rw [hleaf] at hmem
    exact absurd hmem List.not_mem_nil
  obtain ⟨m₂, hrun₂, h₂⟩ := h₁.setBlack hne
  have hroot : m₁.rbNode r = addr (insertUp p t) := h₁.root
  refine ⟨m₂, ?_, h₂⟩
  rw [Rbtree.rbInsertColor, hrun₁, Programs.ok_bind, hroot, hrun₂]

/-- `rb_link_node` puts a red leaf at the end of a path. -/
theorem rbLinkNode (h : Focus m₀ own r m p .leaf) (hvalid : Valid a) (hnode : m.node a ≠ none)
    (hfresh : a ∉ outside p) (hown : a ∈ own) :
    ∃ m', Rbtree.rbLinkNode m a (top 0 p) (linkAt r p) = .ok m' ∧
      Focus m₀ own r m' p (.node .red .leaf a .leaf) := by
  obtain ⟨w, hw⟩ := Option.ne_none_iff_exists'.mp hnode
  obtain ⟨-, houtside, -⟩ := nodup_plug.mp h.nodup
  have hvalidOut : ∀ z ∈ outside p, Valid z := fun z hz =>
    h.valid z (mem_inorder_plug.mpr (.inr hz))
  let m₁ := m.write a { w with rbParentColor := top 0 p }
  let m₂ := m₁.write a ⟨top 0 p, 0, w.rbLeft⟩
  let m₃ := m₂.write a ⟨top 0 p, 0, 0⟩
  have hnode₃ : ∀ z, z ≠ a → m₃.node z = m.node z := fun z hz =>
    (write_node_of_ne hz).trans ((write_node_of_ne hz).trans (write_node_of_ne hz))
  have hspine₃ : Spine m₃ 0 p 0 :=
    h.spine.congr fun z hz => hnode₃ z (ne_of_mem_of_not_mem hz hfresh)
  obtain ⟨m₄, hrun₄, hspine₄, hroot₄, hroots₄, hnode₄, hcells₄⟩ :=
    hspine₃.store (r := r) h.root houtside hvalidOut a
  have hmem : ∀ z, z ∈ (plug p (.node .red .leaf a .leaf)).inorder ↔ z = a ∨ z ∈ outside p :=
    fun z => by simp [inorder]
  refine ⟨m₄, ?_, hroot₄, hspine₄, ⟨?_, trivial, trivial⟩, ?_, ?_, ?_, ?_⟩
  · rw [Rbtree.rbLinkNode, modify_eq hvalid.ne_null hw, Programs.ok_bind,
      modify_eq hvalid.ne_null write_node_self, Programs.ok_bind,
      modify_eq hvalid.ne_null write_node_self, Programs.ok_bind]
    exact hrun₄
  · rw [hnode₄ a hfresh, write_node_self, pack_red]
    rfl
  · exact nodup_plug.mpr ⟨by simp [inorder], houtside, by simpa [inorder] using hfresh⟩
  · exact fun z hz => ((hmem z).mp hz).elim (fun heq => heq ▸ hvalid) (hvalidOut z)
  · exact fun z hz => ((hmem z).mp hz).elim (fun heq => heq ▸ hown) fun hz =>
      h.owned z (mem_inorder_plug.mpr (.inr hz))
  · have hcells₃ : SameCells m m₃ := (((SameCells.refl m).write _ (by simp [hw])).write _
      (by rw [write_node_self]; simp)).write _ (by rw [write_node_self]; simp)
    refine h.rest.trans ⟨fun z hz => ?_, hroots₄, hcells₃.trans hcells₄⟩
    have hzout : z ∉ outside p := fun hmem => hz (h.owned z (mem_inorder_plug.mpr (.inr hmem)))
    rw [hnode₄ z hzout, hnode₃ z fun heq => hz (heq ▸ hown)]

end Focus

end Hixo.Rbtree
