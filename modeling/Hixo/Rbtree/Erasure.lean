import Hixo.Rbtree.Insertion

/-!
# Erasure from a red-black tree

`__rb_erase_color` does in memory what `eraseFix` does to trees, and `rb_erase` takes a node out of
its tree.

* `Focus.eraseSibling`, `Focus.eraseAround`: the two parts of a pass of the loop;
* `Focus.eraseLoop`, `Focus.rbEraseColor`: the loop and the function;
* `Focus.descend`: the loop that looks for the next node;
* `Focus.eraseUpper`, `Focus.eraseInner`: a node with at most one child, and with two;
* `Focus.rbErase`: the function.
-/

namespace Hixo.Rbtree

open ColoredTree RbTree RbNode Memory

variable {ρ : Type} [DecidableEq ρ] {m m' m₀ : Memory ρ} {r : ρ} {own : List Addr}
  {par a b h k : Addr} {c c' : Color} {d : Side} {t u s : RbTree Addr} {p q : List (Frame Addr)}
  {f g : Frame Addr} {n fuel : ℕ}

namespace Focus

/-! ## A pass of the loop -/

omit [DecidableEq ρ] in
theorem childrenBlack (h : Focus m₀ own r m p (join d c a t u)) :
    Rbtree.childrenBlack m a = .ok (decide (t.color = .black ∧ u.color = .black)) := by
  have ht : m.absentOrBlack (addr t) = .ok (decide (t.color = .black)) :=
    absentOrBlack (p := ⟨d, c, a, u⟩ :: p) (focus_close.mpr h)
  have hu : m.absentOrBlack (addr u) = .ok (decide (u.color = .black)) :=
    absentOrBlack (p := ⟨d.other, c, a, t⟩ :: p)
      (focus_close.mpr (by rwa [Frame.close, join_other]))
  cases d <;> cases htc : t.color <;> cases huc : u.color <;>
    simp only [Rbtree.childrenBlack, h.read, cell, ht, hu, htc, huc, Programs.ok_bind] <;> rfl

/-- The last steps of a pass: the sibling takes the place of the parent. -/
theorem eraseAround_lift (h : Focus m₀ own r m p (join d c a t (join d c' b u s)))
    (hs : s ≠ .leaf) :
    ∃ m₁ m₂ m₃ m₄, m.modify b (rbSetColor (bits c)) = .ok m₁ ∧ m₁.modify a rbSetBlack = .ok m₂ ∧
      m₂.read b = .ok (cell a c d (addr u) (addr s)) ∧
      m₂.modify (addr s) rbSetBlack = .ok m₃ ∧ Memory.rotate d m₃ a r = .ok m₄ ∧
      Focus m₀ own r m₄ p (join d c b (join d .black a t u) (s.paint .black)) := by
  have hb : Focus m₀ own r m (⟨d.other, c, a, t⟩ :: p) (join d c' b u s) :=
    focus_close.mpr (by rwa [Frame.close, join_other])
  obtain ⟨m₁, hrun₁, h₁⟩ := hb.setColor join_ne_leaf c
  obtain ⟨m₂, hrun₂, h₂⟩ := (focus_close.mp h₁).setBlack join_ne_leaf
  simp only [Frame.close, paint_join, addr_join, join_other] at hrun₁ hrun₂ h₂
  have hb₂ : Focus m₀ own r m₂ (⟨d.other, .black, a, t⟩ :: p) (join d c b u s) :=
    focus_close.mpr (by rwa [Frame.close, join_other])
  have hs₂ : Focus m₀ own r m₂ (⟨d.other, c, b, u⟩ :: ⟨d.other, .black, a, t⟩ :: p) s :=
    focus_close.mpr (by rwa [Frame.close, join_other])
  obtain ⟨m₃, hrun₃, h₃⟩ := hs₂.setBlack hs
  have h₃ := focus_close.mp (focus_close.mp h₃)
  simp only [Frame.close, join_other] at h₃
  obtain ⟨m₄, hrun₄, h₄⟩ := h₃.rotate
  exact ⟨m₁, m₂, m₃, m₄, hrun₁, hrun₂, hb₂.read, hrun₃, hrun₄, h₄⟩

/-- What the second part of a pass does at the node `f` above the subtree `t`. -/
def Around (m₀ : Memory ρ) (own : List Addr) (r : ρ) (m : Memory ρ) (p : List (Frame Addr))
    (f : Frame Addr) : Turned Addr → Prop
  | .lacks u => ∃ m', Rbtree.eraseAround f.side m f.value (addr f.sibling) r =
      .ok (m', .again (addr u) (top 0 p)) ∧ Focus m₀ own r m' p u
  | .mended u => ∃ m', Rbtree.eraseAround f.side m f.value (addr f.sibling) r =
      .ok (m', .done (m'.rbNode r)) ∧ Focus m₀ own r m' p u

/-- The second part of a pass makes the turn of `eraseTurn`. -/
theorem eraseAround (h : Focus m₀ own r m (f :: p) t) (hs : f.sibling ≠ .leaf)
    (hsc : f.sibling.color = .black) :
    Around m₀ own r m p f (eraseTurn f.side f.color f.value t f.sibling) := by
  have hparent : Focus m₀ own r m p (join f.side f.color f.value t f.sibling) := focus_close.mp h
  have hsib := sibling.mp h
  rcases eraseTurn_cases f.side hs with ⟨b, near, far, hjoin, hnear, hfar⟩ |
    ⟨b, x, nl, nr, far, hjoin, hfar⟩ | ⟨b, near, far, hjoin, hfar⟩ <;>
    rw [hsc] at hjoin <;> rw [hjoin] at hparent hsib
  · -- the sibling becomes red
    obtain ⟨m₁, hrun₁, h₁⟩ := hsib.setRed join_ne_leaf
    rw [paint_join] at h₁
    rw [addr_join] at hrun₁
    have h₁ := focus_close.mp h₁
    rw [Frame.close, join_other] at h₁
    rw [hjoin, eraseTurn_near_far hnear hfar]
    refine ⟨m₁, ?_, h₁⟩
    simp only [Rbtree.eraseAround, hjoin, addr_join, hsib.childrenBlack, hnear, hfar, hrun₁,
      h₁.read, rbParent_cell h₁.aligned_top, Programs.ok_bind]
    rfl
  · -- the near child of the sibling goes up, first over the sibling and then over the parent
    have hread := hsib.read
    have hnearFocus : Focus m₀ own r m
        (⟨f.side, .black, b, far⟩ :: ⟨f.side.other, f.color, f.value, t⟩ :: p)
        (join f.side .red x nl nr) := focus_close.mpr hsib
    have hfarFocus : m.absentOrBlack (addr far) = .ok true := by
      have hfarBlack := (sibling.mp hnearFocus).absentOrBlack
      rwa [hfar] at hfarBlack
    obtain ⟨m₁, hrun₁, h₁⟩ := hnearFocus.setBlack join_ne_leaf
    obtain ⟨m₂, hrun₂, h₂⟩ := (focus_close.mp h₁).setRed join_ne_leaf
    simp only [Frame.close, paint_join] at h₂
    obtain ⟨m₃, hrun₃, h₃⟩ := h₂.rotate_other
    have h₃ := focus_close.mp h₃
    rw [Frame.close, join_other] at h₃
    obtain ⟨m₄, m₅, m₆, m₇, hrun₄, hrun₅, hread₅, hrun₆, hrun₇, h₇⟩ :=
      h₃.eraseAround_lift join_ne_leaf
    rw [paint_join] at h₇
    simp only [Frame.close, addr_join] at hrun₁ hrun₂ hread hread₅ hrun₆
    rw [hjoin, eraseTurn_near hfar]
    refine ⟨m₇, ?_, h₇⟩
    have hred : (join f.side .red x nl nr).color ≠ .black := by
      simp
    simp only [Rbtree.eraseAround, hjoin, addr_join, hsib.childrenBlack, hfarFocus, hread,
      child_cell, child_other_cell, hrun₁, hrun₂, hrun₃, h₃.read, rbColor_cell h₃.aligned_top,
      hrun₄, hrun₅, hread₅, hrun₆, hrun₇, Programs.ok_bind, hred, false_and, decide_false,
      if_true, pure_bind]
    rfl
  · -- the sibling goes up
    have hfarFocus : m.absentOrBlack (addr far) = .ok false := by
      have hfarRed := absentOrBlack (p := ⟨f.side.other, .black, b, near⟩ ::
        ⟨f.side.other, f.color, f.value, t⟩ :: p) (focus_close.mpr
          (by rwa [Frame.close, join_other]))
      rwa [hfar] at hfarRed
    have hread := hsib.read
    obtain ⟨m₄, m₅, m₆, m₇, hrun₄, hrun₅, hread₅, hrun₆, hrun₇, h₇⟩ :=
      hparent.eraseAround_lift (ne_leaf_of_color hfar)
    rw [hjoin, eraseTurn_far hfar]
    refine ⟨m₇, ?_, h₇⟩
    simp only [Rbtree.eraseAround, hjoin, addr_join, hsib.childrenBlack, hfarFocus, hread,
      child_other_cell, hparent.read, rbColor_cell hparent.aligned_top, hrun₄, hrun₅, hread₅, hrun₆,
      hrun₇, Programs.ok_bind, hfar, reduceCtorEq, and_false, decide_false, if_false,
      Bool.false_eq_true, pure_bind]
    rfl

/-- When the sibling is black, it stays the sibling, and nothing is written. -/
theorem eraseSibling_black (h : Focus m₀ own r m (f :: p) t) (hs : f.sibling ≠ .leaf)
    (hsc : f.sibling.color = .black) :
    Rbtree.eraseSibling f.side m f.value r = .ok (m, addr f.sibling) := by
  have hsib := sibling.mp h
  obtain ⟨c, b, near, far, hjoin⟩ := eq_join f.side hs
  obtain rfl : c = .black := by
    rw [hjoin, color_join] at hsc
    exact hsc
  rw [hjoin] at hsib
  simp only [Rbtree.eraseSibling, h.read_above, hjoin, addr_join, child_other_cell, hsib.read,
    rbIsRed_cell hsib.aligned_top, Programs.ok_bind]
  rfl

/-- A red sibling changes places with the parent, and its near child is the sibling then. -/
theorem eraseSibling_red {near far : RbTree Addr} (h : Focus m₀ own r m (f :: p) t)
    (hjoin : f.sibling = join f.side .red b near far) :
    ∃ m', Rbtree.eraseSibling f.side m f.value r = .ok (m', addr near) ∧
      Focus m₀ own r m' (⟨f.side, .red, f.value, near⟩ :: ⟨f.side, .black, b, far⟩ :: p) t := by
  have hsib := sibling.mp h
  have hread := h.read_above
  rw [hjoin] at hsib hread
  obtain ⟨m₁, hrun₁, h₁⟩ := hsib.setBlack join_ne_leaf
  obtain ⟨m₂, hrun₂, h₂⟩ := (focus_close.mp h₁).setRed join_ne_leaf
  simp only [Frame.close, paint_join, join_other, addr_join] at hrun₁ hrun₂ h₂ hread
  obtain ⟨m₃, hrun₃, h₃⟩ := h₂.rotate
  have h₃ : Focus m₀ own r m₃
      (⟨f.side, .red, f.value, near⟩ :: ⟨f.side, .black, b, far⟩ :: p) t :=
    focus_close.mpr (focus_close.mpr h₃)
  refine ⟨m₃, ?_, h₃⟩
  simp only [Rbtree.eraseSibling, hread, child_other_cell, hsib.read, rbIsRed_cell hsib.aligned_top,
    hrun₁, hrun₂, hrun₃, h₃.read_above, Programs.ok_bind, decide_true, if_true]
  rfl

/-! ## The loop -/

omit [DecidableEq ρ] in
theorem root_mem_outside (hp : p ≠ []) : rootOf p h ∈ outside p := by
  induction p generalizing h with
  | nil => exact absurd rfl hp
  | cons f p ih =>
    rcases eq_or_ne p [] with rfl | hne
    · simp [rootOf]
    · exact mem_outside_cons.mpr (.inr (.inr (ih hne)))

omit [DecidableEq ρ] in
/-- A subtree is at the root exactly when it is the whole tree. -/
theorem addr_eq_root_iff (h : Focus m₀ own r m p t) : addr t = m.rbNode r ↔ p = [] := by
  constructor
  · intro heq
    by_contra hp
    have hmem : addr t ∈ outside p := heq ▸ h.root ▸ root_mem_outside hp
    rcases addr_eq_zero_or_mem t with hz | ht
    · exact (h.valid _ (mem_inorder_plug.mpr (.inr hmem))).ne_null hz
    · exact (nodup_plug.mp h.nodup).2.2 _ ht hmem
  · rintro rfl
    exact h.root.symm

/-- The loop stops at a red node. -/
theorem eraseLoop_red (h : Focus m₀ own r m p t) (ht : t.color = .red) (b : Addr)
    (hfuel : 0 < fuel) : Rbtree.eraseLoop r fuel m (addr t) b = .ok (m, addr t) := by
  obtain ⟨fuel, rfl⟩ := Nat.exists_eq_succ_of_ne_zero hfuel.ne'
  simp only [Rbtree.eraseLoop, h.absentOrBlack, ht, Programs.ok_bind]
  rfl

/-- The loop stops at the root. -/
theorem eraseLoop_root (h : Focus m₀ own r m [] t) (b : Addr) (hfuel : 0 < fuel) :
    Rbtree.eraseLoop r fuel m (addr t) b = .ok (m, addr t) := by
  cases ht : t.color with
  | red => exact h.eraseLoop_red ht b hfuel
  | black =>
    obtain ⟨fuel, rfl⟩ := Nat.exists_eq_succ_of_ne_zero hfuel.ne'
    have hroot : m.rbNode r = addr t := h.root
    simp only [Rbtree.eraseLoop, h.absentOrBlack, ht, hroot, Programs.ok_bind]
    rfl

/-- At a black node under the node `f`, the loop makes a pass. -/
theorem eraseLoop_step (h : Focus m₀ own r m (f :: p) t) (ht : t.color = .black)
    (hs : f.sibling ≠ .leaf) : Rbtree.eraseLoop r (fuel + 1) m (addr t) f.value =
      (do
        let (m, other) ← Rbtree.eraseSibling f.side m f.value r
        match ← Rbtree.eraseAround f.side m f.value other r with
        | (m, .again node parent) => Rbtree.eraseLoop r fuel m node parent
        | (m, .done node) => return (m, node)) := by
  have hroot : addr t ≠ m.rbNode r := fun heq => absurd (h.addr_eq_root_iff.mp heq) (by simp)
  have hside : (if (cell (top 0 p) f.color f.side (addr t) (addr f.sibling)).rbLeft = addr t then
      Side.left else .right) = f.side := side_of_cell ((focus_close.mp h).addr_ne (.inr hs))
  simp only [Rbtree.eraseLoop, h.absentOrBlack, ht, h.read_above, hside, if_neg hroot,
    Programs.ok_bind]
  rfl

/-- The loop mends the tree above a subtree that lacks a black node. -/
theorem eraseLoop (h : Focus m₀ own r m p t) (ht : Lacking t n) (hp : Hole p (n + 1))
    (hfuel : p.length < fuel) :
    ∃ m', Rbtree.eraseLoop r fuel m (addr t) (top 0 p) = .ok (m', addr (eraseUp p t).2) ∧
      Focus m₀ own r m' (eraseUp p t).1 (eraseUp p t).2 := by
  induction p generalizing t m n fuel with
  | nil => exact ⟨m, h.eraseLoop_root 0 hfuel, h⟩
  | cons f p ih =>
    rw [List.length_cons] at hfuel
    obtain ⟨fuel, rfl⟩ : ∃ k, fuel = k + 1 := ⟨fuel - 1, by omega⟩
    cases htc : t.color with
    | red =>
      rw [eraseUp_of_red htc]
      exact ⟨m, h.eraseLoop_red htc f.value (by omega), h⟩
    | black =>
      have ht := (lacking_of_black htc).mp ht
      obtain ⟨hf, hs, hp⟩ := hp
      rw [top_cons, h.eraseLoop_step htc hs.ne_leaf]
      cases hsc : f.sibling.color with
      | black =>
        have haround := h.eraseAround hs.ne_leaf hsc
        rw [eraseUp_black htc hsc, h.eraseSibling_black hs.ne_leaf hsc, Programs.ok_bind]
        rcases eraseTurn_balanced f.color f.value ht hs hsc with ⟨u, hturn, -, hu⟩ |
          ⟨u, hturn, -, -⟩ <;> rw [hturn] at haround ⊢ <;> obtain ⟨m₁, hrun₁, h₁⟩ := haround
        · -- the loop goes on above
          rw [Nat.add_right_comm] at hp
          obtain ⟨m₂, hrun₂, h₂⟩ := ih h₁ hu hp (Nat.lt_of_succ_lt_succ hfuel)
          exact ⟨m₂, (Programs.bind_of_eq_ok hrun₁).trans hrun₂, h₂⟩
        · have hroot : m₁.rbNode r = addr (plug p u) := h₁.root.trans addr_plug.symm
          exact ⟨m₁, (Programs.bind_of_eq_ok hrun₁).trans
            (congrArg (fun b => Except.ok (m₁, b)) hroot), focus_plug.mp h₁⟩
      | red =>
        obtain ⟨b, near, far, hjoin⟩ := eq_join_of_red f.side hsc
        rw [hjoin, balanced_join_red] at hs
        obtain ⟨⟨hnc, -⟩, hnear, -⟩ := hs
        obtain ⟨m₁, hrun₁, h₁⟩ := h.eraseSibling_red hjoin
        have haround := h₁.eraseAround hnear.ne_leaf hnc
        rw [eraseUp_red htc hjoin, hrun₁, Programs.ok_bind]
        rcases eraseTurn_balanced .red f.value ht hnear hnc with ⟨u, hturn, huc, -⟩ |
          ⟨u, hturn, -, -⟩ <;> rw [hturn] at haround ⊢ <;> obtain ⟨m₂, hrun₂, h₂⟩ := haround
        · -- the parent is red now, and the loop stops
          exact ⟨m₂, (Programs.bind_of_eq_ok hrun₂).trans (h₂.eraseLoop_red huc b (by omega)), h₂⟩
        · have hroot : m₂.rbNode r = addr (plug (⟨f.side, .black, b, far⟩ :: p) u) :=
            h₂.root.trans addr_plug.symm
          exact ⟨m₂, (Programs.bind_of_eq_ok hrun₂).trans
            (congrArg (fun b => Except.ok (m₂, b)) hroot), focus_plug.mp h₂⟩

/-- `__rb_erase_color` mends the tree above a subtree that lacks a black node. -/
theorem rbEraseColor (h : Focus m₀ own r m p t) (ht : Lacking t n) (hp : Hole p (n + 1))
    (hfuel : p.length < fuel) :
    ∃ m', Rbtree.rbEraseColor fuel m (addr t) (top 0 p) r = .ok m' ∧
      Focus m₀ own r m' [] (eraseFix p t) := by
  obtain ⟨m₁, hrun₁, h₁⟩ := h.eraseLoop ht hp hfuel
  by_cases hleaf : (eraseUp p t).2 = .leaf
  · refine ⟨m₁, ?_, ?_⟩
    · rw [Rbtree.rbEraseColor, hrun₁, Programs.ok_bind, hleaf]
      rfl
    · rw [eraseFix, hleaf, paint_leaf, ← hleaf]
      exact focus_plug.mp h₁
  · obtain ⟨m₂, hrun₂, h₂⟩ := h₁.setBlack hleaf
    refine ⟨m₂, ?_, focus_plug.mp h₂⟩
    rw [Rbtree.rbEraseColor, hrun₁, Programs.ok_bind]
    exact (if_neg fun hz => hleaf (h₁.addr_eq_zero_iff.mp hz)).trans hrun₂

/-! ## Taking a node out -/

omit [DecidableEq ρ] in
/-- The loop down one side finds the last node there. -/
theorem descend (h : Focus m₀ own r m p t) (ht : t ≠ .leaf) (hfuel : t.height ≤ fuel) :
    ∃ q c a u, Rbtree.descend d fuel m (addr t) = .ok a ∧ t = plug q (join d c a .leaf u) ∧
      ∀ f ∈ q, f.side = d := by
  induction fuel generalizing p t with
  | zero =>
    obtain ⟨c, a, v, u, rfl⟩ := eq_join d ht
    rw [height_join] at hfuel
    omega
  | succ fuel ih =>
    obtain ⟨c, a, v, u, rfl⟩ := eq_join d ht
    have hv : Focus m₀ own r m (⟨d, c, a, u⟩ :: p) v := focus_close.mpr h
    by_cases hleaf : v = .leaf
    · refine ⟨[], c, a, u, ?_, by rw [hleaf]; rfl, by simp⟩
      simp only [Rbtree.descend, addr_join, h.read, child_cell, hleaf, addr_leaf, Programs.ok_bind]
      rfl
    · rw [height_join] at hfuel
      obtain ⟨q, c', b, w, hrun, rfl, hside⟩ := ih hv hleaf (by omega)
      refine ⟨q ++ [⟨d, c, a, u⟩], c', b, w, ?_, by rw [plug_append]; rfl, ?_⟩
      · have hne : addr (plug q (join d c' b .leaf w)) ≠ 0 :=
          fun hz => hleaf (hv.addr_eq_zero_iff.mp hz)
        simp only [Rbtree.descend, addr_join, h.read, child_cell, if_neg hne, hrun,
          Programs.ok_bind]
      · intro f hf
        rcases List.mem_append.mp hf with hf | hf
        · exact hside f hf
        · rw [List.mem_singleton.mp hf]

/-- The end of `rb_erase`: when the node that was taken out was black, the tree is mended. -/
theorem finish (h : Focus m₀ own r m p t) (hbal : Balanced (join d c a .leaf t) n) (hp : Hole p n)
    (htop : c = .red → topColor p = .black) (hfuel : p.length < fuel) :
    ∃ m' t', (if bits c = rbBlack then Rbtree.rbEraseColor fuel m (addr t) (top 0 p) r
        else return m) = .ok m' ∧ Focus m₀ own r m' [] t' ∧ RedBlack t' ∧
      t'.inorder = (plug p t).inorder := by
  cases c with
  | red =>
    rw [balanced_join_red] at hbal
    refine ⟨m, plug p t, rfl, focus_plug.mp h, redBlack_plug.mpr ⟨n, hbal.2.2, hp, fun hred => ?_⟩,
      rfl⟩
    exact absurd (hbal.1.2.symm.trans hred) (by decide)
  | black =>
    obtain ⟨-, k, rfl, hleaf, ht⟩ := balanced_join.mp hbal
    obtain ⟨m', hrun, h'⟩ := h.rbEraseColor ht.lacking hp hfuel
    exact ⟨m', _, hrun, h', eraseFix_redBlack ht.lacking hp, inorder_eraseFix⟩

/-- A node with at most one child is taken out. -/
theorem eraseUpper (h : Focus m₀ own r m p (join d c a .leaf t))
    (hrb : RedBlack (plug p (join d c a .leaf t))) (hfuel : p.length < fuel) :
    ∃ m' t', Rbtree.eraseUpper fuel m a (addr t) r = .ok m' ∧ Focus m₀ own r m' [] t' ∧
      RedBlack t' ∧ t'.inorder = (plug p t).inorder := by
  obtain ⟨n, hbal, hp, htop⟩ := redBlack_plug.mp hrb
  rw [color_join] at htop
  obtain ⟨hnodup, houtside, hout⟩ := nodup_plug.mp h.nodup
  obtain ⟨⟨-, hat⟩, -, htnodup, -⟩ := nodup_join.mp hnodup
  simp only [mem_inorder_join] at hout
  have haout : a ∉ outside p := hout a (.inl rfl)
  have hvalid : ∀ z ∈ outside p, Valid z := fun z hz => h.valid z (mem_inorder_plug.mpr (.inr hz))
  have hmem : ∀ z ∈ (plug p t).inorder, z ∈ (plug p (join d c a .leaf t)).inorder := fun z hz => by
    simp only [mem_inorder_plug, mem_inorder_join] at hz ⊢
    tauto
  -- the child is linked to the parent, and the parent to the child
  obtain ⟨m₁, hrun₁, ht₁, hroot₁, hnode₁, hcells₁⟩ := (shape_join.mp h.shape).2.2.reparent
    h.valid_root.aligned htnodup (fun z hz => h.valid z (by simp [hz])) (top 0 p)
  have hspine₁ : Spine m₁ 0 p a := h.spine_join.congr fun z hz =>
    hnode₁ z fun hzt => hout z (by simp [hzt]) hz
  obtain ⟨m₂, hrun₂, hspine₂, hroot₂, hroots₂, hnode₂, hcells₂⟩ := hspine₁.store
    ((congrFun hroot₁ r).trans h.root_join) houtside hvalid (addr t)
  rw [← hspine₁.replaceChild_eq .left hvalid haout h.valid_root.ne_null] at hrun₂
  have h₂ : Focus m₀ own r m₂ p t := by
    refine ⟨hroot₂, hspine₂, ht₁.congr fun z hz => hnode₂ z (hout z (by simp [hz])), ?_,
      fun z hz => h.valid z (hmem z hz), fun z hz => h.owned z (hmem z hz),
      h.rest.trans ⟨fun z hz => ?_, fun s hs => (hroots₂ s hs).trans (congrFun hroot₁ s),
        hcells₁.trans hcells₂⟩⟩
    · exact nodup_plug.mpr ⟨htnodup, houtside, fun z hz => hout z (by simp [hz])⟩
    · have hz : z ∉ (plug p t).inorder := fun hz' => hz (h.owned z (hmem z hz'))
      simp only [mem_inorder_plug, not_or] at hz
      exact (hnode₂ z hz.2).trans (hnode₁ z hz.1)
  obtain ⟨m₃, t', hrun₃, h₃, hrb₃, hinorder⟩ := h₂.finish hbal hp htop hfuel
  refine ⟨m₃, t', ?_, h₃, hrb₃, hinorder⟩
  simp only [Rbtree.eraseUpper, h.read, rbParent_cell h.aligned_top, rbColor_cell h.aligned_top,
    hrun₁, hrun₂, Programs.ok_bind]
  exact hrun₃

/-! ## A node with two children -/

omit [DecidableEq ρ] in
/-- The next node `b` is taken out of the right subtree of `old`, unless it is the root there, and
gets the rest of the right subtree. -/
theorem eraseDetach {old : Addr} (hspine : Spine m old q b)
    (hshape : Shape m (top old q) (join .left c b .leaf u))
    (hold : m.node old = some (cell par c' .right (rootOf q b) k)) (hold0 : old ≠ 0)
    (haligned : Aligned old) (hleft : ∀ f ∈ q, f.side = .left)
    (hnodup : (old :: (plug q (join .left c b .leaf u)).inorder).Nodup)
    (hvalid : ∀ a ∈ (plug q (join .left c b .leaf u)).inorder, Valid a) :
    ∃ m', Rbtree.eraseDetach m old b (addr u) (top old q) = .ok (m', top b q) ∧
      Shape m' b (plug q u) ∧
      (∃ w, m'.node b = some w ∧ w.rbRight = addr (plug q u)) ∧
      m'.rbNode = m.rbNode ∧
      (∀ a ∉ (plug q (join .left c b .leaf u)).inorder, m'.node a = m.node a) ∧
      SameCells m m' := by
  cases q with
  | nil =>
    obtain ⟨hb, -, hu⟩ := shape_join.mp hshape
    exact ⟨m, if_pos rfl, hu, ⟨_, hb, rfl⟩, rfl, fun _ _ => rfl, .refl m⟩
  | cons f q =>
    obtain ⟨hb, -, hu⟩ := shape_join.mp hshape
    have hf : f.side = .left := hleft f List.mem_cons_self
    obtain ⟨holdNot, hnodup⟩ := List.nodup_cons.mp hnodup
    obtain ⟨hnodupIn, houtside, hout⟩ := nodup_plug.mp hnodup
    obtain ⟨⟨-, hbu⟩, -, hunodup, -⟩ := nodup_join.mp hnodupIn
    simp only [mem_inorder_plug, mem_inorder_join, mem_outside_cons, not_or] at hout holdNot
    have hbf : b ≠ f.value := (hout b (.inl rfl)).1
    have hvalid : ∀ z, z = b ∨ z ∈ u.inorder ∨ z ∈ outside (f :: q) → Valid z := fun z hz =>
      hvalid z (by simp only [mem_inorder_plug, mem_inorder_join]; tauto)
    have hb0 : b ≠ 0 := (hvalid b (.inl rfl)).ne_null
    have hold' : ∀ z, z = b ∨ z ∈ u.inorder ∨ z ∈ outside (f :: q) → old ≠ z := by
      simp only [mem_outside_cons]
      rintro z hz rfl
      tauto
    have hrest : ∀ z ∈ (plug (f :: q) u).inorder, z ∈ u.inorder ∨ z ∈ outside (f :: q) :=
      fun z hz => mem_inorder_plug.mp hz
    -- the parent of `b` gets its right subtree
    obtain ⟨m₁, hrun₁, hu₁, hroot₁, hnode₁, hcells₁⟩ := hu.reparent
      (hvalid b (.inl rfl)).aligned hunodup (fun z hz => hvalid z (.inr (.inl hz))) f.value
    have hspine₁ : Spine m₁ old (f :: q) b := hspine.congr fun z hz => hnode₁ z fun hzu => by
      have := hout z (.inr (.inr hzu))
      rw [mem_outside_cons] at hz
      tauto
    obtain ⟨m₂, hrun₂, hspine₂, hroot₂, hnode₂, hcells₂⟩ := hspine₁.setChild houtside
      (hvalid f.value (by simp)).ne_null (addr u)
    rw [hf] at hrun₂
    have hshape₂ : Shape m₂ old (plug (f :: q) u) := shape_plug.mpr ⟨hspine₂, hu₁.congr fun z hz =>
      hnode₂ z fun heq => (hout z (.inr (.inr hz))).1 heq⟩
    have hold₂ : m₂.node old = some (cell par c' .right (rootOf q f.value) k) := by
      rw [hnode₂ old (hold' f.value (by simp)),
        hnode₁ old fun hmem => hold' old (.inr (.inl hmem)) rfl]
      exact hold
    have hb₂ : m₂.node b = some (cell f.value c .left 0 (addr u)) := by
      rw [hnode₂ b hbf, hnode₁ b hbu]
      exact hb
    -- `b` gets the rest of the right subtree
    let m₃ := m₂.write b
      (RbNode.setChild .right (rootOf q f.value) (cell f.value c .left 0 (addr u)))
    have hrun₃ : m₂.modify b (RbNode.setChild .right (rootOf q f.value)) = .ok m₃ :=
      modify_eq hb0 hb₂ _
    have hold₃ : m₃.node old = some (cell par c' .right (rootOf q f.value) k) :=
      (write_node_of_ne (hold' b (.inl rfl))).trans hold₂
    have hbrest : b ∉ (plug (f :: q) u).inorder := fun hmem => by
      have := hout b (.inl rfl)
      have hmem := hrest b hmem
      rw [mem_outside_cons] at hmem
      tauto
    have hnodup' : (plug (f :: q) u).inorder.Nodup :=
      nodup_plug.mpr ⟨hunodup, houtside, fun z hz => by
        have := hout z (.inr (.inr hz))
        rw [mem_outside_cons]
        tauto⟩
    obtain ⟨m₄, hrun₄, hshape₄, hroot₄, hnode₄, hcells₄⟩ := (hshape₂.congr fun z hz =>
      write_node_of_ne (ne_of_mem_of_not_mem hz hbrest) : Shape m₃ old _).reparent haligned hnodup'
      (fun z hz => hvalid z (.inr (hrest z hz))) b
    have haddr : addr (plug (f :: q) u) = rootOf q f.value := addr_plug
    have haddr0 : rootOf q f.value ≠ 0 := haddr ▸
      (hvalid _ (.inr (hrest _ (addr_mem (plug_ne_leaf (p := q) join_ne_leaf))))).ne_null
    rw [haddr, Memory.reparent, if_neg haddr0] at hrun₄
    refine ⟨m₄, ?_, hshape₄, ⟨_, (hnode₄ b hbrest).trans write_node_self, haddr.symm⟩,
      hroot₄.trans (hroot₂.trans hroot₁), fun z hz => ?_,
      ((hcells₁.trans hcells₂).write _ (by simp [hb₂])).trans hcells₄⟩
    · rw [Rbtree.eraseDetach, top_cons, if_neg (Ne.symm (hold' f.value (by simp))), top_cons]
      simp only [hrun₁, hrun₂, read_eq hold0 hold₂, Programs.ok_bind]
      simp only [cell, hrun₃, hrun₄, read_eq hold0 hold₃, Programs.ok_bind]
      rfl
    · simp only [mem_inorder_plug, mem_inorder_join, not_or] at hz
      have hzrest : z ∉ (plug (f :: q) u).inorder := fun hmem =>
        (hrest z hmem).elim hz.1.2.2 hz.2
      rw [hnode₄ z hzrest, write_node_of_ne hz.1.1,
        hnode₂ z fun heq => hz.2 (mem_outside_cons.mpr (.inl heq)), hnode₁ z hz.1.2.2]

omit [DecidableEq ρ] in
/-- The next node `b` takes the place of the node `a`, under the parent of `a` and over its left
subtree. -/
theorem eraseInner_place {w : RbNode} (hnodup : (a :: (plug p (join .left c b t u)).inorder).Nodup)
    (ha0 : a ≠ 0) (haligned : Aligned a)
    (hvalid : ∀ z ∈ (plug p (join .left c b t u)).inorder, Valid z)
    (howned : ∀ z ∈ (plug p (join .left c b t u)).inorder, z ∈ own)
    (hspine : Spine m 0 p b) (hroot : m.rbNode r = rootOf p b) (ht : Shape m a t) (ht0 : t ≠ .leaf)
    (ha : m.node a = some (cell (top 0 p) c .left (addr t) k)) (hu : Shape m b u)
    (hb : m.node b = some w) (hw : w.rbRight = addr u) (hrest : Unchanged own r m₀ m) :
    ∃ m₁ m₂ m', m.modify b (fun n => { n with rbParentColor := pack (top 0 p) c }) = .ok m₁ ∧
      m₁.read a = .ok (cell (top 0 p) c .left (addr t) k) ∧
      m₁.modify b (RbNode.setChild .left (addr t)) = .ok m₂ ∧
      m₂.read a = .ok (cell (top 0 p) c .left (addr t) k) ∧
      m₂.modify (addr t) (rbSetParent b) = .ok m' ∧
      Focus m₀ own r m' p (join .left c b t u) := by
  obtain ⟨hamem, hnodup⟩ := List.nodup_cons.mp hnodup
  obtain ⟨hnodupIn, houtside, hout⟩ := nodup_plug.mp hnodup
  obtain ⟨⟨hbt, hbu⟩, htnodup, -, htu⟩ := nodup_join.mp hnodupIn
  simp only [mem_inorder_plug, mem_inorder_join, not_or] at hamem hvalid howned hout
  have hb0 : b ≠ 0 := (hvalid b (.inl (.inl rfl))).ne_null
  let m₁ := m.write b { w with rbParentColor := pack (top 0 p) c }
  let m₂ := m₁.write b (cell (top 0 p) c .left (addr t) (addr u))
  have hnode₂ : ∀ z, z ≠ b → m₂.node z = m.node z := fun z hz =>
    (write_node_of_ne hz).trans (write_node_of_ne hz)
  obtain ⟨m₃, hrun₃, ht₃, hroot₃, hnode₃, hcells₃⟩ := (ht.congr fun z hz =>
    hnode₂ z (ne_of_mem_of_not_mem hz hbt) : Shape m₂ a t).reparent haligned htnodup
    (fun z hz => hvalid z (.inl (.inr (.inl hz)))) b
  have haddr0 : addr t ≠ 0 := (hvalid _ (.inl (.inr (.inl (addr_mem ht0))))).ne_null
  rw [Memory.reparent, if_neg haddr0] at hrun₃
  refine ⟨m₁, m₂, m₃, modify_eq hb0 hb _, read_eq ha0 ((write_node_of_ne hamem.1.1).trans ha), ?_,
    read_eq ha0 ((hnode₂ a hamem.1.1).trans ha), hrun₃, ?_⟩
  · rw [modify_eq hb0 write_node_self]
    exact congrArg (fun x => Except.ok (m₁.write b ⟨pack (top 0 p) c, x, addr t⟩)) hw
  · have hbout : b ∉ outside p := hout b (.inl rfl)
    have htout : ∀ z ∈ t.inorder, z ∉ outside p := fun z hz => hout z (.inr (.inl hz))
    refine ⟨?_, ?_, shape_join.mpr ⟨(hnode₃ b hbt).trans write_node_self, ht₃, hu.congr ?_⟩,
      hnodup, fun z hz => hvalid z ?_, fun z hz => howned z ?_,
      hrest.trans ⟨fun z hz => ?_, ?_, ?_⟩⟩
    · rw [addr_join, hroot₃]
      exact hroot
    · rw [addr_join]
      exact hspine.congr fun z hz => (hnode₃ z fun hzt => htout z hzt hz).trans
        (hnode₂ z (ne_of_mem_of_not_mem hz hbout))
    · exact fun z hz => (hnode₃ z fun hzt => htu z hzt hz).trans
        (hnode₂ z (ne_of_mem_of_not_mem hz hbu))
    · simpa only [mem_inorder_plug, mem_inorder_join] using hz
    · simpa only [mem_inorder_plug, mem_inorder_join] using hz
    · rw [hnode₃ z fun hzt => hz (howned z (.inl (.inr (.inl hzt)))),
        hnode₂ z fun heq => hz (howned z (.inl (.inl heq)))]
    · exact fun s _ => congrFun hroot₃ s
    · exact (((SameCells.refl m).write _ (by simp [hb])).write _
        (by rw [write_node_self]; simp)).trans hcells₃

omit [DecidableEq ρ] in
/-- The first node of a tree, and the other ones. -/
theorem inorder_plug_left (hleft : ∀ f ∈ q, f.side = .left) :
    (plug q (join .left c b .leaf u)).inorder = b :: (plug q u).inorder := by
  rw [inorder_plug, inorder_plug, before_eq_nil hleft]
  rfl

/-- A node with two children is taken out, and the next node takes its place. -/
theorem eraseInner (h : Focus m₀ own r m p (join .left c a t u)) (ht : t ≠ .leaf) (hu : u ≠ .leaf)
    (hrb : RedBlack (plug p (join .left c a t u)))
    (hfuel : (plug p (join .left c a t u)).height ≤ fuel) :
    ∃ m' t', Rbtree.eraseInner fuel m a r = .ok m' ∧ Focus m₀ own r m' [] t' ∧ RedBlack t' ∧
      t'.inorder = before p ++ (t.inorder ++ u.inorder ++ after p) := by
  have hheight := length_add_height_le (p := p) (t := join .left c a t u)
  rw [height_join] at hheight
  have hfuelRight : u.height ≤ fuel := by omega
  -- the next node
  have hright : Focus m₀ own r m (⟨.right, c, a, t⟩ :: p) u := focus_close.mpr h
  obtain ⟨q, cs, b, v, hdescend, rfl, hleft⟩ := hright.descend (d := .left) hu hfuelRight
  have hlen := length_add_height_le (p := q) (t := join .left cs b .leaf v)
  rw [height_join] at hlen
  have hb := focus_append.mpr hright
  obtain ⟨hspineRight, hshapeRight⟩ := shape_plug.mp (shape_join.mp h.shape).2.2
  rw [addr_join] at hspineRight
  -- the addresses
  obtain ⟨hnodup, houtside, hout⟩ := nodup_plug.mp h.nodup
  obtain ⟨⟨hat, hau⟩, htnodup, hunodup, htu⟩ := nodup_join.mp hnodup
  simp only [mem_inorder_join] at hout
  have hbu : b ∈ (plug q (join .left cs b .leaf v)).inorder := by
    simp
  have hvalid : ∀ z ∈ outside p, Valid z := fun z hz => h.valid z (mem_inorder_plug.mpr (.inr hz))
  have hbout : b ∉ outside p := hout b (.inr (.inr hbu))
  have haout : a ∉ outside p := hout a (.inl rfl)
  -- the pointer to `a` becomes a pointer to `b`
  obtain ⟨m₁, hrun₁, hspine₁, hroot₁, hroots₁, hnode₁, hcells₁⟩ :=
    h.spine_join.store h.root_join houtside hvalid b
  rw [← h.spine_join.replaceChild_eq .left hvalid haout h.valid_root.ne_null] at hrun₁
  have hread₁ : m₁.read b = .ok (cell (top a q) cs .left 0 (addr v)) := by
    have hnode := hb.node
    rw [top_append] at hnode
    exact read_eq hb.valid_root.ne_null ((hnode₁ b hbout).trans hnode)
  have halign : Aligned (top a q) := by
    have halign := hb.aligned_top
    rwa [top_append] at halign
  have ha₁ : m₁.node a = some (cell (top 0 p) c .right (rootOf q b) (addr t)) := by
    rw [hnode₁ a haout, h.node, addr_plug, addr_join]
    rfl
  -- `b` gets the rest of the right subtree
  obtain ⟨m₂, hrun₂, hshape₂, ⟨w, hb₂, hw⟩, hroot₂, hnode₂, hcells₂⟩ := eraseDetach
    (m := m₁) (q := q) (u := v)
    (hspineRight.congr fun z hz => hnode₁ z (hout z (.inr (.inr (by simp [hz])))))
    (hshapeRight.congr fun z hz => hnode₁ z (hout z (.inr (.inr (by simp_all)))))
    ha₁ h.valid_root.ne_null h.valid_root.aligned hleft (List.nodup_cons.mpr ⟨hau, hunodup⟩)
    (fun z hz => h.valid z (mem_inorder_plug.mpr (.inl (mem_inorder_join.mpr (.inr (.inr hz))))))
  -- `b` takes the place of `a`
  have hinorder := inorder_plug_left (c := cs) (b := b) (u := v) hleft
  have hperm : (plug p (join .left c a t (plug q (join .left cs b .leaf v)))).inorder.Perm
      (a :: (plug p (join .left c b t (plug q v))).inorder) := by
    refine inorder_plug_perm.trans (List.Perm.trans ?_ (inorder_plug_perm.symm.cons a))
    refine (inorder_join_perm.trans
      (List.Perm.cons a (List.Perm.of_eq ?_))).append_right (outside p)
    rw [hinorder]
    rfl
  have hmem : ∀ z ∈ (plug p (join .left c b t (plug q v))).inorder,
      z ∈ (plug p (join .left c a t (plug q (join .left cs b .leaf v)))).inorder := fun z hz =>
    hperm.mem_iff.mpr (List.mem_cons_of_mem a hz)
  have ha₂ : m₂.node a = some (cell (top 0 p) c .left (addr t) (rootOf q b)) := by
    rw [hnode₂ a hau, ha₁]
    rfl
  have hspine₂ : Spine m₂ 0 p b := hspine₁.congr fun z hz =>
    hnode₂ z fun hzu => hout z (.inr (.inr hzu)) hz
  have ht₂ : Shape m₂ a t := (shape_join.mp h.shape).2.1.congr fun z hz =>
    (hnode₂ z (htu z hz)).trans (hnode₁ z (hout z (.inr (.inl hz))))
  have hrest₂ : Unchanged own r m₀ m₂ := by
    refine h.rest.trans ⟨fun z hz => ?_, fun s hs => (congrFun hroot₂ s).trans (hroots₁ s hs),
      hcells₁.trans hcells₂⟩
    have hz : z ∉ (plug p (join .left c a t (plug q (join .left cs b .leaf v)))).inorder :=
      fun hmem => hz (h.owned z hmem)
    rw [mem_inorder_plug, mem_inorder_join, not_or, not_or, not_or] at hz
    exact (hnode₂ z hz.1.2.2).trans (hnode₁ z hz.2)
  obtain ⟨m₃, m₄, m₅, hrun₃, hread₃, hrun₄, hread₄, hrun₅, h₅⟩ := eraseInner_place
    (hperm.nodup_iff.mp h.nodup) h.valid_root.ne_null h.valid_root.aligned
    (fun z hz => h.valid z (hmem z hz)) (fun z hz => h.owned z (hmem z hz)) hspine₂
    ((congrFun hroot₂ r).trans hroot₁) ht₂ ht ha₂ hshape₂ hb₂ hw hrest₂
  have h₅ : Focus m₀ own r m₅ (q ++ ⟨.right, c, b, t⟩ :: p) v :=
    focus_append.mpr (focus_close.mpr h₅)
  -- the subtree in the place of `b` lacks a black node when `b` was black
  have hrb' : RedBlack (plug (q ++ ⟨.right, c, a, t⟩ :: p) (join .left cs b .leaf v)) :=
    plug_append (q := q) (p := ⟨.right, c, a, t⟩ :: p) ▸ hrb
  obtain ⟨n, hbal, hp, htop⟩ := redBlack_plug.mp hrb'
  have htop' : cs = .red → topColor (q ++ ⟨.right, c, b, t⟩ :: p) = .black := fun hred => by
    rw [← htop (color_join.trans hred)]
    cases q <;> rfl
  have hlength : (q ++ ⟨.right, c, b, t⟩ :: p).length < fuel := by
    rw [List.length_append, List.length_cons]
    omega
  obtain ⟨m₆, t', hrun₆, h₆, hrb₆, hinorder₆⟩ :=
    h₅.finish hbal (hole_congr_value.mp hp) htop' hlength
  rw [top_append] at hrun₆
  refine ⟨m₆, t', ?_, h₆, hrb₆, ?_⟩
  · have hright :
        (cell (top 0 p) c .left (addr t) (addr (plug q (join .left cs b .leaf v)))).rbRight =
          addr (plug q (join .left cs b .leaf v)) := rfl
    have hright' : (cell (top a q) cs .left 0 (addr v)).rbRight = addr v := rfl
    simp only [Rbtree.eraseInner, h.read, hright, hdescend, rbParent_cell h.aligned_top, hrun₁,
      hread₁, hright', rbParent_cell halign, rbColor_cell halign, Programs.ok_bind]
    have hleft' : (cell (top 0 p) c .left (addr t) (rootOf q b)).rbLeft = addr t := rfl
    simp only [hrun₂, read_eq h.valid_root.ne_null ha₂, rbParentColor_cell, hrun₃, hread₃, hleft',
      hrun₄, hread₄, hrun₅, Programs.ok_bind]
    exact hrun₆
  · rw [hinorder₆, plug_append, inorder_plug, before, after, hinorder]
    simp [Frame.before, Frame.after]

/-- `rb_erase` takes a node out of its tree. -/
theorem rbErase (h : Focus m₀ own r m p (join .left c a t u))
    (hrb : RedBlack (plug p (join .left c a t u)))
    (hfuel : (plug p (join .left c a t u)).height ≤ fuel) :
    ∃ m' t', Rbtree.rbErase fuel m a r = .ok m' ∧ Focus m₀ own r m' [] t' ∧ RedBlack t' ∧
      t'.inorder = before p ++ (t.inorder ++ u.inorder ++ after p) := by
  have hheight := length_add_height_le (p := p) (t := join .left c a t u)
  rw [height_join] at hheight
  have hlength : p.length < fuel := by omega
  have ht : Focus m₀ own r m (⟨.left, c, a, u⟩ :: p) t := focus_close.mpr h
  have hu : Focus m₀ own r m (⟨.right, c, a, t⟩ :: p) u := focus_close.mpr h
  have hleft : (cell (top 0 p) c .left (addr t) (addr u)).rbLeft = addr t := rfl
  have hright : (cell (top 0 p) c .left (addr t) (addr u)).rbRight = addr u := rfl
  simp only [Rbtree.rbErase, h.read, hleft, hright, Programs.ok_bind, ht.addr_eq_zero_iff,
    hu.addr_eq_zero_iff]
  by_cases hleafLeft : t = .leaf
  · subst hleafLeft
    obtain ⟨m', t', hrun, h', hrb', hinorder⟩ := h.eraseUpper hrb hlength
    exact ⟨m', t', hrun, h', hrb', by rw [hinorder, inorder_plug]; rfl⟩
  · rw [if_neg hleafLeft]
    by_cases hleafRight : u = .leaf
    · subst hleafRight
      have h : Focus m₀ own r m p (join .right c a .leaf t) := h
      have hrb : RedBlack (plug p (join .right c a .leaf t)) := hrb
      obtain ⟨m', t', hrun, h', hrb', hinorder⟩ := h.eraseUpper hrb hlength
      exact ⟨m', t', hrun, h', hrb', by rw [hinorder, inorder_plug]; simp [inorder]⟩
    · rw [if_neg hleafRight]
      exact h.eraseInner hleafLeft hleafRight hrb hfuel

end Focus

end Hixo.Rbtree
