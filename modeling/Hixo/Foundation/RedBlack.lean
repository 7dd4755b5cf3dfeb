import Hixo.Foundation.ColoredTree
import Mathlib.Data.Nat.Log
import Mathlib.Tactic.Ring

/-!
# Red-black trees

A tree is red-black when its root is black, no red node has a red child, and all ways down meet the
same number of black nodes. What an insertion or an erasure has broken is mended from the bottom up.

* `Balanced`, `Hole`, `RedBlack`: subtrees, the trees around them, and whole trees;
* `redBlack_plug`: a whole tree is a balanced subtree in a hole of its black height;
* `insertUp`, `insertFix`, `insertFix_redBlack`: a red subtree under a red node;
* `eraseUp`, `eraseFix`, `eraseFix_redBlack`: a subtree whose ways down lack a black node;
* `RedBlack.height_le`: the height is logarithmic in the number of nodes.
-/

namespace ColoredTree

open RbTree

variable {α : Type} {d : Side} {c : Color} {a : α} {t u s : RbTree α} {f g : Frame α}
  {p q : List (Frame α)} {n k : ℕ}

/-- What a node adds to the number of black nodes on a way down. -/
def Color.weight : Color → ℕ
  | .red => 0
  | .black => 1

@[simp]
theorem Color.weight_red : Color.red.weight = 0 := rfl

@[simp]
theorem Color.weight_black : Color.black.weight = 1 := rfl

@[simp]
theorem Color.ne_red : ¬c = .red ↔ c = .black := by
  cases c <;> simp

@[simp]
theorem Color.ne_black : ¬c = .black ↔ c = .red := by
  cases c <;> simp

/-- No red node has a red child, and every way down meets `n` black nodes. -/
def Balanced : RbTree α → ℕ → Prop
  | .leaf, n => n = 0
  | .node c l _ r, n => (c = .red → l.color = .black ∧ r.color = .black) ∧
      ∃ k, n = k + c.weight ∧ Balanced l k ∧ Balanced r k

/-- The colour above a subtree. A red root needs a black node above it, and so counts as under a red
node when there is none. -/
def topColor : List (Frame α) → Color
  | [] => .red
  | f :: _ => f.color

/-- The tree around a subtree is balanced, when the ways down the subtree meet `n` black nodes. -/
def Hole : List (Frame α) → ℕ → Prop
  | [], _ => True
  | f :: p, n => (f.color = .red → f.sibling.color = .black ∧ topColor p = .black) ∧
      Balanced f.sibling n ∧ Hole p (n + f.color.weight)

/-- The root is black and the tree is balanced. -/
def RedBlack (t : RbTree α) : Prop := t.color = .black ∧ ∃ n, Balanced t n

/-! ## Subtrees and holes -/

@[simp]
theorem balanced_leaf : Balanced (.leaf : RbTree α) n ↔ n = 0 := Iff.rfl

theorem balanced_join : Balanced (join d c a t u) n ↔
    (c = .red → t.color = .black ∧ u.color = .black) ∧
      ∃ k, n = k + c.weight ∧ Balanced t k ∧ Balanced u k := by
  cases d
  · exact Iff.rfl
  · simp only [join, Balanced]
    exact and_congr (imp_congr_right fun _ => and_comm)
      (exists_congr fun k => and_congr_right fun _ => and_comm)

@[simp]
theorem balanced_join_red : Balanced (join d .red a t u) n ↔
    (t.color = .black ∧ u.color = .black) ∧ Balanced t n ∧ Balanced u n := by
  simp [balanced_join]

@[simp]
theorem balanced_join_black : Balanced (join d .black a t u) (n + 1) ↔
    Balanced t n ∧ Balanced u n := by
  simp [balanced_join]

theorem balanced_close : Balanced (f.close t) (n + f.color.weight) ↔
    (f.color = .red → t.color = .black ∧ f.sibling.color = .black) ∧
      Balanced t n ∧ Balanced f.sibling n := by
  simp [Frame.close, balanced_join]

/-- A red root made black adds a black node to every way down. -/
theorem Balanced.paint_black (ht : Balanced t n) (hred : t.color = .red) :
    Balanced (t.paint .black) (n + 1) := by
  obtain ⟨a, u, v, rfl⟩ := eq_join_of_red .left hred
  simp only [balanced_join_red] at ht
  simpa using ht.2

/-- A black root with black subtrees made red takes a black node from every way down. -/
theorem Balanced.paint_red (ht : Balanced (join d .black a t u) (n + 1))
    (hcolor : t.color = .black ∧ u.color = .black) : Balanced (join d .red a t u) n :=
  balanced_join_red.mpr ⟨hcolor, balanced_join_black.mp ht⟩

/-- A subtree with a black node on its ways down is a node. -/
theorem Balanced.ne_leaf (ht : Balanced t (n + 1)) : t ≠ .leaf := by
  rintro rfl
  exact absurd ht (Nat.succ_ne_zero n)

/-- A whole tree is a balanced subtree in a hole of its black height. -/
theorem redBlack_plug : RedBlack (plug p t) ↔
    ∃ n, Balanced t n ∧ Hole p n ∧ (t.color = .red → topColor p = .black) := by
  induction p generalizing t with
  | nil =>
    have hcolor : (t.color = .red → topColor ([] : List (Frame α)) = .black) ↔
        t.color = .black := by
      simp [topColor]
    simp only [plug_nil, RedBlack, Hole, true_and, hcolor]
    exact ⟨fun ⟨hc, n, hn⟩ => ⟨n, hn, hc⟩, fun ⟨n, hn, hc⟩ => ⟨hc, n, hn⟩⟩
  | cons f p ih =>
    rw [plug_cons, ih]
    constructor
    · rintro ⟨n, hb, hhole, htop⟩
      have hb' := hb
      rw [Frame.close, balanced_join] at hb
      obtain ⟨hred, k, rfl, ht, hs⟩ := hb
      have hcolor : (f.close t).color = f.color := color_join
      refine ⟨k, ht, ⟨fun hf => ⟨(hred hf).2, htop (hcolor.trans hf)⟩, hs, hhole⟩, fun htr => ?_⟩
      by_contra hne
      have hf : f.color = .red := by
        cases hc : f.color with
        | red => rfl
        | black => exact absurd hc hne
      simp [(hred hf).1] at htr
    · rintro ⟨n, ht, ⟨hred, hs, hhole⟩, htop⟩
      have hf : f.color = .red → t.color = .black := fun hf => by
        cases hc : t.color with
        | black => rfl
        | red => exact absurd (htop hc) (by simp [topColor, hf])
      refine ⟨n + f.color.weight, balanced_close.mpr ⟨fun h => ⟨hf h, (hred h).1⟩, ht, hs⟩, hhole,
        fun hc => (hred (color_join.symm.trans hc)).2⟩

/-- A hole does not depend on the values around it. -/
theorem hole_congr_value {a b : α} :
    Hole (q ++ ⟨d, c, a, s⟩ :: p) n ↔ Hole (q ++ ⟨d, c, b, s⟩ :: p) n := by
  induction q generalizing n with
  | nil => exact Iff.rfl
  | cons g q ih =>
    have htop : topColor (q ++ ⟨d, c, a, s⟩ :: p) = topColor (q ++ ⟨d, c, b, s⟩ :: p) := by
      cases q <;> rfl
    rw [List.cons_append, List.cons_append, Hole, Hole, htop, ih]

/-! ## After an insertion -/

/-- A red subtree under the red node `f`, which is under `g`: a rotation puts a black node in the
place of `g`, with two red nodes under it. -/
def insertTurn (f g : Frame α) (t : RbTree α) : RbTree α :=
  if f.side = g.side then
    join g.side .black f.value t (join g.side .red g.value f.sibling g.sibling)
  else
    match t with
    | .leaf => g.close (f.close .leaf)
    | .node c l a r =>
      join g.side .black a (join g.side .red f.value f.sibling ((RbTree.node c l a r).child g.side))
        (join g.side .red g.value ((RbTree.node c l a r).child g.side.other) g.sibling)

/-- The whole tree, after it has been mended above a subtree with a red root, but for its root. -/
def insertUp : List (Frame α) → RbTree α → RbTree α
  | [], t => t
  | [f], t => f.close t
  | f :: g :: p, t =>
    if f.color = .black then plug (f :: g :: p) t
    else if g.sibling.color = .red then
      insertUp p (join g.side .red g.value ((f.close t).paint .black) (g.sibling.paint .black))
    else plug p (insertTurn f g t)

/-- The whole tree, after it has been mended above a subtree with a red root. -/
def insertFix (p : List (Frame α)) (t : RbTree α) : RbTree α := (insertUp p t).paint .black

theorem RedBlack.paint_black (h : RedBlack t) : t.paint .black = t := by
  rw [← h.1, paint_color]

theorem insertTurn_outer (h : f.side = g.side) : insertTurn f g t =
    join g.side .black f.value t (join g.side .red g.value f.sibling g.sibling) :=
  if_pos h

theorem insertTurn_inner (h : f.side ≠ g.side) : insertTurn f g (join g.side c a t u) =
    join g.side .black a (join g.side .red f.value f.sibling t)
      (join g.side .red g.value u g.sibling) := by
  unfold insertTurn
  rw [if_neg h]
  cases g.side <;> rfl

/-- A turn under a black uncle balances the subtree. -/
theorem insertTurn_balanced (hred : t.color = .red) (ht : Balanced t n)
    (hf : Balanced f.sibling n) (hfc : f.sibling.color = .black)
    (hg : Balanced g.sibling n) (hgc : g.sibling.color = .black) :
    Balanced (insertTurn f g t) (n + 1) ∧ (insertTurn f g t).color = .black := by
  by_cases hside : f.side = g.side
  · rw [insertTurn_outer hside]
    simp [ht, hf, hg, hfc, hgc]
  · obtain ⟨a, u, v, rfl⟩ := eq_join_of_red g.side hred
    rw [balanced_join_red] at ht
    obtain ⟨⟨huc, hvc⟩, hu, hv⟩ := ht
    rw [insertTurn_inner hside]
    simp [hu, hv, huc, hvc, hf, hg, hfc, hgc]

/-- A turn leaves the values in their order. -/
theorem inorder_insertTurn : (insertTurn f g t).inorder = (g.close (f.close t)).inorder := by
  obtain ⟨fs, fc, fv, fu⟩ := f
  obtain ⟨gs, gc, gv, gu⟩ := g
  cases fs <;> cases gs <;> cases t <;>
    simp [insertTurn, Frame.close, join, child, inorder, Side.other]

theorem inorder_insertUp : (insertUp p t).inorder = (plug p t).inorder := by
  induction p, t using insertUp.induct with
  | case1 t => rfl
  | case2 f t => rfl
  | case3 f g p t hblack => rw [insertUp, if_pos hblack]
  | case4 f g p t hred huncle ih =>
    rw [insertUp, if_neg hred, if_pos huncle, ih, plug_cons, plug_cons, inorder_plug, inorder_plug]
    congr 2
    cases hg : g.side <;> simp [Frame.close, hg, join, inorder]
  | case5 f g p t hred huncle =>
    rw [insertUp, if_neg hred, if_neg huncle, inorder_plug, inorder_insertTurn, plug_cons,
      plug_cons, inorder_plug]

theorem inorder_insertFix : (insertFix p t).inorder = (plug p t).inorder :=
  inorder_paint.trans inorder_insertUp

@[simp]
theorem color_paint_black : (t.paint .black).color = .black := by
  cases t <;> rfl

/-- Mending above a red subtree makes the whole tree red-black. -/
theorem insertFix_redBlack (hred : t.color = .red) (ht : Balanced t n) (hp : Hole p n) :
    RedBlack (insertFix p t) := by
  induction p, t using insertUp.induct generalizing n with
  | case1 t => exact ⟨color_paint_black, n + 1, ht.paint_black hred⟩
  | case2 f t =>
    -- a root is black, so nothing is broken
    have hf : topColor [f] = .black := by
      by_contra hne
      exact absurd (hp.1 (by cases hc : f.color <;> simp_all [topColor])).2 (by simp [topColor])
    have hwhole : RedBlack (plug [f] t) := redBlack_plug.mpr ⟨n, ht, hp, fun _ => hf⟩
    rw [insertFix, insertUp, ← plug_nil (t := f.close t), ← plug_cons, hwhole.paint_black]
    exact hwhole
  | case3 f g p t hblack =>
    have hwhole : RedBlack (plug (f :: g :: p) t) := redBlack_plug.mpr ⟨n, ht, hp, fun _ => hblack⟩
    rw [insertFix, insertUp, if_pos hblack, hwhole.paint_black]
    exact hwhole
  | case4 f g p t hfred huncle ih =>
    have hf : f.color = .red := by simpa using hfred
    obtain ⟨hfs, hs, hg⟩ := hp
    obtain ⟨-, hu, hp⟩ := hg
    have hgblack : g.color = .black := (hfs hf).2
    rw [hf, Color.weight_red, Nat.add_zero] at hu hp
    rw [hgblack, Color.weight_black] at hp
    rw [insertFix, insertUp, if_neg hfred, if_pos huncle]
    refine ih color_join (balanced_join_red.mpr ⟨⟨color_paint_black, color_paint_black⟩, ?_,
      hu.paint_black huncle⟩) hp
    rw [Frame.close, paint_join]
    exact balanced_join_black.mpr ⟨ht, hs⟩
  | case5 f g p t hfred huncle =>
    have hf : f.color = .red := by simpa using hfred
    obtain ⟨hfs, hs, hg⟩ := hp
    obtain ⟨-, hu, hp⟩ := hg
    have hgblack : g.color = .black := (hfs hf).2
    rw [hf, Color.weight_red, Nat.add_zero] at hu hp
    rw [hgblack, Color.weight_black] at hp
    obtain ⟨hbal, hblack⟩ :=
      insertTurn_balanced hred ht hs (hfs hf).1 hu (Color.ne_red.mp huncle)
    have hwhole : RedBlack (plug p (insertTurn f g t)) :=
      redBlack_plug.mpr ⟨n + 1, hbal, hp, fun h => absurd (h.symm.trans hblack) (by decide)⟩
    rw [insertFix, insertUp, if_neg hfred, if_neg huncle, hwhole.paint_black]
    exact hwhole

/-! ## After an erasure -/

/-- What a turn makes of a node, one of whose subtrees lacks a black node on its ways down. -/
inductive Turned (α : Type) where
  /-- The subtree of the node lacks it now. -/
  | lacks (t : RbTree α)
  /-- Nothing lacks any more. -/
  | mended (t : RbTree α)

namespace Turned

/-- The subtree of the node. -/
def tree : Turned α → RbTree α
  | .lacks t | .mended t => t

end Turned

/-- A turn at a node with the colour `c` and the value `a`, whose subtree `t` on the side `d` lacks
a black node. The sibling is black. -/
def eraseTurn (d : Side) (c : Color) (a : α) (t : RbTree α) : RbTree α → Turned α
  | .leaf => .lacks (join d c a t .leaf)
  | .node sc l b r =>
    let near := (RbTree.node sc l b r).child d
    let far := (RbTree.node sc l b r).child d.other
    if near.color = .black ∧ far.color = .black then .lacks (join d c a t (.node .red l b r))
    else if far.color = .black then
      match near with
      | .leaf => .lacks (join d c a t (.node sc l b r))
      | .node nc nl x nr =>
        .mended (join d c x (join d .black a t ((RbTree.node nc nl x nr).child d))
          (join d .black b ((RbTree.node nc nl x nr).child d.other) far))
    else .mended (join d c b (join d .black a t near) (far.paint .black))

/-- The place that is made black in the end, and the tree there, when the tree has been mended above
a subtree that lacks a black node on its ways down. A red sibling first changes places with the node
above. -/
def eraseUp : List (Frame α) → RbTree α → List (Frame α) × RbTree α
  | [], t => ([], t)
  | f :: p, t =>
    if t.color = .red then (f :: p, t)
    else
      match f.sibling with
      | .node .red l b r =>
        let near := (RbTree.node .red l b r).child f.side
        let far := (RbTree.node .red l b r).child f.side.other
        match eraseTurn f.side .red f.value t near with
        | .lacks u => (⟨f.side, .black, b, far⟩ :: p, u)
        | .mended u => ([], plug (⟨f.side, .black, b, far⟩ :: p) u)
      | s =>
        match eraseTurn f.side f.color f.value t s with
        | .lacks u => eraseUp p u
        | .mended u => ([], plug p u)

/-- The whole tree, after it has been mended above a subtree that lacks a black node on its ways
down. -/
def eraseFix (p : List (Frame α)) (t : RbTree α) : RbTree α :=
  plug (eraseUp p t).1 ((eraseUp p t).2.paint .black)

/-- A subtree lacks a black node: its ways down meet `n` black nodes and should meet `n + 1`. When
its root is red, it is enough to make the root black. -/
def Lacking (t : RbTree α) (n : ℕ) : Prop :=
  if t.color = .red then Balanced (t.paint .black) (n + 1) else Balanced t n

theorem eraseTurn_near_far {near far : RbTree α} {b : α} {sc : Color} (hnear : near.color = .black)
    (hfar : far.color = .black) : eraseTurn d c a t (join d sc b near far) =
      .lacks (join d c a t (join d .red b near far)) := by
  cases d <;> simp [eraseTurn, join, child, Side.other, hnear, hfar]

theorem eraseTurn_near {nl nr far : RbTree α} {x b : α} {sc : Color} (hfar : far.color = .black) :
    eraseTurn d c a t (join d sc b (join d .red x nl nr) far) =
      .mended (join d c x (join d .black a t nl) (join d .black b nr far)) := by
  cases d <;> simp [eraseTurn, join, child, Side.other, hfar]

theorem eraseTurn_far {near far : RbTree α} {b : α} {sc : Color} (hfar : far.color = .red) :
    eraseTurn d c a t (join d sc b near far) =
      .mended (join d c b (join d .black a t near) (far.paint .black)) := by
  cases d <;> simp [eraseTurn, join, child, Side.other, hfar]

/-- The three ways of a turn, by the colours of the sibling's subtrees. -/
theorem eraseTurn_cases (d : Side) (hs : s ≠ .leaf) :
    (∃ b near far, s = join d s.color b near far ∧ near.color = .black ∧ far.color = .black) ∨
    (∃ b x nl nr far, s = join d s.color b (join d .red x nl nr) far ∧ far.color = .black) ∨
    (∃ b near far, s = join d s.color b near far ∧ far.color = .red) := by
  obtain ⟨c, b, near, far, rfl⟩ := eq_join d hs
  rw [color_join]
  cases hfar : far.color with
  | red => exact .inr (.inr ⟨b, near, far, rfl, hfar⟩)
  | black =>
    cases hnear : near.color with
    | black => exact .inl ⟨b, near, far, rfl, hnear, hfar⟩
    | red =>
      obtain ⟨x, nl, nr, rfl⟩ := eq_join_of_red d hnear
      exact .inr (.inl ⟨b, x, nl, nr, far, rfl, hfar⟩)

/-- The values of a join whose parts have the same values. -/
theorem inorder_join_congr {t' u' : RbTree α} {c' : Color} (ht : t.inorder = t'.inorder)
    (hu : u.inorder = u'.inorder) : (join d c a t u).inorder = (join d c' a t' u').inorder := by
  cases d <;> simp [join, inorder, ht, hu]

/-- A turn leaves the values in their order. -/
theorem inorder_eraseTurn : (eraseTurn d c a t s).tree.inorder = (join d c a t s).inorder := by
  by_cases hs : s = .leaf
  · rw [hs]
    rfl
  rcases eraseTurn_cases d hs with ⟨b, near, far, hs, hnear, hfar⟩ | ⟨b, x, nl, nr, far, hs, hfar⟩ |
    ⟨b, near, far, hs, hfar⟩
  · rw [hs, eraseTurn_near_far hnear hfar]
    exact inorder_join_congr rfl (inorder_join_congr rfl rfl)
  · rw [hs, eraseTurn_near hfar]
    cases d <;> simp [Turned.tree, join, inorder]
  · rw [hs, eraseTurn_far hfar]
    cases d <;> simp [Turned.tree, join, inorder]

/-- What a turn does to the number of black nodes on the ways down. -/
theorem eraseTurn_balanced (c : Color) (a : α) (ht : Balanced t n) (hs : Balanced s (n + 1))
    (hsc : s.color = .black) :
    (∃ u, eraseTurn d c a t s = .lacks u ∧ u.color = c ∧ Lacking u (n + c.weight)) ∨
    (∃ u, eraseTurn d c a t s = .mended u ∧ u.color = c ∧ Balanced u (n + 1 + c.weight)) := by
  rcases eraseTurn_cases d hs.ne_leaf with ⟨b, near, far, h, hnear, hfar⟩ |
    ⟨b, x, nl, nr, far, h, hfar⟩ | ⟨b, near, far, h, hfar⟩ <;> rw [h, hsc] at hs ⊢
  · -- the sibling becomes red, and the whole subtree lacks a black node
    have hs' := (balanced_join_red.mp (hs.paint_red ⟨hnear, hfar⟩)).2
    refine .inl ⟨_, eraseTurn_near_far hnear hfar, color_join, ?_⟩
    cases c with
    | red => simpa [Lacking, hnear, hfar] using ⟨ht, hs'⟩
    | black => simpa [Lacking, hnear, hfar] using ⟨ht, hs'⟩
  · rw [balanced_join_black, balanced_join_red] at hs
    obtain ⟨⟨hnc, hnl, hnr⟩, hf⟩ := hs
    refine .inr ⟨_, eraseTurn_near hfar, color_join, balanced_join.mpr ⟨by simp, n + 1, rfl, ?_⟩⟩
    exact ⟨balanced_join_black.mpr ⟨ht, hnl⟩, balanced_join_black.mpr ⟨hnr, hf⟩⟩
  · obtain ⟨hn, hf⟩ := balanced_join_black.mp hs
    refine .inr ⟨_, eraseTurn_far hfar, color_join, balanced_join.mpr ⟨by simp, n + 1, rfl, ?_⟩⟩
    exact ⟨balanced_join_black.mpr ⟨ht, hn⟩, hf.paint_black hfar⟩

/-- With a red sibling, the turn is made under the sibling. -/
theorem eraseUp_red {b : α} {near far : RbTree α} (ht : t.color = .black)
    (hs : f.sibling = join f.side .red b near far) : eraseUp (f :: p) t =
      match eraseTurn f.side .red f.value t near with
      | .lacks u => (⟨f.side, .black, b, far⟩ :: p, u)
      | .mended u => ([], plug (⟨f.side, .black, b, far⟩ :: p) u) := by
  obtain ⟨side, fc, fv, s⟩ := f
  dsimp only at hs
  subst hs
  cases side <;> simp [eraseUp, ht, join, child, Side.other]

/-- With a black sibling, the turn is made at the node above. -/
theorem eraseUp_black (ht : t.color = .black) (hs : f.sibling.color = .black) :
    eraseUp (f :: p) t =
      match eraseTurn f.side f.color f.value t f.sibling with
      | .lacks u => eraseUp p u
      | .mended u => ([], plug p u) := by
  obtain ⟨side, fc, fv, s⟩ := f
  cases s with
  | leaf => simp [eraseUp, ht]
  | node c l b r =>
    obtain rfl : c = .black := hs
    simp [eraseUp, ht]

/-- A subtree with a red root only has to be made black. -/
theorem eraseUp_of_red (ht : t.color = .red) : eraseUp p t = (p, t) := by
  cases p with
  | nil => rfl
  | cons f p => exact if_pos ht

/-- The values of a whole tree, when those of a subtree are the same. -/
theorem inorder_plug_congr (h : t.inorder = u.inorder) :
    (plug p t).inorder = (plug p u).inorder := by
  rw [inorder_plug, inorder_plug, h]

theorem inorder_eraseFix : (eraseFix p t).inorder = (plug p t).inorder := by
  induction p generalizing t with
  | nil => simp [eraseFix, eraseUp]
  | cons f p ih =>
    cases htc : t.color with
    | red => rw [eraseFix, eraseUp_of_red htc, inorder_plug_congr inorder_paint]
    | black =>
      cases hsc : f.sibling.color with
      | black =>
        have hturn := inorder_eraseTurn (d := f.side) (c := f.color) (a := f.value) (t := t)
          (s := f.sibling)
        rw [eraseFix, eraseUp_black htc hsc, plug_cons]
        cases h : eraseTurn f.side f.color f.value t f.sibling with
        | lacks u =>
          rw [h] at hturn
          exact ih.trans (inorder_plug_congr hturn)
        | mended u =>
          rw [h] at hturn
          exact inorder_paint.trans (inorder_plug_congr hturn)
      | red =>
        obtain ⟨b, near, far, hs⟩ := eq_join_of_red f.side hsc
        have hturn :=
          inorder_eraseTurn (d := f.side) (c := .red) (a := f.value) (t := t) (s := near)
        -- the sibling has gone up, with the node and its new sibling under it
        have hup : (join f.side .black b (join f.side .red f.value t near) far).inorder =
            (f.close t).inorder := by
          rw [Frame.close, hs]
          cases f.side <;> simp [join, inorder]
        rw [eraseFix, eraseUp_red htc hs, plug_cons]
        cases h : eraseTurn f.side .red f.value t near with
        | lacks u =>
          rw [h] at hturn
          refine inorder_plug_congr (Eq.trans (inorder_join_congr ?_ rfl) hup)
          exact inorder_paint.trans hturn
        | mended u =>
          rw [h] at hturn
          refine inorder_paint.trans (inorder_plug_congr (Eq.trans (inorder_join_congr ?_ rfl) hup))
          exact hturn

theorem lacking_of_red (ht : t.color = .red) :
    Lacking t n ↔ Balanced (t.paint .black) (n + 1) := by
  rw [Lacking, if_pos ht]

theorem lacking_of_black (ht : t.color = .black) : Lacking t n ↔ Balanced t n := by
  simp [Lacking, ht]

theorem Balanced.lacking (ht : Balanced t n) : Lacking t n := by
  cases htc : t.color with
  | red => exact (lacking_of_red htc).mpr (ht.paint_black htc)
  | black => exact (lacking_of_black htc).mpr ht

/-- A whole tree with a balanced subtree keeps its black root when it is painted. -/
theorem redBlack_plug_paint (ht : Balanced t n) (hp : Hole p n)
    (htop : t.color = .red → topColor p = .black) : RedBlack ((plug p t).paint .black) := by
  have h : RedBlack (plug p t) := redBlack_plug.mpr ⟨n, ht, hp, htop⟩
  rw [h.paint_black]
  exact h

/-- A subtree painted black fits under any node. -/
theorem redBlack_plug_paint_black (ht : Balanced (t.paint .black) n) (hp : Hole p n) :
    RedBlack (plug p (t.paint .black)) :=
  redBlack_plug.mpr ⟨n, ht, hp, fun h => absurd (h.symm.trans color_paint_black) (by decide)⟩

/-- Mending above a subtree that lacks a black node makes the whole tree red-black. -/
theorem eraseFix_redBlack (ht : Lacking t n) (hp : Hole p (n + 1)) : RedBlack (eraseFix p t) := by
  induction p generalizing t n with
  | nil =>
    refine ⟨color_paint_black, ?_⟩
    cases htc : t.color with
    | red => exact ⟨n + 1, (lacking_of_red htc).mp ht⟩
    | black =>
      rw [eraseFix, eraseUp, plug_nil, ← htc, paint_color]
      exact ⟨n, (lacking_of_black htc).mp ht⟩
  | cons f p ih =>
    cases htc : t.color with
    | red =>
      rw [eraseFix, eraseUp_of_red htc]
      exact redBlack_plug_paint_black ((lacking_of_red htc).mp ht) hp
    | black =>
      have ht := (lacking_of_black htc).mp ht
      obtain ⟨hf, hs, hp⟩ := hp
      cases hsc : f.sibling.color with
      | black =>
        rw [eraseFix, eraseUp_black htc hsc]
        rcases eraseTurn_balanced f.color f.value ht hs hsc with ⟨u, h, huc, hu⟩ |
          ⟨u, h, huc, hu⟩ <;> rw [h]
        · rw [Nat.add_right_comm] at hp
          exact ih hu hp
        · exact redBlack_plug_paint hu hp fun hred => (hf (huc.symm.trans hred)).2
      | red =>
        obtain ⟨b, near, far, hsib⟩ := eq_join_of_red f.side hsc
        have hfc : f.color = .black := by
          by_contra hne
          exact absurd ((hf (Color.ne_black.mp hne)).1.symm.trans hsc) (by decide)
        rw [hsib, balanced_join_red] at hs
        obtain ⟨⟨hnc, -⟩, hnear, hfar⟩ := hs
        have hup : Hole (⟨f.side, .black, b, far⟩ :: p) (n + 1) := ⟨nofun, hfar, hfc ▸ hp⟩
        rw [eraseFix, eraseUp_red htc hsib]
        rcases eraseTurn_balanced .red f.value ht hnear hnc with ⟨u, h, huc, hu⟩ |
          ⟨u, h, huc, hu⟩ <;> rw [h]
        · exact redBlack_plug_paint_black ((lacking_of_red huc).mp hu) hup
        · exact redBlack_plug_paint hu hup fun _ => rfl

/-! ## Heights -/

theorem Balanced.pow_le_size (ht : Balanced t n) : 2 ^ n ≤ t.size + 1 := by
  induction t generalizing n with
  | leaf =>
    obtain rfl : n = 0 := ht
    simp [size]
  | node c l a r hl hr =>
    obtain ⟨-, k, rfl, hbl, hbr⟩ := ht
    have hl := hl hbl
    have hr := hr hbr
    cases c <;> simp only [size, Color.weight, Nat.add_zero, Nat.pow_succ] <;> omega

/-- At least every other node on a way down is black. -/
theorem Balanced.height_le (ht : Balanced t n) :
    t.height ≤ 2 * n + (if t.color = .red then 1 else 0) := by
  induction t generalizing n with
  | leaf => simp [height]
  | node c l a r hl hr =>
    obtain ⟨hred, k, rfl, hbl, hbr⟩ := ht
    have hl := hl hbl
    have hr := hr hbr
    cases c with
    | red =>
      rw [if_neg (by simp [(hred rfl).1])] at hl
      rw [if_neg (by simp [(hred rfl).2])] at hr
      simp only [height, color_node, Color.weight_red, if_true]
      omega
    | black =>
      simp only [height, color_node, Color.weight_black]
      split at hl <;> split at hr <;> omega

/-- The height of a red-black tree is at most twice the logarithm of its size. -/
theorem RedBlack.height_le (h : RedBlack t) : t.height ≤ 2 * Nat.log 2 (t.size + 1) := by
  obtain ⟨hc, n, hn⟩ := h
  have hheight := hn.height_le
  rw [if_neg (by simp [hc]), Nat.add_zero] at hheight
  have hlog : n ≤ Nat.log 2 (t.size + 1) :=
    Nat.le_log_of_pow_le Nat.one_lt_two hn.pow_le_size
  omega

theorem length_add_height_le : p.length + t.height ≤ (plug p t).height := by
  induction p generalizing t with
  | nil => simp
  | cons f p ih =>
    refine le_trans ?_ (ih (t := f.close t))
    obtain ⟨side, c, a, s⟩ := f
    cases side <;> simp only [List.length_cons, Frame.close, join, height] <;> omega

end ColoredTree
