import Mathlib.Data.Fintype.Basic
import Mathlib.Data.List.Basic
import Mathlib.Logic.Function.Basic

/-!
# Lists with heads

A collection of sequences, each of which belongs to a head: what a heap with several linked lists is
meant to hold. The cells of a sequence are its head and its members.

* `Separate`: no cell belongs to two sequences;
* `Free`: a cell belongs to no sequence;
* `Separate.update`: a head gets another sequence of its own cells and of free ones, as it is when
  members are taken out (`cells_of_subset`) or one is added (`cells_of_free`);
* `Separate.merge`: the members of a sequence are moved to another one;
* `erase`, `erase_eq_update`: a member is taken out of the sequence that it is in.
-/

/-- The sequence of every head, `none` for what is not a head. -/
abbrev HeadedLists (α : Type) := α → Option (List α)

namespace HeadedLists

variable {α : Type} {F : HeadedLists α} {a b c : α} {xs ys : List α}

/-- No cell belongs to two sequences. -/
def Separate (F : HeadedLists α) : Prop :=
  ∀ a xs b ys, F a = some xs → F b = some ys → a ≠ b → ∀ c ∈ a :: xs, c ∉ b :: ys

/-- The cell belongs to no sequence. -/
def Free (F : HeadedLists α) (c : α) : Prop := ∀ a xs, F a = some xs → c ∉ a :: xs

/-- Every head and its sequence have the property. -/
def All (F : HeadedLists α) (P : α → List α → Prop) : Prop := ∀ a xs, F a = some xs → P a xs

variable [DecidableEq α]

section Decidable

variable [Fintype α]

instance (F : HeadedLists α) (c : α) : Decidable (Free F c) :=
  inferInstanceAs (Decidable (∀ a, ∀ xs ∈ F a, c ∉ a :: xs))

instance (F : HeadedLists α) : Decidable (Separate F) :=
  decidable_of_iff (∀ a b, ∀ xs ∈ F a, ∀ ys ∈ F b, a ≠ b → ∀ c ∈ a :: xs, c ∉ b :: ys)
    ⟨fun h a xs b ys ha hb => h a b xs ha ys hb, fun h a b xs ha ys hb => h a xs b ys ha hb⟩

instance (F : HeadedLists α) (P : α → List α → Prop) [∀ a xs, Decidable (P a xs)] :
    Decidable (All F P) :=
  inferInstanceAs (Decidable (∀ a, ∀ xs ∈ F a, P a xs))

end Decidable

/-- The member is taken out of all sequences. -/
def erase (F : HeadedLists α) (c : α) : HeadedLists α := fun a => (F a).map fun xs => xs.erase c

/-- A head gets a sequence of cells that were its own or free. -/
theorem Separate.update (hsep : Separate F)
    (hcells : ∀ c ∈ a :: ys, Free F c ∨ ∃ xs, F a = some xs ∧ c ∈ a :: xs) :
    Separate (Function.update F a (some ys)) := by
  -- the new cells of `a` belong to no other head
  have hother : ∀ b zs, b ≠ a → F b = some zs → ∀ c ∈ a :: ys, c ∉ b :: zs := by
    intro b zs hne hb c hc
    rcases hcells c hc with hfree | ⟨xs, ha, hmem⟩
    · exact hfree b zs hb
    · exact hsep a xs b zs ha hb hne.symm c hmem
  intro d zs e ws hd he hne c hc hc'
  by_cases hda : d = a
  · subst hda
    rw [Function.update_self] at hd
    obtain rfl := Option.some.inj hd
    rw [Function.update_of_ne hne.symm] at he
    exact hother e ws hne.symm he c hc hc'
  · rw [Function.update_of_ne hda] at hd
    by_cases hea : e = a
    · subst hea
      rw [Function.update_self] at he
      obtain rfl := Option.some.inj he
      exact hother d zs hda hd c hc' hc
    · rw [Function.update_of_ne hea] at he
      exact hsep d zs e ws hd he hne c hc hc'

omit [DecidableEq α] in
/-- When a head keeps some of its cells, all of them were its own before. -/
theorem cells_of_subset (ha : F a = some xs) (hsub : ys ⊆ xs) :
    ∀ c ∈ a :: ys, Free F c ∨ ∃ xs, F a = some xs ∧ c ∈ a :: xs :=
  fun _ hc => .inr ⟨xs, ha, List.cons_subset_cons a hsub hc⟩

omit [DecidableEq α] in
/-- When a head gets one free cell, each of its cells was free or its own before. -/
theorem cells_of_free {node : α} (ha : F a = some xs) (hfree : Free F node)
    (hnew : ∀ c ∈ ys, c = node ∨ c ∈ xs) :
    ∀ c ∈ a :: ys, Free F c ∨ ∃ xs, F a = some xs ∧ c ∈ a :: xs := by
  intro c hc
  rcases List.mem_cons.mp hc with rfl | hc
  · exact .inr ⟨xs, ha, List.mem_cons_self⟩
  · rcases hnew c hc with rfl | hc
    · exact .inl hfree
    · exact .inr ⟨xs, ha, List.mem_cons_of_mem _ hc⟩

/-- The members of one sequence are moved to the end of another one. -/
theorem Separate.merge (hsep : Separate F) (ha : F a = some xs) (hb : F b = some ys) (hne : a ≠ b)
    (hnot : b ∉ ys) :
    Separate (Function.update (Function.update F b (some [])) a (some (xs ++ ys))) := by
  have hempty : Separate (Function.update F b (some [])) :=
    hsep.update (cells_of_subset hb (List.nil_subset ys))
  -- when the first sequence is empty, its members are free
  have hfree : ∀ c ∈ ys, Free (Function.update F b (some [])) c := by
    intro c hc d zs hd hmem
    by_cases hdb : d = b
    · subst hdb
      rw [Function.update_self] at hd
      obtain rfl := Option.some.inj hd
      exact hnot (List.mem_singleton.mp hmem ▸ hc)
    · rw [Function.update_of_ne hdb] at hd
      exact hsep b ys d zs hb hd (Ne.symm hdb) c (List.mem_cons_of_mem _ hc) hmem
  refine hempty.update fun c hc => ?_
  have hown : Function.update F b (some []) a = some xs := by rw [Function.update_of_ne hne, ha]
  rw [← List.cons_append, List.mem_append] at hc
  rcases hc with hc | hc
  · exact .inr ⟨xs, hown, hc⟩
  · exact .inl (hfree c hc)

/-- A property of all sequences, after one of them was replaced. -/
theorem All.update {P : α → List α → Prop} (hother : ∀ b ys, b ≠ a → F b = some ys → P b ys)
    (hnew : P a xs) : All (Function.update F a (some xs)) P := by
  intro b ys hb
  by_cases hba : b = a
  · subst hba
    rw [Function.update_self] at hb
    exact Option.some.inj hb ▸ hnew
  · rw [Function.update_of_ne hba] at hb
    exact hother b ys hba hb

/-- A member is in one sequence only. -/
theorem erase_eq_update (hsep : Separate F) (ha : F a = some xs) (hc : c ∈ xs) :
    F.erase c = Function.update F a (some (xs.erase c)) := by
  funext b
  by_cases hba : b = a
  · subst hba
    rw [erase, ha, Function.update_self, Option.map_some]
  · rw [erase, Function.update_of_ne hba]
    cases hb : F b with
    | none => rfl
    | some ys =>
      -- another sequence does not have the member, so that nothing is taken out of it
      have hnot := hsep a xs b ys ha hb (Ne.symm hba) c (List.mem_cons_of_mem _ hc)
      rw [Option.map_some, List.erase_of_not_mem fun hmem => hnot (List.mem_cons_of_mem _ hmem)]

end HeadedLists
