import Mathlib.Data.List.Nodup
import Mathlib.Data.List.TakeWhile

/-!
# Acquiring and releasing the items of a list

One loop acquires the items of a list in their order; at the first item that cannot be acquired it
leaves a mark and ends. A second loop releases the items in the same order; it skips a marked item
and clears the mark, and ends at the first item that cannot be released.

* `acquire fails as`: the items with their marks after the first loop;
* `acquired fails as`: the items that were acquired;
* `release fails as`: the items with their marks after the second loop;
* `tried fails as`: the items whose release was tried;
* `RolledBack`, `Reaches`: the second loop undoes what the first one did, and gets far enough;
* `rolledBack_iff`: these are the same.
-/

namespace Rollback

variable {α : Type} {acqFails relFails : α → Bool} {as : List α}

/-- The items with their marks after the first loop. -/
def acquire (fails : α → Bool) : List α → List (α × Bool)
  | [] => []
  | a :: as => if fails a then (a, true) :: as.map (·, false) else (a, false) :: acquire fails as

/-- The items that the first loop acquires. -/
def acquired (fails : α → Bool) (as : List α) : List α := as.takeWhile fun a => !fails a

/-- The items with their marks after the second loop. -/
def release (fails : α → Bool) : List (α × Bool) → List (α × Bool)
  | [] => []
  | (a, true) :: as => (a, false) :: release fails as
  | (a, false) :: as => if fails a then (a, false) :: as else (a, false) :: release fails as

/-- The items that the second loop tries to release. -/
def tried (fails : α → Bool) : List (α × Bool) → List α
  | [] => []
  | (_, true) :: as => tried fails as
  | (a, false) :: as => if fails a then [a] else a :: tried fails as

/-- No mark is left, and the release of every acquired item was tried. -/
def RolledBack (acqFails relFails : α → Bool) (as : List α) : Prop :=
  release relFails (acquire acqFails as) = as.map (·, false) ∧
    ∀ a ∈ acquired acqFails as, a ∈ tried relFails (acquire acqFails as)

/-- The second loop gets far enough: an item that cannot be released is the last one, or comes with
or after one that could not be acquired. -/
def Reaches (acqFails relFails : α → Bool) (as : List α) : Prop :=
  ∀ pre a post, as = pre ++ a :: post → relFails a = true →
    post = [] ∨ ∃ b ∈ pre ++ [a], acqFails b = true

/-- A change at the index of the first item that is left changes that item. -/
theorem modify_length_append {β : Type} {pre rest : List β} {b : β} (f : β → β) :
    (pre ++ b :: rest).modify pre.length f = pre ++ f b :: rest := by
  induction pre with
  | nil => rfl
  | cons a pre ih =>
    rw [List.cons_append, List.length_cons, List.modify_succ_cons, ih, List.cons_append]

theorem acquired_subset : acquired acqFails as ⊆ as :=
  (List.takeWhile_prefix _).subset

/-- Without a mark the second loop changes nothing. -/
theorem release_unmarked (fails : α → Bool) (as : List α) :
    release fails (as.map (·, false)) = as.map (·, false) := by
  induction as with
  | nil => rfl
  | cons a as ih =>
    rw [List.map_cons, release, ih]
    split <;> rfl

/-! ## The first item -/

section

variable {a : α}

theorem acquire_cons (hacq : ¬acqFails a = true) :
    acquire acqFails (a :: as) = (a, false) :: acquire acqFails as := by
  rw [acquire, if_neg hacq]

theorem acquired_cons (hacq : ¬acqFails a = true) :
    acquired acqFails (a :: as) = a :: acquired acqFails as := by
  rw [acquired, List.takeWhile_cons_of_pos (by simpa using hacq)]
  rfl

/-- Without a mark every item was acquired. -/
theorem acquired_of_acquire_eq (h : acquire acqFails as = as.map (·, false)) :
    acquired acqFails as = as := by
  induction as with
  | nil => rfl
  | cons a as ih =>
    rw [acquire] at h
    split at h
    · simp at h
    next hfails => rw [acquired_cons hfails, ih (List.cons.inj h).2]

/-- The first item cannot be acquired: nothing is to be undone. -/
theorem rolledBack_of_acqFails (hacq : acqFails a = true) :
    RolledBack acqFails relFails (a :: as) := by
  refine ⟨?_, ?_⟩
  · rw [acquire, if_pos hacq, release, release_unmarked, List.map_cons]
  · simp [acquired, hacq]

theorem reaches_of_acqFails (hacq : acqFails a = true) : Reaches acqFails relFails (a :: as) := by
  intro pre b post h _
  refine Or.inr ⟨a, ?_, hacq⟩
  cases pre with
  | nil => simp [(List.cons.inj h).1]
  | cons c pre => simp [(List.cons.inj h).1]

/-- The first item is acquired and cannot be released: the second loop ends at once. -/
theorem rolledBack_cons_of_relFails (hnew : a ∉ as) (hacq : ¬acqFails a = true)
    (hrel : relFails a = true) : RolledBack acqFails relFails (a :: as) ↔ as = [] := by
  rw [RolledBack, acquire_cons hacq, acquired_cons hacq, release, if_pos hrel, tried, if_pos hrel,
    List.map_cons]
  constructor
  · rintro ⟨hmarks, htried⟩
    have hall := acquired_of_acquire_eq (List.cons.inj hmarks).2
    refine List.eq_nil_iff_forall_not_mem.mpr fun b hb => ?_
    have hba : b ∈ [a] := htried b (List.mem_cons_of_mem _ (by rwa [hall]))
    exact hnew (List.mem_singleton.mp hba ▸ hb)
  · rintro rfl
    exact ⟨rfl, fun b hb => hb⟩

theorem reaches_cons_of_relFails (hacq : ¬acqFails a = true) (hrel : relFails a = true) :
    Reaches acqFails relFails (a :: as) ↔ as = [] := by
  constructor
  · intro h
    refine (h [] a as rfl hrel).resolve_right ?_
    simp [hacq]
  · rintro rfl pre b post h -
    cases pre with
    | nil => exact Or.inl (List.cons.inj h).2.symm
    | cons c pre => simp at h

/-- The first item is acquired and released: both loops go on. -/
theorem rolledBack_cons (hnew : a ∉ as) (hacq : ¬acqFails a = true) (hrel : ¬relFails a = true) :
    RolledBack acqFails relFails (a :: as) ↔ RolledBack acqFails relFails as := by
  rw [RolledBack, RolledBack, acquire_cons hacq, acquired_cons hacq, release, if_neg hrel, tried,
    if_neg hrel, List.map_cons]
  constructor
  · rintro ⟨hmarks, htried⟩
    refine ⟨(List.cons.inj hmarks).2, fun b hb => ?_⟩
    refine (List.mem_cons.mp (htried b (List.mem_cons_of_mem _ hb))).resolve_left ?_
    rintro rfl
    exact hnew (acquired_subset hb)
  · rintro ⟨hmarks, htried⟩
    refine ⟨by rw [hmarks], fun b hb => ?_⟩
    rcases List.mem_cons.mp hb with rfl | hb
    · exact List.mem_cons_self
    · exact List.mem_cons_of_mem _ (htried b hb)

theorem reaches_cons (hacq : ¬acqFails a = true) (hrel : ¬relFails a = true) :
    Reaches acqFails relFails (a :: as) ↔ Reaches acqFails relFails as := by
  constructor
  · -- what stands in front of an entry is the same list, with `a` added
    intro h pre b post has hb
    refine (h (a :: pre) b post (by rw [has, List.cons_append]) hb).imp_right ?_
    rintro ⟨c, hc, hfails⟩
    rcases List.mem_cons.mp hc with rfl | hc
    · exact absurd hfails hacq
    · exact ⟨c, hc, hfails⟩
  · intro h pre b post has hb
    cases pre with
    | nil =>
      obtain rfl : a = b := (List.cons.inj has).1
      exact absurd hb hrel
    | cons d pre =>
      refine (h pre b post (List.cons.inj has).2 hb).imp_right ?_
      rintro ⟨c, hc, hfails⟩
      exact ⟨c, List.mem_cons_of_mem _ hc, hfails⟩

end

/-- The second loop undoes the first one if and only if it gets far enough. -/
theorem rolledBack_iff (hnodup : as.Nodup) :
    RolledBack acqFails relFails as ↔ Reaches acqFails relFails as := by
  induction as with
  | nil => exact iff_of_true ⟨rfl, by simp [acquired]⟩ fun pre a post h => by simp at h
  | cons a as ih =>
    obtain ⟨hnew, hnodup⟩ := List.nodup_cons.mp hnodup
    by_cases hacq : acqFails a = true
    · exact iff_of_true (rolledBack_of_acqFails hacq) (reaches_of_acqFails hacq)
    · by_cases hrel : relFails a = true
      · rw [rolledBack_cons_of_relFails hnew hacq hrel, reaches_cons_of_relFails hacq hrel]
      · rw [rolledBack_cons hnew hacq hrel, reaches_cons hacq hrel, ih hnodup]

end Rollback
