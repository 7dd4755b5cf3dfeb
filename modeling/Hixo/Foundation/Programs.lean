import Mathlib.Data.List.Basic

/-!
# Programs that may stop

Rules for programs in `Except ε`: what is known when a program returns.

* `exists_of_bind_eq_ok`, `bind_of_eq_ok`, `ok_bind`, `bind_congr_ok`: a sequence of two programs;
* `decidableForallOk`: a property of the result can be decided;
* `foldlM_invariant`: a loop over a list.
-/

namespace Programs

variable {ε α β : Type}

/-- The first part of a program that returns has returned. -/
theorem exists_of_bind_eq_ok {x : Except ε α} {f : α → Except ε β} {r : β}
    (h : (x >>= f) = .ok r) : ∃ a, x = .ok a ∧ f a = .ok r := by
  cases x with
  | error e => cases h
  | ok a => exact ⟨a, rfl, h⟩

/-- A program goes on with the result of its first part. -/
theorem bind_of_eq_ok {x : Except ε α} {a : α} {f : α → Except ε β} (h : x = .ok a) :
    (x >>= f) = f a := by
  rw [h]
  rfl

theorem ok_bind {a : α} {f : α → Except ε β} : (Except.ok a >>= f) = f a := rfl

/-- Only the results of the first part matter for the second one. -/
theorem bind_congr_ok {x : Except ε α} {f g : α → Except ε β} (h : ∀ a, x = .ok a → f a = g a) :
    (x >>= f) = (x >>= g) := by
  cases x with
  | error e => rfl
  | ok a => exact h a rfl

/-- Whether the result of a program has a property can be decided by running it. -/
instance decidableForallOk (x : Except ε α) (P : α → Prop) [∀ a, Decidable (P a)] :
    Decidable (∀ a, x = .ok a → P a) :=
  match x with
  | .error _ => isTrue fun _ h => nomatch h
  | .ok a => decidable_of_iff (P a) ⟨fun ha _ h => Except.ok.inj h ▸ ha, fun h => h a rfl⟩

/-- What every pass of a loop keeps holds when the loop returns. -/
theorem foldlM_invariant {f : β → α → Except ε β} {as : List α} {b b' : β} {P : β → Prop}
    (hrun : as.foldlM f b = .ok b') (hstart : P b)
    (hpass : ∀ a ∈ as, ∀ b b', P b → f b a = .ok b' → P b') : P b' := by
  induction as generalizing b with
  | nil =>
    obtain rfl : b = b' := Except.ok.inj hrun
    exact hstart
  | cons a as ih =>
    rw [List.foldlM_cons] at hrun
    obtain ⟨b₁, hone, hrest⟩ := exists_of_bind_eq_ok hrun
    exact ih hrest (hpass a List.mem_cons_self b b₁ hstart hone)
      fun a ha => hpass a (List.mem_cons_of_mem _ ha)

end Programs
