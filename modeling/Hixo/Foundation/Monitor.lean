import Mathlib.Data.List.Basic

/-!
# Monitors

A monitor reads a log entry by entry and rejects it at the first entry that its present phase does
not allow.

* `run step s log`: the phase after the log, when no entry was rejected (a fold in `Option`);
* `run_append`, `run_cons`: reading the parts of a log one after the other;
* `run_of_fixed`: entries that do not concern the monitor;
* `Grows`: a log grows by entries that are allowed after those before them.
-/

namespace Monitor

variable {σ α : Type} {step : σ → α → Option σ} {s u : σ} {l l' : List α} {e : α}

/-- The phase of a monitor after a log, when no entry was rejected. -/
abbrev run (step : σ → α → Option σ) (s : σ) (log : List α) : Option σ := log.foldlM step s

/-- A monitor accepts a log when it accepts the first entry and then the others. -/
theorem run_cons :
    run step s (e :: l) = some u ↔ ∃ t, step s e = some t ∧ run step t l = some u :=
  Option.bind_eq_some_iff

/-- A monitor accepts a log in two parts when it accepts one after the other. -/
theorem run_append :
    run step s (l ++ l') = some u ↔ ∃ t, run step s l = some t ∧ run step t l' = some u := by
  rw [run, List.foldlM_append]
  exact Option.bind_eq_some_iff

/-- Entries that leave the monitor in its phase may follow one another. -/
theorem run_of_fixed (h : ∀ e ∈ l, step s e = some s) : run step s l = some s := by
  induction l with
  | nil => rfl
  | cons e l ih =>
    exact run_cons.mpr ⟨s, h e List.mem_cons_self, ih fun e he => h e (List.mem_cons_of_mem _ he)⟩

/-! ## Growing logs -/

/-- The log `l` grows to `l'` by entries that `P` allows after all entries before them. -/
inductive Grows (P : List α → α → Prop) (l : List α) : List α → Prop
  | refl : Grows P l l
  | snoc {l' : List α} {e : α} (h : Grows P l l') (he : P l' e) : Grows P l (l' ++ [e])

namespace Grows

variable {P Q : List α → α → Prop} {l₁ l₂ l₃ : List α}

theorem of_eq (h : l₂ = l₁) : Grows P l₁ l₂ := h ▸ .refl

theorem trans (h : Grows P l₁ l₂) (h' : Grows P l₂ l₃) : Grows P l₁ l₃ := by
  induction h' with
  | refl => exact h
  | snoc _ he ih => exact ih.snoc he

theorem mono (h : Grows P l₁ l₂) (hPQ : ∀ l e, P l e → Q l e) : Grows Q l₁ l₂ := by
  induction h with
  | refl => exact .refl
  | snoc _ he ih => exact ih.snoc (hPQ _ _ he)

/-- A log that grows keeps what it had at its front. -/
theorem isPrefix (h : Grows P l₁ l₂) : l₁ <+: l₂ := by
  induction h with
  | refl => exact List.prefix_rfl
  | snoc _ _ ih => exact ih.trans (List.prefix_append ..)

/-- A new entry is allowed after the entries before it. -/
theorem allowed (h : Grows P l₁ l₂) {pre post : List α} (hsplit : l₂ = pre ++ e :: post)
    (hnew : l₁ <+: pre) : P pre e := by
  induction h generalizing post with
  | refl =>
    have hlen := hnew.length_le
    rw [hsplit, List.length_append, List.length_cons] at hlen
    omega
  | @snoc l' x _ hx ih =>
    rcases List.eq_nil_or_concat post with rfl | ⟨post, y, rfl⟩
    · obtain ⟨rfl, heq⟩ := List.append_inj' hsplit rfl
      exact (List.singleton_inj.mp heq) ▸ hx
    · rw [List.concat_eq_append, ← List.cons_append, ← List.append_assoc] at hsplit
      exact ih (List.append_inj' hsplit rfl).1

end Grows

end Monitor
