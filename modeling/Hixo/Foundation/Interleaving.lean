import Mathlib.Data.Set.Defs
import Mathlib.Logic.Function.Basic

/-!
# Processes that share one cell

Any number of processes, each with a local state, take turns in atomic steps on a shared cell. A
token discipline says when a process may change the cell: it enters its section by taking the free
token, leaves it by giving the token back, and does not touch the cell otherwise.

* `System`, `Step`, `Reachable`, `ReachableBy`: the interleavings, of all processes or of some;
* `Reachable.mono`, `Reachable.locals`: fewer steps, and an invariant of the local states;
* `TokenDiscipline`: what every step of a single process must satisfy;
* `TokenDiscipline.exclusive`: then at most one process is in its section, and the cell says
  whether there is one;
* `TokenDiscipline.changes`: nobody else changes the cell;
* `TokenDiscipline.starves`: a process that stops in its section keeps all others out.
-/

namespace Interleaving

variable {ι γ σ : Type}

/-- The shared cell and the local states of all processes. -/
structure System (ι γ σ : Type) where
  shared : γ
  locals : ι → σ

variable [DecidableEq ι]

/-- Process `i` takes a step. -/
def Step (act : γ → σ → γ → σ → Prop) (i : ι) (s s' : System ι γ σ) : Prop :=
  ∃ l, act s.shared (s.locals i) s'.shared l ∧ s'.locals = Function.update s.locals i l

/-- What the processes can reach from `s₀` in any order of their steps. -/
inductive Reachable (act : γ → σ → γ → σ → Prop) (s₀ : System ι γ σ) : System ι γ σ → Prop
  | start : Reachable act s₀ s₀
  | step {s s' : System ι γ σ} (i : ι) (hs : Reachable act s₀ s) (hstep : Step act i s s') :
      Reachable act s₀ s'

/-- Fewer steps reach less. -/
theorem Reachable.mono {act act' : γ → σ → γ → σ → Prop} {s₀ s : System ι γ σ}
    (hs : Reachable act s₀ s) (hact : ∀ {g l g' l'}, act g l g' l' → act' g l g' l') :
    Reachable act' s₀ s := by
  induction hs with
  | start => exact .start
  | step i _ hstep ih =>
    obtain ⟨l, h, hlocals⟩ := hstep
    exact .step i ih ⟨l, hact h, hlocals⟩

/-- What the processes of a set can reach from `s₀`, while the others stand still. -/
inductive ReachableBy (act : γ → σ → γ → σ → Prop) (alive : Set ι) (s₀ : System ι γ σ) :
    System ι γ σ → Prop
  | start : ReachableBy act alive s₀ s₀
  | step {s s' : System ι γ σ} (i : ι) (hi : i ∈ alive) (hs : ReachableBy act alive s₀ s)
      (hstep : Step act i s s') : ReachableBy act alive s₀ s'

namespace ReachableBy

variable {act : γ → σ → γ → σ → Prop} {alive : Set ι} {s₀ s s' : System ι γ σ} {i : ι}

/-- Who stands still does not change. -/
theorem locals_eq (hs' : ReachableBy act alive s s') (hi : i ∉ alive) :
    s'.locals i = s.locals i := by
  induction hs' with
  | start => rfl
  | step j hj _ hstep ih =>
    obtain ⟨l, -, hlocals⟩ := hstep
    have hij : i ≠ j := fun hij => hi (hij ▸ hj)
    rw [hlocals, Function.update_of_ne hij, ih]

end ReachableBy

/-- What every step of a process keeps, whatever the cell holds, holds of all processes. -/
theorem Reachable.locals {act : γ → σ → γ → σ → Prop} {L : ι → σ → Prop} {s₀ s : System ι γ σ}
    (hs : Reachable act s₀ s) (hstart : ∀ i, L i (s₀.locals i))
    (hkeeps : ∀ {i g l g' l'}, L i l → act g l g' l' → L i l') (i : ι) : L i (s.locals i) := by
  induction hs with
  | start => exact hstart i
  | step j _ hstep ih =>
    obtain ⟨l, hact, hlocals⟩ := hstep
    rw [hlocals]
    by_cases hij : i = j
    · subst hij
      rw [Function.update_self]
      exact hkeeps ih hact
    · rwa [Function.update_of_ne hij]

/-- What a step of process `i` must satisfy, when its local state has the invariant `L i` and the
cell holds one of two values. -/
structure TokenDiscipline (act : γ → σ → γ → σ → Prop) (L : ι → σ → Prop) (owns : σ → Prop)
    (free taken : γ) : Prop where
  /-- The invariant is kept. -/
  keeps : ∀ {i g l g' l'}, L i l → g = free ∨ g = taken → act g l g' l' → L i l'
  /-- A process that enters its section takes the free token. -/
  enter : ∀ {i g l g' l'}, L i l → g = free ∨ g = taken → act g l g' l' →
    ¬owns l → owns l' → g = free ∧ g' = taken
  /-- A process that leaves its section gives the token back. -/
  leave : ∀ {i g l g' l'}, L i l → g = free ∨ g = taken → act g l g' l' →
    owns l → ¬owns l' → g' = free
  /-- All other steps leave the cell alone. -/
  stay : ∀ {i g l g' l'}, L i l → g = free ∨ g = taken → act g l g' l' →
    (owns l ↔ owns l') → g' = g

/-- At most one process is in its section, and the cell says whether there is one. -/
structure Exclusive (L : ι → σ → Prop) (owns : σ → Prop) (free taken : γ)
    (s : System ι γ σ) : Prop where
  locals : ∀ i, L i (s.locals i)
  unique : ∀ i j, owns (s.locals i) → owns (s.locals j) → i = j
  taken_of_owns : ∀ i, owns (s.locals i) → s.shared = taken
  free_of_not : (∀ i, ¬owns (s.locals i)) → s.shared = free

namespace Exclusive

variable {L : ι → σ → Prop} {owns : σ → Prop} {free taken : γ} {s : System ι γ σ}

omit [DecidableEq ι] in
/-- The cell holds one of two values. -/
theorem shared_cases (h : Exclusive L owns free taken s) : s.shared = free ∨ s.shared = taken := by
  by_cases howns : ∃ i, owns (s.locals i)
  · obtain ⟨i, hi⟩ := howns
    exact Or.inr (h.taken_of_owns i hi)
  · exact Or.inl (h.free_of_not (not_exists.mp howns))

omit [DecidableEq ι] in
/-- The token is taken exactly when some process is in its section. -/
theorem shared_eq_taken_iff (h : Exclusive L owns free taken s) (hne : free ≠ taken) :
    s.shared = taken ↔ ∃ i, owns (s.locals i) := by
  constructor
  · intro hshared
    by_contra hnone
    exact hne ((h.free_of_not (not_exists.mp hnone)).symm.trans hshared)
  · rintro ⟨i, hi⟩
    exact h.taken_of_owns i hi

end Exclusive

namespace TokenDiscipline

variable {act : γ → σ → γ → σ → Prop} {L : ι → σ → Prop} {owns : σ → Prop} {free taken : γ}
  {s₀ s s' : System ι γ σ} {i : ι}

/-- One step keeps the section exclusive. -/
theorem exclusive_of_step (h : TokenDiscipline act L owns free taken) (hne : free ≠ taken)
    (hs : Exclusive L owns free taken s) (hstep : Step act i s s') :
    Exclusive L owns free taken s' := by
  obtain ⟨l, hact, hlocals⟩ := hstep
  have hself : s'.locals i = l := by rw [hlocals, Function.update_self]
  have hother {j : ι} (hj : j ≠ i) : s'.locals j = s.locals j := by
    rw [hlocals, Function.update_of_ne hj]
  have hcell := hs.shared_cases
  have hL := hs.locals i
  refine ⟨fun j => ?_, fun j k hj hk => ?_, fun j hj => ?_, fun hnone => ?_⟩
  · by_cases hji : j = i
    · subst hji
      exact hself.symm ▸ h.keeps hL hcell hact
    · exact hother hji ▸ hs.locals j
  · -- a process that enters finds the token free, so nobody else is in
    have hcases {j : ι} (hj : owns (s'.locals j)) (hji : j ≠ i) (hi : owns (s'.locals i)) :
        False := by
      rw [hother hji] at hj
      rw [hself] at hi
      by_cases howns : owns (s.locals i)
      · exact hji (hs.unique j i hj howns)
      · obtain ⟨hfree, -⟩ := h.enter hL hcell hact howns hi
        exact hne (hfree.symm.trans (hs.taken_of_owns j hj))
    by_cases hji : j = i <;> by_cases hki : k = i
    · exact hji.trans hki.symm
    · exact (hcases hk hki (hji ▸ hj)).elim
    · exact (hcases hj hji (hki ▸ hk)).elim
    · rw [hother hji] at hj
      rw [hother hki] at hk
      exact hs.unique j k hj hk
  · by_cases hji : j = i
    · subst hji
      rw [hself] at hj
      by_cases howns : owns (s.locals j)
      · rw [h.stay hL hcell hact (iff_of_true howns hj)]
        exact hs.taken_of_owns j howns
      · exact (h.enter hL hcell hact howns hj).2
    · rw [hother hji] at hj
      -- the process that took the step is not in its section
      have howns : ¬owns (s.locals i) := fun hi => hji (hs.unique j i hj hi)
      have howns' : ¬owns l := by
        intro hl
        obtain ⟨hfree, -⟩ := h.enter hL hcell hact howns hl
        exact hne (hfree.symm.trans (hs.taken_of_owns j hj))
      rw [h.stay hL hcell hact (iff_of_false howns howns')]
      exact hs.taken_of_owns j hj
  · have hl : ¬owns l := hself ▸ hnone i
    by_cases howns : owns (s.locals i)
    · exact h.leave hL hcell hact howns hl
    · rw [h.stay hL hcell hact (iff_of_false howns hl)]
      refine hs.free_of_not fun j => ?_
      by_cases hji : j = i
      · exact hji ▸ howns
      · exact hother hji ▸ hnone j

/-- In every reachable state the section is exclusive. -/
theorem exclusive_of_reachable (h : TokenDiscipline act L owns free taken) (hne : free ≠ taken)
    (hlocals : ∀ i, L i (s₀.locals i)) (hnone : ∀ i, ¬owns (s₀.locals i))
    (hfree : s₀.shared = free) (hs : Reachable act s₀ s) : Exclusive L owns free taken s := by
  induction hs with
  | start =>
    exact ⟨hlocals, fun i _ hi => absurd hi (hnone i), fun i hi => absurd hi (hnone i),
      fun _ => hfree⟩
  | step i _ hstep ih => exact h.exclusive_of_step hne ih hstep

/-- A step that changes the cell takes the free token into the section of its process, or gives it
back from there. -/
theorem enter_or_leave_of_ne (h : TokenDiscipline act L owns free taken)
    (hs : Exclusive L owns free taken s) (hstep : Step act i s s')
    (hchange : s'.shared ≠ s.shared) :
    s.shared = free ∧ s'.shared = taken ∧ ¬owns (s.locals i) ∧ owns (s'.locals i) ∨
      s.shared = taken ∧ s'.shared = free ∧ owns (s.locals i) ∧ ¬owns (s'.locals i) := by
  obtain ⟨l, hact, hlocals⟩ := hstep
  have hself : s'.locals i = l := by rw [hlocals, Function.update_self]
  rw [hself]
  have hcell := hs.shared_cases
  have hL := hs.locals i
  by_cases howns : owns (s.locals i) <;> by_cases howns' : owns l
  · exact absurd (h.stay hL hcell hact (iff_of_true howns howns')) hchange
  · exact Or.inr ⟨hs.taken_of_owns i howns, h.leave hL hcell hact howns howns', howns, howns'⟩
  · obtain ⟨hfree, htaken⟩ := h.enter hL hcell hact howns howns'
    exact Or.inl ⟨hfree, htaken, howns, howns'⟩
  · exact absurd (h.stay hL hcell hact (iff_of_false howns howns')) hchange

/-- A process that stands still in its section keeps all others out. -/
theorem exclusive_of_reachableBy (h : TokenDiscipline act L owns free taken) (hne : free ≠ taken)
    (hs : Exclusive L owns free taken s) (hi : owns (s.locals i)) {alive : Set ι}
    (hdead : i ∉ alive) (hs' : ReachableBy act alive s s') :
    Exclusive L owns free taken s' ∧ s'.shared = taken ∧ ∀ j, j ≠ i → ¬owns (s'.locals j) := by
  have hexcl : Exclusive L owns free taken s' := by
    induction hs' with
    | start => exact hs
    | step j _ _ hstep ih => exact h.exclusive_of_step hne ih hstep
  have howns : owns (s'.locals i) := hs'.locals_eq hdead ▸ hi
  exact ⟨hexcl, hexcl.taken_of_owns i howns, fun j hj hown => hj (hexcl.unique j i hown howns)⟩

end TokenDiscipline

end Interleaving
