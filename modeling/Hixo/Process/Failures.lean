import Hixo.Process.Modules

/-!
# Failing initialisations

`worker_main_core` keeps the results of all `init_worker` callbacks of a type in one variable and
looks at it after the last of them, so that a callback that succeeds covers up an earlier failure.

* `CallbacksReturn`: the callbacks return, with these results;
* `enters_of_lastOk`, `fails_of_not_lastOk`: how the call goes on;
* `failuresReported_iff`: when every failure is reported.
-/

namespace Hixo

open Programs

variable {ε σ : Type}

/-- The `init_worker` callbacks return, that of module `i` with `init i`, and the `exit_master`
callbacks do. Nothing is said about the run loops. -/
structure CallbacksReturn (mods : List (HixoModule ε σ)) (init : ℕ → ℤ) : Prop where
  initWorker : ∀ (i : ℕ) (m : HixoModule ε σ) (f : σ → Except ε (ℤ × σ)), mods[i]? = some m →
    m.initWorker = some f → ∀ s, ∃ s', f s = .ok (init i, s')
  exitMaster : ∀ (i : ℕ) (m : HixoModule ε σ) (f : σ → Except ε σ), mods[i]? = some m →
    m.exitMaster = some f → ∀ s, ∃ s', f s = .ok s'

/-- An `init_worker` callback that `worker_main_core` calls returns `HIXO_ERROR`. -/
def InitFails (mods : List (HixoModule ε σ)) (s : σ) : Prop :=
  (∃ rslt c i, workerMainCore mods s = .ok (rslt, c) ∧ .initWorker i hixoError ∈ c.calls) ∨
    ∃ c i, EntersRunLoop mods s c ∧ .initWorker i hixoError ∈ c.calls

/-- `worker_main_core` reports the failures of its `init_worker` callbacks. -/
structure FailuresReported (mods : List (HixoModule ε σ)) (s : σ) : Prop where
  /-- A run loop is called only if none of them returned `HIXO_ERROR`. -/
  runloop : ∀ c, EntersRunLoop mods s c →
    (∃ m ∈ mods, m.type = .core ∧ m.runloop.isSome = true) →
    ∀ i, .initWorker i hixoError ∉ c.calls
  /-- When one of them returned `HIXO_ERROR`, so does `worker_main_core`. -/
  result : InitFails mods s → ∃ c, workerMainCore mods s = .ok (hixoError, c)

/-- The last `init_worker` of a type fails, or none of any type does. -/
def NothingMasked (mods : List (HixoModule ε σ)) (init : ℕ → ℤ) : Prop :=
  (∃ type, ¬LastOk mods init type) ∨
    ∀ i m, mods[i]? = some m → m.initWorker.isSome = true → init i ≠ hixoError

section Returns

variable {mods : List (HixoModule ε σ)} {init : ℕ → ℤ}
  {ms : List (HixoModule ε σ × ℕ)} {s : σ} {rslt : ℤ} {c : Called σ}

theorem CallbacksReturn.initReturns (h : CallbacksReturn mods init) : InitReturns mods init := by
  intro i m f hm hf s rslt s' hcall
  obtain ⟨s₁, hret⟩ := h.initWorker i m f hm hf s
  exact (Prod.mk.inj (Except.ok.inj (hcall.symm.trans hret))).1

/-- When all callbacks return, `INIT_WORKER` gets to its end. -/
theorem CallbacksReturn.initWorkers (h : CallbacksReturn mods init) (type : ModuleType)
    (hms : ms ⊆ mods.zipIdx) (rslt : ℤ) (c : Called σ) :
    ∃ r, initWorkers type ms rslt c = .ok r := by
  induction ms generalizing rslt c with
  | nil => exact ⟨(rslt, c), rfl⟩
  | cons x ms ih =>
    obtain ⟨m, i⟩ := x
    have hrest : ms ⊆ mods.zipIdx := fun y hy => hms (List.mem_cons_of_mem _ hy)
    have hm : mods[i]? = some m := List.mk_mem_zipIdx_iff_getElem?.mp (hms List.mem_cons_self)
    rw [Hixo.initWorkers]
    split_ifs with htype
    · exact ih hrest rslt c
    · cases hcallback : m.initWorker with
      | none => exact ih hrest rslt c
      | some f =>
        obtain ⟨s', hcall⟩ := h.initWorker i m f hm hcallback c.state
        dsimp only
        rw [bind_of_eq_ok hcall]
        exact ih hrest _ _

/-- When all callbacks return, `EXIT_WORKER` gets to its end. -/
theorem CallbacksReturn.exitWorkers (h : CallbacksReturn mods init) (type : ModuleType)
    (hms : ms ⊆ mods.zipIdx) (c : Called σ) : ∃ c', exitWorkers type ms c = .ok c' := by
  induction ms generalizing c with
  | nil => exact ⟨c, rfl⟩
  | cons x ms ih =>
    obtain ⟨m, i⟩ := x
    have hrest : ms ⊆ mods.zipIdx := fun y hy => hms (List.mem_cons_of_mem _ hy)
    have hm : mods[i]? = some m := List.mk_mem_zipIdx_iff_getElem?.mp (hms List.mem_cons_self)
    rw [Hixo.exitWorkers]
    split_ifs with htype
    · exact ih hrest c
    · cases hcallback : m.exitMaster with
      | none => exact ih hrest c
      | some f =>
        obtain ⟨s', hcall⟩ := h.exitMaster i m f hm hcallback c.state
        dsimp only
        rw [bind_of_eq_ok hcall]
        exact ih hrest _

/-- Without a core module that has a run loop, nothing is called and the result stays. -/
theorem runloops_skip (rslt : ℤ) (c : Called σ)
    (h : ∀ x ∈ ms, .core ≠ x.1.type ∨ x.1.runloop = none) : runloops ms rslt c = .ok (rslt, c) := by
  induction ms with
  | nil => rfl
  | cons x ms ih =>
    have hrest := ih fun y hy => h y (List.mem_cons_of_mem _ hy)
    obtain ⟨m, i⟩ := x
    rw [runloops]
    split_ifs with htype
    · exact hrest
    · rw [(h (m, i) List.mem_cons_self).resolve_left htype]
      exact hrest

/-- The run loops are reached with all `init_worker` callbacks called, when the last one of every
type succeeds. -/
theorem CallbacksReturn.enters_of_lastOk (h : CallbacksReturn mods init)
    (hok : ∀ type, LastOk mods init type) (s : σ) : ∃ c, EntersRunLoop mods s c := by
  obtain ⟨⟨rslt₁, c₁⟩, hcore⟩ := h.initWorkers .core (List.Subset.refl _) hixoOk
    { state := s }
  obtain ⟨⟨rslt₂, c₂⟩, hevent⟩ := h.initWorkers .event (List.Subset.refl _) hixoOk c₁
  obtain ⟨⟨rslt₃, c₃⟩, happ⟩ := h.initWorkers .app (List.Subset.refl _) hixoOk c₂
  obtain ⟨h₁, hok₁⟩ := (callsOf_nil mods init).initWorkers h.initReturns hcore
  obtain ⟨h₂, hok₂⟩ := h₁.initWorkers h.initReturns hevent
  obtain ⟨-, hok₃⟩ := h₂.initWorkers h.initReturns happ
  exact ⟨c₃, rslt₁, c₁, rslt₂, c₂, rslt₃, hcore, fun heq => hok₁.mp heq (hok .core), hevent,
    fun heq => hok₂.mp heq (hok .event), happ, fun heq => hok₃.mp heq (hok .app)⟩

/-- When the run loops are reached, the last module of each type succeeded, and every `init_worker`
was called. -/
theorem EntersRunLoop.calls (hinit : InitReturns mods init) (henter : EntersRunLoop mods s c) :
    (∀ type, LastOk mods init type) ∧ ∀ i r, .initWorker i r ∈ c.calls ↔
      ∃ m, mods[i]? = some m ∧ m.initWorker.isSome = true ∧ r = init i := by
  obtain ⟨rslt₁, c₁, rslt₂, c₂, rslt₃, hcore, hne₁, hevent, hne₂, happ, hne₃⟩ := henter
  obtain ⟨h₁, hok₁⟩ := (callsOf_nil mods init).initWorkers hinit hcore
  obtain ⟨h₂, hok₂⟩ := h₁.initWorkers hinit hevent
  obtain ⟨h₃, hok₃⟩ := h₂.initWorkers hinit happ
  refine ⟨fun type => ?_, fun i r => ?_⟩
  · by_contra hno
    cases type with
    | core => exact hne₁ (hok₁.mpr hno)
    | event => exact hne₂ (hok₂.mpr hno)
    | app => exact hne₃ (hok₃.mpr hno)
  · rw [h₃.initWorker]
    refine exists_congr fun m => ?_
    have hall : m.type ∈ [ModuleType.app, .event, .core] := by cases m.type <;> simp
    simp [hall]

/-- When the last `init_worker` of some type fails, `worker_main_core` returns `HIXO_ERROR`. -/
theorem CallbacksReturn.fails_of_not_lastOk (h : CallbacksReturn mods init)
    (hno : ∃ type, ¬LastOk mods init type) (s : σ) :
    ∃ c, workerMainCore mods s = .ok (hixoError, c) := by
  have hexits (type : ModuleType) (c : Called σ) :=
    h.exitWorkers type (List.Subset.refl _) c
  obtain ⟨⟨rslt₁, c₁⟩, hcore⟩ := h.initWorkers .core (List.Subset.refl _) hixoOk
    { state := s }
  obtain ⟨⟨rslt₂, c₂⟩, hevent⟩ := h.initWorkers .event (List.Subset.refl _) hixoOk c₁
  obtain ⟨⟨rslt₃, c₃⟩, happ⟩ := h.initWorkers .app (List.Subset.refl _) hixoOk c₂
  obtain ⟨h₁, hok₁⟩ := (callsOf_nil mods init).initWorkers h.initReturns hcore
  obtain ⟨h₂, hok₂⟩ := h₁.initWorkers h.initReturns hevent
  obtain ⟨-, hok₃⟩ := h₂.initWorkers h.initReturns happ
  rw [workerMainCore, bind_of_eq_ok hcore]
  by_cases heq₁ : rslt₁ = hixoError
  · exact ⟨c₁, by rw [heq₁]; rfl⟩
  dsimp only
  rw [if_neg heq₁, bind_of_eq_ok hevent]
  by_cases heq₂ : rslt₂ = hixoError
  · obtain ⟨c₃, hexit⟩ := hexits .core c₂
    dsimp only
    rw [if_pos heq₂, bind_of_eq_ok hexit, heq₂]
    exact ⟨c₃, rfl⟩
  dsimp only
  rw [if_neg heq₂, bind_of_eq_ok happ]
  by_cases heq₃ : rslt₃ = hixoError
  · obtain ⟨c₄, hexit₄⟩ := hexits .event c₃
    obtain ⟨c₅, hexit₅⟩ := hexits .core c₄
    dsimp only
    rw [if_pos heq₃, bind_of_eq_ok hexit₄, bind_of_eq_ok hexit₅, heq₃]
    exact ⟨c₅, rfl⟩
  -- otherwise the last callback of every type has succeeded
  exfalso
  obtain ⟨type, hno⟩ := hno
  cases type with
  | core => exact heq₁ (hok₁.mpr hno)
  | event => exact heq₂ (hok₂.mpr hno)
  | app => exact heq₃ (hok₃.mpr hno)

/-- Every failure is reported if and only if none is covered up by the last callback of its
type, in a table in which the last callbacks of all types succeed. -/
theorem failuresReported_iff (h : CallbacksReturn mods init) (s : σ) :
    FailuresReported mods s ↔ NothingMasked mods init := by
  constructor
  · intro hreported
    -- otherwise a failure is covered up, and the run loops are reached
    by_contra hmasked
    rw [NothingMasked, not_or, not_exists] at hmasked
    obtain ⟨hok, hfail⟩ := hmasked
    push Not at hok hfail
    obtain ⟨i, m, hm, hsome, herror⟩ := hfail
    obtain ⟨c, henter⟩ := h.enters_of_lastOk hok s
    have hcall : .initWorker i hixoError ∈ c.calls :=
      ((henter.calls h.initReturns).2 i hixoError).mpr ⟨m, hm, hsome, herror.symm⟩
    by_cases hloop : ∃ m ∈ mods, m.type = .core ∧ m.runloop.isSome = true
    · exact hreported.runloop c henter hloop i hcall
    · -- without a run loop the result of the last callback is returned
      obtain ⟨c', hrun⟩ := hreported.result (.inr ⟨c, i, henter, hcall⟩)
      obtain ⟨rslt, c₂, _, _, hne, hloops, -⟩ := henter.exits hrun
      have hskip : ∀ x ∈ mods.zipIdx, .core ≠ x.1.type ∨ x.1.runloop = none := by
        intro x hx
        by_contra hboth
        obtain ⟨htype, hsome⟩ := not_or.mp hboth
        exact hloop ⟨x.1, List.fst_mem_of_mem_zipIdx hx, (not_not.mp htype).symm,
          Option.isSome_iff_ne_none.mpr hsome⟩
      rw [runloops_skip rslt c hskip, Except.ok.injEq, Prod.mk.injEq] at hloops
      exact hne hloops.1
  · rintro (hno | hnone)
    · -- the first type whose last callback fails ends the call
      refine ⟨fun c henter => ?_, fun _ => h.fails_of_not_lastOk hno s⟩
      obtain ⟨type, hno⟩ := hno
      exact absurd ((henter.calls h.initReturns).1 type) hno
    · -- there is no failure at all
      refine ⟨fun c henter _ i hcall => ?_, ?_⟩
      · obtain ⟨m, hm, hsome, hr⟩ := ((henter.calls h.initReturns).2 i _).mp hcall
        exact hnone i m hm hsome hr.symm
      · rintro (⟨rslt, c, i, hrun, hcall⟩ | ⟨c, i, henter, hcall⟩)
        · obtain ⟨m, hm, hsome, -, hr⟩ :=
            ((workerMainCore_calls h.initReturns hrun).1 i _).mp hcall
          exact absurd hr.symm (hnone i m hm hsome)
        · obtain ⟨m, hm, hsome, hr⟩ := ((henter.calls h.initReturns).2 i _).mp hcall
          exact absurd hr.symm (hnone i m hm hsome)

end Returns

/-! ## A sample -/

/-- The callbacks of `gap_modules`, where the one of the first app module fails. -/
def coveredModules : List (HixoModule Empty Unit) :=
  [{ type := .core, exitMaster := some .ok },
    { type := .core, initWorker := some fun s => .ok (hixoOk, s), exitWorker := some .ok,
      exitMaster := some .ok, runloop := some fun s => .ok (hixoError, s) },
    { type := .event, initWorker := some fun s => .ok (hixoOk, s), exitWorker := some .ok },
    { type := .app, initWorker := some fun s => .ok (hixoError, s) },
    { type := .app, initWorker := some fun s => .ok (hixoOk, s) }]

/-- The results of these callbacks. -/
def coveredInit (i : ℕ) : ℤ := if i = 3 then hixoError else hixoOk

theorem coveredModules_return : CallbacksReturn coveredModules coveredInit := by
  refine ⟨fun i m f hm hf s => ?_, fun i m f hm hf s => ?_⟩
  · -- only the first module has no `init_worker`
    match i with
    | 0 =>
      obtain rfl := Option.some.inj hm
      cases hf
    | 1 | 2 | 3 | 4 =>
      obtain rfl := Option.some.inj hm
      obtain rfl := Option.some.inj hf
      exact ⟨s, rfl⟩
    | i + 5 => cases hm
  · -- only the first two modules have an `exit_master`
    match i with
    | 0 | 1 =>
      obtain rfl := Option.some.inj hm
      obtain rfl := Option.some.inj hf
      exact ⟨s, rfl⟩
    | 2 | 3 | 4 =>
      obtain rfl := Option.some.inj hm
      cases hf
    | i + 5 => cases hm

theorem failuresReported_iff_covered :
    FailuresReported coveredModules () ↔ NothingMasked coveredModules coveredInit :=
  failuresReported_iff coveredModules_return ()

/-- A failure of the first app module is not reported when the last one succeeds. -/
theorem not_failuresReported_covered : ¬FailuresReported coveredModules () := by
  intro hreported
  have henter : EntersRunLoop coveredModules () { state := (), calls := [.initWorker 1 hixoOk,
      .initWorker 2 hixoOk, .initWorker 3 hixoError, .initWorker 4 hixoOk] } :=
    ⟨_, _, _, _, _, rfl, by decide, rfl, by decide, rfl, by decide⟩
  exact hreported.runloop _ henter ⟨_, List.mem_cons_of_mem _ List.mem_cons_self, rfl, rfl⟩ 3
    (by decide)

end Hixo
