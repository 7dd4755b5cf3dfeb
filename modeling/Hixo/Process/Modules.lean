import Hixo.Foundation.Programs
import Mathlib.Algebra.Order.Ring.Int

/-!
# The module table

`worker_main_core` over any table of modules: it calls the `init_worker` callbacks of the CORE,
EVENT and APP modules, the run loops, and on the way out the callbacks that the macro
`EXIT_WORKER` names.

* `HixoModule`, `ModuleCall`: the modules, and the record of what was called;
* `initWorkers`, `runloops`, `exitWorkers`, `workerMainCore`: the code;
* `Reached`, `LastOk`: how far a worker gets, in terms of the results of the callbacks;
* `workerMainCore_calls`: what `worker_main_core` calls;
* `tornDown_iff`: when this is what a worker owes to its modules.
-/

namespace Hixo

open Programs

/-! ## Modules -/

/-- `HIXO_OK` -/
def hixoOk : ℤ := 0

/-- `HIXO_ERROR` -/
def hixoError : ℤ := -1

/-- `hixo_module_type_t` -/
inductive ModuleType
  /-- `HIXO_MODULE_CORE` -/
  | core
  /-- `HIXO_MODULE_EVENT` -/
  | event
  /-- `HIXO_MODULE_APP` -/
  | app
  deriving DecidableEq, Repr

/-- `hixo_module_t`, whose callbacks work on `σ` and may stop with `ε`; `none` is `NULL`. -/
structure HixoModule (ε σ : Type) where
  /-- `m_type` -/
  type : ModuleType
  /-- `mpf_init_worker` -/
  initWorker : Option (σ → Except ε (ℤ × σ)) := none
  /-- `mpf_exit_worker` -/
  exitWorker : Option (σ → Except ε σ) := none
  /-- `mpf_exit_master` -/
  exitMaster : Option (σ → Except ε σ) := none
  /-- `mpf_runloop` in the context of a CORE module. -/
  runloop : Option (σ → Except ε (ℤ × σ)) := none

/-- A call of a callback of module `i`. -/
inductive ModuleCall
  | initWorker (i : ℕ) (rslt : ℤ)
  | runloop (i : ℕ) (rslt : ℤ)
  | exitWorker (i : ℕ)
  | exitMaster (i : ℕ)
  deriving DecidableEq, Repr

/-- The state, and what was called so far. -/
structure Called (σ : Type) where
  state : σ
  calls : List ModuleCall := []

variable {ε σ : Type}

/-! ## `worker_main_core` -/

/-- `INIT_WORKER(module_type)` for the modules that are left, with the value of `rslt`. -/
def initWorkers (type : ModuleType) :
    List (HixoModule ε σ × ℕ) → ℤ → Called σ → Except ε (ℤ × Called σ)
  | [], rslt, c => .ok (rslt, c)
  | (m, i) :: ms, rslt, c =>
    if type ≠ m.type then initWorkers type ms rslt c
    else
      match m.initWorker with
      | none => initWorkers type ms rslt c
      | some f => do
        let (rslt, state) ← f c.state
        initWorkers type ms rslt { state, calls := c.calls ++ [.initWorker i rslt] }

/-- The run loops of the CORE modules that are left, with the value of `rslt`. -/
def runloops : List (HixoModule ε σ × ℕ) → ℤ → Called σ → Except ε (ℤ × Called σ)
  | [], rslt, c => .ok (rslt, c)
  | (m, i) :: ms, rslt, c =>
    if ModuleType.core ≠ m.type then runloops ms rslt c
    else
      match m.runloop with
      | none => runloops ms rslt c
      | some f => do
        let (rslt, state) ← f c.state
        let c := { state, calls := c.calls ++ [.runloop i rslt] }
        if rslt = -1 then .ok (rslt, c) else runloops ms rslt c

/-- `EXIT_WORKER(module_type)` for the modules that are left. The macro names `mpf_exit_master`. -/
def exitWorkers (type : ModuleType) :
    List (HixoModule ε σ × ℕ) → Called σ → Except ε (Called σ)
  | [], c => .ok c
  | (m, i) :: ms, c =>
    if type ≠ m.type then exitWorkers type ms c
    else
      match m.exitMaster with
      | none => exitWorkers type ms c
      | some f => do
        let state ← f c.state
        exitWorkers type ms { state, calls := c.calls ++ [.exitMaster i] }

/-- `worker_main_core()`: what it returns and what it called. -/
def workerMainCore (mods : List (HixoModule ε σ)) (s : σ) : Except ε (ℤ × Called σ) := do
  let (rslt, c) ← initWorkers .core mods.zipIdx hixoOk { state := s }
  if rslt = hixoError then .ok (rslt, c)
  else
    let (rslt, c) ← initWorkers .event mods.zipIdx hixoOk c
    if rslt = hixoError then .ok (rslt, ← exitWorkers .core mods.zipIdx c)
    else
      let (rslt, c) ← initWorkers .app mods.zipIdx hixoOk c
      if rslt = hixoError then
        let c ← exitWorkers .event mods.zipIdx c
        .ok (rslt, ← exitWorkers .core mods.zipIdx c)
      else
        let (rslt, c) ← runloops mods.zipIdx rslt c
        let c ← exitWorkers .app mods.zipIdx c
        let c ← exitWorkers .event mods.zipIdx c
        .ok (rslt, ← exitWorkers .core mods.zipIdx c)

/-- `worker_main_core()` gets to the run loops, with what it called until then. -/
def EntersRunLoop (mods : List (HixoModule ε σ)) (s : σ) (c : Called σ) : Prop :=
  ∃ rslt₁ c₁ rslt₂ c₂ rslt₃,
    initWorkers .core mods.zipIdx hixoOk { state := s } = .ok (rslt₁, c₁) ∧ rslt₁ ≠ hixoError ∧
    initWorkers .event mods.zipIdx hixoOk c₁ = .ok (rslt₂, c₂) ∧ rslt₂ ≠ hixoError ∧
    initWorkers .app mods.zipIdx hixoOk c₂ = .ok (rslt₃, c) ∧ rslt₃ ≠ hixoError

/-! ## How far a worker gets -/

/-- The `init_worker` callback of module `i` returns `init i`. -/
def InitReturns (mods : List (HixoModule ε σ)) (init : ℕ → ℤ) : Prop :=
  ∀ i m f, mods[i]? = some m → m.initWorker = some f → ∀ s rslt s', f s = .ok (rslt, s') →
    rslt = init i

/-- The last module of a type that has an `init_worker`. -/
def lastInit (mods : List (HixoModule ε σ × ℕ)) (type : ModuleType) : Option ℕ :=
  (mods.filter fun x => decide (x.1.type = type) && x.1.initWorker.isSome).getLast?.map Prod.snd

/-- The last `init_worker` of a type does not return `HIXO_ERROR`. Only this result is looked
at. -/
def LastOk (mods : List (HixoModule ε σ)) (init : ℕ → ℤ) (type : ModuleType) : Prop :=
  (lastInit mods.zipIdx type).map init ≠ some hixoError

/-- The `init_worker` callbacks of a type are called. -/
def Reached (mods : List (HixoModule ε σ)) (init : ℕ → ℤ) : ModuleType → Prop
  | .core => True
  | .event => LastOk mods init .core
  | .app => LastOk mods init .core ∧ LastOk mods init .event

section Loops

variable {mods : List (HixoModule ε σ)} {init : ℕ → ℤ} {type : ModuleType}
  {ms : List (HixoModule ε σ × ℕ)} {rslt rslt' : ℤ} {c c' : Called σ}

/-- `INIT_WORKER` calls each `init_worker` of the modules of a type, and leaves the result of the
last one. -/
theorem initWorkers_spec (hinit : InitReturns mods init) (hms : ms ⊆ mods.zipIdx)
    (hrun : initWorkers type ms rslt c = .ok (rslt', c')) :
    rslt' = ((lastInit ms type).map init).getD rslt ∧
      ∀ e, e ∈ c'.calls ↔ e ∈ c.calls ∨ ∃ m i, (m, i) ∈ ms ∧ m.type = type ∧
        m.initWorker.isSome = true ∧ e = .initWorker i (init i) := by
  induction ms generalizing rslt c with
  | nil =>
    rw [initWorkers, Except.ok.injEq, Prod.mk.injEq] at hrun
    obtain ⟨rfl, rfl⟩ := hrun
    exact ⟨rfl, by simp⟩
  | cons x ms ih =>
    obtain ⟨m, i⟩ := x
    have hrest : ms ⊆ mods.zipIdx := fun y hy => hms (List.mem_cons_of_mem _ hy)
    -- a module that is skipped
    have hskip (hno : (decide (m.type = type) && m.initWorker.isSome) = false)
        (hrun : initWorkers type ms rslt c = .ok (rslt', c')) :
        rslt' = ((lastInit ((m, i) :: ms) type).map init).getD rslt ∧
          ∀ e, e ∈ c'.calls ↔ e ∈ c.calls ∨ ∃ m' i', (m', i') ∈ (m, i) :: ms ∧ m'.type = type ∧
            m'.initWorker.isSome = true ∧ e = .initWorker i' (init i') := by
      obtain ⟨hrslt, hcalls⟩ := ih hrest hrun
      refine ⟨?_, fun e => (hcalls e).trans (or_congr_right ⟨?_, ?_⟩)⟩
      · rw [hrslt, lastInit, lastInit, List.filter_cons_of_neg (by simpa using hno)]
      · rintro ⟨m', i', hmem, h⟩
        exact ⟨m', i', List.mem_cons_of_mem _ hmem, h⟩
      · rintro ⟨m', i', hmem, htype, hsome, h⟩
        rcases List.mem_cons.mp hmem with heq | hmem
        · obtain ⟨rfl, rfl⟩ := Prod.mk.inj heq
          simp [htype, hsome] at hno
        · exact ⟨m', i', hmem, htype, hsome, h⟩
    rw [initWorkers] at hrun
    by_cases htype : type = m.type
    · rw [if_neg (not_not.mpr htype)] at hrun
      cases hcallback : m.initWorker with
      | none =>
        simp only [hcallback] at hrun
        exact hskip (by simp [hcallback]) hrun
      | some f =>
        simp only [hcallback, bind, Except.bind] at hrun
        split at hrun
        · cases hrun
        next r hcall =>
          obtain ⟨hrslt, hcalls⟩ := ih hrest hrun
          have hmod : mods[i]? = some m :=
            List.mk_mem_zipIdx_iff_getElem?.mp (hms List.mem_cons_self)
          have hr : r.1 = init i := hinit i m f hmod hcallback c.state r.1 r.2 hcall
          refine ⟨?_, fun e => (hcalls e).trans ?_⟩
          · rw [hrslt, hr, lastInit, lastInit,
              List.filter_cons_of_pos (by simp [htype, hcallback]), List.getLast?_cons]
            cases (ms.filter fun x =>
                decide (x.1.type = type) && x.1.initWorker.isSome).getLast? <;>
              rfl
          · rw [List.mem_append, List.mem_singleton, or_assoc]
            refine or_congr_right ⟨?_, ?_⟩
            · rintro (rfl | ⟨m', i', hmem, h⟩)
              · exact ⟨m, i, List.mem_cons_self, htype.symm, by simp [hcallback], by rw [hr]⟩
              · exact ⟨m', i', List.mem_cons_of_mem _ hmem, h⟩
            · rintro ⟨m', i', hmem, h⟩
              rcases List.mem_cons.mp hmem with heq | hmem
              · obtain ⟨rfl, rfl⟩ := Prod.mk.inj heq
                exact Or.inl (h.2.2.trans (by rw [hr]))
              · exact Or.inr ⟨m', i', hmem, h⟩
    · rw [if_pos htype] at hrun
      exact hskip (by simp [Ne.symm htype]) hrun

/-- The loop over the run loops calls nothing else. -/
theorem runloops_spec (hrun : runloops ms rslt c = .ok (rslt', c')) :
    ∀ e, (∀ i r, e ≠ .runloop i r) → (e ∈ c'.calls ↔ e ∈ c.calls) := by
  -- what the loop itself adds to the calls is never one of the events asked about
  induction ms generalizing rslt c with
  | nil =>
    rw [runloops, Except.ok.injEq, Prod.mk.injEq] at hrun
    obtain ⟨-, rfl⟩ := hrun
    exact fun _ _ => Iff.rfl
  | cons x ms ih =>
    obtain ⟨m, i⟩ := x
    rw [runloops] at hrun
    split_ifs at hrun with htype
    · exact ih hrun
    · cases hcallback : m.runloop with
      | none =>
        simp only [hcallback] at hrun
        exact ih hrun
      | some f =>
        simp only [hcallback, bind, Except.bind] at hrun
        split at hrun
        · cases hrun
        next r hcall =>
          intro e he
          have hone : e ∈ c.calls ++ [.runloop i r.1] ↔ e ∈ c.calls := by
            rw [List.mem_append, List.mem_singleton, or_iff_left (he i r.1)]
          -- the loop is left at the first `runloop` that returns -1
          split_ifs at hrun with hstop
          · rw [Except.ok.injEq, Prod.mk.injEq] at hrun
            obtain ⟨-, rfl⟩ := hrun
            exact hone
          · exact (ih hrun e he).trans hone

/-- `EXIT_WORKER` calls the `exit_master` of each module of a type. -/
theorem exitWorkers_spec (hrun : exitWorkers type ms c = .ok c') :
    ∀ e, e ∈ c'.calls ↔ e ∈ c.calls ∨ ∃ m i, (m, i) ∈ ms ∧ m.type = type ∧
      m.exitMaster.isSome = true ∧ e = .exitMaster i := by
  induction ms generalizing c with
  | nil =>
    rw [exitWorkers, Except.ok.injEq] at hrun
    simp [hrun]
  | cons x ms ih =>
    obtain ⟨m, i⟩ := x
    simp only [List.mem_cons, or_and_right, exists_or]
    rw [exitWorkers] at hrun
    split_ifs at hrun with htype
    · -- a module of another type
      intro e
      have hno : ¬∃ m' i', (m', i') = (m, i) ∧ m'.type = type ∧ m'.exitMaster.isSome = true ∧
          e = .exitMaster i' := by
        rintro ⟨m', i', heq, htype', -⟩
        obtain ⟨rfl, rfl⟩ := Prod.mk.inj heq
        exact htype htype'.symm
      rw [ih hrun e, or_iff_right hno]
    · have htype : type = m.type := not_not.mp htype
      cases hcallback : m.exitMaster with
      | none =>
        -- the module has no such callback
        simp only [hcallback] at hrun
        intro e
        have hno : ¬∃ m' i', (m', i') = (m, i) ∧ m'.type = type ∧
            m'.exitMaster.isSome = true ∧ e = .exitMaster i' := by
          rintro ⟨m', i', heq, -, hsome, -⟩
          obtain ⟨rfl, rfl⟩ := Prod.mk.inj heq
          simp [hcallback] at hsome
        rw [ih hrun e, or_iff_right hno]
      | some f =>
        simp only [hcallback, bind, Except.bind] at hrun
        split at hrun
        · cases hrun
        next s hcall =>
          intro e
          -- the callback of the first module is the one that is called here
          have hone : (∃ m' i', (m', i') = (m, i) ∧ m'.type = type ∧
              m'.exitMaster.isSome = true ∧ e = .exitMaster i') ↔ e = .exitMaster i := by
            constructor
            · rintro ⟨m', i', heq, -, -, rfl⟩
              obtain ⟨rfl, rfl⟩ := Prod.mk.inj heq
              rfl
            · rintro rfl
              exact ⟨m, i, rfl, htype.symm, by simp [hcallback], rfl⟩
          rw [ih hrun e, hone, List.mem_append, List.mem_singleton, or_assoc]

end Loops

/-! ## What is called -/

section Skip

variable {type : ModuleType} {ms : List (HixoModule ε σ × ℕ)} {c : Called σ}

/-- Modules of other types, and those without the callback, are skipped. -/
theorem initWorkers_skip (rslt : ℤ) (c : Called σ)
    (h : ∀ x ∈ ms, type ≠ x.1.type ∨ x.1.initWorker = none) :
    initWorkers type ms rslt c = .ok (rslt, c) := by
  induction ms with
  | nil => rfl
  | cons x ms ih =>
    have hrest := ih fun y hy => h y (List.mem_cons_of_mem _ hy)
    obtain ⟨m, i⟩ := x
    rw [initWorkers]
    split_ifs with htype
    · exact hrest
    · rw [(h (m, i) List.mem_cons_self).resolve_left htype]
      exact hrest

theorem exitWorkers_skip (c : Called σ)
    (h : ∀ x ∈ ms, type ≠ x.1.type ∨ x.1.exitMaster = none) :
    exitWorkers type ms c = .ok c := by
  induction ms with
  | nil => rfl
  | cons x ms ih =>
    have hrest := ih fun y hy => h y (List.mem_cons_of_mem _ hy)
    obtain ⟨m, i⟩ := x
    rw [exitWorkers]
    split_ifs with htype
    · exact hrest
    · rw [(h (m, i) List.mem_cons_self).resolve_left htype]
      exact hrest

end Skip

section Calls

variable {mods : List (HixoModule ε σ)} {init : ℕ → ℤ} {type : ModuleType} {s : σ} {rslt : ℤ}
  {c c₁ : Called σ}

/-- The calls of a worker whose groups `inits` were initialised and whose groups `exits` were
left. -/
structure CallsOf (mods : List (HixoModule ε σ)) (init : ℕ → ℤ) (inits exits : List ModuleType)
    (calls : List ModuleCall) : Prop where
  initWorker : ∀ i rslt, .initWorker i rslt ∈ calls ↔ ∃ m, mods[i]? = some m ∧
    m.initWorker.isSome = true ∧ m.type ∈ inits ∧ rslt = init i
  exitMaster : ∀ i, .exitMaster i ∈ calls ↔ ∃ m, mods[i]? = some m ∧
    m.exitMaster.isSome = true ∧ m.type ∈ exits
  exitWorker : ∀ i, .exitWorker i ∉ calls

theorem callsOf_nil (mods : List (HixoModule ε σ)) (init : ℕ → ℤ) : CallsOf mods init [] [] [] :=
  ⟨by simp, by simp, by simp⟩

theorem CallsOf.initWorkers {inits : List ModuleType} (h : CallsOf mods init inits [] c.calls)
    (hinit : InitReturns mods init)
    (hrun : initWorkers type mods.zipIdx hixoOk c = .ok (rslt, c₁)) :
    CallsOf mods init (type :: inits) [] c₁.calls ∧
      (rslt = hixoError ↔ ¬LastOk mods init type) := by
  obtain ⟨hrslt, hcalls⟩ := initWorkers_spec hinit (List.Subset.refl _) hrun
  refine ⟨⟨fun i r => ?_, fun i => ?_, fun i hi => ?_⟩, ?_⟩
  · -- an initialisation belongs to an earlier type or to the one that was just run
    rw [hcalls, h.initWorker]
    constructor
    · rintro (⟨m, hm, hsome, htype, rfl⟩ | ⟨m, j, hmem, rfl, hsome, heq⟩)
      · exact ⟨m, hm, hsome, List.mem_cons_of_mem _ htype, rfl⟩
      · obtain ⟨rfl, rfl⟩ := ModuleCall.initWorker.inj heq
        exact ⟨m, List.mk_mem_zipIdx_iff_getElem?.mp hmem, hsome, List.mem_cons_self, rfl⟩
    · rintro ⟨m, hm, hsome, htype, rfl⟩
      rcases List.mem_cons.mp htype with htype | htype
      · exact Or.inr ⟨m, i, List.mk_mem_zipIdx_iff_getElem?.mpr hm, htype, hsome, rfl⟩
      · exact Or.inl ⟨m, hm, hsome, htype, rfl⟩
  · rw [hcalls, h.exitMaster]
    simp
  · rcases (hcalls _).mp hi with hi | ⟨m, j, -, -, -, heq⟩
    · exact h.exitWorker i hi
    · cases heq
  · rw [hrslt, LastOk, not_not]
    -- without a module of the type the loop returns the `HIXO_OK` it began with
    cases lastInit mods.zipIdx type with
    | none => simp [hixoOk, hixoError]
    | some j => simp

theorem CallsOf.runloops {inits : List ModuleType} (h : CallsOf mods init inits [] c.calls)
    {rslt₀ : ℤ} (hrun : runloops mods.zipIdx rslt₀ c = .ok (rslt, c₁)) :
    CallsOf mods init inits [] c₁.calls := by
  have hcalls := runloops_spec hrun
  refine ⟨fun i r => ?_, fun i => ?_, fun i hi => ?_⟩
  · rw [hcalls _ (by simp)]
    exact h.initWorker i r
  · rw [hcalls _ (by simp)]
    exact h.exitMaster i
  · exact h.exitWorker i ((hcalls _ (by simp)).mp hi)

theorem CallsOf.exitWorkers {inits exits : List ModuleType}
    (h : CallsOf mods init inits exits c.calls)
    (hrun : exitWorkers type mods.zipIdx c = .ok c₁) :
    CallsOf mods init inits (type :: exits) c₁.calls := by
  have hcalls := exitWorkers_spec hrun
  refine ⟨fun i r => ?_, fun i => ?_, fun i hi => ?_⟩
  · rw [hcalls, h.initWorker]
    simp
  · -- the calls of this loop add the type to the exits and nothing to the initialisations
    rw [hcalls, h.exitMaster]
    constructor
    · rintro (⟨m, hm, hsome, htype⟩ | ⟨m, j, hmem, rfl, hsome, heq⟩)
      · exact ⟨m, hm, hsome, List.mem_cons_of_mem _ htype⟩
      · obtain rfl := ModuleCall.exitMaster.inj heq
        exact ⟨m, List.mk_mem_zipIdx_iff_getElem?.mp hmem, hsome, List.mem_cons_self⟩
    · rintro ⟨m, hm, hsome, htype⟩
      rcases List.mem_cons.mp htype with htype | htype
      · exact Or.inr ⟨m, i, List.mk_mem_zipIdx_iff_getElem?.mpr hm, htype, hsome, rfl⟩
      · exact Or.inl ⟨m, hm, hsome, htype⟩
  · rcases (hcalls _).mp hi with hi | ⟨m, j, -, -, -, heq⟩
    · exact h.exitWorker i hi
    · cases heq

/-- What `worker_main_core` calls: the `init_worker` callbacks of the types that are reached, and
the `exit_master` callbacks of those whose initialisation went through. -/
theorem workerMainCore_calls (hinit : InitReturns mods init)
    (hrun : workerMainCore mods s = .ok (rslt, c)) :
    (∀ i r, .initWorker i r ∈ c.calls ↔ ∃ m, mods[i]? = some m ∧ m.initWorker.isSome = true ∧
      Reached mods init m.type ∧ r = init i) ∧
    (∀ i, .exitMaster i ∈ c.calls ↔ ∃ m, mods[i]? = some m ∧ m.exitMaster.isSome = true ∧
      Reached mods init m.type ∧ LastOk mods init m.type) ∧
    ∀ i, .exitWorker i ∉ c.calls := by
  -- the groups that are initialised and left are those of the statement
  have hresult {inits exits : List ModuleType} (h : CallsOf mods init inits exits c.calls)
      (hinits : ∀ t, t ∈ inits ↔ Reached mods init t)
      (hexits : ∀ t, t ∈ exits ↔ Reached mods init t ∧ LastOk mods init t) :
      (∀ i r, .initWorker i r ∈ c.calls ↔ ∃ m, mods[i]? = some m ∧ m.initWorker.isSome = true ∧
        Reached mods init m.type ∧ r = init i) ∧
      (∀ i, .exitMaster i ∈ c.calls ↔ ∃ m, mods[i]? = some m ∧ m.exitMaster.isSome = true ∧
        Reached mods init m.type ∧ LastOk mods init m.type) ∧
      ∀ i, .exitWorker i ∉ c.calls := by
    refine ⟨fun i r => ?_, fun i => ?_, h.exitWorker⟩
    · simp only [h.initWorker, hinits]
    · simp only [h.exitMaster, hexits]
  obtain ⟨⟨rslt₁, c₁⟩, hcore, hrun⟩ := exists_of_bind_eq_ok hrun
  obtain ⟨h₁, hcoreOk⟩ := (callsOf_nil mods init).initWorkers hinit hcore
  dsimp only at hrun
  split_ifs at hrun with hstop₁
  · obtain ⟨-, rfl⟩ := Prod.mk.inj (Except.ok.inj hrun)
    have hno := hcoreOk.mp hstop₁
    exact hresult h₁ (fun t => by cases t <;> simp [Reached, hno])
      fun t => by cases t <;> simp [Reached, hno]
  have hcore' : LastOk mods init .core := by
    by_contra hno
    exact hstop₁ (hcoreOk.mpr hno)
  obtain ⟨⟨rslt₂, c₂⟩, hevent, hrun⟩ := exists_of_bind_eq_ok hrun
  obtain ⟨h₂, heventOk⟩ := h₁.initWorkers hinit hevent
  dsimp only at hrun
  split_ifs at hrun with hstop₂
  · obtain ⟨c₃, hexit, hrun⟩ := exists_of_bind_eq_ok hrun
    obtain ⟨-, rfl⟩ := Prod.mk.inj (Except.ok.inj hrun)
    have hno := heventOk.mp hstop₂
    exact hresult (h₂.exitWorkers hexit)
      (fun t => by cases t <;> simp [Reached, hcore', hno])
      fun t => by cases t <;> simp [Reached, hcore', hno]
  have hevent' : LastOk mods init .event := by
    by_contra hno
    exact hstop₂ (heventOk.mpr hno)
  obtain ⟨⟨rslt₃, c₃⟩, happ, hrun⟩ := exists_of_bind_eq_ok hrun
  obtain ⟨h₃, happOk⟩ := h₂.initWorkers hinit happ
  dsimp only at hrun
  split_ifs at hrun with hstop₃
  · obtain ⟨c₄, hexit₄, hrun⟩ := exists_of_bind_eq_ok hrun
    obtain ⟨c₅, hexit₅, hrun⟩ := exists_of_bind_eq_ok hrun
    obtain ⟨-, rfl⟩ := Prod.mk.inj (Except.ok.inj hrun)
    have hno := happOk.mp hstop₃
    exact hresult ((h₃.exitWorkers hexit₄).exitWorkers hexit₅)
      (fun t => by cases t <;> simp [Reached, hcore', hevent'])
      fun t => by cases t <;> simp [Reached, hcore', hevent', hno]
  have happ' : LastOk mods init .app := by
    by_contra hno
    exact hstop₃ (happOk.mpr hno)
  obtain ⟨⟨rslt₄, c₄⟩, hloops, hrun⟩ := exists_of_bind_eq_ok hrun
  obtain ⟨c₅, hexit₅, hrun⟩ := exists_of_bind_eq_ok hrun
  obtain ⟨c₆, hexit₆, hrun⟩ := exists_of_bind_eq_ok hrun
  obtain ⟨c₇, hexit₇, hrun⟩ := exists_of_bind_eq_ok hrun
  obtain ⟨-, rfl⟩ := Prod.mk.inj (Except.ok.inj hrun)
  have h₄ := h₃.runloops hloops
  exact hresult (((h₄.exitWorkers hexit₅).exitWorkers hexit₆).exitWorkers hexit₇)
    (fun t => by cases t <;> simp [Reached, hcore', hevent'])
    fun t => by cases t <;> simp [Reached, hcore', hevent', happ']

/-- A call that got to the run loops and returned has run all three groups of exits. -/
theorem EntersRunLoop.exits (h : EntersRunLoop mods s c₁)
    (hrun : workerMainCore mods s = .ok (rslt, c)) :
    ∃ rslt₃ c₂ c₃ c₄, rslt₃ ≠ hixoError ∧ runloops mods.zipIdx rslt₃ c₁ = .ok (rslt, c₂) ∧
      exitWorkers .app mods.zipIdx c₂ = .ok c₃ ∧ exitWorkers .event mods.zipIdx c₃ = .ok c₄ ∧
      exitWorkers .core mods.zipIdx c₄ = .ok c := by
  obtain ⟨rslt₁, d₁, rslt₂, d₂, rslt₃, hcore, hok₁, hevent, hok₂, happ, hok₃⟩ := h
  simp only [workerMainCore, hcore, hevent, happ, hok₁, hok₂, hok₃, bind, Except.bind, if_false]
    at hrun
  obtain ⟨⟨rslt₄, d₄⟩, hloops, hrun⟩ := exists_of_bind_eq_ok hrun
  obtain ⟨d₅, hexit₅, hrun⟩ := exists_of_bind_eq_ok hrun
  obtain ⟨d₆, hexit₆, hrun⟩ := exists_of_bind_eq_ok hrun
  obtain ⟨d₇, hexit₇, hrun⟩ := exists_of_bind_eq_ok hrun
  obtain ⟨rfl, rfl⟩ := Prod.mk.inj (Except.ok.inj hrun)
  exact ⟨rslt₃, d₄, d₅, d₆, hok₃, hloops, hexit₅, hexit₆, hexit₇⟩

/-! ## What a worker owes to its modules -/

/-- An `init_worker` callback was called and did not return `HIXO_ERROR`. -/
def Initialised (calls : List ModuleCall) (i : ℕ) : Prop :=
  ∃ rslt, rslt ≠ hixoError ∧ .initWorker i rslt ∈ calls

/-- The order of the teardown. -/
def ModuleType.rank : ModuleType → ℕ
  | .app => 0
  | .event => 1
  | .core => 2

/-- What `worker_main_core` owes to the modules when it returns. -/
structure TornDown (mods : List (HixoModule ε σ)) (calls : List ModuleCall) : Prop where
  /-- Each module that was initialised is left exactly once. -/
  once : ∀ i m, mods[i]? = some m → m.exitWorker.isSome = true → Initialised calls i →
    calls.count (.exitWorker i) = 1
  /-- APP modules are left before EVENT modules before CORE modules. -/
  order : calls.Pairwise fun a b => ∀ i j m n, a = .exitWorker i → b = .exitWorker j →
    mods[i]? = some m → mods[j]? = some n → m.type.rank ≤ n.type.rank
  /-- No other module is left. -/
  only : ∀ i, .exitWorker i ∈ calls → Initialised calls i
  /-- No `exit_master` is called. -/
  noMaster : ∀ i, .exitMaster i ∉ calls

/-- No module that gets initialised has an `exit_worker`, and no module whose type is initialised
to the end has an `exit_master`. -/
def NothingToExit (mods : List (HixoModule ε σ)) (init : ℕ → ℤ) : Prop :=
  ∀ i m, mods[i]? = some m → Reached mods init m.type →
    (m.initWorker.isSome = true → init i ≠ hixoError → m.exitWorker.isSome = false) ∧
      (LastOk mods init m.type → m.exitMaster.isSome = false)

/-- `worker_main_core` leaves its modules properly if and only if there is nothing to do. -/
theorem tornDown_iff (hinit : InitReturns mods init)
    (hrun : workerMainCore mods s = .ok (rslt, c)) :
    TornDown mods c.calls ↔ NothingToExit mods init := by
  obtain ⟨hinits, hmasters, hworkers⟩ := workerMainCore_calls hinit hrun
  constructor
  · intro h i m hm hreached
    constructor
    · -- a module that succeeded would be exited once, but no `exit_worker` is ever called
      intro hsome hok
      rw [Bool.eq_false_iff]
      intro hexit
      have hcount := h.once i m hm hexit
        ⟨init i, hok, (hinits i (init i)).mpr ⟨m, hm, hsome, hreached, rfl⟩⟩
      rw [List.count_eq_zero_of_not_mem (hworkers i)] at hcount
      cases hcount
    · intro hok
      rw [Bool.eq_false_iff]
      intro hexit
      exact h.noMaster i ((hmasters i).mpr ⟨m, hm, hexit, hreached, hok⟩)
  · -- and when there is nothing to exit all that is asked for is asked of no module
    intro h
    refine ⟨fun i m hm hexit ⟨r, hr, hmem⟩ => ?_, ?_, fun i hi => absurd hi (hworkers i),
      fun i hi => ?_⟩
    · obtain ⟨m', hm', hsome, hreached, rfl⟩ := (hinits i r).mp hmem
      obtain rfl : m = m' := Option.some.inj (hm.symm.trans hm')
      rw [(h i m hm hreached).1 hsome hr] at hexit
      cases hexit
    · refine List.pairwise_of_forall_mem_list fun a ha b hb i j m n heq => ?_
      exact absurd (heq ▸ ha) (hworkers i)
    · obtain ⟨m, hm, hsome, hreached, hok⟩ := (hmasters i).mp hi
      rw [(h i m hm hreached).2 hok] at hsome
      cases hsome

end Calls

/-! ## A sample -/

/-- The callbacks of `gap_modules`, where all of them succeed and the run loop ends at once. -/
def idleModules : List (HixoModule Empty Unit) :=
  [{ type := .core, exitMaster := some .ok },
    { type := .core, initWorker := some fun s => .ok (hixoOk, s), exitWorker := some .ok,
      exitMaster := some .ok, runloop := some fun s => .ok (hixoError, s) },
    { type := .event, initWorker := some fun s => .ok (hixoOk, s), exitWorker := some .ok },
    { type := .app, initWorker := some fun s => .ok (hixoOk, s) },
    { type := .app, initWorker := some fun s => .ok (hixoOk, s) }]

/-- For this table `worker_main_core` calls both `init_worker` functions, and no run loop. -/
theorem workerMainCore_idleModules : workerMainCore idleModules () =
    .ok (hixoError, { state := (), calls := [.initWorker 1 hixoOk, .initWorker 2 hixoOk,
      .initWorker 3 hixoOk, .initWorker 4 hixoOk, .runloop 1 hixoError, .exitMaster 0,
      .exitMaster 1] }) :=
  rfl

theorem idleModules_initReturns : InitReturns idleModules fun _ => hixoOk := by
  intro i m f hm hf s rslt s' hcall
  match i with
  | 0 =>
    obtain rfl := Option.some.inj hm
    cases hf
  | 1 | 2 | 3 | 4 =>
    obtain rfl := Option.some.inj hm
    obtain rfl := Option.some.inj hf
    exact (Prod.mk.inj (Except.ok.inj hcall)).1.symm
  | i + 5 => cases hm

theorem tornDown_iff_sample :
    TornDown idleModules [.initWorker 1 hixoOk, .initWorker 2 hixoOk, .initWorker 3 hixoOk,
        .initWorker 4 hixoOk, .runloop 1 hixoError, .exitMaster 0, .exitMaster 1] ↔
      NothingToExit idleModules fun _ => hixoOk :=
  tornDown_iff idleModules_initReturns workerMainCore_idleModules

/-- The worker is not left by its EVENT and CORE modules; it runs the exits of the master
instead. -/
theorem not_tornDown_idleModules : ∃ rslt c, workerMainCore idleModules () = .ok (rslt, c) ∧
    ¬TornDown idleModules c.calls :=
  ⟨_, _, workerMainCore_idleModules, fun h => h.noMaster 0 (by decide)⟩

end Hixo
