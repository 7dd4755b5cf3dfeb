import Hixo.Process.Fork
import Hixo.Process.Modules

/-!
# The start of the server

`hixo_main` over any table of modules: it calls the `init_master` callbacks of the CORE modules,
forks the workers, and on the way out calls the `exit_master` callbacks of the CORE modules that
come before the loop index.

* `MasterModule`, `MasterEvent`, `MasterProcess`: the modules, and the memory of a process with the
  record of what was called in it;
* `initMasters`, `exitMasters`, `fallIntoDaemon`, `hixoMain`: the code; the result is the list of
  the processes that come out of the call;
* `coreExits`, `Unwinds`: what is owed after a failed start;
* `mem_hixoMain`: which processes come out when no `init_master` failed;
* `unwinds_iff`: when it is done.
-/

namespace Hixo

open Programs

/-- `hixo_module_t` as the master sees it. -/
structure MasterModule (ε σ : Type) extends HixoModule ε σ where
  /-- `mpf_init_master` -/
  initMaster : Option (σ → Except ε (ℤ × σ)) := none

/-- A call of a callback of module `i`. -/
inductive MasterEvent
  | initMaster (i : ℕ) (rslt : ℤ)
  | exitMaster (i : ℕ)
  deriving DecidableEq, Repr

/-- The memory of a process, and the callbacks that were called in it. -/
structure MasterProcess (σ : Type) where
  /-- What the callbacks work on. -/
  state : σ
  globals : Globals := {}
  events : List MasterEvent := []

/-- What `hixo_main` finds outside. -/
structure MasterEnv (ε σ : Type) where
  /-- `m_daemon` -/
  daemon : Bool
  /-- `m_worker_processes` -/
  workerProcesses : ℤ
  /-- `m_max_connections` -/
  maxConnections : ℤ
  /-- `M_NCPUS` -/
  ncpus : ℤ
  /-- The first `fork` of `fall_into_daemon`. -/
  daemonFork₁ : Option ℕ+
  /-- The second one. -/
  daemonFork₂ : Option ℕ+
  /-- The calls of `fork` in `hixo_spawn_workers`. -/
  forks : ℕ → Option ℕ+
  /-- `master_main()` -/
  masterMain : σ → Except ε (ℤ × σ)
  /-- `worker_main(cpu_id)` -/
  workerMain : ℤ → σ → Except ε (ℤ × σ)

/-- How a process comes out of `hixo_main`. -/
inductive Ending (ε : Type)
  /-- `hixo_main` returns. -/
  | returned (rslt : ℤ)
  /-- `exit(code)` -/
  | exited (code : ℤ)
  /-- A callback, `master_main` or `worker_main` does not return. -/
  | stopped (e : ε)
  /-- `hixo_spawn_workers` breaks off. -/
  | faulted (f : ProcessFault)
  /-- An assertion fails. -/
  | aborted

variable {ε σ : Type}

/-! ## `hixo_main` -/

/-- What `fork()` returns: in the parent and in the child, or in the one process when it fails. -/
def forkResults : Option ℕ+ → List ℤ
  | none => [-1]
  | some pid => [(pid : ℕ), 0]

namespace MasterProcess

/-- `fork()` returns `rslt` in the process. -/
def afterFork (p : MasterProcess σ) (rslt : ℤ) : MasterProcess σ :=
  { p with globals := p.globals.afterFork rslt }

/-- The modules whose `exit_master` was called, in this order. -/
def exits (p : MasterProcess σ) : List ℕ :=
  p.events.filterMap fun
    | .exitMaster i => some i
    | .initMaster _ _ => none

end MasterProcess

/-- The loop of `hixo_main` over the modules that are left, the first of which is module `i`: the
values of `rslt` and `i` after it. -/
def initMasters : List (MasterModule ε σ) → ℕ → ℤ → MasterProcess σ →
    Except ε (ℤ × ℕ × MasterProcess σ)
  | [], i, rslt, p => .ok (rslt, i, p)
  | m :: ms, i, rslt, p =>
    if ModuleType.core ≠ m.type then initMasters ms (i + 1) rslt p
    else
      match m.initMaster with
      | none => initMasters ms (i + 1) rslt p
      | some f => do
        let (rslt, state) ← f p.state
        let p := { p with state, events := p.events ++ [.initMaster i rslt] }
        if rslt = hixoError then .ok (rslt, i, p) else initMasters ms (i + 1) rslt p

/-- The loop at `EXIT`, from the value `i` of the loop index on. -/
def exitMasters (mods : List (MasterModule ε σ)) : ℕ → MasterProcess σ →
    Except ε (MasterProcess σ)
  | 0, p => .ok p
  | i + 1, p =>
    match mods[i]? with
    | none => exitMasters mods i p
    | some m =>
      if ModuleType.core ≠ m.type then exitMasters mods i p
      else
        match m.exitMaster with
        | none => exitMasters mods i p
        | some f => do
          let state ← f p.state
          exitMasters mods i { p with state, events := p.events ++ [.exitMaster i] }

/-- `EXIT`, with the value of `rslt`. -/
def leaveMain (mods : List (MasterModule ε σ)) (rslt : ℤ) (i : ℕ) (p : MasterProcess σ) :
    Ending ε × MasterProcess σ :=
  match exitMasters mods i p with
  | .error e => (.stopped e, p)
  | .ok p => (.returned rslt, p)

/-- `fall_into_daemon()`: the processes, with whether they go on. -/
def fallIntoDaemon (fork₁ fork₂ : Option ℕ+) (p : MasterProcess σ) :
    List (Bool × MasterProcess σ) :=
  (forkResults fork₁).flatMap fun rslt₁ =>
    if rslt₁ ≠ 0 then [(false, p.afterFork rslt₁)]
    else
      (forkResults fork₂).map fun rslt₂ => (rslt₂ = 0, (p.afterFork rslt₁).afterFork rslt₂)

/-- A process in which `hixo_spawn_workers` returned `cpid`; `rslt` and `i` are the variables of
`hixo_main`. -/
def afterSpawn (env : MasterEnv ε σ) (mods : List (MasterModule ε σ)) (rslt : ℤ) (i : ℕ)
    (cpid : ℤ) (p : MasterProcess σ) : Ending ε × MasterProcess σ :=
  if cpid = -1 then leaveMain mods rslt i p
  else if cpid = 0 then
    if p.globals.psInfo ≠ none then (.aborted, p)
    else
      match env.masterMain p.state with
      | .error e => (.stopped e, p)
      | .ok (rslt, state) => leaveMain mods rslt i { p with state }
  else
    match p.globals.psInfo with
    | none => (.aborted, p)
    | some k =>
      let power := env.maxConnections - env.maxConnections.tdiv 8
      let p := { p with globals := { p.globals with
        pssInfo := Function.update p.globals.pssInfo k { p.globals.pssInfo k with power } } }
      match env.workerMain (p.globals.pssInfo k).cpuid p.state with
      | .error e => (.stopped e, p)
      | .ok (rslt, state) => leaveMain mods rslt i { p with state }

/-- `hixo_main` after the initialisation, in a process that goes on: the processes that come out
of it. -/
def spawnPhase (env : MasterEnv ε σ) (mods : List (MasterModule ε σ)) (rslt : ℤ) (i : ℕ)
    (p : MasterProcess σ) : List (Ending ε × MasterProcess σ) :=
  if (Spawn.hixoMaxPss : ℤ) ≤ env.workerProcesses then [(.aborted, p)]
  else
    (hixoSpawnWorkers env.forks env.ncpus env.workerProcesses p.globals).map fun
      | .error f => (.faulted f, p)
      | .ok (cpid, globals) => afterSpawn env mods rslt i cpid { p with globals }

/-- `hixo_main()` in a process with the state `s`: the processes that come out of it. -/
def hixoMain (env : MasterEnv ε σ) (mods : List (MasterModule ε σ)) (s : σ) :
    List (Ending ε × MasterProcess σ) :=
  match initMasters mods 0 hixoOk { state := s } with
  | .error e => [(.stopped e, { state := s })]
  | .ok (rslt, i, p) =>
    if rslt = hixoError then [leaveMain mods rslt i p]
    else
      (if env.daemon then fallIntoDaemon env.daemonFork₁ env.daemonFork₂ p
        else [(true, p)]).flatMap fun
          | (false, p) => [(.exited 0, p)]
          | (true, p) => spawnPhase env mods rslt i p

/-! ## What is owed after a failed start -/

/-- The start failed in the process: an `init_master` returned `HIXO_ERROR`, or a `fork`
failed. -/
def StartFails (p : MasterProcess σ) : Prop :=
  (∃ i, .initMaster i hixoError ∈ p.events) ∨ -1 ∈ p.globals.forked

/-- Module `i` is a CORE module with an `exit_master`. -/
def hasCoreExit (mods : List (MasterModule ε σ)) (i : ℕ) : Bool :=
  match mods[i]? with
  | some m => m.type = .core && m.exitMaster.isSome
  | none => false

/-- The CORE modules with an `exit_master` that come before module `n`, the last one first. -/
def coreExits (mods : List (MasterModule ε σ)) (n : ℕ) : List ℕ :=
  ((List.range n).filter (hasCoreExit mods)).reverse

/-- How a process whose start failed comes out of `hixo_main`. -/
structure Unwinds (mods : List (MasterModule ε σ)) (x : Ending ε × MasterProcess σ) : Prop where
  result : x.1 = .returned hixoError
  /-- After a failing `init_master`: the modules before it. -/
  initMaster : ∀ i, .initMaster i hixoError ∈ x.2.events → x.2.exits = coreExits mods i
  /-- After a failing `fork`: all of them. -/
  fork : -1 ∈ x.2.globals.forked → x.2.exits = coreExits mods mods.length

/-- The `init_master` callbacks return, that of module `i` with `init i`, and the `exit_master`
callbacks do. -/
structure MastersReturn (mods : List (MasterModule ε σ)) (init : ℕ → ℤ) : Prop where
  initMaster : ∀ (i : ℕ) (m : MasterModule ε σ) (f : σ → Except ε (ℤ × σ)), mods[i]? = some m →
    m.initMaster = some f → ∀ s, ∃ s', f s = .ok (init i, s')
  exitMaster : ∀ (i : ℕ) (m : MasterModule ε σ) (f : σ → Except ε σ), mods[i]? = some m →
    m.exitMaster = some f → ∀ s, ∃ s', f s = .ok s'

/-- The `init_master` of a CORE module returns `HIXO_ERROR`. -/
def InitMasterFails (mods : List (MasterModule ε σ)) (init : ℕ → ℤ) : Prop :=
  ∃ i m, mods[i]? = some m ∧ m.type = .core ∧ m.initMaster.isSome = true ∧ init i = hixoError

/-- A `fork` fails, of those that `hixo_main` calls after the initialisation. -/
def ForkFails (env : MasterEnv ε σ) : Prop :=
  (env.daemon = true ∧ (env.daemonFork₁ = none ∨ env.daemonFork₂ = none)) ∨
    (env.workerProcesses < Spawn.hixoMaxPss ∧
      ∃ k : ℕ, k < env.workerProcesses ∧ env.forks k = none)

section Unwind

variable {mods : List (MasterModule ε σ)} {init : ℕ → ℤ} {i : ℕ} {rslt : ℤ}
  {p p' : MasterProcess σ} {env : MasterEnv ε σ}

/-- The exits add to the record what is owed, and start no module. -/
theorem exitMasters_spec (hrun : exitMasters mods i p = .ok p') :
    p'.globals = p.globals ∧ p'.exits = p.exits ++ coreExits mods i ∧
      ∀ j r, .initMaster j r ∈ p'.events ↔ .initMaster j r ∈ p.events := by
  induction i generalizing p with
  | zero =>
    obtain rfl := Except.ok.inj hrun
    exact ⟨rfl, by simp [coreExits], fun _ _ => Iff.rfl⟩
  | succ i ih =>
    have hsucc : coreExits mods (i + 1) =
        (if hasCoreExit mods i then [i] else []) ++ coreExits mods i := by
      rw [coreExits, List.range_succ, List.filter_append, List.reverse_append, coreExits]
      cases hhas : hasCoreExit mods i <;> simp [hhas]
    -- a module that is skipped
    have hskip (hno : hasCoreExit mods i = false) (hrun : exitMasters mods i p = .ok p') :
        p'.globals = p.globals ∧ p'.exits = p.exits ++ coreExits mods (i + 1) ∧
          ∀ j r, .initMaster j r ∈ p'.events ↔ .initMaster j r ∈ p.events := by
      rw [hsucc, hno]
      exact ih hrun
    rw [exitMasters] at hrun
    cases hm : mods[i]? with
    | none =>
      rw [hm] at hrun
      exact hskip (by simp [hasCoreExit, hm]) hrun
    | some m =>
      rw [hm] at hrun
      dsimp only at hrun
      split_ifs at hrun with htype
      · exact hskip (by simp [hasCoreExit, hm, Ne.symm htype]) hrun
      · cases hcallback : m.exitMaster with
        | none =>
          rw [hcallback] at hrun
          exact hskip (by simp [hasCoreExit, hm, hcallback]) hrun
        | some f =>
          rw [hcallback] at hrun
          obtain ⟨s', -, hrest⟩ := exists_of_bind_eq_ok hrun
          obtain ⟨hglobals, hexits, hevents⟩ := ih hrest
          have hhas : hasCoreExit mods i = true := by
            simp [hasCoreExit, hm, hcallback, ← not_not.mp htype]
          refine ⟨hglobals, ?_, fun j r => (hevents j r).trans (by simp)⟩
          rw [hexits, hsucc, hhas]
          simp [MasterProcess.exits]

/-- When all callbacks return, the exits get to their end. -/
theorem MastersReturn.exitMasters (h : MastersReturn mods init) (i : ℕ) (p : MasterProcess σ) :
    ∃ p', exitMasters mods i p = .ok p' := by
  induction i generalizing p with
  | zero => exact ⟨p, rfl⟩
  | succ i ih =>
    -- module `i` is the last of those still to visit
    rw [Hixo.exitMasters]
    cases hm : mods[i]? with
    | none => exact ih p
    | some m =>
      dsimp only
      split_ifs with htype
      · exact ih p
      · cases hcallback : m.exitMaster with
        | none => exact ih p
        | some f =>
          obtain ⟨s', hcall⟩ := h.exitMaster i m f hm hcallback p.state
          dsimp only
          rw [bind_of_eq_ok hcall]
          exact ih _

/-- The initialisation ends behind the table, or at the first module that fails. -/
theorem MastersReturn.initMasters (h : MastersReturn mods init) {pre ms : List (MasterModule ε σ)}
    (hmods : mods = pre ++ ms) (hrslt : rslt ≠ hixoError)
    (hpre : ∀ j, .initMaster j hixoError ∉ p.events) :
    ∃ rslt' i' p', initMasters ms pre.length rslt p = .ok (rslt', i', p') ∧
      p'.globals = p.globals ∧ p'.exits = p.exits ∧
      ((rslt' ≠ hixoError ∧ i' = mods.length ∧ (∀ j, .initMaster j hixoError ∉ p'.events) ∧
          ∀ j m, pre.length ≤ j → mods[j]? = some m → m.type = .core →
            m.initMaster.isSome = true → init j ≠ hixoError) ∨
        (rslt' = hixoError ∧ (∀ j, .initMaster j hixoError ∈ p'.events → j = i') ∧
          InitMasterFails mods init)) := by
  induction ms generalizing pre rslt p with
  | nil =>
    refine ⟨rslt, pre.length, p, rfl, rfl, rfl, Or.inl ⟨hrslt, by simp [hmods], hpre, ?_⟩⟩
    intro j m hj hm
    rw [List.getElem?_eq_none (by simp [hmods]; omega)] at hm
    cases hm
  | cons m ms ih =>
    have hm : mods[pre.length]? = some m := by simp [hmods]
    have hmods' : mods = (pre ++ [m]) ++ ms := by simp [hmods]
    have hlen : (pre ++ [m]).length = pre.length + 1 := List.length_append
    -- the module at hand does not fail
    have hgo {rslt₁ : ℤ} {p₁ : MasterProcess σ} (hrslt₁ : rslt₁ ≠ hixoError)
        (hpre₁ : ∀ j, .initMaster j hixoError ∉ p₁.events) (hglobals : p₁.globals = p.globals)
        (hexits : p₁.exits = p.exits)
        (hok : m.type = .core → m.initMaster.isSome = true → init pre.length ≠ hixoError) :
        ∃ rslt' i' p', Hixo.initMasters ms (pre.length + 1) rslt₁ p₁ = .ok (rslt', i', p') ∧
          p'.globals = p.globals ∧ p'.exits = p.exits ∧
          ((rslt' ≠ hixoError ∧ i' = mods.length ∧
              (∀ j, .initMaster j hixoError ∉ p'.events) ∧
              ∀ j m, pre.length ≤ j → mods[j]? = some m → m.type = .core →
                m.initMaster.isSome = true → init j ≠ hixoError) ∨
            (rslt' = hixoError ∧ (∀ j, .initMaster j hixoError ∈ p'.events → j = i') ∧
              InitMasterFails mods init)) := by
      obtain ⟨rslt', i', p', hrun, hglobals', hexits', hcases⟩ := ih hmods' hrslt₁ hpre₁
      refine ⟨rslt', i', p', hlen ▸ hrun, hglobals'.trans hglobals, hexits'.trans hexits, ?_⟩
      refine hcases.imp_left fun ⟨hne, hi, hnone, hall⟩ => ⟨hne, hi, hnone, ?_⟩
      intro j m' hj hm' htype hsome
      rcases Nat.eq_or_lt_of_le hj with rfl | hlt
      · obtain rfl : m = m' := Option.some.inj (hm.symm.trans hm')
        exact hok htype hsome
      · exact hall j m' (by rw [hlen]; exact hlt) hm' htype hsome
    rw [Hixo.initMasters]
    split_ifs with htype
    · exact hgo hrslt hpre rfl rfl fun heq => absurd heq.symm htype
    · cases hcallback : m.initMaster with
      | none => exact hgo hrslt hpre rfl rfl fun _ hsome => by simp [hcallback] at hsome
      | some f =>
        obtain ⟨s', hcall⟩ := h.initMaster pre.length m f hm hcallback p.state
        dsimp only
        rw [bind_of_eq_ok hcall]
        dsimp only
        have hexits (r : ℤ) : MasterProcess.exits
            { p with state := s', events := p.events ++ [.initMaster pre.length r] } =
            p.exits := by
          simp [MasterProcess.exits]
        split_ifs with hstop
        · refine ⟨_, _, _, rfl, rfl, hexits _, Or.inr ⟨hstop, fun j hj => ?_, pre.length, m, hm,
            (not_not.mp htype).symm, by simp [hcallback], hstop⟩⟩
          rcases List.mem_append.mp hj with hj | hj
          · exact absurd hj (hpre j)
          · exact (MasterEvent.initMaster.inj (List.mem_singleton.mp hj)).1
        · refine hgo hstop (fun j hj => ?_) rfl (hexits _) fun _ _ => hstop
          rcases List.mem_append.mp hj with hj | hj
          · exact hpre j hj
          · exact hstop (MasterEvent.initMaster.inj (List.mem_singleton.mp hj)).2.symm

/-! ## Where a start fails -/

/-- Leaving `hixo_main` makes no start fail. -/
theorem not_startFails_leaveMain (hp : ¬StartFails p) :
    ¬StartFails (leaveMain mods rslt i p).2 := by
  rw [leaveMain]
  cases hexit : exitMasters mods i p with
  | error e => exact hp
  | ok p' =>
    obtain ⟨hglobals, -, hevents⟩ := exitMasters_spec hexit
    simpa only [StartFails, hglobals, hevents] using hp

/-- The functions that `hixo_main` calls after the workers are spawned make no start fail. -/
theorem not_startFails_afterSpawn {cpid : ℤ} (hp : ¬StartFails p) :
    ¬StartFails (afterSpawn env mods rslt i cpid p).2 := by
  -- a failed start is recorded in the events and the globals, which `master_main` does not touch
  have hstate (state : σ) : ¬StartFails { p with state } := hp
  rw [afterSpawn]
  split_ifs
  · exact not_startFails_leaveMain hp
  · exact hp
  · cases env.masterMain p.state with
    | error e => exact hp
    | ok r => exact not_startFails_leaveMain (hstate r.2)
  · -- a parent goes on as the worker whose slot it kept
    cases p.globals.psInfo with
    | none => exact hp
    | some k =>
      dsimp only
      split
      · exact hp
      · exact not_startFails_leaveMain hp

/-- When no `fork` fails, the phase in which workers are spawned makes no start fail. -/
theorem not_startFails_spawnPhase (hno : ¬ForkFails env) (hp : ¬StartFails p)
    {x : Ending ε × MasterProcess σ} (hx : x ∈ spawnPhase env mods rslt i p) :
    ¬StartFails x.2 := by
  rw [spawnPhase] at hx
  split_ifs at hx with hmax
  · rw [List.mem_singleton.mp hx]
    exact hp
  · obtain ⟨r, hr, rfl⟩ := List.mem_map.mp hx
    cases r with
    | error f => exact hp
    | ok r =>
      obtain ⟨cpid, globals⟩ := r
      refine not_startFails_afterSpawn fun hfails => ?_
      -- -1 among the results of `fork` comes either from before the loop or from the fork of a
      -- worker
      rcases hfails with hinit | hforked
      · exact hp (Or.inl hinit)
      · obtain ⟨q, hq, heq⟩ := List.mem_map.mp hr
        cases q with
        | error f => cases heq
        | ok q =>
          obtain ⟨rfl, rfl⟩ := Prod.mk.inj (Except.ok.inj heq)
          have hforked' : -1 ∈ q.2.forked := by
            split at hforked <;> exact hforked
          rcases forked_of_mem_spawnLoop hq fun hmem => hp (Or.inr hmem) with
            hgood | ⟨-, k, -, hk, hnone⟩
          · exact hgood hforked'
          · exact hno (Or.inr ⟨not_le.mp hmax, k, by omega, hnone⟩)

/-- A process comes out of `fall_into_daemon` from its first `fork`, or from its second one in the
child of the first. -/
theorem mem_fallIntoDaemon {fork₁ fork₂ : Option ℕ+} {x : Bool × MasterProcess σ} :
    x ∈ fallIntoDaemon fork₁ fork₂ p ↔
      (∃ rslt₁ ∈ forkResults fork₁, rslt₁ ≠ 0 ∧ x = (false, p.afterFork rslt₁)) ∨
      (0 ∈ forkResults fork₁ ∧ ∃ rslt₂ ∈ forkResults fork₂,
        x = (decide (rslt₂ = 0), (p.afterFork 0).afterFork rslt₂)) := by
  rw [fallIntoDaemon, List.mem_flatMap]
  constructor
  · rintro ⟨rslt₁, h₁, hx⟩
    -- whoever is not the child of the first `fork` leaves there
    split_ifs at hx with hne
    · exact Or.inl ⟨rslt₁, h₁, hne, List.mem_singleton.mp hx⟩
    · obtain rfl := not_not.mp hne
      obtain ⟨rslt₂, h₂, rfl⟩ := List.mem_map.mp hx
      exact Or.inr ⟨h₁, rslt₂, h₂, rfl⟩
  · rintro (⟨rslt₁, h₁, hne, rfl⟩ | ⟨h₁, rslt₂, h₂, rfl⟩)
    · exact ⟨rslt₁, h₁, by simp [hne]⟩
    · exact ⟨0, h₁, by rw [if_neg (by simp)]; exact List.mem_map_of_mem h₂⟩

/-- `fork` returns -1 exactly when it fails. -/
theorem neg_one_mem_forkResults {fork : Option ℕ+} : -1 ∈ forkResults fork ↔ fork = none := by
  cases fork with
  | none => simp [forkResults]
  | some pid => simp [forkResults]

/-- When one of the two `fork`s of `fall_into_daemon` fails, a process that sees it exits. -/
theorem exists_exited (hfork : env.daemonFork₁ = none ∨ env.daemonFork₂ = none)
    (p : MasterProcess σ) :
    ∃ q, (false, q) ∈ fallIntoDaemon env.daemonFork₁ env.daemonFork₂ p ∧ StartFails q := by
  have hfails (q : MasterProcess σ) : StartFails (q.afterFork (-1)) :=
    Or.inr (by simp [MasterProcess.afterFork, Globals.afterFork])
  by_cases hfork₁ : env.daemonFork₁ = none
  · exact ⟨_, mem_fallIntoDaemon.mpr (Or.inl ⟨-1, neg_one_mem_forkResults.mpr hfork₁, by decide,
      rfl⟩), hfails _⟩
  · obtain ⟨pid, hpid⟩ := Option.ne_none_iff_exists'.mp hfork₁
    have hfork₂ := neg_one_mem_forkResults.mpr (hfork.resolve_left hfork₁)
    exact ⟨_, mem_fallIntoDaemon.mpr (Or.inr ⟨by simp [hpid, forkResults], -1, hfork₂, rfl⟩),
      hfails _⟩

section Daemon

variable (hdaemon : ¬(env.daemon = true ∧ (env.daemonFork₁ = none ∨ env.daemonFork₂ = none)))
include hdaemon

/-- Whatever the `fork`s of `fall_into_daemon` give, a process goes on behind it. -/
theorem exists_goesOn (p : MasterProcess σ) :
    ∃ q, (true, q) ∈ (if env.daemon then fallIntoDaemon env.daemonFork₁ env.daemonFork₂ p
      else [(true, p)]) := by
  by_cases hd : env.daemon = true
  · obtain ⟨hfork₁, hfork₂⟩ := not_or.mp (not_and.mp hdaemon hd)
    obtain ⟨pid₁, hpid₁⟩ := Option.ne_none_iff_exists'.mp hfork₁
    obtain ⟨pid₂, hpid₂⟩ := Option.ne_none_iff_exists'.mp hfork₂
    rw [if_pos hd]
    exact ⟨_, mem_fallIntoDaemon.mpr (Or.inr ⟨by simp [hpid₁, forkResults], 0,
      by simp [hpid₂, forkResults], rfl⟩)⟩
  · rw [if_neg hd]
    exact ⟨p, List.mem_singleton_self _⟩

/-- When no `fork` fails, no process comes out of `fall_into_daemon` with a failed start. -/
theorem not_startFails_daemon (hp : ¬StartFails p) {x : Bool × MasterProcess σ}
    (hx : x ∈ (if env.daemon then fallIntoDaemon env.daemonFork₁ env.daemonFork₂ p
      else [(true, p)])) : ¬StartFails x.2 := by
  -- a daemon fork that succeeds records no -1
  have hfork {q : MasterProcess σ} (hq : ¬StartFails q) {rslt : ℤ} (hrslt : rslt ≠ -1) :
      ¬StartFails (q.afterFork rslt) := by
    simpa [StartFails, MasterProcess.afterFork, Globals.afterFork, hrslt.symm] using hq
  split_ifs at hx with hd
  · obtain ⟨hfork₁, hfork₂⟩ := not_or.mp (not_and.mp hdaemon hd)
    rcases mem_fallIntoDaemon.mp hx with ⟨rslt₁, h₁, -, rfl⟩ | ⟨-, rslt₂, h₂, rfl⟩
    · refine hfork hp ?_
      rintro rfl
      exact hfork₁ (neg_one_mem_forkResults.mp h₁)
    · refine hfork (hfork hp (by decide)) ?_
      rintro rfl
      exact hfork₂ (neg_one_mem_forkResults.mp h₂)
  · rw [List.mem_singleton.mp hx]
    exact hp

end Daemon

/-- The process in which a `fork` of `hixo_spawn_workers` fails returns what the initialisation
returned. -/
theorem exists_failed_spawnPhase (mods : List (MasterModule ε σ)) (rslt : ℤ) (i : ℕ)
    (p : MasterProcess σ) (hmax : env.workerProcesses < Spawn.hixoMaxPss)
    (hfail : ∃ k : ℕ, k < env.workerProcesses ∧ env.forks k = none) :
    ∃ q, StartFails q ∧ leaveMain mods rslt i q ∈ spawnPhase env mods rslt i p := by
  obtain ⟨k, hk, hnone⟩ := hfail
  obtain ⟨g, hmem, hforked⟩ : ∃ g, .ok (-1, g) ∈ spawnLoop env.forks env.ncpus
      env.workerProcesses.toNat 0 (-1) { p.globals with mask := filledMask } ∧ -1 ∈ g.forked :=
    exists_failed_spawnLoop _ _ ⟨k, Nat.zero_le k, by omega, hnone⟩
  refine ⟨{ p with globals := g }, Or.inr hforked, ?_⟩
  rw [spawnPhase, if_neg (not_le.mpr hmax)]
  exact List.mem_map.mpr ⟨.ok (-1, g), List.mem_map.mpr ⟨_, hmem, rfl⟩, rfl⟩

/-- On the way out of `hixo_main` the exits are called, and the result is the one at hand. -/
theorem MastersReturn.leaveMain (h : MastersReturn mods init) (rslt : ℤ) (i : ℕ)
    (p : MasterProcess σ) : (leaveMain mods rslt i p).1 = .returned rslt ∧
      (leaveMain mods rslt i p).2.globals = p.globals ∧
      (leaveMain mods rslt i p).2.exits = p.exits ++ coreExits mods i ∧
      ∀ j r, .initMaster j r ∈ (leaveMain mods rslt i p).2.events ↔
        .initMaster j r ∈ p.events := by
  obtain ⟨p', hexit⟩ := h.exitMasters i p
  rw [Hixo.leaveMain, hexit]
  exact ⟨rfl, exitMasters_spec hexit⟩

section Started

variable {s : σ} (hrun : initMasters mods 0 hixoOk { state := s } = .ok (rslt, i, p))
  (hne : rslt ≠ hixoError)
include hrun hne

/-- The processes that come out of `hixo_main` when no `init_master` failed. -/
theorem mem_hixoMain {x : Ending ε × MasterProcess σ} : x ∈ hixoMain env mods s ↔
    ∃ q ∈ (if env.daemon then fallIntoDaemon env.daemonFork₁ env.daemonFork₂ p else [(true, p)]),
      (q.1 = false ∧ x = (.exited 0, q.2)) ∨ (q.1 = true ∧ x ∈ spawnPhase env mods rslt i q.2) := by
  rw [hixoMain, hrun]
  dsimp only
  rw [if_neg hne, List.mem_flatMap]
  refine exists_congr fun ⟨goesOn, q⟩ => and_congr_right fun _ => ?_
  cases goesOn <;> simp

/-- When no `fork` fails either, no process has seen the start fail. -/
theorem not_startFails_hixoMain (hp : ¬StartFails p) (hno : ¬ForkFails env)
    {x : Ending ε × MasterProcess σ} (hx : x ∈ hixoMain env mods s) : ¬StartFails x.2 := by
  obtain ⟨⟨goesOn, q⟩, hq, hx⟩ := (mem_hixoMain hrun hne).mp hx
  have hq' : ¬StartFails q := not_startFails_daemon (fun hdaemon => hno (Or.inl hdaemon)) hp hq
  rcases hx with ⟨-, rfl⟩ | ⟨-, hx⟩
  · exact hq'
  · exact not_startFails_spawnPhase hno hq' hx

/-- When a `fork` fails, the process that sees it does not return `HIXO_ERROR`. -/
theorem exists_not_unwinds (h : MastersReturn mods init) (hfork : ForkFails env) :
    ∃ x ∈ hixoMain env mods s, StartFails x.2 ∧ ¬Unwinds mods x := by
  by_cases hdaemon : env.daemon = true ∧ (env.daemonFork₁ = none ∨ env.daemonFork₂ = none)
  · -- the process exits with 0
    obtain ⟨q, hq, hfails⟩ := exists_exited hdaemon.2 p
    refine ⟨(.exited 0, q), (mem_hixoMain hrun hne).mpr ⟨(false, q), ?_, Or.inl ⟨rfl, rfl⟩⟩,
      hfails, fun hunwinds => ?_⟩
    · rwa [if_pos hdaemon.1]
    · cases hunwinds.result
  · -- the process returns what the last `init_master` returned
    obtain ⟨hmax, hfail⟩ := hfork.resolve_left hdaemon
    obtain ⟨q, hq⟩ := exists_goesOn hdaemon p
    obtain ⟨q', hfails, hmem⟩ := exists_failed_spawnPhase mods rslt i q hmax hfail
    obtain ⟨hreturned, hglobals, -, hevents⟩ := h.leaveMain rslt i q'
    refine ⟨_, (mem_hixoMain hrun hne).mpr ⟨(true, q), hq, Or.inr ⟨rfl, hmem⟩⟩, ?_,
      fun hunwinds => ?_⟩
    · simpa only [StartFails, hglobals, hevents] using hfails
    · have hresult := hunwinds.result
      rw [hreturned] at hresult
      exact hne (Ending.returned.inj hresult)

end Started

/-- After a failed start a process does what it owes if and only if it is an `init_master` that
failed and no `fork`. -/
theorem unwinds_iff (h : MastersReturn mods init) (env : MasterEnv ε σ) (s : σ) :
    (∀ x ∈ hixoMain env mods s, StartFails x.2 → Unwinds mods x) ↔
      InitMasterFails mods init ∨ ¬ForkFails env := by
  obtain ⟨rslt, i, p, hrun, hglobals, hexits, hcases⟩ := h.initMasters (List.nil_append mods).symm
    (by decide : hixoOk ≠ hixoError) (p := { state := s }) (by simp)
  rw [List.length_nil] at hrun
  rcases hcases with ⟨hne, -, hnone, hall⟩ | ⟨rfl, honly, hfails⟩
  · -- no `init_master` fails
    have hp : ¬StartFails p := by
      rintro (⟨j, hj⟩ | hforked)
      · exact hnone j hj
      · rw [hglobals] at hforked
        cases hforked
    have hinit : ¬InitMasterFails mods init := by
      rintro ⟨j, m, hm, htype, hsome, herror⟩
      exact hall j m (Nat.zero_le j) hm htype hsome herror
    rw [or_iff_right hinit]
    constructor
    · intro hunwinds hfork
      obtain ⟨x, hx, hfails, hnot⟩ := exists_not_unwinds hrun hne h hfork
      exact hnot (hunwinds x hx hfails)
    · intro hno x hx hfails
      exact absurd hfails (not_startFails_hixoMain hrun hne hp hno hx)
  · -- module `i` fails, and the one process calls the exits before it
    rw [hixoMain, hrun]
    dsimp only
    rw [if_pos rfl, iff_true_right (Or.inl hfails)]
    intro x hx _
    rw [List.mem_singleton.mp hx]
    obtain ⟨hreturned, hglobals', hexits', hevents⟩ := h.leaveMain hixoError i p
    refine ⟨hreturned, fun j hj => ?_, fun hforked => ?_⟩
    · rw [hexits', hexits, honly j ((hevents j _).mp hj)]
      rfl
    · rw [hglobals', hglobals] at hforked
      cases hforked

end Unwind

/-! ## A sample -/

/-- `main_core_module` and `event_core_module`, whose `init_master` succeed. -/
def startModules : List (MasterModule Empty Unit) :=
  [{ type := .core, initMaster := some fun s => .ok (hixoOk, s), exitMaster := some .ok },
    { type := .core, initMaster := some fun s => .ok (hixoOk, s), exitMaster := some .ok }]

/-- One worker is to be forked, and the `fork` fails. -/
def startEnv : MasterEnv Empty Unit where
  daemon := false
  workerProcesses := 1
  maxConnections := 8
  ncpus := 1
  daemonFork₁ := none
  daemonFork₂ := none
  forks := fun _ => none
  masterMain := fun s => .ok (hixoOk, s)
  workerMain := fun _ s => .ok (hixoOk, s)

theorem startModules_return : MastersReturn startModules fun _ => hixoOk := by
  refine ⟨fun i m f hm hf s => ?_, fun i m f hm hf s => ?_⟩
  all_goals
    match i with
    | 0 | 1 =>
      obtain rfl := Option.some.inj hm
      obtain rfl := Option.some.inj hf
      exact ⟨s, rfl⟩
    | i + 2 => cases hm

theorem unwinds_iff_startEnv :
    (∀ x ∈ hixoMain startEnv startModules (), StartFails x.2 → Unwinds startModules x) ↔
      InitMasterFails startModules (fun _ => hixoOk) ∨ ¬ForkFails startEnv :=
  unwinds_iff startModules_return startEnv ()

/-- The `fork` fails, and `hixo_main` returns `HIXO_OK`. -/
theorem not_unwinds_startEnv :
    ¬∀ x ∈ hixoMain startEnv startModules (), StartFails x.2 → Unwinds startModules x := by
  intro hall
  have hunwinds := hall _ List.mem_cons_self (Or.inr List.mem_cons_self)
  have hresult : Ending.returned hixoOk = Ending.returned hixoError := hunwinds.result
  exact absurd (Ending.returned.inj hresult) (by decide)

end Hixo
