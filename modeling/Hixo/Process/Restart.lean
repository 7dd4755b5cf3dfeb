import Hixo.Foundation.Rollback
import Hixo.Process.Teardown
import Hixo.Worker.InitMaster

/-!
# Restarting a worker

`worker_main` calls `worker_main_core` again and again. After a run loop ended, the call before
has run `event_core_exit_master`, which sets `m_shmid` to `-1`, and the next call stops at the
assertion of `event_core_init_worker`.

* `Restarted p₀ k p`: `worker_main_core` is called for the `k + 1`-th time in the process `p`;
* `RunLoopReady`: what a worker has set up when it gets to the run loop;
* `entersRunLoop_first`, `workerMainCore_again`: the first call, and the calls after it;
* `reachesRunLoop_iff`: only the first call gets there.
-/

namespace Hixo

open Worker Programs

/-! ## The calls of `worker_main_core` -/

/-- `worker_main` calls `worker_main_core` for the `k + 1`-th time in the process `p`: each of
the `k` calls before got to the run loop and ended with its error. All system calls of the
initialisation succeed. -/
inductive Restarted (p₀ : WorkerProcess) : ℕ → WorkerProcess → Prop
  | first : Restarted p₀ 0 p₀
  | again {k : ℕ} {p : WorkerProcess} {boot : BootEnv} {calls : EpollCalls} {envs : List Env}
      {c₀ c : Called WorkerProcess} : Restarted p₀ k p →
      boot.shmat = true → calls.Succeed → (∀ env ∈ envs, env.Valid) →
      EntersRunLoop (gapModules boot calls envs p.apps.length) p c₀ →
      workerMainCore (gapModules boot calls envs p.apps.length) p = .ok (hixoError, c) →
      Restarted p₀ (k + 1) c.state

/-- What a worker has set up when it gets to the run loop. -/
structure RunLoopReady (apps : List AppCtx) (p : WorkerProcess) : Prop where
  /-- `m_shmid` is valid. -/
  shmid : ∃ id, p.worker.shmid = some id ∧ id ∈ p.worker.segments
  attached : p.attached = true
  cacheExists : p.worker.cacheExists = true
  /-- The listeners are open, in slots of the cache that are in use. -/
  listeners : ∀ server ∈ p.worker.servers, (p.worker.sock server.slot).fd ∈ p.worker.openFds ∧
    server.slot < p.worker.capacity ∧ (p.worker.sock server.slot).belong = true
  /-- `m_app_ctx_list` contains each app module exactly once. -/
  ring : p.ring.Perm (List.range apps.length)
  appCtxList : p.worker.appCtxList = p.ring.filterMap (p.apps[·]?)
  /-- The ports are in network order. -/
  apps : p.apps = apps.map appInitWorker

section Gap

variable {boot : BootEnv} {calls : EpollCalls} {envs : List Env} {n : ℕ}

theorem zipIdx_gapModules : (gapModules boot calls envs n).zipIdx =
    (mainCoreModule, 0) :: (eventCoreModule boot envs, 1) :: (epollModule calls, 2) ::
      ((List.range n).map appModule).zipIdx 3 :=
  rfl

/-- The modules behind the first three are app modules, and have no `exit_master`. -/
theorem type_of_mem_zipIdx_appModule {x : HixoModule Abort WorkerProcess × ℕ}
    (hx : x ∈ ((List.range n).map appModule).zipIdx 3) :
    x.1.type = .app ∧ x.1.exitMaster = none := by
  have hmem := List.fst_mem_of_mem_zipIdx hx
  obtain ⟨k, -, hk⟩ := List.mem_map.mp hmem
  rw [← hk]
  exact ⟨rfl, rfl⟩

/-- `INIT_WORKER(HIXO_MODULE_CORE)` attaches the segment with the accept lock. -/
theorem initWorkers_core (p : WorkerProcess) :
    initWorkers .core (gapModules boot calls envs n).zipIdx hixoOk { state := p } =
      (p.eventCoreInitWorker boot).map fun r =>
        (r.1, { state := r.2, calls := [.initWorker 1 r.1] }) := by
  rw [zipIdx_gapModules]
  simp only [initWorkers, mainCoreModule, eventCoreModule, epollModule, ne_eq, not_true_eq_false,
    if_false, reduceCtorEq, not_false_eq_true, if_true]
  cases p.eventCoreInitWorker boot with
  | error e => rfl
  | ok r =>
    refine initWorkers_skip _ _ fun x hx => Or.inl ?_
    rw [(type_of_mem_zipIdx_appModule hx).1]
    decide

/-- `INIT_WORKER(HIXO_MODULE_EVENT)` prepares the epoll module and succeeds. -/
theorem initWorkers_event (boot : BootEnv) (envs : List Env) (n : ℕ) (hcalls : calls.Succeed)
    (c : Called WorkerProcess) :
    ∃ calls', initWorkers .event (gapModules boot calls envs n).zipIdx hixoOk c =
      .ok (hixoOk, ⟨{ c.state with worker := c.state.worker.epollInit }, calls'⟩) := by
  rw [zipIdx_gapModules]
  simp only [initWorkers, mainCoreModule, eventCoreModule, epollModule, ne_eq, not_true_eq_false,
    if_false, reduceCtorEq, not_false_eq_true, if_true, WorkerProcess.epollInit, hcalls.create,
    hcalls.calloc, Bool.not_true, Bool.false_eq_true, bind, Except.bind]
  refine ⟨_, initWorkers_skip _ _ fun x hx => Or.inl ?_⟩
  rw [(type_of_mem_zipIdx_appModule hx).1]
  decide

/-- The app modules that are left turn their ports into network order. -/
theorem initWorkers_appModule (rest : List AppCtx) (pre : List AppCtx) (i : ℕ)
    (c : Called WorkerProcess) (hsync : c.state.sync = c.state)
    (happs : c.state.apps = pre ++ rest) :
    ∃ calls', initWorkers .app
        (((List.range' pre.length rest.length).map appModule).zipIdx i) hixoOk c =
      .ok (hixoOk,
        ⟨{ c.state with apps := pre ++ rest.map Worker.appInitWorker }.sync, calls'⟩) := by
  induction rest generalizing pre i c with
  | nil =>
    refine ⟨c.calls, ?_⟩
    rw [List.map_nil, ← happs]
    exact congrArg (fun s => Except.ok (hixoOk, Called.mk s c.calls)) hsync.symm
  | cons ctx rest ih =>
    -- the module at hand, and then the others
    have happs₁ : (c.state.apps.modify pre.length Worker.appInitWorker) =
        (pre ++ [Worker.appInitWorker ctx]) ++ rest := by
      rw [happs, Rollback.modify_length_append, List.append_assoc]
      rfl
    obtain ⟨calls', hrest⟩ := ih (pre ++ [Worker.appInitWorker ctx]) (i + 1)
      { state := { c.state with
          apps := c.state.apps.modify pre.length Worker.appInitWorker }.sync
        calls := c.calls ++ [.initWorker i hixoOk] } rfl happs₁
    refine ⟨calls', ?_⟩
    rw [List.length_append, List.length_singleton] at hrest
    rw [List.length_cons, List.range'_succ, List.map_cons, List.zipIdx_cons, initWorkers]
    simp only [appModule, ne_eq, not_true_eq_false, if_false, WorkerProcess.appInitWorker, bind,
      Except.bind]
    refine hrest.trans ?_
    rw [List.append_assoc]
    rfl

/-- `INIT_WORKER(HIXO_MODULE_APP)` lets each app module convert its ports, and succeeds. -/
theorem initWorkers_app (boot : BootEnv) (calls : EpollCalls) (envs : List Env)
    (c : Called WorkerProcess) (hsync : c.state.sync = c.state) :
    ∃ calls', initWorkers .app (gapModules boot calls envs c.state.apps.length).zipIdx hixoOk c =
      .ok (hixoOk, ⟨{ c.state with apps := c.state.apps.map Worker.appInitWorker }.sync,
        calls'⟩) := by
  obtain ⟨calls', happ⟩ := initWorkers_appModule c.state.apps [] 3 c hsync rfl
  refine ⟨calls', ?_⟩
  rw [zipIdx_gapModules]
  simp only [initWorkers, mainCoreModule, eventCoreModule, epollModule, ne_eq, reduceCtorEq,
    not_false_eq_true, if_true]
  rw [List.range_eq_range']
  exact happ

/-- `EXIT_WORKER(HIXO_MODULE_CORE)` leaves `m_shmid` at `-1`. -/
theorem shmid_of_exitWorkers_core {c c' : Called WorkerProcess}
    (hrun : exitWorkers .core (gapModules boot calls envs n).zipIdx c = .ok c') :
    c'.state.worker.shmid = none := by
  rw [zipIdx_gapModules] at hrun
  simp only [exitWorkers, mainCoreModule, eventCoreModule, epollModule, ne_eq, not_true_eq_false,
    if_false, reduceCtorEq, not_false_eq_true, if_true, bind, Except.bind] at hrun
  split at hrun
  · cases hrun
  next p hexit =>
    rw [exitWorkers_skip _ fun x hx => Or.inr (type_of_mem_zipIdx_appModule hx).2] at hrun
    obtain rfl := Except.ok.inj hrun
    obtain ⟨w, hw, hp⟩ := exists_of_bind_eq_ok hexit
    obtain ⟨w₁, -, hw₁⟩ := exists_of_bind_eq_ok hw
    obtain rfl := Except.ok.inj hw₁
    obtain rfl := Except.ok.inj hp
    rfl

/-- Without a segment the worker stops in `event_core_init_worker`. -/
theorem initWorkers_core_shmidSet {p : WorkerProcess} (hp : p.worker.shmid = none) :
    initWorkers .core (gapModules boot calls envs n).zipIdx hixoOk { state := p } =
      .error .shmidSet := by
  rw [initWorkers_core]
  simp [WorkerProcess.eventCoreInitWorker, Worker.eventCoreInitWorker, hp, bind, Except.bind,
    Except.map]

end Gap

/-! ## The first call -/

section First

variable {boot boot' : BootEnv} {calls : EpollCalls} {envs : List Env} {maxConnections : ℕ}
  {apps : List AppCtx} {p₀ p : WorkerProcess} {k : ℕ}

/-- The ring of the app modules after `event_core_init_worker` has their contexts in the opposite
order of the table. -/
theorem filterMap_range_reverse (apps : List AppCtx) :
    ((List.range apps.length).reverse ++ []).filterMap (apps[·]?) = apps.reverse := by
  have hall : (List.range apps.length).filterMap (apps[·]?) = apps := by
    induction apps with
    | nil => rfl
    | cons ctx apps ih =>
      rw [List.length_cons, List.range_succ_eq_map, List.filterMap_cons, List.filterMap_map]
      exact congrArg (ctx :: ·) ih
  rw [List.append_nil, List.filterMap_reverse, hall]

/-- `hixo_main` hands to `worker_main` what `event_core_init_master` left, with the power that the
worker gets. -/
theorem forkWorker_eq (hfork : forkWorker boot maxConnections apps = .ok (some p₀)) :
    ∃ w, eventCoreInitMaster boot maxConnections apps {} = .ok (true, w) ∧
      p₀ = { worker := { w with power := (maxConnections : ℤ) - maxConnections / 8 }, apps } := by
  obtain ⟨⟨ok, w⟩, hmaster, hfork⟩ := exists_of_bind_eq_ok hfork
  cases ok with
  | false => cases hfork
  | true => exact ⟨w, hmaster, (Option.some.inj (Except.ok.inj hfork)).symm⟩

/-- The first call of `worker_main_core` gets to the run loop. -/
theorem entersRunLoop_first (hboot : boot.FreshFds)
    (hfork : forkWorker boot maxConnections apps = .ok (some p₀)) (hshm : boot'.shmat = true)
    (hcalls : calls.Succeed) :
    ∃ c, EntersRunLoop (gapModules boot' calls envs apps.length) p₀ c ∧
      RunLoopReady apps c.state := by
  obtain ⟨w, hmaster, rfl⟩ := forkWorker_eq hfork
  obtain ⟨⟨id, hshmid, hsegment⟩, hcache, hservers⟩ := eventCoreInitMaster_keeps hmaster
  obtain ⟨free, conns, h⟩ := booting_of_eventCoreInitMaster hboot hmaster
  have happs : apps ≠ [] := by
    rintro rfl
    obtain ⟨server, hserver⟩ := List.exists_mem_of_ne_nil _ hservers
    have hslot : server.slot ∈ w.listeners := List.mem_map_of_mem hserver
    rw [h.listeners, List.mem_reverse] at hslot
    obtain ⟨server', hserver', -⟩ := h.served _ hslot
    simp at hserver'
  set w₀ : Worker := { w with power := (maxConnections : ℤ) - maxConnections / 8 } with hw₀
  -- `event_core_init_worker` attaches the segment and puts the app modules on the ring
  set p₁ : WorkerProcess :=
    { worker := { w₀ with appCtxList := apps.reverse }
      apps
      ring := (List.range apps.length).reverse ++ []
      attached := true } with hp₁
  have hcore : WorkerProcess.eventCoreInitWorker boot' { worker := w₀, apps } =
      .ok (hixoOk, p₁) := by
    have hempty : apps.reverse.isEmpty = false := by simpa using happs
    have hring : apps.foldl (fun ring ctx => ctx :: ring) w₀.appCtxList = apps.reverse := by
      rw [show w₀.appCtxList = [] from h.appCtxList]
      simp
    have hset : w₀.shmid ≠ none := by
      rw [show w₀.shmid = some id from hshmid]
      simp
    simp only [WorkerProcess.eventCoreInitWorker, Worker.eventCoreInitWorker, hset, hshm, hring,
      hempty, bind, Except.bind, Bool.not_true, Bool.not_false, Bool.false_eq_true, if_false,
      if_true, hp₁]
  have hinit : initWorkers .core (gapModules boot' calls envs apps.length).zipIdx hixoOk
      { state := { worker := w₀, apps } } =
      .ok (hixoOk, { state := p₁, calls := [.initWorker 1 hixoOk] }) := by
    rw [initWorkers_core, hcore]
    rfl
  obtain ⟨calls₂, hevent⟩ := initWorkers_event boot' envs apps.length hcalls
    { state := p₁, calls := [.initWorker 1 hixoOk] }
  have hsync : ({ p₁ with worker := p₁.worker.epollInit } : WorkerProcess).sync =
      { p₁ with worker := p₁.worker.epollInit } := by
    unfold WorkerProcess.sync
    dsimp only [hp₁]
    rw [filterMap_range_reverse]
    rfl
  obtain ⟨calls₃, happ⟩ := initWorkers_app boot' calls envs
    ⟨{ p₁ with worker := p₁.worker.epollInit }, calls₂⟩ hsync
  refine ⟨_, ⟨hixoOk, _, hixoOk, _, hixoOk, hinit, by decide, hevent, by decide, happ, by decide⟩,
    ⟨⟨id, hshmid, hsegment⟩, rfl, hcache, fun server hserver => ?_, ?_, rfl, rfl⟩⟩
  · have hslot : server.slot ∈ conns := by
      rw [← List.mem_reverse, ← h.listeners]
      exact List.mem_map_of_mem hserver
    exact ⟨h.descriptors.fd_mem hslot, h.lists.lt_of_mem_conns hslot,
      (h.lists.belong _ (h.lists.lt_of_mem_conns hslot)).mpr (h.lists.notMem_free hslot)⟩
  · exact List.Perm.trans (List.Perm.of_eq (List.append_nil _)) (List.reverse_perm _)

/-! ## The calls after it -/

/-- Every call that got to the run loop and returned leaves `m_shmid` at `-1`. -/
theorem Restarted.shmid (h : Restarted p₀ (k + 1) p) : p.worker.shmid = none := by
  cases h with
  | again _ _ _ _ henter hrun =>
    obtain ⟨_, _, _, _, _, _, _, _, hexit⟩ := henter.exits hrun
    exact shmid_of_exitWorkers_core hexit

/-- The second call stops at the assertion on `m_shmid`. -/
theorem Restarted.workerMainCore_again (h : Restarted p₀ (k + 1) p) (boot : BootEnv)
    (calls : EpollCalls) (envs : List Env) (n : ℕ) :
    workerMainCore (gapModules boot calls envs n) p = .error .shmidSet := by
  rw [workerMainCore, initWorkers_core_shmidSet h.shmid]
  rfl

/-- `worker_main` calls `worker_main_core` for a second time at most. -/
theorem Restarted.le_one (h : Restarted p₀ k p) : k ≤ 1 := by
  cases h with
  | first => exact Nat.zero_le 1
  | @again k p boot calls envs c₀ c hprev _ _ _ _ hrun =>
    cases k with
    | zero => exact le_rfl
    | succ k =>
      rw [hprev.workerMainCore_again] at hrun
      cases hrun

/-- `worker_main_core` gets to the run loop, with everything set up, in its first call only. -/
theorem reachesRunLoop_iff (hboot : boot.FreshFds)
    (hfork : forkWorker boot maxConnections apps = .ok (some p₀)) (hrestarted : Restarted p₀ k p)
    (hshm : boot'.shmat = true) (hcalls : calls.Succeed) :
    (∃ c, EntersRunLoop (gapModules boot' calls envs apps.length) p c ∧
      RunLoopReady apps c.state) ↔ k = 0 := by
  constructor
  · rintro ⟨c, ⟨_, _, _, _, _, hcore, -⟩, -⟩
    cases k with
    | zero => rfl
    | succ k =>
      rw [initWorkers_core_shmidSet hrestarted.shmid] at hcore
      cases hcore
  · rintro rfl
    cases hrestarted
    exact entersRunLoop_first hboot hfork hshm hcalls

end First

/-! ## A sample -/

/-- The process of the sample worker before `worker_main_core` is called. -/
def sampleProcess : WorkerProcess :=
  match forkWorker sampleBoot 2 [sampleApp] with
  | .ok (some p) => p
  | _ => { worker := {}, apps := [] }

/-- The modules for a run loop in which `epoll_wait` fails at once. -/
def sampleModules : List (HixoModule Abort WorkerProcess) :=
  gapModules sampleBoot ⟨true, true⟩ [failingEnv] 1

/-- What the first call of `worker_main_core` leaves. -/
def sampleRestart : Called WorkerProcess :=
  match workerMainCore sampleModules sampleProcess with
  | .ok (_, c) => c
  | .error _ => { state := sampleProcess }

theorem forkWorker_sample : forkWorker sampleBoot 2 [sampleApp] = .ok (some sampleProcess) := rfl

/-- In the sample the first call returns, and the second one is reached. -/
theorem restarted_sample : Restarted sampleProcess 1 sampleRestart.state := by
  obtain ⟨c, henter, -⟩ : ∃ c, EntersRunLoop
      (gapModules sampleBoot ⟨true, true⟩ [failingEnv] sampleProcess.apps.length) sampleProcess c ∧
        RunLoopReady [sampleApp] c.state :=
    entersRunLoop_first sampleBoot_fresh forkWorker_sample rfl ⟨rfl, rfl⟩
  refine .again .first rfl ⟨rfl, rfl⟩ (fun env henv => ?_) henter rfl
  rw [List.mem_singleton.mp henv]
  exact failingEnv_valid

theorem reachesRunLoop_iff_sample :
    (∃ c, EntersRunLoop sampleModules sampleRestart.state c ∧
      RunLoopReady [sampleApp] c.state) ↔ 1 = 0 :=
  reachesRunLoop_iff sampleBoot_fresh forkWorker_sample restarted_sample rfl ⟨rfl, rfl⟩

/-- After a first run loop that ended because `epoll_wait` failed, the second call of
`worker_main_core` stops at the assertion on `m_shmid`. -/
theorem second_call_shmidSet :
    workerMainCore sampleModules sampleProcess = .ok (hixoError, sampleRestart) ∧
      Restarted sampleProcess 1 sampleRestart.state ∧
      workerMainCore sampleModules sampleRestart.state = .error .shmidSet :=
  ⟨rfl, restarted_sample, restarted_sample.workerMainCore_again _ _ _ _⟩

end Hixo
