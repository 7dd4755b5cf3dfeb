import Hixo.Process.Modules
import Hixo.Worker.Init

/-!
# A worker process

The table `gap_modules` with the callbacks of the event core, the epoll module and any number of
app modules, on the state of a worker process.

* `eventLoop`: the run loop, whose passes have the results of system calls of a list;
* `eventCoreExitMaster`, `epollExit`: what the modules do to the worker on the way out;
* `WorkerProcess`: a worker with the contexts of the app modules and the accept lock;
* `gapModules`, `forkWorker`: the table, and the process that `hixo_main` forks.
-/

namespace Hixo

namespace Worker

/-! ## `event_loop` -/

/-- `event_loop()`, with an environment for each of its passes. -/
def eventLoop : List Env → Worker → Except Abort Worker
  | [], _ => .error .endless
  | env :: envs, w => do
    let (ok, w) ← eventLoopBody env w
    if ok then eventLoop envs w else .ok w

/-! ## `event_core_exit_master` -/

/-- The body of the loop of `event_core_exit_master`. -/
def exitListener (w : Worker) (server : Server) : Except Abort Worker :=
  -- one byte past a node there is no node
  if server.tagged then .error .nodeRemoved
  else do
    let w ← w.assertRmNode .connections (.node server.slot)
    (w.closeFd (w.sock server.slot).fd).freeResource server.slot

/-- The loop of `event_core_exit_master`. -/
def exitListeners (w : Worker) : Except Abort Worker := w.servers.foldlM exitListener w

/-- `event_core_exit_master()` -/
def eventCoreExitMaster (w : Worker) : Except Abort Worker := do
  let w ← w.exitListeners
  .ok { w.destroyResource.shmRemove with shmid := none }

/-! ## `epoll_module.c` -/

/-- `epoll_exit()`: the epoll descriptor is closed. -/
def epollExit (w : Worker) : Worker := { w with interest := fun _ => none }

end Worker

/-- The results of the system calls of `epoll_init`. -/
structure EpollCalls where
  /-- Whether `epoll_create` succeeds. -/
  create : Bool
  /-- Whether `calloc` has memory for the events. -/
  calloc : Bool

/-- The system calls succeed. -/
structure EpollCalls.Succeed (calls : EpollCalls) : Prop where
  create : calls.create = true
  calloc : calls.calloc = true

/-! ## The process -/

/-- A worker process. -/
structure WorkerProcess where
  worker : Worker
  /-- The contexts of the app modules, in the order of the table. -/
  apps : List AppCtx
  /-- The app modules whose contexts are on `m_app_ctx_list`, in the order of the ring. -/
  ring : List ℕ := []
  /-- Whether the segment of the accept lock is attached. -/
  attached : Bool := false

namespace WorkerProcess

/-- The contexts on `m_app_ctx_list` are those of the modules. -/
def sync (p : WorkerProcess) : WorkerProcess :=
  { p with worker := { p.worker with appCtxList := p.ring.filterMap (p.apps[·]?) } }

/-- `event_core_init_worker()`. The first call finds the ring empty. -/
def eventCoreInitWorker (boot : BootEnv) (p : WorkerProcess) :
    Except Abort (ℤ × WorkerProcess) := do
  let (ok, worker) ← p.worker.eventCoreInitWorker boot p.apps
  let ring := if boot.shmat then (List.range p.apps.length).reverse ++ p.ring else p.ring
  .ok (if ok then hixoOk else hixoError, { p with worker, ring, attached := ok })

/-- `event_core_exit_worker()` -/
def eventCoreExitWorker (p : WorkerProcess) : Except Abort WorkerProcess :=
  .ok { p with attached := false }

/-- `event_core_exit_master()` -/
def eventCoreExitMaster (p : WorkerProcess) : Except Abort WorkerProcess := do
  let worker ← p.worker.eventCoreExitMaster
  .ok { p with worker }

/-- `event_loop()`, which returns only when `epoll_process_events` returns `HIXO_ERROR`. -/
def eventLoop (envs : List Env) (p : WorkerProcess) : Except Abort (ℤ × WorkerProcess) := do
  let worker ← p.worker.eventLoop envs
  .ok (hixoError, { p with worker })

/-- `epoll_init()` -/
def epollInit (calls : EpollCalls) (p : WorkerProcess) : Except Abort (ℤ × WorkerProcess) :=
  if !calls.create then .ok (hixoError, p)
  else if !calls.calloc then .ok (hixoError, { p with worker := p.worker.epollExit })
  else .ok (hixoOk, { p with worker := p.worker.epollInit })

/-- `epoll_exit()` -/
def epollExit (p : WorkerProcess) : Except Abort WorkerProcess :=
  .ok { p with worker := p.worker.epollExit }

/-- `echo_init_worker()` and `simple_http_init_worker()`, for app module `k`. -/
def appInitWorker (k : ℕ) (p : WorkerProcess) : Except Abort (ℤ × WorkerProcess) :=
  .ok (hixoOk, { p with apps := p.apps.modify k Worker.appInitWorker }.sync)

end WorkerProcess

/-! ## `gap_modules` -/

open WorkerProcess

/-- `g_main_core_module`: `destroy_conf` does nothing. -/
def mainCoreModule : HixoModule Abort WorkerProcess where
  type := .core
  exitMaster := some .ok

/-- `g_event_core_module` -/
def eventCoreModule (boot : BootEnv) (envs : List Env) : HixoModule Abort WorkerProcess where
  type := .core
  initWorker := some (eventCoreInitWorker boot)
  exitWorker := some eventCoreExitWorker
  exitMaster := some eventCoreExitMaster
  runloop := some (eventLoop envs)

/-- `g_epoll_module` -/
def epollModule (calls : EpollCalls) : HixoModule Abort WorkerProcess where
  type := .event
  initWorker := some (epollInit calls)
  exitWorker := some epollExit

/-- `g_echo_module` and `g_simple_http_module`, as app module `k`. -/
def appModule (k : ℕ) : HixoModule Abort WorkerProcess where
  type := .app
  initWorker := some (appInitWorker k)

/-- `gap_modules` with `n` app modules. -/
def gapModules (boot : BootEnv) (calls : EpollCalls) (envs : List Env) (n : ℕ) :
    List (HixoModule Abort WorkerProcess) :=
  mainCoreModule :: eventCoreModule boot envs :: epollModule calls ::
    (List.range n).map appModule

/-- A worker process when `hixo_main` calls `worker_main`: the worker has what
`event_core_init_master` set up in the master, and its power. `none` when the initialisation
fails. -/
def forkWorker (boot : BootEnv) (maxConnections : ℕ) (apps : List AppCtx) :
    Except Abort (Option WorkerProcess) := do
  let (ok, w) ← Worker.eventCoreInitMaster boot maxConnections apps {}
  if !ok then .ok none
  else
    .ok (some {
      worker := { w with power := (maxConnections : ℤ) - maxConnections / 8 }
      apps })

end Hixo
