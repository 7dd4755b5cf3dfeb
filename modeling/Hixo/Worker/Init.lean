import Hixo.Worker.EventLoop

/-!
# Starting a worker

`event_core_init_master` in the master, which creates the socket cache and the listeners, and
`event_core_init_worker` with the initialisation of the epoll module and the app modules in the
worker.

* `BootEnv`: the results of the system calls on the way;
* `createResource`, `eventCoreCreateListener`, `eventCoreInitMaster`, `eventCoreInitWorker`;
* `startWorker`: a worker as `worker_main_core` has it when it calls the run loop.
-/

namespace Hixo

/-- An IPv4 socket address: the IP text that was read, and the port in network order. -/
structure SockAddr where
  /-- The text that `inet_aton` read. -/
  ip : String
  /-- `sin_port` -/
  port : BitVec 16
  deriving DecidableEq, Repr

/-- The results of the system calls of `event_core_create_listener`. -/
structure ListenerCalls where
  /-- `socket` -/
  socket : Option ℕ
  /-- Whether `fcntl` succeeds. -/
  unblocked : Bool
  /-- Whether `setsockopt` succeeds. -/
  reusable : Bool
  /-- Whether `bind` succeeds. -/
  bound : Bool
  /-- Whether `listen` succeeds. -/
  listening : Bool
  deriving DecidableEq, Repr

/-- The results of the system calls of the initialisation. -/
structure BootEnv where
  /-- `shmget`, in the state of the worker. -/
  shmget : Option ℕ
  /-- Whether `calloc` has memory for `mpp_servers`. -/
  callocServers : Bool
  /-- Whether `calloc` has memory for the socket cache. -/
  callocCache : Bool
  /-- Whether `inet_aton` accepts an address. -/
  inetAton : String → Bool
  /-- The calls for a listener with an address and a backlog. -/
  listener : Worker → SockAddr → ℤ → ListenerCalls
  /-- Whether `shmat` succeeds. -/
  shmat : Bool

/-- `htons` on a little-endian machine. -/
def htons (port : BitVec 16) : BitVec 16 := (port <<< 8) ||| (port >>> 8)

/-- `SOMAXCONN` -/
def somaxconn : ℤ := 4096

namespace Worker

/-! ## `create_resource` and `destroy_resource` -/

/-- `m_sockets_cache` with memory for `count` sockets from `calloc`, all of it clear, and an empty
free list. -/
def clearCache (w : Worker) (count : ℕ) : Worker :=
  { w with
    cacheExists := true
    links := fun c =>
      match c with
      | .connections | .postedEvents => w.links c
      | .freeList => none
      | .node i | .postedNode i => if i < count then none else w.links c
    sock := fun i => if i < count then {} else w.sock i }

/-- `create_resource(&m_sockets_cache, count, ..)`: whether it returns `HIXO_OK`. -/
def createResource (w : Worker) (count : ℕ) (calloc : Bool) : Bool × Worker :=
  if count = 0 then (false, w)
  else if w.cacheExists then (false, w)
  else if !calloc then (false, w)
  else
    let w := (List.range count).foldl (fun w i => w.addNode .freeList (.node i))
      (w.clearCache count)
    (true, { w with used := 0, capacity := count })

/-- `destroy_resource(&m_sockets_cache)` -/
def destroyResource (w : Worker) : Worker :=
  { w with
    cacheExists := false
    links := w.links.link .freeList none
    used := 0
    capacity := 0 }

/-! ## `event_core_init_master` -/

/-- `event_core_create_listener(p_srv_addr, backlog)`: the descriptor, or `none` for
`INVALID_FD`. -/
def eventCoreCreateListener (boot : BootEnv) (w : Worker) (addr : SockAddr) (backlog : ℤ) :
    Option ℕ × Worker :=
  let calls := boot.listener w addr backlog
  let w := w.record (.socket calls.socket)
  match calls.socket with
  | none => (none, w)
  | some fd =>
    let w := { w with openFds := fd :: w.openFds }
    if calls.unblocked && calls.reusable && calls.bound && calls.listening then
      (some fd, { w with localPort := fun x => if x = fd then addr.port else w.localPort x })
    else (none, w.closeFd fd)

/-- The body of the loop over the servers of an app module. -/
def createListener (boot : BootEnv) (w : Worker) (server : ListenConf) : Except Abort Worker :=
  let backlog := if 0 < server.backlog then server.backlog else somaxconn
  if !boot.inetAton server.ip then .ok w
  else do
    match ← w.allocResource with
    | (none, _) => .error .listenerAllocated
    | (some i, w) =>
      let addr : SockAddr := { ip := server.ip, port := htons server.port }
      match eventCoreCreateListener boot w addr backlog with
      | (none, w) => w.freeResource i
      | (some fd, w) =>
        let w := w.hixoCreateSocket i fd .listen (some .hixoHandleAccept) none none
        let w := { w with servers := w.servers ++ [Server.mk i false] }
        .ok (w.addNode .connections (.node i))

/-- Remove the shared-memory segment. -/
def shmRemove (w : Worker) : Worker :=
  { w with segments := match w.shmid with
      | none => w.segments
      | some id => w.segments.erase id }

/-- `event_core_init_master()` for the app modules of `gap_modules`: whether it returns
`HIXO_OK`. -/
def eventCoreInitMaster (boot : BootEnv) (maxConnections : ℕ) (apps : List AppCtx)
    (w : Worker) : Except Abort (Bool × Worker) :=
  let w := { w with shmid := boot.shmget }
  match boot.shmget with
  | none => .ok (false, w)
  | some id =>
    let w := { w with segments := id :: w.segments }
    let nservers := (apps.map fun ctx => ctx.servers.length).sum
    if !boot.callocServers then .ok (false, w.shmRemove)
    else
      let w := { w with servers := [] }
      match w.createResource (maxConnections + nservers) boot.callocCache with
      | (false, w) => .ok (false, w.shmRemove)
      | (true, w) => do
        let w ← (apps.flatMap fun ctx => ctx.servers).foldlM (createListener boot) w
        if w.servers.isEmpty then .ok (false, w.destroyResource.shmRemove)
        else .ok (true, w)

/-! ## The worker -/

/-- `event_core_init_worker()` for the app modules of `gap_modules`: whether it returns
`HIXO_OK`. Each module is put at the head of `m_app_ctx_list`. -/
def eventCoreInitWorker (boot : BootEnv) (apps : List AppCtx) (w : Worker) :
    Except Abort (Bool × Worker) :=
  if w.shmid = none then .error .shmidSet
  else if !boot.shmat then .ok (false, w)
  else
    let w := { w with appCtxList := apps.foldl (fun ring ctx => ctx :: ring) w.appCtxList }
    .ok (!w.appCtxList.isEmpty, w)

/-- `epoll_init()`, when its system calls succeed: a new epoll descriptor. -/
def epollInit (w : Worker) : Worker := { w with interest := fun _ => none }

/-- `echo_init_worker` and `simple_http_init_worker`: the ports of all servers of the module are
turned into network order, in place. -/
def appInitWorker (ctx : AppCtx) : AppCtx :=
  { ctx with servers := ctx.servers.map fun server =>
      { server with port := htons server.port } }

/-- A worker that is about to enter the run loop: `event_core_init_master` in the master, the
power that `hixo_main` sets after the fork, and the `init_worker` callbacks. `none` when one of
them returns `HIXO_ERROR`. -/
def startWorker (boot : BootEnv) (maxConnections : ℕ) (apps : List AppCtx) :
    Except Abort (Option Worker) := do
  let (ok, w) ← eventCoreInitMaster boot maxConnections apps {}
  if !ok then .ok none
  else
    let w := { w with power := (maxConnections : ℤ) - maxConnections / 8 }
    let (ok, w) ← eventCoreInitWorker boot apps w
    if !ok then .ok none
    else
      let w := w.epollInit
      .ok (some { w with appCtxList := w.appCtxList.map appInitWorker })

end Worker

end Hixo
