import Mathlib.Algebra.Order.Ring.Int
import Hixo.Foundation.LinkedList

/-!
# The state of a worker

The globals of a worker process and what the kernel keeps for it, with the operations of
`resource.c` and `socket.c` on them.

A slot of `m_sockets_cache` is named by its index. Its `m_node` and `m_posted_node` are cells of
one heap of links, together with the heads of the three lists they can be on. A failing `assert`
is an exception that names it; the other exceptions stand for a pointer that leads nowhere and
for a search that does not end.

What the code only reads from outside, the results of system calls and the effects of app
callbacks, comes from an `Env`. Each of its functions sees the whole worker with the log of
everything that happened, so that no two calls need to give the same answer.

* `Socket`, `AppCtx`, `LogEntry`, `Worker`: the data;
* `Env`: the results of system calls and callbacks;
* `allocResource`, `freeResource`, `hixoCreateSocket`, `hixoDestroySocket`: the operations.
-/

namespace Hixo

/-! ## Sockets -/

/-- The cells of type `list_t`. -/
inductive Cell
  /-- `m_sockets_cache.mp_free_list` -/
  | freeList
  /-- `mp_connections` -/
  | connections
  /-- `mp_posted_events` -/
  | postedEvents
  /-- The `m_node` of a slot. -/
  | node (i : ℕ)
  /-- The `m_posted_node` of a slot. -/
  | postedNode (i : ℕ)
  deriving DecidableEq, Repr

/-- `EPOLLIN` -/
def hixoEventIn : BitVec 32 := 0x1

/-- `EPOLLOUT` -/
def hixoEventOut : BitVec 32 := 0x4

/-- `EPOLLERR` -/
def hixoEventErr : BitVec 32 := 0x8

/-- `EPOLLHUP` -/
def hixoEventHup : BitVec 32 := 0x10

/-- `EPOLLET` -/
def hixoEventFlags : BitVec 32 := 0x80000000

/-- A pointer to a callback of an app module. -/
abbrev Callback : Type := ℕ

/-- What `mpf_read_handler` points to. -/
inductive ReadHandler
  /-- The handler of a listener. -/
  | hixoHandleAccept
  /-- A callback of an app module. -/
  | app (f : Callback)
  deriving DecidableEq, Repr

/-- `hixo_sock_type_t` -/
inductive SockType
  /-- `HIXO_LISTEN_SOCKET` -/
  | listen
  /-- `HIXO_CMNCT_SOCKET` -/
  | cmnct
  deriving DecidableEq, Repr

/-- `hixo_socket_t` without its links. The default values are those of fresh memory. -/
structure Socket where
  /-- Bit 0 of `mp_belong`, which `DEBUG_FLAG` builds set while the slot is handed out. -/
  belong : Bool := false
  /-- `m_fd` -/
  fd : ℤ := 0
  /-- `mpf_read_handler` -/
  readHandler : Option ReadHandler := none
  /-- `mpf_write_handler` -/
  writeHandler : Option Callback := none
  /-- `mpf_disconnect_handler` -/
  disconnectHandler : Option Callback := none
  /-- `m_event_types` -/
  eventTypes : BitVec 32 := 0
  /-- `m_readbuf_queue`: the buffers in it. -/
  readbufQueue : List ℕ := []
  /-- `m_writebuf_queue`: the buffers in it. -/
  writebufQueue : List ℕ := []
  /-- `m_stale` -/
  stale : Bool := false
  /-- `m_readable` -/
  readable : Bool := false
  /-- `m_writable` -/
  writable : Bool := false
  /-- `m_close` -/
  close : Bool := false
  deriving DecidableEq, Repr

/-! ## App modules -/

/-- `hixo_listen_conf_t` -/
structure ListenConf where
  /-- `mp_ip` -/
  ip : String
  /-- `m_port` -/
  port : BitVec 16
  /-- `m_backlog` -/
  backlog : ℤ
  deriving DecidableEq, Repr

/-- `hixo_app_module_ctx_t`. The code calls `mpf_handle_connect` without a test for `NULL`. -/
structure AppCtx where
  /-- `mpf_handle_connect` -/
  handleConnect : Callback
  /-- `mpf_handle_read` -/
  handleRead : Option Callback
  /-- `mpf_handle_write` -/
  handleWrite : Option Callback
  /-- `mpf_handle_disconnect` -/
  handleDisconnect : Option Callback
  /-- The `m_nservers` entries of `mpa_servers`. -/
  servers : List ListenConf
  deriving DecidableEq, Repr

/-- The four callbacks of an app module. -/
inductive CallbackKind
  | connect
  | read
  | write
  | disconnect
  deriving DecidableEq, Repr

/-- What a callback does to the connection it is given. -/
structure AppEffect where
  /-- `m_close` when it returns. -/
  close : Bool
  /-- `m_readable` when it returns. -/
  readable : Bool
  /-- The read buffers when it returns. -/
  readbufQueue : List ℕ
  /-- The write buffers when it returns. -/
  writebufQueue : List ℕ
  deriving DecidableEq, Repr

/-! ## System calls -/

/-- An entry of the interest list of the epoll descriptor. -/
structure Registration where
  /-- The slot in `data.ptr`. -/
  slot : ℕ
  /-- Bit 0 of `data.ptr`. -/
  stale : Bool
  /-- `events` -/
  events : BitVec 32
  deriving DecidableEq, Repr

/-- A `struct epoll_event` that `epoll_wait` filled in. -/
structure EpollEvent where
  /-- The slot in `data.ptr`. -/
  slot : ℕ
  /-- Bit 0 of `data.ptr`. -/
  stale : Bool
  /-- `events` -/
  events : BitVec 32
  deriving DecidableEq, Repr

/-- The `errno` of `epoll_ctl`. -/
inductive CtlResult
  | ok
  | eexist
  | enoent
  | failed
  deriving DecidableEq, Repr

/-- The result of `epoll_wait`; a timeout gives no events. -/
inductive WaitResult
  | events (evs : List EpollEvent)
  | eintr
  | failed
  deriving DecidableEq, Repr

/-- The result of `accept`. -/
inductive AcceptResult
  | conn (fd : ℕ)
  | eagain
  | econnaborted
  | failed
  deriving DecidableEq, Repr

/-- What is recorded of a run. -/
inductive LogEntry
  /-- `spinlock_try` was called. -/
  | trySpinlock (held : Bool)
  /-- `spinlock_unlock` was called. -/
  | spinlockUnlock
  /-- `epoll_ctl` was called to add the descriptor of a slot. -/
  | addEvent (i : ℕ) (rslt : CtlResult)
  /-- `epoll_ctl` was called to delete the descriptor of a slot. -/
  | delEvent (i : ℕ) (rslt : CtlResult)
  /-- `epoll_wait` was called. -/
  | wait (rslt : WaitResult)
  /-- `socket` was called for a listener. -/
  | socket (rslt : Option ℕ)
  /-- `accept` was called for the listener in slot `i`. -/
  | accept (i : ℕ) (rslt : AcceptResult)
  /-- A descriptor was closed. -/
  | closeFd (fd : ℤ)
  /-- `hixo_handle_accept` was called for the listener in slot `i`. -/
  | handleAccept (i : ℕ)
  /-- `hixo_handle_accept` put slot `i` on `mp_connections`. -/
  | opened (i : ℕ)
  /-- A callback of an app module was called for slot `i` and left `m_close` at `close`. -/
  | callback (kind : CallbackKind) (i : ℕ) (f : Callback) (close : Bool)
  /-- `hixo_handle_close` was called for slot `i`. -/
  | handleClose (i : ℕ)
  deriving DecidableEq, Repr

/-! ## The worker -/

/-- An entry of `mpp_servers`: a slot, and bit 0 of the pointer. -/
structure Server where
  /-- The slot of the listener. -/
  slot : ℕ
  /-- Bit 0 of the pointer. -/
  tagged : Bool
  deriving DecidableEq, Repr

/-- A worker process. -/
structure Worker where
  /-- The memory of all list links. -/
  links : LinkHeap Cell := fun _ => none
  /-- The slots of `m_sockets_cache`. -/
  sock : ℕ → Socket := fun _ => {}
  /-- Whether `m_sockets_cache.mp_start` is not `NULL`. -/
  cacheExists : Bool := false
  /-- `m_sockets_cache.m_used` -/
  used : ℤ := 0
  /-- `m_sockets_cache.m_capacity` -/
  capacity : ℕ := 0
  /-- The first `m_nservers` entries of `mpp_servers`. -/
  servers : List Server := []
  /-- `gp_ps_info->m_power` -/
  power : ℤ := 0
  /-- `m_hold_lock` -/
  holdLock : Bool := false
  /-- `m_app_ctx_list`, in the order of the ring. -/
  appCtxList : List AppCtx := []
  /-- `m_shmid`, where `none` is `-1`. -/
  shmid : Option ℕ := none
  /-- Kernel: the shared-memory segments that exist. -/
  segments : List ℕ := []
  /-- Kernel: the interest list of `m_epfd`. -/
  interest : ℤ → Option Registration := fun _ => none
  /-- Kernel: the open descriptors of listeners and connections. -/
  openFds : List ℤ := []
  /-- Kernel: the local port of a descriptor, in network order. -/
  localPort : ℤ → BitVec 16 := fun _ => 0
  /-- What happened so far. -/
  log : List LogEntry := []

/-- The results of system calls and callbacks, which may depend on everything that happened. -/
structure Env where
  /-- `spinlock_try` -/
  trySpinlock : Worker → Bool
  /-- `epoll_ctl` with `EPOLL_CTL_ADD` for a slot -/
  addEvent : Worker → ℕ → CtlResult
  /-- `epoll_ctl` with `EPOLL_CTL_DEL` for a slot -/
  delEvent : Worker → ℕ → CtlResult
  /-- `epoll_wait` -/
  wait : Worker → WaitResult
  /-- How often `accept` returns before it reports `EAGAIN`. -/
  pending : Worker → ℕ
  /-- `accept` -/
  accept : Worker → AcceptResult
  /-- A callback of an app module, called for a slot. -/
  callback : Worker → CallbackKind → ℕ → Callback → AppEffect

/-- Why a worker stops. -/
inductive Abort
  /-- `assert(rm_node(..))` -/
  | nodeRemoved
  /-- The assertions on `mp_belong`. -/
  | belong
  /-- `assert(NULL != p_app_ctx)` -/
  | appFound
  /-- `assert(NULL != p_listener)` -/
  | listenerAllocated
  /-- `assert(0 == (mpp_servers[i] & 1))` -/
  | serverAligned
  /-- `assert(NULL == mp_posted_events)` -/
  | postedEmpty
  /-- `assert(-1 != m_shmid)` -/
  | shmidSet
  /-- A link does not lead to a node of the kind expected. -/
  | wildPointer
  /-- A walk along a list does not end. -/
  | endless
  deriving DecidableEq, Repr

namespace Worker

/-- Record an entry. -/
def record (w : Worker) (e : LogEntry) : Worker := { w with log := w.log ++ [e] }

/-- Change the socket in slot `i`. -/
def modifySock (w : Worker) (i : ℕ) (f : Socket → Socket) : Worker :=
  { w with sock := Function.update w.sock i (f (w.sock i)) }

/-- `add_node(head, node)` -/
def addNode (w : Worker) (head node : Cell) : Worker :=
  { w with links := w.links.addNode head node }

/-- `assert(rm_node(head, node))`. A list without cycle has at most `capacity` nodes. -/
def assertRmNode (w : Worker) (head node : Cell) : Except Abort Worker :=
  match w.links.rmNode node (w.capacity + 1) head with
  | none => .error .endless
  | some (false, _) => .error .nodeRemoved
  | some (true, links) => .ok { w with links }

/-! ## `resource.c` -/

/-- `alloc_resource(&m_sockets_cache)` -/
def allocResource (w : Worker) : Except Abort (Option ℕ × Worker) :=
  match w.links .freeList with
  | none => .ok (none, w)
  | some (.node i) => do
    let w ← w.assertRmNode .freeList (.node i)
    let w := { w with used := w.used + 1 }
    if (w.sock i).belong then .error .belong
    else .ok (some i, w.modifySock i fun s => { s with belong := true })
  | some _ => .error .wildPointer

/-- `free_resource(&m_sockets_cache, p_elemt)` -/
def freeResource (w : Worker) (i : ℕ) : Except Abort Worker :=
  if w.capacity ≤ i then .ok w
  else
    let w := w.addNode .freeList (.node i)
    let w := { w with used := w.used - 1 }
    if !(w.sock i).belong then .error .belong
    else .ok (w.modifySock i fun s => { s with belong := false })

/-! ## `socket.c` -/

/-- `close(fd)`: the kernel also drops the descriptor from the interest list. -/
def closeFd (w : Worker) (fd : ℤ) : Worker :=
  { w.record (.closeFd fd) with
    openFds := w.openFds.erase fd
    interest := fun x => if x = fd then none else w.interest x }

/-- `hixo_create_socket(p_sock, fd, type, ..)`, which always returns `HIXO_OK`. -/
def hixoCreateSocket (w : Worker) (i : ℕ) (fd : ℤ) (type : SockType)
    (readHandler : Option ReadHandler) (writeHandler disconnectHandler : Option Callback) :
    Worker :=
  w.modifySock i fun s =>
    { s with
      readHandler
      writeHandler := match type with
        | .listen => none
        | .cmnct => writeHandler
      disconnectHandler := match type with
        | .listen => none
        | .cmnct => disconnectHandler
      eventTypes := match type with
        | .listen => hixoEventIn ||| hixoEventFlags
        | .cmnct => hixoEventIn ||| hixoEventOut ||| hixoEventFlags
      fd
      readbufQueue := []
      writebufQueue := []
      stale := !s.stale
      readable := false
      writable := false
      close := false }

/-- `hixo_destroy_socket(p_sock)` -/
def hixoDestroySocket (w : Worker) (i : ℕ) : Worker := w.closeFd (w.sock i).fd

end Worker

end Hixo
