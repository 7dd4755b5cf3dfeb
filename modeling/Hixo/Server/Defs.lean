import Hixo.SimpleHttp.Defs
import Hixo.Worker.Runs

/-!
# The whole server

The event loop with the two app modules that are compiled in: the callbacks that the loop calls are
the handlers of `echo.c` and `simple_http.c`, on connections that keep their buffers and what was
sent on them. What a connection is like follows from the log of the worker.

* `apps`: the app modules of `gap_modules`;
* `World`: what `readv` and `writev` give, at the time of a callback;
* `World.handle`: the handlers;
* `World.conn`: the connection in a slot, after what the log says;
* `World.callback`, `World.Admits`, `World.Serves`: the event loop with these handlers.

The time of a callback is the length of the log before it.
-/

namespace Hixo.Server

open Worker Echo

/-- `s_echo_ctx` with `sa_echo_srvs`. The handlers are numbered as they stand there. -/
def echoCtx : AppCtx := ⟨0, some 1, some 2, some 3, [⟨"0.0.0.0", 8001, 0⟩]⟩

/-- `s_simple_http_ctx` with `sa_simple_http_srvs`. -/
def simpleHttpCtx : AppCtx :=
  ⟨4, some 5, some 6, some 7, [⟨"0.0.0.0", 8002, 0⟩, ⟨"0.0.0.0", 8003, 0⟩]⟩

/-- The app modules of `gap_modules`. -/
def apps : List AppCtx := [echoCtx, simpleHttpCtx]

/-- The other ends of the connections, as the system calls in the handlers see them. -/
structure World where
  /-- The results of `readv` in a callback at this time. -/
  readv : ℕ → List ReadvResult
  /-- The results of `writev` in a callback at this time. -/
  writev : ℕ → Echo.Env

/-- The buffers of `m_readbuf_queue` from a node on, at most `n`. -/
def queueFrom (links : RingHeap Echo.Cell) : ℕ → Echo.Cell → List ℕ
  | n + 1, .bufNode i => i :: queueFrom links n (links.next (.bufNode i))
  | _, _ => []

/-- The buffers of `m_readbuf_queue`. -/
def queue (s : Conn) : List ℕ := queueFrom s.links s.count (s.links.next .readbufQueue)

/-- The memory of a slot before its first connection. -/
def blank : Conn where
  links := { next := id, prev := id }
  bufs := fun _ => none
  count := 0
  readable := false
  close := false
  shutdown := false
  sent := []
  writes := 0
  destroyed := []
  freed := []

/-- `hixo_create_socket` for a new connection. -/
def accepted (s : Conn) : Conn :=
  { s with
    links := s.links.init .readbufQueue
    readable := false
    close := false
    shutdown := false
    sent := []
    writes := 0 }

namespace World

variable (world : World)

/-- The handlers, called at time `t`. Those that are not listed do nothing. A read handler is called
only when `m_readable` is set. -/
def handle (t : ℕ) (kind : CallbackKind) (f : Callback) (s : Conn) : Except Fault Conn :=
  match kind, f with
  | .read, 1 => echoHandleRead (world.writev t) (world.readv t) { s with readable := true }
  | .disconnect, 3 => echoHandleDisconnect s
  | .read, 5 => SimpleHttp.simpleHttpHandleRead (world.writev t) { s with readable := true }
  | _, _ => .ok s

/-- What an entry of the log at time `t` means for the connection in slot `i`. -/
def step (i t : ℕ) (e : LogEntry) (s : Conn) : Except Fault Conn :=
  match e with
  | .opened j => .ok (if j = i then accepted s else s)
  | .callback kind j f _ => if j = i then world.handle t kind f s else .ok s
  | _ => .ok s

/-- The connection in slot `i` after these entries, from time `t` on. -/
def replay (i : ℕ) : ℕ → List LogEntry → Conn → Except Fault Conn
  | _, [], s => .ok s
  | t, e :: es, s => do
    let s ← world.step i t e s
    replay i (t + 1) es s

/-- The connection in slot `i`, or the last one that was there. -/
def conn (i : ℕ) (log : List LogEntry) : Except Fault Conn := world.replay i 0 log blank

/-- What a callback does to the socket. A handler that breaks off has no effect here. -/
def callback (w : Worker) (kind : CallbackKind) (i : ℕ) (f : Callback) : AppEffect :=
  let sock := w.sock i
  match world.conn i w.log >>= world.handle w.log.length kind f with
  | .error _ => ⟨sock.close, sock.readable, sock.readbufQueue, sock.writebufQueue⟩
  | .ok s =>
    ⟨s.close, if kind = .read then s.readable else sock.readable, queue s, sock.writebufQueue⟩

/-- Environments whose callbacks are the handlers of the two modules. -/
structure Admits (env : Hixo.Env) : Prop where
  valid : env.Valid
  callback : env.callback = world.callback

/-- The runs of a worker with the handlers of the two modules. The flag says whether `event_loop`
goes on. -/
def Serves (w₀ : Worker) (ok : Bool) (w : Worker) : Prop := RunUnder world.Admits w₀ ok w

end World

end Hixo.Server
