import Hixo.Worker.State

/-!
# The event loop

`epoll_module.c` and the run loop of `event_core_module.c`, from one call of
`epoll_process_events` to the end of the traversal of `mp_posted_events`.

* `epollAddEvent`, `epollDelEvent`, `epollProcessEvents`: the epoll module;
* `hixoHandleAccept`, `hixoHandleClose`: what the event core does with connections;
* `eventLoopBody`: one pass through the loop of `event_loop`.
-/

namespace Hixo

namespace Worker

/-! ## `epoll_module.c` -/

/-- `epoll_add_event(p_sock)`: whether it returns `HIXO_OK`. -/
def epollAddEvent (env : Env) (w : Worker) (i : ℕ) : Bool × Worker :=
  let rslt := env.addEvent w i
  let w := w.record (.addEvent i rslt)
  match rslt with
  | .ok =>
    let s := w.sock i
    (true, { w with
      interest := fun x => if x = s.fd then some ⟨i, s.stale, s.eventTypes⟩ else w.interest x })
  | .eexist => (true, w)
  | _ => (false, w)

/-- `epoll_del_event(p_sock)`: whether it returns `HIXO_OK`. -/
def epollDelEvent (env : Env) (w : Worker) (i : ℕ) : Bool × Worker :=
  let rslt := env.delEvent w i
  let w := w.record (.delEvent i rslt)
  match rslt with
  | .ok => (true, { w with
      interest := fun x => if x = (w.sock i).fd then none else w.interest x })
  | .enoent => (true, w)
  | _ => (false, w)

/-- The loop that adds the listeners, at the indices that are left. -/
def addListeners (env : Env) : List ℕ → Worker → Except Abort Worker
  | [], w => .ok w
  | k :: ks, w =>
    match w.servers[k]? with
    | none => .ok w
    | some server =>
      if server.tagged then .error .serverAligned
      else
        match epollAddEvent env w server.slot with
        | (true, w) => addListeners env ks w
        | (false, w) =>
          .ok { w with servers := w.servers.modify k fun server => { server with tagged := true } }

/-- The loop that deletes the listeners, at the indices that are left. -/
def delListeners (env : Env) : List ℕ → Worker → Worker
  | [], w => w
  | k :: ks, w =>
    match w.servers[k]? with
    | none => w
    | some server =>
      if server.tagged then
        delListeners env ks
          { w with servers := w.servers.modify k fun server => { server with tagged := false } }
      else
        match epollDelEvent env w server.slot with
        | (true, w) => delListeners env ks w
        | (false, w) => w

/-- The events of `p_epev`, after an error or a hang-up was turned into both directions. -/
def widenEvents (events : BitVec 32) : BitVec 32 :=
  if (hixoEventErr ||| hixoEventHup) &&& events ≠ 0 then
    events ||| (hixoEventIn ||| hixoEventOut)
  else events

/-- The body of the loop over the events of `epoll_wait`. -/
def postEvent (w : Worker) (ev : EpollEvent) : Worker :=
  if (w.sock ev.slot).fd = -1 ∨ ev.stale ≠ (w.sock ev.slot).stale then w
  else
    let readable := decide (hixoEventIn &&& widenEvents ev.events ≠ 0)
    let writable := decide (hixoEventOut &&& widenEvents ev.events ≠ 0)
    let w := w.modifySock ev.slot fun s => { s with readable, writable }
    if writable || readable then w.addNode .postedEvents (.postedNode ev.slot) else w

/-- Whether the worker gets the accept lock. -/
def tryAcceptLock (env : Env) (w : Worker) : Worker :=
  if 0 < w.power then
    let held := env.trySpinlock w
    { w.record (.trySpinlock held) with holdLock := held }
  else { w with holdLock := false }

/-- Add the listeners, if the worker has the accept lock. -/
def watchListeners (env : Env) (w : Worker) : Except Abort Worker :=
  if w.holdLock then addListeners env (List.range w.servers.length) w else .ok w

/-- Delete the listeners, if the worker has the accept lock. -/
def unwatchListeners (env : Env) (w : Worker) : Worker :=
  if w.holdLock then delListeners env (List.range w.servers.length) w else w

/-- The common exit: unlock, if the worker has the accept lock. -/
def releaseAcceptLock (w : Worker) : Worker :=
  if w.holdLock then { w.record .spinlockUnlock with holdLock := false } else w

/-- `epoll_process_events(timer)`: whether it returns `HIXO_OK`. -/
def epollProcessEvents (env : Env) (w : Worker) : Except Abort (Bool × Worker) := do
  let w ← watchListeners env (tryAcceptLock env w)
  if w.links .postedEvents ≠ none then .error .postedEmpty
  else
    let rslt := env.wait w
    let w := unwatchListeners env (w.record (.wait rslt))
    match rslt with
    | .eintr => .ok (true, releaseAcceptLock w)
    | .failed => .ok (false, releaseAcceptLock w)
    | .events evs => .ok (true, releaseAcceptLock (evs.foldl postEvent w))

/-! ## Callbacks -/

/-- Call a callback of an app module for slot `i`. -/
def runCallback (env : Env) (w : Worker) (kind : CallbackKind) (i : ℕ) (f : Callback) : Worker :=
  let effect := env.callback w kind i f
  (w.modifySock i fun s =>
    { s with
      close := effect.close
      readable := effect.readable
      readbufQueue := effect.readbufQueue
      writebufQueue := effect.writebufQueue }).record (.callback kind i f effect.close)

/-! ## `hixo_handle_accept` -/

/-- What `accept` does for the listener in slot `l`: a connection has the local port of the
listener. -/
def acceptFd (w : Worker) (l : ℕ) (rslt : AcceptResult) : Worker :=
  let w := w.record (.accept l rslt)
  match rslt with
  | .conn fd =>
    { w with
      openFds := fd :: w.openFds
      localPort := fun x => if x = fd then w.localPort (w.sock l).fd else w.localPort x }
  | _ => w

/-- The search over `m_app_ctx_list` for a server with the local port of `fd`. -/
def findApp (w : Worker) (fd : ℤ) : Option AppCtx :=
  w.appCtxList.find? fun ctx => ctx.servers.any fun server => server.port = w.localPort fd

/-- Put slot `i` on `mp_connections` and take one unit of power. -/
def putConnection (w : Worker) (i : ℕ) : Worker :=
  let w := w.addNode .connections (.node i)
  { w with power := w.power - 1 }.record (.opened i)

/-- How the body of the loop of `hixo_handle_accept` ends. -/
inductive AcceptStep
  /-- By a `break`. -/
  | brk (w : Worker)
  /-- By a `continue` or at its end, with the value of `p_app_ctx`. -/
  | cont (ctx : Option AppCtx) (w : Worker)

/-- The body of the loop of `hixo_handle_accept`, entered with the value of `p_app_ctx` that the
pass before left. -/
def acceptBody (env : Env) (accept : Worker → AcceptResult) (l : ℕ) (ctx : Option AppCtx)
    (w : Worker) : Except Abort AcceptStep := do
  match ← w.allocResource with
  | (none, w) => .ok (.brk w)
  | (some i, w) =>
    let rslt := accept w
    let w := w.acceptFd l rslt
    match rslt with
    | .eagain => .ok (.brk (← w.freeResource i))
    | .econnaborted => .ok (.cont ctx (← w.freeResource i))
    | .failed => .ok (.brk (← w.freeResource i))
    | .conn fd =>
      match (w.findApp fd).or ctx with
      | none => .error .appFound
      | some ctx =>
        let w := w.hixoCreateSocket i fd .cmnct (ctx.handleRead.map .app) ctx.handleWrite
          ctx.handleDisconnect
        match epollAddEvent env w i with
        | (false, w) =>
          let w := w.hixoDestroySocket i
          .ok (.cont (some ctx) (← w.freeResource i))
        | (true, w) =>
          .ok (.cont (some ctx) (runCallback env (w.putConnection i) .connect i ctx.handleConnect))

/-- The loop of `hixo_handle_accept`, where `accept` reports `EAGAIN` after `n` other results. -/
def acceptLoop (env : Env) (l : ℕ) : ℕ → Option AppCtx → Worker → Except Abort Worker
  | 0, ctx, w => do
    match ← acceptBody env (fun _ => .eagain) l ctx w with
    | .brk w => .ok w
    | .cont _ w => .ok w
  | n + 1, ctx, w => do
    match ← acceptBody env env.accept l ctx w with
    | .brk w => .ok w
    | .cont ctx w => acceptLoop env l n ctx w

/-- `hixo_handle_accept(p_sock)` -/
def hixoHandleAccept (env : Env) (w : Worker) (l : ℕ) : Except Abort Worker :=
  let w := w.record (.handleAccept l)
  acceptLoop env l (env.pending w) none w

/-! ## `hixo_handle_close` -/

/-- `hixo_handle_close(p_sock)` -/
def hixoHandleClose (env : Env) (w : Worker) (i : ℕ) : Except Abort Worker := do
  let w := w.record (.handleClose i)
  let w := w.modifySock i fun s => { s with readable := false, writable := false }
  let w := (epollDelEvent env w i).2
  let w := w.hixoDestroySocket i
  let w ← w.assertRmNode .connections (.node i)
  let w ← w.freeResource i
  .ok { w with power := w.power + 1 }

/-! ## `event_loop` -/

/-- The first test in the visit of a posted socket: call its read handler. -/
def visitRead (env : Env) (w : Worker) (i : ℕ) : Except Abort Worker :=
  if (w.sock i).readable then
    match (w.sock i).readHandler with
    | none => .ok w
    | some .hixoHandleAccept => hixoHandleAccept env w i
    | some (.app f) => .ok (runCallback env w .read i f)
  else .ok w

/-- The second test: close the connection when that was asked for. -/
def visitClose (env : Env) (w : Worker) (i : ℕ) : Except Abort Worker :=
  if (w.sock i).close then
    match (w.sock i).disconnectHandler with
    | none => hixoHandleClose env w i
    | some f => hixoHandleClose env (runCallback env w .disconnect i f) i
  else .ok w

/-- The third test: call its write handler. -/
def visitWrite (env : Env) (w : Worker) (i : ℕ) : Worker :=
  if (w.sock i).writable then
    match (w.sock i).writeHandler with
    | none => w
    | some f => runCallback env w .write i f
  else w

/-- The body of the loop over `mp_posted_events`. -/
def visit (env : Env) (w : Worker) (i : ℕ) : Except Abort Worker := do
  let w ← visitRead env w i
  let w ← visitClose env w i
  let w := visitWrite env w i
  w.assertRmNode .postedEvents (.postedNode i)

/-- The loop over `mp_posted_events` from a node on, which has at most as many passes as there
are slots. -/
def traverse (env : Env) : ℕ → Option Cell → Worker → Except Abort Worker
  | _, none, w => .ok w
  | 0, some _, _ => .error .endless
  | n + 1, some (.postedNode i), w => do
    let next := w.links (.postedNode i)
    let w ← visit env w i
    traverse env n next w
  | _ + 1, some _, _ => .error .wildPointer

/-- The body of the loop of `event_loop`: whether the loop goes on. -/
def eventLoopBody (env : Env) (w : Worker) : Except Abort (Bool × Worker) := do
  let (ok, w) ← epollProcessEvents env w
  if ok then
    let w ← traverse env w.capacity (w.links .postedEvents) w
    .ok (true, w)
  else .ok (false, w)

end Worker

end Hixo
