import Hixo.Server.Handlers
import Hixo.Worker.Callbacks
import Hixo.Worker.Protocol

/-!
# Runs of the whole server

What the event loop and the handlers of the two modules do together. Between two passes no slot has
a buffer, whatever clients connect, send and close, and each read callback replies once.

* `Reply`, `RepliesOnce`: a read callback answers, and the connection is closed at once;
* `Serving`: what holds of a slot between two visits;
* `Serving.visit`, `Serving.traverse`, `World.Serves.serving`: a visit, a pass, a run;
* `server_frees_buffers`: all buffers are freed.
-/

namespace Hixo.Server

open Worker Echo Monitor

variable {world : World} {i k l : ℕ} {before tr : List LogEntry} {e : LogEntry} {s : Conn}
  {free free' posted : List ℕ}

/-! ## The connection after a log -/

theorem replay_append {l l' : List LogEntry} {t : ℕ} :
    world.replay i t (l ++ l') s = world.replay i t l s >>= world.replay i (t + l.length) l' := by
  induction l generalizing t s with
  | nil => rfl
  | cons e l ih =>
    rw [List.cons_append, World.replay, World.replay]
    cases world.step i t e s with
    | error fault => rfl
    | ok s' =>
      rw [Programs.ok_bind, Programs.ok_bind, ih, List.length_cons, Nat.add_right_comm t 1,
        Nat.add_assoc]

/-- The connection of a slot after one more entry is what this entry makes of it. -/
theorem conn_snoc (hconn : world.conn i before = .ok s) :
    world.conn i (before ++ [e]) = world.step i before.length e s := by
  rw [World.conn, replay_append, show world.replay i 0 before blank = .ok s from hconn,
    Programs.ok_bind, Nat.zero_add, World.replay]
  cases world.step i before.length e s <;> rfl

/-- An entry that does not change the connection in slot `i`. -/
def LogEntry.Idle (i : ℕ) : LogEntry → Prop
  | .opened j => j ≠ i
  | .callback .read j _ _ => j ≠ i
  | .callback .disconnect j _ _ => j ≠ i
  | _ => True

/-- An entry that is idle for a slot leaves its connection alone. -/
theorem step_idle {t : ℕ} (he : LogEntry.Idle i e) : world.step i t e s = .ok s := by
  cases e with
  | opened j => exact congrArg Except.ok (if_neg he)
  | callback kind j f close =>
    cases kind with
    | read | disconnect => exact if_neg he
    | connect | write => exact ite_self _
  | _ => rfl

/-- Entries that are idle for a slot leave its connection alone. -/
theorem conn_idle (hconn : world.conn i before = .ok s) (htr : ∀ e ∈ tr, LogEntry.Idle i e) :
    world.conn i (before ++ tr) = .ok s := by
  induction tr generalizing before with
  | nil => rwa [List.append_nil]
  | cons e tr ih =>
    have hone := (conn_snoc hconn).trans (step_idle (htr e List.mem_cons_self))
    have hall := ih hone fun e he => htr e (List.mem_cons_of_mem _ he)
    rwa [List.append_assoc] at hall

/-- An entry that neither visits nor opens a slot is idle for it. -/
theorem idle_of_not (he : ¬e.Visits i ∧ ¬e.Opens i) : LogEntry.Idle i e := by
  cases e with
  | opened j => exact he.2
  | callback kind j f close =>
    cases kind with
    | read | disconnect => exact he.1
    | connect | write => trivial
  | _ => trivial

/-! ## What a callback leaves in `m_close` -/

/-- A callback of the log left `m_close` as the handlers of the two modules do. -/
def World.Allows (world : World) (before : List LogEntry) : LogEntry → Prop
  | .callback kind i f close =>
    ∀ s, world.conn i before >>= world.handle before.length kind f = .ok s → close = s.close
  | _ => True

theorem allows_of_from {env : Hixo.Env} (hcallback : env.callback = world.callback)
    (he : e.From env before) : world.Allows before e := by
  cases e with
  | callback kind j f close =>
    obtain ⟨w, rfl, rfl⟩ := he
    intro s hs
    rw [hcallback, World.callback, hs]
  | _ => trivial

/-! ## Answers -/

/-- A read callback `f` on slot `i` after `pre` sends its reply. The disconnect callback and the
closing of the slot come next. -/
structure Reply (world : World) (i : ℕ) (pre : List LogEntry) (f : Callback) (close : Bool)
    (post : List LogEntry) : Prop where
  sent : ∃ s s', world.conn i pre = .ok s ∧
    world.conn i (pre ++ [.callback .read i f close]) = .ok s' ∧
    s'.sent = s.sent ++ world.reply pre.length f
  closed : ∃ ctx ∈ apps, ctx.handleRead = some f ∧ ∃ g, ctx.handleDisconnect = some g ∧
    ∃ close' post', post = .callback .disconnect i g close' :: .handleClose i :: post'

/-- Every read callback on slot `i` replies. -/
def RepliesOnce (world : World) (i : ℕ) (log : List LogEntry) : Prop :=
  ∀ pre f close post, log = pre ++ .callback .read i f close :: post →
    Reply world i pre f close post

theorem RepliesOnce.append (h : RepliesOnce world i before)
    (hnew : ∀ pre f close post, tr = pre ++ .callback .read i f close :: post →
      Reply world i (before ++ pre) f close post) : RepliesOnce world i (before ++ tr) := by
  intro pre f close post hlog
  rcases List.append_eq_append_iff.mp hlog with ⟨m, rfl, htr⟩ | ⟨m, rfl, htr⟩
  · exact hnew m f close post htr
  · cases m with
    | nil => simpa using hnew [] f close post htr.symm
    | cons x m =>
      -- the callback came before, and its disconnect and its close are still next
      obtain ⟨rfl, rfl⟩ := List.cons.inj htr
      obtain ⟨hsent, ctx, hctx, hread, g, hdisconnect, close', post', rfl⟩ := h pre f close m rfl
      exact ⟨hsent, ctx, hctx, hread, g, hdisconnect, close', post' ++ tr, rfl⟩

/-! ## Between two visits -/

/-- The slot has no buffers, and all read callbacks so far have replied. -/
structure Serving (world : World) (i : ℕ) (log : List LogEntry) : Prop where
  rest : ∃ s, world.conn i log = .ok s ∧ AtRest s
  replies : world.Generous → RepliesOnce world i log

namespace Serving

/-- A slot that is at rest after an entry that is no read callback. -/
theorem snoc {s' : Conn} (h : Serving world i before)
    (hconn : world.conn i (before ++ [e]) = .ok s') (hrest : AtRest s')
    (he : ∀ f close, e ≠ .callback .read i f close) :
    Serving world i (before ++ [e]) := by
  refine ⟨⟨s', hconn, hrest⟩, fun hgenerous => (h.replies hgenerous).append ?_⟩
  intro pre f close post htr
  have hmem : LogEntry.callback .read i f close ∈ [e] := by simp [htr]
  exact absurd (List.mem_singleton.mp hmem).symm (he f close)

/-- A slot that is served stays so when entries follow that are idle for it or open it. -/
theorem quiet (h : Serving world i before)
    (htr : ∀ e ∈ tr, LogEntry.Idle i e ∨ e = .opened i) : Serving world i (before ++ tr) := by
  induction tr generalizing before with
  | nil => rwa [List.append_nil]
  | cons e tr ih =>
    obtain ⟨s, hconn, hrest⟩ := h.rest
    have h₁ : Serving world i (before ++ [e]) := by
      rcases htr e List.mem_cons_self with he | rfl
      · refine h.snoc ((conn_snoc hconn).trans (step_idle he)) hrest fun f close heq => ?_
        exact absurd rfl (heq ▸ he : LogEntry.Idle i (.callback .read i f close))
      · refine h.snoc ((conn_snoc hconn).trans ?_) hrest.accepted nofun
        exact congrArg Except.ok (if_pos rfl)
    have h₂ := ih h₁ fun e he => htr e (List.mem_cons_of_mem _ he)
    rwa [List.append_assoc] at h₂

/-- The second test of a visit, with its disconnect callback, leaves the buffers of the slot freed.
-/
theorem close {handler : Option Callback} {closed : Bool} (h : Serving world i before)
    (htr : CloseTrace k handler closed free free' tr) : Serving world i (before ++ tr) := by
  cases htr with
  | skip => rwa [List.append_nil]
  | quiet => exact h.quiet (by simp [LogEntry.Idle])
  | callback rslt fd g close' =>
    by_cases hk : k = i
    · subst hk
      obtain ⟨s, hconn, hrest⟩ := h.rest
      obtain ⟨u, hrun, hrest'⟩ :
          ∃ u, world.handle before.length .disconnect g s = .ok u ∧ AtRest u :=
        hrest.disconnect before.length g
      have h₁ : Serving world k (before ++ [.callback .disconnect k g close']) :=
        h.snoc ((conn_snoc hconn).trans ((if_pos rfl).trans hrun)) hrest' nofun
      have h₂ : Serving world k (before ++ [.callback .disconnect k g close'] ++
          [.handleClose k, .delEvent k rslt, .closeFd fd]) :=
        h₁.quiet (by simp [LogEntry.Idle])
      rwa [List.append_assoc] at h₂
    · exact h.quiet (by simp [LogEntry.Idle, hk])

/-- A read callback and the second test after it leave the slot without buffers, and the client
answered. -/
theorem read (h : Serving world i before) (hworld : world.Sane) {ctx : AppCtx} {f g : Callback}
    {close : Bool} (hctx : ctx ∈ apps) (hread : ctx.handleRead = some f)
    (hdisconnect : ctx.handleDisconnect = some g)
    (hallows : world.Allows before (.callback .read i f close))
    (htr : CloseTrace i (some g) close free free' tr) :
    Serving world i (before ++ .callback .read i f close :: tr) := by
  obtain ⟨s, hconn, hrest⟩ := h.rest
  obtain ⟨s', hrun, hopen, hfrees, hsent⟩ :=
    hrest.serve hworld hctx hread hdisconnect before.length
  have hconn' : world.conn i (before ++ [.callback .read i f close]) = .ok s' :=
    (conn_snoc hconn).trans ((if_pos rfl).trans hrun)
  have hclose : close = s'.close := hallows s' (by rw [hconn]; exact hrun)
  cases htr with
  | skip =>
    refine ⟨⟨s', hconn', hopen hclose.symm⟩, fun hgenerous => ?_⟩
    exact absurd (hclose.trans (hsent hgenerous).1) (by decide)
  | callback rslt fd _ close' =>
    obtain ⟨u, hrun', hrest'⟩ := hfrees (before ++ [LogEntry.callback .read i f true]).length
    have hconn'' : world.conn i (before ++ [.callback .read i f true] ++
        [.callback .disconnect i g close']) = .ok u :=
      (conn_snoc hconn').trans ((if_pos rfl).trans hrun')
    have hlast : world.conn i (before ++ [.callback .read i f true] ++
        [.callback .disconnect i g close'] ++ [.handleClose i, .delEvent i rslt, .closeFd fd]) =
          .ok u :=
      conn_idle hconn'' (by simp [LogEntry.Idle])
    simp only [List.append_assoc, List.cons_append, List.nil_append] at hlast
    refine ⟨⟨u, hlast, hrest'⟩, fun hgenerous => (h.replies hgenerous).append ?_⟩
    -- the read callback is the first entry, and the only one
    intro pre f' close'' post htr
    cases pre with
    | nil =>
      obtain ⟨heq, rfl⟩ := List.cons.inj htr
      obtain ⟨-, -, rfl, rfl⟩ := LogEntry.callback.inj heq
      rw [List.append_nil]
      exact ⟨⟨s, s', hconn, hconn', (hsent hgenerous).2⟩, ctx, hctx, hread, g, hdisconnect, close',
        _, rfl⟩
    | cons x pre =>
      obtain ⟨-, htr⟩ := List.cons.inj htr
      have hmem : LogEntry.callback .read i f' close'' ∈ [LogEntry.callback .disconnect i g close',
          .handleClose i, .delEvent i rslt, .closeFd fd] := by simp [htr]
      simp at hmem

/-- The accept loop opens slots, and does nothing else to their connections. -/
theorem accept (h : Serving world i before) (htr : AcceptTrace l free free' tr) :
    Serving world i (before ++ tr) := by
  refine h.quiet fun e he => ?_
  have hwithin := htr.within he
  cases e with
  | opened j =>
    by_cases hj : j = i
    · exact .inr (congrArg _ hj)
    · exact .inl hj
  | callback kind j f close =>
    cases kind with
    | read | disconnect => exact hwithin.elim
    | connect | write => exact .inl trivial
  | _ => exact .inl trivial

/-- The third test of a visit does nothing to the connection, as neither module has anything to
write. -/
theorem write {closed writable : Bool} {handler : Option Callback} (h : Serving world i before)
    (htr : WriteTrace k writable handler closed tr) : Serving world i (before ++ tr) := by
  cases htr with
  | skip => rwa [List.append_nil]
  | callback f close => exact h.quiet (by simp [LogEntry.Idle])

/-- A visit leaves the slot served, when it is that of a listener or of a connection of one of the
modules. -/
theorem visit {sock : Socket} (h : Serving world i before) (hworld : world.Sane)
    (htr : VisitTrace sock k free free' tr)
    (hsock : k = i → sock.readHandler = some .hixoHandleAccept ∨ ∃ ctx ∈ apps,
      sock.readHandler = ctx.handleRead.map .app ∧ sock.disconnectHandler = ctx.handleDisconnect)
    (hallows : ∀ pre e post, tr = pre ++ e :: post → world.Allows (before ++ pre) e) :
    Serving world i (before ++ tr) := by
  obtain ⟨hread, hclose, hwrite⟩ := htr
  rename_i closed free₁ tr₁ tr₂ tr₃
  have hassoc : before ++ (tr₁ ++ (tr₂ ++ tr₃)) = before ++ (tr₁ ++ tr₂) ++ tr₃ := by
    simp only [List.append_assoc]
  rw [hassoc]
  refine Serving.write ?_ hwrite
  cases hread with
  | skip => exact h.close hclose
  | @accept _ _ tr _ _ hacc =>
    have h₁ : Serving world i (before ++ [.handleAccept k]) := h.quiet (by simp [LogEntry.Idle])
    have h₂ := (h₁.accept hacc).close hclose
    simpa only [List.append_assoc, List.singleton_append, List.cons_append, List.nil_append]
      using h₂
  | @app _ f _ _ hhandler =>
    by_cases hk : k = i
    · subst hk
      rcases hsock rfl with hlistener | ⟨ctx, hctx, hctxRead, hctxDisconnect⟩
      · rw [hlistener] at hhandler
        cases hhandler
      · rw [hctxRead] at hhandler
        obtain ⟨f', hf', heq⟩ := Option.map_eq_some_iff.mp hhandler
        obtain rfl := ReadHandler.app.inj heq
        obtain ⟨g, hg⟩ : ∃ g, ctx.handleDisconnect = some g := by
          rcases List.mem_cons.mp hctx with rfl | hctx
          · exact ⟨3, rfl⟩
          · obtain rfl := List.mem_singleton.mp hctx
            exact ⟨7, rfl⟩
        rw [hctxDisconnect, hg] at hclose
        have hentry := hallows [] _ (tr₂ ++ tr₃) rfl
        rw [List.append_nil] at hentry
        exact h.read hworld hctx hf' hg hentry hclose
    · have h₁ : Serving world i (before ++ [.callback .read k f closed]) :=
        h.quiet (by simp [LogEntry.Idle, hk])
      have h₂ := h₁.close hclose
      rwa [List.append_assoc] at h₂

/-- The traversal leaves the slot served, when its socket is a listener or a connection of one of
the modules. -/
theorem traverse {sock : ℕ → Socket} (h : Serving world i before) (hworld : world.Sane)
    (htr : TraverseTrace sock posted free free' tr)
    (hsock : i ∈ posted → (sock i).readHandler = some .hixoHandleAccept ∨ ∃ ctx ∈ apps,
      (sock i).readHandler = ctx.handleRead.map .app ∧
        (sock i).disconnectHandler = ctx.handleDisconnect)
    (hallows : ∀ pre e post, tr = pre ++ e :: post → world.Allows (before ++ pre) e) :
    Serving world i (before ++ tr) := by
  induction htr generalizing before with
  | nil => rwa [List.append_nil]
  | @cons k posted free free₁ free₂ tr tr' hvisit _ ih =>
    have h₁ := h.visit hworld hvisit (fun hk => hk ▸ hsock (hk ▸ List.mem_cons_self))
      fun pre e post heq => hallows pre e (post ++ tr') (by simp [heq])
    rw [← List.append_assoc]
    refine ih h₁ (fun hi => hsock (List.mem_cons_of_mem _ hi)) fun pre e post heq => ?_
    rw [List.append_assoc]
    exact hallows (tr ++ pre) e post (by simp [heq])

end Serving

/-! ## Runs -/

/-- After each pass of a run the worker is consistent, its ring has the two modules, and every slot
was served. -/
theorem World.Serves.serving {boot : BootEnv} {maxConnections : ℕ} {w₀ w : Worker} {ok : Bool}
    (hrun : world.Serves w₀ ok w) (hboot : boot.FreshFds)
    (hstart : startWorker boot maxConnections apps = .ok (some w₀)) (hworld : world.Sane) (i : ℕ) :
    ∃ free conns, Consistent w₀.power w [] free conns [] ∧
      w.appCtxList = apps.reverse.map appInitWorker ∧ Serving world i w.log := by
  induction hrun with
  | start =>
    obtain ⟨free, h₀, hlog, happs, -⟩ := consistent_of_startWorker hboot hstart
    refine ⟨free, _, h₀, happs, ?_⟩
    have hblank : Serving world i [] := by
      refine ⟨⟨blank, rfl, atRest_blank⟩, fun _ pre f close post heq => ?_⟩
      have hmem := congrArg List.length heq
      simp at hmem
    refine hblank.quiet fun e he => .inl ?_
    have hbooting := hlog e he
    cases e <;> trivial
  | @step env ok w w' _ henv hstep ih =>
    obtain ⟨free, conns, hcons, happs, hserving⟩ := ih
    rcases hcons.eventLoopBody henv.valid with
      ⟨ok', w₁, w'', free', conns', posted, rslt, poll, tr, hbody, hiter⟩ | ⟨-, herror⟩
    swap
    · rw [hstep] at herror
      cases herror
    rw [hstep, Except.ok.injEq, Prod.mk.injEq] at hbody
    obtain ⟨-, rfl⟩ := hbody
    refine ⟨free', conns', hiter.consistent, hiter.appCtxList.trans happs, ?_⟩
    have hgrows : Grows world.Allows w.log w'.log :=
      (Calls.eventLoopBody hstep).mono fun _ _ he => allows_of_from henv.callback he
    rw [hiter.log, ← List.append_assoc]
    refine (hserving.quiet fun e he => .inl (idle_of_not (hiter.polled.slots he i))).traverse hworld
      hiter.trace (fun hi => ?_) fun pre e post heq => ?_
    · -- a posted socket is a listener or a connection
      have hconns := hiter.polled.posted_subset hi
      have hroles := hiter.polled.consistent.roles
      by_cases hl : i ∈ w₁.listeners
      · exact .inl (hroles.listener i hl).readHandler
      · obtain ⟨ctx, hctx, hread, -, hdisconnect⟩ := hroles.connection i hconns hl
        rw [hiter.polled.appCtxList, happs] at hctx
        obtain ⟨ctx₀, hctx₀, rfl⟩ := List.mem_map.mp hctx
        exact .inr ⟨ctx₀, List.mem_reverse.mp hctx₀, hread, hdisconnect⟩
    · have hsplit : w'.log = (w.log ++ poll ++ pre) ++ e :: post := by
        rw [hiter.log, heq]
        simp only [List.append_assoc]
      refine hgrows.allowed hsplit ?_
      · rw [List.append_assoc]
        exact List.prefix_append ..

/-- In every run of the server, whatever the clients do, no handler breaks off, and between two
passes no slot has a buffer: every buffer that was ever created was destroyed and freed, and that
once. -/
theorem server_frees_buffers {boot : BootEnv} {maxConnections : ℕ} {w₀ w : Worker} {ok : Bool}
    (hboot : boot.FreshFds) (hstart : startWorker boot maxConnections apps = .ok (some w₀))
    (hworld : world.Sane) (hrun : world.Serves w₀ ok w) (i : ℕ) :
    ∃ s, world.conn i w.log = .ok s ∧ s.links.IsRing .readbufQueue [] ∧
      s.destroyed = s.freed ∧ s.freed.Perm (List.range s.count) := by
  obtain ⟨-, -, -, -, ⟨s, hconn, hrest⟩, -⟩ := hrun.serving hboot hstart hworld i
  exact ⟨s, hconn, hrest.stored.ring, hrest.accounted⟩

/-! ## A sample run -/

/-- Every client sends two bytes. -/
def sampleWorld : World where
  readv _ := [.data [104, 105], .error .eagain]
  writev _ := generousEnv

theorem sampleWorld_sane : sampleWorld.Sane where
  ends _ := ⟨.error .eagain, by simp [sampleWorld], rfl⟩
  arrives _ _ _ h := by cases h
  moves _ _ n hn h := absurd (WritevResult.accepted.inj h) (Nat.ne_of_gt hn)

/-- All system calls succeed. There is an event for the connection with descriptor 13, or else for
the first listener. -/
def serverEnv : Hixo.Env where
  trySpinlock _ := true
  addEvent _ _ := .ok
  delEvent _ _ := .ok
  wait w :=
    match w.interest 13, w.interest 10 with
    | some r, _ => .events [⟨r.slot, r.stale, hixoEventIn⟩]
    | none, some r => .events [⟨r.slot, r.stale, hixoEventIn⟩]
    | none, none => .eintr
  pending _ := 1
  accept w := .conn (sampleFd w)
  callback := sampleWorld.callback

theorem serverEnv_valid : serverEnv.Valid := by
  refine ⟨fun w fd hfd => ?_, fun w evs hevs => ?_⟩
  · obtain rfl : sampleFd w = fd := AcceptResult.conn.inj hfd
    exact sampleFd_notMem w
  · simp only [serverEnv] at hevs
    split at hevs <;> cases hevs
    next r hr => exact ⟨by simp, by simpa using ⟨13, r, hr, rfl, rfl⟩⟩
    next r _ hr => exact ⟨by simp, by simpa using ⟨10, r, hr, rfl, rfl⟩⟩

/-- The server when it starts, with two slots for connections. -/
def serverStart : Worker :=
  match startWorker sampleBoot 2 apps with
  | .ok (some w) => w
  | _ => {}

/-- The server after `n` passes. -/
def serverPasses : ℕ → Worker
  | 0 => serverStart
  | n + 1 =>
    match eventLoopBody serverEnv (serverPasses n) with
    | .ok (_, w) => w
    | .error _ => {}

theorem startWorker_server : startWorker sampleBoot 2 apps = .ok (some serverStart) := rfl

set_option maxRecDepth 20000 in
/-- In the first pass the connection is accepted. -/
theorem serverPasses_one : eventLoopBody serverEnv serverStart = .ok (true, serverPasses 1) := rfl

set_option maxRecDepth 20000 in
/-- In the second pass the connection is read, answered and closed. -/
theorem serverPasses_two :
    eventLoopBody serverEnv (serverPasses 1) = .ok (true, serverPasses 2) := rfl

theorem serves_sample : sampleWorld.Serves serverStart true (serverPasses 2) :=
  have h₁ : sampleWorld.Serves serverStart true (serverPasses 1) :=
    .step .start ⟨serverEnv_valid, rfl⟩ serverPasses_one
  .step h₁ ⟨serverEnv_valid, rfl⟩ serverPasses_two

theorem server_frees_buffers_sample :
    ∃ s, sampleWorld.conn 1 (serverPasses 2).log = .ok s ∧ s.links.IsRing .readbufQueue [] ∧
      s.destroyed = s.freed ∧ s.freed.Perm (List.range s.count) :=
  server_frees_buffers sampleBoot_fresh startWorker_server sampleWorld_sane serves_sample 1

end Hixo.Server
