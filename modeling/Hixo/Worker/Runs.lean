import Hixo.Worker.Polling
import Hixo.Worker.Start

/-!
# Runs of a worker

A run is a worker from `startWorker` and any number of passes through `event_loop`, each with its
own results of system calls and callbacks.

* `Iterated`: what one pass does, from `epoll_process_events` to the end of the traversal;
* `Consistent.eventLoopBody`: a pass returns unless a pointer in `mpp_servers` is still tagged;
* `Run`, `RunUnder`, `Run.invariant`: runs, and the induction over them;
* `Run.untagged`: no pointer stays tagged as long as `EPOLL_CTL_DEL` succeeds;
* `run_wellFormed`: the lists, counters and descriptors between two passes.
-/

namespace Hixo

open Worker

/-- What is assumed of the kernel: new descriptors are new, and events are about sockets that it
watches. Nothing is assumed of the callbacks. -/
structure Env.Valid (env : Env) : Prop where
  fresh : env.FreshFds
  batches : env.RegisteredBatches

/-! ## One pass -/

/-- One pass from `w` to `w'`: `epoll_wait` gave `rslt`, the worker was `w₁` after
`epoll_process_events`, and the traversal of `posted` recorded `tr`. -/
structure Iterated (power₀ : ℤ) (w w₁ w' : Worker) (free conns free' conns' posted : List ℕ)
    (rslt : WaitResult) (poll tr : List LogEntry) : Prop where
  polled : Polled power₀ w w₁ free conns posted rslt poll
  consistent : Consistent power₀ w' [] free' conns' []
  capacity : w'.capacity = w.capacity
  servers : w'.servers = w₁.servers
  appCtxList : w'.appCtxList = w.appCtxList
  log : w'.log = w.log ++ (poll ++ tr)
  trace : TraverseTrace w₁.sock posted free free' tr
  /-- A connection with `m_close` set had it set before, or was asked for that too late. -/
  close : ∀ j ∈ conns', (w'.sock j).close = true →
    j ∈ conns ∧ j ∉ posted ∧ (w.sock j).close = true ∨ LateClose j tr

theorem Iterated.listeners {power₀ : ℤ} {w w₁ w' : Worker}
    {free conns free' conns' posted : List ℕ} {rslt : WaitResult} {poll tr : List LogEntry}
    (h : Iterated power₀ w w₁ w' free conns free' conns' posted rslt poll tr) :
    w'.listeners = w.listeners :=
  (congrArg (List.map Server.slot) h.servers).trans h.polled.listeners

/-- Polling leaves `m_close` of every socket alone. -/
theorem Polled.close_eq {power₀ : ℤ} {w w₁ : Worker} {free conns posted : List ℕ}
    {rslt : WaitResult} {tr : List LogEntry} (h : Polled power₀ w w₁ free conns posted rslt tr)
    (i : ℕ) : (w₁.sock i).close = (w.sock i).close := by
  by_cases hi : i ∈ rslt.batch.map EpollEvent.slot
  · obtain ⟨ev, hev, rfl⟩ := List.mem_map.mp hi
    rw [h.flags ev hev, Socket.flag]
  · rw [h.sock i hi]

/-- Polling leaves the disconnect handlers alone. -/
theorem Polled.disconnectHandler_eq {power₀ : ℤ} {w w₁ : Worker} {free conns posted : List ℕ}
    {rslt : WaitResult} {tr : List LogEntry} (h : Polled power₀ w w₁ free conns posted rslt tr)
    (i : ℕ) : (w₁.sock i).disconnectHandler = (w.sock i).disconnectHandler := by
  by_cases hi : i ∈ rslt.batch.map EpollEvent.slot
  · obtain ⟨ev, hev, rfl⟩ := List.mem_map.mp hi
    rw [h.flags ev hev, Socket.flag]
  · rw [h.sock i hi]

/-- Polling posts sockets on `mp_connections` only. -/
theorem Polled.posted_subset {power₀ : ℤ} {w w₁ : Worker} {free conns posted : List ℕ}
    {rslt : WaitResult} {tr : List LogEntry} (h : Polled power₀ w w₁ free conns posted rslt tr) :
    posted ⊆ conns := by
  intro i hi
  obtain ⟨ev, hev, rfl, -⟩ := (h.mem_posted i).mp hi
  exact h.subset ev hev

/-- A pass returns, unless a pointer in `mpp_servers` is still tagged. -/
theorem Consistent.eventLoopBody {power₀ : ℤ} {w : Worker} {free conns : List ℕ}
    (h : Consistent power₀ w [] free conns []) {env : Env} (henv : env.Valid) :
    (∃ ok w₁ w' free' conns' posted rslt poll tr, Worker.eventLoopBody env w = .ok (ok, w') ∧
      Iterated power₀ w w₁ w' free conns free' conns' posted rslt poll tr) ∨
      (∃ server ∈ w.servers, server.tagged = true) ∧
        Worker.eventLoopBody env w = .error .serverAligned := by
  rcases h.epollProcessEvents henv.batches with
    ⟨w₁, posted, rslt, poll, hrun, hpolled⟩ | ⟨htag, herror⟩
  swap
  · -- a tagged pointer stops the pass at the assertion
    exact Or.inr ⟨htag, by simp [Worker.eventLoopBody, herror, bind, Except.bind]⟩
  left
  have hsub := hpolled.posted_subset
  by_cases hfailed : rslt = .failed
  · -- the loop ends, and nothing was posted
    have hposted : posted = [] := by
      refine List.eq_nil_iff_forall_not_mem.mpr fun i hi => ?_
      obtain ⟨ev, hev, -⟩ := (hpolled.mem_posted i).mp hi
      simp [hfailed, WaitResult.batch] at hev
    subst hposted
    refine ⟨false, w₁, w₁, free, conns, [], rslt, poll, [], ?_, hpolled, hpolled.consistent,
      hpolled.capacity, rfl, hpolled.appCtxList, by simpa using hpolled.log, .nil,
      fun j hj hset => Or.inl ⟨hj, by simp, hpolled.close_eq j ▸ hset⟩⟩
    simp [Worker.eventLoopBody, hrun, hfailed, bind, Except.bind]
  · -- the wait went well, and the posted sockets are visited
    obtain ⟨w', free', conns', tr, htraverse, hcons, hkeeps, hlog, htrace, hclose⟩ :=
      hpolled.consistent.traverse henv.fresh hsub
        hpolled.consistent.lists.length_posted_le
    refine ⟨true, w₁, w', free', conns', posted, rslt, poll, tr, ?_, hpolled, hcons,
      hkeeps.capacity.trans hpolled.capacity, hkeeps.servers,
      hkeeps.appCtxList.trans hpolled.appCtxList, ?_, htrace, fun j hj hset => ?_⟩
    · simp [Worker.eventLoopBody, hrun, hfailed, htraverse, bind, Except.bind]
    · rw [hlog, hpolled.log, List.append_assoc]
    · rw [← hpolled.close_eq j]
      exact hclose j hj hset

/-! ## Runs -/

/-- A pass of a run: the worker before it and after it. -/
structure Pass where
  before : Worker
  after : Worker

/-- What a pass recorded. -/
def Pass.seg (p : Pass) : List LogEntry := p.after.log.drop p.before.log.length

/-- A run from `w₀` to `w` with its passes, the last one first; the flag says whether `event_loop`
goes on. -/
inductive Run (w₀ : Worker) : List Pass → Bool → Worker → Prop
  | start : Run w₀ [] true w₀
  | step {env : Env} {passes : List Pass} {ok : Bool} {w w' : Worker}
      (hrun : Run w₀ passes true w) (henv : env.Valid)
      (hstep : eventLoopBody env w = .ok (ok, w')) : Run w₀ (⟨w, w'⟩ :: passes) ok w'

/-- The runs whose passes have environments of a kind. -/
inductive RunUnder (kind : Env → Prop) (w₀ : Worker) : Bool → Worker → Prop
  | start : RunUnder kind w₀ true w₀
  | step {env : Env} {ok : Bool} {w w' : Worker} (hrun : RunUnder kind w₀ true w)
      (henv : kind env) (hstep : eventLoopBody env w = .ok (ok, w')) : RunUnder kind w₀ ok w'

theorem RunUnder.exists_run {kind : Env → Prop} {w₀ w : Worker} {ok : Bool}
    (hrun : RunUnder kind w₀ ok w) (hkind : ∀ env, kind env → env.Valid) :
    ∃ passes, Run w₀ passes ok w := by
  induction hrun with
  | start => exact ⟨[], .start⟩
  | step _ henv hstep ih =>
    obtain ⟨passes, hpasses⟩ := ih
    exact ⟨_, hpasses.step (hkind _ henv) hstep⟩

namespace Run

variable {power₀ : ℤ} {w₀ w : Worker} {passes : List Pass} {ok : Bool}
  {free₀ conns₀ : List ℕ}

/-- What holds at the start and is kept by every pass holds after every run. -/
theorem invariant {P : Worker → List ℕ → List ℕ → Prop} (hrun : Run w₀ passes ok w)
    (h₀ : Consistent power₀ w₀ [] free₀ conns₀ []) (hstart : P w₀ free₀ conns₀)
    (hpass : ∀ w w₁ w' free conns free' conns' posted rslt poll tr,
      Consistent power₀ w [] free conns [] → P w free conns →
      Iterated power₀ w w₁ w' free conns free' conns' posted rslt poll tr →
      P w' free' conns') :
    ∃ free conns, Consistent power₀ w [] free conns [] ∧ P w free conns := by
  induction hrun with
  | start => exact ⟨free₀, conns₀, h₀, hstart⟩
  | step hrun henv hstep ih =>
    -- one pass from consistent lists leaves consistent lists, or stops at the assertion
    obtain ⟨free, conns, hcons, hP⟩ := ih
    rcases hcons.eventLoopBody henv with
      ⟨ok, w₁, w', free', conns', posted, rslt, poll, tr, hbody, hiter⟩ | ⟨-, herror⟩
    · rw [hstep, Except.ok.injEq, Prod.mk.injEq] at hbody
      obtain ⟨-, rfl⟩ := hbody
      exact ⟨free', conns', hiter.consistent,
        hpass _ _ _ _ _ _ _ _ _ _ _ hcons hP hiter⟩
    · rw [hstep] at herror
      cases herror

/-- After every pass of a run the worker is consistent, with the capacity, the listeners and the
modules of its start. -/
theorem consistent (hrun : Run w₀ passes ok w) (h₀ : Consistent power₀ w₀ [] free₀ conns₀ []) :
    ∃ free conns, Consistent power₀ w [] free conns [] ∧ w.capacity = w₀.capacity ∧
      w.listeners = w₀.listeners ∧ w.appCtxList = w₀.appCtxList :=
  hrun.invariant (P := fun w _ _ => w.capacity = w₀.capacity ∧ w.listeners = w₀.listeners ∧
      w.appCtxList = w₀.appCtxList) h₀ ⟨rfl, rfl, rfl⟩
    fun _ _ _ _ _ _ _ _ _ _ _ _ ⟨hcapacity, hlisteners, happs⟩ hiter =>
      ⟨hiter.capacity.trans hcapacity, hiter.listeners.trans hlisteners,
        hiter.appCtxList.trans happs⟩

/-- No pointer in `mpp_servers` is tagged between two passes, as long as `EPOLL_CTL_DEL`
succeeds for the listeners. -/
theorem untagged (hrun : Run w₀ passes ok w) (h₀ : Consistent power₀ w₀ [] free₀ conns₀ [])
    (hstart : ∀ server ∈ w₀.servers, server.tagged = false) (hdel : ListenersDeleted w w.log) :
    ∀ server ∈ w.servers, server.tagged = false := by
  obtain ⟨-, -, -, huntagged⟩ := hrun.invariant
    (P := fun w _ _ => ListenersDeleted w w.log → ∀ server ∈ w.servers, server.tagged = false)
    h₀ (fun _ => hstart) fun w w₁ w' free conns free' conns' posted rslt poll tr _ hP hiter => by
      intro hdel server hserver
      -- the listeners stay the same, and what a pass logs is a part of the log at the end
      have hlisteners := hiter.listeners
      rw [hiter.servers] at hserver
      refine hiter.polled.untagged (fun i hi r hr => ?_) (hP fun i hi r hr => ?_) server hserver
      all_goals
        refine hdel i (hlisteners ▸ hi) r ?_
        rw [hiter.log]
      · rw [hiter.polled.log] at hr
        rw [← List.append_assoc]
        exact List.mem_append_left _ hr
      · exact List.mem_append_left _ hr
  exact huntagged hdel

end Run

/-! ## Between two passes -/

/-- The lists, counters and descriptors of a worker between two passes, when it started as
`w₀`. -/
structure WellFormed (w₀ w : Worker) (free conns : List ℕ) : Prop where
  /-- Nothing is posted. -/
  postedEvents : w.links .postedEvents = none
  /-- The free list ends. -/
  freeList : w.links.IsList .freeList (free.map .node)
  /-- `mp_connections` ends. -/
  connections : w.links.IsList .connections (conns.map .node)
  /-- Both are without duplicates. -/
  nodup_free : free.Nodup
  nodup_conns : conns.Nodup
  /-- Every slot of the cache is on exactly one of them. -/
  disjoint : free.Disjoint conns
  mem_iff : ∀ i, i ∈ free ∨ i ∈ conns ↔ i < w.capacity
  capacity : w.capacity = w₀.capacity
  used : w.used = conns.length
  /-- Every connection takes one unit of power. -/
  power : w.power = w₀.power - (conns.filter (· ∉ w.listeners)).length
  /-- A descriptor from `accept` was closed, or is that of one connection. -/
  accepted : ∀ (l₁ l₂ : List LogEntry) (l fd : ℕ), w.log = l₁ ++ .accept l (.conn fd) :: l₂ →
    .closeFd fd ∈ l₂ ∨ ∃! i, i ∈ conns ∧ (w.sock i).fd = fd

theorem Consistent.wellFormed {w₀ w : Worker} {free conns : List ℕ}
    (h : Consistent w₀.power w [] free conns []) (hcapacity : w.capacity = w₀.capacity) :
    WellFormed w₀ w free conns := by
  -- the lists do not meet, as their slots are a permutation of the cache
  obtain ⟨hfree, hconns, hdisjoint⟩ :=
    List.nodup_append.mp (List.nodup_append.mp h.lists.nodup).2.1
  refine ⟨h.lists.postedEvents, h.lists.freeList, h.lists.connections, hfree, hconns,
    fun i hi hi' => hdisjoint i hi i hi' rfl, fun i => ?_, hcapacity, ?_, h.roles.power,
    fun l₁ l₂ l fd hlog => ?_⟩
  · simpa using @Lists.mem_iff _ _ _ _ _ i h.lists
  · simpa using h.lists.used
  · -- an accepted descriptor that is still open belongs to exactly one connection
    have haccounted := h.descriptors.accounted
    rw [hlog] at haccounted
    refine haccounted.of_append.imp_right fun hfd => ?_
    obtain ⟨i, hi, hieq⟩ := List.mem_map.mp (h.descriptors.fds.mem_iff.mp hfd)
    refine ⟨i, ⟨hi, hieq⟩, fun j ⟨hj, hjeq⟩ => ?_⟩
    exact h.descriptors.fd_inj hj hi (hjeq.trans hieq.symm)

/-- Every run of a worker that was started leaves it well-formed. The next pass returns as well,
unless an `EPOLL_CTL_DEL` for a listener failed before. -/
theorem run_wellFormed {boot : BootEnv} {maxConnections : ℕ} {apps : List AppCtx}
    {w₀ w : Worker} {passes : List Pass} {ok : Bool} (hboot : boot.FreshFds)
    (hstart : startWorker boot maxConnections apps = .ok (some w₀))
    (hrun : Run w₀ passes ok w) :
    (∃ free conns, WellFormed w₀ w free conns) ∧
      (ListenersDeleted w w.log → ∀ env : Env, env.Valid → ∃ r, eventLoopBody env w = .ok r) := by
  obtain ⟨free₀, h₀, -, -, huntagged⟩ := consistent_of_startWorker hboot hstart
  obtain ⟨free, conns, h, hcapacity, -⟩ := hrun.consistent h₀
  refine ⟨⟨free, conns, h.wellFormed hcapacity⟩, fun hdel env henv => ?_⟩
  rcases h.eventLoopBody henv with ⟨ok, -, w', -, -, -, -, -, -, hbody, -⟩ | ⟨htag, -⟩
  · exact ⟨_, hbody⟩
  · obtain ⟨server, hserver, htagged⟩ := htag
    rw [hrun.untagged h₀ huntagged hdel server hserver] at htagged
    cases htagged

/-! ## A sample -/

/-- A descriptor that is not open. -/
def sampleFd (w : Worker) : ℕ := w.openFds.foldr (fun fd n => max (fd.toNat + 1) n) 10

theorem sampleFd_notMem (w : Worker) : (sampleFd w : ℤ) ∉ w.openFds := by
  have hlt : ∀ fd ∈ w.openFds, fd < sampleFd w := by
    unfold sampleFd
    induction w.openFds with
    | nil => simp
    | cons fd fds ih =>
      intro x hx
      rw [List.foldr_cons]
      rcases List.mem_cons.mp hx with rfl | hx
      · omega
      · have hrest := ih x hx
        omega
  exact fun hmem => lt_irrefl _ (hlt _ hmem)

/-- A boot in which every system call succeeds. -/
def sampleBoot : BootEnv where
  shmget := some 0
  callocServers := true
  callocCache := true
  inetAton _ := true
  listener w _ _ := ⟨some (sampleFd w), true, true, true, true⟩
  shmat := true

theorem sampleBoot_fresh : sampleBoot.FreshFds := by
  intro w addr backlog fd hfd
  obtain rfl : sampleFd w = fd := Option.some.inj hfd
  exact sampleFd_notMem w

/-- An app module with one server. -/
def sampleApp : AppCtx := ⟨0, some 1, some 2, some 3, [⟨"0.0.0.0", 8001, 0⟩]⟩

/-- A worker for this module, with two slots for connections. -/
def sampleStart : Worker :=
  match startWorker sampleBoot 2 [sampleApp] with
  | .ok (some w) => w
  | _ => {}

/-- All system calls succeed. There is an event for the connection with descriptor 11, or else
for the listener. The callbacks in `kinds` ask for closing. -/
def sampleEnv (kinds : List CallbackKind) : Env where
  trySpinlock _ := true
  addEvent _ _ := .ok
  delEvent _ _ := .ok
  wait w :=
    match w.interest 11, w.interest 10 with
    | some r, _ => .events [⟨r.slot, r.stale, hixoEventIn ||| hixoEventOut⟩]
    | none, some r => .events [⟨r.slot, r.stale, hixoEventIn⟩]
    | none, none => .eintr
  pending _ := 1
  accept w := .conn (sampleFd w)
  callback _ kind _ _ := ⟨kinds.contains kind, true, [], []⟩

theorem sampleEnv_valid (kinds : List CallbackKind) : (sampleEnv kinds).Valid := by
  refine ⟨fun w fd hfd => ?_, fun w evs hevs => ?_⟩
  · obtain rfl : sampleFd w = fd := AcceptResult.conn.inj hfd
    exact sampleFd_notMem w
  · simp only [sampleEnv] at hevs
    split at hevs <;> cases hevs
    next r hr => exact ⟨by simp, by simpa using ⟨11, r, hr, rfl, rfl⟩⟩
    next r _ hr => exact ⟨by simp, by simpa using ⟨10, r, hr, rfl, rfl⟩⟩

/-- The worker after `n` passes. -/
def samplePasses (kinds : List CallbackKind) : ℕ → Worker
  | 0 => sampleStart
  | n + 1 =>
    match eventLoopBody (sampleEnv kinds) (samplePasses kinds n) with
    | .ok (_, w) => w
    | .error _ => {}

theorem startWorker_sample : startWorker sampleBoot 2 [sampleApp] = .ok (some sampleStart) := rfl

/-- The passes of the sample, the last one first. -/
def samplePassList (kinds : List CallbackKind) : ℕ → List Pass
  | 0 => []
  | n + 1 => ⟨samplePasses kinds n, samplePasses kinds (n + 1)⟩ :: samplePassList kinds n

theorem Run.sample {kinds : List CallbackKind} {n : ℕ}
    (hrun : Run sampleStart (samplePassList kinds n) true (samplePasses kinds n))
    (hstep : eventLoopBody (sampleEnv kinds) (samplePasses kinds n) =
      .ok (true, samplePasses kinds (n + 1))) :
    Run sampleStart (samplePassList kinds (n + 1)) true (samplePasses kinds (n + 1)) :=
  .step hrun (sampleEnv_valid kinds) hstep

/-- A connection is opened, and closed when it is read. -/
theorem run_sample_read :
    Run sampleStart (samplePassList [.read] 2) true (samplePasses [.read] 2) :=
  .sample (.sample .start rfl) rfl

theorem run_wellFormed_sample :
    ∃ free conns, WellFormed sampleStart (samplePasses [.read] 2) free conns :=
  (run_wellFormed sampleBoot_fresh startWorker_sample run_sample_read).1

end Hixo
