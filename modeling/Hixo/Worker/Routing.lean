import Hixo.Worker.Burst
import Hixo.Worker.ListenerTable

/-!
# Which app module serves a connection

`hixo_handle_accept` looks for the app module of a connection by the local port alone, in the ring
that `event_core_init_worker` built by putting every module at the head. So a connection is
served by the last module of the table that has an entry for the port, whatever address the entry
of its listener has.

* `servingApp`: the last module with an entry for a port;
* `findApp_eq`: the search in `hixo_handle_accept` finds it;
* `RoutesTo`: all connections to a listener get the callbacks of one module;
* `routesTo_iff`: they get those of the module that the listener was created for exactly when
  the serving module has the same callbacks, or no connection is allowed at all.
-/

namespace Hixo

open Worker
open Consistent (incoming)

/-! ## Ports -/

/-- `htons` exchanges the two bytes of a port. -/
theorem getLsbD_htons (port : BitVec 16) {i : ℕ} (hi : i < 16) :
    (htons port).getLsbD i = if i < 8 then port.getLsbD (i + 8) else port.getLsbD (i - 8) := by
  simp only [htons, BitVec.getLsbD_or, BitVec.getLsbD_shiftLeft, BitVec.getLsbD_ushiftRight, hi,
    decide_true, Bool.true_and]
  split
  next h => simp [h, Nat.add_comm]
  next h =>
    have hout : port.getLsbD (8 + i) = false := BitVec.getLsbD_of_ge _ _ (by omega)
    simp [h, hout]

/-- Converting a port twice gives the port. -/
theorem htons_htons (port : BitVec 16) : htons (htons port) = port := by
  refine BitVec.eq_of_getLsbD_eq fun i hi => ?_
  rw [getLsbD_htons _ hi]
  split
  next h => rw [getLsbD_htons _ (by omega), if_neg (by omega), Nat.add_sub_cancel]
  next h => rw [getLsbD_htons _ (by omega), if_pos (by omega), Nat.sub_add_cancel (by omega)]

/-- Different ports stay different when they are converted. -/
theorem htons_inj {p q : BitVec 16} : htons p = htons q ↔ p = q :=
  ⟨fun h => by rw [← htons_htons p, h, htons_htons], congrArg htons⟩

/-! ## The table of app modules -/

/-- The module has an entry for the port. -/
def AppCtx.serves (ctx : AppCtx) (port : BitVec 16) : Bool :=
  ctx.servers.any fun server => server.port = port

/-- The last app module of the table with an entry for a port. -/
def servingApp (apps : List AppCtx) (port : BitVec 16) : Option AppCtx :=
  apps.reverse.find? (·.serves port)

/-- The server entries with the app modules they belong to, in the order of the table. -/
def ownedEntries (apps : List AppCtx) : List (AppCtx × ListenConf) :=
  apps.flatMap fun ctx => ctx.servers.map (ctx, ·)

theorem map_snd_ownedEntries (apps : List AppCtx) :
    (ownedEntries apps).map Prod.snd = serverEntries apps := by
  simp [ownedEntries, serverEntries, List.map_flatMap, Function.comp_def]

/-- The port of each entry is served by some module. -/
theorem exists_servingApp {apps : List AppCtx} {ctx : AppCtx} {server : ListenConf}
    (h : (ctx, server) ∈ ownedEntries apps) : ∃ ctx', servingApp apps server.port = some ctx' := by
  obtain ⟨ctx, hctx, hserver⟩ := List.mem_flatMap.mp h
  obtain ⟨server, hserver, heq⟩ := List.mem_map.mp hserver
  cases heq
  refine Option.isSome_iff_exists.mp (List.find?_isSome.mpr ⟨ctx, List.mem_reverse.mpr hctx, ?_⟩)
  exact List.any_eq_true.mpr ⟨server, hserver, decide_eq_true rfl⟩

/-- Converting the ports of a module in place converts what it serves. -/
theorem serves_appInitWorker (ctx : AppCtx) (port : BitVec 16) :
    (appInitWorker ctx).serves (htons port) = ctx.serves port := by
  simp only [AppCtx.serves, appInitWorker, List.any_map, Function.comp_def, htons_inj]

/-- The search of `hixo_handle_accept`, for a descriptor with the port of an entry. -/
theorem findApp_eq {w : Worker} {apps : List AppCtx} {fd : ℤ} {port : BitVec 16}
    (happs : w.appCtxList = apps.reverse.map appInitWorker)
    (hport : w.localPort fd = htons port) :
    w.findApp fd = (servingApp apps port).map appInitWorker := by
  have hserves : ((fun ctx : AppCtx => ctx.serves (htons port)) ∘ appInitWorker) =
      (·.serves port) := funext fun ctx => serves_appInitWorker ctx port
  rw [findApp, hport, happs]
  show List.find? (fun ctx : AppCtx => ctx.serves (htons port)) _ = _
  rw [List.find?_map, hserves, servingApp]

/-! ## The callbacks of a connection -/

/-- Two app modules have the same callbacks. -/
structure SameCallbacks (ctx ctx' : AppCtx) : Prop where
  connect : ctx.handleConnect = ctx'.handleConnect
  read : ctx.handleRead = ctx'.handleRead
  write : ctx.handleWrite = ctx'.handleWrite
  disconnect : ctx.handleDisconnect = ctx'.handleDisconnect

/-- On the way from `w` to `w'`, a connection in slot `i` was given the callbacks of `ctx`, and
its connect callback was called. -/
structure GivenCallbacks (w w' : Worker) (i : ℕ) (ctx : AppCtx) : Prop where
  connect : ∃ tr close, w'.log = w.log ++ tr ∧
    .callback .connect i ctx.handleConnect close ∈ tr
  read : (w'.sock i).readHandler = ctx.handleRead.map .app
  write : (w'.sock i).writeHandler = ctx.handleWrite
  disconnect : (w'.sock i).disconnectHandler = ctx.handleDisconnect

/-- Every connection that is accepted on listener `l`, in every run and at every position of the
accept loop, is given the callbacks of `ctx`. -/
def RoutesTo (w₀ : Worker) (l : ℕ) (ctx : AppCtx) : Prop :=
  ∀ env n carried w step, AcceptHead w₀ env l (n + 1) carried w →
    acceptBody env env.accept l carried w = .ok step →
    ∀ tr i, step.worker.log = w.log ++ tr → .opened i ∈ tr → GivenCallbacks w step.worker i ctx

/-- A body that opens a connection gives it the callbacks of the module that was found. -/
theorem acceptBody_opened {env : Env} {accept : Worker → AcceptResult} {l i : ℕ}
    {carried : Option AppCtx} {w : Worker} {step : AcceptStep} {tr : List LogEntry}
    (hbody : acceptBody env accept l carried w = .ok step)
    (hlog : step.worker.log = w.log ++ tr) (hopened : .opened i ∈ tr) :
    ∃ w₁ fd app, CacheOnly w w₁ ∧
      ((w₁.acceptFd l (.conn fd)).findApp fd).or carried = some app ∧
      ∀ ctx, GivenCallbacks w step.worker i ctx ↔ SameCallbacks app ctx := by
  rcases acceptBody_cases hbody with ⟨w', hcache, rfl⟩ | ⟨w₁, rslt, -, hcache, hcache'⟩ |
    ⟨w₁, fd, j, app, hcache, -, hfind, hend⟩
  · -- no slot is free
    rw [AcceptStep.worker, hcache.log] at hlog
    simp [List.self_eq_append_right.mp hlog] at hopened
  · -- `accept` gives no connection
    rw [hcache'.log, record, hcache.log, List.append_cancel_left_eq] at hlog
    simp [← hlog] at hopened
  · refine ⟨w₁, fd, app, hcache, hfind, ?_⟩
    obtain ⟨rslt, interest, hadd, -⟩ := epollAddEvent_snd env (incoming w₁ l j fd app) j
    rcases hend with hcache' | rfl
    · -- the connection could not be registered
      rw [hcache'.log, hadd] at hlog
      simp only [hixoDestroySocket, closeFd, record, incoming, acceptFd, hixoCreateSocket,
        modifySock, hcache.log, List.append_assoc, List.append_cancel_left_eq] at hlog
      simp [← hlog] at hopened
    · -- the connection is registered, and the connect callback is the last entry of the body
      set w₂ := (epollAddEvent env (incoming w₁ l j fd app) j).2.putConnection j with hw₂
      set w' := w₂.runCallback env .connect j app.handleConnect with hw'
      have hlog₂ : w₂.log = w.log ++ [.accept l (.conn fd), .addEvent j rslt, .opened j] := by
        rw [hw₂, hadd]
        simp [putConnection, Worker.addNode, record, incoming, acceptFd, hixoCreateSocket,
          modifySock, hcache.log]
      have htrace : w'.log = w.log ++ [.accept l (.conn fd), .addEvent j rslt, .opened j,
          .callback .connect j app.handleConnect
            (env.callback w₂ .connect j app.handleConnect).close] := by
        have hcall : w'.log = w₂.log ++ [.callback .connect j app.handleConnect
            (env.callback w₂ .connect j app.handleConnect).close] := rfl
        rw [hcall, hlog₂, List.append_assoc]
        rfl
      have hsock : (w'.sock j).readHandler = app.handleRead.map .app ∧
          (w'.sock j).writeHandler = app.handleWrite ∧
          (w'.sock j).disconnectHandler = app.handleDisconnect := by
        rw [hw', hw₂, hadd]
        simp [runCallback, putConnection, Worker.addNode, record, modifySock, incoming, acceptFd,
          hixoCreateSocket]
      -- so the slot is the one that was opened
      rw [AcceptStep.worker, htrace, List.append_cancel_left_eq] at hlog
      obtain rfl : i = j := by simpa [← hlog] using hopened
      intro ctx
      constructor
      · rintro ⟨⟨tr', close, hlog', hcall⟩, hread, hwrite, hdisconnect⟩
        rw [AcceptStep.worker, htrace, List.append_cancel_left_eq] at hlog'
        refine ⟨?_, ?_, hsock.2.1.symm.trans hwrite, hsock.2.2.symm.trans hdisconnect⟩
        · simp only [← hlog', List.mem_cons, reduceCtorEq, LogEntry.callback.injEq, true_and,
            List.not_mem_nil, or_false, false_or] at hcall
          exact hcall.1.symm
        · exact Option.map_injective (fun f g hfg => ReadHandler.app.inj hfg)
            (hsock.1.symm.trans hread)
      · rintro ⟨hconnect, hread, hwrite, hdisconnect⟩
        refine ⟨⟨_, (env.callback w₂ .connect i app.handleConnect).close, htrace, ?_⟩,
          hread ▸ hsock.1, hwrite ▸ hsock.2.1, hdisconnect ▸ hsock.2.2⟩
        rw [hconnect]
        simp

/-! ## Routing -/

section Routing

variable {boot : BootEnv} {maxConnections : ℕ} {apps : List AppCtx} {w₀ : Worker}
  {k l : ℕ} {ctx : AppCtx} {server : ListenConf}

/-- The listener that was created for an entry has its port. -/
theorem listensTo_of_getElem? (hboot : boot.FreshFds)
    (hstart : startWorker boot maxConnections apps = .ok (some w₀))
    (hall : w₀.servers.length = (serverEntries apps).length)
    (hentry : (ownedEntries apps)[k]? = some (ctx, server)) (hl : w₀.listeners[k]? = some l) :
    ListensTo w₀ l server := by
  obtain ⟨htable, -⟩ := listenerTable_of_startWorker hboot hstart
  have hports := htable.eq_of_length hall
  have hserver : (serverEntries apps)[k]? = some server := by
    rw [← map_snd_ownedEntries, List.getElem?_map, hentry]
    rfl
  obtain ⟨hk, rfl⟩ := List.getElem?_eq_some_iff.mp hl
  obtain ⟨hk', rfl⟩ := List.getElem?_eq_some_iff.mp hserver
  exact hports.get hk hk'

/-- A connection to the listener of an entry gets the callbacks of the module that serves the
port, whatever `p_app_ctx` was before. -/
theorem AcceptHead.givenCallbacks_iff {env : Env} {n i : ℕ} {carried : Option AppCtx}
    {w : Worker} {step : AcceptStep} {tr : List LogEntry} {free₀ conns₀ : List ℕ}
    (hhead : AcceptHead w₀ env l n carried w)
    (h₀ : Consistent w₀.power w₀ [] free₀ conns₀ [])
    (happs : w₀.appCtxList = apps.reverse.map appInitWorker) (hport : ListensTo w₀ l server)
    {serving : AppCtx} (hserving : servingApp apps server.port = some serving)
    (hbody : acceptBody env env.accept l carried w = .ok step)
    (hlog : step.worker.log = w.log ++ tr) (hopened : .opened i ∈ tr) (ctx : AppCtx) :
    GivenCallbacks w step.worker i ctx ↔ SameCallbacks serving ctx := by
  obtain ⟨free, conns, posted, h, hl, -, hkeeps⟩ := hhead.consistent h₀
  obtain ⟨w₁, fd, app, hcache, hfind, hiff⟩ := acceptBody_opened hbody hlog hopened
  -- the connection has the port of its listener, which no pass has changed
  have hlocal : (w₁.acceptFd l (.conn fd)).localPort fd = htons server.port := by
    have hfd : (w₁.sock l).fd = (w₀.sock l).fd := (hcache.fd l).trans (hkeeps.fd l hl)
    have hsame : w₁.localPort (w₁.sock l).fd = htons server.port := by
      rw [hcache.localPort, hfd, hkeeps.localPort l hl]
      exact hport
    exact (if_pos rfl).trans hsame
  have happs₁ : (w₁.acceptFd l (.conn fd)).appCtxList = apps.reverse.map appInitWorker :=
    hcache.appCtxList.trans (hkeeps.appCtxList.trans happs)
  rw [findApp_eq happs₁ hlocal, hserving, Option.map_some, Option.some_or, Option.some.injEq]
    at hfind
  rw [hiff ctx, ← hfind]
  exact ⟨fun ⟨hc, hr, hw, hd⟩ => ⟨hc, hr, hw, hd⟩, fun ⟨hc, hr, hw, hd⟩ => ⟨hc, hr, hw, hd⟩⟩

/-- All connections to the listener of an entry are given the callbacks of its app module exactly
when no connection is allowed, or the last module of the table with an entry for the same port
has the same callbacks. -/
theorem routesTo_iff (hboot : boot.FreshFds)
    (hstart : startWorker boot maxConnections apps = .ok (some w₀))
    (hall : w₀.servers.length = (serverEntries apps).length)
    (hentry : (ownedEntries apps)[k]? = some (ctx, server)) (hl : w₀.listeners[k]? = some l) :
    RoutesTo w₀ l ctx ↔ maxConnections = 0 ∨
      ∃ serving, servingApp apps server.port = some serving ∧ SameCallbacks serving ctx := by
  obtain ⟨free, h₀, -, happs, huntagged⟩ := consistent_of_startWorker hboot hstart
  obtain ⟨-, hcapacity, hpower, -⟩ := listenerTable_of_startWorker hboot hstart
  have hport := listensTo_of_getElem? hboot hstart hall hentry hl
  have hmem : l ∈ w₀.listeners := List.mem_of_getElem? hl
  obtain ⟨serving, hserving⟩ := exists_servingApp (List.mem_of_getElem? hentry)
  constructor
  · intro hroutes
    by_cases hzero : maxConnections = 0
    · exact Or.inl hzero
    right
    refine ⟨serving, hserving, ?_⟩
    -- a connection that is accepted first
    have hroom : w₀.servers.length < w₀.capacity := by omega
    obtain ⟨env, n, carried, w, step, tr, i, hhead, hbody, hlog, hopened⟩ :=
      exists_opened h₀ huntagged (by omega) hroom hmem
    have hgiven := hroutes env n carried w step hhead hbody tr i hlog hopened
    exact (hhead.givenCallbacks_iff h₀ happs hport hserving hbody hlog hopened ctx).mp hgiven
  · rintro hcases env n carried w step hhead hbody tr i hlog hopened
    rcases hcases with rfl | ⟨serving', hserving', hsame⟩
    · exact absurd hhead (idle_of_startWorker hboot hstart).no_acceptHead
    · obtain rfl := Option.some.inj (hserving.symm.trans hserving')
      exact (hhead.givenCallbacks_iff h₀ happs hport hserving hbody hlog hopened ctx).mpr hsame

end Routing

/-! ## A sample -/

/-- Two app modules on the same port of two addresses. -/
def collidingApps : List AppCtx :=
  [⟨0, some 1, some 2, some 3, [⟨"127.0.0.1", 8001, 0⟩]⟩,
    ⟨4, some 5, some 6, some 7, [⟨"127.0.0.2", 8001, 0⟩]⟩]

/-- A worker for these modules, with two slots for connections. -/
def collidingStart : Worker :=
  match startWorker sampleBoot 2 collidingApps with
  | .ok (some w) => w
  | _ => {}

theorem startWorker_colliding :
    startWorker sampleBoot 2 collidingApps = .ok (some collidingStart) := rfl

theorem routesTo_iff_colliding :
    RoutesTo collidingStart 3 collidingApps[0] ↔ 2 = 0 ∨
      ∃ serving, servingApp collidingApps 8001 = some serving ∧
        SameCallbacks serving collidingApps[0] :=
  routesTo_iff (k := 0) sampleBoot_fresh startWorker_colliding rfl rfl rfl

/-- The connections to the listener of the first module are given the callbacks of the second. -/
theorem not_routesTo_colliding :
    startWorker sampleBoot 2 collidingApps = .ok (some collidingStart) ∧
      collidingStart.servers.length = (serverEntries collidingApps).length ∧
      (ownedEntries collidingApps)[0]? = some (collidingApps[0], ⟨"127.0.0.1", 8001, 0⟩) ∧
      collidingStart.listeners[0]? = some 3 ∧
      ¬RoutesTo collidingStart 3 collidingApps[0] := by
  refine ⟨rfl, rfl, rfl, rfl, fun hroutes => ?_⟩
  obtain ⟨free, h₀, -, happs, huntagged⟩ :=
    consistent_of_startWorker sampleBoot_fresh startWorker_colliding
  obtain ⟨env, n, carried, w, step, tr, i, hhead, hbody, hlog, hopened⟩ :=
    exists_opened h₀ huntagged (by decide) (by decide)
      (show 3 ∈ collidingStart.listeners by decide)
  have hgiven := hroutes env n carried w step hhead hbody tr i hlog hopened
  have hport : ListensTo collidingStart 3 ⟨"127.0.0.1", 8001, 0⟩ := rfl
  have hserving : servingApp collidingApps 8001 = some collidingApps[1] := rfl
  have hsame := (hhead.givenCallbacks_iff h₀ happs hport hserving hbody hlog hopened _).mp hgiven
  exact absurd hsame.connect (by decide)

end Hixo
