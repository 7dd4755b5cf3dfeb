import Hixo.Foundation.Programs
import Hixo.Worker.Init
import Hixo.Worker.Invariant

/-!
# The first state of a worker

A worker that comes out of the initialisation is consistent: all slots of the new socket cache
are on the free list or are listeners on `mp_connections`, and the app modules serve the ports
of the listeners.

* `lists_createResource`: the new cache;
* `Booting`: what holds between two listeners in `event_core_init_master`;
* `consistent_of_startWorker`: the state in which the run loop is entered.
-/

namespace Hixo

open LinkHeap Worker

/-- An entry of `event_core_init_master`. -/
def LogEntry.IsBooting : LogEntry → Prop
  | .socket _ | .closeFd _ => True
  | _ => False

/-- The descriptors that `socket` returns are not open. -/
def BootEnv.FreshFds (boot : BootEnv) : Prop :=
  ∀ w addr backlog fd, (boot.listener w addr backlog).socket = some fd → (fd : ℤ) ∉ w.openFds

/-! ## The socket cache -/

/-- Putting the first `count` slots on an empty free list one after the other. -/
theorem isList_freeList_foldl (w : Worker) (count : ℕ) (hfree : w.links .freeList = none) :
    ((List.range count).foldl (fun w i => w.addNode .freeList (.node i)) w).links.IsList
        .freeList ((List.range count).reverse.map .node) ∧
      (∀ c, c ≠ .freeList → (∀ i < count, c ≠ .node i) →
        ((List.range count).foldl (fun w i => w.addNode .freeList (.node i)) w).links c =
          w.links c) ∧
      ∃ links, (List.range count).foldl (fun w i => w.addNode .freeList (.node i)) w =
        { w with links } := by
  induction count with
  | zero => exact ⟨hfree, fun _ _ _ => rfl, w.links, rfl⟩
  | succ n ih =>
    obtain ⟨hlist, hframe, links, hdef⟩ := ih
    rw [List.range_succ, List.foldl_append, List.foldl_cons, List.foldl_nil,
      List.reverse_append, List.reverse_singleton, List.singleton_append, List.map_cons]
    refine ⟨hlist.addNode ?_, fun c hc hnode => ?_, ?_⟩
    · simp
    · exact (addNode_of_ne hc (hnode n (Nat.lt_succ_self n))).trans
        (hframe c hc fun i hi => hnode i (Nat.lt_succ_of_lt hi))
    · rw [hdef]
      exact ⟨_, rfl⟩

/-- A new socket cache: nothing but the free list is linked in it. -/
theorem createResource_eq {w w' : Worker} {count : ℕ} {calloc : Bool}
    (h : w.createResource count calloc = (true, w')) :
    w.cacheExists = false ∧
      ∃ links, w' = { w.clearCache count with links, used := 0, capacity := count } ∧
        links.IsList .freeList ((List.range count).reverse.map .node) ∧
        ∀ c, c ≠ .freeList → (∀ i < count, c ≠ .node i) →
          links c = (w.clearCache count).links c := by
  unfold createResource at h
  split at h
  · simp at h
  split at h
  · simp at h
  next hexists =>
    split at h
    · simp at h
    simp only [Prod.mk.injEq, true_and] at h
    obtain ⟨hlist, hframe, links, hdef⟩ := isList_freeList_foldl (w.clearCache count) count rfl
    rw [hdef] at h hlist hframe
    exact ⟨by simpa using hexists, links, h.symm, hlist, hframe⟩

/-- When `create_resource` fails, nothing has changed. -/
theorem eq_of_createResource_false {w w' : Worker} {count : ℕ} {calloc : Bool}
    (h : w.createResource count calloc = (false, w')) : w' = w := by
  unfold createResource at h
  split_ifs at h
  · exact (Prod.mk.inj h).2.symm
  · exact (Prod.mk.inj h).2.symm
  · exact (Prod.mk.inj h).2.symm
  · simp at h

/-- A new socket cache: every slot is on the free list. -/
theorem lists_createResource {w w' : Worker} {count : ℕ} {calloc : Bool}
    (hconns : w.links .connections = none) (hposted : w.links .postedEvents = none)
    (h : w.createResource count calloc = (true, w')) :
    Lists w' [] (List.range count).reverse [] [] ∧ w'.openFds = w.openFds ∧
      w'.interest = w.interest ∧ w'.log = w.log ∧ w'.servers = w.servers ∧
      w'.appCtxList = w.appCtxList := by
  obtain ⟨-, links, rfl, hlist, hframe⟩ := createResource_eq h
  refine ⟨⟨hlist, ?_, ?_, ?_, by simp, rfl, fun i hi => ?_⟩, rfl, rfl, rfl, rfl, rfl⟩
  · exact (hframe _ (by simp) (by simp)).trans hconns
  · exact (hframe _ (by simp) (by simp)).trans hposted
  · simp
  · have hi : i < count := hi
    simp [clearCache, hi]

/-! ## The listeners -/

/-- What holds between two listeners of `event_core_init_master`, for the entries `servers` of
the app modules. -/
structure Booting (servers : List ListenConf) (w : Worker) (free conns : List ℕ) : Prop where
  lists : Lists w [] free conns []
  descriptors : Descriptors w conns
  /-- All sockets on `mp_connections` are listeners. -/
  listeners : w.listeners = conns.reverse
  readHandler : ∀ i ∈ conns, (w.sock i).readHandler = some .hixoHandleAccept
  writeHandler : ∀ i ∈ conns, (w.sock i).writeHandler = none
  disconnectHandler : ∀ i ∈ conns, (w.sock i).disconnectHandler = none
  close : ∀ i ∈ conns, (w.sock i).close = false
  /-- Their ports are those of the entries. -/
  served : ∀ i ∈ conns, ∃ server ∈ servers, w.localPort (w.sock i).fd = htons server.port
  /-- The pointers to them are not tagged. -/
  untagged : ∀ server ∈ w.servers, server.tagged = false
  /-- The app modules enter the ring later. -/
  appCtxList : w.appCtxList = []
  /-- Nothing happened so far but the opening and closing of descriptors. -/
  log : ∀ e ∈ w.log, e.IsBooting

namespace Booting

variable {servers : List ListenConf} {w w' : Worker} {free free' conns : List ℕ}

/-- A listener that could not be created leaves the others as they are. -/
theorem congr (h : Booting servers w free conns) (hlists : Lists w' [] free' conns [])
    (hsock : ∀ i ∈ conns, w'.sock i = w.sock i) (hservers : w'.servers = w.servers)
    (happs : w'.appCtxList = w.appCtxList) (hfds : w'.openFds = w.openFds)
    (hinterest : ∀ fd r, w'.interest fd = some r → w.interest fd = some r)
    (hport : ∀ fd ∈ w.openFds, w'.localPort fd = w.localPort fd)
    (hlog : Accounted w'.openFds w'.log) (hboot : ∀ e ∈ w'.log, e.IsBooting) :
    Booting servers w' free' conns where
  lists := hlists
  descriptors := h.descriptors.congr hfds (fun i hi => by simp [hsock i hi]) hinterest hlog
  listeners := (congrArg (List.map Server.slot) hservers).trans h.listeners
  readHandler i hi := hsock i hi ▸ h.readHandler i hi
  writeHandler i hi := hsock i hi ▸ h.writeHandler i hi
  disconnectHandler i hi := hsock i hi ▸ h.disconnectHandler i hi
  close i hi := hsock i hi ▸ h.close i hi
  served i hi := by
    rw [hsock i hi, hport _ (h.descriptors.fd_mem hi)]
    exact h.served i hi
  untagged := hservers ▸ h.untagged
  appCtxList := happs.trans h.appCtxList
  log := hboot

/-- The master stays in order when a listener is opened in the first free slot. -/
theorem open_ {i : ℕ} {fd : ℤ} (h : Booting servers w free conns) (hi : i ∉ conns)
    (hlists : Lists w' [] free' (i :: conns) []) (hfd₀ : 0 ≤ fd) (hfresh : fd ∉ w.openFds)
    (hsock : ∀ j ∈ conns, w'.sock j = w.sock j) (hservers : w'.servers = w.servers ++ [⟨i, false⟩])
    (happs : w'.appCtxList = w.appCtxList) (hfds : w'.openFds = fd :: w.openFds)
    (hinterest : w'.interest = w.interest)
    (hport : ∀ x ∈ w.openFds, w'.localPort x = w.localPort x)
    (hlog : Accounted w'.openFds w'.log) (hboot : ∀ e ∈ w'.log, e.IsBooting)
    (hfd : (w'.sock i).fd = fd)
    (hread : (w'.sock i).readHandler = some .hixoHandleAccept)
    (hwrite : (w'.sock i).writeHandler = none)
    (hdisconnect : (w'.sock i).disconnectHandler = none) (hclose : (w'.sock i).close = false)
    (hserved : ∃ server ∈ servers, w'.localPort fd = htons server.port) :
    Booting servers w' free' (i :: conns) where
  lists := hlists
  descriptors := h.descriptors.open_ hfd₀ hfresh hfds hsock hfd
    (fun _ _ hr => Or.inl (hinterest ▸ hr)) hlog
  listeners := by
    have hold : w.servers.map Server.slot = conns.reverse := h.listeners
    simp [Worker.listeners, hservers, hold]
  -- the handlers of the new slot are those just set, and no other slot is touched
  readHandler j hj := by
    rcases List.mem_cons.mp hj with rfl | hj
    · exact hread
    · exact hsock j hj ▸ h.readHandler j hj
  writeHandler j hj := by
    rcases List.mem_cons.mp hj with rfl | hj
    · exact hwrite
    · exact hsock j hj ▸ h.writeHandler j hj
  disconnectHandler j hj := by
    rcases List.mem_cons.mp hj with rfl | hj
    · exact hdisconnect
    · exact hsock j hj ▸ h.disconnectHandler j hj
  close j hj := by
    rcases List.mem_cons.mp hj with rfl | hj
    · exact hclose
    · exact hsock j hj ▸ h.close j hj
  served j hj := by
    rcases List.mem_cons.mp hj with rfl | hj
    · rw [hfd]
      exact hserved
    · rw [hsock j hj, hport _ (h.descriptors.fd_mem hj)]
      exact h.served j hj
  untagged server hserver := by
    rw [hservers] at hserver
    rcases List.mem_append.mp hserver with hold | hnew
    · exact h.untagged server hold
    · exact List.mem_singleton.mp hnew ▸ rfl
  appCtxList := happs.trans h.appCtxList
  log := hboot

/-- `event_core_create_listener`: without a descriptor everything is as before but the log. -/
theorem eventCoreCreateListener {boot : BootEnv} (hfresh : boot.FreshFds) (w : Worker)
    (addr : SockAddr) (backlog : ℤ) :
    ∃ fd w', Worker.eventCoreCreateListener boot w addr backlog = (fd, w') ∧
      w'.links = w.links ∧ w'.sock = w.sock ∧ w'.used = w.used ∧ w'.capacity = w.capacity ∧
      w'.servers = w.servers ∧ w'.appCtxList = w.appCtxList ∧
      (∀ x r, w'.interest x = some r → w.interest x = some r) ∧
      (∀ x ∈ w.openFds, w'.localPort x = w.localPort x) ∧
      (Accounted w.openFds w.log → Accounted w'.openFds w'.log) ∧
      ((∀ e ∈ w.log, e.IsBooting) → ∀ e ∈ w'.log, e.IsBooting) ∧
      match fd with
      | none => w'.openFds = w.openFds
      | some fd => (fd : ℤ) ∉ w.openFds ∧ w'.openFds = (fd : ℤ) :: w.openFds ∧
          w'.interest = w.interest ∧ w'.localPort fd = addr.port := by
  -- every branch adds entries that may stand in the log of a start
  have hboot {log : List LogEntry} {e : LogEntry} (h : ∀ e ∈ log, e.IsBooting)
      (he : e.IsBooting) : ∀ e' ∈ log ++ [e], e'.IsBooting := by
    intro e' he'
    rcases List.mem_append.mp he' with hold | hnew
    · exact h e' hold
    · exact List.mem_singleton.mp hnew ▸ he
  cases hsocket : (boot.listener w addr backlog).socket with
  | none =>
    exact ⟨none, w.record (.socket none), by simp only [Worker.eventCoreCreateListener, hsocket],
      rfl, rfl, rfl, rfl, rfl, rfl, fun _ _ h => h, fun _ _ => rfl,
      fun h => h.append_of_subset (List.Subset.refl _) trivial,
      fun h => hboot h trivial, rfl⟩
  | some fd =>
    have hnew := hfresh w addr backlog fd hsocket
    have hne (x : ℤ) (hx : x ∈ w.openFds) : x ≠ fd := by
      rintro rfl
      exact hnew hx
    set w₁ : Worker := { w.record (.socket (some fd)) with openFds := fd :: w.openFds } with hw₁
    by_cases hok : ((boot.listener w addr backlog).unblocked &&
        (boot.listener w addr backlog).reusable && (boot.listener w addr backlog).bound &&
        (boot.listener w addr backlog).listening) = true
    · -- the descriptor is kept, with the port it was bound to
      refine ⟨some fd,
        { w₁ with localPort := fun x => if x = fd then addr.port else w.localPort x },
        ?_, rfl, rfl, rfl, rfl, rfl, rfl, fun _ _ h => h, fun x hx => if_neg (hne x hx),
        fun h => ?_, fun h => hboot h trivial, hnew, rfl, rfl, if_pos rfl⟩
      · simp only [Worker.eventCoreCreateListener, hsocket]
        exact if_pos hok
      · exact h.append_of_subset (fun x hx => List.mem_cons_of_mem _ hx) trivial
    · -- some call failed, and the descriptor is closed
      have hfds : (w₁.closeFd fd).openFds = w.openFds := List.erase_cons_head ..
      refine ⟨none, w₁.closeFd fd, ?_, rfl, rfl, rfl, rfl, rfl, rfl, fun x r h => ?_,
        fun _ _ => rfl, fun h => ?_, fun h => hboot (hboot h trivial) trivial, hfds⟩
      · simp only [Worker.eventCoreCreateListener, hsocket]
        exact if_neg hok
      · by_cases hx : x = fd
        · simp [closeFd, hx] at h
        · simpa [hw₁, closeFd, Worker.record, hx] using h
      · have hsock : Accounted w.openFds (w.log ++ [.socket (some fd)]) :=
          h.append_of_subset (List.Subset.refl _) trivial
        rw [hfds]
        exact hsock.append_of_subset (List.Subset.refl _)
          (show Accounted w.openFds [.closeFd fd] from trivial)

/-- One server of an app module: it gets a listener at the end of `mpp_servers`, or the listeners
stay as they are. -/
theorem createListener_grows {boot : BootEnv} {server : ListenConf}
    (h : Booting servers w free conns) (hfresh : boot.FreshFds) (hserver : server ∈ servers)
    (hrun : Worker.createListener boot w server = .ok w') :
    ∃ free' conns', Booting servers w' free' conns' ∧ w'.capacity = w.capacity ∧
      (∀ i ∈ conns, (w'.sock i).fd = (w.sock i).fd ∧
        w'.localPort (w.sock i).fd = w.localPort (w.sock i).fd) ∧
      (w'.listeners = w.listeners ∨ ∃ i, w'.listeners = w.listeners ++ [i] ∧
        w'.localPort (w'.sock i).fd = htons server.port) := by
  unfold Worker.createListener at hrun
  by_cases haton : boot.inetAton server.ip = true
  · simp only [haton, Bool.not_true, Bool.false_eq_true, if_false] at hrun
    cases free with
    | nil => simp [h.lists.allocResource_nil, bind, Except.bind] at hrun
    | cons i free =>
      obtain ⟨links, halloc, hlists⟩ := h.lists.allocResource
      set w₁ : Worker := { w with
        links
        used := w.used + 1
        sock := Function.update w.sock i { w.sock i with belong := true } } with hw₁
      have hi : i ∉ conns := fun hmem => h.lists.notMem_free hmem List.mem_cons_self
      have hsock₁ (j : ℕ) (hj : j ∈ conns) : w₁.sock j = w.sock j := by
        refine Function.update_of_ne ?_ _ _
        rintro rfl
        exact hi hj
      simp only [halloc, bind, Except.bind] at hrun
      obtain ⟨fd, w₂, hcreate, hlinks, hsock, hused, hcapacity, hservers, happs, hinterest, hport,
        hlog, hboot, hfd⟩ := eventCoreCreateListener hfresh w₁
          { ip := server.ip, port := htons server.port }
          (if 0 < server.backlog then server.backlog else somaxconn)
      have hlists₂ : Lists w₂ [i] free conns [] :=
        hlists.congr hlinks hused hcapacity fun j => by rw [hsock]
      have hlog₂ := hlog h.descriptors.accounted
      rw [hcreate] at hrun
      cases fd with
      | none =>
        -- the slot goes back to the free list
        obtain ⟨links', hfree, hlists'⟩ := hlists₂.freeResource
        simp only [hfree, Except.ok.injEq] at hrun
        subst hrun
        have hsock₂ (j : ℕ) (hj : j ∈ conns) :
            Function.update w₂.sock i { w₂.sock i with belong := false } j = w.sock j := by
          rw [← hsock₁ j hj, ← hsock]
          refine Function.update_of_ne ?_ _ _
          rintro rfl
          exact hi hj
        exact ⟨i :: free, conns, h.congr hlists' hsock₂ hservers happs hfd hinterest hport hlog₂
          (hboot h.log), hcapacity, fun j hj => ⟨congrArg Socket.fd (hsock₂ j hj),
            hport _ (h.descriptors.fd_mem hj)⟩, Or.inl (congrArg (List.map Server.slot) hservers)⟩
      | some fd =>
        obtain ⟨hnew, hfds, hsame, hlocal⟩ := hfd
        simp only [Except.ok.injEq] at hrun
        subst hrun
        have hsock₂ (j : ℕ) (hj : j ∈ conns) :
            (w₂.hixoCreateSocket i fd .listen (some .hixoHandleAccept) none none).sock j =
              w.sock j := by
          rw [← hsock₁ j hj, ← hsock]
          refine Function.update_of_ne ?_ _ _
          rintro rfl
          exact hi hj
        have hfdi : ((w₂.hixoCreateSocket i fd .listen (some .hixoHandleAccept) none
            none).sock i).fd = fd := by
          simp [hixoCreateSocket, modifySock]
        have hlisteners : (w₂.servers ++ [Server.mk i false]).map Server.slot =
            w.listeners ++ [i] := by
          rw [hservers, List.map_append]
          rfl
        refine ⟨free, i :: conns, h.open_ hi ?_ (Int.natCast_nonneg fd) hnew hsock₂ ?_
          happs hfds hsame hport hlog₂ (hboot h.log) hfdi ?_ ?_ ?_ ?_ ⟨server, hserver, hlocal⟩,
          hcapacity, fun j hj => ⟨congrArg Socket.fd (hsock₂ j hj),
            hport _ (h.descriptors.fd_mem hj)⟩,
          Or.inr ⟨i, hlisteners, (congrArg w₂.localPort hfdi).trans hlocal⟩⟩
        · refine hlists₂.connect.congr rfl rfl rfl fun j => ?_
          by_cases hji : j = i <;>
            simp [Worker.addNode, hixoCreateSocket, modifySock, hji]
        · exact congrArg (· ++ [Server.mk i false]) hservers
        all_goals simp [Worker.addNode, hixoCreateSocket, modifySock]
  · simp only [haton, Bool.not_false, if_true, Except.ok.injEq] at hrun
    subst hrun
    exact ⟨free, conns, h, rfl, fun _ _ => ⟨rfl, rfl⟩, Or.inl rfl⟩

/-- The master stays in order when the entry of one server is tried. -/
theorem createListener {boot : BootEnv} {server : ListenConf}
    (h : Booting servers w free conns) (hfresh : boot.FreshFds) (hserver : server ∈ servers)
    (hrun : Worker.createListener boot w server = .ok w') :
    ∃ free' conns', Booting servers w' free' conns' := by
  obtain ⟨free', conns', h', -⟩ := h.createListener_grows hfresh hserver hrun
  exact ⟨free', conns', h'⟩

/-- The master stays in order when the entries of all servers are tried. -/
theorem foldlM_createListener {boot : BootEnv} {todo : List ListenConf}
    (h : Booting servers w free conns) (hfresh : boot.FreshFds) (htodo : todo ⊆ servers)
    (hrun : todo.foldlM (Worker.createListener boot) w = .ok w') :
    ∃ free' conns', Booting servers w' free' conns' := by
  -- one listener after the other, each from the lists that the one before left
  refine Programs.foldlM_invariant (P := fun w => ∃ free conns, Booting servers w free conns) hrun
    ⟨free, conns, h⟩ ?_
  rintro server hserver w w' ⟨free, conns, h⟩ hone
  exact h.createListener hfresh (htodo hserver) hone

end Booting

/-! ## The whole start -/

/-- A new cache has the size that was asked for. -/
theorem capacity_createResource {w w' : Worker} {count : ℕ} {calloc : Bool}
    (h : w.createResource count calloc = (true, w')) : w'.capacity = count := by
  obtain ⟨-, links, rfl, -, -⟩ := createResource_eq h
  rfl

/-- The two parts of `event_core_init_master`: a new cache with a slot for every connection and
every entry, and the listeners. -/
theorem eventCoreInitMaster_eq {boot : BootEnv} {maxConnections : ℕ} {apps : List AppCtx}
    {w : Worker} (hrun : eventCoreInitMaster boot maxConnections apps {} = .ok (true, w)) :
    ∃ w₁ free, Booting (apps.flatMap fun ctx => ctx.servers) w₁ free [] ∧ w.servers ≠ [] ∧
      w₁.capacity = maxConnections + (apps.map fun ctx => ctx.servers.length).sum ∧
      (apps.flatMap fun ctx => ctx.servers).foldlM (Worker.createListener boot) w₁ = .ok w := by
  unfold eventCoreInitMaster at hrun
  cases hshm : boot.shmget with
  | none => simp [hshm] at hrun
  | some id =>
    simp only [hshm] at hrun
    split at hrun
    · simp at hrun
    split at hrun
    · simp at hrun
    -- without the shared memory or the cache it returns no worker, so both are there
    next w₁ hcreate =>
      obtain ⟨hlists, hfds, hinterest, hlog, hservers, happs⟩ :=
        lists_createResource rfl rfl hcreate
      have hboot : Booting (apps.flatMap fun ctx => ctx.servers) w₁ _ [] :=
        { lists := hlists
          descriptors := ⟨by simp [hfds], by simp [hfds], by simp [hfds], by simp [hinterest],
            by simp [hlog, Accounted]⟩
          listeners := by simp [listeners, hservers]
          readHandler := by simp
          writeHandler := by simp
          disconnectHandler := by simp
          close := by simp
          served := by simp
          untagged := by simp [hservers]
          appCtxList := happs
          log := by simp [hlog] }
      -- what is left is the loop over the servers and the check that one listens
      obtain ⟨w₂, hfold, hrest⟩ := Programs.exists_of_bind_eq_ok hrun
      split at hrest
      · simp at hrest
      next hservers =>
        simp only [Except.ok.injEq, Prod.mk.injEq, true_and] at hrest
        subst hrest
        exact ⟨w₁, _, hboot, by simpa using hservers, capacity_createResource hcreate, hfold⟩

/-- When `event_core_init_master` succeeds, it leaves listeners for entries of the modules in a
cache that is in order. -/
theorem booting_of_eventCoreInitMaster {boot : BootEnv} {maxConnections : ℕ} {apps : List AppCtx}
    {w : Worker} (hfresh : boot.FreshFds)
    (hrun : eventCoreInitMaster boot maxConnections apps {} = .ok (true, w)) :
    ∃ free conns, Booting (apps.flatMap fun ctx => ctx.servers) w free conns := by
  obtain ⟨w₁, free₁, hboot, -, -, hfold⟩ := eventCoreInitMaster_eq hrun
  exact hboot.foldlM_createListener hfresh (List.Subset.refl _) hfold

/-- When `event_core_init_worker` succeeds, it has put the modules into the ring, the last one
first, and done nothing else. -/
theorem eventCoreInitWorker_eq {boot : BootEnv} {apps : List AppCtx} {w w' : Worker}
    (happs : w.appCtxList = []) (hrun : eventCoreInitWorker boot apps w = .ok (true, w')) :
    w' = { w with appCtxList := apps.reverse } := by
  unfold eventCoreInitWorker at hrun
  split at hrun
  · simp at hrun
  split at hrun
  · simp at hrun
  simp only [Except.ok.injEq, Prod.mk.injEq] at hrun
  rw [← hrun.2, happs]
  simp

/-- A worker that starts comes from `event_core_init_master` and then from `event_core_init_worker`,
with the power in between. -/
theorem startWorker_eq {boot : BootEnv} {maxConnections : ℕ} {apps : List AppCtx} {w : Worker}
    (hstart : startWorker boot maxConnections apps = .ok (some w)) :
    ∃ w₁ w₂, eventCoreInitMaster boot maxConnections apps {} = .ok (true, w₁) ∧
      eventCoreInitWorker boot apps
        { w₁ with power := (maxConnections : ℤ) - maxConnections / 8 } = .ok (true, w₂) ∧
      w = { w₂.epollInit with appCtxList := w₂.appCtxList.map appInitWorker } := by
  -- both initialisations return true, as the start returned a worker
  simp only [startWorker, bind, Except.bind] at hstart
  split at hstart
  · cases hstart
  next rslt hmaster =>
    obtain ⟨ok, w₁⟩ := rslt
    cases ok with
    | false => simp at hstart
    | true =>
      simp only [Bool.not_true, Bool.false_eq_true, if_false] at hstart
      split at hstart
      · cases hstart
      next rslt hworker =>
        obtain ⟨ok, w₂⟩ := rslt
        cases ok with
        | false => simp at hstart
        | true =>
          simp only [Bool.not_true, Bool.false_eq_true, if_false, Except.ok.injEq,
            Option.some.injEq] at hstart
          exact ⟨w₁, w₂, hmaster, hworker, hstart.symm⟩

/-- The worker that enters the run loop is consistent. All sockets on `mp_connections` are
listeners. -/
theorem consistent_of_startWorker {boot : BootEnv} {maxConnections : ℕ} {apps : List AppCtx}
    {w : Worker} (hfresh : boot.FreshFds)
    (hstart : startWorker boot maxConnections apps = .ok (some w)) :
    ∃ free, Consistent w.power w [] free w.listeners.reverse [] ∧
      (∀ e ∈ w.log, e.IsBooting) ∧ w.appCtxList = apps.reverse.map appInitWorker ∧
      ∀ server ∈ w.servers, server.tagged = false := by
  obtain ⟨w₁, w₂, hmaster, hworker, hw⟩ := startWorker_eq hstart
  obtain ⟨free, conns, h⟩ := booting_of_eventCoreInitMaster hfresh hmaster
  obtain rfl := eventCoreInitWorker_eq
    (w := { w₁ with power := (maxConnections : ℤ) - maxConnections / 8 }) h.appCtxList hworker
  have hlisteners : w.listeners = conns.reverse := hw ▸ h.listeners
  -- at the start every connection is a listener, so no connection is active
  rw [hlisteners, List.reverse_reverse]
  subst hw
  refine ⟨free, ⟨h.lists.congr rfl rfl rfl fun _ => rfl,
    h.descriptors.congr rfl (fun _ _ => ⟨rfl, rfl⟩) (fun _ _ hr => ?_) h.descriptors.accounted,
    ⟨?_, fun i hi => ?_, fun i hi hnot => ?_, ?_⟩⟩, h.log, rfl, h.untagged⟩
  · simp [epollInit] at hr
  · rw [hlisteners]
    exact fun i hi => List.mem_reverse.mp hi
  · have hi : i ∈ conns := List.mem_reverse.mp (hlisteners ▸ hi)
    obtain ⟨server, hserver, hport⟩ := h.served i hi
    obtain ⟨ctx, hctx, hserver⟩ := List.mem_flatMap.mp hserver
    exact ⟨h.readHandler i hi, h.writeHandler i hi, h.disconnectHandler i hi, h.close i hi,
      appInitWorker ctx, List.mem_map_of_mem (List.mem_reverse.mpr hctx),
      { server with port := htons server.port }, List.mem_map_of_mem hserver, hport.symm⟩
  · exact absurd (hlisteners ▸ List.mem_reverse.mpr hi) hnot
  · have hempty : conns.filter (· ∉ conns.reverse) = [] := by simp
    rw [hlisteners, hempty]
    simp

end Hixo
