import Hixo.Process.Defs
import Hixo.Worker.Runs

/-!
# Leaving the run loop

When `event_loop` returns, `worker_main_core` runs `event_core_exit_master`, which takes the
listeners off `mp_connections`, closes them and frees their slots, and then destroys the socket
cache. It does not look at the accepted connections.

* `eventLoop_run`: `event_loop` ends a run;
* `Lists.exitListeners`: the loop over the listeners;
* `CacheUnused`: what has to hold when the cache is destroyed;
* `cacheUnused_iff`: it holds exactly when no accepted connection is open.
-/

namespace Hixo

open Worker Programs

/-- When `event_loop` returns, there is a run that was left there. -/
theorem eventLoop_run {w₀ w w' : Worker} {passes : List Pass} {envs : List Env}
    (henvs : ∀ env ∈ envs, env.Valid) (hrun : Run w₀ passes true w)
    (hloop : eventLoop envs w = .ok w') : ∃ passes', Run w₀ passes' false w' := by
  induction envs generalizing w passes with
  | nil => cases hloop
  | cons env envs ih =>
    obtain ⟨⟨ok, w₁⟩, hbody, hrest⟩ := exists_of_bind_eq_ok hloop
    have hstep := hrun.step (henvs env List.mem_cons_self) hbody
    cases ok with
    | true => exact ih (fun env henv => henvs env (List.mem_cons_of_mem _ henv)) hstep hrest
    | false =>
      obtain rfl : w₁ = w' := Except.ok.inj hrest
      exact ⟨_, hstep⟩

/-! ## The loop over the listeners -/

section Listeners

variable {w w' : Worker} {free conns : List ℕ} {server : Server} {servers : List Server}

/-- For a listener that is not tagged, the socket is closed, and its slot goes back to the free
list. -/
theorem exitListener_spec (hlists : Lists w [] free conns []) (hfds : Descriptors w conns)
    (hi : server.slot ∈ conns) (htag : server.tagged = false) :
    ∃ w', exitListener w server = .ok w' ∧
      Lists w' [] (server.slot :: free) (conns.erase server.slot) [] ∧
      Descriptors w' (conns.erase server.slot) ∧ w'.servers = w.servers ∧
      w'.capacity = w.capacity := by
  -- the slot leaves the connections, then its descriptor is closed, then the slot is free
  obtain ⟨links, hrm, hlists₁⟩ := hlists.disconnect hi
  set w₁ : Worker := ({ w with links } : Worker).closeFd (w.sock server.slot).fd with hw₁
  have hlists₁ : Lists w₁ [server.slot] free (conns.erase server.slot) [] :=
    hlists₁.congr rfl rfl rfl fun _ => rfl
  obtain ⟨links', hfree, hlists₂⟩ := hlists₁.freeResource
  refine ⟨_, ?_, hlists₂, hfds.close hi rfl (fun j _ hj => Function.update_of_ne hj _ _)
    (fun fd r hr => ?_) ?_, rfl, rfl⟩
  · rw [exitListener, htag]
    simp only [Bool.false_eq_true, if_false, hrm, bind, Except.bind]
    exact hfree
  · by_cases hfd : fd = (w.sock server.slot).fd
    · simp [hw₁, closeFd, hfd] at hr
    · exact ⟨by simpa [hw₁, closeFd, record, hfd] using hr, hfd⟩
  · have haccounted := hfds.accounted
    refine haccounted.append (fun fd hfd => ?_) trivial
    by_cases heq : fd = (w.sock server.slot).fd
    · exact Or.inl (by simp [heq])
    · exact Or.inr ((List.mem_erase_of_ne heq).mpr hfd)

/-- The loop takes the listeners off `mp_connections`, unless a pointer to one is tagged. -/
theorem foldlM_exitListener (hlists : Lists w [] free conns []) (hfds : Descriptors w conns)
    (hsub : servers.map Server.slot ⊆ conns) (hnodup : (servers.map Server.slot).Nodup)
    (htags : ∀ server ∈ servers, server.tagged = false) :
    ∃ w' free', servers.foldlM exitListener w = .ok w' ∧
      Lists w' [] free' (conns.diff (servers.map Server.slot)) [] ∧
      Descriptors w' (conns.diff (servers.map Server.slot)) ∧ w'.capacity = w.capacity := by
  -- each listener is at another slot, so its slot is still a connection when its turn comes
  induction servers generalizing w free conns with
  | nil => exact ⟨w, free, rfl, hlists, hfds, rfl⟩
  | cons server servers ih =>
    obtain ⟨hnew, hnodup⟩ := List.nodup_cons.mp hnodup
    obtain ⟨w₁, hone, hlists₁, hfds₁, -, hcapacity₁⟩ := exitListener_spec hlists hfds
      (hsub List.mem_cons_self) (htags server List.mem_cons_self)
    have hsub₁ : servers.map Server.slot ⊆ conns.erase server.slot := by
      intro j hj
      refine (List.mem_erase_of_ne ?_).mpr (hsub (List.mem_cons_of_mem _ hj))
      rintro rfl
      exact hnew hj
    obtain ⟨w', free', hrest, hlists', hfds', hcapacity⟩ := ih hlists₁ hfds₁ hsub₁ hnodup
      fun server hserver => htags server (List.mem_cons_of_mem _ hserver)
    refine ⟨w', free', ?_, ?_, ?_, hcapacity.trans hcapacity₁⟩
    · rw [List.foldlM_cons, hone]
      exact hrest
    · rw [List.map_cons, List.diff_cons]
      exact hlists'
    · rw [List.map_cons, List.diff_cons]
      exact hfds'

/-- When the teardown of the listeners returns, none of their pointers was tagged. -/
theorem foldlM_exitListener_tagged (hrun : servers.foldlM exitListener w = .ok w') :
    ∀ server ∈ servers, server.tagged = false := by
  induction servers generalizing w with
  | nil => exact fun server hserver => absurd hserver List.not_mem_nil
  | cons server servers ih =>
    rw [List.foldlM_cons] at hrun
    obtain ⟨w₁, hone, hrest⟩ := exists_of_bind_eq_ok hrun
    intro server' hserver'
    rcases List.mem_cons.mp hserver' with rfl | hserver'
    · by_contra htag
      rw [exitListener, if_pos (by simpa using htag)] at hone
      cases hone
    · exact ih hrest server' hserver'

end Listeners

/-! ## The end of the cache -/

/-- Nothing uses `m_sockets_cache` any more, and everything is closed. -/
structure CacheUnused (w : Worker) : Prop where
  /-- No slot is in use. -/
  belong : ∀ i < w.capacity, (w.sock i).belong = false
  used : w.used = 0
  /-- `mp_connections` holds no node of the cache. -/
  connections : ∀ conns : List ℕ, w.links.IsList .connections (conns.map .node) → conns = []
  /-- The descriptors of listeners and accepted connections are closed. -/
  openFds : w.openFds = []

/-- All sockets on `mp_connections` are listeners. -/
def NoConnectionOpen (w : Worker) : Prop :=
  ∀ conns : List ℕ, w.links.IsList .connections (conns.map .node) → conns ⊆ w.listeners

/-- When a worker leaves the run loop and gets to the end of its socket cache, the cache is unused
if and only if no accepted connection was open. -/
theorem cacheUnused_iff {boot : BootEnv} {maxConnections : ℕ} {apps : List AppCtx}
    {w₀ w w₁ : Worker} {passes : List Pass} (hboot : boot.FreshFds)
    (hstart : startWorker boot maxConnections apps = .ok (some w₀))
    (hrun : Run w₀ passes false w) (hexit : w.exitListeners = .ok w₁) :
    CacheUnused w₁ ↔ NoConnectionOpen w := by
  obtain ⟨free₀, h₀, -, -, -⟩ := consistent_of_startWorker hboot hstart
  obtain ⟨free, conns, h, -, hlisteners, -⟩ := hrun.consistent h₀
  have hnodup : w.listeners.Nodup := by
    rw [hlisteners, ← List.nodup_reverse]
    exact h₀.lists.nodup_conns
  obtain ⟨w', free', hfold, hlists, hfds, -⟩ := foldlM_exitListener h.lists h.descriptors
    h.roles.listeners_subset hnodup (foldlM_exitListener_tagged hexit)
  obtain rfl : w' = w₁ := Except.ok.inj (hfold.symm.trans hexit)
  -- what is left on `mp_connections` are the accepted connections
  have hleft : conns.diff w.listeners = [] ↔ NoConnectionOpen w := by
    rw [List.eq_nil_iff_forall_not_mem]
    have hmem (i : ℕ) : i ∈ conns.diff w.listeners ↔ i ∈ conns ∧ i ∉ w.listeners :=
      h.lists.nodup_conns.mem_sdiff_iff
    constructor
    · intro hempty xs hxs i hi
      rw [h.lists.eq_of_isList hxs] at hi
      by_contra hnot
      exact hempty i ((hmem i).mpr ⟨hi, hnot⟩)
    · intro hnone i hi
      obtain ⟨hi, hnot⟩ := (hmem i).mp hi
      exact hnot (hnone conns h.lists.connections hi)
  rw [← hleft]
  constructor
  · intro hunused
    exact hunused.connections _ hlists.connections
  · intro hempty
    rw [show w.servers.map Server.slot = w.listeners from rfl, hempty] at hlists hfds
    refine ⟨fun i hi => ?_, hlists.used, fun xs hxs => hlists.eq_of_isList hxs, ?_⟩
    · have hfree : i ∈ free' := by simpa using hlists.mem_iff.mpr hi
      rw [Bool.eq_false_iff]
      exact fun hset => (hlists.belong i hi).mp hset hfree
    · exact List.perm_nil.mp hfds.fds

/-- As long as `EPOLL_CTL_DEL` succeeds for the listeners, the teardown gets to the end of the
cache. -/
theorem exists_exitListeners {boot : BootEnv} {maxConnections : ℕ} {apps : List AppCtx}
    {w₀ w : Worker} {passes : List Pass} {ok : Bool} (hboot : boot.FreshFds)
    (hstart : startWorker boot maxConnections apps = .ok (some w₀)) (hrun : Run w₀ passes ok w)
    (hdel : ListenersDeleted w w.log) : ∃ w₁, w.exitListeners = .ok w₁ := by
  obtain ⟨free₀, h₀, -, -, huntagged⟩ := consistent_of_startWorker hboot hstart
  obtain ⟨free, conns, h, -, hlisteners, -⟩ := hrun.consistent h₀
  have hnodup : w.listeners.Nodup := by
    rw [hlisteners, ← List.nodup_reverse]
    exact h₀.lists.nodup_conns
  obtain ⟨w₁, -, hfold, -⟩ := foldlM_exitListener h.lists h.descriptors
    h.roles.listeners_subset hnodup (hrun.untagged h₀ huntagged hdel)
  exact ⟨w₁, hfold⟩

/-! ## A sample -/

/-- `epoll_wait` fails. -/
def failingEnv : Env := { sampleEnv [] with wait := fun _ => .failed }

theorem failingEnv_valid : failingEnv.Valid where
  fresh := (sampleEnv_valid []).fresh
  batches _ _ h := nomatch h

/-- The worker that leaves the run loop after `n` passes. -/
def sampleLeaving (n : ℕ) : Worker :=
  match eventLoopBody failingEnv (samplePasses [] n) with
  | .ok (_, w) => w
  | .error _ => {}

/-- The same worker when its cache is destroyed. -/
def sampleDestroying (n : ℕ) : Worker :=
  match (sampleLeaving n).exitListeners with
  | .ok w => w
  | .error _ => {}

theorem run_sampleLeaving : Run sampleStart [⟨samplePasses [] 1, sampleLeaving 1⟩,
    ⟨samplePasses [] 0, samplePasses [] 1⟩] false (sampleLeaving 1) :=
  .step (.sample .start rfl) failingEnv_valid rfl

theorem cacheUnused_iff_sample :
    CacheUnused (sampleDestroying 1) ↔ NoConnectionOpen (sampleLeaving 1) :=
  cacheUnused_iff sampleBoot_fresh startWorker_sample run_sampleLeaving rfl

/-- A connection that was accepted in the first pass is still on `mp_connections` when the cache
is destroyed, and its descriptor is open. -/
theorem not_cacheUnused_open : (sampleLeaving 1).exitListeners = .ok (sampleDestroying 1) ∧
    (sampleDestroying 1).openFds = [11] ∧ ¬CacheUnused (sampleDestroying 1) :=
  ⟨rfl, rfl, fun h => absurd h.openFds (by decide)⟩

end Hixo
