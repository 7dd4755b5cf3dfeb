import Mathlib.Data.List.Forall2
import Hixo.Foundation.Programs
import Hixo.Worker.Start

/-!
# The listeners of a worker

Which entries of the app modules got a listener in `event_core_init_master`, and what the socket
cache has room for.

* `ListenerTable`: the listeners in `mpp_servers` are, in order, those of some of the entries;
* `listenerTable_of_startWorker`: this is so when the run loop is entered;
* `ListenerTable.eq_of_length`: with as many listeners as entries, they are those of all entries.
-/

namespace Hixo

open Worker

/-- The server entries of the app modules, in the order of the table. -/
def serverEntries (apps : List AppCtx) : List ListenConf := apps.flatMap fun ctx => ctx.servers

/-- The listener in a slot has the port of an entry. -/
def ListensTo (w : Worker) (i : ℕ) (server : ListenConf) : Prop :=
  w.localPort (w.sock i).fd = htons server.port

/-- The listeners of `w` are those of some of the entries, in their order. -/
def ListenerTable (w : Worker) (servers : List ListenConf) : Prop :=
  List.SublistForall₂ (ListensTo w) w.listeners servers

theorem length_serverEntries (apps : List AppCtx) :
    (serverEntries apps).length = (apps.map fun ctx => ctx.servers.length).sum := by
  rw [serverEntries, List.length_flatMap]

namespace ListenerTable

variable {w w' : Worker} {servers : List ListenConf} {i k : ℕ}

/-- A table has no more listeners than it was given entries. -/
theorem length_le (h : ListenerTable w servers) : w.servers.length ≤ servers.length := by
  obtain ⟨created, hports, hsub⟩ := List.sublistForall₂_iff.mp h
  rw [← List.length_map (f := Server.slot)]
  exact hports.length_eq.trans_le hsub.length_le

/-- When every entry got its listener, the listeners have the ports of the entries. -/
theorem eq_of_length (h : ListenerTable w servers) (hall : w.servers.length = servers.length) :
    List.Forall₂ (ListensTo w) w.listeners servers := by
  obtain ⟨created, hports, hsub⟩ := List.sublistForall₂_iff.mp h
  have hlength : created.length = servers.length := by
    rw [← hports.length_eq, listeners, List.length_map, hall]
  exact hsub.eq_of_length hlength ▸ hports

/-- For one entry a listener for it comes into the table, or none. -/
theorem createListener {boot : BootEnv} {entries : List ListenConf} {server : ListenConf}
    {free conns : List ℕ} (h : ListenerTable w servers) (hbooting : Booting entries w free conns)
    (hfresh : boot.FreshFds) (hserver : server ∈ entries)
    (hrun : Worker.createListener boot w server = .ok w') :
    ListenerTable w' (servers ++ [server]) := by
  obtain ⟨created, hports, hsub⟩ := List.sublistForall₂_iff.mp h
  obtain ⟨-, -, -, -, hsame, hgrows⟩ := hbooting.createListener_grows hfresh hserver hrun
  -- the listeners that exist keep their ports
  have hports' : List.Forall₂ (ListensTo w') w.listeners created := by
    have hmem : ∀ i ∈ w.listeners, i ∈ conns := by
      intro i hi
      rw [hbooting.listeners] at hi
      exact List.mem_reverse.mp hi
    refine ((List.forall₂_and_left _ _).mpr ⟨hmem, hports⟩).imp fun i server ⟨hi, hport⟩ => ?_
    obtain ⟨hfd, hlocal⟩ := hsame i hi
    rw [ListensTo, hfd, hlocal]
    exact hport
  refine List.sublistForall₂_iff.mpr ?_
  rcases hgrows with hlisteners | ⟨i, hlisteners, hport⟩
  · exact ⟨created, hlisteners ▸ hports', hsub.trans (List.sublist_append_left _ _)⟩
  · refine ⟨created ++ [server], ?_, hsub.append (List.Sublist.refl _)⟩
    rw [hlisteners]
    exact List.rel_append hports' (.cons hport .nil)

/-- The loop over the entries puts listeners for them into the table, in their order. -/
theorem foldlM_createListener {boot : BootEnv} {entries todo : List ListenConf}
    {free conns : List ℕ} (h : ListenerTable w servers) (hbooting : Booting entries w free conns)
    (hfresh : boot.FreshFds) (htodo : todo ⊆ entries)
    (hrun : todo.foldlM (Worker.createListener boot) w = .ok w') :
    ListenerTable w' (servers ++ todo) ∧ w'.capacity = w.capacity := by
  induction todo generalizing w servers free conns with
  | nil =>
    obtain rfl : w = w' := Except.ok.inj hrun
    exact ⟨by rwa [List.append_nil], rfl⟩
  | cons server todo ih =>
    rw [List.foldlM_cons] at hrun
    obtain ⟨w₁, hone, hrest⟩ := Programs.exists_of_bind_eq_ok hrun
    have hserver : server ∈ entries := htodo List.mem_cons_self
    obtain ⟨free₁, conns₁, hbooting₁, hcapacity₁, -⟩ :=
      hbooting.createListener_grows hfresh hserver hone
    obtain ⟨htable, hcapacity⟩ := ih (h.createListener hbooting hfresh hserver hone) hbooting₁
      (fun s hs => htodo (List.mem_cons_of_mem _ hs)) hrest
    rw [List.append_assoc] at htable
    exact ⟨htable, hcapacity.trans hcapacity₁⟩

end ListenerTable

/-! ## The whole start -/

/-- What the run loop is entered with: there are listeners, those of some of the entries, and the
cache has a slot for every connection and every entry. -/
theorem listenerTable_of_startWorker {boot : BootEnv} {maxConnections : ℕ} {apps : List AppCtx}
    {w : Worker} (hfresh : boot.FreshFds)
    (hstart : startWorker boot maxConnections apps = .ok (some w)) :
    ListenerTable w (serverEntries apps) ∧
      w.capacity = maxConnections + (serverEntries apps).length ∧
      w.power = (maxConnections : ℤ) - maxConnections / 8 ∧ w.servers ≠ [] := by
  obtain ⟨w₁, w₂, hmaster, hworker, hw⟩ := startWorker_eq hstart
  obtain ⟨w₀, free₀, hboot, hservers, hcapacity₀, hfold⟩ := eventCoreInitMaster_eq hmaster
  obtain ⟨free, conns, hbooting⟩ := booting_of_eventCoreInitMaster hfresh hmaster
  obtain rfl := eventCoreInitWorker_eq
    (w := { w₁ with power := (maxConnections : ℤ) - maxConnections / 8 }) hbooting.appCtxList
    hworker
  -- before the first listener the table is empty
  have hnone : w₀.listeners = [] := by
    rw [hboot.listeners, List.reverse_nil]
  have hempty : ListenerTable w₀ [] := by
    rw [ListenerTable, hnone]
    exact .nil
  obtain ⟨htable, hcapacity⟩ := hempty.foldlM_createListener hboot hfresh (List.Subset.refl _) hfold
  rw [List.nil_append] at htable
  subst hw
  refine ⟨htable, hcapacity.trans ?_, rfl, hservers⟩
  rw [hcapacity₀, length_serverEntries]

end Hixo
