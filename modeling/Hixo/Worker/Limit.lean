import Hixo.Worker.Burst
import Hixo.Worker.ListenerTable

/-!
# The number of open connections

The socket cache is the only thing that limits the connections of a worker. It has a slot for
every connection that is allowed and one for every server entry, so that an entry that got no
listener leaves a slot for one connection more.

* `InRun`: the states of a worker in its runs, inside of passes as well;
* `length_connections_le`, `exists_full`: how many connections there are at most, and that a
  burst gets so far;
* `withinLimit_iff`: the limit holds in all runs exactly when every entry got its listener.
-/

namespace Hixo

open Worker

/-- The states of a worker that started as `w₀`: between two passes, between two visits, and at
the head of the accept loop. -/
inductive InRun (w₀ : Worker) (w : Worker) : Prop
  | pass {passes : List Pass} {ok : Bool} (hrun : Run w₀ passes ok w)
  | visit {env : Env} {n : ℕ} {next : Option Cell} (hhead : VisitHead w₀ env n next w)
  | accept {env : Env} {l n : ℕ} {ctx : Option AppCtx} (hhead : AcceptHead w₀ env l n ctx w)

/-- The open connections of a worker with `conns` on `mp_connections`. -/
def Worker.openConnections (w : Worker) (conns : List ℕ) : List ℕ :=
  conns.filter (· ∉ w.listeners)

/-- In every state that is reached, at most `maxConnections` connections are open. -/
def WithinLimit (maxConnections : ℕ) (w₀ : Worker) : Prop :=
  ∀ w, InRun w₀ w → ∀ conns, w.links.IsList .connections (conns.map .node) →
    (w.openConnections conns).length ≤ maxConnections

section Limit

variable {power₀ : ℤ} {w₀ w : Worker} {free₀ conns₀ free conns posted : List ℕ}

/-- In every state that is reached the invariant holds, with the cache and the listeners of the
start. -/
theorem InRun.consistent (hreached : InRun w₀ w)
    (h₀ : Consistent power₀ w₀ [] free₀ conns₀ []) :
    ∃ free conns posted, Consistent power₀ w [] free conns posted ∧ w.capacity = w₀.capacity ∧
      w.listeners = w₀.listeners := by
  cases hreached with
  | pass hrun =>
    obtain ⟨free, conns, h, hcapacity, hlisteners, -⟩ := hrun.consistent h₀
    exact ⟨free, conns, [], h, hcapacity, hlisteners⟩
  | visit hhead =>
    obtain ⟨free, conns, posted, h, -, -, hcapacity, hkeeps⟩ := hhead.consistent h₀
    exact ⟨free, conns, posted, h, hcapacity, hkeeps.listeners⟩
  | accept hhead =>
    obtain ⟨free, conns, posted, h, -, hcapacity, hkeeps⟩ := hhead.consistent h₀
    exact ⟨free, conns, posted, h, hcapacity, hkeeps.listeners⟩

/-- The sockets on `mp_connections` are the open connections and the listeners. -/
theorem Consistent.length_openConnections (h : Consistent power₀ w [] free conns posted)
    (hnodup : w.listeners.Nodup) :
    (w.openConnections conns).length + w.servers.length = conns.length := by
  have hperm : (conns.filter (· ∈ w.listeners)).Perm w.listeners := by
    refine (List.perm_ext_iff_of_nodup (h.lists.nodup_conns.filter _) hnodup).mpr fun i => ?_
    simpa using @h.roles.listeners_subset i
  have hsplit := List.length_eq_length_filter_add (l := conns) (· ∈ w.listeners)
  have hlength : w.listeners.length = w.servers.length := List.length_map _
  rw [hperm.length_eq, hlength] at hsplit
  have hnot : conns.filter (fun i => !decide (i ∈ w.listeners)) = w.openConnections conns :=
    List.filter_congr fun i _ => by simp
  rw [hnot] at hsplit
  omega

/-- The open connections and the listeners fit into the cache, and each connection takes one unit of
power. -/
theorem length_openConnections_le (hreached : InRun w₀ w)
    (h₀ : Consistent power₀ w₀ [] free₀ conns₀ []) (hnodup : w₀.listeners.Nodup)
    (hlist : w.links.IsList .connections (conns.map .node)) :
    (w.openConnections conns).length + w₀.servers.length ≤ w₀.capacity ∧
      w.power = power₀ - (w.openConnections conns).length := by
  obtain ⟨free, conns', posted, h, hcapacity, hlisteners⟩ := hreached.consistent h₀
  obtain rfl := h.lists.eq_of_isList hlist
  have hsame : w.servers.length = w₀.servers.length := by
    rw [← List.length_map (f := Server.slot), ← List.length_map (f := Server.slot)]
    exact congrArg List.length hlisteners
  have hlength := h.length_openConnections (hlisteners ▸ hnodup)
  have hle := h.lists.length_conns_le
  exact ⟨by omega, h.roles.power⟩

/-- With power and an untagged listener, a run fills the cache. -/
theorem exists_full (h₀ : Consistent power₀ w₀ [] free₀ w₀.listeners.reverse [])
    (htag : ∀ server ∈ w₀.servers, server.tagged = false) (hpower : 0 < w₀.power)
    (hservers : w₀.servers ≠ []) :
    ∃ w conns, InRun w₀ w ∧ w.links.IsList .connections (conns.map .node) ∧
      (w.openConnections conns).length + w₀.servers.length = w₀.capacity := by
  obtain ⟨server, servers, hcons⟩ := List.exists_cons_of_ne_nil hservers
  have hl : server.slot ∈ w₀.listeners := by simp [listeners, hcons]
  obtain ⟨w, posted, hhead, h⟩ := exists_acceptHead h₀ htag hpower hl free₀.length
  obtain ⟨-, -, -, -, -, -, hkeeps⟩ := hhead.consistent h₀
  -- as many connections as there are free slots, all in one pass
  obtain ⟨m, ctx, w', conns, hhead', h'⟩ :=
    hhead.burst h (hkeeps.listeners ▸ hl) (le_refl _)
  obtain ⟨-, -, -, -, -, hcapacity, hkeeps'⟩ := hhead'.consistent h₀
  have hnodup : w'.listeners.Nodup := by
    rw [hkeeps'.listeners]
    exact List.nodup_reverse.mp h₀.lists.nodup_conns
  have hsame : w'.servers.length = w₀.servers.length := by
    rw [← List.length_map (f := Server.slot), ← List.length_map (f := Server.slot)]
    exact congrArg List.length hkeeps'.listeners
  have hlength := h'.length_openConnections hnodup
  have hfull := h'.lists.slots.length_eq
  simp only [List.nil_append, List.length_range] at hfull
  exact ⟨w', conns, .accept hhead', h'.lists.connections, by omega⟩

end Limit

/-- The number of open connections stays within `m_max_connections` in all runs exactly when
every server entry got its listener, or no connection is allowed at all. -/
theorem withinLimit_iff {boot : BootEnv} {maxConnections : ℕ} {apps : List AppCtx} {w₀ : Worker}
    (hboot : boot.FreshFds) (hstart : startWorker boot maxConnections apps = .ok (some w₀)) :
    WithinLimit maxConnections w₀ ↔
      w₀.servers.length = (serverEntries apps).length ∨ maxConnections = 0 := by
  obtain ⟨free₀, h₀, -, -, huntagged⟩ := consistent_of_startWorker hboot hstart
  obtain ⟨htable, hcapacity, hpower, hservers⟩ := listenerTable_of_startWorker hboot hstart
  have hnodup : w₀.listeners.Nodup := List.nodup_reverse.mp h₀.lists.nodup_conns
  constructor
  · intro hlimit
    -- a run that fills the cache passes the limit by the listeners that were not created
    by_contra hnot
    obtain ⟨hfewer, hpos⟩ := not_or.mp hnot
    obtain ⟨w, conns, hreached, hlist, hfull⟩ := exists_full h₀ huntagged (by omega) hservers
    have hle := hlimit w hreached conns hlist
    have hentries := htable.length_le
    omega
  · rintro (hall | rfl) w hreached conns hlist
    · have hle := (length_openConnections_le hreached h₀ hnodup hlist).1
      omega
    · -- without power nothing is accepted, and every connection takes one unit
      have hidle := idle_of_startWorker hboot hstart
      have hsame : w.power = w₀.power := by
        cases hreached with
        | pass hrun => exact (hidle.run hrun).2
        | visit hhead => exact (hidle.visitHead hhead).2
        | accept hhead => exact absurd hhead hidle.no_acceptHead
      have hconns := (length_openConnections_le hreached h₀ hnodup hlist).2
      omega

/-! ## A sample -/

/-- A boot in which `bind` fails for a port that is taken. -/
def takenBoot : BootEnv where
  shmget := some 0
  callocServers := true
  callocCache := true
  inetAton _ := true
  listener w addr _ := ⟨some (sampleFd w), true, true,
    w.openFds.all fun fd => w.localPort fd ≠ addr.port, true⟩
  shmat := true

theorem takenBoot_fresh : takenBoot.FreshFds := by
  intro w addr backlog fd hfd
  obtain rfl : sampleFd w = fd := Option.some.inj hfd
  exact sampleFd_notMem w

/-- An app module with the same server twice. -/
def doubledApp : AppCtx :=
  ⟨0, some 1, some 2, some 3, [⟨"0.0.0.0", 8001, 0⟩, ⟨"0.0.0.0", 8001, 0⟩]⟩

/-- A worker for this module that is allowed one connection. -/
def doubledStart : Worker :=
  match startWorker takenBoot 1 [doubledApp] with
  | .ok (some w) => w
  | _ => {}

theorem startWorker_doubled :
    startWorker takenBoot 1 [doubledApp] = .ok (some doubledStart) := rfl

theorem withinLimit_iff_doubled :
    WithinLimit 1 doubledStart ↔
      doubledStart.servers.length = (serverEntries [doubledApp]).length ∨ 1 = 0 :=
  withinLimit_iff takenBoot_fresh startWorker_doubled

/-- The second entry gets no listener, and two connections can be open. -/
theorem not_withinLimit_doubled :
    startWorker takenBoot 1 [doubledApp] = .ok (some doubledStart) ∧
      ¬WithinLimit 1 doubledStart := by
  refine ⟨rfl, fun hlimit => ?_⟩
  obtain ⟨free₀, h₀, -, -, huntagged⟩ :=
    consistent_of_startWorker takenBoot_fresh startWorker_doubled
  obtain ⟨w, conns, hreached, hlist, hfull⟩ :=
    exists_full h₀ huntagged (by decide) (by decide)
  have hservers : doubledStart.servers.length = 1 := rfl
  have hcapacity : doubledStart.capacity = 3 := rfl
  have hle := hlimit w hreached conns hlist
  omega

end Hixo
