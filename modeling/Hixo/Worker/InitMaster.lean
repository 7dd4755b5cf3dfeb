import Hixo.Worker.ListenerTable

/-!
# `event_core_init_master`

The master creates the socket cache and a listener for each server entry that it can serve, or
takes everything back. The list `mp_connections` may have nodes from elsewhere.

* `KeepsSegment`: what the creation of the listeners does not touch;
* `createdListeners`: the entries for which `event_core_create_listener` gets a descriptor;
* `Filling`: what holds between two entries, and `Filling.createListener`: one entry;
* `MasterStarted`, `MasterUnwound`: what is left after success and after failure;
* `eventCoreInitMaster_spec`: one of the two is left, after every pattern of failures.
-/

namespace Hixo

open LinkHeap Worker Programs

/-! ## The shared-memory segment -/

section Master

variable {w w' : Worker} {i : ℕ}

/-- What the creation of the listeners does not touch. -/
structure KeepsSegment (w w' : Worker) : Prop where
  cacheExists : w'.cacheExists = w.cacheExists
  shmid : w'.shmid = w.shmid
  segments : w'.segments = w.segments

theorem KeepsSegment.trans {w'' : Worker} (h : KeepsSegment w w') (h' : KeepsSegment w' w'') :
    KeepsSegment w w'' :=
  ⟨h'.1.trans h.1, h'.2.trans h.2, h'.3.trans h.3⟩

theorem keepsSegment_assertRmNode {head node : Cell} (h : w.assertRmNode head node = .ok w') :
    KeepsSegment w w' := by
  unfold assertRmNode at h
  split at h
  · cases h
  · cases h
  · obtain rfl := Except.ok.inj h
    exact ⟨rfl, rfl, rfl⟩

theorem keepsSegment_allocResource {r : Option ℕ} (h : w.allocResource = .ok (r, w')) :
    KeepsSegment w w' := by
  unfold allocResource at h
  split at h
  · obtain ⟨-, rfl⟩ := Prod.mk.inj (Except.ok.inj h)
    exact ⟨rfl, rfl, rfl⟩
  · obtain ⟨w₁, hrm, h⟩ := exists_of_bind_eq_ok h
    dsimp only at h
    split_ifs at h
    obtain ⟨-, rfl⟩ := Prod.mk.inj (Except.ok.inj h)
    exact (keepsSegment_assertRmNode hrm).trans ⟨rfl, rfl, rfl⟩
  · cases h

theorem keepsSegment_freeResource (h : w.freeResource i = .ok w') : KeepsSegment w w' := by
  unfold freeResource at h
  dsimp only at h
  split_ifs at h
  · obtain rfl := Except.ok.inj h
    exact ⟨rfl, rfl, rfl⟩
  · obtain rfl := Except.ok.inj h
    exact ⟨rfl, rfl, rfl⟩

theorem keepsSegment_eventCoreCreateListener (boot : BootEnv) (w : Worker) (addr : SockAddr)
    (backlog : ℤ) : KeepsSegment w (eventCoreCreateListener boot w addr backlog).2 := by
  unfold eventCoreCreateListener
  dsimp only
  split
  · exact ⟨rfl, rfl, rfl⟩
  · split <;> exact ⟨rfl, rfl, rfl⟩

theorem keepsSegment_createResource {count : ℕ} {calloc : Bool}
    (h : w.createResource count calloc = (true, w')) :
    w'.cacheExists = true ∧ w'.shmid = w.shmid ∧ w'.segments = w.segments := by
  obtain ⟨-, links, rfl, -, -⟩ := createResource_eq h
  exact ⟨rfl, rfl, rfl⟩

theorem keepsSegment_createListener {boot : BootEnv} {server : ListenConf}
    (h : createListener boot w server = .ok w') : KeepsSegment w w' := by
  unfold createListener at h
  dsimp only at h
  split at h
  · obtain rfl := Except.ok.inj h
    exact ⟨rfl, rfl, rfl⟩
  · obtain ⟨⟨r, w₁⟩, halloc, h⟩ := exists_of_bind_eq_ok h
    have hkeeps := keepsSegment_allocResource halloc
    cases r with
    | none => cases h
    | some i =>
      dsimp only at h
      have hcreate := keepsSegment_eventCoreCreateListener boot w₁
        { ip := server.ip, port := htons server.port }
        (if 0 < server.backlog then server.backlog else somaxconn)
      split at h
      next w₂ hlistener =>
        rw [hlistener] at hcreate
        exact (hkeeps.trans hcreate).trans (keepsSegment_freeResource h)
      next fd w₂ hlistener =>
        rw [hlistener] at hcreate
        obtain rfl := Except.ok.inj h
        exact (hkeeps.trans hcreate).trans ⟨rfl, rfl, rfl⟩

theorem keepsSegment_foldlM {boot : BootEnv} {servers : List ListenConf}
    (h : servers.foldlM (createListener boot) w = .ok w') : KeepsSegment w w' :=
  foldlM_invariant h ⟨rfl, rfl, rfl⟩ fun _ _ _ _ hkeeps hone =>
    hkeeps.trans (keepsSegment_createListener hone)

/-- The master leaves the segment of the accept lock, the socket cache and a listener. -/
theorem eventCoreInitMaster_keeps {boot : BootEnv} {maxConnections : ℕ} {apps : List AppCtx}
    (hrun : eventCoreInitMaster boot maxConnections apps {} = .ok (true, w)) :
    (∃ id, w.shmid = some id ∧ id ∈ w.segments) ∧ w.cacheExists = true ∧ w.servers ≠ [] := by
  unfold eventCoreInitMaster at hrun
  cases hshm : boot.shmget with
  | none => simp [hshm] at hrun
  | some id =>
    simp only [hshm] at hrun
    split at hrun
    · simp at hrun
    split at hrun
    · simp at hrun
    next w₁ hcreate =>
      obtain ⟨w₂, hfold, hrun⟩ := exists_of_bind_eq_ok hrun
      split at hrun
      · simp at hrun
      next hservers =>
        obtain ⟨-, rfl⟩ := Prod.mk.inj (Except.ok.inj hrun)
        have hkeeps := keepsSegment_foldlM hfold
        -- the new cache exists, and the segment is the one from `shmget`
        obtain ⟨hcache, hshmid, hsegments⟩ := keepsSegment_createResource hcreate
        refine ⟨⟨id, hkeeps.shmid.trans hshmid, ?_⟩, hkeeps.cacheExists.trans hcache, ?_⟩
        · rw [hkeeps.segments, hsegments]
          exact List.mem_cons_self
        · simpa using hservers

end Master

/-! ## The listeners -/

/-- What `event_core_create_listener` returns for an entry of an app module, when the loop over
the entries comes to it in `w`. -/
def listenerFd (boot : BootEnv) (w : Worker) (server : ListenConf) : Option ℕ :=
  if !boot.inetAton server.ip then none
  else
    match w.allocResource with
    | .ok (some _, w) => (eventCoreCreateListener boot w ⟨server.ip, htons server.port⟩
        (if 0 < server.backlog then server.backlog else somaxconn)).1
    | _ => none

/-- The entries for which a listener is created, in the order of the table, with the
descriptors. -/
def createdListeners (boot : BootEnv) : List ListenConf → Worker → List (ListenConf × ℕ)
  | [], _ => []
  | server :: servers, w =>
    match createListener boot w server with
    | .error _ => []
    | .ok w' => (listenerFd boot w server).toList.map (server, ·) ++
        createdListeners boot servers w'

/-- The cell is not in a cache of `count` slots, nor the head of its free list. -/
def Cell.Outside (count : ℕ) : Cell → Prop
  | .freeList => False
  | .node i | .postedNode i => count ≤ i
  | .connections | .postedEvents => True

/-- The listener of an entry is in the slot that the pointer leads to. -/
structure HoldsListener (w : Worker) (server : Server) (entry : ListenConf × ℕ) : Prop where
  fd : (w.sock server.slot).fd = entry.2
  readHandler : (w.sock server.slot).readHandler = some .hixoHandleAccept
  untagged : server.tagged = false

/-- `event_core_create_listener` changes the descriptors and the log. -/
theorem eventCoreCreateListener_eq (boot : BootEnv) (w : Worker) (addr : SockAddr)
    (backlog : ℤ) :
    ∃ fd openFds interest localPort log, eventCoreCreateListener boot w addr backlog =
        (fd, { w with openFds, interest, localPort, log }) ∧
      openFds = (fd.toList.map fun fd : ℕ => (fd : ℤ)) ++ w.openFds := by
  unfold eventCoreCreateListener
  dsimp only
  cases hsocket : (boot.listener w addr backlog).socket with
  | none => exact ⟨none, _, _, _, _, rfl, rfl⟩
  | some fd =>
    dsimp only
    split_ifs
    · exact ⟨some fd, _, _, _, _, rfl, rfl⟩
    · exact ⟨none, _, _, _, _, rfl, List.erase_cons_head ..⟩

/-- What holds between two entries in `event_core_init_master`: listeners for `created` exist, the
slots in `free` are free, and `mp_connections` had the nodes `former` before. -/
structure Filling (w₀ w : Worker) (former : List Cell) (free : List ℕ)
    (created : List (ListenConf × ℕ)) : Prop where
  freeSlots : FreeSlots w free
  connections : w.links.IsList .connections (w.listeners.reverse.map .node ++ former)
  outside : ∀ c ∈ former, c.Outside w.capacity
  /-- Every slot is free or has a listener. -/
  slots : (free ++ w.listeners).Perm (List.range w.capacity)
  used : w.used = w.servers.length
  servers : List.Forall₂ (HoldsListener w) w.servers created
  /-- The descriptors of the listeners are open besides those from before. -/
  openFds : w.openFds = (created.map fun entry => (entry.2 : ℤ)).reverse ++ w₀.openFds

namespace Filling

variable {boot : BootEnv} {w₀ w w' : Worker} {former : List Cell} {free free' : List ℕ}
  {created : List (ListenConf × ℕ)}

/-- No slot of the new cache is free and a listener's, and none is there twice. -/
theorem nodup (h : Filling w₀ w former free created) : (free ++ w.listeners).Nodup :=
  h.slots.nodup_iff.mpr List.nodup_range

/-- The slots of the listeners are slots of the new cache. -/
theorem lt_of_mem_listeners (h : Filling w₀ w former free created) {i : ℕ}
    (hi : i ∈ w.listeners) : i < w.capacity :=
  List.mem_range.mp (h.slots.subset (List.mem_append_right _ hi))

/-- The nodes on `mp_connections` are neither free nor heads of other lists. -/
theorem ne_of_mem (h : Filling w₀ w former free created) {c : Cell}
    (hc : c ∈ Cell.connections :: (w.listeners.reverse.map .node ++ former)) :
    c ≠ .freeList ∧ ∀ i ∈ free, c ≠ .node i := by
  rcases List.mem_cons.mp hc with rfl | hc
  · exact ⟨nofun, nofun⟩
  -- a node of the connections is a listener created here or a node from before
  rcases List.mem_append.mp hc with hc | hc
  · obtain ⟨j, hj, rfl⟩ := List.mem_map.mp hc
    refine ⟨nofun, ?_⟩
    rintro i hi hij
    obtain rfl := Cell.node.inj hij
    exact (List.nodup_append.mp h.nodup).2.2 _ hi _ (List.mem_reverse.mp hj) rfl
  · refine ⟨?_, ?_⟩
    · rintro rfl
      exact h.outside _ hc
    · rintro i hi rfl
      have hge : w.capacity ≤ i := h.outside _ hc
      exact absurd (h.freeSlots.lt i hi) (not_lt.mpr hge)

/-- The listeners stay in their slots when their descriptors and read handlers stay. -/
theorem servers_congr (h : Filling w₀ w former free created)
    (hsock : ∀ j ∈ w.listeners, (w'.sock j).fd = (w.sock j).fd ∧
      (w'.sock j).readHandler = (w.sock j).readHandler) :
    List.Forall₂ (HoldsListener w') w.servers created := by
  have hmem : ∀ server ∈ w.servers, server.slot ∈ w.listeners :=
    fun _ hserver => List.mem_map_of_mem hserver
  refine ((List.forall₂_and_left _ _).mpr ⟨hmem, h.servers⟩).imp ?_
  rintro server entry ⟨hslot, hholds⟩
  obtain ⟨hfd, hread⟩ := hsock _ hslot
  exact ⟨hfd.trans hholds.fd, hread.trans hholds.readHandler, hholds.untagged⟩

/-- For one entry a listener is created in a free slot, unless its socket cannot be had. -/
theorem createListener {i : ℕ} (h : Filling w₀ w former (i :: free) created)
    (boot : BootEnv) (server : ListenConf) :
    ∃ w' free', Worker.createListener boot w server = .ok w' ∧
      Filling w₀ w' former free'
        (created ++ (listenerFd boot w server).toList.map (server, ·)) ∧
      free.length ≤ free'.length := by
  unfold Worker.createListener listenerFd
  by_cases haton : boot.inetAton server.ip = true
  swap
  · refine ⟨w, i :: free, ?_, ?_, Nat.le_succ _⟩
    · simp [haton]
    · simpa [haton] using h
  simp only [haton, Bool.not_true, Bool.false_eq_true, if_false]
  obtain ⟨links, halloc, hfree, hframe⟩ := h.freeSlots.allocResource
  set w₁ : Worker := { w with
    links
    used := w.used + 1
    sock := Function.update w.sock i { w.sock i with belong := true } } with hw₁
  have hi : i < w.capacity := h.freeSlots.lt i List.mem_cons_self
  have hfresh : i ∉ free ∧ i ∉ w.listeners := by
    simpa [not_or] using (List.nodup_cons.mp h.nodup).1
  have hne (j : ℕ) (hj : j ∈ w.listeners) : j ≠ i := by
    rintro rfl
    exact hfresh.2 hj
  have hconns : links.IsList .connections (w.listeners.reverse.map .node ++ former) :=
    h.connections.congr fun c hc => hframe c (h.ne_of_mem hc).1 (h.ne_of_mem hc).2
  rw [bind_of_eq_ok halloc, halloc]
  dsimp only
  obtain ⟨fd, openFds, interest, localPort, log, hcreate, hfds⟩ := eventCoreCreateListener_eq boot
    w₁ ⟨server.ip, htons server.port⟩ (if 0 < server.backlog then server.backlog else somaxconn)
  set w₂ : Worker := { w₁ with openFds, interest, localPort, log } with hw₂
  rw [hcreate]
  have hfree₂ : FreeSlots w₂ free := hfree.congr rfl (fun _ _ => rfl) rfl fun _ => rfl
  cases fd with
  | none =>
    -- the slot goes back to the free list
    obtain ⟨hfreed, hfree₃⟩ := hfree₂.freeResource hi hfresh.1
    refine ⟨_, i :: free, hfreed, ?_, Nat.le_succ _⟩
    rw [Option.toList_none, List.map_nil, List.append_nil]
    refine ⟨hfree₃, ?_, h.outside, h.slots, ?_, h.servers_congr fun j hj => ?_, ?_⟩
    · refine hconns.congr fun c hc => addNode_of_ne (h.ne_of_mem hc).1 ?_
      exact (h.ne_of_mem hc).2 i List.mem_cons_self
    · show w.used + 1 - 1 = (w.servers.length : ℤ)
      have hused := h.used
      omega
    · simp [hw₂, hw₁, hne j hj]
    · exact hfds.trans h.openFds
  | some fd =>
    set w₃ : Worker := w₂.hixoCreateSocket i fd .listen (some .hixoHandleAccept) none none with hw₃
    set w₄ : Worker := Worker.addNode { w₃ with servers := w₃.servers ++ [Server.mk i false] }
      .connections (.node i) with hw₄
    have hlinks : w₄.links = links.addNode .connections (.node i) := rfl
    have hframe₄ {c : Cell} (hhead : c ≠ .connections) (hc : c ≠ .node i) :
        w₄.links c = links c := addNode_of_ne hhead hc
    have hservers : w₄.servers = w.servers ++ [Server.mk i false] := rfl
    have hlisteners : w₄.listeners = w.listeners ++ [i] := by
      rw [listeners, hservers, List.map_append]
      rfl
    have hsock (j : ℕ) (hj : j ∈ w.listeners) : w₄.sock j = w.sock j := by
      simp [hw₄, hw₃, hw₂, hw₁, Worker.addNode, hixoCreateSocket, modifySock, hne j hj]
    have hnode : Cell.node i ∉ Cell.connections :: (w.listeners.reverse.map .node ++ former) :=
      fun hc => (h.ne_of_mem hc).2 i List.mem_cons_self rfl
    refine ⟨w₄, free, rfl, ⟨?_, ?_, h.outside, ?_, ?_, ?_, ?_⟩, le_rfl⟩
    · -- the new link is neither at the head of the free list nor in it
      refine hfree₂.congr ?_ (fun j hj => ?_) rfl fun j => ?_
      · exact hframe₄ (by simp) (by simp)
      · refine hframe₄ (by simp) ?_
        rintro hji
        exact hfresh.1 (Cell.node.inj hji ▸ hj)
      · by_cases hji : j = i <;> simp [hw₄, hw₃, hixoCreateSocket, modifySock, Worker.addNode, hji]
    · rw [hlinks, hlisteners, List.reverse_append, List.reverse_singleton, List.singleton_append]
      exact hconns.addNode hnode
    · rw [hlisteners, ← List.append_assoc]
      exact (List.perm_append_singleton i (free ++ w.listeners)).trans h.slots
    · rw [hservers, List.length_append, List.length_singleton]
      show w.used + 1 = _
      have hused := h.used
      omega
    · rw [hservers]
      refine List.rel_append (h.servers_congr fun j hj => ?_) (.cons ?_ .nil)
      · rw [hsock j hj]
        exact ⟨rfl, rfl⟩
      · constructor <;> simp [hw₄, hw₃, hixoCreateSocket, modifySock, Worker.addNode]
    · show openFds = _
      rw [hfds, List.map_append, List.reverse_append]
      simpa [hw₁] using h.openFds

/-- When there are enough free slots, the listeners of all entries are created that can be had. -/
theorem foldlM_createListener (boot : BootEnv) {todo : List ListenConf}
    (h : Filling w₀ w former free created) (hroom : todo.length ≤ free.length) :
    ∃ w' free', todo.foldlM (Worker.createListener boot) w = .ok w' ∧
      Filling w₀ w' former free' (created ++ createdListeners boot todo w) := by
  induction todo generalizing w free created with
  | nil => exact ⟨w, free, rfl, by rwa [createdListeners, List.append_nil]⟩
  | cons server todo ih =>
    cases free with
    | nil => simp at hroom
    | cons i free =>
      -- each listener takes at most one slot, so the room for the rest is left
      obtain ⟨w₁, free₁, hone, h₁, hlen⟩ := h.createListener boot server
      obtain ⟨w', free', hrun, h'⟩ := ih h₁ ((Nat.le_of_succ_le_succ hroom).trans hlen)
      rw [List.append_assoc] at h'
      refine ⟨w', free', ?_, ?_⟩
      · rw [List.foldlM_cons, bind_of_eq_ok hone]
        exact hrun
      · rw [createdListeners, hone]
        exact h'

end Filling

/-! ## The whole function -/

/-- `event_core_init_master` up to the loop over the entries, when nothing fails there. -/
def beforeListeners (boot : BootEnv) (maxConnections : ℕ) (apps : List AppCtx) (w : Worker) :
    Worker :=
  ({ w with
      shmid := boot.shmget
      segments := boot.shmget.toList ++ w.segments
      servers := [] }.createResource (maxConnections + (serverEntries apps).length)
    boot.callocCache).2

/-- What is left in `w` when `event_core_init_master` returns `HIXO_OK`. -/
structure MasterStarted (boot : BootEnv) (maxConnections : ℕ) (apps : List AppCtx)
    (w₀ w : Worker) (former : List Cell) : Prop where
  /-- `m_nservers >= 1` -/
  nonempty : 1 ≤ w.servers.length
  /-- `mpp_servers` leads to the listeners that were created, in the order of the table. -/
  servers : List.Forall₂ (HoldsListener w) w.servers
    (createdListeners boot (serverEntries apps) (beforeListeners boot maxConnections apps w₀))
  distinct : w.listeners.Nodup
  /-- Their slots are handed out. -/
  allocated : ∃ free, FreeSlots w free ∧ ∀ i ∈ w.listeners, i < w.capacity ∧ i ∉ free
  connections : w.links.IsList .connections (w.listeners.reverse.map .node ++ former)
  used : w.used = w.servers.length

/-- What is left in `w` when it returns `HIXO_ERROR`. -/
structure MasterUnwound (w₀ w : Worker) (former : List Cell) : Prop where
  connections : w.links.IsList .connections former
  openFds : w.openFds = w₀.openFds
  /-- The socket cache exists only if it did before. -/
  cacheExists : w.cacheExists = w₀.cacheExists
  segments : w.segments = w₀.segments

section Spec

variable {w : Worker} {former : List Cell} {boot : BootEnv} {maxConnections : ℕ}
  {apps : List AppCtx}

/-- Before the first entry, all slots of the new cache are free. -/
theorem filling_createResource {w' : Worker} {count : ℕ} {calloc : Bool}
    (hformer : w.links.IsList .connections former) (houtside : ∀ c ∈ former, c.Outside count)
    (hservers : w.servers = []) (h : w.createResource count calloc = (true, w')) :
    Filling w w' former (List.range count).reverse [] := by
  obtain ⟨-, links, rfl, hlist, hframe⟩ := createResource_eq h
  refine ⟨⟨hlist, fun i hi => by simpa using hi, fun i hi => ?_⟩, ?_, houtside, ?_, ?_, ?_, rfl⟩
  · have hi : i < count := hi
    simp [clearCache, hi]
  · -- the nodes from before are in other memory
    have hsame : links.IsList .connections former := by
      refine hformer.congr fun c hc => ?_
      have hout : c.Outside count := by
        rcases List.mem_cons.mp hc with rfl | hc
        · trivial
        · exact houtside c hc
      cases c with
      | freeList => exact hout.elim
      | connections => exact hframe _ (by simp) (by simp)
      | postedEvents => exact hframe _ (by simp) (by simp)
      | node i =>
        have hge : ¬i < count := not_lt.mpr hout
        refine (hframe _ (by simp) fun j hj hij => ?_).trans (if_neg hge)
        exact hge (Cell.node.inj hij ▸ hj)
      | postedNode i =>
        have hge : ¬i < count := not_lt.mpr hout
        exact (hframe _ (by simp) (by simp)).trans (if_neg hge)
    simpa [listeners, clearCache, hservers] using hsame
  · simp [listeners, clearCache, hservers]
  · simp [clearCache, hservers]
  · simp [clearCache, hservers]

/-- When no listener was created, the cache and the sockets are as before. -/
theorem Filling.unwound {w₀ w' : Worker} {free : List ℕ} {created : List (ListenConf × ℕ)}
    (h : Filling w₀ w' former free created) (hnone : w'.servers = []) :
    w'.destroyResource.links.IsList .connections former ∧ w'.openFds = w₀.openFds := by
  -- without a server nothing was created, so the list is the one from before
  have hcreated : created = [] := by
    have hservers := h.servers
    rw [hnone] at hservers
    exact List.forall₂_nil_left_iff.mp hservers
  refine ⟨?_, by simpa [hcreated] using h.openFds⟩
  have hconns := h.connections
  simp only [listeners, hnone, List.map_nil, List.reverse_nil, List.nil_append] at hconns
  refine hconns.congr fun c hc => link_of_ne _ _ ?_
  rcases List.mem_cons.mp hc with rfl | hc
  · simp
  · rintro rfl
    exact h.outside _ hc

/-- Whatever fails, `event_core_init_master` returns and either leaves its listeners or nothing. -/
theorem eventCoreInitMaster_spec (boot : BootEnv) (hformer : w.links.IsList .connections former)
    (houtside : ∀ c ∈ former, c.Outside (maxConnections + (serverEntries apps).length)) :
    ∃ ok w', eventCoreInitMaster boot maxConnections apps w = .ok (ok, w') ∧
      (ok = true → MasterStarted boot maxConnections apps w w' former) ∧
      (ok = false → MasterUnwound w w' former) := by
  unfold eventCoreInitMaster
  cases hshm : boot.shmget with
  | none => exact ⟨false, _, rfl, (absurd · Bool.false_ne_true), fun _ => ⟨hformer, rfl, rfl, rfl⟩⟩
  | some id =>
    have herase : (id :: w.segments).erase id = w.segments := List.erase_cons_head ..
    dsimp only
    split
    · -- no memory for `mpp_servers`
      exact ⟨false, _, rfl, (absurd · Bool.false_ne_true), fun _ => ⟨hformer, rfl, rfl, herase⟩⟩
    split
    next w₁ hcreate =>
      -- nor for the cache
      obtain rfl := eq_of_createResource_false hcreate
      exact ⟨false, _, rfl, (absurd · Bool.false_ne_true), fun _ => ⟨hformer, rfl, rfl, herase⟩⟩
    next w₁ hcreate =>
      rw [← length_serverEntries] at hcreate
      have h₁ := filling_createResource
        (w := { w with shmid := some id, segments := id :: w.segments, servers := [] })
        hformer houtside rfl hcreate
      -- the loop over the servers, with all slots free before it
      have hroom : (serverEntries apps).length ≤
          (List.range (maxConnections + (serverEntries apps).length)).reverse.length := by simp
      obtain ⟨w₂, free, hrun, h₂⟩ := h₁.foldlM_createListener boot hroom
      have hbefore : beforeListeners boot maxConnections apps w = w₁ := by
        rw [beforeListeners, hshm]
        exact congrArg Prod.snd hcreate
      obtain ⟨hexists, hshmid, hsegments⟩ := keepsSegment_createResource hcreate
      have hkeeps := keepsSegment_foldlM hrun
      rw [serverEntries] at hrun
      rw [bind_of_eq_ok hrun]
      split
      next hnone =>
        -- no listener was created
        obtain ⟨hconns, hfds⟩ := h₂.unwound (List.isEmpty_iff.mp hnone)
        refine ⟨false, _, rfl, (absurd · Bool.false_ne_true), fun _ => ⟨hconns, hfds, ?_, ?_⟩⟩
        · exact (createResource_eq hcreate).1.symm
        · simp only [shmRemove, destroyResource, hkeeps.shmid, hkeeps.segments, hshmid, hsegments]
          exact herase
      next hsome =>
        rw [List.nil_append] at h₂
        refine ⟨true, w₂, rfl, fun _ => ?_, (absurd · Bool.noConfusion)⟩
        exact
          { nonempty := List.length_pos_iff.mpr (by simpa using hsome)
            servers := hbefore ▸ h₂.servers
            distinct := (List.nodup_append.mp h₂.nodup).2.1
            allocated := ⟨free, h₂.freeSlots, fun i hi => ⟨h₂.lt_of_mem_listeners hi, fun hfree =>
              (List.nodup_append.mp h₂.nodup).2.2 i hfree i hi rfl⟩⟩
            connections := h₂.connections
            used := h₂.used }

end Spec

/-! ## A sample -/

/-- A boot in which one address is no IP, and `bind` fails for one port. -/
def mixedBoot : BootEnv where
  shmget := some 0
  callocServers := true
  callocCache := true
  inetAton ip := ip = "0.0.0.0"
  listener w addr _ := ⟨some (w.openFds.length + 3), true, true, addr.port ≠ htons 80, true⟩
  shmat := true

/-- Two app modules, of which the second one gets a listener. -/
def mixedApps : List AppCtx :=
  [⟨0, none, none, none, [⟨"nowhere", 8001, 0⟩, ⟨"0.0.0.0", 80, 0⟩]⟩,
    ⟨1, none, none, none, [⟨"0.0.0.0", 8002, 0⟩]⟩]

/-- A node from elsewhere is on `mp_connections`. -/
def mixedStart : Worker := { links := LinkHeap.link (fun _ => none) .connections (some (.node 9)) }

theorem eventCoreInitMaster_spec_mixed :
    ∃ ok w', eventCoreInitMaster mixedBoot 4 mixedApps mixedStart = .ok (ok, w') ∧
      (ok = true → MasterStarted mixedBoot 4 mixedApps mixedStart w' [.node 9]) ∧
      (ok = false → MasterUnwound mixedStart w' [.node 9]) := by
  refine eventCoreInitMaster_spec mixedBoot ⟨rfl, rfl⟩ fun c hc => ?_
  obtain rfl := List.mem_singleton.mp hc
  show 4 + 3 ≤ 9
  decide

end Hixo
