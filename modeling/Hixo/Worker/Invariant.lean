import Mathlib.Data.List.Nodup
import Hixo.Worker.Lists

/-!
# The invariant of a worker

What holds of a worker whenever no slot is on its way between two lists.

* `Accounted`: a descriptor that `accept` returned is open or was closed since;
* `Descriptors`: the open descriptors are those of the sockets on `mp_connections`, and the
  kernel only watches these;
* `Roles`: which sockets are listeners, and how many are not;
* `Consistent`: all of this with the lists of the worker.
-/

namespace Hixo

/-! ## Descriptors -/

/-- Every descriptor that `accept` returned was closed later or is one of `fds`. -/
def Accounted (fds : List ℤ) : List LogEntry → Prop
  | [] => True
  | .accept _ (.conn fd) :: log =>
    (.closeFd fd ∈ log ∨ (fd : ℤ) ∈ fds) ∧ Accounted fds log
  | _ :: log => Accounted fds log

/-- The open descriptors of a worker whose connections are `conns`. -/
structure Descriptors (w : Worker) (conns : List ℕ) : Prop where
  /-- They are the descriptors of these sockets. -/
  fds : w.openFds.Perm (conns.map fun i => (w.sock i).fd)
  /-- No two of them are equal. -/
  nodup : w.openFds.Nodup
  /-- None of them is `-1`. -/
  nonneg : ∀ fd ∈ w.openFds, 0 ≤ fd
  /-- The kernel only watches these sockets, under their present tags. -/
  interest : ∀ fd r, w.interest fd = some r →
    r.slot ∈ conns ∧ (w.sock r.slot).fd = fd ∧ (w.sock r.slot).stale = r.stale
  /-- No descriptor from `accept` was lost. -/
  accounted : Accounted w.openFds w.log

section Accounted

variable {fds fds' : List ℤ} {log seg : List LogEntry}

/-- What was open stays open or is closed in the entries that follow. -/
theorem Accounted.append (h : Accounted fds log)
    (hopen : ∀ fd ∈ fds, .closeFd fd ∈ seg ∨ fd ∈ fds') (hseg : Accounted fds' seg) :
    Accounted fds' (log ++ seg) := by
  -- the induction is on the log, entry by entry; only openings ask for something
  induction log using Accounted.induct with
  | case1 => exact hseg
  | case2 i fd log ih =>
    obtain ⟨hhead, htail⟩ := h
    refine ⟨?_, ih htail⟩
    show _ ∈ log ++ seg ∨ _
    rw [List.mem_append]
    rcases hhead with hclosed | hfd
    · exact Or.inl (Or.inl hclosed)
    · exact (hopen fd hfd).imp_left Or.inr
  | case3 e log he ih =>
    rw [Accounted.eq_3 _ _ _ he] at h
    rw [List.cons_append, Accounted.eq_3 _ _ _ he]
    exact ih h

/-- Descriptors stay accounted for when more become open and the new entries account for them. -/
theorem Accounted.append_of_subset (h : Accounted fds log) (hopen : fds ⊆ fds')
    (hseg : Accounted fds' seg) : Accounted fds' (log ++ seg) :=
  h.append (fun _ hfd => Or.inr (hopen hfd)) hseg

/-- Each descriptor that `accept` returned, at any point of the log. -/
theorem Accounted.of_append {l₁ l₂ : List LogEntry} {i fd : ℕ}
    (h : Accounted fds (l₁ ++ .accept i (.conn fd) :: l₂)) :
    .closeFd fd ∈ l₂ ∨ (fd : ℤ) ∈ fds := by
  induction l₁ using Accounted.induct with
  | case1 => exact h.1
  | case2 i fd log ih => exact ih h.2
  | case3 e log he ih =>
    rw [List.cons_append, Accounted.eq_3 _ _ _ he] at h
    exact ih h

end Accounted

namespace Descriptors

variable {w w' : Worker} {conns : List ℕ} {i j : ℕ}

theorem fd_mem (h : Descriptors w conns) (hi : i ∈ conns) : (w.sock i).fd ∈ w.openFds :=
  h.fds.mem_iff.mpr (List.mem_map_of_mem hi)

/-- Two sockets on `mp_connections` have different descriptors. -/
theorem fd_inj (h : Descriptors w conns) (hi : i ∈ conns) (hj : j ∈ conns)
    (hfd : (w.sock i).fd = (w.sock j).fd) : i = j :=
  List.inj_on_of_nodup_map (h.fds.nodup_iff.mp h.nodup) hi hj hfd

/-- The kernel may stop watching, and nothing else of the worker matters but the descriptors and
tags of the connections. -/
theorem congr (h : Descriptors w conns) (hfds : w'.openFds = w.openFds)
    (hsock : ∀ i ∈ conns, (w'.sock i).fd = (w.sock i).fd ∧ (w'.sock i).stale = (w.sock i).stale)
    (hinterest : ∀ fd r, w'.interest fd = some r → w.interest fd = some r)
    (haccounted : Accounted w'.openFds w'.log) : Descriptors w' conns where
  fds := by
    rw [hfds, List.map_congr_left fun i hi => (hsock i hi).1]
    exact h.fds
  nodup := hfds ▸ h.nodup
  nonneg := hfds ▸ h.nonneg
  -- a registration that is there now was there before
  interest fd r hr := by
    obtain ⟨hslot, hfd, hstale⟩ := h.interest fd r (hinterest fd r hr)
    obtain ⟨hfd', hstale'⟩ := hsock _ hslot
    exact ⟨hslot, hfd'.trans hfd, hstale'.trans hstale⟩
  accounted := haccounted

/-- The descriptors stay in order when a connection comes in with a fresh one. -/
theorem open_ {fd : ℤ} (h : Descriptors w conns) (hfd₀ : 0 ≤ fd)
    (hfresh : fd ∉ w.openFds) (hfds : w'.openFds = fd :: w.openFds)
    (hsock : ∀ j ∈ conns, w'.sock j = w.sock j) (hfd : (w'.sock i).fd = fd)
    (hinterest : ∀ x r, w'.interest x = some r →
      w.interest x = some r ∨ x = fd ∧ r.slot = i ∧ r.stale = (w'.sock i).stale)
    (haccounted : Accounted w'.openFds w'.log) : Descriptors w' (i :: conns) where
  fds := by
    rw [hfds, List.map_cons, hfd]
    -- the new connection comes first, and the others keep their descriptors
    refine List.Perm.cons _ (h.fds.trans (List.Perm.of_eq ?_))
    exact List.map_congr_left fun j hj => by rw [hsock j hj]
  nodup := hfds ▸ List.nodup_cons.mpr ⟨hfresh, h.nodup⟩
  nonneg x hx := by
    rcases List.mem_cons.mp (hfds ▸ hx) with rfl | hx
    · exact hfd₀
    · exact h.nonneg x hx
  interest x r hr := by
    -- the registration is an older one, or the one of the new descriptor
    rcases hinterest x r hr with hold | ⟨rfl, rfl, hstale⟩
    · obtain ⟨hslot, hfdx, hstale⟩ := h.interest x r hold
      rw [hsock _ hslot]
      exact ⟨List.mem_cons_of_mem _ hslot, hfdx, hstale⟩
    · exact ⟨List.mem_cons_self, hfd, hstale.symm⟩
  accounted := haccounted

/-- The descriptors stay in order when a connection goes and its descriptor is closed. -/
theorem close (h : Descriptors w conns) (hi : i ∈ conns)
    (hfds : w'.openFds = w.openFds.erase (w.sock i).fd)
    (hsock : ∀ j ∈ conns, j ≠ i → w'.sock j = w.sock j)
    (hinterest : ∀ fd r, w'.interest fd = some r →
      w.interest fd = some r ∧ fd ≠ (w.sock i).fd)
    (haccounted : Accounted w'.openFds w'.log) : Descriptors w' (conns.erase i) where
  fds := by
    have hnodup : conns.Nodup := (h.fds.nodup_iff.mp h.nodup).of_map _
    have hperm : (conns.map fun i => (w.sock i).fd).Perm
        ((w.sock i).fd :: (conns.erase i).map fun i => (w.sock i).fd) := by
      rw [← List.map_cons (f := fun i => (w.sock i).fd)]
      exact (List.perm_cons_erase hi).map _
    rw [hfds]
    refine ((h.fds.trans hperm).erase _).trans ?_
    rw [List.erase_cons_head]
    refine List.Perm.of_eq (List.map_congr_left fun j hj => ?_)
    obtain ⟨hne, hj⟩ := hnodup.mem_erase_iff.mp hj
    rw [hsock j hj hne]
  nodup := hfds ▸ h.nodup.erase _
  nonneg x hx := h.nonneg x (List.mem_of_mem_erase (hfds ▸ hx))
  interest fd r hr := by
    obtain ⟨hold, hne⟩ := hinterest fd r hr
    obtain ⟨hslot, hfd, hstale⟩ := h.interest fd r hold
    -- a registration that is left belongs to another slot
    have hslot' : r.slot ≠ i := by
      rintro rfl
      exact hne hfd.symm
    rw [hsock _ hslot hslot']
    exact ⟨(List.mem_erase_of_ne hslot').mpr hslot, hfd, hstale⟩
  accounted := haccounted

end Descriptors

/-! ## Listeners and connections -/

/-- The slots of the listeners. -/
def Worker.listeners (w : Worker) : List ℕ := w.servers.map Server.slot

/-- The socket in slot `i` is a listener, and some app module serves its port. -/
structure IsListener (w : Worker) (i : ℕ) : Prop where
  readHandler : (w.sock i).readHandler = some .hixoHandleAccept
  writeHandler : (w.sock i).writeHandler = none
  disconnectHandler : (w.sock i).disconnectHandler = none
  close : (w.sock i).close = false
  served : ∃ ctx ∈ w.appCtxList, ∃ server ∈ ctx.servers,
    server.port = w.localPort (w.sock i).fd

/-- The socket in slot `i` has the callbacks of an app module. -/
def IsConnection (w : Worker) (i : ℕ) : Prop :=
  ∃ ctx ∈ w.appCtxList, (w.sock i).readHandler = ctx.handleRead.map .app ∧
    (w.sock i).writeHandler = ctx.handleWrite ∧
    (w.sock i).disconnectHandler = ctx.handleDisconnect

/-- The roles of the sockets on `mp_connections`, for a worker that started with power
`power₀`. -/
structure Roles (power₀ : ℤ) (w : Worker) (conns : List ℕ) : Prop where
  /-- The listeners are on `mp_connections`. -/
  listeners_subset : w.listeners ⊆ conns
  /-- They are listeners. -/
  listener : ∀ i ∈ w.listeners, IsListener w i
  /-- All others are connections of an app module. -/
  connection : ∀ i ∈ conns, i ∉ w.listeners → IsConnection w i
  /-- Every connection takes one unit of power. -/
  power : w.power = power₀ - (conns.filter (· ∉ w.listeners)).length

namespace Roles

variable {power₀ : ℤ} {w w' : Worker} {conns : List ℕ} {i : ℕ}

/-- What the roles depend on. Of a connection `m_close` does not matter. -/
theorem congr (h : Roles power₀ w conns) (hlisteners : w'.listeners = w.listeners)
    (happs : w'.appCtxList = w.appCtxList) (hpower : w'.power = w.power)
    (hport : ∀ i ∈ w.listeners, w'.localPort (w.sock i).fd = w.localPort (w.sock i).fd)
    (hlistener : ∀ i ∈ w.listeners, (w'.sock i).fd = (w.sock i).fd ∧
      (w'.sock i).close = (w.sock i).close)
    (hsock : ∀ i ∈ conns, (w'.sock i).readHandler = (w.sock i).readHandler ∧
      (w'.sock i).writeHandler = (w.sock i).writeHandler ∧
      (w'.sock i).disconnectHandler = (w.sock i).disconnectHandler) :
    Roles power₀ w' conns where
  listeners_subset := hlisteners ▸ h.listeners_subset
  listener i hi := by
    rw [hlisteners] at hi
    obtain ⟨hread, hwrite, hdisconnect, hclose, hserved⟩ := h.listener i hi
    obtain ⟨hread', hwrite', hdisconnect'⟩ := hsock i (h.listeners_subset hi)
    -- neither the handlers nor the port of a listener have changed
    obtain ⟨hfd', hclose'⟩ := hlistener i hi
    refine ⟨hread'.trans hread, hwrite'.trans hwrite, hdisconnect'.trans hdisconnect,
      hclose'.trans hclose, ?_⟩
    rwa [happs, hfd', hport i hi]
  connection i hi hnot := by
    obtain ⟨ctx, hctx, hread, hwrite, hdisconnect⟩ :=
      h.connection i hi (hlisteners ▸ hnot)
    obtain ⟨hread', hwrite', hdisconnect'⟩ := hsock i hi
    exact ⟨ctx, happs ▸ hctx, hread'.trans hread, hwrite'.trans hwrite,
      hdisconnect'.trans hdisconnect⟩
  power := by
    rw [hpower, hlisteners]
    exact h.power

/-- The sockets keep their roles when a connection comes in and takes one unit of power. -/
theorem open_ (h : Roles power₀ w conns) (hi : i ∉ conns) (hservers : w'.servers = w.servers)
    (happs : w'.appCtxList = w.appCtxList) (hpower : w'.power = w.power - 1)
    (hport : ∀ i ∈ conns, w'.localPort (w.sock i).fd = w.localPort (w.sock i).fd)
    (hsock : ∀ j ∈ conns, w'.sock j = w.sock j) (hconn : IsConnection w' i) :
    Roles power₀ w' (i :: conns) := by
  have hlisteners : w'.listeners = w.listeners := congrArg (List.map Server.slot) hservers
  refine ⟨?_, fun j hj => ?_, fun j hj hnot => ?_, ?_⟩
  · rw [hlisteners]
    exact fun j hj => List.mem_cons_of_mem _ (h.listeners_subset hj)
  · rw [hlisteners] at hj
    have hjc := h.listeners_subset hj
    obtain ⟨hread, hwrite, hdisconnect, hclose, hserved⟩ := h.listener j hj
    rw [← hport j hjc, ← happs] at hserved
    rw [← hsock j hjc] at hread hwrite hdisconnect hclose hserved
    exact ⟨hread, hwrite, hdisconnect, hclose, hserved⟩
  · -- the new slot is a connection, and the others keep their contexts
    rcases List.mem_cons.mp hj with rfl | hj
    · exact hconn
    · have hold := h.connection j hj (hlisteners ▸ hnot)
      unfold IsConnection at hold ⊢
      rwa [hsock j hj, happs]
  · -- the new slot is not a listener, so that one more of the slots counts
    have hnot : i ∉ w.listeners := fun hmem => hi (h.listeners_subset hmem)
    have hold := h.power
    rw [hpower, hlisteners, List.filter_cons_of_pos (by simpa using hnot), List.length_cons]
    push_cast
    omega

/-- The sockets keep their roles when a connection goes; its unit of power has not come back yet. -/
theorem close (h : Roles power₀ w conns) (hnodup : conns.Nodup) (hi : i ∈ conns)
    (hnot : i ∉ w.listeners) (hservers : w'.servers = w.servers)
    (happs : w'.appCtxList = w.appCtxList) (hpower : w'.power = w.power)
    (hport : w'.localPort = w.localPort)
    (hsock : ∀ j ∈ conns, j ≠ i → w'.sock j = w.sock j) :
    Roles (power₀ - 1) w' (conns.erase i) := by
  have hlisteners : w'.listeners = w.listeners := congrArg (List.map Server.slot) hservers
  refine ⟨?_, fun j hj => ?_, fun j hj hjnot => ?_, ?_⟩
  · rw [hlisteners]
    intro j hj
    refine (List.mem_erase_of_ne ?_).mpr (h.listeners_subset hj)
    rintro rfl
    exact hnot hj
  · rw [hlisteners] at hj
    have hne : j ≠ i := by
      rintro rfl
      exact hnot hj
    obtain ⟨hread, hwrite, hdisconnect, hclose, hserved⟩ := h.listener j hj
    rw [← hport, ← happs] at hserved
    rw [← hsock j (h.listeners_subset hj) hne] at hread hwrite hdisconnect hclose hserved
    exact ⟨hread, hwrite, hdisconnect, hclose, hserved⟩
  · -- the slot that is given back is left out of the count
    obtain ⟨hne, hj⟩ := hnodup.mem_erase_iff.mp hj
    have hold := h.connection j hj (hlisteners ▸ hjnot)
    unfold IsConnection at hold ⊢
    rwa [hsock j hj hne, happs]
  · have hold := h.power
    -- the connection that ends is counted by the power
    have hmem : i ∈ conns.filter (· ∉ w.listeners) := by simpa using ⟨hi, hnot⟩
    have hlen := List.length_erase_of_mem hmem
    have hpos := List.length_pos_of_mem hmem
    rw [hpower, hlisteners, ← List.erase_filter]
    omega

/-- With the unit of power that comes back, the account is as it was before the connection. -/
theorem gainPower (h : Roles (power₀ - 1) w conns) :
    Roles power₀ { w with power := w.power + 1 } conns := by
  refine ⟨h.listeners_subset, fun i hi => ?_, h.connection, ?_⟩
  · obtain ⟨hread, hwrite, hdisconnect, hclose, hserved⟩ := h.listener i hi
    exact ⟨hread, hwrite, hdisconnect, hclose, hserved⟩
  · have hpower := h.power
    show w.power + 1 = power₀ - (conns.filter (· ∉ w.listeners)).length
    omega

end Roles

/-! ## The invariant -/

/-- The invariant of a worker that started with power `power₀`. -/
structure Consistent (power₀ : ℤ) (w : Worker) (held free conns posted : List ℕ) : Prop where
  lists : Lists w held free conns posted
  descriptors : Descriptors w conns
  roles : Roles power₀ w conns

/-- What does not change on the way from `w` to `w'`: the setup of the worker and the sockets in
`keep`. -/
structure Keeps (w w' : Worker) (keep : List ℕ) : Prop where
  capacity : w'.capacity = w.capacity
  servers : w'.servers = w.servers
  appCtxList : w'.appCtxList = w.appCtxList
  holdLock : w'.holdLock = w.holdLock
  /-- The kernel watches no further listener. -/
  interest : ∀ fd r, w'.interest fd = some r → r.slot ∈ w.listeners → w.interest fd = some r
  sock : ∀ i ∈ keep, w'.sock i = w.sock i

theorem Keeps.refl (w : Worker) (keep : List ℕ) : Keeps w w keep :=
  ⟨rfl, rfl, rfl, rfl, fun _ _ hr _ => hr, fun _ _ => rfl⟩

theorem Keeps.listeners {w w' : Worker} {keep : List ℕ} (h : Keeps w w' keep) :
    w'.listeners = w.listeners :=
  congrArg (List.map Server.slot) h.servers

theorem Keeps.trans {w w' w'' : Worker} {keep keep' : List ℕ} (h : Keeps w w' keep)
    (h' : Keeps w' w'' keep') (hsub : keep ⊆ keep') : Keeps w w'' keep where
  capacity := h'.capacity.trans h.capacity
  servers := h'.servers.trans h.servers
  appCtxList := h'.appCtxList.trans h.appCtxList
  holdLock := h'.holdLock.trans h.holdLock
  interest fd r hr hslot := h.interest fd r (h'.interest fd r hr (h.listeners ▸ hslot)) hslot
  sock i hi := (h'.sock i (hsub hi)).trans (h.sock i hi)

theorem Keeps.mono {w w' : Worker} {keep keep' : List ℕ} (h : Keeps w w' keep)
    (hsub : keep' ⊆ keep) : Keeps w w' keep' :=
  { h with sock := fun i hi => h.sock i (hsub hi) }

namespace Consistent

variable {power₀ : ℤ} {w : Worker} {held free conns posted : List ℕ} {i : ℕ}

/-! ## Slots -/

/-- `alloc_resource` hands out the first free slot of a consistent worker. -/
theorem allocResource (h : Consistent power₀ w held (i :: free) conns posted) :
    ∃ w', w.allocResource = .ok (some i, w') ∧
      Consistent power₀ w' (i :: held) free conns posted ∧ Keeps w w' conns ∧
      w'.log = w.log := by
  obtain ⟨links, halloc, hlists⟩ := h.lists.allocResource
  -- the slot comes from the free list and is none of the connections
  have hsock {j : ℕ} (hj : j ∈ conns) :
      Function.update w.sock i { w.sock i with belong := true } j = w.sock j := by
    refine Function.update_of_ne ?_ _ _
    rintro rfl
    exact h.lists.notMem_free hj List.mem_cons_self
  refine ⟨_, halloc, ⟨hlists, ?_, ?_⟩,
    ⟨rfl, rfl, rfl, rfl, fun _ _ hr _ => hr, fun j hj => hsock hj⟩, rfl⟩
  · exact h.descriptors.congr rfl (fun j hj => by simp [hsock hj]) (fun _ _ hr => hr)
      h.descriptors.accounted
  · refine h.roles.congr rfl rfl rfl (fun _ _ => rfl) (fun j hj => ?_) fun j hj => ?_
    · simp [hsock (h.roles.listeners_subset hj)]
    · simp [hsock hj]

/-- `free_resource` puts a slot that was handed out back at the front of the free list. -/
theorem freeResource (h : Consistent power₀ w (i :: held) free conns posted) :
    ∃ w', w.freeResource i = .ok w' ∧
      Consistent power₀ w' held (i :: free) conns posted ∧ Keeps w w' conns ∧
      w'.log = w.log ∧ (w'.sock i).writable = (w.sock i).writable := by
  obtain ⟨links, hfree, hlists⟩ := h.lists.freeResource
  -- the slot is held by the caller and is none of the connections
  have hsock {j : ℕ} (hj : j ∈ conns) :
      Function.update w.sock i { w.sock i with belong := false } j = w.sock j := by
    refine Function.update_of_ne ?_ _ _
    rintro rfl
    have hnodup := (List.nodup_cons.mp h.lists.nodup).1
    simp [hj] at hnodup
  refine ⟨_, hfree, ⟨hlists, ?_, ?_⟩,
    ⟨rfl, rfl, rfl, rfl, fun _ _ hr _ => hr, fun j hj => hsock hj⟩, rfl, by simp⟩
  · exact h.descriptors.congr rfl (fun j hj => by simp [hsock hj]) (fun _ _ hr => hr)
      h.descriptors.accounted
  · refine h.roles.congr rfl rfl rfl (fun _ _ => rfl) (fun j hj => ?_) fun j hj => ?_
    · simp [hsock (h.roles.listeners_subset hj)]
    · simp [hsock hj]

/-! ## Callbacks -/

/-- A callback for a slot that is no listener leaves the worker consistent. -/
theorem runCallback (h : Consistent power₀ w held free conns posted) (env : Env)
    (kind : CallbackKind) (f : Callback) (hi : i ∉ w.listeners) :
    Consistent power₀ (w.runCallback env kind i f) held free conns posted := by
  refine ⟨h.lists.congr rfl rfl rfl fun j => ?_,
    h.descriptors.congr rfl (fun j _ => ?_) (fun _ _ hr => hr) ?_,
    h.roles.congr rfl rfl rfl (fun _ _ => rfl) (fun j hj => ?_) fun j _ => ?_⟩
  · -- a callback writes the flags of its own slot only
    by_cases hji : j = i <;> simp [Worker.runCallback, Worker.record, Worker.modifySock, hji]
  · by_cases hji : j = i <;> simp [Worker.runCallback, Worker.record, Worker.modifySock, hji]
  · exact h.descriptors.accounted.append_of_subset (List.Subset.refl _) trivial
  · -- the slot of the callback is not a listener
    have hji : j ≠ i := by
      rintro rfl
      exact hi hj
    simp [Worker.runCallback, Worker.record, Worker.modifySock, hji]
  · by_cases hji : j = i <;> simp [Worker.runCallback, Worker.record, Worker.modifySock, hji]

/-- A callback leaves all other sockets alone. -/
theorem keeps_runCallback (env : Env) (w : Worker) (kind : CallbackKind) (f : Callback)
    (hi : i ∉ conns) : Keeps w (w.runCallback env kind i f) conns := by
  refine ⟨rfl, rfl, rfl, rfl, fun _ _ hr _ => hr, fun j hj => Function.update_of_ne ?_ _ _⟩
  rintro rfl
  exact hi hj

end Consistent

end Hixo
