import Hixo.Worker.Traversal

/-!
# `epoll_process_events`

What one call does to a consistent worker: it registers and deletes the listeners when it gets
the accept lock, and posts the sockets of the events that `epoll_wait` reports.

* `Polls`: the listeners are the only sockets the kernel may watch in addition;
* `Consistent.postEvents`: every event of the batch sets the flags of its socket, and the socket
  is posted when one of them is set;
* `Consistent.epollProcessEvents`: the whole call, with the result of `epoll_wait`.
-/

namespace Hixo

open Worker

/-! ## What is assumed of a batch -/

/-- The events of `epoll_wait` are about different sockets, which the kernel watches under the
tags of the events. -/
def Env.RegisteredBatches (env : Env) : Prop :=
  ∀ w evs, env.wait w = .events evs → (evs.map EpollEvent.slot).Nodup ∧
    ∀ ev ∈ evs, ∃ fd r, w.interest fd = some r ∧ r.slot = ev.slot ∧ r.stale = ev.stale

/-- The event lets the socket be read. -/
def EpollEvent.readable (ev : EpollEvent) : Bool :=
  decide (hixoEventIn &&& widenEvents ev.events ≠ 0)

/-- The event lets the socket be written to. -/
def EpollEvent.writable (ev : EpollEvent) : Bool :=
  decide (hixoEventOut &&& widenEvents ev.events ≠ 0)

/-- `p_sock->m_readable` and `p_sock->m_writable` as an event sets them. -/
def Socket.flag (s : Socket) (ev : EpollEvent) : Socket :=
  { s with readable := ev.readable, writable := ev.writable }

/-- A mask that has the bits `bits` tests whether one of them is set. -/
theorem and_ne_zero_iff {mask events : BitVec 32} {bits : List ℕ}
    (hmask : ∀ k < 32, mask.getLsbD k = true ↔ k ∈ bits) (hbits : ∀ k ∈ bits, k < 32) :
    mask &&& events ≠ 0 ↔ ∃ k ∈ bits, events.getLsbD k = true := by
  constructor
  · -- without such a bit every bit of the conjunction is 0, as the mask has no others
    intro hne
    by_contra hall
    push Not at hall
    refine hne (BitVec.eq_of_getLsbD_eq fun k hk => ?_)
    rw [BitVec.getLsbD_and]
    by_cases hkb : k ∈ bits
    · have hclear : events.getLsbD k = false := by simpa using hall k hkb
      simp [hclear]
    · have hclear : mask.getLsbD k = false := by simpa using (hmask k hk).not.mpr hkb
      simp [hclear]
  · rintro ⟨k, hk, hset⟩ hzero
    have hbit := congrArg (·.getLsbD k) hzero
    simp [(hmask k (hbits k hk)).mpr hk, hset] at hbit

/-- An error or a hang-up counts as both directions. -/
theorem getLsbD_widenEvents (events : BitVec 32) {k : ℕ} (hk : k = 0 ∨ k = 2) :
    (widenEvents events).getLsbD k = true ↔
      events.getLsbD k = true ∨ events.getLsbD 3 = true ∨ events.getLsbD 4 = true := by
  have hwide : (hixoEventErr ||| hixoEventHup) &&& events ≠ 0 ↔
      ∃ k ∈ [3, 4], events.getLsbD k = true := and_ne_zero_iff (by decide) (by decide)
  have hset : (hixoEventIn ||| hixoEventOut).getLsbD k = true := by
    rcases hk with rfl | rfl <;> decide
  unfold widenEvents
  split
  -- EPOLLERR or EPOLLHUP came, so that both EPOLLIN and EPOLLOUT are set
  next h =>
    have hbits := hwide.mp h
    simp only [List.mem_cons, List.not_mem_nil, or_false, exists_eq_or_imp, exists_eq_left]
      at hbits
    rw [BitVec.getLsbD_or, hset, Bool.or_true]
    exact ⟨fun _ => Or.inr hbits, fun _ => rfl⟩
  next h =>
    have hbits := hwide.not.mp h
    simp only [List.mem_cons, List.not_mem_nil, or_false, exists_eq_or_imp, exists_eq_left]
      at hbits
    exact ⟨Or.inl, fun hset => hset.resolve_right hbits⟩

/-- `m_readable` in terms of the events that were reported. -/
theorem EpollEvent.readable_iff (ev : EpollEvent) :
    ev.readable = true ↔ (hixoEventIn ||| hixoEventErr ||| hixoEventHup) &&& ev.events ≠ 0 := by
  have hin : hixoEventIn &&& widenEvents ev.events ≠ 0 ↔
      ∃ k ∈ [0], (widenEvents ev.events).getLsbD k = true :=
    and_ne_zero_iff (by decide) (by decide)
  have hall : (hixoEventIn ||| hixoEventErr ||| hixoEventHup) &&& ev.events ≠ 0 ↔
      ∃ k ∈ [0, 3, 4], ev.events.getLsbD k = true := and_ne_zero_iff (by decide) (by decide)
  rw [EpollEvent.readable, decide_eq_true_eq, hin, hall]
  simp only [List.mem_cons, List.not_mem_nil, or_false, exists_eq_or_imp, exists_eq_left]
  exact getLsbD_widenEvents _ (Or.inl rfl)

/-- `m_writable` in terms of the events that were reported. -/
theorem EpollEvent.writable_iff (ev : EpollEvent) :
    ev.writable = true ↔ (hixoEventOut ||| hixoEventErr ||| hixoEventHup) &&& ev.events ≠ 0 := by
  have hout : hixoEventOut &&& widenEvents ev.events ≠ 0 ↔
      ∃ k ∈ [2], (widenEvents ev.events).getLsbD k = true :=
    and_ne_zero_iff (by decide) (by decide)
  have hall : (hixoEventOut ||| hixoEventErr ||| hixoEventHup) &&& ev.events ≠ 0 ↔
      ∃ k ∈ [2, 3, 4], ev.events.getLsbD k = true := and_ne_zero_iff (by decide) (by decide)
  rw [EpollEvent.writable, decide_eq_true_eq, hout, hall]
  simp only [List.mem_cons, List.not_mem_nil, or_false, exists_eq_or_imp, exists_eq_left]
  exact getLsbD_widenEvents _ (Or.inr rfl)

/-- An entry of `epoll_process_events` about the accept lock or the listeners. -/
def LogEntry.IsPolling : LogEntry → Prop
  | .trySpinlock _ | .spinlockUnlock | .addEvent _ _ | .delEvent _ _ => True
  | _ => False

/-! ## Listeners -/

/-- What `epoll_process_events` does apart from posting: the kernel may watch the listeners in
addition, and the tags in `mpp_servers` may change. -/
structure Polls (w w' : Worker) (tr : List LogEntry) : Prop where
  links : w'.links = w.links
  sock : w'.sock = w.sock
  used : w'.used = w.used
  capacity : w'.capacity = w.capacity
  listeners : w'.listeners = w.listeners
  power : w'.power = w.power
  appCtxList : w'.appCtxList = w.appCtxList
  openFds : w'.openFds = w.openFds
  localPort : w'.localPort = w.localPort
  interest : ∀ fd r, w'.interest fd = some r → w.interest fd = some r ∨
    r.slot ∈ w.listeners ∧ (w.sock r.slot).fd = fd ∧ (w.sock r.slot).stale = r.stale
  log : w'.log = w.log ++ tr
  polling : ∀ e ∈ tr, e.IsPolling

/-- `epoll_del_event` returns `HIXO_OK` when the kernel does, or does not know the socket. -/
theorem epollDelEvent_fst (env : Env) (w : Worker) (i : ℕ) :
    ∃ rslt, .delEvent i rslt ∈ (epollDelEvent env w i).2.log ∧
      (epollDelEvent env w i).2.servers = w.servers ∧
      (rslt = .ok ∨ rslt = .enoent → (epollDelEvent env w i).1 = true) := by
  unfold epollDelEvent
  cases env.delEvent w i with
  | ok => exact ⟨.ok, by simp [record], rfl, fun _ => rfl⟩
  | enoent => exact ⟨.enoent, by simp [record], rfl, fun _ => rfl⟩
  | eexist => exact ⟨.eexist, by simp [record], rfl, by simp⟩
  | failed => exact ⟨.failed, by simp [record], rfl, by simp⟩

/-- Every `EPOLL_CTL_DEL` for a listener succeeded. -/
def ListenersDeleted (w : Worker) (log : List LogEntry) : Prop :=
  ∀ i ∈ w.listeners, ∀ rslt, .delEvent i rslt ∈ log → rslt = .ok ∨ rslt = .enoent

namespace Polls

variable {w w' w'' : Worker} {tr tr' : List LogEntry}

/-- What does nothing is a part of polling. -/
theorem refl (w : Worker) : Polls w w [] :=
  ⟨rfl, rfl, rfl, rfl, rfl, rfl, rfl, rfl, rfl, fun _ _ h => Or.inl h, by simp, by simp⟩

/-- Two parts of polling make one. -/
theorem trans (h : Polls w w' tr) (h' : Polls w' w'' tr') : Polls w w'' (tr ++ tr') where
  links := h'.links.trans h.links
  sock := h'.sock.trans h.sock
  used := h'.used.trans h.used
  capacity := h'.capacity.trans h.capacity
  listeners := h'.listeners.trans h.listeners
  power := h'.power.trans h.power
  appCtxList := h'.appCtxList.trans h.appCtxList
  openFds := h'.openFds.trans h.openFds
  localPort := h'.localPort.trans h.localPort
  interest fd r hr := by
    -- a registration of the second part is one of a listener, and the first part changed none
    rcases h'.interest fd r hr with hold | hnew
    · exact h.interest fd r hold
    · rw [h.listeners, h.sock] at hnew
      exact Or.inr hnew
  log := by rw [h'.log, h.log, List.append_assoc]
  polling e he := (List.mem_append.mp he).elim (h.polling e) (h'.polling e)

/-- An entry and a change of the accept lock flag. -/
theorem of_record (w : Worker) (e : LogEntry) (he : e.IsPolling) (holdLock : Bool) :
    Polls w { w.record e with holdLock } [e] :=
  ⟨rfl, rfl, rfl, rfl, rfl, rfl, rfl, rfl, rfl, fun _ _ h => Or.inl h, rfl,
    fun _ he' => (List.mem_singleton.mp he') ▸ he⟩

/-- Storing `m_hold_lock` is a part of polling. -/
theorem of_holdLock (w : Worker) (holdLock : Bool) : Polls w { w with holdLock } [] :=
  ⟨rfl, rfl, rfl, rfl, rfl, rfl, rfl, rfl, rfl, fun _ _ h => Or.inl h, by simp, by simp⟩

/-- Setting a tag in `mpp_servers`, or taking it off, is a part of polling. -/
theorem of_servers (w : Worker) (k : ℕ) (tagged : Bool) :
    Polls w { w with servers := w.servers.modify k fun server => { server with tagged } } [] := by
  refine ⟨rfl, rfl, rfl, rfl, ?_, rfl, rfl, rfl, rfl, fun _ _ h => Or.inl h, by simp, by simp⟩
  unfold Worker.listeners
  refine List.ext_getElem? fun j => ?_
  rw [List.getElem?_map, List.getElem?_map, List.getElem?_modify]
  by_cases hjk : k = j <;> cases w.servers[j]? <;> simp [hjk]

/-- `epoll_add_event` for a listener is a part of polling. -/
theorem of_epollAddEvent (env : Env) {i : ℕ} (hi : i ∈ w.listeners) :
    ∃ rslt, Polls w (epollAddEvent env w i).2 [.addEvent i rslt] := by
  obtain ⟨rslt, interest, hadd, hinterest⟩ := epollAddEvent_snd env w i
  rw [hadd]
  refine ⟨rslt, rfl, rfl, rfl, rfl, rfl, rfl, rfl, rfl, rfl, fun fd r hr => ?_, rfl, ?_⟩
  · rcases hinterest fd r hr with hold | ⟨hfd, rfl, hstale⟩
    · exact Or.inl hold
    · exact Or.inr ⟨hi, hfd.symm, hstale.symm⟩
  · simp [LogEntry.IsPolling]

/-- `epoll_del_event` is a part of polling. -/
theorem of_epollDelEvent (env : Env) (w : Worker) (i : ℕ) :
    ∃ rslt, Polls w (epollDelEvent env w i).2 [.delEvent i rslt] := by
  obtain ⟨rslt, interest, hdel, hinterest⟩ := epollDelEvent_snd env w i
  rw [hdel]
  exact ⟨rslt, rfl, rfl, rfl, rfl, rfl, rfl, rfl, rfl, rfl,
    fun fd r hr => Or.inl (hinterest fd r hr), rfl, by simp [LogEntry.IsPolling]⟩

/-- The loop that adds the listeners, unless an entry of `mpp_servers` is tagged. -/
theorem of_addListeners (env : Env) (ks : List ℕ) (w : Worker) :
    (∃ w' tr, addListeners env ks w = .ok w' ∧ Polls w w' tr) ∨
      (∃ server ∈ w.servers, server.tagged = true) ∧
        addListeners env ks w = .error .serverAligned := by
  -- induction on the listeners still to add, which is the recursion of the loop
  induction ks generalizing w with
  | nil => exact Or.inl ⟨w, [], rfl, refl w⟩
  | cons k ks ih =>
    rw [addListeners]
    cases hk : w.servers[k]? with
    | none => exact Or.inl ⟨w, [], rfl, refl w⟩
    | some server =>
      -- a tag left from an earlier pass stops the loop at the assertion
      by_cases htagged : server.tagged = true
      · exact Or.inr ⟨⟨server, List.mem_of_getElem? hk, htagged⟩, if_pos htagged⟩
      · have hslot : server.slot ∈ w.listeners :=
          List.mem_map_of_mem (List.mem_of_getElem? hk)
        obtain ⟨rslt, hpolls⟩ := of_epollAddEvent env hslot
        have hservers : (epollAddEvent env w server.slot).2.servers = w.servers := by
          obtain ⟨rslt, interest, hadd, -⟩ := epollAddEvent_snd env w server.slot
          rw [hadd, record]
        simp only [htagged]
        cases hadd : epollAddEvent env w server.slot with
        | mk ok w₁ =>
          rw [hadd] at hpolls hservers
          cases ok with
          | true =>
            rcases ih w₁ with ⟨w', tr, hrun, hrest⟩ | ⟨htag, herror⟩
            · exact Or.inl ⟨w', _, hrun, hpolls.trans hrest⟩
            · exact Or.inr ⟨hservers ▸ htag, herror⟩
          | false => exact Or.inl ⟨_, _, rfl, hpolls.trans (of_servers w₁ k true)⟩

/-- The loop that deletes the listeners is a part of polling. -/
theorem of_delListeners (env : Env) (ks : List ℕ) (w : Worker) :
    ∃ tr, Polls w (delListeners env ks w) tr := by
  -- as above, but a tagged listener is skipped and its tag removed
  induction ks generalizing w with
  | nil => exact ⟨[], refl w⟩
  | cons k ks ih =>
    rw [delListeners]
    cases hk : w.servers[k]? with
    | none => exact ⟨[], refl w⟩
    | some server =>
      by_cases htagged : server.tagged = true
      · simp only [htagged, if_true]
        obtain ⟨tr, hrest⟩ := ih
          { w with servers := w.servers.modify k fun server => { server with tagged := false } }
        exact ⟨_, (of_servers w k false).trans hrest⟩
      · simp only [htagged]
        obtain ⟨rslt, hpolls⟩ := of_epollDelEvent env w server.slot
        cases hdel : epollDelEvent env w server.slot with
        | mk ok w₁ =>
          rw [hdel] at hpolls
          cases ok with
          | true =>
            obtain ⟨tr, hrest⟩ := ih w₁
            exact ⟨_, hpolls.trans hrest⟩
          | false => exact ⟨_, hpolls⟩

/-- Adding the listeners does not change the accept lock flag. -/
theorem holdLock_addListeners (env : Env) {ks : List ℕ} {w w' : Worker}
    (hrun : addListeners env ks w = .ok w') : w'.holdLock = w.holdLock := by
  induction ks generalizing w with
  | nil =>
    rw [addListeners, Except.ok.injEq] at hrun
    rw [hrun]
  | cons k ks ih =>
    rw [addListeners] at hrun
    split at hrun
    · rw [Except.ok.injEq] at hrun
      rw [hrun]
    next server _ =>
      split at hrun
      · cases hrun
      have hadd : (epollAddEvent env w server.slot).2.holdLock = w.holdLock := by
        obtain ⟨rslt, interest, hadd, -⟩ := epollAddEvent_snd env w server.slot
        rw [hadd, record]
      split at hrun
      next w₁ hev =>
        rw [hev] at hadd
        exact (ih hrun).trans hadd
      next w₁ hev =>
        rw [hev] at hadd
        rw [Except.ok.injEq] at hrun
        exact hrun ▸ hadd

/-- When every `EPOLL_CTL_DEL` for a listener succeeded, the loop that deletes the listeners
clears the tags at the indices `ks`. -/
theorem untagged_delListeners (env : Env) {ks : List ℕ} {w : Worker}
    (hks : ∀ k ∈ ks, k < w.servers.length)
    (htag : ∀ k server, w.servers[k]? = some server → server.tagged = true → k ∈ ks)
    (hdel : ListenersDeleted w (delListeners env ks w).log) :
    ∀ server ∈ (delListeners env ks w).servers, server.tagged = false := by
  induction ks generalizing w with
  | nil =>
    intro server hserver
    obtain ⟨k, hk⟩ := List.mem_iff_getElem?.mp hserver
    by_contra htagged
    simpa using htag k server hk (by simpa using htagged)
  | cons k ks ih =>
    have hlt := hks k List.mem_cons_self
    have hk : w.servers[k]? = some w.servers[k] := List.getElem?_eq_getElem hlt
    have hne {j : ℕ} (hj : j ∈ k :: ks) (hjk : j ≠ k) : j ∈ ks :=
      (List.mem_cons.mp hj).resolve_left hjk
    rw [delListeners] at hdel ⊢
    simp only [hk] at hdel ⊢
    by_cases htagged : w.servers[k].tagged = true
    · simp only [htagged, if_true] at hdel ⊢
      refine ih (fun j hj => ?_) (fun j server hj hset => ?_) ?_
      · simpa using hks j (List.mem_cons_of_mem _ hj)
      · rw [List.getElem?_modify] at hj
        by_cases hjk : k = j
        · -- this entry was cleared just now
          subst hjk
          simp only [hk, if_true] at hj
          cases hj
          cases hset
        · simp only [hjk, if_false, id_map'] at hj
          exact hne (htag j server hj hset) (Ne.symm hjk)
      · intro i hi
        exact hdel i ((of_servers w k false).listeners ▸ hi)
    · simp only [htagged] at hdel ⊢
      have hslot : w.servers[k].slot ∈ w.listeners := List.mem_map_of_mem (List.getElem_mem hlt)
      obtain ⟨rslt, hlog, hservers, hok⟩ := epollDelEvent_fst env w w.servers[k].slot
      cases hrun : epollDelEvent env w w.servers[k].slot with
      | mk ok w₁ =>
        rw [hrun] at hlog hservers hok
        have hlisteners : w₁.listeners = w.listeners := congrArg (List.map Server.slot) hservers
        cases ok with
        | true =>
          refine ih (fun j hj => ?_) (fun j server hj hset => ?_) fun i hi => ?_
          · rw [hservers]
            exact hks j (List.mem_cons_of_mem _ hj)
          · rw [hservers] at hj
            refine hne (htag j server hj hset) ?_
            rintro rfl
            rw [hk, Option.some.injEq] at hj
            exact htagged (hj ▸ hset)
          · rw [hrun] at hdel
            exact hdel i (hlisteners ▸ hi)
        | false =>
          -- a failed deletion is on record
          rw [hrun] at hdel
          exact absurd (hok (hdel _ hslot _ hlog)) (by simp)

/-- The test of the accept lock is a part of polling. -/
theorem of_tryAcceptLock (env : Env) (w : Worker) : ∃ tr, Polls w (tryAcceptLock env w) tr := by
  unfold tryAcceptLock
  by_cases hpower : 0 < w.power
  · rw [if_pos hpower]
    exact ⟨_, of_record w (.trySpinlock _) trivial _⟩
  · rw [if_neg hpower]
    exact ⟨[], of_holdLock w false⟩

/-- Adding the listeners, unless an entry of `mpp_servers` is tagged. -/
theorem of_watchListeners (env : Env) (w : Worker) :
    (∃ w' tr, watchListeners env w = .ok w' ∧ Polls w w' tr) ∨
      (∃ server ∈ w.servers, server.tagged = true) ∧
        watchListeners env w = .error .serverAligned := by
  unfold watchListeners
  split
  · exact of_addListeners env _ w
  · exact Or.inl ⟨w, [], rfl, refl w⟩

/-- Deleting the listeners, when the lock is held, is a part of polling. -/
theorem of_unwatchListeners (env : Env) (w : Worker) :
    ∃ tr, Polls w (unwatchListeners env w) tr := by
  unfold unwatchListeners
  split
  · exact of_delListeners env _ w
  · exact ⟨[], refl w⟩

/-- The common exit is a part of polling. -/
theorem of_releaseAcceptLock (w : Worker) : ∃ tr, Polls w (releaseAcceptLock w) tr := by
  unfold releaseAcceptLock
  split
  · exact ⟨_, of_record w .spinlockUnlock trivial false⟩
  · exact ⟨[], refl w⟩

end Polls

namespace Consistent

variable {power₀ : ℤ} {w w' : Worker} {free conns posted : List ℕ} {tr : List LogEntry}

/-- Polling leaves the worker consistent, with the same lists. -/
theorem polls (h : Consistent power₀ w [] free conns posted) (hpolls : Polls w w' tr) :
    Consistent power₀ w' [] free conns posted := by
  have hlisteners := h.roles.listeners_subset
  refine ⟨h.lists.congr hpolls.links hpolls.used hpolls.capacity fun i => by rw [hpolls.sock],
    -- what is said about the sockets holds because none of them changes; the rest is about the log
    ⟨?_, hpolls.openFds ▸ h.descriptors.nodup, hpolls.openFds ▸ h.descriptors.nonneg,
      fun fd r hr => ?_, ?_⟩,
    h.roles.congr hpolls.listeners hpolls.appCtxList hpolls.power (fun i _ => ?_)
      (fun i _ => ?_) fun i _ => ?_⟩
  · rw [hpolls.openFds, hpolls.sock]
    exact h.descriptors.fds
  · rw [hpolls.sock]
    rcases hpolls.interest fd r hr with hold | ⟨hslot, hfd, hstale⟩
    · exact h.descriptors.interest fd r hold
    · exact ⟨hlisteners hslot, hfd, hstale⟩
  · rw [hpolls.openFds, hpolls.log]
    refine h.descriptors.accounted.append_of_subset (List.Subset.refl _) ?_
    have hpolling := hpolls.polling
    -- no event of a poll opens or closes a descriptor, so each one passes the log on
    clear hpolls
    induction tr with
    | nil => trivial
    | cons e tr ih =>
      have he := hpolling e List.mem_cons_self
      have hrest := ih fun e he => hpolling e (List.mem_cons_of_mem _ he)
      cases e <;> first | exact hrest | exact he.elim
  · rw [hpolls.localPort]
  · rw [hpolls.sock]
    exact ⟨rfl, rfl⟩
  · rw [hpolls.sock]
    exact ⟨rfl, rfl, rfl⟩

/-! ## Posting -/

/-- An event for a socket on `mp_connections`, under its present tag, sets the flags of the
socket and posts it. -/
theorem postEvent (h : Consistent power₀ w [] free conns posted) {ev : EpollEvent}
    (hi : ev.slot ∈ conns) (hfresh : ev.slot ∉ posted)
    (hstale : (w.sock ev.slot).stale = ev.stale) :
    Consistent power₀ (w.postEvent ev) [] free conns
        (if ev.writable || ev.readable then ev.slot :: posted else posted) ∧
      (w.postEvent ev).sock = Function.update w.sock ev.slot ((w.sock ev.slot).flag ev) ∧
      (w.postEvent ev).capacity = w.capacity ∧ (w.postEvent ev).servers = w.servers ∧
      (w.postEvent ev).appCtxList = w.appCtxList ∧ (w.postEvent ev).log = w.log := by
  have hfd : (w.sock ev.slot).fd ≠ -1 := by
    have hnonneg := h.descriptors.nonneg _ (h.descriptors.fd_mem hi)
    omega
  have hpass : ¬((w.sock ev.slot).fd = -1 ∨ ev.stale ≠ (w.sock ev.slot).stale) := by
    simp [hfd, hstale]
  -- the flags matter for nothing in the invariant
  set w₁ := w.modifySock ev.slot (·.flag ev) with hw₁
  have hsame (i : ℕ) : (w₁.sock i).belong = (w.sock i).belong ∧
      (w₁.sock i).fd = (w.sock i).fd ∧ (w₁.sock i).stale = (w.sock i).stale ∧
      (w₁.sock i).close = (w.sock i).close ∧
      (w₁.sock i).readHandler = (w.sock i).readHandler ∧
      (w₁.sock i).writeHandler = (w.sock i).writeHandler ∧
      (w₁.sock i).disconnectHandler = (w.sock i).disconnectHandler := by
    by_cases hi : i = ev.slot <;> simp [hw₁, modifySock, Socket.flag, hi]
  have h₁ : Consistent power₀ w₁ [] free conns posted :=
    ⟨h.lists.congr rfl rfl rfl fun i => (hsame i).1,
      h.descriptors.congr rfl (fun i _ => ⟨(hsame i).2.1, (hsame i).2.2.1⟩) (fun _ _ hr => hr)
        h.descriptors.accounted,
      h.roles.congr rfl rfl rfl (fun _ _ => rfl)
        (fun i _ => ⟨(hsame i).2.1, (hsame i).2.2.2.1⟩) fun i _ => (hsame i).2.2.2.2⟩
  have hdef : w.postEvent ev =
      if ev.writable || ev.readable then w₁.addNode .postedEvents (.postedNode ev.slot)
      else w₁ := if_neg hpass
  rw [hdef]
  by_cases hpost : (ev.writable || ev.readable) = true
  · rw [if_pos hpost, if_pos hpost]
    refine ⟨⟨h₁.lists.post (h.lists.lt_of_mem_conns hi) hfresh,
      h₁.descriptors.congr rfl (fun _ _ => ⟨rfl, rfl⟩) (fun _ _ hr => hr)
        h₁.descriptors.accounted,
      h₁.roles.congr rfl rfl rfl (fun _ _ => rfl) (fun _ _ => ⟨rfl, rfl⟩)
        fun _ _ => ⟨rfl, rfl, rfl⟩⟩, rfl, rfl, rfl, rfl, rfl⟩
  · rw [if_neg hpost, if_neg hpost]
    exact ⟨h₁, rfl, rfl, rfl, rfl, rfl⟩

/-- A batch of events for different sockets posts those that report something, and leaves the worker
consistent. -/
theorem postEvents (h : Consistent power₀ w [] free conns posted) {evs : List EpollEvent}
    (hnodup : (evs.map EpollEvent.slot).Nodup)
    (hevs : ∀ ev ∈ evs, ev.slot ∈ conns ∧ ev.slot ∉ posted ∧
      (w.sock ev.slot).stale = ev.stale) :
    ∃ posted', Consistent power₀ (evs.foldl Worker.postEvent w) [] free conns posted' ∧
      (∀ i, i ∈ posted' ↔ i ∈ posted ∨
        ∃ ev ∈ evs, ev.slot = i ∧ (ev.writable || ev.readable) = true) ∧
      (∀ ev ∈ evs, (evs.foldl Worker.postEvent w).sock ev.slot = (w.sock ev.slot).flag ev) ∧
      (∀ i, i ∉ evs.map EpollEvent.slot →
        (evs.foldl Worker.postEvent w).sock i = w.sock i) ∧
      (evs.foldl Worker.postEvent w).capacity = w.capacity ∧
      (evs.foldl Worker.postEvent w).servers = w.servers ∧
      (evs.foldl Worker.postEvent w).appCtxList = w.appCtxList ∧
      (evs.foldl Worker.postEvent w).log = w.log := by
  induction evs generalizing w posted with
  | nil => exact ⟨posted, h, by simp, by simp, by simp, rfl, rfl, rfl, rfl⟩
  | cons ev evs ih =>
    obtain ⟨hnew, hnodup⟩ := List.nodup_cons.mp hnodup
    have hne {ev' : EpollEvent} (hev' : ev' ∈ evs) : ev'.slot ≠ ev.slot := by
      intro heq
      exact hnew (heq ▸ List.mem_map_of_mem hev')
    obtain ⟨hi, hfresh, hstale⟩ := hevs ev List.mem_cons_self
    -- the first event, and the others after it
    obtain ⟨h₁, hsock₁, hcapacity₁, hservers₁, happs₁, hlog₁⟩ := h.postEvent hi hfresh hstale
    obtain ⟨posted', h', hposted, hflags, hother, hcapacity, hservers, happs, hlog⟩ :=
      ih h₁ hnodup fun ev' hev' => by
        obtain ⟨hi', hfresh', hstale'⟩ := hevs ev' (List.mem_cons_of_mem _ hev')
        refine ⟨hi', ?_, ?_⟩
        · split
          · simp [hne hev', hfresh']
          · exact hfresh'
        · rw [hsock₁, Function.update_of_ne (hne hev')]
          exact hstale'
    refine ⟨posted', h', fun i => ?_, fun ev' hev' => ?_, fun i hi' => ?_,
      hcapacity.trans hcapacity₁, hservers.trans hservers₁, happs.trans happs₁,
      hlog.trans hlog₁⟩
    · rw [hposted i]
      by_cases hpost : (ev.writable || ev.readable) = true
      · simp only [hpost, if_true, List.mem_cons, exists_eq_or_imp]
        constructor
        · rintro ((rfl | hold) | hrest)
          · exact Or.inr (Or.inl ⟨rfl, trivial⟩)
          · exact Or.inl hold
          · exact Or.inr (Or.inr hrest)
        · rintro (hold | ⟨rfl, -⟩ | hrest)
          · exact Or.inl (Or.inr hold)
          · exact Or.inl (Or.inl rfl)
          · exact Or.inr hrest
      · simp only [hpost, List.mem_cons, exists_eq_or_imp]
        simp
    · rw [List.foldl_cons]
      rcases List.mem_cons.mp hev' with rfl | hev'
      · rw [hother _ hnew, hsock₁, Function.update_self]
      · rw [hflags ev' hev', hsock₁, Function.update_of_ne (hne hev')]
    · simp only [List.map_cons, List.mem_cons, not_or] at hi'
      rw [List.foldl_cons, hother i hi'.2, hsock₁, Function.update_of_ne hi'.1]

end Consistent

/-- Posting changes neither the pointers to the listeners nor what the kernel watches. -/
theorem foldl_postEvent_keeps (evs : List EpollEvent) (w : Worker) :
    (evs.foldl Worker.postEvent w).holdLock = w.holdLock ∧
      (evs.foldl Worker.postEvent w).interest = w.interest ∧
      (evs.foldl Worker.postEvent w).servers = w.servers ∧
      (evs.foldl Worker.postEvent w).log = w.log := by
  induction evs generalizing w with
  | nil => exact ⟨rfl, rfl, rfl, rfl⟩
  | cons ev evs ih =>
    have hone : (Worker.postEvent w ev).holdLock = w.holdLock ∧
        (Worker.postEvent w ev).interest = w.interest ∧
        (Worker.postEvent w ev).servers = w.servers ∧ (Worker.postEvent w ev).log = w.log := by
      simp only [Worker.postEvent]
      split
      · exact ⟨rfl, rfl, rfl, rfl⟩
      · split <;> exact ⟨rfl, rfl, rfl, rfl⟩
    obtain ⟨hhold, hinterest, hservers, hlog⟩ := ih (Worker.postEvent w ev)
    exact ⟨hhold.trans hone.1, hinterest.trans hone.2.1, hservers.trans hone.2.2.1,
      hlog.trans hone.2.2.2⟩

/-! ## The whole call -/

/-- The events of a result of `epoll_wait`. -/
def WaitResult.batch : WaitResult → List EpollEvent
  | .events evs => evs
  | .eintr => []
  | .failed => []

/-- What a call of `epoll_process_events` leaves for the traversal, when `epoll_wait` gave
`rslt`. -/
structure Polled (power₀ : ℤ) (w w' : Worker) (free conns posted : List ℕ) (rslt : WaitResult)
    (tr : List LogEntry) : Prop where
  consistent : Consistent power₀ w' [] free conns posted
  capacity : w'.capacity = w.capacity
  listeners : w'.listeners = w.listeners
  appCtxList : w'.appCtxList = w.appCtxList
  log : w'.log = w.log ++ tr
  /-- `epoll_wait` was called once. -/
  trace : ∃ tr₁ tr₂, tr = tr₁ ++ .wait rslt :: tr₂ ∧ ∀ e ∈ tr₁ ++ tr₂, e.IsPolling
  /-- The sockets of the batch are different connections. -/
  nodup : (rslt.batch.map EpollEvent.slot).Nodup
  subset : ∀ ev ∈ rslt.batch, ev.slot ∈ conns
  /-- Those with a flag are posted. -/
  mem_posted : ∀ i, i ∈ posted ↔
    ∃ ev ∈ rslt.batch, ev.slot = i ∧ (ev.writable || ev.readable) = true
  flags : ∀ ev ∈ rslt.batch, w'.sock ev.slot = (w.sock ev.slot).flag ev
  sock : ∀ i, i ∉ rslt.batch.map EpollEvent.slot → w'.sock i = w.sock i
  /-- No pointer stays tagged while `EPOLL_CTL_DEL` succeeds. -/
  untagged : ListenersDeleted w w'.log → (∀ server ∈ w.servers, server.tagged = false) →
    ∀ server ∈ w'.servers, server.tagged = false

/-- When every `EPOLL_CTL_DEL` for a listener succeeds, no pointer stays tagged. -/
theorem untagged_unwatchListeners (env : Env) {w w' : Worker} {rslt : WaitResult}
    (hrun : watchListeners env w = .ok w') (hold : ∀ server ∈ w.servers, server.tagged = false)
    (hdel : ListenersDeleted w' (unwatchListeners env (w'.record (.wait rslt))).log) :
    ∀ server ∈ (unwatchListeners env (w'.record (.wait rslt))).servers,
      server.tagged = false := by
  unfold watchListeners at hrun
  unfold unwatchListeners at hdel ⊢
  split at hrun
  next hhold =>
    have hhold' : (w'.record (.wait rslt)).holdLock = true :=
      (Polls.holdLock_addListeners env hrun).trans hhold
    rw [if_pos hhold'] at hdel ⊢
    refine Polls.untagged_delListeners env (fun k hk => List.mem_range.mp hk)
      (fun k server hk _ => ?_) hdel
    obtain ⟨hlt, -⟩ := List.getElem?_eq_some_iff.mp hk
    exact List.mem_range.mpr hlt
  next hhold =>
    -- nothing was added
    rw [Except.ok.injEq] at hrun
    subst hrun
    have hhold' : ¬(w.record (.wait rslt)).holdLock = true := hhold
    rw [if_neg hhold']
    exact hold

/-- Posting events does not change ports. -/
theorem localPort_foldl_postEvent (evs : List EpollEvent) (w : Worker) :
    (evs.foldl Worker.postEvent w).localPort = w.localPort := by
  induction evs generalizing w with
  | nil => rfl
  | cons ev evs ih =>
    rw [List.foldl_cons, ih]
    simp only [Worker.postEvent]
    split
    · rfl
    · split <;> rfl

/-- `epoll_process_events` waits once, after the listeners were added, and returns unless a
pointer in `mpp_servers` is still tagged. -/
theorem Consistent.epollProcessEvents_wait {power₀ : ℤ} {w : Worker} {free conns : List ℕ}
    (h : Consistent power₀ w [] free conns []) {env : Env} (hbatch : env.RegisteredBatches) :
    (∃ w₂ w' posted rslt tr, watchListeners env (tryAcceptLock env w) = .ok w₂ ∧
      rslt = env.wait w₂ ∧
      Worker.epollProcessEvents env w = .ok (decide (rslt ≠ .failed), w') ∧
      w'.localPort = w.localPort ∧ Polled power₀ w w' free conns posted rslt tr) ∨
      (∃ server ∈ w.servers, server.tagged = true) ∧
        Worker.epollProcessEvents env w = .error .serverAligned := by
  obtain ⟨tr₁, hpolls₁⟩ := Polls.of_tryAcceptLock env w
  have hservers : (tryAcceptLock env w).servers = w.servers := by
    unfold tryAcceptLock
    split <;> rfl
  rcases Polls.of_watchListeners env (tryAcceptLock env w) with
    ⟨w₂, tr₂, hrun₂, hpolls₂⟩ | ⟨htag, herror⟩
  swap
  · refine Or.inr ⟨hservers ▸ htag, ?_⟩
    simp [Worker.epollProcessEvents, herror, bind, Except.bind]
  left
  have hpolls₂ := hpolls₁.trans hpolls₂
  have h₂ := h.polls hpolls₂
  have hempty : w₂.links .postedEvents = none := h₂.lists.postedEvents
  set rslt := env.wait w₂ with hrslt
  have h₃ : Consistent power₀ (w₂.record (.wait rslt)) [] free conns [] := h₂.record _ trivial
  obtain ⟨tr₃, hpolls₄⟩ := Polls.of_unwatchListeners env (w₂.record (.wait rslt))
  set w₄ := unwatchListeners env (w₂.record (.wait rslt)) with hw₄
  have h₄ := h₃.polls hpolls₄
  have hsock₄ : w₄.sock = w.sock := hpolls₄.sock.trans hpolls₂.sock
  -- the batch is about connections
  obtain ⟨hnodup, hevs⟩ : (rslt.batch.map EpollEvent.slot).Nodup ∧ ∀ ev ∈ rslt.batch,
      ev.slot ∈ conns ∧ ev.slot ∉ ([] : List ℕ) ∧ (w₄.sock ev.slot).stale = ev.stale := by
    cases hwait : rslt with
    | eintr | failed => simp [WaitResult.batch]
    | events evs =>
      obtain ⟨hnodup, hregistered⟩ := hbatch w₂ evs (hrslt.symm.trans hwait)
      refine ⟨hnodup, fun ev hev => ?_⟩
      obtain ⟨fd, r, hr, hslot, hstale⟩ := hregistered ev hev
      obtain ⟨hmem, -, htag⟩ := h₂.descriptors.interest fd r hr
      rw [hslot] at hmem htag
      refine ⟨hmem, by simp, ?_⟩
      rw [hsock₄, ← hpolls₂.sock, htag, hstale]
  obtain ⟨posted, h₅, hposted, hflags, hother, hcapacity₅, hservers₅, happs₅, hlog₅⟩ :=
    h₄.postEvents hnodup hevs
  set w₅ := rslt.batch.foldl Worker.postEvent w₄ with hw₅
  have hlisteners₅ : w₅.listeners = w₄.listeners := congrArg (List.map Server.slot) hservers₅
  obtain ⟨tr₄, hpolls₆⟩ := Polls.of_releaseAcceptLock w₅
  refine ⟨w₂, releaseAcceptLock w₅, posted, rslt, (tr₁ ++ tr₂) ++ .wait rslt :: (tr₃ ++ tr₄),
    hrun₂, rfl, ?_, ?_, h₅.polls hpolls₆, ?_, ?_, ?_, ?_, ⟨_, _, rfl, fun e he => ?_⟩, hnodup,
    fun ev hev => (hevs ev hev).1, fun i => ?_, fun ev hev => ?_, fun i hi => ?_,
    fun hdel hold => ?_⟩
  · simp only [Worker.epollProcessEvents, hrun₂, bind, Except.bind, hempty, ne_eq,
      not_true_eq_false, if_false, ← hrslt, ← hw₄]
    cases hwait : rslt <;> simp [hw₅, hwait, WaitResult.batch]
  · rw [hpolls₆.localPort, hw₅, localPort_foldl_postEvent, hpolls₄.localPort]
    exact hpolls₂.localPort
  · rw [hpolls₆.capacity, hcapacity₅, hpolls₄.capacity]
    exact hpolls₂.capacity
  · rw [hpolls₆.listeners, hlisteners₅, hpolls₄.listeners]
    exact hpolls₂.listeners
  · rw [hpolls₆.appCtxList, happs₅, hpolls₄.appCtxList]
    exact hpolls₂.appCtxList
  · rw [hpolls₆.log, hlog₅, hpolls₄.log, Worker.record, hpolls₂.log]
    simp
  · rcases List.mem_append.mp he with he | he
    · exact hpolls₂.polling e he
    · exact (List.mem_append.mp he).elim (hpolls₄.polling e) (hpolls₆.polling e)
  · rw [hposted i]
    simp
  · rw [hpolls₆.sock, hflags ev hev, hsock₄]
  · rw [hpolls₆.sock, hother i hi, hsock₄]
  · have hservers₆ : (releaseAcceptLock w₅).servers = w₅.servers := by
      unfold releaseAcceptLock
      split <;> rfl
    rw [hservers₆, hservers₅]
    refine untagged_unwatchListeners env hrun₂ (hservers ▸ hold) fun i hi r hr => ?_
    refine hdel i (hpolls₂.listeners ▸ hi) r ?_
    rw [hpolls₆.log, hlog₅]
    exact List.mem_append_left _ hr

/-- `epoll_process_events` returns unless a pointer in `mpp_servers` is still tagged. -/
theorem Consistent.epollProcessEvents {power₀ : ℤ} {w : Worker} {free conns : List ℕ}
    (h : Consistent power₀ w [] free conns []) {env : Env} (hbatch : env.RegisteredBatches) :
    (∃ w' posted rslt tr, Worker.epollProcessEvents env w = .ok (decide (rslt ≠ .failed), w') ∧
      Polled power₀ w w' free conns posted rslt tr) ∨
      (∃ server ∈ w.servers, server.tagged = true) ∧
        Worker.epollProcessEvents env w = .error .serverAligned := by
  rcases h.epollProcessEvents_wait hbatch with
    ⟨w₂, w', posted, rslt, tr, -, -, hrun, -, hpolled⟩ | herror
  · exact Or.inl ⟨w', posted, rslt, tr, hrun, hpolled⟩
  · exact Or.inr herror

end Hixo
