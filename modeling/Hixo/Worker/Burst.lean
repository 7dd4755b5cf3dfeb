import Hixo.Worker.Positions

/-!
# A burst of connections

When one listener is readable and every system call succeeds, `hixo_handle_accept` opens a
connection in every slot that is free, one after the other.

* `burstEnv`: the system calls of such a pass;
* `exists_acceptHead`: the head of the accept loop is reached;
* `AcceptHead.burst_step`: one more connection is opened there;
* `AcceptHead.burst`: this goes on until no slot is left;
* `Idle`: a worker without power never gets so far.
-/

namespace Hixo

open Worker
open Consistent (incoming)

/-- All system calls succeed. There is an event for listener `l`, and `accept` has `n`
connections. -/
def burstEnv (l n : ℕ) : Env where
  trySpinlock _ := true
  addEvent _ _ := .ok
  delEvent _ _ := .ok
  wait w :=
    match w.interest (w.sock l).fd with
    | some r => .events [⟨r.slot, r.stale, hixoEventIn⟩]
    | none => .eintr
  pending _ := n
  accept w := .conn (sampleFd w)
  callback _ _ _ _ := ⟨false, false, [], []⟩

theorem burstEnv_valid (l n : ℕ) : (burstEnv l n).Valid := by
  refine ⟨fun w fd hfd => ?_, fun w evs hevs => ?_⟩
  · obtain rfl : sampleFd w = fd := AcceptResult.conn.inj hfd
    exact sampleFd_notMem w
  · simp only [burstEnv] at hevs
    split at hevs <;> cases hevs
    next r hr => exact ⟨by simp, by simpa using ⟨_, r, hr, rfl, rfl⟩⟩

/-- An event with `EPOLLIN` lets a socket be read. -/
theorem readable_eventIn (slot : ℕ) (stale : Bool) :
    (EpollEvent.mk slot stale hixoEventIn).readable = true := by
  have hin : hixoEventIn &&& widenEvents hixoEventIn ≠ 0 := by decide
  exact decide_eq_true hin

/-! ## The listeners are watched -/

/-- The loop that adds the listeners makes the kernel watch them. -/
theorem interest_addListeners {env : Env} (hadd : ∀ w i, env.addEvent w i = .ok) {ks : List ℕ}
    {w w' : Worker} (hrun : addListeners env ks w = .ok w')
    (hks : ∀ k ∈ ks, k < w.servers.length) :
    (∀ x, w.interest x ≠ none → w'.interest x ≠ none) ∧
      ∀ k ∈ ks, ∀ server, w.servers[k]? = some server →
        w'.interest (w.sock server.slot).fd ≠ none := by
  induction ks generalizing w with
  | nil =>
    obtain rfl := Except.ok.inj hrun
    exact ⟨fun _ hx => hx, by simp⟩
  | cons k ks ih =>
    obtain ⟨first, hk⟩ : ∃ server, w.servers[k]? = some server :=
      ⟨_, List.getElem?_eq_getElem (hks k List.mem_cons_self)⟩
    rw [addListeners, hk] at hrun
    dsimp only at hrun
    split at hrun
    · cases hrun
    simp only [epollAddEvent, hadd] at hrun
    obtain ⟨hmono, hrest⟩ := ih hrun fun j hj => hks j (List.mem_cons_of_mem _ hj)
    -- no pass takes a registration away
    have hold (x : ℤ) (hx : w.interest x ≠ none) : w'.interest x ≠ none := by
      refine hmono x ?_
      dsimp only
      split
      · simp
      · exact hx
    refine ⟨hold, fun j hj server hserver => ?_⟩
    rcases List.mem_cons.mp hj with rfl | hj
    · obtain rfl : first = server := Option.some.inj (hk.symm.trans hserver)
      refine hmono _ ?_
      simp [record]
    · exact hrest j hj server hserver

/-- When the worker gets the accept lock and every listener can be added, all are watched. -/
theorem interest_watchListeners {env : Env} (hadd : ∀ w i, env.addEvent w i = .ok)
    {w w' : Worker} (hpower : 0 < w.power) (hlock : env.trySpinlock w = true)
    (hrun : watchListeners env (tryAcceptLock env w) = .ok w') {l : ℕ} (hl : l ∈ w.listeners) :
    w'.interest (w.sock l).fd ≠ none := by
  have htry : tryAcceptLock env w = { w.record (.trySpinlock true) with holdLock := true } := by
    simp only [tryAcceptLock, if_pos hpower, hlock]
  rw [htry, watchListeners, if_pos rfl] at hrun
  obtain ⟨-, hwatched⟩ := interest_addListeners hadd hrun fun k hk => List.mem_range.mp hk
  obtain ⟨server, hserver, rfl⟩ := List.mem_map.mp hl
  obtain ⟨k, hk, hget⟩ := List.mem_iff_getElem.mp hserver
  exact hwatched k (List.mem_range.mpr hk) server (hget ▸ List.getElem?_eq_getElem hk)

/-! ## The head of the accept loop -/

/-- With the accept lock to be had, `hixo_handle_accept` is called for listener `l` in the first
pass. -/
theorem exists_acceptHead {power₀ : ℤ} {w₀ : Worker} {free conns : List ℕ} {l : ℕ}
    (h₀ : Consistent power₀ w₀ [] free conns [])
    (htag : ∀ server ∈ w₀.servers, server.tagged = false) (hpower : 0 < w₀.power)
    (hl : l ∈ w₀.listeners) (n : ℕ) :
    ∃ w posted, AcceptHead w₀ (burstEnv l n) l n none w ∧
      Consistent power₀ w [] free conns posted := by
  have hlc := h₀.roles.listeners_subset hl
  rcases h₀.epollProcessEvents_wait (burstEnv_valid l n).batches with
    ⟨w₁, w₂, posted, rslt, tr, hwatch, hrslt, hpoll, -, hpolled⟩ | ⟨⟨server, hserver, htagged⟩, -⟩
  swap
  · rw [htag server hserver] at htagged
    cases htagged
  -- `epoll_wait` reports the listener
  obtain ⟨tr₁, hpolls₁⟩ := Polls.of_tryAcceptLock (burstEnv l n) w₀
  obtain ⟨tr₂, hpolls₂⟩ : ∃ tr, Polls (tryAcceptLock (burstEnv l n) w₀) w₁ tr := by
    rcases Polls.of_watchListeners (burstEnv l n) (tryAcceptLock (burstEnv l n) w₀) with
      ⟨w', tr, hrun, hpolls⟩ | ⟨-, herror⟩
    · obtain rfl := Except.ok.inj (hwatch.symm.trans hrun)
      exact ⟨tr, hpolls⟩
    · rw [hwatch] at herror
      cases herror
  have hpolls := hpolls₁.trans hpolls₂
  have h₁ := h₀.polls hpolls
  obtain ⟨r, hr⟩ := Option.ne_none_iff_exists'.mp
    (interest_watchListeners (fun _ _ => rfl) hpower rfl hwatch hl)
  have hslot : r.slot = l := by
    obtain ⟨hmem, hfd, -⟩ := h₁.descriptors.interest _ r hr
    rw [← hpolls.sock] at hfd
    exact h₁.descriptors.fd_inj hmem hlc hfd
  have hwait : rslt = .events [⟨l, r.stale, hixoEventIn⟩] := by
    rw [hrslt]
    simp only [burstEnv, hpolls.sock, hr, hslot]
  subst hwait
  -- it is the first posted socket
  have hmem (i : ℕ) : i ∈ posted ↔ i = l := by
    rw [hpolled.mem_posted i]
    simp only [WaitResult.batch, List.mem_singleton, exists_eq_left]
    exact ⟨fun h => h.1.symm, fun h => ⟨h.symm, by rw [readable_eventIn, Bool.or_true]⟩⟩
  have hhead : w₂.links .postedEvents = some (.postedNode l) := by
    have hlist := hpolled.consistent.lists.postedEvents
    cases posted with
    | nil => simpa using (hmem l).mpr rfl
    | cons i posted =>
      obtain rfl := (hmem i).mp List.mem_cons_self
      exact hlist.1
  obtain ⟨m, hm⟩ := Nat.exists_eq_succ_of_ne_zero
    (Nat.ne_of_gt (lt_of_le_of_lt (Nat.zero_le _) (hpolled.consistent.lists.lt_of_mem_conns hlc)))
  have hvisit : VisitHead w₀ (burstEnv l n) (m + 1) (some (.postedNode l)) w₂ := by
    refine .mk .start (burstEnv_valid l n) hpoll ?_
    rw [← Nat.succ_eq_add_one, ← hm, ← hhead]
    exact .enter
  have hflag := hpolled.flags ⟨l, r.stale, hixoEventIn⟩ List.mem_cons_self
  have hlisteners₂ : l ∈ w₂.listeners := hpolled.listeners ▸ hl
  refine ⟨w₂.record (.handleAccept l), posted, .mk hvisit ?_ ?_ .enter,
    hpolled.consistent.record _ trivial⟩
  · rw [hflag]
    exact readable_eventIn l r.stale
  · exact (hpolled.consistent.roles.listener l hlisteners₂).readHandler

/-- A new connection is opened in the first free slot. -/
theorem AcceptHead.burst_step {power₀ : ℤ} {w₀ w : Worker} {free conns posted : List ℕ}
    {l k n i : ℕ} {ctx : Option AppCtx} (hhead : AcceptHead w₀ (burstEnv l k) l (n + 1) ctx w)
    (h : Consistent power₀ w [] (i :: free) conns posted) (hl : l ∈ w.listeners) :
    ∃ ctx' w' tr, acceptBody (burstEnv l k) (burstEnv l k).accept l ctx w =
        .ok (.cont ctx' w') ∧ AcceptHead w₀ (burstEnv l k) l n ctx' w' ∧
      Consistent power₀ w' [] free (i :: conns) posted ∧ w'.log = w.log ++ tr ∧
      .opened i ∈ tr := by
  set env := burstEnv l k with henv
  -- the pass takes slot `i`, accepts a descriptor that is not open and registers it
  obtain ⟨w₁, halloc, h₁, hkeeps₁, hlog₁⟩ := h.allocResource
  have hl₁ : l ∈ w₁.listeners := hkeeps₁.listeners ▸ hl
  have hfresh : (sampleFd w₁ : ℤ) ∉ w₁.openFds := sampleFd_notMem w₁
  obtain ⟨app, happ, hfind⟩ := h₁.exists_findApp hl₁ (sampleFd w₁)
  obtain ⟨w₂, hadd⟩ : ∃ w₂, epollAddEvent env (incoming w₁ l i (sampleFd w₁) app) i =
      (true, w₂) := ⟨_, rfl⟩
  have hopened : ((epollAddEvent env (incoming w₁ l i (sampleFd w₁) app) i).2.putConnection
      i).runCallback env .connect i app.handleConnect =
      (w₂.putConnection i).runCallback env .connect i app.handleConnect := by
    rw [hadd]
  obtain ⟨rslt, close, h₂, -, hlog₂, -⟩ := h₁.connect env l happ hfresh hopened
  have hbody : acceptBody env env.accept l ctx w = .ok (.cont (some app)
      ((w₂.putConnection i).runCallback env .connect i app.handleConnect)) := by
    have haccept : env.accept w₁ = .conn (sampleFd w₁) := rfl
    simp only [incoming] at hadd
    simp only [acceptBody, halloc, haccept, hfind, hadd, bind, Except.bind, Option.some_or]
  obtain ⟨hvisit, hreadable, hhandler, haccepting⟩ := hhead
  refine ⟨_, _, _, hbody, .mk hvisit hreadable hhandler (.next haccepting hbody), h₂,
    hlog₁ ▸ hlog₂, by simp⟩

/-- With the accept lock to be had and more slots than listeners, a connection to listener `l` is
opened in the first pass. -/
theorem exists_opened {power₀ : ℤ} {w₀ : Worker} {free : List ℕ} {l : ℕ}
    (h₀ : Consistent power₀ w₀ [] free w₀.listeners.reverse [])
    (htag : ∀ server ∈ w₀.servers, server.tagged = false) (hpower : 0 < w₀.power)
    (hroom : w₀.servers.length < w₀.capacity) (hl : l ∈ w₀.listeners) :
    ∃ env n carried w step tr i, AcceptHead w₀ env l (n + 1) carried w ∧
      acceptBody env env.accept l carried w = .ok step ∧ step.worker.log = w.log ++ tr ∧
      .opened i ∈ tr := by
  obtain ⟨w, posted, hhead, h⟩ := exists_acceptHead h₀ htag hpower hl 1
  obtain ⟨-, -, -, -, -, -, hkeeps⟩ := hhead.consistent h₀
  -- the listeners take fewer slots than the cache has, so one is free
  have hne : free ≠ [] := by
    rintro rfl
    have hlen := h₀.lists.slots.length_eq
    have hservers : w₀.listeners.length = w₀.servers.length := List.length_map _
    simp only [List.nil_append, List.length_reverse, List.length_range] at hlen
    omega
  obtain ⟨i, free, rfl⟩ := List.exists_cons_of_ne_nil hne
  obtain ⟨ctx', w', tr, hbody, -, -, hlog, hopened⟩ := hhead.burst_step h (hkeeps.listeners ▸ hl)
  exact ⟨_, _, _, w, _, tr, i, hhead, hbody, hlog, hopened⟩

/-- The burst goes on at the head of the accept loop until no slot is left. -/
theorem AcceptHead.burst {power₀ : ℤ} {w₀ w : Worker} {free conns posted : List ℕ}
    {l k n : ℕ} {ctx : Option AppCtx} (hhead : AcceptHead w₀ (burstEnv l k) l n ctx w)
    (h : Consistent power₀ w [] free conns posted) (hl : l ∈ w.listeners)
    (hn : free.length ≤ n) :
    ∃ m ctx' w' conns', AcceptHead w₀ (burstEnv l k) l m ctx' w' ∧
      Consistent power₀ w' [] [] conns' posted := by
  induction free generalizing w conns n ctx with
  | nil => exact ⟨n, ctx, w, conns, hhead, h⟩
  | cons i free ih =>
    obtain ⟨n, rfl⟩ := Nat.exists_eq_succ_of_ne_zero
      (Nat.ne_of_gt (lt_of_lt_of_le (Nat.succ_pos _) hn))
    obtain ⟨ctx', w', tr, hbody, hhead', h', -⟩ := hhead.burst_step h hl
    obtain ⟨hkeeps, -⟩ := h.acceptBody_keeps (burstEnv_valid l k).fresh hl hbody
    exact ih hhead' h' (hkeeps.listeners ▸ hl) (Nat.le_of_succ_le_succ hn)

/-! ## Without power -/

/-- A worker that has no power and whose sockets nobody watches. -/
structure Idle (w : Worker) : Prop where
  power : w.power ≤ 0
  interest : ∀ fd, w.interest fd = none
  postedEvents : w.links .postedEvents = none

namespace Idle

variable {w w₀ : Worker} {env : Env}

/-- A worker that is idle polls without the lock and posts nothing. -/
theorem epollProcessEvents (h : Idle w) (henv : env.Valid) :
    ∃ ok rslt, Worker.epollProcessEvents env w =
      .ok (ok, { w.record (.wait rslt) with holdLock := false }) := by
  -- without power the lock is not tried
  have htry : tryAcceptLock env w = { w with holdLock := false } :=
    if_neg (not_lt.mpr h.power)
  have hempty (evs : List EpollEvent)
      (hwait : env.wait { w with holdLock := false } = .events evs) : evs = [] := by
    obtain ⟨-, hregistered⟩ := henv.batches _ evs hwait
    refine List.eq_nil_iff_forall_not_mem.mpr fun ev hev => ?_
    obtain ⟨fd, r, hr, -⟩ := hregistered ev hev
    cases (h.interest fd).symm.trans hr
  simp only [Worker.epollProcessEvents, htry, watchListeners, Bool.false_eq_true, if_false, bind,
    Except.bind, h.postedEvents, ne_eq, not_true_eq_false, unwatchListeners, record]
  -- nothing is registered, so a wait that returns events returns none
  cases hwait : env.wait { w with holdLock := false } with
  | eintr => exact ⟨true, .eintr, rfl⟩
  | failed => exact ⟨false, .failed, rfl⟩
  | events evs =>
    obtain rfl := hempty evs hwait
    exact ⟨true, .events [], rfl⟩

/-- A worker that is idle stays so in all its passes, and its power stays the same. -/
theorem run (h : Idle w₀) {passes : List Pass} {ok : Bool} (hrun : Run w₀ passes ok w) :
    Idle w ∧ w.power = w₀.power := by
  induction hrun with
  | start => exact ⟨h, rfl⟩
  | step _ henv hstep ih =>
    obtain ⟨ih, hpower⟩ := ih
    obtain ⟨ok₁, rslt, hpoll⟩ := ih.epollProcessEvents henv
    simp only [eventLoopBody, hpoll, bind, Except.bind] at hstep
    cases ok₁ with
    | false =>
      obtain ⟨-, rfl⟩ := Prod.mk.inj (Except.ok.inj hstep)
      exact ⟨⟨ih.power, ih.interest, ih.postedEvents⟩, hpower⟩
    | true =>
      simp only [if_true, record, ih.postedEvents, Worker.traverse] at hstep
      obtain ⟨-, rfl⟩ := Prod.mk.inj (Except.ok.inj hstep)
      exact ⟨⟨ih.power, ih.interest, ih.postedEvents⟩, hpower⟩

/-- No socket is visited, and its power is the same between polling and the next pass. -/
theorem visitHead (h : Idle w₀) {n : ℕ} {next : Option Cell} (hhead : VisitHead w₀ env n next w) :
    next = none ∧ w.power = w₀.power := by
  obtain ⟨hrun, henv, hpoll, hhead⟩ := hhead
  obtain ⟨h₁, hpower⟩ := h.run hrun
  obtain ⟨ok, rslt, hpoll'⟩ := h₁.epollProcessEvents henv
  obtain ⟨-, rfl⟩ := Prod.mk.inj (Except.ok.inj (hpoll.symm.trans hpoll'))
  refine ⟨hhead.next_eq_none h₁.postedEvents, ?_⟩
  cases hhead with
  | enter => exact hpower
  | next hprev _ => cases hprev.next_eq_none h₁.postedEvents

/-- A worker that is idle never gets to the accept loop. -/
theorem no_acceptHead (h : Idle w₀) {l n : ℕ} {ctx : Option AppCtx} :
    ¬AcceptHead w₀ env l n ctx w := by
  rintro ⟨hvisit, -, -, -⟩
  cases (h.visitHead hvisit).1

end Idle

/-- A worker that is started without room for connections is idle. -/
theorem idle_of_startWorker {boot : BootEnv} {apps : List AppCtx} {w : Worker}
    (hboot : boot.FreshFds) (hstart : startWorker boot 0 apps = .ok (some w)) : Idle w := by
  obtain ⟨free, h, -⟩ := consistent_of_startWorker hboot hstart
  obtain ⟨w₁, w₂, hmaster, hworker, hw⟩ := startWorker_eq hstart
  obtain ⟨free₁, conns₁, hbooting⟩ := booting_of_eventCoreInitMaster hboot hmaster
  obtain rfl := eventCoreInitWorker_eq
    (w := { w₁ with power := ((0 : ℕ) : ℤ) - (0 : ℕ) / 8 }) hbooting.appCtxList hworker
  exact ⟨by simp [hw, epollInit], fun fd => by simp [hw, epollInit], h.lists.postedEvents⟩

end Hixo
