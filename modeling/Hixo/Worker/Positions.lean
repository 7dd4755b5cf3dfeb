import Hixo.Worker.Runs

/-!
# Positions within a pass

The states of a worker inside a pass of `event_loop`: between two visits of the traversal, and at
the head of the loop of `hixo_handle_accept`. The worker is consistent there as well, and its
listeners are as they were when the pass began.

* `Visiting`, `Accepting`: the heads of the two loops;
* `KeepsListeners`: what routing reads of the listeners stays the same;
* `AcceptHead`: a head of the accept loop in some run of a worker;
* `AcceptHead.consistent`: what holds there.
-/

namespace Hixo

open Worker
open Consistent (incoming incoming_fd)

/-! ## The heads of the loops -/

/-- The traversal that starts in `w₁` is at its head in `w`, with `n` passes and the node `next`
left. -/
inductive Visiting (env : Env) (w₁ : Worker) : ℕ → Option Cell → Worker → Prop
  | enter : Visiting env w₁ w₁.capacity (w₁.links .postedEvents) w₁
  | next {n i : ℕ} {w w' : Worker} (hhead : Visiting env w₁ (n + 1) (some (.postedNode i)) w)
      (hvisit : visit env w i = .ok w') : Visiting env w₁ n (w.links (.postedNode i)) w'

/-- The loop of `hixo_handle_accept`, called for listener `l` in `w₁`, is at its head in `w`: `n`
times `accept` does not report `EAGAIN`, and `p_app_ctx` has the value `ctx`. -/
inductive Accepting (env : Env) (l : ℕ) (w₁ : Worker) : ℕ → Option AppCtx → Worker → Prop
  | enter : Accepting env l w₁ (env.pending (w₁.record (.handleAccept l))) none
      (w₁.record (.handleAccept l))
  | next {n : ℕ} {ctx ctx' : Option AppCtx} {w w' : Worker}
      (hhead : Accepting env l w₁ (n + 1) ctx w)
      (hbody : acceptBody env env.accept l ctx w = .ok (.cont ctx' w')) :
      Accepting env l w₁ n ctx' w'

/-- The traversal goes on in the same way from each of its heads. -/
theorem Visiting.traverse_eq {env : Env} {w₁ w : Worker} {n : ℕ} {next : Option Cell}
    (h : Visiting env w₁ n next w) :
    Worker.traverse env w₁.capacity (w₁.links .postedEvents) w₁ =
      Worker.traverse env n next w := by
  induction h with
  | enter => rfl
  | next _ hvisit ih =>
    rw [ih, Worker.traverse, hvisit]
    rfl

/-- When nothing is posted, the only head of the traversal is its end. -/
theorem Visiting.next_eq_none {env : Env} {w₁ w : Worker} {n : ℕ} {next : Option Cell}
    (h : Visiting env w₁ n next w) (hposted : w₁.links .postedEvents = none) : next = none := by
  induction h with
  | enter => exact hposted
  | next _ _ ih => cases ih

/-- `hixo_handle_accept` goes on in the same way from each head of its loop. -/
theorem Accepting.hixoHandleAccept_eq {env : Env} {l : ℕ} {w₁ w : Worker} {n : ℕ}
    {ctx : Option AppCtx} (h : Accepting env l w₁ n ctx w) :
    hixoHandleAccept env w₁ l = acceptLoop env l n ctx w := by
  induction h with
  | enter => rfl
  | next _ hbody ih =>
    rw [ih, acceptLoop, hbody]
    rfl

/-! ## The body of the accept loop -/

/-- What the operations on the socket cache leave alone. -/
structure CacheOnly (w w' : Worker) : Prop where
  servers : w'.servers = w.servers
  localPort : w'.localPort = w.localPort
  openFds : w'.openFds = w.openFds
  appCtxList : w'.appCtxList = w.appCtxList
  log : w'.log = w.log
  fd : ∀ i, (w'.sock i).fd = (w.sock i).fd

theorem CacheOnly.refl (w : Worker) : CacheOnly w w :=
  ⟨rfl, rfl, rfl, rfl, rfl, fun _ => rfl⟩

/-- The ownership bits are all that changes in the slots. -/
theorem CacheOnly.of_belong (w : Worker) (links : LinkHeap Cell) (used : ℤ) (i : ℕ) (b : Bool) :
    CacheOnly w ({ w with links, used }.modifySock i fun s => { s with belong := b }) := by
  refine ⟨rfl, rfl, rfl, rfl, rfl, fun j => ?_⟩
  by_cases hj : j = i <;> simp [modifySock, hj]

theorem cacheOnly_allocResource {w w' : Worker} {slot : Option ℕ}
    (h : w.allocResource = .ok (slot, w')) : CacheOnly w w' := by
  unfold allocResource at h
  -- the free list is empty, begins with a slot, or begins with a cell that is no slot
  split at h
  · simp only [Except.ok.injEq, Prod.mk.injEq] at h
    exact h.2 ▸ .refl w
  next i _ =>
    obtain ⟨w₁, hrm, hrest⟩ := Programs.exists_of_bind_eq_ok h
    unfold assertRmNode at hrm
    split at hrm <;> cases hrm
    dsimp only at hrest
    split at hrest <;> cases hrest
    exact .of_belong w _ (w.used + 1) i true
  · cases h

theorem cacheOnly_freeResource {w w' : Worker} {i : ℕ} (h : w.freeResource i = .ok w') :
    CacheOnly w w' := by
  unfold freeResource at h
  split at h
  · exact Except.ok.inj h ▸ .refl w
  · dsimp only at h
    split at h <;> cases h
    exact .of_belong w _ (w.used - 1) i false

/-- A body that returns did so without a free slot, without a connection, or with a connection
in the slot it took. -/
theorem acceptBody_cases {env : Env} {accept : Worker → AcceptResult} {l : ℕ}
    {ctx : Option AppCtx} {w : Worker} {step : AcceptStep}
    (hbody : acceptBody env accept l ctx w = .ok step) :
    (∃ w', CacheOnly w w' ∧ step = .brk w') ∨
    (∃ w₁ rslt, (∀ fd, rslt ≠ .conn fd) ∧ CacheOnly w w₁ ∧
      CacheOnly (w₁.record (.accept l rslt)) step.worker) ∨
    ∃ w₁ fd i app, CacheOnly w w₁ ∧ accept w₁ = .conn fd ∧
      ((w₁.acceptFd l (.conn fd)).findApp fd).or ctx = some app ∧
      (CacheOnly ((epollAddEvent env (incoming w₁ l i fd app) i).2.hixoDestroySocket i)
          step.worker ∨
        step = .cont (some app) (((epollAddEvent env (incoming w₁ l i fd app) i).2.putConnection
          i).runCallback env .connect i app.handleConnect)) := by
  obtain ⟨⟨slot, w₁⟩, halloc, hrest⟩ := Programs.exists_of_bind_eq_ok hbody
  have hcache := cacheOnly_allocResource halloc
  cases slot with
  | none => exact Or.inl ⟨w₁, hcache, (Except.ok.inj hrest).symm⟩
  | some i =>
    right
    -- without a connection the slot is given back
    cases hrslt : accept w₁ with
    | eagain =>
      simp only [hrslt] at hrest
      obtain ⟨w', hfree, hstep⟩ := Programs.exists_of_bind_eq_ok hrest
      cases hstep
      exact Or.inl ⟨w₁, .eagain, by simp, hcache, cacheOnly_freeResource hfree⟩
    | econnaborted =>
      simp only [hrslt] at hrest
      obtain ⟨w', hfree, hstep⟩ := Programs.exists_of_bind_eq_ok hrest
      cases hstep
      exact Or.inl ⟨w₁, .econnaborted, by simp, hcache, cacheOnly_freeResource hfree⟩
    | failed =>
      simp only [hrslt] at hrest
      obtain ⟨w', hfree, hstep⟩ := Programs.exists_of_bind_eq_ok hrest
      cases hstep
      exact Or.inl ⟨w₁, .failed, by simp, hcache, cacheOnly_freeResource hfree⟩
    | conn fd =>
      right
      simp only [hrslt] at hrest
      cases hfind : ((w₁.acceptFd l (.conn fd)).findApp fd).or ctx with
      | none => simp [hfind] at hrest
      | some app =>
        simp only [hfind] at hrest
        refine ⟨w₁, fd, i, app, hcache, hrslt, hfind, ?_⟩
        rw [incoming]
        -- a connection that cannot be registered is destroyed
        split at hrest
        next w₂ hadd =>
          obtain ⟨w', hfree, hstep⟩ := Programs.exists_of_bind_eq_ok hrest
          cases hstep
          rw [hadd]
          exact Or.inl (cacheOnly_freeResource hfree)
        next w₂ hadd =>
          rw [hadd]
          exact Or.inr (Except.ok.inj hrest).symm

/-- The body does not change the ports of open descriptors. -/
theorem localPort_acceptBody {env : Env} {accept : Worker → AcceptResult} {l : ℕ}
    {ctx : Option AppCtx} {w : Worker} {step : AcceptStep}
    (hbody : acceptBody env accept l ctx w = .ok step)
    (hfresh : ∀ w fd, accept w = .conn fd → (fd : ℤ) ∉ w.openFds) {x : ℤ} (hx : x ∈ w.openFds) :
    step.worker.localPort x = w.localPort x := by
  -- the body ends before `accept`, with a failure behind it, or with a connection
  rcases acceptBody_cases hbody with ⟨w', hcache, rfl⟩ | ⟨w₁, rslt, hrslt, hcache, hcache'⟩ |
    ⟨w₁, fd, i, app, hcache, hconn, -, hend⟩
  · exact congrFun hcache.localPort x
  · rw [hcache'.localPort]
    exact congrFun hcache.localPort x
  · -- a new descriptor is not one that is open
    have hne : x ≠ fd := by
      rintro rfl
      exact hfresh w₁ fd hconn (hcache.openFds ▸ hx)
    obtain ⟨rslt, interest, hadd, -⟩ := epollAddEvent_snd env (incoming w₁ l i fd app) i
    have hincoming : (incoming w₁ l i fd app).localPort x = w.localPort x :=
      (if_neg hne).trans (congrFun hcache.localPort x)
    rcases hend with hcache' | rfl
    · rw [hcache'.localPort, hadd]
      exact hincoming
    · rw [hadd]
      exact hincoming

/-! ## The listeners -/

/-- What routing reads of the listeners is the same in `w'` as in `w`. -/
structure KeepsListeners (w w' : Worker) : Prop where
  listeners : w'.listeners = w.listeners
  appCtxList : w'.appCtxList = w.appCtxList
  fd : ∀ l ∈ w.listeners, (w'.sock l).fd = (w.sock l).fd
  localPort : ∀ l ∈ w.listeners, w'.localPort (w.sock l).fd = w.localPort (w.sock l).fd

namespace KeepsListeners

variable {w w' w'' : Worker}

/-- What does nothing keeps the listeners. -/
theorem refl (w : Worker) : KeepsListeners w w := ⟨rfl, rfl, fun _ _ => rfl, fun _ _ => rfl⟩

/-- What keeps the listeners may be followed by what keeps them. -/
theorem trans (h : KeepsListeners w w') (h' : KeepsListeners w' w'') : KeepsListeners w w'' where
  listeners := h'.listeners.trans h.listeners
  appCtxList := h'.appCtxList.trans h.appCtxList
  fd l hl := (h'.fd l (h.listeners ▸ hl)).trans (h.fd l hl)
  localPort l hl := by
    rw [← h.localPort l hl, ← h.fd l hl]
    exact h'.localPort l (h.listeners ▸ hl)

/-- What leaves the servers, the ring of the modules, the ports and the descriptors alone keeps the
listeners. -/
theorem of_eq (hservers : w'.servers = w.servers) (happs : w'.appCtxList = w.appCtxList)
    (hport : w'.localPort = w.localPort) (hfd : ∀ i, (w'.sock i).fd = (w.sock i).fd) :
    KeepsListeners w w' :=
  ⟨congrArg (List.map Server.slot) hservers, happs, fun l _ => hfd l, fun _ _ => by rw [hport]⟩

/-- What only changes the cache keeps the listeners. -/
theorem of_cacheOnly (h : CacheOnly w w') : KeepsListeners w w' :=
  of_eq h.servers h.appCtxList h.localPort h.fd

/-- A callback keeps the listeners. -/
theorem of_runCallback (env : Env) (w : Worker) (kind : CallbackKind) (i : ℕ) (f : Callback) :
    KeepsListeners w (w.runCallback env kind i f) := by
  refine of_eq rfl rfl rfl fun j => ?_
  by_cases hj : j = i <;> simp [runCallback, record, modifySock, hj]

/-- Taking a node off a list keeps the listeners. -/
theorem of_assertRmNode {head node : Cell} (h : w.assertRmNode head node = .ok w') :
    KeepsListeners w w' := by
  unfold assertRmNode at h
  split at h <;> cases h
  exact of_eq rfl rfl rfl fun _ => rfl

/-- `hixo_handle_close` keeps the listeners. -/
theorem of_hixoHandleClose {env : Env} {i : ℕ} (h : hixoHandleClose env w i = .ok w') :
    KeepsListeners w w' := by
  obtain ⟨w₁, hrm, hrest⟩ := Programs.exists_of_bind_eq_ok h
  obtain ⟨w₂, hfree, hend⟩ := Programs.exists_of_bind_eq_ok hrest
  obtain rfl := Except.ok.inj hend
  -- the flags are cleared first, and none of them belongs to a listener
  set w₀ := (w.record (.handleClose i)).modifySock i
    (fun s => { s with readable := false, writable := false }) with hw₀
  have hflags : KeepsListeners w w₀ := by
    refine of_eq rfl rfl rfl fun j => ?_
    by_cases hj : j = i <;> simp [hw₀, record, modifySock, hj]
  have hdel : KeepsListeners w₀ ((epollDelEvent env w₀ i).2.hixoDestroySocket i) := by
    obtain ⟨rslt, interest, hdel, -⟩ := epollDelEvent_snd env w₀ i
    rw [hdel]
    exact of_eq rfl rfl rfl fun _ => rfl
  have hfreed := of_cacheOnly (cacheOnly_freeResource hfree)
  exact ((hflags.trans hdel).trans ((of_assertRmNode hrm).trans hfreed)).trans
    (of_eq rfl rfl rfl fun _ => rfl)

/-- The second test of a visit keeps the listeners. -/
theorem of_visitClose {env : Env} {i : ℕ} (h : visitClose env w i = .ok w') :
    KeepsListeners w w' := by
  unfold visitClose at h
  split at h
  · split at h
    · exact of_hixoHandleClose h
    next f _ => exact (of_runCallback env w .disconnect i f).trans (of_hixoHandleClose h)
  · exact Except.ok.inj h ▸ refl w

/-- The third test of a visit keeps the listeners. -/
theorem of_visitWrite (env : Env) (w : Worker) (i : ℕ) :
    KeepsListeners w (w.visitWrite env i) := by
  unfold visitWrite
  split
  · split
    · exact refl w
    next f _ => exact of_runCallback env w .write i f
  · exact refl w

end KeepsListeners

/-! ## One step of the loops -/

namespace Consistent

variable {power₀ : ℤ} {w w' : Worker} {free conns posted : List ℕ} {i l : ℕ} {env : Env}

/-- A pass of the accept loop keeps the listeners, and leaves the worker consistent. -/
theorem acceptBody_keeps (h : Consistent power₀ w [] free conns posted)
    {accept : Worker → AcceptResult}
    (hfresh : ∀ w fd, accept w = .conn fd → (fd : ℤ) ∉ w.openFds) (hl : l ∈ w.listeners)
    {ctx : Option AppCtx} {step : AcceptStep}
    (hbody : Worker.acceptBody env accept l ctx w = .ok step) :
    KeepsListeners w step.worker ∧ step.worker.capacity = w.capacity ∧
      ∃ free' conns', Consistent power₀ step.worker [] free' conns' posted ∧ conns ⊆ conns' := by
  -- the body has one result, and this is the accepted step of the invariant
  obtain ⟨step', free', conns', tr, hrun, hacc, -⟩ := h.acceptBody env hfresh hl ctx
  obtain rfl := Except.ok.inj (hbody.symm.trans hrun)
  refine ⟨⟨hacc.keeps.listeners, hacc.keeps.appCtxList, fun j hj => ?_, fun j hj => ?_⟩,
    hacc.keeps.capacity, free', conns', hacc.consistent, hacc.subset⟩
  · rw [hacc.keeps.sock j (h.roles.listeners_subset hj)]
  · exact localPort_acceptBody hbody hfresh
      (h.descriptors.fd_mem (h.roles.listeners_subset hj))

/-- The accept loop keeps the listeners. -/
theorem acceptLoop_keeps (h : Consistent power₀ w [] free conns posted) (hfresh : env.FreshFds)
    (hl : l ∈ w.listeners) {n : ℕ} {ctx : Option AppCtx}
    (hrun : Worker.acceptLoop env l n ctx w = .ok w') : KeepsListeners w w' := by
  -- every pass keeps the listeners, and the invariant for the next one
  induction n generalizing w free conns ctx with
  | zero =>
    have heagain (w : Worker) (fd : ℕ) (hconn : (fun _ : Worker => AcceptResult.eagain) w =
        .conn fd) : (fd : ℤ) ∉ w.openFds := by cases hconn
    obtain ⟨step, hbody, hend⟩ := Programs.exists_of_bind_eq_ok hrun
    obtain ⟨hkeeps, -⟩ := h.acceptBody_keeps heagain hl hbody
    cases step <;> cases hend <;> exact hkeeps
  | succ n ih =>
    obtain ⟨step, hbody, hend⟩ := Programs.exists_of_bind_eq_ok hrun
    obtain ⟨hkeeps, -, free', conns', h', -⟩ := h.acceptBody_keeps hfresh hl hbody
    cases step with
    | brk w₁ => exact Except.ok.inj hend ▸ hkeeps
    | cont ctx' w₁ => exact hkeeps.trans (ih h' (hkeeps.listeners ▸ hl) hend)

/-- A socket on `mp_connections` whose read handler accepts is a listener. -/
theorem mem_listeners (h : Consistent power₀ w [] free conns posted) (hi : i ∈ conns)
    (hhandler : (w.sock i).readHandler = some .hixoHandleAccept) : i ∈ w.listeners := by
  by_contra hnot
  obtain ⟨ctx, -, hread, -⟩ := h.roles.connection i hi hnot
  rw [hhandler] at hread
  cases hctx : ctx.handleRead <;> simp [hctx] at hread

/-- The visit of a posted socket keeps the listeners. -/
theorem visit_keeps (h : Consistent power₀ w [] free conns posted) (hfresh : env.FreshFds)
    (hi : i ∈ conns) (hrun : Worker.visit env w i = .ok w') : KeepsListeners w w' := by
  obtain ⟨w₁, hread, hrest⟩ := Programs.exists_of_bind_eq_ok hrun
  obtain ⟨w₂, hclose, hrm⟩ := Programs.exists_of_bind_eq_ok hrest
  -- only the read part of a visit may accept
  have hfirst : KeepsListeners w w₁ := by
    unfold Worker.visitRead at hread
    split at hread
    · split at hread
      · exact Except.ok.inj hread ▸ .refl w
      next hhandler =>
        have hl : i ∈ w.listeners := h.mem_listeners hi hhandler
        have hrecord : KeepsListeners w (w.record (.handleAccept i)) :=
          .of_eq rfl rfl rfl fun _ => rfl
        exact hrecord.trans ((h.record (.handleAccept i) trivial).acceptLoop_keeps hfresh hl hread)
      next f _ => exact Except.ok.inj hread ▸ .of_runCallback env w .read i f
    · exact Except.ok.inj hread ▸ .refl w
  exact ((hfirst.trans (.of_visitClose hclose)).trans (.of_visitWrite env w₂ i)).trans
    (.of_assertRmNode hrm)

/-- `epoll_process_events` keeps the listeners, and posts sockets on `mp_connections` only. -/
theorem epollProcessEvents_keeps (h : Consistent power₀ w [] free conns []) (henv : env.Valid)
    {ok : Bool} (hrun : Worker.epollProcessEvents env w = .ok (ok, w')) :
    ∃ posted, posted ⊆ conns ∧ Consistent power₀ w' [] free conns posted ∧
      w'.capacity = w.capacity ∧ KeepsListeners w w' := by
  rcases h.epollProcessEvents_wait henv.batches with
    ⟨-, w₁, posted, rslt, tr, -, -, hpoll, hport, hpolled⟩ | ⟨-, herror⟩
  · rw [hrun, Except.ok.injEq, Prod.mk.injEq] at hpoll
    obtain ⟨-, rfl⟩ := hpoll
    refine ⟨posted, hpolled.posted_subset, hpolled.consistent, hpolled.capacity,
      hpolled.listeners, hpolled.appCtxList, fun l _ => ?_, fun l _ => by rw [hport]⟩
    -- a listener that has an event gets its flag from the event
    by_cases hl : l ∈ rslt.batch.map EpollEvent.slot
    · obtain ⟨ev, hev, rfl⟩ := List.mem_map.mp hl
      rw [hpolled.flags ev hev, Socket.flag]
    · rw [hpolled.sock l hl]
  · rw [hrun] at herror
    cases herror

/-- The visit of the first posted socket leaves the others posted. -/
theorem visit_next (h : Consistent power₀ w [] free conns (i :: posted)) (hfresh : env.FreshFds)
    (hposted : i :: posted ⊆ conns) (hrun : Worker.visit env w i = .ok w') :
    ∃ free' conns', Consistent power₀ w' [] free' conns' posted ∧ posted ⊆ conns' ∧
      w.links (.postedNode i) = w'.links .postedEvents ∧ w'.capacity = w.capacity ∧
      KeepsListeners w w' := by
  have hi : i ∈ conns := hposted List.mem_cons_self
  obtain ⟨w₁, free', conns', tr, hvisit, h', hsub, hkeeps, -⟩ := h.visit hfresh hi
  obtain rfl := Except.ok.inj (hrun.symm.trans hvisit)
  exact ⟨free', conns', h', List.Subset.trans (h.posted_subset_erase hposted) hsub,
    h.next_eq h', hkeeps.capacity, h.visit_keeps hfresh hi hrun⟩

/-- The traversal keeps the listeners. -/
theorem traverse_keeps (h : Consistent power₀ w [] free conns posted) (hfresh : env.FreshFds)
    (hposted : posted ⊆ conns) {n : ℕ}
    -- the induction is on the events that are still to be visited
    (hrun : Worker.traverse env n (w.links .postedEvents) w = .ok w') : KeepsListeners w w' := by
  induction posted generalizing w free conns n with
  | nil =>
    have hhead : w.links .postedEvents = none := h.lists.postedEvents
    rw [hhead] at hrun
    cases n <;> exact Except.ok.inj hrun ▸ .refl w
  | cons i posted ih =>
    have hhead : w.links .postedEvents = some (.postedNode i) := h.lists.postedEvents.1
    rw [hhead] at hrun
    cases n with
    | zero => cases hrun
    | succ n =>
      -- the visit hands over the next event, and the induction goes on with the rest
      obtain ⟨w₁, hvisit, hrest⟩ := Programs.exists_of_bind_eq_ok hrun
      obtain ⟨free', conns', h', hposted', hnext, -, hkeeps⟩ := h.visit_next hfresh hposted hvisit
      rw [hnext] at hrest
      exact hkeeps.trans (ih h' hposted' hrest)

/-- A pass of `event_loop` keeps the listeners: their slots, their descriptors and the ports these
have. -/
theorem eventLoopBody_keeps (h : Consistent power₀ w [] free conns []) (henv : env.Valid)
    {ok : Bool} (hrun : Worker.eventLoopBody env w = .ok (ok, w')) : KeepsListeners w w' := by
  obtain ⟨⟨ok₁, w₁⟩, hpoll, hrest⟩ := Programs.exists_of_bind_eq_ok hrun
  obtain ⟨posted, hposted, h₁, -, hkeeps⟩ := h.epollProcessEvents_keeps henv hpoll
  cases ok₁ with
  | false =>
    obtain ⟨-, rfl⟩ := Prod.mk.inj (Except.ok.inj hrest)
    exact hkeeps
  | true =>
    obtain ⟨w₂, htraverse, hend⟩ := Programs.exists_of_bind_eq_ok hrest
    obtain ⟨-, rfl⟩ := Prod.mk.inj (Except.ok.inj hend)
    exact hkeeps.trans (h₁.traverse_keeps henv.fresh hposted htraverse)

end Consistent

/-! ## Runs -/

/-- What routing reads of the listeners is the same after every run. -/
theorem Run.keepsListeners {power₀ : ℤ} {w₀ w : Worker} {passes : List Pass} {ok : Bool}
    {free₀ conns₀ : List ℕ} (hrun : Run w₀ passes ok w)
    (h₀ : Consistent power₀ w₀ [] free₀ conns₀ []) : KeepsListeners w₀ w := by
  induction hrun with
  | start => exact .refl w₀
  | step hrun henv hstep ih =>
    obtain ⟨free, conns, h, -⟩ := hrun.consistent h₀
    exact ih.trans (h.eventLoopBody_keeps henv hstep)

/-- The worker is at a head of the traversal, with `next` the node to visit, in some run from
`w₀`. -/
inductive VisitHead (w₀ : Worker) (env : Env) (n : ℕ) (next : Option Cell) (w : Worker) : Prop
  | mk {passes : List Pass} {w₁ w₂ : Worker} (hrun : Run w₀ passes true w₁) (henv : env.Valid)
      (hpoll : epollProcessEvents env w₁ = .ok (true, w₂)) (hhead : Visiting env w₂ n next w)

/-- The worker is at a head of the loop of `hixo_handle_accept`, called for listener `l`, in some
run from `w₀`. -/
inductive AcceptHead (w₀ : Worker) (env : Env) (l n : ℕ) (ctx : Option AppCtx) (w : Worker) : Prop
  | mk {m : ℕ} {w₁ : Worker} (hvisit : VisitHead w₀ env (m + 1) (some (.postedNode l)) w₁)
      (hreadable : (w₁.sock l).readable = true)
      (hhandler : (w₁.sock l).readHandler = some .hixoHandleAccept)
      (hhead : Accepting env l w₁ n ctx w)

section Heads

variable {power₀ : ℤ} {w₀ w : Worker} {free₀ conns₀ : List ℕ} {env : Env} {l n : ℕ}
  {next : Option Cell} {ctx : Option AppCtx}

/-- Between two visits the worker is consistent, and `next` is the first posted socket. -/
theorem VisitHead.consistent (hhead : VisitHead w₀ env n next w)
    (h₀ : Consistent power₀ w₀ [] free₀ conns₀ []) :
    ∃ free conns posted, Consistent power₀ w [] free conns posted ∧ posted ⊆ conns ∧
      next = w.links .postedEvents ∧ w.capacity = w₀.capacity ∧ KeepsListeners w₀ w := by
  obtain ⟨hrun, henv, hpoll, hhead⟩ := hhead
  obtain ⟨free, conns, h, hcapacity, -⟩ := hrun.consistent h₀
  have hkeeps := hrun.keepsListeners h₀
  obtain ⟨posted, hposted, h₂, hcapacity₂, hkeeps₂⟩ := h.epollProcessEvents_keeps henv hpoll
  -- the positions are reached one by one, and each keeps what holds at the start of the pass
  induction hhead with
  | enter =>
    exact ⟨free, conns, posted, h₂, hposted, rfl, hcapacity₂.trans hcapacity,
      hkeeps.trans hkeeps₂⟩
  | next _ hvisit ih =>
    obtain ⟨free, conns, posted, h, hposted, hnext, hcapacity, hkeeps⟩ := ih
    obtain ⟨posted, rfl⟩ := h.lists.posted_eq_cons hnext.symm
    obtain ⟨free', conns', h', hposted', hnext', hcapacity', hkeeps'⟩ :=
      h.visit_next henv.fresh hposted hvisit
    exact ⟨free', conns', posted, h', hposted', hnext', hcapacity'.trans hcapacity,
      hkeeps.trans hkeeps'⟩

/-- At the head of the accept loop the worker is consistent. -/
theorem AcceptHead.consistent (hhead : AcceptHead w₀ env l n ctx w)
    (h₀ : Consistent power₀ w₀ [] free₀ conns₀ []) :
    ∃ free conns posted, Consistent power₀ w [] free conns posted ∧ l ∈ w₀.listeners ∧
      w.capacity = w₀.capacity ∧ KeepsListeners w₀ w := by
  obtain ⟨hvisit, -, hhandler, hhead⟩ := hhead
  obtain ⟨free, conns, posted, h, hposted, hnext, hcapacity, hkeeps⟩ := hvisit.consistent h₀
  have hl : l ∈ w₀.listeners := by
    obtain ⟨rest, rfl⟩ := h.lists.posted_eq_cons hnext.symm
    exact hkeeps.listeners ▸ h.mem_listeners (hposted List.mem_cons_self) hhandler
  have henv : env.Valid := by
    obtain ⟨-, henv, -, -⟩ := hvisit
    exact henv
  -- from one pass of the loop over the listener to the next
  induction hhead with
  | enter =>
    exact ⟨free, conns, posted, h.record _ trivial, hl, hcapacity,
      hkeeps.trans (.of_eq rfl rfl rfl fun _ => rfl)⟩
  | next _ hbody ih =>
    obtain ⟨free, conns, posted, h, -, hcapacity, hkeeps⟩ := ih
    obtain ⟨hkeeps', hcapacity', free', conns', h', -⟩ :=
      h.acceptBody_keeps henv.fresh (hkeeps.listeners ▸ hl) hbody
    exact ⟨free', conns', posted, h', hl, hcapacity'.trans hcapacity, hkeeps.trans hkeeps'⟩

end Heads

end Hixo
