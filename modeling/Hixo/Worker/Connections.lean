import Hixo.Worker.Invariant

/-!
# Opening and closing connections

What `hixo_handle_accept` and `hixo_handle_close` do to a consistent worker, and what they
record.

* `AcceptTrace`: the entries of the accept loop of a listener;
* `Consistent.hixoHandleAccept`: it opens connections in free slots and touches nothing else;
* `Consistent.hixoHandleClose`: it closes one connection and frees its slot.
-/

namespace Hixo

open Worker

/-! ## What is recorded -/

/-- What one pass of the accept loop of listener `l` records, with the free list before and after
it. -/
inductive AcceptPass (l : ℕ) : List ℕ → List ℕ → List LogEntry → Prop
  /-- There is no slot left. -/
  | full : AcceptPass l [] [] []
  /-- `accept` gave no connection. -/
  | released {free : List ℕ} {rslt : AcceptResult} (h : ∀ fd, rslt ≠ .conn fd) :
      AcceptPass l free free [.accept l rslt]
  /-- The connection could not be registered. -/
  | refused {free : List ℕ} (fd i : ℕ) (rslt : CtlResult) :
      AcceptPass l free free [.accept l (.conn fd), .addEvent i rslt, .closeFd fd]
  /-- The connection was opened in the first free slot. -/
  | opened {free : List ℕ} (fd i : ℕ) (rslt : CtlResult) (f : Callback) (close : Bool) :
      AcceptPass l (i :: free) free
        [.accept l (.conn fd), .addEvent i rslt, .opened i, .callback .connect i f close]

/-- What the accept loop of listener `l` records. -/
inductive AcceptTrace (l : ℕ) : List ℕ → List ℕ → List LogEntry → Prop
  | nil {free : List ℕ} : AcceptTrace l free free []
  | pass {free free₁ free₂ : List ℕ} {tr tr' : List LogEntry} :
      AcceptPass l free free₁ tr → AcceptTrace l free₁ free₂ tr' →
      AcceptTrace l free free₂ (tr ++ tr')

/-- A callback asked for closing slot `i` at a point where the run loop does not look. -/
def LateClose (i : ℕ) (tr : List LogEntry) : Prop :=
  ∃ f, .callback .connect i f true ∈ tr ∨ .callback .write i f true ∈ tr

theorem LateClose.append_left {i : ℕ} {tr : List LogEntry} (h : LateClose i tr)
    (tr' : List LogEntry) : LateClose i (tr ++ tr') := by
  obtain ⟨f, hf⟩ := h
  exact ⟨f, hf.imp (List.mem_append_left _) (List.mem_append_left _)⟩

theorem LateClose.append_right {i : ℕ} {tr' : List LogEntry} (h : LateClose i tr')
    (tr : List LogEntry) : LateClose i (tr ++ tr') := by
  obtain ⟨f, hf⟩ := h
  exact ⟨f, hf.imp (List.mem_append_right _) (List.mem_append_right _)⟩

/-- The descriptors that `accept` returns are not open. -/
def Env.FreshFds (env : Env) : Prop :=
  ∀ w fd, env.accept w = .conn fd → (fd : ℤ) ∉ w.openFds

section EpollCtl

variable (env : Env) (w : Worker) (i : ℕ)

/-- `epoll_add_event` makes the kernel watch at most one more socket. -/
theorem epollAddEvent_snd : ∃ rslt interest,
    (epollAddEvent env w i).2 = { w.record (.addEvent i rslt) with interest } ∧
      ∀ fd r, interest fd = some r → w.interest fd = some r ∨
        fd = (w.sock i).fd ∧ r.slot = i ∧ r.stale = (w.sock i).stale := by
  unfold epollAddEvent
  cases hr : env.addEvent w i with
  | ok =>
    refine ⟨.ok, _, rfl, fun fd r h => ?_⟩
    by_cases hfd : fd = (w.sock i).fd
    · simp only [record, hfd, if_true, Option.some.injEq] at h
      subst h
      exact Or.inr ⟨hfd, rfl, rfl⟩
    · simp only [record, hfd, if_false] at h
      exact Or.inl h
  | eexist => exact ⟨.eexist, w.interest, rfl, fun _ _ h => Or.inl h⟩
  | enoent => exact ⟨.enoent, w.interest, rfl, fun _ _ h => Or.inl h⟩
  | failed => exact ⟨.failed, w.interest, rfl, fun _ _ h => Or.inl h⟩

/-- `epoll_del_event` makes the kernel watch no more than before. -/
theorem epollDelEvent_snd : ∃ rslt interest,
    (epollDelEvent env w i).2 = { w.record (.delEvent i rslt) with interest } ∧
      ∀ fd r, interest fd = some r → w.interest fd = some r := by
  unfold epollDelEvent
  cases hr : env.delEvent w i with
  | ok =>
    refine ⟨.ok, _, rfl, fun fd r h => ?_⟩
    by_cases hfd : fd = (w.sock i).fd
    · simp [record, hfd] at h
    · simpa [record, hfd] using h
  | eexist => exact ⟨.eexist, w.interest, rfl, fun _ _ h => h⟩
  | enoent => exact ⟨.enoent, w.interest, rfl, fun _ _ h => h⟩
  | failed => exact ⟨.failed, w.interest, rfl, fun _ _ h => h⟩

end EpollCtl

namespace Consistent

variable {power₀ : ℤ} {w : Worker} {held free conns posted : List ℕ} {i l : ℕ}

/-! ## The pieces of `hixo_handle_accept` -/

/-- When `accept` gives no connection, its call is recorded and nothing else happens. -/
theorem acceptFd (h : Consistent power₀ w held free conns posted) {rslt : AcceptResult}
    (hrslt : ∀ fd, rslt ≠ .conn fd) :
    Consistent power₀ (w.acceptFd l rslt) held free conns posted ∧
      Keeps w (w.acceptFd l rslt) conns ∧
      (w.acceptFd l rslt).log = w.log ++ [.accept l rslt] := by
  -- no descriptor comes out, so the call only adds an event to the log
  have hdef : w.acceptFd l rslt = w.record (.accept l rslt) := by
    cases rslt with
    | conn fd => exact absurd rfl (hrslt fd)
    | eagain | econnaborted | failed => rfl
  rw [hdef]
  refine ⟨⟨h.lists.congr rfl rfl rfl fun _ => rfl,
    h.descriptors.congr rfl (fun _ _ => ⟨rfl, rfl⟩) (fun _ _ hr => hr) ?_,
    h.roles.congr rfl rfl rfl (fun _ _ => rfl) (fun _ _ => ⟨rfl, rfl⟩)
      fun _ _ => ⟨rfl, rfl, rfl⟩⟩, ⟨rfl, rfl, rfl, rfl, fun _ _ hr _ => hr, fun _ _ => rfl⟩, rfl⟩
  refine h.descriptors.accounted.append_of_subset (List.Subset.refl _) ?_
  cases rslt with
  | conn fd => exact absurd rfl (hrslt fd)
  | eagain | econnaborted | failed => trivial

/-- The port of a new connection is served by an app module. -/
theorem exists_findApp (h : Consistent power₀ w held free conns posted) (hl : l ∈ w.listeners)
    (fd : ℕ) : ∃ ctx ∈ w.appCtxList, (w.acceptFd l (.conn fd)).findApp fd = some ctx := by
  obtain ⟨ctx, hctx, server, hserver, hport⟩ := (h.roles.listener l hl).served
  have hfind : ((w.acceptFd l (.conn fd)).findApp fd).isSome := by
    refine List.find?_isSome.mpr ⟨ctx, hctx, List.any_eq_true.mpr ⟨server, hserver, ?_⟩⟩
    simpa [Worker.acceptFd, record] using hport
  obtain ⟨ctx', hctx'⟩ := Option.isSome_iff_exists.mp hfind
  exact ⟨ctx', List.mem_of_find?_eq_some hctx', hctx'⟩

/-- The worker after `accept` and `hixo_create_socket` for slot `i`. -/
def incoming (w : Worker) (l i fd : ℕ) (ctx : AppCtx) : Worker :=
  (w.acceptFd l (.conn fd)).hixoCreateSocket i fd .cmnct (ctx.handleRead.map .app)
    ctx.handleWrite ctx.handleDisconnect

section Incoming

variable {fd : ℕ} {ctx : AppCtx}

theorem incoming_sock_of_ne {j : ℕ} (hj : j ≠ i) : (incoming w l i fd ctx).sock j = w.sock j :=
  Function.update_of_ne hj _ _

theorem incoming_fd : ((incoming w l i fd ctx).sock i).fd = fd := by
  simp [incoming, Worker.acceptFd, hixoCreateSocket, modifySock, record]

theorem incoming_belong (j : ℕ) :
    ((incoming w l i fd ctx).sock j).belong = (w.sock j).belong := by
  by_cases hji : j = i <;>
    simp [incoming, Worker.acceptFd, hixoCreateSocket, modifySock, record, hji]

/-- The slot of a new connection is not one of the connections. -/
theorem notMem_conns (h : Consistent power₀ w (i :: held) free conns posted) : i ∉ conns := by
  have hnodup := (List.nodup_cons.mp h.lists.nodup).1
  intro hmem
  simp [hmem] at hnodup

/-- A connection that comes in does not touch the sockets of the others. -/
theorem incoming_sock_of_mem (h : Consistent power₀ w (i :: held) free conns posted) {j : ℕ}
    (hj : j ∈ conns) : (incoming w l i fd ctx).sock j = w.sock j :=
  incoming_sock_of_ne fun heq => h.notMem_conns (heq ▸ hj)

/-- The descriptor of a new connection is none that is open. -/
theorem incoming_localPort (h : Consistent power₀ w (i :: held) free conns posted)
    (hfresh : (fd : ℤ) ∉ w.openFds) {j : ℕ} (hj : j ∈ conns) :
    (incoming w l i fd ctx).localPort (w.sock j).fd = w.localPort (w.sock j).fd := by
  refine if_neg fun heq => hfresh ?_
  rw [← heq]
  exact h.descriptors.fd_mem hj

/-- The connection could not be registered: its descriptor is closed. -/
theorem refuse (h : Consistent power₀ w (i :: held) free conns posted) (env : Env) (l : ℕ)
    (ctx : AppCtx) (hfresh : (fd : ℤ) ∉ w.openFds) :
    ∃ rslt : CtlResult, Consistent power₀
        ((epollAddEvent env (incoming w l i fd ctx) i).2.hixoDestroySocket i)
        (i :: held) free conns posted ∧
      Keeps w ((epollAddEvent env (incoming w l i fd ctx) i).2.hixoDestroySocket i) conns ∧
      ((epollAddEvent env (incoming w l i fd ctx) i).2.hixoDestroySocket i).log =
        w.log ++ [.accept l (.conn fd), .addEvent i rslt, .closeFd fd] := by
  obtain ⟨rslt, interest, hadd, hinterest⟩ := epollAddEvent_snd env (incoming w l i fd ctx) i
  have hsock {j : ℕ} (hj : j ∈ conns) : (incoming w l i fd ctx).sock j = w.sock j :=
    h.incoming_sock_of_mem hj
  have hlog : w.log ++ [.accept l (.conn fd)] ++ [.addEvent i rslt] ++ [.closeFd fd] =
      w.log ++ [.accept l (.conn fd), .addEvent i rslt, .closeFd fd] := by
    simp only [List.append_assoc, List.cons_append, List.nil_append]
  have hport {j : ℕ} (hj : j ∈ conns) :
      (incoming w l i fd ctx).localPort (w.sock j).fd = w.localPort (w.sock j).fd :=
    h.incoming_localPort hfresh hj
  -- closing the descriptor takes back the only registration that may be new
  have hwatch {x : ℤ} {r : Registration} (hr : (if x = fd then none else interest x) = some r) :
      w.interest x = some r := by
    by_cases hx : x = fd
    · rw [if_pos hx] at hr
      cases hr
    · rw [if_neg hx] at hr
      rcases hinterest x r hr with hold | ⟨hfd, -⟩
      · exact hold
      · exact absurd (hfd.trans incoming_fd) hx
  refine ⟨rslt, ?_, ?_, ?_⟩ <;> rw [hadd] <;>
    simp only [hixoDestroySocket, closeFd, record, incoming_fd]
  · refine ⟨h.lists.congr rfl rfl rfl incoming_belong,
      h.descriptors.congr (List.erase_cons_head ..) (fun j hj => ?_) (fun _ _ hr => hwatch hr) ?_,
      h.roles.congr rfl rfl rfl
        (fun j hj => hport (h.roles.listeners_subset hj))
        (fun j hj => ?_) fun j hj => ?_⟩
    · simp [hsock hj]
    · refine hlog.symm ▸ h.descriptors.accounted.append_of_subset ?_ ?_
      · exact (List.erase_cons_head (a := (fd : ℤ)) (l := w.openFds)).symm ▸ List.Subset.refl _
      · exact ⟨Or.inl (by simp), trivial⟩
    · simp [hsock (h.roles.listeners_subset hj)]
    · simp [hsock hj]
  · exact ⟨rfl, rfl, rfl, rfl, fun _ _ hr _ => hwatch hr, fun j hj => hsock hj⟩
  · exact hlog

/-- The connection was registered: slot `i` is put on `mp_connections`, and the app module is
told. -/
theorem connect (h : Consistent power₀ w (i :: held) free conns posted) (env : Env) (l : ℕ)
    (hctx : ctx ∈ w.appCtxList) (hfresh : (fd : ℤ) ∉ w.openFds) {w' : Worker}
    (hw' : ((epollAddEvent env (incoming w l i fd ctx) i).2.putConnection i).runCallback env
      .connect i ctx.handleConnect = w') :
    ∃ (rslt : CtlResult) (close : Bool),
      Consistent power₀ w' held free (i :: conns) posted ∧ Keeps w w' conns ∧
      w'.log = w.log ++ [.accept l (.conn fd), .addEvent i rslt, .opened i,
        .callback .connect i ctx.handleConnect close] ∧
      (w'.sock i).close = close := by
  obtain ⟨rslt, interest, hadd, hinterest⟩ := epollAddEvent_snd env (incoming w l i fd ctx) i
  have hi : i ∉ conns := h.notMem_conns
  have hne {j : ℕ} (hj : j ∈ conns) : j ≠ i := by
    rintro rfl
    exact hi hj
  have hsock {j : ℕ} (hj : j ∈ conns) : (incoming w l i fd ctx).sock j = w.sock j :=
    h.incoming_sock_of_mem hj
  have hport {j : ℕ} (hj : j ∈ conns) :
      (incoming w l i fd ctx).localPort (w.sock j).fd = w.localPort (w.sock j).fd :=
    h.incoming_localPort hfresh hj
  -- the worker before the callback
  set w₁ : Worker := (epollAddEvent env (incoming w l i fd ctx) i).2.putConnection i with hw₁
  have hlists : Lists w₁ held free (i :: conns) posted :=
    (h.lists.connect).congr (by rw [hw₁, hadd]; rfl) (by rw [hw₁, hadd]; rfl)
      (by rw [hw₁, hadd]; rfl) fun j => by rw [hw₁, hadd]; exact incoming_belong j
  have hlog : w₁.log = w.log ++ [.accept l (.conn fd), .addEvent i rslt, .opened i] := by
    rw [hw₁, hadd]
    simp [putConnection, incoming, Worker.acceptFd, hixoCreateSocket, modifySock, record, addNode]
  have hsock₁ : w₁.sock = (incoming w l i fd ctx).sock := by rw [hw₁, hadd]; rfl
  have hfds : w₁.openFds = (fd : ℤ) :: w.openFds := by rw [hw₁, hadd]; rfl
  have hdescriptors : Descriptors w₁ (i :: conns) := by
    refine h.descriptors.open_ (Int.natCast_nonneg fd) hfresh hfds
      (fun j hj => by rw [hsock₁, hsock hj]) (by rw [hsock₁, incoming_fd])
      (fun x r hr => ?_) ?_
    · have hr' : interest x = some r := by rw [← hr, hw₁, hadd]; rfl
      rcases hinterest x r hr' with hold | ⟨hx, hslot, hstale⟩
      · exact Or.inl hold
      · exact Or.inr ⟨hx.trans incoming_fd, hslot, by rw [hsock₁, hstale]⟩
    · rw [hlog, hfds]
      refine h.descriptors.accounted.append_of_subset (fun x hx => List.mem_cons_of_mem _ hx) ?_
      exact ⟨Or.inr List.mem_cons_self, trivial⟩
  have hservers : w₁.servers = w.servers := by rw [hw₁, hadd]; rfl
  have happs : w₁.appCtxList = w.appCtxList := by rw [hw₁, hadd]; rfl
  have hroles : Roles power₀ w₁ (i :: conns) := by
    refine h.roles.open_ hi hservers happs (by rw [hw₁, hadd]; rfl)
      (fun j hj => by rw [hw₁, hadd]; exact hport hj) (fun j hj => by rw [hsock₁, hsock hj])
      ⟨ctx, happs ▸ hctx, ?_⟩
    rw [hsock₁]
    simp [incoming, Worker.acceptFd, hixoCreateSocket, modifySock, record]
  have hcapacity : w₁.capacity = w.capacity := by rw [hw₁, hadd]; rfl
  have hlistener : i ∉ w₁.listeners := fun hmem =>
    hi (h.roles.listeners_subset (by
      have hsame : w₁.listeners = w.listeners := congrArg (List.map Server.slot) hservers
      rwa [hsame] at hmem))
  have hwatch (x : ℤ) (r : Registration) (hr : w₁.interest x = some r)
      (hslot : r.slot ∈ w.listeners) : w.interest x = some r := by
    have hr' : interest x = some r := by rw [← hr, hw₁, hadd]; rfl
    rcases hinterest x r hr' with hold | ⟨-, rfl, -⟩
    · exact hold
    · exact absurd (h.roles.listeners_subset hslot) hi
  have hcons : Consistent power₀ w₁ held free (i :: conns) posted :=
    ⟨hlists, hdescriptors, hroles⟩
  have hkeeps : Keeps w w₁ conns :=
    ⟨hcapacity, hservers, happs, by rw [hw₁, hadd]; rfl, hwatch,
      fun j hj => by rw [hsock₁, hsock hj]⟩
  subst hw'
  refine ⟨rslt, (env.callback w₁ .connect i ctx.handleConnect).close,
    hcons.runCallback env .connect ctx.handleConnect hlistener,
    hkeeps.trans (keeps_runCallback env w₁ .connect ctx.handleConnect hi)
      (List.Subset.refl _), ?_, ?_⟩
  · simp [Worker.runCallback, record, modifySock, hlog]
  · simp [Worker.runCallback, record, modifySock]

end Incoming

/-! ## `hixo_handle_accept` -/

end Consistent

/-- The worker at the end of a pass. -/
def Worker.AcceptStep.worker : AcceptStep → Worker
  | .brk w => w
  | .cont _ w => w

/-- What handling a listener means for a consistent worker: new connections in free slots, and
nothing else on `mp_connections` is touched. -/
structure Accepted (power₀ : ℤ) (w w' : Worker) (free' conns conns' posted : List ℕ)
    (tr : List LogEntry) : Prop where
  consistent : Consistent power₀ w' [] free' conns' posted
  subset : conns ⊆ conns'
  keeps : Keeps w w' conns
  log : w'.log = w.log ++ tr
  /-- A new connection that is to be closed was asked for that by its first callback. -/
  close : ∀ i ∈ conns', i ∉ conns → (w'.sock i).close = true → LateClose i tr

theorem Accepted.trans {power₀ : ℤ} {w w₁ w₂ : Worker}
    {free₁ free₂ conns conns₁ conns₂ posted : List ℕ} {tr₁ tr₂ : List LogEntry}
    (h₁ : Accepted power₀ w w₁ free₁ conns conns₁ posted tr₁)
    (h₂ : Accepted power₀ w₁ w₂ free₂ conns₁ conns₂ posted tr₂) :
    Accepted power₀ w w₂ free₂ conns conns₂ posted (tr₁ ++ tr₂) where
  consistent := h₂.consistent
  subset := List.Subset.trans h₁.subset h₂.subset
  keeps := h₁.keeps.trans h₂.keeps h₁.subset
  log := by rw [h₂.log, h₁.log, List.append_assoc]
  close i hi hnot hclose := by
    by_cases hi₁ : i ∈ conns₁
    · rw [h₂.keeps.sock i hi₁] at hclose
      exact (h₁.close i hi₁ hnot hclose).append_left tr₂
    · exact (h₂.close i hi hi₁ hclose).append_right tr₁

namespace Consistent

variable {power₀ : ℤ} {w : Worker} {free conns posted : List ℕ} {i l : ℕ}

/-- A pass of the accept loop returns, and opens a connection at most. -/
theorem acceptBody (h : Consistent power₀ w [] free conns posted) (env : Env)
    {accept : Worker → AcceptResult}
    (hfresh : ∀ w fd, accept w = .conn fd → (fd : ℤ) ∉ w.openFds) (hl : l ∈ w.listeners)
    (ctx : Option AppCtx) :
    ∃ step free' conns' tr, Worker.acceptBody env accept l ctx w = .ok step ∧
      Accepted power₀ w step.worker free' conns conns' posted tr ∧ AcceptPass l free free' tr := by
  cases free with
  | nil =>
    refine ⟨.brk w, [], conns, [], ?_, ⟨h, List.Subset.refl _, .refl _ _,
      by simp [AcceptStep.worker], fun i hi hnot => absurd hi hnot⟩, .full⟩
    simp [Worker.acceptBody, h.lists.allocResource_nil, bind, Except.bind]
  | cons i free =>
    obtain ⟨w₁, halloc, h₁, hkeeps₁, hlog₁⟩ := h.allocResource
    have hl₁ : l ∈ w₁.listeners := hkeeps₁.listeners ▸ hl
    -- `accept` gave no connection, and the slot goes back
    have hreleased (rslt : AcceptResult) (hrslt : ∀ fd, rslt ≠ .conn fd) :
        ∃ w', (w₁.acceptFd l rslt).freeResource i = .ok w' ∧
          Accepted power₀ w w' (i :: free) conns conns posted [.accept l rslt] := by
      obtain ⟨h₂, hkeeps₂, hlog₂⟩ := h₁.acceptFd (l := l) hrslt
      obtain ⟨w', hfree, h₃, hkeeps₃, hlog₃, -⟩ := h₂.freeResource
      refine ⟨w', hfree, h₃, List.Subset.refl _,
        (hkeeps₁.trans hkeeps₂ (List.Subset.refl _)).trans hkeeps₃ (List.Subset.refl _), ?_,
        fun j hj hnot => absurd hj hnot⟩
      rw [hlog₃, hlog₂, hlog₁]
    cases hrslt : accept w₁ with
    | eagain =>
      obtain ⟨w', hfree, hacc⟩ := hreleased .eagain (by simp)
      exact ⟨.brk w', i :: free, conns, _,
        by simp [Worker.acceptBody, halloc, hrslt, hfree, bind, Except.bind], hacc,
        .released (by simp)⟩
    | failed =>
      obtain ⟨w', hfree, hacc⟩ := hreleased .failed (by simp)
      exact ⟨.brk w', i :: free, conns, _,
        by simp [Worker.acceptBody, halloc, hrslt, hfree, bind, Except.bind], hacc,
        .released (by simp)⟩
    | econnaborted =>
      obtain ⟨w', hfree, hacc⟩ := hreleased .econnaborted (by simp)
      exact ⟨.cont ctx w', i :: free, conns, _,
        by simp [Worker.acceptBody, halloc, hrslt, hfree, bind, Except.bind], hacc,
        .released (by simp)⟩
    | conn fd =>
      have hfd := hfresh w₁ fd hrslt
      obtain ⟨ctx', hctx', hfind⟩ := h₁.exists_findApp hl₁ fd
      cases hadd : epollAddEvent env (incoming w₁ l i fd ctx') i with
      | mk ok w₂ =>
        cases ok with
        | false =>
          obtain ⟨rslt, h₂, hkeeps₂, hlog₂⟩ := h₁.refuse env l ctx' hfd
          rw [hadd] at h₂ hkeeps₂ hlog₂
          obtain ⟨w', hfree, h₃, hkeeps₃, hlog₃, -⟩ := h₂.freeResource
          refine ⟨.cont (some ctx') w', i :: free, conns, _, ?_,
            ⟨h₃, List.Subset.refl _, (hkeeps₁.trans hkeeps₂ (List.Subset.refl _)).trans hkeeps₃
              (List.Subset.refl _), ?_, fun j hj hnot => absurd hj hnot⟩, .refused fd i rslt⟩
          · simp only [incoming] at hadd
            simp [Worker.acceptBody, halloc, hrslt, hfind, hadd, hfree, bind, Except.bind]
          · rw [AcceptStep.worker, hlog₃, hlog₂, hlog₁]
        | true =>
          have hopened : ((epollAddEvent env (incoming w₁ l i fd ctx') i).2.putConnection
              i).runCallback env .connect i ctx'.handleConnect =
              (w₂.putConnection i).runCallback env .connect i ctx'.handleConnect := by
            rw [hadd]
          obtain ⟨rslt, close, h₂, hkeeps₂, hlog₂, hclose⟩ :=
            h₁.connect env l hctx' hfd hopened
          refine ⟨.cont (some ctx') _, free, i :: conns, _, ?_,
            ⟨h₂, fun j hj => List.mem_cons_of_mem _ hj,
              hkeeps₁.trans hkeeps₂ (List.Subset.refl _), hlog₁ ▸ hlog₂, fun j hj hnot hcl => ?_⟩,
            .opened fd i rslt ctx'.handleConnect close⟩
          · simp only [incoming] at hadd
            simp only [Worker.acceptBody, halloc, hrslt, hfind, hadd, bind, Except.bind,
              Option.some_or]
            rfl
          · obtain rfl : j = i := (List.mem_cons.mp hj).resolve_right hnot
            have htrue : close = true := hclose.symm.trans hcl
            exact ⟨ctx'.handleConnect, Or.inl (by simp [htrue])⟩

/-- The accept loop returns, and opens connections in slots that were free. -/
theorem acceptLoop (h : Consistent power₀ w [] free conns posted) {env : Env}
    (hfresh : env.FreshFds) (hl : l ∈ w.listeners) (n : ℕ) (ctx : Option AppCtx) :
    ∃ w' free' conns' tr, Worker.acceptLoop env l n ctx w = .ok w' ∧
      Accepted power₀ w w' free' conns conns' posted tr ∧ AcceptTrace l free free' tr := by
  -- one pass of the loop and then the rest, from the lists that the pass left
  induction n generalizing w free conns ctx with
  | zero =>
    have heagain (w : Worker) (fd : ℕ) (hconn : (fun _ : Worker => AcceptResult.eagain) w =
        .conn fd) : (fd : ℤ) ∉ w.openFds := by cases hconn
    obtain ⟨step, free', conns', tr, hbody, hacc, hpass⟩ := h.acceptBody env heagain hl ctx
    have htrace : AcceptTrace l free free' tr := by simpa using AcceptTrace.pass hpass .nil
    refine ⟨step.worker, free', conns', tr, ?_, hacc, htrace⟩
    cases step <;> simp [Worker.acceptLoop, hbody, AcceptStep.worker, bind, Except.bind]
  | succ n ih =>
    obtain ⟨step, free₁, conns₁, tr, hbody, hacc, hpass⟩ := h.acceptBody env hfresh hl ctx
    cases step with
    | brk w' =>
      refine ⟨w', free₁, conns₁, tr, ?_, hacc, by simpa using AcceptTrace.pass hpass .nil⟩
      simp [Worker.acceptLoop, hbody, bind, Except.bind]
    | cont ctx' w₁ =>
      obtain ⟨w', free', conns', tr', hloop, hacc', htrace⟩ :=
        ih hacc.consistent (hacc.keeps.listeners ▸ hl) ctx'
      refine ⟨w', free', conns', tr ++ tr', ?_, hacc.trans hacc', .pass hpass htrace⟩
      simpa only [Worker.acceptLoop, hbody, bind, Except.bind, AcceptStep.worker] using hloop

/-- An entry that is not a connection from `accept` may be recorded. -/
theorem record (h : Consistent power₀ w [] free conns posted) (e : LogEntry)
    (he : Accounted w.openFds [e]) : Consistent power₀ (w.record e) [] free conns posted :=
  ⟨h.lists.congr rfl rfl rfl fun _ => rfl,
    h.descriptors.congr rfl (fun _ _ => ⟨rfl, rfl⟩) (fun _ _ hr => hr)
      (h.descriptors.accounted.append_of_subset (List.Subset.refl _) he),
    h.roles.congr rfl rfl rfl (fun _ _ => rfl) (fun _ _ => ⟨rfl, rfl⟩)
      fun _ _ => ⟨rfl, rfl, rfl⟩⟩

/-- `hixo_handle_accept` returns, and opens connections in slots that were free. -/
theorem hixoHandleAccept (h : Consistent power₀ w [] free conns posted) {env : Env}
    (hfresh : env.FreshFds) (hl : l ∈ w.listeners) :
    ∃ w' free' conns' tr, Worker.hixoHandleAccept env w l = .ok w' ∧
      Accepted power₀ w w' free' conns conns' posted (.handleAccept l :: tr) ∧
      AcceptTrace l free free' tr := by
  obtain ⟨w', free', conns', tr, hloop, hacc, htrace⟩ :=
    (h.record (.handleAccept l) trivial).acceptLoop hfresh hl
      (env.pending (w.record (.handleAccept l))) none
  refine ⟨w', free', conns', tr, hloop, ⟨hacc.consistent, hacc.subset, ?_, ?_, ?_⟩, htrace⟩
  · exact ⟨hacc.keeps.capacity, hacc.keeps.servers, hacc.keeps.appCtxList, hacc.keeps.holdLock,
      hacc.keeps.interest, hacc.keeps.sock⟩
  · simpa [Worker.record] using hacc.log
  · exact fun i hi hnot hclose =>
      (hacc.close i hi hnot hclose).append_right [LogEntry.handleAccept l]

/-! ## `hixo_handle_close` -/

/-- `hixo_handle_close` returns: the connection is off `mp_connections`, its descriptor is
closed, and its slot is the first of the free list. -/
theorem hixoHandleClose (h : Consistent power₀ w [] free conns posted) (env : Env)
    (hi : i ∈ conns) (hnot : i ∉ w.listeners) :
    ∃ (w' : Worker) (rslt : CtlResult) (fd : ℤ), Worker.hixoHandleClose env w i = .ok w' ∧
      Consistent power₀ w' [] (i :: free) (conns.erase i) posted ∧
      Keeps w w' (conns.erase i) ∧
      w'.log = w.log ++ [.handleClose i, .delEvent i rslt, .closeFd fd] ∧
      (w'.sock i).writable = false := by
  have hnodup := h.lists.nodup_conns
  -- the worker when its slot is about to leave `mp_connections`
  set w₁ := (w.record (.handleClose i)).modifySock i
    (fun s => { s with readable := false, writable := false }) with hw₁
  obtain ⟨rslt, interest, hdel, hinterest⟩ := epollDelEvent_snd env w₁ i
  set w₂ := ({ w₁.record (.delEvent i rslt) with interest } : Worker).hixoDestroySocket i with hw₂
  have hsock : ∀ j, j ≠ i → w₂.sock j = w.sock j := fun j hj => Function.update_of_ne hj _ _
  have hsocki : w₂.sock i = { w.sock i with readable := false, writable := false } := by
    simp [hw₂, hw₁, hixoDestroySocket, closeFd, Worker.record, modifySock]
  have hlog : w₂.log = w.log ++ [.handleClose i, .delEvent i rslt, .closeFd (w.sock i).fd] := by
    simp [hw₂, hw₁, hixoDestroySocket, closeFd, Worker.record, modifySock]
  have hfds : w₂.openFds = w.openFds.erase (w.sock i).fd := by
    simp [hw₂, hw₁, hixoDestroySocket, closeFd, Worker.record, modifySock]
  have hlists : Lists w₂ [] free conns posted := by
    refine h.lists.congr rfl rfl rfl fun j => ?_
    by_cases hji : j = i
    · rw [hji, hsocki]
    · rw [hsock j hji]
  have hwatch (x : ℤ) (r : Registration) (hr : w₂.interest x = some r) :
      w.interest x = some r ∧ x ≠ (w.sock i).fd := by
    have hfd : (w₁.sock i).fd = (w.sock i).fd := by simp [hw₁, Worker.record, modifySock]
    by_cases hx : x = (w.sock i).fd
    · simp [hw₂, hixoDestroySocket, closeFd, Worker.record, hfd, hx] at hr
    · simp only [hw₂, hixoDestroySocket, closeFd, Worker.record, hfd, hx, if_false] at hr
      exact ⟨hinterest x r hr, hx⟩
  have hdescriptors : Descriptors w₂ (conns.erase i) := by
    refine h.descriptors.close hi hfds (fun j _ hj => hsock j hj) hwatch ?_
    · rw [hlog, hfds]
      refine h.descriptors.accounted.append (fun x hx => ?_) trivial
      by_cases hfd : x = (w.sock i).fd
      · exact Or.inl (by simp [hfd])
      · exact Or.inr ((List.mem_erase_of_ne hfd).mpr hx)
  have hroles : Roles (power₀ - 1) w₂ (conns.erase i) :=
    h.roles.close hnodup hi hnot rfl rfl rfl rfl fun j _ hj => hsock j hj
  -- its slot leaves `mp_connections` and goes to the free list
  obtain ⟨links, hrm, hlists'⟩ := hlists.disconnect hi
  have hcons : Consistent (power₀ - 1) { w₂ with links } [i] free (conns.erase i) posted :=
    ⟨hlists', hdescriptors.congr rfl (fun _ _ => ⟨rfl, rfl⟩) (fun _ _ hr => hr)
      hdescriptors.accounted,
      hroles.congr rfl rfl rfl (fun _ _ => rfl) (fun _ _ => ⟨rfl, rfl⟩)
        fun _ _ => ⟨rfl, rfl, rfl⟩⟩
  obtain ⟨w₃, hfree, h₃, hkeeps, hlog₃, hwritable⟩ := hcons.freeResource
  refine ⟨{ w₃ with power := w₃.power + 1 }, rslt, (w.sock i).fd, ?_, ?_, ?_, ?_, ?_⟩
  · simp only [Worker.hixoHandleClose, ← hw₁, hdel, ← hw₂, hrm, hfree, bind, Except.bind]
  · exact ⟨h₃.lists.congr rfl rfl rfl fun _ => rfl,
      h₃.descriptors.congr rfl (fun _ _ => ⟨rfl, rfl⟩) (fun _ _ hr => hr)
        h₃.descriptors.accounted, h₃.roles.gainPower⟩
  · refine ⟨hkeeps.capacity, hkeeps.servers, hkeeps.appCtxList, hkeeps.holdLock,
      fun x r hr hslot => ?_, fun j hj => ?_⟩
    · exact (hwatch x r (hkeeps.interest x r hr hslot)).1
    · exact (hkeeps.sock j hj).trans (hsock j (hnodup.mem_erase_iff.mp hj).1)
  · exact hlog₃.trans hlog
  · rw [hwritable]
    exact congrArg Socket.writable hsocki

end Consistent

end Hixo
