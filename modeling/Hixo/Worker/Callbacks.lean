import Hixo.Foundation.Monitor
import Hixo.Foundation.Programs
import Hixo.Worker.EventLoop

/-!
# Where the callbacks in the log come from

Every callback that a pass of `event_loop` records was called by the worker with the log before it,
and left `m_close` as the environment says. All functions of the loop only append to the log.

* `LogEntry.From`, `Worker.Calls`: the callbacks are those of the environment;
* `Calls.acceptBody`, `Calls.visit`, `Calls.traverse`: one lemma for each function;
* `Calls.eventLoopBody`: a pass.
-/

namespace Hixo

open Worker Monitor Programs

/-- A callback was called with this log, and its effect on `m_close` is that of the environment. -/
def LogEntry.From (env : Env) (before : List LogEntry) : LogEntry → Prop
  | .callback kind i f close =>
    ∃ w : Worker, w.log = before ∧ (env.callback w kind i f).close = close
  | _ => True

/-- From `w` to `w'` the log grows, and the new callbacks are those of the environment. -/
def Worker.Calls (env : Env) (w w' : Worker) : Prop := Grows (LogEntry.From env) w.log w'.log

namespace Worker.Calls

variable {env : Env} {w w' w'' : Worker} {i l : ℕ} {e : LogEntry}

/-- A worker that stays as it is calls nothing. -/
theorem refl (w : Worker) : Calls env w w := Grows.refl

/-- Two parts of a pass whose callbacks are those of the environment make one. -/
theorem trans (h : Calls env w w') (h' : Calls env w' w'') : Calls env w w'' := Grows.trans h h'

/-- What records nothing calls nothing. -/
theorem of_log (h : w'.log = w.log) : Calls env w w' := Grows.of_eq h

/-- An entry that is no callback may be recorded in any environment. -/
theorem record (hlog : w'.log = w.log ++ [e]) (he : ∀ before, e.From env before) :
    Calls env w w' := by
  unfold Calls
  rw [hlog]
  exact .snoc .refl (he _)

/-! ## The operations of the worker -/

/-- Taking a node off a list records nothing. -/
theorem assertRmNode {head node : Cell} (h : w.assertRmNode head node = .ok w') :
    Calls env w w' := by
  unfold Worker.assertRmNode at h
  split at h
  · cases h
  · cases h
  · obtain rfl := Except.ok.inj h
    exact of_log rfl

/-- `alloc_resource` records nothing, whether it finds a slot or not. -/
theorem allocResource {slot : Option ℕ} (h : w.allocResource = .ok (slot, w')) :
    Calls env w w' := by
  unfold Worker.allocResource at h
  split at h
  · obtain ⟨-, rfl⟩ := Prod.mk.inj (Except.ok.inj h)
    exact refl w
  · obtain ⟨w₁, hrm, h⟩ := exists_of_bind_eq_ok h
    dsimp only at h
    split at h
    · cases h
    · obtain ⟨-, rfl⟩ := Prod.mk.inj (Except.ok.inj h)
      exact (assertRmNode hrm).trans (of_log rfl)
  · cases h

/-- `free_resource` records nothing. -/
theorem freeResource (h : w.freeResource i = .ok w') : Calls env w w' := by
  unfold Worker.freeResource at h
  split at h
  · obtain rfl := Except.ok.inj h
    exact refl w
  · dsimp only at h
    split at h
    · cases h
    · obtain rfl := Except.ok.inj h
      exact of_log rfl

/-- `hixo_destroy_socket` records that the descriptor was closed, and calls nothing. -/
theorem hixoDestroySocket (w : Worker) (i : ℕ) : Calls env w (w.hixoDestroySocket i) :=
  record (e := .closeFd (w.sock i).fd) rfl fun _ => trivial

/-- `epoll_add_event` records its call of `epoll_ctl`, whatever the result. -/
theorem epollAddEvent (w : Worker) (i : ℕ) : Calls env w (Worker.epollAddEvent env w i).2 := by
  unfold Worker.epollAddEvent
  cases env.addEvent w i <;> exact record (e := .addEvent i _) rfl fun _ => trivial

/-- `epoll_del_event` records its call of `epoll_ctl`, whatever the result. -/
theorem epollDelEvent (w : Worker) (i : ℕ) : Calls env w (Worker.epollDelEvent env w i).2 := by
  unfold Worker.epollDelEvent
  cases env.delEvent w i <;> exact record (e := .delEvent i _) rfl fun _ => trivial

/-- A callback is called with the log up to it, and leaves `m_close` as the environment says. -/
theorem runCallback (w : Worker) (kind : CallbackKind) (i : ℕ) (f : Callback) :
    Calls env w (Worker.runCallback env w kind i f) :=
  .snoc .refl ⟨w, rfl, rfl⟩

/-! ## Polling -/

/-- The loop that adds the listeners calls no module, also when it is left early. -/
theorem addListeners {ks : List ℕ} (h : Worker.addListeners env ks w = .ok w') :
    Calls env w w' := by
  induction ks generalizing w with
  | nil => exact Except.ok.inj h ▸ refl w
  | cons k ks ih =>
    rw [Worker.addListeners] at h
    split at h
    · exact Except.ok.inj h ▸ refl w
    · next server _ =>
      split at h
      · cases h
      · have hadd : Calls env w _ := epollAddEvent w server.slot
        split at h
        · next hstep => exact (hstep ▸ hadd).trans (ih h)
        · next hstep => exact (hstep ▸ hadd).trans (Except.ok.inj h ▸ of_log rfl)

/-- The loop that deletes the listeners calls no module, also when it is left early. -/
theorem delListeners (ks : List ℕ) (w : Worker) :
    Calls env w (Worker.delListeners env ks w) := by
  induction ks generalizing w with
  | nil => exact refl w
  | cons k ks ih =>
    rw [Worker.delListeners]
    split
    · exact refl w
    · next server _ =>
      split
      · let w₁ := { w with servers := w.servers.modify k fun server =>
          { server with tagged := false } }
        exact (of_log rfl : Calls env w w₁).trans (ih w₁)
      · have hdel : Calls env w _ := epollDelEvent w server.slot
        split <;> rename_i hstep <;> rw [hstep] at hdel
        · exact hdel.trans (ih _)
        · exact hdel

/-- The posting of the events records nothing. -/
theorem postEvents (evs : List EpollEvent) (w : Worker) :
    Calls env w (evs.foldl Worker.postEvent w) := by
  induction evs generalizing w with
  | nil => exact refl w
  | cons ev evs ih =>
    refine Calls.trans (of_log ?_) (ih (w.postEvent ev))
    unfold postEvent
    dsimp only
    split
    · rfl
    · split <;> rfl

/-- The common exit records the unlocking at most. -/
theorem releaseAcceptLock (w : Worker) : Calls env w w.releaseAcceptLock := by
  unfold Worker.releaseAcceptLock
  split
  · exact record (e := .spinlockUnlock) rfl fun _ => trivial
  · exact refl w

/-- `epoll_process_events` calls no module on any of its ways out. -/
theorem epollProcessEvents {ok : Bool} (h : Worker.epollProcessEvents env w = .ok (ok, w')) :
    Calls env w w' := by
  obtain ⟨w₁, hwatch, h⟩ := exists_of_bind_eq_ok h
  have htry : Calls env w (tryAcceptLock env w) := by
    unfold tryAcceptLock
    split
    · exact record (e := .trySpinlock _) rfl fun _ => trivial
    · exact of_log rfl
  have h₁ : Calls env (tryAcceptLock env w) w₁ := by
    unfold watchListeners at hwatch
    split at hwatch
    · exact addListeners hwatch
    · exact Except.ok.inj hwatch ▸ refl _
  have hwait (w₁ : Worker) (rslt : WaitResult) :
      Calls env w₁ (unwatchListeners env (w₁.record (.wait rslt))) := by
    have hrecord : Calls env w₁ (w₁.record (.wait rslt)) :=
      record (e := .wait rslt) rfl fun _ => trivial
    refine hrecord.trans ?_
    unfold unwatchListeners
    split
    · exact delListeners ..
    · exact refl _
  refine (htry.trans h₁).trans ?_
  split at h
  · cases h
  · dsimp only at h
    split at h <;> obtain ⟨-, rfl⟩ := Prod.mk.inj (Except.ok.inj h)
    · exact (hwait w₁ _).trans (releaseAcceptLock _)
    · exact (hwait w₁ _).trans (releaseAcceptLock _)
    · exact (hwait w₁ _).trans ((postEvents _ _).trans (releaseAcceptLock _))

/-! ## Handlers -/

/-- The worker at the end of a pass of the accept loop. -/
def AcceptStep.after : AcceptStep → Worker
  | .brk w => w
  | .cont _ w => w

/-- `accept` records its result, and calls nothing. -/
theorem acceptFd (w : Worker) (l : ℕ) (rslt : AcceptResult) : Calls env w (w.acceptFd l rslt) := by
  unfold Worker.acceptFd
  cases rslt <;> exact record (e := .accept l _) rfl fun _ => trivial

/-- A pass of the accept loop calls the connect handler at most, and this with the log before it. -/
theorem acceptBody {accept : Worker → AcceptResult} {ctx : Option AppCtx} {r : AcceptStep}
    (h : Worker.acceptBody env accept l ctx w = .ok r) : Calls env w (AcceptStep.after r) := by
  obtain ⟨⟨slot, w₁⟩, halloc, h⟩ := exists_of_bind_eq_ok h
  have h₁ : Calls env w w₁ := allocResource halloc
  cases slot with
  | none => exact Except.ok.inj h ▸ h₁
  | some i =>
    dsimp only at h
    have h₂ := h₁.trans (acceptFd w₁ l (accept w₁))
    -- without a connection the slot goes back
    have hback {wrap : Worker → AcceptStep} (hwrap : ∀ w, AcceptStep.after (wrap w) = w)
        {w₂ : Worker} (h₂ : Calls env w w₂)
        (h : (w₂.freeResource i >>= fun w => .ok (wrap w)) = .ok r) :
        Calls env w (AcceptStep.after r) := by
      obtain ⟨w₃, hfree, h⟩ := exists_of_bind_eq_ok h
      rw [← Except.ok.inj h, hwrap]
      exact h₂.trans (freeResource hfree)
    split at h
    · exact hback (fun _ => rfl) h₂ h
    · exact hback (fun _ => rfl) h₂ h
    · exact hback (fun _ => rfl) h₂ h
    · next fd _ =>
      split at h
      · cases h
      · next ctx _ =>
        let w₃ := (w₁.acceptFd l (accept w₁)).hixoCreateSocket i fd .cmnct
          (ctx.handleRead.map .app) ctx.handleWrite ctx.handleDisconnect
        have h₃ : Calls env w w₃ := h₂.trans (of_log rfl)
        have hadd : Calls env w _ := h₃.trans (epollAddEvent w₃ i)
        split at h
        · next hstep =>
          rw [hstep] at hadd
          exact hback (fun _ => rfl) (hadd.trans (hixoDestroySocket _ i)) h
        · next hstep =>
          rw [hstep] at hadd
          rw [← Except.ok.inj h]
          refine hadd.trans (Calls.trans ?_ (runCallback _ .connect i ctx.handleConnect))
          exact record (e := .opened i) rfl fun _ => trivial

/-- The accept loop calls the connect handlers of the connections it opens. -/
theorem acceptLoop {n : ℕ} {ctx : Option AppCtx}
    (h : Worker.acceptLoop env l n ctx w = .ok w') : Calls env w w' := by
  induction n generalizing w ctx with
  | zero =>
    obtain ⟨r, hbody, h⟩ := exists_of_bind_eq_ok h
    have h₁ := acceptBody hbody
    cases r <;> exact Except.ok.inj h ▸ h₁
  | succ n ih =>
    obtain ⟨r, hbody, h⟩ := exists_of_bind_eq_ok h
    have h₁ := acceptBody hbody
    cases r with
    | brk w₁ => exact Except.ok.inj h ▸ h₁
    | cont ctx w₁ => exact h₁.trans (ih h)

/-- `hixo_handle_accept` calls the connect handlers of the connections it opens. -/
theorem hixoHandleAccept (h : Worker.hixoHandleAccept env w l = .ok w') : Calls env w w' := by
  have hrecord : Calls env w (w.record (.handleAccept l)) :=
    record (e := .handleAccept l) rfl fun _ => trivial
  exact hrecord.trans (acceptLoop h)

/-- `hixo_handle_close` calls no module: the disconnect handler was called before it. -/
theorem hixoHandleClose (h : Worker.hixoHandleClose env w i = .ok w') : Calls env w w' := by
  let w₁ := (w.record (.handleClose i)).modifySock i fun s =>
    { s with readable := false, writable := false }
  obtain ⟨w₂, hrm, h⟩ := exists_of_bind_eq_ok h
  obtain ⟨w₃, hfree, h⟩ := exists_of_bind_eq_ok h
  have h₁ : Calls env w w₁ := record (e := .handleClose i) rfl fun _ => trivial
  have h₂ := (h₁.trans (epollDelEvent w₁ i)).trans (hixoDestroySocket _ i)
  exact Except.ok.inj h ▸
    ((h₂.trans (assertRmNode hrm)).trans (freeResource hfree)).trans (of_log rfl)

/-! ## The traversal -/

/-- The first test of a visit calls the read handler of the slot at most, or accepts. -/
theorem visitRead (h : Worker.visitRead env w i = .ok w') : Calls env w w' := by
  unfold Worker.visitRead at h
  split at h
  · split at h
    · exact Except.ok.inj h ▸ refl w
    · exact hixoHandleAccept h
    · exact Except.ok.inj h ▸ runCallback ..
  · exact Except.ok.inj h ▸ refl w

/-- The second test of a visit calls the disconnect handler at most, before it closes. -/
theorem visitClose (h : Worker.visitClose env w i = .ok w') : Calls env w w' := by
  unfold Worker.visitClose at h
  split at h
  · split at h
    · exact hixoHandleClose h
    · exact (runCallback ..).trans (hixoHandleClose h)
  · exact Except.ok.inj h ▸ refl w

/-- The third test of a visit calls the write handler at most. -/
theorem visitWrite (w : Worker) (i : ℕ) : Calls env w (Worker.visitWrite env w i) := by
  unfold Worker.visitWrite
  split
  · split
    · exact refl w
    · exact runCallback ..
  · exact refl w

/-- A visit calls the handlers of the environment in its three tests. -/
theorem visit (h : Worker.visit env w i = .ok w') : Calls env w w' := by
  obtain ⟨w₁, hread, h⟩ := exists_of_bind_eq_ok h
  obtain ⟨w₂, hclose, h⟩ := exists_of_bind_eq_ok h
  exact (visitRead hread).trans ((visitClose hclose).trans
    ((visitWrite w₂ i).trans (assertRmNode h)))

/-- The traversal calls the handlers of the environment at each socket that it visits. -/
theorem traverse {n : ℕ} {next : Option Cell} (h : Worker.traverse env n next w = .ok w') :
    Calls env w w' := by
  induction n generalizing w next with
  | zero =>
    cases next with
    | none => exact Except.ok.inj h ▸ refl w
    | some c => cases h
  | succ n ih =>
    cases next with
    | none => exact Except.ok.inj h ▸ refl w
    | some c =>
      cases c with
      | postedNode i =>
        obtain ⟨w₁, hvisit, h⟩ := exists_of_bind_eq_ok h
        exact (visit hvisit).trans (ih h)
      | _ => cases h

/-- Every callback of a pass of `event_loop` was called with the log before it, and left `m_close`
as the environment says. -/
theorem eventLoopBody {ok : Bool} (h : Worker.eventLoopBody env w = .ok (ok, w')) :
    Calls env w w' := by
  obtain ⟨⟨ok₁, w₁⟩, hpoll, h⟩ := exists_of_bind_eq_ok h
  have h₁ := epollProcessEvents hpoll
  dsimp only at h
  split at h
  · obtain ⟨w₂, htraverse, h⟩ := exists_of_bind_eq_ok h
    obtain ⟨-, rfl⟩ := Prod.mk.inj (Except.ok.inj h)
    exact h₁.trans (traverse htraverse)
  · obtain ⟨-, rfl⟩ := Prod.mk.inj (Except.ok.inj h)
    exact h₁

end Worker.Calls

end Hixo
