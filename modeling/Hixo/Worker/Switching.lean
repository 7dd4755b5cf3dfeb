import Hixo.Worker.Callbacks
import Hixo.Worker.Runs
import Mathlib.Order.Interval.Set.Defs

/-!
# Environments that change

An environment gives the results of system calls and callbacks as functions of the worker, and the
log of the worker grows with each of them. So one environment can do up to some length of the log
what one environment does, and what another one does from there on.

* `Env.AgreesOn`: two environments agree while the length of the log is in a set;
* `Env.switch`, `Env.Mixes`: another environment from some length on;
* `AgreesOn.visit`, `AgreesOn.traverse`: the traversal with two environments that agree.
-/

namespace Hixo

open Worker Programs

/-- Two environments give the same results as long as the length of the log is in `T`. -/
structure Env.AgreesOn (T : Set ℕ) (env env' : Env) : Prop where
  trySpinlock : ∀ w : Worker, w.log.length ∈ T → env.trySpinlock w = env'.trySpinlock w
  addEvent : ∀ w : Worker, w.log.length ∈ T → env.addEvent w = env'.addEvent w
  delEvent : ∀ w : Worker, w.log.length ∈ T → env.delEvent w = env'.delEvent w
  wait : ∀ w : Worker, w.log.length ∈ T → env.wait w = env'.wait w
  pending : ∀ w : Worker, w.log.length ∈ T → env.pending w = env'.pending w
  accept : ∀ w : Worker, w.log.length ∈ T → env.accept w = env'.accept w
  callback : ∀ w : Worker, w.log.length ∈ T → env.callback w = env'.callback w

/-- `env` up to the length `n` of the log, and `env'` from there on. -/
def Env.switch (n : ℕ) (env env' : Env) : Env where
  trySpinlock w := if w.log.length < n then env.trySpinlock w else env'.trySpinlock w
  addEvent w := if w.log.length < n then env.addEvent w else env'.addEvent w
  delEvent w := if w.log.length < n then env.delEvent w else env'.delEvent w
  wait w := if w.log.length < n then env.wait w else env'.wait w
  pending w := if w.log.length < n then env.pending w else env'.pending w
  accept w := if w.log.length < n then env.accept w else env'.accept w
  callback w := if w.log.length < n then env.callback w else env'.callback w

/-- The accept lock is free or taken, whoever asks. -/
def Env.withLock (held : Bool) (env : Env) : Env := { env with trySpinlock := fun _ => held }

/-- A kind of environments that can be put together. -/
structure Env.Mixes (kind : Env → Prop) : Prop where
  switch : ∀ {n env env'}, kind env → kind env' → kind (env.switch n env')
  withLock : ∀ {held env}, kind env → kind (env.withLock held)

namespace Env.AgreesOn

variable {T T' : Set ℕ} {env env' env'' : Env} {n : ℕ}

/-- Every environment agrees with itself. -/
theorem refl (T : Set ℕ) (env : Env) : AgreesOn T env env := by
  constructor <;> exact fun _ _ => rfl

/-- What agrees with an environment agrees with all that agree with it. -/
theorem trans (h : AgreesOn T env env') (h' : AgreesOn T env' env'') : AgreesOn T env env'' where
  trySpinlock w hw := (h.trySpinlock w hw).trans (h'.trySpinlock w hw)
  addEvent w hw := (h.addEvent w hw).trans (h'.addEvent w hw)
  delEvent w hw := (h.delEvent w hw).trans (h'.delEvent w hw)
  wait w hw := (h.wait w hw).trans (h'.wait w hw)
  pending w hw := (h.pending w hw).trans (h'.pending w hw)
  accept w hw := (h.accept w hw).trans (h'.accept w hw)
  callback w hw := (h.callback w hw).trans (h'.callback w hw)

/-- Environments that agree on a set agree on each of its subsets. -/
theorem mono (h : AgreesOn T env env') (hsub : T' ⊆ T) : AgreesOn T' env env' where
  trySpinlock w hw := h.trySpinlock w (hsub hw)
  addEvent w hw := h.addEvent w (hsub hw)
  delEvent w hw := h.delEvent w (hsub hw)
  wait w hw := h.wait w (hsub hw)
  pending w hw := h.pending w (hsub hw)
  accept w hw := h.accept w (hsub hw)
  callback w hw := h.callback w (hsub hw)

/-- Before the length `n` of the log, the switched environment is the first one. -/
theorem switch_Iio (n : ℕ) (env env' : Env) : AgreesOn (Set.Iio n) (env.switch n env') env := by
  constructor <;> exact fun w hw => if_pos hw

/-- From the length `n` of the log on, the switched environment is the second one. -/
theorem switch_Ici (n : ℕ) (env env' : Env) : AgreesOn (Set.Ici n) (env.switch n env') env' := by
  constructor <;> exact fun w hw => if_neg (Nat.not_lt.mpr hw)

end Env.AgreesOn

/-- The environments that are assumed can be put together, because only the results of system calls
are restricted, each for itself. -/
theorem mixes_valid : Env.Mixes Env.Valid where
  switch {n env env'} h h' := by
    refine ⟨fun w fd hfd => ?_, fun w evs hevs => ?_⟩
    · by_cases hw : w.log.length < n
      · exact h.fresh w fd ((if_pos hw).symm.trans hfd)
      · exact h'.fresh w fd ((if_neg hw).symm.trans hfd)
    · by_cases hw : w.log.length < n
      · exact h.batches w evs ((if_pos hw).symm.trans hevs)
      · exact h'.batches w evs ((if_neg hw).symm.trans hevs)
  withLock h := ⟨h.fresh, h.batches⟩

/-! ## The traversal -/

/-- The log of a worker gets no shorter. -/
theorem Worker.Calls.length_le {env : Env} {w w' : Worker} (h : Calls env w w') :
    w.log.length ≤ w'.log.length :=
  h.isPrefix.length_le

namespace Env.AgreesOn

variable {n : ℕ} {env env' : Env} {w : Worker} {i l : ℕ}

/-- `epoll_add_event` does the same when the log is long enough for the environments to agree. -/
theorem epollAddEvent (h : env.AgreesOn (Set.Ici n) env') (hw : n ≤ w.log.length) :
    Worker.epollAddEvent env w i = Worker.epollAddEvent env' w i := by
  unfold Worker.epollAddEvent
  rw [h.addEvent w hw]

/-- `epoll_del_event` does the same when the log is long enough for the environments to agree. -/
theorem epollDelEvent (h : env.AgreesOn (Set.Ici n) env') (hw : n ≤ w.log.length) :
    Worker.epollDelEvent env w i = Worker.epollDelEvent env' w i := by
  unfold Worker.epollDelEvent
  rw [h.delEvent w hw]

/-- A callback has the same effect when the log is long enough for the environments to agree. -/
theorem runCallback {kind : CallbackKind} {f : Callback} (h : env.AgreesOn (Set.Ici n) env')
    (hw : n ≤ w.log.length) :
    Worker.runCallback env w kind i f = Worker.runCallback env' w kind i f := by
  unfold Worker.runCallback
  rw [h.callback w hw]

/-- A pass of the accept loop does the same: `accept` and `epoll_add_event` give the same results,
and the connect handler is called later. -/
theorem acceptBody {accept accept' : Worker → AcceptResult} {ctx : Option AppCtx}
    (h : env.AgreesOn (Set.Ici n) env')
    (haccept : ∀ w : Worker, n ≤ w.log.length → accept w = accept' w) (hw : n ≤ w.log.length) :
    Worker.acceptBody env accept l ctx w = Worker.acceptBody env' accept' l ctx w := by
  refine bind_congr_ok fun ⟨slot, w₁⟩ halloc => ?_
  have hcalls : Calls env w w₁ := .allocResource halloc
  have hw₁ : n ≤ w₁.log.length := hw.trans hcalls.length_le
  cases slot with
  | none => rfl
  | some i =>
    dsimp only
    rw [haccept w₁ hw₁]
    have haccepted : Calls env w₁ (w₁.acceptFd l (accept' w₁)) := .acceptFd w₁ l (accept' w₁)
    have hw₂ : n ≤ (w₁.acceptFd l (accept' w₁)).log.length := hw₁.trans haccepted.length_le
    split
    · rfl
    · rfl
    · rfl
    · next fd _ =>
      split
      · rfl
      · next ctx _ =>
        set w₃ := (w₁.acceptFd l (accept' w₁)).hixoCreateSocket i fd .cmnct
          (ctx.handleRead.map .app) ctx.handleWrite ctx.handleDisconnect with hw₃
        rw [h.epollAddEvent (w := w₃) hw₂]
        split
        · rfl
        · next w₄ hstep =>
          have hadd : Calls env' w₃ (Worker.epollAddEvent env' w₃ i).2 := Calls.epollAddEvent w₃ i
          rw [hstep] at hadd
          rw [h.runCallback]
          have hw₄ : n ≤ w₄.log.length := hw₂.trans hadd.length_le
          simpa [putConnection, record, Worker.addNode] using hw₄.trans (Nat.le_succ _)

/-- The accept loop does the same in all its passes, since the log only grows. -/
theorem acceptLoop {k : ℕ} {ctx : Option AppCtx} (h : env.AgreesOn (Set.Ici n) env')
    (hw : n ≤ w.log.length) :
    Worker.acceptLoop env l k ctx w = Worker.acceptLoop env' l k ctx w := by
  induction k generalizing w ctx with
  | zero =>
    rw [Worker.acceptLoop, Worker.acceptLoop, h.acceptBody (fun _ _ => rfl) hw]
  | succ k ih =>
    rw [Worker.acceptLoop, Worker.acceptLoop, h.acceptBody h.accept hw]
    refine bind_congr_ok fun r hbody => ?_
    have hr := hw.trans (Calls.acceptBody hbody).length_le
    cases r with
    | brk w₁ => rfl
    | cont ctx w₁ => exact ih hr

/-- `hixo_handle_accept` finds as many pending connections and accepts them in the same way. -/
theorem hixoHandleAccept (h : env.AgreesOn (Set.Ici n) env') (hw : n ≤ w.log.length) :
    Worker.hixoHandleAccept env w l = Worker.hixoHandleAccept env' w l := by
  have hw' : n ≤ (w.record (.handleAccept l)).log.length := by
    simpa [record] using hw.trans (Nat.le_succ _)
  unfold Worker.hixoHandleAccept
  dsimp only
  rw [h.pending _ hw', h.acceptLoop hw']

/-- `hixo_handle_close` does the same, as its only call of the environment is `EPOLL_CTL_DEL`. -/
theorem hixoHandleClose (h : env.AgreesOn (Set.Ici n) env') (hw : n ≤ w.log.length) :
    Worker.hixoHandleClose env w i = Worker.hixoHandleClose env' w i := by
  have hw' (f : Socket → Socket) :
      n ≤ ((w.record (.handleClose i)).modifySock i f).log.length := by
    simpa [record, modifySock] using hw.trans (Nat.le_succ _)
  unfold Worker.hixoHandleClose
  dsimp only
  rw [h.epollDelEvent (hw' _)]

/-- The first test of a visit does the same in environments that agree from here on. -/
theorem visitRead (h : env.AgreesOn (Set.Ici n) env') (hw : n ≤ w.log.length) :
    Worker.visitRead env w i = Worker.visitRead env' w i := by
  unfold Worker.visitRead
  split
  · split
    · rfl
    · exact h.hixoHandleAccept hw
    · rw [h.runCallback hw]
  · rfl

/-- The second test of a visit does the same, with or without a disconnect handler. -/
theorem visitClose (h : env.AgreesOn (Set.Ici n) env') (hw : n ≤ w.log.length) :
    Worker.visitClose env w i = Worker.visitClose env' w i := by
  unfold Worker.visitClose
  split
  · split
    · exact h.hixoHandleClose hw
    · next f _ =>
      rw [h.runCallback hw]
      have hcalls : Calls env' w (Worker.runCallback env' w .disconnect i f) := .runCallback w ..
      exact h.hixoHandleClose (hw.trans hcalls.length_le)
  · rfl

/-- The third test of a visit does the same in environments that agree from here on. -/
theorem visitWrite (h : env.AgreesOn (Set.Ici n) env') (hw : n ≤ w.log.length) :
    Worker.visitWrite env w i = Worker.visitWrite env' w i := by
  unfold Worker.visitWrite
  split
  · split
    · rfl
    · exact h.runCallback hw
  · rfl

/-- A visit does the same in environments that agree from here on. -/
theorem visit (h : env.AgreesOn (Set.Ici n) env') (hw : n ≤ w.log.length) :
    Worker.visit env w i = Worker.visit env' w i := by
  unfold Worker.visit
  rw [h.visitRead hw]
  refine bind_congr_ok fun w₁ hread => ?_
  have hw₁ := hw.trans (Calls.visitRead hread).length_le
  rw [h.visitClose hw₁]
  refine bind_congr_ok fun w₂ hclose => ?_
  rw [h.visitWrite (hw₁.trans (Calls.visitClose hclose).length_le)]

/-- The traversal does the same in environments that agree from the length on that the log has at
its start. -/
theorem traverse {k : ℕ} {next : Option Cell} (h : env.AgreesOn (Set.Ici n) env')
    (hw : n ≤ w.log.length) :
    Worker.traverse env k next w = Worker.traverse env' k next w := by
  induction k generalizing w next with
  | zero => cases next <;> rfl
  | succ k ih =>
    cases next with
    | none => rfl
    | some c =>
      cases c with
      | postedNode i =>
        rw [Worker.traverse, Worker.traverse, h.visit hw]
        exact bind_congr_ok fun w₁ hvisit => ih (hw.trans (Calls.visit hvisit).length_le)
      | _ => rfl

end Env.AgreesOn

end Hixo
