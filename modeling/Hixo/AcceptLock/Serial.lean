import Hixo.AcceptLock.Exclusion
import Hixo.Worker.Switching

/-!
# Each worker for itself

The workers of a host take their steps in any order, and each step has its own results of system
calls. For each worker the steps still make up passes of `eventLoopBody`, as in a run of the worker
alone: the other workers only decide what `spinlock_try` gives.

* `Proc.finish`: what is left of a pass at a program point;
* `finish_step`: a step takes its part off what is left;
* `Within`, `Serial`: a worker is in a pass of a run of its own;
* `Serial.step`, `serial_of_reachable`: one step, and all steps of a host;
* `host_serializes`: the result.
-/

namespace Hixo

open Worker Interleaving Programs

/-! ## What is left of a pass -/

/-- The rest of the pass after `epoll_process_events` has returned. -/
def afterReturn (env : Env) (ok : Bool) (w : Worker) : Except Abort (Bool × Worker) :=
  if ok then do
    let w ← traverse env w.capacity (w.links .postedEvents) w
    .ok (true, w)
  else .ok (false, w)

/-- The rest after the loop that deletes the listeners. -/
def afterDel (env : Env) (rslt : WaitResult) (w : Worker) : Except Abort (Bool × Worker) :=
  match rslt with
  | .eintr => afterReturn env true (releaseAcceptLock w)
  | .failed => afterReturn env false (releaseAcceptLock w)
  | .events evs => afterReturn env true (releaseAcceptLock (evs.foldl postEvent w))

/-- The rest after the loop that adds the listeners. -/
def afterAdd (env : Env) (w : Worker) : Except Abort (Bool × Worker) :=
  if w.links .postedEvents ≠ none then .error .postedEmpty
  else afterDel env (env.wait w) (unwatchListeners env (w.record (.wait (env.wait w))))

/-- What is left of a pass at a program point. -/
def Proc.finish (env : Env) (p : Proc) : Except Abort (Bool × Worker) :=
  let w := p.worker
  let rest (k : ℕ) := List.range' k (w.servers.length - k)
  match p.pc with
  | .call => eventLoopBody env w
  | .tryLock =>
    let held := env.trySpinlock w
    watchListeners env { w.record (.trySpinlock held) with holdLock := held } >>= afterAdd env
  | .setHold held => watchListeners env { w with holdLock := held } >>= afterAdd env
  | .add k => (if w.holdLock then addListeners env (rest k) w else .ok w) >>= afterAdd env
  | .wait => afterAdd env w
  | .del k rslt => afterDel env rslt (if w.holdLock then delListeners env (rest k) w else w)
  | .post rslt => afterDel env rslt w
  | .exit ok => afterReturn env ok (releaseAcceptLock w)
  | .clear ok => afterReturn env ok { w with holdLock := false }
  | .ret ok => afterReturn env ok w

section Finish

variable {env env' : Env} {lock lock' : BitVec 64} {w : Worker} {p p' : Proc}

theorem eventLoopBody_eq (env : Env) (w : Worker) :
    eventLoopBody env w = watchListeners env (tryAcceptLock env w) >>= afterAdd env := by
  unfold eventLoopBody epollProcessEvents
  cases watchListeners env (tryAcceptLock env w) with
  | error e => rfl
  | ok w₁ =>
    rw [ok_bind, ok_bind, afterAdd]
    by_cases hempty : w₁.links .postedEvents ≠ none
    · rw [if_pos hempty, if_pos hempty]
      rfl
    · rw [if_neg hempty, if_neg hempty]
      cases env.wait w₁ <;> rfl

/-- An entry that a step before the traversal records. -/
def LogEntry.BeforeTraversal : LogEntry → Prop
  | .wait _ => True
  | e => e.IsPolling

/-- From `p` to `p'` the pass goes on: some entries are recorded, and what was left at `p` is left
at `p'`, for all environments that agree with `env` on the way. -/
structure GoesOn (env : Env) (p p' : Proc) : Prop where
  pc : p'.pc ≠ .call
  log : ∃ tr, p'.worker.log = p.worker.log ++ tr ∧ (∀ e ∈ tr, e.BeforeTraversal) ∧
    ∀ rslt, .wait rslt ∈ tr → p.pc = .wait
  finish : ∀ env' : Env,
    env'.AgreesOn (Set.Ico p.worker.log.length p'.worker.log.length) env →
      p.finish env' = p'.finish env'

/-- A step without a system call goes on with the pass when it leaves the same rest to be done. -/
theorem GoesOn.of_log (hpc : p'.pc ≠ .call) (hlog : p'.worker.log = p.worker.log)
    (hfinish : ∀ env', p.finish env' = p'.finish env') : GoesOn env p p' :=
  ⟨hpc, ⟨[], by rw [hlog, List.append_nil], by simp, by simp⟩, fun env' _ => hfinish env'⟩

/-- A step with one system call goes on with the pass when it leaves the same rest to be done in
every environment that gives this call the same result. -/
theorem GoesOn.of_record {e : LogEntry} (hpc : p'.pc ≠ .call)
    (hlog : p'.worker.log = p.worker.log ++ [e]) (he : e.BeforeTraversal)
    (hwait : ∀ rslt, e = .wait rslt → p.pc = .wait)
    (hfinish : ∀ env', env'.AgreesOn {p.worker.log.length} env → p.finish env' = p'.finish env') :
    GoesOn env p p' := by
  refine ⟨hpc, ⟨[e], hlog, by simpa using he, fun rslt hmem => ?_⟩,
    fun env' hagree => hfinish env' (hagree.mono ?_)⟩
  · exact hwait rslt (List.mem_singleton.mp hmem).symm
  rw [Set.singleton_subset_iff, hlog, List.length_append]
  exact ⟨Nat.le_refl _, Nat.lt_succ_self _⟩

/-- The indices from `k` on are `k` and those behind it. -/
theorem range'_of_lt {k n : ℕ} (hlt : k < n) :
    List.range' k (n - k) = k :: List.range' (k + 1) (n - (k + 1)) := by
  rw [← List.range'_succ]
  congr 1
  omega

/-- A pass of the loop that adds the listeners goes on with the pass of `event_loop`. -/
theorem goesOn_add (env : Env) {k : ℕ} (hstep : Proc.step env lock ⟨.add k, w⟩ = .ok (lock', p')) :
    GoesOn env ⟨.add k, w⟩ p' := by
  rw [Proc.step] at hstep
  dsimp only at hstep
  by_cases hhold : w.holdLock = true
  swap
  · rw [if_neg hhold, Except.ok.injEq, Prod.mk.injEq] at hstep
    obtain ⟨-, rfl⟩ := hstep
    exact .of_log (by rintro ⟨⟩) rfl fun env' => by simp [Proc.finish, hhold, ok_bind]
  rw [if_pos hhold] at hstep
  cases hk : w.servers[k]? with
  | none =>
    rw [hk] at hstep
    obtain ⟨-, rfl⟩ := Prod.mk.inj (Except.ok.inj hstep)
    -- no listener is left
    have hle : w.servers.length - k = 0 := Nat.sub_eq_zero_of_le (List.getElem?_eq_none_iff.mp hk)
    exact .of_log (by rintro ⟨⟩) rfl fun env' => by
      simp [Proc.finish, hhold, hle, addListeners, ok_bind]
  | some server =>
    rw [hk] at hstep
    dsimp only at hstep
    split at hstep
    · cases hstep
    next htagged =>
      have hrest := range'_of_lt (List.getElem?_eq_some_iff.mp hk).1
      obtain ⟨rslt, interest, hadd, -⟩ := epollAddEvent_snd env w server.slot
      have hsame (env' : Env) (hagree : env'.AgreesOn {w.log.length} env) :
          epollAddEvent env' w server.slot = epollAddEvent env w server.slot := by
        unfold epollAddEvent
        rw [hagree.addEvent w rfl]
      cases hev : epollAddEvent env w server.slot with
      | mk ok w₁ =>
        rw [hev] at hstep hadd
        obtain rfl : w₁ = _ := hadd
        cases ok with
        | true =>
          obtain ⟨-, rfl⟩ := Prod.mk.inj (Except.ok.inj hstep)
          refine .of_record (e := .addEvent server.slot rslt) (by rintro ⟨⟩) rfl trivial
            (by rintro _ ⟨⟩) fun env' hagree => ?_
          simp [Proc.finish, hhold, hrest, addListeners, hk, htagged, hsame env' hagree, hev,
            record]
        | false =>
          obtain ⟨-, rfl⟩ := Prod.mk.inj (Except.ok.inj hstep)
          refine .of_record (e := .addEvent server.slot rslt) (by rintro ⟨⟩) rfl trivial
            (by rintro _ ⟨⟩) fun env' hagree => ?_
          simp [Proc.finish, hhold, hrest, addListeners, hk, htagged, hsame env' hagree, hev,
            ok_bind]

/-- A pass of the loop that deletes the listeners goes on with the pass of `event_loop`. -/
theorem goesOn_del (env : Env) {k : ℕ} {rslt : WaitResult}
    (hstep : Proc.step env lock ⟨.del k rslt, w⟩ = .ok (lock', p')) :
    GoesOn env ⟨.del k rslt, w⟩ p' := by
  rw [Proc.step] at hstep
  dsimp only at hstep
  by_cases hhold : w.holdLock = true
  swap
  · rw [if_neg hhold, Except.ok.injEq, Prod.mk.injEq] at hstep
    obtain ⟨-, rfl⟩ := hstep
    exact .of_log (by rintro ⟨⟩) rfl fun env' => by simp [Proc.finish, hhold]
  rw [if_pos hhold] at hstep
  cases hk : w.servers[k]? with
  | none =>
    rw [hk] at hstep
    obtain ⟨-, rfl⟩ := Prod.mk.inj (Except.ok.inj hstep)
    -- no listener is left
    have hle : w.servers.length - k = 0 := Nat.sub_eq_zero_of_le (List.getElem?_eq_none_iff.mp hk)
    exact .of_log (by rintro ⟨⟩) rfl fun env' => by simp [Proc.finish, hhold, hle, delListeners]
  | some server =>
    rw [hk] at hstep
    dsimp only at hstep
    have hrest := range'_of_lt (List.getElem?_eq_some_iff.mp hk).1
    split at hstep
    next htagged =>
      obtain ⟨-, rfl⟩ := Prod.mk.inj (Except.ok.inj hstep)
      exact .of_log (by rintro ⟨⟩) rfl fun env' => by
        simp [Proc.finish, hhold, hrest, delListeners, hk, htagged]
    next htagged =>
      obtain ⟨rslt', interest, hdel, -⟩ := epollDelEvent_snd env w server.slot
      have hsame (env' : Env) (hagree : env'.AgreesOn {w.log.length} env) :
          epollDelEvent env' w server.slot = epollDelEvent env w server.slot := by
        unfold epollDelEvent
        rw [hagree.delEvent w rfl]
      cases hev : epollDelEvent env w server.slot with
      | mk ok w₁ =>
        rw [hev] at hstep hdel
        obtain rfl : w₁ = _ := hdel
        cases ok with
        | true =>
          obtain ⟨-, rfl⟩ := Prod.mk.inj (Except.ok.inj hstep)
          refine .of_record (e := .delEvent server.slot rslt') (by rintro ⟨⟩) rfl trivial
            (by rintro _ ⟨⟩) fun env' hagree => ?_
          simp [Proc.finish, hhold, hrest, delListeners, hk, htagged, hsame env' hagree, hev,
            record]
        | false =>
          obtain ⟨-, rfl⟩ := Prod.mk.inj (Except.ok.inj hstep)
          refine .of_record (e := .delEvent server.slot rslt') (by rintro ⟨⟩) rfl trivial
            (by rintro _ ⟨⟩) fun env' hagree => ?_
          simp [Proc.finish, hhold, hrest, delListeners, hk, htagged, hsame env' hagree, hev]

/-- Every step before the traversal goes on with the pass, in the environment in which
`spinlock_try` gives what the word says. -/
theorem finish_step (hstep : p.step env lock = .ok (lock', p')) (hret : ∀ ok, p.pc ≠ .ret ok) :
    GoesOn (env.withLock (spinlockTry lock).1) p p' := by
  obtain ⟨pc, w⟩ := p
  cases pc with
  | call =>
    obtain ⟨-, rfl⟩ := Prod.mk.inj (Except.ok.inj hstep)
    refine .of_log (by dsimp only; split <;> rintro ⟨⟩) rfl fun env' => ?_
    by_cases hpower : 0 < w.power
    · simp only [Proc.finish, eventLoopBody_eq, tryAcceptLock, if_pos hpower]
    · simp only [Proc.finish, eventLoopBody_eq, tryAcceptLock, if_neg hpower]
  | tryLock =>
    obtain ⟨-, rfl⟩ := Prod.mk.inj (Except.ok.inj hstep)
    refine .of_record (e := .trySpinlock (spinlockTry lock).1) (by rintro ⟨⟩) rfl trivial
      (by rintro _ ⟨⟩) fun env' hagree => ?_
    simp only [Proc.finish, hagree.trySpinlock w rfl]
    rfl
  | setHold held =>
    obtain ⟨-, rfl⟩ := Prod.mk.inj (Except.ok.inj hstep)
    refine .of_log (by rintro ⟨⟩) rfl fun env' => ?_
    simp only [Proc.finish, watchListeners, List.range_eq_range', Nat.sub_zero]
  | add k => exact goesOn_add (env.withLock (spinlockTry lock).1) hstep
  | wait =>
    rw [Proc.step] at hstep
    dsimp only at hstep
    split at hstep
    · cases hstep
    next hempty =>
      obtain ⟨-, rfl⟩ := Prod.mk.inj (Except.ok.inj hstep)
      refine .of_record (e := .wait (env.wait w)) (by rintro ⟨⟩) rfl trivial (fun _ _ => rfl)
        fun env' hagree => ?_
      have hwait : env'.wait w = env.wait w := hagree.wait w rfl
      simp only [Proc.finish, afterAdd, if_neg hempty, hwait, unwatchListeners,
        List.range_eq_range', Nat.sub_zero]
  | del k rslt => exact goesOn_del (env.withLock (spinlockTry lock).1) hstep
  | post rslt =>
    cases rslt with
    | eintr | failed =>
      obtain ⟨-, rfl⟩ := Prod.mk.inj (Except.ok.inj hstep)
      exact .of_log (by rintro ⟨⟩) rfl fun env' => rfl
    | events evs =>
      obtain ⟨-, rfl⟩ := Prod.mk.inj (Except.ok.inj hstep)
      obtain ⟨-, -, -, hlog⟩ := foldl_postEvent_keeps evs w
      exact .of_log (by rintro ⟨⟩) hlog fun env' => rfl
  | exit ok =>
    rw [Proc.step] at hstep
    dsimp only at hstep
    split at hstep
    next hhold =>
      obtain ⟨-, rfl⟩ := Prod.mk.inj (Except.ok.inj hstep)
      refine .of_record (e := .spinlockUnlock) (by rintro ⟨⟩) rfl trivial
        (by rintro _ ⟨⟩) fun env' _ => ?_
      simp only [Proc.finish, releaseAcceptLock, if_pos hhold]
    next hhold =>
      obtain ⟨-, rfl⟩ := Prod.mk.inj (Except.ok.inj hstep)
      refine .of_log (by rintro ⟨⟩) rfl fun env' => ?_
      simp only [Proc.finish, releaseAcceptLock, if_neg hhold]
  | clear ok =>
    obtain ⟨-, rfl⟩ := Prod.mk.inj (Except.ok.inj hstep)
    exact .of_log (by rintro ⟨⟩) rfl fun env' => rfl
  | ret ok => exact absurd rfl (hret ok)

end Finish

/-! ## Passes of a run -/

/-- A step of one worker, with an environment of a kind. -/
def Proc.actUnder (kind : Env → Prop) (lock : BitVec 64) (p : Proc) (lock' : BitVec 64)
    (p' : Proc) : Prop :=
  ∃ env : Env, kind env ∧ p.step env lock = .ok (lock', p')

/-- The worker is in the pass that started at `w`. What came so far is the beginning of that pass
for all environments that agree with one of the kind, and the steps that come may still have other
environments. -/
structure Within (kind : Env → Prop) (w : Worker) (p : Proc) : Prop where
  top : p.pc = .call → p.worker = w
  log : ∃ tr, p.worker.log = w.log ++ tr ∧ ∀ e ∈ tr, e.BeforeTraversal
  finish : ∃ env, kind env ∧ ∀ env' : Env,
    env'.AgreesOn (Set.Iio p.worker.log.length) env → eventLoopBody env' w = p.finish env'

/-- The worker is in a pass of a run from `w₀`. -/
def Serial (kind : Env → Prop) (w₀ : Worker) (p : Proc) : Prop :=
  ∃ w, RunUnder kind w₀ true w ∧ Within kind w p

section Serial

variable {kind : Env → Prop} {env : Env} {lock lock' : BitVec 64} {w w' w₀ : Worker} {p p' : Proc}

/-- At the start of a pass nothing of it has come yet. -/
theorem Within.start (henv : kind env) (w : Worker) : Within kind w ⟨.call, w⟩ where
  top _ := rfl
  log := ⟨[], by rw [List.append_nil], by simp⟩
  finish := ⟨env, henv, fun _ _ => rfl⟩

/-- A step before the traversal stays within the pass. -/
theorem Within.of_goesOn (h : Within kind w p) (hkind : Env.Mixes kind) (henv : kind env)
    (hgoes : GoesOn env p p') : Within kind w p' := by
  obtain ⟨tr, hlog, htr⟩ := h.log
  obtain ⟨tr', hlog', htr', -⟩ := hgoes.log
  obtain ⟨env₀, henv₀, hfinish⟩ := h.finish
  have hlen : p.worker.log.length ≤ p'.worker.log.length := by
    rw [hlog', List.length_append]
    exact Nat.le_add_right ..
  refine ⟨fun hpc => absurd hpc hgoes.pc, ⟨tr ++ tr', ?_, fun e he => ?_⟩,
    env₀.switch p.worker.log.length env, hkind.switch henv₀ henv, fun env' hagree => ?_⟩
  · rw [hlog', hlog, List.append_assoc]
  · exact (List.mem_append.mp he).elim (htr e) (htr' e)
  · -- up to the present length the old environment counts, and then the one of the step
    have hbefore : env'.AgreesOn (Set.Iio p.worker.log.length) env₀ :=
      (hagree.mono fun _ hn => Nat.lt_of_lt_of_le hn hlen).trans (.switch_Iio _ env₀ env)
    have hstep : env'.AgreesOn (Set.Ico p.worker.log.length p'.worker.log.length) env :=
      (hagree.mono fun _ hn => hn.2).trans ((Env.AgreesOn.switch_Ici _ env₀ env).mono
        fun _ hn => hn.1)
    exact (hfinish env' hbefore).trans (hgoes.finish env' hstep)

/-- The traversal ends the pass: some environment of the kind gives the whole pass in one call. -/
theorem Within.eventLoopBody_of_traverse (h : Within kind w ⟨.ret true, w'⟩)
    (hkind : Env.Mixes kind) (henv : kind env) {w'' : Worker}
    (htraverse : Worker.traverse env w'.capacity (w'.links .postedEvents) w' = .ok w'') :
    ∃ env', kind env' ∧ eventLoopBody env' w = .ok (true, w'') := by
  obtain ⟨env₀, henv₀, hfinish⟩ := h.finish
  refine ⟨env₀.switch w'.log.length env, hkind.switch henv₀ henv, ?_⟩
  have hafter := Env.AgreesOn.switch_Ici w'.log.length env₀ env
  rw [hfinish _ (.switch_Iio ..)]
  show (Worker.traverse _ w'.capacity (w'.links .postedEvents) w' >>= fun w => .ok (true, w)) = _
  rw [hafter.traverse (Nat.le_refl _), htraverse, ok_bind]

/-- Every step of a worker in a pass of a run leads to a pass of a run. -/
theorem Serial.of_step (h : Serial kind w₀ p) (hkind : Env.Mixes kind)
    (hact : p.actUnder kind lock lock' p') : Serial kind w₀ p' := by
  obtain ⟨w, hrun, hwithin⟩ := h
  obtain ⟨env, henv, hstep⟩ := hact
  by_cases hret : ∃ ok, p.pc = .ret ok
  · obtain ⟨pc, w'⟩ := p
    obtain ⟨ok, rfl⟩ := hret
    cases ok with
    | true =>
      obtain ⟨w'', htraverse, hrest⟩ := exists_of_bind_eq_ok hstep
      obtain ⟨-, rfl⟩ := Prod.mk.inj (Except.ok.inj hrest)
      obtain ⟨env', henv', hbody⟩ := hwithin.eventLoopBody_of_traverse hkind henv htraverse
      exact ⟨w'', hrun.step henv' hbody, .start henv w''⟩
    | false =>
      -- `event_loop` was left
      obtain ⟨-, rfl⟩ := Prod.mk.inj (Except.ok.inj hstep)
      exact ⟨w, hrun, hwithin⟩
  · have hgoes := finish_step hstep fun ok hpc => hret ⟨ok, hpc⟩
    exact ⟨w, hrun, hwithin.of_goesOn hkind (hkind.withLock henv) hgoes⟩

/-- A worker that has left the loop has a run that was left by `event_loop`. -/
theorem Serial.runUnder_of_left (h : Serial kind w₀ ⟨.ret false, w'⟩) :
    RunUnder kind w₀ false w' := by
  obtain ⟨w, hrun, hwithin⟩ := h
  obtain ⟨env, henv, hfinish⟩ := hwithin.finish
  exact hrun.step henv (hfinish env (.refl ..))

/-- In every reachable state of a host, each worker is in a pass of a run of its own. -/
theorem serial_of_reachable {ι : Type} [DecidableEq ι] {w₀ : ι → Worker} {s₀ s : Host ι}
    (hkind : Env.Mixes kind) (henv : kind env) (hstart : ∀ i, s₀.locals i = ⟨.call, w₀ i⟩)
    (hs : Reachable (Proc.actUnder kind) s₀ s) (i : ι) : Serial kind (w₀ i) (s.locals i) :=
  hs.locals (L := fun i => Serial kind (w₀ i))
    (fun i => hstart i ▸ ⟨w₀ i, .start, .start henv (w₀ i)⟩) (fun h hact => h.of_step hkind hact) i

end Serial

/-! ## Hosts -/

/-- A worker at a program point, seen from its own run: it is in the pass from `w`, where `tr` was
recorded so far, and what is left of the pass is what `Proc.finish` says. -/
structure Serialized (w₀ : Worker) (p : Proc) : Prop where
  pass : ∃ passes w env tr, Run w₀ passes true w ∧ env.Valid ∧
    eventLoopBody env w = p.finish env ∧ p.worker.log = w.log ++ tr ∧
    (∀ e ∈ tr, e.BeforeTraversal) ∧ (p.pc = .call → p.worker = w)
  /-- Its `event_loop` was left. -/
  left : p.pc = .ret false → ∃ passes, Run w₀ passes false p.worker

/-- In any order of the steps of any number of workers, and whatever they find in the word of the
accept lock, each worker goes through a run of its own. -/
theorem host_serializes {ι : Type} [DecidableEq ι] {w₀ : ι → Worker} {s₀ s : Host ι}
    (hstart : ∀ i, s₀.locals i = ⟨.call, w₀ i⟩)
    (hs : Reachable (Proc.actUnder Env.Valid) s₀ s) (i : ι) :
    Serialized (w₀ i) (s.locals i) := by
  have hserial := serial_of_reachable mixes_valid (sampleEnv_valid []) hstart hs i
  refine ⟨?_, fun hpc => ?_⟩
  · obtain ⟨w, hrun, htop, ⟨tr, hlog, htr⟩, env, henv, hfinish⟩ := hserial
    obtain ⟨passes, hpasses⟩ := hrun.exists_run fun _ => id
    exact ⟨passes, w, env, tr, hpasses, henv, hfinish env (.refl ..), hlog, htr, htop⟩
  · rcases hp : s.locals i with ⟨pc, w⟩
    rw [hp] at hpc hserial
    obtain rfl : pc = .ret false := hpc
    exact hserial.runUnder_of_left.exists_run fun _ => id

theorem reachable_sampleSchedule : Reachable Proc.act sampleHost
    (sampleSchedule.foldl (Host.next (sampleEnv [])) sampleHost) := by
  have hnext {s : Host Bool} (hs : Reachable Proc.act sampleHost s) (i : Bool) :
      Reachable Proc.act sampleHost (s.next (sampleEnv []) i) :=
    Host.reachable_next (sampleEnv_valid []) (fun _ _ => Or.inl rfl) hs i
  exact hnext (hnext (hnext (hnext (hnext (hnext .start true) false) true) false) true) true

/-- Worker `true` has the accept lock, while worker `false` goes without it. -/
theorem host_serializes_sample :
    Serialized sampleStart
      ((sampleSchedule.foldl (Host.next (sampleEnv [])) sampleHost).locals false) := by
  have hact {g : BitVec 64} {l : Proc} {g' : BitVec 64} {l' : Proc} (h : Proc.act g l g' l') :
      Proc.actUnder Env.Valid g l g' l' := by
    obtain ⟨env, henv, -, hstep⟩ := h
    exact ⟨env, henv, hstep⟩
  exact host_serializes (fun _ => rfl) (reachable_sampleSchedule.mono hact) false

end Hixo
