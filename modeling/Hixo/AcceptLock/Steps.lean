import Hixo.Foundation.Interleaving
import Hixo.Worker.Runs

/-!
# The steps of the workers

Several workers share the word of the accept lock, and each runs its own `event_loop`. Between two
accesses to the word a worker only touches its own memory and its own epoll descriptor, so
`epoll_process_events` is cut into these steps: the test of `m_power`, the compare-and-set, the
store of `m_hold_lock`, each pass of the two loops over the listeners, `epoll_wait`, the posting of
the events, the unlocking and the clearing of `m_hold_lock`. The rest of `event_loop` is one step.

* `atomicCmpSet`, `spinlockTry`: the operations of `spinlock.h`;
* `Pc`, `Proc`, `Proc.step`: a worker at a program point, and its next step;
* `Host`, `Proc.act`: the workers of a host with the word they share;
* `inSection`: whether a worker is between its successful `spinlock_try` and its
  `spinlock_unlock`;
* `steps_epollProcessEvents`: the steps of a worker that is left alone make up one call.
-/

namespace Hixo

open Worker Interleaving

/-! ## `spinlock.h` -/

/-- `atomic_cmp_set(lock, old, set)`: `cmpxchgl` compares and stores the low 32 bits of the
word. -/
def atomicCmpSet (lock : BitVec 64) (old set : BitVec 32) : Bool × BitVec 64 :=
  if lock.extractLsb' 0 32 = old then (true, lock.extractLsb' 32 32 ++ set) else (false, lock)

/-- `spinlock_try(lock)` -/
def spinlockTry (lock : BitVec 64) : Bool × BitVec 64 := atomicCmpSet lock 0 1

/-- `spinlock_unlock(lock)`: the new value of the word. -/
def spinlockUnlock : BitVec 64 := 0

/-! ## Program points -/

/-- Where a worker is in `event_loop`. -/
inductive Pc
  /-- At the start of `epoll_process_events`, before the test of `m_power`. -/
  | call
  /-- Before `spinlock_try`. -/
  | tryLock
  /-- Before `m_hold_lock` is set. -/
  | setHold (held : Bool)
  /-- In the loop that adds the listeners, at index `k`. -/
  | add (k : ℕ)
  /-- Before `epoll_wait`. -/
  | wait
  /-- In the loop that deletes the listeners, at index `k`, after `epoll_wait`. -/
  | del (k : ℕ) (rslt : WaitResult)
  /-- Before the test of the result of `epoll_wait`. -/
  | post (rslt : WaitResult)
  /-- At `EXIT`, with the value that will be returned. -/
  | exit (ok : Bool)
  /-- After `spinlock_unlock`. -/
  | clear (ok : Bool)
  /-- `epoll_process_events` has returned. -/
  | ret (ok : Bool)
  deriving DecidableEq

/-- A worker at a program point. -/
structure Proc where
  pc : Pc
  worker : Worker

/-- The next step of a worker, with the word of the accept lock before it and after it. -/
def Proc.step (env : Env) (lock : BitVec 64) (p : Proc) : Except Abort (BitVec 64 × Proc) :=
  let w := p.worker
  match p.pc with
  | .call => .ok (lock, ⟨if 0 < w.power then .tryLock else .setHold false, w⟩)
  | .tryLock =>
    let (held, lock) := spinlockTry lock
    .ok (lock, ⟨.setHold held, w.record (.trySpinlock held)⟩)
  | .setHold held => .ok (lock, ⟨.add 0, { w with holdLock := held }⟩)
  | .add k =>
    if w.holdLock then
      match w.servers[k]? with
      | none => .ok (lock, ⟨.wait, w⟩)
      | some server =>
        if server.tagged then .error .serverAligned
        else
          match epollAddEvent env w server.slot with
          | (true, w) => .ok (lock, ⟨.add (k + 1), w⟩)
          | (false, w) => .ok (lock, ⟨.wait, { w with
              servers := w.servers.modify k fun server => { server with tagged := true } }⟩)
    else .ok (lock, ⟨.wait, w⟩)
  | .wait =>
    if w.links .postedEvents ≠ none then .error .postedEmpty
    else .ok (lock, ⟨.del 0 (env.wait w), w.record (.wait (env.wait w))⟩)
  | .del k rslt =>
    if w.holdLock then
      match w.servers[k]? with
      | none => .ok (lock, ⟨.post rslt, w⟩)
      | some server =>
        if server.tagged then
          .ok (lock, ⟨.del (k + 1) rslt, { w with
            servers := w.servers.modify k fun server => { server with tagged := false } }⟩)
        else
          match epollDelEvent env w server.slot with
          | (true, w) => .ok (lock, ⟨.del (k + 1) rslt, w⟩)
          | (false, w) => .ok (lock, ⟨.post rslt, w⟩)
    else .ok (lock, ⟨.post rslt, w⟩)
  | .post .eintr => .ok (lock, ⟨.exit true, w⟩)
  | .post .failed => .ok (lock, ⟨.exit false, w⟩)
  | .post (.events evs) => .ok (lock, ⟨.exit true, evs.foldl postEvent w⟩)
  | .exit ok =>
    if w.holdLock then .ok (spinlockUnlock, ⟨.clear ok, w.record .spinlockUnlock⟩)
    else .ok (lock, ⟨.ret ok, w⟩)
  | .clear ok => .ok (lock, ⟨.ret ok, { w with holdLock := false }⟩)
  | .ret true => do
    let w ← traverse env w.capacity (w.links .postedEvents) w
    .ok (lock, ⟨.call, w⟩)
  -- the loop of `event_loop` was left
  | .ret false => .ok (lock, p)

/-! ## A call of a worker that is left alone -/

/-- Any number of steps of one worker. -/
inductive Steps (env : Env) : BitVec 64 × Proc → BitVec 64 × Proc → Prop
  | refl (s : BitVec 64 × Proc) : Steps env s s
  | head {lock : BitVec 64} {p : Proc} {s t : BitVec 64 × Proc} (h : p.step env lock = .ok s)
      (ht : Steps env s t) : Steps env (lock, p) t

/-- Steps can follow steps. -/
theorem Steps.trans {env : Env} {s t u : BitVec 64 × Proc} (h : Steps env s t)
    (h' : Steps env t u) : Steps env s u := by
  induction h with
  | refl => exact h'
  | head hstep _ ih => exact .head hstep (ih h')

theorem Steps.single {env : Env} {lock : BitVec 64} {p : Proc} {s : BitVec 64 × Proc}
    (h : p.step env lock = .ok s) : Steps env (lock, p) s :=
  .head h (.refl s)

section Calls

variable {env : Env} {lock : BitVec 64} {w w' : Worker}

/-- `epoll_add_event` changes neither `m_hold_lock` nor the listeners. -/
theorem epollAddEvent_keeps (env : Env) (w : Worker) (i : ℕ) :
    (epollAddEvent env w i).2.holdLock = w.holdLock ∧
      (epollAddEvent env w i).2.servers = w.servers := by
  obtain ⟨rslt, interest, hadd, -⟩ := epollAddEvent_snd env w i
  rw [hadd]
  exact ⟨rfl, rfl⟩

/-- `epoll_del_event` changes neither `m_hold_lock` nor the listeners. -/
theorem epollDelEvent_keeps (env : Env) (w : Worker) (i : ℕ) :
    (epollDelEvent env w i).2.holdLock = w.holdLock ∧
      (epollDelEvent env w i).2.servers = w.servers := by
  obtain ⟨rslt, interest, hdel, -⟩ := epollDelEvent_snd env w i
  rw [hdel]
  exact ⟨rfl, rfl⟩

/-- The steps up to the loop that adds the listeners are the test of the accept lock, when
`spinlock_try` gives what the word says. -/
theorem steps_tryAcceptLock (htry : env.trySpinlock w = (spinlockTry lock).1) :
    ∃ lock', Steps env (lock, ⟨.call, w⟩) (lock', ⟨.add 0, tryAcceptLock env w⟩) := by
  -- without power the lock is not tried
  by_cases hpower : 0 < w.power
  · have hdef : tryAcceptLock env w = { w.record (.trySpinlock (spinlockTry lock).1) with
        holdLock := (spinlockTry lock).1 } := by
      rw [← htry]
      exact if_pos hpower
    rw [hdef]
    exact ⟨(spinlockTry lock).2, .head (s := (lock, ⟨.tryLock, w⟩)) (by simp [Proc.step, hpower])
      (.head (s := ((spinlockTry lock).2, ⟨.setHold (spinlockTry lock).1, _⟩)) rfl
        (.single rfl))⟩
  · have hdef : tryAcceptLock env w = { w with holdLock := false } := if_neg hpower
    rw [hdef]
    exact ⟨lock, .head (s := (lock, ⟨.setHold false, w⟩)) (by simp [Proc.step, hpower])
      (.single rfl)⟩

/-- The steps of the loop that adds the listeners lead to `epoll_wait`. -/
theorem steps_addListeners (hhold : w.holdLock = true) {n k : ℕ}
    -- the induction is on the number of listeners that are left
    (hk : k + n = w.servers.length) (hrun : addListeners env (List.range' k n) w = .ok w') :
    Steps env (lock, ⟨.add k, w⟩) (lock, ⟨.wait, w'⟩) := by
  induction n generalizing k w with
  | zero =>
    have hnone : w.servers[k]? = none := by simp [← hk]
    rw [List.range'_zero, addListeners, Except.ok.injEq] at hrun
    subst hrun
    exact .single (by simp [Proc.step, hhold, hnone])
  | succ n ih =>
    have hsome : w.servers[k]? = some w.servers[k] := List.getElem?_eq_getElem (by omega)
    rw [List.range'_succ, addListeners] at hrun
    simp only [hsome] at hrun
    -- a tagged listener is an assertion that fails
    split at hrun
    · cases hrun
    next htagged =>
      obtain ⟨hhold₁, hservers₁⟩ := epollAddEvent_keeps env w w.servers[k].slot
      cases hev : epollAddEvent env w w.servers[k].slot with
      | mk ok w₁ =>
        rw [hev] at hhold₁ hservers₁
        simp only [hev] at hrun
        cases ok with
        | true =>
          refine .head (s := (lock, ⟨.add (k + 1), w₁⟩)) ?_
            (ih (hhold₁.trans hhold) (by rw [hservers₁]; omega) hrun)
          simp [Proc.step, hhold, hsome, htagged, hev]
        | false =>
          rw [Except.ok.injEq] at hrun
          subst hrun
          exact .single (by simp [Proc.step, hhold, hsome, htagged, hev])

/-- The steps of the loop that deletes the listeners lead to the test of the result. -/
theorem steps_delListeners (hhold : w.holdLock = true) (rslt : WaitResult) {n k : ℕ}
    (hk : k + n = w.servers.length) :
    Steps env (lock, ⟨.del k rslt, w⟩)
      (lock, ⟨.post rslt, delListeners env (List.range' k n) w⟩) := by
  -- the induction is on the number of listeners that are left
  induction n generalizing k w with
  | zero =>
    have hnone : w.servers[k]? = none := by simp [← hk]
    exact .single (by simp [Proc.step, hhold, hnone, delListeners])
  | succ n ih =>
    have hsome : w.servers[k]? = some w.servers[k] := List.getElem?_eq_getElem (by omega)
    rw [List.range'_succ, delListeners]
    simp only [hsome]
    -- a tagged listener loses its tag, and the others their registrations
    split
    next htagged =>
      have hrest := ih (w := { w with
        servers := w.servers.modify k fun server => { server with tagged := false } }) hhold
        (k := k + 1) (by simp only [List.length_modify]; omega)
      exact .head (by simp [Proc.step, hhold, hsome, htagged]) hrest
    next htagged =>
      obtain ⟨hhold₁, hservers₁⟩ := epollDelEvent_keeps env w w.servers[k].slot
      cases hev : epollDelEvent env w w.servers[k].slot with
      | mk ok w₁ =>
        rw [hev] at hhold₁ hservers₁
        cases ok with
        | true =>
          have hrest := ih (hhold₁.trans hhold) (k := k + 1) (by rw [hservers₁]; omega)
          exact .head (by simp [Proc.step, hhold, hsome, htagged, hev]) hrest
        | false => exact .single (by simp [Proc.step, hhold, hsome, htagged, hev])

/-- Both loops, which only run when the worker has the accept lock. -/
theorem steps_watchListeners (hrun : watchListeners env w = .ok w') :
    Steps env (lock, ⟨.add 0, w⟩) (lock, ⟨.wait, w'⟩) := by
  unfold watchListeners at hrun
  split at hrun
  next hhold =>
    rw [List.range_eq_range'] at hrun
    exact steps_addListeners hhold (Nat.zero_add _) hrun
  next hhold =>
    rw [Except.ok.injEq] at hrun
    subst hrun
    exact .single (by simp [Proc.step, hhold])

theorem steps_unwatchListeners (rslt : WaitResult) :
    Steps env (lock, ⟨.del 0 rslt, w⟩) (lock, ⟨.post rslt, unwatchListeners env w⟩) := by
  unfold unwatchListeners
  split
  next hhold =>
    rw [List.range_eq_range']
    exact steps_delListeners hhold rslt (Nat.zero_add _)
  next hhold => exact .single (by simp [Proc.step, hhold])

/-- The steps at `EXIT` release the lock and lead to the return. -/
theorem steps_releaseAcceptLock (ok : Bool) :
    ∃ lock', Steps env (lock, ⟨.exit ok, w⟩) (lock', ⟨.ret ok, releaseAcceptLock w⟩) := by
  by_cases hhold : w.holdLock = true
  · refine ⟨spinlockUnlock, .head (s := (spinlockUnlock, ⟨.clear ok, w.record .spinlockUnlock⟩))
      ?_ (.single ?_)⟩
    · simp [Proc.step, hhold]
    · simp [Proc.step, releaseAcceptLock, hhold]
  · exact ⟨lock, .single (by simp [Proc.step, releaseAcceptLock, hhold])⟩

/-- When the compare-and-set gives what `epoll_process_events` assumes of `spinlock_try`, the steps
of a worker that is left alone make up a whole call. -/
theorem steps_epollProcessEvents {ok : Bool} (htry : env.trySpinlock w = (spinlockTry lock).1)
    (hrun : epollProcessEvents env w = .ok (ok, w')) :
    ∃ lock', Steps env (lock, ⟨.call, w⟩) (lock', ⟨.ret ok, w'⟩) := by
  obtain ⟨lock₁, hsteps₁⟩ := steps_tryAcceptLock htry
  set w₁ := tryAcceptLock env w with hw₁
  cases hwatch : watchListeners env w₁ with
  | error e => simp [Worker.epollProcessEvents, ← hw₁, hwatch, bind, Except.bind] at hrun
  | ok w₂ =>
    simp only [Worker.epollProcessEvents, ← hw₁, hwatch, bind, Except.bind] at hrun
    split at hrun
    · cases hrun
    next hempty =>
      set rslt := env.wait w₂ with hrslt
      set w₃ := unwatchListeners env (w₂.record (.wait rslt)) with hw₃
      have hsteps₂ : Steps env (lock₁, ⟨.add 0, w₁⟩) (lock₁, ⟨.wait, w₂⟩) :=
        steps_watchListeners hwatch
      have hsteps₃ : Steps env (lock₁, ⟨.wait, w₂⟩)
          (lock₁, ⟨.del 0 rslt, w₂.record (.wait rslt)⟩) :=
        .single (by simp [Proc.step, hempty, ← hrslt])
      have hsteps₄ : Steps env (lock₁, ⟨.del 0 rslt, w₂.record (.wait rslt)⟩)
          (lock₁, ⟨.post rslt, w₃⟩) := steps_unwatchListeners rslt
      -- the three ways to the exit
      obtain ⟨w₄, hpost, rfl⟩ : ∃ w₄, Proc.step env lock₁ ⟨.post rslt, w₃⟩ =
          .ok (lock₁, ⟨.exit ok, w₄⟩) ∧ releaseAcceptLock w₄ = w' := by
        cases hcase : rslt <;> simp only [hcase, Except.ok.injEq, Prod.mk.injEq] at hrun <;>
          obtain ⟨rfl, rfl⟩ := hrun <;> exact ⟨_, rfl, rfl⟩
      obtain ⟨lock', hsteps₅⟩ := @steps_releaseAcceptLock env lock₁ w₄ ok
      exact ⟨lock', hsteps₁.trans (hsteps₂.trans (hsteps₃.trans (hsteps₄.trans
        (.head hpost hsteps₅))))⟩

end Calls

/-! ## Hosts -/

/-- The workers of a host and the word of their accept lock. -/
abbrev Host (ι : Type) : Type := System ι (BitVec 64) Proc

/-- Every `EPOLL_CTL_DEL` succeeds: it removes the descriptor, or there was none. -/
def Env.Deletes (env : Env) : Prop :=
  ∀ w i, env.delEvent w i = .ok ∨ env.delEvent w i = .enoent ∧ w.interest (w.sock i).fd = none

/-- A step of one worker, for some results of system calls and callbacks. -/
def Proc.act (lock : BitVec 64) (p : Proc) (lock' : BitVec 64) (p' : Proc) : Prop :=
  ∃ env : Env, env.Valid ∧ env.Deletes ∧ p.step env lock = .ok (lock', p')

/-- Whether the last thing that happened to the accept lock was that the worker got it. -/
def inSection (log : List LogEntry) : Bool :=
  log.foldl (fun held e =>
    match e with
    | .trySpinlock true => true
    | .spinlockUnlock => false
    | _ => held) false

end Hixo
