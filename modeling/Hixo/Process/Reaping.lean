import Mathlib.Data.Int.Notation
import Mathlib.Data.List.Basic

/-!
# Reaping the workers

The loop of `master_main`. It sleeps in `sigsuspend` until a signal is delivered, and reaps at most
one child per turn. Children exit at any time; an exit makes `SIGCHLD` pending, and a signal that is
already pending is not counted twice.

* `MasterLoop`: the loop, its children and the pending signals;
* `iterate`: one turn of the loop behind `sigsuspend`;
* `MasterRun`: the interleavings of exits, signals and turns, with the turns that were taken;
* `TurnOk`: what a turn owes to the children;
* `turnsOk_iff`: when the turns of a run do it.
-/

namespace Hixo

/-- `hixo_status_t` -/
inductive HixoStatus
  | running
  | quit
  | child
  | int
  | hup
  deriving DecidableEq, Repr

/-- Where `master_main` is. -/
inductive LoopPoint
  /-- In `sigsuspend`. -/
  | suspended
  /-- Behind `sigsuspend`. -/
  | woken
  /-- Behind the loop. -/
  | left
  /-- At `assert(0)`. -/
  | aborted
  deriving DecidableEq, Repr

/-- The master in its loop, and what the kernel knows of it. -/
structure MasterLoop where
  point : LoopPoint
  /-- `g_child_count` -/
  childCount : ℤ
  /-- `g_status` -/
  status : HixoStatus := .running
  /-- The children that run. -/
  running : ℕ
  /-- The children that have exited and are not reaped yet. -/
  exited : ℕ := 0
  /-- `SIGCHLD` is pending. -/
  childPending : Bool := false
  /-- `SIGINT` is pending. -/
  intPending : Bool := false
  deriving DecidableEq

namespace MasterLoop

/-! ## The loop -/

/-- `sig_child_handler` -/
def sigChildHandler (s : MasterLoop) : MasterLoop := { s with status := .child }

/-- `sig_int_handler` only prints. -/
def sigIntHandler (s : MasterLoop) : MasterLoop := s

/-- `while (g_child_count)`, up to `sigsuspend`. -/
def test (s : MasterLoop) : MasterLoop :=
  { s with point := if s.childCount = 0 then .left else .suspended }

/-- `waitpid(-1, &status, WNOHANG)` reaps one child that has exited, if there is one. -/
def waitpid (s : MasterLoop) : MasterLoop := { s with exited := s.exited - 1 }

/-- The loop from behind `sigsuspend` up to the next one. -/
def iterate (s : MasterLoop) : MasterLoop :=
  match s.status with
  | .running => s.test
  | .child =>
    let s := s.waitpid
    { s with childCount := s.childCount - 1 }.test
  | .quit | .int | .hup => { s with point := .aborted }

/-- `sigsuspend` returns after the handlers of the chosen signals. -/
def wake (child int : Bool) (s : MasterLoop) : MasterLoop :=
  let s := if child then { s with childPending := false }.sigChildHandler else s
  let s := if int then { s with intPending := false }.sigIntHandler else s
  { s with point := .woken }

/-- A child exits. -/
def childExits (s : MasterLoop) : MasterLoop :=
  { s with running := s.running - 1, exited := s.exited + 1, childPending := true }

/-- The loop is reached with a count of all children, some of which have exited already. -/
def start (running exited : ℕ) (childPending intPending : Bool) : MasterLoop :=
  { point := .suspended, childCount := running + exited, running, exited, childPending,
    intPending : MasterLoop }.test

/-! ## Runs -/

/-- Steps of the children, of the senders of `SIGINT` and of `sigsuspend`. -/
inductive Event : MasterLoop → MasterLoop → Prop
  | childExits {s : MasterLoop} (hrunning : 0 < s.running) : Event s s.childExits
  | sigint (s : MasterLoop) : Event s { s with intPending := true }
  | wake {s : MasterLoop} (child int : Bool) (hpoint : s.point = .suspended)
      (hsome : child = true ∨ int = true) (hchild : child = true → s.childPending = true)
      (hint : int = true → s.intPending = true) : Event s (s.wake child int)

/-- A run from `s₀` to `s`; `turns` are the states in which the turns of the loop began. -/
inductive MasterRun (s₀ : MasterLoop) : List MasterLoop → MasterLoop → Prop
  | start : MasterRun s₀ [] s₀
  | event {turns : List MasterLoop} {s s' : MasterLoop} (hrun : MasterRun s₀ turns s)
      (hevent : Event s s') : MasterRun s₀ turns s'
  | turn {turns : List MasterLoop} {s : MasterLoop} (hrun : MasterRun s₀ turns s)
      (hpoint : s.point = .woken) : MasterRun s₀ (turns ++ [s]) s.iterate

/-- The turn that begins in `s` keeps the account of the children. -/
structure TurnOk (s : MasterLoop) : Prop where
  /-- The count is that of the children that are not reaped. -/
  counted : s.iterate.childCount = s.iterate.running + s.iterate.exited
  /-- It goes down only for a child that was reaped. -/
  reaped : s.iterate.childCount < s.childCount → s.iterate.exited < s.exited
  /-- Back in `sigsuspend` with no `SIGCHLD` pending, no child waits to be reaped. -/
  drained : s.iterate.point = .suspended → s.iterate.childPending = false → s.iterate.exited = 0

/-- With the status `HIXO_STATUS_CHILD` a child has exited, and unless `SIGCHLD` is pending there is
none beyond the one that the turn reaps. -/
structure OneChildPerTurn (s : MasterLoop) : Prop where
  exited : s.status = .child → 0 < s.exited
  pending : s.childPending = false → s.exited ≤ if s.status = .child then 1 else 0

/-- The count is right, and the loop goes on as long as there are children. -/
structure Counted (s : MasterLoop) : Prop where
  count : s.childCount = s.running + s.exited
  status : s.status = .running ∨ s.status = .child
  /-- The test of the loop was passed. -/
  tested : s.point = .suspended ∨ s.point = .woken → s.childCount ≠ 0

variable {s s' s₀ : MasterLoop} {turns : List MasterLoop} {running exited : ℕ}
  {childPending intPending : Bool}

/-- The test of the loop keeps the count of the children when it is right and `g_status` is one of
two values. -/
theorem counted_test (hcount : s.childCount = s.running + s.exited)
    (hstatus : s.status = .running ∨ s.status = .child) : Counted s.test := by
  refine ⟨hcount, hstatus, fun hpoint hzero => ?_⟩
  have hzero : s.childCount = 0 := hzero
  rw [test, if_pos hzero] at hpoint
  rcases hpoint with hpoint | hpoint <;> cases hpoint

theorem counted_start : Counted (start running exited childPending intPending) :=
  counted_test rfl (Or.inl rfl)

/-- Events change neither the count nor the number of children that are not reaped. -/
theorem Counted.event (hs : Counted s) (hevent : Event s s') : Counted s' := by
  cases hevent with
  | childExits hrunning =>
    refine ⟨?_, hs.status, hs.tested⟩
    have hcount := hs.count
    simp only [MasterLoop.childExits]
    omega
  | sigint => exact ⟨hs.count, hs.status, hs.tested⟩
  | wake child int hpoint hsome hchild hint =>
    have hne := hs.tested (Or.inl hpoint)
    cases child with
    | false => cases int <;> exact ⟨hs.count, hs.status, fun _ => hne⟩
    | true => cases int <;> exact ⟨hs.count, Or.inr rfl, fun _ => hne⟩

/-- A turn that collects each child that has exited keeps the count right. -/
theorem Counted.iterate (hs : Counted s) (hone : OneChildPerTurn s) : Counted s.iterate := by
  rw [MasterLoop.iterate]
  rcases hs.status with hstatus | hstatus
  · simp only [hstatus]
    exact counted_test hs.count (Or.inl hstatus)
  · have hexited := hone.exited hstatus
    have hcount := hs.count
    simp only [hstatus]
    refine counted_test ?_ (Or.inr hstatus)
    simp only [waitpid]
    omega

/-- A turn with the status `HIXO_STATUS_RUNNING` only goes back to `sigsuspend`. -/
theorem Counted.turnOk_iff_of_running (hs : Counted s) (hpoint : s.point = .woken)
    (hstatus : s.status = .running) : TurnOk s ↔ OneChildPerTurn s := by
  have hne := hs.tested (Or.inr hpoint)
  have hturn : s.iterate = { s with point := .suspended } := by
    simp only [MasterLoop.iterate, hstatus, test, if_neg hne]
  constructor
  · intro hok
    refine ⟨fun hchild => by simp [hstatus] at hchild, fun hpending => ?_⟩
    have hdrained := hok.drained (by rw [hturn]) (by rw [hturn]; exact hpending)
    rw [hturn] at hdrained
    simp only [hstatus, reduceCtorEq, if_false]
    exact Nat.le_of_eq hdrained
  · intro hone
    refine ⟨by rw [hturn]; exact hs.count, fun hlt => ?_, fun _ hpending => ?_⟩
    · rw [hturn] at hlt
      exact absurd hlt (Int.lt_irrefl _)
    · rw [hturn] at hpending ⊢
      have hle := hone.pending hpending
      simpa [hstatus] using hle

/-- A turn with the status `HIXO_STATUS_CHILD` takes one from the count, and reaps a child if one
has exited. -/
theorem iterate_of_child (hstatus : s.status = .child) :
    s.iterate.childCount = s.childCount - 1 ∧ s.iterate.running = s.running ∧
      s.iterate.exited = s.exited - 1 ∧ s.iterate.childPending = s.childPending ∧
      s.iterate.point = if s.childCount - 1 = 0 then .left else .suspended := by
  simp only [MasterLoop.iterate, hstatus, test, waitpid, and_self]

theorem Counted.turnOk_iff_of_child (hs : Counted s) (hstatus : s.status = .child) :
    TurnOk s ↔ OneChildPerTurn s := by
  have hcount := hs.count
  obtain ⟨hcount', hrunning', hexited', hpending', hpoint'⟩ := iterate_of_child hstatus
  constructor
  · intro hok
    -- the count goes down, so a child must have been reaped
    have hreaped := hok.reaped (by omega)
    rw [hexited'] at hreaped
    refine ⟨fun _ => by omega, fun hpending => ?_⟩
    rw [if_pos hstatus]
    by_contra hmore
    -- one more child is there, so the loop goes back to `sigsuspend`
    have hback : s.childCount - 1 ≠ 0 := by omega
    have hdrained := hok.drained (by rw [hpoint', if_neg hback]) (by rw [hpending', hpending])
    omega
  · intro hone
    have hexited := hone.exited hstatus
    refine ⟨by omega, fun _ => by omega, fun _ hpending => ?_⟩
    have hle := hone.pending (hpending'.symm.trans hpending)
    rw [if_pos hstatus] at hle
    omega

/-- From a right count, a turn is right if and only if at most one child waits for it. -/
theorem Counted.turnOk_iff (hs : Counted s) (hpoint : s.point = .woken) :
    TurnOk s ↔ OneChildPerTurn s := by
  rcases hs.status with hstatus | hstatus
  · exact hs.turnOk_iff_of_running hpoint hstatus
  · exact hs.turnOk_iff_of_child hstatus

/-- As long as at most one child waits for each turn, the count is right. -/
theorem MasterRun.counted (hrun : MasterRun s₀ turns s) (hs₀ : Counted s₀)
    (hone : ∀ t ∈ turns, OneChildPerTurn t) : Counted s := by
  induction hrun with
  | start => exact hs₀
  | event _ hevent ih => exact (ih hone).event hevent
  | turn _ _ ih =>
    refine (ih fun t ht => hone t (List.mem_append_left _ ht)).iterate (hone _ ?_)
    exact List.mem_append_right _ (List.mem_singleton_self _)

/-- The turns of a run are all right if and only if at most one child waits for each of them. -/
theorem turnsOk_iff (hrun : MasterRun (start running exited childPending intPending) turns s) :
    (∀ t ∈ turns, TurnOk t) ↔ ∀ t ∈ turns, OneChildPerTurn t := by
  induction hrun with
  | start => simp
  | event _ _ ih => exact ih
  | @turn turns t hrun hpoint ih =>
    simp only [List.forall_mem_append, List.forall_mem_singleton, ih]
    refine and_congr_right fun hone => ?_
    exact (hrun.counted counted_start hone).turnOk_iff hpoint

/-! ## A sample -/

/-- The loop is reached with two children that run. -/
def twoChildren : MasterLoop := start 2 0 false false

/-- There is a run of one turn in which both children exit before the master wakes up. -/
theorem masterRun_merged :
    MasterRun twoChildren [twoChildren.childExits.childExits.wake true false]
      (twoChildren.childExits.childExits.wake true false).iterate := by
  have hexits : MasterRun twoChildren [] twoChildren.childExits.childExits :=
    (MasterRun.start.event (.childExits (by decide))).event (.childExits (by decide))
  exact (hexits.event (.wake true false rfl (Or.inl rfl) (fun _ => rfl) nofun)).turn rfl

theorem turnsOk_iff_merged :
    (∀ t ∈ [twoChildren.childExits.childExits.wake true false], TurnOk t) ↔
      ∀ t ∈ [twoChildren.childExits.childExits.wake true false], OneChildPerTurn t :=
  turnsOk_iff masterRun_merged

/-- The second child stays, and no signal is left to say so. -/
theorem not_turnsOk_merged :
    ¬∀ running exited childPending intPending turns s,
      MasterRun (start running exited childPending intPending) turns s →
        ∀ t ∈ turns, TurnOk t := by
  intro hall
  have hok := hall 2 0 false false _ _ masterRun_merged _ (List.mem_singleton_self _)
  exact absurd (hok.drained (by decide) (by decide)) (by decide)

end MasterLoop

end Hixo
