import Mathlib.Logic.Relation
import Hixo.Process.Restart

/-!
# The master and its workers

`hixo_main` forks the workers one from the other: the parent of each `fork` becomes a worker, and
the last child the master. The master has no child process, and nothing sets `g_child_count`, so
that `master_main` returns at once and the master removes the segment of the accept lock whatever
the workers do.

* `Segment`, `Process`, `Host`: the segment of the accept lock, and the processes in the order in
  which they were forked;
* `Step`, `Reachable`: the steps of the processes, in any order;
* `reachable_chain`, `masterMain_leaves`: the roles of the processes, and what the master does;
* `orderedExit_iff`: no number of workers that `hixo_main` starts keeps the master waiting.
-/

namespace Hixo.Spawn

open Worker Programs

/-! ## The processes -/

/-- `HIXO_MAX_PSS` -/
def hixoMaxPss : ℕ := 1024

/-- The segment of the accept lock. -/
structure Segment where
  /-- Whether `IPC_RMID` was called for it. -/
  removed : Bool := false
  /-- How many processes have attached it. -/
  attached : ℕ := 0
  deriving DecidableEq, Repr

/-- Whether `shmat` finds the segment. The kernel destroys it when it was removed and nobody has
attached it. -/
def Segment.present (seg : Segment) : Bool := !seg.removed || 0 < seg.attached

/-- Where a process is. -/
inductive Pc
  /-- In the loop of `hixo_spawn_workers`, with this value of `i`. -/
  | spawning (i : ℕ)
  /-- In `event_core_init_worker`, before `shmat`. -/
  | initWorker
  /-- In `worker_main_core`, with the segment attached. -/
  | runLoop
  /-- In `worker_main_core`, before the `exit_master` callback of the event core. -/
  | exitWorker
  /-- In `master_main`, at the head of its loop. -/
  | masterMain
  /-- In `hixo_main`, before the `exit_master` callback of the event core. -/
  | exit
  /-- The process is gone. -/
  | terminated
  deriving DecidableEq, Repr

/-- A process, with its copies of the global variables. -/
structure Process where
  pc : Pc
  /-- Whether `m_shmid` is not `-1`. -/
  shmidSet : Bool := true
  /-- Whether the segment is attached. -/
  attached : Bool := false
  /-- `g_child_count` -/
  childCount : ℕ := 0
  /-- `gp_ps_info`, where `none` is `NULL`. -/
  psInfo : Option ℕ := none
  deriving DecidableEq, Repr

/-- The segment and the processes; process `k + 1` is the child of process `k`. -/
structure Host where
  segment : Segment := {}
  procs : List Process
  deriving DecidableEq, Repr

namespace Host

/-- Process `k` becomes `p`. -/
def put (s : Host) (k : ℕ) (p : Process) : Host := { s with procs := s.procs.set k p }

/-- The process is gone, and the kernel detaches the segment. -/
def terminate (s : Host) (k : ℕ) (p : Process) : Host :=
  { s.put k { p with pc := .terminated, attached := false } with
    segment := if p.attached then { s.segment with attached := s.segment.attached - 1 }
      else s.segment }

/-- `fork()` in the loop of `hixo_spawn_workers`: the parent becomes worker `i` and leaves the
loop, and the child goes on in it. -/
def fork (s : Host) (k i : ℕ) (p : Process) : Host :=
  { s with procs := s.procs.set k { p with pc := .initWorker, psInfo := some i } ++
      [{ p with pc := .spawning (i + 1) }] }

/-- The end of the loop of `hixo_spawn_workers`, and the branch that `hixo_main` takes. -/
def spawned (s : Host) (n k : ℕ) (p : Process) : Host :=
  -- without a `fork`, `cpid` is still `-1`
  if n = 0 then s.put k { p with pc := .exit }
  else if p.psInfo = none then s.put k { p with pc := .masterMain }
  else s.terminate k p

/-- `event_core_init_worker()`: after an error `worker_main` calls `worker_main_core` again. -/
def eventCoreInitWorker (s : Host) (k : ℕ) (p : Process) : Host :=
  if !p.shmidSet then s.terminate k p
  else if s.segment.present then
    { s.put k { p with pc := .runLoop, attached := true } with
      segment := { s.segment with attached := s.segment.attached + 1 } }
  else s

/-- `event_core_exit_master()`, after which the process is at `pc`. -/
def eventCoreExitMaster (s : Host) (k : ℕ) (p : Process) (pc : Pc) : Host :=
  { s.put k { p with pc, shmidSet := false } with
    segment := if p.shmidSet then { s.segment with removed := true } else s.segment }

end Host

/-- Process `k` takes a step when `hixo_main` was asked for `n` workers. -/
inductive Step (n k : ℕ) (s : Host) : Host → Prop
  /-- `fork` succeeds. -/
  | fork {p : Process} {i : ℕ} (hp : s.procs[k]? = some p) (hpc : p.pc = .spawning i)
      (hi : i < n) : Step n k s (s.fork k i p)
  /-- `fork` fails. -/
  | forkFails {p : Process} {i : ℕ} (hp : s.procs[k]? = some p) (hpc : p.pc = .spawning i)
      (hi : i < n) : Step n k s (s.put k { p with pc := .exit })
  /-- The loop of `hixo_spawn_workers` ends. -/
  | spawned {p : Process} {i : ℕ} (hp : s.procs[k]? = some p) (hpc : p.pc = .spawning i)
      (hi : n ≤ i) : Step n k s (s.spawned n k p)
  /-- A worker calls `event_core_init_worker`. -/
  | initWorker {p : Process} (hp : s.procs[k]? = some p) (hpc : p.pc = .initWorker) :
      Step n k s (s.eventCoreInitWorker k p)
  /-- The rest of the initialisation fails, or the run loop ends. -/
  | leave {p : Process} (hp : s.procs[k]? = some p) (hpc : p.pc = .runLoop) :
      Step n k s (s.put k { p with pc := .exitWorker })
  /-- A worker calls `event_core_exit_master`, and `worker_main` calls `worker_main_core`
  again. -/
  | exitWorker {p : Process} (hp : s.procs[k]? = some p) (hpc : p.pc = .exitWorker) :
      Step n k s (s.eventCoreExitMaster k p .initWorker)
  /-- A worker is killed, or an assertion in it fails. -/
  | killed {p : Process} (hp : s.procs[k]? = some p)
      (hpc : p.pc = .initWorker ∨ p.pc = .runLoop ∨ p.pc = .exitWorker) :
      Step n k s (s.terminate k p)
  /-- `master_main` learns that a child terminated. -/
  | reap {p child : Process} (hp : s.procs[k]? = some p) (hpc : p.pc = .masterMain)
      (hcount : p.childCount ≠ 0) (hchild : s.procs[k + 1]? = some child)
      (hgone : child.pc = .terminated) :
      Step n k s (s.put k { p with childCount := p.childCount - 1 })
  /-- `master_main` returns. -/
  | masterReturns {p : Process} (hp : s.procs[k]? = some p) (hpc : p.pc = .masterMain)
      (hcount : p.childCount = 0) : Step n k s (s.put k { p with pc := .exit })
  /-- `hixo_main` calls `event_core_exit_master` and returns. -/
  | exit {p : Process} (hp : s.procs[k]? = some p) (hpc : p.pc = .exit) :
      Step n k s (s.eventCoreExitMaster k p .terminated)

/-- `hixo_main` before `hixo_spawn_workers`: an assertion stops it when there are too many
workers. -/
def hixoMain (n : ℕ) : Host :=
  { procs := [{ pc := if n < hixoMaxPss then .spawning 0 else .terminated }] }

/-- What the processes can reach in any order of their steps. -/
def Reachable (n : ℕ) : Host → Prop :=
  Relation.ReflTransGen (fun s s' => ∃ k, Step n k s s') (hixoMain n)

/-! ## What the master does -/

/-- In every state that is reached: the processes form a chain, `g_child_count` is 0 in all of
them, and only process `n` gets to `master_main`. -/
structure Chain (n : ℕ) (s : Host) : Prop where
  length : s.procs.length ≤ n + 1
  childCount : ∀ (k : ℕ) (p : Process), s.procs[k]? = some p → p.childCount = 0
  /-- The process that is still in `hixo_spawn_workers` is the last one. -/
  spawning : ∀ (k : ℕ) (p : Process) (i : ℕ), s.procs[k]? = some p → p.pc = .spawning i →
    i = k ∧ k + 1 = s.procs.length ∧ p.psInfo = none
  master : ∀ (k : ℕ) (p : Process), s.procs[k]? = some p → p.pc = .masterMain →
    k = n ∧ p.psInfo = none

/-- The chain stays a chain when a process gets on without forking. -/
theorem Chain.put {n k : ℕ} {s s' : Host} {p r : Process} (h : Chain n s)
    (hprocs : s'.procs = s.procs.set k r) (hp : s.procs[k]? = some p)
    (hcount : r.childCount = 0) (hspawning : ∀ i, r.pc ≠ .spawning i)
    (hmaster : r.pc = .masterMain → k = n ∧ r.psInfo = none) : Chain n s' := by
  have hk : k < s.procs.length := (List.getElem?_eq_some_iff.mp hp).1
  -- whatever stands in the new table is the process put there or stood in the old one
  have hget {j : ℕ} {q : Process} (hq : s'.procs[j]? = some q) :
      j = k ∧ q = r ∨ s.procs[j]? = some q := by
    rw [hprocs, List.getElem?_set] at hq
    split at hq
    next hkj =>
      exact Or.inl ⟨hkj.symm, (Option.some.inj hq).symm⟩
    next => exact Or.inr hq
  have hlength : s'.procs.length = s.procs.length := by rw [hprocs, List.length_set]
  refine ⟨hlength ▸ h.length, fun j q hq => ?_, fun j q i hq hpc => ?_, fun j q hq hpc => ?_⟩
  · rcases hget hq with ⟨-, rfl⟩ | hold
    · exact hcount
    · exact h.childCount j q hold
  · rcases hget hq with ⟨-, rfl⟩ | hold
    · exact absurd hpc (hspawning i)
    · rw [hlength]
      exact h.spawning j q i hold hpc
  · rcases hget hq with ⟨rfl, rfl⟩ | hold
    · exact hmaster hpc
    · exact h.master j q hold hpc

/-- The chain stays a chain when a process is gone. -/
theorem Chain.terminate {n k : ℕ} {s : Host} {p : Process} (h : Chain n s)
    (hp : s.procs[k]? = some p) : Chain n (s.terminate k p) :=
  h.put (r := { p with pc := .terminated, attached := false }) rfl hp (h.childCount k p hp)
    (by simp) (by simp)

/-- The chain stays a chain when the process that spawns forks the next one. -/
theorem Chain.fork {n k i : ℕ} {s : Host} {p : Process} (h : Chain n s)
    (hp : s.procs[k]? = some p) (hpc : p.pc = .spawning i) (hi : i < n) :
    Chain n (s.fork k i p) := by
  obtain ⟨rfl, hlast, hinfo⟩ := h.spawning k p i hp hpc
  -- the parent stays in the chain, and the child is new
  set parent : Process := { p with pc := .initWorker, psInfo := some i } with hparent
  have hput : Chain n (s.put i parent) :=
    h.put rfl hp (h.childCount i p hp) (by simp [hparent]) (by simp [hparent])
  have hlength : (s.put i parent).procs.length = i + 1 := hlast ▸ List.length_set
  have hget {j : ℕ} {q : Process} (hq : (s.fork i i p).procs[j]? = some q) :
      (s.put i parent).procs[j]? = some q ∨
        j = i + 1 ∧ q = { p with pc := .spawning (i + 1) } := by
    have happend : (s.fork i i p).procs =
        (s.put i parent).procs ++ [{ p with pc := .spawning (i + 1) }] := rfl
    rw [happend, List.getElem?_append] at hq
    split at hq
    · exact Or.inl hq
    next hj =>
      rw [hlength] at hj hq
      rw [List.getElem?_singleton, Option.ite_none_right_eq_some, Option.some.injEq] at hq
      obtain ⟨hzero, hchild⟩ := hq
      exact Or.inr ⟨by omega, hchild.symm⟩
  have hlength' : (s.fork i i p).procs.length = i + 2 := by
    simp [Host.fork, ← hlast]
  refine ⟨by omega, fun j q hq => ?_, fun j q i' hq hpc' => ?_, fun j q hq hpc' => ?_⟩
  · rcases hget hq with hold | ⟨rfl, rfl⟩
    · exact hput.childCount j q hold
    · exact h.childCount i p hp
  · rcases hget hq with hold | ⟨rfl, rfl⟩
    · -- nobody else is in the loop
      obtain ⟨rfl, hj, -⟩ := hput.spawning j q i' hold hpc'
      obtain rfl : i' = i := by omega
      rw [Host.put, List.getElem?_set_self (by omega)] at hold
      rw [← Option.some.inj hold] at hpc'
      cases hpc'
    · cases hpc'
      exact ⟨rfl, by omega, hinfo⟩
  · rcases hget hq with hold | ⟨rfl, rfl⟩
    · exact hput.master j q hold hpc'
    · cases hpc'

/-- The chain stays a chain in every step of every process. -/
theorem Chain.step {n k : ℕ} {s s' : Host} (h : Chain n s) (hstep : Step n k s s') :
    Chain n s' := by
  cases hstep with
  | fork hp hpc hi => exact h.fork hp hpc hi
  | @forkFails p i hp _ _ => exact h.put rfl hp (h.childCount k p hp) (by simp) (by simp)
  | @spawned p i hp hpc hi =>
    obtain ⟨rfl, hlast, hinfo⟩ := h.spawning k p i hp hpc
    have hcount := h.childCount i p hp
    have hlength := h.length
    rw [Host.spawned]
    -- with no worker at all there was no `fork`; otherwise the process is the last child
    split
    · exact h.put rfl hp hcount (by simp) (by simp)
    · exact h.put rfl hp hcount (by simp) fun _ => ⟨by omega, hinfo⟩
  | @initWorker p hp _ =>
    rw [Host.eventCoreInitWorker]
    split
    · exact h.terminate hp
    split
    · exact h.put (r := { p with pc := .runLoop, attached := true }) rfl hp
        (h.childCount k p hp) (by simp) (by simp)
    · exact h
  | @leave p hp _ => exact h.put rfl hp (h.childCount k p hp) (by simp) (by simp)
  | @exitWorker p hp _ =>
    exact h.put (r := { p with pc := .initWorker, shmidSet := false }) rfl hp
      (h.childCount k p hp) (by simp) (by simp)
  | killed hp _ => exact h.terminate hp
  | @reap p child hp _ hcount _ _ => exact absurd (h.childCount k p hp) hcount
  | @masterReturns p hp _ _ => exact h.put rfl hp (h.childCount k p hp) (by simp) (by simp)
  | @exit p hp _ =>
    exact h.put (r := { p with pc := .terminated, shmidSet := false }) rfl hp
      (h.childCount k p hp) (by simp) (by simp)

/-- Before the first step there is one process, which is about to fork when the number of workers is
allowed. -/
theorem getElem?_hixoMain {n k : ℕ} {p : Process} (hp : (hixoMain n).procs[k]? = some p) :
    k = 0 ∧ p = { pc := if n < hixoMaxPss then .spawning 0 else .terminated } := by
  rw [hixoMain, List.getElem?_singleton, Option.ite_none_right_eq_some, Option.some.injEq] at hp
  exact ⟨hp.1, hp.2.symm⟩

/-- The chain holds in every state that is reached. -/
theorem reachable_chain {n : ℕ} {s : Host} (hs : Reachable n s) : Chain n s := by
  -- at the start there is one process, which is about to create the first worker or has given up
  induction hs with
  | refl =>
    refine ⟨by simp [hixoMain], fun k p hp => ?_, fun k p i hp hpc => ?_, fun k p hp hpc => ?_⟩
    · obtain ⟨-, rfl⟩ := getElem?_hixoMain hp
      rfl
    · obtain ⟨rfl, rfl⟩ := getElem?_hixoMain hp
      dsimp only at hpc
      split at hpc <;> cases hpc
      exact ⟨rfl, rfl, rfl⟩
    · obtain ⟨rfl, rfl⟩ := getElem?_hixoMain hp
      dsimp only at hpc
      split at hpc <;> cases hpc
  | tail _ hstep ih =>
    obtain ⟨k, hstep⟩ := hstep
    exact ih.step hstep

/-- The master never waits: wherever the workers are, its only step leaves `master_main`. -/
theorem masterMain_leaves {n k : ℕ} {s s' : Host} {p : Process} (hs : Reachable n s)
    (hp : s.procs[k]? = some p) (hpc : p.pc = .masterMain) :
    k = n ∧ s.procs[k + 1]? = none ∧
      (Step n k s s' ↔ s' = s.put k { p with pc := .exit }) := by
  have h := reachable_chain hs
  obtain ⟨rfl, -⟩ := h.master k p hp hpc
  have hcount := h.childCount k p hp
  have hsame {q : Process} (hq : s.procs[k]? = some q) : q = p :=
    Option.some.inj (hq.symm.trans hp)
  -- a process at `master_main` is the last one, which has no child to wait for
  refine ⟨rfl, List.getElem?_eq_none h.length, fun hstep => ?_, ?_⟩
  · cases hstep with
    | masterReturns hq _ _ => rw [hsame hq]
    | reap hq _ hne _ _ => exact absurd hcount (hsame hq ▸ hne)
    | killed hq hpc' =>
      rw [hsame hq, hpc] at hpc'
      simp at hpc'
    | fork hq hpc' | forkFails hq hpc' | spawned hq hpc' | initWorker hq hpc'
    | leave hq hpc' | exitWorker hq hpc' | exit hq hpc' =>
      rw [hsame hq, hpc] at hpc'
      cases hpc'
  · rintro rfl
    exact .masterReturns hp hpc hcount

/-! ## The order of the exits -/

/-- The master calls `event_core_exit_master` only after all `n` workers have terminated. -/
def MasterWaits (n : ℕ) : Prop :=
  ∀ s s' p, Reachable n s → s.procs[n]? = some p → p.pc = .exit → Step n n s s' →
    ∀ k < n, ∃ q, s.procs[k]? = some q ∧ q.pc = .terminated

/-- The `shmat` of every worker finds the segment. -/
def AttachFinds (n : ℕ) : Prop :=
  ∀ s k p, Reachable n s → k < n → s.procs[k]? = some p → p.pc = .initWorker →
    p.shmidSet = true → s.segment.present = true

/-- The workers when none of them has taken a step. -/
def freshWorkers (n : ℕ) : List Process :=
  (List.range n).map fun i => { pc := .initWorker, psInfo := some i }

/-- They with one more process. -/
def withLast (n : ℕ) (p : Process) (segment : Segment) : Host :=
  { segment, procs := freshWorkers n ++ [p] }

section WithLast

variable {n : ℕ} {p p' : Process} {segment : Segment}

theorem length_freshWorkers (n : ℕ) : (freshWorkers n).length = n := by
  simp [freshWorkers]

theorem getElem?_withLast : (withLast n p segment).procs[n]? = some p := by
  rw [withLast, List.getElem?_append_right (length_freshWorkers n).le, length_freshWorkers,
    Nat.sub_self]
  rfl

theorem getElem?_withLast_of_lt {k : ℕ} (hk : k < n) :
    (withLast n p segment).procs[k]? = some { pc := .initWorker, psInfo := some k } := by
  rw [withLast, List.getElem?_append_left (by rwa [length_freshWorkers]), freshWorkers,
    List.getElem?_map, List.getElem?_range hk]
  rfl

theorem set_withLast :
    (withLast n p segment).procs.set n p' = (withLast n p' segment).procs := by
  rw [withLast, List.set_append_right _ _ (length_freshWorkers n).le, length_freshWorkers,
    Nat.sub_self]
  rfl

theorem put_withLast : (withLast n p segment).put n p' = withLast n p' segment :=
  congrArg (fun procs => Host.mk segment procs) set_withLast

end WithLast

/-- The processes before the `fork` with this value of `i`. -/
theorem reachable_spawning {n i : ℕ} (hmax : n < hixoMaxPss) (hi : i ≤ n) :
    Reachable n (withLast i { pc := .spawning i } {}) := by
  induction i with
  | zero =>
    -- before the first fork the table is the one that `main` starts with
    have hstart : hixoMain n = withLast 0 { pc := .spawning 0 } {} := by
      rw [hixoMain, if_pos hmax]
      rfl
    rw [← hstart]
    exact .refl
  | succ i ih =>
    have hfork : (withLast i { pc := .spawning i } {}).fork i i { pc := .spawning i } =
        withLast (i + 1) { pc := .spawning (i + 1) } {} := by
      rw [Host.fork, set_withLast]
      simp [withLast, freshWorkers, List.range_succ]
    rw [← hfork]
    exact (ih (by omega)).tail ⟨i, .fork getElem?_withLast rfl (by omega)⟩

/-- The master gets to its exit before any worker has taken a step. -/
theorem reachable_exit {n : ℕ} (hn : n ≠ 0) (hmax : n < hixoMaxPss) :
    Reachable n (withLast n { pc := .exit } {}) := by
  have hspawned : (withLast n { pc := .spawning n } {}).spawned n n { pc := .spawning n } =
      withLast n { pc := .masterMain } {} := by
    rw [Host.spawned, if_neg hn, if_pos rfl, put_withLast]
  have hmaster : Reachable n (withLast n { pc := .masterMain } {}) := by
    rw [← hspawned]
    exact (reachable_spawning hmax le_rfl).tail ⟨n, .spawned getElem?_withLast rfl le_rfl⟩
  have hreturns : (withLast n { pc := .masterMain } {}).put n { pc := .exit } =
      withLast n { pc := .exit } {} := put_withLast
  rw [← hreturns]
  exact hmaster.tail ⟨n, .masterReturns getElem?_withLast rfl rfl⟩

/-- The master may take the step in which it removes the segment. -/
theorem step_exit (n : ℕ) : Step n n (withLast n { pc := .exit } {})
    (withLast n { pc := .terminated, shmidSet := false } { removed := true }) := by
  have hexit : (withLast n { pc := .exit } {}).eventCoreExitMaster n { pc := .exit } .terminated =
      withLast n { pc := .terminated, shmidSet := false } { removed := true } := by
    rw [Host.eventCoreExitMaster, put_withLast]
    rfl
  rw [← hexit]
  exact .exit getElem?_withLast rfl

theorem not_masterWaits {n : ℕ} (hn : n ≠ 0) (hmax : n < hixoMaxPss) : ¬MasterWaits n := by
  intro hwaits
  obtain ⟨q, hq, hgone⟩ := hwaits _ _ _ (reachable_exit hn hmax) getElem?_withLast rfl
    (step_exit n) 0 (Nat.pos_of_ne_zero hn)
  rw [getElem?_withLast_of_lt (Nat.pos_of_ne_zero hn), Option.some.injEq] at hq
  rw [← hq] at hgone
  cases hgone

theorem not_attachFinds {n : ℕ} (hn : n ≠ 0) (hmax : n < hixoMaxPss) : ¬AttachFinds n := by
  intro hfinds
  have hpresent := hfinds _ 0 _ ((reachable_exit hn hmax).tail ⟨n, step_exit n⟩)
    (Nat.pos_of_ne_zero hn) (getElem?_withLast_of_lt (Nat.pos_of_ne_zero hn)) rfl rfl
  cases hpresent

/-- With too many workers no process takes a step. -/
theorem no_step_hixoMain {n k : ℕ} {s' : Host} (hmax : hixoMaxPss ≤ n) :
    ¬Step n k (hixoMain n) s' := by
  have hgone {p : Process} (hp : (hixoMain n).procs[k]? = some p) : p.pc = .terminated := by
    obtain ⟨-, rfl⟩ := getElem?_hixoMain hp
    exact if_neg (not_lt.mpr hmax)
  intro hstep
  cases hstep with
  | killed hp hpc =>
    rw [hgone hp] at hpc
    simp at hpc
  | fork hp hpc | forkFails hp hpc | spawned hp hpc | initWorker hp hpc | leave hp hpc
  | exitWorker hp hpc | reap hp hpc | masterReturns hp hpc | exit hp hpc =>
    rw [hgone hp] at hpc
    cases hpc

theorem reachable_aborted {n : ℕ} {s : Host} (hmax : hixoMaxPss ≤ n) (hs : Reachable n s) :
    s = hixoMain n := by
  induction hs with
  | refl => rfl
  | tail _ hstep ih =>
    obtain ⟨k, hstep⟩ := hstep
    rw [ih] at hstep
    exact absurd hstep (no_step_hixoMain hmax)

/-- The master outlives the workers, and their `shmat` finds the segment, exactly when there are
so many of them that `hixo_main` stops before it starts any. -/
theorem orderedExit_iff {n : ℕ} (hn : 1 ≤ n) :
    MasterWaits n ∧ AttachFinds n ↔ hixoMaxPss ≤ n := by
  constructor
  · -- below the maximum `master_main` is reached, and it returns while the workers run
    rintro ⟨hwaits, -⟩
    by_contra hmax
    exact not_masterWaits (by omega) (by omega) hwaits
  · intro hmax
    refine ⟨fun s s' p hs hp hpc => ?_, fun s k p hs hk hp hpc => ?_⟩
    · obtain rfl := reachable_aborted hmax hs
      obtain ⟨rfl, rfl⟩ := getElem?_hixoMain hp
      omega
    · obtain rfl := reachable_aborted hmax hs
      obtain ⟨rfl, rfl⟩ := getElem?_hixoMain hp
      simp [not_lt.mpr hmax] at hpc

theorem orderedExit_iff_one : MasterWaits 1 ∧ AttachFinds 1 ↔ hixoMaxPss ≤ 1 :=
  orderedExit_iff le_rfl

/-- With one worker, the master removes the segment before the worker calls `shmat`. -/
theorem not_orderedExit_one : ¬MasterWaits 1 ∧ ¬AttachFinds 1 :=
  ⟨not_masterWaits (by decide) (by decide), not_attachFinds (by decide) (by decide)⟩

/-! ## The exit of the master -/

theorem keepsSegment_exitListener {w w' : Worker} {server : Server}
    (h : w.exitListener server = .ok w') : KeepsSegment w w' := by
  unfold exitListener at h
  split at h
  · cases h
  · obtain ⟨w₁, hrm, hfree⟩ := exists_of_bind_eq_ok h
    have hclose : KeepsSegment w₁ (w₁.closeFd (w₁.sock server.slot).fd) := ⟨rfl, rfl, rfl⟩
    exact ((keepsSegment_assertRmNode hrm).trans hclose).trans (keepsSegment_freeResource hfree)

/-- In the state that `event_core_init_master` left, `event_core_exit_master` gets to its end, and
removes the segment. -/
theorem eventCoreExitMaster_of_initMaster {boot : BootEnv} {maxConnections : ℕ}
    {apps : List AppCtx} {w : Worker} (hboot : boot.FreshFds)
    (hrun : eventCoreInitMaster boot maxConnections apps {} = .ok (true, w)) :
    ∃ id w', w.shmid = some id ∧ id ∈ w.segments ∧ w.eventCoreExitMaster = .ok w' ∧
      w'.shmid = none ∧ w'.segments = w.segments.erase id := by
  -- the listeners to close are among the slots that the cache handed out, and none comes twice
  obtain ⟨⟨id, hshmid, hsegment⟩, -, -⟩ := eventCoreInitMaster_keeps hrun
  obtain ⟨free, conns, h⟩ := booting_of_eventCoreInitMaster hboot hrun
  have hsub : w.servers.map Server.slot ⊆ conns := by
    intro i hi
    exact List.mem_reverse.mp (h.listeners ▸ hi)
  have hnodup : (w.servers.map Server.slot).Nodup := by
    show w.listeners.Nodup
    rw [h.listeners]
    exact List.nodup_reverse.mpr h.lists.nodup_conns
  obtain ⟨w₁, free₁, hexit, -⟩ :=
    foldlM_exitListener h.lists h.descriptors hsub hnodup h.untagged
  have hkeeps : KeepsSegment w w₁ :=
    foldlM_invariant hexit ⟨rfl, rfl, rfl⟩ fun _ _ _ _ hkeeps hone =>
      hkeeps.trans (keepsSegment_exitListener hone)
  refine ⟨id, { w₁.destroyResource.shmRemove with shmid := none }, hshmid, hsegment, ?_, rfl, ?_⟩
  · rw [eventCoreExitMaster, exitListeners, hexit]
    rfl
  · simp [shmRemove, destroyResource, hkeeps.shmid, hshmid, hkeeps.segments]

end Hixo.Spawn
