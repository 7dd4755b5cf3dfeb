import Mathlib.Data.PNat.Notation
import Hixo.Process.Spawn

/-!
# Forking the workers

`hixo_spawn_workers` on the memory of one process. A `fork` splits a process in two, so that a
call of the function returns in several processes: the result is the list of them, in the order
in which they were forked, each with what it returns and with its own copy of the globals.

* `PsInfo`, `Globals`: the entries of `ga_pss_info`, and the globals of a process;
* `spawnLoop`, `hixoSpawnWorkers`: the code, over the results of the `fork` calls;
* `SpawnChain`: some workers, and one more process;
* `hixoSpawnWorkers_spec`: what is returned in which process;
* `not_spawnChain_of_hixoMaxPss_lt`: more workers than `ga_pss_info` has entries;
* `psInfo_hixoSpawnWorkers`: the same in terms of the processes of a host;
* `forked_of_mem_spawnLoop`, `exists_failed_spawnLoop`: which process sees a `fork` fail.
-/

namespace Hixo

open Spawn

/-- A set of signals, by their numbers. -/
abbrev SigSet : Type := ℕ → Bool

/-- `sigfillset` -/
def filledMask : SigSet := fun _ => true

/-- `hixo_ps_info_t` -/
structure PsInfo where
  /-- `m_pid` -/
  pid : ℤ := 0
  /-- `m_cpuid` -/
  cpuid : ℤ := 0
  /-- `m_power` -/
  power : ℤ := 0

/-- The globals of a process that `hixo_spawn_workers` works on. -/
structure Globals where
  /-- `ga_pss_info`, of which the first `HIXO_MAX_PSS` entries exist. -/
  pssInfo : ℕ → PsInfo := fun _ => {}
  /-- `gp_ps_info`, as an index; `none` is `NULL`. -/
  psInfo : Option ℕ := none
  /-- The signal mask. -/
  mask : SigSet := fun _ => false
  /-- What the calls of `fork` have returned in this process and those it comes from. -/
  forked : List ℤ := []

/-- Ways in which a process breaks off. -/
inductive ProcessFault
  /-- There is no such entry of `ga_pss_info`. -/
  | outOfBounds
  /-- `M_NCPUS` is 0. -/
  | divisionByZero
  deriving DecidableEq, Repr

namespace Globals

/-- `fork()` returns `rslt`. -/
def afterFork (g : Globals) (rslt : ℤ) : Globals := { g with forked := g.forked ++ [rslt] }

/-- Entry `i` for the child `pid`, in the parent. -/
def enterPsInfo (g : Globals) (ncpus : ℤ) (i : ℕ) (pid : ℕ+) : Except ProcessFault Globals :=
  if hixoMaxPss ≤ i then .error .outOfBounds
  else if ncpus = 0 then .error .divisionByZero
  else
    .ok { g with
      pssInfo := Function.update g.pssInfo i
        { g.pssInfo i with cpuid := (i : ℤ).tmod ncpus, pid := (pid : ℕ) }
      psInfo := some i }

end Globals

/-- The loop of `hixo_spawn_workers` with `todo` rounds left: the processes that leave it, with
the value of `cpid`. Round `i` calls `fork` in one process; `none` says that it fails. -/
def spawnLoop (forks : ℕ → Option ℕ+) (ncpus : ℤ) :
    ℕ → ℕ → ℤ → Globals → List (Except ProcessFault (ℤ × Globals))
  | 0, _, cpid, g => [.ok (cpid, g)]
  | todo + 1, i, _, g =>
    match forks i with
    | none => [.ok (-1, g.afterFork (-1))]
    | some pid =>
      -- the parent leaves the loop, and the child goes on in it
      ((g.afterFork (pid : ℕ)).enterPsInfo ncpus i pid).map (fun g => (((pid : ℕ) : ℤ), g)) ::
        spawnLoop forks ncpus todo (i + 1) 0 (g.afterFork 0)

/-- `hixo_spawn_workers(n_workers)`: the processes in which it returns. -/
def hixoSpawnWorkers (forks : ℕ → Option ℕ+) (ncpus nWorkers : ℤ) (g : Globals) :
    List (Except ProcessFault (ℤ × Globals)) :=
  (spawnLoop forks ncpus nWorkers.toNat 0 (-1) { g with mask := filledMask }).map
    (Except.map fun r => (r.1, if r.1 = 0 then { r.2 with mask := g.mask } else r.2))

/-! ## The roles -/

/-- The process returns as worker `i`: with a positive value, and with its own entry. -/
def ReturnsWorker (ncpus : ℤ) (i : ℕ) (p : Except ProcessFault (ℤ × Globals)) : Prop :=
  ∃ cpid g, p = .ok (cpid, g) ∧ 0 < cpid ∧ g.psInfo = some i ∧ (g.pssInfo i).pid = cpid ∧
    (g.pssInfo i).cpuid = i % ncpus

/-- The processes are `k` workers with the entries `0`, …, `k - 1`, and one more that returns
`last` and has no entry. -/
structure SpawnChain (ncpus : ℤ) (k : ℕ) (last : ℤ)
    (procs : List (Except ProcessFault (ℤ × Globals))) : Prop where
  length : procs.length = k + 1
  worker : ∀ i < k, ∃ p, procs[i]? = some p ∧ ReturnsWorker ncpus i p
  last : ∃ g, procs[k]? = some (.ok (last, g)) ∧ g.psInfo = none

section Chain

variable {forks : ℕ → Option ℕ+} {ncpus : ℤ} {g : Globals} {i : ℕ}

/-- The parent of round `i` is worker `i`: it enters the process identifier of its child and its own
processor in `ga_pss_info[i]`. -/
theorem enterPsInfo_eq (hi : i < hixoMaxPss) (hcpus : ncpus ≠ 0) (g : Globals) (pid : ℕ+) :
    ∃ g', g.enterPsInfo ncpus i pid = .ok g' ∧ g'.psInfo = some i ∧
      (g'.pssInfo i).pid = (pid : ℕ) ∧ (g'.pssInfo i).cpuid = i % ncpus := by
  refine ⟨_, by rw [Globals.enterPsInfo, if_neg (by omega), if_neg hcpus], rfl, ?_, ?_⟩
  · simp only [Function.update_self]
  · simp only [Function.update_self]
    exact Int.tmod_eq_emod_of_nonneg (Int.natCast_nonneg i)

/-- The rounds from `i` to `i + k`, in none of which `fork` fails, start `k` workers. The process
that is left goes on as `rest` says. -/
theorem spawnLoop_append (hcpus : ncpus ≠ 0) {k : ℕ} (hk : i + k ≤ hixoMaxPss)
    (hforks : ∀ j, i ≤ j → j < i + k → forks j ≠ none) (todo : ℕ) (cpid : ℤ)
    (hg : g.psInfo = none) :
    ∃ workers g' cpid', spawnLoop forks ncpus (k + todo) i cpid g =
        workers ++ spawnLoop forks ncpus todo (i + k) cpid' g' ∧
      workers.length = k ∧ g'.psInfo = none ∧ (k = 0 → cpid' = cpid) ∧ (k ≠ 0 → cpid' = 0) ∧
      ∀ j < k, ∃ p, workers[j]? = some p ∧ ReturnsWorker ncpus (i + j) p := by
  induction k generalizing i cpid g with
  | zero => exact ⟨[], g, cpid, by simp, rfl, hg, fun _ => rfl, by simp, by simp⟩
  | succ k ih =>
    obtain ⟨pid, hpid⟩ := Option.ne_none_iff_exists'.mp (hforks i le_rfl (by omega))
    -- the child goes on with the next round, its `cpid` being 0
    obtain ⟨workers, g', cpid', hloop, hlen, hg', hzero, hpos, hworkers⟩ :=
      ih (i := i + 1) (g := g.afterFork 0) (by omega)
        (fun j hij hj => hforks j (by omega) (by omega)) 0 hg
    have hi : i < hixoMaxPss := by omega
    -- the parent takes entry `i` and leaves the loop as a worker
    obtain ⟨g₁, henter, hinfo, hpid₁, hcpuid⟩ :=
      enterPsInfo_eq hi hcpus (g.afterFork (pid : ℕ)) pid
    have hcpid : cpid' = 0 := by
      by_cases hk : k = 0
      · exact hzero hk
      · exact hpos hk
    refine ⟨.ok ((pid : ℕ), g₁) :: workers, g', cpid', ?_, by simp [hlen], hg', by simp,
      fun _ => hcpid, fun j hj => ?_⟩
    · rw [Nat.succ_add, spawnLoop, hpid]
      dsimp only
      rw [henter, hloop, List.cons_append, Nat.add_right_comm i 1 k]
      rfl
    · cases j with
      | zero =>
        exact ⟨_, rfl, _, g₁, rfl, by exact_mod_cast pid.2, hinfo, hpid₁, hcpuid⟩
      | succ j =>
        obtain ⟨p, hp, hworker⟩ := hworkers j (by omega)
        exact ⟨p, hp, by rwa [Nat.add_right_comm i 1 j] at hworker⟩

/-- The end of the loop gives the signal mask back in the master, and changes no role. -/
theorem SpawnChain.map {k : ℕ} {last : ℤ} {procs : List (Except ProcessFault (ℤ × Globals))}
    (h : SpawnChain ncpus k last procs) (mask : SigSet) :
    SpawnChain ncpus k last (procs.map (Except.map fun r =>
      (r.1, if r.1 = 0 then { r.2 with mask } else r.2))) := by
  refine ⟨by rw [List.length_map, h.length], fun i hi => ?_, ?_⟩
  · obtain ⟨p, hp, cpid, g, rfl, hpos, hworker⟩ := h.worker i hi
    refine ⟨_, by rw [List.getElem?_map, hp]; rfl, cpid, g, ?_, hpos, hworker⟩
    simp [Except.map, hpos.ne']
  · obtain ⟨g, hp, hg⟩ := h.last
    refine ⟨if last = 0 then { g with mask } else g, by rw [List.getElem?_map, hp]; rfl, ?_⟩
    split <;> exact hg

/-- A chain from the workers that were started and the process that is left. -/
theorem spawnChain_append {k : ℕ} {last : ℤ}
    {workers : List (Except ProcessFault (ℤ × Globals))} (hlen : workers.length = k)
    (hworkers : ∀ j < k, ∃ p, workers[j]? = some p ∧ ReturnsWorker ncpus j p)
    (hg : g.psInfo = none) : SpawnChain ncpus k last (workers ++ [.ok (last, g)]) := by
  refine ⟨by simp [hlen], fun j hj => ?_, g, by simp [← hlen], hg⟩
  obtain ⟨p, hp, hworker⟩ := hworkers j hj
  exact ⟨p, by rw [List.getElem?_append_left (hlen ▸ hj), hp], hworker⟩

/-- When no `fork` fails, `n` processes return as workers and one as the master. -/
theorem spawnChain_hixoSpawnWorkers {n : ℕ} (hn : 1 ≤ n) (hmax : n ≤ hixoMaxPss) (hcpus : ncpus ≠ 0)
    (hg : g.psInfo = none) (hforks : ∀ i < n, forks i ≠ none) :
    SpawnChain ncpus n 0 (hixoSpawnWorkers forks ncpus n g) := by
  have hstart : ({ g with mask := filledMask } : Globals).psInfo = none := hg
  obtain ⟨workers, g', cpid, hloop, hlen, hg', -, hcpid, hworkers⟩ :=
    spawnLoop_append (i := 0) (k := n) hcpus (by omega) (fun j _ hj => hforks j (by omega)) 0
      (-1) hstart
  refine SpawnChain.map ?_ g.mask
  rw [Int.toNat_natCast]
  rw [Nat.add_zero] at hloop
  rw [hloop, hcpid (by omega)]
  exact spawnChain_append hlen (by simpa using hworkers) hg'

/-- When the `fork` of round `k` is the first to fail, `k` processes return as workers and one
returns -1. -/
theorem spawnChain_of_fork_eq_none {n k : ℕ} (hmax : n ≤ hixoMaxPss) (hcpus : ncpus ≠ 0)
    (hg : g.psInfo = none) (hk : k < n) (hforks : ∀ i < k, forks i ≠ none)
    (hfail : forks k = none) :
    SpawnChain ncpus k (-1) (hixoSpawnWorkers forks ncpus n g) := by
  have hstart : ({ g with mask := filledMask } : Globals).psInfo = none := hg
  obtain ⟨workers, g', cpid, hloop, hlen, hg', -, -, hworkers⟩ :=
    spawnLoop_append (i := 0) (k := k) hcpus (by omega) (fun j _ hj => hforks j (by omega))
      (n - k) (-1) hstart
  refine SpawnChain.map ?_ g.mask
  rw [Int.toNat_natCast]
  -- round `k` is the last one
  obtain ⟨todo, htodo⟩ : ∃ todo, n - k = todo + 1 := ⟨n - k - 1, by omega⟩
  rw [Nat.add_sub_cancel' hk.le, htodo, Nat.zero_add, spawnLoop, hfail] at hloop
  rw [hloop]
  exact spawnChain_append hlen (by simpa using hworkers) hg'

/-- With more workers than `ga_pss_info` has entries and no failing `fork`, the parent of round
`HIXO_MAX_PSS` writes behind the array instead of returning as a worker. -/
theorem getElem?_hixoSpawnWorkers_maxPss {n : ℕ} (hn : hixoMaxPss < n) (hcpus : ncpus ≠ 0)
    (hg : g.psInfo = none) (hforks : ∀ i < n, forks i ≠ none) :
    (hixoSpawnWorkers forks ncpus n g)[hixoMaxPss]? = some (.error .outOfBounds) := by
  have hstart : ({ g with mask := filledMask } : Globals).psInfo = none := hg
  obtain ⟨workers, g', cpid, hloop, hlen, -⟩ :=
    spawnLoop_append (i := 0) (k := hixoMaxPss) hcpus (by omega)
      (fun j _ hj => hforks j (by omega)) (n - hixoMaxPss) (-1) hstart
  -- the round after the last entry is reached, and its `fork` succeeds
  obtain ⟨todo, htodo⟩ : ∃ todo, n - hixoMaxPss = todo + 1 := ⟨n - hixoMaxPss - 1, by omega⟩
  obtain ⟨pid, hpid⟩ := Option.ne_none_iff_exists'.mp (hforks hixoMaxPss hn)
  rw [Nat.add_sub_cancel' hn.le, htodo, Nat.zero_add, spawnLoop, hpid] at hloop
  rw [hixoSpawnWorkers, Int.toNat_natCast, hloop, List.getElem?_map,
    List.getElem?_append_right hlen.le, hlen, Nat.sub_self]
  simp [Globals.enterPsInfo, Except.map]

/-- More workers than `ga_pss_info` has entries do not all return, although no `fork` fails. -/
theorem not_spawnChain_of_hixoMaxPss_lt {n : ℕ} (hn : hixoMaxPss < n) (hcpus : ncpus ≠ 0)
    (hg : g.psInfo = none) (hforks : ∀ i < n, forks i ≠ none) (last : ℤ) :
    ¬SpawnChain ncpus n last (hixoSpawnWorkers forks ncpus n g) := by
  intro h
  obtain ⟨p, hp, cpid, g', rfl, -⟩ := h.worker hixoMaxPss hn
  rw [getElem?_hixoSpawnWorkers_maxPss hn hcpus hg hforks] at hp
  cases hp

/-- When no `fork` fails, `n` processes return as workers and one as the master. When the one of
round `k` is the first to fail, `k` processes return as workers and one returns -1. -/
theorem hixoSpawnWorkers_spec {n : ℕ} (hn : 1 ≤ n) (hmax : n ≤ hixoMaxPss) (hcpus : ncpus ≠ 0)
    (hg : g.psInfo = none) :
    ((∀ i < n, forks i ≠ none) → SpawnChain ncpus n 0 (hixoSpawnWorkers forks ncpus n g)) ∧
      ∀ k < n, (∀ i < k, forks i ≠ none) → forks k = none →
        SpawnChain ncpus k (-1) (hixoSpawnWorkers forks ncpus n g) :=
  ⟨spawnChain_hixoSpawnWorkers hn hmax hcpus hg,
    fun _ hk => spawnChain_of_fork_eq_none hmax hcpus hg hk⟩

/-- The second `fork` fails, and the others give the next process number. -/
def sampleForks (i : ℕ) : Option ℕ+ := if i = 1 then none else some ⟨i + 2, Nat.succ_pos _⟩

/-- The two cases of two workers, of which the second is not started. -/
theorem hixoSpawnWorkers_spec_sample :
    ((∀ i < 2, sampleForks i ≠ none) →
        SpawnChain 4 2 0 (hixoSpawnWorkers sampleForks 4 (2 : ℕ) {})) ∧
      ∀ k < 2, (∀ i < k, sampleForks i ≠ none) → sampleForks k = none →
        SpawnChain 4 k (-1) (hixoSpawnWorkers sampleForks 4 (2 : ℕ) {}) :=
  hixoSpawnWorkers_spec (n := 2) (by decide) (by decide) (by decide) rfl

/-- Every `fork` gives the next process number. -/
def successfulForks (i : ℕ) : Option ℕ+ := some ⟨i + 2, Nat.succ_pos _⟩

/-- For one worker more than `HIXO_MAX_PSS`, not all of them return, although no `fork` fails. -/
theorem hixoSpawnWorkers_outOfBounds :
    ¬((∀ i < 1025, successfulForks i ≠ none) →
      SpawnChain 4 1025 0 (hixoSpawnWorkers successfulForks 4 (1025 : ℕ) {})) := by
  intro h
  have hforks : ∀ i < 1025, successfulForks i ≠ none := fun i _ => Option.some_ne_none _
  exact not_spawnChain_of_hixoMaxPss_lt (by decide) (by decide) rfl hforks 0 (h hforks)

/-- The processes of the host after the last `fork` are those in which `hixo_spawn_workers`
returns, with the same `gp_ps_info`. -/
theorem psInfo_hixoSpawnWorkers {n : ℕ} (hn : 1 ≤ n) (hmax : n ≤ hixoMaxPss) (hcpus : ncpus ≠ 0)
    (hg : g.psInfo = none) (hforks : ∀ i < n, forks i ≠ none) :
    (hixoSpawnWorkers forks ncpus n g).map (fun p => p.toOption.bind fun r => r.2.psInfo) =
      (withLast n { pc := .spawning n } {}).procs.map Process.psInfo := by
  obtain ⟨hlen, hworkers, g', hlast, hg'⟩ :=
    spawnChain_hixoSpawnWorkers hn hmax hcpus hg hforks
  have hlen' : (withLast n { pc := .spawning n } {}).procs.length = n + 1 := by
    simp [withLast, freshWorkers]
  refine List.ext_getElem? fun i => ?_
  rw [List.getElem?_map, List.getElem?_map]
  rcases Nat.lt_trichotomy i n with hi | rfl | hi
  · obtain ⟨p, hp, _, g₁, rfl, -, hinfo, -⟩ := hworkers i hi
    rw [hp, getElem?_withLast_of_lt hi]
    exact congrArg some hinfo
  · rw [hlast, getElem?_withLast]
    exact congrArg some hg'
  · rw [List.getElem?_eq_none (by omega), List.getElem?_eq_none (by omega)]
    rfl

/-! ## Failing forks -/

/-- A process in which no call of `fork` failed, and one in which the last one did. -/
theorem forked_of_mem_spawnLoop {todo : ℕ} {cpid₀ cpid : ℤ} {g' : Globals}
    (hmem : .ok (cpid, g') ∈ spawnLoop forks ncpus todo i cpid₀ g) (hg : -1 ∉ g.forked) :
    -1 ∉ g'.forked ∨ cpid = -1 ∧ ∃ j, i ≤ j ∧ j < i + todo ∧ forks j = none := by
  have hne (pid : ℕ+) : (-1 : ℤ) ≠ (pid : ℕ) := by
    have hpos : (0 : ℤ) ≤ (pid : ℕ) := Int.natCast_nonneg _
    omega
  induction todo generalizing i cpid₀ g with
  | zero =>
    obtain ⟨-, rfl⟩ := Prod.mk.inj (Except.ok.inj (List.mem_singleton.mp hmem))
    exact Or.inl hg
  | succ todo ih =>
    -- either the first `fork` fails, or its parent stops here and its child goes on
    rw [spawnLoop] at hmem
    cases hfork : forks i with
    | none =>
      rw [hfork] at hmem
      obtain ⟨rfl, -⟩ := Prod.mk.inj (Except.ok.inj (List.mem_singleton.mp hmem))
      exact Or.inr ⟨rfl, i, le_rfl, by omega, hfork⟩
    | some pid =>
      rw [hfork] at hmem
      rcases List.mem_cons.mp hmem with hparent | hchild
      · left
        -- the parent passes the two assertions or aborts
        rw [Globals.enterPsInfo] at hparent
        split_ifs at hparent
        · cases hparent
        · cases hparent
        · obtain ⟨-, rfl⟩ := Prod.mk.inj (Except.ok.inj hparent)
          simp [Globals.afterFork, hg, hne pid]
      · have hg' : -1 ∉ (g.afterFork 0).forked := by simpa [Globals.afterFork] using hg
        rcases ih hchild hg' with hno | ⟨hcpid, j, hij, hj, hnone⟩
        · exact Or.inl hno
        · exact Or.inr ⟨hcpid, j, by omega, by omega, hnone⟩

/-- When some `fork` fails, a process returns -1. -/
theorem exists_failed_spawnLoop {todo : ℕ} (cpid₀ : ℤ) (g : Globals)
    (hfail : ∃ j, i ≤ j ∧ j < i + todo ∧ forks j = none) :
    ∃ g', .ok (-1, g') ∈ spawnLoop forks ncpus todo i cpid₀ g ∧ -1 ∈ g'.forked := by
  induction todo generalizing i cpid₀ g with
  | zero =>
    obtain ⟨j, hij, hj, -⟩ := hfail
    omega
  | succ todo ih =>
    rw [spawnLoop]
    cases hfork : forks i with
    | none => exact ⟨g.afterFork (-1), by simp, by simp [Globals.afterFork]⟩
    | some pid =>
      obtain ⟨j, hij, hj, hnone⟩ := hfail
      -- the failing `fork` comes later, and it is the child that gets there
      have hne : i ≠ j := by
        rintro rfl
        rw [hfork] at hnone
        cases hnone
      obtain ⟨g', hmem, hforked⟩ :=
        ih (i := i + 1) 0 (g.afterFork 0) ⟨j, by omega, by omega, hnone⟩
      exact ⟨g', List.mem_cons_of_mem _ hmem, hforked⟩

end Chain

end Hixo
