import Hixo.AcceptLock.Serial

/-!
# The death of the holder

Nothing gives the accept lock back but the worker that holds it. When this worker is killed, or
stops at an assertion, the word stays 1: no other worker gets the lock, listeners are not watched
any more, and apart from events that were posted before, no connection is accepted.

* `Mute`: a log without connections that are accepted after an `epoll_wait`;
* `Deaf`: a worker that has no event of a listener at hand;
* `Deaf.of_step`: it stays so without the lock;
* `host_starves`: the other workers starve in all states that they reach.
-/

namespace Hixo

open Worker Interleaving Programs

/-- No connection is accepted after an `epoll_wait`. -/
def Mute (tr : List LogEntry) : Prop :=
  ∀ pre l rslt post, tr = pre ++ .accept l rslt :: post → ∀ rslt', .wait rslt' ∉ pre

/-- The events that the worker has at hand, and the sockets that are posted, are not about
listeners. -/
structure Deaf (p : Proc) : Prop where
  batch : ∀ ev ∈ p.pc.batch, ev.slot ∉ p.worker.listeners
  posted : ∀ posted : List ℕ, p.worker.links.IsList .postedEvents (posted.map .postedNode) →
    ∀ i ∈ posted, i ∉ p.worker.listeners

section Traces

variable {tr tr' : List LogEntry} {free free' posted : List ℕ} {l : ℕ} {rslt : AcceptResult}

/-- A log that accepts nothing after an `epoll_wait` stays so when entries follow that accept
nothing. -/
theorem Mute.append (h : Mute tr) (htr : ∀ l rslt, .accept l rslt ∉ tr') : Mute (tr ++ tr') := by
  intro pre l rslt post heq rslt' hmem
  rcases List.append_eq_append_iff.mp heq with ⟨m, rfl, htr'⟩ | ⟨m, rfl, htr'⟩
  · exact htr l rslt (by simp [htr'])
  · cases m with
    | nil =>
      rw [List.nil_append] at htr'
      exact htr l rslt (by simp [← htr'])
    | cons e m =>
      obtain ⟨rfl, -⟩ := List.cons.inj htr'
      exact h pre l rslt m rfl rslt' hmem

theorem CloseTrace.accept_notMem {i : ℕ} {handler : Option Callback} {closed : Bool}
    (h : CloseTrace i handler closed free free' tr) : .accept l rslt ∉ tr := by
  cases h <;> simp

theorem WriteTrace.accept_notMem {i : ℕ} {handler : Option Callback} {writable closed : Bool}
    (h : WriteTrace i writable handler closed tr) : .accept l rslt ∉ tr := by
  cases h <;> simp

/-- A traversal accepts nothing when no posted socket has the handler of a listener. -/
theorem TraverseTrace.accept_notMem {sock : ℕ → Socket}
    (h : TraverseTrace sock posted free free' tr)
    (hsock : ∀ i ∈ posted, (sock i).readHandler ≠ some .hixoHandleAccept) :
    .accept l rslt ∉ tr := by
  induction h with
  | nil => simp
  | cons hvisit _ ih =>
    obtain ⟨hread, hclose, hwrite⟩ := hvisit
    refine fun hmem => (List.mem_append.mp hmem).elim (fun hvisit => ?_)
      (ih fun i hi => hsock i (List.mem_cons_of_mem _ hi))
    rcases List.mem_append.mp hvisit with hmem | hmem
    · cases hread with
      | skip => simp at hmem
      | accept _ hhandler => exact hsock _ List.mem_cons_self hhandler
      | app => simp at hmem
    · exact (List.mem_append.mp hmem).elim hclose.accept_notMem hwrite.accept_notMem

end Traces

namespace Deaf

variable {power₀ : ℤ} {env : Env} {lock lock' : BitVec 64} {p p' : Proc} {pc : Pc} {w : Worker}
  {free conns posted : List ℕ}

/-- A step that neither posts nor waits puts no event of a listener at hand. -/
theorem congr (h : Deaf p) (hlinks : p'.worker.links = p.worker.links)
    (hlisteners : p'.worker.listeners = p.worker.listeners)
    (hbatch : p'.pc.batch = [] ∨ p'.pc.batch = p.pc.batch) : Deaf p' := by
  refine ⟨fun ev hev => ?_, fun posted hposted => ?_⟩
  · rcases hbatch with hnil | hsame
    · simp [hnil] at hev
    · exact hlisteners ▸ h.batch ev (hsame ▸ hev)
  · rw [hlisteners]
    exact h.posted posted (hlinks ▸ hposted)

/-- The list of the posted sockets is unique. -/
theorem posted_unique {links : LinkHeap Cell} {posted posted' : List ℕ}
    (h : links.IsList .postedEvents (posted.map .postedNode))
    (h' : links.IsList .postedEvents (posted'.map .postedNode)) : posted = posted' :=
  List.map_injective_iff.mpr (fun _ _ => Cell.postedNode.inj) (h.unique h')

/-- Without the lock `epoll_wait` gives no event of a listener, because the kernel watches none. -/
theorem of_wait (h : AtPc power₀ ⟨.wait, w⟩ free conns posted) (henv : env.Valid)
    (hout : inSection w.log = false) :
    Deaf ⟨.del 0 (env.wait w), w.record (.wait (env.wait w))⟩ := by
  obtain rfl : posted = [] := h.posted_nil id
  refine ⟨fun ev hev hmem => ?_, fun posted hposted i hi => ?_⟩
  · cases hwait : env.wait w with
    | eintr | failed => simp [Pc.batch, hwait, WaitResult.batch] at hev
    | events evs =>
      have hev' : ev ∈ evs := by simpa [Pc.batch, hwait, WaitResult.batch] using hev
      obtain ⟨fd, r, hr, hslot, -⟩ := (henv.batches w evs hwait).2 ev hev'
      have hin := Sound.inSection_of_watched ⟨free, conns, [], h⟩ hr
        (show r.slot ∈ w.listeners from hslot ▸ hmem)
      exact absurd (hout.symm.trans hin) (by decide)
  · obtain rfl := posted_unique hposted h.consistent.lists.postedEvents
    cases hi

/-- Events that are not about listeners post no listener. -/
theorem of_postEvents {evs : List EpollEvent}
    (h : AtPc power₀ ⟨.post (.events evs), w⟩ free conns posted)
    (hdeaf : Deaf ⟨.post (.events evs), w⟩) : Deaf ⟨.exit true, evs.foldl postEvent w⟩ := by
  obtain rfl : posted = [] := h.posted_nil id
  have hevs (ev : EpollEvent) (hev : ev ∈ evs) : ev.slot ∈ conns ∧ ev.slot ∉ ([] : List ℕ) ∧
      (w.sock ev.slot).stale = ev.stale :=
    ⟨(h.batch ev hev).1, by simp, (h.batch ev hev).2⟩
  obtain ⟨posted', hcons, hmem, -, -, -, hservers, -⟩ :=
    Consistent.postEvents h.consistent h.batch_nodup hevs
  have hlisteners : (evs.foldl postEvent w).listeners = w.listeners :=
    congrArg (List.map Server.slot) hservers
  refine ⟨by simp [Pc.batch], fun posted hposted i hi => ?_⟩
  obtain rfl := posted_unique hposted hcons.lists.postedEvents
  obtain ⟨ev, hev, rfl, -⟩ := ((hmem i).mp hi).resolve_left (by simp)
  exact hlisteners ▸ hdeaf.batch ev hev

/-- Without the lock, a step before the traversal puts no event of a listener at hand, and neither
does `epoll_wait`, whatever was at hand before. -/
theorem of_step (h : AtPc power₀ p free conns posted) (henv : env.Valid)
    (hstep : p.step env lock = .ok (lock', p')) (hout : ¬p.InSection)
    (hret : ∀ ok, p.pc ≠ .ret ok) (hdeaf : Deaf p ∨ p.pc = .wait) : Deaf p' := by
  obtain ⟨pc, w⟩ := p
  have hlog : inSection w.log = false := by simpa [Proc.InSection] using hout
  have howns : inSection w.log = pc.owns w.holdLock := h.owns
  by_cases hwait : pc = .wait
  · subst hwait
    rw [Proc.step] at hstep
    dsimp only at hstep
    split at hstep
    · cases hstep
    · obtain ⟨-, rfl⟩ := Prod.mk.inj (Except.ok.inj hstep)
      exact of_wait h henv hlog
  have hdeaf : Deaf ⟨pc, w⟩ := hdeaf.resolve_right hwait
  cases pc with
  | wait => exact absurd rfl hwait
  | ret ok => exact absurd rfl (hret ok)
  | call =>
    obtain ⟨-, rfl⟩ := Prod.mk.inj (Except.ok.inj hstep)
    exact hdeaf.congr rfl rfl (.inl (by dsimp only; split <;> rfl))
  | tryLock | setHold | clear =>
    obtain ⟨-, rfl⟩ := Prod.mk.inj (Except.ok.inj hstep)
    exact hdeaf.congr rfl rfl (.inl rfl)
  | add k | del k rslt | exit ok =>
    have hhold : ¬w.holdLock = true := by simpa [hlog, Pc.owns] using howns.symm
    simp only [Proc.step, if_neg hhold] at hstep
    obtain ⟨-, rfl⟩ := Prod.mk.inj (Except.ok.inj hstep)
    exact hdeaf.congr rfl rfl (by simp [Pc.batch])
  | post rslt =>
    cases rslt with
    | eintr | failed =>
      obtain ⟨-, rfl⟩ := Prod.mk.inj (Except.ok.inj hstep)
      exact hdeaf.congr rfl rfl (.inl rfl)
    | events evs =>
      obtain ⟨-, rfl⟩ := Prod.mk.inj (Except.ok.inj hstep)
      exact of_postEvents h hdeaf

/-- The traversal accepts nothing when no listener is posted, and it does not wait. -/
theorem accept_notMem_of_traverse (h : AtPc power₀ ⟨.ret true, w⟩ free conns posted)
    (henv : env.Valid) {w' : Worker}
    (htraverse : Worker.traverse env w.capacity (w.links .postedEvents) w = .ok w') :
    ∃ tr, w'.log = w.log ++ tr ∧ (∀ rslt, .wait rslt ∉ tr) ∧
      (Deaf ⟨.ret true, w⟩ → ∀ l rslt, .accept l rslt ∉ tr) := by
  have hcons : Consistent power₀ w [] free conns posted := h.consistent
  obtain ⟨w₁, _, _, tr, hrun, -, -, hlog, htrace, -⟩ :=
    hcons.traverse henv.fresh h.posted_subset hcons.lists.length_posted_le
  obtain rfl : w₁ = w' := Except.ok.inj (hrun.symm.trans htraverse)
  refine ⟨tr, hlog, fun rslt hmem => htrace.within hmem, fun hdeaf l rslt => ?_⟩
  refine htrace.accept_notMem fun i hi hhandler => ?_
  -- a posted socket is a connection, and has the handler of an app module
  obtain ⟨ctx, -, hread, -⟩ := hcons.roles.connection i (h.posted_subset hi)
    (hdeaf.posted posted hcons.lists.postedEvents i hi)
  rw [hread] at hhandler
  obtain ⟨f, -, heq⟩ := Option.map_eq_some_iff.mp hhandler
  cases heq

/-- At the start of a pass no event is at hand, and nothing is posted. -/
theorem at_call (h : AtPc power₀ ⟨.call, w⟩ free conns posted) : Deaf ⟨.call, w⟩ := by
  obtain rfl : posted = [] := h.posted_nil id
  refine ⟨by simp [Pc.batch], fun posted hposted i hi => ?_⟩
  obtain rfl := posted_unique hposted h.consistent.lists.postedEvents
  cases hi

end Deaf

/-! ## Without the holder -/

/-- What became of a worker from `p` to `p'`: it did not get the lock, its listeners are not
watched, and it has accepted nothing after its first `epoll_wait`. -/
structure Starved (p p' : Proc) : Prop where
  out : ¬p'.InSection
  watched : ∀ fd r, p'.worker.interest fd = some r → r.slot ∉ p'.worker.listeners
  log : ∃ tr, p'.worker.log = p.worker.log ++ tr ∧ .trySpinlock true ∉ tr ∧ Mute tr

/-- What is kept while the lock is away. -/
structure Starving (power₀ : ℤ) (p p' : Proc) : Prop where
  sound : Sound power₀ p'
  out : ¬p'.InSection
  log : ∃ tr, p'.worker.log = p.worker.log ++ tr ∧ .trySpinlock true ∉ tr ∧ Mute tr ∧
    ((∃ rslt, .wait rslt ∈ tr) → Deaf p')

namespace Starving

variable {power₀ : ℤ} {lock lock' : BitVec 64} {p p' p'' : Proc}

theorem refl (hsound : Sound power₀ p) (hout : ¬p.InSection) : Starving power₀ p p where
  sound := hsound
  out := hout
  log := ⟨[], by simp, by simp, fun pre l rslt post heq => by simp at heq, by simp⟩

theorem starved (h : Starving power₀ p p') : Starved p p' where
  out := h.out
  watched _ _ hr hslot := h.out (h.sound.inSection_of_watched hr hslot)
  log := by
    obtain ⟨tr, hlog, htry, hmute, -⟩ := h.log
    exact ⟨tr, hlog, htry, hmute⟩

/-- A step that does not get the lock keeps what is kept while the lock is away. -/
theorem of_step (h : Starving power₀ p p') (hlock : lock = 0 ∨ lock = 1)
    (hact : p'.act lock lock' p'') (hout : ¬p''.InSection) : Starving power₀ p p'' := by
  obtain ⟨hsound, tr', hlog', htransfers⟩ := h.sound.act hlock hact
  obtain ⟨tr, hlog, htry, hmute, hdeaf⟩ := h.log
  have htry' : .trySpinlock true ∉ tr' := by
    cases htransfers with
    | idle hidle => exact fun hmem => hidle _ hmem rfl
    | enter => exact absurd (by simp [Proc.InSection, hlog']) hout
    | leave => simp
  refine ⟨hsound, hout, tr ++ tr', by rw [hlog', hlog, List.append_assoc], ?_, ?_⟩
  · exact fun hmem => (List.mem_append.mp hmem).elim htry htry'
  obtain ⟨free, conns, posted, hat⟩ := h.sound
  obtain ⟨env, henv, -, hstep⟩ := hact
  by_cases hret : ∃ ok, p'.pc = .ret ok
  · obtain ⟨pc, w⟩ := p'
    obtain ⟨ok, rfl⟩ := hret
    cases ok with
    | true =>
      obtain ⟨w', htraverse, hrest⟩ := exists_of_bind_eq_ok hstep
      obtain ⟨-, rfl⟩ := Prod.mk.inj (Except.ok.inj hrest)
      obtain ⟨tr₁, hlog₁, hwait, haccept⟩ := Deaf.accept_notMem_of_traverse hat henv htraverse
      obtain rfl : tr' = tr₁ := List.append_cancel_left (hlog'.symm.trans hlog₁)
      obtain ⟨_, _, _, hat'⟩ := hsound
      refine ⟨?_, fun _ => Deaf.at_call hat'⟩
      by_cases hheard : ∃ rslt, .wait rslt ∈ tr
      · exact hmute.append (haccept (hdeaf hheard))
      · -- the worker has not waited so far
        intro pre l rslt post heq rslt' hmem
        have hmem' : .wait rslt' ∈ tr ++ tr' := heq ▸ List.mem_append_left _ hmem
        exact (List.mem_append.mp hmem').elim (fun hmem => hheard ⟨rslt', hmem⟩) (hwait rslt')
    | false =>
      obtain ⟨-, rfl⟩ := Prod.mk.inj (Except.ok.inj hstep)
      obtain rfl : tr' = [] := by simpa using hlog'
      rw [List.append_nil]
      exact ⟨hmute, hdeaf⟩
  · have hret' : ∀ ok, p'.pc ≠ .ret ok := fun ok hpc => hret ⟨ok, hpc⟩
    obtain ⟨tr₁, hlog₁, hbefore, hwait⟩ := (finish_step hstep hret').log
    obtain rfl : tr' = tr₁ := List.append_cancel_left (hlog'.symm.trans hlog₁)
    refine ⟨hmute.append fun l rslt hmem => hbefore _ hmem, ?_⟩
    rintro ⟨rslt, hmem⟩
    exact Deaf.of_step hat henv hstep h.out hret' ((List.mem_append.mp hmem).imp
      (fun hmem => hdeaf ⟨rslt, hmem⟩) (hwait rslt))

end Starving

section Hosts

variable {ι : Type} [DecidableEq ι]

/-- When a worker stops in its section, the other workers starve, in any order of their steps. -/
theorem host_starves {boot : ι → BootEnv} {maxConnections : ι → ℕ} {apps : ι → List AppCtx}
    {w₀ : ι → Worker} (hfresh : ∀ i, (boot i).FreshFds)
    (hstart : ∀ i, startWorker (boot i) (maxConnections i) (apps i) = .ok (some (w₀ i)))
    {s s' : Host ι} (hs : Reachable Proc.act ⟨0, fun i => ⟨.call, w₀ i⟩⟩ s) {i : ι}
    (hi : (s.locals i).InSection) (hs' : ReachableBy Proc.act {j | j ≠ i} s s') :
    s'.shared = 1 ∧ ∀ j, j ≠ i → Starved (s.locals j) (s'.locals j) := by
  have hsound (i : ι) := sound_of_startWorker (hfresh i) (hstart i)
  have hrules := tokenDiscipline fun i => (w₀ i).power
  have hne : (0 : BitVec 64) ≠ 1 := by decide
  have hexcl := hrules.exclusive_of_reachable hne (fun i => (hsound i).1) (fun i => (hsound i).2)
    rfl hs
  have hdead : i ∉ {j | j ≠ i} := fun h => h rfl
  refine ⟨(hrules.exclusive_of_reachableBy hne hexcl hi hdead hs').2.1, fun j hj => ?_⟩
  have hstarving : Starving (w₀ j).power (s.locals j) (s'.locals j) := by
    induction hs' with
    | start => exact .refl (hexcl.locals j) fun hown => hj (hexcl.unique j i hown hi)
    | @step s₁ s₂ k hk hs₁ hstep ih =>
      obtain ⟨hexcl₁, -, -⟩ := hrules.exclusive_of_reachableBy hne hexcl hi hdead hs₁
      obtain ⟨-, -, hout⟩ := hrules.exclusive_of_reachableBy hne hexcl hi hdead
        (.step k hk hs₁ hstep)
      have hout := hout j hj
      obtain ⟨l, hact, hlocals⟩ := hstep
      rw [hlocals] at hout ⊢
      by_cases hjk : j = k
      · subst hjk
        rw [Function.update_self] at hout ⊢
        exact ih.of_step hexcl₁.shared_cases hact hout
      · rwa [Function.update_of_ne hjk]
  exact hstarving.starved

end Hosts

/-- Worker `true` got the lock and stopped. Worker `false` goes on without it. -/
theorem host_starves_sample :
    let s := sampleSchedule.foldl (Host.next (sampleEnv [])) sampleHost
    (s.next (sampleEnv []) false).shared = 1 ∧ ∀ j, j ≠ true →
      Starved (s.locals j) ((s.next (sampleEnv []) false).locals j) := by
  intro s
  have hstep : Step Proc.act false s (s.next (sampleEnv []) false) :=
    ⟨_, ⟨sampleEnv [], sampleEnv_valid [], fun _ _ => Or.inl rfl, rfl⟩, rfl⟩
  exact host_starves (fun _ => sampleBoot_fresh) (fun _ => startWorker_sample)
    reachable_sampleSchedule (show (s.locals true).InSection from rfl)
    (.step false (by decide) .start hstep)

end Hixo
