import Hixo.Foundation.Monitor
import Hixo.Worker.Handlers

/-!
# The callback protocol

The callbacks of an app module on one use of a slot: first connect, then any number of read and
write callbacks, then one disconnect, which `hixo_handle_close` follows at once.

* `Phase.step`: a monitor that accepts the log of a run exactly when slot `i` keeps to this;
* `Phase.Moves`, `Phase.moves_of_step`: what an accepted entry can do;
* `Iterated.phase`: the monitor accepts every pass;
* `followsProtocol_of_run`: what an accepted log looks like;
* `run_followsProtocol`: the log of a run keeps to the protocol.
-/

namespace Hixo

open Worker Monitor

/-! ## The monitor -/

/-- The phases of a slot. -/
inductive Phase
  /-- Not in use as a connection. -/
  | idle
  /-- Put on `mp_connections`, before its connect callback. -/
  | opened
  /-- After its connect callback. -/
  | active
  /-- After its disconnect callback. -/
  | ended
  deriving DecidableEq

/-- The phase of slot `i` after an entry, unless the protocol forbids it. -/
def Phase.step (i : ℕ) (p : Phase) (e : LogEntry) : Option Phase :=
  match p, e with
  | .ended, .handleClose j => if j = i then some .idle else none
  | .ended, _ => none
  | .idle, .opened j => if j = i then some .opened else some .idle
  | .opened, .callback .connect j _ _ => if j = i then some .active else some .opened
  | .active, .callback .disconnect j _ _ => if j = i then some .ended else some .active
  | .active, .callback .connect j _ _ => if j = i then none else some .active
  | .active, .callback _ _ _ _ => some .active
  | p, .opened j => if j = i then none else some p
  | p, .callback _ j _ _ => if j = i then none else some p
  | p, .handleClose j => if j = i then none else some p
  | p, _ => some p

/-- The callbacks invoked on slot `i`, in order. -/
def callbacks (i : ℕ) (log : List LogEntry) : List CallbackKind :=
  log.filterMap fun e =>
    match e with
    | .callback kind j _ _ => if j = i then some kind else none
    | _ => none

/-- The protocol for slot `i`. -/
structure FollowsProtocol (i : ℕ) (log : List LogEntry) : Prop where
  /-- A use begins with connect; reads and writes follow, and one disconnect ends them. -/
  use : ∀ l₁ seg l₂, log = l₁ ++ .opened i :: (seg ++ l₂) → .handleClose i ∉ seg →
    ∃ mid : List CallbackKind, (∀ kind ∈ mid, kind = .read ∨ kind = .write) ∧
      callbacks i seg <+: .connect :: (mid ++ [.disconnect])
  /-- A use that was closed had its disconnect. -/
  complete : ∀ l₁ seg l₂, log = l₁ ++ .opened i :: (seg ++ .handleClose i :: l₂) →
    .handleClose i ∉ seg →
    ∃ mid : List CallbackKind, (∀ kind ∈ mid, kind = .read ∨ kind = .write) ∧
      callbacks i seg = .connect :: (mid ++ [.disconnect])
  /-- The close follows the disconnect at once. -/
  disconnect : ∀ l₁ f close l₂, log = l₁ ++ .callback .disconnect i f close :: l₂ →
    ∃ l₃, l₂ = .handleClose i :: l₃
  /-- There are no callbacks from a close to the next use. -/
  closed : ∀ l₁ seg l₂, log = l₁ ++ .handleClose i :: (seg ++ l₂) → .opened i ∉ seg →
    callbacks i seg = []
  /-- There are none before the first use. -/
  unused : ∀ seg l₂, log = seg ++ l₂ → .opened i ∉ seg → callbacks i seg = []

/-! ## Accepted logs -/

section Accepted

variable {i : ℕ} {p : Phase} {e : LogEntry} {seg log : List LogEntry}

theorem callbacks_cons : callbacks i (e :: seg) = callbacks i [e] ++ callbacks i seg := by
  rw [← List.singleton_append, callbacks, List.filterMap_append]
  rfl

/-- The ways in which an accepted entry takes slot `i` from one phase to another. -/
inductive Phase.Moves (i : ℕ) (e : LogEntry) : Phase → Phase → Prop
  /-- The entry is not about slot `i`. -/
  | stay {p : Phase} (hp : p ≠ .ended) (hnone : callbacks i [e] = []) : Moves i e p p
  | opened (he : e = .opened i) : Moves i e .idle .opened
  | connect (hone : callbacks i [e] = [.connect]) : Moves i e .opened .active
  | callback {kind : CallbackKind} (hkind : kind = .read ∨ kind = .write)
      (hone : callbacks i [e] = [kind]) : Moves i e .active .active
  | disconnect (hone : callbacks i [e] = [.disconnect]) : Moves i e .active .ended
  | close (he : e = .handleClose i) : Moves i e .ended .idle

/-- A callback on slot `i` is one of its callbacks. -/
theorem callbacks_self {kind : CallbackKind} {f : Callback} {close : Bool} :
    callbacks i [.callback kind i f close] = [kind] := by
  simp [callbacks]

/-- A callback on another slot is none of its callbacks. -/
theorem callbacks_of_ne {kind : CallbackKind} {j : ℕ} {f : Callback} {close : Bool} (hj : j ≠ i) :
    callbacks i [.callback kind j f close] = [] := by
  simp [callbacks, hj]

/-- Nothing but the close of the slot is accepted after a disconnect. -/
theorem Phase.step_ended {t : Phase} (he : Phase.step i .ended e = some t) :
    e = .handleClose i ∧ t = .idle := by
  cases e with
  | handleClose j =>
    by_cases hj : j = i
    · rw [Phase.step, if_pos hj] at he
      exact ⟨hj ▸ rfl, (Option.some.inj he).symm⟩
    · rw [Phase.step, if_neg hj] at he
      cases he
  | _ => cases he

/-- An entry about another slot does not change the phase. -/
theorem Phase.step_callback_of_ne {kind : CallbackKind} {j : ℕ} {f : Callback} {close : Bool}
    (hj : j ≠ i) (hp : p ≠ .ended) : Phase.step i p (.callback kind j f close) = some p := by
  cases p with
  | ended => exact absurd rfl hp
  | idle | opened | active => cases kind <;> simp only [Phase.step, if_neg hj]

/-- An entry that the monitor accepts moves it as the protocol says. -/
theorem Phase.moves_of_step {t : Phase} (he : Phase.step i p e = some t) : Moves i e p t := by
  -- behind the disconnect callback only the close of the slot is accepted
  by_cases hp : p = .ended
  · subst hp
    obtain ⟨rfl, rfl⟩ := Phase.step_ended he
    exact .close rfl
  cases e with
  | opened j =>
    by_cases hj : j = i
    · subst hj
      cases p with
      | idle =>
        rw [Phase.step, if_pos rfl] at he
        exact Option.some.inj he ▸ .opened rfl
      | ended => exact absurd rfl hp
      | opened | active => simp [Phase.step] at he
    · cases p with
      | ended => exact absurd rfl hp
      | idle | opened | active =>
        simp only [Phase.step, if_neg hj, Option.some.injEq] at he
        exact he ▸ .stay (by simp) rfl
  | callback kind j =>
    by_cases hj : j = i
    · subst hj
      cases p with
      | ended => exact absurd rfl hp
      | idle => cases kind <;> simp [Phase.step] at he
      | opened =>
        cases kind with
        | connect =>
          rw [Phase.step, if_pos rfl] at he
          exact Option.some.inj he ▸ .connect callbacks_self
        | read | write | disconnect => simp [Phase.step] at he
      | active =>
        cases kind with
        | connect => simp [Phase.step] at he
        | read => exact Option.some.inj he ▸ .callback (.inl rfl) callbacks_self
        | write => exact Option.some.inj he ▸ .callback (.inr rfl) callbacks_self
        | disconnect =>
          rw [Phase.step, if_pos rfl] at he
          exact Option.some.inj he ▸ .disconnect callbacks_self
    · rw [Phase.step_callback_of_ne hj hp] at he
      exact Option.some.inj he ▸ .stay hp (callbacks_of_ne hj)
  | handleClose j =>
    cases p with
    | ended => exact absurd rfl hp
    | idle | opened | active =>
      by_cases hj : j = i
      · simp [Phase.step, hj] at he
      · simp only [Phase.step, if_neg hj, Option.some.injEq] at he
        exact he ▸ .stay (by simp) rfl
  | _ =>
    -- entries that name no slot
    cases p with
    | ended => exact absurd rfl hp
    | idle | opened | active => exact Option.some.inj he ▸ .stay (by simp) rfl

/-- An idle slot stays idle until it is opened, and has no callbacks. -/
theorem callbacks_of_idle (h : run (Phase.step i) .idle seg = some p) (hopen : .opened i ∉ seg) :
    callbacks i seg = [] := by
  induction seg with
  | nil => rfl
  | cons e seg ih =>
    obtain ⟨t, he, hrun⟩ := run_cons.mp h
    obtain ⟨hne, hopen⟩ := List.ne_and_not_mem_of_not_mem_cons hopen
    cases Phase.moves_of_step he with
    | stay _ hnone =>
      rw [callbacks_cons, hnone, ih hrun hopen]
      rfl
    | opened hopened => exact absurd hopened.symm hne

/-- After a disconnect nothing follows on the slot but the close. -/
theorem eq_handleClose_of_ended (h : run (Phase.step i) .ended seg = some p) :
    seg = [] ∧ p = .ended ∨ ∃ l, seg = .handleClose i :: l := by
  cases seg with
  | nil => exact Or.inl ⟨rfl, (Option.some.inj h).symm⟩
  | cons e l =>
    obtain ⟨t, he, -⟩ := run_cons.mp h
    obtain ⟨rfl, -⟩ := Phase.step_ended he
    exact Or.inr ⟨l, rfl⟩

/-- A slot in use stays so after a read or write callback, and ends with a disconnect callback. -/
theorem step_active {t : Phase} (he : Phase.step i .active e = some t) :
    (t = .active ∧ ∀ kind ∈ callbacks i [e], kind = .read ∨ kind = .write) ∨
      (t = .ended ∧ callbacks i [e] = [.disconnect]) := by
  cases Phase.moves_of_step he with
  | stay _ hnone => exact Or.inl ⟨rfl, by simp [hnone]⟩
  | callback hkind hone => exact Or.inl ⟨rfl, by simpa [hone] using hkind⟩
  | disconnect hone => exact Or.inr ⟨rfl, hone⟩

/-- The callbacks of an active slot, until it is closed. -/
theorem callbacks_of_active (h : run (Phase.step i) .active seg = some p)
    (hclose : .handleClose i ∉ seg) :
    ∃ mid : List CallbackKind, (∀ kind ∈ mid, kind = .read ∨ kind = .write) ∧
      (p = .active ∧ callbacks i seg = mid ∨
        p = .ended ∧ callbacks i seg = mid ++ [.disconnect]) := by
  -- induction on the segment; the part already seen stays in front of `mid`
  induction seg with
  | nil => exact ⟨[], by simp, Or.inl ⟨(Option.some.inj h).symm, rfl⟩⟩
  | cons e seg ih =>
    obtain ⟨t, he, hrun⟩ := run_cons.mp h
    obtain ⟨hne, hclose⟩ := List.ne_and_not_mem_of_not_mem_cons hclose
    rw [callbacks_cons]
    rcases step_active he with ⟨rfl, hhead⟩ | ⟨rfl, hdisconnect⟩
    · obtain ⟨mid, hmid, hcases⟩ := ih hrun hclose
      refine ⟨callbacks i [e] ++ mid, fun kind hkind => ?_, ?_⟩
      · exact (List.mem_append.mp hkind).elim (hhead kind) (hmid kind)
      · rcases hcases with ⟨hp, hseg⟩ | ⟨hp, hseg⟩
        · exact Or.inl ⟨hp, by rw [hseg]⟩
        · exact Or.inr ⟨hp, by rw [hseg, List.append_assoc]⟩
    · -- after the end of a connection only its own close could follow, which is excluded
      rcases eq_handleClose_of_ended hrun with ⟨rfl, hp⟩ | ⟨l, rfl⟩
      · exact ⟨[], by simp, Or.inr ⟨hp, by rw [hdisconnect]; rfl⟩⟩
      · exact absurd List.mem_cons_self hclose

/-- The callbacks of a slot that was opened, until it is closed. -/
theorem callbacks_of_opened (h : run (Phase.step i) .opened seg = some p)
    (hclose : .handleClose i ∉ seg) :
    ∃ mid : List CallbackKind, (∀ kind ∈ mid, kind = .read ∨ kind = .write) ∧
      callbacks i seg <+: .connect :: (mid ++ [.disconnect]) ∧
      (p = .ended → callbacks i seg = .connect :: (mid ++ [.disconnect])) := by
  induction seg with
  | nil => exact ⟨[], by simp, List.nil_prefix, fun hp => by simp [run, hp] at h⟩
  | cons e seg ih =>
    obtain ⟨t, he, hrun⟩ := run_cons.mp h
    obtain ⟨-, hclose⟩ := List.ne_and_not_mem_of_not_mem_cons hclose
    rw [callbacks_cons]
    -- up to the accept that opens it the slot records no callback at all
    cases Phase.moves_of_step he with
    | stay _ hnone =>
      rw [hnone]
      exact ih hrun hclose
    | connect hconnect =>
      obtain ⟨mid, hmid, hcases⟩ := callbacks_of_active hrun hclose
      rw [hconnect]
      refine ⟨mid, hmid, ?_, fun hp => ?_⟩
      · rcases hcases with ⟨-, hseg⟩ | ⟨-, hseg⟩
        · rw [hseg]
          exact ⟨[.disconnect], rfl⟩
        · rw [hseg]
          exact List.prefix_rfl
      · rcases hcases with ⟨hactive, -⟩ | ⟨-, hseg⟩
        · simp [hp] at hactive
        · rw [hseg]
          rfl

/-- What an accepted log looks like, when it does not stop between a disconnect and the close. -/
theorem followsProtocol_of_run (h : run (Phase.step i) .idle log = some p) (hp : p ≠ .ended) :
    FollowsProtocol i log := by
  -- where `opened` leads to, and between which phases a close stands
  have hopened {t u : Phase} (he : Phase.step i t (.opened i) = some u) : u = .opened := by
    cases t <;> simp [Phase.step] at he
    exact he.symm
  have hclosed {t u : Phase} (he : Phase.step i t (.handleClose i) = some u) :
      t = .ended ∧ u = .idle := by
    cases t <;> simp [Phase.step] at he
    exact ⟨rfl, he.symm⟩
  refine ⟨fun l₁ seg l₂ hlog hnot => ?_, fun l₁ seg l₂ hlog hnot => ?_,
    fun l₁ f close l₂ hlog => ?_, fun l₁ seg l₂ hlog hnot => ?_, fun seg l₂ hlog hnot => ?_⟩
  · -- the callbacks of a use
    subst hlog
    obtain ⟨t, -, hrun⟩ := run_append.mp h
    obtain ⟨u, he, hrun⟩ := run_cons.mp hrun
    obtain ⟨v, hseg, -⟩ := run_append.mp hrun
    obtain ⟨mid, hmid, hprefix, -⟩ := callbacks_of_opened (hopened he ▸ hseg) hnot
    exact ⟨mid, hmid, hprefix⟩
  · -- those of a use that was closed
    subst hlog
    obtain ⟨t, -, hrun⟩ := run_append.mp h
    obtain ⟨u, he, hrun⟩ := run_cons.mp hrun
    obtain ⟨v, hseg, hrun⟩ := run_append.mp hrun
    obtain ⟨x, hclose, -⟩ := run_cons.mp hrun
    obtain ⟨mid, hmid, -, hended⟩ := callbacks_of_opened (hopened he ▸ hseg) hnot
    exact ⟨mid, hmid, hended (hclosed hclose).1⟩
  · -- the disconnect leads to the phase in which only the close is accepted
    subst hlog
    obtain ⟨t, -, hrun⟩ := run_append.mp h
    obtain ⟨u, he, hrun⟩ := run_cons.mp hrun
    have hended : u = .ended := by
      cases t <;> simp [Phase.step] at he
      exact he.symm
    rcases eq_handleClose_of_ended (hended ▸ hrun) with ⟨-, hend⟩ | hnext
    · exact absurd hend hp
    · exact hnext
  · -- from a close to the next use
    subst hlog
    obtain ⟨t, -, hrun⟩ := run_append.mp h
    obtain ⟨u, he, hrun⟩ := run_cons.mp hrun
    obtain ⟨v, hseg, -⟩ := run_append.mp hrun
    exact callbacks_of_idle ((hclosed he).2 ▸ hseg) hnot
  · -- before the first use
    subst hlog
    obtain ⟨v, hseg, -⟩ := run_append.mp h
    exact callbacks_of_idle hseg hnot

end Accepted

/-! ## Traces -/

/-- The phase of slot `i` between two tests, when `free` is the free list. Listeners, and numbers
that are no slots, are `passive`. -/
def restPhase (passive : Bool) (i : ℕ) (free : List ℕ) : Phase :=
  if passive || i ∈ free then .idle else .active

section Phases

variable {passive : Bool} {i k l : ℕ} {s : Socket} {free free' posted : List ℕ}
  {tr : List LogEntry} {e : LogEntry}

/-- Entries about other slots do not matter between two tests. -/
theorem Phase.step_of_not (hvisits : ¬e.Visits i) (hopens : ¬e.Opens i) :
    Phase.step i (restPhase passive i free) e = some (restPhase passive i free) := by
  unfold restPhase
  cases e with
  | callback kind j =>
    have hj : j ≠ i := by
      cases kind <;> first | exact hopens | exact hvisits
    cases kind <;> split <;> simp [Phase.step, hj]
  | opened j | handleClose j =>
    have hj : j ≠ i := by first | exact hopens | exact hvisits
    split <;> simp [Phase.step, hj]
  | _ => split <;> rfl

theorem run_of_not (h : ∀ e ∈ tr, ¬e.Visits i ∧ ¬e.Opens i) :
    run (Phase.step i) (restPhase passive i free) tr = some (restPhase passive i free) :=
  run_of_fixed fun e he => Phase.step_of_not (h e he).1 (h e he).2

/-- The monitor of a slot accepts a pass of the accept loop. -/
theorem AcceptPass.phase (h : AcceptPass l free free' tr) (hnodup : free.Nodup)
    (hfree : i ∈ free → passive = false) :
    run (Phase.step i) (restPhase passive i free) tr = some (restPhase passive i free') := by
  cases h with
  | full => rfl
  | released => exact run_of_not (by simp [LogEntry.Visits, LogEntry.Opens])
  | refused => exact run_of_not (by simp [LogEntry.Visits, LogEntry.Opens])
  | opened fd j =>
    -- a slot that is opened is `i` itself or leaves the phase of `i` as it was
    by_cases hj : j = i
    · subst hj
      have hnot : j ∉ free' := (List.nodup_cons.mp hnodup).1
      simp [restPhase, hfree List.mem_cons_self, hnot, run, Phase.step]
    · have hrest : restPhase passive i (j :: free') = restPhase passive i free' := by
        simp [restPhase, Ne.symm hj]
      rw [hrest]
      exact run_of_not (by simp [LogEntry.Visits, LogEntry.Opens, hj])

/-- The monitor of a slot accepts the accept loop. -/
theorem AcceptTrace.phase (h : AcceptTrace l free free' tr) (hnodup : free.Nodup)
    (hfree : i ∈ free → passive = false) :
    run (Phase.step i) (restPhase passive i free) tr = some (restPhase passive i free') := by
  induction h with
  | nil => rfl
  | pass hpass _ ih =>
    have hsuffix := hpass.suffix
    exact run_append.mpr ⟨_, hpass.phase hnodup hfree,
      ih (hnodup.sublist hsuffix.sublist) fun hi => hfree (hsuffix.subset hi)⟩

/-- What the monitor needs of the visited socket: a listener is left alone, and a connection has a
disconnect handler. -/
structure Socket.Obeys (s : Socket) (passive : Bool) : Prop where
  listener : passive = true →
    s.readHandler = some .hixoHandleAccept ∧ s.writeHandler = none ∧ s.close = false
  connection : passive = false → s.disconnectHandler ≠ none

/-- A slot that is to be closed after the first test of a visit is no listener. -/
theorem ReadTrace.not_passive {closed : Bool} (h : ReadTrace s k closed free free' tr)
    (hs : s.Obeys passive) (hclosed : closed = true) : passive = false := by
  by_contra hpassive
  obtain ⟨hread, -, hclose⟩ := hs.listener (by simpa using hpassive)
  cases h with
  | skip | accept => simp [hclose] at hclosed
  | app _ hhandler => simp [hread] at hhandler

/-- The monitor of a slot accepts the first test of a visit. -/
theorem ReadTrace.phase {closed : Bool} (h : ReadTrace s k closed free free' tr)
    (hs : k = i → s.Obeys passive) (hk : k = i → i ∉ free) (hnodup : free.Nodup)
    (hfree : i ∈ free → passive = false) :
    run (Phase.step i) (restPhase passive i free) tr = some (restPhase passive i free') := by
  cases h with
  | skip => rfl
  | accept _ _ hacc =>
    refine run_cons.mpr ⟨_, ?_, hacc.phase hnodup hfree⟩
    unfold restPhase
    split <;> rfl
  | app _ hhandler =>
    by_cases hki : k = i
    · -- a listener has no handlers of its own, so the slot whose callback runs is a connection
      have hpassive : passive = false := by
        by_contra hpassive
        simp [((hs hki).listener (by simpa using hpassive)).1] at hhandler
      simp [restPhase, hpassive, hk hki, run, Phase.step]
    · exact run_of_not (by simp [LogEntry.Visits, LogEntry.Opens, hki])

/-- The monitor of a slot accepts the second test of a visit, when a slot that is closed is in use
and has a disconnect handler. -/
theorem CloseTrace.phase {handler : Option Callback} {closed : Bool}
    (h : CloseTrace k handler closed free free' tr)
    (hclosed : k = i → closed = true → passive = false ∧ handler ≠ none ∧ i ∉ free) :
    run (Phase.step i) (restPhase passive i free) tr = some (restPhase passive i free') := by
  have hrest (hki : k ≠ i) : restPhase passive i (k :: free) = restPhase passive i free := by
    simp [restPhase, Ne.symm hki]
  cases h with
  | skip => rfl
  | quiet =>
    -- a connection has a disconnect callback, so a quiet close is not one of slot `i`
    have hki : k ≠ i := fun hki => (hclosed hki rfl).2.1 rfl
    rw [hrest hki]
    exact run_of_not (by simp [LogEntry.Visits, LogEntry.Opens, hki])
  | callback =>
    by_cases hki : k = i
    · subst hki
      obtain ⟨hpassive, -, hfree⟩ := hclosed rfl rfl
      simp [restPhase, hpassive, hfree, run, Phase.step]
    · rw [hrest hki]
      exact run_of_not (by simp [LogEntry.Visits, LogEntry.Opens, hki])

/-- The monitor of a slot accepts the third test of a visit. -/
theorem WriteTrace.phase {closed : Bool} (h : WriteTrace k s.writable s.writeHandler closed tr)
    (hs : k = i → s.Obeys passive) (hk : k = i → closed = false → i ∉ free) :
    run (Phase.step i) (restPhase passive i free) tr = some (restPhase passive i free) := by
  generalize s.writable = writable at h
  generalize hhandler : s.writeHandler = handler at h
  cases h with
  | skip => rfl
  | callback =>
    by_cases hki : k = i
    · have hpassive : passive = false := by
        by_contra hpassive
        simp [((hs hki).listener (by simpa using hpassive)).2.1] at hhandler
      simp [restPhase, hpassive, hk hki rfl, run, Phase.step]
    · exact run_of_not (by simp [LogEntry.Visits, LogEntry.Opens, hki])

/-- The monitor of a slot accepts a visit, of this slot or of another one. -/
theorem VisitTrace.phase (h : VisitTrace s k free free' tr) (hs : k = i → s.Obeys passive)
    (hk : k ∉ free) (hnodup : free.Nodup) (hfree : i ∈ free → passive = false) :
    run (Phase.step i) (restPhase passive i free) tr = some (restPhase passive i free') ∧
      free'.Nodup ∧ (i ∈ free' → passive = false) := by
  obtain ⟨hread, hclose, hwrite⟩ := h
  -- the visit reads, then closes, then writes; the free list changes in the first two steps only
  rename_i closed free₁ tr₁ tr₂ tr₃
  have hk₁ : k ∉ free₁ := fun hmem => hk (hread.suffix.subset hmem)
  have hnodup₁ : free₁.Nodup := hnodup.sublist hread.suffix.sublist
  have hrun₁ := hread.phase hs (fun hki => hki ▸ hk) hnodup hfree
  have hrun₂ := hclose.phase fun hki hclosed =>
    ⟨hread.not_passive (hs hki) hclosed,
      (hs hki).connection (hread.not_passive (hs hki) hclosed), hki ▸ hk₁⟩
  have heq := hclose.free_eq
  have hrun₃ : run (Phase.step i) (restPhase passive i free') tr₃ =
      some (restPhase passive i free') := hwrite.phase hs fun hki hopen => by
    rw [heq, hopen]
    exact hki ▸ hk₁
  refine ⟨run_append.mpr ⟨_, hrun₁, run_append.mpr ⟨_, hrun₂, hrun₃⟩⟩, ?_, fun hi => ?_⟩
  · rw [heq]
    split
    · exact List.nodup_cons.mpr ⟨hk₁, hnodup₁⟩
    · exact hnodup₁
  · rw [heq] at hi
    split at hi
    next hclosed =>
      rcases List.mem_cons.mp hi with rfl | hi
      · exact hread.not_passive (hs rfl) hclosed
      · exact hfree (hread.suffix.subset hi)
    next => exact hfree (hread.suffix.subset hi)

/-- The monitor of a slot accepts the traversal. -/
theorem TraverseTrace.phase {sock : ℕ → Socket} (h : TraverseTrace sock posted free free' tr)
    (hs : i ∈ posted → (sock i).Obeys passive) (hposted : posted.Nodup)
    (hdisjoint : posted.Disjoint free) (hnodup : free.Nodup)
    (hfree : i ∈ free → passive = false) :
    run (Phase.step i) (restPhase passive i free) tr = some (restPhase passive i free') := by
  induction h with
  | nil => rfl
  | @cons k posted free free₁ free₂ tr tr' hvisit _ ih =>
    have hk : k ∉ free := fun hmem => hdisjoint List.mem_cons_self hmem
    obtain ⟨hrun, hnodup₁, hfree₁⟩ := hvisit.phase
      (fun hki => hki ▸ hs (hki ▸ List.mem_cons_self)) hk hnodup hfree
    exact run_append.mpr ⟨_, hrun, ih (fun hi => hs (List.mem_cons_of_mem _ hi))
      (List.nodup_cons.mp hposted).2 (hvisit.disjoint hposted hdisjoint) hnodup₁ hfree₁⟩

end Phases

/-! ## Passes and runs -/

section Pass

variable {power₀ : ℤ} {w w₁ w' : Worker} {free conns free' conns' posted : List ℕ}
  {rslt : WaitResult} {poll tr : List LogEntry} {i : ℕ}

/-- Slots that are never used as a connection. -/
def Worker.passive (w : Worker) (i : ℕ) : Bool := decide (i ∈ w.listeners ∨ w.capacity ≤ i)

/-- A free slot is not a listener. -/
theorem Consistent.passive_eq_false (h : Consistent power₀ w [] free conns posted)
    (hi : i ∈ free) : w.passive i = false := by
  have hl : i ∉ w.listeners := fun hl => h.lists.notMem_free (h.roles.listeners_subset hl) hi
  have hlt : i < w.capacity := h.lists.mem_iff.mp (Or.inr (Or.inl hi))
  simpa [Worker.passive] using ⟨hl, hlt⟩

/-- The sockets on `mp_connections` obey, when all app modules have a disconnect callback. -/
theorem Consistent.obeys (h : Consistent power₀ w [] free conns posted)
    (happs : ∀ ctx ∈ w.appCtxList, ctx.handleDisconnect ≠ none) (hi : i ∈ conns) :
    (w.sock i).Obeys (w.passive i) := by
  have hlt : ¬w.capacity ≤ i := Nat.not_le.mpr (h.lists.lt_of_mem_conns hi)
  refine ⟨fun hpassive => ?_, fun hpassive => ?_⟩
  · have hl : i ∈ w.listeners := by simpa [Worker.passive, hlt] using hpassive
    have hlistener := h.roles.listener i hl
    exact ⟨hlistener.readHandler, hlistener.writeHandler, hlistener.close⟩
  · have hl : i ∉ w.listeners := by simpa [Worker.passive, hlt] using hpassive
    obtain ⟨ctx, hctx, -, -, hdisconnect⟩ := h.roles.connection i hi hl
    rw [hdisconnect]
    exact happs ctx hctx

/-- The monitor of a slot accepts a pass of `event_loop`. -/
theorem Iterated.phase
    (h : Iterated power₀ w w₁ w' free conns free' conns' posted rslt poll tr)
    (happs : ∀ ctx ∈ w.appCtxList, ctx.handleDisconnect ≠ none) :
    run (Phase.step i) (restPhase (w.passive i) i free) (poll ++ tr) =
      some (restPhase (w.passive i) i free') := by
  have hcons := h.polled.consistent
  have hpassive : w₁.passive i = w.passive i := by
    simp [Worker.passive, h.polled.listeners, h.polled.capacity]
  -- the events of the poll visit no slot, so the phase before the trace is the one before the poll
  refine run_append.mpr ⟨_, run_of_not fun e he => h.polled.slots he i, ?_⟩
  rw [← hpassive]
  refine h.trace.phase (fun hi => hcons.obeys (h.polled.appCtxList ▸ happs)
    (h.polled.posted_subset hi)) hcons.lists.nodup_posted (fun i hi hfree => ?_) ?_
    hcons.passive_eq_false
  · exact hcons.lists.notMem_free (h.polled.posted_subset hi) hfree
  · exact (List.nodup_append.mp (List.nodup_append.mp hcons.lists.nodup).2.1).1

end Pass

/-- The monitor accepts the log of every run, for every slot. -/
theorem run_phase {boot : BootEnv} {maxConnections : ℕ} {apps : List AppCtx} {w₀ w : Worker}
    {passes : List Pass} {ok : Bool} (hboot : boot.FreshFds)
    (hstart : startWorker boot maxConnections apps = .ok (some w₀))
    (hrun : Run w₀ passes ok w)
    (hdisconnect : ∀ ctx ∈ apps, ctx.handleDisconnect ≠ none) (i : ℕ) :
    ∃ p, run (Phase.step i) .idle w.log = some p ∧ p ≠ .ended := by
  obtain ⟨free₀, h₀, hlog, happs, -⟩ := consistent_of_startWorker hboot hstart
  have hdisconnect₀ : ∀ ctx ∈ w₀.appCtxList, ctx.handleDisconnect ≠ none := by
    intro ctx hctx
    rw [happs] at hctx
    obtain ⟨ctx', hctx', rfl⟩ := List.mem_map.mp hctx
    exact hdisconnect ctx' (List.mem_reverse.mp hctx')
  -- nothing is in use at the start
  have hphase₀ : run (Phase.step i) .idle w₀.log = some (restPhase (w₀.passive i) i free₀) := by
    have hmem := @Lists.mem_iff _ _ _ _ _ i h₀.lists
    have hidle : restPhase (w₀.passive i) i free₀ = .idle := by
      unfold restPhase
      by_cases hlt : i < w₀.capacity
      · rcases hmem.mpr hlt with hheld | hfree | hconn
        · simp at hheld
        · simp [hfree]
        · simp [Worker.passive, List.mem_reverse.mp hconn]
      · simp [Worker.passive, Nat.not_lt.mp hlt]
    rw [hidle]
    refine run_of_fixed fun e he => ?_
    cases e <;> first | rfl | exact (hlog _ he).elim
  obtain ⟨free, -, -, -, -, -, hphase⟩ := hrun.invariant
    (P := fun w free _ => w.capacity = w₀.capacity ∧ w.listeners = w₀.listeners ∧
      w.appCtxList = w₀.appCtxList ∧
      run (Phase.step i) .idle w.log = some (restPhase (w₀.passive i) i free))
    h₀ ⟨rfl, rfl, rfl, hphase₀⟩ fun w w₁ w' free conns free' conns' posted rslt poll tr _
      ⟨hcapacity, hlisteners, happs, hphase⟩ hiter => by
        have hpassive : w.passive i = w₀.passive i := by
          simp [Worker.passive, hcapacity, hlisteners]
        refine ⟨hiter.capacity.trans hcapacity, hiter.listeners.trans hlisteners,
          hiter.appCtxList.trans happs, ?_⟩
        rw [hiter.log]
        refine run_append.mpr ⟨_, hphase, ?_⟩
        rw [← hpassive]
        exact hiter.phase (happs ▸ hdisconnect₀)
  refine ⟨_, hphase, ?_⟩
  unfold restPhase
  split <;> simp

/-- In every run, every slot keeps to the callback protocol, when all app modules have a disconnect
callback. -/
theorem run_followsProtocol {boot : BootEnv} {maxConnections : ℕ} {apps : List AppCtx}
    {w₀ w : Worker} {passes : List Pass} {ok : Bool} (hboot : boot.FreshFds)
    (hstart : startWorker boot maxConnections apps = .ok (some w₀))
    (hrun : Run w₀ passes ok w)
    (hdisconnect : ∀ ctx ∈ apps, ctx.handleDisconnect ≠ none) (i : ℕ) :
    FollowsProtocol i w.log := by
  obtain ⟨p, hphase, hp⟩ := run_phase hboot hstart hrun hdisconnect i
  exact followsProtocol_of_run hphase hp

/-- The connection that is opened and closed in the sample. -/
theorem run_followsProtocol_sample : FollowsProtocol 1 (samplePasses [.read] 2).log :=
  run_followsProtocol sampleBoot_fresh startWorker_sample run_sample_read (by decide) 1

end Hixo
