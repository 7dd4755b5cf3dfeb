import Hixo.Worker.Runs

/-!
# Which handlers run in a pass

The traces of a pass say which handlers ran in it, and for which slots.

* `LogEntry.Visits`, `LogEntry.Opens`: entries of the visit of a slot and of its opening;
* `TraverseTrace.within`, `TraverseTrace.opens_pairwise`: only posted slots are visited, and a slot
  is not visited any more once it was opened in the same pass;
* `TraverseTrace.split`, `TraverseTrace.countP`: the visit of a posted slot, and how often the
  handlers of the socket run in it;
* `pass_handlersRun`: both for a pass of any run, in terms of the events of `epoll_wait`.
-/

namespace Hixo

open Worker

/-! ## Entries -/

/-- The read handler of the socket in slot `i` runs. -/
def LogEntry.reads (i : ℕ) : LogEntry → Bool
  | .handleAccept j => j = i
  | .callback .read j _ _ => j = i
  | _ => false

/-- The write handler of the socket in slot `i` runs. -/
def LogEntry.writes (i : ℕ) : LogEntry → Bool
  | .callback .write j _ _ => j = i
  | _ => false

/-- An entry of the visit of slot `i`. -/
def LogEntry.Visits (i : ℕ) : LogEntry → Prop
  | .handleAccept j => j = i
  | .callback .connect _ _ _ => False
  | .callback _ j _ _ => j = i
  | .handleClose j => j = i
  | _ => False

/-- An entry about the opening of slot `i`. -/
def LogEntry.Opens (i : ℕ) : LogEntry → Prop
  | .opened j => j = i
  | .callback .connect j _ _ => j = i
  | _ => False

/-- An entry of a traversal that visits slots in `visited` and opens slots in `opened`. -/
def LogEntry.Within (visited opened : ℕ → Prop) : LogEntry → Prop
  | .handleAccept i => visited i
  | .callback .connect i _ _ => opened i
  | .callback _ i _ _ => visited i
  | .handleClose i => visited i
  | .opened i => opened i
  | .accept _ _ | .addEvent _ _ | .delEvent _ _ | .closeFd _ => True
  | .trySpinlock _ | .spinlockUnlock | .wait _ | .socket _ => False

section Within

variable {visited visited' opened opened' : ℕ → Prop} {e : LogEntry} {i : ℕ}

theorem LogEntry.Within.mono (h : e.Within visited opened) (hvisited : ∀ i, visited i → visited' i)
    (hopened : ∀ i, opened i → opened' i) : e.Within visited' opened' := by
  cases e with
  | callback kind i =>
    cases kind with
    | connect => exact hopened i h
    | _ => exact hvisited i h
  | opened i => exact hopened i h
  | handleAccept i | handleClose i => exact hvisited i h
  | _ => exact h

theorem LogEntry.Within.of_visits (h : e.Within visited opened) (hvisits : e.Visits i) :
    visited i := by
  cases e with
  | callback kind j =>
    cases kind with
    | connect => exact hvisits.elim
    | _ => exact hvisits ▸ h
  | handleAccept j | handleClose j => exact hvisits ▸ h
  | _ => exact hvisits.elim

theorem LogEntry.Within.of_opens (h : e.Within visited opened) (hopens : e.Opens i) :
    opened i := by
  cases e with
  | callback kind j =>
    cases kind with
    | connect => exact hopens ▸ h
    | _ => exact hopens.elim
  | opened j => exact hopens ▸ h
  | _ => exact hopens.elim

end Within

theorem LogEntry.visits_of_reads {i : ℕ} {e : LogEntry} (h : e.reads i = true) : e.Visits i := by
  cases e with
  | callback kind => cases kind <;> simp_all [reads, Visits]
  | _ => simp_all [reads, Visits]

theorem LogEntry.visits_of_writes {i : ℕ} {e : LogEntry} (h : e.writes i = true) :
    e.Visits i := by
  cases e with
  | callback kind => cases kind <;> simp_all [writes, Visits]
  | _ => simp [writes] at h

/-- Nothing that runs a handler of slot `i` is in a list without entries of its visit. -/
theorem countP_eq_zero_of_not_visits {i : ℕ} {tr : List LogEntry}
    (h : ∀ e ∈ tr, ¬e.Visits i) :
    tr.countP (·.reads i) = 0 ∧ tr.countP (·.writes i) = 0 :=
  ⟨List.countP_eq_zero.mpr fun e he hreads => h e he (LogEntry.visits_of_reads hreads),
    List.countP_eq_zero.mpr fun e he hwrites => h e he (LogEntry.visits_of_writes hwrites)⟩

/-! ## The slots of a trace -/

section Slots

variable {s : Socket} {i k l : ℕ} {free free' : List ℕ} {tr : List LogEntry} {e : LogEntry}

/-- A pass of the accept loop visits nothing and opens a slot of the free list. -/
theorem AcceptPass.within (h : AcceptPass l free free' tr) (he : e ∈ tr) :
    e.Within (fun _ => False) (· ∈ free) := by
  cases h <;> simp only [List.mem_cons, List.not_mem_nil, or_false] at he
  case released =>
    subst he
    trivial
  case refused => rcases he with rfl | rfl | rfl <;> trivial
  case opened =>
    rcases he with rfl | rfl | rfl | rfl
    · trivial
    · trivial
    · exact List.mem_cons_self
    · exact List.mem_cons_self

/-- It takes slots from the front of the free list. -/
theorem AcceptPass.suffix (h : AcceptPass l free free' tr) : free' <:+ free := by
  cases h with
  | opened fd i => exact List.suffix_cons i free'
  | _ => exact List.suffix_rfl

theorem AcceptTrace.suffix (h : AcceptTrace l free free' tr) : free' <:+ free := by
  induction h with
  | nil => exact List.suffix_rfl
  | pass hpass _ ih => exact ih.trans hpass.suffix

theorem AcceptTrace.within (h : AcceptTrace l free free' tr) (he : e ∈ tr) :
    e.Within (fun _ => False) (· ∈ free) := by
  induction h with
  | nil => simp at he
  | pass hpass _ ih =>
    rcases List.mem_append.mp he with he | he
    · exact hpass.within he
    · exact (ih he).mono (fun _ => id) fun _ hi => hpass.suffix.subset hi

/-- The first test of a visit is about this slot, and about free slots that it opens. -/
theorem ReadTrace.within {closed : Bool} (h : ReadTrace s k closed free free' tr) (he : e ∈ tr) :
    e.Within (· = k) (· ∈ free) := by
  cases h with
  | skip => simp at he
  | accept _ _ hacc =>
    rcases List.mem_cons.mp he with rfl | he
    · exact rfl
    · exact (hacc.within he).mono (fun _ => False.elim) fun _ => id
  | app =>
    obtain rfl := List.mem_singleton.mp he
    exact rfl

theorem ReadTrace.suffix {closed : Bool} (h : ReadTrace s k closed free free' tr) :
    free' <:+ free := by
  cases h with
  | accept _ _ hacc => exact hacc.suffix
  | _ => exact List.suffix_rfl

/-- The second test of a visit is about this slot only, which it may free. -/
theorem CloseTrace.within {handler : Option Callback} {closed : Bool}
    (h : CloseTrace k handler closed free free' tr) (he : e ∈ tr) :
    e.Within (· = k) (fun _ => False) := by
  cases h <;> simp only [List.mem_cons, List.not_mem_nil, or_false] at he
  case quiet => rcases he with rfl | rfl | rfl <;> trivial
  case callback => rcases he with rfl | rfl | rfl | rfl <;> trivial

theorem CloseTrace.free_eq {handler : Option Callback} {closed : Bool}
    (h : CloseTrace k handler closed free free' tr) :
    free' = if closed then k :: free else free := by
  cases h <;> rfl

/-- The third test of a visit is about this slot only. -/
theorem WriteTrace.within {writable : Bool} {handler : Option Callback} {closed : Bool}
    (h : WriteTrace k writable handler closed tr) (he : e ∈ tr) :
    e.Within (· = k) (fun _ => False) := by
  cases h with
  | skip => simp at he
  | callback =>
    obtain rfl := List.mem_singleton.mp he
    exact rfl

/-- A visit visits its own slot only, and opens slots of the free list. -/
theorem VisitTrace.within (h : VisitTrace s k free free' tr) (he : e ∈ tr) :
    e.Within (· = k) (· ∈ free) := by
  obtain ⟨hread, hclose, hwrite⟩ := h
  rcases List.mem_append.mp he with he | he
  · exact hread.within he
  rcases List.mem_append.mp he with he | he
  · exact (hclose.within he).mono (fun _ => id) fun _ => False.elim
  · exact (hwrite.within he).mono (fun _ => id) fun _ => False.elim

/-- It adds at most its own slot to the free list. -/
theorem VisitTrace.subset (h : VisitTrace s k free free' tr) : free' ⊆ k :: free := by
  obtain ⟨hread, hclose, -⟩ := h
  rw [hclose.free_eq]
  split
  · exact List.cons_subset_cons k hread.suffix.subset
  · exact List.Subset.trans hread.suffix.subset (List.subset_cons_self k free)

variable {sock : ℕ → Socket} {posted : List ℕ}

/-- The posted slots that are left are not on the free list after a visit either. -/
theorem VisitTrace.disjoint (h : VisitTrace s k free free' tr) (hnodup : (k :: posted).Nodup)
    (hdisjoint : (k :: posted).Disjoint free) : posted.Disjoint free' := by
  intro i hi hfree
  rcases List.mem_cons.mp (h.subset hfree) with rfl | hfree
  · exact (List.nodup_cons.mp hnodup).1 hi
  · exact hdisjoint (List.mem_cons_of_mem _ hi) hfree

/-- The traversal visits posted slots only, and opens slots that were free or posted. -/
theorem TraverseTrace.within (h : TraverseTrace sock posted free free' tr) (he : e ∈ tr) :
    e.Within (· ∈ posted) (fun i => i ∈ free ∨ i ∈ posted) := by
  induction h with
  | nil => simp at he
  | cons hvisit _ ih =>
    rcases List.mem_append.mp he with he | he
    · refine (hvisit.within he).mono (fun i hi => ?_) fun i hi => Or.inl hi
      exact List.mem_cons.mpr (Or.inl hi)
    · refine (ih he).mono (fun i hi => List.mem_cons_of_mem _ hi) fun i hi => ?_
      rcases hi with hi | hi
      · exact (List.mem_cons.mp (hvisit.subset hi)).elim
          (fun hk => Or.inr (List.mem_cons.mpr (Or.inl hk))) Or.inl
      · exact Or.inr (List.mem_cons_of_mem _ hi)

/-- Once a slot was opened it is not visited any more. -/
theorem TraverseTrace.opens_pairwise (h : TraverseTrace sock posted free free' tr)
    (hnodup : posted.Nodup) (hdisjoint : posted.Disjoint free) :
    tr.Pairwise fun e e' => e.Opens i → ¬e'.Visits i := by
  induction h with
  | nil => exact .nil
  | @cons k posted free free₁ free₂ tr tr' hvisit hrest ih =>
    have hnot {e e' : LogEntry} (he : e ∈ tr) (hopens : e.Opens i) (he' : e' ∈ tr ++ tr') :
        ¬e'.Visits i := by
      -- the slot was on the free list, so it is none of those that are posted
      have hfree : i ∈ free := (hvisit.within he).of_opens hopens
      intro hvisits
      refine hdisjoint ?_ hfree
      rcases List.mem_append.mp he' with he' | he'
      · exact List.mem_cons.mpr (Or.inl ((hvisit.within he').of_visits hvisits))
      · exact List.mem_cons_of_mem _ ((hrest.within he').of_visits hvisits)
    refine List.pairwise_append.mpr ⟨?_, ?_, fun e he e' he' hopens => ?_⟩
    · exact List.pairwise_of_forall_mem_list fun e he e' he' hopens =>
        hnot he hopens (List.mem_append_left _ he')
    · exact ih (List.nodup_cons.mp hnodup).2 (hvisit.disjoint hnodup hdisjoint)
    · exact hnot he hopens (List.mem_append_right _ he')

/-- The traversal visits a posted slot once, and nothing before or after this visit is about it. -/
theorem TraverseTrace.split (h : TraverseTrace sock posted free free' tr) (hnodup : posted.Nodup)
    (hi : i ∈ posted) :
    ∃ (tr₁ visit tr₂ : List LogEntry) (free₁ free₂ rest : List ℕ), tr = tr₁ ++ (visit ++ tr₂) ∧
      VisitTrace (sock i) i free₁ free₂ visit ∧ TraverseTrace sock rest free₂ free' tr₂ ∧
      (∀ e ∈ tr₁, ¬e.Visits i) ∧ ∀ e ∈ tr₂, ¬e.Visits i := by
  induction h with
  | nil => simp at hi
  | @cons k posted free free₁ free₂ tr tr' hvisit hrest ih =>
    obtain ⟨hk, hnodup⟩ := List.nodup_cons.mp hnodup
    -- the visit sought is the first one, or it is in what follows
    rcases List.mem_cons.mp hi with rfl | hrest'
    · refine ⟨[], tr, tr', free, free₁, posted, by simp, hvisit, hrest, by simp,
        fun e he hvisits => ?_⟩
      exact hk ((hrest.within he).of_visits hvisits)
    · obtain ⟨tr₁, visit, tr₂, free₃, free₄, left, rfl, hvisit', hleft, hbefore, hafter⟩ :=
        ih hnodup hrest'
      refine ⟨tr ++ tr₁, visit, tr₂, free₃, free₄, left, by simp, hvisit', hleft,
        fun e he hvisits => ?_, hafter⟩
      rcases List.mem_append.mp he with he | he
      · obtain rfl := (hvisit.within he).of_visits hvisits
        exact hk hrest'
      · exact hbefore e he hvisits

end Slots

/-! ## How often the handlers run -/

section Counts

variable {s : Socket} {sock : ℕ → Socket} {i : ℕ} {posted free free' : List ℕ}
  {tr : List LogEntry}

/-- The second test of a visit runs neither the read nor the write handler, and closes the slot when
it is asked to. -/
theorem CloseTrace.countP {handler : Option Callback} {closed : Bool}
    (h : CloseTrace i handler closed free free' tr) :
    tr.countP (·.reads i) = 0 ∧ tr.countP (·.writes i) = 0 ∧
      (.handleClose i ∈ tr ↔ closed = true) := by
  cases h <;> simp [LogEntry.reads, LogEntry.writes]

/-- The first test runs the read handler, if there is one. -/
theorem ReadTrace.countP {closed : Bool} (h : ReadTrace s i closed free free' tr) :
    tr.countP (·.reads i) = (if s.readable = true ∧ s.readHandler ≠ none then 1 else 0) ∧
      tr.countP (·.writes i) = 0 ∧ .handleClose i ∉ tr := by
  cases h with
  | skip h =>
    rcases h with h | h <;> simp [h]
  | @accept _ _ tr hreadable hhandler hacc =>
    have hnot : ∀ e ∈ tr, ¬e.Visits i := fun e he hvisits => (hacc.within he).of_visits hvisits
    obtain ⟨hreads, hwrites⟩ := countP_eq_zero_of_not_visits hnot
    refine ⟨?_, ?_, ?_⟩
    · rw [List.countP_cons_of_pos (by simp [LogEntry.reads]), hreads, hhandler]
      simp [hreadable]
    · rw [List.countP_cons_of_neg (by simp [LogEntry.writes]), hwrites]
    · rw [List.mem_cons, not_or]
      exact ⟨by simp, fun hmem => hnot _ hmem rfl⟩
  | app hreadable hhandler =>
    simp [hreadable, hhandler, LogEntry.reads, LogEntry.writes]

/-- The third test runs the write handler, unless the socket was closed. -/
theorem WriteTrace.countP {writable : Bool} {handler : Option Callback} {closed : Bool}
    (h : WriteTrace i writable handler closed tr) :
    tr.countP (·.reads i) = 0 ∧
      tr.countP (·.writes i) =
        (if closed = false ∧ writable = true ∧ handler ≠ none then 1 else 0) ∧
      .handleClose i ∉ tr := by
  cases h with
  | skip h =>
    rcases h with h | h | h <;> simp [h]
  | callback => simp [LogEntry.reads, LogEntry.writes]

/-- In its visit, the read handler of a readable socket runs once, and the write handler of a
writable socket runs once unless the visit closes it. -/
theorem VisitTrace.countP (h : VisitTrace s i free free' tr) :
    tr.countP (·.reads i) = (if s.readable = true ∧ s.readHandler ≠ none then 1 else 0) ∧
      tr.countP (·.writes i) = (if .handleClose i ∉ tr ∧ s.writable = true ∧
        s.writeHandler ≠ none then 1 else 0) := by
  obtain ⟨hread, hclose, hwrite⟩ := h
  obtain ⟨hreads₁, hwrites₁, hnot₁⟩ := hread.countP
  obtain ⟨hreads₂, hwrites₂, hclosed⟩ := hclose.countP
  obtain ⟨hreads₃, hwrites₃, hnot₃⟩ := hwrite.countP
  simp only [List.countP_append, List.mem_append, hreads₁, hreads₂, hreads₃, hwrites₁, hwrites₂,
    hwrites₃, hnot₁, hnot₃, hclosed, false_or, or_false, Bool.not_eq_true, Nat.add_zero,
    Nat.zero_add, and_self]

/-- So in the traversal the read handler of a posted socket runs once if it can be read. -/
theorem TraverseTrace.countP (h : TraverseTrace sock posted free free' tr)
    (hnodup : posted.Nodup) (hi : i ∈ posted) :
    tr.countP (·.reads i) =
        (if (sock i).readable = true ∧ (sock i).readHandler ≠ none then 1 else 0) ∧
      tr.countP (·.writes i) = (if .handleClose i ∉ tr ∧ (sock i).writable = true ∧
        (sock i).writeHandler ≠ none then 1 else 0) := by
  obtain ⟨tr₁, visit, tr₂, free₁, free₂, -, htr, hvisit, -, hbefore, hafter⟩ :=
    h.split hnodup hi
  subst htr
  obtain ⟨hreads₁, hwrites₁⟩ := countP_eq_zero_of_not_visits hbefore
  obtain ⟨hreads₂, hwrites₂⟩ := countP_eq_zero_of_not_visits hafter
  obtain ⟨hreads, hwrites⟩ := hvisit.countP
  have hbefore' : LogEntry.handleClose i ∉ tr₁ := fun hmem => hbefore _ hmem rfl
  have hafter' : LogEntry.handleClose i ∉ tr₂ := fun hmem => hafter _ hmem rfl
  simp only [List.countP_append, List.mem_append, hreads₁, hwrites₁, hreads₂, hwrites₂, hreads,
    hwrites, hbefore', hafter', false_or, or_false, Nat.zero_add, Nat.add_zero, and_self]

end Counts

/-! ## A pass -/

/-- What a pass that starts in `w` and records `seg` does with the handlers, when `epoll_wait`
gave the events `evs`. -/
structure HandlersRun (w : Worker) (evs : List EpollEvent) (seg : List LogEntry) : Prop where
  /-- Readable sockets are read once. -/
  reads : ∀ ev ∈ evs, (hixoEventIn ||| hixoEventErr ||| hixoEventHup) &&& ev.events ≠ 0 →
    (w.sock ev.slot).readHandler ≠ none → seg.countP (·.reads ev.slot) = 1
  /-- Writable sockets are written to once, unless the visit closed them. -/
  writes : ∀ ev ∈ evs, (hixoEventOut ||| hixoEventErr ||| hixoEventHup) &&& ev.events ≠ 0 →
    (w.sock ev.slot).writeHandler ≠ none →
    seg.countP (·.writes ev.slot) = if .handleClose ev.slot ∈ seg then 0 else 1
  /-- Nothing runs for other sockets. -/
  others : ∀ i, i ∉ evs.map EpollEvent.slot →
    seg.countP (·.reads i) = 0 ∧ seg.countP (·.writes i) = 0
  /-- Nothing runs for a connection that the pass opened. -/
  opened : ∀ i seg₁ seg₂, seg = seg₁ ++ .opened i :: seg₂ →
    seg₂.countP (·.reads i) = 0 ∧ seg₂.countP (·.writes i) = 0

/-- Polling and waiting visit no slot and open none. -/
theorem Polled.slots {power₀ : ℤ} {w w₁ : Worker} {free conns posted : List ℕ}
    {rslt : WaitResult} {poll : List LogEntry} (h : Polled power₀ w w₁ free conns posted rslt poll)
    {e : LogEntry} (he : e ∈ poll) (i : ℕ) : ¬e.Visits i ∧ ¬e.Opens i := by
  obtain ⟨tr₁, tr₂, rfl, hpolling⟩ := h.trace
  have hcases : e = .wait rslt ∨ e.IsPolling := by
    rcases List.mem_append.mp he with he | he
    · exact Or.inr (hpolling e (List.mem_append_left _ he))
    · rcases List.mem_cons.mp he with rfl | he
      · exact Or.inl rfl
      · exact Or.inr (hpolling e (List.mem_append_right _ he))
  rcases hcases with rfl | hpoll
  · exact ⟨id, id⟩
  · cases e <;> first | exact hpoll.elim | exact ⟨id, id⟩

section Pass

variable {power₀ : ℤ} {w w₁ w' : Worker} {free conns free' conns' posted : List ℕ}
  {rslt : WaitResult} {poll tr : List LogEntry}

/-- A pass waits once, and gets the result of this call. -/
theorem Iterated.wait_iff
    (h : Iterated power₀ w w₁ w' free conns free' conns' posted rslt poll tr) (r : WaitResult) :
    .wait r ∈ poll ++ tr ↔ r = rslt := by
  obtain ⟨tr₁, tr₂, hpoll, hpolling⟩ := h.polled.trace
  have htr : .wait r ∉ tr := fun hmem => h.trace.within hmem
  have hnot (tr' : List LogEntry) (hsub : tr' ⊆ tr₁ ++ tr₂) : .wait r ∉ tr' :=
    fun hmem => hpolling _ (hsub hmem)
  simp [hpoll, htr, hnot tr₁ (List.subset_append_left _ _), hnot tr₂ (List.subset_append_right _ _)]

/-- In a pass the handlers run as the batch of events says. -/
theorem Iterated.handlersRun
    (h : Iterated power₀ w w₁ w' free conns free' conns' posted rslt poll tr) :
    HandlersRun w rslt.batch (poll ++ tr) := by
  have hnodup := h.polled.consistent.lists.nodup_posted
  have hdisjoint : posted.Disjoint free := fun i hi hfree =>
    h.polled.consistent.lists.notMem_free (h.polled.posted_subset hi) hfree
  -- waiting for events calls no handler: all calls are those of the traversal
  have hpoll (i : ℕ) := countP_eq_zero_of_not_visits fun e he => (h.polled.slots he i).1
  have hclosed (i : ℕ) : .handleClose i ∈ poll ++ tr ↔ .handleClose i ∈ tr := by
    rw [List.mem_append]
    exact or_iff_right fun hmem => (h.polled.slots hmem i).1 rfl
  refine ⟨fun ev hev hmask hhandler => ?_, fun ev hev hmask hhandler => ?_, fun i hi => ?_,
    fun i seg₁ seg₂ hseg => ?_⟩
  · -- the read handler of a socket with an input event
    have hreadable : ev.readable = true := ev.readable_iff.mpr hmask
    have hposted : ev.slot ∈ posted :=
      (h.polled.mem_posted _).mpr ⟨ev, hev, rfl, by simp [hreadable]⟩
    rw [List.countP_append, (hpoll _).1, (h.trace.countP hnodup hposted).1, h.polled.flags ev hev]
    simp [Socket.flag, hreadable, hhandler]
  · -- the write handler, unless the socket was closed before
    have hwritable : ev.writable = true := ev.writable_iff.mpr hmask
    have hposted : ev.slot ∈ posted :=
      (h.polled.mem_posted _).mpr ⟨ev, hev, rfl, by simp [hwritable]⟩
    rw [List.countP_append, (hpoll _).2, (h.trace.countP hnodup hposted).2, h.polled.flags ev hev]
    simp only [hclosed, Socket.flag, hwritable]
    by_cases hmem : LogEntry.handleClose ev.slot ∈ tr <;> simp [hmem, hhandler]
  · -- a socket without an event was not posted, hence not visited
    have hposted : i ∉ posted := by
      intro hmem
      obtain ⟨ev, hev, rfl, -⟩ := (h.polled.mem_posted i).mp hmem
      exact hi (List.mem_map_of_mem hev)
    refine countP_eq_zero_of_not_visits fun e he hvisits => ?_
    rcases List.mem_append.mp he with he | he
    · exact (h.polled.slots he i).1 hvisits
    · exact hposted ((h.trace.within he).of_visits hvisits)
  · -- a slot that the pass opened is not visited any more in it
    have hpairwise : (poll ++ tr).Pairwise fun e e' => e.Opens i → ¬e'.Visits i := by
      refine List.pairwise_append.mpr ⟨?_, h.trace.opens_pairwise hnodup hdisjoint, ?_⟩
      · exact List.pairwise_of_forall_mem_list fun e he _ _ hopens =>
          absurd hopens (h.polled.slots he i).2
      · exact fun e he _ _ hopens => absurd hopens (h.polled.slots he i).2
    rw [hseg] at hpairwise
    have hafter := (List.pairwise_cons.mp (List.pairwise_append.mp hpairwise).2.1).1
    exact countP_eq_zero_of_not_visits fun e he => hafter e he rfl

end Pass

/-- In every pass of a run the handlers of the sockets in the batch run as they should. The pass
ends in any case with nothing posted, unless a failed `EPOLL_CTL_DEL` left a pointer tagged
before: then the assertion stops the worker before it waits for events. -/
theorem pass_handlersRun {boot : BootEnv} {maxConnections : ℕ} {apps : List AppCtx}
    {w₀ w : Worker} {passes : List Pass} {env : Env} (hboot : boot.FreshFds)
    (hstart : startWorker boot maxConnections apps = .ok (some w₀))
    (hrun : Run w₀ passes true w) (henv : env.Valid) :
    (∃ ok w' rslt seg, eventLoopBody env w = .ok (ok, w') ∧ w'.log = w.log ++ seg ∧
      (∀ r, .wait r ∈ seg ↔ r = rslt) ∧ HandlersRun w rslt.batch seg ∧
      w'.links .postedEvents = none) ∨
      (∃ server ∈ w.servers, server.tagged = true) ∧
        eventLoopBody env w = .error .serverAligned := by
  obtain ⟨free₀, h₀, -⟩ := consistent_of_startWorker hboot hstart
  obtain ⟨free, conns, h, -⟩ := hrun.consistent h₀
  refine (h.eventLoopBody henv).imp_left ?_
  rintro ⟨ok, w₁, w', free', conns', posted, rslt, poll, tr, hbody, hiter⟩
  exact ⟨ok, w', rslt, poll ++ tr, hbody, hiter.log, hiter.wait_iff, hiter.handlersRun,
    hiter.consistent.lists.postedEvents⟩

/-- The pass of the sample run in which the connection is read and closed. -/
theorem pass_handlersRun_sample :
    (∃ ok w' rslt seg, eventLoopBody (sampleEnv [.read]) (samplePasses [.read] 1) = .ok (ok, w') ∧
      w'.log = (samplePasses [.read] 1).log ++ seg ∧ (∀ r, .wait r ∈ seg ↔ r = rslt) ∧
      HandlersRun (samplePasses [.read] 1) rslt.batch seg ∧ w'.links .postedEvents = none) ∨
      (∃ server ∈ (samplePasses [.read] 1).servers, server.tagged = true) ∧
        eventLoopBody (sampleEnv [.read]) (samplePasses [.read] 1) = .error .serverAligned :=
  pass_handlersRun sampleBoot_fresh startWorker_sample (.sample .start rfl)
    (sampleEnv_valid [.read])

end Hixo
