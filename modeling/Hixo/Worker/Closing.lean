import Hixo.Worker.Handlers

/-!
# Requests to close

A callback asks for the closing of its connection by setting `m_close`, and `event_loop` looks at
`m_close` once in the visit of a socket: after its read handler and before its write handler.

* `NoLateClose`: no connect or write callback asks for closing;
* `ClosesHonoured`: what a pass owes to the callbacks that ask for closing;
* `Iterated.closesHonoured`, `Iterated.noLateClose`: it pays exactly when there are no late
  requests;
* `run_closesHonoured_iff`: the same for all passes of a run.
-/

namespace Hixo

open Worker

/-- No connect callback and no write callback asks for closing. -/
def NoLateClose (log : List LogEntry) : Prop := ∀ i, ¬LateClose i log

/-- What a pass from `w` to `w'` that records `seg` owes to the callbacks that ask for closing. -/
structure ClosesHonoured (w w' : Worker) (seg : List LogEntry) : Prop where
  /-- The disconnect callback runs, the socket is closed, and its slot is free at the end unless
  another connection took it since. -/
  closed : ∀ (seg₁ seg₂ : List LogEntry) (kind : CallbackKind) (i : ℕ) (f : Callback),
    seg = seg₁ ++ .callback kind i f true :: seg₂ → kind ≠ .disconnect →
    ∃ seg₃ seg₄, seg₂ = seg₃ ++ .handleClose i :: seg₄ ∧
      (∀ g, (w.sock i).disconnectHandler = some g →
        ∃ close, .callback .disconnect i g close ∈ seg₃) ∧
      (.opened i ∈ seg₄ ∨
        ∃ free : List ℕ, w'.links.IsList .freeList (free.map .node) ∧ i ∈ free)
  /-- No request is left on `mp_connections`. -/
  pending : ∀ conns : List ℕ, w'.links.IsList .connections (conns.map .node) →
    ∀ i ∈ conns, (w'.sock i).close = false

/-! ## Traces -/

/-- An entry that is in neither the first nor the last part of a list is in the middle one. -/
theorem append_eq_append_cons {α : Type} {a b c l₁ l₂ : List α} {e : α}
    (h : a ++ (b ++ c) = l₁ ++ e :: l₂) (ha : e ∉ a) (hc : e ∉ c) :
    ∃ b₁ b₂, b = b₁ ++ e :: b₂ ∧ l₂ = b₂ ++ c := by
  -- the event is not in `a`, so the first part of the segment is behind it
  obtain ⟨m, -, hm⟩ : ∃ m, l₁ = a ++ m ∧ b ++ c = m ++ e :: l₂ := by
    rcases List.append_eq_append_iff.mp h with ⟨m, hl, hm⟩ | ⟨m, rfl, hm⟩
    · exact ⟨m, hl, hm⟩
    · cases m with
      | nil => exact ⟨[], by simp, by simpa using hm.symm⟩
      | cons x m =>
        obtain ⟨rfl, -⟩ := List.cons.inj hm
        simp at ha
  -- and it is not in `c`
  rcases List.append_eq_append_iff.mp hm with ⟨n, rfl, hn⟩ | ⟨n, rfl, hn⟩
  · simp [hn] at hc
  · cases n with
    | nil =>
      simp only [List.nil_append] at hn
      simp [← hn] at hc
    | cons x n =>
      obtain ⟨rfl, rfl⟩ := List.cons.inj hn
      exact ⟨m, n, rfl, rfl⟩

section Traces

variable {s : Socket} {sock : ℕ → Socket} {i k l : ℕ} {f : Callback}
  {free free' posted : List ℕ} {tr : List LogEntry} {e : LogEntry}

/-- A pass of the accept loop leaves a free slot free, or opens it. -/
theorem AcceptPass.free_or_opened (h : AcceptPass l free free' tr) (hi : i ∈ free) :
    i ∈ free' ∨ .opened i ∈ tr := by
  cases h with
  | opened fd j =>
    rcases List.mem_cons.mp hi with rfl | hi
    · exact Or.inr (by simp)
    · exact Or.inl hi
  | _ => exact Or.inl hi

/-- The accept loop leaves a free slot free, or opens it. -/
theorem AcceptTrace.free_or_opened (h : AcceptTrace l free free' tr) (hi : i ∈ free) :
    i ∈ free' ∨ .opened i ∈ tr := by
  induction h with
  | nil => exact Or.inl hi
  | pass hpass _ ih =>
    rcases hpass.free_or_opened hi with hi | hopened
    · exact (ih hi).imp_right (List.mem_append_right _)
    · exact Or.inr (List.mem_append_left _ hopened)

theorem VisitTrace.free_or_opened (h : VisitTrace s k free free' tr) (hi : i ∈ free) :
    i ∈ free' ∨ .opened i ∈ tr := by
  obtain ⟨hread, hclose, -⟩ := h
  rename_i closed free₁ trRead trClose trWrite
  have hfirst : i ∈ free₁ ∨ .opened i ∈ trRead := by
    cases hread with
    | accept _ _ hacc => exact (hacc.free_or_opened hi).imp_right (List.mem_cons_of_mem _)
    | _ => exact Or.inl hi
  refine hfirst.imp (fun hi => ?_) (List.mem_append_left _)
  rw [hclose.free_eq]
  split
  · exact List.mem_cons_of_mem _ hi
  · exact hi

theorem TraverseTrace.free_or_opened (h : TraverseTrace sock posted free free' tr)
    (hi : i ∈ free) : i ∈ free' ∨ .opened i ∈ tr := by
  induction h with
  | nil => exact Or.inl hi
  | cons hvisit _ ih =>
    rcases hvisit.free_or_opened hi with hi | hopened
    · exact (ih hi).imp_right (List.mem_append_right _)
    · exact Or.inr (List.mem_append_left _ hopened)

/-- The second test closes a socket whose `m_close` is set. -/
theorem CloseTrace.closed {handler : Option Callback}
    (h : CloseTrace i handler true free free' tr) :
    ∃ tr₁ tr₂, tr = tr₁ ++ .handleClose i :: tr₂ ∧
      (∀ g, handler = some g → ∃ close, .callback .disconnect i g close ∈ tr₁) ∧ i ∈ free' := by
  cases h with
  | quiet rslt fd => exact ⟨[], _, rfl, by simp, List.mem_cons_self⟩
  | callback rslt fd g close =>
    refine ⟨[.callback .disconnect i g close], _, rfl, fun g' hg' => ?_, List.mem_cons_self⟩
    cases hg'
    exact ⟨close, List.mem_cons_self⟩

/-- A read callback that asks for closing gets it in the same visit. -/
theorem VisitTrace.closed_of_read {tr₁ tr₂ : List LogEntry} (h : VisitTrace s i free free' tr)
    (htr : tr = tr₁ ++ .callback .read i f true :: tr₂) :
    ∃ tr₃ tr₄, tr₂ = tr₃ ++ .handleClose i :: tr₄ ∧
      (∀ g, s.disconnectHandler = some g →
        ∃ close, .callback .disconnect i g close ∈ tr₃) ∧ i ∈ free' := by
  obtain ⟨hread, hclose, hwrite⟩ := h
  rename_i closed free₁ trRead trClose trWrite
  have hnotClose : LogEntry.callback .read i f true ∉ trClose := fun hmem =>
    List.countP_eq_zero.mp hclose.countP.1 _ hmem (by simp [LogEntry.reads])
  have hnotWrite : LogEntry.callback .read i f true ∉ trWrite := fun hmem =>
    List.countP_eq_zero.mp hwrite.countP.1 _ hmem (by simp [LogEntry.reads])
  obtain ⟨b₁, b₂, hfirst, rfl⟩ := append_eq_append_cons (a := []) htr (by simp)
    (by simp [hnotClose, hnotWrite])
  -- the entry is all that the first test records
  obtain ⟨hclosed, hb₂⟩ : closed = true ∧ b₂ = [] := by
    cases hread with
    | skip => simp at hfirst
    | @accept _ _ tr _ _ hacc =>
      have hmem : LogEntry.callback .read i f true ∈ LogEntry.handleAccept i :: tr := by
        simp [hfirst]
      rcases List.mem_cons.mp hmem with heq | hmem
      · cases heq
      · exact ((hacc.within hmem).of_visits rfl).elim
    | app =>
      cases b₁ with
      | nil =>
        simp only [List.nil_append, List.cons.injEq, LogEntry.callback.injEq] at hfirst
        exact ⟨hfirst.1.2.2.2, hfirst.2.symm⟩
      | cons => simp at hfirst
  subst hclosed hb₂
  obtain ⟨tr₃, tr₄, rfl, hdisconnect, hi⟩ := hclose.closed
  exact ⟨tr₃, tr₄ ++ trWrite, by simp, hdisconnect, hi⟩

/-- The third test of a visit records one entry at most, so any two of its entries are in any
relation. -/
theorem WriteTrace.pairwise {writable closed : Bool} {handler : Option Callback}
    {R : LogEntry → LogEntry → Prop} (h : WriteTrace k writable handler closed tr) :
    tr.Pairwise R := by
  cases h with
  | skip => exact .nil
  | callback => exact List.pairwise_singleton _ _

/-- Within a visit, nothing on the slot follows its write callback. -/
theorem VisitTrace.writes_pairwise (h : VisitTrace s k free free' tr) :
    tr.Pairwise fun e e' => e.writes k = true → ¬e'.Visits k := by
  obtain ⟨hread, hclose, hwrite⟩ := h
  have hnotRead := List.countP_eq_zero.mp hread.countP.2.1
  have hnotClose := List.countP_eq_zero.mp hclose.countP.2.1
  refine List.pairwise_append.mpr ⟨?_, List.pairwise_append.mpr ⟨?_, ?_, ?_⟩, ?_⟩
  · exact List.pairwise_of_forall_mem_list fun e he _ _ hw => absurd hw (hnotRead e he)
  · exact List.pairwise_of_forall_mem_list fun e he _ _ hw => absurd hw (hnotClose e he)
  · exact hwrite.pairwise
  · exact fun e he _ _ hw => absurd hw (hnotClose e he)
  · exact fun e he _ _ hw => absurd hw (hnotRead e he)

/-- Once the write handler ran, the slot is not visited any more. -/
theorem TraverseTrace.writes_pairwise (h : TraverseTrace sock posted free free' tr)
    (hnodup : posted.Nodup) : tr.Pairwise fun e e' => e.writes i = true → ¬e'.Visits i := by
  induction h with
  | nil => exact .nil
  | @cons k posted free free₁ free₂ tr tr' hvisit hrest ih =>
    obtain ⟨hk, hnodup⟩ := List.nodup_cons.mp hnodup
    have hik {e : LogEntry} (he : e ∈ tr) (hwrites : e.writes i = true) : i = k :=
      (hvisit.within he).of_visits (LogEntry.visits_of_writes hwrites)
    refine List.pairwise_append.mpr ⟨?_, ih hnodup, fun e he e' he' hwrites hvisits => ?_⟩
    · refine hvisit.writes_pairwise.imp_of_mem fun {e e'} he _ hpair hwrites => ?_
      obtain rfl := hik he hwrites
      exact hpair hwrites
    · obtain rfl := hik he hwrites
      exact hk ((hrest.within he').of_visits hvisits)

/-- After a late request nothing visits the slot any more. -/
theorem TraverseTrace.not_visits_of_late (h : TraverseTrace sock posted free free' tr)
    (hnodup : posted.Nodup) (hdisjoint : posted.Disjoint free) {tr₁ tr₂ : List LogEntry}
    (htr : tr = tr₁ ++ e :: tr₂) (hlate : e.Opens i ∨ e.writes i = true) :
    ∀ e' ∈ tr₂, ¬e'.Visits i := by
  have hopens := h.opens_pairwise (i := i) hnodup hdisjoint
  have hwrites := h.writes_pairwise (i := i) hnodup
  rw [htr] at hopens hwrites
  intro e' he'
  rcases hlate with hlate | hlate
  · exact (List.pairwise_cons.mp (List.pairwise_append.mp hopens).2.1).1 e' he' hlate
  · exact (List.pairwise_cons.mp (List.pairwise_append.mp hwrites).2.1).1 e' he' hlate

end Traces

/-! ## Passes -/

section Pass

variable {power₀ : ℤ} {w w₁ w' : Worker} {free conns free' conns' posted : List ℕ}
  {rslt : WaitResult} {poll tr : List LogEntry}

/-- A pass without late requests honours all requests, when none was left before. -/
theorem Iterated.closesHonoured
    (h : Iterated power₀ w w₁ w' free conns free' conns' posted rslt poll tr)
    (hpending : ∀ i ∈ conns, (w.sock i).close = false) (hlate : NoLateClose (poll ++ tr)) :
    ClosesHonoured w w' (poll ++ tr) := by
  refine ⟨fun seg₁ seg₂ kind i f hseg hkind => ?_, fun conns'' hlist i hi => ?_⟩
  · have hmem : LogEntry.callback kind i f true ∈ poll ++ tr := by
      rw [hseg]
      exact List.mem_append_right _ List.mem_cons_self
    -- only a read callback is left
    obtain rfl : kind = .read := by
      cases kind with
      | read => rfl
      | connect => exact absurd ⟨f, Or.inl hmem⟩ (hlate i)
      | write => exact absurd ⟨f, Or.inr hmem⟩ (hlate i)
      | disconnect => exact absurd rfl hkind
    have hpoll : LogEntry.callback .read i f true ∉ poll := fun he =>
      (h.polled.slots he i).1 rfl
    have htr : LogEntry.callback .read i f true ∈ tr := (List.mem_append.mp hmem).resolve_left hpoll
    have hi : i ∈ posted := (h.trace.within htr).of_visits rfl
    obtain ⟨tr₁, visit, tr₂, free₁, free₂, left, rfl, hvisit, hleft, hbefore, hafter⟩ :=
      h.trace.split h.polled.consistent.lists.nodup_posted hi
    rw [← List.append_assoc] at hseg
    obtain ⟨b₁, b₂, hb, rfl⟩ := append_eq_append_cons hseg
      (fun he => (List.mem_append.mp he).elim hpoll fun he => hbefore _ he rfl)
      (fun he => hafter _ he rfl)
    obtain ⟨tr₃, tr₄, rfl, hdisconnect, hfree⟩ := hvisit.closed_of_read hb
    refine ⟨tr₃, tr₄ ++ tr₂, by simp, fun g hg => hdisconnect g ?_, ?_⟩
    · rw [h.polled.disconnectHandler_eq]
      exact hg
    · rcases hleft.free_or_opened hfree with hfree' | hopened
      · exact Or.inr ⟨free', h.consistent.lists.freeList, hfree'⟩
      · exact Or.inl (List.mem_append_right _ hopened)
  · have hsame : conns'' = conns' := by
      have heq := hlist.unique h.consistent.lists.connections
      exact List.map_injective_iff.mpr (fun _ _ hnode => Cell.node.inj hnode) heq
    by_contra hset
    rcases h.close i (hsame ▸ hi) (by simpa using hset) with ⟨hi, -, hset⟩ | hrequest
    · simp [hpending i hi] at hset
    · exact hlate i (hrequest.append_right poll)

/-- A pass that honours all requests has no late ones. -/
theorem Iterated.noLateClose
    (h : Iterated power₀ w w₁ w' free conns free' conns' posted rslt poll tr)
    (hhonoured : ClosesHonoured w w' (poll ++ tr)) : NoLateClose (poll ++ tr) := by
  have hcons := h.polled.consistent
  have hdisjoint : posted.Disjoint free := fun i hi hfree =>
    hcons.lists.notMem_free (h.polled.posted_subset hi) hfree
  -- a late request is an entry after which nothing closes the slot
  have hnot {kind : CallbackKind} {i : ℕ} {f : Callback}
      (hkind : kind = .connect ∨ kind = .write) : .callback kind i f true ∉ poll ++ tr := by
    intro hmem
    have hpoll : LogEntry.callback kind i f true ∉ poll := by
      intro he
      rcases hkind with rfl | rfl
      · exact (h.polled.slots he i).2 rfl
      · exact (h.polled.slots he i).1 rfl
    obtain ⟨tr₁, tr₂, rfl⟩ := List.append_of_mem ((List.mem_append.mp hmem).resolve_left hpoll)
    obtain ⟨seg₃, seg₄, rfl, -⟩ := hhonoured.closed (poll ++ tr₁) tr₂ kind i f (by simp)
      (by rcases hkind with rfl | rfl <;> simp)
    refine h.trace.not_visits_of_late hcons.lists.nodup_posted hdisjoint rfl ?_
      (.handleClose i) (by simp) rfl
    rcases hkind with rfl | rfl
    · exact Or.inl rfl
    · exact Or.inr (by simp [LogEntry.writes])
  rintro i ⟨f, hconnect | hwrite⟩
  · exact hnot (Or.inl rfl) hconnect
  · exact hnot (Or.inr rfl) hwrite

end Pass

/-! ## Runs -/

/-- All passes of a run honour the requests exactly when there are no late ones, and then none is
left at the end. -/
theorem Run.closesHonoured_iff {power₀ : ℤ} {w₀ w : Worker} {free₀ conns₀ : List ℕ}
    {passes : List Pass} {ok : Bool} (hrun : Run w₀ passes ok w)
    (h₀ : Consistent power₀ w₀ [] free₀ conns₀ [])
    (hpending₀ : ∀ i ∈ conns₀, (w₀.sock i).close = false) :
    ((∀ p ∈ passes, ClosesHonoured p.before p.after p.seg) ↔
        ∀ p ∈ passes, NoLateClose p.seg) ∧
      ∃ free conns, Consistent power₀ w [] free conns [] ∧
        ((∀ p ∈ passes, NoLateClose p.seg) → ∀ i ∈ conns, (w.sock i).close = false) := by
  induction hrun with
  | start => exact ⟨by simp, free₀, conns₀, h₀, fun _ => hpending₀⟩
  | @step env passes ok w w' hrun henv hstep ih =>
    obtain ⟨hiff, free, conns, hcons, hpending⟩ := ih
    -- a pass does not stop here, as the run says that it returned
    rcases hcons.eventLoopBody henv with
      ⟨ok, w₁, w', free', conns', posted, rslt, poll, tr, hbody, hiter⟩ | ⟨-, herror⟩
    swap
    · rw [hstep] at herror
      cases herror
    rw [hstep, Except.ok.injEq, Prod.mk.injEq] at hbody
    obtain ⟨-, rfl⟩ := hbody
    have hseg : Pass.seg ⟨w, w'⟩ = poll ++ tr := by simp [Pass.seg, hiter.log]
    have honoured (hlate : ∀ p ∈ passes, NoLateClose p.seg) (hnew : NoLateClose (poll ++ tr)) :=
      hiter.closesHonoured (hpending hlate) hnew
    simp only [List.forall_mem_cons, hseg]
    refine ⟨⟨fun hall => ?_, fun hlate => ?_⟩, free', conns', hiter.consistent, fun hlate => ?_⟩
    · exact ⟨hiter.noLateClose hall.1, hiff.mp hall.2⟩
    · exact ⟨honoured hlate.2 hlate.1, hiff.mpr hlate.2⟩
    · exact (honoured hlate.2 hlate.1).pending conns' hiter.consistent.lists.connections

/-- In a run of a worker that was started, all passes honour the requests to close exactly when no
connect callback and no write callback of the run asks for closing. -/
theorem run_closesHonoured_iff {boot : BootEnv} {maxConnections : ℕ} {apps : List AppCtx}
    {w₀ w : Worker} {passes : List Pass} {ok : Bool} (hboot : boot.FreshFds)
    (hstart : startWorker boot maxConnections apps = .ok (some w₀))
    (hrun : Run w₀ passes ok w) :
    (∀ p ∈ passes, ClosesHonoured p.before p.after p.seg) ↔ ∀ p ∈ passes, NoLateClose p.seg := by
  obtain ⟨free₀, h₀, -⟩ := consistent_of_startWorker hboot hstart
  refine (hrun.closesHonoured_iff h₀ fun i hi => ?_).1
  exact (h₀.roles.listener i (List.mem_reverse.mp hi)).close

/-- The sample in which only the read callback asks for closing. -/
theorem run_closesHonoured_iff_sample :
    (∀ p ∈ samplePassList [.read] 2, ClosesHonoured p.before p.after p.seg) ↔
      ∀ p ∈ samplePassList [.read] 2, NoLateClose p.seg :=
  run_closesHonoured_iff sampleBoot_fresh startWorker_sample run_sample_read

/-- A connect callback that asks for closing is not honoured: the connection stays on
`mp_connections` with `m_close` set. -/
theorem not_closesHonoured_connect :
    ¬∀ (boot : BootEnv) (maxConnections : ℕ) (apps : List AppCtx) (w₀ w : Worker)
      (passes : List Pass) (ok : Bool), boot.FreshFds →
      startWorker boot maxConnections apps = .ok (some w₀) → Run w₀ passes ok w →
      ∀ p ∈ passes, ClosesHonoured p.before p.after p.seg := by
  intro h
  have hrun : Run sampleStart (samplePassList [.connect] 1) true (samplePasses [.connect] 1) :=
    .sample .start rfl
  have hpending := (h sampleBoot 2 [sampleApp] sampleStart _ _ true sampleBoot_fresh
    startWorker_sample hrun _ List.mem_cons_self).pending [1, 2] ⟨rfl, rfl, rfl⟩ 1 (by simp)
  have hset : ((samplePasses [.connect] 1).sock 1).close = true := rfl
  exact absurd (hset.symm.trans hpending) (by simp)

end Hixo
