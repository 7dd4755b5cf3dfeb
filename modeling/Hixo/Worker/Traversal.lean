import Hixo.Worker.Connections

/-!
# The traversal of the posted events

What one pass of `event_loop` over `mp_posted_events` does to a consistent worker, and what it
records. The list changes under the traversal: a visited socket leaves it, the visit may free its
slot and a listener may take free slots, but the sockets that are still to be visited stay on
`mp_connections` as they were.

* `VisitTrace`: the entries of the visit of one socket, in the order of its three tests;
* `TraverseTrace`: the entries of the whole traversal;
* `Consistent.visit`, `Consistent.traverse`: both return, and leave the worker consistent.
-/

namespace Hixo

open Worker

/-! ## What is recorded -/

/-- What the first test of a visit records for socket `s` in slot `i`, with the value of `m_close`
after it. -/
inductive ReadTrace (s : Socket) (i : ℕ) : Bool → List ℕ → List ℕ → List LogEntry → Prop
  /-- There is nothing to read, or no handler. -/
  | skip {free : List ℕ} (h : s.readable = false ∨ s.readHandler = none) :
      ReadTrace s i s.close free free []
  /-- A listener accepts connections. -/
  | accept {free free' : List ℕ} {tr : List LogEntry} (hreadable : s.readable = true)
      (hhandler : s.readHandler = some .hixoHandleAccept) (h : AcceptTrace i free free' tr) :
      ReadTrace s i s.close free free' (.handleAccept i :: tr)
  /-- The callback of the app module runs. -/
  | app {free : List ℕ} {f : Callback} {close : Bool} (hreadable : s.readable = true)
      (hhandler : s.readHandler = some (.app f)) :
      ReadTrace s i close free free [.callback .read i f close]

/-- What the second test records for slot `i` with a disconnect handler, depending on
`m_close`. -/
inductive CloseTrace (i : ℕ) : Option Callback → Bool → List ℕ → List ℕ → List LogEntry → Prop
  /-- The socket stays open. -/
  | skip {handler : Option Callback} {free : List ℕ} : CloseTrace i handler false free free []
  /-- The socket is closed without a callback. -/
  | quiet {free : List ℕ} (rslt : CtlResult) (fd : ℤ) :
      CloseTrace i none true free (i :: free) [.handleClose i, .delEvent i rslt, .closeFd fd]
  /-- The callback of the app module runs, and the socket is closed. -/
  | callback {free : List ℕ} (rslt : CtlResult) (fd : ℤ) (f : Callback) (close : Bool) :
      CloseTrace i (some f) true free (i :: free)
        [.callback .disconnect i f close, .handleClose i, .delEvent i rslt, .closeFd fd]

/-- What the third test records for slot `i`, depending on `m_writable`, the write handler and
whether the socket was closed. -/
inductive WriteTrace (i : ℕ) : Bool → Option Callback → Bool → List LogEntry → Prop
  /-- The socket was closed, cannot be written to, or has no handler. -/
  | skip {writable : Bool} {handler : Option Callback} {closed : Bool}
      (h : closed = true ∨ writable = false ∨ handler = none) :
      WriteTrace i writable handler closed []
  /-- The callback of the app module runs. -/
  | callback (f : Callback) (close : Bool) :
      WriteTrace i true (some f) false [.callback .write i f close]

/-- What the visit of socket `s` in slot `i` records. -/
inductive VisitTrace (s : Socket) (i : ℕ) : List ℕ → List ℕ → List LogEntry → Prop
  | mk {closed : Bool} {free free₁ free₂ : List ℕ} {tr₁ tr₂ tr₃ : List LogEntry}
      (hread : ReadTrace s i closed free free₁ tr₁)
      (hclose : CloseTrace i s.disconnectHandler closed free₁ free₂ tr₂)
      (hwrite : WriteTrace i s.writable s.writeHandler closed tr₃) :
      VisitTrace s i free free₂ (tr₁ ++ (tr₂ ++ tr₃))

/-- What the traversal records when `sock` are the sockets at its start. -/
inductive TraverseTrace (sock : ℕ → Socket) :
    List ℕ → List ℕ → List ℕ → List LogEntry → Prop
  | nil {free : List ℕ} : TraverseTrace sock [] free free []
  | cons {i : ℕ} {posted free free₁ free₂ : List ℕ} {tr tr' : List LogEntry}
      (hvisit : VisitTrace (sock i) i free free₁ tr)
      (hrest : TraverseTrace sock posted free₁ free₂ tr') :
      TraverseTrace sock (i :: posted) free free₂ (tr ++ tr')

/-- What the traversal records depends only on the sockets that it visits. -/
theorem TraverseTrace.congr {sock sock' : ℕ → Socket} {posted free free' : List ℕ}
    {tr : List LogEntry} (h : TraverseTrace sock posted free free' tr)
    (heq : ∀ i ∈ posted, sock i = sock' i) : TraverseTrace sock' posted free free' tr := by
  induction h with
  | nil => exact .nil
  | cons hvisit _ ih =>
    refine .cons (heq _ List.mem_cons_self ▸ hvisit) (ih fun i hi => ?_)
    exact heq i (List.mem_cons_of_mem _ hi)

namespace Consistent

variable {power₀ : ℤ} {w : Worker} {free conns posted : List ℕ} {i : ℕ}

/-! ## The three tests -/

/-- The first test. A listener opens connections, and a connection may ask for closing. -/
theorem visitRead (h : Consistent power₀ w [] free conns posted) {env : Env}
    (hfresh : env.FreshFds) (hi : i ∈ conns) :
    ∃ w' free' conns' tr, Worker.visitRead env w i = .ok w' ∧
      Consistent power₀ w' [] free' conns' posted ∧ conns ⊆ conns' ∧
      Keeps w w' (conns.erase i) ∧ w'.log = w.log ++ tr ∧
      ReadTrace (w.sock i) i (w'.sock i).close free free' tr ∧
      (w'.sock i).disconnectHandler = (w.sock i).disconnectHandler ∧
      (w'.sock i).writable = (w.sock i).writable ∧
      (w'.sock i).writeHandler = (w.sock i).writeHandler ∧
      (∀ j ∈ conns', j ∉ conns → (w'.sock j).close = true → LateClose j tr) := by
  have hsub : conns.erase i ⊆ conns := List.erase_subset
  have hskip (hnot : (w.sock i).readable = false ∨ (w.sock i).readHandler = none) :
      ReadTrace (w.sock i) i (w.sock i).close free free [] := .skip hnot
  unfold Worker.visitRead
  by_cases hreadable : (w.sock i).readable = true
  · rw [if_pos hreadable]
    cases hhandler : (w.sock i).readHandler with
    | none =>
      exact ⟨w, free, conns, [], rfl, h, List.Subset.refl _, .refl _ _,
        by simp, hskip (Or.inr hhandler), rfl, rfl, rfl, fun j hj hnot => absurd hj hnot⟩
    | some handler =>
      cases handler with
      | hixoHandleAccept =>
        -- only listeners have this handler
        have hl : i ∈ w.listeners := by
          by_contra hnot
          obtain ⟨ctx, -, hread, -⟩ := h.roles.connection i hi hnot
          rw [hhandler] at hread
          cases hctx : ctx.handleRead <;> simp [hctx] at hread
        obtain ⟨w', free', conns', tr, hrun, hacc, htrace⟩ := h.hixoHandleAccept hfresh hl
        have hsock := hacc.keeps.sock i hi
        refine ⟨w', free', conns', _, hrun, hacc.consistent, hacc.subset, hacc.keeps.mono hsub,
          hacc.log, ?_, by rw [hsock], by rw [hsock], by rw [hsock], hacc.close⟩
        rw [hsock]
        exact .accept hreadable hhandler htrace
      | app f =>
        have hl : i ∉ w.listeners := by
          intro hl
          have hread := (h.roles.listener i hl).readHandler
          rw [hhandler] at hread
          simp at hread
        refine ⟨_, free, conns, _, rfl, h.runCallback env .read f hl, List.Subset.refl _,
          keeps_runCallback env w .read f ?_, rfl, ?_, ?_, ?_, ?_,
          fun j hj hnot => absurd hj hnot⟩
        · exact fun hmem => (h.lists.nodup_conns.mem_erase_iff.mp hmem).1 rfl
        · have hclose : ((w.runCallback env .read i f).sock i).close =
              (env.callback w .read i f).close := by
            simp [Worker.runCallback, Worker.record, modifySock]
          rw [hclose]
          exact .app hreadable hhandler
        all_goals simp [Worker.runCallback, Worker.record, modifySock]
  · rw [if_neg hreadable]
    exact ⟨w, free, conns, [], rfl, h, List.Subset.refl _, .refl _ _,
      by simp, hskip (Or.inl (by simpa using hreadable)), rfl, rfl, rfl,
      fun j hj hnot => absurd hj hnot⟩

/-- The second test. A socket that is to be closed is no listener; its slot is free
afterwards. -/
theorem visitClose (h : Consistent power₀ w [] free conns posted) (env : Env) (hi : i ∈ conns) :
    ∃ w' free' conns' tr, Worker.visitClose env w i = .ok w' ∧
      Consistent power₀ w' [] free' conns' posted ∧ conns.erase i ⊆ conns' ∧ conns' ⊆ conns ∧
      Keeps w w' (conns.erase i) ∧ w'.log = w.log ++ tr ∧
      CloseTrace i (w.sock i).disconnectHandler (w.sock i).close free free' tr ∧
      (((w.sock i).close = false ∧ w'.sock i = w.sock i ∧ i ∈ conns') ∨
        ((w.sock i).close = true ∧ (w'.sock i).writable = false ∧ i ∉ conns')) := by
  have hnodup := h.lists.nodup_conns
  have hnotMem : i ∉ conns.erase i := fun hmem => (hnodup.mem_erase_iff.mp hmem).1 rfl
  unfold Worker.visitClose
  by_cases hclose : (w.sock i).close = true
  · -- nothing ever sets the flag of a listener
    have hl : i ∉ w.listeners := fun hl => by
      simp [(h.roles.listener i hl).close] at hclose
    rw [if_pos hclose]
    cases hhandler : (w.sock i).disconnectHandler with
    | none =>
      obtain ⟨w', rslt, fd, hrun, hcons, hkeeps, hlog, hwritable⟩ := h.hixoHandleClose env hi hl
      refine ⟨w', i :: free, conns.erase i, _, hrun, hcons, List.Subset.refl _,
        List.erase_subset, hkeeps, hlog, ?_, Or.inr ⟨hclose, hwritable, hnotMem⟩⟩
      rw [hclose]
      exact .quiet rslt fd
    | some f =>
      -- the disconnect handler runs first; it reaches the flags and queues of its socket only
      have hcallback := h.runCallback env .disconnect f hl
      obtain ⟨w', rslt, fd, hrun, hcons, hkeeps, hlog, hwritable⟩ :=
        hcallback.hixoHandleClose env hi hl
      refine ⟨w', i :: free, conns.erase i,
        [.callback .disconnect i f (env.callback w .disconnect i f).close,
          .handleClose i, .delEvent i rslt, .closeFd fd], hrun, hcons, List.Subset.refl _,
        List.erase_subset, (keeps_runCallback env w .disconnect f hnotMem).trans hkeeps
          (List.Subset.refl _), ?_, ?_, Or.inr ⟨hclose, hwritable, hnotMem⟩⟩
      · rw [hlog]
        simp [Worker.runCallback, Worker.record, modifySock]
      · rw [hclose]
        exact .callback rslt fd f _
  · -- the flag is not set: nothing happens
    have hfalse : (w.sock i).close = false := by simpa using hclose
    rw [if_neg hclose]
    refine ⟨w, free, conns, [], rfl, h, List.erase_subset, List.Subset.refl _,
      .refl _ _, by simp, ?_, Or.inl ⟨hfalse, rfl, hi⟩⟩
    rw [hfalse]
    exact .skip

/-- The third test of a visit, for a socket that stayed open, leaves the worker consistent and calls
the write handler at most. -/
theorem visitWrite (h : Consistent power₀ w [] free conns posted) (env : Env) :
    ∃ tr, Consistent power₀ (w.visitWrite env i) [] free conns posted ∧
      Keeps w (w.visitWrite env i) (conns.erase i) ∧ (w.visitWrite env i).log = w.log ++ tr ∧
      WriteTrace i (w.sock i).writable (w.sock i).writeHandler false tr ∧
      (((w.visitWrite env i).sock i).close = true → (w.sock i).close = false → LateClose i tr) := by
  -- when the handler is not called, neither the worker nor the log changes
  have hskip : WriteTrace i (w.sock i).writable (w.sock i).writeHandler false [] →
      ∃ tr, Consistent power₀ w [] free conns posted ∧ Keeps w w (conns.erase i) ∧
        w.log = w.log ++ tr ∧
        WriteTrace i (w.sock i).writable (w.sock i).writeHandler false tr ∧
        ((w.sock i).close = true → (w.sock i).close = false → LateClose i tr) := fun htrace =>
    ⟨[], h, .refl _ _, by simp, htrace, fun ht hf => by simp [ht] at hf⟩
  unfold Worker.visitWrite
  by_cases hwritable : (w.sock i).writable = true
  · rw [if_pos hwritable]
    cases hhandler : (w.sock i).writeHandler with
    | none =>
      rw [hhandler] at hskip
      exact hskip (.skip (Or.inr (Or.inr rfl)))
    | some f =>
      -- a listener has no write handler
      have hl : i ∉ w.listeners := by
        intro hl
        have hwrite := (h.roles.listener i hl).writeHandler
        rw [hhandler] at hwrite
        simp at hwrite
      rw [hwritable]
      refine ⟨_, h.runCallback env .write f hl, keeps_runCallback env w .write f ?_, rfl,
        .callback f _, fun hclose _ => ⟨f, Or.inr ?_⟩⟩
      · exact fun hmem => (h.lists.nodup_conns.mem_erase_iff.mp hmem).1 rfl
      · -- only the callback can have set the flag
        have htrue : (env.callback w .write i f).close = true := by
          simpa [Worker.runCallback, Worker.record, modifySock] using hclose
        simp [htrue]
  · rw [if_neg hwritable]
    exact hskip (.skip (Or.inr (Or.inl (by simpa using hwritable))))

/-! ## The visit -/

/-- The visit of the first posted socket. Afterwards it is off `mp_posted_events`; a socket that
then is on `mp_connections` with `m_close` set, and was not so before, was asked for that too
late. -/
theorem visit (h : Consistent power₀ w [] free conns (i :: posted)) {env : Env}
    (hfresh : env.FreshFds) (hi : i ∈ conns) :
    ∃ w' free' conns' tr, Worker.visit env w i = .ok w' ∧
      Consistent power₀ w' [] free' conns' posted ∧ conns.erase i ⊆ conns' ∧
      Keeps w w' (conns.erase i) ∧ w'.log = w.log ++ tr ∧
      VisitTrace (w.sock i) i free free' tr ∧
      (∀ j ∈ conns', j ∉ conns.erase i → (w'.sock j).close = true → LateClose j tr) := by
  obtain ⟨w₁, free₁, conns₁, tr₁, hrun₁, h₁, hsub₁, hkeeps₁, hlog₁, hread, hdisconnect₁,
    hwritable₁, hwrite₁, hclose₁⟩ := h.visitRead hfresh hi
  obtain ⟨w₂, free₂, conns₂, tr₂, hrun₂, h₂, hsub₂, hsub₂', hkeeps₂, hlog₂, hclose, hcases⟩ :=
    h₁.visitClose env (hsub₁ hi)
  have herase : conns.erase i ⊆ conns₁.erase i := by
    intro j hj
    obtain ⟨hne, hj⟩ := h.lists.nodup_conns.mem_erase_iff.mp hj
    exact (List.mem_erase_of_ne hne).mpr (hsub₁ hj)
  -- a socket other than `i` keeps its flags from the first test on
  have hother {j : ℕ} (hj : j ∈ conns₂) (hji : j ≠ i) (hnot : j ∉ conns.erase i)
      (hset : (w₂.sock j).close = true) : LateClose j tr₁ := by
    have hj₁ : j ∈ conns₁.erase i := (List.mem_erase_of_ne hji).mpr (hsub₂' hj)
    rw [hkeeps₂.sock j hj₁] at hset
    exact hclose₁ j (hsub₂' hj) (fun hjc => hnot ((List.mem_erase_of_ne hji).mpr hjc)) hset
  -- the third test runs for a socket that stayed open
  obtain ⟨tr₃, h₃, hkeeps₃, hlog₃, hwrite, hlate⟩ : ∃ tr₃,
      Consistent power₀ (w₂.visitWrite env i) [] free₂ conns₂ (i :: posted) ∧
      Keeps w₂ (w₂.visitWrite env i) (conns₂.erase i) ∧
      (w₂.visitWrite env i).log = w₂.log ++ tr₃ ∧
      WriteTrace i (w.sock i).writable (w.sock i).writeHandler (w₁.sock i).close tr₃ ∧
      (i ∈ conns₂ → ((w₂.visitWrite env i).sock i).close = true → LateClose i tr₃) := by
    rcases hcases with ⟨hopen, hsock, hi₂⟩ | ⟨hclosed, hwritable, hi₂⟩
    · obtain ⟨tr₃, h₃, hkeeps₃, hlog₃, hwrite, hlate⟩ := h₂.visitWrite (i := i) env
      rw [hsock, hwritable₁, hwrite₁, ← hopen] at hwrite
      refine ⟨tr₃, h₃, hkeeps₃, hlog₃, hwrite, fun _ hset => hlate hset ?_⟩
      rw [hsock, hopen]
    · refine ⟨[], ?_⟩
      rw [Worker.visitWrite, hwritable, if_neg (by simp)]
      exact ⟨h₂, .refl _ _, by simp, .skip (Or.inl hclosed),
        fun hmem => absurd hmem hi₂⟩
  obtain ⟨links, hrm, hlists⟩ := h₃.lists.unpost
  have hsub : conns.erase i ⊆ conns₂ := List.Subset.trans herase hsub₂
  refine ⟨{ w₂.visitWrite env i with links }, free₂, conns₂, tr₁ ++ (tr₂ ++ tr₃), ?_, ?_, hsub,
    ?_, ?_, ?_, fun j hj hnot hset => ?_⟩
  · simp only [Worker.visit, hrun₁, hrun₂, hrm, bind, Except.bind]
  · exact ⟨hlists, h₃.descriptors.congr rfl (fun _ _ => ⟨rfl, rfl⟩) (fun _ _ hr => hr)
      h₃.descriptors.accounted, h₃.roles.congr rfl rfl rfl (fun _ _ => rfl)
        (fun _ _ => ⟨rfl, rfl⟩) fun _ _ => ⟨rfl, rfl, rfl⟩⟩
  · have hsub₃ : conns.erase i ⊆ conns₂.erase i := by
      intro j hj
      have hne := (h.lists.nodup_conns.mem_erase_iff.mp hj).1
      exact (List.mem_erase_of_ne hne).mpr (hsub hj)
    have hkeeps := (hkeeps₁.trans hkeeps₂ herase).trans hkeeps₃ hsub₃
    exact ⟨hkeeps.capacity, hkeeps.servers, hkeeps.appCtxList, hkeeps.holdLock, hkeeps.interest,
      hkeeps.sock⟩
  · show (w₂.visitWrite env i).log = _
    rw [hlog₃, hlog₂, hlog₁, List.append_assoc, List.append_assoc]
  · rw [hdisconnect₁] at hclose
    exact .mk hread hclose hwrite
  · by_cases hji : j = i
    · subst hji
      exact ((hlate hj hset).append_right tr₂).append_right tr₁
    · have hset₂ : (w₂.sock j).close = true := by
        rw [← hkeeps₃.sock j ((List.mem_erase_of_ne hji).mpr hj)]
        exact hset
      exact (hother hj hji hnot hset₂).append_left (tr₂ ++ tr₃)

/-! ## The traversal -/

/-- The sockets that are still to be visited stay on `mp_connections`. -/
theorem posted_subset_erase (h : Consistent power₀ w [] free conns (i :: posted))
    (hposted : i :: posted ⊆ conns) : posted ⊆ conns.erase i := by
  intro j hj
  refine (List.mem_erase_of_ne ?_).mpr (hposted (List.mem_cons_of_mem _ hj))
  rintro rfl
  exact (List.nodup_cons.mp h.lists.nodup_posted).1 hj

/-- The next pointer that is saved before the visit is the head of the list after it. -/
theorem next_eq {w' : Worker} {held' free' conns' : List ℕ}
    (h : Consistent power₀ w [] free conns (i :: posted))
    (h' : Consistent power₀ w' held' free' conns' posted) :
    w.links (.postedNode i) = w'.links .postedEvents := by
  have hold := h.lists.postedEvents.2
  have hnew := h'.lists.postedEvents
  cases posted with
  | nil => exact hold.trans hnew.symm
  | cons j posted => exact hold.1.trans hnew.1.symm

/-- The traversal visits every posted socket once and ends with an empty list. -/
theorem traverse (h : Consistent power₀ w [] free conns posted) {env : Env}
    (hfresh : env.FreshFds) (hposted : posted ⊆ conns) {n : ℕ} (hn : posted.length ≤ n) :
    ∃ w' free' conns' tr,
      Worker.traverse env n (w.links .postedEvents) w = .ok w' ∧
      Consistent power₀ w' [] free' conns' [] ∧ Keeps w w' [] ∧ w'.log = w.log ++ tr ∧
      TraverseTrace w.sock posted free free' tr ∧
      (∀ j ∈ conns', (w'.sock j).close = true →
        j ∈ conns ∧ j ∉ posted ∧ (w.sock j).close = true ∨ LateClose j tr) := by
  induction posted generalizing w free conns n with
  | nil =>
    have hhead : w.links .postedEvents = none := h.lists.postedEvents
    refine ⟨w, free, conns, [], ?_, h, .refl _ _, by simp, .nil, fun j hj hset =>
      Or.inl ⟨hj, by simp, hset⟩⟩
    rw [hhead]
    cases n <;> rfl
  | cons i posted ih =>
    obtain ⟨n, rfl⟩ := Nat.exists_eq_succ_of_ne_zero
      (Nat.ne_of_gt (lt_of_lt_of_le (Nat.succ_pos _) hn))
    have hhead : w.links .postedEvents = some (.postedNode i) := h.lists.postedEvents.1
    have hi : i ∈ conns := hposted List.mem_cons_self
    -- the first socket is visited, and the rest from where that visit ends
    obtain ⟨w₁, free₁, conns₁, tr₁, hrun₁, h₁, hsub, hkeeps, hlog₁, htrace₁, hlate₁⟩ :=
      h.visit hfresh hi
    have hrest := h.posted_subset_erase hposted
    -- the visit took its own socket out of the list, so the loop goes on with the next one
    have hnext := h.next_eq h₁
    obtain ⟨w', free', conns', tr, hrun, h', hkeeps', hlog, htrace, hlate⟩ :=
      ih h₁ (List.Subset.trans hrest hsub) (Nat.le_of_succ_le_succ hn)
    refine ⟨w', free', conns', tr₁ ++ tr, ?_, h',
      (hkeeps.mono (List.nil_subset _)).trans hkeeps' (List.Subset.refl _),
      by rw [hlog, hlog₁, List.append_assoc], ?_, fun j hj hset => ?_⟩
    · rw [hhead]
      simp only [Worker.traverse, hrun₁, bind, Except.bind, hnext]
      exact hrun
    · -- the sockets still to be visited are as they were
      exact .cons htrace₁ (htrace.congr fun j hj => hkeeps.sock j (hrest hj))
    · -- a flag that is set at the end was set before, or by a callback of some visit
      rcases hlate j hj hset with ⟨hj₁, hnot, hset₁⟩ | hlate
      · by_cases hjc : j ∈ conns.erase i
        · rw [hkeeps.sock j hjc] at hset₁
          obtain ⟨hne, hjc'⟩ := h.lists.nodup_conns.mem_erase_iff.mp hjc
          exact Or.inl ⟨hjc', by simp [hne, hnot], hset₁⟩
        · exact Or.inr ((hlate₁ j hj₁ hjc hset₁).append_left tr)
      · exact Or.inr (hlate.append_right tr₁)

end Consistent

end Hixo
