import Hixo.Server.Runs

/-!
# One answer for each connection

When every `writev` takes everything, each read callback of a run of the server asks for the closing
of its connection, and nothing else does. So a connection that was closed was answered exactly once.

* `Answered`: each connection of a slot has its answer;
* `ClosesAfterRead`: a slot is closed after a read callback;
* `RepliesOnce.answered`: what the replies are, use by use;
* `TraverseTrace.closesAfterRead`, `not_lateClose`: what asks for closing;
* `server_answers_once`: a run of the server.
-/

namespace Hixo.Server

open Worker Echo Monitor

variable {world : World} {i k l : ℕ} {before tr : List LogEntry} {e : LogEntry} {s : Conn}
  {free free' posted : List ℕ}

/-- Every connection of slot `i` that was closed was answered exactly once: it had one read
callback, right before the disconnect callback and the closing, and what it got in the end is the
reply to that callback. -/
structure Answered (world : World) (i : ℕ) (log : List LogEntry) : Prop where
  sent : ∀ pre seg f close post,
    log = pre ++ .opened i :: (seg ++ .callback .read i f close :: post) → .opened i ∉ seg →
    ∃ s, world.conn i (pre ++ .opened i :: (seg ++ [.callback .read i f close])) = .ok s ∧
      s.sent = world.reply (pre.length + 1 + seg.length) f
  closed : ∀ pre f close post, log = pre ++ .callback .read i f close :: post →
    ∃ ctx ∈ apps, ctx.handleRead = some f ∧ ∃ g, ctx.handleDisconnect = some g ∧
      ∃ close' post', post = .callback .disconnect i g close' :: .handleClose i :: post'
  read : ∀ pre seg post, log = pre ++ .opened i :: (seg ++ .handleClose i :: post) →
    .opened i ∉ seg →
    ∃ seg' f close g close',
      seg = seg' ++ [.callback .read i f close, .callback .disconnect i g close'] ∧
      ∀ e ∈ seg', LogEntry.Idle i e

/-- Every closing of slot `i` comes right after a read callback and the disconnect callback. -/
def ClosesAfterRead (i : ℕ) (log : List LogEntry) : Prop :=
  ∀ pre post, log = pre ++ .handleClose i :: post → ∃ pre' f close g close',
    pre = pre' ++ [.callback .read i f close, .callback .disconnect i g close']

/-- Where a slot is not closed, there is nothing to be read before. -/
theorem closesAfterRead_of_notMem (h : .handleClose i ∉ tr) : ClosesAfterRead i tr :=
  fun _ _ htr => absurd (by simp [htr]) h

/-- The entries of a visit in which a read callback asks for closing. -/
theorem closesAfterRead_visit {f g : Callback} {close close' : Bool} :
    ClosesAfterRead i [.callback .read i f close, .callback .disconnect i g close',
      .handleClose i] := by
  intro pre post htr
  match pre with
  | [] => cases htr
  | [_] => cases (List.cons.inj htr).2
  | [_, _] =>
    obtain ⟨rfl, hrest⟩ := List.cons.inj htr
    obtain ⟨rfl, -⟩ := List.cons.inj hrest
    exact ⟨[], f, close, g, close', rfl⟩
  | _ :: _ :: _ :: pre =>
    have hlength := congrArg List.length htr
    simp at hlength

/-- A closing in either of two logs comes right after its two callbacks. -/
theorem ClosesAfterRead.append (h : ClosesAfterRead i before) (h' : ClosesAfterRead i tr) :
    ClosesAfterRead i (before ++ tr) := by
  intro pre post hlog
  rcases List.append_eq_append_iff.mp hlog with ⟨m, rfl, htr⟩ | ⟨m, rfl, htr⟩
  · obtain ⟨pre', f, close, g, close', rfl⟩ := h' m post htr
    exact ⟨before ++ pre', f, close, g, close', by simp⟩
  · cases m with
    | nil =>
      -- the closing is the first entry of the second log, and a read callback would come before it
      obtain ⟨pre', f, close, g, close', hnil⟩ := h' [] post htr.symm
      simp at hnil
    | cons e m =>
      obtain ⟨rfl, -⟩ := List.cons.inj htr
      exact h pre m rfl

section Answers

variable {pre seg post log : List LogEntry} {f g : Callback} {close close' : Bool}
  {kind : CallbackKind}

/-- A disconnect callback does not come before another callback of the same use. -/
theorem disconnect_notMem (h : FollowsProtocol i log)
    (hlog : log = pre ++ .opened i :: (seg ++ .callback kind i f close :: post))
    (hopened : .opened i ∉ seg) : .callback .disconnect i g close' ∉ seg := by
  intro hmem
  obtain ⟨a, b, rfl⟩ := List.append_of_mem hmem
  obtain ⟨l, hl⟩ := h.disconnect (pre ++ .opened i :: a) g close'
    (b ++ .callback kind i f close :: post) (by simp [hlog])
  cases b with
  | nil => cases hl
  | cons e b =>
    obtain ⟨rfl, -⟩ := List.cons.inj hl
    -- the close comes next, and no callbacks after it
    have hnot : .opened i ∉ b ++ [.callback kind i f close] := fun hmem =>
      hopened (List.mem_append_right a (by simpa using hmem))
    have hnone := h.closed (pre ++ .opened i :: (a ++ [.callback .disconnect i g close']))
      (b ++ [.callback kind i f close]) post (by simp [hlog]) hnot
    simp [callbacks] at hnone

/-- Between the opening of a slot and a callback, other than the disconnect callback that follows a
read callback, nothing happens to the connection. -/
theorem idle_of_use (h : FollowsProtocol i log) (hreplies : RepliesOnce world i log)
    (hlog : log = pre ++ .opened i :: (seg ++ .callback kind i f close :: post))
    (hkind : kind ≠ .disconnect) (hopened : .opened i ∉ seg) :
    ∀ e ∈ seg, LogEntry.Idle i e := by
  intro e he
  cases e with
  | opened j => exact fun hj => hopened (hj ▸ he)
  | callback kind' j f' close' =>
    cases kind' with
    | disconnect => exact fun hj => disconnect_notMem h hlog hopened (hj ▸ he)
    | read =>
      rintro rfl
      -- its own disconnect would come before the later callback
      obtain ⟨a, b, rfl⟩ := List.append_of_mem he
      obtain ⟨-, -, -, -, g, -, close'', l, hl⟩ := hreplies (pre ++ .opened j :: a) f' close'
        (b ++ .callback kind j f close :: post) (by simp [hlog])
      cases b with
      | nil => exact absurd (LogEntry.callback.inj (List.cons.inj hl).1).1 hkind
      | cons e b =>
        obtain ⟨rfl, -⟩ := List.cons.inj hl
        exact disconnect_notMem h hlog hopened
          (show LogEntry.callback .disconnect j g close'' ∈ _ by simp)
    | connect | write => trivial
  | _ => trivial

/-- Just before a callback of a use, other than the disconnect callback, the connection is as it was
when the slot was opened. -/
theorem conn_of_use (h : FollowsProtocol i log) (hreplies : RepliesOnce world i log)
    (hconn : ∀ pre, pre <+: log → ∃ s, world.conn i pre = .ok s)
    (hlog : log = pre ++ .opened i :: (seg ++ .callback kind i f close :: post))
    (hkind : kind ≠ .disconnect) (hopened : .opened i ∉ seg) :
    ∃ s, world.conn i (pre ++ .opened i :: seg) = .ok (accepted s) := by
  obtain ⟨s, hpre⟩ := hconn pre (hlog ▸ List.prefix_append ..)
  have hopen : world.conn i (pre ++ [.opened i]) = .ok (accepted s) :=
    (conn_snoc hpre).trans (congrArg Except.ok (if_pos rfl))
  have hidle := conn_idle hopen (idle_of_use h hreplies hlog hkind hopened)
  exact ⟨s, by simpa using hidle⟩

/-- When replies come from read callbacks alone and every closing follows one, each use of the slot
that was closed was answered once. -/
theorem RepliesOnce.answered (hreplies : RepliesOnce world i log) (h : FollowsProtocol i log)
    (hcloses : ClosesAfterRead i log)
    (hconn : ∀ pre, pre <+: log → ∃ s, world.conn i pre = .ok s) : Answered world i log := by
  refine ⟨fun pre seg f close post hlog hopened => ?_, fun pre f close post hlog =>
    (hreplies pre f close post hlog).closed, fun pre seg post hlog hopened => ?_⟩
  · have hlog' : log = pre ++ .opened i :: seg ++ .callback .read i f close :: post := by
      simp [hlog]
    obtain ⟨⟨s, s', hbefore, hafter, hsent⟩, -⟩ := hreplies _ f close post hlog'
    obtain ⟨s₀, hopen⟩ := conn_of_use h hreplies hconn hlog (by decide) hopened
    obtain rfl : accepted s₀ = s := Except.ok.inj (hopen.symm.trans hbefore)
    refine ⟨s', by simpa using hafter, hsent.trans ?_⟩
    rw [show (accepted s₀).sent = [] from rfl, List.nil_append, List.length_append,
      List.length_cons, Nat.add_right_comm, Nat.add_assoc]
  · obtain ⟨pre', f, close, g, close', hpre⟩ :=
      hcloses (pre ++ .opened i :: seg) post (by simp [hlog])
    -- the two callbacks belong to this use
    rcases List.eq_nil_or_concat seg with rfl | ⟨seg, e, rfl⟩
    · have hlast := congrArg List.getLast? hpre
      simp at hlast
    rcases List.eq_nil_or_concat seg with rfl | ⟨seg, e', rfl⟩
    · have hlast := congrArg List.getLast? (congrArg List.dropLast hpre)
      simp at hlast
    have hsplit : pre ++ .opened i :: seg ++ [e', e] =
        pre' ++ [.callback .read i f close, .callback .disconnect i g close'] := by
      simpa using hpre
    obtain ⟨rfl, hlast⟩ := List.cons.inj (List.append_inj' hsplit rfl).2
    obtain rfl := List.singleton_inj.mp hlast
    exact ⟨seg, f, close, g, close', by simp, idle_of_use h hreplies
      (show log = pre ++ .opened i :: (seg ++ .callback .read i f close ::
        .callback .disconnect i g close' :: .handleClose i :: post) by simp [hlog])
      (by decide) fun hmem => hopened (by simp [hmem])⟩

end Answers

/-! ## What closes a connection -/

section Closes

variable {sock : ℕ → Socket} {passive : Bool}

/-- A visit closes the slot only when its read callback asks for it, unless `m_close` was set
before. -/
theorem VisitTrace.closesAfterRead {s : Socket} (h : VisitTrace s k free free' tr)
    (hs : k = i → s.Obeys passive) (hopen : k = i → s.close = false) : ClosesAfterRead i tr := by
  by_cases hk : k = i
  · subst hk
    obtain ⟨hread, hclose, hwrite⟩ := h
    rename_i closed free₁ tr₁ tr₂ tr₃
    have hstays (hclosed : closed = false) : ClosesAfterRead k (tr₁ ++ (tr₂ ++ tr₃)) := by
      refine closesAfterRead_of_notMem fun hmem => ?_
      simp [hread.countP.2.2, hclose.countP.2.2, hwrite.countP.2.2, hclosed] at hmem
    cases hread with
    | skip | accept => exact hstays (hopen rfl)
    | @app _ f _ hreadable hhandler =>
      cases closed with
      | false => exact hstays rfl
      | true =>
        have hread : ReadTrace s k true free free [.callback .read k f true] :=
          .app hreadable hhandler
        have hdisconnect := (hs rfl).connection (hread.not_passive (hs rfl) rfl)
        generalize s.disconnectHandler = handler at hclose hdisconnect
        cases hclose with
        | quiet => exact absurd rfl hdisconnect
        | callback rslt fd g close' =>
          have hrest : LogEntry.handleClose k ∉ [.delEvent k rslt, .closeFd fd] ++ tr₃ := by
            simp [hwrite.countP.2.2]
          exact closesAfterRead_visit.append (closesAfterRead_of_notMem hrest)
  · exact closesAfterRead_of_notMem fun hmem => hk ((h.within hmem).of_visits rfl).symm

/-- In the traversal a slot is closed only after its read callback has asked for it, when `m_close`
was not set before. -/
theorem TraverseTrace.closesAfterRead (h : TraverseTrace sock posted free free' tr)
    (hs : i ∈ posted → (sock i).Obeys passive) (hopen : i ∈ posted → (sock i).close = false) :
    ClosesAfterRead i tr := by
  induction h with
  | nil => exact closesAfterRead_of_notMem List.not_mem_nil
  | cons hvisit _ ih =>
    refine ClosesAfterRead.append (VisitTrace.closesAfterRead hvisit
      (fun hk => hk ▸ hs (hk ▸ List.mem_cons_self))
      fun hk => hk ▸ hopen (hk ▸ List.mem_cons_self)) (ih ?_ ?_)
    · exact fun hi => hs (List.mem_cons_of_mem _ hi)
    · exact fun hi => hopen (List.mem_cons_of_mem _ hi)

end Closes

/-- The connections that a log leads through exist when the last one does. -/
theorem exists_conn_of_prefix {pre log : List LogEntry} (hpre : pre <+: log)
    (hconn : ∃ s, world.conn i log = .ok s) : ∃ s, world.conn i pre = .ok s := by
  obtain ⟨post, rfl⟩ := hpre
  obtain ⟨s, hconn⟩ := hconn
  rw [World.conn, replay_append] at hconn
  obtain ⟨s₁, hpre, -⟩ := Programs.exists_of_bind_eq_ok hconn
  exact ⟨s₁, hpre⟩

/-- The callbacks of a run left `m_close` as the handlers of the two modules do. -/
theorem World.Serves.allows {boot : BootEnv} {maxConnections : ℕ} {w₀ w : Worker} {ok : Bool}
    (hrun : world.Serves w₀ ok w) (hboot : boot.FreshFds)
    (hstart : startWorker boot maxConnections apps = .ok (some w₀)) (pre : List LogEntry)
    (e : LogEntry) (post : List LogEntry) (hsplit : w.log = pre ++ e :: post) :
    world.Allows pre e := by
  obtain ⟨-, -, hbooting, -⟩ := consistent_of_startWorker hboot hstart
  have hgrows : Grows world.Allows w₀.log w.log := by
    clear hsplit
    induction hrun with
    | start => exact .refl
    | step _ henv hstep ih =>
      exact ih.trans ((Calls.eventLoopBody hstep).mono fun _ _ he =>
        allows_of_from henv.callback he)
  by_cases he : e.IsBooting
  · cases e <;> trivial
  -- no other entry is from before the first pass
  refine hgrows.allowed hsplit ?_
  obtain ⟨rest, hrest⟩ := hgrows.isPrefix
  rw [hsplit] at hrest
  rcases List.append_eq_append_iff.mp hrest with ⟨m, rfl, -⟩ | ⟨m, hm, hrest⟩
  · exact List.prefix_append _ m
  · cases m with
    | nil => simp [hm]
    | cons e' m =>
      obtain ⟨rfl, -⟩ := List.cons.inj hrest
      exact absurd (hbooting e (by simp [hm])) he

/-- No connect callback and no write callback of slot `i` asks for closing. -/
theorem not_lateClose {log : List LogEntry} (h : FollowsProtocol i log)
    (hreplies : RepliesOnce world i log)
    (hconn : ∀ pre, pre <+: log → ∃ s, world.conn i pre = .ok s)
    (hallows : ∀ pre e post, log = pre ++ e :: post → world.Allows pre e) :
    ¬LateClose i log := by
  rintro ⟨f, hlate⟩
  obtain ⟨kind, hkind, hmem⟩ : ∃ kind : CallbackKind, (kind = .connect ∨ kind = .write) ∧
      .callback kind i f true ∈ log := by
    rcases hlate with hmem | hmem
    · exact ⟨.connect, .inl rfl, hmem⟩
    · exact ⟨.write, .inr rfl, hmem⟩
  obtain ⟨seg, post, rfl⟩ := List.append_of_mem hmem
  -- the slot was opened before, and since then nothing happened to the connection
  have hopened : .opened i ∈ seg := by
    by_contra hnot
    have hnone := h.unused (seg ++ [.callback kind i f true]) post (by simp) (by simp [hnot])
    simp [callbacks] at hnone
  obtain ⟨seg', pre', hseg, hlast⟩ := List.eq_append_cons_of_mem (List.mem_reverse.mpr hopened)
  obtain rfl : seg = pre'.reverse ++ .opened i :: seg'.reverse := by
    rw [← List.reverse_reverse seg, hseg]
    simp
  have hsince : .opened i ∉ seg'.reverse := by simpa using hlast
  obtain ⟨s, hs⟩ := conn_of_use h hreplies hconn (by rw [List.append_assoc, List.cons_append])
    (by rcases hkind with rfl | rfl <;> decide) hsince
  have hhandle (t : ℕ) : world.handle t kind f (accepted s) = .ok (accepted s) := by
    rcases hkind with rfl | rfl <;> rfl
  -- so `m_close` is not set
  have hclose : true = (accepted s).close :=
    hallows _ _ _ rfl (accepted s) (by rw [hs]; exact hhandle _)
  cases hclose

section Runs

variable {boot : BootEnv} {maxConnections : ℕ} {w₀ w : Worker} {ok : Bool}

/-- In every run of the server, a slot keeps to the protocol and its handlers return. When every
`writev` takes everything, its read callbacks reply. -/
theorem World.Serves.replies (hrun : world.Serves w₀ ok w) (hboot : boot.FreshFds)
    (hstart : startWorker boot maxConnections apps = .ok (some w₀)) (hworld : world.Sane)
    (hgenerous : world.Generous) (i : ℕ) :
    FollowsProtocol i w.log ∧ RepliesOnce world i w.log ∧
      ∀ pre, pre <+: w.log → ∃ s, world.conn i pre = .ok s := by
  obtain ⟨-, -, -, -, ⟨s, hconn, -⟩, hreplies⟩ := hrun.serving hboot hstart hworld i
  obtain ⟨passes, hpasses⟩ := RunUnder.exists_run hrun fun _ henv => henv.valid
  exact ⟨run_followsProtocol hboot hstart hpasses (by decide) i, hreplies hgenerous, fun pre hpre =>
    exists_conn_of_prefix hpre ⟨s, hconn⟩⟩

/-- When every `writev` takes everything, a slot is closed only after a read callback, and no slot
on `mp_connections` has `m_close` set between two passes. -/
theorem World.Serves.closesAfterRead (hrun : world.Serves w₀ ok w) (hboot : boot.FreshFds)
    (hstart : startWorker boot maxConnections apps = .ok (some w₀)) (hworld : world.Sane)
    (hgenerous : world.Generous) (i : ℕ) :
    ∃ free conns, Consistent w₀.power w [] free conns [] ∧
      w.appCtxList = apps.reverse.map appInitWorker ∧ ClosesAfterRead i w.log ∧
      (i ∈ conns → (w.sock i).close = false) := by
  induction hrun with
  | start =>
    obtain ⟨free, h₀, hlog, happs, -⟩ := consistent_of_startWorker hboot hstart
    refine ⟨free, _, h₀, happs, closesAfterRead_of_notMem fun hmem => hlog _ hmem, fun hi => ?_⟩
    exact (h₀.roles.listener i (List.mem_reverse.mp hi)).close
  | @step env ok w w' hbefore henv hstep ih =>
    obtain ⟨free, conns, hcons, happs, hcloses, hopen⟩ := ih
    rcases hcons.eventLoopBody henv.valid with
      ⟨ok', w₁, w'', free', conns', posted, rslt, poll, tr, hbody, hiter⟩ | ⟨-, herror⟩
    swap
    · rw [hstep] at herror
      cases herror
    rw [hstep, Except.ok.injEq, Prod.mk.injEq] at hbody
    obtain ⟨-, rfl⟩ := hbody
    have hdisconnect : ∀ ctx ∈ w₁.appCtxList, ctx.handleDisconnect ≠ none := by
      rw [hiter.polled.appCtxList, happs]
      decide
    have hpoll : ClosesAfterRead i poll :=
      closesAfterRead_of_notMem fun hmem => (hiter.polled.slots hmem i).1 rfl
    have htraverse : ClosesAfterRead i tr := TraverseTrace.closesAfterRead hiter.trace
      (fun hi => hiter.polled.consistent.obeys hdisconnect (hiter.polled.posted_subset hi))
      fun hi => (hiter.polled.close_eq i).trans (hopen (hiter.polled.posted_subset hi))
    refine ⟨free', conns', hiter.consistent, hiter.appCtxList.trans happs,
      hiter.log ▸ hcloses.append (hpoll.append htraverse), fun hi => ?_⟩
    -- `m_close` was not set before the pass, and a callback that set it too late does not exist
    have hafter : world.Serves w₀ ok w' := .step hbefore henv hstep
    obtain ⟨hprotocol, hreplies, hconn⟩ := hafter.replies hboot hstart hworld hgenerous i
    by_contra hset
    rcases hiter.close i hi (by simpa using hset) with ⟨hi, -, hset⟩ | hlate
    · rw [hopen hi] at hset
      cases hset
    · refine not_lateClose hprotocol hreplies hconn (hafter.allows hboot hstart) ?_
      rw [hiter.log, ← List.append_assoc]
      exact hlate.append_right _

/-- When every `writev` takes everything, each connection of a run of the server that was closed was
answered exactly once, with the reply to what it had sent. -/
theorem server_answers_once (hboot : boot.FreshFds)
    (hstart : startWorker boot maxConnections apps = .ok (some w₀)) (hworld : world.Sane)
    (hgenerous : world.Generous) (hrun : world.Serves w₀ ok w) (i : ℕ) :
    Answered world i w.log := by
  obtain ⟨hprotocol, hreplies, hconn⟩ := hrun.replies hboot hstart hworld hgenerous i
  obtain ⟨-, -, -, -, hcloses, -⟩ := hrun.closesAfterRead hboot hstart hworld hgenerous i
  exact hreplies.answered hprotocol hcloses hconn

end Runs

/-- The connection of the sample run was answered once before it was closed. -/
theorem server_answers_once_sample : Answered sampleWorld 1 (serverPasses 2).log :=
  server_answers_once sampleBoot_fresh startWorker_server sampleWorld_sane
    (fun _ => acceptsAll_generousEnv) serves_sample 1

end Hixo.Server
