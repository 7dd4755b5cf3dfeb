import Hixo.AcceptLock.Serial
import Hixo.Server.Answers

/-!
# The servers of a host

Any number of worker processes with the two app modules share the word of the accept lock and take
their steps in any order; the traversal of the posted events is one of these steps. What holds of
the runs of one worker holds of each of them, and in every state between two steps, because the
steps before the traversal do not touch the connections.

* `Member`, `Member.act`: a worker process with its clients, and its steps;
* `Served`: what a slot of a worker has behind it;
* `served_of_serves`: every slot of a worker has this behind it, up to the traversal of a pass;
* `host_serves`: so it does for every worker of a host, in every state between the steps.
-/

namespace Hixo.Server

open Worker Echo Monitor Interleaving

/-- A worker process at a program point, with its clients. -/
structure Member where
  world : World
  proc : Proc

/-- A step of a worker process. Its callbacks are the handlers of the two modules. -/
def Member.act (lock : BitVec 64) (p : Member) (lock' : BitVec 64) (p' : Member) : Prop :=
  p'.world = p.world ∧ Proc.actUnder p.world.Admits lock p.proc lock' p'.proc

/-- What slot `k` of a worker with this log has behind it: its callbacks came in the order of the
protocol, every buffer that was created was freed once, and the clients were answered. -/
structure Served (world : World) (k : ℕ) (log : List LogEntry) : Prop where
  protocol : FollowsProtocol k log
  freed : ∃ s, world.conn k log = .ok s ∧ s.links.IsRing .readbufQueue [] ∧
    s.destroyed = s.freed ∧ s.freed.Perm (List.range s.count)
  answered : world.Generous → Answered world k log

section Served

variable {world : World} {k : ℕ} {boot : BootEnv} {maxConnections : ℕ} {w₀ w : Worker}
  {tr : List LogEntry} {e : LogEntry}

/-- The monitor of a slot between two tests ignores the steps before the traversal. -/
theorem Phase.step_of_beforeTraversal {p : Phase} (hp : p ≠ .ended) (he : e.BeforeTraversal) :
    Phase.step k p e = some p := by
  cases e <;> first | exact he.elim | (cases p <;> first | rfl | exact absurd rfl hp)

/-- The steps before the traversal say nothing about the connection of a slot. -/
theorem idle_of_beforeTraversal (he : e.BeforeTraversal) : LogEntry.Idle k e := by
  cases e <;> first | exact he.elim | trivial

/-- When a worker is in a pass of `event_loop` and has not come to the traversal, every slot has its
callbacks in order, its buffers freed and its clients answered. -/
theorem served_of_serves (hboot : boot.FreshFds)
    (hstart : startWorker boot maxConnections apps = .ok (some w₀)) (hworld : world.Sane)
    (hrun : world.Serves w₀ true w) (htr : ∀ e ∈ tr, e.BeforeTraversal) :
    Served world k (w.log ++ tr) := by
  obtain ⟨-, -, -, -, hserving⟩ := hrun.serving hboot hstart hworld k
  obtain ⟨passes, hpasses⟩ := RunUnder.exists_run hrun fun _ henv => henv.valid
  obtain ⟨p, hphase, hp⟩ := run_phase hboot hstart hpasses (by decide) k
  have hafter : Serving world k (w.log ++ tr) :=
    hserving.quiet fun e he => .inl (idle_of_beforeTraversal (htr e he))
  have hprotocol : FollowsProtocol k (w.log ++ tr) := by
    refine followsProtocol_of_run (run_append.mpr ⟨p, hphase, ?_⟩) hp
    exact run_of_fixed fun e he => Phase.step_of_beforeTraversal hp (htr e he)
  obtain ⟨s, hconn, hrest⟩ := hafter.rest
  refine ⟨hprotocol, ⟨s, hconn, hrest.stored.ring, hrest.accounted⟩, fun hgenerous => ?_⟩
  obtain ⟨-, -, -, -, hcloses, -⟩ := hrun.closesAfterRead hboot hstart hworld hgenerous k
  have hquiet : ClosesAfterRead k tr := closesAfterRead_of_notMem fun hmem => htr _ hmem
  exact (hafter.replies hgenerous).answered hprotocol (hcloses.append hquiet) fun pre hpre =>
    exists_conn_of_prefix hpre ⟨s, hconn⟩

/-- An environment that behaves as one of a world up to some test, and as another one from there on,
is one of the world. -/
theorem mixes_admits (world : World) : Env.Mixes world.Admits where
  switch {n env env'} h h' := by
    refine ⟨mixes_valid.switch h.valid h'.valid, funext fun w => ?_⟩
    show (if _ then env.callback w else env'.callback w) = _
    rw [h.callback, h'.callback, ite_self]
  withLock h := ⟨mixes_valid.withLock h.valid, h.callback⟩

/-- Every world has an environment: one without events and new connections. -/
theorem exists_admits (world : World) : ∃ env, world.Admits env :=
  ⟨{ sampleEnv [] with callback := world.callback },
    ⟨(sampleEnv_valid []).fresh, (sampleEnv_valid []).batches⟩, rfl⟩

end Served

/-- Any number of servers share the accept lock, in any order of their steps, the traversal being
one step. In every state between the steps, every slot of every server has its buffers freed, its
callbacks in order and its clients answered. -/
theorem host_serves {ι : Type} [DecidableEq ι] {boot : ι → BootEnv} {maxConnections : ι → ℕ}
    {w₀ : ι → Worker} {world : ι → World} (hboot : ∀ i, (boot i).FreshFds)
    (hstart : ∀ i, startWorker (boot i) (maxConnections i) apps = .ok (some (w₀ i)))
    (hworld : ∀ i, (world i).Sane) {s : System ι (BitVec 64) Member}
    (hs : Reachable Member.act ⟨0, fun i => ⟨world i, ⟨.call, w₀ i⟩⟩⟩ s) (i : ι) (k : ℕ) :
    Served (world i) k (s.locals i).proc.worker.log := by
  have hserial : (s.locals i).world = world i ∧
      Serial (world i).Admits (w₀ i) (s.locals i).proc := by
    refine hs.locals (L := fun i p => p.world = world i ∧
      Serial (world i).Admits (w₀ i) p.proc) (fun i => ?_) ?_ i
    · obtain ⟨env, henv⟩ := exists_admits (world i)
      exact ⟨rfl, w₀ i, .start, .start henv (w₀ i)⟩
    · rintro i g p g' p' ⟨hsame, hserial⟩ ⟨hsame', hact⟩
      rw [hsame] at hact hsame'
      exact ⟨hsame', hserial.of_step (mixes_admits _) hact⟩
  obtain ⟨-, w, hrun, hwithin⟩ := hserial
  obtain ⟨tr, hlog, htr⟩ := hwithin.log
  rw [hlog]
  exact served_of_serves (hboot i) (hstart i) (hworld i) hrun htr

/-! ## A sample -/

/-- A server of the sample takes a step, unless an assertion fails. -/
def Member.next (s : System Bool (BitVec 64) Member) (i : Bool) : System Bool (BitVec 64) Member :=
  match (s.locals i).proc.step serverEnv s.shared with
  | .ok (lock, p) => ⟨lock, Function.update s.locals i ⟨(s.locals i).world, p⟩⟩
  | .error _ => s

/-- No turn exchanges the clients of a server. -/
theorem Member.world_next (s : System Bool (BitVec 64) Member) (i j : Bool) :
    ((Member.next s i).locals j).world = (s.locals j).world := by
  unfold Member.next
  split
  · dsimp only
    by_cases hj : j = i
    · subst hj
      rw [Function.update_self]
    · rw [Function.update_of_ne hj]
  · rfl

/-- The turns of the servers of the sample are steps of the host. -/
theorem Member.reachable_turns {s₀ s : System Bool (BitVec 64) Member}
    (hs : Reachable Member.act s₀ s) (hworld : ∀ i, (s.locals i).world = sampleWorld)
    (turns : List Bool) : Reachable Member.act s₀ (turns.foldl Member.next s) := by
  induction turns generalizing s with
  | nil => exact hs
  | cons i turns ih =>
    refine ih ?_ fun j => (Member.world_next s i j).trans (hworld j)
    have hadmits : (s.locals i).world.Admits serverEnv := hworld i ▸ ⟨serverEnv_valid, rfl⟩
    unfold Member.next
    split
    next lock p hstep => exact .step i hs ⟨⟨_, p⟩, ⟨rfl, serverEnv, hadmits, hstep⟩, rfl⟩
    · exact hs

/-- Two servers at the start. -/
def sampleServers : System Bool (BitVec 64) Member where
  shared := 0
  locals _ := ⟨sampleWorld, .call, serverStart⟩

/-- Both servers test the lock, and the one that gets it goes on for two passes. -/
def sampleTurns : System Bool (BitVec 64) Member :=
  ([true, false, true, false] ++ List.replicate 30 true).foldl Member.next sampleServers

set_option maxRecDepth 20000 in
theorem host_serves_sample : sampleTurns.shared = 0 ∧
    (sampleTurns.locals true).proc.worker.log[29]? = some (.handleClose 1) ∧
    Served sampleWorld 1 (sampleTurns.locals true).proc.worker.log :=
  ⟨rfl, rfl, host_serves (fun _ => sampleBoot_fresh) (fun _ => startWorker_server)
    (fun _ => sampleWorld_sane) (Member.reachable_turns .start (fun _ => rfl) _) true 1⟩

end Hixo.Server
