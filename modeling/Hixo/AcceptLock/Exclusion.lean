import Hixo.AcceptLock.Steps
import Hixo.Worker.Handlers

/-!
# The accept lock excludes

Of any number of workers that share the word, in any order of their steps, at most one is between
its `spinlock_try` and its `spinlock_unlock`. The flag `m_hold_lock` is tied to the program point
by an invariant of the single worker, which also says which listeners its kernel may watch and
which pointers in `mpp_servers` are tagged.

* `Transfers`: what a step does to the word, and what it records;
* `Listening`, `AtPc`: the invariant of a worker at a program point;
* `AtPc.advances`: every step returns and keeps it;
* `tokenDiscipline`: the rules of `Interleaving` hold for the workers;
* `host_excludes`: exclusion, the meaning of the word, and the registered listeners.
-/

namespace Hixo

open Worker Interleaving

/-! ## The word -/

/-- An entry that starts or ends the section of a worker. -/
def LogEntry.MovesLock : LogEntry → Prop
  | .trySpinlock held => held = true
  | .spinlockUnlock => True
  | _ => False

theorem inSection_append_of_not_movesLock {log tr : List LogEntry} (h : ∀ e ∈ tr, ¬e.MovesLock) :
    inSection (log ++ tr) = inSection log := by
  induction tr generalizing log with
  | nil => rw [List.append_nil]
  | cons e tr ih =>
    have he := h e List.mem_cons_self
    -- one entry that does not move the lock changes nothing
    have hone : inSection (log ++ [e]) = inSection log := by
      unfold inSection
      rw [List.foldl_append]
      cases e with
      | trySpinlock held =>
        cases held with
        | true => exact absurd rfl he
        | false => rfl
      | spinlockUnlock => exact absurd trivial he
      | _ => rfl
    calc inSection (log ++ e :: tr) = inSection ((log ++ [e]) ++ tr) := by
          rw [List.append_assoc, List.singleton_append]
      _ = inSection (log ++ [e]) := ih fun e' he' => h e' (List.mem_cons_of_mem _ he')
      _ = inSection log := hone

@[simp]
theorem inSection_append_trySpinlock (log : List LogEntry) (held : Bool) :
    inSection (log ++ [.trySpinlock held]) = (held || inSection log) := by
  unfold inSection
  rw [List.foldl_append]
  cases held <;> rfl

@[simp]
theorem inSection_append_spinlockUnlock (log : List LogEntry) :
    inSection (log ++ [.spinlockUnlock]) = false := by
  unfold inSection
  rw [List.foldl_append]
  rfl

/-- What a step may do to the word, for a worker with the log `log`, and what it records. -/
inductive Transfers (lock : BitVec 64) (log : List LogEntry) :
    BitVec 64 → List LogEntry → Prop
  /-- The word stays as it is. -/
  | idle {tr : List LogEntry} (h : ∀ e ∈ tr, ¬e.MovesLock) : Transfers lock log lock tr
  /-- The worker gets the lock. -/
  | enter (hlock : lock = 0) (hlog : inSection log = false) :
      Transfers lock log 1 [.trySpinlock true]
  /-- The worker gives the lock back. -/
  | leave (hlog : inSection log = true) : Transfers lock log 0 [.spinlockUnlock]

/-- The compare-and-set on a word that is 0 or 1. -/
theorem spinlockTry_eq {lock : BitVec 64} (h : lock = 0 ∨ lock = 1) :
    lock = 0 ∧ spinlockTry lock = (true, 1) ∨ lock = 1 ∧ spinlockTry lock = (false, 1) := by
  rcases h with rfl | rfl
  · exact Or.inl ⟨rfl, by decide⟩
  · exact Or.inr ⟨rfl, by decide⟩

/-! ## Program points -/

/-- Whether a worker at this point is in its section, when `m_hold_lock` is `held`. -/
def Pc.owns (held : Bool) : Pc → Bool
  | .setHold held => held
  | .add _ | .wait | .del _ _ | .post _ | .exit _ => held
  | .call | .tryLock | .clear _ | .ret _ => false

/-- The indices of the listeners that the kernel may watch. -/
def Pc.watches (held : Bool) : Pc → ℕ → Prop
  | .add n, k => held = true ∧ k < n
  | .wait, _ => held = true
  | .del n _, k => held = true ∧ n ≤ k
  | _, _ => False

/-- The indices at which `mpp_servers` may be tagged. -/
def Pc.tags (held : Bool) : Pc → ℕ → Prop
  | .wait, _ => held = true
  | .del n _, k => held = true ∧ n ≤ k
  | _, _ => False

/-- The events that are still to be posted. -/
def Pc.batch : Pc → List EpollEvent
  | .del _ rslt | .post rslt => rslt.batch
  | _ => []

/-- What a return says of `m_hold_lock`. -/
def Pc.Released (held : Bool) : Pc → Prop
  | .ret _ => held = false
  | _ => True

/-- Whether sockets may be posted. -/
def Pc.mayPost : Pc → Prop
  | .exit _ | .clear _ | .ret _ => True
  | _ => False

/-- Where a listener may be watched, the worker is in its section. -/
theorem Pc.owns_of_watches {held : Bool} {pc : Pc} {k : ℕ} (h : pc.watches held k) :
    pc.owns held = true := by
  cases pc with
  | add | del => exact h.1
  | wait => exact h
  | _ => exact h.elim

/-! ## Registrations -/

/-- The kernel watches a further socket when `epoll_add_event` returns `HIXO_OK`. -/
theorem epollAddEvent_interest (env : Env) (w : Worker) (i : ℕ) (fd : ℤ) (r : Registration)
    (hr : (epollAddEvent env w i).2.interest fd = some r) :
    w.interest fd = some r ∨ (epollAddEvent env w i).1 = true ∧ r.slot = i := by
  unfold epollAddEvent at hr ⊢
  cases hadd : env.addEvent w i with
  | ok =>
    simp only [hadd] at hr ⊢
    split at hr
    · exact Or.inr ⟨trivial, Option.some.inj hr ▸ rfl⟩
    · exact Or.inl hr
  | eexist | enoent | failed =>
    simp only [hadd] at hr
    exact Or.inl hr

/-- When `EPOLL_CTL_DEL` succeeds, `epoll_del_event` returns `HIXO_OK`, and the kernel does not
watch the socket any more. -/
theorem epollDelEvent_interest {env : Env} (hdel : env.Deletes) (w : Worker) (i : ℕ) :
    (epollDelEvent env w i).1 = true ∧
      (epollDelEvent env w i).2.interest (w.sock i).fd = none := by
  unfold epollDelEvent
  rcases hdel w i with hok | ⟨henoent, hnone⟩
  · simp [hok, Worker.record]
  · simp only [henoent]
    exact ⟨trivial, hnone⟩

/-! ## The invariant of a worker -/

/-- The listeners of a worker at `pc`. -/
structure Listening (pc : Pc) (w : Worker) : Prop where
  nodup : w.listeners.Nodup
  /-- The kernel watches no others, and none whose pointer is tagged. -/
  watched : ∀ k server fd r, w.servers[k]? = some server → w.interest fd = some r →
    r.slot = server.slot → pc.watches w.holdLock k ∧ server.tagged = false
  tagged : ∀ k server, w.servers[k]? = some server → server.tagged = true →
    pc.tags w.holdLock k

/-- The invariant of a worker at a program point. -/
structure AtPc (power₀ : ℤ) (p : Proc) (free conns posted : List ℕ) : Prop where
  consistent : Consistent power₀ p.worker [] free conns posted
  posted_subset : posted ⊆ conns
  posted_nil : ¬p.pc.mayPost → posted = []
  /-- The events are about different connections, under their present tags. -/
  batch_nodup : (p.pc.batch.map EpollEvent.slot).Nodup
  batch : ∀ ev ∈ p.pc.batch, ev.slot ∈ conns ∧ (p.worker.sock ev.slot).stale = ev.stale
  listening : Listening p.pc p.worker
  /-- The flag and the word agree. -/
  owns : inSection p.worker.log = p.pc.owns p.worker.holdLock
  released : p.pc.Released p.worker.holdLock

/-- The next step of the worker returns, keeps the invariant and only moves the word as a worker
may. -/
def Advances (power₀ : ℤ) (env : Env) (lock : BitVec 64) (p : Proc) : Prop :=
  ∃ lock' p' tr free conns posted, p.step env lock = .ok (lock', p') ∧
    AtPc power₀ p' free conns posted ∧ p'.worker.log = p.worker.log ++ tr ∧
    Transfers lock p.worker.log lock' tr

namespace Listening

variable {pc pc' : Pc} {w w' : Worker}

/-- A worker goes to another program point without a change of its listeners: those that may be
watched or tagged there may be so before. -/
theorem congr (h : Listening pc w) (hservers : w'.servers = w.servers)
    (hinterest : ∀ fd r, w'.interest fd = some r → r.slot ∈ w.listeners → w.interest fd = some r)
    (hwatches : ∀ k < w.servers.length, pc.watches w.holdLock k → pc'.watches w'.holdLock k)
    (htags : ∀ k < w.servers.length, pc.tags w.holdLock k → pc'.tags w'.holdLock k) :
    Listening pc' w' where
  nodup := by
    unfold Worker.listeners
    rw [hservers]
    exact h.nodup
  watched k server fd r hk hr hslot := by
    rw [hservers] at hk
    -- a descriptor of a listener was registered before
    have hmem : r.slot ∈ w.listeners := hslot ▸ List.mem_map_of_mem (List.mem_of_getElem? hk)
    obtain ⟨hwatch, htag⟩ := h.watched k server fd r hk (hinterest fd r hr hmem) hslot
    exact ⟨hwatches k (List.getElem?_eq_some_iff.mp hk).1 hwatch, htag⟩
  tagged k server hk htag := by
    rw [hservers] at hk
    exact htags k (List.getElem?_eq_some_iff.mp hk).1 (h.tagged k server hk htag)

/-- When `epoll_add_event` added listener `k`, the listeners up to it may be watched. -/
theorem add_succ {k : ℕ} {server : Server} (h : Listening (.add k) w)
    (hk : w.servers[k]? = some server) (hservers : w'.servers = w.servers)
    (hinterest : ∀ fd r, w'.interest fd = some r → w.interest fd = some r ∨ r.slot = server.slot)
    (hhold : w'.holdLock = true) : Listening (.add (k + 1)) w' where
  nodup := by
    unfold Worker.listeners
    rw [hservers]
    exact h.nodup
  watched j server' fd r hj hr hslot := by
    rw [hservers] at hj
    -- the registration is an older one, or the one of this pass
    rcases hinterest fd r hr with hold | hnew
    · obtain ⟨⟨-, hlt⟩, htag⟩ := h.watched j server' fd r hj hold hslot
      exact ⟨⟨hhold, Nat.lt_succ_of_lt hlt⟩, htag⟩
    · -- no two listeners share a slot
      have hget {m : ℕ} {server : Server} (hm : w.servers[m]? = some server) :
          w.listeners[m]? = some server.slot := by
        rw [Worker.listeners, List.getElem?_map, hm, Option.map_some]
      have hsame : w.listeners[j]? = w.listeners[k]? := by
        rw [hget hj, hget hk, ← hslot, hnew]
      have hlt : j < w.listeners.length := (List.getElem?_eq_some_iff.mp (hget hj)).1
      have hjk : j = k := (List.getElem?_inj hlt h.nodup).mp hsame
      subst hjk
      refine ⟨⟨hhold, Nat.lt_succ_self j⟩, ?_⟩
      by_contra htag
      exact (h.tagged j server' hj (by simpa using htag)).elim
  tagged j server' hj htag := by
    rw [hservers] at hj
    exact (h.tagged j server' hj htag).elim

/-- Where an entry of `mpp_servers` comes from after a change of one tag. -/
theorem getElem?_servers {servers : List Server} {k j : ℕ} {tagged : Bool} {server' : Server}
    (h : (servers.modify k fun server => { server with tagged })[j]? = some server') :
    ∃ server, servers[j]? = some server ∧ server'.slot = server.slot ∧
      server'.tagged = if k = j then tagged else server.tagged := by
  rw [List.getElem?_modify] at h
  obtain ⟨server, hj, rfl⟩ := Option.map_eq_some_iff.mp h
  refine ⟨server, hj, ?_, ?_⟩ <;> split <;> rfl

/-- When listener `k` could not be added, its pointer is tagged, and the loop is left. -/
theorem wait_of_addFailed {k : ℕ} (h : Listening (.add k) w) (hhold : w.holdLock = true) :
    Listening .wait { w with
      servers := w.servers.modify k fun server => { server with tagged := true } } where
  nodup := by
    rw [(Polls.of_servers w k true).listeners]
    exact h.nodup
  watched j server' fd r hj hr hslot := by
    obtain ⟨server, hold, hsame, htag'⟩ := getElem?_servers hj
    obtain ⟨⟨-, hlt⟩, htag⟩ := h.watched j server fd r hold hr (hslot.trans hsame)
    refine ⟨hhold, ?_⟩
    rw [htag', if_neg (Nat.ne_of_gt hlt)]
    exact htag
  tagged _ _ _ _ := hhold

/-- When listener `k` is tagged, the loop that deletes takes its tag off, and nothing else. -/
theorem del_succ_of_tagged {k : ℕ} {server : Server} {rslt : WaitResult}
    (h : Listening (.del k rslt) w) (hk : w.servers[k]? = some server)
    (htagged : server.tagged = true) :
    Listening (.del (k + 1) rslt) { w with
      servers := w.servers.modify k fun server => { server with tagged := false } } where
  nodup := by
    rw [(Polls.of_servers w k false).listeners]
    exact h.nodup
  watched j server' fd r hj hr hslot := by
    obtain ⟨server₁, hold, hsame, htag'⟩ := getElem?_servers hj
    obtain ⟨⟨hhold, hle⟩, htag⟩ := h.watched j server₁ fd r hold hr (hslot.trans hsame)
    -- the listener of the pass is tagged, and this one is not
    have hne : k ≠ j := by
      rintro rfl
      rw [hk, Option.some.injEq] at hold
      simp [← hold, htagged] at htag
    rw [htag', if_neg hne]
    exact ⟨⟨hhold, Nat.lt_of_le_of_ne hle hne⟩, htag⟩
  tagged j server' hj htag := by
    obtain ⟨server₁, hold, -, htag'⟩ := getElem?_servers hj
    -- the pass has just taken the tag of its listener away
    have hne : k ≠ j := by
      intro hkj
      rw [if_pos hkj] at htag'
      simp [htag'] at htag
    rw [htag', if_neg hne] at htag
    obtain ⟨hhold, hle⟩ := h.tagged j server₁ hold htag
    exact ⟨hhold, Nat.lt_of_le_of_ne hle hne⟩

/-- When `epoll_del_event` deleted listener `k`, only later ones may still be watched. -/
theorem del_succ_of_deleted {k : ℕ} {server : Server} {rslt : WaitResult}
    (h : Listening (.del k rslt) w) (hk : w.servers[k]? = some server)
    (htagged : server.tagged = false) (hservers : w'.servers = w.servers)
    (hhold : w'.holdLock = w.holdLock)
    (hfds : ∀ fd r, w.interest fd = some r → (w.sock r.slot).fd = fd)
    (hinterest : ∀ fd r, w'.interest fd = some r → w.interest fd = some r)
    (hgone : w'.interest (w.sock server.slot).fd = none) :
    Listening (.del (k + 1) rslt) w' where
  nodup := by
    unfold Worker.listeners
    rw [hservers]
    exact h.nodup
  watched j server' fd r hj hr hslot := by
    rw [hservers] at hj
    have hold := hinterest fd r hr
    obtain ⟨⟨hheld, hle⟩, htag⟩ := h.watched j server' fd r hj hold hslot
    -- the listener just deleted is not watched any more, so `j` is a later one
    have hne : k ≠ j := by
      rintro rfl
      obtain rfl : server = server' := Option.some.inj (hk.symm.trans hj)
      rw [← hslot, hfds fd r hold, hr] at hgone
      cases hgone
    exact ⟨⟨hhold.trans hheld, Nat.lt_of_le_of_ne hle hne⟩, htag⟩
  tagged j server' hj htag := by
    rw [hservers] at hj
    obtain ⟨hheld, hle⟩ := h.tagged j server' hj htag
    -- its pointer is not tagged, so again `j` is a later one
    have hne : k ≠ j := by
      rintro rfl
      obtain rfl : server = server' := Option.some.inj (hk.symm.trans hj)
      rw [htagged] at htag
      cases htag
    exact ⟨hhold.trans hheld, Nat.lt_of_le_of_ne hle hne⟩

end Listening

namespace AtPc

variable {power₀ : ℤ} {env : Env} {lock : BitVec 64} {pc pc' : Pc} {w w' : Worker}
  {free conns posted : List ℕ} {tr : List LogEntry}

/-- A worker goes to another program point and posts nothing: the invariant holds there when it says
the right thing about the listeners and about `m_hold_lock`. -/
theorem of_polls (h : AtPc power₀ ⟨pc, w⟩ free conns posted) (hpolls : Polls w w' tr)
    (hpost : pc.mayPost → pc'.mayPost) (hbatch : pc'.batch = [] ∨ pc'.batch = pc.batch)
    (hlistening : Listening pc' w') (howns : inSection w'.log = pc'.owns w'.holdLock)
    (hreleased : pc'.Released w'.holdLock) :
    AtPc power₀ ⟨pc', w'⟩ free conns posted where
  consistent := h.consistent.polls hpolls
  posted_subset := h.posted_subset
  posted_nil hnot := h.posted_nil fun hmay => hnot (hpost hmay)
  -- the batch is the old one or empty, so what holds of it holds still
  batch_nodup := by
    rcases hbatch with hnil | hsame
    · simp [hnil]
    · exact hsame ▸ h.batch_nodup
  batch ev hev := by
    rcases hbatch with hnil | hsame
    · simp [hnil] at hev
    · show ev.slot ∈ conns ∧ (w'.sock ev.slot).stale = ev.stale
      rw [hpolls.sock]
      exact h.batch ev (hsame ▸ hev)
  listening := hlistening
  owns := howns
  released := hreleased

/-- The test of `m_power` leads to `spinlock_try`, or to the store of 0 in `m_hold_lock`. -/
theorem advances_call (h : AtPc power₀ ⟨.call, w⟩ free conns posted) :
    Advances power₀ env lock ⟨.call, w⟩ := by
  have howns : inSection w.log = false := h.owns
  by_cases hpower : 0 < w.power
  · refine ⟨lock, ⟨.tryLock, w⟩, [], free, conns, posted, by simp [Proc.step, hpower],
      h.of_polls (.refl w) id (Or.inl rfl) ?_ howns trivial, by simp, .idle (by simp)⟩
    exact h.listening.congr rfl (fun _ _ hr _ => hr) (fun _ _ => id) fun _ _ => id
  · refine ⟨lock, ⟨.setHold false, w⟩, [], free, conns, posted, by simp [Proc.step, hpower],
      h.of_polls (.refl w) id (Or.inl rfl) ?_ howns trivial, by simp, .idle (by simp)⟩
    exact h.listening.congr rfl (fun _ _ hr _ => hr) (fun _ _ => id) fun _ _ => id

/-- `spinlock_try` takes the word if it is 0, and leaves it if it is 1. -/
theorem advances_tryLock (h : AtPc power₀ ⟨.tryLock, w⟩ free conns posted)
    (hlock : lock = 0 ∨ lock = 1) :
    Advances power₀ env lock ⟨.tryLock, w⟩ := by
  -- the worker is not in the section when it tries the lock
  have howns : inSection w.log = false := h.owns
  have hlistening (held : Bool) :
      Listening (.setHold held) (w.record (.trySpinlock held)) :=
    h.listening.congr rfl (fun _ _ hr _ => hr) (fun _ _ => id) fun _ _ => id
  have hpolls (held : Bool) : Polls w (w.record (.trySpinlock held)) [.trySpinlock held] :=
    .of_record w (.trySpinlock held) trivial w.holdLock
  have hafter (held : Bool) :
      AtPc power₀ ⟨.setHold held, w.record (.trySpinlock held)⟩ free conns posted :=
    h.of_polls (hpolls held) id (Or.inl rfl) (hlistening held)
      (by simp [Worker.record, howns, Pc.owns])
      trivial
  -- a lock that is free is taken, and one that is taken stays
  rcases spinlockTry_eq hlock with ⟨hfree, htry⟩ | ⟨htaken, htry⟩
  · exact ⟨1, _, _, free, conns, posted, by simp only [Proc.step, htry], hafter true, rfl,
      .enter hfree howns⟩
  · subst htaken
    exact ⟨1, _, _, free, conns, posted, by simp only [Proc.step, htry],
      hafter false, rfl, .idle (by simp [LogEntry.MovesLock])⟩

/-- The store of `m_hold_lock` leaves the word alone. -/
theorem advances_setHold {held : Bool} (h : AtPc power₀ ⟨.setHold held, w⟩ free conns posted) :
    Advances power₀ env lock ⟨.setHold held, w⟩ := by
  refine ⟨lock, ⟨.add 0, { w with holdLock := held }⟩, [], free, conns, posted, rfl,
    h.of_polls (.of_holdLock w held) id (Or.inl rfl) ?_ h.owns trivial, by simp, .idle (by simp)⟩
  exact h.listening.congr rfl (fun _ _ hr _ => hr) (fun _ _ => False.elim) fun _ _ => False.elim

/-- A pass of the loop that adds the listeners adds one, or tags its pointer and leaves the loop. -/
theorem advances_add {k : ℕ} (h : AtPc power₀ ⟨.add k, w⟩ free conns posted) :
    Advances power₀ env lock ⟨.add k, w⟩ := by
  have howns : inSection w.log = w.holdLock := h.owns
  have hwait : AtPc power₀ ⟨.wait, w⟩ free conns posted :=
    h.of_polls (.refl w) id (Or.inl rfl) (h.listening.congr rfl (fun _ _ hr _ => hr)
      (fun _ _ hk => hk.1) fun _ _ => False.elim) howns trivial
  by_cases hhold : w.holdLock = true
  swap
  · exact ⟨lock, ⟨.wait, w⟩, [], free, conns, posted, by simp [Proc.step, hhold], hwait, by simp,
      .idle (by simp)⟩
  cases hk : w.servers[k]? with
  | none =>
    exact ⟨lock, ⟨.wait, w⟩, [], free, conns, posted, by simp [Proc.step, hhold, hk], hwait,
      by simp, .idle (by simp)⟩
  | some server =>
    have htag : server.tagged = false := by
      by_contra htagged
      exact h.listening.tagged k server hk (by simpa using htagged)
    have hslot : server.slot ∈ w.listeners := List.mem_map_of_mem (List.mem_of_getElem? hk)
    obtain ⟨rslt, hpolls⟩ := Polls.of_epollAddEvent env hslot
    obtain ⟨hhold₁, hservers₁⟩ := epollAddEvent_keeps env w server.slot
    have hidle : ∀ e ∈ [LogEntry.addEvent server.slot rslt], ¬e.MovesLock := by
      simp [LogEntry.MovesLock]
    have hwatch := epollAddEvent_interest env w server.slot
    cases hev : epollAddEvent env w server.slot with
    | mk ok w₁ =>
      simp only [hev] at hpolls hhold₁ hservers₁ hwatch
      have howns₁ : inSection w₁.log = w₁.holdLock := by
        rw [hpolls.log, inSection_append_of_not_movesLock hidle, howns, hhold₁]
      cases ok with
      | true =>
        refine ⟨lock, ⟨.add (k + 1), w₁⟩, _, free, conns, posted,
          by simp [Proc.step, hhold, hk, htag, hev],
          h.of_polls hpolls id (Or.inl rfl)
            (h.listening.add_succ hk hservers₁ ?_ (hhold₁.trans hhold)) howns₁ trivial,
          hpolls.log, .idle hidle⟩
        exact fun fd r hr => (hwatch fd r hr).imp_right And.right
      | false =>
        refine ⟨lock, ⟨.wait, _⟩, _, free, conns, posted,
          by simp [Proc.step, hhold, hk, htag, hev],
          h.of_polls (hpolls.trans (.of_servers w₁ k true)) id (Or.inl rfl) ?_ howns₁ trivial,
          by simpa using hpolls.log, .idle hidle⟩
        -- the kernel watches what it watched before
        refine Listening.wait_of_addFailed (h.listening.congr hservers₁ (fun fd r hr _ => ?_)
          (fun _ _ hj => ⟨hhold₁.trans hhold, hj.2⟩) fun _ _ => False.elim) (hhold₁.trans hhold)
        exact (hwatch fd r hr).resolve_right (by simp)

/-- `epoll_wait` gives events of connections under their present tags. -/
theorem advances_wait (h : AtPc power₀ ⟨.wait, w⟩ free conns posted)
    (hbatch : env.RegisteredBatches) :
    Advances power₀ env lock ⟨.wait, w⟩ := by
  obtain rfl : posted = [] := h.posted_nil id
  have hempty : w.links .postedEvents = none := h.consistent.lists.postedEvents
  have hidle : ∀ e ∈ [LogEntry.wait (env.wait w)], ¬e.MovesLock := by simp [LogEntry.MovesLock]
  refine ⟨lock, ⟨.del 0 (env.wait w), w.record (.wait (env.wait w))⟩, _, free, conns, [],
    by simp [Proc.step, hempty], ?_, rfl, .idle hidle⟩
  -- the batch is about connections
  obtain ⟨hnodup, hevs⟩ : ((env.wait w).batch.map EpollEvent.slot).Nodup ∧
      ∀ ev ∈ (env.wait w).batch, ev.slot ∈ conns ∧ (w.sock ev.slot).stale = ev.stale := by
    cases hwait : env.wait w with
    | eintr | failed => simp [WaitResult.batch]
    | events evs =>
      obtain ⟨hnodup, hregistered⟩ := hbatch w evs hwait
      refine ⟨hnodup, fun ev hev => ?_⟩
      obtain ⟨fd, r, hr, hslot, hstale⟩ := hregistered ev hev
      obtain ⟨hmem, -, htag⟩ := h.consistent.descriptors.interest fd r hr
      rw [hslot] at hmem htag
      exact ⟨hmem, htag.trans hstale⟩
  exact {
    consistent := h.consistent.record _ trivial
    posted_subset := h.posted_subset
    posted_nil _ := rfl
    batch_nodup := hnodup
    batch := hevs
    listening := h.listening.congr rfl (fun _ _ hr _ => hr) (fun k _ hk => ⟨hk, Nat.zero_le k⟩)
      fun k _ hk => ⟨hk, Nat.zero_le k⟩
    owns := (inSection_append_of_not_movesLock hidle).trans h.owns
    released := trivial }

/-- A pass of the loop that deletes the listeners deletes one, or takes the tag off its pointer. -/
theorem advances_del {k : ℕ} {rslt : WaitResult}
    (h : AtPc power₀ ⟨.del k rslt, w⟩ free conns posted) (hdel : env.Deletes) :
    Advances power₀ env lock ⟨.del k rslt, w⟩ := by
  have howns : inSection w.log = w.holdLock := h.owns
  -- behind the last listener, or without the lock, nothing is watched any more
  have hpost (hend : ∀ j < w.servers.length, ¬(w.holdLock = true ∧ k ≤ j)) :
      AtPc power₀ ⟨.post rslt, w⟩ free conns posted :=
    h.of_polls (.refl w) id (Or.inr rfl) (h.listening.congr rfl (fun _ _ hr _ => hr) hend hend)
      howns trivial
  by_cases hhold : w.holdLock = true
  swap
  · exact ⟨lock, ⟨.post rslt, w⟩, [], free, conns, posted, by simp [Proc.step, hhold],
      hpost fun _ _ hj => hhold hj.1, by simp, .idle (by simp)⟩
  cases hk : w.servers[k]? with
  | none =>
    have hle : w.servers.length ≤ k := List.getElem?_eq_none_iff.mp hk
    exact ⟨lock, ⟨.post rslt, w⟩, [], free, conns, posted, by simp [Proc.step, hhold, hk],
      hpost fun j hj hkj => Nat.not_lt.mpr (hle.trans hkj.2) hj, by simp, .idle (by simp)⟩
  | some server =>
    -- a tag stands for a registration that is kept; without one the listener is unregistered
    by_cases htagged : server.tagged = true
    · exact ⟨lock, ⟨.del (k + 1) rslt, _⟩, [], free, conns, posted,
        by simp [Proc.step, hhold, hk, htagged],
        h.of_polls (.of_servers w k false) id (Or.inr rfl)
          (h.listening.del_succ_of_tagged hk htagged) howns trivial,
        by simp, .idle (by simp)⟩
    · obtain ⟨r, hpolls⟩ := Polls.of_epollDelEvent env w server.slot
      obtain ⟨hhold₁, hservers₁⟩ := epollDelEvent_keeps env w server.slot
      obtain ⟨hok, hgone⟩ := epollDelEvent_interest hdel w server.slot
      have hidle : ∀ e ∈ [LogEntry.delEvent server.slot r], ¬e.MovesLock := by
        simp [LogEntry.MovesLock]
      cases hev : epollDelEvent env w server.slot with
      | mk ok w₁ =>
        simp only [hev] at hpolls hhold₁ hservers₁ hok hgone
        subst hok
        have howns₁ : inSection w₁.log = w₁.holdLock := by
          rw [hpolls.log, inSection_append_of_not_movesLock hidle, howns, hhold₁]
        refine ⟨lock, ⟨.del (k + 1) rslt, w₁⟩, _, free, conns, posted,
          by simp [Proc.step, hhold, hk, htagged, hev],
          h.of_polls hpolls id (Or.inr rfl)
            (h.listening.del_succ_of_deleted hk (by simpa using htagged) hservers₁ hhold₁
              (fun fd r hr => (h.consistent.descriptors.interest fd r hr).2.1) ?_ hgone)
            howns₁ trivial, hpolls.log, .idle hidle⟩
        -- the call of `epoll_ctl` leaves no registration that was not there
        intro fd r hr
        obtain ⟨rslt', interest, heq, hsub⟩ := epollDelEvent_snd env w server.slot
        rw [hev] at heq
        simp only at heq
        rw [heq] at hr
        exact hsub fd r hr

/-- The posting of the events changes neither the word nor the listeners. -/
theorem advances_post {rslt : WaitResult} (h : AtPc power₀ ⟨.post rslt, w⟩ free conns posted) :
    Advances power₀ env lock ⟨.post rslt, w⟩ := by
  have howns : inSection w.log = w.holdLock := h.owns
  -- without events the pass goes straight to its end
  have hexit (ok : Bool) : AtPc power₀ ⟨.exit ok, w⟩ free conns posted :=
    h.of_polls (.refl w) (fun _ => trivial) (Or.inl rfl)
      (h.listening.congr rfl (fun _ _ hr _ => hr) (fun _ _ => id) fun _ _ => id) howns trivial
  cases rslt with
  | eintr => exact ⟨lock, _, [], free, conns, posted, rfl, hexit true, by simp, .idle (by simp)⟩
  | failed => exact ⟨lock, _, [], free, conns, posted, rfl, hexit false, by simp, .idle (by simp)⟩
  | events evs =>
    obtain rfl : posted = [] := h.posted_nil id
    have hbefore : Consistent power₀ w [] free conns [] := h.consistent
    have hnodup : (evs.map EpollEvent.slot).Nodup := h.batch_nodup
    have hevs (ev : EpollEvent) (hev : ev ∈ evs) : ev.slot ∈ conns ∧ ev.slot ∉ ([] : List ℕ) ∧
        (w.sock ev.slot).stale = ev.stale :=
      ⟨(h.batch ev hev).1, by simp, (h.batch ev hev).2⟩
    -- posting changes flags and the list of posted sockets, and no registration
    obtain ⟨posted', hcons, hposted, -, -, -, hservers, -, hlog⟩ := hbefore.postEvents hnodup hevs
    obtain ⟨hhold, hinterest, -⟩ := foldl_postEvent_keeps evs w
    refine ⟨lock, ⟨.exit true, evs.foldl postEvent w⟩, [], free, conns, posted', rfl, ?_,
      by simpa using hlog, .idle (by simp)⟩
    exact {
      consistent := hcons
      posted_subset := by
        intro i hi
        obtain ⟨ev, hev, rfl, -⟩ := ((hposted i).mp hi).resolve_left (by simp)
        exact (hevs ev hev).1
      posted_nil hnot := absurd trivial hnot
      batch_nodup := by simp [Pc.batch]
      batch := by simp [Pc.batch]
      listening := h.listening.congr hservers (fun fd r hr _ => hinterest ▸ hr) (fun _ _ => id)
        fun _ _ => id
      owns := by
        show inSection (evs.foldl postEvent w).log = (evs.foldl postEvent w).holdLock
        rw [hlog, hhold, howns]
      released := trivial }

/-- At `EXIT` the worker gives the lock back exactly when `m_hold_lock` is set. -/
theorem advances_exit {ok : Bool} (h : AtPc power₀ ⟨.exit ok, w⟩ free conns posted) :
    Advances power₀ env lock ⟨.exit ok, w⟩ := by
  have howns : inSection w.log = w.holdLock := h.owns
  -- the lock is given back only by its holder
  by_cases hhold : w.holdLock = true
  · refine ⟨spinlockUnlock, ⟨.clear ok, w.record .spinlockUnlock⟩, _, free, conns, posted,
      by simp [Proc.step, hhold],
      h.of_polls (.of_record w .spinlockUnlock trivial w.holdLock) id (Or.inl rfl) ?_
        (inSection_append_spinlockUnlock w.log) trivial, rfl, .leave (howns.trans hhold)⟩
    exact h.listening.congr rfl (fun _ _ hr _ => hr) (fun _ _ => id) fun _ _ => id
  · have hfree : w.holdLock = false := by simpa using hhold
    refine ⟨lock, ⟨.ret ok, w⟩, [], free, conns, posted, by simp [Proc.step, hhold],
      h.of_polls (.refl w) id (Or.inl rfl) ?_ (howns.trans hfree) hfree, by simp,
      .idle (by simp)⟩
    exact h.listening.congr rfl (fun _ _ hr _ => hr) (fun _ _ => id) fun _ _ => id

/-- After the unlocking `m_hold_lock` is cleared. -/
theorem advances_clear {ok : Bool} (h : AtPc power₀ ⟨.clear ok, w⟩ free conns posted) :
    Advances power₀ env lock ⟨.clear ok, w⟩ := by
  refine ⟨lock, ⟨.ret ok, { w with holdLock := false }⟩, [], free, conns, posted, rfl,
    h.of_polls (.of_holdLock w false) id (Or.inl rfl) ?_ h.owns rfl, by simp,
    .idle (by simp)⟩
  exact h.listening.congr rfl (fun _ _ hr _ => hr) (fun _ _ => id) fun _ _ => id

/-- After `epoll_process_events` the traversal ends the pass, or `event_loop` was left. -/
theorem advances_ret {ok : Bool} (h : AtPc power₀ ⟨.ret ok, w⟩ free conns posted)
    (hfresh : env.FreshFds) : Advances power₀ env lock ⟨.ret ok, w⟩ := by
  have howns : inSection w.log = false := h.owns
  cases ok with
  | false => exact ⟨lock, _, [], free, conns, posted, rfl, h, by simp, .idle (by simp)⟩
  | true =>
    have hbefore : Consistent power₀ w [] free conns posted := h.consistent
    obtain ⟨w', free', conns', tr, hrun, hcons, hkeeps, hlog, htrace, -⟩ :=
      hbefore.traverse hfresh h.posted_subset hbefore.lists.length_posted_le
    -- the traversal does not touch the lock
    have hidle : ∀ e ∈ tr, ¬e.MovesLock := by
      intro e he
      have hwithin := htrace.within he
      cases e <;> first | exact id | exact hwithin.elim
    refine ⟨lock, ⟨.call, w'⟩, tr, free', conns', [], by simp [Proc.step, hrun, bind, Except.bind],
      ?_, hlog, .idle hidle⟩
    exact {
      consistent := hcons
      posted_subset := List.nil_subset _
      posted_nil _ := rfl
      batch_nodup := by simp [Pc.batch]
      batch := by simp [Pc.batch]
      listening := h.listening.congr hkeeps.servers hkeeps.interest (fun _ _ => id) fun _ _ => id
      owns := by
        show inSection w'.log = false
        rw [hlog, inSection_append_of_not_movesLock hidle, howns]
      released := trivial }

/-- Every step of a worker returns, keeps the invariant and only moves the word as a worker may. -/
theorem advances {p : Proc} (h : AtPc power₀ p free conns posted) (henv : env.Valid)
    (hdel : env.Deletes) (hlock : lock = 0 ∨ lock = 1) : Advances power₀ env lock p := by
  obtain ⟨pc, w⟩ := p
  -- one lemma for each place of the program
  cases pc with
  | call => exact h.advances_call
  | tryLock => exact h.advances_tryLock hlock
  | setHold => exact h.advances_setHold
  | add => exact h.advances_add
  | wait => exact h.advances_wait henv.batches
  | del => exact h.advances_del hdel
  | post => exact h.advances_post
  | exit => exact h.advances_exit
  | clear => exact h.advances_clear
  | ret => exact h.advances_ret henv.fresh

end AtPc

/-! ## Exclusion -/

section Exclusion

variable {ι : Type} [DecidableEq ι]

/-- A worker whose invariant holds. -/
def Sound (power₀ : ℤ) (p : Proc) : Prop := ∃ free conns posted, AtPc power₀ p free conns posted

/-- A worker in its section. -/
def Proc.InSection (p : Proc) : Prop := inSection p.worker.log = true

/-- A worker is in its section as long as it does nothing to the word. -/
theorem Transfers.cases {lock lock' : BitVec 64} {log log' tr : List LogEntry}
    (h : Transfers lock log lock' tr) (hlog : log' = log ++ tr) :
    lock' = lock ∧ inSection log' = inSection log ∨
      lock = 0 ∧ lock' = 1 ∧ inSection log = false ∧ inSection log' = true ∨
      lock' = 0 ∧ inSection log = true ∧ inSection log' = false := by
  subst hlog
  cases h with
  | idle hidle => exact Or.inl ⟨rfl, inSection_append_of_not_movesLock hidle⟩
  | enter hfree hout => exact Or.inr (Or.inl ⟨hfree, rfl, hout, by simp⟩)
  | leave hin => exact Or.inr (Or.inr ⟨rfl, hin, by simp⟩)

/-- A step that unlocks is one of a worker in its section. -/
theorem Transfers.inSection_of_unlock {lock lock' : BitVec 64} {log tr : List LogEntry}
    (h : Transfers lock log lock' tr) (hunlock : .spinlockUnlock ∈ tr) : inSection log = true := by
  cases h with
  | idle hidle => exact absurd trivial (hidle _ hunlock)
  | enter => simp at hunlock
  | leave hin => exact hin

/-- Every step of a sound worker leads to a sound worker and moves the word only as a worker may. -/
theorem Sound.act {power₀ : ℤ} {lock lock' : BitVec 64} {p p' : Proc} (h : Sound power₀ p)
    (hlock : lock = 0 ∨ lock = 1) (hact : p.act lock lock' p') :
    Sound power₀ p' ∧ ∃ tr, p'.worker.log = p.worker.log ++ tr ∧
      Transfers lock p.worker.log lock' tr := by
  obtain ⟨free, conns, posted, h⟩ := h
  obtain ⟨env, henv, hdel, hstep⟩ := hact
  obtain ⟨lock₁, p₁, tr, free', conns', posted', hstep₁, h', hlog, htransfers⟩ :=
    h.advances henv hdel hlock
  obtain ⟨rfl, rfl⟩ := Prod.mk.inj (Except.ok.inj (hstep₁.symm.trans hstep))
  exact ⟨⟨free', conns', posted', h'⟩, tr, hlog, htransfers⟩

omit [DecidableEq ι] in
/-- The workers treat the word as a token: they take it when it is 0, put 0 back, and leave it alone
otherwise. -/
theorem tokenDiscipline (power₀ : ι → ℤ) :
    TokenDiscipline Proc.act (fun i => Sound (power₀ i)) Proc.InSection 0 1 where
  keeps hsound hlock hact := (hsound.act hlock hact).1
  enter hsound hlock hact hout hin := by
    obtain ⟨-, tr, hlog, htransfers⟩ := hsound.act hlock hact
    -- entering needs the free value, and leaves the taken one behind
    rcases htransfers.cases hlog with ⟨-, hsame⟩ | ⟨hfree, htaken, -⟩ | ⟨-, hold, -⟩
    · exact absurd (hsame.symm.trans hin) hout
    · exact ⟨hfree, htaken⟩
    · exact absurd hold hout
  leave hsound hlock hact hin hout := by
    obtain ⟨-, tr, hlog, htransfers⟩ := hsound.act hlock hact
    -- leaving puts the free value back
    rcases htransfers.cases hlog with ⟨-, hsame⟩ | ⟨-, -, -, hnew⟩ | ⟨hfree, -⟩
    · exact absurd (hsame.trans hin) hout
    · exact absurd hnew hout
    · exact hfree
  stay hsound hlock hact hiff := by
    obtain ⟨-, tr, hlog, htransfers⟩ := hsound.act hlock hact
    -- in both other cases the worker crosses the border of the section
    rcases htransfers.cases hlog with ⟨hsame, -⟩ | ⟨-, -, hold, hnew⟩ | ⟨-, hold, hnew⟩
    · exact hsame
    · exact absurd (hold.symm.trans (hiff.mpr hnew)) (by simp)
    · exact absurd (hnew.symm.trans (hiff.mp hold)) (by simp)

/-- What holds of the workers of a host and the word they share. -/
structure Excludes (s : Host ι) : Prop where
  /-- At most one worker is between its `spinlock_try` and its `spinlock_unlock`. -/
  unique : ∀ i j, (s.locals i).InSection → (s.locals j).InSection → i = j
  /-- The word is 1 exactly when there is such a worker, and else 0. -/
  taken : s.shared = 1 ↔ ∃ i, (s.locals i).InSection
  free : s.shared = 0 ↔ ∀ i, ¬(s.locals i).InSection
  /-- A worker only changes the word to enter its section or to leave it. -/
  changes : ∀ i s', Step Proc.act i s s' →
    s'.shared ≠ s.shared →
    s.shared = 0 ∧ s'.shared = 1 ∧ ¬(s.locals i).InSection ∧ (s'.locals i).InSection ∨
      s.shared = 1 ∧ s'.shared = 0 ∧ (s.locals i).InSection ∧ ¬(s'.locals i).InSection
  /-- Only the worker in the section unlocks. -/
  unlocks : ∀ i s', Step Proc.act i s s' →
    .spinlockUnlock ∈ (s'.locals i).worker.log.drop (s.locals i).worker.log.length →
    (s.locals i).InSection
  /-- The kernel only watches listeners for the worker in the section. -/
  watched : ∀ i fd r, (s.locals i).worker.interest fd = some r →
    r.slot ∈ (s.locals i).worker.listeners → (s.locals i).InSection
  /-- A call that has returned has released the lock. -/
  returned : ∀ i ok, (s.locals i).pc = .ret ok →
    ¬(s.locals i).InSection ∧ (s.locals i).worker.holdLock = false
  /-- No worker is stopped by an assertion. -/
  advances : ∀ i (env : Env), env.Valid → env.Deletes →
    ∃ lock p, (s.locals i).step env s.shared = .ok (lock, p)

/-- A sound worker for which a listener is watched is in its section. -/
theorem Sound.inSection_of_watched {power₀ : ℤ} {p : Proc} (h : Sound power₀ p) {fd : ℤ}
    {r : Registration} (hr : p.worker.interest fd = some r) (hslot : r.slot ∈ p.worker.listeners) :
    p.InSection := by
  obtain ⟨free, conns, posted, h⟩ := h
  obtain ⟨server, hserver, hslot⟩ := List.mem_map.mp hslot
  obtain ⟨k, hk⟩ := List.mem_iff_getElem?.mp hserver
  obtain ⟨hwatch, -⟩ := h.listening.watched k server fd r hk hr hslot.symm
  exact h.owns.trans (Pc.owns_of_watches hwatch)

/-- A worker that enters the run loop is sound, and not in its section. -/
theorem sound_of_startWorker {boot : BootEnv} {maxConnections : ℕ} {apps : List AppCtx}
    {w : Worker} (hfresh : boot.FreshFds)
    (hstart : startWorker boot maxConnections apps = .ok (some w)) :
    Sound w.power ⟨.call, w⟩ ∧ ¬Proc.InSection ⟨.call, w⟩ := by
  obtain ⟨free, h, hlog, -, huntagged⟩ := consistent_of_startWorker hfresh hstart
  obtain ⟨w₁, w₂, -, -, hw⟩ := startWorker_eq hstart
  -- the log of the start has only entries of the kinds `init` writes
  have hidle : ∀ e ∈ w.log, ¬e.MovesLock := by
    intro e he
    have hboot := hlog e he
    cases e <;> first | exact id | exact hboot.elim
  have hout : inSection w.log = false := @inSection_append_of_not_movesLock [] w.log hidle
  refine ⟨⟨free, _, [], h, List.nil_subset _, fun _ => rfl, by simp [Pc.batch],
    by simp [Pc.batch], ⟨?_, fun k server fd r _ hr => ?_, fun k server hk htag => ?_⟩, hout,
    trivial⟩, by simp [Proc.InSection, hout]⟩
  · exact List.nodup_reverse.mp h.lists.nodup_conns
  · simp [hw, epollInit] at hr
  · rw [huntagged server (List.mem_of_getElem? hk)] at htag
    cases htag

/-- Any number of workers, in any order of their steps, exclude each other. -/
theorem host_excludes {boot : ι → BootEnv} {maxConnections : ι → ℕ} {apps : ι → List AppCtx}
    {w₀ : ι → Worker} (hfresh : ∀ i, (boot i).FreshFds)
    (hstart : ∀ i, startWorker (boot i) (maxConnections i) (apps i) = .ok (some (w₀ i)))
    {s : Host ι} (hs : Reachable Proc.act
      ⟨0, fun i => ⟨.call, w₀ i⟩⟩ s) : Excludes s := by
  have hsound (i : ι) := sound_of_startWorker (hfresh i) (hstart i)
  have hrules := tokenDiscipline fun i => (w₀ i).power
  have hne : (0 : BitVec 64) ≠ 1 := by decide
  have hexcl := hrules.exclusive_of_reachable hne (fun i => (hsound i).1) (fun i => (hsound i).2)
    rfl hs
  have htaken := hexcl.shared_eq_taken_iff hne
  refine ⟨hexcl.unique, htaken, ⟨fun hfree i hi => ?_, hexcl.free_of_not⟩,
    fun i s' hstep hchange => hrules.enter_or_leave_of_ne hexcl hstep hchange,
    fun i s' hstep hunlock => ?_,
    fun i fd r hr hslot => (hexcl.locals i).inSection_of_watched hr hslot, fun i ok hpc => ?_,
    fun i env henv hdel => ?_⟩
  · -- in a free state no worker is in the section
    exact hne (hfree.symm.trans (htaken.mpr ⟨i, hi⟩))
  · -- who unlocks was in the section
    obtain ⟨l, hact, hlocals⟩ := hstep
    obtain ⟨-, tr, hlog, htransfers⟩ := (hexcl.locals i).act hexcl.shared_cases hact
    rw [hlocals, Function.update_self, hlog, List.drop_left] at hunlock
    exact htransfers.inSection_of_unlock hunlock
  · -- a worker that has returned gave the lock back
    obtain ⟨free, conns, posted, h⟩ := hexcl.locals i
    have howns := h.owns
    have hreleased := h.released
    rw [hpc] at howns hreleased
    exact ⟨by simp [Proc.InSection, howns, Pc.owns], hreleased⟩
  · -- a step is possible in every state
    obtain ⟨free, conns, posted, h⟩ := hexcl.locals i
    obtain ⟨lock, p, -, -, -, -, hstep, -⟩ := h.advances henv hdel hexcl.shared_cases
    exact ⟨lock, p, hstep⟩

end Exclusion

/-! ## A sample -/

/-- Worker `i` takes a step, unless an assertion fails. -/
def Host.next {ι : Type} [DecidableEq ι] (env : Env) (s : Host ι) (i : ι) : Host ι :=
  match (s.locals i).step env s.shared with
  | .ok (lock, p) => ⟨lock, Function.update s.locals i p⟩
  | .error _ => s

theorem Host.reachable_next {ι : Type} [DecidableEq ι] {env : Env} (henv : env.Valid)
    (hdel : env.Deletes) {s₀ s : Host ι} (hs : Reachable Proc.act s₀ s) (i : ι) :
    Reachable Proc.act s₀ (s.next env i) := by
  unfold Host.next
  split
  next lock p hstep => exact .step i hs ⟨p, ⟨env, henv, hdel, hstep⟩, rfl⟩
  · exact hs

/-- Two workers at the start. -/
def sampleHost : Host Bool := ⟨0, fun _ => ⟨.call, sampleStart⟩⟩

/-- Both workers test the lock, and one of them gets it and adds its listener. -/
def sampleSchedule : List Bool := [true, false, true, false, true, true]

theorem host_excludes_sample :
    (sampleSchedule.foldl (Host.next (sampleEnv [])) sampleHost).shared = 1 ∧
      Excludes (sampleSchedule.foldl (Host.next (sampleEnv [])) sampleHost) := by
  refine ⟨rfl, host_excludes (fun _ => sampleBoot_fresh) (fun _ => startWorker_sample) ?_⟩
  have hnext {s₀ s : Host Bool} (hs : Reachable Proc.act s₀ s) (i : Bool) :
      Reachable Proc.act s₀ (s.next (sampleEnv []) i) :=
    Host.reachable_next (sampleEnv_valid []) (fun _ _ => Or.inl rfl) hs i
  exact hnext (hnext (hnext (hnext (hnext (hnext .start true) false) true) false) true) true

end Hixo
