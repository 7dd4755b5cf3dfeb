import Hixo.Foundation.Rollback
import Hixo.Worker.Polling

/-!
# The registration of the listeners

A call of `epoll_process_events` that gets the accept lock adds the listeners in one loop and
deletes them in another. The first loop ends at a listener it cannot add, and tags its pointer in
`mpp_servers`; the second loop clears the tag, but ends at a listener it cannot delete.

* `Env.CtlPattern`: which calls of `epoll_ctl` fail;
* `addListeners_refines`, `delListeners_refines`: the two loops are those of `Rollback`;
* `ListenersRestored`: what the call owes to the listeners;
* `listenersRestored_iff`: it pays exactly when the second loop gets far enough.
-/

namespace Hixo

open Worker Rollback

/-! ## The results of `epoll_ctl` -/

/-- `epoll_ctl` fails to add the slots of `add` and to delete those of `del`; it reports `ENOENT`
only for a descriptor that is not registered. -/
structure Env.CtlPattern (env : Env) (add del : ℕ → Bool) : Prop where
  add : ∀ w i, (epollAddEvent env w i).1 = !add i
  del : ∀ w i, (epollDelEvent env w i).1 = !del i
  enoent : ∀ w i, env.delEvent w i = .enoent → w.interest (w.sock i).fd = none

/-- `EPOLL_CTL_ADD` succeeded for a slot. -/
def Added (tr : List LogEntry) (i : ℕ) : Prop :=
  ∃ rslt, (rslt = .ok ∨ rslt = .eexist) ∧ .addEvent i rslt ∈ tr

/-- `EPOLL_CTL_DEL` was attempted for a slot. -/
def DelTried (tr : List LogEntry) (i : ℕ) : Prop := ∃ rslt, .delEvent i rslt ∈ tr

/-- `EPOLL_CTL_DEL` failed for a slot. -/
def DelFailed (tr : List LogEntry) (i : ℕ) : Prop :=
  ∃ rslt, ¬(rslt = .ok ∨ rslt = .enoent) ∧ .delEvent i rslt ∈ tr

section Traces

variable {tr tr' : List LogEntry} {i : ℕ}

/-- A listener was added in one of the two parts of a log. -/
theorem added_append : Added (tr ++ tr') i ↔ Added tr i ∨ Added tr' i := by
  simp only [Added, List.mem_append, and_or_left, exists_or]

/-- Deleting a listener was tried in one of the two parts of a log. -/
theorem delTried_append : DelTried (tr ++ tr') i ↔ DelTried tr i ∨ DelTried tr' i := by
  simp only [DelTried, List.mem_append, exists_or]

/-- Deleting a listener failed in one of the two parts of a log. -/
theorem delFailed_append : DelFailed (tr ++ tr') i ↔ DelFailed tr i ∨ DelFailed tr' i := by
  simp only [DelFailed, List.mem_append, and_or_left, exists_or]

end Traces

/-- What the two loops leave alone. -/
structure Registers (w w' : Worker) (tr : List LogEntry) : Prop where
  links : w'.links = w.links
  sock : w'.sock = w.sock
  holdLock : w'.holdLock = w.holdLock
  log : w'.log = w.log ++ tr

namespace Registers

variable {w w' w'' : Worker} {tr tr' : List LogEntry}

/-- What does nothing registers nothing. -/
theorem refl (w : Worker) : Registers w w [] := ⟨rfl, rfl, rfl, by simp⟩

/-- Two parts of a call register what they do together. -/
theorem trans (h : Registers w w' tr) (h' : Registers w' w'' tr') :
    Registers w w'' (tr ++ tr') where
  links := h'.links.trans h.links
  sock := h'.sock.trans h.sock
  holdLock := h'.holdLock.trans h.holdLock
  log := by rw [h'.log, h.log, List.append_assoc]

end Registers

namespace Env.CtlPattern

variable {env : Env} {add del : ℕ → Bool}

/-- `epoll_add_event` adds the listener unless the pattern says that it fails, and registers nothing
else. -/
theorem epollAddEvent (h : env.CtlPattern add del) (w : Worker) (i : ℕ) : ∃ w' tr,
    Worker.epollAddEvent env w i = (!add i, w') ∧ Registers w w' tr ∧ w'.servers = w.servers ∧
      (∀ j, Added tr j ↔ j = i ∧ add i = false) ∧ (∀ j, ¬DelTried tr j) ∧
      ∀ fd, w'.interest fd ≠ none →
        w.interest fd ≠ none ∨ add i = false ∧ (w.sock i).fd = fd := by
  have hpattern := h.add w i
  unfold Worker.epollAddEvent at hpattern ⊢
  cases hrslt : env.addEvent w i with
  | ok =>
    simp only [hrslt] at hpattern ⊢
    have hadd : add i = false := by simpa using hpattern.symm
    simp only [hadd, Bool.not_false]
    refine ⟨_, [.addEvent i .ok], rfl, ⟨rfl, rfl, rfl, rfl⟩, rfl, fun j => ?_,
      fun j => ?_, fun fd hfd => ?_⟩
    · simp [Added]
    · simp [DelTried]
    · by_cases heq : fd = (w.sock i).fd
      · exact Or.inr ⟨trivial, heq.symm⟩
      · exact Or.inl (by simpa [record, heq] using hfd)
  -- the descriptor was registered before, which the code takes for success
  | eexist =>
    simp only [hrslt] at hpattern ⊢
    have hadd : add i = false := by simpa using hpattern.symm
    simp only [hadd, Bool.not_false]
    refine ⟨_, [.addEvent i .eexist], rfl, ⟨rfl, rfl, rfl, rfl⟩, rfl, fun j => ?_,
      fun j => ?_, fun fd hfd => Or.inl hfd⟩
    · simp [Added]
    · simp [DelTried]
  -- any other answer is a failure
  | enoent | failed =>
    simp only [hrslt] at hpattern ⊢
    have hadd : add i = true := by simpa using hpattern.symm
    simp only [hadd, Bool.not_true]
    refine ⟨_, [.addEvent i _], rfl, ⟨rfl, rfl, rfl, rfl⟩, rfl, fun j => ?_,
      fun j => ?_, fun fd hfd => Or.inl hfd⟩
    · simp [Added]
    · simp [DelTried]

/-- `epoll_del_event` deletes the listener unless the pattern says that it fails, and registers
nothing. -/
theorem epollDelEvent (h : env.CtlPattern add del) (w : Worker) (i : ℕ) : ∃ w' tr,
    Worker.epollDelEvent env w i = (!del i, w') ∧ Registers w w' tr ∧ w'.servers = w.servers ∧
      (∀ j, ¬Added tr j) ∧ (∀ j, DelTried tr j ↔ j = i) ∧
      (∀ j, DelFailed tr j ↔ j = i ∧ del i = true) ∧
      (∀ fd, w'.interest fd ≠ none → w.interest fd ≠ none) ∧
      (del i = false → w'.interest (w.sock i).fd = none) := by
  have hpattern := h.del w i
  have henoent := h.enoent w i
  unfold Worker.epollDelEvent at hpattern ⊢
  cases hrslt : env.delEvent w i with
  | ok =>
    simp only [hrslt] at hpattern ⊢
    have hdel : del i = false := by simpa using hpattern.symm
    simp only [hdel, Bool.not_false]
    refine ⟨_, [.delEvent i .ok], rfl, ⟨rfl, rfl, rfl, rfl⟩, rfl, fun j => ?_,
      fun j => ?_, fun j => ?_, fun fd hfd => ?_, fun _ => ?_⟩
    · simp [Added]
    · simp [DelTried]
    · simp [DelFailed]
    · by_cases heq : fd = (w.sock i).fd
      · simp [record, heq] at hfd
      · simpa [record, heq] using hfd
    · simp [record]
  -- the kernel knew of no registration, which the code takes for success
  | enoent =>
    simp only [hrslt] at hpattern ⊢
    have hdel : del i = false := by simpa using hpattern.symm
    simp only [hdel, Bool.not_false]
    refine ⟨_, [.delEvent i .enoent], rfl, ⟨rfl, rfl, rfl, rfl⟩, rfl, fun j => ?_,
      fun j => ?_, fun j => ?_, fun fd hfd => hfd, fun _ => henoent hrslt⟩
    · simp [Added]
    · simp [DelTried]
    · simp [DelFailed]
  -- any other answer is a failure, and the registration stays
  | eexist | failed =>
    simp only [hrslt] at hpattern ⊢
    have hdel : del i = true := by simpa using hpattern.symm
    simp only [hdel, Bool.not_true]
    refine ⟨_, [.delEvent i _], rfl, ⟨rfl, rfl, rfl, rfl⟩, rfl, fun j => ?_,
      fun j => ?_, fun j => ?_, fun fd hfd => hfd, fun hfalse => ?_⟩
    · simp [Added]
    · simp [DelTried]
    · simp [DelFailed]
    · cases hfalse

end Env.CtlPattern

/-! ## The loops -/

/-- A pointer in `mpp_servers`, with its tag. -/
def toServer (p : ℕ × Bool) : Server := ⟨p.1, p.2⟩

section Loops

variable {env : Env} {add del : ℕ → Bool}

/-- The loop that adds the listeners acquires them in the abstract sense: it stops at the first that
fails, and tags it. -/
theorem addListeners_refines (henv : env.CtlPattern add del) (rest : List ℕ) (pre : List Server)
    (w : Worker) (hservers : w.servers = pre ++ (rest.map (·, false)).map toServer) :
    ∃ w' tr, addListeners env (List.range' pre.length rest.length) w = .ok w' ∧
      Registers w w' tr ∧ w'.servers = pre ++ (acquire add rest).map toServer ∧
      (∀ i, Added tr i ↔ i ∈ acquired add rest) ∧ (∀ i, ¬DelTried tr i) ∧
      ∀ fd, w'.interest fd ≠ none →
        w.interest fd ≠ none ∨ ∃ i ∈ acquired add rest, (w.sock i).fd = fd := by
  induction rest generalizing pre w with
  | nil =>
    refine ⟨w, [], rfl, .refl w, hservers, fun i => ?_, fun i => ?_, fun fd hfd => Or.inl hfd⟩
    · simp [Added, acquired]
    · simp [DelTried]
  | cons i rest ih =>
    obtain ⟨w₁, tr₁, hadd, hreg₁, hservers₁, hadded₁, hdel₁, hinterest₁⟩ :=
      henv.epollAddEvent w i
    have hk : w.servers[pre.length]? = some ⟨i, false⟩ := by
      rw [hservers, List.getElem?_append_right (le_refl _), Nat.sub_self]
      rfl
    rw [List.length_cons, List.range'_succ, addListeners]
    simp only [hk, hadd, Bool.false_eq_true, if_false]
    cases hfails : add i with
    | true =>
      -- the pointer is tagged and the loop ends
      have hacquired : acquired add (i :: rest) = [] := by simp [acquired, hfails]
      refine ⟨_, tr₁, rfl, ⟨hreg₁.links, hreg₁.sock, hreg₁.holdLock, hreg₁.log⟩, ?_, fun j => ?_,
        hdel₁, fun fd hfd => ?_⟩
      · have htag : (pre ++ ⟨i, false⟩ :: (rest.map (·, false)).map toServer).modify pre.length
            (fun server => { server with tagged := true }) =
            pre ++ ⟨i, true⟩ :: (rest.map (·, false)).map toServer :=
          modify_length_append _
        rw [acquire, if_pos hfails]
        exact (congrArg (List.modify · _ _) (hservers₁.trans hservers)).trans htag
      · simp [hadded₁, hacquired, hfails]
      · exact Or.inl ((hinterest₁ fd hfd).resolve_right (by simp [hfails]))
    | false =>
      have hacquired : acquired add (i :: rest) = i :: acquired add rest := by
        simp [acquired, hfails]
      have hacquire : acquire add (i :: rest) = (i, false) :: acquire add rest := by
        simp [acquire, hfails]
      have hservers₁' : w₁.servers =
          (pre ++ [⟨i, false⟩]) ++ (rest.map (·, false)).map toServer := by
        rw [hservers₁, hservers, List.append_assoc]
        rfl
      obtain ⟨w', tr₂, hrun, hreg₂, hservers₂, hadded₂, hdel₂, hinterest₂⟩ :=
        ih (pre ++ [⟨i, false⟩]) w₁ hservers₁'
      rw [List.length_append, List.length_singleton] at hrun
      refine ⟨w', tr₁ ++ tr₂, hrun, hreg₁.trans hreg₂, ?_, fun j => ?_, fun j => ?_,
        fun fd hfd => ?_⟩
      · rw [hservers₂, hacquire, List.append_assoc]
        rfl
      · rw [added_append, hadded₁, hadded₂, hacquired, List.mem_cons]
        simp [hfails]
      · rw [delTried_append]
        exact not_or.mpr ⟨hdel₁ j, hdel₂ j⟩
      · rw [hacquired]
        rcases hinterest₂ fd hfd with hold | ⟨j, hj, hfd'⟩
        · refine (hinterest₁ fd hold).imp_right fun hnew => ⟨i, List.mem_cons_self, hnew.2⟩
        · rw [hreg₁.sock] at hfd'
          exact Or.inr ⟨j, List.mem_cons_of_mem _ hj, hfd'⟩

/-- The loop that deletes the listeners releases them in the abstract sense: it takes tags off, and
stops at the first that fails. -/
theorem delListeners_refines (henv : env.CtlPattern add del) (rest : List (ℕ × Bool))
    (pre : List Server) (w : Worker) (hservers : w.servers = pre ++ rest.map toServer) :
    ∃ w' tr, delListeners env (List.range' pre.length rest.length) w = w' ∧
      Registers w w' tr ∧ w'.servers = pre ++ (release del rest).map toServer ∧
      (∀ i, ¬Added tr i) ∧ (∀ i, DelTried tr i ↔ i ∈ tried del rest) ∧
      (∀ fd, w'.interest fd ≠ none → w.interest fd ≠ none) ∧
      ∀ i ∈ tried del rest, w'.interest (w.sock i).fd ≠ none → DelFailed tr i := by
  induction rest generalizing pre w with
  | nil =>
    refine ⟨w, [], rfl, .refl w, hservers, fun i => ?_, fun i => ?_, fun fd hfd => hfd,
      fun i hi => ?_⟩
    · simp [Added]
    · simp [DelTried, tried]
    · simp [tried] at hi
  | cons p rest ih =>
    obtain ⟨i, tagged⟩ := p
    have hk : w.servers[pre.length]? = some ⟨i, tagged⟩ := by
      rw [hservers, List.getElem?_append_right (le_refl _), Nat.sub_self]
      rfl
    rw [List.length_cons, List.range'_succ, delListeners]
    simp only [hk]
    cases tagged with
    | true =>
      -- the tag is cleared and the loop goes on
      have hservers₁ : w.servers.modify pre.length (fun server => { server with tagged := false })
          = (pre ++ [⟨i, false⟩]) ++ rest.map toServer := by
        rw [hservers, List.map_cons, modify_length_append, List.append_assoc]
        rfl
      obtain ⟨w', tr, hrun, hreg, hservers', hadded, hdel, hinterest, hfailed⟩ :=
        ih (pre ++ [⟨i, false⟩])
          { w with servers := w.servers.modify pre.length fun server =>
              { server with tagged := false } } hservers₁
      rw [List.length_append, List.length_singleton] at hrun
      refine ⟨w', tr, by simpa using hrun, ⟨hreg.links, hreg.sock, hreg.holdLock, hreg.log⟩, ?_,
        hadded, hdel, hinterest, hfailed⟩
      rw [hservers', release, List.append_assoc]
      rfl
    | false =>
      obtain ⟨w₁, tr₁, hrun₁, hreg₁, hservers₁, hadded₁, hdel₁, hfailed₁, hinterest₁, hgone⟩ :=
        henv.epollDelEvent w i
      simp only [hrun₁, Bool.false_eq_true, if_false]
      cases hfails : del i with
      | true =>
        -- the loop ends
        have htried : tried del ((i, false) :: rest) = [i] := by simp [tried, hfails]
        refine ⟨w₁, tr₁, rfl, hreg₁, ?_, hadded₁, fun j => ?_, hinterest₁, fun j hj _ => ?_⟩
        · rw [hservers₁, hservers, release, if_pos hfails]
        · rw [hdel₁, htried, List.mem_singleton]
        · rw [htried] at hj
          exact (hfailed₁ j).mpr ⟨List.mem_singleton.mp hj, hfails⟩
      | false =>
        have htried : tried del ((i, false) :: rest) = i :: tried del rest := by
          simp [tried, hfails]
        have hservers₁' : w₁.servers = (pre ++ [⟨i, false⟩]) ++ rest.map toServer := by
          rw [hservers₁, hservers, List.append_assoc]
          rfl
        obtain ⟨w', tr₂, hrun₂, hreg₂, hservers₂, hadded₂, hdel₂, hinterest₂, hfailed₂⟩ :=
          ih (pre ++ [⟨i, false⟩]) w₁ hservers₁'
        rw [List.length_append, List.length_singleton] at hrun₂
        refine ⟨w', tr₁ ++ tr₂, hrun₂, hreg₁.trans hreg₂, ?_, fun j => ?_, fun j => ?_,
          fun fd hfd => hinterest₁ fd (hinterest₂ fd hfd), fun j hj hfd => ?_⟩
        · rw [hservers₂, release, if_neg (by simp [hfails]), List.append_assoc]
          rfl
        · rw [added_append]
          exact not_or.mpr ⟨hadded₁ j, hadded₂ j⟩
        · rw [delTried_append, hdel₁, hdel₂, htried, List.mem_cons]
        · rw [delFailed_append]
          rw [htried] at hj
          rcases List.mem_cons.mp hj with rfl | hj
          · -- what was deleted is not added again
            exact absurd (hgone hfails) (hinterest₂ _ hfd)
          · rw [← hreg₁.sock] at hfd
            exact Or.inr (hfailed₂ j hj hfd)

end Loops

/-! ## The whole call -/

/-- A worker that calls `epoll_process_events` with no pointer tagged. -/
structure ReadyToPoll (w : Worker) : Prop where
  postedEvents : w.links .postedEvents = none
  untagged : ∀ server ∈ w.servers, server.tagged = false
  /-- The listeners are different slots. -/
  nodup : w.listeners.Nodup
  /-- They have different descriptors. -/
  injOn : ∀ i ∈ w.listeners, ∀ j ∈ w.listeners, (w.sock i).fd = (w.sock j).fd → i = j

/-- What a call from `w` to `w'` that records `tr` owes to the listeners. -/
structure ListenersRestored (w w' : Worker) (tr : List LogEntry) : Prop where
  /-- `mpp_servers` is what it was. -/
  servers : w'.servers = w.servers
  /-- A listener that was added is deleted, or this is tried at least. -/
  tried : ∀ i ∈ w.listeners, Added tr i → DelTried tr i
  /-- A listener that was added, or was not registered before, is registered only if it could not
  be deleted. -/
  registered : ∀ i ∈ w.listeners, Added tr i ∨ w.interest (w.sock i).fd = none →
    w'.interest (w.sock i).fd ≠ none → DelFailed tr i

/-- The second loop gets far enough: a listener that cannot be deleted is the last one, or comes
with or after one that cannot be added. -/
def DelsReach (add del : ℕ → Bool) (listeners : List ℕ) : Prop :=
  ∀ pre i post, listeners = pre ++ i :: post → del i = true →
    post = [] ∨ ∃ j ∈ pre ++ [i], add j = true

section Call

variable {env : Env} {add del : ℕ → Bool} {w : Worker}

/-- A consistent worker without tags and posted sockets is ready to poll. -/
theorem Consistent.readyToPoll {power₀ : ℤ} {free conns : List ℕ}
    (h : Consistent power₀ w [] free conns []) (hnodup : w.listeners.Nodup)
    (huntagged : ∀ server ∈ w.servers, server.tagged = false) : ReadyToPoll w where
  postedEvents := h.lists.postedEvents
  untagged := huntagged
  nodup := hnodup
  injOn _ hi _ hj hfd := h.descriptors.fd_inj (h.roles.listeners_subset hi)
    (h.roles.listeners_subset hj) hfd

/-- Before a call, `mpp_servers` holds the listeners without tags. -/
theorem ReadyToPoll.servers_eq (h : ReadyToPoll w) :
    w.servers = (w.listeners.map (·, false)).map toServer := by
  rw [Worker.listeners, List.map_map, List.map_map]
  refine (List.map_id _).symm.trans (List.map_congr_left fun server hserver => ?_)
  have htag := h.untagged server hserver
  cases server
  simp only [id, Function.comp, toServer] at htag ⊢
  rw [htag]

/-- What the rest of the call does to the listeners: nothing. -/
theorem epollProcessEvents_eq {w₁ w₂ : Worker} (hwatch : watchListeners env
    (tryAcceptLock env w) = .ok w₁) (hposted : w₁.links .postedEvents = none)
    (hunwatch : unwatchListeners env (w₁.record (.wait (env.wait w₁))) = w₂) :
    ∃ ok w' tr, epollProcessEvents env w = .ok (ok, w') ∧ w'.servers = w₂.servers ∧
      w'.interest = w₂.interest ∧ w'.log = w₂.log ++ tr ∧ tr ⊆ [.spinlockUnlock] := by
  -- the lock is given back or was not held
  have hrelease (w₃ : Worker) : ∃ tr, (releaseAcceptLock w₃).servers = w₃.servers ∧
      (releaseAcceptLock w₃).interest = w₃.interest ∧
      (releaseAcceptLock w₃).log = w₃.log ++ tr ∧ tr ⊆ [.spinlockUnlock] := by
    unfold releaseAcceptLock
    split
    · exact ⟨[.spinlockUnlock], rfl, rfl, rfl, List.Subset.refl _⟩
    · exact ⟨[], rfl, rfl, (List.append_nil _).symm, List.nil_subset _⟩
  simp only [epollProcessEvents, hwatch, bind, Except.bind, hposted, ne_eq, not_true_eq_false,
    if_false, hunwatch]
  cases env.wait w₁ with
  | eintr =>
    obtain ⟨tr, hrest⟩ := hrelease w₂
    exact ⟨true, _, tr, rfl, hrest⟩
  | failed =>
    obtain ⟨tr, hrest⟩ := hrelease w₂
    exact ⟨false, _, tr, rfl, hrest⟩
  | events evs =>
    obtain ⟨-, hinterest, hservers, hlog⟩ := foldl_postEvent_keeps evs w₂
    obtain ⟨tr, hservers', hinterest', hlog', htr⟩ := hrelease (evs.foldl postEvent w₂)
    exact ⟨true, _, tr, rfl, hservers'.trans hservers, hinterest'.trans hinterest,
      hlog'.trans (by rw [hlog]), htr⟩

/-- Entries that are no calls of `epoll_add_event` add nothing. -/
theorem not_added_of_subset {tr : List LogEntry} (h : ∀ e ∈ tr, ∀ i rslt, e ≠ .addEvent i rslt)
    (i : ℕ) : ¬Added tr i := by
  rintro ⟨rslt, -, hmem⟩
  exact h _ hmem i rslt rfl

/-- Entries that are no calls of `epoll_del_event` delete nothing. -/
theorem not_delTried_of_subset {tr : List LogEntry}
    (h : ∀ e ∈ tr, ∀ i rslt, e ≠ .delEvent i rslt) (i : ℕ) : ¬DelTried tr i := by
  rintro ⟨rslt, hmem⟩
  exact h _ hmem i rslt rfl

/-- A slot and a tag are determined by the entry of `mpp_servers` that they make. -/
theorem toServer_injective : Function.Injective toServer := by
  rintro ⟨i, tagged⟩ ⟨j, tagged'⟩ h
  cases h
  rfl

/-- A call that gets the lock: the first loop acquires the listeners, and the second one releases
them. -/
theorem exists_lockedCall (henv : env.CtlPattern add del) (hw : ReadyToPoll w)
    (hpower : 0 < w.power) (hlock : env.trySpinlock w = true) :
    ∃ ok w' tr, epollProcessEvents env w = .ok (ok, w') ∧ w'.log = w.log ++ tr ∧
      w'.servers = (release del (acquire add w.listeners)).map toServer ∧
      (∀ i, Added tr i ↔ i ∈ acquired add w.listeners) ∧
      (∀ i, DelTried tr i ↔ i ∈ tried del (acquire add w.listeners)) ∧
      (∀ fd, w'.interest fd ≠ none → w.interest fd = none →
        ∃ i ∈ acquired add w.listeners, (w.sock i).fd = fd) ∧
      ∀ i ∈ tried del (acquire add w.listeners), w'.interest (w.sock i).fd ≠ none →
        DelFailed tr i := by
  -- the first loop, from the worker that holds the lock
  set w₀ : Worker := { w.record (.trySpinlock true) with holdLock := true } with hw₀
  have htry : tryAcceptLock env w = w₀ := by
    simp only [tryAcceptLock, if_pos hpower, hlock, hw₀]
  have hlength : w₀.servers.length = w.listeners.length := (List.length_map _).symm
  obtain ⟨w₁, tr₁, hrun₁, hreg₁, hservers₁, hadded₁, hdel₁, hinterest₁⟩ :=
    addListeners_refines henv w.listeners [] w₀ hw.servers_eq
  have hwatch : watchListeners env w₀ = .ok w₁ := by
    rw [watchListeners, if_pos rfl, List.range_eq_range', hlength]
    exact hrun₁
  -- the second loop, after `epoll_wait`
  set w₂ := w₁.record (.wait (env.wait w₁)) with hw₂
  have hlength₂ : w₂.servers.length = (acquire add w.listeners).length := by
    rw [show w₂.servers = w₁.servers from rfl, hservers₁]
    simp
  obtain ⟨w₃, tr₂, hrun₂, hreg₂, hservers₂, hadded₂, hdel₂, hinterest₂, hfailed₂⟩ :=
    delListeners_refines henv (acquire add w.listeners) [] w₂ hservers₁
  have hunwatch : unwatchListeners env w₂ = w₃ := by
    have hhold : w₂.holdLock = true := hreg₁.holdLock
    rw [unwatchListeners, if_pos hhold, List.range_eq_range', hlength₂]
    exact hrun₂
  have hposted : w₁.links .postedEvents = none := by
    rw [hreg₁.links]
    exact hw.postedEvents
  rw [← htry] at hwatch
  obtain ⟨ok, w', tr₃, hrun, hservers', hinterest', hlog', htr₃⟩ :=
    epollProcessEvents_eq hwatch hposted hunwatch
  -- the entries about the listeners are those of the loops
  have hother (e : LogEntry) (he : e ∈ tr₃) : e = .spinlockUnlock :=
    List.mem_singleton.mp (htr₃ he)
  refine ⟨ok, w', ([.trySpinlock true] ++ tr₁) ++ (([.wait (env.wait w₁)] ++ tr₂) ++ tr₃), hrun,
    ?_, ?_, fun i => ?_, fun i => ?_, fun fd hfd hnone => ?_, fun i hi hfd => ?_⟩
  · rw [hlog', hreg₂.log, hw₂, record, hreg₁.log, hw₀, record]
    simp
  · rw [hservers', hservers₂, List.nil_append]
  · have htry' : ¬Added [.trySpinlock true] i := by simp [Added]
    have hwait' : ¬Added [.wait (env.wait w₁)] i := by simp [Added]
    have hunlock' : ¬Added tr₃ i :=
      not_added_of_subset (fun e he j rslt heq => by simp [hother e he] at heq) i
    rw [added_append, added_append, added_append, added_append, hadded₁]
    simp only [htry', hwait', hadded₂ i, hunlock', false_or, or_false]
  · have htry' : ¬DelTried [.trySpinlock true] i := by simp [DelTried]
    have hwait' : ¬DelTried [.wait (env.wait w₁)] i := by simp [DelTried]
    have hunlock' : ¬DelTried tr₃ i :=
      not_delTried_of_subset (fun e he j rslt heq => by simp [hother e he] at heq) i
    rw [delTried_append, delTried_append, delTried_append, delTried_append, hdel₂]
    simp only [htry', hwait', hdel₁ i, hunlock', false_or, or_false]
  · -- only the first loop registers descriptors
    rw [hinterest'] at hfd
    exact (hinterest₁ _ (hinterest₂ _ hfd)).resolve_left (not_not.mpr hnone)
  · rw [hinterest', ← show w₂.sock = w.sock from hreg₁.sock] at hfd
    have hfailed := hfailed₂ i hi hfd
    exact delFailed_append.mpr (Or.inr (delFailed_append.mpr
      (Or.inl (delFailed_append.mpr (Or.inr hfailed)))))

/-- A call without the lock returns, and changes no registration and no tag. -/
theorem exists_unlockedCall (hw : ReadyToPoll w)
    (hlock : ¬(0 < w.power ∧ env.trySpinlock w = true)) :
    ∃ ok w' tr, epollProcessEvents env w = .ok (ok, w') ∧ w'.log = w.log ++ tr ∧
      w'.servers = w.servers ∧ w'.interest = w.interest ∧ ∀ i, ¬Added tr i := by
  obtain ⟨w₀, tr₀, htry, hhold, hservers, hinterest, hlinks, hlog, hadded⟩ : ∃ w₀ tr₀,
      tryAcceptLock env w = w₀ ∧ w₀.holdLock = false ∧ w₀.servers = w.servers ∧
        w₀.interest = w.interest ∧ w₀.links = w.links ∧ w₀.log = w.log ++ tr₀ ∧
        tr₀ ⊆ [.trySpinlock false] := by
    by_cases hpower : 0 < w.power
    · have hheld : env.trySpinlock w = false := by simpa [hpower] using hlock
      refine ⟨_, [.trySpinlock false], rfl, ?_⟩
      rw [tryAcceptLock, if_pos hpower, hheld]
      exact ⟨rfl, rfl, rfl, rfl, rfl, List.Subset.refl _⟩
    · refine ⟨_, [], rfl, ?_⟩
      rw [tryAcceptLock, if_neg hpower]
      exact ⟨rfl, rfl, rfl, rfl, (List.append_nil _).symm, List.nil_subset _⟩
  -- both loops are skipped
  have hwatch : watchListeners env (tryAcceptLock env w) = .ok w₀ := by
    rw [htry, watchListeners, hhold]
    rfl
  have hunwatch : unwatchListeners env (w₀.record (.wait (env.wait w₀))) =
      w₀.record (.wait (env.wait w₀)) := by
    rw [unwatchListeners, if_neg]
    simp [record, hhold]
  obtain ⟨ok, w', tr₃, hrun, hservers', hinterest', hlog', htr₃⟩ :=
    epollProcessEvents_eq hwatch (hlinks ▸ hw.postedEvents) hunwatch
  refine ⟨ok, w', tr₀ ++ ([.wait (env.wait w₀)] ++ tr₃), hrun, ?_, hservers'.trans hservers,
    hinterest'.trans hinterest, fun i => ?_⟩
  · rw [hlog', record, hlog]
    simp
  · refine not_added_of_subset (fun e he j rslt heq => ?_) i
    rcases List.mem_append.mp he with he | he
    · simp [List.mem_singleton.mp (hadded he)] at heq
    · rcases List.mem_append.mp he with he | he
      · simp [List.mem_singleton.mp he] at heq
      · simp [List.mem_singleton.mp (htr₃ he)] at heq

/-- A call of `epoll_process_events` restores the listeners if and only if it does not get the
accept lock or its second loop gets far enough. -/
theorem listenersRestored_iff (henv : env.CtlPattern add del) (hw : ReadyToPoll w) :
    ∃ ok w' tr, epollProcessEvents env w = .ok (ok, w') ∧ w'.log = w.log ++ tr ∧
      (ListenersRestored w w' tr ↔
        ¬(0 < w.power ∧ env.trySpinlock w = true) ∨ DelsReach add del w.listeners) := by
  by_cases hlock : 0 < w.power ∧ env.trySpinlock w = true
  · obtain ⟨ok, w', tr, hrun, hlog, hservers, hadded, hdel, hinterest, hfailed⟩ :=
      exists_lockedCall henv hw hlock.1 hlock.2
    refine ⟨ok, w', tr, hrun, hlog, ?_⟩
    -- whether a listener is rolled back depends on the calls that fail before it
    have hreach : DelsReach add del w.listeners ↔ RolledBack add del w.listeners :=
      (rolledBack_iff hw.nodup).symm
    have hmarks : w'.servers = w.servers ↔
        release del (acquire add w.listeners) = w.listeners.map (·, false) := by
      rw [hservers, hw.servers_eq]
      exact (List.map_injective_iff.mpr toServer_injective).eq_iff
    rw [or_iff_right (not_not.mpr hlock), hreach]
    constructor
    · intro h
      exact ⟨hmarks.mp h.servers, fun i hi =>
        (hdel i).mp (h.tried i (acquired_subset hi) ((hadded i).mpr hi))⟩
    · rintro ⟨hmarked, htried⟩
      refine ⟨hmarks.mpr hmarked, fun i _ hi => (hdel i).mpr (htried i ((hadded i).mp hi)),
        fun i hi hnew hfd => hfailed i (htried i ?_) hfd⟩
      rcases hnew with hnew | hnone
      · exact (hadded i).mp hnew
      · -- the call itself registered it
        obtain ⟨j, hj, hfdj⟩ := hinterest _ hfd hnone
        rwa [← hw.injOn j (acquired_subset hj) i hi hfdj]
  · obtain ⟨ok, w', tr, hrun, hlog, hservers, hinterest, hnone⟩ := exists_unlockedCall hw hlock
    refine ⟨ok, w', tr, hrun, hlog, iff_of_true ⟨hservers, fun i _ hi => absurd hi (hnone i),
      fun i _ hnew hfd => ?_⟩ (Or.inl hlock)⟩
    rw [hinterest] at hfd
    exact absurd (hnew.resolve_left (hnone i)) hfd

end Call

/-! ## A sample -/

/-- An `epoll_ctl` that fails as told. -/
def ctlEnv (add del : ℕ → Bool) : Env where
  trySpinlock _ := true
  addEvent _ i := if add i then .failed else .ok
  delEvent w i :=
    if del i then .failed else if w.interest (w.sock i).fd = none then .enoent else .ok
  wait _ := .eintr
  pending _ := 0
  accept _ := .eagain
  callback _ _ _ _ := ⟨false, false, [], []⟩

theorem ctlEnv_ctlPattern (add del : ℕ → Bool) : (ctlEnv add del).CtlPattern add del where
  add w i := by
    cases hadd : add i <;> simp [epollAddEvent, ctlEnv, hadd]
  del w i := by
    cases hdel : del i with
    | false =>
      by_cases hnone : w.interest (w.sock i).fd = none <;>
        simp [epollDelEvent, ctlEnv, hdel, hnone]
    | true => simp [epollDelEvent, ctlEnv, hdel]
  enoent w i h := by
    by_contra hsome
    cases hdel : del i <;> simp [ctlEnv, hdel, hsome] at h

/-- A worker with the listeners 0 and 1. -/
def twoListeners : Worker where
  servers := [⟨0, false⟩, ⟨1, false⟩]
  sock i := { fd := i + 3 }
  power := 1

theorem twoListeners_readyToPoll : ReadyToPoll twoListeners where
  postedEvents := rfl
  untagged := by decide
  nodup := by decide
  injOn := by decide

theorem listenersRestored_iff_sample : ∃ ok w' tr,
    epollProcessEvents (ctlEnv (· == 0) (· == 1)) twoListeners = .ok (ok, w') ∧
      w'.log = twoListeners.log ++ tr ∧ (ListenersRestored twoListeners w' tr ↔
        ¬(0 < twoListeners.power ∧
          (ctlEnv (· == 0) (· == 1)).trySpinlock twoListeners = true) ∨
          DelsReach (· == 0) (· == 1) twoListeners.listeners) :=
  listenersRestored_iff (ctlEnv_ctlPattern _ _) twoListeners_readyToPoll

/-- When listener 1 cannot be added and listener 0 cannot be deleted, the pointer to listener 1
stays tagged, and the next call fails. -/
theorem servers_stay_tagged : ∃ w',
    epollProcessEvents (ctlEnv (· == 1) (· == 0)) twoListeners = .ok (true, w') ∧
      w'.servers = [⟨0, false⟩, ⟨1, true⟩] ∧ w'.servers ≠ twoListeners.servers ∧
      epollProcessEvents (ctlEnv (· == 1) (· == 0)) w' = .error .serverAligned :=
  ⟨_, rfl, rfl, by decide, rfl⟩

end Hixo
