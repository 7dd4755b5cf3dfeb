import Hixo.Echo.EndToEnd
import Hixo.Echo.ReadQueue
import Hixo.Server.Defs
import Hixo.SimpleHttp.Sending

/-!
# The handlers of the two modules

What each handler does to the memory of a connection, and what it sends.

* `World.Sane`, `World.Generous`: what is assumed of `readv` and `writev`;
* `Held`, `AtRest`: the buffers that a slot has now, and the account of all buffers it ever had;
* `World.reply`: what a read handler sends;
* `Held.disconnect`, `AtRest.echoRead`, `AtRest.httpRead`: the handlers;
* `AtRest.serve`: a read callback of either module, and the disconnect callback after it.
-/

namespace Hixo.Server

open Worker Echo RingHeap

/-- What the system calls in the handlers promise. A connection becomes readable when there is
something to read, at the end of the stream, or when it was reset. -/
structure World.Sane (world : World) : Prop where
  /-- The loop around `readv` comes to an end. -/
  ends : ∀ t, ∃ result ∈ world.readv t, result.isLast = true
  /-- The first call of `readv` does not fail but with `ECONNRESET`. -/
  arrives : ∀ t errno rest, world.readv t = .error errno :: rest → errno = .econnreset
  /-- When `writev` does not fail it takes something. -/
  moves : ∀ t k n, 0 < n → (world.writev t).writev k n ≠ .accepted 0

/-- Every call of `writev` takes everything. -/
def World.Generous (world : World) : Prop := ∀ t, (world.writev t).AcceptsAll

/-- The slot has the buffers in `q`, all of them in `m_readbuf_queue`; all other buffers that were
ever created were destroyed and freed, each of them once. -/
structure Held (s : Conn) (q : List ℕ) : Prop where
  stored : Stored s q
  ledger : ∃ gone, Ledger blank s [] q gone

/-- The slot has no buffers. -/
def AtRest (s : Conn) : Prop := Held s []

/-- What the echo module answers to the received chunks, depending on the result that ends its
loop. -/
def answerTo : List (List UInt8) → ReadvResult → List UInt8
  | first :: _, .error errno =>
    if errno = .econnreset then []
    else dataHeadSend (first.take bufSize).length ++ first.take bufSize
  | _, _ => []

/-- What the echo module answers to what it receives. -/
def answer (results : List ReadvResult) : List UInt8 :=
  match results.find? (·.isLast) with
  | some last => answerTo (received results) last
  | none => []

/-- What the read handler `f` sends when it is called at time `t`. -/
def World.reply (world : World) (t : ℕ) (f : Callback) : List UInt8 :=
  if f = 1 then answer (world.readv t) else SimpleHttp.dataHead ++ SimpleHttp.dataBody

variable {world : World} {s s' : Conn} {q : List ℕ} {t i : ℕ} {env : Echo.Env}
  {out : List UInt8} {fuel sentSize : ℕ}

/-! ## The loops around `writev` -/

/-- The loops around `writev` of the two modules do the same to the connection. -/
theorem sendLoop_snd :
    (SimpleHttp.sendLoop env out fuel sentSize s).map Prod.snd =
      Echo.sendLoop env out fuel sentSize s := by
  induction fuel generalizing sentSize s with
  | zero => rfl
  | succ fuel ih =>
    rw [SimpleHttp.sendLoop, Echo.sendLoop]
    split
    · cases env.writev s.writes out.length with
      | error errno => rfl
      | accepted n => exact ih
    · rfl

/-! ## Resting slots -/

/-- A slot holds its buffers as long as the memory stays. -/
theorem Held.congr (h : Held s q) (hlinks : s'.links = s.links) (hbufs : s'.bufs = s.bufs)
    (hcount : s'.count = s.count) (hdestroyed : s'.destroyed = s.destroyed)
    (hfreed : s'.freed = s.freed) : Held s' q := by
  obtain ⟨gone, hledger⟩ := h.ledger
  refine ⟨⟨hlinks ▸ h.stored.ring, h.stored.owned.perm (.refl _) hbufs hcount⟩, gone, ?_⟩
  exact ⟨hcount ▸ hledger.count, hdestroyed.trans hledger.destroyed, hfreed.trans hledger.freed,
    hcount ▸ hledger.conserved⟩

theorem atRest_blank : AtRest blank :=
  ⟨⟨⟨⟨rfl, rfl⟩, List.nodup_singleton _⟩, List.nodup_nil, by simp, fun _ _ => rfl⟩, [],
    ledger_of_perm (.refl _) rfl rfl rfl⟩

/-- `hixo_create_socket` starts with an empty queue on a slot that has no buffers. -/
theorem AtRest.accepted (h : AtRest s) : AtRest (accepted s) := by
  obtain ⟨gone, hledger⟩ := h.ledger
  exact ⟨⟨isRing_init, h.stored.owned.perm (.refl _) rfl rfl⟩, gone, hledger.count,
    hledger.destroyed, hledger.freed, hledger.conserved⟩

/-- On a slot that has no buffers, every buffer that was created was destroyed and freed once. -/
theorem AtRest.accounted (h : AtRest s) :
    s.destroyed = s.freed ∧ s.freed.Perm (List.range s.count) := by
  obtain ⟨gone, hledger⟩ := h.ledger
  have hdestroyed : s.destroyed = gone := by simpa [blank] using hledger.destroyed
  have hfreed : s.freed = gone := by simpa [blank] using hledger.freed
  refine ⟨hdestroyed.trans hfreed.symm, ?_⟩
  rw [hfreed, List.range_eq_range']
  exact hledger.conserved

/-! ## The handlers -/

/-- `echo_handle_disconnect` frees all buffers that the slot has. -/
theorem Held.disconnect (h : Held s q) : ∃ s', echoHandleDisconnect s = .ok s' ∧ AtRest s' := by
  obtain ⟨gone, hledger⟩ := h.ledger
  have hring := h.stored.ring
  have hempty := hring.isEmpty_eq
  cases q with
  | nil =>
    have hempty : s.links.isEmpty .readbufQueue = true := hempty
    refine ⟨s, ?_, h⟩
    rw [Echo.echoHandleDisconnect, if_pos hempty, Programs.ok_bind]
    exact if_pos hempty
  | cons i rest =>
    have hlt : ∀ j ∈ i :: rest, j < s.count := fun j hj =>
      h.stored.owned.lt_count (by simpa using hj)
    obtain ⟨u, hrun, hreleased⟩ := release_spec hring
      (fun j hj => h.stored.owned.whole j (by simpa using hj))
      (length_le_of_lt (nodup_of_isRing hring) hlt)
    have hgone := hreleased.ring.isEmpty_eq
    refine ⟨u, ?_, ⟨hreleased.ring, List.nodup_nil, by simp, fun j hj => ?_⟩,
      (i :: rest).reverse ++ gone, hledger.trans ⟨hreleased.count.ge, hreleased.destroyed,
        hreleased.freed, ?_⟩⟩
    · have hempty : s.links.isEmpty .readbufQueue = false := hempty
      rw [Echo.echoHandleDisconnect]
      simp only [hempty, Bool.false_eq_true, if_false]
      rw [Programs.bind_of_eq_ok hrun]
      exact if_pos hgone
    · -- a buffer with a number that was never given is not one of those in the queue
      rw [hreleased.count] at hj
      rw [hreleased.bufs j fun hmem => Nat.not_lt.mpr hj (hlt j hmem)]
      exact h.stored.owned.bound j hj
    · rw [hreleased.count, Nat.sub_self, List.range'_zero, List.append_nil]
      exact List.reverse_perm _

/-- The answer for results that are split at the last one. -/
theorem answer_eq {results rest : List ReadvResult} {last : ReadvResult}
    (hsplit : results = (received results).map .data ++ last :: rest) (hlast : last.isLast = true) :
    answer results = answerTo (received results) last := by
  obtain ⟨-, -, hne, -⟩ := exists_received results
  have hnot : ((received results).map ReadvResult.data).find? (·.isLast) = none := by
    refine List.find?_eq_none.mpr fun result hresult => ?_
    obtain ⟨bytes, hbytes, rfl⟩ := List.mem_map.mp hresult
    simpa [ReadvResult.isLast] using hne bytes hbytes
  have hfind : results.find? (·.isLast) = some last := by
    rw [hsplit, List.find?_append, hnot, List.find?_cons, hlast]
    rfl
  rw [answer, hfind]

/-- `echo_handle_read` on a slot without buffers returns and asks for closing. What it received is
in the queue, and when `writev` takes everything it has sent its answer. -/
theorem AtRest.echoRead (h : AtRest s) (hworld : world.Sane) (t : ℕ) :
    ∃ s' q, world.handle t .read 1 s = .ok s' ∧ s'.close = true ∧ Held s' q ∧
      (world.Generous → s'.sent = s.sent ++ world.reply t 1) := by
  have hready : Ready { s with readable := true } [] :=
    ⟨⟨h.stored.ring, h.stored.owned.perm (.refl _) rfl rfl⟩, rfl⟩
  obtain ⟨gone, hledger⟩ := h.ledger
  obtain ⟨s₁, last, rest, is, old, u, hstart, hsplit, hlast, hrun, hreceived⟩ :=
    hready.readRounds_spec (hworld.ends t)
  -- whatever happens to the flags behind the loop, the buffers are those that were received
  have hheld {v : Conn} (hsame : SameBuffers u v) : Held (finishRead v) (is ++ old) := by
    have hdone := hreceived.readDone hsame
    obtain ⟨gone', hledger'⟩ := hdone.ledger
    exact ⟨hdone.toStored, gone' ++ gone, hledger.trans (hledger'.congr rfl rfl rfl)⟩
  have hreply : world.reply t 1 = answerTo _ last := answer_eq hsplit hlast
  have hquiet (hdone : leave u last = .done u.hixoSocketClose)
      (hnone : world.reply t 1 = []) :
      ∃ s' q, world.handle t .read 1 s = .ok s' ∧ s'.close = true ∧ Held s' q ∧
        (world.Generous → s'.sent = s.sent ++ world.reply t 1) := by
    refine ⟨finishRead u.hixoSocketClose, is ++ old, ?_, rfl,
      hheld ⟨rfl, rfl, rfl, rfl, rfl⟩, fun _ => ?_⟩
    · exact echoHandleRead_eq hstart (hrun.trans (congrArg _ hdone))
    · rw [hnone, List.append_nil]
      exact hreceived.sent
  cases last with
  | data bytes =>
    refine hquiet rfl (hreply.trans ?_)
    cases received (world.readv t) <;> rfl
  | error errno =>
    by_cases hreset : errno = .econnreset
    · subst hreset
      refine hquiet rfl (hreply.trans ?_)
      cases received (world.readv t) <;> rfl
    · -- something was received, and the first buffer has the first piece of it
      cases hchunks : received (world.readv t) with
      | nil =>
        rw [hchunks] at hsplit
        exact absurd (hworld.arrives t errno rest hsplit) hreset
      | cons first chunks =>
        rw [hchunks] at hreply hreceived
        rw [leave_answer hreset] at hrun
        cases is with
        | nil => cases hreceived.holds
        | cons i is =>
          have hfirst : u.Holds i (first.take bufSize) :=
            (List.forall₂_cons.mp hreceived.holds).1
          have hring : u.links.IsRing .readbufQueue (nodes (i :: is)) := by
            simpa using hreceived.head.rings.read
          let v : Conn := { u with readable := false }
          have hsame : SameBuffers u v := ⟨rfl, rfl, rfl, rfl, rfl⟩
          have hholds : v.Holds i (first.take bufSize) := hfirst.congr rfl
          obtain ⟨v', hsend, hclose⟩ := testSynSend_ok (hworld.moves t) (s := v) hring hholds
          refine ⟨finishRead v', _, ?_, hclose, hheld (hsame.trans (testSynSend_same hsend)),
            fun hgenerous => ?_⟩
          · exact (echoHandleRead_eq hstart hrun).trans (congrArg (Except.map finishRead) hsend)
          · have hall := testSynSend_eq (hgenerous t) (s := v) hring hholds
            rw [hsend] at hall
            have hsent : v'.sent = u.sent ++
                (dataHeadSend (first.take bufSize).length ++ first.take bufSize) :=
              congrArg Conn.sent (Except.ok.inj hall)
            have hsent₀ : u.sent = s.sent := hreceived.sent
            rw [hreply, answerTo, if_neg hreset]
            exact hsent.trans (congrArg (· ++ _) hsent₀)

/-- `simple_http_handle_read` returns and has no buffers. When `writev` takes everything it has sent
the page and asks for closing. -/
theorem AtRest.httpRead (h : AtRest s) (hworld : world.Sane) (t : ℕ) :
    ∃ s', world.handle t .read 5 s = .ok s' ∧ AtRest s' ∧
      (world.Generous → s'.close = true ∧ s'.sent = s.sent ++ world.reply t 5) := by
  have hpage : SimpleHttp.dataHead ++ SimpleHttp.dataBody ≠ [] := by
    simp [SimpleHttp.dataHead, SimpleHttp.cString]
  generalize hout : SimpleHttp.dataHead ++ SimpleHttp.dataBody = out at hpage
  obtain ⟨s₁, hloop⟩ := sendLoop_ok (s := { s with readable := true }) (hworld.moves t)
    (show out.length - 0 < out.length + 1 by omega)
  have hsame := sendLoop_same hloop
  have hrest : AtRest s₁ := (h.congr rfl rfl rfl rfl rfl : AtRest { s with readable := true }).congr
    hsame.links hsame.bufs hsame.count hsame.destroyed hsame.freed
  rw [← sendLoop_snd] at hloop
  cases hrun : SimpleHttp.sendLoop (world.writev t) out (out.length + 1) 0
      { s with readable := true } with
  | error fault => rw [hrun] at hloop; cases hloop
  | ok r =>
    obtain ⟨all, s₂⟩ := r
    obtain rfl : s₂ = s₁ := by
      rw [hrun] at hloop
      exact Except.ok.inj hloop
    have hhandle : world.handle t .read 5 s =
        .ok (if all then s₂.hixoSocketShutdown.hixoSocketClose else s₂) := by
      rw [World.handle, SimpleHttp.simpleHttpHandleRead, SimpleHttp.testSynSend]
      simp only [hout, hrun, Programs.ok_bind]
      cases all <;> rfl
    refine ⟨_, hhandle, ?_, fun hgenerous => ?_⟩
    · cases all
      · exact hrest
      · exact hrest.congr rfl rfl rfl rfl rfl
    · have hfree : (world.writev t).ErrorFree out.length := fun k =>
        ⟨out.length, hgenerous t k _, fun hpos => hpos, le_rfl⟩
      have hall : SimpleHttp.sendLoop (world.writev t) out (out.length + 1) 0
          { s with readable := true } = _ :=
        SimpleHttp.sendLoop_eq hfree
      rw [hrun, Echo.sendLoop_eq (hgenerous t) hpage] at hall
      obtain ⟨rfl, rfl⟩ := Prod.mk.inj (Except.ok.inj hall)
      refine ⟨rfl, ?_⟩
      rw [World.reply, if_neg (show (5 : Callback) ≠ 1 by decide), hout]
      rfl

/-- A read callback of one of the modules. A slot that has buffers afterwards is asked to be closed,
and the disconnect callback frees them. -/
theorem AtRest.serve (h : AtRest s) (hworld : world.Sane) {ctx : AppCtx} {f g : Callback}
    (hctx : ctx ∈ apps) (hread : ctx.handleRead = some f)
    (hdisconnect : ctx.handleDisconnect = some g) (t : ℕ) :
    ∃ s', world.handle t .read f s = .ok s' ∧ (s'.close = false → AtRest s') ∧
      (∀ t', ∃ u, world.handle t' .disconnect g s' = .ok u ∧ AtRest u) ∧
      (world.Generous → s'.close = true ∧ s'.sent = s.sent ++ world.reply t f) := by
  rcases List.mem_cons.mp hctx with rfl | hctx
  · obtain rfl : 1 = f := Option.some.inj hread
    obtain rfl : 3 = g := Option.some.inj hdisconnect
    obtain ⟨s', q, hrun, hclose, hheld, hsent⟩ := h.echoRead hworld t
    exact ⟨s', hrun, fun hopen => absurd (hclose.symm.trans hopen) (by decide),
      fun _ => hheld.disconnect, fun hgenerous => ⟨hclose, hsent hgenerous⟩⟩
  · obtain rfl := List.mem_singleton.mp hctx
    obtain rfl : 5 = f := Option.some.inj hread
    obtain rfl : 7 = g := Option.some.inj hdisconnect
    obtain ⟨s', hrun, hrest, hsent⟩ := h.httpRead hworld t
    exact ⟨s', hrun, fun _ => hrest, fun _ => ⟨s', rfl, hrest⟩, hsent⟩

/-- A disconnect callback on a slot without buffers returns and leaves it without buffers. -/
theorem AtRest.disconnect (h : AtRest s) (t : ℕ) (g : Callback) :
    ∃ u, world.handle t .disconnect g s = .ok u ∧ AtRest u := by
  unfold World.handle
  split
  · next heq => cases heq
  · exact Held.disconnect h
  · next heq => cases heq
  · exact ⟨s, rfl, h⟩

end Hixo.Server
