import Hixo.Echo.Rounds

/-!
# What the read handler leaves in its queue

A call of `echo_handle_read` on a connection with any buffers in `m_readbuf_queue`, for any results
of `readv` up to the one that ends its loop. The answer of `test_syn_send` does not change buffers
or queues; so each result is stated for the handler without the answer, and for the handler as it
is whenever the answer returns.

* `SameBuffers`: what the answer leaves alone, `testSynSend_same`;
* `ReadDone`: the buffers after the call, `Stored.readDone`;
* `readbufQueue_holds`: the queue holds the received bytes;
* `buffers_accounted`: every buffer is in the queue or was freed, and is freed by a disconnect;
* `answersFromBuffer_iff`: when the queue has a buffer to answer from;
* `Stored.echoHandleRead_returns`: the call from its beginning to its end, and when it returns.
-/

namespace Hixo.Echo

open RingHeap Conn

variable {s s' t u : Conn} {queue is old : List ℕ} {pieces : List (List UInt8)}
  {results : List ReadvResult}

/-! ## The answer -/

/-- The buffers and the queues are the same. -/
structure SameBuffers (s t : Conn) : Prop where
  links : t.links = s.links
  bufs : t.bufs = s.bufs
  count : t.count = s.count
  destroyed : t.destroyed = s.destroyed
  freed : t.freed = s.freed

/-- What does nothing leaves the buffers alone. -/
theorem SameBuffers.refl (s : Conn) : SameBuffers s s := ⟨rfl, rfl, rfl, rfl, rfl⟩

/-- What leaves the buffers alone may be done twice. -/
theorem SameBuffers.trans (h : SameBuffers s t) (h' : SameBuffers t u) : SameBuffers s u :=
  ⟨h'.links.trans h.links, h'.bufs.trans h.bufs, h'.count.trans h.count,
    h'.destroyed.trans h.destroyed, h'.freed.trans h.freed⟩

/-- The sending loop leaves the buffers alone. -/
theorem sendLoop_same {env : Env} {out : List UInt8} {fuel sentSize : ℕ}
    (hrun : sendLoop env out fuel sentSize s = .ok s') : SameBuffers s s' := by
  induction fuel generalizing sentSize s with
  | zero => cases hrun
  | succ fuel ih =>
    rw [sendLoop] at hrun
    split at hrun
    · split at hrun
      · obtain rfl := Except.ok.inj hrun
        exact ⟨rfl, rfl, rfl, rfl, rfl⟩
      · have hrest := ih hrun
        exact ⟨hrest.links, hrest.bufs, hrest.count, hrest.destroyed, hrest.freed⟩
    · obtain rfl := Except.ok.inj hrun
      exact SameBuffers.refl s

/-- `test_syn_send` leaves the buffers alone. -/
theorem testSynSend_same {env : Env} (hrun : testSynSend env s = .ok s') : SameBuffers s s' := by
  obtain ⟨i, -, hrun⟩ := Programs.exists_of_bind_eq_ok hrun
  obtain ⟨b, -, hrun⟩ := Programs.exists_of_bind_eq_ok hrun
  obtain ⟨body, -, hrun⟩ := Programs.exists_of_bind_eq_ok hrun
  obtain ⟨s₁, hsend, hrun⟩ := Programs.exists_of_bind_eq_ok hrun
  obtain rfl := Except.ok.inj hrun
  have hsame := sendLoop_same hsend
  exact ⟨hsame.links, hsame.bufs, hsame.count, hsame.destroyed, hsame.freed⟩

/-! ## The call -/

/-- The bytes that the calls of `readv` deliver, call by call. -/
def delivered (results : List ReadvResult) (s : Conn) : List (List UInt8) :=
  if s.readable then received results else []

/-- The handler has left its loop, and the buffers that were left over are back in the queue: those
in `is` hold the pieces, and those in `old` nothing. -/
structure ReadDone (s t : Conn) (queue is old : List ℕ) (pieces : List (List UInt8)) : Prop
    extends Stored t (is ++ old) where
  holds : HoldAll t is pieces
  blank : ∀ i ∈ old, t.Holds i []
  ledger : ∃ gone, Ledger s t queue (is ++ old) gone

/-- Behind the loop the rest of `old_queue` is put back. -/
theorem Received.readDone (h : Received s t [] queue is old pieces) (hsame : SameBuffers t u) :
    ReadDone s (finishRead u) queue is old pieces := by
  have hhead := h.head
  rw [List.nil_append] at hhead
  -- the two queues are disjoint, so they can be merged
  have hdisj : ∀ i ∈ is, i ∉ old := by
    have hnodup := hhead.owned.nodup
    rw [List.append_nil] at hnodup
    exact fun i hi hi' => (List.nodup_append.mp hnodup).2.2 i hi i hi' rfl
  obtain ⟨gone, hledger⟩ := h.ledger
  refine ⟨⟨?_, ?_⟩, h.holds.congr fun i _ => congrFun hsame.bufs i, fun i hi => ?_, gone, ?_⟩
  · rw [finishRead, hsame.links]
    exact (hhead.rings.mergeOld hdisj).read
  · exact hhead.owned.perm (by simp) hsame.bufs hsame.count
  · exact (hhead.blank i hi).congr (congrFun hsame.bufs i)
  · refine ⟨hledger.count.trans_eq hsame.count.symm, ?_, ?_, ?_⟩
    · exact hsame.destroyed.trans hledger.destroyed
    · exact hsame.freed.trans hledger.freed
    · have hcount : (finishRead u).count = t.count := hsame.count
      rw [hcount]
      simpa using hledger.conserved

/-- Whatever the buffers held before, the loop is left with the pieces of what was delivered, and
they stay when the answer leaves the buffers alone. -/
theorem Stored.readDone (h : Stored s queue)
    (hends : s.readable = true → ∃ result ∈ results, result.isLast = true) :
    ∃ s₁ exit is old, Echo.startRead s = .ok s₁ ∧ readRounds results s₁ = .ok exit ∧
      ∀ u, SameBuffers exit.conn u → ReadDone s (finishRead u) queue is old
        ((delivered results s).flatMap (cut bufSize nbufs)) := by
  by_cases hreadable : s.readable = true
  · have hready : Ready s queue := ⟨h, hreadable⟩
    obtain ⟨s₁, last, rest, is, old, t, hstart, -, -, hrun, hreceived⟩ :=
      hready.readRounds_spec (hends hreadable)
    refine ⟨s₁, _, is, old, hstart, hrun, fun u hsame => ?_⟩
    rw [delivered, if_pos hreadable]
    -- what the handler does after its loop leaves the buffers alone
    have hleave : SameBuffers t (leave t last).conn := by
      unfold leave
      split <;> exact ⟨rfl, rfl, rfl, rfl, rfl⟩
    exact hreceived.readDone (hleave.trans hsame)
  · -- the loop is not entered
    obtain ⟨s₁, hstart, hhead, hledger, hquiet⟩ := h.startRead
    have hnot : s₁.readable = false := by simpa [hquiet.readable] using hreadable
    refine ⟨s₁, .done s₁, [], queue, hstart, readRounds_of_not_readable results hnot,
      fun u hsame => ?_⟩
    rw [delivered, if_neg hreadable]
    have hreceived : Received s s₁ [] queue [] queue [] :=
      ⟨hquiet, hhead, .nil, by simp, [], hledger⟩
    exact hreceived.readDone hsame

/-- The answer leaves the buffers alone. -/
theorem answered_same {env : Env} {exit : LoopExit} (hanswered : exit.answered env = .ok u) :
    SameBuffers exit.conn u := by
  cases exit with
  | done t =>
    obtain rfl := Except.ok.inj hanswered
    exact SameBuffers.refl _
  | answer t => exact testSynSend_same hanswered

/-- The handler returns when the answer does. -/
theorem echoHandleRead_eq_ok_iff {env : Env} {s₁ : Conn} {exit : LoopExit}
    (hstart : startRead s = .ok s₁) (hrun : readRounds results s₁ = .ok exit) :
    echoHandleRead env results s = .ok s' ↔ ∃ u, exit.answered env = .ok u ∧ finishRead u = s' := by
  rw [echoHandleRead_eq hstart hrun]
  cases exit.answered env with
  | error fault =>
    constructor
    · exact fun hcall => (nomatch hcall)
    · rintro ⟨u, hanswered, -⟩
      cases hanswered
  | ok u =>
    constructor
    · exact fun hcall => ⟨u, rfl, Except.ok.inj hcall⟩
    · rintro ⟨u', hu, rfl⟩
      obtain rfl := Except.ok.inj hu
      rfl

/-- `P` holds after the call: when the loop is left and the answer is left aside, and when the
handler returns. -/
def AfterRead (results : List ReadvResult) (s : Conn) (P : Conn → Prop) : Prop :=
  (∃ s₁ exit, startRead s = .ok s₁ ∧ readRounds results s₁ = .ok exit ∧
      P (finishRead exit.conn)) ∧
    ∀ env s', echoHandleRead env results s = .ok s' → P s'

/-- What follows from the buffers as they are after the loop holds after the call. -/
theorem Stored.afterRead {P : Conn → Prop} (h : Stored s queue)
    (hends : s.readable = true → ∃ result ∈ results, result.isLast = true)
    (hP : ∀ t is old, ReadDone s t queue is old
      ((delivered results s).flatMap (cut bufSize nbufs)) → P t) : AfterRead results s P := by
  obtain ⟨s₁, exit, is, old, hstart, hrun, hdone⟩ := h.readDone hends
  refine ⟨⟨s₁, exit, hstart, hrun, hP _ _ _ (hdone _ (SameBuffers.refl _))⟩, ?_⟩
  rintro env s' hcall
  obtain ⟨u, hanswered, rfl⟩ := (echoHandleRead_eq_ok_iff hstart hrun).mp hcall
  exact hP _ _ _ (hdone u (answered_same hanswered))

/-! ## The bytes in the queue -/

/-- The first `m_size` bytes of the buffers of `m_readbuf_queue`, in queue order, are `bytes`. -/
def QueueHolds (s : Conn) (bytes : List UInt8) : Prop :=
  ∃ queue pieces, s.links.IsRing .readbufQueue (nodes queue) ∧ HoldAll s queue pieces ∧
    pieces.flatten = bytes

/-- Buffers that hold nothing hold an empty piece each. -/
theorem holdAll_replicate (hblank : ∀ i ∈ old, s.Holds i []) :
    HoldAll s old (List.replicate old.length []) := by
  induction old with
  | nil => exact .nil
  | cons i old ih =>
    exact .cons (hblank i List.mem_cons_self) (ih fun j hj => hblank j (List.mem_cons_of_mem _ hj))

/-- The pieces of several receives give all their bytes again. -/
theorem flatten_flatMap_cut {chunks : List (List UInt8)}
    (hfits : ∀ bytes ∈ chunks, bytes.length ≤ nbufs * bufSize) :
    (chunks.flatMap (cut bufSize nbufs)).flatten = chunks.flatten := by
  rw [← List.flatMap_id, List.flatMap_assoc, ← List.flatMap_id]
  refine List.flatMap_congr fun bytes hbytes => ?_
  rw [List.flatMap_id]
  exact flatten_cut (hfits bytes hbytes)

/-- What was received comes from results of `readv`. -/
theorem data_mem_of_mem_received {bytes : List UInt8} (hmem : bytes ∈ received results) :
    .data bytes ∈ results := by
  obtain ⟨rest, heq, -, -⟩ := exists_received results
  rw [heq]
  exact List.mem_append_left _ (List.mem_map_of_mem hmem)

/-- After the loop `m_readbuf_queue` holds the bytes that all calls of `readv` delivered, and
nothing else. -/
theorem readbufQueue_holds (h : Stored s queue)
    (hends : s.readable = true → ∃ result ∈ results, result.isLast = true)
    (hfits : ∀ bytes, .data bytes ∈ results → bytes.length ≤ nbufs * bufSize) :
    AfterRead results s fun t => QueueHolds t (delivered results s).flatten := by
  refine h.afterRead hends fun t is old hdone => ?_
  have hfits' : ∀ bytes ∈ delivered results s, bytes.length ≤ nbufs * bufSize := by
    intro bytes hmem
    rw [delivered] at hmem
    split_ifs at hmem
    · exact hfits bytes (data_mem_of_mem_received hmem)
    · simp at hmem
  refine ⟨is ++ old, _, hdone.ring, List.rel_append hdone.holds (holdAll_replicate hdone.blank), ?_⟩
  rw [List.flatten_append, flatten_flatMap_cut hfits']
  simp

/-! ## The owners of the buffers -/

/-- From `s` to `t` each buffer of `queue` and each new one got into `queue'` or was destroyed and
freed, and that once. -/
structure Settled (s t : Conn) (queue queue' gone : List ℕ) : Prop where
  ring : t.links.IsRing .readbufQueue (nodes queue')
  destroyed : t.destroyed = gone ++ s.destroyed
  freed : t.freed = gone ++ s.freed
  once : ∀ i, i ∈ queue ∨ (s.count ≤ i ∧ i < t.count) → queue'.count i + gone.count i = 1

/-- From `t` to `u` each buffer of `queue` was destroyed and freed once, and the queue is empty. -/
structure Emptied (t u : Conn) (queue : List ℕ) : Prop where
  ring : u.links.IsRing .readbufQueue []
  destroyed : ∃ gone, gone.Perm queue ∧ u.destroyed = gone ++ t.destroyed ∧
    u.freed = gone ++ t.freed

/-- `echo_handle_disconnect` frees all buffers of the queue. -/
theorem Stored.echoHandleDisconnect (h : Stored t queue) :
    ∃ u, echoHandleDisconnect t = .ok u ∧ Emptied t u queue := by
  have hempty := h.ring.isEmpty_eq
  cases hqueue : queue with
  | nil =>
    subst hqueue
    have hempty : t.links.isEmpty .readbufQueue = true := hempty
    refine ⟨t, ?_, h.ring, [], .refl _, rfl, rfl⟩
    rw [Echo.echoHandleDisconnect, if_pos hempty, Programs.bind_of_eq_ok rfl]
    exact if_pos hempty
  | cons i rest =>
    rw [← hqueue]
    have hlt : ∀ i ∈ queue, i < t.count := fun i hi => h.owned.lt_count (by simpa using hi)
    -- the loop empties the queue, so the assertion behind it holds
    obtain ⟨u, hrun, hreleased⟩ := release_spec h.ring
      (fun i hi => h.owned.whole i (by simpa using hi))
      (length_le_of_lt (nodup_of_isRing h.ring) hlt)
    have hgone := hreleased.ring.isEmpty_eq
    refine ⟨u, ?_, hreleased.ring, queue.reverse, List.reverse_perm _, hreleased.destroyed,
      hreleased.freed⟩
    have hne : (nodes queue).isEmpty = false := by rw [hqueue]; rfl
    rw [Echo.echoHandleDisconnect]
    simp only [hempty, hne, Bool.false_eq_true, if_false]
    rw [Programs.bind_of_eq_ok hrun, hgone]
    rfl

/-- After the call every buffer is in the queue or was freed, and a disconnect frees the others. -/
theorem buffers_accounted (h : Stored s queue)
    (hends : s.readable = true → ∃ result ∈ results, result.isLast = true) :
    AfterRead results s fun t => ∃ queue' gone, Settled s t queue queue' gone ∧
      ∃ u, echoHandleDisconnect t = .ok u ∧ Emptied t u queue' := by
  refine h.afterRead hends fun t is old hdone => ?_
  obtain ⟨gone, hledger⟩ := hdone.ledger
  refine ⟨is ++ old, gone, ⟨hdone.ring, hledger.destroyed, hledger.freed, fun i hi => ?_⟩,
    hdone.echoHandleDisconnect⟩
  exact hledger.count_eq_one (nodup_of_isRing h.ring)
    (fun j hj => h.owned.lt_count (by simpa using hj)) hi

/-! ## The head of the queue -/

/-- Whenever the handler calls `test_syn_send`, the queue is not empty, and its first node is that
of a buffer. -/
def AnswersFromBuffer (results : List ReadvResult) (s : Conn) : Prop :=
  ∀ s₁ t, startRead s = .ok s₁ → readRounds results s₁ = .ok (.answer t) →
    t.links.isEmpty .readbufQueue = false ∧
      ∃ i b, containerOf (t.links.next .readbufQueue) = .ok i ∧ t.buffer i = .ok b

/-- The first call of `readv` fails, and not with `ECONNRESET`. -/
def FailsFirst (results : List ReadvResult) (s : Conn) : Prop :=
  s.readable = true ∧ ∃ errno rest, results = .error errno :: rest ∧ errno ≠ .econnreset

/-- When the first call of `readv` fails, the answer is asked for while the queue is empty. -/
theorem Stored.answer_of_failsFirst (h : Stored s queue) (hfails : FailsFirst results s) :
    ∃ s₁ t, Echo.startRead s = .ok s₁ ∧ readRounds results s₁ = .ok (.answer t) ∧
      t.links.IsRing .readbufQueue [] := by
  obtain ⟨hreadable, errno, rest, rfl, herrno⟩ := hfails
  obtain ⟨s₁, hstart, hhead, -, hquiet⟩ := h.startRead
  obtain ⟨t, hrun, hreceived⟩ := hhead.readRounds_last rest
    (hquiet.readable.trans hreadable) (rfl : (ReadvResult.error errno).isLast = true)
  rw [leave_answer herrno] at hrun
  exact ⟨s₁, _, hstart, hrun, hreceived.head.rings.read⟩

/-- When the first call of `readv` fails, the answer is not taken from a buffer of the queue. -/
theorem Stored.not_answersFromBuffer (h : Stored s queue) (hfails : FailsFirst results s) :
    ¬AnswersFromBuffer results s := by
  intro hanswers
  obtain ⟨s₁, t, hstart, hrun, hring⟩ := h.answer_of_failsFirst hfails
  obtain ⟨hsome, -⟩ := hanswers s₁ t hstart hrun
  exact absurd (hsome.symm.trans hring.isEmpty_eq) (by simp)

/-- Only a loop that is entered and left gets to the answer. -/
theorem Stored.of_answer {s₁ : Conn} (h : Stored s queue) (hstart : Echo.startRead s = .ok s₁)
    (hrun : readRounds results s₁ = .ok (.answer t)) :
    s.readable = true ∧ ∃ result ∈ results, result.isLast = true := by
  obtain ⟨s₂, hstart₂, hhead, -, hquiet⟩ := h.startRead
  obtain rfl : s₁ = s₂ := Except.ok.inj (hstart.symm.trans hstart₂)
  have hreadable : s₁.readable = true := by
    by_contra hnot
    rw [readRounds_of_not_readable results (Bool.eq_false_of_not_eq_true hnot)] at hrun
    cases hrun
  refine ⟨hquiet.readable.symm.trans hreadable, ?_⟩
  by_contra hends
  have hno : ∀ result ∈ results, result.isLast = false := by simpa using hends
  rw [hhead.readRounds_waiting hreadable hno] at hrun
  cases hrun

/-- The answer is asked for after an error other than `ECONNRESET`, with the buffers as they are. -/
theorem of_leave_answer {last : ReadvResult} (h : leave s last = .answer t) :
    t.links = s.links ∧ t.bufs = s.bufs ∧ ∃ errno, last = .error errno ∧ errno ≠ .econnreset := by
  cases last with
  | data bytes => cases h
  | error errno =>
    by_cases herrno : errno = .econnreset
    · subst herrno
      cases h
    · rw [leave_answer herrno] at h
      obtain rfl := LoopExit.answer.inj h
      exact ⟨rfl, rfl, errno, rfl, herrno⟩

/-- When the answer is asked for and the first call of `readv` did not fail, the first buffer of the
queue holds a piece of what was received. -/
theorem Stored.holds_of_answer {s₁ : Conn} (h : Stored s queue) (hfirst : ¬FailsFirst results s)
    (hstart : Echo.startRead s = .ok s₁) (hrun : readRounds results s₁ = .ok (.answer t)) :
    ∃ i is piece, t.links.IsRing .readbufQueue (nodes (i :: is)) ∧ t.Holds i piece := by
  obtain ⟨hreadable, hends⟩ := h.of_answer hstart hrun
  have hready : Ready s queue := ⟨h, hreadable⟩
  obtain ⟨s₂, last, rest, is, old, t₂, hstart₂, heq, hlast, hrun₂, hreceived⟩ :=
    hready.readRounds_spec hends
  obtain rfl : s₁ = s₂ := Except.ok.inj (hstart.symm.trans hstart₂)
  have hleave : leave t₂ last = .answer t := Except.ok.inj (hrun₂.symm.trans hrun)
  obtain ⟨hlinks, hbufs, errno, rfl, herrno⟩ := of_leave_answer hleave
  -- the buffers in the queue are those with the pieces of what was received
  have hpieces := hreceived.holds.length_eq
  cases hchunks : received results with
  | nil =>
    -- nothing was received before the last result
    rw [hchunks, List.map_nil, List.nil_append] at heq
    exact absurd ⟨hreadable, errno, rest, heq, herrno⟩ hfirst
  | cons bytes chunks =>
    rw [hchunks, List.flatMap_cons, List.length_append, length_cut, nbufs] at hpieces
    obtain ⟨i, is, rfl⟩ := List.exists_cons_of_length_pos (by omega : 0 < is.length)
    obtain ⟨piece, _, hhold, -, -⟩ := List.forall₂_cons_left_iff.mp hreceived.holds
    refine ⟨i, is, piece, ?_, hhold.congr (congrFun hbufs i)⟩
    rw [hlinks]
    exact hreceived.head.rings.read

/-- `test_syn_send` finds a buffer if and only if the first call of `readv` does not fail. -/
theorem answersFromBuffer_iff (h : Stored s queue) :
    AnswersFromBuffer results s ↔ ¬FailsFirst results s := by
  constructor
  · exact fun hanswers hfails => h.not_answersFromBuffer hfails hanswers
  rintro hfirst s₁ t hstart hrun
  obtain ⟨i, is, piece, hring, block, hhas, -⟩ := h.holds_of_answer hfirst hstart hrun
  obtain ⟨b, hbuf, -, -⟩ := hhas.buffer_eq
  refine ⟨hring.isEmpty_eq, i, b, ?_, hbuf⟩
  rw [hring.next_eq]
  rfl

/-! ## The return of the handler -/

/-- On a connection with its buffers `echo_handle_read` comes to the end of its loop, answers if the
loop asks for it, and puts the rest of `old_queue` back. When every call of `writev` fails or takes
something, it returns if and only if the first call of `readv` does not fail. -/
theorem Stored.echoHandleRead_returns {env : Env} (h : Stored s queue)
    (hends : s.readable = true → ∃ result ∈ results, result.isLast = true)
    (hmoves : ∀ k n, 0 < n → env.writev k n ≠ .accepted 0) :
    ∃ s₁ exit, Echo.startRead s = .ok s₁ ∧ readRounds results s₁ = .ok exit ∧
      echoHandleRead env results s = (exit.answered env).map finishRead ∧
      ((∃ s', echoHandleRead env results s = .ok s') ↔ ¬FailsFirst results s) := by
  obtain ⟨s₁, exit, -, -, hstart, hrun, -⟩ := h.readDone hends
  refine ⟨s₁, exit, hstart, hrun, echoHandleRead_eq hstart hrun, ?_⟩
  simp only [echoHandleRead_eq_ok_iff hstart hrun]
  constructor
  · -- the answer finds no buffer
    rintro ⟨_, u, hanswered, -⟩ hfails
    obtain ⟨s₂, t, hstart₂, hrun₂, hring⟩ := h.answer_of_failsFirst hfails
    obtain rfl : s₁ = s₂ := Except.ok.inj (hstart.symm.trans hstart₂)
    obtain rfl : exit = .answer t := Except.ok.inj (hrun.symm.trans hrun₂)
    cases hanswered.symm.trans (testSynSend_nil hring)
  · intro hfirst
    cases exit with
    | done t => exact ⟨_, t, rfl, rfl⟩
    | answer t =>
      obtain ⟨i, is, piece, hring, hhold⟩ := h.holds_of_answer hfirst hstart hrun
      obtain ⟨u, hsend, -⟩ := testSynSend_ok hmoves hring hhold
      exact ⟨_, u, hsend, rfl⟩

/-! ## A sample -/

/-- A connection with a buffer from an earlier call, which records seven bytes. -/
def heldConn : Conn where
  links := RingHeap.addTail { next := id, prev := id } .readbufQueue (.bufNode 0)
  bufs := Function.update (fun _ => none) 0
    (some { createBuffer bufSize with size := 7 })
  count := 1
  readable := true
  close := false
  shutdown := false
  sent := []
  writes := 0
  destroyed := []
  freed := []

theorem stored_heldConn : Stored heldConn [0] := by
  have hempty : IsRing { next := id, prev := id } Cell.readbufQueue [] :=
    ⟨⟨rfl, rfl⟩, List.nodup_singleton _⟩
  refine ⟨hempty.addTail (by simp), ⟨List.nodup_singleton _, fun i hi => ?_, fun i hi => ?_⟩⟩
  · obtain rfl := List.mem_singleton.mp hi
    exact ⟨7, List.replicate bufSize 0, List.length_replicate, 0, rfl⟩
  · have hne : i ≠ 0 := Nat.ne_of_gt hi
    simp [heldConn, hne]

/-- Two bytes and then no more. -/
def heldResults : List ReadvResult := [.data [104, 105], .error .eagain]

theorem readbufQueue_holds_held :
    AfterRead heldResults heldConn fun t =>
      QueueHolds t (delivered heldResults heldConn).flatten := by
  refine readbufQueue_holds stored_heldConn (fun _ => ⟨.error .eagain, by simp [heldResults], rfl⟩)
    fun bytes hbytes => ?_
  simp only [heldResults, List.mem_cons, ReadvResult.data.injEq, reduceCtorEq, List.not_mem_nil,
    or_false] at hbytes
  subst hbytes
  decide

theorem buffers_accounted_held :
    AfterRead heldResults heldConn fun t => ∃ queue' gone, Settled heldConn t [0] queue' gone ∧
      ∃ u, echoHandleDisconnect t = .ok u ∧ Emptied t u queue' :=
  buffers_accounted stored_heldConn fun _ => ⟨.error .eagain, by simp [heldResults], rfl⟩

theorem answersFromBuffer_iff_held :
    AnswersFromBuffer [.error .eagain] heldConn ↔ ¬FailsFirst [.error .eagain] heldConn :=
  answersFromBuffer_iff stored_heldConn

/-- Nothing is there to receive, and the buffer from before is not in the queue yet. -/
theorem not_answersFromBuffer_held :
    ¬∀ results s queue, Stored s queue → AnswersFromBuffer results s := by
  intro hall
  have hfails : FailsFirst [.error .eagain] heldConn := ⟨rfl, .eagain, [], rfl, by simp⟩
  exact stored_heldConn.not_answersFromBuffer hfails (hall _ _ _ stored_heldConn)

end Hixo.Echo
