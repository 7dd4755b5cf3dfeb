import Hixo.Echo.Rounds

/-!
# What the echo module answers

`test_syn_send` answers with the first buffer of `m_readbuf_queue`. The answer is a well-formed
message, and its body is what that buffer holds; so the client gets back what it has sent only as
long as one buffer has room for it.

* `carries_dataHeadSend`: the answer announces the length of its body;
* `testSynSend_eq`: what is sent;
* `Ready.answer`: the answer to any sequence of receives;
* `echoes_iff`: when it carries all that was received.
-/

namespace Hixo.Echo

open RingHeap Conn HttpMessage

/-! ## The head of the answer -/

/-- The lines of the head before the length. -/
def linesStart : List (List UInt8) :=
  [octets "HTTP/1.1 200 OK".toList, octets "Server: hixo".toList]

/-- The lines of the head after the length. -/
def linesEnd : List (List UInt8) :=
  [octets "Content-Type: text/html".toList, octets "Connection: keep-alive".toList]

/-- The lines of the head, for a body of `n` bytes. -/
def headLines (n : ℕ) : List (List UInt8) :=
  linesStart ++ (lengthField ++ octets (Nat.toDigits 10 n)) :: linesEnd

/-- The digits of a size are not more than `len` has room for. -/
theorem length_toDigits_le {n : ℕ} (hn : n < 10 ^ 31) : (Nat.toDigits 10 n).length ≤ 31 :=
  (Nat.length_toDigits_le_iff (b := 10) (k := 31) (by decide) (by decide)).mpr hn

/-- A size is not negative, so its text has digits only. -/
theorem decimal_natCast {n : ℕ} : decimal n = Nat.toDigits 10 n := by
  rw [decimal, if_neg (by omega), Int.natAbs_natCast]

/-- The head without the formatting of `snprintf`, which cuts nothing off. -/
theorem dataHeadSend_octets {n : ℕ} (hn : n < 10 ^ 31) :
    dataHeadSend n = octets (dataHead (Nat.toDigits 10 n)) := by
  have hdigits := length_toDigits_le hn
  have hstart : dataHeadStart.length = 47 := by decide
  have hend : dataHeadEnd.length = 53 := by decide
  have hlen : (dataHead (Nat.toDigits 10 n)).length ≤ 255 := by
    rw [dataHead, List.length_append, List.length_append, hstart, hend]
    omega
  have hinner : snprintf 32 (decimal n) = Nat.toDigits 10 n := by
    rw [decimal_natCast]
    exact List.take_of_length_le hdigits
  have houter : snprintf 256 (dataHead (Nat.toDigits 10 n)) = dataHead (Nat.toDigits 10 n) :=
    List.take_of_length_le hlen
  rw [dataHeadSend, hinner, houter]

/-- The text before the length is the first lines of the head and the beginning of the next one. -/
theorem octets_dataHeadStart :
    octets dataHeadStart = linesStart.flatMap (· ++ [13, 10]) ++ lengthField := by decide

/-- The text after the length ends its line, and is the other lines of the head and the empty line.
-/
theorem octets_dataHeadEnd : octets dataHeadEnd = 13 :: 10 :: writeHead linesEnd := by decide

/-- `data_head_send` has the lines that the head should have. -/
theorem dataHeadSend_eq {n : ℕ} (hn : n < 10 ^ 31) : dataHeadSend n = writeHead (headLines n) := by
  rw [dataHeadSend_octets hn, dataHead, octets_append, octets_append, octets_dataHeadStart,
    octets_dataHeadEnd, headLines, writeHead_append, writeHead]
  simp only [List.append_assoc]

/-- The answer announces the length of its body. -/
theorem carries_dataHeadSend {body : List UInt8} (hbody : body.length ≤ bufSize) :
    Carries (dataHeadSend body.length ++ body) body := by
  rw [dataHeadSend_eq (Nat.lt_of_le_of_lt hbody (by decide))]
  exact carries_writeHead (by decide) (by decide)

/-! ## Sending -/

/-- `writev` takes all that it is offered. -/
def Env.AcceptsAll (env : Env) : Prop := ∀ k n, env.writev k n = .accepted n

variable {env : Env} {s s' : Conn} {read old queue : List ℕ} {i : ℕ} {piece : List UInt8}

/-- When `writev` takes everything, one call sends it. -/
theorem sendLoop_eq (henv : env.AcceptsAll) {out : List UInt8} (hout : out ≠ []) :
    sendLoop env out (out.length + 1) 0 s =
      .ok { s with sent := s.sent ++ out, writes := s.writes + 1 } := by
  obtain ⟨b, bs, rfl⟩ := List.exists_cons_of_ne_nil hout
  rw [sendLoop, if_pos (by simp), henv]
  simp [sendLoop]

/-- `test_syn_send` sends what the first buffer of the queue holds. -/
theorem testSynSend_eq (henv : env.AcceptsAll) (hring : s.links.IsRing .readbufQueue
    (nodes (i :: read))) (hhold : s.Holds i piece) :
    testSynSend env s = .ok { s with
      sent := s.sent ++ (dataHeadSend piece.length ++ piece)
      writes := s.writes + 1
      shutdown := true
      close := true } := by
  obtain ⟨block, hhas, hprefix⟩ := id hhold
  obtain ⟨b, hbuf, hsize, -⟩ := hhas.buffer_eq
  have hlen : iovLen b.size = piece.length := by
    rw [hsize, iovLen_natCast (Nat.lt_of_le_of_lt hhold.length_le (by decide))]
  have hread := hhold.readBlock
  have hne := (carries_dataHeadSend hhold.length_le).ne_nil
  have hnext : s.links.next .readbufQueue = .bufNode i := hring.next_eq
  rw [testSynSend, hnext, containerOf, Programs.bind_of_eq_ok rfl, Programs.bind_of_eq_ok hbuf,
    hlen, Programs.bind_of_eq_ok hread, hsize]
  dsimp only
  rw [Programs.bind_of_eq_ok (sendLoop_eq henv hne)]
  rfl

/-! ## The answer to a call -/

variable {chunks : List (List UInt8)} {errno : Errno}

/-- The answer to a call that receives something: the head and the first bytes, as many as one
buffer has room for. -/
theorem Ready.answer (hready : Ready s queue) (henv : env.AcceptsAll) {first : List UInt8}
    (hchunks : ∀ bytes ∈ first :: chunks, bytes ≠ []) (herrno : errno ≠ .econnreset) :
    ∃ s', echoHandleRead env ((first :: chunks).map .data ++ [.error errno]) s = .ok s' ∧
      s'.sent = s.sent ++ (dataHeadSend (first.take bufSize).length ++ first.take bufSize) := by
  obtain ⟨s₁, hstart, hhead, -, hquiet₁⟩ := hready.startRead
  obtain ⟨is, old₂, s₂, hrun, h₂⟩ := hhead.readRounds_run [.error errno]
    (hquiet₁.readable.trans hready.readable) hchunks
  obtain ⟨s₃, hlast, h₃⟩ := h₂.head.readRounds_last []
    (h₂.readable.trans (hquiet₁.readable.trans hready.readable))
    (rfl : (ReadvResult.error errno).isLast = true)
  rw [leave_answer herrno] at hlast
  have hhold := h₂.holds
  -- the first piece of the first chunk is in the first buffer
  cases is with
  | nil => cases hhold
  | cons i is =>
    have hfirst : s₂.Holds i (first.take bufSize) := (List.forall₂_cons.mp hhold).1
    have hread : s₃.links.IsRing .readbufQueue (nodes (i :: is)) := by
      simpa using h₃.head.rings.read
    have hsend := testSynSend_eq (s := { s₃ with readable := false }) henv hread
      ((hfirst.congr (h₃.same i (by simp))).congr rfl)
    have hcall := (echoHandleRead_eq hstart (hrun.trans hlast)).trans
      (congrArg (Except.map finishRead) hsend)
    refine ⟨_, hcall, ?_⟩
    simp only [finishRead, h₃.sent, h₂.sent, hquiet₁.sent]

/-- A call that receives nothing does not get as far as to answer. -/
theorem Ready.answer_nil (hready : Ready s queue) (herrno : errno ≠ .econnreset) :
    echoHandleRead env [.error errno] s = .error .notBuffer := by
  obtain ⟨s₁, hstart, hhead, -, hquiet₁⟩ := hready.startRead
  obtain ⟨s₂, hlast, h₂⟩ := hhead.readRounds_last []
    (hquiet₁.readable.trans hready.readable) (rfl : (ReadvResult.error errno).isLast = true)
  rw [leave_answer herrno] at hlast
  have hread : s₂.links.IsRing .readbufQueue [] := by simpa using h₂.head.rings.read
  have hsend : testSynSend env { s₂ with readable := false } = .error .notBuffer :=
    testSynSend_nil hread
  exact (echoHandleRead_eq hstart hlast).trans (congrArg (Except.map finishRead) hsend)

/-- The call receives these chunks and then `EAGAIN`, and the answer that it puts on the
connection carries exactly the received bytes. -/
def Echoes (env : Env) (s : Conn) (chunks : List (List UInt8)) : Prop :=
  ∃ s' response, echoHandleRead env (chunks.map .data ++ [.error .eagain]) s = .ok s' ∧
    s'.sent = s.sent ++ response ∧ Carries response chunks.flatten

/-- The answer carries what was received exactly when the first buffer holds all of it. -/
theorem Ready.echoes_cons (hready : Ready s queue) (henv : env.AcceptsAll) {first : List UInt8}
    (hchunks : ∀ bytes ∈ first :: chunks, bytes ≠ []) :
    Echoes env s (first :: chunks) ↔ chunks = [] ∧ first.length ≤ bufSize := by
  obtain ⟨s', hrun, hsent⟩ := hready.answer henv hchunks
    (by simp : Errno.eagain ≠ .econnreset)
  have hcarries : Carries (dataHeadSend (first.take bufSize).length ++ first.take bufSize)
      (first.take bufSize) := carries_dataHeadSend (List.length_take_le ..)
  constructor
  · rintro ⟨s'', response, hrun', hsent', hcarries'⟩
    obtain rfl : s' = s'' := Except.ok.inj (hrun.symm.trans hrun')
    rw [List.append_cancel_left (hsent'.symm.trans hsent)] at hcarries'
    -- nothing comes behind the first piece
    have hall := congrArg List.length (hcarries.unique hcarries')
    rw [List.flatten_cons, List.length_append, List.length_take] at hall
    refine ⟨?_, by omega⟩
    rcases chunks with _ | ⟨second, chunks⟩
    · rfl
    · have hpos := List.length_pos_of_ne_nil (hchunks second (by simp))
      rw [List.flatten_cons, List.length_append] at hall
      omega
  · rintro ⟨rfl, hlen⟩
    refine ⟨s', _, hrun, hsent, ?_⟩
    rw [List.take_of_length_le hlen] at hcarries ⊢
    simpa using hcarries

/-- A connection right after `hixo_create_socket`, when it has become readable. -/
def connected : Conn where
  links := { next := id, prev := id }
  bufs := fun _ => none
  count := 0
  readable := true
  close := false
  shutdown := false
  sent := []
  writes := 0
  destroyed := []
  freed := []

/-- A connection that was just opened is ready, without buffers. -/
theorem ready_connected : Ready connected [] where
  ring := ⟨⟨rfl, rfl⟩, List.nodup_singleton _⟩
  owned := ⟨List.nodup_nil, by simp, fun _ _ => rfl⟩
  readable := rfl

/-- A `writev` that takes everything. -/
def generousEnv : Env where
  writev _ n := .accepted n

theorem acceptsAll_generousEnv : generousEnv.AcceptsAll := fun _ _ => rfl

/-- The answer to a call that receives some chunks and then `EAGAIN` carries exactly the received
bytes if and only if there is one chunk, which fits into one buffer. -/
theorem echoes_iff (hready : Ready s queue) (henv : env.AcceptsAll)
    (hchunks : ∀ bytes ∈ chunks, bytes ≠ [] ∧ bytes.length ≤ nbufs * bufSize) :
    Echoes env s chunks ↔ ∃ bytes, chunks = [bytes] ∧ bytes.length ≤ bufSize := by
  cases chunks with
  | nil =>
    constructor
    · rintro ⟨s', response, hrun, -⟩
      rw [List.map_nil, List.nil_append, hready.answer_nil (by simp)] at hrun
      cases hrun
    · rintro ⟨bytes, heq, -⟩
      cases heq
  | cons first chunks =>
    rw [hready.echoes_cons henv fun bytes hbytes => (hchunks bytes hbytes).1]
    constructor
    · rintro ⟨rfl, hlen⟩
      exact ⟨first, rfl, hlen⟩
    · rintro ⟨bytes, heq, hlen⟩
      obtain ⟨rfl, rfl⟩ := List.cons.inj heq
      exact ⟨rfl, hlen⟩

theorem echoes_iff_connected :
    Echoes generousEnv connected [[104, 105]] ↔
      ∃ bytes : List UInt8, [[104, 105]] = [bytes] ∧ bytes.length ≤ bufSize :=
  echoes_iff ready_connected acceptsAll_generousEnv
    (by decide : ∀ bytes ∈ [[(104 : UInt8), 105]], bytes ≠ [] ∧ bytes.length ≤ nbufs * bufSize)

/-- Two bytes that come one by one: only the first one comes back. -/
theorem not_echoes_connected :
    ¬∀ (env : Env) (s : Conn) (queue : List ℕ) (chunks : List (List UInt8)),
      env.AcceptsAll → Ready s queue →
      (∀ bytes ∈ chunks, bytes ≠ [] ∧ bytes.length ≤ nbufs * bufSize) → Echoes env s chunks := by
  intro hall
  have hechoes := hall generousEnv connected [] [[104], [105]] acceptsAll_generousEnv
    ready_connected (by decide)
  obtain ⟨hnil, -⟩ := (ready_connected.echoes_cons acceptsAll_generousEnv
    (by simp : ∀ bytes ∈ [[(104 : UInt8)], [105]], bytes ≠ [])).mp hechoes
  cases hnil

end Hixo.Echo
