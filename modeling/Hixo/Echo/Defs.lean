import Hixo.Foundation.RingList
import Hixo.Foundation.HttpMessage
import Mathlib.Algebra.Group.Int.Defs
import Mathlib.Algebra.Group.Nat.Defs

/-!
# The echo module

`modules/echo.c` with the buffers of `buffer.c`: a connection with its queue of read buffers, the
read handler, which receives into the buffers and answers, and the disconnect handler. The queues
are rings in one heap of link cells, as in `list.h`.

* `Buffer`, `createBuffer`, `setSize`: `hixo_buffer_t` and its operations;
* `prepareVecs`, `fill`, `distribute`: a round of the read loop up to and after `readv`;
* `dataHead`, `sendLoop`, `testSynSend`: the answer;
* `readRounds`, `readLoop`, `echoHandleRead`: the read handler, over the results of `readv`;
* `echoHandleDisconnect`: the disconnect handler.

`calloc` is taken to succeed, as the code does not look at its result.
-/

namespace Hixo.Echo

/-- `NBUFS`: the buffers that one `readv` is offered. -/
def nbufs : ℕ := 4

/-- `BUF_SIZE`: the capacity of a buffer. -/
def bufSize : ℕ := 4096

/-- The cells with links: the heads of the three queues, and `m_node` of each buffer. -/
inductive Cell where
  /-- `m_readbuf_queue` of the socket. -/
  | readbufQueue
  /-- The local variable `old_queue`. -/
  | oldQueue
  /-- The local variable `tmp_queue`. -/
  | tmpQueue
  /-- `m_node` of a buffer. -/
  | bufNode (i : ℕ)
  deriving DecidableEq

/-- `hixo_array_t` -/
structure ByteArr where
  /-- `mp_data`: the bytes of the block it points to, `none` for `NULL`. -/
  data : Option (List UInt8)
  /-- `m_capacity` -/
  capacity : ℤ

/-- `hixo_buffer_t`, its links apart. -/
structure Buffer where
  /-- `m_offset` -/
  offset : ℤ
  /-- `m_size` -/
  size : ℤ
  /-- `m_byte_array` -/
  byteArray : ByteArr

/-- `hixo_create_byte_array`: the block comes from `calloc`. -/
def createByteArray (capacity : ℤ) : ByteArr :=
  if capacity > 0 then { data := some (List.replicate capacity.toNat 0), capacity }
  else { data := none, capacity := 0 }

/-- `hixo_create_buffer`, with a capacity that is not negative. -/
def createBuffer (capacity : ℤ) : Buffer :=
  { offset := 0, size := 0, byteArray := createByteArray capacity }

/-- Ways in which the handlers break off. -/
inductive Fault where
  /-- `CONTAINER_OF` was applied to a cell that is no part of a buffer. -/
  | notBuffer
  /-- The buffer was freed, or its block. -/
  | dangling (i : ℕ)
  /-- The access reaches beyond the block of the buffer. -/
  | overrun (i : ℕ)
  /-- A loop does not come to its end. -/
  | endless
  /-- `readv` has given no further result yet. -/
  | waiting
  /-- An assertion failed. -/
  | assertFailed
  deriving DecidableEq

/-- The values of `errno` that the read handler tells apart. -/
inductive Errno where
  | eagain
  | econnreset
  | other (code : ℕ)
  deriving DecidableEq

/-- What a call of `readv` gives: the received bytes (none at the end of the stream), or -1 with
an error. -/
inductive ReadvResult where
  | data (bytes : List UInt8)
  | error (errno : Errno)

/-- What a call of `writev` gives: how many bytes it took, or an error. -/
inductive WritevResult where
  | accepted (n : ℕ)
  | error (errno : Errno)

/-- The outside world of the handlers. -/
structure Env where
  /-- The result of the `k`-th call of `writev` on the connection, which offers `n` bytes. -/
  writev : ℕ → ℕ → WritevResult

/-- A connection: its socket, the local queues of the handler, and the buffers. -/
structure Conn where
  /-- The links of all cells. -/
  links : RingHeap Cell
  /-- The buffers, by the order in which they were allocated; `none` before and after. -/
  bufs : ℕ → Option Buffer
  /-- The number of buffers that were allocated. -/
  count : ℕ
  /-- `m_readable` -/
  readable : Bool
  /-- `m_close` -/
  close : Bool
  /-- Whether `shutdown` was called. -/
  shutdown : Bool
  /-- The bytes that `writev` took. -/
  sent : List UInt8
  /-- The number of calls of `writev`. -/
  writes : ℕ
  /-- The buffers whose blocks were freed by `hixo_destroy_buffer`. -/
  destroyed : List ℕ
  /-- The buffers that were freed. -/
  freed : List ℕ

/-! ## Buffers -/

/-- `CONTAINER_OF(p_node, hixo_buffer_t, m_node)` -/
def containerOf : Cell → Except Fault ℕ
  | .bufNode i => .ok i
  | _ => .error .notBuffer

namespace Conn

/-- Access a buffer. -/
def buffer (s : Conn) (i : ℕ) : Except Fault Buffer :=
  match s.bufs i with
  | some b => .ok b
  | none => .error (.dangling i)

/-- Access the block of a buffer. -/
def block (s : Conn) (i : ℕ) : Except Fault (List UInt8) := do
  let b ← s.buffer i
  match b.byteArray.data with
  | some bytes => .ok bytes
  | none => .error (.dangling i)

/-- Store a buffer. -/
def setBuffer (s : Conn) (i : ℕ) (b : Buffer) : Conn :=
  { s with bufs := Function.update s.bufs i (some b) }

/-- `hixo_buffer_set_size` -/
def setSize (s : Conn) (i : ℕ) (size : ℤ) : Except Fault Conn := do
  let b ← s.buffer i
  .ok (s.setBuffer i { b with size := if size > 0 then size else 0 })

/-- Write bytes to the front of the block of a buffer. -/
def writeBlock (s : Conn) (i : ℕ) (bytes : List UInt8) : Except Fault Conn := do
  let b ← s.buffer i
  let old ← s.block i
  if old.length < bytes.length then .error (.overrun i)
  else
    .ok (s.setBuffer i { b with byteArray := { b.byteArray with
      data := some (bytes ++ old.drop bytes.length) } })

/-- Read the first `n` bytes of the block of a buffer. -/
def readBlock (s : Conn) (i n : ℕ) : Except Fault (List UInt8) := do
  let bytes ← s.block i
  if bytes.length < n then .error (.overrun i) else .ok (bytes.take n)

/-- `hixo_destroy_buffer` -/
def destroyBuffer (s : Conn) (i : ℕ) : Except Fault Conn := do
  let b ← s.buffer i
  match b.byteArray.data with
  | none => .ok s
  | some _ =>
    .ok { s.setBuffer i { b with byteArray := { b.byteArray with data := none } } with
      destroyed := i :: s.destroyed }

/-- `free(p_buf)` -/
def freeBuffer (s : Conn) (i : ℕ) : Except Fault Conn := do
  let _ ← s.buffer i
  .ok { s with bufs := Function.update s.bufs i none, freed := i :: s.freed }

/-- `calloc` for a buffer and `hixo_create_buffer`. -/
def newBuffer (s : Conn) : ℕ × Conn :=
  (s.count,
    { s with
      links := s.links.init (.bufNode s.count)
      bufs := Function.update s.bufs s.count (some (createBuffer bufSize))
      count := s.count + 1 })

/-- `hixo_socket_shutdown` -/
def hixoSocketShutdown (s : Conn) : Conn := { s with shutdown := true }

/-- `hixo_socket_close` -/
def hixoSocketClose (s : Conn) : Conn := { s with close := true }

end Conn

/-- The value of a `ssize_t` as a `size_t`. -/
def iovLen (n : ℤ) : ℕ := (n % 2 ^ 64).toNat

/-! ## A round of the read loop -/

/-- The buffer for the next vector: the first one of `old_queue`, else a new one. -/
def takeBuffer (s : Conn) : Except Fault (ℕ × Conn) :=
  match s.links.getHead .oldQueue with
  | some node => do
    let i ← containerOf node
    .ok (i, { s with links := s.links.del node })
  | none => .ok s.newBuffer

/-- A pass of the loop over `p_vecs`. The result is the vector: its buffer, and its length. -/
def prepareVec (s : Conn) : Except Fault ((ℕ × ℕ) × Conn) := do
  let (i, s) ← takeBuffer s
  let s := { s with links := s.links.addTail .tmpQueue (.bufNode i) }
  let b ← s.buffer i
  .ok ((i, iovLen b.byteArray.capacity), s)

/-- The loop that offers `n` more buffers. -/
def prepareVecs : ℕ → Conn → Except Fault (List (ℕ × ℕ) × Conn)
  | 0, s => .ok ([], s)
  | n + 1, s => do
    let (vec, s) ← prepareVec s
    let (vecs, s) ← prepareVecs n s
    .ok (vec :: vecs, s)

/-- `readv` writes the received bytes to the vectors, in order. -/
def fill : List (ℕ × ℕ) → List UInt8 → Conn → Except Fault Conn
  | [], _, s => .ok s
  | (i, len) :: vecs, bytes, s => do
    let s ← s.writeBlock i (bytes.take len)
    fill vecs (bytes.drop len) s

/-- The body of the loop that sets the sizes; the first component is `recved_size`. -/
def distributeBody (pos : Cell) : ℤ × Conn → Except Fault (RingHeap.Pass (ℤ × Conn))
  | (recved, s) => do
    let i ← containerOf pos
    if recved = 0 then .ok (.stop (recved, s))
    else if recved < bufSize then
      let s ← s.setSize i recved
      .ok (.next (0, s))
    else
      let s ← s.setSize i bufSize
      .ok (.next (recved - bufSize, s))

/-- The loop that sets the sizes of the buffers of `tmp_queue`. -/
def distribute (recved : ℤ) (s : Conn) : Except Fault (ℤ × Conn) :=
  RingHeap.forEach (fun t : ℤ × Conn => t.2.links) .endless .tmpQueue distributeBody (s.count + 1)
    (s.links.next .tmpQueue) (recved, s)

/-- The body of the loop over the buffers that an earlier call left. -/
def clearBody (pos : Cell) (s : Conn) : Except Fault (RingHeap.Pass Conn) := do
  let i ← containerOf pos
  let s ← s.setSize i 0
  .ok (.next s)

/-- The body of the loops that free buffers. -/
def releaseBody (pos : Cell) (s : Conn) : Except Fault Conn := do
  let s := { s with links := s.links.del pos }
  let i ← containerOf pos
  let s ← s.destroyBuffer i
  s.freeBuffer i

/-- The loop that frees the buffers of a queue. -/
def release (queue : Cell) (s : Conn) : Except Fault Conn :=
  RingHeap.forEachSafe Conn.links .endless queue releaseBody (s.count + 1) (s.links.next queue)
    (s.links.next (s.links.next queue)) s

/-! ## The answer -/

/-- `snprintf(buf, n, "%s", text)` as the text that `buf` holds then. -/
def snprintf (n : ℕ) (text : List Char) : List Char := text.take (n - 1)

/-- The text of a `ssize_t` for `%ld`. -/
def decimal (n : ℤ) : List Char :=
  if n < 0 then '-' :: Nat.toDigits 10 n.natAbs else Nat.toDigits 10 n.natAbs

/-- The part of `data_head` before `%s`. -/
def dataHeadStart : List Char := "HTTP/1.1 200 OK\r\nServer: hixo\r\nContent-Length: ".toList

/-- The part of `data_head` after `%s`. -/
def dataHeadEnd : List Char :=
  "\r\nContent-Type: text/html\r\nConnection: keep-alive\r\n\r\n".toList

/-- `data_head`, with `len` for `%s`. -/
def dataHead (len : List Char) : List Char := dataHeadStart ++ len ++ dataHeadEnd

/-- `data_head_send`, for a body of this size. -/
def dataHeadSend (size : ℤ) : List UInt8 :=
  HttpMessage.octets (snprintf 256 (dataHead (snprintf 32 (decimal size))))

/-- The loop around `writev`, which offers the bytes `out` in every pass; `sentSize` is
`sent_size`. -/
def sendLoop (env : Env) (out : List UInt8) : ℕ → ℕ → Conn → Except Fault Conn
  | 0, _, _ => .error .endless
  | fuel + 1, sentSize, s =>
    if sentSize < out.length then
      let s' := { s with writes := s.writes + 1 }
      match env.writev s.writes out.length with
      | .error _ => .ok s'
      | .accepted n => sendLoop env out fuel (sentSize + n) { s' with sent := s.sent ++ out.take n }
    else .ok s

/-- `test_syn_send` -/
def testSynSend (env : Env) (s : Conn) : Except Fault Conn := do
  let i ← containerOf (s.links.next .readbufQueue)
  let b ← s.buffer i
  let body ← s.readBlock i (iovLen b.size)
  let out := dataHeadSend b.size ++ body
  let s ← sendLoop env out (out.length + 1) 0 s
  .ok s.hixoSocketShutdown.hixoSocketClose

/-! ## The handlers -/

/-- The loop that sets the sizes of the buffers of `old_queue` to 0. -/
def clearSizes (s : Conn) : Except Fault Conn :=
  RingHeap.forEach Conn.links .endless .oldQueue clearBody (s.count + 1) (s.links.next .oldQueue) s

/-- How the loop of `echo_handle_read` is left. -/
inductive LoopExit where
  /-- Nothing is answered. -/
  | done (s : Conn)
  /-- `test_syn_send` is called first. -/
  | answer (s : Conn)

/-- The connection at that point. -/
def LoopExit.conn : LoopExit → Conn
  | .done s => s
  | .answer s => s

/-- The rounds of the loop of `echo_handle_read`, over the results of `readv`. -/
def readRounds : List ReadvResult → Conn → Except Fault LoopExit
  | [], s => if s.readable then .error .waiting else .ok (.done s)
  | result :: results, s =>
    if !s.readable then .ok (.done s)
    else do
      let s := { s with links := s.links.init .tmpQueue }
      let (vecs, s) ← prepareVecs nbufs s
      match result with
      | .data [] =>
        let s ← release .tmpQueue s
        .ok (.done s.hixoSocketClose)
      | .data bytes =>
        let s ← fill vecs bytes s
        let (_, s) ← distribute bytes.length s
        readRounds results { s with links := s.links.merge .readbufQueue .tmpQueue }
      | .error .econnreset =>
        let s ← release .tmpQueue s
        .ok (.done s.hixoSocketClose)
      | .error _ =>
        let s ← release .tmpQueue s
        .ok (.answer { s with readable := false })

/-- The loop of `echo_handle_read`, over the results of `readv`. -/
def readLoop (env : Env) (results : List ReadvResult) (s : Conn) : Except Fault Conn := do
  match ← readRounds results s with
  | .done s => .ok s
  | .answer s => testSynSend env s

/-- `echo_handle_read` up to its loop. -/
def startRead (s : Conn) : Except Fault Conn :=
  let s := { s with links := (s.links.init .oldQueue).merge .oldQueue .readbufQueue }
  if s.links.isEmpty .oldQueue then .ok s else clearSizes s

/-- `echo_handle_read` behind its loop: the buffers that are left over go back. -/
def finishRead (s : Conn) : Conn := { s with links := s.links.merge .readbufQueue .oldQueue }

/-- `echo_handle_read` -/
def echoHandleRead (env : Env) (results : List ReadvResult) (s : Conn) : Except Fault Conn := do
  let s ← startRead s
  let s ← readLoop env results s
  .ok (finishRead s)

/-- `echo_handle_disconnect` -/
def echoHandleDisconnect (s : Conn) : Except Fault Conn := do
  let s ← if s.links.isEmpty .readbufQueue then .ok s else release .readbufQueue s
  if s.links.isEmpty .readbufQueue then .ok s else .error .assertFailed

end Hixo.Echo
