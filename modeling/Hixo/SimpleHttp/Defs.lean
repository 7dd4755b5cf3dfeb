import Hixo.Echo.Defs

/-!
# The simple HTTP module

`modules/simple_http.c`: every read event is answered with one and the same page. The connection
and the results of `writev` are those of the echo module.

* `dataHead`, `dataBody`: the page, as two blocks of memory;
* `sendLoop`, `testSynSend`: the answer;
* `simpleHttpHandleRead`: the read handler.
-/

namespace Hixo.SimpleHttp

open Echo HttpMessage

/-- The block of a `char` array that is initialised with a text: there is a zero at its end, which
`sizeof` counts. -/
def cString (text : List Char) : List UInt8 := octets text ++ [0]

/-- `data_head` -/
def dataHead : List UInt8 := cString <|
  "HTTP/1.1 200 OK\r\n".toList ++ "Server: hixo\r\n".toList ++
  "Content-Length: 174\r\n".toList ++ "Content-Type: text/html\r\n".toList ++
  "Connection: keep-alive\r\n\r\n".toList

/-- `data_body` -/
def dataBody : List UInt8 := cString <|
  "<!DOCTYPE html>\r\n".toList ++ "<html>\r\n".toList ++ "<head>\r\n".toList ++
  "<title>welcome to hixo</title>\r\n".toList ++ "</head>\r\n".toList ++
  "<body bgcolor=\"white\" text=\"black\">\r\n".toList ++
  "<center><h1>welcome to hixo!</h1></center>\r\n".toList ++ "</body>\r\n".toList ++
  "</html>\r\n".toList

/-- The loop around `writev`, which offers the bytes `out` in every pass; `sentSize` is
`sent_size`. The result says whether the loop comes to its end: after an error the handler
returns. -/
def sendLoop (env : Env) (out : List UInt8) : ℕ → ℕ → Conn → Except Fault (Bool × Conn)
  | 0, _, _ => .error .endless
  | fuel + 1, sentSize, s =>
    if sentSize < out.length then
      let s' := { s with writes := s.writes + 1 }
      match env.writev s.writes out.length with
      | .error _ => .ok (false, s')
      | .accepted n => sendLoop env out fuel (sentSize + n) { s' with sent := s.sent ++ out.take n }
    else .ok (true, s)

/-- `test_syn_send` -/
def testSynSend (env : Env) (s : Conn) : Except Fault Conn := do
  let out := dataHead ++ dataBody
  match ← sendLoop env out (out.length + 1) 0 s with
  | (false, s) => .ok s
  | (true, s) => .ok s.hixoSocketShutdown.hixoSocketClose

/-- `simple_http_handle_read` -/
def simpleHttpHandleRead (env : Env) (s : Conn) : Except Fault Conn := testSynSend env s

end Hixo.SimpleHttp
