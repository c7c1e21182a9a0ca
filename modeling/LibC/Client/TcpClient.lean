/-
LibC.Client.TcpClient — the client: `TcpClient` of `bis/src/client/tcp_client.cpp`
and `send_and_recv` of `bis/src/client/main.cpp`.

What the socket answers is an argument: the outcomes of the `write` and `read`
calls, in order, each with the wait before it. A call for which there is no
outcome is one that is waited for in vain. The proxy is an argument as well: a
request that was sent as a whole is answered with one frame, whose bytes come
after those of the earlier answers on the same connection, in any pieces.

The number that goes with each byte of the stream says which call it is an
answer to. No decision depends on it, and neither does any on the outcomes that
`log` keeps.

No `sorry`, no `axiom`, no `native_decide`.
-/
import LibC.Lib.Run
import LibC.Proxy.Cmd

namespace LibC

open LibC.Lib

/-! ## The socket -/

/-- What becomes of a `write`: the wait before it fails; it takes `n + 1` bytes, or all of
them if there are fewer; `EINTR`; or another error. -/
inductive SendRet where
  | waitFail
  | wrote (n : Nat)
  | intr
  | fail

/-- What becomes of a `read`: the wait before it fails; it gives `n + 1` bytes, or as many
as there are and fit; `EINTR`; the end of the stream; or another error. -/
inductive ReadRet where
  | waitFail
  | got (n : Nat)
  | intr
  | eof
  | fail

/-- A byte of an answer, and the number of the call that it answers. -/
abbrev Answered := Nat × UInt8

/-- `TcpClient`; `stream` is what the proxy sends on the connection and has not been read. -/
structure TcpClient where
  checkConnect : Int
  stream : List Answered

namespace TcpClient

/-- `reconnect`. -/
def reconnect (t : TcpClient) : TcpClient := { t with stream := [] }

/-- The loop of `send`, with the number of bytes that are left. -/
def sendLoop : List SendRet → Nat → Int
  | [], _ => -1
  | .waitFail :: _, _ => -1
  | .wrote n :: rets, left => if n + 1 < left then sendLoop rets (left - (n + 1)) else 0
  | .intr :: rets, left => sendLoop rets left
  | .fail :: _, _ => -1

/-- `send`. -/
def send (rets : List SendRet) (length : Nat) (t : TcpClient) : Int × TcpClient :=
  if sendLoop rets length < 0 then (-1, { t with checkConnect := -1 }) else (0, t)

/-- The state of `recv`: what was stored in the buffer, `length`, and what is left. -/
structure Received where
  buffer : List Answered
  length : Nat
  stream : List Answered

/-- The loop of `recv`. With an `expect_len` of `0` the first bytes end it. -/
def recvLoop (expectLen : Nat) : List ReadRet → Received → Int × Received
  | [], r => (-1, r)
  | .waitFail :: _, r => (-1, r)
  | .got n :: rets, r =>
      let room := if expectLen > 0 then expectLen - r.buffer.length else r.length
      let data := r.stream.take (min (n + 1) room)
      if data = [] then (-1, r)
      else
        let r := ⟨r.buffer ++ data, (r.buffer ++ data).length, r.stream.drop data.length⟩
        if r.buffer.length < expectLen then recvLoop expectLen rets r else (0, r)
  | .intr :: rets, r => recvLoop expectLen rets r
  | .eof :: _, r => (-1, r)
  | .fail :: _, r => (-1, r)

/-- `recv`: the return value, the bytes stored, and `length` afterwards. -/
def recv (rets : List ReadRet) (length expectLen : Nat) (t : TcpClient) :
    Int × List Answered × Nat × TcpClient :=
  let (ret, r) := recvLoop expectLen rets ⟨[], length, t.stream⟩
  (ret, r.buffer, r.length, ⟨if ret < 0 then -1 else t.checkConnect, r.stream⟩)

/-- `send_and_recv`; the request is answered when it was sent. -/
def sendAndRecv (writes : List SendRet) (reads : List ReadRet) (requestLen responseLen : Nat)
    (answer : List Answered) (t : TcpClient) : Int × List Answered × Nat × TcpClient :=
  let (ret, t) := t.send writes requestLen
  if ret ≠ 0 then (-1, [], responseLen, { t with checkConnect := -1 })
  else
    let (ret, response, responseLen, t) :=
      { t with stream := t.stream ++ answer }.recv reads responseLen 0
    if ret ≠ 0 then (-2, response, responseLen, { t with checkConnect := -1 })
    else (0, response, responseLen, t)

end TcpClient

/-! ## The client -/

/-- `MAX_BUFF_LEN`. -/
def maxBuffLen : Nat := 1024 * 1000

/-- A call of `send_and_recv`: the command and the serialized request, what becomes of it on
the way, and the frame that answers it. -/
structure ClientCall where
  cmd : UInt16
  strReq : Bytes
  writes : List SendRet
  reads : List ReadRet
  answer : Cmd

/-- What a call has done: the return value, the bytes that `ParseFromArray` was given, and
the bytes that were read. -/
structure CallOutcome where
  ret : Int
  parsed : Option Bytes
  taken : List Answered
  deriving DecidableEq

/-- The client. `rvBuf` holds the bytes that were stored in it, and zeros after them. -/
structure Client where
  cli : TcpClient
  rvBuf : Bytes
  log : List CallOutcome

namespace Client

/-- After `InitClinetConn`. -/
def init : Client := ⟨⟨0, []⟩, [], []⟩

/-- `len` bytes of a buffer. -/
def bytesAt (buf : Bytes) (offset len : Nat) : Bytes :=
  ((buf ++ List.replicate (offset + len) 0).drop offset).take len

/-- The bytes of a request in `sendBuff`, whose checksum is never written. -/
def request (c : ClientCall) : Bytes :=
  Cmd.msgHead (UInt32.ofNat (sizeofMsgHead + c.strReq.length)) c.cmd 0 ++ c.strReq

/-- The bytes of the answer to call `i`. -/
def answerTo (i : Nat) (c : ClientCall) : List Answered := c.answer.serialize.map fun b => (i, b)

/-- The end of a call. -/
def finish (cli : TcpClient) (rvBuf : Bytes) (o : CallOutcome) (s : Client) : Client :=
  ⟨cli, rvBuf, s.log ++ [o]⟩

/-- `send_and_recv`. `none` is an access outside `sendBuff` or `rvBuf`. -/
def sendAndRecv (parseFromArray : Bytes → Bool) (c : ClientCall) (s : Client) : Option Client :=
  if (request c).length > maxBuffLen then none
  else
    let cli := if s.cli.checkConnect < 0 then s.cli.reconnect else s.cli
    let (ret, taken, rv, cli) := cli.sendAndRecv c.writes c.reads (request c).length maxBuffLen
      (answerTo s.log.length c)
    let rvBuf := taken.map Prod.snd ++ s.rvBuf.drop taken.length
    if ret < 0 then some (finish cli rvBuf ⟨-1, none, taken⟩ s)
    else
      let dataLen := if rv > sizeofMsgHead then ntohl rvBuf - UInt32.ofNat sizeofMsgHead else 0
      if dataLen.toNat > rv then some (finish cli rvBuf ⟨-1, none, taken⟩ s)
      else if sizeofMsgHead + dataLen.toNat > maxBuffLen then none
      else
        let data := bytesAt rvBuf sizeofMsgHead dataLen.toNat
        some (finish cli rvBuf ⟨if parseFromArray data then 0 else -1, some data, taken⟩ s)

end Client

end LibC
