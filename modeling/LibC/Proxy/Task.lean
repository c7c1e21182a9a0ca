/-
LibC.Proxy.Task — a client connection, `Task` of `bis/src/proxy/task.cpp`.

What the socket answers is an argument: the outcomes of the `recv` and of the
`writev` calls of a handler, in order. A call for which there is no outcome is
one that would block. `Wire` is what the handlers do to the outside: the bytes
the socket has accepted, and the mask last registered with `epoll_ctl`.

`HandleCmdMsg` answers the command objects that `DoCmd` was called with.

`EpollMod` sets bits in an `epoll_event` that was not initialised; `junk` are
the bits that were there. A handler that writes answers `none` when it reads
application data that has been assigned to since (see `LibC.Proxy.Buffer`).

No `sorry`, no `axiom`, no `native_decide`.
-/
import LibC.Proxy.Cmd
import Mathlib.Data.Int.Notation

namespace LibC

open LibC.Lib

/-! ## The socket -/

/-- What `recv` answers: some bytes (none at all when the peer has closed), `EAGAIN`, or
another error. -/
inductive RecvRet where
  | got (data : Bytes)
  | again
  | fail

/-- What `writev` answers: it accepts `n + 1` bytes, or all of them if there are fewer;
`EAGAIN`; or another error. -/
inductive WritevRet where
  | wrote (n : Nat)
  | again
  | fail

/-- `EPOLLIN`. -/
def epollIn : UInt32 := 1

/-- `EPOLLOUT`. -/
def epollOut : UInt32 := 4

/-- `EPOLLET`. -/
def epollEt : UInt32 := (1 : UInt32) <<< 31

/-- The outside of a connection. -/
structure Wire where
  accepted : Bytes
  mask : UInt32

/-- `EpollMod`. -/
def epollMod (junk mask : UInt32) (w : Wire) : Wire :=
  { w with mask := junk ||| (mask ||| epollEt) }

/-! ## The connection -/

/-- `MsgTransApp`. -/
structure MsgTransApp where
  cmdId : Int32
  clientPos : Int32
  src : Bytes
  appData : Bytes

/-- `Task`. -/
structure Task where
  uPos : UInt32
  iSock : Int
  recvBuff : RecvBuffer
  sendQueue : List BufferSequence
  objCmd : Cmd

namespace Task

/-- `Task(uPos, iSock, …)`. -/
def new (uPos : UInt32) (iSock : Int) : Task :=
  ⟨uPos, iSock, RecvBuffer.new maxCmdLen.toNat, [], Cmd.new⟩

/-- `IsTerminate`. -/
def isTerminate (t : Task) : Bool := t.iSock ≤ 0

/-- `Terminate`. -/
def terminate (t : Task) : Task := if t.isTerminate then t else { t with iSock := -1 }

/-! ## Receiving -/

/-- The loop of `Recv`. -/
def recvLoop : List RecvRet → Task → Task
  | [], t => t
  | ret :: rets, t =>
      if t.recvBuff.remain > 0 then
        match ret with
        | .got data =>
            if data.length = 0 then t.terminate
            else recvLoop rets { t with recvBuff := (t.recvBuff.advance data).2 }
        | .again => t
        | .fail => t.terminate
      else t

/-- `Recv`. -/
def recv (rets : List RecvRet) (t : Task) : Task := if t.isTerminate then t else recvLoop rets t

/-- The loop of `HandleCmdMsg`. A round takes at least one byte, so the bytes received
bound the number of rounds. -/
def handleLoop : Nat → Task → Task × List Cmd
  | 0, t => (t, [])
  | fuel + 1, t =>
      if t.recvBuff.usedSize > 0 then
        let (rv, cmd) := t.objCmd.clear.parse t.recvBuff.used
        let t := { t with objCmd := cmd }
        if rv < 0 then (t.terminate, [])
        else if rv = 0 then (t, [])
        else
          let (t, cmds) := handleLoop fuel
            { t with recvBuff := (t.recvBuff.memMoveLeft rv.toNat).2 }
          (t, cmd :: cmds)
      else (t, [])

/-- `HandleCmdMsg`. -/
def handleCmdMsg (t : Task) : Task × List Cmd := handleLoop t.recvBuff.usedSize t

/-- `OnSockReadHdl`. -/
def onSockReadHdl (rets : List RecvRet) (t : Task) : Task × List Cmd := (t.recv rets).handleCmdMsg

/-- The message that `DoCmd` sends for a command; `none` when the request names no key.
`getKeyId` is `req_factor::GetKeyId`, `pullAddr` the address in the configuration. -/
def doCmd (getKeyId : Bytes → UInt16 → Bytes) (pullAddr : Bytes) (cmd : Cmd) (t : Task) :
    Option MsgTransApp :=
  if getKeyId cmd.strAppData.bytes cmd.uCmdId = [] then none
  else some ⟨cmd.uCmdId.toUInt32.toInt32, t.uPos.toInt32, pullAddr, cmd.strAppData.bytes⟩

/-! ## Sending -/

/-- The loop of `FlushSendQueue`: the return value, the queue, the bytes accepted. -/
def flushLoop (app : AppData) :
    List WritevRet → List BufferSequence → Bytes → Option (Int × List BufferSequence × Bytes)
  | _, [], accepted => some (0, [], accepted)
  | rets, bs :: queue, accepted =>
      if bs.empty then flushLoop app rets queue accepted
      else
        match rets, bs.initIoVec app with
        | _, none => none
        | [], some _ => some (0, bs :: queue, accepted)
        | .again :: _, some _ => some (0, bs :: queue, accepted)
        | .fail :: _, some _ => some (-1, bs :: queue, accepted)
        | .wrote n :: rets, some vec =>
            let n := min (n + 1) vec.flatten.length
            if n = 0 then some (-2, bs :: queue, accepted)
            else if (bs.advance n).empty then
              flushLoop app rets queue (accepted ++ vec.flatten.take n)
            else flushLoop app rets (bs.advance n :: queue) (accepted ++ vec.flatten.take n)
  termination_by rets queue => rets.length + queue.length

/-- `FlushSendQueue`. -/
def flushSendQueue (rets : List WritevRet) (t : Task) (w : Wire) : Option (Int × Task × Wire) :=
  if t.isTerminate then some (-1, t, w)
  else do
    let (ret, sendQueue, accepted) ← flushLoop t.objCmd.strAppData rets t.sendQueue w.accepted
    let t := { t with sendQueue }
    some (ret, if ret = -1 then t.terminate else t, { w with accepted })

/-- `Response`. -/
def response (junk : UInt32) (rets : List WritevRet) (bs : BufferSequence) (t : Task) (w : Wire) :
    Option (Task × Wire) := do
  let (iErr, t, w) ← flushSendQueue rets { t with sendQueue := t.sendQueue ++ [bs] } w
  if iErr < 0 then some (t.terminate, w)
  else
    match t.sendQueue.getLast? with
    | none => some (t, w)
    | some back => do
        let back ← back.solidify t.objCmd.strAppData
        some ({ t with sendQueue := t.sendQueue.dropLast ++ [back] },
          epollMod junk (epollIn ||| epollOut) w)

/-- `OnMQRecv`. -/
def onMQRecv (junk : UInt32) (rets : List WritevRet) (msg : MsgTransApp) (t : Task) (w : Wire) :
    Option (Task × Wire) := do
  let objCmd := (t.objCmd.clear.setCmdId msg.cmdId.toUInt32.toUInt16).setAppData msg.appData
  let bs ← objCmd.serializeBs
  response junk rets bs { t with objCmd } w

/-- `WriteRemain`, which is what `OnSockWriteHdl` does. -/
def onSockWriteHdl (junk : UInt32) (rets : List WritevRet) (t : Task) (w : Wire) :
    Option (Task × Wire) := do
  let (iErr, t, w) ← flushSendQueue rets t w
  if iErr < 0 then some (t.terminate, w)
  else if t.sendQueue = [] then some (t, epollMod junk epollIn w)
  else some (t, w)

end Task

end LibC
