/-
LibC.Server.MqMgr — the queues of the server: `mq_mgr` of `bis/src/server/mq_mgr.cpp`.

The server has one PULL socket, on which the messages of all proxies arrive, and
a PUSH socket for each address it has answered to, made when the first answer
goes there and kept in `objPushSks`. The library numbers the contexts
(`contexts`) and the sockets (`next`) that it makes; `opened` are the sockets
that are open, `home` is the context a socket was made in, `peer` the address it
was connected to, and `out` what was put on which socket, in order.

What the library answers is up to the environment: `InitRet` for the three calls
of `Init`, `ConnRet` for the two that make a connection, a Boolean for
`zmq_msg_send`. `zmq_connect` takes a C string. On a null pointer each call of the
library fails and does nothing. `zmq_ctx_destroy` waits until every socket of the
context is closed and what was put on them has gone out: `closeAll` answers `none`
where it waits for ever.

No `sorry`, no `axiom`, no `native_decide`.
-/
import LibC.Lib.Dict
import LibC.Server.Handlers

namespace LibC

open LibC.Lib

/-- What `zmq_socket` and `zmq_connect` do: no socket, no connection, or both. -/
inductive ConnRet where
  | noSocket
  | refused
  | ok
  deriving DecidableEq

/-- What `zmq_ctx_new`, `zmq_socket` and `zmq_bind` do: no context, no socket, a socket without
the address, or one that has it. -/
inductive InitRet where
  | noContext
  | noSocket
  | refused
  | ok
  deriving DecidableEq

/-- `mq_mgr` of the server, and what it has done with its sockets. -/
structure SvrMqMgr where
  vpContext : Option Nat
  vpPullSk : Option Nat
  pull : List Bytes
  objPushSks : Dict Bytes Nat
  contexts : Nat
  next : Nat
  opened : List Nat
  home : Nat → Nat
  peer : Nat → Option Bytes
  out : List (Nat × Bytes)

namespace SvrMqMgr

/-- `mq_mgr()`. -/
def new : SvrMqMgr :=
  ⟨none, none, [], Dict.empty, 0, 0, [], fun _ => 0, fun _ => none, []⟩

/-- A context and a PULL socket in it. Those of an earlier `Init` are forgotten, not closed. -/
def openPull (mq : SvrMqMgr) : SvrMqMgr :=
  { mq with
    vpContext := some mq.contexts
    vpPullSk := some mq.next
    pull := []
    contexts := mq.contexts + 1
    next := mq.next + 1
    opened := mq.opened ++ [mq.next]
    home := Function.update mq.home mq.next mq.contexts }

/-- `Init`. -/
def init (ret : InitRet) (mq : SvrMqMgr) : Int × SvrMqMgr :=
  match ret with
  | .noContext => (-1, { mq with vpContext := none, vpPullSk := none, pull := [] })
  | .noSocket => (-1, { mq with
      vpContext := some mq.contexts
      vpPullSk := none
      pull := []
      contexts := mq.contexts + 1 })
  | .refused => (-1, mq.openPull)
  | .ok => (0, mq.openPull)

/-- There is a context, and the PULL socket. -/
def up (mq : SvrMqMgr) : Bool := mq.vpContext.isSome && mq.vpPullSk.isSome

/-! ## Sending -/

/-- `FindConn`. -/
def findConn (dest : Bytes) (mq : SvrMqMgr) : Option Nat := mq.objPushSks.find dest

/-- `AddDestConn`; `none` is a null pointer. A socket that cannot be connected is not
closed. -/
def addDestConn (conn : ConnRet) (dest : Bytes) (mq : SvrMqMgr) : Option Nat × SvrMqMgr :=
  match mq.vpContext with
  | none => (none, mq)
  | some ctx =>
      let made := { mq with
        next := mq.next + 1
        opened := mq.opened ++ [mq.next]
        home := Function.update mq.home mq.next ctx }
      match conn with
      | .noSocket => (none, mq)
      | .refused => (none, made)
      | .ok =>
          (some mq.next, { made with
            objPushSks := mq.objPushSks.insert dest mq.next
            peer := Function.update mq.peer mq.next (some (cString dest)) })

/-- `SendMsg` of a message that serializes to `data`; `zmq_msg_send` answers its length. -/
def sendMsg (conn : ConnRet) (sendOk : Bool) (dest data : Bytes) (mq : SvrMqMgr) :
    Int × SvrMqMgr :=
  let (pushSk, mq) := match mq.findConn dest with
    | some sk => (some sk, mq)
    | none => mq.addDestConn conn dest
  match pushSk with
  | none => (-1, mq)
  | some sk =>
      if sendOk then (toInt data.length, { mq with out := mq.out ++ [(sk, data)] })
      else (-1, mq)

/-! ## Receiving -/

/-- `RecvMsg`: the length of the message, as an `int`, and `0` when there is none. -/
def recvMsg (mq : SvrMqMgr) : Int × Bytes × SvrMqMgr :=
  if mq.vpPullSk = none then (0, [], mq)
  else
    match mq.pull with
    | [] => (0, [], mq)
    | m :: rest => (toInt m.length, m, { mq with pull := rest })

/-- `RecvMsgs` with a bound. A message whose length is not positive is taken and dropped,
and ends the loop. -/
def recvMsgs : Nat → SvrMqMgr → List Bytes × SvrMqMgr
  | 0, mq => ([], mq)
  | cnt + 1, mq =>
      let (n, m, mq) := mq.recvMsg
      if n ≤ 0 then ([], mq)
      else
        let (msgs, mq) := recvMsgs cnt mq
        (m :: msgs, mq)

/-! ## Closing -/

/-- `RemvConn`. -/
def remvConn (dest : Bytes) (mq : SvrMqMgr) : Int × SvrMqMgr :=
  match mq.objPushSks.find dest with
  | none => (-1, mq)
  | some sk =>
      (0, { mq with objPushSks := mq.objPushSks.erase dest, opened := mq.opened.erase sk })

/-- The sockets that `CloseAll` leaves open. -/
def left (mq : SvrMqMgr) : List Nat :=
  (mq.opened.diff mq.vpPullSk.toList).diff (mq.objPushSks.entries.map Prod.snd)

/-- `CloseAll`, when what was sent goes out (`flushed`) or not. -/
def closeAll (flushed : Bool) (mq : SvrMqMgr) : Option SvrMqMgr :=
  let closed := { mq with
    vpContext := none
    vpPullSk := none
    pull := []
    objPushSks := Dict.empty
    opened := mq.left }
  match mq.vpContext with
  | none => some closed
  | some ctx => if flushed ∧ ∀ sk ∈ mq.left, mq.home sk ≠ ctx then some closed else none

/-! ## Runs -/

/-- A call, or a message that arrives. A message to be sent is what `SerializeAsString` makes. -/
inductive Op where
  | init (ret : InitRet)
  | arrive (msg : Bytes)
  | sendMsg (conn : ConnRet) (sendOk : Bool) (dest : Bytes)
      (data : { b : Bytes // b.length < 2 ^ 31 })
  | recvMsgs (n : Nat)
  | remvConn (dest : Bytes)
  | closeAll (flushed : Bool)

/-- The queues after it. -/
def step : Op → SvrMqMgr → Option SvrMqMgr
  | .init ret, mq => some (mq.init ret).2
  | .arrive msg, mq => some { mq with pull := mq.pull ++ [msg] }
  | .sendMsg conn sendOk dest data, mq => some (mq.sendMsg conn sendOk dest data.val).2
  | .recvMsgs n, mq => some (mq.recvMsgs n).2
  | .remvConn dest, mq => some (mq.remvConn dest).2
  | .closeAll flushed, mq => mq.closeAll flushed

end SvrMqMgr

end LibC
