/-
LibC.Proxy.Routing — the proxy, its back-end servers and the messages between
them: `Server` of `bis/src/proxy/server.cpp`, and `Respone` of
`bis/src/server/server.cpp`.

A `World` is what there is at one moment; an `Event` is one thing that happens,
with everything that the outside decides about it. A message in flight can be
picked up at any time, in any order, or get lost. A back-end server handles one
request at a time, in `transApp`; several of them run side by side.

The numbers of connections and requests (`Conn.id`, `Tag`) and the lists
`forwarded` and `enqueued` are a record of what happened. No decision depends on
them.

No `sorry`, no `axiom`, no `native_decide`.
-/
import LibC.Lib.Dict
import LibC.Lib.Run
import LibC.Proxy.Task

namespace LibC

open LibC.Lib

/-! ## The state -/

/-- A request: the connection it was read from, and its number. -/
structure Tag where
  conn : Nat
  req : Nat
  deriving DecidableEq

/-- A message in flight, with the request it is or answers. -/
structure Flight where
  tag : Tag
  msg : MsgTransApp

/-- A connection in `objTaskMap`; `id` counts the accepted ones. -/
structure Conn where
  id : Nat
  task : Task
  wire : Wire

/-- A back-end server: `transApp`, and the request it is handling. -/
structure Backend where
  transApp : MsgTransApp
  handling : Option Tag

/-- The proxy, the servers, and the messages in flight. -/
structure World where
  iPosCnt : UInt32
  objTaskMap : Dict UInt32 Conn
  backends : Nat → Backend
  toBackends : List Flight
  toProxy : List Flight
  accepted : Nat
  forwarded : List Tag
  enqueued : List (Nat × Tag)

/-- What the proxy is configured with, and `req_factor::GetKeyId`. -/
structure Config where
  getKeyId : Bytes → UInt16 → Bytes
  pullAddr : Bytes

namespace World

/-- The beginning. -/
def init : World where
  iPosCnt := 0
  objTaskMap := Dict.empty
  backends _ := ⟨⟨0, 0, [], []⟩, none⟩
  toBackends := []
  toProxy := []
  accepted := 0
  forwarded := []
  enqueued := []

/-! ## The proxy -/

/-- `LISTEN_TASK_POS`. -/
def listenTaskPos : UInt32 := 0

/-- `cpos` of `AcceptTask`. -/
def nextPos (iPosCnt : UInt32) : UInt32 :=
  if iPosCnt + 1 = listenTaskPos then iPosCnt + 1 + 1 else iPosCnt + 1

/-- What becomes of an accepted socket: it is registered, or one of the calls on it
fails. -/
inductive AcceptRet where
  | ok (fd : Int) (mask : UInt32)
  | fail

/-- A round of the loop of `AcceptTask`. -/
def acceptTask (ret : AcceptRet) (w : World) : World :=
  let cpos := nextPos w.iPosCnt
  let id := w.accepted
  let w := { w with iPosCnt := cpos, accepted := w.accepted + 1 }
  match ret with
  | .ok fd mask =>
      { w with objTaskMap := w.objTaskMap.insert cpos ⟨id, Task.new cpos fd, ⟨[], mask⟩⟩ }
  | .fail => w

/-- `FindTask`. -/
def findTask (pos : UInt32) (w : World) : Option Conn := w.objTaskMap.find pos

/-- `RemoveTask`. -/
def removeTask (pos : UInt32) (w : World) : World :=
  { w with objTaskMap := w.objTaskMap.erase pos }

/-- The task behind a pointer has changed, which shows in the map while it is there. -/
def putTask (pos : UInt32) (conn : Conn) (w : World) : World :=
  { w with objTaskMap := w.objTaskMap.modify pos fun _ => conn }

/-- The end of a handler in `HldAllEvs`. -/
def settle (pos : UInt32) (conn : Conn) (w : World) : World :=
  if conn.task.isTerminate then removeTask pos w else putTask pos conn w

/-- `DoCmd`, for the commands of a handler; `sent` says which messages the queue takes. -/
def doCmds (cfg : Config) (conn : Conn) : List Cmd → List Bool → World → World
  | [], _, w => w
  | cmd :: cmds, sent, w =>
      match conn.task.doCmd cfg.getKeyId cfg.pullAddr cmd with
      | none => doCmds cfg conn cmds sent w
      | some msg =>
          if sent.headD false then
            let tag := ⟨conn.id, w.forwarded.length⟩
            doCmds cfg conn cmds sent.tail
              { w with
                toBackends := w.toBackends ++ [⟨tag, msg⟩]
                forwarded := w.forwarded ++ [tag] }
          else doCmds cfg conn cmds sent.tail w

/-- A message that is received, and what the socket it is for answers. -/
structure Pick where
  index : Nat
  junk : UInt32
  rets : List WritevRet

/-- The body of the loop of `OnMqRecv`. -/
def deliver (p : Pick) (f : Flight) (w : World) : Option World :=
  let pos := f.msg.clientPos.toUInt32
  match findTask pos w with
  | none => some w
  | some conn => do
      let (task, wire) ← conn.task.onMQRecv p.junk p.rets f.msg conn.wire
      some { putTask pos { conn with task, wire } w with
        enqueued := w.enqueued ++ [(conn.id, f.tag)] }

/-- `OnMqRecv`. -/
def onMqRecv : List Pick → World → Option World
  | [], w => some w
  | p :: picks, w =>
      match w.toProxy[p.index]? with
      | none => onMqRecv picks w
      | some f => do
          let w ← deliver p f { w with toProxy := w.toProxy.eraseIdx p.index }
          onMqRecv picks w

/-- The events of one descriptor: writable, with what the socket answers; readable, with
what the socket and the queue answer and the messages received after it; an error. -/
structure EpollEv where
  out : Option (UInt32 × List WritevRet)
  inp : Option (List RecvRet × List Bool × List Pick)
  err : Bool

/-- `OnSockWriteHdl` in `HldAllEvs`. -/
def hldOut (pos : UInt32) (conn : Conn) (w : World) :
    Option (UInt32 × List WritevRet) → Option (Conn × World)
  | none => some (conn, w)
  | some (junk, rets) => do
      let (task, wire) ← conn.task.onSockWriteHdl junk rets conn.wire
      let conn := { conn with task, wire }
      some (conn, settle pos conn w)

/-- `OnSockReadHdl` in `HldAllEvs`, and `OnMqRecv` after it. -/
def hldIn (cfg : Config) (pos : UInt32) (conn : Conn) (w : World) :
    Option (List RecvRet × List Bool × List Pick) → Option World
  | none => some w
  | some (rets, sent, picks) =>
      let (task, cmds) := conn.task.onSockReadHdl rets
      onMqRecv picks (settle pos { conn with task } (doCmds cfg conn cmds sent w))

/-- A round of the loop of `HldAllEvs`, for the descriptor of a connection. -/
def hldEv (cfg : Config) (pos : UInt32) (ev : EpollEv) (w : World) : Option World :=
  match findTask pos w with
  | none => some w
  | some conn => do
      let (conn, w) ← hldOut pos conn w ev.out
      let w ← hldIn cfg pos conn w ev.inp
      some (if ev.err then removeTask pos w else w)

/-! ## The back-end servers -/

/-- `ProcessMQMsg` of server `k`: the request becomes `transApp`. -/
def processMQMsg (k index : Nat) (w : World) : World :=
  match w.toBackends[index]? with
  | none => w
  | some f =>
      { w with
        toBackends := w.toBackends.eraseIdx index
        backends := Function.update w.backends k ⟨f.msg, some f.tag⟩ }

/-- The message of `Respone`. -/
def responseMsg (transApp : MsgTransApp) (data : Bytes) : MsgTransApp :=
  ⟨0, transApp.clientPos, [], data⟩

/-- `Respone` of server `k`, once for a request. -/
def respone (k : Nat) (data : Bytes) (w : World) : World :=
  let b := w.backends k
  match b.handling with
  | none => w
  | some tag =>
      { w with
        toProxy := w.toProxy ++ [⟨tag, responseMsg b.transApp data⟩]
        backends := Function.update w.backends k { b with handling := none } }

/-! ## Events -/

/-- What can happen. -/
inductive Event where
  | accept (ret : AcceptRet)
  | epoll (pos : UInt32) (ev : EpollEv)
  | mqRecv (picks : List Pick)
  | request (k index : Nat)
  | respone (k : Nat) (data : Bytes)
  | loseRequest (index : Nat)
  | loseResponse (index : Nat)

/-- The world after it; `none` is a fault. -/
def step (cfg : Config) : Event → World → Option World
  | .accept ret, w => some (acceptTask ret w)
  | .epoll pos ev, w => hldEv cfg pos ev w
  | .mqRecv picks, w => onMqRecv picks w
  | .request k index, w => some (processMQMsg k index w)
  | .respone k data, w => some (World.respone k data w)
  | .loseRequest index, w => some { w with toBackends := w.toBackends.eraseIdx index }
  | .loseResponse index, w => some { w with toProxy := w.toProxy.eraseIdx index }

/-! ## The main loop -/

/-- What happens while `HldAllEvs` handles the descriptors that are ready. -/
def Event.meanwhile : Event → Bool
  | .mqRecv _ => false
  | _ => true

/-- An iteration of the loop of `Run`: the descriptors that `HldAllEvs` handles, in turn,
with what the servers and the network do in between, and the messages that `OnMqRecv`
receives in the end. -/
structure Iteration where
  evs : { evs : List Event // ∀ ev ∈ evs, ev.meanwhile = true }
  picks : List Pick

/-- The world after an iteration. -/
def iterate (cfg : Config) (it : Iteration) (w : World) : Option World := do
  let w ← run (step cfg) it.evs.val w
  onMqRecv it.picks w

end World

end LibC
