/-
LibC.Cluster.Cluster — proxies and servers together: `DoCmd` of
`bis/src/proxy/task.cpp` with `GetKeyId` of `bis/src/proxy/req_factor.cpp` and
`SendMsg` of `bis/src/proxy/mq_mgr.cpp`, in front of the servers of
`LibC.Server.Dispatch`.

Any number of proxies with one configuration of the servers send requests to any
number of servers. A request is in the queue of its server from the moment it
arrives there; nothing is said about how long it takes, or about requests that
get lost on the way. Each server goes round its own `OnProc`.

`history` is the record of which server has handled which message, and `sent` that
of the calls of `SendMsg` of all servers; nothing depends on them.

No `sorry`, no `axiom`, no `native_decide`.
-/
import LibC.Proxy.MqMgr
import LibC.Server.Dispatch

namespace LibC

open LibC.Lib

variable {α : Type}

/-! ## `req_factor` -/

/-- `GetKeyId`. -/
def MsgCodecs.getKeyId (c : MsgCodecs α) (str : Bytes) (cmd : Int32) : Bytes :=
  if cmd = BsCmd.msgGetScoreBatchReq then
    match c.getScoreBatchReq.parseFromString str with
    | none => []
    | some msg => msg.keyId
  else if cmd = BsCmd.msgSetBatchReq then
    match c.setBatchReq.parseFromString str with
    | none => []
    | some msg => msg.keyId
  else if cmd = BsCmd.msgTopQueryReq then
    match c.topQueryReq.parseFromString str with
    | none => []
    | some msg => msg.keyId
  else if cmd = BsCmd.msgRangeQueryReq then
    match c.rangeQueryReq.parseFromString str with
    | none => []
    | some msg => msg.keyId
  else if cmd = BsCmd.msgRangeByScoreQueryReq then
    match c.rangeByScoreQueryReq.parseFromString str with
    | none => []
    | some msg => msg.keyId
  else if cmd = BsCmd.msgRankBatchQueryReq then
    match c.rankBatchQueryReq.parseFromString str with
    | none => []
    | some msg => msg.keyId
  else []

/-! ## The cluster -/

/-- What the proxies and the servers are configured with. -/
structure ClusterConfig (α : Type) [LinearOrder α] [Neg α] [One α] where
  codecs : MsgCodecs α
  toScore : ToScore α
  bucketNum : ℤ
  mgr : MqMgr

/-- The servers, by the number of the socket that leads to them. -/
structure Cluster (α : Type) where
  servers : Nat → MsgLoop α
  history : List (Nat × Bytes)
  sent : List (Bytes × MsgTransApp)

namespace Cluster

/-- All servers have started, without data. -/
def init : Cluster α := ⟨fun _ => MsgLoop.init Db.new, [], []⟩

/-- What happens: `DoCmd` for a command that some proxy with the address `pullAddr` has
received from `task`, with what `zmq_msg_send` answers; or the main loop of a server calls
`OnProc`. -/
inductive Event (α : Type) where
  | doCmd (task : Task) (pullAddr : Bytes) (cmd : Cmd) (sendOk : Bool)
  | onProc (k : Nat) (env : Nat → MsgEnv α)

variable [LinearOrder α] [Neg α] [One α]

/-- The message of `DoCmd`, with the key it is sent by. -/
def message (cfg : ClusterConfig α) (task : Task) (pullAddr : Bytes) (cmd : Cmd) :
    Option (Bytes × MsgTransApp) :=
  let getKeyId := fun str (cmd : UInt16) => cfg.codecs.getKeyId str cmd.toUInt32.toInt32
  (task.doCmd getKeyId pullAddr cmd).map fun msg =>
    (getKeyId cmd.strAppData.bytes cmd.uCmdId, msg)

/-- `DoCmd`, up to the queue of the server. -/
def doCmd [Zero α] (cfg : ClusterConfig α) (task : Task) (pullAddr : Bytes) (cmd : Cmd)
    (sendOk : Bool) (s : Cluster α) : Option (Cluster α) :=
  match message cfg task pullAddr cmd with
  | none => some s
  | some (key, msg) => do
      match ← cfg.mgr.sendTo cfg.bucketNum key with
      | none => some s
      | some k =>
          if sendOk then do
            let server ← MsgLoop.step cfg.codecs cfg.toScore
              (.arrive (cfg.codecs.transApp.serializeAsString msg)) (s.servers k)
            some { s with servers := Function.update s.servers k server }
          else some s

/-- `OnProc` of a server. -/
def onProc [Zero α] (cfg : ClusterConfig α) (k : Nat) (env : Nat → MsgEnv α) (s : Cluster α) :
    Option (Cluster α) := do
  let server ← MsgLoop.step cfg.codecs cfg.toScore (.onProc env) (s.servers k)
  some {
    servers := Function.update s.servers k server
    history := s.history ++
      (server.handled.drop (s.servers k).handled.length).map fun m => (k, m)
    sent := s.sent ++ server.sent.drop (s.servers k).sent.length }

/-- The cluster after an event; `none` is a fault. -/
def step [Zero α] (cfg : ClusterConfig α) : Event α → Cluster α → Option (Cluster α)
  | .doCmd task pullAddr cmd sendOk, s => doCmd cfg task pullAddr cmd sendOk s
  | .onProc k env, s => onProc cfg k env s

end Cluster

end LibC
