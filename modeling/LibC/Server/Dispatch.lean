/-
LibC.Server.Dispatch — the message loop of `bis/src/server/server.cpp`.

`ProcessMQRecv` takes up to ten messages from the queue and handles them in
order. `ProcessMQMsg` parses the envelope, picks a handler by `cmd_id`, and the
handler parses its request, works on the database and answers with `Respone`.
Each handler begins with its `Parse` and ends with its `Respone`, so the two
stand in `ProcessMQMsg` here, and `Req` and `Rsp` are what lies between. The
message that `Respone` sends is `responseMsg`, of `LibC.Proxy.Routing`.

`MsgEnv` is what the environment decides while one message is handled. `MsgLoop`
is the database and the queues, with a record of the messages handled so far and
of the calls of `SendMsg`; nothing depends on the record.

No `sorry`, no `axiom`, no `native_decide`.
-/
import LibC.Proxy.Routing
import LibC.Server.MqMgr
import LibC.Server.RankHandlers

namespace LibC

open LibC.Lib

variable {α : Type}

/-! ## `BS_CMD`, as far as the server handles it -/

namespace BsCmd

/-- `MSG_SET_BATCH_REQ`. -/
def msgSetBatchReq : Int32 := 0x1003

/-- `MSG_GET_SCORE_BATCH_REQ`. -/
def msgGetScoreBatchReq : Int32 := 0x1007

/-- `MSG_RANK_BATCH_QUERY_REQ`. -/
def msgRankBatchQueryReq : Int32 := 0x1011

/-- `MSG_RANGE_QUERY_REQ`. -/
def msgRangeQueryReq : Int32 := 0x1013

/-- `MSG_RANGEBYSCORE_QUERY_REQ`. -/
def msgRangeByScoreQueryReq : Int32 := 0x1015

/-- `MSG_TOP_QUERY_REQ`. -/
def msgTopQueryReq : Int32 := 0x1017

end BsCmd

/-! ## Requests and responses -/

/-- The message types of the protocol. -/
structure MsgCodecs (α : Type) where
  transApp : Codec MsgTransApp
  setBatchReq : Codec (MsgSetBatchReq α)
  setBatchRsp : Codec MsgSetBatchRsp
  getScoreBatchReq : Codec MsgGetScoreBatchReq
  getScoreBatchRsp : Codec (MsgGetScoreBatchRsp α)
  rankBatchQueryReq : Codec MsgRankBatchQueryReq
  rankBatchQueryRsp : Codec (MsgRankBatchQueryRsp α)
  rangeQueryReq : Codec MsgRangeQueryReq
  rangeQueryRsp : Codec (MsgRangeQueryRsp α)
  rangeByScoreQueryReq : Codec MsgRangeQueryReq
  rangeByScoreQueryRsp : Codec (MsgRangeQueryRsp α)
  topQueryReq : Codec MsgTopQueryReq
  topQueryRsp : Codec (MsgTopQueryRsp α)

/-- A request that has been parsed. -/
inductive Req (α : Type) where
  | setBatch (req : MsgSetBatchReq α)
  | getScoreBatch (req : MsgGetScoreBatchReq)
  | rankBatchQuery (req : MsgRankBatchQueryReq)
  | rangeQuery (req : MsgRangeQueryReq)
  | rangeByScoreQuery (req : MsgRangeQueryReq)
  | topQuery (req : MsgTopQueryReq)

/-- A response. -/
inductive Rsp (α : Type) where
  | setBatch (rsp : MsgSetBatchRsp)
  | getScoreBatch (rsp : MsgGetScoreBatchRsp α)
  | rankBatchQuery (rsp : MsgRankBatchQueryRsp α)
  | rangeQuery (rsp : MsgRangeQueryRsp α)
  | rangeByScoreQuery (rsp : MsgRangeQueryRsp α)
  | topQuery (rsp : MsgTopQueryRsp α)

/-- The `switch` over `cmd_id`, and `Parse` of the handler it selects: `none` when there
is no such command, or when the request does not parse. -/
def MsgCodecs.parse (c : MsgCodecs α) (transApp : MsgTransApp) : Option (Req α) :=
  if transApp.cmdId = BsCmd.msgSetBatchReq then
    (c.setBatchReq.parseFromString transApp.appData).map .setBatch
  else if transApp.cmdId = BsCmd.msgGetScoreBatchReq then
    (c.getScoreBatchReq.parseFromString transApp.appData).map .getScoreBatch
  else if transApp.cmdId = BsCmd.msgRankBatchQueryReq then
    (c.rankBatchQueryReq.parseFromString transApp.appData).map .rankBatchQuery
  else if transApp.cmdId = BsCmd.msgRangeQueryReq then
    (c.rangeQueryReq.parseFromString transApp.appData).map .rangeQuery
  else if transApp.cmdId = BsCmd.msgRangeByScoreQueryReq then
    (c.rangeByScoreQueryReq.parseFromString transApp.appData).map .rangeByScoreQuery
  else if transApp.cmdId = BsCmd.msgTopQueryReq then
    (c.topQueryReq.parseFromString transApp.appData).map .topQuery
  else none

/-- `SerializeAsString` of a response. -/
def MsgCodecs.serialize (c : MsgCodecs α) : Rsp α → Bytes
  | .setBatch rsp => c.setBatchRsp.serializeAsString rsp
  | .getScoreBatch rsp => c.getScoreBatchRsp.serializeAsString rsp
  | .rankBatchQuery rsp => c.rankBatchQueryRsp.serializeAsString rsp
  | .rangeQuery rsp => c.rangeQueryRsp.serializeAsString rsp
  | .rangeByScoreQuery rsp => c.rangeByScoreQueryRsp.serializeAsString rsp
  | .topQuery rsp => c.topQueryRsp.serializeAsString rsp

/-! ## One message -/

/-- What the environment decides while a message is handled: the heights of the nodes
that are made, what a variable holds that is not set, and what the queues answer. -/
structure MsgEnv (α : Type) where
  heights : Nat → Lvl
  junk : α
  conn : ConnRet
  sendOk : Bool

variable [LinearOrder α] [Neg α] [One α] [Zero α]

/-- The handler of a request, between its `Parse` and its `Respone`. -/
def handle (toScore : ToScore α) (env : MsgEnv α) : Req α → Db α → Option (Rsp α × Db α)
  | .setBatch req, d => (processDbSet env.heights req d).map fun r => (.setBatch r.1, r.2)
  | .getScoreBatch req, d =>
      let (rsp, d) := processDbGetScore req d
      some (.getScoreBatch rsp, d)
  | .rankBatchQuery req, d =>
      (processDbRankQuery env.junk req d).map fun r => (.rankBatchQuery r.1, r.2)
  | .rangeQuery req, d => (processDbRangeByRank req d).map fun r => (.rangeQuery r.1, r.2)
  | .rangeByScoreQuery req, d =>
      (processDbRangeByScore toScore req d).map fun r => (.rangeByScoreQuery r.1, r.2)
  | .topQuery req, d => (processDbTopQuery req d).map fun r => (.topQuery r.1, r.2)

/-- The server: the database and the queues; the messages handled so far, and the calls of
`SendMsg` with their destinations. -/
structure MsgLoop (α : Type) where
  db : Db α
  mq : SvrMqMgr
  handled : List Bytes
  sent : List (Bytes × MsgTransApp)

namespace MsgLoop

/-- The server after `OnInit`, with the database that was loaded. -/
def init (db : Db α) : MsgLoop α := ⟨db, (SvrMqMgr.new.init .ok).2, [], []⟩

/-- `Respone`. -/
def respond (c : MsgCodecs α) (env : MsgEnv α) (transApp : MsgTransApp) (rsp : Rsp α)
    (s : MsgLoop α) : MsgLoop α :=
  let msg := World.responseMsg transApp (c.serialize rsp)
  { s with
    mq := (s.mq.sendMsg env.conn env.sendOk transApp.src (c.transApp.serializeAsString msg)).2
    sent := s.sent ++ [(transApp.src, msg)] }

/-- `ProcessMQMsg`. -/
def processMQMsg (c : MsgCodecs α) (toScore : ToScore α) (env : MsgEnv α) (data : Bytes)
    (s : MsgLoop α) : Option (MsgLoop α) :=
  let s := { s with handled := s.handled ++ [data] }
  match c.transApp.parseFromString data with
  | none => some s
  | some transApp =>
      match c.parse transApp with
      | none => some s
      | some req => do
          let (rsp, db) ← handle toScore env req s.db
          some ({ s with db }.respond c env transApp rsp)

/-! ## The loop -/

/-- The loop of `ProcessMQRecv`, from the `i`-th message on. -/
def processMsgs (c : MsgCodecs α) (toScore : ToScore α) (env : Nat → MsgEnv α) :
    Nat → List Bytes → MsgLoop α → Option (MsgLoop α)
  | _, [], s => some s
  | i, m :: rest, s => do
      let s ← s.processMQMsg c toScore (env i) m
      processMsgs c toScore env (i + 1) rest s

/-- `ProcessMQRecv`, which is what `OnProc` does: `-1` when no message was received. -/
def processMQRecv (c : MsgCodecs α) (toScore : ToScore α) (env : Nat → MsgEnv α) (s : MsgLoop α) :
    Option (Int × MsgLoop α) := do
  let (msgs, mq) := s.mq.recvMsgs 10
  if msgs = [] then some (-1, { s with mq })
  else do
    let s ← processMsgs c toScore env 0 msgs { s with mq }
    some (0, s)

/-- What happens to the server: a message arrives, or the main loop calls `OnProc`. -/
inductive Event (α : Type) where
  | arrive (msg : Bytes)
  | onProc (env : Nat → MsgEnv α)

/-- The server after it. -/
def step (c : MsgCodecs α) (toScore : ToScore α) : Event α → MsgLoop α → Option (MsgLoop α)
  | .arrive msg, s => some { s with mq := { s.mq with pull := s.mq.pull ++ [msg] } }
  | .onProc env, s => (s.processMQRecv c toScore env).map Prod.snd

end MsgLoop

end LibC
