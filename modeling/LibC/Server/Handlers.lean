/-
LibC.Server.Handlers — the request handlers of `bis/src/server/server.cpp`.

A handler is taken from the request that `Parse` has read to the response that
`Respone` sends; a request that does not parse is dropped before the handler
touches anything. `heights` are the heights drawn while the request is handled:
`heights i` for its `i`-th member.

The fields that the wire format declares as `bytes` are `std::string`s, which
carry their length. `data()` of such a string is a C string, and whatever is
made from it ends before the first zero byte: `cString`.

No `sorry`, no `axiom`, no `native_decide`.
-/
import LibC.Server.Db
import LibC.SkipList.Query

namespace LibC

open LibC.Lib

variable {α : Type}

/-! ## Messages -/

/-- `MsgSetMemData`. -/
structure MsgSetMemData (α : Type) where
  score : α
  data : Bytes
  deriving DecidableEq

/-- `MsgSetBatchReq`. -/
structure MsgSetBatchReq (α : Type) where
  keyId : Bytes
  dataList : List (MsgSetMemData α)

/-- `MsgSetBatchRsp`. -/
structure MsgSetBatchRsp where
  ret : Int
  err : Bytes
  succNum : Int

/-- `MsgGetScoreBatchReq`. -/
structure MsgGetScoreBatchReq where
  keyId : Bytes
  memDataList : List Bytes

/-- `MsgGetScoreBatchRsp`. -/
structure MsgGetScoreBatchRsp (α : Type) where
  ret : Int
  err : Bytes
  memDataList : List (MsgSetMemData α)

/-- The string made from `data()`, a `const char *`. -/
def cString (b : Bytes) : Bytes := b.takeWhile (· ≠ 0)

/-! ## `db` -/

/-- `GetMemScore`: `none` when it answers `false`. -/
def Db.getMemScore (key data : Bytes) (d : Db α) : Option α × Db α :=
  match d.dbDict.find key with
  | none => (none, { d with strErr := "Key is not exist!" })
  | some sset =>
      match sset.getMemScore data with
      | none => (none, { d with strErr := "Data is not exist!" })
      | some score => (some score, { d with strErr := "" })

/-! ## `ProcessDbSet` -/

/-- The loop of `ProcessDbSet`, from the `i`-th member on. -/
def setLoop [LinearOrder α] [Neg α] [One α] (heights : Nat → Lvl) (key : Bytes) :
    Nat → List (MsgSetMemData α) → MsgSetBatchRsp → Db α → Option (MsgSetBatchRsp × Db α)
  | _, [], rsp, d => some (rsp, d)
  | i, x :: rest, rsp, d => do
      let (ok, d) ← d.insert (heights i) key x.score x.data
      let rsp := if ok then { rsp with succNum := rsp.succNum + 1 } else rsp
      setLoop heights key (i + 1) rest rsp d

/-- `ProcessDbSet`. -/
def processDbSet [LinearOrder α] [Neg α] [One α] (heights : Nat → Lvl) (req : MsgSetBatchReq α)
    (d : Db α) : Option (MsgSetBatchRsp × Db α) := do
  let (rsp, d) ← setLoop heights req.keyId 0 req.dataList ⟨0, [], 0⟩ d
  some ({ rsp with ret := 0 }, d)

/-! ## `ProcessDbGetScore` -/

/-- The loop of `ProcessDbGetScore`. The member is looked up, and written into the
response, through `data()`; the score of an item is `0` until it is set. -/
def getScoreLoop [Zero α] (key : Bytes) :
    List Bytes → List (MsgSetMemData α) → Db α → List (MsgSetMemData α) × Db α
  | [], items, d => (items, d)
  | m :: rest, items, d =>
      match d.getMemScore key (cString m) with
      | (none, d) => getScoreLoop key rest (items ++ [⟨0, ascii "No Find!"⟩]) d
      | (some score, d) => getScoreLoop key rest (items ++ [⟨score, cString m⟩]) d

/-- `ProcessDbGetScore`. -/
def processDbGetScore [Zero α] (req : MsgGetScoreBatchReq) (d : Db α) :
    MsgGetScoreBatchRsp α × Db α :=
  let (items, d) := getScoreLoop req.keyId req.memDataList [] d
  (⟨0, ascii "Succ.", items⟩, d)

end LibC
