/-
LibC.Server.RankHandlers — the queries for single ranks of `bis/src/server/server.cpp`.

`ProcessDbRankQuery` asks for the ranks of members, `ProcessDbTopQuery` for the
member at a rank. Both hand the strings of the request on as they are, with
their length, where `ProcessDbGetScore` goes through `data()`.

`none` stands for a null pointer that is dereferenced: `GetMemByRank` compares
with the `end()` of the table, which reads `tail_`.

No `sorry`, no `axiom`, no `native_decide`.
-/
import LibC.Server.RangeHandlers

namespace LibC

open LibC.Lib

variable {α : Type}

/-! ## Messages -/

/-- `MsgRankBatchQueryReq`. -/
structure MsgRankBatchQueryReq where
  keyId : Bytes
  memInfoList : List Bytes

/-- `MsgRankBatchQueryRsp`. -/
structure MsgRankBatchQueryRsp (α : Type) where
  ret : Int
  err : Bytes
  rankInfo : List (MsgRankInfo α)
  deriving DecidableEq

/-- `MsgTopQueryReq`. -/
structure MsgTopQueryReq where
  keyId : Bytes
  top : UInt64

/-- `MsgTopQueryRsp`. -/
structure MsgTopQueryRsp (α : Type) where
  ret : Int
  err : Bytes
  memData : Option (MsgSetMemData α)
  deriving DecidableEq

/-! ## `db` -/

/-- `GetMemByRank`. -/
def Db.getMemByRank [LinearOrder α] (key : Bytes) (rank : UInt64) (d : Db α) :
    Option (SkipList.Itr × Db α) :=
  match d.dbDict.find key with
  | none => some (Db.endItr, { d with strErr := "Key is not exist!" })
  | some sset => do
      let itr ← sset.getMemByRank rank
      let e ← sset.endItr
      if itr.pos = e.pos then some (Db.endItr, { d with strErr := "Data is not exist" })
      else some (itr, { d with strErr := "" })

/-! ## `ProcessDbRankQuery` -/

/-- The loop of `ProcessDbRankQuery`. The score of a member that has a rank is looked up
after it; a lookup that fails would leave the variable as it was, that is not set. -/
def rankQueryLoop [LinearOrder α] [Zero α] (key : Bytes) (junk : α) :
    List Bytes → List (MsgRankInfo α) → Db α → Option (List (MsgRankInfo α) × Db α)
  | [], items, d => some (items, d)
  | m :: rest, items, d => do
      let (rank, d) ← d.getMemRank key m
      match rank with
      | none => rankQueryLoop key junk rest (items ++ [⟨0, 0, ascii "No Find!"⟩]) d
      | some rank =>
          let (score, d) := d.getMemScore key m
          rankQueryLoop key junk rest (items ++ [⟨rank, score.getD junk, m⟩]) d

/-- `ProcessDbRankQuery`. -/
def processDbRankQuery [LinearOrder α] [Zero α] (junk : α) (req : MsgRankBatchQueryReq)
    (d : Db α) : Option (MsgRankBatchQueryRsp α × Db α) := do
  let (items, d) ← rankQueryLoop req.keyId junk req.memInfoList [] d
  some (⟨0, ascii "Succ.", items⟩, d)

/-! ## `ProcessDbTopQuery` -/

/-- `ProcessDbTopQuery`. -/
def processDbTopQuery [LinearOrder α] (req : MsgTopQueryReq) (d : Db α) :
    Option (MsgTopQueryRsp α × Db α) := do
  let (itr, d) ← d.getMemByRank req.keyId req.top
  if itr.pos = Db.endItr.pos then some (⟨MsgRet.fail.toInt, ascii d.strErr, none⟩, d)
  else do
    let p ← itr.pos
    let nd ← (d.nodesOf req.keyId).get p
    some (⟨MsgRet.success.toInt, [], some ⟨nd.score, nd.val⟩⟩, d)

end LibC
