/-
LibC.Server.RangeHandlers — the range queries of `bis/src/server/server.cpp`.

`ProcessDbRangeByRank` and `ProcessDbRangeByScore`, and the calls of `db` they
make. An iterator points into the table it comes from; the nodes that a handler
reads through it are those of the table under the key of the request.

`LPDB->end()` is an iterator of two null pointers. `none` stands for a null
pointer that is dereferenced, for an iterator that is advanced past the end, and
for a loop that does not end.

A bound of a score query is a `uint64` on the wire, and becomes a score when it
is passed on: `ToScore`.

No `sorry`, no `axiom`, no `native_decide`.
-/
import LibC.Server.Handlers

namespace LibC

open LibC.Lib

variable {α : Type}

/-! ## Messages -/

/-- `MSG_RET::ErrCode`. -/
inductive MsgRet where
  | success
  | fail
  deriving DecidableEq

/-- The number of a return code. -/
def MsgRet.toInt : MsgRet → Int
  | success => 0
  | fail => -1

/-- `MsgRankInfo`. -/
structure MsgRankInfo (α : Type) where
  rank : UInt64
  data : MsgSetMemData α
  deriving DecidableEq

/-- `Range`. -/
structure Range where
  min : UInt64
  max : UInt64
  deriving DecidableEq

/-- `MsgRangeQueryReq`, and `MsgRangeByScoreQueryReq`, which has the same fields. -/
structure MsgRangeQueryReq where
  keyId : Bytes
  range : Range

/-- `MsgRangeQueryRsp`, and `MsgRangeByScoreQueryRsp`, which has the same fields. -/
structure MsgRangeQueryRsp (α : Type) where
  ret : Int
  err : Bytes
  rankInfo : List (MsgRankInfo α)
  deriving DecidableEq

/-- How a `uint64` becomes a score: the conversion keeps the order, up to rounding, and what comes
out is not negative. -/
structure ToScore (α : Type) [LinearOrder α] [Neg α] [One α] where
  conv : UInt64 → α
  mono : ∀ x y, x ≤ y → conv x ≤ conv y
  neg_one_lt : ∀ x, -1 < conv x

/-! ## `db` -/

namespace Db

/-- `end`. -/
def endItr : SkipList.Itr := ⟨none, none⟩

/-- The nodes that an iterator into the table under `key` points to. -/
def nodesOf (key : Bytes) (d : Db α) : Heap (SkipListNode α Bytes) :=
  match d.dbDict.find key with
  | none => Heap.empty
  | some sset => sset.sl.heap

/-- `GetMemsFirstByRank`. -/
def getMemsFirstByRank [LinearOrder α] (key : Bytes) (min max : UInt64) (d : Db α) :
    Option (SkipList.Itr × Db α) :=
  match d.dbDict.find key with
  | none => some (endItr, { d with strErr := "Key is not exist!" })
  | some sset => do
      let itr ← sset.getMemsFirstByRank min max
      let e ← sset.endItr
      if e.pos = itr.pos then some (endItr, { d with strErr := "Data is not exist" })
      else some (itr, { d with strErr := "" })

/-- `GetMemsByScore`. -/
def getMemsByScore [LinearOrder α] (key : Bytes) (min max : α) (d : Db α) :
    Option ((SkipList.Itr × SkipList.Itr) × Db α) :=
  match d.dbDict.find key with
  | none => some ((endItr, endItr), { d with strErr := "Key is not exist!" })
  | some sset => do
      let pq ← sset.getMemsByScore min max
      let e ← sset.endItr
      if pq.1.pos = e.pos then some ((endItr, endItr), { d with strErr := "Data is not exist." })
      else do
        let pq ← sset.getMemsByScore min max
        some (pq, { d with strErr := "" })

/-- `GetMemRank`; the inner `none` is the answer `false`. -/
def getMemRank [LinearOrder α] (key data : Bytes) (d : Db α) : Option (Option UInt64 × Db α) :=
  match d.dbDict.find key with
  | none => some (none, { d with strErr := "Key is not exist!" })
  | some sset => do
      let rank ← sset.getMemRank data
      match rank with
      | none => some (none, { d with strErr := "Data is not exist!" })
      | some rank => some (some rank, { d with strErr := "" })

end Db

/-- The item for a node. -/
def rankItem (rank : UInt64) (nd : SkipListNode α Bytes) : MsgRankInfo α := ⟨rank, nd.score, nd.val⟩

/-! ## `ProcessDbRangeByRank` -/

/-- The loop of `ProcessDbRangeByRank`. -/
def rangeLoop (h : Heap (SkipListNode α Bytes)) (min num : UInt64) :
    Nat → UInt64 → SkipList.Itr → List (MsgRankInfo α) → Option (List (MsgRankInfo α))
  | 0, _, _, _ => none
  | fuel + 1, cnt, itr, items =>
      if itr.pos ≠ Db.endItr.pos ∧ cnt < num then do
        let p ← itr.pos
        let nd ← h.get p
        let itr ← itr.next h
        rangeLoop h min num fuel (cnt + 1) itr (items ++ [rankItem (min + cnt) nd])
      else some items

/-- `ProcessDbRangeByRank`. The two assignments after the `do … while (false)` are made on
every path. -/
def processDbRangeByRank [LinearOrder α] (req : MsgRangeQueryReq) (d : Db α) :
    Option (MsgRangeQueryRsp α × Db α) := do
  let (itr, d) ← d.getMemsFirstByRank req.keyId req.range.min req.range.max
  let rsp ← if itr.pos = Db.endItr.pos then
      some (⟨MsgRet.fail.toInt, ascii d.strErr, []⟩ : MsgRangeQueryRsp α)
    else do
      let (min, max) := if req.range.min > req.range.max then (req.range.max, req.range.min)
        else (req.range.min, req.range.max)
      let h := d.nodesOf req.keyId
      let items ← rangeLoop h min (max - min + 1) (h.size + 1) 0 itr []
      some ⟨0, ascii "Succ.", items⟩
  some ({ rsp with ret := 0, err := ascii "Succ." }, d)

/-! ## `ProcessDbRangeByScore` -/

/-- The loop of `ProcessDbRangeByScore`: the rank after it, and the items. -/
def scoreLoop (h : Heap (SkipListNode α Bytes)) (last : SkipList.Itr) :
    Nat → UInt64 → SkipList.Itr → List (MsgRankInfo α) → Option (UInt64 × List (MsgRankInfo α))
  | 0, _, _, _ => none
  | fuel + 1, rank, itr, items =>
      if itr.pos ≠ last.pos then do
        let p ← itr.pos
        let nd ← h.get p
        let itr ← itr.next h
        scoreLoop h last fuel (rank + 1) itr (items ++ [rankItem rank nd])
      else some (rank, items)

/-- `ProcessDbRangeByScore`. -/
def processDbRangeByScore [LinearOrder α] [Neg α] [One α] (toScore : ToScore α)
    (req : MsgRangeQueryReq) (d : Db α) : Option (MsgRangeQueryRsp α × Db α) := do
  let (pair, d) ← d.getMemsByScore req.keyId (toScore.conv req.range.min)
    (toScore.conv req.range.max)
  if d.strErr ≠ "" then some (⟨MsgRet.fail.toInt, ascii d.strErr, []⟩, d)
  else do
    let h := d.nodesOf req.keyId
    let p ← pair.1.pos
    let nd ← h.get p
    let (rank, d) ← d.getMemRank req.keyId nd.val
    let (rank, items) ← scoreLoop h pair.2 (h.size + 1) (rank.getD 0) pair.1 []
    let q ← pair.2.pos
    let nd ← h.get q
    some (⟨0, ascii "Succ.", items ++ [rankItem rank nd]⟩, d)

end LibC
