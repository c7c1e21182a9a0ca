/-
LibC.Server.Leaderboard — what the server is for.

The abstract server keeps a `Board` for each key, and answers a request from the
boards alone: `Boards.answer`. `Boards.feed` is the whole server at this level, a
function from the messages that come in to those that go out. There are no
skip lists, no heights, no queues and no memory here.

Where the code has a way of its own, the answers have it too, so that they can be
compared byte for byte: a range of ranks is numbered from the smaller bound
and always succeeds, a member that is asked for its score ends at its first zero
byte, and a key without members is a key that does not exist.

No `sorry`, no `axiom`, no `native_decide`.
-/
import LibC.Lib.Board
import LibC.Server.DispatchTheorems

namespace LibC

open LibC.Lib

variable {α : Type} [LinearOrder α] [Neg α] [One α]

/-- The board of each key. -/
abbrev Boards (α : Type) [LE α] := Bytes → Board α Bytes

/-! ## Answers from one board -/

namespace Lib.Board

/-- The item for a member that is asked for its rank. -/
def rankItem [Zero α] (m : Bytes) (b : Board α Bytes) : MsgRankInfo α :=
  match b.rank? m, b.score? m with
  | some k, some score => ⟨UInt64.ofNat k, score, m⟩
  | _, _ => ⟨0, 0, ascii "No Find!"⟩

/-- The items for a range of ranks. -/
def rankRange (min max : UInt64) (b : Board α Bytes) : List (MsgRankInfo α) :=
  if min.toNat - 1 < max.toNat then
    numberedFrom min ((b.entries.drop (min.toNat - 1)).take (max - min + 1).toNat)
  else []

/-- The error of a query that finds nothing. -/
def errText (b : Board α Bytes) (text : String) : Bytes :=
  if b.entries = [] then ascii "Key is not exist!" else ascii text

/-- The answer for a range of scores. -/
def scoreRange (lo hi : α) (b : Board α Bytes) : MsgRangeQueryRsp α :=
  match b.between lo hi with
  | [] => ⟨MsgRet.fail.toInt, b.errText "Data is not exist.", []⟩
  | m :: ms =>
      ⟨0, ascii "Succ.", numberedFrom (UInt64.ofNat ((b.rank? m.2).getD 0)) (m :: ms)⟩

/-- The answer for the member at a rank. -/
def topAnswer (top : UInt64) (b : Board α Bytes) : MsgTopQueryRsp α :=
  match b.nth top.toNat with
  | none => ⟨MsgRet.fail.toInt, b.errText "Data is not exist", none⟩
  | some m => ⟨MsgRet.success.toInt, [], some ⟨m.1, m.2⟩⟩

end Lib.Board

/-! ## The abstract server -/

namespace Boards

/-- No members anywhere. -/
def empty : Boards α := fun _ => Board.empty

/-- Give a member of a key a score. -/
def set (key : Bytes) (score : α) (data : Bytes) (bs : Boards α) : Boards α :=
  Function.update bs key ((bs key).set score data)

/-- Give some members of a key their scores, in order. -/
def setAll (key : Bytes) (xs : List (MsgSetMemData α)) (bs : Boards α) : Boards α :=
  xs.foldl (fun bs x => bs.set key x.score x.data) bs

/-- The boards after a request. -/
def after : Req α → Boards α → Boards α
  | .setBatch req, bs => bs.setAll req.keyId req.dataList
  | _, bs => bs

/-- The answer to a request. -/
def answer [Zero α] (toScore : ToScore α) (bs : Boards α) : Req α → Rsp α
  | .setBatch req => .setBatch ⟨0, [], req.dataList.length⟩
  | .getScoreBatch req =>
      .getScoreBatch ⟨0, ascii "Succ.", req.memDataList.map fun m =>
        itemFor ((bs req.keyId).score? (cString m)) (cString m)⟩
  | .rankBatchQuery req =>
      .rankBatchQuery ⟨0, ascii "Succ.", req.memInfoList.map fun m => (bs req.keyId).rankItem m⟩
  | .rangeQuery req =>
      .rangeQuery ⟨0, ascii "Succ.", (bs req.keyId).rankRange req.range.min req.range.max⟩
  | .rangeByScoreQuery req =>
      .rangeByScoreQuery ((bs req.keyId).scoreRange
        (min (toScore.conv req.range.min) (toScore.conv req.range.max))
        (max (toScore.conv req.range.min) (toScore.conv req.range.max)))
  | .topQuery req => .topQuery ((bs req.keyId).topAnswer req.top)

/-- The boards after some messages. -/
def afterAll (c : MsgCodecs α) : List Bytes → Boards α → Boards α
  | [], bs => bs
  | m :: ms, bs =>
      match c.request? m with
      | none => afterAll c ms bs
      | some (_, req) => afterAll c ms (bs.after req)

/-- The messages that go out, with their destinations, for those that come in. -/
def feed [Zero α] (c : MsgCodecs α) (toScore : ToScore α) :
    List Bytes → Boards α → List (Bytes × MsgTransApp)
  | [], _ => []
  | m :: ms, bs =>
      match c.request? m with
      | none => feed c toScore ms bs
      | some (t, req) =>
          (t.src, World.responseMsg t (c.serialize (bs.answer toScore req))) ::
            feed c toScore ms (bs.after req)

/-! ## Ties -/

/-- No member is given a score that another member of its key has at that time. -/
def UntiedSets (key : Bytes) : List (MsgSetMemData α) → Boards α → Prop
  | [], _ => True
  | x :: xs, bs => (bs key).Free x.score x.data ∧ UntiedSets key xs (bs.set key x.score x.data)

instance decidableUntiedSets (key : Bytes) : ∀ (xs : List (MsgSetMemData α)) (bs : Boards α),
    Decidable (UntiedSets key xs bs)
  | [], _ => .isTrue trivial
  | _ :: xs, _ =>
      have := decidableUntiedSets key xs
      inferInstanceAs (Decidable (_ ∧ _))

/-- A request ties no members. -/
def Untied : Req α → Boards α → Prop
  | .setBatch req, bs => UntiedSets req.keyId req.dataList bs
  | _, _ => True

instance decidableUntied (bs : Boards α) : ∀ req : Req α, Decidable (Untied req bs)
  | .setBatch req => decidableUntiedSets req.keyId req.dataList bs
  | .getScoreBatch _ | .rankBatchQuery _ | .rangeQuery _ | .rangeByScoreQuery _ | .topQuery _ =>
      .isTrue trivial

/-- Some messages tie no members. -/
def UntiedAll (c : MsgCodecs α) : List Bytes → Boards α → Prop
  | [], _ => True
  | m :: ms, bs =>
      match c.request? m with
      | none => UntiedAll c ms bs
      | some (_, req) => Untied req bs ∧ UntiedAll c ms (bs.after req)

omit [Neg α] [One α] in
theorem untiedAll_cons (c : MsgCodecs α) (m : Bytes) (ms : List Bytes) (bs : Boards α) :
    UntiedAll c (m :: ms) bs ↔ (∀ r ∈ c.request? m, Untied r.2 bs) ∧
      UntiedAll c ms (((c.request? m).map fun r => bs.after r.2).getD bs) := by
  rw [UntiedAll]
  cases c.request? m <;> simp

instance decidableUntiedAll (c : MsgCodecs α) : ∀ (ms : List Bytes) (bs : Boards α),
    Decidable (UntiedAll c ms bs)
  | [], _ => .isTrue trivial
  | m :: ms, bs =>
      have := decidableUntiedAll c ms
      decidable_of_iff' _ (untiedAll_cons c m ms bs)

end Boards

end LibC
