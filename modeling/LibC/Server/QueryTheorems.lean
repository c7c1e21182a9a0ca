/-
LibC.Server.QueryTheorems — no request faults, and no query changes a table.

A table that a request has made is never empty: `ProcessDbSet` makes it together
with its first member, and `Update` puts back what it takes out. `Db.Live` says
so, and is what keeps `end()` from reading a null `tail_`; `handle_live` proves
for each of the six handlers that it completes and keeps it, whatever the
request, the heights and the spans, and that only the error text changes unless
the request sets something. The effect of a request on the scores is the list of
its entries (`Req.entries`), in order.

No `sorry`, no `axiom`, no `native_decide`.
-/
import LibC.Server.Dispatch
import LibC.Server.HandlerTheorems
import LibC.Server.RangeHandlerTheorems
import LibC.SkipList.CountTheorems

namespace LibC

open LibC.Lib LibC.Lib.Tower

variable {α : Type} [LinearOrder α] [Neg α] [One α]

/-! ## Tables with members -/

/-- A table that has members. -/
def TableLive (s : SortSet α Bytes) : Prop := TableOk s ∧ ∃ data, s.dict data ≠ none

/-- Every table has members. -/
def Db.Live (d : Db α) : Prop := ∀ key s, d.dbDict.find key = some s → TableLive s

theorem Db.Live.ok {d : Db α} (h : d.Live) : d.Ok := fun key s hs => (h key s hs).1

theorem dbLive_new : Db.Live (Db.new : Db α) := fun key s h => by
  rw [Db.new, Dict.find_empty] at h
  cases h

/-- The list behind a table with members has an element. -/
theorem TableLive.repr {s : SortSet α Bytes} (h : TableLive s) :
    ∃ ps ts, SetRepr s ps ts ∧ ts ≠ [] := by
  obtain ⟨⟨ps, ts, hs⟩, data, hd⟩ := h
  obtain ⟨score, hscore⟩ := Option.ne_none_iff_exists'.mp hd
  obtain ⟨t, ht, _⟩ := hs.covered data score hscore
  exact ⟨ps, ts, hs, List.ne_nil_of_mem ht⟩

/-- Setting a member leaves every table with members. -/
theorem Db.Live.insert {d : Db α} (h : d.Live) (lvl : Lvl) (key : Bytes) (score : α)
    (data : Bytes) : ∃ ret d', d.insert lvl key score data = some (ret, d') ∧ d'.Live := by
  obtain ⟨ret, d', hins, hok⟩ := h.ok.insert lvl key score data
  refine ⟨ret, d', hins, fun q s hs => ⟨hok q s hs, ?_⟩⟩
  have hlook := Db.insert_lookup hins q
  simp only [Db.lookup, hs, Option.bind_some] at hlook
  by_cases hq : key = q
  · exact ⟨data, by rw [hlook, if_pos ⟨hq, rfl⟩]; exact Option.some_ne_none score⟩
  · -- the table was there before
    cases hf : d.dbDict.find q with
    | some s0 =>
        obtain ⟨r, hr⟩ := (h q s0 hf).2
        refine ⟨r, ?_⟩
        rw [hlook, if_neg fun hc => hq hc.1, hf]
        exact hr
    | none =>
        exfalso
        have hopen := find_openTable d.dbDict key
        simp only [Db.insert, hopen, if_true, Option.bind_eq_bind, Option.bind_some,
          Option.bind_eq_some_iff, Option.some.injEq, Prod.mk.injEq] at hins
        obtain ⟨_, _, _, rfl⟩ := hins
        rw [Dict.find_modify, if_neg (Ne.symm hq), hopen, if_neg (Ne.symm hq), hf] at hs
        cases hs

/-! ## Queries change nothing but the error text -/

/-- Where `FirstInRangeByIdx` ends: on an element, or at the end. -/
theorem Repr.firstInRangeByIdx_pos {sl : SkipList α Bytes} {ps : List Ptr}
    {ts : List (Tower α Bytes)} (r : Repr sl ps ts) (hne : ts ≠ []) (min max : UInt64) :
    ∃ k : ℕ, sl.firstInRangeByIdx min max = some ⟨ps[k]?, none⟩ := by
  have hend : sl.endItr = some ⟨ps[ps.length]?, none⟩ := by
    rw [r.endItr_eq hne, List.getElem?_eq_none (Nat.le_refl _)]
  obtain ⟨t, tl, htail, htl, htf⟩ := r.tail_link hne
  obtain ⟨b, y, traversed, path', hd, hy⟩ := r.descend_total
    (fun traversed l _ => decide (traversed + l.span.toUInt64 < min))
    (fun traversed l => traversed + l.span.toUInt64) sl.level 0 sl.head 0
    ⟨fun _ => none, fun _ => 0⟩ r.level.2 rfl
  obtain ⟨l, hl, hf⟩ := r.next_pos hy
  unfold SkipList.firstInRangeByIdx
  simp only [hend, hd, hl, hf, htail, htl, htf, Option.bind_eq_bind, Option.bind_some]
  split
  · exact ⟨_, rfl⟩
  · split
    · exact ⟨_, rfl⟩
    · split <;> exact ⟨_, rfl⟩

variable {d : Db α} {key : Bytes}

omit [Neg α] [One α] in
/-- The rank of a member does not depend on the error text. -/
theorem Db.getMemRank_err (key m : Bytes) (d : Db α) {ans : Option UInt64} {d1 : Db α}
    (h : d.getMemRank key m = some (ans, d1)) (err : String) :
    ∃ err', ({ d with strErr := err } : Db α).getMemRank key m =
      some (ans, { d with strErr := err' }) := by
  cases hf : d.dbDict.find key with
  | none =>
      simp only [Db.getMemRank, hf, Option.some.injEq, Prod.mk.injEq] at h
      exact ⟨"Key is not exist!", by simp [Db.getMemRank, hf, h.1.symm]⟩
  | some s =>
      simp only [Db.getMemRank, hf, Option.bind_eq_bind, Option.bind_eq_some_iff] at h
      obtain ⟨rank, hrank, h⟩ := h
      cases rank with
      | none =>
          simp only [Option.some.injEq, Prod.mk.injEq] at h
          exact ⟨"Data is not exist!", by simp [Db.getMemRank, hf, hrank, h.1.symm]⟩
      | some rank =>
          simp only [Option.some.injEq, Prod.mk.injEq] at h
          exact ⟨"", by simp [Db.getMemRank, hf, hrank, h.1.symm]⟩

/-- `GetMemRank` answers, and says that a member is there exactly when it is. -/
theorem Db.Ok.getMemRank (h : d.Ok) (key m : Bytes) : ∃ ans err,
    d.getMemRank key m = some (ans, { d with strErr := err }) ∧
      (ans = none ↔ d.lookup key m = none) := by
  cases hf : d.dbDict.find key with
  | none =>
      exact ⟨none, "Key is not exist!", by simp [Db.getMemRank, hf], by simp [Db.lookup, hf]⟩
  | some s =>
      cases hd : s.dict m with
      | none =>
          exact ⟨none, "Data is not exist!", by
            simp [Db.getMemRank, hf, SortSet.getMemRank, hd], by simp [Db.lookup, hf, hd]⟩
      | some score =>
          obtain ⟨ps, ts, hs⟩ := h key s hf
          obtain ⟨rank, hr⟩ :=
            hs.repr.rankDescend_total score m s.sl.level 0 s.sl.head 0 hs.repr.level.2 rfl
          have hrank : s.sl.getRank score m = some rank := hr
          exact ⟨some rank, "", by simp [Db.getMemRank, hf, SortSet.getMemRank, hd, hrank],
            by simp [Db.lookup, hf, hd]⟩

/-- The item for a member with a rank and a score. -/
def rankAnswer [Zero α] (junk : α) (rank : Option UInt64) (score : Option α) (m : Bytes) :
    MsgRankInfo α :=
  match rank with
  | none => ⟨0, 0, ascii "No Find!"⟩
  | some rank => ⟨rank, score.getD junk, m⟩

omit [Neg α] [One α] in
/-- The loop of `ProcessDbRankQuery`, when `GetMemRank` answers. -/
theorem rankQueryLoop_spec [Zero α] (key : Bytes) (junk : α) (rank : Bytes → Option UInt64)
    {d : Db α} (hrank : ∀ m, ∃ d1, d.getMemRank key m = some (rank m, d1)) :
    ∀ (ms : List Bytes) (items : List (MsgRankInfo α)) (err : String),
      ∃ err', rankQueryLoop key junk ms items { d with strErr := err } =
        some (items ++ ms.map fun m => rankAnswer junk (rank m) (d.lookup key m) m,
          { d with strErr := err' })
  | [], items, err => ⟨err, by simp [rankQueryLoop]⟩
  | m :: ms, items, err => by
      obtain ⟨d1, hget⟩ := hrank m
      obtain ⟨err1, hget⟩ := Db.getMemRank_err key m d hget err
      obtain ⟨err2, hscore⟩ := Db.getMemScore_spec ({ d with strErr := err1 } : Db α) key m
      obtain ⟨err3, ih⟩ := rankQueryLoop_spec key junk rank hrank ms
        (items ++ [rankAnswer junk (rank m) (d.lookup key m) m])
        (if rank m = none then err1 else err2)
      refine ⟨err3, ?_⟩
      rw [List.append_assoc, List.singleton_append] at ih
      rw [List.map_cons, ← ih, rankQueryLoop, hget]
      cases hm : rank m with
      | none => simp [rankAnswer]
      | some r =>
          have hlook : Db.lookup ({ d with strErr := err1 } : Db α) key m = d.lookup key m := rfl
          simp [rankAnswer, hscore, hlook]

/-- Only the error text differs. -/
def Db.ErrOnly (d d' : Db α) : Prop := ∃ err, d' = { d with strErr := err }

omit [Neg α] [One α] in
theorem Db.getMemsFirstByRank_same {min max : UInt64} {itr : SkipList.Itr} {d' : Db α}
    (h : d.getMemsFirstByRank key min max = some (itr, d')) : d.ErrOnly d' := by
  unfold Db.getMemsFirstByRank at h
  cases hf : d.dbDict.find key with
  | none =>
      simp only [hf, Option.some.injEq, Prod.mk.injEq] at h
      exact ⟨_, h.2.symm⟩
  | some s =>
      simp only [hf, Option.bind_eq_bind, Option.bind_eq_some_iff] at h
      obtain ⟨_, _, _, _, h⟩ := h
      split at h <;>
      · simp only [Option.some.injEq, Prod.mk.injEq] at h
        exact ⟨_, h.2.symm⟩

omit [Neg α] [One α] in
/-- `GetMemByRank` is `GetMemsFirstByRank` for one rank, its error texts included. -/
theorem Db.getMemByRank_eq (key : Bytes) (rank : UInt64) (d : Db α) :
    d.getMemByRank key rank = d.getMemsFirstByRank key rank rank := by
  unfold Db.getMemByRank Db.getMemsFirstByRank
  cases d.dbDict.find key with
  | none => rfl
  | some s =>
      cases hitr : s.getMemsFirstByRank rank rank with
      | none => simp [SortSet.getMemByRank, hitr]
      | some itr =>
          cases he : s.endItr with
          | none => simp [SortSet.getMemByRank, hitr, he]
          | some e => simp [SortSet.getMemByRank, hitr, he, eq_comm]

omit [Neg α] [One α] in
theorem Db.getMemsByScore_same {min max : α} {pq : SkipList.Itr × SkipList.Itr} {d' : Db α}
    (h : d.getMemsByScore key min max = some (pq, d')) : d.ErrOnly d' := by
  unfold Db.getMemsByScore at h
  cases hf : d.dbDict.find key with
  | none =>
      simp only [hf, Option.some.injEq, Prod.mk.injEq] at h
      exact ⟨_, h.2.symm⟩
  | some s =>
      simp only [hf, Option.bind_eq_bind, Option.bind_eq_some_iff] at h
      obtain ⟨_, _, _, _, h⟩ := h
      split at h
      · simp only [Option.some.injEq, Prod.mk.injEq] at h
        exact ⟨_, h.2.symm⟩
      · obtain ⟨_, _, h⟩ := Option.bind_eq_some_iff.mp h
        simp only [Option.some.injEq, Prod.mk.injEq] at h
        exact ⟨_, h.2.symm⟩

omit [Neg α] [One α] in
theorem Db.getMemRank_same {m : Bytes} {ans : Option UInt64} {d' : Db α}
    (h : d.getMemRank key m = some (ans, d')) : d.ErrOnly d' := by
  obtain ⟨err, herr⟩ := Db.getMemRank_err key m d h d.strErr
  rw [show ({ d with strErr := d.strErr } : Db α) = d from rfl, h] at herr
  exact ⟨err, (Prod.mk.inj (Option.some.inj herr)).2⟩

omit [LinearOrder α] [Neg α] [One α] in
theorem Db.ErrOnly.trans {d1 d2 : Db α} (h : d.ErrOnly d1) (h' : d1.ErrOnly d2) :
    d.ErrOnly d2 := by
  obtain ⟨err, rfl⟩ := h
  obtain ⟨err', rfl⟩ := h'
  exact ⟨err', rfl⟩

omit [Neg α] [One α] in
theorem processDbRangeByRank_same {req : MsgRangeQueryReq} {rsp : MsgRangeQueryRsp α} {d' : Db α}
    (h : processDbRangeByRank req d = some (rsp, d')) : d.ErrOnly d' := by
  simp only [processDbRangeByRank, Option.bind_eq_bind, Option.bind_eq_some_iff] at h
  obtain ⟨⟨itr, d1⟩, hget, h⟩ := h
  have h1 := Db.getMemsFirstByRank_same hget
  split at h
  · simp only [Option.bind_some, Option.some.injEq, Prod.mk.injEq] at h
    rwa [← h.2]
  · obtain ⟨_, _, h⟩ := Option.bind_eq_some_iff.mp h
    simp only [Option.bind_some, Option.some.injEq, Prod.mk.injEq] at h
    rwa [← h.2]

theorem processDbRangeByScore_same {toScore : ToScore α} {req : MsgRangeQueryReq}
    {rsp : MsgRangeQueryRsp α} {d' : Db α}
    (h : processDbRangeByScore toScore req d = some (rsp, d')) : d.ErrOnly d' := by
  simp only [processDbRangeByScore, Option.bind_eq_bind, Option.bind_eq_some_iff] at h
  obtain ⟨⟨pair, d1⟩, hget, h⟩ := h
  have h1 := Db.getMemsByScore_same hget
  split at h
  · simp only [Option.some.injEq, Prod.mk.injEq] at h
    rwa [← h.2]
  · simp only [Option.bind_eq_some_iff] at h
    obtain ⟨_, _, _, _, ⟨rank, d2⟩, hrank, _, _, _, _, _, _, h⟩ := h
    simp only [Option.some.injEq, Prod.mk.injEq] at h
    rw [← h.2]
    exact h1.trans (Db.getMemRank_same hrank)

omit [Neg α] [One α] in
theorem processDbTopQuery_same {req : MsgTopQueryReq} {rsp : MsgTopQueryRsp α} {d' : Db α}
    (h : processDbTopQuery req d = some (rsp, d')) : d.ErrOnly d' := by
  simp only [processDbTopQuery, Option.bind_eq_bind, Option.bind_eq_some_iff] at h
  obtain ⟨⟨itr, d1⟩, hget, h⟩ := h
  rw [Db.getMemByRank_eq] at hget
  have h1 := Db.getMemsFirstByRank_same hget
  split at h
  · simp only [Option.some.injEq, Prod.mk.injEq] at h
    rwa [← h.2]
  · simp only [Option.bind_eq_some_iff] at h
    obtain ⟨_, _, _, _, h⟩ := h
    simp only [Option.some.injEq, Prod.mk.injEq] at h
    rwa [← h.2]

/-! ## Every request completes -/

/-- The error text of a rank query that has found `pos`. -/
def rankErr (pos : Option Ptr) : String := if pos = none then "Data is not exist" else ""

/-- `GetMemsFirstByRank` answers what the list answers. -/
theorem getMemsFirstByRank_of_pos {sset : SortSet α Bytes} {ps : List Ptr}
    {ts : List (Tower α Bytes)} (r : Repr sset.sl ps ts) (hne : ts ≠ [])
    (hfind : d.dbDict.find key = some sset) {a b : UInt64} {pos : Option Ptr}
    (hpos : sset.sl.firstInRangeByIdx a b = some ⟨pos, none⟩) :
    d.getMemsFirstByRank key a b = some (⟨pos, none⟩, { d with strErr := rankErr pos }) := by
  unfold Db.getMemsFirstByRank
  simp only [hfind, SortSet.getMemsFirstByRank, SortSet.endItr, hpos, r.endItr_eq hne,
    Option.bind_eq_bind, Option.bind_some]
  cases pos with
  | none => rfl
  | some p => rfl

omit [Neg α] [One α] in
/-- Without a table both rank queries answer that there is none. -/
theorem getMemsFirstByRank_missing (hfind : d.dbDict.find key = none) (a b : UInt64) :
    d.getMemsFirstByRank key a b =
      some (Db.endItr, { d with strErr := "Key is not exist!" }) := by
  simp [Db.getMemsFirstByRank, hfind]

omit [LinearOrder α] [Neg α] [One α] in
/-- The nodes that the iterators of a table point to. -/
theorem nodesOf_errOnly {sset : SortSet α Bytes} (hfind : d.dbDict.find key = some sset)
    (err : String) : ({ d with strErr := err } : Db α).nodesOf key = sset.sl.heap := by
  simp [Db.nodesOf, hfind]

theorem processDbRangeByRank_total (h : d.Live) (req : MsgRangeQueryReq) :
    ∃ r, processDbRangeByRank req d = some r := by
  cases hfind : d.dbDict.find req.keyId with
  | none =>
      obtain ⟨_, hproc⟩ := processDbRangeByRank_missing hfind
      exact ⟨_, hproc⟩
  | some sset =>
      obtain ⟨ps, ts, hs, hne⟩ := (h _ _ hfind).repr
      obtain ⟨k, hk⟩ := hs.repr.firstInRangeByIdx_pos hne req.range.min req.range.max
      have hget := getMemsFirstByRank_of_pos hs.repr hne hfind hk
      have hnodes := nodesOf_errOnly hfind (rankErr ps[k]?)
      have hsize := hs.repr.length_lt_size
      have hlen := hs.repr.len
      unfold processDbRangeByRank
      simp only [hget, hnodes, Option.bind_eq_bind, Option.bind_some]
      split
      · exact ⟨_, rfl⟩
      · rw [rangeLoop_spec hs.repr _ _ _ _ _ _ (by omega)]
        exact ⟨_, rfl⟩

omit [Neg α] [One α] in
/-- Without a table no member is at the top. -/
theorem processDbTopQuery_missing {req : MsgTopQueryReq} (hfind : d.dbDict.find req.keyId = none) :
    processDbTopQuery req d = some (⟨MsgRet.fail.toInt, ascii "Key is not exist!", none⟩,
      { d with strErr := "Key is not exist!" }) := by
  unfold processDbTopQuery
  rw [Db.getMemByRank_eq, getMemsFirstByRank_missing hfind]
  rfl

/-- What `ProcessDbTopQuery` answers when the key has a table. -/
theorem processDbTopQuery_table {sset : SortSet α Bytes} {ps : List Ptr}
    {ts : List (Tower α Bytes)} (r : Repr sset.sl ps ts) (hne : ts ≠ []) {req : MsgTopQueryReq}
    (hfind : d.dbDict.find req.keyId = some sset) {k : ℕ}
    (hpos : sset.sl.firstInRangeByIdx req.top req.top = some ⟨ps[k]?, none⟩) :
    processDbTopQuery req d = some ((match sset.members[k]? with
        | none => ⟨MsgRet.fail.toInt, ascii "Data is not exist", none⟩
        | some m => ⟨MsgRet.success.toInt, [], some ⟨m.1, m.2⟩⟩),
      { d with strErr := rankErr ps[k]? }) := by
  have hget := getMemsFirstByRank_of_pos r hne hfind hpos
  have hnodes := nodesOf_errOnly hfind (rankErr ps[k]?)
  unfold processDbTopQuery
  simp only [Db.getMemByRank_eq, hget, hnodes, Option.bind_eq_bind, Option.bind_some]
  cases hp : ps[k]? with
  | none =>
      have hk := List.getElem?_eq_none_iff.mp hp
      have hmem : sset.members[k]? = none := by
        rw [SortSet.members, r.pairs_eq, List.getElem?_map,
          List.getElem?_eq_none (by rw [← r.len]; exact hk)]
        rfl
      rw [hmem]
      rfl
  | some p =>
      obtain ⟨nd, hg, hpair, _⟩ := r.itr_next hp
      rw [SortSet.members, hpair]
      simp [Db.endItr, hg, rankErr]

theorem processDbTopQuery_total (h : d.Live) (req : MsgTopQueryReq) :
    ∃ r, processDbTopQuery req d = some r := by
  cases hfind : d.dbDict.find req.keyId with
  | none => exact ⟨_, processDbTopQuery_missing hfind⟩
  | some sset =>
      obtain ⟨ps, ts, hs, hne⟩ := (h _ _ hfind).repr
      obtain ⟨k, hk⟩ := hs.repr.firstInRangeByIdx_pos hne req.top req.top
      exact ⟨_, processDbTopQuery_table hs.repr hne hfind hk⟩

/-- What `ProcessDbRangeByScore` answers when the key has a table: the members of the range,
from the rank of the first one on, or an error when there is none. -/
theorem processDbRangeByScore_table {sset : SortSet α Bytes} {ps : List Ptr}
    {ts : List (Tower α Bytes)} (r : Repr sset.sl ps ts) (hne : ts ≠ []) (toScore : ToScore α)
    (req : MsgRangeQueryReq) (hfind : d.dbDict.find req.keyId = some sset)
    (rank : Bytes → Option UInt64)
    (hrank : ∀ m, ∃ d1, d.getMemRank req.keyId m = some (rank m, d1)) :
    ∃ d1, processDbRangeByScore toScore req d = some (
      (match membersBetween sset.members (toScore.conv req.range.min)
          (toScore.conv req.range.max) with
        | [] => ⟨MsgRet.fail.toInt, ascii "Data is not exist.", []⟩
        | m :: ms => ⟨0, ascii "Succ.", numberedFrom ((rank m.2).getD 0) (m :: ms)⟩), d1) := by
  have hlow : -1 < min (toScore.conv req.range.min) (toScore.conv req.range.max) :=
    lt_min (toScore.neg_one_lt _) (toScore.neg_one_lt _)
  obtain ⟨A, B, c⟩ := exists_cut r.sorted (toScore.conv req.range.min) (toScore.conv req.range.max)
  have hget := getMemsByScore_eq r hne c hlow hfind
  rw [r.membersBetween_eq c]
  by_cases hAB : A < B
  · rw [if_pos hAB] at hget
    have hA : A < sset.members.length := by
      have := c.le
      rw [SortSet.members, r.pairs_eq, List.length_map]
      omega
    have hfirst : ∀ m, sset.members[A]? = some m → ∃ d1,
        ({ d with strErr := "" } : Db α).getMemRank req.keyId m.2 =
          some (rank sset.members[A].2, d1) := by
      intro m hm
      rw [List.getElem?_eq_getElem hA] at hm
      obtain rfl := Option.some.inj hm
      obtain ⟨d1, hd1⟩ := hrank sset.members[A].2
      obtain ⟨err, herr⟩ := Db.getMemRank_err req.keyId _ d hd1 ""
      exact ⟨_, herr⟩
    obtain ⟨d1, hproc⟩ := processDbRangeByScore_found r hAB c.le.2 hget hfind rfl hfirst
    rw [slice_cons hAB hA] at hproc ⊢
    exact ⟨d1, hproc⟩
  · rw [if_neg hAB] at hget
    have hproc := processDbRangeByScore_fail hget "Data is not exist." rfl (by decide)
    rw [slice_empty _ (Nat.not_lt.mp hAB)]
    exact ⟨_, hproc⟩

/-- Without a table there is no range. -/
theorem processDbRangeByScore_missing (toScore : ToScore α) {req : MsgRangeQueryReq}
    (hfind : d.dbDict.find req.keyId = none) :
    ∃ d1, processDbRangeByScore toScore req d =
      some (⟨MsgRet.fail.toInt, ascii "Key is not exist!", []⟩, d1) := by
  have hget : d.getMemsByScore req.keyId (toScore.conv req.range.min)
      (toScore.conv req.range.max) =
        some ((Db.endItr, Db.endItr), { d with strErr := "Key is not exist!" }) := by
    simp [Db.getMemsByScore, hfind]
  exact ⟨_, processDbRangeByScore_fail hget "Key is not exist!" rfl (by decide)⟩

theorem processDbRangeByScore_total (h : d.Live) (toScore : ToScore α) (req : MsgRangeQueryReq) :
    ∃ r, processDbRangeByScore toScore req d = some r := by
  cases hfind : d.dbDict.find req.keyId with
  | none =>
      obtain ⟨_, hproc⟩ := processDbRangeByScore_missing toScore hfind
      exact ⟨_, hproc⟩
  | some sset =>
      obtain ⟨ps, ts, hs, hne⟩ := (h _ _ hfind).repr
      choose rank err hrank using h.ok.getMemRank req.keyId
      obtain ⟨_, hproc⟩ := processDbRangeByScore_table hs.repr hne toScore req hfind rank
        fun m => ⟨_, (hrank m).1⟩
      exact ⟨_, hproc⟩

/-- What a request sets. -/
def Req.entries : Req α → List (Entry α)
  | .setBatch req => req.entries
  | _ => []

/-- The score of a member after some entries. -/
def Db.After (d : Db α) (es : List (Entry α)) (d' : Db α) : Prop :=
  ∀ key data, d'.lookup key data = (lastSet key data es).or (d.lookup key data)

omit [LinearOrder α] [Neg α] [One α] in
theorem Db.ErrOnly.after {d' : Db α} (h : d.ErrOnly d') : d.After [] d' := by
  obtain ⟨err, rfl⟩ := h
  exact fun key data => rfl

omit [LinearOrder α] [Neg α] [One α] in
/-- The later entries come first. -/
theorem lastSet_append (key data : Bytes) (later : List (Entry α)) : ∀ past : List (Entry α),
    lastSet key data (past ++ later) = (lastSet key data later).or (lastSet key data past)
  | [] => by rw [List.nil_append, lastSet, Option.or_none]
  | e :: past => by
      rw [List.cons_append, lastSet, lastSet, lastSet_append key data later past]
      cases lastSet key data later <;> rfl

omit [LinearOrder α] [Neg α] [One α] in
theorem Db.After.trans {d1 d2 : Db α} {es es' : List (Entry α)} (h : d.After es d1)
    (h' : d1.After es' d2) : d.After (es ++ es') d2 := fun key data => by
  rw [h', h, lastSet_append, Option.or_assoc]

omit [Neg α] [One α] in
/-- `Insert` of a new member inserts. -/
theorem SortSet.insert_ret {s s' : SortSet α Bytes} {lvl : Lvl} {score : α} {data : Bytes}
    {ret : Bool} (hd : s.dict data = none) (h : s.insert lvl score data = some (ret, s')) :
    ret = true := by
  simp only [SortSet.insert, hd, Option.bind_eq_bind, Option.bind_eq_some_iff,
    Option.some.injEq, Prod.mk.injEq] at h
  obtain ⟨_, _, h, _⟩ := h
  exact h.symm

omit [Neg α] [One α] in
/-- `Update` always says that it succeeded. -/
theorem SortSet.update_ret {s s' : SortSet α Bytes} {lvl : Lvl} {score : α} {data : Bytes}
    {ret : Bool} (h : s.update lvl score data = some (ret, s')) : ret = true := by
  cases hd : s.dict data with
  | none =>
      simp only [SortSet.update, hd] at h
      exact SortSet.insert_ret hd h
  | some old =>
      simp only [SortSet.update, hd] at h
      split at h
      · obtain ⟨⟨_, s1⟩, hdel, hins⟩ := Option.bind_eq_some_iff.mp h
        exact SortSet.insert_ret (SortSet.delMem_sl hd hdel).2 hins
      · simp only [Option.some.injEq, Prod.mk.injEq] at h
        exact h.1.symm

theorem Db.insert_ret {d' : Db α} {lvl : Lvl} {score : α} {data : Bytes} {ret : Bool}
    (h : d.insert lvl key score data = some (ret, d')) : ret = true := by
  simp only [Db.insert, find_openTable, if_true, Option.bind_eq_bind, Option.bind_some,
    Option.bind_eq_some_iff, Option.some.injEq, Prod.mk.injEq] at h
  obtain ⟨⟨ret1, s'⟩, hup, rfl, _⟩ := h
  exact SortSet.update_ret hup

/-- The loop of `ProcessDbSet`: every member counts as set. -/
theorem Db.Live.setLoop (heights : ℕ → Lvl) (key : Bytes) : ∀ (xs : List (MsgSetMemData α)) (i : ℕ)
    (rsp : MsgSetBatchRsp) (d : Db α), d.Live →
    ∃ d', LibC.setLoop heights key i xs rsp d =
        some ({ rsp with succNum := rsp.succNum + xs.length }, d') ∧ d'.Live ∧
      d.After (xs.map fun x => ⟨key, x.data, x.score⟩) d'
  | [], i, rsp, d, h => ⟨d, by simp [LibC.setLoop], h, fun _ _ => rfl⟩
  | x :: xs, i, rsp, d, h => by
      obtain ⟨ret, d1, hins, h1⟩ := h.insert (heights i) key x.score x.data
      obtain rfl := Db.insert_ret hins
      have hafter : d.After [⟨key, x.data, x.score⟩] d1 := fun q r => by
        rw [Db.insert_lookup hins]
        simp only [lastSet]
        split <;> rfl
      obtain ⟨d', hrun, h', hrest⟩ := Db.Live.setLoop heights key xs (i + 1)
        { rsp with succNum := rsp.succNum + 1 } d1 h1
      have hnum : rsp.succNum + 1 + (xs.length : ℤ) = rsp.succNum + (x :: xs).length := by
        rw [List.length_cons, Nat.cast_add, Nat.cast_one]
        omega
      refine ⟨d', ?_, h', hafter.trans hrest⟩
      simp only [LibC.setLoop, hins, if_true, Option.bind_eq_bind, Option.bind_some, hrun, hnum]

theorem Db.Live.processDbSet (h : d.Live) (heights : ℕ → Lvl) (req : MsgSetBatchReq α) :
    ∃ d', LibC.processDbSet heights req d = some (⟨0, [], req.dataList.length⟩, d') ∧ d'.Live ∧
      d.After req.entries d' := by
  obtain ⟨d', hrun, h', hafter⟩ := h.setLoop heights req.keyId req.dataList 0 ⟨0, [], 0⟩
  exact ⟨d', by simp [LibC.processDbSet, hrun], h', hafter⟩

/-- A query keeps what a request may rely on. -/
theorem Db.Live.of_errOnly (h : d.Live) {d' : Db α} (hd : d.ErrOnly d') : d'.Live := by
  obtain ⟨err, rfl⟩ := hd
  exact h

/-- **One request.** It completes, leaves every table with members, and changes the scores it
sets and nothing else. -/
theorem handle_live [Zero α] (h : d.Live) (toScore : ToScore α) (env : MsgEnv α) (req : Req α) :
    ∃ rsp d', handle toScore env req d = some (rsp, d') ∧ d'.Live ∧ d.After req.entries d' ∧
      ((∀ r, req ≠ .setBatch r) → d.ErrOnly d') := by
  have hquery : ∀ {rsp d'}, handle toScore env req d = some (rsp, d') → d.ErrOnly d' →
      req.entries = [] → ∃ rsp d', handle toScore env req d = some (rsp, d') ∧ d'.Live ∧
        d.After req.entries d' ∧ ((∀ r, req ≠ .setBatch r) → d.ErrOnly d') := by
    intro rsp d' hh hsame hent
    exact ⟨rsp, d', hh, h.of_errOnly hsame, by rw [hent]; exact hsame.after, fun _ => hsame⟩
  cases req with
  | setBatch req =>
      obtain ⟨d', hset, h', hafter⟩ := h.processDbSet env.heights req
      exact ⟨.setBatch ⟨0, [], req.dataList.length⟩, d', by simp [handle, hset], h', hafter,
        fun hno => absurd rfl (hno req)⟩
  | getScoreBatch req =>
      obtain ⟨err, hrun⟩ := getScoreLoop_spec req.keyId req.memDataList [] d
      have hget : handle toScore env (.getScoreBatch req) d =
          some (.getScoreBatch (processDbGetScore req d).1, { d with strErr := err }) := by
        simp [handle, processDbGetScore, hrun]
      exact hquery hget ⟨err, rfl⟩ rfl
  | rankBatchQuery req =>
      choose rank err hrank using h.ok.getMemRank req.keyId
      obtain ⟨err', hrun⟩ := rankQueryLoop_spec req.keyId env.junk rank
        (fun m => ⟨_, (hrank m).1⟩) req.memInfoList [] d.strErr
      obtain ⟨rsp, hproc⟩ : ∃ rsp, processDbRankQuery env.junk req d =
          some (rsp, { d with strErr := err' }) := by
        simp only [processDbRankQuery, hrun]
        exact ⟨_, rfl⟩
      exact hquery (by simp only [handle, hproc]; rfl) ⟨err', rfl⟩ rfl
  | rangeQuery req =>
      obtain ⟨⟨rsp, d'⟩, hproc⟩ := processDbRangeByRank_total h req
      exact hquery (by simp only [handle, hproc]; rfl) (processDbRangeByRank_same hproc) rfl
  | rangeByScoreQuery req =>
      obtain ⟨⟨rsp, d'⟩, hproc⟩ := processDbRangeByScore_total h toScore req
      exact hquery (by simp only [handle, hproc]; rfl) (processDbRangeByScore_same hproc) rfl
  | topQuery req =>
      obtain ⟨⟨rsp, d'⟩, hproc⟩ := processDbTopQuery_total h req
      exact hquery (by simp only [handle, hproc]; rfl) (processDbTopQuery_same hproc) rfl

end LibC
