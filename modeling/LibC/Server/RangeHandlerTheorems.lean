/-
LibC.Server.RangeHandlerTheorems — what the range queries answer.

Both handlers go through a list from one element on and number what they meet
(`numberedFrom`). By rank, the loop starts where `GetMemsFirstByRank` ends and
stops after as many items as there are positions between the bounds
(`rangeLoop_spec`). It numbers them from the smaller bound on, the search does
not swap the bounds, and the return code is overwritten: `rangeByRank_iff` says
when the answer is right all the same. By score, the loop ends on the last
element of the range, which is at or after the first one, so it ends
(`scoreLoop_spec`), and the answer is right for all bounds
(`rangeByScore_right`).

No `sorry`, no `axiom`, no `native_decide`.
-/
import LibC.Server.RangeHandlers
import LibC.Server.DbTheorems
import LibC.SkipList.FaultTheorems

namespace LibC

open LibC.Lib LibC.Lib.Tower

variable {α : Type}

/-! ## Numbered items -/

/-- Items for members, with consecutive ranks from `rank` on. -/
def numberedFrom : UInt64 → List (α × Bytes) → List (MsgRankInfo α)
  | _, [] => []
  | rank, m :: ms => ⟨rank, m.1, m.2⟩ :: numberedFrom (rank + 1) ms

@[simp] theorem numberedFrom_nil (rank : UInt64) :
    numberedFrom rank ([] : List (α × Bytes)) = [] := rfl

theorem numberedFrom_eq_nil {rank : UInt64} {ms : List (α × Bytes)} :
    numberedFrom rank ms = [] ↔ ms = [] := by
  cases ms with
  | nil => simp
  | cons m ms => simp [numberedFrom]

/-- The first item has the first rank. -/
theorem numberedFrom_rank {rank rank' : UInt64} {ms ms' : List (α × Bytes)}
    (h : numberedFrom rank ms = numberedFrom rank' ms') (hne : numberedFrom rank ms ≠ []) :
    rank = rank' := by
  cases ms with
  | nil => exact absurd rfl hne
  | cons m ms =>
      cases ms' with
      | nil => simp [numberedFrom] at h
      | cons m' ms' => exact congrArg MsgRankInfo.rank (List.cons.inj h).1

/-- The members at the positions from `a` to `b`, counted from `1`, each with its position. -/
def itemsBetween (ms : List (α × Bytes)) (a b : ℕ) : List (MsgRankInfo α) :=
  ((ms.zipIdx 1).filter fun x => decide (a ≤ x.2 ∧ x.2 ≤ b)).map fun x =>
    ⟨UInt64.ofNat x.2, x.1.1, x.1.2⟩

theorem numberedFrom_zipIdx : ∀ (ms : List (α × Bytes)) (n : ℕ),
    ((ms.zipIdx n).map fun x => (⟨UInt64.ofNat x.2, x.1.1, x.1.2⟩ : MsgRankInfo α)) =
      numberedFrom (UInt64.ofNat n) ms
  | [], _ => rfl
  | m :: ms, n => by
      rw [List.zipIdx_cons, List.map_cons, numberedFrom_zipIdx ms (n + 1), numberedFrom,
        UInt64.ofNat_add n 1]
      rfl

theorem slice_zipIdx {δ : Type} (l : List δ) (n a b : ℕ) :
    slice (l.zipIdx n) a b = (slice l a b).zipIdx (n + a) := by
  refine List.ext_getElem? fun k => ?_
  simp only [slice, List.getElem?_drop, List.getElem?_zipIdx, List.getElem?_take]
  split
  · rw [Nat.add_assoc]
  · rfl

/-- The positions from `a` to `b` are a slice. -/
theorem itemsBetween_eq (ms : List (α × Bytes)) (a b : ℕ) :
    itemsBetween ms a b = numberedFrom (UInt64.ofNat (1 + (a - 1))) (slice ms (a - 1) b) := by
  rw [itemsBetween, filter_eq_slice (ms.zipIdx 1) (a - 1) b, slice_zipIdx, numberedFrom_zipIdx]
  intro k x hx
  rw [List.getElem?_zipIdx] at hx
  obtain ⟨m, _, rfl⟩ := Option.map_eq_some_iff.mp hx
  simp only [decide_eq_true_eq]
  omega

/-! ## The tables -/

variable [LinearOrder α] [Neg α] [One α]

/-- The list of a table has an element and is well formed: in order, linked at every level, with
spans that are distances and positions that are 64-bit numbers. -/
def TableShape (s : SortSet α Bytes) : Prop :=
  ∃ ps ts, Repr s.sl ps ts ∧ ts ≠ [] ∧ LinksFit ts ∧ ts.length < 2 ^ 64

/-- The members of the table under a key; none if there is no table. -/
def Db.membersOf (key : Bytes) (d : Db α) : List (α × Bytes) :=
  match d.dbDict.find key with
  | none => []
  | some sset => sset.members

/-! ## By rank -/

/-- The loop numbers the members it meets, until there are `num` or no more. -/
theorem rangeLoop_spec {sl : SkipList α Bytes} {ps : List Ptr} {ts : List (Tower α Bytes)}
    (r : Repr sl ps ts) (min num : UInt64) : ∀ (fuel k : ℕ) (cnt : UInt64)
    (items : List (MsgRankInfo α)), ps.length - k < fuel →
    rangeLoop sl.heap min num fuel cnt ⟨ps[k]?, none⟩ items =
      some (items ++ numberedFrom (min + cnt) ((sl.pairs.drop k).take (num.toNat - cnt.toNat)))
  | 0, _, _, _, hf => absurd hf (Nat.not_lt_zero _)
  | fuel + 1, k, cnt, items, hf => by
      unfold rangeLoop
      cases hp : ps[k]? with
      | none =>
          have hk := List.getElem?_eq_none_iff.mp hp
          have hlen : sl.pairs.length ≤ k := by
            rw [r.pairs_eq, List.length_map, ← r.len]
            exact hk
          simp [Db.endItr, List.drop_eq_nil_of_le hlen]
      | some p =>
          obtain ⟨nd, hg, hpair, hnext⟩ := r.itr_next hp
          obtain ⟨hk, hval⟩ := List.getElem?_eq_some_iff.mp hpair
          have hkp := (List.getElem?_eq_some_iff.mp hp).1
          by_cases hcnt : cnt < num
          · have hlt := UInt64.lt_iff_toNat_lt.mp hcnt
            have hnum := num.toNat_lt
            have hsucc : (cnt + 1).toNat = cnt.toNat + 1 := by
              rw [UInt64.toNat_add, UInt64.toNat_one]
              omega
            have ih := rangeLoop_spec r min num fuel (k + 1) (cnt + 1)
              (items ++ [rankItem (min + cnt) nd]) (by omega)
            simp only [Db.endItr, ne_eq, reduceCtorEq, not_false_eq_true, hcnt, and_self, if_true,
              hg, hnext, ih, Option.bind_eq_bind, Option.bind_some]
            rw [List.drop_eq_getElem_cons hk, hval,
              show num.toNat - cnt.toNat = num.toNat - (cnt.toNat + 1) + 1 by omega,
              List.take_succ_cons, numberedFrom, hsucc, List.append_assoc, UInt64.add_assoc]
            rfl
          · have hle : num.toNat - cnt.toNat = 0 := by
              have := mt UInt64.lt_iff_toNat_lt.mpr hcnt
              omega
            simp [hcnt, hle]

/-- `GetMemsFirstByRank` of a table. -/
theorem getMemsFirstByRank_eq {sset : SortSet α Bytes} {ps : List Ptr}
    {ts : List (Tower α Bytes)} (r : Repr sset.sl ps ts) (hne : ts ≠ []) (hfit : LinksFit ts)
    (hlen : ts.length < 2 ^ 64) {key : Bytes} {d : Db α} (hfind : d.dbDict.find key = some sset)
    (a b : UInt64) :
    ∃ d', d.getMemsFirstByRank key a b = some (⟨if a.toNat ≤ sset.sl.lenth.toNat ∧
        a.toNat - 1 < b.toNat then ps[a.toNat - 1]? else none, none⟩, d') ∧
      d'.dbDict = d.dbDict := by
  have hfirst := r.firstInRangeByIdx_spec hne hfit hlen a b
  obtain ⟨pos, hpos⟩ : ∃ pos, pos = if a.toNat ≤ sset.sl.lenth.toNat ∧ a.toNat - 1 < b.toNat
    then ps[a.toNat - 1]? else none := ⟨_, rfl⟩
  rw [← hpos] at hfirst ⊢
  unfold Db.getMemsFirstByRank
  simp only [hfind, SortSet.getMemsFirstByRank, SortSet.endItr, hfirst, r.endItr_eq hne,
    Option.bind_eq_bind, Option.bind_some]
  cases pos with
  | none => exact ⟨_, rfl, rfl⟩
  | some p => exact ⟨_, rfl, rfl⟩

/-- The items that `ProcessDbRangeByRank` finds for the bounds `a` and `b`. -/
def rankItems (sset : SortSet α Bytes) (a b : UInt64) : List (MsgRankInfo α) :=
  if a.toNat ≤ sset.sl.lenth.toNat ∧ a.toNat - 1 < b.toNat then
    numberedFrom a ((sset.members.drop (a.toNat - 1)).take (b - a + 1).toNat)
  else []

/-- What `ProcessDbRangeByRank` answers when the key has a table. -/
theorem processDbRangeByRank_found (req : MsgRangeQueryReq) {d : Db α} {sset : SortSet α Bytes}
    (hfind : d.dbDict.find req.keyId = some sset) (h : TableShape sset) :
    ∃ d', processDbRangeByRank req d =
      some (⟨0, ascii "Succ.", rankItems sset req.range.min req.range.max⟩, d') := by
  obtain ⟨ps, ts, r, hne, hfit, hlen⟩ := h
  obtain ⟨a, ha⟩ : ∃ a, a = req.range.min := ⟨_, rfl⟩
  obtain ⟨b, hb⟩ : ∃ b, b = req.range.max := ⟨_, rfl⟩
  obtain ⟨d', hget, hdict⟩ := getMemsFirstByRank_eq r hne hfit hlen hfind a b
  refine ⟨d', ?_⟩
  have hnodes : d'.nodesOf req.keyId = sset.sl.heap := by simp [Db.nodesOf, hdict, hfind]
  unfold processDbRangeByRank rankItems
  rw [← ha, ← hb, hget]
  by_cases hin : a.toNat ≤ sset.sl.lenth.toNat ∧ a.toNat - 1 < b.toNat
  · simp only [if_pos hin]
    cases hp : ps[a.toNat - 1]? with
    | none =>
        have hk := List.getElem?_eq_none_iff.mp hp
        have hmem : sset.members.length ≤ a.toNat - 1 := by
          rw [SortSet.members, r.pairs_eq, List.length_map, ← r.len]
          exact hk
        simp [Db.endItr, List.drop_eq_nil_of_le hmem]
    | some p =>
        have hle : ¬ a > b := by
          rw [gt_iff_lt, UInt64.lt_iff_toNat_lt]
          omega
        have hsize := r.length_lt_size
        have hlen' := r.len
        have hloop := rangeLoop_spec r a (b - a + 1) (sset.sl.heap.size + 1) (a.toNat - 1) 0 []
          (by omega)
        rw [hp] at hloop
        simp [Db.endItr, hle, hnodes, hloop, SortSet.members]
  · simp only [if_neg hin]
    rfl

/-- The answer of `ProcessDbRangeByRank` is right: it lists the members at the positions between
the smaller and the larger bound with these positions, and says that it succeeded if there is one,
and else that it failed, with the error. -/
def RangeByRankRight (req : MsgRangeQueryReq) (d : Db α) : Prop :=
  ∃ rsp d', processDbRangeByRank req d = some (rsp, d') ∧
    rsp.rankInfo = itemsBetween (d.membersOf req.keyId)
      (min req.range.min.toNat req.range.max.toNat)
      (max req.range.min.toNat req.range.max.toNat) ∧
    (rsp.rankInfo ≠ [] → rsp.ret = MsgRet.success.toInt) ∧
    (rsp.rankInfo = [] →
      rsp.ret = MsgRet.fail.toInt ∧ rsp.err = ascii d'.strErr ∧ d'.strErr ≠ "")

omit [Neg α] [One α] in
/-- When the key has no table, the answer says that there was no error. -/
theorem processDbRangeByRank_missing {req : MsgRangeQueryReq} {d : Db α}
    (hfind : d.dbDict.find req.keyId = none) :
    ∃ d', processDbRangeByRank req d = some (⟨0, ascii "Succ.", []⟩, d') := by
  simp [processDbRangeByRank, Db.getMemsFirstByRank, hfind, Db.endItr]

omit [LinearOrder α] [Neg α] [One α] in
/-- When there are items, there is a member where the search begins. -/
theorem lt_of_rankItems {sset : SortSet α Bytes} {a b : UInt64} (h : rankItems sset a b ≠ []) :
    a.toNat ≤ sset.sl.lenth.toNat ∧ a.toNat - 1 < b.toNat ∧ a.toNat - 1 < sset.members.length := by
  unfold rankItems at h
  split at h
  · rename_i hin
    refine ⟨hin.1, hin.2, ?_⟩
    by_contra hlen
    exact h (by rw [List.drop_eq_nil_of_le (Nat.not_lt.mp hlen)]; simp)
  · exact absurd rfl h

omit [LinearOrder α] [Neg α] [One α] in
/-- The items are those at the positions between the bounds, when these are in order and count
from `1`. -/
theorem rankItems_eq {sset : SortSet α Bytes} {a b : UInt64} (h1 : 1 ≤ a.toNat)
    (hab : a.toNat ≤ b.toNat) (hlenth : a.toNat ≤ sset.sl.lenth.toNat) :
    rankItems sset a b = itemsBetween sset.members a.toNat b.toNat := by
  have hb := b.toNat_lt
  have hle : a ≤ b := UInt64.le_iff_toNat_le.mpr hab
  have hnum : (b - a + 1).toNat = b.toNat - (a.toNat - 1) := by
    rw [UInt64.toNat_add, UInt64.toNat_sub_of_le _ _ hle, UInt64.toNat_one]
    omega
  rw [rankItems, if_pos ⟨hlenth, by omega⟩, itemsBetween_eq, slice, List.drop_take, hnum,
    Nat.add_sub_cancel' h1, UInt64.ofNat_toNat]

/-- **Ranges of ranks.** When the tables are well formed, `ProcessDbRangeByRank` answers right
exactly when the key has a table, the bounds are in order and count from `1`, there is a member at
the first one, and `lenth_` does not lie below it. -/
theorem rangeByRank_iff (req : MsgRangeQueryReq) (d : Db α)
    (htab : ∀ key sset, d.dbDict.find key = some sset → TableShape sset) :
    RangeByRankRight req d ↔ ∃ sset, d.dbDict.find req.keyId = some sset ∧
      1 ≤ req.range.min ∧ req.range.min ≤ req.range.max ∧
      req.range.min.toNat ≤ sset.members.length ∧ req.range.min ≤ sset.sl.lenth := by
  obtain ⟨a, ha⟩ : ∃ a, a = req.range.min := ⟨_, rfl⟩
  obtain ⟨b, hb⟩ : ∃ b, b = req.range.max := ⟨_, rfl⟩
  simp only [RangeByRankRight, ← ha, ← hb, UInt64.le_iff_toNat_le, UInt64.toNat_one]
  cases hfind : d.dbDict.find req.keyId with
  | none =>
      -- the return code is overwritten
      obtain ⟨d', hproc⟩ := processDbRangeByRank_missing hfind
      simp [hproc, MsgRet.toInt]
  | some sset =>
      obtain ⟨d', hproc⟩ := processDbRangeByRank_found req hfind (htab _ _ hfind)
      have hmem : d.membersOf req.keyId = sset.members := by simp [Db.membersOf, hfind]
      simp only [hproc, ← ha, ← hb, hmem, Option.some.injEq, exists_eq_left']
      constructor
      · rintro ⟨rsp, d1, heq, hinfo, _, hfail⟩
        obtain ⟨rfl, rfl⟩ := Prod.mk.inj heq
        have hne : rankItems sset a b ≠ [] := fun h =>
          absurd (hfail h).1 (show (0 : Int) ≠ MsgRet.fail.toInt by decide)
        obtain ⟨hlenth, hlt, hlen⟩ := lt_of_rankItems hne
        have h1 : 1 ≤ a.toNat := by
          -- the items are numbered from the bound, and the positions from `1`
          by_contra h0
          have h0 : a.toNat = 0 := by omega
          rw [h0, Nat.zero_min, itemsBetween_eq] at hinfo
          unfold rankItems at hinfo hne
          rw [if_pos ⟨hlenth, hlt⟩] at hinfo hne
          rw [numberedFrom_rank hinfo hne] at h0
          exact absurd h0 (by decide)
        exact ⟨h1, by omega, by omega, hlenth⟩
      · rintro ⟨h1, hab, hle, hlenth⟩
        refine ⟨_, _, rfl, ?_, fun _ => rfl, fun hnil => ?_⟩
        · rw [rankItems_eq h1 hab hlenth, Nat.min_eq_left hab, Nat.max_eq_right hab]
        · rw [rankItems_eq h1 hab hlenth, itemsBetween_eq, numberedFrom_eq_nil] at hnil
          have hlen := congrArg List.length hnil
          rw [slice, List.length_drop, List.length_take, List.length_nil] at hlen
          omega

/-- A first insertion makes a well-formed table with one member. -/
theorem tableShape_first (lvl : Lvl) (key : Bytes) (score : α) (data : Bytes) :
    ∃ sset d, (Db.new : Db α).insert lvl key score data = some (true, d) ∧
      (∀ k, d.dbDict.find k = if k = key then some sset else none) ∧
      (∀ k s, d.dbDict.find k = some s → TableShape s) ∧ sset.members = [(score, data)] ∧
      sset.sl.lenth = 1 := by
  obtain ⟨sl, hins, hlenth, r⟩ := insert_last (repr_new : Repr (SkipList.new : SkipList α Bytes)
    [] []) lvl (show ∀ t ∈ ([] : List (Tower α Bytes)), Before score data t by simp)
  obtain ⟨sset, hsset⟩ : ∃ sset : SortSet α Bytes,
    sset = ⟨sl, Function.update (fun _ => none) data (some score)⟩ := ⟨_, rfl⟩
  have hopen : Db.openTable key (Dict.empty : Dict Bytes (SortSet α Bytes)) =
      Dict.empty.insert key SortSet.new := rfl
  have hupdate : (SortSet.new : SortSet α Bytes).update lvl score data = some (true, sset) := by
    simp [SortSet.update, SortSet.insert, SortSet.new, hins, hsset]
  have hnone := Dict.find_empty (ν := SortSet α Bytes) key
  have hd : (Db.new : Db α).insert lvl key score data =
      some (true, { (Db.new : Db α) with
        dbDict := (Dict.empty.insert key SortSet.new).modify key fun _ => sset }) := by
    simp only [Db.insert, Db.new, hopen, Dict.find_insert hnone, if_true, hupdate,
      Option.bind_eq_bind, Option.bind_some]
  obtain ⟨d, hnew⟩ : ∃ d, d = { (Db.new : Db α) with
    dbDict := (Dict.empty.insert key SortSet.new).modify key fun _ => sset } := ⟨_, rfl⟩
  have hfind : ∀ k, d.dbDict.find k = if k = key then some sset else none := by
    intro k
    rw [hnew]
    simp only [Dict.find_modify, Dict.find_insert hnone, Dict.find_empty]
    split <;> rfl
  rw [← hnew] at hd
  refine ⟨sset, d, hd, hfind, fun k s hs => ?_, ?_, ?_⟩
  · rw [hfind] at hs
    split at hs
    · rw [← Option.some.inj hs]
      exact ⟨_, _, by rw [hsset]; exact r, by simp, linksFit_of_length (by simp), by simp⟩
    · cases hs
  · simp [SortSet.members, hsset, r.pairs_eq]
  · simpa [hsset, SkipList.new] using hlenth

omit [Neg α] [One α] in
/-- An answer of success without a member is never right. -/
theorem not_rangeByRankRight {req : MsgRangeQueryReq} {d : Db α} {err : Bytes}
    (h : ∃ d', processDbRangeByRank req d = some (⟨0, err, []⟩, d')) :
    ¬ RangeByRankRight req d := by
  obtain ⟨d', hproc⟩ := h
  rintro ⟨rsp, d1, hrsp, _, _, hfail⟩
  rw [hproc] at hrsp
  cases hrsp
  exact absurd (hfail rfl).1 (show (0 : Int) ≠ MsgRet.fail.toInt by decide)

/-- A table with one member, and four requests that are answered wrong: for a key that has no table,
for positions past the end, for bounds in the wrong order, and for a range from `0`. -/
theorem rangeByRank_succeeds :
    ∃ (sset : SortSet ℤ Bytes) (d : Db ℤ),
      (Db.new : Db ℤ).insert ⟨1, by decide⟩ [107] 5 [65] = some (true, d) ∧
      d.dbDict.find [107] = some sset ∧
      (∀ key s, d.dbDict.find key = some s → TableShape s) ∧ sset.members = [(5, [65])] ∧
      ¬ RangeByRankRight ⟨[66], ⟨1, 1⟩⟩ d ∧ ¬ RangeByRankRight ⟨[107], ⟨2, 3⟩⟩ d ∧
      ¬ RangeByRankRight ⟨[107], ⟨5, 1⟩⟩ d ∧ ¬ RangeByRankRight ⟨[107], ⟨0, 1⟩⟩ d := by
  obtain ⟨sset, d, hins, hfind, htabs, hmem, hlenth⟩ :=
    tableShape_first ⟨1, by decide⟩ [107] (5 : ℤ) [65]
  have hkey : d.dbDict.find [107] = some sset := by rw [hfind, if_pos rfl]
  have htab := htabs _ _ hkey
  have hitems : rankItems sset 2 3 = [] ∧ rankItems sset 5 1 = [] := by
    simp [rankItems, hlenth]
  refine ⟨sset, d, hins, hkey, htabs, hmem, ?_, ?_, ?_, ?_⟩
  · exact not_rangeByRankRight (processDbRangeByRank_missing (by rw [hfind]; rfl))
  · have h := processDbRangeByRank_found ⟨[107], ⟨2, 3⟩⟩ hkey htab
    exact not_rangeByRankRight (by rw [hitems.1] at h; exact h)
  · have h := processDbRangeByRank_found ⟨[107], ⟨5, 1⟩⟩ hkey htab
    exact not_rangeByRankRight (by rw [hitems.2] at h; exact h)
  · obtain ⟨d', h⟩ := processDbRangeByRank_found ⟨[107], ⟨0, 1⟩⟩ hkey htab
    rintro ⟨rsp, d1, hrsp, hinfo, _⟩
    rw [h] at hrsp
    cases hrsp
    have hm : d.membersOf [107] = [(5, [65])] := by simp [Db.membersOf, hkey, hmem]
    simp [rankItems, hmem, hlenth, hm, itemsBetween, numberedFrom] at hinfo

/-- A sorted set with members is a well-formed table. -/
theorem TableOk.shape {s : SortSet α Bytes} (h : TableOk s) (hne : s.members ≠ [])
    (hlen : s.members.length < 2 ^ 32) : TableShape s := by
  obtain ⟨ps, ts, r⟩ := h
  have hmem : s.members = ts.map fun t => (t.score, t.val) := r.repr.pairs_eq
  rw [hmem, List.length_map] at hlen
  rw [hmem, Ne, List.map_eq_nil_iff] at hne
  exact ⟨ps, ts, r.repr, hne, linksFit_of_length hlen, by omega⟩

/-- A member is inserted under the key `k`. -/
def insertUnderK (m : Lvl × ℤ × Bytes) (d : Db ℤ) : Option (Db ℤ) :=
  (d.insert m.1 [107] m.2.1 m.2.2).map Prod.snd

theorem heightOne : 1 ≤ 1 ∧ 1 ≤ maxLevel := by decide

theorem heightTwo : 1 ≤ 2 ∧ 2 ≤ maxLevel := by decide

/-- Four members, two of them tied. -/
def fourMembers : List (Lvl × ℤ × Bytes) :=
  [(⟨1, heightOne⟩, 5, [65]), (⟨2, heightTwo⟩, 3, [66]), (⟨2, heightTwo⟩, 5, [67]),
    (⟨1, heightOne⟩, 9, [68])]

theorem tableShape_four :
    ∃ (d : Db ℤ) (sset : SortSet ℤ Bytes), run insertUnderK fourMembers Db.new = some d ∧
      (∀ key s, d.dbDict.find key = some s → TableShape s) ∧ d.dbDict.find [107] = some sset ∧
      sset.members = [(3, [66]), (5, [65]), (5, [67]), (9, [68])] ∧ sset.sl.lenth = 4 := by
  have hstep : ∀ (m : Lvl × ℤ × Bytes) (d : Db ℤ), d.Ok →
      ∃ d', insertUnderK m d = some d' ∧ d'.Ok := by
    intro m d h
    obtain ⟨_, d', hins, h'⟩ := h.insert m.1 [107] m.2.1 m.2.2
    exact ⟨d', by rw [insertUnderK, hins, Option.map_some], h'⟩
  obtain ⟨d, hrun, hok⟩ := run_total Db.Ok hstep fourMembers Db.new dbOk_new
  have htables : ((run insertUnderK fourMembers Db.new).map fun d =>
      d.dbDict.entries.map fun e => ((e.1, e.2.sl.lenth), e.2.members)) =
        some [(([107], 4), [(3, [66]), (5, [65]), (5, [67]), (9, [68])])] := by decide +kernel
  rw [hrun, Option.map_some, Option.some.injEq] at htables
  obtain ⟨e, hone, he⟩ := List.map_eq_singleton_iff.mp htables
  simp only [Prod.mk.injEq] at he
  obtain ⟨⟨hkey, hlen⟩, hmem⟩ := he
  have hfind : d.dbDict.find [107] = some e.2 :=
    Dict.find_eq_some.mpr (by rw [hone, ← hkey]; exact List.mem_singleton_self e)
  refine ⟨d, e.2, hrun, fun key s hs => ?_, hfind, hmem, hlen⟩
  have hentry := Dict.find_eq_some.mp hs
  rw [hone, List.mem_singleton] at hentry
  have hs' : s = e.2 := congrArg Prod.snd hentry
  refine (hok key s hs).shape ?_ ?_ <;> rw [hs', hmem] <;> decide

/-- The tied members are the second and the third. -/
theorem rangeByRank_four :
    ∃ (d : Db ℤ) (sset : SortSet ℤ Bytes), run insertUnderK fourMembers Db.new = some d ∧
      (∀ key s, d.dbDict.find key = some s → TableShape s) ∧ d.dbDict.find [107] = some sset ∧
      sset.members = [(3, [66]), (5, [65]), (5, [67]), (9, [68])] ∧
      (RangeByRankRight ⟨[107], ⟨2, 3⟩⟩ d ↔ ∃ s, d.dbDict.find [107] = some s ∧
        (1 : UInt64) ≤ 2 ∧ (2 : UInt64) ≤ 3 ∧ (2 : UInt64).toNat ≤ s.members.length ∧
        2 ≤ s.sl.lenth) ∧
      RangeByRankRight ⟨[107], ⟨2, 3⟩⟩ d := by
  obtain ⟨d, sset, hrun, htab, hfind, hmem, hlenth⟩ := tableShape_four
  have h := rangeByRank_iff ⟨[107], ⟨2, 3⟩⟩ d htab
  refine ⟨d, sset, hrun, htab, hfind, hmem, h, h.mpr ⟨sset, hfind, ?_, ?_, ?_, ?_⟩⟩
  · decide
  · decide
  · rw [hmem]
    decide
  · rw [hlenth]
    decide

/-! ## By score -/

/-- The loop ends on the last element, and with it numbers the members from the first to the
last one. -/
theorem scoreLoop_spec {sl : SkipList α Bytes} {ps : List Ptr} {ts : List (Tower α Bytes)}
    (r : Repr sl ps ts) {j : ℕ} {q : Ptr} {last : SkipListNode α Bytes} (hq : ps[j]? = some q)
    (hlast : sl.heap.get q = some last) : ∀ (fuel k : ℕ) (p : Ptr) (rank : UInt64)
    (items : List (MsgRankInfo α)), ps[k]? = some p → k ≤ j → j - k < fuel →
    ∃ rank' items', scoreLoop sl.heap ⟨some q, none⟩ fuel rank ⟨some p, none⟩ items =
        some (rank', items') ∧
      items' ++ [rankItem rank' last] = items ++ numberedFrom rank (slice sl.pairs k (j + 1))
  | 0, _, _, _, _, _, _, hf => absurd hf (Nat.not_lt_zero _)
  | fuel + 1, k, p, rank, items, hp, hkj, hf => by
      obtain ⟨nd, hg, hpair, hnext⟩ := r.itr_next hp
      obtain ⟨hk, hval⟩ := List.getElem?_eq_some_iff.mp hpair
      unfold scoreLoop
      rw [slice_cons (by omega) hk, hval, numberedFrom]
      by_cases hpq : p = q
      · -- the last one
        subst hpq
        have hkj' : k = j := by
          have h1 : (sl.head :: ps)[k + 1]? = some p := by rwa [List.getElem?_cons_succ]
          have h2 : (sl.head :: ps)[j + 1]? = some p := by rwa [List.getElem?_cons_succ]
          exact Nat.succ.inj (r.pos_inj h1 h2)
        subst hkj'
        obtain rfl : nd = last := Option.some.inj (hg.symm.trans hlast)
        refine ⟨rank, items, if_neg fun h => h rfl, ?_⟩
        rw [slice_empty _ (Nat.le_refl _)]
        rfl
      · have hlt : k < j := by
          rcases Nat.eq_or_lt_of_le hkj with h | h
          · subst h
            exact absurd (Option.some.inj (hp.symm.trans hq)) hpq
          · exact h
        have hj := (List.getElem?_eq_some_iff.mp hq).1
        have hp' : ps[k + 1]? = some ps[k + 1] := List.getElem?_eq_getElem (by omega)
        obtain ⟨rank', items', hloop, heq⟩ := scoreLoop_spec r hq hlast fuel (k + 1) ps[k + 1]
          (rank + 1) (items ++ [rankItem rank nd]) hp' hlt (by omega)
        refine ⟨rank', items', ?_, ?_⟩
        · rw [if_pos fun h => hpq (Option.some.inj h)]
          simp only [hg, hnext, hp', hloop, Option.bind_eq_bind, Option.bind_some]
        · rw [heq, List.append_assoc]
          rfl

/-- The members whose score lies between `a` and `b`. -/
def membersBetween (ms : List (α × Bytes)) (a b : α) : List (α × Bytes) :=
  ms.filter fun m => decide (min a b ≤ m.1 ∧ m.1 ≤ max a b)

variable {sset : SortSet α Bytes} {ps : List Ptr} {ts : List (Tower α Bytes)} {a b : α} {A B : ℕ}
variable {key : Bytes} {d : Db α}

theorem Repr.membersBetween_eq (r : Repr sset.sl ps ts) (c : Cut ts a b A B) :
    membersBetween sset.members a b = slice sset.members A B := by
  refine filter_eq_slice _ A B fun k m hm => ?_
  rw [SortSet.members, r.pairs_eq, List.getElem?_map] at hm
  obtain ⟨t, ht, rfl⟩ := Option.map_eq_some_iff.mp hm
  rw [decide_eq_true_iff, c.upTo k t ht, ← not_lt, c.below k t ht, Nat.not_lt]

/-- `GetMemsByScore` of a table: the first and the last member of the range, or an error. -/
theorem getMemsByScore_eq (r : Repr sset.sl ps ts) (hne : ts ≠ []) (c : Cut ts a b A B)
    (hlow : -1 < min a b) (hfind : d.dbDict.find key = some sset) :
    d.getMemsByScore key a b =
      if A < B then some ((⟨ps[A]?, none⟩, ⟨ps[B - 1]?, none⟩), { d with strErr := "" })
      else some ((Db.endItr, Db.endItr), { d with strErr := "Data is not exist." }) := by
  have hfirst := r.firstInRangeByScore_eq hne c
  have hlast := r.lastInRangeByScore_eq hne c
  have hnohead : ¬ (B = 0 ∧ min a b ≤ -1) := fun h => absurd hlow (not_lt.mpr h.2)
  rw [if_neg hnohead] at hlast
  unfold Db.getMemsByScore
  simp only [hfind, SortSet.getMemsByScore, SortSet.endItr, hfirst, hlast, r.endItr_eq hne,
    Option.bind_eq_bind, Option.bind_some]
  by_cases hAB : A < B
  · have hA : A < ps.length := by
      have := c.le
      have := r.len
      omega
    simp [hAB, List.getElem?_eq_getElem hA]
  · simp [hAB]

/-- `GetMemRank` of a table answers, whatever the error text was. -/
theorem getMemRank_total (r : Repr sset.sl ps ts) (key data : Bytes) :
    ∃ ans, ∀ d : Db α, d.dbDict.find key = some sset →
      ∃ d1, d.getMemRank key data = some (ans, d1) := by
  cases hdict : sset.dict data with
  | none =>
      refine ⟨none, fun d hfind => ⟨{ d with strErr := "Data is not exist!" }, ?_⟩⟩
      simp [Db.getMemRank, hfind, SortSet.getMemRank, hdict]
  | some score =>
      obtain ⟨rank, hrank⟩ := r.rankDescend_total score data sset.sl.level 0 sset.sl.head 0
        r.level.2 rfl
      refine ⟨some rank, fun d hfind => ⟨{ d with strErr := "" }, ?_⟩⟩
      simp [Db.getMemRank, hfind, SortSet.getMemRank, hdict, SkipList.getRank, hrank]

/-- The answer of `ProcessDbRangeByScore` is right: it lists the members with a score between the
bounds, from the rank of the first one on, or there is none and it says so. -/
def RangeByScoreRight (toScore : ToScore α) (req : MsgRangeQueryReq) (d : Db α) :
    Prop :=
  ∃ rsp d', processDbRangeByScore toScore req d = some (rsp, d') ∧
    (∀ m ms, membersBetween (d.membersOf req.keyId) (toScore.conv req.range.min)
        (toScore.conv req.range.max) = m :: ms →
      rsp.ret = MsgRet.success.toInt ∧ ∃ ans d1, d.getMemRank req.keyId m.2 = some (ans, d1) ∧
        rsp.rankInfo = numberedFrom (ans.getD 0) (m :: ms)) ∧
    (membersBetween (d.membersOf req.keyId) (toScore.conv req.range.min)
        (toScore.conv req.range.max) = [] →
      rsp.ret = MsgRet.fail.toInt ∧ rsp.err ≠ [] ∧ rsp.rankInfo = [])

/-- An error of `GetMemsByScore` is the answer. -/
theorem processDbRangeByScore_fail {toScore : ToScore α} {req : MsgRangeQueryReq}
    {d d' : Db α} {pair : SkipList.Itr × SkipList.Itr}
    (hget : d.getMemsByScore req.keyId (toScore.conv req.range.min) (toScore.conv req.range.max) =
      some (pair, d')) (err : String) (herr : d'.strErr = err) (hne : err ≠ "") :
    processDbRangeByScore toScore req d = some (⟨-1, ascii err, []⟩, d') := by
  subst herr
  unfold processDbRangeByScore
  simp only [hget, Option.bind_eq_bind, Option.bind_some, if_pos hne]
  rfl

/-- The members from position `A` to position `B - 1` are the answer. -/
theorem processDbRangeByScore_found {toScore : ToScore α} {req : MsgRangeQueryReq} {d d' : Db α}
    (r : Repr sset.sl ps ts) (hAB : A < B) (hB : B ≤ ts.length)
    (hget : d.getMemsByScore req.keyId (toScore.conv req.range.min) (toScore.conv req.range.max) =
      some ((⟨ps[A]?, none⟩, ⟨ps[B - 1]?, none⟩), d'))
    (hfind : d'.dbDict.find req.keyId = some sset) (herr : d'.strErr = "") {ans : Option UInt64}
    (hans : ∀ m, sset.members[A]? = some m → ∃ d1, d'.getMemRank req.keyId m.2 = some (ans, d1)) :
    ∃ d1, processDbRangeByScore toScore req d =
      some (⟨0, ascii "Succ.", numberedFrom (ans.getD 0) (slice sset.members A B)⟩, d1) := by
  have hlen := r.len
  have hsize := r.length_lt_size
  have hp : ps[A]? = some ps[A] := List.getElem?_eq_getElem (by omega)
  have hq : ps[B - 1]? = some ps[B - 1] := List.getElem?_eq_getElem (by omega)
  obtain ⟨nd, hg, hpair, _⟩ := r.itr_next hp
  obtain ⟨last, hlast, _⟩ := r.itr_next hq
  obtain ⟨d1, hrank⟩ := hans _ hpair
  obtain ⟨rank', items', hloop, hitems⟩ := scoreLoop_spec r hq hlast (sset.sl.heap.size + 1) A
    ps[A] (ans.getD 0) [] hp (by omega) (by omega)
  have hnodes : d'.nodesOf req.keyId = sset.sl.heap := by simp [Db.nodesOf, hfind]
  rw [List.nil_append, show B - 1 + 1 = B by omega] at hitems
  refine ⟨d1, ?_⟩
  unfold processDbRangeByScore
  simp only [hget, herr, hnodes, hp, hq, hg, hrank, hloop, hlast, hitems, SortSet.members, ne_eq,
    not_true_eq_false, if_false, Option.bind_eq_bind, Option.bind_some]

/-- **Ranges of scores.** When the tables are well formed, `ProcessDbRangeByScore` answers right
for every key and all bounds. -/
theorem rangeByScore_right (toScore : ToScore α) (req : MsgRangeQueryReq) (d : Db α)
    (htab : ∀ key sset, d.dbDict.find key = some sset → TableShape sset) :
    RangeByScoreRight toScore req d := by
  have hlow : -1 < min (toScore.conv req.range.min) (toScore.conv req.range.max) :=
    lt_min (toScore.neg_one_lt _) (toScore.neg_one_lt _)
  unfold RangeByScoreRight
  cases hfind : d.dbDict.find req.keyId with
  | none =>
      have hmem : d.membersOf req.keyId = [] := by simp [Db.membersOf, hfind]
      have hget : d.getMemsByScore req.keyId (toScore.conv req.range.min)
          (toScore.conv req.range.max) =
            some ((Db.endItr, Db.endItr), { d with strErr := "Key is not exist!" }) := by
        simp [Db.getMemsByScore, hfind]
      have hproc := processDbRangeByScore_fail hget "Key is not exist!" rfl (by decide)
      rw [hmem]
      refine ⟨_, _, hproc, ?_, ?_⟩
      · intro m ms h
        simp [membersBetween] at h
      · intro _
        exact ⟨rfl, show ascii "Key is not exist!" ≠ [] by decide, rfl⟩
  | some sset =>
      obtain ⟨ps, ts, r, hne, _⟩ := htab _ _ hfind
      obtain ⟨A, B, c⟩ := exists_cut r.sorted (toScore.conv req.range.min)
        (toScore.conv req.range.max)
      have hmem : d.membersOf req.keyId = sset.members := by simp [Db.membersOf, hfind]
      have hget := getMemsByScore_eq r hne c hlow hfind
      rw [hmem, r.membersBetween_eq c]
      by_cases hAB : A < B
      · rw [if_pos hAB] at hget
        have hlen : sset.members.length = ts.length := by
          rw [SortSet.members, r.pairs_eq, List.length_map]
        have hA : A < sset.members.length := by
          have := c.le
          omega
        obtain ⟨ans, hans⟩ := getMemRank_total r req.keyId sset.members[A].2
        have hfirst : ∀ m, sset.members[A]? = some m →
            ∃ d1, ({ d with strErr := "" } : Db α).getMemRank req.keyId m.2 = some (ans, d1) := by
          intro m hm
          rw [List.getElem?_eq_getElem hA] at hm
          rw [← Option.some.inj hm]
          exact hans _ hfind
        obtain ⟨d1, hproc⟩ := processDbRangeByScore_found r hAB c.le.2 hget hfind rfl hfirst
        have hcons := slice_cons hAB hA
        refine ⟨_, d1, hproc, fun m ms h => ⟨rfl, ?_⟩, fun h => ?_⟩
        · rw [hcons] at h
          obtain ⟨hm, hms⟩ := List.cons.inj h
          obtain ⟨d2, hd2⟩ := hans d hfind
          exact ⟨ans, d2, by rw [← hm]; exact hd2, by rw [← h, ← hcons]⟩
        · rw [hcons] at h
          cases h
      · rw [if_neg hAB] at hget
        have hproc := processDbRangeByScore_fail hget "Data is not exist." rfl (by decide)
        rw [slice_empty _ (Nat.not_lt.mp hAB)]
        refine ⟨_, _, hproc, ?_, ?_⟩
        · intro m ms h
          cases h
        · intro _
          exact ⟨rfl, show ascii "Data is not exist." ≠ [] by decide, rfl⟩

/-- Scores that are integers. -/
def intScore : ToScore ℤ where
  conv x := x.toNat
  mono _ _ h := Int.ofNat_le.mpr (UInt64.le_iff_toNat_le.mp h)
  neg_one_lt _ := Int.lt_of_lt_of_le (by decide) (Int.natCast_nonneg _)

/-- The range from `4` to `9`, with the bounds in the wrong order. -/
theorem rangeByScore_four :
    ∃ (d : Db ℤ) (sset : SortSet ℤ Bytes), run insertUnderK fourMembers Db.new = some d ∧
      (∀ key s, d.dbDict.find key = some s → TableShape s) ∧ d.dbDict.find [107] = some sset ∧
      sset.members = [(3, [66]), (5, [65]), (5, [67]), (9, [68])] ∧
      RangeByScoreRight intScore ⟨[107], ⟨9, 4⟩⟩ d := by
  obtain ⟨d, sset, hrun, htab, hfind, hmem, _⟩ := tableShape_four
  exact ⟨d, sset, hrun, htab, hfind, hmem, rangeByScore_right intScore ⟨[107], ⟨9, 4⟩⟩ d htab⟩

end LibC
