/-
LibC.Server.HandlerTheorems — what is read back after a history of requests.

The database is compared with the list of everything that was ever set, oldest
first: `lastSet` is the newest entry for a key and a member. Setting stores a
member under its full byte string, so the database follows the list
(`Follows`); asking cuts a member off at its first zero byte.
`run_getScore_iff` says for which requests that makes no difference.

No `sorry`, no `axiom`, no `native_decide`.
-/
import LibC.Server.DbTheorems
import LibC.Server.Handlers
import Mathlib.Data.List.TakeWhile

namespace LibC

open LibC.Lib

variable {α : Type} [LinearOrder α] [Neg α] [One α]

/-! ## Histories -/

/-- A key, a member and the score it was given. -/
structure Entry (α : Type) where
  key : Bytes
  data : Bytes
  score : α

/-- The score that was set last. -/
def lastSet (key data : Bytes) : List (Entry α) → Option α
  | [] => none
  | e :: later =>
      match lastSet key data later with
      | some score => some score
      | none => if e.key = key ∧ e.data = data then some e.score else none

omit [LinearOrder α] [Neg α] [One α] in
/-- One more entry. -/
theorem lastSet_concat (key data : Bytes) (e : Entry α) : ∀ past : List (Entry α),
    lastSet key data (past ++ [e]) =
      if e.key = key ∧ e.data = data then some e.score else lastSet key data past
  | [] => by simp [lastSet]
  | e' :: past => by
      simp only [List.cons_append, lastSet, lastSet_concat key data e past]
      by_cases h : e.key = key ∧ e.data = data
      · simp only [if_pos h]
      · simp only [if_neg h]

/-- The entries of a request. -/
def MsgSetBatchReq.entries (req : MsgSetBatchReq α) : List (Entry α) :=
  req.dataList.map fun x => ⟨req.keyId, x.data, x.score⟩

/-! ## Setting -/

/-- The score a database has for a member. -/
def Db.lookup (d : Db α) (key data : Bytes) : Option α :=
  (d.dbDict.find key).bind fun s => s.dict data

/-- The database is what the entries have made it. -/
structure Follows (past : List (Entry α)) (d : Db α) : Prop where
  ok : d.Ok
  lookup : ∀ key data, d.lookup key data = lastSet key data past

omit [Neg α] [One α] in
theorem SortSet.insert_dict {s s' : SortSet α Bytes} {lvl : Lvl} {score : α} {data : Bytes}
    {ret : Bool} (hd : s.dict data = none) (h : s.insert lvl score data = some (ret, s'))
    (q : Bytes) : s'.dict q = if q = data then some score else s.dict q := by
  simp only [SortSet.insert, hd, Option.bind_eq_bind, Option.bind_eq_some_iff,
    Option.some.injEq, Prod.mk.injEq] at h
  obtain ⟨_, _, _, rfl⟩ := h
  by_cases hq : q = data
  · simp [hq]
  · simp [hq]

omit [Neg α] [One α] in
/-- After an update the member has the score, and the others have what they had. -/
theorem SortSet.update_dict {s s' : SortSet α Bytes} {lvl : Lvl} {score : α} {data : Bytes}
    {ret : Bool} (h : s.update lvl score data = some (ret, s')) (q : Bytes) :
    s'.dict q = if q = data then some score else s.dict q := by
  cases hd : s.dict data with
  | none =>
      simp only [SortSet.update, hd] at h
      exact SortSet.insert_dict hd h q
  | some old =>
      by_cases hold : old = score
      · subst hold
        simp only [SortSet.update, hd, ne_eq, not_true_eq_false, if_false, Option.some.injEq,
          Prod.mk.injEq] at h
        obtain ⟨_, rfl⟩ := h
        by_cases hq : q = data
        · rw [if_pos hq, hq, hd]
        · rw [if_neg hq]
      · -- the member leaves and comes back
        simp only [SortSet.update, hd, ne_eq, hold, not_false_eq_true, if_true,
          Option.bind_eq_bind, Option.bind_eq_some_iff] at h
        obtain ⟨⟨ret1, s1⟩, hdel, hins⟩ := h
        simp only [SortSet.delMem, hd, Option.bind_eq_bind, Option.bind_eq_some_iff,
          Option.some.injEq, Prod.mk.injEq] at hdel
        obtain ⟨_, _, _, rfl⟩ := hdel
        rw [SortSet.insert_dict (by simp) hins]
        by_cases hq : q = data
        · simp [hq]
        · simp [hq]

/-- Setting one member. -/
theorem Db.insert_lookup {d d' : Db α} {lvl : Lvl} {key : Bytes} {score : α} {data : Bytes}
    {ret : Bool} (h : d.insert lvl key score data = some (ret, d')) (q r : Bytes) :
    d'.lookup q r = if key = q ∧ data = r then some score else d.lookup q r := by
  have hopen : (Db.openTable key d.dbDict).find key =
      some ((d.dbDict.find key).getD SortSet.new) := by rw [find_openTable, if_pos rfl]
  simp only [Db.insert, hopen, Option.bind_eq_bind, Option.bind_some, Option.bind_eq_some_iff,
    Option.some.injEq, Prod.mk.injEq] at h
  obtain ⟨⟨ret1, s'⟩, hup, _, rfl⟩ := h
  have hdict := SortSet.update_dict hup
  simp only [Db.lookup, Dict.find_modify, find_openTable]
  by_cases hq : q = key
  · subst hq
    rw [if_pos rfl, if_pos rfl, Option.map_some, Option.bind_some, hdict]
    by_cases hr : r = data
    · rw [if_pos hr, if_pos ⟨rfl, hr.symm⟩]
    · rw [if_neg hr, if_neg fun h => hr h.2.symm]
      cases hf : d.dbDict.find q with
      | none => rfl
      | some s0 => rfl
  · rw [if_neg hq, if_neg hq, if_neg fun h => hq h.1.symm]

theorem follows_new : Follows ([] : List (Entry α)) Db.new :=
  ⟨dbOk_new, fun key data => by rw [Db.lookup, Db.new, Dict.find_empty]; rfl⟩

/-- The loop of `ProcessDbSet`. -/
theorem Follows.setLoop (heights : ℕ → Lvl) (key : Bytes) : ∀ (xs : List (MsgSetMemData α)) (i : ℕ)
    (rsp : MsgSetBatchRsp) (past : List (Entry α)) (d : Db α), Follows past d →
    ∃ rsp' d', LibC.setLoop heights key i xs rsp d = some (rsp', d') ∧
      Follows (past ++ xs.map fun x => ⟨key, x.data, x.score⟩) d'
  | [], i, rsp, past, d, h => ⟨rsp, d, rfl, by simpa using h⟩
  | x :: xs, i, rsp, past, d, h => by
      obtain ⟨ret, d1, hins, hok⟩ := h.ok.insert (heights i) key x.score x.data
      have h1 : Follows (past ++ [⟨key, x.data, x.score⟩]) d1 := by
        refine ⟨hok, fun q r => ?_⟩
        rw [Db.insert_lookup hins, lastSet_concat, h.lookup]
      obtain ⟨rsp', d', hrun, h'⟩ := Follows.setLoop heights key xs (i + 1)
        (if ret then { rsp with succNum := rsp.succNum + 1 } else rsp) _ _ h1
      refine ⟨rsp', d', ?_, ?_⟩
      · simp only [LibC.setLoop, hins, Option.bind_eq_bind, Option.bind_some, hrun]
      · rwa [List.append_assoc] at h'

/-- A request to set members. -/
theorem Follows.processDbSet {past : List (Entry α)} {d : Db α} (h : Follows past d)
    (heights : ℕ → Lvl) (req : MsgSetBatchReq α) :
    ∃ rsp d', LibC.processDbSet heights req d = some (rsp, d') ∧
      Follows (past ++ req.entries) d' := by
  obtain ⟨rsp, d', hrun, h'⟩ := Follows.setLoop heights req.keyId req.dataList 0 ⟨0, [], 0⟩ _ _ h
  exact ⟨{ rsp with ret := 0 }, d', by simp [LibC.processDbSet, hrun], h'⟩

/-! ## Asking -/

section Asking

variable [Zero α]

/-- What is answered for a member: its score, or the placeholder. -/
def itemFor (score : Option α) (m : Bytes) : MsgSetMemData α :=
  match score with
  | some score => ⟨score, m⟩
  | none => ⟨0, ascii "No Find!"⟩

omit [LinearOrder α] [Neg α] [One α] [Zero α] in
/-- Asking for a score changes nothing but the error text. -/
theorem Db.getMemScore_spec (d : Db α) (key data : Bytes) :
    ∃ err, d.getMemScore key data = (d.lookup key data, { d with strErr := err }) := by
  cases hf : d.dbDict.find key with
  | none => exact ⟨"Key is not exist!", by simp [Db.getMemScore, Db.lookup, hf]⟩
  | some s =>
      cases hd : s.dict data with
      | none =>
          exact ⟨"Data is not exist!", by
            simp [Db.getMemScore, Db.lookup, hf, SortSet.getMemScore, hd]⟩
      | some score =>
          exact ⟨"", by simp [Db.getMemScore, Db.lookup, hf, SortSet.getMemScore, hd]⟩

omit [LinearOrder α] [Neg α] [One α] in
/-- The loop of `ProcessDbGetScore`. -/
theorem getScoreLoop_spec (key : Bytes) : ∀ (ms : List Bytes) (items : List (MsgSetMemData α))
    (d : Db α), ∃ err, getScoreLoop key ms items d =
      (items ++ ms.map fun m => itemFor (d.lookup key (cString m)) (cString m),
        { d with strErr := err })
  | [], items, d => ⟨d.strErr, by simp [getScoreLoop]⟩
  | m :: ms, items, d => by
      obtain ⟨err, hget⟩ := d.getMemScore_spec key (cString m)
      obtain ⟨err', hrun⟩ := getScoreLoop_spec key ms
        (items ++ [itemFor (d.lookup key (cString m)) (cString m)]) { d with strErr := err }
      have hlook : ∀ q r, Db.lookup { d with strErr := err } q r = d.lookup q r := fun _ _ => rfl
      refine ⟨err', ?_⟩
      simp only [hlook, List.append_assoc, List.singleton_append] at hrun
      rw [List.map_cons, ← hrun, getScoreLoop, hget]
      cases d.lookup key (cString m) <;> rfl

omit [Zero α] in
/-- A string is its C string when it has no zero byte, and only then. -/
theorem cString_eq_iff (m : Bytes) : cString m = m ↔ (0 : UInt8) ∉ m := by
  rw [cString, List.takeWhile_eq_self_iff]
  constructor
  · intro h hm
    simpa using h 0 hm
  · intro h x hx
    have hne : x ≠ 0 := by
      rintro rfl
      exact h hx
    simpa using hne

/-- Cutting the member `m` off makes no difference: it has no zero byte; or neither it nor
what is left of it was ever set (or what is left is set to what the placeholder says). -/
def ReadsBack (past : List (Entry α)) (key m : Bytes) : Prop :=
  (0 : UInt8) ∉ m ∨ lastSet key m past = none ∧ (lastSet key (cString m) past = none ∨
    cString m = ascii "No Find!" ∧ lastSet key (cString m) past = some 0)

omit [LinearOrder α] [Neg α] [One α] in
/-- The item for what is left of a member is the item for the member. -/
theorem itemFor_iff (past : List (Entry α)) (key m : Bytes) :
    itemFor (lastSet key (cString m) past) (cString m) = itemFor (lastSet key m past) m ↔
      ReadsBack past key m := by
  by_cases hm : (0 : UInt8) ∉ m
  · rw [(cString_eq_iff m).mpr hm]
    exact ⟨fun _ => Or.inl hm, fun _ => rfl⟩
  have hne : cString m ≠ m := (cString_eq_iff m).not.mpr hm
  have hfind : ascii "No Find!" ≠ m := by
    rintro rfl
    exact hm (by decide)
  simp only [ReadsBack, hm, false_or]
  cases hfull : lastSet key m past with
  | some score =>
      -- the answer should carry all of `m`, and does not
      simp only [reduceCtorEq, false_and, iff_false]
      cases lastSet key (cString m) past with
      | some score' =>
          intro h
          exact hne (congrArg MsgSetMemData.data h)
      | none =>
          intro h
          exact hfind (congrArg MsgSetMemData.data h)
  | none =>
      cases lastSet key (cString m) past with
      | none => simp [itemFor]
      | some score' =>
          simp only [itemFor, MsgSetMemData.mk.injEq, reduceCtorEq, Option.some.injEq, true_and,
            false_or]
          exact and_comm

/-! ## Runs -/

/-- A request. -/
inductive Request (α : Type) where
  | set (heights : ℕ → Lvl) (req : MsgSetBatchReq α)
  | getScore (req : MsgGetScoreBatchReq)

/-- The database after a request. -/
def Request.step : Request α → Db α → Option (Db α)
  | .set heights req, d => (processDbSet heights req d).map Prod.snd
  | .getScore req, d => some (processDbGetScore req d).2

/-- Everything that some requests have set. -/
def history (reqs : List (Request α)) : List (Entry α) :=
  reqs.flatMap fun
    | .set _ req => req.entries
    | .getScore _ => []

/-- The answer to a request for scores. -/
theorem Follows.processDbGetScore {past : List (Entry α)} {d : Db α} (h : Follows past d)
    (req : MsgGetScoreBatchReq) :
    (LibC.processDbGetScore req d).1.memDataList = (req.memDataList.map fun m =>
        itemFor (lastSet req.keyId (cString m) past) (cString m)) ∧
      Follows past (LibC.processDbGetScore req d).2 := by
  obtain ⟨err, hrun⟩ := getScoreLoop_spec req.keyId req.memDataList [] d
  refine ⟨?_, ?_⟩
  · simp only [LibC.processDbGetScore, hrun, List.nil_append, h.lookup]
  · simp only [LibC.processDbGetScore, hrun]
    exact ⟨h.ok, h.lookup⟩

/-- After every run the database is what the requests have set. -/
theorem run_follows : ∀ (reqs : List (Request α)) (past : List (Entry α)) (d : Db α),
    Follows past d → ∃ d', run Request.step reqs d = some d' ∧ Follows (past ++ history reqs) d'
  | [], past, d, h => ⟨d, rfl, by simpa [history] using h⟩
  | .set heights req :: reqs, past, d, h => by
      obtain ⟨rsp, d1, hset, h1⟩ := h.processDbSet heights req
      obtain ⟨d', hrun, h'⟩ := run_follows reqs _ _ h1
      refine ⟨d', run_cons.mpr ⟨d1, by simp [Request.step, hset], hrun⟩, ?_⟩
      rw [List.append_assoc] at h'
      exact h'
  | .getScore req :: reqs, past, d, h => by
      obtain ⟨d', hrun, h'⟩ := run_follows reqs past _ (h.processDbGetScore req).2
      exact ⟨d', run_cons.mpr ⟨_, rfl, hrun⟩, h'⟩

/-- **Set and get.** After every run of requests, the answer to a request for scores has
the item of each member in turn, that is the member with the score it was given last or
the placeholder, exactly when cutting the members off makes no difference. -/
theorem run_getScore_iff (reqs : List (Request α)) :
    ∃ d, run Request.step reqs Db.new = some d ∧ ∀ req : MsgGetScoreBatchReq,
      (processDbGetScore req d).1.memDataList = (req.memDataList.map fun m =>
          itemFor (lastSet req.keyId m (history reqs)) m) ↔
        ∀ m ∈ req.memDataList, ReadsBack (history reqs) req.keyId m := by
  obtain ⟨d, hrun, h⟩ := run_follows reqs [] Db.new follows_new
  refine ⟨d, hrun, fun req => ?_⟩
  rw [(h.processDbGetScore req).1, List.nil_append, List.map_inj_left]
  exact forall₂_congr fun m _ => itemFor_iff (history reqs) req.keyId m

end Asking

/-- A member with a zero byte is set and not found. -/
theorem getScore_cuts_off :
    ∃ d, run Request.step [.set (fun _ => ⟨1, by decide⟩) ⟨[75], [⟨7, [97, 0, 98]⟩]⟩]
        (Db.new : Db ℤ) = some d ∧
      (processDbGetScore ⟨[75], [[97, 0, 98]]⟩ d).1.memDataList = [⟨0, ascii "No Find!"⟩] ∧
      lastSet [75] [97, 0, 98] (history [.set (fun _ => ⟨1, by decide⟩)
        ⟨[75], [⟨(7 : ℤ), [97, 0, 98]⟩]⟩]) = some 7 := by
  have hrun : ((run Request.step [.set (fun _ => ⟨1, by decide⟩) ⟨[75], [⟨7, [97, 0, 98]⟩]⟩]
      (Db.new : Db ℤ)).map fun d => decide
        ((processDbGetScore ⟨[75], [[97, 0, 98]]⟩ d).1.memDataList =
          [⟨0, ascii "No Find!"⟩])) = some true := by decide +kernel
  obtain ⟨d, hd, hitems⟩ := Option.map_eq_some_iff.mp hrun
  exact ⟨d, hd, of_decide_eq_true hitems, rfl⟩

end LibC
