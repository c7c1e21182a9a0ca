/-
LibC.Server.DbTheorems — the tables of a database, over whole runs.

`Db.Ok` says that every table is a sorted set in the sense of `SetRepr`: its
skip list is well formed and holds a node for each entry of its dictionary.
Every call of the database, and loading any file whatsoever, ends without a
fault and keeps it (`DbOp.step_ok`), so it holds of every database a server
can reach (`run_ok`).

No `sorry`, no `axiom`, no `native_decide`.
-/
import LibC.Server.Db
import LibC.Server.SldbTheorems
import LibC.SkipList.IterTheorems
import LibC.SkipList.SortSetTheorems

namespace LibC

open LibC.Lib

variable {α : Type} [LinearOrder α] [Neg α] [One α]

/-- The members of a sorted set with their scores, in the order of the skip list. -/
def SortSet.members (s : SortSet α Bytes) : List (α × Bytes) := s.sl.pairs

/-- A table that the heap holds. -/
def TableOk (s : SortSet α Bytes) : Prop := ∃ ps ts, SetRepr s ps ts

/-- Every table of the database is one. -/
def Db.Ok (d : Db α) : Prop := ∀ key s, d.dbDict.find key = some s → TableOk s

/-! ## Calls on a table -/

theorem tableOk_new : TableOk (SortSet.new : SortSet α Bytes) := ⟨[], [], setRepr_new⟩

theorem TableOk.insert {s : SortSet α Bytes} (h : TableOk s) (lvl : Lvl) (key : α) (data : Bytes) :
    ∃ ret s', s.insert lvl key data = some (ret, s') ∧ TableOk s' := by
  obtain ⟨ps, ts, h⟩ := h
  cases hd : s.dict data with
  | none =>
      obtain ⟨s', ps', ts', hins, h', _⟩ := h.insert_spec lvl key hd
      exact ⟨true, s', hins, ps', ts', h'⟩
  | some old => exact ⟨false, s, by simp [SortSet.insert, hd], ps, ts, h⟩

theorem TableOk.delMem {s : SortSet α Bytes} (h : TableOk s) (data : Bytes) :
    ∃ ret s', s.delMem data = some (ret, s') ∧ TableOk s' := by
  obtain ⟨ps, ts, h⟩ := h
  cases hd : s.dict data with
  | none => exact ⟨false, s, by simp [SortSet.delMem, hd], ps, ts, h⟩
  | some old =>
      obtain ⟨s', ps', ts', hdel, h', _⟩ := h.delMem_spec hd
      exact ⟨true, s', hdel, ps', ts', h'⟩

theorem TableOk.update {s : SortSet α Bytes} (h : TableOk s) (lvl : Lvl) (score : α)
    (data : Bytes) : ∃ ret s', s.update lvl score data = some (ret, s') ∧ TableOk s' := by
  cases hd : s.dict data with
  | none => simpa [SortSet.update, hd] using h.insert lvl score data
  | some old =>
      by_cases hold : old = score
      · exact ⟨true, s, by simp [SortSet.update, hd, hold], h⟩
      · obtain ⟨_, s1, hdel, h1⟩ := h.delMem data
        obtain ⟨ret, s2, hins, h2⟩ := h1.insert lvl score data
        exact ⟨ret, s2, by simp [SortSet.update, hd, hold, hdel, hins], h2⟩

/-! ## Calls on the database -/

omit [LinearOrder α] in
/-- `openTable` leaves the other tables alone, and puts an empty one under a new key. -/
theorem find_openTable (dict : Dict Bytes (SortSet α Bytes)) (key q : Bytes) :
    (Db.openTable key dict).find q =
      if q = key then some ((dict.find key).getD SortSet.new) else dict.find q := by
  cases hf : dict.find key with
  | none => simp only [Db.openTable, hf, Dict.find_insert hf, Option.getD_none]
  | some s =>
      simp only [Db.openTable, hf, Option.getD_some]
      split
      · subst q; exact hf
      · rfl

theorem Db.Ok.openTable {d : Db α} (h : d.Ok) (key : Bytes) :
    Db.Ok { d with dbDict := Db.openTable key d.dbDict } := by
  intro q s hs
  rw [show (Db.openTable key d.dbDict).find q = _ from find_openTable _ _ _] at hs
  split at hs
  · cases hf : d.dbDict.find key with
    | none => rw [hf] at hs; cases hs; exact tableOk_new
    | some s0 => rw [hf] at hs; cases hs; exact h key _ hf
  · exact h q s hs

/-- Putting a table back. -/
theorem Db.Ok.modify {d : Db α} (h : d.Ok) {key : Bytes} {s : SortSet α Bytes} (hs : TableOk s)
    (err : String) (loading : Bool) :
    Db.Ok ⟨d.dbDict.modify key fun _ => s, err, loading⟩ := by
  intro q s' hs'
  rw [show (d.dbDict.modify key fun _ => s).find q = _ from Dict.find_modify _ _ _ _] at hs'
  split at hs'
  · obtain ⟨_, _, rfl⟩ := Option.map_eq_some_iff.mp hs'
    exact hs
  · exact h q s' hs'

theorem Db.Ok.insert {d : Db α} (h : d.Ok) (lvl : Lvl) (key : Bytes) (score : α) (data : Bytes) :
    ∃ ret d', d.insert lvl key score data = some (ret, d') ∧ d'.Ok := by
  have hopen := h.openTable key
  have hf : (Db.openTable key d.dbDict).find key =
      some ((d.dbDict.find key).getD SortSet.new) := by rw [find_openTable, if_pos rfl]
  obtain ⟨ret, s', hup, hs'⟩ := (hopen key _ hf).update lvl score data
  exact ⟨ret, { d with dbDict := (Db.openTable key d.dbDict).modify key fun _ => s' },
    by simp [Db.insert, hf, hup], hopen.modify hs' _ _⟩

theorem Db.Ok.delMem {d : Db α} (h : d.Ok) (key data : Bytes) :
    ∃ ret d', d.delMem key data = some (ret, d') ∧ d'.Ok := by
  cases hf : d.dbDict.find key with
  | none => exact ⟨false, { d with strErr := "Key is not exist!" }, by simp [Db.delMem, hf], h⟩
  | some s =>
      obtain ⟨ret, s', hdel, hs'⟩ := (h key s hf).delMem data
      exact ⟨ret, ⟨d.dbDict.modify key fun _ => s', if ret then "" else "Data is not exist!",
        d.isLoading⟩, by simp [Db.delMem, hf, hdel], h.modify hs' _ _⟩

/-! ## Loading -/

theorem insertAll_ok (heights : ℕ → Lvl) : ∀ (ms : List (α × Bytes)) (s : SortSet α Bytes) (n : ℕ),
    TableOk s → ∃ s' n', insertAll heights ms s n = some (s', n') ∧ TableOk s'
  | [], s, n, h => ⟨s, n, rfl, h⟩
  | (score, data) :: rest, s, n, h => by
      obtain ⟨ret, s1, hins, h1⟩ := h.insert (heights n) score data
      obtain ⟨s', n', hrest, h'⟩ := insertAll_ok heights rest s1 (if ret then n + 1 else n) h1
      exact ⟨s', n', by simp [insertAll, hins, hrest], h'⟩

/-- What a load keeps: the tables are sorted sets, and `cur_sset` is one of them. -/
structure Loader.Ok (s : Loader α) : Prop where
  db : s.db.Ok
  cur : ∀ cur, s.curSset = some cur → ∃ sset, s.db.dbDict.find cur = some sset

theorem Loader.Ok.loadObj {M : Type} (c : Codec M) (type : MsgNodeType) {s : Loader α} (h : s.Ok) :
    (s.loadObj c type).2.Ok := ⟨h.db, h.cur⟩

theorem loadRecord_ok (c : Codecs α) (heights : ℕ → Lvl) (type : MsgNodeType) {s : Loader α}
    (h : s.Ok) : ∃ s', loadRecord c heights type s = some s' ∧ s'.Ok ∧
      s'.file = (loadRawString s.file).2 ∧
      s'.reads = s.reads ++ [(type, (loadRawString s.file).1)] := by
  have hfile : ∀ {M : Type} (c : Codec M),
      (s.loadObj c type).2.file = (loadRawString s.file).2 := by
    intro M c
    simp only [Loader.loadObj, LibC.loadObj]
    split <;> simp_all
  cases type with
  | version => exact ⟨_, rfl, h.loadObj _ _, hfile _, rfl⟩
  | db => exact ⟨_, rfl, h.loadObj _ _, hfile _, rfl⟩
  | table =>
      cases hobj : (s.loadObj c.table .table).1 with
      | none =>
          refine ⟨(s.loadObj c.table .table).2, ?_, h.loadObj _ _, hfile _, rfl⟩
          rw [loadRecord, show s.loadObj c.table .table = (none, _) from Prod.ext hobj rfl]
      | some obj =>
          refine ⟨{ (s.loadObj c.table .table).2 with
            db := { s.db with dbDict := Db.openTable obj.keyId s.db.dbDict }
            curSset := some obj.keyId }, ?_, ⟨h.db.openTable obj.keyId, ?_⟩, hfile c.table, rfl⟩
          · rw [loadRecord, show s.loadObj c.table .table = (some obj, _) from Prod.ext hobj rfl]
            rfl
          · intro cur hcur
            obtain rfl : obj.keyId = cur := Option.some.inj hcur
            exact ⟨_, by rw [find_openTable, if_pos rfl]⟩
  | key =>
      cases hobj : (s.loadObj c.key .key).1 with
      | none =>
          refine ⟨(s.loadObj c.key .key).2, ?_, h.loadObj _ _, hfile _, rfl⟩
          rw [loadRecord, show s.loadObj c.key .key = (none, _) from Prod.ext hobj rfl]
      | some obj =>
          rw [loadRecord, show s.loadObj c.key .key = (some obj, _) from Prod.ext hobj rfl]
          have hcurs : (s.loadObj c.key .key).2.curSset = s.curSset := rfl
          cases hcur : s.curSset with
          | none =>
              exact ⟨(s.loadObj c.key .key).2, by simp [hcurs, hcur], h.loadObj _ _, hfile _, rfl⟩
          | some cur =>
              obtain ⟨sset, hf⟩ := h.cur cur hcur
              obtain ⟨s', n', hall, hs'⟩ := insertAll_ok heights (obj.key.zip obj.val) sset
                s.draws (h.db cur sset hf)
              refine ⟨{ (s.loadObj c.key .key).2 with
                db := { s.db with dbDict := s.db.dbDict.modify cur fun _ => s' }
                draws := n' }, ?_, ⟨h.db.modify hs' _ _, fun q hq => ?_⟩, hfile c.key, rfl⟩
              · have hdb : (s.loadObj c.key .key).2.db = s.db := rfl
                have hdraws : (s.loadObj c.key .key).2.draws = s.draws := rfl
                simp [hcurs, hcur, hdb, hdraws, hf, hall]
              · obtain ⟨sq, hsq⟩ := h.cur q hq
                refine ⟨if q = cur then s' else sq, ?_⟩
                show (s.db.dbDict.modify cur fun _ => s').find q = _
                rw [Dict.find_modify, hsq]
                split <;> rfl

/-- The loader ends on every file. -/
theorem loadLoop_ok (c : Codecs α) (heights : ℕ → Lvl) : ∀ (fuel : ℕ) (s : Loader α),
    s.file.length < fuel → s.Ok → ∃ ret s', loadLoop c heights fuel s = some (ret, s') ∧ s'.Ok
  | 0, s, hlt, _ => by omega
  | fuel + 1, s, hlt, h => by
      cases hf : s.file with
      | nil =>
          exact ⟨0, { s with file := [] }, by simp [loadLoop, hf, loadType, fileRead], h.db, h.cur⟩
      | cons b f =>
          cases ht : MsgNodeType.ofByte? b with
          | none =>
              exact ⟨-1, { s with file := f }, by simp [loadLoop, hf, loadType_cons, ht], h.db,
                h.cur⟩
          | some type =>
              obtain ⟨s1, hrec, h1, hfile, _⟩ := loadRecord_ok c heights type
                (s := { s with file := f }) ⟨h.db, h.cur⟩
              have hle := loadRawString_length_le f
              obtain ⟨ret, s', hrun, h'⟩ := loadLoop_ok c heights fuel s1
                (by rw [hfile]; rw [hf, List.length_cons] at hlt; simp only; omega) h1
              exact ⟨ret, s', by simp [loadLoop, hf, loadType_cons, ht, hrec, hrun], h'⟩

/-- Loading any file whatsoever ends without a fault. -/
theorem checkDbFileAndLoad_ok (c : Codecs α) (heights : ℕ → Lvl) (dbFile : Option Bytes)
    {d : Db α} (h : d.Ok) :
    ∃ ret s', checkDbFileAndLoad c heights dbFile d = some (ret, s') ∧ s'.db.Ok := by
  cases dbFile with
  | none => exact ⟨-1, _, rfl, h⟩
  | some file =>
      obtain ⟨ret, s', hrun, h'⟩ := loadLoop_ok c heights (file.length + 1)
        ⟨{ d with isLoading := true }, none, file, 0, []⟩ (Nat.lt_succ_self _)
        ⟨h, fun _ hcur => by cases hcur⟩
      exact ⟨ret, { s' with db := { s'.db with isLoading := false } },
        by simp [checkDbFileAndLoad, hrun], h'.db⟩

/-! ## Runs -/

/-- What changes a database: a request, or loading a file. -/
inductive DbOp (α : Type) where
  | insert (lvl : Lvl) (key : Bytes) (score : α) (data : Bytes)
  | delMem (key data : Bytes)
  | load (heights : ℕ → Lvl) (dbFile : Option Bytes)

/-- The database after it. -/
def DbOp.step (c : Codecs α) : DbOp α → Db α → Option (Db α)
  | .insert lvl key score data, d => (d.insert lvl key score data).map Prod.snd
  | .delMem key data, d => (d.delMem key data).map Prod.snd
  | .load heights dbFile, d => (checkDbFileAndLoad c heights dbFile d).map fun r => r.2.db

theorem DbOp.step_ok (c : Codecs α) (o : DbOp α) {d : Db α} (h : d.Ok) :
    ∃ d', o.step c d = some d' ∧ d'.Ok := by
  cases o with
  | insert lvl key score data =>
      obtain ⟨_, d', hins, h'⟩ := h.insert lvl key score data
      exact ⟨d', by simp [DbOp.step, hins], h'⟩
  | delMem key data =>
      obtain ⟨_, d', hdel, h'⟩ := h.delMem key data
      exact ⟨d', by simp [DbOp.step, hdel], h'⟩
  | load heights dbFile =>
      obtain ⟨_, s', hload, h'⟩ := checkDbFileAndLoad_ok c heights dbFile h
      exact ⟨s'.db, by simp [DbOp.step, hload], h'⟩

theorem dbOk_new : Db.Ok (Db.new : Db α) := fun key s h => by
  rw [Db.new, Dict.find_empty] at h; cases h

/-- Every run of the database ends without a fault, in tables that are sorted sets. -/
theorem run_ok (c : Codecs α) (ops : List (DbOp α)) :
    ∃ d, run (DbOp.step c) ops Db.new = some d ∧ d.Ok :=
  run_total Db.Ok (fun o _ h => o.step_ok c h) ops Db.new dbOk_new

end LibC
