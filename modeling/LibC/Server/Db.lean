/-
LibC.Server.Db — `db` of `bis/src/server/db.cpp`: the tables, and how they are
saved and loaded.

`db_dict` maps a key to its `sort_set`. A `shared_ptr` to a table is modelled
by the key it is stored under: no table is ever removed, and each sits under
one key.

What the environment decides is an argument: `SaveEnv` says which file
operations of a save succeed (the `FileWrite` calls by the record they are made
for), `order` is the order in which the hash table is iterated over, `now` is
what `ctime` answers, and `heights` are the heights drawn while loading. The
answer is `none` exactly where the source dereferences a null pointer (the
iteration over a table without members reads `tail_`).

`SaveToFile` logs an error for each `SaveObj` that fails and, for tables and
groups of members, goes on; `errors` are these records. `reads` are, for the
loader, the type bytes it has acted on, each with the string that was read for
it. Nothing depends on either.

No `sorry`, no `axiom`, no `native_decide`.
-/
import LibC.Lib.Dict
import LibC.Server.Sldb
import LibC.SkipList.SortSet

namespace LibC

open LibC.Lib

variable {α : Type} [LinearOrder α] [Neg α] [One α]

/-! ## Messages -/

/-- The bytes of an ASCII string. -/
def ascii (s : String) : Bytes := s.toList.map fun c => UInt8.ofNat c.toNat

/-- `MsgDbVersion`. -/
structure MsgDbVersion where
  version : Bytes
  auth : Bytes
  saveTime : Bytes
  deriving DecidableEq

/-- `MsgDb`. -/
structure MsgDb where
  num : UInt64
  deriving DecidableEq

/-- `MsgDbTable`. -/
structure MsgDbTable where
  keyId : Bytes
  length : UInt64
  deriving DecidableEq

/-- `MsgDbKey`: scores and members, side by side. -/
structure MsgDbKey (α : Type) where
  key : List α
  val : List Bytes
  deriving DecidableEq

/-- The message types of the file. -/
structure Codecs (α : Type) where
  version : Codec MsgDbVersion
  db : Codec MsgDb
  table : Codec MsgDbTable
  key : Codec (MsgDbKey α)

/-! ## Tables -/

/-- `db`. -/
structure Db (α : Type) where
  dbDict : Dict Bytes (SortSet α Bytes)
  strErr : String
  isLoading : Bool

namespace Db

/-- The constructor. -/
def new : Db α := ⟨Dict.empty, "", false⟩

/-- `FindSSet`, and the table it makes in `Insert` and in the loader when there is none. -/
def openTable (key : Bytes) (dict : Dict Bytes (SortSet α Bytes)) :
    Dict Bytes (SortSet α Bytes) :=
  match dict.find key with
  | some _ => dict
  | none => dict.insert key SortSet.new

/-- `Insert`. -/
def insert (lvl : Lvl) (key : Bytes) (score : α) (data : Bytes) (d : Db α) :
    Option (Bool × Db α) := do
  let dict := openTable key d.dbDict
  let sset ← dict.find key
  let (ret, sset) ← sset.update lvl score data
  some (ret, { d with dbDict := dict.modify key fun _ => sset })

/-- `DelMem`. -/
def delMem (key data : Bytes) (d : Db α) : Option (Bool × Db α) :=
  match d.dbDict.find key with
  | none => some (false, { d with strErr := "Key is not exist!" })
  | some sset => do
      let (ret, sset) ← sset.delMem data
      let dbDict := d.dbDict.modify key fun _ => sset
      some (ret, { d with dbDict, strErr := if ret then "" else "Data is not exist!" })

end Db

/-! ## Saving -/

/-- The records of a file: the version, the database, the table under a key, and the
`i`-th group of its members. -/
inductive RecId where
  | version
  | db
  | table (key : Bytes)
  | key (key : Bytes) (i : Nat)
  deriving DecidableEq

/-- What the environment answers during a save. -/
structure SaveEnv where
  openOk : Bool
  write : RecId → Nat → WriteRet
  flushOk : Bool
  fsyncOk : Bool
  closeOk : Bool
  renameOk : Bool

/-- The two files: `db_file_`, and `db_file_` with `.tmp` appended. -/
structure Files where
  dbFile : Option Bytes
  tmpFile : Option Bytes

/-- A save in progress: what the stream holds, and the records that were logged as
errors. -/
structure Saver where
  content : Bytes
  errors : List RecId
  deriving DecidableEq

/-- `SaveObj` of one record, and the log line when it fails. -/
def saveRecord {M : Type} (c : Codec M) (env : SaveEnv) (id : RecId) (obj : M)
    (type : MsgNodeType) (s : Saver) : Int × Saver :=
  let (ret, w) := saveObj c (env.write id) obj type ⟨s.content, 0⟩
  (ret, ⟨w.content, if ret < 0 then s.errors ++ [id] else s.errors⟩)

/-- The loop over the members of a table, `i` groups after the first one; `cnt` and
`kvs` are the variables of the source. The last, smaller group is written after it. -/
def saveKeys (c : Codec (MsgDbKey α)) (env : SaveEnv) (key : Bytes) :
    Nat → Nat → MsgDbKey α → List (SkipListNode α Bytes) → Saver → Saver
  | i, _, kvs, [], s =>
      if kvs.key.length > 0 ∧ kvs.val.length > 0 then
        (saveRecord c env (.key key i) kvs .key s).2
      else s
  | i, cnt, kvs, nd :: rest, s =>
      let kvs := ⟨kvs.key ++ [nd.score], kvs.val ++ [nd.val]⟩
      let cnt := cnt + 1
      if cnt % 50 = 0 then
        saveKeys c env key (i + 1) 0 ⟨[], []⟩ rest (saveRecord c env (.key key i) kvs .key s).2
      else saveKeys c env key i cnt kvs rest s

/-- The body of the loop over the tables. -/
def saveTable (c : Codecs α) (env : SaveEnv) (key : Bytes) (sset : SortSet α Bytes) (s : Saver) :
    Option Saver :=
  let (ret, s) := saveRecord c.table env (.table key) ⟨key, sset.size.toUInt64⟩ .table s
  if ret < 0 then some s
  else do
    let begin ← sset.sl.being
    let nodes ← sset.sl.iterate (sset.sl.heap.size + 1) begin
    some (saveKeys c.key env key 0 0 ⟨[], []⟩ nodes s)

/-- The loop over the tables. -/
def saveTables (c : Codecs α) (env : SaveEnv) :
    List (Bytes × SortSet α Bytes) → Saver → Option Saver
  | [], s => some s
  | (key, sset) :: rest, s => do
      let s ← saveTable c env key sset s
      saveTables c env rest s

/-- `db_ver`. -/
def dbVer (now : Bytes) : MsgDbVersion := ⟨ascii "BIS_V1", ascii "CaiZhiLi", now⟩

/-- `db1`. -/
def db1 : MsgDb := ⟨1⟩

/-- `SaveToFile`: the return value, the records logged as errors, the files. -/
def saveToFile (c : Codecs α) (env : SaveEnv) (now : Bytes) (d : Db α)
    (order : { l : List (Bytes × SortSet α Bytes) // l.Perm d.dbDict.entries }) (files : Files) :
    Option (Int × List RecId × Files) :=
  if ¬ env.openOk then some (-1, [], files)
  else
    let (ret, s) := saveRecord c.version env .version (dbVer now) .version ⟨[], []⟩
    if ret < 0 then some (-1, s.errors, { files with tmpFile := some s.content })
    else
      let (ret, s) := saveRecord c.db env .db db1 .db s
      if ret < 0 then some (-1, s.errors, { files with tmpFile := some s.content })
      else do
        let s ← saveTables c env order.val s
        if ¬ env.flushOk ∨ ¬ env.fsyncOk ∨ ¬ env.closeOk then
          some (-1, s.errors, { files with tmpFile := some s.content })
        else if ¬ env.renameOk then some (-1, s.errors, { files with tmpFile := none })
        else some (0, s.errors, ⟨some s.content, none⟩)

/-! ## Loading -/

/-- A load in progress: `cur_sset` (the key of its table), what is left of the file, the
number of heights drawn. -/
structure Loader (α : Type) where
  db : Db α
  curSset : Option Bytes
  file : Bytes
  draws : Nat
  reads : List (MsgNodeType × Option Bytes)

/-- `LoadObj` of a record whose type byte has been read. -/
def Loader.loadObj {M : Type} (c : Codec M) (type : MsgNodeType) (s : Loader α) :
    Option M × Loader α :=
  let (obj, file) := LibC.loadObj c s.file
  (obj, { s with file, reads := s.reads ++ [(type, (loadRawString s.file).1)] })

/-- The loop over the members of a group. -/
def insertAll (heights : Nat → Lvl) :
    List (α × Bytes) → SortSet α Bytes → Nat → Option (SortSet α Bytes × Nat)
  | [], sset, draws => some (sset, draws)
  | (score, data) :: rest, sset, draws => do
      let (inserted, sset) ← sset.insert (heights draws) score data
      insertAll heights rest sset (if inserted then draws + 1 else draws)

/-- The `switch` over the type of a record. -/
def loadRecord (c : Codecs α) (heights : Nat → Lvl) (type : MsgNodeType) (s : Loader α) :
    Option (Loader α) :=
  match type with
  | .version => some (s.loadObj c.version type).2
  | .db => some (s.loadObj c.db type).2
  | .table =>
      match s.loadObj c.table type with
      | (none, s) => some s
      | (some obj, s) =>
          some { s with
            db := { s.db with dbDict := Db.openTable obj.keyId s.db.dbDict }
            curSset := some obj.keyId }
  | .key =>
      match s.loadObj c.key type with
      | (none, s) => some s
      | (some obj, s) =>
          match s.curSset with
          | none => some s
          | some cur => do
              let sset ← s.db.dbDict.find cur
              let (sset, draws) ← insertAll heights (obj.key.zip obj.val) sset s.draws
              some { s with
                db := { s.db with dbDict := s.db.dbDict.modify cur fun _ => sset }
                draws }

/-- The `while` loop of the loader. Each round reads a type byte, so the length of the
file bounds their number. -/
def loadLoop (c : Codecs α) (heights : Nat → Lvl) : Nat → Loader α → Option (Int × Loader α)
  | 0, _ => none
  | fuel + 1, s =>
      match loadType s.file with
      | (none, file) => some (0, { s with file })
      | (some b, file) =>
          match MsgNodeType.ofByte? b with
          | none => some (-1, { s with file })
          | some type => do
              let s ← loadRecord c heights type { s with file }
              loadLoop c heights fuel s

/-- `CheckDbFileAndLoad`; the file is `none` when it cannot be opened. -/
def checkDbFileAndLoad (c : Codecs α) (heights : Nat → Lvl) (dbFile : Option Bytes) (d : Db α) :
    Option (Int × Loader α) :=
  match dbFile with
  | none => some (-1, ⟨d, none, [], 0, []⟩)
  | some file => do
      let (ret, s) ← loadLoop c heights (file.length + 1)
        ⟨{ d with isLoading := true }, none, file, 0, []⟩
      some (ret, { s with db := { s.db with isLoading := false } })

end LibC
