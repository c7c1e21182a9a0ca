/-
LibC.Server.LoadItems — what a database file says.

`CheckDbFileAndLoad` reads a record and acts on it before it reads the next one.
Nothing it has done so far has an influence on what it reads, so a load is the
same as reading the whole file into a list of items (`itemsOf`) and then acting
on them in order (`Shelf.take`). `Shelf` is what the items act on: the tables,
the key of `cur_sset`, and the number of heights drawn.

`fileEntries` is the content of a file without its tables: members with their
keys and scores, in the order in which they are read.

No `sorry`, no `axiom`, no `native_decide`.
-/
import LibC.Server.HandlerTheorems

namespace LibC

open LibC.Lib

variable {α : Type}

/-! ## Reading -/

/-- What a record asks for: nothing, to go on with the table under a key, or to add members. -/
inductive Item (α : Type) where
  | skip
  | table (key : Bytes)
  | members (ms : List (α × Bytes))

/-- What a record of some type asks for, when the file goes on like this. -/
def itemOf (c : Codecs α) : MsgNodeType → Bytes → Item α
  | .version, _ => .skip
  | .db, _ => .skip
  | .table, file =>
      match (loadObj c.table file).1 with
      | none => .skip
      | some obj => .table obj.keyId
  | .key, file =>
      match (loadObj c.key file).1 with
      | none => .skip
      | some obj => .members (obj.key.zip obj.val)

/-- What the records of a file ask for, and the return value of the load. -/
def itemsOf (c : Codecs α) : Nat → Bytes → Int × List (Item α)
  | 0, _ => (0, [])
  | fuel + 1, file =>
      match loadType file with
      | (none, _) => (0, [])
      | (some b, file) =>
          match MsgNodeType.ofByte? b with
          | none => (-1, [])
          | some type =>
              let (ret, items) := itemsOf c fuel (loadRawString file).2
              (ret, itemOf c type file :: items)

/-! ## Acting -/

/-- What the items act on. -/
structure Shelf (α : Type) where
  dict : Dict Bytes (SortSet α Bytes)
  cur : Option Bytes
  draws : Nat

/-- Act on an item. -/
def Shelf.take [LinearOrder α] [Neg α] [One α] (heights : Nat → Lvl) :
    Item α → Shelf α → Option (Shelf α)
  | .skip, s => some s
  | .table key, s => some { s with dict := Db.openTable key s.dict, cur := some key }
  | .members ms, s =>
      match s.cur with
      | none => some s
      | some cur => do
          let sset ← s.dict.find cur
          let (sset, draws) ← insertAll heights ms sset s.draws
          some { s with dict := s.dict.modify cur fun _ => sset, draws }

/-- The part of a loader that the items act on. -/
def Loader.shelf (s : Loader α) : Shelf α := ⟨s.db.dbDict, s.curSset, s.draws⟩

/-! ## Content -/

/-- The members in some items, with the keys of their tables. -/
def entriesOf : Option Bytes → List (Item α) → List (Entry α)
  | _, [] => []
  | cur, .skip :: rest => entriesOf cur rest
  | _, .table key :: rest => entriesOf (some key) rest
  | none, .members _ :: rest => entriesOf none rest
  | some key, .members ms :: rest =>
      (ms.map fun m => ⟨key, m.2, m.1⟩) ++ entriesOf (some key) rest

/-- The members in a file. -/
def fileEntries (c : Codecs α) (file : Bytes) : List (Entry α) :=
  entriesOf none (itemsOf c (file.length + 1) file).2

/-- The score that is given first. -/
def firstSet (key data : Bytes) (es : List (Entry α)) : Option α :=
  (es.find? fun e => e.key = key ∧ e.data = data).map Entry.score

end LibC
