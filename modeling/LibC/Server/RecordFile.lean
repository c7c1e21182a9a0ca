/-
LibC.Server.RecordFile — files written with `sldb::SaveObj` alone.

`SaveObj` takes any byte as the type of a record, and any message. The class of
a message is one for each type byte, so that whoever reads the file knows what
to parse: `M type` are the messages, `ObjCodec` what protobuf does with them.

`SaveLog` is the file together with the calls whose answer was positive, and
`readAll` is the loop that reads the file with `LoadType` and `LoadObj` until
`LoadType` finds nothing more.

No `sorry`, no `axiom`, no `native_decide`.
-/
import LibC.Server.Sldb

namespace LibC

open LibC.Lib

/-- What the code uses of a class of messages: `ParseFromString` gives back what
`SerializeAsString` took, and a string is shorter than the length that stands for an error. -/
structure ObjCodec (M : Type) where
  serializeAsString : M → Bytes
  parseFromString : Bytes → Option M
  parse_serialize : ∀ m, parseFromString (serializeAsString m) = some m
  size_lt : ∀ m, (serializeAsString m).length < 2 ^ 32 - 1

/-! ## Writing -/

/-- `SaveObj` of a message that serializes to `str`. -/
def saveObjStr (io : Nat → WriteRet) (str : Bytes) (type : UInt8) (w : Writer) : Int × Writer :=
  let (n, w) := fileWrite io [type] w
  if (n : Int) ≤ 0 then (-1, w) else
  let (m, w) := saveRawString io str w
  if m ≤ 0 then (-1, w) else (toInt (n + m), w)

/-- `SaveObj`, for the types that the database uses. -/
theorem saveObj_eq {M : Type} (c : Codec M) (io : Nat → WriteRet) (obj : M) (type : MsgNodeType)
    (w : Writer) :
    saveObj c io obj type w = saveObjStr io (c.serializeAsString obj) type.toByte w := rfl

/-- A file, and the records whose `SaveObj` answered a positive number. -/
structure SaveLog (M : UInt8 → Type) where
  content : Bytes
  saved : List (Sigma M)

variable {M : UInt8 → Type}

/-- A call of `SaveObj`, all of whose writes succeed. -/
def saveStep (c : ∀ type, ObjCodec (M type)) (call : Sigma M) (s : SaveLog M) :
    Option (SaveLog M) :=
  let (ret, w) := saveObjStr (fun _ => .ok) ((c call.1).serializeAsString call.2) call.1
    ⟨s.content, 0⟩
  some ⟨w.content, if 0 < ret then s.saved ++ [call] else s.saved⟩

/-! ## Reading -/

/-- `LoadObj` of a class of messages. -/
def loadObjStr {N : Type} (parse : Bytes → Option N) (f : Bytes) : Option N × Bytes :=
  match loadRawString f with
  | (none, f) => (none, f)
  | (some str, f) => (parse str, f)

theorem loadObj_eq {N : Type} (c : Codec N) (f : Bytes) :
    loadObj c f = loadObjStr c.parseFromString f := rfl

/-- Read records until there are no more bytes: each with its type, and the message unless
`LoadObj` failed. -/
def readAll (c : ∀ type, ObjCodec (M type)) :
    Nat → Bytes → Option (List (Sigma fun type => Option (M type)))
  | 0, _ => none
  | fuel + 1, f =>
      match loadType f with
      | (none, _) => some []
      | (some type, f) =>
          let (obj, f) := loadObjStr (c type).parseFromString f
          (readAll c fuel f).map fun records => ⟨type, obj⟩ :: records

/-- The file reads back as the records whose `SaveObj` answered a positive number. -/
def FileReadsBack (c : ∀ type, ObjCodec (M type)) (s : SaveLog M) : Prop :=
  readAll c (s.content.length + 1) s.content = some (s.saved.map fun x => ⟨x.1, some x.2⟩)

end LibC
