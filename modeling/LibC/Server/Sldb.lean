/-
LibC.Server.Sldb — the database file format, `bis/src/server/sldb.cpp`.

A file is the list of its bytes. A record is a type byte, a length in one, two
or five bytes, and a protobuf message of that length.

Writing: whether an `fwrite` succeeds is up to the environment, which answers
each `FileWrite` call with a `WriteRet`; a call that fails may still have
stored some of its bytes, never all of them.

Reading: `fread(buf, len, 1, f)` either delivers `len` bytes, or finds fewer,
consumes them and answers `0`; it answers `0` and consumes nothing when `len`
is `0`.

Protobuf is not part of the repository. A message type comes with a `Codec`,
the two functions the code calls; that a serialized message stays below 2 GiB
is the documented limit of the library.

No `sorry`, no `axiom`, no `native_decide`.
-/
import LibC.Lib.Bytes
import Mathlib.Algebra.Order.Ring.Int

namespace LibC

open LibC.Lib

/-! ## Protobuf -/

/-- The functions of a protobuf message type `M` that the code uses. -/
structure Codec (M : Type) where
  serializeAsString : M → Bytes
  parseFromString : Bytes → Option M
  size_lt : ∀ m, (serializeAsString m).length < 2 ^ 31

/-- `MsgNodeType::Type`. -/
inductive MsgNodeType where
  | version | db | table | key
  deriving DecidableEq, Repr

/-- The number of a node type. -/
def MsgNodeType.toByte : MsgNodeType → UInt8
  | version => 0
  | db => 1
  | table => 2
  | key => 3

/-- The `case` a type byte selects; `none` is the `default` case. -/
def MsgNodeType.ofByte? (b : UInt8) : Option MsgNodeType :=
  if b = 0 then some version
  else if b = 1 then some db
  else if b = 2 then some table
  else if b = 3 then some key
  else none

namespace MsgLenType

/-- `MsgLenType::BS_6BIT`. -/
def bs6Bit : UInt32 := 0

/-- `MsgLenType::BS_14BIT`. -/
def bs14Bit : UInt32 := 1

/-- `MsgLenType::BS_32BIT`. -/
def bs32Bit : UInt32 := 2

end MsgLenType

/-- `LEN_ERR`, that is `UINT_MAX`; `LoadLen` also returns it as `-1`. -/
def lenErr : UInt32 := 0xFFFFFFFF

/-! ## Writing -/

/-- What an `fwrite` did: it stored its buffer, or failed after `n` bytes of it. -/
inductive WriteRet where
  | ok
  | fail (n : Nat)
  deriving DecidableEq, Repr

/-- The stream behind `fp`: what has been stored, and the number of `FileWrite` calls
made for the record being written. -/
structure Writer where
  content : Bytes
  calls : Nat

/-- `FileWrite`, answered by `io`. An `fwrite` of an empty buffer answers `0`. -/
def fileWrite (io : Nat → WriteRet) (buf : Bytes) (w : Writer) : Nat × Writer :=
  match io w.calls with
  | .ok => (if buf = [] then 0 else 1, ⟨w.content ++ buf, w.calls + 1⟩)
  | .fail n => (0, ⟨w.content ++ buf.take (min n (buf.length - 1)), w.calls + 1⟩)

/-- `SaveType`. -/
def saveType (io : Nat → WriteRet) (type : MsgNodeType) (w : Writer) : Int × Writer :=
  let (n, w) := fileWrite io [type.toByte] w
  (n, w)

/-- `SaveLen`: the number of bytes written, or `-1`. -/
def saveLen (io : Nat → WriteRet) (len : UInt32) (w : Writer) : Int × Writer :=
  if len < (1 : UInt32) <<< 6 then
    let (n, w) := fileWrite io
      [((len &&& (0xFF : UInt32)) ||| (MsgLenType.bs6Bit <<< (6 : UInt32))).toUInt8] w
    if n = 0 then (-1, w) else (1, w)
  else if len < (1 : UInt32) <<< 14 then
    let (n, w) := fileWrite io
      [(((len >>> 8) &&& (0xFF : UInt32)) ||| (MsgLenType.bs14Bit <<< (6 : UInt32))).toUInt8,
        (len &&& (0xFF : UInt32)).toUInt8] w
    if n = 0 then (-1, w) else (2, w)
  else
    let (n, w) := fileWrite io [(MsgLenType.bs32Bit <<< (6 : UInt32)).toUInt8] w
    if n = 0 then (-1, w) else
    let (n, w) := fileWrite io (htonl len) w
    if n = 0 then (-1, w) else (1 + 4, w)

/-- `SaveRawString`: an empty string is not written at all. -/
def saveRawString (io : Nat → WriteRet) (str : Bytes) (w : Writer) : Int × Writer :=
  if str.length > 0 then
    let (n, w) := saveLen io (UInt32.ofNat str.length) w
    if n ≤ 0 then (-1, w) else
    let (m, w) := fileWrite io str w
    if m ≤ 0 then (-1, w) else (n + str.length, w)
  else (0, w)

/-- The conversion of an `ssize_t` to the `int` that `SaveObj` returns. -/
def toInt (n : Int) : Int := n.bmod (2 ^ 32)

/-- `SaveObj`. -/
def saveObj {M : Type} (c : Codec M) (io : Nat → WriteRet) (obj : M) (type : MsgNodeType)
    (w : Writer) : Int × Writer :=
  let (n, w) := saveType io type w
  if n ≤ 0 then (-1, w) else
  let (m, w) := saveRawString io (c.serializeAsString obj) w
  if m ≤ 0 then (-1, w) else (toInt (n + m), w)

/-! ## Reading -/

/-- `FileRead` of `len` bytes from what is left of a file: the bytes (`none` is the
return value `0`) and what is left then. -/
def fileRead (len : Nat) (f : Bytes) : Option Bytes × Bytes :=
  if len = 0 then (none, f)
  else if f.length < len then (none, [])
  else (some (f.take len), f.drop len)

/-- `LoadType`; `none` is the return value `-1`. -/
def loadType (f : Bytes) : Option UInt8 × Bytes :=
  match fileRead 1 f with
  | (none, f) => (none, f)
  | (some buf, f) => (some (buf.getD 0 0), f)

/-- `LoadLen`. -/
def loadLen (f : Bytes) : UInt32 × Bytes :=
  match fileRead 1 f with
  | (none, f) => (lenErr, f)
  | (some buf, f) =>
      let b0 := (buf.getD 0 0).toUInt32
      let type := (b0 &&& 0xC0) >>> 6
      if type = MsgLenType.bs6Bit then (b0 &&& 0x3F, f)
      else if type = MsgLenType.bs14Bit then
        match fileRead 1 f with
        | (none, f) => (lenErr, f)
        | (some buf, f) => (((b0 &&& 0x3F) <<< 8) ||| (buf.getD 0 0).toUInt32, f)
      else if type = MsgLenType.bs32Bit then
        match fileRead 4 f with
        | (none, f) => (lenErr, f)
        | (some buf, f) => (ntohl buf, f)
      else (lenErr, f)

/-- `LoadRawString`; `none` is the return value `-1`. -/
def loadRawString (f : Bytes) : Option Bytes × Bytes :=
  let (len, f) := loadLen f
  if len = lenErr then (none, f) else fileRead len.toNat f

/-- `LoadObj`; `none` is the return value `-1`. -/
def loadObj {M : Type} (c : Codec M) (f : Bytes) : Option M × Bytes :=
  match loadRawString f with
  | (none, f) => (none, f)
  | (some str, f) => (c.parseFromString str, f)

end LibC
