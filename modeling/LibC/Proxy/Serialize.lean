/-
LibC.Proxy.Serialize — `Serialize` of `Cmd` into an array, `bis/src/proxy/cmd.cpp`,
and `CStrTool::CheckSum` of `snslib/comm/util/pet_util.cpp`.

The array is what it holds, and `uiDataLen` is what the caller says its length
is. The fields of the head are stored one after the other, and the checksum is
taken before the field for it is. An access outside the array is `none`.

No `sorry`, no `axiom`, no `native_decide`.
-/
import LibC.Proxy.Cmd

namespace LibC

open LibC.Lib

/-! ## CheckSum -/

/-- The loop of `CStrTool::CheckSum`, with the number of rounds that are left. -/
def checkSumLoop : Nat → Bytes → UInt16 → Option UInt16
  | 0, _, sum => some sum
  | rounds + 1, lo :: hi :: data, sum => checkSumLoop rounds data (sum ^^^ word lo hi)
  | _ + 1, _, _ => none

/-- `CStrTool::CheckSum`. The length is an `int`; half of a negative one is not positive. -/
def cstrCheckSum (buff : Bytes) (size : Int32) : Option UInt16 :=
  checkSumLoop (size.toInt.tdiv 2).toNat buff 0

/-! ## Serialize -/

/-- Some bytes are stored in an array. -/
def store (offset : Nat) (data buf : Bytes) : Option Bytes :=
  if offset + data.length ≤ buf.length then
    some (buf.take offset ++ data ++ buf.drop (offset + data.length))
  else none

/-- `Serialize` into an array: what it answers, and the array. -/
def Cmd.serializeTo (dataBuf : Option Bytes) (dataLen : UInt64) (c : Cmd) :
    Option (Bool × Option Bytes) :=
  let pkgLen := UInt32.ofNat (sizeofMsgHead + c.strAppData.bytes.length)
  match dataBuf with
  | none => some (false, none)
  | some buf =>
      if dataLen < pkgLen.toUInt64 then some (false, some buf)
      else do
        let buf ← store 4 (htons c.uCmdId) buf
        let buf ← store 0 (htonl pkgLen) buf
        let buf ← store sizeofMsgHead c.strAppData.bytes buf
        let check ← cstrCheckSum buf pkgLen.toInt32
        let buf ← store 6 (htons check) buf
        some (true, some buf)

end LibC
