/-
LibC.Proxy.Cmd — the command object, `Cmd` of `bis/src/proxy/cmd.cpp`.

A frame is a head of eight bytes and the application data: the length of the
frame, the command, a checksum, all in network byte order. `Parse` looks at the
beginning of the received bytes and answers the length of the frame there, `0`
when it is not complete, `-1` when it is longer than `MAX_CMD_LEN`; the
checksum is kept, not compared.

`Serialize` comes in two forms here, a string and a `BufferSequence` that
borrows the application data. Nothing calls the third one, into an array; it is in
`Proxy.Serialize`.

No `sorry`, no `axiom`, no `native_decide`.
-/
import LibC.Proxy.Buffer

namespace LibC

open LibC.Lib

/-- `MAX_CMD_LEN`. -/
def maxCmdLen : UInt32 := 4096 * 8

/-- `sizeof(MsgHead)`. -/
def sizeofMsgHead : Nat := 8

/-- `Cmd`. -/
structure Cmd where
  uCmdId : UInt16
  uCheck : UInt16
  uMsgIdx : UInt32
  strAppData : AppData

namespace Cmd

/-- `Cmd()`. -/
def new : Cmd := ⟨0, 0, 0, ⟨[], 0⟩⟩

/-- `set_app_data`. -/
def setAppData (data : Bytes) (c : Cmd) : Cmd :=
  { c with strAppData := ⟨data, c.strAppData.version + 1⟩ }

/-- `set_cmd_id`. -/
def setCmdId (uCmdId : UInt16) (c : Cmd) : Cmd := { c with uCmdId }

/-- `Clear`. -/
def clear (c : Cmd) : Cmd := { c with uCmdId := 0, uCheck := 0, uMsgIdx := 0 }.setAppData []

/-- `Parse`. -/
def parse (dataBuf : Bytes) (c : Cmd) : Int × Cmd :=
  if dataBuf.length < sizeofMsgHead then (0, c)
  else
    let pkgLen := ntohl dataBuf
    if pkgLen > maxCmdLen then (-1, c)
    else if pkgLen.toNat < sizeofMsgHead then (0, c)
    else if pkgLen.toNat > dataBuf.length then (0, c)
    else
      let c := { c with uCmdId := ntohs (dataBuf.drop 4), uCheck := ntohs (dataBuf.drop 6) }
      (pkgLen.toNat,
        c.setAppData ((dataBuf.drop sizeofMsgHead).take (pkgLen.toNat - sizeofMsgHead)))

/-- The bytes of a `MsgHead`. -/
def msgHead (msgLen : UInt32) (cmdId check : UInt16) : Bytes :=
  htonl msgLen ++ htons cmdId ++ htons check

/-- `Serialize` into a string. -/
def serialize (c : Cmd) : Bytes :=
  msgHead (UInt32.ofNat (sizeofMsgHead + c.strAppData.bytes.length)) c.uCmdId c.uCheck ++
    c.strAppData.bytes

/-- `Serialize` into a `BufferSequence`. The head is stored with checksum `0` first; the
checksum is then written into the memory that the sequence owns. -/
def serializeBs (c : Cmd) : Option BufferSequence := do
  let msgLen := UInt32.ofNat (sizeofMsgHead + c.strAppData.bytes.length)
  let sb2 := StaticBuffer.ofApp c.strAppData
  let bs ← BufferSequence.new.add (.ofDynamic (msgHead msgLen c.uCmdId 0))
  let bs ← bs.add sb2
  let check ← bs.checkSum c.strAppData
  let bs ← BufferSequence.new.add (.ofDynamic (msgHead msgLen c.uCmdId check))
  bs.add sb2

end Cmd

end LibC
