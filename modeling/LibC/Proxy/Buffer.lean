/-
LibC.Proxy.Buffer — the buffers of a connection, `bis/src/proxy/snslib/comm/buffer`.

A `RecvBuffer` is an array of `m_size` bytes of which the first `UsedSize()`
have been received; only these are ever looked at, so they are what is kept.

A `StaticBuffer` is a window `[m_ptr, m_base_p + m_size)` on bytes that it owns,
or on the bytes of the application data of the command object. In the second
case it holds a pointer that the next assignment to that string invalidates:
`Base.app v` is the pointer into the data of version `v`, and reading it later is
a fault (`Base.read`).

`CheckSum` adds up 16-bit words of the host, which is little-endian.

No `sorry`, no `axiom`, no `native_decide`.
-/
import LibC.Lib.Bytes
import Mathlib.Data.Nat.Notation

namespace LibC

open LibC.Lib

/-! ## RecvBuffer -/

/-- `RecvBuffer`: `m_size`, and the bytes of `[m_base_p, m_nptr)`. -/
structure RecvBuffer where
  size : Nat
  used : Bytes
  used_le : used.length ≤ size

namespace RecvBuffer

/-- `RecvBuffer(len)`. -/
def new (len : Nat) : RecvBuffer := ⟨len, [], Nat.zero_le _⟩

/-- `UsedSize`. -/
def usedSize (b : RecvBuffer) : Nat := b.used.length

/-- `Remain`. -/
def remain (b : RecvBuffer) : Nat := b.size - b.usedSize

/-- `Advance` over the bytes that have been stored at `m_nptr`. -/
def advance (stored : Bytes) (b : RecvBuffer) : Bool × RecvBuffer :=
  if h : stored.length > b.remain then (false, b)
  else (true, ⟨b.size, b.used ++ stored, by
    have := b.used_le
    simp only [remain, usedSize] at h
    rw [List.length_append]
    omega⟩)

/-- `MemMoveLeft`. -/
def memMoveLeft (len : Nat) (b : RecvBuffer) : Bool × RecvBuffer :=
  if len > b.usedSize then (false, b)
  else (true, ⟨b.size, b.used.drop len, by
    have := b.used_le
    rw [List.length_drop]
    omega⟩)

end RecvBuffer

/-! ## StaticBuffer -/

/-- The application data of the command object: the string, and how many times it has
been assigned to. -/
structure AppData where
  bytes : Bytes
  version : Nat

/-- `m_base_p`: memory of its own (`m_own`), or a version of the application data. -/
inductive Base where
  | own (data : Bytes)
  | app (version : Nat)

/-- The bytes at `m_base_p`; `none` when they are gone. -/
def Base.read (app : AppData) : Base → Option Bytes
  | .own data => some data
  | .app version => if version = app.version then some app.bytes else none

/-- `StaticBuffer`; `ptr` is `m_ptr - m_base_p`. -/
structure StaticBuffer where
  base : Base
  size : Nat
  ptr : Nat
  ptr_le : ptr ≤ size

namespace StaticBuffer

/-- A buffer made from a `DynamicBuffer`, which gives its bytes away. -/
def ofDynamic (data : Bytes) : StaticBuffer := ⟨.own data, data.length, 0, Nat.zero_le _⟩

/-- `StaticBuffer(data, len)`, on the application data. -/
def ofApp (app : AppData) : StaticBuffer := ⟨.app app.version, app.bytes.length, 0, Nat.zero_le _⟩

/-- `Empty`. -/
def empty (b : StaticBuffer) : Bool := b.ptr = b.size

/-- `Remain`. -/
def remain (b : StaticBuffer) : Nat := b.size - b.ptr

/-- `Solided`; `m_solid` is never set. -/
def solided (b : StaticBuffer) : Bool :=
  match b.base with
  | .own _ => true
  | .app _ => false

/-- The `Remain()` bytes at `Str()`. -/
def str (app : AppData) (b : StaticBuffer) : Option Bytes :=
  (b.base.read app).map fun data => (data.drop b.ptr).take b.remain

/-- `Advance`. -/
def advance (len : Nat) (b : StaticBuffer) : StaticBuffer :=
  if h : len > b.remain then b
  else { b with
    ptr := b.ptr + len
    ptr_le := by
      have := b.ptr_le
      simp only [remain] at h
      omega }

end StaticBuffer

/-! ## BufferSequence -/

/-- `BUFFER_SEQUCNE_COUNT`. -/
def bufferSequenceCount : Nat := 3

/-- `BufferSequence`; the length of `buffers` is `m_count`. -/
structure BufferSequence where
  buffers : List StaticBuffer
  totalSize : Nat

namespace BufferSequence

/-- `BufferSequence()`. -/
def new : BufferSequence := ⟨[], 0⟩

/-- `operator+=`; `none` is the exception. -/
def add (other : StaticBuffer) (bs : BufferSequence) : Option BufferSequence :=
  if bs.buffers.length ≥ bufferSequenceCount then none
  else some ⟨bs.buffers ++ [other], bs.totalSize + other.remain⟩

/-- `Empty`. -/
def empty (bs : BufferSequence) : Bool := bs.totalSize = 0

/-- `Remain`. -/
def remain (bs : BufferSequence) : Nat := bs.totalSize

/-- `InitIoVec`: the bytes of the buffers that are not empty. -/
def initIoVec (app : AppData) (bs : BufferSequence) : Option (List Bytes) :=
  (bs.buffers.filter fun b => !b.empty).mapM fun b => b.str app

/-- The loop of `Advance` over the buffers; `len` and `total` are what is left of the
argument and of `m_total_size`. -/
def advanceBuffers : List StaticBuffer → Nat → Nat → List StaticBuffer × Nat
  | [], _, total => ([], total)
  | b :: rest, len, total =>
      if len > 0 then
        if !b.empty then
          let toAdvance := min b.remain len
          let (rest, total) := advanceBuffers rest (len - toAdvance) (total - toAdvance)
          (b.advance toAdvance :: rest, total)
        else
          let (rest, total) := advanceBuffers rest len total
          (b :: rest, total)
      else (b :: rest, total)

/-- `Advance`. -/
def advance (len : Nat) (bs : BufferSequence) : BufferSequence :=
  let (buffers, totalSize) := advanceBuffers bs.buffers len bs.totalSize
  ⟨buffers, totalSize⟩

/-- The body of the loop of `Solidify`: a copy of the bytes that are left. -/
def solidifyBuffer (app : AppData) (b : StaticBuffer) : Option StaticBuffer :=
  if !b.empty && !b.solided then (b.str app).map StaticBuffer.ofDynamic else some b

/-- `Solidify`. -/
def solidify (app : AppData) (bs : BufferSequence) : Option BufferSequence :=
  if bs.totalSize = 0 then some bs
  else (bs.buffers.mapM (solidifyBuffer app)).map fun buffers => { bs with buffers }

/-- The words of some bytes, and the byte that is left over. -/
def sumWords : Bytes → UInt16 → UInt16 × Option UInt8
  | lo :: hi :: data, sum => sumWords data (sum ^^^ (lo.toUInt16 + (hi.toUInt16 <<< 8)))
  | [last], sum => (sum, some last)
  | [], sum => (sum, none)

/-- The body of the loop of `CheckSum`. The byte left over by the buffer before is the
low byte of a word; the last one of all is not counted. -/
def sumBuffer (acc : UInt16 × Option UInt8) (data : Bytes) : UInt16 × Option UInt8 :=
  match acc.2, data with
  | some last, first :: data => sumWords data (acc.1 ^^^ ((first.toUInt16 <<< 8) + last.toUInt16))
  | _, data => sumWords data acc.1

/-- `CheckSum`. -/
def checkSum (app : AppData) (bs : BufferSequence) : Option UInt16 :=
  if bs.totalSize = 0 then some 0
  else (bs.initIoVec app).map fun vec => (vec.foldl sumBuffer (0, none)).1

end BufferSequence

end LibC
