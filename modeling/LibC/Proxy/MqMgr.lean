/-
LibC.Proxy.MqMgr — which server a request goes to: `mq_mgr` of
`bis/src/proxy/mq_mgr.cpp`.

`GetIndex` hashes the key into one of `bucket_num_` buckets, and counts its way
to the socket that has the bucket. The counting is done in `int`; an operation
of signed integers whose result does not fit is `none`, and so is a conversion
to `int` that changes the value, and a division by zero.

`Init` connects the sockets in a loop whose bound is the number of addresses as
an `int`. So there are fewer than `2^31` of them, which `MqMgr` has as a field.

`Hash` reads its words from memory, in the byte order of the host, which is
little-endian. It measures the key in `int`, and a key that is too long for that
is hashed in part.

No `sorry`, no `axiom`, no `native_decide`.
-/
import LibC.Lib.Bytes
import Mathlib.Algebra.Order.Ring.Int

namespace LibC

open LibC.Lib

/-! ## Integers -/

/-- The result of an operation of signed integers, or of a conversion to `int`. -/
def checkedInt (n : ℤ) : Option ℤ := if -2 ^ 31 ≤ n ∧ n < 2 ^ 31 then some n else none

/-- The conversion of a `size_t` to `int`, as `static_cast` makes it. -/
def castInt (n : ℕ) : ℤ := (n : ℤ).bmod (2 ^ 32)

/-! ## `Hash` -/

namespace Murmur

/-- `m`. -/
def m : UInt32 := 0x5bd1e995

/-- A word of the key. -/
def word (data : Bytes) : UInt32 :=
  (data.getD 0 0).toUInt32 ||| (data.getD 1 0).toUInt32 <<< 8 |||
    (data.getD 2 0).toUInt32 <<< 16 ||| (data.getD 3 0).toUInt32 <<< 24

/-- The body of the `while` loop. -/
def mix (data : Bytes) (h : UInt32) : UInt32 :=
  let k := word data * m
  let k := k ^^^ (k >>> 24)
  let k := k * m
  (h * m) ^^^ k

/-- The `while` loop. -/
def words (data : Bytes) (len : ℤ) (h : UInt32) : Bytes × ℤ × UInt32 :=
  if 4 ≤ len then words (data.drop 4) (len - 4) (mix data h) else (data, len, h)
  termination_by len.toNat
  decreasing_by omega

/-- The `switch`, in which every case falls through to the next one. -/
def rest (data : Bytes) (len : ℤ) (h : UInt32) : UInt32 :=
  let h := if len = 3 then h ^^^ ((data.getD 2 0).toUInt32 <<< 16) else h
  let h := if len = 3 ∨ len = 2 then h ^^^ ((data.getD 1 0).toUInt32 <<< 8) else h
  if len = 3 ∨ len = 2 ∨ len = 1 then (h ^^^ (data.getD 0 0).toUInt32) * m else h

/-- The final mixes. -/
def final (h : UInt32) : UInt32 :=
  let h := h ^^^ (h >>> 13)
  let h := h * m
  h ^^^ (h >>> 15)

end Murmur

/-- `Hash`. -/
def hash (strKey : Bytes) : UInt32 :=
  let len := castInt strKey.length
  let (data, len, h) := Murmur.words strKey len ((5381 : UInt32) ^^^ UInt32.ofInt len)
  Murmur.final (Murmur.rest data len h)

/-! ## `mq_mgr` -/

/-- `mq_mgr`: the sockets of `push_sks`. -/
structure MqMgr where
  pushSks : List ℕ
  fits : pushSks.length < 2 ^ 31

namespace MqMgr

/-- The loop of `Init`, with the numbers of addresses left and done; `connect` is what
`zmq_connect` answers for each of them. -/
def connectLoop (connect : ℕ → Int) : ℕ → ℕ → List ℕ → Int × List ℕ
  | 0, _, pushSks => (0, pushSks)
  | left + 1, i, pushSks =>
      if connect i < 0 then (connect i, pushSks)
      else connectLoop connect left (i + 1) (pushSks ++ [i])

theorem length_connectLoop (connect : ℕ → Int) : ∀ (left i : ℕ) (pushSks : List ℕ),
    (connectLoop connect left i pushSks).2.length ≤ pushSks.length + left
  | 0, _, _ => Nat.le_refl _
  | left + 1, i, pushSks => by
      unfold connectLoop
      split
      · exact Nat.le_add_right _ _
      · have ih := length_connectLoop connect left (i + 1) (pushSks ++ [i])
        rw [List.length_append, List.length_singleton] at ih
        omega

theorem castInt_lt (n : ℕ) : (castInt n).toNat < 2 ^ 31 := by
  have hhalf : (((2 ^ 32 : ℕ) : ℤ) + 1) / 2 = 2 ^ 31 := by decide
  have h : castInt n < 2 ^ 31 := (Int.bmod_lt (Nat.two_pow_pos 32)).trans_eq hhalf
  generalize castInt n = x at h ⊢
  omega

theorem length_connectLoop_lt (connect : ℕ → Int) (n : ℕ) :
    (connectLoop connect (castInt n).toNat 0 []).2.length < 2 ^ 31 := by
  have hle := length_connectLoop connect (castInt n).toNat 0 []
  rw [List.length_nil, Nat.zero_add] at hle
  exact Nat.lt_of_le_of_lt hle (castInt_lt n)

/-- `Init`. -/
def init (connect : ℕ → Int) (pushAddrs : List Bytes) : Int × MqMgr :=
  let mgr : MqMgr := ⟨(connectLoop connect (castInt pushAddrs.length).toNat 0 []).2,
    length_connectLoop_lt connect pushAddrs.length⟩
  let ret := (connectLoop connect (castInt pushAddrs.length).toNat 0 []).1
  (if ret < 0 then ret else if mgr.pushSks.length = 0 then -1 else 0, mgr)

/-- The condition of the loop of `GetIndex`, over `n` sockets: both sides are unsigned. -/
def moreSockets (n : ℕ) (idx : ℤ) : Prop :=
  ((UInt32.ofInt idx).toNat : ℤ) < ((n : ℤ) - 1) % 2 ^ 64

instance (n : ℕ) (idx : ℤ) : Decidable (moreSockets n idx) :=
  inferInstanceAs (Decidable (_ < _))

/-- The loop of `GetIndex`, over `n` sockets. A round counts one of them. -/
def indexLoop (buckVal per : ℤ) (n : ℕ) : ℕ → ℤ → ℤ → Option ℤ
  | 0, _, _ => none
  | fuel + 1, idx, sum =>
      if moreSockets n idx then
        if buckVal < sum then some idx
        else do
          let sum ← checkedInt (sum + per)
          let idx ← checkedInt (idx + 1)
          indexLoop buckVal per n fuel idx sum
      else some idx

/-- `GetIndex`. -/
def getIndex (bucketNum : ℤ) (key : Bytes) (mgr : MqMgr) : Option ℤ :=
  if bucketNum = 0 then none
  else do
    let buckVal ← checkedInt (hash key % UInt32.ofInt bucketNum).toNat
    let size ← checkedInt mgr.pushSks.length
    if size = 0 then none
    else do
      let per ← checkedInt (bucketNum.tdiv size)
      indexLoop buckVal per mgr.pushSks.length mgr.pushSks.length 0 per

/-- The socket that `SendMsg` sends to; the inner `none` is that there are no sockets. -/
def sendTo (bucketNum : ℤ) (key : Bytes) (mgr : MqMgr) : Option (Option ℕ) :=
  if mgr.pushSks.length = 0 then some none
  else do
    let idx ← getIndex bucketNum key mgr
    let pushSk ← mgr.pushSks[idx.toNat]?
    some (some pushSk)

end MqMgr

end LibC
