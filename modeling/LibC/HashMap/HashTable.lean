/-
LibC.HashMap.HashTable — `HTable` and `HashTable` of `hash_map/hash_table.h`.

The nodes live in a heap and are reached through pointers, as in the source; a
bucket of `htable_` is the pointer to the first node of its chain. Every
operation answers `none` where the source would go through a null or dangling
pointer, access `htable_` out of range, or run off the end of a function that
answers an `int`: `Resize` has no `return` on any path.

Two keys are equal exactly when their object bytes are, so what `hash` makes of
the bytes is a function of the key. `HashFunc` is the one that is used when no
other is given.

No `sorry`, no `axiom`, no `native_decide`.
-/
import LibC.Lib.Bytes
import LibC.Lib.Chain
import LibC.Lib.Loop
import Mathlib.Algebra.Order.Ring.Int

namespace LibC

open LibC.Lib

/-! ## Hashing -/

namespace HashFunc

/-- `dict_hash_function_seed`. -/
def seed : UInt32 := 5381

/-- `m` of MurmurHash2. -/
def m : UInt32 := 0x5bd1e995

/-- Four bytes, mixed. -/
def word (b0 b1 b2 b3 : UInt8) : UInt32 :=
  let k := b0.toUInt32 ||| b1.toUInt32 <<< 8 ||| b2.toUInt32 <<< 16 ||| b3.toUInt32 <<< 24
  let k := k * m
  let k := k ^^^ k >>> 24
  k * m

/-- The loop over four bytes at a time, and the bytes that are left. -/
def mix : Bytes → UInt32 → UInt32
  | b0 :: b1 :: b2 :: b3 :: data, h => mix data (h * m ^^^ word b0 b1 b2 b3)
  | [b0, b1, b2], h => (h ^^^ b2.toUInt32 <<< 16 ^^^ b1.toUInt32 <<< 8 ^^^ b0.toUInt32) * m
  | [b0, b1], h => (h ^^^ b1.toUInt32 <<< 8 ^^^ b0.toUInt32) * m
  | [b0], h => (h ^^^ b0.toUInt32) * m
  | [], h => h

/-- `operator()`. -/
def hash (key : Bytes) : UInt32 :=
  let h := mix key (seed ^^^ UInt32.ofNat key.length)
  let h := h ^^^ h >>> 13
  let h := h * m
  h ^^^ h >>> 15

/-- The object bytes of an `int`. -/
def intBytes (key : Int32) : Bytes :=
  let k := key.toUInt32
  [k.toUInt8, (k >>> 8).toUInt8, (k >>> 16).toUInt8, (k >>> 24).toUInt8]

end HashFunc

/-! ## The table -/

/-- `HTNode`. -/
structure HTNode (κ ν : Type) where
  key : κ
  val : ν
  next : Option Ptr

/-- `HTable`. -/
structure HTable where
  bucketSize : UInt32
  sizemask : UInt32
  sizeUsed : UInt32
  htable : List (Option Ptr)

namespace HTable

/-- `HTable(bucket_size)`. -/
def new (bucketSize : UInt32) : HTable :=
  ⟨bucketSize, bucketSize - 1, 0, List.replicate bucketSize.toNat none⟩

/-- The body of the loop of `Resize`, over the new buckets and `size_used_`. -/
def resizeBody (htable : List (Option Ptr)) (i : Nat) (s : List (Option Ptr) × UInt32) :
    Option (List (Option Ptr) × UInt32) := do
  let bucket ← htable[i]?
  if i < s.1.length then
    some (s.1.set i bucket, if bucket = none then s.2 else s.2 + 1)
  else none

/-- `Resize`. The chains keep their places, whatever the mask is then, and there is no `return`
behind the last assignment. -/
def resize (size : UInt32) (t : HTable) : Option (Int32 × HTable) := do
  let (newHtable, sizeUsed) ← forRange (resizeBody t.htable) 0 t.bucketSize.toNat
    (List.replicate size.toNat none, 0)
  let _ := (⟨size, size - 1, sizeUsed, newHtable⟩ : HTable)
  none

end HTable

/-- `HashTable`; the table is `tables[0]`. -/
structure HashTable (κ ν : Type) where
  heap : Heap (HTNode κ ν)
  table : HTable

namespace HashTable

variable {κ ν : Type}

/-- `HashTable()`, with a number of buckets. -/
def new (bucketSize : UInt32) : HashTable κ ν := ⟨Heap.empty, HTable.new bucketSize⟩

/-- `isNeedToExpand`. The nearest `double` to `0.72` is `3242591731706757 / 2 ^ 52`, and the
division by a power of two is exact. -/
def isNeedToExpand (t : HashTable κ ν) : Bool :=
  t.table.sizeUsed.toNat * 2 ^ 52 > 3242591731706757 * t.table.bucketSize.toNat

variable [DecidableEq κ] (hash : κ → UInt32)

/-- `genHashKey`. -/
def genHashKey (key : κ) (t : HashTable κ ν) : Nat := (hash key &&& t.table.sizemask).toNat

/-- The loop over the chain of a bucket: the node with the key, or the null pointer. -/
def findNode (key : κ) (itr : Option Ptr) (t : HashTable κ ν) : Option (Option Ptr) :=
  follow HTNode.next (fun n => n.key = key) t.heap t.heap.size itr

/-- What `hset` begins with. -/
def expand (t : HashTable κ ν) : Option (HashTable κ ν) :=
  if t.isNeedToExpand then do
    let (_, table) ← t.table.resize (t.table.bucketSize <<< 1)
    some { t with table }
  else some t

/-- The rest of `hset`. -/
def put (key : κ) (val : ν) (t : HashTable κ ν) : Option (HashTable κ ν) := do
  let index := genHashKey hash key t
  let itr ← t.table.htable[index]?
  let sizeUsed := if itr = none then t.table.sizeUsed + 1 else t.table.sizeUsed
  match ← findNode key itr t with
  | some p => do
      let heap ← t.heap.modify? p fun n => { n with val }
      some ⟨heap, { t.table with sizeUsed }⟩
  | none =>
      let (p, heap) := t.heap.alloc ⟨key, val, itr⟩
      some ⟨heap, { t.table with sizeUsed, htable := t.table.htable.set index (some p) }⟩

/-- `hset`, which returns `0`. -/
def hset (key : κ) (val : ν) (t : HashTable κ ν) : Option (HashTable κ ν) := do
  let t ← expand t
  put hash key val t

/-- `hget`: the value when it returns `0`, `none` when it returns `-1`. -/
def hget (key : κ) (t : HashTable κ ν) : Option (Option ν) := do
  let itr ← t.table.htable[genHashKey hash key t]?
  match ← findNode key itr t with
  | some p => do
      let n ← t.heap.get p
      some (some n.val)
  | none => some none

end HashTable

end LibC
