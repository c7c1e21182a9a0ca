/-
LibC.SkipList.Standalone — `SkipList` of `skiplist/src/skiplist.h`.

The header of the standalone program and that of the server share their text but
for four places: `Insert` has no `return`, both score queries assign `max_` from
`min_` when they swap the bounds, and there is a `Search2`, which nothing calls
and which is left out. A member whose text is the same is the server's
definition; the members of the class are the same too.

`Insert` answers an `int`, so running off its end is a fault: it answers `none`.

No `sorry`, no `axiom`, no `native_decide`.
-/
import LibC.SkipList.Query

namespace LibC.SkipList.Standalone

variable {α β : Type}

/-- The constructor. -/
def new [Neg α] [One α] [Inhabited β] : SkipList α β := SkipList.new

/-- `FirstInRangeByIdx`. -/
def firstInRangeByIdx (min max : UInt64) (sl : SkipList α β) : Option Itr :=
  SkipList.firstInRangeByIdx min max sl

/-- `Lenth`. -/
def lenth32 (sl : SkipList α β) : UInt32 := SkipList.lenth32 sl

variable [LinearOrder α]

/-- `Search`. -/
def search [Inhabited β] (score : α) (sl : SkipList α β) : Option β := SkipList.search score sl

/-- `FirstInRangeByScore`: `min_` is overwritten before `max_` is read from it. -/
def firstInRangeByScore (min max : α) (sl : SkipList α β) : Option Itr := do
  let (min, max) := if max < min then
      let min := max
      let max := min
      (min, max)
    else (min, max)
  let t ← sl.tail
  let tn ← sl.heap.get t
  if tn.score < min then sl.endItr
  else do
    let (x, _, _) ← descend sl.heap (fun _ _ nd => decide (nd.score < min)) (fun _ _ => ())
      sl.level sl.head () ⟨fun _ => none, fun _ => ()⟩
    let l ← getLevel sl.heap x 0
    let f ← l.forward
    let nd ← sl.heap.get f
    if max < nd.score then sl.endItr
    else do
      let tl ← getLevel sl.heap t 0
      some ⟨some f, tl.forward⟩

/-- `LastInRangeByScore`, with the same swap. -/
def lastInRangeByScore (min max : α) (sl : SkipList α β) : Option Itr := do
  let (min, max) := if max < min then
      let min := max
      let max := min
      (min, max)
    else (min, max)
  let t ← sl.tail
  let tn ← sl.heap.get t
  if tn.score < min then sl.endItr
  else if tn.score ≤ max then do
    let tl ← getLevel sl.heap t 0
    some ⟨some t, tl.forward⟩
  else do
    let (x, _, _) ← descend sl.heap (fun _ _ nd => decide (nd.score ≤ max)) (fun _ _ => ())
      sl.level sl.head () ⟨fun _ => none, fun _ => ()⟩
    let nd ← sl.heap.get x
    if nd.score < min then sl.endItr
    else do
      let tl ← getLevel sl.heap t 0
      some ⟨some x, tl.forward⟩

variable [DecidableEq β]

/-- `GetRank`. -/
def getRank (score : α) (val : β) (sl : SkipList α β) : Option UInt64 :=
  SkipList.getRank score val sl

/-- `Insert`: the element goes in as in the server's copy, and then there is no `return`. -/
def insert (lvl : Lvl) (score : α) (val : β) (sl : SkipList α β) : Option (Int × SkipList α β) := do
  let _ ← SkipList.insert lvl score val sl
  none

/-- `Delete`. -/
def delete (score : α) (val : β) (sl : SkipList α β) : Option (Int × SkipList α β) :=
  SkipList.delete score val sl

end LibC.SkipList.Standalone
