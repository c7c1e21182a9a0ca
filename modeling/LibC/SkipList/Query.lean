/-
LibC.SkipList.Query — the queries of `SkipList` and of `sort_set`.

The value at a score, the rank of a member, the first element of a range of
positions, and the two ends of a range of scores. As in `LibC.SkipList.List`, an operation answers
`none` where the source would dereference a null pointer or violate an
`assert`. `end()` reads `tail_`, and so do the score queries before they
search.

`rank`, `traversed` and the bounds of a `Range` are 64 bits wide, a span 32.

No `sorry`, no `axiom`, no `native_decide`.
-/
import LibC.SkipList.SortSet

namespace LibC

open LibC.Lib

variable {α β : Type}

namespace SkipList

/-- `operator++`. -/
def Itr.next (h : Heap (SkipListNode α β)) (it : Itr) : Option Itr :=
  if it.pos = it.stop then none
  else do
    let p ← it.pos
    let l ← getLevel h p 0
    some { it with pos := l.forward }

/-- The nodes that the score range walk of `main` prints: those before `last`, then the
one it stopped on, unless that is `end()`. -/
def visit (sl : SkipList α β) : Nat → Itr → Itr → Option (List (SkipListNode α β))
  | 0, _, _ => none
  | fuel + 1, it, last => do
      let e ← sl.endItr
      if it.pos ≠ e.pos ∧ it.pos ≠ last.pos then do
        let p ← it.pos
        let nd ← sl.heap.get p
        let it ← it.next sl.heap
        let rest ← visit sl fuel it last
        some (nd :: rest)
      else if it.pos ≠ e.pos then do
        let p ← it.pos
        let nd ← sl.heap.get p
        some [nd]
      else some []

/-! ## Ranges

The searches record no `update[]`; the path that `descend` returns is not read. -/

/-- `FirstInRangeByIdx`. -/
def firstInRangeByIdx (min max : UInt64) (sl : SkipList α β) : Option Itr :=
  if max < min then sl.endItr
  else if sl.lenth < min then sl.endItr
  else do
    let (x, traversed, _) ← descend sl.heap
      (fun traversed l _ => decide (traversed + l.span.toUInt64 < min))
      (fun traversed l => traversed + l.span.toUInt64)
      sl.level sl.head 0 ⟨fun _ => none, fun _ => 0⟩
    let traversed := traversed + 1
    let l ← getLevel sl.heap x 0
    if l.forward = none ∨ max < traversed then sl.endItr
    else do
      let t ← sl.tail
      let tl ← getLevel sl.heap t 0
      some ⟨l.forward, tl.forward⟩

variable [LinearOrder α]

/-- `Search`: the default value when no element has the score. -/
def search [Inhabited β] (score : α) (sl : SkipList α β) : Option β := do
  let (x, _, _) ← descend sl.heap (fun _ _ nd => decide (nd.score < score)) (fun _ _ => ())
    sl.level sl.head () ⟨fun _ => none, fun _ => ()⟩
  let l ← getLevel sl.heap x 0
  match l.forward with
  | none => some default
  | some f => do
      let nd ← sl.heap.get f
      some (if nd.score = score then nd.val else default)

/-- `FirstInRangeByScore`. -/
def firstInRangeByScore (min max : α) (sl : SkipList α β) : Option Itr := do
  let (min, max) := if max < min then (max, min) else (min, max)
  let t ← sl.tail
  let tn ← sl.heap.get t
  if tn.score < min then sl.endItr
  else do
    let (x, _, _) ← descend sl.heap (fun _ _ nd => decide (nd.score < min)) (fun _ _ => ())
      sl.level sl.head () ⟨fun _ => none, fun _ => ()⟩
    let l ← getLevel sl.heap x 0
    let f ← l.forward
    let nd ← sl.heap.get f
    if max < nd.score then sl.endItr
    else do
      let tl ← getLevel sl.heap t 0
      some ⟨some f, tl.forward⟩

/-- `LastInRangeByScore`: the search may end on the head, whose score is compared like
that of an element. -/
def lastInRangeByScore (min max : α) (sl : SkipList α β) : Option Itr := do
  let (min, max) := if max < min then (max, min) else (min, max)
  let t ← sl.tail
  let tn ← sl.heap.get t
  if tn.score < min then sl.endItr
  else if tn.score ≤ max then do
    let tl ← getLevel sl.heap t 0
    some ⟨some t, tl.forward⟩
  else do
    let (x, _, _) ← descend sl.heap (fun _ _ nd => decide (nd.score ≤ max)) (fun _ _ => ())
      sl.level sl.head () ⟨fun _ => none, fun _ => ()⟩
    let nd ← sl.heap.get x
    if nd.score < min then sl.endItr
    else do
      let tl ← getLevel sl.heap t 0
      some ⟨some x, tl.forward⟩

/-! ## `GetRank` -/

variable [DecidableEq β]

/-- The `while` loop of `GetRank` at level `i`: `error` is its `return`, from inside the
loop. -/
def rankWalk (h : Heap (SkipListNode α β)) (score : α) (val : β) (i : Nat) :
    Nat → Ptr → UInt64 → Option (Except UInt64 (Ptr × UInt64))
  | 0, _, _ => none
  | fuel + 1, x, rank => do
      let l ← getLevel h x i
      match l.forward with
      | none => some (.ok (x, rank))
      | some f => do
          let nd ← h.get f
          if nd.score < score ∨ nd.score = score then
            let rank := rank + l.span.toUInt64
            if nd.val = val then some (.error rank) else rankWalk h score val i fuel f rank
          else some (.ok (x, rank))

/-- The `for` loop of `GetRank`, from level `lvl - 1` down to `0`. -/
def rankDescend (h : Heap (SkipListNode α β)) (score : α) (val : β) :
    Nat → Ptr → UInt64 → Option UInt64
  | 0, _, _ => some 0
  | i + 1, x, rank => do
      match ← rankWalk h score val i h.size x rank with
      | .error rank => some rank
      | .ok (x, rank) => rankDescend h score val i x rank

/-- `GetRank`: `0` when the search does not meet the value. -/
def getRank (score : α) (val : β) (sl : SkipList α β) : Option UInt64 :=
  rankDescend sl.heap score val sl.level sl.head 0

end SkipList

/-! ## `sort_set` -/

namespace SortSet

/-- `GetMemScore`: `none` when it answers `false`. -/
def getMemScore (data : β) (s : SortSet α β) : Option α := s.dict data

variable [LinearOrder α]

/-- `GetMemRank`; the inner `none` is the answer `false`. -/
def getMemRank [DecidableEq β] (data : β) (s : SortSet α β) : Option (Option UInt64) :=
  match s.dict data with
  | none => some none
  | some score => do
      let rank ← SkipList.getRank score data s.sl
      some (some rank)

/-- `GetMemsByScore`. -/
def getMemsByScore (min max : α) (s : SortSet α β) : Option (SkipList.Itr × SkipList.Itr) := do
  let first ← SkipList.firstInRangeByScore min max s.sl
  let last ← SkipList.lastInRangeByScore min max s.sl
  some (first, last)

/-- `GetMemsFirstByRank`. -/
def getMemsFirstByRank (min max : UInt64) (s : SortSet α β) : Option SkipList.Itr :=
  SkipList.firstInRangeByIdx min max s.sl

/-- `GetMemByRank`. -/
def getMemByRank (rank : UInt64) (s : SortSet α β) : Option SkipList.Itr :=
  getMemsFirstByRank rank rank s

/-- `begin`. -/
def begin (s : SortSet α β) : Option SkipList.Itr := s.sl.being

/-- `end`. -/
def endItr (s : SortSet α β) : Option SkipList.Itr := s.sl.endItr

end SortSet

end LibC
