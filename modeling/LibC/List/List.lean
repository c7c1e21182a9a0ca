/-
LibC.List.List — `cz::List` of `list/list.h`.

The nodes are in a circle with links in both directions; the list object has a
pointer to the sentinel, which the first `push` makes. An operation answers
`none` where the source would go through a null or dangling pointer, read a
value that was never set (the sentinel has none), or loop for ever: a loop goes
round at most as many times as there are nodes.

`EqualKey` is any predicate of two values. `del` answers an `int`, and has no
`return` statement after it has taken a node out: control runs off its end then,
which is a fault too.

No `sorry`, no `axiom`, no `native_decide`.
-/
import LibC.Lib.Heap

namespace LibC

open LibC.Lib

/-- `cz::Node`. -/
structure CzNode (α : Type) where
  val : Option α
  pre : Option Ptr
  next : Option Ptr

/-- `cz::List`. -/
structure CzList (α : Type) where
  heap : Heap (CzNode α)
  nil : Option Ptr

namespace CzList

variable {α : Type}

/-- `List()`. -/
def new : CzList α := ⟨Heap.empty, none⟩

/-- A field of the node `x`. -/
def read {β : Type} (x : Option Ptr) (f : CzNode α → β) (t : CzList α) : Option β :=
  x.bind fun q => (t.heap.get q).map f

/-- An assignment to a field of the node `x`. -/
def write (x : Option Ptr) (f : CzNode α → CzNode α) (t : CzList α) : Option (CzList α) :=
  x.bind fun q => (t.heap.modify? q f).map fun heap => { t with heap }

/-- The value of the node `x`, which must have been set. -/
def val (x : Option Ptr) (t : CzList α) : Option α := (t.read x CzNode.val).join

/-- `create`. -/
def create (t : CzList α) : Option Ptr × CzList α :=
  let (q, heap) := t.heap.alloc ⟨none, none, none⟩
  (some q, { t with heap })

/-! ## Operations -/

/-- The sentinel, if there is none yet. -/
def ensureNil (t : CzList α) : Option (CzList α) :=
  if t.nil = none then do
    let (q, t) := create t
    let t := { t with nil := q }
    let t ← t.write t.nil fun n => { n with next := t.nil }
    t.write t.nil fun n => { n with pre := t.nil }
  else some t

/-- `push`. -/
def push (v : α) (t : CzList α) : Option (Int32 × CzList α) := do
  let t ← ensureNil t
  let (stNew, t) := create t
  let t ← t.write stNew fun n => { n with val := some v }
  let first ← t.read t.nil CzNode.next
  let t ← t.write stNew fun n => { n with next := first }
  let t ← t.write stNew fun n => { n with pre := t.nil }
  let first ← t.read t.nil CzNode.next
  let t ← t.write first fun n => { n with pre := stNew }
  let t ← t.write t.nil fun n => { n with next := stNew }
  some (0, t)

/-- The loop of `search`. -/
def searchLoop (equalKey : α → α → Bool) (key : α) :
    Nat → Option Ptr → CzList α → Option (Option Ptr)
  | 0, _, _ => none
  | fuel + 1, curr, t =>
      if t.nil ≠ curr then do
        let v ← t.val curr
        if equalKey v key then some curr
        else
          let curr ← t.read curr CzNode.next
          searchLoop equalKey key fuel curr t
      else some none

/-- `search`. -/
def search (equalKey : α → α → Bool) (key : α) (t : CzList α) : Option (Option Ptr) := do
  let curr ← t.read t.nil CzNode.next
  searchLoop equalKey key t.heap.size curr t

/-- A node is freed. -/
def free (x : Option Ptr) (t : CzList α) : Option (CzList α) :=
  x.bind fun q => (t.heap.get q).map fun _ => { t with heap := t.heap.free q }

/-- `del`. It takes the node out, and then there is no `return`. -/
def del (equalKey : α → α → Bool) (v : α) (t : CzList α) : Option (Int32 × CzList α) := do
  let findNode ← search equalKey v t
  if findNode = none then some (-1, t)
  else do
    let p ← t.read findNode CzNode.pre
    let n ← t.read findNode CzNode.next
    let t ← t.write p fun m => { m with next := n }
    let n ← t.read findNode CzNode.next
    let p ← t.read findNode CzNode.pre
    let t ← t.write n fun m => { m with pre := p }
    let _ ← free findNode t
    none

/-! ## Iterators -/

/-- `begin`. -/
def begin (t : CzList α) : Option (Option Ptr) := t.read t.nil CzNode.next

/-- `operator++`. -/
def succ (p : Option Ptr) (t : CzList α) : Option (Option Ptr) :=
  if p = none then some none else t.read p CzNode.next

/-- The nodes from `p` to `end()`, and the values in them. -/
def iterate : Nat → Option Ptr → CzList α → Option (List (Ptr × α))
  | 0, _, _ => none
  | fuel + 1, p, t =>
      if p = t.nil then some []
      else do
        let q ← p
        let v ← t.val p
        let rest ← iterate fuel (← succ p t) t
        some ((q, v) :: rest)

/-- The nodes from `begin()` to `end()`. -/
def elements (t : CzList α) : Option (List (Ptr × α)) := do
  let p ← begin t
  iterate t.heap.size p t

end CzList

end LibC
