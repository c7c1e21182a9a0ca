/-
LibC.BinaryTree.BinaryTree — `BinaryTree` of `binary_tree/binary_tree.h`.

The nodes live in a heap and are reached through pointers, as in the source;
there is no sentinel, and a link that leads nowhere is the null pointer. Every
operation answers `none` where the source would go through a null or dangling
pointer, or loop for ever: a loop goes round at most as many times as there are
nodes. So it does where an assertion of the source fails, as all of them are
about null pointers that are read next.

The values are compared by any linear order, and `int` is one.

No `sorry`, no `axiom`, no `native_decide`.
-/
import LibC.Lib.BinTree
import LibC.Lib.Heap
import Mathlib.Algebra.Order.Ring.Int

namespace LibC

open LibC.Lib

/-- `Node`. -/
structure Node (α : Type) where
  data : α
  left : Option Ptr
  right : Option Ptr
  parent : Option Ptr

namespace Node

variable {α : Type}

/-- `left` or `right`. -/
def child (d : Side) (n : Node α) : Option Ptr :=
  match d with
  | .left => n.left
  | .right => n.right

/-- An assignment to `left` or `right`. -/
def setChild (d : Side) (q : Option Ptr) (n : Node α) : Node α :=
  match d with
  | .left => { n with left := q }
  | .right => { n with right := q }

end Node

/-- `BinaryTree`. -/
structure BinaryTree (α : Type) where
  heap : Heap (Node α)
  root : Option Ptr

namespace BinaryTree

variable {α : Type}

/-- `BinaryTree()`. -/
def new : BinaryTree α := ⟨Heap.empty, none⟩

/-- A field of the node `x`. -/
def read {β : Type} (x : Option Ptr) (f : Node α → β) (t : BinaryTree α) : Option β :=
  x.bind fun q => (t.heap.get q).map f

/-- An assignment to a field of the node `x`. -/
def write (x : Option Ptr) (f : Node α → Node α) (t : BinaryTree α) : Option (BinaryTree α) :=
  x.bind fun q => (t.heap.modify? q f).map fun heap => { t with heap }

/-- `MakeNode`. -/
def makeNode (data : α) (t : BinaryTree α) : Option Ptr × BinaryTree α :=
  let (q, heap) := t.heap.alloc ⟨data, none, none, none⟩
  (some q, { t with heap })

/-- `FreeNode`. -/
def freeNode (x : Option Ptr) (t : BinaryTree α) : Option (BinaryTree α) :=
  match x with
  | none => some t
  | some q => (t.heap.get q).map fun _ => { t with heap := t.heap.free q }

/-! ## Ways down -/

/-- The loop of `Min`, when `d` is the left side, and of `Max`, when it is the right one. -/
def endLoop (d : Side) : Nat → Option Ptr → BinaryTree α → Option (Option Ptr)
  | 0, _, _ => none
  | fuel + 1, x, t => do
      let next ← t.read x (Node.child d)
      if next = none then some x else endLoop d fuel next t

/-- `Min` of a node. -/
def minNode (x : Option Ptr) (t : BinaryTree α) : Option (Option Ptr) :=
  endLoop .left (t.heap.size + 1) x t

/-- `Max` of a node. -/
def maxNode (x : Option Ptr) (t : BinaryTree α) : Option (Option Ptr) :=
  endLoop .right (t.heap.size + 1) x t

/-- `Min` of the tree. -/
def minRoot (t : BinaryTree α) : Option (Option Ptr) :=
  if t.root = none then some none else minNode t.root t

/-- `Max` of the tree. -/
def maxRoot (t : BinaryTree α) : Option (Option Ptr) :=
  if t.root = none then some none else maxNode t.root t

/-! ## Neighbours -/

/-- The loop of `Next`, when `d` is the right side, and of `Pre`, when it is the left one: up from
`z`, whose parent is `y`, until the direction of arrival changes. -/
def climbLoop (d : Side) : Nat → Option Ptr → Option Ptr → BinaryTree α → Option (Option Ptr)
  | 0, _, _, _ => none
  | fuel + 1, z, y, t =>
      if y = none then some y
      else do
        let c ← t.read y (Node.child d)
        if c = z then
          let p ← t.read y Node.parent
          climbLoop d fuel y p t
        else some y

/-- `Next`, when `d` is the right side, and its mirror image. -/
def neighbour (d : Side) (z : Option Ptr) (t : BinaryTree α) : Option (Option Ptr) :=
  if z = none then some none
  else do
    let c ← t.read z (Node.child d)
    if c ≠ none then
      match d with
      | .left => maxNode c t
      | .right => minNode c t
    else
      let y ← t.read z Node.parent
      climbLoop d (t.heap.size + 1) z y t

/-- `Pre`. -/
def pre (z : Option Ptr) (t : BinaryTree α) : Option (Option Ptr) := neighbour .left z t

/-- `Next`. -/
def next (z : Option Ptr) (t : BinaryTree α) : Option (Option Ptr) := neighbour .right z t

section Order

variable [LinearOrder α]

/-- The loop of `Search`. -/
def searchLoop (data : α) : Nat → Option Ptr → BinaryTree α → Option (Option Ptr)
  | 0, _, _ => none
  | fuel + 1, x, t =>
      if x = none then some x
      else do
        let xdata ← t.read x Node.data
        if xdata = data then some x
        else
          let next ← t.read x (Node.child (if data < xdata then .left else .right))
          searchLoop data fuel next t

/-- `Search`. -/
def search (data : α) (t : BinaryTree α) : Option (Option Ptr) :=
  searchLoop data (t.heap.size + 1) t.root t

/-- The loop of `Insert`: `y` in the end. -/
def descend (data : α) : Nat → Option Ptr → Option Ptr → BinaryTree α → Option (Option Ptr)
  | 0, _, _, _ => none
  | fuel + 1, x, y, t =>
      if x = none then some y
      else do
        let xdata ← t.read x Node.data
        let next ← t.read x (Node.child (if data < xdata then .left else .right))
        descend data fuel next x t

/-! ## Insertion -/

/-- `z` becomes the root or a child of `y`; a value that is equal goes to the left here. -/
def attach (data : α) (y z : Option Ptr) (t : BinaryTree α) : Option (BinaryTree α) :=
  if y = none then some { t with root := z }
  else do
    let ydata ← t.read y Node.data
    t.write y (Node.setChild (if data > ydata then .right else .left) z)

/-- `Insert` of a node. -/
def insertNode (z : Option Ptr) (t : BinaryTree α) : Option (BinaryTree α) := do
  let data ← t.read z Node.data
  let y ← descend data (t.heap.size + 1) t.root none t
  let t ← t.write z fun n => { n with parent := y }
  attach data y z t

/-- `Insert`. -/
def insert (data : α) (t : BinaryTree α) : Option (BinaryTree α) :=
  let (z, t) := makeNode data t
  insertNode z t

end Order

/-! ## Deletion -/

/-- The pointer to `u` that its parent has, or `root`, becomes `v`. -/
def relink (u v : Option Ptr) (t : BinaryTree α) : Option (BinaryTree α) := do
  let p ← t.read u Node.parent
  if p = none then some { t with root := v }
  else do
    let l ← t.read p Node.left
    t.write p (Node.setChild (if l = u then .left else .right) v)

/-- `Transplant`. -/
def transplant (u v : Option Ptr) (t : BinaryTree α) : Option (BinaryTree α) := do
  let t ← relink u v t
  if v = none then some t
  else do
    let p ← t.read u Node.parent
    t.write v fun n => { n with parent := p }

/-- `y` takes over the child that `z` has on side `d`. -/
def adopt (d : Side) (y z : Option Ptr) (t : BinaryTree α) : Option (BinaryTree α) := do
  let c ← t.read z (Node.child d)
  let t ← t.write y (Node.setChild d c)
  let c ← t.read y (Node.child d)
  t.write c fun n => { n with parent := y }

/-- `Delete` of a node, when it has two children. -/
def deleteInner (z : Option Ptr) (t : BinaryTree α) : Option (BinaryTree α) := do
  let r ← t.read z Node.right
  let y ← minNode r t
  let p ← t.read y Node.parent
  let t ←
    if p ≠ z then do
      let c ← t.read y Node.right
      let t ← transplant y c t
      adopt .right y z t
    else some t
  let t ← transplant z y t
  adopt .left y z t

/-- `Delete` of a node. -/
def deleteNode (z : Option Ptr) (t : BinaryTree α) : Option (BinaryTree α) := do
  let l ← t.read z Node.left
  let r ← t.read z Node.right
  if l = none then transplant z r t
  else if r = none then transplant z l t
  else deleteInner z t

/-- `Delete`. -/
def delete [LinearOrder α] (data : α) (t : BinaryTree α) : Option (BinaryTree α) := do
  let x ← search data t
  let t ← if x = none then some t else deleteNode x t
  freeNode x t

/-! ## The walk -/

/-- `InorderWalk` of a node: what is printed. -/
def inorderWalkFrom : Nat → Option Ptr → BinaryTree α → Option (List α)
  | 0, _, _ => none
  | fuel + 1, x, t =>
      if x = none then some []
      else do
        let l ← inorderWalkFrom fuel (← t.read x Node.left) t
        let data ← t.read x Node.data
        let r ← inorderWalkFrom fuel (← t.read x Node.right) t
        some (l ++ data :: r)

/-- `InorderWalk`. -/
def inorderWalk (t : BinaryTree α) : Option (List α) :=
  inorderWalkFrom (t.heap.size + 1) t.root t

end BinaryTree

end LibC
