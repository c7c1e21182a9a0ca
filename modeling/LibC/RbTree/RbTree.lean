/-
LibC.RbTree.RbTree — `rb_tree` of `rb_tree/src/rb_tree.h`.

The nodes live in a heap and are reached through pointers, as in the source;
`nil_` is a node of its own, and the null pointer is what it points to. Every
operation answers `none` where the source would go through a null or dangling
pointer, or loop for ever: a loop goes round at most as many times as there are
nodes.

The two rotations are mirror images of each other, and so are the two halves of
`InsertFixup`; each pair is one definition here, with the side as a parameter.

The keys are compared by any strict weak order that `==` goes with.

No `sorry`, no `axiom`, no `native_decide`.
-/
import LibC.Lib.Heap
import LibC.Lib.RedBlack

namespace LibC

open LibC.Lib

/-! ## Keys -/

/-- `key_cmp_` and `==` of the keys: a strict weak order, and its equivalence. -/
structure KeyCompare (κ : Type) where
  cmp : κ → κ → Bool
  eq : κ → κ → Bool
  asymm : ∀ a b, cmp a b = true → cmp b a = false
  weak : ∀ a b c, cmp a c = true → cmp a b = true ∨ cmp b c = true
  eq_iff : ∀ a b, eq a b = true ↔ cmp a b = false ∧ cmp b a = false

/-- The keys of an `int` tree, with `std::less`. -/
def KeyCompare.int : KeyCompare Int32 where
  cmp a b := decide (a < b)
  eq a b := decide (a = b)
  asymm a b h := by
    have hab := Int32.lt_iff_toInt_lt.mp (of_decide_eq_true h)
    refine decide_eq_false fun hba => ?_
    have hba := Int32.lt_iff_toInt_lt.mp hba
    omega
  weak a b c h := by
    have hac := Int32.lt_iff_toInt_lt.mp (of_decide_eq_true h)
    simp only [decide_eq_true_eq, Int32.lt_iff_toInt_lt]
    omega
  eq_iff a b := by
    simp only [decide_eq_true_eq, decide_eq_false_iff_not, Int32.lt_iff_toInt_lt, ← Int32.toInt_inj]
    omega

/-! ## Nodes -/

/-- `RBNode`. -/
structure RBNode (κ ν : Type) where
  key : κ
  val : ν
  color : Color
  p : Option Ptr
  left : Option Ptr
  right : Option Ptr

namespace RBNode

variable {κ ν : Type}

/-- `left` or `right`. -/
def child (d : Side) (n : RBNode κ ν) : Option Ptr :=
  match d with
  | .left => n.left
  | .right => n.right

/-- An assignment to `left` or `right`. -/
def setChild (d : Side) (q : Option Ptr) (n : RBNode κ ν) : RBNode κ ν :=
  match d with
  | .left => { n with left := q }
  | .right => { n with right := q }

end RBNode

/-- `rb_tree`. -/
structure RbTree (κ ν : Type) where
  heap : Heap (RBNode κ ν)
  root : Option Ptr
  nil : Option Ptr
  size : UInt64
  high : UInt64

namespace RbTree

variable {κ ν : Type}

/-- A field of the node `x`. -/
def read {β : Type} (x : Option Ptr) (f : RBNode κ ν → β) (t : RbTree κ ν) : Option β :=
  x.bind fun q => (t.heap.get q).map f

/-- An assignment to a field of the node `x`. -/
def write (x : Option Ptr) (f : RBNode κ ν → RBNode κ ν) (t : RbTree κ ν) : Option (RbTree κ ν) :=
  x.bind fun q => (t.heap.modify? q f).map fun heap => { t with heap }

/-- `MakeNode`. -/
def makeNode (key : κ) (val : ν) (t : RbTree κ ν) : Option Ptr × RbTree κ ν :=
  let (q, heap) := t.heap.alloc ⟨key, val, .black, none, none, none⟩
  (some q, { t with heap })

/-- `rb_tree()`. -/
def new [Inhabited κ] [Inhabited ν] : RbTree κ ν :=
  let (nil, t) := makeNode default default ⟨Heap.empty, none, none, 0, 0⟩
  { t with nil, root := nil }

/-! ## Rotations -/

/-- `q` gets the parent `x`, unless it is `nil_`. -/
def reparent (q x : Option Ptr) (t : RbTree κ ν) : Option (RbTree κ ν) :=
  if q = t.nil then some t else t.write q fun n => { n with p := x }

/-- The pointer to `x` that its parent has, or `root_`, becomes `y`. -/
def relink (x y : Option Ptr) (t : RbTree κ ν) : Option (RbTree κ ν) := do
  let p ← t.read x RBNode.p
  if p = t.nil then some { t with root := y }
  else do
    let l ← t.read p RBNode.left
    if x = l then t.write p (RBNode.setChild .left y) else t.write p (RBNode.setChild .right y)

/-- `LeftRorate`, when `d` is the left side, and its mirror image. -/
def rotate (d : Side) (x : Option Ptr) (t : RbTree κ ν) : Option (RbTree κ ν) :=
  if x = none then some t
  else do
    let y ← t.read x (RBNode.child d.opp)
    if y = none then some t
    else do
      let b ← t.read y (RBNode.child d)
      let t ← t.write x (RBNode.setChild d.opp b)
      let b ← t.read y (RBNode.child d)
      let t ← reparent b x t
      let p ← t.read x RBNode.p
      let t ← t.write y fun n => { n with p }
      let t ← relink x y t
      let t ← t.write y (RBNode.setChild d x)
      t.write x fun n => { n with p := y }

/-- `LeftRorate`. -/
def leftRorate (x : Option Ptr) (t : RbTree κ ν) : Option (RbTree κ ν) := rotate .left x t

/-- `RightRorate`. -/
def rightRorate (y : Option Ptr) (t : RbTree κ ν) : Option (RbTree κ ν) := rotate .right y t

/-- The rotation that puts a node down on side `d`. -/
def rorate : Side → Option Ptr → RbTree κ ν → Option (RbTree κ ν)
  | .left => leftRorate
  | .right => rightRorate

/-! ## Insertion -/

/-- The body of the loop of `InsertFixup`, when the parent is the child of the grandparent on
side `d`: `z` afterwards, and the tree. -/
def fixupSide (d : Side) (z : Option Ptr) (t : RbTree κ ν) : Option (Option Ptr × RbTree κ ν) := do
  let p ← t.read z RBNode.p
  let g ← t.read p RBNode.p
  let y ← t.read g (RBNode.child d.opp)
  let color ← t.read y RBNode.color
  if color = .red then
    let t ← t.write p fun n => { n with color := .black }
    let t ← t.write y fun n => { n with color := .black }
    let t ← t.write g fun n => { n with color := .red }
    some (g, t)
  else
    let inner ← t.read p (RBNode.child d.opp)
    if z = inner then
      let t ← rorate d p t
      some (p, t)
    else
      let t ← t.write p fun n => { n with color := .black }
      let t ← t.write g fun n => { n with color := .red }
      let t ← rorate d.opp g t
      some (z, t)

/-- The loop of `InsertFixup`. -/
def fixupLoop : Nat → Option Ptr → RbTree κ ν → Option (RbTree κ ν)
  | 0, _, _ => none
  | fuel + 1, z, t => do
      let p ← t.read z RBNode.p
      let color ← t.read p RBNode.color
      if color = .red then
        let g ← t.read p RBNode.p
        let l ← t.read g RBNode.left
        let (z, t) ← fixupSide (if p = l then .left else .right) z t
        fixupLoop fuel z t
      else some t

/-- `InsertFixup`. -/
def insertFixup (z : Option Ptr) (t : RbTree κ ν) : Option (RbTree κ ν) := do
  let t ← fixupLoop t.heap.size z t
  t.write t.root fun n => { n with color := .black }

/-- The loop of `Insert`: `y` and `cnt` in the end. -/
def descend (K : KeyCompare κ) (key : κ) :
    Nat → Option Ptr → Option Ptr → UInt64 → RbTree κ ν → Option (Option Ptr × UInt64)
  | 0, _, _, _, _ => none
  | fuel + 1, x, y, cnt, t =>
      if x = t.nil then some (y, cnt)
      else do
        let xkey ← t.read x RBNode.key
        let next ← t.read x (RBNode.child (if K.cmp key xkey then .left else .right))
        descend K key fuel next x (cnt + 1) t

/-- `z` becomes a child of `y`, or the root. -/
def attach (K : KeyCompare κ) (key : κ) (y z : Option Ptr) (t : RbTree κ ν) :
    Option (RbTree κ ν) :=
  if y = t.nil then some { t with root := z }
  else do
    let ykey ← t.read y RBNode.key
    t.write y (RBNode.setChild (if K.cmp key ykey then .left else .right) z)

/-- `Insert` of a node. -/
def insertNode (K : KeyCompare κ) (z : Option Ptr) (t : RbTree κ ν) : Option (RbTree κ ν) := do
  let key ← t.read z RBNode.key
  let (y, cnt) ← descend K key t.heap.size t.root t.nil 0 t
  let t := if cnt > t.high then { t with high := cnt } else t
  let t ← t.write z fun n => { n with p := y }
  let t ← attach K key y z t
  let t ← t.write z fun n => { n with left := t.nil }
  let t ← t.write z fun n => { n with right := t.nil }
  let t ← t.write z fun n => { n with color := .red }
  insertFixup z t

/-- `Insert`. -/
def insert (K : KeyCompare κ) (key : κ) (val : ν) (t : RbTree κ ν) : Option (RbTree κ ν) := do
  let (z, t) := makeNode key val t
  let t ← insertNode K z t
  some { t with size := t.size + 1 }

/-! ## Queries -/

/-- The loop of `Search`. -/
def searchLoop (K : KeyCompare κ) (key : κ) : Nat → Option Ptr → RbTree κ ν → Option (Option Ptr)
  | 0, _, _ => none
  | fuel + 1, x, t =>
      if x = t.nil then some x
      else do
        let xkey ← t.read x RBNode.key
        if K.eq xkey key then some x
        else
          let next ← t.read x (RBNode.child (if K.cmp key xkey then .left else .right))
          searchLoop K key fuel next t

/-- `Search`. -/
def search (K : KeyCompare κ) (key : κ) (t : RbTree κ ν) : Option (Option Ptr) :=
  searchLoop K key t.heap.size t.root t

/-- `InorderWalk` of a node: what is printed. -/
def inorderWalkFrom : Nat → Option Ptr → RbTree κ ν → Option (List (κ × ν))
  | 0, _, _ => none
  | fuel + 1, x, t =>
      if x = t.nil then some []
      else do
        let l ← inorderWalkFrom fuel (← t.read x RBNode.left) t
        let e ← t.read x fun n => (n.key, n.val)
        let r ← inorderWalkFrom fuel (← t.read x RBNode.right) t
        some (l ++ e :: r)

/-- `InorderWalk`. -/
def inorderWalk (t : RbTree κ ν) : Option (List (κ × ν)) :=
  inorderWalkFrom t.heap.size t.root t

/-- `get_high`. -/
def getHigh (t : RbTree κ ν) : UInt64 := t.high

end RbTree

end LibC
