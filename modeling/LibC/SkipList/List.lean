/-
LibC.SkipList.List — `SkipList` of `bis/src/server/skiplist.h`.

The nodes live in a heap and are reached through pointers, as in the source:
`forward` and `backward` are pointers, a node's `level` is the vector of its
links, and `head_`, `tail_`, `lenth_`, `level_` are the members of the class.
Every operation answers `none` exactly where the source would read or write
through a null or dangling pointer, index a vector out of range, read an entry
of `update[]` it has not written, or loop for ever.

The machine integers are kept: `span` and the `ranks[]` of `Insert` are 32 bits
wide and `lenth_` is 64 bits wide, all wrapping (`ranks[]` is signed in the
source; a subtraction of two ranks is the same 32-bit pattern either way).

A random height is drawn from outside: `Lvl` is the type of the values
`skRandomLevel` can return, and `skRandomLevel` itself, over a stream of
coin flips, is shown to return those and only those.

No `sorry`, no `axiom`, no `native_decide`.
-/
import LibC.Lib.Heap
import LibC.Lib.Loop
import Mathlib.Data.List.Basic
import Mathlib.Logic.Function.Basic
import Mathlib.Algebra.Order.Ring.Int

namespace LibC

open LibC.Lib

/-- `MAXLEVEL`. -/
def maxLevel : Nat := 32

/-! ## Random heights -/

/-- A height of a node: what `skRandomLevel` may return. -/
abbrev Lvl := { l : Nat // 1 ≤ l ∧ l ≤ maxLevel }

/-- The loop of `skRandomLevel`: `coins` are the outcomes of the comparisons
`rand() < SKIPLIST_P * RAND_MAX`, the fuel is `MAXLEVEL - lvl`. -/
def randomLevelLoop : Nat → Nat → List Bool → Nat
  | fuel + 1, lvl, true :: coins => randomLevelLoop fuel (lvl + 1) coins
  | _, lvl, _ => lvl

/-- `skRandomLevel`. A list of coins that runs out stands for a failed flip. -/
def skRandomLevel (coins : List Bool) : Nat := randomLevelLoop (maxLevel - 1) 1 coins

theorem randomLevelLoop_bounds : ∀ (fuel lvl : Nat) (coins : List Bool),
    lvl ≤ randomLevelLoop fuel lvl coins ∧ randomLevelLoop fuel lvl coins ≤ lvl + fuel
  | 0, lvl, coins => by simp [randomLevelLoop]
  | fuel + 1, lvl, [] => by simp [randomLevelLoop]
  | fuel + 1, lvl, false :: coins => by simp [randomLevelLoop]
  | fuel + 1, lvl, true :: coins => by
      have ih := randomLevelLoop_bounds fuel (lvl + 1) coins
      simp only [randomLevelLoop]
      omega

/-- `n` successful flips raise the level by `n`. -/
theorem randomLevelLoop_replicate : ∀ (n fuel lvl : Nat), n ≤ fuel →
    randomLevelLoop fuel lvl (List.replicate n true) = lvl + n
  | 0, fuel, lvl, _ => by cases fuel <;> rfl
  | n + 1, fuel + 1, lvl, h => by
      rw [List.replicate_succ, randomLevelLoop,
        randomLevelLoop_replicate n fuel (lvl + 1) (by omega)]
      omega

/-- `Lvl` is the range of `skRandomLevel`. -/
theorem skRandomLevel_range (l : Nat) :
    (∃ coins, skRandomLevel coins = l) ↔ 1 ≤ l ∧ l ≤ maxLevel := by
  constructor
  · rintro ⟨coins, rfl⟩
    have h := randomLevelLoop_bounds (maxLevel - 1) 1 coins
    simp only [skRandomLevel, maxLevel] at h ⊢
    omega
  · rintro ⟨h1, h2⟩
    refine ⟨List.replicate (l - 1) true, ?_⟩
    rw [skRandomLevel, randomLevelLoop_replicate _ _ _ (by omega)]
    omega

/-! ## Data -/

/-- `SkipListNode::SkipListLevel`. -/
structure SkipListLevel where
  forward : Option Ptr
  span : UInt32
  deriving DecidableEq, Repr

/-- `SkipListNode`; `val` is `data.val`. -/
structure SkipListNode (α β : Type) where
  score : α
  val : β
  backward : Option Ptr
  level : List SkipListLevel
  deriving DecidableEq, Repr

/-- `SkipList`: the nodes it owns and its four members. -/
structure SkipList (α β : Type) where
  heap : Heap (SkipListNode α β)
  head : Ptr
  tail : Option Ptr
  lenth : UInt64
  level : Nat

/-- `MakeNode`: `level.resize(lvl)` value-initialises the links. -/
def makeNode {α β : Type} (h : Heap (SkipListNode α β)) (lvl : Nat) (score : α) (val : β) :
    Ptr × Heap (SkipListNode α β) :=
  h.alloc ⟨score, val, none, List.replicate lvl ⟨none, 0⟩⟩

/-- `x->level[i]`. -/
def getLevel {α β : Type} (h : Heap (SkipListNode α β)) (x : Ptr) (i : Nat) :
    Option SkipListLevel := do
  let nd ← h.get x
  nd.level[i]?

/-- An assignment to members of `x->level[i]`. -/
def modifyLevel {α β : Type} (h : Heap (SkipListNode α β)) (x : Ptr) (i : Nat)
    (f : SkipListLevel → SkipListLevel) : Option (Heap (SkipListNode α β)) := do
  let nd ← h.get x
  let l ← nd.level[i]?
  some (h.set x { nd with level := nd.level.set i (f l) })

/-- An assignment to `x->backward`. -/
def setBackward {α β : Type} (h : Heap (SkipListNode α β)) (x : Ptr) (b : Option Ptr) :
    Option (Heap (SkipListNode α β)) :=
  h.modify? x fun nd => { nd with backward := b }

namespace SkipList

variable {α β γ : Type}

/-- The constructor and `InitHead`: a head of `MAXLEVEL` null links, score `-1`
and the empty string (`default`). -/
def new [Neg α] [One α] [Inhabited β] : SkipList α β :=
  let (head, heap) := makeNode Heap.empty maxLevel (-1 : α) (default : β)
  { heap, head, tail := none, lenth := 0, level := 1 }

/-! ## Searching -/

/-- The `while` loop of a search at level `i`: follow `forward` from `x` while it
is not null and `go` allows it. The loop state is `x` and an accumulator, which
`go` may read and `add` advances by the link taken. -/
def walk (h : Heap (SkipListNode α β)) (i : Nat)
    (go : γ → SkipListLevel → SkipListNode α β → Bool) (add : γ → SkipListLevel → γ) :
    Nat → Ptr → γ → Option (Ptr × γ)
  | 0, _, _ => none
  | fuel + 1, x, r => do
      let l ← getLevel h x i
      match l.forward with
      | none => some (x, r)
      | some f => do
          let nd ← h.get f
          if go r l nd then walk h i go add fuel f (add r l) else some (x, r)

/-- `sl_node *update[MAXLEVEL]` and the accumulators recorded with it; an entry
of `update` that has not been written is `none`. -/
structure Path (γ : Type) where
  update : Nat → Option Ptr
  ranks : Nat → γ

/-- The entries recorded at one level. -/
def Path.record (p : Path γ) (i : Nat) (x : Ptr) (r : γ) : Path γ :=
  ⟨Function.update p.update i (some x), Function.update p.ranks i r⟩

/-- The `for` loop of a search, from level `lvl - 1` down to `0`. The fuel of each
level is the number of nodes ever allocated. -/
def descend (h : Heap (SkipListNode α β))
    (go : γ → SkipListLevel → SkipListNode α β → Bool) (add : γ → SkipListLevel → γ) :
    Nat → Ptr → γ → Path γ → Option (Ptr × γ × Path γ)
  | 0, x, r, p => some (x, r, p)
  | i + 1, x, r, p => do
      let (x', r') ← walk h i go add h.size x r
      descend h go add i x' r' (p.record i x' r')

variable [LinearOrder α] [DecidableEq β]

/-- The loop condition shared by `Insert` and `Delete`. -/
def before (score : α) (val : β) (nd : SkipListNode α β) : Bool :=
  decide (nd.score < score) || (decide (nd.score = score) && !decide (nd.val = val))

/-! ## `Insert` -/

/-- The body of the loop that opens the levels from `level_` up to the height of
the new node. -/
def openLevel (head : Ptr) (lenth : UInt64) (i : Nat) :
    Heap (SkipListNode α β) × Path UInt32 → Option (Heap (SkipListNode α β) × Path UInt32)
  | (h, p) => do
      let h ← modifyLevel h head i fun l => { l with span := lenth.toUInt32 }
      some (h, p.record i head 0)

/-- The body of the loop that links the new node `x` into level `i`. -/
def linkLevel (x : Ptr) (p : Path UInt32) (i : Nat) (h : Heap (SkipListNode α β)) :
    Option (Heap (SkipListNode α β)) := do
  let u ← p.update i
  let ul ← getLevel h u i
  let h ← modifyLevel h x i fun _ => ⟨ul.forward, ul.span - (p.ranks 0 - p.ranks i)⟩
  modifyLevel h u i fun _ => ⟨some x, (p.ranks 0 - p.ranks i) + 1⟩

/-- The body of the loop over the levels the new node does not reach. -/
def bumpSpan (p : Path UInt32) (i : Nat) (h : Heap (SkipListNode α β)) :
    Option (Heap (SkipListNode α β)) := do
  let u ← p.update i
  modifyLevel h u i fun l => { l with span := l.span + 1 }

/-- `Insert`, with the height `skRandomLevel` draws for the new node. -/
def insert (lvl : Lvl) (score : α) (val : β) (sl : SkipList α β) :
    Option (Int × SkipList α β) := do
  let (_, _, p) ← descend sl.heap (fun _ _ nd => before score val nd) (fun r l => r + l.span)
    sl.level sl.head 0 ⟨fun _ => none, fun _ => 0⟩
  let (h, p) ← forRange (openLevel sl.head sl.lenth) sl.level (lvl.val - sl.level) (sl.heap, p)
  let level := max sl.level lvl.val
  let (x, h) := makeNode h lvl.val score val
  let h ← forRange (linkLevel x p) 0 lvl.val h
  let h ← forRange (bumpSpan p) lvl.val (level - lvl.val) h
  let u ← p.update 0
  let h ← setBackward h x (if u = sl.head then none else some u)
  let l ← getLevel h x 0
  match l.forward with
  | some f => do
      let h ← setBackward h f (some x)
      some (0, { sl with heap := h, level, lenth := sl.lenth + 1 })
  | none => some (0, { sl with heap := h, tail := some x, level, lenth := sl.lenth + 1 })

/-! ## `Delete` -/

/-- The body of the loop of `DeleteNode`. -/
def unlinkLevel (x : Ptr) (p : Path Unit) (i : Nat) (h : Heap (SkipListNode α β)) :
    Option (Heap (SkipListNode α β)) := do
  let u ← p.update i
  let ul ← getLevel h u i
  if ul.forward = some x then do
    let xl ← getLevel h x i
    modifyLevel h u i fun l => ⟨xl.forward, l.span + (xl.span - 1)⟩
  else
    modifyLevel h u i fun l => { l with span := l.span - 1 }

/-- The loop that lowers `level_` while the head has no link at the top. -/
def dropLevels (h : Heap (SkipListNode α β)) (head : Ptr) : Nat → Option Nat
  | l + 2 => do
      let top ← getLevel h head (l + 1)
      if top.forward = none then dropLevels h head (l + 1) else some (l + 2)
  | l => some l

/-- `DeleteNode`: take `x` out of every level. The length goes up, not down. -/
def deleteNode (x : Ptr) (p : Path Unit) (sl : SkipList α β) : Option (SkipList α β) := do
  let h ← forRange (unlinkLevel x p) 0 sl.level sl.heap
  let nd ← h.get x
  let l ← nd.level[0]?
  let (h, tail) ← match l.forward with
    | some f => do
        let h ← setBackward h f nd.backward
        some (h, sl.tail)
    | none => some (h, nd.backward)
  let level ← dropLevels h sl.head sl.level
  some { sl with heap := h, tail, level, lenth := sl.lenth + 1 }

/-- `Delete`: `0` when a node was taken out and freed, `-1` when the search did not
end before one with this score and value. -/
def delete (score : α) (val : β) (sl : SkipList α β) : Option (Int × SkipList α β) := do
  let (x, _, p) ← descend sl.heap (fun _ _ nd => before score val nd) (fun _ _ => ())
    sl.level sl.head () ⟨fun _ => none, fun _ => ()⟩
  let l ← getLevel sl.heap x 0
  match l.forward with
  | some f => do
      let nd ← sl.heap.get f
      if score = nd.score ∧ nd.val = val then do
        let sl ← deleteNode f p sl
        some (0, { sl with heap := sl.heap.free f })
      else some (-1, sl)
  | none => some (-1, sl)

/-- `Lenth`: the return type keeps the low 32 bits. -/
def lenth32 (sl : SkipList α β) : UInt32 := sl.lenth.toUInt32

/-! ## Iterators -/

/-- `SkipListItr`. -/
structure Itr where
  pos : Option Ptr
  stop : Option Ptr
  deriving DecidableEq

/-- `being`. -/
def being (sl : SkipList α β) : Option Itr := do
  let hl ← getLevel sl.heap sl.head 0
  let t ← sl.tail
  let tl ← getLevel sl.heap t 0
  some ⟨hl.forward, tl.forward⟩

/-- `end`. -/
def endItr (sl : SkipList α β) : Option Itr := do
  let t ← sl.tail
  let tl ← getLevel sl.heap t 0
  some ⟨tl.forward, tl.forward⟩

/-- The nodes an iteration `for (itr = it; itr != end(); ++itr)` visits. -/
def iterate (sl : SkipList α β) : Nat → Itr → Option (List (SkipListNode α β))
  | 0, _ => none
  | fuel + 1, it => do
      let e ← sl.endItr
      if it.pos = e.pos then some [] else do
        let p ← it.pos
        let nd ← sl.heap.get p
        let l ← nd.level[0]?
        let rest ← if it.pos = it.stop then none else iterate sl fuel ⟨l.forward, it.stop⟩
        some (nd :: rest)

end SkipList

end LibC
