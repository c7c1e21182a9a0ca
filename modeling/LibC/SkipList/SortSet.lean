/-
LibC.SkipList.SortSet — `sort_set` of `bis/src/server/sort_set.cpp`.

A sorted set keeps its members twice: in `sl`, ordered by score, and in `dict`,
from member to score. The code ignores what `SkipList::Insert` and
`SkipList::Delete` return, and so does the model: an insertion that did not
insert or a deletion that did not delete goes unnoticed.

`Agrees` says that the two halves hold the same members with the same scores,
and `SetOp.Safe` is the condition under which a call keeps them so (see
`LibC.SkipList.SortSetTheorems`).

No `sorry`, no `axiom`, no `native_decide`.
-/
import LibC.SkipList.ListTheorems

namespace LibC

open LibC.Lib

variable {α β : Type} [LinearOrder α] [DecidableEq β]

/-- `sort_set`. `dict` is an unordered map, of which only the lookups matter. -/
structure SortSet (α β : Type) where
  sl : SkipList α β
  dict : β → Option α

namespace SortSet

/-- A `sort_set` nothing has been inserted in. -/
def new [Neg α] [One α] [Inhabited β] : SortSet α β := ⟨SkipList.new, fun _ => none⟩

/-- `Insert`: `false` when the member is there already. -/
def insert (lvl : Lvl) (key : α) (data : β) (s : SortSet α β) : Option (Bool × SortSet α β) :=
  match s.dict data with
  | some _ => some (false, s)
  | none => do
      let (_, sl) ← SkipList.insert lvl key data s.sl
      some (true, ⟨sl, Function.update s.dict data (some key)⟩)

/-- `DelMem`: `false` when the member is not there. -/
def delMem (data : β) (s : SortSet α β) : Option (Bool × SortSet α β) :=
  match s.dict data with
  | none => some (false, s)
  | some score => do
      let (_, sl) ← SkipList.delete score data s.sl
      some (true, ⟨sl, Function.update s.dict data none⟩)

/-- `Update`: insert the member, or move it to another score. -/
def update (lvl : Lvl) (score : α) (data : β) (s : SortSet α β) : Option (Bool × SortSet α β) :=
  match s.dict data with
  | none => insert lvl score data s
  | some old =>
      if old ≠ score then do
        let (_, s) ← delMem data s
        insert lvl score data s
      else some (true, s)

/-- `size`. -/
def size (s : SortSet α β) : UInt32 := s.sl.lenth32

end SortSet

/-! ## Runs -/

/-- A call that changes a sorted set; an insertion comes with the height drawn for the
new node. -/
inductive SetOp (α β : Type) where
  | insert (lvl : Lvl) (key : α) (data : β)
  | update (lvl : Lvl) (score : α) (data : β)
  | delMem (data : β)

/-- The state after a call. -/
def SetOp.step : SetOp α β → SortSet α β → Option (SortSet α β)
  | .insert lvl key data, s => (s.insert lvl key data).map Prod.snd
  | .update lvl score data, s => (s.update lvl score data).map Prod.snd
  | .delMem data, s => (s.delMem data).map Prod.snd

/-! ## Agreement -/

/-- The towers of some nodes, in order. -/
def towers (sl : SkipList α β) (ps : List Ptr) : List (Tower α β) := ps.filterMap (nodeData sl.heap)

/-- The level-`0` chain has one node for each entry of `dict`, with its member and its
score, and no other node. -/
def Agrees (s : SortSet α β) : Prop :=
  ∃ ps, LevelChain s.sl 0 ps ∧ ((towers s.sl ps).map Tower.val).Nodup ∧
    ∀ data key, s.dict data = some key ↔ ∃ t ∈ towers s.sl ps, t.val = data ∧ t.score = key

/-- Among the nodes with score `key`, none that stands after the node of `data` is
taller than it. -/
def NoTallerTie (key : α) (data : β) (ts : List (Tower α β)) : Prop :=
  ∀ (i j : ℕ) (a b : Tower α β), i < j → ts[i]? = some a → ts[j]? = some b →
    a.score = key → a.val = data → b.score = key → b.height ≤ a.height

/-- A call that takes a member out of its place, which `DelMem` does and `Update` does
when the score changes, finds no taller node tied with it further on. -/
def SetOp.Safe (o : SetOp α β) (s : SortSet α β) : Prop :=
  ∀ ps, LevelChain s.sl 0 ps →
    match o with
    | .insert _ _ _ => True
    | .update _ score data => ∀ old, s.dict data = some old → old ≠ score →
        NoTallerTie old data (towers s.sl ps)
    | .delMem data => ∀ old, s.dict data = some old → NoTallerTie old data (towers s.sl ps)

end LibC
