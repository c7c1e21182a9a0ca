/-
LibC.Lib.Heap — a heap of cells addressed by allocation identity.

A pointer is the index of the cell it was allocated as, and an identity is
never handed out twice: `alloc` appends, `free` empties the cell in place. A
freed address therefore stays dead for ever, so a model over this heap cannot
hide a use after free behind a recycled address. `get` answers `none` both for
a freed cell and for an address that was never allocated, and the operations
that write through a pointer (`modify?`) answer `none` there too: a program
over this heap that returns `some` has dereferenced live cells only.

`size` bounds every live address, which is the fuel a pointer-chasing loop
needs: a loop that takes more steps than there are cells has met a cell twice.

No `sorry`, no `axiom`, no `native_decide`.
-/
import Mathlib.Data.List.Basic
import Mathlib.Data.List.Perm.Subperm

namespace LibC.Lib

/-- An allocation identity. The null pointer is `none : Option Ptr`. -/
abbrev Ptr := Nat

/-- A heap of cells of type `N`; a freed cell is `none`. -/
structure Heap (N : Type) where
  cells : List (Option N)

namespace Heap

variable {N : Type}

/-- The heap nothing has been allocated in. -/
def empty : Heap N := ⟨[]⟩

/-- The number of addresses handed out so far. -/
def size (h : Heap N) : Nat := h.cells.length

/-- Dereference. -/
def get (h : Heap N) (p : Ptr) : Option N := (h.cells[p]?).join

/-- Allocate a cell: its address, and the heap with it. -/
def alloc (h : Heap N) (c : N) : Ptr × Heap N := (h.cells.length, ⟨h.cells ++ [some c]⟩)

/-- Overwrite a cell. -/
def set (h : Heap N) (p : Ptr) (c : N) : Heap N := ⟨h.cells.set p (some c)⟩

/-- Release a cell. -/
def free (h : Heap N) (p : Ptr) : Heap N := ⟨h.cells.set p none⟩

/-- Write through a pointer; `none` when it does not point to a live cell. -/
def modify? (h : Heap N) (p : Ptr) (f : N → N) : Option (Heap N) :=
  (h.get p).map fun c => h.set p (f c)

/-- A live address is below `size`. -/
theorem lt_size {h : Heap N} {p : Ptr} {c : N} (hg : h.get p = some c) : p < h.size := by
  by_contra hlt
  have hnone : h.cells[p]? = none := List.getElem?_eq_none (Nat.le_of_not_gt hlt)
  simp [get, hnone] at hg

/-- There are at most `size` live addresses. -/
theorem length_le_size {h : Heap N} {ps : List Ptr} (hnodup : ps.Nodup)
    (hlive : ∀ p ∈ ps, ∃ c, h.get p = some c) : ps.length ≤ h.size := by
  have hsub : ps ⊆ List.range h.size := by
    intro p hp
    obtain ⟨c, hc⟩ := hlive p hp
    exact List.mem_range.mpr (lt_size hc)
  have hle := (List.subperm_of_subset hnodup hsub).length_le
  rwa [List.length_range] at hle

/-- The address `alloc` hands out is not live before. -/
theorem get_size (h : Heap N) : h.get h.size = none := by
  simp [get, size]

@[simp] theorem alloc_fst (h : Heap N) (c : N) : (h.alloc c).1 = h.size := rfl

@[simp] theorem size_alloc (h : Heap N) (c : N) : (h.alloc c).2.size = h.size + 1 := by
  simp [alloc, size]

@[simp] theorem size_set (h : Heap N) (p : Ptr) (c : N) : (h.set p c).size = h.size := by
  simp [set, size]

/-- The fresh address holds the allocated cell, every other one is unchanged. -/
theorem get_alloc (h : Heap N) (c : N) (q : Ptr) :
    (h.alloc c).2.get q = if q = h.size then some c else h.get q := by
  by_cases hq : q = h.size
  · subst hq; simp [alloc, get, size]
  · rw [if_neg hq]
    rcases Nat.lt_or_gt_of_ne hq with hlt | hgt
    · simp only [alloc, get]
      rw [List.getElem?_append_left hlt]
    · obtain ⟨d, rfl⟩ := Nat.exists_eq_add_of_lt (show h.cells.length < q from hgt)
      simp [alloc, get, Nat.add_assoc]

/-- A write is seen at the written address and nowhere else. -/
theorem get_set {h : Heap N} {p : Ptr} (hp : p < h.size) (c : N) (q : Ptr) :
    (h.set p c).get q = if q = p then some c else h.get q := by
  simp only [size] at hp
  by_cases hq : q = p
  · subst hq; simp [set, get, hp]
  · rw [if_neg hq]
    simp only [set, get, List.getElem?_set_ne (Ne.symm hq)]

/-- A released address is dead, every other one is unchanged. -/
theorem get_free (h : Heap N) (p q : Ptr) :
    (h.free p).get q = if q = p then none else h.get q := by
  by_cases hq : q = p
  · subst hq
    by_cases hp : q < h.cells.length
    · simp [free, get, hp]
    · simp only [free, get]
      rw [List.getElem?_eq_none (by simpa using hp)]
      rfl
  · rw [if_neg hq]
    simp only [free, get, List.getElem?_set_ne (Ne.symm hq)]

/-- Writing through a live pointer succeeds. -/
theorem modify?_eq {h : Heap N} {p : Ptr} {c : N} (hg : h.get p = some c) (f : N → N) :
    h.modify? p f = some (h.set p (f c)) := by
  simp [modify?, hg]

end Heap

end LibC.Lib
