/-
LibC.Lib.Disk — files behind names.

A name stands for a file by its number, and a process that has opened a file
writes to the number, whatever the names do meanwhile. That is what makes the
difference between replacing a file (`rename`) and writing into it (`pwrite`).

`Ok` says that two names never stand for the same file. Each operation is
specified by what can be read under the names afterwards.

No `sorry`, no `axiom`, no `native_decide`.
-/
import LibC.Lib.Bytes
import Mathlib.Logic.Function.Basic

namespace LibC.Lib

/-- The files, and what the names stand for; the files from `next` on are new. -/
structure Disk (ν : Type) where
  name : ν → Option ℕ
  content : ℕ → Bytes
  next : ℕ

namespace Disk

variable {ν : Type}

/-- What is found under a name. -/
def read (d : Disk ν) (n : ν) : Option Bytes := (d.name n).map d.content

/-- Two names do not stand for the same file, and no name for a new one. -/
structure Ok (d : Disk ν) : Prop where
  lt : ∀ n i, d.name n = some i → i < d.next
  inj : ∀ n n' i, d.name n = some i → d.name n' = some i → n = n'

/-- Bytes at an offset, over those that are there; a gap before them is filled with zeros. -/
def splice (c : Bytes) (off : ℕ) (bs : Bytes) : Bytes :=
  c.take off ++ List.replicate (off - c.length) 0 ++ bs ++ c.drop (off + bs.length)

theorem splice_length (c bs : Bytes) : splice c c.length bs = c ++ bs := by simp [splice]

/-- Write to a file. -/
def pwrite (i off : ℕ) (bs : Bytes) (d : Disk ν) : Disk ν :=
  { d with content := Function.update d.content i (splice (d.content i) off bs) }

variable [DecidableEq ν]

/-- Open a file for writing: an existing one is truncated. -/
def create (n : ν) (d : Disk ν) : ℕ × Disk ν :=
  match d.name n with
  | some i => (i, { d with content := Function.update d.content i [] })
  | none =>
      (d.next, ⟨Function.update d.name n (some d.next), Function.update d.content d.next [],
        d.next + 1⟩)

/-- Give the file `n` the name `n'`, which then stands for no other; `none` when there is
no file `n`. -/
def rename (n n' : ν) (d : Disk ν) : Option (Disk ν) :=
  (d.name n).map fun i =>
    { d with name := Function.update (Function.update d.name n none) n' (some i) }

/-- Remove a name. -/
def unlink (n : ν) (d : Disk ν) : Disk ν := { d with name := Function.update d.name n none }

variable {d d' : Disk ν} {n n' : ν} {i off : ℕ}

omit [DecidableEq ν] in
/-- What is read under a name does not depend on the other files. -/
theorem read_congr (hname : d'.name n = d.name n)
    (hcontent : ∀ i, d.name n = some i → d'.content i = d.content i) : d'.read n = d.read n := by
  rw [read, read, hname]
  cases hn : d.name n with
  | none => rfl
  | some i => rw [Option.map_some, Option.map_some, hcontent i hn]

/-- The names after one of them has changed. -/
theorem update_eq_some {f : ν → Option ℕ} {v : Option ℕ} :
    Function.update f n v n' = some i ↔ (n' = n ∧ v = some i) ∨ (n' ≠ n ∧ f n' = some i) := by
  by_cases h : n' = n
  · subst h
    simp
  · simp [h]

omit [DecidableEq ν] in
theorem Ok.ne {j : ℕ} (h : d.Ok) (hn : d.name n = some i) (hn' : d.name n' = some j)
    (hne : n' ≠ n) : j ≠ i := by
  rintro rfl
  exact hne (h.inj n' n j hn' hn)

/-! ## Writing -/

omit [DecidableEq ν] in
theorem ok_pwrite (h : d.Ok) (bs : Bytes) : (d.pwrite i off bs).Ok := ⟨h.lt, h.inj⟩

omit [DecidableEq ν] in
/-- Writing at the end. -/
theorem content_pwrite (bs : Bytes) (hoff : off = (d.content i).length) :
    (d.pwrite i off bs).content i = d.content i ++ bs := by
  simp only [pwrite, Function.update_self, hoff, splice_length]

omit [DecidableEq ν] in
theorem read_pwrite (h : d.Ok) (hn : d.name n = some i) (hne : n' ≠ n) (bs : Bytes) :
    (d.pwrite i off bs).read n' = d.read n' :=
  read_congr rfl fun _ hj => Function.update_of_ne (h.ne hn hj hne) _ _

/-! ## Opening -/

/-- The file that is opened is empty. -/
theorem create_spec (d : Disk ν) (n : ν) :
    (d.create n).2.name n = some (d.create n).1 ∧ (d.create n).2.content (d.create n).1 = [] := by
  rw [create]
  cases hn : d.name n with
  | some i => exact ⟨hn, Function.update_self ..⟩
  | none => exact ⟨Function.update_self .., Function.update_self ..⟩

theorem ok_create (h : d.Ok) (n : ν) : (d.create n).2.Ok := by
  rw [create]
  cases hn : d.name n with
  | some i => exact ⟨h.lt, h.inj⟩
  | none =>
      refine ⟨fun m j hm => ?_, fun m m' j hm hm' => ?_⟩
      · rcases update_eq_some.mp hm with ⟨_, hj⟩ | ⟨_, hm⟩
        · exact Option.some.inj hj ▸ Nat.lt_succ_self _
        · exact Nat.lt_succ_of_lt (h.lt m j hm)
      · rcases update_eq_some.mp hm with ⟨hmn, hj⟩ | ⟨_, hold⟩ <;>
          rcases update_eq_some.mp hm' with ⟨hmn', hj'⟩ | ⟨_, hold'⟩
        · exact hmn.trans hmn'.symm
        · exact absurd (h.lt m' j hold') (Option.some.inj hj ▸ Nat.lt_irrefl _)
        · exact absurd (h.lt m j hold) (Option.some.inj hj' ▸ Nat.lt_irrefl _)
        · exact h.inj m m' j hold hold'

theorem read_create (h : d.Ok) (hne : n' ≠ n) : (d.create n).2.read n' = d.read n' := by
  rw [create]
  cases hn : d.name n with
  | some i =>
      exact read_congr rfl fun _ hj => Function.update_of_ne (h.ne hn hj hne) _ _
  | none =>
      exact read_congr (Function.update_of_ne hne _ _) fun j hj =>
        Function.update_of_ne (Nat.ne_of_lt (h.lt n' j hj)) _ _

/-! ## Names -/

theorem ok_unlink (h : d.Ok) (n : ν) : (d.unlink n).Ok := by
  have hold : ∀ {m j}, (d.unlink n).name m = some j → d.name m = some j := by
    intro m j hm
    rcases update_eq_some.mp hm with ⟨_, hj⟩ | ⟨_, hm⟩
    · cases hj
    · exact hm
  exact ⟨fun m j hm => h.lt m j (hold hm), fun m m' j hm hm' => h.inj m m' j (hold hm) (hold hm')⟩

theorem read_unlink (hne : n' ≠ n) : (d.unlink n).read n' = d.read n' :=
  read_congr (Function.update_of_ne hne _ _) fun _ _ => rfl

theorem read_unlink_self : (d.unlink n).read n = none := by simp [read, unlink]

/-- After a `rename` the file is found under the new name only. -/
theorem rename_spec (h : d.Ok) (hn : d.name n = some i) (hne : n ≠ n') :
    ∃ d', d.rename n n' = some d' ∧ d'.Ok ∧ d'.read n' = some (d.content i) ∧ d'.read n = none := by
  refine ⟨_, by rw [rename, hn, Option.map_some],
    ⟨fun m j hm => ?_, fun m m' j hm hm' => ?_⟩, ?_, ?_⟩
  · rcases update_eq_some.mp hm with ⟨_, hj⟩ | ⟨_, hm⟩
    · exact Option.some.inj hj ▸ h.lt n i hn
    · exact (ok_unlink h n).lt m j hm
  · -- the file has lost its old name
    have hgone : ∀ {m}, Function.update d.name n none m ≠ some i := by
      intro m hm
      rcases update_eq_some.mp hm with ⟨_, hj⟩ | ⟨hmn, hm⟩
      · cases hj
      · exact hmn (h.inj m n i hm hn)
    rcases update_eq_some.mp hm with ⟨hmn, hj⟩ | ⟨_, hold⟩ <;>
      rcases update_eq_some.mp hm' with ⟨hmn', hj'⟩ | ⟨_, hold'⟩
    · exact hmn.trans hmn'.symm
    · exact absurd hold' (Option.some.inj hj ▸ hgone)
    · exact absurd hold (Option.some.inj hj' ▸ hgone)
    · exact (ok_unlink h n).inj m m' j hold hold'
  · simp [read]
  · simp [read, Function.update_of_ne hne]

end Disk

end LibC.Lib
