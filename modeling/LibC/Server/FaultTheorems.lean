/-
LibC.Server.FaultTheorems — null pointers in the tables of the database.

`run_completes_iff` says of every sorted set and of every database that a run
can reach which calls complete. A table can be empty because nothing was ever
put into it (a TABLE record without KEY records makes one), or because its last
member was deleted; saving such a table reads its null `tail_`.

No `sorry`, no `axiom`, no `native_decide`.
-/
import LibC.Server.SaveTheorems
import LibC.SkipList.FaultTheorems

namespace LibC

open LibC.Lib

variable {α : Type} [LinearOrder α] [Neg α] [One α]

/-- A table has no members exactly when its level-`0` chain is empty. -/
theorem TableOk.members_eq_nil_iff {s : SortSet α Bytes} (h : TableOk s) :
    s.members = [] ↔ LevelChain s.sl 0 [] := by
  obtain ⟨ps, ts, h⟩ := h
  rw [SortSet.members, h.repr.pairs_eq, List.map_eq_nil_iff]
  constructor
  · rintro rfl
    have hps : ps = [] := List.eq_nil_of_length_eq_zero h.repr.len
    have hchain := h.repr.levelChain_zero
    rwa [hps] at hchain
  · intro hchain
    have hps := hchain.unique h.repr.levelChain_zero
    exact List.eq_nil_of_length_eq_zero (by rw [← h.repr.len, ← hps]; rfl)

/-- Every call on a table completes unless it reads the tail of an empty list. -/
theorem TableOk.completes_iff {s : SortSet α Bytes} (h : TableOk s) (call : SetCall α Bytes) :
    call.completes s = true ↔ ¬ (call.readsTail = true ∧ LevelChain s.sl 0 []) := by
  rw [← h.members_eq_nil_iff]
  obtain ⟨ps, ts, h⟩ := h
  rw [h.completes_iff, SortSet.members, h.repr.pairs_eq, List.map_eq_nil_iff,
    ← List.length_eq_zero_iff, h.repr.len, List.length_eq_zero_iff]

/-- The save gets as far as the members of a table that has none. -/
def SavesEmpty (c : Codecs α) (env : SaveEnv) (now : Bytes) (d : Db α) : Prop :=
  env.openOk = true ∧ HeaderSaved c env now ∧ ∃ e ∈ d.dbDict.entries, LevelChain e.2.sl 0 [] ∧
    Saved env (.table e.1) (c.table.serializeAsString (tableMsg e.1 e.2))

/-- **Null pointers.** In every sorted set that a run of `Insert`, `Update` and `DelMem`
reaches, and in every table of every database that requests and loads reach, the calls
that complete are those that do not read the tail of an empty list; and a save of the
database completes unless it gets as far as the members of a table that has none. -/
theorem run_completes_iff (c : Codecs α) :
    (∀ ops : List (SetOp α Bytes), ∃ s, run SetOp.step ops SortSet.new = some s ∧
      ∀ call : SetCall α Bytes,
        call.completes s = true ↔ ¬ (call.readsTail = true ∧ LevelChain s.sl 0 [])) ∧
    ∀ ops : List (DbOp α), ∃ d, run (DbOp.step c) ops Db.new = some d ∧
      (∀ key s, d.dbDict.find key = some s → ∀ call : SetCall α Bytes,
        call.completes s = true ↔ ¬ (call.readsTail = true ∧ LevelChain s.sl 0 [])) ∧
      ∀ (env : SaveEnv) (now : Bytes)
        (order : { l : List (Bytes × SortSet α Bytes) // l.Perm d.dbDict.entries })
        (files : Files),
        (saveToFile c env now d order files).isSome = true ↔ ¬ SavesEmpty c env now d := by
  refine ⟨fun ops => ?_, fun ops => ?_⟩
  · obtain ⟨s, ps, ts, hrun, h, _⟩ := run_setRepr ops
    exact ⟨s, hrun, TableOk.completes_iff ⟨ps, ts, h⟩⟩
  · obtain ⟨d, hrun, h⟩ := run_ok c ops
    have hfault : ∀ (env : SaveEnv) (e : Bytes × SortSet α Bytes), e ∈ d.dbDict.entries →
        (Faults c env e ↔ LevelChain e.2.sl 0 [] ∧
          Saved env (.table e.1) (c.table.serializeAsString (tableMsg e.1 e.2))) := by
      intro env e he
      have hok : TableOk e.2 := h e.1 e.2 (Dict.find_eq_some.mpr he)
      rw [Faults, hok.members_eq_nil_iff]
    refine ⟨d, hrun, fun key s hs => (h key s hs).completes_iff, fun env now order files => ?_⟩
    rcases saveToFile_spec c env now h order files with
      ⟨hno, errs, files', hsave, _⟩ | ⟨hopen, hhead, ⟨e, he, hf⟩, hsave⟩ |
        ⟨_, _, hf, ret, content, errs, files', hsave, _⟩
    · -- it ended early
      rw [hsave]
      exact ⟨fun _ hempty => hno ⟨hempty.1, hempty.2.1⟩, fun _ => rfl⟩
    · -- it met an empty table
      rw [hsave]
      refine ⟨fun hsome => absurd hsome Bool.false_ne_true,
        fun hno => absurd ⟨hopen, hhead, e, he, ?_⟩ hno⟩
      exact (hfault env e he).mp hf
    · rw [hsave]
      refine ⟨fun _ hempty => ?_, fun _ => rfl⟩
      obtain ⟨_, _, e, he, hf'⟩ := hempty
      exact hf e he ((hfault env e he).mpr hf')

/-- A set nothing was inserted in, and one whose only member was deleted: `begin()` and
the range queries dereference a null pointer. -/
theorem empty_faults :
    (∃ s, run SetOp.step [] (SortSet.new : SortSet ℤ Bytes) = some s ∧
      s.begin = none ∧ s.endItr = none ∧ s.getMemsByScore 0 1 = none ∧ s.getMemByRank 1 = none) ∧
    ∃ s, run SetOp.step [.insert ⟨1, by decide⟩ 1 [65], .delMem [65]]
        (SortSet.new : SortSet ℤ Bytes) = some s ∧
      s.begin = none ∧ s.endItr = none ∧ s.getMemsByScore 0 1 = none ∧ s.getMemByRank 1 = none := by
  have hempty : ((run SetOp.step [] (SortSet.new : SortSet ℤ Bytes)).map fun s =>
      decide (s.begin = none ∧ s.endItr = none ∧ s.getMemsByScore 0 1 = none ∧
        s.getMemByRank 1 = none)) = some true := by decide +kernel
  have hdel : ((run SetOp.step [.insert ⟨1, by decide⟩ 1 [65], .delMem [65]]
      (SortSet.new : SortSet ℤ Bytes)).map fun s =>
      decide (s.begin = none ∧ s.endItr = none ∧ s.getMemsByScore 0 1 = none ∧
        s.getMemByRank 1 = none)) = some true := by decide +kernel
  obtain ⟨s, hs, hfacts⟩ := Option.map_eq_some_iff.mp hempty
  obtain ⟨s', hs', hfacts'⟩ := Option.map_eq_some_iff.mp hdel
  exact ⟨⟨s, hs, of_decide_eq_true hfacts⟩, s', hs', of_decide_eq_true hfacts'⟩

end LibC
