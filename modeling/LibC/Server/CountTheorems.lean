/-
LibC.Server.CountTheorems — the length of a table, counted and stored.

`size()` is what `Lenth` answers, and it is what `SaveToFile` writes into the
TABLE record in front of the members. `run_counted_iff` follows the number from
the counter in the skip list to the file: in a run it is right in every state
exactly when no call of the run takes a node out of a list, and no list grows
beyond what 32 bits can count.

No `sorry`, no `axiom`, no `native_decide`.
-/
import LibC.SkipList.CountTheorems
import LibC.SkipList.Query
import LibC.Server.SaveTheorems

namespace LibC

open LibC.Lib

variable {α β : Type} [LinearOrder α] [Neg α] [One α]

/-- The length in the TABLE record is the number of members in the KEY records behind it. -/
def LengthStored (key : Bytes) (s : SortSet α Bytes) : Prop :=
  (tableMsg key s).length.toNat = ((groupsOf [] s.members).map List.length).sum

/-- The length of a table: the number of its nodes, of the nodes that an iteration visits, and of
the members that are stored behind it when nothing goes wrong. -/
structure SizeExact (s : SortSet α Bytes) : Prop where
  nodes : s.size.toNat = s.sl.nodes.length
  visited : s.sl.nodes ≠ [] → ∃ it visited, s.begin = some it ∧
    s.sl.iterate (s.sl.heap.size + 1) it = some visited ∧ s.size.toNat = visited.length
  stored : ∀ key, LengthStored key s ∧ (s.sl.nodes ≠ [] → ∀ c env sv, TableWritten c env (key, s) →
    ∃ sv', saveTable c env key s sv = some sv' ∧
      sv'.content = sv.content ++ fileOf (tableRecords c (key, s)))

omit [LinearOrder α] [Neg α] [One α] in
/-- The lengths of the groups add up. -/
theorem sum_length_groupsOf (s : SortSet α Bytes) :
    ((groupsOf [] s.members).map List.length).sum = s.sl.nodes.length := by
  rw [← List.length_flatten, groupsOf_flatten, List.nil_append, SortSet.members, SkipList.pairs,
    List.length_map]

/-- It is enough that the counter is right. -/
theorem sizeExact_iff {s : SortSet α Bytes} {ps : List Ptr} {ts : List (Tower α Bytes)}
    (h : SetRepr s ps ts) : SizeExact s ↔ LenthExact s.sl := by
  refine ⟨SizeExact.nodes, fun hexact => ?_⟩
  have hne : s.sl.nodes ≠ [] → ts ≠ [] := by
    rintro hnodes rfl
    exact hnodes (List.eq_nil_of_length_eq_zero h.repr.length_nodes)
  refine ⟨hexact, fun hnodes => ?_, fun key => ⟨?_, fun hnodes c env sv hw => ?_⟩⟩
  · obtain ⟨it, hbegin, hiter⟩ := h.repr.iterate_spec (hne hnodes)
    exact ⟨it, _, hbegin, hiter, hexact⟩
  · rw [LengthStored, sum_length_groupsOf]
    exact (UInt32.toNat_toUInt64 _).trans hexact
  · rcases saveTable_spec c env (e := (key, s)) ⟨ps, ts, h⟩ sv with
      ⟨⟨hnone, _⟩, _⟩ | ⟨_, sv', hsave, part, _, hc, _, hp, _⟩
    · refine absurd (List.map_eq_nil_iff.mp hnone) hnodes
    · exact ⟨sv', hsave, by rw [hc, hp.all hw]⟩

/-- **Lengths.** In every run of `Insert` and `Delete` `Lenth` answers the length of the list, and
in every run of calls on a sorted set its size is the number of its nodes, visited or stored,
exactly when each call counts. -/
theorem run_counted_iff [DecidableEq β] [Inhabited β] (lops : List (ListOp α β))
    (sops : List (SetOp α Bytes)) :
    ((∀ past rest, lops = past ++ rest → ∃ sl, run ListOp.step past SkipList.new = some sl ∧
        ∃ ps, LevelChain sl 0 ps ∧ sl.lenth32.toNat = ps.length) ↔
      Along ListOp.step ListOp.Counts lops SkipList.new) ∧
    ((∀ past rest, sops = past ++ rest → ∃ s, run SetOp.step past SortSet.new = some s ∧
        SizeExact s) ↔
      Along SetOp.step SetOp.Counts sops SortSet.new) := by
  constructor
  · have hchain : ∀ {sl : SkipList α β}, (∃ ps ts, Repr sl ps ts) →
        ((∃ ps, LevelChain sl 0 ps ∧ sl.lenth32.toNat = ps.length) ↔ LenthExact sl) := by
      rintro sl ⟨ps, ts, r⟩
      rw [LenthExact, r.length_nodes, ← r.len]
      constructor
      · rintro ⟨qs, hqs, hlen⟩
        rw [hlen, hqs.unique r.levelChain_zero]
      · exact fun h => ⟨ps, r.levelChain_zero, h⟩
    refine run_always_iff (fun sl => ∃ ps ts, Repr sl ps ts) (fun _ sl => ∃ ps, LevelChain sl 0 ps ∧
      sl.lenth32.toNat = ps.length) ?_ ?_ lops [] _
      ⟨[], [], repr_new⟩ ((hchain ⟨[], [], repr_new⟩).mpr rfl)
    · rintro o sl ⟨ps, ts, r⟩
      obtain ⟨sl', hstep, hr⟩ := o.step_repr r
      exact ⟨sl', hstep, fun _ => hr⟩
    · rintro _ o sl sl' ⟨ps, ts, r⟩ hgood hstep
      obtain ⟨sl1, hstep1, hr⟩ := o.step_repr r
      obtain rfl := Option.some.inj (hstep.symm.trans hstep1)
      rw [hchain hr]
      exact o.step_lenth r hstep ((hchain ⟨ps, ts, r⟩).mp hgood)
  · have hnew : SizeExact (SortSet.new : SortSet α Bytes) := (sizeExact_iff setRepr_new).mpr rfl
    refine run_always_iff (fun s : SortSet α Bytes => ∃ ps ts, SetRepr s ps ts)
      (fun _ s => SizeExact s) ?_ ?_ sops [] _ ⟨[], [], setRepr_new⟩ hnew
    · rintro o s ⟨_, _, h⟩
      obtain ⟨s', ps', ts', hstep, h', _⟩ := o.step_spec h
      exact ⟨s', hstep, fun _ => ⟨ps', ts', h'⟩⟩
    · rintro _ o s s' ⟨ps, ts, h⟩ hgood hstep
      obtain ⟨s1, ps1, ts1, hstep1, h1, _⟩ := o.step_spec h
      obtain rfl := Option.some.inj (hstep.symm.trans hstep1)
      rw [sizeExact_iff h1]
      exact o.step_lenth h hstep ((sizeExact_iff h).mp hgood)

/-- Two insertions and a deletion: the length answered, and stored, is three, and one member is
left. -/
theorem lenth_counts_up :
    (∃ sl, run ListOp.step [.insert ⟨1, by decide⟩ 5 [65], .insert ⟨1, by decide⟩ 7 [66],
        .delete 5 [65]] (SkipList.new : SkipList ℤ (List UInt8)) = some sl ∧
      ¬ ∃ ps, LevelChain sl 0 ps ∧ sl.lenth32.toNat = ps.length) ∧
    ∃ s, run SetOp.step [.insert ⟨1, by decide⟩ 5 [65], .insert ⟨1, by decide⟩ 7 [66],
        .delMem [65]] (SortSet.new : SortSet ℤ Bytes) = some s ∧
      ¬ SizeExact s ∧ s.members = [(7, [66])] ∧ (tableMsg [75] s).length = 3 := by
  have hlist : ((run ListOp.step [.insert ⟨1, by decide⟩ 5 [65], .insert ⟨1, by decide⟩ 7 [66],
      .delete 5 [65]] (SkipList.new : SkipList ℤ (List UInt8))).map fun sl =>
        (decide (LevelChain sl 0 [2]), decide (sl.lenth32 = 3))) = some (true, true) := by
    decide +kernel
  have hset : ((run SetOp.step [.insert ⟨1, by decide⟩ 5 [65], .insert ⟨1, by decide⟩ 7 [66],
      .delMem [65]] (SortSet.new : SortSet ℤ Bytes)).map fun s =>
        (decide (s.size.toNat ≠ s.sl.nodes.length), decide (s.members = [(7, [66])]),
          decide ((tableMsg [75] s).length = 3))) = some (true, true, true) := by
    decide +kernel
  constructor
  · obtain ⟨sl, hsl, hfacts⟩ := Option.map_eq_some_iff.mp hlist
    simp only [Prod.mk.injEq, decide_eq_true_eq] at hfacts
    obtain ⟨hchain, hlenth⟩ := hfacts
    refine ⟨sl, hsl, ?_⟩
    rintro ⟨ps, hps, hlen⟩
    rw [hps.unique hchain, hlenth] at hlen
    exact absurd hlen (by decide)
  · obtain ⟨s, hs, hfacts⟩ := Option.map_eq_some_iff.mp hset
    simp only [Prod.mk.injEq, decide_eq_true_eq] at hfacts
    exact ⟨s, hs, fun h => hfacts.1 h.nodes, hfacts.2⟩

end LibC
