/-
LibC.SkipList.CountTheorems — the length that `SkipList` keeps.

`Insert` counts `lenth_` up, and so does `DeleteNode`. A call keeps the counter
in step with the list when it inserts, up to what `Lenth` can answer in 32 bits,
or takes nothing out; a node that is taken out puts the two apart
(`ListOp.step_lenth`). A call on a `sort_set` is none, one or two calls on its
skip list (`SetOp.calls`), and keeps the counter in step exactly when each of
them does (`SetOp.step_lenth`).

No `sorry`, no `axiom`, no `native_decide`.
-/
import LibC.SkipList.IterTheorems
import LibC.SkipList.SortSetTheorems

namespace LibC

open LibC.Lib

variable {α β : Type} [LinearOrder α] [DecidableEq β]

/-- `Lenth` answers the number of nodes of the level-`0` chain. -/
def LenthExact (sl : SkipList α β) : Prop := sl.lenth32.toNat = sl.nodes.length

/-- The search of `Delete` ends right before a node with the score and the value. -/
def SkipList.Finds (score : α) (val : β) (sl : SkipList α β) : Prop :=
  ∃ x p f nd, SkipList.descend sl.heap (fun _ _ nd => SkipList.before score val nd)
      (fun _ _ => ()) sl.level sl.head () ⟨fun _ => none, fun _ => ()⟩ = some (x, (), p) ∧
    (getLevel sl.heap x 0).bind SkipListLevel.forward = some f ∧ sl.heap.get f = some nd ∧
    nd.score = score ∧ nd.val = val

/-- A call keeps `Lenth` right: an insertion as long as the new length fits in 32 bits, a
deletion when it takes no node out. -/
def ListOp.Counts (o : ListOp α β) (sl : SkipList α β) : Prop :=
  match o with
  | .insert _ _ _ => sl.nodes.length + 1 < 2 ^ 32
  | .delete score val => ¬ sl.Finds score val

/-! ## Calls on a skip list -/

/-- `Delete` answers `0` exactly when its search finds the node. -/
theorem delete_eq_zero_iff {score : α} {val : β} {sl sl' : SkipList α β} {ret : ℤ}
    (h : SkipList.delete score val sl = some (ret, sl')) : ret = 0 ↔ sl.Finds score val := by
  simp only [SkipList.delete, Option.bind_eq_bind, Option.bind_eq_some_iff] at h
  obtain ⟨⟨x, _, p⟩, hd, l, hl, h⟩ := h
  have hfinds : sl.Finds score val ↔ ∃ f nd, l.forward = some f ∧ sl.heap.get f = some nd ∧
      nd.score = score ∧ nd.val = val := by
    constructor
    · rintro ⟨x', p', f, nd, hd', hf, hfound⟩
      rw [hd] at hd'
      cases hd'
      rw [hl, Option.bind_some] at hf
      exact ⟨f, nd, hf, hfound⟩
    · rintro ⟨f, nd, hf, hfound⟩
      exact ⟨x, p, f, nd, hd, by rw [hl, Option.bind_some, hf], hfound⟩
  rw [hfinds]
  cases hf : l.forward with
  | none =>
      simp only [hf, Option.some.injEq, Prod.mk.injEq] at h
      rw [← h.1]
      constructor
      · intro h0
        cases h0
      · rintro ⟨_, _, hnone, _⟩
        cases hnone
  | some f =>
      simp only [hf, Option.bind_eq_some_iff] at h
      obtain ⟨nd, hnd, h⟩ := h
      split at h
      · next heq =>
          obtain ⟨_, _, h⟩ := Option.bind_eq_some_iff.mp h
          simp only [Option.some.injEq, Prod.mk.injEq] at h
          refine ⟨fun _ => ⟨f, nd, rfl, hnd, heq.1.symm, heq.2⟩, fun _ => h.1.symm⟩
      · next hne =>
          simp only [Option.some.injEq, Prod.mk.injEq] at h
          rw [← h.1]
          refine ⟨fun h0 => by (cases h0), ?_⟩
          rintro ⟨f', nd', hf', hnd', hs, hv⟩
          cases hf'
          rw [hnd] at hnd'
          cases hnd'
          exact absurd ⟨hs.symm, hv⟩ hne

section Repr

variable [Neg α] [One α] [Inhabited β] {sl : SkipList α β} {ps : List Ptr}
  {ts : List (Tower α β)}

omit [DecidableEq β] in
theorem Repr.length_nodes (r : Repr sl ps ts) : sl.nodes.length = ts.length := by
  have h := congrArg List.length r.pairs_eq
  simpa [SkipList.pairs] using h

/-- A call, and what it does to the counter and to the number of nodes. -/
theorem ListOp.step_count (o : ListOp α β) (r : Repr sl ps ts) :
    ∃ sl' ps' ts', o.step sl = some sl' ∧ Repr sl' ps' ts' ∧
      match o with
      | .insert _ _ _ => sl'.lenth = sl.lenth + 1 ∧ sl'.nodes.length = sl.nodes.length + 1
      | .delete score val =>
          (sl.Finds score val ∧ sl'.lenth = sl.lenth + 1 ∧
            sl'.nodes.length + 1 = sl.nodes.length) ∨ (¬ sl.Finds score val ∧ sl' = sl) := by
  cases o with
  | insert lvl score val =>
      obtain ⟨stops, sl', hins, d, hlenth, r'⟩ := insert_spec r lvl score val
      refine ⟨sl', _, _, by simp [ListOp.step, hins], r', hlenth, ?_⟩
      rw [r'.length_nodes, r.length_nodes,
        List.length_insertIdx_of_le_length (stop_le_length d 0)]
  | delete score val =>
      obtain ⟨stops, _, ⟨t, sl', ht, _, _, hdel, hlenth, r'⟩ | ⟨_, hdel⟩⟩ :=
        delete_spec r score val
      · have hlt := (List.getElem?_eq_some_iff.mp ht).1
        refine ⟨sl', _, _, by simp [ListOp.step, hdel], r', Or.inl ⟨?_, hlenth, ?_⟩⟩
        · exact (delete_eq_zero_iff hdel).mp rfl
        · rw [r'.length_nodes, r.length_nodes, List.length_eraseIdx_of_lt hlt]
          omega
      · refine ⟨sl, ps, ts, by simp [ListOp.step, hdel], r, Or.inr ⟨fun hf => ?_, rfl⟩⟩
        have h0 := (delete_eq_zero_iff hdel).mpr hf
        omega

omit [LinearOrder α] [DecidableEq β] [Neg α] [One α] [Inhabited β] in
/-- `Lenth` after one more call that counts. -/
theorem lenth32_succ {sl' : SkipList α β} (h : sl'.lenth = sl.lenth + 1) :
    sl'.lenth32.toNat = (sl.lenth32.toNat + 1) % 2 ^ 32 := by
  simp only [SkipList.lenth32, h, UInt64.toUInt32_add, UInt32.toNat_add]
  rfl

/-- A call on a list whose length is right leaves it right exactly when it counts. -/
theorem ListOp.step_lenth (o : ListOp α β) (r : Repr sl ps ts) {sl' : SkipList α β}
    (hstep : o.step sl = some sl') (h : LenthExact sl) : LenthExact sl' ↔ o.Counts sl := by
  obtain ⟨sl1, _, _, hstep1, _, hcount⟩ := o.step_count r
  obtain rfl := Option.some.inj (hstep.symm.trans hstep1)
  rw [LenthExact] at h ⊢
  cases o with
  | insert lvl score val =>
      obtain ⟨hlenth, hnodes⟩ := hcount
      rw [lenth32_succ hlenth, h, hnodes, ListOp.Counts]
      omega
  | delete score val =>
      rcases hcount with ⟨hf, hlenth, hnodes⟩ | ⟨hf, rfl⟩
      · have hlt := sl.lenth32.toNat_lt
        rw [lenth32_succ hlenth, ListOp.Counts]
        refine ⟨fun heq => ?_, fun hno => absurd hf hno⟩
        omega
      · exact ⟨fun _ => hf, fun _ => h⟩

end Repr

/-! ## Calls on a sorted set -/

/-- The calls that a call on a sorted set makes on the skip list. -/
def SetOp.calls (o : SetOp α β) (s : SortSet α β) : List (ListOp α β) :=
  match o with
  | .insert lvl key data =>
      match s.dict data with
      | none => [.insert lvl key data]
      | some _ => []
  | .update lvl score data =>
      match s.dict data with
      | none => [.insert lvl score data]
      | some old =>
          if old ≠ score then [.delete old data, .insert lvl score data] else []
  | .delMem data =>
      match s.dict data with
      | none => []
      | some old => [.delete old data]

/-- The calls on the skip list keep its length right. -/
def SetOp.Counts (o : SetOp α β) (s : SortSet α β) : Prop :=
  Along ListOp.step ListOp.Counts (o.calls s) s.sl

theorem SortSet.insert_sl {lvl : Lvl} {key : α} {data : β} {s s' : SortSet α β} {ret : Bool}
    (hd : s.dict data = none) (h : s.insert lvl key data = some (ret, s')) :
    ListOp.step (.insert lvl key data) s.sl = some s'.sl := by
  simp only [SortSet.insert, hd, Option.bind_eq_bind, Option.bind_eq_some_iff] at h
  obtain ⟨⟨_, sl⟩, hins, h⟩ := h
  cases h
  simp [ListOp.step, hins]

theorem SortSet.delMem_sl {data : β} {old : α} {s s' : SortSet α β} {ret : Bool}
    (hd : s.dict data = some old) (h : s.delMem data = some (ret, s')) :
    ListOp.step (.delete old data) s.sl = some s'.sl ∧ s'.dict data = none := by
  simp only [SortSet.delMem, hd, Option.bind_eq_bind, Option.bind_eq_some_iff] at h
  obtain ⟨⟨_, sl⟩, hdel, h⟩ := h
  cases h
  exact ⟨by simp [ListOp.step, hdel], by simp⟩

/-- What becomes of the skip list. -/
theorem SetOp.run_calls (o : SetOp α β) {s s' : SortSet α β} (h : o.step s = some s') :
    run ListOp.step (o.calls s) s.sl = some s'.sl := by
  cases o with
  | insert lvl key data =>
      obtain ⟨⟨ret, _⟩, hins, rfl⟩ := Option.map_eq_some_iff.mp h
      cases hd : s.dict data with
      | none =>
          simp only [SetOp.calls, hd]
          exact run_cons.mpr ⟨_, SortSet.insert_sl hd hins, rfl⟩
      | some old =>
          simp only [SortSet.insert, hd, Option.some.injEq, Prod.mk.injEq] at hins
          simp only [SetOp.calls, hd]
          rw [hins.2, run_nil]
  | delMem data =>
      obtain ⟨⟨ret, _⟩, hdel, rfl⟩ := Option.map_eq_some_iff.mp h
      cases hd : s.dict data with
      | none =>
          simp only [SortSet.delMem, hd, Option.some.injEq, Prod.mk.injEq] at hdel
          simp only [SetOp.calls, hd]
          rw [hdel.2, run_nil]
      | some old =>
          simp only [SetOp.calls, hd]
          exact run_cons.mpr ⟨_, (SortSet.delMem_sl hd hdel).1, rfl⟩
  | update lvl score data =>
      obtain ⟨⟨ret, _⟩, hup, rfl⟩ := Option.map_eq_some_iff.mp h
      cases hd : s.dict data with
      | none =>
          simp only [SortSet.update, hd] at hup
          simp only [SetOp.calls, hd]
          exact run_cons.mpr ⟨_, SortSet.insert_sl hd hup, rfl⟩
      | some old =>
          simp only [SortSet.update, hd] at hup
          by_cases hold : old ≠ score
          · rw [if_pos hold] at hup
            obtain ⟨⟨ret1, s1⟩, hdel, hins⟩ := Option.bind_eq_some_iff.mp hup
            obtain ⟨hstep, hd1⟩ := SortSet.delMem_sl hd hdel
            simp only [SetOp.calls, hd, if_pos hold]
            exact run_cons.mpr ⟨_, hstep, run_cons.mpr ⟨_, SortSet.insert_sl hd1 hins, rfl⟩⟩
          · rw [if_neg hold] at hup
            cases hup
            simp [SetOp.calls, hd, hold]

section Repr

variable [Neg α] [One α] [Inhabited β] {s : SortSet α β} {ps : List Ptr}
  {ts : List (Tower α β)}

/-- A deletion and an insertion: what is taken out is missing in the end as well. -/
theorem lenth_delete_insert {sl sl1 sl2 : SkipList α β} {old score : α} {data : β} {lvl : Lvl}
    (r : Repr sl ps ts) (h : LenthExact sl) (hdel : ListOp.step (.delete old data) sl = some sl1)
    (hins : ListOp.step (.insert lvl score data) sl1 = some sl2) :
    LenthExact sl2 ↔ ¬ sl.Finds old data ∧ sl1.nodes.length + 1 < 2 ^ 32 := by
  obtain ⟨_, _, _, hdel', r1, hcount⟩ := ListOp.step_count (.delete old data) r
  obtain rfl := Option.some.inj (hdel.symm.trans hdel')
  rcases hcount with ⟨hf, hlenth, hnodes⟩ | ⟨hf, rfl⟩
  · obtain ⟨_, _, _, hins', _, hlenth', hnodes'⟩ := ListOp.step_count (.insert lvl score data) r1
    obtain rfl := Option.some.inj (hins.symm.trans hins')
    have hlt := sl.lenth32.toNat_lt
    rw [LenthExact] at h ⊢
    rw [lenth32_succ hlenth', lenth32_succ hlenth]
    refine ⟨fun heq => ?_, fun hno => absurd hf hno.1⟩
    omega
  · have hiff := ListOp.step_lenth (.insert lvl score data) r1 hins h
    exact hiff.trans ⟨fun hlt => ⟨hf, hlt⟩, And.right⟩

/-- A call on a set whose length is right leaves it right exactly when the calls on the skip list
count. -/
theorem SetOp.step_lenth (o : SetOp α β) (h : SetRepr s ps ts) {s' : SortSet α β}
    (hstep : o.step s = some s') (hexact : LenthExact s.sl) : LenthExact s'.sl ↔ o.Counts s := by
  have hrun := o.run_calls hstep
  have hone : ∀ a, ListOp.step a s.sl = some s'.sl →
      (LenthExact s'.sl ↔ Along ListOp.step ListOp.Counts [a] s.sl) := fun a ha =>
    (ListOp.step_lenth a h.repr ha hexact).trans
      ⟨fun hc => ⟨hc, fun _ _ => trivial⟩, fun hc => hc.1⟩
  have hnone : some s.sl = some s'.sl → (LenthExact s'.sl ↔ True) := fun heq => by
    rw [← Option.some.inj heq]
    exact ⟨fun _ => trivial, fun _ => hexact⟩
  rw [SetOp.Counts]
  cases hcalls : o.calls s with
  | nil =>
      rw [hcalls] at hrun
      exact hnone hrun
  | cons a rest =>
      rw [hcalls] at hrun
      obtain ⟨sl1, ha, hrest⟩ := run_cons.mp hrun
      cases rest with
      | nil =>
          cases hrest
          exact hone a ha
      | cons b rest =>
          -- only `Update` makes two calls, a deletion and an insertion
          obtain ⟨old, data, lvl, score, rfl, rfl, rfl⟩ : ∃ old data lvl score,
              a = .delete old data ∧ b = .insert lvl score data ∧ rest = [] := by
            cases o with
            | insert lvl key data =>
                cases hd : s.dict data <;> simp [SetOp.calls, hd] at hcalls
            | delMem data =>
                cases hd : s.dict data <;> simp [SetOp.calls, hd] at hcalls
            | update lvl score data =>
                cases hd : s.dict data with
                | none => simp [SetOp.calls, hd] at hcalls
                | some old =>
                    by_cases hold : old ≠ score
                    · simp only [SetOp.calls, hd, if_pos hold, List.cons.injEq] at hcalls
                      obtain ⟨rfl, rfl, rfl⟩ := hcalls
                      exact ⟨old, data, lvl, score, rfl, rfl, rfl⟩
                    · simp [SetOp.calls, hd, hold] at hcalls
          obtain ⟨sl2, hb, hnil⟩ := run_cons.mp hrest
          cases hnil
          refine (lenth_delete_insert h.repr hexact ha hb).trans ?_
          constructor
          · rintro ⟨hf, hlt⟩
            refine ⟨hf, fun m hm => ⟨?_, fun _ _ => trivial⟩⟩
            obtain rfl := Option.some.inj (ha.symm.trans hm)
            exact hlt
          · rintro ⟨hf, hlast⟩
            exact ⟨hf, (hlast sl1 ha).1⟩

end Repr

end LibC
