/-
LibC.SkipList.StandaloneTheorems — the two copies of `SkipList`.

`Insert` of the standalone copy does not come back, so no run of it gets an element
into the list, and where the server's copy has one, no query answers the same in
both (`run_copies`).

The queries also differ, on one list: when the bounds are the wrong way round the
two score queries of the standalone copy search for the smaller bound alone
(`firstInRangeByScore_eq`, `lastInRangeByScore_eq`), and what they miss are the
elements above that bound and up to the larger one (`Repr.answer_eq_iff`).

No `sorry`, no `axiom`, no `native_decide`.
-/
import LibC.SkipList.FaultTheorems
import LibC.SkipList.Standalone

namespace LibC

open LibC.Lib LibC.Lib.Tower

variable {α β : Type} [LinearOrder α]

/-! ## The swap -/

namespace SkipList.Standalone

/-- Bounds the wrong way round shrink to the smaller one. -/
theorem swap_eq (a b : α) :
    (if b < a then
      let a := b
      let b := a
      (a, b)
    else (a, b)) = if b < min a b then (b, min a b) else (min a b, b) := by
  rw [if_neg (not_lt.mpr (min_le_right a b))]
  by_cases h : b < a
  · rw [if_pos h, min_eq_right h.le]
  · rw [if_neg h, min_eq_left (not_lt.mp h)]

theorem firstInRangeByScore_eq (a b : α) (sl : SkipList α β) :
    firstInRangeByScore a b sl = sl.firstInRangeByScore (min a b) b := by
  rw [firstInRangeByScore, swap_eq, SkipList.firstInRangeByScore]

theorem lastInRangeByScore_eq (a b : α) (sl : SkipList α β) :
    lastInRangeByScore a b sl = sl.lastInRangeByScore (min a b) b := by
  rw [lastInRangeByScore, swap_eq, SkipList.lastInRangeByScore]

end SkipList.Standalone

/-! ## Answers to the score queries -/

section Repr

variable [Neg α] [One α] [Inhabited β]
variable {sl : SkipList α β} {ps : List Ptr} {ts : List (Tower α β)} {a b : α} {A B B' : ℕ}

omit [LinearOrder α] [Neg α] [One α] [Inhabited β] in
/-- What holds of fewer scores holds of a shorter prefix. -/
theorem split_le (P Q : α → Prop) {m n : ℕ} (hm : m ≤ ts.length)
    (hP : ∀ k t, ts[k]? = some t → (P t.score ↔ k < m))
    (hQ : ∀ k t, ts[k]? = some t → (Q t.score ↔ k < n)) (h : ∀ x, P x → Q x) : m ≤ n := by
  by_contra hgt
  have hn : n < ts.length := by omega
  have hk : ts[n]? = some ts[n] := List.getElem?_eq_getElem hn
  have := (hQ n _ hk).mp (h _ ((hP n _ hk).mpr (by omega)))
  omega

omit [Neg α] [One α] [Inhabited β] in
/-- The cut at the smaller bound alone. -/
theorem Cut.shrink (hba : b < a) (c : Cut ts a b A B) {A' : ℕ} (c' : Cut ts b b A' B') :
    A' = A ∧ A ≤ B' ∧ B' ≤ B := by
  have hmin : min a b = min b b := by rw [min_eq_right hba.le, min_self]
  refine ⟨le_antisymm ?_ ?_, ?_, ?_⟩
  · exact split_le (· < min b b) (· < min a b) c'.le.1 c'.below c.below fun x hx => by rwa [hmin]
  · exact split_le (· < min a b) (· < min b b) c.le.1 c.below c'.below fun x hx => by rwa [← hmin]
  · refine split_le (· < min a b) (· ≤ max b b) c.le.1 c.below c'.upTo fun x hx => ?_
    exact hx.le.trans (hmin.trans_le min_le_max)
  · refine split_le (· ≤ max b b) (· ≤ max a b) c'.le.2 c'.upTo c.upTo fun x hx => ?_
    exact hx.trans ((max_self b).trans_le (le_max_right a b))

/-- Between two prefixes there is an element. -/
theorem Repr.exists_between_iff (r : Repr sl ps ts) (P Q : α → Prop) {m n : ℕ} (hn : n ≤ ts.length)
    (hP : ∀ k t, ts[k]? = some t → (P t.score ↔ k < m))
    (hQ : ∀ k t, ts[k]? = some t → (Q t.score ↔ k < n)) :
    (∃ p ∈ sl.pairs, ¬ P p.1 ∧ Q p.1) ↔ m < n := by
  rw [r.pairs_eq]
  constructor
  · rintro ⟨_, hp, hlo, hhi⟩
    obtain ⟨t, ht, rfl⟩ := List.mem_map.mp hp
    obtain ⟨k, hk⟩ := List.mem_iff_getElem?.mp ht
    have h1 := (hP k t hk).not.mp hlo
    have h2 := (hQ k t hk).mp hhi
    omega
  · intro hmn
    have hlt : m < ts.length := by omega
    have hm : ts[m]? = some ts[m] := List.getElem?_eq_getElem hlt
    refine ⟨_, List.mem_map.mpr ⟨ts[m], List.getElem_mem hlt, rfl⟩, ?_, (hQ m _ hm).mpr hmn⟩
    exact (hP m _ hm).not.mpr (Nat.lt_irrefl m)

/-- There is an element in the interval. -/
theorem Repr.exists_inRange_iff (r : Repr sl ps ts) (c : Cut ts a b A B) :
    (∃ p ∈ sl.pairs, min a b ≤ p.1 ∧ p.1 ≤ max a b) ↔ A < B := by
  rw [← r.exists_between_iff (· < min a b) (· ≤ max a b) c.le.2 c.below c.upTo]
  simp only [not_lt]

/-- There is an element above the smaller bound. -/
theorem Repr.exists_above_iff (r : Repr sl ps ts) (hba : b < a) (c : Cut ts a b A B) {A' : ℕ}
    (c' : Cut ts b b A' B') : (∃ p ∈ sl.pairs, b < p.1 ∧ p.1 ≤ a) ↔ B' < B := by
  rw [← r.exists_between_iff (· ≤ max b b) (· ≤ max a b) c.le.2 c'.upTo c.upTo]
  simp only [not_le, max_self, max_eq_left hba.le]

/-- Searching for the smaller bound alone finds the first element of the interval when there is
one with that score, or none at all. -/
theorem Repr.first_shrunk_iff (r : Repr sl ps ts) (hne : ts ≠ []) (hba : b < a) :
    sl.firstInRangeByScore b b = sl.firstInRangeByScore a b ↔
      ((∃ p ∈ sl.pairs, b ≤ p.1 ∧ p.1 ≤ a) → ∃ p ∈ sl.pairs, p.1 = b) := by
  obtain ⟨A, B, c⟩ := exists_cut r.sorted a b
  obtain ⟨A', B', c'⟩ := exists_cut r.sorted b b
  obtain ⟨rfl, hAB', hle⟩ := c.shrink hba c'
  have hin := r.exists_inRange_iff c
  have hat := r.exists_inRange_iff c'
  rw [min_eq_right hba.le, max_eq_left hba.le] at hin
  simp only [min_self, max_self, ← le_antisymm_iff, eq_comm (a := b)] at hat
  rw [hin, hat, r.firstInRangeByScore_eq hne c, r.firstInRangeByScore_eq hne c']
  have hlen := r.len
  have hcle := c.le
  by_cases hAB : A' < B
  · have hp : ps[A']? = some ps[A'] := List.getElem?_eq_getElem (by omega)
    by_cases h : A' < B'
    · simp [hAB, h]
    · simp [hAB, h, hp]
  · have h : ¬ A' < B' := by omega
    simp [hAB, h]

/-- It finds the last element of the interval when no other score is in it. -/
theorem Repr.last_shrunk_iff (r : Repr sl ps ts) (hne : ts ≠ []) (hba : b < a) :
    sl.lastInRangeByScore b b = sl.lastInRangeByScore a b ↔
      ¬ ∃ p ∈ sl.pairs, b < p.1 ∧ p.1 ≤ a := by
  obtain ⟨A, B, c⟩ := exists_cut r.sorted a b
  obtain ⟨A', B', c'⟩ := exists_cut r.sorted b b
  obtain ⟨rfl, hAB', hle⟩ := c.shrink hba c'
  rw [r.exists_above_iff hba c c', r.lastInRangeByScore_eq hne c, r.lastInRangeByScore_eq hne c',
    min_eq_right hba.le, min_self]
  have hlen := r.len
  have hcle := c.le
  constructor
  · intro heq hlt
    have hB : (sl.head :: ps)[B]? = ps[B - 1]? := by
      obtain ⟨n, rfl⟩ : ∃ n, B = n + 1 := ⟨B - 1, by omega⟩
      rw [List.getElem?_cons_succ, Nat.add_sub_cancel]
    have hp : ps[B - 1]? = some ps[B - 1] := List.getElem?_eq_getElem (by omega)
    have hpos : (sl.head :: ps)[B]? = some ps[B - 1] := hB.trans hp
    simp only [Option.some.injEq, SkipList.Itr.mk.injEq, and_true, if_pos (show A' < B by omega),
      hp] at heq
    -- the position that the shrunk search answers
    have hB' : (sl.head :: ps)[B']? = some ps[B - 1] := by
      split at heq
      · obtain ⟨n, rfl⟩ : ∃ n, B' = n + 1 := ⟨B' - 1, by omega⟩
        rw [List.getElem?_cons_succ, ← heq, Nat.add_sub_cancel]
      · split at heq
        · next h0 =>
            obtain ⟨rfl, _⟩ := h0
            rw [← heq, List.getElem?_cons_zero]
        · cases heq
    have := r.pos_inj hB' hpos
    omega
  · intro hno
    obtain rfl : B' = B := by omega
    rfl

end Repr

/-! ## The two copies -/

/-- A query of a skip list. -/
inductive ListQuery (α β : Type) where
  | search (score : α)
  | getRank (score : α) (val : β)
  | firstInRangeByIdx (min max : UInt64)
  | firstInRangeByScore (min max : α)
  | lastInRangeByScore (min max : α)
  | lenth

/-- What a query returns. An iterator is on a node, and the same calls make the same nodes. -/
inductive ListAnswer (β : Type) where
  | val (val : β)
  | rank (rank : UInt64)
  | itr (it : SkipList.Itr)
  | lenth (lenth : UInt32)

/-- Two iterators, as answers. -/
theorem map_itr_eq_iff {it it' : Option SkipList.Itr} :
    it.map (.itr : _ → ListAnswer β) = it'.map .itr ↔ it = it' :=
  (Option.map_injective fun _ _ h => ListAnswer.itr.inj h).eq_iff

/-- The bounds are in order, or what lies between them does not show that they are not. -/
def ListQuery.Harmless : ListQuery α β → SkipList α β → Prop
  | .firstInRangeByScore min max, sl => max < min →
      (∃ p ∈ sl.pairs, max ≤ p.1 ∧ p.1 ≤ min) → ∃ p ∈ sl.pairs, p.1 = max
  | .lastInRangeByScore min max, sl => max < min → ¬ ∃ p ∈ sl.pairs, max < p.1 ∧ p.1 ≤ min
  | .search _, _ | .getRank _ _, _ | .firstInRangeByIdx _ _, _ | .lenth, _ => True

variable [DecidableEq β]

/-- The state of the standalone copy after a call. -/
def SkipList.Standalone.step : ListOp α β → SkipList α β → Option (SkipList α β)
  | .insert lvl score val, sl => (insert lvl score val sl).map Prod.snd
  | .delete score val, sl => (delete score val sl).map Prod.snd

/-- `Insert` does not come back. -/
theorem SkipList.Standalone.step_insert (lvl : Lvl) (score : α) (val : β) (sl : SkipList α β) :
    Standalone.step (.insert lvl score val) sl = none := by
  rw [Standalone.step, Standalone.insert]
  simp

/-- The other calls are the server's. -/
theorem SkipList.Standalone.step_delete (score : α) (val : β) (sl : SkipList α β) :
    Standalone.step (.delete score val) sl = ListOp.step (.delete score val) sl := rfl

variable [Inhabited β]

/-- What the copy of the server answers. -/
def ListQuery.answer : ListQuery α β → SkipList α β → Option (ListAnswer β)
  | .search score, sl => (SkipList.search score sl).map .val
  | .getRank score val, sl => (SkipList.getRank score val sl).map .rank
  | .firstInRangeByIdx min max, sl => (SkipList.firstInRangeByIdx min max sl).map .itr
  | .firstInRangeByScore min max, sl => (SkipList.firstInRangeByScore min max sl).map .itr
  | .lastInRangeByScore min max, sl => (SkipList.lastInRangeByScore min max sl).map .itr
  | .lenth, sl => some (.lenth (SkipList.lenth32 sl))

/-- What the standalone copy answers. -/
def SkipList.Standalone.answer : ListQuery α β → SkipList α β → Option (ListAnswer β)
  | .search score, sl => (search score sl).map .val
  | .getRank score val, sl => (getRank score val sl).map .rank
  | .firstInRangeByIdx min max, sl => (firstInRangeByIdx min max sl).map .itr
  | .firstInRangeByScore min max, sl => (firstInRangeByScore min max sl).map .itr
  | .lastInRangeByScore min max, sl => (lastInRangeByScore min max sl).map .itr
  | .lenth, sl => some (.lenth (lenth32 sl))

/-- The query that the standalone copy really makes. -/
def ListQuery.shrink : ListQuery α β → ListQuery α β
  | .firstInRangeByScore a b => .firstInRangeByScore (min a b) b
  | .lastInRangeByScore a b => .lastInRangeByScore (min a b) b
  | q => q

theorem SkipList.Standalone.answer_eq (q : ListQuery α β) (sl : SkipList α β) :
    Standalone.answer q sl = q.shrink.answer sl := by
  cases q with
  | firstInRangeByScore a b =>
      rw [Standalone.answer, Standalone.firstInRangeByScore_eq, ListQuery.shrink, ListQuery.answer]
  | lastInRangeByScore a b =>
      rw [Standalone.answer, Standalone.lastInRangeByScore_eq, ListQuery.shrink, ListQuery.answer]
  | search score => rfl
  | getRank score val => rfl
  | firstInRangeByIdx min max => rfl
  | lenth => rfl

section Repr

variable [Neg α] [One α] {sl : SkipList α β} {ps : List Ptr} {ts : List (Tower α β)}

/-- With an element in the list, every query completes. -/
theorem Repr.answer_total (r : Repr sl ps ts) (hne : ts ≠ []) (q : ListQuery α β) :
    ∃ ans, q.answer sl = some ans := by
  cases q with
  | search score => exact ⟨_, by rw [ListQuery.answer, r.search_eq, Option.map_some]⟩
  | getRank score val =>
      obtain ⟨rank, hr⟩ := r.rankDescend_total score val sl.level 0 sl.head 0 r.level.2 rfl
      exact ⟨_, by rw [ListQuery.answer, SkipList.getRank, hr, Option.map_some]⟩
  | firstInRangeByIdx min max =>
      obtain ⟨it, hit⟩ := r.firstInRangeByIdx_total hne min max
      exact ⟨_, by rw [ListQuery.answer, hit, Option.map_some]⟩
  | firstInRangeByScore min max =>
      obtain ⟨A, B, c⟩ := exists_cut r.sorted min max
      exact ⟨_, by rw [ListQuery.answer, r.firstInRangeByScore_eq hne c, Option.map_some]⟩
  | lastInRangeByScore min max =>
      obtain ⟨A, B, c⟩ := exists_cut r.sorted min max
      exact ⟨_, by rw [ListQuery.answer, r.lastInRangeByScore_eq hne c, Option.map_some]⟩
  | lenth => exact ⟨_, rfl⟩

/-- The two copies give the same answer. -/
theorem Repr.answer_eq_iff (r : Repr sl ps ts) (hne : ts ≠ []) (q : ListQuery α β) :
    SkipList.Standalone.answer q sl = q.answer sl ↔ q.Harmless sl := by
  rw [SkipList.Standalone.answer_eq]
  cases q with
  | firstInRangeByScore a b =>
      rw [ListQuery.shrink, ListQuery.answer, ListQuery.answer, map_itr_eq_iff, ListQuery.Harmless]
      by_cases h : b < a
      · rw [min_eq_right h.le, r.first_shrunk_iff hne h]
        exact ⟨fun h' _ => h', fun h' => h' h⟩
      · rw [min_eq_left (not_lt.mp h)]
        exact ⟨fun _ h' => absurd h' h, fun _ => rfl⟩
  | lastInRangeByScore a b =>
      rw [ListQuery.shrink, ListQuery.answer, ListQuery.answer, map_itr_eq_iff, ListQuery.Harmless]
      by_cases h : b < a
      · rw [min_eq_right h.le, r.last_shrunk_iff hne h]
        exact ⟨fun h' _ => h', fun h' => h' h⟩
      · rw [min_eq_left (not_lt.mp h)]
        exact ⟨fun _ h' => absurd h' h, fun _ => rfl⟩
  | search score => exact ⟨fun _ => trivial, fun _ => rfl⟩
  | getRank score val => exact ⟨fun _ => trivial, fun _ => rfl⟩
  | firstInRangeByIdx min max => exact ⟨fun _ => trivial, fun _ => rfl⟩
  | lenth => exact ⟨fun _ => trivial, fun _ => rfl⟩

end Repr

variable [Neg α] [One α]

/-- The two copies return the same, for a query after any calls. -/
def CopiesAgree (ops : List (ListOp α β)) (q : ListQuery α β) : Prop :=
  ∃ ans, (run ListOp.step ops SkipList.new).bind q.answer = some ans ∧
    (run SkipList.Standalone.step ops SkipList.Standalone.new).bind
      (SkipList.Standalone.answer q) = some ans

/-- A run of the standalone copy that comes back has not inserted anything, and leaves both
copies as they were made. -/
theorem run_standalone : ∀ {ops : List (ListOp α β)} {sl : SkipList α β},
    run SkipList.Standalone.step ops SkipList.Standalone.new = some sl →
      run ListOp.step ops (SkipList.new : SkipList α β) = some SkipList.new := by
  intro ops
  induction ops with
  | nil => intro sl _; rfl
  | cons o ops ih =>
      intro sl hrun
      obtain ⟨m, hm, hrest⟩ := run_cons.mp hrun
      cases o with
      | insert lvl score val =>
          rw [SkipList.Standalone.step_insert] at hm
          cases hm
      | delete score val =>
          rw [SkipList.Standalone.step_delete] at hm
          have hstay : ListOp.step (.delete score val) (SkipList.new : SkipList α β) =
              some SkipList.new := by
            obtain ⟨stops, _, ⟨t, _, ht, _⟩ | ⟨_, hdel⟩⟩ := delete_spec repr_new score val
            · cases ht
            · rw [ListOp.step, hdel, Option.map_some]
          obtain rfl := Option.some.inj (hstay.symm.trans hm)
          exact run_cons.mpr ⟨_, hstay, ih hrest⟩

/-- **The two copies.** Any run of `Insert` and `Delete` of the server's copy comes back. When it
leaves an element in the list, every query there has an answer, and the standalone copy never
gives the same one after the same calls. Of the two queries on that one list, the answers are
the same exactly when the query is harmless. -/
theorem run_copies (ops : List (ListOp α β)) :
    ∃ sl, run ListOp.step ops SkipList.new = some sl ∧
      (sl.pairs ≠ [] → ∀ q : ListQuery α β, (∃ ans, q.answer sl = some ans) ∧
        ¬ CopiesAgree ops q ∧
        (SkipList.Standalone.answer q sl = q.answer sl ↔ q.Harmless sl)) := by
  obtain ⟨sl, hrun, ps, ts, r⟩ := run_repr ops
  refine ⟨sl, hrun, fun hne q => ?_⟩
  rw [r.pairs_eq, Ne, List.map_eq_nil_iff] at hne
  refine ⟨r.answer_total hne q, ?_, r.answer_eq_iff hne q⟩
  rintro ⟨ans, _, hans⟩
  obtain ⟨sl', hrun', _⟩ := Option.bind_eq_some_iff.mp hans
  -- then the list is as it was made, and has no element
  obtain rfl := Option.some.inj (hrun.symm.trans (run_standalone hrun'))
  have hlen := congrArg List.length (r.pairs_eq.symm.trans repr_new.pairs_eq)
  simp only [List.length_map, List.length_nil] at hlen
  exact hne (List.length_eq_zero_iff.mp hlen)

/-- One element of score `3`: between `5` and `1` the server finds it, from both ends. The
standalone copy does not come back from `Insert`, and on that list its queries find nothing. -/
theorem insert_runs_off :
    ∃ sl, run ListOp.step [.insert ⟨1, by decide⟩ 3 [65]]
        (SkipList.new : SkipList ℤ (List UInt8)) = some sl ∧
      run SkipList.Standalone.step [.insert ⟨1, by decide⟩ 3 [65]]
        (SkipList.Standalone.new : SkipList ℤ (List UInt8)) = none ∧
      sl.pairs = [(3, [65])] ∧
      sl.firstInRangeByScore 5 1 = some ⟨some 1, none⟩ ∧
      SkipList.Standalone.firstInRangeByScore 5 1 sl = some ⟨none, none⟩ ∧
      sl.lastInRangeByScore 5 1 = some ⟨some 1, none⟩ ∧
      SkipList.Standalone.lastInRangeByScore 5 1 sl = some ⟨none, none⟩ := by
  have hrun : ((run ListOp.step [.insert ⟨1, by decide⟩ 3 [65]]
      (SkipList.new : SkipList ℤ (List UInt8))).map fun sl =>
        (sl.pairs, sl.firstInRangeByScore 5 1, SkipList.Standalone.firstInRangeByScore 5 1 sl,
          sl.lastInRangeByScore 5 1, SkipList.Standalone.lastInRangeByScore 5 1 sl)) =
      some ([(3, [65])], some ⟨some 1, none⟩, some ⟨none, none⟩, some ⟨some 1, none⟩,
        some ⟨none, none⟩) := by
    decide +kernel
  obtain ⟨sl, hs, hfacts⟩ := Option.map_eq_some_iff.mp hrun
  simp only [Prod.mk.injEq] at hfacts
  obtain ⟨h0, h1, h2, h3, h4⟩ := hfacts
  refine ⟨sl, hs, ?_, h0, h1, h2, h3, h4⟩
  rw [run, SkipList.Standalone.step_insert, Option.bind_none]

end LibC
