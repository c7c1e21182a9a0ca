/-
LibC.SkipList.FaultTheorems — which calls on a sorted set fault, and when.

The changes and the lookups by member complete in every state a run can reach.
The iterators and the range queries read `tail_`, which is null on an empty
list, and so each of them faults there, on whichever of its paths it takes;
with an element in the list none does (`SetRepr.completes_iff`).

A search completes on every list, also where the spans it adds up have wrapped
(`Repr.descend_total`): its links lead from node to node whatever the loop
condition says.

No `sorry`, no `axiom`, no `native_decide`.
-/
import LibC.SkipList.RankTheorems

namespace LibC

open LibC.Lib LibC.Lib.Tower

variable {α β γ : Type} [LinearOrder α] [Neg α] [One α] [Inhabited β]
variable {sl : SkipList α β} {ps : List Ptr} {ts : List (Tower α β)}

/-! ## Searches complete -/

/-- The loop of one level ends on a node that reaches the level. -/
theorem Repr.walk_total (r : Repr sl ps ts) (go : γ → SkipListLevel → SkipListNode α β → Bool)
    (add : γ → SkipListLevel → γ) {i : ℕ} :
    ∀ (fuel k : ℕ) (x : Ptr) (acc : γ), ts.length < fuel + k → i < heights ts k →
      (sl.head :: ps)[k]? = some x →
      ∃ b y acc', SkipList.walk sl.heap i go add fuel x acc = some (y, acc') ∧
        (sl.head :: ps)[b]? = some y ∧ i < heights ts b
  | 0, k, x, acc, hf, _, hx => by have := r.pos_lt hx; omega
  | fuel + 1, k, x, acc, hf, hi, hx => by
      obtain ⟨l, hl, hok⟩ := r.link_pos hx hi
      by_cases hex : ∃ q, IsNext (heights ts) i k q
      · obtain ⟨q, hn⟩ := hex
        have hkq := hn.lt
        obtain ⟨y, t, hy, ht, hd⟩ := r.exists_pos (isNext_le_length hn)
        obtain ⟨nd, hg, _⟩ := get_of_nodeData hd
        have hfwd : l.forward = some y := (hok.next q hn).1.trans hy
        cases hgo : go acc l nd with
        | false =>
            refine ⟨k, x, acc, ?_, hx, hi⟩
            simp [SkipList.walk, hl, hfwd, hg, hgo]
        | true =>
            obtain ⟨b, z, acc', hw, hz⟩ :=
              r.walk_total go add fuel q y (add acc l) (by omega) hn.tall hy
            refine ⟨b, z, acc', ?_, hz⟩
            simp [SkipList.walk, hl, hfwd, hg, hgo, hw]
      · have hnone := hok.null fun q hq => hex ⟨q, hq⟩
        refine ⟨k, x, acc, ?_, hx, hi⟩
        simp [SkipList.walk, hl, hnone]

/-- Every search ends on a node of the list. -/
theorem Repr.descend_total (r : Repr sl ps ts)
    (go : γ → SkipListLevel → SkipListNode α β → Bool) (add : γ → SkipListLevel → γ) :
    ∀ (lvl k : ℕ) (x : Ptr) (acc : γ) (path : SkipList.Path γ), lvl ≤ heights ts k →
      (sl.head :: ps)[k]? = some x →
      ∃ (b : ℕ) (y : Ptr) (acc' : γ) (path' : SkipList.Path γ),
        SkipList.descend sl.heap go add lvl x acc path = some (y, acc', path') ∧
          (sl.head :: ps)[b]? = some y
  | 0, k, x, acc, path, _, hx => ⟨k, x, acc, path, rfl, hx⟩
  | lvl + 1, k, x, acc, path, hlvl, hx => by
      obtain ⟨b, y, acc', hw, hy, hb⟩ := r.walk_total go add (i := lvl) sl.heap.size k x acc
        (by have := r.length_lt_size; omega) (by omega) hx
      obtain ⟨b', z, acc2, path', hd, hz⟩ :=
        r.descend_total go add lvl b y acc' (path.record lvl y acc') (by omega) hy
      refine ⟨b', z, acc2, path', ?_, hz⟩
      simp [SkipList.descend, hw, hd]

variable [DecidableEq β]

/-- The loop of `GetRank` at a level returns, or ends on a node that reaches the level. -/
theorem Repr.rankWalk_total (r : Repr sl ps ts) (score : α) (val : β) {i : ℕ} :
    ∀ (fuel k : ℕ) (x : Ptr) (rank : UInt64), ts.length < fuel + k → i < heights ts k →
      (sl.head :: ps)[k]? = some x →
      (∃ rank', SkipList.rankWalk sl.heap score val i fuel x rank = some (.error rank')) ∨
        ∃ b y rank', SkipList.rankWalk sl.heap score val i fuel x rank = some (.ok (y, rank')) ∧
          (sl.head :: ps)[b]? = some y ∧ i < heights ts b
  | 0, k, x, rank, hf, _, hx => by have := r.pos_lt hx; omega
  | fuel + 1, k, x, rank, hf, hi, hx => by
      by_cases hex : ∃ q, IsNext (heights ts) i k q
      · obtain ⟨q, hn⟩ := hex
        have hkq := hn.lt
        obtain ⟨y, t, hy, ht, hround⟩ := r.rankWalk_next score val hx hi hn
        rw [hround]
        by_cases hgo : t.score < score ∨ t.score = score
        · rw [if_pos hgo]
          by_cases hv : t.val = val
          · rw [if_pos hv]
            exact Or.inl ⟨_, rfl⟩
          · rw [if_neg hv]
            exact r.rankWalk_total score val fuel q y _ (by omega) hn.tall hy
        · rw [if_neg hgo]
          exact Or.inr ⟨k, x, rank, rfl, hx, hi⟩
      · obtain ⟨l, hl, hok⟩ := r.link_pos hx hi
        have hnone := hok.null fun q hq => hex ⟨q, hq⟩
        refine Or.inr ⟨k, x, rank, ?_, hx, hi⟩
        simp [SkipList.rankWalk, hl, hnone]

/-- `GetRank` completes, whether the element is in the list or not. -/
theorem Repr.rankDescend_total (r : Repr sl ps ts) (score : α) (val : β) :
    ∀ (lvl k : ℕ) (x : Ptr) (rank : UInt64), lvl ≤ heights ts k → (sl.head :: ps)[k]? = some x →
      ∃ rank', SkipList.rankDescend sl.heap score val lvl x rank = some rank'
  | 0, _, _, _, _, _ => ⟨0, rfl⟩
  | lvl + 1, k, x, rank, hlvl, hx => by
      rcases r.rankWalk_total score val (i := lvl) sl.heap.size k x rank
        (by have := r.length_lt_size; omega) (by omega) hx with
        ⟨rank', hw⟩ | ⟨b, y, rank', hw, hy, hb⟩
      · exact ⟨rank', by simp [SkipList.rankDescend, hw]⟩
      · obtain ⟨rank2, hd⟩ := r.rankDescend_total score val lvl b y rank' (by omega) hy
        exact ⟨rank2, by simp [SkipList.rankDescend, hw, hd]⟩

/-! ## Calls -/

/-- A call on a sorted set. -/
inductive SetCall (α β : Type) where
  | change (o : SetOp α β)
  | getMemScore (data : β)
  | getMemRank (data : β)
  | getMemsByScore (min max : α)
  | getMemsFirstByRank (min max : UInt64)
  | getMemByRank (rank : UInt64)
  | begin
  | endItr
  | size

/-- The call completes. -/
def SetCall.completes : SetCall α β → SortSet α β → Bool
  | .change o, s => (o.step s).isSome
  | .getMemScore data, s => (some (s.getMemScore data)).isSome
  | .getMemRank data, s => (s.getMemRank data).isSome
  | .getMemsByScore min max, s => (s.getMemsByScore min max).isSome
  | .getMemsFirstByRank min max, s => (s.getMemsFirstByRank min max).isSome
  | .getMemByRank rank, s => (s.getMemByRank rank).isSome
  | .begin, s => s.begin.isSome
  | .endItr, s => s.endItr.isSome
  | .size, s => (some s.size).isSome

/-- The call is one of those that read `tail_`. -/
def SetCall.readsTail : SetCall α β → Bool
  | .getMemsByScore _ _ | .getMemsFirstByRank _ _ | .getMemByRank _ | .begin | .endItr => true
  | .change _ | .getMemScore _ | .getMemRank _ | .size => false

omit [LinearOrder α] [Neg α] [One α] [Inhabited β] [DecidableEq β] in
theorem endItr_of_tail_none (h : sl.tail = none) : sl.endItr = none := by
  simp [SkipList.endItr, h]

omit [LinearOrder α] [Neg α] [One α] [Inhabited β] [DecidableEq β] in
/-- Every path of `FirstInRangeByIdx` ends in `end()` or reads `tail_`. -/
theorem firstInRangeByIdx_of_tail_none (h : sl.tail = none) (min max : UInt64) :
    sl.firstInRangeByIdx min max = none := by
  simp [SkipList.firstInRangeByIdx, h, endItr_of_tail_none h]

omit [Neg α] [One α] [Inhabited β] [DecidableEq β] in
theorem firstInRangeByScore_of_tail_none (h : sl.tail = none) (min max : α) :
    sl.firstInRangeByScore min max = none := by
  simp [SkipList.firstInRangeByScore, h]

omit [DecidableEq β] in
/-- With an element in the list, `FirstInRangeByIdx` completes for all bounds. -/
theorem Repr.firstInRangeByIdx_total (r : Repr sl ps ts) (hne : ts ≠ []) (min max : UInt64) :
    ∃ it, sl.firstInRangeByIdx min max = some it := by
  have hend := r.endItr_eq hne
  obtain ⟨t, tl, htail, htl, _⟩ := r.tail_link hne
  obtain ⟨b, y, traversed, path', hd, hy⟩ := r.descend_total
    (fun traversed l _ => decide (traversed + l.span.toUInt64 < min))
    (fun traversed l => traversed + l.span.toUInt64) sl.level 0 sl.head 0
    ⟨fun _ => none, fun _ => 0⟩ r.level.2 rfl
  obtain ⟨l, hl, _⟩ := r.next_pos hy
  unfold SkipList.firstInRangeByIdx
  simp only [hend, hd, hl, htail, htl, Option.bind_eq_bind, Option.bind_some]
  split
  · exact ⟨_, rfl⟩
  · split
    · exact ⟨_, rfl⟩
    · split <;> exact ⟨_, rfl⟩

/-- A call completes unless it reads the tail of a list without elements. -/
theorem SetRepr.completes_iff {s : SortSet α β} (h : SetRepr s ps ts) (call : SetCall α β) :
    call.completes s = true ↔ ¬ (call.readsTail = true ∧ ps = []) := by
  have hnil : ps = [] → s.sl.tail = none := by
    rintro rfl
    exact h.repr.tail
  have hts : ps ≠ [] → ts ≠ [] := by
    rintro hps rfl
    exact hps (List.eq_nil_of_length_eq_zero h.repr.len)
  have htail : ∀ {b : Bool}, (ps = [] → b = false) → (ps ≠ [] → b = true) →
      (b = true ↔ ¬ (true = true ∧ ps = [])) := by
    intro b h1 h2
    by_cases hps : ps = []
    · simp [hps, h1 hps]
    · simp [hps, h2 hps]
  have hidx : ∀ min max, (SkipList.firstInRangeByIdx min max s.sl).isSome = true ↔
      ¬ (true = true ∧ ps = []) := by
    intro min max
    refine htail (fun hps => ?_) fun hps => ?_
    · rw [firstInRangeByIdx_of_tail_none (hnil hps)]
      rfl
    · obtain ⟨it, hit⟩ := h.repr.firstInRangeByIdx_total (hts hps) min max
      rw [hit]
      rfl
  cases call with
  | change o =>
      obtain ⟨s', _, _, hstep, _⟩ := o.step_spec h
      simp [SetCall.completes, SetCall.readsTail, hstep]
  | getMemScore data => simp [SetCall.completes, SetCall.readsTail]
  | getMemRank data =>
      cases hd : s.dict data with
      | none => simp [SetCall.completes, SetCall.readsTail, SortSet.getMemRank, hd]
      | some score =>
          obtain ⟨rank, hr⟩ :=
            h.repr.rankDescend_total score data s.sl.level 0 s.sl.head 0 h.repr.level.2 rfl
          have hrank : s.sl.getRank score data = some rank := hr
          simp [SetCall.completes, SetCall.readsTail, SortSet.getMemRank, hd, hrank]
  | getMemsByScore min max =>
      refine htail (fun hps => ?_) fun hps => ?_
      · simp [SetCall.completes, SortSet.getMemsByScore,
          firstInRangeByScore_of_tail_none (hnil hps)]
      · obtain ⟨A, B, c⟩ := exists_cut h.repr.sorted min max
        simp [SetCall.completes, SortSet.getMemsByScore,
          h.repr.firstInRangeByScore_eq (hts hps) c, h.repr.lastInRangeByScore_eq (hts hps) c]
  | getMemsFirstByRank min max => exact hidx min max
  | getMemByRank rank => exact hidx rank rank
  | begin =>
      refine htail (fun hps => ?_) fun hps => ?_
      · simp [SetCall.completes, SortSet.begin, being_of_tail_none (hnil hps)]
      · obtain ⟨it, hit, _⟩ := h.repr.iterate_spec (hts hps)
        simp [SetCall.completes, SortSet.begin, hit]
  | endItr =>
      refine htail (fun hps => ?_) fun hps => ?_
      · simp [SetCall.completes, SortSet.endItr, endItr_of_tail_none (hnil hps)]
      · simp [SetCall.completes, SortSet.endItr, h.repr.endItr_eq (hts hps)]
  | size => simp [SetCall.completes, SetCall.readsTail]

end LibC
