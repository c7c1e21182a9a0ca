/-
LibC.SkipList.RankTheorems — positions and ranks.

`FirstInRangeByIdx` adds up the spans it passes, which are the distances
between positions, so it steps on exactly the positions below `min`: it is a
search for a prefix like the score queries, and exact for all bounds
(`run_select`). The early exit compares `min` with `lenth_`, which deletions
raise as well, so it is never smaller than the number of elements.

`GetRank` walks over every element up to and including those tied with the
wanted one, and stops when it meets it. A taller tied element further on hides
it, and then the rank is `0`; otherwise the rank is the sum of the spans it
followed. `run_rank_iff` says for which members that is the position.

No `sorry`, no `axiom`, no `native_decide`.
-/
import LibC.SkipList.RangeTheorems

namespace LibC

open LibC.Lib LibC.Lib.Tower

variable {α β : Type} [LinearOrder α] [Neg α] [One α] [Inhabited β]
variable {sl : SkipList α β} {ps : List Ptr} {ts : List (Tower α β)}

/-! ## Selecting by position -/

/-- Every link of the list spans less than `2^32`. -/
def LinksFit (ts : List (Tower α β)) : Prop := ∀ i k q, LinkFrom ts i k q → q - k < 2 ^ 32

omit [LinearOrder α] [Neg α] [One α] [Inhabited β] in
theorem linksFit_of_length (hlen : ts.length < 2 ^ 32) : LinksFit ts := by
  intro i k q h
  have := isNext_le_length h.2
  omega

omit [LinearOrder α] [Neg α] [One α] [Inhabited β] in
/-- `traversed` is the position, as long as positions fit into it and distances into a span. -/
theorem steps_select (hfit : LinksFit ts) (hlen : ts.length < 2 ^ 64) (min : UInt64) :
    LinkSteps ts (fun traversed l (_ : SkipListNode α β) =>
        decide (traversed + l.span.toUInt64 < min))
      (fun traversed l => traversed + l.span.toUInt64) UInt64.ofNat (fun q => q < min.toNat) := by
  have hadd : ∀ (i k q : ℕ) (l : SkipListLevel), LinkFrom ts i k q →
      l.span = UInt32.ofNat (q - k) → UInt64.ofNat k + l.span.toUInt64 = UInt64.ofNat q := by
    intro i k q l h hsp
    have hkq := h.2.lt
    have hspan := hfit i k q h
    refine UInt64.toNat_inj.mp ?_
    rw [hsp, UInt64.toNat_add, UInt32.toNat_toUInt64, UInt64.toNat_ofNat', UInt64.toNat_ofNat',
      UInt32.toNat_ofNat', Nat.mod_eq_of_lt hspan]
    omega
  refine ⟨hadd, fun i k q l _ t h hsp _ _ _ => ?_⟩
  have hq := isNext_le_length h.2
  rw [decide_eq_true_iff, hadd i k q l h hsp, UInt64.lt_iff_toNat_lt, UInt64.toNat_ofNat',
    Nat.mod_eq_of_lt (by omega)]

/-- The first element that is not below `a`, when `a` is not above `lenth_` and the element not
above `b`. -/
theorem Repr.firstInRangeByIdx_spec (r : Repr sl ps ts) (hne : ts ≠ []) (hfit : LinksFit ts)
    (hlen : ts.length < 2 ^ 64) (a b : UInt64) :
    sl.firstInRangeByIdx a b =
      some ⟨if a.toNat ≤ sl.lenth.toNat ∧ a.toNat - 1 < b.toNat then ps[a.toNat - 1]?
        else none, none⟩ := by
  have hps := r.len
  rw [SkipList.firstInRangeByIdx, r.endItr_eq hne]
  simp only [UInt64.lt_iff_toNat_lt]
  by_cases h1 : b.toNat < a.toNat
  · rw [if_pos h1, if_neg (by omega)]
  rw [if_neg h1]
  by_cases h2 : sl.lenth.toNat < a.toNat
  · rw [if_pos h2, if_neg (by omega)]
  rw [if_neg h2]
  obtain ⟨B, hB⟩ : ∃ B, B = min (a.toNat - 1) ts.length := ⟨_, rfl⟩
  obtain ⟨x, path', hd, hx⟩ := r.descend_prefix (steps_select hfit hlen a)
    ⟨fun _ => none, fun _ => 0⟩ (B := B) (by omega) fun m h0 hm => by omega
  obtain ⟨l, hl, hf⟩ := r.next_pos hx
  obtain ⟨t, tl, htail, htl, htf⟩ := r.tail_link hne
  have ha := a.toNat_lt
  have htrav : (UInt64.ofNat B + 1).toNat = B + 1 := by
    rw [UInt64.toNat_add, UInt64.toNat_ofNat', UInt64.toNat_one]
    omega
  have hd0 : (UInt64.ofNat 0 : UInt64) = 0 := rfl
  simp only [UInt64.lt_iff_toNat_lt, hd0] at hd
  simp only [hd, hl, hf, htrav, htail, htl, htf, Option.bind_eq_bind, Option.bind_some]
  by_cases hin : a.toNat - 1 < ps.length
  · obtain rfl : B = a.toNat - 1 := by omega
    rw [List.getElem?_eq_getElem hin]
    by_cases hle : a.toNat - 1 < b.toNat
    · rw [if_neg fun h => h.elim (Option.some_ne_none _) fun h => by omega,
        if_pos ⟨by omega, hle⟩]
    · rw [if_pos (Or.inr (by omega)), if_neg fun h => hle h.2]
  · have hnone : ps[B]? = none := List.getElem?_eq_none (by omega)
    rw [if_pos (Or.inl hnone), List.getElem?_eq_none (by omega), ite_self]

/-- The early exit on `lenth_` changes nothing when `lenth_` is not too small. -/
theorem Repr.firstInRangeByIdx_eq (r : Repr sl ps ts) (hne : ts ≠ []) (hlen : ts.length < 2 ^ 31)
    (hlenth : ts.length ≤ sl.lenth.toNat) (a b : UInt64) :
    sl.firstInRangeByIdx a b =
      some ⟨if a.toNat - 1 < b.toNat then ps[a.toNat - 1]? else none, none⟩ := by
  rw [r.firstInRangeByIdx_spec hne (linksFit_of_length (by omega)) (by omega) a b]
  by_cases h : a.toNat ≤ sl.lenth.toNat
  · simp only [h, true_and]
  · have hps := r.len
    rw [if_neg fun hc => h hc.1, List.getElem?_eq_none (by omega), ite_self]

/-- The element at the first position between `a` and `b`, counted from `n`. -/
theorem find?_zipIdx {δ : Type} (a b : ℕ) : ∀ (l : List δ) (n : ℕ),
    ((l.zipIdx n).find? fun x => decide (a ≤ x.2 ∧ x.2 ≤ b)).map Prod.fst =
      if max n a ≤ b then l[max n a - n]? else none
  | [], n => by simp
  | x :: l, n => by
      rw [List.zipIdx_cons, List.find?_cons]
      by_cases h : a ≤ n ∧ n ≤ b
      · rw [max_eq_left h.1]
        simp [h]
      · rw [decide_eq_false h]
        simp only [find?_zipIdx a b l (n + 1)]
        by_cases ha : a ≤ n
        · rw [if_neg (by omega), if_neg (by omega)]
        · rw [max_eq_right (by omega : n + 1 ≤ a), max_eq_right (by omega : n ≤ a),
            show a - n = a - (n + 1) + 1 by omega, List.getElem?_cons_succ]

/-- `FirstInRangeByIdx` answers the first element whose position, counted from `1`, lies
between the bounds, or `end()`. -/
def SelectExact (sl : SkipList α β) (ps : List Ptr) (a b : UInt64) : Prop :=
  ∃ it e, sl.firstInRangeByIdx a b = some it ∧ sl.endItr = some e ∧
    it.pos = (((ps.zipIdx 1).find? fun x =>
      decide (a.toNat ≤ x.2 ∧ x.2 ≤ b.toNat)).map Prod.fst).or e.pos

/-- `GetMemByRank` answers the element at a position, or `end()`. -/
def SelectOne (s : SortSet α β) (ps : List Ptr) (rank : UInt64) : Prop :=
  ∃ it e, s.getMemByRank rank = some it ∧ s.sl.endItr = some e ∧
    if 1 ≤ rank.toNat ∧ rank.toNat ≤ ps.length then it.pos = ps[rank.toNat - 1]?
    else it.pos = e.pos

theorem Repr.selectExact (r : Repr sl ps ts) (hne : ts ≠ []) (hlen : ts.length < 2 ^ 31)
    (hlenth : ts.length ≤ sl.lenth.toNat) (a b : UInt64) : SelectExact sl ps a b := by
  refine ⟨_, _, r.firstInRangeByIdx_eq hne hlen hlenth a b, r.endItr_eq hne, ?_⟩
  rw [find?_zipIdx, Option.or_none]
  rcases Nat.eq_zero_or_pos a.toNat with h | h
  · rw [h, max_eq_left (Nat.zero_le 1)]
    by_cases hb : 1 ≤ b.toNat
    · rw [if_pos hb, if_pos (by omega)]
    · rw [if_neg hb, if_neg (by omega)]
  · rw [max_eq_right (show 1 ≤ a.toNat from h)]
    by_cases hb : a.toNat ≤ b.toNat
    · rw [if_pos hb, if_pos (by omega)]
    · rw [if_neg hb, if_neg (by omega)]

theorem Repr.selectOne {s : SortSet α β} (r : Repr s.sl ps ts) (hne : ts ≠ [])
    (hlen : ts.length < 2 ^ 31) (hlenth : ts.length ≤ s.sl.lenth.toNat) (rank : UInt64) :
    SelectOne s ps rank := by
  refine ⟨_, _, r.firstInRangeByIdx_eq hne hlen hlenth rank rank, r.endItr_eq hne, ?_⟩
  rcases Nat.eq_zero_or_pos rank.toNat with h | h
  · rw [if_neg (by omega), if_neg (by omega)]
  · by_cases hin : rank.toNat ≤ ps.length
    · rw [if_pos ⟨h, hin⟩, if_pos (by omega)]
    · rw [if_neg (by omega), if_pos (by omega), List.getElem?_eq_none (by omega)]

/-! ## Runs -/

section Runs

/-- The number of insertions in a run. -/
def inserted (ops : List (ListOp α β)) : ℕ :=
  ops.countP fun o => match o with
    | .insert _ _ _ => true
    | .delete _ _ => false

variable [DecidableEq β]

/-- After a run the list is shorter than the number of insertions by the deletions that
found something, and `lenth_` larger by as many. -/
def Counted (past : List (ListOp α β)) (sl : SkipList α β) : Prop :=
  ∃ ps ts d, Repr sl ps ts ∧ ts.length + d = inserted past ∧
    sl.lenth = UInt64.ofNat (inserted past + d)

/-- One call keeps the count. -/
theorem Counted.step {past : List (ListOp α β)} {sl sl' : SkipList α β} (h : Counted past sl)
    (o : ListOp α β) (hstep : o.step sl = some sl') : Counted (past ++ [o]) sl' := by
  obtain ⟨ps, ts, d, r, hlen, hlenth⟩ := h
  cases o with
  | insert lvl score val =>
      obtain ⟨stops, sl1, hins, hd, hl, r'⟩ := insert_spec r lvl score val
      have hsl : sl1 = sl' := by simpa [ListOp.step, hins] using hstep
      subst hsl
      have hcount : inserted (past ++ [.insert lvl score val]) = inserted past + 1 := by
        simp [inserted]
      refine ⟨_, _, d, r', ?_, ?_⟩
      · rw [List.length_insertIdx_of_le_length (stop_le_length hd 0), hcount]
        omega
      · rw [hl, hlenth, hcount, Nat.add_right_comm, UInt64.ofNat_add _ 1]
        rfl
  | delete score val =>
      have hcount : inserted (past ++ [.delete score val]) = inserted past := by
        simp [inserted]
      obtain ⟨stops, _, ⟨t, sl1, ht, _, _, hdel, hl, r'⟩ | ⟨_, hdel⟩⟩ := delete_spec r score val
      · have hsl : sl1 = sl' := by simpa [ListOp.step, hdel] using hstep
        subst hsl
        have hlt := (List.getElem?_eq_some_iff.mp ht).1
        refine ⟨_, _, d + 1, r', ?_, ?_⟩
        · rw [List.length_eraseIdx_of_lt hlt, hcount]
          omega
        · rw [hl, hlenth, hcount, ← Nat.add_assoc, UInt64.ofNat_add _ 1]
          rfl
      · have hsl : sl = sl' := by simpa [ListOp.step, hdel] using hstep
        subst hsl
        exact ⟨ps, ts, d, r, by rw [hcount]; exact hlen, by rw [hcount]; exact hlenth⟩

/-- **Selection.** After every run of fewer than `2^31` insertions, and of deletions, that
leaves an element in the list, selection by position is exact. -/
theorem run_select (ops : List (ListOp α β)) (hfew : inserted ops < 2 ^ 31) :
    ∃ sl, run ListOp.step ops SkipList.new = some sl ∧ ∀ ps, LevelChain sl 0 ps → ps ≠ [] →
      (∀ min max, SelectExact sl ps min max) ∧ ∀ dict rank, SelectOne ⟨sl, dict⟩ ps rank := by
  obtain ⟨sl, hrun, _⟩ := run_repr ops
  have h0 : Counted ([] : List (ListOp α β)) SkipList.new := ⟨[], [], 0, repr_new, rfl, rfl⟩
  obtain ⟨ps, ts, d, r, hlen, hlenth⟩ :=
    run_history Counted h0 (fun _ o _ _ h => h.step o) hrun
  refine ⟨sl, hrun, fun qs hchain hne => ?_⟩
  obtain rfl := hchain.unique r.levelChain_zero
  have hts : ts ≠ [] := by
    rintro rfl
    exact hne (List.eq_nil_of_length_eq_zero r.len)
  have hle : ts.length ≤ sl.lenth.toNat := by
    rw [hlenth, UInt64.toNat_ofNat', Nat.mod_eq_of_lt (by omega)]
    omega
  exact ⟨r.selectExact hts (by omega) hle,
    fun dict rank => r.selectOne (s := ⟨sl, dict⟩) hts (by omega) hle rank⟩

/-- Two insertions and a deletion. -/
theorem run_select_deleted :
    inserted [.insert ⟨2, by decide⟩ 5 [65], .insert ⟨1, by decide⟩ 7 [66],
        (.delete 5 [65] : ListOp ℤ (List UInt8))] < 2 ^ 31 ∧
      ∃ sl, run ListOp.step [.insert ⟨2, by decide⟩ 5 [65], .insert ⟨1, by decide⟩ 7 [66],
          .delete 5 [65]] (SkipList.new : SkipList ℤ (List UInt8)) = some sl ∧
        ∀ ps, LevelChain sl 0 ps → ps ≠ [] →
          (∀ min max, SelectExact sl ps min max) ∧ ∀ dict rank, SelectOne ⟨sl, dict⟩ ps rank :=
  ⟨by decide, run_select _ (by decide)⟩

end Runs

/-! ## Ranks -/

/-- `GetRank` is willing to step on position `m`. -/
def UpTo (ts : List (Tower α β)) (score : α) (m : ℕ) : Prop :=
  ∃ t, ts[m - 1]? = some t ∧ t.score ≤ score

/-- The element `GetRank` looks for is at position `P`, and its value is nowhere else. -/
structure Target (ts : List (Tower α β)) (score : α) (val : β) (P : ℕ) : Prop where
  pos : 0 < P
  here : ∃ t, ts[P - 1]? = some t ∧ t.score = score ∧ t.val = val
  only : ∀ m t, 0 < m → ts[m - 1]? = some t → t.val = val → m = P

/-- The links of level `i` between positions `k` and `m` span less than `2^32`. -/
def Fits (ts : List (Tower α β)) (i k m : ℕ) : Prop :=
  ∀ p q, IsNext (heights ts) i p q → i < heights ts p → k ≤ p → q ≤ m → q - p < 2 ^ 32

/-- The sum of spans does not exceed position `k`, and is `k` under condition `c`. -/
structure Tally (rank : UInt64) (k : ℕ) (c : Prop) : Prop where
  le : rank.toNat ≤ k
  eq_iff : rank.toNat = k ↔ c ∧ k < 2 ^ 64

/-- Following a link. -/
theorem Tally.step {rank : UInt64} {k q : ℕ} {c : Prop} (h : Tally rank k c) (hkq : k < q) :
    Tally (rank + (UInt32.ofNat (q - k)).toUInt64) q (c ∧ q - k < 2 ^ 32) := by
  have hadd : (rank + (UInt32.ofNat (q - k)).toUInt64).toNat =
      (rank.toNat + (q - k) % 2 ^ 32) % 2 ^ 64 := by
    rw [UInt64.toNat_add, UInt32.toNat_toUInt64, UInt32.toNat_ofNat']
  have h1 := h.le
  have h2 : (q - k) % 2 ^ 32 ≤ q - k := Nat.mod_le _ _
  have h3 := Nat.mod_le (rank.toNat + (q - k) % 2 ^ 32) (2 ^ 64)
  refine ⟨by omega, ?_⟩
  rw [hadd]
  constructor
  · intro heq
    have hlt := Nat.mod_lt (rank.toNat + (q - k) % 2 ^ 32) (show 2 ^ 64 > 0 by decide)
    have hk : rank.toNat = k := by omega
    exact ⟨⟨(h.eq_iff.mp hk).1, by omega⟩, by omega⟩
  · rintro ⟨⟨hc, hspan⟩, hq⟩
    have hk : rank.toNat = k := h.eq_iff.mpr ⟨hc, by omega⟩
    rw [hk, Nat.mod_eq_of_lt hspan, Nat.mod_eq_of_lt (by omega)]
    omega

theorem Tally.congr {rank : UInt64} {k : ℕ} {c d : Prop} (h : Tally rank k c) (hcd : c ↔ d) :
    Tally rank k d :=
  ⟨h.le, by rw [h.eq_iff, hcd]⟩

omit [LinearOrder α] [Neg α] [One α] [Inhabited β] in
theorem fits_self (ts : List (Tower α β)) (i k : ℕ) : Fits ts i k k := by
  intro p q hn _ hp hq
  have := hn.lt
  omega

omit [LinearOrder α] [Neg α] [One α] [Inhabited β] in
/-- The links from `k` on are the first one and the rest. -/
theorem fits_step {i k q m : ℕ} (hk : i < heights ts k) (hn : IsNext (heights ts) i k q)
    (hm : q ≤ m) : Fits ts i k m ↔ q - k < 2 ^ 32 ∧ Fits ts i q m := by
  have hkq := hn.lt
  constructor
  · intro h
    exact ⟨h k q hn hk (Nat.le_refl k) hm, fun p q' hn' hp h1 h2 => h p q' hn' hp (by omega) h2⟩
  · rintro ⟨h0, h⟩ p q' hn' hp h1 h2
    rcases Nat.lt_trichotomy p q with hlt | heq | hgt
    · rcases Nat.eq_or_lt_of_le h1 with heq | hkp
      · subst heq
        rwa [hn'.unique hn]
      · exact absurd (hn.low p hkp hlt) (Nat.not_le.mpr hp)
    · exact h p q' hn' hp (Nat.le_of_eq heq.symm) h2
    · exact h p q' hn' hp (Nat.le_of_lt hgt) h2

variable {score : α} {val : β} {P i : ℕ}

omit [Neg α] [One α] [Inhabited β] in
/-- In order of score, everything before a position it would step on is one as well. -/
theorem UpTo.of_le (hs : ts.Pairwise fun a b => a.score ≤ b.score) {m m' : ℕ}
    (h : UpTo ts score m) (h0 : 0 < m') (hle : m' ≤ m) : UpTo ts score m' := by
  obtain ⟨t, ht, hsc⟩ := h
  obtain ⟨hlt, rfl⟩ := List.getElem?_eq_some_iff.mp ht
  have hlt' : m' - 1 < ts.length := by omega
  refine ⟨ts[m' - 1], List.getElem?_eq_getElem hlt', le_trans ?_ hsc⟩
  rcases Nat.eq_or_lt_of_le (show m' - 1 ≤ m - 1 by omega) with h | h
  · simp only [h, le_refl]
  · exact List.pairwise_iff_getElem.mp hs _ _ hlt' hlt h

omit [Neg α] [One α] [Inhabited β] in
theorem Target.upTo (tg : Target ts score val P) : UpTo ts score P := by
  obtain ⟨t, ht, hs, _⟩ := tg.here
  exact ⟨t, ht, hs.le⟩

variable [DecidableEq β]

/-- One round of the loop of a level: the node ahead, and what the loop does with it. -/
theorem Repr.rankWalk_next (r : Repr sl ps ts) (score : α) (val : β) {k : ℕ} {x : Ptr}
    (hx : (sl.head :: ps)[k]? = some x) (hi : i < heights ts k) {q : ℕ}
    (hn : IsNext (heights ts) i k q) :
    ∃ y t, (sl.head :: ps)[q]? = some y ∧ ts[q - 1]? = some t ∧ ∀ fuel rank,
      SkipList.rankWalk sl.heap score val i (fuel + 1) x rank =
        if t.score < score ∨ t.score = score then
          if t.val = val then some (.error (rank + (UInt32.ofNat (q - k)).toUInt64))
          else SkipList.rankWalk sl.heap score val i fuel y
            (rank + (UInt32.ofNat (q - k)).toUInt64)
        else some (.ok (x, rank)) := by
  obtain ⟨l, hl, hok⟩ := r.link_pos hx hi
  obtain ⟨hf, hspan⟩ := hok.next q hn
  obtain ⟨y, t, hy, ht, hd⟩ := r.exists_pos (isNext_le_length hn)
  obtain ⟨nd, hg, hs, hv, _⟩ := get_of_nodeData hd
  obtain ⟨q, rfl⟩ : ∃ j, q = j + 1 := ⟨q - 1, by have := hn.lt; omega⟩
  refine ⟨y, t, hy, by simpa using ht, fun fuel rank => ?_⟩
  rw [SkipList.rankWalk, hl]
  simp only [Option.bind_eq_bind, Option.bind_some, hf, hy, hg, hs, hv, hspan]

/-- A level on which the loop of `GetRank` meets the element. -/
theorem Repr.rankWalk_found (r : Repr sl ps ts) (tg : Target ts score val P)
    (hP : i < heights ts P) :
    ∀ (fuel k : ℕ) (x : Ptr) (rank : UInt64) (c : Prop), ts.length < fuel + k →
      (sl.head :: ps)[k]? = some x → i < heights ts k → k < P → Tally rank k c →
      ∃ rank', SkipList.rankWalk sl.heap score val i fuel x rank = some (.error rank') ∧
        Tally rank' P (c ∧ Fits ts i k P)
  | 0, k, x, rank, c, hf, hx, _, _, _ => by have := r.pos_lt hx; omega
  | fuel + 1, k, x, rank, c, hf, hx, hi, hk, h => by
      obtain ⟨q, hn, hqP⟩ := exists_isNext hk hP
      have hkq := hn.lt
      obtain ⟨y, t, hy, ht, hround⟩ := r.rankWalk_next score val hx hi hn
      obtain ⟨t', ht', hle⟩ := tg.upTo.of_le r.sorted (show 0 < q by omega) hqP
      obtain rfl : t = t' := Option.some.inj (ht.symm.trans ht')
      rw [hround, if_pos (lt_or_eq_of_le hle)]
      have hstep := h.step hkq
      by_cases heq : q = P
      · subst heq
        obtain ⟨t0, ht0, _, hv⟩ := tg.here
        obtain rfl : t = t0 := Option.some.inj (ht.symm.trans ht0)
        rw [if_pos hv]
        refine ⟨_, rfl, hstep.congr ?_⟩
        rw [fits_step hi hn (Nat.le_refl q)]
        simp only [fits_self, and_true]
      · rw [if_neg fun hv => heq (tg.only q t (by omega) ht hv)]
        obtain ⟨rank', hrec, htally⟩ := r.rankWalk_found tg hP fuel q y _ _ (by omega) hy hn.tall
          (by omega) hstep
        refine ⟨rank', hrec, htally.congr ?_⟩
        rw [fits_step hi hn hqP, and_assoc]

/-- A level on which it does not. -/
theorem Repr.rankWalk_missed (r : Repr sl ps ts) (tg : Target ts score val P) :
    ∀ (fuel k : ℕ) (x : Ptr) (rank : UInt64) (c : Prop), ts.length < fuel + k →
      (sl.head :: ps)[k]? = some x → i < heights ts k → heights ts P ≤ i ∨ P < k →
      Tally rank k c →
      ∃ b y rank', SkipList.rankWalk sl.heap score val i fuel x rank = some (.ok (y, rank')) ∧
        (sl.head :: ps)[b]? = some y ∧ i < heights ts b ∧ k ≤ b ∧
        (∀ m, b < m → UpTo ts score m → heights ts m ≤ i) ∧ (b = k ∨ UpTo ts score b) ∧
        Tally rank' b (c ∧ Fits ts i k b)
  | 0, k, x, rank, c, hf, hx, _, _, _ => by have := r.pos_lt hx; omega
  | fuel + 1, k, x, rank, c, hf, hx, hi, hmiss, h => by
      by_cases hex : ∃ q, IsNext (heights ts) i k q
      · obtain ⟨q, hn⟩ := hex
        have hkq := hn.lt
        obtain ⟨y, t, hy, ht, hround⟩ := r.rankWalk_next score val hx hi hn
        have hqP : q ≠ P := by
          rintro rfl
          have := hn.tall
          omega
        rw [hround, if_neg (c := t.val = val) fun hv => hqP (tg.only q t (by omega) ht hv)]
        by_cases hgo : t.score < score ∨ t.score = score
        · have hup : UpTo ts score q := ⟨t, ht, le_iff_lt_or_eq.mpr hgo⟩
          rw [if_pos hgo]
          obtain ⟨b, z, rank', hrec, hz, hib, hqb, hlow, hb, htally⟩ :=
            r.rankWalk_missed tg fuel q y _ _ (by omega) hy hn.tall (by omega) (h.step hkq)
          refine ⟨b, z, rank', hrec, hz, hib, by omega, hlow, Or.inr ?_, htally.congr ?_⟩
          · rcases hb with rfl | hb
            · exact hup
            · exact hb
          · rw [fits_step hi hn hqb, and_assoc]
        · rw [if_neg hgo]
          refine ⟨k, x, rank, rfl, hx, hi, Nat.le_refl k, fun m hkm hm => ?_, Or.inl rfl, ?_⟩
          · -- the node ahead is not one it would step on, and beyond it there is none
            by_contra htall
            have hqm : q ≤ m := by
              by_contra hlt
              exact htall (hn.low m hkm (by omega))
            obtain ⟨t', ht', hle⟩ := hm.of_le r.sorted (show 0 < q by omega) hqm
            obtain rfl : t = t' := Option.some.inj (ht.symm.trans ht')
            exact hgo (lt_or_eq_of_le hle)
          · simpa only [fits_self, and_true] using h
      · obtain ⟨l, hl, hok⟩ := r.link_pos hx hi
        have hnone := hok.null fun q hq => hex ⟨q, hq⟩
        refine ⟨k, x, rank, ?_, hx, hi, Nat.le_refl k, fun m hkm _ => ?_, Or.inl rfl, ?_⟩
        · simp [SkipList.rankWalk, hl, hnone]
        · by_contra htall
          obtain ⟨q, hq, _⟩ := exists_isNext hkm (Nat.lt_of_not_le htall)
          exact hex ⟨q, hq⟩
        · simpa only [fits_self, and_true] using h

/-- Once past the element, `GetRank` does not meet it any more. -/
theorem Repr.rankDescend_passed (r : Repr sl ps ts) (tg : Target ts score val P) :
    ∀ (lvl k : ℕ) (x : Ptr) (rank : UInt64) (c : Prop), (sl.head :: ps)[k]? = some x →
      lvl ≤ heights ts k → P < k → Tally rank k c →
      SkipList.rankDescend sl.heap score val lvl x rank = some 0
  | 0, _, _, _, _, _, _, _, _ => rfl
  | lvl + 1, k, x, rank, c, hx, hlvl, hk, h => by
      obtain ⟨b, y, rank', hw, hy, hib, hkb, _, _, htally⟩ :=
        r.rankWalk_missed tg (i := lvl) sl.heap.size k x rank c
          (by have := r.length_lt_size; omega) hx (by omega) (Or.inr hk) h
      simp only [SkipList.rankDescend, hw, Option.bind_eq_bind, Option.bind_some]
      exact r.rankDescend_passed tg lvl b y rank' _ hy (by omega) (by omega) htally

/-- The links below level `lvl` from position `k` on that the search for position `P`
follows span less than `2^32`: a link of level `i` is followed when no element ahead of
it that the search would step on reaches above level `i + 1`. -/
def FitsBelow (ts : List (Tower α β)) (score : α) (P lvl k : ℕ) : Prop :=
  ∀ i, i < lvl → ∀ p q, IsNext (heights ts) i p q → i < heights ts p → k ≤ p → q ≤ P →
    (∀ m, p < m → UpTo ts score m → heights ts m ≤ i + 1) → q - p < 2 ^ 32

omit [Neg α] [One α] [Inhabited β] [DecidableEq β] in
/-- The level on which the element is met is the last one that counts. -/
theorem fitsBelow_found {lvl k : ℕ} (tg : Target ts score val P)
    (hlow : ∀ m, k < m → UpTo ts score m → heights ts m ≤ lvl + 1) (hP : heights ts P = lvl + 1) :
    FitsBelow ts score P (lvl + 1) k ↔ Fits ts lvl k P := by
  constructor
  · intro h p q hn hp hkp hqP
    exact h lvl (Nat.lt_succ_self lvl) p q hn hp hkp hqP fun m hm => hlow m (by omega)
  · intro h i hi p q hn hp hkp hqP hahead
    have hPi := hahead P (by have := hn.lt; omega) tg.upTo
    obtain rfl : i = lvl := by omega
    exact h p q hn hp hkp hqP

omit [Neg α] [One α] [Inhabited β] [DecidableEq β] in
/-- A level on which the search gets to position `b`. -/
theorem fitsBelow_missed {lvl k b : ℕ} (hkb : k ≤ b) (hbP : b < P) (htall : lvl < heights ts b)
    (hb : b = k ∨ UpTo ts score b) (tg : Target ts score val P) (hP : heights ts P ≤ lvl)
    (hlow : ∀ m, k < m → UpTo ts score m → heights ts m ≤ lvl + 1)
    (hgap : ∀ m, b < m → UpTo ts score m → heights ts m ≤ lvl)
    (hs : ts.Pairwise fun a b => a.score ≤ b.score) :
    FitsBelow ts score P (lvl + 1) k ↔ Fits ts lvl k b ∧ FitsBelow ts score P lvl b := by
  constructor
  · intro h
    refine ⟨fun p q hn hp hkp hqb => ?_, fun i hi p q hn hp hbp hqP hahead => ?_⟩
    · exact h lvl (Nat.lt_succ_self lvl) p q hn hp hkp (by omega) fun m hm => hlow m (by omega)
    · exact h i (by omega) p q hn hp (by omega) hqP hahead
  · rintro ⟨hfit, hbelow⟩ i hi p q hn hp hkp hqP hahead
    rcases Nat.eq_or_lt_of_le (Nat.le_of_lt_succ hi) with rfl | hi
    · refine hfit p q hn hp hkp ?_
      by_contra hbq
      have hq := hn.lt
      have hup := tg.upTo.of_le hs (show 0 < q by omega) hqP
      have := hgap q (by omega) hup
      have := hn.tall
      omega
    · refine hbelow i hi p q hn hp ?_ hqP hahead
      by_contra hpb
      rcases hb with rfl | hb
      · omega
      · have := hahead b (by omega) hb
        omega

/-- `GetRank` from level `lvl` down, at a position before the element and with nothing
taller than `lvl` ahead. -/
theorem Repr.rankDescend_spec (r : Repr sl ps ts) (tg : Target ts score val P) :
    ∀ (lvl k : ℕ) (x : Ptr) (rank : UInt64) (c : Prop), (sl.head :: ps)[k]? = some x →
      lvl ≤ heights ts k → k < P → (∀ m, k < m → UpTo ts score m → heights ts m ≤ lvl) →
      Tally rank k c →
      ∃ rank', SkipList.rankDescend sl.heap score val lvl x rank = some rank' ∧
        (rank'.toNat = P ↔ c ∧ (∀ m, P < m → UpTo ts score m → heights ts m ≤ heights ts P) ∧
          FitsBelow ts score P lvl k ∧ P < 2 ^ 64)
  | 0, k, x, rank, c, _, _, hk, hlow, _ => by
      -- the element itself is taller than `0`
      obtain ⟨t, ht, _⟩ := tg.here
      have hle : P ≤ ts.length := by have := (List.getElem?_eq_some_iff.mp ht).1; omega
      have h1 := hlow P hk tg.upTo
      have h2 := r.height_pos_of_le hle
      omega
  | lvl + 1, k, x, rank, c, hx, hlvl, hk, hlow, h => by
      have hfuel : ts.length < sl.heap.size + k := by have := r.length_lt_size; omega
      by_cases hP : lvl < heights ts P
      · have hPl : heights ts P = lvl + 1 := by have := hlow P hk tg.upTo; omega
        obtain ⟨rank', hw, htally⟩ :=
          r.rankWalk_found tg hP sl.heap.size k x rank c hfuel hx (by omega) hk h
        refine ⟨rank', by simp [SkipList.rankDescend, hw], ?_⟩
        rw [htally.eq_iff, fitsBelow_found tg hlow hPl]
        constructor
        · rintro ⟨⟨hc, hfit⟩, hlt⟩
          exact ⟨hc, fun m hm hup => by rw [hPl]; exact hlow m (by omega) hup, hfit, hlt⟩
        · rintro ⟨hc, _, hfit, hlt⟩
          exact ⟨⟨hc, hfit⟩, hlt⟩
      · have hP' : heights ts P ≤ lvl := by omega
        obtain ⟨b, y, rank', hw, hy, hib, hkb, hgap, hb, htally⟩ :=
          r.rankWalk_missed tg (i := lvl) sl.heap.size k x rank c hfuel hx (by omega) (Or.inl hP') h
        rcases Nat.lt_trichotomy b P with hbP | hbP | hbP
        · -- the search is still before the element
          obtain ⟨rank2, hd, hiff⟩ := r.rankDescend_spec tg lvl b y rank' _ hy (by omega) hbP hgap
            htally
          refine ⟨rank2, by simp [SkipList.rankDescend, hw, hd], ?_⟩
          rw [hiff, fitsBelow_missed hkb hbP hib hb tg hP' hlow hgap r.sorted]
          constructor
          · rintro ⟨⟨hc, h1⟩, h2, h3, h4⟩
            exact ⟨hc, h2, ⟨h1, h3⟩, h4⟩
          · rintro ⟨hc, h2, ⟨h1, h3⟩, h4⟩
            exact ⟨⟨hc, h1⟩, h2, h3, h4⟩
        · subst hbP
          omega
        · -- the search went past it
          refine ⟨0, ?_, ?_⟩
          · have hd := r.rankDescend_passed tg lvl b y rank' _ hy (by omega) hbP htally
            simp [SkipList.rankDescend, hw, hd]
          · rw [UInt64.toNat_zero]
            constructor
            · intro h0
              have := tg.pos
              omega
            · rintro ⟨_, hvis, _⟩
              have hup : UpTo ts score b := by
                rcases hb with rfl | hb
                · omega
                · exact hb
              have := hvis b hbP hup
              omega

/-- Every link that the search for position `P` follows spans less than `2^32`. -/
def SpansFit (ts : List (Tower α β)) (score : α) (P : ℕ) : Prop :=
  ∀ lvl, FitsBelow ts score P lvl 0

omit [Neg α] [One α] [Inhabited β] [DecidableEq β] in
/-- Nothing ahead of the element is taller exactly when nothing tied with it is. -/
theorem Target.noTallerTie_iff (tg : Target ts score val P)
    (hs : ts.Pairwise fun a b => a.score ≤ b.score) :
    (∀ m, P < m → UpTo ts score m → heights ts m ≤ heights ts P) ↔ NoTallerTie score val ts := by
  obtain ⟨t, ht, hts, htv⟩ := tg.here
  obtain ⟨k, rfl⟩ : ∃ k, P = k + 1 := ⟨P - 1, by have := tg.pos; omega⟩
  rw [Nat.add_sub_cancel] at ht
  have hheight : heights ts (k + 1) = t.height := heights_succ ht
  rw [hheight]
  constructor
  · intro h i j a b hij ha hb _ hav hbs
    have hi := tg.only (i + 1) a (by omega) (by simpa using ha) hav
    obtain rfl : i = k := by omega
    obtain rfl : a = t := Option.some.inj (ha.symm.trans ht)
    have hup : UpTo ts score (j + 1) := ⟨b, by simpa using hb, hbs.le⟩
    have := h (j + 1) (by omega) hup
    rwa [heights_succ hb] at this
  · rintro h m hm ⟨b, hb, hbs⟩
    obtain ⟨j, rfl⟩ : ∃ j, m = j + 1 := ⟨m - 1, by omega⟩
    rw [Nat.add_sub_cancel] at hb
    have hlt := (List.getElem?_eq_some_iff.mp ht)
    have hlt' := (List.getElem?_eq_some_iff.mp hb)
    have hge : t.score ≤ b.score := by
      rw [← hlt.2, ← hlt'.2]
      exact List.pairwise_iff_getElem.mp hs k j hlt.1 hlt'.1 (by omega)
    rw [heights_succ hb]
    exact h k j t b (by omega) ht hb hts htv (le_antisymm hbs (hts ▸ hge))

/-- What `GetRank` answers for an element of the list. -/
theorem Repr.getRank_spec (r : Repr sl ps ts) (tg : Target ts score val P) :
    ∃ rank, sl.getRank score val = some rank ∧
      (rank.toNat = P ↔ NoTallerTie score val ts ∧ SpansFit ts score P ∧ P < 2 ^ 64) := by
  have h0 : Tally 0 0 True := ⟨Nat.le_refl 0, by simp⟩
  have hlow : ∀ m, 0 < m → UpTo ts score m → heights ts m ≤ sl.level := by
    intro m _ _
    by_contra htall
    obtain ⟨q, hq, _⟩ : ∃ q, IsNext (heights ts) sl.level 0 q ∧ q ≤ m :=
      exists_isNext (by omega) (by omega)
    exact r.not_isNext_of_level_le (Nat.le_refl _) 0 q hq
  obtain ⟨rank, hd, hiff⟩ :=
    r.rankDescend_spec tg sl.level 0 sl.head 0 True rfl r.level.2 tg.pos hlow h0
  refine ⟨rank, hd, ?_⟩
  have hfit : FitsBelow ts score P sl.level 0 ↔ SpansFit ts score P := by
    constructor
    · intro h lvl i _ p q hn hp hk hqP hahead
      refine h i ?_ p q hn hp hk hqP hahead
      by_contra hi
      exact r.not_isNext_of_level_le (by omega) p q hn
    · intro h
      exact h sl.level
  rw [hiff, tg.noTallerTie_iff r.sorted, hfit, true_and]

/-- **Ranks.** After every run of `Insert`, the rank of every member is reported, and it
is the position of the member, counted from `1`, exactly when no taller node tied with it
stands after it and no counter overflows on the way. -/
theorem run_rank_iff (ins : List (Lvl × α × β)) :
    ∃ s ps, run SetOp.step (ins.map fun x => .insert x.1 x.2.1 x.2.2) SortSet.new = some s ∧
      LevelChain s.sl 0 ps ∧ ∀ data score, s.dict data = some score →
        ∃ k rank, (∀ j, ((towers s.sl ps)[j]?).map Tower.val = some data ↔ j = k) ∧
          s.getMemRank data = some (some rank) ∧
          (rank.toNat = k + 1 ↔ NoTallerTie score data (towers s.sl ps) ∧
            SpansFit (towers s.sl ps) score (k + 1) ∧ k + 1 < 2 ^ 64) := by
  obtain ⟨s, ps, ts, hrun, h, hiff⟩ :=
    run_setRepr (ins.map fun x => SetOp.insert x.1 x.2.1 x.2.2 : List (SetOp α β))
  have hsafe : AllSafe (ins.map fun x => SetOp.insert x.1 x.2.1 x.2.2 : List (SetOp α β)) := by
    intro past o rest m heq _
    have hmem : o ∈ ins.map fun x => SetOp.insert x.1 x.2.1 x.2.2 := by
      rw [heq]
      simp
    obtain ⟨x, _, rfl⟩ := List.mem_map.mp hmem
    intro ps _
    trivial
  have hexact := h.agrees_iff.mp (hiff.mpr hsafe)
  refine ⟨s, ps, hrun, h.repr.levelChain_zero, fun data score hd => ?_⟩
  rw [h.repr.towers_eq]
  obtain ⟨t, ht, hv, hs⟩ := h.covered data score hd
  obtain ⟨k, hk⟩ := List.mem_iff_getElem?.mp ht
  have honly : ∀ j t', ts[j]? = some t' → t'.val = data → j = k := fun j t' ht' hv' =>
    hexact.unique ht' hk (hv'.trans hv.symm)
  have tg : Target ts score data (k + 1) := by
    refine ⟨Nat.succ_pos k, ⟨t, by simpa using hk, hs, hv⟩, fun m t' h0 ht' hv' => ?_⟩
    have := honly _ t' ht' hv'
    omega
  obtain ⟨rank, hrank, hfinal⟩ := h.repr.getRank_spec tg
  refine ⟨k, rank, fun j => ?_, by simp [SortSet.getMemRank, hd, hrank], hfinal⟩
  constructor
  · intro hj
    obtain ⟨t', ht', hv'⟩ := Option.map_eq_some_iff.mp hj
    exact honly j t' ht' hv'
  · rintro rfl
    rw [hk, Option.map_some, hv]

/-- Two members tied at score `1`, the second one taller: the rank of the first one is
reported as `0`. -/
theorem getMemRank_zero :
    ∃ s, run SetOp.step [.insert ⟨1, by decide⟩ 1 [65], .insert ⟨2, by decide⟩ 1 [66]]
        (SortSet.new : SortSet ℤ (List UInt8)) = some s ∧
      s.dict [65] = some 1 ∧ LevelChain s.sl 0 [1, 2] ∧
      (towers s.sl [1, 2]).map Tower.val = [[65], [66]] ∧ s.getMemRank [65] = some (some 0) := by
  have hrun : ((run SetOp.step [.insert ⟨1, by decide⟩ 1 [65], .insert ⟨2, by decide⟩ 1 [66]]
      (SortSet.new : SortSet ℤ (List UInt8))).map fun s =>
        (s.dict [65], decide (LevelChain s.sl 0 [1, 2]),
          decide ((towers s.sl [1, 2]).map Tower.val = [[65], [66]]),
          decide (s.getMemRank [65] = some (some 0)))) = some (some 1, true, true, true) := by
    decide +kernel
  obtain ⟨s, hs, hfacts⟩ := Option.map_eq_some_iff.mp hrun
  simp only [Prod.mk.injEq, decide_eq_true_eq] at hfacts
  exact ⟨s, hs, hfacts⟩

end LibC
