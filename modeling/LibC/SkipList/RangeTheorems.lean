/-
LibC.SkipList.RangeTheorems — range queries.

A search whose loop condition holds of a prefix of the elements ends on the
last one of that prefix (`Repr.descend_prefix`), whatever the heights. Both
score queries are such searches, and so is the query by position.

`FirstInRangeByScore` is exact. `LastInRangeByScore` compares the score of the
node its search ended on, and when no element is small enough that node is the
head, whose score is `-1`: `run_scoreRange_iff` says that the two queries are
exact for every interval but those that begin at or below `-1` and end below
every element.

No `sorry`, no `axiom`, no `native_decide`.
-/
import LibC.SkipList.IterTheorems
import LibC.SkipList.Query
import LibC.SkipList.SortSetTheorems

namespace LibC

open LibC.Lib LibC.Lib.Tower

variable {α β γ : Type} [LinearOrder α] [Neg α] [One α] [Inhabited β]
variable {sl : SkipList α β} {ps : List Ptr} {ts : List (Tower α β)}

/-! ## Searches for a prefix -/

omit [Neg α] [One α] [Inhabited β] in
/-- In order of score, a condition that smaller scores inherit holds of a prefix. -/
theorem sorted_split {P : α → Prop} [DecidablePred P] (hP : ∀ a b, a ≤ b → P b → P a) :
    ∀ ts : List (Tower α β), (ts.Pairwise fun a b => a.score ≤ b.score) →
      ∃ B, B ≤ ts.length ∧ ∀ k t, ts[k]? = some t → (P t.score ↔ k < B)
  | [], _ => ⟨0, Nat.le_refl _, fun k t h => by simp at h⟩
  | t0 :: ts, hs => by
      obtain ⟨hle, hs⟩ := List.pairwise_cons.mp hs
      by_cases h0 : P t0.score
      · obtain ⟨B, hB, hsplit⟩ := sorted_split hP ts hs
        refine ⟨B + 1, Nat.succ_le_succ hB, fun k t ht => ?_⟩
        rcases k with _ | k
        · simp only [List.getElem?_cons_zero, Option.some.injEq] at ht
          subst ht
          simp [h0]
        · rw [hsplit k t (by simpa using ht)]
          omega
      · refine ⟨0, Nat.zero_le _, fun k t ht => ?_⟩
        have hno : ¬ P t.score := by
          rcases k with _ | k
          · simp only [List.getElem?_cons_zero, Option.some.injEq] at ht
            rwa [← ht]
          · have hmem := List.mem_of_getElem? (show ts[k]? = some t by simpa using ht)
            exact fun h => h0 (hP _ _ (hle t hmem) h)
        simp [hno]

/-- A search that steps on exactly the first `B` elements ends on the `B`-th. -/
theorem Repr.descend_prefix (r : Repr sl ps ts)
    {go : γ → SkipListLevel → SkipListNode α β → Bool} {add : γ → SkipListLevel → γ}
    {acc : ℕ → γ} {adv : ℕ → Prop} (hs : LinkSteps ts go add acc adv) (path : SkipList.Path γ)
    {B : ℕ} (hB : B ≤ ts.length) (hadv : ∀ m, 0 < m → m ≤ ts.length → (adv m ↔ m ≤ B)) :
    ∃ x path', SkipList.descend sl.heap go add sl.level sl.head (acc 0) path =
      some (x, acc B, path') ∧ (sl.head :: ps)[B]? = some x := by
  obtain ⟨stops, x, path', hd, d, hx, _⟩ := descend_spec r hs path
  have hfin : stops 0 = B := by
    refine d.final_of_prefix r.level.1 (fun m h0 htall => hadv m h0 ?_)
      fun m _ hm => r.height_pos_of_le (Nat.le_trans hm hB)
    by_contra hgt
    rw [heights_of_gt (by omega)] at htall
    omega
  rw [hfin] at hd hx
  exact ⟨x, path', hd, hx⟩

omit [LinearOrder α] [Neg α] [One α] [Inhabited β] in
/-- A search that looks at the score ahead and counts nothing. -/
theorem steps_score (ts : List (Tower α β)) (P : α → Prop) [DecidablePred P] :
    Steps ts (fun _ _ nd => decide (P nd.score)) (fun (_ : Unit) _ => ()) (fun _ => ())
      (fun q => ∃ t, ts[q - 1]? = some t ∧ P t.score) := by
  refine ⟨fun _ _ _ _ _ _ => rfl, fun k q l nd t _ _ _ ht hsc _ => ?_⟩
  rw [decide_eq_true_iff, hsc]
  constructor
  · intro h
    exact ⟨t, ht, h⟩
  · rintro ⟨t', ht', h⟩
    rw [ht] at ht'
    cases ht'
    exact h

/-- A search for the last element with a score in a lower set. -/
theorem Repr.descend_score (r : Repr sl ps ts) {P : α → Prop} [DecidablePred P] {B : ℕ}
    (hB : B ≤ ts.length) (hsplit : ∀ k t, ts[k]? = some t → (P t.score ↔ k < B)) :
    ∃ x path', SkipList.descend sl.heap (fun _ _ nd => decide (P nd.score)) (fun _ _ => ())
      sl.level sl.head () ⟨fun _ => none, fun _ => ()⟩ = some (x, (), path') ∧
      (sl.head :: ps)[B]? = some x := by
  refine r.descend_prefix (steps_score ts P).onLinks _ hB fun m h0 hm => ?_
  obtain ⟨k, rfl⟩ : ∃ k, m = k + 1 := ⟨m - 1, by omega⟩
  have hk : ts[k]? = some ts[k] := List.getElem?_eq_getElem (by omega)
  simp only [Nat.add_sub_cancel, hk, Option.some.injEq, exists_eq_left', hsplit k _ hk]
  omega

/-! ## The end of the list -/

/-- The last element. -/
theorem Repr.tail_node (r : Repr sl ps ts) (hne : ts ≠ []) :
    ∃ x nd l t, sl.tail = some x ∧ ps[ts.length - 1]? = some x ∧ sl.heap.get x = some nd ∧
      getLevel sl.heap x 0 = some l ∧ l.forward = none ∧ ts[ts.length - 1]? = some t ∧
      nd.score = t.score := by
  obtain ⟨x, l, htail, hl, hf⟩ := r.tail_link hne
  have hx : ps[ts.length - 1]? = some x := by
    rw [← r.len, ← List.getLast?_eq_getElem?, ← r.tail, htail]
  obtain ⟨t, nd, ht, hg, hs, _⟩ := r.get_pos hx
  exact ⟨x, nd, l, t, htail, hx, hg, hl, hf, ht, hs⟩

/-- `end()` of a list with an element. -/
theorem Repr.endItr_eq (r : Repr sl ps ts) (hne : ts ≠ []) : sl.endItr = some ⟨none, none⟩ := by
  obtain ⟨x, l, htail, hl, hf⟩ := r.tail_link hne
  simp [SkipList.endItr, htail, hl, hf]

/-- The node a search ended before. -/
theorem Repr.next_pos (r : Repr sl ps ts) {B : ℕ} {x : Ptr} (hx : (sl.head :: ps)[B]? = some x) :
    ∃ l, getLevel sl.heap x 0 = some l ∧ l.forward = ps[B]? := by
  obtain ⟨l, hl, _⟩ := r.link_pos hx (i := 0) (r.height_pos_of_le (r.pos_lt hx))
  exact ⟨l, hl, by rw [r.forward_zero hx hl, List.getElem?_cons_succ]⟩

/-! ## `Search` -/

omit [Neg α] [One α] [Inhabited β] in
/-- In order of score, the first element with a score comes right behind the smaller ones. -/
theorem find?_sorted {score : α} : ∀ (L : List (α × β)) (A : ℕ),
    (L.Pairwise fun a b => a.1 ≤ b.1) → (∀ k p, L[k]? = some p → (p.1 < score ↔ k < A)) →
    L.find? (fun p => decide (p.1 = score)) = L[A]?.filter fun p => decide (p.1 = score)
  | [], _, _, _ => by simp
  | p :: L, 0, hs, hA => by
      have hp : ¬ p.1 < score := fun h => absurd ((hA 0 p rfl).mp h) (Nat.lt_irrefl 0)
      rw [List.getElem?_cons_zero, Option.filter_some]
      by_cases heq : p.1 = score
      · simp [heq]
      · -- the others are not smaller than the first, and it is too large
        have hlt : score < p.1 := lt_of_le_of_ne (not_lt.mp hp) (Ne.symm heq)
        have hno : ∀ q ∈ L, q.1 ≠ score := fun q hq =>
          ne_of_gt (lt_of_lt_of_le hlt ((List.pairwise_cons.mp hs).1 q hq))
        simpa [heq, List.find?_eq_none] using fun a b hab => hno (a, b) hab
  | p :: L, A + 1, hs, hA => by
      have hp : p.1 < score := (hA 0 p rfl).mpr (Nat.succ_pos A)
      have ih := find?_sorted L A (List.pairwise_cons.mp hs).2 fun k q hq => by
        rw [hA (k + 1) q (by simpa using hq)]
        omega
      rw [List.find?_cons_of_neg (by simpa using hp.ne), ih, List.getElem?_cons_succ]

/-- `Search` answers the value of the first element with the score. -/
theorem Repr.search_eq (r : Repr sl ps ts) (score : α) :
    sl.search score =
      some (((sl.pairs.find? fun p => decide (p.1 = score)).map Prod.snd).getD default) := by
  obtain ⟨A, hA, hsplit⟩ := sorted_split (P := fun x => x < score)
    (fun _ _ => lt_of_le_of_lt) ts r.sorted
  have hpairs : ∀ k : ℕ, sl.pairs[k]? = ts[k]?.map fun t => (t.score, t.val) := fun k => by
    rw [r.pairs_eq, List.getElem?_map]
  have hfind : sl.pairs.find? (fun p => decide (p.1 = score)) = _ := find?_sorted sl.pairs A
    (by rw [r.pairs_eq, List.pairwise_map]; exact r.sorted) fun k p hp => by
      rw [hpairs, Option.map_eq_some_iff] at hp
      obtain ⟨t, ht, rfl⟩ := hp
      exact hsplit k t ht
  obtain ⟨x, path', hd, hx⟩ := r.descend_score (P := fun x => x < score) hA hsplit
  obtain ⟨l, hl, hf⟩ := r.next_pos hx
  rw [hfind, hpairs]
  simp only [SkipList.search, hd, hl, hf, Option.bind_eq_bind, Option.bind_some]
  cases hp : ps[A]? with
  | none =>
      have hlen := List.getElem?_eq_none_iff.mp hp
      rw [List.getElem?_eq_none (by have := r.len; omega)]
      rfl
  | some p =>
      obtain ⟨t, nd, ht, hg, hs, hv⟩ := r.get_pos hp
      rw [ht, Option.map_some, Option.filter_some]
      by_cases heq : t.score = score
      · simp [hg, hs, hv, heq]
      · simp [hg, hs, heq]

/-! ## Ranges of positions -/

/-- The elements at the positions `a, …, b - 1`. -/
def slice {δ : Type} (l : List δ) (a b : ℕ) : List δ := (l.take b).drop a

theorem slice_nil {δ : Type} (a b : ℕ) : slice ([] : List δ) a b = [] := by simp [slice]

theorem slice_empty {δ : Type} (l : List δ) {a b : ℕ} (h : b ≤ a) : slice l a b = [] := by
  refine List.drop_eq_nil_of_le ?_
  rw [List.length_take]
  omega

/-- A condition that holds from position `a` to position `b - 1` and nowhere else picks
that slice. -/
theorem filter_eq_slice {δ : Type} {p : δ → Bool} : ∀ (l : List δ) (a b : ℕ),
    (∀ k x, l[k]? = some x → (p x = true ↔ a ≤ k ∧ k < b)) → l.filter p = slice l a b
  | [], a, b, _ => by rw [slice_nil]; rfl
  | x :: l, a, b, h => by
      have h0 := h 0 x rfl
      have htl : ∀ k y, l[k]? = some y → (p y = true ↔ a - 1 ≤ k ∧ k < b - 1 ∧ a ≤ k + 1) :=
        fun k y hy => by rw [h (k + 1) y (by simpa using hy)]; omega
      have ih := filter_eq_slice l (a - 1) (b - 1) fun k y hy => by rw [htl k y hy]; omega
      by_cases hp : p x = true
      · obtain ⟨ha, hb⟩ := h0.mp hp
        obtain rfl : a = 0 := by omega
        obtain ⟨b, rfl⟩ : ∃ c, b = c + 1 := ⟨b - 1, by omega⟩
        rw [List.filter_cons_of_pos hp, ih]
        simp [slice]
      · rw [List.filter_cons_of_neg hp, ih]
        rcases a with _ | a
        · have hb : b = 0 := by
            by_contra hb
            exact hp (h0.mpr ⟨Nat.le_refl 0, by omega⟩)
          rw [slice_empty l (by omega), slice_empty (x :: l) (by omega)]
        · rcases b with _ | b
          · rw [slice_empty l (by omega), slice_empty (x :: l) (by omega)]
          · simp [slice]

theorem slice_head? {δ : Type} (l : List δ) {a b : ℕ} (hab : a < b) :
    (slice l a b).head? = l[a]? := by
  rw [slice, List.head?_drop, List.getElem?_take_of_lt hab]

theorem slice_getLast? {δ : Type} {l : List δ} {a b : ℕ} (hab : a < b) (hb : b ≤ l.length) :
    (slice l a b).getLast? = l[b - 1]? := by
  rw [slice, List.getLast?_drop, if_neg (by rw [List.length_take]; omega),
    List.getLast?_eq_getElem?, List.length_take, Nat.min_eq_left hb,
    List.getElem?_take_of_lt (by omega)]

theorem slice_cons {δ : Type} {l : List δ} {a b : ℕ} (hab : a < b) (ha : a < l.length) :
    slice l a b = l[a] :: slice l (a + 1) b := by
  have h : a < (l.take b).length := by rw [List.length_take]; omega
  rw [slice, List.drop_eq_getElem_cons h, List.getElem_take, slice]

/-- An iterator on an element reads it, and is advanced to the next one. -/
theorem Repr.itr_next (r : Repr sl ps ts) {k : ℕ} {p : Ptr} (hp : ps[k]? = some p) :
    ∃ nd, sl.heap.get p = some nd ∧ sl.pairs[k]? = some (nd.score, nd.val) ∧
      SkipList.Itr.next sl.heap ⟨some p, none⟩ = some ⟨ps[k + 1]?, none⟩ := by
  obtain ⟨hk, rfl⟩ := List.getElem?_eq_some_iff.mp hp
  obtain ⟨nd, l, hg, hlv, hf⟩ := r.node_pos hk
  obtain ⟨t, nd', ht, hg', hs, hv⟩ := r.get_pos hp
  rw [hg] at hg'
  cases hg'
  refine ⟨nd, hg, ?_, ?_⟩
  · rw [r.pairs_eq, List.getElem?_map, ht, Option.map_some, hs, hv]
  · simp [SkipList.Itr.next, getLevel, hg, hlv, hf]

/-- A walk from one element to another visits these and the elements in between. -/
theorem Repr.visit_eq (r : Repr sl ps ts) : ∀ (n a fuel : ℕ) (p q : Ptr), ps[a]? = some p →
    ps[a + n]? = some q → n < fuel →
    sl.visit fuel ⟨some p, none⟩ ⟨some q, none⟩ =
      some ((slice ps a (a + n + 1)).filterMap sl.heap.get)
  | n, a, fuel + 1, p, q, hp, hq, hf => by
      obtain ⟨ha, rfl⟩ := List.getElem?_eq_some_iff.mp hp
      obtain ⟨nd, hg, _, hnext⟩ := r.itr_next hp
      have hne : ts ≠ [] := by
        rintro rfl
        have := r.len
        simp only [List.length_nil] at this
        omega
      rw [slice_cons (by omega) ha, List.filterMap_cons_some hg]
      rcases n with _ | n
      · -- the last one
        obtain rfl : ps[a] = q := by
          rw [Nat.add_zero, hp] at hq
          exact Option.some.inj hq
        rw [slice_empty ps (by omega), List.filterMap_nil]
        simp [SkipList.visit, r.endItr_eq hne, hg]
      · have hpq : ps[a] ≠ q := by
          rintro rfl
          have h1 : (sl.head :: ps)[a + 1]? = some ps[a] := by rwa [List.getElem?_cons_succ]
          have h2 : (sl.head :: ps)[a + (n + 1) + 1]? = some ps[a] := by
            rwa [List.getElem?_cons_succ]
          have := r.pos_inj h1 h2
          omega
        have hlt : a + (n + 1) < ps.length := (List.getElem?_eq_some_iff.mp hq).1
        have hp' : ps[a + 1]? = some ps[a + 1] := List.getElem?_eq_getElem (by omega)
        have ih := r.visit_eq n (a + 1) fuel ps[a + 1] q hp'
          (by rw [← hq]; congr 1; omega) (by omega)
        rw [show a + (n + 1) + 1 = a + 1 + n + 1 by omega]
        simp only [SkipList.visit, r.endItr_eq hne, hg, hnext, hp', ih, Option.bind_eq_bind,
          Option.bind_some, ne_eq, reduceCtorEq, not_false_eq_true, Option.some.injEq, hpq,
          and_self, if_true]

/-! ## Ranges of scores -/

omit [Neg α] [One α] in
/-- The swap of the bounds. -/
theorem swap_eq (a b : α) : (if b < a then (b, a) else (a, b)) = (min a b, max a b) := by
  by_cases h : b < a
  · rw [if_pos h, min_eq_right h.le, max_eq_left h.le]
  · rw [if_neg h, min_eq_left (not_lt.mp h), max_eq_right (not_lt.mp h)]

/-- `A` elements lie below the interval between the bounds `a` and `b`, and `B` elements
do not lie above it. -/
structure Cut (ts : List (Tower α β)) (a b : α) (A B : ℕ) : Prop where
  below : ∀ k t, ts[k]? = some t → (t.score < min a b ↔ k < A)
  upTo : ∀ k t, ts[k]? = some t → (t.score ≤ max a b ↔ k < B)
  le : A ≤ ts.length ∧ B ≤ ts.length

omit [Neg α] [One α] [Inhabited β] in
/-- Every interval cuts a sorted list. -/
theorem exists_cut (hs : ts.Pairwise fun a b => a.score ≤ b.score) (a b : α) :
    ∃ A B, Cut ts a b A B := by
  obtain ⟨A, hA, h1⟩ := sorted_split (P := fun x => x < min a b) (fun _ _ => lt_of_le_of_lt) ts hs
  obtain ⟨B, hB, h2⟩ := sorted_split (P := fun x => x ≤ max a b) (fun _ _ => le_trans) ts hs
  exact ⟨A, B, h1, h2, hA, hB⟩

variable {a b : α} {A B : ℕ}

/-- `FirstInRangeByScore` answers the first element that is not below, unless it is
above. -/
theorem Repr.firstInRangeByScore_eq (r : Repr sl ps ts) (hne : ts ≠ []) (c : Cut ts a b A B) :
    sl.firstInRangeByScore a b = some ⟨if A < B then ps[A]? else none, none⟩ := by
  obtain ⟨x, nd, l, t, htail, _, hg, hl, hf, ht, hsc⟩ := r.tail_node hne
  have hpos := List.length_pos_iff.mpr hne
  rw [SkipList.firstInRangeByScore, swap_eq]
  simp only [htail, hg, hsc, Option.bind_eq_bind, Option.bind_some]
  by_cases hbelow : t.score < min a b
  · have hlt := (c.below _ _ ht).mp hbelow
    have := c.le
    rw [if_pos hbelow, r.endItr_eq hne, if_neg (by omega)]
  · have hA : A < ts.length := by
      have := (c.below _ _ ht).not.mp hbelow
      omega
    obtain ⟨y, path', hd, hy⟩ := r.descend_score (P := fun x => x < min a b) c.le.1 c.below
    obtain ⟨l', hl', hf'⟩ := r.next_pos hy
    have hA' : A < ps.length := by rw [r.len]; exact hA
    have hp : ps[A]? = some ps[A] := List.getElem?_eq_getElem hA'
    obtain ⟨t', nd', ht', hg', hs', _⟩ := r.get_pos hp
    have hup := c.upTo _ _ ht'
    rw [if_neg hbelow]
    simp only [hd, hl', hf', hp, hg', hs', Option.bind_some]
    by_cases hAB : A < B
    · rw [if_neg (not_lt.mpr (hup.mpr hAB)), if_pos hAB, hl, Option.bind_some, hf]
    · rw [if_pos (not_le.mp (hup.not.mpr hAB)), if_neg hAB, r.endItr_eq hne]

/-- `LastInRangeByScore` answers the last element that is not above, unless it is below.
When every element is above, it answers the head, unless `-1` is below. -/
theorem Repr.lastInRangeByScore_eq (r : Repr sl ps ts) (hne : ts ≠ []) (c : Cut ts a b A B) :
    sl.lastInRangeByScore a b = some ⟨if A < B then ps[B - 1]?
      else if B = 0 ∧ min a b ≤ -1 then some sl.head else none, none⟩ := by
  obtain ⟨x, nd, l, t, htail, hx, hg, hl, hf, ht, hsc⟩ := r.tail_node hne
  have hpos := List.length_pos_iff.mpr hne
  have hle := c.le
  rw [SkipList.lastInRangeByScore, swap_eq]
  simp only [htail, hg, hsc, Option.bind_eq_bind, Option.bind_some]
  by_cases hbelow : t.score < min a b
  · -- everything is below
    have h1 := (c.below _ _ ht).mp hbelow
    have h2 := (c.upTo _ _ ht).mp (le_trans hbelow.le min_le_max)
    rw [if_pos hbelow, r.endItr_eq hne, if_neg (by omega), if_neg (by omega)]
  have h1 := (c.below _ _ ht).not.mp hbelow
  rw [if_neg hbelow]
  by_cases hup : t.score ≤ max a b
  · -- the shortcut through `tail_`
    have h2 := (c.upTo _ _ ht).mp hup
    rw [if_pos hup, hl, Option.bind_some, hf, if_pos (by omega), ← hx]
    congr 2
    congr 1
    omega
  · have h2 := (c.upTo _ _ ht).not.mp hup
    obtain ⟨y, path', hd, hy⟩ := r.descend_score (P := fun x => x ≤ max a b) hle.2 c.upTo
    rw [if_neg hup, hd, Option.bind_some]
    rcases B with _ | B
    · -- the search stayed on the head
      obtain rfl : sl.head = y := by simpa using hy
      obtain ⟨t', ht', hd'⟩ := r.exists_data (k := 0) (p := sl.head) rfl
      obtain rfl : headTower = t' := by simpa using ht'
      obtain ⟨hn, hhg, hhs, _⟩ := get_of_nodeData hd'
      simp only [hhg, hhs, headTower, Option.bind_some, hl, hf]
      by_cases hlo : (-1 : α) < min a b
      · rw [if_pos hlo, r.endItr_eq hne, if_neg (by omega),
          if_neg fun h => absurd hlo (not_lt.mpr h.2)]
      · rw [if_neg hlo, if_neg (by omega), if_pos ⟨trivial, not_lt.mp hlo⟩]
    · rw [List.getElem?_cons_succ] at hy
      obtain ⟨t', nd', ht', hg', hs', _⟩ := r.get_pos hy
      have hb := c.below _ _ ht'
      simp only [hg', hs', Option.bind_some, hl, hf]
      by_cases hAB : A < B + 1
      · rw [if_neg (hb.not.mpr (by omega)), if_pos hAB, Nat.add_sub_cancel, hy]
      · rw [if_pos (hb.mpr (by omega)), r.endItr_eq hne, if_neg hAB, if_neg (by omega)]

/-- The nodes whose score lies between `a` and `b`. -/
def inRange (h : Heap (SkipListNode α β)) (a b : α) (p : Ptr) : Bool :=
  match h.get p with
  | some nd => decide (min a b ≤ nd.score ∧ nd.score ≤ max a b)
  | none => false

/-- The two iterators are the ends of what lies between `a` and `b` in the list `ps`, or
`end()`; neither is the head, and the walk between them visits what lies in between. -/
structure RangeEnds (sl : SkipList α β) (ps : List Ptr) (a b : α)
    (first last e : SkipList.Itr) : Prop where
  isFirst : first.pos = (ps.filter (inRange sl.heap a b)).head?.or e.pos
  isLast : last.pos = (ps.filter (inRange sl.heap a b)).getLast?.or e.pos
  notHead : first.pos ≠ some sl.head ∧ last.pos ≠ some sl.head
  walk : sl.visit (sl.heap.size + 1) first last =
    some ((ps.filter (inRange sl.heap a b)).filterMap sl.heap.get)

/-- The two score queries answer the ends of the range. -/
def ScoreRangeExact (sl : SkipList α β) (ps : List Ptr) (a b : α) : Prop :=
  ∃ first last e, sl.firstInRangeByScore a b = some first ∧
    sl.lastInRangeByScore a b = some last ∧ sl.endItr = some e ∧
    RangeEnds sl ps a b first last e

/-- The interval begins at or below `-1` and ends below every element. -/
def BelowAll (sl : SkipList α β) (ps : List Ptr) (a b : α) : Prop :=
  min a b ≤ -1 ∧ ∀ p ∈ ps, ∀ nd, sl.heap.get p = some nd → max a b < nd.score

/-- The elements in a range are a slice. -/
theorem Repr.filter_inRange (r : Repr sl ps ts) (c : Cut ts a b A B) :
    ps.filter (inRange sl.heap a b) = slice ps A B := by
  refine filter_eq_slice ps A B fun k p hp => ?_
  obtain ⟨t, nd, ht, hg, hs, _⟩ := r.get_pos hp
  have h1 := c.below k t ht
  have h2 := c.upTo k t ht
  simp only [inRange, hg, hs, decide_eq_true_eq, ← not_lt (a := t.score) (b := min a b), h1, h2]
  omega

/-- No element is small enough exactly when every one is above the bounds. -/
theorem Repr.upTo_zero_iff (r : Repr sl ps ts) (c : Cut ts a b A B) :
    B = 0 ↔ ∀ p ∈ ps, ∀ nd, sl.heap.get p = some nd → max a b < nd.score := by
  constructor
  · rintro rfl p hp nd hg
    obtain ⟨k, hk⟩ := List.mem_iff_getElem?.mp hp
    obtain ⟨t, nd', ht, hg', hs, _⟩ := r.get_pos hk
    rw [hg] at hg'
    cases hg'
    rw [hs]
    exact not_le.mp ((c.upTo k t ht).not.mpr (by omega))
  · intro h
    by_contra hB
    have hlen : 0 < ps.length := by have := c.le; have := r.len; omega
    obtain ⟨t, nd, ht, hg, hs, _⟩ := r.get_pos (List.getElem?_eq_getElem hlen)
    have hlt := h _ (List.getElem_mem hlen) nd hg
    rw [hs] at hlt
    exact absurd ((c.upTo 0 t ht).mpr (by omega)) (not_le.mpr hlt)

/-- The queries are exact unless the search for the last element stays on the head and
takes it for an element. -/
theorem Repr.scoreRange_iff (r : Repr sl ps ts) (hne : ts ≠ []) (a b : α) :
    ScoreRangeExact sl ps a b ↔ ¬ BelowAll sl ps a b := by
  obtain ⟨A, B, c⟩ := exists_cut r.sorted a b
  have hfirst := r.firstInRangeByScore_eq hne c
  have hlast := r.lastInRangeByScore_eq hne c
  have hend := r.endItr_eq hne
  have hlen := r.len
  have hle := c.le
  rw [BelowAll, ← r.upTo_zero_iff c]
  constructor
  · rintro ⟨first, last, e, h1, h2, h3, hends⟩ ⟨hlo, rfl⟩
    rw [hlast, if_neg (by omega), if_pos ⟨rfl, hlo⟩] at h2
    cases h2
    exact hends.notHead.2 rfl
  · intro hno
    rw [if_neg (c := B = 0 ∧ min a b ≤ -1) fun h => hno h.symm] at hlast
    refine ⟨_, _, _, hfirst, hlast, hend, ?_⟩
    by_cases hAB : A < B
    · have hA : A < ps.length := by omega
      have hB : B - 1 < ps.length := by omega
      have hhead : ∀ k, ps[k]? ≠ some sl.head := fun k hk =>
        (List.nodup_cons.mp r.nodup).1 (List.mem_of_getElem? hk)
      rw [if_pos hAB, if_pos hAB]
      refine ⟨?_, ?_, ⟨hhead A, hhead (B - 1)⟩, ?_⟩
      · rw [r.filter_inRange c, slice_head? ps hAB, Option.or_none]
      · rw [r.filter_inRange c, slice_getLast? hAB (by omega), Option.or_none]
      · rw [r.filter_inRange c, List.getElem?_eq_getElem hA, List.getElem?_eq_getElem hB,
          r.visit_eq (B - 1 - A) A _ ps[A] ps[B - 1] (List.getElem?_eq_getElem hA)
            (by rw [Nat.add_sub_cancel' (by omega), List.getElem?_eq_getElem hB])
            (by have := r.length_lt_size; omega)]
        congr 3
        omega
    · rw [if_neg hAB, if_neg hAB]
      have hnil : slice ps A B = [] := slice_empty ps (by omega)
      refine ⟨?_, ?_, ⟨Option.some_ne_none _ |>.symm, Option.some_ne_none _ |>.symm⟩, ?_⟩
      · rw [r.filter_inRange c, hnil]; rfl
      · rw [r.filter_inRange c, hnil]; rfl
      · rw [r.filter_inRange c, hnil]
        simp [SkipList.visit, hend]

variable [DecidableEq β]

/-- **Score ranges.** After every run of `Insert` and `Delete` that leaves an element in
the list, the two queries are exact for every interval but those that begin at or below
`-1` and end below every element. -/
theorem run_scoreRange_iff (ops : List (ListOp α β)) :
    ∃ sl, run ListOp.step ops SkipList.new = some sl ∧ ∀ ps, LevelChain sl 0 ps → ps ≠ [] →
      ∀ a b, ScoreRangeExact sl ps a b ↔ ¬ BelowAll sl ps a b := by
  obtain ⟨sl, hrun, ps, ts, r⟩ := run_repr ops
  refine ⟨sl, hrun, fun qs hchain hne a b => ?_⟩
  obtain rfl := hchain.unique r.levelChain_zero
  refine r.scoreRange_iff (fun hts => hne ?_) a b
  have := r.len
  rw [hts] at this
  exact List.eq_nil_of_length_eq_zero this

/-- One element of score `5`: the last one between `-10` and `-2` is the head. -/
theorem lastInRange_head :
    ∃ sl ps, run ListOp.step [.insert ⟨1, by decide⟩ 5 [65]]
        (SkipList.new : SkipList ℤ (List UInt8)) = some sl ∧
      LevelChain sl 0 ps ∧ ps ≠ [] ∧
      sl.lastInRangeByScore (-10) (-2) = some ⟨some sl.head, none⟩ ∧
      ¬ ScoreRangeExact sl ps (-10) (-2) := by
  have hrun : ((run ListOp.step [.insert ⟨1, by decide⟩ 5 [65]]
      (SkipList.new : SkipList ℤ (List UInt8))).map fun sl =>
        (decide (LevelChain sl 0 [1]),
          decide (sl.lastInRangeByScore (-10) (-2) = some ⟨some sl.head, none⟩))) =
      some (true, true) := by decide +kernel
  obtain ⟨sl, hs, hfacts⟩ := Option.map_eq_some_iff.mp hrun
  simp only [Prod.mk.injEq, decide_eq_true_eq] at hfacts
  refine ⟨sl, [1], hs, hfacts.1, by simp, hfacts.2, ?_⟩
  rintro ⟨first, last, e, _, hlast, _, hends⟩
  rw [hfacts.2] at hlast
  cases hlast
  exact hends.notHead.2 rfl

end LibC
