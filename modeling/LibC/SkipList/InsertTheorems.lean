/-
LibC.SkipList.InsertTheorems — `Insert` splices one tower in.

`insert_spec`: on a heap that holds `ts`, `Insert` never dereferences a bad
pointer, terminates, and leaves a heap that holds `ts` with the new tower at
the position `stops 0` where the search ended, in a node at a fresh address.
The position depends on the search alone (`stops` is a `Descent` over the
heights of `ts`), not on the height drawn for the new node.

The loops of `Insert` are taken one by one. Opening new levels writes spans of
null links only (`openLevels_spec`), so the heap still holds `ts`; linking and
counting rewrite at level `i` only (`linkLevels_spec`, `bumpSpans_spec`), where
the node to rewrite is `update[i]`, the last one at or before the end of the
search that reaches level `i` (`Descent.gap`).

No `sorry`, no `axiom`, no `native_decide`.
-/
import LibC.SkipList.Search
import LibC.SkipList.Splice

namespace LibC

open LibC.Lib LibC.Lib.Tower

variable {α β : Type} [LinearOrder α] [DecidableEq β] [Neg α] [One α] [Inhabited β]
variable {sl : SkipList α β} {ps : List Ptr} {ts : List (Tower α β)}

/-! ## The search of `Insert` and `Delete` -/

/-- `before`, on towers. -/
def Before (score : α) (val : β) (t : Tower α β) : Prop :=
  t.score < score ∨ (t.score = score ∧ t.val ≠ val)

instance (score : α) (val : β) (t : Tower α β) : Decidable (Before score val t) :=
  inferInstanceAs (Decidable (_ ∨ _))

/-- `Before`, on positions. -/
def BeforeAt (ts : List (Tower α β)) (score : α) (val : β) (q : ℕ) : Prop :=
  ∃ t, ts[q - 1]? = some t ∧ Before score val t

omit [Neg α] [One α] [Inhabited β] in
theorem before_iff {score : α} {val : β} {nd : SkipListNode α β} {t : Tower α β}
    (hs : nd.score = t.score) (hv : nd.val = t.val) :
    SkipList.before score val nd = true ↔ Before score val t := by
  simp [SkipList.before, Before, hs, hv]

omit [Neg α] [One α] [Inhabited β] in
/-- The loop of `Insert` counts positions, modulo `2^32`. -/
theorem steps_insert (ts : List (Tower α β)) (score : α) (val : β) :
    Steps ts (fun _ _ nd => SkipList.before score val nd) (fun r l => r + l.span)
      UInt32.ofNat (BeforeAt ts score val) := by
  refine ⟨fun k q l hkq _ hsp => ?_, fun k q l nd t _ _ _ ht hs hv => ?_⟩
  · rw [hsp, ← UInt32.ofNat_add, Nat.add_sub_cancel' (Nat.le_of_lt hkq)]
  · rw [before_iff hs hv]
    exact ⟨fun h => ⟨t, ht, h⟩, fun ⟨t', ht', h⟩ => by rw [ht] at ht'; cases ht'; exact h⟩

omit [Neg α] [One α] [Inhabited β] in
/-- The loop of `Delete` counts nothing. -/
theorem steps_delete (ts : List (Tower α β)) (score : α) (val : β) :
    Steps ts (fun _ _ nd => SkipList.before score val nd) (fun (_ : Unit) _ => ())
      (fun _ => ()) (BeforeAt ts score val) := by
  refine ⟨fun _ _ _ _ _ _ => rfl, fun k q l nd t _ _ _ ht hs hv => ?_⟩
  rw [before_iff hs hv]
  exact ⟨fun h => ⟨t, ht, h⟩, fun ⟨t', ht', h⟩ => by rw [ht] at ht'; cases ht'; exact h⟩

/-! ## Where a search stopped -/

section Stops

variable {adv : ℕ → Prop} {stops : ℕ → ℕ}

omit [DecidableEq β] in
/-- Between the stop of any level and the end of the search there is no node that
reaches the level. -/
theorem Repr.gap (r : Repr sl ps ts) (d : Descent (heights ts) adv sl.level stops) {i m : ℕ}
    (h1 : stops i < m) (h2 : m ≤ stops 0) : heights ts m ≤ i := by
  rcases Nat.lt_or_ge i sl.level with hi | hi
  · exact d.gap hi h1 h2
  · exact r.height_le hi (Nat.zero_lt_of_lt h1)

omit [DecidableEq β] in
/-- Every node reaches level `0`. -/
theorem Repr.height_pos_of_le (r : Repr sl ps ts) {m : ℕ} (hm : m ≤ ts.length) :
    0 < heights ts m := by
  rcases m with _ | m
  · exact Nat.zero_lt_succ _
  · have hlt : m < ts.length := by omega
    rw [heights_succ (List.getElem?_eq_getElem hlt)]
    have := (r.tall _ (List.getElem_mem hlt)).1
    omega

omit [LinearOrder α] [DecidableEq β] [Neg α] [One α] [Inhabited β] in
/-- A search ends inside the list. -/
theorem stop_le_length {lvl : ℕ} (d : Descent (heights ts) adv lvl stops) (i : ℕ) :
    stops i ≤ ts.length := by
  have h0 : stops 0 ≤ ts.length := by
    rcases d.stop_spec lvl 0 (by omega) with h | h
    · omega
    · by_contra hcon
      rw [heights_of_gt (by omega)] at h
      omega
  exact Nat.le_trans (d.stops_le i) h0

omit [DecidableEq β] in
/-- The node where a search stopped at a level reaches the level. -/
theorem Repr.stop_link (r : Repr sl ps ts) (d : Descent (heights ts) adv sl.level stops) {i : ℕ}
    (hi : i < maxLevel) :
    ∃ u l, (sl.head :: ps)[stops i]? = some u ∧ getLevel sl.heap u i = some l := by
  obtain ⟨u, _, hu, _⟩ := r.exists_pos (stop_le_length d i)
  have htall : i < heights ts (stops i) := by
    rcases d.stop_spec (sl.level - i) i rfl with h | h
    · rwa [h, heights_zero]
    · exact h.1
  obtain ⟨l, hl, _⟩ := r.link_pos hu htall
  exact ⟨u, l, hu, hl⟩

omit [DecidableEq β] in
/-- A position that reaches level `i` and sees the end of the search is the stop of
level `i`. -/
theorem Repr.eq_stop (r : Repr sl ps ts) (d : Descent (heights ts) adv sl.level stops) {i k : ℕ}
    (hk : k ≤ stops 0) (hi : i < heights ts k)
    (hgap : ∀ j, k < j → j ≤ stops 0 → heights ts j ≤ i) : k = stops i := by
  rcases Nat.lt_trichotomy k (stops i) with h | h | h
  · rcases d.stop_spec (sl.level - i) i rfl with h0 | h0
    · omega
    · have := hgap (stops i) h (d.stops_le i); omega
  · exact h
  · have := r.gap d h hk; omega

end Stops

/-! ## The loops of `Insert` -/

/-- The entries of `update[]` and `ranks[]` below `n` are the stops. -/
def PathOk (pos : List Ptr) (stops : ℕ → ℕ) (n : ℕ) (p : SkipList.Path UInt32) : Prop :=
  ∀ i, i < n → p.update i = pos[stops i]? ∧ p.ranks i = UInt32.ofNat (stops i)

omit [DecidableEq β] in
/-- Opening levels: the heap still holds the list, and the path reaches higher. -/
theorem openLevels_spec (r : Repr sl ps ts) {stops : ℕ → ℕ} {p : SkipList.Path UInt32}
    (hp : PathOk (sl.head :: ps) stops sl.level p) (hz : ∀ i, sl.level ≤ i → stops i = 0)
    {n : ℕ} (hn : sl.level + n ≤ maxLevel) :
    ∃ h' p', forRange (SkipList.openLevel sl.head sl.lenth) sl.level n (sl.heap, p) =
        some (h', p') ∧
      h'.size = sl.heap.size ∧ Repr { sl with heap := h' } ps ts ∧
      PathOk (sl.head :: ps) stops (sl.level + n) p' := by
  obtain ⟨hp0, t0, hpos0, ht0, hd0⟩ := r.exists_pos (Nat.zero_le _)
  obtain rfl : sl.head = hp0 := by simpa using hpos0
  obtain rfl : headTower = t0 := by simpa using ht0
  obtain ⟨⟨h', p'⟩, hrun, ⟨hsame, hlev, hpath⟩⟩ := forRange_invariant
    (b := SkipList.openLevel sl.head sl.lenth)
    (fun k (s : Heap (SkipListNode α β) × SkipList.Path UInt32) =>
      SameNodes sl.heap s.1 ∧
      (∀ q j l, getLevel s.1 q j = some l → ∃ l0, getLevel sl.heap q j = some l0 ∧
        l.forward = l0.forward ∧ (j < sl.level → l = l0)) ∧
      PathOk (sl.head :: ps) stops k s.2)
    n sl.level (sl.heap, p)
    ⟨SameNodes.refl _, fun q j l hl => ⟨l, hl, rfl, fun _ => rfl⟩, hp⟩ (by
      rintro i ⟨h, p⟩ hai hin ⟨hsame, hlev, hpath⟩
      have hd : nodeData h sl.head = some headTower := (hsame.data _).trans hd0
      obtain ⟨l, hl⟩ := getLevel_isSome hd (i := i) (show i < maxLevel by omega)
      obtain ⟨h1, hm, hsame1, hlev1⟩ := modifyLevel_spec hl
        (fun l => { l with span := sl.lenth.toUInt32 })
      refine ⟨(h1, p.record i sl.head 0), by simp [SkipList.openLevel, hm], hsame.trans hsame1,
        fun q j l' hl' => ?_, fun j hj => ?_⟩
      · rw [hlev1] at hl'
        by_cases hqj : q = sl.head ∧ j = i
        · obtain ⟨rfl, rfl⟩ := hqj
          rw [if_pos ⟨rfl, rfl⟩] at hl'
          obtain ⟨l0, h0, hf0, _⟩ := hlev _ _ _ hl
          cases hl'
          exact ⟨l0, h0, hf0, fun hlt => by omega⟩
        · rw [if_neg hqj] at hl'
          exact hlev q j l' hl'
      · by_cases hji : j = i
        · subst hji
          simp [SkipList.Path.record, hz j hai]
        · have := hpath j (by omega)
          simpa [SkipList.Path.record, hji] using this)
  refine ⟨h', p', hrun, hsame.size, ?_, hpath⟩
  refine ⟨r.len, r.nodup, fun k q hq => (hsame.data q).trans (r.data k q hq),
    fun k q hq => (hsame.back q).trans (r.back k q hq), fun k q i l hq hl => ?_, r.tall, r.level,
    r.top, r.tail, r.sorted⟩
  obtain ⟨l0, h0, hf, heq⟩ := hlev q i l hl
  have hok := r.link k q i l0 hq h0
  rcases Nat.lt_or_ge i sl.level with hi | hi
  · rw [heq hi]; exact hok
  · exact ⟨fun m hm => absurd hm (r.not_isNext_of_level_le hi k m),
      fun hno => hf.trans (hok.null hno)⟩

omit [LinearOrder α] [DecidableEq β] [Neg α] [One α] [Inhabited β] in
/-- Linking: at each level the new node `x` gets the rest of the link of `update[i]`. -/
theorem linkLevels_spec {h : Heap (SkipListNode α β)} {x : Ptr} {p : SkipList.Path UInt32} {n : ℕ}
    {t : Tower α β} (hx : nodeData h x = some t) (hn : n ≤ t.height) {u : ℕ → Ptr}
    {v : ℕ → SkipListLevel}
    (hu : ∀ i, i < n → p.update i = some (u i) ∧ u i ≠ x ∧ getLevel h (u i) i = some (v i)) :
    ∃ h', forRange (SkipList.linkLevel x p) 0 n h = some h' ∧ SameNodes h h' ∧
      ∀ q j, getLevel h' q j =
        if j < n then
          (if q = x then some ⟨(v j).forward, (v j).span - (p.ranks 0 - p.ranks j)⟩
          else if q = u j then some ⟨some x, (p.ranks 0 - p.ranks j) + 1⟩
          else getLevel h q j)
        else getLevel h q j := by
  have hloop := forRange_levels (b := SkipList.linkLevel x p)
    (fun q j => if q = x then some ⟨(v j).forward, (v j).span - (p.ranks 0 - p.ranks j)⟩
      else if q = u j then some ⟨some x, (p.ranks 0 - p.ranks j) + 1⟩
      else getLevel h q j) h 0 n (by
    intro i h1 _ hi hsame hlev
    obtain ⟨hup, hne, hul⟩ := hu i (by omega)
    obtain ⟨xl, hxl⟩ := getLevel_isSome ((hsame.data x).trans hx) (i := i) (by omega)
    have hul1 : getLevel h1 (u i) i = some (v i) := (hlev _).trans hul
    obtain ⟨h2, hm2, hsame2, hlev2⟩ := modifyLevel_spec hxl
      (fun _ => ⟨(v i).forward, (v i).span - (p.ranks 0 - p.ranks i)⟩)
    have hul2 : getLevel h2 (u i) i = some (v i) := by
      rw [hlev2, if_neg (by rintro ⟨h, _⟩; exact hne h)]; exact hul1
    obtain ⟨h3, hm3, hsame3, hlev3⟩ := modifyLevel_spec hul2
      (fun _ => ⟨some x, (p.ranks 0 - p.ranks i) + 1⟩)
    refine ⟨h3, by simp [SkipList.linkLevel, hup, hul1, hm2, hm3], hsame2.trans hsame3,
      fun q j => ?_⟩
    rw [hlev3, hlev2]
    by_cases hj : j = i
    · subst hj
      by_cases hqx : q = x
      · subst hqx; simp [Ne.symm hne]
      · by_cases hqu : q = u j
        · simp [hqu, hne]
        · simp [hqx, hqu, hlev q]
    · simp [hj])
  obtain ⟨h', hrun, hsame, hlev⟩ := hloop
  refine ⟨h', hrun, hsame, fun q j => ?_⟩
  rw [hlev]
  simp

omit [LinearOrder α] [DecidableEq β] [Neg α] [One α] [Inhabited β] in
/-- Counting: at each level the new node does not reach, the span of `update[i]`
grows by one. -/
theorem bumpSpans_spec {h : Heap (SkipListNode α β)} {p : SkipList.Path UInt32} {a n : ℕ}
    {u : ℕ → Ptr} {v : ℕ → SkipListLevel}
    (hu : ∀ i, a ≤ i → i < a + n → p.update i = some (u i) ∧ getLevel h (u i) i = some (v i)) :
    ∃ h', forRange (SkipList.bumpSpan p) a n h = some h' ∧ SameNodes h h' ∧
      ∀ q j, getLevel h' q j =
        if a ≤ j ∧ j < a + n then
          (if q = u j then some { v j with span := (v j).span + 1 } else getLevel h q j)
        else getLevel h q j := by
  refine forRange_levels (b := SkipList.bumpSpan p) (fun q j =>
    if q = u j then some { v j with span := (v j).span + 1 } else getLevel h q j) h a n ?_
  intro i h1 hai hi hsame hlev
  obtain ⟨hup, hul⟩ := hu i hai hi
  obtain ⟨h2, hm2, hsame2, hlev2⟩ := modifyLevel_spec ((hlev _).trans hul)
    (fun l => { l with span := l.span + 1 })
  refine ⟨h2, by simp [SkipList.bumpSpan, hup, hm2], hsame2, fun q j => ?_⟩
  rw [hlev2]
  by_cases hj : j = i
  · subst hj
    by_cases hqu : q = u j
    · simp [hqu]
    · simp [hqu, hlev q]
  · simp [hj]

omit [LinearOrder α] [DecidableEq β] [Neg α] [One α] [Inhabited β] in
/-- A new node of height `n`, once the loops have linked it into a list of `level` levels. -/
theorem linkNode_spec {h : Heap (SkipListNode α β)} {p : SkipList.Path UInt32} {n level : ℕ}
    (hn : n ≤ level) (score : α) (val : β) {u : ℕ → Ptr} {v : ℕ → SkipListLevel}
    (hu : ∀ i, i < level →
      p.update i = some (u i) ∧ u i ≠ h.size ∧ getLevel h (u i) i = some (v i)) :
    ∃ h3 h4, forRange (SkipList.linkLevel h.size p) 0 n (makeNode h n score val).2 = some h3 ∧
      forRange (SkipList.bumpSpan p) n (level - n) h3 = some h4 ∧
      (∀ q, nodeData h4 q = if q = h.size then some ⟨score, val, n⟩ else nodeData h q) ∧
      (∀ q, nodeBack h4 q = if q = h.size then some none else nodeBack h q) ∧
      (∀ j, getLevel h4 h.size j =
        if j < n then some ⟨(v j).forward, (v j).span - (p.ranks 0 - p.ranks j)⟩ else none) ∧
      ∀ q j, q ≠ h.size → getLevel h4 q j =
        if j < level ∧ q = u j then
          (if j < n then some ⟨some h.size, (p.ranks 0 - p.ranks j) + 1⟩
          else some { v j with span := (v j).span + 1 })
        else getLevel h q j := by
  obtain ⟨_, _, hdata2, hback2, hlev2⟩ := makeNode_spec h n score val
  have hu2 : ∀ i, i < level → getLevel (makeNode h n score val).2 (u i) i = some (v i) := by
    intro i hi
    rw [hlev2, if_neg (hu i hi).2.1]
    exact (hu i hi).2.2
  have hx2 : nodeData (makeNode h n score val).2 h.size = some ⟨score, val, n⟩ := by
    rw [hdata2, if_pos rfl]
  obtain ⟨h3, hlink, hsame3, hlev3⟩ := linkLevels_spec hx2 (Nat.le_refl n)
    fun i hi => ⟨(hu i (by omega)).1, (hu i (by omega)).2.1, hu2 i (by omega)⟩
  obtain ⟨h4, hbump, hsame4, hlev4⟩ : ∃ h4, forRange (SkipList.bumpSpan p) n (level - n) h3 =
      some h4 ∧ SameNodes h3 h4 ∧ _ := bumpSpans_spec (u := u) (v := v) fun i hni hi =>
    ⟨(hu i (by omega)).1, by rw [hlev3, if_neg (by omega)]; exact hu2 i (by omega)⟩
  refine ⟨h3, h4, hlink, hbump, fun q => ?_, fun q => ?_, fun j => ?_, fun q j hq => ?_⟩
  · rw [hsame4.data, hsame3.data, hdata2]
  · rw [hsame4.back, hsame3.back, hback2]
  · -- the levels of the new node
    rw [hlev4, hlev3, hlev2, if_pos rfl, if_pos rfl]
    by_cases hj : j < n
    · rw [if_neg (by omega), if_pos hj, if_pos hj]
    · rw [if_neg hj, if_neg hj, if_neg hj]
      split
      · next hjl => rw [if_neg (Ne.symm (hu j (by omega)).2.1)]
      · rfl
  · -- the levels of the others
    rw [hlev4, hlev3, hlev2, if_neg hq, if_neg hq]
    by_cases hj : j < n
    · rw [if_neg (by omega), if_pos hj]
      by_cases hqu : q = u j
      · rw [if_pos hqu, if_pos ⟨by omega, hqu⟩, if_pos hj]
      · rw [if_neg hqu, if_neg fun h => hqu h.2]
    · rw [if_neg hj]
      by_cases hjl : j < level
      · rw [if_pos (by omega)]
        by_cases hqu : q = u j
        · rw [if_pos hqu, if_pos ⟨hjl, hqu⟩, if_neg hj]
        · rw [if_neg hqu, if_neg fun h => hqu h.2]
      · rw [if_neg (by omega), if_neg fun h => hjl h.1]

/-! ## Positions after an insertion -/

section Positions

variable {δ : Type} {a x : δ} {l : List δ} {k K : ℕ}

theorem getElem?_cons_insertIdx_of_le (h : k ≤ K) :
    (a :: l.insertIdx K x)[k]? = (a :: l)[k]? := by
  rw [← List.insertIdx_succ_cons, List.getElem?_insertIdx_of_lt (by omega)]

theorem getElem?_cons_insertIdx_self (h : K ≤ l.length) :
    (a :: l.insertIdx K x)[K + 1]? = some x := by
  rw [← List.insertIdx_succ_cons, List.getElem?_insertIdx_self, if_pos (by simpa using h)]

theorem getElem?_cons_insertIdx_of_gt (h : K < k) :
    (a :: l.insertIdx K x)[k + 1]? = (a :: l)[k]? := by
  rw [← List.insertIdx_succ_cons, List.getElem?_insertIdx_of_gt (by omega)]
  rfl

end Positions

omit [DecidableEq β] in
/-- At level `0` every position is linked to the one after it. -/
theorem Repr.forward_zero (r : Repr sl ps ts) {k : ℕ} {p : Ptr} {l : SkipListLevel}
    (hp : (sl.head :: ps)[k]? = some p) (hl : getLevel sl.heap p 0 = some l) :
    l.forward = (sl.head :: ps)[k + 1]? := by
  have hok := r.link k p 0 l hp hl
  by_cases hk : k + 1 ≤ ts.length
  · exact (hok.next (k + 1) ⟨by omega, r.height_pos_of_le hk, fun j h1 h2 => by omega⟩).1
  · rw [hok.null fun q hq => ?_,
      List.getElem?_eq_none (by simp only [List.length_cons, r.len]; omega)]
    have := isNext_le_length hq
    have := hq.lt
    omega

/-- Inserting keeps a list pairwise related. -/
theorem pairwise_insertIdx {δ : Type} {R : δ → δ → Prop} {x : δ} : ∀ (K : ℕ) (l : List δ),
    l.Pairwise R → (∀ a ∈ l.take K, R a x) → (∀ a ∈ l.drop K, R x a) →
    (l.insertIdx K x).Pairwise R
  | 0, l, hl, _, hge => List.pairwise_cons.mpr ⟨by simpa using hge, hl⟩
  | K + 1, [], _, _, _ => by simp
  | K + 1, a :: l, hl, hle, hge => by
      rw [List.pairwise_cons] at hl
      rw [List.insertIdx_succ_cons, List.pairwise_cons]
      refine ⟨fun b hb => ?_, pairwise_insertIdx K l hl.2
        (fun b hb => hle b (by simp [hb])) (fun b hb => hge b (by simpa using hb))⟩
      rcases List.eq_or_mem_of_mem_insertIdx hb with rfl | hb
      · exact hle a (by simp)
      · exact hl.1 b hb

omit [DecidableEq β] [Neg α] [One α] [Inhabited β] in
/-- Putting an element where the search ends keeps the order of the scores. -/
theorem sorted_insertIdx {ts : List (Tower α β)} {K : ℕ} {t : Tower α β} (hK : K ≤ ts.length)
    (hs : ts.Pairwise fun a b => a.score ≤ b.score)
    (hle : ∀ a, 0 < K → ts[K - 1]? = some a → a.score ≤ t.score)
    (hge : ∀ a, ts[K]? = some a → t.score ≤ a.score) :
    (ts.insertIdx K t).Pairwise fun a b => a.score ≤ b.score := by
  have hmono : ∀ (i j : ℕ) (a b : Tower α β), i ≤ j → ts[i]? = some a → ts[j]? = some b →
      a.score ≤ b.score := by
    intro i j a b hij ha hb
    obtain ⟨hi, rfl⟩ := List.getElem?_eq_some_iff.mp ha
    obtain ⟨hj, rfl⟩ := List.getElem?_eq_some_iff.mp hb
    rcases Nat.eq_or_lt_of_le hij with rfl | hlt
    · exact le_refl _
    · exact List.pairwise_iff_getElem.mp hs i j hi hj hlt
  refine pairwise_insertIdx K ts hs (fun a ha => ?_) (fun a ha => ?_)
  · obtain ⟨i, hi⟩ := List.mem_iff_getElem?.mp ha
    rw [List.getElem?_take] at hi
    split at hi
    · rename_i hiK
      have hb := List.getElem?_eq_getElem (l := ts) (i := K - 1) (by omega)
      exact le_trans (hmono i (K - 1) a _ (by omega) hi hb) (hle _ (by omega) hb)
    · cases hi
  · obtain ⟨i, hi⟩ := List.mem_iff_getElem?.mp ha
    rw [List.getElem?_drop] at hi
    have hK : K < ts.length := by
      have := (List.getElem?_eq_some_iff.mp hi).1
      omega
    have hb := List.getElem?_eq_getElem hK
    exact le_trans (hge _ hb) (hmono K (K + i) _ a (by omega) hb hi)

/-! ## The links after an insertion -/

section Links

variable {adv : ℕ → Prop} {stops : ℕ → ℕ} {h : ℕ} {x : Ptr} {u : ℕ → Ptr}
variable {ul : ℕ → SkipListLevel} {links : Ptr → ℕ → Option SkipListLevel}

omit [DecidableEq β] in
/-- What the loops leave at each node is right for the list with the new tower. -/
theorem insert_linkOk {s : SkipList α β} (r : Repr s ps ts)
    (d : Descent (heights ts) adv s.level stops) (hx : x ∉ s.head :: ps)
    (hu : ∀ j, j < max s.level h → (s.head :: ps)[stops j]? = some (u j) ∧
      getLevel s.heap (u j) j = some (ul j))
    (hnew : ∀ j, links x j =
      if j < h then
        some ⟨(ul j).forward, (ul j).span - (UInt32.ofNat (stops 0) - UInt32.ofNat (stops j))⟩
      else none)
    (hold : ∀ q j, q ≠ x → links q j =
      if j < max s.level h ∧ q = u j then
        (if j < h then
          some ⟨some x, (UInt32.ofNat (stops 0) - UInt32.ofNat (stops j)) + 1⟩
        else some { ul j with span := (ul j).span + 1 })
      else getLevel s.heap q j) :
    ∀ k p i l, (s.head :: ps.insertIdx (stops 0) x)[k]? = some p → links p i = some l →
      LinkOk (spliceIn (heights ts) (stops 0) h) (s.head :: ps.insertIdx (stops 0) x) i k l := by
  have hK : stops 0 ≤ ps.length := by rw [r.len]; exact stop_le_length d 0
  have hPle : ∀ q, q ≤ stops 0 →
      (s.head :: ps.insertIdx (stops 0) x)[q]? = (s.head :: ps)[q]? :=
    fun q hq => getElem?_cons_insertIdx_of_le hq
  have hPx : (s.head :: ps.insertIdx (stops 0) x)[stops 0 + 1]? = some x :=
    getElem?_cons_insertIdx_self hK
  have hPgt : ∀ q, stops 0 < q →
      (s.head :: ps.insertIdx (stops 0) x)[q + 1]? = (s.head :: ps)[q]? :=
    fun q hq => getElem?_cons_insertIdx_of_gt hq
  have hne : ∀ {k : ℕ} {p : Ptr}, (s.head :: ps)[k]? = some p → p ≠ x :=
    fun hp heq => hx (heq ▸ List.mem_of_getElem? hp)
  intro k p i l hp hl
  rcases Nat.lt_trichotomy k (stops 0 + 1) with hk | hk | hk
  · -- a node at or before the end of the search
    have hp' : (s.head :: ps)[k]? = some p := by rw [← hPle k (by omega)]; exact hp
    rw [hold p i (hne hp')] at hl
    by_cases hex : ∃ j, k < j ∧ j ≤ stops 0 ∧ i < heights ts j
    · have hnot : ¬ (i < max s.level h ∧ p = u i) := by
        rintro ⟨hi, heq⟩
        obtain ⟨j, h1, h2, h3⟩ := hex
        have hks : k = stops i := r.pos_inj hp' (heq ▸ (hu i hi).1)
        have := r.gap d (i := i) (m := j) (by omega) h2
        omega
      rw [if_neg hnot] at hl
      exact (r.link k p i l hp' hl).insert_le hex hPle
    · have hgap : ∀ j, k < j → j ≤ stops 0 → heights ts j ≤ i := fun j h1 h2 => by
        by_contra hcon
        exact hex ⟨j, h1, h2, by omega⟩
      by_cases hi : i < max s.level h ∧ p = u i
      · rw [if_pos hi] at hl
        obtain ⟨hpos, hul⟩ := hu i hi.1
        have hks : k = stops i := r.pos_inj hp' (hi.2 ▸ hpos)
        by_cases hih : i < h
        · rw [if_pos hih] at hl
          cases hl
          rw [← hks]
          exact LinkOk.insert_self (by omega) hgap hih hPx
        · rw [if_neg hih] at hl
          cases hl
          exact (r.link k p i _ hp' (hi.2 ▸ hul)).insert_skip (by omega) hgap (by omega) hPgt
      · rw [if_neg hi] at hl
        have hks : k = stops i := r.eq_stop d (by omega) (r.lt_height hp' hl) hgap
        have hlvl : ¬ i < max s.level h := fun hlt => by
          have := (hu i hlt).1
          rw [← hks, hp'] at this
          exact hi ⟨hlt, Option.some.inj this⟩
        refine ⟨fun q hq => ?_, fun _ => ?_⟩
        · -- no tower is taller than `i`
          exfalso
          have hq1 := hq.tall
          rcases Nat.lt_trichotomy q (stops 0 + 1) with h1 | h1 | h1
          · rw [spliceIn_of_le (by omega)] at hq1
            have := hgap q hq.lt (by omega)
            omega
          · rw [h1, spliceIn_self] at hq1; omega
          · obtain ⟨q, rfl⟩ : ∃ j, q = j + 1 := ⟨q - 1, by omega⟩
            rw [spliceIn_succ_of_lt (by omega)] at hq1
            have := r.height_le (i := i) (q := q) (by omega) (by omega)
            omega
        · exact (r.link k p i l hp' hl).null (r.not_isNext_of_level_le (by omega) k)
  · -- the new node
    subst hk
    obtain rfl : x = p := Option.some.inj (hPx.symm.trans hp)
    rw [hnew] at hl
    split at hl
    · rename_i hih
      cases hl
      obtain ⟨hpos, hul⟩ := hu i (by omega)
      exact (r.link _ _ _ _ hpos hul).insert_new (d.stops_le i)
        (fun j h1 h2 => r.gap d h1 h2) hPgt
    · cases hl
  · -- a node beyond it
    obtain ⟨k, rfl⟩ : ∃ j, k = j + 1 := ⟨k - 1, by omega⟩
    have hp' : (s.head :: ps)[k]? = some p := by rw [← hPgt k (by omega)]; exact hp
    have hnot : ¬ (i < max s.level h ∧ p = u i) := by
      rintro ⟨hi, heq⟩
      have hks : k = stops i := r.pos_inj hp' (heq ▸ (hu i hi).1)
      have := d.stops_le i
      omega
    rw [hold p i (hne hp'), if_neg hnot] at hl
    exact (r.link k p i l hp' hl).insert_gt (by omega) hPgt

end Links

/-! ## `Insert` -/

/-- The last element after an insertion. -/
theorem getLast?_insertIdx {δ : Type} {l : List δ} {K : ℕ} {x : δ} (hK : K ≤ l.length) :
    (l.insertIdx K x).getLast? = if K = l.length then some x else l.getLast? := by
  have hlen : (l.insertIdx K x).length = l.length + 1 := List.length_insertIdx_of_le_length hK x
  rw [List.getLast?_eq_getElem?, hlen, Nat.add_sub_cancel]
  split
  · rename_i h
    rw [← h, List.getElem?_insertIdx_self, if_pos hK]
  · rename_i h
    rw [List.getElem?_insertIdx_of_gt (by omega), List.getLast?_eq_getElem?]

omit [DecidableEq β] in
/-- The list that a heap holds once the loops are done and the `backward` pointers
are set. -/
theorem insert_repr (r : Repr sl ps ts) {score : α} {val : β} {stops : ℕ → ℕ}
    (d : Descent (heights ts) (BeforeAt ts score val) sl.level stops) {x : Ptr}
    (hx : x ∉ sl.head :: ps) (lvl : Lvl) {sl' : SkipList α β} (hhead : sl'.head = sl.head)
    (htail : sl'.tail = if stops 0 = ts.length then some x else sl.tail)
    (hlevel : sl'.level = max sl.level lvl.val)
    (hdata : ∀ q, nodeData sl'.heap q =
      if q = x then some ⟨score, val, lvl.val⟩ else nodeData sl.heap q)
    (hback : ∀ q, nodeBack sl'.heap q =
      if (sl.head :: ps)[stops 0 + 1]? = some q then some (some x)
      else if q = x then some (if stops 0 = 0 then none else (sl.head :: ps)[stops 0]?)
      else nodeBack sl.heap q)
    (hlink : ∀ (k : ℕ) (p : Ptr) (i : ℕ) (l : SkipListLevel),
      (sl.head :: ps.insertIdx (stops 0) x)[k]? = some p → getLevel sl'.heap p i = some l →
      LinkOk (spliceIn (heights ts) (stops 0) lvl.val)
        (sl.head :: ps.insertIdx (stops 0) x) i k l) :
    Repr sl' (ps.insertIdx (stops 0) x) (ts.insertIdx (stops 0) ⟨score, val, lvl.val⟩) := by
  have hKt : stops 0 ≤ ts.length := stop_le_length d 0
  have hK : stops 0 ≤ ps.length := by rw [r.len]; exact hKt
  have hne : ∀ {k : ℕ} {p : Ptr}, (sl.head :: ps)[k]? = some p → p ≠ x :=
    fun hp heq => hx (heq ▸ List.mem_of_getElem? hp)
  have hl1 := List.length_insertIdx_of_le_length hK x
  have hl2 := List.length_insertIdx_of_le_length hKt (⟨score, val, lvl.val⟩ : Tower α β)
  refine ⟨by rw [hl1, hl2, r.len], ?_, ?_, ?_, ?_, ?_, ?_, ?_, ?_, ?_⟩
  · -- no node twice
    rw [hhead]
    rw [← List.insertIdx_succ_cons]
    have hperm : ((sl.head :: ps).insertIdx (stops 0 + 1) x).Perm (x :: sl.head :: ps) :=
      List.perm_insertIdx x (sl.head :: ps) (by simpa using hK)
    exact hperm.nodup_iff.mpr (List.nodup_cons.mpr ⟨hx, r.nodup⟩)
  · -- the towers
    intro k p hp
    rw [hhead] at hp
    rcases Nat.lt_trichotomy k (stops 0 + 1) with hk | hk | hk
    · rw [getElem?_cons_insertIdx_of_le (by omega)] at hp ⊢
      rw [hdata, if_neg (hne hp)]
      exact r.data k p hp
    · subst hk
      rw [getElem?_cons_insertIdx_self hK] at hp
      cases hp
      rw [hdata, if_pos rfl, getElem?_cons_insertIdx_self hKt]
    · obtain ⟨k, rfl⟩ : ∃ j, k = j + 1 := ⟨k - 1, by omega⟩
      rw [getElem?_cons_insertIdx_of_gt (by omega)] at hp ⊢
      rw [hdata, if_neg (hne hp)]
      exact r.data k p hp
  · -- the `backward` pointers
    intro k p hp
    rw [hhead] at hp ⊢
    rw [hback]
    rcases Nat.lt_trichotomy k (stops 0 + 1) with hk | hk | hk
    · rw [getElem?_cons_insertIdx_of_le (by omega)] at hp ⊢
      have h1 : ¬ (sl.head :: ps)[stops 0 + 1]? = some p := fun h => by
        have := r.pos_inj hp h; omega
      rw [if_neg h1, if_neg (hne hp)]
      exact r.back k p hp
    · subst hk
      rw [getElem?_cons_insertIdx_self hK] at hp
      cases hp
      rw [if_neg (fun h => hne h rfl), if_pos rfl, getElem?_cons_insertIdx_of_le (by omega)]
      simp
    · obtain ⟨k, rfl⟩ : ∃ j, k = j + 1 := ⟨k - 1, by omega⟩
      rw [getElem?_cons_insertIdx_of_gt (by omega)] at hp
      rw [if_neg (show ¬ k + 1 ≤ 1 by omega), Nat.add_sub_cancel]
      by_cases hk1 : k = stops 0 + 1
      · subst hk1
        rw [if_pos hp, getElem?_cons_insertIdx_self hK]
      · have h1 : ¬ (sl.head :: ps)[stops 0 + 1]? = some p := fun h => hk1 (r.pos_inj hp h)
        rw [if_neg h1, if_neg (hne hp), r.back k p hp, if_neg (by omega)]
        obtain ⟨k, rfl⟩ : ∃ j, k = j + 1 := ⟨k - 1, by omega⟩
        rw [getElem?_cons_insertIdx_of_gt (by omega), Nat.add_sub_cancel]
  · -- the links
    intro k p i l hp hl
    rw [heights_insertIdx hKt]
    rw [hhead] at hp ⊢
    exact hlink k p i l hp hl
  · -- the heights
    intro t ht
    rw [hlevel]
    rcases List.eq_or_mem_of_mem_insertIdx ht with rfl | ht
    · exact ⟨lvl.2.1, Nat.le_max_right _ _⟩
    · have := r.tall t ht; omega
  · have := r.level; have := lvl.2; omega
  · -- the maximum is attained
    rcases Nat.lt_or_ge lvl.val sl.level with h | h
    · rcases r.top with h1 | ⟨t, ht, heq⟩
      · have := lvl.2.1; omega
      · exact Or.inr ⟨t, (List.mem_insertIdx hKt).mpr (Or.inr ht), by omega⟩
    · exact Or.inr ⟨_, (List.mem_insertIdx hKt).mpr (Or.inl rfl), by rw [hlevel]; simp; omega⟩
  · -- the tail
    rw [htail, getLast?_insertIdx hK, r.tail, r.len]
  · -- the order
    refine sorted_insertIdx hKt r.sorted (fun a h0 ha => ?_) (fun a ha => ?_)
    · rcases d.adv_final with h | ⟨t, ht, hb⟩
      · omega
      · rw [ht] at ha
        cases ha
        rcases hb with hb | ⟨hb, _⟩
        · exact le_of_lt hb
        · exact le_of_eq hb
    · have hlt : stops 0 + 1 ≤ ts.length := by
        have := (List.getElem?_eq_some_iff.mp ha).1; omega
      have hnot := d.not_adv_final (by have := r.level.1; omega) (r.height_pos_of_le hlt)
      by_contra hcon
      exact hnot ⟨a, by simpa using ha, Or.inl (not_le.mp hcon)⟩

omit [Neg α] [One α] [Inhabited β] in
/-- What `Insert` answers when its loops complete: the node behind the new one, if there is one,
gets to know it. -/
theorem insert_run {lvl : Lvl} {score : α} {val : β} {y u : Ptr} {n : UInt32}
    {p0 p : SkipList.Path UInt32} {h1 h3 h4 h5 : Heap (SkipListNode α β)} {l : SkipListLevel}
    (hdesc : SkipList.descend sl.heap (fun _ _ nd => SkipList.before score val nd)
      (fun r l => r + l.span) sl.level sl.head 0 ⟨fun _ => none, fun _ => 0⟩ = some (y, n, p0))
    (hopen : forRange (SkipList.openLevel sl.head sl.lenth) sl.level (lvl.val - sl.level)
      (sl.heap, p0) = some (h1, p))
    (hlink : forRange (SkipList.linkLevel h1.size p) 0 lvl.val
      (makeNode h1 lvl.val score val).2 = some h3)
    (hbump : forRange (SkipList.bumpSpan p) lvl.val (max sl.level lvl.val - lvl.val) h3 = some h4)
    (hup : p.update 0 = some u)
    (hset : setBackward h4 h1.size (if u = sl.head then none else some u) = some h5)
    (hl : getLevel h5 h1.size 0 = some l) :
    SkipList.insert lvl score val sl = match l.forward with
      | some f => (setBackward h5 f (some h1.size)).map fun h =>
          (0, { sl with heap := h, level := max sl.level lvl.val, lenth := sl.lenth + 1 })
      | none => some (0, { sl with
          heap := h5
          tail := some h1.size
          level := max sl.level lvl.val
          lenth := sl.lenth + 1 }) := by
  have hx := (makeNode_spec h1 lvl.val score val).1
  simp only [SkipList.insert, hdesc, hopen, hx, hlink, hbump, hup, hset, hl, Option.bind_eq_bind,
    Option.bind_some]
  cases l.forward with
  | none => rfl
  | some f =>
      simp only [Option.map_eq_bind]
      rfl

/-- **`Insert`.** On a heap that holds `ts`, `Insert` succeeds and leaves a heap that
holds `ts` with the new tower where the search ended. -/
theorem insert_spec (r : Repr sl ps ts) (lvl : Lvl) (score : α) (val : β) :
    ∃ (stops : ℕ → ℕ) (sl' : SkipList α β),
      SkipList.insert lvl score val sl = some (0, sl') ∧
      Descent (heights ts) (BeforeAt ts score val) sl.level stops ∧
      sl'.lenth = sl.lenth + 1 ∧
      Repr sl' (ps.insertIdx (stops 0) sl.heap.size)
        (ts.insertIdx (stops 0) ⟨score, val, lvl.val⟩) := by
  obtain ⟨stops, y, p0, hdesc, d, hy, hp0⟩ :=
    descend_spec r (steps_insert ts score val).onLinks ⟨fun _ => none, fun _ => 0⟩
  obtain ⟨h1, p, hopen, hsize1, r1, hp⟩ :=
    openLevels_spec r hp0 d.start (n := lvl.val - sl.level)
      (by have := lvl.2.2; have := r.level.2; omega)
  have hlevel : sl.level + (lvl.val - sl.level) = max sl.level lvl.val := by omega
  rw [hlevel] at hp
  have hK : stops 0 ≤ ts.length := stop_le_length d 0
  -- the nodes `update[]` names, and their links
  have hex : ∀ j, ∃ u ul, j < max sl.level lvl.val → (sl.head :: ps)[stops j]? = some u ∧
      getLevel h1 u j = some ul := by
    intro j
    by_cases hj : j < max sl.level lvl.val
    · obtain ⟨u, ul, hu⟩ := r1.stop_link d (i := j) (by have := lvl.2.2; have := r.level.2; omega)
      exact ⟨u, ul, fun _ => hu⟩
    · exact ⟨0, ⟨none, 0⟩, fun h => absurd h hj⟩
  choose u ul hu using hex
  -- the new node
  have hx := (makeNode_spec h1 lvl.val score val).1
  have hnot : h1.size ∉ sl.head :: ps := by
    intro hmem
    obtain ⟨k, hk⟩ := List.mem_iff_getElem?.mp hmem
    obtain ⟨t, _, hd⟩ := r1.exists_data hk
    obtain ⟨nd, hg, _⟩ := get_of_nodeData hd
    exact absurd (Heap.lt_size hg) (Nat.lt_irrefl _)
  have hpath : ∀ j, j < max sl.level lvl.val →
      p.update j = some (u j) ∧ u j ≠ h1.size ∧ getLevel h1 (u j) j = some (ul j) := fun j hj =>
    ⟨(hp j hj).1.trans (hu j hj).1, fun heq => hnot (heq ▸ List.mem_of_getElem? (hu j hj).1),
      (hu j hj).2⟩
  obtain ⟨h3, h4, hlink, hbump, hdata4, hback4, hlevx4, hlev4⟩ :=
    linkNode_spec (Nat.le_max_right _ _) score val hpath
  -- the `backward` pointers
  have h0 : 0 < max sl.level lvl.val := by have := r.level.1; omega
  obtain ⟨h5, hset5, hsize5, hdata5, hback5, hlev5⟩ := setBackward_spec
    (h := h4) (x := h1.size) (t := ⟨score, val, lvl.val⟩) (by rw [hdata4, if_pos rfl])
    (if u 0 = sl.head then none else some (u 0))
  have hx0 : getLevel h5 h1.size 0 =
      some ⟨(ul 0).forward, (ul 0).span - (p.ranks 0 - p.ranks 0)⟩ := by
    rw [hlev5, hlevx4, if_pos (show 0 < lvl.val from lvl.2.1)]
  have hf0 : (ul 0).forward = (sl.head :: ps)[stops 0 + 1]? :=
    r1.forward_zero (hu 0 h0).1 (hu 0 h0).2
  have hu0 : (if u 0 = sl.head then none else some (u 0)) =
      if stops 0 = 0 then none else (sl.head :: ps)[stops 0]? := by
    rw [(hu 0 h0).1]
    have hiff : u 0 = sl.head ↔ stops 0 = 0 := by
      constructor
      · intro h; exact r1.pos_inj (hu 0 h0).1 (by rw [h]; rfl)
      · intro h
        have := (hu 0 h0).1
        rw [h] at this
        exact (Option.some.inj this).symm
    simp only [hiff]
  have hlinks : ∀ h6 : Heap (SkipListNode α β),
      (∀ q j, getLevel h6 q j = getLevel h5 q j) →
      ∀ (k : ℕ) (q : Ptr) (i : ℕ) (l : SkipListLevel),
        (sl.head :: ps.insertIdx (stops 0) h1.size)[k]? = some q → getLevel h6 q i = some l →
        LinkOk (spliceIn (heights ts) (stops 0) lvl.val)
          (sl.head :: ps.insertIdx (stops 0) h1.size) i k l := by
    intro h6 h56
    have hranks : ∀ j, j < max sl.level lvl.val → p.ranks j = UInt32.ofNat (stops j) :=
      fun j hj => (hp j hj).2
    refine insert_linkOk (s := { sl with heap := h1 }) r1 d hnot hu
      (fun j => ?_) (fun q j hq => ?_)
    · rw [h56, hlev5, hlevx4]
      by_cases hj : j < lvl.val
      · rw [if_pos hj, if_pos hj, hranks 0 h0, hranks j (by omega)]
      · rw [if_neg hj, if_neg hj]
    · rw [h56, hlev5, hlev4 q j hq]
      show _ = if j < max sl.level lvl.val ∧ q = u j then _ else getLevel h1 q j
      by_cases hj : j < max sl.level lvl.val ∧ q = u j
      · rw [if_pos hj, if_pos hj, hranks 0 h0, hranks j hj.1]
      · rw [if_neg hj, if_neg hj]
  have hup0 : p.update 0 = some (u 0) := (hp 0 h0).1.trans (hu 0 h0).1
  have hdesc' : SkipList.descend sl.heap (fun _ _ nd => SkipList.before score val nd)
      (fun r l => r + l.span) sl.level sl.head 0 ⟨fun _ => none, fun _ => 0⟩ = _ := hdesc
  have hrun := insert_run hdesc' hopen hlink hbump hup0 hset5 hx0
  rw [hf0] at hrun
  have hback5' : ∀ q, nodeBack h5 q = if q = h1.size then
      some (if stops 0 = 0 then none else (sl.head :: ps)[stops 0]?) else nodeBack h1 q := by
    intro q
    rw [hback5, hu0, hback4]
    split <;> rfl
  cases hf : (sl.head :: ps)[stops 0 + 1]? with
  | none =>
      have hend : stops 0 = ts.length := by
        have := List.getElem?_eq_none_iff.mp hf
        simp only [List.length_cons, r.len] at this
        omega
      rw [hf] at hrun
      refine ⟨stops, _, hrun, d, rfl, ?_⟩
      rw [← hsize1]
      refine insert_repr r1 d hnot lvl rfl ?_ rfl
        (fun q => (hdata5 q).trans (hdata4 q)) (fun q => ?_) (hlinks h5 fun _ _ => rfl)
      · rw [if_pos hend]
      · rw [if_neg (by simp [hf])]; exact hback5' q
  | some f =>
      have hfx : f ≠ h1.size := fun h => hnot (h ▸ List.mem_of_getElem? hf)
      obtain ⟨tf, _, hdf⟩ := r1.exists_data hf
      have hdf4 : nodeData h5 f = some tf := by
        rw [hdata5, hdata4, if_neg hfx]; exact hdf
      obtain ⟨h6, hset6, hsize6, hdata6, hback6, hlev6⟩ := setBackward_spec hdf4 (some h1.size)
      rw [hf] at hrun
      simp only [hset6, Option.map_some] at hrun
      refine ⟨stops, _, hrun, d, rfl, ?_⟩
      rw [← hsize1]
      refine insert_repr r1 d hnot lvl rfl ?_ rfl
        (fun q => (hdata6 q).trans ((hdata5 q).trans (hdata4 q))) (fun q => ?_) (hlinks h6 hlev6)
      · have := (List.getElem?_eq_some_iff.mp hf).1
        simp only [List.length_cons, r.len] at this
        rw [if_neg (by omega)]
      · simp only [hf, Option.some.injEq]
        rw [hback6]
        by_cases hqf : q = f
        · rw [if_pos hqf, if_pos hqf.symm]
        · rw [if_neg hqf, if_neg (Ne.symm hqf)]; exact hback5' q

end LibC
