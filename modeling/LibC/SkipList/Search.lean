/-
LibC.SkipList.Search — the searches of the skip list follow the towers.

`walk_spec` and `descend_spec` say that the `while` loop of a level and the
`for` loop over the levels compute a `Walk` and a `Descent` of
`LibC.Lib.Tower` over the heights of the list: every dereference succeeds,
the fuel suffices, and `update[]`, `ranks[]` and the final node are the stops
of the descent. They are stated for an arbitrary loop condition and an
arbitrary accumulator, so that each search of the class is an instance.

No `sorry`, no `axiom`, no `native_decide`.
-/
import LibC.SkipList.Repr
import Mathlib.Data.List.Nodup

namespace LibC

open LibC.Lib LibC.Lib.Tower

variable {α β γ : Type} [LinearOrder α] [Neg α] [One α] [Inhabited β]
variable {sl : SkipList α β} {ps : List Ptr} {ts : List (Tower α β)}

namespace Repr

/-- Positions of nodes and of towers are the same. -/
theorem pos_lt (r : Repr sl ps ts) {k : ℕ} {p : Ptr} (h : (sl.head :: ps)[k]? = some p) :
    k ≤ ts.length := by
  have := (List.getElem?_eq_some_iff.mp h).1
  simp only [List.length_cons, r.len] at this
  omega

/-- Every position up to the length is a node with its tower. -/
theorem exists_pos (r : Repr sl ps ts) {k : ℕ} (hk : k ≤ ts.length) :
    ∃ p t, (sl.head :: ps)[k]? = some p ∧ (headTower :: ts)[k]? = some t ∧
      nodeData sl.heap p = some t := by
  have h1 : k < (sl.head :: ps).length := by simp only [List.length_cons, r.len]; omega
  have h2 : k < ((headTower : Tower α β) :: ts).length := by simp only [List.length_cons]; omega
  refine ⟨(sl.head :: ps)[k], (headTower :: ts)[k], List.getElem?_eq_getElem h1,
    List.getElem?_eq_getElem h2, ?_⟩
  rw [r.data k _ (List.getElem?_eq_getElem h1), List.getElem?_eq_getElem h2]

/-- The tower of the node at a position. -/
theorem exists_data (r : Repr sl ps ts) {k : ℕ} {p : Ptr} (hp : (sl.head :: ps)[k]? = some p) :
    ∃ t, (headTower :: ts)[k]? = some t ∧ nodeData sl.heap p = some t := by
  obtain ⟨q, t, hq, ht, hd⟩ := r.exists_pos (r.pos_lt hp)
  obtain rfl : p = q := Option.some.inj (hp.symm.trans hq)
  exact ⟨t, ht, hd⟩

/-- The height of the node at a position. -/
theorem height_pos (r : Repr sl ps ts) {k : ℕ} {p : Ptr} {t : Tower α β}
    (hp : (sl.head :: ps)[k]? = some p) (ht : nodeData sl.heap p = some t) :
    t.height = heights ts k := by
  rw [r.data k p hp] at ht
  rcases k with _ | k
  · simp only [List.getElem?_cons_zero, Option.some.injEq] at ht
    rw [← ht]; rfl
  · rw [List.getElem?_cons_succ] at ht
    rw [heights_succ ht]

/-- A link is at a level that its node reaches. -/
theorem lt_height (r : Repr sl ps ts) {i k : ℕ} {p : Ptr} {l : SkipListLevel}
    (hp : (sl.head :: ps)[k]? = some p) (hl : getLevel sl.heap p i = some l) :
    i < heights ts k := by
  obtain ⟨t, _, hd⟩ := r.exists_data hp
  rw [← r.height_pos hp hd]
  exact lt_height_of_getLevel hd hl

/-- Two positions with the same node are equal. -/
theorem pos_inj (r : Repr sl ps ts) {j k : ℕ} {p : Ptr} (hj : (sl.head :: ps)[j]? = some p)
    (hk : (sl.head :: ps)[k]? = some p) : j = k := by
  obtain ⟨h1, h2⟩ := List.getElem?_eq_some_iff.mp hj
  obtain ⟨h3, h4⟩ := List.getElem?_eq_some_iff.mp hk
  exact (List.Nodup.getElem_inj_iff r.nodup).mp (h2.trans h4.symm)

/-- The link of a position at a level below its height. -/
theorem link_pos (r : Repr sl ps ts) {i k : ℕ} {p : Ptr} (hp : (sl.head :: ps)[k]? = some p)
    (hi : i < heights ts k) :
    ∃ l, getLevel sl.heap p i = some l ∧ LinkOk (heights ts) (sl.head :: ps) i k l := by
  obtain ⟨t, _, hd⟩ := r.exists_data hp
  obtain ⟨l, hl⟩ := getLevel_isSome hd (i := i) (by rw [r.height_pos hp hd]; exact hi)
  exact ⟨l, hl, r.link k p i l hp hl⟩

/-- Every node was allocated, and there are at least as many addresses. -/
theorem length_lt_size (r : Repr sl ps ts) : ts.length < sl.heap.size := by
  have hle : (sl.head :: ps).length ≤ sl.heap.size := by
    refine Heap.length_le_size r.nodup fun p hp => ?_
    obtain ⟨k, hk⟩ := List.mem_iff_getElem?.mp hp
    obtain ⟨t, _, hd⟩ := r.exists_data hk
    obtain ⟨nd, hg, _⟩ := get_of_nodeData hd
    exact ⟨nd, hg⟩
  rwa [List.length_cons, r.len] at hle

/-- No element reaches a level at or above `level_`. -/
theorem not_isNext_of_level_le (r : Repr sl ps ts) {i : ℕ} (hi : sl.level ≤ i) (k q : ℕ) :
    ¬ IsNext (heights ts) i k q := by
  intro h
  obtain ⟨q, rfl⟩ : ∃ j, q = j + 1 := ⟨q - 1, by have := h.lt; omega⟩
  have hq := h.tall
  cases ht : ts[q]? with
  | none => rw [heights, ht] at hq; simp at hq
  | some t =>
      rw [heights_succ ht] at hq
      have := (r.tall t (List.mem_of_getElem? ht)).2
      omega

/-- At or above `level_` no element has a link. -/
theorem height_le (r : Repr sl ps ts) {i q : ℕ} (hi : sl.level ≤ i) (hq : 0 < q) :
    heights ts q ≤ i := by
  by_contra hcon
  obtain ⟨m, hm, _⟩ := exists_isNext hq (Nat.lt_of_not_le hcon)
  exact r.not_isNext_of_level_le hi _ _ hm

end Repr

/-- What a search needs to know about its loop: the accumulator at position `k` is
`acc k`, and the loop steps on to position `q` exactly when `adv q`. -/
structure Steps (ts : List (Tower α β)) (go : γ → SkipListLevel → SkipListNode α β → Bool)
    (add : γ → SkipListLevel → γ) (acc : ℕ → γ) (adv : ℕ → Prop) : Prop where
  add : ∀ k q l, k < q → q ≤ ts.length → l.span = UInt32.ofNat (q - k) → add (acc k) l = acc q
  go : ∀ k q l nd t, k < q → q ≤ ts.length → l.span = UInt32.ofNat (q - k) →
    ts[q - 1]? = some t → nd.score = t.score → nd.val = t.val → (go (acc k) l nd = true ↔ adv q)

/-- The level-`i` link of position `k` leads to position `q`. -/
def LinkFrom (ts : List (Tower α β)) (i k q : ℕ) : Prop :=
  i < heights ts k ∧ IsNext (heights ts) i k q

/-- `Steps`, along the links of the list only. -/
structure LinkSteps (ts : List (Tower α β)) (go : γ → SkipListLevel → SkipListNode α β → Bool)
    (add : γ → SkipListLevel → γ) (acc : ℕ → γ) (adv : ℕ → Prop) : Prop where
  add : ∀ i k q l, LinkFrom ts i k q → l.span = UInt32.ofNat (q - k) → add (acc k) l = acc q
  go : ∀ i k q l nd t, LinkFrom ts i k q → l.span = UInt32.ofNat (q - k) →
    ts[q - 1]? = some t → nd.score = t.score → nd.val = t.val → (go (acc k) l nd = true ↔ adv q)

variable {go : γ → SkipListLevel → SkipListNode α β → Bool} {add : γ → SkipListLevel → γ}
variable {acc : ℕ → γ} {adv : ℕ → Prop}

omit [LinearOrder α] [Neg α] [One α] [Inhabited β] in
theorem Steps.onLinks (hs : Steps ts go add acc adv) : LinkSteps ts go add acc adv :=
  ⟨fun _ k q l h => hs.add k q l h.2.lt (isNext_le_length h.2),
    fun _ k q l nd t h => hs.go k q l nd t h.2.lt (isNext_le_length h.2)⟩

/-- The loop of one level is a walk along that level. -/
theorem walk_spec (r : Repr sl ps ts) (hs : LinkSteps ts go add acc adv) {i : ℕ} :
    ∀ (fuel k : ℕ) (p : Ptr), ts.length < fuel + k → i < heights ts k →
      (sl.head :: ps)[k]? = some p →
      ∃ b x, SkipList.walk sl.heap i go add fuel p (acc k) = some (x, acc b) ∧
        (sl.head :: ps)[b]? = some x ∧ Walk (heights ts) adv i k b
  | 0, k, p, hf, _, hp => by have := r.pos_lt hp; omega
  | fuel + 1, k, p, hf, hi, hp => by
      obtain ⟨l, hl, hok⟩ := r.link_pos hp hi
      by_cases hex : ∃ q, IsNext (heights ts) i k q
      · obtain ⟨q, hq⟩ := hex
        obtain ⟨hfwd, hspan⟩ := hok.next q hq
        obtain ⟨f, t, hf', ht, hd⟩ := r.exists_pos (isNext_le_length hq)
        obtain ⟨nd, hg, hsc, hv, _⟩ := get_of_nodeData hd
        rw [hf'] at hfwd
        have hts : ts[q - 1]? = some t := by
          obtain ⟨j, rfl⟩ : ∃ j, q = j + 1 := ⟨q - 1, by have := hq.lt; omega⟩
          simpa using ht
        have hgo := hs.go i k q l nd t ⟨hi, hq⟩ hspan hts hsc hv
        have hadd := hs.add i k q l ⟨hi, hq⟩ hspan
        by_cases ha : adv q
        · obtain ⟨b, x, hw, hx, hwalk⟩ := walk_spec r hs fuel q f
            (by have := hq.lt; omega) hq.tall hf'
          refine ⟨b, x, ?_, hx, Walk.step hq ha hwalk⟩
          simp [SkipList.walk, hl, hfwd, hg, hgo.mpr ha, hadd, hw]
        · refine ⟨k, p, ?_, hp, Walk.refl fun q' hq' => by rw [hq'.unique hq]; exact ha⟩
          have hno : go (acc k) l nd = false := by
            rw [← Bool.not_eq_true]; exact fun h => ha (hgo.mp h)
          simp [SkipList.walk, hl, hfwd, hg, hno]
      · have hnone := hok.null (fun q hq => hex ⟨q, hq⟩)
        refine ⟨k, p, ?_, hp, Walk.refl fun q hq => absurd ⟨q, hq⟩ hex⟩
        simp [SkipList.walk, hl, hnone]

/-- The loop over the levels stacks the walks, and records where each stopped. -/
theorem descend_walks (r : Repr sl ps ts) (hs : LinkSteps ts go add acc adv) :
    ∀ (lvl k : ℕ) (p : Ptr) (path : SkipList.Path γ), lvl ≤ heights ts k →
      (sl.head :: ps)[k]? = some p →
      ∃ (stops : ℕ → ℕ) (x : Ptr) (path' : SkipList.Path γ),
        SkipList.descend sl.heap go add lvl p (acc k) path =
          some (x, acc (stops 0), path') ∧
        (sl.head :: ps)[stops 0]? = some x ∧ stops lvl = k ∧
        (∀ i, i < lvl → Walk (heights ts) adv i (stops (i + 1)) (stops i)) ∧
        (∀ i, i < lvl → path'.update i = (sl.head :: ps)[stops i]? ∧
          path'.ranks i = acc (stops i)) ∧
        ∀ i, lvl ≤ i → path'.update i = path.update i ∧ path'.ranks i = path.ranks i
  | 0, k, p, path, _, hp =>
      ⟨fun _ => k, p, path, rfl, hp, rfl, by intro i hi; omega, by intro i hi; omega,
        fun i _ => ⟨rfl, rfl⟩⟩
  | lvl + 1, k, p, path, hk, hp => by
      obtain ⟨b, x, hw, hx, hwalk⟩ := walk_spec r hs (i := lvl) sl.heap.size k p
        (by have := r.length_lt_size; omega) (by omega) hp
      have hb : lvl ≤ heights ts b := by
        rcases hwalk.tall with h | h
        · rw [h]; omega
        · omega
      obtain ⟨stops, y, path', hd, hy, hstart, hwalks, hpath, hrest⟩ :=
        descend_walks r hs lvl b x (path.record lvl x (acc b)) hb hx
      refine ⟨Function.update stops (lvl + 1) k, y, path', ?_, ?_, ?_, ?_, ?_, ?_⟩
      · rw [Function.update_of_ne (by omega)]
        simp [SkipList.descend, hw, hd]
      · rw [Function.update_of_ne (by omega)]; exact hy
      · simp
      · intro i hi
        rcases Nat.lt_or_ge i lvl with h | h
        · rw [Function.update_of_ne (by omega), Function.update_of_ne (by omega)]
          exact hwalks i h
        · obtain rfl : i = lvl := by omega
          rw [Function.update_self, Function.update_of_ne (by omega), hstart]
          exact hwalk
      · intro i hi
        rw [Function.update_of_ne (by omega)]
        rcases Nat.lt_or_ge i lvl with h | h
        · exact hpath i h
        · obtain rfl : i = lvl := by omega
          obtain ⟨h1, h2⟩ := hrest i (Nat.le_refl i)
          rw [h1, h2, hstart, hx]
          simp [SkipList.Path.record]
      · intro i hi
        obtain ⟨h1, h2⟩ := hrest i (by omega)
        rw [h1, h2]
        have hne : i ≠ lvl := by omega
        simp [SkipList.Path.record, hne]

/-- A search from the head is a descent. -/
theorem descend_spec (r : Repr sl ps ts) (hs : LinkSteps ts go add acc adv)
    (path : SkipList.Path γ) :
    ∃ (stops : ℕ → ℕ) (x : Ptr) (path' : SkipList.Path γ),
      SkipList.descend sl.heap go add sl.level sl.head (acc 0) path =
        some (x, acc (stops 0), path') ∧
      Descent (heights ts) adv sl.level stops ∧ (sl.head :: ps)[stops 0]? = some x ∧
      ∀ i, i < sl.level → path'.update i = (sl.head :: ps)[stops i]? ∧
        path'.ranks i = acc (stops i) := by
  obtain ⟨stops, x, path', hd, hx, hstart, hwalks, hpath, _⟩ :=
    descend_walks r hs sl.level 0 sl.head path (by simpa using r.level.2) rfl
  have hpos := r.level.1
  refine ⟨fun j => if j < sl.level then stops j else 0, x, path', ?_, ⟨?_, ?_⟩, ?_, ?_⟩
  · simpa [show 0 < sl.level by omega] using hd
  · intro j hj; simp [Nat.not_lt.mpr hj]
  · intro i hi
    have hw := hwalks i hi
    by_cases h : i + 1 < sl.level
    · simpa [hi, h] using hw
    · have heq : i + 1 = sl.level := by omega
      rw [heq, hstart] at hw
      simpa [hi, h] using hw
  · simpa [show 0 < sl.level by omega] using hx
  · intro i hi
    simpa [hi] using hpath i hi

end LibC
