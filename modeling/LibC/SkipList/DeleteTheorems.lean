/-
LibC.SkipList.DeleteTheorems — `Delete` splices one tower out.

`deleteNode_spec` takes out the node after the end of a search.

`delete_spec`: on a heap that holds `ts`, `Delete` never dereferences a bad
pointer and terminates. It looks at one node only, the one after the position
`stops 0` where the search ended. When that node carries the score and the
value asked for, it is taken out and freed, and the heap holds `ts` without it;
otherwise nothing changes and the answer is `-1`, whether or not the pair is
somewhere else in the list.

Whether the search ends right before a given tower depends on the towers that
are tied with it; `stop_eq_iff` of the sorted sets says when it does.

No `sorry`, no `axiom`, no `native_decide`.
-/
import LibC.SkipList.InsertTheorems

namespace LibC

open LibC.Lib LibC.Lib.Tower

variable {α β : Type} [LinearOrder α] [DecidableEq β] [Neg α] [One α] [Inhabited β]
variable {sl : SkipList α β} {ps : List Ptr} {ts : List (Tower α β)}

/-! ## The loops of `DeleteNode` -/

omit [LinearOrder α] [DecidableEq β] [Neg α] [One α] [Inhabited β] in
/-- Unlinking: at each level the link of `update[i]` skips `x`, or shrinks by one. -/
theorem unlinkLevels_spec {h : Heap (SkipListNode α β)} {x : Ptr} {p : SkipList.Path Unit} {n : ℕ}
    {u : ℕ → Ptr} {v w : ℕ → SkipListLevel}
    (hu : ∀ i, i < n → p.update i = some (u i) ∧ u i ≠ x ∧ getLevel h (u i) i = some (v i) ∧
      ((v i).forward = some x → getLevel h x i = some (w i))) :
    ∃ h', forRange (SkipList.unlinkLevel x p) 0 n h = some h' ∧ SameNodes h h' ∧
      ∀ q j, getLevel h' q j =
        if j < n then
          (if q = u j then
            (if (v j).forward = some x then
              some ⟨(w j).forward, (v j).span + ((w j).span - 1)⟩
            else some { v j with span := (v j).span - 1 })
          else getLevel h q j)
        else getLevel h q j := by
  have hloop := forRange_levels (b := SkipList.unlinkLevel x p)
    (fun q j => if q = u j then
      (if (v j).forward = some x then
        some ⟨(w j).forward, (v j).span + ((w j).span - 1)⟩
      else some { v j with span := (v j).span - 1 })
      else getLevel h q j) h 0 n (by
    intro i h1 _ hi hsame hlev
    obtain ⟨hup, hne, hul, hxl⟩ := hu i (by omega)
    have hul1 : getLevel h1 (u i) i = some (v i) := (hlev _).trans hul
    by_cases hf : (v i).forward = some x
    · have hxl1 : getLevel h1 x i = some (w i) := (hlev _).trans (hxl hf)
      obtain ⟨h2, hm2, hsame2, hlev2⟩ := modifyLevel_spec hul1
        (fun l => ⟨(w i).forward, l.span + ((w i).span - 1)⟩)
      refine ⟨h2, by simp [SkipList.unlinkLevel, hup, hul1, hf, hxl1, hm2], hsame2, fun q j => ?_⟩
      rw [hlev2]
      by_cases hj : j = i
      · subst hj
        by_cases hqu : q = u j
        · simp [hqu, hf]
        · simp [hqu, hlev q]
      · simp [hj]
    · obtain ⟨h2, hm2, hsame2, hlev2⟩ := modifyLevel_spec hul1
        (fun l => { l with span := l.span - 1 })
      refine ⟨h2, by simp [SkipList.unlinkLevel, hup, hul1, hf, hm2], hsame2, fun q j => ?_⟩
      rw [hlev2]
      by_cases hj : j = i
      · subst hj
        by_cases hqu : q = u j
        · simp [hqu, hf]
        · simp [hqu, hlev q]
      · simp [hj])
  obtain ⟨h', hrun, hsame, hlev⟩ := hloop
  refine ⟨h', hrun, hsame, fun q j => ?_⟩
  rw [hlev]
  simp

omit [LinearOrder α] [DecidableEq β] [Neg α] [One α] [Inhabited β] in
/-- Lowering `level_` stops at `1` or below the highest link of the head. -/
theorem dropLevels_spec {h : Heap (SkipListNode α β)} {head : Ptr} : ∀ (lvl : ℕ), 1 ≤ lvl →
    (∀ i, i < lvl → ∃ l, getLevel h head i = some l) →
    ∃ m, SkipList.dropLevels h head lvl = some m ∧ 1 ≤ m ∧ m ≤ lvl ∧
      (∀ i l, m ≤ i → i < lvl → getLevel h head i = some l → l.forward = none) ∧
      (m = 1 ∨ ∃ l, getLevel h head (m - 1) = some l ∧ l.forward ≠ none)
  | 0, h0, _ => by omega
  | 1, _, _ => ⟨1, rfl, Nat.le_refl 1, Nat.le_refl 1, fun i l h1 h2 => by omega, Or.inl rfl⟩
  | lvl + 2, _, hl => by
      obtain ⟨top, htop⟩ := hl (lvl + 1) (by omega)
      by_cases hf : top.forward = none
      · obtain ⟨m, hd, h1, h2, hnull, hm⟩ := dropLevels_spec (lvl + 1) (by omega)
          (fun i hi => hl i (by omega))
        refine ⟨m, by simp [SkipList.dropLevels, htop, hf, hd], h1, by omega,
          fun i l h3 h4 h5 => ?_,
          hm⟩
        rcases Nat.lt_or_ge i (lvl + 1) with h | h
        · exact hnull i l h3 h h5
        · obtain rfl : i = lvl + 1 := by omega
          rw [htop] at h5
          cases h5
          exact hf
      · exact ⟨lvl + 2, by simp [SkipList.dropLevels, htop, hf], by omega, Nat.le_refl _,
          fun i l h1 h2 => by omega, Or.inr ⟨top, htop, hf⟩⟩

omit [LinearOrder α] [DecidableEq β] [Neg α] [One α] [Inhabited β] in
/-- What `DeleteNode` does after the loop: the node after `x` gets the `backward`
pointer `b` of `x`, or `tail_` does when there is none. -/
theorem relink_spec {h : Heap (SkipListNode α β)} {g b c : Option Ptr} :
    (∀ f, g = some f → ∃ t, nodeData h f = some t) →
    ∃ h', (∀ {δ : Type} (k : Heap (SkipListNode α β) → Option Ptr → Option δ),
        (match g with
        | some f => (setBackward h f b).bind fun h => k h c
        | none => k h b) = k h' (if g = none then b else c)) ∧
      (∀ q, nodeData h' q = nodeData h q) ∧
      (∀ q, nodeBack h' q = if g = some q then some b else nodeBack h q) ∧
      ∀ q j, getLevel h' q j = getLevel h q j := by
  intro hf
  cases g with
  | none => exact ⟨h, fun _ => by simp, fun _ => rfl, fun _ => by simp, fun _ _ => rfl⟩
  | some f =>
      obtain ⟨t, ht⟩ := hf f rfl
      obtain ⟨h', hset, _, hdata, hback, hlev⟩ := setBackward_spec ht b
      refine ⟨h', fun _ => by simp [hset], hdata, fun q => ?_, hlev⟩
      rw [hback]
      by_cases hq : q = f
      · simp [hq]
      · simp [hq, Ne.symm hq]

/-! ## Positions after a removal -/

section Positions

variable {δ : Type} {a : δ} {l : List δ} {k K : ℕ}

theorem getElem?_cons_eraseIdx_of_le (h : k ≤ K) : (a :: l.eraseIdx K)[k]? = (a :: l)[k]? := by
  rw [← List.eraseIdx_cons_succ, List.getElem?_eraseIdx_of_lt (by omega)]

theorem getElem?_cons_eraseIdx_of_gt (h : K < k) : (a :: l.eraseIdx K)[k]? = (a :: l)[k + 1]? := by
  rw [← List.eraseIdx_cons_succ, List.getElem?_eraseIdx_of_ge (by omega)]

/-- The last element after a removal. -/
theorem getLast?_eraseIdx (hK : K < l.length) :
    (l.eraseIdx K).getLast? =
      if K + 1 = l.length then (if K = 0 then none else (a :: l)[K]?) else l.getLast? := by
  have hlen : (l.eraseIdx K).length = l.length - 1 := List.length_eraseIdx_of_lt hK
  rw [List.getLast?_eq_getElem?, hlen]
  split
  · rename_i h
    split
    · rename_i h0
      rw [List.getElem?_eq_none (by omega)]
    · obtain ⟨j, rfl⟩ : ∃ j, K = j + 1 := ⟨K - 1, by omega⟩
      rw [List.getElem?_eraseIdx_of_lt (by omega), List.getElem?_cons_succ]
      congr 1
      omega
  · rw [List.getElem?_eraseIdx_of_ge (by omega), List.getLast?_eq_getElem?]
    congr 1
    omega

end Positions

/-! ## The links after a removal -/

section Links

variable {adv : ℕ → Prop} {stops : ℕ → ℕ} {x : Ptr} {u : ℕ → Ptr}
variable {ul xl : ℕ → SkipListLevel} {links : Ptr → ℕ → Option SkipListLevel}

omit [DecidableEq β] in
/-- `update[i]` is linked to the node after the search exactly at the levels that node
reaches. -/
theorem forward_update_iff (r : Repr sl ps ts) (d : Descent (heights ts) adv sl.level stops)
    (hx : (sl.head :: ps)[stops 0 + 1]? = some x) {i : ℕ} {p : Ptr} {l : SkipListLevel}
    (hp : (sl.head :: ps)[stops i]? = some p) (hl : getLevel sl.heap p i = some l) :
    l.forward = some x ↔ i < heights ts (stops 0 + 1) := by
  have hok := r.link _ _ _ _ hp hl
  constructor
  · intro hf
    by_cases hex : ∃ q, IsNext (heights ts) i (stops i) q
    · obtain ⟨q, hq⟩ := hex
      have hpq : (sl.head :: ps)[q]? = some x := (hok.next q hq).1.symm.trans hf
      rw [← r.pos_inj hpq hx]
      exact hq.tall
    · rw [hok.null fun q hq => hex ⟨q, hq⟩] at hf
      cases hf
  · intro hi
    have hle := d.stops_le i
    rw [(hok.next (stops 0 + 1) ⟨by omega, hi, fun j h1 h2 => r.gap d h1 (by omega)⟩).1, hx]

omit [DecidableEq β] in
/-- What the loop leaves at each node is right for the list without the tower. -/
theorem erase_linkOk (r : Repr sl ps ts) (d : Descent (heights ts) adv sl.level stops)
    (hx : (sl.head :: ps)[stops 0 + 1]? = some x)
    (hu : ∀ j, j < sl.level → (sl.head :: ps)[stops j]? = some (u j) ∧
      getLevel sl.heap (u j) j = some (ul j) ∧
      ((ul j).forward = some x → getLevel sl.heap x j = some (xl j)))
    (hlinks : ∀ q j, q ≠ x → links q j =
      if j < sl.level ∧ q = u j then
        (if (ul j).forward = some x then
          some ⟨(xl j).forward, (ul j).span + ((xl j).span - 1)⟩
        else some { ul j with span := (ul j).span - 1 })
      else getLevel sl.heap q j) :
    ∀ k p i l, (sl.head :: ps.eraseIdx (stops 0))[k]? = some p → links p i = some l →
      LinkOk (spliceOut (heights ts) (stops 0 + 1)) (sl.head :: ps.eraseIdx (stops 0)) i k l := by
  have hPle : ∀ q, q < stops 0 + 1 →
      (sl.head :: ps.eraseIdx (stops 0))[q]? = (sl.head :: ps)[q]? :=
    fun q hq => getElem?_cons_eraseIdx_of_le (by omega)
  have hPgt : ∀ q, stops 0 + 1 ≤ q →
      (sl.head :: ps.eraseIdx (stops 0))[q]? = (sl.head :: ps)[q + 1]? :=
    fun q hq => getElem?_cons_eraseIdx_of_gt (by omega)
  intro k p i l hp hl
  rcases Nat.lt_or_ge k (stops 0 + 1) with hk | hk
  · -- a node at or before the end of the search
    have hp' : (sl.head :: ps)[k]? = some p := by rw [← hPle k hk]; exact hp
    have hpx : p ≠ x := fun heq => by
      have := r.pos_inj (heq ▸ hp') hx; omega
    rw [hlinks p i hpx] at hl
    by_cases hex : ∃ j, k < j ∧ j < stops 0 + 1 ∧ i < heights ts j
    · have hnot : ¬ (i < sl.level ∧ p = u i) := by
        rintro ⟨hi, heq⟩
        obtain ⟨j, h1, h2, h3⟩ := hex
        have hks : k = stops i := r.pos_inj hp' (heq ▸ (hu i hi).1)
        have := r.gap d (i := i) (m := j) (by omega) (by omega)
        omega
      rw [if_neg hnot] at hl
      exact (r.link k p i l hp' hl).erase_lt hex hPle
    · have hgap : ∀ j, k < j → j < stops 0 + 1 → heights ts j ≤ i := fun j h1 h2 => by
        by_contra hcon
        exact hex ⟨j, h1, h2, by omega⟩
      by_cases hi : i < sl.level ∧ p = u i
      · rw [if_pos hi] at hl
        obtain ⟨hpos, hul, hxl⟩ := hu i hi.1
        have hks : k = stops i := r.pos_inj hp' (hi.2 ▸ hpos)
        have hok : LinkOk (heights ts) (sl.head :: ps) i k (ul i) :=
          r.link k p i _ hp' (hi.2 ▸ hul)
        have hiff := forward_update_iff r d hx hpos hul
        by_cases hf : (ul i).forward = some x
        · rw [if_pos hf] at hl
          cases hl
          exact hok.erase_join (r.link _ _ _ _ hx (hxl hf)) hk hgap (hiff.mp hf) hPgt
        · rw [if_neg hf] at hl
          cases hl
          exact hok.erase_skip hk hgap (Nat.not_lt.mp fun h => hf (hiff.mpr h)) hPgt
      · -- a link of the head at a level that is not open
        rw [if_neg hi] at hl
        have hks : k = stops i := r.eq_stop d (by omega) (r.lt_height hp' hl)
          (fun j h1 h2 => hgap j h1 (by omega))
        have hlvl : sl.level ≤ i := by
          by_contra hlt
          have := (hu i (by omega)).1
          rw [← hks, hp'] at this
          exact hi ⟨by omega, Option.some.inj this⟩
        refine ⟨fun q hq => ?_, fun _ =>
          (r.link k p i l hp' hl).null (r.not_isNext_of_level_le hlvl k)⟩
        exfalso
        have hq1 := hq.tall
        have hq2 := hq.lt
        rcases Nat.lt_or_ge q (stops 0 + 1) with h1 | h1
        · rw [spliceOut_of_lt h1] at hq1
          have := r.height_le hlvl (q := q) (by omega)
          omega
        · rw [spliceOut_of_ge h1] at hq1
          have := r.height_le hlvl (q := q + 1) (by omega)
          omega
  · -- a node beyond the removed one
    have hp' : (sl.head :: ps)[k + 1]? = some p := by rw [← hPgt k hk]; exact hp
    have hpx : p ≠ x := fun heq => by
      have := r.pos_inj (heq ▸ hp') hx; omega
    have hnot : ¬ (i < sl.level ∧ p = u i) := by
      rintro ⟨hi, heq⟩
      have hks : k + 1 = stops i := r.pos_inj hp' (heq ▸ (hu i hi).1)
      have := d.stops_le i
      omega
    rw [hlinks p i hpx, if_neg hnot] at hl
    exact (r.link _ p i l hp' hl).erase_gt hk hPgt

end Links

/-! ## `Delete` -/

omit [DecidableEq β] in
/-- The list that a heap holds once the node `x` is unlinked and freed. -/
theorem erase_repr (r : Repr sl ps ts) {K : ℕ} {x : Ptr}
    (hx : (sl.head :: ps)[K + 1]? = some x) {sl' : SkipList α β} (hhead : sl'.head = sl.head)
    (htail : sl'.tail = if K + 1 = ts.length then (if K = 0 then none else (sl.head :: ps)[K]?)
      else sl.tail)
    (hdata : ∀ q, q ≠ x → nodeData sl'.heap q = nodeData sl.heap q)
    (hback : ∀ q, q ≠ x → nodeBack sl'.heap q =
      if (sl.head :: ps)[K + 2]? = some q then
        some (if K = 0 then none else (sl.head :: ps)[K]?)
      else nodeBack sl.heap q)
    (hlink : ∀ (k : ℕ) (p : Ptr) (i : ℕ) (l : SkipListLevel),
      (sl.head :: ps.eraseIdx K)[k]? = some p → getLevel sl'.heap p i = some l →
      LinkOk (spliceOut (heights ts) (K + 1)) (sl.head :: ps.eraseIdx K) i k l)
    (hlevel : 1 ≤ sl'.level ∧ sl'.level ≤ sl.level)
    (hdrop : ∀ i l, sl'.level ≤ i → i < sl.level → getLevel sl'.heap sl.head i = some l →
      l.forward = none)
    (hkeep : sl'.level = 1 ∨
      ∃ l, getLevel sl'.heap sl.head (sl'.level - 1) = some l ∧ l.forward ≠ none) :
    Repr sl' (ps.eraseIdx K) (ts.eraseIdx K) := by
  have hKt : K < ts.length := by have := r.pos_lt hx; omega
  have hK : K < ps.length := by rw [r.len]; exact hKt
  have hl1 := List.length_eraseIdx_of_lt hK
  have hl2 := List.length_eraseIdx_of_lt hKt
  -- where each node was before
  have hwas : ∀ {k : ℕ} {p : Ptr}, (sl.head :: ps.eraseIdx K)[k]? = some p →
      (k ≤ K ∧ (sl.head :: ps)[k]? = some p ∧ p ≠ x) ∨
      (K < k ∧ (sl.head :: ps)[k + 1]? = some p ∧ p ≠ x) := by
    intro k p hp
    rcases Nat.lt_or_ge K k with h | h
    · rw [getElem?_cons_eraseIdx_of_gt h] at hp
      exact Or.inr ⟨h, hp, fun heq => by have := r.pos_inj (heq ▸ hp) hx; omega⟩
    · rw [getElem?_cons_eraseIdx_of_le h] at hp
      exact Or.inl ⟨h, hp, fun heq => by have := r.pos_inj (heq ▸ hp) hx; omega⟩
  have hdata' : ∀ (k : ℕ) (p : Ptr), (sl.head :: ps.eraseIdx K)[k]? = some p →
      nodeData sl'.heap p = (headTower :: ts.eraseIdx K)[k]? := by
    intro k p hp
    rcases hwas hp with ⟨h, hp', hne⟩ | ⟨h, hp', hne⟩
    · rw [hdata p hne, getElem?_cons_eraseIdx_of_le h]; exact r.data _ p hp'
    · rw [hdata p hne, getElem?_cons_eraseIdx_of_gt h]; exact r.data _ p hp'
  have hhead0 : ∀ i, i < maxLevel → ∃ l, getLevel sl'.heap sl.head i = some l ∧
      LinkOk (heights (ts.eraseIdx K)) (sl.head :: ps.eraseIdx K) i 0 l := by
    intro i hi
    obtain ⟨l, hl⟩ := getLevel_isSome (hdata' 0 sl.head rfl) hi
    exact ⟨l, hl, heights_eraseIdx ts K ▸ hlink 0 _ i l rfl hl⟩
  have htall : ∀ t ∈ ts.eraseIdx K, 1 ≤ t.height ∧ t.height ≤ sl'.level := by
    intro t ht
    have htl := r.tall t (List.mem_of_mem_eraseIdx ht)
    refine ⟨htl.1, ?_⟩
    by_contra hcon
    -- the head still has a link at the top level of `t`
    obtain ⟨m, hm⟩ := List.mem_iff_getElem?.mp ht
    have hlvl := r.level.2
    obtain ⟨l, hl, hok⟩ := hhead0 (t.height - 1) (by omega)
    have hgt := heights_succ hm
    obtain ⟨q, hq, _⟩ := exists_isNext (show 0 < m + 1 by omega)
      (show t.height - 1 < heights (ts.eraseIdx K) (m + 1) by omega)
    have hnone := hdrop (t.height - 1) l (by omega) (by omega) hl
    rw [(hok.next q hq).1, List.getElem?_eq_none_iff] at hnone
    have := isNext_le_length hq
    have := r.len
    simp only [List.length_cons] at hnone
    omega
  refine ⟨by rw [hl1, hl2, r.len], ?_, ?_, ?_, ?_, htall, ?_, ?_, ?_, ?_⟩
  · rw [hhead, ← List.eraseIdx_cons_succ]
    exact r.nodup.sublist (List.eraseIdx_sublist _ _)
  · rw [hhead]; exact hdata'
  · -- the `backward` pointers
    rw [hhead]
    intro k p hp
    rcases hwas hp with ⟨h, hp', hne⟩ | ⟨h, hp', hne⟩
    · have hnot : ¬ (sl.head :: ps)[K + 2]? = some p := fun h2 => by
        have := r.pos_inj hp' h2; omega
      rw [hback p hne, if_neg hnot, getElem?_cons_eraseIdx_of_le (by omega)]
      exact r.back k p hp'
    · rw [hback p hne]
      by_cases hk1 : k = K + 1
      · subst hk1
        rw [if_pos hp', Nat.add_sub_cancel, getElem?_cons_eraseIdx_of_le (Nat.le_refl K)]
        simp
      · have hnot : ¬ (sl.head :: ps)[K + 2]? = some p := fun h2 => by
          have := r.pos_inj hp' h2; omega
        obtain ⟨k, rfl⟩ : ∃ j, k = j + 1 := ⟨k - 1, by omega⟩
        rw [if_neg hnot, r.back _ p hp', if_neg (by omega), if_neg (by omega), Nat.add_sub_cancel,
          Nat.add_sub_cancel, getElem?_cons_eraseIdx_of_gt (by omega)]
  · rw [hhead, heights_eraseIdx]; exact hlink
  · have := r.level; omega
  · -- the maximum is attained
    rcases hkeep with h | ⟨l, hl, hf⟩
    · exact Or.inl h
    · obtain ⟨l', hl', hok⟩ := hhead0 (sl'.level - 1) (by have := r.level; omega)
      obtain rfl : l = l' := Option.some.inj (hl.symm.trans hl')
      have hex : ∃ q, IsNext (heights (ts.eraseIdx K)) (sl'.level - 1) 0 q := by
        by_contra hno
        exact hf (hok.null fun q hq => hno ⟨q, hq⟩)
      obtain ⟨q, hq⟩ := hex
      obtain ⟨q, rfl⟩ : ∃ j, q = j + 1 := ⟨q - 1, by have := hq.lt; omega⟩
      have hlt : q < (ts.eraseIdx K).length := by have := isNext_le_length hq; omega
      have hmem := List.getElem_mem hlt
      have htop := hq.tall
      rw [heights_succ (List.getElem?_eq_getElem hlt)] at htop
      have := htall _ hmem
      exact Or.inr ⟨_, hmem, by omega⟩
  · rw [htail, getLast?_eraseIdx (a := sl.head) hK, r.tail, r.len]
  · exact r.sorted.sublist (List.eraseIdx_sublist _ _)

omit [DecidableEq β] in
/-- `DeleteNode`, for the node after the end of a search. -/
theorem deleteNode_spec (r : Repr sl ps ts) {adv : ℕ → Prop} {stops : ℕ → ℕ}
    (d : Descent (heights ts) adv sl.level stops) {x : Ptr} {p : SkipList.Path Unit}
    (hx : (sl.head :: ps)[stops 0 + 1]? = some x)
    (hp : ∀ i, i < sl.level → p.update i = (sl.head :: ps)[stops i]?) :
    ∃ sl', SkipList.deleteNode x p sl = some sl' ∧ sl'.lenth = sl.lenth + 1 ∧
      Repr { sl' with heap := sl'.heap.free x } (ps.eraseIdx (stops 0))
        (ts.eraseIdx (stops 0)) := by
  have hlvl := r.level
  obtain ⟨t, ht, hd⟩ := r.exists_data hx
  have hux : ∀ {j : ℕ} {q : Ptr}, (sl.head :: ps)[stops j]? = some q → q ≠ x := by
    intro j q hq heq
    have := r.pos_inj (heq ▸ hq) hx
    have := d.stops_le j
    omega
  -- the nodes `update[]` names, their links, and the links of `x`
  have hex : ∀ j, ∃ u ul xl, j < sl.level → (sl.head :: ps)[stops j]? = some u ∧
      getLevel sl.heap u j = some ul ∧
      (ul.forward = some x → getLevel sl.heap x j = some xl) := by
    intro j
    by_cases hj : j < sl.level
    · obtain ⟨u, ul, hu, hul⟩ := r.stop_link d (i := j) (by omega)
      by_cases hf : ul.forward = some x
      · obtain ⟨xl, hxl, _⟩ := r.link_pos hx ((forward_update_iff r d hx hu hul).mp hf)
        exact ⟨u, ul, xl, fun _ => ⟨hu, hul, fun _ => hxl⟩⟩
      · exact ⟨u, ul, ⟨none, 0⟩, fun _ => ⟨hu, hul, fun h => absurd h hf⟩⟩
    · exact ⟨0, ⟨none, 0⟩, ⟨none, 0⟩, fun h => absurd h hj⟩
  choose u ul xl hu using hex
  obtain ⟨h1, hunlink, hsame1, hlev1⟩ := unlinkLevels_spec (h := sl.heap) (x := x) (p := p)
    (n := sl.level) (u := u) (v := ul) (w := xl) (fun i hi =>
      ⟨(hp i hi).trans (hu i hi).1, hux (hu i hi).1, (hu i hi).2⟩)
  -- the node itself
  obtain ⟨nd1, hg1, _⟩ := get_of_nodeData ((hsame1.data x).trans hd)
  have hback1 : nd1.backward = if stops 0 = 0 then none else (sl.head :: ps)[stops 0]? := by
    have h := (hsame1.back x).trans (r.back _ x hx)
    simpa [nodeBack, hg1] using h
  obtain ⟨x0, hx0, _⟩ := r.link_pos hx (i := 0) (r.height_pos_of_le (r.pos_lt hx))
  have hfx0 : x0.forward = (sl.head :: ps)[stops 0 + 2]? := r.forward_zero hx hx0
  have hx01 : nd1.level[0]? = some x0 := by
    have h : getLevel h1 x 0 = some x0 := by
      rw [hlev1, if_pos (by omega), if_neg (Ne.symm (hux (hu 0 (by omega)).1)), hx0]
    simpa [getLevel, hg1] using h
  obtain ⟨h2, hrelink, hdata2, hback2, hlev2⟩ := relink_spec (h := h1) (g := x0.forward)
    (b := nd1.backward) (c := sl.tail) (fun f hf => by
      obtain ⟨tf, _, hdf⟩ := r.exists_data (hfx0.symm.trans hf)
      exact ⟨tf, (hsame1.data f).trans hdf⟩)
  have hhead2 : nodeData h2 sl.head = some headTower :=
    (hdata2 _).trans ((hsame1.data _).trans (r.data 0 _ rfl))
  obtain ⟨m, hdrop, hm1, hm2, hnull, hkeep⟩ := dropLevels_spec (h := h2) sl.level hlvl.1
    (fun i hi => getLevel_isSome hhead2 (show i < maxLevel by omega))
  have hhx : sl.head ≠ x := fun heq => by
    have := r.pos_inj (k := 0) hx (by rw [← heq]; rfl)
    omega
  obtain ⟨hdata3, hback3, hlev3⟩ := free_spec h2 x
  refine ⟨{ sl with
    heap := h2, level := m, lenth := sl.lenth + 1,
    tail := (if x0.forward = none then nd1.backward else sl.tail) }, ?_, rfl, ?_⟩
  · simp only [SkipList.deleteNode, hunlink, hg1, hx01, Option.bind_eq_bind, Option.bind_some]
    refine (hrelink fun h tail => (SkipList.dropLevels h sl.head sl.level).bind fun level =>
      some { sl with heap := h, tail, level, lenth := sl.lenth + 1 }).trans ?_
    simp [hdrop]
  · refine erase_repr r hx rfl ?_ (fun q hq => ?_) (fun q hq => ?_) ?_ ⟨hm1, hm2⟩ ?_ ?_
    · have hend : x0.forward = none ↔ stops 0 + 1 = ts.length := by
        have := r.pos_lt hx
        rw [hfx0, List.getElem?_eq_none_iff, List.length_cons, r.len]
        omega
      simp only [hend, hback1]
    · rw [hdata3, if_neg hq, hdata2, hsame1.data]
    · rw [hback3, if_neg hq, hback2, hsame1.back, hfx0, hback1]
    · refine erase_linkOk r d hx hu (fun q j hq => ?_)
      rw [hlev3, if_neg hq, hlev2, hlev1, ite_and]
    · intro i l h1 h2' hl
      rw [hlev3, if_neg hhx] at hl
      exact hnull i l h1 h2' hl
    · rcases hkeep with h | ⟨l, hl, hf⟩
      · exact Or.inl h
      · refine Or.inr ⟨l, ?_, hf⟩
        rw [hlev3, if_neg hhx]
        exact hl

/-- **`Delete`.** The search ends at `stops 0`, and the node after it is taken out when
it carries the score and the value; otherwise nothing happens. -/
theorem delete_spec (r : Repr sl ps ts) (score : α) (val : β) :
    ∃ stops : ℕ → ℕ, Descent (heights ts) (BeforeAt ts score val) sl.level stops ∧
      ((∃ t sl', ts[stops 0]? = some t ∧ t.score = score ∧ t.val = val ∧
          SkipList.delete score val sl = some (0, sl') ∧ sl'.lenth = sl.lenth + 1 ∧
          Repr sl' (ps.eraseIdx (stops 0)) (ts.eraseIdx (stops 0))) ∨
        ((∀ t, ts[stops 0]? = some t → ¬ (t.score = score ∧ t.val = val)) ∧
          SkipList.delete score val sl = some (-1, sl))) := by
  obtain ⟨stops, y, p, hdesc, d, hy, hp⟩ :=
    descend_spec r (steps_delete ts score val).onLinks ⟨fun _ => none, fun _ => ()⟩
  refine ⟨stops, d, ?_⟩
  obtain ⟨yl, hyl, _⟩ := r.link_pos hy (i := 0) (r.height_pos_of_le (r.pos_lt hy))
  have hf0 : yl.forward = (sl.head :: ps)[stops 0 + 1]? := r.forward_zero hy hyl
  cases hx : (sl.head :: ps)[stops 0 + 1]? with
  | none =>
      right
      rw [hx] at hf0
      refine ⟨fun t ht => ?_, by simp [SkipList.delete, hdesc, hyl, hf0]⟩
      have h1 := (List.getElem?_eq_some_iff.mp ht).1
      have h2 := List.getElem?_eq_none_iff.mp hx
      simp only [List.length_cons, r.len] at h2
      omega
  | some x =>
      rw [hx] at hf0
      obtain ⟨t, ht, hd⟩ := r.exists_data hx
      rw [List.getElem?_cons_succ] at ht
      obtain ⟨nd, hg, hs, hv, hlen⟩ := get_of_nodeData hd
      by_cases hmatch : t.score = score ∧ t.val = val
      · left
        obtain ⟨sl', hnode, hlenth, r'⟩ := deleteNode_spec r d hx fun i hi => (hp i hi).1
        have hyes : score = nd.score ∧ nd.val = val := ⟨by rw [hs, hmatch.1], hv.trans hmatch.2⟩
        refine ⟨t, { sl' with heap := sl'.heap.free x }, ht, hmatch.1, hmatch.2, ?_, hlenth, r'⟩
        simp only [SkipList.delete, hdesc, hyl, hf0, hg, if_pos hyes, hnode, Option.bind_eq_bind,
          Option.bind_some]
      · right
        refine ⟨fun t' ht' => ?_, ?_⟩
        · rw [ht] at ht'; cases ht'; exact hmatch
        · have hno : ¬ (score = nd.score ∧ nd.val = val) := fun h =>
            hmatch ⟨by rw [← hs, h.1], by rw [← hv, h.2]⟩
          simp [SkipList.delete, hdesc, hyl, hf0, hg, hno]

end LibC
