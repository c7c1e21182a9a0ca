/-
LibC.SkipList.IterTheorems — what an iteration visits.

`SkipList.nodes` are the nodes of the level-`0` chain, in order. The loop
`for (itr = begin(); itr != end(); ++itr)` visits exactly these
(`iterate_spec`); on a list without elements `begin()` dereferences the null
`tail_` (`being_nil`).

`insert_last`: an insertion behind everything that is smaller or tied goes to
the end of the list, whatever the heights.

No `sorry`, no `axiom`, no `native_decide`.
-/
import LibC.SkipList.ListTheorems

namespace LibC

open LibC.Lib LibC.Lib.Tower

variable {α β : Type}

/-- The nodes met by following the links of level `0`. -/
def chainNodes (h : Heap (SkipListNode α β)) : ℕ → Option Ptr → List (SkipListNode α β)
  | fuel + 1, some p =>
      match h.get p with
      | some nd => nd :: chainNodes h fuel ((nd.level[0]?).bind SkipListLevel.forward)
      | none => []
  | _, _ => []

/-- The nodes of the level-`0` chain. -/
def SkipList.nodes (sl : SkipList α β) : List (SkipListNode α β) :=
  chainNodes sl.heap sl.heap.size ((getLevel sl.heap sl.head 0).bind SkipListLevel.forward)

/-- The scores and the values of the list, in order. -/
def SkipList.pairs (sl : SkipList α β) : List (α × β) := sl.nodes.map fun nd => (nd.score, nd.val)

variable [LinearOrder α] [Neg α] [One α] [Inhabited β]
variable {sl : SkipList α β} {ps : List Ptr} {ts : List (Tower α β)}

/-- A position, its node, and the link that leads on. -/
theorem Repr.node_pos (r : Repr sl ps ts) {k : ℕ} (hk : k < ps.length) :
    ∃ nd l, sl.heap.get ps[k] = some nd ∧ nd.level[0]? = some l ∧
      l.forward = (sl.head :: ps)[k + 2]? := by
  have hp : (sl.head :: ps)[k + 1]? = some ps[k] := by
    rw [List.getElem?_cons_succ, List.getElem?_eq_getElem hk]
  obtain ⟨l, hl, _⟩ := r.link_pos hp (i := 0) (r.height_pos_of_le (r.pos_lt hp))
  have hl' := hl
  simp only [getLevel, Option.bind_eq_bind, Option.bind_eq_some_iff] at hl'
  obtain ⟨nd, hg, hlv⟩ := hl'
  exact ⟨nd, l, hg, hlv, r.forward_zero hp hl⟩

/-- The chain from a position on. -/
theorem Repr.chainNodes_eq (r : Repr sl ps ts) : ∀ (n k fuel : ℕ), ps.length - k = n →
    n ≤ fuel → chainNodes sl.heap fuel ((sl.head :: ps)[k + 1]?) =
      (ps.drop k).filterMap sl.heap.get := by
  intro n
  induction n with
  | zero =>
      intro k fuel hn _
      rw [List.getElem?_eq_none (by simp only [List.length_cons]; omega),
        List.drop_eq_nil_of_le (by omega)]
      cases fuel <;> rfl
  | succ n ih =>
      intro k fuel hn hf
      have hk : k < ps.length := by omega
      obtain ⟨fuel, rfl⟩ : ∃ f, fuel = f + 1 := ⟨fuel - 1, by omega⟩
      obtain ⟨nd, l, hg, hlv, hf2⟩ := r.node_pos hk
      rw [List.getElem?_cons_succ, List.getElem?_eq_getElem hk, List.drop_eq_getElem_cons hk,
        List.filterMap_cons_some hg]
      simp only [chainNodes, hg, hlv, Option.bind_some, hf2]
      rw [ih (k + 1) fuel (by omega) (by omega)]

/-- The nodes of the list. -/
theorem Repr.nodes_eq (r : Repr sl ps ts) : sl.nodes = ps.filterMap sl.heap.get := by
  obtain ⟨l, hl, _⟩ := r.link_pos (k := 0) (p := sl.head) rfl
    (i := 0) (show 0 < maxLevel by decide)
  rw [SkipList.nodes, hl, Option.bind_some, r.forward_zero (k := 0) rfl hl,
    r.chainNodes_eq ps.length 0 _ rfl (by have := r.length_lt_size; have := r.len; omega),
    List.drop_zero]

/-- The scores and the values of the list are those of the towers. -/
theorem Repr.pairs_eq (r : Repr sl ps ts) : sl.pairs = ts.map fun t => (t.score, t.val) := by
  have hget : ∀ p ∈ ps, ∃ nd, sl.heap.get p = some nd := fun p hp => by
    obtain ⟨k, hk⟩ := List.mem_iff_getElem?.mp hp
    obtain ⟨_, nd, _, hg, _⟩ := r.get_pos hk
    exact ⟨nd, hg⟩
  have hmap : (ps.filterMap sl.heap.get).map some = ps.map sl.heap.get := by
    rw [List.map_filterMap]
    clear r
    induction ps with
    | nil => rfl
    | cons p ps ih =>
        obtain ⟨nd, hg⟩ := hget p (List.mem_cons_self ..)
        rw [List.filterMap_cons_some (b := some nd) (by rw [hg]; rfl), List.map_cons, hg,
          ih fun q hq => hget q (List.mem_cons_of_mem _ hq)]
  rw [SkipList.pairs, r.nodes_eq]
  refine List.ext_getElem? fun k => ?_
  have hk := congrArg (fun l => l[k]?) hmap
  simp only [List.getElem?_map] at hk ⊢
  cases hp : ps[k]? with
  | none =>
      have hlen := List.getElem?_eq_none_iff.mp hp
      rw [hp] at hk
      rw [Option.map_eq_none_iff.mp hk, List.getElem?_eq_none (by have := r.len; omega)]
      rfl
  | some p =>
      obtain ⟨t, nd, ht, hg, hs, hv⟩ := r.get_pos hp
      rw [hp, Option.map_some, hg] at hk
      cases hn : (ps.filterMap sl.heap.get)[k]? with
      | none => rw [hn] at hk; cases hk
      | some nd' =>
          rw [hn] at hk
          simp only [Option.map_some, Option.some.injEq] at hk
          rw [ht, Option.map_some, Option.map_some, hk, hs, hv]

/-- The last node of a list that is not empty has no link at level `0`. -/
theorem Repr.tail_link (r : Repr sl ps ts) (hne : ts ≠ []) :
    ∃ t l, sl.tail = some t ∧ getLevel sl.heap t 0 = some l ∧ l.forward = none := by
  have hlen : 0 < ps.length := by rw [r.len]; exact List.length_pos_iff.mpr hne
  have hlast : ps.getLast? = some ps[ps.length - 1] := by
    rw [List.getLast?_eq_getElem?, List.getElem?_eq_getElem (by omega)]
  obtain ⟨nd, l, hg, hlv, hf⟩ := r.node_pos (k := ps.length - 1) (by omega)
  refine ⟨_, l, r.tail.trans hlast, by simp [getLevel, hg, hlv], ?_⟩
  rw [hf, List.getElem?_eq_none (by simp only [List.length_cons]; omega)]

omit [LinearOrder α] [Neg α] [One α] [Inhabited β] in
/-- `begin()` of a list without a tail dereferences a null pointer. -/
theorem being_of_tail_none (h : sl.tail = none) : sl.being = none := by
  cases hl : getLevel sl.heap sl.head 0 <;> simp [SkipList.being, h, hl]

/-- `begin()` of an empty list. -/
theorem Repr.being_nil (r : Repr sl ps ts) (h : ts = []) : sl.being = none := by
  have hps : ps = [] := List.eq_nil_of_length_eq_zero (by rw [r.len, h]; rfl)
  exact being_of_tail_none (by rw [r.tail, hps]; rfl)

/-- An iteration from a position on. -/
theorem Repr.iterate_eq (r : Repr sl ps ts) (hne : ts ≠ []) : ∀ (n k fuel : ℕ),
    ps.length - k = n → n < fuel →
    sl.iterate fuel ⟨(sl.head :: ps)[k + 1]?, none⟩ = some ((ps.drop k).filterMap sl.heap.get) := by
  obtain ⟨t, tl, htail, htl, htf⟩ := r.tail_link hne
  have hend : sl.endItr = some ⟨none, none⟩ := by simp [SkipList.endItr, htail, htl, htf]
  intro n
  induction n with
  | zero =>
      intro k fuel hn hf
      obtain ⟨fuel, rfl⟩ : ∃ f, fuel = f + 1 := ⟨fuel - 1, by omega⟩
      rw [List.getElem?_eq_none (by simp only [List.length_cons]; omega),
        List.drop_eq_nil_of_le (by omega)]
      simp [SkipList.iterate, hend]
  | succ n ih =>
      intro k fuel hn hf
      have hk : k < ps.length := by omega
      obtain ⟨fuel, rfl⟩ : ∃ f, fuel = f + 1 := ⟨fuel - 1, by omega⟩
      obtain ⟨nd, l, hg, hlv, hf2⟩ := r.node_pos hk
      rw [List.getElem?_cons_succ, List.getElem?_eq_getElem hk, List.drop_eq_getElem_cons hk,
        List.filterMap_cons_some hg]
      have hrest := ih (k + 1) fuel (by omega) (by omega)
      simp only [SkipList.iterate, hend, Option.bind_eq_bind, Option.bind_some, reduceCtorEq,
        if_false, hg, hlv, hf2, hrest]

/-- An iteration over a list that is not empty visits its nodes in order. -/
theorem Repr.iterate_spec (r : Repr sl ps ts) (hne : ts ≠ []) :
    ∃ begin, sl.being = some begin ∧ sl.iterate (sl.heap.size + 1) begin = some sl.nodes := by
  obtain ⟨t, tl, htail, htl, htf⟩ := r.tail_link hne
  obtain ⟨l, hl, _⟩ := r.link_pos (k := 0) (p := sl.head) rfl
    (i := 0) (show 0 < maxLevel by decide)
  refine ⟨⟨(sl.head :: ps)[0 + 1]?, none⟩, ?_, ?_⟩
  · simp only [SkipList.being, hl, htail, htl, htf, Option.bind_eq_bind, Option.bind_some,
      r.forward_zero (k := 0) rfl hl]
  · rw [r.iterate_eq hne ps.length 0 _ rfl
      (by have := r.length_lt_size; have := r.len; omega), List.drop_zero, r.nodes_eq]

variable [DecidableEq β]

/-- An insertion behind everything that is smaller or tied goes to the end. -/
theorem insert_last (r : Repr sl ps ts) (lvl : Lvl) {score : α} {val : β}
    (h : ∀ t ∈ ts, Before score val t) :
    ∃ sl', SkipList.insert lvl score val sl = some (0, sl') ∧ sl'.lenth = sl.lenth + 1 ∧
      Repr sl' (ps ++ [sl.heap.size]) (ts ++ [⟨score, val, lvl.val⟩]) := by
  obtain ⟨stops, sl', hins, d, hlen, r'⟩ := insert_spec r lvl score val
  have hend : stops 0 = ts.length := by
    by_contra hne
    have hlt : stops 0 < ts.length := by have := stop_le_length d 0; omega
    refine d.not_adv_final r.level.1 (r.height_pos_of_le hlt) ⟨ts[stops 0], ?_, ?_⟩
    · rw [Nat.add_sub_cancel, List.getElem?_eq_getElem hlt]
    · exact h _ (List.getElem_mem hlt)
  refine ⟨sl', hins, hlen, ?_⟩
  have hps : ps.insertIdx (stops 0) sl.heap.size = ps ++ [sl.heap.size] := by
    rw [hend, ← r.len, List.insertIdx_length_self]
  have hts : ts.insertIdx (stops 0) ⟨score, val, lvl.val⟩ = ts ++ [⟨score, val, lvl.val⟩] := by
    rw [hend, List.insertIdx_length_self]
  rwa [hps, hts] at r'

end LibC
