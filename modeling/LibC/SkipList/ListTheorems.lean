/-
LibC.SkipList.ListTheorems — the structure of a skip list, over whole runs.

`WellFormed sl ps` is the structural invariant of the class in the source's own
terms: pointers followed in the heap, not positions of a list beside it. `ps`
are the nodes met by following `level[0].forward` from the head, and each
clause says what one member or one kind of link is. `Repr.wellFormed` derives
it from the representation predicate, and `run_wellFormed` says that every run
of `Insert` and `Delete` from the constructor ends, faults nowhere, and leaves
a well-formed list.

No `sorry`, no `axiom`, no `native_decide`.
-/
import LibC.Lib.Run
import LibC.SkipList.DeleteTheorems
import Mathlib.Order.MinMax

namespace LibC

open LibC.Lib LibC.Lib.Tower

variable {α β : Type}

/-! ## The invariant -/

/-- `ps` are the nodes met by following the level-`i` links from the pointer `p`, up to
the null pointer. -/
def IsChain (h : Heap (SkipListNode α β)) (i : ℕ) : Option Ptr → List Ptr → Prop
  | p, [] => p = none
  | p, x :: rest => p = some x ∧ ∃ l, getLevel h x i = some l ∧ IsChain h i l.forward rest

/-- `ps` is the chain of level `i`, from the head to the null pointer. -/
def LevelChain (sl : SkipList α β) (i : ℕ) (ps : List Ptr) : Prop :=
  ∃ l, getLevel sl.heap sl.head i = some l ∧ IsChain sl.heap i l.forward ps

instance decidableIsChain (h : Heap (SkipListNode α β)) (i : ℕ) :
    ∀ (p : Option Ptr) (ps : List Ptr), Decidable (IsChain h i p ps)
  | p, [] => inferInstanceAs (Decidable (p = none))
  | p, x :: rest =>
      match hl : getLevel h x i with
      | none => isFalse fun ⟨_, l, hl', _⟩ => by rw [hl] at hl'; cases hl'
      | some l =>
          have := decidableIsChain h i l.forward rest
          decidable_of_iff (p = some x ∧ IsChain h i l.forward rest) (by simp [IsChain, hl])

instance (sl : SkipList α β) (i : ℕ) (ps : List Ptr) : Decidable (LevelChain sl i ps) :=
  match hl : getLevel sl.heap sl.head i with
  | none => isFalse fun ⟨l, hl', _⟩ => by rw [hl] at hl'; cases hl'
  | some l => decidable_of_iff (IsChain sl.heap i l.forward ps) (by simp [LevelChain, hl])

/-- The nodes a pointer leads to are determined by the heap. -/
theorem IsChain.unique {h : Heap (SkipListNode α β)} {i : ℕ} :
    ∀ {p : Option Ptr} {xs ys : List Ptr},
    IsChain h i p xs → IsChain h i p ys → xs = ys
  | _, [], [], _, _ => rfl
  | _, [], _ :: _, hx, hy => by rw [IsChain] at hx; rw [IsChain, hx] at hy; cases hy.1
  | _, _ :: _, [], hx, hy => by rw [IsChain] at hy; rw [IsChain, hy] at hx; cases hx.1
  | _, x :: xs, y :: ys, ⟨hx, l, hl, hxs⟩, ⟨hy, l', hl', hys⟩ => by
      obtain rfl : x = y := Option.some.inj (hx.symm.trans hy)
      obtain rfl : l = l' := Option.some.inj (hl.symm.trans hl')
      rw [hxs.unique hys]

theorem LevelChain.unique {sl : SkipList α β} {i : ℕ} {ps qs : List Ptr}
    (hp : LevelChain sl i ps) (hq : LevelChain sl i qs) : ps = qs := by
  obtain ⟨l, hl, hc⟩ := hp
  obtain ⟨l', hl', hc'⟩ := hq
  obtain rfl : l = l' := Option.some.inj (hl.symm.trans hl')
  exact hc.unique hc'

/-- The number of links of a node. -/
def towerHeight (h : Heap (SkipListNode α β)) (p : Ptr) : ℕ :=
  ((h.get p).map fun nd => nd.level.length).getD 0

/-- The structural invariant of `SkipList`; `ps` is the level-`0` chain. -/
structure WellFormed [LE α] (sl : SkipList α β) (ps : List Ptr) : Prop where
  /-- the chain at level `i` is what remains of `ps` when the shorter towers are dropped;
  at level `0` nothing is dropped -/
  chain : ∀ i, i < maxLevel →
    LevelChain sl i (ps.filter fun p => decide (i < towerHeight sl.heap p))
  base : ∀ p ∈ ps, 0 < towerHeight sl.heap p
  acyclic : (sl.head :: ps).Nodup
  sorted : ps.Pairwise fun p q => ∀ a b, sl.heap.get p = some a → sl.heap.get q = some b →
    a.score ≤ b.score
  /-- a span is the distance between the ends of its link, the head at position `0` -/
  span : ps.length < 2 ^ 31 → ∀ (i k j : ℕ) (p q : Ptr) (l : SkipListLevel), i < sl.level →
    (sl.head :: ps)[k]? = some p → getLevel sl.heap p i = some l → l.forward = some q →
    (sl.head :: ps)[j]? = some q → k < j ∧ l.span.toNat = j - k
  backward : ∀ (k : ℕ) (p : Ptr), ps[k]? = some p → ∃ nd, sl.heap.get p = some nd ∧
    nd.backward = if k = 0 then none else ps[k - 1]?
  tail : sl.tail = ps.getLast?
  level : sl.level = (ps.map (towerHeight sl.heap)).foldr max 1
  null : ∀ i, sl.level ≤ i → i < maxLevel → ∃ l, getLevel sl.heap sl.head i = some l ∧
    l.forward = none

/-! ## From positions to pointers -/

section Repr

variable [LinearOrder α] [Neg α] [One α] [Inhabited β]
variable {sl : SkipList α β} {ps : List Ptr} {ts : List (Tower α β)}

/-- The height of a node is that of its position. -/
theorem Repr.towerHeight_eq (r : Repr sl ps ts) {k : ℕ} {p : Ptr}
    (hp : (sl.head :: ps)[k]? = some p) : towerHeight sl.heap p = heights ts k := by
  obtain ⟨t, _, hd⟩ := r.exists_data hp
  obtain ⟨nd, hg, _, _, hlen⟩ := get_of_nodeData hd
  rw [← r.height_pos hp hd, ← hlen, towerHeight, hg]
  rfl

/-- From any position on, the links of a level lead through the taller nodes. -/
theorem Repr.isChain (r : Repr sl ps ts) {i : ℕ} : ∀ (n k : ℕ) (f : Option Ptr),
    ps.length - k = n → (∀ q, IsNext (heights ts) i k q → f = (sl.head :: ps)[q]?) →
    ((∀ q, ¬ IsNext (heights ts) i k q) → f = none) →
    IsChain sl.heap i f ((ps.drop k).filter fun p => decide (i < towerHeight sl.heap p)) := by
  intro n
  induction n with
  | zero =>
      intro k f hn _ hnull
      rw [List.drop_eq_nil_of_le (by omega), List.filter_nil]
      refine hnull fun q hq => ?_
      have := isNext_le_length hq
      have := hq.lt
      have := r.len
      omega
  | succ n ih =>
      intro k f hn hnext hnull
      have hk : k < ps.length := by omega
      have hp : (sl.head :: ps)[k + 1]? = some ps[k] := by
        rw [List.getElem?_cons_succ, List.getElem?_eq_getElem hk]
      rw [List.drop_eq_getElem_cons hk, List.filter_cons, r.towerHeight_eq hp]
      by_cases hi : i < heights ts (k + 1)
      · -- the next node reaches the level
        rw [if_pos (by simpa using hi)]
        have hf := hnext (k + 1) ⟨Nat.lt_succ_self k, hi, fun j h1 h2 => by omega⟩
        obtain ⟨l, hl, hok⟩ := r.link_pos hp hi
        exact ⟨hf.trans hp, l, hl, ih (k + 1) l.forward (by omega) (fun q hq => (hok.next q hq).1)
          hok.null⟩
      · -- it does not, and the link passes it
        rw [if_neg (by simpa using hi)]
        have hiff : ∀ q, IsNext (heights ts) i k q ↔ IsNext (heights ts) i (k + 1) q := by
          intro q
          constructor
          · intro hq
            have hne : q ≠ k + 1 := fun heq => hi (heq ▸ hq.tall)
            exact ⟨by have := hq.lt; omega, hq.tall, fun j h1 h2 => hq.low j (by omega) h2⟩
          · intro hq
            refine ⟨by have := hq.lt; omega, hq.tall, fun j h1 h2 => ?_⟩
            by_cases hj : j = k + 1
            · rw [hj]; omega
            · exact hq.low j (by omega) h2
        exact ih (k + 1) f (by omega) (fun q hq => hnext q ((hiff q).mpr hq))
          (fun hno => hnull fun q hq => hno q ((hiff q).mp hq))

omit [LinearOrder α] [Neg α] [One α] [Inhabited β] in
theorem foldr_max_le {m : ℕ} (h1 : 1 ≤ m) : ∀ l : List ℕ, (∀ x ∈ l, x ≤ m) → l.foldr max 1 ≤ m
  | [], _ => h1
  | x :: rest, h => Nat.max_le.mpr ⟨h x (List.mem_cons_self ..),
      foldr_max_le h1 rest fun y hy => h y (List.mem_cons_of_mem _ hy)⟩

theorem le_foldr_max {x : ℕ} : ∀ l : List ℕ, x = 1 ∨ x ∈ l → x ≤ l.foldr max 1
  | [], h => by
      rcases h with h | h
      · exact Nat.le_of_eq h
      · cases h
  | y :: rest, h => by
      rw [List.foldr_cons, le_max_iff]
      rcases h with h | h
      · exact Or.inr (le_foldr_max rest (Or.inl h))
      · rcases List.mem_cons.mp h with h | h
        · exact Or.inl (Nat.le_of_eq h)
        · exact Or.inr (le_foldr_max rest (Or.inr h))

/-- The heights of the nodes, in order. -/
theorem Repr.map_towerHeight (r : Repr sl ps ts) :
    ps.map (towerHeight sl.heap) = ts.map Tower.height := by
  refine List.ext_getElem? fun k => ?_
  rw [List.getElem?_map, List.getElem?_map]
  by_cases hk : k < ts.length
  · have hk' : k < ps.length := by rw [r.len]; exact hk
    have hp : (sl.head :: ps)[k + 1]? = some ps[k] := by
      rw [List.getElem?_cons_succ, List.getElem?_eq_getElem hk']
    rw [List.getElem?_eq_getElem hk', List.getElem?_eq_getElem hk, Option.map_some,
      Option.map_some, r.towerHeight_eq hp, heights_succ (List.getElem?_eq_getElem hk)]
  · rw [List.getElem?_eq_none (by rw [r.len]; omega), List.getElem?_eq_none (by omega)]
    rfl

/-- The node and the tower of a position carry the same score and value. -/
theorem Repr.get_pos (r : Repr sl ps ts) {k : ℕ} {p : Ptr} (hp : ps[k]? = some p) :
    ∃ t nd, ts[k]? = some t ∧ sl.heap.get p = some nd ∧ nd.score = t.score ∧ nd.val = t.val := by
  obtain ⟨t, ht, hd⟩ := r.exists_data (k := k + 1) hp
  obtain ⟨nd, hg, hs, hv, _⟩ := get_of_nodeData hd
  exact ⟨t, nd, ht, hg, hs, hv⟩

/-- The chain of a level. -/
theorem Repr.levelChain (r : Repr sl ps ts) {i : ℕ} (hi : i < maxLevel) :
    LevelChain sl i (ps.filter fun p => decide (i < towerHeight sl.heap p)) := by
  obtain ⟨l, hl, hok⟩ := r.link_pos (k := 0) (p := sl.head) rfl hi
  exact ⟨l, hl, r.isChain _ 0 l.forward rfl (fun q hq => (hok.next q hq).1) hok.null⟩

/-- Every node has a link at level `0`. -/
theorem Repr.towerHeight_pos (r : Repr sl ps ts) {p : Ptr} (hp : p ∈ ps) :
    0 < towerHeight sl.heap p := by
  obtain ⟨k, hk⟩ := List.mem_iff_getElem?.mp hp
  rw [r.towerHeight_eq (k := k + 1) hk]
  exact r.height_pos_of_le (r.pos_lt (k := k + 1) hk)

/-- The chain of level `0` is the whole list. -/
theorem Repr.levelChain_zero (r : Repr sl ps ts) : LevelChain sl 0 ps := by
  have h := r.levelChain (i := 0) (by decide)
  rwa [List.filter_eq_self.mpr fun p hp => decide_eq_true (r.towerHeight_pos hp)] at h

/-- A heap that holds a list is well formed. -/
theorem Repr.wellFormed (r : Repr sl ps ts) : WellFormed sl ps := by
  refine ⟨fun i => r.levelChain, fun p => r.towerHeight_pos, r.nodup, ?_, ?_, fun k p hp => ?_,
    r.tail, ?_, fun i h1 h2 => ?_⟩
  · -- the order of the scores
    rw [List.pairwise_iff_getElem]
    intro i j hi hj hij a b ha hb
    obtain ⟨ta, na, hta, hga, hsa, _⟩ := r.get_pos (List.getElem?_eq_getElem hi)
    obtain ⟨tb, nb, htb, hgb, hsb, _⟩ := r.get_pos (List.getElem?_eq_getElem hj)
    rw [hga] at ha
    rw [hgb] at hb
    cases ha
    cases hb
    obtain ⟨h1, h2⟩ := List.getElem?_eq_some_iff.mp hta
    obtain ⟨h3, h4⟩ := List.getElem?_eq_some_iff.mp htb
    have := List.pairwise_iff_getElem.mp r.sorted i j h1 h3 hij
    rw [hsa, hsb, ← h2, ← h4]
    exact this
  · -- the spans
    intro hlen i k j p q l _ hp hl hf hq
    have hok := r.link k p i l hp hl
    have hex : ∃ m, IsNext (heights ts) i k m := by
      by_contra hno
      rw [hok.null fun m hm => hno ⟨m, hm⟩] at hf
      cases hf
    obtain ⟨m, hm⟩ := hex
    obtain ⟨hfm, hspan⟩ := hok.next m hm
    obtain rfl : m = j := r.pos_inj (hfm.symm.trans hf) hq
    have hm2 := isNext_le_length hm
    have := r.len
    refine ⟨hm.lt, ?_⟩
    rw [hspan, UInt32.toNat_ofNat']
    exact Nat.mod_eq_of_lt (by omega)
  · -- the `backward` pointers
    obtain ⟨t, nd, _, hg, _⟩ := r.get_pos hp
    refine ⟨nd, hg, ?_⟩
    have hb := r.back (k + 1) p hp
    simp only [nodeBack, hg, Option.map_some, Option.some.injEq] at hb
    rw [hb, Nat.add_sub_cancel]
    rcases k with _ | k
    · rfl
    · rw [if_neg (by omega), if_neg (by omega), List.getElem?_cons_succ, Nat.add_sub_cancel]
  · -- the level
    rw [r.map_towerHeight]
    refine Nat.le_antisymm (le_foldr_max _ ?_) (foldr_max_le r.level.1 _ ?_)
    · rcases r.top with h | ⟨t, ht, h⟩
      · exact Or.inl h
      · exact Or.inr (List.mem_map.mpr ⟨t, ht, h⟩)
    · intro x hx
      obtain ⟨t, ht, rfl⟩ := List.mem_map.mp hx
      exact (r.tall t ht).2
  · obtain ⟨l, hl, hok⟩ := r.link_pos (k := 0) (p := sl.head) rfl h2
    exact ⟨l, hl, hok.null (r.not_isNext_of_level_le h1 0)⟩

end Repr

/-! ## Runs -/

/-- The list the constructor makes is empty. -/
theorem repr_new [LinearOrder α] [Neg α] [One α] [Inhabited β] :
    Repr (SkipList.new : SkipList α β) [] [] := by
  obtain ⟨hx, _, hdata, hback, hlev⟩ :=
    makeNode_spec (Heap.empty : Heap (SkipListNode α β)) maxLevel (-1 : α) (default : β)
  have hhead : (SkipList.new : SkipList α β).head =
      (Heap.empty : Heap (SkipListNode α β)).size := hx
  have hpos : ∀ {k : ℕ} {p : Ptr}, [(SkipList.new : SkipList α β).head][k]? = some p →
      k = 0 ∧ p = (SkipList.new : SkipList α β).head := by
    intro k p hp
    rcases k with _ | k
    · exact ⟨rfl, (Option.some.inj hp).symm⟩
    · simp at hp
  have hnext : ∀ i k q, ¬ IsNext (heights ([] : List (Tower α β))) i k q := fun i k q hq => by
    have := isNext_le_length hq
    have := hq.lt
    simp only [List.length_nil] at *
    omega
  refine ⟨rfl, by simp, fun k p hp => ?_, fun k p hp => ?_, fun k p i l hp hl => ?_, by simp,
    ⟨Nat.le_refl 1, show 1 ≤ maxLevel by decide⟩, Or.inl rfl, rfl, List.Pairwise.nil⟩
  · obtain ⟨rfl, rfl⟩ := hpos hp
    exact (hdata _).trans (if_pos hhead)
  · obtain ⟨rfl, rfl⟩ := hpos hp
    exact (hback _).trans (if_pos hhead)
  · obtain ⟨rfl, rfl⟩ := hpos hp
    refine ⟨fun q hq => absurd hq (hnext i 0 q), fun _ => ?_⟩
    have hl' := (hlev (SkipList.new : SkipList α β).head i).symm.trans hl
    rw [if_pos hhead] at hl'
    split at hl'
    · cases hl'; rfl
    · cases hl'

/-- A call on a skip list; an insertion comes with the height drawn for it. -/
inductive ListOp (α β : Type) where
  | insert (lvl : Lvl) (score : α) (val : β)
  | delete (score : α) (val : β)

variable [LinearOrder α] [DecidableEq β]

/-- The state after a call. -/
def ListOp.step : ListOp α β → SkipList α β → Option (SkipList α β)
  | .insert lvl score val, sl => (SkipList.insert lvl score val sl).map Prod.snd
  | .delete score val, sl => (SkipList.delete score val sl).map Prod.snd

variable [Neg α] [One α] [Inhabited β]

/-- A call on a list that the heap holds ends, and the heap holds a list again. -/
theorem ListOp.step_repr (o : ListOp α β) {sl : SkipList α β} {ps : List Ptr}
    {ts : List (Tower α β)} (r : Repr sl ps ts) :
    ∃ sl', o.step sl = some sl' ∧ ∃ ps' ts', Repr sl' ps' ts' := by
  cases o with
  | insert lvl score val =>
      obtain ⟨_, sl', hins, _, _, r'⟩ := insert_spec r lvl score val
      exact ⟨sl', by simp [ListOp.step, hins], _, _, r'⟩
  | delete score val =>
      obtain ⟨_, _, ⟨_, sl', _, _, _, hdel, _, r'⟩ | ⟨_, hdel⟩⟩ := delete_spec r score val
      · exact ⟨sl', by simp [ListOp.step, hdel], _, _, r'⟩
      · exact ⟨sl, by simp [ListOp.step, hdel], ps, ts, r⟩

/-- Every run from the constructor leaves a heap that holds a list. -/
theorem run_repr (ops : List (ListOp α β)) :
    ∃ sl, run ListOp.step ops SkipList.new = some sl ∧ ∃ ps ts, Repr sl ps ts :=
  run_total (fun sl : SkipList α β => ∃ ps ts, Repr sl ps ts)
    (fun o _ ⟨_, _, r⟩ => o.step_repr r) ops SkipList.new ⟨[], [], repr_new⟩

/-- **Structure.** Every run of `Insert` and `Delete` from the constructor ends without
a fault, in a well-formed list. -/
theorem run_wellFormed (ops : List (ListOp α β)) :
    ∃ sl, run ListOp.step ops SkipList.new = some sl ∧ ∃ ps, WellFormed sl ps := by
  obtain ⟨sl, hrun, ps, ts, r⟩ := run_repr ops
  exact ⟨sl, hrun, ps, r.wellFormed⟩

end LibC
