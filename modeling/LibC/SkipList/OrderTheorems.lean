/-
LibC.SkipList.OrderTheorems — where an insertion goes.

`Insert` walks over what is smaller, and over what is tied and holds another
value. As long as the pair is not in the list, that is everything with a score
up to the new one: a prefix of the list, on every level, whatever the heights
are (`Repr.insert_behind`). So the list is an insertion sort that puts an
element behind those it is tied with, and the heights drawn on the way leave no
trace in the order (`run_insert_order`).

No `sorry`, no `axiom`, no `native_decide`.
-/
import LibC.SkipList.RangeTheorems
import Mathlib.Data.List.Sort

namespace LibC

open LibC.Lib LibC.Lib.Tower

variable {α β : Type} [LinearOrder α]

/-! ## Sorted insertion -/

/-- Put `x` in front of the first element with a larger score. -/
def insertBehind (L : List (α × β)) (x : α × β) : List (α × β) :=
  L.orderedInsert (fun a b => a.1 < b.1) x

/-- `L'` is `L` with `x` right after the last element whose score is at most that of `x`, or in
front of everything if there is none. -/
def Behind (x : α × β) (L L' : List (α × β)) : Prop :=
  ∃ xs ys, L = xs ++ ys ∧ L' = xs ++ x :: ys ∧ (∀ a, xs.getLast? = some a → a.1 ≤ x.1) ∧
    ∀ b ∈ ys, ¬ b.1 ≤ x.1

/-- Between the elements up to the score of `x` and the others. -/
theorem insertBehind_append {x : α × β} {ys : List (α × β)} (hy : ∀ b ∈ ys, ¬ b.1 ≤ x.1) :
    ∀ xs : List (α × β), (∀ a ∈ xs, a.1 ≤ x.1) → insertBehind (xs ++ ys) x = xs ++ x :: ys
  | [], _ => by
      cases ys with
      | nil => rfl
      | cons y ys =>
          have hlt : x.1 < y.1 := lt_of_not_ge (hy y List.mem_cons_self)
          simp [insertBehind, hlt]
  | a :: xs, hx => by
      have ha : ¬ x.1 < a.1 := not_lt.mpr (hx a List.mem_cons_self)
      have ih := insertBehind_append hy xs fun b hb => hx b (List.mem_cons_of_mem _ hb)
      rw [insertBehind] at ih ⊢
      rw [List.cons_append, List.orderedInsert_cons, if_neg ha, ih, List.cons_append]

/-- Inserting at the end of a prefix. -/
theorem insertIdx_prefix {δ : Type} (x : δ) (ys : List δ) : ∀ xs : List δ,
    (xs ++ ys).insertIdx xs.length x = xs ++ x :: ys
  | [] => List.insertIdx_zero
  | a :: xs => by
      rw [List.cons_append, List.length_cons, List.insertIdx_succ_cons, insertIdx_prefix x ys xs,
        List.cons_append]

/-! ## `Insert` -/

section Repr

variable [DecidableEq β] [Neg α] [One α] [Inhabited β]
variable {sl : SkipList α β} {ps : List Ptr} {ts : List (Tower α β)}

/-- The insertion of a pair that is not in the list goes behind everything that is smaller or
tied. -/
theorem Repr.insert_behind (r : Repr sl ps ts) (lvl : Lvl) {score : α} {val : β}
    (hnew : (score, val) ∉ sl.pairs) :
    ∃ sl' ps' ts', SkipList.insert lvl score val sl = some (0, sl') ∧ Repr sl' ps' ts' ∧
      Behind (score, val) sl.pairs sl'.pairs ∧
        sl'.pairs = insertBehind sl.pairs (score, val) := by
  obtain ⟨B, hB, hsplit⟩ := sorted_split (P := fun s => s ≤ score)
    (fun a b hab hb => le_trans hab hb) ts r.sorted
  obtain ⟨stops, sl', hins, d, _, r'⟩ := insert_spec r lvl score val
  rw [r.pairs_eq, List.mem_map] at hnew
  have hstop : stops 0 = B := by
    refine d.final_of_prefix r.level.1 (fun m h0 htall => ?_) fun m _ hm =>
      r.height_pos_of_le (Nat.le_trans hm hB)
    have hm : m ≤ ts.length := by
      by_contra hgt
      rw [heights_of_gt (by omega)] at htall
      omega
    obtain ⟨k, rfl⟩ : ∃ k, m = k + 1 := ⟨m - 1, by omega⟩
    have hk : ts[k]? = some ts[k] := List.getElem?_eq_getElem (by omega)
    have hle : ts[k].score ≤ score ↔ k + 1 ≤ B := hsplit k _ hk
    rw [← hle]
    constructor
    · rintro ⟨t, ht, hlt | ⟨heq, _⟩⟩
      · obtain rfl := Option.some.inj (hk.symm.trans ht)
        exact le_of_lt hlt
      · obtain rfl := Option.some.inj (hk.symm.trans ht)
        exact le_of_eq heq
    · intro h
      refine ⟨ts[k], hk, ?_⟩
      rcases lt_or_eq_of_le h with hlt | heq
      · exact Or.inl hlt
      · refine Or.inr ⟨heq, fun hv => hnew ⟨ts[k], List.getElem_mem _, ?_⟩⟩
        rw [heq, hv]
  rw [hstop] at r'
  -- the list in front of the new node, and behind it
  have hpairs : sl.pairs = (ts.take B).map (fun t => (t.score, t.val)) ++
      (ts.drop B).map fun t => (t.score, t.val) := by
    rw [r.pairs_eq, ← List.map_append, List.take_append_drop]
  have hpairs' : sl'.pairs = (ts.take B).map (fun t => (t.score, t.val)) ++
      (score, val) :: (ts.drop B).map fun t => (t.score, t.val) := by
    have hins' := insertIdx_prefix (⟨score, val, lvl.val⟩ : Tower α β) (ts.drop B) (ts.take B)
    rw [List.take_append_drop, List.length_take_of_le hB] at hins'
    rw [r'.pairs_eq, hins', List.map_append, List.map_cons]
  have hlow : ∀ a ∈ (ts.take B).map fun t => (t.score, t.val), a.1 ≤ score := by
    intro a ha
    obtain ⟨t, ht, rfl⟩ := List.mem_map.mp ha
    obtain ⟨k, hk⟩ := List.mem_iff_getElem?.mp ht
    rw [List.getElem?_take] at hk
    split at hk
    · next hlt => exact (hsplit k t hk).mpr hlt
    · cases hk
  have hhigh : ∀ b ∈ (ts.drop B).map fun t => (t.score, t.val), ¬ b.1 ≤ score := by
    intro b hb
    obtain ⟨t, ht, rfl⟩ := List.mem_map.mp hb
    obtain ⟨k, hk⟩ := List.mem_iff_getElem?.mp ht
    rw [List.getElem?_drop] at hk
    intro hle
    have := (hsplit (B + k) t hk).mp hle
    omega
  refine ⟨sl', _, _, hins, r', ⟨_, _, hpairs, hpairs', ?_, hhigh⟩, ?_⟩
  · intro a ha
    exact hlow a (List.mem_of_getLast? ha)
  · rw [hpairs, hpairs', insertBehind_append hhigh _ hlow]

/-- A series of insertions of different pairs that are not in the list. -/
theorem Repr.inserts_behind : ∀ (ins : List (Lvl × α × β)) {sl : SkipList α β} {ps : List Ptr}
    {ts : List (Tower α β)}, Repr sl ps ts → (ins.map Prod.snd).Nodup →
      (∀ x ∈ ins.map Prod.snd, x ∉ sl.pairs) →
      ∃ sl', run ListOp.step (ins.map fun x => .insert x.1 x.2.1 x.2.2) sl = some sl' ∧
        sl'.pairs = (ins.map Prod.snd).foldl insertBehind sl.pairs
  | [], sl, _, _, _, _, _ => ⟨sl, rfl, rfl⟩
  | (lvl, score, val) :: ins, sl, ps, ts, r, hnd, hnew => by
      rw [List.map_cons, List.nodup_cons] at hnd
      obtain ⟨sl1, ps1, ts1, hins, r1, _, hpairs⟩ :=
        r.insert_behind lvl (hnew (score, val) List.mem_cons_self)
      have hnew1 : ∀ x ∈ ins.map Prod.snd, x ∉ sl1.pairs := by
        intro x hx
        rw [hpairs, insertBehind, List.mem_orderedInsert]
        rintro (rfl | hmem)
        · exact hnd.1 hx
        · exact hnew x (List.mem_cons_of_mem _ hx) hmem
      obtain ⟨sl', hrun, hfold⟩ := Repr.inserts_behind ins r1 hnd.2 hnew1
      refine ⟨sl', ?_, ?_⟩
      · exact run_cons.mpr ⟨sl1, by simp [ListOp.step, hins], hrun⟩
      · rw [hfold, hpairs, List.map_cons, List.foldl_cons]

/-- **Order.** In every state that calls lead to, the insertion of a pair that is not there puts
it right behind the last element with a score up to its own; a series of such insertions gives
what sorted insertion gives, and nothing of it depends on the heights. -/
theorem run_insert_order (ops : List (ListOp α β)) :
    ∃ sl, run ListOp.step ops SkipList.new = some sl ∧
      (∀ lvl score val, (score, val) ∉ sl.pairs →
        ∃ sl', SkipList.insert lvl score val sl = some (0, sl') ∧
          Behind (score, val) sl.pairs sl'.pairs) ∧
      ∀ ins : List (Lvl × α × β), (ins.map Prod.snd).Nodup →
        (∀ x ∈ ins.map Prod.snd, x ∉ sl.pairs) →
        ∃ sl', run ListOp.step (ins.map fun x => .insert x.1 x.2.1 x.2.2) sl = some sl' ∧
          sl'.pairs = (ins.map Prod.snd).foldl insertBehind sl.pairs := by
  obtain ⟨sl, hrun, ps, ts, r⟩ := run_repr ops
  refine ⟨sl, hrun, fun lvl score val hnew => ?_, fun ins => r.inserts_behind ins⟩
  obtain ⟨sl', _, _, hins, _, hbehind, _⟩ := r.insert_behind lvl hnew
  exact ⟨sl', hins, hbehind⟩

end Repr

end LibC
