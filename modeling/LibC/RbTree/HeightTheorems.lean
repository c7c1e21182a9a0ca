/-
LibC.RbTree.HeightTheorems — the height of the trees that insertions lead to.

`follow` goes down from a node by a list of sides. In a tree with `n` nodes a way
down to the sentinel goes past at most `2 * log2 (n + 1)` of them, and so do the
loops of `Insert` and `Search`. `get_high` reports the longest way down that an
insertion has taken; the tree was smaller then, and so the bound for the tree as
it is now holds for the report as well (`run_height`).

No `sorry`, no `axiom`, no `native_decide`.
-/
import LibC.RbTree.InsertTheorems
import Mathlib.Analysis.SpecialFunctions.Log.Base

namespace LibC

open LibC.Lib LibC.Lib.RBT

variable {κ ν : Type}

namespace RbTree

variable {nil par : Ptr} {t : RbTree κ ν} {T : RBT (Cell κ ν)}

/-! ## Ways down -/

/-- The pointer that is reached from the node `x` by going to one child after the other; from the
sentinel there is no way on. -/
def follow : List Side → Option Ptr → RbTree κ ν → Option (Option Ptr)
  | [], x, _ => some x
  | d :: way, x, t =>
      if x = t.nil then none
      else do
        let next ← t.read x (RBNode.child d)
        follow way next t

/-- A way to the sentinel is no longer than the tree is high. -/
theorem follow_le : ∀ {T : RBT (Cell κ ν)} {par : Ptr} (way : List Side), Below nil par t T →
    follow way (some (ptrOf nil T)) t = some t.nil → way.length ≤ T.height
  | _, _, [], _, _ => Nat.zero_le _
  | .leaf, par, d :: way, h, hrun => by
      rw [follow, h.nil_eq, ptrOf, if_pos rfl] at hrun
      cases hrun
  | .node c l a r, par, d :: way, h, hrun => by
      rw [follow, ptrOf, if_neg h.ne_nil] at hrun
      simp only [h.read, Option.bind_eq_bind, Option.bind_some] at hrun
      rw [List.length_cons, height]
      refine Nat.succ_le_succ ?_
      cases d with
      | left => exact Nat.le_trans (follow_le way h.left hrun) (Nat.le_max_left ..)
      | right => exact Nat.le_trans (follow_le way h.right hrun) (Nat.le_max_right ..)

/-- The loop of `Insert` on a new node with the given key and value. -/
def descendNew (K : KeyCompare κ) (e : κ × ν) (fuel : ℕ) (t : RbTree κ ν) :
    Option (Option Ptr × UInt64) :=
  let t := (makeNode e.1 e.2 t).2
  descend K e.1 fuel t.root t.nil 0 t

/-- It ends in the place of the key, and needs no more rounds than the tree is high. -/
theorem descendNew_spec (K : KeyCompare κ) (e : κ × ν) {fuel : ℕ} (h : Holds nil t T)
    (hfuel : T.height < fuel) : descendNew K e fuel t =
      some (some (parentOf nil (placeOf K e.1 T)), UInt64.ofNat (placeOf K e.1 T).length) := by
  have hplace : Place nil (makeNode e.1 e.2 t).2 [] T :=
    (holds_fill.mp h : Place nil t [] T).makeNode e.1 e.2
  rw [descendNew, hplace.root, hplace.nil_eq]
  exact descend_spec K e.1 [] hplace.below hfuel

/-! ## Runs -/

/-- A tree with the insertions `ops` is not high. -/
theorem Inserted.pow_height_le {K : KeyCompare κ} {ops : List (κ × ν)}
    (h : Inserted K ops nil t T) : 2 ^ T.height ≤ (ops.length + 1) ^ 2 := by
  have hlen : T.inorder.length = ops.length := by
    rw [← h.entries.perm.length_eq, RbTree.entries, List.length_map]
  rw [← hlen]
  exact h.redBlack.pow_height_le

section Runs

variable [Inhabited κ] [Inhabited ν] {K : KeyCompare κ} {ops : List (κ × ν)}

/-- `cnt` nodes are visited by one of the insertions `ops`, on the way to its place. -/
def Visited (K : KeyCompare κ) (ops : List (κ × ν)) (cnt : UInt64) : Prop :=
  ∃ past e rest s y, ops = past ++ e :: rest ∧
    run (fun e t => RbTree.insert K e.1 e.2 t) past new = some s ∧
      descendNew K e (s.heap.size + 1) s = some (y, cnt)

theorem visited_concat {e : κ × ν} {cnt : UInt64}
    (hrun : run (fun e t => RbTree.insert K e.1 e.2 t) ops new = some t) :
    Visited K (ops ++ [e]) cnt ↔
      Visited K ops cnt ∨ ∃ y, descendNew K e (t.heap.size + 1) t = some (y, cnt) := by
  constructor
  · rintro ⟨past, e', rest, s, y, heq, hpast, hd⟩
    rcases List.eq_nil_or_concat rest with rfl | ⟨rest, e'', rfl⟩
    · obtain ⟨rfl, he⟩ := List.append_inj' heq rfl
      obtain rfl := List.singleton_inj.mp he
      obtain rfl := Option.some.inj (hrun.symm.trans hpast)
      exact Or.inr ⟨y, hd⟩
    · rw [List.concat_eq_append, ← List.cons_append, ← List.append_assoc] at heq
      obtain ⟨rfl, -⟩ := List.append_inj' heq rfl
      exact Or.inl ⟨past, e', rest, s, y, rfl, hpast, hd⟩
  · rintro (⟨past, e', rest, s, y, rfl, hpast, hd⟩ | ⟨y, hd⟩)
    · exact ⟨past, e', rest ++ [e], s, y, by simp, hpast, hd⟩
    · exact ⟨ops, e, [], t, y, rfl, hrun, hd⟩

/-- What `high` is after the insertions `ops`. -/
structure High (K : KeyCompare κ) (ops : List (κ × ν)) (high : UInt64) : Prop where
  greatest : IsGreatest {cnt | cnt = 0 ∨ Visited K ops cnt} high
  pow_le : 2 ^ high.toNat ≤ (ops.length + 1) ^ 2

theorem high_nil (K : KeyCompare κ) : High K ([] : List (κ × ν)) 0 := by
  refine ⟨⟨Or.inl rfl, ?_⟩, Nat.le_refl 1⟩
  rintro cnt (rfl | ⟨past, e, rest, s, y, heq, _⟩)
  · exact UInt64.le_refl 0
  · simp at heq

/-- One more insertion: the way it takes is no longer than the tree is high. -/
theorem High.insert {e : κ × ν} {cnt high : UInt64} (h : Inserted K ops nil t T)
    (hrun : run (fun e t => RbTree.insert K e.1 e.2 t) ops new = some t) (hh : High K ops t.high)
    (hcnt : cnt = UInt64.ofNat (placeOf K e.1 T).length)
    (hhigh : high = if cnt > t.high then cnt else t.high) : High K (ops ++ [e]) high := by
  have hvisited : ∀ c, Visited K (ops ++ [e]) c ↔ Visited K ops c ∨ c = cnt := by
    intro c
    rw [visited_concat hrun, descendNew_spec K e h.holds (Nat.lt_succ_of_lt h.holds.height_lt),
      ← hcnt]
    simp [eq_comm]
  have hle : cnt ≤ high ∧ t.high ≤ high := by
    rw [hhigh]
    split
    · next hlt => exact ⟨UInt64.le_refl cnt, UInt64.le_of_lt hlt⟩
    · next hlt => exact ⟨UInt64.not_lt.mp hlt, UInt64.le_refl _⟩
  have hgrows : (ops.length + 1) ^ 2 ≤ ((ops ++ [e]).length + 1) ^ 2 := by
    rw [List.length_append]
    exact Nat.pow_le_pow_left (Nat.le_succ _) 2
  refine ⟨⟨?_, ?_⟩, ?_⟩
  · rw [hhigh]
    split
    · exact Or.inr ((hvisited cnt).mpr (Or.inr rfl))
    · exact hh.greatest.1.imp id fun hv => (hvisited _).mpr (Or.inl hv)
  · rintro c (hzero | hv)
    · exact UInt64.le_trans (hh.greatest.2 (Or.inl hzero)) hle.2
    · rcases (hvisited c).mp hv with hv | rfl
      · exact UInt64.le_trans (hh.greatest.2 (Or.inr hv)) hle.2
      · exact hle.1
  · refine Nat.le_trans ?_ hgrows
    rw [hhigh]
    split
    · have hlen : cnt.toNat ≤ T.height := by
        rw [hcnt, UInt64.toNat_ofNat']
        have hle := length_locate_le (fun a => K.cmp e.1 a.key) T []
        rw [List.length_nil, Nat.zero_add] at hle
        exact Nat.le_trans (Nat.mod_le _ _) hle
      exact Nat.le_trans (Nat.pow_le_pow_right (by decide) hlen) h.pow_height_le
    · exact hh.pow_le

/-- After any insertions the tree is not high, and neither was it when they were made. -/
theorem run_high (K : KeyCompare κ) (ops : List (κ × ν)) :
    ∃ t T, run (fun e t => RbTree.insert K e.1 e.2 t) ops new = some t ∧ Inserted K ops 0 t T ∧
      High K ops t.high := by
  induction ops using List.reverseRecOn with
  | nil => exact ⟨new, .leaf, rfl, inserted_new K, high_nil K⟩
  | append_singleton ops e ih =>
      obtain ⟨t, T, hrun, h, hh⟩ := ih
      obtain ⟨t', T', hins, h', hhigh⟩ := h.insert e
      exact ⟨t', T', run_concat.mpr ⟨t, hrun, hins⟩, h', hh.insert h hrun rfl hhigh⟩

/-- After any insertions every way from the root down to the sentinel goes past at most
`2 * log2 (n + 1)` nodes. So does the longest way an insertion has taken, which `get_high`
reports, and so do the loops of the next `Insert` and `Search`. -/
theorem run_height (K : KeyCompare κ) (ops : List (κ × ν)) :
    ∃ t, run (fun e t => RbTree.insert K e.1 e.2 t) ops new = some t ∧
      (∀ way, follow way t.root t = some t.nil →
        (way.length : ℝ) ≤ 2 * Real.logb 2 (ops.length + 1)) ∧
      IsGreatest {cnt | cnt = 0 ∨ Visited K ops cnt} t.getHigh ∧
      2 ^ t.getHigh.toNat ≤ (ops.length + 1) ^ 2 ∧
      ∀ e fuel, (ops.length + 1) ^ 2 < 2 ^ fuel →
        (∃ r, descendNew K e fuel t = some r) ∧ ∃ q, searchLoop K e.1 fuel t.root t = some q := by
  obtain ⟨t, T, hrun, h, hh⟩ := run_high K ops
  have hbelow : Below 0 0 t T := (holds_fill.mp h.holds : Place 0 t [] T).below
  refine ⟨t, hrun, fun way hway => ?_, hh.greatest, hh.pow_le, fun e fuel hfuel => ?_⟩
  · have hle : way.length ≤ T.height := follow_le way hbelow (h.holds.root ▸ hway)
    have hpow : (2 : ℝ) ^ way.length ≤ ((ops.length : ℝ) + 1) ^ 2 := by
      exact_mod_cast Nat.le_trans (Nat.pow_le_pow_right (by decide) hle) h.pow_height_le
    have hlog := Real.logb_le_logb_of_le (b := 2) (by norm_num) (by positivity) hpow
    rw [Real.logb_pow, Real.logb_pow, Real.logb_self_eq_one (by norm_num), mul_one] at hlog
    exact_mod_cast hlog
  · have hlt : T.height < fuel :=
      (Nat.pow_lt_pow_iff_right (by decide)).mp (Nat.lt_of_le_of_lt h.pow_height_le hfuel)
    obtain ⟨q, hq, _⟩ := searchLoop_spec K e.1 hbelow hlt h.entries.sorted
    refine ⟨⟨_, descendNew_spec K e h.holds hlt⟩, some q, ?_⟩
    rw [h.holds.root]
    exact hq

theorem run_height_six :
    ∃ t, run (fun e t => RbTree.insert .int e.1 e.2 t) sixElements new = some t ∧
      (∀ way, follow way t.root t = some t.nil →
        (way.length : ℝ) ≤ 2 * Real.logb 2 (sixElements.length + 1)) ∧
      IsGreatest {cnt | cnt = 0 ∨ Visited .int sixElements cnt} t.getHigh ∧
      2 ^ t.getHigh.toNat ≤ (sixElements.length + 1) ^ 2 ∧
      ∀ e fuel, (sixElements.length + 1) ^ 2 < 2 ^ fuel →
        (∃ r, descendNew .int e fuel t = some r) ∧
          ∃ q, searchLoop .int e.1 fuel t.root t = some q :=
  run_height .int sixElements

end Runs

end RbTree

end LibC
