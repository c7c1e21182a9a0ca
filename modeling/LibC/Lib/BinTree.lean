/-
LibC.Lib.BinTree — binary trees, and paths into them.

A `Crumb` is a node on the way down, with the side it was left on and the
subtree on the other one; a path is a list of crumbs, the last one first, and
`fill` puts a subtree into the place it leads to. What is mirrored is said once:
`join d` makes a node whose first subtree is on side `d`.

The elements in order are those before the place, those of the subtree in it,
and those after it (`inorder_fill`). What one does to a tree at a place is then
a change in the middle of a list. There are two ways to find a place: by a
predicate that splits the elements (`split_locate`), and by going to one side as
far as possible (`exists_end`).

The neighbour of a node on side `d` is at the near end of its subtree there
(`beside_of_end`), and otherwise it is the last node above that the path leaves on
the other side (`beside_of_nil`, `beside_of_side`, `beside_of_opp`).

No `sorry`, no `axiom`, no `native_decide`.
-/
import LibC.Lib.RedBlack
import Mathlib.Data.List.Perm.Basic
import Mathlib.Data.Tree.Basic

namespace LibC.Lib

/-- A tree whose nodes have two children. -/
abbrev BinTree (α : Type) := BinaryTree α

/-- A node on a path: the side that was taken, the element of the node, and the subtree on
the other side. -/
structure Crumb (α : Type) where
  side : Side
  elem : α
  sib : BinTree α

namespace BinTree

variable {α : Type}

/-! ## Trees -/

/-- A node with the subtree `t` on side `d` and `u` on the other. -/
def join (d : Side) (a : α) (t u : BinTree α) : BinTree α :=
  match d with
  | .left => .node a t u
  | .right => .node a u t

/-- The elements in order. -/
def inorder : BinTree α → List α
  | .nil => []
  | .node a l r => inorder l ++ a :: inorder r

@[simp] theorem inorder_nil : inorder (.nil : BinTree α) = [] := rfl

@[simp] theorem inorder_node (a : α) (l r : BinTree α) :
    inorder (.node a l r) = inorder l ++ a :: inorder r := rfl

theorem inorder_eq_nil_iff {t : BinTree α} : inorder t = [] ↔ t = .nil := by
  cases t <;> simp

theorem perm_inorder_join (d : Side) (a : α) (t u : BinTree α) :
    (inorder (join d a t u)).Perm (a :: (inorder t ++ inorder u)) := by
  cases d with
  | left => exact List.perm_middle
  | right => exact List.perm_middle.trans (List.perm_append_comm.cons a)

/-! ## Paths -/

/-- Put a tree into the place that a path leads to. -/
def fill : List (Crumb α) → BinTree α → BinTree α
  | [], t => t
  | c :: up, t => fill up (join c.side c.elem t c.sib)

/-- The elements before the place. -/
def before : List (Crumb α) → List α
  | [] => []
  | ⟨.left, _, _⟩ :: up => before up
  | ⟨.right, a, u⟩ :: up => before up ++ (inorder u ++ [a])

/-- The elements after the place. -/
def after : List (Crumb α) → List α
  | [] => []
  | ⟨.left, a, u⟩ :: up => a :: inorder u ++ after up
  | ⟨.right, _, _⟩ :: up => after up

theorem inorder_fill : ∀ (path : List (Crumb α)) (t : BinTree α),
    inorder (fill path t) = before path ++ (inorder t ++ after path)
  | [], t => by simp [fill, before, after]
  | ⟨.left, a, u⟩ :: up, t => by
      rw [fill, inorder_fill up]
      simp [join, before, after]
  | ⟨.right, a, u⟩ :: up, t => by
      rw [fill, inorder_fill up]
      simp [join, before, after]

theorem fill_append : ∀ (path up : List (Crumb α)) (t : BinTree α),
    fill (path ++ up) t = fill up (fill path t)
  | [], _, _ => rfl
  | _ :: path, up, _ => fill_append path up _

theorem before_append : ∀ path up : List (Crumb α), before (path ++ up) = before up ++ before path
  | [], up => by simp [before]
  | ⟨.left, _, _⟩ :: path, up => before_append path up
  | ⟨.right, a, u⟩ :: path, up => by
      have ih := before_append path up
      simp [before, ih]

theorem after_append : ∀ path up : List (Crumb α), after (path ++ up) = after path ++ after up
  | [], up => by simp [after]
  | ⟨.left, a, u⟩ :: path, up => by
      have ih := after_append path up
      simp [after, ih]
  | ⟨.right, _, _⟩ :: path, up => after_append path up

theorem perm_path_cons (c : Crumb α) (up : List (Crumb α)) :
    (before (c :: up) ++ after (c :: up)).Perm
      (c.elem :: (inorder c.sib ++ (before up ++ after up))) := by
  obtain ⟨d, a, u⟩ := c
  cases d with
  | left =>
      rw [before, after, List.cons_append]
      exact List.perm_middle.trans ((List.perm_append_comm_assoc ..).cons a)
  | right =>
      rw [before, after, List.append_assoc, List.append_assoc, List.singleton_append]
      refine (List.perm_append_comm_assoc ..).trans (List.Perm.trans ?_ List.perm_middle)
      exact List.perm_middle.append_left _

/-- A path that only goes left has nothing before it. -/
theorem before_eq_nil : ∀ {path : List (Crumb α)}, (∀ c ∈ path, c.side = .left) → before path = []
  | [], _ => rfl
  | ⟨.left, _, _⟩ :: up, h => by
      have hup : ∀ c ∈ up, c.side = .left := fun c hc => h c (List.mem_cons_of_mem _ hc)
      have hnil := before_eq_nil hup
      exact hnil
  | ⟨.right, _, _⟩ :: _, h => by cases h _ List.mem_cons_self

/-- A path that only goes right has nothing after it. -/
theorem after_eq_nil : ∀ {path : List (Crumb α)}, (∀ c ∈ path, c.side = .right) → after path = []
  | [], _ => rfl
  | ⟨.right, _, _⟩ :: up, h => by
      have hup : ∀ c ∈ up, c.side = .right := fun c hc => h c (List.mem_cons_of_mem _ hc)
      have hnil := after_eq_nil hup
      exact hnil
  | ⟨.left, _, _⟩ :: _, h => by cases h _ List.mem_cons_self

/-- The last element before the place is that of the last node that is left on the right. -/
theorem before_eq_concat : ∀ {path : List (Crumb α)} {xs : List α} {a : α},
    before path = xs ++ [a] → ∃ down u up, path = down ++ ⟨.right, a, u⟩ :: up
  | [], xs, a, h => by simp [before] at h
  | ⟨.left, b, u⟩ :: path, xs, a, h => by
      have hpath : before path = xs ++ [a] := h
      obtain ⟨down, v, up, rfl⟩ := before_eq_concat hpath
      exact ⟨⟨.left, b, u⟩ :: down, v, up, rfl⟩
  | ⟨.right, b, u⟩ :: path, xs, a, h => by
      rw [before, ← List.append_assoc] at h
      obtain ⟨_, hlast⟩ := List.append_inj' h rfl
      obtain rfl := List.singleton_inj.mp hlast
      exact ⟨[], u, path, rfl⟩

theorem fill_cons_ne_nil : ∀ (c : Crumb α) (up : List (Crumb α)) (t : BinTree α),
    fill (c :: up) t ≠ .nil
  | ⟨.left, _, _⟩, [], _ => fun h => by cases h
  | ⟨.right, _, _⟩, [], _ => fun h => by cases h
  | _, c :: up, _ => fill_cons_ne_nil c up _

/-! ## The place of an element -/

/-- The path to the empty place that is reached by going left where `lt` holds. -/
def locate (lt : α → Bool) : BinTree α → List (Crumb α) → List (Crumb α)
  | .nil, path => path
  | .node a l r, path =>
      if lt a then locate lt l (⟨.left, a, r⟩ :: path) else locate lt r (⟨.right, a, l⟩ :: path)

theorem fill_locate (lt : α → Bool) : ∀ (t : BinTree α) (path : List (Crumb α)),
    fill (locate lt t path) .nil = fill path t
  | .nil, _ => rfl
  | .node a l r, path => by
      rw [locate]
      split
      · exact fill_locate lt l _
      · exact fill_locate lt r _

/-- On the way down `lt` decides. -/
theorem side_locate {lt : α → Bool} : ∀ (t : BinTree α) {path : List (Crumb α)},
    (∀ c ∈ path, c.side = if lt c.elem then .left else .right) →
      ∀ c ∈ locate lt t path, c.side = if lt c.elem then .left else .right
  | .nil, _, h => h
  | .node a l r, path, h => by
      rw [locate]
      split
      · next ha => exact side_locate _ (List.forall_mem_cons.mpr ⟨(if_pos ha).symm, h⟩)
      · next ha => exact side_locate _ (List.forall_mem_cons.mpr ⟨(if_neg ha).symm, h⟩)

theorem locate_ne_nil {lt : α → Bool} : ∀ {t : BinTree α} {path : List (Crumb α)},
    (t = .nil → path ≠ []) → locate lt t path ≠ []
  | .nil, _, h => h rfl
  | .node a l r, path, _ => by
      rw [locate]
      split
      · exact locate_ne_nil fun _ => List.cons_ne_nil _ _
      · exact locate_ne_nil fun _ => List.cons_ne_nil _ _

/-- A tree with something in it has a last node on side `d`. -/
theorem exists_end (d : Side) {t : BinTree α} (h : t ≠ .nil) : ∃ path a u,
    locate (fun _ => decide (d = .left)) t [] = ⟨d, a, u⟩ :: path ∧
      t = fill path (join d a .nil u) ∧ ∀ c ∈ path, c.side = d := by
  have hside : ∀ c ∈ locate (fun _ => decide (d = .left)) t [], c.side = d := by
    intro c hc
    rw [side_locate t (fun c hc => by cases hc) c hc]
    cases d <;> rfl
  have hfill := fill_locate (fun _ => decide (d = .left)) t []
  cases hpath : locate (fun _ => decide (d = .left)) t [] with
  | nil => exact absurd hpath (locate_ne_nil fun hnil => absurd hnil h)
  | cons c path =>
      obtain ⟨e, a, u⟩ := c
      rw [hpath] at hside hfill
      obtain ⟨rfl, hup⟩ := List.forall_mem_cons.mp hside
      exact ⟨path, a, u, rfl, hfill.symm, hup⟩

/-- In a tree whose elements are split by `lt`, the place is between the two parts. -/
theorem split_locate {lt : α → Bool} : ∀ {t : BinTree α} (path : List (Crumb α)),
    (∀ a ∈ before path, lt a = false) → (∀ b ∈ after path, lt b = true) →
      (inorder t).Pairwise (fun a b => lt a = true → lt b = true) →
      (∀ a ∈ before (locate lt t path), lt a = false) ∧
        ∀ b ∈ after (locate lt t path), lt b = true
  | .nil, _, hbefore, hafter, _ => ⟨hbefore, hafter⟩
  | .node a l r, path, hbefore, hafter, h => by
      rw [inorder_node, List.pairwise_append, List.pairwise_cons] at h
      obtain ⟨hl, ⟨har, hr⟩, hla⟩ := h
      rw [locate]
      split
      · next ha =>
          refine split_locate _ hbefore ?_ hl
          intro b hb
          rcases List.mem_append.mp hb with hb | hb
          · rcases List.mem_cons.mp hb with rfl | hb
            · exact ha
            · exact har b hb ha
          · exact hafter b hb
      · next ha =>
          refine split_locate _ ?_ hafter hr
          intro b hb
          cases hlt : lt b with
          | false => rfl
          | true =>
              rcases List.mem_append.mp hb with hb | hb
              · rw [hbefore b hb] at hlt
                cases hlt
              · rcases List.mem_append.mp hb with hb | hb
                · exact absurd (hla b hb a List.mem_cons_self hlt) ha
                · rw [List.mem_singleton.mp hb] at hlt
                  exact absurd hlt ha

/-! ## Neighbours -/

/-- The one of two subtrees that is on side `d`. -/
def child (d : Side) (l r : BinTree α) : BinTree α :=
  match d with
  | .left => l
  | .right => r

/-- The element next to a place on side `d`, when `xs` are those before the place and `ys` those
after it. -/
def beside (d : Side) (xs ys : List α) : Option α :=
  match d with
  | .left => xs.getLast?
  | .right => ys.head?

/-- Every element is at a place. -/
theorem exists_place {z : α} : ∀ {t : BinTree α} {xs ys : List α}, inorder t = xs ++ z :: ys →
    ∃ path l r, t = fill path (.node z l r) ∧ xs = before path ++ inorder l ∧
      ys = inorder r ++ after path
  | .nil, xs, ys, h => by simp at h
  | .node a l r, xs, ys, h => by
      rw [inorder_node] at h
      rcases List.append_eq_append_iff.mp h with ⟨zs, rfl, hzs⟩ | ⟨zs, hzs, hys⟩
      · cases zs with
        | nil =>
            obtain ⟨rfl, rfl⟩ := List.cons.inj hzs
            exact ⟨[], l, r, rfl, by simp [before], by simp [after]⟩
        | cons b zs =>
            obtain ⟨rfl, hr⟩ := List.cons.inj hzs
            obtain ⟨path, l', r', rfl, rfl, rfl⟩ := exists_place hr
            refine ⟨path ++ [⟨.right, a, l⟩], l', r', ?_, ?_, ?_⟩
            · rw [fill_append]
              rfl
            · simp [before_append, before]
            · simp [after_append, after]
      · cases zs with
        | nil =>
            obtain ⟨rfl, rfl⟩ := List.cons.inj hys
            rw [List.append_nil] at hzs
            exact ⟨[], l, r, rfl, by simp [before, hzs], by simp [after]⟩
        | cons b zs =>
            obtain ⟨rfl, rfl⟩ := List.cons.inj hys
            obtain ⟨path, l', r', rfl, rfl, rfl⟩ := exists_place hzs
            refine ⟨path ++ [⟨.left, a, r⟩], l', r', ?_, ?_, ?_⟩
            · rw [fill_append]
              rfl
            · simp [before_append, before]
            · simp [after_append, after]

section Beside

variable {d : Side} {c : Crumb α} {up path down : List (Crumb α)} {l r u : BinTree α} {b : α}

/-- A node that the path leaves on the other side is next to the place. -/
theorem beside_of_opp (h : c.side = d.opp) :
    beside d (before (c :: up)) (after (c :: up)) = some c.elem := by
  obtain ⟨e, a, u⟩ := c
  obtain rfl : e = d.opp := h
  cases d with
  | left => simp [Side.opp, beside, before]
  | right => rfl

/-- One that it leaves on the same side is not. -/
theorem beside_of_side (h : c.side = d) : beside d (before (c :: up)) (after (c :: up)) =
    beside d (before up) (after up) := by
  obtain ⟨e, a, u⟩ := c
  obtain rfl : e = d := h
  cases e <;> rfl

/-- Without a subtree on side `d` the neighbour of a node is above it. -/
theorem beside_of_nil (h : child d l r = .nil) :
    beside d (before path ++ inorder l) (inorder r ++ after path) =
      beside d (before path) (after path) := by
  cases d with
  | left =>
      obtain rfl : l = .nil := h
      simp [beside]
  | right =>
      obtain rfl : r = .nil := h
      simp [beside]

/-- Otherwise it is at the near end of the subtree. -/
theorem beside_of_end (h : child d l r = fill down (join d.opp b .nil u))
    (hdown : ∀ c ∈ down, c.side = d.opp) :
    beside d (before path ++ inorder l) (inorder r ++ after path) = some b := by
  cases d with
  | left =>
      obtain rfl : l = _ := h
      simp [beside, inorder_fill, after_eq_nil hdown, Side.opp, join]
  | right =>
      obtain rfl : r = _ := h
      simp [beside, inorder_fill, before_eq_nil hdown, Side.opp, join]

end Beside

end BinTree

end LibC.Lib
