/-
LibC.BinaryTree.NeighbourTheorems — `Pre`, `Next`, and the walk from `Min` on.

`Next` goes down to the first node of the right subtree, or up to the first node
that it reaches from the left. The climb is followed along the path to the node
(`climbLoop_spec`), and in both cases the node at the end of it is the one behind
in the order of the tree (`neighbour_spec`); `Pre` is the mirror image. So each
undoes the other, and `Next` leads from `Min` past every node once, in the order
in which `InorderWalk` prints them (`neighbours`).

No `sorry`, no `axiom`, no `native_decide`.
-/
import LibC.BinaryTree.DeleteTheorems

namespace LibC.BinaryTree

open LibC.Lib LibC.Lib.BinTree

variable {α : Type} {t : BinaryTree α} {path : List (Crumb (Cell α))} {T l r : BinTree (Cell α)}
  {z : Cell α}

/-! ## One neighbour -/

theorem Cell.child_node_left (d : Side) (a : Cell α) (par : Option Ptr) :
    (a.node .left par (ptrOf l) (ptrOf r)).child d = ptrOf (child d l r) := by cases d <;> rfl

theorem length_le_pathPtrs : ∀ path : List (Crumb (Cell α)), path.length ≤ (pathPtrs path).length
  | [] => Nat.le_refl 0
  | c :: up => by
      rw [(perm_pathPtrs_cons c up).length_eq, List.length_cons, List.length_cons,
        List.length_append]
      exact Nat.succ_le_succ (Nat.le_trans (length_le_pathPtrs up) (Nat.le_add_left _ _))

/-- A path is no longer than the heap is large. -/
theorem Place.length_path_le (h : Place t path T) : path.length ≤ t.heap.size := by
  have hwhole : Place t [] (fill path T) := (holds_fill.mpr h).place
  have hle := hwhole.length_le
  have hperm := (perm_ptrs_fill path T).length_eq
  rw [ptrs, List.length_map, List.length_append] at hperm
  have hpath := length_le_pathPtrs path
  omega

/-- The climb ends at the node next to the place. -/
theorem climbLoop_spec (d : Side) : ∀ (path : List (Crumb (Cell α))) {q : Ptr} {fuel : ℕ},
    PathAt t.heap.get (some q) path → q ∉ pathPtrs path → (pathPtrs path).Nodup →
      path.length < fuel → climbLoop d fuel (some q) (parentOf path) t =
        some ((beside d (before path) (after path)).map Cell.ptr)
  | [], q, fuel + 1, _, _, _, _ => by
      rw [climbLoop, parentOf, if_pos rfl]
      cases d <;> rfl
  | c :: up, q, fuel + 1, ⟨hc, hsib, hup⟩, hq, hnd, hfuel => by
      have hnd' := (perm_pathPtrs_cons c up).nodup_iff.mp hnd
      rw [List.nodup_cons, List.mem_append, not_or, List.nodup_append] at hnd'
      obtain ⟨⟨_, hcup⟩, _, hndup, _⟩ := hnd'
      rw [climbLoop, parentOf, if_neg (Option.some_ne_none _)]
      simp only [read_eq hc, Cell.parent_node, Option.bind_eq_bind, Option.bind_some]
      by_cases hside : c.side = d
      · -- the place is below the child on side `d`
        have ih := climbLoop_spec d up hup hcup hndup (Nat.lt_of_succ_lt_succ hfuel)
        rw [beside_of_side hside, ← ih, ← hside, Cell.child_node, if_pos rfl]
      · have hopp : c.side = d.opp := Side.eq_opp_of_ne hside
        have hchild : (c.elem.node c.side (parentOf up) (some q) (ptrOf c.sib)).child d =
            ptrOf c.sib := by
          rw [hopp]
          cases d <;> rfl
        have hne : ¬ ptrOf c.sib = some q := fun heq =>
          hq (mem_pathPtrs_cons.mpr (Or.inr (Or.inl (mem_ptrs_of_ptrOf heq))))
        rw [hchild, if_neg hne, beside_of_opp hopp, Option.map_some]

/-- `Min` and `Max` of a subtree end at its last node on that side. -/
theorem endLoop_place (d : Side) {par : Option Ptr} (hT : TreeAt t.heap.get par T) (hne : T ≠ .nil)
    (hsize : (inorder T).length ≤ t.heap.size) : ∃ down b u, T = fill down (join d b .nil u) ∧
      (∀ c ∈ down, c.side = d) ∧ endLoop d (t.heap.size + 1) (ptrOf T) t = some (some b.ptr) := by
  obtain ⟨down, b, u, hlocate, hfill, hside⟩ := exists_end d hne
  refine ⟨down, b, u, hfill, hside, ?_⟩
  rw [endLoop_spec d [] hne hT (Nat.lt_succ_of_le hsize), hlocate]
  rfl

/-- `Next` and `Pre` of a node end at the one next to it. -/
theorem neighbour_spec (d : Side) (h : Place t path (.node z l r)) :
    neighbour d (some z.ptr) t =
      some ((beside d (before path ++ inorder l) (inorder r ++ after path)).map Cell.ptr) := by
  have hplace : Place t path (join .left z l r) := h
  obtain ⟨hz, hl, hr⟩ := h.tree
  have hout := hplace.apart
  have hlen := h.length_le
  rw [inorder_node, List.length_append, List.length_cons] at hlen
  rw [neighbour, if_neg (Option.some_ne_none _)]
  simp only [read_eq hz, Cell.child_node_left, Cell.parent_node, Option.bind_eq_bind,
    Option.bind_some]
  by_cases hnil : child d l r = .nil
  · have hclimb := climbLoop_spec d path h.above.nodes hout.out h.above.nodup
      (Nat.lt_succ_of_le h.length_path_le)
    rw [if_neg (not_not.mpr (ptrOf_eq_none_iff.mpr hnil)), beside_of_nil hnil]
    exact hclimb
  · have hsub : TreeAt t.heap.get (some z.ptr) (child d l r) := by cases d <;> assumption
    have hsize : (inorder (child d l r)).length ≤ t.heap.size := by
      cases d with
      | left => exact Nat.le_trans (Nat.le_add_right _ _) hlen
      | right => exact Nat.le_trans (by omega : (inorder r).length ≤ _) hlen
    obtain ⟨down, b, u, hfill, hside, hrun⟩ := endLoop_place d.opp hsub hnil hsize
    rw [if_pos fun heq => hnil (ptrOf_eq_none_iff.mp heq), beside_of_end hfill hside,
      Option.map_some]
    cases d with
    | left => exact hrun
    | right => exact hrun

/-! ## The order of the nodes -/

variable {xs ys : List (Cell α)}

/-- `Next` and `Pre`, in the order of the tree. -/
theorem Holds.neighbour (h : Holds t T) (hT : inorder T = xs ++ z :: ys) (d : Side) :
    neighbour d (some z.ptr) t = some ((beside d xs ys).map Cell.ptr) := by
  obtain ⟨path, l, r, rfl, rfl, rfl⟩ := exists_place hT
  exact neighbour_spec d (holds_fill.mp h)

/-- Each of the two undoes the other. -/
theorem Holds.neighbour_opp (h : Holds t T) {d : Side} {p q : Ptr} (hp : p ∈ ptrs T)
    (hq : BinaryTree.neighbour d (some p) t = some (some q)) :
    BinaryTree.neighbour d.opp (some q) t = some (some p) := by
  obtain ⟨z, hz, rfl⟩ := List.mem_map.mp hp
  obtain ⟨xs, ys, hT⟩ := List.append_of_mem hz
  rw [h.neighbour hT d, Option.some_inj, Option.map_eq_some_iff] at hq
  obtain ⟨b, hb, rfl⟩ := hq
  cases d with
  | left =>
      obtain ⟨xs', rfl⟩ := List.getLast?_eq_some_iff.mp hb
      rw [List.append_assoc, List.singleton_append] at hT
      exact h.neighbour hT .right
  | right =>
      obtain ⟨ys', rfl⟩ := List.head?_eq_some_iff.mp hb
      rw [← List.singleton_append, ← List.append_assoc] at hT
      rw [h.neighbour hT Side.right.opp, Side.opp, beside, List.getLast?_concat, Option.map_some]

/-- `Min` of the tree is its first node. -/
theorem Holds.minRoot (h : Holds t T) : minRoot t = some ((inorder T).head?.map Cell.ptr) := by
  rw [BinaryTree.minRoot, h.root]
  by_cases hnil : T = .nil
  · subst hnil
    rfl
  · obtain ⟨down, b, u, rfl, hside, hrun⟩ := endLoop_place .left h.tree hnil h.place.length_le
    rw [if_neg fun heq => hnil (ptrOf_eq_none_iff.mp heq), minNode, hrun, inorder_fill,
      before_eq_nil hside]
    rfl

/-- `Max` of the tree is its last node. -/
theorem Holds.maxRoot (h : Holds t T) : maxRoot t = some ((inorder T).getLast?.map Cell.ptr) := by
  rw [BinaryTree.maxRoot, h.root]
  by_cases hnil : T = .nil
  · subst hnil
    rfl
  · obtain ⟨down, b, u, rfl, hside, hrun⟩ := endLoop_place .right h.tree hnil h.place.length_le
    rw [if_neg fun heq => hnil (ptrOf_eq_none_iff.mp heq), maxNode, hrun, inorder_fill,
      after_eq_nil hside]
    simp [join]

/-- The nodes from `x` on, one `Next` after the other, until it answers null. -/
def followNext : Nat → Option Ptr → BinaryTree α → Option (List Ptr)
  | 0, _, _ => none
  | _ + 1, none, _ => some []
  | fuel + 1, some q, t => do
      let x ← next (some q) t
      let rest ← followNext fuel x t
      some (q :: rest)

/-- From any node on these are the ones behind it. -/
theorem Holds.followNext (h : Holds t T) : ∀ (xs ys : List (Cell α)) {fuel : ℕ},
    inorder T = xs ++ ys → ys.length < fuel →
      followNext fuel (ys.head?.map Cell.ptr) t = some (ys.map Cell.ptr)
  | _, [], _ + 1, _, _ => rfl
  | xs, z :: ys, fuel + 1, hT, hfuel => by
      have hnext := h.neighbour hT .right
      have ih := h.followNext (xs ++ [z]) ys (by simpa using hT) (Nat.lt_of_succ_lt_succ hfuel)
      have hbeside : (beside .right xs ys).map Cell.ptr = ys.head?.map Cell.ptr := rfl
      rw [List.head?_cons, Option.map_some, BinaryTree.followNext, next, hnext]
      simp only [Option.bind_eq_bind, Option.bind_some, hbeside, ih, List.map_cons]

/-- In any tree, `Next` leads from a node to the one behind it in order, and `Pre` to the one
before, and to null from the last and the first, which are `Max` and `Min`. So each undoes the
other, and `Next` leads from `Min` past every node once, in the order of `InorderWalk`. -/
theorem neighbours (h : Holds t T) :
    (∀ xs z ys, inorder T = xs ++ z :: ys →
      next (some z.ptr) t = some (ys.head?.map Cell.ptr) ∧
        pre (some z.ptr) t = some (xs.getLast?.map Cell.ptr)) ∧
      (∀ p ∈ ptrs T, ∀ q ∈ ptrs T,
        next (some p) t = some (some q) ↔ pre (some q) t = some (some p)) ∧
      (∃ x, BinaryTree.minRoot t = some x ∧
        BinaryTree.followNext (t.heap.size + 1) x t = some (ptrs T)) ∧
      BinaryTree.maxRoot t = some ((inorder T).getLast?.map Cell.ptr) ∧
      (ptrs T).Nodup ∧ BinaryTree.inorderWalk t = some (values T) ∧
      (ptrs T).map (fun p => t.read (some p) Node.data) = (values T).map some := by
  refine ⟨fun xs z ys hT => ⟨h.neighbour hT .right, h.neighbour hT .left⟩, fun p hp q hq => ?_,
    ⟨_, h.minRoot, ?_⟩, h.maxRoot, h.nodup, h.inorderWalk, ?_⟩
  · exact ⟨fun hnext => h.neighbour_opp hp hnext, fun hpre => h.neighbour_opp hq hpre⟩
  · exact h.followNext [] _ rfl (Nat.lt_succ_of_le h.place.length_le)
  · rw [ptrs, values, List.map_map, List.map_map]
    refine List.map_congr_left fun a ha => ?_
    obtain ⟨n, hn, hdata⟩ := h.tree.get_of_mem ha
    exact (read_eq hn Node.data).trans (congrArg some hdata)

theorem neighbours_root : ∃ T, Holds fourNodes T ∧ ptrs T = [1, 0, 3, 2] ∧
    next (some 0) fourNodes = some (some 3) ∧ next (some 2) fourNodes = some none ∧
      BinaryTree.followNext 5 (some 1) fourNodes = some (ptrs T) := by
  obtain ⟨hsteps, _, ⟨x, hmin, hwalk⟩, _⟩ := neighbours holds_fourNodes
  have hx : BinaryTree.minRoot fourNodes = some (some 1) := by decide
  obtain rfl := Option.some.inj (hx.symm.trans hmin)
  exact ⟨_, holds_fourNodes, rfl, (hsteps [⟨1, 1⟩] ⟨0, 2⟩ [⟨3, 3⟩, ⟨2, 4⟩] rfl).1,
    (hsteps [⟨1, 1⟩, ⟨0, 2⟩, ⟨3, 3⟩] ⟨2, 4⟩ [] rfl).1, hwalk⟩

end LibC.BinaryTree
