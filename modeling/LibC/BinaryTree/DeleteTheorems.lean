/-
LibC.BinaryTree.DeleteTheorems — deletion from a `BinaryTree`.

A node with one child at most gives its place to the other one. A node with two
gives it to the first node `b` of its right subtree: `b` gives up its own place
first, unless it is the right child itself, and takes over what is left of the
right subtree (`detach_spec`); then it takes the place and the left subtree
(`succeed_spec`). In both cases the nodes are the same as before, in the same
order, without the one that is deleted (`deleteNode_spec`).

`Search` ends at a node with the value, if the values are sorted and there is one
(`searchLoop_spec`). With it `delete_takes_out` says what `Delete` does to any tree.

No `sorry`, no `axiom`, no `native_decide`.
-/
import LibC.BinaryTree.TreeTheorems

namespace LibC.BinaryTree

open LibC.Lib LibC.Lib.BinTree

variable {α : Type} {t t' : BinaryTree α} {path : List (Crumb (Cell α))} {T : BinTree (Cell α)}

/-! ## The end of a side -/

/-- The loop of `Min` ends at the node above the place on the far left, and that of `Max` on the
far right. -/
theorem endLoop_spec (d : Side) : ∀ {T : BinTree (Cell α)} {par : Option Ptr}
    (path : List (Crumb (Cell α))) {fuel : ℕ}, T ≠ .nil → TreeAt t.heap.get par T →
      (inorder T).length < fuel → endLoop d fuel (ptrOf T) t =
        some (parentOf (locate (fun _ => decide (d = .left)) T path))
  | .nil, _, _, _, hne, _, _ => absurd rfl hne
  | .node a l r, par, path, fuel + 1, _, ⟨ha, hl, hr⟩, hfuel => by
      rw [inorder_node, List.length_append, List.length_cons] at hfuel
      have hfl : (inorder l).length < fuel := by omega
      have hfr : (inorder r).length < fuel := by omega
      rw [endLoop, ptrOf, read_eq ha, locate]
      cases d with
      | left =>
          by_cases hne : l = .nil
          · subst hne
            rfl
          · have ih := endLoop_spec .left (⟨.left, a, r⟩ :: path) hne hl hfl
            have hnone : ¬ ptrOf l = none := fun heq => hne (ptrOf_eq_none_iff.mp heq)
            exact (if_neg hnone).trans ih
      | right =>
          by_cases hne : r = .nil
          · subst hne
            rfl
          · have ih := endLoop_spec .right (⟨.right, a, l⟩ :: path) hne hr hfr
            have hnone : ¬ ptrOf r = none := fun heq => hne (ptrOf_eq_none_iff.mp heq)
            exact (if_neg hnone).trans ih

/-! ## A node with two children -/

variable {a b : Cell α} {l r R : BinTree (Cell α)} {par : Option Ptr}

/-- The first node of a subtree, and what is left of the subtree without it. -/
theorem exists_first {r : BinTree (Cell α)} (hr : r ≠ .nil) :
    ∃ down b R, locate (fun _ => decide (Side.left = .left)) r [] = ⟨.left, b, R⟩ :: down ∧
      r = fill down (join .left b .nil R) ∧ inorder r = b :: inorder (fill down R) := by
  obtain ⟨down, b, R, hlocate, hfill, hside⟩ := exists_end .left hr
  refine ⟨down, b, R, hlocate, hfill, ?_⟩
  rw [hfill, inorder_fill, inorder_fill, before_eq_nil hside]
  rfl

theorem mem_ptrs_fill_cons (c : Crumb (Cell α)) (down : List (Crumb (Cell α))) :
    c.elem.ptr ∈ ptrs (fill (c :: down) T) :=
  (perm_ptrs_fill ..).mem_iff.mpr
    (List.mem_append_left _ (mem_pathPtrs_cons.mpr (Or.inl rfl)))

/-- The first node has the root of the subtree as its parent only when it is its child. -/
theorem Place.first_node {down : List (Crumb (Cell α))}
    (h : Place t path (.node a l (fill down (join .left b .nil R)))) :
    ∃ q, t.heap.get b.ptr = some (b.node .left q none (ptrOf R)) ∧
      (q = some a.ptr ↔ down = []) := by
  have hright : Place t (⟨.right, a, l⟩ :: path) (fill down (join .left b .nil R)) :=
    place_up.mpr h
  refine ⟨_, (place_append.mpr hright).get, ?_⟩
  cases down with
  | nil => exact ⟨fun _ => rfl, fun _ => rfl⟩
  | cons c down =>
      refine ⟨fun heq => ?_, fun heq => absurd heq (List.cons_ne_nil c down)⟩
      have hmem : c.elem.ptr ∈ ptrs (fill (c :: down) (join .left b .nil R)) :=
        mem_ptrs_fill_cons c down
      have hac : c.elem.ptr = a.ptr := Option.some.inj heq
      have hout := (show Place t path (join .left a l _) from h).apart
      rw [hac] at hmem
      exact absurd hmem hout.right

/-- The first one of the nodes on the right takes the place of the node above. -/
theorem Apart.succeed {ps as bs : List Ptr} {p q : Ptr} (h : Apart ps p as (q :: bs)) :
    Apart ps q as bs where
  left hm := h.left_right q hm List.mem_cons_self
  right := (List.nodup_cons.mp h.nodup_right).1
  out := h.right_out q List.mem_cons_self
  nodup_left := h.nodup_left
  nodup_right := (List.nodup_cons.mp h.nodup_right).2
  left_right r hr hm := h.left_right r hr (List.mem_cons_of_mem _ hm)
  left_out := h.left_out
  right_out r hr := h.right_out r (List.mem_cons_of_mem _ hr)

/-- `b` takes the place of `a`, and its left subtree. -/
theorem succeed_spec {n : Node α} (hpath : Above t path (some a.ptr))
    (ha : t.heap.get a.ptr = some n) (hpar : n.parent = parentOf path) (hleft : n.left = ptrOf l)
    (hl : TreeAt t.heap.get (some a.ptr) l) (hne : l ≠ .nil)
    (hR : TreeAt t.heap.get par (join .left b .nil R))
    (hout : Apart (pathPtrs path) a.ptr (ptrs l) (b.ptr :: ptrs R)) :
    ∃ t', (transplant (some a.ptr) (some b.ptr) t).bind (adopt .left (some b.ptr) (some a.ptr)) =
        some t' ∧ Place t' path (join .left b l R) ∧ t'.heap.get a.ptr = some n := by
  have hptrs : ptrs (join .left b .nil R) = b.ptr :: ptrs R := rfl
  obtain ⟨t1, hrun1, h1, hkeep1⟩ := transplant_spec hpath hout.out ha hpar hR
    (hptrs ▸ hout.nodup_right) (hptrs ▸ hout.right_out)
  rw [hptrs] at hkeep1
  have hkept1 : ∀ q, q ∉ pathPtrs path → q ∉ b.ptr :: ptrs R → t1.heap.get q = t.heap.get q :=
    fun q hq hq' => hkeep1.get q fun hm => (List.mem_append.mp hm).elim hq hq'
  have ha1 := (hkept1 _ hout.out hout.right).trans ha
  have hl1 : TreeAt t1.heap.get (some a.ptr) l :=
    hl.congr fun q hq => hkept1 q (hout.left_out q hq) (hout.left_right q hq)
  have hpath1 : Above t1 path (some b.ptr) := h1.above
  obtain ⟨-, -, hR1⟩ := (treeAt_join ..).mp h1.tree
  obtain ⟨t2, hrun2, hroot2, h2, hkeep2⟩ := adopt_spec h1.get hR1 ha1 hleft hl1 hne hout.succeed
  have hpath2 : PathAt t2.heap.get (some b.ptr) path := by
    refine hkeep2.path hpath1.nodes fun q hq hm => ?_
    rcases List.mem_cons.mp hm with rfl | hm
    · exact hout.right_out _ List.mem_cons_self hq
    · exact hout.left_out q hm hq
  have ha2 : a.ptr ∉ b.ptr :: ptrs l := by
    intro hm
    rcases List.mem_cons.mp hm with heq | hm
    · exact hout.right (heq ▸ List.mem_cons_self)
    · exact hout.left hm
  refine ⟨t2, ?_, place_join ⟨hroot2.trans hpath1.root, hpath2, hpath1.nodup⟩ h2 hout.succeed,
    (hkeep2.get _ ha2).trans ha1⟩
  have hb : ptrOf (join .left b .nil R) = some b.ptr := rfl
  rw [hb] at hrun1
  rw [hrun1]
  exact hrun2

/-- The first node of the right subtree gives up its place, and takes over what is left of the
subtree. -/
theorem detach_spec {down : List (Crumb (Cell α))} {c : Crumb (Cell α)}
    (h : Place t path (.node a l (fill (c :: down) (join .left b .nil R))))
    (hout : Apart (pathPtrs path) a.ptr (ptrs l) (b.ptr :: ptrs (fill (c :: down) R))) :
    ∃ t' p, (transplant (some b.ptr) (ptrOf R) t).bind (adopt .right (some b.ptr) (some a.ptr)) =
        some t' ∧ Above t' path (some a.ptr) ∧
      t'.heap.get a.ptr =
        some (a.node .right (parentOf path) (ptrOf (fill (c :: down) R)) (ptrOf l)) ∧
      TreeAt t'.heap.get (some a.ptr) l ∧
      TreeAt t'.heap.get p (join .left b .nil (fill (c :: down) R)) := by
  have hright : Place t (⟨.right, a, l⟩ :: path) (fill (c :: down) (join .left b .nil R)) :=
    place_up.mpr h
  have hnode : Place t (c :: down ++ ⟨.right, a, l⟩ :: path) (join .left b .nil R) :=
    place_append.mpr hright
  have hb := hnode.apart
  -- `R` takes the place of `b`
  obtain ⟨-, -, hR⟩ := (treeAt_join ..).mp hnode.tree
  obtain ⟨t1, hrun1, h1, hkeep1⟩ := transplant_spec hnode.above hb.out hnode.get
    (Cell.parent_node ..) hR hb.nodup_right hb.right_out
  have hwhole : Place t1 path (join .right a (fill (c :: down) R) l) :=
    place_up.mp (place_append.mp h1)
  have hb1 : t1.heap.get b.ptr = some (b.node .right (some c.elem.ptr) (ptrOf R)
      (ptrOf (.nil : BinTree (Cell α)))) := by
    rw [hkeep1.get _ fun hm => (List.mem_append.mp hm).elim hb.out hb.right, hnode.get]
    rfl
  -- `b` takes over what is left
  obtain ⟨-, hR1, hl1⟩ := (treeAt_join ..).mp hwhole.tree
  have hapart : Apart [] b.ptr (ptrs (fill (c :: down) R)) (ptrs (.nil : BinTree (Cell α))) :=
    ⟨hout.succeed.right, List.not_mem_nil, List.not_mem_nil, hout.succeed.nodup_right,
      List.nodup_nil, fun _ _ => List.not_mem_nil, fun _ _ => List.not_mem_nil,
      fun _ _ => List.not_mem_nil⟩
  obtain ⟨t2, hrun2, hroot2, h2, hkeep2⟩ := adopt_spec hb1 trivial hwhole.get
    (Cell.child_node ..) hR1 (fill_cons_ne_nil c down R) hapart
  have habove : Above t1 path (some a.ptr) := hwhole.above
  have hpath2 : PathAt t2.heap.get (some a.ptr) path :=
    hkeep2.path habove.nodes fun q hq hm => hout.right_out q hm hq
  refine ⟨t2, _, ?_, ⟨hroot2.trans habove.root, hpath2, habove.nodup⟩,
    (hkeep2.get _ hout.right).trans hwhole.get, hkeep2.tree hl1 hout.left_right, h2⟩
  rw [hrun1]
  exact hrun2

/-- The first node of the right subtree takes the place of a node with two children. -/
theorem deleteInner_spec (h : Place t path (.node a l r)) (hl : l ≠ .nil) (hr : r ≠ .nil) :
    ∃ t' T', deleteInner (some a.ptr) t = some t' ∧ Place t' path T' ∧
      inorder T' = inorder l ++ inorder r ∧ ∃ n, t'.heap.get a.ptr = some n := by
  obtain ⟨down, b, R, hlocate, rfl, hfirst⟩ := exists_first hr
  obtain ⟨ha, htl, htr⟩ := h.tree
  have habove : Above t path (some a.ptr) := h.above
  have hout : Apart (pathPtrs path) a.ptr (ptrs l) (b.ptr :: ptrs (fill down R)) := by
    have hapart := (show Place t path (join .left a l _) from h).apart
    rwa [ptrs, ptrs, hfirst] at hapart
  have hmin : minNode (ptrOf (fill down (join .left b .nil R))) t = some (some b.ptr) := by
    have hle := h.length_le
    rw [inorder_node, List.length_append, List.length_cons] at hle
    rw [minNode, endLoop_spec .left [] hr htr (by omega), hlocate]
    rfl
  have horder : inorder (join .left b l (fill down R)) =
      inorder l ++ inorder (fill down (join .left b .nil R)) := by
    rw [hfirst]
    rfl
  obtain ⟨q, hb, hq⟩ := h.first_node
  have hrun : deleteInner (some a.ptr) t =
      if q ≠ some a.ptr then
        ((transplant (some b.ptr) (ptrOf R) t).bind (adopt .right (some b.ptr) (some a.ptr))).bind
          fun t => (transplant (some a.ptr) (some b.ptr) t).bind
            (adopt .left (some b.ptr) (some a.ptr))
      else (transplant (some a.ptr) (some b.ptr) t).bind
        (adopt .left (some b.ptr) (some a.ptr)) := by
    simp only [deleteInner, read_eq ha, Cell.node, hmin, read_eq hb, Option.bind_eq_bind,
      Option.bind_some, Option.bind_assoc]
  cases down with
  | nil =>
      -- `b` is the right child
      obtain ⟨t', hrun', h', hlive⟩ := succeed_spec habove ha rfl rfl htl hl htr hout
      refine ⟨t', _, ?_, h', horder, _, hlive⟩
      rw [hrun, if_neg (not_not_intro (hq.mpr rfl))]
      exact hrun'
  | cons c down =>
      obtain ⟨t1, p, hrun1, habove1, ha1, hl1, hr1⟩ := detach_spec h hout
      obtain ⟨t', hrun', h', hlive⟩ := succeed_spec habove1 ha1 rfl rfl hl1 hl hr1 hout
      refine ⟨t', _, ?_, h', horder, _, hlive⟩
      rw [hrun, if_pos fun heq => List.cons_ne_nil c down (hq.mp heq), hrun1]
      exact hrun'

/-! ## Any node -/

/-- `Delete` of a node takes it out of the order. -/
theorem deleteNode_spec (h : Place t path (.node a l r)) :
    ∃ t' T', deleteNode (some a.ptr) t = some t' ∧ Place t' path T' ∧
      inorder T' = inorder l ++ inorder r ∧ ∃ n, t'.heap.get a.ptr = some n := by
  obtain ⟨ha, htl, htr⟩ := h.tree
  have hout := (show Place t path (join .left a l r) from h).apart
  have habove : Above t path (some a.ptr) := h.above
  have hrun : deleteNode (some a.ptr) t =
      if ptrOf l = none then transplant (some a.ptr) (ptrOf r) t
      else if ptrOf r = none then transplant (some a.ptr) (ptrOf l) t
      else deleteInner (some a.ptr) t := by
    simp only [deleteNode, read_eq ha, Cell.node, Option.bind_eq_bind, Option.bind_some]
  have hlive : ∀ {t'} {S : BinTree (Cell α)}, Keeps (pathPtrs path ++ ptrs S) t t' →
      a.ptr ∉ ptrs S → ∃ n, t'.heap.get a.ptr = some n := fun hkeep hS =>
    ⟨_, (hkeep.get _ fun hm => (List.mem_append.mp hm).elim hout.out hS).trans ha⟩
  by_cases hl : l = .nil
  · subst hl
    obtain ⟨t', hrun', h', hkeep⟩ :=
      transplant_spec habove hout.out ha rfl htr hout.nodup_right hout.right_out
    exact ⟨t', r, hrun.trans hrun', h', rfl, hlive hkeep hout.right⟩
  have hnl : ¬ ptrOf l = none := fun heq => hl (ptrOf_eq_none_iff.mp heq)
  rw [if_neg hnl] at hrun
  by_cases hr : r = .nil
  · subst hr
    obtain ⟨t', hrun', h', hkeep⟩ :=
      transplant_spec habove hout.out ha rfl htl hout.nodup_left hout.left_out
    exact ⟨t', l, hrun.trans hrun', h', (List.append_nil _).symm, hlive hkeep hout.left⟩
  have hnr : ¬ ptrOf r = none := fun heq => hr (ptrOf_eq_none_iff.mp heq)
  rw [if_neg hnr] at hrun
  obtain ⟨t', T', hrun', h', horder, hlive⟩ := deleteInner_spec h hl hr
  exact ⟨t', T', hrun.trans hrun', h', horder, hlive⟩

/-- A node that is no longer in the tree is freed. -/
theorem freeNode_spec {q : Ptr} {n : Node α} (h : Holds t T) (hq : q ∉ ptrs T)
    (hn : t.heap.get q = some n) :
    ∃ t', freeNode (some q) t = some t' ∧ Holds t' T ∧ t'.heap.get q = none := by
  refine ⟨{ t with heap := t.heap.free q }, ?_, ⟨h.root, ?_, h.nodup⟩, ?_⟩
  · rw [freeNode, hn, Option.map_some]
  · refine h.tree.congr fun p hp => ?_
    have hne : p ≠ q := fun heq => hq (heq ▸ hp)
    exact (Heap.get_free ..).trans (if_neg hne)
  · exact (Heap.get_free ..).trans (if_pos rfl)

/-- The links of a tree lead to its nodes, and from its root to the parent. -/
theorem TreeAt.links {g : Ptr → Option (Node α)} : ∀ {T : BinTree (Cell α)} {par : Option Ptr}
    {p : Ptr} {n : Node α} (q : Ptr), TreeAt g par T → p ∈ ptrs T → g p = some n →
      (n.left = some q ∨ n.right = some q → q ∈ ptrs T) ∧
        (n.parent = some q → q ∈ ptrs T ∨ par = some q)
  | .node a l r, par, p, n, q, ⟨ha, hl, hr⟩, hp, hn => by
      have hmem : ∀ {x}, x ∈ ptrs (.node a l r) ↔ x = a.ptr ∨ x ∈ ptrs l ∨ x ∈ ptrs r :=
        fun {x} => (mem_ptrs_join : x ∈ ptrs (join .left a l r) ↔ _)
      -- the links of a subtree, whose root has the parent `a`
      have hsub : ∀ {U : BinTree (Cell α)}, (∀ x ∈ ptrs U, x ∈ ptrs (.node a l r)) →
          (n.left = some q ∨ n.right = some q → q ∈ ptrs U) ∧
            (n.parent = some q → q ∈ ptrs U ∨ some a.ptr = some q) →
          (n.left = some q ∨ n.right = some q → q ∈ ptrs (.node a l r)) ∧
            (n.parent = some q → q ∈ ptrs (.node a l r) ∨ par = some q) := by
        intro U hU h
        refine ⟨fun hq => hU q (h.1 hq), fun hq => Or.inl ?_⟩
        rcases h.2 hq with hq | hq
        · exact hU q hq
        · exact hmem.mpr (Or.inl (Option.some.inj hq).symm)
      rcases hmem.mp hp with rfl | hp | hp
      · obtain rfl := Option.some.inj (ha.symm.trans hn)
        refine ⟨?_, Or.inr⟩
        rintro (hq | hq)
        · exact hmem.mpr (Or.inr (Or.inl (mem_ptrs_of_ptrOf hq)))
        · exact hmem.mpr (Or.inr (Or.inr (mem_ptrs_of_ptrOf hq)))
      · exact hsub (fun x hx => hmem.mpr (Or.inr (Or.inl hx))) (hl.links q hp hn)
      · exact hsub (fun x hx => hmem.mpr (Or.inr (Or.inr hx))) (hr.links q hp hn)

/-- Nothing that is in the tree points to `q`. -/
structure Unlinked (t : BinaryTree α) (T : BinTree (Cell α)) (q : Ptr) : Prop where
  root : t.root ≠ some q
  links : ∀ p ∈ ptrs T, ∃ n, t.heap.get p = some n ∧ n.left ≠ some q ∧ n.right ≠ some q ∧
    n.parent ≠ some q

theorem Holds.unlinked (h : Holds t T) {q : Ptr} (hq : q ∉ ptrs T) : Unlinked t T q := by
  refine ⟨fun heq => hq (mem_ptrs_of_ptrOf (h.root.symm.trans heq)), fun p hp => ?_⟩
  obtain ⟨n, hn⟩ := h.tree.live hp
  obtain ⟨hchild, hparent⟩ := h.tree.links q hp hn
  refine ⟨n, hn, fun heq => hq (hchild (Or.inl heq)), fun heq => hq (hchild (Or.inr heq)),
    fun heq => ?_⟩
  rcases hparent heq with hmem | hnone
  · exact hq hmem
  · cases hnone

/-! ## The walk, and search -/

/-- `InorderWalk` lists what is in the tree. -/
theorem inorderWalkFrom_spec : ∀ {T : BinTree (Cell α)} {par : Option Ptr} {fuel : ℕ},
    TreeAt t.heap.get par T → (inorder T).length < fuel →
      inorderWalkFrom fuel (ptrOf T) t = some (values T)
  | .nil, _, fuel + 1, _, _ => rfl
  | .node a l r, par, fuel + 1, ⟨ha, hl, hr⟩, hfuel => by
      rw [inorder_node, List.length_append, List.length_cons] at hfuel
      have hwl : inorderWalkFrom fuel (ptrOf l) t = some (values l) :=
        inorderWalkFrom_spec hl (by omega)
      have hwr : inorderWalkFrom fuel (ptrOf r) t = some (values r) :=
        inorderWalkFrom_spec hr (by omega)
      rw [inorderWalkFrom, ptrOf, if_neg (Option.some_ne_none _)]
      simp only [read_eq ha, Option.bind_eq_bind, Option.bind_some, Cell.node, hwl, hwr, values,
        inorder_node, List.map_append, List.map_cons]

theorem Holds.inorderWalk (h : Holds t T) : inorderWalk t = some (values T) := by
  rw [BinaryTree.inorderWalk, h.root]
  exact inorderWalkFrom_spec h.tree (Nat.lt_succ_of_le h.place.length_le)

/-- A node of `T` with the value `d`, or null when there is none. -/
def Found (d : α) (T : BinTree (Cell α)) (q : Option Ptr) : Prop :=
  (∃ path a l r, T = fill path (.node a l r) ∧ a.data = d ∧ q = some a.ptr) ∨
    (q = none ∧ d ∉ values T)

/-- What is found in a subtree is found in the tree, when the rest does not have the value. -/
theorem Found.up {d : α} {q : Option Ptr} (c : Crumb (Cell α)) (h : Found d T q)
    (hc : d ≠ c.elem.data) (hsib : d ∉ values c.sib) :
    Found d (join c.side c.elem T c.sib) q := by
  rcases h with ⟨path, b, l, r, rfl, hb, hq⟩ | ⟨hq, hno⟩
  · refine Or.inl ⟨path ++ [c], b, l, r, ?_, hb, hq⟩
    rw [fill_append]
    rfl
  · refine Or.inr ⟨hq, fun hm => ?_⟩
    rcases mem_values_join.mp hm with hm | hm | hm
    · exact hc hm
    · exact hno hm
    · exact hsib hm

section Order

variable [LinearOrder α]

/-- The values of a tree are sorted. -/
def Sorted (T : BinTree (Cell α)) : Prop := (values T).Pairwise (· ≤ ·)

theorem sorted_node : Sorted (.node a l r) ↔ Sorted l ∧ Sorted r ∧
    (∀ x ∈ values l, x ≤ a.data) ∧ (∀ x ∈ values r, a.data ≤ x) ∧
      ∀ x ∈ values l, ∀ y ∈ values r, x ≤ y := by
  rw [Sorted, values, inorder_node, List.map_append, List.map_cons, List.pairwise_append,
    List.pairwise_cons]
  constructor
  · rintro ⟨hl, ⟨har, hr⟩, hla⟩
    exact ⟨hl, hr, fun x hx => hla x hx _ List.mem_cons_self, har, fun x hx y hy =>
      hla x hx y (List.mem_cons_of_mem _ hy)⟩
  · rintro ⟨hl, hr, hla, har, hlr⟩
    refine ⟨hl, ⟨har, hr⟩, fun x hx y hy => ?_⟩
    rcases List.mem_cons.mp hy with rfl | hy
    · exact hla x hx
    · exact hlr x hx y hy

/-- The loop of `Search` ends at a node with the value, if there is one. -/
theorem searchLoop_spec (d : α) : ∀ {T : BinTree (Cell α)} {par : Option Ptr} {fuel : ℕ},
    TreeAt t.heap.get par T → (inorder T).length < fuel → Sorted T →
      ∃ q, searchLoop d fuel (ptrOf T) t = some q ∧ Found d T q
  | .nil, _, fuel + 1, _, _, _ => ⟨none, rfl, Or.inr ⟨rfl, List.not_mem_nil⟩⟩
  | .node a l r, par, fuel + 1, ⟨ha, hl, hr⟩, hfuel, hs => by
      rw [inorder_node, List.length_append, List.length_cons] at hfuel
      have hfl : (inorder l).length < fuel := by omega
      have hfr : (inorder r).length < fuel := by omega
      obtain ⟨hsl, hsr, hla, har, _⟩ := sorted_node.mp hs
      rw [searchLoop, ptrOf, if_neg (Option.some_ne_none _)]
      simp only [read_eq ha, Cell.data_node, Option.bind_eq_bind, Option.bind_some]
      rcases lt_trichotomy d a.data with hlt | rfl | hlt
      · obtain ⟨q, hrun, hq⟩ := searchLoop_spec d hl hfl hsl
        rw [if_neg hlt.ne', if_pos hlt]
        exact ⟨q, hrun, hq.up ⟨.left, a, r⟩ hlt.ne fun hm => not_lt_of_ge (har d hm) hlt⟩
      · rw [if_pos rfl]
        exact ⟨some a.ptr, rfl, Or.inl ⟨[], a, l, r, rfl, rfl, rfl⟩⟩
      · obtain ⟨q, hrun, hq⟩ := searchLoop_spec d hr hfr hsr
        rw [if_neg hlt.ne, if_neg (not_lt_of_gt hlt)]
        exact ⟨q, hrun, hq.up ⟨.right, a, l⟩ hlt.ne' fun hm => not_lt_of_ge (hla d hm) hlt⟩

theorem Holds.search (h : Holds t T) (hs : Sorted T) (d : α) :
    ∃ q, search d t = some q ∧ Found d T q := by
  rw [BinaryTree.search, h.root]
  exact searchLoop_spec d h.tree (Nat.lt_succ_of_le h.place.length_le) hs

/-- `Delete`, on any tree whose values are sorted. The node that `Search` finds is taken out of
the order, nothing points to it any more, and it is freed; when there is none, nothing changes. -/
theorem delete_takes_out (h : Holds t T) (hs : Sorted T) (d : α) :
    ∃ t' T' q, BinaryTree.search d t = some q ∧ delete d t = some t' ∧ Holds t' T' ∧ Sorted T' ∧
      BinaryTree.inorderWalk t' = some (values T') ∧
      ((q = none ∧ d ∉ values T ∧ t' = t ∧ T' = T) ∨
        ∃ z xs ys, q = some z.ptr ∧ z.data = d ∧ inorder T = xs ++ z :: ys ∧
          inorder T' = xs ++ ys ∧ t'.heap.get z.ptr = none ∧ Unlinked t' T' z.ptr) := by
  obtain ⟨q, hsearch, hfound⟩ := h.search hs d
  rcases hfound with ⟨path, z, l, r, rfl, hz, rfl⟩ | ⟨rfl, hno⟩
  · obtain ⟨t1, S, hrun1, h1, horder, n, hn⟩ := deleteNode_spec (holds_fill.mp h)
    have hfull : inorder (fill path (.node z l r)) =
        (before path ++ inorder l) ++ z :: (inorder r ++ after path) := by
      simp [inorder_fill]
    have hrest : inorder (fill path S) =
        (before path ++ inorder l) ++ (inorder r ++ after path) := by
      simp [inorder_fill, horder]
    have hout : z.ptr ∉ ptrs (fill path S) := by
      have hnd := h.nodup
      rw [ptrs, hfull, List.map_append, List.map_cons] at hnd
      rw [ptrs, hrest, List.map_append]
      exact (List.nodup_cons.mp (List.perm_middle.nodup_iff.mp hnd)).1
    obtain ⟨t2, hrun2, h2, hfree⟩ := freeNode_spec (holds_fill.mpr h1) hout hn
    refine ⟨t2, fill path S, some z.ptr, hsearch, ?_, h2, ?_, h2.inorderWalk,
      Or.inr ⟨z, _, _, rfl, hz, hfull, hrest, hfree, h2.unlinked hout⟩⟩
    · simp only [delete, hsearch, Option.bind_eq_bind, Option.bind_some,
        if_neg (Option.some_ne_none z.ptr), hrun1]
      exact hrun2
    · rw [Sorted, values, hrest]
      rw [Sorted, values, hfull] at hs
      refine hs.sublist (List.Sublist.map _ ?_)
      exact (List.sublist_cons_self _ _).append_left _
  · refine ⟨t, T, none, hsearch, ?_, h, hs, h.inorderWalk, Or.inl ⟨rfl, hno, rfl, rfl⟩⟩
    simp only [delete, hsearch, Option.bind_eq_bind, Option.bind_some, if_pos, freeNode]

end Order

/-- A tree whose root has two children; the first node of its right subtree is further down. -/
def fourNodes : BinaryTree ℤ :=
  ⟨⟨[some ⟨2, some 1, some 2, none⟩, some ⟨1, none, none, some 0⟩, some ⟨4, some 3, none, some 0⟩,
    some ⟨3, none, none, some 2⟩]⟩, some 0⟩

theorem holds_fourNodes : Holds fourNodes (.node ⟨0, 2⟩ (.node ⟨1, 1⟩ .nil .nil)
    (.node ⟨2, 4⟩ (.node ⟨3, 3⟩ .nil .nil) .nil)) :=
  ⟨rfl, ⟨rfl, ⟨rfl, trivial, trivial⟩, rfl, ⟨rfl, trivial, trivial⟩, trivial⟩, by decide⟩

theorem delete_takes_out_root :
    ∃ t' T', delete 2 fourNodes = some t' ∧ inorderWalk t' = some [1, 3, 4] ∧ Holds t' T' ∧
      inorderWalk t' = some (values T') := by
  obtain ⟨t', T', _, _, hrun, h', _, hwalk, _⟩ :=
    delete_takes_out holds_fourNodes (by unfold Sorted; decide) 2
  have hlist : (delete 2 fourNodes).bind inorderWalk = some [1, 3, 4] := by decide
  rw [hrun] at hlist
  exact ⟨t', T', hrun, hlist, h', hwalk⟩

end LibC.BinaryTree
