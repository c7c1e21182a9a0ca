/-
LibC.BinaryTree.TreeTheorems — the tree that the nodes of a `BinaryTree` make up.

`Holds t T` says that the nodes of `t` make up the tree `T`: each one holds the
value that `T` has there, and points to its children and back to its parent.
`PathAt` says the same of the nodes on a path, so that a tree can be taken apart
at any place (`holds_fill`).

`Keeps ps t t'` says that an operation leaves the nodes alone that are not in
`ps`, which a subtree beside them does not notice. The assignments that insertion
and deletion are made of are specified here: a new subtree on one side of a node
(`setChild_spec`), another subtree in the place of a node (`transplant_spec`),
and a node that takes over a child of another one (`adopt_spec`).

No `sorry`, no `axiom`, no `native_decide`.
-/
import LibC.BinaryTree.BinaryTree
import Mathlib.Data.List.Nodup

namespace LibC.BinaryTree

open LibC.Lib LibC.Lib.BinTree

variable {α : Type}

/-! ## Nodes -/

/-- A node of the tree: where it is, and what it holds. -/
structure Cell (α : Type) where
  ptr : Ptr
  data : α

/-- The node of a cell, with its parent, and its children on side `d` and on the other. -/
def Cell.node (d : Side) (a : Cell α) (par q q' : Option Ptr) : Node α :=
  match d with
  | .left => ⟨a.data, q, q', par⟩
  | .right => ⟨a.data, q', q, par⟩

section Node

variable (d : Side) (a : Cell α) (par q q' : Option Ptr)

@[simp] theorem Cell.data_node : (a.node d par q q').data = a.data := by cases d <;> rfl

@[simp] theorem Cell.parent_node : (a.node d par q q').parent = par := by cases d <;> rfl

@[simp] theorem Cell.child_node : (a.node d par q q').child d = q := by cases d <;> rfl

@[simp] theorem Cell.setChild_node (r : Option Ptr) :
    (a.node d par q q').setChild d r = a.node d par r q' := by cases d <;> rfl

@[simp] theorem Cell.setParent_node (r : Option Ptr) :
    { a.node d par q q' with parent := r } = a.node d r q q' := by cases d <;> rfl

end Node

/-! ## Trees and paths in the heap -/

/-- The pointer to a tree. -/
def ptrOf : BinTree (Cell α) → Option Ptr
  | .nil => none
  | .node a _ _ => some a.ptr

/-- The pointer to the node a path ends in. -/
def parentOf : List (Crumb (Cell α)) → Option Ptr
  | [] => none
  | c :: _ => some c.elem.ptr

/-- The pointer to the root, when `q` is the pointer to what is at the end of the path. -/
def rootOf : List (Crumb (Cell α)) → Option Ptr → Option Ptr
  | [], q => q
  | c :: up, _ => rootOf up (some c.elem.ptr)

/-- What is in a tree. -/
def values (T : BinTree (Cell α)) : List α := (inorder T).map Cell.data

/-- Where the nodes of a tree are. -/
def ptrs (T : BinTree (Cell α)) : List Ptr := (inorder T).map Cell.ptr

/-- Where the nodes of a path are, and those of the subtrees beside it. -/
def pathPtrs (path : List (Crumb (Cell α))) : List Ptr :=
  (before path ++ after path).map Cell.ptr

/-- The nodes of a tree whose root has the parent `par`. -/
def TreeAt (g : Ptr → Option (Node α)) : Option Ptr → BinTree (Cell α) → Prop
  | _, .nil => True
  | par, .node a l r =>
      g a.ptr = some (a.node .left par (ptrOf l) (ptrOf r)) ∧
        TreeAt g (some a.ptr) l ∧ TreeAt g (some a.ptr) r

/-- The nodes of a path, with `q` at the end of it. -/
def PathAt (g : Ptr → Option (Node α)) : Option Ptr → List (Crumb (Cell α)) → Prop
  | _, [] => True
  | q, c :: up =>
      g c.elem.ptr = some (c.elem.node c.side (parentOf up) q (ptrOf c.sib)) ∧
        TreeAt g (some c.elem.ptr) c.sib ∧ PathAt g (some c.elem.ptr) up

section Shapes

variable {g g' : Ptr → Option (Node α)}

@[simp] theorem ptrOf_join (d : Side) (a : Cell α) (T U : BinTree (Cell α)) :
    ptrOf (join d a T U) = some a.ptr := by cases d <;> rfl

theorem ptrOf_eq_none_iff {T : BinTree (Cell α)} : ptrOf T = none ↔ T = .nil := by
  cases T <;> simp [ptrOf]

theorem perm_ptrs_join (d : Side) (a : Cell α) (T U : BinTree (Cell α)) :
    (ptrs (join d a T U)).Perm (a.ptr :: (ptrs T ++ ptrs U)) := by
  rw [ptrs, ptrs, ptrs, ← List.map_append, ← List.map_cons]
  exact (perm_inorder_join d a T U).map Cell.ptr

theorem perm_pathPtrs_cons (c : Crumb (Cell α)) (up : List (Crumb (Cell α))) :
    (pathPtrs (c :: up)).Perm (c.elem.ptr :: (ptrs c.sib ++ pathPtrs up)) := by
  rw [pathPtrs, pathPtrs, ptrs, ← List.map_append, ← List.map_cons]
  exact (perm_path_cons c up).map Cell.ptr

theorem mem_values_join {d : Side} {a : Cell α} {T U : BinTree (Cell α)} {x : α} :
    x ∈ values (join d a T U) ↔ x = a.data ∨ x ∈ values T ∨ x ∈ values U := by
  have hperm := (perm_inorder_join d a T U).map Cell.data
  rw [List.map_cons, List.map_append] at hperm
  exact hperm.mem_iff.trans (List.mem_cons.trans (or_congr Iff.rfl List.mem_append))

theorem mem_ptrs_join {d : Side} {a : Cell α} {T U : BinTree (Cell α)} {q : Ptr} :
    q ∈ ptrs (join d a T U) ↔ q = a.ptr ∨ q ∈ ptrs T ∨ q ∈ ptrs U := by
  rw [(perm_ptrs_join d a T U).mem_iff, List.mem_cons, List.mem_append]

theorem mem_pathPtrs_cons {c : Crumb (Cell α)} {up : List (Crumb (Cell α))} {q : Ptr} :
    q ∈ pathPtrs (c :: up) ↔ q = c.elem.ptr ∨ q ∈ ptrs c.sib ∨ q ∈ pathPtrs up := by
  rw [(perm_pathPtrs_cons c up).mem_iff, List.mem_cons, List.mem_append]

/-- The pointer to a tree is one of its nodes. -/
theorem mem_ptrs_of_ptrOf {T : BinTree (Cell α)} {q : Ptr} (h : ptrOf T = some q) : q ∈ ptrs T := by
  cases T with
  | nil => cases h
  | node a l r =>
      obtain rfl := Option.some.inj h
      simp [ptrs]

theorem treeAt_join (d : Side) (a : Cell α) (T U : BinTree (Cell α)) (par : Option Ptr) :
    TreeAt g par (join d a T U) ↔ g a.ptr = some (a.node d par (ptrOf T) (ptrOf U)) ∧
      TreeAt g (some a.ptr) T ∧ TreeAt g (some a.ptr) U := by
  cases d with
  | left => exact Iff.rfl
  | right => exact and_congr Iff.rfl And.comm

/-- A tree taken apart at a place. -/
theorem treeAt_fill : ∀ (path : List (Crumb (Cell α))) (T : BinTree (Cell α)),
    TreeAt g none (fill path T) ↔ PathAt g (ptrOf T) path ∧ TreeAt g (parentOf path) T
  | [], T => by simp [fill, PathAt, parentOf]
  | c :: up, T => by
      rw [fill, treeAt_fill up, treeAt_join, ptrOf_join, PathAt, parentOf]
      constructor
      · rintro ⟨hup, hc, hT, hsib⟩
        exact ⟨⟨hc, hsib, hup⟩, hT⟩
      · rintro ⟨⟨hc, hsib, hup⟩, hT⟩
        exact ⟨hup, hc, hT, hsib⟩

theorem ptrOf_fill : ∀ (path : List (Crumb (Cell α))) (T : BinTree (Cell α)),
    ptrOf (fill path T) = rootOf path (ptrOf T)
  | [], _ => rfl
  | c :: up, T => by rw [fill, ptrOf_fill up, ptrOf_join, rootOf]

theorem perm_ptrs_fill (path : List (Crumb (Cell α))) (T : BinTree (Cell α)) :
    (ptrs (fill path T)).Perm (pathPtrs path ++ ptrs T) := by
  rw [ptrs, ptrs, pathPtrs, inorder_fill, ← List.map_append, List.append_assoc]
  exact (List.perm_append_comm.append_left _).map _

/-- A tree depends on its own nodes only. -/
theorem TreeAt.congr : ∀ {T : BinTree (Cell α)} {par : Option Ptr}, TreeAt g par T →
    (∀ q ∈ ptrs T, g' q = g q) → TreeAt g' par T
  | .nil, _, _, _ => trivial
  | .node a l r, par, ⟨ha, hl, hr⟩, h => by
      have hmem : ∀ q, q = a.ptr ∨ q ∈ ptrs l ∨ q ∈ ptrs r → g' q = g q := fun q hq =>
        h q ((mem_ptrs_join : q ∈ ptrs (join .left a l r) ↔ _).mpr hq)
      exact ⟨(hmem _ (Or.inl rfl)).trans ha, hl.congr fun q hq => hmem q (Or.inr (Or.inl hq)),
        hr.congr fun q hq => hmem q (Or.inr (Or.inr hq))⟩

/-- A path depends on its own nodes only. -/
theorem PathAt.congr : ∀ {path : List (Crumb (Cell α))} {q : Option Ptr}, PathAt g q path →
    (∀ p ∈ pathPtrs path, g' p = g p) → PathAt g' q path
  | [], _, _, _ => trivial
  | c :: up, q, ⟨hc, hsib, hup⟩, h => by
      have hmem : ∀ p, p = c.elem.ptr ∨ p ∈ ptrs c.sib ∨ p ∈ pathPtrs up → g' p = g p := fun p hp =>
        h p (mem_pathPtrs_cons.mpr hp)
      exact ⟨(hmem _ (Or.inl rfl)).trans hc, hsib.congr fun p hp => hmem p (Or.inr (Or.inl hp)),
        hup.congr fun p hp => hmem p (Or.inr (Or.inr hp))⟩

/-- The node of a cell of the tree. -/
theorem TreeAt.get_of_mem : ∀ {T : BinTree (Cell α)} {par : Option Ptr} {a : Cell α},
    TreeAt g par T → a ∈ inorder T → ∃ n, g a.ptr = some n ∧ n.data = a.data
  | .node b l r, par, a, ⟨hb, hl, hr⟩, ha => by
      rw [inorder_node, List.mem_append, List.mem_cons] at ha
      rcases ha with ha | rfl | ha
      · exact hl.get_of_mem ha
      · exact ⟨_, hb, Cell.data_node ..⟩
      · exact hr.get_of_mem ha

theorem TreeAt.live {T : BinTree (Cell α)} {par : Option Ptr} (h : TreeAt g par T) {q : Ptr}
    (hq : q ∈ ptrs T) : ∃ n, g q = some n := by
  obtain ⟨a, ha, rfl⟩ := List.mem_map.mp hq
  obtain ⟨n, hn, _⟩ := h.get_of_mem ha
  exact ⟨n, hn⟩

end Shapes

/-! ## Assignments -/

variable {t t' t'' : BinaryTree α} {ps qs : List Ptr}

/-- An operation leaves the nodes alone that are not in `ps`. -/
structure Keeps (ps : List Ptr) (t t' : BinaryTree α) : Prop where
  size : t'.heap.size = t.heap.size
  get : ∀ q, q ∉ ps → t'.heap.get q = t.heap.get q

theorem Keeps.trans (h : Keeps ps t t') (h' : Keeps qs t' t'') : Keeps (ps ++ qs) t t'' where
  size := h'.size.trans h.size
  get q hq := by
    rw [List.mem_append, not_or] at hq
    exact (h'.get q hq.2).trans (h.get q hq.1)

theorem Keeps.mono (h : Keeps ps t t') (hsub : ps ⊆ qs) : Keeps qs t t' :=
  ⟨h.size, fun q hq => h.get q fun hm => hq (hsub hm)⟩

theorem Keeps.tree {T : BinTree (Cell α)} {par : Option Ptr} (h : Keeps ps t t')
    (hT : TreeAt t.heap.get par T) (hdis : ∀ q ∈ ptrs T, q ∉ ps) : TreeAt t'.heap.get par T :=
  hT.congr fun q hq => h.get q (hdis q hq)

theorem Keeps.path {path : List (Crumb (Cell α))} {p : Option Ptr} (h : Keeps ps t t')
    (hpath : PathAt t.heap.get p path) (hdis : ∀ q ∈ pathPtrs path, q ∉ ps) :
    PathAt t'.heap.get p path :=
  hpath.congr fun q hq => h.get q (hdis q hq)

/-- A change of one node outside a tree. -/
theorem Keeps.tree_of_notMem {T : BinTree (Cell α)} {par : Option Ptr} {p : Ptr}
    (h : Keeps [p] t t') (hT : TreeAt t.heap.get par T) (hp : p ∉ ptrs T) :
    TreeAt t'.heap.get par T :=
  h.tree hT fun _ hq hm => hp (List.mem_singleton.mp hm ▸ hq)

/-- A change of one node off a path. -/
theorem Keeps.path_of_notMem {path : List (Crumb (Cell α))} {q : Option Ptr} {p : Ptr}
    (h : Keeps [p] t t') (hpath : PathAt t.heap.get q path) (hp : p ∉ pathPtrs path) :
    PathAt t'.heap.get q path :=
  h.path hpath fun _ hq hm => hp (List.mem_singleton.mp hm ▸ hq)

theorem read_eq {β : Type} {q : Ptr} {n : Node α} (h : t.heap.get q = some n) (f : Node α → β) :
    t.read (some q) f = some (f n) := by
  rw [read, Option.bind_some, h, Option.map_some]

/-- An assignment changes one node. -/
theorem write_eq {q : Ptr} {n : Node α} (h : t.heap.get q = some n) (f : Node α → Node α) :
    ∃ t', t.write (some q) f = some t' ∧ t'.root = t.root ∧ t'.heap.get q = some (f n) ∧
      Keeps [q] t t' := by
  refine ⟨{ t with heap := t.heap.set q (f n) }, ?_, rfl, ?_, Heap.size_set .., fun r hr => ?_⟩
  · rw [write, Option.bind_some, Heap.modify?_eq h, Option.map_some]
  · exact (Heap.get_set (Heap.lt_size h) ..).trans (if_pos rfl)
  · exact (Heap.get_set (Heap.lt_size h) ..).trans (if_neg fun heq => hr (by simp [heq]))

/-- The root of a subtree gets another parent. -/
theorem setParent_spec {T : BinTree (Cell α)} {par : Option Ptr} (hT : TreeAt t.heap.get par T)
    (hne : T ≠ .nil) (hnd : (ptrs T).Nodup) (q : Option Ptr) :
    ∃ t', t.write (ptrOf T) (fun n => { n with parent := q }) = some t' ∧ t'.root = t.root ∧
      TreeAt t'.heap.get q T ∧ Keeps (ptrs T) t t' := by
  cases T with
  | nil => exact absurd rfl hne
  | node a l r =>
      obtain ⟨ha, hl, hr⟩ := hT
      obtain ⟨t', hrun, hroot, hget, hkeep⟩ := write_eq ha fun n => { n with parent := q }
      have hnd' := (perm_ptrs_join .left a l r).nodup_iff.mp hnd
      rw [List.nodup_cons, List.mem_append, not_or] at hnd'
      obtain ⟨⟨hal, har⟩, _⟩ := hnd'
      refine ⟨t', hrun, hroot, ⟨?_, hkeep.tree_of_notMem hl hal, hkeep.tree_of_notMem hr har⟩,
        hkeep.mono ?_⟩
      · rw [hget, Cell.setParent_node]
      · simp [ptrs]

/-! ## The tree of a `BinaryTree` -/

/-- The nodes of `t` make up the tree `T`. -/
structure Holds (t : BinaryTree α) (T : BinTree (Cell α)) : Prop where
  root : t.root = ptrOf T
  tree : TreeAt t.heap.get none T
  nodup : (ptrs T).Nodup

/-- A path from the root, to whatever `q` points to. -/
structure Above (t : BinaryTree α) (path : List (Crumb (Cell α))) (q : Option Ptr) : Prop where
  root : t.root = rootOf path q
  nodes : PathAt t.heap.get q path
  nodup : (pathPtrs path).Nodup

/-- A place in the tree: the path to it, and the subtree there, apart from each other. -/
structure Place (t : BinaryTree α) (path : List (Crumb (Cell α))) (T : BinTree (Cell α)) :
    Prop where
  above : Above t path (ptrOf T)
  tree : TreeAt t.heap.get (parentOf path) T
  nodup : (ptrs T).Nodup
  disjoint : ∀ q ∈ ptrs T, q ∉ pathPtrs path

variable {path : List (Crumb (Cell α))} {T S A B : BinTree (Cell α)} {d : Side} {a y : Cell α}
  {par : Option Ptr}

theorem holds_fill : Holds t (fill path T) ↔ Place t path T := by
  have hnodup : (ptrs (fill path T)).Nodup ↔ (pathPtrs path).Nodup ∧ (ptrs T).Nodup ∧
      ∀ q ∈ ptrs T, q ∉ pathPtrs path := by
    rw [(perm_ptrs_fill path T).nodup_iff, List.nodup_append]
    refine and_congr Iff.rfl (and_congr Iff.rfl ?_)
    constructor
    · intro h q hq hp
      exact h q hp q hq rfl
    · rintro h q hq r hr rfl
      exact h q hr hq
  constructor
  · rintro ⟨hroot, htree, hnd⟩
    rw [ptrOf_fill] at hroot
    obtain ⟨hpath, hT⟩ := (treeAt_fill path T).mp htree
    obtain ⟨h1, h2, h3⟩ := hnodup.mp hnd
    exact ⟨⟨hroot, hpath, h1⟩, hT, h2, h3⟩
  · rintro ⟨⟨hroot, hpath, h1⟩, hT, h2, h3⟩
    exact ⟨by rwa [ptrOf_fill], (treeAt_fill path T).mpr ⟨hpath, hT⟩, hnodup.mpr ⟨h1, h2, h3⟩⟩

theorem Holds.place (h : Holds t T) : Place t [] T := holds_fill.mp h

/-- A place one node up. -/
theorem place_up {c : Crumb (Cell α)} : Place t (c :: path) T ↔
    Place t path (join c.side c.elem T c.sib) := by
  rw [← holds_fill, ← holds_fill, fill]

/-- A place at the end of a longer path. -/
theorem place_append {down : List (Crumb (Cell α))} : Place t (down ++ path) T ↔
    Place t path (fill down T) := by
  rw [← holds_fill, ← holds_fill, fill_append]

/-- The node at a place. -/
theorem Place.get (h : Place t path (join d a A B)) :
    t.heap.get a.ptr = some (a.node d (parentOf path) (ptrOf A) (ptrOf B)) :=
  ((treeAt_join ..).mp h.tree).1

/-- There are at most as many nodes as the heap has been asked for. -/
theorem Place.length_le (h : Place t path T) : (inorder T).length ≤ t.heap.size := by
  have hle := Heap.length_le_size h.nodup fun q hq => h.tree.live hq
  rwa [ptrs, List.length_map] at hle

/-- A node at `p`, and the nodes `as` and `bs` below it, apart from each other and from `ps`. -/
structure Apart (ps : List Ptr) (p : Ptr) (as bs : List Ptr) : Prop where
  left : p ∉ as
  right : p ∉ bs
  out : p ∉ ps
  nodup_left : as.Nodup
  nodup_right : bs.Nodup
  left_right : ∀ q ∈ as, q ∉ bs
  left_out : ∀ q ∈ as, q ∉ ps
  right_out : ∀ q ∈ bs, q ∉ ps

/-- The nodes at a place are apart from each other. -/
theorem Place.apart (h : Place t path (join d a A B)) :
    Apart (pathPtrs path) a.ptr (ptrs A) (ptrs B) := by
  have hnd := (perm_ptrs_join d a A B).nodup_iff.mp h.nodup
  rw [List.nodup_cons, List.mem_append, List.nodup_append, not_or] at hnd
  obtain ⟨⟨haA, haB⟩, hA, hB, hAB⟩ := hnd
  have hdis : ∀ q, q = a.ptr ∨ q ∈ ptrs A ∨ q ∈ ptrs B → q ∉ pathPtrs path :=
    fun q hq => h.disjoint q (mem_ptrs_join.mpr hq)
  exact ⟨haA, haB, hdis _ (Or.inl rfl), hA, hB, fun q hq hm => hAB q hq q hm rfl,
    fun q hq => hdis q (Or.inr (Or.inl hq)), fun q hq => hdis q (Or.inr (Or.inr hq))⟩

/-- A place is what its parts are. -/
theorem place_join (hpath : Above t path (some a.ptr))
    (hjoin : TreeAt t.heap.get (parentOf path) (join d a A B))
    (h : Apart (pathPtrs path) a.ptr (ptrs A) (ptrs B)) : Place t path (join d a A B) := by
  have hnd : (a.ptr :: (ptrs A ++ ptrs B)).Nodup := by
    rw [List.nodup_cons, List.mem_append, not_or, List.nodup_append]
    refine ⟨⟨h.left, h.right⟩, h.nodup_left, h.nodup_right, ?_⟩
    rintro q hq r hr rfl
    exact h.left_right q hq hr
  refine ⟨by rwa [ptrOf_join], hjoin, (perm_ptrs_join d a A B).nodup_iff.mpr hnd, fun q hq => ?_⟩
  rcases mem_ptrs_join.mp hq with rfl | hq | hq
  · exact h.out
  · exact h.left_out q hq
  · exact h.right_out q hq

/-! ## Other subtrees -/

/-- The pointer at the end of a path changes. -/
theorem setEnd_spec {c : Crumb (Cell α)} {q : Option Ptr} (h : Above t (c :: path) q)
    (q' : Option Ptr) :
    ∃ t', t.write (some c.elem.ptr) (Node.setChild c.side q') = some t' ∧
      Above t' (c :: path) q' ∧ Keeps [c.elem.ptr] t t' := by
  obtain ⟨hc, hsib, hup⟩ := h.nodes
  obtain ⟨t', hrun, hroot, hget, hkeep⟩ := write_eq hc (Node.setChild c.side q')
  have hnd := (perm_pathPtrs_cons c path).nodup_iff.mp h.nodup
  rw [List.nodup_cons, List.mem_append, not_or] at hnd
  obtain ⟨⟨hout, hout'⟩, _⟩ := hnd
  refine ⟨t', hrun, ⟨hroot.trans h.root, ⟨?_, hkeep.tree_of_notMem hsib hout,
    hkeep.path_of_notMem hup hout'⟩, h.nodup⟩, hkeep⟩
  rw [hget, Cell.setChild_node]

/-- A node gets another subtree on side `d`. -/
theorem setChild_spec (h : Place t path (join d a A B)) (hS : TreeAt t.heap.get (some a.ptr) S)
    (hout : Apart (pathPtrs path) a.ptr (ptrs S) (ptrs B)) :
    ∃ t', t.write (some a.ptr) (Node.setChild d (ptrOf S)) = some t' ∧
      Place t' path (join d a S B) := by
  obtain ⟨t', hrun, hroot, hget, hkeep⟩ := write_eq h.get (Node.setChild d (ptrOf S))
  rw [Cell.setChild_node] at hget
  have habove := h.above
  rw [ptrOf_join] at habove
  obtain ⟨-, -, hB⟩ := (treeAt_join ..).mp h.tree
  have hpath : Above t' path (some a.ptr) :=
    ⟨hroot.trans habove.root, hkeep.path_of_notMem habove.nodes hout.out, habove.nodup⟩
  have hjoin : TreeAt t'.heap.get (parentOf path) (join d a S B) := (treeAt_join ..).mpr
    ⟨hget, hkeep.tree_of_notMem hS hout.left, hkeep.tree_of_notMem hB hout.right⟩
  exact ⟨t', hrun, place_join hpath hjoin hout⟩

/-- `u` is no longer the child of its parent. -/
theorem relink_spec {u : Ptr} {n : Node α} (h : Above t path (some u)) (hu : u ∉ pathPtrs path)
    (hn : t.heap.get u = some n) (hp : n.parent = parentOf path) (v : Option Ptr) :
    ∃ t', relink (some u) v t = some t' ∧ Above t' path v ∧ Keeps (pathPtrs path) t t' := by
  cases path with
  | nil =>
      refine ⟨{ t with root := v }, ?_, ⟨rfl, trivial, List.nodup_nil⟩, rfl, fun _ _ => rfl⟩
      simp [relink, read_eq hn, hp, parentOf]
  | cons c up =>
      obtain ⟨t', hrun, habove, hkeep⟩ := setEnd_spec h v
      have hmem : c.elem.ptr ∈ pathPtrs (c :: up) := mem_pathPtrs_cons.mpr (Or.inl rfl)
      refine ⟨t', ?_, habove, hkeep.mono (List.cons_subset.mpr ⟨hmem, List.nil_subset _⟩)⟩
      have hc : t.heap.get c.elem.ptr = _ := h.nodes.1
      simp only [relink, read_eq hn, hp, parentOf, Option.bind_eq_bind, Option.bind_some,
        if_neg (Option.some_ne_none c.elem.ptr)]
      rw [read_eq hc, Option.bind_some]
      -- on which side the parent has the node
      cases hside : c.side with
      | left =>
          rw [hside] at hrun
          rw [if_pos (show (Cell.node .left _ _ (some u) _).left = some u from rfl)]
          exact hrun
      | right =>
          rw [hside] at hrun
          have hsib : ptrOf c.sib ≠ some u := fun heq =>
            hu (mem_pathPtrs_cons.mpr (Or.inr (Or.inl (mem_ptrs_of_ptrOf heq))))
          rw [if_neg (show (Cell.node .right _ _ (some u) (ptrOf c.sib)).left ≠ some u from hsib)]
          exact hrun

/-- A subtree takes the place of a node. -/
theorem transplant_spec {u : Ptr} {n : Node α} (h : Above t path (some u)) (hu : u ∉ pathPtrs path)
    (hn : t.heap.get u = some n) (hp : n.parent = parentOf path) (hS : TreeAt t.heap.get par S)
    (hnd : (ptrs S).Nodup) (hdis : ∀ q ∈ ptrs S, q ∉ pathPtrs path) :
    ∃ t', transplant (some u) (ptrOf S) t = some t' ∧ Place t' path S ∧
      Keeps (pathPtrs path ++ ptrs S) t t' := by
  obtain ⟨t1, hrun1, habove1, hkeep1⟩ := relink_spec h hu hn hp (ptrOf S)
  by_cases hne : S = .nil
  · subst hne
    refine ⟨t1, ?_, ⟨habove1, trivial, hnd, hdis⟩, hkeep1.mono (List.subset_append_left _ _)⟩
    rw [transplant, hrun1]
    rfl
  · have hn1 := (hkeep1.get u hu).trans hn
    obtain ⟨t2, hrun2, hroot2, hS2, hkeep2⟩ :=
      setParent_spec (hkeep1.tree hS hdis) hne hnd (parentOf path)
    have hnone : ¬ ptrOf S = none := fun heq => hne (ptrOf_eq_none_iff.mp heq)
    refine ⟨t2, ?_, ⟨⟨hroot2.trans habove1.root, ?_, habove1.nodup⟩, hS2, hnd, hdis⟩,
      hkeep1.trans hkeep2⟩
    · simp only [transplant, hrun1, Option.bind_eq_bind, Option.bind_some, if_neg hnone,
        read_eq hn1, hp]
      exact hrun2
    · exact hkeep2.path habove1.nodes fun q hq hmem => hdis q hmem hq

/-- `y` takes over a child of `z`. -/
theorem adopt_spec {z : Ptr} {n : Node α} {q par' : Option Ptr}
    (hy : t.heap.get y.ptr = some (y.node d par q (ptrOf B)))
    (hB : TreeAt t.heap.get (some y.ptr) B) (hz : t.heap.get z = some n) (hc : n.child d = ptrOf S)
    (hS : TreeAt t.heap.get par' S) (hne : S ≠ .nil) (hout : Apart ps y.ptr (ptrs S) (ptrs B)) :
    ∃ t', adopt d (some y.ptr) (some z) t = some t' ∧ t'.root = t.root ∧
      TreeAt t'.heap.get par (join d y S B) ∧ Keeps (y.ptr :: ptrs S) t t' := by
  obtain ⟨t1, hrun1, hroot1, hget1, hkeep1⟩ := write_eq hy (Node.setChild d (ptrOf S))
  rw [Cell.setChild_node] at hget1
  obtain ⟨t2, hrun2, hroot2, hS2, hkeep2⟩ :=
    setParent_spec (hkeep1.tree_of_notMem hS hout.left) hne hout.nodup_left (some y.ptr)
  refine ⟨t2, ?_, hroot2.trans hroot1, (treeAt_join ..).mpr ⟨?_, hS2, ?_⟩, hkeep1.trans hkeep2⟩
  · simp only [adopt, read_eq hz, hc, Option.bind_eq_bind, Option.bind_some, hrun1, read_eq hget1,
      Cell.child_node]
    exact hrun2
  · exact (hkeep2.get _ hout.left).trans hget1
  · refine hkeep2.tree (hkeep1.tree_of_notMem hB hout.right) ?_
    exact fun p hp hmem => hout.left_right p hmem hp

end LibC.BinaryTree
