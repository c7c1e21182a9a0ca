/-
LibC.RbTree.TreeTheorems — the tree that the nodes of an `rb_tree` make up.

`Holds nil t T` says that the nodes of `t` make up the tree `T`: each one holds
the colour, the key and the value that `T` has there, and points to its children
and back to its parent; `nil` is the sentinel. `PathAt` says the same of the
nodes on a path, so that a tree can be taken apart at any place
(`treeAt_fill`).

An assignment changes one node, and so the nodes around it, which are others,
stay as they are. The operations that the insertion is made of are specified
here: a change of colour (`setColor_spec`), a rotation (`rotate_spec`), and a new
node in the place of a leaf (`attach_spec`).

No `sorry`, no `axiom`, no `native_decide`.
-/
import LibC.RbTree.RbTree
import Mathlib.Data.List.Nodup
import Mathlib.Data.List.Perm.Basic
import Mathlib.Logic.Function.Basic

namespace LibC

open LibC.Lib LibC.Lib.RBT

variable {κ ν : Type}

/-! ## Nodes -/

/-- A node of the tree: where it is, and what it holds. -/
structure Cell (κ ν : Type) where
  ptr : Ptr
  key : κ
  val : ν

/-- The node of a cell, with its colour, its parent, and its children on side `d` and on the
other. -/
def Cell.node (d : Side) (c : Color) (a : Cell κ ν) (par q q' : Ptr) : RBNode κ ν :=
  match d with
  | .left => ⟨a.key, a.val, c, some par, some q, some q'⟩
  | .right => ⟨a.key, a.val, c, some par, some q', some q⟩

section Node

variable (d : Side) (c : Color) (a : Cell κ ν) (par q q' : Ptr)

@[simp] theorem Cell.key_node : (a.node d c par q q').key = a.key := by cases d <;> rfl

@[simp] theorem Cell.val_node : (a.node d c par q q').val = a.val := by cases d <;> rfl

@[simp] theorem Cell.color_node : (a.node d c par q q').color = c := by cases d <;> rfl

@[simp] theorem Cell.p_node : (a.node d c par q q').p = some par := by cases d <;> rfl

@[simp] theorem Cell.child_node : (a.node d c par q q').child d = some q := by cases d <;> rfl

@[simp] theorem Cell.child_opp_node : (a.node d c par q q').child d.opp = some q' := by
  cases d <;> rfl

@[simp] theorem Cell.setChild_node (r : Ptr) :
    (a.node d c par q q').setChild d (some r) = a.node d c par r q' := by cases d <;> rfl

@[simp] theorem Cell.setChild_opp_node (r : Ptr) :
    (a.node d c par q q').setChild d.opp (some r) = a.node d c par q r := by cases d <;> rfl

@[simp] theorem Cell.setP_node (r : Ptr) :
    { a.node d c par q q' with p := some r } = a.node d c r q q' := by cases d <;> rfl

@[simp] theorem Cell.setColor_node (c' : Color) :
    { a.node d c par q q' with color := c' } = a.node d c' par q q' := by cases d <;> rfl

end Node

/-! ## Trees and paths in the heap -/

/-- The pointer to a tree. -/
def ptrOf (nil : Ptr) : RBT (Cell κ ν) → Ptr
  | .leaf => nil
  | .node _ _ a _ => a.ptr

/-- The pointer to the node a path ends in. -/
def parentOf (nil : Ptr) : List (Frame (Cell κ ν)) → Ptr
  | [] => nil
  | f :: _ => f.elem.ptr

/-- The pointer to the root, when `q` is the pointer to what is at the end of the path. -/
def rootOf : List (Frame (Cell κ ν)) → Ptr → Ptr
  | [], q => q
  | f :: up, _ => rootOf up f.elem.ptr

/-- Where the nodes of a tree are. -/
def ptrs : RBT (Cell κ ν) → List Ptr
  | .leaf => []
  | .node _ l a r => a.ptr :: (ptrs l ++ ptrs r)

/-- Where the nodes of a path are, and those of the subtrees beside it. -/
def pathPtrs : List (Frame (Cell κ ν)) → List Ptr
  | [] => []
  | f :: up => f.elem.ptr :: (ptrs f.sib ++ pathPtrs up)

/-- The nodes of a tree whose root has the parent `par`. -/
def TreeAt (g : Ptr → Option (RBNode κ ν)) (nil : Ptr) : Ptr → RBT (Cell κ ν) → Prop
  | _, .leaf => True
  | par, .node c l a r =>
      g a.ptr = some (a.node .left c par (ptrOf nil l) (ptrOf nil r)) ∧
        TreeAt g nil a.ptr l ∧ TreeAt g nil a.ptr r

/-- The nodes of a path, with `q` at the end of it. -/
def PathAt (g : Ptr → Option (RBNode κ ν)) (nil : Ptr) : Ptr → List (Frame (Cell κ ν)) → Prop
  | _, [] => True
  | q, f :: up =>
      g f.elem.ptr = some (f.elem.node f.side f.color (parentOf nil up) q (ptrOf nil f.sib)) ∧
        TreeAt g nil f.elem.ptr f.sib ∧ PathAt g nil f.elem.ptr up

section Shapes

variable {g g' : Ptr → Option (RBNode κ ν)} {nil : Ptr}

@[simp] theorem ptrOf_join (d : Side) (c : Color) (t : RBT (Cell κ ν)) (a : Cell κ ν)
    (u : RBT (Cell κ ν)) : ptrOf nil (join d c t a u) = a.ptr := by cases d <;> rfl

theorem treeAt_join (d : Side) (c : Color) (t : RBT (Cell κ ν)) (a : Cell κ ν)
    (u : RBT (Cell κ ν)) (par : Ptr) :
    TreeAt g nil par (join d c t a u) ↔
      g a.ptr = some (a.node d c par (ptrOf nil t) (ptrOf nil u)) ∧
        TreeAt g nil a.ptr t ∧ TreeAt g nil a.ptr u := by
  cases d with
  | left => exact Iff.rfl
  | right => exact and_congr Iff.rfl And.comm

theorem perm_ptrs_join (d : Side) (c : Color) (t : RBT (Cell κ ν)) (a : Cell κ ν)
    (u : RBT (Cell κ ν)) : (ptrs (join d c t a u)).Perm (a.ptr :: (ptrs t ++ ptrs u)) := by
  cases d with
  | left => exact List.Perm.refl _
  | right => exact List.Perm.cons _ List.perm_append_comm

theorem mem_ptrs_join {d : Side} {c : Color} {t u : RBT (Cell κ ν)} {a : Cell κ ν} {q : Ptr} :
    q ∈ ptrs (join d c t a u) ↔ q = a.ptr ∨ q ∈ ptrs t ∨ q ∈ ptrs u := by
  rw [(perm_ptrs_join d c t a u).mem_iff, List.mem_cons, List.mem_append]

/-- A rotation keeps the nodes. -/
theorem perm_ptrs_rotate (d : Side) (cx cy cx' cy' : Color) (A : RBT (Cell κ ν)) (x : Cell κ ν)
    (B : RBT (Cell κ ν)) (y : Cell κ ν) (C : RBT (Cell κ ν)) :
    (ptrs (join d cy' (join d cx' A x B) y C)).Perm (ptrs (join d cx A x (join d cy B y C))) := by
  have h1 := (perm_ptrs_join d cy' (join d cx' A x B) y C).trans
    (((perm_ptrs_join d cx' A x B).append_right (ptrs C)).cons y.ptr)
  have h2 := (perm_ptrs_join d cx A x (join d cy B y C)).trans
    (((perm_ptrs_join d cy B y C).append_left (ptrs A)).cons x.ptr)
  refine h1.trans (List.Perm.trans ?_ h2.symm)
  rw [List.cons_append, List.append_assoc]
  exact (List.Perm.swap ..).trans (List.perm_middle.symm.cons x.ptr)

theorem mem_pathPtrs_cons {f : Frame (Cell κ ν)} {up : List (Frame (Cell κ ν))} {q : Ptr} :
    q ∈ pathPtrs (f :: up) ↔ q = f.elem.ptr ∨ q ∈ ptrs f.sib ∨ q ∈ pathPtrs up := by
  rw [pathPtrs, List.mem_cons, List.mem_append]

theorem ptrOf_mem (nil : Ptr) (t : RBT (Cell κ ν)) : t = .leaf ∨ ptrOf nil t ∈ ptrs t := by
  cases t with
  | leaf => exact Or.inl rfl
  | node c l a r => exact Or.inr List.mem_cons_self

/-- A tree taken apart at a place. -/
theorem treeAt_fill : ∀ (path : List (Frame (Cell κ ν))) (t : RBT (Cell κ ν)),
    TreeAt g nil nil (fill path t) ↔
      PathAt g nil (ptrOf nil t) path ∧ TreeAt g nil (parentOf nil path) t
  | [], t => by simp [fill, PathAt, parentOf]
  | f :: up, t => by
      rw [fill, treeAt_fill up, treeAt_join, ptrOf_join, PathAt, parentOf]
      constructor
      · rintro ⟨hup, hf, ht, hsib⟩
        exact ⟨⟨hf, hsib, hup⟩, ht⟩
      · rintro ⟨⟨hf, hsib, hup⟩, ht⟩
        exact ⟨hup, hf, ht, hsib⟩

theorem ptrOf_fill : ∀ (path : List (Frame (Cell κ ν))) (t : RBT (Cell κ ν)),
    ptrOf nil (fill path t) = rootOf path (ptrOf nil t)
  | [], _ => rfl
  | f :: up, t => by rw [fill, ptrOf_fill up, ptrOf_join, rootOf]

theorem perm_ptrs_fill : ∀ (path : List (Frame (Cell κ ν))) (t : RBT (Cell κ ν)),
    (ptrs (fill path t)).Perm (pathPtrs path ++ ptrs t)
  | [], _ => List.Perm.refl _
  | f :: up, t => by
      have h := (perm_ptrs_fill up _).trans
        ((perm_ptrs_join f.side f.color t f.elem f.sib).append_left (pathPtrs up))
      refine h.trans (List.perm_middle.trans ?_)
      rw [pathPtrs, List.cons_append]
      rw [← List.append_assoc, List.append_assoc (ptrs f.sib)]
      exact List.perm_append_comm.cons _

/-- A tree depends on its own nodes only. -/
theorem TreeAt.congr : ∀ {t : RBT (Cell κ ν)} {par : Ptr}, TreeAt g nil par t →
    (∀ q ∈ ptrs t, g' q = g q) → TreeAt g' nil par t
  | .leaf, _, _, _ => trivial
  | .node c l a r, par, ⟨ha, hl, hr⟩, h => by
      refine ⟨(h _ List.mem_cons_self).trans ha, hl.congr fun q hq => h q ?_,
        hr.congr fun q hq => h q ?_⟩
      · exact List.mem_cons_of_mem _ (List.mem_append_left _ hq)
      · exact List.mem_cons_of_mem _ (List.mem_append_right _ hq)

/-- A path depends on its own nodes only. -/
theorem PathAt.congr : ∀ {path : List (Frame (Cell κ ν))} {q : Ptr}, PathAt g nil q path →
    (∀ p ∈ pathPtrs path, g' p = g p) → PathAt g' nil q path
  | [], _, _, _ => trivial
  | f :: up, q, ⟨hf, hsib, hup⟩, h => by
      refine ⟨(h _ List.mem_cons_self).trans hf, hsib.congr fun p hp => h p ?_,
        hup.congr fun p hp => h p ?_⟩
      · exact List.mem_cons_of_mem _ (List.mem_append_left _ hp)
      · exact List.mem_cons_of_mem _ (List.mem_append_right _ hp)

/-- A change of a node outside a tree. -/
theorem TreeAt.of_ne {t : RBT (Cell κ ν)} {par q : Ptr} (h : TreeAt g nil par t)
    (hother : ∀ r, r ≠ q → g' r = g r) (hq : q ∉ ptrs t) : TreeAt g' nil par t :=
  h.congr fun r hr => hother r fun heq => hq (heq ▸ hr)

/-- A change of a node off a path. -/
theorem PathAt.of_ne {path : List (Frame (Cell κ ν))} {p q : Ptr} (h : PathAt g nil p path)
    (hother : ∀ r, r ≠ q → g' r = g r) (hq : q ∉ pathPtrs path) : PathAt g' nil p path :=
  h.congr fun r hr => hother r fun heq => hq (heq ▸ hr)

/-- Every node of a tree is live, and has a parent. -/
theorem TreeAt.live : ∀ {t : RBT (Cell κ ν)} {par : Ptr}, TreeAt g nil par t → ∀ q ∈ ptrs t,
    ∃ n, g q = some n ∧ n.p ≠ none
  | .node c l a r, par, ⟨ha, hl, hr⟩, q, hq => by
      rcases List.mem_cons.mp hq with rfl | hq
      · exact ⟨_, ha, by simp⟩
      · rcases List.mem_append.mp hq with hq | hq
        · exact hl.live q hq
        · exact hr.live q hq

end Shapes

namespace RbTree

/-! ## Fields -/

variable {nil : Ptr} {t t' : RbTree κ ν}

/-- What an assignment to a field of a node leaves alone. -/
structure Keeps (t t' : RbTree κ ν) : Prop where
  nil : t'.nil = t.nil
  size : t'.size = t.size
  high : t'.high = t.high
  heap : t'.heap.size = t.heap.size

theorem Keeps.refl (t : RbTree κ ν) : Keeps t t := ⟨rfl, rfl, rfl, rfl⟩

theorem Keeps.trans {u : RbTree κ ν} (h : Keeps t t') (h' : Keeps t' u) : Keeps t u :=
  ⟨h'.nil.trans h.nil, h'.size.trans h.size, h'.high.trans h.high, h'.heap.trans h.heap⟩

theorem read_eq {β : Type} {q : Ptr} {n : RBNode κ ν} (h : t.heap.get q = some n)
    (f : RBNode κ ν → β) : t.read (some q) f = some (f n) := by
  rw [read, Option.bind_some, h, Option.map_some]

/-- An assignment changes one node. -/
theorem write_eq {q : Ptr} {n : RBNode κ ν} (h : t.heap.get q = some n)
    (f : RBNode κ ν → RBNode κ ν) :
    ∃ t', t.write (some q) f = some t' ∧ Keeps t t' ∧ t'.root = t.root ∧
      t'.heap.get q = some (f n) ∧ ∀ r, r ≠ q → t'.heap.get r = t.heap.get r := by
  refine ⟨{ t with heap := t.heap.set q (f n) }, ?_, ⟨rfl, rfl, rfl, Heap.size_set ..⟩, rfl, ?_, ?_⟩
  · rw [write, Option.bind_some, Heap.modify?_eq h, Option.map_some]
  · exact (Heap.get_set (Heap.lt_size h) ..).trans (if_pos rfl)
  · intro r hr
    exact (Heap.get_set (Heap.lt_size h) ..).trans (if_neg hr)

/-! ## The tree of an `rb_tree` -/

/-- The nodes of `t` make up the tree `T`, with the sentinel `nil`, which is black. -/
structure Holds (nil : Ptr) (t : RbTree κ ν) (T : RBT (Cell κ ν)) : Prop where
  nil_eq : t.nil = some nil
  root : t.root = some (ptrOf nil T)
  tree : TreeAt t.heap.get nil nil T
  nodup : (ptrs T).Nodup
  sentinel : ∃ n, t.heap.get nil = some n ∧ n.color = .black ∧ n.p = none

/-- A place in the tree: the path to it, and the subtree there, apart from each other. -/
structure Place (nil : Ptr) (t : RbTree κ ν) (path : List (Frame (Cell κ ν)))
    (T : RBT (Cell κ ν)) : Prop where
  nil_eq : t.nil = some nil
  root : t.root = some (rootOf path (ptrOf nil T))
  above : PathAt t.heap.get nil (ptrOf nil T) path
  tree : TreeAt t.heap.get nil (parentOf nil path) T
  nodup : (pathPtrs path).Nodup
  nodup_tree : (ptrs T).Nodup
  disjoint : ∀ q ∈ ptrs T, q ∉ pathPtrs path
  sentinel : ∃ n, t.heap.get nil = some n ∧ n.color = .black ∧ n.p = none

variable {path : List (Frame (Cell κ ν))} {T : RBT (Cell κ ν)}

theorem holds_fill : Holds nil t (fill path T) ↔ Place nil t path T := by
  have hnodup : (ptrs (fill path T)).Nodup ↔ (pathPtrs path).Nodup ∧ (ptrs T).Nodup ∧
      ∀ q ∈ ptrs T, q ∉ pathPtrs path := by
    rw [(perm_ptrs_fill path T).nodup_iff, List.nodup_append]
    refine and_congr Iff.rfl (and_congr Iff.rfl ?_)
    constructor
    · intro h q hq hp
      exact h q hp q hq rfl
    · rintro h q hq r hr rfl
      exact h q hr hq
  constructor
  · rintro ⟨hnil, hroot, htree, hnd, hs⟩
    rw [ptrOf_fill] at hroot
    obtain ⟨hpath, ht⟩ := (treeAt_fill path T).mp htree
    obtain ⟨h1, h2, h3⟩ := hnodup.mp hnd
    exact ⟨hnil, hroot, hpath, ht, h1, h2, h3, hs⟩
  · rintro ⟨hnil, hroot, hpath, ht, h1, h2, h3, hs⟩
    exact ⟨hnil, by rwa [ptrOf_fill], (treeAt_fill path T).mpr ⟨hpath, ht⟩, hnodup.mpr ⟨h1, h2, h3⟩,
      hs⟩

/-- The sentinel is no node of the tree. -/
theorem Place.nil_not_mem (h : Place nil t path T) : nil ∉ ptrs T := by
  intro hmem
  obtain ⟨n, hn, _, hp⟩ := h.sentinel
  obtain ⟨n', hn', hp'⟩ := h.tree.live nil hmem
  obtain rfl := Option.some.inj (hn.symm.trans hn')
  exact hp' hp

/-- The whole tree. -/
theorem Place.whole (h : Place nil t path T) : Place nil t [] (fill path T) := by
  have hholds : Holds nil t (fill path T) := holds_fill.mpr h
  have hroot : Holds nil t (fill [] (fill path T)) := hholds
  exact holds_fill.mp hroot

/-- Nor is it one of the path. -/
theorem Place.nil_not_mem_path (h : Place nil t path T) : nil ∉ pathPtrs path := by
  have h0 := h.whole
  intro hmem
  exact h0.nil_not_mem ((perm_ptrs_fill path T).mem_iff.mpr (List.mem_append_left _ hmem))

variable {d : Side} {c : Color} {A B C : RBT (Cell κ ν)} {a x y : Cell κ ν}

/-- The node at a place. -/
theorem Place.get (h : Place nil t path (join d c A a B)) :
    t.heap.get a.ptr = some (a.node d c (parentOf nil path) (ptrOf nil A) (ptrOf nil B)) :=
  ((treeAt_join ..).mp h.tree).1

/-- A place one node up. -/
theorem place_up {f : Frame (Cell κ ν)} : Place nil t (f :: path) T ↔
    Place nil t path (join f.side f.color T f.elem f.sib) := by
  rw [← holds_fill, ← holds_fill, fill]

/-- The nodes at a place are apart from each other. -/
theorem Place.apart (h : Place nil t path (join d c A a B)) :
    (a.ptr ∉ ptrs A ∧ a.ptr ∉ ptrs B ∧ a.ptr ∉ pathPtrs path) ∧ (ptrs A).Nodup ∧ (ptrs B).Nodup ∧
      ∀ q ∈ ptrs A, q ∉ ptrs B ∧ q ∉ pathPtrs path := by
  have hperm := perm_ptrs_join d c A a B
  have hnd := hperm.nodup_iff.mp h.nodup_tree
  rw [List.nodup_cons, List.mem_append, List.nodup_append] at hnd
  obtain ⟨hna, hA, hB, hAB⟩ := hnd
  have hdis : ∀ q, q ∈ a.ptr :: (ptrs A ++ ptrs B) → q ∉ pathPtrs path :=
    fun q hq => h.disjoint q (hperm.mem_iff.mpr hq)
  refine ⟨⟨fun hm => hna (Or.inl hm), fun hm => hna (Or.inr hm), hdis _ List.mem_cons_self⟩, hA, hB,
    fun q hq => ⟨fun hm => hAB q hq q hm rfl, ?_⟩⟩
  exact hdis q (List.mem_cons_of_mem _ (List.mem_append_left _ hq))

/-- A change of colour. -/
theorem setColor_spec (h : Place nil t path (join d c A a B)) (c' : Color) :
    ∃ t', t.write (some a.ptr) (fun n => { n with color := c' }) = some t' ∧ Keeps t t' ∧
      Place nil t' path (join d c' A a B) := by
  obtain ⟨t', hrun, hkeep, hroot, hget, hother⟩ :=
    write_eq h.get fun n => { n with color := c' }
  obtain ⟨-, hA, hB⟩ := (treeAt_join ..).mp h.tree
  obtain ⟨⟨haA, haB, hap⟩, _⟩ := h.apart
  have hnil : nil ≠ a.ptr := by
    rintro rfl
    exact h.nil_not_mem ((perm_ptrs_join ..).mem_iff.mpr List.mem_cons_self)
  have hperm : (ptrs (join d c' A a B)).Perm (ptrs (join d c A a B)) :=
    (perm_ptrs_join ..).trans (perm_ptrs_join ..).symm
  refine ⟨t', hrun, hkeep, hkeep.nil.trans h.nil_eq, ?_, ?_, ?_, h.nodup,
    hperm.nodup_iff.mpr h.nodup_tree, fun q hq => h.disjoint q (hperm.mem_iff.mp hq), ?_⟩
  · rw [hroot, h.root, ptrOf_join, ptrOf_join]
  · rw [ptrOf_join]
    have hpath := h.above
    rw [ptrOf_join] at hpath
    exact hpath.of_ne hother hap
  · refine (treeAt_join ..).mpr ⟨?_, hA.of_ne hother haA, hB.of_ne hother haB⟩
    rw [hget, Cell.setColor_node]
  · rw [hother nil hnil]
    exact h.sentinel

/-! ## Rotations -/

/-- The parent of the root of a subtree changes. -/
theorem reparent_spec {par : Ptr} (hnil : t.nil = some nil) (hT : TreeAt t.heap.get nil par T)
    (hnd : (ptrs T).Nodup) (hno : nil ∉ ptrs T) (q : Ptr) :
    ∃ t', reparent (some (ptrOf nil T)) (some q) t = some t' ∧ Keeps t t' ∧ t'.root = t.root ∧
      TreeAt t'.heap.get nil q T ∧ ∀ r, r ∉ ptrs T → t'.heap.get r = t.heap.get r := by
  cases T with
  | leaf =>
      refine ⟨t, ?_, .refl t, rfl, trivial, fun _ _ => rfl⟩
      rw [reparent, hnil, ptrOf, if_pos rfl]
  | node c l a r =>
      obtain ⟨ha, hl, hr⟩ := hT
      obtain ⟨t', hrun, hkeep, hroot, hget, hother⟩ :=
        write_eq ha fun n => { n with p := some q }
      rw [ptrs, List.nodup_cons, List.mem_append] at hnd
      have hleft := hl.of_ne hother fun hm => hnd.1 (Or.inl hm)
      have hright := hr.of_ne hother fun hm => hnd.1 (Or.inr hm)
      refine ⟨t', ?_, hkeep, hroot, ⟨?_, hleft, hright⟩, ?_⟩
      · rw [reparent, hnil, ptrOf, if_neg, hrun]
        intro heq
        exact hno (Option.some.inj heq ▸ List.mem_cons_self)
      · rw [hget, Cell.setP_node]
      · exact fun p hp => hother p fun heq => hp (heq ▸ List.mem_cons_self)

/-- The pointer at the end of a path changes. -/
theorem setEnd_spec {f : Frame (Cell κ ν)} {q : Ptr} (hpath : PathAt t.heap.get nil q (f :: path))
    (hnd : (pathPtrs (f :: path)).Nodup) (q' : Ptr) :
    ∃ t', t.write (some f.elem.ptr) (RBNode.setChild f.side (some q')) = some t' ∧ Keeps t t' ∧
      t'.root = t.root ∧ PathAt t'.heap.get nil q' (f :: path) ∧
      ∀ r, r ∉ pathPtrs (f :: path) → t'.heap.get r = t.heap.get r := by
  obtain ⟨hf, hsib, hup⟩ := hpath
  obtain ⟨t', hrun, hkeep, hroot, hget, hother⟩ := write_eq hf (RBNode.setChild f.side (some q'))
  rw [pathPtrs, List.nodup_cons, List.mem_append] at hnd
  have hbeside := hsib.of_ne hother fun hm => hnd.1 (Or.inl hm)
  have habove := hup.of_ne hother fun hm => hnd.1 (Or.inr hm)
  refine ⟨t', hrun, hkeep, hroot, ⟨?_, hbeside, habove⟩, ?_⟩
  · rw [hget, Cell.setChild_node]
  · exact fun p hp => hother p fun heq => hp (heq ▸ List.mem_cons_self)

/-- `relink`. -/
theorem relink_spec {q : Ptr} {n : RBNode κ ν} (hnil : t.nil = some nil)
    (hroot : t.root = some (rootOf path q)) (hpath : PathAt t.heap.get nil q path)
    (hnd : (pathPtrs path).Nodup) (hno : nil ∉ pathPtrs path) (hq : q ∉ pathPtrs path)
    (hne : q ≠ nil) (hn : t.heap.get q = some n) (hp : n.p = some (parentOf nil path)) (q' : Ptr) :
    ∃ t', relink (some q) (some q') t = some t' ∧ Keeps t t' ∧ t'.root = some (rootOf path q') ∧
      PathAt t'.heap.get nil q' path ∧
      ∀ r, r ∉ pathPtrs path → t'.heap.get r = t.heap.get r := by
  cases path with
  | nil =>
      refine ⟨{ t with root := some q' }, ?_, ⟨rfl, rfl, rfl, rfl⟩, rfl, trivial, fun _ _ => rfl⟩
      simp [relink, read_eq hn, hp, parentOf, hnil]
  | cons f up =>
      have hpar : ¬ (some (parentOf nil (f :: up)) : Option Ptr) = t.nil := by
        rw [hnil]
        intro heq
        exact hno (Option.some.inj heq ▸ List.mem_cons_self)
      obtain ⟨t', hrun, hkeep, hroot', hpath', hother⟩ := setEnd_spec hpath hnd q'
      refine ⟨t', ?_, hkeep, by rw [hroot', hroot]; rfl, hpath', hother⟩
      have hf : t.heap.get f.elem.ptr = _ := hpath.1
      simp only [relink, read_eq hn, hp, Option.bind_eq_bind, Option.bind_some, if_neg hpar]
      rw [parentOf, read_eq hf, Option.bind_some]
      -- on which side the parent has the node
      cases hside : f.side with
      | left =>
          rw [hside] at hrun
          exact (if_pos rfl).trans hrun
      | right =>
          rw [hside] at hrun
          have hsib : ptrOf nil f.sib ≠ q := by
            rintro rfl
            rcases ptrOf_mem nil f.sib with hleaf | hmem
            · rw [hleaf] at hne
              exact hne rfl
            · exact hq (List.mem_cons_of_mem _ (List.mem_append_left _ hmem))
          exact (if_neg fun heq => hsib (Option.some.inj heq).symm).trans hrun

/-- A rotation. -/
theorem rotate_spec {cx cy : Color} (h : Place nil t path (join d cx A x (join d cy B y C))) :
    ∃ t', rotate d (some x.ptr) t = some t' ∧ Keeps t t' ∧
      Place nil t' path (join d cy (join d cx A x B) y C) := by
  -- the nodes are apart from each other
  obtain ⟨⟨hxA, hxY, hxp⟩, _, _, hAY⟩ := h.apart
  have hyp : Place nil t (⟨d.opp, cx, x, A⟩ :: path) (join d cy B y C) := by
    rw [place_up, join_opp]
    exact h
  obtain ⟨⟨hyB, hyC, hyp'⟩, hB, _, hBC⟩ := hyp.apart
  simp only [mem_ptrs_join, not_or] at hxY
  simp only [mem_pathPtrs_cons, not_or] at hyp' hBC
  obtain ⟨hxy, hxB, hxC⟩ := hxY
  obtain ⟨hyx, hyA, hyp⟩ := hyp'
  have hnil := h.nil_not_mem
  simp only [mem_ptrs_join, not_or] at hnil
  obtain ⟨hnx, hnA, hny, hnB, hnC⟩ := hnil
  obtain ⟨hx, htA, hty⟩ := (treeAt_join ..).mp h.tree
  obtain ⟨hy, htB, htC⟩ := (treeAt_join ..).mp hty
  rw [ptrOf_join] at hx
  have hpath := h.above
  have hroot := h.root
  rw [ptrOf_join] at hpath hroot
  -- `B` goes from `y` to `x`
  obtain ⟨t1, hw1, hk1, hr1, hx1, ho1⟩ := write_eq hx (RBNode.setChild d.opp (some (ptrOf nil B)))
  rw [Cell.setChild_opp_node] at hx1
  have hy1 := (ho1 _ hyx).trans hy
  obtain ⟨t2, hw2, hk2, hr2, htB2, ho2⟩ := reparent_spec (hk1.nil.trans h.nil_eq)
    (htB.of_ne ho1 hxB) hB hnB x.ptr
  have hx2 := (ho2 _ hxB).trans hx1
  have hy2 := (ho2 _ hyB).trans hy1
  -- `y` takes the place of `x`
  obtain ⟨t3, hw3, hk3, hr3, hy3, ho3⟩ :=
    write_eq hy2 fun n => { n with p := some (parentOf nil path) }
  rw [Cell.setP_node] at hy3
  have hx3 := (ho3 _ hxy).trans hx2
  have ho13 : ∀ q, q ≠ x.ptr → q ∉ ptrs B → q ≠ y.ptr → t3.heap.get q = t.heap.get q :=
    fun q h1 h2 h3 => (ho3 q h3).trans ((ho2 q h2).trans (ho1 q h1))
  have hpath3 : PathAt t3.heap.get nil x.ptr path := hpath.congr fun q hq =>
    ho13 q (fun heq => hxp (heq ▸ hq)) (fun hm => (hBC q hm).2.2.2 hq) fun heq => hyp (heq ▸ hq)
  obtain ⟨t4, hw4, hk4, hr4, hpath4, ho4⟩ := relink_spec
    (hk3.nil.trans (hk2.nil.trans (hk1.nil.trans h.nil_eq)))
    (hr3.trans (hr2.trans (hr1.trans hroot))) hpath3 h.nodup h.nil_not_mem_path hxp
    (Ne.symm hnx) hx3 (Cell.p_node ..) y.ptr
  have hx4 := (ho4 _ hxp).trans hx3
  have hy4 := (ho4 _ hyp).trans hy3
  -- `x` becomes a child of `y`
  obtain ⟨t5, hw5, hk5, hr5, hy5, ho5⟩ := write_eq hy4 (RBNode.setChild d (some x.ptr))
  rw [Cell.setChild_node] at hy5
  have hx5 := (ho5 _ hxy).trans hx4
  obtain ⟨t6, hw6, hk6, hr6, hx6, ho6⟩ := write_eq hx5 fun n => { n with p := some y.ptr }
  rw [Cell.setP_node] at hx6
  have hy6 := (ho6 _ hyx).trans hy5
  have hkeep : Keeps t t6 := hk1.trans (hk2.trans (hk3.trans (hk4.trans (hk5.trans hk6))))
  have ho36 : ∀ q, q ≠ x.ptr → q ∉ pathPtrs path → q ≠ y.ptr → t6.heap.get q = t3.heap.get q :=
    fun q h1 h2 h3 => (ho6 q h1).trans ((ho5 q h3).trans (ho4 q h2))
  refine ⟨t6, ?_, hkeep, hkeep.nil.trans h.nil_eq, ?_, ?_, ?_, h.nodup, ?_, ?_, ?_⟩
  · rw [rotate, if_neg (Option.some_ne_none _)]
    simp only [read_eq hx, Cell.child_opp_node, Option.bind_eq_bind, Option.bind_some,
      if_neg (Option.some_ne_none y.ptr), read_eq hy, Cell.child_node, hw1, read_eq hy1, hw2,
      read_eq hx2, Cell.p_node, hw3, hw4, hw5, hw6]
  · rw [hr6, hr5, hr4, ptrOf_join]
  · rw [ptrOf_join]
    exact (hpath4.of_ne ho5 hyp).of_ne ho6 hxp
  · -- the nodes of the new tree
    rw [treeAt_join, treeAt_join, ptrOf_join]
    refine ⟨hy6, ⟨hx6, htA.congr fun q hq => ?_, htB2.congr fun q hq => ?_⟩,
      htC.congr fun q hq => ?_⟩
    · have hqx : q ≠ x.ptr := fun heq => hxA (heq ▸ hq)
      have hqy : q ≠ y.ptr := fun heq => hyA (heq ▸ hq)
      exact (ho36 q hqx (hAY q hq).2 hqy).trans (ho13 q hqx (fun hm => (hBC q hm).2.2.1 hq) hqy)
    · have hqy : q ≠ y.ptr := fun heq => hyB (heq ▸ hq)
      exact (ho36 q (hBC q hq).2.1 (hBC q hq).2.2.2 hqy).trans (ho3 q hqy)
    · have hqx : q ≠ x.ptr := fun heq => hxC (heq ▸ hq)
      have hqy : q ≠ y.ptr := fun heq => hyC (heq ▸ hq)
      have hqp : q ∉ pathPtrs path :=
        h.disjoint q (mem_ptrs_join.mpr (Or.inr (Or.inr (mem_ptrs_join.mpr (Or.inr (Or.inr hq))))))
      exact (ho36 q hqx hqp hqy).trans (ho13 q hqx (fun hm => (hBC q hm).1 hq) hqy)
  · exact (perm_ptrs_rotate ..).nodup_iff.mpr h.nodup_tree
  · exact fun q hq => h.disjoint q ((perm_ptrs_rotate ..).mem_iff.mp hq)
  · rw [ho36 nil hnx h.nil_not_mem_path hny, ho13 nil hnx hnB hny]
    exact h.sentinel

/-! ## A new node -/

/-- What is allocated is no node of the tree. -/
theorem Place.size_not_mem (h : Place nil t path T) :
    t.heap.size ∉ ptrs T ∧ t.heap.size ∉ pathPtrs path ∧ t.heap.size ≠ nil := by
  have hdead := Heap.get_size t.heap
  have h0 := h.whole
  have hno : ∀ q ∈ ptrs (fill path T), q ≠ t.heap.size := by
    rintro q hq rfl
    obtain ⟨n, hn, _⟩ := h0.tree.live _ hq
    rw [hdead] at hn
    cases hn
  refine ⟨fun hq => hno _ ?_ rfl, fun hq => hno _ ?_ rfl, ?_⟩
  · exact (perm_ptrs_fill path T).mem_iff.mpr (List.mem_append_right _ hq)
  · exact (perm_ptrs_fill path T).mem_iff.mpr (List.mem_append_left _ hq)
  · rintro heq
    obtain ⟨n, hn, _⟩ := h.sentinel
    rw [← heq, hdead] at hn
    cases hn

/-- A change of nodes that are not in the tree. -/
theorem Place.congr (h : Place nil t path T) (hnil : t'.nil = t.nil) (hroot : t'.root = t.root)
    (hget : ∀ q, q ∈ ptrs T ∨ q ∈ pathPtrs path ∨ q = nil → t'.heap.get q = t.heap.get q) :
    Place nil t' path T := by
  refine ⟨hnil.trans h.nil_eq, hroot.trans h.root, h.above.congr ?_, h.tree.congr ?_, h.nodup,
    h.nodup_tree, h.disjoint, ?_⟩
  · exact fun q hq => hget q (Or.inr (Or.inl hq))
  · exact fun q hq => hget q (Or.inl hq)
  · rw [hget nil (Or.inr (Or.inr rfl))]
    exact h.sentinel

/-- `MakeNode`. -/
theorem Place.makeNode (h : Place nil t path T) (key : κ) (val : ν) :
    Place nil (makeNode key val t).2 path T := by
  refine h.congr rfl rfl fun q hq => ?_
  have hne : q ≠ t.heap.size := by
    obtain ⟨h1, h2, h3⟩ := h.size_not_mem
    rintro rfl
    rcases hq with hq | hq | hq
    · exact h1 hq
    · exact h2 hq
    · exact h3 hq
  exact (Heap.get_alloc ..).trans (if_neg hne)

/-- A node becomes the child of the last node of a path. -/
theorem attach_spec (K : KeyCompare κ) {key : κ} {z : Ptr} (h : Place nil t path .leaf)
    (hside : ∀ f ∈ path, f.side = if K.cmp key f.elem.key then .left else .right) :
    ∃ t', attach K key (some (parentOf nil path)) (some z) t = some t' ∧ Keeps t t' ∧
      t'.root = some (rootOf path z) ∧ PathAt t'.heap.get nil z path ∧
      ∀ r, r ∉ pathPtrs path → t'.heap.get r = t.heap.get r := by
  cases path with
  | nil =>
      refine ⟨{ t with root := some z }, ?_, ⟨rfl, rfl, rfl, rfl⟩, rfl, trivial, fun _ _ => rfl⟩
      exact if_pos h.nil_eq.symm
  | cons f up =>
      obtain ⟨t', hrun, hkeep, hroot, hpath, hother⟩ := setEnd_spec h.above h.nodup z
      refine ⟨t', ?_, hkeep, by rw [hroot, h.root]; rfl, hpath, hother⟩
      have hpar : ¬ (some (parentOf nil (f :: up)) : Option Ptr) = t.nil := by
        rw [h.nil_eq]
        intro heq
        exact h.nil_not_mem_path (Option.some.inj heq ▸ List.mem_cons_self)
      have hf : t.heap.get (parentOf nil (f :: up)) = _ := h.above.1
      rw [attach, if_neg hpar, read_eq hf, Option.bind_eq_bind, Option.bind_some, Cell.key_node,
        ← hside f List.mem_cons_self]
      exact hrun

/-- The colour of a subtree is the colour of its node, or of the sentinel. -/
theorem read_color {g : Ptr} (htree : TreeAt t.heap.get nil g T)
    (hs : ∃ n, t.heap.get nil = some n ∧ n.color = .black ∧ n.p = none) :
    t.read (some (ptrOf nil T)) RBNode.color = some T.color := by
  cases T with
  | leaf =>
      obtain ⟨n, hn, hc, _⟩ := hs
      rw [ptrOf, read_eq hn, hc]
      rfl
  | node c l a r => rw [ptrOf, read_eq htree.1, Cell.color_node, RBT.color]

end RbTree

end LibC
