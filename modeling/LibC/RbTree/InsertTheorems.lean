/-
LibC.RbTree.InsertTheorems — insertion into an `rb_tree`.

The way down of `Insert` ends at the place that `locate` names (`descend_spec`),
and a red node is put there (`hang_spec`). Each round of the loop of
`InsertFixup` is a rule of the repair: `recolor_spec`, `rotateIn_spec` and
`rotateOut_spec` say so, and the loop ends within as many rounds as the path is
long (`fixupLoop_spec`).

`insert_spec` puts this together: the nodes make up a red-black tree again, and
the new element is behind all that are not above it. So the elements are sorted
in every tree that insertions lead to, those with equal keys in the order in
which they came (`run_insert`).

No `sorry`, no `axiom`, no `native_decide`.
-/
import LibC.Lib.Run
import LibC.RbTree.TreeTheorems

namespace LibC

open LibC.Lib LibC.Lib.RBT

variable {κ ν : Type}

namespace RbTree

variable {nil par : Ptr} {t t' : RbTree κ ν} {T : RBT (Cell κ ν)} {path : List (Frame (Cell κ ν))}

/-! ## Loops over a subtree -/

/-- The nodes of a subtree whose root has the parent `par`. -/
structure Below (nil par : Ptr) (t : RbTree κ ν) (T : RBT (Cell κ ν)) : Prop where
  nil_eq : t.nil = some nil
  tree : TreeAt t.heap.get nil par T
  nil_not_mem : nil ∉ ptrs T

theorem Place.below (h : Place nil t path T) : Below nil (parentOf nil path) t T :=
  ⟨h.nil_eq, h.tree, h.nil_not_mem⟩

section Below

variable {c : Color} {a : Cell κ ν} {l r : RBT (Cell κ ν)}

theorem Below.ne_nil (h : Below nil par t (.node c l a r)) :
    ¬ (some a.ptr : Option Ptr) = t.nil := by
  rw [h.nil_eq]
  intro heq
  exact h.nil_not_mem (Option.some.inj heq ▸ List.mem_cons_self)

theorem Below.left (h : Below nil par t (.node c l a r)) : Below nil a.ptr t l :=
  ⟨h.nil_eq, h.tree.2.1, fun hm =>
    h.nil_not_mem (List.mem_cons_of_mem _ (List.mem_append_left _ hm))⟩

theorem Below.right (h : Below nil par t (.node c l a r)) : Below nil a.ptr t r :=
  ⟨h.nil_eq, h.tree.2.2, fun hm =>
    h.nil_not_mem (List.mem_cons_of_mem _ (List.mem_append_right _ hm))⟩

theorem Below.read (h : Below nil par t (.node c l a r)) {β : Type} (f : RBNode κ ν → β) :
    t.read (some a.ptr) f = some (f (a.node .left c par (ptrOf nil l) (ptrOf nil r))) :=
  read_eq h.tree.1 f

end Below

/-- There are fewer nodes than the heap has been asked for. -/
theorem Holds.length_lt (h : Holds nil t T) : (ptrs T).length < t.heap.size := by
  have hplace : Place nil t [] T := holds_fill.mp h
  have hnodup : (nil :: ptrs T).Nodup := List.nodup_cons.mpr ⟨hplace.nil_not_mem, h.nodup⟩
  refine Heap.length_le_size hnodup fun q hq => ?_
  rcases List.mem_cons.mp hq with rfl | hq
  · obtain ⟨n, hn, _⟩ := h.sentinel
    exact ⟨n, hn⟩
  · obtain ⟨n, hn, _⟩ := h.tree.live q hq
    exact ⟨n, hn⟩

theorem length_ptrs : ∀ T : RBT (Cell κ ν), (ptrs T).length = T.inorder.length
  | .leaf => rfl
  | .node c l a r => by
      rw [ptrs, inorder, List.length_cons, List.length_append, List.length_append, List.length_cons,
        length_ptrs l, length_ptrs r, Nat.add_assoc]

/-- Nor is the tree higher. -/
theorem Holds.height_lt (h : Holds nil t T) : T.height < t.heap.size := by
  refine Nat.lt_of_le_of_lt T.height_le_length ?_
  rw [← length_ptrs T]
  exact h.length_lt

theorem length_le_pathPtrs : ∀ path : List (Frame (Cell κ ν)), path.length ≤ (pathPtrs path).length
  | [] => Nat.le_refl 0
  | f :: up => by
      rw [pathPtrs, List.length_cons, List.length_cons, List.length_append]
      exact Nat.succ_le_succ (Nat.le_trans (length_le_pathPtrs up) (Nat.le_add_left _ _))

/-- The loop of `Insert` ends at the place of the key. -/
theorem descend_spec (K : KeyCompare κ) (key : κ) : ∀ {T : RBT (Cell κ ν)} {par : Ptr}
    (path : List (Frame (Cell κ ν))) {fuel : ℕ}, Below nil par t T → T.height < fuel →
      descend K key fuel (some (ptrOf nil T)) (some (parentOf nil path))
          (UInt64.ofNat path.length) t =
        some (some (parentOf nil (locate (fun a => K.cmp key a.key) T path)),
          UInt64.ofNat (locate (fun a => K.cmp key a.key) T path).length)
  | .leaf, par, path, fuel + 1, h, _ => by
      rw [descend, h.nil_eq, ptrOf, if_pos rfl, locate]
  | .node c l a r, par, path, fuel + 1, h, hfuel => by
      rw [height] at hfuel
      have hl : l.height < fuel := by omega
      have hr : r.height < fuel := by omega
      have hcnt : ∀ f : Frame (Cell κ ν),
          UInt64.ofNat path.length + 1 = UInt64.ofNat (f :: path).length :=
        fun f => (UInt64.ofNat_add path.length 1).symm
      rw [descend, ptrOf, if_neg h.ne_nil, locate]
      simp only [h.read, Cell.key_node, Option.bind_eq_bind, Option.bind_some]
      by_cases hlt : K.cmp key a.key = true
      · rw [if_pos hlt, if_pos hlt, hcnt ⟨.left, c, a, r⟩]
        exact descend_spec K key (⟨.left, c, a, r⟩ :: path) h.left hl
      · rw [if_neg hlt, if_neg hlt, hcnt ⟨.right, c, a, l⟩]
        exact descend_spec K key (⟨.right, c, a, l⟩ :: path) h.right hr

/-- What is in a tree. -/
def entries (T : RBT (Cell κ ν)) : List (κ × ν) := T.inorder.map fun a => (a.key, a.val)

/-- `InorderWalk` of a node. -/
theorem inorderWalkFrom_spec : ∀ {T : RBT (Cell κ ν)} {par : Ptr} {fuel : ℕ}, Below nil par t T →
    (ptrs T).length < fuel → inorderWalkFrom fuel (some (ptrOf nil T)) t = some (entries T)
  | .leaf, par, fuel + 1, h, _ => by
      rw [inorderWalkFrom, h.nil_eq, ptrOf, if_pos rfl]
      rfl
  | .node c l a r, par, fuel + 1, h, hfuel => by
      rw [ptrs, List.length_cons, List.length_append] at hfuel
      have hl : inorderWalkFrom fuel (some (ptrOf nil l)) t = some (entries l) :=
        inorderWalkFrom_spec h.left (by omega)
      have hr : inorderWalkFrom fuel (some (ptrOf nil r)) t = some (entries r) :=
        inorderWalkFrom_spec h.right (by omega)
      rw [inorderWalkFrom, ptrOf, if_neg h.ne_nil]
      simp only [h.read, Option.bind_eq_bind, Option.bind_some, Cell.node, hl, hr, entries,
        inorder, List.map_append, List.map_cons]

/-! ## The rounds of `InsertFixup` -/

theorem rorate_eq (d : Side) : (rorate d : Option Ptr → RbTree κ ν → _) = rotate d := by
  cases d <;> rfl

/-- The parent of a red node. -/
theorem Place.read_parent (h : Place nil t path T) (hred : T.color = .red) :
    t.read (some (ptrOf nil T)) RBNode.p = some (some (parentOf nil path)) := by
  cases T with
  | leaf => cases hred
  | node c l a r => rw [ptrOf, h.below.read, Cell.p_node]

/-- The colour of the parent, or of the sentinel above the root. -/
theorem Place.read_headColor (h : Place nil t path T) :
    t.read (some (parentOf nil path)) RBNode.color = some (headColor path) := by
  cases path with
  | nil =>
      obtain ⟨n, hn, hc, _⟩ := h.sentinel
      rw [parentOf, read_eq hn, hc, headColor]
  | cons f up => rw [parentOf, read_eq h.above.1, Cell.color_node, headColor]

section Rounds

variable {d d' : Side} {p g z : Cell κ ν} {s U zi zo : RBT (Cell κ ν)}
  {up : List (Frame (Cell κ ν))}

/-- What a round reads around a red node whose parent is red. -/
theorem fixup_reads (h : Place nil t (⟨d', .red, p, s⟩ :: ⟨d, .black, g, U⟩ :: up) T)
    (hred : T.color = .red) :
    t.read (some (ptrOf nil T)) RBNode.p = some (some p.ptr) ∧
      t.read (some p.ptr) RBNode.p = some (some g.ptr) ∧
      t.read (some g.ptr) (RBNode.child d) = some (some p.ptr) ∧
      t.read (some g.ptr) (RBNode.child d.opp) = some (some (ptrOf nil U)) ∧
      t.read (some (ptrOf nil U)) RBNode.color = some U.color ∧
      t.read (some p.ptr) (RBNode.child d') = some (some (ptrOf nil T)) ∧
      t.read (some p.ptr) (RBNode.child d'.opp) = some (some (ptrOf nil s)) := by
  obtain ⟨hp, _, hg, hU, _⟩ := h.above
  have hpg : t.heap.get p.ptr = some (p.node d' .red g.ptr (ptrOf nil T) (ptrOf nil s)) := hp
  have hgg : t.heap.get g.ptr =
      some (g.node d .black (parentOf nil up) p.ptr (ptrOf nil U)) := hg
  refine ⟨h.read_parent hred, ?_, ?_, ?_, read_color hU h.sentinel, ?_, ?_⟩
  · rw [read_eq hpg, Cell.p_node]
  · rw [read_eq hgg, Cell.child_node]
  · rw [read_eq hgg, Cell.child_opp_node]
  · rw [read_eq hpg, Cell.child_node]
  · rw [read_eq hpg, Cell.child_opp_node]

/-- The uncle is red. -/
theorem recolor_spec (h : Place nil t (⟨d', .red, p, s⟩ :: ⟨d, .black, g, U⟩ :: up) T)
    (hred : T.color = .red) (hU : U.color = .red) :
    ∃ t', fixupSide d (some (ptrOf nil T)) t = some (some g.ptr, t') ∧ Keeps t t' ∧
      Place nil t' up (join d .red (join d' .black T p s) g U.blacken) := by
  obtain ⟨hz, hp, _, hy, hc, _⟩ := fixup_reads h hred
  -- the parent becomes black
  obtain ⟨t1, hw1, hk1, h1⟩ := setColor_spec (place_up.mp h) .black
  have h1' : Place nil t1 (⟨d.opp, .black, g, join d' .black T p s⟩ :: up) U := by
    rw [place_up, join_opp]
    exact place_up.mp h1
  cases U with
  | leaf => cases hU
  | node cu l u r =>
      -- so does the uncle
      obtain ⟨t2, hw2, hk2, h2⟩ : ∃ t2,
          t1.write (some u.ptr) (fun n => { n with color := .black }) = some t2 ∧
            Keeps t1 t2 ∧ Place nil t2 _ (.node .black l u r) :=
        setColor_spec (d := .left) h1' .black
      -- and the grandparent red
      obtain ⟨t3, hw3, hk3, h3⟩ := setColor_spec (place_up.mp h2) .red
      rw [join_opp] at h3
      refine ⟨t3, ?_, hk1.trans (hk2.trans hk3), h3⟩
      have hcolor : t.read (some u.ptr) RBNode.color = some Color.red := by
        rw [← hU]
        exact hc
      rw [fixupSide, hz, Option.bind_eq_bind, Option.bind_some, hp]
      simp only [Option.bind_eq_bind, Option.bind_some, hy, ptrOf, hcolor, if_true, hw1, hw2, hw3]

/-- The uncle is black, and the node is on the inside. -/
theorem rotateIn_spec
    (h : Place nil t (⟨d.opp, .red, p, s⟩ :: ⟨d, .black, g, U⟩ :: up) (join d .red zi z zo))
    (hU : U.color = .black) :
    ∃ t', fixupSide d (some z.ptr) t = some (some p.ptr, t') ∧ Keeps t t' ∧
      Place nil t' (⟨d, .red, z, zo⟩ :: ⟨d, .black, g, U⟩ :: up) (join d .red s p zi) := by
  obtain ⟨hz, hp, _, hy, hc, hin, _⟩ := fixup_reads h (color_join ..)
  rw [ptrOf_join] at hz hin
  have h1 := place_up.mp h
  rw [join_opp] at h1
  obtain ⟨t', hrot, hkeep, h2⟩ := rotate_spec h1
  refine ⟨t', ?_, hkeep, place_up.mpr h2⟩
  have hblack : ¬ Color.black = Color.red := by decide
  rw [fixupSide, hz, Option.bind_eq_bind, Option.bind_some, hp]
  simp only [Option.bind_eq_bind, Option.bind_some, hy, hc, hU, if_neg hblack, hin, if_true,
    rorate_eq, hrot]

/-- A node is not its sibling. -/
theorem Place.ptr_ne_sib {f : Frame (Cell κ ν)} (h : Place nil t (f :: path) T)
    (hred : T.color = .red) : ptrOf nil T ≠ ptrOf nil f.sib := by
  have hT : ptrOf nil T ∈ ptrs T := by
    rcases ptrOf_mem nil T with rfl | hmem
    · cases hred
    · exact hmem
  intro heq
  rcases ptrOf_mem nil f.sib with hleaf | hmem
  · rw [heq, hleaf] at hT
    exact h.nil_not_mem hT
  · exact h.disjoint _ hT (mem_pathPtrs_cons.mpr (Or.inr (Or.inl (heq ▸ hmem))))

/-- The uncle is black, and the node is on the outside. -/
theorem rotateOut_spec (h : Place nil t (⟨d, .red, p, s⟩ :: ⟨d, .black, g, U⟩ :: up) T)
    (hred : T.color = .red) (hU : U.color = .black) :
    ∃ t', fixupSide d (some (ptrOf nil T)) t = some (some (ptrOf nil T), t') ∧ Keeps t t' ∧
      Place nil t' (⟨d, .black, p, join d .red s g U⟩ :: up) T := by
  obtain ⟨hz, hp, _, hy, hc, _, hin⟩ := fixup_reads h hred
  have hne : ¬ (some (ptrOf nil T) : Option Ptr) = some (ptrOf nil s) :=
    fun heq => h.ptr_ne_sib hred (Option.some.inj heq)
  obtain ⟨t1, hw1, hk1, h1⟩ := setColor_spec (place_up.mp h) .black
  obtain ⟨t2, hw2, hk2, h2⟩ := setColor_spec (place_up.mp h1) .red
  -- the same tree, seen from the other side
  have h2' : Place nil t2 up (join d.opp .red U g (join d.opp .black s p T)) := by
    rw [join_opp, join_opp]
    exact h2
  obtain ⟨t3, hrot, hk3, h3⟩ := rotate_spec h2'
  rw [join_opp, join_opp] at h3
  refine ⟨t3, ?_, hk1.trans (hk2.trans hk3), place_up.mpr h3⟩
  have hblack : ¬ Color.black = Color.red := by decide
  rw [fixupSide, hz, Option.bind_eq_bind, Option.bind_some, hp]
  simp only [Option.bind_eq_bind, Option.bind_some, hy, hc, hU, if_neg hblack, hin, if_neg hne,
    hw1, hw2, rorate_eq, hrot]

/-! ## The loop of `InsertFixup` -/

/-- A round of the loop. -/
theorem fixupLoop_red {z' : Option Ptr} (fuel : ℕ)
    (h : Place nil t (⟨d', .red, p, s⟩ :: ⟨d, .black, g, U⟩ :: up) T) (hred : T.color = .red)
    (hround : fixupSide d (some (ptrOf nil T)) t = some (z', t')) :
    fixupLoop (fuel + 1) (some (ptrOf nil T)) t = fixupLoop fuel z' t' := by
  obtain ⟨hz, hp, hd, hopp, _⟩ := fixup_reads h hred
  have hcolor : t.read (some p.ptr) RBNode.color = some Color.red := h.read_headColor
  -- the side the parent is on
  have hside : ∃ l, t.read (some g.ptr) RBNode.left = some l ∧
      (if (some p.ptr : Option Ptr) = l then Side.left else .right) = d := by
    cases d with
    | left => exact ⟨_, hd, if_pos rfl⟩
    | right =>
        refine ⟨_, hopp, if_neg fun heq => ?_⟩
        have hne := (place_up.mp h).ptr_ne_sib (color_join ..)
        rw [ptrOf_join] at hne
        exact hne (Option.some.inj heq)
  obtain ⟨l, hl, hside⟩ := hside
  rw [fixupLoop, hz]
  simp only [Option.bind_eq_bind, Option.bind_some, hcolor, if_true, hp, hl, hside, hround]

/-- What the loop has done in the end. -/
def Repaired (nil : Ptr) (t : RbTree κ ν) (xs : List (Cell κ ν)) (t' : RbTree κ ν) : Prop :=
  Keeps t t' ∧ ∃ T, Holds nil t' T ∧ T.blacken.RedBlack ∧ T.inorder = xs

/-- The parent is black. -/
theorem fixupLoop_done {n : ℕ} (fuel : ℕ) (h : Place nil t path T) (hfix : Fix path T n)
    (hhead : headColor path = .black) :
    ∃ t', fixupLoop (fuel + 1) (some (ptrOf nil T)) t = some t' ∧
      Repaired nil t (fill path T).inorder t' := by
  refine ⟨t, ?_, .refl t, fill path T, holds_fill.mpr h, hfix.done hhead, rfl⟩
  have hblack : ¬ Color.black = Color.red := by decide
  rw [fixupLoop, h.read_parent hfix.red]
  simp only [Option.bind_eq_bind, Option.bind_some, h.read_headColor, hhead, if_neg hblack]

/-- The node is on the outside and its uncle black: there is one more round. -/
theorem fixupLoop_out {n : ℕ} (fuel : ℕ)
    (h : Place nil t (⟨d, .red, p, s⟩ :: ⟨d, .black, g, U⟩ :: up) T)
    (hfix : Fix (⟨d, .red, p, s⟩ :: ⟨d, .black, g, U⟩ :: up) T n) (hU : U.color = .black) :
    ∃ t', fixupLoop (fuel + 2) (some (ptrOf nil T)) t = some t' ∧
      Repaired nil t (fill (⟨d, .red, p, s⟩ :: ⟨d, .black, g, U⟩ :: up) T).inorder t' := by
  obtain ⟨t1, hround, hk1, h1⟩ := rotateOut_spec h hfix.red hU
  obtain ⟨t', hloop, hk, T', hT', hrb, horder⟩ := fixupLoop_done fuel h1 (hfix.rotateOut hU) rfl
  refine ⟨t', (fixupLoop_red _ h hfix.red hround).trans hloop, hk1.trans hk, T', hT', hrb, ?_⟩
  rw [horder, fill, fill, fill, inorder_fill, inorder_fill]
  rw [inorder_rotate d .black .red .red .black]

/-- The loop ends, and the tree is in order then up to the colour of the root. -/
theorem fixupLoop_spec : ∀ (path : List (Frame (Cell κ ν))) {T : RBT (Cell κ ν)} {n fuel : ℕ}
    {t : RbTree κ ν}, path.length < fuel → Place nil t path T → Fix path T n →
      ∃ t', fixupLoop fuel (some (ptrOf nil T)) t = some t' ∧
        Repaired nil t (fill path T).inorder t'
  | [], T, n, fuel + 1, t, _, h, hfix => fixupLoop_done fuel h hfix rfl
  | [f], T, n, fuel + 1, t, _, h, hfix => by
      refine fixupLoop_done fuel h hfix ?_
      cases hf : f.color with
      | black => exact hf
      | red =>
          obtain ⟨_, _, hup, _⟩ := hfix.path.grandparent hf
          cases hup
  | ⟨d', .black, p, s⟩ :: f :: up, T, n, fuel + 1, t, _, h, hfix =>
      fixupLoop_done fuel h hfix rfl
  | ⟨d', .red, p, s⟩ :: ⟨d, c, g, U⟩ :: up, T, n, fuel + 2, t, hfuel, h, hfix => by
      obtain ⟨_, _, hup, hc⟩ := hfix.path.grandparent rfl
      cases hup
      obtain rfl : c = .black := hc
      rw [List.length_cons, List.length_cons] at hfuel
      cases hU : U.color with
      | red =>
          obtain ⟨t1, hround, hk1, h1⟩ := recolor_spec h hfix.red hU
          have hup : up.length < fuel + 1 := by omega
          obtain ⟨t', hloop, hk, T', hT', hrb, horder⟩ :=
            fixupLoop_spec up hup h1 (hfix.recolor hU)
          rw [ptrOf_join] at hloop
          refine ⟨t', (fixupLoop_red _ h hfix.red hround).trans hloop, hk1.trans hk, T', hT', hrb,
            ?_⟩
          rw [horder, fill, fill, inorder_fill, inorder_fill]
          simp only [inorder_join, inorder_blacken]
      | black =>
          by_cases hd : d' = d
          · subst hd
            exact fixupLoop_out fuel h hfix hU
          · obtain rfl := Side.eq_opp_of_ne hd
            obtain ⟨zi, z, zo, rfl⟩ : ∃ zi z zo, T = join d .red zi z zo := by
              cases T with
              | leaf => cases hfix.red
              | node cz l z r =>
                  obtain rfl : cz = .red := hfix.red
                  obtain ⟨zi, zo, heq⟩ := node_eq_join d .red l z r
                  exact ⟨zi, z, zo, heq⟩
            obtain ⟨t1, hround, hk1, h1⟩ := rotateIn_spec h hU
            obtain ⟨m, rfl⟩ : ∃ m, fuel = m + 1 := ⟨fuel - 1, by omega⟩
            obtain ⟨t', hloop, hk, T', hT', hrb, horder⟩ := fixupLoop_out m h1 hfix.rotateIn hU
            rw [ptrOf_join] at hloop
            refine ⟨t', ?_, hk1.trans hk, T', hT', hrb, ?_⟩
            · refine (fixupLoop_red _ h hfix.red ?_).trans hloop
              rw [ptrOf_join]
              exact hround
            · rw [horder]
              show (fill up (join d .black (join d .red (join d .red s p zi) z zo) g U)).inorder =
                (fill up (join d .black (join d.opp .red (join d .red zi z zo) p s) g U)).inorder
              rw [join_opp, inorder_fill, inorder_fill, inorder_join d .black,
                inorder_join d .black, inorder_rotate d .red .red .red .red]

end Rounds

/-- `InsertFixup`. -/
theorem insertFixup_spec {n : ℕ} (h : Place nil t path T) (hfix : Fix path T n) :
    ∃ t' T', insertFixup (some (ptrOf nil T)) t = some t' ∧ Keeps t t' ∧ Holds nil t' T' ∧
      T'.RedBlack ∧ T'.inorder = (fill path T).inorder := by
  have hfuel : path.length < t.heap.size := by
    refine Nat.lt_of_le_of_lt ?_ (holds_fill.mpr h).length_lt
    rw [(perm_ptrs_fill path T).length_eq, List.length_append]
    exact Nat.le_trans (length_le_pathPtrs path) (Nat.le_add_right _ _)
  obtain ⟨t1, hloop, hk1, T1, h1, hrb, horder⟩ := fixupLoop_spec path hfuel h hfix
  cases T1 with
  | leaf =>
      -- the node itself is in the tree
      exfalso
      cases T with
      | leaf => cases hfix.red
      | node c l a r =>
          rw [inorder_fill, inorder, inorder] at horder
          simp at horder
  | node c l a r =>
      obtain ⟨t2, hw, hk2, h2⟩ : ∃ t2, t1.write (some a.ptr) (fun n => { n with color := .black }) =
          some t2 ∧ Keeps t1 t2 ∧ Place nil t2 [] (.node .black l a r) :=
        setColor_spec (d := .left) (holds_fill.mp h1) .black
      refine ⟨t2, _, ?_, hk1.trans hk2, holds_fill.mpr h2, hrb, horder⟩
      rw [insertFixup, hloop, Option.bind_eq_bind, Option.bind_some, h1.root]
      exact hw

/-! ## The new node -/

/-- The new node takes the place of a leaf. -/
theorem hang_spec (K : KeyCompare κ) {z : Ptr} {n : RBNode κ ν} (h : Place nil t path .leaf)
    (hside : ∀ f ∈ path, f.side = if K.cmp n.key f.elem.key then .left else .right)
    (hn : t.heap.get z = some n) (hz : z ∉ pathPtrs path) (hne : z ≠ nil) :
    ∃ t1 t2 t3 t4 t5,
      t.write (some z) (fun n => { n with p := some (parentOf nil path) }) = some t1 ∧
      attach K n.key (some (parentOf nil path)) (some z) t1 = some t2 ∧
      t2.write (some z) (fun n => { n with left := t2.nil }) = some t3 ∧
      t3.write (some z) (fun n => { n with right := t3.nil }) = some t4 ∧
      t4.write (some z) (fun n => { n with color := .red }) = some t5 ∧ Keeps t t5 ∧
      Place nil t5 path (.node .red .leaf ⟨z, n.key, n.val⟩ .leaf) := by
  obtain ⟨t1, hw1, hk1, hr1, hg1, ho1⟩ :=
    write_eq hn fun n => { n with p := some (parentOf nil path) }
  have h1 : Place nil t1 path .leaf := by
    refine h.congr hk1.nil hr1 fun q hq => ho1 q ?_
    rcases hq with hq | hq | rfl
    · cases hq
    · exact fun heq => hz (heq ▸ hq)
    · exact hne.symm
  obtain ⟨t2, hw2, hk2, hr2, hpath2, ho2⟩ := attach_spec K (z := z) h1 hside
  have hg2 := (ho2 z hz).trans hg1
  have hnil2 : t2.nil = some nil := hk2.nil.trans h1.nil_eq
  obtain ⟨t3, hw3, hk3, hr3, hg3, ho3⟩ := write_eq hg2 fun n => { n with left := t2.nil }
  have hnil3 : t3.nil = some nil := hk3.nil.trans hnil2
  obtain ⟨t4, hw4, hk4, hr4, hg4, ho4⟩ := write_eq hg3 fun n => { n with right := t3.nil }
  obtain ⟨t5, hw5, hk5, hr5, hg5, ho5⟩ := write_eq hg4 fun n => { n with color := .red }
  refine ⟨t1, t2, t3, t4, t5, hw1, hw2, hw3, hw4, hw5,
    hk1.trans (hk2.trans (hk3.trans (hk4.trans hk5))), ?_, ?_, ?_, ⟨?_, trivial, trivial⟩,
    h.nodup, List.nodup_singleton z, ?_, ?_⟩
  · exact hk5.nil.trans (hk4.nil.trans hnil3)
  · exact hr5.trans (hr4.trans (hr3.trans hr2))
  · exact ((hpath2.of_ne ho3 hz).of_ne ho4 hz).of_ne ho5 hz
  · rw [hg5, hnil2, hnil3]
    rfl
  · intro q hq
    obtain rfl := List.mem_singleton.mp hq
    exact hz
  · obtain ⟨n', hn', hc⟩ := h1.sentinel
    refine ⟨n', ?_, hc⟩
    rw [ho5 nil hne.symm, ho4 nil hne.symm, ho3 nil hne.symm, ho2 nil h1.nil_not_mem_path, hn']

/-- The place that `Insert` finds. -/
def placeOf (K : KeyCompare κ) (key : κ) (T : RBT (Cell κ ν)) : List (Frame (Cell κ ν)) :=
  locate (fun a => K.cmp key a.key) T []

/-- An insertion: the new element is between what is before its place and what is after it. -/
theorem insert_spec (K : KeyCompare κ) (key : κ) (val : ν) (h : Holds nil t T) (hrb : T.RedBlack) :
    ∃ t' T', insert K key val t = some t' ∧ Holds nil t' T' ∧ T'.RedBlack ∧
      t'.size = t.size + 1 ∧ t'.heap.size = t.heap.size + 1 ∧
      t'.high = (if UInt64.ofNat (placeOf K key T).length > t.high then
        UInt64.ofNat (placeOf K key T).length else t.high) ∧
      T'.inorder =
        before (placeOf K key T) ++ ⟨t.heap.size, key, val⟩ :: after (placeOf K key T) := by
  have hleaf : Place nil t (placeOf K key T) .leaf := by
    rw [← holds_fill, placeOf, fill_locate]
    exact h
  obtain ⟨_, hz, hne⟩ := hleaf.size_not_mem
  -- the node
  obtain ⟨t0, ht0⟩ : ∃ t0, (makeNode key val t).2 = t0 := ⟨_, rfl⟩
  have hmake : makeNode key val t = (some t.heap.size, t0) := by
    rw [← ht0]
    rfl
  have h0 : Place nil t0 [] T := ht0 ▸ (holds_fill.mp h : Place nil t [] T).makeNode key val
  have hleaf0 : Place nil t0 (placeOf K key T) .leaf := ht0 ▸ hleaf.makeNode key val
  have hget : t0.heap.get t.heap.size = some ⟨key, val, .black, none, none, none⟩ := by
    rw [← ht0]
    exact (Heap.get_alloc ..).trans (if_pos rfl)
  have hsize : t0.heap.size = t.heap.size + 1 := by
    rw [← ht0]
    exact Heap.size_alloc ..
  have hfields : t0.size = t.size ∧ t0.high = t.high := by
    rw [← ht0]
    exact ⟨rfl, rfl⟩
  -- the way down
  have hdesc : descend K key t0.heap.size t0.root t0.nil 0 t0 =
      some (some (parentOf nil (placeOf K key T)), UInt64.ofNat (placeOf K key T).length) := by
    rw [h0.root, h0.nil_eq]
    exact descend_spec K key [] h0.below (hsize ▸ Nat.lt_succ_of_lt h.height_lt)
  obtain ⟨t1, ht1⟩ : ∃ t1, (if UInt64.ofNat (placeOf K key T).length > t0.high then
      { t0 with high := UInt64.ofNat (placeOf K key T).length } else t0) = t1 := ⟨_, rfl⟩
  have hsame : t1.heap = t0.heap ∧ t1.root = t0.root ∧ t1.nil = t0.nil ∧ t1.size = t0.size ∧
      t1.high = (if UInt64.ofNat (placeOf K key T).length > t0.high then
        UInt64.ofNat (placeOf K key T).length else t0.high) := by
    rw [← ht1]
    split <;> exact ⟨rfl, rfl, rfl, rfl, rfl⟩
  obtain ⟨hheap, hroot, hnil, hsize1, hhigh⟩ := hsame
  have hleaf1 : Place nil t1 (placeOf K key T) .leaf :=
    hleaf0.congr hnil hroot fun q _ => by rw [hheap]
  -- the node in its place
  obtain ⟨t2, t3, t4, t5, t6, hw2, hw3, hw4, hw5, hw6, hk6, h6⟩ := hang_spec K hleaf1
    (side_locate fun f hf => by cases hf) (hheap ▸ hget) hz hne
  -- the repair
  have hfix := fix_node (hrb.locate fun a => K.cmp key a.key) (⟨t.heap.size, key, val⟩ : Cell κ ν)
  obtain ⟨t7, T7, hfixup, hk7, h7, hrb7, horder⟩ := insertFixup_spec h6 hfix
  have hrun : insertFixup (some t.heap.size) t6 = some t7 := hfixup
  have hk := hk6.trans hk7
  refine ⟨{ t7 with size := t7.size + 1 }, T7, ?_, ⟨h7.nil_eq, h7.root, h7.tree, h7.nodup,
    h7.sentinel⟩, hrb7, ?_, ?_, ?_, ?_⟩
  · rw [insert, hmake]
    simp only [insertNode, read_eq hget, hdesc, ht1, hw2, hw3, hw4, hw5, hw6, hrun,
      Option.bind_eq_bind, Option.bind_some]
  · rw [hk.size, hsize1, hfields.1]
  · rw [hk.heap, hheap, hsize]
  · rw [hk.high, hhigh, hfields.2]
  · rw [horder, inorder_fill, List.append_assoc]
    rfl

/-! ## The order -/

section Order

variable {K : KeyCompare κ}

/-- What is not above `a` is below what `a` is below. -/
theorem cmp_mono {k a b : κ} (hba : K.cmp b a = false) (hka : K.cmp k a = true) :
    K.cmp k b = true := by
  rcases K.weak k b a hka with h | h
  · exact h
  · rw [hba] at h
    cases h

theorem not_eq_of_cmp {a b : κ} (h : K.cmp a b = true) : K.eq a b = false ∧ K.eq b a = false := by
  constructor
  · cases heq : K.eq a b with
    | false => rfl
    | true =>
        have hab := ((K.eq_iff a b).mp heq).1
        rw [h] at hab
        cases hab
  · cases heq : K.eq b a with
    | false => rfl
    | true =>
        have hab := ((K.eq_iff b a).mp heq).2
        rw [h] at hab
        cases hab

/-- The pairs are sorted by key. -/
def Sorted (K : KeyCompare κ) (xs : List (κ × ν)) : Prop :=
  xs.Pairwise fun a b => K.cmp b.1 a.1 = false

/-- `xs` are the pairs `ops`, sorted by key, those with equal keys in the order of `ops`. -/
structure SortedStably (K : KeyCompare κ) (ops xs : List (κ × ν)) : Prop where
  perm : xs.Perm ops
  sorted : Sorted K xs
  stable : ∀ k, xs.filter (fun a => K.eq k a.1) = ops.filter (fun a => K.eq k a.1)

/-- A pair behind all that are not above it. -/
def insertBehind (K : KeyCompare κ) (xs : List (κ × ν)) (e : κ × ν) : List (κ × ν) :=
  xs.filter (fun a => !K.cmp e.1 a.1) ++ e :: xs.filter (fun a => K.cmp e.1 a.1)

variable {xs ops : List (κ × ν)} {e : κ × ν}

/-- In a sorted list the two parts are in a row. -/
theorem Sorted.parts : ∀ {xs : List (κ × ν)}, Sorted K xs → ∀ k : κ,
    xs.filter (fun a => !K.cmp k a.1) ++ xs.filter (fun a => K.cmp k a.1) = xs
  | [], _, _ => rfl
  | a :: xs, h, k => by
      obtain ⟨ha, hxs⟩ := List.pairwise_cons.mp h
      by_cases hk : K.cmp k a.1 = true
      · have hall : ∀ b ∈ xs, K.cmp k b.1 = true := fun b hb => cmp_mono (ha b hb) hk
        have h1 : xs.filter (fun b => !K.cmp k b.1) = [] := by
          rw [List.filter_eq_nil_iff]
          intro b hb
          simp [hall b hb]
        have h2 : xs.filter (fun b => K.cmp k b.1) = xs := List.filter_eq_self.mpr hall
        simp [hk, h1, h2]
      · have hparts := Sorted.parts hxs k
        simp [hk, hparts]

theorem perm_insertBehind : (insertBehind K xs e).Perm (xs ++ [e]) := by
  have hperm : (xs.filter (fun a => !K.cmp e.1 a.1) ++
      xs.filter (fun a => K.cmp e.1 a.1)).Perm xs :=
    List.perm_append_comm.trans (List.filter_append_perm (fun a => K.cmp e.1 a.1) xs)
  exact List.perm_middle.trans ((hperm.cons e).trans (List.perm_append_singleton e xs).symm)

theorem sorted_insertBehind (h : Sorted K xs) : Sorted K (insertBehind K xs e) := by
  have hlow : ∀ a ∈ xs.filter (fun a => !K.cmp e.1 a.1), K.cmp e.1 a.1 = false := by
    intro a ha
    simpa using (List.mem_filter.mp ha).2
  have hhigh : ∀ b ∈ xs.filter (fun a => K.cmp e.1 a.1), K.cmp e.1 b.1 = true :=
    fun b hb => (List.mem_filter.mp hb).2
  refine List.pairwise_append.mpr ⟨h.filter _, List.pairwise_cons.mpr ⟨?_, h.filter _⟩, ?_⟩
  · intro b hb
    exact K.asymm _ _ (hhigh b hb)
  · intro a ha b hb
    rcases List.mem_cons.mp hb with rfl | hb
    · exact hlow a ha
    · cases hba : K.cmp b.1 a.1 with
      | false => rfl
      | true =>
          -- `e` would be below `a`
          have hab := K.asymm _ _ hba
          have hea := cmp_mono hab (hhigh b hb)
          rw [hlow a ha] at hea
          cases hea

/-- The pair is behind those that have its key. -/
theorem filter_insertBehind (h : Sorted K xs) (k : κ) :
    (insertBehind K xs e).filter (fun a => K.eq k a.1) =
      (xs ++ [e]).filter (fun a => K.eq k a.1) := by
  have hparts := congrArg (List.filter fun a => K.eq k a.1) (h.parts e.1)
  rw [List.filter_append] at hparts
  rw [insertBehind, List.filter_append, List.filter_append, List.filter_cons, List.filter_singleton]
  by_cases hk : K.eq k e.1 = true
  · -- nothing above `e` has the key
    have hnone : (xs.filter fun a => K.cmp e.1 a.1).filter (fun a => K.eq k a.1) = [] := by
      rw [List.filter_eq_nil_iff]
      intro a ha hka
      have hea := (List.mem_filter.mp ha).2
      obtain ⟨_, hek⟩ := (K.eq_iff k e.1).mp hk
      obtain ⟨hka, _⟩ := (K.eq_iff k a.1).mp hka
      rw [cmp_mono hka hea] at hek
      cases hek
    rw [hnone, List.append_nil] at hparts
    rw [hnone, hparts, if_pos hk, hk]
    rfl
  · rw [if_neg hk, hparts]
    simp [hk]

theorem SortedStably.insert (h : SortedStably K ops xs) :
    SortedStably K (ops ++ [e]) (insertBehind K xs e) where
  perm := perm_insertBehind.trans (h.perm.append_right [e])
  sorted := sorted_insertBehind h.sorted
  stable k := by rw [filter_insertBehind h.sorted, List.filter_append, List.filter_append, h.stable]

end Order

/-! ## Runs -/

section Runs

variable {K : KeyCompare κ} {ops : List (κ × ν)}

theorem mem_entries {e : κ × ν} : e ∈ entries T ↔ ∃ a ∈ T.inorder, (a.key, a.val) = e :=
  List.mem_map

/-- A node of the tree is where it says. -/
theorem Below.get_of_mem : ∀ {T : RBT (Cell κ ν)} {par : Ptr} {a : Cell κ ν}, Below nil par t T →
    a ∈ T.inorder → a.ptr ∈ ptrs T ∧
      ∃ n, t.heap.get a.ptr = some n ∧ n.key = a.key ∧ n.val = a.val
  | .node c l b r, par, a, h, ha => by
      rcases List.mem_append.mp ha with ha | ha
      · obtain ⟨hmem, hget⟩ := Below.get_of_mem h.left ha
        exact ⟨List.mem_cons_of_mem _ (List.mem_append_left _ hmem), hget⟩
      · rcases List.mem_cons.mp ha with rfl | ha
        · exact ⟨List.mem_cons_self, _, h.tree.1, Cell.key_node .., Cell.val_node ..⟩
        · obtain ⟨hmem, hget⟩ := Below.get_of_mem h.right ha
          exact ⟨List.mem_cons_of_mem _ (List.mem_append_right _ hmem), hget⟩

/-- `q` is a node of `T` with the key, or the sentinel when there is none. -/
def Found (K : KeyCompare κ) (key : κ) (nil : Ptr) (T : RBT (Cell κ ν)) (q : Ptr) : Prop :=
  (∃ a ∈ T.inorder, K.eq a.key key = true ∧ q = a.ptr) ∨
    (q = nil ∧ ∀ a ∈ T.inorder, K.eq a.key key = false)

/-- What is found in a part of a tree is found, when the rest does not have the key. -/
theorem Found.of_part {key : κ} {S : RBT (Cell κ ν)} {q : Ptr} (h : Found K key nil S q)
    (hin : ∀ a ∈ S.inorder, a ∈ T.inorder)
    (hout : ∀ a ∈ T.inorder, a ∈ S.inorder ∨ K.eq a.key key = false) : Found K key nil T q := by
  rcases h with ⟨a, ha, hfound⟩ | ⟨hnil, hnone⟩
  · exact Or.inl ⟨a, hin a ha, hfound⟩
  · exact Or.inr ⟨hnil, fun a ha => (hout a ha).elim (hnone a) id⟩

/-- The loop of `Search` ends at a node with the key, if there is one. -/
theorem searchLoop_spec (K : KeyCompare κ) (key : κ) : ∀ {T : RBT (Cell κ ν)} {par : Ptr}
    {fuel : ℕ}, Below nil par t T → T.height < fuel → Sorted K (entries T) →
      ∃ q, searchLoop K key fuel (some (ptrOf nil T)) t = some (some q) ∧ Found K key nil T q
  | .leaf, par, fuel + 1, h, _, _ => by
      refine ⟨nil, ?_, Or.inr ⟨rfl, fun a ha => by cases ha⟩⟩
      rw [searchLoop, h.nil_eq, ptrOf, if_pos rfl]
  | .node c l a r, par, fuel + 1, h, hfuel, hs => by
      rw [height] at hfuel
      have hfl : l.height < fuel := by omega
      have hfr : r.height < fuel := by omega
      rw [entries, inorder, List.map_append, List.map_cons] at hs
      obtain ⟨hl, har, hlr⟩ := List.pairwise_append.mp hs
      obtain ⟨har, hr⟩ := List.pairwise_cons.mp har
      rw [searchLoop, ptrOf, if_neg h.ne_nil]
      simp only [h.read, Cell.key_node, Option.bind_eq_bind, Option.bind_some]
      by_cases heq : K.eq a.key key = true
      · rw [if_pos heq]
        exact ⟨a.ptr, rfl, Or.inl ⟨a, by simp [inorder], heq, rfl⟩⟩
      rw [if_neg heq]
      have heq' : K.eq a.key key = false := eq_false_of_ne_true heq
      by_cases hlt : K.cmp key a.key = true
      · -- what is on the right is above the key
        have hright : ∀ b ∈ r.inorder, K.eq b.key key = false := fun b hb =>
          (not_eq_of_cmp (cmp_mono (har (b.key, b.val) (List.mem_map_of_mem hb)) hlt)).2
        obtain ⟨q, hrun, hq⟩ := searchLoop_spec K key h.left hfl hl
        rw [if_pos hlt]
        refine ⟨q, hrun, hq.of_part (fun b hb => List.mem_append_left _ hb) fun b hb => ?_⟩
        rcases List.mem_append.mp hb with hb | hb
        · exact Or.inl hb
        · rcases List.mem_cons.mp hb with rfl | hb
          · exact Or.inr heq'
          · exact Or.inr (hright b hb)
      · -- what is on the left is below it
        have hak : K.cmp a.key key = true := by
          cases hcmp : K.cmp a.key key with
          | true => rfl
          | false => exact absurd ((K.eq_iff _ _).mpr ⟨hcmp, eq_false_of_ne_true hlt⟩) heq
        have hleft : ∀ b ∈ l.inorder, K.eq b.key key = false := by
          intro b hb
          have hab := hlr (b.key, b.val) (List.mem_map_of_mem hb) _ List.mem_cons_self
          rcases K.weak a.key b.key key hak with h1 | h1
          · rw [hab] at h1
            cases h1
          · exact (not_eq_of_cmp h1).1
        obtain ⟨q, hrun, hq⟩ := searchLoop_spec K key h.right hfr hr
        rw [if_neg hlt]
        refine ⟨q, hrun, hq.of_part
          (fun b hb => List.mem_append_right _ (List.mem_cons_of_mem _ hb)) fun b hb => ?_⟩
        rcases List.mem_append.mp hb with hb | hb
        · exact Or.inr (hleft b hb)
        · rcases List.mem_cons.mp hb with rfl | hb
          · exact Or.inr heq'
          · exact Or.inl hb

/-- What holds after the insertions `ops`. -/
structure Inserted (K : KeyCompare κ) (ops : List (κ × ν)) (nil : Ptr) (t : RbTree κ ν)
    (T : RBT (Cell κ ν)) : Prop where
  holds : Holds nil t T
  redBlack : T.RedBlack
  size : t.size = UInt64.ofNat ops.length
  entries : SortedStably K ops (entries T)

/-- One more insertion: the tree, and the longest way down so far. -/
theorem Inserted.insert (h : Inserted K ops nil t T) (e : κ × ν) :
    ∃ t' T', insert K e.1 e.2 t = some t' ∧ Inserted K (ops ++ [e]) nil t' T' ∧
      t'.high = (if UInt64.ofNat (placeOf K e.1 T).length > t.high then
        UInt64.ofNat (placeOf K e.1 T).length else t.high) := by
  obtain ⟨t', T', hrun, hholds, hrb, hsize, _, hhigh, horder⟩ :=
    insert_spec K e.1 e.2 h.holds h.redBlack
  have hmono : T.inorder.Pairwise fun a b => K.cmp e.1 a.key = true → K.cmp e.1 b.key = true :=
    (List.pairwise_map.mp h.entries.sorted).imp cmp_mono
  obtain ⟨hbefore, hafter⟩ := before_after_locate [] hmono
  have hentries : RbTree.entries T' = insertBehind K (RbTree.entries T) e := by
    rw [RbTree.entries, horder, placeOf, hbefore, hafter]
    simp [before, after, insertBehind, RbTree.entries, List.filter_map, Function.comp_def]
  refine ⟨t', T', hrun, ⟨hholds, hrb, ?_, hentries ▸ h.entries.insert⟩, hhigh⟩
  rw [hsize, h.size, List.length_append, UInt64.ofNat_add]
  rfl

/-- The empty tree. -/
theorem inserted_new [Inhabited κ] [Inhabited ν] (K : KeyCompare κ) :
    Inserted K ([] : List (κ × ν)) 0 new .leaf := by
  refine ⟨⟨rfl, rfl, trivial, List.nodup_nil, ⟨_, rfl, rfl, rfl⟩⟩, ⟨rfl, ⟨0, rfl⟩, trivial⟩, rfl,
    ⟨List.Perm.refl _, List.Pairwise.nil, fun _ => rfl⟩⟩

/-- Every insertion ends, and the nodes make up a tree that is in order. -/
theorem run_inserted [Inhabited κ] [Inhabited ν] (K : KeyCompare κ) (ops : List (κ × ν)) :
    ∃ t T, run (fun e t => RbTree.insert K e.1 e.2 t) ops new = some t ∧ Inserted K ops 0 t T := by
  induction ops using List.reverseRecOn with
  | nil => exact ⟨new, .leaf, rfl, inserted_new K⟩
  | append_singleton ops e ih =>
      obtain ⟨t, T, hrun, h⟩ := ih
      obtain ⟨t', T', hins, h', _⟩ := h.insert e
      exact ⟨t', T', run_concat.mpr ⟨t, hrun, hins⟩, h'⟩

/-- After any insertions the nodes make up a red-black tree, whose elements are those that were
inserted, sorted by key and in order of insertion; `InorderWalk` lists them, and `Search` finds
the keys that are there. -/
theorem run_insert [Inhabited κ] [Inhabited ν] (K : KeyCompare κ) (ops : List (κ × ν)) :
    ∃ t nil T, run (fun e t => RbTree.insert K e.1 e.2 t) ops new = some t ∧ Holds nil t T ∧
      T.RedBlack ∧ t.size = UInt64.ofNat ops.length ∧
      (∃ walk, inorderWalk t = some walk ∧ SortedStably K ops walk) ∧
      ∀ key, ∃ q, search K key t = some q ∧
        ((∃ e ∈ ops, K.eq e.1 key = true) → ∃ p n, q = some p ∧ p ∈ ptrs T ∧
          t.heap.get p = some n ∧ K.eq n.key key = true ∧ (n.key, n.val) ∈ ops) ∧
        ((∀ e ∈ ops, K.eq e.1 key = false) → q = t.nil) := by
  obtain ⟨t, T, hrun, h⟩ := run_inserted K ops
  have hbelow : Below 0 0 t T := (holds_fill.mp h.holds : Place 0 t [] T).below
  refine ⟨t, 0, T, hrun, h.holds, h.redBlack, h.size, ⟨entries T, ?_, h.entries⟩, fun key => ?_⟩
  · rw [inorderWalk, h.holds.root]
    exact inorderWalkFrom_spec hbelow h.holds.length_lt
  · obtain ⟨q, hsearch, hq⟩ := searchLoop_spec K key hbelow h.holds.height_lt h.entries.sorted
    refine ⟨some q, ?_, ?_, ?_⟩
    · rw [search, h.holds.root]
      exact hsearch
    · rintro ⟨e, he, heq⟩
      rcases hq with ⟨a, ha, hak, rfl⟩ | ⟨_, hnone⟩
      · obtain ⟨hmem, n, hn, hkey, hval⟩ := hbelow.get_of_mem ha
        refine ⟨a.ptr, n, rfl, hmem, hn, hkey ▸ hak, ?_⟩
        rw [hkey, hval]
        exact h.entries.perm.mem_iff.mp (mem_entries.mpr ⟨a, ha, rfl⟩)
      · obtain ⟨a, ha, rfl⟩ := mem_entries.mp (h.entries.perm.mem_iff.mpr he)
        rw [hnone a ha] at heq
        cases heq
    · intro hnone
      rcases hq with ⟨a, ha, hak, _⟩ | ⟨rfl, _⟩
      · have he := h.entries.perm.mem_iff.mp (mem_entries.mpr ⟨a, ha, rfl⟩)
        rw [hnone _ he] at hak
        cases hak
      · exact h.holds.nil_eq.symm

/-- Six elements; one key comes three times. -/
def sixElements : List (Int32 × UInt64) := [(5, 1), (2, 2), (5, 3), (9, 4), (-1, 5), (5, 6)]

theorem run_insert_six :
    ∃ t nil T, run (fun e t => RbTree.insert .int e.1 e.2 t) sixElements new = some t ∧
      Holds nil t T ∧ T.RedBlack ∧ t.size = 6 ∧
      (∃ walk, inorderWalk t = some walk ∧ SortedStably .int sixElements walk) ∧
      ∀ key, ∃ q, search .int key t = some q ∧
        ((∃ e ∈ sixElements, KeyCompare.int.eq e.1 key = true) → ∃ p n, q = some p ∧
          p ∈ ptrs T ∧ t.heap.get p = some n ∧ KeyCompare.int.eq n.key key = true ∧
          (n.key, n.val) ∈ sixElements) ∧
        ((∀ e ∈ sixElements, KeyCompare.int.eq e.1 key = false) → q = t.nil) :=
  run_insert .int sixElements

end Runs

end RbTree

end LibC
