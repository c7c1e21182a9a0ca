/-
LibC.BinaryTree.InsertTheorems — what a `BinaryTree` stores.

The way down of `Insert` ends at the place that `locate` names, behind all values
that are not greater (`descend_spec`). The comparison that attaches the new node
is another one: an equal value goes to the left there, where the way down went to
the right. When the last node on the way holds an equal value, its left subtree
is overwritten. `Roomy` says of a tree that this does not happen, or that there
is nothing to lose.

The tree is sorted in any case, and so `Search` and `Delete` work in every state
(`run_holds`). But it has the multiset of values that it should have only as long
as every insertion finds room, and `run_stores_iff` says so.

No `sorry`, no `axiom`, no `native_decide`.
-/
import LibC.Lib.Run
import LibC.BinaryTree.DeleteTheorems
import Mathlib.Data.Multiset.AddSub

namespace LibC.BinaryTree

open LibC.Lib LibC.Lib.BinTree

variable {α : Type} {t t' : BinaryTree α} {path : List (Crumb (Cell α))} {T T' : BinTree (Cell α)}

/-! ## Nodes -/

/-- The nodes make up one tree only. -/
theorem TreeAt.unique {g : Ptr → Option (Node α)} : ∀ {T T' : BinTree (Cell α)}
    {par par' : Option Ptr}, TreeAt g par T → TreeAt g par' T' → ptrOf T = ptrOf T' → T = T'
  | .nil, .nil, _, _, _, _, _ => rfl
  | .node ⟨q, x⟩ l r, .node ⟨_, y⟩ l' r', _, _, ⟨ha, hl, hr⟩, ⟨ha', hl', hr'⟩, hq => by
      obtain rfl := Option.some.inj hq
      have hnode := Option.some.inj (ha.symm.trans ha')
      simp only [Cell.node, Node.mk.injEq] at hnode
      obtain ⟨rfl, hleft, hright, _⟩ := hnode
      rw [hl.unique hl' hleft, hr.unique hr' hright]

theorem Holds.unique (h : Holds t T) (h' : Holds t T') : T = T' :=
  h.tree.unique h'.tree (h.root.symm.trans h'.root)

/-- What is allocated is no node of the tree. -/
theorem makeNode_spec (h : Holds t T) (d : α) :
    ∃ t', makeNode d t = (some t.heap.size, t') ∧ Holds t' T ∧
      t'.heap.get t.heap.size = some ⟨d, none, none, none⟩ ∧ t.heap.size ∉ ptrs T := by
  have hout : t.heap.size ∉ ptrs T := by
    intro hm
    obtain ⟨n, hn⟩ := h.tree.live hm
    rw [Heap.get_size] at hn
    cases hn
  refine ⟨{ t with heap := (t.heap.alloc ⟨d, none, none, none⟩).2 }, rfl, ⟨h.root, ?_, h.nodup⟩, ?_,
    hout⟩
  · refine h.tree.congr fun q hq => ?_
    have hne : q ≠ t.heap.size := fun heq => hout (heq ▸ hq)
    exact (Heap.get_alloc ..).trans (if_neg hne)
  · exact (Heap.get_alloc ..).trans (if_pos rfl)

/-- A new node is apart from the others. -/
theorem Apart.new {ps as bs : List Ptr} {p z : Ptr} (h : Apart ps p as bs) (hp : z ≠ p)
    (hbs : z ∉ bs) (hps : z ∉ ps) : Apart ps p [z] bs where
  left hm := hp (List.mem_singleton.mp hm).symm
  right := h.right
  out := h.out
  nodup_left := List.nodup_singleton z
  nodup_right := h.nodup_right
  left_right q hq := by rwa [List.mem_singleton.mp hq]
  left_out q hq := by rwa [List.mem_singleton.mp hq]
  right_out := h.right_out

section Order

variable [LinearOrder α]

/-! ## The place of a value -/

/-- The path to the place that `Insert` goes to. -/
def placeOf (d : α) (T : BinTree (Cell α)) : List (Crumb (Cell α)) :=
  locate (fun c => decide (d < c.data)) T []

/-- The loop of `Insert` ends at the place of the value. -/
theorem descend_spec (d : α) : ∀ {T : BinTree (Cell α)} {par : Option Ptr}
    (path : List (Crumb (Cell α))) {fuel : ℕ}, TreeAt t.heap.get par T →
      (inorder T).length < fuel → descend d fuel (ptrOf T) (parentOf path) t =
        some (parentOf (locate (fun c => decide (d < c.data)) T path))
  | .nil, _, _, fuel + 1, _, _ => rfl
  | .node a l r, par, path, fuel + 1, ⟨ha, hl, hr⟩, hfuel => by
      rw [inorder_node, List.length_append, List.length_cons] at hfuel
      have hfl : (inorder l).length < fuel := by omega
      have hfr : (inorder r).length < fuel := by omega
      rw [descend, ptrOf, if_neg (Option.some_ne_none _), locate]
      simp only [read_eq ha, Cell.data_node, Option.bind_eq_bind, Option.bind_some,
        decide_eq_true_eq]
      by_cases hlt : d < a.data
      · rw [if_pos hlt, if_pos hlt]
        exact descend_spec d (⟨.left, a, r⟩ :: path) hl hfl
      · rw [if_neg hlt, if_neg hlt]
        exact descend_spec d (⟨.right, a, l⟩ :: path) hr hfr

/-- What is before the place is not greater, and what is after it is. -/
theorem split_placeOf (hs : Sorted T) (d : α) :
    (∀ c ∈ before (placeOf d T), c.data ≤ d) ∧ ∀ c ∈ after (placeOf d T), d < c.data := by
  have hmono : (inorder T).Pairwise fun a b =>
      decide (d < a.data) = true → decide (d < b.data) = true := by
    refine (List.pairwise_map.mp hs).imp fun hab ha => ?_
    exact decide_eq_true (lt_of_lt_of_le (of_decide_eq_true ha) hab)
  obtain ⟨hbefore, hafter⟩ := split_locate [] (fun _ h => by cases h)
    (fun _ h => by cases h) hmono
  exact ⟨fun c hc => not_lt.mp (of_decide_eq_false (hbefore c hc)),
    fun c hc => of_decide_eq_true (hafter c hc)⟩

theorem side_placeOf (d : α) (T : BinTree (Cell α)) :
    ∀ c ∈ placeOf d T, c.side = if d < c.elem.data then .left else .right := by
  intro c hc
  have hside := side_locate T (fun c hc => by cases hc) c hc
  simpa using hside

theorem fill_placeOf (d : α) (T : BinTree (Cell α)) : fill (placeOf d T) .nil = T :=
  fill_locate _ T []

/-! ## Room -/

/-- `Insert` does not overwrite anything: the last node that holds a value of at most `d`, if it
holds `d` itself and has no right child, has no left child either. -/
def Roomy (d : α) (t : BinaryTree α) : Prop :=
  ∀ T xs y ys, Holds t T → inorder T = xs ++ y :: ys → y.data = d → (∀ c ∈ ys, d < c.data) →
    t.read (some y.ptr) Node.right = some none → t.read (some y.ptr) Node.left = some none

/-- The last node on the way to the place of a value, if it has the same value, has an empty left
side. -/
def Free (d : α) (path : List (Crumb (Cell α))) : Prop :=
  ∀ c up, path = c :: up → c.elem.data = d → c.sib = .nil

theorem inorder_placeOf (d : α) (T : BinTree (Cell α)) :
    inorder T = before (placeOf d T) ++ after (placeOf d T) := by
  have horder := inorder_fill (placeOf d T) .nil
  rwa [fill_placeOf, inorder_nil, List.nil_append] at horder

/-- There is room when the last node on the way down has an empty left side, or another value. -/
theorem roomy_iff (h : Holds t T) (hs : Sorted T) (d : α) :
    Roomy d t ↔ Free d (placeOf d T) := by
  obtain ⟨hbefore, hafter⟩ := split_placeOf hs d
  have hplace : Place t (placeOf d T) .nil := by
    rw [← holds_fill, fill_placeOf]
    exact h
  constructor
  · intro hroom c up hpath hc
    have hside := side_placeOf d T c (hpath ▸ List.mem_cons_self)
    rw [hc, if_neg (lt_irrefl d)] at hside
    obtain ⟨e, y, u⟩ := c
    obtain rfl : e = .right := hside
    have horder : inorder T = (before up ++ inorder u) ++ y :: after up := by
      rw [inorder_placeOf d T, hpath]
      simp [before, after]
    rw [hpath] at hafter hplace
    have hget := (place_up.mp hplace).get
    have hleft := hroom T _ y _ h horder hc hafter (read_eq hget _)
    rw [read_eq hget] at hleft
    exact ptrOf_eq_none_iff.mp (Option.some.inj hleft)
  · intro hnil T' xs y ys h' horder hy hys hright
    obtain rfl := h.unique h'
    -- `y` is the last of those that are not greater
    have hlast : before (placeOf d T) = xs.filter (fun c => decide (c.data ≤ d)) ++ [y] := by
      have hsplit := congrArg (List.filter fun c => decide (c.data ≤ d))
        ((inorder_placeOf d T).symm.trans horder)
      rw [List.filter_append, List.filter_append, List.filter_cons] at hsplit
      have h1 : (before (placeOf d T)).filter (fun c => decide (c.data ≤ d)) = _ :=
        List.filter_eq_self.mpr fun c hc => decide_eq_true (hbefore c hc)
      have h2 : (after (placeOf d T)).filter (fun c => decide (c.data ≤ d)) = [] :=
        List.filter_eq_nil_iff.mpr fun c hc => by simpa using hafter c hc
      have h3 : ys.filter (fun c => decide (c.data ≤ d)) = [] :=
        List.filter_eq_nil_iff.mpr fun c hc => by simpa using hys c hc
      rwa [h1, h2, h3, List.append_nil, if_pos (decide_eq_true hy.le)] at hsplit
    obtain ⟨down, u, up, hpath⟩ := before_eq_concat hlast
    rw [hpath] at hplace
    have hget := (place_up.mp (place_append.mp hplace)).get
    rw [read_eq hget] at hright ⊢
    have hdown : fill down (.nil : BinTree (Cell α)) = .nil :=
      ptrOf_eq_none_iff.mp (Option.some.inj hright)
    cases down with
    | nil =>
        obtain rfl : u = .nil := hnil _ up hpath hy
        rfl
    | cons c down => exact absurd hdown (fill_cons_ne_nil c down _)

/-! ## The new node -/

/-- The tree with `z` at the end of a path; in the place of a left subtree when the last node holds
the same value. -/
def hang (z : Cell α) : List (Crumb (Cell α)) → BinTree (Cell α)
  | [] => .node z .nil .nil
  | c :: up =>
      if c.elem.data = z.data then fill up (.node c.elem (.node z .nil .nil) .nil)
      else fill (c :: up) (.node z .nil .nil)

/-- What `attach` makes of the tree. -/
theorem attach_spec (z : Cell α) (h : Place t path .nil)
    (hside : ∀ c ∈ path, c.side = if z.data < c.elem.data then .left else .right)
    (hz : TreeAt t.heap.get (parentOf path) (.node z .nil .nil)) (hout : z.ptr ∉ pathPtrs path) :
    ∃ t', attach z.data (parentOf path) (some z.ptr) t = some t' ∧ Holds t' (hang z path) := by
  cases path with
  | nil => exact ⟨{ t with root := some z.ptr }, rfl, rfl, hz, List.nodup_singleton _⟩
  | cons c up =>
      have hplace : Place t up (join c.side c.elem .nil c.sib) := place_up.mp h
      rw [mem_pathPtrs_cons, not_or, not_or] at hout
      obtain ⟨hzc, hzsib, hzup⟩ := hout
      have hc := hside c List.mem_cons_self
      have hrun : attach z.data (parentOf (c :: up)) (some z.ptr) t = t.write (some c.elem.ptr)
          (Node.setChild (if z.data > c.elem.data then .right else .left) (some z.ptr)) := by
        simp only [attach, parentOf, if_neg (Option.some_ne_none c.elem.ptr), read_eq hplace.get,
          Cell.data_node, Option.bind_eq_bind, Option.bind_some]
      by_cases heq : c.elem.data = z.data
      · -- the way down went to the right, and the node goes to the left
        rw [heq, if_neg (lt_irrefl _)] at hc
        rw [hc] at hplace
        have hleft : Place t up (join .left c.elem c.sib .nil) := hplace
        obtain ⟨t', hrun', h'⟩ :=
          setChild_spec hleft hz (hleft.apart.new hzc List.not_mem_nil hzup)
        refine ⟨t', ?_, ?_⟩
        · rw [hrun, heq, if_neg (lt_irrefl _)]
          exact hrun'
        · rw [hang, if_pos heq]
          exact holds_fill.mpr h'
      · obtain ⟨t', hrun', h'⟩ := setChild_spec hplace hz (hplace.apart.new hzc hzsib hzup)
        refine ⟨t', ?_, ?_⟩
        · have hsame : (if z.data > c.elem.data then Side.right else .left) = c.side := by
            rw [hc]
            rcases lt_or_gt_of_ne heq with hlt | hlt
            · rw [if_pos hlt, if_neg (not_lt_of_gt hlt)]
            · rw [if_neg (not_lt_of_gt hlt), if_pos hlt]
          rw [hrun, hsame]
          exact hrun'
        · rw [hang, if_neg heq]
          exact holds_fill.mpr (place_up.mpr h')

/-- `Insert` hangs a new node at the place of the value. -/
theorem insert_holds (h : Holds t T) (d : α) :
    ∃ t' z, insert d t = some t' ∧ z.data = d ∧ Holds t' (hang z (placeOf d T)) := by
  obtain ⟨t0, hmake, h0, hget0, hout⟩ := makeNode_spec h d
  obtain ⟨t1, hrun1, hroot1, hget1, hkeep1⟩ :=
    write_eq hget0 fun n => { n with parent := parentOf (placeOf d T) }
  have h1 : Holds t1 T :=
    ⟨hroot1.trans h0.root, hkeep1.tree_of_notMem h0.tree hout, h.nodup⟩
  have hplace1 : Place t1 (placeOf d T) .nil := by
    rw [← holds_fill, fill_placeOf]
    exact h1
  have hout1 : t.heap.size ∉ pathPtrs (placeOf d T) := by
    rw [pathPtrs, ← inorder_placeOf]
    exact hout
  have hdescend : descend d (t0.heap.size + 1) t0.root none t0 =
      some (parentOf (placeOf d T)) := by
    rw [h0.root]
    exact descend_spec d [] h0.tree (Nat.lt_succ_of_le h0.place.length_le)
  obtain ⟨t', hattach, h'⟩ := attach_spec ⟨t.heap.size, d⟩ hplace1 (side_placeOf d T)
    ⟨hget1, trivial, trivial⟩ hout1
  refine ⟨t', ⟨t.heap.size, d⟩, ?_, rfl, h'⟩
  simp only [insert, hmake, insertNode, read_eq hget0, Option.bind_eq_bind, Option.bind_some,
    hdescend, hrun1]
  exact hattach

/-! ## What is in the tree -/

/-- Values that are equal to `d`, between those that are not greater and those that are not
smaller. -/
theorem sorted_between {xs ys : List α} {d : α} (n : ℕ) (hxs : xs.Pairwise (· ≤ ·))
    (hys : ys.Pairwise (· ≤ ·)) (hx : ∀ a ∈ xs, a ≤ d) (hy : ∀ b ∈ ys, d ≤ b) :
    (xs ++ (List.replicate n d ++ ys)).Pairwise (· ≤ ·) := by
  refine List.pairwise_append.mpr ⟨hxs, List.pairwise_append.mpr ⟨?_, hys, ?_⟩, ?_⟩
  · exact List.pairwise_replicate.mpr (Or.inr (le_refl d))
  · intro a ha b hb
    rw [List.eq_of_mem_replicate ha]
    exact hy b hb
  · intro a ha b hb
    rcases List.mem_append.mp hb with hb | hb
    · rw [List.eq_of_mem_replicate hb]
      exact hx a ha
    · exact (hx a ha).trans (hy b hb)

/-- A path to the place of a value, when the last node on it holds the same value. -/
theorem placeOf_of_eq {d : α} {c : Crumb (Cell α)} {up : List (Crumb (Cell α))}
    (hpath : placeOf d T = c :: up) (hc : c.elem.data = d) :
    before (placeOf d T) = before up ++ (inorder c.sib ++ [c.elem]) ∧
      after (placeOf d T) = after up := by
  have hside := side_placeOf d T c (hpath ▸ List.mem_cons_self)
  rw [hc, if_neg (lt_irrefl d)] at hside
  obtain ⟨e, y, u⟩ := c
  obtain rfl : e = .right := hside
  rw [hpath]
  exact ⟨rfl, rfl⟩

/-- A new node in an empty place. -/
theorem values_hang (z : Cell α) (path : List (Crumb (Cell α)))
    (hne : ∀ c up, path = c :: up → c.elem.data ≠ z.data) :
    values (hang z path) = (before path).map Cell.data ++
      (List.replicate 1 z.data ++ (after path).map Cell.data) := by
  have hfill : hang z path = fill path (.node z .nil .nil) := by
    cases path with
    | nil => rfl
    | cons c up => exact if_neg (hne c up rfl)
  simp [hfill, values, inorder_fill]

/-- A new node in the place of a left subtree. -/
theorem values_hang_of_eq (z : Cell α) {c : Crumb (Cell α)} (up : List (Crumb (Cell α)))
    (hc : c.elem.data = z.data) :
    values (hang z (c :: up)) = (before up).map Cell.data ++
      (List.replicate 2 z.data ++ (after up).map Cell.data) := by
  rw [hang, if_pos hc, values, inorder_fill]
  simp [hc]

/-- The tree is sorted afterwards. It has one more value when the place is free, and not more than
before when it is not. -/
theorem hang_spec (hs : Sorted T) (z : Cell α) :
    Sorted (hang z (placeOf z.data T)) ∧
      (Free z.data (placeOf z.data T) →
        (values (hang z (placeOf z.data T))).Perm (z.data :: values T)) ∧
      (¬ Free z.data (placeOf z.data T) →
        (values (hang z (placeOf z.data T))).length ≤ (values T).length) := by
  obtain ⟨hbefore, hafter⟩ := split_placeOf hs z.data
  have horder : values T = (before (placeOf z.data T)).map Cell.data ++
      (after (placeOf z.data T)).map Cell.data := by
    rw [values, ← List.map_append, ← inorder_placeOf]
  rw [Sorted, horder, List.pairwise_append] at hs
  obtain ⟨hsb, hsa, _⟩ := hs
  have hx : ∀ a ∈ (before (placeOf z.data T)).map Cell.data, a ≤ z.data := by
    simpa using hbefore
  have hy : ∀ b ∈ (after (placeOf z.data T)).map Cell.data, z.data ≤ b := by
    simpa using fun c hc => (hafter c hc).le
  by_cases hover : ∃ c up, placeOf z.data T = c :: up ∧ c.elem.data = z.data
  · obtain ⟨c, up, hpath, hc⟩ := hover
    obtain ⟨hb, ha⟩ := placeOf_of_eq hpath hc
    have hvalues := values_hang_of_eq z up hc
    rw [← hpath] at hvalues
    rw [ha] at hsa hy
    rw [hb, List.map_append] at hsb hx
    have hold : values T = (before up).map Cell.data ++
        (values c.sib ++ z.data :: (after up).map Cell.data) := by
      rw [horder, hb, ha]
      simp [values, hc]
    rw [Sorted, hvalues, hold]
    refine ⟨sorted_between 2 (List.pairwise_append.mp hsb).1 hsa
      (fun a ha => hx a (List.mem_append_left _ ha)) hy, fun hfree => ?_, fun hfree => ?_⟩
    · rw [hfree c up hpath hc]
      exact List.perm_middle
    · have hne : c.sib ≠ .nil := by
        intro hnil
        refine hfree fun c' up' hpath' _ => ?_
        obtain ⟨rfl, _⟩ := List.cons.inj (hpath.symm.trans hpath')
        exact hnil
      have hpos : 0 < (values c.sib).length := by
        rw [values, List.length_map]
        exact List.length_pos_iff.mpr fun hnil => hne (inorder_eq_nil_iff.mp hnil)
      simp only [List.length_append, List.length_replicate, List.length_cons]
      omega
  · have hvalues := values_hang z (placeOf z.data T) fun c up hpath hc => hover ⟨c, up, hpath, hc⟩
    rw [Sorted, hvalues, horder]
    refine ⟨sorted_between 1 hsb hsa hx hy, fun _ => List.perm_middle, fun hfree => ?_⟩
    exact absurd (fun c up hpath hc => absurd ⟨c, up, hpath, hc⟩ hover) hfree

/-- `Insert`, on any tree whose values are sorted. -/
theorem insert_spec (h : Holds t T) (hs : Sorted T) (d : α) :
    ∃ t' T', insert d t = some t' ∧ Holds t' T' ∧ Sorted T' ∧
      (Roomy d t → (values T').Perm (d :: values T)) ∧
      (¬ Roomy d t → (values T').length ≤ (values T).length) := by
  obtain ⟨t', z, hrun, rfl, h'⟩ := insert_holds h d
  obtain ⟨hs', hroom, hno⟩ := hang_spec hs z
  have hiff : Roomy z.data t ↔ Free z.data (placeOf z.data T) := roomy_iff h hs z.data
  exact ⟨t', _, hrun, h', hs', fun hr => hroom (hiff.mp hr),
    fun hr => hno fun hf => hr (hiff.mpr hf)⟩

end Order

/-! ## Runs -/

/-- A call. -/
inductive TreeOp (α : Type) where
  | insert (data : α)
  | delete (data : α)

section Runs

variable [LinearOrder α]

/-- The call on a tree. -/
def TreeOp.step : TreeOp α → BinaryTree α → Option (BinaryTree α)
  | .insert d => BinaryTree.insert d
  | .delete d => BinaryTree.delete d

/-- The call on a multiset. -/
def TreeOp.apply : TreeOp α → Multiset α → Multiset α
  | .insert d, m => d ::ₘ m
  | .delete d, m => m.erase d

/-- The multiset that a tree has to have after the calls. -/
def stored (ops : List (TreeOp α)) : Multiset α := ops.foldl (fun m o => o.apply m) 0

theorem stored_concat (ops : List (TreeOp α)) (o : TreeOp α) :
    stored (ops ++ [o]) = o.apply (stored ops) := by
  rw [stored, List.foldl_append]
  rfl

/-- The call is no insertion that overwrites a subtree. -/
def TreeOp.Fits : TreeOp α → BinaryTree α → Prop
  | .insert d, t => Roomy d t
  | .delete _, _ => True

/-- The walk lists the multiset in order, and `Search` finds what is in it. -/
structure Stores (t : BinaryTree α) (m : Multiset α) : Prop where
  walk : ∃ xs, inorderWalk t = some xs ∧ xs.Pairwise (· ≤ ·) ∧ (xs : Multiset α) = m
  search : ∀ d, ∃ q, search d t = some q ∧ (q ≠ none ↔ d ∈ m) ∧
    ∀ p, q = some p → ∃ n, t.heap.get p = some n ∧ n.data = d

/-- A sorted tree stores its values, and nothing else. -/
theorem Holds.stores_iff (h : Holds t T) (hs : Sorted T) (m : Multiset α) :
    Stores t m ↔ (values T : Multiset α) = m := by
  constructor
  · rintro ⟨⟨xs, hwalk, _, hm⟩, _⟩
    obtain rfl := Option.some.inj (h.inorderWalk.symm.trans hwalk)
    exact hm
  · rintro rfl
    refine ⟨⟨values T, h.inorderWalk, hs, rfl⟩, fun d => ?_⟩
    obtain ⟨q, hrun, hfound⟩ := h.search hs d
    refine ⟨q, hrun, ?_⟩
    rcases hfound with ⟨path, a, l, r, rfl, rfl, rfl⟩ | ⟨rfl, hno⟩
    · have hmem : a ∈ inorder (fill path (.node a l r)) := by simp [inorder_fill]
      refine ⟨⟨fun _ => List.mem_map_of_mem hmem, fun _ => Option.some_ne_none _⟩, fun p hp => ?_⟩
      obtain rfl := Option.some.inj hp
      exact h.tree.get_of_mem hmem
    · exact ⟨⟨fun hq => absurd rfl hq, fun hm => absurd hm hno⟩, fun p hp => by cases hp⟩

/-- A call leaves a sorted tree. -/
theorem TreeOp.step_holds (o : TreeOp α) (h : Holds t T) (hs : Sorted T) :
    ∃ t' T', o.step t = some t' ∧ Holds t' T' ∧ Sorted T' := by
  cases o with
  | insert d =>
      obtain ⟨t', T', hrun, h', hs', _⟩ := insert_spec h hs d
      exact ⟨t', T', hrun, h', hs'⟩
  | delete d =>
      obtain ⟨t', T', _, _, hrun, h', hs', _⟩ := delete_takes_out h hs d
      exact ⟨t', T', hrun, h', hs'⟩

/-- Every run of calls ends, and the nodes make up a sorted tree. -/
theorem run_holds (ops : List (TreeOp α)) :
    ∃ t, run TreeOp.step ops new = some t ∧ ∃ T, Holds t T ∧ Sorted T := by
  refine run_total (fun t => ∃ T, Holds t T ∧ Sorted T) ?_ ops new
    ⟨.nil, ⟨rfl, trivial, List.nodup_nil⟩, List.Pairwise.nil⟩
  rintro o t ⟨T, h, hs⟩
  obtain ⟨t', T', hrun, h', hs'⟩ := o.step_holds h hs
  exact ⟨t', hrun, T', h', hs'⟩

/-- A call on a tree that stores a multiset. -/
theorem TreeOp.step_stores (o : TreeOp α) {m : Multiset α} (h : Holds t T) (hs : Sorted T)
    (hm : (values T : Multiset α) = m) {t' : BinaryTree α} (hstep : o.step t = some t') :
    Stores t' (o.apply m) ↔ o.Fits t := by
  subst hm
  cases o with
  | insert d =>
      obtain ⟨t1, T', hrun, h', hs', hroom, hno⟩ := insert_spec h hs d
      obtain rfl := Option.some.inj (hrun.symm.trans hstep)
      rw [h'.stores_iff hs']
      constructor
      · intro heq
        by_contra hfull
        have hlen := hno hfull
        have hcard := congrArg Multiset.card heq
        rw [TreeOp.apply, Multiset.card_cons, Multiset.coe_card, Multiset.coe_card] at hcard
        omega
      · intro hfit
        exact Multiset.coe_eq_coe.mpr (hroom hfit)
  | delete d =>
      obtain ⟨t1, T', _, _, hrun, h', hs', _, hcase⟩ := delete_takes_out h hs d
      obtain rfl := Option.some.inj (hrun.symm.trans hstep)
      rw [h'.stores_iff hs']
      refine ⟨fun _ => trivial, fun _ => ?_⟩
      rcases hcase with ⟨_, hout, _, rfl⟩ | ⟨z, xs, ys, _, rfl, horder, horder', _⟩
      · exact (Multiset.erase_of_notMem hout).symm
      · have hold : (values T).Perm (z.data :: values T') := by
          rw [values, values, horder, horder', ← List.map_cons]
          exact List.perm_middle.map _
        rw [TreeOp.apply, Multiset.coe_eq_coe.mpr hold, ← Multiset.cons_coe,
          Multiset.erase_cons_head]

/-- **Insertion and deletion.** After every call of a run the tree stores what was inserted and not
deleted, exactly when no insertion of the run overwrites a subtree. -/
theorem run_stores_iff (ops : List (TreeOp α)) :
    (∀ past rest, ops = past ++ rest → ∃ t, run TreeOp.step past new = some t ∧
        Stores t (stored past)) ↔ Along TreeOp.step TreeOp.Fits ops new := by
  have hnew : Holds (new : BinaryTree α) .nil := ⟨rfl, trivial, List.nodup_nil⟩
  refine run_always_iff (fun t => ∃ T, Holds t T ∧ Sorted T) (fun past t => Stores t (stored past))
    ?_ ?_ ops [] new ⟨.nil, hnew, List.Pairwise.nil⟩
    ((hnew.stores_iff List.Pairwise.nil _).mpr rfl)
  · rintro o t ⟨T, h, hs⟩
    obtain ⟨t', T', hrun, h', hs'⟩ := o.step_holds h hs
    exact ⟨t', hrun, fun _ => ⟨T', h', hs'⟩⟩
  · rintro past o t t' ⟨T, h, hs⟩ hgood hstep
    rw [stored_concat]
    exact o.step_stores h hs ((h.stores_iff hs _).mp hgood) hstep

/-- `2`, `1` and `2` again: the new node takes the place of the one that holds `1`. -/
theorem insert_overwrites : ∃ t,
    run TreeOp.step [.insert 2, .insert 1, .insert 2] (new : BinaryTree ℤ) = some t ∧
      inorderWalk t = some [2, 2] ∧ search 1 t = some none ∧
      (1 : ℤ) ∈ stored [.insert 2, .insert 1, .insert 2] ∧
      ¬ Stores t (stored [.insert 2, .insert 1, .insert 2]) := by
  refine ⟨_, rfl, by decide, by decide, by decide, ?_⟩
  rintro ⟨_, hsearch⟩
  obtain ⟨q, hrun, hiff, _⟩ := hsearch 1
  have hnone : q = none := Option.some.inj (hrun.symm.trans (by decide))
  exact hiff.mpr (by decide) hnone

end Runs

end LibC.BinaryTree
