/-
LibC.Lib.RedBlack — red-black trees, and paths into them.

A `Frame` is a node on the way down, with the side it was left on and the
subtree on the other one; a path is a list of frames, the last one first, and
`fill` puts a subtree into the place it leads to. What is mirrored is said once:
`join d` makes a node whose first subtree is on side `d`.

A new element takes the place of a leaf (`locate`), in red. The tree is in order
then but for one thing: the new node and its parent may both be red. `Fix` is the
invariant of the repair, and there is one rule for each of its steps: `recolor`
moves the place two levels up, `rotateIn` moves it to the outside, and
`rotateOut` ends the repair. `done` says what there is when the parent is black.

The height of such a tree is at most twice the logarithm of its size
(`RedBlack.pow_height_le`), and no path to a place for a new element is longer.

No `sorry`, no `axiom`, no `native_decide`.
-/
import Mathlib.Algebra.Order.Ring.Int
import Mathlib.Data.List.Basic

namespace LibC.Lib

/-- A colour. -/
inductive Color where
  | red
  | black
  deriving DecidableEq

/-- A side. -/
inductive Side where
  | left
  | right
  deriving DecidableEq

/-- The other side. -/
def Side.opp : Side → Side
  | .left => .right
  | .right => .left

theorem Side.eq_opp_of_ne {d e : Side} (h : d ≠ e) : d = e.opp := by
  cases d <;> cases e <;> first | rfl | exact absurd rfl h

/-- A tree of coloured nodes. -/
inductive RBT (α : Type) where
  | leaf
  | node (c : Color) (l : RBT α) (a : α) (r : RBT α)

/-- A node on a path: the side that was taken, the colour and the element of the node, and
the subtree on the other side. -/
structure Frame (α : Type) where
  side : Side
  color : Color
  elem : α
  sib : RBT α

namespace RBT

variable {α : Type}

/-! ## Trees -/

/-- A node with the subtree `t` on side `d` and `u` on the other. -/
def join (d : Side) (c : Color) (t : RBT α) (a : α) (u : RBT α) : RBT α :=
  match d with
  | .left => node c t a u
  | .right => node c u a t

theorem join_opp (d : Side) (c : Color) (t : RBT α) (a : α) (u : RBT α) :
    join d.opp c t a u = join d c u a t := by cases d <;> rfl

/-- Every node is made on either side. -/
theorem node_eq_join (d : Side) (c : Color) (l : RBT α) (a : α) (r : RBT α) :
    ∃ t u, node c l a r = join d c t a u := by
  cases d with
  | left => exact ⟨l, r, rfl⟩
  | right => exact ⟨r, l, rfl⟩

/-- The elements in order. -/
def inorder : RBT α → List α
  | leaf => []
  | node _ l a r => l.inorder ++ a :: r.inorder

/-- The colour of the root; a leaf is black. -/
def color : RBT α → Color
  | leaf => .black
  | node c _ _ _ => c

@[simp] theorem color_join (d : Side) (c : Color) (t : RBT α) (a : α) (u : RBT α) :
    (join d c t a u).color = c := by cases d <;> rfl

/-- Every path from the root to a leaf has `n` black nodes. -/
def Balanced : RBT α → ℕ → Prop
  | leaf, n => n = 0
  | node .red l _ r, n => l.Balanced n ∧ r.Balanced n
  | node .black _ _ _, 0 => False
  | node .black l _ r, n + 1 => l.Balanced n ∧ r.Balanced n

/-- No red node has a red child. -/
def NoRedRed : RBT α → Prop
  | leaf => True
  | node c l _ r => (c = .red → l.color = .black ∧ r.color = .black) ∧ l.NoRedRed ∧ r.NoRedRed

/-- A red-black tree. -/
structure RedBlack (t : RBT α) : Prop where
  root : t.color = .black
  balanced : ∃ n, t.Balanced n
  noRedRed : t.NoRedRed

theorem balanced_red (d : Side) (t : RBT α) (a : α) (u : RBT α) (n : ℕ) :
    (join d .red t a u).Balanced n ↔ t.Balanced n ∧ u.Balanced n := by
  cases d with
  | left => exact Iff.rfl
  | right => exact And.comm

theorem balanced_black (d : Side) (t : RBT α) (a : α) (u : RBT α) (n : ℕ) :
    (join d .black t a u).Balanced (n + 1) ↔ t.Balanced n ∧ u.Balanced n := by
  cases d with
  | left => exact Iff.rfl
  | right => exact And.comm

theorem noRedRed_join (d : Side) (c : Color) (t : RBT α) (a : α) (u : RBT α) :
    (join d c t a u).NoRedRed ↔
      (c = .red → t.color = .black ∧ u.color = .black) ∧ t.NoRedRed ∧ u.NoRedRed := by
  cases d with
  | left => exact Iff.rfl
  | right =>
      constructor
      · rintro ⟨h, hu, ht⟩
        exact ⟨fun hc => (h hc).symm, ht, hu⟩
      · rintro ⟨h, ht, hu⟩
        exact ⟨fun hc => (h hc).symm, hu, ht⟩

/-- A tree with a black root. -/
def blacken : RBT α → RBT α
  | leaf => leaf
  | node _ l a r => node .black l a r

@[simp] theorem inorder_blacken (t : RBT α) : t.blacken.inorder = t.inorder := by
  cases t <;> rfl

theorem blacken_of_black {t : RBT α} (h : t.color = .black) : t.blacken = t := by
  cases t with
  | leaf => rfl
  | node c l a r =>
      obtain rfl : c = .black := h
      rfl

theorem color_blacken (t : RBT α) : t.blacken.color = .black := by cases t <;> rfl

theorem NoRedRed.blacken {t : RBT α} (h : t.NoRedRed) : t.blacken.NoRedRed := by
  cases t with
  | leaf => trivial
  | node c l a r => exact ⟨fun hc => (by cases hc), h.2⟩

/-- A red root that is made black counts. -/
theorem Balanced.blacken {t : RBT α} {n : ℕ} (h : t.Balanced n) (hred : t.color = .red) :
    t.blacken.Balanced (n + 1) := by
  cases t with
  | leaf => cases hred
  | node c l a r =>
      obtain rfl : c = .red := hred
      exact h

/-! ## The height -/

/-- The most nodes on a path from the root to a leaf. -/
def height : RBT α → ℕ
  | leaf => 0
  | node _ l _ r => max l.height r.height + 1

theorem height_le_length : ∀ t : RBT α, t.height ≤ t.inorder.length
  | leaf => Nat.le_refl 0
  | node c l a r => by
      have hl := height_le_length l
      have hr := height_le_length r
      rw [height, inorder, List.length_append, List.length_cons]
      omega

/-- With `n` black nodes on every path there are at least `2 ^ n - 1` nodes. -/
theorem Balanced.pow_le : ∀ {t : RBT α} {n : ℕ}, t.Balanced n → 2 ^ n ≤ t.inorder.length + 1
  | leaf, n, h => by
      obtain rfl : n = 0 := h
      exact Nat.le_refl 1
  | node .red l a r, n, ⟨hl, _⟩ => by
      have hle := hl.pow_le
      rw [inorder, List.length_append, List.length_cons]
      omega
  | node .black l a r, n + 1, ⟨hl, hr⟩ => by
      have hle := hl.pow_le
      have hre := hr.pow_le
      rw [inorder, List.length_append, List.length_cons, Nat.pow_succ]
      omega

/-- Every red node on a path has a black one below it, but for a red root. -/
theorem Balanced.height_le : ∀ {t : RBT α} {n : ℕ}, t.Balanced n → t.NoRedRed →
    t.height ≤ 2 * n + 1 ∧ (t.color = .black → t.height ≤ 2 * n)
  | leaf, _, _, _ => ⟨Nat.zero_le _, fun _ => Nat.zero_le _⟩
  | node .red l a r, n, ⟨hl, hr⟩, ⟨hred, hnl, hnr⟩ => by
      obtain ⟨hlc, hrc⟩ := hred rfl
      have hle := (hl.height_le hnl).2 hlc
      have hre := (hr.height_le hnr).2 hrc
      refine ⟨?_, fun hc => by cases hc⟩
      rw [height]
      omega
  | node .black l a r, n + 1, ⟨hl, hr⟩, ⟨_, hnl, hnr⟩ => by
      have hle := (hl.height_le hnl).1
      have hre := (hr.height_le hnr).1
      have hheight : (node .black l a r).height ≤ 2 * (n + 1) := by
        rw [height]
        omega
      exact ⟨Nat.le_succ_of_le hheight, fun _ => hheight⟩

/-- The height of a red-black tree is at most twice the logarithm of its size. -/
theorem RedBlack.pow_height_le {t : RBT α} (h : t.RedBlack) :
    2 ^ t.height ≤ (t.inorder.length + 1) ^ 2 := by
  obtain ⟨n, hb⟩ := h.balanced
  calc 2 ^ t.height ≤ 2 ^ (n * 2) :=
        Nat.pow_le_pow_right (by decide) (Nat.mul_comm 2 n ▸ (hb.height_le h.noRedRed).2 h.root)
    _ = (2 ^ n) ^ 2 := Nat.pow_mul ..
    _ ≤ (t.inorder.length + 1) ^ 2 := Nat.pow_le_pow_left hb.pow_le 2

/-! ## Rotations -/

/-- The order of the elements of a node. -/
def ordered (d : Side) (xs : List α) (a : α) (ys : List α) : List α :=
  match d with
  | .left => xs ++ a :: ys
  | .right => ys ++ a :: xs

theorem inorder_join (d : Side) (c : Color) (t : RBT α) (a : α) (u : RBT α) :
    (join d c t a u).inorder = ordered d t.inorder a u.inorder := by cases d <;> rfl

/-- A rotation keeps the order. -/
theorem inorder_rotate (d : Side) (cx cy cx' cy' : Color) (A : RBT α) (x : α) (B : RBT α) (y : α)
    (C : RBT α) : (join d cx A x (join d cy B y C)).inorder =
      (join d cy' (join d cx' A x B) y C).inorder := by
  cases d <;> simp [join, inorder]

/-! ## Paths -/

/-- Put a tree into the place that a path leads to. -/
def fill : List (Frame α) → RBT α → RBT α
  | [], t => t
  | f :: up, t => fill up (join f.side f.color t f.elem f.sib)

/-- The elements before the place. -/
def before : List (Frame α) → List α
  | [] => []
  | f :: up =>
      before up ++ match f.side with
        | .left => []
        | .right => f.sib.inorder ++ [f.elem]

/-- The elements after the place. -/
def after : List (Frame α) → List α
  | [] => []
  | f :: up =>
      (match f.side with
        | .left => f.elem :: f.sib.inorder
        | .right => []) ++ after up

theorem inorder_fill : ∀ (path : List (Frame α)) (t : RBT α),
    (fill path t).inorder = before path ++ t.inorder ++ after path
  | [], t => by simp [fill, before, after]
  | ⟨.left, c, a, u⟩ :: up, t => by
      rw [fill, inorder_fill up]
      simp [join, inorder, before, after]
  | ⟨.right, c, a, u⟩ :: up, t => by
      rw [fill, inorder_fill up]
      simp [join, inorder, before, after]

/-- The colour of the node a path ends in; above the root it is black. -/
def headColor : List (Frame α) → Color
  | [] => .black
  | f :: _ => f.color

/-- A path in a red-black tree, to a place for a subtree with `n` black nodes on every way
down. -/
def PathOk : List (Frame α) → ℕ → Prop
  | [], _ => True
  | f :: up, n =>
      f.sib.Balanced n ∧ f.sib.NoRedRed ∧
        (f.color = .red → f.sib.color = .black ∧ headColor up = .black ∧ up ≠ []) ∧
        PathOk up (if f.color = .black then n + 1 else n)

/-- A tree that fits gives a tree that is in order, up to the colour of the root. -/
theorem PathOk.fill : ∀ {path : List (Frame α)} {n : ℕ} {t : RBT α}, PathOk path n →
    t.Balanced n → t.NoRedRed → (headColor path = .red → t.color = .black) →
      (∃ m, (fill path t).Balanced m) ∧ (fill path t).NoRedRed ∧
        (path ≠ [] → (fill path t).color = .black)
  | [], n, t, _, hb, hn, _ => ⟨⟨n, hb⟩, hn, fun hne => absurd rfl hne⟩
  | ⟨d, .red, a, u⟩ :: up, n, t, ⟨hub, hun, hred, hup⟩, hb, hn, hc => by
      obtain ⟨hu, hhead, hne⟩ := hred rfl
      have h := PathOk.fill (t := join d .red t a u) hup ((balanced_red ..).mpr ⟨hb, hub⟩)
        ((noRedRed_join ..).mpr ⟨fun _ => ⟨hc rfl, hu⟩, hn, hun⟩)
        (fun hh => by rw [hhead] at hh; cases hh)
      exact ⟨h.1, h.2.1, fun _ => h.2.2 hne⟩
  | ⟨d, .black, a, u⟩ :: up, n, t, ⟨hub, hun, _, hup⟩, hb, hn, _ => by
      have h := PathOk.fill (t := join d .black t a u) hup ((balanced_black ..).mpr ⟨hb, hub⟩)
        ((noRedRed_join ..).mpr ⟨fun hc => by (cases hc), hn, hun⟩) (fun _ => color_join ..)
      refine ⟨h.1, h.2.1, fun _ => ?_⟩
      cases up with
      | nil => exact color_join ..
      | cons f up => exact h.2.2 (List.cons_ne_nil _ _)

/-! ## The place of a new element -/

/-- The path to the leaf that is reached by going left where `lt` holds. -/
def locate (lt : α → Bool) : RBT α → List (Frame α) → List (Frame α)
  | leaf, path => path
  | node c l a r, path =>
      if lt a then locate lt l (⟨.left, c, a, r⟩ :: path)
      else locate lt r (⟨.right, c, a, l⟩ :: path)

theorem fill_locate (lt : α → Bool) : ∀ (t : RBT α) (path : List (Frame α)),
    fill (locate lt t path) leaf = fill path t
  | leaf, _ => rfl
  | node c l a r, path => by
      rw [locate]
      split
      · exact fill_locate lt l _
      · exact fill_locate lt r _

/-- The path goes down one node at a time. -/
theorem length_locate_le (lt : α → Bool) : ∀ (t : RBT α) (path : List (Frame α)),
    (locate lt t path).length ≤ path.length + t.height
  | leaf, path => Nat.le_refl _
  | node c l a r, path => by
      rw [locate, height]
      split
      · have h := length_locate_le lt l (⟨.left, c, a, r⟩ :: path)
        rw [List.length_cons] at h
        omega
      · have h := length_locate_le lt r (⟨.right, c, a, l⟩ :: path)
        rw [List.length_cons] at h
        omega

/-- On the way down `lt` decides. -/
theorem side_locate {lt : α → Bool} : ∀ {t : RBT α} {path : List (Frame α)},
    (∀ f ∈ path, f.side = if lt f.elem then .left else .right) →
      ∀ f ∈ locate lt t path, f.side = if lt f.elem then .left else .right
  | leaf, _, h => h
  | node c l a r, path, h => by
      rw [locate]
      split
      · next ha => exact side_locate (List.forall_mem_cons.mpr ⟨(if_pos ha).symm, h⟩)
      · next ha => exact side_locate (List.forall_mem_cons.mpr ⟨(if_neg ha).symm, h⟩)

/-- The path is one in a red-black tree. -/
theorem PathOk.locate (lt : α → Bool) : ∀ {t : RBT α} {path : List (Frame α)} {n : ℕ},
    PathOk path n → t.Balanced n → t.NoRedRed → (headColor path = .red → t.color = .black) →
      (t.color = .red → path ≠ []) → PathOk (locate lt t path) 0
  | leaf, path, n, hp, hb, _, _, _ => by
      obtain rfl : n = 0 := hb
      exact hp
  | node .red l a r, path, n, hp, ⟨hl, hr⟩, ⟨hred, hnl, hnr⟩, hc, hne => by
      obtain ⟨hlc, hrc⟩ := hred rfl
      have hhead : headColor path = .black := by
        cases h : headColor path with
        | black => rfl
        | red => cases hc h
      rw [RBT.locate]
      split
      · exact PathOk.locate lt (n := n) ⟨hr, hnr, fun _ => ⟨hrc, hhead, hne rfl⟩, hp⟩ hl hnl
          (fun _ => hlc) fun _ => List.cons_ne_nil _ _
      · exact PathOk.locate lt (n := n) ⟨hl, hnl, fun _ => ⟨hlc, hhead, hne rfl⟩, hp⟩ hr hnr
          (fun _ => hrc) fun _ => List.cons_ne_nil _ _
  | node .black l a r, path, n + 1, hp, ⟨hl, hr⟩, ⟨_, hnl, hnr⟩, _, _ => by
      rw [RBT.locate]
      split
      · exact PathOk.locate lt (n := n) ⟨hr, hnr, fun h => by (cases h), hp⟩ hl hnl
          (fun h => by cases h) fun _ => List.cons_ne_nil _ _
      · exact PathOk.locate lt (n := n) ⟨hl, hnl, fun h => by (cases h), hp⟩ hr hnr
          (fun h => by cases h) fun _ => List.cons_ne_nil _ _

/-- A leaf of a red-black tree. -/
theorem RedBlack.locate {t : RBT α} (h : t.RedBlack) (lt : α → Bool) :
    PathOk (RBT.locate lt t []) 0 := by
  obtain ⟨n, hb⟩ := h.balanced
  have hnil : PathOk ([] : List (Frame α)) n := trivial
  refine hnil.locate lt hb h.noRedRed (fun hc => by cases hc) fun hc => ?_
  rw [h.root] at hc
  cases hc

/-- In a tree whose elements are split by `lt`, the leaf is between the two parts. -/
theorem before_after_locate {lt : α → Bool} : ∀ {t : RBT α} (path : List (Frame α)),
    t.inorder.Pairwise (fun a b => lt a = true → lt b = true) →
      before (locate lt t path) = before path ++ t.inorder.filter (fun a => !lt a) ∧
        after (locate lt t path) = t.inorder.filter lt ++ after path
  | leaf, path, _ => by simp [locate, inorder]
  | node c l a r, path, h => by
      rw [inorder, List.pairwise_append, List.pairwise_cons] at h
      obtain ⟨hl, ⟨har, hr⟩, hla⟩ := h
      rw [locate, inorder, List.filter_append, List.filter_append]
      by_cases ha : lt a = true
      · -- everything on the right is above
        have hr1 : r.inorder.filter (fun b => !lt b) = [] := by
          rw [List.filter_eq_nil_iff]
          intro b hb
          simp [har b hb ha]
        have hr2 : r.inorder.filter lt = r.inorder :=
          List.filter_eq_self.mpr fun b hb => har b hb ha
        obtain ⟨hbefore, hafter⟩ := before_after_locate (⟨.left, c, a, r⟩ :: path) hl
        rw [if_pos ha, hbefore, hafter]
        simp [before, after, ha, hr1, hr2]
      · -- nothing on the left is above
        have hlow : ∀ b ∈ l.inorder, lt b = false := by
          intro b hb
          cases hlt : lt b with
          | false => rfl
          | true => exact absurd (hla b hb a List.mem_cons_self hlt) ha
        have hl1 : l.inorder.filter lt = [] := by
          rw [List.filter_eq_nil_iff]
          intro b hb
          simp [hlow b hb]
        have hl2 : l.inorder.filter (fun b => !lt b) = l.inorder :=
          List.filter_eq_self.mpr fun b hb => by simp [hlow b hb]
        obtain ⟨hbefore, hafter⟩ := before_after_locate (⟨.right, c, a, l⟩ :: path) hr
        rw [if_neg ha, hbefore, hafter]
        simp [before, after, ha, hl1, hl2]

/-! ## The repair -/

/-- A path to a red tree, which is in order but that the node above it may be red. -/
structure Fix (path : List (Frame α)) (t : RBT α) (n : ℕ) : Prop where
  path : PathOk path n
  balanced : t.Balanced n
  noRedRed : t.NoRedRed
  red : t.color = .red

/-- A red node in the place of a leaf. -/
theorem fix_node {path : List (Frame α)} (h : PathOk path 0) (a : α) :
    Fix path (node .red leaf a leaf) 0 :=
  ⟨h, ⟨rfl, rfl⟩, ⟨fun _ => ⟨rfl, rfl⟩, trivial, trivial⟩, rfl⟩

section Repair

variable {path up : List (Frame α)} {n : ℕ} {t : RBT α}

/-- Below a black node the repair is at its end. -/
theorem Fix.done (h : Fix path t n) (hhead : headColor path = .black) :
    (fill path t).blacken.RedBlack := by
  obtain ⟨⟨m, hb⟩, hn, hc⟩ := h.path.fill h.balanced h.noRedRed fun hh => by
    rw [hhead] at hh
    cases hh
  refine ⟨color_blacken _, ?_, hn.blacken⟩
  cases hroot : (fill path t).color with
  | red => exact ⟨m + 1, hb.blacken hroot⟩
  | black => exact ⟨m, by rwa [blacken_of_black hroot]⟩

/-- A red node has a black node above it. -/
theorem PathOk.grandparent {f : Frame α} (h : PathOk (f :: up) n) (hred : f.color = .red) :
    ∃ g up', up = g :: up' ∧ g.color = .black := by
  obtain ⟨_, _, hf, _⟩ := h
  obtain ⟨_, hhead, hne⟩ := hf hred
  cases up with
  | nil => exact absurd rfl hne
  | cons g up => exact ⟨g, up, rfl, hhead⟩

variable {d : Side} {a g : α} {s u : RBT α}

/-- The uncle is red: the grandparent becomes red, and the place to look at. -/
theorem Fix.recolor {d' : Side} (h : Fix (⟨d', .red, a, s⟩ :: ⟨d, .black, g, u⟩ :: up) t n)
    (hu : u.color = .red) :
    Fix up (join d .red (join d' .black t a s) g u.blacken) (n + 1) := by
  obtain ⟨⟨hsb, hsn, _, hub, hun, _, hup⟩, hb, hn, _⟩ := h
  refine ⟨hup, ?_, ?_, color_join ..⟩
  · exact (balanced_red ..).mpr ⟨(balanced_black ..).mpr ⟨hb, hsb⟩, hub.blacken hu⟩
  · refine (noRedRed_join ..).mpr ⟨fun _ => ⟨color_join .., color_blacken u⟩, ?_, hun.blacken⟩
    exact (noRedRed_join ..).mpr ⟨fun hc => (by cases hc), hn, hsn⟩

/-- The node is on the inside: a rotation at the parent puts the parent on the outside. -/
theorem Fix.rotateIn {z : α} {zi zo : RBT α}
    (h : Fix (⟨d.opp, .red, a, s⟩ :: ⟨d, .black, g, u⟩ :: up) (join d .red zi z zo) n) :
    Fix (⟨d, .red, z, zo⟩ :: ⟨d, .black, g, u⟩ :: up) (join d .red s a zi) n := by
  obtain ⟨⟨hsb, hsn, hs, hup⟩, hb, hn, _⟩ := h
  obtain ⟨hzib, hzob⟩ := (balanced_red ..).mp hb
  obtain ⟨hz, hzin, hzon⟩ := (noRedRed_join ..).mp hn
  obtain ⟨hsc, hhead, hne⟩ := hs rfl
  obtain ⟨hzic, hzoc⟩ := hz rfl
  exact ⟨⟨hzob, hzon, fun _ => ⟨hzoc, hhead, hne⟩, hup⟩, (balanced_red ..).mpr ⟨hsb, hzib⟩,
    (noRedRed_join ..).mpr ⟨fun _ => ⟨hsc, hzic⟩, hsn, hzin⟩, color_join ..⟩

/-- The node is on the outside and the uncle black: a rotation at the grandparent, after
which the parent is black. -/
theorem Fix.rotateOut (h : Fix (⟨d, .red, a, s⟩ :: ⟨d, .black, g, u⟩ :: up) t n)
    (hu : u.color = .black) : Fix (⟨d, .black, a, join d .red s g u⟩ :: up) t n := by
  obtain ⟨⟨hsb, hsn, hs, hub, hun, _, hup⟩, hb, hn, hred⟩ := h
  refine ⟨⟨(balanced_red ..).mpr ⟨hsb, hub⟩, ?_, fun hc => (by cases hc), hup⟩, hb, hn, hred⟩
  exact (noRedRed_join ..).mpr ⟨fun _ => ⟨(hs rfl).1, hu⟩, hsn, hun⟩

end Repair

end RBT

end LibC.Lib
