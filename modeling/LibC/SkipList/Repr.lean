/-
LibC.SkipList.Repr — what a skip list in the heap stands for.

A heap is observed through three functions only: the tower a node carries
(`nodeData`: score, value, height), its `backward` pointer (`nodeBack`), and
its links (`getLevel`). Each heap operation of the skip list gets one lemma
that says what all three are afterwards, and no later proof unfolds it.

`Repr sl ps ts` says that `sl` holds the towers `ts` in the nodes `ps`, in
that order. Position `0` is the head, position `k + 1` is the `k`-th element;
`heights ts` are the heights by position, so that the links are those of
`LibC.Lib.Tower`: the level-`i` link of position `k` leads to `IsNext … i k`,
and its span is the distance. A null link carries no span: the code leaves
whatever was there.

Spans are compared modulo `2^32`, as the code computes them. They are exact
as long as the list has fewer than `2^32` elements.

No `sorry`, no `axiom`, no `native_decide`.
-/
import LibC.Lib.Tower
import LibC.SkipList.List
import Mathlib.Data.List.Basic

namespace LibC

open LibC.Lib LibC.Lib.Tower

variable {α β γ : Type}

/-! ## Observing a heap -/

/-- An element of the list: what it stores and how tall its node is. -/
structure Tower (α β : Type) where
  score : α
  val : β
  height : Nat
  deriving DecidableEq, Repr

/-- The tower of a node. -/
def nodeData (h : Heap (SkipListNode α β)) (p : Ptr) : Option (Tower α β) :=
  (h.get p).map fun nd => ⟨nd.score, nd.val, nd.level.length⟩

/-- The `backward` pointer of a node. -/
def nodeBack (h : Heap (SkipListNode α β)) (p : Ptr) : Option (Option Ptr) :=
  (h.get p).map fun nd => nd.backward

/-- A node with a tower is live. -/
theorem get_of_nodeData {h : Heap (SkipListNode α β)} {p : Ptr} {t : Tower α β}
    (ht : nodeData h p = some t) :
    ∃ nd, h.get p = some nd ∧ nd.score = t.score ∧ nd.val = t.val ∧
      nd.level.length = t.height := by
  simp only [nodeData, Option.map_eq_some_iff] at ht
  obtain ⟨nd, hg, rfl⟩ := ht
  exact ⟨nd, hg, rfl, rfl, rfl⟩

/-- A node has a link at exactly the levels below its height. -/
theorem getLevel_isSome {h : Heap (SkipListNode α β)} {p : Ptr} {t : Tower α β}
    (ht : nodeData h p = some t) {i : Nat} (hi : i < t.height) : ∃ l, getLevel h p i = some l := by
  obtain ⟨nd, hg, _, _, hlen⟩ := get_of_nodeData ht
  refine ⟨nd.level.get ⟨i, by omega⟩, ?_⟩
  simp [getLevel, hg]

theorem lt_height_of_getLevel {h : Heap (SkipListNode α β)} {p : Ptr} {t : Tower α β}
    (ht : nodeData h p = some t) {i : Nat} {l : SkipListLevel}
    (hl : getLevel h p i = some l) : i < t.height := by
  obtain ⟨nd, hg, _, _, hlen⟩ := get_of_nodeData ht
  simp only [getLevel, hg, Option.bind_eq_bind, Option.bind_some] at hl
  have := (List.getElem?_eq_some_iff.mp hl).1
  omega

/-! ## Heap operations of the skip list -/

/-- `h'` differs from `h` in links only. -/
structure SameNodes (h h' : Heap (SkipListNode α β)) : Prop where
  size : h'.size = h.size
  data : ∀ q, nodeData h' q = nodeData h q
  back : ∀ q, nodeBack h' q = nodeBack h q

theorem SameNodes.refl (h : Heap (SkipListNode α β)) : SameNodes h h :=
  ⟨rfl, fun _ => rfl, fun _ => rfl⟩

theorem SameNodes.trans {h1 h2 h3 : Heap (SkipListNode α β)} (h12 : SameNodes h1 h2)
    (h23 : SameNodes h2 h3) : SameNodes h1 h3 :=
  ⟨h23.size.trans h12.size, fun q => (h23.data q).trans (h12.data q),
    fun q => (h23.back q).trans (h12.back q)⟩

/-- An assignment to a link changes that link. -/
theorem modifyLevel_spec {h : Heap (SkipListNode α β)} {x : Ptr} {i : Nat} {l : SkipListLevel}
    (hl : getLevel h x i = some l) (f : SkipListLevel → SkipListLevel) :
    ∃ h', modifyLevel h x i f = some h' ∧ SameNodes h h' ∧
      ∀ q j, getLevel h' q j = if q = x ∧ j = i then some (f l) else getLevel h q j := by
  simp only [getLevel, Option.bind_eq_bind, Option.bind_eq_some_iff] at hl
  obtain ⟨nd, hg, hi⟩ := hl
  have hlt : i < nd.level.length := (List.getElem?_eq_some_iff.mp hi).1
  have hget := Heap.get_set (Heap.lt_size hg) { nd with level := nd.level.set i (f l) }
  refine ⟨h.set x { nd with level := nd.level.set i (f l) }, ?_,
    ⟨by simp, fun q => ?_, fun q => ?_⟩,
    fun q j => ?_⟩
  · simp [modifyLevel, hg, hi]
  · simp only [nodeData, hget]
    split
    · subst q; simp [hg]
    · rfl
  · simp only [nodeBack, hget]
    split
    · subst q; simp [hg]
    · rfl
  · simp only [getLevel, hget]
    by_cases hq : q = x
    · subst hq
      by_cases hj : j = i
      · subst hj; simp [hlt]
      · simp [hj, hg, List.getElem?_set_ne (Ne.symm hj)]
    · simp [hq]

/-- An assignment to `backward` changes that pointer. -/
theorem setBackward_spec {h : Heap (SkipListNode α β)} {x : Ptr} {t : Tower α β}
    (ht : nodeData h x = some t) (b : Option Ptr) :
    ∃ h', setBackward h x b = some h' ∧ h'.size = h.size ∧
      (∀ q, nodeData h' q = nodeData h q) ∧
      (∀ q, nodeBack h' q = if q = x then some b else nodeBack h q) ∧
      ∀ q j, getLevel h' q j = getLevel h q j := by
  obtain ⟨nd, hg, _⟩ := get_of_nodeData ht
  have hget := Heap.get_set (Heap.lt_size hg) { nd with backward := b }
  refine ⟨h.set x { nd with backward := b }, Heap.modify?_eq hg _, by simp,
    fun q => ?_, fun q => ?_,
    fun q j => ?_⟩
  · simp only [nodeData, hget]
    split
    · subst q; simp [hg]
    · rfl
  · simp only [nodeBack, hget]
    split <;> rfl
  · simp only [getLevel, hget]
    split
    · subst q; simp [hg]
    · rfl

/-- `MakeNode` puts a node of null links at a fresh address. -/
theorem makeNode_spec (h : Heap (SkipListNode α β)) (lvl : Nat) (score : α) (val : β) :
    (makeNode h lvl score val).1 = h.size ∧
      (makeNode h lvl score val).2.size = h.size + 1 ∧
      (∀ q, nodeData (makeNode h lvl score val).2 q =
        if q = h.size then some ⟨score, val, lvl⟩ else nodeData h q) ∧
      (∀ q, nodeBack (makeNode h lvl score val).2 q =
        if q = h.size then some none else nodeBack h q) ∧
      ∀ q j, getLevel (makeNode h lvl score val).2 q j =
        if q = h.size then (if j < lvl then some ⟨none, 0⟩ else none) else getLevel h q j := by
  have hget := Heap.get_alloc h (⟨score, val, none, List.replicate lvl ⟨none, 0⟩⟩ :
    SkipListNode α β)
  refine ⟨rfl, by simp [makeNode], fun q => ?_, fun q => ?_, fun q j => ?_⟩
  · simp only [nodeData, makeNode, hget]
    split <;> simp
  · simp only [nodeBack, makeNode, hget]
    split <;> simp
  · simp only [getLevel, makeNode, hget]
    split
    · simp [List.getElem?_replicate]
    · rfl

/-- A freed node is gone, every other one is unchanged. -/
theorem free_spec (h : Heap (SkipListNode α β)) (x : Ptr) :
    (∀ q, nodeData (h.free x) q = if q = x then none else nodeData h q) ∧
      (∀ q, nodeBack (h.free x) q = if q = x then none else nodeBack h q) ∧
      ∀ q j, getLevel (h.free x) q j = if q = x then none else getLevel h q j := by
  have hget := Heap.get_free h x
  refine ⟨fun q => ?_, fun q => ?_, fun q j => ?_⟩
  · simp only [nodeData, hget]
    split <;> rfl
  · simp only [nodeBack, hget]
    split <;> rfl
  · simp only [getLevel, hget]
    split <;> rfl

/-! ## The list a heap holds -/

/-- The tower of the head: `MAXLEVEL` links, score `-1`, the empty string. -/
def headTower [Neg α] [One α] [Inhabited β] : Tower α β := ⟨-1, default, maxLevel⟩

/-- The heights by position; position `0` is the head. -/
def heights (ts : List (Tower α β)) : ℕ → ℕ
  | 0 => maxLevel
  | k + 1 => (ts[k]?.map Tower.height).getD 0

@[simp] theorem heights_zero (ts : List (Tower α β)) : heights ts 0 = maxLevel := rfl

theorem heights_succ {ts : List (Tower α β)} {k : ℕ} {t : Tower α β} (h : ts[k]? = some t) :
    heights ts (k + 1) = t.height := by
  simp [heights, h]

theorem heights_of_gt {ts : List (Tower α β)} {k : ℕ} (h : ts.length < k) : heights ts k = 0 := by
  obtain ⟨k, rfl⟩ : ∃ j, k = j + 1 := ⟨k - 1, by omega⟩
  simp [heights, List.getElem?_eq_none (show ts.length ≤ k by omega)]

/-- A link stays inside the list. -/
theorem isNext_le_length {ts : List (Tower α β)} {i k q : ℕ} (h : IsNext (heights ts) i k q) :
    q ≤ ts.length := by
  by_contra hcon
  have := h.tall
  rw [heights_of_gt (by omega)] at this
  omega

/-- Inserting a tower is splicing its height in. -/
theorem heights_insertIdx {ts : List (Tower α β)} {K : ℕ} (hK : K ≤ ts.length) (t : Tower α β) :
    heights (ts.insertIdx K t) = spliceIn (heights ts) K t.height := by
  funext m
  rcases m with _ | m
  · rw [spliceIn_of_le (Nat.zero_le _)]; rfl
  · rcases Nat.lt_trichotomy m K with h | h | h
    · rw [spliceIn_of_le (by omega)]
      simp only [heights, List.getElem?_insertIdx_of_lt h]
    · subst h
      rw [spliceIn_self]
      simp only [heights, List.getElem?_insertIdx_self, if_pos hK]
      rfl
    · obtain ⟨m, rfl⟩ : ∃ j, m = j + 1 := ⟨m - 1, by omega⟩
      rw [spliceIn_succ_of_lt (by omega)]
      simp only [heights, List.getElem?_insertIdx_of_gt h]
      rfl

/-- Erasing a tower is splicing its height out. -/
theorem heights_eraseIdx (ts : List (Tower α β)) (K : ℕ) :
    heights (ts.eraseIdx K) = spliceOut (heights ts) (K + 1) := by
  funext m
  rcases m with _ | m
  · rw [spliceOut_of_lt (by omega)]; rfl
  · rcases Nat.lt_or_ge m K with h | h
    · rw [spliceOut_of_lt (by omega)]
      simp only [heights, List.getElem?_eraseIdx_of_lt h]
    · rw [spliceOut_of_ge (by omega)]
      simp only [heights, List.getElem?_eraseIdx_of_ge h]

/-- The link `l` of level `i` at position `k` is right for the positions `pos`. -/
structure LinkOk (hgt : ℕ → ℕ) (pos : List Ptr) (i k : ℕ) (l : SkipListLevel) : Prop where
  next : ∀ q, IsNext hgt i k q → l.forward = pos[q]? ∧ l.span = UInt32.ofNat (q - k)
  null : (∀ q, ¬ IsNext hgt i k q) → l.forward = none

/-- `sl` holds the towers `ts` in the nodes `ps`. -/
structure Repr [LE α] [Neg α] [One α] [Inhabited β] (sl : SkipList α β) (ps : List Ptr)
    (ts : List (Tower α β)) : Prop where
  len : ps.length = ts.length
  nodup : (sl.head :: ps).Nodup
  data : ∀ (k : ℕ) (p : Ptr), (sl.head :: ps)[k]? = some p →
    nodeData sl.heap p = (headTower :: ts)[k]?
  back : ∀ (k : ℕ) (p : Ptr), (sl.head :: ps)[k]? = some p →
    nodeBack sl.heap p = some (if k ≤ 1 then none else (sl.head :: ps)[k - 1]?)
  link : ∀ (k : ℕ) (p : Ptr) (i : ℕ) (l : SkipListLevel),
    (sl.head :: ps)[k]? = some p → getLevel sl.heap p i = some l →
    LinkOk (heights ts) (sl.head :: ps) i k l
  tall : ∀ t ∈ ts, 1 ≤ t.height ∧ t.height ≤ sl.level
  level : 1 ≤ sl.level ∧ sl.level ≤ maxLevel
  top : sl.level = 1 ∨ ∃ t ∈ ts, t.height = sl.level
  tail : sl.tail = ps.getLast?
  sorted : ts.Pairwise fun a b => a.score ≤ b.score

end LibC
