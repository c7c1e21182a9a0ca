/-
LibC.Lib.Board — leaderboards.

A board lists members with scores, in order of the scores, each member once. A
member that is new or whose score changes goes behind everything with a score
up to its own; a member whose score stays keeps its place. `score?`, `rank?`,
`nth` and `between` are what a board is asked for.

Each operation is specified by the entries it leaves (`mem_set`), and the
questions by the entries there are, so that whoever implements a board by other
means needs the list of entries only. `place` is the position of a member whose
insertion is known to split the list (`place_eq`).

No `sorry`, no `axiom`, no `native_decide`.
-/
import Mathlib.Order.Lattice
import Mathlib.Data.List.Pairwise
import Mathlib.Algebra.Order.Ring.Int

namespace LibC.Lib

variable {α β : Type}

/-- Members with scores, in order, each once. -/
structure Board (α β : Type) [LE α] where
  entries : List (α × β)
  ranked : entries.Pairwise fun a b => a.1 ≤ b.1 ∧ a.2 ≠ b.2

namespace Board

section Ask

variable [LE α]

/-- The board without members. -/
def empty : Board α β := ⟨[], List.Pairwise.nil⟩

@[simp] theorem entries_empty : (empty : Board α β).entries = [] := rfl

/-- The member at a rank, counted from `1`. -/
def nth (k : ℕ) (b : Board α β) : Option (α × β) := if k = 0 then none else b.entries[k - 1]?

/-- A member has one entry. -/
theorem entry_unique {b : Board α β} {a c : α × β} (ha : a ∈ b.entries) (hc : c ∈ b.entries)
    (h : a.2 = c.2) : a = c := by
  have hsymm : Std.Symm fun a c : α × β => a.2 ≠ c.2 := ⟨fun _ _ h => h.symm⟩
  by_contra hne
  exact (b.ranked.imp fun h => h.2).forall ha hc hne h

variable [DecidableEq β]

/-- The score of a member. -/
def score? (m : β) (b : Board α β) : Option α :=
  (b.entries.find? fun a => a.2 = m).map Prod.fst

/-- The rank of a member, counted from `1`. -/
def rank? (m : β) (b : Board α β) : Option ℕ :=
  (b.entries.findIdx? fun a => a.2 = m).map (· + 1)

end Ask

variable [LinearOrder α]

/-- The members with scores between two bounds. -/
def between (lo hi : α) (b : Board α β) : List (α × β) :=
  b.entries.filter fun a => decide (lo ≤ a.1 ∧ a.1 ≤ hi)

/-- The place of a new entry: behind everything with a score up to its own. -/
def place (e : α × β) (l : List (α × β)) : List (α × β) :=
  l.filter (fun a => decide (a.1 ≤ e.1)) ++ e :: l.filter fun a => decide (¬ a.1 ≤ e.1)

/-- A list that splits at the place. -/
theorem place_eq {e : α × β} {xs ys : List (α × β)} (hx : ∀ a ∈ xs, a.1 ≤ e.1)
    (hy : ∀ b ∈ ys, ¬ b.1 ≤ e.1) : place e (xs ++ ys) = xs ++ e :: ys := by
  have h1 : xs.filter (fun a => decide (a.1 ≤ e.1)) = xs :=
    List.filter_eq_self.mpr fun a ha => decide_eq_true (hx a ha)
  have h2 : ys.filter (fun a => decide (a.1 ≤ e.1)) = [] :=
    List.filter_eq_nil_iff.mpr fun b hb => by simpa using hy b hb
  have h3 : xs.filter (fun a => decide (¬ a.1 ≤ e.1)) = [] :=
    List.filter_eq_nil_iff.mpr fun a ha => by simpa using hx a ha
  have h4 : ys.filter (fun a => decide (¬ a.1 ≤ e.1)) = ys :=
    List.filter_eq_self.mpr fun b hb => decide_eq_true (hy b hb)
  rw [place, List.filter_append, List.filter_append, h1, h2, h3, h4, List.append_nil,
    List.nil_append]

/-- The new entry, and the entries there were. -/
theorem perm_place (e : α × β) (l : List (α × β)) : (place e l).Perm (e :: l) := by
  refine List.perm_middle.trans (List.Perm.cons e ?_)
  simpa only [decide_not] using List.filter_append_perm (fun a => decide (a.1 ≤ e.1)) l

/-- A new entry in its place keeps the order, and the members apart. -/
theorem pairwise_place {e : α × β} {l : List (α × β)}
    (hr : l.Pairwise fun a b => a.1 ≤ b.1 ∧ a.2 ≠ b.2) (hnew : ∀ a ∈ l, a.2 ≠ e.2) :
    (place e l).Pairwise fun a b => a.1 ≤ b.1 ∧ a.2 ≠ b.2 := by
  have hsymm : Std.Symm fun a c : α × β => a.2 ≠ c.2 := ⟨fun _ _ h => h.symm⟩
  refine List.pairwise_append.mpr ⟨hr.filter _, List.pairwise_cons.mpr ⟨?_, hr.filter _⟩, ?_⟩
  · intro a ha
    simp only [List.mem_filter, decide_eq_true_eq] at ha
    exact ⟨le_of_lt (not_le.mp ha.2), (hnew a ha.1).symm⟩
  · intro a ha c hc
    simp only [List.mem_filter, decide_eq_true_eq] at ha
    rcases List.mem_cons.mp hc with rfl | hc
    · exact ⟨ha.2, hnew a ha.1⟩
    · simp only [List.mem_filter, decide_eq_true_eq] at hc
      have hlt : a.1 < c.1 := lt_of_le_of_lt ha.2 (not_le.mp hc.2)
      exact ⟨hlt.le, (hr.imp fun h => h.2).forall ha.1 hc.1 fun heq => hlt.ne (by rw [heq])⟩

variable [DecidableEq β]

/-- Give a member a score. -/
def set (score : α) (m : β) (b : Board α β) : Board α β :=
  if b.score? m = some score then b
  else ⟨place (score, m) (b.entries.filter fun a => decide (a.2 ≠ m)),
    pairwise_place (b.ranked.filter _) fun a ha => by simpa using (List.mem_filter.mp ha).2⟩

variable {b : Board α β} {a : α × β} {m q : β} {score s : α}

theorem score?_eq_some : b.score? m = some score ↔ (score, m) ∈ b.entries := by
  rw [score?, Option.map_eq_some_iff]
  constructor
  · rintro ⟨e, he, rfl⟩
    obtain rfl : e.2 = m := by simpa using List.find?_some he
    exact List.mem_of_find?_eq_some he
  · intro hmem
    cases hf : b.entries.find? fun a => a.2 = m with
    | none => exact absurd (List.find?_eq_none.mp hf (score, m) hmem) (by simp)
    | some e =>
        have he : e.2 = m := by simpa using List.find?_some hf
        exact ⟨e, rfl, by rw [entry_unique (List.mem_of_find?_eq_some hf) hmem he]⟩

/-- A score that is new to the member. -/
theorem entries_set (h : b.score? m ≠ some score) : (b.set score m).entries =
    place (score, m) (b.entries.filter fun a => decide (a.2 ≠ m)) := by
  rw [set, if_neg h]

/-- The entries after a member is given a score. -/
theorem mem_set : a ∈ (b.set score m).entries ↔ a = (score, m) ∨ a ∈ b.entries ∧ a.2 ≠ m := by
  rw [set]
  split
  · next hold =>
      have hmem := score?_eq_some.mp hold
      constructor
      · intro ha
        by_cases hm : a.2 = m
        · exact Or.inl (entry_unique ha hmem hm)
        · exact Or.inr ⟨ha, hm⟩
      · rintro (rfl | ⟨ha, _⟩)
        · exact hmem
        · exact ha
  · rw [(perm_place _ _).mem_iff, List.mem_cons, List.mem_filter, decide_eq_true_eq]

/-- The rank of a member is its position. -/
theorem rank?_eq_some {k : ℕ} (h : b.entries[k]? = some a) : b.rank? a.2 = some (k + 1) := by
  obtain ⟨hk, ha⟩ := List.getElem?_eq_some_iff.mp h
  have hfind : b.entries.findIdx? (fun c => c.2 = a.2) = some k := by
    rw [List.findIdx?_eq_some_iff_getElem]
    refine ⟨hk, by simp [ha], fun j hj => ?_⟩
    have hr := List.pairwise_iff_getElem.mp b.ranked j k (by omega) hk hj
    rw [ha] at hr
    simpa using hr.2
  rw [rank?, hfind]
  rfl

/-- Who is not there has no rank. -/
theorem rank?_eq_none (h : b.score? m = none) : b.rank? m = none := by
  rw [score?, Option.map_eq_none_iff, List.find?_eq_none] at h
  rw [rank?, Option.map_eq_none_iff, List.findIdx?_eq_none_iff]
  exact fun a ha => by simpa using h a ha

/-! ## Boards without ties -/

/-- No two members have the same score. -/
def Distinct (b : Board α β) : Prop := ∀ a ∈ b.entries, ∀ c ∈ b.entries, a.1 = c.1 → a.2 = c.2

/-- No other member has the score. -/
def Free (score : α) (m : β) (b : Board α β) : Prop := ∀ a ∈ b.entries, a.1 = score → a.2 = m

instance : Decidable (b.Free score m) :=
  inferInstanceAs (Decidable (∀ a ∈ b.entries, a.1 = score → a.2 = m))

omit [DecidableEq β] in
theorem distinct_empty : (empty : Board α β).Distinct := fun a ha => by cases ha

theorem Distinct.set (h : b.Distinct) (hfree : b.Free score m) : (b.set score m).Distinct := by
  intro a ha c hc heq
  rcases mem_set.mp ha with rfl | ⟨ha, _⟩ <;> rcases mem_set.mp hc with rfl | ⟨hc, _⟩
  · rfl
  · exact (hfree c hc heq.symm).symm
  · exact hfree a ha heq
  · exact h a ha c hc heq

end Board

end LibC.Lib
