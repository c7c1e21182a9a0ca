/-
LibC.Lib.Chain — chains of cells in a heap.

A cell has a pointer to the next one, which the parameter `next` reads. The
cells `ps` are a `Chain` from a pointer `o` when `o` points to the first of
them, each one to the next, and the last one nowhere. A pointer is the beginning
of at most one chain (`Chain.unique`), so no cell occurs twice in it and it is
not longer than the heap. A chain survives whatever leaves the pointers of its
cells alone (`Chain.frame`).

`follow` is the loop that walks over a chain until a cell passes a test;
`Chain.follow_eq` says which one that is.

No `sorry`, no `axiom`, no `native_decide`.
-/
import LibC.Lib.Heap
import Mathlib.Data.Finset.Card
import Mathlib.Data.Finset.Range

namespace LibC.Lib

variable {N : Type} {next : N → Option Ptr}

/-- The cells `ps` follow one another from `o`. -/
def Chain (next : N → Option Ptr) (h : Heap N) : Option Ptr → List Ptr → Prop
  | o, [] => o = none
  | o, p :: ps => o = some p ∧ ∃ c, h.get p = some c ∧ Chain next h (next c) ps

/-- Go on from `o` until a cell passes the test, with a bound on the number of steps. -/
def follow (next : N → Option Ptr) (test : N → Bool) (h : Heap N) :
    Nat → Option Ptr → Option (Option Ptr)
  | _, none => some none
  | 0, some _ => none
  | fuel + 1, some p => do
      let c ← h.get p
      if test c then some (some p) else follow next test h fuel (next c)

namespace Chain

variable {h : Heap N}

/-- A pointer is the beginning of one chain. -/
theorem unique : ∀ {ps qs : List Ptr} {o : Option Ptr}, Chain next h o ps → Chain next h o qs →
    ps = qs
  | [], [], _, _, _ => rfl
  | [], q :: qs, o, hp, hq => by rw [hp] at hq; cases hq.1
  | p :: ps, [], o, hp, hq => by rw [hq] at hp; cases hp.1
  | p :: ps, q :: qs, o, ⟨ho, c, hc, hp⟩, ⟨ho', c', hc', hq⟩ => by
      obtain rfl : p = q := Option.some.inj (ho.symm.trans ho')
      obtain rfl : c = c' := Option.some.inj (hc.symm.trans hc')
      rw [unique hp hq]

/-- The cells of a chain are live. -/
theorem live : ∀ {ps : List Ptr} {o : Option Ptr}, Chain next h o ps → ∀ p ∈ ps,
    ∃ c, h.get p = some c
  | q :: qs, o, ⟨_, c, hc, hq⟩, p, hp => by
      rcases List.mem_cons.mp hp with rfl | hp
      · exact ⟨c, hc⟩
      · exact live hq p hp

/-- Every cell of a chain is the beginning of the rest of it. -/
theorem suffix : ∀ {ps : List Ptr} {o : Option Ptr}, Chain next h o ps → ∀ p ∈ ps,
    ∃ qs, Chain next h (some p) (p :: qs) ∧ (p :: qs) <:+ ps
  | q :: qs, o, ⟨ho, c, hc, hq⟩, p, hp => by
      rcases List.mem_cons.mp hp with rfl | hp
      · exact ⟨qs, ⟨rfl, c, hc, hq⟩, List.suffix_refl _⟩
      · obtain ⟨rs, hr, hsuf⟩ := suffix hq p hp
        exact ⟨rs, hr, hsuf.trans (List.suffix_cons q qs)⟩

/-- No cell occurs twice in a chain. -/
theorem nodup : ∀ {ps : List Ptr} {o : Option Ptr}, Chain next h o ps → ps.Nodup
  | [], _, _ => List.nodup_nil
  | p :: ps, o, ⟨ho, c, hc, hp⟩ => by
      refine List.nodup_cons.mpr ⟨fun hmem => ?_, nodup hp⟩
      -- from `p` the chain would be shorter than it is
      obtain ⟨qs, hq, hsuf⟩ := suffix hp p hmem
      have heq : p :: qs = p :: ps := unique hq ⟨rfl, c, hc, hp⟩
      have hle := hsuf.length_le
      rw [heq, List.length_cons] at hle
      omega

/-- A chain is not longer than the heap. -/
theorem length_le {ps : List Ptr} {o : Option Ptr} (hc : Chain next h o ps) :
    ps.length ≤ h.size := by
  have hsub : ps.toFinset ⊆ Finset.range h.size := by
    intro p hp
    obtain ⟨c, hget⟩ := hc.live p (List.mem_toFinset.mp hp)
    exact Finset.mem_range.mpr (Heap.lt_size hget)
  rw [← List.toFinset_card_of_nodup hc.nodup, ← Finset.card_range h.size]
  exact Finset.card_le_card hsub

/-- A chain depends on the pointers of its cells only. -/
theorem frame {h' : Heap N} : ∀ {ps : List Ptr} {o : Option Ptr}, Chain next h o ps →
    (∀ p ∈ ps, ∀ c, h.get p = some c → ∃ c', h'.get p = some c' ∧ next c' = next c) →
      Chain next h' o ps
  | [], _, ho, _ => ho
  | p :: ps, o, ⟨ho, c, hc, hp⟩, hkeep => by
      obtain ⟨c', hc', hnext⟩ := hkeep p List.mem_cons_self c hc
      refine ⟨ho, c', hc', ?_⟩
      rw [hnext]
      exact frame hp fun q hq => hkeep q (List.mem_cons_of_mem _ hq)

/-- An allocation leaves a chain alone. -/
theorem alloc {ps : List Ptr} {o : Option Ptr} (hc : Chain next h o ps) (c : N) :
    Chain next (h.alloc c).2 o ps := by
  refine hc.frame fun p _ c' hp => ⟨c', ?_, rfl⟩
  rw [Heap.get_alloc, if_neg (Nat.ne_of_lt (Heap.lt_size hp)), hp]

/-- A new cell in front of a chain. -/
theorem push {ps : List Ptr} {c : N} (hc : Chain next h (next c) ps) :
    Chain next (h.alloc c).2 (some h.size) (h.size :: ps) :=
  ⟨rfl, c, by rw [Heap.get_alloc, if_pos rfl], hc.alloc c⟩

/-- A write that keeps the pointer of the cell leaves a chain alone. -/
theorem set {ps : List Ptr} {o : Option Ptr} (hc : Chain next h o ps) {q : Ptr} {c c' : N}
    (hq : h.get q = some c) (hnext : next c' = next c) : Chain next (h.set q c') o ps := by
  refine hc.frame fun p _ d hp => ?_
  rw [Heap.get_set (Heap.lt_size hq)]
  split
  · next heq =>
      subst heq
      obtain rfl : c = d := Option.some.inj (hq.symm.trans hp)
      exact ⟨c', rfl, hnext⟩
  · exact ⟨d, hp, rfl⟩

/-- Following a chain finds the first of its cells that passes the test. -/
theorem follow_eq (test : N → Bool) : ∀ {ps : List Ptr} {o : Option Ptr} {fuel : ℕ},
    Chain next h o ps → ps.length ≤ fuel →
      follow next test h fuel o = some (ps.find? fun p => (h.get p).any test)
  | [], o, fuel, ho, _ => by
      rw [ho, follow]
      rfl
  | p :: ps, o, fuel + 1, ⟨ho, c, hc, hp⟩, hfuel => by
      rw [List.length_cons, Nat.add_le_add_iff_right] at hfuel
      rw [ho, follow, hc, List.find?_cons, hc, Option.any_some]
      cases htest : test c with
      | true => simp [htest]
      | false => simpa [htest] using follow_eq test hp hfuel

end Chain

end LibC.Lib
