/-
LibC.Lib.Circular — circular lists with links in both directions.

The links are two partial functions on addresses, `next` and `pre`. A `Segment`
from `a` to `b` past the cells `ps` has every pair of neighbours linked both ways,
and a circular list is a segment from the sentinel back to it that passes no
cell twice. What is said of one direction holds of the other
(`Circular.reverse`).

A change of the list is given by what the links are afterwards: a new cell goes
behind the sentinel (`Circular.push`).

No `sorry`, no `axiom`, no `native_decide`.
-/
import LibC.Lib.Heap
import Mathlib.Data.List.Induction
import Mathlib.Data.List.Nodup

namespace LibC.Lib

/-- `b` is the next cell after `a`, and `a` the one before `b`. -/
def Linked (next pre : Ptr → Option Ptr) (a b : Ptr) : Prop := next a = some b ∧ pre b = some a

/-- The cells `ps` lead from `a` to `b`. -/
def Segment (next pre : Ptr → Option Ptr) : Ptr → List Ptr → Ptr → Prop
  | a, [], b => Linked next pre a b
  | a, p :: ps, b => Linked next pre a p ∧ Segment next pre p ps b

/-- The cells `ps` lead from the sentinel `s` back to it. -/
structure Circular (next pre : Ptr → Option Ptr) (s : Ptr) (ps : List Ptr) : Prop where
  segment : Segment next pre s ps s
  nodup : (s :: ps).Nodup

variable {next pre next' pre' : Ptr → Option Ptr} {a b p s n : Ptr} {ps xs ys : List Ptr}

/-! ## Segments -/

/-- A segment taken apart at a cell. -/
theorem segment_append {xs : List Ptr} {a : Ptr} : Segment next pre a (xs ++ p :: ys) b ↔
    Segment next pre a xs p ∧ Segment next pre p ys b := by
  induction xs generalizing a with
  | nil => rfl
  | cons x xs ih => rw [List.cons_append, Segment, Segment, ih, and_assoc]

/-- A segment depends on the links of its cells only. -/
theorem Segment.congr : ∀ {ps : List Ptr} {a : Ptr}, Segment next pre a ps b →
    (∀ q ∈ a :: ps, next' q = next q) → (∀ q ∈ ps ++ [b], pre' q = pre q) →
      Segment next' pre' a ps b
  | [], a, ⟨hnext, hpre⟩, hn, hp =>
      ⟨(hn a List.mem_cons_self).trans hnext, (hp b (by simp)).trans hpre⟩
  | p :: ps, a, ⟨⟨hnext, hpre⟩, hps⟩, hn, hp => by
      refine ⟨⟨(hn a List.mem_cons_self).trans hnext, (hp p List.mem_cons_self).trans hpre⟩,
        hps.congr (fun q hq => hn q (List.mem_cons_of_mem _ hq)) fun q hq => hp q ?_⟩
      exact List.mem_cons_of_mem _ hq

/-- The first link of a segment. -/
theorem Segment.first (h : Segment next pre a ps b) : next a = some (ps.headD b) := by
  cases ps with
  | nil => exact h.1
  | cons p ps => exact h.1.1

theorem Segment.reverse : ∀ {ps : List Ptr} {a : Ptr}, Segment next pre a ps b →
    Segment pre next b ps.reverse a
  | [], a, h => ⟨h.2, h.1⟩
  | p :: ps, a, ⟨hlink, hps⟩ => by
      rw [List.reverse_cons]
      exact segment_append.mpr ⟨hps.reverse, hlink.2, hlink.1⟩

namespace Circular

/-! ## Links -/

theorem reverse (h : Circular next pre s ps) : Circular pre next s ps.reverse := by
  refine ⟨h.segment.reverse, ?_⟩
  obtain ⟨hs, hps⟩ := List.nodup_cons.mp h.nodup
  exact List.nodup_cons.mpr ⟨fun hm => hs (List.mem_reverse.mp hm), List.nodup_reverse.mpr hps⟩

/-- After the sentinel comes the first cell. -/
theorem next_sentinel (h : Circular next pre s ps) : next s = some (ps.headD s) := h.segment.first

/-- After a cell comes the one behind it, or the sentinel. -/
theorem next_cell (h : Circular next pre s (xs ++ p :: ys)) : next p = some (ys.headD s) :=
  (segment_append.mp h.segment).2.first

theorem headD_mem (s : Ptr) (ps : List Ptr) : ps.headD s ∈ s :: ps := by
  cases ps with
  | nil => exact List.mem_cons_self
  | cons p ps => exact List.mem_cons_of_mem _ List.mem_cons_self

/-! ## Changes -/

/-- The sentinel alone. -/
theorem nil (hnext : next s = some s) (hpre : pre s = some s) : Circular next pre s [] :=
  ⟨⟨hnext, hpre⟩, List.nodup_singleton s⟩

/-- The cells behind `p` follow `a` instead. -/
theorem bridge (hp : Segment next pre p ys s) (hys : ys.Nodup) (hs : s ∉ ys)
    (ha : next' a = next p) (hnext : ∀ q ∈ ys, next' q = next q)
    (hpre : ∀ q ∈ ys ++ [s], pre' q = if next p = some q then some a else pre q) :
    Segment next' pre' a ys s := by
  cases ys with
  | nil =>
      have hfirst : next p = some s := hp.first
      exact ⟨ha.trans hfirst, (hpre s List.mem_cons_self).trans (if_pos hfirst)⟩
  | cons b ys =>
      have hfirst : next p = some b := hp.first
      obtain ⟨hb, _⟩ := List.nodup_cons.mp hys
      refine ⟨⟨ha.trans hfirst, (hpre b List.mem_cons_self).trans (if_pos hfirst)⟩,
        hp.2.congr hnext fun q hq => ?_⟩
      have hqb : ¬ next p = some q := by
        rw [hfirst, Option.some_inj]
        rintro rfl
        rcases List.mem_append.mp hq with hq | hq
        · exact hb hq
        · exact hs (List.mem_singleton.mp hq ▸ List.mem_cons_self)
      exact (hpre q (List.mem_cons_of_mem _ hq)).trans (if_neg hqb)

/-- A new cell becomes the first one. -/
theorem push (h : Circular next pre s ps) (hn : n ∉ s :: ps)
    (hnext : ∀ q, next' q = if q = s then some n else if q = n then next s else next q)
    (hpre : ∀ q, pre' q = if q = n then some s else if next s = some q then some n else pre q) :
    Circular next' pre' s (n :: ps) := by
  obtain ⟨hs, hps⟩ := List.nodup_cons.mp h.nodup
  rw [List.mem_cons, not_or] at hn
  obtain ⟨hns, hnps⟩ := hn
  refine ⟨⟨⟨(hnext s).trans (if_pos rfl), (hpre n).trans (if_pos rfl)⟩, ?_⟩, ?_⟩
  · refine bridge h.segment hps hs ?_ (fun q hq => ?_) fun q hq => ?_
    · rw [hnext, if_neg hns, if_pos rfl]
    · have hqs : q ≠ s := fun heq => hs (heq ▸ hq)
      have hqn : q ≠ n := fun heq => hnps (heq ▸ hq)
      rw [hnext, if_neg hqs, if_neg hqn]
    · have hqn : q ≠ n := by
        rintro rfl
        rcases List.mem_append.mp hq with hq | hq
        · exact hnps hq
        · exact hns (List.mem_singleton.mp hq)
      rw [hpre, if_neg hqn]
  · rw [List.nodup_cons, List.mem_cons, not_or]
    exact ⟨⟨Ne.symm hns, hs⟩, List.nodup_cons.mpr ⟨hnps, hps⟩⟩

end Circular

end LibC.Lib
