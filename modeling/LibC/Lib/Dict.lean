/-
LibC.Lib.Dict — a finite map with distinct keys.

The entries stand in some order, as they do in a hash table, and carry the
proof that no key occurs twice. `find` does not depend on the order, and each
operation is specified by what `find` answers afterwards. Whoever iterates
over the entries of a hash table may see them in any order; a result about an
iteration is stated for every permutation of `entries`.

No `sorry`, no `axiom`, no `native_decide`.
-/
import Mathlib.Data.List.Nodup

namespace LibC.Lib

/-- A map from keys to values. -/
structure Dict (κ ν : Type) where
  entries : List (κ × ν)
  nodup : (entries.map Prod.fst).Nodup

namespace Dict

variable {κ ν : Type}

/-- The map without entries. -/
def empty : Dict κ ν := ⟨[], List.nodup_nil⟩

variable [DecidableEq κ]

/-- Look a key up. -/
def find (d : Dict κ ν) (k : κ) : Option ν := (d.entries.find? fun e => e.1 = k).map Prod.snd

theorem find_eq_some {d : Dict κ ν} {k : κ} {v : ν} : d.find k = some v ↔ (k, v) ∈ d.entries := by
  constructor
  · intro h
    simp only [find, Option.map_eq_some_iff] at h
    obtain ⟨e, he, rfl⟩ := h
    have hk : e.1 = k := by simpa using List.find?_some he
    exact hk ▸ List.mem_of_find?_eq_some he
  · intro hmem
    cases hf : d.entries.find? fun e => e.1 = k with
    | none =>
        have := List.find?_eq_none.mp hf (k, v) hmem
        simp at this
    | some e =>
        have hk : e.1 = k := by simpa using List.find?_some hf
        have he := List.mem_of_find?_eq_some hf
        have heq : e = (k, v) := List.inj_on_of_nodup_map d.nodup he hmem hk
        simp [find, hf, heq]

theorem find_eq_none {d : Dict κ ν} {k : κ} : d.find k = none ↔ k ∉ d.entries.map Prod.fst := by
  rw [find, Option.map_eq_none_iff, List.find?_eq_none, List.mem_map]
  constructor
  · rintro h ⟨e, he, hk⟩
    exact h e he (by simpa using hk)
  · intro h e he hk
    exact h ⟨e, he, by simpa using hk⟩

@[simp] theorem find_empty (k : κ) : (empty : Dict κ ν).find k = none := rfl

/-- Add an entry for a key that has none; an entry that is there stays. -/
def insert (k : κ) (v : ν) (d : Dict κ ν) : Dict κ ν :=
  if h : k ∈ d.entries.map Prod.fst then d
  else ⟨d.entries ++ [(k, v)], by
    rw [List.map_append, List.nodup_append]
    refine ⟨d.nodup, List.nodup_singleton k, fun a ha b hb heq => h ?_⟩
    obtain rfl : b = k := List.mem_singleton.mp hb
    exact heq ▸ ha⟩

theorem entries_insert {d : Dict κ ν} {k : κ} (h : d.find k = none) (v : ν) :
    (d.insert k v).entries = d.entries ++ [(k, v)] := by
  rw [insert, dif_neg (find_eq_none.mp h)]

theorem find_insert {d : Dict κ ν} {k : κ} (h : d.find k = none) (v : ν) (q : κ) :
    (d.insert k v).find q = if q = k then some v else d.find q := by
  rw [find, entries_insert h, List.find?_append]
  by_cases hq : q = k
  · subst hq
    have hnone : d.entries.find? (fun e => e.1 = q) = none := by simpa [find] using h
    simp [hnone]
  · simp [find, hq, Ne.symm hq]

/-- What is found after an insertion was there or is the new entry. -/
theorem find_insert_cases {d : Dict κ ν} {k q : κ} {v u : ν} (h : (d.insert k v).find q = some u) :
    d.find q = some u ∨ (q = k ∧ u = v) := by
  by_cases hk : d.find k = none
  · rw [find_insert hk] at h
    split at h
    · next hq => exact Or.inr ⟨hq, (Option.some.inj h).symm⟩
    · exact Or.inl h
  · rw [insert, dif_pos (by_contra fun hn => hk (find_eq_none.mpr hn))] at h
    exact Or.inl h

/-- Change the value of a key, if it has one. -/
def modify (k : κ) (f : ν → ν) (d : Dict κ ν) : Dict κ ν :=
  ⟨d.entries.map fun e => if e.1 = k then (e.1, f e.2) else e, by
    have hfst : (d.entries.map fun e => if e.1 = k then (e.1, f e.2) else e).map Prod.fst =
        d.entries.map Prod.fst := by
      rw [List.map_map]
      refine List.map_congr_left fun e _ => ?_
      simp only [Function.comp_apply]
      split <;> rfl
    rw [hfst]
    exact d.nodup⟩

theorem find_modify (d : Dict κ ν) (k : κ) (f : ν → ν) (q : κ) :
    (d.modify k f).find q = if q = k then (d.find q).map f else d.find q := by
  have hmap : ∀ l : List (κ × ν),
      ((l.map fun e => if e.1 = k then (e.1, f e.2) else e).find? fun e => e.1 = q).map Prod.snd =
        if q = k then ((l.find? fun e => e.1 = q).map Prod.snd).map f
        else (l.find? fun e => e.1 = q).map Prod.snd := by
    intro l
    induction l with
    | nil => simp
    | cons e l ih =>
        rw [List.map_cons, List.find?_cons, List.find?_cons]
        by_cases hek : e.1 = k
        · by_cases hqk : q = k
          · simp [hek, hqk]
          · have hne : ¬ k = q := fun h => hqk h.symm
            simp only [hek, if_true, hne, decide_false, ih]
        · by_cases heq : e.1 = q
          · have hqk : ¬ q = k := fun h => hek (heq.trans h)
            simp [heq, hqk]
          · simp only [hek, if_false, heq, decide_false, ih]
  exact hmap d.entries

/-- Putting back the value a key has. -/
theorem modify_self {d : Dict κ ν} {k : κ} {v : ν} (h : d.find k = some v) :
    (d.modify k fun _ => v) = d := by
  have hmap : (d.entries.map fun e => if e.1 = k then (e.1, v) else e) = d.entries.map id := by
    refine List.map_congr_left fun e he => ?_
    split
    · next hk =>
        have hv : (k, v) = e :=
          List.inj_on_of_nodup_map d.nodup (find_eq_some.mp h) he hk.symm
        rw [← hv, id_eq]
    · rfl
  rw [List.map_id] at hmap
  cases d with
  | mk entries nodup => simp only [modify, mk.injEq]; exact hmap

/-- Drop the entry of a key. -/
def erase (k : κ) (d : Dict κ ν) : Dict κ ν :=
  ⟨d.entries.filter fun e => e.1 ≠ k,
    d.nodup.sublist (List.filter_sublist.map Prod.fst)⟩

theorem find_erase (d : Dict κ ν) (k q : κ) :
    (d.erase k).find q = if q = k then none else d.find q := by
  have hsome : ∀ v, (d.erase k).find q = some v ↔ q ≠ k ∧ d.find q = some v := by
    intro v
    rw [find_eq_some, find_eq_some, erase, List.mem_filter]
    simp [and_comm]
  by_cases hq : q = k
  · rw [if_pos hq, Option.eq_none_iff_forall_ne_some]
    exact fun v hv => ((hsome v).mp hv).1 hq
  · rw [if_neg hq]
    refine Option.ext fun v => ?_
    rw [hsome v]
    exact ⟨And.right, fun h => ⟨hq, h⟩⟩

/-- The entries, in an order of the keys; `none` when these are not the keys. -/
def entriesBy (order : List κ) (d : Dict κ ν) : Option (List (κ × ν)) :=
  if order.Perm (d.entries.map Prod.fst) then
    some (order.filterMap fun k => (d.find k).map fun v => (k, v))
  else none

/-- They are the entries. -/
theorem perm_entriesBy {d : Dict κ ν} {order : List κ} {l : List (κ × ν)}
    (h : d.entriesBy order = some l) : l.Perm d.entries := by
  unfold entriesBy at h
  split at h
  · next hperm =>
      obtain rfl := Option.some.inj h
      have hself : (d.entries.map Prod.fst).filterMap (fun k => (d.find k).map fun v => (k, v)) =
          d.entries := by
        rw [List.filterMap_map]
        refine (List.filterMap_congr fun e he => ?_).trans List.filterMap_some
        rw [Function.comp_apply, find_eq_some.mpr he, Option.map_some]
      have hall := hperm.filterMap fun k => (d.find k).map fun v => (k, v)
      rwa [hself] at hall
  · cases h

end Dict

end LibC.Lib
