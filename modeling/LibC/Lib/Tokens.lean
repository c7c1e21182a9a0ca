/-
LibC.Lib.Tokens — numbered tokens that are never duplicated.

A token is loose (it stands in a list) or held by somebody. `Tokens loose held n`
says that the tokens are numbered below `n`, and that each of them is in one
place at most. The lemmas are the moves that keep this: issuing the next token,
taking one up, putting it down, losing it, and rearranging the loose ones.

No `sorry`, no `axiom`, no `native_decide`.
-/
import Mathlib.Data.List.Nodup
import Mathlib.Logic.Function.Basic

namespace LibC.Lib

variable {κ : Type}

/-- The tokens are below `n`, each of them in one place at most. -/
structure Tokens (loose : List ℕ) (held : κ → Option ℕ) (n : ℕ) : Prop where
  nodup : loose.Nodup
  lt : ∀ r ∈ loose, r < n
  held_lt : ∀ k r, held k = some r → r < n
  apart : ∀ k r, held k = some r → r ∉ loose
  inj : ∀ k k' r, held k = some r → held k' = some r → k = k'

namespace Tokens

variable {loose loose' : List ℕ} {held : κ → Option ℕ} {n r : ℕ}

theorem init : Tokens [] (fun _ : κ => none) 0 :=
  ⟨List.nodup_nil, by simp, by simp, by simp, by simp⟩

/-- Rearranging the loose tokens. -/
theorem perm (h : Tokens loose held n) (hp : loose.Perm loose') : Tokens loose' held n :=
  ⟨hp.nodup_iff.mp h.nodup, fun r hr => h.lt r (hp.mem_iff.mpr hr), h.held_lt,
    fun k r hk hr => h.apart k r hk (hp.mem_iff.mpr hr), h.inj⟩

/-- The next token. -/
theorem issue (h : Tokens loose held n) : Tokens (n :: loose) held (n + 1) := by
  refine ⟨List.nodup_cons.mpr ⟨fun hn => Nat.lt_irrefl _ (h.lt n hn), h.nodup⟩, fun r hr => ?_,
    fun k r hk => Nat.lt_succ_of_lt (h.held_lt k r hk), fun k r hk hr => ?_, h.inj⟩
  · rcases List.mem_cons.mp hr with rfl | hr
    · exact Nat.lt_succ_self _
    · exact Nat.lt_succ_of_lt (h.lt r hr)
  · rcases List.mem_cons.mp hr with rfl | hr
    · exact Nat.lt_irrefl _ (h.held_lt k r hk)
    · exact h.apart k r hk hr

/-- A loose token is lost. -/
theorem drop (h : Tokens (r :: loose) held n) : Tokens loose held n :=
  ⟨(List.nodup_cons.mp h.nodup).2, fun q hq => h.lt q (List.mem_cons_of_mem _ hq), h.held_lt,
    fun k q hk hq => h.apart k q hk (List.mem_cons_of_mem _ hq), h.inj⟩

variable [DecidableEq κ]

/-- What somebody holds is lost. -/
theorem forget (h : Tokens loose held n) (k : κ) :
    Tokens loose (Function.update held k none) n := by
  have hother : ∀ {k' q}, Function.update held k none k' = some q → held k' = some q := by
    intro k' q hq
    by_cases hk : k' = k
    · subst hk; simp at hq
    · rwa [Function.update_of_ne hk] at hq
  exact ⟨h.nodup, h.lt, fun k' q hq => h.held_lt k' q (hother hq),
    fun k' q hq => h.apart k' q (hother hq),
    fun k1 k2 q h1 h2 => h.inj k1 k2 q (hother h1) (hother h2)⟩

/-- A loose token is taken up; what was held before is lost. -/
theorem take (h : Tokens (r :: loose) held n) (k : κ) :
    Tokens loose (Function.update held k (some r)) n := by
  have hr := (List.nodup_cons.mp h.nodup).1
  have hcases : ∀ {k' q}, Function.update held k (some r) k' = some q →
      (k' = k ∧ q = r) ∨ (k' ≠ k ∧ held k' = some q ∧ q ≠ r) := by
    intro k' q hq
    by_cases hk : k' = k
    · subst hk
      rw [Function.update_self] at hq
      exact Or.inl ⟨rfl, (Option.some.inj hq).symm⟩
    · rw [Function.update_of_ne hk] at hq
      exact Or.inr ⟨hk, hq, fun heq => h.apart k' q hq (heq ▸ List.mem_cons_self ..)⟩
  refine ⟨(List.nodup_cons.mp h.nodup).2, fun q hq => h.lt q (List.mem_cons_of_mem _ hq),
    fun k' q hq => ?_, fun k' q hq => ?_, fun k1 k2 q h1 h2 => ?_⟩
  · rcases hcases hq with ⟨_, rfl⟩ | ⟨_, hq, _⟩
    · exact h.lt q (List.mem_cons_self ..)
    · exact h.held_lt k' q hq
  · rcases hcases hq with ⟨_, rfl⟩ | ⟨_, hq, _⟩
    · exact hr
    · exact fun hm => h.apart k' q hq (List.mem_cons_of_mem _ hm)
  · rcases hcases h1 with ⟨rfl, rfl⟩ | ⟨_, h1, hne⟩ <;>
      rcases hcases h2 with ⟨rfl, heq⟩ | ⟨_, h2, hne'⟩
    · rfl
    · exact absurd rfl hne'
    · exact absurd heq hne
    · exact h.inj k1 k2 q h1 h2

/-- What somebody holds is put down. -/
theorem release (h : Tokens loose held n) {k : κ} (hk : held k = some r) :
    Tokens (r :: loose) (Function.update held k none) n := by
  have h' := h.forget k
  refine ⟨List.nodup_cons.mpr ⟨h.apart k r hk, h.nodup⟩, fun q hq => ?_, h'.held_lt,
    fun k' q hq hm => ?_, h'.inj⟩
  · rcases List.mem_cons.mp hq with rfl | hq
    · exact h.held_lt k q hk
    · exact h.lt q hq
  · rcases List.mem_cons.mp hm with rfl | hm
    · by_cases hkk : k' = k
      · subst hkk; simp at hq
      · rw [Function.update_of_ne hkk] at hq
        exact hkk (h.inj k' k q hq hk)
    · exact h'.apart k' q hq hm

end Tokens

end LibC.Lib
