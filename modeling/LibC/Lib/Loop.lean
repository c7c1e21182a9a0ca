/-
LibC.Lib.Loop — counted loops whose body may fail.

`forRange body a n` is `for (i = a; i < a + n; ++i) body(i)` over an explicit
state, in the `Option` monad: a body that answers `none` stops the loop.
`forRange_invariant` is its only proof rule, and is all a proof about such a
loop needs: an invariant indexed by the loop counter, established at `a` and
carried over every iteration by a body that succeeds.

No `sorry`, no `axiom`, no `native_decide`.
-/
import Mathlib.Data.Nat.Basic

namespace LibC.Lib

variable {σ : Type}

/-- Run `body a`, `body (a + 1)`, …, `body (a + n - 1)` in turn. -/
def forRange (body : Nat → σ → Option σ) : (a n : Nat) → σ → Option σ
  | _, 0, s => some s
  | a, n + 1, s => (body a s).bind fun s' => forRange body (a + 1) n s'

/-- The invariant rule of a counted loop. -/
theorem forRange_invariant {b : Nat → σ → Option σ} (Inv : Nat → σ → Prop) :
    ∀ (n a : Nat) (s : σ), Inv a s →
      (∀ i s, a ≤ i → i < a + n → Inv i s → ∃ s', b i s = some s' ∧ Inv (i + 1) s') →
      ∃ s', forRange b a n s = some s' ∧ Inv (a + n) s'
  | 0, a, s, h0, _ => ⟨s, rfl, h0⟩
  | n + 1, a, s, h0, hstep => by
      obtain ⟨s1, hb, h1⟩ := hstep a s (Nat.le_refl a) (by omega) h0
      obtain ⟨s2, hr, h2⟩ := forRange_invariant Inv n (a + 1) s1 h1
        (fun i s hi hlt => hstep i s (by omega) (by omega))
      refine ⟨s2, ?_, ?_⟩
      · simp [forRange, hb, hr]
      · rwa [show a + (n + 1) = a + 1 + n by omega]

end LibC.Lib
