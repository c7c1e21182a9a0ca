/-
LibC.Lib.Run — runs of a partial step function.

A system is a function `step : ι → σ → Option σ`: `step a s` is the state after
action `a` in state `s`, or `none` when `a` cannot happen in `s` (or must never
be attempted there, when the step is a call that faults). `run step` threads a
list of actions, and seven rules turn a fact about one step into a fact about
every run:

1. `run_invariant`: what every step preserves holds of every state reached; so does
   what the steps of the actions of the run preserve (`run_invariant_mem`).
2. `run_total`: when every step from a good state succeeds and leads to a good
   state, every run succeeds.
3. `run_history`: an invariant that relates the state to the actions so far.
4. `run_total_history`: such an invariant, when every step that starts in it succeeds.
5. `run_invariant_along`: an invariant of the steps that meet a condition, in the
   runs all of whose steps do (`Along`); `run_history_along` when it depends on the
   actions so far.
6. `run_always_iff`: what only a step that fails the condition can break holds in
   every state of a run exactly when no step of the run does.
7. `run_ends_iff`: when a step comes back exactly as long as the actions so far are
   in order, a run does, and ends in a good state; `run_ends_iff_along` when the order
   is a condition on each step.

No `sorry`, no `axiom`, no `native_decide`.
-/
import Mathlib.Data.List.Induction

namespace LibC.Lib

variable {ι σ : Type}

/-- The state after a list of actions. -/
def run (step : ι → σ → Option σ) : List ι → σ → Option σ
  | [], s => some s
  | a :: rest, s => (step a s).bind (run step rest)

variable {step : ι → σ → Option σ} {s s' : σ} {as bs : List ι}

@[simp] theorem run_nil (step : ι → σ → Option σ) (s : σ) : run step [] s = some s := rfl

/-- The first action of a run. -/
theorem run_cons {a : ι} :
    run step (a :: as) s = some s' ↔ ∃ m, step a s = some m ∧ run step as m = some s' :=
  Option.bind_eq_some_iff

/-- A run of a concatenation passes through a middle state. -/
theorem run_append :
    run step (as ++ bs) s = some s' ↔ ∃ m, run step as s = some m ∧ run step bs m = some s' := by
  induction as generalizing s with
  | nil => simp
  | cons a as ih =>
      rw [List.cons_append, run_cons]
      constructor
      · rintro ⟨m, hm, hrun⟩
        obtain ⟨n, h1, h2⟩ := ih.mp hrun
        exact ⟨n, run_cons.mpr ⟨m, hm, h1⟩, h2⟩
      · rintro ⟨n, h1, h2⟩
        obtain ⟨m, hm, h3⟩ := run_cons.mp h1
        exact ⟨m, hm, ih.mpr ⟨n, h3, h2⟩⟩

/-- The last action of a run. -/
theorem run_concat {a : ι} :
    run step (as ++ [a]) s = some s' ↔ ∃ m, run step as s = some m ∧ step a m = some s' := by
  rw [run_append]
  simp only [run_cons, run_nil, Option.some.injEq, exists_eq_right]

/-- What every step preserves, every run preserves. -/
theorem run_invariant (Inv : σ → Prop)
    (hstep : ∀ a s s', Inv s → step a s = some s' → Inv s') :
    ∀ {as : List ι} {s s' : σ}, Inv s → run step as s = some s' → Inv s' := by
  intro as
  induction as with
  | nil =>
      intro s s' h0 hrun
      cases hrun
      exact h0
  | cons a as ih =>
      intro s s' h0 hrun
      obtain ⟨m, hm, hrest⟩ := run_cons.mp hrun
      exact ih (hstep a s m h0 hm) hrest

/-- What the steps of the actions of a run preserve, the run preserves. -/
theorem run_invariant_mem (Inv : σ → Prop) :
    ∀ {as : List ι}, (∀ a ∈ as, ∀ s s', Inv s → step a s = some s' → Inv s') →
      ∀ {s s' : σ}, Inv s → run step as s = some s' → Inv s' := by
  intro as
  induction as with
  | nil =>
      intro _ s s' h0 hrun
      cases hrun
      exact h0
  | cons a as ih =>
      intro hstep s s' h0 hrun
      obtain ⟨m, hm, hrest⟩ := run_cons.mp hrun
      exact ih (fun b hb => hstep b (List.mem_cons_of_mem a hb))
        (hstep a List.mem_cons_self s m h0 hm) hrest

/-- When every step from a good state succeeds and ends in a good state, so does
every run. -/
theorem run_total (Inv : σ → Prop) (hstep : ∀ a s, Inv s → ∃ s', step a s = some s' ∧ Inv s') :
    ∀ (as : List ι) (s : σ), Inv s → ∃ s', run step as s = some s' ∧ Inv s' := by
  intro as
  induction as with
  | nil => exact fun s h0 => ⟨s, rfl, h0⟩
  | cons a as ih =>
      intro s h0
      obtain ⟨m, hm, h1⟩ := hstep a s h0
      obtain ⟨s', hrun, h2⟩ := ih m h1
      exact ⟨s', run_cons.mpr ⟨m, hm, hrun⟩, h2⟩

/-- An invariant of the state and the actions that led to it. -/
theorem run_history (Inv : List ι → σ → Prop) (h0 : Inv [] s)
    (hstep : ∀ past a s s', Inv past s → step a s = some s' → Inv (past ++ [a]) s') :
    ∀ {as : List ι} {s' : σ}, run step as s = some s' → Inv as s' := by
  intro as
  induction as using List.reverseRecOn with
  | nil => intro s' hrun; cases hrun; exact h0
  | append_singleton as a ih =>
      intro s' hrun
      obtain ⟨m, hm, hlast⟩ := run_concat.mp hrun
      exact hstep as a m s' (ih hm) hlast

/-- When every step from a good state succeeds and leads to a good state, and good depends on the
actions so far, every run succeeds. -/
theorem run_total_history (Inv : List ι → σ → Prop)
    (hstep : ∀ past a s, Inv past s → ∃ s', step a s = some s' ∧ Inv (past ++ [a]) s') :
    ∀ (as past : List ι) (s : σ), Inv past s →
      ∃ s', run step as s = some s' ∧ Inv (past ++ as) s' := by
  intro as
  induction as with
  | nil => exact fun past s h0 => ⟨s, rfl, by rwa [List.append_nil]⟩
  | cons a as ih =>
      intro past s h0
      obtain ⟨m, hm, h1⟩ := hstep past a s h0
      obtain ⟨s', hrun, h2⟩ := ih (past ++ [a]) m h1
      exact ⟨s', run_cons.mpr ⟨m, hm, hrun⟩, by rwa [List.append_assoc] at h2⟩

/-- Every step of a run meets a condition, on the action and the state before it. -/
def Along (step : ι → σ → Option σ) (P : ι → σ → Prop) : List ι → σ → Prop
  | [], _ => True
  | a :: as, s => P a s ∧ ∀ s', step a s = some s' → Along step P as s'

/-- The condition along a concatenation. -/
theorem along_append {P : ι → σ → Prop} : Along step P (as ++ bs) s ↔
    Along step P as s ∧ ∀ m, run step as s = some m → Along step P bs m := by
  induction as generalizing s with
  | nil => simp [Along]
  | cons a as ih =>
      rw [List.cons_append, Along, Along, and_assoc]
      refine and_congr Iff.rfl ⟨fun h => ⟨fun m hm => (ih.mp (h m hm)).1, ?_⟩, ?_⟩
      · intro m' hrun
        obtain ⟨m, hm, hrest⟩ := run_cons.mp hrun
        exact (ih.mp (h m hm)).2 m' hrest
      · intro h m hm
        exact ih.mpr ⟨h.1 m hm, fun m' hrest => h.2 m' (run_cons.mpr ⟨m, hm, hrest⟩)⟩

/-- The condition along one more action. -/
theorem along_concat {P : ι → σ → Prop} {a : ι} {m : σ} (hrun : run step as s = some m) :
    Along step P (as ++ [a]) s ↔ Along step P as s ∧ P a m := by
  rw [along_append]
  refine and_congr_right fun _ => ⟨fun h => (h m hrun).1, fun h m' hrun' => ?_⟩
  obtain rfl := Option.some.inj (hrun.symm.trans hrun')
  exact ⟨h, fun _ _ => trivial⟩

/-- A condition that the actions of a run meet in every state. -/
theorem along_of_forall {P : ι → σ → Prop} :
    ∀ {as : List ι} {s : σ}, (∀ a ∈ as, ∀ t, P a t) → Along step P as s
  | [], _, _ => trivial
  | a :: _, s, h => ⟨h a List.mem_cons_self s, fun _ _ =>
      along_of_forall fun b hb => h b (List.mem_cons_of_mem a hb)⟩

/-- A condition on the actions only, when no step fails. -/
theorem along_iff_forall {P : ι → Prop} (htotal : ∀ a s, ∃ s', step a s = some s') :
    ∀ (as : List ι) (s : σ), Along step (fun a _ => P a) as s ↔ ∀ a ∈ as, P a
  | [], _ => by simp [Along]
  | a :: as, s => by
      obtain ⟨m, hm⟩ := htotal a s
      rw [List.forall_mem_cons, ← along_iff_forall htotal as m]
      constructor
      · rintro ⟨h, hrest⟩
        exact ⟨h, hrest m hm⟩
      · rintro ⟨h, hrest⟩
        refine ⟨h, fun s' hs' => ?_⟩
        obtain rfl := Option.some.inj (hm.symm.trans hs')
        exact hrest

/-- What every step that meets a condition preserves, every run of such steps preserves. -/
theorem run_invariant_along {P : ι → σ → Prop} (Inv : σ → Prop)
    (hstep : ∀ a s s', P a s → Inv s → step a s = some s' → Inv s') :
    ∀ {as : List ι} {s s' : σ}, Along step P as s → Inv s → run step as s = some s' → Inv s' := by
  intro as
  induction as with
  | nil =>
      intro s s' _ h0 hrun
      cases hrun
      exact h0
  | cons a as ih =>
      intro s s' hP h0 hrun
      obtain ⟨m, hm, hrest⟩ := run_cons.mp hrun
      exact ih (hP.2 m hm) (hstep a s m hP.1 h0 hm) hrest

/-- An invariant of the state and the actions that led to it, in the runs of steps that meet a
condition. -/
theorem run_history_along {P : ι → σ → Prop} (Inv : List ι → σ → Prop)
    (hstep : ∀ past a s s', P a s → Inv past s → step a s = some s' → Inv (past ++ [a]) s') :
    ∀ {as past : List ι} {s s' : σ}, Along step P as s → Inv past s → run step as s = some s' →
      Inv (past ++ as) s' := by
  intro as
  induction as with
  | nil =>
      intro past s s' _ h0 hrun
      cases hrun
      rwa [List.append_nil]
  | cons a as ih =>
      intro past s s' hP h0 hrun
      obtain ⟨m, hm, hrest⟩ := run_cons.mp hrun
      have hlast := ih (hP.2 m hm) (hstep past a s m hP.1 h0 hm) hrest
      rwa [List.append_assoc] at hlast

/-- A fact that a step upholds exactly when it meets a condition holds in every state of a run
exactly when all its steps do. The invariant has to survive the steps that meet the condition. -/
theorem run_always_iff {P : ι → σ → Prop} (Inv : σ → Prop) (Good : List ι → σ → Prop)
    (hinv : ∀ a s, Inv s → ∃ s', step a s = some s' ∧ (P a s → Inv s'))
    (hstep : ∀ past a s s', Inv s → Good past s → step a s = some s' →
      (Good (past ++ [a]) s' ↔ P a s)) :
    ∀ (as past : List ι) (s : σ), Inv s → Good past s →
      ((∀ xs ys, as = xs ++ ys → ∃ s', run step xs s = some s' ∧ Good (past ++ xs) s') ↔
        Along step P as s)
  | [], past, s, _, hgood => by
      refine ⟨fun _ => trivial, fun _ xs ys heq => ?_⟩
      obtain ⟨rfl, -⟩ := List.append_eq_nil_iff.mp heq.symm
      exact ⟨s, rfl, by rwa [List.append_nil]⟩
  | a :: as, past, s, h0, hgood => by
      obtain ⟨m, hm, h1⟩ := hinv a s h0
      have hiff := hstep past a s m h0 hgood hm
      have ih := fun hP hgood1 =>
        run_always_iff Inv Good hinv hstep as (past ++ [a]) m (h1 hP) hgood1
      constructor
      · intro hall
        obtain ⟨m', hm', hgood1⟩ := hall [a] as rfl
        obtain ⟨_, hs, hnil⟩ := run_cons.mp hm'
        cases hnil
        obtain rfl := Option.some.inj (hm.symm.trans hs)
        have hP := hiff.mp hgood1
        refine ⟨hP, fun s' hs' => ?_⟩
        obtain rfl := Option.some.inj (hm.symm.trans hs')
        refine (ih hP hgood1).mp fun xs ys heq => ?_
        obtain ⟨s', hrun, hgood'⟩ := hall (a :: xs) ys (by rw [heq, List.cons_append])
        obtain ⟨_, hs, hrun⟩ := run_cons.mp hrun
        obtain rfl := Option.some.inj (hm.symm.trans hs)
        exact ⟨s', hrun, by rwa [List.append_assoc]⟩
      · rintro ⟨hP, hrest⟩ xs ys heq
        cases xs with
        | nil => exact ⟨s, rfl, by rwa [List.append_nil]⟩
        | cons b xs =>
            obtain ⟨rfl, htail⟩ := List.cons.inj heq
            obtain ⟨s', hrun, hgood'⟩ := (ih hP (hiff.mpr hP)).mpr (hrest m hm) xs ys htail
            exact ⟨s', run_cons.mpr ⟨m, hm, hrun⟩, by rwa [List.append_assoc] at hgood'⟩

/-- When a step from a good state comes back exactly as long as the actions so far are in order,
and leads to a good state then, a run comes back exactly when its actions are in order. -/
theorem run_ends_iff (step : ι → σ → Option σ) (s : σ) (Inv : List ι → σ → Prop)
    (Good : List ι → Prop) (hinv : Inv [] s) (hgood : Good [])
    (hclosed : ∀ past a, Good (past ++ [a]) → Good past)
    (hmeets : ∀ past a m, Inv past m → Good (past ++ [a]) →
      ∃ m', step a m = some m' ∧ Inv (past ++ [a]) m')
    (hfails : ∀ past a m, Inv past m → ¬ Good (past ++ [a]) → step a m = none) (as : List ι) :
    (∀ s', run step as s = some s' → Good as) ∧
      (Good as → ∃ s', run step as s = some s' ∧ Inv as s') := by
  induction as using List.reverseRecOn with
  | nil => exact ⟨fun _ _ => hgood, fun _ => ⟨s, rfl, hinv⟩⟩
  | append_singleton as a ih =>
      constructor
      · intro s' hrun
        obtain ⟨m, hm, hlast⟩ := run_concat.mp hrun
        obtain ⟨m', hm', h⟩ := ih.2 (ih.1 m hm)
        obtain rfl := Option.some.inj (hm.symm.trans hm')
        by_contra hno
        rw [hfails as a m h hno] at hlast
        cases hlast
      · intro h
        obtain ⟨m, hm, hpast⟩ := ih.2 (hclosed as a h)
        obtain ⟨m', hstep, hlast⟩ := hmeets as a m hpast h
        exact ⟨m', run_concat.mpr ⟨m, hm, hstep⟩, hlast⟩

/-- When a step from a good state comes back exactly if it meets a condition, and leads to a good
state then, a run comes back exactly when all its steps meet it. -/
theorem run_ends_iff_along (step : ι → σ → Option σ) (s : σ) (P : ι → σ → Prop)
    (Inv : List ι → σ → Prop) (hinv : Inv [] s)
    (hmeets : ∀ past a m, Inv past m → P a m → ∃ m', step a m = some m' ∧ Inv (past ++ [a]) m')
    (hfails : ∀ past a m, Inv past m → ¬ P a m → step a m = none) (as : List ι) :
    (∀ s', run step as s = some s' → Along step P as s) ∧
      (Along step P as s → ∃ s', run step as s = some s' ∧ Inv as s') := by
  obtain ⟨hends, hgood⟩ := run_ends_iff step s
    (fun past m => run step past s = some m ∧ Along step P past s ∧ Inv past m)
    (fun past => Along step P past s) ⟨rfl, trivial, hinv⟩ trivial
    (fun past a h => (along_append.mp h).1) (fun past a m hm h => by
      obtain ⟨hrun, _, hm⟩ := hm
      obtain ⟨m', hstep, hm'⟩ := hmeets past a m hm ((along_concat hrun).mp h).2
      exact ⟨m', hstep, run_concat.mpr ⟨m, hrun, hstep⟩, h, hm'⟩)
    (fun past a m hm hno => by
      obtain ⟨hrun, hpast, hm⟩ := hm
      exact hfails past a m hm fun h => hno ((along_concat hrun).mpr ⟨hpast, h⟩)) as
  refine ⟨hends, fun h => ?_⟩
  obtain ⟨s', hrun, _, _, hs'⟩ := hgood h
  exact ⟨s', hrun, hs'⟩

end LibC.Lib
