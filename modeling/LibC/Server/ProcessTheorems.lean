/-
LibC.Server.ProcessTheorems — `chilld_pid` and the children of the server.

`Ok` is what holds of every run: there is at most one save child, alive or waiting
for `wait3`, and it is the one `chilld_pid` names.

`WaitChilen` clears `chilld_pid` when `wait3` names a child. With the default
action for `SIGCHLD` it gets there once the child has ended
(`run_recovers_default`). `InitSigHandler` ignores `SIGCHLD`, so `wait3` names no
child, and the number of the first save child stays (`run_recovers_iff`).

No `sorry`, no `axiom`, no `native_decide`.
-/
import LibC.Lib.Run
import LibC.Server.Process

namespace LibC

open LibC.Lib

namespace Proc

variable {σ : Type} {p p' : Proc σ} {persistendTime : Int32} {now : Int64}

/-! ## One step -/

/-- What `OnIdle` does: nothing, or it forks a child when none is known. -/
theorem onIdle_cases {fork : Option (Int32 × σ)} (h : p.onIdle persistendTime now fork = some p') :
    (p' = p ∧ (p.server.chilldPid ≠ -1 ∨ fork = none ∨
      ¬ Due persistendTime now p.server.uiLastSaveTime)) ∨
    ∃ pid child, fork = some (pid, child) ∧ Due persistendTime now p.server.uiLastSaveTime ∧
      p.server.chilldPid = -1 ∧ p.CanFork pid ∧
      p' = { p with
        server := { p.server with chilldPid := pid, uiForkStartTime := now }
        alive := p.alive.insert pid child } := by
  rw [onIdle] at h
  split at h
  · next hdue =>
      unfold bgSaveDb at h
      split at h
      · next hpid => exact Or.inl ⟨by simpa using h.symm, Or.inl hpid⟩
      · next hpid =>
          cases fork with
          | none => exact Or.inl ⟨by simpa using h.symm, Or.inr (Or.inl rfl)⟩
          | some f =>
              obtain ⟨pid, child⟩ := f
              simp only at h
              split at h
              · next hfork =>
                  exact Or.inr ⟨pid, child, rfl, hdue, not_not.mp hpid, hfork,
                    by simpa using h.symm⟩
              · cases h
  · next hdue => exact Or.inl ⟨(Option.some.inj h).symm, Or.inr (Or.inr hdue)⟩

/-- What `WaitChilen` does when a child waits for it: it clears `chilld_pid`. -/
theorem onTick_zombie {z : Int32 × Status} {zombies : List (Int32 × Status)}
    (hpid : p.server.chilldPid ≠ -1) (hz : p.zombies = z :: zombies) (now : Int64) :
    (p.onTick now).2.server.chilldPid = -1 ∧ (p.onTick now).2.zombies = zombies ∧
      (p.onTick now).2.alive = p.alive ∧ (p.onTick now).2.sigchld = p.sigchld := by
  obtain ⟨pid, status⟩ := z
  rw [onTick, waitChilen, if_pos hpid, wait3, hz]
  cases status <;> exact ⟨rfl, rfl, rfl, rfl⟩

/-- What `WaitChilen` does otherwise: nothing. -/
theorem onTick_idle (h : p.server.chilldPid = -1 ∨ p.zombies = []) (now : Int64) :
    p.onTick now = (false, p) := by
  rw [onTick, waitChilen]
  split
  · next hpid =>
      rw [wait3, h.resolve_left hpid]
      by_cases halive : p.alive.entries.isEmpty = true
      · simp [halive]
      · simp [halive]
  · rfl

/-- What the end of a child does. -/
theorem childExit_cases {pid : Int32} {status : Status} (h : p.childExit pid status = some p') :
    ∃ child, p.alive.find pid = some child ∧
      p' = { p with
        alive := p.alive.erase pid
        zombies := if p.sigchld = .ignore then p.zombies else p.zombies ++ [(pid, status)] } := by
  rw [childExit] at h
  cases hfind : p.alive.find pid with
  | none => rw [hfind] at h; cases h
  | some child => rw [hfind] at h; exact ⟨child, rfl, (Option.some.inj h).symm⟩

/-! ## One save child -/

/-- There is at most one child, alive or not, and `chilld_pid` names it. -/
structure Ok (p : Proc σ) : Prop where
  alive : ∀ pid child, p.alive.find pid = some child → 0 < pid ∧ p.server.chilldPid = pid
  zombies : p.zombies ≠ [] → p.server.chilldPid ≠ -1 ∧ (∀ pid, p.alive.find pid = none) ∧
    ∃ z, p.zombies = [z]

theorem ok_onInit (sigchld : Disposition) (now junk junk' : Int64) :
    Ok (onInit sigchld now junk junk' : Proc σ) :=
  ⟨fun _ _ h => by simp [onInit] at h, fun h => absurd rfl h⟩

/-- While `chilld_pid` is `-1` there is no child. -/
theorem Ok.no_child (h : p.Ok) (hpid : p.server.chilldPid = -1) :
    (∀ pid, p.alive.find pid = none) ∧ p.zombies = [] := by
  constructor
  · intro pid
    cases hfind : p.alive.find pid with
    | none => rfl
    | some child =>
        obtain ⟨hpos, heq⟩ := h.alive pid child hfind
        rw [← heq, hpid] at hpos
        exact absurd hpos (by decide)
  · exact by_contra fun hz => (h.zombies hz).1 hpid

theorem Ok.onIdle (h : p.Ok) {fork : Option (Int32 × σ)}
    (hrun : p.onIdle persistendTime now fork = some p') : p'.Ok := by
  rcases onIdle_cases hrun with ⟨rfl, _⟩ | ⟨pid, child, _, _, hpid, hfork, rfl⟩
  · exact h
  · obtain ⟨halive, hz⟩ := h.no_child hpid
    refine ⟨fun q c hq => ?_, fun hne => absurd hz hne⟩
    rcases Dict.find_insert_cases hq with hq | ⟨rfl, _⟩
    · rw [halive q] at hq
      cases hq
    · exact ⟨hfork.1, rfl⟩

theorem Ok.onTick (h : p.Ok) (now : Int64) : (p.onTick now).2.Ok := by
  by_cases hidle : p.server.chilldPid = -1 ∨ p.zombies = []
  · rw [onTick_idle hidle]
    exact h
  · rw [not_or] at hidle
    obtain ⟨_, halive, z, hz⟩ := h.zombies hidle.2
    obtain ⟨_, hz', halive', _⟩ := onTick_zombie hidle.1 hz now
    refine ⟨fun q c hq => ?_, fun hne => absurd hz' hne⟩
    rw [halive', halive q] at hq
    cases hq

theorem Ok.childExit (h : p.Ok) {pid : Int32} {status : Status}
    (hrun : p.childExit pid status = some p') : p'.Ok := by
  obtain ⟨child, hfind, rfl⟩ := childExit_cases hrun
  obtain ⟨hpos, hpid⟩ := h.alive pid child hfind
  have hz : p.zombies = [] := by
    by_contra hne
    have hnone := (h.zombies hne).2.1 pid
    rw [hfind] at hnone
    cases hnone
  have hnone : ∀ q, (p.alive.erase pid).find q = none := by
    intro q
    rw [Dict.find_erase]
    split
    · rfl
    · next hq =>
        cases hc : p.alive.find q with
        | none => rfl
        | some c => exact absurd ((h.alive q c hc).2.symm.trans hpid) hq
  have hne : p.server.chilldPid ≠ -1 := by
    intro heq
    rw [← hpid, heq] at hpos
    exact absurd hpos (by decide)
  refine ⟨fun q c hq => ?_, fun hz' => ⟨hne, hnone, (pid, status), ?_⟩⟩
  · rw [hnone q] at hq
    cases hq
  · simp only [hz] at hz' ⊢
    split at hz'
    · exact absurd rfl hz'
    · next hign => rw [if_neg hign]; rfl

/-! ## The default action -/

/-- A number in `chilld_pid` is that of a child that is alive or waits for `wait3`. -/
structure Known (p : Proc σ) : Prop where
  sigchld : p.sigchld = .default
  known : p.server.chilldPid = -1 ∨ p.zombies ≠ [] ∨ ∃ pid child, p.alive.find pid = some child

theorem Known.step (h : p.Known) {ev : Event σ} (hrun : step persistendTime ev p = some p') :
    p'.Known := by
  cases ev with
  | idle now fork =>
      rcases onIdle_cases hrun with ⟨rfl, _⟩ | ⟨pid, child, _, _, _, hfork, rfl⟩
      · exact h
      · exact ⟨h.sigchld,
          Or.inr (Or.inr ⟨pid, child, by rw [Dict.find_insert hfork.2.1, if_pos rfl]⟩)⟩
  | tick now =>
      cases hrun
      by_cases hidle : p.server.chilldPid = -1 ∨ p.zombies = []
      · rw [onTick_idle hidle]
        exact h
      · rw [not_or] at hidle
        obtain ⟨z, zombies, hz⟩ := List.exists_cons_of_ne_nil hidle.2
        obtain ⟨hpid, _, _, hsig⟩ := onTick_zombie hidle.1 hz now
        exact ⟨hsig.trans h.sigchld, Or.inl hpid⟩
  | childExit pid status =>
      obtain ⟨child, _, rfl⟩ := childExit_cases hrun
      refine ⟨h.sigchld, Or.inr (Or.inl ?_)⟩
      simp [h.sigchld]

/-- With the default action for `SIGCHLD`, the bookkeeping recovers. -/
theorem run_recovers_default {start junk junk' : Int64} {evs : List (Event σ)}
    (hrun : run (step persistendTime) evs (onInit .default start junk junk') = some p)
    (hdead : ∀ pid, p.alive.find pid = none) (now : Int64) :
    (p.onTick now).2.server.chilldPid = -1 := by
  have h : p.Known :=
    run_invariant Known (fun _ _ _ h hstep => h.step hstep) ⟨rfl, Or.inl rfl⟩ hrun
  by_cases hidle : p.server.chilldPid = -1 ∨ p.zombies = []
  · rw [onTick_idle hidle]
    rcases h.known with hpid | hz | ⟨pid, child, hfind⟩
    · exact hpid
    · exact hidle.resolve_right hz
    · rw [hdead pid] at hfind
      cases hfind
  · rw [not_or] at hidle
    obtain ⟨z, zombies, hz⟩ := List.exists_cons_of_ne_nil hidle.2
    exact (onTick_zombie hidle.1 hz now).1

/-! ## `SIGCHLD` ignored -/

/-- An `OnIdle` that finds a save due since `start`, and whose `fork` succeeds. -/
def Forks (persistendTime : Int32) (start : Int64) : Event σ → Prop
  | .idle now (some _) => Due persistendTime now start
  | _ => False

/-- What is left of the past: whether a child has been forked. -/
structure Ignored (persistendTime : Int32) (start : Int64) (past : List (Event σ)) (p : Proc σ) :
    Prop where
  sigchld : p.sigchld = .ignore
  zombies : p.zombies = []
  uiLastSaveTime : p.server.uiLastSaveTime = start
  chilldPid : p.server.chilldPid = -1 ↔ ∀ ev ∈ past, ¬ Forks persistendTime start ev

theorem Ignored.step {start : Int64} {past : List (Event σ)} {ev : Event σ}
    (h : p.Ignored persistendTime start past) (hrun : step persistendTime ev p = some p') :
    p'.Ignored persistendTime start (past ++ [ev]) := by
  have hpast : ¬ Forks persistendTime start ev →
      (p.server.chilldPid = -1 ↔ ∀ e ∈ past ++ [ev], ¬ Forks persistendTime start e) := by
    intro hev
    rw [h.chilldPid]
    simp only [List.mem_append, List.mem_singleton, or_imp, forall_and, forall_eq]
    exact ⟨fun hp => ⟨hp, hev⟩, And.left⟩
  cases ev with
  | idle now fork =>
      rcases onIdle_cases hrun with ⟨rfl, hno⟩ | ⟨pid, child, rfl, hdue, _, hfork, rfl⟩
      · refine ⟨h.sigchld, h.zombies, h.uiLastSaveTime, ?_⟩
        rcases hno with hpid | rfl | hdue
        · -- a child has been forked before
          refine ⟨fun heq => absurd heq hpid,
            fun hall => absurd (h.chilldPid.mpr fun e he => ?_) hpid⟩
          exact hall e (List.mem_append_left _ he)
        · exact hpast id
        · rw [h.uiLastSaveTime] at hdue
          exact hpast (by cases fork <;> [exact id; exact hdue])
      · rw [h.uiLastSaveTime] at hdue
        refine ⟨h.sigchld, h.zombies, h.uiLastSaveTime, fun heq => ?_, fun hall => ?_⟩
        · have hpos := hfork.1
          rw [show pid = -1 from heq] at hpos
          exact absurd hpos (by decide)
        · exact absurd hdue (hall _ (List.mem_append_right _ (List.mem_singleton_self _)))
  | tick now =>
      cases hrun
      rw [onTick_idle (Or.inr h.zombies)]
      exact ⟨h.sigchld, h.zombies, h.uiLastSaveTime, hpast id⟩
  | childExit pid status =>
      obtain ⟨child, _, rfl⟩ := childExit_cases hrun
      exact ⟨h.sigchld, by simp [h.sigchld, h.zombies], h.uiLastSaveTime, hpast id⟩

/-- **The bookkeeping.** In every state a run can reach, whether or not a save child is
alive, a tick leaves `chilld_pid == -1` exactly when no `OnIdle` of the run has forked. -/
theorem run_recovers_iff {start junk junk' : Int64} {evs : List (Event σ)}
    (hrun : run (step persistendTime) evs (onInit initSigHandler start junk junk') = some p)
    (now : Int64) :
    (p.onTick now).2.server.chilldPid = -1 ↔ ∀ ev ∈ evs, ¬ Forks persistendTime start ev := by
  have h : p.Ignored persistendTime start evs :=
    run_history (Ignored persistendTime start)
      ⟨rfl, rfl, rfl, fun _ ev hev => absurd hev (List.not_mem_nil), fun _ => rfl⟩
      (fun _ _ _ _ h hstep => h.step hstep) hrun
  rw [onTick_idle (Or.inr h.zombies)]
  exact h.chilldPid

/-- A save that is not due. -/
theorem recovers_not_due : ∃ p : Proc Unit,
    run (step 3600) [.idle 100 (some (7, ()))] (onInit initSigHandler 0 0 0) = some p ∧
      (p.onTick 200).2.server.chilldPid = -1 := by
  have hrun : run (step 3600) [.idle 100 (some (7, ()))] (onInit initSigHandler 0 0 0 : Proc Unit) =
      some (onInit initSigHandler 0 0 0) := rfl
  refine ⟨_, hrun, (run_recovers_iff hrun 200).mpr ?_⟩
  simp only [List.mem_singleton, forall_eq, Forks]
  decide

/-- The first save child ends well, and `chilld_pid` stays: the next save is refused. -/
theorem chilldPid_stays :
    ¬ ∀ (evs : List (Event Unit)) (p : Proc Unit),
      run (step 3600) evs (onInit initSigHandler 0 0 0) = some p →
      (∀ pid, p.alive.find pid = none) → ∀ now, (p.onTick now).2.server.chilldPid = -1 := by
  intro h
  have hbad : (run (step 3600) [.idle 3601 (some (7, ())), .childExit 7 (.exited 0)]
      (onInit initSigHandler 0 0 0 : Proc Unit)).any (fun p =>
        p.alive.entries.isEmpty && decide ((p.onTick 3602).2.server.chilldPid ≠ -1)) = true := by
    decide +kernel
  obtain ⟨p, hrun, hp⟩ := (Option.any_eq_true _ _).mp hbad
  rw [Bool.and_eq_true, List.isEmpty_iff] at hp
  refine of_decide_eq_true hp.2 (h _ p hrun (fun pid => ?_) 3602)
  rw [Dict.find, hp.1]
  rfl

end Proc

end LibC
