/-
LibC.Server.SaveProcessTheorems — who writes the temporary file.

A process that saves alone does what `saveToFile` says (`save_alone`). While no
other process writes, it finds in the temporary file what it has stored so far,
and what it renames is what it has stored (`SaveProc.step_spec`).

At most one save child is alive at a time. `OnExit` does not ask for it:
`exit_safe_iff` says that it may begin only when no child is still in
`SaveToFile`, and `run_singleWriter` that this is all it takes.

No `sorry`, no `axiom`, no `native_decide`.
-/
import LibC.Server.ProcessTheorems
import LibC.Server.SaveProcess

namespace LibC

open LibC.Lib

/-! ## One process -/

namespace SaveProc

variable {s s' : SaveProc} {disk disk' : Disk FileName} {saved : Option Bytes}

/-- What a process that saves finds on the disk. -/
def Stored (s : SaveProc) (disk : Disk FileName) : Prop :=
  match s.phase with
  | .writing => disk.name .tmpFile = some s.fd ∧ s.offset ≤ s.script.content.length ∧
      disk.content s.fd = s.script.content.take s.offset
  | .closed => disk.name .tmpFile = some s.fd ∧ disk.content s.fd = s.script.content
  | _ => True

/-- A step of the only process that writes. -/
theorem step_spec {a : SaveStep} (h : step a (s, disk) = some (s', disk')) (hok : disk.Ok)
    (hst : s.Stored disk) (hsaved : disk.read .dbFile = saved) :
    ¬ s.Done ∧ disk'.Ok ∧ s'.Stored disk' ∧ disk'.read .dbFile = s.record a saved := by
  obtain ⟨script, phase, fd, offset⟩ := s
  cases phase with
  | before =>
      cases a with
      | fopen ok =>
          cases ok with
          | true =>
              cases h
              obtain ⟨hname, hempty⟩ := disk.create_spec .tmpFile
              exact ⟨id, Disk.ok_create hok _, ⟨hname, Nat.zero_le _, hempty⟩,
                (Disk.read_create hok (by decide)).trans hsaved⟩
          | false => cases h; exact ⟨id, hok, trivial, hsaved⟩
      | write n => cases h
      | finish ok => cases h
      | rename ok => cases h
  | writing =>
      obtain ⟨hname, hle, hcontent⟩ := hst
      simp only at hname hle hcontent
      cases a with
      | fopen ok => cases h
      | write n =>
          simp only [step] at h
          split at h
          · cases h
          · cases h
            refine ⟨id, Disk.ok_pwrite hok _, ⟨hname, ?_, ?_⟩,
              (Disk.read_pwrite hok hname (by decide) _).trans hsaved⟩
            · simp only [todo, List.length_take, List.length_drop]
              omega
            · rw [Disk.content_pwrite _ (by rw [hcontent, List.length_take, Nat.min_eq_left hle]),
                hcontent]
              simp only [todo, List.length_take, List.length_drop]
              rw [← List.take_add, List.take_eq_take_iff]
              omega
      | finish ok =>
          cases ok with
          | true =>
              simp only [step] at h
              split at h
              · next hall =>
                  have hend : script.content.length ≤ offset := List.drop_eq_nil_iff.mp hall
                  cases h
                  cases hc : script.complete with
                  | true =>
                      exact ⟨id, hok, ⟨hname, by rw [hcontent, List.take_of_length_le hend]⟩,
                        hsaved⟩
                  | false => exact ⟨id, hok, trivial, hsaved⟩
              · cases h
          | false => cases h; exact ⟨id, hok, trivial, hsaved⟩
      | rename ok => cases h
  | closed =>
      obtain ⟨hname, hcontent⟩ := hst
      simp only at hname hcontent
      cases a with
      | fopen ok => cases h
      | write n => cases h
      | finish ok => cases h
      | rename ok =>
          cases ok with
          | true =>
              obtain ⟨d, hd, hok', hread, _⟩ := Disk.rename_spec hok hname
                (show FileName.tmpFile ≠ .dbFile by decide)
              simp only [step, hd] at h
              cases h
              exact ⟨id, hok', trivial, by rw [hread, hcontent]; rfl⟩
          | false =>
              cases h
              exact ⟨id, Disk.ok_unlink hok _, trivial, (Disk.read_unlink (by decide)).trans hsaved⟩
  | done ret => cases h

theorem not_done_of_inWindow (h : s.InWindow) : ¬ s.Done := by
  obtain ⟨script, phase, fd, offset⟩ := s
  cases phase <;> first | exact id | exact h.elim

theorem Done.stored (h : s.Done) (disk : Disk FileName) : s.Stored disk := by
  obtain ⟨script, phase, fd, offset⟩ := s
  cases phase <;> first | exact trivial | exact h.elim

/-- Everything is stored, in one piece. -/
theorem run_writes (script : Script) (hok : disk.Ok) :
    ∃ steps s' disk', run step steps (start script, disk) = some (s', disk') ∧
      s'.phase = .writing ∧ s'.script = script ∧ s'.todo = [] ∧ disk'.Ok ∧
      disk'.name .tmpFile = some s'.fd ∧ disk'.content s'.fd = script.content ∧
      disk'.read .dbFile = disk.read .dbFile := by
  have hopen : step (.fopen true) (start script, disk) =
      some (⟨script, .writing, (disk.create .tmpFile).1, 0⟩, (disk.create .tmpFile).2) := rfl
  obtain ⟨hname, hempty⟩ := disk.create_spec .tmpFile
  have hok' := Disk.ok_create hok .tmpFile
  have hread : (disk.create .tmpFile).2.read .dbFile = disk.read .dbFile :=
    Disk.read_create hok (by decide)
  generalize disk.create .tmpFile = x at hopen hname hempty hok' hread
  obtain ⟨fd, disk1⟩ := x
  by_cases hnil : script.content = []
  · exact ⟨[.fopen true], ⟨script, .writing, fd, 0⟩, disk1, run_cons.mpr ⟨_, hopen, rfl⟩, rfl, rfl,
      by rw [todo, hnil, List.drop_nil], hok', hname, by rw [hempty, hnil], hread⟩
  · have hlen : script.content.take (script.content.length - 1 + 1) = script.content :=
      List.take_of_length_le (by omega)
    refine ⟨[.fopen true, .write (script.content.length - 1)],
      ⟨script, .writing, fd, script.content.length⟩, disk1.pwrite fd 0 script.content,
      run_cons.mpr ⟨_, hopen, ?_⟩, rfl, rfl, List.drop_length, Disk.ok_pwrite hok' _, hname, ?_,
      (Disk.read_pwrite hok' hname (by decide) _).trans hread⟩
    · simp only [run, step, todo, Option.bind_some, List.drop_zero, hlen, if_neg hnil, Nat.zero_add]
    · rw [Disk.content_pwrite _ (by rw [hempty]; rfl), hempty, List.nil_append]

end SaveProc

/-! ## Refinement -/

section

variable {α : Type}

/-- What `saveToFile` makes of its script. -/
theorem saveToFile_script {c : Codecs α} {env : SaveEnv} {now : Bytes} {d : Db α}
    {order : { l : List (Bytes × SortSet α Bytes) // l.Perm d.dbDict.entries }}
    {files files' : Files}
    {ret : Int} {errs : List RecId} (hopen : env.openOk = true)
    (h : saveToFile c env now d order files = some (ret, errs, files')) :
    ∃ script, saveScript c env now order.val = some script ∧
      ((ret = -1 ∧ files' = { files with tmpFile := some script.content }) ∨
        (script.complete = true ∧ ret = -1 ∧ files' = { files with tmpFile := none }) ∨
        (script.complete = true ∧ ret = 0 ∧ files' = ⟨some script.content, none⟩)) := by
  rw [saveToFile, if_neg (not_not.mpr hopen)] at h
  rw [saveScript]
  generalize saveRecord c.version env .version (dbVer now) .version ⟨[], []⟩ = x1 at h ⊢
  obtain ⟨r1, s1⟩ := x1
  simp only at h ⊢
  by_cases hr1 : r1 < 0
  · rw [if_pos hr1] at h ⊢
    cases h
    exact ⟨_, rfl, Or.inl ⟨rfl, rfl⟩⟩
  · rw [if_neg hr1] at h ⊢
    generalize saveRecord c.db env .db db1 .db s1 = x2 at h ⊢
    obtain ⟨r2, s2⟩ := x2
    simp only at h ⊢
    by_cases hr2 : r2 < 0
    · rw [if_pos hr2] at h ⊢
      cases h
      exact ⟨_, rfl, Or.inl ⟨rfl, rfl⟩⟩
    · rw [if_neg hr2] at h ⊢
      obtain ⟨s3, htables, h⟩ := Option.bind_eq_some_iff.mp h
      rw [htables]
      refine ⟨_, rfl, ?_⟩
      split at h
      · cases h
        exact Or.inl ⟨rfl, rfl⟩
      · split at h
        · cases h
          exact Or.inr (Or.inl ⟨rfl, rfl, rfl⟩)
        · cases h
          exact Or.inr (Or.inr ⟨rfl, rfl, rfl⟩)

/-- A process that saves alone can do what `saveToFile` says: the same return value and the
same files. -/
theorem save_alone {c : Codecs α} {env : SaveEnv} {now : Bytes} {d : Db α}
    {order : { l : List (Bytes × SortSet α Bytes) // l.Perm d.dbDict.entries }}
    {files files' : Files}
    {ret : Int} {errs : List RecId} {disk : Disk FileName} (hok : disk.Ok)
    (hdb : disk.read .dbFile = files.dbFile) (htmp : disk.read .tmpFile = files.tmpFile)
    (h : saveToFile c env now d order files = some (ret, errs, files')) :
    ∃ script, (env.openOk = true → saveScript c env now order.val = some script) ∧
      ∃ steps s' disk', run SaveProc.step steps (.start script, disk) = some (s', disk') ∧
        s'.phase = .done ret ∧ disk'.read .dbFile = files'.dbFile ∧
        disk'.read .tmpFile = files'.tmpFile := by
  by_cases hopen : env.openOk = true
  · obtain ⟨script, hscript, hret⟩ := saveToFile_script hopen h
    refine ⟨script, fun _ => hscript, ?_⟩
    obtain ⟨steps, ⟨sc, phase, fd, offset⟩, disk1, hrun, hphase, hsc, htodo, hok1, hname, hcontent,
      hread⟩ := SaveProc.run_writes script hok
    simp only at hphase hsc hname hcontent
    subst hphase hsc
    have hread1 : disk1.read .tmpFile = some sc.content := by
      rw [Disk.read, hname, Option.map_some, hcontent]
    rcases hret with ⟨rfl, rfl⟩ | ⟨hc, rfl, rfl⟩ | ⟨hc, rfl, rfl⟩
    · -- an early return, or one of the last calls fails
      exact ⟨steps ++ [.finish false], ⟨sc, .done (-1), fd, offset⟩, disk1,
        run_concat.mpr ⟨_, hrun, rfl⟩, rfl, hread.trans hdb, hread1⟩
    · -- the rename fails
      have hclosed : run SaveProc.step (steps ++ [.finish true]) (.start sc, disk) =
          some (⟨sc, .closed, fd, offset⟩, disk1) :=
        run_concat.mpr ⟨_, hrun, by simp only [SaveProc.step, if_pos htodo, hc, if_true]⟩
      exact ⟨steps ++ [.finish true] ++ [.rename false], ⟨sc, .done (-1), fd, offset⟩,
        disk1.unlink .tmpFile, run_concat.mpr ⟨_, hclosed, rfl⟩, rfl,
        (Disk.read_unlink (by decide)).trans (hread.trans hdb), Disk.read_unlink_self⟩
    · have hclosed : run SaveProc.step (steps ++ [.finish true]) (.start sc, disk) =
          some (⟨sc, .closed, fd, offset⟩, disk1) :=
        run_concat.mpr ⟨_, hrun, by simp only [SaveProc.step, if_pos htodo, hc, if_true]⟩
      obtain ⟨disk2, hrename, _, hnew, hold⟩ := Disk.rename_spec hok1 hname
        (show FileName.tmpFile ≠ .dbFile by decide)
      exact ⟨steps ++ [.finish true] ++ [.rename true], ⟨sc, .done 0, fd, offset⟩, disk2,
        run_concat.mpr ⟨_, hclosed, by simp only [SaveProc.step, hrename, Option.map_some]⟩, rfl,
        by rw [hnew, hcontent], hold⟩
  · rw [saveToFile, if_pos hopen] at h
    cases h
    exact ⟨⟨[], false⟩, fun ho => absurd ho hopen, [.fopen false], _, disk, rfl, rfl, hdb, htmp⟩

end

/-! ## The invariant -/

namespace System

variable {w w' : System} {persistendTime : Int32}

/-- At most one save child, none still saving once `OnExit` has begun; and the files are as
the processes left them. -/
structure Good (w : System) : Prop where
  proc : w.proc.Ok
  apart : w.main = .running ∨ w.NoSaveChild
  disk : w.disk.Ok
  stored : ∀ p s, w.saver p = some s → s.Stored w.disk
  saved : w.disk.read .dbFile = w.saved

theorem good_init (now junk junk' : Int64) (files : Files) : (init now junk junk' files).Good where
  proc := Proc.ok_onInit ..
  apart := Or.inl rfl
  disk := by
    constructor
    · intro n i hn
      cases n <;> obtain ⟨_, _, rfl⟩ := Option.map_eq_some_iff.mp hn
      · exact Nat.zero_lt_two
      · exact Nat.one_lt_two
    · intro n n' i hn hn'
      cases n <;> cases n' <;> first | rfl | skip
      all_goals
        obtain ⟨_, _, rfl⟩ := Option.map_eq_some_iff.mp hn
        obtain ⟨_, _, h⟩ := Option.map_eq_some_iff.mp hn'
        cases h
  stored p s hs := by
    cases p with
    | server => cases hs
    | child pid => cases hs
  saved := by
    cases hf : files.dbFile with
    | none => simp [Disk.read, init, diskOf, hf]
    | some b => simp [Disk.read, init, diskOf, hf]

/-- At most one process has not finished its save. -/
theorem Good.active (h : w.Good) {p q : Who} {s t : SaveProc} (hp : w.saver p = some s)
    (hq : w.saver q = some t) (hs : ¬ s.Done) (ht : ¬ t.Done) : p = q := by
  cases p with
  | server =>
      cases q with
      | server => rfl
      | child pid =>
          rcases h.apart with hrun | hno
          · rw [saver, hrun] at hp
            cases hp
          · exact absurd (hno pid t hq) ht
  | child pid =>
      cases q with
      | server =>
          rcases h.apart with hrun | hno
          · rw [saver, hrun] at hq
            cases hq
          · exact absurd (hno pid s hp) hs
      | child pid' => rw [← (h.proc.alive pid s hp).2, ← (h.proc.alive pid' t hq).2]

theorem Good.singleWriter (h : w.Good) : w.SingleWriter := fun _ _ _ _ hp hq hs ht =>
  h.active hp hq (SaveProc.not_done_of_inWindow hs) (SaveProc.not_done_of_inWindow ht)

/-! ## One event -/

theorem Good.idle (h : w.Good) {now : Int64} {fork : Option (Int32 × Script)}
    (hrun : step persistendTime (.idle now fork) w = some w') : w'.Good := by
  simp only [step] at hrun
  split at hrun
  · next hmain =>
      obtain ⟨proc, hidle, heq⟩ := Option.bind_eq_some_iff.mp hrun
      cases heq
      refine ⟨h.proc.onIdle hidle, Or.inl hmain, h.disk, fun p s hs => ?_, h.saved⟩
      cases p with
      | server => exact h.stored .server s hs
      | child pid =>
          rcases Proc.onIdle_cases hidle with ⟨rfl, _⟩ | ⟨pid', child, hfork, _, _, _, rfl⟩
          · exact h.stored (.child pid) s hs
          · rcases Dict.find_insert_cases hs with hs | ⟨_, rfl⟩
            · exact h.stored (.child pid) s hs
            · obtain ⟨f, _, hf⟩ := Option.map_eq_some_iff.mp hfork
              cases hf
              exact trivial
  · cases hrun

theorem Good.tick (h : w.Good) {now : Int64}
    (hrun : step persistendTime (.tick now) w = some w') : w'.Good := by
  simp only [step] at hrun
  split at hrun
  · next hmain =>
      cases hrun
      by_cases hidle : w.proc.server.chilldPid = -1 ∨ w.proc.zombies = []
      · rw [Proc.onTick_idle hidle]
        exact h
      · -- the child that waits is the only one, and it has ended
        rw [not_or] at hidle
        obtain ⟨_, hnone, z, hz⟩ := h.proc.zombies hidle.2
        have halive := (Proc.onTick_zombie hidle.1 hz now).2.2.1
        have hno : ∀ pid s, (w.proc.onTick now).2.alive.find pid = some s → False := by
          intro pid s hs
          rw [halive, hnone pid] at hs
          cases hs
        refine ⟨h.proc.onTick now, Or.inl hmain, ?_, fun p s hs => ?_, ?_⟩
        · split
          · exact Disk.ok_unlink h.disk _
          · exact h.disk
        · cases p with
          | server => simp only [saver, hmain] at hs; cases hs
          | child pid => exact (hno pid s hs).elim
        · split
          · exact (Disk.read_unlink (by decide)).trans h.saved
          · exact h.saved
  · cases hrun

/-- A save child does a step: it is the only one, and `OnExit` has not begun. -/
theorem Good.child (h : w.Good) {pid : Int32} {a : SaveStep}
    (hrun : w.childStep pid a = some w') : w'.Good := by
  obtain ⟨s, hfind, hrun⟩ := Option.bind_eq_some_iff.mp hrun
  obtain ⟨⟨s', disk⟩, hstep, heq⟩ := Option.bind_eq_some_iff.mp hrun
  cases heq
  obtain ⟨hnot, hok, hst, hsaved⟩ :=
    SaveProc.step_spec hstep h.disk (h.stored (.child pid) s hfind) h.saved
  have hmain : w.main = .running := h.apart.resolve_right fun hno => hnot (hno pid s hfind)
  have hcases : ∀ {q t}, (w.proc.alive.modify pid fun _ => s').find q = some t →
      q = pid ∧ t = s' := by
    intro q t hq
    rw [Dict.find_modify] at hq
    split at hq
    · next hqp =>
        rw [hqp, hfind] at hq
        exact ⟨hqp, (Option.some.inj hq).symm⟩
    · next hqp =>
        exact absurd ((h.proc.alive q t hq).2.symm.trans (h.proc.alive pid s hfind).2) hqp
  refine ⟨⟨fun q t hq => ?_, fun hz => ?_⟩, Or.inl hmain, hok, fun p t ht => ?_, hsaved⟩
  · obtain ⟨rfl, _⟩ := hcases hq
    exact h.proc.alive q s hfind
  · have hnone := (h.proc.zombies hz).2.1 pid
    rw [hfind] at hnone
    cases hnone
  · cases p with
    | server => simp only [saver, hmain] at ht; cases ht
    | child q =>
        obtain ⟨_, rfl⟩ := hcases ht
        exact hst

/-- A save child ends. -/
theorem Good.childExit (h : w.Good) {pid : Int32} {status : Status} {proc : Proc SaveProc}
    (hrun : w.proc.childExit pid status = some proc) : Good { w with proc } := by
  obtain ⟨child, _, rfl⟩ := Proc.childExit_cases hrun
  have hold : ∀ {q t}, (w.proc.alive.erase pid).find q = some t → w.proc.alive.find q = some t := by
    intro q t hq
    rw [Dict.find_erase] at hq
    split at hq
    · cases hq
    · exact hq
  refine ⟨h.proc.childExit hrun, h.apart.imp_right fun hno q t hq => hno q t (hold hq), h.disk,
    fun p s hs => ?_, h.saved⟩
  cases p with
  | server => exact h.stored .server s hs
  | child q => exact h.stored (.child q) s (hold hs)

theorem Good.exit (h : w.Good) {script : Script} (hok : w.NoSaveChild)
    (hrun : step persistendTime (.exit script) w = some w') : w'.Good := by
  simp only [step] at hrun
  split at hrun
  · cases hrun
    refine ⟨h.proc, Or.inr hok, h.disk, fun p s hs => ?_, h.saved⟩
    cases p with
    | server => cases hs; exact trivial
    | child pid => exact h.stored (.child pid) s hs
  · cases hrun

/-- `OnExit` does a step: no save child is still saving. -/
theorem Good.main (h : w.Good) {a : SaveStep} (hrun : step persistendTime (.main a) w = some w') :
    w'.Good := by
  simp only [step] at hrun
  split at hrun
  · next s hmain =>
      obtain ⟨⟨s', disk⟩, hstep, heq⟩ := Option.bind_eq_some_iff.mp hrun
      cases heq
      have hno : w.NoSaveChild := h.apart.resolve_left fun hr => by rw [hmain] at hr; cases hr
      obtain ⟨_, hok, hst, hsaved⟩ := SaveProc.step_spec hstep h.disk
        (h.stored .server s (by simp [saver, hmain])) h.saved
      refine ⟨h.proc, Or.inr hno, hok, fun p t ht => ?_, hsaved⟩
      cases p with
      | server => cases ht; exact hst
      | child pid => exact (hno pid t ht).stored disk
  · cases hrun

theorem Good.mainReturn (h : w.Good) (hrun : step persistendTime .mainReturn w = some w') :
    w'.Good := by
  simp only [step] at hrun
  split at hrun
  · next s hmain =>
      split at hrun
      · cases hrun
        have hno : w.NoSaveChild := h.apart.resolve_left fun hr => by rw [hmain] at hr; cases hr
        refine ⟨h.proc, Or.inr hno, h.disk, fun p t ht => ?_, h.saved⟩
        cases p with
        | server => cases ht
        | child pid => exact h.stored (.child pid) t ht
      · cases hrun
  · cases hrun

/-- Every event, when `OnExit` begins only as it should. -/
theorem Good.step (h : w.Good) {ev : Event} (hok : ExitOk ev w)
    (hrun : step persistendTime ev w = some w') : w'.Good := by
  cases ev with
  | idle now fork => exact h.idle hrun
  | tick now => exact h.tick hrun
  | child pid a => exact h.child hrun
  | childExit pid =>
      obtain ⟨s, _, hrun⟩ := Option.bind_eq_some_iff.mp hrun
      split at hrun
      · obtain ⟨proc, hexit, heq⟩ := Option.bind_eq_some_iff.mp hrun
        cases heq
        exact h.childExit hexit
      · cases hrun
  | childKill pid sig =>
      obtain ⟨proc, hexit, heq⟩ := Option.bind_eq_some_iff.mp hrun
      cases heq
      exact h.childExit hexit
  | exit script => exact h.exit hok hrun
  | main a => exact h.main hrun
  | mainReturn => exact h.mainReturn hrun

/-! ## Runs -/

/-- **One writer.** In every run in which `OnExit` begins only when no save child is still in
`SaveToFile`, no state has two processes between opening the temporary file and renaming it,
and what is found under `db_file_` is what the last execution to rename its file had stored. -/
theorem run_singleWriter {now junk junk' : Int64} {files : Files} {evs : List Event}
    (hexit : Along (step persistendTime) ExitOk evs (init now junk junk' files))
    (hrun : run (step persistendTime) evs (init now junk junk' files) = some w) :
    w.SingleWriter ∧ w.disk.read .dbFile = w.saved := by
  have h : w.Good := run_invariant_along Good (fun _ _ _ hok h hstep => h.step hok hstep) hexit
    (good_init now junk junk' files) hrun
  exact ⟨h.singleWriter, h.saved⟩

/-- A background save, from the fork to the exit of the child. -/
def backgroundSave : List Event :=
  [.idle 3601 (some (7, ⟨[1, 2], true⟩)), .child 7 (.fopen true), .child 7 (.write 0),
    .child 7 (.write 5), .child 7 (.finish true), .child 7 (.rename true), .childExit 7]

theorem backgroundSave_singleWriter :
    ∃ w, run (step 3600) backgroundSave (init 0 0 0 ⟨none, none⟩) = some w ∧
      w.saved = some [1, 2] ∧ w.SingleWriter ∧ w.disk.read .dbFile = w.saved := by
  have hsaved : (run (step 3600) backgroundSave (init 0 0 0 ⟨none, none⟩)).any
      (fun w => decide (w.saved = some [1, 2])) = true := by decide +kernel
  obtain ⟨w, hrun, hw⟩ := (Option.any_eq_true _ _).mp hsaved
  refine ⟨w, hrun, of_decide_eq_true hw, run_singleWriter ?_ hrun⟩
  exact ⟨trivial, fun _ _ => ⟨trivial, fun _ _ => ⟨trivial, fun _ _ => ⟨trivial, fun _ _ =>
    ⟨trivial, fun _ _ => ⟨trivial, fun _ _ => ⟨trivial, fun _ _ => trivial⟩⟩⟩⟩⟩⟩⟩

/-- Once `OnExit` has begun, it does not begin again. -/
theorem main_step {ev : Event} (hmain : w.main ≠ .running)
    (hrun : step persistendTime ev w = some w') : w'.main ≠ .running := by
  cases ev with
  | idle now fork => simp only [step] at hrun; cases hrun
  | tick now => simp only [step] at hrun; cases hrun
  | exit script => simp only [step] at hrun; cases hrun
  | child pid a =>
      obtain ⟨s, _, hrun⟩ := Option.bind_eq_some_iff.mp hrun
      obtain ⟨x, _, heq⟩ := Option.bind_eq_some_iff.mp hrun
      cases heq
      exact hmain
  | childExit pid =>
      obtain ⟨s, _, hrun⟩ := Option.bind_eq_some_iff.mp hrun
      split at hrun
      · obtain ⟨proc, _, heq⟩ := Option.bind_eq_some_iff.mp hrun
        cases heq
        exact hmain
      · cases hrun
  | childKill pid sig =>
      obtain ⟨proc, _, heq⟩ := Option.bind_eq_some_iff.mp hrun
      cases heq
      exact hmain
  | main a =>
      simp only [step] at hrun
      split at hrun
      · obtain ⟨x, _, heq⟩ := Option.bind_eq_some_iff.mp hrun
        cases heq
        exact fun h => nomatch h
      · cases hrun
  | mainReturn =>
      simp only [step] at hrun
      split at hrun
      · split at hrun
        · cases hrun
          exact fun h => nomatch h
        · cases hrun
      · cases hrun

/-- `OnExit` beside a save child that is not at the end: both can write at once. -/
theorem exit_overlaps (hmain : w.main = .running) {pid : Int32} {s : SaveProc}
    (hfind : w.proc.alive.find pid = some s) (hs : ¬ s.Done) (script : Script) :
    ∃ evs w', run (step persistendTime) (.exit script :: evs) w = some w' ∧ ¬ w'.SingleWriter := by
  -- `OnExit` opens the temporary file
  let m : SaveProc := ⟨script, .writing, (w.disk.create .tmpFile).1, 0⟩
  let w1 : System := { w with main := .exiting m, disk := (w.disk.create .tmpFile).2 }
  have hopen : run (step persistendTime) [.exit script, .main (.fopen true)] w = some w1 := by
    simp only [run, step, hmain, Option.bind_some]
    rfl
  by_cases hwin : s.InWindow
  · refine ⟨[.main (.fopen true)], w1, hopen, fun hsingle => ?_⟩
    have heq := hsingle .server (.child pid) m s rfl hfind trivial hwin
    cases heq
  · -- and the child opens it after that
    obtain ⟨sc, phase, fd, offset⟩ := s
    have hphase : phase = .before := by
      cases phase with
      | before => rfl
      | writing => exact absurd trivial hwin
      | closed => exact absurd trivial hwin
      | done ret => exact absurd trivial hs
    subst hphase
    let t : SaveProc := ⟨sc, .writing, (w1.disk.create .tmpFile).1, 0⟩
    let w2 : System := { w1 with
      proc := { w.proc with alive := w.proc.alive.modify pid fun _ => t }
      disk := (w1.disk.create .tmpFile).2 }
    have hchild : w1.childStep pid (.fopen true) = some w2 := by
      simp only [childStep, w1, hfind]
      rfl
    have hrun : run (step persistendTime)
        ([.exit script, .main (.fopen true)] ++ [.child pid (.fopen true)]) w = some w2 :=
      run_concat.mpr ⟨w1, hopen, hchild⟩
    refine ⟨[.main (.fopen true), .child pid (.fopen true)], w2, hrun, fun hsingle => ?_⟩
    have hfind' : w2.saver (.child pid) = some t := by
      rw [saver, Dict.find_modify, if_pos rfl, hfind, Option.map_some]
    have heq := hsingle .server (.child pid) m t rfl hfind' trivial trivial
    cases heq

/-- In a state that a run as in `run_singleWriter` can reach, `OnExit` may begin exactly when
no save child is still in `SaveToFile`. -/
theorem exit_safe_iff {now junk junk' : Int64} {files : Files} {evs : List Event}
    (hexit : Along (step persistendTime) ExitOk evs (init now junk junk' files))
    (hrun : run (step persistendTime) evs (init now junk junk' files) = some w)
    (hmain : w.main = .running) (script : Script) :
    (∀ evs' w', run (step persistendTime) (.exit script :: evs') w = some w' → w'.SingleWriter) ↔
      w.NoSaveChild := by
  constructor
  · intro hsafe pid s hfind
    by_contra hs
    obtain ⟨evs', w', hrun', hbad⟩ := exit_overlaps hmain hfind hs script
    exact hbad (hsafe evs' w' hrun')
  · intro hno evs' w' hrun'
    have h : w.Good := run_invariant_along Good (fun _ _ _ hok h hstep => h.step hok hstep) hexit
      (good_init now junk junk' files) hrun
    obtain ⟨w1, hstep, hrest⟩ := run_cons.mp hrun'
    have h1 := h.exit hno hstep
    have hmain1 : w1.main ≠ .running := by
      simp only [step, hmain] at hstep
      cases hstep
      exact fun h => nomatch h
    -- from here on `OnExit` cannot begin, so the invariant needs no condition
    have hInv : w'.Good ∧ w'.main ≠ .running :=
      run_invariant (fun w => w.Good ∧ w.main ≠ .running) (fun ev v v' hv hs =>
        ⟨hv.1.step (by cases ev <;> first | trivial | exact hv.1.apart.resolve_left hv.2) hs,
          main_step hv.2 hs⟩) ⟨h1, hmain1⟩ hrest
    exact hInv.1.singleWriter

/-- A shutdown while the save child has closed its file: `OnExit` truncates the file, and the
child renames what is left of it. -/
def lateExit : List Event :=
  [.idle 3601 (some (7, ⟨[1, 2], true⟩)), .child 7 (.fopen true), .child 7 (.write 5),
    .child 7 (.finish true), .exit ⟨[1, 2, 3], true⟩, .main (.fopen true)]

/-- Two processes are between opening and renaming, and an empty file is renamed onto
`db_file_`, which held the only copy of the data. -/
theorem lateExit_overlaps :
    (¬ ∀ evs w, run (step 3600) evs (init 0 0 0 ⟨some [9], none⟩) = some w → w.SingleWriter) ∧
    (run (step 3600) (lateExit ++ [.child 7 (.rename true)]) (init 0 0 0 ⟨some [9], none⟩)).map
      (fun w => (w.disk.read .dbFile, w.saved)) = some (some [], some [1, 2]) := by
  constructor
  · intro h
    have hboth : (run (step 3600) lateExit (init 0 0 0 ⟨some [9], none⟩)).any (fun w =>
        (w.saver .server).any (fun s => match s.phase with | .writing => true | _ => false) &&
        (w.saver (.child 7)).any (fun s => match s.phase with | .closed => true | _ => false)) =
        true := by decide +kernel
    obtain ⟨w, hrun, hw⟩ := (Option.any_eq_true _ _).mp hboth
    obtain ⟨hs, ht⟩ := Bool.and_eq_true_iff.mp hw
    obtain ⟨s, hs, hsw⟩ := (Option.any_eq_true _ _).mp hs
    obtain ⟨t, ht, htw⟩ := (Option.any_eq_true _ _).mp ht
    have hswin : s.InWindow := by
      obtain ⟨sc, phase, fd, offset⟩ := s
      cases phase <;> trivial
    have htwin : t.InWindow := by
      obtain ⟨sc, phase, fd, offset⟩ := t
      cases phase <;> trivial
    have heq := h lateExit w hrun .server (.child 7) s t hs ht hswin htwin
    cases heq
  · decide +kernel

end System

end LibC
