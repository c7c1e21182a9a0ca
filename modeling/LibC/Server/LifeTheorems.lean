/-
LibC.Server.LifeTheorems — what a crash costs.

Take any run: messages that arrive, rounds of the main loop, saves in the
background and at the exit that may fail at any step, crashes between any two of
these, and starts after them. As long as `OnExit` does not begin beside a save
child, and nothing fails that `SaveToFile` does not see, `db_file_` always loads,
and what it loads as are the boards after a first part of the messages handled in
each life (`run_life`). So a crash loses messages from the end only, and the
server that is started again answers as if it had never handled them. Within a
life that part only grows (`run_keeps`), and an `OnExit` that succeeds makes it
all of them (`run_exit`).

No `sorry`, no `axiom`, no `native_decide`.
-/
import LibC.Server.Life
import LibC.Server.RestartTheorems
import LibC.Server.SaveProcessTheorems
import Mathlib.Data.List.Flatten

namespace LibC

open LibC.Lib

/-! ## The processes -/

/-- What a step leaves of a process. -/
theorem SaveProc.step_script {a : SaveStep} {s s' : SaveProc} {disk disk' : Disk FileName}
    (h : SaveProc.step a (s, disk) = some (s', disk')) :
    s'.script = s.script ∧ ¬ s.Done ∧ (s'.phase = .done 0 → a = .rename true) ∧
      (a = .rename true → s'.Done) := by
  obtain ⟨script, phase, fd, offset⟩ := s
  cases phase with
  | before =>
      cases a with
      | fopen ok => cases ok <;> cases h <;> exact ⟨rfl, id, by simp, by simp⟩
      | write n => cases h
      | finish ok => cases h
      | rename ok => cases h
  | writing =>
      cases a with
      | fopen ok => cases h
      | write n =>
          simp only [SaveProc.step] at h
          split at h
          · cases h
          · cases h
            exact ⟨rfl, id, by simp, by simp⟩
      | finish ok =>
          cases ok with
          | true =>
              simp only [SaveProc.step] at h
              split at h
              · cases h
                exact ⟨rfl, id, by split <;> simp, by simp⟩
              · cases h
          | false => cases h; exact ⟨rfl, id, by simp, by simp⟩
      | rename ok => cases h
  | closed =>
      cases a with
      | fopen ok => cases h
      | write n => cases h
      | finish ok => cases h
      | rename ok =>
          cases ok with
          | true =>
              obtain ⟨d, _, heq⟩ := Option.map_eq_some_iff.mp h
              cases heq
              exact ⟨rfl, id, fun _ => rfl, fun _ => trivial⟩
          | false => cases h; exact ⟨rfl, id, by simp, by simp⟩
  | done ret => cases h

namespace System

/-- The event that is a step of a process. -/
def Who.does : Who → SaveStep → Event
  | .server, a => .main a
  | .child pid, a => .child pid a

variable {w w' : System} {persistendTime : Int32} {ev : Event}

theorem saver_server {s : SaveProc} : w.saver .server = some s ↔ w.main = .exiting s := by
  obtain ⟨proc, main, disk, saved⟩ := w
  cases main <;> simp [saver]

/-- When a child ends, the others are as before. -/
theorem saver_of_childExit {pid : Int32} {status : Status} {proc : Proc SaveProc}
    (h : w.proc.childExit pid status = some proc) {p : Who} {s : SaveProc}
    (hp : saver { w with proc } p = some s) : w.saver p = some s := by
  obtain ⟨child, _, rfl⟩ := Proc.childExit_cases h
  cases p with
  | server => exact hp
  | child q =>
      simp only [saver, Dict.find_erase] at hp
      split at hp
      · cases hp
      · exact hp

/-- Where a process that saves comes from: it was there, it has made a step, or it is new. -/
theorem step_saver (h : step persistendTime ev w = some w') {p : Who} {s' : SaveProc}
    (hp : w'.saver p = some s') :
    w.saver p = some s' ∨
    (∃ a s disk, ev = p.does a ∧ w.saver p = some s ∧
      SaveProc.step a (s, w.disk) = some (s', disk)) ∨
    ∃ script, s' = .start script ∧ ((∃ now pid, ev = .idle now (some (pid, script)) ∧
        p = .child pid ∧ Proc.Due persistendTime now w.proc.server.uiLastSaveTime ∧
        w.proc.server.chilldPid = -1) ∨ (ev = .exit script ∧ p = .server)) := by
  cases ev with
  | idle now fork =>
      simp only [step] at h
      split at h
      · obtain ⟨proc, hidle, heq⟩ := Option.bind_eq_some_iff.mp h
        cases heq
        cases p with
        | server => exact Or.inl hp
        | child q =>
            rcases Proc.onIdle_cases hidle with ⟨rfl, _⟩ | ⟨pid, child, hfork, hdue, hpid, _, rfl⟩
            · exact Or.inl hp
            · rcases Dict.find_insert_cases hp with hp | ⟨rfl, rfl⟩
              · exact Or.inl hp
              · obtain ⟨⟨pid', script⟩, rfl, hf⟩ := Option.map_eq_some_iff.mp hfork
                cases hf
                exact Or.inr (Or.inr ⟨script, rfl, Or.inl ⟨now, pid', rfl, rfl, hdue, hpid⟩⟩)
      · cases h
  | tick now =>
      simp only [step] at h
      split at h
      · cases h
        by_cases hidle : w.proc.server.chilldPid = -1 ∨ w.proc.zombies = []
        · rw [Proc.onTick_idle hidle] at hp
          exact Or.inl (by cases p <;> exact hp)
        · rw [not_or] at hidle
          obtain ⟨z, zombies, hz⟩ := List.exists_cons_of_ne_nil hidle.2
          have halive := (Proc.onTick_zombie hidle.1 hz now).2.2.1
          cases p with
          | server => exact Or.inl hp
          | child q =>
              simp only [saver, halive] at hp
              exact Or.inl hp
      · cases h
  | child pid a =>
      obtain ⟨s, hfind, hrun⟩ := Option.bind_eq_some_iff.mp h
      obtain ⟨⟨s1, disk⟩, hstep, heq⟩ := Option.bind_eq_some_iff.mp hrun
      cases heq
      cases p with
      | server => exact Or.inl hp
      | child q =>
          simp only [saver, Dict.find_modify] at hp
          split at hp
          · next hq =>
              subst hq
              rw [hfind] at hp
              cases hp
              exact Or.inr (Or.inl ⟨a, s, disk, rfl, hfind, hstep⟩)
          · exact Or.inl hp
  | childExit pid =>
      obtain ⟨s, _, hrun⟩ := Option.bind_eq_some_iff.mp h
      split at hrun
      · obtain ⟨proc, hexit, heq⟩ := Option.bind_eq_some_iff.mp hrun
        cases heq
        exact Or.inl (saver_of_childExit hexit hp)
      · cases hrun
  | childKill pid sig =>
      obtain ⟨proc, hexit, heq⟩ := Option.bind_eq_some_iff.mp h
      cases heq
      exact Or.inl (saver_of_childExit hexit hp)
  | exit script =>
      simp only [step] at h
      split at h
      · cases h
        cases p with
        | server => cases hp; exact Or.inr (Or.inr ⟨script, rfl, Or.inr ⟨rfl, rfl⟩⟩)
        | child q => exact Or.inl hp
      · cases h
  | main a =>
      simp only [step] at h
      split at h
      · next s hmain =>
          obtain ⟨⟨s1, disk⟩, hstep, heq⟩ := Option.bind_eq_some_iff.mp h
          cases heq
          cases p with
          | server =>
              cases hp
              exact Or.inr (Or.inl ⟨a, s, disk, rfl, by simp [saver, hmain], hstep⟩)
          | child q => exact Or.inl hp
      · cases h
  | mainReturn =>
      simp only [step] at h
      split at h
      · split at h
        · cases h
          cases p with
          | server => cases hp
          | child q => exact Or.inl hp
        · cases h
      · cases h

theorem saved_of_step {p : Who} {s s' : SaveProc} {a : SaveStep} {disk : Disk FileName}
    (hp : w.saver p = some s) (hstep : SaveProc.step a (s, w.disk) = some (s', disk)) :
    (s.record a w.saved = w.saved ∧ ∀ q : Who, p.does a ≠ q.does (.rename true)) ∨
    ∃ q t, p.does a = q.does (.rename true) ∧ w.saver q = some t ∧ ¬ t.Done ∧
      s.record a w.saved = some t.script.content := by
  by_cases ha : a = .rename true
  · subst ha
    exact Or.inr ⟨p, s, rfl, hp, (SaveProc.step_script hstep).2.1, rfl⟩
  · refine Or.inl ⟨?_, fun q hq => ha ?_⟩
    · cases a with
      | rename ok => cases ok <;> first | rfl | exact absurd rfl ha
      | _ => rfl
    · cases p <;> cases q <;> cases hq <;> rfl

/-- What is saved changes when a process renames its file. -/
theorem step_saved (h : step persistendTime ev w = some w') :
    (w'.saved = w.saved ∧ ∀ p : Who, ev ≠ p.does (.rename true)) ∨
    ∃ (p : Who) (s : SaveProc), ev = p.does (.rename true) ∧ w.saver p = some s ∧ ¬ s.Done ∧
      w'.saved = some s.script.content := by
  cases ev with
  | idle now fork =>
      simp only [step] at h
      split at h
      · obtain ⟨proc, _, heq⟩ := Option.bind_eq_some_iff.mp h
        cases heq
        exact Or.inl ⟨rfl, fun p hp => by cases p <;> cases hp⟩
      · cases h
  | tick now =>
      simp only [step] at h
      split at h
      · cases h
        exact Or.inl ⟨rfl, fun p hp => by cases p <;> cases hp⟩
      · cases h
  | child pid a =>
      obtain ⟨s, hfind, hrun⟩ := Option.bind_eq_some_iff.mp h
      obtain ⟨⟨s1, disk⟩, hstep, heq⟩ := Option.bind_eq_some_iff.mp hrun
      cases heq
      exact saved_of_step (p := .child pid) hfind hstep
  | childExit pid =>
      obtain ⟨s, _, hrun⟩ := Option.bind_eq_some_iff.mp h
      split at hrun
      · obtain ⟨proc, _, heq⟩ := Option.bind_eq_some_iff.mp hrun
        cases heq
        exact Or.inl ⟨rfl, fun p hp => by cases p <;> cases hp⟩
      · cases hrun
  | childKill pid sig =>
      obtain ⟨proc, _, heq⟩ := Option.bind_eq_some_iff.mp h
      cases heq
      exact Or.inl ⟨rfl, fun p hp => by cases p <;> cases hp⟩
  | exit script =>
      simp only [step] at h
      split at h
      · cases h
        exact Or.inl ⟨rfl, fun p hp => by cases p <;> cases hp⟩
      · cases h
  | main a =>
      simp only [step] at h
      split at h
      · next s hmain =>
          obtain ⟨⟨s1, disk⟩, hstep, heq⟩ := Option.bind_eq_some_iff.mp h
          cases heq
          exact saved_of_step (p := .server) (by simp [saver, hmain]) hstep
      · cases h
  | mainReturn =>
      simp only [step] at h
      split at h
      · split at h
        · cases h
          exact Or.inl ⟨rfl, fun p hp => by cases p <;> cases hp⟩
        · cases h
      · cases h

end System

/-! ## Messages that tie nobody -/

variable {α : Type}

/-- No two members of a key are ever given the same score. -/
def Apart (es : List (Entry α)) : Prop :=
  ∀ e ∈ es, ∀ e' ∈ es, e.key = e'.key → e.score = e'.score → e.data = e'.data

instance [DecidableEq α] (es : List (Entry α)) : Decidable (Apart es) :=
  inferInstanceAs (Decidable (∀ e ∈ es, ∀ e' ∈ es, _ → _ → _))

/-- Some messages set members apart, and fewer than `2^31`. -/
structure MsgCodecs.Clear (m : MsgCodecs α) (ms : List Bytes) : Prop where
  apart : Apart (m.entries ms)
  few : (m.entries ms).length < 2 ^ 31

theorem MsgCodecs.Clear.sublist {m : MsgCodecs α} {ms ms' : List Bytes} (h : m.Clear ms')
    (hs : ms.Sublist ms') : m.Clear ms := by
  have hes : (m.entries ms).Sublist (m.entries ms') := hs.flatMap _
  exact ⟨fun e he e' he' => h.apart e (hes.subset he) e' (hes.subset he'),
    hes.length_le.trans_lt h.few⟩

variable [LinearOrder α]

namespace Boards

/-- The entries of the boards are among some entries. -/
def Among (es : List (Entry α)) (bs : Boards α) : Prop :=
  ∀ key, ∀ a ∈ (bs key).entries, ⟨key, a.2, a.1⟩ ∈ es

variable {es : List (Entry α)} {bs : Boards α}

theorem Among.set (h : Among es bs) {e : Entry α} (he : e ∈ es) :
    Among es (bs.set e.key e.score e.data) := by
  intro key a ha
  by_cases hk : key = e.key
  · subst hk
    rw [Boards.set, Function.update_self, Board.mem_set] at ha
    rcases ha with rfl | ⟨ha, _⟩
    · exact he
    · exact h e.key a ha
  · rw [Boards.set, Function.update_of_ne hk] at ha
    exact h key a ha

/-- Setting some members of a key. -/
theorem Among.setAll (hapart : Apart es) (key : Bytes) (xs : List (MsgSetMemData α)) :
    ∀ {bs : Boards α}, Among es bs → (∀ x ∈ xs, (⟨key, x.data, x.score⟩ : Entry α) ∈ es) →
      UntiedSets key xs bs ∧ Among es (bs.setAll key xs) := by
  induction xs with
  | nil => exact fun h _ => ⟨trivial, h⟩
  | cons x xs ih =>
      intro bs h hxs
      have hx := hxs x List.mem_cons_self
      obtain ⟨hu, ha⟩ := ih (h.set hx) fun y hy => hxs y (List.mem_cons_of_mem x hy)
      exact ⟨⟨fun a hmem hscore => hapart _ (h key a hmem) _ hx rfl hscore, hu⟩, ha⟩

end Boards

namespace MsgCodecs

variable {m : MsgCodecs α} {ms ms' : List Bytes}

/-- They tie no members, whatever else has been set among them. -/
theorem untied_of_apart {es : List (Entry α)} (hapart : Apart es) (ms : List Bytes) :
    ∀ {bs : Boards α}, Boards.Among es bs → (∀ e ∈ m.entries ms, e ∈ es) →
      Boards.UntiedAll m ms bs := by
  induction ms with
  | nil => exact fun _ _ => trivial
  | cons x ms ih =>
      intro bs h hes
      have hsplit : m.entries (x :: ms) = m.entries [x] ++ m.entries ms :=
        m.entries_append [x] ms
      have hrest : ∀ e ∈ m.entries ms, e ∈ es := fun e he =>
        hes e (by rw [hsplit]; exact List.mem_append_right _ he)
      cases hr : m.request? x with
      | none => simpa only [Boards.UntiedAll, hr] using ih h hrest
      | some r =>
          have hreq : ∀ e ∈ r.2.entries, e ∈ es := fun e he =>
            hes e (by rw [hsplit]; exact List.mem_append_left _ (by simpa [entries, hr] using he))
          simp only [Boards.UntiedAll, hr]
          cases hq : r.2 with
          | setBatch req =>
              rw [hq] at hreq
              obtain ⟨hu, ha⟩ := Boards.Among.setAll hapart req.keyId req.dataList h
                fun y hy => hreq _ (List.mem_map.mpr ⟨y, hy, rfl⟩)
              exact ⟨hu, ih ha hrest⟩
          | _ => exact ⟨trivial, ih h hrest⟩

theorem Clear.untied (h : m.Clear ms) : Boards.UntiedAll m ms Boards.empty :=
  untied_of_apart h.apart ms (fun _ _ ha => by cases ha) fun _ he => he

end MsgCodecs

/-! ## What a file is worth -/

variable [Neg α] [One α]

/-- The program that starts on the file shows the boards. -/
def Loads (c : Codecs α) (n : ℕ) (file : Option Bytes) (bs : Boards α) : Prop :=
  ∀ heights, ∃ ret l, checkDbFileAndLoad c heights file Db.new = some (ret, l) ∧ Shows n l.db bs

theorem loads_none (c : Codecs α) : Loads c 0 none Boards.empty :=
  fun _ => ⟨-1, _, rfl, shows_new⟩

/-- Nothing fails that `SaveToFile` does not see: every `FileWrite` succeeds, protocol buffers give
back what they were given, and the records of the version, the database and the tables fit an
`int`. -/
structure Save.Ok (c : Codecs α) (d : Db α) (save : Save) : Prop where
  write : ∀ id i, save.write id i = .ok
  inverts : c.Inverts save.now d
  fit : d.HeadersFit c save.now

/-- What is stored of a database loads as its boards. -/
theorem Shows.loads {n : ℕ} {d : Db α} {bs : Boards α} (h : Shows n d bs) (hn : n < 2 ^ 31)
    {c : Codecs α} (hdef : c.Defaults) {save : Save} (hok : save.Ok c d) {script : Script}
    (hscript : save.script c d = some script) : Loads c n (some script.content) bs := by
  obtain ⟨order, horder, hstore⟩ := Option.bind_eq_some_iff.mp hscript
  have hwrite : save.write = SaveEnv.allOk.write := funext fun id => funext (hok.write id)
  rw [hwrite] at hstore
  intro heights
  obtain ⟨F, errs, files, l, hsave, hfile, hload, hshows⟩ := h.restart hn c hdef save.now
    hok.inverts hok.fit ⟨order, Dict.perm_entriesBy horder⟩ ⟨none, none⟩ heights
  obtain ⟨script', hscript', hret⟩ := saveToFile_script rfl hsave
  obtain rfl := Option.some.inj (hscript'.symm.trans hstore)
  rcases hret with ⟨hret, _⟩ | ⟨_, hret, _⟩ | ⟨_, _, rfl⟩
  · cases hret
  · cases hret
  · obtain rfl := Option.some.inj hfile
    exact ⟨0, l, hload, hshows⟩

/-! ## The invariant -/

namespace Life

variable [Zero α] {m : MsgCodecs α} {toScore : ToScore α} {c : Codecs α} {persistendTime : Int32}
variable {past : List (Event α)} {s s' : Life α}

/-- A save begins only as it should. -/
def SaveOk (c : Codecs α) : Event α → Life α → Prop
  | .onIdle _ (some (_, save)), s => save.Ok c s.loop.db
  | .onExit save, s => save.Ok c s.loop.db ∧ s.sys.NoSaveChild
  | _, _ => True

/-- The messages that have arrived and can be read. -/
def seen (past : List (Event α)) : List Bytes := (arrived past).filter fun x => decide (Readable x)

/-- The file has the boards that this life began with, after some more messages. -/
def Stored (m : MsgCodecs α) (c : Codecs α) (s : Life α) (ms : List Bytes) (file : Option Bytes) :
    Prop :=
  Loads c (m.entries (s.base ++ ms)).length file (Boards.afterAll m (s.base ++ ms) Boards.empty)

/-- What holds after some events. -/
structure Safe (m : MsgCodecs α) (toScore : ToScore α) (c : Codecs α) (past : List (Event α))
    (s : Life α) : Prop where
  sys : s.sys.Good
  live : s.loop.db.Live
  context : s.loop.mq.up = true
  part : (s.base ++ s.loop.handled ++
    s.loop.mq.pull.filter fun x => decide (Readable x)).Sublist (seen past)
  leads : MsgLoop.Leads m toScore (m.entries s.base).length
    (Boards.afterAll m s.base Boards.empty) s.loop
  kept : s.kept <+: s.loop.handled
  forked : s.forked <+: s.loop.handled
  past : ∀ x ∈ s.past, x.1 <+: x.2
  file : s.Stored m c s.kept (s.sys.disk.read .dbFile)
  saver : ∀ p t, s.sys.saver p = some t → s.Stored m c (s.snap p) (some t.script.content)
  ahead : ∀ p t, s.sys.saver p = some t → ¬ t.Done → s.kept <+: s.snap p
  finished : ∀ t, s.sys.main = .exiting t → t.phase = .done 0 → s.kept = s.loop.handled

/-- The database shows the boards, and the answers are theirs. -/
theorem Safe.shows (h : Safe m toScore c past s) (hclear : m.Clear (seen past)) :
    m.Clear (s.base ++ s.loop.handled) ∧
      Shows (m.entries (s.base ++ s.loop.handled)).length s.loop.db
        (Boards.afterAll m (s.base ++ s.loop.handled) Boards.empty) ∧
      s.loop.sent = Boards.feed m toScore s.loop.handled
        (Boards.afterAll m s.base Boards.empty) := by
  have hmine := hclear.sublist ((List.sublist_append_left _ _).trans h.part)
  have hu := (Boards.untiedAll_append m _ _ _).mp hmine.untied
  have hfew := hmine.few
  rw [m.entries_append, List.length_append] at hfew ⊢
  rw [Boards.afterAll_append]
  exact ⟨hmine, h.leads hu.2 hfew⟩

/-! ## Messages -/

/-- A step of the message loop: the processes do not see it. -/
theorem Safe.ofLoop (h : Safe m toScore c past s) {past' : List (Event α)} {loop : MsgLoop α}
    (hlive : loop.db.Live) (hcontext : loop.mq.up = true)
    (hpart : (s.base ++ loop.handled ++
      loop.mq.pull.filter fun x => decide (Readable x)).Sublist (seen past'))
    (hleads : MsgLoop.Leads m toScore (m.entries s.base).length
      (Boards.afterAll m s.base Boards.empty) loop)
    (hhandled : loop.handled = s.loop.handled ∨
      (s.sys.main = .running ∧ s.loop.handled <+: loop.handled)) :
    Safe m toScore c past' { s with loop } := by
  have hgrow : s.loop.handled <+: loop.handled := by
    rcases hhandled with heq | ⟨_, hpre⟩
    · rw [heq]
    · exact hpre
  -- while a process saves in the server itself, no message is handled
  have hsnap : ∀ p t, s.sys.saver p = some t → snap { s with loop } p = s.snap p := by
    intro p t ht
    cases p with
    | child pid => rfl
    | server =>
        rcases hhandled with heq | ⟨hmain, _⟩
        · exact heq
        · rw [System.saver, hmain] at ht
          cases ht
  refine ⟨h.sys, hlive, hcontext, hpart, hleads, h.kept.trans hgrow, h.forked.trans hgrow, h.past,
    h.file, fun p t ht => ?_, fun p t ht hnot => ?_, fun t ht hdone => ?_⟩
  · rw [hsnap p t ht]
    exact h.saver p t ht
  · rw [hsnap p t ht]
    exact h.ahead p t ht hnot
  · rcases hhandled with heq | ⟨hmain, _⟩
    · exact (h.finished t ht hdone).trans heq.symm
    · rw [hmain] at ht
      cases ht

theorem Safe.arrive (h : Safe m toScore c past s) {msg : Bytes}
    (hrun : step m toScore c persistendTime (.arrive msg) s = some s') :
    Safe m toScore c (past ++ [.arrive msg]) s' := by
  cases hrun
  refine h.ofLoop h.live h.context ?_ h.leads (Or.inl rfl)
  simp only [seen, arrived, List.filterMap_append, List.filter_append, ← List.append_assoc]
  exact h.part.append (List.Sublist.refl _)

theorem Safe.onProc (h : Safe m toScore c past s) {env : ℕ → MsgEnv α}
    (hrun : step m toScore c persistendTime (.onProc env) s = some s') :
    Safe m toScore c (past ++ [.onProc env]) s' := by
  simp only [step] at hrun
  split at hrun
  · next hmain =>
      obtain ⟨loop, hstep, heq⟩ := Option.bind_eq_some_iff.mp hrun
      cases heq
      obtain ⟨ret, loop', pre, hproc, hsplit, _, _, h'⟩ :=
        MsgLoop.processMQRecv_spec m toScore env h.live h.context
      have hleads := h.leads.step h.live (.onProc env) hstep
      obtain rfl : loop' = loop := by
        simpa [MsgLoop.step, hproc] using hstep
      refine h.ofLoop h'.live (h'.context.trans h.context) ?_ hleads
        (Or.inr ⟨hmain, h'.handled ▸ List.prefix_append _ _⟩)
      have hseen : seen (past ++ [.onProc env]) = seen past := by
        simp [seen, arrived]
      have hpart := h.part
      rw [hsplit, List.filter_append] at hpart
      rw [hseen, h'.handled]
      simpa only [List.append_assoc] using hpart
  · cases hrun

/-! ## Saves -/

omit [LinearOrder α] [Neg α] [One α] [Zero α] in
theorem keptAfter_does (s : Life α) (p : System.Who) :
    s.keptAfter (p.does (.rename true)) = s.snap p := by
  cases p <;> rfl

omit [LinearOrder α] [Neg α] [One α] [Zero α] in
theorem keptAfter_other {ev : System.Event} (h : ∀ p : System.Who, ev ≠ p.does (.rename true)) :
    s.keptAfter ev = s.kept := by
  unfold keptAfter
  split
  · next pid => exact absurd rfl (h (.child pid))
  · exact absurd rfl (h .server)
  · rfl

/-- A step of the processes. What a new process stores has to be of use, and a new child has to be
recorded. -/
theorem Safe.ofSystem (h : Safe m toScore c past s) {past' : List (Event α)} {ev : System.Event}
    {sys : System} {forked : List Bytes} (hseen : seen past' = seen past)
    (hok : System.ExitOk ev s.sys) (hstep : System.step persistendTime ev s.sys = some sys)
    (hforked : forked = s.forked ∨
      (forked = s.loop.handled ∧ ∀ pid, s.sys.proc.alive.find pid = none))
    (hidle : ∀ now pid script, ev = .idle now (some (pid, script)) →
      Proc.Due persistendTime now s.sys.proc.server.uiLastSaveTime →
      s.sys.proc.server.chilldPid = -1 →
      forked = s.loop.handled ∧ s.Stored m c s.loop.handled (some script.content))
    (hexit : ∀ script, ev = .exit script → s.Stored m c s.loop.handled (some script.content)) :
    Safe m toScore c past' { s with sys, forked, kept := s.keptAfter ev } := by
  have hgood := h.sys.step hok hstep
  have hsnap : ∀ p t, s.sys.saver p = some t →
      snap { s with sys, forked, kept := s.keptAfter ev } p = s.snap p := by
    intro p t ht
    cases p with
    | server => rfl
    | child pid =>
        rcases hforked with heq | ⟨_, hnone⟩
        · exact heq
        · rw [System.saver, hnone pid] at ht
          cases ht
  have hsnapLe : ∀ p, s.snap p <+: s.loop.handled := by
    intro p
    cases p with
    | server => exact List.prefix_refl _
    | child pid => exact h.forked
  have hforkedLe : forked <+: s.loop.handled := by
    rcases hforked with rfl | ⟨rfl, _⟩
    · exact h.forked
    · exact List.prefix_refl _
  -- a process that is new has what has been handled
  have hnew : ∀ p t, sys.saver p = some t →
      (∃ u, s.sys.saver p = some u ∧ t.script = u.script ∧ (¬ t.Done → ¬ u.Done)) ∨
      (snap { s with sys, forked, kept := s.keptAfter ev } p = s.loop.handled ∧
        s.Stored m c s.loop.handled (some t.script.content) ∧
        ∀ q : System.Who, ev ≠ q.does (.rename true)) := by
    intro p t ht
    rcases System.step_saver hstep ht with hold | ⟨a, u, disk, _, hu, hdone⟩ |
        ⟨script, rfl, ⟨now, pid, rfl, rfl, hdue, hpid⟩ | ⟨rfl, rfl⟩⟩
    · exact Or.inl ⟨t, hold, rfl, id⟩
    · obtain ⟨hscript, hnot, _⟩ := SaveProc.step_script hdone
      exact Or.inl ⟨u, hu, hscript, fun _ => hnot⟩
    · obtain ⟨hfork, hstored⟩ := hidle now pid script rfl hdue hpid
      exact Or.inr ⟨hfork, hstored, fun q hq => by cases q <;> cases hq⟩
    · exact Or.inr ⟨rfl, hexit script rfl, fun q hq => by cases q <;> cases hq⟩
  have hsaver : ∀ p t, sys.saver p = some t →
      s.Stored m c (snap { s with sys, forked, kept := s.keptAfter ev } p)
        (some t.script.content) := by
    intro p t ht
    rcases hnew p t ht with ⟨u, hu, hscript, _⟩ | ⟨hsn, hstored, _⟩
    · rw [hsnap p u hu, hscript]
      exact h.saver p u hu
    · rw [hsn]
      exact hstored
  rcases System.step_saved hstep with ⟨hsame, hno⟩ | ⟨q, v, rfl, hv, hnotv, hsaved⟩
  · -- nothing is renamed
    have hkept : s.keptAfter ev = s.kept := keptAfter_other hno
    have hread : sys.disk.read .dbFile = s.sys.disk.read .dbFile := by
      rw [hgood.saved, hsame, h.sys.saved]
    refine ⟨hgood, h.live, h.context, hseen ▸ h.part, h.leads, hkept.symm ▸ h.kept, hforkedLe,
      h.past, ?_, hsaver, fun p t ht hnot => ?_, fun t ht hdone => ?_⟩
    · show s.Stored m c (s.keptAfter ev) (sys.disk.read .dbFile)
      rw [hkept, hread]
      exact h.file
    · refine List.IsPrefix.trans (by rw [hkept]) (?_ : s.kept <+: _)
      rcases hnew p t ht with ⟨u, hu, _, hdone⟩ | ⟨hsn, _, _⟩
      · rw [hsnap p u hu]
        exact h.ahead p u hu (hdone hnot)
      · rw [hsn]
        exact h.kept
    · show s.keptAfter ev = _
      rw [hkept]
      have ht' := System.saver_server.mpr ht
      rcases System.step_saver hstep ht' with hold | ⟨a, u, disk, rfl, _, hdo⟩ | ⟨script, rfl, _⟩
      · exact h.finished t (System.saver_server.mp hold) hdone
      · obtain ⟨_, _, hrename, _⟩ := SaveProc.step_script hdo
        exact absurd (congrArg _ (hrename hdone)) (hno .server)
      · cases hdone
  · -- a process renames its file: it is the only one that is not at the end
    have hkept : s.keptAfter (q.does (.rename true)) = s.snap q := keptAfter_does s q
    refine ⟨hgood, h.live, h.context, hseen ▸ h.part, h.leads, hkept.symm ▸ hsnapLe q, hforkedLe,
      h.past, ?_, hsaver, fun p t ht hnot => ?_, fun t ht hdone => ?_⟩
    · show s.Stored m c (s.keptAfter _) (sys.disk.read .dbFile)
      rw [hkept, hgood.saved, hsaved]
      exact h.saver q v hv
    · refine List.IsPrefix.trans (by rw [hkept]) (?_ : s.snap q <+: _)
      rcases hnew p t ht with ⟨u, hu, _, hdone⟩ | ⟨_, _, hne⟩
      · rw [hsnap p u hu, h.sys.active hu hv (hdone hnot) hnotv]
      · exact absurd rfl (hne q)
    · show s.keptAfter _ = _
      rw [hkept]
      cases q with
      | server => rfl
      | child pid =>
          -- beside `OnExit` every child is at the end
          rcases hnew .server t (System.saver_server.mpr ht) with ⟨u, hu, _⟩ | ⟨_, _, hne⟩
          · rcases h.sys.apart with hmain | hchild
            · rw [System.saver_server, hmain] at hu
              cases hu
            · exact absurd (hchild pid v hv) hnotv
          · exact absurd rfl (hne (.child pid))

omit [LinearOrder α] [Neg α] [One α] [Zero α] in
theorem seen_append (evs evs' : List (Event α)) : seen (evs ++ evs') = seen evs ++ seen evs' := by
  simp [seen, arrived]

omit [LinearOrder α] [Neg α] [One α] [Zero α] in
theorem seen_other {ev : Event α} (h : ∀ msg, ev ≠ .arrive msg) :
    seen (past ++ [ev]) = seen past := by
  cases ev with
  | arrive msg => exact absurd rfl (h msg)
  | _ => simp [seen, arrived]

/-- What is stored now loads as the boards that are shown now. -/
theorem Safe.stored (h : Safe m toScore c past s) (hclear : m.Clear (seen past))
    (hdef : c.Defaults) {save : Save} (hok : save.Ok c s.loop.db) {script : Script}
    (hscript : save.script c s.loop.db = some script) :
    s.Stored m c s.loop.handled (some script.content) := by
  obtain ⟨hmine, hshows, _⟩ := h.shows hclear
  exact hshows.loads hmine.few hdef hok hscript

theorem Safe.onIdle (h : Safe m toScore c past s) (hclear : m.Clear (seen past))
    (hdef : c.Defaults) {now : Int64} {fork : Option (Int32 × Save)}
    (hok : SaveOk c (.onIdle now fork) s)
    (hrun : step m toScore c persistendTime (.onIdle now fork) s = some s') :
    Safe m toScore c (past ++ [.onIdle now fork]) s' := by
  have hseen : seen (past ++ [.onIdle now fork]) = seen past := seen_other fun _ he => by cases he
  cases fork with
  | none =>
      obtain ⟨sys, hstep, heq⟩ := Option.bind_eq_some_iff.mp hrun
      cases heq
      have hok : System.ExitOk (.idle now none) s.sys := trivial
      have hsafe := h.ofSystem hseen hok hstep (Or.inl rfl)
        (fun _ _ _ he => by cases he) (fun _ he => by cases he)
      exact hsafe
  | some f =>
      obtain ⟨pid, save⟩ := f
      obtain ⟨script, hscript, hrest⟩ := Option.bind_eq_some_iff.mp hrun
      obtain ⟨sys, hstep, heq⟩ := Option.bind_eq_some_iff.mp hrest
      cases heq
      have hstored := h.stored hclear hdef hok hscript
      have hexit : System.ExitOk (.idle now (some (pid, script))) s.sys := trivial
      by_cases hfork : s.forks persistendTime now = true
      · have hpid : s.sys.proc.server.chilldPid = -1 := (of_decide_eq_true hfork).2
        simp only [hfork, if_true]
        have hsafe := h.ofSystem hseen hexit hstep
          (Or.inr ⟨rfl, (h.sys.proc.no_child hpid).1⟩)
          (fun _ _ _ he _ _ => by cases he; exact ⟨rfl, hstored⟩) (fun _ he => by cases he)
        exact hsafe
      · simp only [hfork, Bool.false_eq_true, if_false]
        have hsafe := h.ofSystem hseen hexit hstep (Or.inl rfl)
          (fun _ _ _ he hdue hpid => by
            cases he
            exact absurd (decide_eq_true ⟨hdue, hpid⟩) hfork) (fun _ he => by cases he)
        exact hsafe

theorem Safe.onExit (h : Safe m toScore c past s) (hclear : m.Clear (seen past))
    (hdef : c.Defaults) {save : Save} (hok : SaveOk c (.onExit save) s)
    (hrun : step m toScore c persistendTime (.onExit save) s = some s') :
    Safe m toScore c (past ++ [.onExit save]) s' := by
  have hseen : seen (past ++ [.onExit save]) = seen past := seen_other fun _ he => by cases he
  obtain ⟨script, hscript, hrest⟩ := Option.bind_eq_some_iff.mp hrun
  obtain ⟨sys, hstep, heq⟩ := Option.bind_eq_some_iff.mp hrest
  cases heq
  have hstored := h.stored hclear hdef hok.1 hscript
  have hexit : System.ExitOk (.exit script) s.sys := hok.2
  have hsafe := h.ofSystem hseen hexit hstep (Or.inl rfl)
    (fun _ _ _ he => by cases he) (fun _ he => by cases he; exact hstored)
  exact hsafe

theorem Safe.proc (h : Safe m toScore c past s) {ev : System.Event}
    (hrun : step m toScore c persistendTime (.proc ev) s = some s') :
    Safe m toScore c (past ++ [.proc ev]) s' := by
  have hseen : seen (past ++ [.proc ev]) = seen past := seen_other fun _ he => by cases he
  simp only [step] at hrun
  split at hrun
  · cases hrun
  · next hnot =>
      obtain ⟨sys, hstep, heq⟩ := Option.bind_eq_some_iff.mp hrun
      cases heq
      have hok : System.ExitOk ev s.sys := by
        cases ev with
        | exit script => exact absurd rfl hnot
        | _ => trivial
      exact h.ofSystem hseen hok hstep (Or.inl rfl)
        (fun _ _ _ he => absurd (by rw [he]; rfl) hnot) (fun _ he => absurd (by rw [he]; rfl) hnot)

/-! ## Starting -/

/-- The program starts on a file that loads. -/
theorem safe_start (files : Files) {lives : List (List Bytes × List Bytes)}
    (hfile : Loads c (m.entries (lives.flatMap Prod.fst)).length files.dbFile
      (Boards.afterAll m (lives.flatMap Prod.fst) Boards.empty))
    (hpart : (lives.flatMap Prod.fst).Sublist (seen past)) (hpast : ∀ x ∈ lives, x.1 <+: x.2)
    (toScore : ToScore α) (heights : ℕ → Lvl) (now junk junk' : Int64) :
    ∃ s', start c heights now junk junk' files lives = some s' ∧ s'.past = lives ∧
      s'.loop.handled = [] ∧ Safe m toScore c past s' := by
  obtain ⟨ret, l, hload, hshows⟩ := hfile heights
  refine ⟨⟨.init l.db, .init now junk junk' files, [], [], lives⟩, by simp [start, hload], rfl, rfl,
    ?_⟩
  have hnone : ∀ p, (System.init now junk junk' files).saver p = none := by
    intro p
    cases p <;> rfl
  refine ⟨System.good_init now junk junk' files, hshows.live, rfl, ?_,
    MsgLoop.leads_init m toScore hshows, List.nil_prefix, List.nil_prefix, hpast, ?_,
    fun p t ht => ?_, fun p t ht _ => ?_, fun t ht _ => ?_⟩
  · simpa [base, MsgLoop.init, SvrMqMgr.init, SvrMqMgr.openPull] using hpart
  · have hread : (System.init now junk junk' files).disk.read .dbFile = files.dbFile :=
      (System.good_init now junk junk' files).saved
    simpa only [Stored, base, List.append_nil, hread] using hfile
  · rw [hnone] at ht
    cases ht
  · rw [hnone] at ht
    cases ht
  · cases ht

/-- After a crash the program starts again, with what was kept. -/
theorem Safe.restart (h : Safe m toScore c past s) (persistendTime : Int32) (heights : ℕ → Lvl)
    (now junk junk' : Int64) :
    ∃ s', step m toScore c persistendTime (.crash heights now junk junk') s = some s' ∧
      s'.base = s.base ++ s.kept ∧ s'.loop.handled = [] ∧ Safe m toScore c past s' := by
  have hbase : (s.past ++ [(s.kept, s.loop.handled)]).flatMap Prod.fst = s.base ++ s.kept := by
    simp [base]
  have hpart : (s.base ++ s.kept).Sublist (seen past) :=
    (((List.Sublist.refl _).append h.kept.sublist).trans (List.sublist_append_left _ _)).trans
      h.part
  have hpast : ∀ x ∈ s.past ++ [(s.kept, s.loop.handled)], x.1 <+: x.2 := by
    intro x hx
    rcases List.mem_append.mp hx with hx | hx
    · exact h.past x hx
    · rw [List.mem_singleton.mp hx]
      exact h.kept
  have hfile := h.file
  rw [Stored, ← hbase] at hfile
  rw [← hbase] at hpart
  obtain ⟨s', hstart, hlives, hnew, hsafe⟩ := safe_start
    ⟨s.sys.disk.read .dbFile, s.sys.disk.read .tmpFile⟩ hfile hpart hpast toScore heights now junk
    junk'
  exact ⟨s', hstart, by rw [base, hlives, hbase], hnew, hsafe⟩

/-! ## One life after another -/

/-- What the background save is told. -/
def oneSave : Save := ⟨fun _ _ => .ok, epoch, [ascii "k"]⟩

/-- The request arrives and is handled. -/
def setOnly : List (Event ℤ) :=
  [.arrive (setThenTop.transApp.serializeAsString ⟨0x1003, 7, ascii "p", setThree⟩),
    .onProc fun _ => ⟨fun _ => ⟨1, heightOne⟩, 0, .ok, true⟩]

/-- The question arrives and is handled. -/
def topOnly : List (Event ℤ) :=
  [.arrive (setThenTop.transApp.serializeAsString ⟨0x1017, 7, ascii "p", topTwo⟩),
    .onProc fun _ => ⟨fun _ => ⟨1, heightOne⟩, 0, .ok, true⟩]

/-- What a child does after the fork. -/
def childSaves : List (Event ℤ) :=
  [.proc (.child 7 (.fopen true)), .proc (.child 7 (.write 199)), .proc (.child 7 (.finish true)),
    .proc (.child 7 (.rename true))]

/-- What `OnExit` does. -/
def exitSaves : List (Event ℤ) :=
  [.proc (.main (.fopen true)), .proc (.main (.write 199)), .proc (.main (.finish true)),
    .proc (.main (.rename true))]

/-- The request has been handled: the database can be saved, and no child does so. -/
theorem setOnly_ok {s : Life ℤ} (hrun : run (Life.step setThenTop intScore oneBoard 3600) setOnly
    (first 0 0 0 none) = some s) : oneSave.Ok oneBoard s.loop.db ∧ s.sys.NoSaveChild := by
  have hentries : ((run (Life.step setThenTop intScore oneBoard 3600) setOnly
      (first 0 0 0 none)).map fun s => s.loop.db.dbDict.entries.map fun e =>
        (tableMsg e.1 e.2, e.2.members)) = some [(⟨ascii "k", 3⟩, ranking)] := by
    decide +kernel
  have hchildren : ((run (Life.step setThenTop intScore oneBoard 3600) setOnly
      (first 0 0 0 none)).map fun s => s.sys.proc.alive.entries.length) = some 0 := by
    decide +kernel
  rw [hrun, Option.map_some, Option.some.injEq] at hentries hchildren
  obtain ⟨hinv, hfit⟩ := oneBoard_fits hentries
  refine ⟨⟨fun _ _ => rfl, hinv, hfit⟩, fun pid t ht => ?_⟩
  have hnil : s.sys.proc.alive.entries = [] := List.length_eq_zero_iff.mp hchildren
  rw [Dict.find, hnil] at ht
  cases ht

theorem setOnly_free {s : Life ℤ} :
    Along (Life.step setThenTop intScore oneBoard 3600) (SaveOk oneBoard) setOnly s :=
  along_of_forall fun ev hev t => by
    simp only [setOnly, List.mem_cons, List.not_mem_nil, or_false] at hev
    rcases hev with rfl | rfl <;> trivial

/-! ## Runs -/

/-- Every event, when a save begins only as it should. -/
theorem Safe.step (h : Safe m toScore c past s) (hclear : m.Clear (seen past))
    (hdef : c.Defaults) {ev : Event α} (hok : SaveOk c ev s)
    (hrun : Life.step m toScore c persistendTime ev s = some s') :
    Safe m toScore c (past ++ [ev]) s' := by
  cases ev with
  | arrive msg => exact h.arrive hrun
  | onProc env => exact h.onProc hrun
  | onIdle now fork => exact h.onIdle hclear hdef hok hrun
  | onExit save => exact h.onExit hclear hdef hok hrun
  | proc ev => exact h.proc hrun
  | crash heights now junk junk' =>
      obtain ⟨s1, hstart, _, _, hsafe⟩ := h.restart persistendTime heights now junk junk'
      obtain rfl := Option.some.inj (hrun.symm.trans hstart)
      have hseen : seen (past ++ [.crash heights now junk junk']) = seen past :=
        seen_other fun _ he => by cases he
      exact { hsafe with part := hseen ▸ hsafe.part }

theorem safe_first (m : MsgCodecs α) (toScore : ToScore α) (c : Codecs α) (now junk junk' : Int64)
    (tmpFile : Option Bytes) : Safe m toScore c [] (first now junk junk' tmpFile) := by
  have hfile : Loads c (m.entries (([] : List (List Bytes × List Bytes)).flatMap Prod.fst)).length
      none (Boards.afterAll m (([] : List (List Bytes × List Bytes)).flatMap Prod.fst)
        Boards.empty) := loads_none c
  obtain ⟨s', hstart, _, _, hsafe⟩ := safe_start ⟨none, tmpFile⟩ hfile (List.nil_sublist (seen []))
    (fun x hx => by cases hx) toScore (fun _ => ⟨1, heightOne⟩) now junk junk'
  obtain rfl : first now junk junk' tmpFile = s' := Option.some.inj hstart
  exact hsafe

/-- Every run of such events. -/
theorem Safe.runs (h : Safe m toScore c past s) (hdef : c.Defaults) {evs : List (Event α)}
    (hok : Along (Life.step m toScore c persistendTime) (SaveOk c) evs s)
    (hclear : m.Clear (seen (past ++ evs)))
    (hrun : run (Life.step m toScore c persistendTime) evs s = some s') :
    Safe m toScore c (past ++ evs) s' := by
  refine run_history_along (fun past s => m.Clear (seen past) → Safe m toScore c past s)
    (fun past ev s s' hev hs hstep hcl => ?_) hok (fun _ => h) hrun hclear
  have hpast : m.Clear (seen past) :=
    hcl.sublist (seen_append past [ev] ▸ List.sublist_append_left _ _)
  exact (hs hpast).step hpast hdef hev hstep

/-- **What a crash costs.** Start the server for the first time, and let messages arrive, rounds
of the main loop, steps of the saves and crashes follow in any order; a save that has begun may
fail at any step. Then what has been handled in this life, and what was kept of the lives before
it, has arrived in this order; of each life a first part was kept; the answers in this life are
those of the boards after what was kept; and after a crash the program starts again, with what is
kept now. -/
theorem run_life (m : MsgCodecs α) (toScore : ToScore α) (c : Codecs α) (hdef : c.Defaults)
    (persistendTime : Int32) (evs : List (Event α)) {now junk junk' : Int64}
    {tmpFile : Option Bytes}
    (hok : Along (Life.step m toScore c persistendTime) (SaveOk c) evs
      (first now junk junk' tmpFile))
    (hclear : m.Clear (seen evs))
    (hrun : run (Life.step m toScore c persistendTime) evs (first now junk junk' tmpFile) =
      some s) :
    (s.base ++ s.loop.handled).Sublist (seen evs) ∧ (∀ x ∈ s.past, x.1 <+: x.2) ∧
      s.kept <+: s.loop.handled ∧
      s.loop.sent = Boards.feed m toScore s.loop.handled
        (Boards.afterAll m s.base Boards.empty) ∧
      ∀ heights now junk junk', ∃ s',
        Life.step m toScore c persistendTime (.crash heights now junk junk') s = some s' ∧
          s'.base = s.base ++ s.kept := by
  have h := (safe_first m toScore c now junk junk' tmpFile).runs hdef hok hclear hrun
  refine ⟨(List.sublist_append_left _ _).trans h.part, h.past, h.kept, (h.shows hclear).2.2, ?_⟩
  intro heights now junk junk'
  obtain ⟨s', hstep, hbase, _, _⟩ := h.restart persistendTime heights now junk junk'
  exact ⟨s', hstep, hbase⟩

/-- The request is handled and saved, then the question is handled, and the server crashes; then it
is asked again. -/
def twoLives : List (Event ℤ) :=
  setOnly ++ (.onIdle 3601 (some (7, oneSave)) :: (childSaves ++ topOnly ++
    (.crash (fun _ => ⟨1, heightOne⟩) 5000 0 0 :: topOnly)))

theorem run_life_two : ∃ s,
    run (Life.step setThenTop intScore oneBoard 3600) twoLives (first 0 0 0 none) = some s ∧
      (s.base ++ s.loop.handled).Sublist (seen twoLives) ∧ (∀ x ∈ s.past, x.1 <+: x.2) ∧
      s.kept <+: s.loop.handled ∧
      s.loop.sent = Boards.feed setThenTop intScore s.loop.handled
        (Boards.afterAll setThenTop s.base Boards.empty) ∧
      ∀ heights now junk junk', ∃ s',
        Life.step setThenTop intScore oneBoard 3600 (.crash heights now junk junk') s = some s' ∧
          s'.base = s.base ++ s.kept := by
  have hsome : (run (Life.step setThenTop intScore oneBoard 3600) twoLives
      (first 0 0 0 none)).isSome = true := by decide +kernel
  obtain ⟨s, hrun⟩ := Option.isSome_iff_exists.mp hsome
  refine ⟨s, hrun, run_life setThenTop intScore oneBoard oneBoard_defaults 3600 twoLives ?_
    ⟨by decide +kernel, by decide +kernel⟩ hrun⟩
  refine along_append.mpr ⟨setOnly_free, fun t ht => ⟨(setOnly_ok ht).1,
    fun _ _ => along_of_forall fun ev hev t => ?_⟩⟩
  simp only [childSaves, topOnly, List.cons_append, List.nil_append, List.mem_cons,
    List.not_mem_nil, or_false] at hev
  rcases hev with rfl | rfl | rfl | rfl | rfl | rfl | rfl | rfl | rfl <;> trivial

/-- Without a crash, what is kept stays. -/
theorem Safe.keeps (h : Safe m toScore c past s) {ev : Event α}
    (halive : ∀ heights now junk junk', ev ≠ .crash heights now junk junk')
    (hrun : Life.step m toScore c persistendTime ev s = some s') :
    s'.past = s.past ∧ s.kept <+: s'.kept := by
  cases ev with
  | arrive msg =>
      cases hrun
      exact ⟨rfl, List.prefix_refl _⟩
  | onProc env =>
      simp only [Life.step] at hrun
      split at hrun
      · obtain ⟨loop, _, heq⟩ := Option.bind_eq_some_iff.mp hrun
        cases heq
        exact ⟨rfl, List.prefix_refl _⟩
      · cases hrun
  | onIdle now fork =>
      cases fork with
      | none =>
          obtain ⟨sys, _, heq⟩ := Option.bind_eq_some_iff.mp hrun
          cases heq
          exact ⟨rfl, List.prefix_refl _⟩
      | some f =>
          obtain ⟨script, _, hrest⟩ := Option.bind_eq_some_iff.mp hrun
          obtain ⟨sys, _, heq⟩ := Option.bind_eq_some_iff.mp hrest
          cases heq
          exact ⟨rfl, List.prefix_refl _⟩
  | onExit save =>
      obtain ⟨script, _, hrest⟩ := Option.bind_eq_some_iff.mp hrun
      obtain ⟨sys, _, heq⟩ := Option.bind_eq_some_iff.mp hrest
      cases heq
      exact ⟨rfl, List.prefix_refl _⟩
  | proc ev =>
      simp only [Life.step] at hrun
      split at hrun
      · cases hrun
      · obtain ⟨sys, hstep, heq⟩ := Option.bind_eq_some_iff.mp hrun
        cases heq
        refine ⟨rfl, ?_⟩
        show s.kept <+: s.keptAfter ev
        -- what a process renames was taken after what it replaces
        rcases System.step_saved hstep with ⟨_, hno⟩ | ⟨q, v, rfl, hv, hnot, _⟩
        · rw [keptAfter_other hno]
        · rw [keptAfter_does]
          exact h.ahead q v hv hnot
  | crash heights now junk junk' => exact absurd rfl (halive heights now junk junk')

theorem Safe.keeps_run (h : Safe m toScore c past s) (hdef : c.Defaults) {evs : List (Event α)}
    (hok : Along (Life.step m toScore c persistendTime) (SaveOk c) evs s)
    (hclear : m.Clear (seen (past ++ evs)))
    (halive : ∀ heights now junk junk', Event.crash heights now junk junk' ∉ evs)
    (hrun : run (Life.step m toScore c persistendTime) evs s = some s') :
    s'.past = s.past ∧ s.kept <+: s'.kept := by
  induction evs generalizing past s with
  | nil =>
      cases hrun
      exact ⟨rfl, List.prefix_refl _⟩
  | cons ev evs ih =>
      obtain ⟨s1, hstep, hrest⟩ := run_cons.mp hrun
      have hpast : m.Clear (seen past) :=
        hclear.sublist (seen_append past _ ▸ List.sublist_append_left _ _)
      have hone := h.keeps (fun heights now junk junk' he =>
        halive heights now junk junk' (he ▸ List.mem_cons_self)) hstep
      have hclear' : m.Clear (seen (past ++ [ev] ++ evs)) := by rwa [List.append_assoc]
      have hmore := ih (h.step hpast hdef hok.1 hstep) (hok.2 s1 hstep) hclear'
        (fun heights now junk junk' he => halive heights now junk junk' (List.mem_cons_of_mem _ he))
        hrest
      exact ⟨hmore.1.trans hone.1, hone.2.trans hmore.2⟩

/-- **Nothing is taken back.** Let no `FileWrite` fail and no `OnExit` begin beside a save child.
At any time `db_file_` loads as the boards after a first part of the messages handled, and as
long as the server does not crash this part only grows: a save that fails at any other step
costs nothing that an earlier one has stored. -/
theorem run_keeps (m : MsgCodecs α) (toScore : ToScore α) (c : Codecs α) (hdef : c.Defaults)
    (persistendTime : Int32) (evs evs' : List (Event α)) {now junk junk' : Int64}
    {tmpFile : Option Bytes}
    (hok : Along (Life.step m toScore c persistendTime) (SaveOk c) (evs ++ evs')
      (first now junk junk' tmpFile))
    (hclear : m.Clear (seen (evs ++ evs')))
    (hrun : run (Life.step m toScore c persistendTime) evs (first now junk junk' tmpFile) = some s)
    (halive : ∀ heights now junk junk', Event.crash heights now junk junk' ∉ evs')
    (hmore : run (Life.step m toScore c persistendTime) evs' s = some s') :
    s'.base = s.base ∧ s.kept <+: s'.kept ∧ s'.kept <+: s'.loop.handled ∧
      s.Stored m c s.kept (s.sys.disk.read .dbFile) ∧
      s'.Stored m c s'.kept (s'.sys.disk.read .dbFile) := by
  obtain ⟨hok1, hok2⟩ := along_append.mp hok
  have hsub : (seen evs).Sublist (seen (evs ++ evs')) :=
    seen_append evs evs' ▸ List.sublist_append_left _ _
  have h := (safe_first m toScore c now junk junk' tmpFile).runs hdef hok1
    (hclear.sublist hsub) hrun
  have h' := h.runs hdef (hok2 s hrun) hclear hmore
  obtain ⟨hpast, hkept⟩ := h.keeps_run hdef (hok2 s hrun) hclear halive hmore
  exact ⟨by rw [base, hpast, base], hkept, h'.kept, h.file, h'.file⟩

/-- A child saves what the request has set; the question comes later. -/
def background : List (Event ℤ) := .onIdle 3601 (some (7, oneSave)) :: (childSaves ++ topOnly)

/-- Before the child has saved nothing is kept, and after it the request is. -/
theorem run_keeps_two : ∃ s s',
    run (Life.step setThenTop intScore oneBoard 3600) setOnly (first 0 0 0 none) = some s ∧
      run (Life.step setThenTop intScore oneBoard 3600) background s = some s' ∧
      s.kept.length = 0 ∧ s'.kept.length = 1 ∧
      s'.base = s.base ∧ s.kept <+: s'.kept ∧ s'.kept <+: s'.loop.handled ∧
      s.Stored setThenTop oneBoard s.kept (s.sys.disk.read .dbFile) ∧
      s'.Stored setThenTop oneBoard s'.kept (s'.sys.disk.read .dbFile) := by
  have hbefore : (run (Life.step setThenTop intScore oneBoard 3600) setOnly
      (first 0 0 0 none)).map (fun s => s.kept.length) = some 0 := by decide +kernel
  have hafter : (run (Life.step setThenTop intScore oneBoard 3600) (setOnly ++ background)
      (first 0 0 0 none)).map (fun s => s.kept.length) = some 1 := by decide +kernel
  obtain ⟨s', hall, hone⟩ := Option.map_eq_some_iff.mp hafter
  obtain ⟨s, hrun, hmore⟩ := run_append.mp hall
  rw [hrun, Option.map_some, Option.some.injEq] at hbefore
  refine ⟨s, s', hrun, hmore, hbefore, hone, run_keeps setThenTop intScore oneBoard
    oneBoard_defaults 3600 setOnly background ?_ ⟨by decide +kernel, by decide +kernel⟩ hrun
    (fun heights now junk junk' hev => ?_) hmore⟩
  · refine along_append.mpr ⟨setOnly_free, fun t ht => ⟨(setOnly_ok ht).1,
      fun _ _ => along_of_forall fun ev hev t => ?_⟩⟩
    simp only [childSaves, topOnly, List.cons_append, List.nil_append, List.mem_cons,
      List.not_mem_nil, or_false] at hev
    rcases hev with rfl | rfl | rfl | rfl | rfl | rfl <;> trivial
  · simp [background, childSaves, topOnly] at hev

/-- **An exit costs nothing.** Let no `FileWrite` fail and no `OnExit` begin beside a save child.
When `OnExit` has returned `0`, `db_file_` loads as the boards after everything that was handled,
in this life and, as far as it was kept, before it; and the database of the next life shows them. -/
theorem run_exit (m : MsgCodecs α) (toScore : ToScore α) (c : Codecs α) (hdef : c.Defaults)
    (persistendTime : Int32) (evs : List (Event α)) {now junk junk' : Int64}
    {tmpFile : Option Bytes}
    (hok : Along (Life.step m toScore c persistendTime) (SaveOk c) evs
      (first now junk junk' tmpFile))
    (hclear : m.Clear (seen evs))
    (hrun : run (Life.step m toScore c persistendTime) evs (first now junk junk' tmpFile) = some s)
    (hexit : s.sys.exitRet? = some 0) (heights : ℕ → Lvl) (now' junk1 junk2 : Int64) :
    s.Stored m c s.loop.handled (s.sys.disk.read .dbFile) ∧
      ∃ s', Life.step m toScore c persistendTime (.crash heights now' junk1 junk2) s = some s' ∧
        s'.base = s.base ++ s.loop.handled ∧
        Shows (m.entries (s.base ++ s.loop.handled)).length s'.loop.db
          (Boards.afterAll m (s.base ++ s.loop.handled) Boards.empty) := by
  have h := (safe_first m toScore c now junk junk' tmpFile).runs hdef hok hclear hrun
  obtain ⟨t, ht, hret⟩ := Option.bind_eq_some_iff.mp hexit
  have hdone : t.phase = .done 0 := by
    obtain ⟨script, phase, fd, offset⟩ := t
    cases phase with
    | done ret => rw [Option.some.inj hret]
    | _ => cases hret
  have hkept := h.finished t (System.saver_server.mp ht) hdone
  obtain ⟨s', hstep, hbase, hnew, h'⟩ := h.restart persistendTime heights now' junk1 junk2
  have hshows := (h'.shows hclear).2.1
  rw [hnew, List.append_nil, hbase, hkept] at hshows
  exact ⟨hkept ▸ h.file, s', hstep, by rw [hbase, hkept], hshows⟩

/-- The request is handled, and the server saves and exits. -/
def setThenExit : List (Event ℤ) := setOnly ++ (.onExit oneSave :: exitSaves)

theorem run_exit_two : ∃ s,
    run (Life.step setThenTop intScore oneBoard 3600) setThenExit (first 0 0 0 none) = some s ∧
      s.sys.exitRet? = some 0 ∧
      s.Stored setThenTop oneBoard s.loop.handled (s.sys.disk.read .dbFile) ∧
      ∃ s', Life.step setThenTop intScore oneBoard 3600
          (.crash (fun _ => ⟨1, heightOne⟩) 5000 0 0) s = some s' ∧
        s'.base = s.base ++ s.loop.handled ∧
        Shows (setThenTop.entries (s.base ++ s.loop.handled)).length s'.loop.db
          (Boards.afterAll setThenTop (s.base ++ s.loop.handled) Boards.empty) := by
  have hdone : (run (Life.step setThenTop intScore oneBoard 3600) setThenExit
      (first 0 0 0 none)).any (fun s => decide (s.sys.exitRet? = some 0)) = true := by
    decide +kernel
  obtain ⟨s, hrun, hs⟩ := (Option.any_eq_true _ _).mp hdone
  have hexit := of_decide_eq_true hs
  have hok : Along (Life.step setThenTop intScore oneBoard 3600) (SaveOk oneBoard) setThenExit
      (first 0 0 0 none) := by
    refine along_append.mpr ⟨setOnly_free, fun t ht => ⟨setOnly_ok ht,
      fun _ _ => along_of_forall fun ev hev t => ?_⟩⟩
    simp only [exitSaves, List.mem_cons, List.not_mem_nil, or_false] at hev
    rcases hev with rfl | rfl | rfl | rfl <;> trivial
  exact ⟨s, hrun, hexit, run_exit setThenTop intScore oneBoard oneBoard_defaults 3600 setThenExit
    hok ⟨by decide +kernel, by decide +kernel⟩ hrun hexit (fun _ => ⟨1, heightOne⟩) 5000 0 0⟩

end Life

end LibC
