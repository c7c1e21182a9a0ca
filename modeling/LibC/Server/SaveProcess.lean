/-
LibC.Server.SaveProcess — the processes that save: the child of `BgSaveDb` and
`OnExit`, both in `SaveToFile`, on one file system.

A `Saver` is a process in `SaveToFile`. Its `Script` is what that execution
stores through the stream, and whether it gets as far as the `rename`;
`saveScript` computes it as `saveToFile` does. The stream stores its bytes in
pieces of any size. A `System` is the server, its children, `OnExit`, and the
files; `Event` lists what can happen, in any order.

`saved` records what the last execution that renamed its file had stored. No
decision depends on it.

No `sorry`, no `axiom`, no `native_decide`.
-/
import LibC.Lib.Disk
import LibC.Server.Db
import LibC.Server.Process

namespace LibC

open LibC.Lib

/-! ## One process -/

/-- `db_file_`, and `db_file_` with `.tmp` appended. -/
inductive FileName where
  | dbFile
  | tmpFile
  deriving DecidableEq

/-- What an execution of `SaveToFile` stores, and whether it gets to the end. -/
structure Script where
  content : Bytes
  complete : Bool

section

variable {α : Type}

/-- The script of `SaveToFile` once the file is open. -/
def saveScript (c : Codecs α) (env : SaveEnv) (now : Bytes)
    (order : List (Bytes × SortSet α Bytes)) :
    Option Script :=
  let (ret, s) := saveRecord c.version env .version (dbVer now) .version ⟨[], []⟩
  if ret < 0 then some ⟨s.content, false⟩
  else
    let (ret, s) := saveRecord c.db env .db db1 .db s
    if ret < 0 then some ⟨s.content, false⟩
    else (saveTables c env order s).map fun s => ⟨s.content, true⟩

end

/-- How far a process has got: before `fopen`; writing; after `fclose`; at the end, with the
return value. -/
inductive Phase where
  | before
  | writing
  | closed
  | done (ret : Int)

/-- A process in `SaveToFile`; `fd` and `offset` are its open file. -/
structure SaveProc where
  script : Script
  phase : Phase
  fd : Nat
  offset : Nat

/-- A step of `SaveToFile`, with the answer of the system: `fopen`; storing `n + 1` bytes;
`fflush`, `fsync` and `fclose`, or an early return; `rename`. -/
inductive SaveStep where
  | fopen (ok : Bool)
  | write (n : Nat)
  | finish (ok : Bool)
  | rename (ok : Bool)

namespace SaveProc

/-- The call of `SaveToFile`. -/
def start (script : Script) : SaveProc := ⟨script, .before, 0, 0⟩

/-- The bytes that are not stored yet. -/
def todo (s : SaveProc) : Bytes := s.script.content.drop s.offset

/-- A step; `none` is what cannot happen. -/
def step : SaveStep → SaveProc × Disk FileName → Option (SaveProc × Disk FileName)
  | a, (s, disk) =>
      match s.phase, a with
      | .before, .fopen true =>
          let (fd, disk) := disk.create .tmpFile
          some ({ s with phase := .writing, fd, offset := 0 }, disk)
      | .before, .fopen false => some ({ s with phase := .done (-1) }, disk)
      | .writing, .write n =>
          let bs := s.todo.take (n + 1)
          if bs = [] then none
          else some ({ s with offset := s.offset + bs.length }, disk.pwrite s.fd s.offset bs)
      | .writing, .finish true =>
          if s.todo = [] then
            some ({ s with phase := if s.script.complete then .closed else .done (-1) }, disk)
          else none
      | .writing, .finish false => some ({ s with phase := .done (-1) }, disk)
      | .closed, .rename true =>
          (disk.rename .tmpFile .dbFile).map fun disk => ({ s with phase := .done 0 }, disk)
      | .closed, .rename false => some ({ s with phase := .done (-1) }, disk.unlink .tmpFile)
      | _, _ => none

/-- It has opened the temporary file and not renamed it yet. -/
def InWindow (s : SaveProc) : Prop :=
  match s.phase with
  | .writing => True
  | .closed => True
  | _ => False

/-- It is at the end. -/
def Done (s : SaveProc) : Prop :=
  match s.phase with
  | .done _ => True
  | _ => False

/-- What has been saved, after a step that happened. -/
def record (a : SaveStep) (s : SaveProc) (saved : Option Bytes) : Option Bytes :=
  match a with
  | .rename true => some s.script.content
  | _ => saved

end SaveProc

/-! ## The system -/

/-- The server itself: in its loop, in `OnExit`, or after it. -/
inductive MainPhase where
  | running
  | exiting (s : SaveProc)
  | exited

/-- The processes and the files. -/
structure System where
  proc : Proc SaveProc
  main : MainPhase
  disk : Disk FileName
  saved : Option Bytes

namespace System

/-- The files at the beginning. -/
def diskOf (files : Files) : Disk FileName where
  name
    | .dbFile => files.dbFile.map fun _ => 0
    | .tmpFile => files.tmpFile.map fun _ => 1
  content i := if i = 0 then files.dbFile.getD [] else files.tmpFile.getD []
  next := 2

/-- The server after `InitSigHandler` and `OnInit`. -/
def init (now junk junk' : Int64) (files : Files) : System where
  proc := .onInit initSigHandler now junk junk'
  main := .running
  disk := diskOf files
  saved := files.dbFile

/-- What can happen. -/
inductive Event where
  | idle (now : Int64) (fork : Option (Int32 × Script))
  | tick (now : Int64)
  | child (pid : Int32) (a : SaveStep)
  | childExit (pid : Int32)
  | childKill (pid : Int32) (sig : Nat)
  | exit (script : Script)
  | main (a : SaveStep)
  | mainReturn

/-- A save child does a step. -/
def childStep (pid : Int32) (a : SaveStep) (w : System) : Option System := do
  let s ← w.proc.alive.find pid
  let (s', disk) ← SaveProc.step a (s, w.disk)
  some { w with
    proc := { w.proc with alive := w.proc.alive.modify pid fun _ => s' }
    disk
    saved := s.record a w.saved }

/-- `_exit` of a save child. -/
def childExit (pid : Int32) (w : System) : Option System := do
  let s ← w.proc.alive.find pid
  match s.phase with
  | .done ret => do
      let proc ← w.proc.childExit pid (.exited (if ret < 0 then 1 else 0))
      some { w with proc }
  | _ => none

/-- The system after an event; `none` is what cannot happen. -/
def step (persistendTime : Int32) : Event → System → Option System
  | .idle now fork, w =>
      match w.main with
      | .running => do
          let proc ← w.proc.onIdle persistendTime now (fork.map fun f => (f.1, .start f.2))
          some { w with proc }
      | _ => none
  | .tick now, w =>
      match w.main with
      | .running =>
          let (rmfile, proc) := w.proc.onTick now
          some { w with proc, disk := if rmfile then w.disk.unlink .tmpFile else w.disk }
      | _ => none
  | .child pid a, w => w.childStep pid a
  | .childExit pid, w => w.childExit pid
  | .childKill pid sig, w => do
      let proc ← w.proc.childExit pid (.signaled sig)
      some { w with proc }
  | .exit script, w =>
      match w.main with
      | .running => some { w with main := .exiting (.start script) }
      | _ => none
  | .main a, w =>
      match w.main with
      | .exiting s => do
          let (s', disk) ← SaveProc.step a (s, w.disk)
          some { w with main := .exiting s', disk, saved := s.record a w.saved }
      | _ => none
  | .mainReturn, w =>
      match w.main with
      | .exiting s =>
          match s.phase with
          | .done _ => some { w with main := .exited }
          | _ => none
      | _ => none

/-- The processes that save. -/
inductive Who where
  | server
  | child (pid : Int32)
  deriving DecidableEq

/-- The save of a process. -/
def saver (w : System) : Who → Option SaveProc
  | .server =>
      match w.main with
      | .exiting s => some s
      | _ => none
  | .child pid => w.proc.alive.find pid

/-- No two processes are between opening the temporary file and renaming it. -/
def SingleWriter (w : System) : Prop :=
  ∀ p q s t, w.saver p = some s → w.saver q = some t → s.InWindow → t.InWindow → p = q

/-- No save child is still in `SaveToFile`. -/
def NoSaveChild (w : System) : Prop := ∀ pid s, w.proc.alive.find pid = some s → s.Done

/-- `OnExit` begins when no save child is still in `SaveToFile`. -/
def ExitOk : Event → System → Prop
  | .exit _, w => w.NoSaveChild
  | _, _ => True

end System

end LibC
