/-
LibC.Server.Life — the server over its whole life: its messages, its saves, and
what is left of it when it ends.

The message loop of `LibC.Server.Dispatch` and the processes of
`LibC.Server.SaveProcess` work on one database. `OnIdle` forks a child that saves
what the messages have made of it so far, `OnExit` saves it in the server itself,
and `OnInit` loads what is in `db_file_`. A `crash` may come between any two
events: it ends every process, and the program is started again on the files that
are left. What waits in a queue then is lost.

`forked`, `kept` and `past` record which messages a database and a file stand for.
No decision depends on them.

No `sorry`, no `axiom`, no `native_decide`.
-/
import LibC.Server.Dispatch
import LibC.Server.SaveProcess

namespace LibC

open LibC.Lib

/-! ## What is saved -/

/-- What the environment decides about a call of `SaveToFile`, apart from the steps of the
process: the answers of `FileWrite`, the time, and the order in which the hash map gives its
keys. -/
structure Save where
  write : RecId → Nat → WriteRet
  now : Bytes
  order : List Bytes

/-- What the call stores; `none` when there is no such order, or the call faults. -/
def Save.script {α : Type} (c : Codecs α) (d : Db α) (save : Save) : Option Script := do
  let order ← d.dbDict.entriesBy save.order
  saveScript c ⟨true, save.write, true, true, true, true⟩ save.now order

/-- The events that begin a save; what they save is not theirs to choose. -/
def System.Event.beginsSave : System.Event → Bool
  | .idle _ _ => true
  | .exit _ => true
  | _ => false

/-- What `SaveToFile` has returned. -/
def SaveProc.ret? (s : SaveProc) : Option Int :=
  match s.phase with
  | .done ret => some ret
  | _ => none

/-- What the `SaveToFile` of `OnExit` has returned. -/
def System.exitRet? (w : System) : Option Int := (w.saver .server).bind SaveProc.ret?

/-! ## The server -/

/-- The server, its children and the files. `forked` is what had been handled when the last save
child was forked, `kept` what had been handled when the content of `db_file_` was taken; `past`
has `kept` and the handled messages of each earlier life. -/
structure Life (α : Type) where
  loop : MsgLoop α
  sys : System
  forked : List Bytes
  kept : List Bytes
  past : List (List Bytes × List Bytes)

namespace Life

variable {α : Type}

/-- The messages that the database stood for when this life began. -/
def base (s : Life α) : List Bytes := s.past.flatMap Prod.fst

/-- What had been handled when a process began its save. -/
def snap (s : Life α) : System.Who → List Bytes
  | .server => s.loop.handled
  | .child _ => s.forked

/-- `kept` after an event of the processes. -/
def keptAfter (s : Life α) : System.Event → List Bytes
  | .child pid (.rename true) => s.snap (.child pid)
  | .main (.rename true) => s.snap .server
  | _ => s.kept

/-- `OnIdle` gets as far as `fork`. -/
def forks (persistendTime : Int32) (now : Int64) (s : Life α) : Bool :=
  decide (Proc.Due persistendTime now s.sys.proc.server.uiLastSaveTime ∧
    s.sys.proc.server.chilldPid = -1)

/-- What can happen. The argument of `onIdle` is `none` when `fork` is not called, or fails; `proc`
is what the processes do beside the events that begin a save. -/
inductive Event (α : Type) where
  | arrive (msg : Bytes)
  | onProc (env : Nat → MsgEnv α)
  | onIdle (now : Int64) (fork : Option (Int32 × Save))
  | onExit (save : Save)
  | proc (ev : System.Event)
  | crash (heights : Nat → Lvl) (now junk junk' : Int64)

variable [LinearOrder α] [Neg α] [One α]

/-- `OnInit`, on the files that are there. -/
def start (c : Codecs α) (heights : Nat → Lvl) (now junk junk' : Int64) (files : Files)
    (past : List (List Bytes × List Bytes)) : Option (Life α) := do
  let (_, l) ← checkDbFileAndLoad c heights files.dbFile Db.new
  some ⟨.init l.db, .init now junk junk' files, [], [], past⟩

/-- The first start: there is no `db_file_` yet. -/
def first (now junk junk' : Int64) (tmpFile : Option Bytes) : Life α :=
  ⟨.init Db.new, .init now junk junk' ⟨none, tmpFile⟩, [], [], []⟩

/-- The server after an event; `none` is what cannot happen. -/
def step [Zero α] (m : MsgCodecs α) (toScore : ToScore α) (c : Codecs α) (persistendTime : Int32) :
    Event α → Life α → Option (Life α)
  | .arrive msg, s => do
      let loop ← MsgLoop.step m toScore (.arrive msg) s.loop
      some { s with loop }
  | .onProc env, s =>
      match s.sys.main with
      | .running => do
          let loop ← MsgLoop.step m toScore (.onProc env) s.loop
          some { s with loop }
      | _ => none
  | .onIdle now none, s => do
      let sys ← System.step persistendTime (.idle now none) s.sys
      some { s with sys }
  | .onIdle now (some (pid, save)), s => do
      let script ← save.script c s.loop.db
      let sys ← System.step persistendTime (.idle now (some (pid, script))) s.sys
      some { s with
        sys
        forked := if s.forks persistendTime now then s.loop.handled else s.forked }
  | .onExit save, s => do
      let script ← save.script c s.loop.db
      let sys ← System.step persistendTime (.exit script) s.sys
      some { s with sys }
  | .proc ev, s =>
      if ev.beginsSave then none
      else do
        let sys ← System.step persistendTime ev s.sys
        some { s with sys, kept := s.keptAfter ev }
  | .crash heights now junk junk', s =>
      start c heights now junk junk' ⟨s.sys.disk.read .dbFile, s.sys.disk.read .tmpFile⟩
        (s.past ++ [(s.kept, s.loop.handled)])

/-- The messages that arrive in a run. -/
def arrived : List (Event α) → List Bytes :=
  List.filterMap fun ev => match ev with
    | .arrive m => some m
    | _ => none

end Life

end LibC
