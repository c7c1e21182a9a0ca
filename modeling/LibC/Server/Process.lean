/-
LibC.Server.Process — the background save of the server: `OnIdle`, `OnTick` and
`WaitChilen` of `bis/src/server/server.cpp`, `BgSaveDb` of `db.cpp`, and
`InitSigHandler` of `include/application_base.cpp`.

A `Proc` is the server process together with what the kernel keeps about its
children. What a child does is not said here: a child that is alive comes with a
value of a type `σ`. The clock and the answers of `fork` are arguments. The
kernel does not answer `fork` with a number that is taken; a call with such an
answer is `none`.

An exited child is reaped at once when `SIGCHLD` is ignored; otherwise it waits
in `zombies` for `wait3`.

No `sorry`, no `axiom`, no `native_decide`.
-/
import LibC.Lib.Dict
import Mathlib.Data.Int.Notation

namespace LibC

open LibC.Lib

/-! ## The kernel -/

/-- What happens on a signal: the default action, or nothing. -/
inductive Disposition where
  | default
  | ignore
  deriving DecidableEq

/-- How a child ended. -/
inductive Status where
  | exited (code : UInt8)
  | signaled (sig : Nat)

/-- What `wait3` with `WNOHANG` answers: a child that has ended; `0`, when all of them
run; or `-1` with `ECHILD`. -/
inductive Wait3Ret where
  | child (pid : Int32) (status : Status)
  | running
  | echild

/-! ## The server -/

/-- The fields of `Server` that the background save uses. -/
structure Server where
  uiLastSaveTime : Int64
  chilldPid : Int32
  uiForkStartTime : Int64
  uiSaveTimeSpan : Int64

/-- The server process and its children. -/
structure Proc (σ : Type) where
  server : Server
  sigchld : Disposition
  alive : Dict Int32 σ
  zombies : List (Int32 × Status)

/-- What `InitSigHandler` makes of `SIGCHLD`. -/
def initSigHandler : Disposition := .ignore

namespace Proc

variable {σ : Type}

/-- `OnInit` at a time; the last two fields are not initialised. -/
def onInit (sigchld : Disposition) (now : Int64) (junk junk' : Int64) : Proc σ where
  server := ⟨now, -1, junk, junk'⟩
  sigchld := sigchld
  alive := Dict.empty
  zombies := []

/-- The numbers the kernel may give to a new child. -/
def CanFork (p : Proc σ) (pid : Int32) : Prop :=
  0 < pid ∧ p.alive.find pid = none ∧ ∀ z ∈ p.zombies, z.1 ≠ pid

instance (p : Proc σ) (pid : Int32) : Decidable (p.CanFork pid) :=
  inferInstanceAs (Decidable (_ ∧ _ ∧ _))

/-- `BgSaveDb`, in the parent: the return value. `fork` answers the number of the child,
or fails. -/
def bgSaveDb (now : Int64) (fork : Option (Int32 × σ)) (p : Proc σ) : Option (Int × Proc σ) :=
  if p.server.chilldPid ≠ -1 then some (-1, p)
  else
    match fork with
    | none => some (-1, p)
    | some (pid, child) =>
        if p.CanFork pid then
          some (0, { p with
            server := { p.server with chilldPid := pid, uiForkStartTime := now }
            alive := p.alive.insert pid child })
        else none

/-- The condition of `OnIdle`. -/
def Due (persistendTime : Int32) (now uiLastSaveTime : Int64) : Prop :=
  persistendTime < (now - uiLastSaveTime).toInt32

instance (persistendTime : Int32) (now uiLastSaveTime : Int64) :
    Decidable (Due persistendTime now uiLastSaveTime) :=
  inferInstanceAs (Decidable (_ < _))

/-- `OnIdle`. -/
def onIdle (persistendTime : Int32) (now : Int64) (fork : Option (Int32 × σ)) (p : Proc σ) :
    Option (Proc σ) :=
  if Due persistendTime now p.server.uiLastSaveTime then (p.bgSaveDb now fork).map Prod.snd
  else some p

/-- `wait3`. -/
def wait3 (p : Proc σ) : Wait3Ret × Proc σ :=
  match p.zombies with
  | (pid, status) :: zombies => (.child pid status, { p with zombies })
  | [] => (if p.alive.entries.isEmpty then .echild else .running, p)

/-- `WaitChilen`, and whether it removes the temporary file. -/
def waitChilen (now : Int64) (p : Proc σ) : Bool × Proc σ :=
  if p.server.chilldPid ≠ -1 then
    match p.wait3 with
    | (.child _ status, p) =>
        let (rmfile, server) :=
          match status with
          | .exited code =>
              (false, if code = 0 then { p.server with uiLastSaveTime := now } else p.server)
          | .signaled _ => (true, p.server)
        (rmfile, { p with
          server := { server with
            chilldPid := -1
            uiSaveTimeSpan := now - server.uiForkStartTime
            uiForkStartTime := -1 } })
    | (_, p) => (false, p)
  else (false, p)

/-- `OnTick`. -/
def onTick (now : Int64) (p : Proc σ) : Bool × Proc σ := p.waitChilen now

/-- A child ends. -/
def childExit (pid : Int32) (status : Status) (p : Proc σ) : Option (Proc σ) :=
  match p.alive.find pid with
  | none => none
  | some _ =>
      some { p with
        alive := p.alive.erase pid
        zombies := if p.sigchld = .ignore then p.zombies else p.zombies ++ [(pid, status)] }

/-! ## Events -/

/-- What can happen. -/
inductive Event (σ : Type) where
  | idle (now : Int64) (fork : Option (Int32 × σ))
  | tick (now : Int64)
  | childExit (pid : Int32) (status : Status)

/-- The process after it; `none` is what cannot happen. -/
def step (persistendTime : Int32) : Event σ → Proc σ → Option (Proc σ)
  | .idle now fork, p => p.onIdle persistendTime now fork
  | .tick now, p => some (p.onTick now).2
  | .childExit pid status, p => p.childExit pid status

end Proc

end LibC
