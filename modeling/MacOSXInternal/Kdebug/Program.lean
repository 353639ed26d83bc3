import Mathlib.Data.Fintype.Card
import MacOSXInternal.Lib.Exits

/-!
# `kdebug.c`

`kdebug` has the kernel trace one system call, and prints samples of the trace until it is stopped.
Everything it asks the kernel for is a `sysctl`.  When one of them fails, and when a signal arrives,
`ukdbg_exit_handler` takes back what has been set up, with the functions that it is called by.

* `Env` is what happens to a run: which calls of `sysctl` fail, and which signals arrive when.
* `ukdbgExitHandler` is the handler, with a bound on how often it may be entered anew.
* `main` is the program.  The samples are not printed here.
-/

set_option autoImplicit false

namespace MacOSXInternal
namespace Kdebug

open Exits

/-! ## The kernel and the signals -/

/-- What is asked for with `sysctl`, by the name of the third component of the `mib`. -/
inductive Request
  /-- `KERN_KDENABLE` -/
  | enable (value : ℤ)
  /-- `KERN_KDREMOVE` -/
  | remove
  /-- `KERN_KDSETUP` -/
  | setup
  /-- `KERN_KDSETBUF` -/
  | setbuf (nbufs : ℤ)
  /-- `KERN_KDPIDTR`, with a `kd_regtype` of `KDBG_TYPENONE`. -/
  | pidtr (value1 value2 : ℤ)
  /-- `KERN_KDSETREG`, with a `kd_regtype` of `KDBG_VALCHECK`. -/
  | setreg (value1 value2 value3 value4 : ℤ)
  /-- `KERN_KDGETBUF` -/
  | getbuf
  /-- `KERN_KDREADTR` -/
  | readtr
  deriving DecidableEq

/-- The signals that are handled. -/
inductive Signal
  | sighup
  | sigint
  | sigquit
  | sigterm
  deriving DecidableEq

instance : Fintype Signal where
  elems := {.sighup, .sigint, .sigquit, .sigterm}
  complete := by
    intro sig
    cases sig <;> decide

def Signal.number : Signal → ℤ
  | .sighup => 1
  | .sigint => 2
  | .sigquit => 3
  | .sigterm => 15

/-- What a run leaves behind. -/
inductive Event
  | arrived (sig : Signal)
  /-- The handler is entered. -/
  | entered (s : ℤ)
  | sysctl (r : Request) (ok : Bool)
  /-- A line on the standard error stream. -/
  | wrote (line : String)
  deriving DecidableEq

/-- What happens to a run. -/
structure Env where
  /-- Whether the call of `sysctl` with this number fails. -/
  fails : ℕ → Bool
  /-- What arrives before the call with this number of a function that does one. -/
  arrives : ℕ → Option Signal
  /-- `BSDDBG_CODE(DBG_BSD_EXCP_SC, code)` -/
  bsddbgCode : ℤ

/-- The global variables; the signals that are blocked, since they are being handled; and how far
the run has come. -/
structure State where
  exiting : ℤ
  pid : ℤ
  traceEnabled : ℤ
  setRemoveFlag : ℤ
  blocked : Finset Signal
  calls : ℕ
  polls : ℕ
  log : List Event

def State.record (s : State) (e : Event) : State := { s with log := s.log ++ [e] }

/-- A call of `sysctl` has returned. -/
def State.did (s : State) (r : Request) (ok : Bool) : State :=
  { s.record (.sysctl r ok) with calls := s.calls + 1 }

/-- How a run ends. -/
inductive End
  | exit (status : ℤ) (s : State)
  /-- The handler has been entered more often than it may. -/
  | tooDeep

abbrev Prog := Exits.Prog State End

abbrev Handler := ℤ → Prog

/-! ## The program -/

variable (env : Env) (h : Handler)

/-- The place between two calls.  A signal that is not blocked is handled here; the handler does not
return. -/
def arrive : Prog := fun s ↦
  match env.arrives s.polls with
  | none => .inl { s with polls := s.polls + 1 }
  | some sig =>
    if sig ∈ s.blocked then .inl { s with polls := s.polls + 1 }
    else h sig.number
      { s.record (.arrived sig) with polls := s.polls + 1, blocked := insert sig s.blocked }

/-- `if ((sysctl(…) < 0) && guard) failed` -/
def sysctl (r : Request) (guard : State → Bool) (failed : Prog) : Prog := fun s ↦
  let t := s.did r (!env.fails s.calls)
  if env.fails s.calls && guard t then failed t else .inl t

/-- `perror` and `fprintf(stderr, …)`. -/
def write (line : String) : Prog := assign (·.record (.wrote line))

def ukdbgExit (msg : Option String) : Prog :=
  inOrder
    [(match msg with
      | some msg => write msg
      | none => .inl),
    h 0]

def ukdbgSetenable (enable : ℤ) : Prog :=
  inOrder
    [sysctl env (.enable enable) (fun s ↦ s.exiting = 0) (ukdbgExit h "ukdbg_setenable::sysctl"),
    assign fun s ↦ { s with traceEnabled := enable }]

def ukdbgClear : Prog :=
  sysctl env .remove (fun s ↦ s.exiting = 0)
    (inOrder
      [assign fun s ↦ { s with setRemoveFlag := 0 },
      ukdbgExit h "ukdbg_clear::sysctl"])

def ukdbgReinit : Prog := sysctl env .setup (fun _ ↦ true) (ukdbgExit h "ukdbg_reinit::sysctl")

def ukdbgSetbuf (nbufs : ℤ) : Prog :=
  sysctl env (.setbuf nbufs) (fun _ ↦ true) (ukdbgExit h "ukdbg_setbuf::sysctl")

def ukdbgSetpidcheck (pid check : ℤ) : Prog :=
  sysctl env (.pidtr pid check) (fun s ↦ s.exiting = 0)
    (ukdbgExit h "ukdbg_setpidcheck::sysctl")

def ukdbgSetregValcheck (val1 val2 val3 val4 : ℤ) : Prog :=
  sysctl env (.setreg val1 val2 val3 val4) (fun _ ↦ true)
    (ukdbgExit h "ukdbg_setreg_valcheck::sysctl")

def ukdbgGetbuf : Prog := sysctl env .getbuf (fun _ ↦ true) (ukdbgExit h "ukdbg_getbuf::sysctl")

def ukdbgRead : Prog := sysctl env .readtr (fun _ ↦ true) (ukdbgExit h "ukdbg_read::sysctl")

/-- A call, and the place before it. -/
def call (p : Prog) : Prog := inOrder [arrive env h, p]

def ukdbgExitHandler : ℕ → Handler
  | 0, _ => fun _ ↦ .inr .tooDeep
  | depth + 1, s =>
    let h := ukdbgExitHandler depth
    inOrder
      [assign fun t ↦ { t.record (.entered s) with exiting := 1 },
      whenever (fun t ↦ t.traceEnabled ≠ 0) (call env h (ukdbgSetenable env h 0)),
      whenever (fun t ↦ 0 < t.pid) (call env h fun t ↦ ukdbgSetpidcheck env h t.pid 0 t),
      whenever (fun t ↦ t.setRemoveFlag ≠ 0) (call env h (ukdbgClear env h)),
      arrive env h,
      write "cleaning up...",
      fun t ↦ .inr (.exit s t)]

def kdbgSampleSize : ℤ := 16384

/-- `main` up to the loop. -/
def setUp : Prog :=
  inOrder
    [call env h (ukdbgClear env h),
    call env h (ukdbgSetbuf env h kdbgSampleSize),
    call env h (ukdbgReinit env h),
    whenever (fun s ↦ 0 < s.pid) (call env h fun s ↦ ukdbgSetpidcheck env h s.pid 1 s),
    call env h (ukdbgSetregValcheck env h env.bsddbgCode 0 0 0),
    call env h (ukdbgSetenable env h 1)]

/-- One turn of the loop. -/
def sample : Prog := inOrder [call env h (ukdbgGetbuf env h), call env h (ukdbgRead env h)]

/-- The global variables in the beginning. -/
def State.initial : State where
  exiting := 0
  pid := -1
  traceEnabled := 0
  setRemoveFlag := 1
  blocked := ∅
  calls := 0
  polls := 0
  log := []

/-- `argv` is what `atoi` makes of the arguments after the first, and `kdBufMemory` says whether
`malloc` has found some memory.  There is no result when the loop takes more than `fuel` turns. -/
def main (depth fuel : ℕ) (argv : List ℤ) (kdBufMemory : Bool) : Option End :=
  match argv with
  | _ :: _ :: _ => some (.exit 1 (State.initial.record (.wrote "usage: kdebug [<pid>]")))
  | _ =>
    let s : State := { State.initial with pid := argv.headD (-1) }
    if kdBufMemory then
      match setUp env (ukdbgExitHandler env depth) s with
      | .inl t => Loop.run (sample env (ukdbgExitHandler env depth)) fuel t
      | .inr r => some r
    else some (.exit 1 (s.record (.wrote "malloc")))

end Kdebug
end MacOSXInternal
