import Mathlib.Data.List.Basic
import MacOSXInternal.Lstasks.Tables

/-!
# `lstasks.c`

`lstasks` asks the kernel for all tasks, counts them, their threads, and the processes of BSD and of
the Carbon Process Manager, and prints a line for each task, or, with `-v`, everything that the
kernel has to say about it, or, with `-s`, nothing but the four totals.

* `Kernel`, `Task` and `Thread` are what it is told.
* `task` is the loop over the tasks, in its parts: `count`, `carbon`, `describe` and `doThreads`.  A
  `continue` is where a part returns before the next one.
* `main` is the program.

Numbers that are printed as they have been received, and on which nothing depends, are left out.
A step that has no result is one whose behaviour is not defined: the name of a process that was not
copied is printed, or an entry outside of a table.
-/

set_option autoImplicit false

namespace MacOSXInternal
namespace Lstasks

/-! ## What the program is told -/

def KERN_SUCCESS : BitVec 32 := 0

/-- `noErr`. -/
def noErr : BitVec 32 := 0

/-- `procNotFound`. -/
def procNotFound : BitVec 32 := -600

abbrev Port := BitVec 32

/-- An answer of the kernel, or a number other than `KERN_SUCCESS`. -/
abbrev Answer (α : Type) := Except (BitVec 32) α

/-- `THREAD_TIME_CONSTRAINT_POLICY`. -/
structure TimeConstraint where
  period : BitVec 32
  computation : BitVec 32
  constraint : BitVec 32
  preemptible : Bool

/-- `thread_basic_info`. -/
structure ThreadBasicInfo where
  policy : BitVec 32
  run_state : BitVec 32

/-- A thread, with the answers to the questions about it. -/
structure Thread where
  port : Port
  basic_info : Answer ThreadBasicInfo
  extended_policy : Answer Bool
  time_constraint_policy : Answer TimeConstraint
  precedence_policy : Answer (BitVec 32)

/-- Memory that the kernel has mapped into the program, by its address and the number of
elements. -/
structure Region where
  address : BitVec 32
  count : ℕ
  deriving DecidableEq

/-- An array that the kernel returns out of line.  For one without elements nothing is mapped. -/
structure OutOfLine (α : Type) where
  address : BitVec 32
  elements : List α

def OutOfLine.regions {α : Type} (a : OutOfLine α) : List Region :=
  if a.elements = [] then [] else [⟨a.address, a.elements.length⟩]

/-- A task, with the answers to the questions about it. -/
structure Task where
  port : Port
  /-- What `pid_for_task` returns, and what is in `pid` then. -/
  pid_for_task : BitVec 32 × BitVec 32
  /-- The name that `sysctl` finds for the process. -/
  kp_comm : Option String
  /-- What `GetProcessForPID` returns, and the two halves of the serial number. -/
  getProcessForPID : BitVec 32 × BitVec 32 × BitVec 32
  /-- `CopyProcessName`, which may leave no name. -/
  copyProcessName : Option String
  /-- The policy in `task_basic_info`. -/
  basic_info : Answer (BitVec 32)
  /-- `get_default`, and the role. -/
  task_policy_get : Answer (Bool × BitVec 32)
  task_threads : Answer (OutOfLine Thread)

/-- Everything the program is told but its options. -/
structure Kernel where
  mytask : Port
  task_for_pid : BitVec 32 → Answer Port
  processor_set_default : BitVec 32
  host_processor_set_priv : BitVec 32
  processor_set_tasks : Answer (OutOfLine Task)

/-! ## The options -/

inductive Opt
  | p (pid : BitVec 32)
  | s
  | v
  | other
  deriving DecidableEq

structure Options where
  onetask : Port
  summary : Bool
  verbose : Bool

/-! ## What the program prints -/

inductive Output
  | summaryHeader
  | task (i : ℕ)
  | bsdProcess (pid : BitVec 32) (name : String)
  | noBsdProcess
  | carbonName (name : String)
  | psn (high low : BitVec 32)
  | noPsn
  | defaultPolicy (policy : BitVec 32) (name : String)
  | role (name : String)
  | threadCount (n : ℕ)
  | thread (j n : ℕ)
  | schedulingPolicy (name : String)
  | timeConstraint (period computation constraint preemptible : String)
  | importance (n : BitVec 32)
  | runState (n : BitVec 32) (name : String)
  | newline
  /-- To the standard error output. -/
  | error (text : String) (kr : BitVec 32)

/-- The four counters. -/
structure Stats where
  stat_task : BitVec 32
  stat_proc : BitVec 32
  stat_cpm : BitVec 32
  stat_thread : BitVec 32
  deriving DecidableEq

/-- The counters, and what has been mapped and deallocated. -/
structure Ledger extends Stats where
  mapped : List Region
  deallocated : List Region

/-- The same, and what has been printed. -/
structure State extends Ledger where
  out : List Output

/-- `Printf`, which does nothing when only the summary is to be printed. -/
def State.print (o : Options) (s : State) (x : Output) : State :=
  if o.summary then s else { s with out := s.out ++ [x] }

/-- `mach_error`, and the line behind it. -/
def State.error (s : State) (text : String) (kr : BitVec 32) : State :=
  { s with out := s.out ++ [.error text kr] }

/-! ## A task -/

section
variable (o : Options) (i : ℕ) (t : Task)

def pid : BitVec 32 := t.pid_for_task.2

/-- The task is a BSD process. -/
def isBsd : Bool := t.pid_for_task.1 = KERN_SUCCESS ∧ 0 < (pid t).toInt

/-- `getprocname`. -/
def getprocname : String :=
  match t.kp_comm with
  | none => "?"
  | some name => if name = "" then "exited?" else name

/-- `status`, behind the call of `GetProcessForPID`. -/
def status : BitVec 32 := if 0 < (pid t).toInt then t.getProcessForPID.1 else procNotFound

/-- The task is counted, and looked up as a BSD process. -/
def count (s : State) : State :=
  let s := { s with stat_task := s.stat_task + 1 }
  let s := s.print o (.task i)
  if isBsd t then
    let s := { s with stat_proc := s.stat_proc + 1 }
    s.print o (.bsdProcess (pid t) (getprocname t))
  else s.print o .noBsdProcess

/-- The task is looked up as a Carbon process. -/
def carbon (s : State) : Option State :=
  if status t = noErr then
    let s := { s with stat_cpm := s.stat_cpm + 1 }
    if o.verbose then t.copyProcessName.map fun name ↦ s.print o (.carbonName name)
    else some (s.print o (.psn t.getProcessForPID.2.1 t.getProcessForPID.2.2))
  else some (s.print o .noPsn)

/-- The role of the task. -/
def describeRole (s : State) : Option State :=
  match t.task_policy_get with
  | .error _ => some s
  | .ok (get_default, role) =>
    if get_default then some (s.print o (.role "NONE"))
    else
      match shownRole 0 role with
      | none => some s
      | some name => name.map fun name ↦ s.print o (.role name)

/-- What is printed of a task with `-v`.  If there is no information about it, it is skipped. -/
def describe (s : State) : Option (State ⊕ State) :=
  match t.basic_info with
  | .error kr => some (.inl (s.error "*** TASK_BASIC_INFO failed" kr))
  | .ok policy =>
    (shownPolicy 0 policy).bind fun name ↦
      (describeRole o t (s.print o (.defaultPolicy (resetPolicy 0 policy) name))).map .inr

end

/-! ## The threads of a task -/

def THREAD_EXTENDED_POLICY : BitVec 32 := 1
def THREAD_TIME_CONSTRAINT_POLICY : BitVec 32 := 2
def THREAD_PRECEDENCE_POLICY : BitVec 32 := 3

/-- The scheduling policy of a thread.  Nothing is printed if it cannot be got. -/
def schedulingPolicy (th : Thread) (policy : BitVec 32) : List Output :=
  if policy = THREAD_EXTENDED_POLICY then
    match th.extended_policy with
    | .error _ => []
    | .ok timeshare => [.schedulingPolicy (if timeshare then "STANDARD" else "EXTENDED")]
  else if policy = THREAD_TIME_CONSTRAINT_POLICY then
    match th.time_constraint_policy with
    | .error _ => []
    | .ok c =>
      [.schedulingPolicy "TIME_CONSTRAINT",
        .timeConstraint (toString c.period.toNat) (toString c.computation.toNat)
          (toString c.constraint.toNat) (if c.preemptible then "TRUE" else "FALSE")]
  else if policy = THREAD_PRECEDENCE_POLICY then
    match th.precedence_policy with
    | .error _ => []
    | .ok importance => [.schedulingPolicy "PRECEDENCE", .importance importance]
  else [.schedulingPolicy "UNKNOWN?"]

/-- What is printed of the `j`-th thread. -/
def showThread (count j : ℕ) (th : Thread) : Option (List Output) :=
  match th.basic_info with
  | .error kr => some [.error "*** thread_info() failed" kr]
  | .ok info =>
    (shownState 0 info.run_state).map fun name ↦
      .thread j (count - 1) :: schedulingPolicy th info.policy ++ [.runState info.run_state name]

/-- What is printed of the threads from the `j`-th on. -/
def showThreads (count : ℕ) : ℕ → List Thread → Option (List Output)
  | _, [] => some []
  | j, th :: ths =>
    (showThread count j th).bind fun x ↦ (showThreads count (j + 1) ths).map (x ++ ·)

/-- Everything from `do_threads` on. -/
def doThreads (o : Options) (t : Task) (s : State) : Option State :=
  match t.task_threads with
  | .error kr => some (s.error "task_threads() failed" kr)
  | .ok thread_list =>
    let thread_count := thread_list.elements.length
    let s := { s with mapped := s.mapped ++ thread_list.regions }
    let s := { s with stat_thread := s.stat_thread + BitVec.ofNat 32 thread_count }
    if !o.verbose then some (s.print o (.threadCount thread_count))
    else
      let s := s.print o (.threadCount thread_count)
      (showThreads thread_count 0 thread_list.elements).map fun x ↦
        let s := { s with out := s.out ++ x }
        { s with deallocated := s.deallocated ++ thread_list.regions }

/-! ## The program -/

/-- The body of the loop over the tasks. -/
def task (o : Options) (i : ℕ) (t : Task) (s : State) : Option State :=
  (carbon o t (count o i t s)).bind fun s ↦
    if !o.verbose then doThreads o t s
    else
      (describe o t s).bind fun
        | .inl s => some s
        | .inr s => doThreads o t s

/-- The task is our own, or not the one that is asked for. -/
def ignored (o : Options) (mytask : Port) (t : Task) : Bool :=
  t.port = mytask ∨ o.onetask ≠ 0 ∧ t.port ≠ o.onetask

/-- The loop over the tasks, from the `i`-th on. -/
def tasks (o : Options) (mytask : Port) : ℕ → List Task → State → Option State
  | _, [], s => some s
  | i, t :: ts, s =>
    if ignored o mytask t then tasks o mytask (i + 1) ts s
    else (task o i t s).bind (tasks o mytask (i + 1) ts)

/-- How the program ends. -/
inductive Outcome
  /-- `exit(1)`, after the usage message. -/
  | usage
  /-- `exit(1)`, after the message of a call that has failed. -/
  | failed (msg : String)
  /-- Behaviour that is not defined. -/
  | undefined
  /-- `exit(0)`, after the totals. -/
  | finished (s : State)

/-- The loop over the options. -/
def parse (k : Kernel) : List Opt → Options → Except Outcome Options
  | [], o => .ok o
  | .p pid :: opts, o =>
    match k.task_for_pid pid with
    | .error _ => .error (.failed "task_for_pid")
    | .ok onetask => parse k opts { o with onetask := onetask }
  | .s :: opts, o => parse k opts { o with summary := true }
  | .v :: opts, o => parse k opts { o with verbose := true }
  | .other :: _, _ => .error .usage

/-- The calls in front of the loop over the tasks. -/
def hostTasks (k : Kernel) : Except Outcome (OutOfLine Task) :=
  if k.processor_set_default ≠ KERN_SUCCESS then .error (.failed "processor_default")
  else if k.host_processor_set_priv ≠ KERN_SUCCESS then .error (.failed "host_processor_set_priv")
  else
    match k.processor_set_tasks with
    | .error _ => .error (.failed "processor_set_tasks")
    | .ok task_list => .ok task_list

/-- Everything up to the loop over the tasks. -/
def start (k : Kernel) (opts : List Opt) : Except Outcome (Options × OutOfLine Task) := do
  let o ← parse k opts ⟨0, false, false⟩
  if o.summary && o.verbose then .error .usage
  else
    let task_list ← hostTasks k
    return (o, task_list)

/-- The state in front of the loop over the tasks. -/
def begin (o : Options) (task_list : OutOfLine Task) : State :=
  let s : State := ⟨⟨⟨0, 0, 0, 0⟩, task_list.regions, []⟩, []⟩
  if !o.verbose then s.print o .summaryHeader else s

/-- What is left to do behind the loop. -/
def finish (o : Options) (task_list : OutOfLine Task) (s : State) : State :=
  let s := s.print o .newline
  { s with deallocated := s.deallocated ++ task_list.regions }

def main (k : Kernel) (opts : List Opt) : Outcome :=
  match start k opts with
  | .error outcome => outcome
  | .ok (o, task_list) =>
    match tasks o k.mytask 0 task_list.elements (begin o task_list) with
    | none => .undefined
    | some s => .finished (finish o task_list s)

/-- The totals that are printed in the end. -/
def Outcome.totals : Outcome → Option Stats
  | .finished s => some s.toStats
  | _ => none

end Lstasks
end MacOSXInternal
