import Mathlib.Algebra.Order.Ring.Int
import MacOSXInternal.Lib.Rendezvous

/-!
# Repairing the thread that has caused an exception

`exception.c` has its main thread call a bad function.  The kernel sends a message to another thread
of the same program, which sets the victim's program counter to `graceful_dead` and replies; then
the victim goes on there, and from there to where it has called from.

* `Setup.programs` are the two threads, `Step` what they, the kernel and a failing call can do.
* `caught` says that the handler gets what it is made for.
* `repaired` says in which state the victim goes on.
* `exception_handled` joins what holds of all runs.
-/

set_option autoImplicit false

namespace MacOSXInternal
namespace MachException

open Runs Rendezvous

/-! ## The program -/

inductive Arch
  | powerpc
  | x86_64
  | aarch64
  deriving DecidableEq

def EXC_BAD_ACCESS : ℕ := 1

def EXC_BAD_INSTRUCTION : ℕ := 2

def EXC_MASK_BAD_ACCESS : ℕ := 1 <<< EXC_BAD_ACCESS

def EXC_MASK_BAD_INSTRUCTION : ℕ := 1 <<< EXC_BAD_INSTRUCTION

/-- The exceptions that `main` asks for with `thread_set_exception_ports`. -/
def Arch.mask : Arch → ℕ
  | .powerpc => EXC_MASK_BAD_INSTRUCTION
  | .x86_64 | .aarch64 => EXC_MASK_BAD_ACCESS

/-- The exception in the test of the handler. -/
def Arch.expected : Arch → ℕ
  | .powerpc => EXC_BAD_INSTRUCTION
  | .x86_64 | .aarch64 => EXC_BAD_ACCESS

/-- What is asked for is what the handler tests for. -/
theorem Arch.testBit_mask {arch : Arch} {exception : ℕ} :
    arch.mask.testBit exception ↔ exception = arch.expected := by
  rw [@eq_comm ℕ exception]
  cases arch <;>
    simp only [mask, expected, EXC_MASK_BAD_ACCESS, EXC_MASK_BAD_INSTRUCTION, Nat.one_shiftLeft,
      Nat.testBit_two_pow, decide_eq_true_eq]

/-- The calls of the kernel that the two threads do not wait for each other in. -/
inductive Call
  | mach_port_allocate
  | mach_port_insert_right
  | thread_set_exception_ports
  | thread_get_state
  | thread_set_state
  deriving DecidableEq

inductive Act
  /-- `FuncPuts`, `FuncPutsN` or `FuncPutsIDs`, without the numbers. -/
  | print (function msg : String)
  /-- A number on a line begun before. -/
  | number (port : String)
  | call (c : Call)
  /-- The assignment to the program counter in `state`. -/
  | assign
  | exit (status : ℤ)
  deriving DecidableEq

/-- `FuncPuts("caught an unexpected exception!")` -/
def unexpected : String := "caught an unexpected exception!"

def repair_instruction : Arch → List Act
  | .powerpc =>
    [.print "repair_instruction" "fixing instruction", .call .thread_get_state, .assign,
      .call .thread_set_state,
      .print "repair_instruction" "fixed instruction and return KERN_SUCCESS"]
  | .x86_64 =>
    [.print "repair_instruction" "fixing instruction", .call .thread_get_state,
      .print "repair_instruction" "rip", .assign,
      .print "repair_instruction" "set rip to graceful_dead function", .call .thread_set_state,
      .print "repair_instruction" "fixed instruction and return KERN_SUCCESS"]
  | .aarch64 =>
    [.print "repair_instruction" "fixing instruction", .call .thread_get_state,
      .print "repair_instruction" "CPSR, PC", .assign,
      .print "repair_instruction" "set PC to graceful_dead function", .call .thread_set_state,
      .print "repair_instruction" "fixed instruction and return KERN_SUCCESS"]

/-- `catch_exception_raise`, or `catch_mach_exception_raise`. -/
def catch_exception_raise (arch : Arch) (exception : ℕ) : List Act :=
  let function := match arch with
    | .powerpc => "catch_exception_raise"
    | .x86_64 | .aarch64 => "catch_mach_exception_raise"
  .print function "beginning" ::
    if exception ≠ arch.expected then [.print function unexpected, .exit (-1)]
    else repair_instruction arch

/-- The exception that the call of the bad function raises, the address of `graceful_dead`, the
registers of the victim when it has raised it, and what is in `state` before. -/
structure Setup (ρ : Type) where
  arch : Arch
  exception : ℕ
  graceful_dead : ℕ
  fault : ℕ × ρ
  garbage : ℕ × ρ

variable {ρ : Type}

/-- `main` makes the thread and is the victim, `exception_handler` receives, and replies. -/
def Setup.programs (S : Setup ρ) : Programs Act where
  before :=
    [.print "main" "starting up", .call .mach_port_allocate, .call .mach_port_insert_right,
      .call .thread_set_exception_ports]
  beside :=
    [.print "main" "about to dispatch exception_handler pthread",
      .print "main" "about to call function_with_bad_instruction"]
  after :=
    [.print "graceful_dead" "dying graceful death",
      .print "main" "after function_with_bad_instruction"]
  first := [.print "exception_handler" "beginning"]
  service :=
    [.print "exception_handler" "received message",
      .print "exception_handler" "victim thread is ", .number "thread",
      .print "exception_handler" "victim thread's task is ", .number "task",
      .print "exception_handler"
        (match S.arch with
          | .powerpc => "calling exc_server"
          | .x86_64 | .aarch64 => "calling mach_exc_server")] ++
    catch_exception_raise S.arch S.exception ++ [.print "exception_handler" "sending reply"]
  last := [.print "exception_handler" "sent reply and exiting the thread"]

/-- The program counter and the other registers: of the victim, and in the variable `state`. -/
structure Registers (ρ : Type) where
  victim : ℕ × ρ
  state : ℕ × ρ

def act (graceful_dead : ℕ) : Act → Registers ρ → Registers ρ
  | .call .thread_get_state, r => { r with state := r.victim }
  | .assign, r => { r with state := (graceful_dead, r.state.2) }
  | .call .thread_set_state, r => { r with victim := r.state }
  | _, r => r

/-- How the process ends. -/
inductive End
  | exit (status : ℤ)
  /-- `exit(kr)`, where `kr` is the error of a failing call. -/
  | failed
  /-- By an exception that nobody handles. -/
  | killed
  deriving DecidableEq

/-- `EXIT_ON_MACH_ERROR`, or `OUT_ON_MACH_ERROR`, which goes on to `return 0`. -/
def Call.failed : Call → End
  | .mach_port_allocate | .thread_get_state | .thread_set_state => .failed
  | .mach_port_insert_right | .thread_set_exception_ports => .exit 0

structure State (ρ : Type) where
  threads : Rendezvous.State Act (Registers ρ)
  ended : Option End

def start (S : Setup ρ) : State ρ := ⟨Rendezvous.start S.programs ⟨S.fault, S.garbage⟩, none⟩

inductive Label
  | thread (who : Side)
  | fails
  deriving DecidableEq

/-- A step of a thread, the end of the process, or a call that fails.  The bad function is the call
from one thread to the other: the kernel sends the message if the exception is in the mask. -/
inductive Step (S : Setup ρ) : State ρ → Label → State ρ → Prop
  | thread {s : State ρ} {who : Side} {threads : Rendezvous.State Act (Registers ρ)}
      (h : s.ended = none)
      (hstep : Rendezvous.Step S.programs (act S.graceful_dead) s.threads who threads)
      (hmask : threads.phase = .calling → S.arch.mask.testBit S.exception)
      (hexit : ∀ status l, s.threads.server ≠ .exit status :: l) :
      Step S s (.thread who) { s with threads := threads }
  | exit {s : State ρ} {status : ℤ} {l : List Act} (h : s.ended = none)
      (hexit : s.threads.server = .exit status :: l) :
      Step S s (.thread .server) { s with ended := some (.exit status) }
  | uncaught {s : State ρ} (h : s.ended = none) (hphase : s.threads.phase = .together)
      (hdone : s.threads.caller = []) (hmask : ¬S.arch.mask.testBit S.exception) :
      Step S s (.thread .caller) { s with ended := some .killed }
  | returns {s : State ρ} (h : s.ended = none) (hphase : s.threads.phase = .answered)
      (hdone : s.threads.caller = []) :
      Step S s (.thread .caller) { s with ended := some (.exit 0) }
  | callFails {s : State ρ} {c : Call} {l : List Act} (h : s.ended = none)
      (hcall : s.threads.caller = .call c :: l ∨ s.threads.server = .call c :: l) :
      Step S s .fails { s with ended := some c.failed }
  | createFails {s : State ρ} (h : s.ended = none) (hphase : s.threads.phase = .alone)
      (hdone : s.threads.caller = []) : Step S s .fails { s with ended := some (.exit 0) }
  | receiveFails {s : State ρ} (h : s.ended = none)
      (hphase : s.threads.phase = .together ∨ s.threads.phase = .calling)
      (hdone : s.threads.server = []) : Step S s .fails { s with ended := some .failed }
  | replyFails {s : State ρ} (h : s.ended = none) (hphase : s.threads.phase = .serving)
      (hdone : s.threads.server = []) : Step S s .fails { s with ended := some .failed }

/-! ## The threads in the process -/

section
variable {S : Setup ρ} {s t : State ρ} {l : List Label} {a : Label}

/-- The threads run as they do by themselves; the process may end once. -/
theorem threads_run (h : Run (Step S) (start S) l s) :
    ∃ l', l.length = l'.length + (if s.ended = none then 0 else 1) ∧
      Run (Rendezvous.Step S.programs (act S.graceful_dead))
        (Rendezvous.start S.programs ⟨S.fault, S.garbage⟩) l' s.threads := by
  refine h.history (I := fun l s ↦ ∃ l', l.length = l'.length + (if s.ended = none then 0 else 1) ∧
    Run (Rendezvous.Step S.programs (act S.graceful_dead))
      (Rendezvous.start S.programs ⟨S.fault, S.garbage⟩) l' s.threads) ⟨[], rfl, .nil _⟩ ?_
  rintro l u a v - ⟨l', hlen, hrun⟩ hstep
  have hends (h : u.ended = none) : (l ++ [a]).length = l'.length + 1 := by
    rw [List.length_append, hlen, if_pos h]
    rfl
  cases hstep with
  | @thread who _ h hstep =>
    refine ⟨l' ++ [who], ?_, hrun.append (.single hstep)⟩
    rw [hends h, List.length_append, if_pos h]
    rfl
  | exit h | uncaught h | returns h | callFails h | createFails h | receiveFails h | replyFails h =>
    exact ⟨l', hends h, hrun⟩

theorem sofar (h : Run (Step S) (start S) l s) : Sofar S.programs s.threads := by
  obtain ⟨l', -, hrun⟩ := threads_run h
  exact Sofar.run hrun

/-- **The handler gets the exception that it is made for**, and no other one. -/
theorem caught (h : Run (Step S) (start S) l s)
    (hphase : s.threads.phase ≠ .alone ∧ s.threads.phase ≠ .together) :
    S.exception = S.arch.expected := by
  refine h.invariant (I := fun s ↦ s.threads.phase ≠ .alone ∧ s.threads.phase ≠ .together →
    S.exception = S.arch.expected) ?_ (fun h ↦ absurd rfl h.1) hphase
  intro s a t hs hstep ht
  cases hstep with
  | thread h hstep hmask hexit =>
    cases hstep with
    | caller | server => exact hs ht
    | fork => exact absurd rfl ht.2
    | call => exact Arch.testBit_mask.mp (hmask rfl)
    | receive hphase => exact hs (by rw [hphase]; decide)
    | reply hphase => exact hs (by rw [hphase]; decide)
  | exit | uncaught | returns | callFails | createFails | receiveFails | replyFails => exact hs ht

/-! ## What the handler does -/

/-- What the handler does with the expected exception, in which it neither says that it is another
one nor ends the process. -/
theorem harmless {g : Act} (h : S.exception = S.arch.expected) (hg : g ∈ S.programs.service) :
    (∀ function, g ≠ .print function unexpected) ∧ ∀ status, g ≠ .exit status := by
  obtain ⟨arch, exception, graceful_dead, fault, garbage⟩ := S
  obtain rfl : exception = arch.expected := h
  have hall : ∀ g ∈ (Setup.programs ⟨arch, arch.expected, graceful_dead, fault, garbage⟩).service,
      (∀ function, g ≠ .print function unexpected) ∧ ∀ status, g ≠ .exit status := by
    cases arch <;>
      simp [Setup.programs, catch_exception_raise, repair_instruction, unexpected]
  exact hall g hg

/-- The process never ends in the handler. -/
theorem server_ne_exit (h : Run (Step S) (start S) l s) (status : ℤ) (rest : List Act) :
    s.threads.server ≠ .exit status :: rest := by
  intro hserver
  rcases (sofar h).mem_server (.inl (by rw [hserver]; exact List.mem_cons_self)) with
    hfirst | ⟨hphase, hservice | hlast⟩
  · simp [Setup.programs] at hfirst
  · exact (harmless (caught h hphase) hservice).2 status rfl
  · simp [Setup.programs] at hlast

/-- It never says that it has caught an unexpected exception. -/
theorem not_unexpected (h : Run (Step S) (start S) l s) (who : Side) (function : String) :
    (who, .print function unexpected) ∉ s.threads.log := by
  intro hmem
  cases who with
  | caller =>
    have := (sofar h).mem_caller hmem
    simp [Setup.programs, unexpected] at this
  | server =>
    rcases (sofar h).mem_server (.inr hmem) with hfirst | ⟨hphase, hservice | hlast⟩
    · simp [Setup.programs, unexpected] at hfirst
    · exact (harmless (caught h hphase) hservice).1 function rfl
    · simp [Setup.programs, unexpected] at hlast

/-- What leaves the registers alone. -/
def Neutral (g : Act) : Prop :=
  g ≠ .call .thread_get_state ∧ g ≠ .assign ∧ g ≠ .call .thread_set_state

theorem act_of_neutral {g : Act} (h : Neutral g) (x : ℕ) (r : Registers ρ) : act x g r = r := by
  obtain ⟨hget, hassign, hset⟩ := h
  cases g with
  | print | number | exit => rfl
  | assign => exact absurd rfl hassign
  | call c =>
    cases c with
    | thread_get_state => exact absurd rfl hget
    | thread_set_state => exact absurd rfl hset
    | mach_port_allocate | mach_port_insert_right | thread_set_exception_ports => rfl

theorem foldl_of_neutral {x : ℕ} {log : List (Side × Act)} (h : ∀ g ∈ log, Neutral g.2)
    (r : Registers ρ) : log.foldl (fun r g ↦ act x g.2 r) r = r := by
  induction log generalizing r with
  | nil => rfl
  | cons g log ih =>
    rw [List.foldl_cons, act_of_neutral (h g List.mem_cons_self)]
    exact ih (fun g' hg' ↦ h g' (List.mem_cons_of_mem _ hg')) r

/-- Neither thread touches the registers outside the handler. -/
theorem neutral {g : Act} (h : g ∈ S.programs.before ∨ g ∈ S.programs.beside ∨
    g ∈ S.programs.after ∨ g ∈ S.programs.first ∨ g ∈ S.programs.last) : Neutral g := by
  have hall : ∀ g ∈ S.programs.before ++ S.programs.beside ++ S.programs.after ++
      S.programs.first ++ S.programs.last, Neutral g := by
    simp [Setup.programs, Neutral]
  exact hall g (by simpa only [List.mem_append, or_assoc] using h)

/-- The handler sets the victim's program counter, and nothing else. -/
theorem foldl_service (h : S.exception = S.arch.expected) (r : Registers ρ) :
    ((tag .server S.programs.service).foldl (fun r g ↦ act S.graceful_dead g.2 r) r).victim =
      (S.graceful_dead, r.victim.2) := by
  obtain ⟨arch, exception, graceful_dead, fault, garbage⟩ := S
  obtain rfl : exception = arch.expected := h
  cases arch <;> rfl

/-- **The victim goes on in `graceful_dead`**, with all other registers as they were. -/
theorem repaired (h : Run (Step S) (start S) l s) (hphase : s.threads.phase = .answered) :
    s.threads.shared.victim = (S.graceful_dead, S.fault.2) := by
  obtain ⟨l', -, hrun⟩ := threads_run h
  have hcaught := caught h (by rw [hphase]; decide)
  have hsofar := sofar h
  rw [Sofar, hphase] at hsofar
  obtain ⟨a, c, hlog, hbeside, hfirst, hafter, hlast⟩ := hsofar
  have hbefore : ∀ g ∈ tag .caller S.programs.before, Neutral g.2 := by
    intro g hg
    obtain ⟨g', hg', rfl⟩ := List.mem_map.mp hg
    exact neutral (.inl hg')
  have ha : ∀ g ∈ a, Neutral g.2 := by
    rintro ⟨who, g⟩ hg
    rw [← mem_done] at hg
    cases who with
    | caller => exact neutral (.inr <| .inl (hbeside ▸ hg))
    | server => exact neutral (.inr <| .inr <| .inr <| .inl (hfirst ▸ hg))
  have hc : ∀ g ∈ c, Neutral g.2 := by
    rintro ⟨who, g⟩ hg
    rw [← mem_done] at hg
    cases who with
    | caller => exact neutral (.inr <| .inr <| .inl (hafter ▸ List.mem_append_left _ hg))
    | server => exact neutral (.inr <| .inr <| .inr <| .inr (hlast ▸ List.mem_append_left _ hg))
  rw [shared_eq hrun, hlog, List.foldl_append, List.foldl_append, List.foldl_append,
    foldl_of_neutral hc, foldl_service hcaught, foldl_of_neutral ha, foldl_of_neutral hbefore]

/-! ## How the process ends -/

/-- If no call fails, the process ends with the main thread. -/
theorem ended (h : Run (Step S) (start S) l s) (hfails : .fails ∉ l) :
    s.ended = none ∨
      s.ended = some .killed ∧ s.threads.phase = .together ∧ S.exception ≠ S.arch.expected ∨
      s.ended = some (.exit 0) ∧ s.threads.phase = .answered ∧ s.threads.caller = [] := by
  refine h.history (I := fun l s ↦ .fails ∉ l → s.ended = none ∨
      s.ended = some .killed ∧ s.threads.phase = .together ∧ S.exception ≠ S.arch.expected ∨
      s.ended = some (.exit 0) ∧ s.threads.phase = .answered ∧ s.threads.caller = [])
    (fun _ ↦ .inl rfl) ?_ hfails
  intro l u a v hrun hu hstep hfails
  cases hstep with
  | thread h => exact .inl h
  | exit h hexit => exact absurd hexit (server_ne_exit hrun _ _)
  | uncaught h hphase hdone hmask =>
    exact .inr (.inl ⟨rfl, hphase, fun h ↦ hmask (Arch.testBit_mask.mpr h)⟩)
  | returns h hphase hdone => exact .inr (.inr ⟨rfl, hphase, hdone⟩)
  | callFails | createFails | receiveFails | replyFails =>
    exact absurd (List.mem_append_right l List.mem_cons_self) hfails

/-- A process that has not ended goes on. -/
theorem exists_thread (h : Run (Step S) (start S) l s) (hended : s.ended = none) :
    ∃ who t, Step S s (.thread who) t := by
  by_cases hleft : left S.programs s.threads = 0
  · have hphase : s.threads.phase = .answered := by
      cases hphase : s.threads.phase <;> simp [left, todo, hphase] at hleft ⊢
    have hdone : s.threads.caller = [] := by
      rw [left] at hleft
      exact List.length_eq_zero_iff.mp (by omega)
    exact ⟨.caller, _, .returns hended hphase hdone⟩
  · obtain ⟨who, threads, hstep⟩ := exists_step (act S.graceful_dead) hleft
    by_cases hmask : threads.phase = .calling → S.arch.mask.testBit S.exception
    · exact ⟨who, _, .thread hended hstep hmask (server_ne_exit h)⟩
    · rw [Classical.not_imp] at hmask
      obtain ⟨hcalling, hne⟩ := hmask
      have hnot : ¬(s.threads.phase ≠ .alone ∧ s.threads.phase ≠ .together) :=
        fun hphase ↦ hne (Arch.testBit_mask.mpr (caught h hphase))
      cases hstep with
      | caller | server => exact absurd (by rw [hcalling]; decide) hnot
      | fork | receive | reply => cases hcalling
      | call hphase hdone => exact ⟨.caller, _, .uncaught hended hphase hdone hne⟩

/-- With the expected exception, whatever the threads can do by themselves they do. -/
theorem run_threads (h : S.exception = S.arch.expected) {l : List Side}
    {threads : Rendezvous.State Act (Registers ρ)}
    (hrun : Run (Rendezvous.Step S.programs (act S.graceful_dead))
      (Rendezvous.start S.programs ⟨S.fault, S.garbage⟩) l threads) :
    Run (Step S) (start S) (l.map .thread) ⟨threads, none⟩ := by
  refine hrun.history (I := fun l threads ↦
    Run (Step S) (start S) (l.map .thread) ⟨threads, none⟩) (.nil _) ?_
  intro l u who v _ hu hstep
  rw [List.map_append]
  exact hu.append (.single (.thread rfl hstep (fun _ ↦ Arch.testBit_mask.mpr h)
    (server_ne_exit hu)))

end

/-- **The exception is handled**, whatever fails, and however the threads take turns.  Every run
comes to an end, and until then somebody can go on; the handler never has to say that the exception
is not the expected one; and when it has replied, the victim has all its registers but the program
counter.  If no call fails, the process exits with 0, or is killed if the exception is another one.
What has been done when it exits is all that the main thread has to do, and what the handler has to
do but perhaps its last line, mixed in any way before the bad function is called and after the
reply, and not at all in between. -/
theorem exception_handled (S : Setup ρ) :
    (∀ l s, Run (Step S) (start S) l s →
      l.length ≤ left S.programs (start S).threads + 1 ∧
      (s.ended = none → ∃ who t, Step S s (.thread who) t) ∧
      (∀ who function, (who, .print function unexpected) ∉ s.threads.log) ∧
      (s.threads.phase = .answered → S.exception = S.arch.expected ∧
        s.threads.shared.victim = (S.graceful_dead, S.fault.2))) ∧
    (∀ l s e, Run (Step S) (start S) l s → .fails ∉ l → s.ended = some e →
      e = if S.exception = S.arch.expected then .exit 0 else .killed) ∧
    (S.exception = S.arch.expected → ∀ log,
      (∃ l s, Run (Step S) (start S) l s ∧ .fails ∉ l ∧ s.ended = some (.exit 0) ∧
        s.threads.log = log) ↔
      ∃ a c cut, log = tag .caller S.programs.before ++ a ++ tag .server S.programs.service ++ c ∧
        done .caller a = S.programs.beside ∧ done .server a = S.programs.first ∧
        done .caller c = S.programs.after ∧ done .server c ++ cut = S.programs.last) := by
  refine ⟨fun l s hrun ↦ ⟨?_, exists_thread hrun, not_unexpected hrun, fun hphase ↦ ⟨?_, ?_⟩⟩,
    ?_, ?_⟩
  · obtain ⟨l', hlen, hthreads⟩ := threads_run hrun
    have hleft := length_add_left hthreads
    rw [hlen, start, ← hleft]
    split_ifs <;> omega
  · exact caught hrun (by rw [hphase]; decide)
  · exact repaired hrun hphase
  · intro l s e hrun hfails he
    rcases ended hrun hfails with hnone | ⟨hkilled, -, hne⟩ | ⟨hexit, hphase, -⟩
    · exact absurd (hnone.symm.trans he) nofun
    · rw [if_neg hne]
      exact Option.some.inj (he.symm.trans hkilled)
    · rw [if_pos (caught hrun (by rw [hphase]; decide))]
      exact Option.some.inj (he.symm.trans hexit)
  · intro hS log
    constructor
    · rintro ⟨l, s, hrun, hfails, hexit, rfl⟩
      rcases ended hrun hfails with hnone | ⟨-, -, hne⟩ | ⟨-, hphase, hdone⟩
      · exact absurd (hnone.symm.trans hexit) nofun
      · exact absurd hS hne
      · obtain ⟨l', -, hthreads⟩ := threads_run hrun
        obtain ⟨a, c, hlog, hbeside, hfirst, hafter, hlast⟩ :=
          (exists_run_iff _ _).mp ⟨l', s.threads, hthreads, hphase, hdone, rfl, rfl⟩
        rw [List.append_nil] at hafter
        exact ⟨a, c, _, hlog, hbeside, hfirst, hafter, hlast⟩
    · rintro ⟨a, c, cut, hlog, hbeside, hfirst, hafter, hlast⟩
      obtain ⟨l, threads, hthreads, hphase, hdone, -, hlog'⟩ :=
        (exists_run_iff (act S.graceful_dead) (⟨S.fault, S.garbage⟩ : Registers ρ)).mpr
          ⟨a, c, hlog, hbeside, hfirst, (List.append_nil _).trans hafter, hlast⟩
      refine ⟨_, _, (run_threads hS hthreads).append (.single (.returns rfl hphase hdone)), ?_, rfl,
        hlog'⟩
      simp

end MachException
end MacOSXInternal
