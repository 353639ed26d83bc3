import Mathlib.Algebra.Order.Ring.Int
import Mathlib.Data.List.Count
import Mathlib.Logic.Function.Basic
import MacOSXInternal.Lib.Runs

/-!
# Notifications

`notify_producer` posts one of four notifications.  `notify_consumer` asks to be told of three of
them by three different means, each in a thread of its own, and leaves when it is told of the
fourth.  The notification server and the kernel are what the manual says they are: what is posted
goes to whoever has registered for it, and signals that are not yet delivered are not told apart.

* `notify_producer` is the producer.
* `Move` is one step of the consumer, of one of its signal handlers, or of what is around it.
* `Fresh` says which of the names a thread has yet to register, and with which token it has
  registered the others.
-/

set_option autoImplicit false

namespace MacOSXInternal
namespace Notify

open Runs

/-! ## The producer -/

/-- The four names, without what they have in common. -/
inductive Name
  | descriptor
  | mach_port
  | signal
  | cancel
  deriving DecidableEq

def optionName : Char → Option Name
  | 'c' => some .cancel
  | 'f' => some .descriptor
  | 'p' => some .mach_port
  | 's' => some .signal
  | _ => none

/-- The options in the only argument: a `-` ends them. -/
def getopt : List Char → List Char
  | '-' :: options => options.takeWhile (· ≠ '-')
  | _ => []

/-- What is posted, if anything is. -/
def notify_producer : List (List Char) → Option Name
  | [_, arg] =>
    match (getopt arg).mapM optionName with
    | some [name] => some name
    | _ => none
  | _ => none

theorem mapM_eq_singleton {α β : Type} {f : α → Option β} {l : List α} {b : β} :
    l.mapM f = some [b] ↔ ∃ a, l = [a] ∧ f a = some b := by
  cases l with
  | nil => simp
  | cons a l =>
    cases l with
    | nil => cases h : f a <;> simp [h]
    | cons c rest =>
      cases h : f a <;> cases h' : f c <;> cases h'' : rest.mapM f <;> simp [h, h', h'']

theorem takeWhile_eq_singleton {α : Type} {p : α → Bool} {l : List α} {a : α} :
    l.takeWhile p = [a] ↔ p a ∧ ∃ rest, l = a :: rest ∧ ∀ b ∈ rest.head?, ¬p b := by
  cases l with
  | nil => simp
  | cons b l =>
    cases l with
    | nil => by_cases hb : p b <;> simp [hb] <;> grind
    | cons c l => by_cases hb : p b <;> by_cases hc : p c <;> simp [hb, hc] <;> grind

/-- What it takes to ask for each. -/
theorem notify_producer_eq_some {argv : List (List Char)} {name : Name} :
    notify_producer argv = some name ↔
      ∃ progname option rest, argv = [progname, '-' :: option :: rest] ∧
        optionName option = some name ∧ ∀ c ∈ rest.head?, c = '-' := by
  constructor
  · intro h
    unfold notify_producer at h
    split at h
    · rename_i progname arg
      split at h
      · rename_i name' hname
        obtain ⟨option, hoption, heq⟩ := mapM_eq_singleton.mp hname
        obtain rfl := Option.some.inj h
        unfold getopt at hoption
        split at hoption
        · obtain ⟨-, rest, rfl, hrest⟩ := takeWhile_eq_singleton.mp hoption
          exact ⟨progname, option, rest, rfl, heq, by simpa using hrest⟩
        · exact absurd hoption nofun
      · exact absurd h nofun
    · exact absurd h nofun
  · rintro ⟨progname, option, rest, rfl, h, hrest⟩
    have hoption : option ≠ '-' := by
      rintro rfl
      cases h
    have hoptions : getopt ('-' :: option :: rest) = [option] :=
      takeWhile_eq_singleton.mpr ⟨by simpa using hoption, rest, rfl, by simpa using hrest⟩
    simp [notify_producer, hoptions, h]

/-! ## The consumer -/

inductive Thread
  | main
  | descriptor
  | machPort
  deriving DecidableEq

/-- The thread that registers a name. -/
def Name.owner : Name → Thread
  | .descriptor => .descriptor
  | .mach_port | .cancel => .machPort
  | .signal => .main

/-- Where a thread is. -/
inductive At
  | unborn
  | createDescriptor
  | createMachPort
  /-- About to set the signal handler. -/
  | setHandler
  | register (name : Name)
  /-- Has registered the name, but not yet stored the token. -/
  | registered (name : Name) (token : ℤ)
  /-- About to make the dummy call of `notify_check`. -/
  | check
  | waiting
  /-- In `cancel_all_notifications`, with these to go. -/
  | cancelling (names : List Name)
  | exiting
  | returned

/-- A line that is printed. -/
inductive Line
  | received (name : Name)
  | spurious (name : Name)
  deriving DecidableEq

def Line.text : Line → String
  | .received .descriptor => "file descriptor: received notification"
  | .received .mach_port => "Mach port: received notification"
  | .received .signal => "signal: received notification"
  | .received .cancel => "canceling all notifications and exiting"
  | .spurious .descriptor => "file descriptor: spurious notification?"
  | .spurious .mach_port | .spurious .cancel => "Mach port: spurious notification?"
  | .spurious .signal => "signal: spurious signal?"

/-- What a line is about. -/
def Line.name : Line → Name
  | .received name | .spurious name => name

/-- The lines about a name. -/
def about (name : Name) (lines : List Line) : List Line := lines.filter (·.name = name)

structure State where
  thread : Thread → At
  /-- `token_fd`, `token_mach_port`, `token_signal` and `token_mach_port_cancel`. -/
  token : Name → ℤ
  /-- The tokens that the server has given out. -/
  issued : Name → Option ℤ
  cancelled : Name → Bool
  /-- What there is to read from the descriptor. -/
  pipe : List ℤ
  /-- What was last read from it. -/
  check : ℤ
  /-- What there is to receive from the port. -/
  queue : List ℤ
  /-- In the message buffer. -/
  msgh_id : ℤ
  /-- The signal handler is set. -/
  handler : Bool
  /-- Signals on their way. -/
  flight : ℕ
  /-- A signal is pending. -/
  pending : Bool
  /-- What `notify_check` says next. -/
  changed : Bool
  /-- Calls of the signal handler that have not called `notify_check`. -/
  checking : ℕ
  /-- Lines that calls of the signal handler are about to print. -/
  printing : List Line
  out : List Line
  ended : Bool

/-- Neither `check` nor the message buffer is initialised. -/
def start (check msgh_id : ℤ) : State where
  thread θ := if θ = .main then .createDescriptor else .unborn
  token _ := -1
  issued _ := none
  cancelled _ := false
  pipe := []
  check := check
  queue := []
  msgh_id := msgh_id
  handler := false
  flight := 0
  pending := false
  changed := false
  checking := 0
  printing := []
  out := []
  ended := false

def State.goto (s : State) (θ : Thread) (at' : At) : State :=
  { s with thread := Function.update s.thread θ at' }

def State.print (s : State) (line : Line) : State := { s with out := s.out ++ [line] }

/-- The server knows the token. -/
def State.Live (s : State) (name : Name) : Prop :=
  s.issued name = some (s.token name) ∧ s.cancelled name = false

instance (s : State) (name : Name) : Decidable (s.Live name) :=
  inferInstanceAs (Decidable (_ ∧ _))

/-- `wire` is what is read where an integer has been written in network byte order. -/
def State.notify_post (wire : ℤ → ℤ) (s : State) (name : Name) : State :=
  match s.issued name, s.cancelled name with
  | some token, false =>
    match name with
    | .descriptor => { s with pipe := s.pipe ++ [wire token] }
    | .mach_port | .cancel => { s with queue := s.queue ++ [token] }
    | .signal => { s with changed := true, flight := s.flight + 1 }
  | _, _ => s

/-- The first call says yes. -/
def State.notify_register (s : State) (name : Name) (token : ℤ) : State :=
  { s with
    issued := Function.update s.issued name (some token)
    changed := if name = .signal then true else s.changed }

def State.store (s : State) (name : Name) (token : ℤ) : State :=
  { s with token := Function.update s.token name token }

/-- `notify_check(token_signal, ..)`, if it succeeds. -/
def State.answer (s : State) : Option Bool :=
  if s.Live .signal then some s.changed else none

/-- What the call leaves. -/
def State.notify_check (s : State) : State :=
  { s with changed := if s.Live .signal then false else s.changed }

def State.sighandler_USR1 (s : State) : Line :=
  match s.answer with
  | some true => .received .signal
  | _ => .spurious .signal

/-- One line of `cancel_all_notifications`. -/
def State.notify_cancel (s : State) (name : Name) : State :=
  { s with
    cancelled :=
      if s.token name = -1 then s.cancelled else Function.update s.cancelled name true }

def all : List Name := [.descriptor, .mach_port, .signal]

/-- What `consumer_file_descriptor` prints for what it finds in `check`. -/
def descriptorLine (check token_fd : ℤ) : Line :=
  if check = token_fd then .received .descriptor else .spurious .descriptor

/-- `consumer_file_descriptor` after a `read` that has not failed, whether or not there was an
integer. -/
def State.compare (s : State) : State := s.print (descriptorLine s.check (s.token .descriptor))

/-- `consumer_mach_port` after `mach_msg`, whether or not that has succeeded. -/
def State.dispatch (s : State) : State :=
  if s.msgh_id = s.token .mach_port then s.print (.received .mach_port)
  else if s.msgh_id = s.token .cancel then s.goto .machPort (.cancelling all)
  else s.print (.spurious .mach_port)

/-- Where a thread goes when it has stored a token. -/
def next : Name → At
  | .mach_port => .register .cancel
  | .signal => .check
  | .descriptor | .cancel => .waiting

/-- Where it goes when it has got none. -/
def failed : Name → At
  | .signal => .cancelling all
  | .descriptor | .mach_port | .cancel => .returned

/-- What is worth telling apart of what happens. -/
inductive Act
  /-- Somebody runs `notify_producer`. -/
  | produce (argv : List (List Char))
  /-- Somebody else sends `SIGUSR1`. -/
  | kill
  /-- `mach_msg` fails. -/
  | receiveFails
  /-- `read` finds the end of what there is to read. -/
  | readEnds
  /-- `notify_check` fails, though its token is good. -/
  | checkFails
  | other
  deriving DecidableEq

def Act.posts (name : Name) : Act → Bool
  | .produce argv => notify_producer argv = some name
  | _ => false

/-- A step that is taken while the consumer runs. -/
inductive Move (wire : ℤ → ℤ) : State → Act → State → Prop
  -- what is around it
  | post {s : State} {argv : List (List Char)} {name : Name}
      (h : notify_producer argv = some name) :
      Move wire s (.produce argv) (s.notify_post wire name)
  /-- There are too many of them already. -/
  | dropped {s : State} {argv : List (List Char)} {name : Name}
      (h : notify_producer argv = some name) (hname : name ≠ .signal) :
      Move wire s (.produce argv) s
  | usage {s : State} {argv : List (List Char)} (h : notify_producer argv = none) :
      Move wire s (.produce argv) s
  /-- There is something to post, but `notify_post` fails. -/
  | postFails {s : State} : Move wire s .other s
  | kill {s : State} : Move wire s .kill { s with flight := s.flight + 1 }
  | arrive {s : State} {k : ℕ} (h : s.flight = k + 1) (hhandler : s.handler = true) :
      Move wire s .other { s with flight := k, pending := true }
  /-- Without a handler, it ends the process. -/
  | killed {s : State} {k : ℕ} (h : s.flight = k + 1) (hhandler : s.handler = false) :
      Move wire s .other { s with flight := k, ended := true }
  -- the signal handler
  | deliver {s : State} (h : s.pending = true) :
      Move wire s .other { s with pending := false, checking := s.checking + 1 }
  | handle {s : State} {k : ℕ} (h : s.checking = k + 1) :
      Move wire s .other
        { s.notify_check with checking := k, printing := s.printing ++ [s.sighandler_USR1] }
  /-- The server may have said yes all the same, and will then not say so again. -/
  | handleFails {s : State} {k : ℕ} {changed : Bool} (h : s.checking = k + 1)
      (hle : changed → s.changed) :
      Move wire s .checkFails
        { s with changed := changed, checking := k, printing := s.printing ++ [.spurious .signal] }
  | print {s : State} {pre post : List Line} {line : Line} (h : s.printing = pre ++ line :: post) :
      Move wire s .other { s.print line with printing := pre ++ post }
  -- the threads
  | createDescriptor {s : State} (h : s.thread .main = .createDescriptor)
      (hunborn : s.thread .descriptor = .unborn) :
      Move wire s .other
        ((s.goto .main .createMachPort).goto .descriptor (.register .descriptor))
  | createMachPort {s : State} (h : s.thread .main = .createMachPort)
      (hunborn : s.thread .machPort = .unborn) :
      Move wire s .other ((s.goto .main .setHandler).goto .machPort (.register .mach_port))
  | createFails {s : State}
      (h : s.thread .main = .createDescriptor ∨ s.thread .main = .createMachPort) :
      Move wire s .other (s.goto .main (.cancelling all))
  | setHandler {s : State} (h : s.thread .main = .setHandler) :
      Move wire s .other { s.goto .main (.register .signal) with handler := true }
  | register {s : State} {θ : Thread} {name : Name} {token : ℤ} (h : s.thread θ = .register name)
      (hvalid : token ≠ -1) (hnew : ∀ other, s.issued other ≠ some token) :
      Move wire s .other ((s.goto θ (.registered name token)).notify_register name token)
  | registerFails {s : State} {θ : Thread} {name : Name} (h : s.thread θ = .register name) :
      Move wire s .other (s.goto θ (failed name))
  | store {s : State} {θ : Thread} {name : Name} {token : ℤ}
      (h : s.thread θ = .registered name token) :
      Move wire s .other ((s.store name token).goto θ (next name))
  | check {s : State} (h : s.thread .main = .check) :
      Move wire s .other (s.notify_check.goto .main .waiting)
  | checkFails {s : State} {changed : Bool} (h : s.thread .main = .check)
      (hle : changed → s.changed) :
      Move wire s .checkFails ({ s with changed := changed }.goto .main .waiting)
  | read {s : State} {check : ℤ} {rest : List ℤ} (h : s.thread .descriptor = .waiting)
      (hpipe : s.pipe = check :: rest) :
      Move wire s .other { s with check := check, pipe := rest }.compare
  | readEnds {s : State} (h : s.thread .descriptor = .waiting) (hpipe : s.pipe = []) :
      Move wire s .readEnds s.compare
  | readFails {s : State} (h : s.thread .descriptor = .waiting) :
      Move wire s .other (s.goto .descriptor .returned)
  | receive {s : State} {id : ℤ} {rest : List ℤ} (h : s.thread .machPort = .waiting)
      (hqueue : s.queue = id :: rest) :
      Move wire s .other { s with queue := rest, msgh_id := id }.dispatch
  | receiveFails {s : State} (h : s.thread .machPort = .waiting) :
      Move wire s .receiveFails s.dispatch
  | cancel {s : State} {θ : Thread} {name : Name} {names : List Name}
      (h : s.thread θ = .cancelling (name :: names)) :
      Move wire s .other ((s.notify_cancel name).goto θ (.cancelling names))
  | canceling {s : State} (h : s.thread .machPort = .cancelling []) :
      Move wire s .other ((s.print (.received .cancel)).goto .machPort .exiting)
  | exit {s : State} (h : s.thread .machPort = .exiting ∨ s.thread .main = .cancelling []) :
      Move wire s .other { s with ended := true }

/-- A step; there is none when the process has ended. -/
def Step (wire : ℤ → ℤ) : State → Act → State → Prop :=
  guarded (fun s _ ↦ s.ended = false) (Move wire)

/-! ## What has been posted -/

theorem countP_le (p : Act → Bool) (l : List Act) (a : Act) : l.countP p ≤ (l ++ [a]).countP p := by
  rw [List.countP_append]
  exact Nat.le_add_right ..

theorem countP_post {argv : List (List Char)} {name : Name} (l : List Act)
    (h : notify_producer argv = some name) :
    (l ++ [Act.produce argv]).countP (Act.posts name) = l.countP (Act.posts name) + 1 := by
  simp [List.countP_append, Act.posts, h]

/-! ## The tokens -/

/-- A thread that is here may yet register the name. -/
def At.Ahead : At → Name → Prop
  | .unborn, _ | .createDescriptor, _ | .createMachPort, _ | .setHandler, _ => True
  | .register first, name => name = first ∨ first = .mach_port ∧ name = .cancel
  | .registered first _, name => first = .mach_port ∧ name = .cancel
  | _, _ => False

/-- A thread that is here has stored the token. -/
def At.Past : At → Name → Prop
  | .check, _ | .waiting, _ => True
  | .register .cancel, name | .registered .cancel _, name => name = .mach_port
  | _, _ => False

/-- The signal handler is set by now. -/
def At.Armed : At → Prop
  | .register _ | .registered _ _ | .check | .waiting => True
  | _ => False

/-- Names are registered once, each by its own thread. -/
structure Fresh (s : State) : Prop where
  register : ∀ θ name, s.thread θ = .register name → name.owner = θ
  registered : ∀ θ name token, s.thread θ = .registered name token →
    name.owner = θ ∧ s.issued name = some token
  ahead : ∀ name, (s.thread name.owner).Ahead name → s.issued name = none
  past : ∀ name, (s.thread name.owner).Past name → s.issued name = some (s.token name)
  distinct : ∀ a b token, s.issued a = some token → s.issued b = some token → a = b
  handler : (s.thread .main).Armed → s.handler = true

section
variable {wire : ℤ → ℤ} {s t : State} {a : Act} {θ : Thread} {at' : At} {name : Name} {token : ℤ}

@[simp] theorem goto_thread_self : (s.goto θ at').thread θ = at' := Function.update_self ..

theorem goto_thread_of_ne {η : Thread} (h : η ≠ θ) : (s.goto θ at').thread η = s.thread η :=
  Function.update_of_ne h ..

@[simp] theorem store_token_self : (s.store name token).token name = token :=
  Function.update_self ..

theorem store_token_of_ne {other : Name} (h : other ≠ name) :
    (s.store name token).token other = s.token other :=
  Function.update_of_ne h ..

theorem sighandler_USR1_name : s.sighandler_USR1.name = .signal := by
  unfold State.sighandler_USR1
  split <;> rfl

theorem descriptorLine_name {check : ℤ} : (descriptorLine check token).name = .descriptor := by
  unfold descriptorLine
  split <;> rfl

/-- Everything that a post can do. -/
theorem notify_post_cases (wire : ℤ → ℤ) (s : State) (name : Name) :
    (s.notify_post wire name = s ∧ (s.issued name = none ∨ s.cancelled name = true)) ∨
    ∃ token, s.issued name = some token ∧
      (name = .descriptor ∧ s.notify_post wire name = { s with pipe := s.pipe ++ [wire token] } ∨
      (name = .mach_port ∨ name = .cancel) ∧
        s.notify_post wire name = { s with queue := s.queue ++ [token] } ∨
      name = .signal ∧
        s.notify_post wire name = { s with changed := true, flight := s.flight + 1 }) := by
  unfold State.notify_post
  cases hissued : s.issued name with
  | none => exact .inl ⟨rfl, .inl rfl⟩
  | some token =>
    cases hcancelled : s.cancelled name with
    | true => exact .inl ⟨rfl, .inr rfl⟩
    | false =>
      refine .inr ⟨token, rfl, ?_⟩
      cases name with
      | descriptor => exact .inl ⟨rfl, rfl⟩
      | mach_port => exact .inr (.inl ⟨.inl rfl, rfl⟩)
      | cancel => exact .inr (.inl ⟨.inr rfl, rfl⟩)
      | signal => exact .inr (.inr ⟨rfl, rfl⟩)

theorem Fresh.congr (h : Fresh s) (hthread : t.thread = s.thread) (htoken : t.token = s.token)
    (hissued : t.issued = s.issued) (hhandler : t.handler = s.handler) : Fresh t where
  register := by
    rw [hthread]
    exact h.register
  registered := by
    rw [hthread, hissued]
    exact h.registered
  ahead := by
    rw [hthread, hissued]
    exact h.ahead
  past := by
    rw [hthread, hissued, htoken]
    exact h.past
  distinct := by
    rw [hissued]
    exact h.distinct
  handler := by
    rw [hthread, hhandler]
    exact h.handler

/-- A thread goes on. -/
theorem Fresh.goto (h : Fresh s) (hregister : ∀ name, at' = .register name → name.owner = θ)
    (hregistered : ∀ name token, at' ≠ .registered name token)
    (hahead : ∀ name, name.owner = θ → at'.Ahead name → s.issued name = none)
    (hpast : ∀ name, name.owner = θ → at'.Past name → s.issued name = some (s.token name))
    (harmed : θ = .main → at'.Armed → s.handler = true) : Fresh (s.goto θ at') where
  register η name hη := by
    by_cases hθ : η = θ
    · subst hθ
      rw [goto_thread_self] at hη
      exact hregister name hη
    · rw [goto_thread_of_ne hθ] at hη
      exact h.register η name hη
  registered η name token hη := by
    by_cases hθ : η = θ
    · subst hθ
      rw [goto_thread_self] at hη
      exact absurd hη (hregistered name token)
    · rw [goto_thread_of_ne hθ] at hη
      exact h.registered η name token hη
  ahead name hname := by
    by_cases hθ : name.owner = θ
    · rw [hθ, goto_thread_self] at hname
      exact hahead name hθ hname
    · rw [goto_thread_of_ne hθ] at hname
      exact h.ahead name hname
  past name hname := by
    by_cases hθ : name.owner = θ
    · rw [hθ, goto_thread_self] at hname
      exact hpast name hθ hname
    · rw [goto_thread_of_ne hθ] at hname
      exact h.past name hname
  distinct := h.distinct
  handler hmain := by
    by_cases hθ : .main = θ
    · subst hθ
      rw [goto_thread_self] at hmain
      exact harmed rfl hmain
    · rw [goto_thread_of_ne hθ] at hmain
      exact h.handler hmain

/-- A thread that is done with registering. -/
theorem Fresh.leave (h : Fresh s) (hregister : ∀ name, at' ≠ .register name)
    (hregistered : ∀ name token, at' ≠ .registered name token)
    (hahead : ∀ name, ¬at'.Ahead name) (hpast : ∀ name, ¬at'.Past name) (harmed : ¬at'.Armed) :
    Fresh (s.goto θ at') :=
  h.goto (fun name hat ↦ absurd hat (hregister name)) hregistered
    (fun name _ hname ↦ absurd hname (hahead name)) (fun name _ hname ↦ absurd hname (hpast name))
    fun _ hat ↦ absurd hat harmed

theorem Fresh.leave_cancelling (h : Fresh s) (names : List Name) :
    Fresh (s.goto θ (.cancelling names)) :=
  h.leave nofun nofun (fun _ hat ↦ hat) (fun _ hat ↦ hat) fun hat ↦ hat

theorem Fresh.leave_returned (h : Fresh s) : Fresh (s.goto θ .returned) :=
  h.leave nofun nofun (fun _ hat ↦ hat) (fun _ hat ↦ hat) fun hat ↦ hat

/-- The main thread has made the dummy call. -/
theorem Fresh.sleep (h : Fresh s) (hmain : s.thread .main = .check) :
    Fresh (s.goto .main .waiting) :=
  h.goto nofun nofun (fun _ _ hat ↦ hat.elim)
    (fun name howner _ ↦ h.past name (by rw [howner, hmain]; trivial))
    fun _ _ ↦ h.handler (by rw [hmain]; trivial)

theorem Fresh.dispatch (h : Fresh s) : Fresh s.dispatch := by
  unfold State.dispatch
  split_ifs
  · exact h.congr rfl rfl rfl rfl
  · exact h.leave_cancelling all
  · exact h.congr rfl rfl rfl rfl

theorem Fresh.notify_register (h : Fresh s) (hθ : s.thread θ = .register name)
    (hnew : ∀ other, s.issued other ≠ some token) :
    Fresh ((s.goto θ (.registered name token)).notify_register name token) := by
  obtain rfl := h.register θ name hθ
  have hother {other : Name} (hne : other ≠ name) :
      Function.update s.issued name (some token) other = s.issued other :=
    Function.update_of_ne hne ..
  refine ⟨fun η other hη ↦ ?_, fun η other token' hη ↦ ?_, fun other hat ↦ ?_,
    fun other hat ↦ ?_, fun a b token' ha hb ↦ ?_, fun hat ↦ ?_⟩
  · change (s.goto _ _).thread η = _ at hη
    by_cases heq : η = name.owner
    · rw [heq, goto_thread_self] at hη
      cases hη
    · rw [goto_thread_of_ne heq] at hη
      exact h.register η other hη
  · change (s.goto _ _).thread η = _ at hη
    by_cases heq : η = name.owner
    · rw [heq, goto_thread_self] at hη
      cases hη
      exact ⟨heq.symm, Function.update_self ..⟩
    · rw [goto_thread_of_ne heq] at hη
      obtain ⟨howner, hissued⟩ := h.registered η other token' hη
      refine ⟨howner, (hother ?_).trans hissued⟩
      rintro rfl
      exact heq howner.symm
  · change ((s.goto _ _).thread _).Ahead other at hat
    by_cases heq : other.owner = name.owner
    · rw [heq, goto_thread_self] at hat
      obtain ⟨rfl, rfl⟩ := hat
      refine (hother (by decide)).trans (h.ahead .cancel ?_)
      show (s.thread Name.mach_port.owner).Ahead .cancel
      rw [hθ]
      exact .inr ⟨rfl, rfl⟩
    · rw [goto_thread_of_ne heq] at hat
      refine (hother ?_).trans (h.ahead other hat)
      rintro rfl
      exact heq rfl
  · change ((s.goto _ _).thread _).Past other at hat
    by_cases heq : other.owner = name.owner
    · rw [heq, goto_thread_self] at hat
      have hpast : (s.thread other.owner).Past other := by
        rw [heq, hθ]
        cases name with
        | cancel => exact hat
        | descriptor | mach_port | signal => exact hat.elim
      refine (hother ?_).trans (h.past other hpast)
      rintro rfl
      cases other with
      | cancel => exact absurd hat nofun
      | descriptor | mach_port | signal => exact hat.elim
    · rw [goto_thread_of_ne heq] at hat
      refine (hother ?_).trans (h.past other hat)
      rintro rfl
      exact heq rfl
  · change Function.update s.issued name (some token) _ = _ at ha hb
    by_cases haname : a = name <;> by_cases hbname : b = name
    · rw [haname, hbname]
    · rw [haname, Function.update_self] at ha
      rw [hother hbname] at hb
      exact absurd (hb.trans ha.symm) (hnew b)
    · rw [hbname, Function.update_self] at hb
      rw [hother haname] at ha
      exact absurd (ha.trans hb.symm) (hnew a)
    · rw [hother haname] at ha
      rw [hother hbname] at hb
      exact h.distinct a b token' ha hb
  · change ((s.goto _ _).thread _).Armed at hat
    refine h.handler ?_
    by_cases heq : .main = name.owner
    · rw [heq, hθ]
      trivial
    · rwa [goto_thread_of_ne heq] at hat

theorem Fresh.store (h : Fresh s) (hθ : s.thread θ = .registered name token) :
    Fresh ((s.store name token).goto θ (next name)) := by
  obtain ⟨rfl, hissued⟩ := h.registered θ name token hθ
  have hstored : Fresh (s.store name token) := by
    refine ⟨h.register, h.registered, h.ahead, fun other hat ↦ ?_, h.distinct, h.handler⟩
    by_cases heq : other = name
    · subst heq
      exact hissued.trans (congrArg some store_token_self.symm)
    · exact (h.past other hat).trans (congrArg some (store_token_of_ne heq).symm)
  refine hstored.goto (fun other hat ↦ ?_) (fun other token' hat ↦ ?_) (fun other howner hat ↦ ?_)
    (fun other howner hat ↦ ?_) fun hmain _ ↦ h.handler ?_
  · cases name with
    | mach_port =>
      cases hat
      rfl
    | descriptor | signal | cancel => exact absurd hat nofun
  · cases name with
    | descriptor | mach_port | signal | cancel => exact absurd hat nofun
  · cases name with
    | mach_port =>
      obtain rfl | ⟨heq, -⟩ := hat
      · refine h.ahead .cancel ?_
        show (s.thread Name.mach_port.owner).Ahead .cancel
        rw [hθ]
        exact ⟨rfl, rfl⟩
      · exact absurd heq nofun
    | descriptor | signal | cancel => exact hat.elim
  · by_cases heq : other = name
    · subst heq
      exact hissued.trans (congrArg some store_token_self.symm)
    · -- it is the name that the same thread has registered before
      have hpast : name = .cancel ∧ other = .mach_port := by
        cases name with
        | mach_port => exact absurd hat heq
        | cancel =>
          cases other with
          | mach_port => exact ⟨rfl, rfl⟩
          | cancel => exact absurd rfl heq
          | descriptor | signal => exact absurd howner nofun
        | descriptor | signal =>
          cases other with
          | descriptor | mach_port | signal | cancel =>
            first
            | exact absurd rfl heq
            | cases howner
      obtain ⟨rfl, rfl⟩ := hpast
      have hissued' := h.past .mach_port (by
        show (s.thread Name.cancel.owner).Past .mach_port
        rw [hθ]
        rfl)
      exact hissued'.trans (congrArg some (store_token_of_ne heq).symm)
  · rw [← hmain, hθ]
    trivial

theorem Fresh.move (h : Fresh s) (hmove : Move wire s a t) : Fresh t := by
  cases hmove with
  | @post argv name =>
    obtain ⟨heq, -⟩ | ⟨token, -, ⟨-, heq⟩ | ⟨-, heq⟩ | ⟨-, heq⟩⟩ := notify_post_cases wire s name
    all_goals
      rw [heq]
      exact h.congr rfl rfl rfl rfl
  | dropped | usage | postFails => exact h
  | createDescriptor hmain hunborn =>
    have hmain' : Fresh (s.goto .main .createMachPort) :=
      h.goto nofun nofun (fun name howner _ ↦ h.ahead name (by rw [howner, hmain]; trivial))
        (fun _ _ hat ↦ hat.elim) fun _ hat ↦ hat.elim
    refine hmain'.goto (fun name hat ↦ ?_) nofun (fun name howner _ ↦ ?_)
      (fun name howner hat ↦ ?_) nofun
    · cases hat
      rfl
    · exact h.ahead name (by rw [howner, hunborn]; trivial)
    · exact hat.elim
  | createMachPort hmain hunborn =>
    have hmain' : Fresh (s.goto .main .setHandler) :=
      h.goto nofun nofun (fun name howner _ ↦ h.ahead name (by rw [howner, hmain]; trivial))
        (fun _ _ hat ↦ hat.elim) fun _ hat ↦ hat.elim
    refine hmain'.goto (fun name hat ↦ ?_) nofun (fun name howner _ ↦ ?_)
      (fun name howner hat ↦ ?_) nofun
    · cases hat
      rfl
    · exact h.ahead name (by rw [howner, hunborn]; trivial)
    · exact hat.elim
  | createFails => exact h.leave_cancelling all
  | setHandler hmain =>
    have hset : Fresh { s with handler := true } :=
      ⟨h.register, h.registered, h.ahead, h.past, h.distinct, fun _ ↦ rfl⟩
    refine hset.goto (fun name hat ↦ ?_) nofun (fun name howner _ ↦ ?_)
      (fun name howner hat ↦ ?_) fun _ _ ↦ rfl
    · cases hat
      rfl
    · exact h.ahead name (by rw [howner, hmain]; trivial)
    · exact hat.elim
  | register hθ hvalid hnew => exact h.notify_register hθ hnew
  | @registerFails θ name hθ =>
    cases name with
    | signal => exact h.leave_cancelling all
    | descriptor | mach_port | cancel => exact h.leave_returned
  | store hθ => exact h.store hθ
  | check hmain =>
    have hchecked : Fresh s.notify_check := h.congr rfl rfl rfl rfl
    exact hchecked.sleep hmain
  | @checkFails changed hmain =>
    have hchecked : Fresh { s with changed := changed } := h.congr rfl rfl rfl rfl
    exact hchecked.sleep hmain
  | readFails => exact h.leave_returned
  | @receive id rest =>
    have hreceived : Fresh { s with queue := rest, msgh_id := id } := h.congr rfl rfl rfl rfl
    exact hreceived.dispatch
  | receiveFails => exact h.dispatch
  | @cancel θ name names hθ =>
    have hcancelled : Fresh (s.notify_cancel name) := h.congr rfl rfl rfl rfl
    exact hcancelled.leave_cancelling names
  | canceling hθ =>
    have hprinted : Fresh (s.print (.received .cancel)) := h.congr rfl rfl rfl rfl
    exact hprinted.leave nofun nofun (fun _ hat ↦ hat) (fun _ hat ↦ hat) fun hat ↦ hat
  | kill | arrive | killed | deliver | handle | handleFails | print | read | readEnds | exit =>
    exact h.congr rfl rfl rfl rfl

theorem fresh_start (check msgh_id : ℤ) : Fresh (start check msgh_id) where
  register θ name h := by
    cases θ with
    | main | descriptor | machPort => exact absurd h nofun
  registered θ name token h := by
    cases θ with
    | main | descriptor | machPort => exact absurd h nofun
  ahead _ _ := rfl
  past name h := by
    cases name with
    | descriptor | mach_port | signal | cancel => exact h.elim
  distinct a b token h := by exact absurd h nofun
  handler h := h.elim

theorem fresh_run {check msgh_id : ℤ} {l : List Act}
    (hr : Run (Step wire) (start check msgh_id) l s) : Fresh s :=
  hr.invariant (fun _ _ _ h hstep ↦ h.move hstep.2) (fresh_start check msgh_id)

end

end Notify
end MacOSXInternal
