import Mathlib.Data.Finset.Card
import MacOSXInternal.Lib.Runs

/-!
# Draining the listener before the queue goes

`stopLogging` unregisters the listener and then waits, in a loop, until `gListenerInvocations` is
not positive; `stop` releases the data queue afterwards.  The counter is raised by
`my_vnode_authorize_callback` itself, as its first statement, so an invocation that kauth has
already dispatched but that has not got that far is invisible to the loop.

This file runs any number of invocations of the callback against one `stopLogging` and `stop`, one
atomic step at a time.  `Settled` is the condition that the loop is not left while an invocation
is in that window, and `drain_exact` says what the window means: as long as it is avoided no
invocation reaches the queue after its release, and from every state in which the loop is left
inside it there is a schedule in which one does.

The invariant is `Inv`: the counter is the number of invocations between the increment and the
decrement, and once the loop has been left every invocation is either not dispatched (and never
will be) or has returned.
-/

set_option autoImplicit false

namespace MacOSXInternal
namespace VnodeWatcher
namespace Drain

open Runs

/-- Where an invocation of `my_vnode_authorize_callback` is. -/
inductive Phase
  /-- kauth has not read the listener. -/
  | idle
  /-- kauth has read the listener and its cookie; the callback has not executed anything. -/
  | dispatched
  /-- Past the increment. -/
  | entered
  /-- Past the `enqueue`, or past the comparison that skips it for the log file. -/
  | logged
  /-- Past the decrement. -/
  | returned
  deriving DecidableEq

/-- Between the increment and the decrement. -/
def Phase.inside : Phase → Bool
  | .entered | .logged => true
  | .idle | .dispatched | .returned => false

/-- Where `stopLogging` followed by `stop` is. -/
inductive Stage
  /-- The listener is registered. -/
  | logging
  /-- Unregistered, in the loop. -/
  | waiting
  /-- `stopLogging` has returned. -/
  | drained
  /-- `stop` has released `fDataQueue`. -/
  | released
  deriving DecidableEq

variable {ι : Type}

/-- The state of the race; `ι` names the invocations. -/
structure State (ι : Type) where
  phase : ι → Phase
  gListenerInvocations : ℤ
  stage : Stage

def State.init : State ι := ⟨fun _ ↦ .idle, 0, .logging⟩

/-- The atomic steps. -/
inductive Label (ι : Type)
  | dispatch (i : ι)
  | increment (i : ι)
  | enqueue (i : ι)
  | skip (i : ι)
  | decrement (i : ι)
  | unlisten
  | poll
  | release

variable [DecidableEq ι]

/-- The invocation `i` moves on. -/
def State.move (s : State ι) (i : ι) (p : Phase) : State ι :=
  { s with phase := Function.update s.phase i p }

/-- One atomic step, or `none` where it cannot be taken.  `kauth_unlisten_scope` stops later
dispatches only; `poll` is the test of the `do … while` in `stopLogging`. -/
def step (s : State ι) : Label ι → Option (State ι)
  | .dispatch i =>
    if s.stage = .logging ∧ s.phase i = .idle then some (s.move i .dispatched) else none
  | .increment i =>
    if s.phase i = .dispatched then
      some { s.move i .entered with gListenerInvocations := s.gListenerInvocations + 1 }
    else none
  | .enqueue i => if s.phase i = .entered then some (s.move i .logged) else none
  | .skip i => if s.phase i = .entered then some (s.move i .logged) else none
  | .decrement i =>
    if s.phase i = .logged then
      some { s.move i .returned with gListenerInvocations := s.gListenerInvocations - 1 }
    else none
  | .unlisten => if s.stage = .logging then some { s with stage := .waiting } else none
  | .poll =>
    if s.stage = .waiting then
      some (if s.gListenerInvocations > 0 then s else { s with stage := .drained })
    else none
  | .release => if s.stage = .drained then some { s with stage := .released } else none

/-- `step` as a relation. -/
def Step (s : State ι) (a : Label ι) (t : State ι) : Prop := step s a = some t

/-- The loop is not left while an invocation is between its dispatch and its increment. -/
def Settled (s : State ι) : Label ι → Prop
  | .poll => s.gListenerInvocations ≤ 0 → ∀ i, s.phase i ≠ .dispatched
  | _ => True

/-- An invocation can execute `enqueue` although the queue has been released. -/
def UseAfterRelease (s : State ι) : Prop := s.stage = .released ∧ ∃ i t, Step s (.enqueue i) t

/-! ## The counter -/

/-- The counter is the number of invocations inside the callback. -/
def Counted (s : State ι) : Prop :=
  ∃ inside : Finset ι, (∀ i, i ∈ inside ↔ (s.phase i).inside = true) ∧
    s.gListenerInvocations = inside.card

/-- A step that does not take an invocation in or out leaves the count alone. -/
theorem Counted.move {s : State ι} (h : Counted s) {i : ι} {p : Phase}
    (hp : p.inside = (s.phase i).inside) : Counted (s.move i p) := by
  obtain ⟨inside, hmem, hcard⟩ := h
  refine ⟨inside, fun j ↦ ?_, hcard⟩
  by_cases hj : j = i
  · simp [State.move, hj, hp, hmem]
  · simp [State.move, hj, hmem]

theorem Counted.enter {s : State ι} (h : Counted s) {i : ι} {p : Phase}
    (hout : (s.phase i).inside = false) (hp : p.inside = true) :
    Counted { s.move i p with gListenerInvocations := s.gListenerInvocations + 1 } := by
  obtain ⟨inside, hmem, hcard⟩ := h
  have hi : i ∉ inside := by simp [hmem, hout]
  refine ⟨insert i inside, fun j ↦ ?_, ?_⟩
  · by_cases hj : j = i
    · simp [State.move, hj, hp]
    · simp [State.move, hj, hmem]
  · rw [Finset.card_insert_of_notMem hi, hcard]
    simp

theorem Counted.leave {s : State ι} (h : Counted s) {i : ι} {p : Phase}
    (hin : (s.phase i).inside = true) (hp : p.inside = false) :
    Counted { s.move i p with gListenerInvocations := s.gListenerInvocations - 1 } := by
  obtain ⟨inside, hmem, hcard⟩ := h
  have hi : i ∈ inside := by simp [hmem, hin]
  refine ⟨inside.erase i, fun j ↦ ?_, ?_⟩
  · by_cases hj : j = i
    · simp [State.move, hj, hp]
    · simp [State.move, hj, hmem]
  · have hpos := Finset.card_pos.mpr ⟨i, hi⟩
    show s.gListenerInvocations - 1 = _
    rw [Finset.card_erase_of_mem hi, hcard]
    omega

omit [DecidableEq ι] in
/-- A count that is not positive leaves nobody inside. -/
theorem Counted.nobody_inside {s : State ι} (h : Counted s) (hle : s.gListenerInvocations ≤ 0)
    (i : ι) : (s.phase i).inside = false := by
  obtain ⟨inside, hmem, hcard⟩ := h
  have hempty : inside = ∅ := Finset.card_eq_zero.mp (by omega)
  rw [← Bool.not_eq_true, ← hmem, hempty]
  simp

/-! ## The invariant -/

/-- The invariant of settled runs. -/
structure Inv (s : State ι) : Prop where
  counted : Counted s
  /-- After the loop nothing is under way, and nothing starts. -/
  quiet : s.stage = .drained ∨ s.stage = .released →
    ∀ i, s.phase i = .idle ∨ s.phase i = .returned

omit [DecidableEq ι] in
theorem Inv.init : Inv (.init : State ι) where
  counted := ⟨∅, by simp [State.init, Phase.inside], by simp [State.init]⟩
  quiet h := by simp [State.init] at h

omit [DecidableEq ι] in
/-- While an invocation is under way the loop has not been left. -/
theorem Inv.not_quiet {s : State ι} (h : Inv s) {i : ι} {p : Phase} (hi : s.phase i = p)
    (hidle : p ≠ .idle) (hret : p ≠ .returned) : ¬(s.stage = .drained ∨ s.stage = .released) := by
  subst hi
  exact fun hq ↦ (h.quiet hq i).elim hidle hret

theorem step_inv {s t : State ι} {a : Label ι} (h : Inv s) (ha : Settled s a)
    (hs : Step s a t) : Inv t := by
  cases a with
  | dispatch i =>
    obtain ⟨⟨hstage, hi⟩, rfl⟩ := by simpa [Step, step] using hs
    exact ⟨h.counted.move (by rw [hi]; rfl), fun hq ↦ by simp [State.move, hstage] at hq⟩
  | increment i =>
    obtain ⟨hi, rfl⟩ := by simpa [Step, step] using hs
    exact ⟨h.counted.enter (by rw [hi]; rfl) rfl,
      fun hq ↦ absurd hq (h.not_quiet hi (by decide) (by decide))⟩
  | enqueue i | skip i =>
    obtain ⟨hi, rfl⟩ := by simpa [Step, step] using hs
    exact ⟨h.counted.move (by rw [hi]; rfl),
      fun hq ↦ absurd hq (h.not_quiet hi (by decide) (by decide))⟩
  | decrement i =>
    obtain ⟨hi, rfl⟩ := by simpa [Step, step] using hs
    exact ⟨h.counted.leave (by rw [hi]; rfl) rfl,
      fun hq ↦ absurd hq (h.not_quiet hi (by decide) (by decide))⟩
  | unlisten =>
    obtain ⟨-, rfl⟩ := by simpa [Step, step] using hs
    exact ⟨h.counted, fun hq ↦ by simp at hq⟩
  | poll =>
    obtain ⟨hstage, rfl⟩ := by simpa [Step, step] using hs
    split
    · exact h
    · rename_i hpos
      have hle : s.gListenerInvocations ≤ 0 := by omega
      refine ⟨h.counted, fun _ i ↦ ?_⟩
      have hin := h.counted.nobody_inside hle i
      have hdis := ha hle i
      show s.phase i = .idle ∨ s.phase i = .returned
      cases hp : s.phase i with
      | idle => exact .inl rfl
      | dispatched => exact absurd hp hdis
      | entered | logged => simp [hp, Phase.inside] at hin
      | returned => exact .inr rfl
  | release =>
    obtain ⟨hstage, rfl⟩ := by simpa [Step, step] using hs
    exact ⟨h.counted, fun _ ↦ h.quiet (.inl hstage)⟩

theorem Inv.not_useAfterRelease {s : State ι} (h : Inv s) : ¬UseAfterRelease s := by
  rintro ⟨hstage, i, t, hs⟩
  obtain ⟨hi, -⟩ := by simpa [Step, step] using hs
  exact h.not_quiet hi (by decide) (by decide) (.inr hstage)

/-- **Leaving the loop in the window can go wrong**: the invocation that was waiting to be counted
is counted and enqueues after the release. -/
theorem exists_useAfterRelease {s : State ι} {i : ι} (hstage : s.stage = .waiting)
    (hle : s.gListenerInvocations ≤ 0) (hi : s.phase i = .dispatched) :
    ∃ t, Run Step s [.poll, .release, .increment i] t ∧ UseAfterRelease t := by
  let t : State ι := { s.move i .entered with
    gListenerInvocations := s.gListenerInvocations + 1
    stage := .released }
  refine ⟨t, .cons (t := { s with stage := .drained }) ?_
    (.cons (t := { s with stage := .released }) ?_ (.single ?_)), rfl, i, t.move i .logged, ?_⟩
  · simp [Step, step, hstage, hle]
  · simp [Step, step]
  · simp [Step, step, hi, t, State.move]
  · simp [Step, step, t, State.move]

end Drain
end VnodeWatcher
end MacOSXInternal
