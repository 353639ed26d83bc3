import Mathlib.Data.Fintype.Basic
import MacOSXInternal.Lib.Runs

/-!
# Counting semaphores

Parties that run straight-line programs over semaphores with a count and a queue.  A signal wakes
the first in the queue or adds to the count; a wait takes from the count or joins the queue.  Two
more signals do not touch the count, and are lost on those that do not wait: one for a given party,
and one for everybody in the queue.

* `Sem` is a semaphore with these operations, `Op` a statement of a program.
* `System` is the semaphores and what the parties have still to do.  A party that waits has done its
  `wait`, and stands in the queue.
* `step` is one statement of one party; it is none for a party that cannot go on.
* `Deadlocked` says that somebody is not finished and nobody can go on.
-/

set_option autoImplicit false
set_option linter.unusedSectionVars false

namespace Semaphore

open Runs

/-- A semaphore. -/
structure Sem (ι : Type) where
  count : ℕ
  waiting : List ι
  deriving DecidableEq, Repr

/-- A statement. -/
inductive Op (ι κ : Type)
  | signal (s : κ)
  | wait (s : κ)
  | signalThread (s : κ) (i : ι)
  | signalAll (s : κ)
  | destroy (s : κ)
  /-- Start a party. -/
  | create (i : ι)
  /-- End all of them. -/
  | exit
  deriving DecidableEq, Repr

/-- The semaphores, and the parties: what each has still to do, and whether it has been started. -/
structure System (ι κ : Type) where
  sem : κ → Sem ι
  rest : ι → List (Op ι κ)
  started : ι → Bool

variable {ι κ : Type}

namespace Sem

variable (m : Sem ι)

def signal : Sem ι :=
  match m.waiting with
  | [] => { m with count := m.count + 1 }
  | _ :: l => { m with waiting := l }

def wait (i : ι) : Sem ι :=
  match m.count with
  | 0 => { m with waiting := m.waiting ++ [i] }
  | n + 1 => { m with count := n }

def signalThread [DecidableEq ι] (i : ι) : Sem ι := { m with waiting := m.waiting.erase i }

/-- Everybody in the queue is woken. -/
def signalAll : Sem ι := { m with waiting := [] }

variable {m}

theorem signal_of_nil (h : m.waiting = []) : m.signal = ⟨m.count + 1, []⟩ := by
  rw [signal, h]

theorem signal_of_cons {i : ι} {l : List ι} (h : m.waiting = i :: l) :
    m.signal = ⟨m.count, l⟩ := by
  rw [signal, h]

theorem wait_of_zero (h : m.count = 0) (i : ι) : m.wait i = ⟨0, m.waiting ++ [i]⟩ := by
  rw [wait, h]

theorem wait_of_pos (h : 0 < m.count) (i : ι) : m.wait i = ⟨m.count - 1, m.waiting⟩ := by
  obtain ⟨n, hn⟩ : ∃ n, m.count = n + 1 := ⟨m.count - 1, by omega⟩
  rw [wait, hn]
  rfl

end Sem

namespace System

variable [DecidableEq ι] [DecidableEq κ] (σ : System ι κ)

/-- The party stands in a queue. -/
def Blocked (i : ι) : Prop := ∃ s, i ∈ (σ.sem s).waiting

instance [Fintype κ] (i : ι) : Decidable (σ.Blocked i) :=
  inferInstanceAs (Decidable (∃ s, i ∈ (σ.sem s).waiting))

/-- The party has done everything. -/
def Finished (i : ι) : Prop := σ.rest i = [] ∧ ¬ σ.Blocked i

/-- Assign to a semaphore. -/
def update (s : κ) (m : Sem ι) : System ι κ := { σ with sem := Function.update σ.sem s m }

/-- What a statement does. -/
def effect (i : ι) : Op ι κ → System ι κ
  | .signal s => σ.update s (σ.sem s).signal
  | .wait s => σ.update s ((σ.sem s).wait i)
  | .signalThread s j => σ.update s ((σ.sem s).signalThread j)
  | .signalAll s => σ.update s (σ.sem s).signalAll
  -- nobody uses the semaphore any more, and who waits for it goes on
  | .destroy s => σ.update s (σ.sem s).signalAll
  | .create j => { σ with started := Function.update σ.started j true }
  | .exit =>
    { σ with
      sem := fun s ↦ (σ.sem s).signalAll
      rest := fun _ ↦ [] }

/-- On to the next statement. -/
def advance (i : ι) (ops : List (Op ι κ)) : System ι κ :=
  { σ with rest := Function.update σ.rest i ops }

/-- The next statement of a party. -/
def step [Fintype κ] (i : ι) : Option (System ι κ) :=
  if σ.started i ∧ ¬ σ.Blocked i then
    match σ.rest i with
    | [] => none
    | op :: ops => some ((σ.advance i ops).effect i op)
  else none

/-! ### Who can go on -/

section
variable {σ} {τ : System ι κ} [Fintype κ] {i : ι}

/-- **What a step is.** -/
theorem step_eq_some (h : σ.step i = some τ) :
    ∃ op ops, σ.started i = true ∧ ¬ σ.Blocked i ∧ σ.rest i = op :: ops ∧
      τ = (σ.advance i ops).effect i op := by
  rw [step] at h
  split at h
  · rename_i hgo
    cases hrest : σ.rest i with
    | nil => simp [hrest] at h
    | cons op ops =>
      rw [hrest] at h
      exact ⟨op, ops, hgo.1, hgo.2, rfl, (Option.some.inj h).symm⟩
  · cases h

/-- Who cannot go on waits, has not been started, or has done everything. -/
theorem step_eq_none (h : σ.step i = none) :
    σ.started i = false ∨ σ.Blocked i ∨ σ.rest i = [] := by
  rw [step] at h
  split at h
  · cases hrest : σ.rest i with
    | nil => exact .inr (.inr rfl)
    | cons op ops => simp [hrest] at h
  · rename_i hgo
    by_cases hs : σ.started i = true
    · exact .inr (.inl (by_contra fun hb ↦ hgo ⟨hs, hb⟩))
    · exact .inl (by simpa using hs)

/-- Nobody who is finished takes a step. -/
theorem Finished.step_eq_none (h : σ.Finished i) : σ.step i = none := by
  rw [step, h.1]
  split <;> rfl

end

/-! ### What the statements change -/

section
variable (i : ι) (s : κ) (m : Sem ι) (ops : List (Op ι κ))

@[simp] theorem update_sem : (σ.update s m).sem = Function.update σ.sem s m := rfl
@[simp] theorem update_rest : (σ.update s m).rest = σ.rest := rfl
@[simp] theorem update_started : (σ.update s m).started = σ.started := rfl

@[simp] theorem advance_sem : (σ.advance i ops).sem = σ.sem := rfl
@[simp] theorem advance_rest : (σ.advance i ops).rest = Function.update σ.rest i ops := rfl
@[simp] theorem advance_started : (σ.advance i ops).started = σ.started := rfl

end

/-- Somebody is not finished, and nobody can go on. -/
def Deadlocked [Fintype κ] : Prop := (∃ i, ¬ σ.Finished i) ∧ ∀ i, σ.step i = none

end System

/-- The steps of a system. -/
def Step [DecidableEq ι] [DecidableEq κ] [Fintype κ] (σ : System ι κ) (i : ι)
    (τ : System ι κ) : Prop :=
  σ.step i = some τ

end Semaphore
