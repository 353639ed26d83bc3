import Mathlib.Data.List.Nodup
import Mathlib.Tactic.FinCases
import Mathlib.Tactic.IntervalCases
import MacOSXInternal.Lib.Semaphore

/-!
# The handshake of `mach_semaphore.c`

Three threads tell `main` on the second semaphore that they are ready, and wait on the first.
`main` wakes the third of them, and when that one has answered it wakes all others.  A thread says
that it is ready before it waits, and a wake-up is lost on a thread that does not wait yet.

* `mainProgram` and `start_routine` are the two programs.
* `Awaited` is the condition under which no wake-up is lost.
* `Shape` is the invariant of the runs in which it holds: every signal on the second semaphore is
  accounted for, and the threads that have been woken are those `main` has come to wake.
* `not_deadlocked` is the result, and `deadlock_reachable` a run in which the wake-up of the third
  thread is lost.
-/

set_option autoImplicit false

namespace MacOSXInternal
namespace MachSemaphore

open Semaphore Runs

/-! ## The programs -/

inductive Party
  | main
  | thread (i : Fin 3)
  deriving DecidableEq, Repr

/-- `start_routine`. -/
def start_routine : List (Op Party (Fin 2)) := [.signal 1, .wait 0, .signal 1]

/-- `main`, from the creation of the threads on. -/
def mainProgram : List (Op Party (Fin 2)) :=
  [.create (.thread 0), .create (.thread 1), .create (.thread 2),
   -- wait until all three threads are ready
   .wait 1, .wait 1, .wait 1,
   .signalThread 0 (.thread 2),
   -- wait for thread3 to sem_signal()
   .wait 1,
   .signalAll 0,
   -- wait for thread1 and thread2 to sem_signal()
   .wait 1, .wait 1,
   .destroy 0, .destroy 1, .exit]

/-- The semaphores have been created. -/
def start : System Party (Fin 2) where
  sem _ := ⟨0, []⟩
  rest
    | .main => mainProgram
    | .thread _ => start_routine
  started x := x = .main

/-- If the party is about to wake others, they wait. -/
def Awaited (σ : System Party (Fin 2)) (x : Party) : Prop :=
  match σ.rest x with
  | .signalThread s y :: _ => y ∈ (σ.sem s).waiting
  | .signalAll s :: _ => .thread 0 ∈ (σ.sem s).waiting ∧ .thread 1 ∈ (σ.sem s).waiting
  | _ => True

/-! ## The invariant -/

/-- The number of times `main` has begun to wait, before its statement number `k`. -/
def taken (k : ℕ) : ℕ := ((mainProgram.take k).filter (· = .wait 1)).length

/-- The number of times a thread has signalled, before its statement number `n`. -/
def given (n : ℕ) : ℕ := if n = 0 then 0 else if n = 3 then 2 else 1

/-- The number of times the threads have signalled. -/
def posted (p : Fin 3 → ℕ) : ℕ := given (p 0) + given (p 1) + given (p 2)

/-- `main` has come to wake the thread. -/
def Woken (k : ℕ) (i : Fin 3) : Prop := if i = 2 then 7 ≤ k else 9 ≤ k

/-- `main` is at its statement number `k`, and the threads are at theirs. -/
structure Shape (k : ℕ) (p : Fin 3 → ℕ) (σ : System Party (Fin 2)) : Prop where
  main : σ.rest .main = mainProgram.drop k
  thread : ∀ i, σ.rest (.thread i) = start_routine.drop (p i)
  started_main : σ.started .main = true
  started : ∀ i : Fin 3, σ.started (.thread i) = decide (i.val < k)
  unborn : ∀ i : Fin 3, k ≤ i.val → p i = 0
  main_le : k ≤ 13
  thread_le : ∀ i, p i ≤ 3
  count : (σ.sem 0).count = 0
  queue : ∀ x ∈ (σ.sem 0).waiting, ∃ i, x = .thread i ∧ p i = 2
  nodup : (σ.sem 0).waiting.Nodup
  /-- Every signal has been taken, or is in the count; or `main` waits for one. -/
  tokens : (σ.sem 1).waiting = [] ∧ (σ.sem 1).count + taken k = posted p ∨
    (σ.sem 1).waiting = [.main] ∧ (σ.sem 1).count = 0 ∧ posted p + 1 = taken k
  /-- The threads that are past their wait are those that have been woken. -/
  phase : ∀ i, (p i = 3 ∨ p i = 2 ∧ .thread i ∉ (σ.sem 0).waiting) ↔ Woken k i

theorem shape_start : Shape 0 (fun _ ↦ 0) start where
  main := rfl
  thread _ := rfl
  started_main := rfl
  started _ := rfl
  unborn _ _ := rfl
  main_le := by decide
  thread_le _ := by decide
  count := rfl
  queue := nofun
  nodup := List.nodup_nil
  tokens := .inl ⟨rfl, rfl⟩
  phase i := by simp [Woken]

variable {k : ℕ} {p : Fin 3 → ℕ} {σ τ : System Party (Fin 2)}

theorem posted_update (p : Fin 3 → ℕ) (i : Fin 3) (n : ℕ) :
    posted (Function.update p i n) + given (p i) = posted p + given n := by
  fin_cases i <;> simp [posted] <;> omega

/-- `main` can go on when it does not wait. -/
theorem Shape.main_free (h : Shape k p σ) (hb : ¬ σ.Blocked .main) :
    (σ.sem 1).waiting = [] ∧ (σ.sem 1).count + taken k = posted p := by
  rcases h.tokens with htok | ⟨hq, -⟩
  · exact htok
  · refine absurd ⟨1, ?_⟩ hb
    rw [hq]
    exact List.mem_singleton_self _

/-! What a statement of a thread, or of `main`, does whichever it is. -/

section
variable (h : Shape k p σ)
include h

theorem Shape.rest_update (i : Fin 3) (n : ℕ) (j : Fin 3) :
    Function.update σ.rest (.thread i) (start_routine.drop n) (.thread j) =
      start_routine.drop (Function.update p i n j) := by
  by_cases hj : j = i
  · subst hj
    rw [Function.update_self, Function.update_self]
  · have hne : Party.thread j ≠ .thread i := fun he ↦ hj (Party.thread.inj he)
    rw [Function.update_of_ne hne, Function.update_of_ne hj, h.thread]

theorem Shape.thread_le_update (i : Fin 3) {n : ℕ} (hn : n ≤ 3) (j : Fin 3) :
    Function.update p i n j ≤ 3 := by
  by_cases hj : j = i
  · subst hj
    rwa [Function.update_self]
  · rw [Function.update_of_ne hj]
    exact h.thread_le j

theorem Shape.unborn_update {i : Fin 3} (hi : i.val < k) (n : ℕ) (j : Fin 3) (hj : k ≤ j.val) :
    Function.update p i n j = 0 := by
  have hne : j ≠ i := by
    rintro rfl
    omega
  rw [Function.update_of_ne hne]
  exact h.unborn j hj

theorem Shape.unborn_succ (j : Fin 3) (hj : k + 1 ≤ j.val) : p j = 0 :=
  h.unborn j (by omega)

theorem Shape.started_succ (hk : 3 ≤ k) (j : Fin 3) :
    σ.started (.thread j) = decide (j.val < k + 1) := by
  rw [h.started, decide_eq_decide]
  omega

end

/-! ### The threads -/

/-- A thread signals. -/
theorem Shape.signal (h : Shape k p σ) {i : Fin 3} (hi : i.val < k) (hp : p i = 0 ∨ p i = 2)
    (hfree : .thread i ∉ (σ.sem 0).waiting) :
    Shape k (Function.update p i (p i + 1))
      ((σ.advance (.thread i) (start_routine.drop (p i + 1))).effect (.thread i) (.signal 1)) where
  main := by simpa [System.effect] using h.main
  thread := h.rest_update i (p i + 1)
  started_main := h.started_main
  started := h.started
  unborn := h.unborn_update hi _
  main_le := h.main_le
  thread_le := h.thread_le_update i (by omega)
  count := by simpa [System.effect] using h.count
  queue x hx := by
    have hx' : x ∈ (σ.sem 0).waiting := by simpa [System.effect] using hx
    obtain ⟨j, rfl, hj⟩ := h.queue x hx'
    have hne : j ≠ i := by
      rintro rfl
      exact hfree hx'
    exact ⟨j, rfl, by rw [Function.update_of_ne hne, hj]⟩
  nodup := by simpa [System.effect] using h.nodup
  tokens := by
    have hpost := posted_update p i (p i + 1)
    have hgiven : given (p i + 1) = given (p i) + 1 := by rcases hp with hp | hp <;> rw [hp] <;> rfl
    rcases h.tokens with ⟨hq, htok⟩ | ⟨hq, hc, htok⟩
    · refine .inl ?_
      simp only [System.effect, System.update_sem, System.advance_sem, Function.update_self,
        Sem.signal_of_nil hq]
      exact ⟨trivial, by omega⟩
    · -- `main` is woken
      refine .inl ?_
      simp only [System.effect, System.update_sem, System.advance_sem, Function.update_self,
        Sem.signal_of_cons hq]
      exact ⟨trivial, by omega⟩
  phase j := by
    have hphase := h.phase j
    by_cases hj : j = i
    · subst hj
      rw [Function.update_self, ← hphase]
      rcases hp with hp | hp <;> simp [hp, hfree]
    · rw [Function.update_of_ne hj]
      simpa [System.effect] using hphase

/-- A thread waits. -/
theorem Shape.wait (h : Shape k p σ) {i : Fin 3} (hi : i.val < k) (hp : p i = 1) :
    Shape k (Function.update p i 2)
      ((σ.advance (.thread i) (start_routine.drop 2)).effect (.thread i) (.wait 0)) where
  main := by simpa [System.effect] using h.main
  thread := h.rest_update i 2
  started_main := h.started_main
  started := h.started
  unborn := h.unborn_update hi _
  main_le := h.main_le
  thread_le := h.thread_le_update i (by omega)
  count := by simp [System.effect, Sem.wait_of_zero h.count]
  queue x hx := by
    simp only [System.effect, System.update_sem, System.advance_sem, Function.update_self,
      Sem.wait_of_zero h.count, List.mem_append, List.mem_singleton] at hx
    rcases hx with hx | rfl
    · obtain ⟨j, rfl, hj⟩ := h.queue x hx
      have hne : j ≠ i := by
        rintro rfl
        omega
      exact ⟨j, rfl, by rw [Function.update_of_ne hne, hj]⟩
    · exact ⟨i, rfl, Function.update_self ..⟩
  nodup := by
    have hfree : .thread i ∉ (σ.sem 0).waiting := by
      intro hx
      obtain ⟨j, hj, hj'⟩ := h.queue _ hx
      obtain rfl := Party.thread.inj hj
      omega
    simp only [System.effect, System.update_sem, System.advance_sem, Function.update_self,
      Sem.wait_of_zero h.count]
    exact List.nodup_append.mpr ⟨h.nodup, List.nodup_singleton _, by
      rintro x hx y hy rfl
      exact hfree (List.mem_singleton.mp hy ▸ hx)⟩
  tokens := by
    have hpost := posted_update p i 2
    have hgiven : given (p i) = given 2 := by rw [hp]; rfl
    have heq : posted (Function.update p i 2) = posted p := by omega
    rw [heq]
    simpa [System.effect] using h.tokens
  phase j := by
    have hphase := h.phase j
    by_cases hj : j = i
    · subst hj
      rw [Function.update_self, ← hphase]
      simp [System.effect, Sem.wait_of_zero h.count, hp]
    · rw [Function.update_of_ne hj]
      simpa [System.effect, Sem.wait_of_zero h.count, hj] using hphase

/-! ### `main` -/

/-- `main` creates a thread. -/
theorem Shape.create (h : Shape k p σ) (i : Fin 3) (hk : k = i.val) :
    Shape (k + 1) p
      ((σ.advance .main (mainProgram.drop (k + 1))).effect .main (.create (.thread i))) where
  main := by simp [System.effect]
  thread := by simpa [System.effect] using h.thread
  started_main := by simpa [System.effect] using h.started_main
  started j := by
    by_cases hj : j = i
    · subst hj
      simp [System.effect, hk]
    · have hne : j.val ≠ i.val := fun he ↦ hj (Fin.ext he)
      have hne' : Party.thread j ≠ .thread i := fun he ↦ hj (Party.thread.inj he)
      have hstarted := h.started j
      simp only [System.effect, System.advance_started, Function.update_of_ne hne', hstarted,
        decide_eq_decide]
      omega
  unborn := h.unborn_succ
  main_le := by omega
  thread_le := h.thread_le
  count := h.count
  queue := h.queue
  nodup := h.nodup
  tokens := by
    have htaken : taken (k + 1) = taken k := by
      subst hk
      fin_cases i <;> rfl
    rw [htaken]
    exact h.tokens
  phase j := by
    have hwoken : Woken (k + 1) j ↔ Woken k j := by
      simp only [Woken]
      split_ifs <;> omega
    rw [hwoken]
    exact h.phase j

/-- `main` waits. -/
theorem Shape.main_wait (h : Shape k p σ) (hfree : ¬ σ.Blocked .main) (hk : 3 ≤ k) (hle : k < 13)
    (htaken : taken (k + 1) = taken k + 1) (hwoken : ∀ i, Woken (k + 1) i ↔ Woken k i) :
    Shape (k + 1) p
      ((σ.advance .main (mainProgram.drop (k + 1))).effect .main (.wait 1)) where
  main := by simp [System.effect]
  thread := by simpa [System.effect] using h.thread
  started_main := by simpa [System.effect] using h.started_main
  started := h.started_succ hk
  unborn := h.unborn_succ
  main_le := hle
  thread_le := h.thread_le
  count := by simpa [System.effect] using h.count
  queue := by simpa [System.effect] using h.queue
  nodup := by simpa [System.effect] using h.nodup
  tokens := by
    obtain ⟨hq, htok⟩ := h.main_free hfree
    rcases Nat.eq_zero_or_pos (σ.sem 1).count with hc | hc
    · refine .inr ?_
      simp only [System.effect, System.update_sem, System.advance_sem, Function.update_self,
        Sem.wait_of_zero hc, hq]
      exact ⟨rfl, trivial, by omega⟩
    · refine .inl ?_
      simp only [System.effect, System.update_sem, System.advance_sem, Function.update_self,
        Sem.wait_of_pos hc, hq]
      exact ⟨trivial, by omega⟩
  phase j := by
    rw [hwoken j]
    simpa [System.effect] using h.phase j

/-- `main` wakes the third thread, which waits. -/
theorem Shape.signalThread (h : Shape 6 p σ) (hwait : .thread 2 ∈ (σ.sem 0).waiting) :
    Shape 7 p
      ((σ.advance .main (mainProgram.drop 7)).effect .main (.signalThread 0 (.thread 2))) where
  main := by simp [System.effect]
  thread := by simpa [System.effect] using h.thread
  started_main := by simpa [System.effect] using h.started_main
  started := h.started_succ (by decide)
  unborn := h.unborn_succ
  main_le := by decide
  thread_le := h.thread_le
  count := by simpa [System.effect, Sem.signalThread] using h.count
  queue x hx := by
    simp only [System.effect, System.update_sem, System.advance_sem, Function.update_self] at hx
    exact h.queue x (List.mem_of_mem_erase hx)
  nodup := by simpa [System.effect, Sem.signalThread] using h.nodup.erase _
  tokens := by
    have htaken : taken 7 = taken 6 := rfl
    rw [htaken]
    simpa [System.effect] using h.tokens
  phase j := by
    have hphase := h.phase j
    simp only [System.effect, System.update_sem, System.advance_sem, Function.update_self,
      Sem.signalThread, h.nodup.mem_erase_iff]
    by_cases hj : j = 2
    · subst hj
      obtain ⟨i, hi, hp⟩ := h.queue _ hwait
      obtain rfl := Party.thread.inj hi
      simp [Woken, hp]
    · simpa [Woken, hj] using hphase

/-- `main` wakes everybody, or nobody is left. -/
theorem Shape.signalAll (h : Shape k p σ) (hk : 3 ≤ k) (hle : k < 13)
    (htaken : taken (k + 1) = taken k) (hpast : ∀ i, 2 ≤ p i) (hwoken : ∀ i, Woken (k + 1) i)
    {op : Op Party (Fin 2)} (hop : op = .signalAll 0 ∨ op = .destroy 0) :
    Shape (k + 1) p ((σ.advance .main (mainProgram.drop (k + 1))).effect .main op) := by
  have heffect : (σ.advance .main (mainProgram.drop (k + 1))).effect .main op =
      (σ.advance .main (mainProgram.drop (k + 1))).update 0 (σ.sem 0).signalAll := by
    rcases hop with rfl | rfl <;> rfl
  rw [heffect]
  exact
    { main := by simp
      thread := by simpa using h.thread
      started_main := by simpa using h.started_main
      started := h.started_succ hk
      unborn := h.unborn_succ
      main_le := hle
      thread_le := h.thread_le
      count := by simpa [Sem.signalAll] using h.count
      queue := by simp [Sem.signalAll]
      nodup := by simp [Sem.signalAll]
      tokens := by
        rw [htaken]
        simpa using h.tokens
      phase := fun j ↦ by
        have hp := hpast j
        have hp' := h.thread_le j
        refine iff_of_true ?_ (hwoken j)
        simp only [System.update_sem, Function.update_self, Sem.signalAll, List.not_mem_nil,
          not_false_eq_true, and_true]
        omega }

/-- `main` gives up the second semaphore, on which nobody waits. -/
theorem Shape.destroy (h : Shape 12 p σ) (hfree : ¬ σ.Blocked .main) :
    Shape 13 p ((σ.advance .main (mainProgram.drop 13)).effect .main (.destroy 1)) where
  main := by simp [System.effect]
  thread := by simpa [System.effect] using h.thread
  started_main := by simpa [System.effect] using h.started_main
  started := h.started_succ (by decide)
  unborn := h.unborn_succ
  main_le := le_refl 13
  thread_le := h.thread_le
  count := by simpa [System.effect] using h.count
  queue := by simpa [System.effect] using h.queue
  nodup := by simpa [System.effect] using h.nodup
  tokens := by
    obtain ⟨-, htok⟩ := h.main_free hfree
    have htaken : taken 13 = taken 12 := rfl
    rw [htaken]
    exact .inl ⟨by simp [System.effect, Sem.signalAll], by
      simpa [System.effect, Sem.signalAll] using htok⟩
  phase j := by
    have hwoken : Woken 13 j ↔ Woken 12 j := by
      simp only [Woken]
      split_ifs <;> omega
    rw [hwoken]
    simpa [System.effect] using h.phase j

/-! ### Steps and runs -/

/-- The threads that `main` has come to wake are past their wait. -/
theorem Shape.two_le (h : Shape k p σ) {i : Fin 3} (hi : Woken k i) : 2 ≤ p i := by
  have := (h.phase i).mpr hi
  omega

/-- A step of a thread. -/
theorem Shape.step_thread (h : Shape k p σ) {i : Fin 3} (hstep : σ.step (.thread i) = some τ) :
    ∃ p', Shape k p' τ := by
  obtain ⟨op, ops, hstarted, hblocked, hrest, rfl⟩ := System.step_eq_some hstep
  rw [h.started, decide_eq_true_eq] at hstarted
  have hfree : .thread i ∉ (σ.sem 0).waiting := fun hx ↦ hblocked ⟨0, hx⟩
  rw [h.thread i] at hrest
  have hle := h.thread_le i
  obtain hp | hp | hp | hp : p i = 0 ∨ p i = 1 ∨ p i = 2 ∨ p i = 3 := by omega
  · rw [hp] at hrest
    obtain ⟨rfl, rfl⟩ := List.cons.inj hrest
    have hshape := h.signal hstarted (.inl hp) hfree
    rw [hp] at hshape
    exact ⟨_, hshape⟩
  · rw [hp] at hrest
    obtain ⟨rfl, rfl⟩ := List.cons.inj hrest
    exact ⟨_, h.wait hstarted hp⟩
  · rw [hp] at hrest
    obtain ⟨rfl, rfl⟩ := List.cons.inj hrest
    have hshape := h.signal hstarted (.inr hp) hfree
    rw [hp] at hshape
    exact ⟨_, hshape⟩
  · rw [hp] at hrest
    cases hrest

/-- A step of `main` that loses no wake-up. -/
theorem Shape.step_main (h : Shape k p σ) (hawaited : Awaited σ .main)
    (hstep : σ.step .main = some τ) : (∃ k', Shape k' p τ) ∨ ∀ x, τ.Finished x := by
  obtain ⟨op, ops, -, hfree, hrest, rfl⟩ := System.step_eq_some hstep
  rw [Awaited, hrest] at hawaited
  rw [h.main] at hrest
  have hle := h.main_le
  interval_cases k
  all_goals obtain ⟨rfl, rfl⟩ := List.cons.inj hrest
  · exact .inl ⟨_, h.create 0 rfl⟩
  · exact .inl ⟨_, h.create 1 rfl⟩
  · exact .inl ⟨_, h.create 2 rfl⟩
  · exact .inl ⟨_, h.main_wait hfree (by decide) (by decide) rfl (by simp [Woken])⟩
  · exact .inl ⟨_, h.main_wait hfree (by decide) (by decide) rfl (by simp [Woken])⟩
  · exact .inl ⟨_, h.main_wait hfree (by decide) (by decide) rfl (by simp [Woken])⟩
  · exact .inl ⟨_, h.signalThread hawaited⟩
  · exact .inl ⟨_, h.main_wait hfree (by decide) (by decide) rfl (by simp [Woken])⟩
  · have hqueue {i : Fin 3} (hi : .thread i ∈ (σ.sem 0).waiting) : 2 ≤ p i := by
      obtain ⟨j, hj, hp⟩ := h.queue _ hi
      obtain rfl := Party.thread.inj hj
      exact hp.ge
    have hpast (i : Fin 3) : 2 ≤ p i := by
      fin_cases i
      · exact hqueue hawaited.1
      · exact hqueue hawaited.2
      · exact h.two_le (by simp [Woken])
    exact .inl ⟨_, h.signalAll (by decide) (by decide) rfl hpast (by simp [Woken]) (.inl rfl)⟩
  · exact .inl ⟨_, h.main_wait hfree (by decide) (by decide) rfl (by simp [Woken])⟩
  · exact .inl ⟨_, h.main_wait hfree (by decide) (by decide) rfl (by simp [Woken])⟩
  · exact .inl ⟨_, h.signalAll (by decide) (by decide) rfl (fun i ↦ h.two_le (by simp [Woken]))
      (by simp [Woken]) (.inr rfl)⟩
  · exact .inl ⟨_, h.destroy hfree⟩
  · exact .inr fun x ↦ ⟨rfl, by simp [System.Blocked, System.effect, Sem.signalAll]⟩

/-- A thread that cannot go on waits, or has done everything, or has not been created. -/
theorem Shape.stuck_thread (h : Shape k p σ) {i : Fin 3} (hstep : σ.step (.thread i) = none) :
    k ≤ i.val ∨ p i = 3 ∨ p i = 2 ∧ .thread i ∈ (σ.sem 0).waiting := by
  have hle := h.thread_le i
  rcases System.step_eq_none hstep with hs | ⟨s, hs⟩ | hr
  · rw [h.started, decide_eq_false_iff_not] at hs
    exact .inl (by omega)
  · obtain rfl | rfl : s = 0 ∨ s = 1 := by omega
    · obtain ⟨j, hj, hp⟩ := h.queue _ hs
      obtain rfl := Party.thread.inj hj
      exact .inr (.inr ⟨hp, hs⟩)
    · rcases h.tokens with ⟨hq, -⟩ | ⟨hq, -⟩ <;> simp [hq] at hs
  · rw [h.thread, List.drop_eq_nil_iff] at hr
    have hlen : 3 ≤ p i := hr
    exact .inr (.inl (by omega))

/-- `main`, if it cannot go on, waits for a signal. -/
theorem Shape.stuck_main (h : Shape k p σ) (hstep : σ.step .main = none) :
    posted p + 1 = taken k := by
  have hle := h.main_le
  rcases System.step_eq_none hstep with hs | ⟨s, hs⟩ | hr
  · rw [h.started_main] at hs
    cases hs
  · obtain rfl | rfl : s = 0 ∨ s = 1 := by omega
    · obtain ⟨j, hj, -⟩ := h.queue _ hs
      cases hj
    · rcases h.tokens with ⟨hq, -⟩ | ⟨-, -, htok⟩
      · simp [hq] at hs
      · exact htok
  · rw [h.main, List.drop_eq_nil_iff] at hr
    have hlen : 14 ≤ k := hr
    omega

/-- A thread that cannot go on has signalled once, and twice if `main` has come to wake it. -/
theorem Shape.stuck_given (h : Shape k p σ) (hk : 3 ≤ k) {i : Fin 3}
    (hstep : σ.step (.thread i) = none) :
    (Woken k i → given (p i) = 2) ∧ (¬ Woken k i → given (p i) = 1) := by
  have hphase := h.phase i
  rcases h.stuck_thread hstep with hi | hp | ⟨hp, hq⟩
  · omega
  · exact ⟨fun _ ↦ by rw [hp]; rfl, fun hn ↦ absurd (hphase.mp (.inl hp)) hn⟩
  · refine ⟨fun hw ↦ ?_, fun _ ↦ by rw [hp]; rfl⟩
    rcases hphase.mpr hw with hp' | ⟨-, hq'⟩
    · omega
    · exact absurd hq hq'

/-- **Somebody can go on**: if `main` waits for a signal, one of the threads has still to give
it. -/
theorem Shape.live (h : Shape k p σ) : ¬ σ.Deadlocked := by
  rintro ⟨-, hstuck⟩
  have hmain := h.stuck_main (hstuck .main)
  have hle := h.main_le
  have hk : 4 ≤ k := by
    by_contra hk
    have htaken : taken k = 0 := by
      have hlt : k < 4 := by omega
      interval_cases k <;> rfl
    omega
  have h0 := h.stuck_given (by omega) (hstuck (.thread 0))
  have h1 := h.stuck_given (by omega) (hstuck (.thread 1))
  have h2 := h.stuck_given (by omega) (hstuck (.thread 2))
  rw [posted] at hmain
  rcases Nat.lt_or_ge k 7 with hk7 | hk7
  · have htaken : taken k ≤ 3 := by interval_cases k <;> decide
    have hn (i : Fin 3) : ¬ Woken k i := by
      rw [Woken]
      split_ifs <;> omega
    have hg := h0.2 (hn 0)
    have hg' := h1.2 (hn 1)
    have hg'' := h2.2 (hn 2)
    omega
  rcases Nat.lt_or_ge k 9 with hk9 | hk9
  · have htaken : taken k ≤ 4 := by interval_cases k <;> decide
    have hg := h0.2 (by simp [Woken, hk9])
    have hg' := h1.2 (by simp [Woken, hk9])
    have hg'' := h2.1 (by simp [Woken, hk7])
    omega
  · have htaken : taken k ≤ 6 := by interval_cases k <;> decide
    have hw (i : Fin 3) : Woken k i := by
      rw [Woken]
      split_ifs <;> omega
    have hg := h0.1 (hw 0)
    have hg' := h1.1 (hw 1)
    have hg'' := h2.1 (hw 2)
    omega

/-- **In every run that loses no wake-up, nobody is stuck.** -/
theorem not_deadlocked (σ : System Party (Fin 2)) (l : List Party)
    (h : Run (guarded Awaited Step) start l σ) : ¬ σ.Deadlocked := by
  have hinv : (∃ k p, Shape k p σ) ∨ ∀ x, σ.Finished x := by
    refine h.invariant (I := fun σ ↦ (∃ k p, Shape k p σ) ∨ ∀ x, σ.Finished x) ?_
      (.inl ⟨0, _, shape_start⟩)
    rintro σ x τ (⟨k, p, hσ⟩ | hσ) ⟨hawaited, hstep⟩
    · cases x with
      | main =>
        rcases hσ.step_main hawaited hstep with ⟨k', hτ⟩ | hτ
        · exact .inl ⟨k', p, hτ⟩
        · exact .inr hτ
      | thread i =>
        obtain ⟨p', hτ⟩ := hσ.step_thread hstep
        exact .inl ⟨k, p', hτ⟩
    · rw [Step, (hσ x).step_eq_none] at hstep
      cases hstep
  rcases hinv with ⟨k, p, hσ⟩ | hσ
  · exact hσ.live
  · rintro ⟨⟨x, hx⟩, -⟩
    exact hx (hσ x)

/-- The run in which every thread waits before `main` looks. -/
theorem not_deadlocked_demo : ∃ l σ, Run (guarded Awaited Step) start l σ ∧
    σ.rest .main = [] ∧ ¬ σ.Deadlocked := by
  obtain ⟨l, σ, hrun, hmain⟩ : ∃ l σ, Run (guarded Awaited Step) start l σ ∧
      σ.rest .main = [] :=
    ⟨[.main, .main, .main, .thread 0, .thread 0, .thread 1, .thread 1, .thread 2, .thread 2,
      .main, .main, .main, .main, .thread 2, .main, .main, .thread 0, .thread 1, .main, .main,
      .main, .main, .main], _,
      .cons ⟨trivial, rfl⟩ <| .cons ⟨trivial, rfl⟩ <| .cons ⟨trivial, rfl⟩ <|
      .cons ⟨trivial, rfl⟩ <| .cons ⟨trivial, rfl⟩ <| .cons ⟨trivial, rfl⟩ <|
      .cons ⟨trivial, rfl⟩ <| .cons ⟨trivial, rfl⟩ <| .cons ⟨trivial, rfl⟩ <|
      .cons ⟨trivial, rfl⟩ <| .cons ⟨trivial, rfl⟩ <| .cons ⟨trivial, rfl⟩ <|
      .cons ⟨List.Mem.tail _ (List.Mem.tail _ (List.Mem.head _)), rfl⟩ <|
      .cons ⟨trivial, rfl⟩ <| .cons ⟨trivial, rfl⟩ <|
      .cons ⟨⟨List.Mem.head _, List.Mem.tail _ (List.Mem.head _)⟩, rfl⟩ <|
      .cons ⟨trivial, rfl⟩ <| .cons ⟨trivial, rfl⟩ <|
      .cons ⟨trivial, rfl⟩ <| .cons ⟨trivial, rfl⟩ <| .cons ⟨trivial, rfl⟩ <|
      .cons ⟨trivial, rfl⟩ <| .cons ⟨trivial, rfl⟩ <| .nil _, rfl⟩
  exact ⟨l, σ, hrun, hmain, not_deadlocked σ l hrun⟩

/-- The three threads say that they are ready, `main` signals the third, and only then do they begin
to wait. -/
theorem deadlock_reachable : ∃ l σ, Run Step start l σ ∧ σ.Deadlocked :=
  ⟨[.main, .main, .main, .thread 0, .thread 1, .thread 2, .main, .main, .main, .main,
    .main, .thread 0, .thread 1, .thread 2], _,
    .cons rfl <| .cons rfl <| .cons rfl <| .cons rfl <| .cons rfl <| .cons rfl <|
    .cons rfl <| .cons rfl <| .cons rfl <| .cons rfl <| .cons rfl <| .cons rfl <| .cons rfl <|
    .cons rfl <| .nil _,
    ⟨.main, fun h ↦ nomatch h.1⟩, fun x ↦ by
      cases x with
      | main => rfl
      | thread i => fin_cases i <;> rfl⟩

end MachSemaphore
end MacOSXInternal
