import Mathlib.Data.List.Infix
import Mathlib.Data.List.Range
import MacOSXInternal.Lib.Loop

/-!
# `CarbonThreadManager.c`

The program creates `MAXTHREADS` cooperative threads and yields to the first of them.  Each of them
prints a line and yields to the next one, and the last one is to yield to the main thread.  A thread
knows its number from its argument, and the others from the array that the creation loop has filled.

* `Threads` is what the creation loop leaves behind when all threads are created.
* `threadFunction` is what a thread does up to its yield, and `turn` gives the control to the next
  one.
* `returns_ring` follows the control through the array, and `ring_first` to its end: the last of
  the threads does not take itself for the last one, and reads behind the array.
-/

set_option autoImplicit false

namespace MacOSXInternal
namespace CarbonThreadManager

open Loop

abbrev ThreadID := BitVec 32

def kNoThreadID : ThreadID := 0

/-- What the program has in memory when `MAXTHREADS` threads have been created: the `i`-th of them
was given the argument `i`, and its ID was stored in `newThreads[i]`. -/
structure Threads (MAXTHREADS : ℕ) where
  mainThread : ThreadID
  /-- The words from the beginning of the array on, and those behind it. -/
  newThreads : ℕ → ThreadID
  created : ∀ i < MAXTHREADS, newThreads i ≠ kNoThreadID
  distinct : ∀ i < MAXTHREADS, ∀ j < MAXTHREADS, newThreads i = newThreads j → i = j
  ne_main : ∀ i < MAXTHREADS, newThreads i ≠ mainThread

/-- What a thread does. -/
inductive Event
  /-- It reads `newThreads[i]`. -/
  | access (i : ℕ)
  /-- It prints its number and its ID. -/
  | print (i : ℕ) (ctm : ThreadID)
  /-- It calls `YieldToThread`. -/
  | yield (id : ThreadID)
  deriving DecidableEq

variable {MAXTHREADS : ℕ} (t : Threads MAXTHREADS)

/-- The thread that is yielded to at the end of `threadFunction`. -/
def next (i : ℕ) : ThreadID := if i = MAXTHREADS then t.mainThread else t.newThreads (i + 1)

/-- `threadFunction`, up to its yield. -/
def threadFunction (i : ℕ) : List Event :=
  [.access i, .print i (t.newThreads i)] ++
    if i = MAXTHREADS then [.yield t.mainThread]
    else [.access (i + 1), .yield (t.newThreads (i + 1))]

/-- The thread that is to run, the threads that have yielded, and what has happened. -/
structure Vars where
  i : ℕ
  yielded : List ℕ
  trace : List Event

/-- How it ends. -/
inductive Outcome
  /-- The main thread is back. -/
  | back (trace : List Event)
  /-- A thread goes on behind its yield, and prints `Whoa!`: it was yielded to again, or its own
  yield has failed. -/
  | whoa (trace : List Event)

def Outcome.trace : Outcome → List Event
  | .back trace => trace
  | .whoa trace => trace

/-- `YieldToThread`.  Each thread that has not yielded yet is still at its beginning. -/
def yieldToThread (id : ThreadID) (yielded : List ℕ) (trace : List Event) : Vars ⊕ Outcome :=
  if id = t.mainThread then .inr (.back trace)
  else
    match (List.range MAXTHREADS).find? fun j ↦ t.newThreads j = id with
    | some j => if j ∈ yielded then .inr (.whoa trace) else .inl ⟨j, yielded, trace⟩
    | none => .inr (.whoa trace)

/-- One thread, up to its yield. -/
def turn (v : Vars) : Vars ⊕ Outcome :=
  yieldToThread t (next t v.i) (v.i :: v.yielded) (v.trace ++ threadFunction t v.i)

/-- What happens in `main` up to its yield. -/
def relinquish : List Event := [.access 0, .yield (t.newThreads 0)]

/-- `main`, from its yield to where it is back. -/
def main (fuel : ℕ) : Option Outcome :=
  match yieldToThread t (t.newThreads 0) [] (relinquish t) with
  | .inl v => run (turn t) fuel v
  | .inr outcome => some outcome

/-- The numbers printed. -/
def printed (trace : List Event) : List ℕ :=
  trace.filterMap fun
    | .print i _ => some i
    | _ => none

/-- The control goes through the ring once and comes back. -/
def PassesOnce : Prop :=
  ∃ fuel trace, main t fuel = some (.back trace) ∧
    (∀ i, .access i ∈ trace → i < MAXTHREADS) ∧
    printed trace = List.range MAXTHREADS ∧
    trace.getLast? = some (.yield t.mainThread)

/-! ## The ring -/

variable {t}

theorem yieldToThread_newThreads {i : ℕ} (hi : i < MAXTHREADS) {yielded : List ℕ}
    (hyielded : i ∉ yielded) (trace : List Event) :
    yieldToThread t (t.newThreads i) yielded trace = .inl ⟨i, yielded, trace⟩ := by
  have hfind :
      (List.range MAXTHREADS).find? (fun j ↦ t.newThreads j = t.newThreads i) = some i := by
    rw [List.find?_range_eq_some]
    refine ⟨decide_eq_true rfl, List.mem_range.mpr hi, ?_⟩
    intro j hj
    have hne : t.newThreads j ≠ t.newThreads i := by
      intro heq
      exact absurd (t.distinct j (hj.trans hi) i hi heq) hj.ne
    simp [hne]
  rw [yieldToThread, if_neg (t.ne_main i hi), hfind]
  exact if_neg hyielded

/-- **A thread that is not the last one** yields to the next. -/
theorem turn_next {i : ℕ} (hi : i + 1 < MAXTHREADS) {yielded : List ℕ}
    (hyielded : ∀ j ∈ yielded, j < i) (trace : List Event) :
    turn t ⟨i, yielded, trace⟩ = .inl ⟨i + 1, i :: yielded, trace ++ threadFunction t i⟩ := by
  have hne : i ≠ MAXTHREADS := by omega
  have hfresh : i + 1 ∉ i :: yielded := by
    intro h
    rcases List.mem_cons.mp h with h | h
    · omega
    · have hlt := hyielded _ h
      omega
  rw [turn, next, if_neg hne]
  exact yieldToThread_newThreads hi hfresh _

/-- **The control goes through the array**, from the first thread to any other. -/
theorem returns_ring {n : ℕ} (hn : n < MAXTHREADS) (trace : List Event) (r : Outcome) :
    Returns (turn t) ⟨0, [], trace⟩ r ↔
      Returns (turn t)
        ⟨n, (List.range n).reverse, trace ++ (List.range n).flatMap (threadFunction t)⟩ r := by
  induction n with
  | zero => simp
  | succ n ih =>
    have hyielded : ∀ j ∈ (List.range n).reverse, j < n := by simp
    rw [ih (by omega), returns_of_inl (turn_next hn hyielded _), List.range_succ,
      List.reverse_append, List.flatMap_append, List.append_assoc]
    simp

/-! ## The end of the ring -/

theorem yieldToThread_eq_inl {id : ThreadID} {yielded : List ℕ} {trace : List Event} {v : Vars}
    (h : yieldToThread t id yielded trace = .inl v) : v.trace = trace := by
  rw [yieldToThread] at h
  split at h
  · cases h
  split at h
  · split at h <;> cases h
    rfl
  · cases h

theorem yieldToThread_eq_inr {id : ThreadID} {yielded : List ℕ} {trace : List Event} {r : Outcome}
    (h : yieldToThread t id yielded trace = .inr r) : r.trace = trace := by
  rw [yieldToThread] at h
  split at h
  · cases h
    rfl
  split at h
  · split at h <;> cases h
    rfl
  · cases h
    rfl

/-- What a thread does is not undone. -/
theorem trace_kept {v : Vars} {r : Outcome} (h : Returns (turn t) v r) :
    v.trace ++ threadFunction t v.i <+: r.trace := by
  refine h.log_kept (fun v ↦ v.trace ++ threadFunction t v.i) Outcome.trace ?_ ?_
  · intro v v' hturn
    rw [yieldToThread_eq_inl hturn]
    exact List.prefix_append ..
  · intro v r hturn
    rw [yieldToThread_eq_inr hturn]

/-- **However it ends, all the threads have run before**, in their order and each of them once. -/
theorem ring_first (hM : 1 ≤ MAXTHREADS) {fuel : ℕ} {r : Outcome} (h : main t fuel = some r) :
    relinquish t ++ (List.range MAXTHREADS).flatMap (threadFunction t) <+: r.trace := by
  obtain ⟨n, rfl⟩ : ∃ n, MAXTHREADS = n + 1 := ⟨MAXTHREADS - 1, by omega⟩
  rw [main, yieldToThread_newThreads (by omega) List.not_mem_nil] at h
  have hlast := trace_kept ((returns_ring (n := n) (by omega) _ r).mp ⟨fuel, h⟩)
  rw [List.append_assoc] at hlast
  rwa [List.range_succ, List.flatMap_append, List.flatMap_singleton]

theorem printed_threadFunction (i : ℕ) : printed (threadFunction t i) = [i] := by
  rw [threadFunction]
  split <;> rfl

theorem printed_flatMap (n : ℕ) :
    printed ((List.range n).flatMap (threadFunction t)) = List.range n := by
  induction n with
  | zero => rfl
  | succ n ih =>
    rw [printed] at ih ⊢
    rw [List.range_succ, List.flatMap_append, List.filterMap_append, ih, List.flatMap_singleton]
    exact congrArg _ (printed_threadFunction n)

/-- Up to there, it is as it should be. -/
theorem range_prefix_printed (hM : 1 ≤ MAXTHREADS) {fuel : ℕ} {r : Outcome}
    (h : main t fuel = some r) : List.range MAXTHREADS <+: printed r.trace := by
  have hprefix : printed _ <+: printed r.trace := (ring_first hM h).filterMap _
  have hring := printed_flatMap (t := t) MAXTHREADS
  rw [printed] at hprefix hring
  rwa [List.filterMap_append, hring] at hprefix

/-- **The number of the last thread is not `MAXTHREADS`**, so it looks for a next one. -/
theorem access_mem (hM : 1 ≤ MAXTHREADS) {fuel : ℕ} {r : Outcome} (h : main t fuel = some r) :
    .access MAXTHREADS ∈ r.trace := by
  have hlast : .access MAXTHREADS ∈ threadFunction t (MAXTHREADS - 1) := by
    have hne : MAXTHREADS - 1 ≠ MAXTHREADS := by omega
    rw [threadFunction, if_neg hne, Nat.sub_add_cancel hM]
    simp
  refine (ring_first hM h).subset (List.mem_append_right _ ?_)
  exact List.mem_flatMap.mpr ⟨MAXTHREADS - 1, List.mem_range.mpr (by omega), hlast⟩

/-- **The ring never closes inside the array.** -/
theorem not_passesOnce (hM : 1 ≤ MAXTHREADS) (t : Threads MAXTHREADS) : ¬ PassesOnce t := by
  rintro ⟨fuel, trace, hrun, haccess, -⟩
  exact lt_irrefl _ (haccess _ (access_mem hM hrun))

/-- Eight threads, and a null word behind the array. -/
def eightThreads : Threads 8 where
  mainThread := 1
  newThreads i := if i < 8 then BitVec.ofNat 32 (i + 2) else 0
  created := by decide
  distinct := by decide
  ne_main := by decide

theorem not_passesOnce_eightThreads : ¬ PassesOnce eightThreads :=
  not_passesOnce (by decide) eightThreads

/-- The last of the eight threads reads what lies behind the array. -/
theorem access_eightThreads :
    ¬ ∀ (M : ℕ) (t : Threads M), 1 ≤ M → PassesOnce t := by
  intro h
  obtain ⟨fuel, trace, hrun, haccess, -⟩ := h 8 eightThreads (by decide)
  exact lt_irrefl _ (haccess 8 (access_mem (by decide) hrun))

end CarbonThreadManager
end MacOSXInternal
