import Mathlib.Data.Nat.Basic
import MacOSXInternal.Lstasks.Totals

/-!
# The arrays that `lstasks` is given

The kernel maps the list of tasks, and the list of the threads of each task, into the program, which
is to deallocate them.  Without `-v`, the loop over the tasks goes on right after a list of threads
has been counted, and the deallocation is behind that.

* `Balanced` is a run that deallocates what it is given, with the number of elements it was given.
* `mapped_closing` and `deallocated_closing` are what the loop leaves.
* `balanced_iff` says when the program does.
-/

set_option autoImplicit false

namespace MacOSXInternal
namespace Lstasks

/-- If the program comes to its end, each array has been deallocated once, with its own number of
elements, and nothing else has. -/
def Balanced (k : Kernel) (opts : List Opt) : Prop :=
  ∀ s, main k opts = .finished s → s.mapped.Perm s.deallocated

/-- What is mapped for a task. -/
def taskRegions (verbose : Bool) (t : Task) : List Region :=
  if verbose && isSkipped t then [] else threadRegions t

theorem threadRegions_eq_nil_iff {t : Task} : threadRegions t = [] ↔ threadCount t = 0 := by
  rw [threadRegions, threadCount]
  split
  · exact iff_of_true rfl rfl
  case h_2 thread_list _ =>
    rw [OutOfLine.regions, List.length_eq_zero_iff]
    split
    case isTrue h => exact iff_of_true rfl h
    case isFalse h => exact iff_of_false (List.cons_ne_nil _ _) h

/-! ## The loop -/

theorem mapped_task (verbose : Bool) (t : Task) (l : Ledger) :
    (l.task verbose t).mapped = l.mapped ++ taskRegions verbose t := by
  rw [Ledger.task, taskRegions]
  split
  · exact (List.append_nil _).symm
  · rfl

theorem deallocated_task (verbose : Bool) (t : Task) (l : Ledger) :
    (l.task verbose t).deallocated =
      l.deallocated ++ if verbose then taskRegions verbose t else [] := by
  rw [Ledger.task, taskRegions]
  cases verbose <;> cases isSkipped t <;> simp [Ledger.threads, Ledger.count]

theorem mapped_foldl (verbose : Bool) (ts : List Task) (l : Ledger) :
    (ts.foldl (fun l t ↦ l.task verbose t) l).mapped =
      l.mapped ++ ts.flatMap (taskRegions verbose) := by
  induction ts generalizing l with
  | nil => exact (List.append_nil _).symm
  | cons t ts ih =>
    rw [List.foldl_cons, ih, mapped_task, List.flatMap_cons, List.append_assoc]

theorem deallocated_foldl (verbose : Bool) (ts : List Task) (l : Ledger) :
    (ts.foldl (fun l t ↦ l.task verbose t) l).deallocated =
      l.deallocated ++ if verbose then ts.flatMap (taskRegions verbose) else [] := by
  induction ts generalizing l with
  | nil => cases verbose <;> exact (List.append_nil _).symm
  | cons t ts ih =>
    rw [List.foldl_cons, ih, deallocated_task, List.flatMap_cons, List.append_assoc]
    cases verbose <;> rfl

/-! ## The program -/

variable {k : Kernel} {opts : List Opt} {o : Options} {task_list : OutOfLine Task}

/-- With `-v`, every array is deallocated. -/
theorem balanced_of_verbose (h : start k opts = .ok (o, task_list)) (hv : o.verbose) :
    Balanced k opts := by
  intro s hs
  obtain ⟨s', hs', hledger⟩ := finished_of_start h fun t ht _ ↦ defined_of_finished h hs hv t ht
  obtain rfl : s = s' := Outcome.finished.inj (hs.symm.trans hs')
  have hmapped := congrArg Ledger.mapped hledger
  have hdeallocated := congrArg Ledger.deallocated hledger
  simp only [closingLedger, openingLedger, mapped_foldl, deallocated_foldl, hv, if_true,
    List.nil_append] at hmapped hdeallocated
  rw [hmapped, hdeallocated]
  exact List.perm_append_comm

/-- Without it, the list of tasks is all that is deallocated. -/
theorem balanced_of_not_verbose (h : start k opts = .ok (o, task_list)) (hv : o.verbose = false) :
    Balanced k opts ↔ ∀ t ∈ examined o k.mytask task_list.elements, threadCount t = 0 := by
  obtain ⟨s, hs, hledger⟩ := finished_of_start h fun t _ hv' ↦ absurd hv' (by simp [hv])
  have hmapped := congrArg Ledger.mapped hledger
  have hdeallocated := congrArg Ledger.deallocated hledger
  simp only [closingLedger, openingLedger, mapped_foldl, deallocated_foldl, hv,
    List.nil_append] at hmapped hdeallocated
  have hperm : Balanced k opts ↔ s.mapped.Perm s.deallocated := by
    refine ⟨fun h ↦ ?_, fun h s' hs' ↦ ?_⟩
    · exact h s hs
    · obtain rfl : s = s' := Outcome.finished.inj (hs.symm.trans hs')
      exact h
  have hregions (t : Task) : taskRegions false t = threadRegions t := rfl
  have hnil : (examined o k.mytask task_list.elements).flatMap (taskRegions false) = [] ↔
      ∀ t ∈ examined o k.mytask task_list.elements, threadCount t = 0 := by
    simp only [List.flatMap_eq_nil_iff, hregions, threadRegions_eq_nil_iff]
  rw [hperm, hmapped, hdeallocated, ← hnil]
  refine ⟨fun h ↦ ?_, fun h ↦ ?_⟩
  · have hlen := h.length_eq
    rw [List.length_append] at hlen
    exact List.length_eq_zero_iff.mp (Nat.add_eq_left.mp hlen)
  · rw [h, List.append_nil]
    exact List.Perm.refl _

/-- **The program returns what it is given** exactly with `-v`, or when none of the tasks that it
looks at has a thread. -/
theorem balanced_iff (k : Kernel) (opts : List Opt) :
    Balanced k opts ↔ ∀ o task_list, start k opts = .ok (o, task_list) →
      o.verbose ∨ ∀ t ∈ examined o k.mytask task_list.elements, threadCount t = 0 := by
  cases h : start k opts with
  | error x =>
    refine iff_of_true ?_ ?_
    · intro s hs
      rw [main, h] at hs
      obtain rfl : x = .finished s := hs
      cases totals_of_start_error h
    · intro o task_list h'
      cases h'
  | ok answer =>
    obtain ⟨o, task_list⟩ := answer
    have hall : (∀ o' task_list', Except.ok (ε := Outcome) (o, task_list) = .ok (o', task_list') →
        o'.verbose ∨ ∀ t ∈ examined o' k.mytask task_list'.elements, threadCount t = 0) ↔
        (o.verbose ∨ ∀ t ∈ examined o k.mytask task_list.elements, threadCount t = 0) := by
      refine ⟨fun h ↦ ?_, fun h o' task_list' heq ↦ ?_⟩
      · exact h o task_list rfl
      · obtain ⟨rfl, rfl⟩ := Prod.mk.inj (Except.ok.inj heq)
        exact h
    rw [hall]
    cases hv : o.verbose with
    | true => exact iff_of_true (balanced_of_verbose h hv) (.inl rfl)
    | false =>
      rw [balanced_of_not_verbose h hv]
      simp

/-- **Without `-v`, the array of a task with a thread stays.** -/
theorem not_balanced_silentKernel : ¬ Balanced silentKernel [] := by
  have hstart :
      start silentKernel [] = .ok (⟨0, false, false⟩, ⟨0x1000, [silentTask 1, silentTask 2]⟩) :=
    rfl
  rw [balanced_of_not_verbose hstart rfl]
  decide

end Lstasks
end MacOSXInternal
