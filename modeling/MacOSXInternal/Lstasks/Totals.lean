import Mathlib.Data.Nat.Basic
import MacOSXInternal.Lstasks.Ledger

/-!
# The totals of `lstasks` in its three modes

Without `-v`, the threads of every task are counted.  With `-v`, a task that the kernel gives no
basic information about is skipped after it has been counted, and its threads are not.

* `totals` are those that are printed, for a choice of tasks and a mode.
* `toStats_foldl` compares what the tasks add up to with `-v` and without.
* `sameTotals_iff` says when the totals are the same.
-/

set_option autoImplicit false

namespace MacOSXInternal
namespace Lstasks

/-! ## The modes -/

inductive Mode
  | neither
  | summary
  | verbose
  deriving DecidableEq

def Mode.opts : Mode → List Opt
  | .neither => []
  | .summary => [.s]
  | .verbose => [.v]

/-- The options of the mode, on top of others. -/
def Mode.set (m : Mode) (o : Options) : Options where
  onetask := o.onetask
  summary := m = .summary
  verbose := m = .verbose

/-- A choice of tasks, by any number of `-p`, and a mode. -/
def commandLine (pids : List (BitVec 32)) (m : Mode) : List Opt := pids.map .p ++ m.opts

def totals (k : Kernel) (pids : List (BitVec 32)) (m : Mode) : Option Stats :=
  (main k (commandLine pids m)).totals

/-- The totals do not depend on the mode. -/
def SameTotals (k : Kernel) (pids : List (BitVec 32)) : Prop :=
  ∀ m, totals k pids m = totals k pids .neither

/-- The threads of the tasks without basic information. -/
def skippedThreads (ts : List Task) : ℕ := ((ts.filter isSkipped).map threadCount).sum

variable {k : Kernel} {pids : List (BitVec 32)} {o : Options} {task_list : OutOfLine Task}

theorem parse_append (l m : List Opt) (o : Options) :
    parse k (l ++ m) o = (parse k l o).bind (parse k m) := by
  induction l generalizing o with
  | nil => rfl
  | cons opt l ih =>
    rw [List.cons_append]
    cases opt with
    | p pid =>
      rw [parse, parse]
      cases k.task_for_pid pid with
      | error kr => rfl
      | ok onetask => exact ih _
    | s => exact ih _
    | v => exact ih _
    | other => rfl

/-- `-p` does not choose a mode. -/
theorem parse_pids {o' : Options} (h : parse k (pids.map .p) o = .ok o') :
    o'.summary = o.summary ∧ o'.verbose = o.verbose := by
  induction pids generalizing o with
  | nil =>
    obtain rfl := Except.ok.inj h
    exact ⟨rfl, rfl⟩
  | cons pid pids ih =>
    rw [List.map_cons, parse] at h
    split at h
    · cases h
    · obtain ⟨hs, hv⟩ := ih h
      exact ⟨hs, hv⟩

theorem parse_mode (m : Mode) (h : parse k (pids.map .p) ⟨0, false, false⟩ = .ok o) :
    parse k (commandLine pids m) ⟨0, false, false⟩ = .ok (m.set o) := by
  obtain ⟨hs, hv⟩ := parse_pids h
  rw [commandLine, parse_append, h]
  obtain ⟨onetask, summary, verbose⟩ := o
  simp only at hs hv
  subst hs hv
  cases m <;> rfl

/-- The mode does not decide whether the tasks are looked at. -/
theorem start_commandLine (k : Kernel) (pids : List (BitVec 32)) (m : Mode) :
    start k (commandLine pids m) = (start k (pids.map .p)).map fun a ↦ (m.set a.1, a.2) := by
  rw [start_eq, start_eq]
  cases h : parse k (pids.map .p) ⟨0, false, false⟩ with
  | error x =>
    rw [commandLine, parse_append, h]
    rfl
  | ok o =>
    obtain ⟨hs, -⟩ := parse_pids h
    rw [parse_mode m h]
    simp only [Except.bind, hs]
    cases m <;> cases hostTasks k <;> rfl

theorem start_of_ok (h : start k (pids.map .p) = .ok (o, task_list)) (m : Mode) :
    start k (commandLine pids m) = .ok (m.set o, task_list) := by
  rw [start_commandLine, h]
  rfl

theorem totals_of_error {x : Outcome} (h : start k (pids.map .p) = .error x) (m : Mode) :
    totals k pids m = none := by
  have hstart : start k (commandLine pids m) = .error x := by
    rw [start_commandLine, h]
    rfl
  rw [totals, main, hstart]
  exact totals_of_start_error hstart

/-! ## The tasks -/

/-- Adding a number of threads. -/
def Stats.addThreads (st : Stats) (n : ℕ) : Stats :=
  { st with stat_thread := st.stat_thread + BitVec.ofNat 32 n }

theorem skippedThreads_cons (t : Task) (ts : List Task) :
    skippedThreads (t :: ts) = (if isSkipped t then threadCount t else 0) + skippedThreads ts := by
  rw [skippedThreads, List.filter_cons]
  cases isSkipped t <;> simp [skippedThreads]

theorem addThreads_add (st : Stats) (m n : ℕ) :
    (st.addThreads m).addThreads n = st.addThreads (m + n) := by
  rw [Stats.addThreads, Stats.addThreads, Stats.addThreads, BitVec.ofNat_add, BitVec.add_assoc]

theorem addThreads_zero (st : Stats) : st.addThreads 0 = st := by
  rw [Stats.addThreads, BitVec.add_zero]

theorem addThreads_eq_self_iff {st : Stats} {n : ℕ} : st.addThreads n = st ↔ 2 ^ 32 ∣ n := by
  have hzero : BitVec.ofNat 32 n = 0 ↔ 2 ^ 32 ∣ n := by
    rw [← BitVec.toNat_inj, BitVec.toNat_ofNat]
    exact (Nat.dvd_iff_mod_eq_zero ..).symm
  rw [← hzero]
  refine ⟨fun h ↦ ?_, fun h ↦ ?_⟩
  · have hthread : st.stat_thread + BitVec.ofNat 32 n = st.stat_thread :=
      congrArg Stats.stat_thread h
    simpa using hthread
  · rw [Stats.addThreads, h]
    exact congrArg _ (BitVec.add_zero _)

/-- What is counted of a task itself. -/
def Stats.count (st : Stats) (t : Task) : Stats :=
  { st with
    stat_task := st.stat_task + 1
    stat_proc := if isBsd t then st.stat_proc + 1 else st.stat_proc
    stat_cpm := if status t = noErr then st.stat_cpm + 1 else st.stat_cpm }

theorem toStats_task (verbose : Bool) (t : Task) (l : Ledger) :
    (l.task verbose t).toStats =
      (l.toStats.count t).addThreads (if verbose && isSkipped t then 0 else threadCount t) := by
  rw [Ledger.task]
  split
  · exact (addThreads_zero _).symm
  · rfl

theorem count_addThreads (st : Stats) (n : ℕ) (t : Task) :
    (st.addThreads n).count t = (st.count t).addThreads n := rfl

/-- One task, with `-v` and without. -/
theorem toStats_task_neither {l l' : Ledger} {n : ℕ} (h : l.toStats = l'.toStats.addThreads n)
    (t : Task) :
    (l.task false t).toStats =
      (l'.task true t).toStats.addThreads (n + if isSkipped t then threadCount t else 0) := by
  rw [toStats_task, toStats_task, h, count_addThreads, addThreads_add, addThreads_add]
  cases isSkipped t
  · exact congrArg _ (Nat.add_comm ..)
  · exact congrArg _ (Nat.zero_add _).symm

/-- **Without `-v`, the threads of the tasks that are skipped are counted as well**, and nothing
else. -/
theorem toStats_foldl {l l' : Ledger} {n : ℕ} (h : l.toStats = l'.toStats.addThreads n)
    (ts : List Task) :
    (ts.foldl (fun l t ↦ l.task false t) l).toStats =
      (ts.foldl (fun l t ↦ l.task true t) l').toStats.addThreads (n + skippedThreads ts) := by
  induction ts generalizing l l' n with
  | nil => simpa [skippedThreads] using h
  | cons t ts ih =>
    rw [List.foldl_cons, List.foldl_cons, skippedThreads_cons, ← Nat.add_assoc]
    exact ih (toStats_task_neither h t)

/-! ## The totals -/

/-- The totals of a run that comes to its end. -/
theorem totals_of_defined {m : Mode} (h : start k (pids.map .p) = .ok (o, task_list))
    (hdef : ∀ t ∈ examined o k.mytask task_list.elements, m = .verbose → Defined t) :
    totals k pids m = some (closingLedger (m.set o) k.mytask task_list).toStats := by
  have hdef' : ∀ t ∈ examined (m.set o) k.mytask task_list.elements,
      (m.set o).verbose → Defined t :=
    fun t ht hv ↦ hdef t ht (of_decide_eq_true hv)
  obtain ⟨s, hmain, hledger⟩ := finished_of_start (start_of_ok h m) hdef'
  rw [totals, hmain, Outcome.totals, hledger]

/-- With `-v`, the totals are printed only if all that has to be printed before is there. -/
theorem defined_of_totals (h : start k (pids.map .p) = .ok (o, task_list))
    (htotals : (totals k pids .verbose).isSome) :
    ∀ t ∈ examined o k.mytask task_list.elements, Defined t := by
  rw [totals] at htotals
  cases hmain : main k (commandLine pids .verbose) with
  | finished s =>
    exact defined_of_finished (o := Mode.verbose.set o) (start_of_ok h .verbose) hmain rfl
  | usage => simp [hmain, Outcome.totals] at htotals
  | failed msg => simp [hmain, Outcome.totals] at htotals
  | undefined => simp [hmain, Outcome.totals] at htotals

/-- The totals with `-v`, and those without. -/
theorem closingLedger_neither (o : Options) (mytask : Port) (task_list : OutOfLine Task) :
    (closingLedger (Mode.neither.set o) mytask task_list).toStats =
      (closingLedger (Mode.verbose.set o) mytask task_list).toStats.addThreads
        (skippedThreads (examined o mytask task_list.elements)) := by
  have h := toStats_foldl (addThreads_zero (openingLedger task_list).toStats).symm
    (examined o mytask task_list.elements)
  rwa [Nat.zero_add] at h

/-- **The totals are the same** exactly when, with `-v`, all that has to be printed is there, and
the tasks that are skipped have no threads, up to what a counter can count. -/
theorem sameTotals_iff (k : Kernel) (pids : List (BitVec 32)) :
    SameTotals k pids ↔ ∀ o task_list, start k (pids.map .p) = .ok (o, task_list) →
      (∀ t ∈ examined o k.mytask task_list.elements, Defined t) ∧
      2 ^ 32 ∣ skippedThreads (examined o k.mytask task_list.elements) := by
  cases hstart : start k (pids.map .p) with
  | error x =>
    refine iff_of_true ?_ ?_
    · intro m
      rw [totals_of_error hstart m, totals_of_error hstart .neither]
    · intro o task_list h
      cases h
  | ok answer =>
    obtain ⟨o, task_list⟩ := answer
    have hplain := totals_of_defined (m := .neither) hstart (by simp)
    refine ⟨fun hsame o' task_list' h ↦ ?_, fun h m ↦ ?_⟩
    · obtain ⟨rfl, rfl⟩ := Prod.mk.inj (Except.ok.inj h)
      have hverbose := hsame .verbose
      have hdef := defined_of_totals hstart (by rw [hverbose, hplain]; rfl)
      refine ⟨hdef, ?_⟩
      rw [hplain, totals_of_defined hstart fun t ht _ ↦ hdef t ht,
        closingLedger_neither] at hverbose
      exact addThreads_eq_self_iff.mp (Option.some.inj hverbose).symm
    · obtain ⟨hdef, hdvd⟩ := h o task_list rfl
      rw [hplain]
      cases m with
      | neither => exact hplain
      | summary => exact totals_of_defined hstart (by simp)
      | verbose =>
        rw [totals_of_defined hstart fun t ht _ ↦ hdef t ht, closingLedger_neither]
        exact congrArg some (addThreads_eq_self_iff.mpr hdvd).symm

/-- A task that there is no basic information about, with a thread. -/
def silentTask (port : Port) : Task where
  port := port
  pid_for_task := (KERN_SUCCESS, 300)
  kp_comm := some "sh"
  getProcessForPID := (procNotFound, 0, 0)
  copyProcessName := none
  basic_info := .error 5
  task_policy_get := .error 5
  task_threads := .ok ⟨0x2000, [⟨3, .error 5, .error 5, .error 5, .error 5⟩]⟩

/-- A kernel with such a task beside `lstasks`. -/
def silentKernel : Kernel where
  mytask := 1
  task_for_pid _ := .error 5
  processor_set_default := KERN_SUCCESS
  host_processor_set_priv := KERN_SUCCESS
  processor_set_tasks := .ok ⟨0x1000, [silentTask 1, silentTask 2]⟩

/-- **With `-v`, its thread is not counted.** -/
theorem not_sameTotals_silentKernel : ¬ SameTotals silentKernel [] := by
  intro h
  exact absurd (h .verbose) (by decide)

end Lstasks
end MacOSXInternal
