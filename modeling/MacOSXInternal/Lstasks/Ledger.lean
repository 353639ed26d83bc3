import MacOSXInternal.Lstasks.Program

/-!
# What `lstasks` counts

Printing aside, `lstasks` counts tasks and threads, and has arrays mapped and deallocated.  Of its
options, this depends on `-v` alone.

* `Ledger.task` is what a task adds, without what is printed of it.
* `Defined` is when what is printed of it can be.
* `task_eq` and `tasks_eq` say that the program keeps this ledger, for a task and for all of them,
  and `defined_of_tasks` that `-v` needs all of it to be defined.
* `finished_of_start` and `defined_of_finished` are about the program around the loop.
-/

set_option autoImplicit false

namespace MacOSXInternal
namespace Lstasks

/-! ## The ledger -/

def threadCount (t : Task) : ℕ :=
  match t.task_threads with
  | .error _ => 0
  | .ok thread_list => thread_list.elements.length

def threadRegions (t : Task) : List Region :=
  match t.task_threads with
  | .error _ => []
  | .ok thread_list => thread_list.regions

/-- There is no basic information about the task. -/
def isSkipped (t : Task) : Bool := !t.basic_info.isOk

namespace Ledger

variable (verbose : Bool) (t : Task) (l : Ledger)

/-- The task is counted, as what it is. -/
def count : Ledger :=
  { l with
    stat_task := l.stat_task + 1
    stat_proc := if isBsd t then l.stat_proc + 1 else l.stat_proc
    stat_cpm := if status t = noErr then l.stat_cpm + 1 else l.stat_cpm }

/-- Its threads are counted, out of an array that is deallocated with `-v`. -/
def threads : Ledger :=
  { l with
    stat_thread := l.stat_thread + BitVec.ofNat 32 (threadCount t)
    mapped := l.mapped ++ threadRegions t
    deallocated := if verbose then l.deallocated ++ threadRegions t else l.deallocated }

/-- With `-v`, the threads are not looked at if the task is skipped. -/
def task : Ledger :=
  if verbose && isSkipped t then l.count t else (l.count t).threads verbose t

end Ledger

/-- What is printed of the task with `-v` is there. -/
structure Defined (t : Task) : Prop where
  name : status t = noErr → t.copyProcessName.isSome
  policy : ∀ policy, t.basic_info = .ok policy → policy.toInt < thread_policies.length

/-- The tasks that are looked at. -/
def examined (o : Options) (mytask : Port) (ts : List Task) : List Task :=
  ts.filter fun t ↦ !ignored o mytask t

/-! ## A task -/

variable {o : Options} {i : ℕ} {t : Task} {s s' : State}

@[simp] theorem toLedger_print (o : Options) (s : State) (x : Output) :
    (s.print o x).toLedger = s.toLedger := by
  rw [State.print]
  split <;> rfl

@[simp] theorem toLedger_error (s : State) (text : String) (kr : BitVec 32) :
    (s.error text kr).toLedger = s.toLedger := rfl

theorem showThread_isSome (count j : ℕ) (th : Thread) : (showThread count j th).isSome := by
  rw [showThread]
  split
  · rfl
  case h_2 info _ =>
    have h : shownState 0 info.run_state = some _ := stateShown 0 info.run_state
    rw [Option.isSome_map, h]
    rfl

theorem showThreads_isSome (count j : ℕ) (ths : List Thread) :
    (showThreads count j ths).isSome := by
  induction ths generalizing j with
  | nil => rfl
  | cons th ths ih =>
    obtain ⟨x, hx⟩ := Option.isSome_iff_exists.mp (showThread_isSome count j th)
    rw [showThreads, hx, Option.bind_some, Option.isSome_map]
    exact ih (j + 1)

/-- The threads of a task. -/
theorem doThreads_eq (o : Options) (t : Task) (s : State) :
    ∃ s', doThreads o t s = some s' ∧ s'.toLedger = s.toLedger.threads o.verbose t := by
  rw [Ledger.threads, threadCount, threadRegions]
  cases h : t.task_threads with
  | error kr =>
    refine ⟨s.error "task_threads() failed" kr, by rw [doThreads, h], ?_⟩
    simp
  | ok thread_list =>
    obtain ⟨x, hx⟩ := Option.isSome_iff_exists.mp
      (showThreads_isSome thread_list.elements.length 0 thread_list.elements)
    cases hv : o.verbose with
    | false => exact ⟨_, by simp only [doThreads, h, hv]; rfl, by simp⟩
    | true => exact ⟨_, by simp only [doThreads, h, hv, hx]; rfl, by simp⟩

/-- What is counted of a task before it is described. -/
theorem toLedger_count (o : Options) (i : ℕ) (t : Task) (s : State) :
    (Lstasks.count o i t s).toLedger =
      { s.toLedger with
        stat_task := s.stat_task + 1
        stat_proc := if isBsd t then s.stat_proc + 1 else s.stat_proc } := by
  rw [Lstasks.count]
  cases h : isBsd t <;> simp

theorem carbon_count_eq (o : Options) (i : ℕ) (t : Task) (s : State)
    (hname : o.verbose → status t = noErr → t.copyProcessName.isSome) :
    ∃ s', carbon o t (Lstasks.count o i t s) = some s' ∧ s'.toLedger = s.toLedger.count t := by
  have hcount := toLedger_count o i t s
  generalize Lstasks.count o i t s = s₁ at hcount
  rw [carbon, Ledger.count]
  by_cases hstatus : status t = noErr
  · rw [if_pos hstatus, if_pos hstatus]
    cases hv : o.verbose with
    | false => exact ⟨_, rfl, by simp [hcount]⟩
    | true =>
      obtain ⟨name, h⟩ := Option.isSome_iff_exists.mp (hname hv hstatus)
      exact ⟨_, by rw [if_pos rfl, h, Option.map_some], by simp [hcount]⟩
  · rw [if_neg hstatus, if_neg hstatus]
    exact ⟨_, rfl, by simp [hcount]⟩

theorem describeRole_eq (o : Options) (t : Task) (s : State) :
    ∃ s', describeRole o t s = some s' ∧ s'.toLedger = s.toLedger := by
  rw [describeRole]
  split
  · exact ⟨s, rfl, rfl⟩
  split
  · exact ⟨_, rfl, toLedger_print ..⟩
  split
  · exact ⟨s, rfl, rfl⟩
  case h_2 name hrole =>
    obtain ⟨name, rfl⟩ := Option.isSome_iff_exists.mp (shownRole_eq_some hrole)
    exact ⟨_, rfl, toLedger_print ..⟩

theorem describe_of_error (o : Options) {t : Task} {kr : BitVec 32} (h : t.basic_info = .error kr)
    (s : State) : ∃ s', describe o t s = some (.inl s') ∧ s'.toLedger = s.toLedger :=
  ⟨s.error "*** TASK_BASIC_INFO failed" kr, by rw [describe, h], toLedger_error ..⟩

theorem describe_of_ok (o : Options) {t : Task} {policy : BitVec 32} (h : t.basic_info = .ok policy)
    (hpolicy : policy.toInt < thread_policies.length) (s : State) :
    ∃ s', describe o t s = some (.inr s') ∧ s'.toLedger = s.toLedger := by
  obtain ⟨name, hname⟩ := Option.isSome_iff_exists.mp (shownPolicy_isSome_iff (e := 0).mpr hpolicy)
  obtain ⟨s', hrole, hs'⟩ :=
    describeRole_eq o t (s.print o (.defaultPolicy (resetPolicy 0 policy) name))
  refine ⟨s', ?_, by rw [hs', toLedger_print]⟩
  rw [describe, h]
  simp only [hname, Option.bind_some, hrole, Option.map_some]

/-- **A task adds to the ledger what it should.** -/
theorem task_eq (o : Options) (i : ℕ) {t : Task} (h : o.verbose → Defined t) (s : State) :
    ∃ s', task o i t s = some s' ∧ s'.toLedger = s.toLedger.task o.verbose t := by
  obtain ⟨s₁, hs₁, hcount⟩ := carbon_count_eq o i t s fun hv ↦ (h hv).name
  rw [task, hs₁, Option.bind_some, Ledger.task, ← hcount]
  cases hv : o.verbose with
  | false =>
    obtain ⟨s₂, hs₂, hthreads⟩ := doThreads_eq o t s₁
    rw [hv] at hthreads
    exact ⟨s₂, hs₂, hthreads⟩
  | true =>
    cases hinfo : t.basic_info with
    | error kr =>
      obtain ⟨s₂, hs₂, hsame⟩ := describe_of_error o hinfo s₁
      refine ⟨s₂, by simp [hs₂], ?_⟩
      rw [isSkipped, hinfo]
      exact hsame
    | ok policy =>
      obtain ⟨s₂, hs₂, hsame⟩ := describe_of_ok o hinfo ((h hv).policy policy hinfo) s₁
      obtain ⟨s₃, hs₃, hthreads⟩ := doThreads_eq o t s₂
      rw [hv, hsame] at hthreads
      refine ⟨s₃, by simp [hs₂, hs₃], ?_⟩
      rw [isSkipped, hinfo]
      exact hthreads

/-- **With `-v`, what is printed of a task has to be there.** -/
theorem defined_of_task {o : Options} (hv : o.verbose) {i : ℕ} {t : Task} {s : State}
    (h : (task o i t s).isSome) : Defined t := by
  rw [task] at h
  refine ⟨?_, ?_⟩
  · intro hstatus
    rw [carbon, if_pos hstatus, if_pos hv] at h
    cases hname : t.copyProcessName with
    | none => simp [hname] at h
    | some name => rfl
  · intro policy hinfo
    cases hcarbon : carbon o t (Lstasks.count o i t s) with
    | none => simp [hcarbon] at h
    | some s₁ =>
      rw [← shownPolicy_isSome_iff (e := 0)]
      cases hname : shownPolicy 0 policy with
      | none => simp [hcarbon, hv, describe, hinfo, hname] at h
      | some name => rfl

/-! ## All tasks -/

theorem examined_cons (o : Options) (mytask : Port) (t : Task) (ts : List Task) :
    examined o mytask (t :: ts) =
      if ignored o mytask t then examined o mytask ts else t :: examined o mytask ts := by
  rw [examined, List.filter_cons, examined]
  cases ignored o mytask t <;> rfl

/-- **All of them add up.** -/
theorem tasks_eq (o : Options) (mytask : Port) {ts : List Task}
    (h : ∀ t ∈ examined o mytask ts, o.verbose → Defined t) (i : ℕ) (s : State) :
    ∃ s', tasks o mytask i ts s = some s' ∧
      s'.toLedger = (examined o mytask ts).foldl (fun l t ↦ l.task o.verbose t) s.toLedger := by
  induction ts generalizing i s with
  | nil => exact ⟨s, rfl, rfl⟩
  | cons t ts ih =>
    rw [examined_cons] at h ⊢
    rw [tasks]
    by_cases hig : ignored o mytask t
    · rw [if_pos hig] at h ⊢
      rw [if_pos hig]
      exact ih h (i + 1) s
    · rw [if_neg hig] at h ⊢
      rw [if_neg hig, List.foldl_cons]
      rw [List.forall_mem_cons] at h
      obtain ⟨s₁, hs₁, hledger⟩ := task_eq o i h.1 s
      rw [hs₁, Option.bind_some, ← hledger]
      exact ih h.2 (i + 1) s₁

theorem defined_of_tasks {o : Options} (hv : o.verbose) {mytask : Port} {ts : List Task} {i : ℕ}
    {s : State} (h : (tasks o mytask i ts s).isSome) : ∀ t ∈ examined o mytask ts, Defined t := by
  induction ts generalizing i s with
  | nil => simp [examined]
  | cons t ts ih =>
    rw [tasks] at h
    rw [examined_cons]
    by_cases hig : ignored o mytask t
    · rw [if_pos hig] at h ⊢
      exact ih h
    · rw [if_neg hig] at h ⊢
      cases ht : task o i t s with
      | none => simp [ht] at h
      | some s₁ =>
        rw [ht, Option.bind_some] at h
        rw [List.forall_mem_cons]
        exact ⟨defined_of_task hv (by rw [ht]; rfl), ih h⟩

/-! ## The program -/

/-- The ledger in front of the loop. -/
def openingLedger (task_list : OutOfLine Task) : Ledger := ⟨⟨0, 0, 0, 0⟩, task_list.regions, []⟩

/-- The ledger behind the loop. -/
def closingLedger (o : Options) (mytask : Port) (task_list : OutOfLine Task) : Ledger :=
  (examined o mytask task_list.elements).foldl (fun l t ↦ l.task o.verbose t)
    (openingLedger task_list)

theorem toLedger_begin (o : Options) (task_list : OutOfLine Task) :
    (begin o task_list).toLedger = openingLedger task_list := by
  rw [begin]
  cases o.verbose <;> simp [openingLedger]

theorem toLedger_finish (o : Options) (task_list : OutOfLine Task) (s : State) :
    (finish o task_list s).toLedger =
      { s.toLedger with deallocated := s.deallocated ++ task_list.regions } := by
  simp [finish]

variable {k : Kernel} {opts : List Opt} {task_list : OutOfLine Task}

/-- **The program keeps the ledger to its end.** -/
theorem finished_of_start (h : start k opts = .ok (o, task_list))
    (hdef : ∀ t ∈ examined o k.mytask task_list.elements, o.verbose → Defined t) :
    ∃ s, main k opts = .finished s ∧
      s.toLedger = { closingLedger o k.mytask task_list with
        deallocated := (closingLedger o k.mytask task_list).deallocated ++ task_list.regions } := by
  obtain ⟨s, hs, hledger⟩ := tasks_eq o k.mytask hdef 0 (begin o task_list)
  rw [toLedger_begin] at hledger
  refine ⟨finish o task_list s, by rw [main, h]; simp only [hs], ?_⟩
  rw [toLedger_finish, hledger]
  rfl

/-- **It comes to its end only if all that it prints is defined.** -/
theorem defined_of_finished {s : State} (h : start k opts = .ok (o, task_list))
    (hmain : main k opts = .finished s) (hv : o.verbose) :
    ∀ t ∈ examined o k.mytask task_list.elements, Defined t := by
  refine defined_of_tasks (i := 0) (s := begin o task_list) hv ?_
  rw [main, h] at hmain
  simp only at hmain
  cases htasks : tasks o k.mytask 0 task_list.elements (begin o task_list) with
  | none => simp [htasks] at hmain
  | some s' => rfl

theorem totals_of_parse_error {o : Options} {x : Outcome} (h : parse k opts o = .error x) :
    x.totals = none := by
  induction opts generalizing o with
  | nil => cases h
  | cons opt opts ih =>
    cases opt with
    | p pid =>
      rw [parse] at h
      split at h
      · cases h
        rfl
      · exact ih h
    | s => exact ih h
    | v => exact ih h
    | other =>
      cases h
      rfl

theorem totals_of_hostTasks_error {x : Outcome} (h : hostTasks k = .error x) : x.totals = none := by
  rw [hostTasks] at h
  split at h
  · cases h
    rfl
  split at h
  · cases h
    rfl
  split at h
  · cases h
    rfl
  · cases h

theorem start_eq (k : Kernel) (opts : List Opt) :
    start k opts = (parse k opts ⟨0, false, false⟩).bind fun o ↦
      if o.summary && o.verbose then .error .usage else (hostTasks k).map fun a ↦ (o, a) := by
  rw [start]
  cases parse k opts ⟨0, false, false⟩ with
  | error x => rfl
  | ok o =>
    cases hostTasks k <;> rfl

/-- A program that does not come to the loop prints no totals. -/
theorem totals_of_start_error {x : Outcome} (h : start k opts = .error x) : x.totals = none := by
  rw [start_eq] at h
  cases hp : parse k opts ⟨0, false, false⟩ with
  | error y =>
    rw [hp] at h
    cases h
    exact totals_of_parse_error hp
  | ok o =>
    rw [hp] at h
    simp only [Except.bind] at h
    split at h
    · cases h
      rfl
    · cases hh : hostTasks k with
      | error y =>
        rw [hh] at h
        cases h
        exact totals_of_hostTasks_error hh
      | ok a =>
        rw [hh] at h
        cases h

end Lstasks
end MacOSXInternal
