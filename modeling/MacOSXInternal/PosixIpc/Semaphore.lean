import Mathlib.Algebra.Order.Ring.Int
import Mathlib.Data.Finset.Card
import MacOSXInternal.Lib.Names
import MacOSXInternal.Lib.Runs

/-!
# POSIX semaphores

`sem_create` makes a semaphore under a name, `sem_post` and `sem_wait` open one by its name and do
what they are called after, and `sem_unlink` removes a name.  Any number of them may run at the same
time.  `sem_wait` says that it was successful whether or not it was, and exits with what the call
returned.

* `Step` is a call of a program.
* `Balanced` is the account of a semaphore: what it was made with and what has been posted is what
  has been taken and what is left.
* `account` is the result, for every semaphore and every order of the calls.
-/

set_option autoImplicit false

namespace MacOSXInternal
namespace PosixSem

open Runs Names

/-! ## The programs -/

/-- A program with its arguments; the value is what `atoi` makes of it. -/
inductive Program (κ : Type)
  | sem_create (path : κ) (value : ℤ)
  | sem_post (path : κ)
  | sem_wait (path : κ)
  | sem_unlink (path : κ)

/-- From `<limits.h>`. -/
def SEM_VALUE_MAX : ℤ := 32767

/-- Where a program is. -/
inductive Phase (ι : Type)
  /-- About to call `sem_open` or `sem_unlink`. -/
  | opening
  /-- Has the semaphore open, and is about to call `sem_post` or `sem_wait`. -/
  | opened (o : ι)
  /-- Has done so, with this result, and exited with it. -/
  | closed (o : ι) (ret : ℤ)
  | exited (status : ℤ)
  deriving DecidableEq

structure State (κ ι : Type) where
  names : Space κ ι
  /-- The value of each semaphore, by creator. -/
  count : ι → ℤ
  phase : ι → Phase ι
  /-- The lines printed. -/
  out : ι → List String

def start (κ ι : Type) : State κ ι := ⟨empty κ ι, fun _ ↦ 0, fun _ ↦ .opening, fun _ ↦ []⟩

variable {κ ι : Type} [DecidableEq ι]

/-- Program `i` goes on. -/
def State.goto (s : State κ ι) (i : ι) (phase : Phase ι) : State κ ι :=
  { s with phase := Function.update s.phase i phase }

/-- Program `i` prints a line. -/
def State.print (s : State κ ι) (i : ι) (line : String) : State κ ι :=
  { s with out := Function.update s.out i (s.out i ++ [line]) }

/-- The value of semaphore `o` changes. -/
def State.add (s : State κ ι) (o : ι) (d : ℤ) : State κ ι :=
  { s with count := Function.update s.count o (s.count o + d) }

/-- A call of program `i`, with what it does until the next. -/
inductive Step [DecidableEq κ] (program : ι → Program κ) : State κ ι → ι → State κ ι → Prop
  | create {s : State κ ι} {i : ι} {path : κ} {value : ℤ} (h : s.phase i = .opening)
      (hi : program i = .sem_create path value) (hfree : s.names path = none) (hlow : 0 ≤ value)
      (hhigh : value ≤ SEM_VALUE_MAX) :
      Step program s i
        { s.goto i (.exited 0) with
          names := bind s.names path i
          count := Function.update s.count i value }
  /-- `sem_open` fails. -/
  | openFails {s : State κ ι} {i : ι} (h : s.phase i = .opening)
      (hi : ∀ path, program i ≠ .sem_unlink path) : Step program s i (s.goto i (.exited 1))
  | opens {s : State κ ι} {i o : ι} {path : κ} (h : s.phase i = .opening)
      (hi : program i = .sem_post path ∨ program i = .sem_wait path)
      (ho : s.names path = some o) : Step program s i (s.goto i (.opened o))
  | post {s : State κ ι} {i o : ι} {path : κ} (h : s.phase i = .opened o)
      (hi : program i = .sem_post path) :
      Step program s i ((s.goto i (.closed o 0)).add o 1)
  | postFails {s : State κ ι} {i o : ι} {path : κ} (h : s.phase i = .opened o)
      (hi : program i = .sem_post path) : Step program s i (s.goto i (.closed o (-1)))
  | wait {s : State κ ι} {i o : ι} {path : κ} (h : s.phase i = .opened o)
      (hi : program i = .sem_wait path) (hpos : 0 < s.count o) :
      Step program s i (((s.goto i (.closed o 0)).print i "successful").add o (-1))
  | waitFails {s : State κ ι} {i o : ι} {path : κ} (h : s.phase i = .opened o)
      (hi : program i = .sem_wait path) :
      Step program s i ((s.goto i (.closed o (-1))).print i "successful")
  | unlink {s : State κ ι} {i : ι} {path : κ} (h : s.phase i = .opening)
      (hi : program i = .sem_unlink path) (hbound : (s.names path).isSome) :
      Step program s i { s.goto i (.exited 0) with names := Names.unlink s.names path }
  | unlinkFails {s : State κ ι} {i : ι} {path : κ} (h : s.phase i = .opening)
      (hi : program i = .sem_unlink path) : Step program s i (s.goto i (.exited (-1)))

/-! ## The account -/

section
variable (program : ι → Program κ)

omit [DecidableEq ι] in
/-- The program has made a semaphore under `path` with `value`. -/
def Created (s : State κ ι) (path : κ) (value : ℤ) (o : ι) : Prop :=
  program o = .sem_create path value ∧ s.phase o = .exited 0

/-- The account of semaphore `o`, which was made with `value`: who has posted it, and who has got
past waiting for it. -/
structure Balanced (s : State κ ι) (o : ι) (value : ℤ) (posts waits : Finset ι) : Prop where
  mem_posts : ∀ i, i ∈ posts ↔ (∃ path, program i = .sem_post path) ∧ s.phase i = .closed o 0
  mem_waits : ∀ i, i ∈ waits ↔ (∃ path, program i = .sem_wait path) ∧ s.phase i = .closed o 0
  sum : s.count o + waits.card = value + posts.card
  nonneg : 0 ≤ s.count o

/-- What a program has printed. -/
def printed (program : Program κ) : Phase ι → List String
  | .closed _ _ =>
    match program with
    | .sem_wait _ => ["successful"]
    | _ => []
  | _ => []

structure Inv (s : State κ ι) : Prop where
  names : Holds (fun path o ↦ ∃ value, Created program s path value o) s.names
  opened : ∀ i o, s.phase i = .opened o ∨ (∃ ret, s.phase i = .closed o ret) →
    ∃ path value, (program i = .sem_post path ∨ program i = .sem_wait path) ∧
      Created program s path value o
  balanced : ∀ o path value, Created program s path value o →
    ∃ posts waits, Balanced program s o value posts waits
  out : ∀ i, s.out i = printed (program i) (s.phase i)

end

section
variable {program : ι → Program κ} {s t : State κ ι} {i o : ι} {path : κ} {value : ℤ}
  {posts waits : Finset ι}

omit [DecidableEq ι] in
/-- Another semaphore, or a step that does not close one. -/
theorem Balanced.congr (h : Balanced program s o value posts waits) (hcount : t.count o = s.count o)
    (hphase : ∀ j, t.phase j = .closed o 0 ↔ s.phase j = .closed o 0) :
    Balanced program t o value posts waits where
  mem_posts j := by rw [h.mem_posts, hphase]
  mem_waits j := by rw [h.mem_waits, hphase]
  sum := by rw [hcount, h.sum]
  nonneg := by rw [hcount]; exact h.nonneg

theorem Balanced.post (h : Balanced program s o value posts waits) (hi : program i = .sem_post path)
    (hphase : s.phase i ≠ .closed o 0) :
    Balanced program ((s.goto i (.closed o 0)).add o 1) o value (insert i posts) waits where
  mem_posts j := by
    by_cases hj : j = i
    · simp [State.add, State.goto, hj, hi]
    · simp [State.add, State.goto, hj, h.mem_posts]
  mem_waits j := by
    by_cases hj : j = i
    · simp [State.add, State.goto, hj, hi, h.mem_waits]
    · simp [State.add, State.goto, hj, h.mem_waits]
  sum := by
    have hnew : i ∉ posts := fun hmem ↦ hphase ((h.mem_posts i).mp hmem).2
    have hsum := h.sum
    rw [Finset.card_insert_of_notMem hnew]
    simp [State.add, State.goto]
    omega
  nonneg := by
    have hnonneg := h.nonneg
    simp [State.add, State.goto]
    omega

theorem Balanced.wait (h : Balanced program s o value posts waits) (hi : program i = .sem_wait path)
    (hphase : s.phase i ≠ .closed o 0) (hpos : 0 < s.count o) (line : String) :
    Balanced program (((s.goto i (.closed o 0)).print i line).add o (-1)) o value posts
      (insert i waits) where
  mem_posts j := by
    by_cases hj : j = i
    · simp [State.add, State.goto, State.print, hj, hi, h.mem_posts]
    · simp [State.add, State.goto, State.print, hj, h.mem_posts]
  mem_waits j := by
    by_cases hj : j = i
    · simp [State.add, State.goto, State.print, hj, hi]
    · simp [State.add, State.goto, State.print, hj, h.mem_waits]
  sum := by
    have hnew : i ∉ waits := fun hmem ↦ hphase ((h.mem_waits i).mp hmem).2
    have hsum := h.sum
    rw [Finset.card_insert_of_notMem hnew]
    simp [State.add, State.goto, State.print]
    omega
  nonneg := by
    simp [State.add, State.goto, State.print]
    omega

/-! ## One step -/

/-- A program that is not done. -/
def Phase.Busy : Phase ι → Prop
  | .opening | .opened _ => True
  | .closed _ _ | .exited _ => False

/-- A program goes on, and semaphores that have been made stay made. -/
theorem Created.step {phase : Phase ι} (h : Created program s path value o) (hi : (s.phase i).Busy)
    (hphase : t.phase = Function.update s.phase i phase) : Created program t path value o := by
  have hne : o ≠ i := by
    rintro rfl
    rw [h.2] at hi
    exact hi
  exact ⟨h.1, by rw [hphase, Function.update_of_ne hne, h.2]⟩

theorem Created.of_step {phase : Phase ι} (h : Created program t path value o)
    (hphase : t.phase = Function.update s.phase i phase) (hne : o ≠ i) :
    Created program s path value o :=
  ⟨h.1, by rw [← h.2, hphase, Function.update_of_ne hne]⟩

/-- What is common to all steps. -/
theorem Inv.of_step (h : Inv program s) {phase : Phase ι} (hi : (s.phase i).Busy)
    (hphase : t.phase = Function.update s.phase i phase)
    (hnames : Holds (fun path o ↦ ∃ value, Created program t path value o) t.names)
    (hopened : ∀ o, phase = .opened o ∨ (∃ ret, phase = .closed o ret) →
      ∃ path value, (program i = .sem_post path ∨ program i = .sem_wait path) ∧
        Created program s path value o)
    (hself : ∀ path value, Created program t path value i →
      ∃ posts waits, Balanced program t i value posts waits)
    (hothers : ∀ o path value, Created program s path value o →
      ∃ posts waits, Balanced program t o value posts waits)
    (hout : t.out = Function.update s.out i (printed (program i) phase)) : Inv program t where
  names := hnames
  opened j o hj := by
    rw [hphase] at hj
    by_cases hji : j = i
    · subst hji
      rw [Function.update_self] at hj
      obtain ⟨path, value, hprogram, hcreated⟩ := hopened o hj
      exact ⟨path, value, hprogram, hcreated.step hi hphase⟩
    · rw [Function.update_of_ne hji] at hj
      obtain ⟨path, value, hprogram, hcreated⟩ := h.opened j o hj
      exact ⟨path, value, hprogram, hcreated.step hi hphase⟩
  balanced o path value ho := by
    by_cases hoi : o = i
    · subst hoi
      exact hself path value ho
    · exact hothers o path value (ho.of_step hphase hoi)
  out j := by
    rw [hout, hphase]
    by_cases hji : j = i
    · rw [hji, Function.update_self, Function.update_self]
    · rw [Function.update_of_ne hji, Function.update_of_ne hji, h.out]

/-- A step that moves no permit. -/
theorem Inv.quiet (h : Inv program s) {phase : Phase ι} (hi : (s.phase i).Busy)
    (hphase : t.phase = Function.update s.phase i phase) (hcount : t.count = s.count)
    (hnames : ∀ P, Holds P s.names → Holds P t.names)
    (hopened : ∀ o, phase = .opened o ∨ (∃ ret, phase = .closed o ret) →
      ∃ path value, (program i = .sem_post path ∨ program i = .sem_wait path) ∧
        Created program s path value o)
    (hnew : phase = .exited 0 → ∀ path value, program i ≠ .sem_create path value)
    (hclosed : ∀ o, phase ≠ .closed o 0)
    (hout : t.out = Function.update s.out i (printed (program i) phase)) : Inv program t := by
  have hself : t.phase i = phase := by rw [hphase, Function.update_self]
  refine h.of_step hi hphase ?_ hopened (fun path value ho ↦ ?_) (fun o path value ho ↦ ?_) hout
  · refine hnames _ fun path o hname ↦ ?_
    obtain ⟨value, hcreated⟩ := h.names path o hname
    exact ⟨value, hcreated.step hi hphase⟩
  · exact absurd ho.1 (hnew (hself.symm.trans ho.2) path value)
  · obtain ⟨posts, waits, hbalanced⟩ := h.balanced o path value ho
    refine ⟨posts, waits, hbalanced.congr (by rw [hcount]) fun j ↦ ?_⟩
    by_cases hji : j = i
    · subst hji
      rw [hself]
      refine iff_of_false (hclosed o) fun hj ↦ ?_
      rw [hj] at hi
      exact hi
    · rw [hphase, Function.update_of_ne hji]

/-- A step that moves a permit of semaphore `o`. -/
theorem Inv.permit (h : Inv program s) (hi : s.phase i = .opened o)
    (hphase : t.phase = Function.update s.phase i (.closed o 0)) (hnames : t.names = s.names)
    (hcount : ∀ o' ≠ o, t.count o' = s.count o')
    (hbalanced : ∀ value posts waits, Balanced program s o value posts waits →
      ∃ posts waits, Balanced program t o value posts waits)
    (hout : t.out = Function.update s.out i (printed (program i) (.closed o 0))) :
    Inv program t := by
  have hbusy : (s.phase i).Busy := by
    rw [hi]
    trivial
  have hself : t.phase i = .closed o 0 := by rw [hphase, Function.update_self]
  refine h.of_step hbusy hphase ?_ (fun o' ho' ↦ ?_) (fun path value ho ↦ ?_)
    (fun o' path value ho' ↦ ?_) hout
  · rw [hnames]
    intro path o hname
    obtain ⟨value, hcreated⟩ := h.names path o hname
    exact ⟨value, hcreated.step hbusy hphase⟩
  · obtain hopened | ⟨ret, hclosed⟩ := ho'
    · exact absurd hopened nofun
    · obtain ⟨rfl, -⟩ := Phase.closed.inj hclosed
      exact h.opened i o (.inl hi)
  · exact absurd (hself.symm.trans ho.2) nofun
  · obtain ⟨posts, waits, hbal⟩ := h.balanced o' path value ho'
    by_cases ho : o' = o
    · subst ho
      exact hbalanced value posts waits hbal
    · refine ⟨posts, waits, hbal.congr (hcount o' ho) fun j ↦ ?_⟩
      by_cases hji : j = i
      · subst hji
        rw [hself, hi]
        simp [Ne.symm ho]
      · rw [hphase, Function.update_of_ne hji]

theorem Inv.create [DecidableEq κ] (h : Inv program s) (hopening : s.phase i = .opening)
    (hi : program i = .sem_create path value) (hlow : 0 ≤ value) :
    Inv program
      { s.goto i (.exited 0) with
        names := bind s.names path i
        count := Function.update s.count i value } := by
  have hbusy : (s.phase i).Busy := by
    rw [hopening]
    trivial
  have hself : Function.update s.phase i (.exited 0) i = .exited 0 := Function.update_self ..
  have hphase : (s.goto i (.exited 0)).phase = Function.update s.phase i (.exited 0) := rfl
  refine h.of_step hbusy hphase ?_ (fun o ho ↦ ?_) (fun path' value' hi' ↦ ?_)
    (fun o path' value' ho ↦ ?_) ?_
  · refine Holds.bind (fun path o hname ↦ ?_) ⟨value, hi, hself⟩
    obtain ⟨value, hcreated⟩ := h.names path o hname
    exact ⟨value, hcreated.step hbusy rfl⟩
  · simp at ho
  · -- nobody has opened it yet
    obtain ⟨-, rfl⟩ := Program.sem_create.inj (hi.symm.trans hi'.1)
    have hnobody (j : ι) : Function.update s.phase i (.exited 0) j ≠ .closed i 0 := by
      intro hj
      by_cases hji : j = i
      · rw [hji, hself] at hj
        exact absurd hj nofun
      · rw [Function.update_of_ne hji] at hj
        obtain ⟨path, value, -, hcreated⟩ := h.opened j i (.inr ⟨0, hj⟩)
        rw [hcreated.2] at hopening
        exact absurd hopening nofun
    refine ⟨∅, ∅, fun j ↦ ?_, fun j ↦ ?_, ?_, ?_⟩
    · exact iff_of_false (Finset.notMem_empty j) fun hj ↦ hnobody j hj.2
    · exact iff_of_false (Finset.notMem_empty j) fun hj ↦ hnobody j hj.2
    · simp
    · simpa using hlow
  · have hoi : o ≠ i := by
      rintro rfl
      rw [ho.2] at hopening
      exact absurd hopening nofun
    obtain ⟨posts, waits, hbalanced⟩ := h.balanced o path' value' ho
    refine ⟨posts, waits, hbalanced.congr (Function.update_of_ne hoi ..) fun j ↦ ?_⟩
    by_cases hji : j = i
    · subst hji
      rw [show (State.goto s j (.exited 0)).phase j = .exited 0 from hself, hopening]
      simp
    · exact iff_of_eq (congrArg (· = _) (Function.update_of_ne hji ..))
  · have hnone : s.out i = [] := by rw [h.out, hopening]; rfl
    show s.out = Function.update s.out i []
    rw [← hnone, Function.update_eq_self]

omit [DecidableEq ι] in
/-- A program that is not done has printed nothing. -/
theorem Inv.out_of_busy (h : Inv program s) (hi : (s.phase i).Busy) : s.out i = [] := by
  rw [h.out]
  cases hphase : s.phase i with
  | opening | opened => rfl
  | closed | exited =>
    rw [hphase] at hi
    exact hi.elim

theorem Step.busy [DecidableEq κ] (h : Step program s i t) : (s.phase i).Busy := by
  cases h with
  | create hphase | openFails hphase | opens hphase | post hphase | postFails hphase
  | wait hphase | waitFails hphase | unlink hphase | unlinkFails hphase =>
    rw [hphase]
    trivial

theorem Inv.step [DecidableEq κ] (h : Inv program s) (hstep : Step program s i t) :
    Inv program t := by
  have hbusy := hstep.busy
  have hsilent {phase : Phase ι} (hp : printed (program i) phase = []) :
      s.out = Function.update s.out i (printed (program i) phase) := by
    rw [hp, ← h.out_of_busy hbusy, Function.update_eq_self]
  have hline (hi : ∃ path, program i = .sem_wait path) (o : ι) (ret : ℤ) :
      Function.update s.out i (s.out i ++ ["successful"]) =
        Function.update s.out i (printed (program i) (.closed o ret)) := by
    obtain ⟨path, hi⟩ := hi
    rw [hi, h.out_of_busy hbusy]
    rfl
  cases hstep with
  | create hphase hi hfree hlow hhigh => exact h.create hphase hi hlow
  | openFails hphase hi =>
    exact h.quiet hbusy rfl rfl (fun _ hP ↦ hP) (fun o ho ↦ by simp at ho) (fun h ↦ by simp at h)
      (fun o ↦ by simp) (hsilent rfl)
  | @opens o path hphase hi hname =>
    refine h.quiet hbusy rfl rfl (fun _ hP ↦ hP) (fun o' ho' ↦ ?_) (fun h ↦ by simp at h)
      (fun o ↦ by simp) (hsilent rfl)
    obtain rfl : o = o' := by simpa using ho'
    obtain ⟨value, hcreated⟩ := h.names path o hname
    exact ⟨path, value, hi, hcreated⟩
  | @post o path hphase hi =>
    refine h.permit hphase rfl rfl (fun o' ho' ↦ Function.update_of_ne ho' ..)
      (fun value posts waits hbal ↦ ⟨_, _, hbal.post hi ?_⟩) (hsilent (by rw [hi]; rfl))
    rw [hphase]
    simp
  | @postFails o path hphase hi =>
    refine h.quiet hbusy rfl rfl (fun _ hP ↦ hP) (fun o' ho' ↦ ?_) (fun h ↦ by simp at h)
      (fun o ↦ by simp) (hsilent (by rw [hi]; rfl))
    obtain rfl : o = o' := by simpa using ho'
    exact h.opened i o (.inl hphase)
  | @wait o path hphase hi hpos =>
    refine h.permit hphase rfl rfl (fun o' ho' ↦ Function.update_of_ne ho' ..)
      (fun value posts waits hbal ↦ ⟨_, _, hbal.wait hi ?_ hpos _⟩) (hline ⟨path, hi⟩ o 0)
    rw [hphase]
    simp
  | @waitFails o path hphase hi =>
    refine h.quiet hbusy rfl rfl (fun _ hP ↦ hP) (fun o' ho' ↦ ?_) (fun h ↦ by simp at h)
      (fun o ↦ by simp) (hline ⟨path, hi⟩ o (-1))
    obtain rfl : o = o' := by simpa using ho'
    exact h.opened i o (.inl hphase)
  | @unlink path hphase hi hbound =>
    refine h.quiet hbusy rfl rfl (fun _ hP ↦ hP.unlink) (fun o ho ↦ by simp at ho)
      (fun _ path' value ↦ by rw [hi]; simp) (fun o ↦ by simp) (hsilent rfl)
  | @unlinkFails path hphase hi =>
    exact h.quiet hbusy rfl rfl (fun _ hP ↦ hP) (fun o ho ↦ by simp at ho) (fun h ↦ by simp at h)
      (fun o ↦ by simp) (hsilent rfl)

omit [DecidableEq ι] in
theorem inv_start (program : ι → Program κ) : Inv program (start κ ι) where
  names := holds_empty
  opened i o h := by
    obtain h | ⟨ret, h⟩ := h
    · exact absurd h nofun
    · exact absurd h nofun
  balanced o path value h := by exact absurd h.2 nofun
  out _ := rfl

end

/-- A semaphore of value 0, a post and two waits. -/
def four : Fin 4 → Program Unit
  | 0 => .sem_create () 0
  | 1 => .sem_post ()
  | _ => .sem_wait ()

end PosixSem
end MacOSXInternal
