import Mathlib.Data.Nat.Basic
import Mathlib.Order.Basic
import MacOSXInternal.Lib.SignedWord

/-!
# The names that `lstasks` prints

The kernel reports a policy, a role and a run state as numbers of type `int`, and `lstasks` looks
them up in tables.  The number of the entries of a table is a `size_t`, so a number that is compared
with it is taken to be unsigned, and a negative one is not small any more.

* `shownPolicy`, `shownRole` and `shownState` are what is printed.
* `policyShown_iff`, `roleShown_iff` and `stateShown` say where that is right, and `tables_iff` is
  all of it: of the three guards one lets great numbers through, and one keeps a negative one out.
-/

set_option autoImplicit false

namespace MacOSXInternal
namespace Lstasks

open SignedWord

/-! ## The tables -/

def task_roles : List String :=
  ["RENICED", "UNSPECIFIED", "FOREGROUND_APPLICATION", "BACKGROUND_APPLICATION",
    "CONTROL_APPLICATION", "GRAPHICS_SERVER"]

def thread_policies : List String :=
  ["UNKNOWN?", "STANDARD|EXTENDED", "TIME_CONSTRAINT", "PRECEDENCE"]

def thread_states : List String :=
  ["NONE", "RUNNING", "STOPPED", "WAITING", "UNINTERRUPTIBLE", "HALTED"]

section
variable (e : ℕ)

/-- The type `size_t`, which is at least as wide as `int`. -/
abbrev SizeT := BitVec (32 + e)

def TASK_ROLES_MAX : SizeT e := BitVec.ofNat _ task_roles.length
def THREAD_POLICIES_MAX : SizeT e := BitVec.ofNat _ thread_policies.length
def THREAD_STATES_MAX : SizeT e := BitVec.ofNat _ thread_states.length

/-- An `int` that is compared with a `size_t`. -/
def toSize (x : BitVec 32) : SizeT e := x.signExtend (32 + e)

/-- An entry of a table.  There is none outside of it. -/
def entry (table : List String) (i : ℤ) : Option String :=
  if i < 0 then none else table[i.toNat]?

/-! ## What is printed -/

/-- The policy, after the guard. -/
def resetPolicy (policy : BitVec 32) : BitVec 32 :=
  if policy.toInt < 0 ∧ toSize e policy > THREAD_POLICIES_MAX e then 0 else policy

def shownPolicy (policy : BitVec 32) : Option String :=
  entry thread_policies (resetPolicy e policy).toInt

/-- The line for the role, if there is one. -/
def shownRole (role : BitVec 32) : Option (Option String) :=
  if role.toInt ≥ -1 ∧ toSize e role < TASK_ROLES_MAX e - 1 then
    some (entry task_roles (role + 1).toInt)
  else none

def shownState (run_state : BitVec 32) : Option String :=
  if toSize e run_state ≥ THREAD_STATES_MAX e then some "?"
  else entry thread_states run_state.toInt

/-! ## What should be -/

/-- A policy outside the table is shown as entry 0. -/
def PolicyShown (policy : BitVec 32) : Prop :=
  shownPolicy e policy = some (thread_policies[policy.toNat]?.getD thread_policies[0])

/-- The roles from -1 on are shown, up to the end of the table. -/
def RoleShown (role : BitVec 32) : Prop :=
  shownRole e role =
    if h : -1 ≤ role.toInt ∧ role.toInt ≤ task_roles.length - 2 then
      some (some (task_roles.get ⟨(role.toInt + 1).toNat, by omega⟩))
    else none

/-- A run state outside the table is shown as a question mark. -/
def StateShown (run_state : BitVec 32) : Prop :=
  shownState e run_state = some (thread_states[run_state.toNat]?.getD "?")

end

/-! ## Where it is -/

variable {e : ℕ} {x : BitVec 32}

theorem toNat_ofNat_size {n : ℕ} (hn : n < 2 ^ 31) : (BitVec.ofNat (32 + e) n).toNat = n := by
  have hle : 2 ^ 31 ≤ 2 ^ (32 + e) := Nat.pow_le_pow_right (by decide) (by omega)
  rw [BitVec.toNat_ofNat, Nat.mod_eq_of_lt (Nat.lt_of_lt_of_le hn hle)]

/-- A negative number is greater than the size of any table. -/
theorem toSize_lt_iff {n : ℕ} (hn : n < 2 ^ 31) :
    toSize e x < BitVec.ofNat (32 + e) n ↔ x.toNat < n := by
  rw [BitVec.lt_def, toNat_ofNat_size hn, toSize]
  by_cases hneg : x.toInt < 0
  · have hge := le_toNat_signExtend_of_neg e hneg
    have hnonneg : ¬ x.toNat < 2 ^ 31 := fun h ↦ not_le.mpr hneg (nonneg_iff.mpr h)
    omega
  · rw [toNat_signExtend_of_nonneg e (not_lt.mp hneg)]

theorem entry_of_nonneg (table : List String) (h : 0 ≤ x.toInt) :
    entry table x.toInt = table[x.toNat]? := by
  rw [entry, if_neg (not_lt.mpr h), toInt_of_nonneg h, Int.toNat_natCast]

theorem getElem?_eq_some_getD_iff {table : List String} {i : ℕ} (d : String) :
    table[i]? = some (table[i]?.getD d) ↔ i < table.length := by
  refine ⟨fun h ↦ ?_, fun h ↦ ?_⟩
  · by_contra hge
    rw [List.getElem?_eq_none (not_lt.mp hge)] at h
    cases h
  · rw [List.getElem?_eq_getElem h]
    rfl

theorem le_toNat_of_neg (h : x.toInt < 0) : 2 ^ 31 ≤ x.toNat := by
  by_contra hlt
  exact absurd (nonneg_iff.mpr (not_le.mp hlt)) (not_le.mpr h)

theorem shownPolicy_of_neg (h : x.toInt < 0) : shownPolicy e x = some thread_policies[0] := by
  have hgreat : THREAD_POLICIES_MAX e < toSize e x := by
    rw [BitVec.lt_def, THREAD_POLICIES_MAX, toNat_ofNat_size (by decide), toSize]
    exact lt_of_lt_of_le (by decide) (le_toNat_signExtend_of_neg e h)
  have hreset : resetPolicy e x = 0 := if_pos ⟨h, hgreat⟩
  rw [shownPolicy, hreset]
  rfl

theorem shownPolicy_of_nonneg (h : 0 ≤ x.toInt) : shownPolicy e x = thread_policies[x.toNat]? := by
  have hreset : resetPolicy e x = x := if_neg fun hneg ↦ not_lt.mpr h hneg.1
  rw [shownPolicy, hreset, entry_of_nonneg _ h]

/-- There is a name for no policy greater than those of the table. -/
theorem shownPolicy_isSome_iff : (shownPolicy e x).isSome ↔ x.toInt < thread_policies.length := by
  rcases lt_or_ge x.toInt 0 with h | h
  · rw [shownPolicy_of_neg h]
    exact iff_of_true rfl (h.trans (by decide))
  · rw [shownPolicy_of_nonneg h, toInt_of_nonneg h, Int.ofNat_lt, isSome_getElem?]

/-- **The policy is looked up outside the table** where it is greater than that. -/
theorem policyShown_iff : PolicyShown e x ↔ x.toInt < thread_policies.length := by
  rw [PolicyShown]
  rcases lt_or_ge x.toInt 0 with h | h
  · rw [shownPolicy_of_neg h,
      List.getElem?_eq_none
        (le_trans (by decide : thread_policies.length ≤ 2 ^ 31) (le_toNat_of_neg h))]
    exact iff_of_true rfl (h.trans (by decide))
  · rw [shownPolicy_of_nonneg h, getElem?_eq_some_getD_iff, toInt_of_nonneg h, Int.ofNat_lt]

theorem roleGuard_iff :
    x.toInt ≥ -1 ∧ toSize e x < TASK_ROLES_MAX e - 1 ↔ 0 ≤ x.toInt ∧ x.toInt < 5 := by
  have hmax : TASK_ROLES_MAX e - 1 = BitVec.ofNat (32 + e) 5 := by
    have hsucc : TASK_ROLES_MAX e = BitVec.ofNat (32 + e) 5 + 1 := BitVec.ofNat_add 5 1
    rw [hsucc, BitVec.add_sub_cancel]
  rw [hmax, toSize_lt_iff (by decide)]
  rcases lt_or_ge x.toInt 0 with h | h
  · have hge := le_toNat_of_neg h
    omega
  · have hint := toInt_of_nonneg h
    omega

/-- A role that is shown is one of the table. -/
theorem entry_role (h : 0 ≤ x.toInt ∧ x.toInt < 5) :
    entry task_roles (x + 1).toInt = task_roles[(x.toInt + 1).toNat]? := by
  have hsucc : (x + 1).toInt = x.toInt + 1 := by
    refine succ_toInt ?_
    rw [toInt_INT_MAX]
    omega
  rw [entry, hsucc, if_neg (by omega)]

theorem shownRole_eq_some {name : Option String} (h : shownRole e x = some name) : name.isSome := by
  rw [shownRole, Option.ite_none_right_eq_some, roleGuard_iff] at h
  obtain ⟨hrole, hname⟩ := h
  rw [entry_role hrole] at hname
  rw [← Option.some.inj hname, isSome_getElem?]
  have hlen : task_roles.length = 6 := rfl
  omega

/-- **The role -1 is taken to be a great number.** -/
theorem roleShown_iff : RoleShown e x ↔ x.toInt ≠ -1 := by
  have hlen : (task_roles.length : ℤ) = 6 := rfl
  rw [RoleShown, shownRole]
  by_cases hrole : 0 ≤ x.toInt ∧ x.toInt < 5
  · refine iff_of_true ?_ (by omega)
    rw [if_pos (roleGuard_iff.mpr hrole), dif_pos (by omega), entry_role hrole,
      List.getElem?_eq_getElem (by omega), List.get_eq_getElem]
  · rw [if_neg (mt roleGuard_iff.mp hrole), eq_comm, dite_eq_right_iff]
    simp only [reduceCtorEq, imp_false]
    omega

/-- **The run state is always right.** -/
theorem stateShown (e : ℕ) (x : BitVec 32) : StateShown e x := by
  have hguard : toSize e x ≥ THREAD_STATES_MAX e ↔ ¬ x.toNat < 6 := by
    rw [ge_iff_le, ← BitVec.not_lt, THREAD_STATES_MAX]
    exact not_congr (toSize_lt_iff (by decide))
  rw [StateShown, shownState]
  split
  case isTrue hge =>
    rw [List.getElem?_eq_none (not_lt.mp (hguard.mp hge))]
    rfl
  case isFalse hlt =>
    have hlt : x.toNat < 6 := not_not.mp fun h ↦ hlt (hguard.mpr h)
    rw [entry_of_nonneg _ (nonneg_iff.mpr (by omega))]
    exact (getElem?_eq_some_getD_iff _).mpr hlt

/-- **The names are right** exactly for a policy that is not greater than those of the table, and
for a role other than -1. -/
theorem tables_iff (e : ℕ) (policy role run_state : BitVec 32) :
    PolicyShown e policy ∧ RoleShown e role ∧ StateShown e run_state ↔
      policy.toInt < thread_policies.length ∧ role.toInt ≠ -1 := by
  rw [policyShown_iff, roleShown_iff]
  exact and_congr_right fun _ ↦ and_iff_left (stateShown e run_state)

/-- A policy of four is an entry behind the table, and a task that has been reniced is shown without
a role. -/
theorem not_tables : ¬ PolicyShown 0 4 ∧ ¬ RoleShown 0 (-1) := by
  rw [policyShown_iff, roleShown_iff]
  decide

end Lstasks
end MacOSXInternal
