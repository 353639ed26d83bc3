import Mathlib.Logic.Function.Basic
import MacOSXInternal.Lib.Runs

/-!
# Undo records

A store of cells, and operations that assign to a cell and keep what they found there in a record.
Taking a record back writes what it kept, whatever the cell holds by then.  Records may be taken
back in any order, and many of them may be of one cell, so taking one back is in general not the
inverse of anything.

* `origin` is what a cell held before the oldest of its records was made.
* `origin_step`: no assignment changes it, and taking back a record does not as long as the oldest
  record of a cell is not taken back while there are others of it (`OldestLast`).
* `restored` is the result: at the end of a run that keeps to this, every cell without records holds
  what it held in the beginning.
-/

set_option autoImplicit false

namespace Undo

open Runs

universe u v w

variable {H : Type u} {K : Type v} {V : Type w}

/-- What an assignment leaves behind. -/
structure Record (H : Type u) (K : Type v) (V : Type w) where
  handle : H
  key : K
  saved : V

/-- The cells, and the records not taken back, the newest first. -/
structure Store (H : Type u) (K : Type v) (V : Type w) where
  cells : K → V
  log : List (Record H K V)

inductive Label (H : Type u) (K : Type v) (V : Type w)
  | assign (handle : H) (key : K) (value : V)
  | takeBack (handle : H)

variable [DecidableEq K]

/-- One operation. -/
inductive Step : Store H K V → Label H K V → Store H K V → Prop
  | assign {s : Store H K V} (h : H) (k : K) (v : V) :
      Step s (.assign h k v) ⟨Function.update s.cells k v, ⟨h, k, s.cells k⟩ :: s.log⟩
  | takeBack (cells : K → V) (younger older : List (Record H K V)) (r : Record H K V) :
      Step ⟨cells, younger ++ r :: older⟩ (.takeBack r.handle)
        ⟨Function.update cells r.key r.saved, younger ++ older⟩

/-- The record taken back, if it is the oldest of its cell, is the only one. -/
def OldestLast (s : Store H K V) : Label H K V → Prop
  | .assign .. => True
  | .takeBack h => ∀ younger r older, s.log = younger ++ r :: older → r.handle = h →
      (∀ x ∈ older, x.key ≠ r.key) → ∀ x ∈ younger, x.key ≠ r.key

/-- The records of a cell. -/
def records (l : List (Record H K V)) (k : K) : List (Record H K V) := l.filter (·.key = k)

/-- What a cell held before its oldest record was made: what that record says, or the cell itself if
it has none. -/
def origin (s : Store H K V) (k : K) : V :=
  match (records s.log k).getLast? with
  | some r => r.saved
  | none => s.cells k

theorem records_eq_nil {l : List (Record H K V)} {k : K} :
    records l k = [] ↔ ∀ r ∈ l, r.key ≠ k := by
  simp [records, List.filter_eq_nil_iff]

theorem records_append (l m : List (Record H K V)) (k : K) :
    records (l ++ m) k = records l k ++ records m k :=
  List.filter_append ..

theorem records_cons_self (r : Record H K V) (l : List (Record H K V)) :
    records (r :: l) r.key = r :: records l r.key :=
  List.filter_cons_of_pos (by simp)

theorem records_cons_of_ne {r : Record H K V} {k : K} (h : k ≠ r.key) (l : List (Record H K V)) :
    records (r :: l) k = records l k :=
  List.filter_cons_of_neg (by simpa using h.symm)

theorem origin_of_records_eq_nil {s : Store H K V} {k : K} (h : records s.log k = []) :
    origin s k = s.cells k := by
  rw [origin, h]
  rfl

theorem origin_of_getLast? {s : Store H K V} {k : K} {r : Record H K V}
    (h : (records s.log k).getLast? = some r) : origin s k = r.saved := by
  rw [origin, h]

/-- The origin depends on the records of the cell, and on the cell only if there are none. -/
theorem origin_congr {s t : Store H K V} {k : K}
    (h : (records t.log k).getLast? = (records s.log k).getLast?)
    (hc : records s.log k = [] → t.cells k = s.cells k) : origin t k = origin s k := by
  rw [origin, origin, h]
  split
  · rfl
  · next hn => exact hc (List.getLast?_eq_none_iff.mp hn)

/-- **One step keeps every origin.** -/
theorem origin_step {s t : Store H K V} {a : Label H K V} (hok : OldestLast s a) (h : Step s a t)
    (k : K) : origin t k = origin s k := by
  cases h with
  | assign handle k' v =>
    by_cases hk : k = k'
    · subst hk
      have hself := records_cons_self ⟨handle, k, s.cells k⟩ s.log
      rcases hr : records s.log k with _ | ⟨r, l⟩
      · -- the new record is the oldest, and keeps what the cell held
        rw [origin_of_records_eq_nil hr]
        refine origin_of_getLast? (r := ⟨handle, k, s.cells k⟩) ?_
        rw [hself, hr]
        rfl
      · refine origin_congr ?_ (by simp [hr])
        rw [hself, hr, List.getLast?_cons_cons]
    · exact origin_congr (by rw [records_cons_of_ne hk]) fun _ ↦ Function.update_of_ne hk _ _
  | takeBack cells younger older r =>
    by_cases hk : k = r.key
    · subst hk
      rcases ho : records older r.key with _ | ⟨x, l⟩
      · -- the oldest, and so the only one
        have hy : records younger r.key = [] :=
          records_eq_nil.mpr (hok younger r older rfl rfl (records_eq_nil.mp ho))
        rw [origin_of_records_eq_nil (by rw [records_append, hy, ho, List.nil_append])]
        refine (Function.update_self ..).trans (origin_of_getLast? (r := r) ?_).symm
        rw [records_append, records_cons_self, hy, ho]
        rfl
      · refine origin_congr ?_ (by simp [records_append, records_cons_self])
        rw [records_append, records_append, records_cons_self, ho, List.getLast?_append_cons,
          List.getLast?_append_cons, List.getLast?_cons_cons]
    · refine origin_congr ?_ fun _ ↦ Function.update_of_ne hk _ _
      rw [records_append, records_append, records_cons_of_ne hk]

/-- **What has no record is as it was.** -/
theorem restored {s t : Store H K V} {l : List (Label H K V)}
    (h : Run (guarded OldestLast Step) s l t) (hs : s.log = []) {k : K}
    (hk : ∀ r ∈ t.log, r.key ≠ k) : t.cells k = s.cells k := by
  have horigin : origin t k = origin s k :=
    h.invariant (I := fun t ↦ origin t k = origin s k)
      (fun _ _ _ ih hstep ↦ (origin_step hstep.1 hstep.2 k).trans ih) rfl
  rw [origin_of_records_eq_nil (records_eq_nil.mpr hk)] at horigin
  rw [horigin, origin_of_records_eq_nil (by rw [hs]; rfl)]

end Undo
