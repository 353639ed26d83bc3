import Mathlib.Logic.Function.Basic

/-!
# Names of objects

A name stands for an object until it is unlinked; the object itself lives on for those that have it
open.  An object goes by whoever created it, so that it has one creator for good, while a name may
stand for one object after another.

`Holds` is how an invariant speaks of the names in use: it survives the binding of a name to an
object of the right kind, and any unlinking.
-/

set_option autoImplicit false

namespace Names

variable {κ ι : Type}

/-- What each name stands for. -/
abbrev Space (κ ι : Type) := κ → Option ι

def empty (κ ι : Type) : Space κ ι := fun _ ↦ none

/-- Every name in use stands for an object of the right kind. -/
def Holds (P : κ → ι → Prop) (n : Space κ ι) : Prop := ∀ p o, n p = some o → P p o

theorem holds_empty {P : κ → ι → Prop} : Holds P (empty κ ι) := fun p o h ↦ by cases h

variable [DecidableEq κ]

def bind (n : Space κ ι) (p : κ) (o : ι) : Space κ ι := Function.update n p (some o)

def unlink (n : Space κ ι) (p : κ) : Space κ ι := Function.update n p none

variable {P : κ → ι → Prop} {n : Space κ ι} {p : κ} {o : ι}

theorem Holds.bind (h : Holds P n) (hp : P p o) : Holds P (bind n p o) := by
  intro q u hq
  by_cases hqp : q = p
  · subst hqp
    rw [Names.bind, Function.update_self, Option.some_inj] at hq
    rwa [← hq]
  · rw [Names.bind, Function.update_of_ne hqp] at hq
    exact h q u hq

theorem Holds.unlink (h : Holds P n) : Holds P (unlink n p) := by
  intro q u hq
  by_cases hqp : q = p
  · subst hqp
    rw [Names.unlink, Function.update_self] at hq
    cases hq
  · rw [Names.unlink, Function.update_of_ne hqp] at hq
    exact h q u hq

end Names
