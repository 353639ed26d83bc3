import Mathlib.Algebra.Order.Ring.Nat
import Mathlib.Logic.Function.Basic
import Mathlib.Order.Monotone.Defs

/-!
# The time base

A counter of 64 bits that runs while a program does.  A processor of 32 bits reads the upper and the
lower half of it with an instruction each, so a carry may fall between the two.

* `Counter` is the counter, by its value when each of the instructions is executed.
* `execute` is one instruction.
* `upper_eq_of_between` is why the upper half is read twice: it has not changed in between when the
  two are equal.
-/

set_option autoImplicit false

namespace PowerPC
namespace Timebase

/-- The value of the time base at each instant, which never decreases.  It may advance by any amount
from one instant to the next. -/
structure Counter where
  value : ℕ → BitVec 64
  monotone : Monotone fun n ↦ (value n).toNat

namespace Counter

variable (c : Counter)

/-- `TBU`. -/
def upper (n : ℕ) : BitVec 32 := (c.value n).extractLsb' 32 32

/-- `TBL`. -/
def lower (n : ℕ) : BitVec 32 := (c.value n).extractLsb' 0 32

variable {c}

theorem toNat_upper (n : ℕ) : (c.upper n).toNat = (c.value n).toNat / 2 ^ 32 := by
  have hlt : (c.value n).toNat / 2 ^ 32 < 2 ^ 32 := Nat.div_lt_of_lt_mul (c.value n).isLt
  rw [upper, BitVec.extractLsb'_toNat, Nat.shiftRight_eq_div_pow, Nat.mod_eq_of_lt hlt]

theorem toNat_lower (n : ℕ) : (c.lower n).toNat = (c.value n).toNat % 2 ^ 32 := by
  rw [lower, BitVec.extractLsb'_toNat, Nat.shiftRight_zero]

/-- The two halves of one instant. -/
theorem upper_lower (n : ℕ) :
    (c.upper n).toNat * 2 ^ 32 + (c.lower n).toNat = (c.value n).toNat := by
  rw [toNat_upper, toNat_lower, Nat.div_add_mod']

theorem toNat_upper_le {m n : ℕ} (h : m ≤ n) : (c.upper m).toNat ≤ (c.upper n).toNat := by
  rw [toNat_upper, toNat_upper]
  exact Nat.div_le_div_right (c.monotone h)

/-- **What is the same at two instants is the same in between.** -/
theorem upper_eq_of_between {k m n : ℕ} (hkm : k ≤ m) (hmn : m ≤ n) (h : c.upper k = c.upper n) :
    c.upper k = c.upper m := by
  refine BitVec.eq_of_toNat_eq (le_antisymm (toNat_upper_le hkm) ?_)
  rw [h]
  exact toNat_upper_le hmn

end Counter

/-! ## The processor -/

/-- The number of an operand. -/
abbrev Operand := Fin 3

/-- An operand is written as a numeral. -/
scoped instance operand_neZero : NeZero 3 := ⟨three_ne_zero⟩

/-- The instructions.  A branch has the number of the instruction it leads to. -/
inductive Instr
  | mftbu (rd : Operand)
  | mftb (rd : Operand)
  /-- `cmpw cr0,ra,rb`. -/
  | cmpw (ra rb : Operand)
  /-- `bne cr0,target`. -/
  | bne (target : ℕ)
  deriving DecidableEq, Repr

/-- The processor.  `instant` is when the next instruction is executed, and `lowerRead` when the
last `mftb` was. -/
structure Processor where
  pc : ℕ
  operands : Operand → BitVec 32
  /-- The bit `EQ` of the condition field `cr0`. -/
  eq : Bool
  instant : ℕ
  lowerRead : Option ℕ

/-- One instruction. -/
def execute (c : Counter) (p : Processor) : Instr → Processor
  | .mftbu rd =>
    { p with
      operands := Function.update p.operands rd (c.upper p.instant)
      pc := p.pc + 1
      instant := p.instant + 1 }
  | .mftb rd =>
    { p with
      operands := Function.update p.operands rd (c.lower p.instant)
      pc := p.pc + 1
      instant := p.instant + 1
      lowerRead := some p.instant }
  | .cmpw ra rb =>
    { p with eq := p.operands ra = p.operands rb, pc := p.pc + 1, instant := p.instant + 1 }
  | .bne target =>
    { p with pc := if p.eq then p.pc + 1 else target, instant := p.instant + 1 }

/-- A step of a program, which ends behind its last instruction. -/
def step (code : List Instr) (c : Counter) (p : Processor) : Processor ⊕ Processor :=
  match code[p.pc]? with
  | some i => .inl (execute c p i)
  | none => .inr p

end Timebase
end PowerPC
