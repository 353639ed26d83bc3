import Mathlib.Data.Fin.VecNotation
import MacOSXInternal.Lib.Loop
import MacOSXInternal.Lib.PowerPC.Timebase

/-!
# `mftb32`

The upper half of the time base is read before and after the lower half, and all is done again if it
is not the same.

* `code` is the assembly, and `mftb32` the function.
* `returns_pass` is one pass over the loop: it is left if the upper halves are the same, and entered
  again if they are not.
* `mftb32_eq` says that the loop is left at last, with the time base at the instant the lower half
  was read.
-/

set_option autoImplicit false

namespace MacOSXInternal
namespace Timebase

open Loop PowerPC.Timebase

/-- The instructions between `loop` and the end.  The operands are `*u`, `*l` and `tmp`. -/
def code : List Instr := [.mftbu 0, .mftb 1, .mftbu 2, .cmpw 2 0, .bne 0]

/-- What the function leaves: the two words, and the instants of the last read of the lower half and
of the exit. -/
structure Result where
  u : BitVec 32
  l : BitVec 32
  lowerRead : Option ℕ
  exit : ℕ
  deriving DecidableEq

/-- `mftb32`, entered at an instant with anything in the registers. -/
def mftb32 (c : Counter) (entry : ℕ) (operands : Operand → BitVec 32) (eq : Bool) (fuel : ℕ) :
    Option Result :=
  (run (step code c) fuel ⟨0, operands, eq, entry, none⟩).map fun p ↦
    ⟨p.operands 0, p.operands 1, p.lowerRead, p.instant⟩

/-! ## The loop -/

/-- The operands after a pass that has begun at the instant `n`. -/
def readAt (c : Counter) (n : ℕ) : Operand → BitVec 32 :=
  ![c.upper n, c.lower (n + 1), c.upper (n + 2)]

variable {c : Counter} {n : ℕ}

theorem readAt_eq (operands : Operand → BitVec 32) :
    readAt c n = Function.update (Function.update (Function.update operands 0 (c.upper n)) 1
      (c.lower (n + 1))) 2 (c.upper (n + 2)) := by
  funext i
  match i with
  | 0 => rfl
  | 1 => rfl
  | 2 => rfl

/-- **One pass over the loop.** -/
theorem returns_pass (operands : Operand → BitVec 32) (eq : Bool) (seen : Option ℕ)
    (r : Processor) :
    Returns (step code c) ⟨0, operands, eq, n, seen⟩ r ↔
      Returns (step code c) ⟨if c.upper (n + 2) = c.upper n then 5 else 0, readAt c n,
        c.upper (n + 2) = c.upper n, n + 5, some (n + 1)⟩ r := by
  have hmftbu : step code c ⟨0, operands, eq, n, seen⟩ =
      .inl ⟨1, Function.update operands 0 (c.upper n), eq, n + 1, seen⟩ := rfl
  have hmftb : step code c ⟨1, Function.update operands 0 (c.upper n), eq, n + 1, seen⟩ =
      .inl ⟨2, Function.update (Function.update operands 0 (c.upper n)) 1 (c.lower (n + 1)), eq,
        n + 2, some (n + 1)⟩ := rfl
  have hmftbu' : step code c ⟨2, Function.update (Function.update operands 0 (c.upper n)) 1
      (c.lower (n + 1)), eq, n + 2, some (n + 1)⟩ =
      .inl ⟨3, readAt c n, eq, n + 3, some (n + 1)⟩ := by
    rw [readAt_eq operands]
    rfl
  have hcmpw : step code c ⟨3, readAt c n, eq, n + 3, some (n + 1)⟩ =
      .inl ⟨4, readAt c n, c.upper (n + 2) = c.upper n, n + 4, some (n + 1)⟩ := rfl
  have hbne : step code c ⟨4, readAt c n, c.upper (n + 2) = c.upper n, n + 4, some (n + 1)⟩ =
      .inl ⟨if c.upper (n + 2) = c.upper n then 5 else 0, readAt c n, c.upper (n + 2) = c.upper n,
        n + 5, some (n + 1)⟩ := by
    by_cases h : c.upper (n + 2) = c.upper n <;> simp [step, code, execute, h]
  rw [returns_of_inl hmftbu, returns_of_inl hmftb, returns_of_inl hmftbu', returns_of_inl hcmpw,
    returns_of_inl hbne]

/-- **The loop is left at last**: with each pass that does not leave it, the upper half has grown.
What has been read then was read in one pass, over which the upper half was the same. -/
theorem exists_last_pass (operands : Operand → BitVec 32) (eq : Bool) (seen : Option ℕ) :
    ∃ m, n ≤ m ∧ c.upper m = c.upper (m + 2) ∧
      Returns (step code c) ⟨0, operands, eq, n, seen⟩
        ⟨5, readAt c m, true, m + 5, some (m + 1)⟩ := by
  induction hμ : 2 ^ 32 - (c.upper n).toNat using Nat.strong_induction_on
    generalizing n operands eq seen with
  | _ μ ih =>
    by_cases h : c.upper (n + 2) = c.upper n
    · refine ⟨n, le_refl n, h.symm, (returns_pass operands eq seen _).mpr ?_⟩
      rw [if_pos h, decide_eq_true h]
      exact returns_of_inr rfl
    · have hgrown : (c.upper n).toNat < (c.upper (n + 5)).toNat := by
        have hle : (c.upper n).toNat ≤ (c.upper (n + 2)).toNat := Counter.toNat_upper_le (by omega)
        have hle' : (c.upper (n + 2)).toNat ≤ (c.upper (n + 5)).toNat :=
          Counter.toNat_upper_le (by omega)
        have hne : (c.upper (n + 2)).toNat ≠ (c.upper n).toNat := fun heq ↦
          h (BitVec.eq_of_toNat_eq heq)
        omega
      have hlt := (c.upper (n + 5)).isLt
      obtain ⟨m, hm, hsame, hreturns⟩ := ih (2 ^ 32 - (c.upper (n + 5)).toNat) (by omega)
        (n := n + 5) (readAt c n) (c.upper (n + 2) = c.upper n) (some (n + 1)) rfl
      refine ⟨m, by omega, hsame, (returns_pass operands eq seen _).mpr ?_⟩
      rwa [if_neg h]

/-- **`mftb32` returns the time base of one instant**, that of the last read of the lower half. -/
theorem mftb32_eq (c : Counter) (entry : ℕ) (operands : Operand → BitVec 32) (eq : Bool) :
    ∃ fuel result m, mftb32 c entry operands eq fuel = some result ∧
      result.lowerRead = some m ∧ entry ≤ m ∧ m < result.exit ∧
      result.u.toNat * 2 ^ 32 + result.l.toNat = (c.value m).toNat := by
  obtain ⟨m, hm, hsame, fuel, hrun⟩ := exists_last_pass (c := c) (n := entry) operands eq none
  refine ⟨fuel, ⟨c.upper m, c.lower (m + 1), some (m + 1), m + 5⟩, m + 1, ?_, rfl, ?_, ?_, ?_⟩
  · rw [mftb32, hrun]
    rfl
  · omega
  · show m + 1 < m + 5
    omega
  · have hbetween := Counter.upper_eq_of_between (m := m + 1) (by omega) (by omega) hsame
    rw [hbetween]
    exact Counter.upper_lower (m + 1)

/-- A counter that advances by one with each instruction.  Its lower half overflows between the
first two instants that its upper half is read at. -/
def carry : Counter where
  value n := BitVec.ofNat 64 (min (0xfffffffe + n) (2 ^ 64 - 1))
  monotone := by
    intro m n hmn
    have hlt (k : ℕ) : min (0xfffffffe + k) (2 ^ 64 - 1) < 2 ^ 64 :=
      Nat.lt_of_le_of_lt (Nat.min_le_right ..) (by decide)
    simp only [BitVec.toNat_ofNat, Nat.mod_eq_of_lt (hlt _)]
    omega

/-- The first pass reads 0 and 1 for the upper half, and the second one is left. -/
theorem mftb32_eq_carry :
    mftb32 carry 0 (fun _ ↦ 0) false 11 = some ⟨1, 4, some 6, 10⟩ ∧
    ∃ fuel result m, mftb32 carry 0 (fun _ ↦ 0) false fuel = some result ∧
      result.lowerRead = some m ∧ 0 ≤ m ∧ m < result.exit ∧
      result.u.toNat * 2 ^ 32 + result.l.toNat = (carry.value m).toNat :=
  ⟨by decide, mftb32_eq carry 0 (fun _ ↦ 0) false⟩

end Timebase
end MacOSXInternal
