import Mathlib.Algebra.Order.Ring.Int

/-!
# The C type `int`

A word of 32 bits, read as a two's complement number by `BitVec.toInt`.  Its arithmetic wraps
around: `succ_toInt` and `pred_toInt` say where counting does not.  In a comparison with an unsigned
word that is at least as wide it is extended first, and a negative number becomes a great one:
`toNat_signExtend_of_nonneg` and `le_toNat_signExtend_of_neg`.
-/

set_option autoImplicit false

namespace SignedWord

variable {n : BitVec 32} {d : ℕ}

def INT_MAX : BitVec 32 := 0x7fffffff

theorem toInt_INT_MAX : INT_MAX.toInt = 2 ^ 31 - 1 := by decide

theorem toInt_le_INT_MAX (n : BitVec 32) : n.toInt ≤ INT_MAX.toInt := by
  rw [toInt_INT_MAX, BitVec.toInt_eq_toNat_cond]
  split_ifs <;> omega

theorem toInt_lt_INT_MAX (h : n ≠ INT_MAX) : n.toInt < INT_MAX.toInt :=
  lt_of_le_of_ne (toInt_le_INT_MAX n) fun he ↦ h (BitVec.eq_of_toInt_eq he)

theorem succ_toInt (h : n.toInt < INT_MAX.toInt) : (n + 1).toInt = n.toInt + 1 := by
  rw [toInt_INT_MAX, BitVec.toInt_eq_toNat_cond] at h
  rw [BitVec.toInt_eq_toNat_cond, BitVec.toInt_eq_toNat_cond]
  split_ifs at h ⊢ <;> bv_omega

theorem pred_toInt (h : n.toInt.toNat = d + 1) : (n - 1#32).toInt.toNat = d := by
  rw [BitVec.toInt_eq_toNat_cond] at h ⊢
  split_ifs at h ⊢ <;> bv_omega

/-- A positive word is the number it is read as. -/
theorem eq_ofNat (h : n.toInt.toNat = d + 1) : n = BitVec.ofNat 32 (d + 1) := by
  rw [BitVec.toInt_eq_toNat_cond] at h
  split_ifs at h <;> bv_omega

/-! ## Comparisons with unsigned words -/

theorem nonneg_iff : 0 ≤ n.toInt ↔ n.toNat < 2 ^ 31 := by
  rw [BitVec.toInt_eq_toNat_cond]
  split_ifs <;> omega

theorem toInt_of_nonneg (h : 0 ≤ n.toInt) : n.toInt = n.toNat := by
  have hlt := nonneg_iff.mp h
  rw [BitVec.toInt_eq_toNat_cond, if_pos (by omega)]

theorem toNat_signExtend_of_nonneg (e : ℕ) (h : 0 ≤ n.toInt) :
    (n.signExtend (32 + e)).toNat = n.toNat := by
  have hmsb : n.msb = false := by
    rw [BitVec.msb_eq_decide, decide_eq_false_iff_not, Nat.not_le]
    exact nonneg_iff.mp h
  rw [BitVec.toNat_signExtend, hmsb, if_neg Bool.false_ne_true, Nat.add_zero,
    BitVec.toNat_setWidth_of_le (Nat.le_add_right 32 e)]

theorem le_toNat_signExtend_of_neg (e : ℕ) (h : n.toInt < 0) :
    2 ^ 31 ≤ (n.signExtend (32 + e)).toNat := by
  have hge : 2 ^ 31 ≤ n.toNat := by
    by_contra hlt
    exact absurd (nonneg_iff.mpr (Nat.not_le.mp hlt)) (not_le.mpr h)
  rw [BitVec.toNat_signExtend, BitVec.toNat_setWidth_of_le (Nat.le_add_right 32 e)]
  exact Nat.le_trans hge (Nat.le_add_right ..)

end SignedWord
