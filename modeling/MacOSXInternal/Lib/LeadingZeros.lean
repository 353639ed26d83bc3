import Mathlib.Algebra.Order.Ring.Nat
import Mathlib.Data.Nat.Log
import Mathlib.Order.Bounds.Basic

/-!
# Leading zeros and powers of two

Counting the zeros in front of a word finds the logarithm of the number it is, rounded down; and
the logarithm of a number, rounded up, is that of one less than its double, rounded down.

* `toNat_clz` and `log_two_mul_pred` are these two facts.
* `isLeast_clog` says what the second logarithm is for: the least power of two that a number does
  not exceed.
-/

set_option autoImplicit false

namespace LeadingZeros

variable {w m : ℕ}

theorem toNat_clz {x : BitVec w} (hx : x ≠ 0#w) : x.clz.toNat = w - 1 - Nat.log 2 x.toNat := by
  have hw : 0 < w := by
    rcases Nat.eq_zero_or_pos w with rfl | hw
    · exact absurd (BitVec.eq_nil x) hx
    · exact hw
  have hlow := BitVec.two_pow_sub_clz_le_toNat_of_ne_zero hw hx
  have hhigh := BitVec.toNat_lt_two_pow_sub_clz (x := x)
  have hlt : x.clz.toNat < w := by
    by_contra hge
    rw [Nat.sub_eq_zero_of_le (Nat.le_of_not_lt hge), pow_zero] at hhigh
    exact hx (BitVec.eq_of_toNat_eq (Nat.lt_one_iff.mp hhigh))
  have hlog : Nat.log 2 x.toNat = w - 1 - x.clz.toNat := by
    refine Nat.log_eq_of_pow_le_of_lt_pow hlow ?_
    have hexp : w - 1 - x.clz.toNat + 1 = w - x.clz.toNat := by omega
    rwa [hexp]
  omega

theorem log_two_mul_pred (hm : 1 ≤ m) : Nat.log 2 (2 * m - 1) = Nat.clog 2 m := by
  rcases Nat.eq_or_lt_of_le hm with rfl | hm
  · rfl
  · have hpos := Nat.clog_pos Nat.one_lt_two hm
    have hlow := Nat.pow_pred_clog_lt_self Nat.one_lt_two hm
    have hhigh := Nat.le_pow_clog Nat.one_lt_two m
    have hpow : 2 ^ Nat.clog 2 m = 2 * 2 ^ (Nat.clog 2 m).pred := by
      rw [← pow_succ', ← Nat.succ_eq_add_one, Nat.succ_pred_eq_of_pos hpos]
    refine Nat.log_eq_of_pow_le_of_lt_pow ?_ ?_
    · omega
    · rw [pow_succ]
      omega

theorem isLeast_clog (m : ℕ) : IsLeast {p | (∃ k, p = 2 ^ k) ∧ m ≤ p} (2 ^ Nat.clog 2 m) := by
  constructor
  · exact ⟨⟨_, rfl⟩, Nat.le_pow_clog Nat.one_lt_two m⟩
  · rintro p ⟨⟨k, rfl⟩, hk⟩
    exact Nat.pow_le_pow_right Nat.two_pos (Nat.clog_le_of_le_pow hk)

end LeadingZeros
