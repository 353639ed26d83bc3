import Mathlib.Algebra.Order.Ring.Nat
import Mathlib.Order.Bounds.Basic
import MacOSXInternal.Lib.Loop

/-!
# `sched_pri_shift.c`

How the kernel computes the amount by which the processor usage of a thread is shifted to give the
decay of its priority: an interval of time is converted to units of the time base, and the shift is
what brings five thirds of it down to the range of the priorities.

* `clockIntervalToAbsolutetimeInterval` is the conversion, which treats whole seconds and the rest
  apart, and `overflows` tells which of its steps have left the range of 64 bits.
* `turn` is the loop that counts the shift.
* `toNat_convert` says that the two truncated parts add up to the truncated whole, and
  `returns_isLeast` that shifting again and again is as good as dividing once.
-/

set_option autoImplicit false

namespace MacOSXInternal
namespace SchedPriShift

open Loop

/-! ## The program -/

def BASEPRI_DEFAULT : ℕ := 31
def SCHED_TICK_SHIFT : ℕ := 3
def NSEC_PER_SEC : ℕ := 1000000000
def USEC_PER_SEC : ℕ := 1000000
def NSEC_PER_USEC : ℕ := 1000

/-- `mach_timebase_info_data_t`. -/
structure TimebaseInfo where
  numer : BitVec 32
  denom : BitVec 32

/-- The divisor in `rtclock_sec_divisor`. -/
def numerSeconds (tbinfo : TimebaseInfo) : BitVec 32 := tbinfo.numer / BitVec.ofNat 32 NSEC_PER_SEC

def rtclockSecDivisor (tbinfo : TimebaseInfo) : BitVec 32 := tbinfo.denom / numerSeconds tbinfo

section
variable (interval scale_factor divisor : BitVec 32)

def nanosecs : BitVec 64 := interval.setWidth 64 * scale_factor.setWidth 64

def t64 : BitVec 64 := nanosecs interval scale_factor / BitVec.ofNat 64 NSEC_PER_SEC

/-- What is left of `nanosecs` when the seconds are taken off. -/
def rest : BitVec 64 :=
  nanosecs interval scale_factor - t64 interval scale_factor * BitVec.ofNat 64 NSEC_PER_SEC

/-- What becomes of the whole seconds. -/
def whole : BitVec 64 := t64 interval scale_factor * divisor.setWidth 64

/-- What becomes of the rest. -/
def part : BitVec 64 :=
  rest interval scale_factor * divisor.setWidth 64 / BitVec.ofNat 64 NSEC_PER_SEC

def convert : BitVec 64 := whole interval scale_factor divisor + part interval scale_factor divisor

/-- The operations of the conversion that can leave the range of 64 bits, in their order. -/
def overflows : List Bool :=
  [(interval.setWidth 64).umulOverflow (scale_factor.setWidth 64),
    (t64 interval scale_factor).umulOverflow (divisor.setWidth 64),
    (t64 interval scale_factor).umulOverflow (BitVec.ofNat 64 NSEC_PER_SEC),
    (nanosecs interval scale_factor).usubOverflow
      (t64 interval scale_factor * BitVec.ofNat 64 NSEC_PER_SEC),
    (rest interval scale_factor).umulOverflow (divisor.setWidth 64),
    (whole interval scale_factor divisor).uaddOverflow (part interval scale_factor divisor)]

/-- What `result` points to then.  There is none if the divisor of the time base is zero. -/
def clockIntervalToAbsolutetimeInterval (tbinfo : TimebaseInfo) : Option (BitVec 64) :=
  if numerSeconds tbinfo = 0 then none
  else some (convert interval scale_factor (rtclockSecDivisor tbinfo))

end

/-- The variables of the loop in `main`. -/
structure Vars where
  abstime : BitVec 64
  sched_pri_shift : BitVec 32

/-- `for (sched_pri_shift = 0; abstime > BASEPRI_DEFAULT; ++sched_pri_shift) abstime >>= 1;` -/
def turn (v : Vars) : Vars ⊕ BitVec 32 :=
  if BASEPRI_DEFAULT < v.abstime.toNat then .inl ⟨v.abstime >>> 1, v.sched_pri_shift + 1⟩
  else .inr v.sched_pri_shift

/-- The shift for an `abstime`. -/
def schedPriShift (abstime : BitVec 64) (fuel : ℕ) : Option (BitVec 32) :=
  run turn fuel ⟨abstime * 5 / 3, 0⟩

/-- `main`, with the two numbers it prints: `sched_tick_interval`, and the shift. -/
def main (tbinfo : TimebaseInfo) (fuel : ℕ) : Option (BitVec 32 × BitVec 32) := do
  let abstime ← clockIntervalToAbsolutetimeInterval
    (BitVec.ofNat 32 (USEC_PER_SEC >>> SCHED_TICK_SHIFT)) (BitVec.ofNat 32 NSEC_PER_USEC) tbinfo
  let sched_pri_shift ← schedPriShift abstime fuel
  return (abstime.setWidth 32, sched_pri_shift)

/-! ## The conversion -/

/-- The seconds of a number and the rest of it, each multiplied and truncated, are the number
multiplied and truncated. -/
theorem div_mul_add_mod_mul_div (n d : ℕ) {c : ℕ} (hc : 0 < c) :
    n / c * d + n % c * d / c = n * d / c := by
  have hsplit : n * d = c * (n / c * d) + n % c * d := by
    rw [← Nat.mul_assoc, ← Nat.add_mul, Nat.div_add_mod]
  rw [hsplit, Nat.mul_add_div hc]

theorem umulOverflow_eq_false {x y : BitVec 64} :
    x.umulOverflow y = false ↔ x.toNat * y.toNat < 2 ^ 64 := by
  rw [BitVec.umulOverflow, decide_eq_false_iff_not, ge_iff_le, not_le]

theorem toNat_mul {x y : BitVec 64} (h : x.umulOverflow y = false) :
    (x * y).toNat = x.toNat * y.toNat :=
  BitVec.toNat_mul_of_not_umulOverflow (by rw [h]; exact Bool.false_ne_true)

section
variable {interval scale_factor divisor : BitVec 32}

theorem toNat_NSEC_PER_SEC : (BitVec.ofNat 64 NSEC_PER_SEC).toNat = NSEC_PER_SEC := rfl

theorem toNat_setWidth (x : BitVec 32) : (x.setWidth 64).toNat = x.toNat :=
  BitVec.toNat_setWidth_of_le (by decide)

/-- The product of two numbers of 32 bits. -/
theorem nanosecs_lt (interval scale_factor : BitVec 32) :
    interval.toNat * scale_factor.toNat < 2 ^ 64 :=
  (Nat.mul_lt_mul'' interval.isLt scale_factor.isLt).trans_le (by decide)

theorem nanosecs_overflow :
    (interval.setWidth 64).umulOverflow (scale_factor.setWidth 64) = false := by
  rw [umulOverflow_eq_false, toNat_setWidth, toNat_setWidth]
  exact nanosecs_lt interval scale_factor

theorem toNat_nanosecs :
    (nanosecs interval scale_factor).toNat = interval.toNat * scale_factor.toNat := by
  rw [nanosecs, toNat_mul nanosecs_overflow, toNat_setWidth, toNat_setWidth]

theorem toNat_t64 :
    (t64 interval scale_factor).toNat = interval.toNat * scale_factor.toNat / NSEC_PER_SEC := by
  rw [t64, BitVec.toNat_udiv, toNat_nanosecs, toNat_NSEC_PER_SEC]

theorem seconds_overflow :
    (t64 interval scale_factor).umulOverflow (BitVec.ofNat 64 NSEC_PER_SEC) = false := by
  rw [umulOverflow_eq_false, toNat_t64, toNat_NSEC_PER_SEC]
  exact (Nat.div_mul_le_self ..).trans_lt (nanosecs_lt interval scale_factor)

theorem rest_overflow :
    (nanosecs interval scale_factor).usubOverflow
      (t64 interval scale_factor * BitVec.ofNat 64 NSEC_PER_SEC) = false := by
  rw [BitVec.usubOverflow, decide_eq_false_iff_not, not_lt, toNat_mul seconds_overflow, toNat_t64,
    toNat_NSEC_PER_SEC, toNat_nanosecs]
  exact Nat.div_mul_le_self ..

theorem toNat_rest :
    (rest interval scale_factor).toNat = interval.toNat * scale_factor.toNat % NSEC_PER_SEC := by
  rw [rest, BitVec.toNat_sub_of_not_usubOverflow (by rw [rest_overflow]; exact Bool.false_ne_true),
    toNat_mul seconds_overflow, toNat_t64, toNat_NSEC_PER_SEC, toNat_nanosecs,
    Nat.mul_comm _ NSEC_PER_SEC, Nat.mod_eq_sub]

/-! A divisor of at most `NSEC_PER_SEC` does not make anything greater than `nanosecs`. -/

theorem whole_overflow (hd : divisor.toNat ≤ NSEC_PER_SEC) :
    (t64 interval scale_factor).umulOverflow (divisor.setWidth 64) = false := by
  rw [umulOverflow_eq_false, toNat_t64, toNat_setWidth]
  calc interval.toNat * scale_factor.toNat / NSEC_PER_SEC * divisor.toNat
      ≤ interval.toNat * scale_factor.toNat / NSEC_PER_SEC * NSEC_PER_SEC :=
        Nat.mul_le_mul_left _ hd
    _ ≤ interval.toNat * scale_factor.toNat := Nat.div_mul_le_self ..
    _ < 2 ^ 64 := nanosecs_lt interval scale_factor

theorem part_overflow (hd : divisor.toNat ≤ NSEC_PER_SEC) :
    (rest interval scale_factor).umulOverflow (divisor.setWidth 64) = false := by
  have hrest : interval.toNat * scale_factor.toNat % NSEC_PER_SEC ≤ NSEC_PER_SEC :=
    (Nat.mod_lt _ (by decide)).le
  rw [umulOverflow_eq_false, toNat_rest, toNat_setWidth]
  exact (Nat.mul_le_mul hrest hd).trans_lt (by decide)

/-- The sum of the two parts. -/
theorem toNat_whole_add_part (hd : divisor.toNat ≤ NSEC_PER_SEC) :
    (whole interval scale_factor divisor).toNat + (part interval scale_factor divisor).toNat =
      interval.toNat * scale_factor.toNat * divisor.toNat / NSEC_PER_SEC := by
  rw [whole, part, BitVec.toNat_udiv, toNat_mul (whole_overflow hd), toNat_mul (part_overflow hd),
    toNat_t64, toNat_rest, toNat_setWidth, toNat_NSEC_PER_SEC]
  exact div_mul_add_mod_mul_div _ _ (by decide)

theorem convert_overflow (hd : divisor.toNat ≤ NSEC_PER_SEC) :
    (whole interval scale_factor divisor).uaddOverflow (part interval scale_factor divisor) =
      false := by
  rw [BitVec.uaddOverflow, decide_eq_false_iff_not, ge_iff_le, not_le, toNat_whole_add_part hd]
  refine lt_of_le_of_lt ?_ (nanosecs_lt interval scale_factor)
  exact Nat.div_le_of_le_mul (by rw [Nat.mul_comm]; exact Nat.mul_le_mul_right _ hd)

/-- **The conversion is exact.** -/
theorem toNat_convert (hd : divisor.toNat ≤ NSEC_PER_SEC) :
    (convert interval scale_factor divisor).toNat =
      interval.toNat * scale_factor.toNat * divisor.toNat / NSEC_PER_SEC := by
  rw [convert, BitVec.toNat_add_of_not_uaddOverflow
    (by rw [convert_overflow hd]; exact Bool.false_ne_true), toNat_whole_add_part hd]

/-- **Nothing overflows.** -/
theorem overflows_eq_false (hd : divisor.toNat ≤ NSEC_PER_SEC) :
    ∀ b ∈ overflows interval scale_factor divisor, b = false := by
  simp [overflows, nanosecs_overflow, whole_overflow hd, seconds_overflow, rest_overflow,
    part_overflow hd, convert_overflow hd]

end

/-! ## The shift -/

/-- The loop, when it has shifted `x` by `k` places: it had to. -/
structure Shifted (x k : ℕ) (v : Vars) : Prop where
  abstime : v.abstime.toNat = x / 2 ^ k
  shift : v.sched_pri_shift = BitVec.ofNat 32 k
  before : ∀ j < k, BASEPRI_DEFAULT < x / 2 ^ j

/-- There are no more than 64 places. -/
theorem Shifted.lt {x k : ℕ} {v : Vars} (h : Shifted x k v) (hx : x < 2 ^ 64) : k < 2 ^ 32 := by
  by_contra hk
  have hpos : BASEPRI_DEFAULT < x / 2 ^ 64 := h.before 64 (by omega)
  rw [Nat.div_eq_of_lt hx] at hpos
  exact absurd hpos (by decide)

theorem Shifted.step {x k : ℕ} {v : Vars} (h : Shifted x k v)
    (hlt : BASEPRI_DEFAULT < v.abstime.toNat) :
    Shifted x (k + 1) ⟨v.abstime >>> 1, v.sched_pri_shift + 1⟩ where
  abstime := by
    rw [BitVec.toNat_ushiftRight, h.abstime, Nat.shiftRight_eq_div_pow, Nat.div_div_eq_div_mul,
      ← Nat.pow_add]
  shift := by
    rw [h.shift, BitVec.ofNat_add]
    rfl
  before := by
    intro j hj
    rcases Nat.lt_succ_iff_lt_or_eq.mp hj with hj | rfl
    · exact h.before j hj
    · rwa [← h.abstime]

/-- **The loop finds the least shift**, whatever it is entered with. -/
theorem returns_isLeast (abstime : BitVec 64) :
    ∃ s, Returns turn ⟨abstime, 0⟩ s ∧
      IsLeast {k | abstime.toNat / 2 ^ k ≤ BASEPRI_DEFAULT} s.toNat := by
  refine Returns.total (I := fun v ↦ ∃ k, Shifted abstime.toNat k v) (μ := fun v ↦ v.abstime.toNat)
    ?_ ?_ ⟨0, by simp, rfl, by simp⟩
  · rintro v v' ⟨k, hv⟩ hturn
    rw [turn] at hturn
    split at hturn
    case isTrue hlt =>
      obtain rfl := Sum.inl.inj hturn
      refine ⟨⟨k + 1, hv.step hlt⟩, ?_⟩
      rw [BitVec.toNat_ushiftRight, Nat.shiftRight_eq_div_pow]
      exact Nat.div_lt_self (by omega) (by decide)
    case isFalse => cases hturn
  · rintro v s ⟨k, hv⟩ hturn
    rw [turn] at hturn
    split at hturn
    case isTrue => cases hturn
    case isFalse hge =>
      obtain rfl := Sum.inr.inj hturn
      rw [hv.shift, BitVec.toNat_ofNat, Nat.mod_eq_of_lt (hv.lt abstime.isLt)]
      refine ⟨?_, ?_⟩
      · rw [Set.mem_ofPred_eq, ← hv.abstime]
        exact not_lt.mp hge
      · intro m hm
        by_contra hlt
        exact absurd (hv.before m (not_le.mp hlt)) (not_lt.mpr hm)

/-- **The conversion and the shift are exact.**

* An interval is converted as if it were multiplied and divided once, and without an overflow, for
  every time base of no more than `NSEC_PER_SEC` units a second.
* The loop ends with the least shift that brings five thirds of the time down to the priorities. -/
theorem interval_and_shift_exact :
    (∀ interval scale_factor tbinfo, NSEC_PER_SEC ≤ tbinfo.numer.toNat →
      (rtclockSecDivisor tbinfo).toNat ≤ NSEC_PER_SEC →
      ∃ result,
        clockIntervalToAbsolutetimeInterval interval scale_factor tbinfo = some result ∧
        result.toNat = interval.toNat * scale_factor.toNat * (rtclockSecDivisor tbinfo).toNat /
          NSEC_PER_SEC ∧
        ∀ b ∈ overflows interval scale_factor (rtclockSecDivisor tbinfo), b = false) ∧
    (∀ abstime : BitVec 64, 5 * abstime.toNat < 2 ^ 64 →
      ∃ fuel s, schedPriShift abstime fuel = some s ∧
        IsLeast {k | 5 * abstime.toNat / 3 / 2 ^ k ≤ BASEPRI_DEFAULT} s.toNat) := by
  refine ⟨?_, ?_⟩
  · intro interval scale_factor tbinfo hnumer hd
    have hne : numerSeconds tbinfo ≠ 0 := by
      intro h
      have hzero : (numerSeconds tbinfo).toNat = 0 := by rw [h]; rfl
      have hpos : 0 < tbinfo.numer.toNat / NSEC_PER_SEC := Nat.div_pos hnumer (by decide)
      rw [numerSeconds, BitVec.toNat_udiv] at hzero
      exact hpos.ne' hzero
    exact ⟨_, if_neg hne, toNat_convert hd, overflows_eq_false hd⟩
  · intro abstime h
    have htimes : (abstime * 5 / 3).toNat = 5 * abstime.toNat / 3 := by
      have hfive : (abstime * 5).toNat = 5 * abstime.toNat := by
        rw [toNat_mul (umulOverflow_eq_false.mpr (by rw [Nat.mul_comm]; exact h)), Nat.mul_comm]
        rfl
      rw [BitVec.toNat_udiv, hfive]
      rfl
    obtain ⟨s, ⟨fuel, hrun⟩, hleast⟩ := returns_isLeast (abstime * 5 / 3)
    rw [htimes] at hleast
    exact ⟨fuel, s, hrun, hleast⟩

/-- A time base of 33 million units a second, and the interval of `main`. -/
theorem interval_and_shift_exact_tick :
    (∃ result,
      clockIntervalToAbsolutetimeInterval 125000 1000 ⟨1000000000, 33333333⟩ = some result ∧
      result.toNat = 4166666) ∧
    ∃ fuel s, schedPriShift 4166666 fuel = some s ∧
      IsLeast {k | 5 * (4166666 : BitVec 64).toNat / 3 / 2 ^ k ≤ BASEPRI_DEFAULT} s.toNat := by
  refine ⟨?_, interval_and_shift_exact.2 4166666 (by decide)⟩
  obtain ⟨result, hresult, hexact, -⟩ := interval_and_shift_exact.1 125000 1000
    ⟨1000000000, 33333333⟩ (by decide) (by decide)
  exact ⟨result, hresult, hexact⟩

end SchedPriShift
end MacOSXInternal
