import Mathlib.Data.Nat.Factorial.Basic
import MacOSXInternal.Lib.Loop
import MacOSXInternal.Lib.SignedWord

/-!
# The factorials of the two servers

The server of `simple_ipc_server.c` computes the factorial by recursion, the MIG server of
`server.c` by a loop that counts up to its argument, both in the C type `int`.

* `SimpleIpc.factorial_eq` is the closed form of the recursion.
* `Mig.returns_of_ne` says that the loop computes the same number when it is left, and
  `Mig.not_returns_INT_MAX` that it is not left when the argument is the greatest `int`: no `i`
  exceeds it.
-/

set_option autoImplicit false

namespace MacOSXInternal

open Loop SignedWord

/-! ## The recursion -/

namespace SimpleIpc

/-- `factorial` of `simple_ipc_server.c`. -/
def factorial (n : BitVec 32) : BitVec 32 :=
  if n.toInt < 1 then 1 else n * factorial (n - 1)
termination_by n.toInt.toNat
decreasing_by
  obtain ⟨d, hd⟩ : ∃ d, n.toInt.toNat = d + 1 := ⟨n.toInt.toNat - 1, by omega⟩
  have hpred : (n - 1).toInt.toNat = d := pred_toInt hd
  omega

theorem factorial_of_lt {n : BitVec 32} (h : n.toInt < 1) : factorial n = 1 := by
  rw [factorial, if_pos h]

/-- The recursion computes the factorial modulo `2 ^ 32`, and one below the range of the
factorial. -/
theorem factorial_eq (n : BitVec 32) : factorial n = BitVec.ofNat 32 n.toInt.toNat.factorial := by
  induction hd : n.toInt.toNat generalizing n with
  | zero => exact factorial_of_lt (by omega)
  | succ d ih =>
    rw [factorial, if_neg (by omega), ih (n - 1) (pred_toInt hd), Nat.factorial_succ,
      BitVec.ofNat_mul, ← eq_ofNat hd]

theorem toNat_factorial {n : BitVec 32} :
    (factorial n).toNat = if 1 ≤ n.toInt then n.toInt.toNat.factorial % 2 ^ 32 else 1 := by
  split_ifs with h
  · rw [factorial_eq, BitVec.toNat_ofNat]
  · rw [factorial_of_lt (by omega)]
    rfl

end SimpleIpc

/-! ## The loop -/

namespace Mig

def KERN_SUCCESS : BitVec 32 := 0
def KERN_INVALID_ADDRESS : BitVec 32 := 1

/-- `i`, and `*fac`. -/
structure Vars where
  i : BitVec 32
  fac : BitVec 32
  deriving DecidableEq, Repr

/-- `for (...; i <= num; i++) *fac *= i;` -/
def turn (num : BitVec 32) (v : Vars) : Vars ⊕ BitVec 32 :=
  if v.i.toInt ≤ num.toInt then .inl ⟨v.i + 1, v.fac * v.i⟩ else .inr v.fac

/-- `factorial` of `server.c`: the number returned and what `fac` points to then.  A null pointer
points to nothing. -/
def factorial (num : BitVec 32) (fac : Option (BitVec 32)) (fuel : ℕ) :
    Option (BitVec 32 × Option (BitVec 32)) :=
  match fac with
  | none => some (KERN_INVALID_ADDRESS, none)
  | some _ => (run (turn num) fuel ⟨2, 1⟩).map fun f ↦ (KERN_SUCCESS, some f)

variable {num : BitVec 32}

theorem turn_of_le {v : Vars} (h : v.i.toInt ≤ num.toInt) :
    turn num v = .inl ⟨v.i + 1, v.fac * v.i⟩ := by
  rw [turn, if_pos h]

theorem turn_of_lt {v : Vars} (h : num.toInt < v.i.toInt) : turn num v = .inr v.fac := by
  rw [turn, if_neg (not_le.mpr h)]

/-- The invariant of the loop: `*fac` is the product of the numbers below `i`, and `i` has come no
further than one past `num`. -/
structure Counted (num : BitVec 32) (v : Vars) : Prop where
  low : 2 ≤ v.i.toInt
  high : v.i.toInt ≤ max 2 (num.toInt + 1)
  product : v.fac = BitVec.ofNat 32 (v.i.toInt.toNat - 1).factorial

theorem counted_start (num : BitVec 32) : Counted num ⟨2, 1⟩ where
  low := by decide
  high := le_max_left _ _
  product := by decide

/-- A turn that goes on keeps the invariant, as long as `i` does not overflow. -/
theorem Counted.turn (hmax : num ≠ INT_MAX) {v : Vars} (h : Counted num v)
    (hle : v.i.toInt ≤ num.toInt) : Counted num ⟨v.i + 1, v.fac * v.i⟩ := by
  have hi : (v.i + 1).toInt = v.i.toInt + 1 :=
    succ_toInt (lt_of_le_of_lt hle (toInt_lt_INT_MAX hmax))
  have hlow := h.low
  refine ⟨?_, ?_, ?_⟩
  · rw [hi]
    omega
  · rw [hi]
    omega
  · obtain ⟨d, hd⟩ : ∃ d, v.i.toInt.toNat = d + 1 := ⟨v.i.toInt.toNat - 1, by omega⟩
    have hnext : (v.i + 1).toInt.toNat - 1 = d + 1 := by
      rw [hi]
      omega
    simp only [hnext]
    rw [h.product, hd, Nat.add_sub_cancel, Nat.factorial_succ, Nat.mul_comm (d + 1), BitVec.ofNat_mul,
      ← eq_ofNat hd]

/-- Where the loop is left, `i` is past `num`. -/
theorem Counted.result {v : Vars} (h : Counted num v) (hlt : num.toInt < v.i.toInt) :
    v.fac = SimpleIpc.factorial num := by
  have hlow := h.low
  have hhigh := h.high
  rw [h.product, SimpleIpc.factorial_eq]
  rcases le_or_gt 1 num.toInt with hnum | hnum
  · have hi : v.i.toInt.toNat - 1 = num.toInt.toNat := by omega
    rw [hi]
  · have hi : v.i.toInt.toNat - 1 = 1 := by omega
    have hz : num.toInt.toNat = 0 := by omega
    rw [hi, hz]
    rfl

/-- The loop is left, with the value of the recursion. -/
theorem returns_of_ne (hmax : num ≠ INT_MAX) :
    Returns (turn num) ⟨2, 1⟩ (SimpleIpc.factorial num) := by
  obtain ⟨f, hf, rfl⟩ : ∃ f, Returns (turn num) ⟨2, 1⟩ f ∧ f = SimpleIpc.factorial num := by
    refine Returns.total (fun v ↦ (num.toInt + 1 - v.i.toInt).toNat) ?_ ?_ (counted_start num)
    · intro v w hv ht
      rcases le_or_gt v.i.toInt num.toInt with hle | hlt
      · rw [turn_of_le hle] at ht
        obtain rfl := Sum.inl.inj ht
        have hi : (v.i + 1).toInt = v.i.toInt + 1 :=
          succ_toInt (lt_of_le_of_lt hle (toInt_lt_INT_MAX hmax))
        exact ⟨hv.turn hmax hle, by simp only [hi]; omega⟩
      · rw [turn_of_lt hlt] at ht
        cases ht
    · intro v f hv ht
      rcases le_or_gt v.i.toInt num.toInt with hle | hlt
      · rw [turn_of_le hle] at ht
        cases ht
      · rw [turn_of_lt hlt] at ht
        exact (Sum.inr.inj ht).symm.trans (hv.result hlt)
  exact hf

/-- No `i` is past the greatest `int`, and the loop goes on forever. -/
theorem not_returns_INT_MAX (f : BitVec 32) : ¬ Returns (turn INT_MAX) ⟨2, 1⟩ f := by
  refine not_returns (I := fun _ ↦ True) (fun v _ ↦ ?_) trivial f
  exact ⟨_, turn_of_le (toInt_le_INT_MAX v.i), trivial⟩

end Mig

/-! ## Agreement -/

/-- The two services agree on an argument: the loop is left, and stores what the recursion returns,
which is the factorial modulo `2 ^ 32`. -/
def FactorialsAgree (num : BitVec 32) : Prop :=
  (∀ old, ∃ fuel, Mig.factorial num (some old) fuel =
    some (Mig.KERN_SUCCESS, some (SimpleIpc.factorial num))) ∧
  (SimpleIpc.factorial num).toNat =
    if 1 ≤ num.toInt then num.toInt.toNat.factorial % 2 ^ 32 else 1

/-- **The services agree on every argument but the greatest `int`.** -/
theorem factorials_agree_iff (num : BitVec 32) : FactorialsAgree num ↔ num ≠ INT_MAX := by
  constructor
  · rintro ⟨h, -⟩ rfl
    obtain ⟨fuel, hfuel⟩ := h 0
    obtain ⟨f, hf, -⟩ := Option.map_eq_some_iff.mp hfuel
    exact Mig.not_returns_INT_MAX f ⟨fuel, hf⟩
  · intro hmax
    refine ⟨fun old ↦ ?_, SimpleIpc.toNat_factorial⟩
    obtain ⟨fuel, hfuel⟩ := Mig.returns_of_ne hmax
    exact ⟨fuel, by rw [Mig.factorial, hfuel]; rfl⟩

/-- The MIG server does not answer for `2147483647`. -/
theorem factorials_disagree : ¬ FactorialsAgree 2147483647#32 := by
  rintro ⟨h, -⟩
  obtain ⟨fuel, hfuel⟩ := h 0
  obtain ⟨f, hf, -⟩ := Option.map_eq_some_iff.mp hfuel
  exact Mig.not_returns_INT_MAX f ⟨fuel, hf⟩

end MacOSXInternal
