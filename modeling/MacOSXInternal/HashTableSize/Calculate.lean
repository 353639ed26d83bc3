import Mathlib.Data.BitVec
import MacOSXInternal.Lib.LeadingZeros

/-!
# `calculate_hash_table_size`

How much memory the kernel of the PowerPC gives to its page table: the size of physical memory is
rounded up to a power of two, and the table gets one entry group for every two pages of that,
halved.  Rounding up is done by counting the leading zeros of a doubled number in its two halves.

* `calculate_hash_table_size` is the function, and `nbits`, `tmemsize` and `recommended` the values
  its local variables go through.
* `toNat_nbits`, `toNat_tmemsize` and `toNat_recommended` say what these are.
* `calculate_closed_form` is the size without a shift.
* `scales_iff` is the size with one: memory is clamped so that the arithmetic does not overflow, but
  the clamp knows nothing of the shift.
-/

set_option autoImplicit false

namespace MacOSXInternal
namespace HashTableSize

open LeadingZeros

/-! ## The function -/

/-- The machine instruction. -/
def cntlzw (num : BitVec 32) : BitVec 32 := num.clz

section
variable (msize : BitVec 64) (pfPTEG hash_table_shift : BitVec 32)

def nbits : BitVec 32 :=
  -- Get first bit in upper half
  let nbits := cntlzw ((((msize <<< 1) - 1#64) >>> 32).setWidth 32)
  -- If upper half is empty, find bit in lower half
  if nbits = 32#32 then nbits + cntlzw (((msize <<< 1) - 1#64).setWidth 32) else nbits

def tmemsize : BitVec 64 :=
  -- Get memory size rounded up to a power of 2
  let tmemsize := 0x8000000000000000#64 >>> (nbits msize).toNat
  -- Ensure 32-bit arithmetic doesn't overflow
  if tmemsize > 0x0000002000000000#64 then 0x0000002000000000#64 else tmemsize

/-- IBM-recommended hash table size (1 PTEG per 2 physical pages). -/
def recommended : BitVec 32 := (tmemsize msize >>> (12 + 1)).setWidth 32 * pfPTEG

/-- Mac OS X uses half of the IBM-recommended size. -/
def halved : BitVec 32 := recommended msize pfPTEG >>> 1

/-- Apply ht_shift, if necessary. -/
def shifted : BitVec 32 :=
  if 0 ≤ hash_table_shift.toInt then halved msize pfPTEG <<< hash_table_shift.toNat
  else halved msize pfPTEG >>> (-hash_table_shift).toNat

def calculate_hash_table_size : BitVec 32 :=
  let hash_table_size := shifted msize pfPTEG hash_table_shift
  -- Ensure minimum size
  if hash_table_size < 256#32 * 1024#32 then 256#32 * 1024#32 else hash_table_size

end

/-! ## Rounding up -/

theorem cntlzw_zero : cntlzw 0#32 = 32#32 := by decide

theorem toNat_cntlzw {num : BitVec 32} (h : num ≠ 0#32) :
    (cntlzw num).toNat = 31 - Nat.log 2 num.toNat :=
  toNat_clz h

section
variable {msize : BitVec 64} (h1 : 1 ≤ msize.toNat) (h63 : msize.toNat ≤ 2 ^ 63)
include h63

theorem clog_le : Nat.clog 2 msize.toNat ≤ 63 := Nat.clog_le_of_le_pow h63

include h1

/-- The number whose first bit is looked for. -/
theorem toNat_doubled : ((msize <<< 1) - 1#64).toNat = 2 * msize.toNat - 1 := by
  rw [BitVec.toNat_sub, BitVec.toNat_shiftLeft, Nat.shiftLeft_eq, pow_one, BitVec.toNat_ofNat]
  omega

theorem toNat_nbits : (nbits msize).toNat = 63 - Nat.clog 2 msize.toNat := by
  obtain ⟨x, hx⟩ : ∃ x, x = (msize <<< 1) - 1#64 := ⟨_, rfl⟩
  have hdoubled : x.toNat = 2 * msize.toNat - 1 := by rw [hx, toNat_doubled h1 h63]
  have hlog : Nat.log 2 x.toNat = Nat.clog 2 msize.toNat := by rw [hdoubled, log_two_mul_pred h1]
  have hupper : ((x >>> 32).setWidth 32).toNat = x.toNat / 2 ^ 32 := by
    rw [BitVec.toNat_setWidth, BitVec.toNat_ushiftRight, Nat.shiftRight_eq_div_pow]
    omega
  simp only [nbits, ← hx, ← hlog]
  by_cases hzero : (x >>> 32).setWidth 32 = 0#32
  · -- the upper half is empty
    have hsmall : x.toNat < 2 ^ 32 := by
      rw [hzero, BitVec.toNat_ofNat] at hupper
      omega
    have hlower : (x.setWidth 32).toNat = x.toNat := by
      rw [BitVec.toNat_setWidth, Nat.mod_eq_of_lt hsmall]
    have hne : x.setWidth 32 ≠ 0#32 := by
      intro h0
      rw [h0, BitVec.toNat_ofNat] at hlower
      omega
    have hlt : Nat.log 2 x.toNat < 32 := Nat.log_lt_of_lt_pow (by omega) hsmall
    have hclz := toNat_cntlzw hne
    rw [hlower] at hclz
    rw [hzero, cntlzw_zero, if_pos rfl, BitVec.toNat_add, hclz, BitVec.toNat_ofNat]
    omega
  · have hclz := toNat_cntlzw hzero
    rw [hupper, Nat.log_div_base_pow] at hclz
    have hbig : 32 ≤ Nat.log 2 x.toNat := by
      refine Nat.le_log_of_pow_le Nat.one_lt_two ?_
      by_contra hlt
      refine hzero (BitVec.eq_of_toNat_eq ?_)
      rw [hupper, Nat.div_eq_of_lt (Nat.lt_of_not_le hlt)]
      rfl
    have hne : cntlzw ((x >>> 32).setWidth 32) ≠ 32#32 := by
      intro h32
      rw [h32, BitVec.toNat_ofNat] at hclz
      omega
    rw [if_neg hne, hclz]
    omega

theorem toNat_tmemsize : (tmemsize msize).toNat = 2 ^ min (Nat.clog 2 msize.toNat) 37 := by
  have hc := clog_le h63
  have hround : (0x8000000000000000#64 >>> (nbits msize).toNat).toNat =
      2 ^ Nat.clog 2 msize.toNat := by
    rw [BitVec.toNat_ushiftRight, Nat.shiftRight_eq_div_pow, toNat_nbits h1 h63]
    have hdiv : 2 ^ 63 / 2 ^ (63 - Nat.clog 2 msize.toNat) = 2 ^ Nat.clog 2 msize.toNat := by
      rw [Nat.pow_div (Nat.sub_le ..) Nat.two_pos, Nat.sub_sub_self hc]
    exact hdiv
  rw [tmemsize]
  have hclamp : (0x0000002000000000#64).toNat = 2 ^ 37 := rfl
  simp only [GT.gt, BitVec.lt_def, hround, hclamp]
  split_ifs with hlt
  · rw [min_eq_right (le_of_lt ((Nat.pow_lt_pow_iff_right Nat.one_lt_two).mp hlt)), hclamp]
  · rw [min_eq_left ((Nat.pow_le_pow_iff_right Nat.one_lt_two).mp (Nat.le_of_not_lt hlt)), hround]

end

/-! ## The size of the table -/

/-- The PTEG sizes of the G4 and the G5. -/
theorem exists_pteg {pfPTEG : BitVec 32} (hpf : pfPTEG = 64#32 ∨ pfPTEG = 128#32) :
    ∃ a, pfPTEG.toNat = 2 ^ a ∧ 6 ≤ a ∧ a ≤ 7 := by
  rcases hpf with rfl | rfl
  · exact ⟨6, rfl, by omega⟩
  · exact ⟨7, rfl, by omega⟩

section
variable {msize : BitVec 64} (h1 : 1 ≤ msize.toNat) (h63 : msize.toNat ≤ 2 ^ 63)
  {pfPTEG : BitVec 32} {a : ℕ} (hpf : pfPTEG.toNat = 2 ^ a) (ha6 : 6 ≤ a) (ha7 : a ≤ 7)
include h1 h63

/-- Pairs of pages. -/
theorem toNat_pairs_le : (tmemsize msize).toNat / 2 ^ 13 ≤ 2 ^ 24 := by
  have hle : (tmemsize msize).toNat ≤ 2 ^ 37 := by
    rw [toNat_tmemsize h1 h63]
    exact Nat.pow_le_pow_right Nat.two_pos (Nat.min_le_right ..)
  omega

include hpf ha7

theorem recommended_lt : (tmemsize msize).toNat / 2 ^ 13 * pfPTEG.toNat < 2 ^ 32 := by
  have hle := toNat_pairs_le h1 h63
  have hpow : 2 ^ a ≤ 2 ^ 7 := Nat.pow_le_pow_right Nat.two_pos ha7
  rw [hpf]
  calc (tmemsize msize).toNat / 2 ^ 13 * 2 ^ a ≤ 2 ^ 24 * 2 ^ 7 := Nat.mul_le_mul hle hpow
    _ < 2 ^ 32 := by decide

/-- The product does not wrap. -/
theorem toNat_recommended :
    (recommended msize pfPTEG).toNat = (tmemsize msize).toNat / 2 ^ 13 * pfPTEG.toNat := by
  have hle := toNat_pairs_le h1 h63
  have hlt := recommended_lt h1 h63 hpf ha7
  have hnarrow : (tmemsize msize).toNat / 2 ^ (12 + 1) % 2 ^ 32 = (tmemsize msize).toNat / 2 ^ 13 :=
    Nat.mod_eq_of_lt (by omega)
  rw [recommended, BitVec.toNat_mul, BitVec.toNat_setWidth, BitVec.toNat_ushiftRight,
    Nat.shiftRight_eq_div_pow, hnarrow, Nat.mod_eq_of_lt hlt]

theorem toNat_halved : (halved msize pfPTEG).toNat =
    2 ^ min (Nat.clog 2 msize.toNat) 37 / 2 ^ 13 * 2 ^ a / 2 := by
  rw [halved, BitVec.toNat_ushiftRight, toNat_recommended h1 h63 hpf ha7, Nat.shiftRight_eq_div_pow,
    toNat_tmemsize h1 h63, hpf]

/-- Less than a pair of pages gets no table. -/
theorem toNat_halved_small (hc : Nat.clog 2 msize.toNat < 13) :
    (halved msize pfPTEG).toNat = 0 := by
  have hlt : 2 ^ min (Nat.clog 2 msize.toNat) 37 < 2 ^ 13 :=
    Nat.pow_lt_pow_right Nat.one_lt_two (by omega)
  rw [toNat_halved h1 h63 hpf ha7, Nat.div_eq_of_lt hlt, Nat.zero_mul]

include ha6

theorem toNat_halved_large (hc : 13 ≤ Nat.clog 2 msize.toNat) :
    (halved msize pfPTEG).toNat = 2 ^ (min (Nat.clog 2 msize.toNat) 37 + a - 14) := by
  have hexp : min (Nat.clog 2 msize.toNat) 37 - 13 + a =
      min (Nat.clog 2 msize.toNat) 37 + a - 14 + 1 := by omega
  rw [toNat_halved h1 h63 hpf ha7, Nat.pow_div (by omega) Nat.two_pos, ← pow_add, hexp, pow_succ,
    Nat.mul_div_cancel _ Nat.two_pos]

omit h1 h63 hpf ha6 ha7 in
/-- A shift to the left, in 32 bits. -/
theorem toNat_shifted (msize : BitVec 64) (pfPTEG : BitVec 32) {k : ℕ} (hk : k < 32) :
    (shifted msize pfPTEG (BitVec.ofNat 32 k)).toNat =
      (halved msize pfPTEG).toNat * 2 ^ k % 2 ^ 32 := by
  have hnat : (BitVec.ofNat 32 k).toNat = k := by
    rw [BitVec.toNat_ofNat, Nat.mod_eq_of_lt (by omega)]
  have hnonneg : 0 ≤ (BitVec.ofNat 32 k).toInt := by
    rw [BitVec.toInt_eq_toNat_of_lt (by omega)]
    exact Int.natCast_nonneg _
  rw [shifted, if_pos hnonneg, BitVec.toNat_shiftLeft, Nat.shiftLeft_eq, hnat]

omit h1 h63 hpf ha6 ha7 in
theorem toNat_calculate (msize : BitVec 64) (pfPTEG hash_table_shift : BitVec 32) :
    (calculate_hash_table_size msize pfPTEG hash_table_shift).toNat =
      max (2 ^ 18) (shifted msize pfPTEG hash_table_shift).toNat := by
  have hmin : (256#32 * 1024#32).toNat = 2 ^ 18 := by decide
  simp only [calculate_hash_table_size, BitVec.lt_def, hmin]
  split_ifs with hlt
  · rw [max_eq_left (le_of_lt hlt), hmin]
  · rw [max_eq_right (Nat.le_of_not_lt hlt)]

end

/-- The least power of two not below a number is the one that its logarithm says. -/
theorem eq_two_pow_clog {m P : ℕ} (hP : IsLeast {p | (∃ k, p = 2 ^ k) ∧ m ≤ p} P) :
    P = 2 ^ Nat.clog 2 m :=
  hP.unique (isLeast_clog m)

theorem min_two_pow (c : ℕ) : min (2 ^ c) (2 ^ 37) = 2 ^ min c 37 := by
  rcases Nat.le_total c 37 with hc | hc
  · rw [min_eq_left hc, min_eq_left (Nat.pow_le_pow_right Nat.two_pos hc)]
  · rw [min_eq_right hc, min_eq_right (Nat.pow_le_pow_right Nat.two_pos hc)]

/-- The formula, in unbounded integers. -/
def formula (P pfPTEG k : ℕ) : ℕ := max (2 ^ 18) (min P (2 ^ 37) / 2 ^ 13 * pfPTEG / 2 * 2 ^ k)

section
variable {msize : BitVec 64} (h1 : 1 ≤ msize.toNat) (h63 : msize.toNat ≤ 2 ^ 63)
  {pfPTEG : BitVec 32} {a : ℕ} (hpf : pfPTEG.toNat = 2 ^ a) (ha6 : 6 ≤ a) (ha7 : a ≤ 7)
include h1 h63 hpf ha6 ha7

/-- Without a shift, the size is a power of two. -/
theorem calculate_eq_two_pow : (calculate_hash_table_size msize pfPTEG 0#32).toNat =
    2 ^ max 18 (min (Nat.clog 2 msize.toNat) 37 + a - 14) := by
  have hshift := toNat_shifted msize pfPTEG (k := 0) (by decide)
  rw [pow_zero, Nat.mul_one, Nat.mod_eq_of_lt (BitVec.isLt _)] at hshift
  rw [toNat_calculate, hshift]
  rcases Nat.lt_or_ge (Nat.clog 2 msize.toNat) 13 with hc | hc
  · rw [toNat_halved_small h1 h63 hpf ha7 hc, max_eq_left (Nat.zero_le _), max_eq_left (by omega)]
  · rw [toNat_halved_large h1 h63 hpf ha6 ha7 hc]
    rcases Nat.le_total 18 (min (Nat.clog 2 msize.toNat) 37 + a - 14) with h18 | h18
    · rw [max_eq_right h18, max_eq_right (Nat.pow_le_pow_right Nat.two_pos h18)]
    · rw [max_eq_left h18, max_eq_left (Nat.pow_le_pow_right Nat.two_pos h18)]

end

/-- **The size without a shift** is a closed form of the least power of two not below the size of
memory.  Nothing wraps on the way; the result is a power of two and grows with memory. -/
theorem calculate_closed_form (msize : BitVec 64) (h1 : 1 ≤ msize.toNat)
    (h63 : msize.toNat ≤ 2 ^ 63) (pfPTEG : BitVec 32) (hpf : pfPTEG = 64#32 ∨ pfPTEG = 128#32)
    (P : ℕ) (hP : IsLeast {p | (∃ k, p = 2 ^ k) ∧ msize.toNat ≤ p} P) :
    (calculate_hash_table_size msize pfPTEG 0#32).toNat =
      max (2 ^ 18) (min P (2 ^ 37) / 2 ^ 13 * pfPTEG.toNat / 2) ∧
    (nbits msize).toNat ≤ 63 ∧
    ((tmemsize msize).toNat / 2 ^ 13 < 2 ^ 32 ∧
      (tmemsize msize).toNat / 2 ^ 13 * pfPTEG.toNat < 2 ^ 32 ∧
      (recommended msize pfPTEG).toNat = (tmemsize msize).toNat / 2 ^ 13 * pfPTEG.toNat) ∧
    (∃ k, 18 ≤ k ∧ k ≤ 30 ∧ (calculate_hash_table_size msize pfPTEG 0#32).toNat = 2 ^ k) ∧
    ∀ msize' : BitVec 64, msize.toNat ≤ msize'.toNat → msize'.toNat ≤ 2 ^ 63 →
      (calculate_hash_table_size msize pfPTEG 0#32).toNat ≤
        (calculate_hash_table_size msize' pfPTEG 0#32).toNat := by
  obtain ⟨a, hpf, ha6, ha7⟩ := exists_pteg hpf
  have hshift := toNat_shifted msize pfPTEG (k := 0) (by decide)
  rw [pow_zero, Nat.mul_one, Nat.mod_eq_of_lt (BitVec.isLt _)] at hshift
  refine ⟨?_, ?_, ⟨?_, recommended_lt h1 h63 hpf ha7, toNat_recommended h1 h63 hpf ha7⟩, ?_, ?_⟩
  · rw [toNat_calculate, hshift, toNat_halved h1 h63 hpf ha7, eq_two_pow_clog hP, min_two_pow, hpf]
  · rw [toNat_nbits h1 h63]
    exact Nat.sub_le ..
  · have hle := toNat_pairs_le h1 h63
    omega
  · exact ⟨_, by omega, by omega, calculate_eq_two_pow h1 h63 hpf ha6 ha7⟩
  · intro msize' hle h63'
    have hlog := Nat.clog_mono_right 2 hle
    rw [calculate_eq_two_pow h1 h63 hpf ha6 ha7,
      calculate_eq_two_pow (h1.trans hle) h63' hpf ha6 ha7]
    exact Nat.pow_le_pow_right Nat.two_pos (by omega)

/-- Half a gigabyte and one byte, on a G5. -/
theorem calculate_closed_form_512M :
    (calculate_hash_table_size (2 ^ 29 + 1) 128#32 0#32).toNat =
      max (2 ^ 18) (min (2 ^ 30) (2 ^ 37) / 2 ^ 13 * 128 / 2) := by
  have hsize : (2 ^ 29 + 1 : BitVec 64).toNat = 2 ^ 29 + 1 := by decide
  have hP : IsLeast {p | (∃ k, p = 2 ^ k) ∧ (2 ^ 29 + 1 : BitVec 64).toNat ≤ p} (2 ^ 30) := by
    have hclog : Nat.clog 2 (2 ^ 29 + 1) = 30 := by
      refine le_antisymm (Nat.clog_le_of_le_pow (by decide)) ?_
      exact (Nat.lt_clog_iff_pow_lt Nat.one_lt_two).mpr (by decide)
    rw [hsize, ← hclog]
    exact isLeast_clog _
  exact (calculate_closed_form (2 ^ 29 + 1) (by decide) (by decide) 128#32 (.inr rfl) _ hP).1

/-! ## Shifts -/

/-- From the shift `k` to the next the size does not fall, no bits are lost at either, and both
sizes are what the formula says. -/
structure Scales (msize : BitVec 64) (pfPTEG : BitVec 32) (P k : ℕ) : Prop where
  le : (calculate_hash_table_size msize pfPTEG (BitVec.ofNat 32 k)).toNat ≤
    (calculate_hash_table_size msize pfPTEG (BitVec.ofNat 32 (k + 1))).toNat
  keeps : ∀ s, s = k ∨ s = k + 1 →
    (shifted msize pfPTEG (BitVec.ofNat 32 s)).toNat = (halved msize pfPTEG).toNat * 2 ^ s
  exact : ∀ s, s = k ∨ s = k + 1 →
    (calculate_hash_table_size msize pfPTEG (BitVec.ofNat 32 s)).toNat = formula P pfPTEG.toNat s

section
variable {msize : BitVec 64} (h1 : 1 ≤ msize.toNat) (h63 : msize.toNat ≤ 2 ^ 63)
  {pfPTEG : BitVec 32} {a : ℕ} (hpf : pfPTEG.toNat = 2 ^ a) (ha6 : 6 ≤ a) (ha7 : a ≤ 7) {k : ℕ}
include h1 h63 hpf ha6 ha7

/-- The shift fits 32 bits. -/
theorem halved_mul_lt_iff (hk : k ≤ 30) :
    (halved msize pfPTEG).toNat * 2 ^ (k + 1) < 2 ^ 32 ↔
      msize.toNat ≤ 2 ^ 12 ∨ pfPTEG.toNat * 2 ^ k < 2 ^ 8 ∨
        msize.toNat * pfPTEG.toNat * 2 ^ k ≤ 2 ^ 44 := by
  have hsmall : Nat.clog 2 msize.toNat ≤ 12 ↔ msize.toNat ≤ 2 ^ 12 :=
    Nat.clog_le_iff_le_pow Nat.one_lt_two
  have hclamp : pfPTEG.toNat * 2 ^ k < 2 ^ 8 ↔ a + k < 8 := by
    rw [hpf, ← pow_add, Nat.pow_lt_pow_iff_right Nat.one_lt_two]
  have hproduct : msize.toNat * pfPTEG.toNat * 2 ^ k ≤ 2 ^ 44 ↔
      Nat.clog 2 msize.toNat + a + k ≤ 44 := by
    have hsplit : 2 ^ 44 = 2 ^ (44 - (a + k)) * 2 ^ (a + k) := by
      rw [← pow_add]
      congr 1
      omega
    rw [hpf, Nat.mul_assoc, ← pow_add, hsplit, Nat.mul_le_mul_right_iff (Nat.two_pow_pos _),
      ← Nat.clog_le_iff_le_pow Nat.one_lt_two]
    omega
  rw [← hsmall, hclamp, hproduct]
  rcases Nat.lt_or_ge (Nat.clog 2 msize.toNat) 13 with hc | hc
  · rw [toNat_halved_small h1 h63 hpf ha7 hc, Nat.zero_mul]
    constructor
    · intro _
      omega
    · intro _
      decide
  · rw [toNat_halved_large h1 h63 hpf ha6 ha7 hc, ← pow_add,
      Nat.pow_lt_pow_iff_right Nat.one_lt_two]
    omega

omit ha6 in
/-- What fits is not lost. -/
theorem scales_of_lt {P : ℕ} (hP : P = 2 ^ Nat.clog 2 msize.toNat) (hk : k ≤ 30)
    (hlt : (halved msize pfPTEG).toNat * 2 ^ (k + 1) < 2 ^ 32) : Scales msize pfPTEG P k := by
  have hkeeps (s : ℕ) (hs : s = k ∨ s = k + 1) :
      (shifted msize pfPTEG (BitVec.ofNat 32 s)).toNat = (halved msize pfPTEG).toNat * 2 ^ s := by
    have hpow : 2 ^ s ≤ 2 ^ (k + 1) := Nat.pow_le_pow_right Nat.two_pos (by omega)
    rw [toNat_shifted msize pfPTEG (by omega),
      Nat.mod_eq_of_lt (Nat.lt_of_le_of_lt (Nat.mul_le_mul_left _ hpow) hlt)]
  constructor
  · rw [toNat_calculate, toNat_calculate, hkeeps k (.inl rfl), hkeeps (k + 1) (.inr rfl)]
    refine max_le_max_left _ (Nat.mul_le_mul_left _ ?_)
    exact Nat.pow_le_pow_right Nat.two_pos (Nat.le_succ k)
  · exact hkeeps
  · intro s hs
    rw [toNat_calculate, hkeeps s hs, formula, hP, min_two_pow, toNat_halved h1 h63 hpf ha7, hpf]

end

/-- **A larger shift gives a larger table exactly where nothing is shifted out**: where there is
less than a pair of pages, where the shift is so small that the clamp of the memory size covers it,
or where memory, PTEG size and shift together are small enough. -/
theorem scales_iff (msize : BitVec 64) (h1 : 1 ≤ msize.toNat) (h63 : msize.toNat ≤ 2 ^ 63)
    (pfPTEG : BitVec 32) (hpf : pfPTEG = 64#32 ∨ pfPTEG = 128#32) (P : ℕ)
    (hP : IsLeast {p | (∃ k, p = 2 ^ k) ∧ msize.toNat ≤ p} P) (k : ℕ) (hk : k ≤ 30) :
    Scales msize pfPTEG P k ↔
      msize.toNat ≤ 2 ^ 12 ∨ pfPTEG.toNat * 2 ^ k < 2 ^ 8 ∨
        msize.toNat * pfPTEG.toNat * 2 ^ k ≤ 2 ^ 44 := by
  obtain ⟨a, hpf, ha6, ha7⟩ := exists_pteg hpf
  rw [← halved_mul_lt_iff h1 h63 hpf ha6 ha7 hk]
  constructor
  · intro h
    rw [← h.keeps (k + 1) (.inr rfl)]
    exact BitVec.isLt _
  · exact scales_of_lt h1 h63 hpf ha7 (eq_two_pow_clog hP) hk

/-- Two gigabytes on a G5: the eighth shift takes the last bit out. -/
theorem not_scales_2G : ¬ Scales (2 ^ 31) 128#32 (2 ^ 31) 7 := by
  intro h
  exact absurd h.le (by decide)

/-- One shift less is fine. -/
theorem scales_iff_2G : Scales (2 ^ 31) 128#32 (2 ^ 31) 6 := by
  have hsize : (2 ^ 31 : BitVec 64).toNat = 2 ^ 31 := by decide
  have hP : IsLeast {p | (∃ k, p = 2 ^ k) ∧ (2 ^ 31 : BitVec 64).toNat ≤ p} (2 ^ 31) := by
    rw [hsize]
    exact ⟨⟨⟨31, rfl⟩, le_refl _⟩, fun p hp ↦ hp.2⟩
  exact (scales_iff (2 ^ 31) (by decide) (by decide) 128#32 (.inr rfl) _ hP 6 (by decide)).mpr
    (.inr (.inr (by decide)))

end HashTableSize
end MacOSXInternal
