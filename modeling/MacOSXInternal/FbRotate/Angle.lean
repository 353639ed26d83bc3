import Mathlib.Data.Int.ModEq

/-!
# `fb-rotate.c`

`fb-rotate` asks the I/O Kit to rotate a display.  The angle is a `long` from the command line, and
the options for the request are looked up in a table of the four rotations.

* `angle2options` is the lookup, and `main` the program around it.
* `Mapped` is what the lookup should do, and `toInt_index` where it looks.
* `mapped_iff` says for which angles it does that: a C remainder has the sign of the dividend.
  `main_of_upright` is about the program then.
-/

set_option autoImplicit false

namespace MacOSXInternal
namespace FbRotate

/-! ## The program -/

/-- The type `long`, which is at least as wide as `int`. -/
abbrev Long (e : ℕ) := BitVec (32 + e)

abbrev IOOptionBits := BitVec 32

/-- The numbers of the rotations, as `<IOKit/graphics/IOGraphicsTypes.h>` has them. -/
structure IOScale where
  kIOScaleRotate0 : IOOptionBits
  kIOScaleRotate90 : IOOptionBits
  kIOScaleRotate180 : IOOptionBits
  kIOScaleRotate270 : IOOptionBits

def kIOFBSetTransform : IOOptionBits := 0x00000400

variable {e : ℕ} (k : IOScale)

def anglebits : List IOOptionBits :=
  [kIOFBSetTransform ||| k.kIOScaleRotate0 <<< 16, kIOFBSetTransform ||| k.kIOScaleRotate90 <<< 16,
    kIOFBSetTransform ||| k.kIOScaleRotate180 <<< 16,
    kIOFBSetTransform ||| k.kIOScaleRotate270 <<< 16]

/-- An entry of a table.  There is none outside of it. -/
def entry {α : Type} (table : List α) (i : ℤ) : Option α := if i < 0 then none else table[i.toNat]?

def angle2options (angle : Long e) : Option IOOptionBits :=
  if angle.srem 90 ≠ 0 then entry (anglebits k) 0
  else entry (anglebits k) ((angle.sdiv 90).srem 4).toInt

/-- An option of the command line, with what `strtol` makes of its argument. -/
inductive Opt (e : ℕ)
  | d (targetDisplay : BitVec 32)
  | l
  | r (angle : Long e)
  | other
  deriving DecidableEq

/-- The displays. -/
structure Displays where
  mainDisplay : BitVec 32
  /-- What `IOServiceRequestProbe` returns. -/
  requestProbe : BitVec 32 → IOOptionBits → BitVec 32

/-- How the program ends. -/
inductive Outcome
  | usage
  /-- The displays have been listed. -/
  | listed
  /-- The request that has been made, and the number that the program exits with. -/
  | requested (targetDisplay : BitVec 32) (options : IOOptionBits) (status : ℕ)
  /-- There is no such entry in the table. -/
  | undefined
  deriving DecidableEq

/-- The loop over the options, with `targetDisplay` and `angle`. -/
def parse (ds : Displays) : List (Opt e) → BitVec 32 × Long e → Except Outcome (BitVec 32 × Long e)
  | [], v => .ok v
  | .d targetDisplay :: opts, v =>
    parse ds opts (if targetDisplay = 0 then ds.mainDisplay else targetDisplay, v.2)
  | .l :: _, _ => .error .listed
  | .r angle :: opts, v => parse ds opts (v.1, angle)
  | .other :: opts, v => parse ds opts v

def main (ds : Displays) (opts : List (Opt e)) : Outcome :=
  match parse ds opts (0, 0) with
  | .error outcome => outcome
  | .ok (targetDisplay, angle) =>
    if targetDisplay = 0 then .usage
    else
      match angle2options k angle with
      | none => .undefined
      | some options =>
        .requested targetDisplay options (if ds.requestProbe targetDisplay options = 0 then 0 else 1)

/-! ## What should be -/

inductive Rotation
  | rotate0
  | rotate90
  | rotate180
  | rotate270

def Rotation.degrees : Rotation → ℤ
  | .rotate0 => 0
  | .rotate90 => 90
  | .rotate180 => 180
  | .rotate270 => 270

/-- The options for a rotation. -/
def Rotation.options : Rotation → IOOptionBits
  | .rotate0 => kIOFBSetTransform ||| k.kIOScaleRotate0 <<< 16
  | .rotate90 => kIOFBSetTransform ||| k.kIOScaleRotate90 <<< 16
  | .rotate180 => kIOFBSetTransform ||| k.kIOScaleRotate180 <<< 16
  | .rotate270 => kIOFBSetTransform ||| k.kIOScaleRotate270 <<< 16

/-- The index of the entry that is looked up. -/
def index (angle : Long e) : ℤ :=
  if angle.srem 90 ≠ 0 then 0 else ((angle.sdiv 90).srem 4).toInt

/-- The table is read inside of it, a multiple of 90 is mapped to the rotation that it is, and any
other angle to a reset. -/
structure Mapped (angle : Long e) : Prop where
  inside : 0 ≤ index angle ∧ index angle ≤ 3
  rotation : 90 ∣ angle.toInt → ∀ r : Rotation, angle.toInt ≡ r.degrees [ZMOD 360] →
    angle2options k angle = some (r.options k)
  reset : ¬ 90 ∣ angle.toInt → angle2options k angle = some (Rotation.rotate0.options k)

/-- The remainder of its quotient is not negative. -/
def Upright (angle : Long e) : Prop :=
  0 ≤ angle.toInt ∨ ¬ 90 ∣ angle.toInt ∨ 360 ∣ angle.toInt

instance (angle : Long e) : Decidable (Upright angle) := inferInstanceAs (Decidable (_ ∨ _ ∨ _))

/-! ## Where the table is read -/

variable {k} {angle : Long e}

theorem angle2options_eq : angle2options k angle = entry (anglebits k) (index angle) := by
  rw [angle2options, index]
  split <;> rfl

theorem toInt_ofNat_long {n : ℕ} (hn : n < 2 ^ 31) : (BitVec.ofNat (32 + e) n).toInt = n := by
  have hle : 2 ^ 32 ≤ 2 ^ (32 + e) := Nat.pow_le_pow_right (by decide) (by omega)
  rw [BitVec.toInt_ofNat']
  exact Int.bmod_eq_of_le_mul_two (by omega) (by omega)

theorem srem_90_eq_zero_iff : angle.srem 90 = 0 ↔ 90 ∣ angle.toInt := by
  have h90 : (90 : Long e).toInt = 90 := toInt_ofNat_long (by decide)
  have h0 : (0 : Long e).toInt = 0 := BitVec.toInt_zero
  rw [← BitVec.toInt_inj, BitVec.toInt_srem, h90, h0, Int.dvd_iff_tmod_eq_zero]

theorem toInt_quotient (h : 90 ∣ angle.toInt) : (angle.sdiv 90).toInt = angle.toInt / 90 := by
  have h90 : (90 : Long e).toInt = 90 := toInt_ofNat_long (by decide)
  have hlow := BitVec.le_two_mul_toInt (x := angle)
  have hhigh := BitVec.two_mul_toInt_lt (x := angle)
  rw [BitVec.toInt_sdiv, h90, Int.tdiv_eq_ediv_of_dvd h]
  refine Int.bmod_eq_of_le_mul_two ?_ ?_
  · push_cast
    omega
  · push_cast
    omega

/-- **Where a multiple of 90 is looked up**: the remainder of its quotient has the sign of the
angle. -/
theorem index_of_dvd (h : 90 ∣ angle.toInt) :
    index angle = angle.toInt / 90 % 4 -
      if 0 ≤ angle.toInt / 90 ∨ 4 ∣ angle.toInt / 90 then 0 else 4 := by
  have h4 : (4 : Long e).toInt = 4 := toInt_ofNat_long (by decide)
  rw [index, if_neg (not_not.mpr (srem_90_eq_zero_iff.mpr h)), BitVec.toInt_srem, toInt_quotient h,
    h4, Int.tmod_eq_emod]
  split_ifs <;> rfl

theorem index_of_not_dvd (h : ¬ 90 ∣ angle.toInt) : index angle = 0 :=
  if_pos (mt srem_90_eq_zero_iff.mp h)

theorem index_nonneg_iff : 0 ≤ index angle ↔ Upright angle := by
  rw [Upright]
  by_cases h : 90 ∣ angle.toInt
  · rw [index_of_dvd h]
    split_ifs <;> omega
  · rw [index_of_not_dvd h]
    exact iff_of_true (le_refl 0) (.inr (.inl h))

theorem index_of_upright (h : 90 ∣ angle.toInt) (hup : Upright angle) :
    index angle = angle.toInt / 90 % 4 := by
  have hnonneg := index_nonneg_iff.mpr hup
  rw [index_of_dvd h] at hnonneg ⊢
  split_ifs at hnonneg ⊢ <;> omega

/-! ## The result -/

theorem entry_rotation (k : IOScale) {i : ℤ} {r : Rotation} (h : r.degrees = 90 * i) :
    entry (anglebits k) i = some (r.options k) := by
  cases r <;> simp only [Rotation.degrees] at h
  · obtain rfl : i = 0 := by omega
    rfl
  · obtain rfl : i = 1 := by omega
    rfl
  · obtain rfl : i = 2 := by omega
    rfl
  · obtain rfl : i = 3 := by omega
    rfl

/-- A multiple of 90 is one of the rotations. -/
theorem exists_rotation (h : 90 ∣ angle.toInt) :
    ∃ r : Rotation, angle.toInt ≡ r.degrees [ZMOD 360] := by
  have hcases : angle.toInt % 360 = 0 ∨ angle.toInt % 360 = 90 ∨ angle.toInt % 360 = 180 ∨
      angle.toInt % 360 = 270 := by omega
  rcases hcases with h | h | h | h
  · exact ⟨.rotate0, h⟩
  · exact ⟨.rotate90, h⟩
  · exact ⟨.rotate180, h⟩
  · exact ⟨.rotate270, h⟩

theorem degrees_range (r : Rotation) : 0 ≤ r.degrees ∧ r.degrees < 360 := by
  cases r <;> decide

/-- An upright angle is mapped to the right rotation. -/
theorem Upright.mapped (hup : Upright angle) : Mapped k angle where
  inside := by
    refine ⟨index_nonneg_iff.mpr hup, ?_⟩
    by_cases h : 90 ∣ angle.toInt
    · rw [index_of_upright h hup]
      omega
    · rw [index_of_not_dvd h]
      decide
  rotation h r hr := by
    have hmod : angle.toInt % 360 = r.degrees % 360 := hr
    rw [Int.emod_eq_of_lt (degrees_range r).1 (degrees_range r).2] at hmod
    rw [angle2options_eq, index_of_upright h hup]
    exact entry_rotation k (by omega)
  reset h := by
    rw [angle2options_eq, index_of_not_dvd h]
    rfl

/-- Angles that differ by whole turns. -/
theorem index_congr {angle' : Long e} (hup : Upright angle) (hup' : Upright angle')
    (h : angle.toInt ≡ angle'.toInt [ZMOD 360]) : index angle = index angle' := by
  have hmod : angle.toInt % 360 = angle'.toInt % 360 := h
  by_cases hdvd : 90 ∣ angle.toInt
  · rw [index_of_upright hdvd hup, index_of_upright (by omega) hup']
    omega
  · rw [index_of_not_dvd hdvd, index_of_not_dvd (by omega)]

/-- **The lookup is right** exactly for the angles that are not negative, no multiples of 90, or
multiples of 360. -/
theorem mapped_iff (k : IOScale) (angle angle' : Long e) :
    (Mapped k angle ∧ Mapped k angle' ∧
      (angle.toInt ≡ angle'.toInt [ZMOD 360] → angle2options k angle = angle2options k angle')) ↔
    Upright angle ∧ Upright angle' := by
  refine ⟨fun h ↦ ?_, fun h ↦ ?_⟩
  · exact ⟨index_nonneg_iff.mp h.1.inside.1, index_nonneg_iff.mp h.2.1.inside.1⟩
  · refine ⟨h.1.mapped, h.2.mapped, fun hmod ↦ ?_⟩
    rw [angle2options_eq, angle2options_eq, index_congr h.1 h.2 hmod]

/-- The program requests what an upright angle is mapped to. -/
theorem main_of_upright (k : IOScale) (ds : Displays) {opts : List (Opt e)}
    {targetDisplay : BitVec 32} (hparse : parse ds opts (0, 0) = .ok (targetDisplay, angle))
    (hne : targetDisplay ≠ 0) (hup : Upright angle) :
    ∃ options, angle2options k angle = some options ∧
      main k ds opts = .requested targetDisplay options
        (if ds.requestProbe targetDisplay options = 0 then 0 else 1) := by
  have hmapped : Mapped k angle := hup.mapped
  obtain ⟨options, hoptions⟩ : ∃ options, angle2options k angle = some options := by
    by_cases h : 90 ∣ angle.toInt
    · obtain ⟨r, hr⟩ := exists_rotation h
      exact ⟨_, hmapped.rotation h r hr⟩
    · exact ⟨_, hmapped.reset h⟩
  refine ⟨options, hoptions, ?_⟩
  simp only [main, hparse, if_neg hne, hoptions]

/-- The numbers in Mac OS X 10.4. -/
def tiger : IOScale := ⟨0, 0x30, 0x60, 0x50⟩

/-- A single display, which can be rotated. -/
def oneDisplay : Displays := ⟨1, fun _ _ ↦ 0⟩

/-- **A quarter turn backwards** is looked up in front of the table. -/
theorem not_mapped_quarter :
    ¬ Mapped tiger (-90 : Long 0) ∧
      main tiger oneDisplay [.d 1, .r (-90 : Long 0)] = .undefined := by
  refine ⟨fun h ↦ ?_, rfl⟩
  exact absurd (index_nonneg_iff.mp h.inside.1) (by decide)

end FbRotate
end MacOSXInternal
