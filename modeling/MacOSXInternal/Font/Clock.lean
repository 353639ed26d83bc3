import Mathlib.Tactic.Ring
import MacOSXInternal.Font.Print
import MacOSXInternal.Lib.Raster

/-!
# `clock.of`

Once a second the time of the day is drawn in the last eight character cells of the first row: the
seconds, the minutes and the hour, each as a number, and two colons between them.

* `mytime` draws it.  `layout` says which character goes to which cell, and `mytime_run` that this
  is what the word does.
* `overdraw` is what is on the screen then, pixel by pixel, whatever was there before.
* `ShowsTime` is what the word should do, and `showsTime_iff` says at which times it does: `(u.)`
  has no leading zeros.
-/

set_option autoImplicit false

namespace MacOSXInternal
namespace Font

open Forth Raster

/-! ## The program -/

/-- The console; the addresses of the two colons; and the end of the area where numbers are made
into strings, which does not reach back to the colons. -/
structure Clock extends Machine where
  screenWidth : ℤ
  colon₁ : ℤ
  colon₂ : ℤ
  holdEnd : ℤ
  apart₁ : colon₁ < holdEnd - 10 ∨ holdEnd ≤ colon₁
  apart₂ : colon₂ < holdEnd - 10 ∨ holdEnd ≤ colon₂

/-- What `get-time` returns. -/
structure Time where
  seconds : ℕ
  minutes : ℕ
  hour : ℕ
  day : ℕ
  month : ℕ
  year : ℕ
  seconds_lt : seconds < 60
  minutes_lt : minutes < 60
  hour_lt : hour < 24

/-- The digits of a number, as characters.  The base is ten, since `font.of` says `decimal`. -/
def digits (u : ℕ) : List Byte := (Nat.toDigits 10 u).map fun c ↦ BitVec.ofNat 8 c.toNat

/-- Some bytes are put to an address. -/
def Memory.hold (m : Memory) (adr : ℤ) (text : List Byte) : Memory :=
  { m with
    bytes := fun a ↦
      if adr ≤ a ∧ a < adr + text.length then text[(a - adr).toNat]? else m.bytes a }

variable (e : Clock)

/-- `( -- seconds minutes hour day month year )` -/
def getTime (t : Time) : Word Memory :=
  words [lit t.seconds, lit t.minutes, lit t.hour, lit t.day, lit t.month, lit t.year]

/-- `(u.)`, that is `( u -- string )`. -/
def uDot : Word Memory
  | ⟨u :: st, ix, m⟩ =>
    let text := digits (u % cellRange).toNat
    .ok ⟨text.length :: (e.holdEnd - text.length) :: st, ix,
      m.hold (e.holdEnd - text.length) text⟩
  | _ => .error .stackUnderflow

/-- `" :"`, which has been compiled to an address. -/
def colon (adr : ℤ) : Word Memory := words [lit adr, lit 1]

/-- `screen-width k char-width * - 0`, that is `( -- x y )`. -/
def column (k : ℤ) : Word Memory :=
  words [lit e.screenWidth, lit k, lit e.charWidth, mul, sub, lit 0]

/-- `( -- )` -/
def mytime (t : Time) (fuel : ℕ) : Word Memory :=
  words
    [getTime t,
    threeDrop,
    swap,
    rot,
    uDot e, column e 2, fontPrint e.toMachine fuel,
    colon e.colon₁, column e 3, fontPrint e.toMachine fuel,
    uDot e, column e 5, fontPrint e.toMachine fuel,
    colon e.colon₂, column e 6, fontPrint e.toMachine fuel,
    uDot e, column e 8, fontPrint e.toMachine fuel]

/-- The colons have been compiled. -/
structure Compiled (m : Memory) : Prop where
  colon₁ : m.bytes e.colon₁ = some 0x3a
  colon₂ : m.bytes e.colon₂ = some 0x3a

/-! ## The cells -/

/-- The left edge of a cell, of which there are eight. -/
def cellX (k : ℕ) : ℤ := e.screenWidth - (8 - k) * e.charWidth

/-- A character in a cell. -/
def inCell (m : Memory) (k : ℕ) (c : Byte) : Transfer :=
  ⟨slot e.toMachine m (glyphIndex c), cellX e k, 0, e.charWidth, e.charHeight⟩

/-- The cells of a string. -/
def fieldAt (k : ℕ) (text : List Byte) : List (ℕ × Byte) := text.mapIdx fun j c ↦ (k + j, c)

/-- The cells that are drawn, each with its character. -/
def layout (t : Time) : List (ℕ × Byte) :=
  fieldAt 6 (digits t.seconds) ++ fieldAt 5 [0x3a] ++ fieldAt 3 (digits t.minutes) ++
    fieldAt 2 [0x3a] ++ fieldAt 0 (digits t.hour)

section
variable {e} {m : Memory} {st ix : List ℤ}

theorem drawing_eq_fieldAt (k : ℕ) (text : List Byte) :
    drawing e.toMachine m text (e.screenWidth - (8 - k) * e.charWidth) 0 =
      (fieldAt k text).map fun q ↦ inCell e m q.1 q.2 := by
  rw [drawing, fieldAt, map_mapIdx]
  congr 1
  funext j c
  rw [inCell, cellX]
  push_cast
  congr 1
  ring

theorem stringAt_hold {adr : ℤ} {text : List Byte} (h : text.length < cellRange) :
    StringAt (m.hold adr text) adr text where
  bytes := by
    intro j hj
    have hin : adr ≤ adr + j ∧ adr + j < adr + text.length := by omega
    simp only [Memory.hold]
    rw [if_pos hin, add_sub_cancel_left, Int.toNat_natCast]
  cell := h

theorem Compiled.hold (h : Compiled e m) {text : List Byte} (hlen : text.length ≤ 10) :
    Compiled e (m.hold (e.holdEnd - text.length) text) := by
  have hkept (a : ℤ) (ha : a < e.holdEnd - 10 ∨ e.holdEnd ≤ a) :
      (m.hold (e.holdEnd - text.length) text).bytes a = m.bytes a := by
    have hout : ¬ (e.holdEnd - text.length ≤ a ∧ a < e.holdEnd - text.length + text.length) := by
      omega
    exact if_neg hout
  exact ⟨(hkept _ e.apart₁).trans h.colon₁, (hkept _ e.apart₂).trans h.colon₂⟩

theorem stringAt_singleton {adr : ℤ} {c : Byte} (h : m.bytes adr = some c) :
    StringAt m adr [c] where
  bytes := by
    intro j hj
    obtain rfl : j = 0 := by simpa using hj
    simpa using h
  cell := by
    rw [List.length_singleton, cellRange]
    decide

theorem digits_ne_nil (n : ℕ) : digits n ≠ [] := by
  rw [digits, Ne, List.map_eq_nil_iff]
  exact Nat.toDigits_ne_nil

theorem length_digits_le_iff {n k : ℕ} (hk : 0 < k) : (digits n).length ≤ k ↔ n < 10 ^ k := by
  rw [digits, List.length_map, Nat.length_toDigits_le_iff (by decide) hk]

/-! ## Evaluation -/

@[simp] theorem getTime_apply (t : Time) : getTime t ⟨st, ix, m⟩ =
    .ok ⟨t.year :: t.month :: t.day :: t.hour :: t.minutes :: t.seconds :: st, ix, m⟩ := by
  simp [getTime]

@[simp] theorem colon_apply (adr : ℤ) : colon adr ⟨st, ix, m⟩ = .ok ⟨1 :: adr :: st, ix, m⟩ := by
  simp [colon]

@[simp] theorem column_apply (k : ℤ) :
    column e k ⟨st, ix, m⟩ = .ok ⟨0 :: (e.screenWidth - k * e.charWidth) :: st, ix, m⟩ := by
  simp [column]

/-- Where the digits of a number are put. -/
def Clock.held (e : Clock) (n : ℕ) : ℤ := e.holdEnd - (digits n).length

theorem uDot_apply {n : ℕ} (hn : n < 60) : uDot e ⟨(n : ℤ) :: st, ix, m⟩ =
    .ok ⟨(digits n).length :: e.held n :: st, ix, m.hold (e.held n) (digits n)⟩ := by
  have hcell : ((n : ℤ) % cellRange).toNat = n := by
    rw [Int.emod_eq_of_lt (by omega) (by rw [cellRange]; omega), Int.toNat_natCast]
  rw [uDot, hcell]
  rfl

/-- Some cells have been drawn, and what that needs is as it was. -/
structure Draws (e : Clock) (m m' : Memory) (cells : List (ℕ × Byte)) : Prop where
  compiled : Compiled e m'
  fBuffer : m'.fBuffer = m.fBuffer
  captured : m'.captured = m.captured
  drawn : m'.drawn = m.drawn ++ cells.map fun q ↦ inCell e m q.1 q.2

theorem Draws.trans {m₁ m₂ m₃ : Memory} {l l' : List (ℕ × Byte)} (h : Draws e m₁ m₂ l)
    (h' : Draws e m₂ m₃ l') : Draws e m₁ m₃ (l ++ l') where
  compiled := h'.compiled
  fBuffer := h'.fBuffer.trans h.fBuffer
  captured := h'.captured.trans h.captured
  drawn := by
    have hcell : inCell e m₂ = inCell e m₁ := by
      funext k c
      rw [inCell, slot, h.fBuffer]
      rfl
    rw [h'.drawn, h.drawn, hcell, List.map_append, List.append_assoc]

section
variable {fuel : ℕ} (hfuel : cellRange ≤ fuel)
include hfuel

/-- A string is drawn in the cells from the `k`-th on. -/
theorem fontPrint_draws (hm : Compiled e m) {adr c : ℤ} {text : List Byte}
    (hs : StringAt m adr text) (hne : text ≠ []) {k : ℕ} (hc : c = 8 - k) (st ix : List ℤ) :
    ∃ m', fontPrint e.toMachine fuel
      ⟨0 :: (e.screenWidth - c * e.charWidth) :: text.length :: adr :: st, ix, m⟩ =
        .ok ⟨st, ix, m'⟩ ∧ Draws e m m' (fieldAt k text) := by
  refine ⟨_, fontPrint_run hfuel hs hne _ 0, ⟨hm.1, hm.2⟩, rfl, rfl, ?_⟩
  rw [hc, printed, drawing_eq_fieldAt]

/-- A number is. -/
theorem uDot_draws (hm : Compiled e m) {n : ℕ} (hn : n < 60) {c : ℤ} {k : ℕ} (hc : c = 8 - k)
    (st ix : List ℤ) :
    ∃ m', fontPrint e.toMachine fuel
      ⟨0 :: (e.screenWidth - c * e.charWidth) :: (digits n).length :: e.held n :: st, ix,
        m.hold (e.held n) (digits n)⟩ = .ok ⟨st, ix, m'⟩ ∧ Draws e m m' (fieldAt k (digits n)) := by
  have hlen : (digits n).length ≤ 2 := (length_digits_le_iff (by decide)).mpr (by omega)
  have hcell : (digits n).length < cellRange := by
    rw [cellRange]
    omega
  obtain ⟨m', hrun, hdraws⟩ := fontPrint_draws hfuel (hm.hold (hlen.trans (by decide)))
    (stringAt_hold hcell) (digits_ne_nil n) hc st ix
  exact ⟨m', hrun, hdraws.1, hdraws.2, hdraws.3, hdraws.4⟩

/-- **The word, cell by cell.**  It leaves the stack as it was. -/
theorem mytime_run (hm : Compiled e m) (t : Time) :
    ∃ m', mytime e t fuel ⟨st, ix, m⟩ = .ok ⟨st, ix, m'⟩ ∧ Draws e m m' (layout t) := by
  have hlt : t.hour < 60 := t.hour_lt.trans (by decide)
  have hne : ([0x3a] : List Byte) ≠ [] := List.cons_ne_nil _ _
  obtain ⟨m₁, hseconds, h₁⟩ := uDot_draws hfuel hm t.seconds_lt (k := 6) (c := 2) rfl
    (t.minutes :: t.hour :: st) ix
  obtain ⟨m₂, hmark, h₂⟩ := fontPrint_draws hfuel h₁.compiled
    (stringAt_singleton h₁.compiled.colon₁) hne (k := 5) (c := 3) rfl (t.minutes :: t.hour :: st) ix
  obtain ⟨m₃, hminutes, h₃⟩ := uDot_draws hfuel h₂.compiled t.minutes_lt (k := 3) (c := 5) rfl
    (t.hour :: st) ix
  obtain ⟨m₄, hmark', h₄⟩ := fontPrint_draws hfuel h₃.compiled
    (stringAt_singleton h₃.compiled.colon₂) hne (k := 2) (c := 6) rfl (t.hour :: st) ix
  obtain ⟨m₅, hhour, h₅⟩ := uDot_draws hfuel h₄.compiled hlt (k := 0) (c := 8) rfl st ix
  rw [List.length_singleton, Nat.cast_one] at hmark hmark'
  refine ⟨m₅, ?_, (((h₁.trans h₂).trans h₃).trans h₄).trans h₅⟩
  simp only [mytime, words_cons, words_nil, getTime_apply, threeDrop_apply, swap_apply, rot_apply,
    ok_bind, uDot_apply t.seconds_lt, uDot_apply t.minutes_lt, uDot_apply hlt, column_apply,
    colon_apply, hseconds, hmark, hminutes, hmark', hhour]

end

end

/-! ## The pixels -/

/-- What is in memory at an address to which a glyph has been read, when the screen showed `C`. -/
def Memory.data (C : Picture ℤ) (m : Memory) (a : ℤ) : Picture ℤ :=
  match m.glyphAt a with
  | some t => fun p ↦ C (t.x + p.1, t.y + p.2)
  | none => fun _ ↦ 0

/-- What some transfers make of what was on the screen. -/
def overdraw (C : Picture ℤ) (m : Memory) (new : List Transfer) (P : Picture ℤ) : Picture ℤ :=
  stampAll (new.map fun t ↦ (m.data C t.adr, ⟨t.x, t.y, t.w, t.h⟩)) P

/-- The line with the characters as the console had printed it, where the capture loop reads. -/
def Printed (e : Machine) (look : Byte → Picture ℤ) (C : Picture ℤ) : Prop :=
  ∀ (k : ℕ) (c : Byte), fontChars[k]? = some c → ∀ a b, 0 ≤ a → a < e.charWidth → 0 ≤ b →
    b < e.charHeight → C (k * e.charWidth + a, 4 + b) = look c (a, b)

/-- Two digits. -/
def twoDigits (n : ℕ) : List Byte := [BitVec.ofNat 8 (48 + n / 10), BitVec.ofNat 8 (48 + n % 10)]

/-- What the clock should show. -/
def timeText (t : Time) : List Byte :=
  twoDigits t.hour ++ [0x3a] ++ twoDigits t.minutes ++ [0x3a] ++ twoDigits t.seconds

/-- The pixels of the eight cells. -/
def cells : Set (ℤ × ℤ) :=
  {p | e.screenWidth - 8 * e.charWidth ≤ p.1 ∧ p.1 < e.screenWidth ∧ 0 ≤ p.2 ∧ p.2 < e.charHeight}

/-- **What `mytime` should do**: the cells show the time, none of what is in them is from before,
and the stack is as it was. -/
def ShowsTime (look : Byte → Picture ℤ) (C : Picture ℤ) (m : Memory) (P : Picture ℤ) (t : Time) :
    Prop :=
  ∀ fuel : ℕ, cellRange ≤ fuel → ∀ st ix, ∃ m' new,
    mytime e t fuel ⟨st, ix, m⟩ = .ok ⟨st, ix, m'⟩ ∧ m'.drawn = m.drawn ++ new ∧
    (∀ (k : ℕ) (c : Byte), (timeText t)[k]? = some c → ∀ a b, 0 ≤ a → a < e.charWidth → 0 ≤ b →
      b < e.charHeight → overdraw C m' new P (cellX e k + a, b) = look c (a, b)) ∧
    ∀ Q, (cells e).EqOn (overdraw C m' new P) (overdraw C m' new Q)

section
variable {e} {m m' : Memory} {look : Byte → Picture ℤ} {C : Picture ℤ} {a b : ℤ}

/-- A pixel of one cell is in no other. -/
theorem mem_inCell_iff (ha : 0 ≤ a ∧ a < e.charWidth) (hb : 0 ≤ b ∧ b < e.charHeight) (k j : ℕ) :
    (cellX e k + a, b) ∈ (⟨cellX e j, 0, e.charWidth, e.charHeight⟩ : Rect) ↔ j = k := by
  have hpos := e.charWidth_pos
  rw [mem_iff]
  simp only [zero_add, hb, and_true, cellX]
  rcases lt_trichotomy j k with hlt | rfl | hgt
  · have hle : (j : ℤ) + 1 ≤ k := by omega
    refine iff_of_false (fun h ↦ ?_) hlt.ne
    nlinarith
  · exact iff_of_true (by omega) rfl
  · have hle : (k : ℤ) + 1 ≤ j := by omega
    refine iff_of_false (fun h ↦ ?_) hgt.ne'
    nlinarith

/-- The glyph that is drawn for a character looks like it. -/
theorem data_slot (hm : Loaded e.toMachine m) (hC : Printed e.toMachine look C) {c : Byte}
    (hshown : shown c = c) (hquote : c ≠ 0x22) (ha : 0 ≤ a ∧ a < e.charWidth)
    (hb : 0 ≤ b ∧ b < e.charHeight) :
    m.data C (slot e.toMachine m (glyphIndex c)) (a, b) = look c (a, b) := by
  have hchar : fontChars[glyphIndex c]? = some c := by
    rw [← charAt_slot hm (glyphIndex_lt c), charAt_glyphIndex hm, if_neg hquote, hshown]
  rw [Memory.data, glyphAt_slot hm (glyphIndex_lt c)]
  exact hC _ _ hchar a b ha.1 ha.2 hb.1 hb.2

theorem Draws.loaded {l : List (ℕ × Byte)} (h : Draws e m m' l) (hm : Loaded e.toMachine m) :
    Loaded e.toMachine m' := by
  have hglyph : Font.captured e.toMachine m' = Font.captured e.toMachine m := by
    funext k
    rw [Font.captured, Font.captured, slot, slot, h.fBuffer]
  rw [Loaded, h.captured, hglyph, hm]

theorem Draws.drawn_eq {l : List (ℕ × Byte)} (h : Draws e m m' l) :
    m'.drawn = m.drawn ++ l.map fun q ↦ inCell e m' q.1 q.2 := by
  rw [h.drawn]
  simp only [inCell, slot, h.fBuffer]

/-- A cell that is drawn, always with the same character. -/
theorem overdraw_of_mem (hm : Loaded e.toMachine m) (hC : Printed e.toMachine look C)
    {l : List (ℕ × Byte)} {k : ℕ} {c : Byte} (hmem : (k, c) ∈ l)
    (huniq : ∀ c', (k, c') ∈ l → c' = c) (hshown : shown c = c) (hquote : c ≠ 0x22)
    (ha : 0 ≤ a ∧ a < e.charWidth) (hb : 0 ≤ b ∧ b < e.charHeight) (P : Picture ℤ) :
    overdraw C m (l.map fun q ↦ inCell e m q.1 q.2) P (cellX e k + a, b) = look c (a, b) := by
  rw [overdraw, List.map_map, stampAll_apply, if_pos]
  · exact ⟨_, List.mem_map_of_mem hmem, (mem_inCell_iff ha hb k k).mpr rfl⟩
  · intro s hs hp
    obtain ⟨⟨j, c'⟩, hq, rfl⟩ := List.mem_map.mp hs
    obtain rfl := (mem_inCell_iff ha hb k j).mp hp
    obtain rfl := huniq c' hq
    simpa [inCell] using data_slot hm hC hshown hquote ha hb

/-- A cell that is not drawn. -/
theorem overdraw_of_notMem {l : List (ℕ × Byte)} {k : ℕ} (hk : ∀ c, (k, c) ∉ l)
    (ha : 0 ≤ a ∧ a < e.charWidth) (hb : 0 ≤ b ∧ b < e.charHeight) (P : Picture ℤ) :
    overdraw C m (l.map fun q ↦ inCell e m q.1 q.2) P (cellX e k + a, b) =
      P (cellX e k + a, b) := by
  rw [overdraw, List.map_map]
  refine stampAll_of_notMem (fun s hs hp ↦ ?_) P
  obtain ⟨⟨j, c⟩, hq, rfl⟩ := List.mem_map.mp hs
  obtain rfl := (mem_inCell_iff ha hb k j).mp hp
  exact hk c hq

/-- Every pixel of the cells is in one of them. -/
theorem exists_cell {p : ℤ × ℤ} (hp : p ∈ cells e) : ∃ k < 8, ∃ a b,
    (0 ≤ a ∧ a < e.charWidth) ∧ (0 ≤ b ∧ b < e.charHeight) ∧ p = (cellX e k + a, b) := by
  obtain ⟨x, y⟩ := p
  obtain ⟨hleft, hright, htop, hbottom⟩ := hp
  have hpos := e.charWidth_pos
  obtain ⟨d, hd⟩ : ∃ d, d = x - (e.screenWidth - 8 * e.charWidth) := ⟨_, rfl⟩
  have hmod := Int.emod_add_mul_ediv d e.charWidth
  have hd0 : 0 ≤ d := hd ▸ sub_nonneg.mpr hleft
  have hd8 : d < 8 * e.charWidth := by
    have hx : x < e.screenWidth := hright
    omega
  have hk0 : 0 ≤ d / e.charWidth := Int.ediv_nonneg hd0 hpos.le
  have hk8 : d / e.charWidth < 8 := (Int.ediv_lt_iff_lt_mul hpos).mpr hd8
  refine ⟨(d / e.charWidth).toNat, by omega, d % e.charWidth, y, ⟨Int.emod_nonneg _ hpos.ne',
    Int.emod_lt_of_pos _ hpos⟩, ⟨htop, hbottom⟩, ?_⟩
  rw [cellX, Int.toNat_of_nonneg hk0, Prod.mk.injEq]
  refine ⟨?_, rfl⟩
  linarith

end

/-! ## The characters -/

theorem mem_fieldAt {k n : ℕ} {c : Byte} {text : List Byte} :
    (n, c) ∈ fieldAt k text ↔ ∃ j, text[j]? = some c ∧ n = k + j := by
  rw [fieldAt, List.mem_mapIdx]
  refine ⟨?_, ?_⟩
  · rintro ⟨j, hj, heq⟩
    cases heq
    exact ⟨j, List.getElem?_eq_getElem hj, rfl⟩
  · rintro ⟨j, hj, rfl⟩
    obtain ⟨hlt, rfl⟩ := List.getElem?_eq_some_iff.mp hj
    exact ⟨j, hlt, rfl⟩

theorem fieldAt_append (k : ℕ) (l l' : List Byte) :
    fieldAt k (l ++ l') = fieldAt k l ++ fieldAt (k + l.length) l' := by
  rw [fieldAt, List.mapIdx_append]
  congr 2
  funext i c
  rw [Nat.add_assoc, Nat.add_comm l.length]

theorem digits_eq_twoDigits {n : ℕ} (h10 : 10 ≤ n) (h100 : n < 100) : digits n = twoDigits n := by
  have hchar : ∀ d < 10, BitVec.ofNat 8 (Nat.digitChar d).toNat = BitVec.ofNat 8 (48 + d) := by
    decide
  have hdiv : n / 10 < 10 := by omega
  rw [digits, Nat.toDigits_of_base_le (by decide) h10, Nat.toDigits_of_lt_base hdiv, twoDigits,
    ← hchar _ hdiv, ← hchar _ (Nat.mod_lt n (by decide))]
  rfl

/-- All characters of the text show themselves. -/
theorem shown_timeText {t : Time} {c : Byte} (hc : c ∈ timeText t) : shown c = c ∧ c ≠ 0x22 := by
  have hdigit : ∀ d < 10, shown (BitVec.ofNat 8 (48 + d)) = BitVec.ofNat 8 (48 + d) ∧
      BitVec.ofNat 8 (48 + d) ≠ 0x22 := by
    decide
  have htwo (n : ℕ) (hn : n < 60) (hc : c ∈ twoDigits n) : shown c = c ∧ c ≠ 0x22 := by
    rw [twoDigits, List.mem_pair] at hc
    rcases hc with rfl | rfl <;> exact hdigit _ (by omega)
  simp only [timeText, List.mem_append, List.mem_singleton] at hc
  rcases hc with (((hc | rfl) | hc) | rfl) | hc
  · exact htwo _ (t.hour_lt.trans (by decide)) hc
  · decide
  · exact htwo _ t.minutes_lt hc
  · decide
  · exact htwo _ t.seconds_lt hc

section
variable {t : Time} {k : ℕ} {c : Byte}

/-- With two digits in each number, the text is drawn. -/
theorem mem_layout_iff (hhour : 10 ≤ t.hour) (hminutes : 10 ≤ t.minutes)
    (hseconds : 10 ≤ t.seconds) : (k, c) ∈ layout t ↔ (timeText t)[k]? = some c := by
  have hplace : (timeText t)[k]? = some c ↔ (k, c) ∈ fieldAt 0 (timeText t) := by
    rw [mem_fieldAt]
    refine ⟨fun h ↦ ⟨k, h, (zero_add k).symm⟩, ?_⟩
    rintro ⟨j, h, rfl⟩
    rwa [zero_add]
  have htext : fieldAt 0 (timeText t) = fieldAt 0 (twoDigits t.hour) ++ fieldAt 2 [0x3a] ++
      fieldAt 3 (twoDigits t.minutes) ++ fieldAt 5 [0x3a] ++ fieldAt 6 (twoDigits t.seconds) := by
    simp only [timeText, fieldAt_append]
    rfl
  have h60 {n : ℕ} (hn : n < 60) : n < 100 := hn.trans (by decide)
  have hlt : t.hour < 60 := t.hour_lt.trans (by decide)
  rw [hplace, htext, layout, digits_eq_twoDigits hhour (h60 hlt),
    digits_eq_twoDigits hminutes (h60 t.minutes_lt),
    digits_eq_twoDigits hseconds (h60 t.seconds_lt)]
  simp only [List.mem_append, or_assoc, or_comm, or_left_comm]

/-- Which cells are drawn. -/
theorem mem_layout (h : (k, c) ∈ layout t) : k = 2 ∨ k = 5 ∨ k < (digits t.hour).length ∨
    3 ≤ k ∧ k < 3 + (digits t.minutes).length ∨ 6 ≤ k ∧ k < 6 + (digits t.seconds).length := by
  have hlt {j : ℕ} {text : List Byte} (hj : text[j]? = some c) : j < text.length :=
    (List.getElem?_eq_some_iff.mp hj).1
  have hcolon {j : ℕ} (hj : ([0x3a] : List Byte)[j]? = some c) : j = 0 := Nat.lt_one_iff.mp (hlt hj)
  simp only [layout, List.mem_append, mem_fieldAt] at h
  rcases h with (((⟨j, hj, rfl⟩ | ⟨j, hj, rfl⟩) | ⟨j, hj, rfl⟩) | ⟨j, hj, rfl⟩) | ⟨j, hj, rfl⟩
  · have := hlt hj
    omega
  · have := hcolon hj
    omega
  · have := hlt hj
    omega
  · have := hcolon hj
    omega
  · have := hlt hj
    omega

/-- The second cell of a number is drawn only if the number has a second digit. -/
theorem ten_le_of_layout (h : ∀ k < 8, ∃ c, (k, c) ∈ layout t) :
    10 ≤ t.hour ∧ 10 ≤ t.minutes ∧ 10 ≤ t.seconds := by
  have hone {n : ℕ} : (digits n).length ≤ 1 ↔ n < 10 := length_digits_le_iff (by decide)
  have htwo {n : ℕ} (hn : n < 60) : (digits n).length ≤ 2 :=
    (length_digits_le_iff (by decide)).mpr (by omega)
  have hhour : (digits t.hour).length ≤ 2 := htwo (t.hour_lt.trans (by decide))
  have hminutes := htwo t.minutes_lt
  obtain ⟨c₁, h₁⟩ := h 1 (by decide)
  obtain ⟨c₄, h₄⟩ := h 4 (by decide)
  obtain ⟨c₇, h₇⟩ := h 7 (by decide)
  refine ⟨not_lt.mp fun hlt ↦ ?_, not_lt.mp fun hlt ↦ ?_, not_lt.mp fun hlt ↦ ?_⟩
  · have := hone.mpr hlt
    have := mem_layout h₁
    omega
  · have := hone.mpr hlt
    have := mem_layout h₄
    omega
  · have := hone.mpr hlt
    have := mem_layout h₇
    omega

end

/-! ## The result -/

section
variable {e} {m : Memory} {look : Byte → Picture ℤ} {C P : Picture ℤ} {t : Time}

/-- The time is shown when each number has two digits. -/
theorem showsTime_of_ten_le (hm : Loaded e.toMachine m) (hcolons : Compiled e m)
    (hC : Printed e.toMachine look C)
    (h : 10 ≤ t.hour ∧ 10 ≤ t.minutes ∧ 10 ≤ t.seconds) (P : Picture ℤ) :
    ShowsTime e look C m P t := by
  intro fuel hfuel st ix
  obtain ⟨m', hrun, hdraws⟩ := mytime_run hfuel hcolons t
  have hcell {k : ℕ} {c : Byte} (hk : (timeText t)[k]? = some c) {a b : ℤ}
      (ha : 0 ≤ a ∧ a < e.charWidth) (hb : 0 ≤ b ∧ b < e.charHeight) (P : Picture ℤ) :
      overdraw C m' ((layout t).map fun q ↦ inCell e m' q.1 q.2) P (cellX e k + a, b) =
        look c (a, b) := by
    have hmem (c' : Byte) : (k, c') ∈ layout t ↔ (timeText t)[k]? = some c' :=
      mem_layout_iff h.1 h.2.1 h.2.2
    have hshown := shown_timeText (List.mem_of_getElem? hk)
    refine overdraw_of_mem (hdraws.loaded hm) hC ((hmem c).mpr hk) (fun c' hc' ↦ ?_) hshown.1
      hshown.2 ha hb P
    exact Option.some_injective _ (((hmem c').mp hc').symm.trans hk)
  refine ⟨m', _, hrun, hdraws.drawn_eq, fun k c hk a b ha ha' hb hb' ↦
    hcell hk ⟨ha, ha'⟩ ⟨hb, hb'⟩ P, fun Q p hp ↦ ?_⟩
  obtain ⟨k, hk, a, b, ha, hb, rfl⟩ := exists_cell hp
  obtain ⟨c, hc⟩ : ∃ c, (timeText t)[k]? = some c := ⟨_, List.getElem?_eq_getElem hk⟩
  rw [hcell hc ha hb, hcell hc ha hb]

/-- A time that is shown is drawn in every cell. -/
theorem layout_of_showsTime (hcolons : Compiled e m) (h : ShowsTime e look C m P t) :
    ∀ k < 8, ∃ c, (k, c) ∈ layout t := by
  intro k hk
  by_contra hnone
  rw [not_exists] at hnone
  obtain ⟨fuel, hfuel⟩ : ∃ fuel : ℕ, cellRange ≤ fuel := ⟨_, Int.self_le_toNat _⟩
  obtain ⟨m', new, hrun, hnew, -, hkept⟩ := h fuel hfuel [] []
  obtain ⟨m'', hrun', hdraws⟩ := mytime_run hfuel hcolons t
  rw [hrun] at hrun'
  cases hrun'
  rw [hdraws.drawn_eq] at hnew
  obtain rfl := List.append_cancel_left hnew
  have ha : 0 ≤ (0 : ℤ) ∧ 0 < e.charWidth := ⟨le_rfl, e.charWidth_pos⟩
  have hb : 0 ≤ (0 : ℤ) ∧ 0 < e.charHeight := ⟨le_rfl, e.charHeight_pos⟩
  have hmem : (cellX e k + 0, (0 : ℤ)) ∈ cells e := by
    have hk' : (k : ℤ) + 1 ≤ 8 := by omega
    refine ⟨?_, ?_, hb⟩ <;> rw [cellX] <;> nlinarith [e.charWidth_pos]
  -- the pixel has its old colour, whatever that was
  have heq := hkept (fun p ↦ P p + 1) hmem
  rw [overdraw_of_notMem hnone ha hb, overdraw_of_notMem hnone ha hb] at heq
  omega

end

/-- **At which times the clock is right**: when the hour, the minute and the second have two digits.
A number below ten leaves its second cell as it was. -/
theorem showsTime_iff {m : Memory} (hm : Loaded e.toMachine m) (hcolons : Compiled e m)
    {look : Byte → Picture ℤ} {C : Picture ℤ} (hC : Printed e.toMachine look C) (P : Picture ℤ)
    (t : Time) :
    ShowsTime e look C m P t ↔ 10 ≤ t.hour ∧ 10 ≤ t.minutes ∧ 10 ≤ t.seconds :=
  ⟨fun h ↦ ten_le_of_layout (layout_of_showsTime hcolons h),
    fun h ↦ showsTime_of_ten_le hm hcolons hC h P⟩

/-! ## A time that is shown, and one that is not -/

/-- The console, 640 pixels wide. -/
def wallClock : Clock where
  toMachine := console
  screenWidth := 640
  colon₁ := 0x3000
  colon₂ := 0x3010
  holdEnd := 0x4000
  apart₁ := .inl (by decide)
  apart₂ := .inl (by decide)

/-- The font has been read, and the colons have been compiled. -/
def booted : Memory := { holding [] with bytes := fun _ ↦ some 0x3a }

/-- A font whose characters are filled with their numbers. -/
def filled (c : Byte) : Picture ℤ := fun _ ↦ c.toNat

/-- The line with the characters in that font. -/
def consoleLine : Picture ℤ := fun p ↦ filled (fontChars[(p.1 / 6).toNat]?.getD 0) p

/-- The cells with a time in them. -/
def showing (t : Time) : Picture ℤ :=
  fun p ↦ filled ((timeText t)[((p.1 - 592) / 6).toNat]?.getD 0) p

theorem loaded_booted : Loaded wallClock.toMachine booted := rfl

theorem compiled_booted : Compiled wallClock booted := ⟨rfl, rfl⟩

theorem printed_consoleLine : Printed wallClock.toMachine filled consoleLine := by
  intro k c hk a b ha ha' _ _
  have hdiv : (k * 6 + a) / 6 = k := by
    have h6 : a < 6 := ha'
    omega
  show filled (fontChars[((k * 6 + a) / 6).toNat]?.getD 0) _ = _
  rw [hdiv, Int.toNat_natCast, hk]
  rfl

/-- A time on the first day of the year. -/
def afterNoon (seconds minutes hour : ℕ) (h : seconds < 60 ∧ minutes < 60 ∧ hour < 24) : Time :=
  ⟨seconds, minutes, hour, 1, 1, 2006, h.1, h.2.1, h.2.2⟩

theorem showsTime_last_second : ShowsTime wallClock filled consoleLine booted (fun _ ↦ 0)
    (afterNoon 59 59 12 (by decide)) :=
  (showsTime_iff wallClock loaded_booted compiled_booted printed_consoleLine _ _).mpr (by decide)

/-- One second later the nines of the minutes and the seconds are still there. -/
theorem not_showsTime_one_oclock :
    Loaded wallClock.toMachine booted ∧ Compiled wallClock booted ∧
    Printed wallClock.toMachine filled consoleLine ∧
    ¬ ShowsTime wallClock filled consoleLine booted (showing (afterNoon 59 59 12 (by decide)))
      (afterNoon 0 0 13 (by decide)) := by
  refine ⟨loaded_booted, compiled_booted, printed_consoleLine, fun h ↦ ?_⟩
  have hten := ten_le_of_layout (layout_of_showsTime compiled_booted h)
  exact absurd hten.2.1 (by decide)

end Font
end MacOSXInternal
