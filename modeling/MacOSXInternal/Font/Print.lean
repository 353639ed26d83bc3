import Mathlib.Data.List.Forall2
import Mathlib.Tactic.Linarith
import MacOSXInternal.Lib.Watched

/-!
# `font.of`

The console's font is stolen: a line with all characters is printed on the console, a loop reads it
off the screen, glyph by glyph, and strings are drawn with what has been read.

* `load` is what happens when the program is booted, `Loaded` is what is in memory then, and
  `load_loaded` says so.
* `fontPrint` draws a string.  `fontPrint_run` is the whole of it when the string is not empty, and
  `drawn_of_fontPrint` says that it always draws something.
* `Prints` is what the word should do, and `prints_iff` says for which strings it does.
-/

set_option autoImplicit false

namespace MacOSXInternal
namespace Font

open Forth

/-! ## The memory and the screen -/

abbrev Byte := BitVec 8

/-- The console, and the addresses that `alloc-mem` gives away. -/
structure Machine where
  charWidth : ℤ
  charHeight : ℤ
  allocMem : ℤ → ℤ
  charWidth_pos : 0 < charWidth
  charHeight_pos : 0 < charHeight

/-- A rectangle of the screen, and where the data for it is. -/
structure Transfer where
  adr : ℤ
  x : ℤ
  y : ℤ
  w : ℤ
  h : ℤ
  deriving DecidableEq, Repr

/-- The variables; the bytes at each address that has some; and what has been read off the screen
and drawn on it, the last at the end. -/
structure Memory where
  fBuffer : ℤ
  fString : ℤ
  fX : ℤ
  fY : ℤ
  bytes : ℤ → Option Byte
  captured : List Transfer
  drawn : List Transfer

/-- `draw-rectangle`, and a transfer that it makes. -/
def Memory.draw (m : Memory) (t : Transfer) : Memory := { m with drawn := m.drawn ++ [t] }

/-- `read-rectangle`. -/
def Memory.capture (m : Memory) (t : Transfer) : Memory :=
  { m with captured := m.captured ++ [t] }

/-- What has been read to an address. -/
def Memory.glyphAt (m : Memory) (adr : ℤ) : Option Transfer := m.captured.find? (·.adr = adr)

def byteCFetch : Word Memory := cfetch fun a m ↦ (m.bytes a).map fun c ↦ (c.toNat : ℤ)

/-- `( adr x y w h -- )` -/
def fontDrawrect : Word Memory :=
  device 5 fun
    | [adr, x, y, w, h], m => m.draw ⟨adr, x, y, w, h⟩
    | _, m => m

/-- `( adr x y w h -- )` -/
def fontReadrect : Word Memory :=
  device 5 fun
    | [adr, x, y, w, h], m => m.capture ⟨adr, x, y, w, h⟩
    | _, m => m

/-- What is drawn is counted from here. -/
def eraseScreen : Word Memory := device 0 fun _ m ↦ { m with drawn := [] }

/-! ## The font -/

/-- The line that is printed.  A quotation mark would end it, so there is a blank in its place. -/
def fontLine : String :=
  " ! #$%&'()*+,-./0123456789:;<=>?@ABCDEFGHIJKLMNOPQRSTUVWXYZ[\\]^_`" ++
    "abcdefghijklmnopqrstuvwxyz\x7b|\x7d~"

/-- Its characters. -/
def fontChars : List Byte := fontLine.toList.map fun c ↦ BitVec.ofNat 8 c.toNat

def fAsciiMin : ℤ := 32

def fAsciiMax : ℤ := 126

def fNchars : ℤ := fAsciiMax - fAsciiMin + 1

variable (e : Machine)

def Machine.fSize : ℤ := e.charHeight * e.charWidth

/-- `( len -- adr )` -/
def allocMem : Word Memory
  | ⟨len :: st, ix, m⟩ => .ok ⟨e.allocMem len :: st, ix, m⟩
  | _ => .error .stackUnderflow

/-- The body of the loop that reads the font. -/
def captureBody : Word Memory :=
  words [fetch (·.fBuffer), lit e.fSize, i, mul, add, i, lit e.charWidth, mul, lit 4,
    lit e.charWidth, lit e.charHeight, fontReadrect]

/-- What is done when the program is booted. -/
def load (fuel : ℕ) : Word Memory :=
  words
    [dotQuote fontLine, cr, cr,
    lit fNchars, lit e.fSize, mul, allocMem e,
    store fun x m ↦ { m with fBuffer := x },
    lit fNchars, lit 0, doLoop fuel (captureBody e),
    eraseScreen]

/-! ## Printing -/

/-- `( char -- char )` -/
def fontValidateChar : Word Memory :=
  words [dup, lit fAsciiMin, lit fAsciiMax, between, ifElse
    (words [])
    (words [drop, lit fAsciiMin])]

/-- The body of the loop of `font-print`. -/
def printBody : Word Memory :=
  words
    [fetch (·.fString), i, add, byteCFetch,
    fontValidateChar,
    lit fAsciiMin, sub,
    lit e.fSize, mul,
    fetch (·.fBuffer), add,
    fetch (·.fX), i, lit e.charWidth, mul, add,
    fetch (·.fY),
    lit e.charWidth,
    lit e.charHeight,
    fontDrawrect]

/-- `( string x y -- )` -/
def fontPrint (fuel : ℕ) : Word Memory :=
  words
    [store fun x m ↦ { m with fY := x },
    store fun x m ↦ { m with fX := x },
    lit 0,
    rot,
    store fun x m ↦ { m with fString := x },
    doLoop fuel (printBody e)]

/-! ## What is in memory -/

section
variable (m : Memory)

/-- The address of a glyph. -/
def slot (k : ℕ) : ℤ := m.fBuffer + k * e.fSize

/-- How a glyph has been read. -/
def captured (k : ℕ) : Transfer := ⟨slot e m k, k * e.charWidth, 4, e.charWidth, e.charHeight⟩

/-- The font has been read, and no glyph twice. -/
def Loaded : Prop := m.captured = (List.range fNchars.toNat).map (captured e m)

end

/-- A string of some bytes at an address. -/
structure StringAt (m : Memory) (adr : ℤ) (contents : List Byte) : Prop where
  bytes : ∀ j < contents.length, m.bytes (adr + j) = contents[j]?
  cell : contents.length < cellRange

/-- The character that is drawn for a byte. -/
def shown (c : Byte) : Byte := if 32 ≤ c.toNat ∧ c.toNat ≤ 126 then c else 32

/-- Its number among those that are. -/
def glyphIndex (c : Byte) : ℕ := (shown c).toNat - 32

/-- The drawing of a string. -/
def drawing (m : Memory) (contents : List Byte) (x y : ℤ) : List Transfer :=
  contents.mapIdx fun j c ↦
    ⟨slot e m (glyphIndex c), x + j * e.charWidth, y, e.charWidth, e.charHeight⟩

/-- What `font-print` leaves in memory. -/
def printed (m : Memory) (adr : ℤ) (contents : List Byte) (x y : ℤ) : Memory :=
  { m with fString := adr, fX := x, fY := y, drawn := m.drawn ++ drawing e m contents x y }

/-! ## Evaluation -/

section
variable {e} {m : Memory} {st ix : List ℤ}

theorem fSize_pos : 0 < e.fSize := mul_pos e.charHeight_pos e.charWidth_pos

@[simp] theorem fontDrawrect_apply (adr x y w h : ℤ) :
    fontDrawrect ⟨h :: w :: y :: x :: adr :: st, ix, m⟩ =
      .ok ⟨st, ix, m.draw ⟨adr, x, y, w, h⟩⟩ := by
  simp [fontDrawrect, device]

@[simp] theorem fontReadrect_apply (adr x y w h : ℤ) :
    fontReadrect ⟨h :: w :: y :: x :: adr :: st, ix, m⟩ =
      .ok ⟨st, ix, m.capture ⟨adr, x, y, w, h⟩⟩ := by
  simp [fontReadrect, device]

theorem shown_bounds (c : Byte) : 32 ≤ (shown c).toNat ∧ (shown c).toNat ≤ 126 := by
  rw [shown]
  split_ifs with h
  · exact h
  · decide

@[simp] theorem fontValidateChar_apply (c : Byte) :
    fontValidateChar ⟨(c.toNat : ℤ) :: st, ix, m⟩ = .ok ⟨((shown c).toNat : ℤ) :: st, ix, m⟩ := by
  have hc : fAsciiMin ≤ c.toNat ∧ c.toNat ≤ fAsciiMax ↔ 32 ≤ c.toNat ∧ c.toNat ≤ 126 := by
    rw [fAsciiMin, fAsciiMax]
    omega
  simp only [fontValidateChar, words_cons, dup_apply, lit_apply, between_apply, ok_bind,
    ifElse_flag, hc, bind_words_nil, shown]
  split_ifs
  · rfl
  · simp [fAsciiMin]

/-- One turn of `font-print`, where there is a byte to print. -/
theorem printBody_apply {n : ℤ} {c : Byte} (hc : m.bytes (m.fString + n) = some c) :
    printBody e ⟨st, n :: ix, m⟩ = .ok ⟨st, n :: ix, m.draw ⟨slot e m (glyphIndex c),
      m.fX + n * e.charWidth, m.fY, e.charWidth, e.charHeight⟩⟩ := by
  have hslot : ((shown c).toNat - fAsciiMin) * e.fSize + m.fBuffer = slot e m (glyphIndex c) := by
    rw [slot, glyphIndex, Nat.cast_sub (shown_bounds c).1, add_comm]
    rfl
  simp [printBody, byteCFetch, cfetch, hc, hslot]

/-- A turn that has come to its end has drawn something. -/
theorem printBody_ok {n : ℤ} {s : State Memory} (h : printBody e ⟨st, n :: ix, m⟩ = .ok s) :
    ∃ m', s = ⟨st, n :: ix, m'⟩ ∧ m.drawn.length < m'.drawn.length := by
  cases hc : m.bytes (m.fString + n) with
  | none =>
    simp only [printBody, words_cons, fetch_apply, i_apply, add_apply, ok_bind, byteCFetch, cfetch,
      hc, Option.map_none] at h
    cases h
  | some c =>
    rw [printBody_apply hc] at h
    cases h
    exact ⟨_, rfl, by simp [Memory.draw]⟩

theorem map_mapIdx {α β γ : Type} (f : ℕ → α → β) (g : β → γ) (l : List α) :
    (l.mapIdx f).map g = l.mapIdx fun j a ↦ g (f j a) := by
  refine List.ext_getElem? fun j ↦ ?_
  rw [List.getElem?_map, List.getElem?_mapIdx, List.getElem?_mapIdx, Option.map_map]
  rfl

theorem drawing_concat (l : List Byte) (c : Byte) (x y : ℤ) :
    drawing e m (l ++ [c]) x y = drawing e m l x y ++
      [⟨slot e m (glyphIndex c), x + l.length * e.charWidth, y, e.charWidth, e.charHeight⟩] := by
  rw [drawing, List.mapIdx_concat, drawing]

/-! ## The loops -/

section
variable {fuel : ℕ} (hfuel : cellRange ≤ fuel)
include hfuel

/-- **The font is read**, from any memory to which none has been read. -/
theorem load_loaded (h : m.captured = []) :
    ∃ m', load e fuel ⟨st, ix, m⟩ = .ok ⟨st, ix, m'⟩ ∧ Loaded e m' ∧
      m'.fBuffer = e.allocMem (fNchars * e.fSize) ∧ m'.drawn = [] := by
  obtain ⟨m₀, hm₀⟩ : ∃ m₀, m₀ = { m with fBuffer := e.allocMem (fNchars * e.fSize) } := ⟨_, rfl⟩
  have hbody (j : ℕ) (_ : j < fNchars.toNat) (m₁ : Memory)
      (h₁ : m₁ = { m₀ with captured := (List.range j).map (captured e m₀) }) :
      ∃ m₂, captureBody e ⟨st, (0 + j) :: ix, m₁⟩ = .ok ⟨st, (0 + j) :: ix, m₂⟩ ∧
        m₂ = { m₀ with captured := (List.range (j + 1)).map (captured e m₀) } := by
    subst h₁
    refine ⟨_, by simp [captureBody]; rfl, ?_⟩
    simp [Memory.capture, List.range_succ, captured, slot, mul_comm]
  have hcell : (fNchars.toNat : ℤ) ≤ cellRange := by decide
  have hturns : fNchars.toNat ≤ fuel := by omega
  have hstart : m₀ = { m₀ with captured := (List.range 0).map (captured e m₀) } := by
    rw [hm₀, h]
    rfl
  obtain ⟨m', hloop, rfl⟩ := doLoop_run hbody (by decide) hcell hturns hstart
  have hlimit : (0 : ℤ) + fNchars.toNat = fNchars := rfl
  rw [hlimit] at hloop
  refine ⟨{ m₀ with captured := (List.range fNchars.toNat).map (captured e m₀), drawn := [] }, ?_,
    rfl, congrArg (·.fBuffer) hm₀, rfl⟩
  simp [load, allocMem, ← hm₀, hloop, eraseScreen, device]

/-- **A string that is not empty is drawn**, one character after the other. -/
theorem fontPrint_run {adr : ℤ} {contents : List Byte} (hs : StringAt m adr contents)
    (hne : contents ≠ []) (x y : ℤ) :
    fontPrint e fuel ⟨y :: x :: contents.length :: adr :: st, ix, m⟩ =
      .ok ⟨st, ix, printed e m adr contents x y⟩ := by
  have hbody (j : ℕ) (hj : j < contents.length) (m₁ : Memory)
      (h₁ : m₁ = printed e m adr (contents.take j) x y) :
      ∃ m₂, printBody e ⟨st, (0 + j) :: ix, m₁⟩ = .ok ⟨st, (0 + j) :: ix, m₂⟩ ∧
        m₂ = printed e m adr (contents.take (j + 1)) x y := by
    subst h₁
    have hc : m.bytes (adr + (0 + j)) = some contents[j] := by
      rw [zero_add, hs.bytes j hj, List.getElem?_eq_getElem hj]
    refine ⟨_, printBody_apply hc, ?_⟩
    rw [List.take_succ_eq_append_getElem hj, printed, printed, drawing_concat,
      List.length_take_of_le hj.le, zero_add]
    simp [Memory.draw, slot]
  have hcell := hs.cell
  have hturns : contents.length ≤ fuel := by omega
  have hstart : { m with fString := adr, fX := x, fY := y } =
      printed e m adr (contents.take 0) x y := by
    simp [printed, drawing]
  obtain ⟨m', hloop, rfl⟩ := doLoop_run hbody (List.length_pos_iff.mpr hne) hcell.le hturns hstart
  rw [zero_add, List.take_length] at hloop
  simp [fontPrint, hloop]

end

/-- **Something is drawn, whatever the length of the string.** -/
theorem drawn_of_fontPrint {fuel : ℕ} {x y len adr : ℤ} {t : State Memory}
    (h : fontPrint e fuel ⟨y :: x :: len :: adr :: st, ix, m⟩ = .ok t) :
    m.drawn.length < t.mem.drawn.length := by
  simp only [fontPrint, words_cons, store_apply, ok_bind, lit_apply, rot_apply,
    bind_words_nil] at h
  exact doLoop_ok (R := fun m m' ↦ m.drawn.length < m'.drawn.length) lt_trans
    (fun _ _ _ ↦ printBody_ok) h

end

/-! ## What should be drawn -/

/-- An address in the buffer, at a multiple of the size of a glyph. -/
structure InBuffer (m : Memory) (a : ℤ) : Prop where
  dvd : e.fSize ∣ a - m.fBuffer
  left : m.fBuffer ≤ a
  right : a + e.fSize ≤ m.fBuffer + fNchars * e.fSize

/-- The character that has been read to an address. -/
def charAt (m : Memory) (a : ℤ) : Option Byte :=
  (m.glyphAt a).bind fun t ↦ fontChars[(t.x / e.charWidth).toNat]?

/-- The glyph that the capture loop has taken for the character. -/
def OwnPlace (m : Memory) (c : Byte) (a : ℤ) : Prop :=
  InBuffer e m a ∧ m.glyphAt a = some ⟨a, ((shown c).toNat - fAsciiMin) * e.charWidth, 4,
    e.charWidth, e.charHeight⟩

/-- The glyph that shows the character. -/
def OwnGlyph (m : Memory) (c : Byte) (a : ℤ) : Prop :=
  InBuffer e m a ∧ charAt e m a = some (shown c)

/-- **What `font-print` should do**: one call of `font-drawrect` for every character, from left to
right, with the right glyph. -/
def Prints (Good : Byte → ℤ → Prop) (m : Memory) (adr : ℤ) (contents : List Byte) (x y : ℤ) :
    Prop :=
  ∀ fuel : ℕ, cellRange ≤ fuel → ∀ st ix, ∃ m' glyphs,
    fontPrint e fuel ⟨y :: x :: contents.length :: adr :: st, ix, m⟩ = .ok ⟨st, ix, m'⟩ ∧
    m'.drawn = m.drawn ++ glyphs.mapIdx (fun j a ↦
      ⟨a, x + j * e.charWidth, y, e.charWidth, e.charHeight⟩) ∧
    List.Forall₂ Good contents glyphs

section
variable {e} {m : Memory}

theorem glyphIndex_lt (c : Byte) : glyphIndex c < fNchars.toNat := by
  have h := shown_bounds c
  have hn : fNchars.toNat = 95 := rfl
  rw [glyphIndex]
  omega

theorem inBuffer_slot {k : ℕ} (hk : k < fNchars.toNat) : InBuffer e m (slot e m k) := by
  have hpos := fSize_pos (e := e)
  have hn : fNchars = 95 := rfl
  have hk' : (k : ℤ) + 1 ≤ fNchars := by omega
  rw [slot]
  constructor
  · rw [add_sub_cancel_left]
    exact dvd_mul_left ..
  · nlinarith
  · nlinarith

theorem glyphAt_slot (hm : Loaded e m) {k : ℕ} (hk : k < fNchars.toNat) :
    m.glyphAt (slot e m k) = some (captured e m k) := by
  rw [Memory.glyphAt, hm, List.find?_map, List.find?_range_eq_some.mpr]
  · rfl
  · refine ⟨by simp [captured], List.mem_range.mpr hk, fun j hj ↦ ?_⟩
    have hne : slot e m j ≠ slot e m k := by
      have hpos := fSize_pos (e := e)
      rw [slot, slot]
      intro h
      have := mul_right_cancel₀ hpos.ne' (add_left_cancel h)
      omega
    exact Bool.not_eq_true' _ ▸ decide_eq_false hne

theorem charAt_slot (hm : Loaded e m) {k : ℕ} (hk : k < fNchars.toNat) :
    charAt e m (slot e m k) = fontChars[k]? := by
  rw [charAt, glyphAt_slot hm hk, Option.bind_some, captured,
    Int.mul_ediv_cancel _ e.charWidth_pos.ne', Int.toNat_natCast]

set_option maxRecDepth 4000 in
/-- The characters are in the order of their numbers, up to the one that is missing. -/
theorem fontChars_eq : fontChars =
    (List.range fNchars.toNat).map fun k ↦ if k = 2 then 32 else BitVec.ofNat 8 (32 + k) := by
  decide

theorem shown_eq_quote_iff (c : Byte) : shown c = 0x22 ↔ c = 0x22 := by
  rw [shown]
  split_ifs with hc
  · rfl
  · refine ⟨fun h ↦ absurd h (by decide), fun h ↦ absurd ?_ hc⟩
    rw [h]
    decide

theorem charAt_glyphIndex (hm : Loaded e m) (c : Byte) :
    charAt e m (slot e m (glyphIndex c)) = some (if c = 0x22 then 32 else shown c) := by
  have h := glyphIndex_lt c
  have hindex : 32 + glyphIndex c = (shown c).toNat := Nat.add_sub_of_le (shown_bounds c).1
  have hquote : glyphIndex c = 2 ↔ c = 0x22 := by
    rw [← shown_eq_quote_iff, ← BitVec.toNat_inj, ← hindex]
    show _ ↔ 32 + glyphIndex c = 34
    omega
  rw [charAt_slot hm h, fontChars_eq, List.getElem?_map, List.getElem?_range h, Option.map_some,
    hindex, BitVec.ofNat_toNat, BitVec.setWidth_eq]
  simp only [hquote]

theorem ownPlace_slot (hm : Loaded e m) (c : Byte) : OwnPlace e m c (slot e m (glyphIndex c)) := by
  refine ⟨inBuffer_slot (glyphIndex_lt c), ?_⟩
  rw [glyphAt_slot hm (glyphIndex_lt c), captured, glyphIndex, Nat.cast_sub (shown_bounds c).1]
  rfl

theorem ownGlyph_slot_iff (hm : Loaded e m) (c : Byte) :
    OwnGlyph e m c (slot e m (glyphIndex c)) ↔ c ≠ 0x22 := by
  rw [OwnGlyph, charAt_glyphIndex hm, Option.some_inj]
  refine ⟨?_, fun h ↦ ⟨inBuffer_slot (glyphIndex_lt c), if_neg h⟩⟩
  rintro ⟨-, h⟩ rfl
  exact absurd h (by decide)

/-! ## What is drawn -/

variable {Good : Byte → ℤ → Prop} {adr : ℤ} {contents : List Byte}

theorem drawing_eq (m : Memory) (contents : List Byte) (x y : ℤ) : drawing e m contents x y =
    (contents.map fun c ↦ slot e m (glyphIndex c)).mapIdx fun j a ↦
      ⟨a, x + j * e.charWidth, y, e.charWidth, e.charHeight⟩ := by
  refine List.ext_getElem? fun j ↦ ?_
  rw [drawing, List.getElem?_mapIdx, List.getElem?_mapIdx, List.getElem?_map, Option.map_map]
  rfl

/-- The glyphs of a drawing. -/
theorem map_adr_mapIdx (e : Machine) (glyphs : List ℤ) (x y : ℤ) :
    (glyphs.mapIdx fun j a ↦
      (⟨a, x + j * e.charWidth, y, e.charWidth, e.charHeight⟩ : Transfer)).map (·.adr) =
      glyphs := by
  rw [map_mapIdx]
  exact List.ext_getElem? fun j ↦ by rw [List.getElem?_mapIdx, Option.map_id']

/-- A string that is not empty is drawn as it should be if each of its characters is. -/
theorem prints_iff_of_ne_nil (hs : StringAt m adr contents) (hne : contents ≠ []) (x y : ℤ) :
    Prints e Good m adr contents x y ↔ ∀ c ∈ contents, Good c (slot e m (glyphIndex c)) := by
  have hgood : (∀ c ∈ contents, Good c (slot e m (glyphIndex c))) ↔
      List.Forall₂ Good contents (contents.map fun c ↦ slot e m (glyphIndex c)) := by
    rw [List.forall₂_map_right_iff, List.forall₂_same]
  rw [hgood]
  refine ⟨fun h ↦ ?_, fun h fuel hfuel st ix ↦ ?_⟩
  · obtain ⟨fuel, hfuel⟩ : ∃ fuel : ℕ, cellRange ≤ fuel := ⟨_, Int.self_le_toNat _⟩
    obtain ⟨m', glyphs, hrun, hdrawn, hall⟩ := h fuel hfuel [] []
    rw [fontPrint_run hfuel hs hne] at hrun
    cases hrun
    have hglyphs := congrArg (List.map (·.adr)) (List.append_cancel_left hdrawn)
    rw [drawing_eq, map_adr_mapIdx, map_adr_mapIdx] at hglyphs
    rwa [hglyphs]
  · exact ⟨_, _, fontPrint_run hfuel hs hne x y, by rw [printed, drawing_eq], h⟩

/-- Whatever the glyphs, the empty string is not drawn as it should be. -/
theorem not_prints_nil (adr x y : ℤ) : ¬ Prints e Good m adr [] x y := by
  intro h
  obtain ⟨fuel, hfuel⟩ : ∃ fuel : ℕ, cellRange ≤ fuel := ⟨_, Int.self_le_toNat _⟩
  obtain ⟨m', glyphs, hrun, hdrawn, hall⟩ := h fuel hfuel [] []
  have hlt := drawn_of_fontPrint hrun
  rw [List.forall₂_nil_left_iff.mp hall] at hdrawn
  rw [hdrawn, List.mapIdx_nil, List.append_nil] at hlt
  exact lt_irrefl _ hlt

end

/-- **Which strings are drawn as they should be.**  Every string that is not empty is drawn
character by character with the glyphs that the capture loop has taken for them.  They show the
characters unless one of these is the quotation mark, in whose place the line has a blank. -/
theorem prints_iff {m : Memory} (hm : Loaded e m) {adr : ℤ} {contents : List Byte}
    (hs : StringAt m adr contents) (x y : ℤ) :
    (Prints e (OwnPlace e m) m adr contents x y ↔ contents ≠ []) ∧
      (Prints e (OwnGlyph e m) m adr contents x y ↔ contents ≠ [] ∧ 0x22 ∉ contents) := by
  rcases eq_or_ne contents [] with rfl | hne
  · exact ⟨iff_of_false (not_prints_nil _ _ _) (· rfl),
      iff_of_false (not_prints_nil _ _ _) (·.1 rfl)⟩
  · rw [prints_iff_of_ne_nil hs hne, prints_iff_of_ne_nil hs hne]
    refine ⟨iff_of_true (fun c _ ↦ ownPlace_slot hm c) hne, ?_⟩
    simp only [ownGlyph_slot_iff hm, hne, true_and, ne_eq, not_false_eq_true]
    exact ⟨fun h hq ↦ h _ hq rfl, fun h c hc heq ↦ h (heq ▸ hc)⟩

/-! ## A string of two characters, and two that fail -/

/-- The console of the comments: a character is six pixels wide and eleven high. -/
def console : Machine := ⟨6, 11, fun _ ↦ 0x10000, by decide, by decide⟩

/-- The font has been read, and there are some bytes at `0x2000`. -/
def holding (contents : List Byte) : Memory where
  fBuffer := 0x10000
  fString := 0
  fX := 0
  fY := 0
  bytes := fun a ↦ if a < 0x2000 then none else contents[(a - 0x2000).toNat]?
  captured := (List.range 95).map fun k : ℕ ↦ ⟨0x10000 + k * 66, k * 6, 4, 6, 11⟩
  drawn := []

theorem loaded_holding (contents : List Byte) : Loaded console (holding contents) := rfl

theorem stringAt_holding (contents : List Byte) (h : contents.length < cellRange) :
    StringAt (holding contents) 0x2000 contents where
  bytes := by
    intro j _
    have hge : ¬ (0x2000 + j : ℤ) < 0x2000 := by omega
    simp only [holding]
    rw [if_neg hge, add_sub_cancel_left, Int.toNat_natCast]
  cell := h

theorem prints_hi : Prints console (OwnGlyph console (holding [0x48, 0x69])) (holding [0x48, 0x69])
    0x2000 [0x48, 0x69] 24 23 :=
  (prints_iff console (loaded_holding _) (stringAt_holding _ (by decide)) 24 23).2.mpr
    ⟨by decide, by decide⟩

/-- Nothing is what an empty string asks for, and a quotation mark is not what it gets. -/
theorem not_prints_empty :
    Loaded console (holding []) ∧ StringAt (holding []) 0x2000 [] ∧
    ¬ Prints console (OwnPlace console (holding [])) (holding []) 0x2000 [] 24 23 ∧
    Loaded console (holding [0x22]) ∧ StringAt (holding [0x22]) 0x2000 [0x22] ∧
    ¬ Prints console (OwnGlyph console (holding [0x22])) (holding [0x22]) 0x2000 [0x22] 24 23 := by
  have hs := stringAt_holding [0x22] (by decide)
  refine ⟨loaded_holding _, stringAt_holding [] (by decide), not_prints_nil _ _ _,
    loaded_holding _, hs, fun h ↦ ?_⟩
  have hquote := (prints_iff_of_ne_nil hs (List.cons_ne_nil _ _) 24 23).mp h 0x22 List.mem_cons_self
  exact (ownGlyph_slot_iff (loaded_holding _) 0x22).mp hquote rfl

end Font
end MacOSXInternal
