import Mathlib.Data.Nat.Notation

/-!
# PowerPC instructions

The instruction forms of the 32-bit user-level architecture that compiled integer code is made of,
and their decoding.  The architecture counts bits from the most significant one; the fields here
are given by the position of their least significant bit and their width.

`decode` is `none` for every word it does not know, among them the forms that set condition bits
(`Rc`, `OE`), and branches that count.
-/

set_option autoImplicit false

namespace PowerPC

/-- The number of a general-purpose register. -/
abbrev Reg := BitVec 5

/-- The decoded instructions. -/
inductive Instr
  | addi (rt ra : Reg) (si : BitVec 16)
  | lwz (rt ra : Reg) (d : BitVec 16)
  | stw (rs ra : Reg) (d : BitVec 16)
  | stwu (rs ra : Reg) (d : BitVec 16)
  | lmw (rt ra : Reg) (d : BitVec 16)
  | stmw (rs ra : Reg) (d : BitVec 16)
  | cmpwi (bf : BitVec 3) (ra : Reg) (si : BitVec 16)
  | or (ra rs rb : Reg)
  | mullw (rt ra rb : Reg)
  | mflr (rt : Reg)
  | mtlr (rs : Reg)
  | b (li : BitVec 24) (aa lk : Bool)
  | bc (bo bi : BitVec 5) (bd : BitVec 14) (aa lk : Bool)
  | bclr (bo bi : BitVec 5) (lk : Bool)
  deriving DecidableEq, Repr

/-! ## Fields -/

section
variable (w : BitVec 32)

def opcd : BitVec 6 := w.extractLsb' 26 6
/-- `RT`, `RS` and `BO`. -/
def field6 : BitVec 5 := w.extractLsb' 21 5
/-- `RA` and `BI`. -/
def field11 : BitVec 5 := w.extractLsb' 16 5
def field16 : BitVec 5 := w.extractLsb' 11 5
/-- `D` and `SI`. -/
def imm : BitVec 16 := w.extractLsb' 0 16
/-- The extended opcode of the X, XL and XFX forms, and of the XO form together with `OE`. -/
def xo : BitVec 10 := w.extractLsb' 1 10
def fieldLI : BitVec 24 := w.extractLsb' 2 24
def fieldBD : BitVec 14 := w.extractLsb' 2 14
def fieldAA : Bool := w.getLsbD 1
/-- `LK` and `Rc`. -/
def fieldLK : Bool := w.getLsbD 0

end

/-- The conditions a branch can have that do not count: true, false, always. -/
def plainBO (bo : BitVec 5) : Bool := bo = 12 ∨ bo = 4 ∨ bo = 20

/-- Decoding. -/
def decode (w : BitVec 32) : Option Instr :=
  match (opcd w).toNat with
  | 14 => some (.addi (field6 w) (field11 w) (imm w))
  | 32 => some (.lwz (field6 w) (field11 w) (imm w))
  | 36 => some (.stw (field6 w) (field11 w) (imm w))
  | 37 => some (.stwu (field6 w) (field11 w) (imm w))
  | 46 => some (.lmw (field6 w) (field11 w) (imm w))
  | 47 => some (.stmw (field6 w) (field11 w) (imm w))
  | 11 =>
    -- the two bits below the condition field are reserved and `L`, which is zero for a word
    if w.extractLsb' 21 2 = 0 then some (.cmpwi (w.extractLsb' 23 3) (field11 w) (imm w)) else none
  | 18 => some (.b (fieldLI w) (fieldAA w) (fieldLK w))
  | 16 =>
    if plainBO (field6 w) then
      some (.bc (field6 w) (field11 w) (fieldBD w) (fieldAA w) (fieldLK w))
    else none
  | 19 =>
    if (xo w).toNat = 16 ∧ plainBO (field6 w) then
      some (.bclr (field6 w) (field11 w) (fieldLK w))
    else none
  | 31 =>
    if fieldLK w then none
    else match (xo w).toNat with
      | 444 => some (.or (field11 w) (field6 w) (field16 w))
      | 235 => some (.mullw (field6 w) (field11 w) (field16 w))
      -- the two halves of the register's number, 8, are exchanged
      | 339 => if field11 w = 8 ∧ field16 w = 0 then some (.mflr (field6 w)) else none
      | 467 => if field11 w = 8 ∧ field16 w = 0 then some (.mtlr (field6 w)) else none
      | _ => none
  | _ => none

end PowerPC
