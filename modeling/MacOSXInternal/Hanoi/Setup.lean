import MacOSXInternal.Hanoi.Solve

/-!
# `n hanoi`

What remains of `hanoi-lib.of` and `hanoi.of`: the words that draw the towers and put the disks on
the first of them, the check of the argument, and the word `hanoi` itself.

`h-maxdisks` is configurable, and is an argument of the words that look at it; nothing here sets it.

* `hanoiValidate_eq` says which arguments are accepted.
-/

set_option autoImplicit false

namespace MacOSXInternal
namespace Hanoi

open Forth

/-! ## The towers -/

def hColorBase : ℤ := 2

variable (e : Machine) (fuel : ℕ) (hMaxdisks : ℤ)

/-- `( n -- )` -/
def hanoiDrawTowerBase : Word Memory :=
  words [lit hColorBase, swap, lit e.hXmaxby4, mul, lit e.hBw, sub,
    lit e.screenHeight, lit e.hBh, sub,
    lit e.hBw, lit 2, mul,
    lit e.hBh,
    hanoiFillrect]

/-- `( tid -- )` -/
def hanoiDrawTowerPole : Word Memory :=
  words [dup, lit 1, sub, lit 0, swap, lit e.hTowerDisks, add, towerCStore e,
    lit hColorTower, swap, lit e.hXmaxby4, mul, lit e.hTw, sub,
    lit e.screenHeight, lit e.hTh, lit e.hBh, add, sub,
    lit e.hTw, lit 2, mul,
    lit e.hTh,
    hanoiFillrect]

/-- `( tid did -- )` -/
def hanoiTowerDiskAdd : Word Memory :=
  words [lit hColorDisk, minusRot, twoDup, hanoiDiskX e, minusRot, «over», hanoiTowerDisksInc e,
    hanoiDiskY e, minusRot, hanoiDiskWidth e, lit 2, mul, swap, drop, lit e.hDiskHeight,
    hanoiFillrect]

/-- `( n -- )` -/
def hanoiInit : Word Memory :=
  words
    [lit 0, store fun x m ↦ { m with hDx := x },
    lit 0, store fun x m ↦ { m with hDy := x },
    lit 0, lit e.hTowerDisks, towerCStore e,
    lit 0, lit e.hTowerDisks, lit 1, add, towerCStore e,
    lit 0, lit e.hTowerDisks, lit 2, add, towerCStore e,
    lit 1, hanoiDrawTowerBase e, lit 2, hanoiDrawTowerBase e, lit 3, hanoiDrawTowerBase e,
    lit 1, hanoiDrawTowerPole e, lit 2, hanoiDrawTowerPole e, lit 3, hanoiDrawTowerPole e,
    lit 1, add, lit 1, doLoop fuel (words [lit 1, i, hanoiTowerDiskAdd e])]

/-! ## The word -/

/-- `( n -- n true|false )` -/
def hanoiValidate : Word Memory :=
  words [depth, lit 1, less, ifElse
    (words [cr, dotQuote "usage: n hanoi, where 1 <= n <= ", lit hMaxdisks, dot, cr, lit 0])
    (words [dup, lit 1, lit hMaxdisks, between, ifElse
      (words [lit (-1)])
      (words [cr, dotQuote "usage: n hanoi, where 1 <= n <= ", lit hMaxdisks, dot, cr, drop,
        lit 0])])]

/-- Nothing here reads the screen back. -/
def eraseScreen : Word Memory := .ok

/-- `( n -- )` -/
def hanoi : Word Memory :=
  words [hanoiValidate hMaxdisks, ifElse
    (words [eraseScreen, cr, dotQuote "Press control-z to quit the animation.", cr,
      dup, store fun x m ↦ { m with hN := x },
      dup, hanoiInit e fuel,
      lit 1, lit 3, lit 0, hanoiSolve e fuel])
    (words [])]

/-- What is accepted is a number from one to `h-maxdisks`; another one is taken off the stack. -/
theorem hanoiValidate_eq (n : ℤ) (st ix : List ℤ) (m : Memory) :
    hanoiValidate hMaxdisks ⟨n :: st, ix, m⟩ =
      .ok ⟨if 1 ≤ n ∧ n ≤ hMaxdisks then -1 :: n :: st else 0 :: st, ix, m⟩ := by
  have hdepth : ¬ ((n :: st).length : ℤ) < 1 := by
    rw [List.length_cons]
    omega
  simp only [hanoiValidate, words_cons, words_nil, ok_bind, depth_apply, lit_apply, less_apply,
    ifElse_flag, if_neg hdepth, dup_apply, between_apply]
  split_ifs <;> rfl

namespace Machine

def baseEvent (x : ℤ) : Event :=
  .fillRectangle hColorBase (x * e.hXmaxby4 - e.hBw) (e.screenHeight - e.hBh) (e.hBw * 2) e.hBh

def poleEvent (t : ℤ) : Event :=
  .fillRectangle hColorTower (t * e.hXmaxby4 - e.hTw) (e.screenHeight - (e.hTh + e.hBh)) (e.hTw * 2)
    e.hTh

def diskEvent (tid did tn : ℤ) : Event :=
  .fillRectangle hColorDisk (e.diskX tid did) (e.diskY tn) (e.diskWidth did * 2) e.hDiskHeight

/-- The towers have been drawn and the counters cleared. -/
def setUp (m : Memory) : Memory :=
  { m with
    hDx := 0
    hDy := 0
    hTowerDisks := fun _ ↦ 0
    trace := m.trace ++ ([1, 2, 3].map e.baseEvent ++ [1, 2, 3].map e.poleEvent) }

end Machine

@[simp] theorem setUp_moves (m : Memory) : (e.setUp m).moves = m.moves := by
  simp [Memory.moves, moves, Machine.setUp, Machine.baseEvent, Machine.poleEvent]

@[simp] theorem hanoiDrawTowerBase_apply (x : ℤ) (st ix : List ℤ) (m : Memory) :
    hanoiDrawTowerBase e ⟨x :: st, ix, m⟩ = .ok ⟨st, ix, m.log (e.baseEvent x)⟩ := by
  simp [hanoiDrawTowerBase, Machine.baseEvent]

/-- Drawing a pole also clears the counter. -/
theorem hanoiDrawTowerPole_eq {t : ℤ} {k : Fin 3} (hk : t = (k : ℕ) + 1) (st ix : List ℤ)
    (m : Memory) :
    hanoiDrawTowerPole e ⟨t :: st, ix, m⟩ = .ok ⟨st, ix, (m.setCount k 0).log (e.poleEvent t)⟩ := by
  have ha : t - 1 + e.hTowerDisks = e.hTowerDisks + (k : ℕ) := by omega
  simp [hanoiDrawTowerPole, towerCStore_eq e ha, Machine.poleEvent]

/-- Adding a disk also counts it. -/
theorem hanoiTowerDiskAdd_eq {t : ℤ} {k : Fin 3} (hk : t = (k : ℕ) + 1) (did : ℤ)
    (st ix : List ℤ) (m : Memory) :
    hanoiTowerDiskAdd e ⟨did :: t :: st, ix, m⟩ = .ok ⟨st, ix,
      (m.setCount k (m.count k + 1)).log (e.diskEvent t did (m.count k))⟩ := by
  simp [hanoiTowerDiskAdd, hanoiTowerDisksInc_eq e hk, Machine.diskEvent]

end Hanoi
end MacOSXInternal
