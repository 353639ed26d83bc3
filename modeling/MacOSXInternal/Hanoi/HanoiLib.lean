import MacOSXInternal.Lib.Forth

/-!
# The words of `hanoi-lib.of`

`hanoi-disk-move` and everything it is made of: the arithmetic of positions, the three counters in
`h-tower-disks`, and the three loops that lift a disk, carry it across and lower it.  Each word is
the list of words of its colon definition.

A `Machine` is what is fixed when the program has been loaded: the size of the screen, from which
all the display constants are computed, and the address of the buffer.  `Memory` holds the
variables, the buffer, and a trace of what the outside sees: the rectangles drawn, the delays, and
each call of `hanoi-disk-move` with its arguments.

* `hanoiDiskMove_ok` is the one thing the solver needs to know about moving a disk: between towers
  that exist it takes its three arguments off the stack, leaves the rest alone, and adds one call
  to the trace.
-/

set_option autoImplicit false

namespace MacOSXInternal
namespace Hanoi

open Forth

/-! ## The machine -/

/-- What is fixed when the program has been loaded. -/
structure Machine where
  screenWidth : ℤ
  screenHeight : ℤ
  /-- The address of `h-tower-disks`. -/
  hTowerDisks : ℤ

namespace Machine

variable (e : Machine)

/-! `/` rounds down. -/

def hBh : ℤ := e.screenHeight.fdiv 100 * 3
def hBw : ℤ := e.screenWidth.fdiv 100 * 12
def hXmaxby4 : ℤ := e.screenWidth.fdiv 4
def hTh : ℤ := e.screenHeight.fdiv 100 * 75
def hTw : ℤ := e.hBh.fdiv 2
def hTowerYmin : ℤ := e.screenHeight - (e.hTh + e.hBh)
def hDiskHeight : ℤ := e.screenHeight.fdiv 100 * 2
def hDiskDelta : ℤ := e.screenWidth.fdiv 100 * 1
def hDiskYmin : ℤ := e.hTowerYmin - e.hDiskHeight

end Machine

def hColorBg : ℤ := 15
def hColorDisk : ℤ := 50
def hColorTower : ℤ := 4

/-- What the outside sees. -/
inductive Event
  /-- `hanoi-disk-move` has been called. -/
  | diskMove (totid fromtid did : ℤ)
  | fillRectangle (color x y w h : ℤ)
  | ms (msec : ℤ)
  deriving DecidableEq, Repr

/-- The variables, the buffer and the trace. -/
structure Memory where
  hDelay : ℤ
  hDx : ℤ
  hDy : ℤ
  hDw : ℤ
  hDh : ℤ
  hTx : ℤ
  hN : ℤ
  hDcolor : ℤ
  hDelta : ℤ
  hTowerDisks : Fin 3 → BitVec 8
  trace : List Event

/-- Add to the trace. -/
def Memory.log (m : Memory) (ev : Event) : Memory := { m with trace := m.trace ++ [ev] }

section
variable (m : Memory) (ev : Event)

@[simp] theorem log_hDelay : (m.log ev).hDelay = m.hDelay := rfl
@[simp] theorem log_hDx : (m.log ev).hDx = m.hDx := rfl
@[simp] theorem log_hDy : (m.log ev).hDy = m.hDy := rfl
@[simp] theorem log_hDw : (m.log ev).hDw = m.hDw := rfl
@[simp] theorem log_hDh : (m.log ev).hDh = m.hDh := rfl
@[simp] theorem log_hTx : (m.log ev).hTx = m.hTx := rfl
@[simp] theorem log_hN : (m.log ev).hN = m.hN := rfl
@[simp] theorem log_hDelta : (m.log ev).hDelta = m.hDelta := rfl
@[simp] theorem log_hTowerDisks : (m.log ev).hTowerDisks = m.hTowerDisks := rfl

end

variable (e : Machine) (fuel : ℕ)

/-- `c@`, for an address in `h-tower-disks`. -/
def towerCFetch : Word Memory := cfetch fun a m ↦
  if h : 0 ≤ a - e.hTowerDisks ∧ a - e.hTowerDisks < 3 then
    some (m.hTowerDisks ⟨(a - e.hTowerDisks).toNat, by omega⟩).toNat
  else none

/-- `c!`, for an address in `h-tower-disks`. -/
def towerCStore : Word Memory := cstore fun a x m ↦
  if h : 0 ≤ a - e.hTowerDisks ∧ a - e.hTowerDisks < 3 then
    some { m with
      hTowerDisks := Function.update m.hTowerDisks ⟨(a - e.hTowerDisks).toNat, by omega⟩
        (BitVec.ofInt 8 x) }
  else none

/-- `( color x y w h -- )`, `fill-rectangle` of the screen. -/
def hanoiFillrect : Word Memory := device 5 fun
  | [color, x, y, w, h], m => m.log (.fillRectangle color x y w h)
  | _, m => m

/-- `( msec -- )` -/
def hanoiSleep : Word Memory := device 1 fun
  | [msec], m => m.log (.ms msec)
  | _, m => m

/-- The trace's note of a call of `hanoi-disk-move`, which takes nothing off the stack. -/
def noteDiskMove : Word Memory := fun s ↦ .ok <|
  match s.stack with
  | did :: fromtid :: totid :: _ => { s with mem := s.mem.log (.diskMove totid fromtid did) }
  | _ => s

/-! ## Positions and counters -/

namespace Machine

/-- Half the width of disk `did`. -/
def diskWidth (did : ℤ) : ℤ := e.hBw - did * e.hDiskDelta

/-- The left edge of disk `did` on tower `tid`. -/
def diskX (tid did : ℤ) : ℤ := tid * e.hXmaxby4 - e.diskWidth did

/-- The upper edge of a disk with `tn` disks below it. -/
def diskY (tn : ℤ) : ℤ := e.screenHeight - ((tn + 1) * e.hDiskHeight + e.hBh)

/-- The variables set for moving disk `did` to or from place `tn` of tower `tid`. -/
def aim (m : Memory) (tid did tn : ℤ) : Memory :=
  { m with
    hDx := e.diskX tid did
    hDy := e.diskY tn
    hDw := e.diskWidth did * 2
    hDh := e.hDiskHeight
    hDcolor := hColorDisk
    hTx := e.diskX tid did + (e.diskWidth did * 2).fdiv 2 - e.hTw }

end Machine

/-- `( did -- cdw )` -/
def hanoiDiskWidth : Word Memory := words [lit e.hBw, swap, lit e.hDiskDelta, mul, sub]

/-- `( tid did -- x )` -/
def hanoiDiskX : Word Memory :=
  words [hanoiDiskWidth e, swap, lit e.hXmaxby4, mul, swap, sub]

/-- `( tn -- y )` -/
def hanoiDiskY : Word Memory :=
  words [lit e.screenHeight, swap, lit 1, add, lit e.hDiskHeight, mul, lit e.hBh, add, sub]

/-- `( tid -- tn )` -/
def hanoiTowerDisksInc : Word Memory :=
  words [dup, lit 1, sub, lit e.hTowerDisks, add, towerCFetch e, dup, lit 1, add, rot,
    lit 1, sub, lit e.hTowerDisks, add, towerCStore e]

/-- `( tid -- tn )` -/
def hanoiTowerDisksDec : Word Memory :=
  words [dup, lit 1, sub, lit e.hTowerDisks, add, towerCFetch e, dup, lit 1, sub, rot,
    lit 1, sub, lit e.hTowerDisks, add, towerCStore e]

/-! ## The drawing loops -/

/-- The body of `hanoi-drawloop-up`. -/
def drawUp : Word Memory :=
  words
    [lit hColorBg, fetch (·.hDx), fetch (·.hDy), i, sub, fetch (·.hDh), add, lit 1, sub,
      fetch (·.hDw), lit 1, hanoiFillrect,
    lit hColorDisk, fetch (·.hDx), fetch (·.hDy), i, sub, lit 1, sub,
      fetch (·.hDw), lit 1, hanoiFillrect,
    fetch (·.hDy), i, sub, lit e.hDiskYmin, greater, ifElse
      (words [lit hColorTower, fetch (·.hTx), fetch (·.hDy), i, sub, fetch (·.hDh), add, lit 1, sub,
        lit e.hTw, lit 2, mul, lit 1, hanoiFillrect])
      (words []),
    fetch (·.hDelay), hanoiSleep]

/-- `( limit start -- )` -/
def hanoiDrawloopUp : Word Memory := doLoop fuel (drawUp e)

/-- The body of `hanoi-drawloop-down`. -/
def drawDown : Word Memory :=
  words
    [lit hColorBg, fetch (·.hDx), lit e.hDiskYmin, i, add, fetch (·.hDw), lit 1, hanoiFillrect,
    lit hColorDisk, fetch (·.hDx), lit e.hDiskYmin, i, add, lit 1, add, fetch (·.hDh), add,
      fetch (·.hDw), lit 1, hanoiFillrect,
    i, fetch (·.hDh), greater, ifElse
      (words [lit hColorTower, fetch (·.hTx), lit e.hDiskYmin, i, add, lit e.hTw, lit 2, mul, lit 1,
        hanoiFillrect])
      (words []),
    fetch (·.hDelay), hanoiSleep]

/-- `( limit start -- )` -/
def hanoiDrawloopDown : Word Memory := doLoop fuel (drawDown e)

/-- The body of `hanoi-drawloop-lr`, which ends by pushing the increment. -/
def drawLr : Word Memory :=
  words
    [lit hColorBg, fetch (·.hDx), i, add, lit e.hDiskYmin, fetch (·.hDw), fetch (·.hDh),
      hanoiFillrect,
    lit hColorDisk, fetch (·.hDx), i, add, fetch (·.hDelta), add, lit e.hDiskYmin, fetch (·.hDw),
      fetch (·.hDh), hanoiFillrect,
    fetch (·.hDelay), hanoiSleep,
    fetch (·.hDelta)]

/-- `( limit start -- )` -/
def hanoiDrawloopLr : Word Memory := doPlusLoop fuel (drawLr e)

/-! ## Moving a disk -/

/-- `( tid did -- )` -/
def hanoiDiskMoveUp : Word Memory :=
  words [lit hColorDisk, minusRot, twoDup, hanoiDiskX e, minusRot, «over», hanoiTowerDisksDec e,
    lit 1, sub, hanoiDiskY e, minusRot, hanoiDiskWidth e, swap, drop, lit e.hDiskHeight,
    store fun x m ↦ { m with hDh := x },
    lit 2, mul, store fun x m ↦ { m with hDw := x },
    store fun x m ↦ { m with hDy := x },
    store fun x m ↦ { m with hDx := x },
    store fun x m ↦ { m with hDcolor := x },
    fetch (·.hDx), fetch (·.hDw), lit 2, div, add, lit e.hTw, sub,
    store fun x m ↦ { m with hTx := x },
    fetch (·.hDy), lit e.hDiskYmin, sub, lit 0, hanoiDrawloopUp e fuel]

/-- `( tid did -- )` -/
def hanoiDiskMoveDown : Word Memory :=
  words [lit hColorDisk, minusRot, twoDup, hanoiDiskX e, minusRot, «over», hanoiTowerDisksInc e,
    hanoiDiskY e, minusRot, hanoiDiskWidth e, lit 2, mul, swap, drop, lit e.hDiskHeight,
    store fun x m ↦ { m with hDh := x },
    store fun x m ↦ { m with hDw := x },
    store fun x m ↦ { m with hDy := x },
    store fun x m ↦ { m with hDx := x },
    store fun x m ↦ { m with hDcolor := x },
    fetch (·.hDx), fetch (·.hDw), lit 2, div, add, lit e.hTw, sub,
    store fun x m ↦ { m with hTx := x },
    fetch (·.hDy), lit e.hDiskYmin, sub, lit 0, hanoiDrawloopDown e fuel]

/-- `( tto tfrom -- )` -/
def hanoiDiskMoveLr : Word Memory :=
  words [twoDup, less, ifElse
      (words [lit 1, negate, store fun x m ↦ { m with hDelta := x },
        sub, lit e.hXmaxby4, mul, fetch (·.hDelta), sub, lit 0])
      (words [lit 1, store fun x m ↦ { m with hDelta := x },
        sub, lit e.hXmaxby4, mul, lit 0]),
    hanoiDrawloopLr e fuel]

/-- `( totid fromtid did -- )` -/
def hanoiDiskMove : Word Memory :=
  words [noteDiskMove,
    fetch (·.hN), lit 1, add, swap, sub,
    lit 1, pick, lit 1, pick, hanoiDiskMoveUp e fuel,
    lit 2, pick, lit 2, pick, hanoiDiskMoveLr e fuel,
    lit 2, pick, lit 1, pick, hanoiDiskMoveDown e fuel,
    threeDrop]

/-! ## What moving a disk does to the stack and to the trace -/

/-- The arguments `(to, from, disk)` of the calls of `hanoi-disk-move` in a trace. -/
def moves (trace : List Event) : List (ℤ × ℤ × ℤ) :=
  trace.filterMap fun
    | .diskMove totid fromtid did => some (totid, fromtid, did)
    | _ => none

/-- The calls of `hanoi-disk-move` so far. -/
def Memory.moves (m : Memory) : List (ℤ × ℤ × ℤ) := Hanoi.moves m.trace

section
variable (m : Memory) (color x y w h msec : ℤ) (st ix : List ℤ)

@[simp] theorem log_fillRectangle_moves :
    (m.log (.fillRectangle color x y w h)).moves = m.moves := by
  simp [Memory.moves, moves, Memory.log]

@[simp] theorem log_ms_moves : (m.log (.ms msec)).moves = m.moves := by
  simp [Memory.moves, moves, Memory.log]

@[simp] theorem log_diskMove_moves :
    (m.log (.diskMove x y w)).moves = m.moves ++ [(x, y, w)] := by
  simp [Memory.moves, moves, Memory.log]

@[simp] theorem hanoiFillrect_apply :
    hanoiFillrect ⟨h :: w :: y :: x :: color :: st, ix, m⟩ =
      .ok ⟨st, ix, m.log (.fillRectangle color x y w h)⟩ := by
  simp [hanoiFillrect, device]

@[simp] theorem hanoiSleep_apply :
    hanoiSleep ⟨msec :: st, ix, m⟩ = .ok ⟨st, ix, m.log (.ms msec)⟩ := by
  simp [hanoiSleep, device]

@[simp] theorem noteDiskMove_apply :
    noteDiskMove ⟨w :: y :: x :: st, ix, m⟩ =
      .ok ⟨w :: y :: x :: st, ix, m.log (.diskMove x y w)⟩ := rfl

end

/-- Nothing but drawing and waiting has happened, and the variables of the drawing words have been
set. -/
structure Drawn (m m' : Memory) : Prop where
  moves : m'.moves = m.moves
  hN : m'.hN = m.hN
  hTowerDisks : m'.hTowerDisks = m.hTowerDisks

section
variable {m₀ m m' : Memory}

@[simp] theorem Drawn.refl (m : Memory) : Drawn m m := ⟨rfl, rfl, rfl⟩

theorem Drawn.trans (h : Drawn m₀ m) (h' : Drawn m m') : Drawn m₀ m' :=
  ⟨h'.moves.trans h.moves, h'.hN.trans h.hN, h'.hTowerDisks.trans h.hTowerDisks⟩

@[simp] theorem drawn_fillRectangle {color x y w h : ℤ} :
    Drawn m₀ (m.log (.fillRectangle color x y w h)) ↔ Drawn m₀ m := by
  constructor
  · exact fun hd ↦ hd.trans ⟨(log_fillRectangle_moves ..).symm, rfl, rfl⟩
  · exact fun hd ↦ hd.trans ⟨log_fillRectangle_moves .., rfl, rfl⟩

@[simp] theorem drawn_ms {msec : ℤ} : Drawn m₀ (m.log (.ms msec)) ↔ Drawn m₀ m := by
  constructor
  · exact fun hd ↦ hd.trans ⟨(log_ms_moves ..).symm, rfl, rfl⟩
  · exact fun hd ↦ hd.trans ⟨log_ms_moves .., rfl, rfl⟩

end

/-! The bodies of the loops draw and wait, and leave the increment alone. -/

/-- Add several things to the trace. -/
def Memory.draw (m : Memory) (events : List Event) : Memory :=
  { m with trace := m.trace ++ events }

namespace Machine

/-- A turn of `hanoi-drawloop-up`, with the index `n`. -/
def upTurn (m : Memory) (n : ℤ) : List Event :=
  [.fillRectangle hColorBg m.hDx (m.hDy - n + m.hDh - 1) m.hDw 1,
    .fillRectangle hColorDisk m.hDx (m.hDy - n - 1) m.hDw 1] ++
  (if m.hDy - n > e.hDiskYmin then
    [.fillRectangle hColorTower m.hTx (m.hDy - n + m.hDh - 1) (e.hTw * 2) 1] else []) ++
  [.ms m.hDelay]

/-- A turn of `hanoi-drawloop-down`. -/
def downTurn (m : Memory) (n : ℤ) : List Event :=
  [.fillRectangle hColorBg m.hDx (e.hDiskYmin + n) m.hDw 1,
    .fillRectangle hColorDisk m.hDx (e.hDiskYmin + n + 1 + m.hDh) m.hDw 1] ++
  (if n > m.hDh then
    [.fillRectangle hColorTower m.hTx (e.hDiskYmin + n) (e.hTw * 2) 1] else []) ++
  [.ms m.hDelay]

/-- A turn of `hanoi-drawloop-lr`. -/
def lrTurn (m : Memory) (n : ℤ) : List Event :=
  [.fillRectangle hColorBg (m.hDx + n) e.hDiskYmin m.hDw m.hDh,
    .fillRectangle hColorDisk (m.hDx + n + m.hDelta) e.hDiskYmin m.hDw m.hDh,
    .ms m.hDelay]

end Machine

/-- What is drawn is no call of `hanoi-disk-move`. -/
theorem drawn_draw {m : Memory} {events : List Event} (h : moves events = []) :
    Drawn m (m.draw events) := by
  refine ⟨?_, rfl, rfl⟩
  rw [Memory.moves, Memory.moves, moves, Memory.draw, List.filterMap_append, ← moves, ← moves, h,
    List.append_nil]

section
variable (st ix : List ℤ) (n : ℤ) (m : Memory)

theorem drawUp_eq :
    drawUp e ⟨st, n :: ix, m⟩ = .ok ⟨st, n :: ix, m.draw (e.upTurn m n)⟩ := by
  by_cases h : m.hDy - n > e.hDiskYmin <;>
    simp [drawUp, Machine.upTurn, Memory.draw, Memory.log, h]

theorem drawDown_eq :
    drawDown e ⟨st, n :: ix, m⟩ = .ok ⟨st, n :: ix, m.draw (e.downTurn m n)⟩ := by
  by_cases h : n > m.hDh <;> simp [drawDown, Machine.downTurn, Memory.draw, Memory.log, h]

theorem drawLr_eq :
    drawLr e ⟨st, n :: ix, m⟩ = .ok ⟨m.hDelta :: st, n :: ix, m.draw (e.lrTurn m n)⟩ := by
  simp [drawLr, Machine.lrTurn, Memory.draw, Memory.log]

theorem drawn_upTurn : Drawn m (m.draw (e.upTurn m n)) := by
  refine drawn_draw ?_
  rw [Machine.upTurn]
  split_ifs <;> rfl

theorem drawn_downTurn : Drawn m (m.draw (e.downTurn m n)) := by
  refine drawn_draw ?_
  rw [Machine.downTurn]
  split_ifs <;> rfl

theorem drawn_lrTurn : Drawn m (m.draw (e.lrTurn m n)) := drawn_draw rfl

end

variable {fuel}

theorem hanoiDrawloopUp_ok (hfuel : cellRange ≤ fuel) (start limit : ℤ) (st ix : List ℤ)
    (m : Memory) :
    ∃ m', hanoiDrawloopUp e fuel ⟨start :: limit :: st, ix, m⟩ = .ok ⟨st, ix, m'⟩ ∧
      Drawn m m' := by
  refine doLoop_invariant (I := Drawn m) ?_ hfuel start limit (.refl m)
  intro n m₁ h₁
  exact ⟨_, drawUp_eq e st ix n m₁, h₁.trans (drawn_upTurn e n m₁)⟩

theorem hanoiDrawloopDown_ok (hfuel : cellRange ≤ fuel) (start limit : ℤ) (st ix : List ℤ)
    (m : Memory) :
    ∃ m', hanoiDrawloopDown e fuel ⟨start :: limit :: st, ix, m⟩ = .ok ⟨st, ix, m'⟩ ∧
      Drawn m m' := by
  refine doLoop_invariant (I := Drawn m) ?_ hfuel start limit (.refl m)
  intro n m₁ h₁
  exact ⟨_, drawDown_eq e st ix n m₁, h₁.trans (drawn_downTurn e n m₁)⟩

theorem hanoiDrawloopLr_ok (hfuel : cellRange ≤ fuel) (start limit : ℤ) (st ix : List ℤ)
    (m : Memory) (hd : m.hDelta = 1 ∨ m.hDelta = -1) :
    ∃ m', hanoiDrawloopLr e fuel ⟨start :: limit :: st, ix, m⟩ = .ok ⟨st, ix, m'⟩ ∧
      Drawn m m' := by
  have hbody (n : ℤ) (m₁ : Memory) (h₁ : Drawn m m₁ ∧ m₁.hDelta = m.hDelta) :
      ∃ m', drawLr e ⟨st, n :: ix, m₁⟩ = .ok ⟨m.hDelta :: st, n :: ix, m'⟩ ∧
        Drawn m m' ∧ m'.hDelta = m.hDelta := by
    exact ⟨_, h₁.2 ▸ drawLr_eq e st ix n m₁, h₁.1.trans (drawn_lrTurn e n m₁), h₁.2⟩
  obtain ⟨m', hr, hm', -⟩ := doPlusLoop_invariant
    (I := fun m' : Memory ↦ Drawn m m' ∧ m'.hDelta = m.hDelta) hd hbody hfuel start limit
    ⟨.refl m, rfl⟩
  exact ⟨m', hr, hm'⟩

/-! The counters. -/

/-- The number in the counter of a tower; the towers are counted from zero here. -/
def Memory.count (m : Memory) (k : Fin 3) : ℤ := (m.hTowerDisks k).toNat

/-- A counter is set. -/
def Memory.setCount (m : Memory) (k : Fin 3) (x : ℤ) : Memory :=
  { m with hTowerDisks := Function.update m.hTowerDisks k (BitVec.ofInt 8 x) }

theorem exists_tower {t : ℤ} (ht : 1 ≤ t ∧ t ≤ 3) : ∃ k : Fin 3, t = (k : ℕ) + 1 :=
  ⟨⟨(t - 1).toNat, by omega⟩, by simp only; omega⟩

section
variable {a : ℤ} {k : Fin 3} (ha : a = e.hTowerDisks + (k : ℕ)) (x : ℤ) (st ix : List ℤ)
  (m : Memory)
include ha

theorem towerCFetch_eq : towerCFetch e ⟨a :: st, ix, m⟩ = .ok ⟨m.count k :: st, ix, m⟩ := by
  have h : 0 ≤ a - e.hTowerDisks ∧ a - e.hTowerDisks < 3 := by omega
  have hk : ⟨(a - e.hTowerDisks).toNat, by omega⟩ = k := Fin.ext (by simp only; omega)
  simp only [towerCFetch, cfetch, dif_pos h, hk, Memory.count]

theorem towerCStore_eq :
    towerCStore e ⟨a :: x :: st, ix, m⟩ = .ok ⟨st, ix, m.setCount k x⟩ := by
  have h : 0 ≤ a - e.hTowerDisks ∧ a - e.hTowerDisks < 3 := by omega
  have hk : ⟨(a - e.hTowerDisks).toNat, by omega⟩ = k := Fin.ext (by simp only; omega)
  simp only [towerCStore, cstore, dif_pos h, hk, Memory.setCount]

end

section
variable {t : ℤ} {k : Fin 3} (hk : t = (k : ℕ) + 1) (st ix : List ℤ) (m : Memory)
include hk

theorem hanoiTowerDisksInc_eq :
    hanoiTowerDisksInc e ⟨t :: st, ix, m⟩ =
      .ok ⟨m.count k :: st, ix, m.setCount k (m.count k + 1)⟩ := by
  have ha : t - 1 + e.hTowerDisks = e.hTowerDisks + (k : ℕ) := by omega
  simp [hanoiTowerDisksInc, towerCFetch_eq e ha, towerCStore_eq e ha]

theorem hanoiTowerDisksDec_eq :
    hanoiTowerDisksDec e ⟨t :: st, ix, m⟩ =
      .ok ⟨m.count k :: st, ix, m.setCount k (m.count k - 1)⟩ := by
  have ha : t - 1 + e.hTowerDisks = e.hTowerDisks + (k : ℕ) := by omega
  simp [hanoiTowerDisksDec, towerCFetch_eq e ha, towerCStore_eq e ha]

end

/-! The positions. -/

section
variable (x y : ℤ) (st ix : List ℤ) (m : Memory)

@[simp] theorem hanoiDiskWidth_apply :
    hanoiDiskWidth e ⟨x :: st, ix, m⟩ = .ok ⟨e.diskWidth x :: st, ix, m⟩ := by
  simp [hanoiDiskWidth, Machine.diskWidth]

@[simp] theorem hanoiDiskX_apply :
    hanoiDiskX e ⟨y :: x :: st, ix, m⟩ = .ok ⟨e.diskX x y :: st, ix, m⟩ := by
  simp [hanoiDiskX, Machine.diskX]

@[simp] theorem hanoiDiskY_apply :
    hanoiDiskY e ⟨x :: st, ix, m⟩ = .ok ⟨e.diskY x :: st, ix, m⟩ := by
  simp [hanoiDiskY, Machine.diskY]

end

/-! The three movements. -/

theorem drawn_aim (m : Memory) (tid did tn : ℤ) : Drawn m (e.aim m tid did tn) := ⟨rfl, rfl, rfl⟩

section
variable (hfuel : cellRange ≤ fuel) {tid : ℤ} {k : Fin 3} (hk : tid = (k : ℕ) + 1) (did : ℤ)
  (st ix : List ℤ) (m : Memory)
include hfuel

theorem hanoiDiskMoveLr_ok (tto tfrom : ℤ) :
    ∃ m', hanoiDiskMoveLr e fuel ⟨tfrom :: tto :: st, ix, m⟩ = .ok ⟨st, ix, m'⟩ ∧
      Drawn m m' := by
  by_cases h : tto < tfrom
  · obtain ⟨m', hr, hm'⟩ := hanoiDrawloopLr_ok e hfuel 0 ((tto - tfrom) * e.hXmaxby4 - -1) st ix
      { m with hDelta := -1 } (.inr rfl)
    have hset : Drawn m { m with hDelta := -1 } := ⟨rfl, rfl, rfl⟩
    exact ⟨m', by simpa [hanoiDiskMoveLr, h] using hr, hset.trans hm'⟩
  · obtain ⟨m', hr, hm'⟩ := hanoiDrawloopLr_ok e hfuel 0 ((tto - tfrom) * e.hXmaxby4) st ix
      { m with hDelta := 1 } (.inl rfl)
    have hset : Drawn m { m with hDelta := 1 } := ⟨rfl, rfl, rfl⟩
    exact ⟨m', by simpa [hanoiDiskMoveLr, h] using hr, hset.trans hm'⟩

include hk

theorem hanoiDiskMoveUp_ok :
    ∃ m', hanoiDiskMoveUp e fuel ⟨did :: tid :: st, ix, m⟩ = .ok ⟨st, ix, m'⟩ ∧
      Drawn (m.setCount k (m.count k - 1)) m' := by
  obtain ⟨m', hr, hm'⟩ := hanoiDrawloopUp_ok e hfuel 0 (e.diskY (m.count k - 1) - e.hDiskYmin) st
    ix (e.aim (m.setCount k (m.count k - 1)) tid did (m.count k - 1))
  refine ⟨m', ?_, (drawn_aim ..).trans hm'⟩
  simpa [hanoiDiskMoveUp, hanoiTowerDisksDec_eq e hk, Machine.aim, mul_comm 2] using hr

theorem hanoiDiskMoveDown_ok :
    ∃ m', hanoiDiskMoveDown e fuel ⟨did :: tid :: st, ix, m⟩ = .ok ⟨st, ix, m'⟩ ∧
      Drawn (m.setCount k (m.count k + 1)) m' := by
  obtain ⟨m', hr, hm'⟩ := hanoiDrawloopDown_ok e hfuel 0 (e.diskY (m.count k) - e.hDiskYmin) st ix
    (e.aim (m.setCount k (m.count k + 1)) tid did (m.count k))
  refine ⟨m', ?_, (drawn_aim ..).trans hm'⟩
  simpa [hanoiDiskMoveDown, hanoiTowerDisksInc_eq e hk, Machine.aim] using hr

end

/-- **Moving a disk** between two towers that exist takes the three arguments off the stack and
adds one call to the trace. -/
theorem hanoiDiskMove_ok (hfuel : cellRange ≤ fuel) {totid fromtid : ℤ}
    (hto : 1 ≤ totid ∧ totid ≤ 3) (hfrom : 1 ≤ fromtid ∧ fromtid ≤ 3) (did : ℤ) (st ix : List ℤ)
    (m : Memory) :
    ∃ m', hanoiDiskMove e fuel ⟨did :: fromtid :: totid :: st, ix, m⟩ = .ok ⟨st, ix, m'⟩ ∧
      m'.moves = m.moves ++ [(totid, fromtid, did)] := by
  obtain ⟨from', hfrom'⟩ := exists_tower hfrom
  obtain ⟨to', hto'⟩ := exists_tower hto
  obtain ⟨m₁, h₁, hm₁⟩ := hanoiDiskMoveUp_ok e hfuel hfrom' (m.hN + 1 - did)
    ((m.hN + 1 - did) :: fromtid :: totid :: st) ix (m.log (.diskMove totid fromtid did))
  obtain ⟨m₂, h₂, hm₂⟩ := hanoiDiskMoveLr_ok e hfuel
    ((m.hN + 1 - did) :: fromtid :: totid :: st) ix m₁ totid fromtid
  obtain ⟨m₃, h₃, hm₃⟩ := hanoiDiskMoveDown_ok e hfuel hto' (m.hN + 1 - did)
    ((m.hN + 1 - did) :: fromtid :: totid :: st) ix m₂
  refine ⟨m₃, ?_, ?_⟩
  · simp [hanoiDiskMove, pick_apply, h₁, h₂, h₃]
  · calc m₃.moves = m₂.moves := hm₃.moves
      _ = m₁.moves := hm₂.moves
      _ = (m.log (.diskMove totid fromtid did)).moves := hm₁.moves
      _ = m.moves ++ [(totid, fromtid, did)] := log_diskMove_moves ..

end Hanoi
end MacOSXInternal
