import MacOSXInternal.Hanoi.Setup
import MacOSXInternal.Lib.Watched

/-!
# The words of the animation, watched

The words that lead to a move of a disk or to a counter, with the calls that matter marked: each
call of `hanoi-disk-move`, of `hanoi-tower-disks-dec`, and of `hanoi-disk-y`.

* `erase_hanoi` says that the word that is watched is `hanoi`, and the other lemmas of this name say
  it of the words `hanoi` is made of.
-/

set_option autoImplicit false

namespace MacOSXInternal
namespace Hanoi

open Forth

/-- The calls that matter. -/
inductive Call
  /-- `hanoi-disk-move` -/
  | diskMove
  /-- `hanoi-tower-disks-dec` -/
  | decrement
  /-- `hanoi-disk-y`, of a disk that is lifted from its tower. -/
  | lift
  /-- `hanoi-disk-y`, of a disk that is put on a tower. -/
  | putDown
  deriving DecidableEq, Repr

namespace Watch

variable (e : Machine) (fuel : ℕ) (hMaxdisks : ℤ)

/-- `( tid did -- )` -/
def hanoiTowerDiskAdd : Watched Call Memory :=
  .words
    [.plain [lit hColorDisk, minusRot, twoDup, hanoiDiskX e, minusRot, «over»,
      hanoiTowerDisksInc e],
    .call .putDown (.plain [hanoiDiskY e]),
    .plain [minusRot, hanoiDiskWidth e, lit 2, mul, swap, drop, lit e.hDiskHeight, hanoiFillrect]]

/-- `hanoi-init` up to its loop. -/
def hanoiInitTowers : List (Word Memory) :=
  [lit 0, store fun x m ↦ { m with hDx := x },
  lit 0, store fun x m ↦ { m with hDy := x },
  lit 0, lit e.hTowerDisks, towerCStore e,
  lit 0, lit e.hTowerDisks, lit 1, add, towerCStore e,
  lit 0, lit e.hTowerDisks, lit 2, add, towerCStore e,
  lit 1, hanoiDrawTowerBase e, lit 2, hanoiDrawTowerBase e, lit 3, hanoiDrawTowerBase e,
  lit 1, hanoiDrawTowerPole e, lit 2, hanoiDrawTowerPole e, lit 3, hanoiDrawTowerPole e,
  lit 1, add, lit 1]

/-- `( n -- )` -/
def hanoiInit : Watched Call Memory :=
  .words
    [.plain (hanoiInitTowers e),
    .doLoop fuel (.words [.plain [lit 1, i], hanoiTowerDiskAdd e])]

/-- `( tid did -- )` -/
def hanoiDiskMoveUp : Watched Call Memory :=
  .words
    [.plain [lit hColorDisk, minusRot, twoDup, hanoiDiskX e, minusRot, «over»],
    .call .decrement (.plain [hanoiTowerDisksDec e]),
    .plain [lit 1, sub],
    .call .lift (.plain [hanoiDiskY e]),
    .plain
      [minusRot, hanoiDiskWidth e, swap, drop, lit e.hDiskHeight,
      store fun x m ↦ { m with hDh := x },
      lit 2, mul, store fun x m ↦ { m with hDw := x },
      store fun x m ↦ { m with hDy := x },
      store fun x m ↦ { m with hDx := x },
      store fun x m ↦ { m with hDcolor := x },
      fetch (·.hDx), fetch (·.hDw), lit 2, div, add, lit e.hTw, sub,
      store fun x m ↦ { m with hTx := x },
      fetch (·.hDy), lit e.hDiskYmin, sub, lit 0, hanoiDrawloopUp e fuel]]

/-- `( tid did -- )` -/
def hanoiDiskMoveDown : Watched Call Memory :=
  .words
    [.plain [lit hColorDisk, minusRot, twoDup, hanoiDiskX e, minusRot, «over»,
      hanoiTowerDisksInc e],
    .call .putDown (.plain [hanoiDiskY e]),
    .plain
      [minusRot, hanoiDiskWidth e, lit 2, mul, swap, drop, lit e.hDiskHeight,
      store fun x m ↦ { m with hDh := x },
      store fun x m ↦ { m with hDw := x },
      store fun x m ↦ { m with hDy := x },
      store fun x m ↦ { m with hDx := x },
      store fun x m ↦ { m with hDcolor := x },
      fetch (·.hDx), fetch (·.hDw), lit 2, div, add, lit e.hTw, sub,
      store fun x m ↦ { m with hTx := x },
      fetch (·.hDy), lit e.hDiskYmin, sub, lit 0, hanoiDrawloopDown e fuel]]

/-- `( totid fromtid did -- )` -/
def hanoiDiskMove : Watched Call Memory :=
  .words
    [.plain [noteDiskMove, fetch (·.hN), lit 1, add, swap, sub, lit 1, pick, lit 1, pick],
    hanoiDiskMoveUp e fuel,
    .plain [lit 2, pick, lit 2, pick, hanoiDiskMoveLr e fuel, lit 2, pick, lit 1, pick],
    hanoiDiskMoveDown e fuel,
    .plain [threeDrop]]

/-- What `hanoi-solve` repeats, with `hanoi-disk-move` as it is watched. -/
def solveBodyWith {ν : Type} (move : Watched ν Memory) : Watched ν Memory :=
  .words
    [.plain [lit 6, lit 3, pick, lit 3, pick, add, sub, lit 1, pick, lit 0, eq],
    .ifElse
      (.words
        [.plain [lit 4, pick, lit 1, eq],
        .ifElse
          (.words
            [.plain [lit 2, pick, lit 4, pick, lit 6, pick], move, .plain [twoDrop, twoDrop, drop]])
          (.plain [lit 1, minusRot, swap, drop, lit 4, pick, lit 1, sub, swap, lit 4, pick, swap,
            lit 0])])
      (.words
        [.plain [swap, drop, lit 1, pick, lit 3, pick, lit 5, pick], move,
        .plain [swap, rot, drop, rot, lit 1, sub, minusRot, lit 0]])]

/-- What `hanoi-solve` repeats, each call of `hanoi-disk-move` marked. -/
def solveBody : Watched Call Memory :=
  solveBodyWith (.call .diskMove (hanoiDiskMove e fuel))

/-- `hanoi-solve` -/
def hanoiSolve : Watched Call Memory := .beginWhile solveCond (solveBody e fuel) fuel

/-- `( n -- )` -/
def hanoi : Watched Call Memory :=
  .words
    [.plain [hanoiValidate hMaxdisks],
    .ifElse
      (.words
        [.plain [eraseScreen, cr, dotQuote "Press control-z to quit the animation.", cr,
          dup, store fun x m ↦ { m with hN := x }, dup],
        hanoiInit e fuel,
        .plain [lit 1, lit 3, lit 0],
        hanoiSolve e fuel])
      (.plain [])]

/-- The towers are drawn, and the loop is about to begin. -/
theorem hanoiInitTowers_eq (n : ℤ) (st ix : List ℤ) (m : Memory) :
    words (hanoiInitTowers e) ⟨n :: st, ix, m⟩ = .ok ⟨1 :: (n + 1) :: st, ix, e.setUp m⟩ := by
  have hstore₀ := towerCStore_eq e (a := e.hTowerDisks) (k := 0) (add_zero _).symm
  have hstore₁ := towerCStore_eq e (a := e.hTowerDisks + 1) (k := 1) rfl
  have hstore₂ := towerCStore_eq e (a := e.hTowerDisks + 2) (k := 2) rfl
  have hpole₁ := hanoiDrawTowerPole_eq e (t := 1) (k := 0) rfl
  have hpole₂ := hanoiDrawTowerPole_eq e (t := 2) (k := 1) rfl
  have hpole₃ := hanoiDrawTowerPole_eq e (t := 3) (k := 2) rfl
  have hcleared : (fun _ : Fin 3 ↦ 0) = Function.update (Function.update (Function.update
      (Function.update (Function.update (Function.update m.hTowerDisks 0 (BitVec.ofInt 8 0)) 1
        (BitVec.ofInt 8 0)) 2 (BitVec.ofInt 8 0)) 0 (BitVec.ofInt 8 0)) 1 (BitVec.ofInt 8 0)) 2
      (BitVec.ofInt 8 0) := by
    funext k
    match k with
    | 0 => rfl
    | 1 => rfl
    | 2 => rfl
  simp only [hanoiInitTowers, words_cons, words_nil, ok_bind, lit_apply, store_apply, add_apply,
    hstore₀, hstore₁, hstore₂, hanoiDrawTowerBase_apply, hpole₁, hpole₂, hpole₃, Machine.setUp,
    Memory.setCount, Memory.log, hcleared, List.append_assoc]
  rfl

/-! ## The words that are watched -/

open Forth.Watched (erase)

theorem erase_hanoiTowerDiskAdd : erase (hanoiTowerDiskAdd e) = Hanoi.hanoiTowerDiskAdd e := by
  simp only [hanoiTowerDiskAdd, Hanoi.hanoiTowerDiskAdd, Watched.erase_words, List.map_cons,
    List.map_nil, Watched.erase_plain, Watched.erase_call, words_cons_eq, seq_assoc, words_nil_seq]

theorem erase_hanoiInit : erase (hanoiInit e fuel) = Hanoi.hanoiInit e fuel := by
  simp only [hanoiInit, hanoiInitTowers, Hanoi.hanoiInit, erase_hanoiTowerDiskAdd,
    Watched.erase_words, List.map_cons, List.map_nil, Watched.erase_plain, Watched.erase_doLoop,
    words_cons_eq, seq_assoc, words_nil_seq]

theorem hanoiInit_eq (n : ℤ) (st ix : List ℤ) (m : Memory) :
    Hanoi.hanoiInit e fuel ⟨n :: st, ix, m⟩ =
      Forth.doLoop fuel (words [words [lit 1, i], Hanoi.hanoiTowerDiskAdd e])
        ⟨1 :: (n + 1) :: st, ix, e.setUp m⟩ := by
  simp only [← erase_hanoiInit, hanoiInit, Watched.erase_words, List.map_cons, List.map_nil,
    Watched.erase_plain, Watched.erase_doLoop, erase_hanoiTowerDiskAdd, words_cons,
    hanoiInitTowers_eq, ok_bind, bind_words_nil]

theorem erase_hanoiDiskMoveUp : erase (hanoiDiskMoveUp e fuel) = Hanoi.hanoiDiskMoveUp e fuel := by
  simp only [hanoiDiskMoveUp, Hanoi.hanoiDiskMoveUp, Watched.erase_words, List.map_cons,
    List.map_nil, Watched.erase_plain, Watched.erase_call, words_cons_eq, seq_assoc, words_nil_seq]

theorem erase_hanoiDiskMoveDown :
    erase (hanoiDiskMoveDown e fuel) = Hanoi.hanoiDiskMoveDown e fuel := by
  simp only [hanoiDiskMoveDown, Hanoi.hanoiDiskMoveDown, Watched.erase_words, List.map_cons,
    List.map_nil, Watched.erase_plain, Watched.erase_call, words_cons_eq, seq_assoc, words_nil_seq]

theorem erase_hanoiDiskMove : erase (hanoiDiskMove e fuel) = Hanoi.hanoiDiskMove e fuel := by
  simp only [hanoiDiskMove, Hanoi.hanoiDiskMove, erase_hanoiDiskMoveUp, erase_hanoiDiskMoveDown,
    Watched.erase_words, List.map_cons, List.map_nil, Watched.erase_plain, words_cons_eq,
    seq_assoc, words_nil_seq]

theorem erase_solveBodyWith {ν : Type} {move : Watched ν Memory}
    (h : erase move = Hanoi.hanoiDiskMove e fuel) :
    erase (solveBodyWith move) = Hanoi.solveBody e fuel := by
  simp only [solveBodyWith, Hanoi.solveBody, h, Watched.erase_words, List.map_cons, List.map_nil,
    Watched.erase_plain, Watched.erase_ifElse, words_cons_eq, seq_assoc, words_nil_seq]

theorem erase_solveBody : erase (solveBody e fuel) = Hanoi.solveBody e fuel :=
  erase_solveBodyWith e fuel (erase_hanoiDiskMove e fuel)

theorem erase_hanoiSolve : erase (hanoiSolve e fuel) = Hanoi.hanoiSolve e fuel := by
  rw [hanoiSolve, Watched.erase_beginWhile, erase_solveBody, Hanoi.hanoiSolve]

/-- **What is watched is `hanoi`.** -/
theorem erase_hanoi : erase (hanoi e fuel hMaxdisks) = Hanoi.hanoi e fuel hMaxdisks := by
  simp only [hanoi, Hanoi.hanoi, erase_hanoiInit, erase_hanoiSolve, Watched.erase_words,
    List.map_cons, List.map_nil, Watched.erase_plain, Watched.erase_ifElse, words_cons_eq,
    seq_assoc, words_nil_seq]

end Watch
end Hanoi
end MacOSXInternal
