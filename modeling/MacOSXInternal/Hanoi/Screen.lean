import Mathlib.Tactic.Linarith
import MacOSXInternal.Hanoi.Watch
import MacOSXInternal.Lib.Raster

/-!
# What is drawn on the screen

The rectangles in a trace are strokes on the picture that was on the screen before.  The three
drawing loops are taken turn by turn here: each runs as many turns as its limit says, and what it
draws are the strokes of its turns, one after the other.

* `Screen` is what is known of the size of a screen, and `Proportions` what the percentages that the
  display constants are made of come to.
* `Turns` marks every turn of a drawing loop, so that the turns can be counted.
* `hanoiDrawloopUp_run`, `hanoiDrawloopDown_run` and `hanoiDrawloopLr_run` are the loops, and
  `hanoiDiskMoveUp_run` and its like the words that set the variables and run them.
-/

set_option autoImplicit false

namespace MacOSXInternal
namespace Hanoi

open Forth Raster

/-! ## Strokes -/

/-- The rectangles of a trace, each with its colour. -/
def strokes (trace : List Event) : List (ℤ × Rect) :=
  trace.filterMap fun
    | .fillRectangle color x y w h => some (color, ⟨x, y, w, h⟩)
    | _ => none

/-- The rectangles drawn so far. -/
def Memory.strokes (m : Memory) : List (ℤ × Rect) := Hanoi.strokes m.trace

/-- What the screen shows, if it showed `P` when nothing had been drawn. -/
def Memory.picture (m : Memory) (P : Picture ℤ) : Picture ℤ := paint m.strokes P

theorem strokes_append (l l' : List Event) : strokes (l ++ l') = strokes l ++ strokes l' :=
  List.filterMap_append ..

theorem strokes_flatMap {α : Type} (l : List α) (f : α → List Event) :
    strokes (l.flatMap f) = l.flatMap fun x ↦ strokes (f x) :=
  List.filterMap_flatMap

@[simp] theorem draw_strokes (m : Memory) (events : List Event) :
    (m.draw events).strokes = m.strokes ++ strokes events :=
  strokes_append ..

@[simp] theorem log_diskMove_strokes (m : Memory) (totid fromtid did : ℤ) :
    (m.log (.diskMove totid fromtid did)).strokes = m.strokes := by
  simp [Memory.strokes, Hanoi.strokes, Memory.log]

theorem draw_picture (m : Memory) (events : List Event) (P : Picture ℤ) :
    (m.draw events).picture P = paint (strokes events) (m.picture P) := by
  rw [Memory.picture, draw_strokes, paint_append]
  rfl

/-- Where nothing has been drawn. -/
theorem picture_of_trace {m : Memory} (h : m.trace = []) (P : Picture ℤ) : m.picture P = P := by
  rw [Memory.picture, Memory.strokes, h]
  rfl

namespace Machine

variable (e : Machine)

/-! ## Proportions -/

/-- A screen that is at least a hundred pixels high, and at least as wide as it is high.  Its width
is a cell. -/
structure Screen : Prop where
  height : 100 ≤ e.screenHeight
  width : e.screenHeight ≤ e.screenWidth
  cell : e.screenWidth < cellRange

/-- What a hundredth of the height, `u`, and a hundredth of the width, `v`, make of the screen. -/
structure Proportions (u v : ℤ) : Prop where
  pos : 1 ≤ u
  le : u ≤ v
  height : 100 * u ≤ e.screenHeight
  width : 100 * v ≤ e.screenWidth
  hBh : e.hBh = 3 * u
  hBw : e.hBw = 12 * v
  hXmaxby4_ge : 25 * v ≤ e.hXmaxby4
  hXmaxby4_le : 4 * e.hXmaxby4 ≤ e.screenWidth
  hTh : e.hTh = 75 * u
  hTw_le : 2 * e.hTw ≤ 3 * u
  hTw_ge : 3 * u ≤ 2 * e.hTw + 1
  hTowerYmin : e.hTowerYmin = e.screenHeight - 78 * u
  hDiskHeight : e.hDiskHeight = 2 * u
  hDiskDelta : e.hDiskDelta = v
  hDiskYmin : e.hDiskYmin = e.screenHeight - 80 * u

variable {e}

theorem Screen.proportions (he : e.Screen) : ∃ u v, e.Proportions u v := by
  obtain ⟨hheight, hwidth, -⟩ := he
  obtain ⟨u, hu⟩ : ∃ u, u = e.screenHeight / 100 := ⟨_, rfl⟩
  obtain ⟨v, hv⟩ : ∃ v, v = e.screenWidth / 100 := ⟨_, rfl⟩
  have hu' : e.screenHeight.fdiv 100 = u := by rw [hu, Int.fdiv_eq_ediv_of_nonneg _ (by decide)]
  have hv' : e.screenWidth.fdiv 100 = v := by rw [hv, Int.fdiv_eq_ediv_of_nonneg _ (by decide)]
  have hBh : e.hBh = 3 * u := by rw [Machine.hBh, hu', mul_comm]
  have hTh : e.hTh = 75 * u := by rw [Machine.hTh, hu', mul_comm]
  have hTw : e.hTw = 3 * u / 2 := by
    rw [Machine.hTw, hBh, Int.fdiv_eq_ediv_of_nonneg _ (by decide)]
  have hXmaxby4 : e.hXmaxby4 = e.screenWidth / 4 := Int.fdiv_eq_ediv_of_nonneg _ (by decide)
  have hTowerYmin : e.hTowerYmin = e.screenHeight - 78 * u := by
    rw [Machine.hTowerYmin, hTh, hBh]
    omega
  have hDiskHeight : e.hDiskHeight = 2 * u := by rw [Machine.hDiskHeight, hu', mul_comm]
  refine ⟨u, v, ?_⟩
  constructor
  case hBw => rw [Machine.hBw, hv', mul_comm]
  case hDiskDelta => rw [Machine.hDiskDelta, hv', mul_one]
  case hDiskYmin =>
    rw [Machine.hDiskYmin, hTowerYmin, hDiskHeight]
    omega
  all_goals omega

section
variable {u v did tn tn' tid tid' : ℤ}

/-- A disk of an animation with at most eleven of them. -/
theorem Proportions.diskWidth_mem (hp : e.Proportions u v) (hdid : 1 ≤ did ∧ did ≤ 11) :
    v ≤ e.diskWidth did ∧ e.diskWidth did ≤ 11 * v := by
  have hv : 1 ≤ v := hp.pos.trans hp.le
  rw [Machine.diskWidth, hp.hBw, hp.hDiskDelta]
  constructor <;> nlinarith

/-- A disk above another one. -/
theorem Proportions.diskY_add_le (hp : e.Proportions u v) (h : tn < tn') :
    e.diskY tn' + e.hDiskHeight ≤ e.diskY tn := by
  have hu := hp.pos
  rw [Machine.diskY, Machine.diskY, hp.hDiskHeight]
  nlinarith

/-- A disk with at most eleven of them below it. -/
theorem Proportions.diskY_mem (hp : e.Proportions u v) (h0 : 0 ≤ tn) (h11 : tn ≤ 11) :
    e.screenHeight - 27 * u ≤ e.diskY tn ∧
      e.diskY tn + e.hDiskHeight ≤ e.screenHeight - e.hBh := by
  have hu := hp.pos
  rw [Machine.diskY, hp.hDiskHeight, hp.hBh]
  constructor <;> nlinarith

/-- Two towers. -/
theorem Proportions.axis_add_le (hp : e.Proportions u v) (h : tid < tid') :
    tid * e.hXmaxby4 + 25 * v ≤ tid' * e.hXmaxby4 := by
  have hv : 1 ≤ v := hp.pos.trans hp.le
  have hX := hp.hXmaxby4_ge
  nlinarith

/-- A tower is not near the edge of the screen. -/
theorem Proportions.axis_mem (hp : e.Proportions u v) (h : 1 ≤ tid ∧ tid ≤ 3) :
    25 * v ≤ tid * e.hXmaxby4 ∧ tid * e.hXmaxby4 + 25 * v ≤ e.screenWidth := by
  have hfirst := hp.axis_add_le (by omega : 0 < tid)
  have hlast := hp.axis_add_le (by omega : tid < 4)
  have hX := hp.hXmaxby4_le
  omega

/-- The rows between a place and the top of the way. -/
theorem Screen.rows (he : e.Screen) (h0 : 0 ≤ tn) (h11 : tn ≤ 11) :
    ∃ K : ℕ, e.diskY tn - e.hDiskYmin = K ∧ 0 < K ∧ K < cellRange := by
  obtain ⟨u, v, hp⟩ := he.proportions
  have hplace := hp.diskY_mem h0 h11
  have hmin := hp.hDiskYmin
  have hpos := hp.pos
  have hheight := hp.height
  have hBh := hp.hBh
  have hDiskHeight := hp.hDiskHeight
  have hwidth := he.width
  have hcell := he.cell
  exact ⟨(e.diskY tn - e.hDiskYmin).toNat, by omega, by omega, by omega⟩

/-- The columns between two towers. -/
theorem Screen.columns (he : e.Screen) (htid : 1 ≤ tid ∧ tid ≤ 3) (htid' : 1 ≤ tid' ∧ tid' ≤ 3)
    (hne : tid' ≠ tid) :
    ∃ K : ℕ, (tid' - tid) * e.hXmaxby4 = (if tid' < tid then -1 else 1) * K ∧ 1 < K ∧
      K < cellRange := by
  obtain ⟨u, v, hp⟩ := he.proportions
  have hpos := hp.pos.trans hp.le
  have haxis := hp.axis_mem htid
  have haxis' := hp.axis_mem htid'
  have hcell := he.cell
  refine ⟨((tid' - tid) * e.hXmaxby4).natAbs, ?_⟩
  rw [sub_mul]
  rcases lt_or_gt_of_ne hne with hlt | hlt
  · have hadd := hp.axis_add_le hlt
    rw [if_pos hlt]
    omega
  · have hadd := hp.axis_add_le hlt
    rw [if_neg hlt.not_gt]
    omega

end
end Machine

/-! ## The drawing loops, turn by turn -/

variable (e : Machine) (fuel : ℕ)

namespace Turns

/-- `( limit start -- )` -/
def hanoiDrawloopUp : Watched Unit Memory :=
  .doPlusLoop fuel (.call () (.plain [drawUp e, lit 1]))

/-- `( limit start -- )` -/
def hanoiDrawloopDown : Watched Unit Memory :=
  .doPlusLoop fuel (.call () (.plain [drawDown e, lit 1]))

/-- `( limit start -- )` -/
def hanoiDrawloopLr : Watched Unit Memory := .doPlusLoop fuel (.call () (.plain [drawLr e]))

/-! What is marked are the words. -/

theorem erase_hanoiDrawloopUp :
    Watched.erase (hanoiDrawloopUp e fuel) = Hanoi.hanoiDrawloopUp e fuel := by
  rw [hanoiDrawloopUp, Watched.erase_doPlusLoop, Watched.erase_call, Watched.erase_plain,
    Hanoi.hanoiDrawloopUp, doLoop]

theorem erase_hanoiDrawloopDown :
    Watched.erase (hanoiDrawloopDown e fuel) = Hanoi.hanoiDrawloopDown e fuel := by
  rw [hanoiDrawloopDown, Watched.erase_doPlusLoop, Watched.erase_call, Watched.erase_plain,
    Hanoi.hanoiDrawloopDown, doLoop]

theorem erase_hanoiDrawloopLr :
    Watched.erase (hanoiDrawloopLr e fuel) = Hanoi.hanoiDrawloopLr e fuel := by
  rw [hanoiDrawloopLr, Watched.erase_doPlusLoop, Watched.erase_call, Watched.erase_plain,
    Hanoi.hanoiDrawloopLr, words_cons_eq, seq_words_nil]

end Turns

section
variable {fuel} {d limit : ℤ} {k : ℕ} (st ix : List ℤ) (m : Memory) (hpos : 0 < k)
  (hle : k ≤ cellRange) (hfuel : k ≤ fuel)
include hpos hle hfuel

/-- **A drawing loop draws the strokes of its turns**, which are as many as its limit says. -/
theorem drawloop_run {body : List (Word Memory)} {turn : ℤ → List Event} (hd : d = 1 ∨ d = -1)
    (hbody : ∀ n l, words body ⟨st, n :: ix, m.draw l⟩ =
      .ok ⟨d :: st, n :: ix, m.draw (l ++ turn n)⟩)
    (hlimit : limit = if d = 1 then (k : ℤ) else -(k - 1)) :
    ∃ c, Watched.doPlusLoop fuel (.call () (.plain body)) ⟨0 :: limit :: st, ix, m⟩ =
        (c, .ok ⟨st, ix, m.draw ((List.range k).flatMap fun j : ℕ ↦ turn (d * j))⟩) ∧
      c.length = k := by
  have hturn (j : ℕ) (_ : j < k) (calls : List (Unit × State Memory)) (m' : Memory)
      (h : calls.length = j ∧ m' = m.draw ((List.range j).flatMap fun j : ℕ ↦ turn (d * j))) :
      ∃ c m'', Watched.call () (.plain body) ⟨st, (0 + d * j) :: ix, m'⟩ =
          (c, .ok ⟨d :: st, (0 + d * j) :: ix, m''⟩) ∧
        (calls ++ c).length = j + 1 ∧
        m'' = m.draw ((List.range (j + 1)).flatMap fun j : ℕ ↦ turn (d * j)) := by
    obtain ⟨hlen, rfl⟩ := h
    refine ⟨_, _, Prod.ext rfl (hbody _ _), ?_, ?_⟩
    · rw [List.length_append, hlen]
      rfl
    · rw [List.range_succ, List.flatMap_append, List.flatMap_singleton, zero_add]
  have hlimit' : limit = if d = 1 then 0 + (k : ℤ) else 0 - (k - 1) := by
    rw [hlimit, zero_add, zero_sub]
  have hstart : m = m.draw ((List.range 0).flatMap fun j : ℕ ↦ turn (d * j)) := by
    simp [Memory.draw]
  obtain ⟨c, m', hrun, hlen, hm'⟩ := Watched.doPlusLoop_run hd hturn hle hlimit' hpos hfuel
    ⟨rfl, hstart⟩
  exact ⟨c, hm' ▸ hrun, hlen⟩

theorem hanoiDrawloopUp_run :
    ∃ c, Turns.hanoiDrawloopUp e fuel ⟨0 :: k :: st, ix, m⟩ =
        (c, .ok ⟨st, ix, m.draw ((List.range k).flatMap fun j : ℕ ↦ e.upTurn m j)⟩) ∧
      c.length = k := by
  have hbody (n : ℤ) (l : List Event) : words [drawUp e, lit 1] ⟨st, n :: ix, m.draw l⟩ =
      .ok ⟨1 :: st, n :: ix, m.draw (l ++ e.upTurn m n)⟩ := by
    simp [drawUp_eq, Memory.draw, Machine.upTurn]
  simpa [Turns.hanoiDrawloopUp] using
    drawloop_run st ix m hpos hle hfuel (.inl rfl) hbody (if_pos rfl).symm

theorem hanoiDrawloopDown_run :
    ∃ c, Turns.hanoiDrawloopDown e fuel ⟨0 :: k :: st, ix, m⟩ =
        (c, .ok ⟨st, ix, m.draw ((List.range k).flatMap fun j : ℕ ↦ e.downTurn m j)⟩) ∧
      c.length = k := by
  have hbody (n : ℤ) (l : List Event) : words [drawDown e, lit 1] ⟨st, n :: ix, m.draw l⟩ =
      .ok ⟨1 :: st, n :: ix, m.draw (l ++ e.downTurn m n)⟩ := by
    simp [drawDown_eq, Memory.draw, Machine.downTurn]
  simpa [Turns.hanoiDrawloopDown] using
    drawloop_run st ix m hpos hle hfuel (.inl rfl) hbody (if_pos rfl).symm

theorem hanoiDrawloopLr_run (hd : m.hDelta = 1 ∨ m.hDelta = -1)
    (hlimit : limit = if m.hDelta = 1 then (k : ℤ) else -(k - 1)) :
    ∃ c, Turns.hanoiDrawloopLr e fuel ⟨0 :: limit :: st, ix, m⟩ =
        (c, .ok ⟨st, ix, m.draw ((List.range k).flatMap fun j : ℕ ↦ e.lrTurn m (m.hDelta * j))⟩) ∧
      c.length = k := by
  have hbody (n : ℤ) (l : List Event) : words [drawLr e] ⟨st, n :: ix, m.draw l⟩ =
      .ok ⟨m.hDelta :: st, n :: ix, m.draw (l ++ e.lrTurn m n)⟩ := by
    simp [drawLr_eq, Memory.draw, Machine.lrTurn]
  exact drawloop_run st ix m hpos hle hfuel hd hbody hlimit

end

/-! ## The words that run them -/

/-- The drawing loops. -/
inductive Loop
  | up
  | down
  | lr
  deriving DecidableEq, Repr

namespace Draw

/-- `( tid did -- )` -/
def hanoiDiskMoveUp : Watched Loop Memory :=
  .words
    [.plain
      [lit hColorDisk, minusRot, twoDup, hanoiDiskX e, minusRot, «over», hanoiTowerDisksDec e,
      lit 1, sub, hanoiDiskY e, minusRot, hanoiDiskWidth e, swap, drop, lit e.hDiskHeight,
      store fun x m ↦ { m with hDh := x },
      lit 2, mul, store fun x m ↦ { m with hDw := x },
      store fun x m ↦ { m with hDy := x },
      store fun x m ↦ { m with hDx := x },
      store fun x m ↦ { m with hDcolor := x },
      fetch (·.hDx), fetch (·.hDw), lit 2, div, add, lit e.hTw, sub,
      store fun x m ↦ { m with hTx := x },
      fetch (·.hDy), lit e.hDiskYmin, sub, lit 0],
    .call .up (.plain [hanoiDrawloopUp e fuel])]

/-- `( tid did -- )` -/
def hanoiDiskMoveDown : Watched Loop Memory :=
  .words
    [.plain
      [lit hColorDisk, minusRot, twoDup, hanoiDiskX e, minusRot, «over», hanoiTowerDisksInc e,
      hanoiDiskY e, minusRot, hanoiDiskWidth e, lit 2, mul, swap, drop, lit e.hDiskHeight,
      store fun x m ↦ { m with hDh := x },
      store fun x m ↦ { m with hDw := x },
      store fun x m ↦ { m with hDy := x },
      store fun x m ↦ { m with hDx := x },
      store fun x m ↦ { m with hDcolor := x },
      fetch (·.hDx), fetch (·.hDw), lit 2, div, add, lit e.hTw, sub,
      store fun x m ↦ { m with hTx := x },
      fetch (·.hDy), lit e.hDiskYmin, sub, lit 0],
    .call .down (.plain [hanoiDrawloopDown e fuel])]

/-- `( tto tfrom -- )` -/
def hanoiDiskMoveLr : Watched Loop Memory :=
  .words
    [.plain
      [twoDup, less, ifElse
        (words [lit 1, negate, store fun x m ↦ { m with hDelta := x },
          sub, lit e.hXmaxby4, mul, fetch (·.hDelta), sub, lit 0])
        (words [lit 1, store fun x m ↦ { m with hDelta := x },
          sub, lit e.hXmaxby4, mul, lit 0])],
    .call .lr (.plain [hanoiDrawloopLr e fuel])]

theorem erase_hanoiDiskMoveUp :
    Watched.erase (hanoiDiskMoveUp e fuel) = Hanoi.hanoiDiskMoveUp e fuel := by
  simp only [hanoiDiskMoveUp, Hanoi.hanoiDiskMoveUp, Watched.erase_words, List.map_cons,
    List.map_nil, Watched.erase_plain, Watched.erase_call, words_cons_eq, seq_assoc, words_nil_seq]

theorem erase_hanoiDiskMoveDown :
    Watched.erase (hanoiDiskMoveDown e fuel) = Hanoi.hanoiDiskMoveDown e fuel := by
  simp only [hanoiDiskMoveDown, Hanoi.hanoiDiskMoveDown, Watched.erase_words, List.map_cons,
    List.map_nil, Watched.erase_plain, Watched.erase_call, words_cons_eq, seq_assoc, words_nil_seq]

theorem erase_hanoiDiskMoveLr :
    Watched.erase (hanoiDiskMoveLr e fuel) = Hanoi.hanoiDiskMoveLr e fuel := by
  simp only [hanoiDiskMoveLr, Hanoi.hanoiDiskMoveLr, Watched.erase_words, List.map_cons,
    List.map_nil, Watched.erase_plain, Watched.erase_call, words_cons_eq, seq_assoc, words_nil_seq]

section
variable {fuel} {k : Fin 3} {K : ℕ} {tid : ℤ} (did : ℤ) (st ix : List ℤ) (m : Memory)
  (hpos : 0 < K) (hle : K ≤ cellRange) (hfuel : K ≤ fuel)
include hpos hle hfuel

/-- A disk is lifted by `K` rows. -/
theorem hanoiDiskMoveUp_run (hk : tid = (k : ℕ) + 1) {aimed : Memory}
    (haimed : aimed = e.aim (m.setCount k (m.count k - 1)) tid did (m.count k - 1))
    (hK : aimed.hDy - e.hDiskYmin = K) :
    hanoiDiskMoveUp e fuel ⟨did :: tid :: st, ix, m⟩ = ([(.up, ⟨0 :: K :: st, ix, aimed⟩)],
      .ok ⟨st, ix, aimed.draw ((List.range K).flatMap fun j : ℕ ↦ e.upTurn aimed j)⟩) := by
  subst haimed
  obtain ⟨c, hrun, -⟩ := hanoiDrawloopUp_run e st ix _ hpos hle hfuel
  rw [← hK] at hrun ⊢
  refine Watched.words_plain_call ?_ ?_
  · simp [hanoiTowerDisksDec_eq e hk, Machine.aim]
  · rw [words_cons_eq, seq_words_nil, ← Turns.erase_hanoiDrawloopUp, Watched.erase, hrun]

/-- A disk is lowered by `K` rows. -/
theorem hanoiDiskMoveDown_run (hk : tid = (k : ℕ) + 1) {aimed : Memory}
    (haimed : aimed = e.aim (m.setCount k (m.count k + 1)) tid did (m.count k))
    (hK : aimed.hDy - e.hDiskYmin = K) :
    hanoiDiskMoveDown e fuel ⟨did :: tid :: st, ix, m⟩ = ([(.down, ⟨0 :: K :: st, ix, aimed⟩)],
      .ok ⟨st, ix, aimed.draw ((List.range K).flatMap fun j : ℕ ↦ e.downTurn aimed j)⟩) := by
  subst haimed
  obtain ⟨c, hrun, -⟩ := hanoiDrawloopDown_run e st ix _ hpos hle hfuel
  rw [← hK] at hrun ⊢
  refine Watched.words_plain_call ?_ ?_
  · simp [hanoiTowerDisksInc_eq e hk, Machine.aim]
  · rw [words_cons_eq, seq_words_nil, ← Turns.erase_hanoiDrawloopDown, Watched.erase, hrun]

/-- A disk is carried across `K` columns. -/
theorem hanoiDiskMoveLr_run {tto tfrom d : ℤ} (hd : d = if tto < tfrom then -1 else 1)
    (hK : (tto - tfrom) * e.hXmaxby4 = d * K) {aimed : Memory}
    (haimed : aimed = { m with hDelta := d }) :
    hanoiDiskMoveLr e fuel ⟨tfrom :: tto :: st, ix, m⟩ =
      ([(.lr, ⟨0 :: (if d = 1 then (K : ℤ) else -(K - 1)) :: st, ix, aimed⟩)],
      .ok ⟨st, ix, aimed.draw ((List.range K).flatMap fun j : ℕ ↦ e.lrTurn aimed (d * j))⟩) := by
  subst haimed
  have hd' : d = 1 ∨ d = -1 := by
    split_ifs at hd
    · exact .inr hd
    · exact .inl hd
  obtain ⟨c, hrun, -⟩ := hanoiDrawloopLr_run e st ix { m with hDelta := d } hpos hle hfuel hd' rfl
  refine Watched.words_plain_call ?_ ?_
  · by_cases h : tto < tfrom
    · rw [if_pos h] at hd
      subst hd
      simp [h, hK]
      omega
    · rw [if_neg h] at hd
      subst hd
      simp [h, hK]
  · rw [words_cons_eq, seq_words_nil, ← Turns.erase_hanoiDrawloopLr, Watched.erase, hrun]

end

end Draw

end Hanoi
end MacOSXInternal
