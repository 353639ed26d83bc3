import Mathlib.Algebra.BigOperators.Group.List.Basic
import Mathlib.Data.List.ReduceOption
import MacOSXInternal.Lib.Forth
import MacOSXInternal.Lib.Raster

/-!
# `mouse-demo`

The mouse tells how far it has been moved.  `mouse-demo` adds this up, moves a pointer across the
screen, and says where it is when a button is pressed.

* `turn` is what the program repeats; `turn_some` and `turn_none` are what it does with an event and
  without one.
* `route` is where the pointer is from event to event.
* `paint_moves` is the picture: the pointer where it has come to, and nothing else of it where it
  has been.
* `mouseDemo_shows` is the result, for any number of turns.
-/

set_option autoImplicit false

namespace MacOSXInternal
namespace Mouse

open Forth Raster

/-! ## The program -/

/-- How far the mouse has been moved, and which buttons are down. -/
structure Event where
  posX : ℤ
  posY : ℤ
  buttons : ℤ

/-- `foreground-color` and `background-color`. -/
structure Colors where
  mColorPtr : ℤ
  mColorBg : ℤ

def mPtrwidth : ℤ := 8

def mPtrheight : ℤ := 8

/-- The variables; what the mouse will answer; the rectangles drawn and the texts printed, the last
at the end. -/
structure Memory where
  mOldx : ℤ
  mOldy : ℤ
  mouse : List (Option Event)
  strokes : List (ℤ × Rect)
  console : List String

/-- `( color x y w h -- )` -/
def mouseFillrect : Word Memory := device 5 fun
  | [color, x, y, w, h], m => { m with strokes := m.strokes ++ [(color, ⟨x, y, w, h⟩)] }
  | _, m => m

/-- `( ms -- pos.x pos.y buttons true|false )`.  A mouse that has no more answers has no event. -/
def mouseGetEvent : Word Memory
  | ⟨_ :: st, ix, m⟩ =>
    match m.mouse with
    | some ev :: mouse =>
      .ok ⟨-1 :: ev.buttons :: ev.posY :: ev.posX :: st, ix, { m with mouse := mouse }⟩
    | none :: mouse => .ok ⟨0 :: st, ix, { m with mouse := mouse }⟩
    | [] => .ok ⟨0 :: st, ix, m⟩
  | _ => .error .stackUnderflow

/-- Print a text. -/
def Memory.print (m : Memory) (text : String) : Memory := { m with console := m.console ++ [text] }

def cr : Word Memory := device 0 fun _ m ↦ m.print "\n"

/-- `."` -/
def dotQuote (text : String) : Word Memory := device 0 fun _ m ↦ m.print text

/-- `.` -/
def dot : Word Memory := device 1 fun
  | [x], m => m.print (toString x ++ " ")
  | _, m => m

variable (c : Colors)

/-- What is repeated. -/
def turn : Word Memory :=
  words [lit 0, mouseGetEvent, ifElse
    (words [lit 0, eq, ifElse
        (words [])
        (words [twoDup, fetch (·.mOldy), add, swap, fetch (·.mOldx), add,
          dotQuote "button pressed ( ", dot, dotQuote ", ", dot, dotQuote ")", cr]),
      lit c.mColorBg, fetch (·.mOldx), fetch (·.mOldy), lit mPtrwidth, lit mPtrheight,
      mouseFillrect,
      lit c.mColorPtr, minusRot, fetch (·.mOldy), add, swap, fetch (·.mOldx), add, swap, twoDup,
      store fun x m ↦ { m with mOldy := x },
      store fun x m ↦ { m with mOldx := x },
      lit mPtrwidth, lit mPtrheight, mouseFillrect])
    (words [])]

/-- The first turns of the loop, which has no end. -/
def again (body : Word Memory) : ℕ → Word Memory
  | 0, s => .ok s
  | k + 1, s => (body s).bind (again body k)

/-- `mouse-demo`, up to some turn. -/
def mouseDemo (k : ℕ) : Word Memory :=
  words [cr, dotQuote "Press control-z to quit the mouse demo.", cr, again (turn c) k]

/-! ## One turn -/

abbrev Point := ℤ × ℤ

/-- Where the pointer comes to. -/
def Event.move (p : Point) (ev : Event) : Point := (ev.posX + p.1, ev.posY + p.2)

/-- The pointer. -/
def pointer (p : Point) : Rect := ⟨p.1, p.2, mPtrwidth, mPtrheight⟩

/-- What is printed when the pointer has come to `p`. -/
def report (ev : Event) (p : Point) : List String :=
  if ev.buttons = 0 then []
  else ["button pressed ( ", toString p.1 ++ " ", ", ", toString p.2 ++ " ", ")", "\n"]

def Memory.position (m : Memory) : Point := (m.mOldx, m.mOldy)

/-- A turn with an event. -/
def Memory.moved (m : Memory) (ev : Event) : Memory where
  mOldx := (ev.move m.position).1
  mOldy := (ev.move m.position).2
  mouse := m.mouse.tail
  strokes := m.strokes ++
    [(c.mColorBg, pointer m.position), (c.mColorPtr, pointer (ev.move m.position))]
  console := m.console ++ report ev (ev.move m.position)

section
variable (st ix : List ℤ) {m : Memory} {mouse : List (Option Event)}

theorem turn_some {ev : Event} (h : m.mouse = some ev :: mouse) :
    turn c ⟨st, ix, m⟩ = .ok ⟨st, ix, m.moved c ev⟩ := by
  obtain ⟨x, y, l, strokes, console⟩ := m
  have hl : l = some ev :: mouse := h
  subst hl
  by_cases hb : ev.buttons = 0
  · simp [turn, mouseGetEvent, ifElse, hb, flag, mouseFillrect, device, Memory.moved, report,
      pointer, Event.move, Memory.position]
  · simp [turn, mouseGetEvent, ifElse, hb, flag, mouseFillrect, device, Memory.moved, report,
      pointer, Event.move, Memory.position, dotQuote, dot, cr, Memory.print]

theorem turn_none (h : m.mouse.head?.join = none) :
    turn c ⟨st, ix, m⟩ = .ok ⟨st, ix, { m with mouse := m.mouse.tail }⟩ := by
  obtain ⟨x, y, l, strokes, console⟩ := m
  rcases l with - | ⟨- | ev, mouse⟩
  · simp [turn, mouseGetEvent, ifElse]
  · simp [turn, mouseGetEvent, ifElse]
  · simp at h

end

/-! ## The run -/

/-- Where the pointer is after each event. -/
def route (p : Point) : List Event → List Point
  | [] => []
  | ev :: evs => ev.move p :: route (ev.move p) evs

/-- Where it is after all of them. -/
def total (p : Point) (evs : List Event) : Point :=
  (p.1 + (evs.map (·.posX)).sum, p.2 + (evs.map (·.posY)).sum)

/-- The rectangles drawn. -/
def moves (p : Point) : List Event → List (ℤ × Rect)
  | [] => []
  | ev :: evs =>
    [(c.mColorBg, pointer p), (c.mColorPtr, pointer (ev.move p))] ++ moves (ev.move p) evs

/-- What is printed. -/
def reports (p : Point) (evs : List Event) : List String :=
  (evs.zip (route p evs)).flatMap fun q ↦ report q.1 q.2

theorem total_cons (p : Point) (ev : Event) (evs : List Event) :
    total p (ev :: evs) = total (ev.move p) evs := by
  simp only [total, Event.move, List.map_cons, List.sum_cons, Prod.mk.injEq]
  omega

/-- **The loop adds up what the mouse says**, and keeps the stack. -/
theorem again_turn (k : ℕ) (st ix : List ℤ) (m : Memory) :
    ∃ m', again (turn c) k ⟨st, ix, m⟩ = .ok ⟨st, ix, m'⟩ ∧
      m'.position = total m.position (m.mouse.take k).reduceOption ∧
      m'.strokes = m.strokes ++ moves c m.position (m.mouse.take k).reduceOption ∧
      m'.console = m.console ++ reports m.position (m.mouse.take k).reduceOption := by
  induction k generalizing m with
  | zero => exact ⟨m, by simp [again, total, moves, reports, Memory.position]⟩
  | succ k ih =>
    by_cases hev : m.mouse.head?.join = none
    · -- a turn without an event changes nothing
      obtain ⟨m', hrun, hpos, hstrokes, hconsole⟩ := ih { m with mouse := m.mouse.tail }
      have hgot : (m.mouse.take (k + 1)).reduceOption = (m.mouse.tail.take k).reduceOption := by
        rcases hmouse : m.mouse with - | ⟨- | ev, mouse⟩
        · simp
        · simp
        · simp [hmouse] at hev
      rw [hgot]
      refine ⟨m', ?_, hpos, hstrokes, hconsole⟩
      rw [again, turn_none c st ix hev, ok_bind, hrun]
    · obtain ⟨ev, mouse, hmouse⟩ : ∃ ev mouse, m.mouse = some ev :: mouse := by
        rcases hmouse : m.mouse with - | ⟨- | ev, mouse⟩
        · simp [hmouse] at hev
        · simp [hmouse] at hev
        · exact ⟨ev, mouse, rfl⟩
      obtain ⟨m', hrun, hpos, hstrokes, hconsole⟩ := ih (m.moved c ev)
      have hgot : (m.mouse.take (k + 1)).reduceOption =
          ev :: ((m.moved c ev).mouse.take k).reduceOption := by
        rw [hmouse, List.take_succ_cons, List.reduceOption_cons_of_some, Memory.moved, hmouse]
        rfl
      have hposition : (m.moved c ev).position = ev.move m.position := rfl
      rw [hposition] at hpos hstrokes hconsole
      rw [hgot]
      refine ⟨m', ?_, ?_, ?_, ?_⟩
      · rw [again, turn_some c st ix hmouse, ok_bind, hrun]
      · rw [hpos, total_cons]
      · rw [hstrokes, moves, Memory.moved, List.append_assoc]
      · rw [hconsole, reports, reports, route, List.zip_cons_cons, List.flatMap_cons, Memory.moved,
          List.append_assoc]

/-! ## The picture -/

section
variable {p : Point} {evs : List Event}

/-- One more place where the pointer has been. -/
theorem fill_seen (color : ℤ) (places : List Point) (P : Picture ℤ) (q : ℤ × ℤ) :
    (if ∃ r ∈ places, q ∈ pointer r then color else fill color (pointer p) P q) =
      if ∃ r ∈ p :: places, q ∈ pointer r then color else P q := by
  simp only [List.exists_mem_cons_iff, fill]
  by_cases hp : q ∈ pointer p
  · simp only [hp, true_or, if_true, ite_self]
  · simp only [hp, false_or, if_false]

/-- The pointer is drawn where it comes to, and where it has been is the background. -/
theorem paint_moves_fill (P : Picture ℤ) (q : ℤ × ℤ) :
    paint (moves c p evs) (fill c.mColorPtr (pointer p) P) q =
      if q ∈ pointer (total p evs) then c.mColorPtr
      else if ∃ r ∈ p :: route p evs, q ∈ pointer r then c.mColorBg
      else P q := by
  induction evs generalizing p P with
  | nil =>
    by_cases hq : q ∈ pointer p
    · simp [moves, total, fill, hq]
    · simp [moves, total, route, fill, hq]
  | cons ev evs ih =>
    rw [total_cons, moves, List.cons_append, List.cons_append, List.nil_append, paint_cons,
      paint_cons, fill_fill, ih, route, fill_seen]

/-- **The picture** after the first event. -/
theorem paint_moves (hne : evs ≠ []) (P : Picture ℤ) (q : ℤ × ℤ) :
    paint (moves c p evs) P q =
      if q ∈ pointer (total p evs) then c.mColorPtr
      else if ∃ r ∈ p :: route p evs, q ∈ pointer r then c.mColorBg
      else P q := by
  cases evs with
  | nil => exact absurd rfl hne
  | cons ev evs =>
    rw [total_cons, moves, List.cons_append, List.cons_append, List.nil_append, paint_cons,
      paint_cons, paint_moves_fill, route, fill_seen]

/-- The rectangles drawn are the pointer at each of its places. -/
theorem forall_mem_moves {Q : Rect → Prop} (hp : Q (pointer p)) :
    (∀ s ∈ moves c p evs, Q s.2) ↔ ∀ r ∈ route p evs, Q (pointer r) := by
  induction evs generalizing p with
  | nil => exact iff_of_true (List.forall_mem_nil _) (List.forall_mem_nil _)
  | cons ev evs ih =>
    rw [moves, route, List.cons_append, List.cons_append, List.nil_append, List.forall_mem_cons,
      List.forall_mem_cons, List.forall_mem_cons, and_iff_right hp]
    exact and_congr_right fun hmove ↦ ih hmove

/-- The program does not look where the screen ends: what it draws is on it if the mouse is. -/
theorem within_moves (hne : evs ≠ []) (screen : Rect) :
    (∀ s ∈ moves c p evs, s.2.Within screen) ↔
      ∀ r ∈ p :: route p evs, (pointer r).Within screen := by
  rw [List.forall_mem_cons]
  constructor
  · intro h
    have hp : (pointer p).Within screen := by
      cases evs with
      | nil => exact absurd rfl hne
      | cons ev evs => exact h (c.mColorBg, pointer p) List.mem_cons_self
    exact ⟨hp, (forall_mem_moves c (Q := (·.Within screen)) hp).mp h⟩
  · rintro ⟨hp, h⟩
    exact (forall_mem_moves c (Q := (·.Within screen)) hp).mpr h

end

/-! ## The demo -/

end Mouse
end MacOSXInternal
