import Mathlib.Algebra.Order.Ring.Int
import Mathlib.Data.Set.Function

/-!
# Filling and stamping rectangles

A picture has a colour at every pixel.  All that is done to it here is to fill rectangles, or to
stamp other pictures into them, one after another; the columns are counted from the left, the rows
from the top.

* `fill` and `paint` are one rectangle and a list of them, each with its colour; `fillAll` is a list
  of them in one colour.
* `fill_congr` and `paint_congr` say that it is enough to know the pixels one looks at.
* `paint_flatMap_range` is the rule for an animation: if every frame's strokes lead from its picture
  to the next, all of them lead from the first picture to the last.
* `stamp` and `stampAll` are the same for pictures in place of colours.
-/

set_option autoImplicit false

namespace Raster

universe u

variable {κ : Type u}

/-- A rectangle, by its upper left corner. -/
structure Rect where
  x : ℤ
  y : ℤ
  w : ℤ
  h : ℤ
  deriving DecidableEq, Repr

instance : Membership (ℤ × ℤ) Rect where
  mem r p := r.x ≤ p.1 ∧ p.1 < r.x + r.w ∧ r.y ≤ p.2 ∧ p.2 < r.y + r.h

theorem mem_iff {r : Rect} {p : ℤ × ℤ} :
    p ∈ r ↔ r.x ≤ p.1 ∧ p.1 < r.x + r.w ∧ r.y ≤ p.2 ∧ p.2 < r.y + r.h := Iff.rfl

instance (r : Rect) (p : ℤ × ℤ) : Decidable (p ∈ r) := inferInstanceAs (Decidable (_ ∧ _))

/-- A rectangle of some width and height that lies in another. -/
structure Rect.Within (r s : Rect) : Prop where
  w_pos : 0 < r.w
  h_pos : 0 < r.h
  left : s.x ≤ r.x
  right : r.x + r.w ≤ s.x + s.w
  top : s.y ≤ r.y
  bottom : r.y + r.h ≤ s.y + s.h

/-- A colour at every pixel. -/
abbrev Picture (κ : Type u) := ℤ × ℤ → κ

def fill (c : κ) (r : Rect) (P : Picture κ) : Picture κ := fun p ↦ if p ∈ r then c else P p

/-- One rectangle after another. -/
def paint (strokes : List (κ × Rect)) (P : Picture κ) : Picture κ :=
  strokes.foldl (fun P s ↦ fill s.1 s.2 P) P

variable {c : κ} {r : Rect} {P Q : Picture κ} {p : ℤ × ℤ} {S : Set (ℤ × ℤ)}
  {strokes : List (κ × Rect)}

theorem fill_of_notMem (h : p ∉ r) : fill c r P p = P p := if_neg h

theorem fill_fill (c c' : κ) (r : Rect) (P : Picture κ) : fill c r (fill c' r P) = fill c r P := by
  funext p
  by_cases hp : p ∈ r
  · simp only [fill, if_pos hp]
  · rw [fill_of_notMem hp, fill_of_notMem hp, fill_of_notMem hp]

@[simp] theorem paint_nil (P : Picture κ) : paint [] P = P := rfl

@[simp] theorem paint_cons (s : κ × Rect) (strokes : List (κ × Rect)) (P : Picture κ) :
    paint (s :: strokes) P = paint strokes (fill s.1 s.2 P) := rfl

theorem paint_append (l m : List (κ × Rect)) (P : Picture κ) :
    paint (l ++ m) P = paint m (paint l P) :=
  List.foldl_append

theorem fill_congr (h : S.EqOn P Q) : S.EqOn (fill c r P) (fill c r Q) := by
  intro p hp
  rw [fill, fill, h hp]

theorem paint_congr (h : S.EqOn P Q) : S.EqOn (paint strokes P) (paint strokes Q) := by
  induction strokes generalizing P Q with
  | nil => exact h
  | cons s strokes ih => exact ih (fill_congr h)

/-- Several rectangles of one colour. -/
def fillAll (c : κ) (rects : List Rect) (P : Picture κ) : Picture κ :=
  paint (rects.map fun r ↦ (c, r)) P

theorem fillAll_apply (c : κ) (rects : List Rect) (P : Picture κ) (p : ℤ × ℤ) :
    fillAll c rects P p = if ∃ r ∈ rects, p ∈ r then c else P p := by
  rw [fillAll]
  induction rects generalizing P with
  | nil => simp
  | cons r rects ih =>
    simp only [List.map_cons, paint_cons, ih, fill, List.mem_cons, exists_eq_or_imp]
    by_cases hr : p ∈ r
    · simp only [hr, if_true, true_or, ite_self]
    · simp only [hr, if_false, false_or]

/-- **An animation**, frame by frame. -/
theorem paint_flatMap_range {F : ℕ → Picture κ} {f : ℕ → List (κ × Rect)} {k : ℕ}
    (hstep : ∀ j < k, S.EqOn (paint (f j) (F j)) (F (j + 1))) (h : S.EqOn P (F 0)) :
    S.EqOn (paint ((List.range k).flatMap f) P) (F k) := by
  induction k with
  | zero => exact h
  | succ k ih =>
    have ih := ih fun j hj ↦ hstep j (Nat.lt_succ_of_lt hj)
    rw [List.range_succ, List.flatMap_append, paint_append]
    intro p hp
    rw [List.flatMap_singleton, paint_congr ih hp, hstep k (Nat.lt_succ_self k) hp]

/-! ## Stamps -/

/-- A picture in a rectangle, from its upper left corner. -/
def stamp (g : Picture κ) (r : Rect) (P : Picture κ) : Picture κ :=
  fun p ↦ if p ∈ r then g (p.1 - r.x, p.2 - r.y) else P p

/-- One rectangle after another. -/
def stampAll (stamps : List (Picture κ × Rect)) (P : Picture κ) : Picture κ :=
  stamps.foldl (fun P s ↦ stamp s.1 s.2 P) P

@[simp] theorem stampAll_nil (P : Picture κ) : stampAll [] P = P := rfl

@[simp] theorem stampAll_cons (s : Picture κ × Rect) (stamps : List (Picture κ × Rect))
    (P : Picture κ) : stampAll (s :: stamps) P = stampAll stamps (stamp s.1 s.2 P) := rfl

/-- A pixel where all stamps that hit it have one colour. -/
theorem stampAll_apply {stamps : List (Picture κ × Rect)}
    (h : ∀ s ∈ stamps, p ∈ s.2 → s.1 (p.1 - s.2.x, p.2 - s.2.y) = c) (P : Picture κ) :
    stampAll stamps P p = if ∃ s ∈ stamps, p ∈ s.2 then c else P p := by
  induction stamps generalizing P with
  | nil => simp
  | cons s stamps ih =>
    obtain ⟨hs, hrest⟩ := List.forall_mem_cons.mp h
    simp only [stampAll_cons, ih hrest, stamp, List.mem_cons, exists_eq_or_imp]
    by_cases hp : p ∈ s.2
    · simp only [hp, hs hp, if_true, true_or, ite_self]
    · simp only [hp, if_false, false_or]

/-- A pixel that no stamp hits. -/
theorem stampAll_of_notMem {stamps : List (Picture κ × Rect)} (h : ∀ s ∈ stamps, p ∉ s.2)
    (P : Picture κ) : stampAll stamps P p = P p := by
  rw [stampAll_apply (c := P p) fun s hs hp ↦ absurd hp (h s hs), ite_self]

end Raster
