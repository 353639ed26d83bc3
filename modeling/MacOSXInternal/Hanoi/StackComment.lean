import MacOSXInternal.Hanoi.Watch

/-!
# The stack comment of `hanoi`

The word `hanoi` is commented `( n -- )`: it takes a number off the stack and leaves what lies
below.  But `hanoi-solve` takes everything on the stack for its own frames, and is done when the
stack is empty.

* `Spoken.hanoi` is the word with its usage message marked.
* `stack_eq_nil` is what goes wrong: once a number has been accepted, the word ends on an empty
  stack or not at all.
* `respectsStackComment_iff` is the result.
-/

set_option autoImplicit false

namespace MacOSXInternal
namespace Hanoi

open Forth

/-! ## The usage message -/

inductive Message
  | usage
  deriving DecidableEq

namespace Spoken

variable (e : Machine) (fuel : ℕ) (hMaxdisks : ℤ)

/-- `( n -- n true|false )` -/
def hanoiValidate : Watched Message Memory :=
  .words
    [.plain [depth, lit 1, less],
    .ifElse
      (.words
        [.call .usage (.plain [cr, dotQuote "usage: n hanoi, where 1 <= n <= ", lit hMaxdisks, dot,
          cr]),
        .plain [lit 0]])
      (.words
        [.plain [dup, lit 1, lit hMaxdisks, between],
        .ifElse
          (.plain [lit (-1)])
          (.words
            [.call .usage (.plain [cr, dotQuote "usage: n hanoi, where 1 <= n <= ", lit hMaxdisks,
              dot, cr]),
            .plain [drop, lit 0]])])]

/-- `( n -- )` -/
def hanoi : Watched Message Memory :=
  .words
    [hanoiValidate hMaxdisks,
    .ifElse
      (.plain [eraseScreen, cr, dotQuote "Press control-z to quit the animation.", cr,
        dup, store fun x m ↦ { m with hN := x },
        dup, hanoiInit e fuel,
        lit 1, lit 3, lit 0, hanoiSolve e fuel])
      (.plain [])]

theorem erase_hanoiValidate :
    Watched.erase (hanoiValidate hMaxdisks) = Hanoi.hanoiValidate hMaxdisks := by
  simp only [hanoiValidate, Hanoi.hanoiValidate, Watched.erase_words, List.map_cons, List.map_nil,
    Watched.erase_plain, Watched.erase_call, Watched.erase_ifElse, words_cons_eq, seq_assoc,
    words_nil_seq]

theorem erase_hanoi : Watched.erase (hanoi e fuel hMaxdisks) = Hanoi.hanoi e fuel hMaxdisks := by
  simp only [hanoi, Hanoi.hanoi, erase_hanoiValidate, Watched.erase_words, List.map_cons,
    List.map_nil, Watched.erase_plain, Watched.erase_ifElse, words_cons_eq]

end Spoken

/-! ## An accepted number -/

section
variable (e : Machine) {fuel : ℕ} {hMaxdisks n : ℤ} {st ix : List ℤ} (m : Memory)

/-- Setting up makes no moves, and leaves what is below the number. -/
theorem hanoiInit_ok (hfuel : cellRange ≤ fuel) (n : ℤ) (st ix : List ℤ) :
    ∃ m', hanoiInit e fuel ⟨n :: st, ix, m⟩ = .ok ⟨st, ix, m'⟩ ∧ m'.moves = m.moves := by
  have hadd (j : ℤ) (m₁ : Memory) (h : m₁.moves = m.moves) :
      ∃ m', words [words [lit 1, i], hanoiTowerDiskAdd e] ⟨st, j :: ix, m₁⟩ =
        .ok ⟨st, j :: ix, m'⟩ ∧ m'.moves = m.moves := by
    refine ⟨(m₁.setCount 0 (m₁.count 0 + 1)).log (e.diskEvent 1 j (m₁.count 0)), ?_, ?_⟩
    · simp [hanoiTowerDiskAdd_eq e (t := 1) (k := 0) rfl]
    · rw [Machine.diskEvent, log_fillRectangle_moves]
      exact h
  rw [Watch.hanoiInit_eq]
  exact doLoop_invariant hadd hfuel 1 (n + 1) (setUp_moves e m)

/-- The word, once the number has been accepted. -/
theorem hanoi_accepted (haccepted : 1 ≤ n ∧ n ≤ hMaxdisks) (fuel : ℕ) :
    hanoi e fuel hMaxdisks ⟨n :: st, ix, m⟩ =
      (hanoiInit e fuel ⟨n :: n :: st, ix, { m with hN := n }⟩).bind
        (words [lit 1, lit 3, lit 0, hanoiSolve e fuel]) := by
  rw [hanoi, words_cons, hanoiValidate_eq, if_pos haccepted, ok_bind, words_cons, bind_words_nil,
    ifElse, if_pos (by decide)]
  rfl

/-- A number that is not accepted is taken off the stack, with the message. -/
theorem hanoi_refused (hrefused : ¬ (1 ≤ n ∧ n ≤ hMaxdisks)) (fuel : ℕ) :
    hanoi e fuel hMaxdisks ⟨n :: st, ix, m⟩ = .ok ⟨st, ix, m⟩ ∧
      .usage ∈ (Spoken.hanoi e fuel hMaxdisks ⟨n :: st, ix, m⟩).1.map Prod.fst := by
  constructor
  · rw [hanoi, words_cons, hanoiValidate_eq, if_neg hrefused]
    rfl
  · refine List.mem_map.mpr ⟨(.usage, ⟨n :: st, ix, m⟩), Watched.mem_words_head ?_, rfl⟩
    -- past the depth of the stack, and past the range
    rw [Spoken.hanoiValidate]
    refine Watched.mem_words_tail (t := ⟨0 :: n :: st, ix, m⟩) ?_ (Watched.mem_words_head ?_)
    · simp [Watched.plain, flag]
    rw [Watched.ifElse_zero]
    refine Watched.mem_words_tail (t := ⟨0 :: n :: st, ix, m⟩) ?_ (Watched.mem_words_head ?_)
    · simp [Watched.plain, flag, hrefused]
    rw [Watched.ifElse_zero]
    exact Watched.mem_words_head (List.mem_cons_self ..)

/-- **An accepted number leaves an empty stack**, if the word comes to an end. -/
theorem stack_eq_nil (haccepted : 1 ≤ n ∧ n ≤ hMaxdisks) {t : State Memory}
    (h : hanoi e fuel hMaxdisks ⟨n :: st, ix, m⟩ = .ok t) : t.stack = [] := by
  rw [hanoi_accepted e m haccepted] at h
  cases hinit : hanoiInit e fuel ⟨n :: n :: st, ix, { m with hN := n }⟩ with
  | error fault =>
    rw [hinit] at h
    cases h
  | ok s =>
    obtain ⟨st', ix', m'⟩ := s
    rw [hinit, ok_bind] at h
    simp only [words_cons, lit_apply, ok_bind, bind_words_nil] at h
    obtain ⟨⟨st₁, ix₁, m₁⟩, hcond⟩ := exists_of_beginWhile h
    cases st₁ with
    | nil =>
      rw [solveCond_nil] at hcond
      cases t
      cases hcond
      rfl
    | cons x st₁ =>
      rw [solveCond_cons] at hcond
      cases hcond

end

/-! ## The result -/

/-- The number is taken off the stack, and what is below stays: after the usage message and no move,
or after just the moves of `H`. -/
def RespectsStackComment (e : Machine) (hMaxdisks : ℤ) (S ix : List ℤ) (m : Memory) (n : ℤ) :
    Prop :=
  ∃ fuel₀, ∀ fuel ≥ fuel₀, ∃ m', hanoi e fuel hMaxdisks ⟨n :: S, ix, m⟩ = .ok ⟨S, ix, m'⟩ ∧
    (.usage ∈ (Spoken.hanoi e fuel hMaxdisks ⟨n :: S, ix, m⟩).1.map Prod.fst ∧
        m'.moves = m.moves ∨
      m'.moves = m.moves ++ H n.toNat 1 3 ∧ (H n.toNat 1 3).length = 2 ^ n.toNat - 1)

/-- **`hanoi` respects its stack comment exactly on an empty stack**, or when it refuses the
number. -/
theorem respectsStackComment_iff (e : Machine) (hMaxdisks : ℤ) (S ix : List ℤ) (m : Memory)
    (n : ℤ) :
    RespectsStackComment e hMaxdisks S ix m n ↔ S = [] ∨ ¬ (1 ≤ n ∧ n ≤ hMaxdisks) := by
  constructor
  · rintro ⟨fuel₀, h⟩
    by_cases haccepted : 1 ≤ n ∧ n ≤ hMaxdisks
    · obtain ⟨m', hrun, -⟩ := h fuel₀ (le_refl _)
      exact .inl (stack_eq_nil e m haccepted hrun)
    · exact .inr haccepted
  · intro h
    by_cases haccepted : 1 ≤ n ∧ n ≤ hMaxdisks
    · obtain rfl := h.resolve_right (not_not_intro haccepted)
      obtain ⟨r, rfl⟩ : ∃ r : ℕ, n = (r + 1 : ℕ) := ⟨(n - 1).toNat, by omega⟩
      refine ⟨enough (r + 1), ?_⟩
      intro fuel hge
      obtain ⟨m₁, hinit, hm₁⟩ := hanoiInit_ok e { m with hN := (r + 1 : ℕ) } (cellRange_le hge)
        (r + 1 : ℕ) [((r + 1 : ℕ) : ℤ)] ix
      obtain ⟨m', hsolve, hm'⟩ := hanoiSolve_single e hge (f := 1) (t := 3) (by decide)
        (by decide) (by decide) ix m₁
      refine ⟨m', ?_, .inr ⟨?_, length_H ..⟩⟩
      · rw [hanoi_accepted e m haccepted, hinit, ok_bind]
        simp only [words_cons, lit_apply, ok_bind, bind_words_nil]
        exact hsolve
      · rw [hm', hm₁]
        rfl
    · refine ⟨0, fun fuel _ ↦ ⟨m, ?_, .inl ⟨?_, rfl⟩⟩⟩
      · exact (hanoi_refused e m haccepted fuel).1
      · exact (hanoi_refused e m haccepted fuel).2

/-- One disk, and a seven below: once the disk has been moved, the seven is taken for a frame. -/
theorem not_respectsStackComment_seven :
    ¬ RespectsStackComment ⟨1024, 768, 0⟩ 8 [7] []
      ⟨1, 0, 0, 0, 0, 0, 0, 0, 0, fun _ ↦ 0, []⟩ 1 := by
  rintro ⟨fuel₀, h⟩
  obtain ⟨m', hrun, -⟩ := h fuel₀ (le_refl _)
  exact absurd (stack_eq_nil _ _ (by decide) hrun) (List.cons_ne_nil _ _)

end Hanoi
end MacOSXInternal
