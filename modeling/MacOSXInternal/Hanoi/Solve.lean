import MacOSXInternal.Hanoi.HanoiLib

/-!
# `hanoi-solve` is recursive Hanoi

`hanoi-solve` keeps its own call stack: frames of four cells `n from to processed` lie on the data
stack, and each turn of its loop works on the top one.  A frame that has not been processed either
moves its single disk and goes, or is marked and gets a child frame on top; a frame that has been
processed moves its disk and becomes the frame of its second subproblem.

* `solveBody_single`, `solveBody_push` and `solveBody_next` are the three things a turn can do.
* `hanoiSolve_frame` is the invariant: an unprocessed frame on top of anything is worked off in
  `turns n` turns of the loop, which add exactly `H n from to` to the calls of `hanoi-disk-move`.
  It is proved by induction on `n`; the two uses of the induction hypothesis are the child frame
  and the frame that takes its parent's place.
* `hanoiSolve_eq` is the result, with `length_H` for the number of moves.
-/

set_option autoImplicit false

namespace MacOSXInternal
namespace Hanoi

open Forth

/-! ## The specification -/

/-- The moves, as `(to, from, disk)`, that take `n` disks from `f` to `t`. -/
def H : ℕ → ℤ → ℤ → List (ℤ × ℤ × ℤ)
  | 0, _, _ => []
  | 1, f, t => [(t, f, 1)]
  | n + 2, f, t => H (n + 1) f (6 - f - t) ++ [(t, f, ((n + 2 : ℕ) : ℤ))] ++ H (n + 1) (6 - f - t) t

theorem length_H (n : ℕ) (f t : ℤ) : (H n f t).length = 2 ^ n - 1 := by
  induction n generalizing f t with
  | zero => rfl
  | succ n ih =>
    cases n with
    | zero => rfl
    | succ n =>
      have hpos : 0 < 2 ^ (n + 1) := Nat.two_pow_pos _
      rw [H, List.length_append, List.length_append, ih, ih, pow_succ 2 (n + 1)]
      simp only [List.length_cons, List.length_nil]
      omega

/-! ## The word -/

variable (e : Machine) (fuel : ℕ)

/-- `depth 0 >` -/
def solveCond : Word Memory := words [depth, lit 0, greater]

/-- What is repeated.  The frame is `( n from to processed )`. -/
def solveBody : Word Memory :=
  words [lit 6, lit 3, pick, lit 3, pick, add, sub,
    lit 1, pick, lit 0, eq, ifElse
      (words [lit 4, pick, lit 1, eq, ifElse
        (words [lit 2, pick, lit 4, pick, lit 6, pick, hanoiDiskMove e fuel, twoDrop, twoDrop, drop])
        (words [lit 1, minusRot, swap, drop, lit 4, pick, lit 1, sub, swap, lit 4, pick, swap,
          lit 0])])
      (words [swap, drop, lit 1, pick, lit 3, pick, lit 5, pick, hanoiDiskMove e fuel,
        swap, rot, drop, rot, lit 1, sub, minusRot, lit 0])]

/-- `hanoi-solve`. -/
def hanoiSolve : Word Memory := beginWhile solveCond (solveBody e fuel) fuel

/-! ## One turn -/

section
variable {n f t : ℤ} (rest ix : List ℤ) (m : Memory)

theorem solveCond_cons (x : ℤ) :
    solveCond ⟨x :: rest, ix, m⟩ = .ok ⟨-1 :: x :: rest, ix, m⟩ := by
  have h : ((x :: rest).length : ℤ) > 0 := by simp
  simp only [solveCond, words_cons, words_nil, ok_bind, depth_apply, lit_apply, greater_apply, flag,
    if_pos h]

theorem solveCond_nil : solveCond ⟨[], ix, m⟩ = .ok ⟨[0], ix, m⟩ := by
  simp [solveCond, flag]

variable {fuel}

/-- A frame of one disk: the disk is moved and the frame goes. -/
theorem solveBody_single (hfuel : cellRange ≤ fuel) (hf : 1 ≤ f ∧ f ≤ 3) (ht : 1 ≤ t ∧ t ≤ 3) :
    ∃ m', solveBody e fuel ⟨0 :: t :: f :: 1 :: rest, ix, m⟩ = .ok ⟨rest, ix, m'⟩ ∧
      m'.moves = m.moves ++ [(t, f, 1)] := by
  obtain ⟨m', hmove, hm'⟩ := hanoiDiskMove_ok e hfuel ht hf 1
    ((6 - (f + t)) :: 0 :: t :: f :: 1 :: rest) ix m
  exact ⟨m', by simp [solveBody, pick_apply, hmove], hm'⟩

/-- A frame of several disks is marked and gets a child. -/
theorem solveBody_push (hn : n ≠ 1) :
    solveBody e fuel ⟨0 :: t :: f :: n :: rest, ix, m⟩ =
      .ok ⟨0 :: (6 - (f + t)) :: f :: (n - 1) :: 1 :: t :: f :: n :: rest, ix, m⟩ := by
  simp [solveBody, pick_apply, hn]

/-- A marked frame moves its disk and becomes its second subproblem. -/
theorem solveBody_next (hfuel : cellRange ≤ fuel) (hf : 1 ≤ f ∧ f ≤ 3) (ht : 1 ≤ t ∧ t ≤ 3) :
    ∃ m', solveBody e fuel ⟨1 :: t :: f :: n :: rest, ix, m⟩ =
        .ok ⟨0 :: t :: (6 - (f + t)) :: (n - 1) :: rest, ix, m'⟩ ∧
      m'.moves = m.moves ++ [(t, f, n)] := by
  obtain ⟨m', hmove, hm'⟩ := hanoiDiskMove_ok e hfuel ht hf n
    ((6 - (f + t)) :: t :: f :: n :: rest) ix m
  exact ⟨m', by simp [solveBody, pick_apply, hmove], hm'⟩

end

/-! ## The run -/

/-- The number of turns an unprocessed frame takes. -/
def turns : ℕ → ℕ
  | 0 => 0
  | 1 => 1
  | n + 2 => 2 * turns (n + 1) + 2

variable {fuel}

/-- **A frame is worked off.** -/
theorem hanoiSolve_frame (hfuel : cellRange ≤ fuel) (n : ℕ) {f t : ℤ} (hf : 1 ≤ f ∧ f ≤ 3)
    (ht : 1 ≤ t ∧ t ≤ 3) (hne : f ≠ t) (rest ix : List ℤ) (m : Memory) :
    ∃ m', m'.moves = m.moves ++ H (n + 1) f t ∧ ∀ k,
      beginWhile solveCond (solveBody e fuel) (turns (n + 1) + k)
          ⟨0 :: t :: f :: (n + 1) :: rest, ix, m⟩ =
        beginWhile solveCond (solveBody e fuel) k ⟨rest, ix, m'⟩ := by
  induction n generalizing f t rest m with
  | zero =>
    obtain ⟨m', hbody, hm'⟩ := solveBody_single e rest ix m hfuel hf ht
    refine ⟨m', hm', ?_⟩
    intro k
    rw [turns, Nat.add_comm, Nat.cast_zero, zero_add]
    exact beginWhile_true (solveCond_cons _ ix m 0) (by decide) hbody k
  | succ n ih =>
    -- the third tower
    obtain ⟨v, hv⟩ : ∃ v, v = 6 - (f + t) := ⟨_, rfl⟩
    have hv3 : 1 ≤ v ∧ v ≤ 3 := by omega
    obtain ⟨m₁, hm₁, hrun₁⟩ := ih hf hv3 (by omega) (1 :: t :: f :: (n + 1 + 1) :: rest) m
    obtain ⟨m₂, hnext, hm₂⟩ := solveBody_next e (n := n + 1 + 1) rest ix m₁ hfuel hf ht
    obtain ⟨m₃, hm₃, hrun₃⟩ := ih hv3 ht (by omega) rest m₂
    refine ⟨m₃, ?_, ?_⟩
    · rw [hm₃, hm₂, hm₁, H, sub_sub, ← hv]
      simp [add_assoc, one_add_one_eq_two]
    · intro k
      have hpush : solveBody e fuel ⟨0 :: t :: f :: ((n : ℤ) + 1 + 1) :: rest, ix, m⟩ = _ :=
        solveBody_push e rest ix m (by omega)
      rw [← hv, add_sub_cancel_right] at hpush hnext
      calc beginWhile solveCond (solveBody e fuel) (turns (n + 2) + k)
            ⟨0 :: t :: f :: ((n + 1 : ℕ) + 1) :: rest, ix, m⟩
          = beginWhile solveCond (solveBody e fuel) (turns (n + 1) + (turns (n + 1) + k + 1))
              ⟨0 :: v :: f :: (n + 1) :: 1 :: t :: f :: (n + 1 + 1) :: rest, ix, m⟩ := by
            rw [← beginWhile_true (solveCond_cons _ ix m 0) (by decide) hpush]
            congr 1
            rw [turns]
            omega
        _ = beginWhile solveCond (solveBody e fuel) (turns (n + 1) + k + 1)
              ⟨1 :: t :: f :: (n + 1 + 1) :: rest, ix, m₁⟩ := hrun₁ _
        _ = beginWhile solveCond (solveBody e fuel) (turns (n + 1) + k)
              ⟨0 :: t :: v :: (n + 1) :: rest, ix, m₂⟩ :=
            beginWhile_true (solveCond_cons _ ix m₁ 1) (by decide) hnext _
        _ = beginWhile solveCond (solveBody e fuel) k ⟨rest, ix, m₃⟩ := hrun₃ k

/-- The fuel that the loops take for `n` disks. -/
def enough (n : ℕ) : ℕ := 2 ^ 32 + (turns n + 1)

theorem cellRange_le {n : ℕ} (h : enough n ≤ fuel) : cellRange ≤ fuel := by
  rw [enough] at h
  rw [cellRange]
  omega

/-- A stack that holds just a frame. -/
theorem hanoiSolve_single {n : ℕ} (hfuel : enough (n + 1) ≤ fuel) {f t : ℤ} (hf : 1 ≤ f ∧ f ≤ 3)
    (ht : 1 ≤ t ∧ t ≤ 3) (hne : f ≠ t) (ix : List ℤ) (m : Memory) :
    ∃ m', hanoiSolve e fuel ⟨[0, t, f, (n + 1 : ℕ)], ix, m⟩ = .ok ⟨[], ix, m'⟩ ∧
      m'.moves = m.moves ++ H (n + 1) f t := by
  obtain ⟨m', hm', hrun⟩ := hanoiSolve_frame e (cellRange_le hfuel) n hf ht hne [] ix m
  obtain ⟨k, hk⟩ : ∃ k, fuel = turns (n + 1) + (k + 1) := by
    rw [enough] at hfuel
    exact ⟨fuel - turns (n + 1) - 1, by omega⟩
  refine ⟨m', ?_, hm'⟩
  calc hanoiSolve e fuel ⟨[0, t, f, (n + 1 : ℕ)], ix, m⟩
      = beginWhile solveCond (solveBody e fuel) (turns (n + 1) + (k + 1))
          ⟨[0, t, f, (n : ℤ) + 1], ix, m⟩ := by rw [← hk, hanoiSolve, Nat.cast_succ]
    _ = beginWhile solveCond (solveBody e fuel) (k + 1) ⟨[], ix, m'⟩ := hrun (k + 1)
    _ = .ok ⟨[], ix, m'⟩ := beginWhile_false (solveCond_nil ix m') k

/-- **`hanoi-solve` is recursive Hanoi.**  On a stack that holds just `n from to 0` it terminates,
without ever taking a cell from an empty stack, leaves the stack empty, and calls `hanoi-disk-move`
for the moves of `H`, in that order. -/
theorem hanoiSolve_eq (n : ℕ) (hn : 1 ≤ n) {f t : ℤ} (hf : 1 ≤ f ∧ f ≤ 3) (ht : 1 ≤ t ∧ t ≤ 3)
    (hne : f ≠ t) (ix : List ℤ) (m : Memory) :
    ∃ fuel₀, ∀ fuel ≥ fuel₀, ∃ m',
      hanoiSolve e fuel ⟨[0, t, f, n], ix, m⟩ = .ok ⟨[], ix, m'⟩ ∧
      m'.moves = m.moves ++ H n f t ∧ (H n f t).length = 2 ^ n - 1 := by
  obtain ⟨n, rfl⟩ : ∃ k, n = k + 1 := ⟨n - 1, by omega⟩
  refine ⟨enough (n + 1), ?_⟩
  intro fuel hge
  obtain ⟨m', hrun, hm'⟩ := hanoiSolve_single e hge hf ht hne ix m
  exact ⟨m', hrun, hm', length_H ..⟩

/-- Three disks from the first tower to the third, on a screen of 1024 by 768. -/
theorem hanoiSolve_three :
    ∃ fuel₀, ∀ fuel ≥ fuel₀, ∃ m',
      hanoiSolve ⟨1024, 768, 0⟩ fuel
        ⟨[0, 3, 1, 3], [], ⟨1, 0, 0, 0, 0, 0, 3, 0, 0, fun _ ↦ 0, []⟩⟩ = .ok ⟨[], [], m'⟩ ∧
      m'.moves =
        [(3, 1, 1), (2, 1, 2), (2, 3, 1), (3, 1, 3), (1, 2, 1), (3, 2, 2), (3, 1, 1)] := by
  obtain ⟨fuel₀, h⟩ := hanoiSolve_eq ⟨1024, 768, 0⟩ 3 (by decide) (f := 1) (t := 3) (by decide)
    (by decide) (by decide) [] ⟨1, 0, 0, 0, 0, 0, 3, 0, 0, fun _ ↦ 0, []⟩
  refine ⟨fuel₀, ?_⟩
  intro fuel hge
  obtain ⟨m', hrun, hm', -⟩ := h fuel hge
  exact ⟨m', hrun, hm'.trans (by decide)⟩

end Hanoi
end MacOSXInternal
