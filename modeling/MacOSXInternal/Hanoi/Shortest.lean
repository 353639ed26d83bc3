import MacOSXInternal.Hanoi.Game
import MacOSXInternal.Lib.Towers.Shortest

/-!
# No solution is shorter than that of `hanoi-solve`

The solver is compared with all other ways to play.

* `Game n f t l` says that the moves `l` are a legal game, on the towers 1, 2 and 3, that takes all
  disks from `f` to `t`.
* `game_H` is that the moves of the solver are one, `Game.shortest` that no game has fewer moves,
  and no other game as few.
* `hanoiSolve_shortest` says so of the word.
-/

set_option autoImplicit false

namespace MacOSXInternal
namespace Hanoi

open Forth Runs Towers

/-- All disks are on one tower. -/
def stacked (n : ℕ) (t : ℤ) : ℤ → List ℤ := fun p ↦ if p = t then disks n else []

/-- A legal game on the three towers, from one of them to another. -/
structure Game (n : ℕ) (f t : ℤ) (l : List (ℤ × ℤ × ℤ)) : Prop where
  towers : ∀ mv ∈ l, 1 ≤ mv.1 ∧ mv.1 ≤ 3
  legal : Along play Legal (stacked n f) l
  solved : ∀ d ∈ disks n, d ∈ l.foldl play (stacked n f) t

section
variable {n : ℕ} {f t : ℤ} (hf : 1 ≤ f ∧ f ≤ 3) (ht : 1 ≤ t ∧ t ≤ 3) (hne : f ≠ t)
include hf ht hne

/-- **The moves of the solver are a game.** -/
theorem game_H : Game n f t (H n f t) := by
  have hfull : stacked n f f = (disks n).reverse.reverse ++ [] := by simp [stacked]
  have hempty {p : ℤ} (hp : p ≠ f) : stacked n f p = [] := if_neg hp
  obtain ⟨v, hv⟩ : ∃ v, v = 6 - f - t := ⟨_, rfl⟩
  have hH : H n f t = solve (disks n).reverse f v t := by rw [H_eq, hv]
  obtain ⟨hlegal, hplay⟩ := solve_legal (pairwise_disks n) (f := f) (v := v) (t := t) (by omega) hne
    (by omega) hfull (fun _ _ _ hx ↦ absurd hx List.not_mem_nil)
    (fun _ _ x hx ↦ by rw [hempty (by omega)] at hx; cases hx)
    (fun _ _ x hx ↦ by rw [hempty hne.symm] at hx; cases hx)
  rw [hH]
  refine ⟨?_, hlegal, ?_⟩
  · intro mv hmv
    have hto := among_solve _ f v t mv hmv
    omega
  · intro d hd
    rw [hplay]
    simpa using Or.inl hd

/-- **No game is shorter**, and no other as short. -/
theorem Game.shortest {l : List (ℤ × ℤ × ℤ)} (h : Game n f t l) :
    (H n f t).length ≤ l.length ∧ (l.length = (H n f t).length → l = H n f t) := by
  obtain ⟨v, hv⟩ : ∃ v, v = 6 - f - t := ⟨_, rfl⟩
  have hamong : Among f v t l := by
    intro mv hmv
    have hto := h.towers mv hmv
    omega
  have hstart : stacked n f = fun p ↦ if p = f then (disks n).reverse.reverse else [] := by
    rw [List.reverse_reverse]
    rfl
  have hlegal := h.legal
  have hsolved := h.solved
  rw [hstart] at hlegal hsolved
  obtain ⟨hle, heq⟩ := Towers.shortest (pairwise_disks n) (f := f) (v := v) (t := t) (by omega) hne
    (by omega) hamong hlegal fun d hd ↦ hsolved d (List.mem_reverse.mp hd)
  rw [List.length_reverse, length_disks] at hle heq
  have hpos : 0 < 2 ^ n := Nat.two_pow_pos n
  rw [length_H]
  refine ⟨by omega, ?_⟩
  intro hlen
  rw [H_eq, ← hv]
  exact heq (by omega)

end

/-- **`hanoi-solve` plays the shortest game.**  On a stack that holds just `n from to 0` its calls
of `hanoi-disk-move` are a legal game that takes the disks from one tower to the other; no such game
has fewer moves, and no other one has as few. -/
theorem hanoiSolve_shortest (e : Machine) (n : ℕ) (hn : 1 ≤ n) {f t : ℤ} (hf : 1 ≤ f ∧ f ≤ 3)
    (ht : 1 ≤ t ∧ t ≤ 3) (hne : f ≠ t) (ix : List ℤ) (m : Memory) :
    ∃ fuel₀, ∀ fuel ≥ fuel₀, ∃ m' made,
      hanoiSolve e fuel ⟨[0, t, f, n], ix, m⟩ = .ok ⟨[], ix, m'⟩ ∧ m'.moves = m.moves ++ made ∧
      Game n f t made ∧
      ∀ l, Game n f t l → made.length ≤ l.length ∧ (l.length = made.length → l = made) := by
  obtain ⟨k, rfl⟩ : ∃ k, n = k + 1 := ⟨n - 1, by omega⟩
  refine ⟨enough (k + 1), ?_⟩
  intro fuel hge
  obtain ⟨m', hrun, hm'⟩ := hanoiSolve_single e hge hf ht hne ix m
  exact ⟨m', H (k + 1) f t, hrun, hm', game_H hf ht hne, fun _ h ↦ h.shortest hf ht hne⟩

/-- Two disks from the second tower to the first, on a screen of 1024 by 768. -/
theorem hanoiSolve_shortest_two :
    ∃ fuel₀, ∀ fuel ≥ fuel₀, ∃ m' made,
      hanoiSolve ⟨1024, 768, 0⟩ fuel
        ⟨[0, 1, 2, 2], [], ⟨1, 0, 0, 0, 0, 0, 2, 0, 0, fun _ ↦ 0, []⟩⟩ = .ok ⟨[], [], m'⟩ ∧
      m'.moves = [] ++ made ∧ Game 2 2 1 made ∧
      ∀ l, Game 2 2 1 l → made.length ≤ l.length ∧ (l.length = made.length → l = made) :=
  hanoiSolve_shortest ⟨1024, 768, 0⟩ 2 (by decide) (f := 2) (t := 1) (by decide) (by decide)
    (by decide) [] ⟨1, 0, 0, 0, 0, 0, 2, 0, 0, fun _ ↦ 0, []⟩

end Hanoi
end MacOSXInternal
