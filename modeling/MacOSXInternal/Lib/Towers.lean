import Mathlib.Algebra.BigOperators.Group.Finset.Basic
import Mathlib.Algebra.Order.BigOperators.Group.Finset
import MacOSXInternal.Lib.Runs

/-!
# The game of the Towers of Hanoi

Towers hold disks, the top one first.  Towers and disks are of any type; disks have a size by which
they are ordered.  A move is a triple: the tower a disk goes to, the tower it comes from, the disk.

* `play` is what a move does, and `Legal` when the game allows it.
* `solve` is the recursive solution for any list of disks.
* `solve_legal` is the result: whatever else lies on the towers, as long as it is larger, every move
  of the solution is legal, and together they take just these disks to the other tower.
-/

set_option autoImplicit false

universe u v

namespace Towers

open Runs

variable {π : Type u} {δ : Type v} [DecidableEq π] [LinearOrder δ]

/-- A disk leaves a tower, and lies on top of another one. -/
def play (T : π → List δ) (mv : π × π × δ) : π → List δ :=
  match mv with
  | (t, f, d) =>
    let T' := Function.update T f ((T f).erase d)
    Function.update T' t (d :: T' t)

/-- The game allows a move. -/
structure Legal (T : π → List δ) (mv : π × π × δ) : Prop where
  ne : mv.2.1 ≠ mv.1
  /-- The disk is on top of its tower. -/
  top : ∃ below, T mv.2.1 = mv.2.2 :: below
  /-- It is the smallest one there. -/
  least : ∀ x ∈ T mv.2.1, mv.2.2 ≤ x
  /-- The other tower is empty, or its smallest disk is larger. -/
  onto : ∀ x ∈ T mv.1, mv.2.2 < x

/-- The moves that take the disks, largest first, from `f` by way of `v` to `t`. -/
def solve : List δ → π → π → π → List (π × π × δ)
  | [], _, _, _ => []
  | d :: ds, f, v, t => solve ds f t v ++ (t, f, d) :: solve ds v f t

variable {T : π → List δ} {f v t : π} {d : δ} {ds below : List δ}

theorem play_to (hne : f ≠ t) : play T (t, f, d) t = d :: T t := by
  simp [play, hne.symm]

theorem play_from (hne : f ≠ t) (hT : T f = d :: below) : play T (t, f, d) f = below := by
  simp [play, hne, hT]

theorem play_of_ne {p : π} (hf : p ≠ f) (ht : p ≠ t) : play T (t, f, d) p = T p := by
  simp [play, hf, ht]

/-- **The recursive solution is legal, and solves the problem.** -/
theorem solve_legal (hds : ds.Pairwise (· > ·)) (hfv : f ≠ v) (hft : f ≠ t) (hvt : v ≠ t)
    (hT : T f = ds.reverse ++ below) (hf : ∀ d ∈ ds, ∀ x ∈ below, d < x)
    (hv : ∀ d ∈ ds, ∀ x ∈ T v, d < x) (ht : ∀ d ∈ ds, ∀ x ∈ T t, d < x) :
    Along play Legal T (solve ds f v t) ∧
    (solve ds f v t).foldl play T =
      Function.update (Function.update T f below) t (ds.reverse ++ T t) := by
  induction ds generalizing T f v t below with
  | nil =>
    refine ⟨trivial, ?_⟩
    rw [List.reverse_nil, List.nil_append] at hT
    rw [solve, List.foldl_nil, List.reverse_nil, List.nil_append, ← hT, Function.update_eq_self,
      Function.update_eq_self]
  | cons d ds ih =>
    obtain ⟨hd, hds⟩ := List.pairwise_cons.mp hds
    rw [List.reverse_cons, List.append_assoc, List.singleton_append] at hT
    rw [List.forall_mem_cons] at hf hv ht
    -- the smaller disks go out of the way
    obtain ⟨hlegal₁, hplay₁⟩ := ih hds hft hfv hvt.symm hT
      (fun x hx ↦ List.forall_mem_cons.mpr ⟨hd x hx, hf.2 x hx⟩) ht.2 hv.2
    obtain ⟨T₁, hT₁⟩ : ∃ T₁, T₁ = (solve ds f t v).foldl play T := ⟨_, rfl⟩
    rw [← hT₁] at hplay₁
    have hf₁ : T₁ f = d :: below := by simp [hplay₁, hfv]
    have hv₁ : T₁ v = ds.reverse ++ T v := by simp [hplay₁]
    have ht₁ : T₁ t = T t := by simp [hplay₁, hvt.symm, hft.symm]
    -- the largest moves
    have hlegal₂ : Legal T₁ (t, f, d) :=
      { ne := hft
        top := ⟨below, hf₁⟩
        least := by
          intro x hx
          rw [hf₁, List.mem_cons] at hx
          rcases hx with rfl | hx
          · exact le_refl _
          · exact le_of_lt (hf.1 x hx)
        onto := by
          intro x hx
          rw [ht₁] at hx
          exact ht.1 x hx }
    obtain ⟨T₂, hT₂⟩ : ∃ T₂, T₂ = play T₁ (t, f, d) := ⟨_, rfl⟩
    have hf₂ : T₂ f = below := by rw [hT₂, play_from hft hf₁]
    have hv₂ : T₂ v = ds.reverse ++ T v := by rw [hT₂, play_of_ne hfv.symm hvt, hv₁]
    have ht₂ : T₂ t = d :: T t := by rw [hT₂, play_to hft, ht₁]
    -- and the smaller ones go on top of it
    obtain ⟨hlegal₃, hplay₃⟩ := ih hds hfv.symm hvt hft hv₂ hv.2
      (by rw [hf₂]; exact hf.2)
      (by rw [ht₂]; exact fun x hx ↦ List.forall_mem_cons.mpr ⟨hd x hx, ht.2 x hx⟩)
    refine ⟨along_append.mpr ⟨hlegal₁, ?_⟩, ?_⟩
    · rw [← hT₁]
      exact ⟨hlegal₂, hT₂ ▸ hlegal₃⟩
    · rw [solve, List.foldl_append, ← hT₁, List.foldl_cons, ← hT₂, hplay₃]
      funext p
      by_cases hpt : p = t
      · subst hpt
        simp [ht₂]
      by_cases hpf : p = f
      · subst hpf
        simp [hft, hfv, hf₂]
      by_cases hpv : p = v
      · subst hpv
        simp [hpt, hpf]
      · have hp₂ : T₂ p = T p := by
          rw [hT₂, play_of_ne hpf hpt, hplay₁, Function.update_of_ne hpv, Function.update_of_ne hpf]
        simp [hpt, hpf, hpv, hp₂]

section
variable {mv : π × π × δ} (h : Legal T mv)
include h

/-- No disk comes from nowhere. -/
theorem Legal.exists_mem {p : π} {x : δ} (hx : x ∈ play T mv p) : ∃ q, x ∈ T q := by
  obtain ⟨below, htop⟩ := h.top
  by_cases hto : p = mv.1
  · rw [hto, play_to h.ne, List.mem_cons] at hx
    rcases hx with rfl | hx
    · exact ⟨mv.2.1, by rw [htop]; exact List.mem_cons_self⟩
    · exact ⟨mv.1, hx⟩
  by_cases hfrom : p = mv.2.1
  · rw [hfrom, play_from h.ne htop] at hx
    exact ⟨mv.2.1, by rw [htop]; exact List.mem_cons_of_mem _ hx⟩
  · rw [play_of_ne hfrom hto] at hx
    exact ⟨p, hx⟩

theorem Legal.length_to : (play T mv mv.1).length = (T mv.1).length + 1 := by
  obtain ⟨t, f, d⟩ := mv
  rw [play_to h.ne, List.length_cons]

theorem Legal.length_from : (play T mv mv.2.1).length + 1 = (T mv.2.1).length := by
  obtain ⟨t, f, d⟩ := mv
  obtain ⟨below, hT⟩ := h.top
  rw [play_from h.ne hT, hT, List.length_cons]

/-- A legal move neither makes disks nor loses them. -/
theorem Legal.sum_play {S : Finset π} (hf : mv.2.1 ∈ S) (ht : mv.1 ∈ S) :
    ∑ p ∈ S, (play T mv p).length = ∑ p ∈ S, (T p).length := by
  have ht' : mv.1 ∈ S.erase mv.2.1 := Finset.mem_erase.mpr ⟨h.ne.symm, ht⟩
  have hrest : ∑ p ∈ (S.erase mv.2.1).erase mv.1, (play T mv p).length =
      ∑ p ∈ (S.erase mv.2.1).erase mv.1, (T p).length := by
    refine Finset.sum_congr rfl ?_
    intro p hp
    obtain ⟨t, f, d⟩ := mv
    obtain ⟨hpt, hp⟩ := Finset.mem_erase.mp hp
    rw [play_of_ne (Finset.ne_of_mem_erase hp) hpt]
  have hto := h.length_to
  have hfrom := h.length_from
  rw [← Finset.add_sum_erase S _ hf, ← Finset.add_sum_erase _ _ ht', hrest,
    ← Finset.add_sum_erase S _ hf, ← Finset.add_sum_erase _ _ ht']
  omega

end

end Towers
