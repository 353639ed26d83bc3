import Mathlib.Data.Nat.Basic

/-!
# Loops

A `while` loop is a function that takes the variables of the loop through one turn: it continues
with new values, or leaves the loop with a result.

* `run` takes a number of turns, at most as many as it is given, and has no result when they do not
  suffice; `Returns` says that enough turns give the result.
* `Returns.total` is the rule of total correctness: an invariant that every turn keeps, a variant
  that every turn decreases, and a result that is right where the loop is left;
  `Returns.invariant` is the rule for a loop that is known to have a result.
* `not_returns` is its counterpart: an invariant under which no turn leaves the loop.
-/

set_option autoImplicit false

namespace Loop

universe u v

variable {σ : Type u} {ρ : Type v}

/-- At most the given number of turns. -/
def run (turn : σ → σ ⊕ ρ) : ℕ → σ → Option ρ
  | 0, _ => none
  | fuel + 1, s =>
    match turn s with
    | .inl t => run turn fuel t
    | .inr r => some r

/-- The loop, entered at `s`, is left with the result `r`. -/
def Returns (turn : σ → σ ⊕ ρ) (s : σ) (r : ρ) : Prop := ∃ fuel, run turn fuel s = some r

variable {turn : σ → σ ⊕ ρ} {s t : σ} {r r' : ρ}

theorem run_of_inl (h : turn s = .inl t) (fuel : ℕ) : run turn (fuel + 1) s = run turn fuel t := by
  rw [run, h]

theorem run_of_inr (h : turn s = .inr r) (fuel : ℕ) : run turn (fuel + 1) s = some r := by
  rw [run, h]

/-- More fuel does not change the result. -/
theorem run_mono {m n : ℕ} (hmn : m ≤ n) (h : run turn m s = some r) : run turn n s = some r := by
  induction m generalizing n s with
  | zero => simp [run] at h
  | succ m ih =>
    obtain ⟨k, rfl⟩ : ∃ k, n = k + 1 := ⟨n - 1, by omega⟩
    cases ht : turn s with
    | inl t =>
      rw [run_of_inl ht] at h ⊢
      exact ih (Nat.le_of_succ_le_succ hmn) h
    | inr q =>
      rw [run_of_inr ht] at h ⊢
      exact h

/-- A loop has at most one result. -/
theorem Returns.unique (h : Returns turn s r) (h' : Returns turn s r') : r = r' := by
  obtain ⟨m, hm⟩ := h
  obtain ⟨n, hn⟩ := h'
  have hm' := run_mono (Nat.le_max_left m n) hm
  have hn' := run_mono (Nat.le_max_right m n) hn
  exact Option.some.inj (hm'.symm.trans hn')

theorem returns_of_inl (h : turn s = .inl t) : Returns turn s r ↔ Returns turn t r := by
  constructor
  · rintro ⟨fuel, hf⟩
    cases fuel with
    | zero => simp [run] at hf
    | succ fuel => exact ⟨fuel, by rwa [run_of_inl h] at hf⟩
  · rintro ⟨fuel, hf⟩
    exact ⟨fuel + 1, by rwa [run_of_inl h]⟩

theorem returns_of_inr (h : turn s = .inr r) : Returns turn s r := ⟨1, run_of_inr h 0⟩

/-- **Total correctness**: `I` is the invariant, `μ` the variant, and `Q` what holds of the
result. -/
theorem Returns.total {I : σ → Prop} {Q : ρ → Prop} (μ : σ → ℕ)
    (hinl : ∀ s t, I s → turn s = .inl t → I t ∧ μ t < μ s)
    (hinr : ∀ s r, I s → turn s = .inr r → Q r) {s : σ} (hs : I s) :
    ∃ r, Returns turn s r ∧ Q r := by
  induction hμ : μ s using Nat.strong_induction_on generalizing s with
  | _ n ih =>
    subst hμ
    cases ht : turn s with
    | inl t =>
      obtain ⟨hI, hlt⟩ := hinl s t hs ht
      obtain ⟨r, hr, hQ⟩ := ih (μ t) hlt hI rfl
      exact ⟨r, (returns_of_inl ht).mpr hr, hQ⟩
    | inr r => exact ⟨r, returns_of_inr ht, hinr s r hs ht⟩

/-- **Correctness of a result**: what every turn keeps holds where the loop is left. -/
theorem Returns.invariant {I : σ → Prop} {Q : ρ → Prop}
    (hinl : ∀ s t, I s → turn s = .inl t → I t) (hinr : ∀ s r, I s → turn s = .inr r → Q r)
    (h : Returns turn s r) (hs : I s) : Q r := by
  obtain ⟨fuel, hf⟩ := h
  induction fuel generalizing s with
  | zero => simp [run] at hf
  | succ fuel ih =>
    cases ht : turn s with
    | inl t =>
      rw [run_of_inl ht] at hf
      exact ih (hinl s t hs ht) hf
    | inr q =>
      rw [run_of_inr ht] at hf
      obtain rfl := Option.some.inj hf
      exact hinr s q hs ht

/-- What the turns write behind each other in a list is not taken back. -/
theorem Returns.log_kept {α : Type*} (log : σ → List α) (log' : ρ → List α)
    (hinl : ∀ s t, turn s = .inl t → log s <+: log t)
    (hinr : ∀ s r, turn s = .inr r → log s <+: log' r) (h : Returns turn s r) :
    log s <+: log' r := by
  refine h.invariant (I := fun t ↦ log s <+: log t) (Q := fun r ↦ log s <+: log' r) ?_ ?_
    (List.prefix_refl _)
  · intro t t' hs ht
    exact hs.trans (hinl t t' ht)
  · intro t r hs ht
    exact hs.trans (hinr t r ht)

/-- A loop that no turn leaves has no result. -/
theorem not_returns {I : σ → Prop} (hI : ∀ s, I s → ∃ t, turn s = .inl t ∧ I t) {s : σ} (hs : I s)
    (r : ρ) : ¬ Returns turn s r := by
  rintro ⟨fuel, hf⟩
  induction fuel generalizing s with
  | zero => simp [run] at hf
  | succ fuel ih =>
    obtain ⟨t, ht, hIt⟩ := hI s hs
    rw [run_of_inl ht] at hf
    exact ih hIt hf

end Loop
