import Mathlib.Data.List.Basic

/-!
# Runs of a transition system

Two small vocabularies for speaking about a system that takes one step after another.

* `Run step s l t` is for a transition *relation*: the labels `l`, taken in order, lead from `s` to
  `t`.  `Run.invariant` is the induction rule every safety result is an instance of.  The beginning
  of a run is a run, so what holds at the end of every run holds in every state reached.
* `Along f P s l` is for a transition *function*: `P` holds of every state the run from `s` passes
  through, together with the label taken there.  A statement of this form is decidable as soon as
  `P` is, so a concrete run can be evaluated.

`Run.history` is the rule for invariants that speak of the run so far, such as that it has passed
through a certain state (`Passes`) or taken a certain step (`Takes`).  `guarded` is how a side
condition on the steps is stated: a run of `guarded ok step` is a run of `step` each of whose steps
was taken under `ok`.  `along_iff_of_invariant` is the two-sided counterpart for functions: when an
invariant makes a condition on the step and a property of its outcome equivalent, they hold along
the same runs.
-/

set_option autoImplicit false

namespace Runs

universe u v

variable {σ : Type u} {α : Type v}

/-! ## Transition relations -/

/-- The labels `l` lead from the first state to the last. -/
inductive Run (step : σ → α → σ → Prop) : σ → List α → σ → Prop
  | nil (s : σ) : Run step s [] s
  | cons {s t u : σ} {a : α} {l : List α} (h : step s a t) (hr : Run step t l u) :
      Run step s (a :: l) u

/-- The steps of `step` that are taken where `ok` holds. -/
def guarded (ok : σ → α → Prop) (step : σ → α → σ → Prop) (s : σ) (a : α) (t : σ) : Prop :=
  ok s a ∧ step s a t

variable {step step' : σ → α → σ → Prop}

/-- **The invariant rule**: what every step preserves, every run preserves. -/
theorem Run.invariant {I : σ → Prop} (hI : ∀ s a t, I s → step s a t → I t) {s t : σ}
    {l : List α} (hr : Run step s l t) (hs : I s) : I t := by
  induction hr with
  | nil => exact hs
  | cons h _ ih => exact ih (hI _ _ _ hs h)

theorem Run.single {s t : σ} {a : α} (h : step s a t) : Run step s [a] t :=
  .cons h (.nil t)

theorem Run.append {s t u : σ} {l m : List α} (h : Run step s l t) (h' : Run step t m u) :
    Run step s (l ++ m) u := by
  induction h with
  | nil => exact h'
  | cons hstep _ ih => exact .cons hstep (ih h')

theorem Run.mono (hle : ∀ s a t, step s a t → step' s a t) {s t : σ} {l : List α}
    (h : Run step s l t) : Run step' s l t := by
  induction h with
  | nil => exact .nil _
  | cons hstep _ ih => exact .cons (hle _ _ _ hstep) ih

/-- A guarded run is a run. -/
theorem Run.of_guarded {ok : σ → α → Prop} {s t : σ} {l : List α}
    (h : Run (guarded ok step) s l t) : Run step s l t :=
  h.mono fun _ _ _ hg ↦ hg.2

/-- **The invariant rule with history**: an invariant may also speak of the run so far. -/
theorem Run.history {I : List α → σ → Prop} {s t : σ} {l : List α} (hr : Run step s l t)
    (hnil : I [] s)
    (hsnoc : ∀ l u a v, Run step s l u → I l u → step u a v → I (l ++ [a]) v) : I l t := by
  have h {u v : σ} {l : List α} (hl : Run step u l v) :
      ∀ pre, Run step s pre u → I pre u → I (pre ++ l) v := by
    induction hl with
    | nil =>
      intro pre _ hI
      rwa [List.append_nil]
    | cons hstep _ ih =>
      intro pre hpre hI
      rw [List.append_cons]
      exact ih _ (hpre.append (.single hstep)) (hsnoc _ _ _ _ hpre hI hstep)
  exact h hr [] (.nil s) hnil

/-- The run passes through a state with `P`. -/
def Passes (step : σ → α → σ → Prop) (P : σ → Prop) (s : σ) (l : List α) (t : σ) : Prop :=
  ∃ l₁ u l₂, l = l₁ ++ l₂ ∧ Run step s l₁ u ∧ Run step u l₂ t ∧ P u

/-- The run takes a step with `P`. -/
def Takes (step : σ → α → σ → Prop) (P : σ → α → σ → Prop) (s : σ) (l : List α) (t : σ) : Prop :=
  ∃ l₁ u a v l₂, l = l₁ ++ a :: l₂ ∧ Run step s l₁ u ∧ step u a v ∧ Run step v l₂ t ∧ P u a v

section
variable {P : σ → Prop} {Q : σ → α → σ → Prop} {s t u : σ} {a : α} {l : List α}

theorem Passes.snoc (h : Passes step P s l t) (hstep : step t a u) :
    Passes step P s (l ++ [a]) u := by
  obtain ⟨l₁, v, l₂, rfl, h₁, h₂, hP⟩ := h
  exact ⟨l₁, v, l₂ ++ [a], List.append_assoc .., h₁, h₂.append (.single hstep), hP⟩

/-- The state before the last step. -/
theorem Passes.of_last (h : Run step s l t) (hstep : step t a u) (hP : P t) :
    Passes step P s (l ++ [a]) u :=
  ⟨l, t, [a], rfl, h, .single hstep, hP⟩

theorem Passes.mono {P' : σ → Prop} (hle : ∀ u, P u → P' u) (h : Passes step P s l t) :
    Passes step P' s l t := by
  obtain ⟨l₁, v, l₂, hl, h₁, h₂, hP⟩ := h
  exact ⟨l₁, v, l₂, hl, h₁, h₂, hle v hP⟩

theorem Takes.snoc (h : Takes step Q s l t) (hstep : step t a u) :
    Takes step Q s (l ++ [a]) u := by
  obtain ⟨l₁, v, b, w, l₂, rfl, h₁, hb, h₂, hQ⟩ := h
  exact ⟨l₁, v, b, w, l₂ ++ [a], List.append_assoc .., h₁, hb, h₂.append (.single hstep), hQ⟩

/-- The last step. -/
theorem Takes.of_last (h : Run step s l t) (hstep : step t a u) (hQ : Q t a u) :
    Takes step Q s (l ++ [a]) u :=
  ⟨l, t, a, u, [], rfl, h, hstep, .nil u, hQ⟩

end

/-! ## Transition functions -/

/-- `P` holds of every state the run from `s` passes through and the label taken there. -/
def Along (f : σ → α → σ) (P : σ → α → Prop) : σ → List α → Prop
  | _, [] => True
  | s, a :: l => P s a ∧ Along f P (f s a) l

instance Along.decidable (f : σ → α → σ) (P : σ → α → Prop) [∀ s a, Decidable (P s a)] :
    ∀ s l, Decidable (Along f P s l)
  | _, [] => inferInstanceAs (Decidable True)
  | s, a :: l => @instDecidableAnd _ _ _ (Along.decidable f P (f s a) l)

variable {f : σ → α → σ} {P Q : σ → α → Prop}

/-- `Along` says what it should: cut the labels at any point, and `P` holds there. -/
theorem along_iff {s : σ} {l : List α} :
    Along f P s l ↔ ∀ pre a post, l = pre ++ a :: post → P (pre.foldl f s) a := by
  induction l generalizing s with
  | nil => simp [Along]
  | cons b l ih =>
    rw [Along, ih]
    constructor
    · rintro ⟨hb, hl⟩ pre a post h
      cases pre with
      | nil =>
        obtain ⟨rfl, rfl⟩ := List.cons.inj h
        exact hb
      | cons c pre =>
        obtain ⟨rfl, rfl⟩ := List.cons.inj h
        exact hl pre a post rfl
    · intro h
      exact ⟨h [] b l rfl, fun pre a post hl ↦ h (b :: pre) a post (by rw [hl]; rfl)⟩

theorem along_append {s : σ} {l m : List α} :
    Along f P s (l ++ m) ↔ Along f P s l ∧ Along f P (l.foldl f s) m := by
  induction l generalizing s with
  | nil => simp [Along]
  | cons a l ih => rw [List.cons_append, Along, Along, ih, and_assoc, List.foldl_cons]

/-- **Two conditions that an invariant makes equivalent hold along the same runs.**  The invariant
has to survive only the steps that meet the first. -/
theorem along_iff_of_invariant {I : σ → Prop} (hstep : ∀ s a, I s → P s a → I (f s a))
    (hiff : ∀ s a, I s → (P s a ↔ Q s a)) {s : σ} (hs : I s) (l : List α) :
    Along f P s l ↔ Along f Q s l := by
  induction l generalizing s with
  | nil => exact Iff.rfl
  | cons a l ih =>
    rw [Along, Along, hiff s a hs]
    exact and_congr_right fun hq ↦ ih (hstep s a hs ((hiff s a hs).mpr hq))

end Runs
