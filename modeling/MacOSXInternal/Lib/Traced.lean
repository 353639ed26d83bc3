import Mathlib.Data.List.Basic

/-!
# Computations that say what they touch

A computation that may fail, with the list of what it has touched up to there.  It is meant to stand
beside a computation that does not say so: `result_bind` and its like take the list off again.

* `Keeps P Q x` says that everything `x` touches has `P`, and that its result has `Q`.
* `keeps_bind` takes it apart, from the first step on.
-/

set_option autoImplicit false

structure Traced (ι ε α : Type) where
  trace : List ι
  result : Except ε α

namespace Traced

variable {ι ε α β γ : Type}

instance : Monad (Traced ι ε) where
  pure a := ⟨[], .ok a⟩
  bind x f :=
    match x.result with
    | .ok a => ⟨x.trace ++ (f a).trace, (f a).result⟩
    | .error e => ⟨x.trace, .error e⟩

/-- A step that touches `l`. -/
def touch (l : List ι) (x : Except ε α) : Traced ι ε α := ⟨l, x⟩

@[simp] theorem result_touch (l : List ι) (x : Except ε α) : (touch l x).result = x := rfl

@[simp] theorem trace_touch (l : List ι) (x : Except ε α) : (touch l x).trace = l := rfl

@[simp] theorem result_pure (a : α) : (pure a : Traced ι ε α).result = .ok a := rfl

@[simp] theorem trace_pure (a : α) : (pure a : Traced ι ε α).trace = [] := rfl

variable {x : Traced ι ε α} {f : α → Traced ι ε β}

theorem bind_ok {a : α} (h : x.result = .ok a) :
    x >>= f = ⟨x.trace ++ (f a).trace, (f a).result⟩ := by
  simp only [bind, h]

theorem bind_error {e : ε} (h : x.result = .error e) : x >>= f = ⟨x.trace, .error e⟩ := by
  simp only [bind, h]

/-- What is left when the list is taken off. -/
@[simp] theorem result_bind : (x >>= f).result = x.result >>= fun a ↦ (f a).result := by
  cases h : x.result with
  | ok a =>
    rw [bind_ok h]
    rfl
  | error e =>
    rw [bind_error h]
    rfl

@[simp] theorem result_ite {c : Prop} [Decidable c] {x y : Traced ι ε α} :
    (if c then x else y).result = if c then x.result else y.result :=
  apply_ite result c x y

theorem pure_then (a : α) (f : α → Traced ι ε β) : pure a >>= f = f a := by
  rw [bind_ok (result_pure a)]
  rfl

theorem then_pure (x : Traced ι ε α) : id <$> x = x := by
  have hmap : id <$> x = x >>= pure := rfl
  obtain ⟨trace, result⟩ := x
  rw [hmap]
  cases result with
  | ok a =>
    rw [bind_ok rfl, trace_pure, List.append_nil]
    rfl
  | error e => rw [bind_error rfl]

theorem then_assoc (x : Traced ι ε α) (f : α → Traced ι ε β) (g : β → Traced ι ε γ) :
    x >>= f >>= g = x >>= fun a ↦ f a >>= g := by
  cases h : x.result with
  | error e => rw [bind_error h, bind_error h, bind_error rfl]
  | ok a =>
    rw [bind_ok h, bind_ok h]
    cases hf : (f a).result with
    | error e => rw [bind_error hf, bind_error rfl]
    | ok b => rw [bind_ok hf, bind_ok rfl, List.append_assoc]

instance : LawfulMonad (Traced ι ε) := .mk' _ then_pure pure_then then_assoc

/-! ## What is kept -/

/-- Everything that is touched has `P`, and the result has `Q`. -/
structure Keeps (P : ι → Prop) (Q : Except ε α → Prop) (x : Traced ι ε α) : Prop where
  trace : ∀ i ∈ x.trace, P i
  result : Q x.result

variable {P : ι → Prop} {Q : Except ε β → Prop}

theorem forall_trace_bind : (∀ i ∈ (x >>= f).trace, P i) ↔
    (∀ i ∈ x.trace, P i) ∧ ∀ a, x.result = .ok a → ∀ i ∈ (f a).trace, P i := by
  cases h : x.result with
  | ok a =>
    rw [bind_ok h, List.forall_mem_append]
    exact and_congr_right fun _ ↦ ⟨fun hf a' ha' ↦ by cases ha'; exact hf, fun hf ↦ hf a rfl⟩
  | error e =>
    rw [bind_error h]
    exact ⟨fun hx ↦ ⟨hx, nofun⟩, fun hx ↦ hx.1⟩

theorem keeps_pure {Q : Except ε α → Prop} {a : α} :
    Keeps P Q (pure a : Traced ι ε α) ↔ Q (.ok a) :=
  ⟨fun h ↦ h.result, fun h ↦ ⟨nofun, h⟩⟩

/-- **The rule for a step**, if a failure of it is none that `Q` allows. -/
theorem keeps_bind (hQ : ∀ e, x.result = .error e → ¬ Q (.error e)) :
    Keeps P Q (x >>= f) ↔
      ∃ a, x.result = .ok a ∧ (∀ i ∈ x.trace, P i) ∧ Keeps P Q (f a) := by
  cases h : x.result with
  | ok a =>
    rw [bind_ok h]
    constructor
    · rintro ⟨htrace, hresult⟩
      rw [List.forall_mem_append] at htrace
      exact ⟨a, rfl, htrace.1, htrace.2, hresult⟩
    · rintro ⟨a', ha', hx, htrace, hresult⟩
      cases ha'
      exact ⟨List.forall_mem_append.mpr ⟨hx, htrace⟩, hresult⟩
  | error e =>
    rw [bind_error h]
    constructor
    · rintro ⟨-, hresult⟩
      exact absurd hresult (hQ e h)
    · rintro ⟨a, ha, -⟩
      cases ha

end Traced
