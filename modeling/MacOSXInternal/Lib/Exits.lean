import MacOSXInternal.Lib.Loop

/-!
# Programs that may exit

A piece of a program takes the state, and either goes on with a new one or ends the whole program,
as `exit` does.  It is of the same kind as one turn of a loop.

* `inOrder` is one piece after another, and `whenever` an `if` without `else`.
* `Triple P p Q E` says that, from a state with `P`, the piece goes on in a state with `Q` or ends
  the program with `E`.  The rules follow the shape of the piece.
* `Triple.forever` is the rule for a loop that only such an end can leave.
-/

set_option autoImplicit false

namespace Exits

universe u v

/-- A piece of a program. -/
abbrev Prog (σ : Type u) (ρ : Type v) := σ → σ ⊕ ρ

variable {σ : Type u} {ρ : Type v}

def inOrder : List (Prog σ ρ) → Prog σ ρ
  | [], s => .inl s
  | p :: ps, s =>
    match p s with
    | .inl t => inOrder ps t
    | .inr r => .inr r

def whenever (c : σ → Bool) (p : Prog σ ρ) : Prog σ ρ := fun s ↦ if c s then p s else .inl s

/-- An assignment. -/
def assign (f : σ → σ) : Prog σ ρ := fun s ↦ .inl (f s)

/-! ## Triples -/

/-- From a state with `P`, the piece goes on with `Q` or ends with `E`. -/
structure Triple (P : σ → Prop) (p : Prog σ ρ) (Q : σ → Prop) (E : ρ → Prop) : Prop where
  next : ∀ s t, P s → p s = .inl t → Q t
  exit : ∀ s r, P s → p s = .inr r → E r

namespace Triple

variable {P P' Q Q' R I : σ → Prop} {E E' : ρ → Prop} {p : Prog σ ρ} {ps : List (Prog σ ρ)}

theorem weaken (h : Triple P p Q E) (hP : ∀ s, P' s → P s) (hQ : ∀ s, Q s → Q' s)
    (hE : ∀ r, E r → E' r) : Triple P' p Q' E' where
  next s t hs ht := hQ t (h.next s t (hP s hs) ht)
  exit s r hs hr := hE r (h.exit s r (hP s hs) hr)

/-- From one of the states. -/
theorem single (h : Triple P p Q E) {s : σ} (hs : P s) : Triple (· = s) p Q E where
  next _ t heq ht := h.next s t hs (heq ▸ ht)
  exit _ r heq hr := h.exit s r hs (heq ▸ hr)

/-- From each of the states. -/
theorem of_forall (h : ∀ s, P s → Triple (· = s) p Q E) : Triple P p Q E where
  next s t hs ht := (h s hs).next s t rfl ht
  exit s r hs hr := (h s hs).exit s r rfl hr

/-- It is enough to know the piece on the states it is run from. -/
theorem of_eq {q : Prog σ ρ} (h : Triple P q Q E) (heq : ∀ s, P s → p s = q s) :
    Triple P p Q E where
  next s t hs ht := h.next s t hs (heq s hs ▸ ht)
  exit s r hs hr := h.exit s r hs (heq s hs ▸ hr)

theorem assign {f : σ → σ} (h : ∀ s, P s → Q (f s)) : Triple P (Exits.assign f) Q E where
  next s t hs ht := by
    cases ht
    exact h s hs
  exit s r _ hr := by cases hr

theorem nil : Triple P (inOrder []) P E where
  next s t hs ht := by
    cases ht
    exact hs
  exit s r _ hr := by cases hr

theorem cons (h : Triple P p Q E) (hs : Triple Q (inOrder ps) R E) :
    Triple P (inOrder (p :: ps)) R E where
  next s t hP ht := by
    rw [inOrder] at ht
    cases hp : p s with
    | inl s' =>
      rw [hp] at ht
      exact hs.next s' t (h.next s s' hP hp) ht
    | inr r =>
      rw [hp] at ht
      cases ht
  exit s r hP hr := by
    rw [inOrder] at hr
    cases hp : p s with
    | inl s' =>
      rw [hp] at hr
      exact hs.exit s' r (h.next s s' hP hp) hr
    | inr r' =>
      rw [hp] at hr
      cases hr
      exact h.exit s r hP hp

theorem whenever {c : σ → Bool} (h : Triple (fun s ↦ P s ∧ c s) p Q E)
    (hn : ∀ s, P s → c s = false → Q s) : Triple P (Exits.whenever c p) Q E where
  next s t hP ht := by
    rw [Exits.whenever] at ht
    split_ifs at ht with hc
    · exact h.next s t ⟨hP, hc⟩ ht
    · cases ht
      exact hn s hP (Bool.not_eq_true _ ▸ hc)
  exit s r hP hr := by
    rw [Exits.whenever] at hr
    split_ifs at hr with hc
    exact h.exit s r ⟨hP, hc⟩ hr

/-- A piece that does not go on ends the program. -/
theorem exists_exit (h : Triple P p (fun _ ↦ False) E) {s : σ} (hs : P s) :
    ∃ r, p s = .inr r ∧ E r := by
  cases hp : p s with
  | inl t => exact (h.next s t hs hp).elim
  | inr r => exact ⟨r, rfl, h.exit s r hs hp⟩

/-- **A loop without a condition** ends the program when each turn brings the end nearer. -/
theorem forever (μ : σ → ℕ) (h : ∀ n, Triple (fun s ↦ I s ∧ μ s = n) p (fun s ↦ I s ∧ μ s < n) E)
    {s : σ} (hs : I s) : ∃ r, Loop.Returns p s r ∧ E r := by
  refine Loop.Returns.total μ (fun s t hI ht ↦ ?_) (fun s r hI hr ↦ ?_) hs
  · exact (h (μ s)).next s t ⟨hI, rfl⟩ ht
  · exact (h (μ s)).exit s r ⟨hI, rfl⟩ hr

end Triple
end Exits
