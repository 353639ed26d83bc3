import Mathlib.Algebra.Order.Ring.Int

/-!
# Forth words

A Forth word is a function on the machine's state that may fail.  A colon definition is the list of
the words it is made of, `words`, in the order of the source; control structures are functions from
words to words.  `μ` is whatever the program at hand has for variables and devices.

Cells are integers: the programs this is for do not come near the end of a cell's range.  The one
exception is the index of a `do … loop` that is entered with limit equal to start, which in Forth
runs through the whole range; the distance of the index to the limit is therefore kept modulo
`cellRange`, and a loop is left when that distance passes zero, as the standard has it.

* `words_cons` and the lemmas about the single words evaluate straight-line code.
* `loopFrom_invariant` is the rule for a counted loop whose body keeps an invariant: it terminates,
  whatever its bounds.  `loopFrom_ok` is what is known of one that has been left.
* `beginWhile_true` and `beginWhile_false` take a `begin … while … repeat` one turn further.

A loop takes the number of turns it may use as an argument, and says `outOfFuel` when that is not
enough; termination is proved by giving a number that is.
-/

set_option autoImplicit false

namespace Forth

/-- What can go wrong. -/
inductive Fault
  | stackUnderflow
  | badAddress
  | outOfFuel
  deriving DecidableEq, Repr

/-- The data stack, top first; the indices of the running counted loops, innermost first; and the
memory. -/
structure State (μ : Type) where
  stack : List ℤ
  index : List ℤ
  mem : μ

/-- A word. -/
abbrev Word (μ : Type) := State μ → Except Fault (State μ)

variable {μ : Type}

/-! ## Sequences -/

/-- One word after another. -/
def words : List (Word μ) → Word μ
  | [], s => .ok s
  | w :: ws, s => (w s).bind (words ws)

/-! The two steps of evaluation are not proved by `rfl`, so that each stays a step of the proof and
the kernel is never asked to run a whole definition. -/

@[simp] theorem words_nil (s : State μ) : words [] s = .ok s := rfl

@[simp] theorem words_cons (w : Word μ) (ws : List (Word μ)) (s : State μ) :
    words (w :: ws) s = (w s).bind (words ws) := by
  rw [words]

@[simp] theorem ok_bind (s : State μ) (w : Word μ) :
    (Except.ok s : Except Fault _).bind w = w s := by
  rw [Except.bind]

@[simp] theorem bind_words_nil (r : Except Fault (State μ)) : r.bind (words []) = r := by
  cases r <;> rfl

/-- One word, and then another. -/
def seq (v w : Word μ) : Word μ := fun s ↦ (v s).bind w

/-! With these, words that differ in how they are grouped become the same. -/

theorem words_cons_eq (w : Word μ) (ws : List (Word μ)) : words (w :: ws) = seq w (words ws) := by
  funext s
  exact words_cons w ws s

theorem seq_assoc (u v w : Word μ) : seq (seq u v) w = seq u (seq v w) := by
  funext s
  rw [seq, seq, seq]
  cases u s <;> rfl

theorem words_nil_seq (w : Word μ) : seq (words []) w = w := by
  funext s
  rw [seq, words_nil, ok_bind]

theorem seq_words_nil (w : Word μ) : seq w (words []) = w := by
  funext s
  rw [seq, bind_words_nil]

/-! ## The stack -/

/-- A number. -/
def lit (x : ℤ) : Word μ := fun s ↦ .ok { s with stack := x :: s.stack }

def dup : Word μ
  | ⟨x :: st, ix, m⟩ => .ok ⟨x :: x :: st, ix, m⟩
  | _ => .error .stackUnderflow

def drop : Word μ
  | ⟨_ :: st, ix, m⟩ => .ok ⟨st, ix, m⟩
  | _ => .error .stackUnderflow

def swap : Word μ
  | ⟨x :: y :: st, ix, m⟩ => .ok ⟨y :: x :: st, ix, m⟩
  | _ => .error .stackUnderflow

def «over» : Word μ
  | ⟨x :: y :: st, ix, m⟩ => .ok ⟨y :: x :: y :: st, ix, m⟩
  | _ => .error .stackUnderflow

/-- The third cell to the top. -/
def rot : Word μ
  | ⟨x :: y :: z :: st, ix, m⟩ => .ok ⟨z :: x :: y :: st, ix, m⟩
  | _ => .error .stackUnderflow

/-- `-rot`: the top cell to the third place. -/
def minusRot : Word μ
  | ⟨x :: y :: z :: st, ix, m⟩ => .ok ⟨y :: z :: x :: st, ix, m⟩
  | _ => .error .stackUnderflow

/-- `2dup`. -/
def twoDup : Word μ
  | ⟨x :: y :: st, ix, m⟩ => .ok ⟨x :: y :: x :: y :: st, ix, m⟩
  | _ => .error .stackUnderflow

/-- `2drop`. -/
def twoDrop : Word μ
  | ⟨_ :: _ :: st, ix, m⟩ => .ok ⟨st, ix, m⟩
  | _ => .error .stackUnderflow

/-- `3drop`. -/
def threeDrop : Word μ
  | ⟨_ :: _ :: _ :: st, ix, m⟩ => .ok ⟨st, ix, m⟩
  | _ => .error .stackUnderflow

/-- `pick`: the cell that the top one counts down to, from zero. -/
def pick : Word μ
  | ⟨u :: st, ix, m⟩ =>
    if u < 0 then .error .stackUnderflow
    else match st[u.toNat]? with
      | some x => .ok ⟨x :: st, ix, m⟩
      | none => .error .stackUnderflow
  | _ => .error .stackUnderflow

def depth : Word μ
  | ⟨st, ix, m⟩ => .ok ⟨st.length :: st, ix, m⟩

/-! ## Arithmetic -/

/-- A word that replaces two cells by one; the deeper one is the first operand. -/
def binary (f : ℤ → ℤ → ℤ) : Word μ
  | ⟨y :: x :: st, ix, m⟩ => .ok ⟨f x y :: st, ix, m⟩
  | _ => .error .stackUnderflow

/-- A flag. -/
def flag (p : Prop) [Decidable p] : ℤ := if p then -1 else 0

def add : Word μ := binary (· + ·)
def sub : Word μ := binary (· - ·)
def mul : Word μ := binary (· * ·)
/-- `/`, rounding down. -/
def div : Word μ := binary Int.fdiv
def eq : Word μ := binary fun x y ↦ flag (x = y)
def less : Word μ := binary fun x y ↦ flag (x < y)
def greater : Word μ := binary fun x y ↦ flag (x > y)

/-- Both ends belong to the range. -/
def between : Word μ
  | ⟨y :: x :: z :: st, ix, m⟩ => .ok ⟨flag (x ≤ z ∧ z ≤ y) :: st, ix, m⟩
  | _ => .error .stackUnderflow

def negate : Word μ
  | ⟨x :: st, ix, m⟩ => .ok ⟨-x :: st, ix, m⟩
  | _ => .error .stackUnderflow

/-! ## Memory and devices -/

/-- `v @`. -/
def fetch (v : μ → ℤ) : Word μ
  | ⟨st, ix, m⟩ => .ok ⟨v m :: st, ix, m⟩

/-- `v !`. -/
def store (v : ℤ → μ → μ) : Word μ
  | ⟨x :: st, ix, m⟩ => .ok ⟨st, ix, v x m⟩
  | _ => .error .stackUnderflow

/-- `c@`, where `get` says what is at an address, if anything. -/
def cfetch (get : ℤ → μ → Option ℤ) : Word μ
  | ⟨a :: st, ix, m⟩ =>
    match get a m with
    | some x => .ok ⟨x :: st, ix, m⟩
    | none => .error .badAddress
  | _ => .error .stackUnderflow

/-- `c!`. -/
def cstore (set : ℤ → ℤ → μ → Option μ) : Word μ
  | ⟨a :: x :: st, ix, m⟩ =>
    match set a x m with
    | some m' => .ok ⟨st, ix, m'⟩
    | none => .error .badAddress
  | _ => .error .stackUnderflow

/-- A device that consumes `n` cells, of which it gets the deepest first. -/
def device (n : ℕ) (f : List ℤ → μ → μ) : Word μ
  | ⟨st, ix, m⟩ =>
    if n ≤ st.length then .ok ⟨st.drop n, ix, f (st.take n).reverse m⟩
    else .error .stackUnderflow

/-! The console.  What is printed on it is not kept. -/

def cr : Word μ := .ok

/-- `."` -/
def dotQuote (_text : String) : Word μ := .ok

/-- `.` -/
def dot : Word μ := drop

/-! ## Control -/

/-- `if … else … then`. -/
def ifElse (a b : Word μ) : Word μ
  | ⟨c :: st, ix, m⟩ => if c ≠ 0 then a ⟨st, ix, m⟩ else b ⟨st, ix, m⟩
  | _ => .error .stackUnderflow

/-- The number of values of a cell. -/
def cellRange : ℤ := 2 ^ 32

/-- `i`. -/
def i : Word μ
  | ⟨st, n :: ix, m⟩ => .ok ⟨n :: st, n :: ix, m⟩
  | _ => .error .stackUnderflow

/-- A counted loop from where the index is `distance` cells above the limit; `body` leaves the
increment on the stack. -/
def loopFrom (body : Word μ) : ℕ → ℤ → Word μ
  | 0, _, _ => .error .outOfFuel
  | fuel + 1, distance, s =>
    (body s).bind fun
      | ⟨d :: st, n :: ix, m⟩ =>
        if 0 ≤ distance + d ∧ distance + d < cellRange then
          loopFrom body fuel (distance + d) ⟨st, (n + d) :: ix, m⟩
        else .ok ⟨st, ix, m⟩
      | _ => .error .stackUnderflow

/-- `do … +loop`. -/
def doPlusLoop (fuel : ℕ) (body : Word μ) : Word μ
  | ⟨start :: limit :: st, ix, m⟩ =>
    loopFrom body fuel ((start - limit) % cellRange) ⟨st, start :: ix, m⟩
  | _ => .error .stackUnderflow

/-- `do … loop`. -/
def doLoop (fuel : ℕ) (body : Word μ) : Word μ := doPlusLoop fuel (words [body, lit 1])

/-- `begin … while … repeat`. -/
def beginWhile (cond body : Word μ) : ℕ → Word μ
  | 0, _ => .error .outOfFuel
  | fuel + 1, s =>
    (cond s).bind fun
      | ⟨c :: st, ix, m⟩ =>
        if c ≠ 0 then (body ⟨st, ix, m⟩).bind (beginWhile cond body fuel) else .ok ⟨st, ix, m⟩
      | _ => .error .stackUnderflow

/-! ## Evaluation -/

section
variable (x y z u c : ℤ) (st ix : List ℤ) (m : μ) (a b : Word μ)

@[simp] theorem lit_apply : lit x ⟨st, ix, m⟩ = .ok ⟨x :: st, ix, m⟩ := rfl
@[simp] theorem dup_apply : dup ⟨x :: st, ix, m⟩ = .ok ⟨x :: x :: st, ix, m⟩ := rfl
@[simp] theorem drop_apply : drop ⟨x :: st, ix, m⟩ = .ok ⟨st, ix, m⟩ := rfl
@[simp] theorem swap_apply : swap ⟨x :: y :: st, ix, m⟩ = .ok ⟨y :: x :: st, ix, m⟩ := rfl
@[simp] theorem over_apply : «over» ⟨x :: y :: st, ix, m⟩ = .ok ⟨y :: x :: y :: st, ix, m⟩ := rfl
@[simp] theorem rot_apply :
    rot ⟨x :: y :: z :: st, ix, m⟩ = .ok ⟨z :: x :: y :: st, ix, m⟩ := rfl
@[simp] theorem minusRot_apply :
    minusRot ⟨x :: y :: z :: st, ix, m⟩ = .ok ⟨y :: z :: x :: st, ix, m⟩ := rfl
@[simp] theorem twoDup_apply :
    twoDup ⟨x :: y :: st, ix, m⟩ = .ok ⟨x :: y :: x :: y :: st, ix, m⟩ := rfl
@[simp] theorem twoDrop_apply : twoDrop ⟨x :: y :: st, ix, m⟩ = .ok ⟨st, ix, m⟩ := rfl
@[simp] theorem threeDrop_apply : threeDrop ⟨x :: y :: z :: st, ix, m⟩ = .ok ⟨st, ix, m⟩ := rfl
@[simp] theorem depth_apply : depth ⟨st, ix, m⟩ = .ok ⟨st.length :: st, ix, m⟩ := rfl

theorem pick_apply (h : 0 ≤ u) (hx : st[u.toNat]? = some x) :
    pick ⟨u :: st, ix, m⟩ = .ok ⟨x :: st, ix, m⟩ := by
  simp [pick, h.not_gt, hx]

@[simp] theorem add_apply : add ⟨y :: x :: st, ix, m⟩ = .ok ⟨(x + y) :: st, ix, m⟩ := rfl
@[simp] theorem sub_apply : sub ⟨y :: x :: st, ix, m⟩ = .ok ⟨(x - y) :: st, ix, m⟩ := rfl
@[simp] theorem mul_apply : mul ⟨y :: x :: st, ix, m⟩ = .ok ⟨(x * y) :: st, ix, m⟩ := rfl
@[simp] theorem div_apply : div ⟨y :: x :: st, ix, m⟩ = .ok ⟨x.fdiv y :: st, ix, m⟩ := rfl
@[simp] theorem eq_apply : eq ⟨y :: x :: st, ix, m⟩ = .ok ⟨flag (x = y) :: st, ix, m⟩ := rfl
@[simp] theorem less_apply : less ⟨y :: x :: st, ix, m⟩ = .ok ⟨flag (x < y) :: st, ix, m⟩ := rfl
@[simp] theorem greater_apply :
    greater ⟨y :: x :: st, ix, m⟩ = .ok ⟨flag (x > y) :: st, ix, m⟩ := rfl
@[simp] theorem between_apply :
    between ⟨y :: x :: z :: st, ix, m⟩ = .ok ⟨flag (x ≤ z ∧ z ≤ y) :: st, ix, m⟩ := rfl
@[simp] theorem negate_apply : negate ⟨x :: st, ix, m⟩ = .ok ⟨-x :: st, ix, m⟩ := rfl

@[simp] theorem cr_apply (s : State μ) : cr s = .ok s := rfl
@[simp] theorem dotQuote_apply (text : String) (s : State μ) : dotQuote text s = .ok s := rfl

@[simp] theorem fetch_apply (v : μ → ℤ) : fetch v ⟨st, ix, m⟩ = .ok ⟨v m :: st, ix, m⟩ := rfl
@[simp] theorem store_apply (v : ℤ → μ → μ) :
    store v ⟨x :: st, ix, m⟩ = .ok ⟨st, ix, v x m⟩ := rfl
@[simp] theorem i_apply : i ⟨st, x :: ix, m⟩ = .ok ⟨x :: st, x :: ix, m⟩ := rfl

@[simp] theorem ifElse_flag (p : Prop) [Decidable p] :
    ifElse a b ⟨flag p :: st, ix, m⟩ = if p then a ⟨st, ix, m⟩ else b ⟨st, ix, m⟩ := by
  by_cases h : p <;> simp [ifElse, flag, h]

end

/-! ## Loops -/

/-- **The rule for counted loops.**  A body that keeps `I` and counts up by one, or down by one,
is run a number of times that is at most the number of values of a cell. -/
theorem loopFrom_invariant {I : μ → Prop} {body : Word μ} {st ix : List ℤ} {d : ℤ}
    (hd : d = 1 ∨ d = -1)
    (hbody : ∀ n m, I m → ∃ m', body ⟨st, n :: ix, m⟩ = .ok ⟨d :: st, n :: ix, m'⟩ ∧ I m')
    (fuel : ℕ) : ∀ (distance n : ℤ) (m : μ), I m → 0 ≤ distance → distance < cellRange →
      (if d = 1 then cellRange - distance else distance + 1) ≤ fuel →
      ∃ m', loopFrom body fuel distance ⟨st, n :: ix, m⟩ = .ok ⟨st, ix, m'⟩ ∧ I m' := by
  induction fuel with
  | zero =>
    intro distance n m _ h0 hlt hfuel
    rcases hd with rfl | rfl <;> simp at hfuel <;> omega
  | succ fuel ih =>
    intro distance n m hm h0 hlt hfuel
    obtain ⟨m₁, hb, hm₁⟩ := hbody n m hm
    by_cases hgo : 0 ≤ distance + d ∧ distance + d < cellRange
    · obtain ⟨m', hr, hm'⟩ := ih (distance + d) (n + d) m₁ hm₁ hgo.1 hgo.2 (by
        rcases hd with rfl | rfl <;> simp at hfuel ⊢ <;> omega)
      exact ⟨m', by simp only [loopFrom, hb, ok_bind, if_pos hgo, hr], hm'⟩
    · exact ⟨m₁, by simp only [loopFrom, hb, ok_bind, if_neg hgo], hm₁⟩

/-- The rule for `do … +loop`. -/
theorem doPlusLoop_invariant {I : μ → Prop} {body : Word μ} {st ix : List ℤ} {d : ℤ}
    (hd : d = 1 ∨ d = -1)
    (hbody : ∀ n m, I m → ∃ m', body ⟨st, n :: ix, m⟩ = .ok ⟨d :: st, n :: ix, m'⟩ ∧ I m')
    {fuel : ℕ} (hfuel : cellRange ≤ fuel) (start limit : ℤ) {m : μ} (hm : I m) :
    ∃ m', doPlusLoop fuel body ⟨start :: limit :: st, ix, m⟩ = .ok ⟨st, ix, m'⟩ ∧ I m' := by
  have hpos : (0 : ℤ) < cellRange := by decide
  have h0 := Int.emod_nonneg (start - limit) hpos.ne'
  have hlt := Int.emod_lt_of_pos (start - limit) hpos
  refine loopFrom_invariant hd hbody fuel _ start m hm h0 hlt ?_
  split_ifs <;> omega

/-- The rule for `do … loop`. -/
theorem doLoop_invariant {I : μ → Prop} {body : Word μ} {st ix : List ℤ}
    (hbody : ∀ n m, I m → ∃ m', body ⟨st, n :: ix, m⟩ = .ok ⟨st, n :: ix, m'⟩ ∧ I m')
    {fuel : ℕ} (hfuel : cellRange ≤ fuel) (start limit : ℤ) {m : μ} (hm : I m) :
    ∃ m', doLoop fuel body ⟨start :: limit :: st, ix, m⟩ = .ok ⟨st, ix, m'⟩ ∧ I m' := by
  refine doPlusLoop_invariant (.inl rfl) (fun n m hm ↦ ?_) hfuel start limit hm
  obtain ⟨m', hb, hm'⟩ := hbody n m hm
  exact ⟨m', by rw [words_cons, hb]; rfl, hm'⟩

/-- What every turn of a counted loop does to the memory, the loop has done when it is left. -/
theorem loopFrom_ok {R : μ → μ → Prop} (htrans : ∀ {m₁ m₂ m₃}, R m₁ m₂ → R m₂ m₃ → R m₁ m₃)
    {body : Word μ} {st ix : List ℤ}
    (hbody : ∀ n m s, body ⟨st, n :: ix, m⟩ = .ok s → ∃ d m', s = ⟨d :: st, n :: ix, m'⟩ ∧ R m m')
    {fuel : ℕ} {distance n : ℤ} {m : μ} {t : State μ}
    (h : loopFrom body fuel distance ⟨st, n :: ix, m⟩ = .ok t) : R m t.mem := by
  induction fuel generalizing distance n m with
  | zero => cases h
  | succ fuel ih =>
    rw [loopFrom] at h
    cases hb : body ⟨st, n :: ix, m⟩ with
    | error fault =>
      rw [hb] at h
      cases h
    | ok s =>
      obtain ⟨d, m', rfl, hR⟩ := hbody n m s hb
      rw [hb, ok_bind] at h
      by_cases hgo : 0 ≤ distance + d ∧ distance + d < cellRange
      · simp only [if_pos hgo] at h
        exact htrans hR (ih h)
      · simp only [if_neg hgo] at h
        cases h
        exact hR

/-- The same of `do … loop`, which has run its body once at least. -/
theorem doLoop_ok {R : μ → μ → Prop} (htrans : ∀ {m₁ m₂ m₃}, R m₁ m₂ → R m₂ m₃ → R m₁ m₃)
    {body : Word μ} {st ix : List ℤ}
    (hbody : ∀ n m s, body ⟨st, n :: ix, m⟩ = .ok s → ∃ m', s = ⟨st, n :: ix, m'⟩ ∧ R m m')
    {fuel : ℕ} {start limit : ℤ} {m : μ} {t : State μ}
    (h : doLoop fuel body ⟨start :: limit :: st, ix, m⟩ = .ok t) : R m t.mem := by
  rw [doLoop, doPlusLoop] at h
  refine loopFrom_ok (R := R) htrans (fun n m s hs ↦ ?_) h
  rw [words_cons] at hs
  cases hb : body ⟨st, n :: ix, m⟩ with
  | error fault =>
    rw [hb] at hs
    cases hs
  | ok s' =>
    obtain ⟨m', rfl, hR⟩ := hbody n m s' hb
    rw [hb, ok_bind] at hs
    cases hs
    exact ⟨1, m', rfl, hR⟩

section
variable {cond body : Word μ} {s s' : State μ} {c : ℤ} {st ix : List ℤ} {m : μ}

/-- One more turn. -/
theorem beginWhile_true (hc : cond s = .ok ⟨c :: st, ix, m⟩) (h : c ≠ 0)
    (hb : body ⟨st, ix, m⟩ = .ok s') (fuel : ℕ) :
    beginWhile cond body (fuel + 1) s = beginWhile cond body fuel s' := by
  simp only [beginWhile, hc, ok_bind, if_pos h, hb]

/-- The end. -/
theorem beginWhile_false (hc : cond s = .ok ⟨0 :: st, ix, m⟩) (fuel : ℕ) :
    beginWhile cond body (fuel + 1) s = .ok ⟨st, ix, m⟩ := by
  simp [beginWhile, hc, ok_bind]

end

/-- A loop that is left has been left by its condition. -/
theorem exists_of_beginWhile {cond body : Word μ} {fuel : ℕ} {s t : State μ}
    (h : beginWhile cond body fuel s = .ok t) :
    ∃ s', cond s' = .ok ⟨0 :: t.stack, t.index, t.mem⟩ := by
  induction fuel generalizing s with
  | zero => cases h
  | succ fuel ih =>
    rw [beginWhile] at h
    cases hcond : cond s with
    | error fault =>
      rw [hcond] at h
      cases h
    | ok r =>
      obtain ⟨st, ix, m⟩ := r
      rw [hcond, ok_bind] at h
      cases st with
      | nil => cases h
      | cons c st =>
        by_cases hc : c ≠ 0
        · simp only [if_pos hc] at h
          cases hbody : body ⟨st, ix, m⟩ with
          | error fault =>
            rw [hbody] at h
            cases h
          | ok s₁ =>
            rw [hbody, ok_bind] at h
            exact ih h
        · simp only [if_neg hc] at h
          cases h
          rw [not_not] at hc
          exact ⟨s, by rw [hcond, hc]⟩

end Forth
