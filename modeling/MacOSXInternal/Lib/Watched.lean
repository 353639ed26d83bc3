import MacOSXInternal.Lib.Forth

/-!
# Watching a Forth word

A word says where it leads to, and nothing about what it does on the way.  A watched word also says
which words of interest it calls, in which order, and in which state each call is made.

* The combinators are those of `Lib.Forth`; `call` is the one that leaves a note.
* `erase` forgets the notes.  `erase_words` and its like say that what is left is the word itself,
  so that whatever is found out by watching is true of the word.
* `Does P w s t` says that `w` leads from `s` to `t`, and makes every call in a state with `P`.  The
  rules for it follow the shape of the word.
-/

set_option autoImplicit false

namespace Forth

variable {ν μ : Type}

/-- The calls, in order, each with its state; and the result. -/
abbrev Watched (ν μ : Type) := State μ → List (ν × State μ) × Except Fault (State μ)

namespace Watched

/-! ## Words -/

/-- What has happened so far, and then `w`. -/
def bind (r : List (ν × State μ) × Except Fault (State μ)) (w : Watched ν μ) :
    List (ν × State μ) × Except Fault (State μ) :=
  match r.2 with
  | .ok s => (r.1 ++ (w s).1, (w s).2)
  | .error fault => (r.1, .error fault)

/-- Words nobody watches. -/
def plain (ws : List (Word μ)) : Watched ν μ := fun s ↦ ([], Forth.words ws s)

/-- A call of interest. -/
def call (name : ν) (w : Watched ν μ) : Watched ν μ := fun s ↦ ((name, s) :: (w s).1, (w s).2)

def words : List (Watched ν μ) → Watched ν μ
  | [], s => ([], .ok s)
  | w :: ws, s => bind (w s) (words ws)

def ifElse (a b : Watched ν μ) : Watched ν μ
  | ⟨c :: st, ix, m⟩ => if c ≠ 0 then a ⟨st, ix, m⟩ else b ⟨st, ix, m⟩
  | _ => ([], .error .stackUnderflow)

def loopFrom (body : Watched ν μ) : ℕ → ℤ → Watched ν μ
  | 0, _, _ => ([], .error .outOfFuel)
  | fuel + 1, distance, s =>
    bind (body s) fun
      | ⟨d :: st, n :: ix, m⟩ =>
        if 0 ≤ distance + d ∧ distance + d < cellRange then
          loopFrom body fuel (distance + d) ⟨st, (n + d) :: ix, m⟩
        else ([], .ok ⟨st, ix, m⟩)
      | _ => ([], .error .stackUnderflow)

def doLoop (fuel : ℕ) (body : Watched ν μ) : Watched ν μ
  | ⟨start :: limit :: st, ix, m⟩ =>
    loopFrom (words [body, plain [lit 1]]) fuel ((start - limit) % cellRange) ⟨st, start :: ix, m⟩
  | _ => ([], .error .stackUnderflow)

def doPlusLoop (fuel : ℕ) (body : Watched ν μ) : Watched ν μ
  | ⟨start :: limit :: st, ix, m⟩ =>
    loopFrom body fuel ((start - limit) % cellRange) ⟨st, start :: ix, m⟩
  | _ => ([], .error .stackUnderflow)

def beginWhile (cond : Word μ) (body : Watched ν μ) : ℕ → Watched ν μ
  | 0, _ => ([], .error .outOfFuel)
  | fuel + 1, s =>
    bind (plain [cond] s) fun
      | ⟨c :: st, ix, m⟩ =>
        if c ≠ 0 then bind (body ⟨st, ix, m⟩) (beginWhile cond body fuel)
        else ([], .ok ⟨st, ix, m⟩)
      | _ => ([], .error .stackUnderflow)

/-! ## What is watched -/

/-- The word that is watched. -/
def erase (w : Watched ν μ) : Word μ := fun s ↦ (w s).2

theorem erase_eq {w : Watched ν μ} {s : State μ} {calls : List (ν × State μ)}
    {r : Except Fault (State μ)} (h : w s = (calls, r)) : erase w s = r := by
  rw [erase, h]

theorem erase_bind (r : List (ν × State μ) × Except Fault (State μ)) (w : Watched ν μ) :
    (bind r w).2 = r.2.bind (erase w) := by
  obtain ⟨calls, result⟩ := r
  cases result <;> rfl

@[simp] theorem erase_plain (ws : List (Word μ)) :
    erase (plain ws : Watched ν μ) = Forth.words ws := rfl

@[simp] theorem erase_call (name : ν) (w : Watched ν μ) : erase (call name w) = erase w := rfl

@[simp] theorem erase_words (ws : List (Watched ν μ)) :
    erase (words ws) = Forth.words (ws.map erase) := by
  induction ws with
  | nil => rfl
  | cons w ws ih =>
    funext s
    rw [List.map_cons, words_cons, ← ih]
    exact erase_bind ..

@[simp] theorem erase_ifElse (a b : Watched ν μ) :
    erase (ifElse a b) = Forth.ifElse (erase a) (erase b) := by
  funext ⟨st, ix, m⟩
  cases st with
  | nil => rfl
  | cons c st =>
    simp only [erase, ifElse, Forth.ifElse]
    split_ifs <;> rfl

theorem erase_loopFrom (body : Watched ν μ) (fuel : ℕ) (distance : ℤ) :
    erase (loopFrom body fuel distance) = Forth.loopFrom (erase body) fuel distance := by
  induction fuel generalizing distance with
  | zero => rfl
  | succ fuel ih =>
    funext s
    refine (erase_bind ..).trans ?_
    rw [Forth.loopFrom]
    congr 1
    funext t
    obtain ⟨st, ix, m⟩ := t
    rcases st with _ | ⟨d, st⟩ <;> rcases ix with _ | ⟨n, ix⟩ <;> try rfl
    simp only [erase]
    split_ifs
    · rw [← ih]
      rfl
    · rfl

@[simp] theorem erase_doPlusLoop (fuel : ℕ) (body : Watched ν μ) :
    erase (doPlusLoop fuel body) = Forth.doPlusLoop fuel (erase body) := by
  funext ⟨st, ix, m⟩
  rcases st with _ | ⟨start, _ | ⟨limit, st⟩⟩ <;> try rfl
  simp only [Forth.doPlusLoop, ← erase_loopFrom]
  rfl

theorem doLoop_eq (fuel : ℕ) (body : Watched ν μ) :
    doLoop fuel body = doPlusLoop fuel (words [body, plain [lit 1]]) := by
  funext ⟨st, ix, m⟩
  rcases st with _ | ⟨start, _ | ⟨limit, st⟩⟩ <;> rfl

@[simp] theorem erase_doLoop (fuel : ℕ) (body : Watched ν μ) :
    erase (doLoop fuel body) = Forth.doLoop fuel (erase body) := by
  have hbody : erase (words [body, plain [lit 1]]) = Forth.words [erase body, lit 1] := by
    simp only [erase_words, List.map_cons, List.map_nil, erase_plain, words_cons_eq, seq_assoc,
      words_nil_seq]
  rw [doLoop_eq, erase_doPlusLoop, hbody, Forth.doLoop]

@[simp] theorem erase_beginWhile (cond : Word μ) (body : Watched ν μ) (fuel : ℕ) :
    erase (beginWhile cond body fuel) = Forth.beginWhile cond (erase body) fuel := by
  induction fuel with
  | zero => rfl
  | succ fuel ih =>
    funext s
    refine (erase_bind ..).trans ?_
    have hcond : (plain [cond] s : List (ν × State μ) × Except Fault (State μ)).2 = cond s := by
      simp [plain]
    rw [Forth.beginWhile, hcond]
    congr 1
    funext t
    obtain ⟨st, ix, m⟩ := t
    cases st with
    | nil => rfl
    | cons c st =>
      simp only [erase]
      split_ifs
      · rw [← ih]
        exact erase_bind ..
      · rfl

/-! ## Rules -/

/-- From `s` the word leads to `t`, and it makes every call in a state with `P`. -/
structure Does (P : ν → State μ → Prop) (w : Watched ν μ) (s t : State μ) : Prop where
  result : (w s).2 = .ok t
  calls : ∀ c ∈ (w s).1, P c.1 c.2

variable {P : ν → State μ → Prop} {w a b body : Watched ν μ} {ws : List (Watched ν μ)}
  {s t u : State μ} {st ix : List ℤ} {m : μ}

/-- What it does is what the word does. -/
theorem Does.erase (h : Does P w s t) : Watched.erase w s = .ok t := h.result

theorem Does.plain {ws : List (Word μ)} (h : Forth.words ws s = .ok t) :
    Does P (plain ws) s t where
  result := h
  calls := nofun

theorem Does.call {name : ν} (hP : P name s) (h : Does P w s t) : Does P (call name w) s t where
  result := h.result
  calls := List.forall_mem_cons.mpr ⟨hP, h.calls⟩

/-- A word that is known to make one call. -/
theorem Does.of_eq {name : ν} (h : w s = ([(name, t)], .ok u)) (hP : P name t) : Does P w s u where
  result := by rw [h]
  calls := by
    rw [h]
    exact List.forall_mem_singleton.mpr hP

theorem Does.bind {r : List (ν × State μ) × Except Fault (State μ)} (hr : r.2 = .ok t)
    (hcalls : ∀ c ∈ r.1, P c.1 c.2) (h : Does P w t u) :
    (bind r w).2 = .ok u ∧ ∀ c ∈ (bind r w).1, P c.1 c.2 := by
  rw [Watched.bind, hr]
  exact ⟨h.result, List.forall_mem_append.mpr ⟨hcalls, h.calls⟩⟩

theorem Does.nil : Does P (words []) s s where
  result := rfl
  calls := nofun

theorem Does.cons (h : Does P w s t) (h' : Does P (words ws) t u) : Does P (words (w :: ws)) s u :=
  have hbind := Does.bind h.result h.calls h'
  ⟨hbind.1, hbind.2⟩

theorem Does.ifElse_true {c : ℤ} (hc : c ≠ 0) (h : Does P a ⟨st, ix, m⟩ t) :
    Does P (ifElse a b) ⟨c :: st, ix, m⟩ t where
  result := by
    rw [ifElse, if_pos hc]
    exact h.result
  calls := by
    rw [ifElse, if_pos hc]
    exact h.calls

theorem Does.ifElse_false (h : Does P b ⟨st, ix, m⟩ t) :
    Does P (ifElse a b) ⟨0 :: st, ix, m⟩ t where
  result := h.result
  calls := h.calls

section
variable {cond : Word μ}

/-- One more turn. -/
theorem Does.beginWhile_true {c : ℤ} (hcond : cond s = .ok ⟨c :: st, ix, m⟩) (hc : c ≠ 0)
    (h : Does P body ⟨st, ix, m⟩ t) {fuel : ℕ} (h' : Does P (beginWhile cond body fuel) t u) :
    Does P (beginWhile cond body (fuel + 1)) s u := by
  have hbind := Does.bind h.result h.calls h'
  have hturn : beginWhile cond body (fuel + 1) s =
      Watched.bind (body ⟨st, ix, m⟩) (beginWhile cond body fuel) := by
    simp [beginWhile, Watched.bind, Watched.plain, hcond, hc]
  exact ⟨hturn ▸ hbind.1, hturn ▸ hbind.2⟩

/-- The end. -/
theorem Does.beginWhile_false (hcond : cond s = .ok ⟨0 :: st, ix, m⟩) (fuel : ℕ) :
    Does P (beginWhile cond body (fuel + 1)) s ⟨st, ix, m⟩ := by
  have hturn : beginWhile cond body (fuel + 1) s = ([], .ok ⟨st, ix, m⟩) := by
    simp [beginWhile, Watched.bind, Watched.plain, hcond]
  constructor
  · rw [hturn]
  · rw [hturn]
    exact nofun

end

/-- Some words, and then a call. -/
theorem words_plain_call {ws ws' : List (Word μ)} {name : ν} (h : Forth.words ws s = .ok t)
    (h' : Forth.words ws' t = .ok u) :
    words [plain ws, call name (plain ws')] s = ([(name, t)], .ok u) := by
  simp [words, bind, plain, call, h, h']

theorem ifElse_zero (a b : Watched ν μ) (st ix : List ℤ) (m : μ) :
    ifElse a b ⟨0 :: st, ix, m⟩ = b ⟨st, ix, m⟩ := rfl

/-! A call that has been made stays noted. -/

theorem mem_words_head {c : ν × State μ} (h : c ∈ (w s).1) : c ∈ (words (w :: ws) s).1 := by
  rw [words, bind]
  cases (w s).2 with
  | ok t => exact List.mem_append_left _ h
  | error fault => exact h

theorem mem_words_tail {c : ν × State μ} (hw : (w s).2 = .ok t) (h : c ∈ (words ws t).1) :
    c ∈ (words (w :: ws) s).1 := by
  rw [words, bind, hw]
  exact List.mem_append_right _ h

/-! ## Counted loops -/

/-- How far the index of a loop that counts by `d` is from the limit, with more than `r` turns to
go. -/
def toGo (d : ℤ) (r : ℕ) : ℤ := if d = 1 then cellRange - (r + 1) else r

section
variable {I : ℕ → List (ν × State μ) → μ → Prop} {d start : ℤ} {k : ℕ} (hd : d = 1 ∨ d = -1)
  (hbody : ∀ j < k, ∀ calls m, I j calls m → ∃ c m',
    body ⟨st, (start + d * j) :: ix, m⟩ = (c, .ok ⟨d :: st, (start + d * j) :: ix, m'⟩) ∧
      I (j + 1) (calls ++ c) m')
  (hle : k ≤ cellRange)
include hd hbody hle

/-- A counted loop that has more than `r` turns to go. -/
theorem loopFrom_run (r : ℕ) {j fuel : ℕ} (hr : j + (r + 1) = k) (hfuel : r < fuel)
    {calls : List (ν × State μ)} {m : μ} (hm : I j calls m) :
    ∃ c m', loopFrom body fuel (toGo d r) ⟨st, (start + d * j) :: ix, m⟩ =
        (c, .ok ⟨st, ix, m'⟩) ∧ I k (calls ++ c) m' := by
  obtain ⟨fuel, rfl⟩ : ∃ i, fuel = i + 1 := ⟨fuel - 1, by omega⟩
  induction r generalizing j fuel calls m with
  | zero =>
    obtain ⟨c, m₁, hturn, hm₁⟩ := hbody j (by omega) calls m hm
    have hstop : ¬ (0 ≤ toGo d 0 + d ∧ toGo d 0 + d < cellRange) := by
      rcases hd with rfl | rfl <;> simp [toGo]
    refine ⟨c, m₁, ?_, hr ▸ hm₁⟩
    simp only [loopFrom, hturn, bind, if_neg hstop, List.append_nil]
  | succ r ih =>
    obtain ⟨c, m₁, hturn, hm₁⟩ := hbody j (by omega) calls m hm
    obtain ⟨fuel, rfl⟩ : ∃ i, fuel = i + 1 := ⟨fuel - 1, by omega⟩
    have hr' : j + 1 + (r + 1) = k := by omega
    have hfuel' : r < fuel + 1 := by omega
    obtain ⟨c', m', hrest, hm'⟩ := ih hr' hm₁ fuel hfuel'
    have hnext : toGo d (r + 1) + d = toGo d r := by
      rcases hd with rfl | rfl
      · simp [toGo]
        omega
      · simp [toGo]
    have hgo : 0 ≤ toGo d r ∧ toGo d r < cellRange := by
      rw [toGo]
      split_ifs <;> omega
    have hindex : start + d * j + d = start + d * (j + 1 : ℕ) := by
      rw [Nat.cast_succ, mul_add, mul_one, add_assoc]
    refine ⟨c ++ c', m', ?_, List.append_assoc .. ▸ hm'⟩
    rw [loopFrom, hturn, bind]
    simp only [hnext, if_pos hgo, hindex, hrest]

/-- **The rule for counted loops that run their distance**: the body is run once for each index, up
or down. -/
theorem doPlusLoop_run {limit : ℤ} (hlimit : limit = if d = 1 then start + k else start - (k - 1))
    (hpos : 0 < k) {fuel : ℕ} (hfuel : k ≤ fuel) {m : μ} (hm : I 0 [] m) :
    ∃ c m', doPlusLoop fuel body ⟨start :: limit :: st, ix, m⟩ = (c, .ok ⟨st, ix, m'⟩) ∧
      I k c m' := by
  obtain ⟨r, rfl⟩ : ∃ r, k = r + 1 := ⟨k - 1, by omega⟩
  obtain ⟨c, m', hrun, hm'⟩ := loopFrom_run hd hbody hle r (Nat.zero_add _) hfuel hm
  have hdist : (start - limit) % cellRange = toGo d r := by
    have hcell : (0 : ℤ) < cellRange := by decide
    rw [Nat.cast_succ] at hle hlimit
    rcases hd with rfl | rfl
    · rw [hlimit, if_pos rfl, toGo, if_pos rfl, ← Int.add_emod_right, Int.emod_eq_of_lt] <;> omega
    · rw [hlimit, if_neg (by decide), toGo, if_neg (by decide), Int.emod_eq_of_lt] <;> omega
  rw [Nat.cast_zero, mul_zero, add_zero] at hrun
  exact ⟨c, m', by rw [doPlusLoop, hdist, hrun], hm'⟩

end

/-- The rule for loops that count up, for what the body does. -/
theorem Does.doLoop {I : ℕ → μ → Prop} {start : ℤ} {k : ℕ}
    (hbody : ∀ j < k, ∀ m, I j m → ∃ m', Does P body ⟨st, (start + j) :: ix, m⟩
      ⟨st, (start + j) :: ix, m'⟩ ∧ I (j + 1) m')
    (hpos : 0 < k) (hle : k ≤ cellRange) {fuel : ℕ} (hfuel : k ≤ fuel) {m : μ} (hm : I 0 m) :
    ∃ m', Does P (doLoop fuel body) ⟨start :: (start + k) :: st, ix, m⟩ ⟨st, ix, m'⟩ ∧
      I k m' := by
  have hturn : ∀ j < k, ∀ (calls : List (ν × State μ)) (m : μ),
      ((∀ c ∈ calls, P c.1 c.2) ∧ I j m) → ∃ new m',
        words [body, Watched.plain [lit 1]] ⟨st, (start + 1 * j) :: ix, m⟩ =
          (new, .ok ⟨1 :: st, (start + 1 * j) :: ix, m'⟩) ∧
        (∀ c ∈ calls ++ new, P c.1 c.2) ∧ I (j + 1) m' := by
    intro j hj calls m ⟨hcalls, hm⟩
    obtain ⟨m', hdo, hm'⟩ := hbody j hj m hm
    have hlit : Forth.words [lit 1] ⟨st, (start + j) :: ix, m'⟩ =
        .ok ⟨1 :: st, (start + j) :: ix, m'⟩ := by simp
    have hcount : Does P (words [body, Watched.plain [lit 1]]) ⟨st, (start + j) :: ix, m⟩
        ⟨1 :: st, (start + j) :: ix, m'⟩ := hdo.cons (.cons (.plain hlit) .nil)
    rw [one_mul]
    exact ⟨_, m', Prod.ext rfl hcount.result, List.forall_mem_append.mpr ⟨hcalls, hcount.calls⟩,
      hm'⟩
  obtain ⟨c, m', hrun, hcalls, hm'⟩ := doPlusLoop_run
    (I := fun j calls m ↦ (∀ c ∈ calls, P c.1 c.2) ∧ I j m) (.inl rfl) hturn hle (if_pos rfl).symm
    hpos hfuel ⟨nofun, hm⟩
  rw [← doLoop_eq] at hrun
  exact ⟨m', ⟨by rw [hrun], by rw [hrun]; exact hcalls⟩, hm'⟩

end Watched

/-- The rule for loops that count up, for words nobody watches. -/
theorem doLoop_run {I : ℕ → μ → Prop} {body : Word μ} {st ix : List ℤ} {start : ℤ} {k : ℕ}
    (hbody : ∀ j < k, ∀ m, I j m → ∃ m', body ⟨st, (start + j) :: ix, m⟩ =
      .ok ⟨st, (start + j) :: ix, m'⟩ ∧ I (j + 1) m')
    (hpos : 0 < k) (hle : k ≤ cellRange) {fuel : ℕ} (hfuel : k ≤ fuel) {m : μ} (hm : I 0 m) :
    ∃ m', doLoop fuel body ⟨start :: (start + k) :: st, ix, m⟩ = .ok ⟨st, ix, m'⟩ ∧ I k m' := by
  have hbody' (j : ℕ) (hj : j < k) (m : μ) (hm : I j m) :
      ∃ m', Watched.Does (fun (_ : Unit) _ ↦ True) (.plain [body]) ⟨st, (start + j) :: ix, m⟩
        ⟨st, (start + j) :: ix, m'⟩ ∧ I (j + 1) m' := by
    obtain ⟨m', hb, hm'⟩ := hbody j hj m hm
    exact ⟨m', .plain (by rw [words_cons, hb, bind_words_nil]), hm'⟩
  obtain ⟨m', hloop, hm'⟩ := Watched.Does.doLoop hbody' hpos hle hfuel hm
  have hone : words [body] = body := by rw [words_cons_eq, seq_words_nil]
  have hrun := hloop.erase
  rw [Watched.erase_doLoop, Watched.erase_plain, hone] at hrun
  exact ⟨m', hrun, hm'⟩

end Forth
