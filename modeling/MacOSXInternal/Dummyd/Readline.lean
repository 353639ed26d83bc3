import MacOSXInternal.Lib.ByteOrder
import MacOSXInternal.Lib.Splice

/-!
# `readline`, in `dummyd.c`

`readline` reads from a descriptor, one byte at a time, into a buffer.  The variable `n` of its loop
counts the turns, which are the calls of `read`, and is what it returns.

* `readline` is the function, over what the calls of `read` will return.  When nothing is left of
  that, the descriptor is at end of file.
* `line` says what happens in a number of turns without buffer and pointer: which bytes are stored,
  how many calls there are, and what ends the loop.
* `readline_eq` says that this is what the function does, for every buffer of the length it is told.
-/

set_option autoImplicit false

namespace MacOSXInternal
namespace Dummyd

open Splice

/-! ## The function -/

/-- What a call `read(fd, &c, 1)` returns. -/
inductive Read
  | byte (c : Byte)
  | eof
  /-- `-1` with `EINTR`. -/
  | interrupted
  /-- `-1` with another error. -/
  | error
  deriving DecidableEq, Repr

def newline : Byte := 0x0a

/-- The variables of `readline`, the buffer, and the calls of `read` to come and made.  `bp` is an
index into the buffer. -/
structure Vars where
  n : ℕ
  bp : ℕ
  buffer : List Byte
  input : List Read
  made : List Read
  deriving DecidableEq, Repr

namespace Vars

/-- A call of `read`. -/
def read (v : Vars) : Read × Vars :=
  match v.input with
  | [] => (.eof, { v with made := v.made ++ [.eof] })
  | r :: input => (r, { v with input := input, made := v.made ++ [r] })

/-- `n++`. -/
def next (v : Vars) : Vars := { v with n := v.n + 1 }

/-- `*bp = c`.  Behind the buffer it is undefined. -/
def store (v : Vars) (c : Byte) : Option Vars :=
  if v.bp < v.buffer.length then some { v with buffer := v.buffer.set v.bp c } else none

/-- `n`, as the function returns it. -/
def ret (v : Vars) : ℤ := (BitVec.ofNat 32 v.n).toInt

end Vars

/-- What follows the loop. -/
def finish (v : Vars) : Option (ℤ × Vars) := do
  let v ← v.store 0
  return (v.ret, v)

/-- The loop, by the number of turns up to `maxlen`. -/
def turns : ℕ → Vars → Option (ℤ × Vars)
  | 0, v => finish v
  | k + 1, v =>
    match v.read with
    | (.byte c, v) => do
      let v ← v.store c
      let v := { v with bp := v.bp + 1 }
      if c = newline then finish v else turns k v.next
    | (.eof, v) => if v.n = 1 then some (0, v) else finish v
    -- the `continue` counts the turn as well
    | (.interrupted, v) => turns k v.next
    | (.error, v) => some (-1, v)

/-- `readline`. -/
def readline (input : List Read) (buffer : List Byte) (maxlen : ℕ) : Option (ℤ × Vars) :=
  turns (maxlen - 1) ⟨1, 0, buffer, input, []⟩

/-! ## What it does -/

/-- What ends the loop. -/
inductive Exit
  | newline
  | eof
  | full
  | error
  deriving DecidableEq, Repr

/-- What happens in the loop. -/
structure Line where
  stored : List Byte
  made : List Read
  exit : Exit
  rest : List Read
  deriving DecidableEq, Repr

/-- A turn in front of the others, which has stored a byte or none. -/
def Line.after (l : Line) (r : Read) (stored : List Byte) : Line :=
  { l with stored := stored ++ l.stored, made := r :: l.made }

/-- What happens in at most the given number of turns. -/
def line : ℕ → List Read → Line
  | 0, input => ⟨[], [], .full, input⟩
  | _ + 1, [] => ⟨[], [.eof], .eof, []⟩
  | _ + 1, .eof :: input => ⟨[], [.eof], .eof, input⟩
  | _ + 1, .error :: input => ⟨[], [.error], .error, input⟩
  | k + 1, .interrupted :: input => (line k input).after .interrupted []
  | k + 1, .byte c :: input =>
    if c = newline then ⟨[c], [.byte c], .newline, input⟩ else (line k input).after (.byte c) [c]

/-- The value of `n` when the loop that was entered with `n` is left. -/
def Line.count (l : Line) (n : ℕ) : ℕ :=
  match l.exit with
  | .full => n + l.made.length
  | _ => n + l.made.length - 1

/-- The loop is left by a `return`, without storing a terminating zero. -/
def Line.returns (l : Line) (n : ℕ) : Bool := l.exit = .error ∨ l.exit = .eof ∧ l.count n = 1

/-- What the function returns. -/
def Line.ret (l : Line) (n : ℕ) : ℤ :=
  if l.returns n then if l.exit = .error then -1 else 0 else (BitVec.ofNat 32 (l.count n)).toInt

/-- What the function leaves behind. -/
def Line.vars (l : Line) (v : Vars) : Vars where
  n := l.count v.n
  bp := v.bp + l.stored.length
  buffer := splice v.buffer v.bp (if l.returns v.n then l.stored else l.stored ++ [0])
  input := l.rest
  made := v.made ++ l.made

section
variable (l : Line) (r : Read) (m : List Byte) (n : ℕ)

@[simp] theorem Line.after_exit : (l.after r m).exit = l.exit := rfl
@[simp] theorem Line.after_rest : (l.after r m).rest = l.rest := rfl
@[simp] theorem Line.after_stored : (l.after r m).stored = m ++ l.stored := rfl
@[simp] theorem Line.after_made : (l.after r m).made = r :: l.made := rfl

@[simp] theorem Line.after_count : (l.after r m).count n = l.count (n + 1) := by
  simp only [count, after_exit, after_made, List.length_cons]
  split <;> omega

@[simp] theorem Line.after_returns : (l.after r m).returns n = l.returns (n + 1) := by
  rw [returns, returns, after_exit, after_count]

@[simp] theorem Line.after_ret : (l.after r m).ret n = l.ret (n + 1) := by
  simp only [ret, after_returns, after_count]
  rfl

end

/-- The zero behind the bytes that have been stored. -/
theorem finish_eq (v : Vars) (hroom : v.bp < v.buffer.length) :
    finish v = some ((BitVec.ofNat 32 v.n).toInt,
      { v with buffer := splice v.buffer v.bp [0] }) := by
  simp only [finish, Vars.store, if_pos hroom, set_eq_splice hroom]
  rfl

/-- **The loop does what `line` says**, when the buffer has room for a byte a turn, and for the
zero. -/
theorem turns_eq (k : ℕ) (v : Vars) (hroom : v.bp + k < v.buffer.length) :
    turns k v = some ((line k v.input).ret v.n, (line k v.input).vars v) := by
  induction k generalizing v with
  | zero =>
    rw [turns, finish_eq v hroom]
    simp [line, Line.ret, Line.vars, Line.returns, Line.count]
  | succ k ih =>
    obtain ⟨n, bp, buffer, input, made⟩ := v
    simp only at hroom
    have hbp : bp < buffer.length := Nat.lt_of_le_of_lt (Nat.le_add_right ..) hroom
    match input with
    | [] =>
      by_cases hn : n = 1
      · simp [turns, Vars.read, line, Line.ret, Line.vars, Line.returns, Line.count, hn, splice]
      · simp [turns, Vars.read, line, Line.ret, Line.vars, Line.returns, Line.count, hn,
          finish_eq, hbp]
    | .eof :: input =>
      by_cases hn : n = 1
      · simp [turns, Vars.read, line, Line.ret, Line.vars, Line.returns, Line.count, hn, splice]
      · simp [turns, Vars.read, line, Line.ret, Line.vars, Line.returns, Line.count, hn,
          finish_eq, hbp]
    | .error :: input =>
      simp [turns, Vars.read, line, Line.ret, Line.vars, Line.returns, Line.count, splice]
    | .interrupted :: input =>
      have h := ih ⟨n + 1, bp, buffer, input, made ++ [.interrupted]⟩ (by simp only; omega)
      simp only [turns, Vars.read, Vars.next, h, line, Line.after_ret]
      simp [Line.vars]
    | .byte c :: input =>
      have hstore : (⟨n, bp, buffer, input, made ++ [.byte c]⟩ : Vars).store c =
          some ⟨n, bp, buffer.set bp c, input, made ++ [.byte c]⟩ := if_pos hbp
      simp only [turns, Vars.read, hstore, Option.bind_eq_bind, Option.bind_some]
      by_cases hc : c = newline
      · have hfin := finish_eq ⟨n, bp + 1, buffer.set bp c, input, made ++ [.byte c]⟩
          (by simp only [List.length_set]; omega)
        rw [if_pos hc, hfin, line, if_pos hc]
        simp [Line.ret, Line.vars, Line.returns, Line.count, splice_set hbp]
      · have h := ih ⟨n + 1, bp + 1, buffer.set bp c, input, made ++ [.byte c]⟩
          (by simp only [List.length_set]; omega)
        rw [if_neg hc, Vars.next, h, line, if_neg hc, Line.after_ret]
        simp only [Line.vars, Line.after_count, Line.after_returns, Line.after_stored,
          Line.after_rest, Line.after_made, splice_set hbp]
        simp [apply_ite (c :: ·), Nat.add_assoc, Nat.add_comm 1]

/-- `readline`, for a buffer of the length it is told. -/
theorem readline_eq (input : List Read) {buffer : List Byte} {maxlen : ℕ}
    (hlen : buffer.length = maxlen) (hpos : 0 < maxlen) :
    readline input buffer maxlen =
      some ((line (maxlen - 1) input).ret 1,
        (line (maxlen - 1) input).vars ⟨1, 0, buffer, input, []⟩) :=
  turns_eq (maxlen - 1) ⟨1, 0, buffer, input, []⟩ (by simp only; omega)

/-! ## The buffer -/

/-- The byte that a call of `read` has delivered. -/
def Read.stored : Read → Option Byte
  | .byte c => some c
  | _ => none

/-- What can be said of a number of turns, whatever ends them. -/
structure Line.Sound (k : ℕ) (input : List Read) (l : Line) : Prop where
  length_made : l.made.length ≤ k
  /-- The calls return what is there to be read; behind that is the end of the file. -/
  made_eq : l.made ++ l.rest = input ∨ l.made = input ++ [.eof] ∧ l.rest = []
  stored_eq : l.stored = l.made.filterMap Read.stored
  newline_last : newline ∉ l.stored.dropLast

variable {k : ℕ} {input : List Read} {l : Line} {r : Read}

/-- A turn in front. -/
theorem Line.Sound.after (h : l.Sound k input) (hr : r ≠ .byte newline) :
    (l.after r r.stored.toList).Sound (k + 1) (r :: input) where
  length_made := Nat.succ_le_succ h.length_made
  made_eq := by
    rcases h.made_eq with hmade | ⟨hmade, hrest⟩
    · exact .inl (by rw [after_made, after_rest, List.cons_append, hmade])
    · exact .inr ⟨by rw [after_made, hmade, List.cons_append], hrest⟩
  stored_eq := by
    rw [after_stored, after_made, h.stored_eq]
    cases r <;> rfl
  newline_last := by
    rw [after_stored]
    cases r with
    | byte c =>
      have hc : newline ≠ c := fun hc ↦ hr (by rw [hc])
      cases hs : l.stored with
      | nil => exact List.not_mem_nil
      | cons b stored =>
        have hlast := h.newline_last
        rw [hs] at hlast
        simpa [Read.stored, hc] using hlast
    | eof | interrupted | error => exact h.newline_last

theorem line_sound (k : ℕ) (input : List Read) : (line k input).Sound k input := by
  induction k generalizing input with
  | zero => exact ⟨le_refl 0, .inl rfl, rfl, List.not_mem_nil⟩
  | succ k ih =>
    match input with
    | [] => exact ⟨Nat.succ_le_succ (Nat.zero_le k), .inr ⟨rfl, rfl⟩, rfl, List.not_mem_nil⟩
    | .eof :: input | .error :: input =>
      exact ⟨Nat.succ_le_succ (Nat.zero_le k), .inl rfl, rfl, List.not_mem_nil⟩
    | .interrupted :: input => exact (ih input).after nofun
    | .byte c :: input =>
      by_cases hc : c = newline
      · rw [line, if_pos hc]
        exact ⟨Nat.succ_le_succ (Nat.zero_le k), .inl rfl, rfl, List.not_mem_nil⟩
      · rw [line, if_neg hc]
        exact (ih input).after fun h ↦ hc (Read.byte.inj h)

theorem Line.Sound.length_stored (h : l.Sound k input) : l.stored.length ≤ k := by
  rw [h.stored_eq]
  exact (List.length_filterMap_le ..).trans h.length_made

/-- **`readline` stays inside its buffer and keeps what it reads.**  Whatever the calls of `read`
return, there are fewer of them than the buffer has bytes; the bytes they deliver lie at the front
of the buffer, in order, with a newline at most at their end and, where the result is positive, a
zero behind them; and nothing further back has changed.  A store behind the buffer would have no
result. -/
theorem readline_in_bounds (input : List Read) (buffer : List Byte) (maxlen : ℕ)
    (hpos : 1 ≤ maxlen) (hlen : maxlen ≤ buffer.length) :
    ∃ ret v stored, readline input buffer maxlen = some (ret, v) ∧
      v.made.length ≤ maxlen - 1 ∧
      (v.made ++ v.input = input ∨ v.made = input ++ [.eof] ∧ v.input = []) ∧
      stored = v.made.filterMap Read.stored ∧ stored.length ≤ maxlen - 1 ∧
      v.buffer.length = buffer.length ∧
      v.buffer.take stored.length = stored ∧
      v.buffer.drop (stored.length + 1) = buffer.drop (stored.length + 1) ∧
      newline ∉ stored.dropLast ∧
      (0 < ret → v.buffer[stored.length]? = some 0) := by
  obtain ⟨l, hl⟩ : ∃ l, l = line (maxlen - 1) input := ⟨_, rfl⟩
  have hsound : l.Sound (maxlen - 1) input := hl ▸ line_sound (maxlen - 1) input
  have hstored := hsound.length_stored
  have hrun : readline input buffer maxlen =
      some (l.ret 1, l.vars ⟨1, 0, buffer, input, []⟩) := by
    rw [hl]
    exact turns_eq (maxlen - 1) ⟨1, 0, buffer, input, []⟩ (by simp only; omega)
  refine ⟨_, _, l.stored, hrun, hsound.length_made, hsound.made_eq, hsound.stored_eq, hstored, ?_⟩
  by_cases hret : l.returns 1
  · have hbuffer : (l.vars ⟨1, 0, buffer, input, []⟩).buffer =
        l.stored ++ buffer.drop l.stored.length := by
      simp [Line.vars, hret]
    have hnot : ¬ 0 < l.ret 1 := by
      rw [Line.ret, if_pos hret]
      split_ifs <;> decide
    rw [hbuffer]
    refine ⟨?_, List.take_left, ?_, hsound.newline_last, fun h ↦ absurd h hnot⟩
    · rw [List.length_append, List.length_drop]
      omega
    · rw [← List.drop_drop, List.drop_left, List.drop_drop]
  · have hbuffer : (l.vars ⟨1, 0, buffer, input, []⟩).buffer =
        l.stored ++ 0 :: buffer.drop (l.stored.length + 1) := by
      simp [Line.vars, hret]
    rw [hbuffer]
    refine ⟨?_, List.take_left, ?_, hsound.newline_last, ?_⟩
    · rw [List.length_append, List.length_cons, List.length_drop]
      omega
    · rw [← List.drop_drop, List.drop_left, List.drop_succ_cons, List.drop_zero]
    · intro _
      rw [List.getElem?_append_right (le_refl _), Nat.sub_self]
      rfl

/-- Two bytes with an interruption between them, into a buffer of four. -/
theorem readline_in_bounds_four :
    ∃ v : Vars, readline [.byte 0x61, .interrupted, .byte 0x0a] [7, 7, 7, 7] 4 = some (3, v) ∧
      v.buffer = [0x61, 0x0a, 0, 7] ∧ v.made.length ≤ 3 := by
  obtain ⟨ret, v, stored, hrun, hmade, -⟩ := readline_in_bounds
    [.byte 0x61, .interrupted, .byte 0x0a] [7, 7, 7, 7] 4 (by decide) (by decide)
  have heval : readline [.byte 0x61, .interrupted, .byte 0x0a] [7, 7, 7, 7] 4 =
      some (3, ⟨3, 2, [0x61, 0x0a, 0, 7], [], [.byte 0x61, .interrupted, .byte 0x0a]⟩) := by
    decide
  obtain ⟨rfl, rfl⟩ := Prod.mk.inj (Option.some.inj (heval.symm.trans hrun))
  exact ⟨_, hrun, rfl, hmade⟩

end Dummyd
end MacOSXInternal
