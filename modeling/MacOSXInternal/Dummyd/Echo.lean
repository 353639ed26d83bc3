import MacOSXInternal.Lib.Loop
import MacOSXInternal.Dummyd.Readline

/-!
# The echo loop of `dummyd.c`

`daemon_loop` writes back what `readline` has read, as many bytes as `readline` returns.  That is
the number of turns of a loop, and it is the number of bytes only where the line ends in a newline
that fits the buffer and no call of `read` was interrupted: an interruption, the end of the file and
a full buffer are turns that store nothing, and one byte of the buffer is written for each.

* `Taken` is what a call of `readline` takes from the connection.
* `echo_of_shortLines` is the loop on lines that fit, `writes_too_much` the loop on anything.
* `echoes_iff` joins the two: the echo is right for the short lines only.
-/

set_option autoImplicit false

namespace MacOSXInternal
namespace Dummyd

open Splice Loop

/-! ## The loop -/

/-- The buffer, what is read from the descriptor, and what has been written to it. -/
structure Daemon where
  buf : List Byte
  input : List Read
  written : List Byte
  deriving DecidableEq, Repr

/-- One turn of the loop; the loop ends where the descriptor is closed, with what has been
written. -/
def turn (d : Daemon) : Daemon ⊕ Option (List Byte) :=
  match readline d.input d.buf 512 with
  | none => .inr none
  | some (ret, v) =>
    if 0 < ret then
      if ret.toNat ≤ v.buffer.length then
        .inl ⟨v.buffer, v.input, d.written ++ v.buffer.take ret.toNat⟩
      else .inr none
    else .inr (some d.written)

/-- `daemon_loop`.  The buffer is not initialised. -/
def daemon_loop (buf : Vector Byte 512) (input : List Read) (fuel : ℕ) :
    Option (Option (List Byte)) :=
  run turn fuel ⟨buf.toList, input, []⟩

/-- What arrives on a connection: a byte, or an interruption. -/
def arrival : Option Byte → Read
  | some c => .byte c
  | none => .interrupted

/-- The bytes among the arrivals. -/
def bytes (a : List (Option Byte)) : List Byte := a.filterMap id

/-- Everything that arrives before the end of file is written back, and nothing else. -/
def Echoes (buf : Vector Byte 512) (a : List (Option Byte)) : Prop :=
  ∃ fuel, daemon_loop buf (a.map arrival) fuel = some (some (bytes a))

/-- Lines of at most 510 bytes and a newline, without interruptions. -/
inductive ShortLines : List (Option Byte) → Prop
  | nil : ShortLines []
  | cons {t : List Byte} {rest : List (Option Byte)} (hnl : newline ∉ t) (hlen : t.length ≤ 510)
      (h : ShortLines rest) : ShortLines (t.map some ++ some newline :: rest)

/-! ## Arrivals -/

@[simp] theorem bytes_nil : bytes [] = [] := rfl

@[simp] theorem bytes_cons_some (c : Byte) (a : List (Option Byte)) :
    bytes (some c :: a) = c :: bytes a := rfl

@[simp] theorem bytes_cons_none (a : List (Option Byte)) : bytes (none :: a) = bytes a := rfl

@[simp] theorem bytes_append (a b : List (Option Byte)) : bytes (a ++ b) = bytes a ++ bytes b :=
  List.filterMap_append

@[simp] theorem bytes_map_some (t : List Byte) : bytes (t.map some) = t := by
  induction t with
  | nil => rfl
  | cons c t ih => rw [List.map_cons, bytes_cons_some, ih]

theorem length_bytes_le (a : List (Option Byte)) : (bytes a).length ≤ a.length :=
  List.length_filterMap_le ..

/-- Where nothing is interrupted, the arrivals are bytes. -/
theorem eq_map_some {a : List (Option Byte)} (h : (bytes a).length = a.length) :
    a = (bytes a).map some := by
  induction a with
  | nil => rfl
  | cons x a ih =>
    have hle := length_bytes_le a
    cases x with
    | none =>
      rw [bytes_cons_none, List.length_cons] at h
      omega
    | some c =>
      rw [bytes_cons_some, List.length_cons, List.length_cons] at h
      rw [bytes_cons_some, List.map_cons, ← ih (by omega)]

/-! ## One call of `readline` -/

/-- Of `used ++ rest`, at most `k` turns of `readline` have taken `used`. -/
structure Taken (k : ℕ) (used rest : List (Option Byte)) (l : Line) : Prop where
  rest_eq : l.rest = rest.map arrival
  stored_eq : l.stored = bytes used
  length_made : l.made.length = used.length + if l.exit = .eof then 1 else 0
  length_le : used.length ≤ k
  cases : (l.exit = .newline ∧ ∃ front, some newline ∉ front ∧ used = front ++ [some newline]) ∨
    (l.exit = .eof ∧ rest = []) ∨ (l.exit = .full ∧ used.length = k)

/-- An arrival that does not end the line. -/
theorem Taken.after {k : ℕ} {used rest : List (Option Byte)} {l : Line} (h : Taken k used rest l)
    {x : Option Byte} (hx : x ≠ some newline) :
    Taken (k + 1) (x :: used) rest (l.after (arrival x) x.toList) where
  rest_eq := h.rest_eq
  stored_eq := by cases x <;> simp [h.stored_eq]
  length_made := by
    rw [Line.after_made, List.length_cons, List.length_cons, h.length_made, Line.after_exit]
    omega
  length_le := Nat.succ_le_succ h.length_le
  cases := by
    rcases h.cases with ⟨he, front, hf, hused⟩ | ⟨he, hrest⟩ | ⟨he, hlen⟩
    · refine .inl ⟨he, x :: front, ?_, by rw [hused]; rfl⟩
      rw [List.mem_cons]
      rintro (h' | h')
      · exact hx h'.symm
      · exact hf h'
    · exact .inr (.inl ⟨he, hrest⟩)
    · exact .inr (.inr ⟨he, by rw [List.length_cons, hlen]⟩)

/-- The number of turns, if there was anything to take. -/
theorem Taken.count {k : ℕ} {used rest : List (Option Byte)} {l : Line} (h : Taken k used rest l)
    (hpos : 0 < used.length) :
    l.returns 1 = false ∧ l.count 1 = used.length + if l.exit = .newline then 0 else 1 := by
  have hmade := h.length_made
  rcases h.cases with ⟨he, -⟩ | ⟨he, -⟩ | ⟨he, -⟩ <;> rw [he] at hmade ⊢ <;>
    simp [Line.returns, Line.count, he] at hmade ⊢ <;> omega

/-- A line without interruptions that ends in a newline. -/
theorem Taken.shortLine {k : ℕ} {used rest : List (Option Byte)} {l : Line}
    (h : Taken (k + 1) used rest l) (hexit : l.exit = .newline)
    (hnone : (bytes used).length = used.length) :
    ∃ t : List Byte, newline ∉ t ∧ t.length ≤ k ∧ used = t.map some ++ [some newline] := by
  rcases h.cases with ⟨-, front, hf, rfl⟩ | ⟨he, -⟩ | ⟨he, -⟩
  · have hlen := h.length_le
    simp only [bytes_append, bytes_cons_some, bytes_nil, List.length_append, List.length_cons,
      List.length_nil] at hnone hlen
    have hfront := eq_map_some (a := front) (by omega)
    refine ⟨bytes front, fun hmem ↦ hf ?_, ?_, by rw [← hfront]⟩
    · rw [hfront]
      exact List.mem_map_of_mem hmem
    · omega
  · rw [hexit] at he
    cases he
  · rw [hexit] at he
    cases he

/-- What `readline` takes from the arrivals. -/
theorem exists_taken (k : ℕ) (a : List (Option Byte)) :
    ∃ used rest, a = used ++ rest ∧ Taken k used rest (line k (a.map arrival)) := by
  induction k generalizing a with
  | zero => exact ⟨[], a, rfl, rfl, rfl, rfl, le_refl 0, .inr (.inr ⟨rfl, rfl⟩)⟩
  | succ k ih =>
    match a with
    | [] => exact ⟨[], [], rfl, rfl, rfl, rfl, Nat.zero_le _, .inr (.inl ⟨rfl, rfl⟩)⟩
    | none :: a =>
      obtain ⟨used, rest, rfl, h⟩ := ih a
      exact ⟨none :: used, rest, rfl, h.after nofun⟩
    | some c :: a =>
      by_cases hc : c = newline
      · subst hc
        have hline : line (k + 1) ((some newline :: a).map arrival) =
            ⟨[newline], [.byte newline], .newline, a.map arrival⟩ := if_pos rfl
        rw [hline]
        exact ⟨[some newline], a, rfl, rfl, rfl, rfl, Nat.succ_le_succ (Nat.zero_le k),
          .inl ⟨rfl, [], List.not_mem_nil, rfl⟩⟩
      · obtain ⟨used, rest, rfl, h⟩ := ih a
        have hline : line (k + 1) ((some c :: (used ++ rest)).map arrival) =
            (line k ((used ++ rest).map arrival)).after (.byte c) [c] := if_neg hc
        rw [hline]
        exact ⟨some c :: used, rest, rfl, h.after fun h' ↦ hc (Option.some.inj h')⟩

/-- A short line is read up to its newline. -/
theorem line_shortLine {k : ℕ} {t : List Byte} (hnl : newline ∉ t) (hlen : t.length < k)
    (rest : List (Option Byte)) :
    line k ((t.map some ++ some newline :: rest).map arrival) =
      ⟨t ++ [newline], (t ++ [newline]).map .byte, .newline, rest.map arrival⟩ := by
  induction t generalizing k with
  | nil =>
    obtain ⟨k, rfl⟩ : ∃ j, k = j + 1 := ⟨k - 1, by simp at hlen; omega⟩
    exact if_pos rfl
  | cons c t ih =>
    obtain ⟨k, rfl⟩ : ∃ j, k = j + 1 := ⟨k - 1, by simp at hlen; omega⟩
    rw [List.mem_cons, not_or] at hnl
    obtain ⟨hc, ht⟩ := hnl
    have h := ih ht (Nat.lt_of_succ_lt_succ hlen)
    have hline : line (k + 1) (((c :: t).map some ++ some newline :: rest).map arrival) =
        (line k ((t.map some ++ some newline :: rest).map arrival)).after (.byte c) [c] :=
      if_neg (Ne.symm hc)
    rw [hline, h]
    rfl

/-! ## One turn -/

/-- At the end of the file the descriptor is closed. -/
theorem turn_nil (buf : List Byte) (hbuf : buf.length = 512) (w : List Byte) :
    turn ⟨buf, [], w⟩ = .inr (some w) := by
  simp [turn, readline_eq [] hbuf (by decide), line, Line.ret, Line.returns, Line.count]

/-- The number of turns, as `readline` returns it. -/
theorem ret_eq_count {l : Line} (h : l.returns 1 = false) (hle : l.count 1 ≤ 512) :
    l.ret 1 = l.count 1 := by
  have hsmall : (BitVec.ofNat 32 (l.count 1)).toNat = l.count 1 := by
    rw [BitVec.toNat_ofNat, Nat.mod_eq_of_lt (by omega)]
  rw [Line.ret, h, if_neg Bool.false_ne_true, BitVec.toInt_eq_toNat_of_lt (by omega), hsmall]

/-- Otherwise as many bytes are written as there were turns. -/
theorem turn_eq {buf : List Byte} (hbuf : buf.length = 512) {input : List Read} {l : Line}
    (hl : line 511 input = l) (hret : l.returns 1 = false) (hpos : 0 < l.count 1)
    (hle : l.count 1 ≤ 512) (hroom : l.stored.length < 512) (w : List Byte) :
    ∃ buf', buf' = l.stored ++ 0 :: buf.drop (l.stored.length + 1) ∧ buf'.length = 512 ∧
      turn ⟨buf, input, w⟩ = .inl ⟨buf', l.rest, w ++ buf'.take (l.count 1)⟩ := by
  have hlen : (l.stored ++ 0 :: buf.drop (l.stored.length + 1)).length = 512 := by
    rw [List.length_append, List.length_cons, List.length_drop]
    omega
  refine ⟨_, rfl, hlen, ?_⟩
  have hvars : (l.vars ⟨1, 0, buf, input, []⟩).buffer =
      l.stored ++ 0 :: buf.drop (l.stored.length + 1) := by
    simp [Line.vars, hret]
  rw [turn, readline_eq input hbuf (by decide)]
  simp only [Nat.add_one_sub_one, hl, ret_eq_count hret hle, hvars, hlen]
  rw [if_pos (by omega), Int.toNat_natCast, if_pos hle]
  rfl

/-- A short line comes back as it is. -/
theorem turn_shortLine {buf : List Byte} (hbuf : buf.length = 512) {t : List Byte}
    (hnl : newline ∉ t) (hlen : t.length ≤ 510) (rest : List (Option Byte)) (w : List Byte) :
    ∃ buf', buf'.length = 512 ∧
      turn ⟨buf, (t.map some ++ some newline :: rest).map arrival, w⟩ =
        .inl ⟨buf', rest.map arrival, w ++ (t ++ [newline])⟩ := by
  have hline := line_shortLine hnl (Nat.lt_succ_of_le hlen) rest
  obtain ⟨buf', hbuf', hlen', hturn⟩ := turn_eq hbuf hline rfl (by simp [Line.count])
    (by simp [Line.count]; omega) (by simp; omega) w
  refine ⟨buf', hlen', ?_⟩
  rw [hturn, hbuf', List.take_append_of_le_length (by simp [Line.count]),
    List.take_of_length_le (by simp [Line.count])]

/-- At least as many bytes are written back as have been read, and not more only for a short
line. -/
theorem exists_turn {buf : List Byte} (hbuf : buf.length = 512) {a : List (Option Byte)}
    (ha : a ≠ []) (w : List Byte) :
    ∃ used rest buf' piece, a = used ++ rest ∧ used ≠ [] ∧ buf'.length = 512 ∧
      turn ⟨buf, a.map arrival, w⟩ = .inl ⟨buf', rest.map arrival, w ++ piece⟩ ∧
      (bytes used).length ≤ piece.length ∧
      (piece.length = (bytes used).length →
        ∃ t : List Byte, newline ∉ t ∧ t.length ≤ 510 ∧ used = t.map some ++ [some newline]) := by
  obtain ⟨used, rest, rfl, h⟩ := exists_taken 511 a
  generalize hl : line 511 ((used ++ rest).map arrival) = l at h
  have hle := length_bytes_le used
  have hused : used ≠ [] := by
    rintro rfl
    rcases h.cases with ⟨-, front, -, hf⟩ | ⟨-, hrest⟩ | ⟨-, hlen⟩
    · exact List.append_ne_nil_of_right_ne_nil front (List.cons_ne_nil _ _) hf.symm
    · exact ha hrest
    · exact absurd hlen (by decide)
  have hpos := List.length_pos_iff.mpr hused
  obtain ⟨hret, hcount⟩ := h.count hpos
  have hshort : used.length ≤ 511 := h.length_le
  have hstored : l.stored.length ≤ used.length := h.stored_eq ▸ hle
  obtain ⟨buf', -, hlen', hturn⟩ := turn_eq hbuf hl hret (by omega) (by split at hcount <;> omega)
    (by omega) w
  have hpiece : (buf'.take (l.count 1)).length = l.count 1 := by
    rw [List.length_take]
    split at hcount <;> omega
  refine ⟨used, rest, buf', buf'.take (l.count 1), rfl, hused, hlen', by rw [hturn, h.rest_eq], ?_,
    fun heq ↦ ?_⟩
  · rw [hpiece]
    omega
  · rw [hpiece] at heq
    have hexit : l.exit = .newline := by
      by_contra hexit
      rw [if_neg hexit] at hcount
      omega
    have hnone : (bytes used).length = used.length := by
      rw [if_pos hexit] at hcount
      omega
    exact h.shortLine hexit hnone

/-! ## Whole connections -/

/-- Short lines are echoed. -/
theorem echo_of_shortLines {a : List (Option Byte)} (h : ShortLines a) {buf : List Byte}
    (hbuf : buf.length = 512) (w : List Byte) :
    Returns turn ⟨buf, a.map arrival, w⟩ (some (w ++ bytes a)) := by
  induction h generalizing buf w with
  | nil =>
    rw [bytes_nil, List.append_nil]
    exact returns_of_inr (turn_nil buf hbuf w)
  | @cons t rest hnl hlen _ ih =>
    obtain ⟨buf', hbuf', hturn⟩ := turn_shortLine hbuf hnl hlen rest w
    have hw : w ++ bytes (t.map some ++ some newline :: rest) =
        w ++ (t ++ [newline]) ++ bytes rest := by
      simp
    rw [returns_of_inl hturn, hw]
    exact ih hbuf' _

/-- Whatever arrives, the loop ends and has written at least as many bytes as have arrived, and the
same bytes only for short lines. -/
theorem writes_too_much (a : List (Option Byte)) {buf : List Byte} (hbuf : buf.length = 512)
    (w : List Byte) :
    ∃ out, Returns turn ⟨buf, a.map arrival, w⟩ (some (w ++ out)) ∧
      (bytes a).length ≤ out.length ∧ (out = bytes a → ShortLines a) := by
  induction hn : a.length using Nat.strong_induction_on generalizing a buf w with
  | _ n ih =>
    by_cases ha : a = []
    · subst ha
      exact ⟨[], by rw [List.append_nil]; exact returns_of_inr (turn_nil buf hbuf w), le_refl 0,
        fun _ ↦ .nil⟩
    · obtain ⟨used, rest, buf', piece, rfl, hused, hbuf', hturn, hle, hexact⟩ :=
        exists_turn hbuf ha w
      have hpos := List.length_pos_iff.mpr hused
      obtain ⟨out, hout, hle', hexact'⟩ := ih rest.length
        (by rw [← hn, List.length_append]; omega) rest hbuf' (w ++ piece) rfl
      refine ⟨piece ++ out, ?_, ?_, ?_⟩
      · rw [returns_of_inl hturn, ← List.append_assoc]
        exact hout
      · rw [bytes_append, List.length_append, List.length_append]
        omega
      · intro h
        rw [bytes_append] at h
        have hlen := congrArg List.length h
        rw [List.length_append, List.length_append] at hlen
        have hpiece : piece.length = (bytes used).length := by omega
        obtain ⟨-, rfl⟩ := List.append_inj h hpiece
        obtain ⟨t, hnl, hshort, rfl⟩ := hexact hpiece
        rw [List.append_assoc]
        exact .cons hnl hshort (hexact' rfl)

/-- **The echo is right exactly for short lines that arrive without interruption.** -/
theorem echoes_iff (buf : Vector Byte 512) (a : List (Option Byte)) :
    Echoes buf a ↔ ShortLines a := by
  have hbuf : buf.toList.length = 512 := buf.length_toList
  constructor
  · rintro ⟨fuel, h⟩
    obtain ⟨out, hout, -, hexact⟩ := writes_too_much a hbuf []
    exact hexact (Option.some.inj (hout.unique ⟨fuel, h⟩))
  · intro h
    exact echo_of_shortLines h hbuf []

/-- A client that sends one byte and no newline gets a zero byte as well. -/
theorem not_echoes_unfinished : ¬ Echoes (Vector.replicate 512 0) [some 0x61] := by
  rintro ⟨fuel, h⟩
  have hl : line 511 ([some 0x61].map arrival) = ⟨[0x61], [.byte 0x61, .eof], .eof, []⟩ := rfl
  have hbuf : (Vector.replicate 512 (0 : Byte)).toList.length = 512 := Vector.length_toList
  obtain ⟨buf', rfl, hlen, hturn⟩ := turn_eq hbuf hl rfl (by decide) (by decide) (by decide) []
  have hout : Returns turn ⟨_, [some 0x61].map arrival, []⟩ (some [0x61, 0]) :=
    (returns_of_inl hturn).mpr (returns_of_inr (turn_nil _ hlen _))
  exact absurd (hout.unique ⟨fuel, h⟩) (by decide)

end Dummyd
end MacOSXInternal
