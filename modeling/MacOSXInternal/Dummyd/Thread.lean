import MacOSXInternal.Dummyd.Echo

/-!
# A thread of `dummyd.c`

`daemon_loop`, cut at its system calls: between two of them a thread does nothing that anyone else
sees.

* `Thread.resume` is what `readline` does when a call of `read` has returned.
* `Will` is what a thread that has got so far will have written in the end, by the loop as a whole.
  `will_of_resume` and `will_of_write` say that no call changes it, so it is the same from the first
  call to the last.
* `exists_returns` and `prefix_of_will` are about the loop: it ends, and takes back nothing.
-/

set_option autoImplicit false

namespace MacOSXInternal
namespace Dummyd

open Splice Loop

/-! ## The program -/

/-- What a thread is about to do. -/
inductive Phase
  /-- To call `read`, in `readline`. -/
  | read (n bp : ℕ)
  /-- To write what `readline` has returned. -/
  | write (ret : ℕ)
  | close
  | ended
  deriving DecidableEq, Repr

/-- A thread that runs `daemon_loop`; `stack` is what was in its buffer at the beginning. -/
structure Thread where
  fd : ℕ
  stack : Vector Byte 512
  buf : List Byte
  phase : Phase

namespace Thread

variable (th : Thread)

/-- A store into the buffer. -/
def store (bp : ℕ) (c : Byte) : Option Thread :=
  if bp < th.buf.length then some { th with buf := th.buf.set bp c } else none

/-- What follows the loop of `readline`. -/
def finish (n bp : ℕ) : Option Thread := do
  let th ← th.store bp 0
  return { th with phase := .write n }

/-- The head of the loop of `readline`. -/
def next (n bp : ℕ) : Option Thread :=
  if n < 512 then some { th with phase := .read n bp } else th.finish n bp

/-- A call of `read` has returned. -/
def resume (n bp : ℕ) : Read → Option Thread
  | .byte c => do
    let th ← th.store bp c
    if c = newline then th.finish n (bp + 1) else th.next (n + 1) (bp + 1)
  | .eof => if n = 1 then some { th with phase := .close } else th.finish n bp
  | .interrupted => th.next (n + 1) bp
  | .error => some { th with phase := .close }

end Thread

/-- A connection: all that reading from it will ever return, what is left of that, and what has been
written to it. -/
structure Conn where
  arrived : List Read
  input : List Read
  written : List Byte

/-- A call of `read`. -/
def Conn.read (c : Conn) : Read × Conn :=
  match c.input with
  | [] => (.eof, c)
  | r :: input => (r, { c with input := input })

/-- A call of `write`. -/
def Conn.write (c : Conn) (bytes : List Byte) : Conn := { c with written := c.written ++ bytes }

section
variable {th th' : Thread} {n bp : ℕ}

theorem Thread.finish_ne_ended (h : th.finish n bp = some th') : th'.phase ≠ .ended := by
  obtain ⟨u, -, hu⟩ := Option.bind_eq_some_iff.mp h
  cases hu
  exact Phase.noConfusion

theorem Thread.next_ne_ended (h : th.next n bp = some th') : th'.phase ≠ .ended := by
  rw [next] at h
  split_ifs at h
  · cases h
    exact Phase.noConfusion
  · exact finish_ne_ended h

/-- A thread does not end while it is reading. -/
theorem Thread.resume_ne_ended {r : Read} (h : th.resume n bp r = some th') :
    th'.phase ≠ .ended := by
  cases r with
  | byte c =>
    obtain ⟨u, -, hu⟩ := Option.bind_eq_some_iff.mp h
    split_ifs at hu
    · exact finish_ne_ended hu
    · exact next_ne_ended hu
  | eof =>
    rw [resume] at h
    split_ifs at h
    · cases h
      exact Phase.noConfusion
    · exact finish_ne_ended h
  | interrupted => exact next_ne_ended h
  | error =>
    cases h
    exact Phase.noConfusion

end

/-! ## What it will have written -/

/-- What follows a call of `readline` that returns `ret`. -/
def WillAfter (ret : ℤ) (buf : List Byte) (input : List Read) (written out : List Byte) : Prop :=
  if 0 < ret then
    ret.toNat ≤ buf.length ∧
      Returns turn ⟨buf, input, written ++ buf.take ret.toNat⟩ (some out)
  else out = written

/-- What follows a loop of `readline` that has got to `n`. -/
def WillRead (n bp : ℕ) (buf : List Byte) (c : Conn) (out : List Byte) : Prop :=
  let l := line (512 - n) c.input
  WillAfter (l.ret n) (l.vars ⟨n, bp, buf, c.input, []⟩).buffer l.rest c.written out

/-- The thread will have written this, if the rest of `daemon_loop` is not cut at the calls. -/
def Will (th : Thread) (c : Conn) (out : List Byte) : Prop :=
  match th.phase with
  | .read n bp => WillRead n bp th.buf c out
  | .write ret => WillAfter ret th.buf c.input c.written out
  | .close | .ended => out = c.written

/-- The counters of `readline` are in step, and within the buffer. -/
structure Thread.Sound (th : Thread) : Prop where
  length : th.buf.length = 512
  read : ∀ n bp, th.phase = .read n bp → bp < n ∧ n < 512
  write : ∀ ret, th.phase = .write ret → 1 ≤ ret ∧ ret ≤ 512

section
variable {th th' : Thread} {c : Conn} {n bp : ℕ} {out : List Byte}

theorem store_eq (th : Thread) (hlen : th.buf.length = 512) (hbp : bp < 512) (x : Byte) :
    th.store bp x = some { th with buf := th.buf.set bp x } := if_pos (by omega)

/-- The end of `readline`. -/
theorem finish_thread (th : Thread) (hlen : th.buf.length = 512) (hbp : bp < 512)
    (hn : 1 ≤ n ∧ n ≤ 512) :
    th.finish n bp = some { th with buf := th.buf.set bp 0, phase := .write n } ∧
    ({ th with buf := th.buf.set bp 0, phase := .write n } : Thread).Sound := by
  refine ⟨by rw [Thread.finish, store_eq th hlen hbp]; rfl, ?_, ?_, ?_⟩
  · simpa using hlen
  · intro n' bp' h
    cases h
  · intro ret h
    cases h
    exact hn

/-- The head of the loop, at which there are turns left or not. -/
theorem next_thread (th : Thread) (hlen : th.buf.length = 512) (hbp : bp < n) (hn : n ≤ 512) :
    ∃ th', th.next n bp = some th' ∧ th'.Sound ∧ th'.fd = th.fd ∧ th'.stack = th.stack ∧
      ∀ c out, WillRead n bp th.buf c out → Will th' c out := by
  by_cases hlt : n < 512
  · refine ⟨{ th with phase := .read n bp }, if_pos hlt, ⟨hlen, ?_, ?_⟩, rfl, rfl, ?_⟩
    · intro n' bp' h
      cases h
      exact ⟨hbp, hlt⟩
    · intro ret h
      exact absurd h nofun
    · intro c out h
      exact h
  · obtain rfl : n = 512 := by omega
    obtain ⟨hfinish, hsound⟩ := finish_thread th (n := 512) hlen hbp (by decide)
    refine ⟨_, by rw [Thread.next, if_neg hlt, hfinish], hsound, rfl, rfl, ?_⟩
    intro c out h
    have hvars : (Line.vars ⟨[], [], .full, c.input⟩ ⟨512, bp, th.buf, c.input, []⟩).buffer =
        th.buf.set bp 0 := by
      rw [set_eq_splice (by omega)]
      rfl
    have hret : (Line.mk [] [] .full c.input).ret 512 = 512 := rfl
    simp only [WillRead, Nat.sub_self, line, hret, hvars] at h
    exact h

theorem toInt_ofNat (hn : n ≤ 512) : (BitVec.ofNat 32 n).toInt = n := by
  rw [BitVec.toInt_eq_toNat_of_lt (by rw [BitVec.toNat_ofNat]; omega), BitVec.toNat_ofNat,
    Nat.mod_eq_of_lt (by omega)]

/-- The end of the file, or what comes after the last read. -/
theorem will_eof (hlen : th.buf.length = 512) (hbp : bp < n) (hn : n < 512)
    (hphase : th.phase = .read n bp) {input : List Read} (hinput : line (512 - n) c.input =
      ⟨[], [.eof], .eof, input⟩) :
    ∃ th', th.resume n bp .eof = some th' ∧ th'.Sound ∧ th'.fd = th.fd ∧ th'.stack = th.stack ∧
      ∀ out, Will th c out → Will th' { c with input := input } out := by
  simp only [Will, hphase, WillRead, hinput]
  by_cases h1 : n = 1
  · refine ⟨{ th with phase := .close }, if_pos h1, ⟨hlen, ?_, ?_⟩, rfl, rfl, ?_⟩
    · intro n' bp' h
      exact absurd h nofun
    · intro ret h
      exact absurd h nofun
    · intro out h
      have hret : (Line.mk [] [.eof] .eof input).ret n = 0 := by
        simp [Line.ret, Line.returns, Line.count, h1]
      rw [hret] at h
      exact h
  · obtain ⟨hfinish, hsound⟩ := finish_thread th (n := n) hlen (by omega : bp < 512)
      (by omega)
    refine ⟨_, by rw [Thread.resume, if_neg h1, hfinish], hsound, rfl, rfl, ?_⟩
    intro out h
    have hret : (Line.mk [] [.eof] .eof input).ret n = n := by
      simp [Line.ret, Line.returns, Line.count, h1, toInt_ofNat (by omega : n ≤ 512)]
    have hvars : (Line.vars ⟨[], [.eof], .eof, input⟩ ⟨n, bp, th.buf, c.input, []⟩).buffer =
        th.buf.set bp 0 := by
      rw [set_eq_splice (by omega)]
      simp [Line.vars, Line.returns, Line.count, h1]
    rw [hret, hvars] at h
    exact h

/-- **A call of `read` changes nothing** of what the thread will have written. -/
theorem will_of_resume (hsound : th.Sound) (hphase : th.phase = .read n bp) :
    ∃ th', th.resume n bp c.read.1 = some th' ∧ th'.Sound ∧ th'.fd = th.fd ∧
      th'.stack = th.stack ∧ ∀ out, Will th c out → Will th' c.read.2 out := by
  obtain ⟨hbp, hn⟩ := hsound.read n bp hphase
  have hlen := hsound.length
  obtain ⟨k, hk⟩ : ∃ k, 512 - n = k + 1 := ⟨511 - n, by omega⟩
  have hk' : 512 - (n + 1) = k := by omega
  obtain ⟨arrived, input, written⟩ := c
  rcases input with - | ⟨r, input⟩
  · exact will_eof (c := ⟨arrived, [], written⟩) hlen hbp hn hphase (by rw [hk, line])
  cases r with
  | byte x =>
    have hset : (th.buf.set bp x).length = 512 := by rw [List.length_set, hlen]
    have hstore := store_eq th hlen (by omega : bp < 512) x
    simp only [Will, hphase, WillRead, hk]
    by_cases hx : x = newline
    · obtain ⟨hfinish, hsound⟩ := finish_thread { th with buf := th.buf.set bp x } (n := n)
        hset (by omega : bp + 1 < 512) (by omega)
      refine ⟨_, ?_, hsound, rfl, rfl, ?_⟩
      · simp only [Conn.read, Thread.resume, hstore, Option.bind_eq_bind, Option.bind_some,
          if_pos hx, hfinish]
      · intro out h
        have hret : (Line.mk [x] [.byte x] .newline input).ret n = n := by
          simp [Line.ret, Line.returns, Line.count, toInt_ofNat (by omega : n ≤ 512)]
        have hvars : (Line.vars ⟨[x], [.byte x], .newline, input⟩
            ⟨n, bp, th.buf, .byte x :: input, []⟩).buffer = (th.buf.set bp x).set (bp + 1) 0 := by
          rw [set_eq_splice (by omega), splice_set (by omega)]
          rfl
        rw [line, if_pos hx, hret, hvars] at h
        exact h
    · obtain ⟨th', hnext, hsound', hfd, hstack, hwill⟩ := next_thread
        { th with buf := th.buf.set bp x } (n := n + 1) hset (by omega : bp + 1 < n + 1) (by omega)
      refine ⟨th', ?_, hsound', hfd, hstack, ?_⟩
      · simp only [Conn.read, Thread.resume, hstore, Option.bind_eq_bind, Option.bind_some,
          if_neg hx, hnext]
      · intro out h
        refine hwill _ out ?_
        rw [line, if_neg hx, Line.after_ret] at h
        simp only [WillRead, hk', Conn.read, Line.vars, splice_set (by omega : bp < th.buf.length)]
        simpa [Line.vars, apply_ite (x :: ·)] using h
  | eof =>
    exact will_eof (c := ⟨arrived, .eof :: input, written⟩) hlen hbp hn hphase (by rw [hk, line])
  | interrupted =>
    simp only [Will, hphase, WillRead, hk]
    obtain ⟨th', hnext, hsound', hfd, hstack, hwill⟩ := next_thread th (n := n + 1) hlen
      (Nat.lt_succ_of_lt hbp) (by omega)
    refine ⟨th', hnext, hsound', hfd, hstack, ?_⟩
    intro out h
    refine hwill _ out ?_
    simp only [WillRead, hk', Conn.read]
    simpa [line, Line.vars] using h
  | error =>
    refine ⟨{ th with phase := .close }, rfl, ⟨hlen, ?_, ?_⟩, rfl, rfl, ?_⟩
    · intro n' bp' h
      cases h
    · intro ret h
      cases h
    · intro out h
      have hret : (Line.mk [] [.error] .error input).ret n = -1 := by
        simp [Line.ret, Line.returns]
      simp only [Will, hphase, WillRead, hk] at h
      rw [line, hret] at h
      exact h

/-- At the beginning of a turn, all of the loop is to come. -/
theorem will_read_iff (th : Thread) (hlen : th.buf.length = 512) (hphase : th.phase = .read 1 0) :
    Will th c out ↔ Returns turn ⟨th.buf, c.input, c.written⟩ (some out) := by
  simp only [Will, hphase, WillRead, Nat.add_one_sub_one, WillAfter]
  have hline := readline_eq c.input hlen (by decide)
  rw [Nat.add_one_sub_one] at hline
  by_cases hret : 0 < (line 511 c.input).ret 1
  · rw [if_pos hret]
    by_cases hle : ((line 511 c.input).ret 1).toNat ≤
        ((line 511 c.input).vars ⟨1, 0, th.buf, c.input, []⟩).buffer.length
    · rw [and_iff_right hle]
      refine (returns_of_inl ?_).symm
      simp only [turn, hline, if_pos hret, if_pos hle]
      rfl
    · have hturn : turn ⟨th.buf, c.input, c.written⟩ = .inr none := by
        simp only [turn, hline, if_pos hret, if_neg hle]
      refine iff_of_false (fun h ↦ hle h.1) ?_
      intro h
      cases h.unique (returns_of_inr hturn)
  · rw [if_neg hret]
    have hturn : turn ⟨th.buf, c.input, c.written⟩ = .inr (some c.written) := by
      simp only [turn, hline, if_neg hret]
    constructor
    · rintro rfl
      exact returns_of_inr hturn
    · intro h
      exact Option.some.inj (h.unique (returns_of_inr hturn))

/-- The call of `write` changes nothing either. -/
theorem will_of_write {ret : ℕ} (hsound : th.Sound) (hphase : th.phase = .write ret) :
    ({ th with phase := .read 1 0 } : Thread).Sound ∧
      ∀ out, Will th c out →
        Will { th with phase := .read 1 0 } (c.write (th.buf.take ret)) out := by
  obtain ⟨hpos, -⟩ := hsound.write ret hphase
  have hlen := hsound.length
  refine ⟨⟨hlen, ?_, ?_⟩, ?_⟩
  · intro n bp h
    cases h
    decide
  · intro ret h
    exact absurd h nofun
  · intro out h
    rw [will_read_iff { th with phase := .read 1 0 } hlen rfl]
    simp only [Will, hphase, WillAfter] at h
    rw [if_pos (by omega), Int.toNat_natCast] at h
    exact h.2

end

/-! ## The loop ends -/

/-- The calls of `read` leave no more than there was. -/
theorem length_rest_le (k : ℕ) (input : List Read) : (line k input).rest.length ≤ input.length := by
  rcases (line_sound k input).made_eq with h | ⟨-, h⟩
  · have hlen := congrArg List.length h
    rw [List.length_append] at hlen
    omega
  · rw [h]
    exact Nat.zero_le _

theorem length_rest_cons_le (k : ℕ) (r : Read) (input : List Read) :
    (line (k + 1) (r :: input)).rest.length ≤ input.length := by
  have hle := length_rest_le k input
  cases r with
  | byte c =>
    by_cases hc : c = newline
    · rw [line, if_pos hc]
    · rw [line, if_neg hc]
      exact hle
  | eof | error => exact le_refl _
  | interrupted => exact hle

/-- **A turn** of `daemon_loop` stays within the buffer; it reads something, or it is the last. -/
theorem turn_cases {d : Daemon} (hlen : d.buf.length = 512) :
    turn d = .inr (some d.written) ∨ ∃ d', turn d = .inl d' ∧ d'.buf.length = 512 ∧
      d'.input.length < d.input.length := by
  obtain ⟨buf, input, written⟩ := d
  have hlen : buf.length = 512 := hlen
  have hline := readline_eq input hlen (by decide)
  rw [Nat.add_one_sub_one] at hline
  by_cases hret : 0 < (line 511 input).ret 1
  · right
    rcases input with - | ⟨r, input⟩
    · exact absurd hret (by decide)
    have hsound := line_sound 511 (r :: input)
    have hshorter := length_rest_cons_le 510 r input
    generalize line 511 (r :: input) = l at hline hret hsound hshorter
    have hstored := hsound.length_stored
    have hmade := hsound.length_made
    have hreturns : l.returns 1 = false := by
      by_contra h
      rw [Line.ret, if_pos (by simpa using h)] at hret
      split_ifs at hret <;> omega
    have hcount : l.count 1 ≤ 512 := by
      rw [Line.count]
      split <;> omega
    have hbuf : (l.vars ⟨1, 0, buf, r :: input, []⟩).buffer.length = 512 := by
      simp only [Line.vars, hreturns, Bool.false_eq_true, if_false, splice_zero, List.length_append,
        List.length_cons, List.length_nil, List.length_drop]
      omega
    have hle : (l.ret 1).toNat ≤ (l.vars ⟨1, 0, buf, r :: input, []⟩).buffer.length := by
      rw [hbuf, ret_eq_count hreturns hcount]
      exact hcount
    have hturn : turn ⟨buf, r :: input, written⟩ = .inl
        ⟨(l.vars ⟨1, 0, buf, r :: input, []⟩).buffer, l.rest, written ++
          (l.vars ⟨1, 0, buf, r :: input, []⟩).buffer.take (l.ret 1).toNat⟩ := by
      simp only [turn, hline, if_pos hret, if_pos hle]
      rfl
    exact ⟨_, hturn, hbuf, Nat.lt_succ_of_le hshorter⟩
  · left
    simp only [turn, hline, if_neg hret]

/-- `daemon_loop` always ends. -/
theorem exists_returns {buf : List Byte} (hlen : buf.length = 512) (input : List Read)
    (written : List Byte) : ∃ out, Returns turn ⟨buf, input, written⟩ (some out) := by
  have hinl (d d' : Daemon) (hd : d.buf.length = 512) (hturn : turn d = .inl d') :
      d'.buf.length = 512 ∧ d'.input.length < d.input.length := by
    rcases turn_cases hd with h | ⟨d'', h, hd''⟩
    · cases hturn.symm.trans h
    · cases hturn.symm.trans h
      exact hd''
  have hinr (d : Daemon) (r : Option (List Byte)) (hd : d.buf.length = 512)
      (hturn : turn d = .inr r) : ∃ out, r = some out := by
    rcases turn_cases hd with h | ⟨d'', h, -⟩
    · cases hturn.symm.trans h
      exact ⟨d.written, rfl⟩
    · exact absurd (hturn.symm.trans h) nofun
  obtain ⟨r, hr, out, rfl⟩ := Returns.total (fun d ↦ d.input.length) hinl hinr
    (s := ⟨buf, input, written⟩) hlen
  exact ⟨out, hr⟩

/-- A turn takes nothing back of what has been written. -/
theorem written_turn_inl {d d' : Daemon} (h : turn d = .inl d') : d.written <+: d'.written := by
  rw [turn] at h
  split at h
  · cases h
  · split_ifs at h
    cases h
    exact List.prefix_append ..

theorem turn_inr_some {d : Daemon} {out : List Byte} (h : turn d = .inr (some out)) :
    out = d.written := by
  rw [turn] at h
  split at h
  · cases h
  · split_ifs at h
    · cases h
    · cases h
      rfl

theorem written_isPrefix {buf : List Byte} {input : List Read} {written out : List Byte}
    (h : Returns turn ⟨buf, input, written⟩ (some out)) : written <+: out := by
  refine h.invariant (I := fun d ↦ written <+: d.written)
    (Q := fun r ↦ ∀ out, r = some out → written <+: out) ?_ ?_ (List.prefix_refl _) out rfl
  · intro d d' hd hturn
    exact hd.trans (written_turn_inl hturn)
  · rintro d r hd hturn out rfl
    rw [turn_inr_some hturn]
    exact hd

theorem prefix_of_willAfter {ret : ℤ} {buf : List Byte} {input : List Read}
    {written out : List Byte} (h : WillAfter ret buf input written out) : written <+: out := by
  rw [WillAfter] at h
  split_ifs at h
  · exact (List.prefix_append ..).trans (written_isPrefix h.2)
  · exact h ▸ List.prefix_refl _

/-- What a thread has written is the beginning of what it will have written. -/
theorem prefix_of_will {th : Thread} {c : Conn} {out : List Byte} (h : Will th c out) :
    c.written <+: out := by
  rw [Will] at h
  split at h
  · exact prefix_of_willAfter h
  · exact prefix_of_willAfter h
  · exact h ▸ List.prefix_refl _
  · exact h ▸ List.prefix_refl _

end Dummyd
end MacOSXInternal
