import MacOSXInternal.Lib.Runs
import MacOSXInternal.Dummyd.Thread

/-!
# The server around the echo loop

`main` of `dummyd.c` waits for connections, accepts one after the other, and leaves each to a thread
of its own, which runs `daemon_loop` on the descriptor and closes it at the end.  The threads have
nothing in common but the table of descriptors, in which a number is used again when it has become
free.

* `Step` is a call of `main` or of one of the threads, in any order.
* `Inv` is the invariant: a thread that has not ended owns its descriptor, nobody else does, and
  what has been done to its connection is what `daemon_loop` does.
* `served_alone` is the result.
-/

set_option autoImplicit false

namespace MacOSXInternal
namespace Dummyd

open Loop Runs

/-! ## The process -/

/-- What a descriptor is open on.  `other` is all that is not a connection: the listening sockets,
the kernel queue, the standard streams. -/
inductive File
  | other
  | conn (i : ℕ)
  deriving DecidableEq, Repr

/-- What `main` is about to call. -/
inductive Main
  | kevent
  | accept
  | pthreadCreate (fd : ℕ)
  | exited (status : ℕ)
  deriving DecidableEq, Repr

def EXIT_SUCCESS : ℕ := 0

def EXIT_FAILURE : ℕ := 1

/-- The connections are in the order in which they have been accepted, and so are the threads. -/
structure Server where
  main : Main
  table : ℕ → Option File
  conns : List Conn
  threads : List Thread

namespace Server

variable (s : Server)

/-- When the loop of `main` begins. -/
def start (files : ℕ → Bool) : Server where
  main := .kevent
  table fd := if files fd then some .other else none
  conns := []
  threads := []

def setThread (i : ℕ) (th : Thread) : Server := { s with threads := s.threads.set i th }

/-- `read(fd, &c, 1)`.  Only connections are read from. -/
def read (fd : ℕ) : Read × Server :=
  match s.table fd with
  | some (.conn i) =>
    match s.conns[i]? with
    | some c => (c.read.1, { s with conns := s.conns.set i c.read.2 })
    | none => (.error, s)
  | _ => (.error, s)

/-- `write(fd, buf, ret)`, which writes all of it. -/
def write (fd : ℕ) (bytes : List Byte) : Server :=
  match s.table fd with
  | some (.conn i) => { s with conns := s.conns.modify i fun c ↦ c.write bytes }
  | _ => s

/-- `close(fd)`. -/
def close (fd : ℕ) : Server := { s with table := Function.update s.table fd none }

/-- The next call of thread `i`, and what the thread does until it makes another one.  There is none
when it has ended, or where it is undefined. -/
def call (i : ℕ) (th : Thread) : Option Server :=
  match th.phase with
  | .read n bp => (th.resume n bp (s.read th.fd).1).map ((s.read th.fd).2.setThread i)
  | .write ret =>
    if ret ≤ th.buf.length then
      some ((s.write th.fd (th.buf.take ret)).setThread i { th with phase := .read 1 0 })
    else none
  | .close => some ((s.close th.fd).setThread i { th with phase := .ended })
  | .ended => none

end Server

/-- Whose call it is. -/
inductive Label
  | main
  | thread (i : ℕ)
  deriving DecidableEq, Repr

/-- A call, with whatever it returns.  A thread begins with any contents of its buffer. -/
inductive Step : Server → Label → Server → Prop
  | keventFails {s : Server} (h : s.main = .kevent) :
      Step s .main { s with main := .exited EXIT_FAILURE }
  | keventNone {s : Server} (h : s.main = .kevent) :
      Step s .main { s with main := .exited EXIT_SUCCESS }
  | keventReady {s : Server} (h : s.main = .kevent) : Step s .main { s with main := .accept }
  | acceptFails {s : Server} (h : s.main = .accept) : Step s .main { s with main := .kevent }
  | accepts {s : Server} (h : s.main = .accept) (fd : ℕ) (hfree : s.table fd = none)
      (arrived : List Read) :
      Step s .main
        { s with
          main := .pthreadCreate fd
          table := Function.update s.table fd (some (.conn s.conns.length))
          conns := s.conns ++ [⟨arrived, arrived, []⟩] }
  | createFails {s : Server} {fd : ℕ} (h : s.main = .pthreadCreate fd) :
      Step s .main { s.close fd with main := .exited EXIT_FAILURE }
  | creates {s : Server} {fd : ℕ} (h : s.main = .pthreadCreate fd) (stack : Vector Byte 512) :
      Step s .main
        { s with
          main := .kevent
          threads := s.threads ++ [⟨fd, stack, stack.toList, .read 1 0⟩] }
  | thread {s s' : Server} {i : ℕ} {th : Thread} (h : ∀ status, s.main ≠ .exited status)
      (hth : s.threads[i]? = some th) (hcall : s.call i th = some s') : Step s (.thread i) s'

/-! ## The invariant -/

/-- What a thread has done to its connection is what `daemon_loop` does. -/
def Served (th : Thread) (c : Conn) : Prop :=
  th.Sound ∧ ∃ out, Returns turn ⟨th.stack.toList, c.arrived, []⟩ (some out) ∧ Will th c out

structure Inv (files : ℕ → Bool) (s : Server) : Prop where
  others : ∀ fd, s.table fd = some .other ↔ files fd
  owner : ∀ i th, s.threads[i]? = some th → th.phase ≠ .ended → s.table th.fd = some (.conn i)
  accepted : ∀ fd, s.main = .pthreadCreate fd → s.table fd = some (.conn s.threads.length)
  opened : ∀ fd i, s.table fd = some (.conn i) →
    (∃ th, s.threads[i]? = some th ∧ th.fd = fd ∧ th.phase ≠ .ended) ∨
      i = s.threads.length ∧ s.main = .pthreadCreate fd
  length : s.main = .kevent ∨ s.main = .accept → s.conns.length = s.threads.length
  fresh : ∀ fd, s.main = .pthreadCreate fd →
    ∃ conns arrived, s.conns = conns ++ [⟨arrived, arrived, []⟩] ∧ conns.length = s.threads.length
  served : ∀ (i : ℕ) th, s.threads[i]? = some th → ∃ c, s.conns[i]? = some c ∧ Served th c

variable {files : ℕ → Bool} {s s' : Server} {i : ℕ} {th th' : Thread} {c c' : Conn}

theorem inv_start (files : ℕ → Bool) : Inv files (Server.start files) where
  others fd := by simp [Server.start]
  owner i th h := by exact absurd h nofun
  accepted fd h := by exact absurd h nofun
  opened fd i h := by simp [Server.start] at h
  length _ := rfl
  fresh fd h := by exact absurd h nofun
  served i th h := by exact absurd h nofun

theorem read_arrived (c : Conn) : c.read.2.arrived = c.arrived := by
  rw [Conn.read]
  split <;> rfl

/-- The threads after a call of one of them. -/
theorem getElem?_setThread {l : List Thread} (hth : l[i]? = some th) {j : ℕ} {u : Thread}
    (hu : (l.set i th')[j]? = some u) : j = i ∧ u = th' ∨ j ≠ i ∧ l[j]? = some u := by
  by_cases hj : j = i
  · subst hj
    obtain ⟨hlt, -⟩ := List.getElem?_eq_some_iff.mp hth
    rw [List.getElem?_set_self hlt] at hu
    exact .inl ⟨rfl, (Option.some.inj hu).symm⟩
  · rw [List.getElem?_set_ne (Ne.symm hj)] at hu
    exact .inr ⟨hj, hu⟩

/-- The threads when there is one more. -/
theorem getElem?_concat {l : List Thread} {u : Thread} (hu : (l ++ [th])[i]? = some u) :
    l[i]? = some u ∨ i = l.length ∧ u = th := by
  rcases Nat.lt_trichotomy i l.length with hi | rfl | hi
  · rw [List.getElem?_append_left hi] at hu
    exact .inl hu
  · rw [List.getElem?_concat_length] at hu
    exact .inr ⟨rfl, (Option.some.inj hu).symm⟩
  · rw [List.getElem?_eq_none (by rw [List.length_append]; exact hi)] at hu
    exact absurd hu nofun

theorem getElem?_set_thread {l : List Thread} (hth : l[i]? = some th) :
    (l.set i th')[i]? = some th' :=
  List.getElem?_set_self (List.getElem?_eq_some_iff.mp hth).1

section
variable (h : Inv files s) (hth : s.threads[i]? = some th)
include h hth

/-- **A thread has read or written**, by which its connection and nothing else has changed. -/
theorem Inv.setThread (hlive : th.phase ≠ .ended) (hfd : th'.fd = th.fd)
    (hlive' : th'.phase ≠ .ended) (hc : s.conns[i]? = some c) (hserved : Served th' c') :
    Inv files ({ s with conns := s.conns.set i c' }.setThread i th') where
  others := h.others
  owner j u hu hlive := by
    rcases getElem?_setThread hth hu with ⟨rfl, rfl⟩ | ⟨-, hu⟩
    · rw [hfd]
      exact h.owner _ th hth ‹_›
    · exact h.owner j u hu hlive
  accepted fd hmain := by
    rw [Server.setThread, List.length_set]
    exact h.accepted fd hmain
  opened fd j hopen := by
    rw [Server.setThread, List.length_set]
    rcases h.opened fd j hopen with ⟨u, hu, hufd, hulive⟩ | hmain
    · by_cases hj : j = i
      · subst hj
        obtain rfl : u = th := Option.some.inj (hu.symm.trans hth)
        exact .inl ⟨th', getElem?_set_thread hth, hfd.trans hufd, hlive'⟩
      · exact .inl ⟨u, by rw [List.getElem?_set_ne (Ne.symm hj), hu], hufd, hulive⟩
    · exact .inr hmain
  length hmain := by
    simp only [Server.setThread, List.length_set]
    exact h.length hmain
  fresh fd hmain := by
    obtain ⟨conns, arrived, hconns, hlen⟩ := h.fresh fd hmain
    have hi : i < conns.length := hlen ▸ (List.getElem?_eq_some_iff.mp hth).1
    refine ⟨conns.set i c', arrived, ?_, ?_⟩
    · simp only [Server.setThread, hconns]
      rw [List.set_append_left _ _ hi]
    · rw [List.length_set, Server.setThread, List.length_set, hlen]
  served j u hu := by
    rcases getElem?_setThread hth hu with ⟨rfl, rfl⟩ | ⟨hj, hu⟩
    · exact ⟨c', List.getElem?_set_self (List.getElem?_eq_some_iff.mp hc).1, hserved⟩
    · obtain ⟨d, hd, hserved⟩ := h.served j u hu
      exact ⟨d, by rw [Server.setThread]; simpa only [List.getElem?_set_ne (Ne.symm hj)] using hd,
        hserved⟩

/-- The descriptor is not the one that `main` has in its hands. -/
theorem Inv.ne_accepted (hlive : th.phase ≠ .ended) {fd : ℕ} (hmain : s.main = .pthreadCreate fd) :
    th.fd ≠ fd := by
  rintro rfl
  have hopen := h.owner i th hth hlive
  rw [h.accepted _ hmain] at hopen
  injection hopen with hopen
  injection hopen with hopen
  have hi := (List.getElem?_eq_some_iff.mp hth).1
  omega

/-- **A thread has closed its descriptor.** -/
theorem Inv.close (hlive : th.phase ≠ .ended) (hc : s.conns[i]? = some c)
    (hserved : Served { th with phase := .ended } c) :
    Inv files ((s.close th.fd).setThread i { th with phase := .ended }) where
  others fd := by
    rw [← h.others fd]
    by_cases hfd : fd = th.fd
    · simp [Server.close, Server.setThread, hfd, h.owner i th hth hlive]
    · simp [Server.close, Server.setThread, hfd]
  owner j u hu hlive' := by
    rcases getElem?_setThread hth hu with ⟨rfl, rfl⟩ | ⟨hj, hu⟩
    · exact absurd rfl hlive'
    · have hopen := h.owner j u hu hlive'
      have hne : u.fd ≠ th.fd := by
        intro heq
        have hopen' := h.owner i th hth hlive
        rw [← heq, hopen] at hopen'
        exact hj (by injection Option.some.inj hopen')
      simpa [Server.close, Server.setThread, hne] using hopen
  accepted fd hmain := by
    have hne := (h.ne_accepted hth hlive hmain).symm
    simpa [Server.close, Server.setThread, hne] using h.accepted fd hmain
  opened fd j hopen := by
    have hne : fd ≠ th.fd := by
      rintro rfl
      simp [Server.close, Server.setThread] at hopen
    simp only [Server.close, Server.setThread, Function.update_of_ne hne, List.length_set]
      at hopen ⊢
    rcases h.opened fd j hopen with ⟨u, hu, hufd, hulive⟩ | hmain
    · have hj : j ≠ i := by
        rintro rfl
        obtain rfl : u = th := Option.some.inj (hu.symm.trans hth)
        exact hne hufd.symm
      exact .inl ⟨u, by rw [List.getElem?_set_ne hj.symm, hu], hufd, hulive⟩
    · exact .inr hmain
  length hmain := by
    simp only [Server.setThread, List.length_set]
    exact h.length hmain
  fresh fd hmain := by
    rw [Server.setThread, List.length_set]
    exact h.fresh fd hmain
  served j u hu := by
    rcases getElem?_setThread hth hu with ⟨rfl, rfl⟩ | ⟨-, hu⟩
    · exact ⟨c, hc, hserved⟩
    · exact h.served j u hu

/-- **A thread that has not ended makes its call**, which is defined. -/
theorem Inv.call (hlive : th.phase ≠ .ended) : ∃ s', s.call i th = some s' ∧ Inv files s' := by
  have hopen := h.owner i th hth hlive
  obtain ⟨c, hc, hsound, out, hout, hwill⟩ := h.served i th hth
  cases hphase : th.phase with
  | read n bp =>
    obtain ⟨th', hresume, hsound', hfd, hstack, hwill'⟩ := will_of_resume (c := c) hsound hphase
    have hread : s.read th.fd = (c.read.1, { s with conns := s.conns.set i c.read.2 }) := by
      simp only [Server.read, hopen, hc]
    refine ⟨_, ?_, h.setThread hth hlive hfd (Thread.resume_ne_ended hresume) hc
      ⟨hsound', out, ?_, hwill' out hwill⟩⟩
    · simp only [Server.call, hphase, hread, hresume, Option.map_some]
    · rw [hstack, read_arrived]
      exact hout
  | write ret =>
    obtain ⟨hsound', hwill'⟩ := will_of_write (c := c) hsound hphase
    have hwrite : s.write th.fd (th.buf.take ret) =
        { s with conns := s.conns.set i (c.write (th.buf.take ret)) } := by
      simp only [Server.write, hopen]
      rw [List.modify_eq_set_getElem?, hc]
      rfl
    have hle : ret ≤ th.buf.length := by
      rw [hsound.length]
      exact (hsound.write ret hphase).2
    have hinv : Inv files ({ s with conns := s.conns.set i (c.write (th.buf.take ret)) }.setThread i
        { th with phase := .read 1 0 }) :=
      h.setThread hth hlive rfl Phase.noConfusion hc ⟨hsound', out, hout, hwill' out hwill⟩
    refine ⟨_, ?_, hinv⟩
    simp only [Server.call, hphase, if_pos hle, hwrite]
  | close =>
    refine ⟨_, by rw [Server.call, hphase],
      h.close hth hlive hc ⟨⟨hsound.length, ?_, ?_⟩, out, hout, ?_⟩⟩
    · intro n bp hread
      exact absurd hread nofun
    · intro ret hwrite
      exact absurd hwrite nofun
    · rw [Will, hphase] at hwill
      exact hwill
  | ended => exact absurd hphase hlive

end

/-- `main` has no descriptor of its own, before or after the call. -/
theorem Inv.main (h : Inv files s) (hmain : s.main = .kevent ∨ s.main = .accept) {m : Main}
    (hm : ∀ fd, m ≠ .pthreadCreate fd) : Inv files { s with main := m } where
  others := h.others
  owner := h.owner
  accepted fd hfd := absurd hfd (hm fd)
  opened fd i hopen := by
    refine .inl ((h.opened fd i hopen).resolve_right ?_)
    rintro ⟨-, hfd⟩
    rw [hfd] at hmain
    rcases hmain with hmain | hmain <;> cases hmain
  length _ := h.length hmain
  fresh fd hfd := absurd hfd (hm fd)
  served := h.served

/-- A connection has been accepted. -/
theorem Inv.accepts (h : Inv files s) (hmain : s.main = .accept) {fd : ℕ}
    (hfree : s.table fd = none) (arrived : List Read) :
    Inv files
      { s with
        main := .pthreadCreate fd
        table := Function.update s.table fd (some (.conn s.conns.length))
        conns := s.conns ++ [⟨arrived, arrived, []⟩] } where
  others fd' := by
    rw [← h.others fd']
    by_cases hfd : fd' = fd
    · simp [hfd, hfree]
    · simp [hfd]
  owner i th hth hlive := by
    have hopen := h.owner i th hth hlive
    have hne : th.fd ≠ fd := by
      rintro rfl
      rw [hfree] at hopen
      cases hopen
    simpa [hne] using hopen
  accepted fd' hfd := by
    cases hfd
    simp [h.length (.inr hmain)]
  opened fd' i hopen := by
    by_cases hfd : fd' = fd
    · subst hfd
      simp only [Function.update_self, Option.some.injEq, File.conn.injEq] at hopen
      exact .inr ⟨hopen.symm.trans (h.length (.inr hmain)), rfl⟩
    · simp only [Function.update_of_ne hfd] at hopen
      refine .inl ((h.opened fd' i hopen).resolve_right ?_)
      rintro ⟨-, hfd'⟩
      rw [hmain] at hfd'
      exact absurd hfd' nofun
  length hm := by rcases hm with hm | hm <;> cases hm
  fresh fd' _ := ⟨s.conns, arrived, rfl, h.length (.inr hmain)⟩
  served i th hth := by
    obtain ⟨c, hc, hserved⟩ := h.served i th hth
    exact ⟨c, by rw [List.getElem?_append_left (List.getElem?_eq_some_iff.mp hc).1, hc], hserved⟩

/-- No thread could be made for it. -/
theorem Inv.createFails (h : Inv files s) {fd : ℕ} (hmain : s.main = .pthreadCreate fd)
    (status : ℕ) : Inv files { s.close fd with main := .exited status } where
  others fd' := by
    rw [← h.others fd']
    by_cases hfd : fd' = fd
    · simp [Server.close, hfd, h.accepted fd hmain]
    · simp [Server.close, hfd]
  owner i th hth hlive := by
    have hopen := h.owner i th hth hlive
    simpa [Server.close, h.ne_accepted hth hlive hmain] using hopen
  accepted fd' hfd := by cases hfd
  opened fd' i hopen := by
    by_cases hfd : fd' = fd
    · simp [Server.close, hfd] at hopen
    · simp only [Server.close, Function.update_of_ne hfd] at hopen
      refine .inl ((h.opened fd' i hopen).resolve_right ?_)
      rintro ⟨-, hfd'⟩
      rw [hmain] at hfd'
      cases hfd'
      exact hfd rfl
  length hm := by rcases hm with hm | hm <;> cases hm
  fresh fd' hfd := by exact absurd hfd nofun
  served := h.served

/-- There is a thread for it. -/
theorem Inv.creates (h : Inv files s) {fd : ℕ} (hmain : s.main = .pthreadCreate fd)
    (stack : Vector Byte 512) :
    Inv files
      { s with
        main := .kevent
        threads := s.threads ++ [⟨fd, stack, stack.toList, .read 1 0⟩] } where
  others := h.others
  owner i th hth hlive := by
    rcases getElem?_concat hth with hth | ⟨rfl, rfl⟩
    · exact h.owner i th hth hlive
    · exact h.accepted fd hmain
  accepted fd' hfd := by cases hfd
  opened fd' i hopen := by
    left
    rcases h.opened fd' i hopen with ⟨th, hth, hfd, hlive⟩ | ⟨rfl, hfd⟩
    · exact ⟨th, by rw [List.getElem?_append_left (List.getElem?_eq_some_iff.mp hth).1, hth], hfd,
        hlive⟩
    · rw [hmain] at hfd
      cases hfd
      exact ⟨_, List.getElem?_concat_length .., rfl, Phase.noConfusion⟩
  length _ := by
    obtain ⟨conns, arrived, hconns, hlen⟩ := h.fresh fd hmain
    rw [hconns, List.length_append, List.length_append, hlen]
    rfl
  fresh fd' hfd := by exact absurd hfd nofun
  served i th hth := by
    rcases getElem?_concat hth with hth | ⟨rfl, rfl⟩
    · exact h.served i th hth
    · obtain ⟨conns, arrived, hconns, hlen⟩ := h.fresh fd hmain
      obtain ⟨out, hout⟩ := exists_returns stack.length_toList arrived []
      refine ⟨⟨arrived, arrived, []⟩, ?_, ⟨stack.length_toList, ?_, ?_⟩, out, hout, ?_⟩
      · rw [hconns, ← hlen]
        exact List.getElem?_concat_length ..
      · rintro n bp ⟨⟩
        decide
      · rintro ret ⟨⟩
      · exact (will_read_iff ⟨fd, stack, stack.toList, .read 1 0⟩ stack.length_toList rfl).mpr hout

/-- **Every call keeps the invariant.** -/
theorem Inv.step {a : Label} (h : Inv files s) (hstep : Step s a s') : Inv files s' := by
  cases hstep with
  | keventFails hmain => exact h.main (.inl hmain) (fun _ ↦ Main.noConfusion)
  | keventNone hmain => exact h.main (.inl hmain) (fun _ ↦ Main.noConfusion)
  | keventReady hmain => exact h.main (.inl hmain) (fun _ ↦ Main.noConfusion)
  | acceptFails hmain => exact h.main (.inr hmain) (fun _ ↦ Main.noConfusion)
  | accepts hmain fd hfree arrived => exact h.accepts hmain hfree arrived
  | createFails hmain => exact h.createFails hmain EXIT_FAILURE
  | creates hmain stack => exact h.creates hmain stack
  | @thread _ i th hmain hth hcall =>
    have hlive : th.phase ≠ .ended := by
      intro hphase
      rw [Server.call, hphase] at hcall
      cases hcall
    obtain ⟨t, ht, hinv⟩ := h.call hth hlive
    cases ht.symm.trans hcall
    exact hinv

/-! ## The result -/

/-- **Every connection is served as if it were the only one.**  Whatever `main` and the threads have
called, in whatever order: a descriptor is open on a connection if the connection's thread has not
ended, or is about to be made, and only then; no other descriptor has been touched.  What a thread
has written is the beginning of what `daemon_loop` writes on that connection alone, and all of it
when the thread has ended; so a client that sends short lines gets them back.  A thread that has not
ended can go on as long as the process lives. -/
theorem served_alone {files : ℕ → Bool} {s : Server} {l : List Label}
    (hr : Run Step (Server.start files) l s) :
    (∀ fd, s.table fd = some .other ↔ files fd) ∧
    (∀ fd i, s.table fd = some (.conn i) ↔
      (∃ th, s.threads[i]? = some th ∧ th.fd = fd ∧ th.phase ≠ .ended) ∨
        i = s.threads.length ∧ s.main = .pthreadCreate fd) ∧
    ∀ (i : ℕ) th, s.threads[i]? = some th → ∃ c out fuel, s.conns[i]? = some c ∧
      daemon_loop th.stack c.arrived fuel = some (some out) ∧ c.written <+: out ∧
      (th.phase = .ended → c.written = out ∧
        ∀ a, ShortLines a → c.arrived = a.map arrival → c.written = bytes a) ∧
      (th.phase ≠ .ended → (∀ status, s.main ≠ .exited status) →
        ∃ t, Step s (.thread i) t) := by
  have h : Inv files s := hr.invariant (fun _ _ _ h hstep ↦ h.step hstep) (inv_start files)
  refine ⟨h.others, fun fd i ↦ ⟨h.opened fd i, ?_⟩, ?_⟩
  · rintro (⟨th, hth, rfl, hlive⟩ | ⟨rfl, hmain⟩)
    · exact h.owner i th hth hlive
    · exact h.accepted fd hmain
  · intro i th hth
    obtain ⟨c, hc, -, out, hout, hwill⟩ := h.served i th hth
    obtain ⟨fuel, hfuel⟩ := hout
    refine ⟨c, out, fuel, hc, hfuel, prefix_of_will hwill, ?_, ?_⟩
    · intro hended
      have hall : out = c.written := by rwa [Will, hended] at hwill
      refine ⟨hall.symm, ?_⟩
      intro a ha harrived
      have hecho := echo_of_shortLines ha th.stack.length_toList []
      rw [← harrived, List.nil_append] at hecho
      rw [← hall]
      exact Option.some.inj (Returns.unique ⟨fuel, hfuel⟩ hecho)
    · intro hlive hmain
      obtain ⟨t, ht, -⟩ := h.call hth hlive
      exact ⟨t, .thread hmain hth ht⟩

/-- Two clients: the second is gone before the first has said anything, and its descriptor is free
again. -/
theorem served_alone_two :
    ∃ s : Server, Run Step (Server.start (· < 3))
        [.main, .main, .main, .main, .main, .main, .thread 1, .thread 1] s ∧
      s.table 3 = some (.conn 0) ∧ s.table 4 = none ∧
      ∃ c out fuel, s.conns[1]? = some c ∧
        daemon_loop (Vector.replicate 512 0) c.arrived fuel = some (some out) ∧
        c.written = out := by
  obtain ⟨v, hv⟩ : ∃ v : Vector Byte 512, v = Vector.replicate 512 0 := ⟨_, rfl⟩
  have hrun : Run Step (Server.start (· < 3))
      [.main, .main, .main, .main, .main, .main, .thread 1, .thread 1]
      { main := .kevent
        table := Function.update (Function.update (Function.update
          (Server.start (· < 3)).table 3 (some (.conn 0))) 4 (some (.conn 1))) 4 none
        conns := [⟨[.byte 0x61], [.byte 0x61], []⟩, ⟨[], [], []⟩]
        threads := [⟨3, v, v.toList, .read 1 0⟩, ⟨4, v, v.toList, .ended⟩] } :=
    .cons (.keventReady rfl) <| .cons (.accepts rfl 3 rfl [.byte 0x61]) <|
    .cons (.creates rfl v) <| .cons (.keventReady rfl) <| .cons (.accepts rfl 4 rfl []) <|
    .cons (.creates rfl v) <|
    .cons (.thread (fun _ ↦ Main.noConfusion) rfl rfl) <|
    .cons (.thread (fun _ ↦ Main.noConfusion) rfl rfl) <| .nil _
  obtain ⟨-, -, hserved⟩ := served_alone hrun
  obtain ⟨c, out, fuel, hc, hloop, -, hended, -⟩ := hserved 1 _ rfl
  exact ⟨_, hrun, rfl, rfl, c, out, fuel, hc, hv ▸ hloop, (hended rfl).1⟩

end Dummyd
end MacOSXInternal
