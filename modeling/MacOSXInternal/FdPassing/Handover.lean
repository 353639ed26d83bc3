import Mathlib.Logic.Function.Basic
import MacOSXInternal.Lib.Runs

/-!
# Passing a file descriptor

`fd_sender` opens a file, waits for one connection on a socket that has a name in the file system,
and passes the descriptor over it.  `fd_receiver` connects to the name, takes the descriptor and
prints the beginning of what it refers to.  Any number of either may run at the same time: a sender
takes the name away from whoever had it, and closes its socket after the first connection, whoever
else may be waiting there.

* `send_fd_using_sockfd` and `receive_fd_using_sockfd` are the two ends of the message.
* `Step` is a call of a sender or of a receiver.
* `fd_passed` is the result: a descriptor goes to one receiver at most, and a receiver that succeeds
  has the descriptor of one sender and prints the beginning of its file.
-/

set_option autoImplicit false

namespace MacOSXInternal
namespace FdPassing

open Runs

/-! ## The message -/

/-- A `struct cmsghdr` with its data, which the kernel translates; `ι` are the open files. -/
structure Control (ι : Type) where
  cmsg_len : ℕ
  cmsg_level : ℕ
  cmsg_type : ℕ
  data : ι

/-- `CMSG_LEN(sizeof(int))`. -/
def CMSG_LEN : ℕ := 16

def SOL_SOCKET : ℕ := 0xffff

def SCM_RIGHTS : ℕ := 1

/-- The message that is sent. -/
def send_fd_using_sockfd {ι : Type} (fd : ι) : Control ι := ⟨CMSG_LEN, SOL_SOCKET, SCM_RIGHTS, fd⟩

def errcond {ι : Type} (cmsghdr : Control ι) : ℕ :=
  (if cmsghdr.cmsg_len ≠ CMSG_LEN then 1 else 0) +
    (if cmsghdr.cmsg_level ≠ SOL_SOCKET then 1 else 0) +
    (if cmsghdr.cmsg_type ≠ SCM_RIGHTS then 1 else 0)

/-- What is made of a message; `none` is -1. -/
def receive_fd_using_sockfd {ι : Type} : Option (Control ι) → Option ι
  | none => none
  | some cmsghdr => if errcond cmsghdr = 0 then some cmsghdr.data else none

/-- Nothing else passes for a descriptor. -/
theorem receive_fd_eq_some {ι : Type} {msg : Option (Control ι)} {fd : ι} :
    receive_fd_using_sockfd msg = some fd ↔ msg = some (send_fd_using_sockfd fd) := by
  cases msg with
  | none => exact ⟨nofun, nofun⟩
  | some cmsghdr =>
    obtain ⟨len, level, type, data⟩ := cmsghdr
    simp only [receive_fd_using_sockfd, errcond, send_fd_using_sockfd]
    split_ifs <;> simp_all

/-! ## The programs -/

/-- Where a sender is. -/
inductive Sender (κ : Type)
  | socket
  | unlink
  | bind
  | openFile
  | listen
  | accept
  | send (r : κ)
  /-- About to say whether the descriptor was sent. -/
  | report (sent : Bool)
  | exited (status : ℕ)
  /-- By a signal, as it sends to nobody. -/
  | killed
  deriving DecidableEq

/-- Where a receiver is. -/
inductive Receiver
  | connect
  | receive
  | read
  | exited (status : ℕ)
  deriving DecidableEq

structure State (ι κ β : Type) where
  /-- Whose socket `SERVER_NAME` stands for. -/
  bound : Option ι
  /-- The connections to a socket that are not yet accepted. -/
  queue : ι → List κ
  /-- To whose socket a receiver is connected. -/
  peer : κ → Option ι
  /-- The connection that a sender has accepted. -/
  conn : ι → Option κ
  /-- What there is to receive. -/
  inbox : κ → Option (Control ι)
  /-- The variable `fd` of a receiver: the sender whose open file it refers to; `none` is -1. -/
  fd : κ → Option ι
  /-- The offset in an open file, which its descriptors share. -/
  offset : ι → ℕ
  sender : ι → Sender κ
  receiver : κ → Receiver
  /-- What a sender has said: `true` is `file descriptor sent`. -/
  said : ι → Option Bool
  /-- A receiver has said `received file descriptor`. -/
  received : κ → Bool
  /-- What it has printed after that. -/
  printed : κ → List β

def start (ι κ β : Type) : State ι κ β where
  bound := none
  queue _ := []
  peer _ := none
  conn _ := none
  inbox _ := none
  fd _ := none
  offset _ := 0
  sender _ := .socket
  receiver _ := .connect
  said _ := none
  received _ := false
  printed _ := []

/-- Somebody can connect. -/
def Sender.Listening {κ : Type} : Sender κ → Prop
  | .accept | .send _ | .report _ => True
  | _ => False

variable {ι κ β : Type} [DecidableEq ι] [DecidableEq κ]

/-- Sender `i` goes on. -/
def State.goSender (s : State ι κ β) (i : ι) (phase : Sender κ) : State ι κ β :=
  { s with sender := Function.update s.sender i phase }

/-- Receiver `r` goes on. -/
def State.goReceiver (s : State ι κ β) (r : κ) (phase : Receiver) : State ι κ β :=
  { s with receiver := Function.update s.receiver r phase }

/-- What `read(fd, buf, 512)` may bring. -/
def State.chunk (s : State ι κ β) (content : ι → List β) (i : ι) (n : ℕ) : List β :=
  ((content i).drop (s.offset i)).take n

/-- A call of a sender or of a receiver, with what it does until the next.  Any may fail.  On a
socket for which `listen` has failed, `accept` does too. -/
inductive Step (content : ι → List β) : State ι κ β → ι ⊕ κ → State ι κ β → Prop
  | socket {s : State ι κ β} {i : ι} (h : s.sender i = .socket) :
      Step content s (.inl i) (s.goSender i .unlink)
  | unlink {s : State ι κ β} {i : ι} (h : s.sender i = .unlink) :
      Step content s (.inl i) { s.goSender i .bind with bound := none }
  /-- Nobody looks at what `unlink` returns. -/
  | unlinkFails {s : State ι κ β} {i : ι} (h : s.sender i = .unlink) :
      Step content s (.inl i) (s.goSender i .bind)
  | bind {s : State ι κ β} {i : ι} (h : s.sender i = .bind) (hfree : s.bound = none) :
      Step content s (.inl i) { s.goSender i .openFile with bound := some i }
  | openFile {s : State ι κ β} {i : ι} (h : s.sender i = .openFile) :
      Step content s (.inl i) (s.goSender i .listen)
  | listen {s : State ι κ β} {i : ι} (h : s.sender i = .listen) :
      Step content s (.inl i) (s.goSender i .accept)
  /-- `socket`, `bind`, `open`, `listen` or `accept`. -/
  | fails {s : State ι κ β} {i : ι} (h : s.sender i = .socket ∨ s.sender i = .bind ∨
      s.sender i = .openFile ∨ s.sender i = .listen ∨ s.sender i = .accept) :
      Step content s (.inl i) (s.goSender i (.exited 1))
  | accept {s : State ι κ β} {i : ι} {r : κ} {rest : List κ} (h : s.sender i = .accept)
      (hqueue : s.queue i = r :: rest) :
      Step content s (.inl i)
        { s.goSender i (.send r) with
          queue := Function.update s.queue i rest
          conn := Function.update s.conn i (some r) }
  | send {s : State ι κ β} {i : ι} {r : κ} (h : s.sender i = .send r) :
      Step content s (.inl i)
        { s.goSender i (.report true) with
          inbox := Function.update s.inbox r (some (send_fd_using_sockfd i)) }
  | sendFails {s : State ι κ β} {i : ι} {r : κ} (h : s.sender i = .send r) :
      Step content s (.inl i) (s.goSender i (.report false))
  | killed {s : State ι κ β} {i : ι} {r : κ} (h : s.sender i = .send r) :
      Step content s (.inl i) (s.goSender i .killed)
  | report {s : State ι κ β} {i : ι} {sent : Bool} (h : s.sender i = .report sent) :
      Step content s (.inl i)
        { s.goSender i (.exited 0) with said := Function.update s.said i (some sent) }
  | connect {s : State ι κ β} {r : κ} {i : ι} (h : s.receiver r = .connect)
      (hbound : s.bound = some i) (hlistening : (s.sender i).Listening) :
      Step content s (.inr r)
        { s.goReceiver r .receive with
          queue := Function.update s.queue i (s.queue i ++ [r])
          peer := Function.update s.peer r (some i) }
  /-- `socket` or `connect`. -/
  | connectFails {s : State ι κ β} {r : κ} (h : s.receiver r = .connect) :
      Step content s (.inr r) (s.goReceiver r (.exited 1))
  | receive {s : State ι κ β} {r : κ} {fd : ι} (h : s.receiver r = .receive)
      (hfd : receive_fd_using_sockfd (s.inbox r) = some fd) :
      Step content s (.inr r)
        { s.goReceiver r .read with
          inbox := Function.update s.inbox r none
          fd := Function.update s.fd r (some fd)
          received := Function.update s.received r true }
  /-- Also if there is nothing to receive because the other side is closed. -/
  | receiveFails {s : State ι κ β} {r : κ} (h : s.receiver r = .receive) :
      Step content s (.inr r) (s.goReceiver r (.exited 1))
  /-- `write` may print less than has been read. -/
  | read {s : State ι κ β} {r : κ} {i : ι} {n m : ℕ} (h : s.receiver r = .read)
      (hfd : s.fd r = some i) (hn : n ≤ 512) (hm : m ≤ n) :
      Step content s (.inr r)
        { s.goReceiver r (.exited 0) with
          offset := Function.update s.offset i (s.offset i + (s.chunk content i n).length)
          printed := Function.update s.printed r (s.printed r ++ s.chunk content i m) }
  | readFails {s : State ι κ β} {r : κ} (h : s.receiver r = .read) :
      Step content s (.inr r) (s.goReceiver r (.exited 0))

/-! ## Who has what from whom -/

section
variable {content : ι → List β} {s t : State ι κ β} {i j : ι} {r : κ} {phase : Sender κ}

omit [DecidableEq ι] [DecidableEq κ]

/-- The sender has not yet accepted a connection. -/
def Sender.Early : Sender κ → Prop
  | .socket | .unlink | .bind | .openFile | .listen | .accept => True
  | _ => False

/-- The descriptor has been sent, and the sender does not deny it. -/
def State.Passed (s : State ι κ β) (i : ι) : Prop :=
  s.sender i = .report true ∨ s.sender i = .exited 0 ∧ s.said i = some true

/-- The connection of the receiver is the one that the descriptor was sent over. -/
def State.From (s : State ι κ β) (i : ι) (r : κ) : Prop := s.conn i = some r ∧ s.Passed i

/-- The descriptor is on its way to the receiver, or has arrived. -/
def State.Has (s : State ι κ β) (i : ι) (r : κ) : Prop :=
  s.inbox r = some (send_fd_using_sockfd i) ∨ s.fd r = some i

/-- What a receiver has said and printed. -/
def Good (content : ι → List β) (s : State ι κ β) (r : κ) : Receiver → Prop
  | .connect => s.peer r = none ∧ s.fd r = none ∧ s.received r = false ∧ s.printed r = []
  | .receive => s.fd r = none ∧ s.received r = false ∧ s.printed r = []
  | .read => s.received r = true ∧ s.printed r = [] ∧
      ∃ i, s.fd r = some i ∧ s.From i r ∧ s.offset i = 0
  | .exited status =>
    status = 1 ∧ s.fd r = none ∧ s.received r = false ∧ s.printed r = [] ∨
      status = 0 ∧ s.received r = true ∧
        ∃ i n, s.fd r = some i ∧ s.From i r ∧ n ≤ 512 ∧ s.printed r = (content i).take n

structure Inv (content : ι → List β) (s : State ι κ β) : Prop where
  queue : ∀ i r, r ∈ s.queue i → s.peer r = some i
  conn : ∀ i r, s.conn i = some r → s.peer r = some i
  early : ∀ i, (s.sender i).Early → s.conn i = none
  sending : ∀ i r, s.sender i = .send r → s.conn i = some r
  unread : ∀ i, ¬s.Passed i → s.offset i = 0
  inbox : ∀ r cmsghdr, s.inbox r = some cmsghdr → ∃ i, cmsghdr = send_fd_using_sockfd i ∧
    s.From i r ∧ s.offset i = 0 ∧ (s.receiver r = .receive ∨ s.receiver r = .exited 1)
  good : ∀ r, Good content s r (s.receiver r)

/-- A receiver has its connection to one sender only. -/
theorem Inv.conn_inj (h : Inv content s) (hi : s.conn i = some r) (hj : s.conn j = some r) :
    i = j :=
  Option.some.inj ((h.conn i r hi).symm.trans (h.conn j r hj))

theorem Good.mono {x : Receiver} (h : Good content s r x) (hpeer : t.peer r = s.peer r)
    (hfd : t.fd r = s.fd r) (hreceived : t.received r = s.received r)
    (hprinted : t.printed r = s.printed r) (hfrom : ∀ i, s.From i r → t.From i r)
    (hoffset : ∀ i, s.From i r → s.offset i = 0 → t.offset i = 0) : Good content t r x := by
  cases x with
  | connect =>
    exact ⟨hpeer.trans h.1, hfd.trans h.2.1, hreceived.trans h.2.2.1, hprinted.trans h.2.2.2⟩
  | receive => exact ⟨hfd.trans h.1, hreceived.trans h.2.1, hprinted.trans h.2.2⟩
  | read =>
    obtain ⟨hsaid, hnone, i, hi, hiFrom, hzero⟩ := h
    exact ⟨hreceived.trans hsaid, hprinted.trans hnone, i, hfd.trans hi, hfrom i hiFrom,
      hoffset i hiFrom hzero⟩
  | exited status =>
    obtain ⟨hone, hi, hsaid, hnone⟩ | ⟨hzero, hsaid, i, n, hi, hiFrom, hn, hout⟩ := h
    · exact .inl ⟨hone, hfd.trans hi, hreceived.trans hsaid, hprinted.trans hnone⟩
    · exact .inr ⟨hzero, hreceived.trans hsaid, i, n, hfd.trans hi, hfrom i hiFrom, hn,
        hprinted.trans hout⟩

/-- What a receiver has arrived over its connection. -/
theorem Good.fd {x : Receiver} (h : Good content s r x) (hfd : s.fd r = some i) : s.From i r := by
  cases x with
  | connect => exact absurd (h.2.1.symm.trans hfd) nofun
  | receive => exact absurd (h.1.symm.trans hfd) nofun
  | read =>
    obtain ⟨-, -, j, hj, hfrom, -⟩ := h
    rwa [← Option.some.inj (hj.symm.trans hfd)]
  | exited status =>
    obtain ⟨-, hnone, -⟩ | ⟨-, -, j, n, hj, hfrom, -⟩ := h
    · exact absurd (hnone.symm.trans hfd) nofun
    · rwa [← Option.some.inj (hj.symm.trans hfd)]

/-- Who has a descriptor, or is about to, is at the connection that its sender has accepted. -/
theorem Inv.has (h : Inv content s) (hi : s.Has i r) : s.From i r := by
  obtain hinbox | hfd := hi
  · obtain ⟨j, heq, hfrom, -⟩ := h.inbox r _ hinbox
    obtain rfl : i = j := congrArg Control.data heq
    exact hfrom
  · exact (h.good r).fd hfd

theorem not_passed_of_early (h : (s.sender i).Early) : ¬s.Passed i := by
  rintro (hreport | ⟨hexited, -⟩)
  · rw [hreport] at h
    exact h
  · rw [hexited] at h
    exact h

theorem not_passed_of_send (h : s.sender i = .send r) : ¬s.Passed i := by
  rintro (hreport | ⟨hexited, -⟩)
  · exact absurd (h.symm.trans hreport) nofun
  · exact absurd (h.symm.trans hexited) nofun

theorem Inv.bound (h : Inv content s) (bound : Option ι) : Inv content { s with bound := bound } :=
  ⟨h.queue, h.conn, h.early, h.sending, h.unread, h.inbox, h.good⟩

end

/-! ### The steps of a sender -/

section
variable {content : ι → List β} {s t : State ι κ β} {i j : ι} {r : κ} {phase : Sender κ}

omit [DecidableEq κ]

theorem goSender_of_ne (h : j ≠ i) : (s.goSender i phase).sender j = s.sender j :=
  Function.update_of_ne h ..

@[simp] theorem goSender_self : (s.goSender i phase).sender i = phase := Function.update_self ..

/-- A sender that has sent nothing goes on without sending. -/
theorem passed_goSender (hold : ¬s.Passed i) (hreport : phase ≠ .report true)
    (hexited : phase ≠ .exited 0) : (s.goSender i phase).Passed j ↔ s.Passed j := by
  by_cases hj : j = i
  · subst hj
    refine iff_of_false ?_ hold
    rintro (hnew | ⟨hnew, -⟩)
    · exact hreport (goSender_self.symm.trans hnew)
    · exact hexited (goSender_self.symm.trans hnew)
  · unfold State.Passed
    rw [goSender_of_ne hj]
    exact Iff.rfl

/-- A sender goes on, and has sent its descriptor or not as before. -/
theorem Inv.goSender (h : Inv content s) (said : ι → Option Bool)
    (hpassed : ∀ j, State.Passed { s.goSender i phase with said := said } j ↔ s.Passed j)
    (hearly : phase.Early → (s.sender i).Early) (hsending : ∀ r, phase ≠ .send r) :
    Inv content { s.goSender i phase with said := said } := by
  refine ⟨h.queue, h.conn, fun j hj ↦ ?_, fun j r hj ↦ ?_, fun j hj ↦ h.unread j ?_,
    fun r cmsghdr hr ↦ ?_, fun r ↦ ?_⟩
  · change ((s.goSender i phase).sender j).Early at hj
    by_cases hji : j = i
    · subst hji
      rw [goSender_self] at hj
      exact h.early j (hearly hj)
    · rw [goSender_of_ne hji] at hj
      exact h.early j hj
  · change (s.goSender i phase).sender j = _ at hj
    by_cases hji : j = i
    · subst hji
      exact absurd (goSender_self.symm.trans hj) (hsending r)
    · rw [goSender_of_ne hji] at hj
      exact h.sending j r hj
  · exact fun hs ↦ hj ((hpassed j).mpr hs)
  · obtain ⟨j, heq, hfrom, hrest⟩ := h.inbox r cmsghdr hr
    exact ⟨j, heq, ⟨hfrom.1, (hpassed j).mpr hfrom.2⟩, hrest⟩
  · exact (h.good r).mono rfl rfl rfl rfl (fun j hj ↦ ⟨hj.1, (hpassed j).mpr hj.2⟩) fun _ _ hj ↦ hj

theorem Inv.goSender_early (h : Inv content s) (hi : (s.sender i).Early)
    (hreport : phase ≠ .report true) (hexited : phase ≠ .exited 0)
    (hsending : ∀ r, phase ≠ .send r) : Inv content (s.goSender i phase) :=
  h.goSender s.said (fun _ ↦ passed_goSender (not_passed_of_early hi) hreport hexited)
    (fun _ ↦ hi) hsending

theorem Inv.accept (h : Inv content s) {rest : List κ} (hi : s.sender i = .accept)
    (hqueue : s.queue i = r :: rest) :
    Inv content { s.goSender i (.send r) with
      queue := Function.update s.queue i rest
      conn := Function.update s.conn i (some r) } := by
  have hearly : (s.sender i).Early := by
    rw [hi]
    trivial
  have hnone := h.early i hearly
  have hpassed (j : ι) : (s.goSender i (.send r)).Passed j ↔ s.Passed j :=
    passed_goSender (not_passed_of_early hearly) nofun nofun
  have hfrom {j : ι} {r' : κ} (hj : s.From j r') :
      Function.update s.conn i (some r) j = some r' ∧ (s.goSender i (.send r)).Passed j := by
    refine ⟨(Function.update_of_ne ?_ ..).trans hj.1, (hpassed j).mpr hj.2⟩
    rintro rfl
    exact absurd (hnone.symm.trans hj.1) nofun
  refine ⟨fun j r' hr' ↦ ?_, fun j r' hj ↦ ?_, fun j hj ↦ ?_, fun j r' hj ↦ ?_,
    fun j hj ↦ h.unread j fun hs ↦ hj ((hpassed j).mpr hs), fun r' cmsghdr hr' ↦ ?_, fun r' ↦ ?_⟩
  · change r' ∈ Function.update s.queue i rest j at hr'
    by_cases hji : j = i
    · subst hji
      rw [Function.update_self] at hr'
      exact h.queue j r' (hqueue ▸ List.mem_cons_of_mem _ hr')
    · rw [Function.update_of_ne hji] at hr'
      exact h.queue j r' hr'
  · change Function.update s.conn i (some r) j = some r' at hj
    by_cases hji : j = i
    · subst hji
      rw [Function.update_self] at hj
      obtain rfl := Option.some.inj hj
      exact h.queue j r (hqueue ▸ List.mem_cons_self)
    · rw [Function.update_of_ne hji] at hj
      exact h.conn j r' hj
  · change ((s.goSender i (.send r)).sender j).Early at hj
    by_cases hji : j = i
    · subst hji
      rw [goSender_self] at hj
      exact hj.elim
    · rw [goSender_of_ne hji] at hj
      exact (Function.update_of_ne hji ..).trans (h.early j hj)
  · change (s.goSender i (.send r)).sender j = _ at hj
    by_cases hji : j = i
    · subst hji
      rw [goSender_self] at hj
      obtain rfl := Sender.send.inj hj
      exact Function.update_self ..
    · rw [goSender_of_ne hji] at hj
      exact (Function.update_of_ne hji ..).trans (h.sending j r' hj)
  · obtain ⟨j, heq, hj, hrest⟩ := h.inbox r' cmsghdr hr'
    exact ⟨j, heq, hfrom hj, hrest⟩
  · exact (h.good r').mono rfl rfl rfl rfl (fun _ hj ↦ hfrom hj) fun _ _ hj ↦ hj

end

section
variable {content : ι → List β} {s t : State ι κ β} {i j : ι} {r : κ}

theorem Inv.send (h : Inv content s) (hi : s.sender i = .send r) :
    Inv content { s.goSender i (.report true) with
      inbox := Function.update s.inbox r (some (send_fd_using_sockfd i)) } := by
  have hconn := h.sending i r hi
  have hnot := not_passed_of_send hi
  have hpassed {j : ι} (hj : s.Passed j) : (s.goSender i (.report true)).Passed j := by
    by_cases hji : j = i
    · subst hji
      exact absurd hj hnot
    · unfold State.Passed
      rw [goSender_of_ne hji]
      exact hj
  -- nobody else has sent anything to the receiver
  have hwaits : s.receiver r = .receive ∨ s.receiver r = .exited 1 := by
    have hgood := h.good r
    have hothers {j : ι} (hj : s.From j r) : False :=
      hnot (h.conn_inj hconn hj.1 ▸ hj.2)
    cases hr : s.receiver r with
    | connect =>
      rw [hr] at hgood
      exact absurd (hgood.1.symm.trans (h.conn i r hconn)) nofun
    | receive => exact .inl rfl
    | read =>
      rw [hr] at hgood
      obtain ⟨-, -, j, -, hj, -⟩ := hgood
      exact (hothers hj).elim
    | exited status =>
      rw [hr] at hgood
      obtain ⟨rfl, -⟩ | ⟨-, -, j, n, -, hj, -⟩ := hgood
      · exact .inr rfl
      · exact (hothers hj).elim
  refine ⟨h.queue, h.conn, fun j hj ↦ ?_, fun j r' hj ↦ ?_,
    fun j hj ↦ h.unread j fun hs ↦ hj (hpassed hs), fun r' cmsghdr hr' ↦ ?_, fun r' ↦ ?_⟩
  · change ((s.goSender i (.report true)).sender j).Early at hj
    by_cases hji : j = i
    · subst hji
      rw [goSender_self] at hj
      exact hj.elim
    · rw [goSender_of_ne hji] at hj
      exact h.early j hj
  · change (s.goSender i (.report true)).sender j = _ at hj
    by_cases hji : j = i
    · subst hji
      exact absurd (goSender_self.symm.trans hj) nofun
    · rw [goSender_of_ne hji] at hj
      exact h.sending j r' hj
  · change Function.update s.inbox r (some (send_fd_using_sockfd i)) r' = some cmsghdr at hr'
    by_cases hrr : r' = r
    · subst hrr
      rw [Function.update_self] at hr'
      exact ⟨i, (Option.some.inj hr').symm, ⟨hconn, .inl goSender_self⟩, h.unread i hnot, hwaits⟩
    · rw [Function.update_of_ne hrr] at hr'
      obtain ⟨j, heq, hj, hrest⟩ := h.inbox r' cmsghdr hr'
      exact ⟨j, heq, ⟨hj.1, hpassed hj.2⟩, hrest⟩
  · exact (h.good r').mono rfl rfl rfl rfl (fun j hj ↦ ⟨hj.1, hpassed hj.2⟩) fun _ _ hj ↦ hj

omit [DecidableEq κ] in
/-- What a sender says changes nothing. -/
theorem Inv.report (h : Inv content s) {sent : Bool} (hi : s.sender i = .report sent) :
    Inv content { s.goSender i (.exited 0) with said := Function.update s.said i (some sent) } := by
  refine h.goSender _ (fun j ↦ ?_) (fun hat ↦ hat.elim) nofun
  unfold State.Passed
  show (s.goSender i (.exited 0)).sender j = _ ∨ (s.goSender i (.exited 0)).sender j = _ ∧
    Function.update s.said i (some sent) j = some true ↔ _
  by_cases hji : j = i
  · subst hji
    rw [goSender_self, Function.update_self, hi]
    simp
  · rw [goSender_of_ne hji, Function.update_of_ne hji]

/-! ### The steps of a receiver -/

omit [DecidableEq ι] in
theorem goReceiver_of_ne {x : Receiver} {r' : κ} (h : r' ≠ r) :
    (s.goReceiver r x).receiver r' = s.receiver r' :=
  Function.update_of_ne h ..

omit [DecidableEq ι] in
@[simp] theorem goReceiver_self {x : Receiver} : (s.goReceiver r x).receiver r = x :=
  Function.update_self ..

theorem Inv.connect (h : Inv content s) (hr : s.receiver r = .connect) :
    Inv content { s.goReceiver r .receive with
      queue := Function.update s.queue i (s.queue i ++ [r])
      peer := Function.update s.peer r (some i) } := by
  have hgood := h.good r
  rw [hr] at hgood
  obtain ⟨hnone, hwaits⟩ := hgood
  have hpeer {r' : κ} {j : ι} (hr' : s.peer r' = some j) :
      Function.update s.peer r (some i) r' = some j ∧ r' ≠ r := by
    have hne : r' ≠ r := by
      rintro rfl
      exact absurd (hnone.symm.trans hr') nofun
    exact ⟨(Function.update_of_ne hne ..).trans hr', hne⟩
  refine ⟨fun j r' hr' ↦ ?_, fun j r' hj ↦ (hpeer (h.conn j r' hj)).1, h.early, h.sending, h.unread,
    fun r' cmsghdr hr' ↦ ?_, fun r' ↦ ?_⟩
  · change r' ∈ Function.update s.queue i (s.queue i ++ [r]) j at hr'
    by_cases hji : j = i
    · subst hji
      rw [Function.update_self] at hr'
      obtain hold | hnew := List.mem_append.mp hr'
      · exact (hpeer (h.queue j r' hold)).1
      · obtain rfl := List.mem_singleton.mp hnew
        exact Function.update_self ..
    · rw [Function.update_of_ne hji] at hr'
      exact (hpeer (h.queue j r' hr')).1
  · obtain ⟨j, heq, hj, hzero, hwaits⟩ := h.inbox r' cmsghdr hr'
    refine ⟨j, heq, hj, hzero, ?_⟩
    rwa [← goReceiver_of_ne (s := s) (x := .receive) (hpeer (h.conn j r' hj.1)).2] at hwaits
  · by_cases hrr : r' = r
    · subst hrr
      show Good content _ r' ((s.goReceiver r' .receive).receiver r')
      rw [goReceiver_self]
      exact hwaits
    · show Good content _ r' ((s.goReceiver r .receive).receiver r')
      rw [goReceiver_of_ne hrr]
      exact (h.good r').mono (Function.update_of_ne hrr ..) rfl rfl rfl (fun _ hj ↦ hj)
        fun _ _ hj ↦ hj

omit [DecidableEq ι] in
/-- A receiver gives up. -/
theorem Inv.giveUp (h : Inv content s) (hr : s.receiver r = .connect ∨ s.receiver r = .receive) :
    Inv content (s.goReceiver r (.exited 1)) := by
  have hnothing : s.fd r = none ∧ s.received r = false ∧ s.printed r = [] := by
    have hgood := h.good r
    obtain hr | hr := hr
    · rw [hr] at hgood
      exact hgood.2
    · rw [hr] at hgood
      exact hgood
  refine ⟨h.queue, h.conn, h.early, h.sending, h.unread, fun r' cmsghdr hr' ↦ ?_, fun r' ↦ ?_⟩
  · obtain ⟨j, heq, hj, hzero, hwaits⟩ := h.inbox r' cmsghdr hr'
    refine ⟨j, heq, hj, hzero, ?_⟩
    by_cases hrr : r' = r
    · subst hrr
      exact .inr goReceiver_self
    · rwa [goReceiver_of_ne hrr]
  · by_cases hrr : r' = r
    · subst hrr
      rw [goReceiver_self]
      exact .inl ⟨rfl, hnothing⟩
    · rw [goReceiver_of_ne hrr]
      exact (h.good r').mono rfl rfl rfl rfl (fun _ hj ↦ hj) fun _ _ hj ↦ hj

omit [DecidableEq ι] in
theorem Inv.receive (h : Inv content s) (hr : s.receiver r = .receive)
    (hfd : receive_fd_using_sockfd (s.inbox r) = some i) :
    Inv content { s.goReceiver r .read with
      inbox := Function.update s.inbox r none
      fd := Function.update s.fd r (some i)
      received := Function.update s.received r true } := by
  obtain ⟨i', heq, hfrom, hzero, -⟩ := h.inbox r _ (receive_fd_eq_some.mp hfd)
  obtain rfl : i = i' := congrArg Control.data heq
  have hgood := h.good r
  rw [hr] at hgood
  refine ⟨h.queue, h.conn, h.early, h.sending, h.unread, fun r' cmsghdr hr' ↦ ?_, fun r' ↦ ?_⟩
  · change Function.update s.inbox r none r' = some cmsghdr at hr'
    have hrr : r' ≠ r := by
      rintro rfl
      rw [Function.update_self] at hr'
      exact absurd hr' nofun
    rw [Function.update_of_ne hrr] at hr'
    obtain ⟨j, heq, hj, hzero, hwaits⟩ := h.inbox r' cmsghdr hr'
    refine ⟨j, heq, hj, hzero, ?_⟩
    rwa [← goReceiver_of_ne (s := s) (x := .read) hrr] at hwaits
  · by_cases hrr : r' = r
    · subst hrr
      show Good content _ r' ((s.goReceiver r' .read).receiver r')
      rw [goReceiver_self]
      exact ⟨Function.update_self .., hgood.2.2, i, Function.update_self .., hfrom, hzero⟩
    · show Good content _ r' ((s.goReceiver r .read).receiver r')
      rw [goReceiver_of_ne hrr]
      exact (h.good r').mono rfl (Function.update_of_ne hrr ..) (Function.update_of_ne hrr ..) rfl
        (fun _ hj ↦ hj) fun _ _ hj ↦ hj

/-- A receiver ends, having read `bytes` from the beginning of the file. -/
theorem Inv.finish (h : Inv content s) {n k : ℕ} {bytes : List β} (hr : s.receiver r = .read)
    (hfd : s.fd r = some i) (hn : n ≤ 512) (hbytes : bytes = (content i).take n) :
    Inv content { s.goReceiver r (.exited 0) with
      offset := Function.update s.offset i k
      printed := Function.update s.printed r bytes } := by
  have hgood := h.good r
  rw [hr] at hgood
  obtain ⟨hreceived, -⟩ := hgood
  have hfrom : s.From i r := (h.good r).fd hfd
  -- nobody else has the descriptor
  have hoffset {j : ι} {r' : κ} (hrr : r' ≠ r) (hj : s.From j r') (hzero : s.offset j = 0) :
      Function.update s.offset i k j = 0 := by
    refine (Function.update_of_ne ?_ ..).trans hzero
    rintro rfl
    exact hrr (Option.some.inj (hj.1.symm.trans hfrom.1))
  refine ⟨h.queue, h.conn, h.early, h.sending, fun j hj ↦ ?_, fun r' cmsghdr hr' ↦ ?_,
    fun r' ↦ ?_⟩
  · refine (Function.update_of_ne ?_ ..).trans (h.unread j hj)
    rintro rfl
    exact hj hfrom.2
  · obtain ⟨j, heq, hj, hzero, hwaits⟩ := h.inbox r' cmsghdr hr'
    have hrr : r' ≠ r := by
      rintro rfl
      obtain hwaits | hwaits := hwaits
      · exact absurd (hr.symm.trans hwaits) nofun
      · exact absurd (hr.symm.trans hwaits) nofun
    refine ⟨j, heq, hj, hoffset hrr hj hzero, ?_⟩
    rwa [← goReceiver_of_ne (s := s) (x := .exited 0) hrr] at hwaits
  · by_cases hrr : r' = r
    · subst hrr
      show Good content _ r' ((s.goReceiver r' (.exited 0)).receiver r')
      rw [goReceiver_self]
      exact .inr ⟨rfl, hreceived, i, n, hfd, hfrom, hn, (Function.update_self ..).trans hbytes⟩
    · show Good content _ r' ((s.goReceiver r (.exited 0)).receiver r')
      rw [goReceiver_of_ne hrr]
      exact (h.good r').mono rfl rfl rfl (Function.update_of_ne hrr ..) (fun _ hj ↦ hj)
        fun _ hj hzero ↦ hoffset hrr hj hzero

theorem Inv.step (h : Inv content s) {who : ι ⊕ κ} (hstep : Step content s who t) :
    Inv content t := by
  cases hstep with
  | socket hi | unlinkFails hi | openFile hi | listen hi =>
    exact h.goSender_early (by rw [hi]; trivial) nofun nofun nofun
  | @unlink i hi =>
    have hgone : Inv content (s.goSender i .bind) :=
      h.goSender_early (by rw [hi]; trivial) nofun nofun nofun
    exact hgone.bound none
  | @bind i hi =>
    have hgone : Inv content (s.goSender i .openFile) :=
      h.goSender_early (by rw [hi]; trivial) nofun nofun nofun
    exact hgone.bound (some i)
  | @fails i hi =>
    refine h.goSender_early ?_ nofun nofun nofun
    obtain hi | hi | hi | hi | hi := hi
    all_goals
      rw [hi]
      trivial
  | accept hi hqueue => exact h.accept hi hqueue
  | send hi => exact h.send hi
  | sendFails hi | killed hi =>
    exact h.goSender s.said (fun _ ↦ passed_goSender (not_passed_of_send hi) nofun nofun)
      (fun hat ↦ hat.elim) nofun
  | report hi => exact h.report hi
  | connect hr => exact h.connect hr
  | connectFails hr => exact h.giveUp (.inl hr)
  | receive hr hfd => exact h.receive hr hfd
  | receiveFails hr => exact h.giveUp (.inr hr)
  | @read r i n m hr hfd hn hm =>
    have hgood := h.good r
    rw [hr] at hgood
    obtain ⟨-, hnone, j, hj, -, hzero⟩ := hgood
    obtain rfl := Option.some.inj (hj.symm.trans hfd)
    exact h.finish hr hfd (Nat.le_trans hm hn) (by simp [hnone, State.chunk, hzero])
  | @readFails r hr =>
    have hgood := h.good r
    rw [hr] at hgood
    obtain ⟨-, hnone, i, hfd, -⟩ := hgood
    have hdone := h.finish (k := s.offset i) hr hfd (Nat.zero_le 512) (List.take_zero ..).symm
    rwa [Function.update_eq_self, ← hnone, Function.update_eq_self] at hdone

omit [DecidableEq ι] [DecidableEq κ] in
theorem inv_start (content : ι → List β) : Inv content (start ι κ β) where
  queue _ _ h := by exact absurd h nofun
  conn _ _ h := by exact absurd h nofun
  early _ _ := rfl
  sending _ _ h := by exact absurd h nofun
  unread _ _ := rfl
  inbox _ _ h := by exact absurd h nofun
  good _ := ⟨rfl, rfl, rfl, rfl⟩

/-- **A descriptor is passed to one receiver at most**, in whatever order the programs make their
calls and whichever of them fail.

* A descriptor that is on its way or has arrived is that of one sender, and it is so for one
  receiver: that at the connection which the sender has accepted.
* The sender, if it has ended, in whatever way, has then exited with 0 and said that the descriptor
  was sent; if not, it is about to say so.
* A receiver that exits with 0 says that it has received a descriptor, has that of one sender, and
  prints the beginning of the file that this sender has opened, whoever has the name by now.
* A receiver that exits otherwise exits with 1, has no descriptor and prints nothing. -/
theorem fd_passed {l : List (ι ⊕ κ)} (hrun : Run (Step content) (start ι κ β) l s) :
    (∀ i r r', s.Has i r → s.Has i r' → r = r') ∧
    (∀ i j r, s.conn i = some r → s.conn j = some r → i = j) ∧
    (∀ i r, s.Has i r → s.conn i = some r ∧
      (s.sender i = .report true ∨ s.sender i = .exited 0 ∧ s.said i = some true)) ∧
    (∀ r, s.receiver r = .exited 0 → s.received r = true ∧ ∃ i n, s.fd r = some i ∧
      s.conn i = some r ∧ (s.sender i = .exited 0 → s.said i = some true) ∧ n ≤ 512 ∧
      s.printed r = (content i).take n) ∧
    ∀ r status, s.receiver r = .exited status → status ≠ 0 →
      status = 1 ∧ s.fd r = none ∧ s.received r = false ∧ s.printed r = [] := by
  have h : Inv content s :=
    hrun.invariant (fun _ _ _ h hstep ↦ h.step hstep) (inv_start content)
  refine ⟨fun i r r' hr hr' ↦ ?_, fun _ _ _ ↦ h.conn_inj, fun i r ↦ h.has, fun r hr ↦ ?_,
    fun r status hr hstatus ↦ ?_⟩
  · exact Option.some.inj ((h.has hr).1.symm.trans (h.has hr').1)
  · have hgood := h.good r
    rw [hr] at hgood
    obtain ⟨hone, -⟩ | ⟨-, hreceived, i, n, hfd, hfrom, hn, hprinted⟩ := hgood
    · exact absurd hone nofun
    · refine ⟨hreceived, i, n, hfd, hfrom.1, fun hexited ↦ ?_, hn, hprinted⟩
      obtain hreport | hsaid := hfrom.2
      · exact absurd (hexited.symm.trans hreport) nofun
      · exact hsaid.2
  · have hgood := h.good r
    rw [hr] at hgood
    exact hgood.resolve_right fun hdone ↦ hstatus hdone.1

end

/-- One sender, two receivers: the second finds the other side closed. -/
theorem fd_passed_two : ∃ s : State Unit Bool Char, s.receiver true = .exited 0 ∧
    s.receiver false = .exited 1 ∧ s.received true = true ∧ s.printed true = ['m', 'e'] ∧
    s.printed false = [] ∧ s.said () = some true ∧ ¬s.Has () false := by
  have hruns : ∃ s : State Unit Bool Char, Run (Step fun _ ↦ ['m', 'e'])
      (start Unit Bool Char) (.replicate 5 (.inl ()) ++ [.inr true, .inr false] ++
        .replicate 3 (.inl ()) ++ [.inr true, .inr true, .inr false]) s ∧
      s.receiver true = .exited 0 ∧ s.receiver false = .exited 1 ∧
      s.printed true = ['m', 'e'] ∧ s.sender () = .exited 0 ∧ s.fd true = some () :=
    ⟨_, .cons (.socket rfl) <| .cons (.unlink rfl) <| .cons (.bind rfl rfl) <|
      .cons (.openFile rfl) <| .cons (.listen rfl) <|
      .cons (@Step.connect _ _ _ _ _ _ _ true () rfl rfl trivial) <|
      .cons (@Step.connect _ _ _ _ _ _ _ false () rfl rfl trivial) <|
      .cons (.accept rfl rfl) <| .cons (.send rfl) <| .cons (.report rfl) <|
      .cons (.receive rfl rfl) <|
      .cons (@Step.read _ _ _ _ _ _ _ true () 512 512 rfl rfl (by decide) (Nat.le_refl _)) <|
      .single (.receiveFails rfl), rfl, rfl, rfl, rfl, rfl⟩
  obtain ⟨s, hrun, hdone, hfailed, hprinted, hsent, hfd⟩ := hruns
  obtain ⟨honce, -, hsaid, hzero, hone⟩ := fd_passed hrun
  refine ⟨s, hdone, hfailed, (hzero true hdone).1, hprinted,
    (hone false 1 hfailed (by decide)).2.2.2, ?_, fun hfalse ↦ ?_⟩
  · obtain hreport | hsent := (hsaid () true (.inr hfd)).2
    · exact absurd (hsent.symm.trans hreport) nofun
    · exact hsent.2
  · exact absurd (honce () true false (.inr hfd) hfalse) (by decide)

end FdPassing
end MacOSXInternal
