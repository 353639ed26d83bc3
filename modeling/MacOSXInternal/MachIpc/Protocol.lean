import MacOSXInternal.Lib.Ports
import MacOSXInternal.Lib.Runs
import MacOSXInternal.MachIpc.Factorial

/-!
# The factorial server and its clients

A client of `simple_ipc_client.c` sends one request to the server's port, and then receives on its
own port until a message has the right id.  The server of `simple_ipc_server.c` receives a message,
computes, and sends to the port that the message came with, through one buffer for what it receives
and one for what it sends.

* `State` is the queues, the server with its two buffers, and the clients; `Step` is one call of
  `mach_msg`, or the server's computation in between.  Messages are received in any order, and get
  lost.
* `inFlight` follows the request of a client through the queue and the two buffers.
* `Inv` is the invariant: everything that is anywhere is a request of some client or its reply, and
  what is in flight and what has been answered together are no more than what has been asked.
* `no_mix_up` is the result.
-/

set_option autoImplicit false

namespace MacOSXInternal
namespace SimpleIpc

open Runs

/-! ## The programs -/

def DEFAULT_MSG_ID : BitVec 32 := 400

abbrev Port := ℕ

def MACH_PORT_NULL : Port := 0

/-- A header and the data. -/
structure Message where
  msgh_remote_port : Port
  msgh_local_port : Port
  msgh_id : BitVec 32
  data : BitVec 32
  deriving DecidableEq, Repr

/-- A message as its receiver sees it: the sender's local port is the remote one. -/
def Message.received (m : Message) : Message :=
  { m with
    msgh_remote_port := m.msgh_local_port
    msgh_local_port := m.msgh_remote_port }

/-- The clients, their ports and their arguments. -/
structure Setup (ι : Type) where
  server_port : Port
  client_port : ι → Port
  /-- `atoi(argv[1])`, for a client that has been given an argument. -/
  argument : ι → Option (BitVec 32)
  injective : Function.Injective client_port
  ne_server : ∀ i, client_port i ≠ server_port

namespace Setup

variable {ι : Type} (S : Setup ι) (i : ι)

/-- What a client assigns to `send_msg.data`. -/
def value : BitVec 32 :=
  let data := (S.argument i).getD 0
  if data.toInt < 1 ∨ 20 < data.toInt then 1 else data

/-- What a client prepares. -/
def request : Message where
  msgh_remote_port := S.server_port
  msgh_local_port := S.client_port i
  msgh_id := DEFAULT_MSG_ID
  data := S.value i

end Setup

/-- What the server prepares when it has received `recv_msg`. -/
def answer (recv_msg : Message) : Message where
  msgh_remote_port := recv_msg.msgh_remote_port
  msgh_local_port := MACH_PORT_NULL
  msgh_id := recv_msg.msgh_id
  data := factorial recv_msg.data

inductive ServerPc
  | receiving
  | received
  | prepared
  deriving DecidableEq, Repr

structure Server where
  pc : ServerPc
  recv_msg : Message
  send_msg : Message

inductive ClientPc
  | start
  | receiving
  | exited
  deriving DecidableEq, Repr

/-- A client, and what it has printed. -/
structure Client where
  pc : ClientPc
  recv_msg : Message
  printed : List (BitVec 32)

structure State (ι : Type) where
  ports : Ports Port Message
  server : Server
  client : ι → Client

inductive Action (ι : Type)
  | clientSend (i : ι)
  | serverReceive (m : Message)
  | serverPrepare
  | serverSend
  | clientReceive (i : ι) (m : Message)
  | lose (p : Port) (m : Message)

/-- The client has printed what it has received, and goes on until the id is right. -/
def Client.receive (c : Client) (m : Message) : Client where
  pc := if m.received.msgh_id = DEFAULT_MSG_ID then .exited else .receiving
  recv_msg := m.received
  printed := c.printed ++ [m.received.data]

variable {ι : Type}

/-- One step of one party. -/
inductive Step [DecidableEq ι] (S : Setup ι) : State ι → Action ι → State ι → Prop
  | clientSend {σ : State ι} {i : ι} (h : (σ.client i).pc = .start) :
      Step S σ (.clientSend i)
        { σ with
          ports := σ.ports.post (S.request i).msgh_remote_port (S.request i)
          client := Function.update σ.client i { σ.client i with pc := .receiving } }
  | serverReceive {σ : State ι} {m : Message} (h : σ.server.pc = .receiving)
      (hm : m ∈ σ.ports.queue S.server_port) :
      Step S σ (.serverReceive m)
        { σ with
          ports := σ.ports.remove S.server_port m
          server := { σ.server with pc := .received, recv_msg := m.received } }
  | serverPrepare {σ : State ι} (h : σ.server.pc = .received) :
      Step S σ .serverPrepare
        { σ with
          server := { σ.server with pc := .prepared, send_msg := answer σ.server.recv_msg } }
  | serverSend {σ : State ι} (h : σ.server.pc = .prepared) :
      Step S σ .serverSend
        { σ with
          ports := σ.ports.post σ.server.send_msg.msgh_remote_port σ.server.send_msg
          server := { σ.server with pc := .receiving } }
  | clientReceive {σ : State ι} {i : ι} {m : Message} (h : (σ.client i).pc = .receiving)
      (hm : m ∈ σ.ports.queue (S.client_port i)) :
      Step S σ (.clientReceive i m)
        { σ with
          ports := σ.ports.remove (S.client_port i) m
          client := Function.update σ.client i ((σ.client i).receive m) }
  | lose {σ : State ι} {p : Port} {m : Message} (hm : m ∈ σ.ports.queue p) :
      Step S σ (.lose p m) { σ with ports := σ.ports.remove p m }

/-- Nothing has happened yet.  The buffers may contain anything. -/
structure Initial (σ : State ι) : Prop where
  queue : ∀ p, σ.ports.queue p = []
  sent : σ.ports.sent = []
  server : σ.server.pc = .receiving
  client : ∀ i, (σ.client i).pc = .start ∧ (σ.client i).printed = []

/-! ## The invariant -/

section
variable (S : Setup ι) (σ : State ι) (i : ι)

/-- The reply to a client. -/
def Setup.reply : Message where
  msgh_remote_port := S.client_port i
  msgh_local_port := MACH_PORT_NULL
  msgh_id := DEFAULT_MSG_ID
  data := factorial (S.value i)

/-- A request comes from the client. -/
def Setup.sentBy (m : Message) : Bool := m.msgh_local_port = S.client_port i

/-- The requests the client has sent. -/
def requests : ℕ := σ.ports.posted S.server_port (S.sentBy i)

/-- The replies that have been sent to the client. -/
def replies : ℕ := σ.ports.posted (S.client_port i) fun _ ↦ true

/-- What the server has in hand for the client. -/
def inHand : ℕ :=
  match σ.server.pc with
  | .receiving => 0
  | .received => if σ.server.recv_msg.msgh_remote_port = S.client_port i then 1 else 0
  | .prepared => if σ.server.send_msg.msgh_remote_port = S.client_port i then 1 else 0

/-- Requests of the client that have not been answered, and are not lost. -/
def inFlight : ℕ := σ.ports.queued S.server_port (S.sentBy i) + inHand S σ i

end

/-- The invariant. -/
structure Inv (S : Setup ι) (σ : State ι) : Prop where
  honest : σ.ports.Honest
  request : ∀ m, (S.server_port, m) ∈ σ.ports.sent → ∃ i, m = S.request i
  reply : ∀ i m, (S.client_port i, m) ∈ σ.ports.sent → m = S.reply i
  received : σ.server.pc = .received → ∃ i, σ.server.recv_msg = (S.request i).received
  prepared : σ.server.pc = .prepared → ∃ i, σ.server.send_msg = S.reply i
  answered : ∀ i, inFlight S σ i + replies S σ i ≤ requests S σ i
  asked : ∀ i, requests S σ i ≤ if (σ.client i).pc = .start then 0 else 1
  printed : ∀ i, (σ.client i).printed =
    if (σ.client i).pc = .exited then [factorial (S.value i)] else []

variable {S : Setup ι} {σ τ : State ι} {i j : ι}

theorem Inv.of_initial (h : Initial σ) : Inv S σ where
  honest p m hm := by
    rw [h.queue] at hm
    cases hm
  request m hm := by
    rw [h.sent] at hm
    cases hm
  reply i m hm := by
    rw [h.sent] at hm
    cases hm
  received hpc := by
    rw [h.server] at hpc
    cases hpc
  prepared hpc := by
    rw [h.server] at hpc
    cases hpc
  answered i := by
    simp [inFlight, inHand, replies, requests, Ports.queued, Ports.posted, h.queue, h.sent,
      h.server]
  asked i := by simp [requests, Ports.posted, h.sent]
  printed i := by simp [h.client i]

theorem answer_request (i : ι) : answer (S.request i).received = S.reply i := rfl

@[simp] theorem sentBy_request : S.sentBy i (S.request j) = true ↔ i = j := by
  rw [Setup.sentBy, decide_eq_true_iff]
  exact ⟨fun h ↦ (S.injective h).symm, fun h ↦ by rw [h]; rfl⟩

/-! ### Steps -/

theorem Inv.serverReceive (h : Inv S σ) {m : Message} (hpc : σ.server.pc = .receiving)
    (hm : m ∈ σ.ports.queue S.server_port) :
    Inv S { σ with
      ports := σ.ports.remove S.server_port m
      server := { σ.server with pc := .received, recv_msg := m.received } } where
  honest := h.honest.remove _ _
  request := h.request
  reply := h.reply
  received _ := by
    obtain ⟨i, rfl⟩ := h.request m (h.honest _ m hm)
    exact ⟨i, rfl⟩
  prepared hpc := by cases hpc
  answered j := by
    have hans := h.answered j
    have hrem := Ports.queued_remove σ.ports hm S.server_port (S.sentBy j)
    simp only [inFlight, inHand, hpc, replies, requests, Ports.posted_remove] at hans ⊢
    have hfrom : (S.sentBy j m = true) ↔ m.received.msgh_remote_port = S.client_port j :=
      decide_eq_true_iff
    simp only [true_and, hfrom] at hrem
    omega
  asked := h.asked
  printed := h.printed

theorem Inv.serverPrepare (h : Inv S σ) (hpc : σ.server.pc = .received) :
    Inv S { σ with
      server := { σ.server with pc := .prepared, send_msg := answer σ.server.recv_msg } } where
  honest := h.honest
  request := h.request
  reply := h.reply
  received hpc := by cases hpc
  prepared _ := by
    obtain ⟨i, hi⟩ := h.received hpc
    exact ⟨i, by rw [hi, answer_request]⟩
  answered j := by
    have hans := h.answered j
    simp only [inFlight, inHand, hpc] at hans ⊢
    exact hans
  asked := h.asked
  printed := h.printed

theorem Inv.serverSend (h : Inv S σ) (hpc : σ.server.pc = .prepared) :
    Inv S { σ with
      ports := σ.ports.post σ.server.send_msg.msgh_remote_port σ.server.send_msg
      server := { σ.server with pc := .receiving } } := by
  obtain ⟨i, hi⟩ := h.prepared hpc
  have hport : σ.server.send_msg.msgh_remote_port = S.client_port i := by rw [hi]; rfl
  rw [hport]
  exact
    { honest := h.honest.post _ _
      request := fun m hm ↦ by
        rcases Ports.mem_sent_post.mp hm with hm | ⟨hp, -⟩
        · exact h.request m hm
        · exact absurd hp.symm (S.ne_server i)
      reply := fun j m hm ↦ by
        rcases Ports.mem_sent_post.mp hm with hm | ⟨hp, rfl⟩
        · exact h.reply j m hm
        · obtain rfl := S.injective hp
          exact hi
      received := fun hpc ↦ by cases hpc
      prepared := fun hpc ↦ by cases hpc
      answered := fun j ↦ by
        have hans := h.answered j
        simp only [inFlight, inHand, hpc, hport, replies, requests, Ports.queued_post,
          Ports.posted_post] at hans ⊢
        simp only [(S.ne_server i).symm, false_and, if_false, and_true,
          eq_comm (a := S.client_port j)]
        omega
      asked := fun j ↦ by
        have hasked := h.asked j
        simp only [requests, Ports.posted_post] at hasked ⊢
        simp only [(S.ne_server i).symm, false_and, if_false]
        exact hasked
      printed := h.printed }

theorem Inv.lose (h : Inv S σ) {p : Port} {m : Message} (hm : m ∈ σ.ports.queue p) :
    Inv S { σ with ports := σ.ports.remove p m } where
  honest := h.honest.remove _ _
  request := h.request
  reply := h.reply
  received := h.received
  prepared := h.prepared
  answered j := by
    have hans := h.answered j
    have hrem := Ports.queued_remove σ.ports hm S.server_port (S.sentBy j)
    simp only [inFlight, inHand, replies, requests, Ports.posted_remove] at hans ⊢
    omega
  asked := h.asked
  printed := h.printed

section
variable [DecidableEq ι]

theorem Inv.clientSend (h : Inv S σ) (hpc : (σ.client i).pc = .start) :
    Inv S { σ with
      ports := σ.ports.post S.server_port (S.request i)
      client := Function.update σ.client i { σ.client i with pc := .receiving } } where
  honest := h.honest.post _ _
  request m hm := by
    rcases Ports.mem_sent_post.mp hm with hm | ⟨-, rfl⟩
    · exact h.request m hm
    · exact ⟨i, rfl⟩
  reply j m hm := by
    rcases Ports.mem_sent_post.mp hm with hm | ⟨hp, -⟩
    · exact h.reply j m hm
    · exact absurd hp (S.ne_server j)
  received := h.received
  prepared := h.prepared
  answered j := by
    have hans := h.answered j
    simp only [inFlight, inHand, replies, requests, Ports.queued_post, Ports.posted_post] at hans ⊢
    simp only [S.ne_server j, false_and, if_false]
    omega
  asked j := by
    have hasked := h.asked j
    simp only [requests, Ports.posted_post, true_and, sentBy_request] at hasked ⊢
    by_cases hj : j = i
    · subst hj
      rw [hpc, if_pos rfl] at hasked
      simp only [Function.update_self, if_pos, reduceCtorEq, if_false]
      omega
    · simp only [Function.update_of_ne hj, if_neg hj]
      exact hasked
  printed j := by
    by_cases hj : j = i
    · subst hj
      have hprinted := h.printed j
      rw [hpc] at hprinted
      simpa using hprinted
    · simp only [Function.update_of_ne hj]
      exact h.printed j

theorem Inv.clientReceive (h : Inv S σ) {m : Message} (hpc : (σ.client i).pc = .receiving)
    (hm : m ∈ σ.ports.queue (S.client_port i)) :
    Inv S { σ with
      ports := σ.ports.remove (S.client_port i) m
      client := Function.update σ.client i ((σ.client i).receive m) } := by
  obtain rfl := h.reply i m (h.honest _ m hm)
  exact
    { honest := h.honest.remove _ _
      request := h.request
      reply := h.reply
      received := h.received
      prepared := h.prepared
      answered := fun j ↦ by
        have hans := h.answered j
        have hrem := Ports.queued_remove σ.ports hm S.server_port (S.sentBy j)
        simp only [inFlight, inHand, replies, requests, Ports.posted_remove] at hans ⊢
        omega
      asked := fun j ↦ by
        have hasked := h.asked j
        by_cases hj : j = i
        · subst hj
          rw [hpc] at hasked
          simpa [Client.receive, Message.received, Setup.reply, requests, Ports.posted_remove]
            using hasked
        · simp only [Function.update_of_ne hj]
          exact hasked
      printed := fun j ↦ by
        have hprinted := h.printed j
        by_cases hj : j = i
        · subst hj
          rw [hpc] at hprinted
          simp only [Function.update_self, Client.receive, hprinted]
          rfl
        · simp only [Function.update_of_ne hj]
          exact hprinted }

/-- **Every step keeps the invariant.** -/
theorem Inv.step (h : Inv S σ) {a : Action ι} (hstep : Step S σ a τ) : Inv S τ := by
  cases hstep with
  | clientSend hpc => exact h.clientSend hpc
  | serverReceive hpc hm => exact h.serverReceive hpc hm
  | serverPrepare hpc => exact h.serverPrepare hpc
  | serverSend hpc => exact h.serverSend hpc
  | clientReceive hpc hm => exact h.clientReceive hpc hm
  | lose hm => exact h.lose hm

end

/-! ## No client is mixed up with another -/

/-- A reply is the answer to a request. -/
theorem Inv.requested (h : Inv S σ) {m : Message} (hm : (S.client_port i, m) ∈ σ.ports.sent) :
    (S.server_port, S.request i) ∈ σ.ports.sent := by
  have hreplies : 0 < replies S σ i := List.countP_pos_iff.mpr ⟨_, hm, by simp⟩
  have hrequests : 0 < requests S σ i := by
    have := h.answered i
    omega
  obtain ⟨⟨p, r⟩, hr, hfrom⟩ := List.countP_pos_iff.mp hrequests
  obtain ⟨rfl, hfrom⟩ := (Bool.and_eq_true _ _).mp hfrom |>.imp_left of_decide_eq_true
  obtain ⟨j, rfl⟩ := h.request r hr
  obtain rfl : i = j := sentBy_request.mp hfrom
  exact hr

/-- What is sent is the argument where it is in the range, and one elsewhere. -/
theorem Setup.value_spec (S : Setup ι) (i : ι) :
    (1 ≤ (S.value i).toInt ∧ (S.value i).toInt ≤ 20) ∧
    (∀ n, S.argument i = some n →
      S.value i = if 1 ≤ n.toInt ∧ n.toInt ≤ 20 then n else 1) ∧
    (S.argument i = none → S.value i = 1) := by
  refine ⟨?_, fun n hn ↦ ?_, fun hnone ↦ ?_⟩
  · simp only [Setup.value]
    split_ifs with h
    · decide
    · omega
  · simp only [Setup.value, hn, Option.getD_some]
    split_ifs with h h'
    · omega
    · rfl
    · rfl
    · omega
  · rw [Setup.value, hnone]
    rfl

/-- Client `i` is served as if it were alone. -/
structure Served (S : Setup ι) (σ : State ι) (i : ι) : Prop where
  /-- A message that has been queued on its port has the right id, and carries the factorial of
  what the client has itself sent. -/
  own : ∀ m, (S.client_port i, m) ∈ σ.ports.sent →
    m.msgh_id = DEFAULT_MSG_ID ∧
    ∃ r, (S.server_port, r) ∈ σ.ports.sent ∧ r.msgh_local_port = S.client_port i ∧
      r.data = S.value i ∧ m.data = factorial r.data
  /-- There are no more replies than requests, and no more than one request. -/
  once : replies S σ i ≤ requests S σ i ∧ requests S σ i ≤ 1
  /-- A client that exits has printed exactly that value. -/
  printed : (σ.client i).pc = .exited → (σ.client i).printed = [factorial (S.value i)]

theorem Inv.served (h : Inv S σ) (i : ι) : Served S σ i where
  own m hm := by
    have hreq := h.requested hm
    obtain rfl := h.reply i m hm
    exact ⟨rfl, S.request i, hreq, rfl, rfl, rfl⟩
  once := by
    have hans := h.answered i
    have hasked := h.asked i
    refine ⟨by omega, ?_⟩
    split_ifs at hasked <;> omega
  printed hpc := by
    have hprinted := h.printed i
    rwa [if_pos hpc] at hprinted

/-- **The protocol never mixes up clients**, however their steps are interleaved. -/
theorem no_mix_up [DecidableEq ι] {σ₀ : State ι} {l : List (Action ι)} (h₀ : Initial σ₀)
    (hr : Run (Step S) σ₀ l σ) (i : ι) :
    Served S σ i ∧
    (1 ≤ (S.value i).toInt ∧ (S.value i).toInt ≤ 20) ∧
    (∀ n, S.argument i = some n →
      S.value i = if 1 ≤ n.toInt ∧ n.toInt ≤ 20 then n else 1) ∧
    (S.argument i = none → S.value i = 1) ∧
    (factorial (S.value i)).toNat = (S.value i).toInt.toNat.factorial % 2 ^ 32 := by
  have hinv : Inv S σ := hr.invariant (fun _ _ _ h hstep ↦ h.step hstep) (.of_initial h₀)
  obtain ⟨hrange, hsome, hnone⟩ := S.value_spec i
  exact ⟨hinv.served i, hrange, hsome, hnone, by rw [toNat_factorial, if_pos hrange.1]⟩

/-- Two clients, one of them with an argument out of the range. -/
def demo : Setup Bool where
  server_port := 1
  client_port i := if i then 2 else 3
  argument i := some (if i then 5 else 99)
  injective i j h := by
    revert i j
    decide
  ne_server := by decide

def demoStart : State Bool where
  ports := ⟨fun _ ↦ [], []⟩
  server := ⟨.receiving, answer (demo.request true), demo.request true⟩
  client _ := ⟨.start, demo.request true, []⟩

/-- Both clients send before the server receives, which it does in the other order. -/
def demoRun : List (Action Bool) :=
  [.clientSend false, .clientSend true,
    .serverReceive (demo.request true), .serverPrepare, .serverSend,
    .serverReceive (demo.request false), .serverPrepare, .serverSend,
    .clientReceive false (demo.reply false), .clientReceive true (demo.reply true)]

theorem no_mix_up_demo : ∃ σ, Run (Step demo) demoStart demoRun σ ∧
    (σ.client false).pc = .exited ∧ (σ.client true).pc = .exited ∧
    Served demo σ false ∧ Served demo σ true ∧
    (σ.client false).printed = [1] ∧ (σ.client true).printed = [120] := by
  have h₀ : Initial demoStart := ⟨fun _ ↦ rfl, rfl, rfl, fun _ ↦ ⟨rfl, rfl⟩⟩
  have hr : ∃ σ, Run (Step demo) demoStart demoRun σ ∧
      (σ.client false).pc = .exited ∧ (σ.client true).pc = .exited :=
    ⟨_, .cons (.clientSend rfl) <| .cons (.clientSend rfl) <|
      .cons (.serverReceive rfl (by decide)) <| .cons (.serverPrepare rfl) <|
      .cons (.serverSend rfl) <| .cons (.serverReceive rfl (by decide)) <|
      .cons (.serverPrepare rfl) <| .cons (.serverSend rfl) <|
      .cons (.clientReceive rfl (List.mem_singleton_self (demo.reply false))) <|
      .single (.clientReceive rfl (List.mem_singleton_self (demo.reply true))),
      rfl, rfl⟩
  obtain ⟨σ, hr, hfalse, htrue⟩ := hr
  obtain ⟨hserved, -, -, -, hvalue⟩ := no_mix_up h₀ hr false
  obtain ⟨hserved', -, -, -, hvalue'⟩ := no_mix_up h₀ hr true
  have hone : factorial (demo.value false) = 1 := BitVec.eq_of_toNat_eq (hvalue.trans (by decide))
  have hfive : factorial (demo.value true) = 120 :=
    BitVec.eq_of_toNat_eq (hvalue'.trans (by decide))
  exact ⟨σ, hr, hfalse, htrue, hserved, hserved', hone ▸ hserved.printed hfalse,
    hfive ▸ hserved'.printed htrue⟩

end SimpleIpc
end MacOSXInternal
