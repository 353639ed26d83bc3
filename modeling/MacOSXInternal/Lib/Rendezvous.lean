import Mathlib.Data.List.Basic
import MacOSXInternal.Lib.Runs

/-!
# A call from one thread to another

A thread makes a second one and goes on beside it, until it calls it.  Then it waits, while the
other one receives the call, does what it has to do, and answers.  After that both go on.

* `Programs` are the six pieces of the two programs, between these four points.
* `Sofar` says in what order everything has been done: what is done beside each other is mixed in
  some way, and what is done while the caller waits is done without it.
* `Run.left` counts the steps, and `exists_step` says that nobody waits for ever.
* `exists_run_iff` says that all ways to mix the pieces occur.
-/

set_option autoImplicit false

namespace Rendezvous

open Runs

variable {γ σ : Type}

/-! ## The two threads -/

/-- What the two threads do. -/
structure Programs (γ : Type) where
  /-- The caller, until it makes the server. -/
  before : List γ
  /-- The caller, until it calls. -/
  beside : List γ
  /-- The caller, once it has been answered. -/
  after : List γ
  /-- The server, until it receives the call. -/
  first : List γ
  /-- The server, until it answers. -/
  service : List γ
  /-- The server, after that. -/
  last : List γ

inductive Phase
  | alone
  | together
  | calling
  | serving
  | answered
  deriving DecidableEq

inductive Side
  | caller
  | server
  deriving DecidableEq

/-- What the two have still to do in this phase, what they share, and who has done what. -/
structure State (γ σ : Type) where
  phase : Phase
  caller : List γ
  server : List γ
  shared : σ
  log : List (Side × γ)

def start (P : Programs γ) (shared : σ) : State γ σ := ⟨.alone, P.before, [], shared, []⟩

/-- One of the two does something, or they come together. -/
inductive Step (P : Programs γ) (act : γ → σ → σ) : State γ σ → Side → State γ σ → Prop
  | caller {s : State γ σ} {g : γ} {l : List γ} (h : s.caller = g :: l) :
      Step P act s .caller
        { s with caller := l, shared := act g s.shared, log := s.log ++ [(.caller, g)] }
  | server {s : State γ σ} {g : γ} {l : List γ} (h : s.server = g :: l) :
      Step P act s .server
        { s with server := l, shared := act g s.shared, log := s.log ++ [(.server, g)] }
  | fork {s : State γ σ} (h : s.phase = .alone) (hdone : s.caller = []) :
      Step P act s .caller { s with phase := .together, caller := P.beside, server := P.first }
  | call {s : State γ σ} (h : s.phase = .together) (hdone : s.caller = []) :
      Step P act s .caller { s with phase := .calling }
  | receive {s : State γ σ} (h : s.phase = .calling) (hdone : s.server = []) :
      Step P act s .server { s with phase := .serving, server := P.service }
  | reply {s : State γ σ} (h : s.phase = .serving) (hdone : s.server = []) :
      Step P act s .server { s with phase := .answered, caller := P.after, server := P.last }

/-! ## The order of what is done -/

/-- What one of the two has done. -/
def done (who : Side) (log : List (Side × γ)) : List γ :=
  log.filterMap fun x ↦ if x.1 = who then some x.2 else none

/-- Done by one of the two alone. -/
def tag (who : Side) (l : List γ) : List (Side × γ) := l.map fun g ↦ (who, g)

@[simp] theorem done_append (who : Side) (l m : List (Side × γ)) :
    done who (l ++ m) = done who l ++ done who m := List.filterMap_append ..

@[simp] theorem done_caller (g : γ) : done .caller [(.caller, g)] = [g] := rfl

@[simp] theorem done_caller_server (g : γ) : done .caller [(.server, g)] = [] := rfl

@[simp] theorem done_server (g : γ) : done .server [(.server, g)] = [g] := rfl

@[simp] theorem done_server_caller (g : γ) : done .server [(.caller, g)] = [] := rfl

theorem tag_concat (who : Side) (l : List γ) (g : γ) :
    tag who l ++ [(who, g)] = tag who (l ++ [g]) := by
  simp [tag]

@[simp] theorem done_caller_tag (l : List γ) : done .caller (tag .caller l) = l := by
  simp [done, tag, List.filterMap_map]

@[simp] theorem done_server_tag_caller (l : List γ) : done .server (tag .caller l) = [] := by
  simp [done, tag, List.filterMap_map]

@[simp] theorem done_server_tag (l : List γ) : done .server (tag .server l) = l := by
  simp [done, tag, List.filterMap_map]

@[simp] theorem done_caller_tag_server (l : List γ) : done .caller (tag .server l) = [] := by
  simp [done, tag, List.filterMap_map]

theorem mem_done {who : Side} {log : List (Side × γ)} {g : γ} :
    g ∈ done who log ↔ (who, g) ∈ log := by
  rw [done, List.mem_filterMap]
  constructor
  · rintro ⟨⟨side, g'⟩, hmem, hg⟩
    split_ifs at hg with hside
    obtain rfl := Option.some.inj hg
    obtain rfl : side = who := hside
    exact hmem
  · exact fun hmem ↦ ⟨(who, g), hmem, if_pos rfl⟩

/-- What has been done so far, phase by phase. -/
def Sofar (P : Programs γ) (s : State γ σ) : Prop :=
  match s.phase with
  | .alone => ∃ a, s.log = tag .caller a ∧ a ++ s.caller = P.before ∧ s.server = []
  | .together => ∃ a, s.log = tag .caller P.before ++ a ∧
      done .caller a ++ s.caller = P.beside ∧ done .server a ++ s.server = P.first
  | .calling => ∃ a, s.log = tag .caller P.before ++ a ∧
      done .caller a = P.beside ∧ done .server a ++ s.server = P.first ∧ s.caller = []
  | .serving => ∃ a b, s.log = tag .caller P.before ++ a ++ tag .server b ∧
      done .caller a = P.beside ∧ done .server a = P.first ∧ b ++ s.server = P.service ∧
      s.caller = []
  | .answered => ∃ a c, s.log = tag .caller P.before ++ a ++ tag .server P.service ++ c ∧
      done .caller a = P.beside ∧ done .server a = P.first ∧
      done .caller c ++ s.caller = P.after ∧ done .server c ++ s.server = P.last

section
variable {P : Programs γ} {act : γ → σ → σ} {s t : State γ σ} {who : Side} {shared : σ}
  {l : List Side}

theorem sofar_start : Sofar P (start P shared) := ⟨[], rfl, rfl, rfl⟩

theorem Sofar.step (h : Sofar P s) (hstep : Step P act s who t) : Sofar P t := by
  obtain ⟨phase, caller, server, shared, log⟩ := s
  cases hstep with
  | @caller g l hcaller =>
    obtain rfl : caller = g :: l := hcaller
    cases phase with
    | alone =>
      obtain ⟨a, rfl, ha, hserver⟩ := h
      refine ⟨a ++ [g], tag_concat .., ?_, hserver⟩
      rw [← ha, List.append_assoc, List.singleton_append]
    | together =>
      obtain ⟨a, rfl, hcaller, hserver⟩ := h
      exact ⟨a ++ [(.caller, g)], List.append_assoc .., by simpa using hcaller,
        by simpa using hserver⟩
    | calling =>
      obtain ⟨a, -, -, -, hcaller⟩ := h
      exact absurd hcaller nofun
    | serving =>
      obtain ⟨a, b, -, -, -, -, hcaller⟩ := h
      exact absurd hcaller nofun
    | answered =>
      obtain ⟨a, c, rfl, ha, ha', hcaller, hserver⟩ := h
      exact ⟨a, c ++ [(.caller, g)], List.append_assoc .., ha, ha', by simpa using hcaller,
        by simpa using hserver⟩
  | @server g l hserver =>
    obtain rfl : server = g :: l := hserver
    cases phase with
    | alone =>
      obtain ⟨a, -, -, hserver⟩ := h
      exact absurd hserver nofun
    | together =>
      obtain ⟨a, rfl, hcaller, hserver⟩ := h
      exact ⟨a ++ [(.server, g)], List.append_assoc .., by simpa using hcaller,
        by simpa using hserver⟩
    | calling =>
      obtain ⟨a, rfl, ha, hserver, hcaller⟩ := h
      exact ⟨a ++ [(.server, g)], List.append_assoc .., by simpa using ha, by simpa using hserver,
        hcaller⟩
    | serving =>
      obtain ⟨a, b, rfl, ha, ha', hserver, hcaller⟩ := h
      refine ⟨a, b ++ [g], ?_, ha, ha', by simpa using hserver, hcaller⟩
      show _ ++ tag .server b ++ [(.server, g)] = _
      rw [List.append_assoc, tag_concat]
    | answered =>
      obtain ⟨a, c, rfl, ha, ha', hcaller, hserver⟩ := h
      exact ⟨a, c ++ [(.server, g)], List.append_assoc .., ha, ha', by simpa using hcaller,
        by simpa using hserver⟩
  | fork hphase hdone =>
    obtain rfl : phase = .alone := hphase
    obtain rfl : caller = [] := hdone
    obtain ⟨a, rfl, ha, -⟩ := h
    rw [List.append_nil] at ha
    exact ⟨[], by rw [ha, List.append_nil], rfl, rfl⟩
  | call hphase hdone =>
    obtain rfl : phase = .together := hphase
    obtain rfl : caller = [] := hdone
    obtain ⟨a, rfl, hcaller, hserver⟩ := h
    exact ⟨a, rfl, by simpa using hcaller, hserver, rfl⟩
  | receive hphase hdone =>
    obtain rfl : phase = .calling := hphase
    obtain rfl : server = [] := hdone
    obtain ⟨a, rfl, ha, hserver, hcaller⟩ := h
    exact ⟨a, [], (List.append_nil _).symm, ha, by simpa using hserver, rfl, hcaller⟩
  | reply hphase hdone =>
    obtain rfl : phase = .serving := hphase
    obtain rfl : server = [] := hdone
    obtain ⟨a, b, rfl, ha, ha', hserver, -⟩ := h
    rw [List.append_nil] at hserver
    exact ⟨a, [], by rw [hserver, List.append_nil], ha, ha', rfl, rfl⟩

/-- All that the caller does. -/
theorem Sofar.mem_caller {g : γ} (h : Sofar P s) (hg : (.caller, g) ∈ s.log) :
    g ∈ P.before ∨ g ∈ P.beside ∨ g ∈ P.after := by
  rw [← mem_done] at hg
  unfold Sofar at h
  split at h
  · obtain ⟨a, hlog, ha, -⟩ := h
    rw [hlog, done_caller_tag] at hg
    exact .inl (ha ▸ List.mem_append_left _ hg)
  · obtain ⟨a, hlog, ha, -⟩ := h
    rw [hlog, done_append, done_caller_tag, List.mem_append] at hg
    exact hg.imp_right fun hg ↦ .inl (ha ▸ List.mem_append_left _ hg)
  · obtain ⟨a, hlog, ha, -⟩ := h
    rw [hlog, done_append, done_caller_tag, ha, List.mem_append] at hg
    exact hg.imp_right .inl
  · obtain ⟨a, b, hlog, ha, -⟩ := h
    rw [hlog, done_append, done_append, done_caller_tag, ha, done_caller_tag_server,
      List.append_nil, List.mem_append] at hg
    exact hg.imp_right .inl
  · obtain ⟨a, c, hlog, ha, -, hc, -⟩ := h
    rw [hlog, done_append, done_append, done_append, done_caller_tag, ha, done_caller_tag_server,
      List.append_nil, List.mem_append, List.mem_append, or_assoc] at hg
    exact hg.imp_right (Or.imp_right fun hg ↦ hc ▸ List.mem_append_left _ hg)

/-- All that the server does, or is about to do. -/
theorem Sofar.mem_server {g : γ} (h : Sofar P s) (hg : g ∈ s.server ∨ (.server, g) ∈ s.log) :
    g ∈ P.first ∨ (s.phase ≠ .alone ∧ s.phase ≠ .together) ∧ (g ∈ P.service ∨ g ∈ P.last) := by
  rw [← mem_done, or_comm, ← List.mem_append] at hg
  unfold Sofar at h
  split at h
  · obtain ⟨a, hlog, -, hserver⟩ := h
    rw [hlog, hserver, done_server_tag_caller] at hg
    exact absurd hg List.not_mem_nil
  · obtain ⟨a, hlog, -, ha⟩ := h
    rw [hlog, done_append, done_server_tag_caller, List.nil_append, ha] at hg
    exact .inl hg
  · obtain ⟨a, hlog, -, ha, -⟩ := h
    rw [hlog, done_append, done_server_tag_caller, List.nil_append, ha] at hg
    exact .inl hg
  · rename_i hphase
    obtain ⟨a, b, hlog, -, ha, hb, -⟩ := h
    rw [hlog, done_append, done_append, done_server_tag_caller, List.nil_append, ha,
      done_server_tag, List.append_assoc, hb, List.mem_append] at hg
    exact hg.imp_right fun hg ↦ ⟨by rw [hphase]; exact ⟨nofun, nofun⟩, .inl hg⟩
  · rename_i hphase
    obtain ⟨a, c, hlog, -, ha, -, hc⟩ := h
    rw [hlog, done_append, done_append, done_append, done_server_tag_caller, List.nil_append, ha,
      done_server_tag, List.append_assoc, hc, List.append_assoc, List.mem_append,
      List.mem_append] at hg
    exact hg.imp_right fun hg ↦ ⟨by rw [hphase]; exact ⟨nofun, nofun⟩, hg⟩

/-- What is shared is what everything done so far has made of it. -/
theorem shared_eq (h : Run (Step P act) (start P shared) l s) :
    s.shared = s.log.foldl (fun x g ↦ act g.2 x) shared := by
  refine h.invariant (I := fun s ↦ s.shared = s.log.foldl (fun x g ↦ act g.2 x) shared) ?_ rfl
  intro s who t hs hstep
  cases hstep with
  | caller => rw [List.foldl_append, ← hs]; rfl
  | server => rw [List.foldl_append, ← hs]; rfl
  | fork | call | receive | reply => exact hs

/-! ## How long it takes -/

/-- What has to be done after a phase, with the points at which the two come together. -/
def todo (P : Programs γ) : Phase → ℕ
  | .alone =>
    P.beside.length + P.after.length + P.first.length + P.service.length + P.last.length + 4
  | .together => P.after.length + P.service.length + P.last.length + 3
  | .calling => P.after.length + P.service.length + P.last.length + 2
  | .serving => P.after.length + P.last.length + 1
  | .answered => 0

/-- How many steps are left. -/
def left (P : Programs γ) (s : State γ σ) : ℕ :=
  s.caller.length + s.server.length + todo P s.phase

theorem Step.left (hstep : Step P act s who t) (h : Sofar P s) : left P t + 1 = left P s := by
  obtain ⟨phase, caller, server, shared, log⟩ := s
  cases hstep with
  | caller hcaller =>
    obtain rfl : caller = _ := hcaller
    simp only [Rendezvous.left, List.length_cons]
    omega
  | server hserver =>
    obtain rfl : server = _ := hserver
    simp only [Rendezvous.left, List.length_cons]
    omega
  | fork hphase hdone =>
    obtain rfl : phase = .alone := hphase
    obtain rfl : caller = [] := hdone
    obtain ⟨a, -, -, hserver⟩ := h
    obtain rfl : server = [] := hserver
    simp only [Rendezvous.left, todo, List.length_nil]
    omega
  | call hphase hdone =>
    obtain rfl : phase = .together := hphase
    simp only [Rendezvous.left, todo]
    omega
  | receive hphase hdone =>
    obtain rfl : phase = .calling := hphase
    obtain rfl : server = [] := hdone
    simp only [Rendezvous.left, todo, List.length_nil]
    omega
  | reply hphase hdone =>
    obtain rfl : phase = .serving := hphase
    obtain rfl : server = [] := hdone
    obtain ⟨a, b, -, -, -, -, hcaller⟩ := h
    obtain rfl : caller = [] := hcaller
    simp only [Rendezvous.left, todo, List.length_nil]
    omega

/-- **Nobody waits for ever**: while anything is left to do, somebody can do something. -/
theorem exists_step (act : γ → σ → σ) (hleft : left P s ≠ 0) : ∃ who t, Step P act s who t := by
  cases hcaller : s.caller with
  | cons g l => exact ⟨.caller, _, .caller hcaller⟩
  | nil =>
    cases hserver : s.server with
    | cons g l => exact ⟨.server, _, .server hserver⟩
    | nil =>
      cases hphase : s.phase with
      | alone => exact ⟨.caller, _, .fork hphase hcaller⟩
      | together => exact ⟨.caller, _, .call hphase hcaller⟩
      | calling => exact ⟨.server, _, .receive hphase hserver⟩
      | serving => exact ⟨.server, _, .reply hphase hserver⟩
      | answered => exact absurd (by rw [left, hcaller, hserver, hphase]; rfl) hleft

theorem Sofar.run (h : Run (Step P act) (start P shared) l s) : Sofar P s :=
  h.invariant (fun _ _ _ h hstep ↦ h.step hstep) sofar_start

/-- All runs that have come to an end have as many steps. -/
theorem length_add_left (h : Run (Step P act) (start P shared) l s) :
    l.length + left P s = left P (start P shared) := by
  refine h.history (I := fun l s ↦ l.length + left P s = left P (start P shared))
    (by rw [List.length_nil, Nat.zero_add]) fun l u who t hrun hu hstep ↦ ?_
  have := hstep.left (Sofar.run hrun)
  rw [List.length_append, List.length_singleton]
  omega

/-! ## All ways to mix the pieces -/

/-- What is to be done can be done in any order of the two. -/
theorem exists_run_mix (P : Programs γ) (act : γ → σ → σ) {s : State γ σ}
    {a : List (Side × γ)} {x y : List γ} (hcaller : s.caller = done .caller a ++ x)
    (hserver : s.server = done .server a ++ y) :
    ∃ l t, Run (Step P act) s l t ∧ t.phase = s.phase ∧ t.caller = x ∧ t.server = y ∧
      t.log = s.log ++ a := by
  induction a generalizing s with
  | nil => exact ⟨[], s, .nil s, rfl, hcaller, hserver, (List.append_nil _).symm⟩
  | cons b a ih =>
    obtain ⟨side, g⟩ := b
    cases side with
    | caller =>
      obtain ⟨l, t, hrun, hphase, hx, hy, hlog⟩ := ih
        (s := ⟨s.phase, done .caller a ++ x, s.server, act g s.shared, s.log ++ [(.caller, g)]⟩) rfl
        hserver
      refine ⟨_, t, .cons (.caller (g := g) (l := done .caller a ++ x) hcaller) hrun, hphase, hx,
        hy, ?_⟩
      rw [hlog, List.append_assoc, List.singleton_append]
    | server =>
      obtain ⟨l, t, hrun, hphase, hx, hy, hlog⟩ := ih
        (s := ⟨s.phase, s.caller, done .server a ++ y, act g s.shared, s.log ++ [(.server, g)]⟩)
        hcaller rfl
      refine ⟨_, t, .cons (.server (g := g) (l := done .server a ++ y) hserver) hrun, hphase, hx,
        hy, ?_⟩
      rw [hlog, List.append_assoc, List.singleton_append]

/-- **The logs of a call**: the two are mixed in any way before it and after it, and not at all
while the caller waits. -/
theorem exists_run_iff (act : γ → σ → σ) (shared : σ) {log : List (Side × γ)} {x y : List γ} :
    (∃ l s, Run (Step P act) (start P shared) l s ∧ s.phase = .answered ∧ s.caller = x ∧
      s.server = y ∧ s.log = log) ↔
    ∃ a c, log = tag .caller P.before ++ a ++ tag .server P.service ++ c ∧
      done .caller a = P.beside ∧ done .server a = P.first ∧
      done .caller c ++ x = P.after ∧ done .server c ++ y = P.last := by
  constructor
  · rintro ⟨l, s, hrun, hphase, rfl, rfl, rfl⟩
    have h := Sofar.run hrun
    rw [Sofar, hphase] at h
    exact h
  · rintro ⟨a, c, rfl, hbeside, hfirst, hafter, hlast⟩
    obtain ⟨l₁, s₁, hrun₁, hphase₁, hcaller₁, hserver₁, hlog₁⟩ :=
      exists_run_mix P act (s := start P shared) (a := tag .caller P.before)
        (x := []) (y := []) (by simp [start]) (by simp [start])
    obtain ⟨l₂, s₂, hrun₂, hphase₂, hcaller₂, hserver₂, hlog₂⟩ :=
      exists_run_mix P act
        (s := { s₁ with phase := .together, caller := P.beside, server := P.first })
        (a := a) (x := []) (y := []) (by simp [hbeside]) (by simp [hfirst])
    obtain ⟨l₃, s₃, hrun₃, hphase₃, hcaller₃, hserver₃, hlog₃⟩ :=
      exists_run_mix P act
        (s := { s₂ with phase := .serving, server := P.service }) (a := tag .server P.service)
        (x := []) (y := []) (by simp [hcaller₂]) (by simp)
    obtain ⟨l₄, s₄, hrun₄, hphase₄, hcaller₄, hserver₄, hlog₄⟩ :=
      exists_run_mix P act
        (s := { s₃ with phase := .answered, caller := P.after, server := P.last })
        (a := c) hafter.symm hlast.symm
    have hfork : Step P act s₁ .caller _ := .fork hphase₁ hcaller₁
    have hcall : Step P act s₂ .caller _ := .call hphase₂ hcaller₂
    have hreceive : Step P act { s₂ with phase := .calling } .server _ := .receive rfl hserver₂
    have hreply : Step P act s₃ .server _ := .reply hphase₃ hserver₃
    refine ⟨_, s₄, hrun₁.append <| .cons hfork <| hrun₂.append <| .cons hcall <| .cons hreceive <|
      hrun₃.append <| .cons hreply hrun₄, hphase₄, hcaller₄, hserver₄, ?_⟩
    rw [hlog₄]
    simp only [hlog₃, hlog₂, hlog₁]
    rfl

end

end Rendezvous
