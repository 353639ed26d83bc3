import Mathlib.Data.List.Count
import Mathlib.Logic.Function.Basic

/-!
# Message queues

Ports with a queue of messages each, and a record of everything that has ever been queued.  A
message is taken out of its queue from any position, and at most once; it may also get lost.

* `post` and `remove` are the operations.
* `Honest` says that what lies in a queue has been posted there.
* `queued` and `posted` count the messages of a kind that lie in a queue, and that have ever been
  posted to it.  They are how a message is followed through a protocol.
-/

set_option autoImplicit false

universe u v

/-- The queues, and what has been queued. -/
structure Ports (π : Type u) (μ : Type v) where
  queue : π → List μ
  sent : List (π × μ)

namespace Ports

variable {π : Type u} {μ : Type v} [DecidableEq π] [DecidableEq μ] (P : Ports π μ)

/-- A message joins the queue of a port. -/
def post (p : π) (m : μ) : Ports π μ where
  queue := Function.update P.queue p (P.queue p ++ [m])
  sent := P.sent ++ [(p, m)]

/-- A message leaves the queue of a port. -/
def remove (p : π) (m : μ) : Ports π μ where
  queue := Function.update P.queue p ((P.queue p).erase m)
  sent := P.sent

/-- What lies in a queue has been posted there. -/
def Honest : Prop := ∀ p, ∀ m ∈ P.queue p, (p, m) ∈ P.sent

/-- The number of messages of a kind in the queue of a port. -/
def queued (p : π) (f : μ → Bool) : ℕ := (P.queue p).countP f

/-- The number of messages of a kind ever posted to a port. -/
def posted (p : π) (f : μ → Bool) : ℕ := P.sent.countP fun e ↦ e.1 = p && f e.2

section
omit [DecidableEq μ]

variable {P} in
theorem mem_sent_post {p q : π} {m n : μ} :
    (q, n) ∈ (P.post p m).sent ↔ (q, n) ∈ P.sent ∨ q = p ∧ n = m := by
  simp [post]

variable {P} in
theorem Honest.post (h : P.Honest) (p : π) (m : μ) : (P.post p m).Honest := by
  intro q n hn
  rw [mem_sent_post]
  by_cases hq : q = p
  · subst hq
    simp only [Ports.post, Function.update_self, List.mem_append, List.mem_singleton] at hn
    rcases hn with hn | hn
    · exact .inl (h q n hn)
    · exact .inr ⟨rfl, hn⟩
  · simp only [Ports.post, Function.update_of_ne hq] at hn
    exact .inl (h q n hn)

theorem queued_post (p q : π) (m : μ) (f : μ → Bool) :
    (P.post q m).queued p f = P.queued p f + if p = q ∧ f m then 1 else 0 := by
  by_cases hp : p = q
  · subst hp
    simp [queued, post, List.countP_append, List.countP_singleton]
  · simp [queued, post, hp]

theorem posted_post (p q : π) (m : μ) (f : μ → Bool) :
    (P.post q m).posted p f = P.posted p f + if p = q ∧ f m then 1 else 0 := by
  by_cases hp : p = q
  · subst hp
    simp [posted, post, List.countP_append, List.countP_singleton]
  · simp [posted, post, List.countP_append, hp, Ne.symm hp]

end

variable {P} in
theorem Honest.remove (h : P.Honest) (p : π) (m : μ) : (P.remove p m).Honest := by
  intro q n hn
  by_cases hq : q = p
  · subst hq
    simp only [Ports.remove, Function.update_self] at hn
    exact h q n (List.mem_of_mem_erase hn)
  · simp only [Ports.remove, Function.update_of_ne hq] at hn
    exact h q n hn

theorem posted_remove (p q : π) (m : μ) (f : μ → Bool) :
    (P.remove q m).posted p f = P.posted p f := rfl

theorem queued_remove {q : π} {m : μ} (hm : m ∈ P.queue q) (p : π) (f : μ → Bool) :
    (P.remove q m).queued p f + (if p = q ∧ f m then 1 else 0) = P.queued p f := by
  by_cases hp : p = q
  · subst hp
    have hcount := List.countP_erase f (P.queue p) m
    have hpos (hf : f m = true) : 0 < (P.queue p).countP f := List.countP_pos_iff.mpr ⟨m, hm, hf⟩
    simp only [queued, remove, Function.update_self, hcount, hm, true_and]
    split_ifs with hf
    · have := hpos hf
      omega
    · rfl
  · simp [queued, remove, hp]

end Ports
