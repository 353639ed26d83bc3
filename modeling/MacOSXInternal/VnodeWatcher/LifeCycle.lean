import Mathlib.Data.List.Induction
import MacOSXInternal.Lib.Runs
import MacOSXInternal.VnodeWatcher.UserClient

/-!
# The life cycle of a VnodeWatcher user client

What holds between the provider's owner, the registered listeners and the data queues when any
number of clients call the entry points of `VnodeWatcher.UserClient` in any order.

* `Sound` is what one would want after every call: at most one listener, it belongs to the client
  that has the provider open, and none outlives its client's termination or its queue.  `Clean`
  is what one would want of a failing `open`.
* Neither holds of the code without restriction.  `close` gives the provider up without
  unregistering the listener, and an `open` whose registration fails does not give it up.
  `Careful` is the condition on the calls that leaves these two paths (and a `stop` with the
  listener still registered) out, and `lifecycle_iff_careful` says that it is exact: a sequence of
  calls is sound throughout if and only if every call of it is careful.

`Registration` is the invariant that carries the proof: either nobody is listening, or exactly one
client is, it is the owner, and its `fListener` is the registered handle.
-/

set_option autoImplicit false

namespace MacOSXInternal
namespace VnodeWatcher

open Runs

variable {ι : Type} [DecidableEq ι]

/-! ## What the calls should preserve -/

/-- What should hold between the owner, the listeners and the queues; `gone c` is that a
`terminate` or `clientClose` of `c` has returned. -/
structure Sound (s : Kernel ι) (gone : ι → Prop) : Prop where
  /-- At most one listener is registered. -/
  atMostOne : s.listeners.length ≤ 1
  /-- It belongs to the client that has the provider open, and so does the queue it carries. -/
  owned : ∀ l ∈ s.listeners, s.owner = some l.registrant ∧ ∀ q, l.cookie = some q → s.owner = some q
  /-- No listener carries the queue of a client that is gone. -/
  unregistered : ∀ c, gone c → ∀ l ∈ s.listeners, l.cookie ≠ some c
  /-- No listener carries a queue that `stop` has released. -/
  alive : ∀ c, (s.queue c).released = true → ∀ l ∈ s.listeners, l.cookie ≠ some c

/-- An `open` that returns an error leaves the owner and the listeners as they were. -/
def Clean (s : Kernel ι) : Call ι → Prop
  | .opens c registers =>
    (vucOpen s c registers).2 ≠ .kIOReturnSuccess →
      (vucOpen s c registers).1.owner = s.owner ∧ (vucOpen s c registers).1.listeners = s.listeners
  | _ => True

/-- The calls that go right: an `open` that gets as far as registering a listener registers it,
and neither a `close` by the owner nor the `stop` that releases the queue comes while the client's
listener is still registered. -/
def Careful (s : Kernel ι) : Call ι → Prop
  | .opens c registers =>
    (s.client c).inactive = false → s.owner = none → registers = true
  | .closes c => s.owner = some c → (s.client c).fListener = none
  | .stops c => (s.client c).fDataQueue ≠ none → (s.client c).fListener = none
  | .clientCloses _ => True
  | .terminates _ => True

/-- Either nobody is listening, or one client is: the owner, through the handle in its
`fListener` and with its own queue. -/
def Registration (s : Kernel ι) : Prop :=
  (s.listeners = [] ∧ ∀ c, (s.client c).fListener = none) ∨
    ∃ l, s.listeners = [l] ∧ s.owner = some l.registrant ∧
      l.cookie = (s.client l.registrant).fDataQueue ∧
      ∀ c, (s.client c).fListener = if c = l.registrant then some l.handle else none

/-- The invariant of careful calls. -/
structure Inv (s : Kernel ι) : Prop where
  registration : Registration s
  /-- An inactive client does not have the provider open. -/
  inactive : ∀ c, (s.client c).inactive = true → s.owner ≠ some c
  /-- `fProvider` is cleared only in `clientClose`, after `terminate`. -/
  detached : ∀ c, (s.client c).fProvider = false → (s.client c).inactive = true
  /-- A client's queue is the one its `start` created. -/
  queue : ∀ c q, (s.client c).fDataQueue = some q → q = c
  /-- A released queue is nobody's. -/
  released : ∀ c, (s.queue c).released = true → (s.client c).fDataQueue = none

theorem Inv.init : Inv (.init : Kernel ι) where
  registration := .inl ⟨rfl, fun _ ↦ rfl⟩
  inactive _ h := by simp [Kernel.init] at h
  detached _ h := by simp [Kernel.init] at h
  queue _ _ h := by simpa [Kernel.init, eq_comm] using h
  released _ h := by simp [Kernel.init] at h

/-- The invariant is more than what was wanted of the state. -/
theorem Inv.sound {s : Kernel ι} (h : Inv s) : Sound s fun c ↦ (s.client c).inactive = true := by
  rcases h.registration with ⟨hnil, -⟩ | ⟨l, hl, howner, hcookie, -⟩
  · exact ⟨by simp [hnil], by simp [hnil], by simp [hnil], by simp [hnil]⟩
  · have hown : ∀ q, l.cookie = some q → q = l.registrant := fun q hq ↦
      h.queue _ q (hcookie ▸ hq)
    refine ⟨by simp [hl], ?_, ?_, ?_⟩
    · simp only [hl, List.mem_singleton, forall_eq]
      exact ⟨howner, fun q hq ↦ by rw [howner, hown q hq]⟩
    · simp only [hl, List.mem_singleton, forall_eq]
      intro c hc hq
      exact h.inactive c hc (by rw [howner, hown c hq])
    · simp only [hl, List.mem_singleton, forall_eq]
      intro c hc hq
      have hnone := h.released c hc
      rw [hown c hq, ← hcookie, hq] at hnone
      exact absurd hnone (by simp)

/-! ## One lemma for each entry point -/

section Steps

variable {s t : Kernel ι} {c : ι}

/-- With the provider closed nobody is listening. -/
theorem Inv.listeners_eq_nil (h : Inv s) (ho : s.owner = none) :
    s.listeners = [] ∧ ∀ c, (s.client c).fListener = none := by
  rcases h.registration with hidle | ⟨l, -, howner, -⟩
  · exact hidle
  · exact absurd (ho.symm.trans howner) (by simp)

/-- A client with a listener is the owner, and its listener is the registered one. -/
theorem Inv.of_fListener (h : Inv s) {n : ℕ} (hn : (s.client c).fListener = some n) :
    ∃ l, s.listeners = [l] ∧ l.handle = n ∧ l.registrant = c ∧ s.owner = some c ∧
      l.cookie = (s.client c).fDataQueue ∧
      ∀ d, (s.client d).fListener = if d = c then some n else none := by
  rcases h.registration with ⟨-, hidle⟩ | ⟨l, hl, howner, hcookie, hall⟩
  · exact absurd (hn.symm.trans (hidle c)) (by simp)
  · have hc := hall c
    rw [hn] at hc
    split at hc
    · rename_i heq
      subst heq
      obtain rfl := Option.some.inj hc
      exact ⟨l, hl, rfl, rfl, howner, hcookie, hall⟩
    · exact absurd hc (by simp)

/-- What the entry points other than `stop` leave alone. -/
structure Frame (s t : Kernel ι) : Prop where
  queue : t.queue = s.queue
  fDataQueue : ∀ d, (t.client d).fDataQueue = (s.client d).fDataQueue
  inactive : ∀ d, (s.client d).inactive = true → (t.client d).inactive = true
  fProvider : ∀ d, (t.client d).fProvider = false → (t.client d).inactive = true ∨
    (s.client d).fProvider = false

/-- Only the registration and the owner have to be looked at. -/
theorem Inv.of_frame (h : Inv s) (hf : Frame s t) (hreg : Registration t)
    (ho : ∀ d, (t.client d).inactive = true → t.owner ≠ some d) : Inv t where
  registration := hreg
  inactive := ho
  detached d hd := (hf.fProvider d hd).elim id fun h' ↦ hf.inactive d (h.detached d h')
  queue d q hq := h.queue d q (hf.fDataQueue d ▸ hq)
  released d hd := (hf.fDataQueue d).trans (h.released d (hf.queue ▸ hd))

/-- An `open` that gets past its two checks. -/
theorem vucOpen_eq (hact : (s.client c).inactive = false) (ho : s.owner = none)
    (registers : Bool) : vucOpen s c registers =
      startLogging { s with owner := some c } c registers := by
  simp [vucOpen, hact, ho]

/-- An `open` that does not get past its two checks changes nothing. -/
theorem vucOpen_refused (h : ¬((s.client c).inactive = false ∧ s.owner = none))
    (registers : Bool) : (vucOpen s c registers).1 = s := by
  rw [vucOpen]
  split
  · rfl
  · rename_i hact
    rw [if_pos (Option.isSome_iff_ne_none.mpr fun ho ↦ h ⟨by simpa using hact, ho⟩)]

theorem startLogging_frame (registers : Bool) (o : Option ι) :
    Frame s (startLogging { s with owner := o } c registers).1 := by
  refine ⟨?_, fun d ↦ ?_, fun d ↦ ?_, fun d ↦ ?_⟩ <;> cases registers <;>
    simp only [startLogging, Bool.false_eq_true, if_false, if_true, Kernel.setClient_queue,
      Kernel.setClient_client] <;> split <;> simp_all

theorem vucOpen_inv (h : Inv s) {registers : Bool} (hc : Careful s (.opens c registers)) :
    Inv (vucOpen s c registers).1 := by
  by_cases hpass : (s.client c).inactive = false ∧ s.owner = none
  · obtain ⟨hact, ho⟩ := hpass
    obtain rfl := hc hact ho
    obtain ⟨hnil, hidle⟩ := h.listeners_eq_nil ho
    rw [vucOpen_eq hact ho]
    refine h.of_frame (startLogging_frame _ _) ?_ fun d hd ↦ ?_
    · refine .inr ⟨⟨s.nextHandle, (s.client c).fDataQueue, c⟩, ?_, ?_, ?_, fun d ↦ ?_⟩
      · simp [startLogging, hnil]
      · simp [startLogging]
      · simp [startLogging]
      · by_cases hd : d = c <;> simp [startLogging, hd, hidle]
    · by_cases hdc : d = c
      · simp [startLogging, hdc, hact] at hd
      · simpa [startLogging] using Ne.symm hdc
  · rwa [vucOpen_refused hpass]

theorem vucClose_frame : Frame s (vucClose s c).1 := by
  have hsame : (vucClose s c).1.client = s.client ∧ (vucClose s c).1.queue = s.queue := by
    rw [vucClose, closeProvider]
    split
    · split <;> exact ⟨rfl, rfl⟩
    · exact ⟨rfl, rfl⟩
  obtain ⟨hcl, hq⟩ := hsame
  exact ⟨hq, fun d ↦ by rw [hcl], fun d ↦ by rw [hcl]; exact id, fun d ↦ by rw [hcl]; exact .inr⟩

/-- `close` by the owner gives the provider up, and touches nothing else. -/
theorem vucClose_owner (h : Inv s) (ho : s.owner = some c) :
    (vucClose s c).1 = { s with owner := none } := by
  have hp : (s.client c).fProvider = true := by
    by_contra hp
    exact h.inactive c (h.detached c (by simpa using hp)) ho
  simp [vucClose, closeProvider, hp, ho]

theorem vucClose_not_owner (ho : s.owner ≠ some c) : (vucClose s c).1 = s := by
  rw [vucClose, closeProvider, if_neg ho]
  split <;> rfl

theorem vucClose_inv (h : Inv s) (hc : Careful s (.closes c)) : Inv (vucClose s c).1 := by
  by_cases ho : s.owner = some c
  · refine h.of_frame vucClose_frame ?_ fun d _ ↦ by simp [vucClose_owner h ho]
    rw [vucClose_owner h ho]
    rcases h.registration with hidle | ⟨l, hl, howner, -, hall⟩
    · exact .inl hidle
    · have hsome := hall c
      rw [if_pos (Option.some.inj (ho.symm.trans howner)), hc ho] at hsome
      exact absurd hsome (by simp)
  · rwa [vucClose_not_owner ho]

/-- Closing before `terminate` makes no difference to what `terminate` does: it closes again. -/
theorem vucTerminate_vucClose (s : Kernel ι) (c : ι) :
    vucTerminate (vucClose s c).1 c = vucTerminate s c := by
  rw [vucClose]
  split
  · rename_i hp
    by_cases ho : s.owner = some c <;> simp [vucTerminate, closeProvider, hp, ho]
  · rfl

@[simp] theorem stopLogging_owner : (stopLogging s c).owner = s.owner := by
  rw [stopLogging]
  split <;> rfl

@[simp] theorem stopLogging_queue : (stopLogging s c).queue = s.queue := by
  rw [stopLogging]
  split <;> rfl

@[simp] theorem stopLogging_listeners : (stopLogging s c).listeners =
    s.listeners.filter fun l ↦ some l.handle ≠ (s.client c).fListener := by
  rw [stopLogging]
  split
  · rename_i n hn
    simp [hn]
  · rename_i hn
    simp [hn]

@[simp] theorem stopLogging_client (d : ι) : (stopLogging s c).client d =
    if d = c then { s.client c with fListener := none } else s.client d := by
  rw [stopLogging]
  split
  · simp
  · rename_i hn
    split
    · rename_i hd
      rw [hd, ← hn]
    · rfl

@[simp] theorem closeProvider_client : (closeProvider s c).client = s.client := by
  rw [closeProvider]
  split <;> rfl

@[simp] theorem closeProvider_queue : (closeProvider s c).queue = s.queue := by
  rw [closeProvider]
  split <;> rfl

@[simp] theorem closeProvider_listeners : (closeProvider s c).listeners = s.listeners := by
  rw [closeProvider]
  split <;> rfl

/-- `terminate` by a client in the invariant: whatever else is true, it does not own the provider
afterwards. -/
theorem vucTerminate_eq (h : Inv s) :
    vucTerminate s c = superTerminate (stopLogging (closeProvider s c) c) c := by
  rw [vucTerminate]
  split
  · rfl
  · rename_i hp
    have ho := h.inactive c (h.detached c (by simpa using hp))
    rw [closeProvider, if_neg ho]

theorem vucTerminate_client (h : Inv s) (d : ι) : (vucTerminate s c).client d =
    if d = c then { s.client c with fListener := none, inactive := true } else s.client d := by
  rw [vucTerminate_eq h, superTerminate, Kernel.setClient_client]
  split <;> simp_all

theorem vucTerminate_owner (h : Inv s) : (vucTerminate s c).owner =
    if s.owner = some c then none else s.owner := by
  rw [vucTerminate_eq h, superTerminate, Kernel.setClient_owner, stopLogging_owner, closeProvider]
  split <;> rfl

theorem vucTerminate_listeners (h : Inv s) : (vucTerminate s c).listeners =
    s.listeners.filter fun l ↦ some l.handle ≠ (s.client c).fListener := by
  rw [vucTerminate_eq h, superTerminate, Kernel.setClient_listeners, stopLogging_listeners,
    closeProvider_client, closeProvider_listeners]

theorem vucTerminate_frame (h : Inv s) : Frame s (vucTerminate s c) := by
  refine ⟨?_, fun d ↦ ?_, fun d ↦ ?_, fun d ↦ ?_⟩
  · rw [vucTerminate_eq h, superTerminate, Kernel.setClient_queue, stopLogging_queue,
      closeProvider_queue]
  all_goals
    rw [vucTerminate_client h]
    split <;> simp_all

theorem vucTerminate_inv (h : Inv s) : Inv (vucTerminate s c) := by
  refine h.of_frame (vucTerminate_frame h) ?_ fun d hd ↦ ?_
  · rcases hn : (s.client c).fListener with _ | n
    · -- nothing of `c` is registered: whatever the registration was, it is the same
      rcases h.registration with ⟨hnil, hidle⟩ | ⟨l, hl, howner, hcookie, hall⟩
      · refine .inl ⟨by simp [vucTerminate_listeners h, hnil], fun d ↦ ?_⟩
        rw [vucTerminate_client h]
        split
        · rfl
        · exact hidle d
      · have hne : l.registrant ≠ c := by
          rintro rfl
          simpa [hn] using hall l.registrant
        refine .inr ⟨l, by simp [vucTerminate_listeners h, hn, hl], ?_, ?_, fun d ↦ ?_⟩
        · rw [vucTerminate_owner h, if_neg (by simpa [howner] using hne), howner]
        · rw [vucTerminate_client h, if_neg hne, hcookie]
        · rw [vucTerminate_client h]
          split
          · rename_i hd
            rw [if_neg (by rw [hd]; exact hne.symm)]
          · exact hall d
    · -- `c` is the one that listens, and its listener goes
      obtain ⟨l, hl, hln, -, -, -, hall⟩ := h.of_fListener hn
      refine .inl ⟨by simp [vucTerminate_listeners h, hn, hl, hln], fun d ↦ ?_⟩
      rw [vucTerminate_client h]
      split
      · rfl
      · rename_i hd
        rw [hall d, if_neg hd]
  · rw [vucTerminate_owner h]
    split
    · simp
    · rename_i ho
      rw [vucTerminate_client h] at hd
      split at hd
      · rename_i hdc
        rwa [hdc]
      · exact h.inactive d hd

theorem vucClientClose_client (d : ι) : (vucClientClose s c).1.client d =
    if d = c then { (vucTerminate s c).client c with fClient := false, fProvider := false }
    else (vucTerminate s c).client d := by
  simp [vucClientClose, vucTerminate_vucClose]

@[simp] theorem vucClientClose_owner : (vucClientClose s c).1.owner = (vucTerminate s c).owner := by
  simp [vucClientClose, vucTerminate_vucClose]

@[simp] theorem vucClientClose_listeners :
    (vucClientClose s c).1.listeners = (vucTerminate s c).listeners := by
  simp [vucClientClose, vucTerminate_vucClose]

@[simp] theorem vucClientClose_queue : (vucClientClose s c).1.queue = (vucTerminate s c).queue := by
  simp [vucClientClose, vucTerminate_vucClose]

theorem vucClientClose_frame (h : Inv s) : Frame (vucTerminate s c) (vucClientClose s c).1 := by
  refine ⟨vucClientClose_queue, fun d ↦ ?_, fun d ↦ ?_, fun d ↦ ?_⟩
  all_goals
    rw [vucClientClose_client]
    split <;> simp_all [vucTerminate_client h]

theorem vucClientClose_inv (h : Inv s) : Inv (vucClientClose s c).1 := by
  have ht := vucTerminate_inv (c := c) h
  have hlistener : ∀ d, ((vucClientClose s c).1.client d).fListener =
      ((vucTerminate s c).client d).fListener := by
    intro d
    rw [vucClientClose_client]
    split <;> simp_all
  refine ht.of_frame (vucClientClose_frame h) ?_ fun d hd ↦ ?_
  · rcases ht.registration with ⟨hnil, hidle⟩ | ⟨l, hl, howner, hcookie, hall⟩
    · exact .inl ⟨vucClientClose_listeners.trans hnil, fun d ↦ (hlistener d).trans (hidle d)⟩
    · exact .inr ⟨l, vucClientClose_listeners.trans hl, vucClientClose_owner.trans howner,
        hcookie.trans ((vucClientClose_frame h).fDataQueue _).symm,
        fun d ↦ (hlistener d).trans (hall d)⟩
  · rw [vucClientClose_owner]
    refine ht.inactive d ?_
    rw [vucClientClose_client] at hd
    split at hd <;> simp_all

theorem vucStop_owner : (vucStop s c).owner = s.owner := by
  rw [vucStop]
  split <;> rfl

theorem vucStop_listeners : (vucStop s c).listeners = s.listeners := by
  rw [vucStop]
  split <;> rfl

theorem vucStop_client (d : ι) : (vucStop s c).client d =
    if d = c then { s.client c with fSharedMemory := false, fDataQueue := none }
    else s.client d := by
  rw [vucStop]
  split
  · simp
  · rename_i hn
    simp [← hn]

theorem vucStop_inv (h : Inv s) (hc : Careful s (.stops c)) : Inv (vucStop s c) := by
  refine ⟨?_, fun d ↦ ?_, fun d ↦ ?_, fun d q ↦ ?_, fun d ↦ ?_⟩
  · rcases h.registration with ⟨hnil, hidle⟩ | ⟨l, hl, howner, hcookie, hall⟩
    · refine .inl ⟨vucStop_listeners.trans hnil, fun d ↦ ?_⟩
      rw [vucStop_client]
      split
      · exact hidle c
      · exact hidle d
    · refine .inr ⟨l, vucStop_listeners.trans hl, vucStop_owner.trans howner, ?_, fun d ↦ ?_⟩
      · rw [vucStop_client, hcookie]
        split
        · -- the listener's queue is not there any more, or `stop` would not have been careful
          rename_i hd
          by_contra hq
          have hnone := hc (by rw [← hd]; exact hq)
          rw [hall c, if_pos hd.symm] at hnone
          exact absurd hnone (by simp)
        · rfl
      · rw [vucStop_client, ← hall d]; split <;> simp_all
  · rw [vucStop_client, vucStop_owner]
    intro hd
    refine h.inactive d ?_
    split at hd <;> simp_all
  · rw [vucStop_client]
    intro hd
    have := h.detached d
    split at hd <;> simp_all
  · rw [vucStop_client]
    intro hq
    split at hq
    · simp at hq
    · exact h.queue d q hq
  · rw [vucStop_client]
    split
    · simp
    · rename_i hd
      intro hr
      refine h.released d ?_
      rw [vucStop] at hr
      split at hr
      · rename_i q hq
        obtain rfl := h.queue c q hq
        simpa [hd] using hr
      · exact hr

/-- **Careful calls keep the invariant.** -/
theorem step_inv (h : Inv s) (a : Call ι) (ha : Careful s a) : Inv (step s a) := by
  cases a with
  | opens c registers => exact vucOpen_inv h ha
  | closes c => exact vucClose_inv h ha
  | clientCloses c => exact vucClientClose_inv h
  | terminates c => exact vucTerminate_inv h
  | stops c => exact vucStop_inv h ha

/-- A careful `open` that fails was refused before it did anything. -/
theorem Careful.clean (a : Call ι) (ha : Careful s a) : Clean s a := by
  cases a with
  | opens c registers =>
    intro herr
    by_cases hpass : (s.client c).inactive = false ∧ s.owner = none
    · obtain rfl := ha hpass.1 hpass.2
      rw [vucOpen_eq hpass.1 hpass.2] at herr
      exact absurd rfl herr
    · rw [vucOpen_refused hpass]
      exact ⟨rfl, rfl⟩
  | _ => trivial

/-- **A careless call does damage at once**: a failed registration leaves the provider open, a
`close` leaves a listener without an owner, and a `stop` leaves one with a released queue. -/
theorem Inv.careful_of_sound (h : Inv s) {gone : ι → Prop} (a : Call ι)
    (hs : Sound (step s a) gone) (hc : Clean s a) : Careful s a := by
  cases a with
  | opens c registers =>
    intro hact ho
    by_contra hr
    have hfail : registers = false := by simpa using hr
    subst hfail
    have howner := (hc (by simp [vucOpen_eq hact ho, startLogging])).1
    rw [vucOpen_eq hact ho, ho] at howner
    simp [startLogging] at howner
  | closes c =>
    intro ho
    by_contra hn
    obtain ⟨n, hn⟩ := Option.ne_none_iff_exists'.mp hn
    obtain ⟨l, hl, -⟩ := h.of_fListener hn
    have howner := (hs.owned l (by simp [step, vucClose_owner h ho, hl])).1
    simp [step, vucClose_owner h ho] at howner
  | stops c =>
    intro hq
    by_contra hn
    obtain ⟨n, hn⟩ := Option.ne_none_iff_exists'.mp hn
    obtain ⟨q, hq⟩ := Option.ne_none_iff_exists'.mp hq
    obtain rfl := h.queue c q hq
    obtain ⟨l, hl, -, -, -, hcookie, -⟩ := h.of_fListener hn
    exact hs.alive q (by simp [step, vucStop, hq]) l (by simp [step, vucStop_listeners, hl])
      (hcookie.trans hq)
  | _ => trivial

end Steps

/-! ## Every run -/

/-- A `terminate` or a `clientClose` of `c` is among the calls that have returned. -/
def Gone (done : List (Call ι)) (c : ι) : Prop := .terminates c ∈ done ∨ .clientCloses c ∈ done

theorem step_inactive (s : Kernel ι) (a : Call ι) (d : ι) : ((step s a).client d).inactive = true ↔
    (s.client d).inactive = true ∨ a = .terminates d ∨ a = .clientCloses d := by
  have hterm : ∀ (s : Kernel ι) (c : ι), ((vucTerminate s c).client d).inactive = true ↔
      (s.client d).inactive = true ∨ c = d := by
    intro s c
    by_cases hd : d = c
    · simp [vucTerminate, superTerminate, hd]
    · rw [vucTerminate]
      split <;> simp [superTerminate, hd, Ne.symm hd]
  cases a with
  | opens c registers =>
    rw [step]
    by_cases hpass : (s.client c).inactive = false ∧ s.owner = none
    · rw [vucOpen_eq hpass.1 hpass.2]
      by_cases hd : d = c <;> cases registers <;> simp [startLogging, hd]
    · simp [vucOpen_refused hpass]
  | closes c =>
    rw [step, vucClose]
    split <;> simp
  | clientCloses c =>
    rw [step, vucClientClose_client]
    by_cases hd : d = c
    · simp [hd, vucTerminate, superTerminate]
    · simp [hd, hterm, Ne.symm hd]
  | terminates c => simp [step, hterm]
  | stops c =>
    rw [step, vucStop_client]
    by_cases hd : d = c <;> simp [hd]

theorem after_append (done : List (Call ι)) (a : Call ι) :
    after (done ++ [a]) = step (after done) a := by
  simp [after]

/-- A client is inactive exactly when its `terminate` or `clientClose` has returned. -/
theorem inactive_iff_gone (done : List (Call ι)) (c : ι) :
    ((after done).client c).inactive = true ↔ Gone done c := by
  induction done using List.reverseRecOn with
  | nil => simp [after, Kernel.init, Gone]
  | append_singleton done a ih =>
    rw [after_append, step_inactive, ih]
    simp only [Gone, List.mem_append, List.mem_singleton, eq_comm]
    tauto

/-- What the life cycle should guarantee of the sequence `calls`: every state reached is sound,
and no `open` that fails leaves a trace. -/
def LifeCycle (calls : List (Call ι)) : Prop :=
  ∀ done call rest, calls = done ++ call :: rest →
    Sound (after (done ++ [call])) (Gone (done ++ [call])) ∧ Clean (after done) call

/-- **The life cycle is sound exactly along careful calls.** -/
theorem lifecycle_iff_careful (calls : List (Call ι)) :
    LifeCycle calls ↔
      ∀ done call rest, calls = done ++ call :: rest → Careful (after done) call := by
  have halong := along_iff_of_invariant (f := step) (P := Careful)
    (Q := fun s a ↦ Sound (step s a) (fun c ↦ ((step s a).client c).inactive = true) ∧ Clean s a)
    (I := Inv) (fun s a h ha ↦ step_inv h a ha)
    (fun s a h ↦ ⟨fun ha ↦ ⟨(step_inv h a ha).sound, ha.clean⟩,
      fun hq ↦ h.careful_of_sound a hq.1 hq.2⟩) Inv.init calls
  rw [along_iff, along_iff] at halong
  refine Iff.trans ?_ halong.symm
  refine forall₄_congr fun done call rest _ ↦ and_congr_left fun _ ↦ ?_
  have hgone : Gone (done ++ [call]) =
      fun c ↦ ((step (after done) call).client c).inactive = true := by
    funext c
    rw [← after_append, inactive_iff_gone]
  rw [hgone, after_append]
  exact Iff.rfl

/-- One client that opens, closes, opens again and is terminated leaves its first listener
registered. -/
theorem lifecycle_reopen :
    ¬LifeCycle ([.opens 0 true, .closes 0, .opens 0 true, .terminates 0] : List (Call (Fin 1))) := by
  intro h
  have hs := (h [.opens 0 true, .closes 0, .opens 0 true] (.terminates 0) [] rfl).1
  exact hs.unregistered 0 (.inl (by decide)) ⟨0, some 0, 0⟩ (by decide) rfl

end VnodeWatcher
end MacOSXInternal
