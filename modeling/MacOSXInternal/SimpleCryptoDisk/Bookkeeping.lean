import MacOSXInternal.Lib.Runs
import MacOSXInternal.SimpleCryptoDisk.Driver

/-!
# The life of a request

Any number of requests can be on their way through the filter at once, and the provider may take
its time with each.  `System` is the driver together with a provider that has accepted requests;
`step` is one submission, one access of the provider to the buffer it was given, or one completion,
in any order, and the history is cut into one `Segment` for each.

* `Life` tells, segment by segment, how a single request is to be treated: its objects come into
  being when it is submitted, only the provider's transfers for that same request touch them until
  it is completed, and the completion calls the client's routine, releases every object once, and
  touches nothing of anybody else's.
* `bookkeeping` is the result: the history of every run is such a life for every request, and no
  step the provider or a client may take finds an object gone.

The invariant is `Inv`: a request that is in flight still holds its objects, all addresses in the
history are below the next free one, and different requests have different objects.
-/

set_option autoImplicit false

namespace MacOSXInternal
namespace SimpleCryptoDisk

open Runs Splice

/-! ## The system -/

/-- What a segment of the history was caused by. -/
inductive Cause
  | submit (id : ℕ) (r : Request)
  | transfer (id : ℕ)
  | complete (id : ℕ) (status : BitVec 32) (actualByteCount : BitVec 64)
  | prepare (b : ℕ)
  deriving DecidableEq

/-- The request a cause is about. -/
def Cause.id : Cause → Option ℕ
  | .submit id _ | .transfer id | .complete id _ _ => some id
  | .prepare _ => none

/-- One step, as the history tells it. -/
structure Segment where
  cause : Cause
  events : List Event

/-- The address an event is about. -/
def Event.address : Event → Option ℕ
  | .alloc a | .access a | .release a | .free a => some a
  | .buffer _ | .call _ => none

namespace Segment

def mentions (seg : Segment) : List ℕ := seg.events.filterMap Event.address

def allocs (seg : Segment) : List ℕ :=
  seg.events.filterMap fun | .alloc a => some a | _ => none

def releases (seg : Segment) : List ℕ :=
  seg.events.filterMap fun | .release a => some a | _ => none

def frees (seg : Segment) : List ℕ :=
  seg.events.filterMap fun | .free a => some a | _ => none

def buffers (seg : Segment) : List ℕ :=
  seg.events.filterMap fun | .buffer b => some b | _ => none

def calls (seg : Segment) : List Call :=
  seg.events.filterMap fun | .call c => some c | _ => none

end Segment

/-- A request and where its first object is. -/
structure Accepted where
  request : Request
  first : ℕ

/-- Its objects. -/
def Accepted.resources (a : Accepted) : List ℕ := a.request.resources a.first

/-- The driver, the requests it has accepted, numbered in that order, what the provider is still
working on, and the history. -/
structure System where
  kernel : Kernel
  accepted : List Accepted
  inflight : ℕ → Option Handover
  history : List Segment

/-- Nothing has been submitted. -/
def System.init (order : ByteOrder) (this : ℕ) (uninitialised : ℕ → ℕ → Byte)
    (buffer : ℕ → List Byte) : System where
  kernel := ⟨order, this, uninitialised, fun _ ↦ none, 0, buffer, []⟩
  accepted := []
  inflight _ := none
  history := []

/-- What can happen. -/
inductive Label
  | submit (r : Request)
  /-- The provider stores bytes at the beginning of a read's buffer. -/
  | fill (id : ℕ) (bytes : List Byte)
  /-- The provider fetches the bytes of a write. -/
  | fetch (id : ℕ)
  | complete (id : ℕ) (status : BitVec 32) (actualByteCount : BitVec 64)
  /-- A client changes a buffer of its own. -/
  | prepare (b : ℕ) (bytes : List Byte)

/-- The kernel has done something, whose record becomes a segment. -/
def System.record (s : System) (k : Kernel) (cause : Cause) : System :=
  { s with
    kernel := { k with events := [] }
    history := s.history ++ [⟨cause, k.events⟩] }

/-- One step, or `none` where it may not be taken or finds an object gone. -/
def step (s : System) : Label → Option System
  | .submit r => do
    let id := s.accepted.length
    let (k, h) ← submit s.kernel r
    some { s.record k (.submit id r) with
      accepted := s.accepted ++ [⟨r, s.kernel.next⟩]
      inflight := Function.update s.inflight id (some h) }
  | .fill id bytes => do
    let h ← s.inflight id
    if h.direction = .read then
      let k ← fill s.kernel h bytes
      some (s.record k (.transfer id))
    else none
  | .fetch id => do
    let h ← s.inflight id
    if h.direction = .write then
      let (_, k) ← fetch s.kernel h
      some (s.record k (.transfer id))
    else none
  | .complete id status actualByteCount => do
    let h ← s.inflight id
    let k ← complete s.kernel h status actualByteCount
    some { s.record k (.complete id status actualByteCount) with
      inflight := Function.update s.inflight id none }
  | .prepare b bytes => some (s.record (s.kernel.setBuffer b bytes) (.prepare b))

/-- `step` as a relation. -/
def Step (s : System) (l : Label) (t : System) : Prop := step s l = some t

/-- What a provider that completes every accepted request once may do. -/
def Permitted (s : System) : Label → Prop
  | .submit _ | .prepare _ _ => True
  | .fill id _ => ∃ h, s.inflight id = some h ∧ h.direction = .read
  | .fetch id => ∃ h, s.inflight id = some h ∧ h.direction = .write
  | .complete id _ _ => ∃ h, s.inflight id = some h

/-! ## The life of a request -/

/-- How far a request has got. -/
inductive Status
  | unborn
  | pending
  | completed
  deriving DecidableEq

/-- A segment that has nothing to do with a request. -/
def Elsewhere (id : ℕ) (a : Accepted) (seg : Segment) : Prop :=
  seg.cause.id ≠ some id ∧ ∀ x ∈ a.resources, x ∉ seg.mentions

/-- A segment that touches only what belongs to a request. -/
def Own (a : Accepted) (seg : Segment) : Prop :=
  (∀ x ∈ seg.mentions, x ∈ a.resources) ∧ ∀ b ∈ seg.buffers, b = a.request.buffer

/-- **How the segments of a history treat one request.** -/
inductive Life (id : ℕ) (a : Accepted) : Status → Segment → Status → Prop
  | aside {st : Status} {seg : Segment} (h : Elsewhere id a seg) : Life id a st seg st
  | submitted {seg : Segment} (cause : seg.cause = .submit id a.request)
      (allocs : seg.allocs.Perm a.resources) (releases : seg.releases = [])
      (frees : seg.frees = []) (calls : seg.calls = []) (own : Own a seg) :
      Life id a .unborn seg .pending
  | transferred {seg : Segment} (cause : seg.cause = .transfer id) (allocs : seg.allocs = [])
      (releases : seg.releases = []) (frees : seg.frees = []) (calls : seg.calls = [])
      (own : Own a seg) : Life id a .pending seg .pending
  | completed {seg : Segment} {status : BitVec 32} {actualByteCount : BitVec 64}
      (cause : seg.cause = .complete id status actualByteCount) (allocs : seg.allocs = [])
      (releases : seg.releases.Perm a.resources) (frees : seg.frees.Perm a.resources)
      (calls : seg.calls = a.request.answer status actualByteCount) (own : Own a seg) :
      Life id a .pending seg .completed

/-! ## What the segments are -/

theorem life_submitted (id : ℕ) (a : Accepted) :
    Life id a .unborn ⟨.submit id a.request, submitEvents a.request a.first⟩ .pending := by
  -- a write releases the sub-range, its parent and the memory in the opposite order
  have hperm : [a.first, a.first + 1, a.first + 2, a.first + 3].Perm
      [a.first + 2, a.first + 1, a.first, a.first + 3] :=
    (List.reverse_perm [a.first, a.first + 1, a.first + 2]).symm.append_right [a.first + 3]
  cases hr : a.request.direction <;>
    refine .submitted rfl ?_ ?_ ?_ ?_ ⟨?_, ?_⟩ <;>
    simp [Segment.allocs, Segment.releases, Segment.frees, Segment.calls, Segment.mentions,
      Segment.buffers, Accepted.resources, Request.resources, submitEvents, Event.address, hr,
      hperm]
  intro x hx
  omega

theorem life_transferred (id : ℕ) (a : Accepted) :
    Life id a .pending ⟨.transfer id, transferEvents a.request a.first⟩ .pending := by
  cases hr : a.request.direction <;>
    refine .transferred rfl ?_ ?_ ?_ ?_ ⟨?_, ?_⟩ <;>
    simp [Segment.allocs, Segment.releases, Segment.frees, Segment.calls, Segment.mentions,
      Segment.buffers, Accepted.resources, Request.resources, transferEvents, Event.address, hr]

theorem life_completed (id : ℕ) (a : Accepted) (status : BitVec 32)
    (actualByteCount : BitVec 64) :
    Life id a .pending ⟨.complete id status actualByteCount,
      completionEvents a.request a.first status actualByteCount⟩ .completed := by
  cases hr : a.request.direction <;>
    refine .completed rfl ?_ ?_ ?_ ?_ ⟨?_, ?_⟩ <;>
    simp [Segment.allocs, Segment.releases, Segment.frees, Segment.calls, Segment.mentions,
      Segment.buffers, Accepted.resources, Request.resources, completionEvents, Event.address, hr]

theorem Life.own {id : ℕ} {a : Accepted} {st st' : Status} {seg : Segment}
    (h : Life id a st seg st') (hid : seg.cause.id = some id) : Own a seg := by
  cases h with
  | aside h => exact absurd hid h.1
  | submitted _ _ _ _ _ own => exact own
  | transferred _ _ _ _ _ own => exact own
  | completed _ _ _ _ _ own => exact own

/-- Only a completion calls anybody. -/
theorem Life.answers {id : ℕ} {a : Accepted} {st st' : Status} {seg : Segment}
    (h : Life id a st seg st') (hid : seg.cause.id = some id) (hc : seg.calls ≠ []) :
    ∃ id status actualByteCount, seg.cause = .complete id status actualByteCount := by
  cases h with
  | aside h => exact absurd hid h.1
  | submitted _ _ _ _ calls _ => exact absurd calls hc
  | transferred _ _ _ _ calls _ => exact absurd calls hc
  | completed cause _ _ _ _ _ => exact ⟨_, _, _, cause⟩

/-- A history that has nothing to do with a request does not change how far it has got. -/
theorem run_aside {id : ℕ} {a : Accepted} (st : Status) {h : List Segment}
    (hh : ∀ seg ∈ h, Elsewhere id a seg) : Run (Life id a) st h st := by
  induction h with
  | nil => exact .nil st
  | cons seg h ih =>
    exact .cons (.aside (hh seg (List.mem_cons_self ..)))
      (ih fun seg' hs ↦ hh seg' (List.mem_cons_of_mem _ hs))

/-! ## What a life amounts to -/

/-- The releases a request's objects have behind them. -/
def Status.released : Status → ℕ
  | .unborn | .pending => 0
  | .completed => 1

theorem Request.nodup_resources (r : Request) (n : ℕ) : (r.resources n).Nodup := by
  cases hr : r.direction <;> simp [Request.resources, hr]

theorem mem_mentions_of_mem_releases {seg : Segment} {x : ℕ} (h : x ∈ seg.releases) :
    x ∈ seg.mentions := by
  simp only [Segment.releases, Segment.mentions, List.mem_filterMap] at h ⊢
  obtain ⟨e, he, hx⟩ := h
  refine ⟨e, he, ?_⟩
  cases e <;> simp_all [Event.address]

theorem mem_mentions_of_mem_frees {seg : Segment} {x : ℕ} (h : x ∈ seg.frees) :
    x ∈ seg.mentions := by
  simp only [Segment.frees, Segment.mentions, List.mem_filterMap] at h ⊢
  obtain ⟨e, he, hx⟩ := h
  refine ⟨e, he, ?_⟩
  cases e <;> simp_all [Event.address]

theorem Life.count {id : ℕ} {a : Accepted} {st st' : Status} {seg : Segment}
    (h : Life id a st seg st') {x : ℕ} (hx : x ∈ a.resources) :
    st.released + seg.releases.count x = st'.released ∧
      st.released + seg.frees.count x = st'.released := by
  have hnd : a.resources.Nodup := a.request.nodup_resources a.first
  cases h with
  | aside h =>
    have hr := List.count_eq_zero.mpr fun hr ↦ h.2 x hx (mem_mentions_of_mem_releases hr)
    have hf := List.count_eq_zero.mpr fun hf ↦ h.2 x hx (mem_mentions_of_mem_frees hf)
    omega
  | submitted _ _ releases frees _ _ => simp [releases, frees, Status.released]
  | transferred _ _ releases frees _ _ => simp [releases, frees, Status.released]
  | completed _ _ releases frees _ _ =>
    rw [releases.count_eq, frees.count_eq, List.count_eq_one_of_mem hnd hx]
    exact ⟨rfl, rfl⟩

/-- **Every object is released, and freed, as often as its request has been completed.** -/
theorem count_released {id : ℕ} {a : Accepted} {st st' : Status} {h : List Segment}
    (hr : Run (Life id a) st h st') {x : ℕ} (hx : x ∈ a.resources) :
    st.released + (h.flatMap Segment.releases).count x = st'.released ∧
      st.released + (h.flatMap Segment.frees).count x = st'.released := by
  induction hr with
  | nil => simp
  | cons hl _ ih =>
    have hc := hl.count hx
    rw [List.flatMap_cons, List.flatMap_cons, List.count_append, List.count_append]
    omega

/-! ## The invariant -/

structure Inv (s : System) : Prop where
  clear : s.kernel.events = []
  recorded : ∀ seg ∈ s.history, (∀ x ∈ seg.mentions, x < s.kernel.next) ∧
    ∀ id, seg.cause.id = some id → id < s.accepted.length
  below : ∀ (id : ℕ) (a : Accepted), s.accepted[id]? = some a →
    ∀ x ∈ a.resources, x < s.kernel.next
  apart : ∀ (id id' : ℕ) (a a' : Accepted), s.accepted[id]? = some a →
    s.accepted[id']? = some a' → id ≠ id' → ∀ x ∈ a.resources, x ∉ a'.resources
  held : ∀ (id : ℕ) (h : Handover), s.inflight id = some h → ∃ (a : Accepted) (bytes : List Byte),
    s.accepted[id]? = some a ∧ h = handover s.kernel.this a.request a.first ∧
    Held s.kernel a.request a.first bytes
  life : ∀ id (a : Accepted), s.accepted[id]? = some a →
    Run (Life id a) .unborn s.history (if (s.inflight id).isSome then .pending else .completed)
  answers : ∀ seg ∈ s.history, seg.calls ≠ [] →
    ∃ id status actualByteCount, seg.cause = .complete id status actualByteCount

theorem inv_init (order : ByteOrder) (this : ℕ) (uninitialised : ℕ → ℕ → Byte)
    (buffer : ℕ → List Byte) : Inv (System.init order this uninitialised buffer) := by
  refine ⟨rfl, ?_, ?_, ?_, ?_, ?_, ?_⟩ <;> simp [System.init]

theorem Held.congr {k k' : Kernel} {r : Request} {n : ℕ} {bytes : List Byte}
    (h : Held k r n bytes) (hobj : ∀ x ∈ r.resources n, k'.object x = k.object x) :
    Held k' r n bytes := by
  cases hr : r.direction <;> simp [Held, Request.resources, hr] at h hobj ⊢ <;> simp [hobj, h]

theorem Inv.answers_concat {s : System} (hs : Inv s) {seg₀ : Segment}
    (h₀ : seg₀.calls ≠ [] →
      ∃ id status actualByteCount, seg₀.cause = .complete id status actualByteCount) :
    ∀ seg ∈ s.history ++ [seg₀], seg.calls ≠ [] →
      ∃ id status actualByteCount, seg.cause = .complete id status actualByteCount := by
  intro seg hseg
  rcases List.mem_append.mp hseg with hseg | hseg
  · exact hs.answers seg hseg
  · obtain rfl := List.mem_singleton.mp hseg
    exact h₀

/-- Nothing that was there before mentions a new object. -/
theorem Inv.life_fresh {s : System} (hs : Inv s) {a : Accepted}
    (hnew : ∀ x ∈ a.resources, s.kernel.next ≤ x) :
    Run (Life s.accepted.length a) .unborn s.history .unborn := by
  refine run_aside .unborn fun seg hseg ↦ ?_
  obtain ⟨hm, hid⟩ := hs.recorded seg hseg
  exact ⟨fun h ↦ (hid _ h).false, fun x hx hx' ↦ absurd (hm x hx') (hnew x hx).not_gt⟩

/-- **A step about one request** that is in flight: a transfer or its completion. -/
theorem Inv.touch {s : System} (hs : Inv s) {id : ℕ} {a : Accepted} {k : Kernel} {cause : Cause}
    {inflight : ℕ → Option Handover} (ha : s.accepted[id]? = some a)
    (hin : (s.inflight id).isSome) (hid : cause.id = some id) (hnext : k.next = s.kernel.next)
    (hthis : k.this = s.kernel.this) (hobj : ∀ x ∉ a.resources, k.object x = s.kernel.object x)
    (hlife : Life id a .pending ⟨cause, k.events⟩
      (if (inflight id).isSome then .pending else .completed))
    (hother : ∀ id' ≠ id, inflight id' = s.inflight id')
    (hself : ∀ h, inflight id = some h → ∃ bytes,
      h = handover s.kernel.this a.request a.first ∧ Held k a.request a.first bytes) :
    Inv { s.record k cause with inflight := inflight } := by
  have hown := hlife.own hid
  have hlen : id < s.accepted.length := (List.getElem?_eq_some_iff.mp ha).1
  refine ⟨rfl, ?_, ?_, hs.apart, ?_, ?_, ?_⟩
  · intro seg hseg
    rcases List.mem_append.mp hseg with hseg | hseg
    · simpa [System.record, hnext] using hs.recorded seg hseg
    · obtain rfl := List.mem_singleton.mp hseg
      refine ⟨fun x hx ↦ ?_, fun id' hid' ↦ ?_⟩
      · simpa [System.record, hnext] using hs.below id a ha x (hown.1 x hx)
      · obtain rfl : id = id' := by simpa [hid] using hid'
        exact hlen
  · intro id' a' ha' x hx
    simpa [System.record, hnext] using hs.below id' a' ha' x hx
  · intro id' h hh
    by_cases he : id' = id
    · subst he
      obtain ⟨bytes, rfl, hheld⟩ := hself h hh
      refine ⟨a, bytes, ha, ?_, hheld⟩
      simp [System.record, hthis]
    · obtain ⟨a', bytes, ha', rfl, hheld⟩ := hs.held id' h (hother id' he ▸ hh)
      refine ⟨a', bytes, ha', by simp [System.record, hthis], hheld.congr fun x hx ↦ ?_⟩
      exact hobj x (hs.apart id' id a' a ha' ha he x hx)
  · intro id' a' ha'
    by_cases he : id' = id
    · subst he
      obtain rfl : a' = a := Option.some.inj (ha'.symm.trans ha)
      have hrun := hs.life id' a' ha'
      rw [if_pos hin] at hrun
      exact hrun.append (.single hlife)
    · have hrun := hs.life id' a' ha'
      rw [← hother id' he] at hrun
      refine hrun.append (.single (.aside ⟨?_, fun x hx hm ↦ ?_⟩))
      · simpa [hid] using Ne.symm he
      · exact hs.apart id' id a' a ha' ha he x hx (hown.1 x hm)
  · exact hs.answers_concat (hlife.answers hid)

/-! ## The steps -/

theorem Request.mem_resources {r : Request} {n x : ℕ} :
    x ∈ r.resources n ↔ n ≤ x ∧ x < n + (r.resources n).length := by
  cases hr : r.direction <;> simp [Request.resources, hr] <;> omega

theorem getElem?_concat {α : Type} {l : List α} {a b : α} {i : ℕ} (h : (l ++ [a])[i]? = some b) :
    l[i]? = some b ∨ i = l.length ∧ b = a := by
  rcases Nat.lt_trichotomy i l.length with hi | hi | hi
  · exact .inl (by rwa [List.getElem?_append_left hi] at h)
  · subst hi
    exact .inr ⟨rfl, by simpa [eq_comm] using h⟩
  · simp [List.getElem?_eq_none (l := l ++ [a]) (i := i) (by simp; omega)] at h

/-- **A submission.** -/
theorem Inv.submit {s : System} (hs : Inv s) (r : Request) :
    ∃ t, step s (.submit r) = some t ∧ Inv t := by
  obtain ⟨k, hsub, hheld, hnext, hobj, -, -, hthis, hev⟩ := submit_spec s.kernel r
  rw [hs.clear, List.nil_append] at hev
  refine ⟨_, by rw [step, hsub]; rfl, ?_⟩
  -- the new objects are behind everything the history and the other requests know of
  have hlife := life_submitted s.accepted.length ⟨r, s.kernel.next⟩
  rw [← hev] at hlife
  have hown := hlife.own rfl
  have hnew : ∀ x ∈ r.resources s.kernel.next, s.kernel.next ≤ x ∧ x < k.next := fun x hx ↦ by
    rw [hnext]
    exact Request.mem_resources.mp hx
  have hle : s.kernel.next ≤ k.next := by omega
  have hold : ∀ id a, s.accepted[id]? = some a → id ≠ s.accepted.length := fun id a ha ↦
    (List.getElem?_eq_some_iff.mp ha).1.ne
  refine ⟨rfl, ?_, ?_, ?_, ?_, ?_, ?_⟩
  · intro seg hseg
    rcases List.mem_append.mp hseg with hseg | hseg
    · obtain ⟨hm, hid⟩ := hs.recorded seg hseg
      refine ⟨fun x hx ↦ (hm x hx).trans_le hle, fun id h ↦ ?_⟩
      simpa using (hid id h).le
    · obtain rfl := List.mem_singleton.mp hseg
      refine ⟨fun x hx ↦ (hnew x (hown.1 x hx)).2, fun id h ↦ ?_⟩
      obtain rfl := Option.some.inj h
      simp
  · intro id a ha x hx
    rcases getElem?_concat ha with ha | ⟨rfl, rfl⟩
    · exact (hs.below id a ha x hx).trans_le hle
    · exact (hnew x hx).2
  · intro id id' a a' ha ha' hne x hx hx'
    rcases getElem?_concat ha with ha | ⟨rfl, rfl⟩ <;>
      rcases getElem?_concat ha' with ha' | ⟨rfl, rfl⟩
    · exact hs.apart id id' a a' ha ha' hne x hx hx'
    · exact absurd (hs.below id a ha x hx) (hnew x hx').1.not_gt
    · exact absurd (hs.below id' a' ha' x hx') (hnew x hx).1.not_gt
    · exact hne rfl
  · intro id h hh
    by_cases hid : id = s.accepted.length
    · subst hid
      obtain rfl : handover s.kernel.this r s.kernel.next = h := by simpa using hh
      refine ⟨⟨r, s.kernel.next⟩, encrypted s.kernel r, by simp, ?_, hheld⟩
      simp [System.record, hthis]
    · obtain ⟨a, bytes, ha, rfl, hheld'⟩ := hs.held id h (by simpa [hid] using hh)
      refine ⟨a, bytes, by rw [List.getElem?_append_left (List.getElem?_eq_some_iff.mp ha).1, ha],
        by simp [System.record, hthis], hheld'.congr fun x hx ↦ ?_⟩
      exact hobj x (hs.below id a ha x hx)
  · intro id a ha
    show Run (Life id a) .unborn (s.history ++ [_])
      (if (Function.update s.inflight s.accepted.length _ id).isSome then _ else _)
    rcases getElem?_concat ha with ha | ⟨rfl, rfl⟩
    · have hrun := hs.life id a ha
      rw [Function.update_of_ne (hold id a ha)]
      refine hrun.append (.single (.aside ⟨?_, fun x hx hm ↦ ?_⟩))
      · simpa [Cause.id] using (hold id a ha).symm
      · exact absurd (hs.below id a ha x hx) (hnew x (hown.1 x hm)).1.not_gt
    · rw [Function.update_self]
      have hfresh := hs.life_fresh (a := ⟨r, s.kernel.next⟩) fun x hx ↦ (hnew x hx).1
      exact hfresh.append (.single hlife)
  · exact hs.answers_concat (hlife.answers rfl)

/-- **A client at work on its own buffer.** -/
theorem Inv.prepare {s : System} (hs : Inv s) (b : ℕ) (bytes : List Byte) :
    Inv (s.record (s.kernel.setBuffer b bytes) (.prepare b)) := by
  have hseg : (⟨.prepare b, (s.kernel.setBuffer b bytes).events⟩ : Segment) = ⟨.prepare b, []⟩ := by
    rw [Kernel.setBuffer_events, hs.clear]
  refine ⟨rfl, ?_, hs.below, hs.apart, hs.held, ?_, ?_⟩
  · intro seg hm
    rcases List.mem_append.mp hm with hm | hm
    · exact hs.recorded seg hm
    · obtain rfl := (List.mem_singleton.mp hm).trans hseg
      simp [Segment.mentions, Cause.id]
  · intro id a ha
    refine (hs.life id a ha).append (.single (.aside ?_))
    rw [hseg]
    simp [Elsewhere, Cause.id, Segment.mentions]
  · refine hs.answers_concat fun hc ↦ ?_
    rw [hseg] at hc
    exact absurd rfl hc

/-- **A transfer.** -/
theorem Inv.transfer {s : System} (hs : Inv s) {id : ℕ} {a : Accepted} {bytes : List Byte}
    (ha : s.accepted[id]? = some a)
    (hh : s.inflight id = some (handover s.kernel.this a.request a.first))
    (hheld : Held s.kernel a.request a.first bytes) (new : List Byte) :
    Inv (s.record (afterTransfer s.kernel a.request a.first new) (.transfer id)) := by
  refine hs.touch ha (by simp [hh]) rfl rfl rfl (fun _ _ ↦ rfl) ?_ (fun _ _ ↦ rfl) ?_
  · have hlife := life_transferred id a
    simpa [hs.clear, afterTransfer, System.record, hh] using hlife
  · intro h hh'
    exact ⟨bytes, (Option.some.inj (hh.symm.trans hh')).symm, hheld⟩

/-- **Every permitted step can be taken**, and keeps the invariant. -/
theorem Inv.step {s : System} (hs : Inv s) {l : Label} (hl : Permitted s l) :
    ∃ t, step s l = some t ∧ Inv t := by
  cases l with
  | submit r => exact hs.submit r
  | prepare b bytes => exact ⟨_, rfl, hs.prepare b bytes⟩
  | fill id bytes =>
    obtain ⟨h, hh, hd⟩ := hl
    obtain ⟨a, old, ha, rfl, hheld⟩ := hs.held id h hh
    refine ⟨_, ?_, hs.transfer ha hh hheld
      (splice (s.kernel.buffer a.request.buffer) 0
        (bytes.take (s.kernel.buffer a.request.buffer).length))⟩
    rw [SimpleCryptoDisk.step, hh, Option.bind_eq_bind, Option.bind_some, if_pos hd,
      fill_eq _ (by simpa using hd)]
    rfl
  | fetch id =>
    obtain ⟨h, hh, hd⟩ := hl
    obtain ⟨a, bytes, ha, rfl, hheld⟩ := hs.held id h hh
    refine ⟨_, ?_, hs.transfer ha hh hheld (s.kernel.buffer a.request.buffer)⟩
    rw [SimpleCryptoDisk.step, hh, Option.bind_eq_bind, Option.bind_some, if_pos hd,
      fetch_eq (by simpa using hd) hheld]
    rfl
  | complete id status actualByteCount =>
    obtain ⟨h, hh⟩ := hl
    obtain ⟨a, bytes, ha, rfl, hheld⟩ := hs.held id h hh
    have hlife := life_completed id a status actualByteCount
    have hstep : SimpleCryptoDisk.step s (.complete id status actualByteCount) =
        some { s.record (afterCompletion s.kernel a.request a.first status actualByteCount)
          (.complete id status actualByteCount) with
            inflight := Function.update s.inflight id none } := by
      rw [SimpleCryptoDisk.step, hh, Option.bind_eq_bind, Option.bind_some, complete_eq hheld]
      rfl
    refine ⟨_, hstep, hs.touch ha (by simp [hh]) rfl rfl rfl ?_ ?_ ?_ ?_⟩
    · intro x hx
      simp only [Accepted.resources] at hx
      simp [afterCompletion, hx]
    · simpa [hs.clear, afterCompletion] using hlife
    · intro id' he
      exact Function.update_of_ne he ..
    · simp

/-- A step that was taken was permitted. -/
theorem permitted_of_step {s t : System} {l : Label} (h : Step s l t) : Permitted s l := by
  cases l with
  | submit r => trivial
  | prepare b bytes => trivial
  | fill id bytes =>
    rw [Step, SimpleCryptoDisk.step] at h
    cases hh : s.inflight id with
    | none => simp [hh] at h
    | some hand =>
      by_cases hd : hand.direction = .read
      · exact ⟨hand, hh, hd⟩
      · simp [hh, hd] at h
  | fetch id =>
    rw [Step, SimpleCryptoDisk.step] at h
    cases hh : s.inflight id with
    | none => simp [hh] at h
    | some hand =>
      by_cases hd : hand.direction = .write
      · exact ⟨hand, hh, hd⟩
      · simp [hh, hd] at h
  | complete id status actualByteCount =>
    rw [Step, SimpleCryptoDisk.step] at h
    cases hh : s.inflight id with
    | none => simp [hh] at h
    | some hand => exact ⟨hand, hh⟩

theorem inv_of_step {s t : System} {l : Label} (hs : Inv s) (h : Step s l t) : Inv t := by
  obtain ⟨t', ht', hinv⟩ := hs.step (permitted_of_step h)
  obtain rfl : t' = t := Option.some.inj (ht'.symm.trans h)
  exact hinv

/-- **Bookkeeping.**  In every state that any number of requests can lead to, in any order:

* whatever a client or the provider may do next, no object it needs is gone;
* only a completion calls a completion routine;
* the history is a `Life` for every request: pending exactly while the request is in flight, and
  each of its objects has been released and freed once when it is not, and never before. -/
theorem bookkeeping (order : ByteOrder) (this : ℕ) (uninitialised : ℕ → ℕ → Byte)
    (buffer : ℕ → List Byte) (labels : List Label) (t : System)
    (hr : Run Step (System.init order this uninitialised buffer) labels t) :
    (∀ l, Permitted t l → ∃ u, Step t l u) ∧
    (∀ seg ∈ t.history, seg.calls ≠ [] →
      ∃ id status actualByteCount, seg.cause = .complete id status actualByteCount) ∧
    ∀ id a, t.accepted[id]? = some a →
      Run (Life id a) .unborn t.history
        (if (t.inflight id).isSome then .pending else .completed) ∧
      ∀ x ∈ a.resources,
        (t.history.flatMap Segment.releases).count x = (if (t.inflight id).isSome then 0 else 1) ∧
        (t.history.flatMap Segment.frees).count x = (if (t.inflight id).isSome then 0 else 1) := by
  have ht : Inv t := hr.invariant (I := Inv) (fun _ _ _ ↦ inv_of_step) (inv_init ..)
  refine ⟨fun l hl ↦ ?_, ht.answers, fun id a ha ↦ ⟨ht.life id a ha, fun x hx ↦ ?_⟩⟩
  · obtain ⟨u, hu, -⟩ := ht.step hl
    exact ⟨u, hu⟩
  · have hc := count_released (ht.life id a ha) hx
    cases hin : t.inflight id <;> simpa [hin, Status.released] using hc

/-- A write and a read of one block, with buffers of that size; the read is completed first and with
an error. -/
theorem bookkeeping_overlapping :
    ∃ t, Run Step (System.init .big 0 (fun _ _ ↦ 0) fun b ↦ .replicate 512 (BitVec.ofNat 8 b))
        [.submit ⟨.write, 0, 0, ⟨some (.client 7), 1, 2⟩⟩, .submit ⟨.read, 512, 1, ⟨none, 0, 0⟩⟩,
          .fill 1 (.replicate 512 0x55), .complete 1 5 0, .fetch 0, .complete 0 0 512] t ∧
      ∀ x ∈ [2, 1, 0, 3], (t.history.flatMap Segment.releases).count x = 1 := by
  have hrun : ∃ t, Run Step
        (System.init .big 0 (fun _ _ ↦ 0) fun b ↦ .replicate 512 (BitVec.ofNat 8 b))
        [.submit ⟨.write, 0, 0, ⟨some (.client 7), 1, 2⟩⟩, .submit ⟨.read, 512, 1, ⟨none, 0, 0⟩⟩,
          .fill 1 (.replicate 512 0x55), .complete 1 5 0, .fetch 0, .complete 0 0 512] t ∧
      t.accepted[0]? = some ⟨⟨.write, 0, 0, ⟨some (.client 7), 1, 2⟩⟩, 0⟩ ∧ t.inflight 0 = none :=
    ⟨_, .cons rfl (.cons rfl (.cons rfl (.cons rfl (.cons rfl (.cons rfl (.nil _)))))), rfl, rfl⟩
  obtain ⟨t, hr, ha, hin⟩ := hrun
  refine ⟨t, hr, fun x hx ↦ ?_⟩
  have h := ((bookkeeping _ _ _ _ _ t hr).2.2 0 _ ha).2 x hx
  simpa [hin] using h.1

end SimpleCryptoDisk
end MacOSXInternal
