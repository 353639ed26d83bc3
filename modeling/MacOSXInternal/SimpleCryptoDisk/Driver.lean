import Mathlib.Logic.Function.Basic
import MacOSXInternal.SimpleCryptoDisk.Buffer

/-!
# The SimpleCryptoDisk driver

`read` and `write` put the filter's own completion routine in the place of the client's, with a
heap context that remembers the client's, and pass the request on to the provider; a write also
encrypts the client's data into temporary memory of its own.  `SCDReadWriteCompletion` undoes all
of that when the provider is done.  This file translates the three of them over a kernel heap.

* `Kernel` is the heap, the buffers of the clients and a record of what is done to them.  Heap
  addresses are numbers, and none is used twice; every operation on an object that is not there any
  more is `none`, so that a use after a release cannot go unnoticed.
* `Event` is what the record consists of.  `release` is a `release()` or `IOFree` the driver
  executes, `free` is the end of the object; the two differ for a descriptor that somebody else
  still retains, as `withSubRange` does with its parent.
* `Handover` is the call `getProvider()->read(...)` or `getProvider()->write(...)`.

All allocations succeed, as in the source, which does not check them.
-/

set_option autoImplicit false

namespace MacOSXInternal
namespace SimpleCryptoDisk

open Splice

/-! ## The objects -/

/-- A completion routine: the filter's own, or one of a client. -/
inductive Routine
  | SCDReadWriteCompletion
  | client (entry : ℕ)
  deriving DecidableEq

structure IOStorageCompletion where
  action : Option Routine
  target : ℕ
  parameter : ℕ
  deriving DecidableEq

/-- The context of a request.  `buffer` is the client's memory descriptor. -/
structure SimpleCryptoDiskContext where
  buffer : ℕ
  bufferRO : Option ℕ
  bufferWO : Option ℕ
  memory : Option ℕ
  size : ℕ
  completion : IOStorageCompletion
  deriving DecidableEq

/-- What lives on the heap.  The descriptors carry their reference count. -/
inductive Object
  | context (c : SimpleCryptoDiskContext)
  | memory (bytes : List Byte)
  | withAddress (memory : ℕ) (length refs : ℕ)
  | withSubRange (parent : ℕ) (offset length refs : ℕ)
  deriving DecidableEq

/-- A memory descriptor: one of a client's, or one of the driver's. -/
inductive Descriptor
  | client (b : ℕ)
  | heap (a : ℕ)
  deriving DecidableEq

/-- A completion routine being run. -/
structure Call where
  routine : Routine
  target : ℕ
  parameter : ℕ
  status : BitVec 32
  actualByteCount : BitVec 64
  deriving DecidableEq

/-- What is recorded. -/
inductive Event
  | alloc (a : ℕ)
  | access (a : ℕ)
  | release (a : ℕ)
  | free (a : ℕ)
  | buffer (b : ℕ)
  | call (c : Call)
  deriving DecidableEq

inductive Direction
  | read
  | write
  deriving DecidableEq

/-- A call of the provider's `read` or `write`. -/
structure Handover where
  direction : Direction
  byteStart : ℕ
  buffer : Descriptor
  completion : IOStorageCompletion
  deriving DecidableEq

/-! ## The kernel -/

/-- The kernel, as far as the driver is concerned.  `this` is the driver object, and
`uninitialised a` is what the memory that `IOMalloc` returns at `a` happens to contain. -/
structure Kernel where
  order : ByteOrder
  this : ℕ
  uninitialised : ℕ → ℕ → Byte
  object : ℕ → Option Object
  next : ℕ
  buffer : ℕ → List Byte
  events : List Event

attribute [ext] Kernel

namespace Kernel

/-- Record `e`. -/
def log (k : Kernel) (e : Event) : Kernel := { k with events := k.events ++ [e] }

/-- A new object, at the address `k.next`. -/
def alloc (k : Kernel) (x : Object) : Kernel :=
  { k with
    object := Function.update k.object k.next (some x)
    next := k.next + 1 }.log (.alloc k.next)

/-- Assign to the object at `a`, or remove it. -/
def setObject (k : Kernel) (a : ℕ) (x : Option Object) : Kernel :=
  { k with object := Function.update k.object a x }

/-- Assign to the client's buffer `b`. -/
def setBuffer (k : Kernel) (b : ℕ) (bytes : List Byte) : Kernel :=
  { k with buffer := Function.update k.buffer b bytes }

/-- The memory under one of the driver's descriptors, the part of it that is described, and the
objects looked at on the way. -/
def resolve (k : Kernel) (a : ℕ) : Option (ℕ × ℕ × ℕ × List ℕ) :=
  match k.object a with
  | some (.withAddress m length _) => some (m, 0, length, [a, m])
  | some (.withSubRange p offset length _) =>
    match k.object p with
    | some (.withAddress m _ _) => some (m, offset, length, [a, p, m])
    | _ => none
  | _ => none

/-- The bytes a descriptor describes. -/
def contents (k : Kernel) : Descriptor → Option (List Byte × Kernel)
  | .client b => some (k.buffer b, k.log (.buffer b))
  | .heap a =>
    match k.resolve a with
    | some (m, offset, length, seen) =>
      match k.object m with
      | some (.memory bytes) => some (chunk bytes offset length, seen.foldl (·.log <| .access ·) k)
      | _ => none
    | none => none

/-- Replaces the bytes a descriptor describes. -/
def store (k : Kernel) (bytes : List Byte) : Descriptor → Option Kernel
  | .client b => some ((k.setBuffer b bytes).log (.buffer b))
  | .heap a =>
    match k.resolve a with
    | some (m, offset, _, seen) =>
      match k.object m with
      | some (.memory old) =>
        some (seen.foldl (·.log <| .access ·)
          (k.setObject m (some (.memory (splice old offset bytes)))))
      | _ => none
    | none => none

/-- One reference to a descriptor less, and the end of it when that was the last one. -/
def unretain (k : Kernel) (a : ℕ) : Option Kernel :=
  match k.object a with
  | some (.withAddress m length refs) =>
    some (if refs = 1 then (k.setObject a none).log (.free a)
      else (k.setObject a (some (.withAddress m length (refs - 1)))).log (.access a))
  | _ => none

/-- `descriptor->release()`.  A sub-range descriptor that goes gives its parent back. -/
def release (k : Kernel) (a : ℕ) : Option Kernel :=
  match k.object a with
  | some (.withSubRange p offset length refs) =>
    if refs = 1 then (((k.log (.release a)).setObject a none).log (.free a)).unretain p
    else some (((k.log (.release a)).setObject a
      (some (.withSubRange p offset length (refs - 1)))).log (.access a))
  | _ => (k.log (.release a)).unretain a

/-- `IOFree`. -/
def ioFree (k : Kernel) (a : ℕ) : Option Kernel :=
  match k.object a with
  | some (.context _) | some (.memory _) =>
    some (((k.log (.release a)).setObject a none).log (.free a))
  | _ => none

/-- Fresh memory. -/
def garbage (k : Kernel) (length : ℕ) : List Byte :=
  (List.range length).map (k.uninitialised k.next)

@[simp] theorem length_garbage (k : Kernel) (length : ℕ) : (k.garbage length).length = length := by
  simp [garbage]

/-! ### What the operations change -/

section
variable (k : Kernel) (e : Event) (x : Object) (y : Option Object) (a b : ℕ) (bytes : List Byte)

@[simp] theorem log_object : (k.log e).object = k.object := rfl
@[simp] theorem log_next : (k.log e).next = k.next := rfl
@[simp] theorem log_buffer : (k.log e).buffer = k.buffer := rfl
@[simp] theorem log_events : (k.log e).events = k.events ++ [e] := rfl
@[simp] theorem log_order : (k.log e).order = k.order := rfl
@[simp] theorem log_this : (k.log e).this = k.this := rfl
@[simp] theorem log_uninitialised : (k.log e).uninitialised = k.uninitialised := rfl

@[simp] theorem alloc_object :
    (k.alloc x).object = Function.update k.object k.next (some x) := rfl
@[simp] theorem alloc_next : (k.alloc x).next = k.next + 1 := rfl
@[simp] theorem alloc_buffer : (k.alloc x).buffer = k.buffer := rfl
@[simp] theorem alloc_events : (k.alloc x).events = k.events ++ [.alloc k.next] := rfl
@[simp] theorem alloc_order : (k.alloc x).order = k.order := rfl
@[simp] theorem alloc_this : (k.alloc x).this = k.this := rfl
@[simp] theorem alloc_uninitialised : (k.alloc x).uninitialised = k.uninitialised := rfl

@[simp] theorem setObject_object :
    (k.setObject a y).object = Function.update k.object a y := rfl
@[simp] theorem setObject_next : (k.setObject a y).next = k.next := rfl
@[simp] theorem setObject_buffer : (k.setObject a y).buffer = k.buffer := rfl
@[simp] theorem setObject_events : (k.setObject a y).events = k.events := rfl
@[simp] theorem setObject_order : (k.setObject a y).order = k.order := rfl
@[simp] theorem setObject_this : (k.setObject a y).this = k.this := rfl
@[simp] theorem setObject_uninitialised : (k.setObject a y).uninitialised = k.uninitialised := rfl

@[simp] theorem setBuffer_object : (k.setBuffer b bytes).object = k.object := rfl
@[simp] theorem setBuffer_next : (k.setBuffer b bytes).next = k.next := rfl
@[simp] theorem setBuffer_buffer :
    (k.setBuffer b bytes).buffer = Function.update k.buffer b bytes := rfl
@[simp] theorem setBuffer_events : (k.setBuffer b bytes).events = k.events := rfl
@[simp] theorem setBuffer_order : (k.setBuffer b bytes).order = k.order := rfl
@[simp] theorem setBuffer_this : (k.setBuffer b bytes).this = k.this := rfl
@[simp] theorem setBuffer_uninitialised : (k.setBuffer b bytes).uninitialised = k.uninitialised := rfl

end

/-! ### The descriptors -/

section
variable {k : Kernel} {a p m offset length length' refs refs' : ℕ} {bytes : List Byte}

theorem contents_withAddress (ha : k.object a = some (.withAddress m length refs))
    (hm : k.object m = some (.memory bytes)) :
    k.contents (.heap a) =
      some (chunk bytes 0 length, (k.log (.access a)).log (.access m)) := by
  simp [contents, resolve, ha, hm]

theorem contents_withSubRange (ha : k.object a = some (.withSubRange p offset length refs))
    (hp : k.object p = some (.withAddress m length' refs')) (hm : k.object m = some (.memory bytes)) :
    k.contents (.heap a) =
      some (chunk bytes offset length,
        ((k.log (.access a)).log (.access p)).log (.access m)) := by
  simp [contents, resolve, ha, hp, hm]

theorem store_withAddress (new : List Byte)
    (ha : k.object a = some (.withAddress m length refs))
    (hm : k.object m = some (.memory bytes)) :
    k.store new (.heap a) =
      some (((k.setObject m (some (.memory (splice bytes 0 new)))).log (.access a)).log
        (.access m)) := by
  simp [store, resolve, ha, hm]

theorem ioFree_context {c : SimpleCryptoDiskContext} (ha : k.object a = some (.context c)) :
    k.ioFree a = some (((k.log (.release a)).setObject a none).log (.free a)) := by
  simp [ioFree, ha]

end

end Kernel

/-! ## The entry points -/

/-- `read`. -/
def read (k : Kernel) (byteStart buffer : ℕ) (completion : IOStorageCompletion) :
    Option (Kernel × Handover) :=
  let context := k.next
  let k := k.alloc (.context
    { buffer := buffer
      bufferRO := none
      bufferWO := none
      memory := none
      size := 0
      completion := completion })
  let completion := { action := some .SCDReadWriteCompletion, target := k.this, parameter := context }
  some (k, ⟨.read, byteStart, .client buffer, completion⟩)

/-- `write`. -/
def write (k : Kernel) (byteStart buffer : ℕ) (completion : IOStorageCompletion) :
    Option (Kernel × Handover) := do
  let length := (k.buffer buffer).length
  let memory := k.next
  let k := k.alloc (.memory (k.garbage length))
  let bufferWO := k.next
  let k := k.alloc (.withAddress memory length 1)
  -- `withSubRange` retains its parent
  let bufferRO := k.next
  let k := (k.alloc (.withSubRange bufferWO 0 length 1)).setObject bufferWO
    (some (.withAddress memory length 2))
  let context := k.next
  let k := k.alloc (.context
    { buffer := buffer
      bufferRO := some bufferRO
      bufferWO := some bufferWO
      memory := some memory
      size := length
      completion := completion })
  let completion := { action := some .SCDReadWriteCompletion, target := k.this, parameter := context }
  let (bytesR, k) ← k.contents (.client buffer)
  let (bytesW, k) ← k.contents (.heap bufferWO)
  let k ← k.store (fixBufferUserWrite k.order bytesR bytesW) (.heap bufferWO)
  some (k, ⟨.write, byteStart, .heap bufferRO, completion⟩)

/-- `SCDReadWriteCompletion`.  The target is not used. -/
def scdReadWriteCompletion (k : Kernel) (parameter : ℕ) (status : BitVec 32)
    (actualByteCount : BitVec 64) : Option Kernel :=
  match k.object parameter with
  | some (.context context) => do
    let k := k.log (.access parameter)
    let k ← match context.bufferWO with
      | none => do
        let (bytes, k) ← k.contents (.client context.buffer)
        k.store (fixBufferUserRead k.order bytes) (.client context.buffer)
      | some bufferWO => do
        let k ← k.release (← context.bufferRO)
        let k ← k.release bufferWO
        k.ioFree (← context.memory)
    let completion := context.completion
    let k ← k.ioFree parameter
    match completion.action with
      | none => some k
      | some action =>
        some (k.log (.call ⟨action, completion.target, completion.parameter, status,
          actualByteCount⟩))
  | _ => none

/-! ## What they do -/

/-- A request of a client. -/
structure Request where
  direction : Direction
  byteStart : ℕ
  buffer : ℕ
  completion : IOStorageCompletion
  deriving DecidableEq

/-- A client's call of `read` or `write`. -/
def submit (k : Kernel) (r : Request) : Option (Kernel × Handover) :=
  match r.direction with
  | .read => read k r.byteStart r.buffer r.completion
  | .write => write k r.byteStart r.buffer r.completion

/-- The call of the provider that a request whose first object is at `n` leads to. -/
def handover (this : ℕ) (r : Request) (n : ℕ) : Handover :=
  match r.direction with
  | .read => ⟨.read, r.byteStart, .client r.buffer, ⟨some .SCDReadWriteCompletion, this, n⟩⟩
  | .write => ⟨.write, r.byteStart, .heap (n + 2), ⟨some .SCDReadWriteCompletion, this, n + 3⟩⟩

/-- The objects of a request, in the order in which they are released. -/
def Request.resources (r : Request) (n : ℕ) : List ℕ :=
  match r.direction with
  | .read => [n]
  | .write => [n + 2, n + 1, n, n + 3]

/-- The objects of the request `r` are on the heap, at `n` and behind it.  For a write `bytes` is
what lies in the temporary memory. -/
def Held (k : Kernel) (r : Request) (n : ℕ) (bytes : List Byte) : Prop :=
  match r.direction with
  | .read => k.object n = some (.context ⟨r.buffer, none, none, none, 0, r.completion⟩)
  | .write =>
    k.object n = some (.memory bytes) ∧
    k.object (n + 1) = some (.withAddress n bytes.length 2) ∧
    k.object (n + 2) = some (.withSubRange (n + 1) 0 bytes.length 1) ∧
    k.object (n + 3) = some
      (.context ⟨r.buffer, some (n + 2), some (n + 1), some n, bytes.length, r.completion⟩)

/-- The bytes a write hands on. -/
def encrypted (k : Kernel) (r : Request) : List Byte :=
  fixBufferUserWrite k.order (k.buffer r.buffer) (k.garbage (k.buffer r.buffer).length)

theorem length_encrypted (k : Kernel) (r : Request) :
    (encrypted k r).length = (k.buffer r.buffer).length := by
  rw [encrypted, length_fixBufferUserWrite _ (Kernel.length_garbage ..).symm, Kernel.length_garbage]

/-- The record of a submission. -/
def submitEvents (r : Request) (n : ℕ) : List Event :=
  match r.direction with
  | .read => [.alloc n]
  | .write =>
    [.alloc n, .alloc (n + 1), .alloc (n + 2), .alloc (n + 3), .buffer r.buffer,
      .access (n + 1), .access n, .access (n + 1), .access n]

/-- The call a client expects when its request ends with `status`, if it expects one. -/
def Request.answer (r : Request) (status : BitVec 32) (actualByteCount : BitVec 64) : List Call :=
  (r.completion.action.map fun routine ↦
    ⟨routine, r.completion.target, r.completion.parameter, status, actualByteCount⟩).toList

/-- The record of a completion. -/
def completionEvents (r : Request) (n : ℕ) (status : BitVec 32) (actualByteCount : BitVec 64) :
    List Event :=
  (match r.direction with
    | .read => [.access n, .buffer r.buffer, .buffer r.buffer, .release n, .free n]
    | .write =>
      [.access (n + 3), .release (n + 2), .free (n + 2), .access (n + 1), .release (n + 1),
        .free (n + 1), .release n, .free n, .release (n + 3), .free (n + 3)]) ++
    (r.answer status actualByteCount).map .call

/-- The kernel after the four allocations of `write`. -/
def writeObjects (k : Kernel) (r : Request) : Kernel :=
  (((((k.alloc (.memory (k.garbage (k.buffer r.buffer).length))).alloc
    (.withAddress k.next (k.buffer r.buffer).length 1)).alloc
    (.withSubRange (k.next + 1) 0 (k.buffer r.buffer).length 1)).setObject (k.next + 1)
      (some (.withAddress k.next (k.buffer r.buffer).length 2))).alloc
    (.context ⟨r.buffer, some (k.next + 2), some (k.next + 1), some k.next,
      (k.buffer r.buffer).length, r.completion⟩))

@[simp] theorem writeObjects_order (k : Kernel) (r : Request) :
    (writeObjects k r).order = k.order := rfl

theorem held_writeObjects (k : Kernel) {r : Request} (hr : r.direction = .write) :
    Held (writeObjects k r) r k.next (k.garbage (k.buffer r.buffer).length) := by
  simp [Held, hr, writeObjects, Nat.add_assoc]

/-- The kernel after a submission. -/
def afterSubmit (k : Kernel) (r : Request) : Kernel :=
  match r.direction with
  | .read => k.alloc (.context ⟨r.buffer, none, none, none, 0, r.completion⟩)
  | .write =>
    ((((((writeObjects k r).log (.buffer r.buffer)).log (.access (k.next + 1))).log
      (.access k.next)).setObject k.next (some (.memory (encrypted k r)))).log
      (.access (k.next + 1))).log (.access k.next)

theorem submit_eq (k : Kernel) (r : Request) :
    submit k r = some (afterSubmit k r, handover k.this r k.next) := by
  cases hr : r.direction with
  | read => simp [submit, read, afterSubmit, handover, hr]
  | write =>
    have hw := held_writeObjects k hr
    simp only [Held, hr, Kernel.length_garbage] at hw
    obtain ⟨hm, hwo, -, -⟩ := hw
    have hbuf : ((writeObjects k r).contents (.client r.buffer)) =
        some (k.buffer r.buffer, (writeObjects k r).log (.buffer r.buffer)) := rfl
    have hchunk : chunk (k.garbage (k.buffer r.buffer).length) 0 (k.buffer r.buffer).length =
        k.garbage (k.buffer r.buffer).length := by
      simp [chunk, List.take_of_length_le]
    have hsplice : splice (k.garbage (k.buffer r.buffer).length) 0 (encrypted k r) =
        encrypted k r := by
      simp [length_encrypted, List.drop_of_length_le]
    have hobject (e e' e'' : Event) : ((((writeObjects k r).log e).log e').log e'').object =
        (writeObjects k r).object := rfl
    have hread := Kernel.contents_withAddress
      (k := (writeObjects k r).log (.buffer r.buffer)) hwo hm
    have hstore := Kernel.store_withAddress
      (k := (((writeObjects k r).log (.buffer r.buffer)).log (.access (k.next + 1))).log
        (.access k.next)) (encrypted k r) ((congrFun (hobject ..) _).trans hwo)
      ((congrFun (hobject ..) _).trans hm)
    rw [hchunk] at hread
    rw [hsplice] at hstore
    calc submit k r
        = (do
          let k₁ := writeObjects k r
          let (bytesR, k₁) ← k₁.contents (.client r.buffer)
          let (bytesW, k₁) ← k₁.contents (.heap (k.next + 1))
          let k₁ ← k₁.store (fixBufferUserWrite k₁.order bytesR bytesW) (.heap (k.next + 1))
          some (k₁, ⟨.write, r.byteStart, .heap (k.next + 2),
            ⟨some .SCDReadWriteCompletion, k.this, k.next + 3⟩⟩)) := by rw [submit, hr]; rfl
      _ = _ := by
        simp only [hbuf, Option.bind_eq_bind, Option.bind_some, hread, Kernel.log_order,
          writeObjects_order]
        rw [← encrypted, hstore]
        simp [afterSubmit, handover, hr]

/-- **What a submission does.** -/
theorem submit_spec (k : Kernel) (r : Request) :
    ∃ k', submit k r = some (k', handover k.this r k.next) ∧
      Held k' r k.next (encrypted k r) ∧
      k'.next = k.next + (r.resources k.next).length ∧
      (∀ a < k.next, k'.object a = k.object a) ∧
      k'.buffer = k.buffer ∧ k'.order = k.order ∧ k'.this = k.this ∧
      k'.events = k.events ++ submitEvents r k.next := by
  refine ⟨_, submit_eq k r, ?_⟩
  cases hr : r.direction with
  | read =>
    refine ⟨?_, ?_, ?_, ?_, ?_, ?_, ?_⟩
    · simp [afterSubmit, Held, hr]
    · simp [afterSubmit, Request.resources, hr]
    · intro a ha
      simp [afterSubmit, hr, Function.update_of_ne ha.ne]
    all_goals simp [afterSubmit, submitEvents, hr]
  | write =>
    have hw := held_writeObjects k hr
    simp only [Held, hr, Kernel.length_garbage] at hw
    obtain ⟨-, hwo, hro, hc⟩ := hw
    refine ⟨?_, ?_, ?_, ?_, ?_, ?_, ?_⟩
    · simp [afterSubmit, Held, hr, hwo, hro, hc, length_encrypted]
    · simp [afterSubmit, writeObjects, Request.resources, hr, Nat.add_assoc]
    · intro a ha
      have hne : ∀ i, a ≠ k.next + i := fun i ↦ (Nat.lt_add_right i ha).ne
      simp [afterSubmit, writeObjects, hr, ha.ne, hne, Nat.add_assoc, Function.update_of_ne]
    all_goals simp [afterSubmit, writeObjects, submitEvents, hr]

/-- The kernel after the completion of a request: its objects are gone, and the buffer of a read
has been decrypted. -/
def afterCompletion (k : Kernel) (r : Request) (n : ℕ) (status : BitVec 32)
    (actualByteCount : BitVec 64) : Kernel :=
  { k with
    object := fun a ↦ if a ∈ r.resources n then none else k.object a
    buffer := match r.direction with
      | .read => Function.update k.buffer r.buffer (fixBufferUserRead k.order (k.buffer r.buffer))
      | .write => k.buffer
    events := k.events ++ completionEvents r n status actualByteCount }

/-- **What a completion does.** -/
theorem scdReadWriteCompletion_eq {k : Kernel} {r : Request} {n : ℕ} {bytes : List Byte}
    (h : Held k r n bytes) (this : ℕ) (status : BitVec 32) (actualByteCount : BitVec 64) :
    scdReadWriteCompletion k (handover this r n).completion.parameter status actualByteCount =
      some (afterCompletion k r n status actualByteCount) := by
  cases hr : r.direction with
  | read =>
    simp only [Held, hr] at h
    have hfree := Kernel.ioFree_context (k := (((k.log (.access n)).log (.buffer r.buffer)).setBuffer
      r.buffer (fixBufferUserRead k.order (k.buffer r.buffer))).log (.buffer r.buffer)) h
    simp only [scdReadWriteCompletion, handover, hr, h, Kernel.contents, Kernel.store,
      Option.bind_eq_bind, Option.bind_some, Kernel.log_order, Kernel.log_buffer, hfree]
    cases hc : r.completion.action <;>
      simp [afterCompletion, completionEvents, Request.answer, Request.resources, hr, hc,
        Kernel.ext_iff, funext_iff, Function.update_apply]
  | write =>
    simp only [Held, hr] at h
    obtain ⟨hm, hwo, hro, hc⟩ := h
    simp only [scdReadWriteCompletion, handover, hr, hc, Option.bind_eq_bind, Option.bind_some]
    -- the sub-range, its parent, the memory and the context, each found where the last one left it
    simp only [Kernel.release, Kernel.unretain, Kernel.ioFree, Kernel.log_object,
      Kernel.setObject_object, hro, hwo, hm, hc, ↓reduceIte, Function.update_self,
      Function.update_of_ne, Function.update_idem, ne_eq, Nat.add_left_cancel_iff, Nat.add_eq_left,
      Nat.left_eq_add, Nat.succ_ne_self, Nat.add_one_sub_one, OfNat.one_ne_ofNat,
      OfNat.ofNat_ne_one, OfNat.ofNat_ne_zero, one_ne_zero, not_false_eq_true, Option.bind_some]
    have hgone : ∀ a, (if a = n + 3 then none else if a = n then none else if a = n + 1 then none
        else if a = n + 2 then none else k.object a) =
      if a = n + 2 ∨ a = n + 1 ∨ a = n ∨ a = n + 3 then none else k.object a := by
      intro a
      split_ifs <;> first | rfl | omega
    cases hcall : r.completion.action <;>
      simp [afterCompletion, completionEvents, Request.answer, Request.resources, hr, hcall,
        Kernel.ext_iff, funext_iff, Function.update_apply, hgone]

/-! ## The provider's side -/

/-- The provider's `writeBytes` at the beginning of a buffer. -/
def fill (k : Kernel) (h : Handover) (bytes : List Byte) : Option Kernel := do
  let (old, k) ← k.contents h.buffer
  k.store (splice old 0 (bytes.take old.length)) h.buffer

/-- The provider's `readBytes` of a whole buffer. -/
def fetch (k : Kernel) (h : Handover) : Option (List Byte × Kernel) := k.contents h.buffer

/-- The provider runs the completion routine it was given. -/
def complete (k : Kernel) (h : Handover) (status : BitVec 32) (actualByteCount : BitVec 64) :
    Option Kernel :=
  match h.completion.action with
  | none => some k
  | some .SCDReadWriteCompletion =>
    scdReadWriteCompletion k h.completion.parameter status actualByteCount
  | some (.client entry) =>
    some (k.log (.call ⟨.client entry, h.completion.target, h.completion.parameter, status,
      actualByteCount⟩))

@[simp] theorem handover_direction (this : ℕ) (r : Request) (n : ℕ) :
    (handover this r n).direction = r.direction := by
  cases hr : r.direction <;> simp [handover, hr]

@[simp] theorem handover_byteStart (this : ℕ) (r : Request) (n : ℕ) :
    (handover this r n).byteStart = r.byteStart := by
  cases hr : r.direction <;> simp [handover, hr]

/-- The record of a transfer. -/
def transferEvents (r : Request) (n : ℕ) : List Event :=
  match r.direction with
  | .read => [.buffer r.buffer, .buffer r.buffer]
  | .write => [.access (n + 2), .access (n + 1), .access n]

/-- The kernel after a transfer, which leaves `bytes` in the client's buffer. -/
def afterTransfer (k : Kernel) (r : Request) (n : ℕ) (bytes : List Byte) : Kernel :=
  { k with
    buffer := Function.update k.buffer r.buffer bytes
    events := k.events ++ transferEvents r n }

theorem fill_eq (k : Kernel) {r : Request} (hr : r.direction = .read) (this n : ℕ)
    (bytes : List Byte) :
    fill k (handover this r n) bytes = some (afterTransfer k r n
      (splice (k.buffer r.buffer) 0 (bytes.take (k.buffer r.buffer).length))) := by
  simp [fill, afterTransfer, handover, hr, Kernel.contents, Kernel.store, transferEvents, Kernel.ext_iff]

theorem fetch_eq {k : Kernel} {r : Request} (hr : r.direction = .write) {n : ℕ}
    {bytes : List Byte} (h : Held k r n bytes) (this : ℕ) :
    fetch k (handover this r n) =
      some (bytes, afterTransfer k r n (k.buffer r.buffer)) := by
  simp only [Held, hr] at h
  obtain ⟨hm, hwo, hro, -⟩ := h
  simp [fetch, afterTransfer, handover, hr, Kernel.contents_withSubRange hro hwo hm,
    transferEvents, chunk, Kernel.ext_iff]

theorem complete_eq {k : Kernel} {r : Request} {n : ℕ} {bytes : List Byte} (h : Held k r n bytes)
    (this : ℕ) (status : BitVec 32) (actualByteCount : BitVec 64) :
    complete k (handover this r n) status actualByteCount =
      some (afterCompletion k r n status actualByteCount) := by
  rw [← scdReadWriteCompletion_eq h this]
  cases hr : r.direction <;> simp [complete, handover, hr]

end SimpleCryptoDisk
end MacOSXInternal
