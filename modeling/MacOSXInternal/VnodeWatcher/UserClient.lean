import Mathlib.Data.List.Basic
import Mathlib.Logic.Function.Basic

/-!
# The VnodeWatcher user client

`com_osxbook_driver_VnodeWatcherUserClient` has six entry points that touch three shared things:
the provider's exclusive open, the kernel's collection of kauth listeners, and the client's own
data queue, which is the cookie the listener is registered with.  This file translates the entry
points as they stand in `VnodeWatcher.cpp`.  `Kernel` is everything they read or write, `step`
performs one call, and `after` runs a sequence of them.

The wait for running callbacks in `stopLogging` is not part of this file, which takes every call
as atomic; `VnodeWatcher.Drain` is about that loop.
-/

set_option autoImplicit false

namespace MacOSXInternal
namespace VnodeWatcher

/-! ## The objects -/

/-- The return codes the entry points use. -/
inductive IOReturn
  | kIOReturnSuccess
  | kIOReturnNotAttached
  | kIOReturnExclusiveAccess
  | kIOReturnInternalError
  deriving DecidableEq, Repr

/-- `kt_kStopListeningToMessages`. -/
def kt_kStopListeningToMessages : BitVec 8 := 0xff

variable {ι : Type}

/-- A listener in the kernel's collection.  The cookie is the `fDataQueue` it was registered with,
which is `NULL` after a `stop`; `registrant` is the client that made the call. -/
structure Listener (ι : Type) where
  handle : ℕ
  cookie : Option ι
  registrant : ι
  deriving DecidableEq

/-- The instance variables of a user client.  Pointers that are only ever compared with `NULL` are
`Bool`s; a data queue is named by the client whose `start` created it. -/
structure UserClient (ι : Type) where
  inactive : Bool
  fClient : Bool
  fProvider : Bool
  fDataQueue : Option ι
  fSharedMemory : Bool
  fListener : Option ℕ

/-- An `IODataQueue`, as far as `stop` uses it. -/
structure DataQueue where
  entries : List (List (BitVec 8))
  released : Bool

/-- Everything the entry points read or write. -/
structure Kernel (ι : Type) where
  owner : Option ι
  listeners : List (Listener ι)
  nextHandle : ℕ
  client : ι → UserClient ι
  queue : ι → DataQueue

/-- Every client has been through `initWithTask` and a successful `start`. -/
def Kernel.init : Kernel ι where
  owner := none
  listeners := []
  nextHandle := 0
  client c := ⟨false, true, true, some c, true, none⟩
  queue _ := ⟨[], false⟩

variable [DecidableEq ι]

/-- Assign to the instance variables of `c`. -/
def Kernel.setClient (s : Kernel ι) (c : ι) (u : UserClient ι) : Kernel ι :=
  { s with client := Function.update s.client c u }

@[simp] theorem Kernel.setClient_owner (s : Kernel ι) (c : ι) (u : UserClient ι) :
    (s.setClient c u).owner = s.owner := rfl

@[simp] theorem Kernel.setClient_listeners (s : Kernel ι) (c : ι) (u : UserClient ι) :
    (s.setClient c u).listeners = s.listeners := rfl

@[simp] theorem Kernel.setClient_queue (s : Kernel ι) (c : ι) (u : UserClient ι) :
    (s.setClient c u).queue = s.queue := rfl

@[simp] theorem Kernel.setClient_client (s : Kernel ι) (c : ι) (u : UserClient ι) (d : ι) :
    (s.setClient c u).client d = if d = c then u else s.client d :=
  Function.update_apply ..

/-! ## The entry points -/

/-- `startLogging`; `registers` is whether `kauth_listen_scope` returns a listener. -/
def startLogging (s : Kernel ι) (c : ι) (registers : Bool) : Kernel ι × IOReturn :=
  if registers then
    ({ s with
        listeners := ⟨s.nextHandle, (s.client c).fDataQueue, c⟩ :: s.listeners
        nextHandle := s.nextHandle + 1 }.setClient c
      { s.client c with fListener := some s.nextHandle }, .kIOReturnSuccess)
  else (s.setClient c { s.client c with fListener := none }, .kIOReturnInternalError)

/-- `stopLogging`, up to the wait for running callbacks. -/
def stopLogging (s : Kernel ι) (c : ι) : Kernel ι :=
  match (s.client c).fListener with
  | some h =>
    { s with listeners := s.listeners.filter fun l ↦ l.handle ≠ h }.setClient c
      { s.client c with fListener := none }
  | none => s

/-- `open`. -/
def vucOpen (s : Kernel ι) (c : ι) (registers : Bool) : Kernel ι × IOReturn :=
  if (s.client c).inactive then (s, .kIOReturnNotAttached)
  else if s.owner.isSome then (s, .kIOReturnExclusiveAccess)
  else startLogging { s with owner := some c } c registers

/-- `fProvider->isOpen(this)` followed by `fProvider->close(this)`. -/
def closeProvider (s : Kernel ι) (c : ι) : Kernel ι :=
  if s.owner = some c then { s with owner := none } else s

/-- `close`. -/
def vucClose (s : Kernel ι) (c : ι) : Kernel ι × IOReturn :=
  if (s.client c).fProvider then (closeProvider s c, .kIOReturnSuccess)
  else (s, .kIOReturnNotAttached)

/-- `super::terminate`, which makes the object inactive. -/
def superTerminate (s : Kernel ι) (c : ι) : Kernel ι :=
  s.setClient c { s.client c with inactive := true }

/-- `terminate`. -/
def vucTerminate (s : Kernel ι) (c : ι) : Kernel ι :=
  let s := if (s.client c).fProvider then closeProvider s c else s
  superTerminate (stopLogging s c) c

/-- `clientClose`. -/
def vucClientClose (s : Kernel ι) (c : ι) : Kernel ι × IOReturn :=
  let s := vucTerminate (vucClose s c).1 c
  (s.setClient c { s.client c with fClient := false, fProvider := false }, .kIOReturnSuccess)

/-- `stop`: the message to the user side, then the release of the shared memory and the queue. -/
def vucStop (s : Kernel ι) (c : ι) : Kernel ι :=
  match (s.client c).fDataQueue with
  | some q =>
    { s with
        queue := Function.update s.queue q
          ⟨(s.queue q).entries ++ [[kt_kStopListeningToMessages]], true⟩ }.setClient c
      { s.client c with fSharedMemory := false, fDataQueue := none }
  | none => s.setClient c { s.client c with fSharedMemory := false }

/-- A call of an entry point by a client. -/
inductive Call (ι : Type)
  | opens (c : ι) (registers : Bool)
  | closes (c : ι)
  | clientCloses (c : ι)
  | terminates (c : ι)
  | stops (c : ι)
  deriving DecidableEq

/-- The effect of one call. -/
def step (s : Kernel ι) : Call ι → Kernel ι
  | .opens c registers => (vucOpen s c registers).1
  | .closes c => (vucClose s c).1
  | .clientCloses c => (vucClientClose s c).1
  | .terminates c => vucTerminate s c
  | .stops c => vucStop s c

/-- The kernel after the calls `done`. -/
def after (done : List (Call ι)) : Kernel ι := done.foldl step .init

end VnodeWatcher
end MacOSXInternal
