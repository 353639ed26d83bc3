import MacOSXInternal.Lib.PowerPC.Branch

/-!
# `frr.c`: function rerouting

`frr_install` replaces the first instruction of a function by a branch to another function, and
builds a stub through which the first can still be called: the instruction it replaced, and a branch
to the one behind.  `frr_remove` puts the instruction back.

The memory of the process is bytes; the metadata blocks that `frr_install` allocates are records,
by address.  What the functions ask of the system comes in as `Calls`: what `malloc` and `mprotect`
return, and whether the conditional store went undisturbed.  `none` is undefined behaviour: a block
is freed that is not allocated.

* `frr_install`, `frr_remove` are the functions, exit by exit.
* `frr_install_eq` and `frr_remove_eq` say what they do where every check and every call passes.
* `installed_entry`, `installed_stub`, `installed_back` and `installed_of_apart` are the memory
  after an installation.
-/

set_option autoImplicit false

namespace MacOSXInternal
namespace Frr

open PowerPC

/-! ## Data -/

def BYTES_PER_INSTRUCTION : BitVec 32 := 4

def BRANCH_MOPCODE : BitVec 6 := 0x12

def DEFAULT_STUBSZ : ℕ := 128

/-- `branch_t`. -/
structure Branch where
  OP : BitVec 6
  LI : BitVec 24
  AA : BitVec 1
  LK : BitVec 1

/-- A branch as a word: bit-fields are laid out from the most significant bit on. -/
def Branch.word (b : Branch) : BitVec 32 := b.OP ++ b.LI ++ b.AA ++ b.LK

/-- The branch that `frr_install` fills in, with `target_address` assigned to its 24-bit field. -/
def branchTo (target_address : BitVec 32) : Branch where
  OP := BRANCH_MOPCODE
  LI := target_address.setWidth 24
  AA := 1
  LK := 0

theorem word_branchTo (x : BitVec 32) : (branchTo x).word = absolute (x.setWidth 24) := rfl

/-- `frr_data_t`. -/
structure FrrData where
  f_orig : BitVec 32
  f_new : BitVec 32
  f_stub : BitVec 32
  /-- The four bytes, as the word they are. -/
  f_bytes : BitVec 32

/-- The process. -/
structure Process where
  mem : Memory
  /-- The metadata, by the address of its block. -/
  frr : BitVec 32 → FrrData
  /-- The blocks that are allocated. -/
  live : List (BitVec 32)

namespace Process

variable (p : Process) (a : BitVec 32)

/-- `malloc` has returned `a`. -/
def malloc : Process := if a = 0 then p else { p with live := a :: p.live }

/-- `free`. -/
def free : Option Process := if a ∈ p.live then some { p with live := p.live.erase a } else none

/-- Assign to fields of a metadata block. -/
def assign (f : FrrData → FrrData) : Process :=
  { p with frr := Function.update p.frr a (f (p.frr a)) }

end Process

/-- What the system calls, the allocator and the conditional store have in store for an
installation. -/
structure Calls where
  /-- What the two calls of `malloc` return. -/
  FRR : BitVec 32
  f_stub : BitVec 32
  /-- What the two calls of `mprotect` return. -/
  mprotect_orig : ℤ
  mprotect_stub : ℤ
  /-- Nobody else stores between the load and the store of `hw_compare_and_store`. -/
  reserved : Bool

/-- `hw_compare_and_store`: what it returns, and memory. -/
def hw_compare_and_store (reserved : Bool) (old new address : BitVec 32) (m : Memory) :
    ℤ × Memory :=
  if reserved ∧ m.loadWord address = old then (1, m.storeWord address new) else (0, m)

/-! ## The functions -/

/-- The exit of `frr_install` at `ERROR`.  The pointer it returns is the one it has freed. -/
def error (FRR : BitVec 32) (p : Process) : Option (BitVec 32 × Process) := do
  let p ← if FRR ≠ 0 ∧ (p.frr FRR).f_stub ≠ 0 then p.free (p.frr FRR).f_stub else some p
  let p ← if FRR ≠ 0 then p.free FRR else some p
  return (FRR, p)

/-- `frr_install`. -/
def frr_install (c : Calls) (original new : BitVec 32) (p : Process) :
    Option (BitVec 32 × Process) :=
  if new >>> 25 ≠ 0 then error 0 p
  else
    let FRR := c.FRR
    let p := p.malloc FRR
    if FRR = 0 then some (FRR, p)
    else
      let p := p.assign FRR fun d ↦ { d with f_orig := original, f_new := new }
      let p := (p.malloc c.f_stub).assign FRR fun d ↦ { d with f_stub := c.f_stub }
      if c.f_stub = 0 then do
        let p ← p.free FRR
        return (0, p)
      else if c.mprotect_orig ≠ 0 then error FRR p
      else if c.mprotect_stub ≠ 0 then error FRR p
      else
        let p := p.assign FRR fun d ↦ { d with f_bytes := p.mem.loadWord original }
        let target_address := (original + 4) >>> 2
        if target_address >>> 25 ≠ 0 then error FRR p
        else
          let mem := p.mem.storeWord c.f_stub (p.frr FRR).f_bytes
          let mem := mem.storeWord (c.f_stub + BYTES_PER_INSTRUCTION) (branchTo target_address).word
          let target_address := new >>> 2
          if target_address >>> 25 ≠ 0 then error FRR { p with mem }
          else
            let (ret, mem) := hw_compare_and_store c.reserved (mem.loadWord original)
              (branchTo target_address).word original mem
            if ret ≠ 1 then error FRR { p with mem }
            else some (FRR, { p with mem })

/-- `frr_remove`, with what `mprotect` returns. -/
def frr_remove (mprotect : ℤ) (reserved : Bool) (FRR : BitVec 32) (p : Process) :
    Option (ℤ × Process) :=
  if FRR = 0 then some (0, p)
  else if mprotect ≠ 0 then some (-1, p)
  else do
    let d := p.frr FRR
    let (_, mem) := hw_compare_and_store reserved (p.mem.loadWord d.f_orig) d.f_bytes d.f_orig p.mem
    let p := { p with mem }
    let p ← if d.f_stub ≠ 0 then p.free d.f_stub else some p
    let p ← p.free FRR
    return (0, p)

/-! ## Where everything passes -/

/-- Every check of `frr_install` and every call it makes passes. -/
structure Pass (c : Calls) (original new : BitVec 32) : Prop where
  FRR : c.FRR ≠ 0#32
  f_stub : c.f_stub ≠ 0#32
  mprotect_orig : c.mprotect_orig = 0
  mprotect_stub : c.mprotect_stub = 0
  reserved : c.reserved = true
  new_near : new >>> 25 = 0#32
  original_near : (original + 4#32) >>> 2 >>> 25 = 0#32

/-- The memory after an installation. -/
def installedMem (c : Calls) (original new : BitVec 32) (m : Memory) : Memory :=
  ((m.storeWord c.f_stub (m.loadWord original)).storeWord (c.f_stub + BYTES_PER_INSTRUCTION)
    (branchTo ((original + 4) >>> 2)).word).storeWord original (branchTo (new >>> 2)).word

/-- The process after an installation. -/
def installed (c : Calls) (original new : BitVec 32) (p : Process) : Process where
  mem := installedMem c original new p.mem
  frr := Function.update p.frr c.FRR ⟨original, new, c.f_stub, p.mem.loadWord original⟩
  live := c.f_stub :: c.FRR :: p.live

/-- The process after a removal. -/
def removed (FRR : BitVec 32) (p : Process) : Process where
  mem := p.mem.storeWord (p.frr FRR).f_orig (p.frr FRR).f_bytes
  frr := p.frr
  live := (p.live.erase (p.frr FRR).f_stub).erase FRR

variable {c : Calls} {original new : BitVec 32} {p : Process}

theorem near_toNat {x : BitVec 32} (h : x >>> 25 = 0#32) : x.toNat < 2 ^ 25 := by
  have h := congrArg BitVec.toNat h
  rw [BitVec.toNat_ushiftRight, Nat.shiftRight_eq_div_pow] at h
  simp at h
  omega

/-- The second check of `new` passes if the first does. -/
theorem near_ushiftRight {x : BitVec 32} (h : x >>> 25 = 0#32) : x >>> 2 >>> 25 = 0#32 := by
  have := near_toNat h
  refine BitVec.eq_of_toNat_eq ?_
  simp [Nat.shiftRight_eq_div_pow]
  omega

/-- How far the check of `original + 4` lets through. -/
theorem toNat_lt_of_near {x : BitVec 32} (h : x >>> 2 >>> 25 = 0#32) : x.toNat < 2 ^ 27 := by
  have hlt : (x >>> 2).toNat < 2 ^ 25 := near_toNat h
  rw [BitVec.toNat_ushiftRight, Nat.shiftRight_eq_div_pow] at hlt
  omega

theorem frr_install_eq (h : Pass c original new) :
    frr_install c original new p = some (c.FRR, installed c original new p) := by
  simp [frr_install, hw_compare_and_store, installed, installedMem, Process.malloc, Process.assign,
    h.FRR, h.f_stub, h.mprotect_orig, h.mprotect_stub, h.reserved, h.new_near, h.original_near,
    near_ushiftRight h.new_near]

theorem frr_remove_eq {FRR : BitVec 32} (hFRR : FRR ≠ 0#32)
    (hstub : (p.frr FRR).f_stub ≠ 0#32)
    (hlive : (p.frr FRR).f_stub ∈ p.live) (hlive' : FRR ∈ p.live.erase (p.frr FRR).f_stub) :
    frr_remove 0 true FRR p = some (0, removed FRR p) := by
  simp [frr_remove, hw_compare_and_store, Process.free, removed, hFRR, hstub, hlive, hlive']

@[simp] theorem installed_self : (installed c original new p).frr c.FRR =
    ⟨original, new, c.f_stub, p.mem.loadWord original⟩ :=
  Function.update_self ..

/-! ## Memory after an installation -/

/-- The stub does not meet the word at `a`. -/
def Apart (c : Calls) (a : BitVec 32) : Prop :=
  DEFAULT_STUBSZ ≤ (a - c.f_stub).toNat ∧ (a - c.f_stub).toNat ≤ 2 ^ 32 - 4

instance (c : Calls) (a : BitVec 32) : Decidable (Apart c a) := inferInstanceAs (Decidable (_ ∧ _))

theorem installed_entry {m : Memory} :
    (installedMem c original new m).loadWord original = (branchTo (new >>> 2)).word :=
  Memory.loadWord_storeWord _

theorem installed_stub {m : Memory} (h : Apart c original) :
    (installedMem c original new m).loadWord c.f_stub = m.loadWord original := by
  obtain ⟨h1, h2⟩ := h
  rw [DEFAULT_STUBSZ] at h1
  rw [installedMem, BYTES_PER_INSTRUCTION,
    Memory.loadWord_storeWord_of_apart _ (by bv_omega) (by bv_omega),
    Memory.loadWord_storeWord_of_apart _ (by bv_omega) (by bv_omega), Memory.loadWord_storeWord]

theorem installed_back {m : Memory} (h : Apart c original) :
    (installedMem c original new m).loadWord (c.f_stub + BYTES_PER_INSTRUCTION) =
      (branchTo ((original + 4) >>> 2)).word := by
  obtain ⟨h1, h2⟩ := h
  rw [DEFAULT_STUBSZ] at h1
  rw [installedMem, BYTES_PER_INSTRUCTION,
    Memory.loadWord_storeWord_of_apart _ (by bv_omega) (by bv_omega), Memory.loadWord_storeWord]

/-- Nothing else changes. -/
theorem installed_of_apart {m : Memory} {a : BitVec 32} (h : Apart c a)
    (ha : 4 ≤ (a - original).toNat) (ha' : (a - original).toNat ≤ 2 ^ 32 - 4) :
    (installedMem c original new m).loadWord a = m.loadWord a := by
  obtain ⟨h1, h2⟩ := h
  rw [DEFAULT_STUBSZ] at h1
  rw [installedMem, BYTES_PER_INSTRUCTION, Memory.loadWord_storeWord_of_apart _ ha ha',
    Memory.loadWord_storeWord_of_apart _ (by bv_omega) (by bv_omega),
    Memory.loadWord_storeWord_of_apart _ (by bv_omega) (by bv_omega)]

end Frr
end MacOSXInternal
