import MacOSXInternal.Frr.Install

/-!
# Where a rerouting leads

`frr_install` checks both of its branch targets against a limit of 25 bits.  The target of the
branch to the new function is checked as it is.  The target of the branch back from the stub,
`original + 4`, is checked after it has been shifted right by two, so addresses of up to 27 bits
pass, and the 24-bit field of the branch does not hold them.

* `Transfers` is what a rerouting is for: the two branches go where they should, and the stub does
  what the function did.
* `transfers_iff` is the exact range where the code achieves that.
* `not_transfers_of_far` is an installation just above it, which succeeds, and whose stub leads to
  the other end of the address space.
-/

set_option autoImplicit false

namespace MacOSXInternal
namespace Frr

open PowerPC

/-- From memory `m` to `m'`, calls of `original` have been rerouted to `new`, and what was
`original` can be called at `stub`. -/
structure Transfers (m m' : Memory) (original new stub : BitVec 32) : Prop where
  entry : branchTarget original (m'.loadWord original) = some new
  saved : m'.loadWord stub = m.loadWord original
  back : branchTarget (stub + 4) (m'.loadWord (stub + 4)) = some (original + 4)
  /-- In every machine of the architecture, in every state in which the stub is as it was made: what
  executing the first instruction of the unpatched function at `original` leads to, executing the
  stub leads to, if that instruction is not relative and does not itself overwrite the stub. -/
  runs : ∀ {σ : Type} (M : Isa σ) (s t : σ), M.NotRelative (m.loadWord original) →
    (M.mem s).loadWord stub = m'.loadWord stub →
    M.exec (m.loadWord original) (M.goto original s) = some t →
    (M.mem t).loadWord (stub + 4) = m'.loadWord (stub + 4) →
    M.Reaches (M.goto stub s) t

/-- The stub runs if its two words are right. -/
theorem Transfers.of_words {m m' : Memory} {original new stub : BitVec 32}
    (hentry : branchTarget original (m'.loadWord original) = some new)
    (hsaved : m'.loadWord stub = m.loadWord original)
    (hback : branchTarget (stub + 4) (m'.loadWord (stub + 4)) = some (original + 4)) :
    Transfers m m' original new stub where
  entry := hentry
  saved := hsaved
  back := hback
  runs M s t hrel hs ht ht' :=
    M.stub_reaches hrel ht (hs.trans hsaved) (by rw [ht', hback])

variable {c : Calls} {original new : BitVec 32} {m : Memory}

/-- The branch to the new function is always right. -/
theorem branchTarget_entry (h : Pass c original new) (hnew : Aligned new) :
    branchTarget original ((installedMem c original new m).loadWord original) = some new := by
  rw [installed_entry, word_branchTo, branchTarget_absolute_iff hnew]
  exact .inl (near_toNat h.new_near)

/-- The branch back from the stub is right below `2 ^ 25`. -/
theorem branchTarget_back_iff (h : Pass c original new) (horig : Aligned original)
    (hapart : Apart c original) :
    branchTarget (c.f_stub + 4) ((installedMem c original new m).loadWord (c.f_stub + 4)) =
      some (original + 4) ↔ (original + 4).toNat < 2 ^ 25 := by
  have hfar : (original + 4).toNat < 2 ^ 27 := toNat_lt_of_near h.original_near
  have hback : (installedMem c original new m).loadWord (c.f_stub + 4) = _ := installed_back hapart
  rw [hback, word_branchTo, branchTarget_absolute_iff ((aligned_add (by decide)).mpr horig)]
  omega

/-- **An installation that succeeds reroutes as it should exactly if `original + 4` is below
`2 ^ 25`.** -/
theorem transfers_iff (c : Calls) (original new : BitVec 32) (p : Process)
    (hpass : Pass c original new) (horig : Aligned original) (hnew : Aligned new)
    (hapart : Apart c original) :
    ∃ p', frr_install c original new p = some (c.FRR, p') ∧ (p'.frr c.FRR).f_stub = c.f_stub ∧
      (Transfers p.mem p'.mem original new c.f_stub ↔ (original + 4).toNat < 2 ^ 25) := by
  refine ⟨installed c original new p, frr_install_eq hpass, by rw [installed_self], ?_⟩
  have hback : branchTarget (c.f_stub + 4) ((installed c original new p).mem.loadWord
      (c.f_stub + 4)) = some (original + 4) ↔ _ := branchTarget_back_iff hpass horig hapart
  rw [← hback]
  exact ⟨Transfers.back, .of_words (branchTarget_entry hpass hnew) (installed_stub hapart)⟩

/-- Everything passes, and the heap is at `0x500000`. -/
def demoCalls : Calls where
  FRR := 0x500000
  f_stub := 0x500010
  mprotect_orig := 0
  mprotect_stub := 0
  reserved := true

theorem demo_pass (original new : BitVec 32) (hnew : new >>> 25 = 0#32)
    (horig : (original + 4#32) >>> 2 >>> 25 = 0#32) : Pass demoCalls original new :=
  ⟨by decide, by decide, rfl, rfl, rfl, hnew, horig⟩

/-- A process whose function at `0x2000` begins with `mflr r0`. -/
def demoProcess : Process where
  mem := Memory.storeWord (fun _ ↦ 0) 0x2000 0x7c0802a6
  frr _ := ⟨0, 0, 0, 0⟩
  live := []

/-- It is rerouted as it should be, and its stub has the link register in `GPR0` when it is back. -/
theorem transfers_iff_demo : ∃ p', frr_install demoCalls 0x2000 0x3000 demoProcess =
      some (0x500000, p') ∧ Transfers demoProcess.mem p'.mem 0x2000 0x3000 0x500010 ∧
    ∀ s : State, s.mem = p'.mem →
      State.isa.Reaches (s.goto 0x500010) ((s.set 0 s.lr).goto 0x2004) := by
  obtain ⟨p', hp', -, h⟩ := transfers_iff demoCalls 0x2000 0x3000 demoProcess
    (demo_pass _ _ (by decide) (by decide)) (by decide) (by decide) (by decide)
  have ht := h.mpr (by decide)
  have hw : demoProcess.mem.loadWord 0x2000 = 0x7c0802a6 := Memory.loadWord_storeWord _
  refine ⟨p', hp', ht, fun s hs ↦ ht.runs State.isa s _ ?_ ?_ ?_ ?_⟩
  · rw [hw]
    exact State.isa_notRelative (i := .mflr 0) (by decide) rfl
  · exact congrArg (Memory.loadWord · 0x500010) hs
  · rw [hw]
    rfl
  · exact congrArg (Memory.loadWord · (0x500010 + 4)) hs

/-- The function at `0x1fffffc` is rerouted with success, and the branch in the stub goes to
`0xfe000000`, not to `0x2000000`. -/
theorem not_transfers_of_far : ∃ p', frr_install demoCalls 0x1fffffc 0x3000 demoProcess =
      some (0x500000, p') ∧
    branchTarget 0x500014 (p'.mem.loadWord 0x500014) = some 0xfe000000 ∧
    ¬Transfers demoProcess.mem p'.mem 0x1fffffc 0x3000 0x500010 := by
  have hpass : Pass demoCalls 0x1fffffc 0x3000 := demo_pass _ _ (by decide) (by decide)
  have hback : branchTarget 0x500014 ((installedMem demoCalls 0x1fffffc 0x3000
      demoProcess.mem).loadWord 0x500014) = some 0xfe000000 := by
    have h : (installedMem demoCalls 0x1fffffc 0x3000 demoProcess.mem).loadWord
        (demoCalls.f_stub + BYTES_PER_INSTRUCTION) = _ := installed_back (by decide)
    rw [show (0x500014 : BitVec 32) = demoCalls.f_stub + BYTES_PER_INSTRUCTION by decide, h,
      word_branchTo, branchTarget_absolute]
    decide
  refine ⟨_, frr_install_eq hpass, hback, fun h ↦ absurd h.back ?_⟩
  rw [show (0x500010 : BitVec 32) + 4 = 0x500014 by decide]
  rw [installed, hback]
  decide

end Frr
end MacOSXInternal
