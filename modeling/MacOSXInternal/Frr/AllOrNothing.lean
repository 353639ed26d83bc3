import MacOSXInternal.Frr.Reroute

/-!
# What `frr_install` leaves behind when it fails

A caller looks at the pointer that `frr_install` returns, takes null for failure, and anything else
for metadata that it may use.  The function has exits at which this is right (`Declines`, and the
end), but the exit at `ERROR` frees the metadata and returns its address.

* `frr_install_declines` and `frr_install_failed` say what is left behind at the exits before the
  end.
* `all_or_nothing_iff` is the exact condition under which the caller is not deceived.
-/

set_option autoImplicit false

namespace MacOSXInternal
namespace Frr

open PowerPC

/-! ## What the caller relies on -/

/-- What `malloc` promises: blocks that are not in use, do not meet each other, and do not meet the
function's first word. -/
structure Malloc (c : Calls) (original : BitVec 32) (p : Process) : Prop where
  FRR : c.FRR ≠ 0 → c.FRR ∉ p.live
  f_stub : c.f_stub ≠ 0 → c.f_stub ∉ p.live ∧ c.f_stub ≠ c.FRR ∧ Apart c original

/-- The rerouting is in place: `original` begins with a branch to `new`, the stub has the word that
was there and a branch to the one behind it, and the metadata say so. -/
structure InPlace (p p' : Process) (original new FRR : BitVec 32) : Prop where
  entry : branchTarget original (p'.mem.loadWord original) = some (trim new)
  saved : p'.mem.loadWord (p'.frr FRR).f_stub = p.mem.loadWord original
  back : branchTarget ((p'.frr FRR).f_stub + 4) (p'.mem.loadWord ((p'.frr FRR).f_stub + 4)) =
    some (trim (original + 4))
  f_orig : (p'.frr FRR).f_orig = original
  f_new : (p'.frr FRR).f_new = new
  f_bytes : (p'.frr FRR).f_bytes = p.mem.loadWord original

/-- The function returns metadata that can be used, in memory that is its own, or null, without a
trace. -/
def AllOrNothing (c : Calls) (original new : BitVec 32) (p : Process) : Prop :=
  ∃ FRR p', frr_install c original new p = some (FRR, p') ∧
    if FRR = 0#32 then p'.mem.loadWord original = p.mem.loadWord original ∧ p'.live = p.live
    else InPlace p p' original new FRR ∧ FRR ∈ p'.live ∧ (p'.frr FRR).f_stub ∈ p'.live

/-- The exits at which nothing, or only the metadata, has been allocated. -/
def Declines (c : Calls) (new : BitVec 32) : Prop :=
  new >>> 25 ≠ 0#32 ∨ c.FRR = 0#32 ∨ c.f_stub = 0#32

variable {c : Calls} {original new : BitVec 32} {p : Process}

/-! ## The exits -/

/-- `ERROR`, with both blocks allocated. -/
theorem error_eq {q : Process} {FRR stub : BitVec 32} {l : List (BitVec 32)} (hFRR : FRR ≠ 0#32)
    (hstub : stub ≠ 0#32) (hf : (q.frr FRR).f_stub = stub) (hl : q.live = stub :: FRR :: l) :
    error FRR q = some (FRR, { q with live := l }) := by
  simp [error, Process.free, hFRR, hstub, hf, hl]

/-- The exits that return null. -/
theorem frr_install_declines (h : Declines c new) :
    ∃ p', frr_install c original new p = some (0, p') ∧ p'.mem = p.mem ∧ p'.live = p.live := by
  by_cases hnew : new >>> 25 = 0#32
  · by_cases hFRR : c.FRR = 0#32
    · exact ⟨p, by simp [frr_install, Process.malloc, hnew, hFRR], rfl, rfl⟩
    · have hstub : c.f_stub = 0#32 := by
        rcases h with h | h | h
        · exact absurd hnew h
        · exact absurd h hFRR
        · exact h
      refine ⟨{ p with frr := Function.update p.frr c.FRR ⟨original, new, 0,
        (p.frr c.FRR).f_bytes⟩ }, ?_, rfl, rfl⟩
      simp [frr_install, Process.malloc, Process.assign, Process.free, hnew, hFRR, hstub]
  · exact ⟨p, by simp [frr_install, error, hnew], rfl, rfl⟩

/-- The exits through `ERROR` with both blocks allocated: they are freed, and the pointer to one of
them is returned. -/
theorem frr_install_failed (h : ¬ Declines c new) (hpass : ¬ Pass c original new) :
    ∃ p', frr_install c original new p = some (c.FRR, p') ∧ p'.live = p.live := by
  simp only [Declines, not_or, not_not] at h
  obtain ⟨hnew, hFRR, hstub⟩ := h
  -- whatever has been done to memory and to the other fields
  have herror (mem : Memory) (bytes : BitVec 32) :
      error c.FRR ⟨mem, Function.update p.frr c.FRR ⟨original, new, c.f_stub, bytes⟩,
          c.f_stub :: c.FRR :: p.live⟩ =
        some (c.FRR, ⟨mem, Function.update p.frr c.FRR ⟨original, new, c.f_stub, bytes⟩, p.live⟩) :=
    error_eq hFRR hstub (by simp) rfl
  by_cases horig : c.mprotect_orig = 0
  · by_cases hmstub : c.mprotect_stub = 0
    · by_cases hback : (original + 4#32) >>> 2 >>> 25 = 0#32
      · have hres : c.reserved = false := by
          by_contra hres
          exact hpass ⟨hFRR, hstub, horig, hmstub, by simpa using hres, hnew, hback⟩
        simp [frr_install, hw_compare_and_store, Process.malloc, Process.assign, hnew, hFRR, hstub,
          horig, hmstub, hback, near_ushiftRight hnew, hres, herror]
      · have hback' : ¬ (original + 4#32) >>> 27 = 0#32 := by simpa using hback
        simp [frr_install, Process.malloc, Process.assign, hnew, hFRR, hstub, horig, hmstub, hback',
          herror]
    · simp [frr_install, Process.malloc, Process.assign, hnew, hFRR, hstub, horig, hmstub, herror]
  · simp [frr_install, Process.malloc, Process.assign, hnew, hFRR, hstub, horig, herror]

/-- The end: the rerouting is in place as far as the branch back from the stub reaches. -/
theorem inPlace_installed_iff (hpass : Pass c original new) (hapart : Apart c original) :
    InPlace p (installed c original new p) original new c.FRR ↔
      (original + 4).toNat < 2 ^ 25 := by
  have hback : branchTarget (c.f_stub + 4) ((installed c original new p).mem.loadWord
      (c.f_stub + 4)) = some (trim (original + 4)) ↔ (original + 4).toNat < 2 ^ 25 := by
    have hword : (installed c original new p).mem.loadWord (c.f_stub + 4) = _ :=
      installed_back hapart
    have hfar : (original + 4).toNat < 2 ^ 27 := toNat_lt_of_near hpass.original_near
    rw [hword, word_branchTo, branchTarget_trim_iff]
    omega
  constructor
  · intro h
    have := h.back
    rw [installed_self] at this
    exact hback.mp this
  · intro h
    refine ⟨?_, ?_, ?_, ?_, ?_, ?_⟩
    · have hword : (installed c original new p).mem.loadWord original = _ := installed_entry
      rw [hword, word_branchTo, branchTarget_trim_iff]
      exact .inl (near_toNat hpass.new_near)
    · rw [installed_self]
      exact installed_stub hapart
    · rw [installed_self]
      exact hback.mpr h
    all_goals rw [installed_self]

/-! ## The result -/

/-- **The caller is not deceived** exactly if the function declines, or everything passes and the
branch back from the stub reaches. -/
theorem all_or_nothing_iff (c : Calls) (original new : BitVec 32) (p : Process)
    (hmalloc : Malloc c original p) :
    AllOrNothing c original new p ↔
      Declines c new ∨ (Pass c original new ∧ (original + 4).toNat < 2 ^ 25) := by
  by_cases hdec : Declines c new
  · obtain ⟨p', hp', hmem, hlive⟩ : ∃ p', frr_install c original new p = some (0, p') ∧
        p'.mem = p.mem ∧ p'.live = p.live := frr_install_declines hdec
    refine iff_of_true ⟨0, p', hp', ?_⟩ (.inl hdec)
    have hword : p'.mem.loadWord original = p.mem.loadWord original := by rw [hmem]
    exact ⟨hword, hlive⟩
  · have hblocks := hdec
    simp only [Declines, not_or, not_not] at hblocks
    obtain ⟨-, hFRR, hstub⟩ := hblocks
    rw [or_iff_right hdec]
    by_cases hpass : Pass c original new
    · have hinst := inPlace_installed_iff (p := p) hpass (hmalloc.f_stub hstub).2.2
      constructor
      · rintro ⟨FRR, p', hp', h⟩
        obtain ⟨rfl, rfl⟩ := Prod.mk.inj (Option.some.inj ((frr_install_eq hpass).symm.trans hp'))
        rw [if_neg hFRR] at h
        exact ⟨hpass, hinst.mp h.1⟩
      · rintro ⟨-, h⟩
        refine ⟨_, _, frr_install_eq hpass, ?_⟩
        rw [if_neg hFRR, installed_self]
        exact ⟨hinst.mpr h, by simp [installed], by simp [installed]⟩
    · obtain ⟨p', hp', hlive⟩ := frr_install_failed (p := p) hdec hpass
      refine iff_of_false ?_ fun h ↦ hpass h.1
      rintro ⟨FRR, q, hq, h⟩
      obtain ⟨rfl, rfl⟩ := Prod.mk.inj (Option.some.inj (hp'.symm.trans hq))
      rw [if_neg hFRR, hlive] at h
      exact hmalloc.FRR hFRR h.2.1

theorem demo_malloc : Malloc demoCalls 0x2000 demoProcess where
  FRR _ := List.not_mem_nil
  f_stub _ := ⟨List.not_mem_nil, by decide, by decide⟩

/-- An installation that succeeds. -/
theorem all_or_nothing_demo : AllOrNothing demoCalls 0x2000 0x3000 demoProcess :=
  (all_or_nothing_iff demoCalls 0x2000 0x3000 demoProcess demo_malloc).mpr
    (.inr ⟨demo_pass _ _ (by decide) (by decide), by decide⟩)

/-- `mprotect` refuses to make the function writable, and what `frr_install` returns is a pointer to
metadata that are no longer there. -/
theorem not_all_or_nothing_mprotect :
    ¬ AllOrNothing { demoCalls with mprotect_orig := -1 } 0x2000 0x3000 demoProcess := by
  rintro ⟨FRR, p', hp', h⟩
  have hdec : ¬ Declines { demoCalls with mprotect_orig := -1 } 0x3000 := by
    simp only [Declines]
    decide
  have hpass : ¬ Pass { demoCalls with mprotect_orig := -1 } 0x2000 0x3000 :=
    fun hpass ↦ absurd hpass.mprotect_orig (by decide)
  obtain ⟨q, hq, hlive⟩ := frr_install_failed (p := demoProcess) hdec hpass
  obtain ⟨rfl, rfl⟩ := Prod.mk.inj (Option.some.inj (hq.symm.trans hp'))
  rw [if_neg (by decide)] at h
  have hmem : (0x500000 : BitVec 32) ∈ q.live := h.2.1
  rw [hlive] at hmem
  exact List.not_mem_nil hmem

end Frr
end MacOSXInternal
