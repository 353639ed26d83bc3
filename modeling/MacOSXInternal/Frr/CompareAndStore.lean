import MacOSXInternal.Lib.PowerPC.Reservation
import MacOSXInternal.Frr.Install

/-!
# `hw_cs.s`: compare and store

The routine that `frr.c` patches instructions with.  It loads the word with a reservation, compares
it, and tries to store; where the reservation has been lost in between it starts again.  Where the
word is a different one it stores to a word nobody needs, to get rid of the reservation.

* `hw_cs` is the routine.
* `Point` is what is known at each of its instructions, of the registers, the reservation and the
  run so far.  While the reservation is held, the word at `address` is the one that was loaded.
* `hw_cs_atomic` is the result: between call and return there is an instant at which the routine
  does what it is said to do, or at which there is nothing to do.
-/

set_option autoImplicit false

namespace MacOSXInternal
namespace Frr

open PowerPC Reservation Runs

/-! ## The routine -/

/-- `_hw_compare_and_store`: `old` in `r3`, `new` in `r4`, `address` in `r5`, `dummyaddress` in
`r6`. -/
def hw_cs : List Reservation.Instr :=
  [.mr 7 3,
   -- looptry
   .lwarx 9 0 5,
   .li 3 1,
   .cmplw 9 7,
   .bne 9,
   .stwcx 4 0 5,
   .bne 1,
   .isync,
   .blr,
   -- fail
   .mr 3 6,
   .stwcx 3 0 3,
   .li 3 0,
   .blr]

/-- A call. -/
structure Entry (old new address dummyaddress : BitVec 32) (s : Processor) : Prop where
  pc : s.pc = some 0
  old : s.gpr 3#5 = old
  new : s.gpr 4#5 = new
  address : s.gpr 5#5 = address
  dummyaddress : s.gpr 6#5 = dummyaddress

/-- The step in which the word at `address` is `old` and becomes `new`. -/
structure Swap (old new address : BitVec 32) (s : Processor) (a : Label) (t : Processor) :
    Prop where
  label : a = .store address new
  before : s.mem.loadWord address = old
  after : t.mem = s.mem.storeWord address new

/-- The routine is running, and the word at `address` is `x`. -/
def Holds (address x : BitVec 32) (s : Processor) : Prop :=
  s.pc ≠ none ∧ s.mem.loadWord address = x

/-- The routine is running, and the word at `address` is not `old`. -/
def Differs (old address : BitVec 32) (s : Processor) : Prop :=
  s.pc ≠ none ∧ s.mem.loadWord address ≠ old

/-! ## The invariant -/

section
variable (s₀ : Processor) (old new address dummyaddress : BitVec 32)

/-- The arguments that stay where they are. -/
structure Args (gpr : Reg → BitVec 32) : Prop where
  new : gpr 4#5 = new
  address : gpr 5#5 = address
  dummyaddress : gpr 6#5 = dummyaddress

/-- A reservation, if it is still held, is on `address`, and the word there is `x`. -/
def Reserved (x : BitVec 32) (s : Processor) : Prop :=
  ∀ a, s.reservation = some a → a = address ∧ s.mem.loadWord address = x

/-- What is known at each instruction. -/
inductive Point (l : List Label) (s : Processor) : Prop
  | entry (hpc : s.pc = some 0) (h3 : s.gpr 3#5 = old) (hst : stores l = [])
  | looptry (hpc : s.pc = some 1) (h7 : s.gpr 7#5 = old) (hst : stores l = [])
  | loaded (hpc : s.pc = some 2) (h7 : s.gpr 7#5 = old) (hal : Aligned address)
      (hin : Passes (Step hw_cs) (Holds address (s.gpr 9#5)) s₀ l s)
      (hres : Reserved address (s.gpr 9#5) s) (hst : stores l = [])
  | hoping (hpc : s.pc = some 3) (h3 : s.gpr 3#5 = 1) (h7 : s.gpr 7#5 = old) (hal : Aligned address)
      (hin : Passes (Step hw_cs) (Holds address (s.gpr 9#5)) s₀ l s)
      (hres : Reserved address (s.gpr 9#5) s) (hst : stores l = [])
  | compared (hpc : s.pc = some 4) (h3 : s.gpr 3#5 = 1) (h7 : s.gpr 7#5 = old)
      (hal : Aligned address) (hin : Passes (Step hw_cs) (Holds address (s.gpr 9#5)) s₀ l s)
      (hres : Reserved address (s.gpr 9#5) s) (heq : s.eq = decide (s.gpr 9#5 = old))
      (hst : stores l = [])
  | matching (hpc : s.pc = some 5) (h3 : s.gpr 3#5 = 1) (h7 : s.gpr 7#5 = old)
      (hal : Aligned address) (hres : Reserved address old s) (hst : stores l = [])
  | tried (hpc : s.pc = some 6) (h3 : s.gpr 3#5 = 1) (h7 : s.gpr 7#5 = old)
      (hres : s.reservation = none)
      (hdone : s.eq = true → Takes (Step hw_cs) (Swap old new address) s₀ l s ∧
        stores l = [(address, new)])
      (hst : s.eq = false → stores l = [])
  | swapped (hpc : s.pc = some 7 ∨ s.pc = some 8 ∨ s.pc = none) (h3 : s.gpr 3#5 = 1)
      (hres : s.reservation = none) (hdone : Takes (Step hw_cs) (Swap old new address) s₀ l s)
      (hst : stores l = [(address, new)])
  | fail (hpc : s.pc = some 9) (hin : Passes (Step hw_cs) (Differs old address) s₀ l s)
      (hst : stores l = [])
  | dummy (hpc : s.pc = some 10) (h3 : s.gpr 3#5 = dummyaddress)
      (hin : Passes (Step hw_cs) (Differs old address) s₀ l s) (hst : stores l = [])
  | cancelled (hpc : s.pc = some 11) (hres : s.reservation = none)
      (hin : Passes (Step hw_cs) (Differs old address) s₀ l s)
      (hst : ∀ w ∈ stores l, w.1 = dummyaddress)
  | failed (hpc : s.pc = some 12 ∨ s.pc = none) (h3 : s.gpr 3#5 = 0) (hres : s.reservation = none)
      (hin : Passes (Step hw_cs) (Differs old address) s₀ l s)
      (hst : ∀ w ∈ stores l, w.1 = dummyaddress)

end

variable {s₀ s t : Processor} {old new address dummyaddress x : BitVec 32} {l : List Label}
  {a : Label}

/-! ## The steps of others -/

theorem Reserved.foreign (h : Reserved address x s) (hal : Aligned address) (hf : Foreign s t) :
    Reserved address x t := by
  intro b hb
  obtain ⟨rfl, hx⟩ := h b (hf.reservation b hb)
  exact ⟨rfl, (hf.word b hal hb).trans hx⟩

theorem none_of_foreign (h : s.reservation = none) (hf : Foreign s t) : t.reservation = none := by
  cases ht : t.reservation with
  | none => rfl
  | some b => exact absurd (h.symm.trans (hf.reservation b ht)) nofun

/-- What is known at an instruction stays known when others take a step. -/
theorem Point.foreign (h : Point s₀ old new address dummyaddress l s) (hf : Foreign s t)
    (hstores : stores (l ++ [a]) = stores l) (hstep : Step hw_cs s a t) :
    Point s₀ old new address dummyaddress (l ++ [a]) t := by
  have hpc' := hf.pc
  have hgpr := hf.gpr
  have heq' := hf.eq
  cases h with
  | entry hpc h3 hst =>
    exact .entry (hpc' ▸ hpc) (hgpr ▸ h3) (hstores ▸ hst)
  | looptry hpc h7 hst =>
    exact .looptry (hpc' ▸ hpc) (hgpr ▸ h7) (hstores ▸ hst)
  | loaded hpc h7 hal hin hres hst =>
    exact .loaded (hpc' ▸ hpc) (hgpr ▸ h7) hal (hgpr ▸ hin.snoc hstep)
      (hgpr ▸ hres.foreign hal hf) (hstores ▸ hst)
  | hoping hpc h3 h7 hal hin hres hst =>
    exact .hoping (hpc' ▸ hpc) (hgpr ▸ h3) (hgpr ▸ h7) hal (hgpr ▸ hin.snoc hstep)
      (hgpr ▸ hres.foreign hal hf) (hstores ▸ hst)
  | compared hpc h3 h7 hal hin hres heq hst =>
    exact .compared (hpc' ▸ hpc) (hgpr ▸ h3) (hgpr ▸ h7) hal (hgpr ▸ hin.snoc hstep)
      (hgpr ▸ hres.foreign hal hf) (by rw [heq', hgpr]; exact heq) (hstores ▸ hst)
  | matching hpc h3 h7 hal hres hst =>
    exact .matching (hpc' ▸ hpc) (hgpr ▸ h3) (hgpr ▸ h7) hal (hres.foreign hal hf) (hstores ▸ hst)
  | tried hpc h3 h7 hres hdone hst =>
    refine .tried (hpc' ▸ hpc) (hgpr ▸ h3) (hgpr ▸ h7) (none_of_foreign hres hf) (fun h ↦ ?_)
      (fun h ↦ ?_)
    · obtain ⟨hswap, hst'⟩ := hdone (heq' ▸ h)
      exact ⟨hswap.snoc hstep, hstores ▸ hst'⟩
    · exact hstores ▸ hst (heq' ▸ h)
  | swapped hpc h3 hres hdone hst =>
    exact .swapped (hpc' ▸ hpc) (hgpr ▸ h3) (none_of_foreign hres hf) (hdone.snoc hstep)
      (hstores ▸ hst)
  | fail hpc hin hst =>
    exact .fail (hpc' ▸ hpc) (hin.snoc hstep) (hstores ▸ hst)
  | dummy hpc h3 hin hst =>
    exact .dummy (hpc' ▸ hpc) (hgpr ▸ h3) (hin.snoc hstep) (hstores ▸ hst)
  | cancelled hpc hres hin hst =>
    exact .cancelled (hpc' ▸ hpc) (none_of_foreign hres hf) (hin.snoc hstep) (hstores ▸ hst)
  | failed hpc h3 hres hin hst =>
    exact .failed (hpc' ▸ hpc) (hgpr ▸ h3) (none_of_foreign hres hf) (hin.snoc hstep)
      (hstores ▸ hst)

/-! ## The routine's own steps -/

/-- Registers other than those of the arguments. -/
theorem Args.update {gpr : Reg → BitVec 32} (h : Args new address dummyaddress gpr) {r : Reg}
    (h4 : r ≠ 4#5) (h5 : r ≠ 5#5) (h6 : r ≠ 6#5) (x : BitVec 32) :
    Args new address dummyaddress (Function.update gpr r x) := by
  refine ⟨?_, ?_, ?_⟩
  · rw [Function.update_of_ne h4.symm]
    exact h.new
  · rw [Function.update_of_ne h5.symm]
    exact h.address
  · rw [Function.update_of_ne h6.symm]
    exact h.dummyaddress

/-- What is known at an instruction when it is executed is known at the next. -/
theorem Point.own (h : Point s₀ old new address dummyaddress l s)
    (hargs : Args new address dummyaddress s.gpr) (hrun : Run (Step hw_cs) s₀ l s)
    (hstep : Step hw_cs s a t) (hown : Own hw_cs s a t) :
    Args new address dummyaddress t.gpr ∧ Point s₀ old new address dummyaddress (l ++ [a]) t := by
  cases h with
  | entry hpc h3 hst =>
    obtain ⟨rfl, rfl⟩ := hown.eq hpc rfl fun _ ↦ rfl
    exact ⟨hargs.update (by decide) (by decide) (by decide) _,
      .looptry (by simp [hpc]) (by simpa using h3) (by simpa using hst)⟩
  | looptry hpc h7 hst =>
    have hea : s.ea 0 5 = address := by simp [Processor.ea, hargs.address]
    have hlwarx := hown.lwarx hpc rfl
    rw [hea] at hlwarx
    obtain ⟨hal, rfl, rfl⟩ := hlwarx
    refine ⟨hargs.update (by decide) (by decide) (by decide) _,
      .loaded (by simp [hpc]) (by simpa using h7) hal ?_ ?_ (by simpa using hst)⟩
    · exact .of_last hrun hstep ⟨by simp [hpc], by simp⟩
    · intro c hc
      obtain rfl : address = c := Option.some.inj hc
      exact ⟨rfl, by simp⟩
  | loaded hpc h7 hal hin hres hst =>
    obtain ⟨rfl, rfl⟩ := hown.eq hpc rfl fun _ ↦ rfl
    exact ⟨hargs.update (by decide) (by decide) (by decide) _,
      .hoping (by simp [hpc]) (by simp) (by simpa using h7) hal (hin.snoc hstep) hres
        (by simpa using hst)⟩
  | hoping hpc h3 h7 hal hin hres hst =>
    obtain ⟨rfl, rfl⟩ := hown.eq hpc rfl fun _ ↦ rfl
    exact ⟨hargs,
      .compared (by simp [hpc]) h3 h7 hal (hin.snoc hstep) hres (by simp [h7])
        (by simpa using hst)⟩
  | compared hpc h3 h7 hal hin hres heq hst =>
    obtain ⟨rfl, rfl⟩ := hown.eq hpc rfl fun _ ↦ rfl
    by_cases h9 : s.gpr 9#5 = old
    · rw [if_pos (by simpa [heq] using h9)] at hstep ⊢
      exact ⟨hargs,
        .matching (by simp [hpc]) h3 h7 hal (h9 ▸ hres) (by simpa using hst)⟩
    · rw [if_neg (by simpa [heq] using h9)] at hstep ⊢
      refine ⟨hargs,
        .fail (by simp) ((hin.mono fun u hu ↦ ⟨hu.1, ?_⟩).snoc hstep) (by simpa using hst)⟩
      rw [hu.2]
      exact h9
  | matching hpc h3 h7 hal hres hst =>
    have hea : s.ea 0 5 = address := by simp [Processor.ea, hargs.address]
    have hrs : s.gpr 4 = new := hargs.new
    have hstwcx := hown.stwcx hpc rfl
    rw [hea, hrs] at hstwcx
    rcases hstwcx with ⟨-, ⟨hheld, rfl, rfl⟩ | ⟨rfl, rfl⟩⟩
    · obtain ⟨c, hc⟩ := Option.isSome_iff_exists.mp hheld
      refine ⟨hargs,
        .tried (by simp [hpc]) h3 h7 rfl (fun _ ↦ ⟨?_, by simp [hst]⟩) nofun⟩
      exact .of_last hrun hstep ⟨rfl, (hres c hc).2, rfl⟩
    · exact ⟨hargs,
        .tried (by simp [hpc]) h3 h7 rfl nofun fun _ ↦ by simpa using hst⟩
  | tried hpc h3 h7 hres hdone hst =>
    obtain ⟨rfl, rfl⟩ := hown.eq hpc rfl fun _ ↦ rfl
    cases heq : s.eq with
    | true =>
      obtain ⟨hswap, hst'⟩ := hdone heq
      rw [heq] at hstep
      exact ⟨hargs,
        .swapped (.inl (by simp [hpc])) h3 hres (hswap.snoc hstep) (by simpa using hst')⟩
    | false =>
      exact ⟨hargs,
        .looptry (by simp) h7 (by simpa using hst heq)⟩
  | swapped hpc h3 hres hdone hst =>
    rcases hpc with hpc | hpc | hpc
    · obtain ⟨rfl, rfl⟩ := hown.eq hpc rfl fun _ ↦ rfl
      exact ⟨hargs,
        .swapped (.inr (.inl (by simp [hpc]))) h3 hres (hdone.snoc hstep) (by simpa using hst)⟩
    · obtain ⟨rfl, rfl⟩ := hown.eq hpc rfl fun _ ↦ rfl
      exact ⟨hargs,
        .swapped (.inr (.inr rfl)) h3 hres (hdone.snoc hstep) (by simpa using hst)⟩
    · exact absurd hpc hown.running
  | fail hpc hin hst =>
    obtain ⟨rfl, rfl⟩ := hown.eq hpc rfl fun _ ↦ rfl
    exact ⟨hargs.update (by decide) (by decide) (by decide) _,
      .dummy (by simp [hpc]) (by simpa using hargs.dummyaddress) (hin.snoc hstep)
        (by simpa using hst)⟩
  | dummy hpc h3 hin hst =>
    have hea : s.ea 0 3 = dummyaddress := by simp [Processor.ea, h3]
    have hrs : s.gpr 3 = dummyaddress := h3
    have hstwcx := hown.stwcx hpc rfl
    rw [hea, hrs] at hstwcx
    rcases hstwcx with ⟨-, ⟨-, rfl, rfl⟩ | ⟨rfl, rfl⟩⟩
    · refine ⟨hargs, .cancelled (by simp [hpc]) rfl (hin.snoc hstep) fun w hw ↦ ?_⟩
      rw [stores_store, hst, List.nil_append, List.mem_singleton] at hw
      rw [hw]
    · exact ⟨hargs, .cancelled (by simp [hpc]) rfl (hin.snoc hstep) (by simp [hst])⟩
  | cancelled hpc hres hin hst =>
    obtain ⟨rfl, rfl⟩ := hown.eq hpc rfl fun _ ↦ rfl
    exact ⟨hargs.update (by decide) (by decide) (by decide) _,
      .failed (.inl (by simp [hpc])) (by simp) hres (hin.snoc hstep) (by simpa using hst)⟩
  | failed hpc h3 hres hin hst =>
    rcases hpc with hpc | hpc
    · obtain ⟨rfl, rfl⟩ := hown.eq hpc rfl fun _ ↦ rfl
      exact ⟨hargs,
        .failed (.inr rfl) h3 hres (hin.snoc hstep) (by simpa using hst)⟩
    · exact absurd hpc hown.running

/-! ## The result -/

/-- What is known in every run. -/
theorem point_of_run (hentry : Entry old new address dummyaddress s₀)
    (hrun : Run (Step hw_cs) s₀ l t) :
    Args new address dummyaddress t.gpr ∧ Point s₀ old new address dummyaddress l t := by
  refine hrun.history (I := fun l s ↦ Args new address dummyaddress s.gpr ∧
    Point s₀ old new address dummyaddress l s) ?_ ?_
  · exact ⟨⟨hentry.new, hentry.address, hentry.dummyaddress⟩, .entry hentry.pc hentry.old rfl⟩
  · rintro l s a t hrun ⟨hargs, h⟩ hstep
    rcases hstep.cases with hown | ⟨hf, hstores⟩
    · exact h.own hargs hrun hstep hown
    · exact ⟨hf.gpr ▸ hargs, h.foreign hf (hstores l) hstep⟩

/-- **The routine is atomic.**  If it returns, the reservation is gone, and either it has returned
one, having replaced `old` by `new` in one step and written nothing else, or it has returned zero,
having been there when the word was not `old`, and has not written but to `dummyaddress`. -/
theorem hw_cs_atomic (old new address dummyaddress : BitVec 32) (s t : Processor) (l : List Label)
    (hentry : Entry old new address dummyaddress s) (hrun : Run (Step hw_cs) s l t)
    (hret : t.pc = none) :
    t.reservation = none ∧
      (t.gpr 3#5 = 1 ∧ Takes (Step hw_cs) (Swap old new address) s l t ∧
          stores l = [(address, new)] ∨
        t.gpr 3#5 = 0 ∧ Passes (Step hw_cs) (Differs old address) s l t ∧
          ∀ w ∈ stores l, w.1 = dummyaddress) := by
  obtain ⟨-, h⟩ := point_of_run hentry hrun
  cases h with
  | swapped _ h3 hres hdone hst => exact ⟨hres, .inl ⟨h3, hdone, hst⟩⟩
  | failed _ h3 hres hin hst => exact ⟨hres, .inr ⟨h3, hin, hst⟩⟩
  | entry hpc | looptry hpc | loaded hpc | hoping hpc | compared hpc | matching hpc | tried hpc
  | fail hpc | dummy hpc | cancelled hpc => exact absurd (hpc.symm.trans hret) nofun

/-- A call that finds what it expects. -/
def demoCall : Processor where
  pc := some 0
  gpr r := if r = 3 then 5 else if r = 4 then 7 else if r = 5 then 0x100 else 0x200
  eq := false
  reservation := none
  mem := Memory.storeWord (fun _ ↦ 0) 0x100 5

/-- Left to itself, it returns. -/
theorem hw_cs_atomic_demo : ∃ l t, Run (Step hw_cs) demoCall l t ∧ t.pc = none ∧
    t.reservation = none ∧
      (t.gpr 3#5 = 1 ∧ Takes (Step hw_cs) (Swap 5 7 0x100) demoCall l t ∧
          stores l = [(0x100, 7)] ∨
        t.gpr 3#5 = 0 ∧ Passes (Step hw_cs) (Differs 5 0x100) demoCall l t ∧
          ∀ w ∈ stores l, w.1 = 0x200) := by
  obtain ⟨l, t, hrun, hret⟩ : ∃ l t, Run (Step hw_cs) demoCall l t ∧ t.pc = none :=
    ⟨_, _, .cons (.own true rfl rfl rfl) <| .cons (.own true rfl rfl (execute_lwarx (by decide))) <|
      .cons (.own true rfl rfl rfl) <| .cons (.own true rfl rfl rfl) <|
      .cons (.own true rfl rfl
        (execute_bne_of_eq _ (decide_eq_true (Memory.loadWord_storeWord _)))) <|
      .cons (.own true rfl rfl (execute_stwcx (by decide) rfl)) <|
      .cons (.own true rfl rfl (execute_bne_of_eq _ rfl)) <| .cons (.own true rfl rfl rfl) <|
      .cons (.own true rfl rfl rfl) <| .nil _, rfl⟩
  exact ⟨l, t, hrun, hret, hw_cs_atomic 5 7 0x100 0x200 demoCall t l ⟨rfl, rfl, rfl, rfl, rfl⟩ hrun
    hret⟩

/-! ## Refinement -/

/-- The step is the one that `frr.c` takes the routine for. -/
theorem Swap.refines (h : Swap old new address s a t) :
    hw_compare_and_store true old new address s.mem = (1, t.mem) := by
  rw [hw_compare_and_store, if_pos ⟨rfl, h.before⟩, h.after]

/-- And so is the instant at which there is nothing to do. -/
theorem Differs.refines (h : Differs old address s) (reserved : Bool) :
    hw_compare_and_store reserved old new address s.mem = (0, s.mem) := by
  rw [hw_compare_and_store, if_neg fun hold ↦ h.2 hold.2]

end Frr
end MacOSXInternal
