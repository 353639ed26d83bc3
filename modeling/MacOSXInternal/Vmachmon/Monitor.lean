import Mathlib.Algebra.Order.Ring.Int
import MacOSXInternal.Lib.PowerPC.Stopping
import MacOSXInternal.Vmachmon.Factorial

/-!
# The monitor

`vmachmon32` lays out two pages for its guest, the text at the size of a page and the stack above
it, lets one of its demos fill in the text, and runs the guest until it comes to an illegal
instruction.  Then it prints the registers.

* `dummyText` are the words that `initGuestText_Dummy` puts together from bit fields.
* `guest` is the guest when it is switched to, and `Report` what the monitor prints of it when it is
  back.
* `monitor_reports` says how both demos end, whatever the size of a page is.
-/

set_option autoImplicit false

namespace MacOSXInternal
namespace Vmachmon

open PowerPC

/-! ## The other demo -/

/-- The first field is the most significant one. -/
structure I_addi_d_form where
  OP : BitVec 6
  RT : BitVec 5
  RA : BitVec 5
  SI : BitVec 16

structure I_branch_i_form where
  OP : BitVec 6
  LI : BitVec 24
  AA : BitVec 1
  LK : BitVec 1

structure I_add_xo_form where
  OP : BitVec 6
  RT : BitVec 5
  RA : BitVec 5
  RB : BitVec 5
  OE : BitVec 1
  XO : BitVec 9
  Rc : BitVec 1

def I_addi_d_form.word (i : I_addi_d_form) : BitVec 32 := i.OP ++ i.RT ++ i.RA ++ i.SI

def I_branch_i_form.word (i : I_branch_i_form) : BitVec 32 := i.OP ++ i.LI ++ i.AA ++ i.LK

def I_add_xo_form.word (i : I_add_xo_form) : BitVec 32 :=
  i.OP ++ i.RT ++ i.RA ++ i.RB ++ i.OE ++ i.XO ++ i.Rc

/-- The words of the text. -/
def dummyText (guestTextAddress : BitVec 32) : List (BitVec 32) :=
  [(⟨14, 10, 0, 4⟩ : I_addi_d_form).word,
    (⟨14, 11, 0, 5⟩ : I_addi_d_form).word,
    (⟨18, ((guestTextAddress + 4 * 4) >>> 2).setWidth 24, 1, 0⟩ : I_branch_i_form).word,
    0xdeadbeef,
    (⟨31, 12, 10, 11, 0, 266, 0⟩ : I_add_xo_form).word,
    0xfeedface]

def initGuestText_Dummy (_vm_page_size guestTextAddress : BitVec 32) (s : State) : State :=
  { s with mem := s.mem.storeWords guestTextAddress (dummyText guestTextAddress) }

/-! ## The monitor -/

structure Demo where
  name : String
  textfiller : BitVec 32 → BitVec 32 → State → State

def SupportedDemos : List Demo :=
  [⟨"executes a few hand-crafted instructions in a VM", initGuestText_Dummy⟩,
    ⟨"executes a recursive factorial function in a VM", initGuestText_Factorial⟩]

/-- `usage`, which exits when there is no such demo; `demo_id` is what `atoi` makes of the
argument. -/
def usage (argc : ℕ) (demo_id : ℤ) : Option Demo :=
  if argc = 2 ∧ 0 ≤ demo_id ∧ demo_id < SupportedDemos.length then SupportedDemos[demo_id.toNat]?
  else none

/-- From `<architecture/ppc/cframe.h>`. -/
def C_RED_ZONE : BitVec 32 := 224

/-- The guest when the monitor switches to it; `init` is what `kVmmInitContext` leaves in the
registers, and the memory that the guest will see. -/
def guest (vm_page_size : BitVec 32) (demo : Demo) (init : State) : State :=
  let guestTextAddress := vm_page_size
  let guestStackAddress := 2 * vm_page_size
  demo.textfiller vm_page_size guestTextAddress
    { init with
      pc := guestTextAddress
      gpr := Function.update init.gpr 1 (guestStackAddress + vm_page_size - C_RED_ZONE) }

/-- What is printed when the guest is back. -/
structure Report where
  distance : BitVec 32
  pc : BitVec 32
  instruction : BitVec 32
  lr : BitVec 32
  gpr : Reg → BitVec 32

/-- The text page is what the guest sees at `vm_page_size`. -/
def report (vm_page_size : BitVec 32) (s : State) : Report where
  distance := (s.pc - vm_page_size) >>> 2
  pc := s.pc
  instruction := s.mem.loadWord (vm_page_size + 4#32 * ((s.pc - vm_page_size) >>> 2))
  lr := s.lr
  gpr := s.gpr

/-! ## The bit fields -/

section
open BitVec

/-- **The hardware decodes what the templates hold**, here that of `addi`. -/
theorem decode_I_addi_d_form (i : I_addi_d_form) (h : i.OP = 14) :
    decodeCode i.word = some (.plain (.addi i.RT i.RA i.SI)) := by
  have hOP : opcd i.word = i.OP := by
    show (i.OP ++ i.RT ++ i.RA ++ i.SI).extractLsb' 26 6 = i.OP
    rw [extractLsb'_append_eq_of_le (by decide), extractLsb'_append_eq_of_le (by decide)]
    exact extractLsb'_append_eq_left
  have hRT : field6 i.word = i.RT := by
    show (i.OP ++ i.RT ++ i.RA ++ i.SI).extractLsb' 21 5 = i.RT
    rw [extractLsb'_append_eq_of_le (by decide), extractLsb'_append_eq_of_le (by decide)]
    exact extractLsb'_append_eq_right
  have hRA : field11 i.word = i.RA := by
    show (i.OP ++ i.RT ++ i.RA ++ i.SI).extractLsb' 16 5 = i.RA
    rw [extractLsb'_append_eq_of_le (by decide)]
    exact extractLsb'_append_eq_right
  have hSI : imm i.word = i.SI := extractLsb'_append_eq_right
  refine decodeCode_of_decode ?_
  rw [decode, hOP, h, hRT, hRA, hSI]
  rfl

theorem decode_I_branch_i_form (i : I_branch_i_form) (h : i.OP = 18) :
    decodeCode i.word = some (.plain (.b i.LI (i.AA.getLsbD 0) (i.LK.getLsbD 0))) := by
  have hOP : opcd i.word = i.OP := by
    show (i.OP ++ i.LI ++ i.AA ++ i.LK).extractLsb' 26 6 = i.OP
    rw [extractLsb'_append_eq_of_le (by decide), extractLsb'_append_eq_of_le (by decide)]
    exact extractLsb'_append_eq_left
  have hLI : fieldLI i.word = i.LI := by
    show (i.OP ++ i.LI ++ i.AA ++ i.LK).extractLsb' 2 24 = i.LI
    rw [extractLsb'_append_eq_of_le (by decide), extractLsb'_append_eq_of_le (by decide)]
    exact extractLsb'_append_eq_right
  have hAA : fieldAA i.word = i.AA.getLsbD 0 := by
    show (i.OP ++ i.LI ++ i.AA ++ i.LK).getLsbD 1 = _
    rw [getLsbD_append, if_neg (by decide), getLsbD_append, if_pos (by decide)]
  have hLK : fieldLK i.word = i.LK.getLsbD 0 := by
    show (i.OP ++ i.LI ++ i.AA ++ i.LK).getLsbD 0 = _
    rw [getLsbD_append, if_pos (by decide)]
  refine decodeCode_of_decode ?_
  rw [decode, hOP, h, hLI, hAA, hLK]
  rfl

theorem decode_I_add_xo_form (i : I_add_xo_form) (h : i.OP = 31) (hOE : i.OE = 0)
    (hXO : i.XO = 266) (hRc : i.Rc = 0) : decodeCode i.word = some (.add i.RT i.RA i.RB) := by
  have hOP : opcd i.word = i.OP := by
    show (i.OP ++ i.RT ++ i.RA ++ i.RB ++ i.OE ++ i.XO ++ i.Rc).extractLsb' 26 6 = i.OP
    rw [extractLsb'_append_eq_of_le (by decide), extractLsb'_append_eq_of_le (by decide),
      extractLsb'_append_eq_of_le (by decide), extractLsb'_append_eq_of_le (by decide),
      extractLsb'_append_eq_of_le (by decide)]
    exact extractLsb'_append_eq_left
  have hRT : field6 i.word = i.RT := by
    show (i.OP ++ i.RT ++ i.RA ++ i.RB ++ i.OE ++ i.XO ++ i.Rc).extractLsb' 21 5 = i.RT
    rw [extractLsb'_append_eq_of_le (by decide), extractLsb'_append_eq_of_le (by decide),
      extractLsb'_append_eq_of_le (by decide), extractLsb'_append_eq_of_le (by decide),
      extractLsb'_append_eq_of_le (by decide)]
    exact extractLsb'_append_eq_right
  have hRA : field11 i.word = i.RA := by
    show (i.OP ++ i.RT ++ i.RA ++ i.RB ++ i.OE ++ i.XO ++ i.Rc).extractLsb' 16 5 = i.RA
    rw [extractLsb'_append_eq_of_le (by decide), extractLsb'_append_eq_of_le (by decide),
      extractLsb'_append_eq_of_le (by decide), extractLsb'_append_eq_of_le (by decide)]
    exact extractLsb'_append_eq_right
  have hRB : field16 i.word = i.RB := by
    show (i.OP ++ i.RT ++ i.RA ++ i.RB ++ i.OE ++ i.XO ++ i.Rc).extractLsb' 11 5 = i.RB
    rw [extractLsb'_append_eq_of_le (by decide), extractLsb'_append_eq_of_le (by decide),
      extractLsb'_append_eq_of_le (by decide)]
    exact extractLsb'_append_eq_right
  have hxo : xo i.word = i.OE ++ i.XO := by
    show (i.OP ++ i.RT ++ i.RA ++ i.RB ++ i.OE ++ i.XO ++ i.Rc).extractLsb' 1 10 = _
    rw [extractLsb'_append_eq_of_le (by decide)]
    refine eq_of_getLsbD_eq fun n hn ↦ ?_
    have hright : (i.OE ++ i.XO).getLsbD n =
        if n < 9 then i.XO.getLsbD n else i.OE.getLsbD (n - 9) := getLsbD_append
    rw [getLsbD_extractLsb', decide_eq_true hn, Bool.true_and, Nat.sub_self, Nat.zero_add, hright,
      getLsbD_append, getLsbD_append, if_pos (show n - 9 < 1 by omega)]
  have hLK : fieldLK i.word = i.Rc.getLsbD 0 := by
    show (i.OP ++ i.RT ++ i.RA ++ i.RB ++ i.OE ++ i.XO ++ i.Rc).getLsbD 0 = _
    rw [getLsbD_append, if_pos (by decide)]
  have hadd : isAdd i.word := by
    rw [isAdd, hOP, hxo, hLK, h, hOE, hXO, hRc]
    rfl
  rw [decodeCode, if_pos hadd, hRT, hRA, hRB]

end

/-! ## How the guests end -/

/-- A page has room for the texts and for eleven activations of the factorial function, and a branch
reaches the text. -/
structure PageSize (vm_page_size : BitVec 32) : Prop where
  dvd : 4 ∣ vm_page_size.toNat
  room : 1280 ≤ vm_page_size.toNat
  reach : vm_page_size.toNat + 16 < 2 ^ 25

variable {P : BitVec 32}

/-- The absolute branch goes to the fifth word. -/
theorem branch_target (h : PageSize P) :
    (((P + 4 * 4) >>> 2).setWidth 24 ++ 0#2).signExtend 32 = P + 16 := by
  have hdvd := h.dvd
  have hreach := h.reach
  have hsum : (P + 4 * 4).toNat = P.toNat + 16 := by bv_omega
  have htarget : (((P + 4 * 4) >>> 2).setWidth 24 ++ 0#2).toNat = P.toNat + 16 := by
    rw [BitVec.toNat_append, BitVec.toNat_setWidth, BitVec.toNat_ushiftRight, hsum,
      Nat.shiftRight_eq_div_pow]
    simp [Nat.shiftLeft_eq]
    omega
  refine BitVec.eq_of_toNat_eq ?_
  rw [BitVec.signExtend_eq_setWidth_of_msb_false, BitVec.toNat_setWidth, htarget]
  · bv_omega
  · rw [BitVec.msb_eq_decide, htarget]
    simp
    omega

/-- The guest of the first demo. -/
theorem dummy_stops (h : PageSize P) (init : State) :
    let g := guest P ⟨"", initGuestText_Dummy⟩ init
    StopsAt g
      { g with
        pc := P + 20
        gpr := Function.update (Function.update (Function.update g.gpr 10 4) 11 5) 12 9 } := by
  intro g
  have hcode : CodeAt g.mem P (dummyText P) := codeAt_storeWords (by simp [dummyText])
  let s₁ : State := { g with pc := P + 4, gpr := Function.update g.gpr 10 4 }
  let s₂ : State := { s₁ with pc := P + 8, gpr := Function.update s₁.gpr 11 5 }
  let s₃ : State := { s₂ with pc := P + 16 }
  let s₄ : State := { s₃ with pc := P + 20, gpr := Function.update s₃.gpr 12 9 }
  have h₀ : stepCode g = some s₁ := by
    rw [hcode.stepCode (i := 0) (BitVec.add_zero P).symm rfl, decode_I_addi_d_form _ rfl]
    rfl
  have h₁ : stepCode s₁ = some s₂ := by
    have hpc : s₁.pc + 4 = P + 8 := by
      show P + 4 + 4 = P + 8
      bv_omega
    rw [CodeAt.stepCode (s := s₁) hcode (i := 1) rfl rfl, decode_I_addi_d_form _ rfl]
    show some { s₁ with pc := s₁.pc + 4, gpr := Function.update s₁.gpr 11 5 } = some s₂
    rw [hpc]
  have h₂ : stepCode s₂ = some s₃ := by
    rw [CodeAt.stepCode (s := s₂) hcode (i := 2) rfl rfl, decode_I_branch_i_form _ rfl]
    show exec (.b (((P + 4 * 4) >>> 2).setWidth 24) ((1#1).getLsbD 0) ((0#1).getLsbD 0)) s₂ = _
    rw [show (1#1).getLsbD 0 = true from by decide, show (0#1).getLsbD 0 = false from by decide,
      exec, if_pos rfl, branch_target h]
    show some { s₂ with pc := 0#32 + (P + 16) } = some s₃
    rw [BitVec.zero_add]
  have h₃ : stepCode s₃ = some s₄ := by
    have hpc : s₃.pc + 4 = P + 20 := by
      show P + 16 + 4 = P + 20
      bv_omega
    rw [CodeAt.stepCode (s := s₃) hcode (i := 4) rfl rfl, decode_I_add_xo_form _ rfl rfl rfl rfl]
    show some { s₃ with pc := s₃.pc + 4, gpr := Function.update s₃.gpr 12 9 } = some s₄
    rw [hpc]
  have h₄ : stepCode s₄ = none := by
    rw [CodeAt.stepCode (s := s₄) hcode (i := 5) rfl rfl]
    rfl
  exact .head h₀ <| .head h₁ <| .head h₂ <| .head h₃ <| .refl h₄

/-- The guest of the second demo. -/
theorem factorial_stops (h : PageSize P) (init : State)
    (hzero : ∀ x, (x - P).toNat < 2 * P.toNat → init.mem x = 0) :
    ∃ t, StopsAt (guest P ⟨"", initGuestText_Factorial⟩ init) t ∧ t.pc = 2 * P - 4 ∧
      t.mem.loadWord (2 * P - 4) = 0 ∧ t.gpr 3#5 = 3628800#32 ∧ t.gpr 1#5 = 3 * P - C_RED_ZONE := by
  have hdvd := h.dvd
  have hroom := h.room
  have hreach := h.reach
  let g := guest P ⟨"", initGuestText_Factorial⟩ init
  let fp := 3 * P - C_RED_ZONE - 96
  have hfp : fp.toNat = 3 * P.toNat - 320 := by
    simp only [fp, C_RED_ZONE]
    bv_omega
  have hat : At P 0 g := ⟨codeAt_initGuestText_Factorial _ _ _, (BitVec.add_zero P).symm⟩
  have hsp : g.gpr 1#5 = fp + 96#32 := by
    show 2 * P + P - C_RED_ZONE = fp + 96#32
    simp only [fp, C_RED_ZONE]
    bv_omega
  have hstack : Room P fp 10 := by
    refine ⟨by omega, by omega, fun x hx ↦ ?_⟩
    bv_omega
  have hlr : g.lr = 2 * P - 4 := by
    show P + P - 4 = 2 * P - 4
    bv_omega
  have harg : g.gpr 3#5 = 10 := rfl
  obtain ⟨t, hrun, hreturned⟩ := factorial_run 10 (aligned_iff.mpr (by omega)) hat hsp
    (aligned_iff.mpr (by omega)) (aligned_iff.mpr (by rw [hlr]; bv_omega))
    (by rw [harg]; decide) hstack
  -- nothing is written to the last word of the text page
  have hlast : t.mem.loadWord (2 * P - 4) = 0 := by
    have hbytes (x : BitVec 32) (hx : (x - (2 * P - 4)).toNat < 4) : t.mem x = 0#8 := by
      rw [hreturned.mem x (by rw [Touched]; bv_omega)]
      show init.mem.storeWords P factorial_ppc32 x = 0#8
      rw [Memory.storeWords_of_outside _ (by show 104 ≤ (x - P).toNat; bv_omega)]
      exact hzero x (by bv_omega)
    rw [Memory.loadWord, hbytes _ (by simp), hbytes _ (by bv_omega), hbytes _ (by bv_omega),
      hbytes _ (by bv_omega)]
    rfl
  have hpc : t.pc = 2 * P - 4 := hreturned.pc.trans hlr
  have hstuck : stepCode t = none := by
    rw [stepCode, hpc, hlast]
    rfl
  refine ⟨t, .of_reaches hrun (.refl hstuck), hpc, hlast, ?_, ?_⟩
  · rw [hreturned.result]
    rfl
  · rw [hreturned.sp, hsp]
    exact BitVec.sub_add_cancel _ _

theorem usage_eq_some {argc : ℕ} {demo_id : ℤ} {demo : Demo} (h : usage argc demo_id = some demo) :
    (demo_id = 0 ∧ demo.textfiller = initGuestText_Dummy) ∨
      (demo_id = 1 ∧ demo.textfiller = initGuestText_Factorial) := by
  rw [usage] at h
  split_ifs at h with hid
  obtain ⟨-, hlow, hhigh⟩ := hid
  have hhigh : demo_id < 2 := hhigh
  obtain rfl | rfl : demo_id = 0 ∨ demo_id = 1 := by omega
  · obtain rfl := Option.some.inj h
    exact .inl ⟨rfl, rfl⟩
  · obtain rfl := Option.some.inj h
    exact .inr ⟨rfl, rfl⟩

/-- What is printed of a guest that has stopped at an aligned address. -/
theorem report_instruction (h : PageSize P) {s : State} (hal : Aligned s.pc) :
    (report P s).instruction = s.mem.loadWord s.pc := by
  have hdvd := h.dvd
  rw [aligned_iff] at hal
  have haddr : P + 4#32 * ((s.pc - P) >>> 2) = s.pc := by
    have hdist : ((s.pc - P) >>> 2).toNat = (s.pc - P).toNat / 4 := by
      rw [BitVec.toNat_ushiftRight, Nat.shiftRight_eq_div_pow]
    generalize (s.pc - P) >>> 2 = distance at hdist ⊢
    bv_omega
  rw [report, haddr]

/-- **Every demo comes to its illegal instruction**, whatever the size of a page and whatever was in
the registers.  The first one stops at its last word, having added 4 and 5 and jumped over the word
before; the second at the last word of the text page, with the factorial of ten. -/
theorem monitor_reports (h : PageSize P) (init : State)
    (hzero : ∀ x, (x - P).toNat < 2 * P.toNat → init.mem x = 0) {argc : ℕ} {demo_id : ℤ}
    {demo : Demo} (hdemo : usage argc demo_id = some demo) :
    ∃ t, StopsAt (guest P demo init) t ∧
      ((demo_id = 0 ∧ report P t =
        { distance := 5
          pc := P + 20
          instruction := 0xfeedface
          lr := init.lr
          gpr := fun r ↦
            if r = 12 then 9 else if r = 11 then 5 else if r = 10 then 4
            else if r = 1 then 3 * P - C_RED_ZONE else init.gpr r }) ∨
      (demo_id = 1 ∧ (report P t).distance = P >>> 2 - 1#32 ∧ (report P t).pc = 2 * P - 4 ∧
        (report P t).instruction = 0 ∧ (report P t).gpr 3#5 = 3628800#32 ∧
        (report P t).gpr 1#5 = 3 * P - C_RED_ZONE)) := by
  have hdvd := h.dvd
  have hroom := h.room
  have hreach := h.reach
  obtain ⟨name, textfiller⟩ := demo
  obtain ⟨rfl, hfiller⟩ | ⟨rfl, hfiller⟩ := usage_eq_some hdemo
  · simp only at hfiller
    subst hfiller
    refine ⟨_, dummy_stops h init, .inl ⟨rfl, ?_⟩⟩
    have hcode : CodeAt (init.mem.storeWords P (dummyText P)) P (dummyText P) :=
      codeAt_storeWords (by simp [dummyText])
    have hdistance : (P + 20 - P) >>> 2 = 5 := by
      have hsub : P + 20 - P = 20 := by bv_omega
      rw [hsub]
      rfl
    rw [Report.mk.injEq]
    refine ⟨hdistance, rfl, ?_, rfl, ?_⟩
    · rw [report_instruction h (by show Aligned (P + 20); rw [aligned_iff]; bv_omega)]
      exact hcode 5 _ rfl
    · funext r
      show Function.update (Function.update (Function.update (Function.update init.gpr 1 _)
        10 4) 11 5) 12 9 r = _
      simp only [Function.update_apply]
      have hsp : 2 * P + P - C_RED_ZONE = 3 * P - C_RED_ZONE := by
        have h3 : 2 * P + P = 3 * P := by bv_omega
        rw [h3]
      rw [hsp]
  · simp only at hfiller
    subst hfiller
    obtain ⟨t, hstops, hpc, hlast, h3, h1⟩ := factorial_stops h init hzero
    refine ⟨t, hstops, .inr ⟨rfl, ?_, hpc, ?_, h3, h1⟩⟩
    · have hhalf : P >>> 2 - 1#32 = (2 * P - 4 - P) >>> 2 := by
        have hsub : 2 * P - 4 - P = P - 4 := by bv_omega
        refine BitVec.eq_of_toNat_eq ?_
        rw [hsub, BitVec.toNat_ushiftRight, Nat.shiftRight_eq_div_pow]
        have hshift : (P >>> 2).toNat = P.toNat / 4 := by
          rw [BitVec.toNat_ushiftRight, Nat.shiftRight_eq_div_pow]
        generalize P >>> 2 = q at hshift ⊢
        bv_omega
      rw [hhalf, report, hpc]
    · rw [report_instruction h (by rw [hpc, aligned_iff]; bv_omega), hpc, hlast]

/-- The registers and the pages of a new guest. -/
def blank : State where
  pc := 0
  lr := 0
  gpr _ := 0
  cr _ := false
  so := false
  mem _ := 0

/-- With pages of 4096 bytes the first demo stops six words into the text. -/
theorem monitor_reports_dummy :
    ∃ t, StopsAt (guest 0x1000 ⟨"executes a few hand-crafted instructions in a VM",
      initGuestText_Dummy⟩ blank) t ∧ (report 0x1000 t).distance = 5 ∧ t.gpr 12#5 = 9 := by
  obtain ⟨t, hstops, ⟨-, hreport⟩ | ⟨h, -⟩⟩ :=
    monitor_reports (P := 0x1000) ⟨by decide, by decide, by decide⟩ blank (fun _ _ ↦ rfl)
      (show usage 2 0 = some ⟨_, initGuestText_Dummy⟩ from rfl)
  · refine ⟨t, hstops, by rw [hreport], ?_⟩
    have hgpr : t.gpr = (report 0x1000 t).gpr := rfl
    rw [hgpr, hreport]
    rfl
  · exact absurd h (by decide)

end Vmachmon
end MacOSXInternal
