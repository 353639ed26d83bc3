import Mathlib.Data.Nat.Factorial.Basic
import MacOSXInternal.Lib.PowerPC.Machine
import MacOSXInternal.Lib.SignedWord

/-!
# The factorial machine code of `vmachmon32.c`

`initGuestText_Factorial` copies 26 words into the guest, the compiled form of

    int
    factorial(int n)
    {
        if (n <= 0)
            return 1;
        else
            return n * factorial(n - 1);
    }

An activation with stack pointer `sp` on entry pushes a frame of 96 bytes below it, and keeps its
return address and its argument in two words above it, which belong to the caller.  The lemmas are
about the frame pointer `fp = sp - 96`, from which the code addresses everything but the return
address.

* `prologue`, `base`, `call`, `product` and `epilogue` are the pieces of the code, each with what
  it does to the frame.
* `Room` is what the stack must offer to `d + 1` activations, `Touched` what they may write.
* `factorial_run` composes the pieces, by induction on the depth of the recursion.
* `factorial_ppc32_implements` says this of the words, the C function and the stack pointer.
-/

set_option autoImplicit false

namespace MacOSXInternal
namespace Vmachmon

open PowerPC SignedWord

/-- `factorial_ppc32`. -/
def factorial_ppc32 : List (BitVec 32) :=
  [0x7c0802a6, 0xbfc1fff8, 0x90010008, 0x9421ffa0,
    0x7c3e0b78, 0x907e0078, 0x801e0078, 0x2f800000,
    0x419d0010, 0x38000001, 0x901e0040, 0x48000024,
    0x805e0078, 0x3802ffff, 0x7c030378, 0x4bffffc5,
    0x7c621b78, 0x801e0078, 0x7c0201d6, 0x901e0040,
    0x807e0040, 0x80210000, 0x80010008, 0x7c0803a6,
    0xbbc1fff8, 0x4e800020]

/-- The same, disassembled. -/
def factorialInstrs : List Instr :=
  [.mflr 0, .stmw 30 1 (-8), .stw 0 1 8, .stwu 1 1 (-96),
    .or 30 1 1, .stw 3 30 120, .lwz 0 30 120, .cmpwi 7 0 0,
    .bc 12 29 4 false false, .addi 0 0 1, .stw 0 30 64, .b 9 false false,
    .lwz 2 30 120, .addi 0 2 (-1), .or 3 0 0, .b (-15) false true,
    .or 2 3 3, .lwz 0 30 120, .mullw 0 2 0, .stw 0 30 64,
    .lwz 3 30 64, .lwz 1 1 0, .lwz 0 1 8, .mtlr 0,
    .lmw 30 1 (-8), .bclr 20 0 false]

theorem decode_factorial_ppc32 : factorial_ppc32.map decode = factorialInstrs.map some := by
  decide

/-- The C function, with the wrap-around of the machine. -/
def factorial (n : BitVec 32) : BitVec 32 :=
  if n.toInt ≤ 0 then 1 else n * factorial (n - 1)
termination_by n.toInt.toNat
decreasing_by
  rw [BitVec.toInt_eq_toNat_cond] at *
  rw [BitVec.toInt_eq_toNat_cond]
  split_ifs at * <;> bv_omega

/-- `initGuestText_Factorial`: the words into the page that the guest sees at `guestTextAddress`,
the argument into `GPR3`, and the last word of the page into `LR`. -/
def initGuestText_Factorial (vm_page_size guestTextAddress : BitVec 32) (s : State) : State :=
  { s with
    mem := s.mem.storeWords guestTextAddress factorial_ppc32
    gpr := Function.update s.gpr 3 10
    lr := guestTextAddress + vm_page_size - 4 }

theorem codeAt_initGuestText_Factorial (vm_page_size guestTextAddress : BitVec 32) (s : State) :
    CodeAt (initGuestText_Factorial vm_page_size guestTextAddress s).mem guestTextAddress
      factorial_ppc32 :=
  codeAt_storeWords (by decide)

/-! ## Code and frames -/

/-- The machine is about to execute instruction `i` of the code at `A`. -/
structure At (A : BitVec 32) (i : ℕ) (s : State) : Prop where
  code : CodeAt s.mem A factorial_ppc32
  pc : s.pc = A + BitVec.ofNat 32 (4 * i)

variable {A fp : BitVec 32} {i : ℕ} {s t u : State} {ins : Instr}

theorem At.reaches (h : At A i s) (hi : factorialInstrs[i]? = some ins) (he : exec ins s = some t)
    (hr : Reaches t u) : Reaches s u :=
  .head ((h.code.step decode_factorial_ppc32 h.pc hi).trans he) hr

/-- The 124 bytes from `fp` on, among which an activation with frame pointer `fp` writes, are not
code. -/
def Clear (A fp : BitVec 32) : Prop := ∀ x, (x - A).toNat < 104 → 124 ≤ (x - fp).toNat

/-- Memory changed only in the frame. -/
def Framed (fp : BitVec 32) (m m' : Memory) : Prop := ∀ x, 124 ≤ (x - fp).toNat → m' x = m x

theorem Framed.refl (m : Memory) : Framed fp m m := fun _ _ ↦ rfl

theorem Framed.store {m m' : Memory} {k : BitVec 32} (h : Framed fp m m') (hk : k.toNat ≤ 120)
    (v : BitVec 32) : Framed fp m (m'.storeWord (fp + k) v) := fun x hx ↦
  (Memory.storeWord_of_outside v (by bv_omega)).trans (h x hx)

theorem Framed.store_zero {m m' : Memory} (h : Framed fp m m') (v : BitVec 32) :
    Framed fp m (m'.storeWord fp v) := by
  simpa using h.store (k := 0#32) (by decide) v

/-- On to instruction `j`. -/
theorem At.goto (h : At A i s) (hclear : Clear A fp) {j : ℕ} (hmem : Framed fp s.mem t.mem)
    (hpc : t.pc = A + BitVec.ofNat 32 (4 * j)) : At A j t :=
  ⟨h.code.congr (fun x hx ↦ hmem x (hclear x hx)) (by decide), hpc⟩

/-- On to the next instruction. -/
theorem At.next (h : At A i s) (hclear : Clear A fp) (hmem : Framed fp s.mem t.mem)
    (hpc : t.pc = s.pc + 4) : At A (i + 1) t := by
  refine h.goto hclear hmem ?_
  rw [hpc, h.pc]
  bv_omega

section
variable (h : At A i s) (hclear : Clear A fp) (r : Reg) (v w : BitVec 32) {k l : BitVec 32}
include h hclear

theorem At.set : At A (i + 1) (s.set r v).next := h.next hclear (.refl s.mem) rfl

theorem At.compare : At A (i + 1) (s.compare 7 v w).next := h.next hclear (.refl s.mem) rfl

theorem At.store (hk : k.toNat ≤ 120) : At A (i + 1) (s.store (fp + k) v).next :=
  h.next hclear ((Framed.refl s.mem).store hk v) rfl

theorem At.stmw (hk : k.toNat ≤ 120) (hl : l.toNat ≤ 120) :
    At A (i + 1) ((s.store (fp + k) v).store (fp + l) w).next :=
  h.next hclear (((Framed.refl s.mem).store hk v).store hl w) rfl

theorem At.stwu : At A (i + 1) ((s.store fp v).set r w).next :=
  h.next hclear ((Framed.refl s.mem).store_zero v) rfl

theorem At.mtlr : At A (i + 1) ({ s with lr := v } : State).next := h.next hclear (.refl s.mem) rfl

theorem At.lmw (q : Reg) : At A (i + 1) ((s.set r v).set q w).next := h.next hclear (.refl s.mem) rfl

end

/-- The stack words of an activation: the back chain, the saved registers, the return address, the
argument. -/
structure Frame (fp n link r30 r31 : BitVec 32) (m : Memory) : Prop where
  chain : m.loadWord fp = fp + 96#32
  saved30 : m.loadWord (fp + 88#32) = r30
  saved31 : m.loadWord (fp + 92#32) = r31
  link : m.loadWord (fp + 104#32) = link
  arg : m.loadWord (fp + 120#32) = n

/-- The bytes that an activation must not write, apart from its callees' frames. -/
def Outside (fp x : BitVec 32) : Prop :=
  96 ≤ (x - fp).toNat ∧ ¬(104 ≤ (x - fp).toNat ∧ (x - fp).toNat < 108) ∧
    ¬(120 ≤ (x - fp).toNat ∧ (x - fp).toNat < 124)

/-! ## The pieces -/

theorem regsFrom_30 : regsFrom 30#5 = [30#5, 31#5] := by
  decide

/-- The frame is pushed, and the argument stored. -/
theorem pushFrame (a₀ : At A 0 s) (hclear : Clear A fp) (hsp : s.gpr 1#5 = fp + 96#32)
    (hal : Aligned (fp + 88#32)) :
    ∃ t, Reaches s t ∧ At A 6 t ∧
      Frame fp (s.gpr 3#5) s.lr (s.gpr 30#5) (s.gpr 31#5) t.mem ∧ t.gpr 1#5 = fp ∧
      t.gpr 30#5 = fp ∧ t.gpr 31#5 = s.gpr 31#5 ∧ ∀ x, Outside fp x → t.mem x = s.mem x := by
  let s₁ := (s.set 0#5 s.lr).next
  let s₂ := ((s₁.store (fp + 88#32) (s.gpr 30#5)).store (fp + 92#32) (s.gpr 31#5)).next
  let s₃ := (s₂.store (fp + 104#32) s.lr).next
  let s₄ := ((s₃.store fp (fp + 96#32)).set 1#5 fp).next
  let s₅ := (s₄.set 30#5 fp).next
  let s₆ := (s₅.store (fp + 120#32) (s.gpr 3#5)).next
  have e₀ : exec (.mflr 0) s = some s₁ := rfl
  have e₁ : exec (.stmw 30 1 (-8)) s₁ = some s₂ := by
    simp [exec, State.ea, s₁, s₂, hsp, BitVec.add_assoc, hal, regsFrom_30]
  have e₂ : exec (.stw 0 1 8) s₂ = some s₃ := by
    simp [exec, State.ea, s₁, s₂, s₃, hsp, BitVec.add_assoc]
  have e₃ : exec (.stwu 1 1 (-96)) s₃ = some s₄ := by
    simp [exec, State.ea, s₁, s₂, s₃, s₄, hsp, BitVec.add_assoc]
  have e₄ : exec (.or 30 1 1) s₄ = some s₅ := by
    simp [exec, s₄, s₅]
  have e₅ : exec (.stw 3 30 120) s₅ = some s₆ := by
    simp [exec, State.ea, s₁, s₂, s₃, s₄, s₅, s₆]
  -- the code survives every store
  have a₁ : At A 1 s₁ := a₀.set hclear _ _
  have a₂ : At A 2 s₂ := a₁.stmw hclear _ _ (by decide) (by decide)
  have a₃ : At A 3 s₃ := a₂.store hclear _ (by decide)
  have a₄ : At A 4 s₄ := a₃.stwu hclear _ _ _
  have a₅ : At A 5 s₅ := a₄.set hclear _ _
  have a₆ : At A 6 s₆ := a₅.store hclear _ (by decide)
  have hreach : Reaches s s₆ :=
    a₀.reaches rfl e₀ <| a₁.reaches rfl e₁ <| a₂.reaches rfl e₂ <| a₃.reaches rfl e₃ <|
      a₄.reaches rfl e₄ <| a₅.reaches rfl e₅ .refl
  have hmem : s₆.mem = ((((s.mem.storeWord (fp + 88#32) (s.gpr 30#5)).storeWord (fp + 92#32)
      (s.gpr 31#5)).storeWord (fp + 104#32) s.lr).storeWord fp (fp + 96#32)).storeWord (fp + 120#32)
      (s.gpr 3#5) := by
    simp [s₁, s₂, s₃, s₄, s₅, s₆]
  refine ⟨s₆, hreach, a₆, ?_, ?_, ?_, ?_, fun x hx ↦ ?_⟩
  · rw [hmem]
    refine ⟨?_, ?_, ?_, ?_, ?_⟩ <;>
      simp (disch := bv_omega) only [Memory.loadWord_storeWord, Memory.loadWord_storeWord_of_apart]
  · simp [s₁, s₂, s₃, s₄, s₅, s₆]
  · simp [s₁, s₂, s₃, s₄, s₅, s₆]
  · simp [s₁, s₂, s₃, s₄, s₅, s₆]
  · obtain ⟨h1, h2, h3⟩ := hx
    rw [hmem]
    simp (disch := bv_omega) only [Memory.storeWord_of_outside]

/-- The argument is compared with zero. -/
theorem test {n : BitVec 32} (a₀ : At A 6 s) (hclear : Clear A fp) (hfp : s.gpr 30#5 = fp)
    (harg : s.mem.loadWord (fp + 120#32) = n) :
    ∃ t, Reaches s t ∧ At A (if (0#32).slt n then 12 else 9) t ∧ t.mem = s.mem ∧
      t.gpr 1#5 = s.gpr 1#5 ∧ t.gpr 30#5 = fp ∧ t.gpr 31#5 = s.gpr 31#5 := by
  let s₁ := (s.set 0#5 n).next
  let s₂ := (s₁.compare 7 n 0#32).next
  let s₃ := if (0#32).slt n then s₂.jump false (s₂.pc + 16#32) else s₂.next
  have hgt : s₂.cr 29#5 = (0#32).slt n := by simp [s₂, State.compare]
  have e₀ : exec (.lwz 0 30 120) s = some s₁ := by
    simp [exec, State.ea, s₁, hfp, harg]
  have e₁ : exec (.cmpwi 7 0 0) s₁ = some s₂ := by
    simp [exec, s₁, s₂]
  have e₂ : exec (.bc 12 29 4 false false) s₂ = some s₃ := by
    simp [exec, s₃, taken, hgt]
  have a₁ : At A 7 s₁ := a₀.set hclear _ _
  have a₂ : At A 8 s₂ := a₁.compare hclear _ _
  have hreach : Reaches s s₃ := a₀.reaches rfl e₀ <| a₁.reaches rfl e₁ <| a₂.reaches rfl e₂ .refl
  by_cases hn : (0#32).slt n
  · have hs₃ : s₃ = s₂.jump false (s₂.pc + 16#32) := if_pos hn
    have a₃ : At A 12 s₃ := by
      refine a₂.goto hclear (hs₃ ▸ .refl s₂.mem) ?_
      rw [hs₃, State.jump_pc, a₂.pc]
      bv_omega
    rw [if_pos hn]
    refine ⟨s₃, hreach, a₃, ?_, ?_, ?_, ?_⟩ <;> simp [hs₃, s₁, s₂, hfp]
  · have hs₃ : s₃ = s₂.next := if_neg hn
    have a₃ : At A 9 s₃ := hs₃ ▸ a₂.next hclear (.refl s₂.mem) rfl
    rw [if_neg hn]
    refine ⟨s₃, hreach, a₃, ?_, ?_, ?_, ?_⟩ <;> simp [hs₃, s₁, s₂, hfp]

/-- **The prologue** leaves a frame behind, and has compared the argument with zero. -/
theorem prologue (a₀ : At A 0 s) (hclear : Clear A fp) (hsp : s.gpr 1#5 = fp + 96#32)
    (hal : Aligned (fp + 88#32)) :
    ∃ t, Reaches s t ∧ At A (if (0#32).slt (s.gpr 3#5) then 12 else 9) t ∧
      Frame fp (s.gpr 3#5) s.lr (s.gpr 30#5) (s.gpr 31#5) t.mem ∧ t.gpr 1#5 = fp ∧
      t.gpr 30#5 = fp ∧ t.gpr 31#5 = s.gpr 31#5 ∧ ∀ x, Outside fp x → t.mem x = s.mem x := by
  obtain ⟨t, hr, ht, hframe, ht1, ht30, ht31, htmem⟩ := pushFrame a₀ hclear hsp hal
  obtain ⟨u, hr', hu, humem, hu1, hu30, hu31⟩ := test ht hclear ht30 hframe.arg
  rw [← humem] at hframe htmem
  exact ⟨u, hr.trans hr', hu, hframe, hu1.trans ht1, hu30, hu31.trans ht31, htmem⟩

/-- A frame does not depend on the word for the result. -/
theorem Frame.storeResult {n link r30 r31 : BitVec 32} {m : Memory}
    (h : Frame fp n link r30 r31 m) (v : BitVec 32) :
    Frame fp n link r30 r31 (m.storeWord (fp + 64#32) v) := by
  obtain ⟨h1, h2, h3, h4, h5⟩ := h
  refine ⟨?_, ?_, ?_, ?_, ?_⟩ <;>
    simp (disch := bv_omega) only [Memory.loadWord_storeWord_of_apart] <;> assumption

/-- **The base case**: one is the result. -/
theorem base (a₀ : At A 9 s) (hclear : Clear A fp) (hfp : s.gpr 30#5 = fp) :
    ∃ t, Reaches s t ∧ At A 20 t ∧ t.mem = s.mem.storeWord (fp + 64#32) 1#32 ∧
      t.gpr 1#5 = s.gpr 1#5 ∧ t.gpr 30#5 = fp := by
  let s₁ := (s.set 0#5 1#32).next
  let s₂ := (s₁.store (fp + 64#32) 1#32).next
  let s₃ := s₂.jump false (s₂.pc + 36#32)
  have e₀ : exec (.addi 0 0 1) s = some s₁ := by
    simp [exec, State.ea, s₁]
  have e₁ : exec (.stw 0 30 64) s₁ = some s₂ := by
    simp [exec, State.ea, s₁, s₂, hfp]
  have e₂ : exec (.b 9 false false) s₂ = some s₃ := by
    simp [exec, s₃]
  have a₁ : At A 10 s₁ := a₀.set hclear _ _
  have a₂ : At A 11 s₂ := a₁.store hclear _ (by decide)
  have a₃ : At A 20 s₃ := by
    refine a₂.goto hclear (.refl s₂.mem) ?_
    rw [State.jump_pc, a₂.pc]
    bv_omega
  refine ⟨s₃, a₀.reaches rfl e₀ <| a₁.reaches rfl e₁ <| a₂.reaches rfl e₂ .refl, a₃, ?_, ?_, ?_⟩ <;>
    simp [s₁, s₂, s₃, hfp]

/-- **The call**: the argument is one less, the link is the instruction behind. -/
theorem call {n : BitVec 32} (a₀ : At A 12 s) (hclear : Clear A fp) (hfp : s.gpr 30#5 = fp)
    (harg : s.mem.loadWord (fp + 120#32) = n) :
    ∃ t, Reaches s t ∧ At A 0 t ∧ t.mem = s.mem ∧ t.lr = A + 64#32 ∧ t.gpr 3#5 = n - 1#32 ∧
      t.gpr 1#5 = s.gpr 1#5 ∧ t.gpr 30#5 = fp ∧ t.gpr 31#5 = s.gpr 31#5 := by
  let s₁ := (s.set 2#5 n).next
  let s₂ := (s₁.set 0#5 (n - 1#32)).next
  let s₃ := (s₂.set 3#5 (n - 1#32)).next
  let s₄ := s₃.jump true (s₃.pc - 60#32)
  have e₀ : exec (.lwz 2 30 120) s = some s₁ := by
    simp [exec, State.ea, s₁, hfp, harg]
  have e₁ : exec (.addi 0 2 (-1)) s₁ = some s₂ := by
    simp [exec, State.ea, s₁, s₂, BitVec.sub_eq_add_neg]
  have e₂ : exec (.or 3 0 0) s₂ = some s₃ := by
    simp [exec, s₂, s₃]
  have e₃ : exec (.b (-15) false true) s₃ = some s₄ := by
    simp [exec, s₄, BitVec.sub_eq_add_neg]
  have a₁ : At A 13 s₁ := a₀.set hclear _ _
  have a₂ : At A 14 s₂ := a₁.set hclear _ _
  have a₃ : At A 15 s₃ := a₂.set hclear _ _
  have a₄ : At A 0 s₄ := by
    refine a₃.goto hclear (.refl s₃.mem) ?_
    rw [State.jump_pc, a₃.pc]
    bv_omega
  have hlr : s₄.lr = A + 64#32 := by
    rw [State.jump_lr, if_pos rfl, a₃.pc]
    bv_omega
  refine ⟨s₄, a₀.reaches rfl e₀ <| a₁.reaches rfl e₁ <| a₂.reaches rfl e₂ <|
    a₃.reaches rfl e₃ .refl, a₄, ?_, hlr, ?_, ?_, ?_, ?_⟩ <;>
    simp [s₁, s₂, s₃, s₄, hfp]

/-- **The product** of the callee's result and the argument is the result. -/
theorem product {n : BitVec 32} (a₀ : At A 16 s) (hclear : Clear A fp) (hfp : s.gpr 30#5 = fp)
    (harg : s.mem.loadWord (fp + 120#32) = n) :
    ∃ t, Reaches s t ∧ At A 20 t ∧ t.mem = s.mem.storeWord (fp + 64#32) (s.gpr 3#5 * n) ∧
      t.gpr 1#5 = s.gpr 1#5 ∧ t.gpr 30#5 = fp := by
  let s₁ := (s.set 2#5 (s.gpr 3#5)).next
  let s₂ := (s₁.set 0#5 n).next
  let s₃ := (s₂.set 0#5 (s.gpr 3#5 * n)).next
  let s₄ := (s₃.store (fp + 64#32) (s.gpr 3#5 * n)).next
  have e₀ : exec (.or 2 3 3) s = some s₁ := by
    simp [exec, s₁]
  have e₁ : exec (.lwz 0 30 120) s₁ = some s₂ := by
    simp [exec, State.ea, s₁, s₂, hfp, harg]
  have e₂ : exec (.mullw 0 2 0) s₂ = some s₃ := by
    simp [exec, s₁, s₂, s₃]
  have e₃ : exec (.stw 0 30 64) s₃ = some s₄ := by
    simp [exec, State.ea, s₁, s₂, s₃, s₄, hfp]
  have a₁ : At A 17 s₁ := a₀.set hclear _ _
  have a₂ : At A 18 s₂ := a₁.set hclear _ _
  have a₃ : At A 19 s₃ := a₂.set hclear _ _
  have a₄ : At A 20 s₄ := a₃.store hclear _ (by decide)
  refine ⟨s₄, a₀.reaches rfl e₀ <| a₁.reaches rfl e₁ <| a₂.reaches rfl e₂ <|
    a₃.reaches rfl e₃ .refl, a₄, ?_, ?_, ?_⟩ <;>
    simp [s₁, s₂, s₃, s₄, hfp]

/-- **The epilogue** undoes the prologue and returns. -/
theorem epilogue {n link r30 r31 v : BitVec 32} (a₀ : At A 20 s) (hclear : Clear A fp)
    (hframe : Frame fp n link r30 r31 s.mem) (hv : s.mem.loadWord (fp + 64#32) = v)
    (hsp : s.gpr 1#5 = fp) (hfp : s.gpr 30#5 = fp) (hal : Aligned (fp + 88#32))
    (hlink : Aligned link) :
    ∃ t, Reaches s t ∧ t.pc = link ∧ t.mem = s.mem ∧ t.gpr 3#5 = v ∧ t.gpr 1#5 = fp + 96#32 ∧
      t.gpr 30#5 = r30 ∧ t.gpr 31#5 = r31 := by
  obtain ⟨hchain, h30, h31, hl, -⟩ := hframe
  let s₁ := (s.set 3#5 v).next
  let s₂ := (s₁.set 1#5 (fp + 96#32)).next
  let s₃ := (s₂.set 0#5 link).next
  let s₄ := ({ s₃ with lr := link }).next
  let s₅ := ((s₄.set 30#5 r30).set 31#5 r31).next
  let s₆ := s₅.jump false link
  have e₀ : exec (.lwz 3 30 64) s = some s₁ := by
    simp [exec, State.ea, s₁, hfp, hv]
  have e₁ : exec (.lwz 1 1 0) s₁ = some s₂ := by
    simp [exec, State.ea, s₁, s₂, hsp, hchain]
  have e₂ : exec (.lwz 0 1 8) s₂ = some s₃ := by
    simp [exec, State.ea, s₁, s₂, s₃, BitVec.add_assoc, hl]
  have e₃ : exec (.mtlr 0) s₃ = some s₄ := by
    simp [exec, s₃, s₄]
  have e₄ : exec (.lmw 30 1 (-8)) s₄ = some s₅ := by
    simp [exec, State.ea, s₁, s₂, s₃, s₄, s₅, BitVec.add_assoc, hal, regsFrom_30, h30, h31]
  have e₅ : exec (.bclr 20 0 false) s₅ = some s₆ := by
    simp [exec, s₄, s₅, s₆, taken, hlink.trim_eq]
  have a₁ : At A 21 s₁ := a₀.set hclear _ _
  have a₂ : At A 22 s₂ := a₁.set hclear _ _
  have a₃ : At A 23 s₃ := a₂.set hclear _ _
  have a₄ : At A 24 s₄ := a₃.mtlr hclear _
  have a₅ : At A 25 s₅ := a₄.lmw hclear _ _ _ _
  refine ⟨s₆, a₀.reaches rfl e₀ <| a₁.reaches rfl e₁ <| a₂.reaches rfl e₂ <| a₃.reaches rfl e₃ <|
    a₄.reaches rfl e₄ <| a₅.reaches rfl e₅ .refl, ?_, ?_, ?_, ?_, ?_, ?_⟩ <;>
    simp [s₁, s₂, s₃, s₄, s₅, s₆]

/-! ## The recursion -/

/-- The bytes that `d + 1` activations, the first of which has frame pointer `fp`, may write: their
frames, and two words in the caller's linkage and parameter area. -/
def Touched (fp : BitVec 32) (d : ℕ) (x : BitVec 32) : Prop :=
  (fp.toNat ≤ x.toNat + 96 * d ∧ x.toNat < fp.toNat + 96) ∨
  (fp.toNat + 104 ≤ x.toNat ∧ x.toNat < fp.toNat + 108) ∨
  (fp.toNat + 120 ≤ x.toNat ∧ x.toNat < fp.toNat + 124)

/-- There is room for `d + 1` activations, and none of it is code. -/
structure Room (A fp : BitVec 32) (d : ℕ) : Prop where
  low : 96 * d ≤ fp.toNat
  high : fp.toNat + 124 ≤ 2 ^ 32
  apart : ∀ x, (x - A).toNat < 104 → x.toNat + 96 * d < fp.toNat ∨ fp.toNat + 124 ≤ x.toNat

theorem Room.clear {d : ℕ} (h : Room A fp d) : Clear A fp := by
  intro x hx
  have hlow := h.low
  have hhigh := h.high
  have hapart := h.apart x hx
  bv_omega

theorem Room.callee {d : ℕ} (h : Room A fp (d + 1)) : Room A (fp - 96#32) d := by
  have hlow := h.low
  have hhigh := h.high
  have hfp : (fp - 96#32).toNat = fp.toNat - 96 := by bv_omega
  refine ⟨by omega, by omega, fun x hx ↦ ?_⟩
  have hapart := h.apart x hx
  omega

/-- What a callee may write, its caller may. -/
theorem Touched.caller {d : ℕ} {x : BitVec 32} (hroom : Room A fp (d + 1))
    (hx : Touched (fp - 96#32) d x) : Touched fp (d + 1) x := by
  have hlow := hroom.low
  have hhigh := hroom.high
  have hfp : (fp - 96#32).toNat = fp.toNat - 96 := by bv_omega
  rw [Touched, hfp] at hx
  rw [Touched]
  omega

theorem outside_of_not_touched {d : ℕ} {x : BitVec 32} (h : Room A fp d) (hx : ¬Touched fp d x) :
    Outside fp x := by
  have hlow := h.low
  have hhigh := h.high
  simp only [Touched, not_or, not_and, not_lt] at hx
  obtain ⟨h1, h2, h3⟩ := hx
  refine ⟨?_, ?_, ?_⟩ <;> bv_omega

/-- What a callee may write leaves the caller's frame as it is. -/
theorem Frame.callee {n link r30 r31 : BitVec 32} {m m' : Memory} {d : ℕ}
    (hroom : Room A fp (d + 1)) (h : Frame fp n link r30 r31 m)
    (hm : ∀ x, ¬Touched (fp - 96#32) d x → m' x = m x) : Frame fp n link r30 r31 m' := by
  have hlow := hroom.low
  have hhigh := hroom.high
  have hfp : (fp - 96#32).toNat = fp.toNat - 96 := by bv_omega
  obtain ⟨h1, h2, h3, h4, h5⟩ := h
  have hload : ∀ a : BitVec 32, (a = fp ∨ fp.toNat + 88 ≤ a.toNat) → a.toNat ≤ fp.toNat + 120 →
      m'.loadWord a = m.loadWord a := by
    intro a ha ha'
    refine Memory.loadWord_congr fun x hx ↦ hm x ?_
    rw [Touched, hfp]
    rcases ha with rfl | ha <;> bv_omega
  refine ⟨?_, ?_, ?_, ?_, ?_⟩
  · rw [hload fp (.inl rfl) (by omega), h1]
  all_goals rw [hload _ (.inr (by bv_omega)) (by bv_omega)]; assumption

/-- What a call of the function with `n` in `GPR3` has done when it is back: `d` is the argument, or
zero if that is negative. -/
structure Returned (fp : BitVec 32) (d : ℕ) (s t : State) : Prop where
  pc : t.pc = s.lr
  result : t.gpr 3#5 = BitVec.ofNat 32 d.factorial
  sp : t.gpr 1#5 = s.gpr 1#5
  saved30 : t.gpr 30#5 = s.gpr 30#5
  saved31 : t.gpr 31#5 = s.gpr 31#5
  mem : ∀ x, ¬Touched fp d x → t.mem x = s.mem x

theorem storeResult_outside {m : Memory} {v x : BitVec 32} (hx : Outside fp x) :
    m.storeWord (fp + 64#32) v x = m x := by
  obtain ⟨h, -, -⟩ := hx
  exact Memory.storeWord_of_outside v (by bv_omega)

theorem Room.not_touched {d : ℕ} (h : Room A fp d) {x : BitVec 32} (hx : (x - A).toNat < 104) :
    ¬Touched fp d x := by
  have hlow := h.low
  have hhigh := h.high
  have hapart := h.apart x hx
  rw [Touched]
  omega

theorem pos_iff {n : BitVec 32} : (0#32).slt n = true ↔ n.toInt.toNat ≠ 0 := by
  rw [BitVec.slt_iff_toInt_lt, BitVec.toInt_zero]
  omega

theorem aligned_sub {a : BitVec 32} (h : Aligned a) : Aligned (a - 96#32) := by
  rw [← aligned_add (k := 96#32) (by decide), BitVec.sub_add_cancel]
  exact h

/-- **A call returns**, by induction on the depth of the recursion. -/
theorem factorial_run (d : ℕ) (hA : Aligned A) {s : State} (h : At A 0 s)
    (hsp : s.gpr 1#5 = fp + 96#32) (hal : Aligned fp) (hlr : Aligned s.lr)
    (hd : (s.gpr 3#5).toInt.toNat = d) (hroom : Room A fp d) :
    ∃ t, Reaches s t ∧ Returned fp d s t := by
  induction d generalizing s fp with
  | zero =>
    have hclear := hroom.clear
    have hal' : Aligned (fp + 88#32) := (aligned_add (by decide)).mpr hal
    have hn : ¬(0#32).slt (s.gpr 3#5) = true := by
      rw [pos_iff]
      omega
    obtain ⟨t, hr, ht, hframe, ht1, ht30, ht31, htmem⟩ := prologue h hclear hsp hal'
    rw [if_neg hn] at ht
    obtain ⟨u, hr', hu, humem, hu1, hu30⟩ := base ht hclear ht30
    obtain ⟨v, hr'', hpc, hvmem, hv3, hv1, hv30, hv31⟩ := epilogue hu hclear
      (humem ▸ hframe.storeResult 1#32) (by rw [humem, Memory.loadWord_storeWord])
      (hu1.trans ht1) hu30 hal' hlr
    refine ⟨v, hr.trans (hr'.trans hr''), hpc, hv3, hv1.trans hsp.symm, hv30, hv31, fun x hx ↦ ?_⟩
    have hout := outside_of_not_touched hroom hx
    rw [hvmem, humem, storeResult_outside hout, htmem x hout]
  | succ d ih =>
    have hclear := hroom.clear
    have hal' : Aligned (fp + 88#32) := (aligned_add (by decide)).mpr hal
    have hn : (0#32).slt (s.gpr 3#5) = true := by
      rw [pos_iff]
      omega
    obtain ⟨t, hr, ht, hframe, ht1, ht30, ht31, htmem⟩ := prologue h hclear hsp hal'
    rw [if_pos hn] at ht
    obtain ⟨u, hr', hu, humem, hulr, hu3, hu1, hu30, hu31⟩ := call ht hclear ht30 hframe.arg
    -- the callee, one frame further down
    have husp : u.gpr 1#5 = fp - 96#32 + 96#32 := by
      rw [hu1, ht1, BitVec.sub_add_cancel]
    have hu3 : (u.gpr 3#5).toInt.toNat = d := hu3 ▸ pred_toInt hd
    have hulr' : Aligned u.lr := hulr ▸ (aligned_add (by decide)).mpr hA
    obtain ⟨v, hcallee, hv⟩ := ih hu husp (aligned_sub hal) hulr' hu3 hroom.callee
    have hv16 : At A 16 v := by
      refine ⟨hu.code.congr (fun x hx ↦ hv.mem x (hroom.callee.not_touched hx)) (by decide), ?_⟩
      rw [hv.pc, hulr]
    have hvmem : ∀ x, ¬Touched (fp - 96#32) d x → v.mem x = t.mem x := humem ▸ hv.mem
    have hvframe := hframe.callee hroom hvmem
    obtain ⟨w, hr'', hw, hwmem, hw1, hw30⟩ :=
      product hv16 hclear (hv.saved30.trans hu30) hvframe.arg
    obtain ⟨z, hr₃, hpc, hzmem, hz3, hz1, hz30, hz31⟩ := epilogue hw hclear
      (hwmem ▸ hvframe.storeResult _) (by rw [hwmem, Memory.loadWord_storeWord])
      (hw1.trans (hv.sp.trans (hu1.trans ht1))) hw30 hal' hlr
    refine ⟨z, hr.trans (hr'.trans (hcallee.trans (hr''.trans hr₃))), hpc, ?_, hz1.trans hsp.symm,
      hz30, hz31, fun x hx ↦ ?_⟩
    · rw [hz3, hv.result, eq_ofNat hd, ← BitVec.ofNat_mul, mul_comm, Nat.factorial_succ]
    · have hout := outside_of_not_touched hroom hx
      have hx' := mt (Touched.caller hroom) hx
      rw [hzmem, hwmem, storeResult_outside hout, hv.mem x hx', humem, htmem x hout]

/-! ## The function -/

/-- The C function computes the factorial, modulo `2 ^ 32`. -/
theorem factorial_eq (n : BitVec 32) : factorial n = BitVec.ofNat 32 n.toInt.toNat.factorial := by
  induction hd : n.toInt.toNat generalizing n with
  | zero =>
    rw [factorial, if_pos (by omega)]
    rfl
  | succ d ih =>
    rw [factorial, if_neg (by omega), ih (n - 1) (pred_toInt hd), Nat.factorial_succ,
      BitVec.ofNat_mul, ← eq_ofNat hd]

/-- **The 26 words implement the C function**, for every argument, wherever they and the stack are,
as long as the stack has room.  The recursion goes `max n 0` deep, and every activation takes 96
bytes. -/
theorem factorial_ppc32_implements (s : State) (A : BitVec 32)
    (hcode : CodeAt s.mem A factorial_ppc32) (hpc : s.pc = A) (hA : Aligned A)
    (hL : Aligned s.lr) (hsp : Aligned (s.gpr 1#5))
    (hlow : 96 * ((s.gpr 3#5).toInt.toNat + 1) ≤ (s.gpr 1#5).toNat)
    (hhigh : (s.gpr 1#5).toNat + 28 ≤ 2 ^ 32)
    (hapart : ∀ x : BitVec 32, (x - A).toNat < 104 →
      x.toNat < (s.gpr 1#5).toNat - 96 * ((s.gpr 3#5).toInt.toNat + 1) ∨
        (s.gpr 1#5).toNat + 28 ≤ x.toNat) :
    ∃ t, Reaches s t ∧ t.pc = s.lr ∧
      t.gpr 3#5 = factorial (s.gpr 3#5) ∧
      (t.gpr 3#5).toNat = (if 1 ≤ (s.gpr 3#5).toInt then
        (s.gpr 3#5).toInt.toNat.factorial % 2 ^ 32 else 1) ∧
      t.gpr 1#5 = s.gpr 1#5 ∧ t.gpr 30#5 = s.gpr 30#5 ∧ t.gpr 31#5 = s.gpr 31#5 ∧
      ∀ x : BitVec 32, ¬((s.gpr 1#5).toNat - 96 * ((s.gpr 3#5).toInt.toNat + 1) ≤ x.toNat ∧
          x.toNat < (s.gpr 1#5).toNat) →
        ¬((s.gpr 1#5).toNat + 8 ≤ x.toNat ∧ x.toNat < (s.gpr 1#5).toNat + 12) →
        ¬((s.gpr 1#5).toNat + 24 ≤ x.toNat ∧ x.toNat < (s.gpr 1#5).toNat + 28) →
        t.mem x = s.mem x := by
  generalize hd : (s.gpr 3#5).toInt.toNat = d at *
  have hfp : (s.gpr 1#5 - 96#32).toNat = (s.gpr 1#5).toNat - 96 := by bv_omega
  have hroom : Room A (s.gpr 1#5 - 96#32) d := by
    refine ⟨by omega, by omega, fun x hx ↦ ?_⟩
    have := hapart x hx
    omega
  have h : At A 0 s := ⟨hcode, by simp [hpc]⟩
  obtain ⟨t, hreach, ht⟩ :=
    factorial_run d hA h (BitVec.sub_add_cancel _ _).symm (aligned_sub hsp) hL hd hroom
  refine ⟨t, hreach, ht.pc, ?_, ?_, ht.sp, ht.saved30, ht.saved31, fun x h1 h2 h3 ↦ ht.mem x ?_⟩
  · rw [ht.result, factorial_eq, hd]
  · rw [ht.result, BitVec.toNat_ofNat]
    split_ifs with hn
    · rfl
    · obtain rfl : d = 0 := by omega
      rfl
  · rw [Touched, hfp]
    omega

/-- The guest as `main` sets it up: pages of 4096 bytes, the text in the second and the stack in the
third, which ends in a Red Zone of 224 bytes. -/
def demoGuest : State :=
  initGuestText_Factorial 0x1000 0x1000
    { pc := 0x1000, lr := 0, gpr := Function.update (fun _ ↦ 0) 1 (0x3000 - 224)
      cr := fun _ ↦ false, so := false, mem := fun _ ↦ 0 }

/-- The demo computes the factorial of ten. -/
theorem factorial_ppc32_demo :
    ∃ t, Reaches demoGuest t ∧ t.pc = 0x1ffc ∧ t.gpr 3#5 = 3628800#32 := by
  have h3 : (demoGuest.gpr 3#5).toInt.toNat = 10 := by decide
  have h1 : (demoGuest.gpr 1#5).toNat = 0x2f20 := by decide
  obtain ⟨t, hreach, hpc, -, h, -⟩ := factorial_ppc32_implements demoGuest 0x1000
    (codeAt_initGuestText_Factorial _ _ _) rfl (by decide) (by decide) (by decide)
    (by rw [h3, h1]; decide) (by rw [h1]; decide) (fun x hx ↦ by rw [h1]; bv_omega)
  refine ⟨t, hreach, hpc, BitVec.eq_of_toNat_eq ?_⟩
  rw [h, if_pos (by decide), h3]
  rfl

end Vmachmon
end MacOSXInternal
