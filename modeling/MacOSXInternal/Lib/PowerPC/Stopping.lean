import MacOSXInternal.Lib.PowerPC.Machine

/-!
# Running until an illegal instruction

A machine that executes `add` besides the instructions of `Lib.PowerPC.Instruction`, and how far it
gets before it takes an interrupt.

* `Code` are the instructions, `decodeCode` tries the XO form of `add` first, and `stepCode`
  fetches, decodes and executes.
* `StopsAt` says that the machine ends up in a state in which it can go no further.  There is no
  more than one (`StopsAt.unique`).
* `StopsAt.of_reaches` takes over what is known about the smaller machine.
-/

set_option autoImplicit false

namespace PowerPC

/-- An instruction. -/
inductive Code
  | plain (i : Instr)
  | add (rt ra rb : Reg)
  deriving DecidableEq, Repr

/-- The XO form of `add` that sets no condition bits. -/
def isAdd (w : BitVec 32) : Bool := opcd w = 31 ∧ (xo w).toNat = 266 ∧ fieldLK w = false

def decodeCode (w : BitVec 32) : Option Code :=
  if isAdd w then some (.add (field6 w) (field11 w) (field16 w)) else (decode w).map .plain

/-- One instruction. -/
def execCode : Code → State → Option State
  | .plain i, s => exec i s
  | .add rt ra rb, s => some (s.set rt (s.gpr ra + s.gpr rb)).next

/-- Fetch, decode, execute. -/
def stepCode (s : State) : Option State :=
  (decodeCode (s.mem.loadWord s.pc)).bind (execCode · s)

/-- The machine gets from `s` to `t`, and no further. -/
structure StopsAt (s t : State) : Prop where
  reaches : Relation.ReflTransGen (fun s t ↦ stepCode s = some t) s t
  stuck : stepCode t = none

variable {s t u : State} {w : BitVec 32}

theorem decode_of_isAdd (h : isAdd w) : decode w = none := by
  simp only [isAdd, decide_eq_true_eq] at h
  obtain ⟨hop, hxo, hlk⟩ := h
  have hop' : (opcd w).toNat = 31 := by rw [hop]; rfl
  simp only [decode, hop', hxo, hlk]
  rfl

theorem decodeCode_of_decode {i : Instr} (h : decode w = some i) :
    decodeCode w = some (.plain i) := by
  have hadd : ¬isAdd w := by
    intro hadd
    rw [decode_of_isAdd hadd] at h
    cases h
  rw [decodeCode, if_neg hadd, h, Option.map_some]

theorem stepCode_of_step (h : step s = some t) : stepCode s = some t := by
  rw [step, Option.bind_eq_some_iff] at h
  obtain ⟨i, hi, hexec⟩ := h
  rw [stepCode, decodeCode_of_decode hi, Option.bind_some]
  exact hexec

theorem StopsAt.refl (h : stepCode s = none) : StopsAt s s := ⟨.refl, h⟩

theorem StopsAt.head (h : stepCode s = some t) (ht : StopsAt t u) : StopsAt s u :=
  ⟨.head h ht.reaches, ht.stuck⟩

theorem StopsAt.of_reaches (h : Reaches s t) (ht : StopsAt t u) : StopsAt s u :=
  ⟨(Relation.ReflTransGen.mono (fun _ _ ↦ stepCode_of_step) _ _ h).trans ht.reaches, ht.stuck⟩

/-- **A machine stops in one state only.** -/
theorem StopsAt.unique (ht : StopsAt s t) (hu : StopsAt s u) : t = u := by
  obtain ⟨hreach, hstuck⟩ := ht
  induction hreach using Relation.ReflTransGen.head_induction_on with
  | refl =>
    obtain heq | ⟨v, hv, -⟩ := hu.reaches.cases_head
    · exact heq
    · rw [hstuck] at hv
      cases hv
  | head hstep _ ih =>
    refine ih ⟨?_, hu.stuck⟩
    obtain rfl | ⟨v, hv, hreach⟩ := hu.reaches.cases_head
    · rw [hu.stuck] at hstep
      cases hstep
    · rw [hstep, Option.some_inj] at hv
      rwa [hv]

/-- The machine points at a word of the code. -/
theorem CodeAt.stepCode {a : BitVec 32} {code : List (BitVec 32)} {i : ℕ}
    (h : CodeAt s.mem a code) (hpc : s.pc = a + BitVec.ofNat 32 (4 * i)) (hi : code[i]? = some w) :
    stepCode s = (decodeCode w).bind (execCode · s) := by
  rw [PowerPC.stepCode, hpc, h i w hi]

end PowerPC
