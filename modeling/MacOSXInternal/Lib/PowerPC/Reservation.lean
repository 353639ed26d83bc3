import MacOSXInternal.Lib.Memory
import MacOSXInternal.Lib.Runs
import MacOSXInternal.Lib.PowerPC.Machine

/-!
# Load and reserve, store conditional

A processor that shares its memory with others, and the instructions that an atomic update is made
of.  `lwarx` loads a word and sets a reservation on its address; `stwcx.` stores if a reservation is
held, and clears it.  A reservation is lost when another processor writes to its address, and it may
be lost at any other time.

* `execute` is one instruction.  A store that could be performed need not be.
* `Step` is a step of the processor, a write of another one, or a loss.
* `Own` is a step of its own: `Own.eq`, `Own.lwarx` and `Own.stwcx` are what an instruction can do.
* `Foreign` is what the steps that are not the processor's own leave alone: all of its registers,
  and, while a reservation is held, the word it is on.
* `stores` lists what the processor itself has written in a run.

Memory accesses are to aligned words.
-/

set_option autoImplicit false

namespace PowerPC
namespace Reservation

open Runs

/-! ## The processor -/

/-- The instructions.  A branch has the number of the instruction it leads to. -/
inductive Instr
  | mr (ra rs : Reg)
  | li (rt : Reg) (si : BitVec 16)
  /-- `cmplw cr0,ra,rb`. -/
  | cmplw (ra rb : Reg)
  /-- `bne cr0,target`. -/
  | bne (target : ℕ)
  | lwarx (rt ra rb : Reg)
  | stwcx (rs ra rb : Reg)
  | isync
  | blr
  deriving DecidableEq, Repr

/-- The processor.  `pc` is the number of the next instruction, and none after the return. -/
structure Processor where
  pc : Option ℕ
  gpr : Reg → BitVec 32
  /-- The bit `EQ` of the condition field `cr0`. -/
  eq : Bool
  reservation : Option (BitVec 32)
  mem : Memory

/-- What happens in a step. -/
inductive Label
  /-- An instruction that does not store. -/
  | exec
  | store (a x : BitVec 32)
  /-- Another processor writes. -/
  | write (a x : BitVec 32)
  /-- The reservation is lost. -/
  | lost
  deriving DecidableEq, Repr

namespace Processor

variable (s : Processor)

def set (r : Reg) (x : BitVec 32) : Processor := { s with gpr := Function.update s.gpr r x }
def next : Processor := { s with pc := s.pc.map (· + 1) }
def goto (n : ℕ) : Processor := { s with pc := some n }
def ret : Processor := { s with pc := none }
def test (b : Bool) : Processor := { s with eq := b }
def reserve (a : Option (BitVec 32)) : Processor := { s with reservation := a }
def put (a x : BitVec 32) : Processor := { s with mem := s.mem.storeWord a x }

/-- The effective address. -/
def ea (ra rb : Reg) : BitVec 32 := (if ra = 0 then 0 else s.gpr ra) + s.gpr rb

section
variable (r : Reg) (a x : BitVec 32) (n : ℕ) (b : Bool) (o : Option (BitVec 32))

@[simp] theorem set_pc : (s.set r x).pc = s.pc := rfl
@[simp] theorem set_gpr : (s.set r x).gpr = Function.update s.gpr r x := rfl
@[simp] theorem set_eq : (s.set r x).eq = s.eq := rfl
@[simp] theorem set_reservation : (s.set r x).reservation = s.reservation := rfl
@[simp] theorem set_mem : (s.set r x).mem = s.mem := rfl

@[simp] theorem next_pc : s.next.pc = s.pc.map (· + 1) := rfl
@[simp] theorem next_gpr : s.next.gpr = s.gpr := rfl
@[simp] theorem next_eq : s.next.eq = s.eq := rfl
@[simp] theorem next_reservation : s.next.reservation = s.reservation := rfl
@[simp] theorem next_mem : s.next.mem = s.mem := rfl

@[simp] theorem goto_pc : (s.goto n).pc = some n := rfl
@[simp] theorem goto_gpr : (s.goto n).gpr = s.gpr := rfl
@[simp] theorem goto_eq : (s.goto n).eq = s.eq := rfl
@[simp] theorem goto_reservation : (s.goto n).reservation = s.reservation := rfl
@[simp] theorem goto_mem : (s.goto n).mem = s.mem := rfl

@[simp] theorem ret_pc : s.ret.pc = none := rfl
@[simp] theorem ret_gpr : s.ret.gpr = s.gpr := rfl
@[simp] theorem ret_reservation : s.ret.reservation = s.reservation := rfl

@[simp] theorem test_pc : (s.test b).pc = s.pc := rfl
@[simp] theorem test_gpr : (s.test b).gpr = s.gpr := rfl
@[simp] theorem test_eq : (s.test b).eq = b := rfl
@[simp] theorem test_reservation : (s.test b).reservation = s.reservation := rfl
@[simp] theorem test_mem : (s.test b).mem = s.mem := rfl

@[simp] theorem reserve_pc : (s.reserve o).pc = s.pc := rfl
@[simp] theorem reserve_gpr : (s.reserve o).gpr = s.gpr := rfl
@[simp] theorem reserve_reservation : (s.reserve o).reservation = o := rfl
@[simp] theorem reserve_mem : (s.reserve o).mem = s.mem := rfl

@[simp] theorem put_pc : (s.put a x).pc = s.pc := rfl
@[simp] theorem put_gpr : (s.put a x).gpr = s.gpr := rfl
@[simp] theorem put_reservation : (s.put a x).reservation = s.reservation := rfl
@[simp] theorem put_mem : (s.put a x).mem = s.mem.storeWord a x := rfl

end

end Processor

/-- One instruction.  `stores` is whether a store that could be performed is performed.  Nothing
happens at an address that is not aligned. -/
def execute (i : Instr) (stores : Bool) (s : Processor) : Option (Label × Processor) :=
  match i with
  | .mr ra rs => some (.exec, (s.set ra (s.gpr rs)).next)
  | .li rt si => some (.exec, (s.set rt (si.signExtend 32)).next)
  | .cmplw ra rb => some (.exec, (s.test (s.gpr ra = s.gpr rb)).next)
  | .bne target => some (.exec, if s.eq then s.next else s.goto target)
  | .lwarx rt ra rb =>
    let a := s.ea ra rb
    if Aligned a then some (.exec, ((s.set rt (s.mem.loadWord a)).reserve (some a)).next) else none
  | .stwcx rs ra rb =>
    let a := s.ea ra rb
    if Aligned a then
      if s.reservation.isSome ∧ stores then
        some (.store a (s.gpr rs), (((s.put a (s.gpr rs)).reserve none).test true).next)
      else some (.exec, ((s.reserve none).test false).next)
    else none
  | .isync => some (.exec, s.next)
  | .blr => some (.exec, s.ret)

section
variable {s : Processor} {ra rb rt rs : Reg} {b : Bool}

theorem execute_bne_of_eq (target : ℕ) (h : s.eq = true) :
    execute (.bne target) b s = some (.exec, s.next) := by
  rw [execute, if_pos h]

theorem execute_lwarx (h : Aligned (s.ea ra rb)) :
    execute (.lwarx rt ra rb) b s = some (.exec,
      ((s.set rt (s.mem.loadWord (s.ea ra rb))).reserve (some (s.ea ra rb))).next) :=
  if_pos h

theorem execute_stwcx (h : Aligned (s.ea ra rb)) (hres : s.reservation.isSome) :
    execute (.stwcx rs ra rb) true s = some (.store (s.ea ra rb) (s.gpr rs),
      (((s.put (s.ea ra rb) (s.gpr rs)).reserve none).test true).next) := by
  rw [execute, if_pos h, if_pos ⟨hres, rfl⟩]

end

/-- One step. -/
inductive Step (code : List Instr) : Processor → Label → Processor → Prop
  | own {s t : Processor} {n : ℕ} {i : Instr} {a : Label} (stores : Bool) (hpc : s.pc = some n)
      (hi : code[n]? = some i) (h : execute i stores s = some (a, t)) : Step code s a t
  | write (s : Processor) {a : BitVec 32} (x : BitVec 32) (ha : Aligned a) :
      Step code s (.write a x)
        ((s.put a x).reserve (if s.reservation = some a then none else s.reservation))
  | lost (s : Processor) : Step code s .lost (s.reserve none)

/-- What the processor has written. -/
def stores (l : List Label) : List (BitVec 32 × BitVec 32) :=
  l.filterMap fun
    | .store a x => some (a, x)
    | _ => none

@[simp] theorem stores_nil : stores [] = [] := rfl

@[simp] theorem stores_exec (l : List Label) : stores (l ++ [.exec]) = stores l := by
  simp [stores]

@[simp] theorem stores_store (l : List Label) (a x : BitVec 32) :
    stores (l ++ [.store a x]) = stores l ++ [(a, x)] := by
  simp [stores]

/-! ## The steps of others -/

/-- What a step that is not the processor's own leaves alone. -/
structure Foreign (s t : Processor) : Prop where
  pc : t.pc = s.pc
  gpr : t.gpr = s.gpr
  eq : t.eq = s.eq
  reservation : ∀ a, t.reservation = some a → s.reservation = some a
  word : ∀ a, Aligned a → t.reservation = some a → t.mem.loadWord a = s.mem.loadWord a

theorem Foreign.write (s : Processor) {a : BitVec 32} (x : BitVec 32) (ha : Aligned a) :
    Foreign s ((s.put a x).reserve (if s.reservation = some a then none else s.reservation)) := by
  refine ⟨rfl, rfl, rfl, fun b hb ↦ ?_, fun b hb hres ↦ ?_⟩
  · rw [Processor.reserve_reservation] at hb
    split at hb
    · cases hb
    · exact hb
  · rw [Processor.reserve_reservation] at hres
    split at hres
    · cases hres
    · rename_i hne
      have hba : b ≠ a := fun h ↦ hne (h ▸ hres)
      obtain ⟨hlow, hhigh⟩ := hb.apart ha hba
      exact Memory.loadWord_storeWord_of_apart x hlow hhigh

theorem Foreign.lost (s : Processor) : Foreign s (s.reserve none) :=
  ⟨rfl, rfl, rfl, nofun, nofun⟩

/-- A step of the processor: it executes the instruction that `pc` is the number of. -/
structure Own (code : List Instr) (s : Processor) (a : Label) (t : Processor) : Prop where
  running : s.pc ≠ none
  execute : ∀ n i, s.pc = some n → code[n]? = some i → ∃ b, execute i b s = some (a, t)

/-- A step is the processor's own or leaves it alone. -/
theorem Step.cases {code : List Instr} {s t : Processor} {a : Label} (h : Step code s a t) :
    Own code s a t ∨ (Foreign s t ∧ ∀ l, stores (l ++ [a]) = stores l) := by
  cases h with
  | own b hpc hi h =>
    refine .inl ⟨by simp [hpc], fun m j hm hj ↦ ⟨b, ?_⟩⟩
    obtain rfl := Option.some.inj (hpc.symm.trans hm)
    obtain rfl := Option.some.inj (hi.symm.trans hj)
    exact h
  | write x ha => exact .inr ⟨.write s x ha, fun l ↦ by simp [stores]⟩
  | lost => exact .inr ⟨.lost s, fun l ↦ by simp [stores]⟩

section
variable {code : List Instr} {s t t' : Processor} {a a' : Label} {n : ℕ} {ra rb rs rt : Reg}

/-- An instruction that does the same whether a store is performed or not. -/
theorem Own.eq {i : Instr} (h : Own code s a t) (hpc : s.pc = some n) (hi : code[n]? = some i)
    (he : ∀ b, Reservation.execute i b s = some (a', t')) : a' = a ∧ t' = t := by
  obtain ⟨b, hb⟩ := h.execute n i hpc hi
  exact Prod.mk.inj (Option.some.inj ((he b).symm.trans hb))

theorem Own.lwarx (h : Own code s a t) (hpc : s.pc = some n)
    (hi : code[n]? = some (.lwarx rt ra rb)) :
    Aligned (s.ea ra rb) ∧ a = .exec ∧
      t = ((s.set rt (s.mem.loadWord (s.ea ra rb))).reserve (some (s.ea ra rb))).next := by
  obtain ⟨b, hb⟩ := h.execute n _ hpc hi
  rw [Reservation.execute] at hb
  obtain ⟨hal, heq⟩ := Option.ite_none_right_eq_some.mp hb
  obtain ⟨rfl, rfl⟩ := Prod.mk.inj (Option.some.inj heq)
  exact ⟨hal, rfl, rfl⟩

/-- A conditional store is performed, or it is not. -/
theorem Own.stwcx (h : Own code s a t) (hpc : s.pc = some n)
    (hi : code[n]? = some (.stwcx rs ra rb)) :
    Aligned (s.ea ra rb) ∧
      ((s.reservation.isSome ∧ a = .store (s.ea ra rb) (s.gpr rs) ∧
          t = (((s.put (s.ea ra rb) (s.gpr rs)).reserve none).test true).next) ∨
        (a = .exec ∧ t = ((s.reserve none).test false).next)) := by
  obtain ⟨b, hb⟩ := h.execute n _ hpc hi
  rw [Reservation.execute] at hb
  obtain ⟨hal, heq⟩ := Option.ite_none_right_eq_some.mp hb
  refine ⟨hal, ?_⟩
  split at heq
  case isTrue hstores =>
    obtain ⟨rfl, rfl⟩ := Prod.mk.inj (Option.some.inj heq)
    exact .inl ⟨hstores.1, rfl, rfl⟩
  case isFalse =>
    obtain ⟨rfl, rfl⟩ := Prod.mk.inj (Option.some.inj heq)
    exact .inr ⟨rfl, rfl⟩

end

end Reservation
end PowerPC
