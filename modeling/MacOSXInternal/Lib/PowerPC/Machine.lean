import Mathlib.Logic.Function.Basic
import Mathlib.Logic.Relation
import MacOSXInternal.Lib.Memory
import MacOSXInternal.Lib.PowerPC.Instruction

/-!
# A PowerPC machine

The user-level state that the instructions of `PowerPC.Instr` read and write, what each of them
does, and programs that lie in memory.

* `exec` is one instruction; it is `none` where the hardware would take an interrupt.
* `step` fetches, decodes and executes.
* `CodeAt` says that a list of words lies in memory at an address, and `CodeAt.step` that a machine
  whose program counter points at one of them executes that one.
* `Reaches` is any number of steps.
-/

set_option autoImplicit false

namespace PowerPC

/-- The machine. -/
structure State where
  pc : BitVec 32
  lr : BitVec 32
  gpr : Reg → BitVec 32
  /-- The condition register, by bit number. -/
  cr : BitVec 5 → Bool
  /-- The summary-overflow bit. -/
  so : Bool
  mem : Memory

namespace State

variable (s : State)

/-- Assign to a register. -/
def set (r : Reg) (x : BitVec 32) : State := { s with gpr := Function.update s.gpr r x }

/-- On to the next instruction. -/
def next : State := { s with pc := s.pc + 4 }

/-- The effective address of a load or store with displacement. -/
def ea (ra : Reg) (d : BitVec 16) : BitVec 32 := (if ra = 0 then 0 else s.gpr ra) + d.signExtend 32

/-- A word of memory replaced. -/
def store (a x : BitVec 32) : State := { s with mem := s.mem.storeWord a x }

/-- The condition field `bf`, set to the outcome of a signed comparison. -/
def compare (bf : BitVec 3) (x y : BitVec 32) : State :=
  { s with cr := fun i ↦
      if i = bf ++ 0#2 then x.slt y
      else if i = bf ++ 1#2 then y.slt x
      else if i = bf ++ 2#2 then x = y
      else if i = bf ++ 3#2 then s.so
      else s.cr i }

/-- A jump, and the link. -/
def jump (lk : Bool) (target : BitVec 32) : State :=
  { s with
    pc := target
    lr := if lk then s.pc + 4 else s.lr }

/-! What the updates change. -/

section
variable (r : Reg) (x a : BitVec 32) (lk : Bool) (bf : BitVec 3) (y : BitVec 32)

@[simp] theorem set_pc : (s.set r x).pc = s.pc := rfl
@[simp] theorem set_lr : (s.set r x).lr = s.lr := rfl
@[simp] theorem set_gpr : (s.set r x).gpr = Function.update s.gpr r x := rfl
@[simp] theorem set_cr : (s.set r x).cr = s.cr := rfl
@[simp] theorem set_mem : (s.set r x).mem = s.mem := rfl

@[simp] theorem next_pc : s.next.pc = s.pc + 4 := rfl
@[simp] theorem next_lr : s.next.lr = s.lr := rfl
@[simp] theorem next_gpr : s.next.gpr = s.gpr := rfl
@[simp] theorem next_cr : s.next.cr = s.cr := rfl
@[simp] theorem next_mem : s.next.mem = s.mem := rfl

@[simp] theorem store_pc : (s.store a x).pc = s.pc := rfl
@[simp] theorem store_lr : (s.store a x).lr = s.lr := rfl
@[simp] theorem store_gpr : (s.store a x).gpr = s.gpr := rfl
@[simp] theorem store_cr : (s.store a x).cr = s.cr := rfl
@[simp] theorem store_mem : (s.store a x).mem = s.mem.storeWord a x := rfl

@[simp] theorem compare_pc : (s.compare bf x y).pc = s.pc := rfl
@[simp] theorem compare_lr : (s.compare bf x y).lr = s.lr := rfl
@[simp] theorem compare_gpr : (s.compare bf x y).gpr = s.gpr := rfl
@[simp] theorem compare_mem : (s.compare bf x y).mem = s.mem := rfl

@[simp] theorem jump_pc : (s.jump lk a).pc = a := rfl
@[simp] theorem jump_lr : (s.jump lk a).lr = if lk then s.pc + 4 else s.lr := rfl
@[simp] theorem jump_gpr : (s.jump lk a).gpr = s.gpr := rfl
@[simp] theorem jump_cr : (s.jump lk a).cr = s.cr := rfl
@[simp] theorem jump_mem : (s.jump lk a).mem = s.mem := rfl

end

end State

/-- Whether a branch that does not count is taken. -/
def taken (bo bi : BitVec 5) (s : State) : Bool :=
  if bo = 12 then s.cr bi else if bo = 4 then !s.cr bi else true

/-- The registers from `r` on. -/
def regsFrom (r : Reg) : List Reg := (List.range (32 - r.toNat)).map fun i ↦ r + BitVec.ofNat 5 i

/-- Word-aligned. -/
def Aligned (a : BitVec 32) : Prop := a.extractLsb' 0 2 = 0#2

instance (a : BitVec 32) : Decidable (Aligned a) := inferInstanceAs (Decidable (_ = _))

theorem aligned_iff {a : BitVec 32} : Aligned a ↔ a.toNat % 4 = 0 := by
  rw [Aligned, ← BitVec.toNat_inj, BitVec.extractLsb'_toNat]
  rfl

theorem aligned_add {a k : BitVec 32} (hk : Aligned k) : Aligned (a + k) ↔ Aligned a := by
  rw [Aligned, ← BitVec.setWidth_eq_extractLsb' (by decide)] at *
  rw [Aligned, ← BitVec.setWidth_eq_extractLsb' (by decide), BitVec.setWidth_add _ _ (by decide),
    hk, BitVec.add_zero]

/-- Words at different aligned addresses do not overlap. -/
theorem Aligned.apart {a b : BitVec 32} (ha : Aligned a) (hb : Aligned b) (h : a ≠ b) :
    4 ≤ (a - b).toNat ∧ (a - b).toNat ≤ 2 ^ 32 - 4 := by
  rw [aligned_iff] at ha hb
  bv_omega

/-- What a branch to a register does with the two low-order bits. -/
def trim (a : BitVec 32) : BitVec 32 := a.extractLsb' 2 30 ++ 0#2

theorem Aligned.trim_eq {a : BitVec 32} (h : Aligned a) : trim a = a := by
  rw [trim, ← h]
  exact BitVec.extractLsb'_append_extractLsb'

theorem toNat_trim (a : BitVec 32) : (trim a).toNat = a.toNat / 4 * 4 := by
  have hlt := a.isLt
  rw [trim, BitVec.toNat_append, BitVec.extractLsb'_toNat, Nat.shiftRight_eq_div_pow]
  simp [Nat.shiftLeft_eq]
  omega

theorem aligned_trim (a : BitVec 32) : Aligned (trim a) := by
  rw [aligned_iff, toNat_trim]
  omega

theorem trim_ushiftRight (a : BitVec 32) : trim a >>> 2 = a >>> 2 := by
  refine BitVec.eq_of_toNat_eq ?_
  rw [BitVec.toNat_ushiftRight, toNat_trim, BitVec.toNat_ushiftRight, Nat.shiftRight_eq_div_pow,
    Nat.shiftRight_eq_div_pow]
  omega

/-- One instruction. -/
def exec (i : Instr) (s : State) : Option State :=
  match i with
  | .addi rt ra si => some (s.set rt (s.ea ra si)).next
  | .lwz rt ra d => some (s.set rt (s.mem.loadWord (s.ea ra d))).next
  | .stw rs ra d => some (s.store (s.ea ra d) (s.gpr rs)).next
  | .stwu rs ra d => some ((s.store (s.ea ra d) (s.gpr rs)).set ra (s.ea ra d)).next
  | .lmw rt ra d =>
    if Aligned (s.ea ra d) then
      some (((regsFrom rt).zipIdx.foldl
        (fun t (r, k) ↦ t.set r (s.mem.loadWord (s.ea ra d + BitVec.ofNat 32 (4 * k)))) s)).next
    else none
  | .stmw rs ra d =>
    if Aligned (s.ea ra d) then
      some (((regsFrom rs).zipIdx.foldl
        (fun t (r, k) ↦ t.store (s.ea ra d + BitVec.ofNat 32 (4 * k)) (s.gpr r)) s)).next
    else none
  | .cmpwi bf ra si => some (s.compare bf (s.gpr ra) (si.signExtend 32)).next
  | .or ra rs rb => some (s.set ra (s.gpr rs ||| s.gpr rb)).next
  | .mullw rt ra rb => some (s.set rt (s.gpr ra * s.gpr rb)).next
  | .mflr rt => some (s.set rt s.lr).next
  | .mtlr rs => some ({ s with lr := s.gpr rs }).next
  | .b li aa lk =>
    some (s.jump lk ((if aa then 0 else s.pc) + (li ++ 0#2).signExtend 32))
  | .bc bo bi bd aa lk =>
    some (if taken bo bi s then s.jump lk ((if aa then 0 else s.pc) + (bd ++ 0#2).signExtend 32)
      else s.next)
  | .bclr bo bi lk =>
    some (if taken bo bi s then s.jump lk (trim s.lr) else s.next)

/-- Fetch, decode, execute. -/
def step (s : State) : Option State := (decode (s.mem.loadWord s.pc)).bind (exec · s)

/-- Any number of steps. -/
def Reaches : State → State → Prop := Relation.ReflTransGen fun s t ↦ step s = some t

/-- The words `code` lie in memory from `a` on. -/
def CodeAt (m : Memory) (a : BitVec 32) (code : List (BitVec 32)) : Prop :=
  ∀ (i : ℕ) (w : BitVec 32), code[i]? = some w → m.loadWord (a + BitVec.ofNat 32 (4 * i)) = w

theorem codeAt_storeWords {m : Memory} {a : BitVec 32} {code : List (BitVec 32)}
    (hlen : 4 * code.length ≤ 2 ^ 32) : CodeAt (m.storeWords a code) a code :=
  fun _ _ h ↦ Memory.loadWord_storeWords code hlen h

/-- A machine that points at a word of the code executes what the word means. -/
theorem CodeAt.step {s : State} {a : BitVec 32} {code : List (BitVec 32)} {prog : List Instr}
    {i : ℕ} {ins : Instr} (h : CodeAt s.mem a code) (hprog : code.map decode = prog.map some)
    (hpc : s.pc = a + BitVec.ofNat 32 (4 * i)) (hi : prog[i]? = some ins) :
    step s = exec ins s := by
  have hd : (code.map decode)[i]? = some (some ins) := by rw [hprog, List.getElem?_map, hi]; rfl
  rw [List.getElem?_map, Option.map_eq_some_iff] at hd
  obtain ⟨w, hw, hd⟩ := hd
  rw [PowerPC.step, hpc, h i w hw, hd, Option.bind_some]

/-- A store into something else leaves code alone. -/
theorem CodeAt.congr {m m' : Memory} {a : BitVec 32} {code : List (BitVec 32)}
    (h : CodeAt m a code)
    (hm : ∀ x, (x - a).toNat < 4 * code.length → m' x = m x) (hlen : 4 * code.length ≤ 2 ^ 32) :
    CodeAt m' a code := by
  intro i w hw
  have hi := (List.getElem?_eq_some_iff.mp hw).1
  rw [← h i w hw]
  refine Memory.loadWord_congr fun x hx ↦ hm x ?_
  bv_omega

end PowerPC
