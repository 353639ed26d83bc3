import MacOSXInternal.Lib.PowerPC.Machine

/-!
# Branches, and code that was moved

The unconditional branch as a bit pattern, where it goes, and what happens to an instruction that is
executed somewhere else.

`exec` knows a dozen instructions.  What a moved instruction does must be said of all of them, so
the second half of this file is about any `Isa`: a machine of which nothing is known but that it
fetches from its memory, and what an unconditional branch does to it.

* `branchTarget` is where the branch at an address goes, if a non-linking branch is what lies there.
* `branchTarget_absolute_iff` is the range of the absolute form: an address survives the 24-bit
  field and the sign extension if and only if it is below `2 ^ 25`, or among the topmost `2 ^ 25`.
* `Isa.NotRelative` says that an instruction does not look at the address it is executed at.
* `Isa.stub_reaches`: such an instruction, moved away and followed by a branch to the one behind its
  old place, ends in the state that it would have led to there.
* `State.isa` is the machine of `exec`; all its instructions but the branches are not relative.
-/

set_option autoImplicit false

namespace PowerPC

/-! ## The target of a branch -/

/-- Where the non-linking unconditional branch `w` at address `a` goes. -/
def branchTarget (a w : BitVec 32) : Option (BitVec 32) :=
  match decode w with
  | some (.b li aa false) => some ((if aa then 0 else a) + (li ++ 0#2).signExtend 32)
  | _ => none

/-- The branch to an absolute address, by its field. -/
def absolute (li : BitVec 24) : BitVec 32 := 18#6 ++ li ++ 1#1 ++ 0#1

theorem toNat_absolute (li : BitVec 24) :
    (absolute li).toNat = 18 * 2 ^ 26 + 4 * li.toNat + 2 := by
  rw [absolute, BitVec.toNat_append, ← Nat.shiftLeft_add_eq_or_of_lt (BitVec.isLt _),
    BitVec.toNat_append, ← Nat.shiftLeft_add_eq_or_of_lt (BitVec.isLt _),
    BitVec.toNat_append, ← Nat.shiftLeft_add_eq_or_of_lt (BitVec.isLt _)]
  simp only [Nat.shiftLeft_eq, BitVec.toNat_ofNat]
  omega

theorem decode_absolute (li : BitVec 24) : decode (absolute li) = some (.b li true false) := by
  have hw := toNat_absolute li
  have hli := li.isLt
  generalize absolute li = w at hw
  have ho : opcd w = 18#6 := by
    refine BitVec.eq_of_toNat_eq ?_
    rw [opcd, BitVec.extractLsb'_toNat, hw, Nat.shiftRight_eq_div_pow, BitVec.toNat_ofNat]
    omega
  have hl : fieldLI w = li := by
    refine BitVec.eq_of_toNat_eq ?_
    rw [fieldLI, BitVec.extractLsb'_toNat, hw, Nat.shiftRight_eq_div_pow]
    omega
  have ha : fieldAA w = true := by
    rw [fieldAA, BitVec.getLsbD, hw, Nat.testBit_eq_decide_div_mod_eq, decide_eq_true_iff]
    omega
  have hk : fieldLK w = false := by
    rw [fieldLK, BitVec.getLsbD, hw, Nat.testBit_eq_decide_div_mod_eq, decide_eq_false_iff_not]
    omega
  rw [decode, ho, hl, ha, hk]
  rfl

theorem branchTarget_absolute (a : BitVec 32) (li : BitVec 24) :
    branchTarget a (absolute li) = some ((li ++ 0#2).signExtend 32) := by
  rw [branchTarget, decode_absolute]
  simp

/-- **The range of an absolute branch.**  What is cut from a word address comes back as copies of
the sign. -/
theorem branchTarget_absolute_iff {a x : BitVec 32} (h : Aligned x) :
    branchTarget a (absolute ((x >>> 2).setWidth 24)) = some x ↔
      x.toNat < 2 ^ 25 ∨ 2 ^ 32 - 2 ^ 25 ≤ x.toNat := by
  rw [aligned_iff] at h
  have hy : ((x >>> 2).setWidth 24 ++ 0#2).toNat = x.toNat % 2 ^ 26 := by
    rw [BitVec.toNat_append]
    simp [Nat.shiftRight_eq_div_pow, Nat.shiftLeft_eq]
    omega
  have hlt := x.isLt
  rw [branchTarget_absolute, Option.some_inj, ← BitVec.toNat_inj, BitVec.toNat_signExtend,
    BitVec.msb_eq_decide, BitVec.toNat_setWidth, hy]
  simp only [decide_eq_true_eq]
  split_ifs <;> omega

/-- The same range, for an address whose two lowest bits the branch drops. -/
theorem branchTarget_trim_iff {a x : BitVec 32} :
    branchTarget a (absolute ((x >>> 2).setWidth 24)) = some (trim x) ↔
      x.toNat < 2 ^ 25 ∨ 2 ^ 32 - 2 ^ 25 ≤ x.toNat := by
  rw [← trim_ushiftRight, branchTarget_absolute_iff (aligned_trim x), toNat_trim]
  omega

/-! ## Any machine of the architecture -/

/-- A machine that has a program counter and memory, and executes words.  An unconditional branch is
the one word it is known what it does. -/
structure Isa (σ : Type) where
  pc : σ → BitVec 32
  mem : σ → Memory
  /-- The same state at another program counter. -/
  goto : BitVec 32 → σ → σ
  exec : BitVec 32 → σ → Option σ
  pc_goto (a : BitVec 32) (s : σ) : pc (goto a s) = a
  mem_goto (a : BitVec 32) (s : σ) : mem (goto a s) = mem s
  goto_goto (a b : BitVec 32) (s : σ) : goto a (goto b s) = goto a s
  goto_pc (s : σ) : goto (pc s) s = s
  exec_branch {w a : BitVec 32} {s : σ} (h : branchTarget (pc s) w = some a) :
    exec w s = some (goto a s)

namespace Isa

variable {σ : Type} (M : Isa σ)

/-- Fetch and execute. -/
def step (s : σ) : Option σ := M.exec ((M.mem s).loadWord (M.pc s)) s

/-- Any number of steps. -/
def Reaches : σ → σ → Prop := Relation.ReflTransGen fun s t ↦ M.step s = some t

/-- Whatever the instruction `w` does, it does it everywhere: having gone on to the next instruction
it goes on to the next wherever it is, and having jumped it jumps to the same place. -/
def NotRelative (w : BitVec 32) : Prop :=
  ∀ s t, M.exec w s = some t → ∀ a,
    (M.pc t = M.pc s + 4 ∧ M.exec w (M.goto a s) = some (M.goto (a + 4) t)) ∨
      M.exec w (M.goto a s) = some t

variable {M}

/-- **An instruction moved to `stub` and followed by a branch back** does what it did at its old
place `orig`. -/
theorem stub_reaches {s t : σ} {orig stub w : BitVec 32} (hrel : M.NotRelative w)
    (ht : M.exec w (M.goto orig s) = some t) (hw : (M.mem s).loadWord stub = w)
    (hb : branchTarget (stub + 4) ((M.mem t).loadWord (stub + 4)) = some (orig + 4)) :
    M.Reaches (M.goto stub s) t := by
  have hstep : M.step (M.goto stub s) = M.exec w (M.goto stub s) := by
    rw [step, M.mem_goto, M.pc_goto, hw]
  have hrel := hrel _ _ ht stub
  rw [M.goto_goto, M.pc_goto, ← hstep] at hrel
  rcases hrel with ⟨hpc, h⟩ | h
  · -- it went on to the branch
    refine .head h (.single ?_)
    show M.step _ = some t
    have hb' : branchTarget (M.pc (M.goto (stub + 4) t)) ((M.mem t).loadWord (stub + 4)) =
        some (orig + 4) := by rw [M.pc_goto, hb]
    rw [step, M.mem_goto, M.pc_goto, M.exec_branch hb', M.goto_goto, ← hpc, M.goto_pc]
  · exact .single h

end Isa

/-! ## The machine of `exec` -/

/-- The same state at another program counter. -/
def State.goto (a : BitVec 32) (s : State) : State := { s with pc := a }

/-- The instructions that go on to the next. -/
def Instr.straight : Instr → Bool
  | .b .. | .bc .. | .bclr .. => false
  | _ => true

/-- A store or load of several registers does not look at the program counter. -/
theorem foldl_goto {α : Type} (f : State → α → State) (a : BitVec 32)
    (hf : ∀ s x, f (s.goto a) x = (f s x).goto a) (l : List α) (s : State) :
    l.foldl f (s.goto a) = (l.foldl f s).goto a :=
  List.foldl_hom (State.goto a) hf

theorem exec_goto {i : Instr} (hi : i.straight) (a : BitVec 32) (s : State) :
    exec i (s.goto a) = (exec i s).map (State.goto (a + 4)) := by
  cases i with
  | b | bc | bclr => simp [Instr.straight] at hi
  | lmw rt ra d | stmw rt ra d =>
    by_cases hal : Aligned (s.ea ra d)
    · rw [exec, exec, if_pos hal, if_pos (by exact hal), Option.map_some]
      exact congrArg some (congrArg State.next (foldl_goto _ a (fun _ _ ↦ rfl) _ s))
    · rw [exec, exec, if_neg hal, if_neg (by exact hal), Option.map_none]
  | _ => rfl

theorem exec_pc {i : Instr} (hi : i.straight) {s t : State} (h : exec i s = some t) :
    t.pc = s.pc + 4 := by
  have h' := exec_goto hi s.pc s
  rw [show s.goto s.pc = s from rfl, h, Option.map_some, Option.some_inj] at h'
  rw [h']
  rfl

/-- The machine of `exec` is one. -/
def State.isa : Isa State where
  pc := State.pc
  mem := State.mem
  goto := State.goto
  exec w s := (decode w).bind (exec · s)
  pc_goto _ _ := rfl
  mem_goto _ _ := rfl
  goto_goto _ _ _ := rfl
  goto_pc _ := rfl
  exec_branch {w a s} h := by
    rw [branchTarget] at h
    split at h
    case h_1 li aa hd =>
      obtain rfl := Option.some.inj h
      rw [hd]
      rfl
    case h_2 => exact absurd h (by simp)

/-- Its instructions that are not branches are not relative. -/
theorem State.isa_notRelative {w : BitVec 32} {i : Instr} (hw : decode w = some i)
    (hi : i.straight) : State.isa.NotRelative w := by
  intro s t ht a
  simp only [State.isa, hw, Option.bind_some] at ht ⊢
  exact .inl ⟨exec_pc hi ht, by rw [exec_goto hi, ht, Option.map_some]⟩

end PowerPC
