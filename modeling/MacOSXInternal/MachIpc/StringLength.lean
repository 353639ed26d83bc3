import Mathlib.Data.List.Basic
import MacOSXInternal.Lib.AddressSpace
import MacOSXInternal.Lib.Loop
import MacOSXInternal.MachIpc.Factorial

/-!
# The string length of the MIG server

The client sends an array of 64 characters, and the operation `string_length` of `server.c` looks
for the zero byte at the end of the string in it.  Nothing obliges the client to send one.

* `stringLength` is the operation, with the addresses it reads.
* `returns_nonzero` is the loop on characters that are not zero.
* `counts_iff` says that the loop stays inside the array exactly when it is stopped there.
-/

set_option autoImplicit false

namespace MacOSXInternal
namespace Mig

open Loop

/-! ## The operation -/

/-- How the operation ends. -/
inductive Outcome
  /-- The number returned, and what `len` points to then. -/
  | returns (kr : BitVec 32) (len : Option (BitVec 32))
  /-- A read where nothing is mapped. -/
  | fault
  deriving DecidableEq

/-- The variables of the loop: the pointer, `*len`, and the addresses read so far. -/
structure Scan where
  input : ℕ
  len : BitVec 32
  reads : List ℕ

/-- `while (*in++) (*len)++;` -/
def scan (m : AddressSpace) (v : Scan) : Scan ⊕ (List ℕ × Outcome) :=
  let reads := v.reads ++ [v.input]
  match m v.input with
  | none => .inr (reads, .fault)
  | some c =>
    if c ≠ 0 then .inl ⟨v.input + 1, v.len + 1, reads⟩
    else .inr (reads, .returns KERN_SUCCESS (some v.len))

/-- `string_length`, with the addresses it reads of the string.  `len` is what the pointer to the
result points to; a null pointer points to nothing. -/
def stringLength (m : AddressSpace) (instring : ℕ) (len : Option (BitVec 32)) (fuel : ℕ) :
    Option (List ℕ × Outcome) :=
  if instring = 0 ∨ len = none then some ([], .returns KERN_INVALID_ADDRESS len)
  else run (scan m) fuel ⟨instring, 0, []⟩

/-! ## The request -/

/-- The size of an `input_string_t`. -/
def inputSize : ℕ := 64

/-- A request as the server has received it: the array lies in its memory. -/
structure Request where
  memory : AddressSpace
  instring : ℕ
  characters : List Byte
  instring_ne : instring ≠ 0
  length_eq : characters.length = inputSize
  holds : memory.Holds instring characters

/-- The operation reads nothing but the array, and returns the number of characters in front of the
first zero byte in it, or the number of all of them. -/
def Counts (r : Request) : Prop :=
  ∀ old, ∃ fuel reads,
    stringLength r.memory r.instring (some old) fuel = some (reads,
      .returns KERN_SUCCESS (some (BitVec.ofNat 32 (r.characters.idxOf 0)))) ∧
    ∀ a ∈ reads, r.instring ≤ a ∧ a < r.instring + inputSize

/-! ## The loop -/

variable {m : AddressSpace}

/-- **What is not zero is counted.** -/
theorem returns_nonzero {a : ℕ} {n : BitVec 32} {l : List Byte} (hm : m.Holds a l) (hl : 0 ∉ l)
    (seen : List ℕ) (r : List ℕ × Outcome) :
    Returns (scan m) ⟨a, n, seen⟩ r ↔
      Returns (scan m) ⟨a + l.length, n + BitVec.ofNat 32 l.length,
        seen ++ List.range' a l.length⟩ r := by
  induction l generalizing a n seen with
  | nil => simp
  | cons c l ih =>
    obtain ⟨hc, hm⟩ := AddressSpace.holds_cons.mp hm
    rw [List.mem_cons, not_or] at hl
    have hturn : scan m ⟨a, n, seen⟩ = .inl ⟨a + 1, n + 1, seen ++ [a]⟩ := by
      simp only [scan, hc]
      rw [if_pos (Ne.symm hl.1)]
    have hcount : n + 1 + BitVec.ofNat 32 l.length = n + BitVec.ofNat 32 (l.length + 1) := by
      rw [BitVec.ofNat_add, BitVec.add_assoc, BitVec.add_comm 1]
      rfl
    rw [returns_of_inl hturn, ih hm hl.2, hcount, List.length_cons, List.range'_succ,
      List.append_assoc, List.singleton_append, Nat.add_assoc, Nat.add_comm 1]

theorem scan_eq_inl {v v' : Scan} (h : scan m v = .inl v') : v'.reads = v.reads ++ [v.input] := by
  rw [scan] at h
  split at h
  · cases h
  · split at h <;> cases h
    rfl

theorem scan_eq_inr {v : Scan} {r : List ℕ × Outcome} (h : scan m v = .inr r) :
    r.1 = v.reads ++ [v.input] := by
  rw [scan] at h
  split at h
  · cases h
    rfl
  · split at h <;> cases h
    rfl

/-- Whatever comes of the loop, it has read where its pointer pointed to. -/
theorem mem_reads {v : Scan} {r : List ℕ × Outcome} (h : Returns (scan m) v r) : v.input ∈ r.1 := by
  have hprefix : v.reads ++ [v.input] <+: r.1 := by
    refine h.log_kept (fun v ↦ v.reads ++ [v.input]) Prod.fst ?_ ?_
    · intro v₁ v₂ hturn
      rw [scan_eq_inl hturn]
      exact List.prefix_append ..
    · intro v₁ r hturn
      rw [scan_eq_inr hturn]
  exact hprefix.subset (by simp)

/-! ## The result -/

theorem stringLength_request (r : Request) (old : BitVec 32) (fuel : ℕ) :
    stringLength r.memory r.instring (some old) fuel =
      run (scan r.memory) fuel ⟨r.instring, 0, []⟩ := by
  rw [stringLength, if_neg]
  rintro (h | h)
  · exact r.instring_ne h
  · cases h

/-- **Without a zero byte, the loop leaves the array.** -/
theorem not_counts {r : Request} (h : 0 ∉ r.characters) : ¬ Counts r := by
  intro hcounts
  obtain ⟨fuel, reads, hrun, hinside⟩ := hcounts 0
  rw [stringLength_request] at hrun
  have hbehind := (returns_nonzero r.holds h [] _).mp ⟨fuel, hrun⟩
  have hread := mem_reads hbehind
  have hlt := (hinside _ hread).2
  rw [r.length_eq] at hlt
  exact lt_irrefl _ hlt

/-- **`string_length` counts what it should, inside the array, exactly when there is a zero byte in
the array.** -/
theorem counts_iff (r : Request) : Counts r ↔ 0 ∈ r.characters := by
  refine ⟨fun hcounts ↦ ?_, fun h old ↦ ?_⟩
  · by_contra h
    exact not_counts h hcounts
  · obtain ⟨l, rest, hsplit, hl⟩ := List.eq_append_cons_of_mem h
    have hholds := r.holds
    rw [hsplit, AddressSpace.holds_append, AddressSpace.holds_cons] at hholds
    have hidx : r.characters.idxOf 0 = l.length := by
      rw [hsplit, List.idxOf_append_of_notMem hl, List.idxOf_cons_self, Nat.add_zero]
    have hstop : scan r.memory ⟨r.instring + l.length, 0 + BitVec.ofNat 32 l.length,
        [] ++ List.range' r.instring l.length⟩ =
        .inr (List.range' r.instring (l.length + 1),
          .returns KERN_SUCCESS (some (BitVec.ofNat 32 l.length))) := by
      have hzero : 0 + BitVec.ofNat 32 l.length = BitVec.ofNat 32 l.length := BitVec.zero_add _
      simp only [scan, hholds.2.1]
      rw [if_neg (not_not.mpr rfl), List.nil_append, List.range'_concat, hzero, Nat.one_mul]
    obtain ⟨fuel, hrun⟩ := (returns_nonzero hholds.1 hl [] _).mpr (returns_of_inr hstop)
    refine ⟨fuel, _, by rw [stringLength_request, hidx, hrun], ?_⟩
    intro a ha
    have hlen := r.length_eq
    rw [hsplit, List.length_append, List.length_cons] at hlen
    obtain ⟨i, hi, rfl⟩ := List.mem_range'.mp ha
    omega

/-- An array without a zero byte, with a character and a zero byte behind it. -/
def fullRequest : Request where
  memory a := if a = 0 then none else if a ≤ inputSize + 1 then some 0x61 else some 0
  instring := 1
  characters := List.replicate inputSize 0x61
  instring_ne := by decide
  length_eq := List.length_replicate
  holds := rfl

/-- **A client that fills the array makes the server read behind it.** -/
theorem not_counts_full : ¬ Counts fullRequest :=
  not_counts (by decide)

end Mig
end MacOSXInternal
