import Mathlib.Algebra.Order.Ring.Nat
import Mathlib.Data.Fintype.Card
import MacOSXInternal.Lib.Loop

/-!
# `stacktrace.c`

A frame on the stack begins with the address of the frame of the caller, the back chain, and the
outermost one has a null pointer there.  The return address of a frame is saved two cells above its
beginning.  `stacktrace` follows the back chain, and prints a line for each frame it passes.

* `turn` is the loop, and `stacktrace` the function, with the addresses it dereferences.
* `Stack` is a well-formed stack, from the frame of the caller on.
* `returns_chain` follows the loop along a chain of at least two frames.
* `survives_iff` says that one frame is not enough: its back chain is dereferenced before it is
  compared with the null pointer.
-/

set_option autoImplicit false

namespace MacOSXInternal
namespace Stacktrace

open Loop

/-! ## The program -/

/-- The words of the memory, where it is mapped. -/
abbrev Words := BitVec 32 → Option (BitVec 32)

/-- What `dladdr` finds out about an address. -/
structure DlInfo where
  dli_sname : String
  dli_fname : String

/-- A line of the output. -/
structure Line where
  level : ℕ
  symbol : String
  parentheses : String
  image : String
  fp : BitVec 32
  pc : BitVec 32
  deriving DecidableEq

/-- A line, by the number to be printed in front. -/
def lineOf (dladdr : BitVec 32 → Option DlInfo) (level : ℕ) (fp ra : BitVec 32) : Line :=
  match dladdr ra with
  | some info => ⟨level, info.dli_sname, "()", info.dli_fname, fp, ra⟩
  | none => ⟨level, "?", "", "?", fp, ra⟩

def printframeinfo (dladdr : BitVec 32 → Option DlInfo) (level fp ra : BitVec 32) : Line :=
  lineOf dladdr level.toNat fp ra

/-- What has been printed, and the addresses that have been dereferenced, in their order. -/
structure Trace where
  out : List Line
  reads : List (BitVec 32)

/-- The variables of the loop. -/
structure Vars extends Trace where
  level : BitVec 32
  fp : BitVec 32

/-- How the function ends. -/
inductive Outcome
  | returns (t : Trace)
  /-- The last of the reads was one of memory that is not mapped. -/
  | fault (t : Trace)

def Outcome.trace : Outcome → Trace
  | .returns t => t
  | .fault t => t

/-- One turn of the loop. -/
def turn (mem : Words) (dladdr : BitVec 32 → Option DlInfo) (v : Vars) : Vars ⊕ Outcome :=
  if v.fp = 0 then .inr (.returns v.toTrace)
  else
    let reads := v.reads ++ [v.fp]
    match mem v.fp with
    | none => .inr (.fault ⟨v.out, reads⟩)
    | some saved_fp =>
      let fp := saved_fp
      let reads := reads ++ [fp]
      match mem fp with
      | none => .inr (.fault ⟨v.out, reads⟩)
      | some next =>
        if next = 0 then .inr (.returns ⟨v.out, reads⟩)
        else
          let reads := reads ++ [fp + 8]
          match mem (fp + 8) with
          | none => .inr (.fault ⟨v.out, reads⟩)
          | some saved_ra =>
            .inl ⟨⟨v.out ++ [printframeinfo dladdr v.level saved_fp saved_ra], reads⟩, v.level + 1,
              fp⟩

/-- `stacktrace`, where `__builtin_return_address(0)` is `saved_ra` and `__builtin_frame_address(1)`
is `saved_fp`. -/
def stacktrace (mem : Words) (dladdr : BitVec 32 → Option DlInfo) (saved_ra saved_fp : BitVec 32)
    (fuel : ℕ) : Option Outcome :=
  run (turn mem dladdr) fuel ⟨⟨[printframeinfo dladdr 0 saved_fp saved_ra], []⟩, 1, saved_fp⟩

/-! ## The stack -/

/-- Where a frame begins, and its return address. -/
structure Frame where
  address : BitVec 32
  ra : BitVec 32

/-- Each frame has the address of the next one as its back chain, and the last a null pointer. -/
inductive BackChain (mem : Words) : List Frame → Prop
  | last {f : Frame} (h : mem f.address = some 0) : BackChain mem [f]
  | frame {f g : Frame} {frames : List Frame} (h : mem f.address = some g.address)
      (hra : mem (f.address + 8) = some f.ra) (hrest : BackChain mem (g :: frames)) :
      BackChain mem (f :: g :: frames)

/-- A well-formed stack.  No frame is on it twice, and the three words of a frame lie in the address
space. -/
structure Stack (mem : Words) where
  first : Frame
  callers : List Frame
  chain : BackChain mem (first :: callers)
  acyclic : ((first :: callers).map Frame.address).Nodup
  inside : ∀ f ∈ first :: callers, 0 < f.address.toNat ∧ f.address.toNat + 12 ≤ 2 ^ 32

def Stack.frames {mem : Words} (s : Stack mem) : List Frame := s.first :: s.callers

/-- A word of one of the frames that the function may look at. -/
def Word (frames : List Frame) (a : BitVec 32) : Prop :=
  a ≠ 0 ∧ ∃ f ∈ frames, a = f.address ∨ a = f.address + 8

/-- The frames between the first and the last, each with its distance from the first one. -/
def callerLines (dladdr : BitVec 32 → Option DlInfo) (level : ℕ) (frames : List Frame) :
    List Line :=
  frames.dropLast.mapIdx fun i f ↦ lineOf dladdr (level + i) f.address f.ra

/-- The walk ends, dereferences words of frames only, and prints the lines it should. -/
def Survives {mem : Words} (dladdr : BitVec 32 → Option DlInfo) (s : Stack mem)
    (saved_ra : BitVec 32) : Prop :=
  ∃ fuel t, stacktrace mem dladdr saved_ra s.first.address fuel = some (.returns t) ∧
    (∀ a ∈ t.reads, Word s.frames a) ∧
    t.out.length = max 1 (s.frames.length - 1) ∧
    t.out = lineOf dladdr 0 s.first.address saved_ra :: callerLines dladdr 1 s.callers

/-! ## The walk -/

variable {mem : Words} {dladdr : BitVec 32 → Option DlInfo}

theorem length_callerLines (level : ℕ) (frames : List Frame) :
    (callerLines dladdr level frames).length = frames.length - 1 := by
  rw [callerLines, List.length_mapIdx, List.length_dropLast]

theorem callerLines_cons (level : ℕ) (f g : Frame) (frames : List Frame) :
    callerLines dladdr level (f :: g :: frames) =
      lineOf dladdr level f.address f.ra :: callerLines dladdr (level + 1) (g :: frames) := by
  simp only [callerLines, List.dropLast_cons_cons, List.mapIdx_cons, Nat.add_zero, Nat.add_assoc,
    Nat.add_comm 1]

/-- A turn at a frame that is neither the last nor the one in front of it. -/
theorem turn_frame {f g h : Frame} {v : Vars} (hfp : v.fp = f.address) (hf : f.address ≠ 0)
    (hchain : mem f.address = some g.address) (hnext : mem g.address = some h.address)
    (hh : h.address ≠ 0) (hra : mem (g.address + 8) = some g.ra) :
    turn mem dladdr v =
      .inl ⟨⟨v.out ++ [lineOf dladdr v.level.toNat g.address g.ra],
        v.reads ++ [f.address, g.address, g.address + 8]⟩, v.level + 1, g.address⟩ := by
  simp only [turn, hfp, hchain, hnext, hra]
  rw [if_neg hf, if_neg hh, List.append_assoc, List.append_assoc]
  rfl

/-- A turn at the frame in front of the last one. -/
theorem turn_last {f g : Frame} {v : Vars} (hfp : v.fp = f.address) (hf : f.address ≠ 0)
    (hchain : mem f.address = some g.address) (hlast : mem g.address = some 0) :
    turn mem dladdr v = .inr (.returns ⟨v.out, v.reads ++ [f.address, g.address]⟩) := by
  simp only [turn, hfp, hchain, hlast]
  rw [if_neg hf, if_true, List.append_assoc]
  rfl

theorem Stack.word {mem : Words} (s : Stack mem) {f : Frame} (hf : f ∈ s.frames) :
    Word s.frames f.address ∧ Word s.frames (f.address + 8) := by
  have h := s.inside f hf
  refine ⟨⟨?_, f, hf, .inl rfl⟩, ⟨?_, f, hf, .inr rfl⟩⟩
  · bv_omega
  · bv_omega

/-- **Along a chain of at least two frames** the walk prints the frames between the first and the
last. -/
theorem returns_chain {all frames : List Frame} {f g : Frame}
    (hchain : BackChain mem (f :: g :: frames))
    (hword : ∀ f' ∈ f :: g :: frames, Word all f'.address ∧ Word all (f'.address + 8)) {v : Vars}
    (hfp : v.fp = f.address) (hlevel : v.level.toNat + frames.length < 2 ^ 32) :
    ∃ reads, Returns (turn mem dladdr) v
        (.returns ⟨v.out ++ callerLines dladdr v.level.toNat (g :: frames), v.reads ++ reads⟩) ∧
      ∀ a ∈ reads, Word all a := by
  induction frames generalizing f g v with
  | nil =>
    obtain ⟨⟨hf, -⟩, hg, -⟩ := by simpa using hword
    cases hchain with
    | frame hfg hra hrest =>
      cases hrest with
      | last hlast =>
        refine ⟨[f.address, g.address], ?_, ?_⟩
        · have hturn : turn mem dladdr v = _ := turn_last hfp hf.1 hfg hlast
          simpa [callerLines] using returns_of_inr hturn
        · simp [hf, hg]
  | cons h frames ih =>
    obtain ⟨⟨hf, -⟩, ⟨hg, hgra⟩, ⟨hh, -⟩, -⟩ := by simpa using hword
    cases hchain with
    | frame hfg hra hrest =>
      cases hrest with
      | frame hgh hra' hrest =>
        rw [List.length_cons] at hlevel
        have hsucc : (v.level + 1).toNat = v.level.toNat + 1 := by bv_omega
        obtain ⟨reads, hreturns, hreads⟩ := ih (f := g) (g := h)
          (v := ⟨⟨v.out ++ [lineOf dladdr v.level.toNat g.address g.ra],
            v.reads ++ [f.address, g.address, g.address + 8]⟩, v.level + 1, g.address⟩)
          (.frame hgh hra' hrest) (fun f' hf' ↦ hword f' (List.mem_cons_of_mem _ hf')) rfl
          (by rw [hsucc]; omega)
        refine ⟨[f.address, g.address, g.address + 8] ++ reads, ?_, ?_⟩
        · rw [hsucc, List.append_assoc, List.append_assoc] at hreturns
          rw [returns_of_inl (turn_frame hfp hf.1 hfg hgh hh.1 hra'), callerLines_cons]
          exact hreturns
        · intro a ha
          rcases List.mem_append.mp ha with ha | ha
          · simp only [List.mem_cons, List.not_mem_nil, or_false] at ha
            rcases ha with rfl | rfl | rfl
            · exact hf
            · exact hg
            · exact hgra
          · exact hreads a ha

/-! ## The result -/

/-- A turn that ends the walk adds to the addresses. -/
theorem turn_eq_inr {v : Vars} {r : Outcome} (h : turn mem dladdr v = .inr r) :
    v.reads <+: r.trace.reads := by
  simp only [turn] at h
  repeat' split at h
  all_goals cases h
  all_goals simp [Outcome.trace]

/-- A turn that goes on has read the back chain of a frame, and that of the next one. -/
theorem turn_eq_inl {v v' : Vars} (h : turn mem dladdr v = .inl v') :
    v'.reads = v.reads ++ [v.fp, v'.fp, v'.fp + 8] ∧ mem v.fp = some v'.fp := by
  simp only [turn] at h
  split at h
  · cases h
  split at h
  · cases h
  case h_2 next hfp =>
    repeat' split at h
    all_goals cases h
    exact ⟨by simp, hfp⟩

/-- **The back chain of the last frame is dereferenced.** -/
theorem null_mem_reads {v : Vars} (hfp : v.fp ≠ 0) (hlast : mem v.fp = some 0) {r : Outcome}
    (h : Returns (turn mem dladdr) v r) : 0 ∈ r.trace.reads := by
  cases hturn : turn mem dladdr v with
  | inl v' =>
    obtain ⟨hreads, hnext⟩ := turn_eq_inl hturn
    have hzero : v'.fp = 0 := Option.some.inj (hnext.symm.trans hlast)
    rw [returns_of_inl hturn] at h
    refine (h.log_kept (fun v ↦ v.reads) (fun r ↦ r.trace.reads) ?_ ?_).subset ?_
    · intro v₁ v₂ hturn
      rw [(turn_eq_inl hturn).1]
      exact List.prefix_append ..
    · intro v₁ r hturn
      exact turn_eq_inr hturn
    · simp [hreads, hzero]
  | inr r' =>
    obtain rfl := h.unique (returns_of_inr hturn)
    simp only [turn, if_neg hfp, hlast] at hturn
    repeat' split at hturn
    all_goals cases hturn
    all_goals simp [Outcome.trace]

/-- **A single frame is too short a chain.** -/
theorem not_survives_single {s : Stack mem} (h : s.callers = []) (saved_ra : BitVec 32) :
    ¬ Survives dladdr s saved_ra := by
  rintro ⟨fuel, t, hrun, hreads, -⟩
  have hfirst := (s.word (List.mem_cons_self ..)).1.1
  have hchain := s.chain
  rw [h] at hchain
  cases hchain with
  | last hlast =>
    have hreturns : Returns (turn mem dladdr) ⟨_, 1, s.first.address⟩ (.returns t) := ⟨fuel, hrun⟩
    exact (hreads 0 (null_mem_reads hfirst hlast hreturns)).1 rfl

/-- There are no more frames than addresses. -/
theorem Stack.length_le (s : Stack mem) : s.frames.length ≤ 2 ^ 32 := by
  have hnodup : (s.frames.map fun f ↦ f.address.toFin).Nodup := by
    have h := s.acyclic.map (f := BitVec.toFin) fun _ _ ↦ BitVec.toFin_inj.mp
    rwa [List.map_map] at h
  have hle := hnodup.length_le_card
  rwa [List.length_map, Fintype.card_fin] at hle

/-- **`stacktrace` survives a stack exactly when there are two frames on it.** -/
theorem survives_iff (dladdr : BitVec 32 → Option DlInfo) (s : Stack mem) (saved_ra : BitVec 32) :
    Survives dladdr s saved_ra ↔ 2 ≤ s.frames.length := by
  refine ⟨fun h ↦ ?_, fun h ↦ ?_⟩
  · by_contra hlt
    refine not_survives_single ?_ saved_ra h
    rw [Stack.frames, List.length_cons] at hlt
    exact List.length_eq_zero_iff.mp (by omega)
  · have hle := s.length_le
    have hword : ∀ f ∈ s.frames, Word s.frames f.address ∧ Word s.frames (f.address + 8) :=
      fun f hf ↦ s.word hf
    have hchain := s.chain
    obtain ⟨g, frames, hcallers⟩ : ∃ g frames, s.callers = g :: frames := by
      refine List.exists_cons_of_ne_nil ?_
      intro hnil
      rw [Stack.frames, hnil, List.length_singleton] at h
      omega
    have hframes : s.frames = s.first :: g :: frames := by rw [Stack.frames, hcallers]
    rw [hframes, List.length_cons, List.length_cons] at hle
    rw [hcallers] at hchain
    rw [hframes] at hword
    have hlevel : (1 : BitVec 32).toNat + frames.length < 2 ^ 32 := by
      show 1 + _ < _
      omega
    obtain ⟨reads, ⟨fuel, hrun⟩, hreads⟩ := returns_chain hchain hword
      (v := ⟨⟨[printframeinfo dladdr 0 s.first.address saved_ra], []⟩, 1, s.first.address⟩)
      rfl hlevel
    refine ⟨fuel, _, hrun, ?_, ?_, ?_⟩
    · rw [hframes]
      exact hreads
    · simp only [hframes, List.length_append, length_callerLines, List.length_cons, List.length_nil]
      omega
    · rw [hcallers]
      rfl

/-- A memory with a single frame on the stack, and nothing at address 0. -/
def singleFrame : Words := fun a ↦ if a = 0xbffff000 then some 0 else none

def singleStack : Stack singleFrame where
  first := ⟨0xbffff000, 0⟩
  callers := []
  chain := .last rfl
  acyclic := List.nodup_singleton _
  inside := by decide

/-- **With a single frame on the stack, address 0 is dereferenced.** -/
theorem not_survives_singleStack : ¬ Survives (fun _ ↦ none) singleStack 0x1f00 :=
  not_survives_single rfl _

end Stacktrace
end MacOSXInternal
