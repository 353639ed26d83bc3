import MacOSXInternal.Frr.Install
import MacOSXInternal.Lib.Undo

/-!
# Reroutings of reroutings

A function may be rerouted while it is rerouted already.  Each handle then keeps the word that
`frr_install` found, which may be the branch of an earlier handle, and `frr_remove` puts that word
back whatever has happened since.

* `World` is the process and the handles that are outstanding, and `Step` the calls of `frr_install`
  and `frr_remove` that succeed.
* `Refines` says that a world is a store of words with undo records: the cells are the first words
  of the functions, the records are the metadata blocks of the outstanding handles.  `refines_step`
  is that every call is an operation of such a store, and `Owned` the invariant that this rests on:
  no two outstanding handles share a block.
* `frr_reversible` is the result: a function without handles has its first instruction back, if its
  oldest handle is never removed while there are others of it.
* `frr_remove_oldest_first` is why that is asked for: two reroutings of one function, removed in the
  order of their installation, leave the branch of the first behind, with its stub freed.
-/

set_option autoImplicit false

namespace MacOSXInternal
namespace Frr

open PowerPC Runs

/-! ## Runs -/

/-- The process, and the handles that were returned and not removed, the newest first. -/
structure World where
  process : Process
  outstanding : List (BitVec 32)

inductive Call
  | install (c : Calls) (original new : BitVec 32)
  | remove (FRR : BitVec 32)

/-- What `malloc` promises: blocks that nothing else is in, and that are not where the functions
are. -/
structure Fresh (text : Set (BitVec 32)) (c : Calls) (p : Process) : Prop where
  FRR : c.FRR ∉ p.live
  f_stub : c.f_stub ∉ p.live
  ne : c.f_stub ≠ c.FRR
  apart : ∀ f ∈ text, Apart c f

/-- One call, of a function in `text` or of a handle that is outstanding, in which every check and
every system call passes. -/
inductive Step (text : Set (BitVec 32)) : World → Call → World → Prop
  | install {w : World} {c : Calls} {original new FRR : BitVec 32} {p : Process}
      (htext : original ∈ text) (hpass : Pass c original new) (hfresh : Fresh text c w.process)
      (h : frr_install c original new w.process = some (FRR, p)) :
      Step text w (.install c original new) ⟨p, FRR :: w.outstanding⟩
  | remove {w : World} {FRR : BitVec 32} {p : Process} (hFRR : FRR ∈ w.outstanding)
      (h : frr_remove 0 true FRR w.process = some (0, p)) :
      Step text w (.remove FRR) ⟨p, w.outstanding.erase FRR⟩

/-- The world after a removal. -/
def World.remove (w : World) (FRR : BitVec 32) : World :=
  ⟨removed FRR w.process, w.outstanding.erase FRR⟩

/-- A handle that is removed is not the oldest one of its function, or the only one. -/
def OldestLast (w : World) : Call → Prop
  | .install .. => True
  | .remove FRR => ∀ younger older, w.outstanding = younger ++ FRR :: older →
      (∀ h ∈ older, (w.process.frr h).f_orig ≠ (w.process.frr FRR).f_orig) →
      ∀ h ∈ younger, (w.process.frr h).f_orig ≠ (w.process.frr FRR).f_orig

/-- The newest handle may always be removed. -/
theorem oldestLast_newest {w : World} {FRR : BitVec 32} {rest : List (BitVec 32)}
    (hw : w.outstanding = FRR :: rest) (hFRR : FRR ∉ rest) : OldestLast w (.remove FRR) := by
  intro younger older h _ x hx
  cases younger with
  | nil => simp at hx
  | cons a younger =>
    rw [hw, List.cons_append] at h
    obtain ⟨rfl, rfl⟩ := List.cons.inj h
    exact absurd (by simp) hFRR

/-! ## Blocks -/

/-- The blocks of a handle. -/
def blocks (p : Process) (FRR : BitVec 32) : List (BitVec 32) := [FRR, (p.frr FRR).f_stub]

/-- Every outstanding handle has its two blocks to itself, and is of a function. -/
structure Owned (text : Set (BitVec 32)) (w : World) : Prop where
  live : ∀ a ∈ w.outstanding.flatMap (blocks w.process), a ∈ w.process.live ∧ a ≠ 0#32
  nodup : (w.outstanding.flatMap (blocks w.process)).Nodup
  text : ∀ h ∈ w.outstanding, (w.process.frr h).f_orig ∈ text

variable {text : Set (BitVec 32)} {w w' : World} {c : Calls} {original new FRR : BitVec 32}

theorem mem_blocks_self {h : BitVec 32} (hh : h ∈ w.outstanding) :
    h ∈ w.outstanding.flatMap (blocks w.process) :=
  List.mem_flatMap_of_mem hh (by simp [blocks])

theorem mem_blocks_stub {h : BitVec 32} (hh : h ∈ w.outstanding) :
    (w.process.frr h).f_stub ∈ w.outstanding.flatMap (blocks w.process) :=
  List.mem_flatMap_of_mem hh (by simp [blocks])

/-- An installation leaves the metadata of the outstanding handles alone. -/
theorem installed_frr (howned : Owned text w) (hfresh : Fresh text c w.process) {h : BitVec 32}
    (hh : h ∈ w.outstanding) :
    (installed c original new w.process).frr h = w.process.frr h := by
  refine Function.update_of_ne (fun he ↦ hfresh.FRR ?_) _ _
  rw [← he]
  exact (howned.live h (mem_blocks_self hh)).1

theorem owned_install (htext : original ∈ text) (hpass : Pass c original new)
    (hfresh : Fresh text c w.process) (howned : Owned text w) :
    Owned text ⟨installed c original new w.process, c.FRR :: w.outstanding⟩ := by
  have hframe {h : BitVec 32} (hh : h ∈ w.outstanding) :
      (installed c original new w.process).frr h = _ := installed_frr howned hfresh hh
  have hblocks : (c.FRR :: w.outstanding).flatMap (blocks (installed c original new w.process)) =
      c.FRR :: c.f_stub :: w.outstanding.flatMap (blocks w.process) := by
    rw [List.flatMap_cons, blocks, installed_self]
    refine congrArg _ (List.flatMap_congr fun h hh ↦ ?_)
    rw [blocks, blocks, hframe hh]
  refine ⟨fun a ha ↦ ?_, ?_, fun h hh ↦ ?_⟩
  · rw [hblocks, List.mem_cons, List.mem_cons] at ha
    rcases ha with rfl | rfl | ha
    · exact ⟨by simp [installed], hpass.FRR⟩
    · exact ⟨by simp [installed], hpass.f_stub⟩
    · obtain ⟨hlive, hne⟩ := howned.live a ha
      exact ⟨by simp [installed, hlive], hne⟩
  · rw [hblocks, List.nodup_cons, List.nodup_cons, List.mem_cons]
    refine ⟨?_, fun h ↦ hfresh.f_stub (howned.live _ h).1, howned.nodup⟩
    rintro (he | h)
    · exact hfresh.ne he.symm
    · exact hfresh.FRR (howned.live _ h).1
  · rcases List.mem_cons.mp hh with rfl | hh
    · rw [installed_self]
      exact htext
    · rw [hframe hh]
      exact howned.text h hh

/-- The blocks of one handle, and of all others. -/
theorem blocks_perm (p : Process) (younger older : List (BitVec 32)) (FRR : BitVec 32) :
    ((younger ++ FRR :: older).flatMap (blocks p)).Perm
      (FRR :: (p.frr FRR).f_stub :: (younger ++ older).flatMap (blocks p)) := by
  rw [List.flatMap_append, List.flatMap_cons, List.flatMap_append]
  exact List.perm_append_comm_assoc _ (blocks p FRR) _

/-- A removal frees what is there to be freed. -/
theorem frr_remove_owned (howned : Owned text w) (hFRR : FRR ∈ w.outstanding) :
    frr_remove 0 true FRR w.process = some (0, removed FRR w.process) := by
  obtain ⟨hlive, hne⟩ := howned.live _ (mem_blocks_self hFRR)
  obtain ⟨hlive', hne'⟩ := howned.live _ (mem_blocks_stub hFRR)
  have hnodup := (List.nodup_flatMap.mp howned.nodup).1 FRR hFRR
  refine frr_remove_eq hne hne' hlive' ((List.mem_erase_of_ne ?_).mpr hlive)
  simpa [blocks] using hnodup

theorem owned_remove (howned : Owned text w) (hFRR : FRR ∈ w.outstanding) :
    Owned text (w.remove FRR) := by
  obtain ⟨younger, older, -, hw, hw'⟩ := List.exists_erase_eq hFRR
  have hperm := blocks_perm w.process younger older FRR
  rw [← hw] at hperm
  have hnodup := hperm.nodup_iff.mp howned.nodup
  rw [List.nodup_cons, List.nodup_cons] at hnodup
  obtain ⟨h1, h2, h3⟩ := hnodup
  rw [World.remove, hw']
  refine ⟨fun a ha ↦ ?_, h3, fun h hh ↦ howned.text h (List.mem_of_mem_erase (hw' ▸ hh))⟩
  have ha : a ∈ (younger ++ older).flatMap (blocks w.process) := ha
  obtain ⟨hlive, hne⟩ := howned.live a
    (hperm.mem_iff.mpr (List.mem_cons_of_mem _ (List.mem_cons_of_mem _ ha)))
  refine ⟨?_, hne⟩
  rw [removed, List.mem_erase_of_ne, List.mem_erase_of_ne]
  · exact hlive
  · rintro rfl
    exact h2 ha
  · rintro rfl
    exact h1 (List.mem_cons_of_mem _ ha)

/-! ## A world is a store with undo records -/

/-- The record that a metadata block is. -/
def record (p : Process) (FRR : BitVec 32) : Undo.Record (BitVec 32) (BitVec 32) (BitVec 32) :=
  ⟨FRR, (p.frr FRR).f_orig, (p.frr FRR).f_bytes⟩

structure Refines (text : Set (BitVec 32)) (w : World)
    (s : Undo.Store (BitVec 32) (BitVec 32) (BitVec 32)) : Prop where
  cells : ∀ f ∈ text, s.cells f = w.process.mem.loadWord f
  log : s.log = w.outstanding.map (record w.process)

/-- The operation that a call is. -/
def label : Call → Undo.Label (BitVec 32) (BitVec 32) (BitVec 32)
  | .install c original new => .assign c.FRR original (branchTo (new >>> 2)).word
  | .remove FRR => .takeBack FRR

variable {s : Undo.Store (BitVec 32) (BitVec 32) (BitVec 32)}

/-- The order of removals is the order of taking back. -/
theorem Refines.oldestLast (h : Refines text w s) {a : Call} (ha : OldestLast w a) :
    Undo.OldestLast s (label a) := by
  cases a with
  | install => trivial
  | remove FRR =>
    intro younger r older hlog hr holder
    rw [h.log, List.map_eq_append_iff] at hlog
    obtain ⟨y, l, hw, rfl, hl⟩ := hlog
    obtain ⟨FRR', o, rfl, rfl, rfl⟩ := List.map_eq_cons_iff.mp hl
    obtain rfl : FRR' = FRR := hr
    have := ha y o hw fun x hx ↦ holder _ (List.mem_map_of_mem hx)
    simpa [record] using this

theorem Refines.install (hs : Refines text w s) (htext : ∀ f ∈ text, Aligned f)
    (howned : Owned text w) (hmem : original ∈ text) (hfresh : Fresh text c w.process) :
    Refines text ⟨installed c original new w.process, c.FRR :: w.outstanding⟩
      ⟨Function.update s.cells original (branchTo (new >>> 2)).word,
        ⟨c.FRR, original, s.cells original⟩ :: s.log⟩ := by
  refine ⟨fun f hf ↦ ?_, ?_⟩
  · by_cases hf' : f = original
    · subst hf'
      exact (Function.update_self ..).trans installed_entry.symm
    · obtain ⟨h1, h2⟩ := (htext f hf).apart (htext _ hmem) hf'
      exact (Function.update_of_ne hf' _ _).trans ((hs.cells f hf).trans
        (installed_of_apart (hfresh.apart f hf) h1 h2).symm)
  · rw [List.map_cons, record, installed_self, hs.cells _ hmem, hs.log]
    refine congrArg _ (List.map_congr_left fun h hh ↦ ?_)
    rw [record, record, installed_frr howned hfresh hh]

theorem Refines.remove (hs : Refines text w s) (htext : ∀ f ∈ text, Aligned f)
    (howned : Owned text w) (hFRR : FRR ∈ w.outstanding) :
    ∃ t, Undo.Step s (.takeBack FRR) t ∧ Refines text (w.remove FRR) t := by
  obtain ⟨younger, older, -, hw, hw'⟩ := List.exists_erase_eq hFRR
  have hlog := hs.log
  rw [hw, List.map_append, List.map_cons] at hlog
  have hstep := Undo.Step.takeBack s.cells (younger.map (record w.process))
    (older.map (record w.process)) (record w.process FRR)
  rw [← hlog] at hstep
  refine ⟨_, hstep, fun f hf ↦ ?_, ?_⟩
  · by_cases hf' : f = (w.process.frr FRR).f_orig
    · subst hf'
      exact (Function.update_self ..).trans (Memory.loadWord_storeWord _).symm
    · obtain ⟨h1, h2⟩ := (htext f hf).apart (htext _ (howned.text _ hFRR)) hf'
      exact (Function.update_of_ne hf' _ _).trans ((hs.cells f hf).trans
        (Memory.loadWord_storeWord_of_apart _ h1 h2).symm)
  · rw [World.remove, hw', List.map_append]
    rfl

/-- **Every call is an operation of the store.** -/
theorem refines_step (htext : ∀ f ∈ text, Aligned f) {a : Call} (hs : Refines text w s)
    (howned : Owned text w) (h : Step text w a w') :
    ∃ t, Undo.Step s (label a) t ∧ Refines text w' t ∧ Owned text w' := by
  cases h with
  | @install c original new FRR p hmem hpass hfresh h =>
    obtain ⟨rfl, rfl⟩ : c.FRR = FRR ∧ installed c original new w.process = p := by
      simpa [frr_install_eq hpass] using h
    exact ⟨_, .assign _ _ _, hs.install htext howned hmem hfresh,
      owned_install hmem hpass hfresh howned⟩
  | @remove FRR p hFRR h =>
    obtain rfl : removed FRR w.process = p := by
      simpa [frr_remove_owned howned hFRR] using h
    obtain ⟨t, hstep, ht⟩ := hs.remove htext howned hFRR
    exact ⟨t, hstep, ht, owned_remove howned hFRR⟩

/-- A run of calls is a run of operations. -/
theorem refines_run (htext : ∀ f ∈ text, Aligned f) {l : List Call}
    (hrun : Run (guarded OldestLast (Step text)) w l w') (hs : Refines text w s)
    (howned : Owned text w) :
    ∃ t, Run (guarded Undo.OldestLast Undo.Step) s (l.map label) t ∧ Refines text w' t ∧
      Owned text w' := by
  induction hrun generalizing s with
  | nil => exact ⟨s, .nil s, hs, howned⟩
  | cons h _ ih =>
    obtain ⟨t, hstep, ht, howned'⟩ := refines_step htext hs howned h.2
    obtain ⟨u, hrun, hu⟩ := ih ht howned'
    exact ⟨u, .cons ⟨hs.oldestLast h.1, hstep⟩ hrun, hu⟩

/-! ## Reversibility -/

/-- The program before the first call. -/
def World.init (p : Process) : World := ⟨p, []⟩

theorem owned_init (p : Process) : Owned text (.init p) where
  live _ ha := absurd ha (by simp [World.init])
  nodup := List.nodup_nil
  text _ hh := absurd hh (by simp [World.init])

theorem refines_init (p : Process) : Refines text (.init p) ⟨p.mem.loadWord, []⟩ :=
  ⟨fun _ _ ↦ rfl, rfl⟩

/-- **A function without handles is what it was**, after any calls in any order in which the oldest
handle of a function is not removed while there are others of it. -/
theorem frr_reversible (text : Set (BitVec 32)) (htext : ∀ f ∈ text, Aligned f) (p : Process)
    (l : List Call) (w : World) (hrun : Run (guarded OldestLast (Step text)) (.init p) l w)
    (f : BitVec 32) (hf : f ∈ text)
    (hnone : ∀ h ∈ w.outstanding, (w.process.frr h).f_orig ≠ f) :
    w.process.mem.loadWord f = p.mem.loadWord f := by
  obtain ⟨t, hrun', ht, -⟩ := refines_run htext hrun (refines_init p) (owned_init p)
  rw [← ht.cells f hf]
  refine Undo.restored hrun' rfl fun r hr ↦ ?_
  rw [ht.log, List.mem_map] at hr
  obtain ⟨h, hh, rfl⟩ := hr
  exact hnone h hh

/-! ## Two reroutings of one function -/

/-- The allocator's answers in a first and a second installation. -/
def firstCalls : Calls := ⟨0x500000, 0x500010, 0, 0, true⟩

def secondCalls : Calls := ⟨0x500100, 0x500110, 0, 0, true⟩

def blank : Process := ⟨fun _ ↦ 0, fun _ ↦ ⟨0, 0, 0, 0⟩, []⟩

/-- The function at `0x2000` rerouted to `0x3000`, and then to `0x4000`. -/
def once : World := ⟨installed firstCalls 0x2000 0x3000 blank, [0x500000]⟩

def twice : World := ⟨installed secondCalls 0x2000 0x4000 once.process, [0x500100, 0x500000]⟩

theorem pass_first : Pass firstCalls 0x2000 0x3000 :=
  ⟨by decide, by decide, rfl, rfl, rfl, by decide, by decide⟩

theorem pass_second : Pass secondCalls 0x2000 0x4000 :=
  ⟨by decide, by decide, rfl, rfl, rfl, by decide, by decide⟩

theorem fresh_first : Fresh {0x2000} firstCalls blank :=
  ⟨by decide, by decide, by decide, fun f hf ↦ by obtain rfl := hf; decide⟩

theorem fresh_second : Fresh {0x2000} secondCalls once.process :=
  ⟨by decide, by decide, by decide, fun f hf ↦ by obtain rfl := hf; decide⟩

theorem owned_twice : Owned {0x2000} twice := by
  have howned : Owned {0x2000} once := owned_install (Set.mem_singleton _) pass_first fresh_first
    (owned_init blank)
  exact owned_install (Set.mem_singleton _) pass_second fresh_second howned

theorem step_first : Step {0x2000} (.init blank) (.install firstCalls 0x2000 0x3000) once :=
  .install rfl pass_first fresh_first (frr_install_eq pass_first)

theorem step_second : Step {0x2000} once (.install secondCalls 0x2000 0x4000) twice :=
  .install rfl pass_second fresh_second (frr_install_eq pass_second)

theorem step_remove (howned : Owned text w) (hFRR : FRR ∈ w.outstanding) :
    Step text w (.remove FRR) (w.remove FRR) :=
  .remove hFRR (frr_remove_owned howned hFRR)

/-- Removed in the opposite order, they leave the function as it was. -/
theorem frr_reversible_twice :
    Run (Step {0x2000}) (.init blank) [.install firstCalls 0x2000 0x3000,
      .install secondCalls 0x2000 0x4000, .remove 0x500100, .remove 0x500000]
      ((twice.remove 0x500100).remove 0x500000) ∧
    ((twice.remove 0x500100).remove 0x500000).process.mem.loadWord 0x2000 =
      blank.mem.loadWord 0x2000 := by
  have hnewer : (0x500100 : BitVec 32) ∈ twice.outstanding := by decide
  have holder : (0x500000 : BitVec 32) ∈ (twice.remove 0x500100).outstanding := by decide
  have hok : OldestLast twice (.remove 0x500100) := oldestLast_newest rfl (by decide)
  have hok' : OldestLast (twice.remove 0x500100) (.remove 0x500000) :=
    oldestLast_newest (show _ = [0x500000] by decide) (by decide)
  have hrun : Run (guarded OldestLast (Step {0x2000})) (.init blank)
      [.install firstCalls 0x2000 0x3000, .install secondCalls 0x2000 0x4000, .remove 0x500100,
        .remove 0x500000] ((twice.remove 0x500100).remove 0x500000) :=
    .cons (t := once) ⟨trivial, step_first⟩ <| .cons (t := twice) ⟨trivial, step_second⟩ <|
      .cons ⟨hok, step_remove owned_twice hnewer⟩ <|
      .cons ⟨hok', step_remove (owned_remove owned_twice hnewer) holder⟩ (.nil _)
  have hnone : ((twice.remove 0x500100).remove 0x500000).outstanding = [] := by decide
  refine ⟨hrun.of_guarded, frr_reversible {0x2000} ?_ blank _ _ hrun 0x2000 rfl ?_⟩
  · intro f hf
    obtain rfl := hf
    decide
  · rw [hnone]
    simp

/-- **Removed in the order of their installation**, they leave the branch to `0x3000` behind. -/
theorem frr_remove_oldest_first :
    Run (Step {0x2000}) (.init blank) [.install firstCalls 0x2000 0x3000,
      .install secondCalls 0x2000 0x4000, .remove 0x500000, .remove 0x500100]
      ((twice.remove 0x500000).remove 0x500100) ∧
    ((twice.remove 0x500000).remove 0x500100).outstanding = [] ∧
    blank.mem.loadWord 0x2000 = 0 ∧
    branchTarget 0x2000 (((twice.remove 0x500000).remove 0x500100).process.mem.loadWord 0x2000) =
      some 0x3000 := by
  have holder : (0x500000 : BitVec 32) ∈ twice.outstanding := by decide
  have hnewer : (0x500100 : BitVec 32) ∈ (twice.remove 0x500000).outstanding := by decide
  refine ⟨.cons step_first <| .cons step_second <| .cons (step_remove owned_twice holder) <|
    .cons (step_remove (owned_remove owned_twice holder) hnewer) (.nil _), by decide,
    by simp [blank, Memory.loadWord], ?_⟩
  -- what the second handle has kept is the branch of the first
  have hword : once.process.mem.loadWord 0x2000 = (branchTo (0x3000 >>> 2)).word := installed_entry
  have hkept : (installed secondCalls 0x2000 0x4000 once.process).frr secondCalls.FRR = _ :=
    installed_self
  rw [hword] at hkept
  rw [World.remove, World.remove, removed, removed, twice, show (0x500100 : BitVec 32) =
    secondCalls.FRR from rfl, hkept, Memory.loadWord_storeWord, word_branchTo,
    branchTarget_absolute]
  decide

end Frr
end MacOSXInternal
