import Mathlib.Data.List.Infix
import MacOSXInternal.Lib.ByteOrder
import MacOSXInternal.Lib.Loop
import MacOSXInternal.Lib.Splice

/-!
# `cnid2path.c`

`cnid2path` is given the number of a node of a volume's catalog and prints the path of that node.
It asks the file manager for the name of the node and for the number of its parent, then the same of
the parent, and so on; the names are put in front of each other, from the end of a buffer to its
beginning, until a node turns up that is its own parent.

* `turn` is the loop, `report` what is printed of the buffer in the end, `main` the program.
* `Chain` is a way from a node to the end of the loop, by the names of the nodes passed.
* `returns_chain` is the invariant: the buffer ends with the names passed so far.
* `main_prints` is the result, for names without a zero byte; `not_prints_zero` is a name with one.
-/

set_option autoImplicit false

namespace MacOSXInternal
namespace Cnid2path

open Loop Splice

/-! ## The program -/

def MAXPATHLEN : ℕ := 1024

def slash : Byte := 0x2f

/-- A name, as the file manager returns it. -/
structure HFSStr255 where
  characters : List Byte
  length_le : characters.length ≤ 255

/-- `PBResolveFileIDRefSync`: the name and the parent of a node, or a negative result. -/
abbrev FileManager := BitVec 32 → Except (BitVec 32) (HFSStr255 × BitVec 32)

/-- The number that digits spell, up to the first byte that is none. -/
def digits : List Byte → ℕ → ℕ
  | [], n => n
  | c :: s, n => if 0x30 ≤ c ∧ c ≤ 0x39 then digits s (10 * n + (c.toNat - 0x30)) else n

/-- `atoi`.  What it returns for a number that is not an `int` is not defined. -/
def atoi (s : List Byte) : BitVec 32 :=
  match s.dropWhile fun c ↦ decide (c = 0x20 ∨ 0x09 ≤ c ∧ c ≤ 0x0d) with
  | 0x2d :: s => -BitVec.ofNat 32 (digits s 0)
  | 0x2b :: s => BitVec.ofNat 32 (digits s 0)
  | s => BitVec.ofNat 32 (digits s 0)

/-- The variables of the loop.  `cursor` is an index into `path`. -/
structure Vars where
  tmpSrcDirID : BitVec 32
  len : ℤ
  path : List Byte
  cursor : ℕ

/-- How the loop is left. -/
inductive Exit
  /-- `break`. -/
  | done (path : List Byte) (cursor : ℕ)
  | returns (result : BitVec 32)
  /-- The cursor is in front of the buffer. -/
  | fault

/-- One turn of the loop. -/
def turn (resolve : FileManager) (v : Vars) : Vars ⊕ Exit :=
  match resolve v.tmpSrcDirID with
  | .error result => .inr (.returns result)
  | .ok (p, ioSrcDirID) =>
    if ioSrcDirID = v.tmpSrcDirID ∨ v.len ≤ 0 then .inr (.done v.path (v.cursor + 1))
    else if v.cursor < p.characters.length + 1 then .inr .fault
    else
      let cursor := v.cursor - p.characters.length
      let path := splice v.path cursor p.characters
      let cursor := cursor - 1
      .inl ⟨ioSrcDirID, v.len - (1 + p.characters.length), path.set cursor slash, cursor⟩

/-- A string ends at the first zero byte. -/
def cstring (l : List Byte) : Option (List Byte) :=
  if 0 ∈ l then some (l.takeWhile (· ≠ 0)) else none

/-- `printf("%s:/%s\n", ...)` -/
def line (cursor upath : List Byte) : List Byte := cursor ++ [0x3a, slash] ++ upath ++ [0x0a]

/-- What follows the loop: the string at the cursor is cut at its first slash. -/
def report (path : List Byte) (cursor : ℕ) : Option (List Byte) := do
  let s ← cstring (path.drop cursor)
  match s.idxOf? slash with
  | some i =>
    let path := path.set (cursor + i) 0
    let volume ← cstring (path.drop cursor)
    let upath ← cstring (path.drop (cursor + i + 1))
    return line volume upath
  | none => return line s []

/-- How the program ends. -/
inductive Outcome
  /-- `exit(1)`, after the usage message. -/
  | usage
  | returns (result : BitVec 32)
  | printed (text : List Byte)
  | fault
  deriving DecidableEq

def main (resolve : FileManager) (argv : List (List Byte)) (fuel : ℕ) : Option Outcome :=
  match argv with
  | [_, arg] =>
    let path := List.replicate MAXPATHLEN 0
    (run (turn resolve) fuel ⟨atoi arg, (MAXPATHLEN - 1 : ℕ), path, MAXPATHLEN - 1⟩).map fun
      | .done path cursor => (report path cursor).elim .fault .printed
      | .returns result => .returns result
      | .fault => .fault
  | _ => some .usage

/-! ## The path of a node -/

/-- From a node to one that is its own parent, by the names of the nodes passed. -/
inductive Chain (resolve : FileManager) : BitVec 32 → List HFSStr255 → Prop
  | last {id : BitVec 32} {p : HFSStr255} (h : resolve id = .ok (p, id)) : Chain resolve id []
  | node {id parent : BitVec 32} {p : HFSStr255} {names : List HFSStr255}
      (h : resolve id = .ok (p, parent)) (hne : parent ≠ id) (hrest : Chain resolve parent names) :
      Chain resolve id (p :: names)

/-- The room the names take in the buffer. -/
def room (names : List HFSStr255) : ℕ := (names.map fun p ↦ 1 + p.characters.length).sum

/-- What lies in the buffer when the names have been put in front of `t`. -/
def inFront (names : List HFSStr255) (t : List Byte) : List Byte :=
  names.foldl (fun t p ↦ slash :: (p.characters ++ t)) t

/-- The line for a node that is `names` away from the end: the name of the volume, which is the last
of them, and the others backwards. -/
def expected (names : List HFSStr255) (volume : HFSStr255) : List Byte :=
  line volume.characters
    ([slash].intercalate (names.reverse.map HFSStr255.characters))

/-- The program prints the text, and that is all. -/
def Prints (resolve : FileManager) (arg text : List Byte) : Prop :=
  ∀ argv0, ∃ fuel, main resolve [argv0, arg] fuel = some (.printed text)

variable {resolve : FileManager} {id : BitVec 32} {names : List HFSStr255} {p : HFSStr255}
  {t : List Byte}

theorem inFront_append (names : List HFSStr255) (p : HFSStr255) (t : List Byte) :
    inFront (names ++ [p]) t = slash :: (p.characters ++ inFront names t) := by
  rw [inFront, List.foldl_append]
  rfl

/-- Of names, the buffer holds the last one first, and a slash in front of each. -/
theorem inFront_nil (names : List HFSStr255) (h : names ≠ []) :
    inFront names [] =
      slash :: [slash].intercalate (names.reverse.map HFSStr255.characters) := by
  induction names using List.reverseRecOn with
  | nil => exact absurd rfl h
  | append_singleton names p ih =>
    rw [inFront_append, List.reverse_append, List.reverse_singleton, List.singleton_append,
      List.map_cons]
    by_cases hnil : names = []
    · subst hnil
      simp [inFront, List.intercalate]
    · rw [ih hnil]
      obtain ⟨q, qs, hq⟩ := List.exists_cons_of_ne_nil (List.reverse_ne_nil_iff.mpr hnil)
      rw [hq]
      simp [List.intercalate]

theorem not_mem_inFront (hnames : ∀ p ∈ names, 0 ∉ p.characters) (ht : 0 ∉ t) :
    0 ∉ inFront names t := by
  induction names generalizing t with
  | nil => exact ht
  | cons p names ih =>
    rw [List.forall_mem_cons] at hnames
    refine ih hnames.2 ?_
    intro h
    rcases List.mem_cons.mp h with h | h
    · exact absurd h (by decide)
    · rcases List.mem_append.mp h with h | h
      · exact hnames.1 h
      · exact ht h

/-! ## The loop -/

/-- The state of the loop when the buffer ends with `t`. -/
def Vars.on (id : BitVec 32) (t : List Byte) : Vars where
  tmpSrcDirID := id
  len := (MAXPATHLEN - 1 - t.length : ℕ)
  path := List.replicate (MAXPATHLEN - 1 - t.length) 0 ++ (t ++ [0])
  cursor := MAXPATHLEN - 1 - t.length

/-- Writing over the end of the zeros in front. -/
theorem splice_zeros (j : ℕ) (m r : List Byte) :
    (splice (List.replicate (j + 1 + m.length) 0 ++ r) (j + 1) m).set j slash =
      List.replicate j 0 ++ slash :: (m ++ r) := by
  have htake : (List.replicate (j + 1 + m.length) (0 : Byte) ++ r).take (j + 1) =
      List.replicate j 0 ++ [0] := by
    rw [List.take_append_of_le_length (by rw [List.length_replicate]; omega), List.take_replicate,
      Nat.min_eq_left (by omega), List.replicate_succ']
  have hdrop : (List.replicate (j + 1 + m.length) (0 : Byte) ++ r).drop (j + 1 + m.length) = r := by
    rw [List.drop_left' List.length_replicate]
  rw [splice, htake, hdrop, List.append_assoc, List.set_append_right _ _ (by simp)]
  simp

/-- A node that is not its own parent puts its name in front. -/
theorem turn_node {parent : BitVec 32} (h : resolve id = .ok (p, parent)) (hne : parent ≠ id)
    (hroom : t.length + (1 + p.characters.length) ≤ MAXPATHLEN - 1) :
    turn resolve (.on id t) = .inl (.on parent (slash :: (p.characters ++ t))) := by
  obtain ⟨j, hj⟩ : ∃ j, MAXPATHLEN - 1 - t.length = j + 1 + p.characters.length :=
    ⟨MAXPATHLEN - 1 - t.length - 1 - p.characters.length, by omega⟩
  have hj' : MAXPATHLEN - 1 - (slash :: (p.characters ++ t)).length = j := by
    rw [List.length_cons, List.length_append]
    omega
  have hgo : ¬ (parent = id ∨ ((j + 1 + p.characters.length : ℕ) : ℤ) ≤ 0) := by
    rintro (heq | hle)
    · exact hne heq
    · omega
  have hfit : ¬ j + 1 + p.characters.length < p.characters.length + 1 := by omega
  simp only [turn, Vars.on, h, hj, hj', if_neg hgo, if_neg hfit]
  rw [Nat.add_sub_cancel, Nat.add_sub_cancel, splice_zeros]
  simp only [List.cons_append, List.append_assoc]
  congr 2
  push_cast
  omega

/-- **The buffer ends with the names passed so far.** -/
theorem returns_chain (h : Chain resolve id names)
    (hroom : t.length + room names ≤ MAXPATHLEN - 1) :
    Returns (turn resolve) (.on id t) (.done
      (List.replicate (MAXPATHLEN - 1 - (inFront names t).length) 0 ++ (inFront names t ++ [0]))
      (MAXPATHLEN - 1 - (inFront names t).length + 1)) := by
  induction h generalizing t with
  | last h =>
    refine returns_of_inr ?_
    simp only [turn, Vars.on, h, true_or, if_true]
    rfl
  | @node id parent p names h hne _ ih =>
    rw [room, List.map_cons, List.sum_cons, ← room] at hroom
    refine (returns_of_inl (turn_node h hne (by omega))).mpr ?_
    refine ih ?_
    rw [List.length_cons, List.length_append]
    omega

/-! ## The line -/

section
variable {s v u b : List Byte}

theorem cstring_append (hs : 0 ∉ s) (b : List Byte) : cstring (s ++ 0 :: b) = some s := by
  have htake : (s ++ 0 :: b).takeWhile (· ≠ 0) = s := by
    have hpos (x : Byte) (hx : x ∈ s) : decide (x ≠ 0) = true := by
      rw [decide_eq_true_eq]
      intro h
      exact hs (h ▸ hx)
    rw [List.takeWhile_append_of_pos hpos]
    simp
  rw [cstring, if_pos (List.mem_append_right s (List.mem_cons_self ..)), htake]

/-- A volume by itself. -/
theorem report_volume {path : List Byte} {cursor : ℕ} (hpath : path.drop cursor = v ++ 0 :: b)
    (h0 : 0 ∉ v) (hslash : slash ∉ v) : report path cursor = some (line v []) := by
  rw [report, hpath, cstring_append h0]
  have hnone : v.idxOf? slash = none := List.idxOf?_eq_none_iff.mpr hslash
  simp [hnone]

/-- A volume, and a path behind it. -/
theorem report_path {path : List Byte} {cursor : ℕ}
    (hpath : path.drop cursor = v ++ slash :: (u ++ 0 :: b)) (h0 : 0 ∉ v) (hslash : slash ∉ v)
    (h0' : 0 ∉ u) : report path cursor = some (line v u) := by
  have hwhole : path.drop cursor = (v ++ slash :: u) ++ 0 :: b := by
    rw [hpath, List.append_assoc, List.cons_append]
  have hzero : 0 ∉ v ++ slash :: u := by
    intro h
    rcases List.mem_append.mp h with h | h
    · exact h0 h
    · rcases List.mem_cons.mp h with h | h
      · exact absurd h (by decide)
      · exact h0' h
  have hidx : (v ++ slash :: u).idxOf? slash = some v.length := by
    refine List.idxOf?_eq_some_iff.mpr ⟨by simp, by simp, fun j hj heq ↦ hslash ?_⟩
    rw [← heq, List.getElem_append_left hj]
    exact List.getElem_mem hj
  have hcut : (path.set (cursor + v.length) 0).drop cursor = v ++ 0 :: (u ++ 0 :: b) := by
    rw [List.drop_set, if_neg (by omega), Nat.add_sub_cancel_left, hpath,
      List.set_append_right _ _ (le_refl _), Nat.sub_self]
    rfl
  have hrest : (path.set (cursor + v.length) 0).drop (cursor + v.length + 1) = u ++ 0 :: b := by
    rw [List.drop_set_of_lt (by omega), Nat.add_assoc, ← List.drop_drop, hpath, ← List.drop_drop,
      List.drop_left]
    rfl
  simp only [report, hwhole, cstring_append hzero, Option.bind_eq_bind, Option.bind_some, hidx, hcut,
    hrest, cstring_append h0, cstring_append h0', Option.pure_def]

end

/-! ## The program -/

/-- What the program prints, by what the names end with. -/
theorem prints_of_report {volume : HFSStr255} {arg text : List Byte}
    (h : Chain resolve (atoi arg) (names ++ [volume]))
    (hroom : room (names ++ [volume]) ≤ MAXPATHLEN - 1)
    (hreport : ∀ path cursor,
      path.drop cursor = volume.characters ++ (inFront names [] ++ [0]) →
      report path cursor = some text) :
    Prints resolve arg text := by
  intro argv0
  have hempty : List.replicate MAXPATHLEN (0 : Byte) = List.replicate (MAXPATHLEN - 1) 0 ++ [0] :=
    List.replicate_succ'
  obtain ⟨fuel, hrun⟩ := returns_chain (t := []) h (by rwa [List.length_nil, Nat.zero_add])
  refine ⟨fuel, ?_⟩
  have hstart : Vars.on (atoi arg) [] =
      ⟨atoi arg, (MAXPATHLEN - 1 : ℕ), List.replicate MAXPATHLEN 0, MAXPATHLEN - 1⟩ := by
    rw [hempty]
    rfl
  rw [hstart] at hrun
  rw [main, hrun, Option.map_some]
  simp only
  rw [hreport _ _ ?_]
  · rfl
  · rw [inFront_append, List.cons_append, List.append_assoc,
      ← List.drop_drop, List.drop_left' List.length_replicate]
    rfl

theorem Prints.unique {arg text text' : List Byte} (h : Prints resolve arg text)
    (h' : Prints resolve arg text') : text = text' := by
  obtain ⟨m, hm⟩ := h []
  obtain ⟨n, hn⟩ := h' []
  obtain ⟨x, hx, hx'⟩ := Option.map_eq_some_iff.mp hm
  obtain ⟨y, hy, hy'⟩ := Option.map_eq_some_iff.mp hn
  have hxy : x = y := Returns.unique ⟨m, hx⟩ ⟨n, hy⟩
  subst hxy
  exact Outcome.printed.inj (hx'.symm.trans hy')

/-- **`cnid2path` prints the path of a node**: the name of the volume, and behind a colon and a
slash the names on the way down to the node, with slashes between them. -/
theorem main_prints (resolve : FileManager) (arg : List Byte) (names : List HFSStr255)
    (volume : HFSStr255) (hchain : Chain resolve (atoi arg) (names ++ [volume]))
    (hvolume : slash ∉ volume.characters)
    (hzero : ∀ p ∈ names ++ [volume], 0 ∉ p.characters)
    (hroom : room (names ++ [volume]) ≤ MAXPATHLEN - 1) :
    Prints resolve arg (expected names volume) := by
  have hzero' : 0 ∉ volume.characters := hzero volume (by simp)
  refine prints_of_report hchain hroom ?_
  intro path cursor hpath
  by_cases hnil : names = []
  · subst hnil
    exact report_volume hpath hzero' hvolume
  · have hrest : 0 ∉ inFront names [] :=
      not_mem_inFront (fun p hp ↦ hzero p (List.mem_append_left _ hp)) List.not_mem_nil
    rw [inFront_nil names hnil] at hpath hrest
    exact report_path hpath hzero' hvolume fun h ↦ hrest (List.mem_cons_of_mem _ h)

/-- A volume `HD`, with a folder `a` that holds a file `b`. -/
def demoVolume : FileManager
  | 18 => .ok (⟨[0x62], by decide⟩, 17)
  | 17 => .ok (⟨[0x61], by decide⟩, 2)
  | 2 => .ok (⟨[0x48, 0x44], by decide⟩, 1)
  | _ => .ok (⟨[], by decide⟩, 1)

theorem main_prints_demo :
    Prints demoVolume [0x31, 0x38] [0x48, 0x44, 0x3a, 0x2f, 0x61, 0x2f, 0x62, 0x0a] :=
  main_prints demoVolume [0x31, 0x38] [⟨[0x62], by decide⟩, ⟨[0x61], by decide⟩]
    ⟨[0x48, 0x44], by decide⟩
    (.node rfl (by decide : (17 : BitVec 32) ≠ 18) (.node rfl (by decide : (2 : BitVec 32) ≠ 17)
      (.node rfl (by decide : (1 : BitVec 32) ≠ 2) (.last rfl))))
    (by decide) (by decide) (by decide)

/-- A file whose name is a zero byte. -/
def zeroVolume : FileManager
  | 17 => .ok (⟨[0x00], by decide⟩, 2)
  | 2 => .ok (⟨[0x48, 0x44], by decide⟩, 1)
  | _ => .ok (⟨[], by decide⟩, 1)

/-- **What is printed is a string of C**, so a name ends before its first zero byte. -/
theorem not_prints_zero :
    Chain zeroVolume (atoi [0x31, 0x37])
      ([⟨[0x00], by decide⟩] ++ [⟨[0x48, 0x44], by decide⟩]) ∧
    slash ∉ ([0x48, 0x44] : List Byte) ∧
    room ([⟨[0x00], by decide⟩] ++ [⟨[0x48, 0x44], by decide⟩]) ≤ MAXPATHLEN - 1 ∧
    ¬ Prints zeroVolume [0x31, 0x37]
      (expected [⟨[0x00], by decide⟩] ⟨[0x48, 0x44], by decide⟩) := by
  have hchain : Chain zeroVolume (atoi [0x31, 0x37])
      ([⟨[0x00], by decide⟩] ++ [⟨[0x48, 0x44], by decide⟩]) :=
    .node rfl (by decide : (2 : BitVec 32) ≠ 17)
      (.node rfl (by decide : (1 : BitVec 32) ≠ 2) (.last rfl))
  refine ⟨hchain, by decide, by decide, ?_⟩
  have hprints : Prints zeroVolume [0x31, 0x37] (line [0x48, 0x44] []) := by
    refine prints_of_report hchain (by decide) ?_
    intro path cursor hpath
    exact report_path (b := [0]) hpath (by decide) (by decide) List.not_mem_nil
  intro h
  exact absurd (hprints.unique h) (by decide)

end Cnid2path
end MacOSXInternal
