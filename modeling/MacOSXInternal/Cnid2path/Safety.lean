import Mathlib.Data.List.TakeWhile
import MacOSXInternal.Cnid2path.Path

/-!
# Whether `cnid2path` stays inside its buffer

The loop asks for room before it knows the name that has to find room, and behind the loop the
cursor is moved past a slash that has not been written when the node to begin with is its own
parent.  So there are two ways out of the buffer, one at each end of it.

* `stores` are the bytes a turn stores, by their distance from `path`; `turn_eq_fault_iff` says that
  the loop is left with a fault where one of them is not a byte of `path`.
* `Climbs` is the way up from a node, as far as one likes.
* `Fits` is what has to hold of the nodes on the way.  `Inside` is the invariant of the loop then,
  by `inside_step` and `harmless_of_turn`; `cnid2path_safe_iff` says that nothing else has to hold.
-/

set_option autoImplicit false

namespace MacOSXInternal
namespace Cnid2path

open Loop Splice

/-! ## What is stored -/

/-- The bytes that are stored through the cursor for a name: those of the name, below the cursor,
and the slash below them. -/
def stores (cursor : ℕ) (p : HFSStr255) : List ℤ :=
  (List.range (p.characters.length + 1)).map fun i : ℕ ↦ (cursor : ℤ) - 1 - i

theorem stores_subset_iff {cursor : ℕ} (hcursor : cursor ≤ MAXPATHLEN) (p : HFSStr255) :
    (∀ a ∈ stores cursor p, 0 ≤ a ∧ a < MAXPATHLEN) ↔ p.characters.length + 1 ≤ cursor := by
  simp only [stores, List.forall_mem_map]
  refine ⟨fun h ↦ ?_, fun h i hi ↦ ?_⟩
  · have hlast := h p.characters.length (List.mem_range.mpr (Nat.lt_succ_self _))
    omega
  · have hi := List.mem_range.mp hi
    omega

/-- **A fault is a store outside the buffer.** -/
theorem turn_eq_fault_iff {resolve : FileManager} {v : Vars} (hcursor : v.cursor ≤ MAXPATHLEN) :
    turn resolve v = .inr .fault ↔
      ∃ p parent, resolve v.tmpSrcDirID = .ok (p, parent) ∧ parent ≠ v.tmpSrcDirID ∧ 0 < v.len ∧
        ¬ ∀ a ∈ stores v.cursor p, 0 ≤ a ∧ a < MAXPATHLEN := by
  cases h : resolve v.tmpSrcDirID with
  | error result => simp [turn, h]
  | ok answer =>
    obtain ⟨p, parent⟩ := answer
    simp only [turn, h, Except.ok.injEq, Prod.mk.injEq, and_assoc,
      stores_subset_iff hcursor]
    by_cases hstop : parent = v.tmpSrcDirID ∨ v.len ≤ 0
    · rw [if_pos hstop]
      simp only [reduceCtorEq, false_iff, Sum.inr.injEq]
      rintro ⟨q, parent', rfl, rfl, hne, hlen, -⟩
      rcases hstop with heq | hle
      · exact hne heq
      · omega
    · rw [if_neg hstop]
      rw [not_or, not_le] at hstop
      by_cases hlow : v.cursor < p.characters.length + 1
      · rw [if_pos hlow]
        simp only [true_iff]
        exact ⟨p, parent, rfl, rfl, hstop.1, hstop.2, by omega⟩
      · rw [if_neg hlow]
        simp only [reduceCtorEq, false_iff]
        rintro ⟨q, parent', rfl, rfl, -, -, hlt⟩
        omega

/-- The loop goes on where there is a parent, and room. -/
theorem turn_eq_inl {resolve : FileManager} {v v' : Vars} (h : turn resolve v = .inl v') :
    ∃ p parent, resolve v.tmpSrcDirID = .ok (p, parent) ∧ parent ≠ v.tmpSrcDirID ∧ 0 < v.len := by
  cases hr : resolve v.tmpSrcDirID with
  | error result => simp [turn, hr] at h
  | ok answer =>
    obtain ⟨p, parent⟩ := answer
    simp only [turn, hr] at h
    split at h
    · cases h
    case isFalse hgo =>
      rw [not_or, not_le] at hgo
      exact ⟨p, parent, rfl, hgo⟩

/-- The loop is left at a node that is its own parent, or when there is no room. -/
theorem turn_eq_done {resolve : FileManager} {v : Vars} {path : List Byte} {cursor : ℕ}
    (h : turn resolve v = .inr (.done path cursor)) :
    path = v.path ∧ cursor = v.cursor + 1 ∧
      ((∃ p, resolve v.tmpSrcDirID = .ok (p, v.tmpSrcDirID)) ∨ v.len ≤ 0) := by
  cases hr : resolve v.tmpSrcDirID with
  | error result => simp [turn, hr] at h
  | ok answer =>
    obtain ⟨p, parent⟩ := answer
    simp only [turn, hr] at h
    split at h
    case isTrue hstop =>
      obtain ⟨rfl, rfl⟩ := Exit.done.inj (Sum.inr.inj h)
      refine ⟨rfl, rfl, ?_⟩
      rcases hstop with heq | hle
      · exact .inl ⟨p, by rw [heq]⟩
      · exact .inr hle
    case isFalse =>
      split at h <;> cases h

/-- The program ends, has stored inside the buffer only, and the strings it printed end there. -/
def Safe (resolve : FileManager) (arg : List Byte) : Prop :=
  ∀ argv0, ∃ fuel outcome, main resolve [argv0, arg] fuel = some outcome ∧ outcome ≠ .fault

/-! ## The way up -/

/-- From a node to one above it, by the names of the nodes passed. -/
inductive Climbs (resolve : FileManager) (start : BitVec 32) : List HFSStr255 → BitVec 32 → Prop
  | here : Climbs resolve start [] start
  | up {id parent : BitVec 32} {p : HFSStr255} {names : List HFSStr255}
      (hbelow : Climbs resolve start names id) (h : resolve id = .ok (p, parent))
      (hne : parent ≠ id) : Climbs resolve start (names ++ [p]) parent

/-- The node to begin with has a parent, and a name that is reached before the buffer is full finds
room in it. -/
structure Fits (resolve : FileManager) (start : BitVec 32) : Prop where
  parent : ∀ p, resolve start ≠ .ok (p, start)
  room : ∀ names p id, Climbs resolve start (names ++ [p]) id → room names < MAXPATHLEN - 1 →
    room (names ++ [p]) ≤ MAXPATHLEN - 1

variable {resolve : FileManager} {start id : BitVec 32} {names : List HFSStr255} {p : HFSStr255}

@[simp] theorem room_nil : room [] = 0 := rfl

@[simp] theorem room_append (names : List HFSStr255) (p : HFSStr255) :
    room (names ++ [p]) = room names + (1 + p.characters.length) := by
  simp [room]

@[simp] theorem length_inFront (names : List HFSStr255) :
    (inFront names []).length = room names := by
  induction names using List.reverseRecOn with
  | nil => rfl
  | append_singleton names p ih =>
    rw [inFront_append, room_append, List.length_cons, List.length_append, ih]
    omega

theorem climbs_nil (h : Climbs resolve start [] id) : id = start := by
  generalize hl : ([] : List HFSStr255) = l at h
  cases h with
  | here => rfl
  | up => simp at hl

/-- The last node passed. -/
theorem climbs_append (h : Climbs resolve start (names ++ [p]) id) :
    ∃ below, Climbs resolve start names below ∧ resolve below = .ok (p, id) ∧ id ≠ below := by
  generalize hl : names ++ [p] = l at h
  cases h with
  | here => simp at hl
  | @up below _ q qs hbelow hresolve hne =>
    obtain ⟨rfl, hlast⟩ := List.append_inj' hl rfl
    obtain rfl := List.singleton_inj.mp hlast
    exact ⟨below, hbelow, hresolve, hne⟩

/-- As long as there is room, the loop follows the way up. -/
theorem returns_climbs (h : Climbs resolve start names id) (hroom : room names ≤ MAXPATHLEN - 1)
    (r : Exit) :
    Returns (turn resolve) (.on start []) r ↔
      Returns (turn resolve) (.on id (inFront names [])) r := by
  induction h with
  | here => exact Iff.rfl
  | @up id parent p names _ h hne ih =>
    rw [room_append] at hroom
    rw [ih (by omega), inFront_append,
      returns_of_inl (turn_node h hne (by rw [length_inFront]; omega))]

/-! ## Behind the loop -/

/-- The cursor is moved past the slash. -/
theorem drop_on (id : BitVec 32) (s : List Byte) :
    (Vars.on id (slash :: s)).path.drop ((Vars.on id (slash :: s)).cursor + 1) = s ++ [0] := by
  simp only [Vars.on]
  rw [← List.drop_drop, List.drop_left' List.length_replicate]
  rfl

theorem cstring_isSome {l : List Byte} (h : 0 ∈ l) : (cstring l).isSome := by
  rw [cstring, if_pos h]
  rfl

/-- A string is shorter than what it is read from, by the zero byte. -/
theorem length_cstring_lt {l w : List Byte} (h : cstring l = some w) : w.length < l.length := by
  rw [cstring] at h
  split at h
  case isFalse => cases h
  case isTrue hzero =>
    obtain rfl := Option.some.inj h
    refine lt_of_le_of_ne (List.takeWhile_prefix _).length_le ?_
    intro hlen
    have hall := (List.takeWhile_prefix (l := l) (· ≠ 0)).eq_of_length hlen
    exact absurd (List.takeWhile_eq_self_iff.mp hall 0 hzero) (by decide)

/-- What the cursor points at ends inside the buffer, and so do both of the strings it is cut
into. -/
theorem report_isSome {path s : List Byte} {cursor : ℕ} (h : path.drop cursor = s ++ [0]) :
    (report path cursor).isSome := by
  have hzero : 0 ∈ path.drop cursor := by simp [h]
  obtain ⟨w, hw⟩ := Option.isSome_iff_exists.mp (cstring_isSome hzero)
  have hshort := length_cstring_lt hw
  rw [h, List.length_append, List.length_singleton] at hshort
  rw [report, hw]
  simp only [Option.bind_eq_bind, Option.bind_some]
  cases hi : w.idxOf? slash with
  | none => rfl
  | some i =>
    obtain ⟨hlt, -⟩ := List.idxOf?_eq_some_iff.mp hi
    have hlen : (path.drop cursor).length = s.length + 1 := by rw [h, List.length_append]; rfl
    rw [List.length_drop] at hlen
    have hvolume : 0 ∈ (path.set (cursor + i) 0).drop cursor := by
      rw [List.drop_set, if_neg (by omega), Nat.add_sub_cancel_left]
      exact List.mem_set (by rw [List.length_drop]; omega) 0
    have hupath : 0 ∈ (path.set (cursor + i) 0).drop (cursor + i + 1) := by
      rw [List.drop_set_of_lt (by omega), Nat.add_assoc, ← List.drop_drop, h,
        List.drop_append_of_le_length (by omega)]
      simp
    obtain ⟨volume, hv⟩ := Option.isSome_iff_exists.mp (cstring_isSome hvolume)
    obtain ⟨upath, hu⟩ := Option.isSome_iff_exists.mp (cstring_isSome hupath)
    simp only [hv, hu, Option.bind_some, Option.pure_def, Option.isSome_some]

/-! ## The program -/

theorem main_eq (resolve : FileManager) (argv0 arg : List Byte) (fuel : ℕ) :
    main resolve [argv0, arg] fuel =
      (run (turn resolve) fuel (.on (atoi arg) [])).map fun
        | .done path cursor => (report path cursor).elim .fault .printed
        | .returns result => .returns result
        | .fault => .fault := by
  have hempty : List.replicate MAXPATHLEN (0 : Byte) = List.replicate (MAXPATHLEN - 1) 0 ++ [0] :=
    List.replicate_succ'
  rw [main, hempty]
  rfl

/-- A way of leaving the loop that does no harm. -/
def Exit.Harmless : Exit → Prop
  | .done path cursor => (report path cursor).isSome
  | .returns _ => True
  | .fault => False

theorem safe_iff_returns {arg : List Byte} :
    Safe resolve arg ↔ ∃ r, Returns (turn resolve) (.on (atoi arg) []) r ∧ r.Harmless := by
  refine ⟨fun h ↦ ?_, ?_⟩
  · obtain ⟨fuel, outcome, hmain, hne⟩ := h []
    rw [main_eq] at hmain
    obtain ⟨r, hr, rfl⟩ := Option.map_eq_some_iff.mp hmain
    refine ⟨r, ⟨fuel, hr⟩, ?_⟩
    cases r with
    | done path cursor =>
      cases hreport : report path cursor with
      | none => simp [hreport] at hne
      | some text => simp [Exit.Harmless, hreport]
    | returns result => trivial
    | fault => exact hne rfl
  · rintro ⟨r, ⟨fuel, hr⟩, hharmless⟩ argv0
    refine ⟨fuel, _, by rw [main_eq, hr]; rfl, ?_⟩
    cases r with
    | done path cursor =>
      obtain ⟨text, htext⟩ := Option.isSome_iff_exists.mp hharmless
      simp [htext]
    | returns result => simp
    | fault => exact hharmless.elim

theorem not_safe_of_returns {arg : List Byte} {r : Exit}
    (h : Returns (turn resolve) (.on (atoi arg) []) r) (hr : ¬ r.Harmless) :
    ¬ Safe resolve arg := by
  intro hsafe
  obtain ⟨r', hr', hharmless⟩ := safe_iff_returns.mp hsafe
  exact hr (h.unique hr' ▸ hharmless)

/-- **With nothing in front of the cursor, it is moved past the end of the buffer.** -/
theorem not_safe_of_own_parent {arg : List Byte} (h : resolve (atoi arg) = .ok (p, atoi arg)) :
    ¬ Safe resolve arg := by
  refine not_safe_of_returns
    (returns_of_inr (r := .done (Vars.on (atoi arg) []).path MAXPATHLEN) ?_) ?_
  · simp only [turn, Vars.on, h, true_or, if_true]
    rfl
  · have hend : (Vars.on (atoi arg) []).path.drop MAXPATHLEN = [] := by
      refine List.drop_eq_nil_of_le ?_
      rw [Vars.on, List.length_append, List.length_replicate]
      rfl
    have hnone : cstring [] = none := rfl
    rw [Exit.Harmless, report, hend, hnone]
    exact Bool.false_ne_true

/-- **A name that is longer than the room left is copied to in front of the buffer.** -/
theorem not_safe_of_long {arg : List Byte} (h : Climbs resolve (atoi arg) (names ++ [p]) id)
    (hbefore : room names < MAXPATHLEN - 1) (hroom : MAXPATHLEN - 1 < room (names ++ [p])) :
    ¬ Safe resolve arg := by
  obtain ⟨below, hbelow, hresolve, hne⟩ := climbs_append h
  refine not_safe_of_returns
    ((returns_climbs hbelow (by omega) .fault).mpr (returns_of_inr ?_)) not_false
  have hcursor : (Vars.on below (inFront names [])).cursor = MAXPATHLEN - 1 - room names := by
    rw [Vars.on, length_inFront]
  refine (turn_eq_fault_iff (by omega)).mpr ⟨p, id, hresolve, hne, ?_, ?_⟩
  · simp only [Vars.on, length_inFront]
    omega
  · rw [stores_subset_iff (by omega), hcursor]
    rw [room_append] at hroom
    omega

/-- What holds in front of every turn: the names passed have found room, and nothing else has been
stored. -/
def Inside (resolve : FileManager) (start : BitVec 32) (v : Vars) : Prop :=
  ∃ names id, Climbs resolve start names id ∧ room names ≤ MAXPATHLEN - 1 ∧
    v = .on id (inFront names [])

/-- A turn that goes on finds room for a name. -/
theorem inside_step (hfits : Fits resolve start) {v v' : Vars} (hv : Inside resolve start v)
    (hturn : turn resolve v = .inl v') :
    Inside resolve start v' ∧ v'.len.toNat < v.len.toNat := by
  obtain ⟨names, id, hclimbs, hroom, rfl⟩ := hv
  obtain ⟨p, parent, hresolve, hne, hlen⟩ := turn_eq_inl hturn
  simp only [Vars.on, length_inFront] at hresolve hne hlen
  have hup := hclimbs.up hresolve hne
  have hnext := hfits.room _ _ _ hup (by omega)
  rw [turn_node hresolve hne (by rw [length_inFront]; rwa [room_append] at hnext)] at hturn
  obtain rfl := Sum.inl.inj hturn
  refine ⟨⟨names ++ [p], parent, hup, hnext, by rw [inFront_append]⟩, ?_⟩
  rw [← inFront_append]
  simp only [Vars.on, length_inFront, room_append, Int.toNat_natCast] at hnext ⊢
  omega

/-- A turn that leaves the loop does no harm. -/
theorem harmless_of_turn (hfits : Fits resolve start) {v : Vars} {r : Exit}
    (hv : Inside resolve start v) (hturn : turn resolve v = .inr r) : r.Harmless := by
  obtain ⟨names, id, hclimbs, hroom, rfl⟩ := hv
  cases r with
  | returns result => trivial
  | fault =>
    have hcursor : (Vars.on id (inFront names [])).cursor = MAXPATHLEN - 1 - room names := by
      rw [Vars.on, length_inFront]
    obtain ⟨p, parent, hresolve, hne, hlen, hout⟩ := (turn_eq_fault_iff (by omega)).mp hturn
    simp only [Vars.on, length_inFront] at hresolve hne hlen
    have hnext := hfits.room _ _ _ (hclimbs.up hresolve hne) (by omega)
    rw [stores_subset_iff (by omega), hcursor] at hout
    rw [room_append] at hnext
    omega
  | done path cursor =>
    obtain ⟨rfl, rfl, hstop⟩ := turn_eq_done hturn
    have hnil : names ≠ [] := by
      rintro rfl
      obtain rfl := climbs_nil hclimbs
      rcases hstop with ⟨p, h⟩ | hle
      · exact hfits.parent p h
      · exact absurd hle (not_le.mpr (by decide : (0 : ℤ) < (MAXPATHLEN - 1 : ℕ)))
    obtain ⟨qs, q, rfl⟩ := (List.eq_nil_or_concat' names).resolve_left hnil
    rw [inFront_append]
    exact report_isSome (drop_on id (q.characters ++ inFront qs []))

/-- **`cnid2path` stays inside its buffer** exactly when the node it is given is not its own parent,
and no name on the way up is longer than the room it finds. -/
theorem cnid2path_safe_iff (resolve : FileManager) (arg : List Byte) :
    Safe resolve arg ↔ Fits resolve (atoi arg) := by
  refine ⟨fun hsafe ↦ ⟨?_, ?_⟩, fun hfits ↦ ?_⟩
  · intro p h
    exact not_safe_of_own_parent h hsafe
  · intro names p id h hbefore
    by_contra hroom
    exact not_safe_of_long h hbefore (not_le.mp hroom) hsafe
  · have hstart : Inside resolve (atoi arg) (.on (atoi arg) []) :=
      ⟨[], atoi arg, .here, Nat.zero_le _, rfl⟩
    exact safe_iff_returns.mpr (Returns.total (fun v ↦ v.len.toNat)
      (fun _ _ ↦ inside_step hfits) (fun _ _ ↦ harmless_of_turn hfits) hstart)

/-- A name of 255 bytes. -/
def longName : HFSStr255 := ⟨List.replicate 255 0x61, List.length_replicate.le⟩

/-- A file in three folders, one in another, each of the four with such a name. -/
def deepVolume : FileManager
  | 19 => .ok (longName, 18)
  | 18 => .ok (longName, 17)
  | 17 => .ok (longName, 16)
  | 16 => .ok (longName, 2)
  | nodeID => demoVolume nodeID

/-- **Four names of 255 bytes are one byte more than there is room for**, and the node above the
volume has no name in the buffer at all. -/
theorem not_safe : ¬ Safe deepVolume [0x31, 0x39] ∧ ¬ Safe demoVolume [0x31] := by
  have h₁ : Climbs deepVolume 19 ([] ++ [longName]) 18 := .up .here rfl (by decide)
  have h₂ : Climbs deepVolume 19 (_ ++ [longName]) 17 := .up h₁ rfl (by decide)
  have h₃ : Climbs deepVolume 19 (_ ++ [longName]) 16 := .up h₂ rfl (by decide)
  have h₄ : Climbs deepVolume 19 (_ ++ [longName]) 2 := .up h₃ rfl (by decide)
  have hlen : longName.characters.length = 255 := List.length_replicate
  refine ⟨not_safe_of_long h₄ ?_ ?_, not_safe_of_own_parent (p := ⟨[], by decide⟩) rfl⟩
  · simp only [room_append, room_nil, hlen]
    decide
  · simp only [room_append, room_nil, hlen]
    decide

end Cnid2path
end MacOSXInternal
