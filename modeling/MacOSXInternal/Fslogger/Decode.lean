import MacOSXInternal.Fslogger.Stream

/-!
# The walk decodes the stream

`places` is what there is to be visited in a stream, event by event and argument by argument, with
the address of the data of every argument.

* `Readable` is what has to be mapped for the data of an argument to be shown.
* `processBuffer_iff` is the result: the walk visits what there is to be visited, and ends at the
  end of what was read, exactly if all arguments can be shown.
* `processBuffer_raw` is an argument that cannot: the walk takes the bytes of an `FSE_ARG_RAW` for
  an address, where those of every other type are shown from where they are.
* `readable_iff_of_stack`: the others can, because the buffer is on the stack.
-/

set_option autoImplicit false

namespace MacOSXInternal
namespace Fslogger

open AddressSpace

variable (h : Header) (c : Lookups) (o : ByteOrder) (m : AddressSpace)

/-! ## What there is to be visited -/

/-- What a visit is of. -/
inductive Place
  | dropped (pid : ℤ)
  | event (type pid : ℤ)
  | arg (type len data : ℕ)
  | done
  deriving DecidableEq

def Visit.place : Visit → Place
  | .dropped pid => .dropped pid
  | .event type _ pid _ => .event type pid
  | .arg type len _ data _ => .arg type len data
  | .done _ => .done

/-- Arguments that lie at `a`, and their terminator. -/
def argPlaces : ℕ → List Arg → List Place
  | _, [] => [.done]
  | a, arg :: args => .arg arg.type.toNat arg.data.length (a + 4) ::
      argPlaces (a + (2 + 2 + arg.data.length)) args

/-- An event that lies at `a`. -/
def Event.places (a : ℕ) : Event → List Place
  | .dropped pid => [.dropped pid.toInt]
  | .ordinary type pid args => .event type.toInt pid.toInt :: argPlaces (a + 8) args

/-- Events that lie at `a`, back to back. -/
def places : ℕ → List Event → List Place
  | _, [] => []
  | a, e :: events => e.places a ++ places (a + (e.serialise h o).length) events

/-! ## What has to be mapped -/

/-- The data of an argument can be shown: a string has an end, an integer is there, and the data of
an `FSE_ARG_RAW` that is not empty, read as an address, is one where as many bytes are. -/
def Readable : Place → Prop
  | .arg type len data =>
    match h.case type with
    | .vnode | .string =>
      ∃ z, data ≤ z ∧ z < 2 ^ 32 ∧ m z = some 0 ∧ ∀ x, data ≤ x → x < z → (m x).isSome
    | .raw => len = 0 ∨ ∃ ptr, m.field o data 4 = some ptr ∧
      ∀ j < len, (m ((ptr + j) % 2 ^ 32)).isSome
    | .default => True
    | _ => ∀ j < 4, (m (data + j)).isSome
  | _ => True

/-- The file type is in the table. -/
theorem mode_index (x : ℕ) : (x &&& S_IFMT) >>> 12 < iftovt_tab.length := by
  have hle : x &&& S_IFMT ≤ S_IFMT := Nat.and_le_right
  have hlen : iftovt_tab.length = 16 := rfl
  rw [S_IFMT] at *
  rw [hlen, Nat.shiftRight_eq_div_pow]
  omega

variable {h c o m}

theorem isSome_bind_of_forall {α β : Type} {x : Option α} {f : α → Option β}
    (hf : ∀ a, (f a).isSome) : (x >>= f).isSome ↔ x.isSome := by
  cases x with
  | none => rfl
  | some a => simp [hf]

theorem int32_isSome_iff {a : ℕ} : (int32 o m a).isSome ↔ ∀ j < 4, (m (a + j)).isSome := by
  rw [int32, Option.isSome_map, field_isSome_iff]

/-- `showArg` needs what `Readable` says, whatever is remembered of earlier arguments. -/
theorem showArg_isSome_iff {type len data : ℕ} {v : Bool} :
    (showArg h c o m type len data v).isSome ↔ Readable h o m (.arg type len data) := by
  rw [showArg, Readable]
  cases h.case type with
  | vnode | string => exact (isSome_bind_of_forall fun _ ↦ rfl).trans string_isSome_iff
  | int32 | ino => exact (isSome_bind_of_forall fun _ ↦ rfl).trans int32_isSome_iff
  | uid | gid => exact (isSome_bind_of_forall fun _ ↦ rfl).trans field_isSome_iff
  | dev =>
    refine (isSome_bind_of_forall ?_).trans field_isSome_iff
    intro dev
    cases v <;> rfl
  | mode =>
    refine (isSome_bind_of_forall ?_).trans field_isSome_iff
    intro mode
    exact (isSome_bind_of_forall fun _ ↦ rfl).mpr (by simpa using mode_index _)
  | raw =>
    by_cases hlen : len = 0
    · simp [hlen]
    · simp only [hlen, if_false, false_or]
      rcases hptr : m.field o data 4 with _ | ptr
      · simp
      · show (AddressSpace.bytes _ ptr len >>= _ : Option (Shown × Bool)).isSome ↔ _
        refine (isSome_bind_of_forall fun _ ↦ rfl).trans (bytes_isSome_iff.trans ?_)
        simp
  | default => simp

/-! ## Pieces of the walk -/

/-- What is to be said of a piece `x` of the walk that begins in `w`, with `ps` before it and `n`
bytes to go: it visits just these and advances by just these, or faults if one of them cannot be
shown. -/
structure Decodes (h : Header) (o : ByteOrder) (m : AddressSpace) (ps : List Place) (n : ℕ)
    (w : Walk) (x : Except Stop Walk) : Prop where
  ok : (∀ p ∈ ps, Readable h o m p) → ∃ w', x = .ok w' ∧ w'.off = w.off + n ∧
    w'.log.map Visit.place = w.log.map Visit.place ++ ps
  fault : (∃ p ∈ ps, ¬Readable h o m p) → x = .error .fault

/-- Visits of `ps`, if all of them can be shown. -/
structure Covers (h : Header) (o : ByteOrder) (m : AddressSpace) (ps : List Place)
    (x : Option (List Visit × Bool)) : Prop where
  isSome_iff : x.isSome ↔ ∀ p ∈ ps, Readable h o m p
  places : ∀ p, x = some p → p.1.map Visit.place = ps

theorem Covers.decodes {ps : List Place} {x : Option (List Visit × Bool)} (hx : Covers h o m ps x)
    (w : Walk) (n : ℕ) : Decodes h o m ps n w (w.advance n x) where
  ok hr := by
    obtain ⟨p, rfl⟩ := Option.isSome_iff_exists.mp (hx.isSome_iff.mpr hr)
    exact ⟨_, rfl, rfl, by rw [List.map_append, hx.places p rfl]⟩
  fault := by
    rintro ⟨p, hp, hn⟩
    cases x with
    | none => rfl
    | some q => exact absurd (hx.isSome_iff.mp rfl p hp) hn

/-- A visit of what can be shown, and more. -/
theorem Covers.cons {v : Visit} {ps : List Place} {x : Option (List Visit × Bool)}
    (hv : Readable h o m v.place) (hx : Covers h o m ps x) :
    Covers h o m (v.place :: ps) (x.bind fun p ↦ some (v :: p.1, p.2)) where
  isSome_iff := by
    rw [List.forall_mem_cons, and_iff_right hv, ← hx.isSome_iff]
    exact isSome_bind_of_forall fun _ ↦ rfl
  places p hp := by
    obtain ⟨q, hq, hp⟩ := Option.bind_eq_some_iff.mp hp
    cases hp
    rw [List.map_cons, hx.places q hq]

/-- One piece after another. -/
theorem Covers.append {ps qs : List Place} {x : Option (List Visit × Bool)}
    {f : Bool → Option (List Visit × Bool)} (hx : Covers h o m ps x)
    (hf : ∀ v, Covers h o m qs (f v)) :
    Covers h o m (ps ++ qs) (x.bind fun p ↦ (f p.2).map fun q ↦ (p.1 ++ q.1, q.2)) where
  isSome_iff := by
    rw [List.forall_mem_append, ← hx.isSome_iff]
    cases x with
    | none => simp
    | some p => simp [(hf p.2).isSome_iff]
  places p hp := by
    obtain ⟨q, hq, hp⟩ := Option.bind_eq_some_iff.mp hp
    obtain ⟨r, hr, rfl⟩ := Option.map_eq_some_iff.mp hp
    rw [List.map_append, hx.places q hq, (hf q.2).places r hr]

/-- **The arguments of an event** and their terminator. -/
theorem visitArgs_covers (c : Lookups) (args : List Arg) (kea : ℕ) (v : Bool) :
    Covers h o m (argPlaces kea args) (visitArgs h c o m kea v args) := by
  induction args generalizing kea v with
  | nil => exact ⟨by simp [visitArgs, argPlaces, Readable], fun p hp ↦ by cases hp; rfl⟩
  | cons a args ih =>
    obtain ⟨name, hname⟩ := argName_isSome (h := h) a.type.toNat
    have hshow : (showArg h c o m a.type.toNat a.data.length (kea + 4) v).isSome ↔ _ :=
      showArg_isSome_iff
    rw [visitArgs, argPlaces]
    simp only [hname, Option.bind_eq_bind, Option.bind_some]
    cases hs : showArg h c o m a.type.toNat a.data.length (kea + 4) v with
    | none =>
      rw [hs] at hshow
      exact ⟨by simp [← hshow], fun _ hp ↦ by cases hp⟩
    | some s =>
      rw [hs] at hshow
      have hrest := ih (kea + (2 + 2 + a.data.length)) s.2
      exact .cons (v := .arg _ _ name _ s.1) (hshow.mp rfl) hrest

theorem visitEvent_covers (c : Lookups) {e : Event} (he : e.WellFormed h) (a : ℕ) (v : Bool) :
    Covers h o m (e.places a) (visitEvent h c o m a v e) := by
  cases e with
  | dropped pid => exact ⟨by simp [visitEvent, Event.places, Readable], fun p hp ↦ by cases hp; rfl⟩
  | ordinary type pid args =>
    obtain ⟨name, hname⟩ := eventName_isSome he.1 he.2.1
    rw [visitEvent, Event.places]
    simp only [hname, Option.bind_eq_bind, Option.bind_some]
    exact .cons (v := .event _ name _ _) trivial (visitArgs_covers c args (a + 8) v)

/-- **A stream.** -/
theorem visitAll_covers (c : Lookups) {events : List Event} (hwf : ∀ e ∈ events, e.WellFormed h)
    (a : ℕ) (v : Bool) :
    Covers h o m (places h o a events) (visitAll h c o v (locateIn h o m a events)) := by
  induction events generalizing a v with
  | nil => exact ⟨by simp [visitAll, locateIn, places], fun p hp ↦ by cases hp; rfl⟩
  | cons e events ih =>
    obtain ⟨he, hwf⟩ := List.forall_mem_cons.mp hwf
    exact (visitEvent_covers c he a v).append fun v ↦ ih hwf _ v

/-- **The walk decodes the stream exactly if all arguments can be shown**: it visits what there is
to be visited, in order and with the address of every argument's data, and nothing else, and `off`
is then the number of bytes read. -/
theorem processBuffer_iff (h : Header) (c : Lookups) (o : ByteOrder) (m : AddressSpace)
    (buffer : ℕ) (events : List Event) (hwf : ∀ e ∈ events, e.WellFormed h)
    (hm : m.Holds buffer (serialise h o events)) (is_fse_arg_vnode : Bool) :
    (∃ w, processBuffer h c o m buffer (serialise h o events).length is_fse_arg_vnode = .ok w ∧
      w.log.map Visit.place = places h o buffer events ∧
      w.off = (serialise h o events).length) ↔
    ∀ p ∈ places h o buffer events, Readable h o m p := by
  have hd := (visitAll_covers (o := o) (m := m) c hwf buffer is_fse_arg_vnode).decodes
    ⟨0, is_fse_arg_vnode, []⟩ (serialise h o events).length
  rw [← processBuffer_eq c hwf hm] at hd
  constructor
  · rintro ⟨w, hw, -⟩
    by_contra hn
    rw [hd.fault (by simpa using hn)] at hw
    simp at hw
  · intro hr
    obtain ⟨w, hw, hoff, hlog⟩ := hd.ok hr
    exact ⟨w, hw, hlog, hoff.trans (Nat.zero_add _)⟩

/-! ## The stack -/

/-- The buffer is a local variable of `main`: from there on memory is mapped, as far as the strings
of the program's arguments. -/
def OnStack (m : AddressSpace) (buffer : ℕ) : Prop :=
  ∃ z, buffer + FSEVENT_BUFSIZ + 2 ≤ z ∧ z < 2 ^ 32 ∧ m z = some 0 ∧
    ∀ x, buffer ≤ x → x < z → (m x).isSome

/-- The data of an argument, and a terminator behind, are within the arguments. -/
theorem argPlaces_bound {args : List Arg} {kea type len data : ℕ}
    (hp : .arg type len data ∈ argPlaces kea args) :
    kea ≤ data ∧ data + len + 2 ≤ kea + (serialiseArgs h o args).length := by
  induction args generalizing kea with
  | nil => simp [argPlaces] at hp
  | cons a args ih =>
    have htwo := two_le_length_serialiseArgs (h := h) (o := o) args
    rw [serialiseArgs_cons, List.length_append, length_arg]
    rw [argPlaces, List.mem_cons] at hp
    rcases hp with hp | hp
    · obtain ⟨-, rfl, rfl⟩ := Place.arg.inj hp
      omega
    · have := ih hp
      omega

theorem places_bound {events : List Event} {buffer type len data : ℕ}
    (hp : .arg type len data ∈ places h o buffer events) :
    buffer ≤ data ∧ data + 2 ≤ buffer + (serialise h o events).length := by
  induction events generalizing buffer with
  | nil => simp [places] at hp
  | cons e events ih =>
    have hcons : serialise h o (e :: events) = e.serialise h o ++ serialise h o events :=
      List.flatMap_cons
    rw [hcons, List.length_append]
    rw [places, List.mem_append] at hp
    rcases hp with hp | hp
    · cases e with
      | dropped => simp [Event.places] at hp
      | ordinary type' pid args =>
        have hp : .arg type len data ∈ argPlaces (buffer + 8) args := by
          simpa [Event.places] using hp
        have := argPlaces_bound (h := h) (o := o) hp
        simp only [Event.serialise, List.length_append, ByteOrder.length_encode]
        omega
    · have := ih hp
      omega

/-- **In a process only `FSE_ARG_RAW` matters.** -/
theorem readable_iff_of_stack {buffer : ℕ} {events : List Event} (hs : OnStack m buffer)
    (hfit : (serialise h o events).length ≤ FSEVENT_BUFSIZ) :
    (∀ p ∈ places h o buffer events, Readable h o m p) ↔
      ∀ type len data, .arg type len data ∈ places h o buffer events → h.case type = .raw →
        len = 0 ∨ ∃ ptr, m.field o data 4 = some ptr ∧
          ∀ j < len, (m ((ptr + j) % 2 ^ 32)).isSome := by
  constructor
  · intro hr type len data hp hraw
    have := hr _ hp
    rwa [Readable, hraw] at this
  · intro hr p hp
    cases p with
    | dropped | event | done => trivial
    | arg type len data =>
      obtain ⟨z, hz, hlt, h0, hmap⟩ := hs
      have hb := places_bound hp
      have hint (j : ℕ) (hj : j < 4) : (m (data + j)).isSome := by
        by_cases hjz : data + j = z
        · rw [hjz, h0]
          rfl
        · exact hmap _ (by omega) (by omega)
      rw [Readable]
      split
      case h_1 | h_2 => exact ⟨z, by omega, hlt, h0, fun x hx hx' ↦ hmap x (by omega) hx'⟩
      case h_3 hraw => exact hr type len data hp hraw
      case h_4 => trivial
      case h_5 => exact hint

/-- A library that knows one user and one group. -/
def demoLookups : Lookups where
  get_proc_name _ := "launchd"
  getpwuid n := if n = 0 then some "root" else none
  getgrgid n := if n = 0 then some "wheel" else none
  strmode _ := "?---------"

/-- A change of owner. -/
def chown : List Event := [.ordinary 8 77 [⟨8, [0, 0, 1, 0xf5]⟩, ⟨11, [0, 0, 0, 0]⟩]]

theorem places_chown : places tiger .big 0x1000 chown =
    [.event 8 77, .arg 8 4 0x100c, .arg 11 4 0x1014, .done] := by
  decide

/-- It is decoded. -/
theorem processBuffer_iff_chown :
    ∃ w, processBuffer tiger demoLookups .big (ofList 0x1000 (serialise tiger .big chown)) 0x1000
        (serialise tiger .big chown).length false = .ok w ∧
      w.log.map Visit.place = places tiger .big 0x1000 chown ∧
      w.off = (serialise tiger .big chown).length := by
  refine (processBuffer_iff tiger demoLookups .big (ofList 0x1000 (serialise tiger .big chown))
    0x1000 chown ?_ (holds_ofList _ _) false).mpr ?_
  · simp [chown, Event.WellFormed, Arg.WellFormed, tiger]
  · rw [places_chown]
    simp only [List.forall_mem_cons, List.not_mem_nil]
    refine ⟨trivial, ?_, ?_, trivial, by simp⟩
    · show ∀ j < 4, _
      decide
    · show ∀ j < 4, _
      decide

/-- An argument of four zero bytes that says it is raw. -/
def raw : List Event := [.ordinary 0 77 [⟨6, [0, 0, 0, 0]⟩]]

/-- **The walk does not get past it**: it looks for what the four bytes are at address zero, and the
program ends there. -/
theorem processBuffer_raw :
    (∀ e ∈ raw, e.WellFormed tiger) ∧
    (ofList 0x1000 (serialise tiger .big raw)).Holds 0x1000 (serialise tiger .big raw) ∧
    processBuffer tiger demoLookups .big (ofList 0x1000 (serialise tiger .big raw)) 0x1000
      (serialise tiger .big raw).length false = .error .fault := by
  refine ⟨?_, holds_ofList _ _, by decide⟩
  simp [raw, Event.WellFormed, Arg.WellFormed, tiger]

end Fslogger
end MacOSXInternal
