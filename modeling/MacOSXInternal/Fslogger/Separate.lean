import MacOSXInternal.Fslogger.Safe

/-!
# Whether an event is reported by itself

`fslogger` remembers one thing from one event to the next, and from one `read` to the next:
`is_fse_arg_vnode`, which an `FSE_ARG_VNODE` sets and an `FSE_ARG_DEV` resets, and which decides how
an `FSE_ARG_DEV` is labelled.

* `session` is the endless loop, `alone` what a new `fslogger` prints of one event.
* `session_eq` says that the loop prints the visits of its events, wherever they are.
* `visitEvent_alike_iff` is one event, printed twice, and `follows_iff` a session, event by event.
* `separate_iff` is the result: a session is the sum of its events exactly if none of them finds the
  flag set that it looks at, and the data of every `FSE_ARG_RAW` points to the same bytes.
-/

set_option autoImplicit false

namespace MacOSXInternal
namespace Fslogger

open AddressSpace

/-! ## What is printed -/

/-- What is printed of a visit. -/
inductive Line
  | dropped (pid : ℤ)
  | event (type : ℤ) (name : String) (pid : ℤ) (procName : String)
  | arg (type len : ℕ) (name : String) (shown : Shown)
  | done (type : ℕ)
  deriving DecidableEq

def Visit.line : Visit → Line
  | .dropped pid => .dropped pid
  | .event type name pid procName => .event type name pid procName
  | .arg type len name _ shown => .arg type len name shown
  | .done type => .done type

section
variable (h : Header) (c : Lookups) (o : ByteOrder) (buffer : ℕ)

/-- The endless loop, as long as `read` returns something.  What it returns is in the buffer then,
and behind it what was there before. -/
def session : AddressSpace → Bool → List (List Byte) → Except Stop (List Line)
  | _, _, [] => .ok []
  | m, is_fse_arg_vnode, l :: reads => do
    let m := store m buffer l
    let w ← processBuffer h c o m buffer l.length is_fse_arg_vnode
    let lines ← session m w.is_fse_arg_vnode reads
    return w.log.map Visit.line ++ lines

/-- What an `fslogger` prints that is started for this event. -/
def alone (m : AddressSpace) (e : Event) : Except Stop (List Line) :=
  session h c o buffer m false [e.serialise h o]

/-- The events are reported as if each had its own `fslogger`, in a memory that is at first `m`. -/
def Separate (m : AddressSpace) (reads : List (List Event)) : Prop :=
  ∃ descriptions, reads.flatten.mapM (alone h c o buffer m) = .ok descriptions ∧
    session h c o buffer m false (reads.map (serialise h o)) = .ok descriptions.flatten

end

/-! ## Event by event -/

/-- The events of a session, and where each of them is. -/
def locate (h : Header) (o : ByteOrder) (buffer : ℕ) :
    AddressSpace → List (List Event) → List Located
  | _, [] => []
  | m, events :: reads =>
    let m := store m buffer (serialise h o events)
    locateIn h o m buffer events ++ locate h o buffer m reads

variable {h : Header} {c : Lookups} {o : ByteOrder} {m : AddressSpace}

/-- **The endless loop**: the lines of all events, wherever they are. -/
theorem session_eq (c : Lookups) (buffer : ℕ) {reads : List (List Event)}
    (hwf : ∀ e ∈ reads.flatten, e.WellFormed h) (v : Bool) :
    session h c o buffer m v (reads.map (serialise h o)) =
      fetch ((visitAll h c o v (locate h o buffer m reads)).map fun p ↦ p.1.map Visit.line) := by
  induction reads generalizing m v with
  | nil => rfl
  | cons events reads ih =>
    rw [List.flatten_cons, List.forall_mem_append] at hwf
    rw [List.map_cons, session, locate, visitAll_append]
    simp only [processBuffer_eq c hwf.1 (holds_store ..), Walk.advance, ih hwf.2]
    cases visitAll h c o v
        (locateIn h o (store m buffer (serialise h o events)) buffer events) with
    | none => rfl
    | some p =>
      simp only [Option.map_some, fetch_some, ok_bind, Option.bind_some]
      cases visitAll h c o p.2
          (locate h o buffer (store m buffer (serialise h o events)) reads) with
      | none => rfl
      | some q => simp

/-- One event. -/
theorem alone_eq (c : Lookups) {buffer : ℕ} {e : Event} (he : e.WellFormed h) :
    alone h c o buffer m e =
      fetch ((visitEvent h c o (store m buffer (e.serialise h o)) buffer false e).map
        fun p ↦ p.1.map Visit.line) := by
  have hone : serialise h o [e] = e.serialise h o := List.flatMap_singleton ..
  have hflat : ∀ e' ∈ [[e]].flatten, e'.WellFormed h := by simpa using he
  have hsession := session_eq (o := o) (m := m) c buffer hflat false
  rw [List.map_singleton, hone] at hsession
  rw [alone, hsession, locate, locate, locateIn, locateIn, hone, List.append_nil, visitAll]
  cases visitEvent h c o (store m buffer (e.serialise h o)) buffer false e with
  | none => rfl
  | some p => simp [visitAll]

/-! ## What is remembered -/

section
variable (h : Header)

/-- What an argument makes of `is_fse_arg_vnode`, if it is one that sets it or looks at it. -/
def Arg.mark (a : Arg) : Option Bool :=
  match h.case a.type.toNat with
  | .vnode => some true
  | .dev => some false
  | _ => none

def Event.marks (e : Event) : List Bool := e.args.filterMap (Arg.mark h)

/-- No event begins with an `FSE_ARG_DEV` if the last thing of its kind was an `FSE_ARG_VNODE`. -/
def Unmixed (events : List Event) : Prop :=
  ∀ before e after, events = before ++ e :: after →
    ¬((before.flatMap (Event.marks h)).getLast? = some true ∧ (e.marks h).head? = some false)

end

theorem showArg_mark {a : Arg} {data : ℕ} {v : Bool} {p : Shown × Bool}
    (hp : showArg h c o m a.type.toNat a.data.length data v = some p) :
    p.2 = (a.mark h).getD v := by
  rw [showArg] at hp
  rw [Arg.mark]
  cases hcase : h.case a.type.toNat with
  | vnode | string | int32 | ino | uid | gid | dev | mode | default =>
    rw [hcase] at hp
    simp only [Option.bind_eq_bind, Option.bind_eq_some_iff] at hp
    grind
  | raw =>
    rw [hcase] at hp
    simp only [Option.bind_eq_bind] at hp
    split at hp
    · cases hp
      rfl
    · simp only [Option.bind_eq_some_iff] at hp
      grind

/-! ## An event, printed twice -/

/-- The data of an `FSE_ARG_RAW` points to the same bytes in two memories, or there is none. -/
def SameRaw (o : ByteOrder) (m m' : AddressSpace) (len data data' : ℕ) : Prop :=
  len = 0 ∨ ∃ ptr ptr' bytes, m.field o data 4 = some ptr ∧ m'.field o data' 4 = some ptr' ∧
    AddressSpace.bytes (fun a ↦ m (a % 2 ^ 32)) ptr len = some bytes ∧
    AddressSpace.bytes (fun a ↦ m' (a % 2 ^ 32)) ptr' len = some bytes

/-- That of every `FSE_ARG_RAW` among arguments that lie at two addresses. -/
def SameRaws (h : Header) (o : ByteOrder) (m m' : AddressSpace) : ℕ → ℕ → List Arg → Prop
  | _, _, [] => True
  | a, a', arg :: args =>
    (h.case arg.type.toNat = .raw → SameRaw o m m' arg.data.length (a + 4) (a' + 4)) ∧
      SameRaws h o m m' (a + (2 + 2 + arg.data.length)) (a' + (2 + 2 + arg.data.length)) args

variable {m' : AddressSpace}

theorem showArg_alike_iff {a : Arg} (htyped : a.Typed h) {data data' : ℕ} (v v' : Bool)
    (hm : m.Holds data a.data) (hm' : m'.Holds data' a.data)
    (hfit : data + a.data.length ≤ 2 ^ 32) (hfit' : data' + a.data.length ≤ 2 ^ 32) :
    (∃ s, showArg h c o m a.type.toNat a.data.length data v = some (s, (a.mark h).getD v) ∧
      showArg h c o m' a.type.toNat a.data.length data' v' = some (s, (a.mark h).getD v')) ↔
    (h.case a.type.toNat = .raw → SameRaw o m m' a.data.length data data') ∧
      ¬(v ≠ v' ∧ a.mark h = some false) := by
  have hread (hlen : 4 ≤ a.data.length) : m.field o data 4 = some (o.decode (a.data.take 4)) :=
    field_eq (k := 0) hm (by omega)
  have hread' (hlen : 4 ≤ a.data.length) : m'.field o data' 4 = some (o.decode (a.data.take 4)) :=
    field_eq (k := 0) hm' (by omega)
  rw [Arg.Typed] at htyped
  rw [showArg, showArg, Arg.mark]
  cases hcase : h.case a.type.toNat with
  | vnode | string =>
    rw [hcase] at htyped
    simp [string_of_holds hm htyped hfit, string_of_holds hm' htyped hfit']
  | int32 | ino =>
    rw [hcase] at htyped
    simp [int32, hread htyped, hread' htyped]
  | uid | gid =>
    rw [hcase] at htyped
    simp [hread htyped, hread' htyped]
  | mode =>
    rw [hcase] at htyped
    obtain ⟨t, ht⟩ : ∃ t, iftovt_tab[(o.decode (a.data.take 4) &&& 0xfffff000 &&& S_IFMT) >>> 12]? =
        some t :=
      ⟨_, List.getElem?_eq_getElem (mode_index _)⟩
    simp [hread htyped, hread' htyped, ht]
  | dev =>
    rw [hcase] at htyped
    cases v <;> cases v' <;> simp [hread htyped, hread' htyped]
  | default => simp
  | raw =>
    by_cases hlen : a.data.length = 0
    · simp [hlen, SameRaw]
    · simp only [hlen, if_false, SameRaw, false_or, Option.bind_eq_bind, Option.bind_eq_some_iff]
      constructor
      · rintro ⟨s, ⟨ptr, hptr, bytes, hbytes, hs⟩, ptr', hptr', bytes', hbytes', hs'⟩
        cases hs
        cases hs'
        exact ⟨fun _ ↦ ⟨ptr, ptr', bytes, hptr, hptr', hbytes, hbytes'⟩, fun h ↦ by cases h.2⟩
      · rintro ⟨hraw, -⟩
        obtain ⟨ptr, ptr', bytes, hptr, hptr', hbytes, hbytes'⟩ := hraw trivial
        exact ⟨.ptr bytes, ⟨ptr, hptr, bytes, hbytes, rfl⟩, ptr', hptr', bytes, hbytes', rfl⟩

/-- Both print, and the same. -/
def Alike (x x' : Option (List Visit × Bool)) : Prop :=
  ∃ p p', x = some p ∧ x' = some p' ∧ p.1.map Visit.line = p'.1.map Visit.line

theorem marks_cons (a : Arg) (args : List Arg) :
    (a :: args).filterMap (Arg.mark h) = (a.mark h).toList ++ args.filterMap (Arg.mark h) := by
  rw [List.filterMap_cons]
  cases a.mark h <;> rfl

theorem getLast_append (l r : List Bool) (v : Bool) :
    (l ++ r).getLast?.getD v = r.getLast?.getD (l.getLast?.getD v) := by
  rw [List.getLast?_append, Option.getD_or]

/-- A flag is looked at by the first mark that there is. -/
theorem head_marks (x : Option Bool) (l : List Bool) (v v' : Bool) :
    ¬(v ≠ v' ∧ (x.toList ++ l).head? = some false) ↔
      ¬(v ≠ v' ∧ x = some false) ∧ ¬(x.getD v ≠ x.getD v' ∧ l.head? = some false) := by
  cases x <;> simp

/-- A property of every event and those before it. -/
theorem forall_append_cons {α : Type} {P : List α → α → Prop} {x : α} {l : List α} :
    (∀ before y after, x :: l = before ++ y :: after → P before y) ↔
      P [] x ∧ ∀ before y after, l = before ++ y :: after → P (x :: before) y := by
  refine ⟨fun hall ↦ ?_, ?_⟩
  · refine ⟨hall [] x l rfl, fun before y after hl ↦ hall _ y after ?_⟩
    rw [hl, List.cons_append]
  · rintro ⟨hx, hl⟩ (_ | ⟨z, before⟩) y after heq
    · obtain ⟨rfl, -⟩ := List.cons.inj heq
      exact hx
    · obtain ⟨rfl, hrest⟩ := List.cons.inj heq
      exact hl before y after hrest

theorem visitArgs_mark {args : List Arg} {a : ℕ} {v : Bool} {p : List Visit × Bool}
    (hp : visitArgs h c o m a v args = some p) :
    p.2 = (args.filterMap (Arg.mark h)).getLast?.getD v := by
  induction args generalizing a v p with
  | nil =>
    cases hp
    rfl
  | cons arg args ih =>
    rw [visitArgs] at hp
    obtain ⟨name, -, hp⟩ := Option.bind_eq_some_iff.mp hp
    obtain ⟨s, hs, hp⟩ := Option.bind_eq_some_iff.mp hp
    obtain ⟨q, hq, hp⟩ := Option.bind_eq_some_iff.mp hp
    cases hp
    have hlast : (arg.mark h).toList.getLast?.getD v = s.2 := by
      rw [showArg_mark hs]
      cases arg.mark h <;> rfl
    rw [marks_cons, getLast_append, hlast]
    exact (ih hq :)

theorem visitEvent_mark {e : Event} {a : ℕ} {v : Bool} {p : List Visit × Bool}
    (hp : visitEvent h c o m a v e = some p) : p.2 = (e.marks h).getLast?.getD v := by
  cases e with
  | dropped pid =>
    cases hp
    rfl
  | ordinary type pid args =>
    obtain ⟨name, -, hp⟩ := Option.bind_eq_some_iff.mp hp
    obtain ⟨q, hq, hp⟩ := Option.bind_eq_some_iff.mp hp
    cases hp
    exact (visitArgs_mark hq :)

/-- **The arguments of an event**, at two addresses and with two values of the flag. -/
theorem visitArgs_alike_iff {args : List Arg} (htyped : ∀ a ∈ args, a.Typed h) {a a' : ℕ}
    (v v' : Bool) (hm : m.Holds a (serialiseArgs h o args))
    (hm' : m'.Holds a' (serialiseArgs h o args))
    (hfit : a + (serialiseArgs h o args).length ≤ 2 ^ 32)
    (hfit' : a' + (serialiseArgs h o args).length ≤ 2 ^ 32) :
    Alike (visitArgs h c o m a v args) (visitArgs h c o m' a' v' args) ↔
      SameRaws h o m m' a a' args ∧
        ¬(v ≠ v' ∧ (args.filterMap (Arg.mark h)).head? = some false) := by
  induction args generalizing a a' v v' with
  | nil => simp [Alike, visitArgs, SameRaws]
  | cons arg args ih =>
    obtain ⟨harg, htyped⟩ := List.forall_mem_cons.mp htyped
    rw [serialiseArgs_cons, List.length_append, length_arg] at hfit hfit'
    rw [serialiseArgs_cons, holds_append, length_arg, Arg.serialise, holds_append] at hm hm'
    have hlen (x y : ℕ) : (o.encode 2 x ++ o.encode 2 y).length = 4 := by simp
    rw [hlen] at hm hm'
    have hshow := showArg_alike_iff (c := c) (o := o) harg v v' hm.1.2 hm'.1.2
      (by omega) (by omega)
    have ih := ih htyped ((arg.mark h).getD v) ((arg.mark h).getD v') hm.2 hm'.2
      (by omega) (by omega)
    obtain ⟨name, hname⟩ := argName_isSome (h := h) arg.type.toNat
    rw [marks_cons, head_marks, SameRaws, and_and_and_comm, ← hshow, ← ih]
    simp only [visitArgs, hname, Option.bind_eq_bind, Option.bind_some]
    constructor
    · rintro ⟨p, p', hp, hp', hlines⟩
      obtain ⟨⟨s, u⟩, hs, hp⟩ := Option.bind_eq_some_iff.mp hp
      obtain ⟨⟨s', u'⟩, hs', hp'⟩ := Option.bind_eq_some_iff.mp hp'
      obtain ⟨q, hq, hp⟩ := Option.bind_eq_some_iff.mp hp
      obtain ⟨q', hq', hp'⟩ := Option.bind_eq_some_iff.mp hp'
      cases hp
      cases hp'
      obtain rfl := showArg_mark hs
      obtain rfl := showArg_mark hs'
      simp only [List.map_cons, Visit.line, List.cons.injEq, Line.arg.injEq, true_and] at hlines
      obtain ⟨rfl, hlines⟩ := hlines
      exact ⟨⟨s, hs, hs'⟩, q, q', hq, hq', hlines⟩
    · rintro ⟨⟨s, hs, hs'⟩, q, q', hq, hq', hlines⟩
      rw [hs, hs', Option.bind_some, Option.bind_some, hq, hq']
      exact ⟨_, _, rfl, rfl, by simp [Visit.line, hlines]⟩

/-- That of every `FSE_ARG_RAW` of an event. -/
def Event.SameRaws (h : Header) (o : ByteOrder) (m m' : AddressSpace) (a a' : ℕ) (e : Event) :
    Prop :=
  Fslogger.SameRaws h o m m' (a + 8) (a' + 8) e.args

/-- **An event**, at two addresses and with two values of the flag. -/
theorem visitEvent_alike_iff {e : Event} (he : e.WellFormed h) (htyped : ∀ a ∈ e.args, a.Typed h)
    {a a' : ℕ} (hm : m.Holds a (e.serialise h o)) (hm' : m'.Holds a' (e.serialise h o))
    (hfit : a + (e.serialise h o).length ≤ 2 ^ 32) (hfit' : a' + (e.serialise h o).length ≤ 2 ^ 32)
    {v v' : Bool} :
    Alike (visitEvent h c o m a v e) (visitEvent h c o m' a' v' e) ↔
      e.SameRaws h o m m' a a' ∧ ¬(v ≠ v' ∧ (e.marks h).head? = some false) := by
  cases e with
  | dropped pid => simp [Alike, visitEvent, Event.SameRaws, Event.args, SameRaws, Event.marks]
  | ordinary type pid args =>
    obtain ⟨h0, hmax, -, -⟩ := he
    obtain ⟨name, hname⟩ := eventName_isSome h0 hmax
    have hlen (x y : ℕ) : (o.encode 4 x ++ o.encode 4 y).length = 8 := by simp
    rw [Event.serialise, List.length_append, hlen] at hfit hfit'
    rw [Event.serialise, holds_append, hlen] at hm hm'
    rw [Event.args] at htyped
    have hargs := visitArgs_alike_iff (c := c) (o := o) htyped v v' hm.2 hm'.2
      (by omega) (by omega)
    rw [Event.SameRaws, Event.marks, Event.args, ← hargs]
    simp only [visitEvent, hname, Option.bind_eq_bind, Option.bind_some]
    constructor
    · rintro ⟨p, p', hp, hp', hlines⟩
      obtain ⟨q, hq, hp⟩ := Option.bind_eq_some_iff.mp hp
      obtain ⟨q', hq', hp'⟩ := Option.bind_eq_some_iff.mp hp'
      cases hp
      cases hp'
      simp only [List.map_cons, Visit.line, List.cons.injEq, true_and] at hlines
      exact ⟨q, q', hq, hq', hlines⟩
    · rintro ⟨q, q', hq, hq', hlines⟩
      rw [hq, hq']
      exact ⟨_, _, rfl, rfl, by simp [Visit.line, hlines]⟩

/-! ## A session -/

theorem visitArgs_length {args : List Arg} {a : ℕ} {v : Bool} {p : List Visit × Bool}
    (hp : visitArgs h c o m a v args = some p) : p.1.length = args.length + 1 := by
  induction args generalizing a v p with
  | nil =>
    cases hp
    rfl
  | cons arg args ih =>
    rw [visitArgs] at hp
    obtain ⟨name, -, hp⟩ := Option.bind_eq_some_iff.mp hp
    obtain ⟨s, -, hp⟩ := Option.bind_eq_some_iff.mp hp
    obtain ⟨q, hq, hp⟩ := Option.bind_eq_some_iff.mp hp
    cases hp
    rw [List.length_cons, List.length_cons, ih hq]

theorem visitEvent_length {e : Event} {a a' : ℕ} {v v' : Bool} {p p' : List Visit × Bool}
    (hp : visitEvent h c o m a v e = some p) (hp' : visitEvent h c o m' a' v' e = some p') :
    p.1.length = p'.1.length := by
  cases e with
  | dropped pid =>
    cases hp
    cases hp'
    rfl
  | ordinary type pid args =>
    obtain ⟨name, -, hp⟩ := Option.bind_eq_some_iff.mp hp
    obtain ⟨name', -, hp'⟩ := Option.bind_eq_some_iff.mp hp'
    obtain ⟨q, hq, hp⟩ := Option.bind_eq_some_iff.mp hp
    obtain ⟨q', hq', hp'⟩ := Option.bind_eq_some_iff.mp hp'
    cases hp
    cases hp'
    rw [List.length_cons, List.length_cons, visitArgs_length hq, visitArgs_length hq']

/-- An event that has been received. -/
structure Located.Received (h : Header) (o : ByteOrder) (x : Located) : Prop where
  wellFormed : x.event.WellFormed h
  typed : ∀ a ∈ x.event.args, a.Typed h
  holds : x.memory.Holds x.address (x.event.serialise h o)
  fits : x.address + (x.event.serialise h o).length ≤ 2 ^ 32
  size : (x.event.serialise h o).length ≤ FSEVENT_BUFSIZ

/-- What is to be said of events from a point on at which the flag is `v`. -/
def Follows (h : Header) (c : Lookups) (o : ByteOrder) (buffer : ℕ) (m : AddressSpace) (v : Bool)
    (located : List Located) : Prop :=
  ∃ descriptions, (located.map Located.event).mapM (alone h c o buffer m) = .ok descriptions ∧
    (visitAll h c o v located).map (fun p ↦ p.1.map Visit.line) = some descriptions.flatten

theorem follows_cons {buffer : ℕ} {v : Bool} {x : Located} {located : List Located}
    (he : x.event.WellFormed h) :
    Follows h c o buffer m v (x :: located) ↔
      Alike (visitEvent h c o x.memory x.address v x.event)
          (visitEvent h c o (store m buffer (x.event.serialise h o)) buffer false x.event) ∧
        Follows h c o buffer m ((x.event.marks h).getLast?.getD v) located := by
  rw [Follows, Follows, List.map_cons, List.mapM_cons, alone_eq c he, visitAll]
  constructor
  · rintro ⟨ds, hds, hlines⟩
    cases hp' : visitEvent h c o (store m buffer (x.event.serialise h o)) buffer false x.event with
    | none =>
      rw [hp'] at hds
      cases hds
    | some p' =>
      rw [hp', Option.map_some, fetch_some, ok_bind] at hds
      cases hrest : (located.map Located.event).mapM (alone h c o buffer m) with
      | error e =>
        rw [hrest] at hds
        cases hds
      | ok rest =>
        rw [hrest] at hds
        cases hds
        obtain ⟨r, hr, hlines⟩ := Option.map_eq_some_iff.mp hlines
        obtain ⟨p, hp, hr⟩ := Option.bind_eq_some_iff.mp hr
        obtain ⟨q, hq, rfl⟩ := Option.map_eq_some_iff.mp hr
        rw [List.map_append, List.flatten_cons] at hlines
        obtain ⟨hhead, htail⟩ := List.append_inj hlines (by simp [visitEvent_length hp hp'])
        refine ⟨⟨p, p', hp, rfl, hhead⟩, rest, rfl, ?_⟩
        rw [← visitEvent_mark hp, hq, Option.map_some, htail]
  · rintro ⟨⟨p, p', hp, hp', hhead⟩, rest, hrest, htail⟩
    obtain ⟨q, hq, htail⟩ := Option.map_eq_some_iff.mp htail
    rw [← visitEvent_mark hp] at hq
    rw [hp, hp', hrest]
    refine ⟨p'.1.map Visit.line :: rest, rfl, ?_⟩
    rw [Option.bind_some, hq]
    simp [hhead, htail]

/-- **A session, event by event.** -/
theorem follows_iff {buffer : ℕ} (hfit : buffer + FSEVENT_BUFSIZ ≤ 2 ^ 32) {located : List Located}
    (hl : ∀ x ∈ located, x.Received h o) (v : Bool) :
    Follows h c o buffer m v located ↔
      (∀ before e after, located.map Located.event = before ++ e :: after →
        ¬((before.flatMap (Event.marks h)).getLast?.getD v = true ∧
          (e.marks h).head? = some false)) ∧
      ∀ x ∈ located, x.event.SameRaws h o x.memory (store m buffer (x.event.serialise h o))
        x.address buffer := by
  induction located generalizing v with
  | nil =>
    have hnil : Follows h c o buffer m v [] := ⟨[], rfl, rfl⟩
    simp [hnil]
  | cons x located ih =>
    obtain ⟨hx, hl⟩ := List.forall_mem_cons.mp hl
    have hsize := hx.size
    rw [follows_cons hx.wellFormed, ih hl, List.map_cons, forall_append_cons,
      List.forall_mem_cons, visitEvent_alike_iff hx.wellFormed hx.typed hx.holds (holds_store ..)
      hx.fits (by omega)]
    simp only [List.flatMap_nil, List.flatMap_cons, getLast_append, List.getLast?_nil,
      Option.getD_none, ne_eq, Bool.not_eq_false]
    tauto

theorem map_event_locateIn (events : List Event) (a : ℕ) :
    (locateIn h o m a events).map Located.event = events := by
  induction events generalizing a with
  | nil => rfl
  | cons e events ih => rw [locateIn, List.map_cons, ih]

theorem map_event_locate (buffer : ℕ) (reads : List (List Event)) :
    (locate h o buffer m reads).map Located.event = reads.flatten := by
  induction reads generalizing m with
  | nil => rfl
  | cons events reads ih => rw [locate, List.map_append, map_event_locateIn, ih, List.flatten_cons]

theorem locateIn_received {events : List Event} {a : ℕ}
    (hwf : ∀ e ∈ events, e.WellTyped h)
    (hm : m.Holds a (serialise h o events))
    (hfit : a + (serialise h o events).length ≤ 2 ^ 32)
    (hsize : (serialise h o events).length ≤ FSEVENT_BUFSIZ) :
    ∀ x ∈ locateIn h o m a events, x.Received h o := by
  induction events generalizing a with
  | nil => exact nofun
  | cons e events ih =>
    have hcons : serialise h o (e :: events) = e.serialise h o ++ serialise h o events :=
      List.flatMap_cons
    obtain ⟨he, hwf⟩ := List.forall_mem_cons.mp hwf
    rw [hcons, holds_append] at hm
    rw [hcons, List.length_append] at hfit hsize
    refine List.forall_mem_cons.mpr ⟨?_, ih hwf hm.2 (by omega) (by omega)⟩
    exact ⟨he.1, he.2, hm.1, show a + (e.serialise h o).length ≤ _ by omega,
      show (e.serialise h o).length ≤ _ by omega⟩

theorem locate_received {buffer : ℕ} (hfit : buffer + FSEVENT_BUFSIZ ≤ 2 ^ 32)
    {reads : List (List Event)}
    (hwf : ∀ e ∈ reads.flatten, e.WellTyped h)
    (hsize : ∀ events ∈ reads, (serialise h o events).length ≤ FSEVENT_BUFSIZ) :
    ∀ x ∈ locate h o buffer m reads, x.Received h o := by
  induction reads generalizing m with
  | nil => exact nofun
  | cons events reads ih =>
    obtain ⟨hlen, hsize⟩ := List.forall_mem_cons.mp hsize
    rw [List.flatten_cons, List.forall_mem_append] at hwf
    rw [locate, List.forall_mem_append]
    exact ⟨locateIn_received hwf.1 (holds_store ..) (by omega) hlen, ih hwf.2 hsize⟩

/-- **A session is the sum of its events**, which are well-formed and have data of their types,
exactly if no event begins with an `FSE_ARG_DEV` while an `FSE_ARG_VNODE` of an earlier one is
remembered, and what every `FSE_ARG_RAW` points to is the same in the session and for the event
alone. -/
theorem separate_iff (h : Header) (c : Lookups) (o : ByteOrder) (m : AddressSpace) (buffer : ℕ)
    (reads : List (List Event)) (hwf : ∀ e ∈ reads.flatten, e.WellTyped h)
    (hsize : ∀ events ∈ reads, (serialise h o events).length ≤ FSEVENT_BUFSIZ)
    (hfit : buffer + FSEVENT_BUFSIZ ≤ 2 ^ 32) :
    Separate h c o buffer m reads ↔
      Unmixed h reads.flatten ∧
        ∀ x ∈ locate h o buffer m reads, x.event.SameRaws h o x.memory
          (store m buffer (x.event.serialise h o)) x.address buffer := by
  have hsession := session_eq (o := o) (m := m) c buffer (fun e he ↦ (hwf e he).1) false
  have hreceived := locate_received (m := m) hfit hwf hsize
  have hfollows := follows_iff (c := c) (m := m) hfit hreceived false
  rw [map_event_locate] at hfollows
  have hflag (l : List Bool) : l.getLast?.getD false = true ↔ l.getLast? = some true := by
    cases l.getLast? <;> simp
  simp only [hflag] at hfollows
  rw [Unmixed, ← hfollows, Separate, Follows, map_event_locate, hsession]
  refine exists_congr fun descriptions ↦ and_congr_right ?_
  intro _
  cases (visitAll h c o false (locate h o buffer m reads)).map fun p ↦ p.1.map Visit.line with
  | none => exact ⟨nofun, nofun⟩
  | some lines => rw [fetch_some, Except.ok.injEq, Option.some.injEq]

/-- Where there is no `FSE_ARG_RAW`, only the flag matters. -/
theorem sameRaws_of_ne_raw {args : List Arg} (hraw : ∀ a ∈ args, h.case a.type.toNat ≠ .raw)
    (a a' : ℕ) : SameRaws h o m m' a a' args := by
  induction args generalizing a a' with
  | nil => trivial
  | cons arg args ih =>
    obtain ⟨harg, hraw⟩ := List.forall_mem_cons.mp hraw
    exact ⟨fun he ↦ absurd he harg, ih hraw _ _⟩

/-- A new file, with the file system it is on. -/
def create : List Event := [.ordinary 0 77 [⟨1, [0x2f, 0x61, 0]⟩, ⟨9, [0, 0, 0, 1]⟩]]

/-- It is reported by itself, and a change of owner after it. -/
theorem separate_iff_create :
    Separate tiger demoLookups .big 0x1000 (fun _ ↦ none) [create, chown] := by
  have hmarks : ∀ e ∈ [create, chown].flatten, (e.marks tiger).head? ≠ some false := by decide
  have hraw : ∀ e ∈ [create, chown].flatten, ∀ a ∈ e.args, tiger.case a.type.toNat ≠ .raw := by
    simp [create, chown, Event.args, Header.case, tiger]
  refine (separate_iff tiger demoLookups .big (fun _ ↦ none) 0x1000 [create, chown] ?_ (by decide)
    (by decide)).mpr ⟨?_, fun x hx ↦ ?_⟩
  · simp [create, chown, Event.WellTyped, Event.WellFormed, Arg.WellFormed, Event.args, Arg.Typed,
      Header.case, tiger]
  · rintro before e after heq ⟨-, hhead⟩
    exact hmarks e (by simp [heq]) hhead
  · have he := List.mem_map_of_mem (f := Located.event) hx
    rw [map_event_locate] at he
    exact sameRaws_of_ne_raw (hraw x.event he) ..

/-- A file whose file system is not told, and then a device. -/
def mixed : List (List Event) :=
  [[.ordinary 1 77 [⟨1, [0x2f, 0x61, 0]⟩], .ordinary 2 77 [⟨9, [0x0e, 0, 0, 1]⟩]]]

/-- **The device is taken for a file system.** -/
theorem not_separate_mixed :
    (∀ e ∈ mixed.flatten, e.WellTyped tiger) ∧
    ¬Separate tiger demoLookups .big 0x1000 (fun _ ↦ none) mixed := by
  constructor
  · simp [mixed, Event.WellTyped, Event.WellFormed, Arg.WellFormed, Event.args, Arg.Typed,
      Header.case, tiger]
  · rintro ⟨descriptions, halone, hsession⟩
    have hdev : session tiger demoLookups .big 0x1000 (fun _ ↦ none) false
        (mixed.map (serialise tiger .big)) = .ok
          [.event 1 "FSE_DELETE" 77 "launchd",
            .arg 1 3 "FSE_ARG_VNODE" (.path [0x2f, 0x61]), .done 0xb33f,
            .event 2 "FSE_STAT_CHANGED" 77 "launchd",
            .arg 9 4 "FSE_ARG_DEV" (.fsid 0x0e000001), .done 0xb33f] := by
      decide
    have halone' : mixed.flatten.mapM (alone tiger demoLookups .big 0x1000 (fun _ ↦ none)) = .ok
          [[.event 1 "FSE_DELETE" 77 "launchd",
            .arg 1 3 "FSE_ARG_VNODE" (.path [0x2f, 0x61]), .done 0xb33f],
          [.event 2 "FSE_STAT_CHANGED" 77 "launchd",
            .arg 9 4 "FSE_ARG_DEV" (.dev 0x0e000001 0x0e 1), .done 0xb33f]] := by
      decide
    rw [halone'] at halone
    cases halone
    rw [hsession] at hdev
    exact absurd hdev (by decide)

end Fslogger
end MacOSXInternal
