import MacOSXInternal.Fslogger.Walk

/-!
# The walk over a stream

The device serialises events back to back, each argument with its type and its length in front and
each event with a terminator behind.

* `visitArgs`, `visitEvent` and `visitAll` are the visits of a stream, read off its events and not
  off its bytes.
* `processArgs_eq` is the inner loop and `processEvents_eq` the outer one: a walk over a stream
  makes just these visits.
-/

set_option autoImplicit false

namespace MacOSXInternal
namespace Fslogger

open AddressSpace

/-! ## The stream -/

/-- An argument. -/
structure Arg where
  type : BitVec 16
  data : List Byte

inductive Event
  | dropped (pid : BitVec 32)
  | ordinary (type pid : BitVec 32) (args : List Arg)

section
variable (h : Header) (o : ByteOrder)

def Arg.WellFormed (a : Arg) : Prop := a.type ≠ h.FSE_ARG_DONE ∧ a.data.length < 2 ^ 16

def Event.WellFormed : Event → Prop
  | .dropped _ => True
  | .ordinary type _ args => 0 ≤ type.toInt ∧ type.toInt < h.FSE_MAX_EVENTS ∧
      args.length ≤ h.FSE_MAX_ARGS ∧ ∀ a ∈ args, a.WellFormed h

def Arg.serialise (a : Arg) : List Byte :=
  o.encode 2 a.type.toNat ++ o.encode 2 a.data.length ++ a.data

/-- The arguments and the terminator. -/
def serialiseArgs (args : List Arg) : List Byte :=
  args.flatMap (Arg.serialise o) ++ o.encode 2 h.FSE_ARG_DONE.toNat

def Event.serialise : Event → List Byte
  | .dropped pid => o.encode 4 h.FSE_EVENTS_DROPPED.toNat ++ o.encode 4 pid.toNat ++
      o.encode 2 h.FSE_ARG_DONE.toNat
  | .ordinary type pid args => o.encode 4 type.toNat ++ o.encode 4 pid.toNat ++
      serialiseArgs h o args

/-- The stream. -/
def serialise (events : List Event) : List Byte := events.flatMap (Event.serialise h o)

/-- The data of an argument is what the type says. -/
def Arg.Typed (a : Arg) : Prop :=
  match h.case a.type.toNat with
  | .vnode | .string => 0 ∈ a.data
  | .raw | .default => True
  | _ => 4 ≤ a.data.length

def Event.args : Event → List Arg
  | .dropped _ => []
  | .ordinary _ _ args => args

/-- A well-formed event each of whose arguments has data of its type. -/
def Event.WellTyped (e : Event) : Prop := e.WellFormed h ∧ ∀ a ∈ e.args, a.Typed h

end

/-! ## What is visited -/

/-- An event, and where it is. -/
structure Located where
  memory : AddressSpace
  address : ℕ
  event : Event

section
variable (h : Header) (c : Lookups) (o : ByteOrder)

/-- Events that lie at an address. -/
def locateIn (m : AddressSpace) : ℕ → List Event → List Located
  | _, [] => []
  | a, e :: events => ⟨m, a, e⟩ :: locateIn m (a + (e.serialise h o).length) events

/-- The visits of arguments that lie at an address, and `is_fse_arg_vnode` afterwards. -/
def visitArgs (m : AddressSpace) : ℕ → Bool → List Arg → Option (List Visit × Bool)
  | _, v, [] => some ([.done h.FSE_ARG_DONE.toNat], v)
  | a, v, arg :: args => do
    let type := arg.type.toNat
    let len := arg.data.length
    let name ← kfseArgNames[if type > h.FSE_MAX_ARGS then 0 else type]?
    let (shown, v) ← showArg h c o m type len (a + 4) v
    let (visits, v) ← visitArgs m (a + (2 + 2 + len)) v args
    return (.arg type len name (a + 4) shown :: visits, v)

/-- The visits of an event. -/
def visitEvent (m : AddressSpace) (a : ℕ) (v : Bool) : Event → Option (List Visit × Bool)
  | .dropped pid => some ([.dropped pid.toInt], v)
  | .ordinary type pid args => do
    let name ← kfseNames[type.toInt.toNat]?
    let (visits, v) ← visitArgs h c o m (a + 8) v args
    return (.event type.toInt name pid.toInt (c.get_proc_name pid.toInt) :: visits, v)

/-- The visits of events. -/
def visitAll : Bool → List Located → Option (List Visit × Bool)
  | v, [] => some ([], v)
  | v, x :: located => (visitEvent h c o x.memory x.address v x.event).bind fun p ↦
    (visitAll p.2 located).map fun q ↦ (p.1 ++ q.1, q.2)

end

variable {h : Header} {c : Lookups} {o : ByteOrder} {m : AddressSpace}

/-- One part after another. -/
theorem visitAll_append (v : Bool) (l r : List Located) :
    visitAll h c o v (l ++ r) = (visitAll h c o v l).bind fun p ↦
      (visitAll h c o p.2 r).map fun q ↦ (p.1 ++ q.1, q.2) := by
  induction l generalizing v with
  | nil => simp [visitAll]
  | cons x l ih =>
    rw [List.cons_append, visitAll, visitAll]
    cases visitEvent h c o x.memory x.address v x.event with
    | none => rfl
    | some p =>
      rw [Option.bind_some, Option.bind_some, ih]
      cases visitAll h c o p.2 l with
      | none => rfl
      | some q => simp [Function.comp_def]

/-! ## Pieces -/

theorem length_arg (a : Arg) : (a.serialise o).length = 2 + 2 + a.data.length := by
  rw [Arg.serialise, List.length_append, List.length_append, ByteOrder.length_encode,
    ByteOrder.length_encode]

theorem serialiseArgs_cons (a : Arg) (args : List Arg) :
    serialiseArgs h o (a :: args) = a.serialise o ++ serialiseArgs h o args := by
  rw [serialiseArgs, serialiseArgs, List.flatMap_cons, List.append_assoc]

theorem two_le_length_serialiseArgs (args : List Arg) : 2 ≤ (serialiseArgs h o args).length := by
  simp [serialiseArgs]

theorem argName_isSome (type : ℕ) :
    ∃ name, kfseArgNames[if type > h.FSE_MAX_ARGS then 0 else type]? = some name := by
  refine Option.isSome_iff_exists.mp ?_
  rw [isSome_getElem?]
  have := h.max_args
  split <;> omega

theorem eventName_isSome {type : BitVec 32} (h0 : 0 ≤ type.toInt)
    (hmax : type.toInt < h.FSE_MAX_EVENTS) : ∃ name, kfseNames[type.toInt.toNat]? = some name := by
  refine Option.isSome_iff_exists.mp ?_
  rw [isSome_getElem?]
  have := h.max_events
  omega

theorem int32_of_holds {x : BitVec 32} {a : ℕ} (hm : m.Holds a (o.encode 4 x.toNat)) :
    int32 o m a = some x.toInt := by
  rw [int32, field_of_holds x.isLt hm, Option.map_some, BitVec.ofNat_toNat, BitVec.setWidth_eq]

/-! ## It is the walk -/

/-- The walk, after `n` more bytes and what is printed of them. -/
def Walk.advance (w : Walk) (n : ℕ) (x : Option (List Visit × Bool)) : Except Stop Walk :=
  fetch (x.map fun p ↦ ⟨w.off + n, p.2, w.log ++ p.1⟩)

variable {w : Walk}

/-- **The inner loop.** -/
theorem processArgs_eq (c : Lookups) {args : List Arg} (hwf : ∀ a ∈ args, a.WellFormed h)
    {ret turns kea : ℕ} (hturns : args.length < turns) (hm : m.Holds kea (serialiseArgs h o args))
    (hret : w.off + (serialiseArgs h o args).length ≤ ret) :
    processArgs h c o m ret turns kea w =
      w.advance (serialiseArgs h o args).length
        (visitArgs h c o m kea w.is_fse_arg_vnode args) := by
  induction args generalizing turns kea w with
  | nil =>
    obtain ⟨turns, rfl⟩ := Nat.exists_eq_add_one.mpr hturns
    have hdone : serialiseArgs h o [] = o.encode 2 h.FSE_ARG_DONE.toNat := rfl
    rw [hdone] at hm
    rw [hdone, ByteOrder.length_encode] at hret ⊢
    have hoff : w.off < ret := by omega
    have htype := field_of_holds h.FSE_ARG_DONE.isLt hm
    simp only [processArgs, hoff, not_true, if_false, htype, fetch_some, ok_bind, if_true]
    rfl
  | cons a args ih =>
    obtain ⟨turns, rfl⟩ := Nat.exists_eq_add_one.mpr (Nat.zero_lt_of_lt hturns)
    obtain ⟨⟨htype, hlen⟩, hwf⟩ := List.forall_mem_cons.mp hwf
    rw [List.length_cons] at hturns
    rw [serialiseArgs_cons, holds_append, length_arg] at hm
    rw [serialiseArgs_cons, List.length_append, length_arg] at hret ⊢
    obtain ⟨harg, hm⟩ := hm
    rw [Arg.serialise, holds_append, holds_append, ByteOrder.length_encode] at harg
    have h1 := field_of_holds a.type.isLt harg.1.1
    have h2 := field_of_holds hlen harg.1.2
    have hoff : w.off < ret := by omega
    have hne : a.type.toNat ≠ h.FSE_ARG_DONE.toNat := fun he ↦ htype (BitVec.eq_of_toNat_eq he)
    obtain ⟨name, hname⟩ := argName_isSome (h := h) a.type.toNat
    simp only [processArgs, visitArgs, hoff, not_true, if_false, h1, fetch_some, ok_bind, hne, h2,
      hname, Option.bind_eq_bind, Option.bind_some]
    cases showArg h c o m a.type.toNat a.data.length (kea + 4) w.is_fse_arg_vnode with
    | none => rfl
    | some s =>
      simp only [fetch_some, ok_bind, Option.bind_some]
      rw [ih hwf (by omega) hm (by simp only; omega)]
      simp only [Walk.advance]
      cases visitArgs h c o m (kea + (2 + 2 + a.data.length)) s.2 args with
      | none => rfl
      | some p => simp [add_assoc]

/-- A turn of the outer loop. -/
theorem processEvents_eq_event (c : Lookups) (fuel : ℕ) {e : Event} (he : e.WellFormed h)
    {buffer ret : ℕ} (hret : w.off + (e.serialise h o).length ≤ ret)
    (hm : m.Holds (buffer + w.off) (e.serialise h o)) :
    processEvents h c o m buffer ret (fuel + 1) w =
      w.advance (e.serialise h o).length
          (visitEvent h c o m (buffer + w.off) w.is_fse_arg_vnode e) >>=
        processEvents h c o m buffer ret fuel := by
  cases e with
  | dropped pid =>
    rw [Event.serialise, List.length_append, List.length_append] at *
    simp only [ByteOrder.length_encode] at *
    rw [holds_append, holds_append, ByteOrder.length_encode] at hm
    have hoff : w.off < ret := by omega
    simp only [processEvents, hoff, not_true, if_false, int32_of_holds hm.1.1,
      int32_of_holds hm.1.2, fetch_some, ok_bind, if_true]
    rfl
  | ordinary type pid args =>
    obtain ⟨h0, hmax, hlen, hargs⟩ := he
    rw [Event.serialise, List.length_append, List.length_append] at *
    simp only [ByteOrder.length_encode] at *
    rw [holds_append, holds_append, List.length_append, ByteOrder.length_encode,
      ByteOrder.length_encode] at hm
    have hoff : w.off < ret := by omega
    have hne : type.toInt ≠ h.FSE_EVENTS_DROPPED.toInt := by
      have := h.dropped
      omega
    obtain ⟨name, hname⟩ := eventName_isSome h0 hmax
    have hin : type.toInt < h.FSE_MAX_EVENTS ∧ type.toInt ≥ -1 := ⟨hmax, by omega⟩
    simp only [processEvents, visitEvent, hoff, not_true, if_false, int32_of_holds hm.1.1,
      int32_of_holds hm.1.2, fetch_some, ok_bind, hne, hin, and_self, if_true, not_lt.mpr h0, hname,
      Option.bind_eq_bind, Option.bind_some]
    rw [processArgs_eq c hargs (Nat.lt_succ_of_le hlen) hm.2 (by simp only; omega)]
    simp only [Walk.advance]
    cases visitArgs h c o m (buffer + w.off + 8) w.is_fse_arg_vnode args with
    | none => rfl
    | some p => simp [add_assoc]

/-- **The outer loop.** -/
theorem processEvents_eq (c : Lookups) {events : List Event}
    (hwf : ∀ e ∈ events, e.WellFormed h) {buffer ret fuel : ℕ}
    (hret : w.off + (serialise h o events).length = ret)
    (hfuel : (serialise h o events).length ≤ fuel)
    (hm : m.Holds (buffer + w.off) (serialise h o events)) :
    processEvents h c o m buffer ret fuel w = w.advance (serialise h o events).length
      (visitAll h c o w.is_fse_arg_vnode (locateIn h o m (buffer + w.off) events)) := by
  induction events generalizing fuel w with
  | nil =>
    have hoff : ¬w.off < ret := by
      rw [← hret]
      simp [serialise]
    have hend : processEvents h c o m buffer ret fuel w = .ok w := by
      cases fuel with
      | zero => rw [processEvents, if_neg hoff]
      | succ fuel => rw [processEvents, if_pos hoff]; rfl
    rw [hend]
    simp [Walk.advance, serialise, locateIn, visitAll]
  | cons e events ih =>
    have hlen : 0 < (e.serialise h o).length := by
      cases e <;> simp [Event.serialise]
    have hcons : serialise h o (e :: events) = e.serialise h o ++ serialise h o events :=
      List.flatMap_cons
    obtain ⟨he, hwf⟩ := List.forall_mem_cons.mp hwf
    rw [hcons, holds_append] at hm
    rw [hcons, List.length_append] at hret hfuel ⊢
    obtain ⟨fuel, rfl⟩ := Nat.exists_eq_add_one.mpr (show 0 < fuel by omega)
    rw [processEvents_eq_event c fuel he (by omega) hm.1, locateIn, visitAll]
    cases visitEvent h c o m (buffer + w.off) w.is_fse_arg_vnode e with
    | none => rfl
    | some p =>
      have hm := hm.2
      rw [add_assoc buffer] at hm ⊢
      have ih := ih (w := ⟨w.off + (e.serialise h o).length, p.2, w.log ++ p.1⟩) hwf
        (by simp only; omega) (show _ ≤ fuel by omega) hm
      simp only [Walk.advance, Option.map_some, fetch_some, ok_bind, Option.bind_some, ih]
      cases visitAll h c o p.2
          (locateIn h o m (buffer + (w.off + (e.serialise h o).length)) events) with
      | none => rfl
      | some q => simp [add_assoc]

theorem processBuffer_eq (c : Lookups) {events : List Event} (hwf : ∀ e ∈ events, e.WellFormed h)
    {buffer : ℕ} (hm : m.Holds buffer (serialise h o events)) (v : Bool) :
    processBuffer h c o m buffer (serialise h o events).length v =
      Walk.advance ⟨0, v, []⟩ (serialise h o events).length
        (visitAll h c o v (locateIn h o m buffer events)) :=
  processEvents_eq (w := ⟨0, v, []⟩) c hwf (Nat.zero_add _) le_rfl hm

end Fslogger
end MacOSXInternal
