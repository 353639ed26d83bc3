import MacOSXInternal.Fslogger.Reads

/-!
# On what the walk is safe

`Safe` says that the walk comes to an end, reads what was received and nothing else, and shows of an
argument only its own bytes.

* `Intact` is a grammar of what may be received.
* `showArg_iff` is the data of one argument, `keeps_processArgs` and `keeps_processEvents` are the
  two loops.
* `safe_iff` is the result: the walk is safe exactly on what the grammar allows.
* `intact_serialise` is what the device sends.
-/

set_option autoImplicit false

namespace MacOSXInternal
namespace Fslogger

open AddressSpace Traced

variable {h : Header} {c : Lookups} {o : ByteOrder} {m : AddressSpace}

/-! ## Safety -/

/-- A field is among the bytes that were received, and a byte that is shown among those of its
argument; an element is in its table. -/
def Access.Within (buffer ret : ℕ) : Access → Prop
  | .field a n => buffer ≤ a ∧ a + n ≤ buffer + ret
  | .payload data len a => (data ≤ a ∧ a < data + len) ∧ buffer ≤ a ∧ a < buffer + ret
  | .index size i => 0 ≤ i ∧ i < size

/-- The walk has come to the end of what was received, or to an unknown event. -/
def Ends (ret : ℕ) : Except Stop Walk → Prop
  | .ok w => ret ≤ w.off
  | .error e => e = .exit 1

/-- The walk is safe on the `ret` bytes that were received. -/
structure Safe (h : Header) (c : Lookups) (o : ByteOrder) (m : AddressSpace) (buffer ret : ℕ)
    (v : Bool) : Prop where
  ends : Ends ret (processBuffer h c o m buffer ret v)
  within : ∀ a ∈ (Reads.processBuffer h c o m buffer ret v).trace, a.Within buffer ret

/-! ## What may be received -/

section
variable (h : Header) (o : ByteOrder)

/-- The first four bytes, as a signed number. -/
def word (l : List Byte) : ℤ := (BitVec.ofNat 32 (o.decode (l.take 4))).toInt

/-- The first two bytes. -/
def half (l : List Byte) : ℕ := o.decode (l.take 2)

/-- The `len` bytes of an argument lie at `data`, as far as they were received, and `l` is all that
was received from there on.  A string has its end among them, and a number is there; those of an
`FSE_ARG_RAW` begin with their own address. -/
def IntactData (len data : ℕ) (l : List Byte) : Case → Prop
  | .vnode | .string => 0 ∈ l.take len
  | .raw => len = 0 ∨ (4 ≤ len ∧ len ≤ l.length ∧ o.decode (l.take 4) = data)
  | .default => True
  | _ => 4 ≤ len ∧ 4 ≤ l.length

/-- A part of what is received: events, or the arguments of one, not more than so many. -/
inductive Part
  | events
  | args (turns : ℕ)

/-- What may be received, from an address on: whole events with types from zero on, of which the
last one may break off behind an argument, or an event of no known type. -/
inductive Intact : Part → ℕ → List Byte → Prop
  | nil {a : ℕ} : Intact .events a []
  | unknown {a : ℕ} {l : List Byte} (hl : 4 ≤ l.length)
      (htype : word o l ≠ h.FSE_EVENTS_DROPPED.toInt)
      (hout : ¬(word o l < h.FSE_MAX_EVENTS ∧ word o l ≥ -1)) : Intact .events a l
  | dropped {a : ℕ} {l : List Byte} (hl : 8 ≤ l.length)
      (htype : word o l = h.FSE_EVENTS_DROPPED.toInt)
      (hrest : Intact .events (a + 10) (l.drop 10)) : Intact .events a l
  | event {a : ℕ} {l : List Byte} (hl : 8 ≤ l.length)
      (htype : 0 ≤ word o l ∧ word o l < h.FSE_MAX_EVENTS)
      (hrest : Intact (.args (h.FSE_MAX_ARGS + 1)) (a + 8) (l.drop 8)) : Intact .events a l
  | full {a : ℕ} {l : List Byte} (hrest : Intact .events a l) : Intact (.args 0) a l
  | empty {a turns : ℕ} : Intact (.args (turns + 1)) a []
  | done {a turns : ℕ} {l : List Byte} (hl : 2 ≤ l.length) (htype : half o l = h.FSE_ARG_DONE.toNat)
      (hrest : Intact .events (a + 2) (l.drop 2)) : Intact (.args (turns + 1)) a l
  | arg {a turns len : ℕ} {l : List Byte} (hl : 4 ≤ l.length)
      (htype : half o l ≠ h.FSE_ARG_DONE.toNat) (hlen : half o (l.drop 2) = len)
      (hdata : IntactData o len (a + 4) (l.drop 4) (h.case (half o l)))
      (hrest : Intact (.args turns) (a + (2 + 2 + len)) (l.drop (2 + 2 + len))) :
      Intact (.args (turns + 1)) a l

end

/-! ## What may come next -/

section
variable {a turns : ℕ} {l : List Byte} (hl : 0 < l.length)
include hl

theorem intact_dropped_iff (htype : word o l = h.FSE_EVENTS_DROPPED.toInt) :
    Intact h o .events a l ↔ 8 ≤ l.length ∧ Intact h o .events (a + 10) (l.drop 10) := by
  refine ⟨fun hintact ↦ ?_, ?_⟩
  · cases hintact with
    | nil => cases hl
    | unknown _ hne => exact absurd htype hne
    | dropped hlen _ hrest => exact ⟨hlen, hrest⟩
    | event _ hin =>
      have := h.dropped
      omega
  · rintro ⟨hlen, hrest⟩
    exact .dropped hlen htype hrest

theorem intact_event_iff (htype : word o l ≠ h.FSE_EVENTS_DROPPED.toInt)
    (hin : word o l < h.FSE_MAX_EVENTS ∧ word o l ≥ -1) :
    Intact h o .events a l ↔
      8 ≤ l.length ∧ 0 ≤ word o l ∧ Intact h o (.args (h.FSE_MAX_ARGS + 1)) (a + 8) (l.drop 8) := by
  refine ⟨fun hintact ↦ ?_, ?_⟩
  · cases hintact with
    | nil => cases hl
    | unknown _ _ hout => exact absurd hin hout
    | dropped _ heq => exact absurd heq htype
    | event hlen hin hrest => exact ⟨hlen, hin.1, hrest⟩
  · rintro ⟨hlen, h0, hrest⟩
    exact .event hlen ⟨h0, hin.1⟩ hrest

theorem intact_unknown_iff (htype : word o l ≠ h.FSE_EVENTS_DROPPED.toInt)
    (hout : ¬(word o l < h.FSE_MAX_EVENTS ∧ word o l ≥ -1)) :
    Intact h o .events a l ↔ 4 ≤ l.length := by
  refine ⟨fun hintact ↦ ?_, fun hlen ↦ ?_⟩
  · cases hintact with
    | nil => cases hl
    | unknown hlen => exact hlen
    | dropped _ heq => exact absurd heq htype
    | event _ hin => exact absurd ⟨hin.2, by omega⟩ hout
  · exact .unknown hlen htype hout

theorem intact_done_iff (htype : half o l = h.FSE_ARG_DONE.toNat) :
    Intact h o (.args (turns + 1)) a l ↔
      2 ≤ l.length ∧ Intact h o .events (a + 2) (l.drop 2) := by
  refine ⟨fun hintact ↦ ?_, ?_⟩
  · cases hintact with
    | empty => cases hl
    | done hlen _ hrest => exact ⟨hlen, hrest⟩
    | arg _ hne => exact absurd htype hne
  · rintro ⟨hlen, hrest⟩
    exact .done hlen htype hrest

theorem intact_arg_iff {len : ℕ} (htype : half o l ≠ h.FSE_ARG_DONE.toNat)
    (hlen : half o (l.drop 2) = len) :
    Intact h o (.args (turns + 1)) a l ↔
      4 ≤ l.length ∧ IntactData o len (a + 4) (l.drop 4) (h.case (half o l)) ∧
        Intact h o (.args turns) (a + (2 + 2 + len)) (l.drop (2 + 2 + len)) := by
  refine ⟨fun hintact ↦ ?_, ?_⟩
  · cases hintact with
    | empty => cases hl
    | done _ heq => exact absurd heq htype
    | arg hl _ hlen' hdata hrest =>
      rw [hlen] at hlen'
      subst hlen'
      exact ⟨hl, hdata, hrest⟩
  · rintro ⟨hl, hdata, hrest⟩
    exact .arg hl htype hlen hdata hrest

end

/-! ## Reading what was received -/

section
variable {a k n : ℕ} {l : List Byte} (hm : m.Holds a l)
include hm

theorem field_eq (hn : k + n ≤ l.length) :
    m.field o (a + k) n = some (o.decode ((l.drop k).take n)) := by
  rw [field, bytes_of_holds hm hn, Option.map_some]

theorem half_eq (hl : 2 ≤ l.length) : m.field o a 2 = some (half o l) :=
  field_eq (k := 0) hm (by omega)

theorem word_eq (hl : 4 ≤ l.length) : int32 o m a = some (word o l) := by
  have hfield : m.field o a 4 = some (o.decode (l.take 4)) := field_eq (k := 0) hm (by omega)
  rw [int32, hfield, Option.map_some, word]

theorem holds_drop : m.Holds (a + n) (l.drop n) := by
  by_cases hn : n ≤ l.length
  · rw [← List.take_append_drop n l, holds_append, List.length_take_of_le hn] at hm
    exact hm.2
  · rw [List.drop_of_length_le (by omega)]
    exact holds_nil

end

/-- All that was received from `a` on. -/
structure Received (m : AddressSpace) (buffer ret a : ℕ) (l : List Byte) : Prop where
  le : buffer ≤ a
  length : l.length = buffer + ret - a
  holds : m.Holds a l

section
variable {buffer ret a n data len : ℕ} {l : List Byte} (hr : Received m buffer ret a l)
include hr

theorem Received.drop : Received m buffer ret (a + n) (l.drop n) where
  le := hr.le.trans (Nat.le_add_right ..)
  length := by
    rw [List.length_drop, hr.length]
    omega
  holds := holds_drop hr.holds

theorem Received.field_within (hn : 0 < n) :
    (Access.field a n).Within buffer ret ↔ n ≤ l.length := by
  have hle := hr.le
  rw [hr.length, Access.Within]
  omega

/-- A string is read from among the bytes of its argument if it ends there. -/
theorem stringWithin_iff (hn : l.length ≤ n) (hdata : data ≤ a) :
    ((∀ i ∈ (Reads.stringWithin m data len a n).trace, i.Within buffer ret) ∧
      (m.stringWithin a n).isSome) ↔ 0 ∈ l.take (data + len - a) := by
  induction n generalizing a l with
  | zero =>
    obtain rfl := List.eq_nil_of_length_eq_zero (Nat.le_zero.mp hn)
    simp [AddressSpace.stringWithin]
  | succ n ih =>
    rw [Reads.stringWithin, forall_trace_bind]
    have hle := hr.le
    have hlen := hr.length
    cases l with
    | nil =>
      have hout : ¬ (Access.payload data len a).Within buffer ret := by
        rw [List.length_nil] at hlen
        rw [Access.Within]
        omega
      simp [hout]
    | cons b l =>
      have hb := (holds_cons.mp hr.holds).1
      rw [List.length_cons] at hlen hn
      have hrest : Received m buffer ret (a + 1) l := hr.drop (n := 1)
      have hin : (Access.payload data len a).Within buffer ret ↔ a < data + len := by
        rw [Access.Within]
        omega
      simp only [trace_touch, result_touch, List.forall_mem_singleton, hin, hb, fetch_some,
        Except.ok.injEq, forall_eq', AddressSpace.stringWithin, Option.bind_some]
      cases hk : data + len - a with
      | zero =>
        have hout : ¬ a < data + len := by omega
        simp [hout]
      | succ k =>
        have hlt : a < data + len := by omega
        by_cases h0 : b = 0
        · simp [h0, hlt]
        · have hnext : data + len - (a + 1) = k := by omega
          have ih := ih hrest (by omega) (by omega)
          rw [hnext] at ih
          simp only [hlt, h0, if_false, true_and, forall_trace_bind, trace_pure, List.not_mem_nil,
            IsEmpty.forall_iff, implies_true, and_true, Option.isSome_map, ih, List.take_succ_cons,
            List.mem_cons, Ne.symm h0, false_or]

/-- A number is read from among the bytes of its argument if there are four. -/
theorem word_iff {α : Type} (x : Option α) :
    (∀ i ∈ (Reads.word a len x).trace, i.Within buffer ret) ↔ 4 ≤ len ∧ 4 ≤ l.length := by
  have hle := hr.le
  have hlen := hr.length
  rw [Reads.word, trace_touch, List.forall_mem_map]
  simp only [List.mem_range, Access.Within]
  refine ⟨fun h ↦ ?_, fun h j hj ↦ ?_⟩
  · have hlast := h 3 (by decide)
    omega
  · omega

theorem word_bind_iff {α : Type} {x : Option α} {f : α → Traced Access Stop (Shown × Bool)}
    {g : α → Option (Shown × Bool)} (hx : 4 ≤ l.length → x.isSome)
    (hf : ∀ b, ∀ i ∈ (f b).trace, i.Within buffer ret) (hg : ∀ b, (g b).isSome) :
    ((∀ i ∈ (Reads.word a len x >>= f).trace, i.Within buffer ret) ∧ (x >>= g).isSome) ↔
      4 ≤ len ∧ 4 ≤ l.length := by
  rw [forall_trace_bind, word_iff hr, isSome_bind_of_forall hg]
  constructor
  · exact fun h ↦ h.1.1
  · exact fun h ↦ ⟨⟨h, fun b _ ↦ hf b⟩, hx h.2⟩

/-- What is read at the address that the data is taken for is the data if that is its own
address. -/
theorem raw_iff (hfit : buffer + ret ≤ 2 ^ 32) (hpos : 0 < a) (hlen : len ≠ 0) {ptr : ℕ}
    (hptr : ptr < 2 ^ 32) :
    (∀ j < len, (Access.payload a len ((ptr + j) % 2 ^ 32)).Within buffer ret) ↔
      len ≤ l.length ∧ ptr = a := by
  have hle := hr.le
  have hlength := hr.length
  simp only [Access.Within]
  refine ⟨fun h ↦ ?_, ?_⟩
  · have hfirst := h 0 (by omega)
    have hlast := h (len - 1) (by omega)
    rw [add_zero, Nat.mod_eq_of_lt hptr] at hfirst
    -- address zero is not in the buffer
    have hwrap : ptr + (len - 1) < 2 ^ 32 := by
      by_contra hge
      have hzero := h (2 ^ 32 - ptr) (by omega)
      rw [Nat.add_sub_cancel' hptr.le, Nat.mod_self] at hzero
      omega
    rw [Nat.mod_eq_of_lt hwrap] at hlast
    omega
  · rintro ⟨hin, rfl⟩ j hj
    rw [Nat.mod_eq_of_lt (by omega)]
    omega

/-- **The data of an argument** is shown from its own bytes, exactly if it is intact. -/
theorem showArg_iff (hfit : buffer + ret ≤ 2 ^ 32) (hpos : 0 < a) (type len : ℕ) (v : Bool) :
    ((∀ i ∈ (Reads.showArg h c o m type len a v).trace, i.Within buffer ret) ∧
      (showArg h c o m type len a v).isSome) ↔ IntactData o len a l (h.case type) := by
  have hlength := hr.length
  have hread (hl : 4 ≤ l.length) : m.field o a 4 = some (o.decode (l.take 4)) :=
    field_eq (k := 0) hr.holds (by omega)
  have hint (hl : 4 ≤ l.length) : int32 o m a = some (word o l) := word_eq hr.holds hl
  rw [Reads.showArg, showArg]
  cases h.case type with
  | vnode | string =>
    have hstring : ((∀ i ∈ (Reads.stringWithin m a len a (2 ^ 32 - a)).trace,
        i.Within buffer ret) ∧ (m.stringWithin a (2 ^ 32 - a)).isSome) ↔ _ :=
      stringWithin_iff hr (by omega) le_rfl
    rw [Nat.add_sub_cancel_left] at hstring
    rw [IntactData, ← hstring, forall_trace_bind, isSome_bind_of_forall fun _ ↦ rfl, string]
    simp only [trace_pure, List.not_mem_nil, IsEmpty.forall_iff, implies_true, and_true]
  | int32 | ino => exact word_bind_iff hr (by simp +contextual [hint]) (by simp) fun _ ↦ rfl
  | uid | gid => exact word_bind_iff hr (by simp +contextual [hread]) (by simp) fun _ ↦ rfl
  | raw =>
    by_cases hlen : len = 0
    · simp [hlen, IntactData]
    · simp only [hlen, if_false, IntactData, false_or]
      have hptr := o.decode_lt (l.take 4)
      constructor
      · rintro ⟨htrace, -⟩
        obtain ⟨hword, hbytes⟩ := forall_trace_bind.mp htrace
        obtain ⟨h4, hl⟩ := (word_iff hr _).mp hword
        rw [List.length_take_of_le hl] at hptr
        have hbytes := hbytes _ (by rw [Reads.word, result_touch, hread hl, fetch_some])
        have hbytes := (forall_trace_bind.mp hbytes).1
        rw [trace_touch, List.forall_mem_map] at hbytes
        simp only [List.mem_range] at hbytes
        exact ⟨h4, (raw_iff hr hfit hpos hlen hptr).mp hbytes⟩
      · rintro ⟨h4, hle, hself⟩
        have hl : 4 ≤ l.length := h4.trans hle
        rw [List.length_take_of_le hl] at hptr
        have hmapped : (AddressSpace.bytes (fun x ↦ m (x % 2 ^ 32)) a len).isSome := by
          have hbytes : m.bytes (a + 0) len = _ := bytes_of_holds hr.holds (by omega)
          refine bytes_isSome_iff.mpr ?_
          intro j hj
          rw [Nat.mod_eq_of_lt (by omega)]
          exact bytes_isSome_iff.mp (Option.isSome_of_eq_some hbytes) j hj
        constructor
        · refine forall_trace_bind.mpr ⟨(word_iff hr _).mpr ⟨h4, hl⟩, ?_⟩
          intro ptr hptr'
          rw [Reads.word, result_touch, hread hl, fetch_some] at hptr'
          cases hptr'
          refine forall_trace_bind.mpr ⟨?_, fun _ _ ↦ by simp⟩
          rw [trace_touch, List.forall_mem_map]
          simp only [List.mem_range]
          exact (raw_iff hr hfit hpos hlen hptr).mpr ⟨hle, hself⟩
        · have hptr' : m.field o a 4 = some a := by rw [hread hl, hself]
          rw [hptr']
          show (AddressSpace.bytes (fun x ↦ m (x % 2 ^ 32)) a len >>= _).isSome
          exact (isSome_bind_of_forall fun _ ↦ rfl).mpr hmapped
  | dev =>
    refine word_bind_iff hr (by simp +contextual [hread]) (fun dev ↦ ?_) fun dev ↦ ?_
    · cases v <;> simp
    · cases v <;> rfl
  | mode =>
    refine word_bind_iff hr (by simp +contextual [hread]) (fun mode ↦ ?_) fun mode ↦ ?_
    · have htype := mode_index (mode &&& 0xfffff000)
      refine forall_trace_bind.mpr ⟨?_, ?_⟩
      · rw [trace_touch, List.forall_mem_singleton]
        exact ⟨Int.natCast_nonneg _, Int.ofNat_lt.mpr htype⟩
      · intro t _
        rw [if_pos (vtypeName_eq t).1]
        refine forall_trace_bind.mpr ⟨?_, fun _ _ ↦ by simp⟩
        rw [trace_touch, List.forall_mem_singleton]
        exact ⟨Int.natCast_nonneg _, Int.ofNat_lt.mpr (vtypeName_eq t).1⟩
    · exact (isSome_bind_of_forall fun _ ↦ rfl).mpr (by simpa using mode_index _)
  | default => simp [IntactData]

end

/-! ## The loops -/

section
variable {buffer ret : ℕ} {l : List Byte} {f : Walk → Traced Access Stop Walk}

/-- A step that reads: it does not fail with `exit`. -/
theorem keeps_fetch {α : Type} {P : Access → Prop} {accesses : List Access} {x : Option α}
    {f : α → Traced Access Stop Walk} :
    Keeps P (Ends ret) (touch accesses (fetch x) >>= f) ↔
      ∃ a, x = some a ∧ (∀ i ∈ accesses, P i) ∧ Keeps P (Ends ret) (f a) := by
  rw [keeps_bind fun e he hexit ↦ ?_]
  · cases x with
    | none => simp [fetch]
    | some a => simp
  · cases x with
    | none =>
      cases he
      cases hexit
    | some a => cases he

/-- A field of two or four bytes. -/
theorem keeps_field {α : Type} {a n : ℕ} (hr : Received m buffer ret a l) (hn : 0 < n)
    {x : Option α} {y : α} (hx : n ≤ l.length → x = some y) {f : α → Traced Access Stop Walk} :
    Keeps (Access.Within buffer ret) (Ends ret) (touch [.field a n] (fetch x) >>= f) ↔
      n ≤ l.length ∧ Keeps (Access.Within buffer ret) (Ends ret) (f y) := by
  rw [keeps_fetch]
  constructor
  · rintro ⟨y', hy', hin, hkeeps⟩
    have hle := (hr.field_within hn).mp (List.forall_mem_singleton.mp hin)
    rw [hx hle] at hy'
    cases hy'
    exact ⟨hle, hkeeps⟩
  · rintro ⟨hle, hkeeps⟩
    exact ⟨y, hx hle, List.forall_mem_singleton.mpr ((hr.field_within hn).mpr hle), hkeeps⟩

/-- The data of an argument. -/
theorem keeps_showArg {a : ℕ} (hr : Received m buffer ret a l) (hfit : buffer + ret ≤ 2 ^ 32)
    (hpos : 0 < a) (type len : ℕ) (v : Bool) {f : Shown × Bool → Traced Access Stop Walk} {Q : Prop}
    (hf : ∀ s, Keeps (Access.Within buffer ret) (Ends ret) (f s) ↔ Q) :
    Keeps (Access.Within buffer ret) (Ends ret) (Reads.showArg h c o m type len a v >>= f) ↔
      IntactData o len a l (h.case type) ∧ Q := by
  have hshow := showArg_iff (c := c) (o := o) (h := h) hr hfit hpos type len v
  rw [keeps_bind, ← hshow, result_showArg]
  · constructor
    · rintro ⟨s, hs, hin, hkeeps⟩
      refine ⟨⟨hin, ?_⟩, (hf s).mp hkeeps⟩
      cases hx : showArg h c o m type len a v with
      | none =>
        rw [hx] at hs
        cases hs
      | some s => rfl
    · rintro ⟨⟨hin, hsome⟩, hq⟩
      obtain ⟨s, hs⟩ := Option.isSome_iff_exists.mp hsome
      exact ⟨s, by rw [hs, fetch_some], hin, (hf s).mpr hq⟩
  · intro e he hexit
    rw [result_showArg] at he
    cases hx : showArg h c o m type len a v with
    | none =>
      rw [hx] at he
      cases he
      cases hexit
    | some s =>
      rw [hx] at he
      cases he

/-- **The inner loop**, with whatever follows. -/
theorem keeps_processArgs (hfit : buffer + ret ≤ 2 ^ 32) {turns : ℕ} {w : Walk}
    (hr : Received m buffer ret (buffer + w.off) l)
    (hf : ∀ w' l', l'.length ≤ l.length → Received m buffer ret (buffer + w'.off) l' →
      (Keeps (Access.Within buffer ret) (Ends ret) (f w') ↔
        Intact h o .events (buffer + w'.off) l')) :
    Keeps (Access.Within buffer ret) (Ends ret)
        (Reads.processArgs h c o m ret turns (buffer + w.off) w >>= f) ↔
      Intact h o (.args turns) (buffer + w.off) l := by
  induction turns generalizing w l with
  | zero =>
    rw [Reads.processArgs, pure_bind, hf w l le_rfl hr]
    constructor
    · exact .full
    · rintro (_ | _ | _ | _ | hrest)
      exact hrest
  | succ turns ih =>
    have hlength := hr.length
    by_cases hoff : w.off < ret
    · have hpos : 0 < l.length := by omega
      simp only [Reads.processArgs, hoff, not_true, if_false, bind_assoc]
      rw [keeps_field hr (by decide) (half_eq hr.holds)]
      by_cases hdone : half o l = h.FSE_ARG_DONE.toNat
      · simp only [hdone, if_true, pure_bind]
        rw [hf _ (l.drop 2) (by simp) (add_assoc buffer w.off 2 ▸ hr.drop), ← add_assoc,
          intact_done_iff hpos hdone]
      · simp only [hdone, if_false, bind_assoc]
        have hhalf := half_eq (o := o) (hr.drop (n := 2)).holds
        obtain ⟨len, hlen⟩ : ∃ len, half o (l.drop 2) = len := ⟨_, rfl⟩
        obtain ⟨name, hname⟩ := argName_isSome (h := h) (half o l)
        have hindex := (List.getElem?_eq_some_iff.mp hname).1
        have hin : (Access.index kfseArgNames.length
            (if half o l > h.FSE_MAX_ARGS then 0 else half o l : ℕ)).Within buffer ret :=
          ⟨Int.natCast_nonneg _, Int.ofNat_lt.mpr hindex⟩
        -- what follows is the same whatever is shown
        have hnext (s : Shown × Bool) :
            Keeps (Access.Within buffer ret) (Ends ret)
                (Reads.processArgs h c o m ret turns (buffer + w.off + (2 + 2 + len))
                  ⟨w.off + (2 + 2 + len), s.2,
                    w.log ++ [.arg (half o l) len name (buffer + w.off + 4) s.1]⟩ >>= f) ↔
              Intact h o (.args turns) (buffer + w.off + (2 + 2 + len)) (l.drop (2 + 2 + len)) := by
          have hr' : Received m buffer ret (buffer + w.off + (2 + 2 + len)) _ := hr.drop
          rw [add_assoc buffer w.off] at hr' ⊢
          have hle : (l.drop (2 + 2 + len)).length ≤ l.length := by
            rw [List.length_drop]
            omega
          exact ih (w := ⟨w.off + (2 + 2 + len), s.2, _⟩) hr' fun w' l' hl' ↦
            hf w' l' (hl'.trans hle)
        have hdata := keeps_showArg (c := c) (h := h) (o := o) (hr.drop (n := 4)) hfit (by omega)
          (half o l) len w.is_fse_arg_vnode hnext
        rw [keeps_field hr.drop (by decide) hhalf, hlen, hname, keeps_fetch,
          intact_arg_iff hpos hdone hlen, List.length_drop, ← hdata]
        constructor
        · rintro ⟨hl, hl', name', hname', -, hkeeps⟩
          cases hname'
          exact ⟨by omega, hkeeps⟩
        · rintro ⟨hl, hkeeps⟩
          exact ⟨by omega, by omega, name, rfl, List.forall_mem_singleton.mpr hin, hkeeps⟩
    · obtain rfl := List.eq_nil_of_length_eq_zero (show l.length = 0 by omega)
      simp only [Reads.processArgs, hoff, not_false_eq_true, if_true, pure_bind]
      rw [hf w [] le_rfl hr]
      exact ⟨fun _ ↦ .empty, fun _ ↦ .nil⟩

/-- **The outer loop.** -/
theorem keeps_processEvents (hfit : buffer + ret ≤ 2 ^ 32) {fuel : ℕ} {w : Walk}
    (hr : Received m buffer ret (buffer + w.off) l) (hfuel : l.length ≤ fuel) :
    Keeps (Access.Within buffer ret) (Ends ret) (Reads.processEvents h c o m buffer ret fuel w) ↔
      Intact h o .events (buffer + w.off) l := by
  induction fuel generalizing w l with
  | zero =>
    have hlength := hr.length
    have hoff : ¬w.off < ret := by omega
    obtain rfl := List.eq_nil_of_length_eq_zero (Nat.le_zero.mp hfuel)
    rw [Reads.processEvents, if_neg hoff, keeps_pure]
    exact ⟨fun _ ↦ .nil, fun _ ↦ Nat.le_of_not_lt hoff⟩
  | succ fuel ih =>
    have hlength := hr.length
    by_cases hoff : w.off < ret
    · have hpos : 0 < l.length := by omega
      have hpid := word_eq (o := o) (hr.drop (n := 4)).holds
      simp only [Reads.processEvents, hoff, not_true, if_false]
      rw [keeps_field hr (by decide) (word_eq hr.holds)]
      by_cases hdropped : word o l = h.FSE_EVENTS_DROPPED.toInt
      · have hrest : Received m buffer ret (buffer + (w.off + 4 + 4 + 2)) (l.drop 10) :=
          hr.drop (n := 10)
        have hfuel' : (l.drop 10).length ≤ fuel := by
          rw [List.length_drop]
          omega
        simp only [hdropped, if_true]
        rw [keeps_field hr.drop (by decide) hpid, ih hrest hfuel', intact_dropped_iff hpos hdropped,
          List.length_drop, ← and_assoc]
        exact and_congr_left fun _ ↦ by omega
      · by_cases hin : word o l < h.FSE_MAX_EVENTS ∧ word o l ≥ -1
        · simp only [hdropped, if_false, hin, and_self, if_true]
          rw [keeps_fetch, intact_event_iff hpos hdropped hin]
          have hrest : Received m buffer ret (buffer + (w.off + 4 + 4)) (l.drop 8) :=
            hr.drop (n := 8)
          have hloop (w' : Walk) (hw' : w'.off = w.off + 4 + 4) :
              Keeps (Access.Within buffer ret) (Ends ret)
                  (Reads.processArgs h c o m ret (h.FSE_MAX_ARGS + 1) (buffer + w.off + 8) w' >>=
                    Reads.processEvents h c o m buffer ret fuel) ↔
                Intact h o (.args (h.FSE_MAX_ARGS + 1)) (buffer + w.off + 8) (l.drop 8) := by
            have haddr : buffer + w.off + 8 = buffer + w'.off := by omega
            rw [← hw', ← haddr] at hrest
            rw [haddr] at hrest ⊢
            refine keeps_processArgs hfit hrest ?_
            intro w'' l'' hl'' hr''
            rw [List.length_drop] at hl''
            exact ih hr'' (by omega)
          constructor
          · rintro ⟨hl, name, hname, -, hkeeps⟩
            have hnonneg : ¬word o l < 0 := by
              intro hneg
              rw [if_pos hneg] at hname
              cases hname
            obtain ⟨hl', hkeeps⟩ := (keeps_field hr.drop (by decide) hpid).mp hkeeps
            rw [List.length_drop] at hl'
            exact ⟨by omega, by omega, (hloop _ rfl).mp hkeeps⟩
          · rintro ⟨hl, h0, hrest⟩
            have hnames := h.max_events
            have hlt : (word o l).toNat < kfseNames.length := by omega
            refine ⟨by omega, kfseNames[(word o l).toNat], ?_, ?_, ?_⟩
            · rw [if_neg (by omega), List.getElem?_eq_getElem hlt]
            · refine List.forall_mem_singleton.mpr ⟨h0, ?_⟩
              omega
            · refine (keeps_field hr.drop (by decide) hpid).mpr ⟨?_, (hloop _ rfl).mpr hrest⟩
              rw [List.length_drop]
              omega
        · simp only [hdropped, if_false, hin]
          rw [intact_unknown_iff hpos hdropped hin]
          exact and_iff_left ⟨List.forall_mem_nil _, rfl⟩
    · obtain rfl := List.eq_nil_of_length_eq_zero (show l.length = 0 by omega)
      simp only [Reads.processEvents, hoff, not_false_eq_true, if_true]
      rw [keeps_pure]
      exact ⟨fun _ ↦ .nil, fun _ ↦ Nat.le_of_not_lt hoff⟩

end

/-! ## The result -/

/-- **The walk is safe exactly if what was received is intact**: it ends, reads no field behind the
received bytes and no element outside of a table, and shows of every argument only its own bytes. -/
theorem safe_iff (h : Header) (c : Lookups) (o : ByteOrder) (m : AddressSpace) (buffer : ℕ)
    (l : List Byte) (hm : m.Holds buffer l) (hl : l.length ≤ FSEVENT_BUFSIZ)
    (hfit : buffer + FSEVENT_BUFSIZ ≤ 2 ^ 32) (is_fse_arg_vnode : Bool) :
    Safe h c o m buffer l.length is_fse_arg_vnode ↔ Intact h o .events buffer l := by
  have hr : Received m buffer l.length (buffer + 0) l := ⟨by omega, by omega, hm⟩
  have hloop := keeps_processEvents (h := h) (c := c) (o := o) (w := ⟨0, is_fse_arg_vnode, []⟩)
    (by omega) hr le_rfl
  rw [add_zero] at hloop
  rw [← hloop]
  refine ⟨fun hsafe ↦ ?_, fun hkeeps ↦ ?_⟩
  · exact ⟨hsafe.within, by rw [result_processEvents]; exact hsafe.ends⟩
  · exact ⟨by rw [processBuffer, ← result_processEvents]; exact hkeeps.result, hkeeps.trace⟩

/-! ## What the device sends -/

theorem word_encode (x : BitVec 32) (r : List Byte) :
    word o (o.encode 4 x.toNat ++ r) = x.toInt := by
  have hlen : (o.encode 4 x.toNat).length = 4 := ByteOrder.length_encode ..
  rw [word, List.take_left' hlen, ByteOrder.decode_encode o x.isLt, BitVec.ofNat_toNat,
    BitVec.setWidth_eq]

theorem half_encode {n : ℕ} (hn : n < 2 ^ 16) (r : List Byte) : half o (o.encode 2 n ++ r) = n := by
  have hlen : (o.encode 2 n).length = 2 := ByteOrder.length_encode ..
  rw [half, List.take_left' hlen, ByteOrder.decode_encode o hn]

/-- An argument whose data is shown from its own bytes. -/
structure Arg.Intact (h : Header) (a : Arg) : Prop where
  wellFormed : a.WellFormed h
  typed : a.Typed h
  raw : h.case a.type.toNat = .raw → a.data = []

theorem Arg.Intact.data {arg : Arg} (ha : arg.Intact h) (data : ℕ) (r : List Byte) :
    IntactData o arg.data.length data (arg.data ++ r) (h.case arg.type.toNat) := by
  have htyped := ha.typed
  have hraw := ha.raw
  rw [Arg.Typed] at htyped
  cases hcase : h.case arg.type.toNat with
  | raw =>
    left
    rw [hraw hcase, List.length_nil]
  | vnode | string =>
    rw [hcase] at htyped
    rw [IntactData, List.take_left' rfl]
    exact htyped
  | default => trivial
  | int32 | ino | uid | dev | mode | gid =>
    rw [hcase] at htyped
    have hle : arg.data.length ≤ (arg.data ++ r).length := by simp
    exact ⟨htyped, htyped.trans hle⟩

theorem intact_serialiseArgs {args : List Arg} (hargs : ∀ a ∈ args, a.Intact h) {turns a : ℕ}
    (hturns : args.length < turns) {r : List Byte} (hr : ∀ a, Intact h o .events a r) :
    Intact h o (.args turns) a (serialiseArgs h o args ++ r) := by
  induction args generalizing turns a with
  | nil =>
    obtain ⟨turns, rfl⟩ := Nat.exists_eq_add_one.mpr hturns
    have hdone : serialiseArgs h o [] = o.encode 2 h.FSE_ARG_DONE.toNat := rfl
    have hlen : (o.encode 2 h.FSE_ARG_DONE.toNat).length = 2 := ByteOrder.length_encode ..
    rw [hdone]
    refine .done (by simp) (half_encode h.FSE_ARG_DONE.isLt r) ?_
    rw [List.drop_left' hlen]
    exact hr _
  | cons arg args ih =>
    obtain ⟨turns, rfl⟩ := Nat.exists_eq_add_one.mpr (Nat.zero_lt_of_lt hturns)
    obtain ⟨ha, hargs⟩ := List.forall_mem_cons.mp hargs
    obtain ⟨htype, hlen⟩ := ha.wellFormed
    have htype' : half o (serialiseArgs h o (arg :: args) ++ r) = arg.type.toNat := by
      simp only [serialiseArgs_cons, Arg.serialise, List.append_assoc]
      exact half_encode arg.type.isLt _
    have hrest : (serialiseArgs h o (arg :: args) ++ r).drop (2 + 2 + arg.data.length) =
        serialiseArgs h o args ++ r := by
      rw [serialiseArgs_cons, List.append_assoc, List.drop_left' (length_arg arg)]
    have hlen' : half o ((serialiseArgs h o (arg :: args) ++ r).drop 2) = arg.data.length := by
      simp only [serialiseArgs_cons, Arg.serialise, List.append_assoc]
      rw [List.drop_left' (ByteOrder.length_encode ..)]
      exact half_encode hlen _
    refine .arg ?_ ?_ hlen' ?_ ?_
    · rw [serialiseArgs_cons, List.length_append, List.length_append, length_arg]
      omega
    · rw [htype']
      exact fun he ↦ htype (BitVec.eq_of_toNat_eq he)
    · rw [htype']
      simp only [serialiseArgs_cons, Arg.serialise, List.append_assoc]
      rw [← List.append_assoc, List.drop_left' (by simp)]
      exact ha.data _ _
    · rw [hrest]
      exact ih hargs (by rw [List.length_cons] at hturns; omega)

/-- **A stream is intact** if its arguments are, so the walk is safe on it. -/
theorem intact_serialise {events : List Event} (hevents : ∀ e ∈ events, e.WellFormed h)
    (hargs : ∀ e ∈ events, ∀ a ∈ e.args, a.Intact h) (a : ℕ) :
    Intact h o .events a (serialise h o events) := by
  induction events generalizing a with
  | nil => exact .nil
  | cons e events ih =>
    obtain ⟨he, hevents⟩ := List.forall_mem_cons.mp hevents
    obtain ⟨hargs, hargs'⟩ := List.forall_mem_cons.mp hargs
    have ih := ih hevents hargs'
    have hcons : serialise h o (e :: events) = e.serialise h o ++ serialise h o events :=
      List.flatMap_cons
    rw [hcons]
    cases e with
    | dropped pid =>
      rw [Event.serialise, List.append_assoc, List.append_assoc]
      refine .dropped ?_ (word_encode h.FSE_EVENTS_DROPPED _) ?_
      · simp only [List.length_append, ByteOrder.length_encode]
        omega
      · rw [← List.append_assoc, ← List.append_assoc, List.drop_left' (by simp)]
        exact ih _
    | ordinary type pid args =>
      obtain ⟨hnonneg, hlt, hlen, -⟩ := he
      rw [Event.serialise, List.append_assoc, List.append_assoc]
      refine .event ?_ ?_ ?_
      · simp only [List.length_append, ByteOrder.length_encode]
        omega
      · rw [word_encode]
        exact ⟨hnonneg, hlt⟩
      · rw [← List.append_assoc, List.drop_left' (by simp)]
        exact intact_serialiseArgs hargs (Nat.lt_succ_of_le hlen) ih

/-- A change of owner. -/
theorem safe_iff_chown : Safe tiger demoLookups .big (ofList 0x1000 (serialise tiger .big chown))
    0x1000 (serialise tiger .big chown).length false := by
  refine (safe_iff tiger demoLookups .big _ 0x1000 _ (holds_ofList _ _) (by decide) (by decide)
    false).mpr (intact_serialise ?_ ?_ _)
  · simp [chown, Event.WellFormed, Arg.WellFormed, tiger]
  · refine List.forall_mem_singleton.mpr ?_
    refine List.forall_mem_cons.mpr ⟨?_, List.forall_mem_singleton.mpr ?_⟩
    · exact ⟨⟨by decide, by decide⟩, (by decide : 4 ≤ 4), fun h ↦ by cases h⟩
    · exact ⟨⟨by decide, by decide⟩, (by decide : 4 ≤ 4), fun h ↦ by cases h⟩

/-- The header of an event of type −1. -/
def minusOne : List Byte := [0xff, 0xff, 0xff, 0xff, 0, 0, 0, 77]

/-- **The name of such an event is looked for in front of the table.** -/
theorem not_safe_minusOne : ¬Safe tiger demoLookups .big (ofList 0x1000 minusOne) 0x1000
    minusOne.length false := by
  intro hsafe
  have hname : Access.index kfseNames.length (-1) ∈
      (Reads.processBuffer tiger demoLookups .big (ofList 0x1000 minusOne) 0x1000
        minusOne.length false).trace := by
    decide
  exact absurd (hsafe.within _ hname).1 (by decide)

end Fslogger
end MacOSXInternal
