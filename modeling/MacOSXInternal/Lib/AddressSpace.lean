import MacOSXInternal.Lib.ByteOrder

/-!
# Reading a process's memory

An address space is a byte at some addresses and nothing at the others.  A program that reads where
nothing is does not go on, so every read is an `Option`.

* `bytes`, `field` and `string` read a number of bytes, an integer, and up to a zero byte.
* `Holds` says that a list of bytes lies at an address; `holds_append` cuts it, `bytes_of_holds`
  reads a part of it, and `field_of_holds` reads an integer that was encoded.
* `store` puts one there.
* `bytes_isSome_iff`, `field_isSome_iff` and `string_isSome_iff` are what has to be mapped for a
  read.
-/

set_option autoImplicit false

/-- The bytes that are mapped. -/
abbrev AddressSpace := ℕ → Option Byte

namespace AddressSpace

variable (m : AddressSpace)

/-- The `n` bytes from `a` on. -/
def bytes : ℕ → ℕ → Option (List Byte)
  | _, 0 => some []
  | a, n + 1 => (m a).bind fun b ↦ (bytes (a + 1) n).map (b :: ·)

/-- The integer that `n` bytes spell. -/
def field (o : ByteOrder) (a n : ℕ) : Option ℕ := (m.bytes a n).map o.decode

/-- The bytes before the first zero byte, which is looked for at no more than `n` addresses. -/
def stringWithin : ℕ → ℕ → Option (List Byte)
  | _, 0 => none
  | a, n + 1 => (m a).bind fun b ↦ if b = 0 then some [] else (stringWithin (a + 1) n).map (b :: ·)

/-- The zero-terminated string at `a`, in 32 bits of address space. -/
def string (a : ℕ) : Option (List Byte) := m.stringWithin a (2 ^ 32 - a)

/-- The bytes `l` lie at `a`. -/
def Holds (a : ℕ) (l : List Byte) : Prop := m.bytes a l.length = some l

variable {m}

/-! ## What lies somewhere -/

theorem holds_nil {a : ℕ} : m.Holds a [] := rfl

theorem holds_cons {a : ℕ} {b : Byte} {l : List Byte} :
    m.Holds a (b :: l) ↔ m a = some b ∧ m.Holds (a + 1) l := by
  rw [Holds, Holds, List.length_cons, bytes, Option.bind_eq_some_iff]
  refine ⟨?_, fun ⟨h, h'⟩ ↦ ⟨b, h, by rw [h', Option.map_some]⟩⟩
  rintro ⟨b', h, h'⟩
  obtain ⟨l', hl, he⟩ := Option.map_eq_some_iff.mp h'
  obtain ⟨rfl, rfl⟩ := List.cons.inj he
  exact ⟨h, hl⟩

theorem holds_append {a : ℕ} {l r : List Byte} :
    m.Holds a (l ++ r) ↔ m.Holds a l ∧ m.Holds (a + l.length) r := by
  induction l generalizing a with
  | nil => simp [holds_nil]
  | cons b l ih =>
    rw [List.cons_append, holds_cons, holds_cons, ih, and_assoc, List.length_cons, add_assoc,
      add_comm 1]

theorem holds_iff {a : ℕ} {l : List Byte} :
    m.Holds a l ↔ ∀ i < l.length, m (a + i) = l[i]? := by
  induction l generalizing a with
  | nil => simp [holds_nil]
  | cons b l ih =>
    rw [holds_cons, ih, List.length_cons, Nat.forall_lt_succ_left]
    simp only [add_zero, List.getElem?_cons_zero, List.getElem?_cons_succ, add_assoc, add_comm 1]

theorem field_of_holds {o : ByteOrder} {a n x : ℕ} (hx : x < 256 ^ n)
    (h : m.Holds a (o.encode n x)) : m.field o a n = some x := by
  rw [Holds, ByteOrder.length_encode] at h
  rw [field, h, Option.map_some, ByteOrder.decode_encode o hx]

/-- Any part of what lies somewhere can be read. -/
theorem bytes_of_holds {a off n : ℕ} {l : List Byte} (h : m.Holds a l) (hn : off + n ≤ l.length) :
    m.bytes (a + off) n = some ((l.drop off).take n) := by
  rw [← List.take_append_drop off l, holds_append, List.length_take_of_le (by omega)] at h
  have hdrop := h.2
  rw [← List.take_append_drop n (l.drop off), holds_append, Holds, List.length_take_of_le
    (by rw [List.length_drop]; omega)] at hdrop
  exact hdrop.1

/-- A list of bytes at `base`, and nothing else. -/
def ofList (base : ℕ) (l : List Byte) : AddressSpace :=
  fun a ↦ if base ≤ a then l[a - base]? else none

theorem holds_ofList (base : ℕ) (l : List Byte) : (ofList base l).Holds base l :=
  holds_iff.mpr fun i _ ↦ by simp [ofList]

/-- The bytes `l` are written at `base`, and all others stay. -/
def store (m : AddressSpace) (base : ℕ) (l : List Byte) : AddressSpace :=
  fun a ↦ if base ≤ a ∧ a < base + l.length then l[a - base]? else m a

theorem holds_store (base : ℕ) (l : List Byte) : (m.store base l).Holds base l :=
  holds_iff.mpr fun i hi ↦ by simp [store, hi]

theorem stringWithin_of_holds {a n : ℕ} {l : List Byte} (h : m.Holds a l) (h0 : 0 ∈ l)
    (hn : l.length ≤ n) : m.stringWithin a n = some (l.takeWhile (· ≠ 0)) := by
  induction l generalizing a n with
  | nil => cases h0
  | cons b l ih =>
    obtain ⟨n, rfl⟩ := Nat.exists_eq_add_one.mpr (Nat.zero_lt_of_lt hn)
    obtain ⟨hb, hl⟩ := holds_cons.mp h
    rw [stringWithin, hb, Option.bind_some]
    by_cases hzero : b = 0
    · simp [hzero]
    · have h0 : 0 ∈ l := (List.mem_cons.mp h0).resolve_left (Ne.symm hzero)
      rw [if_neg hzero, ih hl h0 (Nat.le_of_succ_le_succ hn), Option.map_some,
        List.takeWhile_cons_of_pos (by simpa using hzero)]

/-- A string that ends in what lies somewhere. -/
theorem string_of_holds {a : ℕ} {l : List Byte} (h : m.Holds a l) (h0 : 0 ∈ l)
    (hfit : a + l.length ≤ 2 ^ 32) : m.string a = some (l.takeWhile (· ≠ 0)) :=
  stringWithin_of_holds h h0 (by omega)

/-! ## What has to be mapped -/

theorem bytes_isSome_iff {a n : ℕ} : (m.bytes a n).isSome ↔ ∀ j < n, (m (a + j)).isSome := by
  induction n generalizing a with
  | zero => simp [bytes]
  | succ n ih =>
    have ih := ih (a := a + 1)
    simp only [add_assoc, add_comm 1] at ih
    rw [Nat.forall_lt_succ_left, ← ih, bytes, add_zero]
    cases m a <;> simp

theorem field_isSome_iff {o : ByteOrder} {a n : ℕ} :
    (m.field o a n).isSome ↔ ∀ j < n, (m (a + j)).isSome := by
  rw [field, Option.isSome_map, bytes_isSome_iff]

theorem stringWithin_isSome_iff {a n : ℕ} :
    (m.stringWithin a n).isSome ↔
      ∃ z < n, m (a + z) = some 0 ∧ ∀ j < z, (m (a + j)).isSome := by
  induction n generalizing a with
  | zero => simp [stringWithin]
  | succ n ih =>
    have ih := ih (a := a + 1)
    simp only [add_assoc, add_comm 1] at ih
    simp only [Nat.exists_lt_succ_left, Nat.forall_lt_succ_left, stringWithin, add_zero]
    rcases hb : m a with _ | b
    · simp
    · by_cases h0 : b = 0#8
      · simp [h0]
      · simp [h0, ih]

/-- A string can be read if there is a zero byte, and all before it is mapped. -/
theorem string_isSome_iff {a : ℕ} :
    (m.string a).isSome ↔
      ∃ z, a ≤ z ∧ z < 2 ^ 32 ∧ m z = some 0 ∧ ∀ x, a ≤ x → x < z → (m x).isSome := by
  rw [string, stringWithin_isSome_iff]
  refine ⟨fun ⟨z, hz, h0, h⟩ ↦ ⟨a + z, by omega, by omega, h0, fun x hx hx' ↦ ?_⟩,
    fun ⟨z, hz, hlt, h0, h⟩ ↦ ⟨z - a, by omega, ?_, fun j hj ↦ h _ (by omega) (by omega)⟩⟩
  · rw [← Nat.add_sub_cancel' hx]
    exact h _ (by omega)
  · rw [Nat.add_sub_cancel' hz]
    exact h0

end AddressSpace
