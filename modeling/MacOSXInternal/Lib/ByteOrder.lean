import Mathlib.Data.Nat.Digits.Lemmas

/-!
# Integers in memory, in either byte order

A C program that looks at the same bytes once as an integer and once as bytes depends on the byte
order of the machine.  `ByteOrder.encode o n x` are the `n` bytes an integer `x` occupies in memory
under the order `o`, lowest address first, and `ByteOrder.decode o l` is the integer that the bytes
`l` spell.

* `decode_encode` is the round trip.
* `encode_compl_decode` is the one fact about complementing an integer in place: whatever the order,
  it complements every byte.
* `head_encode_big` and `head_encode_little` are what a one-byte view of the first address sees.

The little-endian value of a list of bytes is Mathlib's `Nat.ofDigits 256`; the big-endian forms
are the little-endian ones of the reversed list, so that every law is proved once.
-/

set_option autoImplicit false

/-- A byte. -/
abbrev Byte := BitVec 8

/-- The order in which an integer's bytes lie in memory. -/
inductive ByteOrder
  /-- Most significant byte at the lowest address. -/
  | big
  /-- Least significant byte at the lowest address. -/
  | little
  deriving DecidableEq, Repr

namespace ByteOrder

/-! ## Little-endian lists -/

/-- The `n` low-order bytes of `x`, least significant first. -/
def leBytes : ℕ → ℕ → List Byte
  | 0, _ => []
  | n + 1, x => BitVec.ofNat 8 x :: leBytes n (x / 256)

/-- The integer whose bytes, least significant first, are `l`. -/
def leNat (l : List Byte) : ℕ := Nat.ofDigits 256 (l.map BitVec.toNat)

@[simp] theorem leNat_nil : leNat [] = 0 := rfl

@[simp] theorem leNat_cons (b : Byte) (l : List Byte) : leNat (b :: l) = b.toNat + 256 * leNat l :=
  Nat.ofDigits_cons ..

@[simp] theorem length_leBytes (n x : ℕ) : (leBytes n x).length = n := by
  induction n generalizing x with
  | zero => rfl
  | succ n ih => simp [leBytes, ih]

theorem leNat_lt (l : List Byte) : leNat l < 256 ^ l.length := by
  have h := Nat.ofDigits_lt_base_pow_length (b := 256) (l := l.map BitVec.toNat) (by norm_num)
    (by simp only [List.mem_map, forall_exists_index, and_imp, forall_apply_eq_imp_iff₂]
        exact fun b _ ↦ b.isLt)
  simpa [leNat] using h

theorem leNat_leBytes {n x : ℕ} (h : x < 256 ^ n) : leNat (leBytes n x) = x := by
  induction n generalizing x with
  | zero =>
    rw [pow_zero] at h
    simp [leBytes, Nat.lt_one_iff.mp h]
  | succ n ih =>
    have hdiv : x / 256 < 256 ^ n := Nat.div_lt_of_lt_mul (by rwa [pow_succ'] at h)
    rw [leBytes, leNat_cons, ih hdiv, BitVec.toNat_ofNat]
    omega

/-- Complementing an integer complements its bytes. -/
theorem leBytes_compl (l : List Byte) :
    leBytes l.length (256 ^ l.length - 1 - leNat l) = l.map (~~~ ·) := by
  induction l with
  | nil => rfl
  | cons b l ih =>
    have hb := b.isLt
    have hl := leNat_lt l
    rw [List.length_cons, leNat_cons, leBytes, List.map_cons, ← ih, pow_succ']
    congr 1
    · apply BitVec.eq_of_toNat_eq
      rw [BitVec.toNat_ofNat, BitVec.toNat_not]
      omega
    · congr 1
      omega

/-- The most significant byte comes last. -/
theorem leBytes_succ_last (n x : ℕ) :
    leBytes (n + 1) x = leBytes n x ++ [BitVec.ofNat 8 (x / 256 ^ n)] := by
  induction n generalizing x with
  | zero => simp [leBytes]
  | succ n ih =>
    rw [leBytes, ih, leBytes, List.cons_append, Nat.div_div_eq_div_mul, ← pow_succ']

/-! ## Either order -/

/-- Little-endian bytes, put in order.  It is its own inverse. -/
def arrange : ByteOrder → List Byte → List Byte
  | .big, l => l.reverse
  | .little, l => l

@[simp] theorem arrange_arrange (o : ByteOrder) (l : List Byte) : o.arrange (o.arrange l) = l := by
  cases o <;> simp [arrange]

@[simp] theorem length_arrange (o : ByteOrder) (l : List Byte) :
    (o.arrange l).length = l.length := by
  cases o <;> simp [arrange]

theorem arrange_map (o : ByteOrder) (f : Byte → Byte) (l : List Byte) :
    o.arrange (l.map f) = (o.arrange l).map f := by
  cases o <;> simp [arrange]

/-- The `n` bytes of the integer `x`, lowest address first. -/
def encode (o : ByteOrder) (n x : ℕ) : List Byte := o.arrange (leBytes n x)

/-- The integer that the bytes `l` spell. -/
def decode (o : ByteOrder) (l : List Byte) : ℕ := leNat (o.arrange l)

@[simp] theorem length_encode (o : ByteOrder) (n x : ℕ) : (o.encode n x).length = n := by
  simp [encode]

theorem decode_lt (o : ByteOrder) (l : List Byte) : o.decode l < 256 ^ l.length := by
  simpa [decode] using leNat_lt (o.arrange l)

theorem decode_encode (o : ByteOrder) {n x : ℕ} (h : x < 256 ^ n) : o.decode (o.encode n x) = x := by
  simpa [decode, encode] using leNat_leBytes h

/-- **Complementing an integer in place complements every byte**, in either order. -/
theorem encode_compl_decode (o : ByteOrder) {n : ℕ} {l : List Byte} (h : l.length = n) :
    o.encode n (256 ^ n - 1 - o.decode l) = l.map (~~~ ·) := by
  subst h
  have hl := leBytes_compl (o.arrange l)
  rw [length_arrange] at hl
  rw [encode, decode, hl, arrange_map, arrange_arrange]

/-- The first byte of a big-endian integer is its most significant one. -/
theorem head_encode_big (n x : ℕ) :
    (ByteOrder.big.encode (n + 1) x).head? = some (BitVec.ofNat 8 (x / 256 ^ n)) := by
  simp [encode, arrange, leBytes_succ_last]

/-- The first byte of a little-endian integer is its least significant one. -/
theorem head_encode_little (n x : ℕ) :
    (ByteOrder.little.encode (n + 1) x).head? = some (BitVec.ofNat 8 x) := by
  simp [encode, arrange, leBytes]

end ByteOrder
