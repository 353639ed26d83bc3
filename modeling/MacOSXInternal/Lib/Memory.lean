import MacOSXInternal.Lib.ByteOrder

/-!
# Big-endian word memory

Byte-addressed memory of a 32-bit machine, and the word loads and stores of a big-endian one.
Addresses wrap around, as they do in the machine, so every statement about two accesses is one
about the distance `(b - a).toNat` from the first to the second.

* `loadWord_storeWord` and `loadWord_storeWord_of_apart` are the two laws of a store seen by a load.
* `storeWord_of_outside` is the frame: what a store leaves alone.
* `loadWord_congr` is how a load survives anything that does not touch its four bytes.
* `storeWords` copies a list of words, and `loadWord_storeWords` reads one of them back.
-/

set_option autoImplicit false

/-- The memory of a 32-bit machine. -/
abbrev Memory := BitVec 32 → Byte

namespace Memory

variable (m : Memory) (a b x v : BitVec 32)

/-- The word at `a`. -/
@[irreducible] def loadWord : BitVec 32 := m a ++ m (a + 1) ++ m (a + 2) ++ m (a + 3)

/-- The memory with the word `v` at `a`. -/
@[irreducible] def storeWord : Memory := fun x ↦
  match (x - a).toNat with
  | 0 => v.extractLsb' 24 8
  | 1 => v.extractLsb' 16 8
  | 2 => v.extractLsb' 8 8
  | 3 => v.extractLsb' 0 8
  | _ => m x

variable {m a b x}

/-- What a store leaves alone. -/
theorem storeWord_of_outside (h : 4 ≤ (x - a).toNat) : m.storeWord a v x = m x := by
  rw [storeWord]
  split <;> first | rfl | omega

theorem loadWord_congr {m' : Memory} (h : ∀ x, (x - a).toNat < 4 → m' x = m x) :
    m'.loadWord a = m.loadWord a := by
  have h0 := h a (by simp)
  have h1 := h (a + 1) (by bv_omega)
  have h2 := h (a + 2) (by bv_omega)
  have h3 := h (a + 3) (by bv_omega)
  rw [loadWord, loadWord, h0, h1, h2, h3]

@[simp] theorem loadWord_storeWord : (m.storeWord a v).loadWord a = v := by
  have h1 : (a + 1 - a).toNat = 1 := by bv_omega
  have h2 : (a + 2 - a).toNat = 2 := by bv_omega
  have h3 : (a + 3 - a).toNat = 3 := by bv_omega
  simp only [loadWord, storeWord, BitVec.sub_self, BitVec.toNat_zero, h1, h2, h3]
  rw [BitVec.extractLsb'_append_extractLsb'_eq_extractLsb' (show 24 = 16 + 8 from rfl),
    BitVec.extractLsb'_append_extractLsb'_eq_extractLsb' (show 16 = 8 + 8 from rfl)]
  exact BitVec.extractLsb'_append_extractLsb'

theorem loadWord_storeWord_of_apart (h : 4 ≤ (b - a).toNat) (h' : (b - a).toNat ≤ 2 ^ 32 - 4) :
    (m.storeWord a v).loadWord b = m.loadWord b := by
  refine loadWord_congr fun x hx ↦ storeWord_of_outside v ?_
  bv_omega

/-- The memory with the words `ws` from `a` on. -/
def storeWords (m : Memory) (a : BitVec 32) : List (BitVec 32) → Memory
  | [] => m
  | w :: ws => storeWords (m.storeWord a w) (a + 4) ws

theorem storeWords_of_outside (ws : List (BitVec 32)) (h : 4 * ws.length ≤ (x - a).toNat) :
    m.storeWords a ws x = m x := by
  induction ws generalizing m a with
  | nil => rfl
  | cons w ws ih =>
    rw [List.length_cons] at h
    rw [storeWords, ih (by bv_omega), storeWord_of_outside w (by omega)]

theorem loadWord_storeWords (ws : List (BitVec 32)) (hlen : 4 * ws.length ≤ 2 ^ 32) {i : ℕ}
    {w : BitVec 32} (h : ws[i]? = some w) :
    (m.storeWords a ws).loadWord (a + BitVec.ofNat 32 (4 * i)) = w := by
  induction ws generalizing m a i with
  | nil => simp at h
  | cons w' ws ih =>
    rw [List.length_cons] at hlen
    cases i with
    | zero =>
      obtain rfl : w' = w := by simpa using h
      rw [Nat.mul_zero, BitVec.add_zero, storeWords]
      -- the words that follow do not reach round to the first
      rw [loadWord_congr fun x hx ↦ storeWords_of_outside ws (by bv_omega), loadWord_storeWord]
    | succ i =>
      rw [storeWords, ← ih (a := a + 4) (m := m.storeWord a w') (by omega) (by simpa using h)]
      congr 1
      bv_omega

end Memory
