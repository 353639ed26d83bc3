import Mathlib.Data.List.Basic
import Mathlib.Data.List.Range

/-!
# Overwriting part of a list, chunk by chunk

`splice l off m` is the list `l` with `m` written over it from position `off` on.  A loop that goes
through a buffer in chunks of `c` elements and replaces each chunk is a fold of `splice` over the
chunk numbers, and the two lemmas here say what such a loop leaves behind when the replacement of a
chunk is elementwise: `foldl_splice_inPlace` when the chunks are read from the buffer that is being
written, `foldl_splice_copy` when they are read from another one.
-/

set_option autoImplicit false

namespace Splice

universe u v

variable {α : Type u} {β : Type v}

/-- `l` with `m` written over it, beginning at position `off`. -/
def splice (l : List α) (off : ℕ) (m : List α) : List α :=
  l.take off ++ (m ++ l.drop (off + m.length))

/-- The `c` elements from position `off` on. -/
def chunk (l : List α) (off c : ℕ) : List α := (l.drop off).take c

@[simp] theorem splice_zero (l m : List α) : splice l 0 m = m ++ l.drop m.length := by
  simp [splice]

/-- Storing one element, and then others behind it. -/
theorem splice_set {l : List α} {off : ℕ} (h : off < l.length) (x : α) (m : List α) :
    splice (l.set off x) (off + 1) m = splice l off (x :: m) := by
  have htake : (l.set off x).take (off + 1) = l.take off ++ [x] := by
    rw [List.take_add_one, List.take_set_of_le (le_refl off), List.getElem?_set_self h]
    rfl
  have hdrop : (l.set off x).drop (off + 1 + m.length) = l.drop (off + (x :: m).length) := by
    rw [List.drop_set_of_lt (by omega), List.length_cons, Nat.add_assoc, Nat.add_comm 1]
  rw [splice, htake, hdrop, splice, List.append_assoc]
  rfl

theorem set_eq_splice {l : List α} {off : ℕ} (h : off < l.length) (x : α) :
    l.set off x = splice l off [x] := by
  rw [← splice_set h]
  simp [splice]

theorem length_chunk {l : List α} {off c : ℕ} (h : off + c ≤ l.length) :
    (chunk l off c).length = c := by
  simp only [chunk, List.length_take, List.length_drop]
  omega

/-- Writing the next chunk behind a finished part of the right length extends that part. -/
theorem splice_append {done l m : List α} {n : ℕ} (hdone : done.length = n)
    (hm : n + m.length ≤ l.length) :
    splice (done ++ l.drop n) n m = done ++ m ++ l.drop (n + m.length) := by
  subst hdone
  simp [splice, List.drop_append, List.drop_drop]

/-- A copying loop: chunk by chunk, from `src` to `dst`, with `f` on the way. -/
theorem foldl_splice_copy {f : List α → List β} {g : α → β} {c : ℕ}
    (hf : ∀ l : List α, l.length = c → f l = l.map g) (src : List α) (dst : List β) :
    ∀ n : ℕ, n * c ≤ src.length → n * c ≤ dst.length →
      (List.range n).foldl (fun w i ↦ splice w (i * c) (f (chunk src (i * c) c))) dst =
        (src.take (n * c)).map g ++ dst.drop (n * c)
  | 0, _, _ => by simp
  | n + 1, hs, hd => by
    rw [Nat.add_mul, Nat.one_mul] at hs hd
    have hlen : (chunk src (n * c) c).length = c := length_chunk hs
    rw [List.range_succ, List.foldl_append,
      foldl_splice_copy hf src dst n (by omega) (by omega), List.foldl_cons, List.foldl_nil,
      hf _ hlen, splice_append (by simp; omega) (by simpa [hlen] using hd), ← List.map_append,
      List.length_map, hlen, chunk, ← List.take_add, Nat.add_mul, Nat.one_mul]

/-- A loop in place: chunk by chunk, `l` is replaced by its image. -/
theorem foldl_splice_inPlace {f : List α → List α} {g : α → α} {c : ℕ}
    (hf : ∀ l : List α, l.length = c → f l = l.map g) (l : List α) :
    ∀ n : ℕ, n * c ≤ l.length →
      (List.range n).foldl (fun w i ↦ splice w (i * c) (f (chunk w (i * c) c))) l =
        (l.take (n * c)).map g ++ l.drop (n * c)
  | 0, _ => by simp
  | n + 1, h => by
    rw [Nat.add_mul, Nat.one_mul] at h
    have hlen : (chunk l (n * c) c).length = c := length_chunk h
    have hdone : ((l.take (n * c)).map g).length = n * c := by simp; omega
    have hchunk : chunk ((l.take (n * c)).map g ++ l.drop (n * c)) (n * c) c =
        chunk l (n * c) c := by
      rw [chunk, chunk, List.drop_append, List.drop_of_length_le hdone.le, hdone]
      simp
    rw [List.range_succ, List.foldl_append, foldl_splice_inPlace hf l n (by omega),
      List.foldl_cons, List.foldl_nil, hchunk, hf _ hlen,
      splice_append hdone (by simpa [hlen] using h), ← List.map_append, List.length_map, hlen,
      chunk, ← List.take_add, Nat.add_mul, Nat.one_mul]

end Splice
