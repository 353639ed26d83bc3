import Mathlib.Data.List.Basic
import Mathlib.Data.List.Nodup

/-!
# Flags and tables of flags

A word whose bits are flags is shown to a user by going through a table of masks and names, and
printing the names of the rows whose mask meets the word.

* `Meets` is the test `mask & flags`.
* `shown` is what is printed, in the order of the table.  `map_filter_inj` says how much of the word
  it gives away: the outcome of the test in every row, and nothing else.
* `Epochs` cuts what happens at the readings.
* `flatMap_heading_inj`: where every reading is printed under the same heading, the printed lines
  tell the readings apart.
-/

set_option autoImplicit false

namespace Flags

variable {w : ℕ} {α β : Type}

/-! ## Masks -/

/-- One of the flags in `mask` is set. -/
def Meets (mask flags : BitVec w) : Prop := mask &&& flags ≠ 0#w

instance (mask flags : BitVec w) : Decidable (Meets mask flags) :=
  inferInstanceAs (Decidable (mask &&& flags ≠ 0#w))

theorem meets_iff {mask flags : BitVec w} :
    Meets mask flags ↔ ∃ n, mask.getLsbD n ∧ flags.getLsbD n := by
  have hzero : mask &&& flags = 0#w ↔ ∀ n, ¬(mask.getLsbD n ∧ flags.getLsbD n) := by
    simp only [← Bool.and_eq_true, ← BitVec.getLsbD_and, Bool.not_eq_true]
    constructor
    · intro h n
      rw [h, BitVec.getLsbD_zero]
    · exact fun h ↦ BitVec.eq_of_getLsbD_eq fun n _ ↦ by rw [h n, BitVec.getLsbD_zero]
  show ¬mask &&& flags = 0#w ↔ _
  rw [hzero, not_forall_not]

@[simp] theorem not_meets_zero {mask : BitVec w} : ¬Meets mask 0#w := by
  simp [meets_iff]

@[simp] theorem meets_or {mask a b : BitVec w} :
    Meets mask (a ||| b) ↔ Meets mask a ∨ Meets mask b := by
  simp only [meets_iff, BitVec.getLsbD_or, Bool.or_eq_true, and_or_left, exists_or]

/-- Flags that are masked out are not missed, if `mask` has none of them. -/
theorem meets_and {mask kept flags : BitVec w} (h : mask &&& kept = mask) :
    Meets mask (flags &&& kept) ↔ Meets mask flags := by
  rw [Meets, Meets, BitVec.and_comm flags, ← BitVec.and_assoc, h]

/-- Two words that agree under a mask. -/
theorem and_eq_and_iff {mask a b : BitVec w} :
    a &&& mask = b &&& mask ↔ ∀ n, mask.getLsbD n → a.getLsbD n = b.getLsbD n := by
  constructor
  · intro h n hn
    simpa [hn] using congrArg (fun x ↦ x.getLsbD n) h
  · intro h
    refine BitVec.eq_of_getLsbD_eq fun n _ ↦ ?_
    rw [BitVec.getLsbD_and, BitVec.getLsbD_and]
    cases hn : mask.getLsbD n with
    | false => rw [Bool.and_false, Bool.and_false]
    | true => rw [h n hn]

/-! ## Tables -/

/-- The names of the rows whose mask meets the flags. -/
def shown (rows : List (BitVec w × α)) (flags : BitVec w) : List α :=
  (rows.filter fun r ↦ Meets r.1 flags).map Prod.snd

/-- **What is printed of a table tells what was picked**, if the names are different. -/
theorem map_filter_inj {f : β → α} {l : List β} (hf : (l.map f).Nodup) {p q : β → Bool} :
    (l.filter p).map f = (l.filter q).map f ↔ ∀ b ∈ l, p b = q b := by
  refine ⟨fun h b hb ↦ ?_, fun h ↦ by rw [List.filter_congr h]⟩
  have hmem (p : β → Bool) : f b ∈ (l.filter p).map f ↔ p b := by
    rw [List.mem_map]
    constructor
    · rintro ⟨c, hc, heq⟩
      rw [List.mem_filter] at hc
      rw [← List.inj_on_of_nodup_map hf hc.1 hb heq]
      exact hc.2
    · exact fun hp ↦ ⟨b, List.mem_filter.mpr ⟨hb, hp⟩, rfl⟩
  rw [Bool.eq_iff_iff, ← hmem, ← hmem, h]

/-- Where two functions tell elements apart alike, they tell lists apart alike. -/
theorem map_eq_map_congr {γ : Type} {f : β → α} {g : β → γ} (h : ∀ a b, f a = f b ↔ g a = g b)
    {l m : List β} : l.map f = m.map f ↔ l.map g = m.map g := by
  induction l generalizing m with
  | nil => cases m <;> simp
  | cons a l ih =>
    cases m with
    | nil => simp
    | cons b m => simp only [List.map_cons, List.cons.injEq, h, ih]

/-! ## Readings -/

/-- What happened between one reading and the next, and what has happened since the last. -/
structure Epochs (β : Type) where
  closed : List (List β)
  current : List β

namespace Epochs

def empty : Epochs β := ⟨[], []⟩

/-- Something happens. -/
def happen (e : Epochs β) (b : β) : Epochs β := { e with current := e.current ++ [b] }

/-- Somebody reads. -/
def close (e : Epochs β) : Epochs β := ⟨e.closed ++ [e.current], []⟩

end Epochs

/-! ## Under a heading -/

/-- Two texts that go on with a heading, if they go on, break off at the same place. -/
theorem append_inj_of_heading {heading : α} {a b r r' : List α} (ha : heading ∉ a)
    (hb : heading ∉ b) (hr : ∀ x ∈ r.head?, x = heading) (hr' : ∀ x ∈ r'.head?, x = heading)
    (h : a ++ r = b ++ r') : a = b ∧ r = r' := by
  induction a generalizing b with
  | nil =>
    cases b with
    | nil => exact ⟨rfl, h⟩
    | cons y b =>
      rw [List.nil_append] at h
      have hy : y = heading := hr y (by rw [h]; rfl)
      exact absurd (hy ▸ List.mem_cons_self) hb
  | cons x a ih =>
    cases b with
    | nil =>
      rw [List.nil_append] at h
      have hx : x = heading := hr' x (by rw [← h]; rfl)
      exact absurd (hx ▸ List.mem_cons_self) ha
    | cons y b =>
      obtain ⟨rfl, htail⟩ := List.cons.inj h
      obtain ⟨rfl, hrest⟩ := ih (fun hmem ↦ ha (List.mem_cons_of_mem _ hmem))
        (fun hmem ↦ hb (List.mem_cons_of_mem _ hmem)) htail
      exact ⟨rfl, hrest⟩

theorem head?_flatMap_heading {heading : α} {f : β → List α} (l : List β) :
    ∀ x ∈ (l.flatMap fun b ↦ heading :: f b).head?, x = heading := by
  intro x hx
  cases l with
  | nil => simp at hx
  | cons b l => simpa using hx.symm

/-- **Texts under a heading can be told apart**, if the heading is not one of their lines. -/
theorem flatMap_heading_inj {heading : α} {f : β → List α} (hf : ∀ b, heading ∉ f b)
    {l m : List β} : (l.flatMap fun b ↦ heading :: f b) = (m.flatMap fun b ↦ heading :: f b) ↔
      l.map f = m.map f := by
  refine ⟨fun h ↦ ?_, fun h ↦ ?_⟩
  · induction l generalizing m with
    | nil =>
      cases m with
      | nil => rfl
      | cons c m => simp at h
    | cons b l ih =>
      cases m with
      | nil => simp at h
      | cons c m =>
        rw [List.flatMap_cons, List.flatMap_cons, List.cons_append, List.cons_append] at h
        obtain ⟨hbc, hrest⟩ := append_inj_of_heading (hf b) (hf c) (head?_flatMap_heading l)
          (head?_flatMap_heading m) (List.cons.inj h).2
        rw [List.map_cons, List.map_cons, hbc, ih hrest]
  · have hmap (n : List β) : (n.flatMap fun b ↦ heading :: f b) =
        (n.map f).flatMap fun lines ↦ heading :: lines := by
      rw [List.flatMap_map]
    rw [hmap l, hmap m, h]

end Flags
