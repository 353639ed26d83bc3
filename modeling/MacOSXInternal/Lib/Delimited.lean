import Mathlib.Data.List.Basic
import MacOSXInternal.Lib.Flags

/-!
# Fields and what ends them

A text is printed field by field, each followed by a character that cannot stand in it.  Then the
fields can be read back, however long they are.

* `append_cons_inj` reads a field from its front, `append_cons_inj_last` from its back.
* `SelfDelimiting` texts tell where they end, so that any number of them can be printed without
  anything in between (`SelfDelimiting.flatMap_inj`).
-/

set_option autoImplicit false

namespace Delimited

variable {α β γ : Type}

/-- A field ends at the first `d`, if there is none in it. -/
theorem append_cons_inj {d : α} {x y r s : List α} (hx : d ∉ x) (hy : d ∉ y) :
    x ++ d :: r = y ++ d :: s ↔ x = y ∧ r = s := by
  constructor
  · intro h
    obtain ⟨hxy, hrs⟩ := Flags.append_inj_of_heading hx hy (by simp) (by simp) h
    exact ⟨hxy, (List.cons.inj hrs).2⟩
  · rintro ⟨rfl, rfl⟩
    rfl

/-- A field ends at the last `d`, if there is none behind it. -/
theorem append_cons_inj_last {d : α} {x y r s : List α} (hr : d ∉ r) (hs : d ∉ s) :
    x ++ d :: r = y ++ d :: s ↔ x = y ∧ r = s := by
  have hr : d ∉ r.reverse := by rwa [List.mem_reverse]
  have hs : d ∉ s.reverse := by rwa [List.mem_reverse]
  rw [← List.reverse_inj, List.reverse_append, List.reverse_append, List.reverse_cons,
    List.reverse_cons, List.append_assoc, List.append_assoc, List.singleton_append,
    List.singleton_append, append_cons_inj hr hs, List.reverse_inj, List.reverse_inj, and_comm]

/-- What is printed of a `b` as in `P` has a beginning, an end, and tells `g b` between them. -/
structure SelfDelimiting (P : β → Prop) (f : β → List α) (g : β → γ) : Prop where
  ne_nil : ∀ {b}, P b → f b ≠ []
  inj : ∀ {a b r s}, P a → P b → (f a ++ r = f b ++ s ↔ g a = g b ∧ r = s)

/-- A word and the `d` behind it. -/
theorem SelfDelimiting.word {d : α} {P : β → Prop} {f : β → List α} (hd : ∀ {b}, P b → d ∉ f b) :
    SelfDelimiting P (fun b ↦ f b ++ [d]) f where
  ne_nil _ := List.append_ne_nil_of_right_ne_nil _ (List.cons_ne_nil d [])
  inj ha hb := by
    rw [List.append_assoc, List.append_assoc, List.singleton_append, List.singleton_append,
      append_cons_inj (hd ha) (hd hb)]

theorem SelfDelimiting.congr {δ : Type} {P : β → Prop} {f : β → List α} {g : β → γ} {g' : β → δ}
    (h : SelfDelimiting P f g) (hg : ∀ {a b}, P a → P b → (g a = g b ↔ g' a = g' b)) :
    SelfDelimiting P f g' where
  ne_nil := h.ne_nil
  inj ha hb := by rw [h.inj ha hb, hg ha hb]

/-- **Self-delimiting texts can be printed one behind the other.** -/
theorem SelfDelimiting.flatMap_inj {P : β → Prop} {f : β → List α} {g : β → γ}
    (h : SelfDelimiting P f g) {l m : List β} (hl : ∀ b ∈ l, P b) (hm : ∀ b ∈ m, P b) :
    l.flatMap f = m.flatMap f ↔ l.map g = m.map g := by
  induction l generalizing m with
  | nil =>
    cases m with
    | nil => simp
    | cons c m => simpa using fun hnil ↦ absurd hnil (h.ne_nil (hm c List.mem_cons_self))
  | cons b l ih =>
    rw [List.forall_mem_cons] at hl
    cases m with
    | nil => simpa using fun hnil ↦ absurd hnil (h.ne_nil hl.1)
    | cons c m =>
      rw [List.forall_mem_cons] at hm
      rw [List.flatMap_cons, List.flatMap_cons, h.inj hl.1 hm.1, ih hl.2 hm.2, List.map_cons,
        List.map_cons, List.cons.injEq]

end Delimited
