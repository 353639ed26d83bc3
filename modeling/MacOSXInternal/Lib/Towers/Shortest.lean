import MacOSXInternal.Lib.Towers

/-!
# No game is shorter than the recursive solution

On three towers nothing beats `solve`, and nothing else does as well.

The argument does not need the towers, only where each disk is: a disk may leave a place, or come to
one, only if no smaller disk is there.  `Free` is this rule, over a map from the disks to their
places.  It has one advantage over `Legal`: to forget the largest disk is to forget its moves, since
what the rule asks of the others never mentions it.

* `Free.along_tail` forgets the largest disk.
* `Free.elsewhere` is the key: when the largest disk moves, all others are on the third tower.
* `Carries.two_pow_le` is the lower bound, and `Carries.eq_solve` the only game that meets it.  Until
  the largest disk moves first, and after it has moved last, the others are taken from one tower to
  another.
* `Legal.free` takes it over to the game of the towers, and `shortest` is the result.
-/

set_option autoImplicit false

universe u v

namespace Towers

open Runs

variable {π : Type u} {δ : Type v}

/-! ## Places -/

/-- The moves are among three towers. -/
def Among (f v t : π) (l : List (π × π × δ)) : Prop :=
  ∀ mv ∈ l, mv.1 = f ∨ mv.1 = v ∨ mv.1 = t

section
variable {f v t : π} {l l' : List (π × π × δ)}

theorem Among.swap (h : Among f v t l) : Among f t v l :=
  fun mv hmv ↦ (h mv hmv).imp_right Or.symm

theorem Among.rotate (h : Among f v t l) : Among v f t l :=
  fun mv hmv ↦ or_left_comm.mp (h mv hmv)

theorem Among.append (h : Among f v t (l ++ l')) : Among f v t l ∧ Among f v t l' :=
  List.forall_mem_append.mp h

/-- The recursive solution keeps to its three towers. -/
theorem among_solve (ds : List δ) (f v t : π) : Among f v t (solve ds f v t) := by
  induction ds generalizing f v t with
  | nil => exact List.forall_mem_nil _
  | cons d ds ih =>
    refine List.forall_mem_append.mpr ⟨(ih f t v).swap, List.forall_mem_cons.mpr ⟨?_, ?_⟩⟩
    · exact Or.inr (Or.inr rfl)
    · exact (ih v f t).rotate

end

variable [LinearOrder δ]

/-- The disk is at another place. -/
def put (pos : δ → π) (mv : π × π × δ) : δ → π := Function.update pos mv.2.2 mv.1

/-- A disk may move if no smaller one is where it is, or where it goes. -/
structure Free (ds : List δ) (pos : δ → π) (mv : π × π × δ) : Prop where
  mem : mv.2.2 ∈ ds
  here : pos mv.2.2 = mv.2.1
  ne : mv.2.1 ≠ mv.1
  least : ∀ x ∈ ds, x < mv.2.2 → pos x ≠ mv.2.1
  onto : ∀ x ∈ ds, x < mv.2.2 → pos x ≠ mv.1

section
variable {f v t : π} {l : List (π × π × δ)} {pos : δ → π} {d : δ} {ds : List δ}

/-- A disk that is among three places stays there. -/
theorem Among.put (h : Among f v t l) (pos : δ → π) {x : δ}
    (hx : pos x = f ∨ pos x = v ∨ pos x = t) :
    l.foldl put pos x = f ∨ l.foldl put pos x = v ∨ l.foldl put pos x = t := by
  induction l generalizing pos with
  | nil => exact hx
  | cons mv l ih =>
    obtain ⟨hmv, hl⟩ := List.forall_mem_cons.mp h
    refine ih hl _ ?_
    by_cases heq : x = mv.2.2
    · rw [heq, Towers.put, Function.update_self]
      exact hmv
    · rw [Towers.put, Function.update_of_ne heq]
      exact hx

/-- A disk that is not moved stays where it is. -/
theorem foldl_put_of_forall_ne (h : ∀ mv ∈ l, mv.2.2 ≠ d) (pos : δ → π) :
    l.foldl put pos d = pos d := by
  induction l generalizing pos with
  | nil => rfl
  | cons mv l ih =>
    obtain ⟨hmv, hl⟩ := List.forall_mem_cons.mp h
    rw [List.foldl_cons, ih hl, put, Function.update_of_ne hmv.symm]

/-- **The largest disk is forgotten**, in a game in which it does not move. -/
theorem Free.along_tail (h : Along put (Free (d :: ds)) pos l) (hd : ∀ mv ∈ l, mv.2.2 ≠ d) :
    Along put (Free ds) pos l := by
  induction l generalizing pos with
  | nil => exact trivial
  | cons mv l ih =>
    obtain ⟨hmv, hl⟩ := List.forall_mem_cons.mp hd
    refine ⟨?_, ih h.2 hl⟩
    exact
      { mem := List.mem_of_ne_of_mem hmv h.1.mem
        here := h.1.here
        ne := h.1.ne
        least := fun x hx ↦ h.1.least x (List.mem_cons_of_mem _ hx)
        onto := fun x hx ↦ h.1.onto x (List.mem_cons_of_mem _ hx) }

/-- **When the largest disk moves, the others are on the third tower.** -/
theorem Free.elsewhere {p q : π} (h : Free (d :: ds) pos (q, p, d)) (hds : ∀ x ∈ ds, x < d) {x : δ}
    (hx : x ∈ ds) : pos x ≠ p ∧ pos x ≠ q :=
  have hmem := List.mem_cons_of_mem d hx
  ⟨h.least x hmem (hds x hx), h.onto x hmem (hds x hx)⟩

/-- The moves up to the first one of a disk. -/
theorem exists_first (h : ∃ mv ∈ l, mv.2.2 = d) :
    ∃ l₁ p q l₂, l = l₁ ++ (q, p, d) :: l₂ ∧ ∀ mv ∈ l₁, mv.2.2 ≠ d := by
  induction l with
  | nil =>
    obtain ⟨mv, hmv, -⟩ := h
    cases hmv
  | cons mv l ih =>
    obtain ⟨q, p, x⟩ := mv
    by_cases hx : x = d
    · exact ⟨[], p, q, l, by rw [hx]; rfl, List.forall_mem_nil _⟩
    · rw [List.exists_mem_cons_iff] at h
      obtain ⟨l₁, p', q', l₂, rfl, hl₁⟩ := ih (h.resolve_left hx)
      exact ⟨(q, p, x) :: l₁, p', q', l₂, rfl, List.forall_mem_cons.mpr ⟨hx, hl₁⟩⟩

/-- The moves after the last one of a disk. -/
theorem exists_last (h : ∃ mv ∈ l, mv.2.2 = d) :
    ∃ l₁ p q l₂, l = l₁ ++ (q, p, d) :: l₂ ∧ ∀ mv ∈ l₂, mv.2.2 ≠ d := by
  obtain ⟨mv, hmv, hd⟩ := h
  obtain ⟨l₁, p, q, l₂, hl, hl₁⟩ := exists_first ⟨mv, List.mem_reverse.mpr hmv, hd⟩
  refine ⟨l₂.reverse, p, q, l₁.reverse, ?_, fun mv hmv ↦ hl₁ mv (List.mem_reverse.mp hmv)⟩
  rw [← List.reverse_reverse l, hl]
  simp

end

/-! ## The bound -/

/-- The moves take the disks from one of three towers to another. -/
structure Carries (ds : List δ) (f v t : π) (pos : δ → π) (l : List (π × π × δ)) : Prop where
  hfv : f ≠ v
  hft : f ≠ t
  hvt : v ≠ t
  among : Among f v t l
  free : Along put (Free ds) pos l
  start : ∀ d ∈ ds, pos d = f
  final : ∀ d ∈ ds, l.foldl put pos d = t

section
variable {f v t p q : π} {l l₁ l₂ : List (π × π × δ)} {pos : δ → π} {d : δ} {ds : List δ}
  (hd : ∀ x ∈ ds, x < d)
include hd

/-- Until the largest disk moves first, the others are taken to the third tower. -/
theorem Carries.before (h : Carries (d :: ds) f v t pos (l₁ ++ (q, p, d) :: l₂))
    (hl₁ : ∀ mv ∈ l₁, mv.2.2 ≠ d) :
    p = f ∧ (q = t ∧ Carries ds f t v pos l₁ ∨ q = v ∧ Carries ds f v t pos l₁) := by
  obtain ⟨hfrom_d, hfrom⟩ := List.forall_mem_cons.mp h.start
  obtain ⟨hamong₁, hamong₂⟩ := h.among.append
  obtain ⟨hfree₁, hfree_d, -⟩ := along_append.mp h.free
  have hp : p = f := by
    rw [← hfrom_d, ← foldl_put_of_forall_ne hl₁ pos]
    exact hfree_d.here.symm
  subst hp
  have hplace {x : δ} (hx : x ∈ ds) :=
    (hamong₁.put pos (Or.inl (hfrom x hx))).resolve_left (hfree_d.elsewhere hd hx).1
  refine ⟨rfl, ?_⟩
  rcases (hamong₂ _ List.mem_cons_self).resolve_left hfree_d.ne.symm with hq | hq
  · have hq : q = v := hq
    subst hq
    exact Or.inr ⟨rfl, h.hfv, h.hft, h.hvt, hamong₁, Free.along_tail hfree₁ hl₁, hfrom,
      fun x hx ↦ (hplace hx).resolve_left (hfree_d.elsewhere hd hx).2⟩
  · have hq : q = t := hq
    subst hq
    exact Or.inl ⟨rfl, h.hft, h.hfv, h.hvt.symm, hamong₁.swap, Free.along_tail hfree₁ hl₁, hfrom,
      fun x hx ↦ (hplace hx).resolve_right (hfree_d.elsewhere hd hx).2⟩

/-- After the largest disk has moved last, the others are taken on top of it. -/
theorem Carries.after (h : Carries (d :: ds) f v t pos (l₁ ++ (q, p, d) :: l₂))
    (hl₂ : ∀ mv ∈ l₂, mv.2.2 ≠ d) :
    q = t ∧ ∃ pos', p = f ∧ Carries ds v f t pos' l₂ ∨ p = v ∧ Carries ds f v t pos' l₂ := by
  obtain ⟨hfrom_d, hfrom⟩ := List.forall_mem_cons.mp h.start
  obtain ⟨hto_d, hto⟩ := List.forall_mem_cons.mp h.final
  obtain ⟨hamong₁, hamong₂⟩ := h.among.append
  obtain ⟨-, hamong₂⟩ := List.forall_mem_cons.mp hamong₂
  obtain ⟨-, hfree_d, hfree₂⟩ := along_append.mp h.free
  obtain ⟨pos₁, hpos₁⟩ : ∃ pos₁, pos₁ = l₁.foldl put pos := ⟨_, rfl⟩
  rw [← hpos₁] at hfree_d hfree₂
  rw [List.foldl_append, ← hpos₁, List.foldl_cons] at hto_d
  simp only [List.foldl_append, ← hpos₁, List.foldl_cons] at hto
  have hq : q = t := by
    rw [← hto_d, foldl_put_of_forall_ne hl₂, put, Function.update_self]
  subst hq
  have hput {x : δ} (hx : x ∈ ds) : put pos₁ (q, p, d) x = pos₁ x :=
    Function.update_of_ne (ne_of_lt (hd x hx)) ..
  -- neither the disk nor any other one is on `t` before its last move
  have hp : p = f ∨ p = v := by
    have hor := hamong₁.put pos (Or.inl hfrom_d)
    rw [← hpos₁, hfree_d.here, ← or_assoc] at hor
    exact hor.resolve_right hfree_d.ne
  have hplace {x : δ} (hx : x ∈ ds) : pos₁ x = f ∨ pos₁ x = v := by
    have hor := hamong₁.put pos (Or.inl (hfrom x hx))
    rw [← hpos₁, ← or_assoc] at hor
    exact hor.resolve_right (hfree_d.elsewhere hd hx).2
  refine ⟨rfl, put pos₁ (q, p, d), ?_⟩
  rcases hp with rfl | rfl
  · exact Or.inl ⟨rfl, h.hfv.symm, h.hvt, h.hft, Among.rotate hamong₂, Free.along_tail hfree₂ hl₂,
      fun x hx ↦ (hput hx).trans ((hplace hx).resolve_left (hfree_d.elsewhere hd hx).1), hto⟩
  · exact Or.inr ⟨rfl, h.hfv, h.hft, h.hvt, hamong₂, Free.along_tail hfree₂ hl₂,
      fun x hx ↦ (hput hx).trans ((hplace hx).resolve_right (hfree_d.elsewhere hd hx).1), hto⟩

/-- **The largest disk moves once, or more often.** -/
theorem Carries.split (h : Carries (d :: ds) f v t pos l) :
    (∃ l₁ l₂ pos', l = l₁ ++ (t, f, d) :: l₂ ∧ Carries ds f t v pos l₁ ∧ Carries ds v f t pos' l₂) ∨
    ∃ l₁ l₂ l₃ mv mv' w w' u u' pos', l = l₁ ++ mv :: (l₂ ++ mv' :: l₃) ∧
      Carries ds f w w' pos l₁ ∧ Carries ds u u' t pos' l₃ := by
  have hmoves : ∃ mv ∈ l, mv.2.2 = d := by
    by_contra hnone
    push Not at hnone
    have hto_d := h.final d List.mem_cons_self
    rw [foldl_put_of_forall_ne hnone] at hto_d
    exact h.hft ((h.start d List.mem_cons_self).symm.trans hto_d)
  obtain ⟨l₁, p, q, l₂, rfl, hl₁⟩ := exists_first hmoves
  obtain ⟨rfl, hbefore⟩ := h.before hd hl₁
  by_cases hagain : ∃ mv ∈ l₂, mv.2.2 = d
  · right
    obtain ⟨l₂, p', q', l₃, rfl, hl₃⟩ := exists_last hagain
    have hsplit := h
    rw [← List.cons_append, ← List.append_assoc] at hsplit
    obtain ⟨rfl, pos', hafter⟩ := hsplit.after hd hl₃
    obtain ⟨w, w', hfirst⟩ : ∃ w w', Carries ds p w w' pos l₁ := by
      rcases hbefore with ⟨-, h₁⟩ | ⟨-, h₁⟩
      · exact ⟨_, _, h₁⟩
      · exact ⟨_, _, h₁⟩
    obtain ⟨u, u', hlast⟩ : ∃ u u', Carries ds u u' q' pos' l₃ := by
      rcases hafter with ⟨-, h₃⟩ | ⟨-, h₃⟩
      · exact ⟨_, _, h₃⟩
      · exact ⟨_, _, h₃⟩
    exact ⟨l₁, l₂, l₃, _, _, w, w', u, u', pos', rfl, hfirst, hlast⟩
  · left
    push Not at hagain
    obtain ⟨rfl, pos', hafter⟩ := h.after hd hagain
    refine ⟨l₁, l₂, pos', rfl, ?_, ?_⟩
    · exact (hbefore.resolve_right fun h₁ ↦ h.hvt h₁.1.symm).2
    · exact (hafter.resolve_right fun h₂ ↦ h.hfv h₂.1).2

end

section
variable {f v t : π} {l : List (π × π × δ)} {pos : δ → π} {ds : List δ}
  (hds : ds.Pairwise (· > ·)) (h : Carries ds f v t pos l)
include hds h

theorem Carries.two_pow_le : 2 ^ ds.length ≤ l.length + 1 := by
  induction ds generalizing f v t pos l with
  | nil => simp
  | cons d ds ih =>
    obtain ⟨hd, hds⟩ := List.pairwise_cons.mp hds
    rw [List.length_cons, pow_succ]
    rcases h.split hd with ⟨l₁, l₂, pos', rfl, h₁, h₂⟩ |
      ⟨l₁, l₂, l₃, mv, mv', w, w', u, u', pos', rfl, h₁, h₃⟩
    · have hle₁ := ih hds h₁
      have hle₂ := ih hds h₂
      simp only [List.length_append, List.length_cons]
      omega
    · have hle₁ := ih hds h₁
      have hle₃ := ih hds h₃
      simp only [List.length_append, List.length_cons]
      omega

/-- Only the recursive solution is as short as that. -/
theorem Carries.eq_solve (hlen : l.length + 1 = 2 ^ ds.length) : l = solve ds f v t := by
  induction ds generalizing f v t pos l with
  | nil => exact List.eq_nil_of_length_eq_zero (by simpa using hlen)
  | cons d ds ih =>
    obtain ⟨hd, hds⟩ := List.pairwise_cons.mp hds
    rw [List.length_cons, pow_succ] at hlen
    rcases h.split hd with ⟨l₁, l₂, pos', rfl, h₁, h₂⟩ |
      ⟨l₁, l₂, l₃, mv, mv', w, w', u, u', pos', rfl, h₁, h₃⟩
    · have hle₁ := h₁.two_pow_le hds
      have hle₂ := h₂.two_pow_le hds
      simp only [List.length_append, List.length_cons] at hlen
      rw [solve, ← ih hds h₁ (by omega), ← ih hds h₂ (by omega)]
    · -- a second move of the largest disk is one too many
      have hle₁ := h₁.two_pow_le hds
      have hle₃ := h₃.two_pow_le hds
      simp only [List.length_append, List.length_cons] at hlen
      omega

end

/-! ## The towers -/

variable [DecidableEq π] {T : π → List δ} {ds : List δ} {pos : δ → π}

/-- Where the disks are, and that none is there twice. -/
structure Places (ds : List δ) (T : π → List δ) (pos : δ → π) : Prop where
  mem : ∀ p x, x ∈ T p ↔ x ∈ ds ∧ pos x = p
  nodup : ∀ p, (T p).Nodup

/-- **A legal move is one by the rule for places**, and the towers keep to the places. -/
theorem Legal.free {mv : π × π × δ} (h : Legal T mv) (hT : Places ds T pos) :
    Free ds pos mv ∧ Places ds (play T mv) (put pos mv) := by
  obtain ⟨t, f, d⟩ := mv
  obtain ⟨below, htop⟩ := h.top
  have hne : f ≠ t := h.ne
  obtain ⟨hmem, hhere⟩ := (hT.mem f d).mp (by rw [htop]; exact List.mem_cons_self)
  have hfree : Free ds pos (t, f, d) :=
    { mem := hmem
      here := hhere
      ne := hne
      least := fun x hx hlt heq ↦ (h.least x ((hT.mem f x).mpr ⟨hx, heq⟩)).not_gt hlt
      onto := fun x hx hlt heq ↦ (h.onto x ((hT.mem t x).mpr ⟨hx, heq⟩)).not_gt hlt }
  have hnodup := hT.nodup f
  rw [htop, List.nodup_cons] at hnodup
  refine ⟨hfree, ?_, ?_⟩
  · intro p x
    by_cases hx : x = d
    · -- the disk itself
      subst hx
      rw [put, Function.update_self]
      by_cases hpt : p = t
      · simp [hpt, play_to hne, hmem]
      by_cases hpf : p = f
      · rw [hpf, play_from hne htop]
        exact iff_of_false hnodup.1 fun hand ↦ hne hand.2.symm
      · rw [play_of_ne hpf hpt, hT.mem, hhere]
        exact iff_of_false (fun hand ↦ hpf hand.2.symm) fun hand ↦ hpt hand.2.symm
    · rw [put, Function.update_of_ne hx, ← hT.mem]
      by_cases hpt : p = t
      · simp [hpt, play_to hne, hx]
      by_cases hpf : p = f
      · simp [hpf, play_from hne htop, htop, hx]
      · rw [play_of_ne hpf hpt]
  · intro p
    by_cases hpt : p = t
    · rw [hpt, play_to hne, List.nodup_cons]
      refine ⟨?_, hT.nodup t⟩
      intro hd
      exact hne (hhere.symm.trans ((hT.mem t d).mp hd).2)
    by_cases hpf : p = f
    · rw [hpf, play_from hne htop]
      exact hnodup.2
    · rw [play_of_ne hpf hpt]
      exact hT.nodup p

/-- A legal game is one by the rule for places. -/
theorem Places.along {l : List (π × π × δ)} (hT : Places ds T pos) (hl : Along play Legal T l) :
    Along put (Free ds) pos l ∧ Places ds (l.foldl play T) (l.foldl put pos) := by
  induction l generalizing T pos with
  | nil => exact ⟨trivial, hT⟩
  | cons mv l ih =>
    obtain ⟨hfree, hT'⟩ := hl.1.free hT
    obtain ⟨hfree', hT''⟩ := ih hT' hl.2
    exact ⟨⟨hfree, hfree'⟩, hT''⟩

/-- **No game is shorter than the recursive solution**, and no other is as short. -/
theorem shortest (hds : ds.Pairwise (· > ·)) {f v t : π} (hfv : f ≠ v) (hft : f ≠ t) (hvt : v ≠ t)
    {l : List (π × π × δ)} (hl : Among f v t l)
    (hlegal : Along play Legal (fun p ↦ if p = f then ds.reverse else []) l)
    (hall : ∀ d ∈ ds, d ∈ l.foldl play (fun p ↦ if p = f then ds.reverse else []) t) :
    2 ^ ds.length ≤ l.length + 1 ∧ (l.length + 1 = 2 ^ ds.length → l = solve ds f v t) := by
  have hT : Places ds (fun p ↦ if p = f then ds.reverse else []) fun _ ↦ f := by
    refine ⟨?_, ?_⟩
    · intro p x
      by_cases hp : p = f
      · simp [hp]
      · simp [hp, Ne.symm hp]
    · intro p
      by_cases hp : p = f
      · rw [if_pos hp, List.nodup_reverse]
        exact hds.imp ne_of_gt
      · rw [if_neg hp]
        exact List.nodup_nil
  obtain ⟨hfree, hT'⟩ := hT.along hlegal
  have h : Carries ds f v t (fun _ ↦ f) l :=
    ⟨hfv, hft, hvt, hl, hfree, fun _ _ ↦ rfl, fun d hd ↦ ((hT'.mem t d).mp (hall d hd)).2⟩
  exact ⟨h.two_pow_le hds, h.eq_solve hds⟩

end Towers
