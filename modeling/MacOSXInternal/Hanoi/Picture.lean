import MacOSXInternal.Hanoi.Game
import MacOSXInternal.Hanoi.Screen

/-!
# The picture of a configuration

What the screen should show when the disks lie on the towers, `canonical`, and what it does show
when one of them has been lifted, carried across, or lowered.

* `strokes_upTurn` and its like are a turn of a drawing loop as strokes; `up_frames`, `lr_frames`
  and `down_frames` are the animations, with the picture after each turn.
* `canonical_above` and `canonical_sky` say what the disk passes on its way.
-/

set_option autoImplicit false

namespace MacOSXInternal
namespace Hanoi

open Forth Raster

variable (e : Machine)

/-! ## The three animations -/

section
variable {m : Memory} (n : ℤ)

theorem strokes_upTurn : strokes (e.upTurn m n) =
    [(hColorBg, ⟨m.hDx, m.hDy - n + m.hDh - 1, m.hDw, 1⟩),
      (hColorDisk, ⟨m.hDx, m.hDy - n - 1, m.hDw, 1⟩)] ++
    if m.hDy - n > e.hDiskYmin then
      [(hColorTower, ⟨m.hTx, m.hDy - n + m.hDh - 1, e.hTw * 2, 1⟩)] else [] := by
  rw [Machine.upTurn]
  split_ifs <;> rfl

theorem strokes_downTurn : strokes (e.downTurn m n) =
    [(hColorBg, ⟨m.hDx, e.hDiskYmin + n, m.hDw, 1⟩),
      (hColorDisk, ⟨m.hDx, e.hDiskYmin + n + 1 + m.hDh, m.hDw, 1⟩)] ++
    if n > m.hDh then [(hColorTower, ⟨m.hTx, e.hDiskYmin + n, e.hTw * 2, 1⟩)] else [] := by
  rw [Machine.downTurn]
  split_ifs <;> rfl

theorem strokes_lrTurn : strokes (e.lrTurn m n) =
    [(hColorBg, ⟨m.hDx + n, e.hDiskYmin, m.hDw, m.hDh⟩),
      (hColorDisk, ⟨m.hDx + n + m.hDelta, e.hDiskYmin, m.hDw, m.hDh⟩)] := rfl

end

/-- The pole, and nothing else, is where the disk goes up or down. -/
def Shaft (m : Memory) (B : Picture ℤ) : Prop :=
  ∀ x y, e.hDiskYmin + m.hDh ≤ y → y < m.hDy + m.hDh →
    (m.hDx ≤ x ∧ x < m.hDx + m.hDw ∨ m.hTx ≤ x ∧ x < m.hTx + e.hTw * 2) →
    B (x, y) = if m.hTx ≤ x ∧ x < m.hTx + e.hTw * 2 then hColorTower else hColorBg

/-- There is nothing where the disk goes across. -/
def Sky (m : Memory) (B : Picture ℤ) : Prop :=
  ∀ x y, e.hDiskYmin ≤ y → y < e.hDiskYmin + m.hDh → B (x, y) = hColorBg

section
variable {m : Memory} {B P : Picture ℤ} {S : Set (ℤ × ℤ)} {K : ℕ}

/-- **The disk goes up**, row by row, and the picture behind it stays as it was. -/
theorem up_frames (hK : m.hDy - e.hDiskYmin = K) (hpos : 0 < m.hDh) (hshaft : Shaft e m B)
    (hP : S.EqOn P (fill hColorDisk ⟨m.hDx, m.hDy, m.hDw, m.hDh⟩ B)) :
    S.EqOn (paint (strokes ((List.range K).flatMap fun j : ℕ ↦ e.upTurn m j)) P)
      (fill hColorDisk ⟨m.hDx, e.hDiskYmin, m.hDw, m.hDh⟩ B) := by
  have hstep (j : ℕ) (hj : j < K) :
      S.EqOn (paint (strokes (e.upTurn m j)) (fill hColorDisk ⟨m.hDx, m.hDy - j, m.hDw, m.hDh⟩ B))
        (fill hColorDisk ⟨m.hDx, m.hDy - (j + 1 : ℕ), m.hDw, m.hDh⟩ B) := by
    rintro ⟨x, y⟩ -
    have hrepair : m.hDy - j > e.hDiskYmin := by omega
    have hrow := hshaft x y
    simp only [strokes_upTurn, if_pos hrepair, List.cons_append, List.nil_append, paint_cons,
      paint_nil, fill, mem_iff]
    split_ifs at hrow ⊢ <;> omega
  have htop : e.hDiskYmin = m.hDy - K := by omega
  rw [strokes_flatMap, htop]
  refine paint_flatMap_range (F := fun j ↦ fill hColorDisk ⟨m.hDx, m.hDy - j, m.hDw, m.hDh⟩ B)
    hstep ?_
  rwa [Nat.cast_zero, sub_zero]

/-- **The disk goes across**, column by column. -/
theorem lr_frames (hsky : Sky e m B)
    (hP : S.EqOn P (fill hColorDisk ⟨m.hDx, e.hDiskYmin, m.hDw, m.hDh⟩ B)) :
    S.EqOn (paint (strokes ((List.range K).flatMap fun j : ℕ ↦ e.lrTurn m (m.hDelta * j))) P)
      (fill hColorDisk ⟨m.hDx + m.hDelta * K, e.hDiskYmin, m.hDw, m.hDh⟩ B) := by
  have hstep (j : ℕ) (_ : j < K) :
      S.EqOn (paint (strokes (e.lrTurn m (m.hDelta * j)))
          (fill hColorDisk ⟨m.hDx + m.hDelta * j, e.hDiskYmin, m.hDw, m.hDh⟩ B))
        (fill hColorDisk ⟨m.hDx + m.hDelta * (j + 1 : ℕ), e.hDiskYmin, m.hDw, m.hDh⟩ B) := by
    rintro ⟨x, y⟩ -
    have hrow := hsky x y
    have hnext : m.hDx + m.hDelta * (j + 1 : ℕ) = m.hDx + m.hDelta * j + m.hDelta := by
      rw [Nat.cast_succ, mul_add, mul_one, add_assoc]
    simp only [strokes_lrTurn, hnext, paint_cons, paint_nil, fill, mem_iff]
    split_ifs <;> omega
  rw [strokes_flatMap]
  refine paint_flatMap_range
    (F := fun j ↦ fill hColorDisk ⟨m.hDx + m.hDelta * j, e.hDiskYmin, m.hDw, m.hDh⟩ B) hstep ?_
  rwa [Nat.cast_zero, mul_zero, add_zero]

/-- What the screen shows when a disk has been lowered by `j` rows.  The disk is drawn one row too
low, and the row it skips is erased on the way. -/
def downFrame (m : Memory) (B : Picture ℤ) (j : ℕ) : Picture ℤ := fun p ↦
  if m.hDx ≤ p.1 ∧ p.1 < m.hDx + m.hDw then
    if e.hDiskYmin + j ≤ p.2 ∧ p.2 ≤ e.hDiskYmin + m.hDh + j ∧ p.2 ≠ e.hDiskYmin + m.hDh then
      hColorDisk
    else if p.2 = e.hDiskYmin + m.hDh ∧ m.hDh < j then hColorBg
    else B p
  else B p

/-- **The disk goes down.** -/
theorem down_frames (hK : m.hDy - e.hDiskYmin = K) (hpos : 0 < m.hDh) (hsky : Sky e m B)
    (hshaft : Shaft e m B)
    (hP : S.EqOn P (fill hColorDisk ⟨m.hDx, e.hDiskYmin, m.hDw, m.hDh⟩ B)) :
    S.EqOn (paint (strokes ((List.range K).flatMap fun j : ℕ ↦ e.downTurn m j)) P)
      (downFrame e m B K) := by
  have hstep (j : ℕ) (hj : j < K) :
      S.EqOn (paint (strokes (e.downTurn m j)) (downFrame e m B j)) (downFrame e m B (j + 1)) := by
    rintro ⟨x, y⟩ -
    have hrow := hshaft x y
    have hrow' := hsky x y
    -- the columns of the disk, and then the others
    by_cases hcolumn : m.hDx ≤ x ∧ x < m.hDx + m.hDw
    · by_cases hrepair : j > m.hDh
      · simp only [strokes_downTurn, if_pos hrepair, List.cons_append, List.nil_append, paint_cons,
          paint_nil, fill, mem_iff, downFrame, Nat.cast_succ, hcolumn, and_self, true_and, if_true]
        split_ifs at hrow ⊢ <;> omega
      · simp only [strokes_downTurn, if_neg hrepair, List.cons_append, List.nil_append, paint_cons,
          paint_nil, fill, mem_iff, downFrame, Nat.cast_succ, hcolumn, and_self, true_and, if_true]
        split_ifs <;> omega
    · by_cases hrepair : j > m.hDh
      · simp only [strokes_downTurn, if_pos hrepair, List.cons_append, List.nil_append, paint_cons,
          paint_nil, fill, mem_iff, downFrame, Nat.cast_succ, hcolumn, if_false]
        split_ifs at hrow ⊢ <;> omega
      · simp only [strokes_downTurn, if_neg hrepair, List.cons_append, List.nil_append, paint_cons,
          paint_nil, fill, mem_iff, downFrame, Nat.cast_succ, hcolumn, if_false]
        split_ifs <;> omega
  rw [strokes_flatMap]
  refine paint_flatMap_range hstep ?_
  intro p hp
  rw [hP hp]
  simp only [fill, mem_iff, downFrame, Nat.cast_zero, add_zero]
  split_ifs <;> omega

end

/-! ## The canonical picture -/

namespace Machine

/-- The base of a tower. -/
def base (n : ℤ) : Rect := ⟨n * e.hXmaxby4 - e.hBw, e.screenHeight - e.hBh, e.hBw * 2, e.hBh⟩

/-- The pole of a tower. -/
def pole (tid : ℤ) : Rect := ⟨tid * e.hXmaxby4 - e.hTw, e.hTowerYmin, e.hTw * 2, e.hTh⟩

/-- A disk on a tower or above it, with its top row at `y`. -/
def disk (tid did y : ℤ) : Rect := ⟨e.diskX tid did, y, e.diskWidth did * 2, e.hDiskHeight⟩

/-- The disks on a tower, of which the first in the list is on top. -/
def pile (tid : ℤ) : List ℤ → List Rect
  | [] => []
  | did :: below => pile tid below ++ [e.disk tid did (e.diskY below.length)]

/-- The background, the bases, and the poles. -/
def towers : Picture ℤ :=
  fillAll hColorTower ([1, 2, 3].map e.pole)
    (fillAll hColorBase ([1, 2, 3].map e.base) fun _ ↦ hColorBg)

/-- The towers, and all the disks. -/
def canonical (c : ℤ → List ℤ) : Picture ℤ :=
  fillAll hColorDisk ([1, 2, 3].flatMap fun tid ↦ e.pile tid (c tid)) e.towers

/-- All the pixels of the screen. -/
def screen : Rect := ⟨0, 0, e.screenWidth, e.screenHeight⟩

end Machine

/-- A legal configuration of some disks: every one of them is on a tower, and none lies on a
narrower one.  The disks are numbered as in the words that draw them, where the first is the
widest. -/
structure Configuration (ids : List ℤ) (c : ℤ → List ℤ) : Prop where
  perm : ([1, 2, 3].flatMap c).Perm ids
  narrower : ∀ tid ∈ ([1, 2, 3] : List ℤ), (c tid).Pairwise (· > ·)

/-- The towers are not too high for the screen, and the disks not too narrow. -/
structure Small (c : ℤ → List ℤ) : Prop where
  did : ∀ tid ∈ ([1, 2, 3] : List ℤ), ∀ did ∈ c tid, 1 ≤ did ∧ did ≤ 11
  length : ∀ tid ∈ ([1, 2, 3] : List ℤ), (c tid).length ≤ 11

theorem mem_three {tid : ℤ} : tid ∈ ([1, 2, 3] : List ℤ) ↔ 1 ≤ tid ∧ tid ≤ 3 := by
  simp only [List.mem_cons, List.not_mem_nil, or_false]
  omega

theorem mem_disks {n : ℕ} {did : ℤ} : did ∈ disks n ↔ 1 ≤ did ∧ did ≤ n := by
  simp only [disks, List.mem_map, List.mem_range]
  constructor
  · rintro ⟨i, hi, rfl⟩
    omega
  · intro h
    exact ⟨(did - 1).toNat, by omega, by omega⟩

/-- There are not more than eleven disks. -/
theorem Configuration.small {ids : List ℤ} {c : ℤ → List ℤ} (h : Configuration ids c) {n : ℕ}
    (hn : n ≤ 11) (hsub : ids.Sublist (disks n)) : Small c := by
  have hids (did : ℤ) (hdid : did ∈ ids) : 1 ≤ did ∧ did ≤ 11 := by
    have hmem := mem_disks.mp (hsub.subset hdid)
    omega
  have hlen : ids.length ≤ 11 := by
    have hle := hsub.length_le
    rw [length_disks] at hle
    exact hle.trans hn
  constructor
  · intro tid htid did hdid
    exact hids did (h.perm.mem_iff.mp (List.mem_flatMap.mpr ⟨tid, htid, hdid⟩))
  · have hsum : (c 1).length + ((c 2).length + (c 3).length) = ids.length := by
      simpa using h.perm.length_eq
    simp only [List.forall_mem_cons]
    exact ⟨by omega, by omega, by omega, nofun⟩

/-- A disk less. -/
theorem Small.update {c : ℤ → List ℤ} (h : Small c) {tid did : ℤ} {below : List ℤ}
    (htid : tid ∈ ([1, 2, 3] : List ℤ)) (htop : c tid = did :: below) :
    Small (Function.update c tid below) := by
  have hdid := h.did tid htid
  have hlength := h.length tid htid
  rw [htop] at hdid hlength
  constructor
  · intro tid' htid' did' hdid'
    by_cases heq : tid' = tid
    · rw [heq, Function.update_self] at hdid'
      exact hdid did' (List.mem_cons_of_mem _ hdid')
    · rw [Function.update_of_ne heq] at hdid'
      exact h.did tid' htid' did' hdid'
  · intro tid' htid'
    by_cases heq : tid' = tid
    · rw [heq, Function.update_self]
      exact (Nat.le_succ _).trans hlength
    · rw [Function.update_of_ne heq]
      exact h.length tid' htid'

section
variable {e} {u v tid did x y : ℤ} {c : ℤ → List ℤ} {l below : List ℤ} {r : Rect}

theorem exists_of_mem_pile (h : r ∈ e.pile tid l) :
    ∃ did ∈ l, ∃ tn < l.length, r = e.disk tid did (e.diskY tn) := by
  induction l with
  | nil => cases h
  | cons did below ih =>
    rw [Machine.pile, List.mem_append, List.mem_singleton] at h
    rcases h with h | rfl
    · obtain ⟨did', hdid', tn, htn, rfl⟩ := ih h
      exact ⟨did', List.mem_cons_of_mem _ hdid', tn, Nat.lt_succ_of_lt htn, rfl⟩
    · exact ⟨did, List.mem_cons_self, below.length, Nat.lt_succ_self _, rfl⟩

variable (hp : e.Proportions u v) (hc : Small c)
include hp hc

/-- Where the disks are. -/
theorem disk_bounds (htid : tid ∈ ([1, 2, 3] : List ℤ)) (hr : r ∈ e.pile tid (c tid))
    (h : (x, y) ∈ r) :
    tid * e.hXmaxby4 - 11 * v ≤ x ∧ x < tid * e.hXmaxby4 + 11 * v ∧
      e.screenHeight - 27 * u ≤ y ∧ e.diskY (c tid).length + e.hDiskHeight ≤ y := by
  obtain ⟨did, hdid, tn, htn, rfl⟩ := exists_of_mem_pile hr
  have hwidth := hp.diskWidth_mem (hc.did tid htid did hdid)
  have hlen := hc.length tid htid
  have hplace := hp.diskY_mem (Int.natCast_nonneg tn) (by omega)
  have hbelow := hp.diskY_add_le (by omega : (tn : ℤ) < (c tid).length)
  simp only [mem_iff, Machine.disk, Machine.diskX] at h
  omega

/-- There is just the pole above the top disk of a tower. -/
theorem canonical_above (htid : 1 ≤ tid ∧ tid ≤ 3)
    (hx : tid * e.hXmaxby4 - 12 * v ≤ x ∧ x < tid * e.hXmaxby4 + 12 * v)
    (hy : e.hTowerYmin ≤ y) (hy' : y < e.diskY (c tid).length + e.hDiskHeight) :
    e.canonical c (x, y) =
      if tid * e.hXmaxby4 - e.hTw ≤ x ∧ x < tid * e.hXmaxby4 + e.hTw then hColorTower
      else hColorBg := by
  have hv := hp.le
  have hTw := hp.hTw_le
  have hlen := hc.length tid (mem_three.mpr htid)
  have hplace := hp.diskY_mem (Int.natCast_nonneg (c tid).length) (by omega)
  have hdisk : ¬ ∃ r ∈ [1, 2, 3].flatMap fun tid ↦ e.pile tid (c tid), (x, y) ∈ r := by
    rintro ⟨r, hr, hmem⟩
    obtain ⟨tid', htid', hr⟩ := List.mem_flatMap.mp hr
    have hbounds := disk_bounds hp hc htid' hr hmem
    rcases lt_trichotomy tid' tid with hlt | rfl | hlt
    · have := hp.axis_add_le hlt
      omega
    · omega
    · have := hp.axis_add_le hlt
      omega
  have hpole : (∃ r ∈ [1, 2, 3].map e.pole, (x, y) ∈ r) ↔
      tid * e.hXmaxby4 - e.hTw ≤ x ∧ x < tid * e.hXmaxby4 + e.hTw := by
    constructor
    · rintro ⟨r, hr, hmem⟩
      obtain ⟨tid', -, rfl⟩ := List.mem_map.mp hr
      simp only [mem_iff, Machine.pole] at hmem
      rcases lt_trichotomy tid' tid with hlt | rfl | hlt
      · have := hp.axis_add_le hlt
        omega
      · omega
      · have := hp.axis_add_le hlt
        omega
    · intro h
      refine ⟨e.pole tid, List.mem_map_of_mem (mem_three.mpr htid), ?_⟩
      have hTh := hp.hTh
      have hmin := hp.hTowerYmin
      have hBh := hp.hBh
      simp only [mem_iff, Machine.pole]
      omega
  have hbase : ¬ ∃ r ∈ [1, 2, 3].map e.base, (x, y) ∈ r := by
    rintro ⟨r, hr, hmem⟩
    obtain ⟨tid', -, rfl⟩ := List.mem_map.mp hr
    simp only [mem_iff, Machine.base] at hmem
    omega
  rw [Machine.canonical, fillAll_apply, if_neg hdisk, Machine.towers, fillAll_apply, fillAll_apply,
    if_neg hbase]
  exact if_congr hpole rfl rfl

/-- There is nothing above the towers. -/
theorem canonical_sky (hy : y < e.hTowerYmin) : e.canonical c (x, y) = hColorBg := by
  have hmin := hp.hTowerYmin
  have hpos := hp.pos
  have hBh := hp.hBh
  have hdisk : ¬ ∃ r ∈ [1, 2, 3].flatMap fun tid ↦ e.pile tid (c tid), (x, y) ∈ r := by
    rintro ⟨r, hr, hmem⟩
    obtain ⟨tid', htid', hr⟩ := List.mem_flatMap.mp hr
    have hbounds := disk_bounds hp hc htid' hr hmem
    omega
  have hpole : ¬ ∃ r ∈ [1, 2, 3].map e.pole, (x, y) ∈ r := by
    rintro ⟨r, hr, hmem⟩
    obtain ⟨tid', -, rfl⟩ := List.mem_map.mp hr
    simp only [mem_iff, Machine.pole] at hmem
    omega
  have hbase : ¬ ∃ r ∈ [1, 2, 3].map e.base, (x, y) ∈ r := by
    rintro ⟨r, hr, hmem⟩
    obtain ⟨tid', -, rfl⟩ := List.mem_map.mp hr
    simp only [mem_iff, Machine.base] at hmem
    omega
  rw [Machine.canonical, fillAll_apply, if_neg hdisk, Machine.towers, fillAll_apply, if_neg hpole,
    fillAll_apply, if_neg hbase]

end

/-- The top disk is drawn over the others. -/
theorem canonical_cons {c : ℤ → List ℤ} {tid did : ℤ} {below : List ℤ}
    (htid : tid ∈ ([1, 2, 3] : List ℤ)) (htop : c tid = did :: below) :
    e.canonical c = fill hColorDisk (e.disk tid did (e.diskY below.length))
      (e.canonical (Function.update c tid below)) := by
  funext p
  have hdisk : (∃ r ∈ [1, 2, 3].flatMap fun tid ↦ e.pile tid (c tid), p ∈ r) ↔
      p ∈ e.disk tid did (e.diskY below.length) ∨
        ∃ r ∈ [1, 2, 3].flatMap fun tid' ↦ e.pile tid' (Function.update c tid below tid'),
          p ∈ r := by
    simp only [List.mem_flatMap]
    constructor
    · rintro ⟨r, ⟨tid', htid', hr⟩, hmem⟩
      by_cases heq : tid' = tid
      · rw [heq, htop, Machine.pile, List.mem_append, List.mem_singleton] at hr
        rcases hr with hr | rfl
        · exact .inr ⟨r, ⟨tid, htid, by rwa [Function.update_self]⟩, hmem⟩
        · exact .inl hmem
      · exact .inr ⟨r, ⟨tid', htid', by rwa [Function.update_of_ne heq]⟩, hmem⟩
    · rintro (hmem | ⟨r, ⟨tid', htid', hr⟩, hmem⟩)
      · refine ⟨_, ⟨tid, htid, ?_⟩, hmem⟩
        rw [htop, Machine.pile]
        exact List.mem_append_right _ (List.mem_singleton_self _)
      · refine ⟨r, ⟨tid', htid', ?_⟩, hmem⟩
        by_cases heq : tid' = tid
        · rw [heq, Function.update_self] at hr
          rw [heq, htop, Machine.pile]
          exact List.mem_append_left _ hr
        · rwa [Function.update_of_ne heq] at hr
  rw [Machine.canonical, fillAll_apply, if_congr hdisk rfl rfl, ite_or, fill, Machine.canonical,
    fillAll_apply]

/-! ## Lifting, carrying and lowering -/

/-- The pixels of the screen. -/
def Machine.pixels : Set (ℤ × ℤ) := {p | p ∈ e.screen}

theorem Machine.mem_pixels {p : ℤ × ℤ} : p ∈ e.pixels ↔ p ∈ e.screen := Iff.rfl

/-- The variables of a disk on its way. -/
structure Carried (m : Memory) (tid did : ℤ) : Prop where
  hDx : m.hDx = e.diskX tid did
  hDw : m.hDw = e.diskWidth did * 2
  hDh : m.hDh = e.hDiskHeight

theorem carried_aim (m : Memory) (tid did tn : ℤ) : Carried e (e.aim m tid did tn) tid did :=
  ⟨rfl, rfl, rfl⟩

theorem Carried.draw {m : Memory} {tid did : ℤ} (h : Carried e m tid did) (events : List Event) :
    Carried e (m.draw events) tid did := ⟨h.hDx, h.hDw, h.hDh⟩

theorem aim_hTx (m : Memory) (tid did tn : ℤ) :
    (e.aim m tid did tn).hTx = tid * e.hXmaxby4 - e.hTw := by
  have hhalf : (e.diskWidth did * 2).fdiv 2 = e.diskWidth did :=
    Int.mul_fdiv_cancel _ (by decide)
  simp only [Machine.aim, Machine.diskX, hhalf]
  omega

section
variable {e} {c : ℤ → List ℤ} {m : Memory} {P : Picture ℤ} {tid did : ℤ} (he : e.Screen)
  (hc : Small c)
include he hc

theorem sky_canonical (hdh : m.hDh = e.hDiskHeight) : Sky e m (e.canonical c) := by
  obtain ⟨u, v, hp⟩ := he.proportions
  have hmin := hp.hTowerYmin
  have hmin' := hp.hDiskYmin
  have hDiskHeight := hp.hDiskHeight
  intro x y hy hy'
  exact canonical_sky hp hc (by omega)

theorem shaft_canonical (htid : 1 ≤ tid ∧ tid ≤ 3) (hdid : 1 ≤ did ∧ did ≤ 11) :
    Shaft e (e.aim m tid did (c tid).length) (e.canonical c) := by
  obtain ⟨u, v, hp⟩ := he.proportions
  have hmin := hp.hTowerYmin
  have hmin' := hp.hDiskYmin
  have hDiskHeight := hp.hDiskHeight
  have hle := hp.le
  have hpos := hp.pos
  have hTw := hp.hTw_le
  have hwidth := hp.diskWidth_mem hdid
  intro x y hy hy' hx
  rw [aim_hTx] at hx ⊢
  simp only [Machine.aim, Machine.diskX] at hy hy' hx
  rw [canonical_above hp hc htid (by omega) (by omega) hy']
  exact if_congr (by omega) rfl rfl

variable {fuel : ℕ} (hfuel : cellRange ≤ fuel) (htid : 1 ≤ tid ∧ tid ≤ 3)
  (hdid : 1 ≤ did ∧ did ≤ 11) (st ix : List ℤ)
include hfuel htid hdid

/-- **A disk is lifted.** -/
theorem hanoiDiskMoveUp_picture {k : Fin 3} (hk : tid = (k : ℕ) + 1)
    (hcount : m.count k = (c tid).length + 1)
    (hshown : e.pixels.EqOn (m.picture P)
      (fill hColorDisk (e.disk tid did (e.diskY (c tid).length)) (e.canonical c))) :
    ∃ m', hanoiDiskMoveUp e fuel ⟨did :: tid :: st, ix, m⟩ = .ok ⟨st, ix, m'⟩ ∧
      Carried e m' tid did ∧
      e.pixels.EqOn (m'.picture P)
        (fill hColorDisk (e.disk tid did e.hDiskYmin) (e.canonical c)) := by
  have hlen := hc.length tid (mem_three.mpr htid)
  obtain ⟨K, hK, hpos, hle⟩ := he.rows (Int.natCast_nonneg (c tid).length) (by omega)
  obtain ⟨u, v, hp⟩ := he.proportions
  have hDiskHeight := hp.hDiskHeight
  have hu := hp.pos
  have hslot : m.count k - 1 = (c tid).length := by omega
  have hturns : K ≤ fuel := by omega
  have hrun := Watched.erase_eq
    (Draw.hanoiDiskMoveUp_run e did st ix m hpos hle.le hturns hk rfl (hslot ▸ hK))
  rw [hslot, Draw.erase_hanoiDiskMoveUp] at hrun
  refine ⟨_, hrun, (carried_aim ..).draw .., ?_⟩
  rw [draw_picture]
  exact up_frames e hK (by simp only [Machine.aim]; omega) (shaft_canonical he hc htid hdid) hshown

/-- **A disk is lowered**, onto the row below its place. -/
theorem hanoiDiskMoveDown_picture {k : Fin 3} (hk : tid = (k : ℕ) + 1)
    (hcount : m.count k = (c tid).length)
    (hshown : e.pixels.EqOn (m.picture P)
      (fill hColorDisk (e.disk tid did e.hDiskYmin) (e.canonical c))) :
    ∃ (m' : Memory) (K : ℕ), hanoiDiskMoveDown e fuel ⟨did :: tid :: st, ix, m⟩ = .ok ⟨st, ix, m'⟩ ∧
      e.diskY (c tid).length - e.hDiskYmin = K ∧
      e.pixels.EqOn (m'.picture P)
        (downFrame e (e.aim m tid did (c tid).length) (e.canonical c) K) := by
  have hlen := hc.length tid (mem_three.mpr htid)
  obtain ⟨K, hK, hpos, hle⟩ := he.rows (Int.natCast_nonneg (c tid).length) (by omega)
  obtain ⟨u, v, hp⟩ := he.proportions
  have hDiskHeight := hp.hDiskHeight
  have hu := hp.pos
  have hturns : K ≤ fuel := by omega
  have hrun := Watched.erase_eq
    (Draw.hanoiDiskMoveDown_run e did st ix m hpos hle.le hturns hk rfl (hcount ▸ hK))
  rw [hcount, Draw.erase_hanoiDiskMoveDown] at hrun
  refine ⟨_, K, hrun, hK, ?_⟩
  rw [draw_picture]
  exact down_frames e hK (by simp only [Machine.aim]; omega) (sky_canonical he hc rfl)
    (shaft_canonical he hc htid hdid) hshown

omit htid hdid in
/-- **A disk is carried across.** -/
theorem hanoiDiskMoveLr_picture {tto tfrom : ℤ} (hto : 1 ≤ tto ∧ tto ≤ 3)
    (hfrom : 1 ≤ tfrom ∧ tfrom ≤ 3) (hne : tto ≠ tfrom) (hcarried : Carried e m tfrom did)
    (hshown : e.pixels.EqOn (m.picture P)
      (fill hColorDisk (e.disk tfrom did e.hDiskYmin) (e.canonical c))) :
    ∃ m', hanoiDiskMoveLr e fuel ⟨tfrom :: tto :: st, ix, m⟩ = .ok ⟨st, ix, m'⟩ ∧
      e.pixels.EqOn (m'.picture P)
        (fill hColorDisk (e.disk tto did e.hDiskYmin) (e.canonical c)) := by
  obtain ⟨K, hK, hpos, hle⟩ := he.columns hfrom hto hne
  have hturns : K ≤ fuel := by omega
  have hrun := Watched.erase_eq (Draw.hanoiDiskMoveLr_run e st ix m (Nat.zero_lt_of_lt hpos) hle.le
    hturns rfl hK rfl)
  rw [Draw.erase_hanoiDiskMoveLr] at hrun
  refine ⟨_, hrun, ?_⟩
  have hx : e.diskX tto did = e.diskX tfrom did + (if tto < tfrom then -1 else 1) * K := by
    rw [← hK, Machine.diskX, Machine.diskX, sub_mul]
    omega
  rw [draw_picture, Machine.disk, hx, ← hcarried.hDx, ← hcarried.hDw, ← hcarried.hDh]
  rw [Machine.disk, ← hcarried.hDx, ← hcarried.hDw, ← hcarried.hDh] at hshown
  exact lr_frames e (m := { m with hDelta := if tto < tfrom then -1 else 1 })
    (sky_canonical he hc hcarried.hDh) hshown

end

/-! ## The results -/

/-- **Lifting and carrying a disk keeps the picture exact.**  On a screen that shows a legal
configuration of at most eleven disks, the top disk of a tower is lifted above it, and from there it
is carried above any other tower; everything else is shown as it is without the disk. -/
theorem lift_and_carry (e : Machine) (he : e.Screen) {n : ℕ} (hn : n ≤ 11) {c : ℤ → List ℤ}
    (hc : Configuration (disks n) c) (m : Memory) (P : Picture ℤ)
    (hcount : ∀ k : Fin 3, m.count k = (c ((k : ℕ) + 1)).length)
    (hshown : e.pixels.EqOn (m.picture P) (e.canonical c)) {tid did : ℤ} {below : List ℤ}
    (htid : 1 ≤ tid ∧ tid ≤ 3) (htop : c tid = did :: below) (st ix : List ℤ) :
    ∃ fuel₀, ∀ fuel ≥ fuel₀, ∃ m',
      hanoiDiskMoveUp e fuel ⟨did :: tid :: st, ix, m⟩ = .ok ⟨st, ix, m'⟩ ∧
      e.pixels.EqOn (m'.picture P) (fill hColorDisk (e.disk tid did e.hDiskYmin)
        (e.canonical (Function.update c tid below))) ∧
      ∀ tto, 1 ≤ tto ∧ tto ≤ 3 → tto ≠ tid → ∀ st ix, ∃ m'',
        hanoiDiskMoveLr e fuel ⟨tid :: tto :: st, ix, m'⟩ = .ok ⟨st, ix, m''⟩ ∧
        e.pixels.EqOn (m''.picture P) (fill hColorDisk (e.disk tto did e.hDiskYmin)
          (e.canonical (Function.update c tid below))) := by
  have hsmall := hc.small hn (List.Sublist.refl _)
  have hdid := hsmall.did tid (mem_three.mpr htid) did (by rw [htop]; exact List.mem_cons_self)
  have hrest := hsmall.update (mem_three.mpr htid) htop
  obtain ⟨k, hk⟩ := exists_tower htid
  have hcount' : m.count k = (Function.update c tid below tid).length + 1 := by
    rw [hcount, ← hk, htop, Function.update_self, List.length_cons, Nat.cast_succ]
  rw [canonical_cons e (mem_three.mpr htid) htop] at hshown
  refine ⟨2 ^ 32, ?_⟩
  intro fuel hge
  have hfuel : cellRange ≤ fuel := by
    rw [cellRange]
    omega
  have hshown' : e.pixels.EqOn (m.picture P)
      (fill hColorDisk (e.disk tid did (e.diskY (Function.update c tid below tid).length))
        (e.canonical (Function.update c tid below))) := by
    rwa [Function.update_self]
  obtain ⟨m', hup, hcarried, hup'⟩ :=
    hanoiDiskMoveUp_picture he hrest hfuel htid hdid st ix hk hcount' hshown'
  refine ⟨m', hup, hup', ?_⟩
  intro tto hto hne st ix
  exact hanoiDiskMoveLr_picture he hrest hfuel st ix hto htid hne hcarried hup'

/-- Two disks on the first tower. -/
def twoDisks (tid : ℤ) : List ℤ := if tid = 1 then [2, 1] else []

/-- On a screen of 1024 by 768 that shows two disks on the first tower, the top one is lifted and
carried above the third. -/
theorem lift_and_carry_two :
    ∃ fuel₀, ∀ fuel ≥ fuel₀, ∃ m', hanoiDiskMoveUp ⟨1024, 768, 0⟩ fuel
      ⟨[2, 1], [], ⟨1, 0, 0, 0, 0, 0, 2, 0, 0, fun k ↦ if k = 0 then 2 else 0, []⟩⟩ =
        .ok ⟨[], [], m'⟩ ∧
      (Machine.pixels ⟨1024, 768, 0⟩).EqOn (m'.picture (Machine.canonical ⟨1024, 768, 0⟩ twoDisks))
        (fill hColorDisk (Machine.disk ⟨1024, 768, 0⟩ 1 2 (Machine.hDiskYmin ⟨1024, 768, 0⟩))
          (Machine.canonical ⟨1024, 768, 0⟩ (Function.update twoDisks 1 [1]))) ∧
      ∃ m'', hanoiDiskMoveLr ⟨1024, 768, 0⟩ fuel ⟨[1, 3], [], m'⟩ = .ok ⟨[], [], m''⟩ ∧
        (Machine.pixels ⟨1024, 768, 0⟩).EqOn
          (m''.picture (Machine.canonical ⟨1024, 768, 0⟩ twoDisks))
          (fill hColorDisk (Machine.disk ⟨1024, 768, 0⟩ 3 2 (Machine.hDiskYmin ⟨1024, 768, 0⟩))
            (Machine.canonical ⟨1024, 768, 0⟩ (Function.update twoDisks 1 [1]))) := by
  obtain ⟨fuel₀, h⟩ := lift_and_carry ⟨1024, 768, 0⟩ ⟨by decide, by decide, by decide⟩ (n := 2)
    (by decide) (c := twoDisks) ⟨by decide, by decide⟩
    ⟨1, 0, 0, 0, 0, 0, 2, 0, 0, fun k ↦ if k = 0 then 2 else 0, []⟩
    (Machine.canonical ⟨1024, 768, 0⟩ twoDisks) (by decide)
    (fun _ _ ↦ congrFun (picture_of_trace rfl _) _) (by decide : (1 : ℤ) ≤ 1 ∧ (1 : ℤ) ≤ 3) rfl
    [] []
  refine ⟨fuel₀, ?_⟩
  intro fuel hge
  obtain ⟨m', hrun, hpicture, hcarry⟩ := h fuel hge
  exact ⟨m', hrun, hpicture, hcarry 3 (by decide) (by decide) [] []⟩

/-- After `hanoi-disk-move-down` the screen shows the configuration with the disk on its tower. -/
def Lowers (e : Machine) (c : ℤ → List ℤ) (m : Memory) (P : Picture ℤ) (tid did : ℤ)
    (st ix : List ℤ) : Prop :=
  ∃ fuel₀, ∀ fuel ≥ fuel₀, ∃ m',
    hanoiDiskMoveDown e fuel ⟨did :: tid :: st, ix, m⟩ = .ok ⟨st, ix, m'⟩ ∧
    e.pixels.EqOn (m'.picture P) (e.canonical (Function.update c tid (did :: c tid)))

/-- There is a hole at the top of the pole. -/
theorem not_lowers_of_small {e : Machine} (he : e.Screen) {c : ℤ → List ℤ} (hc : Small c)
    {m : Memory} {P : Picture ℤ} {tid did : ℤ} (hdid : 1 ≤ did ∧ did ≤ 11)
    (hcount : ∀ k : Fin 3, m.count k = (c ((k : ℕ) + 1)).length) (htid : 1 ≤ tid ∧ tid ≤ 3)
    (hshown : e.pixels.EqOn (m.picture P)
      (fill hColorDisk (e.disk tid did e.hDiskYmin) (e.canonical c))) (st ix : List ℤ) :
    ¬ Lowers e c m P tid did st ix := by
  rintro ⟨fuel₀, h⟩
  obtain ⟨k, hk⟩ := exists_tower htid
  obtain ⟨m', hrun, hshows⟩ := h (fuel₀ + 2 ^ 32) (Nat.le_add_right ..)
  have hfuel : cellRange ≤ (fuel₀ + 2 ^ 32 : ℕ) := by
    rw [cellRange]
    omega
  obtain ⟨m'', K, hrun', hK, hframe⟩ := hanoiDiskMoveDown_picture he hc hfuel htid hdid st ix hk
    (by rw [hcount, hk]) hshown
  obtain rfl : m' = m'' := by simpa using hrun.symm.trans hrun'
  -- the topmost pixel of the pole
  obtain ⟨u, v, hp⟩ := he.proportions
  have hpos := hp.pos
  have hle := hp.le
  have haxis := hp.axis_mem htid
  have hlen := hc.length tid (mem_three.mpr htid)
  have hplace := hp.diskY_mem (Int.natCast_nonneg (c tid).length) (by omega)
  have hwidth := hp.diskWidth_mem hdid
  have hTw := hp.hTw_ge
  have hmin := hp.hTowerYmin
  have hmin' := hp.hDiskYmin
  have hDiskHeight := hp.hDiskHeight
  have hheight := hp.height
  have hon : (tid * e.hXmaxby4, e.hTowerYmin) ∈ e.pixels := by
    rw [Machine.mem_pixels]
    simp only [mem_iff, Machine.screen]
    omega
  have hhole : m'.picture P (tid * e.hXmaxby4, e.hTowerYmin) = hColorBg := by
    rw [hframe hon]
    simp only [downFrame, Machine.aim, Machine.diskX]
    split_ifs <;> omega
  have hpole : e.canonical (Function.update c tid (did :: c tid))
      (tid * e.hXmaxby4, e.hTowerYmin) = hColorTower := by
    rw [canonical_cons e (mem_three.mpr htid) (Function.update_self ..), Function.update_idem,
      Function.update_eq_self, fill_of_notMem, canonical_above hp hc htid, if_pos]
    all_goals (try simp only [mem_iff, Machine.disk, Machine.diskX]); omega
  rw [hshows hon, hpole] at hhole
  exact absurd hhole (by decide)

/-- **Lowering a disk never keeps the picture exact.** -/
theorem not_lowers (e : Machine) (he : e.Screen) {n : ℕ} (hn : n ≤ 11) {c : ℤ → List ℤ} {did : ℤ}
    (hdid : did ∈ disks n) (hc : Configuration ((disks n).erase did) c) (m : Memory) (P : Picture ℤ)
    (hcount : ∀ k : Fin 3, m.count k = (c ((k : ℕ) + 1)).length) {tid : ℤ}
    (htid : 1 ≤ tid ∧ tid ≤ 3) (_honto : ∀ x ∈ c tid, x < did)
    (hshown : e.pixels.EqOn (m.picture P)
      (fill hColorDisk (e.disk tid did e.hDiskYmin) (e.canonical c))) (st ix : List ℤ) :
    ¬ Lowers e c m P tid did st ix := by
  have hdid' := mem_disks.mp hdid
  have hle : did ≤ 11 := by omega
  exact not_lowers_of_small he (hc.small hn (List.erase_sublist ..)) ⟨hdid'.1, hle⟩ hcount htid
    hshown st ix

/-- One disk and three empty towers, on a screen of 1024 by 768. -/
theorem not_lowers_one :
    ¬ Lowers ⟨1024, 768, 0⟩ (fun _ ↦ []) ⟨1, 0, 0, 0, 0, 0, 1, 0, 0, fun _ ↦ 0, []⟩
      (fill hColorDisk (Machine.disk ⟨1024, 768, 0⟩ 3 1 (Machine.hDiskYmin ⟨1024, 768, 0⟩))
        (Machine.canonical ⟨1024, 768, 0⟩ fun _ ↦ [])) 3 1 [] [] :=
  not_lowers ⟨1024, 768, 0⟩ ⟨by decide, by decide, by decide⟩ (n := 1) (by decide) (by decide)
    ⟨by decide, by decide⟩ _ _ (by decide) (by decide) (by decide)
    (fun _ _ ↦ congrFun (picture_of_trace rfl _) _) [] []

/-- The second disk is lowered onto the first. -/
theorem not_lowers_two :
    let e : Machine := ⟨1024, 768, 0⟩
    let c : ℤ → List ℤ := fun tid ↦ if tid = 3 then [1] else []
    let m : Memory := ⟨1, 0, 0, 0, 0, 0, 2, 0, 0, fun k ↦ if k = 2 then 1 else 0, []⟩
    let P := fill hColorDisk (e.disk 3 2 e.hDiskYmin) (e.canonical c)
    e.Screen ∧ Configuration ((disks 2).erase 2) c ∧
      (∀ k : Fin 3, m.count k = (c ((k : ℕ) + 1)).length) ∧ (∀ x ∈ c 3, x < 2) ∧
      e.pixels.EqOn (m.picture P) P ∧ ¬ Lowers e c m P 3 2 [] [] := by
  intro e c m P
  have he : e.Screen := ⟨by decide, by decide, by decide⟩
  have hc : Configuration ((disks 2).erase 2) c := ⟨by decide, by decide⟩
  have hcount : ∀ k : Fin 3, m.count k = (c ((k : ℕ) + 1)).length := by decide
  refine ⟨he, hc, hcount, by decide, fun _ _ ↦ congrFun (picture_of_trace rfl _) _, ?_⟩
  exact not_lowers_of_small he (hc.small (by decide) (List.erase_sublist ..)) (by decide) hcount
    (by decide) (fun _ _ ↦ congrFun (picture_of_trace rfl _) _) [] []

end Hanoi
end MacOSXInternal
