import Mathlib.Tactic.FinCases
import MacOSXInternal.Hanoi.Watch
import MacOSXInternal.Lib.Towers

/-!
# The animation shows a legal game

The solver never looks at the counters in `h-tower-disks`, and the words that move a disk never look
at the solver.  Here both are compared with the game: `Memory.towers` is where the disks are after
the moves made so far.

* `Good` is what the game asks of each marked call: that the move is legal and the counters are
  right, that no counter is decremented at zero, that a disk is lifted from and put down at its
  place.
* `Board` is the invariant between two moves, and `hanoiDiskMove_does` the step that keeps it.
* `hanoiSolve_does` works off a frame: if the moves of `H` are a legal game, they are made on the
  counters too.  `H_legal` is the fact about the game, which knows nothing of the program.
* `hanoi_legal` is the result.
-/

set_option autoImplicit false

namespace MacOSXInternal
namespace Hanoi

open Forth Runs Towers

/-! ## The game -/

/-- The disks, as the solver numbers them: the smallest, which is on top, is the first. -/
def disks (n : ℕ) : List ℤ := (List.range n).map fun i : ℕ ↦ (i : ℤ) + 1

/-- All disks are on the first tower. -/
def start (n : ℕ) (t : ℤ) : List ℤ := if t = 1 then disks n else []

/-- Where the disks are after the moves made so far. -/
def Memory.towers (n : ℕ) (m : Memory) : ℤ → List ℤ := m.moves.foldl play (start n)

theorem disks_succ (n : ℕ) : disks (n + 1) = disks n ++ [(n : ℤ) + 1] := by
  simp [disks, List.range_succ]

theorem length_disks (n : ℕ) : (disks n).length = n := by
  simp [disks]

/-- The disks below a disk. -/
theorem disks_split {n j : ℕ} (h : j < n) :
    ∃ above below, disks n = above ++ ((n : ℤ) - j) :: below ∧ below.length = j := by
  induction n generalizing j with
  | zero => omega
  | succ n ih =>
    rw [disks_succ]
    cases j with
    | zero => exact ⟨disks n, [], by simp, rfl⟩
    | succ j =>
      obtain ⟨above, below, hsplit, hlen⟩ := ih (by omega : j < n)
      refine ⟨above, below ++ [(n : ℤ) + 1], ?_, by simp [hlen]⟩
      rw [hsplit, List.append_assoc, List.cons_append]
      have hj : ((n + 1 : ℕ) : ℤ) - (j + 1 : ℕ) = n - j := by omega
      rw [hj]

theorem pairwise_disks (n : ℕ) : (disks n).reverse.Pairwise (· > ·) := by
  rw [List.pairwise_reverse, disks, List.pairwise_map]
  exact List.pairwise_lt_range.imp fun h ↦ by omega

/-- The moves of the solver are those of the recursive solution. -/
theorem H_eq (n : ℕ) (f t : ℤ) : H n f t = solve (disks n).reverse f (6 - f - t) t := by
  induction n generalizing f t with
  | zero => rfl
  | succ n ih =>
    have hrev : (disks (n + 1)).reverse = ((n : ℤ) + 1) :: (disks n).reverse := by
      rw [disks_succ, List.reverse_append, List.reverse_singleton, List.singleton_append]
    have hf : 6 - f - (6 - f - t) = t := by omega
    have ht : 6 - (6 - f - t) - t = f := by omega
    have ih₁ := ih f (6 - f - t)
    have ih₂ := ih (6 - f - t) t
    rw [hf] at ih₁
    rw [ht] at ih₂
    rw [hrev, solve, ← ih₁, ← ih₂]
    cases n with
    | zero => rfl
    | succ n => simp [H, add_assoc, one_add_one_eq_two]

/-- **The moves from the first tower to the third are a legal game**, which ends with all disks on
the third. -/
theorem H_legal (n : ℕ) :
    Along play Legal (start n) (H n 1 3) ∧
    ∀ t, (H n 1 3).foldl play (start n) t = if t = 3 then disks n else [] := by
  have hempty (t : ℤ) (ht : t ≠ 1) : start n t = [] := if_neg ht
  have hfull : start n 1 = (disks n).reverse.reverse ++ [] := by simp [start]
  rw [H_eq]
  obtain ⟨hlegal, hplay⟩ := solve_legal (pairwise_disks n) (f := (1 : ℤ)) (v := 2) (t := 3)
    (by decide) (by decide) (by decide) hfull (fun _ _ _ h ↦ nomatch h)
    (fun _ _ x hx ↦ by rw [hempty 2 (by decide)] at hx; cases hx)
    (fun _ _ x hx ↦ by rw [hempty 3 (by decide)] at hx; cases hx)
  refine ⟨hlegal, ?_⟩
  intro t
  rw [show (6 : ℤ) - 1 - 3 = 2 from rfl, hplay, hempty 3 (by decide)]
  by_cases h3 : t = 3
  · simp [h3]
  by_cases h1 : t = 1
  · simp [h1]
  · simp [h3, h1, hempty]

/-! ## What the game asks for -/

/-- The disk is on the tower, with `slot` disks below it. -/
def AtSlot (tower : List ℤ) (disk slot : ℤ) : Prop :=
  ∃ above below, tower = above ++ disk :: below ∧ slot = below.length

/-- What the game asks of a call.  The words that draw number the disks from the largest on. -/
def Good (n : ℕ) : Call → State Memory → Prop
  | .diskMove, ⟨did :: fromtid :: totid :: _, _, m⟩ =>
    (∀ k : Fin 3, (m.hTowerDisks k).toNat = (m.towers n ((k : ℕ) + 1)).length) ∧
    Legal (m.towers n) (totid, fromtid, did)
  | .decrement, ⟨tid :: _, _, m⟩ => ∃ k : Fin 3, tid = (k : ℕ) + 1 ∧ m.hTowerDisks k ≠ 0
  -- the last of the moves is the one that is being made
  | .lift, ⟨slot :: did :: tid :: _, _, m⟩ =>
    AtSlot (m.moves.dropLast.foldl play (start n) tid) (n + 1 - did) slot
  | .putDown, ⟨slot :: did :: tid :: _, _, m⟩ => AtSlot (m.towers n tid) (n + 1 - did) slot
  | _, _ => False

/-- The invariant between two moves. -/
structure Board (n : ℕ) (m : Memory) : Prop where
  hN : m.hN = n
  count : ∀ k : Fin 3, m.count k = (m.towers n ((k : ℕ) + 1)).length
  total : ∑ t ∈ ({1, 2, 3} : Finset ℤ), (m.towers n t).length = n

section
variable {m m' : Memory} {n : ℕ}

theorem towers_of_moves {l : List (ℤ × ℤ × ℤ)} (h : m'.moves = m.moves ++ l) :
    m'.towers n = l.foldl play (m.towers n) := by
  rw [Memory.towers, h, List.foldl_append]
  rfl

theorem Drawn.count (h : Drawn m m') (k : Fin 3) : m'.count k = m.count k := by
  rw [Memory.count, Memory.count, h.hTowerDisks]

theorem Drawn.towers (h : Drawn m m') : m'.towers n = m.towers n := by
  rw [Memory.towers, Memory.towers, h.moves]

@[simp] theorem setCount_moves (k : Fin 3) (x : ℤ) : (m.setCount k x).moves = m.moves := rfl

@[simp] theorem log_count (ev : Event) (k : Fin 3) : (m.log ev).count k = m.count k := rfl

theorem count_setCount (m : Memory) (k : Fin 3) {x : ℤ} (h : 0 ≤ x ∧ x < 256) :
    (m.setCount k x).count k = x := by
  simp only [Memory.count, Memory.setCount, Function.update_self, BitVec.toNat_ofInt]
  omega

theorem count_setCount_of_ne (m : Memory) {k j : Fin 3} (h : j ≠ k) (x : ℤ) :
    (m.setCount k x).count j = m.count j := by
  simp only [Memory.count, Memory.setCount, Function.update_of_ne h]

end

section
variable {m m' : Memory} {n : ℕ} {totid fromtid did : ℤ}

theorem mem_towers {t : ℤ} (ht : 1 ≤ t ∧ t ≤ 3) : t ∈ ({1, 2, 3} : Finset ℤ) := by
  simp only [Finset.mem_insert, Finset.mem_singleton]
  omega

theorem Board.length_le (h : Board n m) {t : ℤ} (ht : 1 ≤ t ∧ t ≤ 3) :
    (m.towers n t).length ≤ n := by
  have hle : (m.towers n t).length ≤ ∑ t ∈ ({1, 2, 3} : Finset ℤ), (m.towers n t).length :=
    Finset.single_le_sum (f := fun t ↦ (m.towers n t).length) (fun _ _ ↦ Nat.zero_le _)
      (mem_towers ht)
  rwa [h.total] at hle

variable (h : Board n m) (hto : 1 ≤ totid ∧ totid ≤ 3) (hfrom : 1 ≤ fromtid ∧ fromtid ≤ 3)
  (hlegal : Legal (m.towers n) (totid, fromtid, did))
include h hto hfrom hlegal

theorem Board.total_play :
    ∑ t ∈ ({1, 2, 3} : Finset ℤ), (play (m.towers n) (totid, fromtid, did) t).length = n :=
  (hlegal.sum_play (mem_towers hfrom) (mem_towers hto)).trans h.total

/-- There is room for one more disk in the counter. -/
theorem Board.room : (m.towers n totid).length + 1 ≤ n := by
  have hle : (play (m.towers n) (totid, fromtid, did) totid).length ≤
      ∑ t ∈ ({1, 2, 3} : Finset ℤ), (play (m.towers n) (totid, fromtid, did) t).length :=
    Finset.single_le_sum (f := fun t ↦ (play (m.towers n) (totid, fromtid, did) t).length)
      (fun _ _ ↦ Nat.zero_le _) (mem_towers hto)
  rw [h.total_play hto hfrom hlegal] at hle
  exact hlegal.length_to ▸ hle

omit hto hfrom in
/-- There is a disk to be lifted. -/
theorem Board.top {a : Fin 3} (ha : fromtid = (a : ℕ) + 1) :
    ∃ below, m.towers n fromtid = did :: below ∧ m.count a = below.length + 1 := by
  obtain ⟨below, htop⟩ := hlegal.top
  refine ⟨below, htop, ?_⟩
  rw [h.count a, ← ha, htop]
  rfl

/-- A move that is made on the towers, and on the two counters. -/
theorem Board.move {a b : Fin 3} (ha : fromtid = (a : ℕ) + 1) (hb : totid = (b : ℕ) + 1)
    (hN : m'.hN = m.hN) (hmoves : m'.moves = m.moves ++ [(totid, fromtid, did)])
    (hca : m'.count a = m.count a - 1) (hcb : m'.count b = m.count b + 1)
    (hrest : ∀ k, k ≠ a → k ≠ b → m'.count k = m.count k) : Board n m' := by
  have htowers : m'.towers n = play (m.towers n) (totid, fromtid, did) := towers_of_moves hmoves
  refine ⟨hN.trans h.hN, ?_, ?_⟩
  · intro k
    rw [htowers]
    by_cases hka : k = a
    · have hlen := hlegal.length_from
      have hcount := h.count a
      subst hka
      rw [← ha] at hcount ⊢
      simp only at hlen
      omega
    by_cases hkb : k = b
    · have hlen := hlegal.length_to
      have hcount := h.count b
      subst hkb
      rw [← hb] at hcount ⊢
      simp only at hlen
      omega
    · have hfrom' : ((k : ℕ) : ℤ) + 1 ≠ fromtid := fun heq ↦ hka (Fin.ext (by omega))
      have hto' : ((k : ℕ) : ℤ) + 1 ≠ totid := fun heq ↦ hkb (Fin.ext (by omega))
      rw [hrest k hka hkb, play_of_ne hfrom' hto', h.count]
  · rw [htowers]
    exact h.total_play hto hfrom hlegal

end

/-! What the calls in a move find. -/

section
variable {m m' : Memory} {n : ℕ} {totid fromtid did : ℤ} (h : Board n m)
  (hlegal : Legal (m.towers n) (totid, fromtid, did)) (st ix : List ℤ)
include h hlegal

theorem good_decrement {a : Fin 3} (ha : fromtid = (a : ℕ) + 1)
    (hcount : m'.count a = m.count a) : Good n .decrement ⟨fromtid :: st, ix, m'⟩ := by
  obtain ⟨below, -, hbelow⟩ := h.top hlegal ha
  refine ⟨a, ha, ?_⟩
  intro hzero
  have hcount' : m'.count a = 0 := by
    rw [Memory.count, hzero]
    rfl
  omega

variable (hmoves : m'.moves = m.moves ++ [(totid, fromtid, did)])
include hmoves

theorem good_lift {a : Fin 3} (ha : fromtid = (a : ℕ) + 1) :
    Good n .lift ⟨(m.count a - 1) :: (n + 1 - did) :: fromtid :: st, ix, m'⟩ := by
  obtain ⟨below, htop, hbelow⟩ := h.top hlegal ha
  refine ⟨[], below, ?_, by omega⟩
  rw [hmoves, List.dropLast_concat, sub_sub_cancel, List.nil_append, ← htop]
  rfl

theorem good_putDown {b : Fin 3} (hb : totid = (b : ℕ) + 1) :
    Good n .putDown ⟨m.count b :: (n + 1 - did) :: totid :: st, ix, m'⟩ := by
  have htowers : m'.towers n = play (m.towers n) (totid, fromtid, did) := towers_of_moves hmoves
  refine ⟨[], m.towers n totid, ?_, ?_⟩
  · rw [htowers, sub_sub_cancel, List.nil_append, play_to hlegal.ne]
  · rw [h.count b, ← hb]

end

/-! ## One move -/

section
variable (e : Machine) {fuel : ℕ} {P : Call → State Memory → Prop}
  (hfuel : cellRange ≤ fuel) {tid : ℤ} {k : Fin 3} (hk : tid = (k : ℕ) + 1) (did : ℤ)
  (st ix : List ℤ) (m : Memory)
include hfuel hk

theorem hanoiDiskMoveUp_does (hdec : ∀ st, P .decrement ⟨tid :: st, ix, m⟩)
    (hlift : ∀ st, P .lift
      ⟨(m.count k - 1) :: did :: tid :: st, ix, m.setCount k (m.count k - 1)⟩) :
    ∃ m', Watched.Does P (Watch.hanoiDiskMoveUp e fuel) ⟨did :: tid :: st, ix, m⟩ ⟨st, ix, m'⟩ ∧
      Drawn (m.setCount k (m.count k - 1)) m' := by
  obtain ⟨m', hr, hm'⟩ := hanoiDrawloopUp_ok e hfuel 0 (e.diskY (m.count k - 1) - e.hDiskYmin) st
    ix (e.aim (m.setCount k (m.count k - 1)) tid did (m.count k - 1))
  refine ⟨m', ?_, (drawn_aim ..).trans hm'⟩
  -- the stack before `hanoi-tower-disks-dec`, after it, before `hanoi-disk-y`, after it
  refine .cons (t := ⟨tid :: did :: tid :: e.diskX tid did :: hColorDisk :: st, ix, m⟩)
    (.plain (by simp)) ?_
  refine .cons (t := ⟨m.count k :: did :: tid :: e.diskX tid did :: hColorDisk :: st, ix,
    m.setCount k (m.count k - 1)⟩) (.call (hdec _) (.plain ?_)) ?_
  · simp [hanoiTowerDisksDec_eq e hk]
  refine .cons (t := ⟨(m.count k - 1) :: did :: tid :: e.diskX tid did :: hColorDisk :: st, ix,
    m.setCount k (m.count k - 1)⟩) (.plain (by simp)) ?_
  refine .cons (t := ⟨e.diskY (m.count k - 1) :: did :: tid :: e.diskX tid did :: hColorDisk :: st,
    ix, m.setCount k (m.count k - 1)⟩) (.call (hlift _) (.plain (by simp))) ?_
  refine .cons (.plain ?_) .nil
  simpa [Machine.aim, mul_comm 2] using hr

theorem hanoiDiskMoveDown_does (hput : ∀ st, P .putDown
      ⟨m.count k :: did :: tid :: st, ix, m.setCount k (m.count k + 1)⟩) :
    ∃ m', Watched.Does P (Watch.hanoiDiskMoveDown e fuel) ⟨did :: tid :: st, ix, m⟩ ⟨st, ix, m'⟩ ∧
      Drawn (m.setCount k (m.count k + 1)) m' := by
  obtain ⟨m', hr, hm'⟩ := hanoiDrawloopDown_ok e hfuel 0 (e.diskY (m.count k) - e.hDiskYmin) st ix
    (e.aim (m.setCount k (m.count k + 1)) tid did (m.count k))
  refine ⟨m', ?_, (drawn_aim ..).trans hm'⟩
  -- the stack before `hanoi-disk-y`, and after it
  refine .cons (t := ⟨m.count k :: did :: tid :: e.diskX tid did :: hColorDisk :: st, ix,
    m.setCount k (m.count k + 1)⟩) (.plain ?_) ?_
  · simp [hanoiTowerDisksInc_eq e hk]
  refine .cons (t := ⟨e.diskY (m.count k) :: did :: tid :: e.diskX tid did :: hColorDisk :: st, ix,
    m.setCount k (m.count k + 1)⟩) (.call (hput _) (.plain (by simp))) ?_
  refine .cons (.plain ?_) .nil
  simpa [Machine.aim] using hr

end

/-- **A legal move is made as the game asks**, on the counters too. -/
theorem hanoiDiskMove_does (e : Machine) {fuel n : ℕ} (hfuel : cellRange ≤ fuel) (h255 : n ≤ 255)
    {totid fromtid did : ℤ} (hto : 1 ≤ totid ∧ totid ≤ 3) (hfrom : 1 ≤ fromtid ∧ fromtid ≤ 3)
    (st ix : List ℤ) {m : Memory} (h : Board n m)
    (hlegal : Legal (m.towers n) (totid, fromtid, did)) :
    ∃ m', Watched.Does (Good n) (.call .diskMove (Watch.hanoiDiskMove e fuel))
        ⟨did :: fromtid :: totid :: st, ix, m⟩ ⟨st, ix, m'⟩ ∧
      Board n m' ∧ m'.moves = m.moves ++ [(totid, fromtid, did)] := by
  obtain ⟨a, ha⟩ := exists_tower hfrom
  obtain ⟨b, hb⟩ := exists_tower hto
  have hba : b ≠ a := fun heq ↦ hlegal.ne (by rw [ha, hb, heq])
  -- the two counters stay in their range
  have hca : 0 ≤ m.count a - 1 ∧ m.count a - 1 < 256 := by
    obtain ⟨below, htop, hbelow⟩ := h.top hlegal ha
    have hle := h.length_le hfrom
    rw [htop, List.length_cons] at hle
    omega
  have hcb : 0 ≤ m.count b + 1 ∧ m.count b + 1 < 256 := by
    have hroom := h.room hto hfrom hlegal
    have hcount := h.count b
    rw [← hb] at hcount
    omega
  -- the disk is lifted
  obtain ⟨m₀, hm₀⟩ : ∃ m₀, m₀ = m.log (.diskMove totid fromtid did) := ⟨_, rfl⟩
  have hmoves₀ : m₀.moves = m.moves ++ [(totid, fromtid, did)] := by rw [hm₀, log_diskMove_moves]
  have hcount₀ (k : Fin 3) : m₀.count k = m.count k := by rw [hm₀, log_count]
  obtain ⟨m₁, h₁, hm₁⟩ := hanoiDiskMoveUp_does (P := Good n) e hfuel ha (n + 1 - did)
    ((n + 1 - did) :: fromtid :: totid :: st) ix m₀
    (fun st ↦ good_decrement h hlegal st ix ha (hcount₀ a))
    (fun st ↦ hcount₀ a ▸ good_lift h hlegal st ix hmoves₀ ha)
  rw [hcount₀] at hm₁
  -- it is carried across
  obtain ⟨m₂, h₂, hm₂⟩ := hanoiDiskMoveLr_ok e hfuel
    ((n + 1 - did) :: fromtid :: totid :: st) ix m₁ totid fromtid
  have hm₂' : Drawn (m₀.setCount a (m.count a - 1)) m₂ := hm₁.trans hm₂
  have hcount₂ : m₂.count b = m.count b := by
    rw [hm₂'.count, count_setCount_of_ne _ hba, hcount₀]
  -- and it is put down
  obtain ⟨m₃, h₃, hm₃⟩ := hanoiDiskMoveDown_does (P := Good n) e hfuel hb (n + 1 - did)
    ((n + 1 - did) :: fromtid :: totid :: st) ix m₂
    (fun st ↦ hcount₂ ▸ good_putDown h hlegal st ix (hm₂'.moves.trans hmoves₀) hb)
  rw [hcount₂] at hm₃
  have hmoves₃ : m₃.moves = m.moves ++ [(totid, fromtid, did)] :=
    hm₃.moves.trans (hm₂'.moves.trans hmoves₀)
  refine ⟨m₃, ?_, ?_, hmoves₃⟩
  · refine .call ⟨fun k ↦ Int.ofNat.inj (h.count k), hlegal⟩ ?_
    refine .cons (.plain ?_) (.cons h₁ (.cons (.plain ?_) (.cons h₃ (.cons (.plain ?_) .nil))))
    · simp [pick_apply, h.hN, hm₀]
    · simp [pick_apply, h₂]
    · simp
  · refine h.move hto hfrom hlegal ha hb ?_ hmoves₃ ?_ ?_ fun k hka hkb ↦ ?_
    · exact hm₃.hN.trans (hm₂'.hN.trans (by rw [hm₀]; rfl))
    · rw [hm₃.count, count_setCount_of_ne _ hba.symm, hm₂'.count, count_setCount _ _ hca]
    · rw [hm₃.count, count_setCount _ _ hcb]
    · rw [hm₃.count, count_setCount_of_ne _ hkb, hm₂'.count, count_setCount_of_ne _ hka, hcount₀]

/-! ## The run -/

/-- The word makes every legal move, as `P` asks, and keeps `I`. -/
def Makes {ν : Type} (P : ν → State Memory → Prop) (I : Memory → Prop) (n : ℕ)
    (move : Watched ν Memory) : Prop :=
  ∀ ⦃totid fromtid did : ℤ⦄, 1 ≤ totid ∧ totid ≤ 3 → 1 ≤ fromtid ∧ fromtid ≤ 3 →
    ∀ (st ix : List ℤ) ⦃m : Memory⦄, I m → Legal (m.towers n) (totid, fromtid, did) →
      ∃ m', Watched.Does P move ⟨did :: fromtid :: totid :: st, ix, m⟩ ⟨st, ix, m'⟩ ∧ I m' ∧
        m'.moves = m.moves ++ [(totid, fromtid, did)]

theorem makes_hanoiDiskMove (e : Machine) {fuel n : ℕ} (hfuel : cellRange ≤ fuel) (h255 : n ≤ 255) :
    Makes (Good n) (Board n) n (.call .diskMove (Watch.hanoiDiskMove e fuel)) := by
  intro totid fromtid did hto hfrom st ix m h hlegal
  exact hanoiDiskMove_does e hfuel h255 hto hfrom st ix h hlegal

section
variable {ν : Type} {P : ν → State Memory → Prop} {I : Memory → Prop} {move : Watched ν Memory}
  {n : ℕ} {f t : ℤ}

/-- A frame of several disks. -/
theorem solveBody_push_does (P : ν → State Memory → Prop) (move : Watched ν Memory) {r : ℤ}
    (rest ix : List ℤ) (m : Memory) (hr : r ≠ 1) :
    Watched.Does P (Watch.solveBodyWith move) ⟨0 :: t :: f :: r :: rest, ix, m⟩
      ⟨0 :: (6 - (f + t)) :: f :: (r - 1) :: 1 :: t :: f :: r :: rest, ix, m⟩ := by
  refine .cons (t := ⟨-1 :: (6 - (f + t)) :: 0 :: t :: f :: r :: rest, ix, m⟩)
    (.plain (by simp [pick_apply, flag])) (.cons (.ifElse_true (by decide) ?_) .nil)
  refine .cons (t := ⟨0 :: (6 - (f + t)) :: 0 :: t :: f :: r :: rest, ix, m⟩)
    (.plain (by simp [pick_apply, flag, hr])) (.cons (.ifElse_false (.plain ?_)) .nil)
  simp [pick_apply]

variable (hmove : Makes P I n move)
include hmove

section
variable (rest ix : List ℤ) {m : Memory} (hf : 1 ≤ f ∧ f ≤ 3) (ht : 1 ≤ t ∧ t ≤ 3) (h : I m)
include hf ht h

/-- A frame of one disk. -/
theorem solveBody_single_does (hlegal : Legal (m.towers n) (t, f, 1)) :
    ∃ m', Watched.Does P (Watch.solveBodyWith move) ⟨0 :: t :: f :: 1 :: rest, ix, m⟩
        ⟨rest, ix, m'⟩ ∧
      I m' ∧ m'.moves = m.moves ++ [(t, f, 1)] := by
  obtain ⟨m', hdo, hm'⟩ := hmove ht hf ((6 - (f + t)) :: 0 :: t :: f :: 1 :: rest) ix h hlegal
  refine ⟨m', ?_, hm'⟩
  refine .cons (t := ⟨-1 :: (6 - (f + t)) :: 0 :: t :: f :: 1 :: rest, ix, m⟩)
    (.plain (by simp [pick_apply, flag])) (.cons (.ifElse_true (by decide) ?_) .nil)
  refine .cons (t := ⟨-1 :: (6 - (f + t)) :: 0 :: t :: f :: 1 :: rest, ix, m⟩)
    (.plain (by simp [pick_apply, flag])) (.cons (.ifElse_true (by decide) ?_) .nil)
  exact .cons (.plain (by simp [pick_apply])) (.cons hdo (.cons (.plain (by simp)) .nil))

/-- A marked frame. -/
theorem solveBody_next_does {r : ℤ} (hlegal : Legal (m.towers n) (t, f, r)) :
    ∃ m', Watched.Does P (Watch.solveBodyWith move) ⟨1 :: t :: f :: r :: rest, ix, m⟩
        ⟨0 :: t :: (6 - (f + t)) :: (r - 1) :: rest, ix, m'⟩ ∧
      I m' ∧ m'.moves = m.moves ++ [(t, f, r)] := by
  obtain ⟨m', hdo, hm'⟩ := hmove ht hf ((6 - (f + t)) :: t :: f :: r :: rest) ix h hlegal
  refine ⟨m', ?_, hm'⟩
  refine .cons (t := ⟨0 :: (6 - (f + t)) :: 1 :: t :: f :: r :: rest, ix, m⟩)
    (.plain (by simp [pick_apply, flag])) (.cons (.ifElse_false ?_) .nil)
  exact .cons (.plain (by simp [pick_apply])) (.cons hdo (.cons (.plain (by simp)) .nil))

end

/-- **A frame is worked off**, if its moves are a legal game. -/
theorem hanoiSolve_does (r : ℕ) {f t : ℤ} (hf : 1 ≤ f ∧ f ≤ 3) (ht : 1 ≤ t ∧ t ≤ 3) (hne : f ≠ t)
    (rest ix : List ℤ) {m : Memory} (h : I m)
    (hlegal : Along play Legal (m.towers n) (H (r + 1) f t)) :
    ∃ m', I m' ∧ m'.moves = m.moves ++ H (r + 1) f t ∧ ∀ k u,
      Watched.Does P (.beginWhile solveCond (Watch.solveBodyWith move) k) ⟨rest, ix, m'⟩ u →
      Watched.Does P (.beginWhile solveCond (Watch.solveBodyWith move) (turns (r + 1) + k))
        ⟨0 :: t :: f :: (r + 1) :: rest, ix, m⟩ u := by
  induction r generalizing f t rest m with
  | zero =>
    obtain ⟨m', hbody, h', hm'⟩ := solveBody_single_does hmove rest ix hf ht h hlegal.1
    refine ⟨m', h', hm', ?_⟩
    intro k u hrest
    rw [turns, Nat.add_comm, Nat.cast_zero, zero_add]
    exact .beginWhile_true (solveCond_cons _ ix m 0) (by decide) hbody hrest
  | succ r ih =>
    -- the third tower
    obtain ⟨v, hv⟩ : ∃ v, v = 6 - (f + t) := ⟨_, rfl⟩
    have hv3 : 1 ≤ v ∧ v ≤ 3 := by omega
    have hH : H (r + 1 + 1) f t = H (r + 1) f v ++ (t, f, (r : ℤ) + 1 + 1) :: H (r + 1) v t := by
      rw [H, sub_sub, ← hv]
      simp [add_assoc, one_add_one_eq_two]
    rw [hH] at hlegal ⊢
    obtain ⟨hlegal₁, hlegal₂, hlegal₃⟩ := along_append.mp hlegal
    obtain ⟨m₁, h₁, hm₁, hrun₁⟩ := ih hf hv3 (by omega) (1 :: t :: f :: (r + 1 + 1) :: rest) h
      hlegal₁
    rw [← towers_of_moves hm₁] at hlegal₂ hlegal₃
    obtain ⟨m₂, hnext, h₂, hm₂⟩ := solveBody_next_does hmove rest ix hf ht h₁ hlegal₂
    have htowers₂ : m₂.towers n = play (m₁.towers n) (t, f, (r : ℤ) + 1 + 1) :=
      towers_of_moves hm₂
    rw [← htowers₂] at hlegal₃
    obtain ⟨m₃, h₃, hm₃, hrun₃⟩ := ih hv3 ht (by omega) rest h₂ hlegal₃
    refine ⟨m₃, h₃, ?_, ?_⟩
    · rw [hm₃, hm₂, hm₁, List.append_assoc, List.append_assoc, List.singleton_append]
    · intro k u hrest
      have hpush := solveBody_push_does P move rest ix m (f := f) (t := t) (r := (r : ℤ) + 1 + 1)
        (by omega)
      rw [← hv, add_sub_cancel_right] at hpush hnext
      -- the child, the disk, the second subproblem, whatever is next
      have hnext' := Watched.Does.beginWhile_true (solveCond_cons _ ix m₁ 1) (by decide) hnext
        (hrun₃ k u hrest)
      have hchild := Watched.Does.beginWhile_true (solveCond_cons _ ix m 0) (by decide) hpush
        (hrun₁ _ u hnext')
      have hturns : turns (r + 1 + 1) + k = turns (r + 1) + (turns (r + 1) + k + 1) + 1 := by
        rw [turns]
        omega
      rw [hturns, Nat.cast_succ]
      exact hchild

/-- **The whole game**, on a stack that holds just the frame. -/
theorem hanoiSolve_start (h1 : 1 ≤ n) {fuel : ℕ} (hfuel : enough n ≤ fuel) (ix : List ℤ)
    {m : Memory} (h : I m) (hmoves : m.moves = []) :
    ∃ m', Watched.Does P (.beginWhile solveCond (Watch.solveBodyWith move) fuel)
        ⟨[0, 3, 1, (n : ℤ)], ix, m⟩ ⟨[], ix, m'⟩ ∧
      I m' ∧ m'.moves = H n 1 3 := by
  have htowers : m.towers n = start n := by
    rw [Memory.towers, hmoves]
    rfl
  obtain ⟨hlegal, -⟩ := H_legal n
  obtain ⟨r, rfl⟩ : ∃ r, n = r + 1 := ⟨n - 1, by omega⟩
  rw [← htowers] at hlegal
  obtain ⟨m', h', hmoves', hrun⟩ := hanoiSolve_does hmove r (by decide) (by decide) (by decide) []
    ix h hlegal
  obtain ⟨k, hk⟩ : ∃ k, fuel = turns (r + 1) + (k + 1) := by
    rw [enough] at hfuel
    exact ⟨fuel - turns (r + 1) - 1, by omega⟩
  refine ⟨m', ?_, h', by rw [hmoves', hmoves, List.nil_append]⟩
  have hdo := hrun (k + 1) ⟨[], ix, m'⟩ (.beginWhile_false (solveCond_nil ix m') k)
  rwa [← hk] at hdo

end

/-! ## The beginning -/

/-- So many disks have been put on the first tower. -/
structure Filled (n j : ℕ) (m : Memory) : Prop where
  hN : m.hN = n
  moves : m.moves = []
  count : ∀ k : Fin 3, m.count k = if k = 0 then j else 0

section
variable (e : Machine) {fuel n j : ℕ} (st ix : List ℤ) {m : Memory}

/-- One more. -/
theorem Filled.add (h255 : n ≤ 255) (hj : j < n) (h : Filled n j m) :
    Filled n (j + 1)
      ((m.setCount 0 (m.count 0 + 1)).log (e.diskEvent 1 (1 + j) (m.count 0))) := by
  have hcount : m.count 0 = j := h.count 0
  refine ⟨h.hN, ?_, ?_⟩
  · rw [Machine.diskEvent, log_fillRectangle_moves]
    exact h.moves
  · intro k
    rw [log_count]
    split_ifs with hk
    · rw [hk, count_setCount, hcount, Nat.cast_succ]
      omega
    · rw [count_setCount_of_ne _ hk, h.count, if_neg hk]

/-- A disk is added. -/
theorem hanoiTowerDiskAdd_does (h255 : n ≤ 255) (hj : j < n) (h : Filled n j m) :
    ∃ m', Watched.Does (Good n) (Watch.hanoiTowerDiskAdd e) ⟨(1 + j) :: 1 :: st, ix, m⟩
        ⟨st, ix, m'⟩ ∧
      Filled n (j + 1) m' := by
  have hcount : m.count 0 = j := h.count 0
  have hput (st : List ℤ) : Good n .putDown
      ⟨m.count 0 :: (1 + j) :: 1 :: st, ix, m.setCount 0 (m.count 0 + 1)⟩ := by
    obtain ⟨above, below, hsplit, hlen⟩ := disks_split hj
    refine ⟨above, below, ?_, by rw [hcount, hlen]⟩
    have htowers : (m.setCount 0 (m.count 0 + 1)).towers n 1 = disks n := by
      have hmoves : (m.setCount 0 (m.count 0 + 1)).moves = [] := h.moves
      rw [Memory.towers, hmoves]
      rfl
    have hdisk : (n : ℤ) + 1 - (1 + j) = n - j := by omega
    rw [htowers, hdisk, hsplit]
  refine ⟨_, ?_, h.add e h255 hj⟩
  refine .cons (t := ⟨m.count 0 :: (1 + j) :: 1 :: e.diskX 1 (1 + j) :: hColorDisk :: st, ix,
    m.setCount 0 (m.count 0 + 1)⟩) (.plain ?_) ?_
  · have hk : (1 : ℤ) = ((0 : Fin 3) : ℕ) + 1 := rfl
    simp [hanoiTowerDisksInc_eq e hk]
  refine .cons (t := ⟨e.diskY (m.count 0) :: (1 + j) :: 1 :: e.diskX 1 (1 + j) :: hColorDisk ::
    st, ix, m.setCount 0 (m.count 0 + 1)⟩) (.call (hput _) (.plain (by simp))) ?_
  exact .cons (.plain (by simp [Machine.diskEvent])) .nil

/-- Before the first disk. -/
theorem filled_setUp (hN : m.hN = n) (hmoves : m.moves = []) : Filled n 0 (e.setUp m) := by
  refine ⟨hN, ?_, ?_⟩
  · rw [setUp_moves]
    exact hmoves
  · intro k
    simp [Memory.count, Machine.setUp]

/-- **All disks are put on the first tower**, each at its place. -/
theorem hanoiInit_does (hfuel : cellRange ≤ fuel) (h1 : 1 ≤ n) (h255 : n ≤ 255) (hN : m.hN = n)
    (hmoves : m.moves = []) :
    ∃ m', Watched.Does (Good n) (Watch.hanoiInit e fuel) ⟨(n : ℤ) :: st, ix, m⟩ ⟨st, ix, m'⟩ ∧
      Filled n n m' := by
  have h₁ := Watch.hanoiInitTowers_eq e n st ix m
  rw [add_comm] at h₁
  have hbody (j : ℕ) (hj : j < n) (m : Memory) (hm : Filled n j m) :
      ∃ m', Watched.Does (Good n) (.words [.plain [lit 1, i], Watch.hanoiTowerDiskAdd e])
          ⟨st, (1 + j) :: ix, m⟩ ⟨st, (1 + j) :: ix, m'⟩ ∧ Filled n (j + 1) m' := by
    obtain ⟨m', hadd, hm'⟩ := hanoiTowerDiskAdd_does e st ((1 + j) :: ix) h255 hj hm
    exact ⟨m', .cons (.plain (by simp)) (.cons hadd .nil), hm'⟩
  have hcell : (n : ℤ) ≤ cellRange := by
    rw [cellRange]
    omega
  have hle : n ≤ fuel := by
    rw [cellRange] at hfuel
    omega
  obtain ⟨m', hloop, hm'⟩ := Watched.Does.doLoop hbody h1 hcell hle
    (filled_setUp e hN hmoves)
  exact ⟨m', .cons (.plain h₁) (.cons hloop .nil), hm'⟩

/-- The board is set up. -/
theorem Filled.board (h : Filled n n m) : Board n m := by
  have htowers : m.towers n = start n := by
    rw [Memory.towers, h.moves]
    rfl
  refine ⟨h.hN, ?_, ?_⟩
  · intro k
    rw [htowers, h.count]
    fin_cases k <;> simp [start, length_disks]
  · rw [htowers]
    simp [start, length_disks]

end

/-! ## The result -/

/-- **The animation shows a legal game.**  From any memory, on a stack with just an accepted number
of disks, `hanoi` terminates and leaves the stack empty.  Every call is made as the game asks, and
at the end all disks are on the third tower. -/
theorem hanoi_legal (e : Machine) (hMaxdisks : ℤ) (n : ℕ) (h1 : 1 ≤ n) (h255 : n ≤ 255)
    (hmax : n ≤ hMaxdisks) (ix : List ℤ) (m : Memory) :
    ∃ fuel₀, ∀ fuel ≥ fuel₀, ∃ m',
      hanoi e fuel hMaxdisks ⟨[(n : ℤ)], ix, { m with trace := [] }⟩ = .ok ⟨[], ix, m'⟩ ∧
      (Watched.erase (Watch.hanoi e fuel hMaxdisks) = hanoi e fuel hMaxdisks ∧
        ∀ c ∈ (Watch.hanoi e fuel hMaxdisks ⟨[(n : ℤ)], ix, { m with trace := [] }⟩).1,
          Good n c.1 c.2) ∧
      m'.moves = H n 1 3 ∧
      (m'.towers n 1 = [] ∧ m'.towers n 2 = [] ∧ m'.towers n 3 = disks n) ∧
      ((m'.hTowerDisks 0).toNat = 0 ∧ (m'.hTowerDisks 1).toNat = 0 ∧
        (m'.hTowerDisks 2).toNat = n) := by
  refine ⟨enough n, ?_⟩
  intro fuel hge
  have hfuel : cellRange ≤ fuel := cellRange_le hge
  obtain ⟨m₁, hinit, hm₁⟩ := hanoiInit_does e [(n : ℤ)] ix (m := { m with hN := n, trace := [] })
    hfuel h1 h255 rfl rfl
  obtain ⟨m', hsolve, hboard, hmoves⟩ := hanoiSolve_start (makes_hanoiDiskMove e hfuel h255) h1 hge
    ix hm₁.board hm₁.moves
  have htowers (t : ℤ) : m'.towers n t = if t = 3 then disks n else [] := by
    rw [Memory.towers, hmoves, (H_legal n).2]
  have hdo : Watched.Does (Good n) (Watch.hanoi e fuel hMaxdisks)
      ⟨[(n : ℤ)], ix, { m with trace := [] }⟩ ⟨[], ix, m'⟩ := by
    have haccepted : 1 ≤ (n : ℤ) ∧ (n : ℤ) ≤ hMaxdisks := ⟨by omega, hmax⟩
    refine .cons (t := ⟨[-1, (n : ℤ)], ix, { m with trace := [] }⟩) (.plain ?_)
      (.cons (.ifElse_true (by decide) ?_) .nil)
    · rw [words_cons, hanoiValidate_eq, if_pos haccepted]
      rfl
    · exact .cons (.plain rfl) (.cons hinit (.cons (.plain rfl) (.cons hsolve .nil)))
  refine ⟨m', ?_, ⟨Watch.erase_hanoi .., hdo.calls⟩, hmoves, ?_, ?_⟩
  · rw [← Watch.erase_hanoi]
    exact hdo.erase
  · exact ⟨htowers 1, htowers 2, htowers 3⟩
  · have hcount (j : Fin 3) : (m'.hTowerDisks j).toNat = (m'.towers n ((j : ℕ) + 1)).length :=
      Int.ofNat.inj (hboard.count j)
    refine ⟨?_, ?_, ?_⟩
    · rw [hcount, htowers]
      rfl
    · rw [hcount, htowers]
      rfl
    · rw [hcount, htowers]
      exact length_disks n

/-- Three disks on a screen of 1024 by 768, with the shipped limit. -/
theorem hanoi_legal_three :
    ∃ fuel₀, ∀ fuel ≥ fuel₀, ∃ m',
      hanoi ⟨1024, 768, 0⟩ fuel 8 ⟨[3], [], ⟨1, 0, 0, 0, 0, 0, 0, 0, 0, fun _ ↦ 255, []⟩⟩ =
        .ok ⟨[], [], m'⟩ ∧
      m'.towers 3 3 = [1, 2, 3] := by
  obtain ⟨fuel₀, h⟩ := hanoi_legal ⟨1024, 768, 0⟩ 8 3 (by decide) (by decide) (by decide) []
    ⟨1, 0, 0, 0, 0, 0, 0, 0, 0, fun _ ↦ 255, []⟩
  refine ⟨fuel₀, ?_⟩
  intro fuel hge
  obtain ⟨m', hrun, -, -, htowers, -⟩ := h fuel hge
  exact ⟨m', hrun, htowers.2.2⟩

end Hanoi
end MacOSXInternal
