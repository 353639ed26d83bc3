import Mathlib.Algebra.Order.Ring.Abs
import MacOSXInternal.Hanoi.Picture

/-!
# Everything is drawn on the screen

The run of `n hanoi`, with the entries of its drawing loops marked.  Every rectangle that is drawn
lies within the screen, and every drawing loop makes a turn for each row or column of its way.

* `onScreen_upTurn` and its like say it of a turn, `onScreen_setUp` and `onScreen_diskEvent` of what
  is drawn at the beginning.
* `Way` is what is asked of a loop, and `Shown` the invariant between two moves.
* `makes_hanoiDiskMove_draw` is a move, and `hanoi_within` the result.
-/

set_option autoImplicit false

namespace MacOSXInternal
namespace Hanoi

open Forth Raster Towers

variable (e : Machine) (fuel : ℕ) (hMaxdisks : ℤ)

/-! ## The words -/

namespace Draw

/-- `( totid fromtid did -- )` -/
def hanoiDiskMove : Watched Loop Memory :=
  .words
    [.plain [noteDiskMove, fetch (·.hN), lit 1, add, swap, sub, lit 1, pick, lit 1, pick],
    hanoiDiskMoveUp e fuel,
    .plain [lit 2, pick, lit 2, pick],
    hanoiDiskMoveLr e fuel,
    .plain [lit 2, pick, lit 1, pick],
    hanoiDiskMoveDown e fuel,
    .plain [threeDrop]]

/-- `hanoi-solve` -/
def hanoiSolve : Watched Loop Memory :=
  .beginWhile solveCond (Watch.solveBodyWith (hanoiDiskMove e fuel)) fuel

/-- `( n -- )` -/
def hanoi : Watched Loop Memory :=
  .words
    [.plain [hanoiValidate hMaxdisks],
    .ifElse
      (.words
        [.plain [eraseScreen, cr, dotQuote "Press control-z to quit the animation.", cr,
          dup, store fun x m ↦ { m with hN := x }, dup, hanoiInit e fuel, lit 1, lit 3, lit 0],
        hanoiSolve e fuel])
      (.plain [])]

theorem erase_hanoiDiskMove :
    Watched.erase (hanoiDiskMove e fuel) = Hanoi.hanoiDiskMove e fuel := by
  simp only [hanoiDiskMove, Hanoi.hanoiDiskMove, erase_hanoiDiskMoveUp, erase_hanoiDiskMoveDown,
    erase_hanoiDiskMoveLr, Watched.erase_words, List.map_cons, List.map_nil, Watched.erase_plain,
    words_cons_eq, seq_assoc, words_nil_seq]

theorem erase_hanoiSolve : Watched.erase (hanoiSolve e fuel) = Hanoi.hanoiSolve e fuel := by
  rw [hanoiSolve, Watched.erase_beginWhile, Hanoi.hanoiSolve,
    Watch.erase_solveBodyWith e fuel (erase_hanoiDiskMove e fuel)]

theorem erase_hanoi :
    Watched.erase (hanoi e fuel hMaxdisks) = Hanoi.hanoi e fuel hMaxdisks := by
  simp only [hanoi, Hanoi.hanoi, erase_hanoiSolve, Watched.erase_words, List.map_cons,
    List.map_nil, Watched.erase_plain, Watched.erase_ifElse, words_cons_eq, seq_assoc,
    words_nil_seq]

end Draw

/-- A drawing loop, on its entry: it makes a turn for each row that the disk goes up or down, or for
each column between the towers, and its limit is not its start. -/
def Way : Loop → State Memory → Prop
  | .up, ⟨start :: limit :: did :: fromtid :: st, ix, m⟩ => limit ≠ start ∧
    ∃ k : Fin 3, fromtid = (k : ℕ) + 1 ∧
      ((Turns.hanoiDrawloopUp e fuel
        ⟨start :: limit :: did :: fromtid :: st, ix, m⟩).1.length : ℤ) =
        e.diskY (m.count k) - e.hDiskYmin
  | .down, ⟨start :: limit :: did :: fromtid :: totid :: st, ix, m⟩ => limit ≠ start ∧
    ∃ k : Fin 3, totid = (k : ℕ) + 1 ∧
      ((Turns.hanoiDrawloopDown e fuel
        ⟨start :: limit :: did :: fromtid :: totid :: st, ix, m⟩).1.length : ℤ) =
        e.diskY (m.count k - 1) - e.hDiskYmin
  | .lr, ⟨start :: limit :: did :: fromtid :: totid :: st, ix, m⟩ => limit ≠ start ∧
    ((Turns.hanoiDrawloopLr e fuel
      ⟨start :: limit :: did :: fromtid :: totid :: st, ix, m⟩).1.length : ℤ) =
      |totid - fromtid| * e.hXmaxby4
  | _, _ => False

/-! ## Within the screen -/

/-- Everything that has been drawn lies within the screen. -/
def OnScreen (strokes : List (ℤ × Rect)) : Prop := ∀ s ∈ strokes, s.2.Within e.screen

section
variable {e} {l l' : List (ℤ × Rect)}

theorem OnScreen.append (h : OnScreen e l) (h' : OnScreen e l') : OnScreen e (l ++ l') :=
  List.forall_mem_append.mpr ⟨h, h'⟩

theorem OnScreen.flatMap {k : ℕ} {f : ℕ → List Event} (h : ∀ j < k, OnScreen e (strokes (f j))) :
    OnScreen e (strokes ((List.range k).flatMap f)) := by
  intro s hs
  rw [strokes_flatMap, List.mem_flatMap] at hs
  obtain ⟨j, hj, hs⟩ := hs
  exact h j (List.mem_range.mp hj) s hs

theorem within_screen {r : Rect} : r.Within e.screen ↔ 0 < r.w ∧ 0 < r.h ∧ 0 ≤ r.x ∧
    r.x + r.w ≤ e.screenWidth ∧ 0 ≤ r.y ∧ r.y + r.h ≤ e.screenHeight := by
  constructor
  · rintro ⟨hw, hh, hleft, hright, htop, hbottom⟩
    rw [Machine.screen] at hleft hright htop hbottom
    exact ⟨hw, hh, hleft, by simpa using hright, htop, by simpa using hbottom⟩
  · rintro ⟨hw, hh, hleft, hright, htop, hbottom⟩
    exact ⟨hw, hh, hleft, by simpa [Machine.screen] using hright, htop,
      by simpa [Machine.screen] using hbottom⟩

variable {j : ℕ} {tid tid' did tn : ℤ} (he : e.Screen) (m : Memory)
include he

/-- The margins that the disks and the poles leave. -/
theorem margins (htid : 1 ≤ tid ∧ tid ≤ 3) (hdid : 1 ≤ did ∧ did ≤ 11) (h0 : 0 ≤ tn)
    (h11 : tn ≤ 11) :
    (0 < e.diskWidth did ∧ 0 < e.hDiskHeight ∧ 0 < e.hTw) ∧
    (0 ≤ e.diskX tid did ∧ e.diskX tid did + e.diskWidth did * 2 ≤ e.screenWidth) ∧
    (0 ≤ tid * e.hXmaxby4 - e.hTw ∧ tid * e.hXmaxby4 + e.hTw ≤ e.screenWidth) ∧
    (0 ≤ e.hDiskYmin ∧ e.hDiskYmin < e.diskY tn) ∧
    e.diskY tn + e.hDiskHeight < e.screenHeight := by
  obtain ⟨u, v, hp⟩ := he.proportions
  have hdisk := hp.diskWidth_mem hdid
  have haxis := hp.axis_mem htid
  have hplace := hp.diskY_mem h0 h11
  obtain ⟨hpos, hle, hheight, -, hBh, -, -, -, -, hTw_le, hTw_ge, -, hDiskHeight, -, hmin⟩ := hp
  rw [Machine.diskX]
  omega

/-- The towers. -/
theorem onScreen_setUp (h : OnScreen e m.strokes) : OnScreen e (e.setUp m).strokes := by
  obtain ⟨u, v, hp⟩ := he.proportions
  have h₁ := hp.axis_mem (by decide : (1 : ℤ) ≤ 1 ∧ (1 : ℤ) ≤ 3)
  have h₂ := hp.axis_mem (by decide : (1 : ℤ) ≤ 2 ∧ (2 : ℤ) ≤ 3)
  have h₃ := hp.axis_mem (by decide : (1 : ℤ) ≤ 3 ∧ (3 : ℤ) ≤ 3)
  obtain ⟨hpos, hle, hheight, hwidth, hBh, hBw, -, -, hTh, hTw_le, hTw_ge, -, -, -, -⟩ := hp
  have hstrokes : (e.setUp m).strokes = m.strokes ++ strokes
      ([1, 2, 3].map e.baseEvent ++ [1, 2, 3].map e.poleEvent) := strokes_append ..
  rw [hstrokes]
  refine h.append ?_
  simp only [OnScreen, strokes, Machine.baseEvent, Machine.poleEvent, List.map_cons, List.map_nil,
    List.cons_append, List.nil_append, List.filterMap_cons, List.filterMap_nil,
    List.forall_mem_cons, within_screen]
  refine ⟨?_, ?_, ?_, ?_, ?_, ?_, List.forall_mem_nil _⟩ <;> omega

variable (htid : 1 ≤ tid ∧ tid ≤ 3) (hdid : 1 ≤ did ∧ did ≤ 11) (h0 : 0 ≤ tn) (h11 : tn ≤ 11)
include htid hdid h0 h11

theorem onScreen_diskEvent : OnScreen e (strokes [e.diskEvent tid did tn]) := by
  have hmargins := margins he htid hdid h0 h11
  simp only [OnScreen, strokes, Machine.diskEvent, List.filterMap_cons, List.filterMap_nil,
    List.forall_mem_cons, within_screen]
  refine ⟨?_, List.forall_mem_nil _⟩
  omega

/-- A turn on the way up. -/
theorem onScreen_upTurn (hj : (j : ℤ) < e.diskY tn - e.hDiskYmin) :
    OnScreen e (strokes (e.upTurn (e.aim m tid did tn) j)) := by
  have hmargins := margins he htid hdid h0 h11
  have hx := aim_hTx e m tid did tn
  have hrepair : (e.aim m tid did tn).hDy - j > e.hDiskYmin := by
    simp only [Machine.aim]
    omega
  rw [strokes_upTurn, if_pos hrepair, hx]
  simp only [OnScreen, Machine.aim, List.cons_append, List.nil_append, List.forall_mem_cons,
    within_screen]
  refine ⟨?_, ?_, ?_, List.forall_mem_nil _⟩ <;> omega

/-- A turn on the way down. -/
theorem onScreen_downTurn (hj : (j : ℤ) < e.diskY tn - e.hDiskYmin) :
    OnScreen e (strokes (e.downTurn (e.aim m tid did tn) j)) := by
  have hmargins := margins he htid hdid h0 h11
  have hx := aim_hTx e m tid did tn
  rw [strokes_downTurn, hx]
  by_cases hrepair : (j : ℤ) > (e.aim m tid did tn).hDh
  · rw [if_pos hrepair]
    simp only [OnScreen, Machine.aim, List.cons_append, List.nil_append, List.forall_mem_cons,
      within_screen]
    refine ⟨?_, ?_, ?_, List.forall_mem_nil _⟩ <;> omega
  · rw [if_neg hrepair]
    simp only [OnScreen, Machine.aim, List.append_nil, List.forall_mem_cons, within_screen]
    refine ⟨?_, ?_, List.forall_mem_nil _⟩ <;> omega

omit h0 h11 in
/-- A turn on the way across. -/
theorem onScreen_lrTurn (htid' : 1 ≤ tid' ∧ tid' ≤ 3) {m : Memory} (hcarried : Carried e m tid did)
    (hd : m.hDelta = 1 ∨ m.hDelta = -1) {K : ℕ} (hK : (tid' - tid) * e.hXmaxby4 = m.hDelta * K)
    (hj : j < K) : OnScreen e (strokes (e.lrTurn m (m.hDelta * j))) := by
  have hmargins := margins he htid hdid (le_refl 0) (by decide)
  have hmargins' := margins he htid' hdid (le_refl 0) (by decide)
  rw [Machine.diskX] at hmargins hmargins'
  rw [sub_mul] at hK
  simp only [OnScreen, strokes_lrTurn, hcarried.hDx, hcarried.hDw, hcarried.hDh, Machine.diskX,
    List.forall_mem_cons, within_screen]
  refine ⟨?_, ?_, List.forall_mem_nil _⟩
  · rcases hd with hd | hd <;> rw [hd] at hK ⊢ <;> omega
  · rcases hd with hd | hd <;> rw [hd] at hK ⊢ <;> omega

end

/-! ## The ways -/

section
variable {e fuel} {K : ℕ} {k : Fin 3} {totid fromtid did : ℤ} {st ix : List ℤ} {m : Memory}
  (hpos : 0 < K) (hle : K ≤ cellRange) (hfuel : K ≤ fuel)
include hpos hle hfuel

theorem way_up (hk : fromtid = (k : ℕ) + 1) (hK : e.diskY (m.count k) - e.hDiskYmin = K) :
    Way e fuel .up ⟨0 :: K :: did :: fromtid :: st, ix, m⟩ := by
  obtain ⟨c, hrun, hlen⟩ := hanoiDrawloopUp_run e (did :: fromtid :: st) ix m hpos hle hfuel
  refine ⟨Int.natCast_ne_zero.mpr hpos.ne', k, hk, ?_⟩
  rw [hrun, hlen, hK]

theorem way_down (hk : totid = (k : ℕ) + 1) (hK : e.diskY (m.count k - 1) - e.hDiskYmin = K) :
    Way e fuel .down ⟨0 :: K :: did :: fromtid :: totid :: st, ix, m⟩ := by
  obtain ⟨c, hrun, hlen⟩ := hanoiDrawloopDown_run e (did :: fromtid :: totid :: st) ix m hpos hle
    hfuel
  refine ⟨Int.natCast_ne_zero.mpr hpos.ne', k, hk, ?_⟩
  rw [hrun, hlen, hK]

omit hpos in
theorem way_lr (hpos : 1 < K) (hX : 0 ≤ e.hXmaxby4) (hd : m.hDelta = 1 ∨ m.hDelta = -1)
    (hK : (totid - fromtid) * e.hXmaxby4 = m.hDelta * K) :
    Way e fuel .lr ⟨0 :: (if m.hDelta = 1 then (K : ℤ) else -(K - 1)) :: did :: fromtid :: totid ::
      st, ix, m⟩ := by
  obtain ⟨c, hrun, hlen⟩ := hanoiDrawloopLr_run e (did :: fromtid :: totid :: st) ix m
    (Nat.zero_lt_of_lt hpos) hle hfuel hd rfl
  refine ⟨?_, ?_⟩
  · split_ifs <;> omega
  · rw [hrun, hlen, ← abs_of_nonneg hX, ← abs_mul, hK, abs_mul, Nat.abs_cast]
    rcases hd with hd | hd
    · rw [hd, abs_one, one_mul]
    · rw [hd, abs_neg, abs_one, one_mul]

end

/-! ## The run -/

/-- The invariant between two moves. -/
structure Shown (n : ℕ) (m : Memory) : Prop extends Board n m where
  did : ∀ t, ∀ x ∈ m.towers n t, 1 ≤ x ∧ x ≤ n
  strokes : OnScreen e m.strokes

section
variable {e} {fuel n : ℕ} {totid fromtid did : ℤ} {k : Fin 3} (he : e.Screen)
  (hfuel : cellRange ≤ fuel) (hto : 1 ≤ totid ∧ totid ≤ 3) (hfrom : 1 ≤ fromtid ∧ fromtid ≤ 3)
  (hdid : 1 ≤ did ∧ did ≤ 11) (st ix : List ℤ) {m : Memory} (h : OnScreen e m.strokes)
include he hfuel hfrom hdid h

/-- A disk is lifted. -/
theorem hanoiDiskMoveUp_draw (hk : fromtid = (k : ℕ) + 1) (h0 : 0 ≤ m.count k - 1)
    (h11 : m.count k - 1 ≤ 11) :
    ∃ m', Watched.Does (Way e fuel) (Draw.hanoiDiskMoveUp e fuel)
        ⟨did :: fromtid :: did :: fromtid :: st, ix, m⟩ ⟨did :: fromtid :: st, ix, m'⟩ ∧
      Drawn (m.setCount k (m.count k - 1)) m' ∧ Carried e m' fromtid did ∧
      OnScreen e m'.strokes := by
  obtain ⟨K, hK, hpos, hle⟩ := he.rows h0 h11
  have hturns : K ≤ fuel := by omega
  obtain ⟨m', hword, hdrawn⟩ := hanoiDiskMoveUp_ok e hfuel hk did (did :: fromtid :: st) ix m
  have hrun := Draw.hanoiDiskMoveUp_run e did (did :: fromtid :: st) ix m hpos hle.le hturns hk rfl
    hK
  have hresult := Watched.erase_eq hrun
  rw [Draw.erase_hanoiDiskMoveUp, hword] at hresult
  cases hresult
  have hcount : (m.setCount k (m.count k - 1)).count k = m.count k - 1 :=
    count_setCount m k ⟨h0, by omega⟩
  refine ⟨_, .of_eq hrun (way_up hpos hle.le hturns hk ?_), hdrawn, (carried_aim ..).draw .., ?_⟩
  · rw [← hK]
    exact congrArg (e.diskY · - e.hDiskYmin) hcount
  · rw [draw_strokes]
    refine h.append (OnScreen.flatMap ?_)
    intro j hj
    exact onScreen_upTurn he _ hfrom hdid h0 h11 (by omega)

include hto

/-- It is carried across. -/
theorem hanoiDiskMoveLr_draw (hne : totid ≠ fromtid) (hcarried : Carried e m fromtid did) :
    ∃ m', Watched.Does (Way e fuel) (Draw.hanoiDiskMoveLr e fuel)
        ⟨fromtid :: totid :: did :: fromtid :: totid :: st, ix, m⟩
        ⟨did :: fromtid :: totid :: st, ix, m'⟩ ∧
      Drawn m m' ∧ OnScreen e m'.strokes := by
  obtain ⟨K, hK, hpos, hle⟩ := he.columns hfrom hto hne
  have hturns : K ≤ fuel := by omega
  obtain ⟨u, v, hp⟩ := he.proportions
  have hX : 0 ≤ e.hXmaxby4 := by
    have hu := hp.pos
    have hv := hp.le
    have hge := hp.hXmaxby4_ge
    omega
  obtain ⟨d, hd⟩ : ∃ d, d = if totid < fromtid then (-1 : ℤ) else 1 := ⟨_, rfl⟩
  have hd' : d = 1 ∨ d = -1 := by
    split_ifs at hd
    · exact .inr hd
    · exact .inl hd
  rw [← hd] at hK
  obtain ⟨m', hword, hdrawn⟩ := hanoiDiskMoveLr_ok e hfuel (did :: fromtid :: totid :: st) ix m
    totid fromtid
  have hrun := Draw.hanoiDiskMoveLr_run e (did :: fromtid :: totid :: st) ix m
    (Nat.zero_lt_of_lt hpos) hle.le hturns hd hK rfl
  have hresult := Watched.erase_eq hrun
  rw [Draw.erase_hanoiDiskMoveLr, hword] at hresult
  cases hresult
  refine ⟨_, .of_eq hrun ?_, hdrawn, ?_⟩
  · exact way_lr (m := { m with hDelta := d }) hle.le hturns hpos hX hd' hK
  · rw [draw_strokes]
    refine OnScreen.append h (OnScreen.flatMap ?_)
    intro j hj
    exact onScreen_lrTurn he hfrom hdid hto (m := { m with hDelta := d })
      ⟨hcarried.hDx, hcarried.hDw, hcarried.hDh⟩ hd' hK hj

omit hfrom in
/-- It is put down. -/
theorem hanoiDiskMoveDown_draw (fromtid : ℤ) (hk : totid = (k : ℕ) + 1) (h0 : 0 ≤ m.count k)
    (h11 : m.count k ≤ 11) :
    ∃ m', Watched.Does (Way e fuel) (Draw.hanoiDiskMoveDown e fuel)
        ⟨did :: totid :: did :: fromtid :: totid :: st, ix, m⟩
        ⟨did :: fromtid :: totid :: st, ix, m'⟩ ∧
      Drawn (m.setCount k (m.count k + 1)) m' ∧ OnScreen e m'.strokes := by
  obtain ⟨K, hK, hpos, hle⟩ := he.rows h0 h11
  have hturns : K ≤ fuel := by omega
  obtain ⟨m', hword, hdrawn⟩ := hanoiDiskMoveDown_ok e hfuel hk did
    (did :: fromtid :: totid :: st) ix m
  have hrun := Draw.hanoiDiskMoveDown_run e did (did :: fromtid :: totid :: st) ix m hpos hle.le
    hturns hk rfl hK
  have hresult := Watched.erase_eq hrun
  rw [Draw.erase_hanoiDiskMoveDown, hword] at hresult
  cases hresult
  have hcount : (m.setCount k (m.count k + 1)).count k - 1 = m.count k := by
    rw [count_setCount m k ⟨by omega, by omega⟩, add_sub_cancel_right]
  refine ⟨_, .of_eq hrun (way_down hpos hle.le hturns hk ?_), hdrawn, ?_⟩
  · rw [← hK]
    exact congrArg (e.diskY · - e.hDiskYmin) hcount
  · rw [draw_strokes]
    refine OnScreen.append h (OnScreen.flatMap ?_)
    intro j hj
    exact onScreen_downTurn he _ hto hdid h0 h11 (by omega)

end

/-- **A legal move is drawn on the screen**, and each of its loops makes its way. -/
theorem makes_hanoiDiskMove_draw {e : Machine} (he : e.Screen) {fuel n : ℕ}
    (hfuel : cellRange ≤ fuel) (hn : n ≤ 11) :
    Makes (Way e fuel) (Shown e n) n (Draw.hanoiDiskMove e fuel) := by
  intro totid fromtid did hto hfrom st ix m h hlegal
  obtain ⟨a, ha⟩ := exists_tower hfrom
  obtain ⟨b, hb⟩ := exists_tower hto
  have hba : b ≠ a := fun heq ↦ hlegal.ne (by rw [ha, hb, heq])
  obtain ⟨below, htop, hbelow⟩ := h.top hlegal ha
  have hle := h.length_le hfrom
  rw [htop, List.length_cons] at hle
  have hroom := h.room hto hfrom hlegal
  have hcountb := h.count b
  rw [← hb] at hcountb
  have hdid : 1 ≤ (n : ℤ) + 1 - did ∧ (n : ℤ) + 1 - did ≤ 11 := by
    have hmem := h.did fromtid did (by rw [htop]; exact List.mem_cons_self)
    omega
  -- the disk is lifted
  obtain ⟨m₀, hm₀⟩ : ∃ m₀, m₀ = m.log (.diskMove totid fromtid did) := ⟨_, rfl⟩
  have hcount₀ (k : Fin 3) : m₀.count k = m.count k := by rw [hm₀, log_count]
  have hstrokes₀ : OnScreen e m₀.strokes := by
    rw [hm₀, log_diskMove_strokes]
    exact h.strokes
  obtain ⟨m₁, h₁, hm₁, hcarried, hstrokes₁⟩ := hanoiDiskMoveUp_draw he hfuel hfrom hdid
    (totid :: st) ix hstrokes₀ ha (by rw [hcount₀]; omega) (by rw [hcount₀]; omega)
  -- it is carried across
  obtain ⟨m₂, h₂, hm₂, hstrokes₂⟩ := hanoiDiskMoveLr_draw he hfuel hto hfrom hdid st ix hstrokes₁
    hlegal.ne.symm hcarried
  have hcount₂ : m₂.count b = m.count b := by
    rw [(hm₁.trans hm₂).count, count_setCount_of_ne _ hba, hcount₀]
  -- and it is put down
  obtain ⟨m₃, h₃, hm₃, hstrokes₃⟩ := hanoiDiskMoveDown_draw he hfuel hto hdid st ix
    hstrokes₂ fromtid hb (by omega) (by omega)
  have hdo : Watched.Does (Way e fuel) (Draw.hanoiDiskMove e fuel)
      ⟨did :: fromtid :: totid :: st, ix, m⟩ ⟨st, ix, m₃⟩ := by
    refine .cons (.plain ?_) (.cons h₁ (.cons (.plain ?_) (.cons h₂ (.cons (.plain ?_)
      (.cons h₃ (.cons (.plain ?_) .nil))))))
    · simp [pick_apply, h.hN, hm₀]
    · simp [pick_apply]
    · simp [pick_apply]
    · simp
  obtain ⟨m', hgame, hboard, hmoves⟩ := hanoiDiskMove_does e hfuel (by omega) hto hfrom st ix
    h.toBoard hlegal
  have hresult := hdo.erase
  rw [Draw.erase_hanoiDiskMove, ← Watch.erase_hanoiDiskMove, ← Watched.erase_call .diskMove,
    hgame.erase] at hresult
  cases hresult
  refine ⟨m₃, hdo, ⟨hboard, ?_, hstrokes₃⟩, hmoves⟩
  intro t x hx
  rw [towers_of_moves hmoves] at hx
  obtain ⟨t', hx'⟩ := hlegal.exists_mem hx
  exact h.did t' x hx'

/-- All disks are put on the first tower, on the screen. -/
theorem hanoiInit_draw {e : Machine} (he : e.Screen) {fuel n : ℕ} (hfuel : cellRange ≤ fuel)
    (h1 : 1 ≤ n) (hn : n ≤ 11) (st ix : List ℤ) {m : Memory} (hN : m.hN = n) (hm : m.trace = []) :
    ∃ m', hanoiInit e fuel ⟨(n : ℤ) :: st, ix, m⟩ = .ok ⟨st, ix, m'⟩ ∧ Filled n n m' ∧
      OnScreen e m'.strokes := by
  have hbody (j : ℕ) (hj : j < n) (m : Memory) (hm : Filled n j m ∧ OnScreen e m.strokes) :
      ∃ m', words [words [lit 1, i], hanoiTowerDiskAdd e] ⟨st, (1 + j) :: ix, m⟩ =
        .ok ⟨st, (1 + j) :: ix, m'⟩ ∧ Filled n (j + 1) m' ∧ OnScreen e m'.strokes := by
    have hk : (1 : ℤ) = ((0 : Fin 3) : ℕ) + 1 := rfl
    have hcount : m.count 0 = j := hm.1.count 0
    refine ⟨_, ?_, hm.1.add e (by omega) hj, ?_⟩
    · simp [hanoiTowerDiskAdd_eq e hk]
    · have hevent := onScreen_diskEvent he (by decide : (1 : ℤ) ≤ 1 ∧ (1 : ℤ) ≤ 3)
        (by omega : (1 : ℤ) ≤ 1 + j ∧ (1 + j : ℤ) ≤ 11) (by omega : 0 ≤ m.count 0) (by omega)
      rw [Memory.strokes, Memory.log, strokes_append]
      exact hm.2.append hevent
  have hcell : (n : ℤ) ≤ cellRange := by
    rw [cellRange]
    omega
  have hle : n ≤ fuel := by omega
  have hstart : Filled n 0 (e.setUp m) ∧ OnScreen e (e.setUp m).strokes := by
    refine ⟨filled_setUp e hN ?_, onScreen_setUp he m ?_⟩
    · rw [Memory.moves, hm]
      rfl
    · rw [Memory.strokes, hm]
      exact List.forall_mem_nil _
  obtain ⟨m', hloop, hm'⟩ := doLoop_run (I := fun j m ↦ Filled n j m ∧ OnScreen e m.strokes)
    hbody h1 hcell hle hstart
  refine ⟨m', ?_, hm'⟩
  rw [Watch.hanoiInit_eq, add_comm (n : ℤ)]
  exact hloop

/-- **Everything is drawn on the screen.**  From any memory, with the shipped limit of eight disks,
`n hanoi` comes to its end; every rectangle has some width and height and lies within the screen,
and every drawing loop is entered so that it makes its way, and no other.  What is watched for this
are the words themselves. -/
theorem hanoi_within (e : Machine) (he : e.Screen) (n : ℕ) (h1 : 1 ≤ n) (h8 : n ≤ 8) (ix : List ℤ)
    (m : Memory) :
    ∃ fuel₀, ∀ fuel ≥ fuel₀, ∃ m',
      hanoi e fuel 8 ⟨[(n : ℤ)], ix, { m with trace := [] }⟩ = .ok ⟨[], ix, m'⟩ ∧
      OnScreen e m'.strokes ∧
      (Watched.erase (Draw.hanoi e fuel 8) = hanoi e fuel 8 ∧
        Watched.erase (Turns.hanoiDrawloopUp e fuel) = hanoiDrawloopUp e fuel ∧
        Watched.erase (Turns.hanoiDrawloopDown e fuel) = hanoiDrawloopDown e fuel ∧
        Watched.erase (Turns.hanoiDrawloopLr e fuel) = hanoiDrawloopLr e fuel ∧
        ∀ c ∈ (Draw.hanoi e fuel 8 ⟨[(n : ℤ)], ix, { m with trace := [] }⟩).1,
          Way e fuel c.1 c.2) := by
  refine ⟨enough n, ?_⟩
  intro fuel hge
  have hfuel : cellRange ≤ fuel := cellRange_le hge
  obtain ⟨m₁, hinit, hfilled, hstrokes₁⟩ := hanoiInit_draw he hfuel h1 (by omega) [(n : ℤ)] ix
    (m := { m with hN := n, trace := [] }) rfl rfl
  have htowers₁ : m₁.towers n = start n := by
    rw [Memory.towers, hfilled.moves]
    rfl
  have hshown : Shown e n m₁ := by
    refine ⟨hfilled.board, ?_, hstrokes₁⟩
    intro t x hx
    rw [htowers₁, start] at hx
    split_ifs at hx
    · exact mem_disks.mp hx
    · cases hx
  obtain ⟨m', hsolve, hshown', -⟩ := hanoiSolve_start
    (makes_hanoiDiskMove_draw he hfuel (by omega)) h1 hge ix hshown hfilled.moves
  have hdo : Watched.Does (Way e fuel) (Draw.hanoi e fuel 8)
      ⟨[(n : ℤ)], ix, { m with trace := [] }⟩ ⟨[], ix, m'⟩ := by
    have haccepted : 1 ≤ (n : ℤ) ∧ (n : ℤ) ≤ 8 := by omega
    refine .cons (t := ⟨[-1, (n : ℤ)], ix, { m with trace := [] }⟩) (.plain ?_)
      (.cons (.ifElse_true (by decide) (.cons (.plain ?_) (.cons hsolve .nil))) .nil)
    · rw [words_cons, hanoiValidate_eq, if_pos haccepted]
      rfl
    · simp [eraseScreen, hinit]
  refine ⟨m', ?_, hshown'.strokes, Draw.erase_hanoi .., Turns.erase_hanoiDrawloopUp ..,
    Turns.erase_hanoiDrawloopDown .., Turns.erase_hanoiDrawloopLr .., hdo.calls⟩
  rw [← Draw.erase_hanoi]
  exact hdo.erase

/-- Three disks on a screen of 1024 by 768. -/
theorem hanoi_within_three :
    ∃ fuel₀, ∀ fuel ≥ fuel₀, ∃ m',
      hanoi ⟨1024, 768, 0⟩ fuel 8 ⟨[3], [], ⟨1, 0, 0, 0, 0, 0, 0, 0, 0, fun _ ↦ 255, []⟩⟩ =
        .ok ⟨[], [], m'⟩ ∧
      OnScreen ⟨1024, 768, 0⟩ m'.strokes ∧
      ∀ c ∈ (Draw.hanoi ⟨1024, 768, 0⟩ fuel 8
          ⟨[3], [], ⟨1, 0, 0, 0, 0, 0, 0, 0, 0, fun _ ↦ 255, []⟩⟩).1,
        Way ⟨1024, 768, 0⟩ fuel c.1 c.2 := by
  obtain ⟨fuel₀, h⟩ := hanoi_within ⟨1024, 768, 0⟩ ⟨by decide, by decide, by decide⟩ 3 (by decide)
    (by decide) [] ⟨1, 0, 0, 0, 0, 0, 0, 0, 0, fun _ ↦ 255, []⟩
  refine ⟨fuel₀, ?_⟩
  intro fuel hge
  obtain ⟨m', hrun, hstrokes, -, -, -, -, hway⟩ := h fuel hge
  exact ⟨m', hrun, hstrokes, hway⟩

end Hanoi
end MacOSXInternal
