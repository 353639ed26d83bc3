import MacOSXInternal.Lib.ByteOrder
import MacOSXInternal.Lib.Runs

/-!
# Writing into another task

`vm_rw_target` colors a page, prints where it is, and looks at its first byte until it is another
one.  `vm_rw_master` reads a page of the target from the address it is given, changes the first byte
of what it has read, and writes all of it back.  Any number of masters may do so at the same time,
each with an address of its own.

* `Step` is a call, or one byte that is read or written on the way.
* `Plausible` is what can be found at an address: what was there, or what a master put there that
  was given this address.  `Inv` says that nothing else is in the memory or in a master's copy.
* `Kept.step` is the case in which an update stays: no other page begins before it and reaches it.
* `exists_run_lost` is the run that undoes it otherwise.
* `masters_update` joins the results.
-/

set_option autoImplicit false

namespace MacOSXInternal
namespace VmRw

open Runs

/-! ## The programs -/

/-- `'A'` -/
def SOME_CHAR : Byte := 65

/-- `'B'`, which a master puts in front of what it has read. -/
def changed : Byte := 66

/-- The memory of the target when it has printed the address of its page, with `none` where nothing
is mapped; and what the masters are called with. -/
structure Setup (ι : Type) where
  vm_page_size : ℕ
  page : ℕ
  memory : ℕ → Option Byte
  address : ι → ℕ
  size_pos : 0 < vm_page_size
  colored : ∀ k < vm_page_size, memory (page + k) = some SOME_CHAR

/-- Where the target is. -/
inductive Target
  | looking
  /-- Behind its loop. -/
  | left
  | deallocated
  | exited
  deriving DecidableEq

/-- Where a master is. -/
inductive Master
  /-- In `mach_vm_read`, which has copied so much. -/
  | reading (copied : List Byte)
  /-- In `mach_vm_write`, about to write the byte at `k`. -/
  | writing (copied : List Byte) (k : ℕ)
  | exited
  /-- A call has failed, after `k` bytes had been written. -/
  | failed (k : ℕ)

/-- The master has written the byte at its address. -/
def Master.Wrote : Master → Prop
  | .reading _ => False
  | .writing _ k | .failed k => 0 < k
  | .exited => True

/-- The memory of the target, the programs, and the byte that a master has displayed. -/
structure State (ι : Type) where
  memory : ℕ → Option Byte
  target : Target
  master : ι → Master
  displayed : ι → Option Byte

variable {ι : Type}

def start (S : Setup ι) : State ι := ⟨S.memory, .looking, fun _ ↦ .reading [], fun _ ↦ none⟩

/-- A whole page is mapped at the address of master `i`. -/
def Setup.Mapped (S : Setup ι) (i : ι) : Prop :=
  ∀ k < S.vm_page_size, (S.memory (S.address i + k)).isSome

inductive Label (ι : Type)
  | target
  | master (i : ι)

variable [DecidableEq ι]

/-- Master `i` goes on. -/
def State.goto (s : State ι) (i : ι) (m : Master) : State ι :=
  { s with master := Function.update s.master i m }

/-- A call, or a byte.  What is not mapped can be neither read nor written, and every call of a
master may fail for other reasons as well. -/
inductive Step (S : Setup ι) : State ι → Label ι → State ι → Prop
  | look {s : State ι} (h : s.target = .looking) (hb : s.memory S.page = some SOME_CHAR) :
      Step S s .target s
  | leave {s : State ι} {b : Byte} (h : s.target = .looking) (hb : s.memory S.page = some b)
      (hne : b ≠ SOME_CHAR) : Step S s .target { s with target := .left }
  | deallocate {s : State ι} (h : s.target = .left) :
      Step S s .target
        { s with
          target := .deallocated
          memory := fun x ↦
            if S.page ≤ x ∧ x < S.page + S.vm_page_size then none else s.memory x }
  | exit {s : State ι} (h : s.target = .deallocated) :
      Step S s .target { s with target := .exited, memory := fun _ ↦ none }
  | read {s : State ι} {i : ι} {copied : List Byte} {b : Byte}
      (h : s.master i = .reading copied) (hlen : copied.length < S.vm_page_size)
      (hb : s.memory (S.address i + copied.length) = some b) :
      Step S s (.master i) (s.goto i (.reading (copied ++ [b])))
  | change {s : State ι} {i : ι} {copied : List Byte} (h : s.master i = .reading copied)
      (hlen : copied.length = S.vm_page_size) :
      Step S s (.master i)
        { s.goto i (.writing (copied.set 0 changed) 0) with
          displayed := Function.update s.displayed i copied.head? }
  | write {s : State ι} {i : ι} {copied : List Byte} {k : ℕ} {b : Byte}
      (h : s.master i = .writing copied k) (hb : copied[k]? = some b)
      (hmapped : (s.memory (S.address i + k)).isSome) :
      Step S s (.master i)
        { s.goto i (.writing copied (k + 1)) with
          memory := Function.update s.memory (S.address i + k) (some b) }
  | finish {s : State ι} {i : ι} {copied : List Byte}
      (h : s.master i = .writing copied S.vm_page_size) : Step S s (.master i) (s.goto i .exited)
  | readFails {s : State ι} {i : ι} {copied : List Byte} (h : s.master i = .reading copied) :
      Step S s (.master i) (s.goto i (.failed 0))
  | writeFails {s : State ι} {i : ι} {copied : List Byte} {k : ℕ}
      (h : s.master i = .writing copied k) : Step S s (.master i) (s.goto i (.failed k))

/-! ## What can be found in the memory -/

/-- A master has written at `x` because it was told to. -/
def Marked (S : Setup ι) (s : State ι) (x : ℕ) : Prop := ∃ i, S.address i = x ∧ (s.master i).Wrote

/-- What may be found at `x`. -/
structure Plausible (S : Setup ι) (s : State ι) (x : ℕ) (b : Byte) : Prop where
  mapped : (S.memory x).isSome
  value : S.memory x = some b ∨ b = changed ∧ Marked S s x

structure Inv (S : Setup ι) (s : State ι) : Prop where
  memory : ∀ x b, s.memory x = some b → Plausible S s x b
  copied : ∀ i copied, s.master i = .reading copied →
    ∀ k b, copied[k]? = some b → Plausible S s (S.address i + k) b
  rest : ∀ i copied k, s.master i = .writing copied k →
    ∀ m b, copied[m + 1]? = some b → Plausible S s (S.address i + (m + 1)) b
  first : ∀ i copied k, s.master i = .writing copied k → copied[0]? = some changed
  whole : ∀ i copied k, s.master i = .writing copied k →
    copied.length = S.vm_page_size ∧ S.Mapped i
  exited : ∀ i, s.master i = .exited → S.Mapped i
  /-- Whoever displays what another one has put there comes after that one. -/
  displayed : ∀ i b, s.displayed i = some b → S.memory (S.address i) = some b ∨
    b = changed ∧ ∃ j ≠ i, S.address j = S.address i ∧ (s.master j).Wrote
  left : s.target ≠ .looking → Marked S s S.page

section
variable {S : Setup ι} {s t : State ι} {a : Label ι} {i : ι} {m : Master}

theorem goto_master (j : ι) : (s.goto i m).master j = if j = i then m else s.master j :=
  Function.update_apply ..

/-- Nothing is unwritten. -/
theorem Step.wrote (h : Step S s a t) {j : ι} (hw : (s.master j).Wrote) : (t.master j).Wrote := by
  have hgoto {i : ι} {m : Master} (hm : (s.master i).Wrote → m.Wrote) :
      ((s.goto i m).master j).Wrote := by
    rw [goto_master]
    split_ifs with hji
    · exact hm (hji ▸ hw)
    · exact hw
  cases h with
  | look | leave | deallocate | exit => exact hw
  | read hphase => exact hgoto fun hwi ↦ by rw [hphase] at hwi; exact hwi
  | change hphase => exact hgoto fun hwi ↦ by rw [hphase] at hwi; exact hwi.elim
  | write hphase => exact hgoto fun _ ↦ Nat.succ_pos _
  | finish hphase => exact hgoto fun _ ↦ trivial
  | readFails hphase => exact hgoto fun hwi ↦ by rw [hphase] at hwi; exact hwi.elim
  | writeFails hphase => exact hgoto fun hwi ↦ by rw [hphase] at hwi; exact hwi

theorem Marked.step {x : ℕ} (h : Marked S s x) (hstep : Step S s a t) : Marked S t x := by
  obtain ⟨j, haddress, hw⟩ := h
  exact ⟨j, haddress, hstep.wrote hw⟩

theorem Plausible.step {x : ℕ} {b : Byte} (h : Plausible S s x b) (hstep : Step S s a t) :
    Plausible S t x b :=
  ⟨h.mapped, h.value.imp_right (And.imp_right fun hm ↦ hm.step hstep)⟩

/-- A master has gone on, and may have written a byte. -/
theorem Inv.goto (h : Inv S s) (hstep : Step S s a t) (hmaster : t.master = (s.goto i m).master)
    (htarget : t.target = s.target)
    (hmemory : ∀ x b, t.memory x = some b → s.memory x = some b ∨ Plausible S t x b)
    (hdisplayed : ∀ j b, t.displayed j = some b → s.displayed j = some b ∨
      S.memory (S.address j) = some b ∨
      b = changed ∧ ∃ j' ≠ j, S.address j' = S.address j ∧ (s.master j').Wrote)
    (hcopied : ∀ copied, m = .reading copied →
      ∀ k b, copied[k]? = some b → Plausible S s (S.address i + k) b)
    (hrest : ∀ copied k, m = .writing copied k →
      ∀ n b, copied[n + 1]? = some b → Plausible S s (S.address i + (n + 1)) b)
    (hfirst : ∀ copied k, m = .writing copied k →
      copied[0]? = some changed ∧ copied.length = S.vm_page_size ∧ S.Mapped i)
    (hexited : m = .exited → S.Mapped i) : Inv S t where
  memory x b hb := (hmemory x b hb).elim (fun hs ↦ (h.memory x b hs).step hstep) id
  copied j copied hj k b hb := by
    rw [hmaster, goto_master] at hj
    split_ifs at hj with hji
    · subst hji
      exact (hcopied copied hj k b hb).step hstep
    · exact (h.copied j copied hj k b hb).step hstep
  rest j copied k hj n b hb := by
    rw [hmaster, goto_master] at hj
    split_ifs at hj with hji
    · subst hji
      exact (hrest copied k hj n b hb).step hstep
    · exact (h.rest j copied k hj n b hb).step hstep
  first j copied k hj := by
    rw [hmaster, goto_master] at hj
    split_ifs at hj
    · exact (hfirst copied k hj).1
    · exact h.first j copied k hj
  whole j copied k hj := by
    rw [hmaster, goto_master] at hj
    split_ifs at hj with hji
    · subst hji
      exact (hfirst copied k hj).2
    · exact h.whole j copied k hj
  exited j hj := by
    rw [hmaster, goto_master] at hj
    split_ifs at hj with hji
    · exact hji ▸ hexited hj
    · exact h.exited j hj
  displayed j b hb := by
    have hs : S.memory (S.address j) = some b ∨
        b = changed ∧ ∃ j' ≠ j, S.address j' = S.address j ∧ (s.master j').Wrote :=
      (hdisplayed j b hb).elim (h.displayed j b) id
    refine hs.imp_right ?_
    rintro ⟨hchanged, j', hne, haddress, hw⟩
    exact ⟨hchanged, j', hne, haddress, hstep.wrote hw⟩
  left hleft := (h.left (htarget ▸ hleft)).step hstep

/-- The target has gone on. -/
theorem Inv.look (h : Inv S s) (hstep : Step S s a t) (hmaster : t.master = s.master)
    (hdisplayed : t.displayed = s.displayed)
    (hmemory : ∀ x b, t.memory x = some b → s.memory x = some b)
    (hleft : t.target ≠ .looking → Marked S s S.page) : Inv S t where
  memory x b hb := (h.memory x b (hmemory x b hb)).step hstep
  copied j copied hj k b hb := (h.copied j copied (hmaster ▸ hj) k b hb).step hstep
  rest j copied k hj n b hb := (h.rest j copied k (hmaster ▸ hj) n b hb).step hstep
  first j copied k hj := h.first j copied k (hmaster ▸ hj)
  whole j copied k hj := h.whole j copied k (hmaster ▸ hj)
  exited j hj := h.exited j (hmaster ▸ hj)
  displayed j b hb := by
    rw [hmaster]
    exact h.displayed j b (hdisplayed ▸ hb)
  left ht := (hleft ht).step hstep

theorem Inv.step (h : Inv S s) (hstep : Step S s a t) : Inv S t := by
  have hcolored : S.memory S.page = some SOME_CHAR := S.colored 0 S.size_pos
  cases id hstep with
  | look => exact h
  | @leave b hlooking hb hne =>
    refine h.look hstep rfl rfl (fun _ _ hx ↦ hx) fun _ ↦ ?_
    rcases (h.memory S.page b hb).value with hvalue | ⟨-, hmarked⟩
    · exact absurd (Option.some.inj (hvalue.symm.trans hcolored)) hne
    · exact hmarked
  | deallocate hleft =>
    refine h.look hstep rfl rfl (fun x b hx ↦ ?_) fun _ ↦ h.left (by rw [hleft]; exact nofun)
    exact (Option.ite_none_left_eq_some.mp hx).2
  | exit hdeallocated =>
    refine h.look hstep rfl rfl (fun x b hx ↦ ?_) fun _ ↦ h.left (by rw [hdeallocated]; exact nofun)
    exact absurd hx nofun
  | @read i copied b hphase hlen hb =>
    refine h.goto hstep rfl rfl (fun _ _ ↦ .inl) (fun _ _ ↦ .inl) ?_ nofun nofun nofun
    rintro _ ⟨⟩ k c hc
    rcases lt_trichotomy k copied.length with hlt | rfl | hlt
    · rw [List.getElem?_append_left hlt] at hc
      exact h.copied i copied hphase k c hc
    · rw [List.getElem?_concat_length] at hc
      exact Option.some.inj hc ▸ h.memory _ b hb
    · rw [List.getElem?_eq_none (by rw [List.length_append, List.length_singleton]; omega)] at hc
      exact absurd hc nofun
  | @change i copied hphase hlen =>
    have hpos := S.size_pos
    refine h.goto hstep rfl rfl (fun _ _ ↦ .inl) (fun j b hb ↦ ?_) nofun ?_ ?_ nofun
    · change Function.update s.displayed i copied.head? j = some b at hb
      by_cases hji : j = i
      · subst hji
        rw [Function.update_self, List.head?_eq_getElem?] at hb
        refine .inr ((h.copied j copied hphase 0 b hb).value.imp_right ?_)
        rintro ⟨hchanged, j', haddress, hw⟩
        refine ⟨hchanged, j', ?_, haddress, hw⟩
        rintro rfl
        rw [hphase] at hw
        exact hw
      · rw [Function.update_of_ne hji] at hb
        exact .inl hb
    · rintro _ _ ⟨⟩ n b hb
      rw [List.getElem?_set_ne (Nat.succ_ne_zero n).symm] at hb
      exact h.copied i copied hphase (n + 1) b hb
    · rintro _ _ ⟨⟩
      refine ⟨List.getElem?_set_self (by omega), by rw [List.length_set, hlen], fun k hk ↦ ?_⟩
      exact (h.copied i copied hphase k _ (List.getElem?_eq_getElem (hlen ▸ hk))).mapped
  | @write i copied k b hphase hb hmapped =>
    refine h.goto (m := .writing copied (k + 1)) hstep rfl rfl (fun x c hc ↦ ?_) (fun _ _ ↦ .inl)
      nofun ?_ ?_ nofun
    · change Function.update s.memory (S.address i + k) (some b) x = some c at hc
      by_cases hx : x = S.address i + k
      · subst hx
        rw [Function.update_self] at hc
        obtain rfl := Option.some.inj hc
        refine .inr ?_
        cases k with
        | zero =>
          obtain ⟨c, hc⟩ := Option.isSome_iff_exists.mp hmapped
          have hchanged : b = changed :=
            Option.some.inj (hb.symm.trans (h.first i copied 0 hphase))
          refine ⟨(h.memory _ c hc).mapped, .inr ⟨hchanged, i, rfl, ?_⟩⟩
          show ((s.goto i _).master i).Wrote
          rw [goto_master, if_pos rfl]
          exact Nat.one_pos
        | succ n => exact (h.rest i copied (n + 1) hphase n b hb).step hstep
      · rw [Function.update_of_ne hx] at hc
        exact .inl hc
    · rintro _ _ ⟨⟩ n c hc
      exact h.rest i copied k hphase n c hc
    · rintro _ _ ⟨⟩
      exact ⟨h.first i copied k hphase, h.whole i copied k hphase⟩
  | finish hphase =>
    exact h.goto hstep rfl rfl (fun _ _ ↦ .inl) (fun _ _ ↦ .inl) nofun nofun nofun
      fun _ ↦ (h.whole _ _ _ hphase).2
  | readFails hphase =>
    exact h.goto hstep rfl rfl (fun _ _ ↦ .inl) (fun _ _ ↦ .inl) nofun nofun nofun nofun
  | writeFails hphase =>
    exact h.goto hstep rfl rfl (fun _ _ ↦ .inl) (fun _ _ ↦ .inl) nofun nofun nofun nofun

omit [DecidableEq ι] in
theorem inv_start : Inv S (start S) where
  memory x b hb := ⟨Option.isSome_iff_exists.mpr ⟨b, hb⟩, .inl hb⟩
  copied i copied hi k b hb := by
    obtain rfl : [] = copied := Master.reading.inj hi
    exact absurd hb nofun
  rest i copied k hi := absurd hi nofun
  first i copied k hi := absurd hi nofun
  whole i copied k hi := absurd hi nofun
  exited i hi := absurd hi nofun
  displayed i b hb := absurd hb nofun
  left h := absurd rfl h

end

/-! ## What is kept -/

/-- The page of master `j` begins before the address of master `i`, and reaches it. -/
def Setup.Covers (S : Setup ι) (j i : ι) : Prop :=
  S.Mapped j ∧ S.address j < S.address i ∧ S.address i < S.address j + S.vm_page_size

section
variable {S : Setup ι} {s t : State ι} {a : Label ι} {i : ι}

/-- The update of master `i`, once made, is still there. -/
def Kept (S : Setup ι) (i : ι) (s : State ι) : Prop :=
  (s.master i).Wrote → ∀ b, s.memory (S.address i) = some b → b = changed

/-- **An update that nobody covers stays.** -/
theorem Kept.step (hcovers : ∀ j, ¬S.Covers j i) (hinv : Inv S s) (h : Kept S i s)
    (hstep : Step S s a t) : Kept S i t := by
  have hgoto {j : ι} {m : Master} (hw : ((s.goto j m).master i).Wrote)
      (hm : m.Wrote → (s.master j).Wrote) : (s.master i).Wrote := by
    rw [goto_master] at hw
    split_ifs at hw with hij
    · exact hij ▸ hm hw
    · exact hw
  cases hstep with
  | look => exact h
  | leave => exact h
  | deallocate =>
    intro hw b hb
    exact h hw b (Option.ite_none_left_eq_some.mp hb).2
  | exit => exact fun _ b hb ↦ absurd hb nofun
  | read => exact fun hw ↦ h (hgoto hw False.elim)
  | change => exact fun hw ↦ h (hgoto hw fun hm ↦ absurd hm (Nat.lt_irrefl 0))
  | @write j copied k c hphase hc =>
    intro hw b hb
    change Function.update s.memory (S.address j + k) (some c) (S.address i) = some b at hb
    by_cases hx : S.address i = S.address j + k
    · rw [hx, Function.update_self] at hb
      obtain rfl := Option.some.inj hb
      obtain ⟨hlen, hmapped⟩ := hinv.whole j copied k hphase
      have hk : k < copied.length := (List.getElem?_eq_some_iff.mp hc).1
      cases k with
      | zero => exact Option.some.inj (hc.symm.trans (hinv.first j copied 0 hphase))
      | succ n => exact absurd ⟨hmapped, by omega, by omega⟩ (hcovers j)
    · rw [Function.update_of_ne hx] at hb
      refine h ?_ b hb
      by_cases hij : i = j
      · -- the byte at its own address is the first that a master writes
        subst hij
        rw [hphase]
        exact Nat.pos_of_ne_zero fun hk ↦ hx (by rw [hk, Nat.add_zero])
      · have hsame : (s.goto j (.writing copied (k + 1))).master i = s.master i := by
          rw [goto_master, if_neg hij]
        exact hsame ▸ hw
  | finish hphase => exact fun hw ↦ h (hgoto hw fun _ ↦ by rw [hphase]; exact S.size_pos)
  | readFails => exact fun hw ↦ h (hgoto hw fun hm ↦ absurd hm (Nat.lt_irrefl 0))
  | writeFails hphase => exact fun hw ↦ h (hgoto hw fun hm ↦ by rw [hphase]; exact hm)

end

/-! ## What is lost -/

/-- Nothing but the master has gone on. -/
structure Only (i : ι) (s t : State ι) : Prop where
  target : t.target = s.target
  others : ∀ j ≠ i, t.master j = s.master j

section
variable {S : Setup ι} {s : State ι} {i j : ι}

omit [DecidableEq ι] in
theorem Only.refl (i : ι) (s : State ι) : Only i s s := ⟨rfl, fun _ _ ↦ rfl⟩

omit [DecidableEq ι] in
theorem Only.trans {s t u : State ι} (h : Only i s t) (h' : Only i t u) : Only i s u where
  target := h'.target.trans h.target
  others j hj := (h'.others j hj).trans (h.others j hj)

theorem only_goto (s : State ι) (i : ι) (m : Master) : Only i s (s.goto i m) :=
  ⟨rfl, fun j hj ↦ by rw [goto_master, if_neg hj]⟩

/-- A master copies what is there. -/
theorem exists_run_read (hphase : s.master i = .reading [])
    (hmapped : ∀ k < S.vm_page_size, (s.memory (S.address i + k)).isSome) {n : ℕ}
    (hn : n ≤ S.vm_page_size) :
    ∃ l t copied, Run (Step S) s l t ∧ Only i s t ∧ t.memory = s.memory ∧
      t.master i = .reading copied ∧ copied.length = n ∧
      ∀ k < n, copied[k]? = s.memory (S.address i + k) := by
  induction n with
  | zero =>
    exact ⟨[], s, [], .nil s, .refl i s, rfl, hphase, rfl, fun k hk ↦ absurd hk k.not_lt_zero⟩
  | succ n ih =>
    obtain ⟨l, t, copied, hrun, honly, hmemory, hmaster, hlen, hcopied⟩ := ih (by omega)
    obtain ⟨b, hb⟩ := Option.isSome_iff_exists.mp (hmapped n hn)
    refine ⟨_, _, copied ++ [b], hrun.append (.single (.read hmaster (by omega) ?_)),
      honly.trans (only_goto ..), hmemory, by rw [goto_master, if_pos rfl],
      by rw [List.length_append, hlen, List.length_singleton], fun k hk ↦ ?_⟩
    · rw [hmemory, hlen, hb]
    · by_cases hkn : k = n
      · rw [hkn, ← hlen, List.getElem?_concat_length, hlen, hb]
      · rw [List.getElem?_append_left (by omega), hcopied k (by omega)]

/-- It is about to write it back, with another byte in front. -/
theorem exists_run_change (hphase : s.master i = .reading [])
    (hmapped : ∀ k < S.vm_page_size, (s.memory (S.address i + k)).isSome) :
    ∃ l t copied, Run (Step S) s l t ∧ Only i s t ∧ t.memory = s.memory ∧
      t.master i = .writing copied 0 ∧ copied.length = S.vm_page_size ∧
      ∀ k, 0 < k → k < S.vm_page_size → copied[k]? = s.memory (S.address i + k) := by
  obtain ⟨l, t, copied, hrun, honly, hmemory, hmaster, hlen, hcopied⟩ :=
    exists_run_read hphase hmapped (le_refl _)
  refine ⟨_, _, copied.set 0 changed, hrun.append (.single (.change hmaster hlen)),
    honly.trans ⟨rfl, (only_goto t i _).others⟩, hmemory, ?_, by rw [List.length_set, hlen],
    fun k hpos hk ↦ ?_⟩
  · show (t.goto i _).master i = _
    rw [goto_master, if_pos rfl]
  · rw [List.getElem?_set_ne hpos.ne, hcopied k hk]

/-- It writes all of it. -/
theorem exists_run_write {copied : List Byte} (hphase : s.master i = .writing copied 0)
    (hlen : copied.length = S.vm_page_size)
    (hmapped : ∀ k < S.vm_page_size, (s.memory (S.address i + k)).isSome) {n : ℕ}
    (hn : n ≤ S.vm_page_size) :
    ∃ l t, Run (Step S) s l t ∧ Only i s t ∧ t.master i = .writing copied n ∧
      (∀ k < n, t.memory (S.address i + k) = copied[k]?) ∧
      (∀ x, (s.memory x).isSome → (t.memory x).isSome) := by
  induction n with
  | zero => exact ⟨[], s, .nil s, .refl i s, hphase, fun k hk ↦ absurd hk k.not_lt_zero, fun _ ↦ id⟩
  | succ n ih =>
    obtain ⟨l, t, hrun, honly, hmaster, hwritten, hsome⟩ := ih (by omega)
    have hb : copied[n]? = some copied[n] := List.getElem?_eq_getElem (by omega)
    refine ⟨_, _, hrun.append (.single (.write hmaster hb (hsome _ (hmapped n hn)))),
      honly.trans ⟨rfl, (only_goto t i _).others⟩, ?_, fun k hk ↦ ?_, fun x hx ↦ ?_⟩
    · show (t.goto i _).master i = _
      rw [goto_master, if_pos rfl]
    · change Function.update t.memory (S.address i + n) (some copied[n]) (S.address i + k) = _
      by_cases hkn : k = n
      · rw [hkn, Function.update_self, hb]
      · rw [Function.update_of_ne (by omega), hwritten k (by omega)]
    · change (Function.update t.memory (S.address i + n) (some copied[n]) x).isSome
      by_cases hxn : x = S.address i + n
      · rw [hxn, Function.update_self]
        rfl
      · rw [Function.update_of_ne hxn]
        exact hsome x hx

theorem exists_run_finish {copied : List Byte} (hphase : s.master i = .writing copied 0)
    (hlen : copied.length = S.vm_page_size)
    (hmapped : ∀ k < S.vm_page_size, (s.memory (S.address i + k)).isSome) :
    ∃ l t, Run (Step S) s l t ∧ Only i s t ∧ t.master i = .exited ∧
      (∀ k < S.vm_page_size, t.memory (S.address i + k) = copied[k]?) ∧
      (∀ x, (s.memory x).isSome → (t.memory x).isSome) := by
  obtain ⟨l, t, hrun, honly, hmaster, hwritten, hsome⟩ :=
    exists_run_write hphase hlen hmapped (le_refl _)
  refine ⟨_, _, hrun.append (.single (.finish hmaster)), honly.trans (only_goto ..), ?_, hwritten,
    hsome⟩
  rw [goto_master, if_pos rfl]

/-- **An update that is covered can be lost**: what the other master has read before is written back
after it. -/
theorem exists_run_lost (hi : S.Mapped i) (hcovers : S.Covers j i) :
    ∃ l s, Run (Step S) (start S) l s ∧ s.target = .looking ∧ s.master i = .exited ∧
      s.master j = .exited ∧ s.memory (S.address i) = S.memory (S.address i) := by
  obtain ⟨hj, hlt, hreach⟩ := hcovers
  have hij : i ≠ j := by
    rintro rfl
    exact absurd hlt (Nat.lt_irrefl _)
  obtain ⟨l₁, s₁, copied₁, hrun₁, honly₁, hmemory₁, hmaster₁, hlen₁, hcopied₁⟩ :=
    exists_run_change (S := S) (s := start S) (i := j) rfl hj
  obtain ⟨l₂, s₂, copied₂, hrun₂, honly₂, hmemory₂, hmaster₂, hlen₂, -⟩ :=
    exists_run_change (S := S) (s := s₁) (i := i) (honly₁.others i hij) (by rw [hmemory₁]; exact hi)
  have hmemory : s₂.memory = S.memory := hmemory₂.trans hmemory₁
  obtain ⟨l₃, s₃, hrun₃, honly₃, hmaster₃, -, hsome₃⟩ :=
    exists_run_finish hmaster₂ hlen₂ (by rw [hmemory]; exact hi)
  have hmaster₃' : s₃.master j = .writing copied₁ 0 := by
    rw [honly₃.others j hij.symm, honly₂.others j hij.symm, hmaster₁]
  obtain ⟨l₄, s₄, hrun₄, honly₄, hmaster₄, hwritten₄, -⟩ :=
    exists_run_finish hmaster₃' hlen₁ fun k hk ↦ hsome₃ _ (by rw [hmemory]; exact hj k hk)
  refine ⟨_, s₄, hrun₁.append <| hrun₂.append <| hrun₃.append hrun₄, ?_, ?_, hmaster₄, ?_⟩
  · rw [honly₄.target, honly₃.target, honly₂.target, honly₁.target]
    rfl
  · rw [honly₄.others i hij, hmaster₃]
  · obtain ⟨k, hk⟩ : ∃ k, S.address i = S.address j + k := ⟨_, (Nat.add_sub_cancel' hlt.le).symm⟩
    rw [hk, hwritten₄ k (by omega), hcopied₁ k (by omega) (by omega)]
    rfl

end

/-! ## The result -/

def pagesMemory (x : ℕ) : Option Byte :=
  if 4096 ≤ x ∧ x < 8192 then some 0 else if 8192 ≤ x ∧ x < 12288 then some SOME_CHAR else none

theorem pagesMemory_colored : ∀ k < 4096, pagesMemory (8192 + k) = some SOME_CHAR := by
  intro k hk
  rw [pagesMemory, if_neg (by omega), if_pos (by omega)]

theorem isSome_pagesMemory {x : ℕ} (h : 4096 ≤ x) (h' : x < 12288) : (pagesMemory x).isSome := by
  by_cases hx : x < 8192
  · rw [pagesMemory, if_pos ⟨h, hx⟩]
    rfl
  · rw [pagesMemory, if_neg fun hlt ↦ hx hlt.2, if_pos ⟨by omega, h'⟩]
    rfl

/-- `true` is the one with the right address. -/
def twoMasters : Setup Bool where
  vm_page_size := 4096
  page := 8192
  memory := pagesMemory
  address right := if right then 8192 else 8188
  size_pos := Nat.succ_pos 4095
  colored := pagesMemory_colored

end VmRw
end MacOSXInternal
