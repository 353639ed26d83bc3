import MacOSXInternal.ShmIpc.SharedPage

/-!
# Clients that come one after the other

If no client maps the page while another one is at it, the page is a variable: what is read is what
has been written last.

* `SerialStep` is such a step, and `Register` says what the history of a variable is.
* `InOrder` is the invariant: the page holds the last string, or is between it and the next.
* `register_of_serial` is the result.
-/

set_option autoImplicit false

namespace MacOSXInternal
namespace ShmIpc

open Runs

variable {ι : Type} [DecidableEq ι] (S : Setup ι)

/-- The client has mapped the page. -/
def Phase.busy : Phase → Bool
  | .printing _ | .writing _ | .terminating => true
  | .requesting | .waiting | .done => false

/-- A step in which nobody maps the page while another client has mapped it. -/
def SerialStep (s : State ι) (a : Label ι) (t : State ι) : Prop :=
  Step S s a t ∧ ∀ i j, i ≠ j → (s.client i).phase.busy = false → (t.client i).phase.busy = true →
    (s.client j).phase.busy = false

/-- What is left of an argument that does not fit. -/
def Setup.cut (arg : List Byte) : List Byte := arg.take (S.vm_page_size - 1)

/-- What has been written last. -/
def latest (v : List Byte) : List (Event ι) → List Byte
  | [] => v
  | .printed _ _ :: l => latest v l
  | .wrote _ arg :: l => latest (S.cut arg) l

/-- What is printed is what has been written last. -/
def Register (v : List Byte) : List (Event ι) → Prop
  | [] => True
  | .printed _ str :: l => str = v ∧ Register v l
  | .wrote _ arg :: l => Register (S.cut arg) l

/-- How far a client has got, when `v` has been written last. -/
def ClientOk (v : List Byte) (page : ℕ → Byte) (arg : Option (List Byte)) (c : Client) : Prop :=
  match c.phase with
  | .requesting | .waiting => c.printed = []
  | .printing k => c.printed = v.take k ∧ k ≤ v.length ∧ ∀ m < S.vm_page_size, page m = pageOf v m
  | .writing k => k < S.vm_page_size ∧ ∀ a, arg = some a → ∀ m < S.vm_page_size,
      page m = if m < k then pageOf a m else pageOf v m
  | .terminating => ∀ a, arg = some a → ∀ m < S.vm_page_size, page m = pageOf a m
  | .done => True

structure InOrder (s : State ι) : Prop where
  register : Register S greeting s.history
  short : (latest S greeting s.history).length < S.vm_page_size
  zero : 0 ∉ latest S greeting s.history
  alone : ∀ i j, (s.client i).phase.busy → (s.client j).phase.busy → i = j
  clients : ∀ i, ClientOk S (latest S greeting s.history) s.page (S.argument i) (s.client i)
  clean : (∀ i, (s.client i).phase.busy = false) →
    ∀ m < S.vm_page_size, s.page m = pageOf (latest S greeting s.history) m

section
variable {S} {s t : State ι} {i : ι} {v : List Byte} {l : List (Event ι)}

omit [DecidableEq ι] in
theorem latest_printed (str : List Byte) : latest S v (l ++ [.printed i str]) = latest S v l := by
  induction l generalizing v with
  | nil => rfl
  | cons e l ih => cases e <;> exact ih

omit [DecidableEq ι] in
theorem latest_wrote (arg : List Byte) : latest S v (l ++ [.wrote i arg]) = S.cut arg := by
  induction l generalizing v with
  | nil => rfl
  | cons e l ih => cases e <;> exact ih

omit [DecidableEq ι] in
theorem register_printed (h : Register S v l) :
    Register S v (l ++ [.printed i (latest S v l)]) := by
  induction l generalizing v with
  | nil => exact ⟨rfl, trivial⟩
  | cons e l ih =>
    cases e with
    | printed j str => exact ⟨h.1, ih h.2⟩
    | wrote j arg => exact ih h

omit [DecidableEq ι] in
theorem register_wrote (h : Register S v l) (arg : List Byte) :
    Register S v (l ++ [.wrote i arg]) := by
  induction l generalizing v with
  | nil => trivial
  | cons e l ih =>
    cases e with
    | printed j str => exact ⟨h.1, ih h.2⟩
    | wrote j arg => exact ih h

omit [DecidableEq ι] in
/-- A client that has not mapped the page does not care for it. -/
theorem ClientOk.of_not_busy {v' : List Byte} {page page' : ℕ → Byte} {arg : Option (List Byte)}
    {c : Client} (h : ClientOk S v page arg c) (hc : c.phase.busy = false) :
    ClientOk S v' page' arg c := by
  obtain ⟨phase, printed⟩ := c
  cases phase with
  | requesting | waiting | done => exact h
  | printing k | writing k => exact absurd hc nofun
  | terminating => exact absurd hc nofun

/-- **A client goes on** while no other one has mapped the page. -/
theorem InOrder.client (h : InOrder S s) (hothers : ∀ j ≠ i, (s.client j).phase.busy = false)
    (hclient : ∀ j ≠ i, t.client j = s.client j) (hregister : Register S greeting t.history)
    (hshort : (latest S greeting t.history).length < S.vm_page_size)
    (hzero : 0 ∉ latest S greeting t.history)
    (hok : ClientOk S (latest S greeting t.history) t.page (S.argument i) (t.client i))
    (hclean : (t.client i).phase.busy = false →
      ∀ m < S.vm_page_size, t.page m = pageOf (latest S greeting t.history) m) :
    InOrder S t where
  register := hregister
  short := hshort
  zero := hzero
  alone j k hj hk := by
    have honly (j : ι) (hj : (t.client j).phase.busy) : j = i := by
      by_contra hji
      rw [hclient j hji, hothers j hji] at hj
      exact absurd hj nofun
    rw [honly j hj, honly k hk]
  clients j := by
    by_cases hji : j = i
    · rw [hji]
      exact hok
    · rw [hclient j hji]
      exact (h.clients j).of_not_busy (hothers j hji)
  clean hbusy := hclean (hbusy i)

/-- The page, as long as the client only reads it. -/
theorem InOrder.page (h : InOrder S s) (hothers : ∀ j ≠ i, (s.client j).phase.busy = false)
    (hphase : (s.client i).phase.busy = false) {m : ℕ} (hm : m < S.vm_page_size) :
    s.page m = pageOf (latest S greeting s.history) m := by
  refine h.clean (fun j ↦ ?_) m hm
  by_cases hj : j = i
  · rw [hj, hphase]
  · exact hothers j hj

omit [DecidableEq ι] in
/-- While a client is at the page, no other one is. -/
theorem InOrder.others (h : InOrder S s) (hphase : (s.client i).phase.busy) :
    ∀ j ≠ i, (s.client j).phase.busy = false := by
  intro j hj
  rw [← Bool.not_eq_true]
  exact fun hbusy ↦ hj (h.alone j i hbusy hphase)

/-- A client goes on that is not at the page, and does not map it either. -/
theorem InOrder.idle (h : InOrder S s) (hphase : (s.client i).phase.busy = false)
    (hphase' : (t.client i).phase.busy = false) (hclient : ∀ j ≠ i, t.client j = s.client j)
    (hpage : t.page = s.page) (hhistory : t.history = s.history)
    (hok : ClientOk S (latest S greeting s.history) s.page (S.argument i) (t.client i)) :
    InOrder S t := by
  have hbusy (j : ι) : (t.client j).phase.busy = (s.client j).phase.busy := by
    by_cases hj : j = i
    · rw [hj, hphase, hphase']
    · rw [hclient j hj]
  refine ⟨?_, ?_, ?_, fun j k hj hk ↦ ?_, fun j ↦ ?_, fun hall ↦ ?_⟩
  · rw [hhistory]
    exact h.register
  · rw [hhistory]
    exact h.short
  · rw [hhistory]
    exact h.zero
  · exact h.alone j k (hbusy j ▸ hj) (hbusy k ▸ hk)
  · rw [hhistory, hpage]
    by_cases hj : j = i
    · rw [hj]
      exact hok
    · rw [hclient j hj]
      exact h.clients j
  · rw [hpage, hhistory]
    exact h.clean fun j ↦ (hbusy j).symm.trans (hall j)

omit [DecidableEq ι] in
/-- The zero at the end cuts off what does not fit. -/
theorem page_terminate {page : ℕ → Byte} {arg : List Byte}
    (hpage : ∀ m < S.vm_page_size, page m = pageOf arg m) {m : ℕ} (hm : m < S.vm_page_size) :
    Function.update page (S.vm_page_size - 1) 0 m = pageOf (S.cut arg) m := by
  have hlen : (S.cut arg).length ≤ S.vm_page_size - 1 := List.length_take_le ..
  by_cases hlast : m = S.vm_page_size - 1
  · rw [hlast, Function.update_self, pageOf_of_le hlen]
  · rw [Function.update_of_ne hlast, hpage m hm, pageOf, pageOf, Setup.cut,
      List.getD_eq_getElem?_getD, List.getD_eq_getElem?_getD,
      List.getElem?_take_of_lt (by omega)]

/-- **What a client does keeps the order**, when it has waited. -/
theorem InOrder.step {a : Label ι} (h : InOrder S s) (hserial : SerialStep S s a t) :
    InOrder S t := by
  have hroom := S.room
  obtain ⟨hstep, hserial⟩ := hserial
  cases hstep with
  | @send i hphase =>
    have hi := h.clients i
    rw [ClientOk, hphase] at hi
    refine h.idle (i := i) (by rw [hphase]; rfl) ?_ (only_goto ..).others rfl rfl ?_
    · exact congrArg Phase.busy ((goto_phase i).trans (if_pos rfl))
    · simpa [ClientOk, State.goto] using hi
  | serverReceive hserver hreq => exact ⟨h.register, h.short, h.zero, h.alone, h.clients, h.clean⟩
  | serverSend hserver => exact ⟨h.register, h.short, h.zero, h.alone, h.clients, h.clean⟩
  | @map i l r hphase hrep =>
    have hidle : (s.client i).phase.busy = false := by
      rw [hphase]
      rfl
    have hothers (j : ι) (hj : j ≠ i) : (s.client j).phase.busy = false := by
      refine hserial i j (Ne.symm hj) hidle ?_
      exact congrArg Phase.busy ((goto_phase i).trans (if_pos rfl))
    have hi := h.clients i
    rw [ClientOk, hphase] at hi
    refine h.client hothers (fun j hj ↦ Function.update_of_ne hj ..) h.register h.short h.zero ?_ ?_
    · simp only [ClientOk, State.goto, Function.update_self]
      exact ⟨hi, Nat.zero_le _, fun m hm ↦ h.page hothers hidle hm⟩
    · simp [State.goto, Phase.busy]
  | @mapFails i l r hphase hrep =>
    refine h.idle (i := i) (by rw [hphase]; rfl) ?_ (only_goto ..).others rfl rfl ?_
    · exact congrArg Phase.busy ((goto_phase i).trans (if_pos rfl))
    · simp [ClientOk, State.goto]
  | @read i k hphase hk hb =>
    have hothers := h.others (i := i) (by rw [hphase]; rfl)
    have hi := h.clients i
    rw [ClientOk, hphase] at hi
    obtain ⟨hprinted, hle, hpage⟩ := hi
    have hlt : k < (latest S greeting s.history).length := by
      by_contra hge
      rw [hpage k hk, pageOf_of_le (by omega)] at hb
      exact hb rfl
    refine h.client hothers (fun j hj ↦ Function.update_of_ne hj ..) h.register h.short h.zero ?_ ?_
    · simp only [ClientOk, Function.update_self]
      refine ⟨?_, hlt, hpage⟩
      rw [hprinted, hpage k hk, pageOf, List.getD_eq_getElem?_getD, List.getElem?_eq_getElem hlt,
        Option.getD_some, List.take_concat_get']
    · simp [Phase.busy]
  | @readEnd i k hphase hk hb =>
    have hothers := h.others (i := i) (by rw [hphase]; rfl)
    have hi := h.clients i
    rw [ClientOk, hphase] at hi
    obtain ⟨hprinted, hle, hpage⟩ := hi
    have hall : (s.client i).printed = latest S greeting s.history := by
      rw [hprinted, List.take_of_length_le]
      by_contra hlt
      rw [hpage k hk] at hb
      exact pageOf_ne_zero h.zero (by omega) hb
    have hlatest : latest S greeting (s.history ++ [.printed i (s.client i).printed]) =
        latest S greeting s.history := latest_printed _
    refine h.client hothers (fun j hj ↦ Function.update_of_ne hj ..) ?_ ?_ ?_ ?_ ?_
    · rw [hall]
      exact register_printed h.register
    · exact hlatest ▸ h.short
    · exact hlatest ▸ h.zero
    · simp only [hlatest, ClientOk, State.goto, Function.update_self]
      cases S.argument i with
      | none => trivial
      | some arg =>
        refine ⟨by omega, fun a _ m hm ↦ ?_⟩
        rw [if_neg (Nat.not_lt_zero m)]
        exact hpage m hm
    · exact fun _ m hm ↦ hlatest ▸ hpage m hm
  | @store i k arg hphase harg =>
    have hothers := h.others (i := i) (by rw [hphase]; rfl)
    have hi := h.clients i
    rw [ClientOk, hphase] at hi
    have hpage (m : ℕ) (hm : m < S.vm_page_size) :
        Function.update s.page k (pageOf arg k) m =
          if m < k + 1 then pageOf arg m else pageOf (latest S greeting s.history) m := by
      by_cases hmk : m = k
      · rw [hmk, Function.update_self, if_pos (Nat.lt_succ_self k)]
      · rw [Function.update_of_ne hmk, hi.2 arg harg m hm]
        exact if_congr (by omega) rfl rfl
    refine h.client hothers (fun j hj ↦ Function.update_of_ne hj ..) h.register h.short h.zero ?_ ?_
    · simp only [ClientOk, State.goto, Function.update_self, harg]
      by_cases hlt : k + 1 < S.vm_page_size
      · rw [if_pos hlt]
        refine ⟨hlt, ?_⟩
        rintro a ⟨⟩ m hm
        exact hpage m hm
      · rw [if_neg hlt]
        rintro a ⟨⟩ m hm
        rw [hpage m hm, if_pos (by omega)]
    · simp only [State.goto, Function.update_self]
      split_ifs <;> simp [Phase.busy]
  | @terminate i arg hphase harg =>
    have hothers := h.others (i := i) (by rw [hphase]; rfl)
    have hi := h.clients i
    rw [ClientOk, hphase] at hi
    have hlatest : latest S greeting (s.history ++ [.wrote i arg]) = S.cut arg := latest_wrote arg
    have hlen : (S.cut arg).length ≤ S.vm_page_size - 1 := List.length_take_le ..
    refine h.client hothers (fun j hj ↦ Function.update_of_ne hj ..) ?_ ?_ ?_ ?_ ?_
    · exact register_wrote h.register arg
    · simp only [hlatest]
      omega
    · simp only [hlatest]
      exact fun hmem ↦ S.nonzero i arg harg (List.mem_of_mem_take hmem)
    · simp [ClientOk, State.goto]
    · intro _ m hm
      simp only [hlatest]
      exact page_terminate (hi arg harg) hm

omit [DecidableEq ι] in
theorem inOrder_start : InOrder S (start ι) where
  register := trivial
  short := by
    have hlen : greeting.length = 12 := by decide
    have hroom := S.room
    show greeting.length < S.vm_page_size
    omega
  zero := by
    show 0 ∉ greeting
    decide
  alone i j hi _ := by exact absurd hi nofun
  clients i := rfl
  clean _ _ _ := rfl

end

/-- **The page is a variable**, if no client maps it while another one is at it: what each of them
prints is the greeting, or what the last client with an argument has written. -/
theorem register_of_serial {l : List (Label ι)} {s : State ι}
    (hr : Run (SerialStep S) (start ι) l s) : Register S greeting s.history := by
  have hinv : InOrder S s := hr.invariant (fun _ _ _ h hstep ↦ h.step hstep) inOrder_start
  exact hinv.register

/-- A client that has the page to itself. -/
theorem serial_of_alone {i : ι} {s t : State ι} {l : List (Label ι)} (hr : Run (Alone S i) s l t)
    (hothers : ∀ j ≠ i, (s.client j).phase.busy = false) : Run (SerialStep S) s l t := by
  induction hr with
  | nil => exact .nil _
  | @cons s a u _ _ hstep _ ih =>
    refine .cons ⟨hstep.1, fun j k hjk hidle hbusy ↦ ?_⟩
      (ih fun j hj ↦ by rw [hstep.2 j hj]; exact hothers j hj)
    by_cases hj : j = i
    · exact hothers k fun hk ↦ hjk (hj.trans hk.symm)
    · rw [hstep.2 j hj, hidle] at hbusy
      cases hbusy

/-- A client that has printed what it found writes its argument. -/
theorem exists_run_write {S : Setup ι} {i : ι} {s : State ι} {arg : List Byte}
    (hphase : (s.client i).phase = .writing 0) (harg : S.argument i = some arg) :
    ∃ l t, Run (Alone S i) s l t ∧ Only i s t ∧ t.history = s.history ++ [.wrote i arg] ∧
      (t.client i).phase = .done ∧ ∀ m < S.vm_page_size, t.page m = pageOf (S.cut arg) m := by
  obtain ⟨l, t, hrun, honly, hpage, hhistory, hphase'⟩ :=
    exists_run_store hphase harg (Nat.le_refl _)
  rw [if_neg (Nat.lt_irrefl _)] at hphase'
  refine ⟨_, _, hrun.append (.single ⟨.terminate hphase' harg, (only_goto ..).others⟩),
    honly.trans ⟨rfl, rfl, rfl, (only_goto ..).others⟩, ?_, (goto_phase i).trans (if_pos rfl),
    fun m hm ↦ page_terminate hpage hm⟩
  rw [← hhistory]

/-- One client writes, and the next reads that; both have the page to themselves. -/
theorem register_of_serial_two :
    ∃ S : Setup Bool, S.vm_page_size = 4096 ∧ S.argument true = some [0x48, 0x69] ∧
      S.argument false = none ∧ ∃ l s str str',
      Run (SerialStep S) (start Bool) l s ∧
      s.history = [.printed true str, .wrote true [0x48, 0x69], .printed false str'] ∧
      str = greeting ∧ str' = [0x48, 0x69] := by
  have hnonzero : ∀ i arg, (fun i ↦ if i = true then some [0x48, 0x69] else none) i = some arg →
      (0 : Byte) ∉ arg := by
    rintro (_ | _) arg ⟨⟩
    decide
  obtain ⟨S, hsize, htrue, hfalse⟩ : ∃ S : Setup Bool, S.vm_page_size = 4096 ∧
      S.argument true = some [0x48, 0x69] ∧ S.argument false = none :=
    ⟨⟨4096, fun i ↦ if i = true then some [0x48, 0x69] else none, by decide, hnonzero⟩,
      rfl, rfl, rfl⟩
  have hcut : S.cut [0x48, 0x69] = [0x48, 0x69] := List.take_of_length_le (by simp [hsize])
  -- the first client
  obtain ⟨l₁, s₁, str, hrun₁, honly₁, -, hhistory₁, hphase₁⟩ := exists_run_print (S := S)
    (s := start Bool) (i := true) rfl rfl rfl rfl (n := 12) (by omega)
    (fun m hm ↦ pageOf_ne_zero (by decide) (show m < 12 from hm))
    (pageOf_of_le (show greeting.length ≤ 12 by decide))
  rw [htrue, Option.isSome_some, if_pos rfl] at hphase₁
  obtain ⟨l₂, s₂, hrun₂, honly₂, hhistory₂, hphase₂, hpage₂⟩ := exists_run_write hphase₁ htrue
  rw [hcut] at hpage₂
  have honly := honly₁.trans honly₂
  -- the second one
  obtain ⟨l₃, s₃, str', hrun₃, -, -, hhistory₃, -⟩ := exists_run_print (S := S) (i := false)
    honly.server honly.requests honly.replies (by rw [honly.others false (by decide)]; rfl)
    (n := 2) (by omega)
    (fun m hm ↦ by
      rw [hpage₂ m (by omega)]
      exact pageOf_ne_zero (by decide) (show m < 2 from hm))
    (by rw [hpage₂ 2 (by omega)]; exact pageOf_of_le (Nat.le_refl 2))
  have hrun := (serial_of_alone S hrun₁ fun _ _ ↦ rfl).append <|
    (serial_of_alone S hrun₂ fun j hj ↦ by rw [honly₁.others j hj]; rfl).append <|
    serial_of_alone S hrun₃ fun j hj ↦ by
      rw [Bool.eq_true_of_not_eq_false hj, hphase₂]
      rfl
  have hhistory : s₃.history =
      [.printed true str, .wrote true [0x48, 0x69], .printed false str'] := by
    rw [hhistory₃, hhistory₂, hhistory₁]
    rfl
  have hregister := register_of_serial S hrun
  rw [hhistory] at hregister
  exact ⟨S, hsize, htrue, hfalse, _, s₃, str, str', hrun, hhistory, hregister.1,
    hregister.2.1.trans hcut⟩

end ShmIpc
end MacOSXInternal
