import MacOSXInternal.Lib.ByteOrder
import MacOSXInternal.Lib.Runs

/-!
# The shared page

The server of `shm_ipc_server.c` puts a greeting into a page and gives every client that asks the
same memory object.  A client of `shm_ipc_client.c` maps it, prints what is there up to the first
zero, and, if it has an argument, copies that over it.  Nothing keeps two clients apart.

* `Step` is a call of `mach_msg`, or one byte that a client reads or stores.
* `Ended` is the invariant by which nobody reads behind the page, if the arguments are short.
* `overrun_of_long` is the run that goes wrong otherwise: `strncpy` does not end a string that fills
  the page, and until its writer has done so itself, another client finds no end.
* `no_overrun_iff` joins the two.
-/

set_option autoImplicit false

namespace MacOSXInternal
namespace ShmIpc

open Runs

/-! ## The programs -/

/-- `"Hello, Mach!"` -/
def greeting : List Byte := "Hello, Mach!".toList.map fun c ↦ BitVec.ofNat 8 c.toNat

/-- The size of a page, and the arguments of the clients that have one. -/
structure Setup (ι : Type) where
  vm_page_size : ℕ
  argument : ι → Option (List Byte)
  room : 13 ≤ vm_page_size
  nonzero : ∀ i arg, argument i = some arg → 0 ∉ arg

/-- What a client is about to do. -/
inductive Phase
  | requesting
  | waiting
  /-- To read the byte at `k`, in `printf`. -/
  | printing (k : ℕ)
  /-- To store the byte at `k`, in `strncpy`. -/
  | writing (k : ℕ)
  /-- To store the zero at the end of the page. -/
  | terminating
  | done
  deriving DecidableEq, Repr

structure Client where
  phase : Phase
  printed : List Byte
  deriving DecidableEq, Repr

/-- What a client has printed, or written. -/
inductive Event (ι : Type)
  | printed (i : ι) (str : List Byte)
  | wrote (i : ι) (str : List Byte)

/-- The page, byte by byte; whom the server is about to answer; the messages on their way to the
server and to the clients; the clients, and what they have done. -/
structure State (ι : Type) where
  page : ℕ → Byte
  server : Option ι
  requests : List ι
  replies : List ι
  client : ι → Client
  history : List (Event ι)

variable {ι : Type}

/-- A string and zeros. -/
def pageOf (str : List Byte) : ℕ → Byte := fun k ↦ str.getD k 0

theorem pageOf_of_le {str : List Byte} {k : ℕ} (h : str.length ≤ k) : pageOf str k = 0 := by
  simp [pageOf, h]

/-- When the server is ready. -/
def start (ι : Type) : State ι := ⟨pageOf greeting, none, [], [], fun _ ↦ ⟨.requesting, []⟩, []⟩

inductive Label (ι : Type)
  | server
  | client (i : ι)

variable [DecidableEq ι]

/-- Client `i` goes on to another phase. -/
def State.goto (s : State ι) (i : ι) (phase : Phase) : State ι :=
  { s with client := Function.update s.client i { s.client i with phase := phase } }

/-- A call of `mach_msg`, which delivers the messages in any order, or one byte. -/
inductive Step (S : Setup ι) : State ι → Label ι → State ι → Prop
  | send {s : State ι} {i : ι} (h : (s.client i).phase = .requesting) :
      Step S s (.client i) { s.goto i .waiting with requests := s.requests ++ [i] }
  | serverReceive {s : State ι} {i : ι} {l r : List ι} (h : s.server = none)
      (hreq : s.requests = l ++ i :: r) :
      Step S s .server { s with server := some i, requests := l ++ r }
  | serverSend {s : State ι} {i : ι} (h : s.server = some i) :
      Step S s .server { s with server := none, replies := s.replies ++ [i] }
  | map {s : State ι} {i : ι} {l r : List ι} (h : (s.client i).phase = .waiting)
      (hrep : s.replies = l ++ i :: r) :
      Step S s (.client i) { s.goto i (.printing 0) with replies := l ++ r }
  | mapFails {s : State ι} {i : ι} {l r : List ι} (h : (s.client i).phase = .waiting)
      (hrep : s.replies = l ++ i :: r) :
      Step S s (.client i) { s.goto i .done with replies := l ++ r }
  | read {s : State ι} {i : ι} {k : ℕ} (h : (s.client i).phase = .printing k)
      (hk : k < S.vm_page_size) (hb : s.page k ≠ 0) :
      Step S s (.client i)
        { s with
          client := Function.update s.client i
            ⟨.printing (k + 1), (s.client i).printed ++ [s.page k]⟩ }
  | readEnd {s : State ι} {i : ι} {k : ℕ} (h : (s.client i).phase = .printing k)
      (hk : k < S.vm_page_size) (hb : s.page k = 0) :
      Step S s (.client i)
        { s.goto i (if (S.argument i).isSome then .writing 0 else .done) with
          history := s.history ++ [.printed i (s.client i).printed] }
  | store {s : State ι} {i : ι} {k : ℕ} {arg : List Byte} (h : (s.client i).phase = .writing k)
      (harg : S.argument i = some arg) :
      Step S s (.client i)
        { s.goto i (if k + 1 < S.vm_page_size then .writing (k + 1) else .terminating) with
          page := Function.update s.page k (pageOf arg k) }
  | terminate {s : State ι} {i : ι} {arg : List Byte} (h : (s.client i).phase = .terminating)
      (harg : S.argument i = some arg) :
      Step S s (.client i)
        { s.goto i .done with
          page := Function.update s.page (S.vm_page_size - 1) 0
          history := s.history ++ [.wrote i arg] }

variable (S : Setup ι)

/-- A client is about to read behind the page. -/
def Overrun (s : State ι) : Prop := ∃ i k, (s.client i).phase = .printing k ∧ S.vm_page_size ≤ k

/-! ## Within the page -/

/-- The client may still have to read. -/
def Phase.early : Phase → Bool
  | .requesting | .waiting | .printing _ => true
  | .writing _ | .terminating | .done => false

/-- As long as any client may have to read, the page ends with a zero. -/
structure Ended (s : State ι) : Prop where
  last : ∀ i, (s.client i).phase.early → s.page (S.vm_page_size - 1) = 0
  within : ∀ i k, (s.client i).phase = .printing k → k < S.vm_page_size

section
variable {S} {s t : State ι} {i : ι} {phase : Phase}

/-- A client after one of them has gone on. -/
theorem goto_phase (j : ι) : ((s.goto i phase).client j).phase =
    if j = i then phase else (s.client j).phase := by
  by_cases hj : j = i
  · subst hj
    simp [State.goto]
  · simp [State.goto, hj]

/-- A call or a byte that leaves the page alone. -/
theorem Ended.goto (h : Ended S s) (hpage : t.page = s.page)
    (hphase : ∀ j, (t.client j).phase = if j = i then phase else (s.client j).phase)
    (hearly : phase.early → (s.client i).phase.early)
    (hwithin : ∀ k, phase = .printing k → k < S.vm_page_size) : Ended S t where
  last j hj := by
    rw [hpage]
    rw [hphase] at hj
    split_ifs at hj
    · exact h.last i (hearly hj)
    · exact h.last j hj
  within j k hj := by
    rw [hphase] at hj
    split_ifs at hj
    · exact hwithin k hj
    · exact h.within j k hj

/-- Any other client has an argument that does not fill the page. -/
def Setup.Short (S : Setup ι) : Prop :=
  ∀ i j, i ≠ j → ∀ arg, S.argument i = some arg → arg.length < S.vm_page_size

theorem Ended.step (hshort : S.Short) {a : Label ι} (h : Ended S s) (hstep : Step S s a t) :
    Ended S t := by
  have hroom := S.room
  cases hstep with
  | send hphase =>
    exact h.goto rfl goto_phase (fun _ ↦ by rw [hphase]; rfl) (fun k hk ↦ by cases hk)
  | serverReceive hserver hreq => exact ⟨h.last, h.within⟩
  | serverSend hserver => exact ⟨h.last, h.within⟩
  | map hphase hrep =>
    refine h.goto rfl goto_phase (fun _ ↦ by rw [hphase]; rfl) fun k hk ↦ ?_
    cases hk
    omega
  | mapFails hphase hrep =>
    exact h.goto rfl goto_phase (fun _ ↦ by rw [hphase]; rfl) (fun k hk ↦ by cases hk)
  | @read i k hphase hk hb =>
    have hlast : k ≠ S.vm_page_size - 1 := by
      rintro rfl
      exact hb (h.last i (by rw [hphase]; rfl))
    have hnext (j : ι) : (Function.update s.client i
        ⟨.printing (k + 1), (s.client i).printed ++ [s.page k]⟩ j).phase =
        if j = i then .printing (k + 1) else (s.client j).phase := by
      by_cases hj : j = i
      · simp [hj]
      · simp [hj]
    refine h.goto rfl hnext (fun _ ↦ by rw [hphase]; rfl) fun k' hk' ↦ ?_
    cases hk'
    omega
  | @readEnd i k hphase hk hb =>
    refine h.goto rfl goto_phase (fun _ ↦ by rw [hphase]; rfl) fun k hk ↦ ?_
    split_ifs at hk
  | @store i k arg hphase harg =>
    refine ⟨fun j hj ↦ ?_, fun j k' hj ↦ ?_⟩
    · -- another client has to read, so this one stores a zero behind its argument
      have hne : j ≠ i := by
        rintro rfl
        rw [goto_phase, if_pos rfl] at hj
        split_ifs at hj <;> cases hj
      rw [goto_phase, if_neg hne] at hj
      have hfit := hshort i j hne.symm arg harg
      by_cases hk : k = S.vm_page_size - 1
      · subst hk
        show Function.update s.page (S.vm_page_size - 1) _ (S.vm_page_size - 1) = 0
        rw [Function.update_self]
        exact pageOf_of_le (by omega)
      · show Function.update s.page k _ (S.vm_page_size - 1) = 0
        rw [Function.update_of_ne (Ne.symm hk)]
        exact h.last j hj
    · rw [goto_phase] at hj
      by_cases hji : j = i
      · rw [if_pos hji] at hj
        split_ifs at hj
      · rw [if_neg hji] at hj
        exact h.within j k' hj
  | @terminate i arg hphase harg =>
    refine ⟨fun j hj ↦ Function.update_self .., fun j k hj ↦ ?_⟩
    rw [goto_phase] at hj
    split_ifs at hj
    exact h.within j k hj

omit [DecidableEq ι] in
theorem ended_start : Ended S (start ι) where
  last i _ := by
    have hlen : greeting.length = 12 := by decide
    have hroom := S.room
    exact pageOf_of_le (by omega)
  within i k h := by exact absurd h nofun

end

/-! ## Behind the page -/

/-- Nothing but the client has gone on. -/
structure Only (i : ι) (s t : State ι) : Prop where
  server : t.server = s.server
  requests : t.requests = s.requests
  replies : t.replies = s.replies
  others : ∀ j ≠ i, t.client j = s.client j

omit [DecidableEq ι] in
theorem Only.refl (i : ι) (s : State ι) : Only i s s := ⟨rfl, rfl, rfl, fun _ _ ↦ rfl⟩

omit [DecidableEq ι] in
theorem Only.trans {i : ι} {s t u : State ι} (h : Only i s t) (h' : Only i t u) : Only i s u where
  server := h'.server.trans h.server
  requests := h'.requests.trans h.requests
  replies := h'.replies.trans h.replies
  others j hj := (h'.others j hj).trans (h.others j hj)

/-- A step of the server or of the client. -/
def Alone (S : Setup ι) (i : ι) (s : State ι) (a : Label ι) (t : State ι) : Prop :=
  Step S s a t ∧ ∀ j ≠ i, t.client j = s.client j

omit [DecidableEq ι] in
theorem pageOf_ne_zero {str : List Byte} (hstr : 0 ∉ str) {k : ℕ} (hk : k < str.length) :
    pageOf str k ≠ 0 := by
  intro h
  rw [pageOf, List.getD_eq_getElem?_getD, List.getElem?_eq_getElem hk, Option.getD_some] at h
  exact hstr (h ▸ List.getElem_mem hk)

section
variable {S} {s : State ι} {i j : ι} {arg : List Byte}

theorem only_goto (s : State ι) (i : ι) (phase : Phase) : Only i s (s.goto i phase) :=
  ⟨rfl, rfl, rfl, fun _ hj ↦ Function.update_of_ne hj ..⟩

theorem goto_goto (s : State ι) (phase phase' : Phase) :
    (s.goto i phase).goto i phase' = s.goto i phase' := by
  simp [State.goto]

/-- A client that asks is answered, and maps the page. -/
theorem exists_run_map (hserver : s.server = none) (hreq : s.requests = []) (hrep : s.replies = [])
    (hphase : (s.client i).phase = .requesting) :
    ∃ l t, Run (Alone S i) s l t ∧ Only i s t ∧ t.page = s.page ∧ t.history = s.history ∧
      (t.client i).phase = .printing 0 := by
  obtain ⟨page, server, requests, replies, client, history⟩ := s
  simp only at hserver hreq hrep hphase
  subst hserver hreq hrep
  have hmap : Step S (State.goto ⟨page, none, [], [i], client, history⟩ i .waiting) (.client i)
      (State.goto ⟨page, none, [], [], client, history⟩ i (.printing 0)) := by
    have h := Step.map (S := S) (s := State.goto ⟨page, none, [], [i], client, history⟩ i .waiting)
      (i := i) (l := []) (r := []) (by rw [goto_phase, if_pos rfl]) rfl
    rw [goto_goto] at h
    exact h
  refine ⟨_, _, .cons ⟨.send hphase, (only_goto ..).others⟩ <|
    .cons ⟨.serverReceive (l := []) (r := []) rfl rfl, fun _ _ ↦ rfl⟩ <|
    .cons ⟨.serverSend rfl, fun _ _ ↦ rfl⟩ <| .cons ⟨hmap, fun j hj ↦ ?_⟩ <| .nil _,
    only_goto .., rfl, rfl, ?_⟩
  · rw [(only_goto _ i _).others j hj]
    exact ((only_goto _ i _).others j hj).symm
  · rw [goto_phase, if_pos rfl]

/-- It reads what is not zero. -/
theorem exists_run_read (hphase : (s.client i).phase = .printing 0) {n : ℕ}
    (hn : n ≤ S.vm_page_size) (hb : ∀ m < n, s.page m ≠ 0) :
    ∃ l t, Run (Alone S i) s l t ∧ Only i s t ∧ t.page = s.page ∧ t.history = s.history ∧
      (t.client i).phase = .printing n := by
  induction n with
  | zero => exact ⟨[], s, .nil s, .refl i s, rfl, rfl, hphase⟩
  | succ n ih =>
    obtain ⟨l, t, hrun, honly, hpage, hhistory, hphase'⟩ :=
      ih (by omega) fun m hm ↦ hb m (by omega)
    have hothers (c : Client) : ∀ j ≠ i, Function.update t.client i c j = t.client j :=
      fun _ hj ↦ Function.update_of_ne hj ..
    refine ⟨_, _, hrun.append (.single
      ⟨.read hphase' hn (by rw [hpage]; exact hb n (by omega)), hothers _⟩),
      honly.trans ⟨rfl, rfl, rfl, hothers _⟩, hpage, hhistory, ?_⟩
    simp only [Function.update_self]

/-- It prints what it finds. -/
theorem exists_run_print (hserver : s.server = none) (hreq : s.requests = [])
    (hrep : s.replies = []) (hphase : (s.client i).phase = .requesting) {n : ℕ}
    (hn : n < S.vm_page_size) (hb : ∀ m < n, s.page m ≠ 0) (hend : s.page n = 0) :
    ∃ l t str, Run (Alone S i) s l t ∧ Only i s t ∧ t.page = s.page ∧
      t.history = s.history ++ [.printed i str] ∧
      (t.client i).phase = if (S.argument i).isSome then .writing 0 else .done := by
  obtain ⟨l₁, s₁, hrun₁, honly₁, hpage₁, hhistory₁, hphase₁⟩ :=
    exists_run_map (S := S) hserver hreq hrep hphase
  obtain ⟨l₂, s₂, hrun₂, honly₂, hpage₂, hhistory₂, hphase₂⟩ :=
    exists_run_read hphase₁ hn.le fun m hm ↦ by rw [hpage₁]; exact hb m hm
  have hstep := Step.readEnd hphase₂ hn (by rw [hpage₂, hpage₁]; exact hend)
  refine ⟨_, _, (s₂.client i).printed,
    hrun₁.append <| hrun₂.append <| .single ⟨hstep, (only_goto ..).others⟩,
    (honly₁.trans honly₂).trans ⟨rfl, rfl, rfl, (only_goto ..).others⟩, hpage₂.trans hpage₁, ?_, ?_⟩
  · rw [← hhistory₁, ← hhistory₂]
  · exact (goto_phase i).trans (if_pos rfl)

/-- It stores its argument. -/
theorem exists_run_store (hphase : (s.client i).phase = .writing 0)
    (harg : S.argument i = some arg) {n : ℕ} (hn : n ≤ S.vm_page_size) :
    ∃ l t, Run (Alone S i) s l t ∧ Only i s t ∧ (∀ m < n, t.page m = pageOf arg m) ∧
      t.history = s.history ∧
      (t.client i).phase = if n < S.vm_page_size then .writing n else .terminating := by
  have hroom := S.room
  induction n with
  | zero =>
    refine ⟨[], s, .nil s, .refl i s, fun m hm ↦ absurd hm (Nat.not_lt_zero m), rfl, ?_⟩
    rw [if_pos (by omega), hphase]
  | succ n ih =>
    obtain ⟨l, t, hrun, honly, hpage, hhistory, hphase'⟩ := ih (by omega)
    rw [if_pos (Nat.lt_of_succ_le hn)] at hphase'
    refine ⟨_, _, hrun.append (.single ⟨.store hphase' harg, (only_goto ..).others⟩),
      honly.trans ⟨rfl, rfl, rfl, (only_goto ..).others⟩, fun m hm ↦ ?_, hhistory,
      (goto_phase i).trans (if_pos rfl)⟩
    show Function.update t.page n (pageOf arg n) m = pageOf arg m
    by_cases hmn : m = n
    · rw [hmn, Function.update_self]
    · rw [Function.update_of_ne hmn]
      exact hpage m (by omega)

/-- **An argument that fills the page** is no string until its writer has ended it, and whoever
reads it before reads on behind the page. -/
theorem overrun_of_long (hij : i ≠ j) (harg : S.argument i = some arg)
    (hlong : S.vm_page_size ≤ arg.length) :
    ∃ l s, Run (Step S) (start ι) l s ∧ Overrun S s := by
  have hroom := S.room
  have hstep {i : ι} {l : List (Label ι)} {s t : State ι} (h : Run (Alone S i) s l t) :
      Run (Step S) s l t := h.mono fun _ _ _ h ↦ h.1
  -- the writer reads the greeting
  obtain ⟨l₁, s₁, str, hrun₁, honly₁, -, -, hphase₁⟩ := exists_run_print (S := S) (s := start ι)
    (i := i) rfl rfl rfl rfl (n := 12) (by omega)
    (fun m hm ↦ pageOf_ne_zero (by decide) (show m < 12 from hm))
    (pageOf_of_le (show greeting.length ≤ 12 by decide))
  rw [harg, Option.isSome_some, if_pos rfl] at hphase₁
  -- it stores all of its argument, but not the zero
  obtain ⟨l₂, s₂, hrun₂, honly₂, hpage₂, -⟩ := exists_run_store hphase₁ harg (le_refl _)
  have honly := honly₁.trans honly₂
  -- the other one reads it
  obtain ⟨l₃, s₃, hrun₃, -, hpage₃, -, hphase₃⟩ := exists_run_map (S := S) (i := j) honly.server
    honly.requests honly.replies (by rw [honly.others j hij.symm]; rfl)
  obtain ⟨l₄, s₄, hrun₄, -, -, -, hphase₄⟩ := exists_run_read (S := S) hphase₃ (le_refl _)
    fun m hm ↦ by
      rw [hpage₃, hpage₂ m hm]
      exact pageOf_ne_zero (S.nonzero i arg harg) (by omega)
  exact ⟨_, s₄, (hstep hrun₁).append <| (hstep hrun₂).append <| (hstep hrun₃).append <|
    hstep hrun₄, j, S.vm_page_size, hphase₄, le_refl _⟩

end

/-- **No client reads behind the page**, in whatever order the bytes are read and stored, exactly if
no argument fills the page but that of a client that is alone. -/
theorem no_overrun_iff :
    (∀ l s, Run (Step S) (start ι) l s → ¬ Overrun S s) ↔ S.Short := by
  constructor
  · intro h i j hij arg harg
    by_contra hlong
    obtain ⟨l, s, hrun, hover⟩ := overrun_of_long hij harg (Nat.le_of_not_lt hlong)
    exact h l s hrun hover
  · rintro hshort l s hrun ⟨i, k, hphase, hk⟩
    have h : Ended S s := hrun.invariant (fun _ _ _ h hstep ↦ h.step hshort hstep) ended_start
    exact absurd (h.within i k hphase) (Nat.not_lt_of_le hk)

end ShmIpc
end MacOSXInternal
