import Mathlib.Data.Bool.Basic
import MacOSXInternal.Notify.Consumer

/-!
# Notification by signal

Signals are not counted: one that is pending stands for all that have been sent.  What
`sighandler_USR1` goes by is therefore not the signal but what `notify_check` says, and it is called
before the first signal is due because its first answer means nothing.

* `Account` says that what is reported, and what `notify_check` is about to say, has been posted.
* `Heeded` says that what `notify_check` is about to say will be asked for.
* `signal_lines` is the result: nothing is reported twice, and nothing is lost.
-/

set_option autoImplicit false

namespace MacOSXInternal
namespace Notify

open Runs

/-- The reports that are printed or about to be. -/
def reports (s : State) : ℕ :=
  s.out.count (.received .signal) + s.printing.count (.received .signal)

section
variable {wire : ℤ → ℤ} {s t : State} {a : Act} {θ : Thread} {at' : At} {name : Name}
  {l m : List Act}

/-! ## Nothing is reported twice -/

/-- No signal is on its way to a line. -/
structure Silent (s : State) : Prop where
  flight : s.flight = 0
  pending : s.pending = false
  checking : s.checking = 0

/-- If there has been no signal from elsewhere, the first answer of `notify_check` goes to the dummy
call, or to a call that a post has led to. -/
structure Account (l : List Act) (s : State) : Prop where
  unissued : s.issued .signal = none → reports s = 0 ∧ s.changed = false
  room : reports s + s.changed.toNat ≤ l.countP (Act.posts .signal) + 1
  idle : l.countP (Act.posts .signal) = 0 → .kill ∉ l → reports s = 0 ∧ Silent s
  tight : 0 < l.countP (Act.posts .signal) → .kill ∉ l →
    reports s + s.changed.toNat ≤ l.countP (Act.posts .signal)

/-- There have been more posts, or nothing has happened. -/
theorem Account.mono (h : Account l s)
    (hposts : l.countP (Act.posts .signal) ≤ m.countP (Act.posts .signal))
    (hkill : .kill ∉ m → .kill ∉ l) : Account m s := by
  refine ⟨h.unissued, h.room.trans (Nat.add_le_add_right hposts 1), fun hzero hm ↦ ?_,
    fun hpos hm ↦ ?_⟩
  · exact h.idle (Nat.le_zero.mp (hposts.trans_eq hzero)) (hkill hm)
  · obtain hzero | hposl := Nat.eq_zero_or_pos (l.countP (Act.posts .signal))
    · have hroom := h.room
      rw [(h.idle hzero (hkill hm)).1] at hroom ⊢
      omega
    · exact (h.tight hposl (hkill hm)).trans hposts

theorem Account.snoc (h : Account l s) (a : Act) : Account (l ++ [a]) s :=
  h.mono (countP_le ..) fun hkill hl ↦ hkill (List.mem_append_left _ hl)

/-- Nothing has been gained, and nothing comes from nothing. -/
theorem Account.of_le (h : Account l s)
    (hissued : t.issued .signal = none → s.issued .signal = none)
    (hunissued : s.issued .signal = none → reports t = reports s ∧ t.changed = s.changed)
    (hle : reports t + t.changed.toNat ≤ reports s + s.changed.toNat)
    (hsilent : reports s = 0 → Silent s → reports t = 0 ∧ Silent t) : Account l t where
  unissued hnone := by
    have hs := hissued hnone
    rw [(hunissued hs).1, (hunissued hs).2]
    exact h.unissued hs
  room := hle.trans h.room
  idle hzero hkill := by
    obtain ⟨hreports, hs⟩ := h.idle hzero hkill
    exact hsilent hreports hs
  tight hpos hkill := hle.trans (h.tight hpos hkill)

/-- Nothing has happened that has to do with signals. -/
theorem Account.congr (h : Account l s) (hreports : reports t = reports s)
    (hissued : t.issued .signal = s.issued .signal) (hchanged : t.changed = s.changed)
    (hsilent : Silent s → Silent t) : Account l t :=
  h.of_le (fun hnone ↦ hissued ▸ hnone) (fun _ ↦ ⟨hreports, hchanged⟩)
    (by rw [hreports, hchanged]) fun hzero hs ↦ ⟨hreports.trans hzero, hsilent hs⟩

theorem reports_print {line : Line} (hline : line ≠ .received .signal) :
    reports (s.print line) = reports s := by
  simp [reports, State.print, List.count_append, hline]

theorem reports_compare : reports s.compare = reports s :=
  reports_print fun hline ↦ absurd (descriptorLine_name.symm.trans (congrArg Line.name hline)) nofun

theorem Account.dispatch (h : Account l s) : Account l s.dispatch := by
  unfold State.dispatch
  split_ifs
  · exact h.congr (reports_print nofun) rfl rfl fun hs ↦ ⟨hs.flight, hs.pending, hs.checking⟩
  · exact h.congr rfl rfl rfl fun hs ↦ ⟨hs.flight, hs.pending, hs.checking⟩
  · exact h.congr (reports_print nofun) rfl rfl fun hs ↦ ⟨hs.flight, hs.pending, hs.checking⟩

/-- A post that the server takes on. -/
theorem Account.signal {argv : List (List Char)} (h : Account l s) {token : ℤ}
    (hargv : notify_producer argv = some .signal) (hissued : s.issued .signal = some token) :
    Account (l ++ [Act.produce argv]) { s with changed := true, flight := s.flight + 1 } := by
  have hposts := countP_post l hargv
  have hroom := h.room
  refine ⟨fun hnone ↦ ?_, ?_, fun hzero ↦ ?_, fun _ hkill ↦ ?_⟩
  · exact absurd (hissued.symm.trans hnone) nofun
  · rw [hposts]
    show reports s + 1 ≤ _
    omega
  · omega
  · rw [hposts]
    show reports s + 1 ≤ _
    obtain hzero | hpos := Nat.eq_zero_or_pos (l.countP (Act.posts .signal))
    · have hnone := (h.idle hzero fun hl ↦ hkill (List.mem_append_left _ hl)).1
      omega
    · have htight := h.tight hpos fun hl ↦ hkill (List.mem_append_left _ hl)
      omega

/-- The first answer stands for one post. -/
theorem Account.register (h : Account l s) {token : ℤ} (hnone : s.issued name = none) :
    Account l (s.notify_register name token) := by
  by_cases hname : name = .signal
  · subst hname
    have hreports := (h.unissued hnone).1
    have hchanged : (s.notify_register .signal token).changed = true := rfl
    have hreports' : reports (s.notify_register .signal token) = 0 := hreports
    refine ⟨fun hnone' ↦ ?_, ?_, fun hzero hkill ↦ ⟨hreports, ?_⟩, fun hpos _ ↦ ?_⟩
    · exact absurd ((Function.update_self (f := s.issued) Name.signal _).symm.trans hnone') nofun
    · rw [hreports', hchanged]
      exact Nat.add_le_add_right (Nat.zero_le _) 1
    · obtain ⟨hflight, hpending, hchecking⟩ := (h.idle hzero hkill).2
      exact ⟨hflight, hpending, hchecking⟩
    · rw [hreports', hchanged]
      simpa using hpos
  · exact h.congr rfl (Function.update_of_ne (Ne.symm hname) ..) (if_neg hname)
      fun hs ↦ ⟨hs.flight, hs.pending, hs.checking⟩

theorem reports_handle (k : ℕ) (line : Line) :
    reports { s.notify_check with checking := k, printing := s.printing ++ [line] } =
      reports s + if line = .received .signal then 1 else 0 := by
  simp [reports, State.notify_check, List.count_append, List.count_singleton, Nat.add_assoc]

/-- A call of the handler that has nothing to report. -/
theorem reports_spurious {changed : Bool} {k : ℕ} :
    reports { s with
      changed := changed, checking := k, printing := s.printing ++ [.spurious .signal] } =
        reports s := by
  simp [reports, List.count_append]

theorem sighandler_USR1_of_live (h : s.Live .signal) :
    s.sighandler_USR1 = if s.changed = true then .received .signal else .spurious .signal := by
  unfold State.sighandler_USR1 State.answer
  rw [if_pos h]
  cases s.changed <;> rfl

theorem sighandler_USR1_of_not_live (h : ¬s.Live .signal) :
    s.sighandler_USR1 = .spurious .signal := by
  unfold State.sighandler_USR1 State.answer
  rw [if_neg h]

theorem eq_of_imp {b c : Bool} (h : b → c) (hc : c = false) : b = c := by
  cases b with
  | false => exact hc.symm
  | true => exact (h rfl).symm

theorem notify_check_changed_le : s.notify_check.changed.toNat ≤ s.changed.toNat := by
  unfold State.notify_check
  split_ifs
  · exact Nat.zero_le _
  · exact le_rfl

/-- What a call of the handler reports, `notify_check` no longer says. -/
theorem reports_handle_le (k : ℕ) :
    reports { s.notify_check with
        checking := k, printing := s.printing ++ [s.sighandler_USR1] } +
      s.notify_check.changed.toNat ≤ reports s + s.changed.toNat := by
  rw [reports_handle]
  by_cases hlive : s.Live .signal
  · rw [sighandler_USR1_of_live hlive, State.notify_check, if_pos hlive]
    cases s.changed <;> simp
  · rw [sighandler_USR1_of_not_live hlive, if_neg nofun]
    exact Nat.add_le_add_left notify_check_changed_le _

theorem Account.move (h : Account l s) (hfresh : Fresh s) (hmove : Move wire s a t) :
    Account (l ++ [a]) t := by
  cases hmove with
  | @post argv name hargv =>
    obtain ⟨heq, -⟩ | ⟨token, hissued, ⟨-, heq⟩ | ⟨-, heq⟩ | ⟨rfl, heq⟩⟩ :=
      notify_post_cases wire s name
    · rw [heq]
      exact h.snoc _
    · rw [heq]
      exact (h.snoc _).congr rfl rfl rfl fun hs ↦ ⟨hs.flight, hs.pending, hs.checking⟩
    · rw [heq]
      exact (h.snoc _).congr rfl rfl rfl fun hs ↦ ⟨hs.flight, hs.pending, hs.checking⟩
    · rw [heq]
      exact h.signal hargv hissued
  | kill =>
    have hkill : .kill ∈ l ++ [Act.kill] := List.mem_append_right _ (List.mem_singleton_self _)
    exact ⟨h.unissued, (h.snoc _).room, fun _ hno ↦ absurd hkill hno,
      fun _ hno ↦ absurd hkill hno⟩
  | arrive hflight | killed hflight =>
    refine (h.snoc _).congr rfl rfl rfl fun hs ↦ ?_
    exact absurd (hflight.symm.trans hs.flight) nofun
  | deliver hpending =>
    refine (h.snoc _).congr rfl rfl rfl fun hs ↦ ?_
    exact absurd (hpending.symm.trans hs.pending) nofun
  | @handle k hchecking =>
    refine (h.snoc _).of_le id (fun hnone ↦ ?_) (reports_handle_le k) fun _ hs ↦ ?_
    · have hlive : ¬s.Live .signal := fun hlive ↦ absurd (hnone.symm.trans hlive.1) nofun
      rw [reports_handle, sighandler_USR1_of_not_live hlive]
      exact ⟨rfl, if_neg hlive⟩
    · exact absurd (hchecking.symm.trans hs.checking) nofun
  | @handleFails k changed hchecking hle =>
    refine (h.snoc _).of_le id (fun hnone ↦ ⟨reports_spurious, ?_⟩) ?_ fun _ hs ↦ ?_
    · exact eq_of_imp hle (h.unissued hnone).2
    · exact Nat.add_le_add reports_spurious.le (Bool.toNat_le_toNat (Bool.le_iff_imp.mpr hle))
    · exact absurd (hchecking.symm.trans hs.checking) nofun
  | print hprinting =>
    refine (h.snoc _).congr ?_ rfl rfl fun hs ↦ ⟨hs.flight, hs.pending, hs.checking⟩
    simp only [reports, State.print, hprinting, List.count_append, List.count_cons,
      List.count_nil]
    omega
  | @register θ name token hθ hvalid hnew =>
    have hnone : s.issued name = none := by
      refine hfresh.ahead name ?_
      rw [hfresh.register θ name hθ, hθ]
      exact .inl rfl
    have hgone : Account (l ++ [Act.other]) (s.goto θ (.registered name token)) :=
      (h.snoc _).congr rfl rfl rfl fun hs ↦ ⟨hs.flight, hs.pending, hs.checking⟩
    exact hgone.register hnone
  | check hmain =>
    refine (h.snoc _).of_le id (fun hnone ↦ ⟨rfl, ?_⟩)
      (Nat.add_le_add_left notify_check_changed_le _) fun hzero hs ↦
        ⟨hzero, hs.flight, hs.pending, hs.checking⟩
    exact if_neg fun hlive ↦ by cases hnone.symm.trans hlive.1
  | @checkFails changed hmain hle =>
    refine (h.snoc _).of_le id (fun hnone ↦ ⟨rfl, ?_⟩)
      (Nat.add_le_add_left (Bool.toNat_le_toNat (Bool.le_iff_imp.mpr hle)) _) fun hzero hs ↦
        ⟨hzero, hs.flight, hs.pending, hs.checking⟩
    exact eq_of_imp hle (h.unissued hnone).2
  | read | readEnds =>
    exact (h.snoc _).congr reports_compare rfl rfl fun hs ↦ ⟨hs.flight, hs.pending, hs.checking⟩
  | @receive id rest =>
    have hreceived : Account (l ++ [Act.other]) { s with queue := rest, msgh_id := id } :=
      (h.snoc _).congr rfl rfl rfl fun hs ↦ ⟨hs.flight, hs.pending, hs.checking⟩
    exact hreceived.dispatch
  | receiveFails => exact (h.snoc _).dispatch
  | canceling =>
    exact (h.snoc _).congr (reports_print nofun) rfl rfl
      fun hs ↦ ⟨hs.flight, hs.pending, hs.checking⟩
  | dropped | usage | postFails | createDescriptor | createMachPort | createFails | setHandler
  | registerFails | store | readFails | cancel | exit =>
    exact (h.snoc _).congr rfl rfl rfl fun hs ↦ ⟨hs.flight, hs.pending, hs.checking⟩

theorem account_start (check msgh_id : ℤ) : Account [] (start check msgh_id) :=
  ⟨fun _ ↦ ⟨rfl, rfl⟩, Nat.zero_le _, fun _ _ ↦ ⟨rfl, rfl, rfl, rfl⟩, nofun⟩

theorem account_run {check msgh_id : ℤ} (hr : Run (Step wire) (start check msgh_id) l s) :
    Account l s :=
  hr.history (account_start check msgh_id) fun _ _ _ _ hu h hstep ↦ h.move (fresh_run hu) hstep.2

/-! ## Nothing is lost -/

/-- Since there were `base` reports, something has been posted: it is reported, or will be. -/
structure Heeded (base : ℕ) (s : State) : Prop where
  waiting : s.thread .main = .waiting
  le : base ≤ reports s
  counted : base < reports s ∨ s.changed = true
  attended : s.changed = true → 0 < s.flight ∨ s.pending = true ∨ 0 < s.checking

/-- Nothing has happened that has to do with signals. -/
theorem Heeded.congr {base : ℕ} (h : Heeded base s) (hwaiting : t.thread .main = .waiting)
    (hreports : reports t = reports s) (hchanged : t.changed = s.changed)
    (hflight : t.flight = s.flight) (hpending : t.pending = s.pending)
    (hchecking : t.checking = s.checking) : Heeded base t := by
  refine ⟨hwaiting, ?_, ?_, ?_⟩
  · rw [hreports]
    exact h.le
  · rw [hreports, hchanged]
    exact h.counted
  · rw [hchanged, hflight, hpending, hchecking]
    exact h.attended

/-- A thread goes on that is not the main thread. -/
theorem Heeded.goto {base : ℕ} (h : Heeded base s) (hθ : s.thread θ ≠ .waiting ∨ θ ≠ .main) :
    Heeded base (s.goto θ at') := by
  refine h.congr ((goto_thread_of_ne ?_).trans h.waiting) rfl rfl rfl rfl rfl
  rintro rfl
  exact hθ.elim (· h.waiting) (· rfl)

theorem Heeded.dispatch {base : ℕ} (h : Heeded base s) : Heeded base s.dispatch := by
  unfold State.dispatch
  split_ifs
  · exact h.congr h.waiting (reports_print nofun) rfl rfl rfl rfl
  · exact h.goto (.inr nofun)
  · exact h.congr h.waiting (reports_print nofun) rfl rfl rfl rfl

/-- A post that the server takes on. -/
theorem Heeded.signal (hwaiting : s.thread .main = .waiting) :
    Heeded (reports s) { s with changed := true, flight := s.flight + 1 } :=
  ⟨hwaiting, le_rfl, .inr rfl, fun _ ↦ .inl (Nat.succ_pos _)⟩

theorem Heeded.move {base : ℕ} (h : Heeded base s) (hfresh : Fresh s)
    (hcancelled : s.cancelled .signal = false) (hfails : a ≠ .checkFails)
    (hmove : Move wire s a t) : Heeded base t := by
  have hlive : s.Live .signal := by
    refine ⟨hfresh.past .signal ?_, hcancelled⟩
    show (s.thread .main).Past .signal
    rw [h.waiting]
    trivial
  cases hmove with
  | @post argv name hargv =>
    obtain ⟨heq, -⟩ | ⟨token, hissued, ⟨-, heq⟩ | ⟨-, heq⟩ | ⟨rfl, heq⟩⟩ :=
      notify_post_cases wire s name
    · rw [heq]
      exact h
    · rw [heq]
      exact h.congr h.waiting rfl rfl rfl rfl rfl
    · rw [heq]
      exact h.congr h.waiting rfl rfl rfl rfl rfl
    · rw [heq]
      exact ⟨h.waiting, h.le, .inr rfl, fun _ ↦ .inl (Nat.succ_pos _)⟩
  | kill => exact ⟨h.waiting, h.le, h.counted, fun _ ↦ .inl (Nat.succ_pos _)⟩
  | arrive => exact ⟨h.waiting, h.le, h.counted, fun _ ↦ .inr (.inl rfl)⟩
  | killed hflight hhandler =>
    have hset : s.handler = true := hfresh.handler (by rw [h.waiting]; trivial)
    exact absurd (hset.symm.trans hhandler) nofun
  | deliver => exact ⟨h.waiting, h.le, h.counted, fun _ ↦ .inr (.inr (Nat.succ_pos _))⟩
  | @handle k =>
    have hreports := reports_handle (s := s) k s.sighandler_USR1
    rw [sighandler_USR1_of_live hlive] at hreports ⊢
    have hchanged : s.notify_check.changed = false := if_pos hlive
    have hle := h.le
    refine ⟨h.waiting, ?_, .inl ?_, fun htrue ↦ absurd (hchanged.symm.trans htrue) nofun⟩
    · rw [hreports]
      omega
    · rw [hreports]
      obtain hcounted | hpending := h.counted
      · omega
      · rw [if_pos hpending, if_pos rfl]
        omega
  | print hprinting =>
    refine h.congr h.waiting ?_ rfl rfl rfl rfl
    simp only [reports, State.print, hprinting, List.count_append, List.count_cons,
      List.count_nil]
    omega
  | createDescriptor hmain | createMachPort hmain | setHandler hmain | check hmain =>
    exact absurd (h.waiting.symm.trans hmain) nofun
  | createFails hmain =>
    obtain hmain | hmain := hmain
    · exact absurd (h.waiting.symm.trans hmain) nofun
    · exact absurd (h.waiting.symm.trans hmain) nofun
  | @register θ name token hθ =>
    have hname : name ≠ .signal := by
      rintro rfl
      obtain rfl := hfresh.register θ .signal hθ
      exact absurd (h.waiting.symm.trans hθ) nofun
    have hgone : Heeded base (s.goto θ (.registered name token)) :=
      h.goto (.inl (by rw [hθ]; nofun))
    exact hgone.congr hgone.waiting rfl (if_neg hname) rfl rfl rfl
  | registerFails hθ => exact h.goto (.inl (by rw [hθ]; nofun))
  | @store θ name token hθ =>
    have hstored : Heeded base (s.store name token) := h.congr h.waiting rfl rfl rfl rfl rfl
    refine hstored.goto (.inl ?_)
    rw [show (s.store name token).thread = s.thread from rfl, hθ]
    nofun
  | read | readEnds => exact h.congr h.waiting reports_compare rfl rfl rfl rfl
  | readFails => exact h.goto (.inr nofun)
  | @receive id rest =>
    have hreceived : Heeded base { s with queue := rest, msgh_id := id } :=
      h.congr h.waiting rfl rfl rfl rfl rfl
    exact hreceived.dispatch
  | receiveFails => exact h.dispatch
  | @cancel θ name names hθ =>
    have hcancel : Heeded base (s.notify_cancel name) := h.congr h.waiting rfl rfl rfl rfl rfl
    refine hcancel.goto (.inl ?_)
    rw [show (s.notify_cancel name).thread = s.thread from rfl, hθ]
    nofun
  | canceling =>
    have hprinted : Heeded base (s.print (.received .cancel)) :=
      h.congr h.waiting (reports_print nofun) rfl rfl rfl rfl
    exact hprinted.goto (.inr nofun)
  | handleFails | checkFails => exact absurd rfl hfails
  | dropped | usage | postFails | exit => exact h.congr h.waiting rfl rfl rfl rfl rfl

theorem dispatch_cancelled : s.dispatch.cancelled = s.cancelled := by
  unfold State.dispatch
  split_ifs <;> rfl

/-- What is cancelled stays cancelled. -/
theorem cancelled_of_move (hmove : Move wire s a t) (h : t.cancelled name = false) :
    s.cancelled name = false := by
  cases hmove with
  | @post argv other =>
    obtain ⟨heq, -⟩ | ⟨token, -, ⟨-, heq⟩ | ⟨-, heq⟩ | ⟨-, heq⟩⟩ := notify_post_cases wire s other
    all_goals
      rw [heq] at h
      exact h
  | receive | receiveFails =>
    rw [dispatch_cancelled] at h
    exact h
  | @cancel θ other names =>
    change (if s.token other = -1 then s.cancelled else
      Function.update s.cancelled other true) name = false at h
    split_ifs at h
    · exact h
    · by_cases hname : name = other
      · subst hname
        simp at h
      · rwa [Function.update_of_ne hname] at h
  | _ => exact h

theorem cancelled_of_run (hr : Run (Step wire) s l t) (h : t.cancelled name = false) :
    s.cancelled name = false := by
  induction hr with
  | nil => exact h
  | cons hstep _ ih => exact cancelled_of_move hstep.2 (ih h)

theorem Heeded.run {base : ℕ} {check msgh_id : ℤ} {u : State}
    (hr : Run (Step wire) (start check msgh_id) l u) (hr' : Run (Step wire) u m s)
    (hcancelled : s.cancelled .signal = false) (hfails : .checkFails ∉ m) (h : Heeded base u) :
    Heeded base s := by
  have hkeep := hr'.history
    (I := fun k v ↦ v.cancelled .signal = false → .checkFails ∉ k → Heeded base v) (fun _ _ ↦ h)
    fun k v a w hv ih hstep hw hk ↦ by
      rw [List.mem_append, List.mem_singleton, not_or] at hk
      have hbefore := cancelled_of_move hstep.2 hw
      exact (ih hbefore hk.1).move (fresh_run (hr.append hv)) hbefore (Ne.symm hk.2) hstep.2
  exact hkeep hcancelled hfails

/-- What a post comes to while the main thread sleeps. -/
theorem Heeded.of_post {argv : List (List Char)} (hfresh : Fresh s)
    (hwaiting : s.thread .main = .waiting) (hcancelled : s.cancelled .signal = false)
    (hargv : notify_producer argv = some .signal) (hmove : Move wire s (.produce argv) t) :
    Heeded (reports s) t := by
  have hissued : s.issued .signal = some (s.token .signal) := by
    refine hfresh.past .signal ?_
    show (s.thread .main).Past .signal
    rw [hwaiting]
    trivial
  cases hmove with
  | @post _ name hname =>
    obtain rfl := Option.some.inj (hname.symm.trans hargv)
    obtain ⟨-, hnone | hgone⟩ | ⟨token, -, ⟨hname', -⟩ | ⟨hname', -⟩ | ⟨-, heq⟩⟩ :=
      notify_post_cases wire s .signal
    · exact absurd (hissued.symm.trans hnone) nofun
    · exact absurd (hcancelled.symm.trans hgone) nofun
    · exact absurd hname' nofun
    · obtain hname' | hname' := hname'
      · exact absurd hname' nofun
      · exact absurd hname' nofun
    · rw [heq]
      exact Heeded.signal hwaiting
  | dropped hname hsignal => exact absurd (Option.some.inj (hname.symm.trans hargv)) hsignal
  | usage hname => exact absurd (hname.symm.trans hargv) nofun

/-- **No notification is reported twice, and none is lost** unless `notify_check` fails.  There are
never more lines that say that a notification has been received by signal than there have been
posts, but for one more if somebody else sends `SIGUSR1`.  If something is posted when the main
thread has got to sleep, and every call of `notify_check` from then on succeeds, then by the time
that no signal is on its way any more there is a line that neither was there before nor was about to
be printed. -/
theorem signal_lines {check msgh_id : ℤ} (hr : Run (Step wire) (start check msgh_id) l s) :
    s.out.count (.received .signal) ≤
      l.countP (Act.posts .signal) + (if .kill ∈ l then 1 else 0) ∧
    ∀ l₁ u argv v l₂, l = l₁ ++ .produce argv :: l₂ →
      Run (Step wire) (start check msgh_id) l₁ u →
      Step wire u (.produce argv) v → Run (Step wire) v l₂ s →
      notify_producer argv = some .signal → u.thread .main = .waiting →
      s.cancelled .signal = false → .checkFails ∉ l₂ → Silent s → s.printing = [] →
      reports u < s.out.count (.received .signal) := by
  refine ⟨?_, fun l₁ u argv v l₂ _ hu hpost hv hargv hwaiting hcancelled hfails hs hprinting ↦ ?_⟩
  · have h := account_run hr
    have hle : s.out.count (.received .signal) ≤ reports s := Nat.le_add_right ..
    split_ifs with hkill
    · have hroom := h.room
      omega
    · obtain hzero | hpos := Nat.eq_zero_or_pos (l.countP (Act.posts .signal))
      · have hnone := (h.idle hzero hkill).1
        omega
      · have htight := h.tight hpos hkill
        omega
  · have hbefore := cancelled_of_move hpost.2 (cancelled_of_run hv hcancelled)
    have hheeded := Heeded.run (hu.append (.single hpost)) hv hcancelled hfails
      (Heeded.of_post (fresh_run hu) hwaiting hbefore hargv hpost.2)
    have hcounted : reports u < reports s := hheeded.counted.resolve_right fun hchanged ↦ by
      obtain hflight | hpending | hchecking := hheeded.attended hchanged
      · exact absurd hs.flight (Nat.ne_of_gt hflight)
      · exact absurd (hs.pending.symm.trans hpending) nofun
      · exact absurd hs.checking (Nat.ne_of_gt hchecking)
    have hprinted : reports s = s.out.count (.received .signal) := by simp [reports, hprinting]
    rwa [hprinted] at hcounted

end

/-- `notify_producer -s`. -/
def dashS : Act := .produce ["notify_producer".toList, "-s".toList]

/-- The second post comes before the handler has asked for the first, and has a signal of its own
that finds nothing. -/
theorem signal_lines_coalesced : ∃ s : State, s.out = [.received .signal, .spurious .signal] ∧
    s.out.count (.received .signal) ≤ 2 ∧ 0 < s.out.count (.received .signal) := by
  have hruns : ∃ u v s, Run (Step id) (start 0 0) (.replicate 6 .other) u ∧ reports u = 0 ∧
      u.thread .main = .waiting ∧ Step id u dashS v ∧
      Run (Step id) v ([.other, .other, dashS] ++ .replicate 6 .other) s ∧
      s.cancelled .signal = false ∧ Silent s ∧ s.printing = [] ∧
      s.out = [.received .signal, .spurious .signal] :=
    ⟨_, _, _,
      .cons ⟨rfl, .createDescriptor rfl rfl⟩ <| .cons ⟨rfl, .createMachPort rfl rfl⟩ <|
        .cons ⟨rfl, .setHandler rfl⟩ <|
        .cons ⟨rfl, @Move.register _ _ .main .signal 1 rfl (by decide) nofun⟩ <|
        .cons ⟨rfl, @Move.store _ _ .main .signal 1 rfl⟩ <| .single ⟨rfl, .check rfl⟩,
      rfl, rfl, ⟨rfl, @Move.post _ _ _ .signal rfl⟩,
      .cons ⟨rfl, .arrive rfl rfl⟩ <| .cons ⟨rfl, .deliver rfl⟩ <|
        .cons ⟨rfl, @Move.post _ _ _ .signal rfl⟩ <| .cons ⟨rfl, .handle rfl⟩ <|
        .cons ⟨rfl, @Move.print _ _ [] [] _ rfl⟩ <| .cons ⟨rfl, .arrive rfl rfl⟩ <|
        .cons ⟨rfl, .deliver rfl⟩ <| .cons ⟨rfl, .handle rfl⟩ <|
        .single ⟨rfl, @Move.print _ _ [] [] _ rfl⟩,
      rfl, ⟨rfl, rfl, rfl⟩, rfl, rfl⟩
  obtain ⟨u, v, s, hu, hreports, hwaiting, hpost, hv, hcancelled, hs, hprinting, hout⟩ := hruns
  have h := signal_lines (hu.append (.cons hpost hv))
  have hmore := h.2 _ u _ v _ rfl hu hpost hv rfl hwaiting hcancelled (by decide) hs hprinting
  rw [hreports] at hmore
  exact ⟨s, hout, h.1, hmore⟩

/-- **A failing `notify_check` can lose a notification**: the server has it still, but there is no
signal that would lead to a line. -/
theorem signal_lost : ∃ s : State,
    Run (Step id) (start 0 0)
      (.replicate 6 .other ++ [dashS, .other, .other, .checkFails, .other]) s ∧
    s.out = [.spurious .signal] ∧ s.printing = [] ∧ Silent s ∧ s.changed = true :=
  ⟨_,
    .cons ⟨rfl, .createDescriptor rfl rfl⟩ <| .cons ⟨rfl, .createMachPort rfl rfl⟩ <|
      .cons ⟨rfl, .setHandler rfl⟩ <|
      .cons ⟨rfl, @Move.register _ _ .main .signal 1 rfl (by decide) nofun⟩ <|
      .cons ⟨rfl, @Move.store _ _ .main .signal 1 rfl⟩ <| .cons ⟨rfl, .check rfl⟩ <|
      .cons ⟨rfl, @Move.post _ _ _ .signal rfl⟩ <| .cons ⟨rfl, .arrive rfl rfl⟩ <|
      .cons ⟨rfl, .deliver rfl⟩ <|
      .cons ⟨rfl, @Move.handleFails _ _ 0 true rfl fun _ ↦ rfl⟩ <|
      .single ⟨rfl, @Move.print _ _ [] [] _ rfl⟩,
    rfl, rfl, ⟨rfl, rfl, rfl⟩, rfl⟩

end Notify
end MacOSXInternal
