import MacOSXInternal.Kdebug.Program

/-!
# The handler of `kdebug`

The clean-up functions are those that call the handler when they fail, and signals may arrive while
they run.  Three flags keep this in order.

* `Undoes` says which request takes back which, and `State.Due` what the flags make the handler ask
  for.
* `Leaving` is the invariant while the handler is at work.
* `ukdbgExitHandler_handles`: from wherever the handler is entered, what is due is asked for, and
  the program exits.  The induction is on the signals that are not blocked.
-/

set_option autoImplicit false

namespace MacOSXInternal
namespace Kdebug

open Exits

/-! ## What is taken back -/

/-- The first request takes back what the second one has set up. -/
inductive Undoes : Request → Request → Prop
  | enable {value : ℤ} (hv : value ≠ 0) : Undoes (.enable 0) (.enable value)
  | pidtr (pid : ℤ) {check : ℤ} (hc : check ≠ 0) : Undoes (.pidtr pid 0) (.pidtr pid check)
  | setbuf (nbufs : ℤ) : Undoes .remove (.setbuf nbufs)
  | setup : Undoes .remove .setup

/-- The requests of the handler. -/
def Request.IsCleanUp : Request → Prop
  | .enable value => value = 0
  | .pidtr _ value2 => value2 = 0
  | .remove => True
  | _ => False

/-- What the handler asks for when it is entered. -/
def State.Due (s : State) : Request → Prop
  | .enable value => value = 0 ∧ s.traceEnabled ≠ 0
  | .pidtr value1 value2 => value1 = s.pid ∧ value2 = 0 ∧ 0 < s.pid
  | .remove => s.setRemoveFlag ≠ 0
  | _ => False

def Event.isEntered : Event → Bool
  | .entered _ => true
  | _ => false

def Event.isArrived : Event → Bool
  | .arrived _ => true
  | _ => false

/-- Something has been asked for. -/
def Made (r : Request) (log : List Event) : Prop := ∃ ok, .sysctl r ok ∈ log

/-- The log of a clean-up.  Only signals lead to the handler again. -/
structure Tidy (log : List Event) : Prop where
  cleanUp : ∀ r ok, .sysctl r ok ∈ log → r.IsCleanUp
  entered : log.countP (·.isEntered) = log.countP (·.isArrived)

theorem Tidy.nil : Tidy [] := ⟨nofun, rfl⟩

theorem Tidy.append {l l' : List Event} (h : Tidy l) (h' : Tidy l') : Tidy (l ++ l') where
  cleanUp r ok hr := (List.mem_append.mp hr).elim (h.cleanUp r ok) (h'.cleanUp r ok)
  entered := by rw [List.countP_append, List.countP_append, h.entered, h'.entered]

theorem Tidy.sysctl {r : Request} (hr : r.IsCleanUp) (ok : Bool) : Tidy [.sysctl r ok] where
  cleanUp r' ok' h := by
    cases List.mem_singleton.mp h
    exact hr
  entered := rfl

theorem Tidy.wrote (line : String) : Tidy [.wrote line] := ⟨by simp, rfl⟩

theorem Tidy.again (sig : Signal) (s : ℤ) : Tidy [.arrived sig, .entered s] := ⟨by simp, rfl⟩

/-- If no signal arrives from the `n`-th call on, none is in the log. -/
def Quiet (env : Env) (n : ℕ) (log : List Event) : Prop :=
  (∀ m, n ≤ m → env.arrives m = none) → ∀ sig, .arrived sig ∉ log

theorem Quiet.append {env : Env} {n : ℕ} {l l' : List Event} (h : Quiet env n l)
    (h' : Quiet env n l') : Quiet env n (l ++ l') := by
  intro hnone sig hsig
  obtain hl | hl := List.mem_append.mp hsig
  · exact h hnone sig hl
  · exact h' hnone sig hl

theorem Made.append_left {r : Request} {l : List Event} (h : Made r l) (l' : List Event) :
    Made r (l ++ l') :=
  h.imp fun _ hr ↦ List.mem_append_left l' hr

theorem Made.append_right {r : Request} {l' : List Event} (h : Made r l') (l : List Event) :
    Made r (l ++ l') :=
  h.imp fun _ hr ↦ List.mem_append_right l hr

/-! ## Between two calls -/

section
variable {env : Env} {h : Handler} {s : State}

theorem arrive_of_none (ha : env.arrives s.polls = none) :
    arrive env h s = .inl { s with polls := s.polls + 1 } := by
  simp [arrive, ha]

theorem call_of_none {p : Prog} (ha : env.arrives s.polls = none) :
    call env h p s = p { s with polls := s.polls + 1 } := by
  cases hp : p { s with polls := s.polls + 1 } <;> simp [call, inOrder, arrive_of_none ha, hp]

theorem sysctl_of_ok {r : Request} {guard : State → Bool} {failed : Prog}
    (hf : env.fails s.calls = false) : sysctl env r guard failed s = .inl (s.did r true) := by
  simp [sysctl, hf]

end

/-- The place between two calls: either nothing is handled there, or the handler does not return. -/
theorem arrive_triple {env : Env} {h : Handler} {P Q : State → Prop} {E : End → Prop}
    (hgo : ∀ s, P s → (∀ sig, env.arrives s.polls = some sig → sig ∈ s.blocked) →
      Q { s with polls := s.polls + 1 })
    (hsig : ∀ s sig, P s → env.arrives s.polls = some sig → sig ∉ s.blocked →
      Triple (· = { s.record (.arrived sig) with
        polls := s.polls + 1, blocked := insert sig s.blocked }) (h sig.number) (fun _ ↦ False) E) :
    Triple P (arrive env h) Q E := by
  have hcases (s : State) (hs : P s) :
      (arrive env h s = .inl { s with polls := s.polls + 1 } ∧ Q { s with polls := s.polls + 1 }) ∨
        ∃ r, arrive env h s = .inr r ∧ E r := by
    cases harr : env.arrives s.polls with
    | none =>
      refine .inl ⟨arrive_of_none harr, hgo s hs fun sig h ↦ ?_⟩
      rw [harr] at h
      cases h
    | some sig =>
      by_cases hb : sig ∈ s.blocked
      · refine .inl ⟨by simp only [arrive, harr, if_pos hb], hgo s hs fun sig' h ↦ ?_⟩
        rw [harr] at h
        cases h
        exact hb
      · obtain ⟨r, hr, hE⟩ := (hsig s sig hs harr hb).exists_exit rfl
        exact .inr ⟨r, by simp only [arrive, harr, if_neg hb, hr], hE⟩
  constructor
  · intro s t hs ht
    obtain ⟨heq, hQ⟩ | ⟨r, heq, -⟩ := hcases s hs
    · rw [heq] at ht
      cases ht
      exact hQ
    · rw [heq] at ht
      cases ht
  · intro s r hs hr
    obtain ⟨heq, -⟩ | ⟨r', heq, hE⟩ := hcases s hs
    · rw [heq] at hr
      cases hr
    · rw [heq] at hr
      cases hr
      exact hE

/-! ## The handler -/

section
variable {env : Env} {h : Handler} {L : List Event} {D : Request → Prop} {d : ℕ} {pid : ℤ}
  {M : List Request} {E : End → Prop} {p₀ : ℕ}

/-- The program has exited.  What was due has been asked for after `L`. -/
def Exited (env : Env) (p₀ : ℕ) (L : List Event) (D : Request → Prop) (r : End) : Prop :=
  ∃ status t after, r = .exit status t ∧ t.log = L ++ after ∧ Tidy after ∧ Quiet env p₀ after ∧
    ∀ u, D u → Made u after

/-- Wherever the handler is entered with fewer than `d` signals that are not blocked, it does what
is due, and exits. -/
def Handles (env : Env) (d : ℕ) (h : Handler) : Prop :=
  ∀ n s₀, s₀.blockedᶜ.card < d →
    Triple (· = s₀) (h n) (fun _ ↦ False) (Exited env s₀.polls (s₀.log ++ [.entered n]) s₀.Due)

/-- The handler is at work since `L`.  What was due then has been asked for since, or it is still
due and not among the requests `M` that it has come by. -/
structure Leaving (env : Env) (p₀ : ℕ) (L : List Event) (D : Request → Prop) (d : ℕ) (pid : ℤ)
    (M : List Request) (s : State) : Prop where
  exiting : s.exiting ≠ 0
  blocked : s.blockedᶜ.card ≤ d
  pid_eq : s.pid = pid
  polls : p₀ ≤ s.polls
  log : ∃ after, s.log = L ++ after ∧ Tidy after ∧ Quiet env p₀ after ∧
    ∀ u, D u → Made u after ∨ s.Due u ∧ u ∉ M

/-- A signal that is handled is one more that is blocked. -/
theorem card_compl_insert_lt {b : Finset Signal} {sig : Signal} (hsig : sig ∉ b) :
    (insert sig b)ᶜ.card < bᶜ.card := by
  refine Finset.card_lt_card ⟨Finset.compl_subset_compl.mpr (Finset.subset_insert sig b), ?_⟩
  intro hsub
  have hmem := hsub (Finset.mem_compl.mpr hsig)
  exact Finset.mem_compl.mp hmem (Finset.mem_insert_self sig b)

/-- A place between two calls of the handler.  If the handler is entered again there, what is still
due is left to it. -/
theorem arrive_leaving (hh : Handles env d h) :
    Triple (Leaving env p₀ L D d pid M) (arrive env h) (Leaving env p₀ L D d pid M)
      (Exited env p₀ L D) := by
  refine arrive_triple (fun s hs _ ↦ ⟨hs.exiting, hs.blocked, hs.pid_eq,
    hs.polls.trans (Nat.le_succ _), hs.log⟩) fun s sig hs harr hsig ↦ ?_
  obtain ⟨after, hlog, htidy, -, hdue⟩ := hs.log
  have hcard := (card_compl_insert_lt hsig).trans_le hs.blocked
  refine (hh sig.number _ hcard).weaken (fun _ h ↦ h) (fun _ h ↦ h) ?_
  rintro r ⟨status, t, after', rfl, hlog', htidy', -, hdue'⟩
  refine ⟨status, t, after ++ [.arrived sig, .entered sig.number] ++ after', rfl, ?_,
    (htidy.append (.again sig _)).append htidy', fun hnone ↦ ?_, fun u hu ↦ ?_⟩
  · rw [hlog', State.record, hlog]
    simp
  · rw [hnone _ hs.polls] at harr
    cases harr
  · obtain hmade | ⟨hstill, -⟩ := hdue u hu
    · exact (hmade.append_left _).append_left _
    · exact (hdue' u hstill).append_right _

/-- A clean-up call does not lead to the handler, whether it fails or not. -/
theorem sysctl_leaving {r : Request} (hr : r.IsCleanUp) (failed : Prog) :
    Triple (Leaving env p₀ L D d pid M) (sysctl env r (fun s ↦ s.exiting = 0) failed)
      (Leaving env p₀ L D d pid (r :: M)) E := by
  have hrun (s : State) (hs : Leaving env p₀ L D d pid M s) :
      sysctl env r (fun s ↦ s.exiting = 0) failed s = .inl (s.did r (!env.fails s.calls)) := by
    have hguard : ¬ (s.did r (!env.fails s.calls)).exiting = 0 := hs.exiting
    simp only [sysctl, decide_eq_false hguard, Bool.and_false, Bool.false_eq_true, if_false]
  constructor
  · intro s t hs ht
    rw [hrun s hs] at ht
    cases ht
    obtain ⟨after, hlog, htidy, hquiet, hdue⟩ := hs.log
    refine ⟨hs.exiting, hs.blocked, hs.pid_eq, hs.polls,
      after ++ [.sysctl r (!env.fails s.calls)], ?_, htidy.append (.sysctl hr _),
      hquiet.append (by simp [Quiet]), fun u hu ↦ ?_⟩
    · rw [State.did, State.record, hlog, List.append_assoc]
    · obtain hmade | ⟨hstill, hnot⟩ := hdue u hu
      · exact .inl (hmade.append_left _)
      · rcases eq_or_ne u r with rfl | hur
        · exact .inl (.append_right ⟨_, List.mem_singleton_self _⟩ _)
        · exact .inr ⟨hstill, by simp [hur, hnot]⟩
  · intro s t hs ht
    rw [hrun s hs] at ht
    cases ht

/-- One of the calls of the handler, which is made if it is due. -/
theorem whenever_leaving (hh : Handles env d h) {c : State → Bool} {u : Request} {p : Prog}
    (hc : ∀ s, s.pid = pid → c s = false → ¬ s.Due u)
    (hp : Triple (Leaving env p₀ L D d pid M) p (Leaving env p₀ L D d pid (u :: M))
      (Exited env p₀ L D)) :
    Triple (Leaving env p₀ L D d pid M) (whenever c (call env h p))
      (Leaving env p₀ L D d pid (u :: M)) (Exited env p₀ L D) := by
  have hcall : Triple (Leaving env p₀ L D d pid M) (call env h p)
      (Leaving env p₀ L D d pid (u :: M)) (Exited env p₀ L D) :=
    (arrive_leaving hh).cons (hp.cons .nil)
  refine .whenever (hcall.weaken (fun s hs ↦ hs.1) (fun _ h ↦ h) (fun _ h ↦ h)) fun s hs hfalse ↦ ?_
  obtain ⟨after, hlog, htidy, hquiet, hdue⟩ := hs.log
  refine ⟨hs.exiting, hs.blocked, hs.pid_eq, hs.polls, after, hlog, htidy, hquiet, fun v hv ↦ ?_⟩
  refine (hdue v hv).imp_right fun ⟨hstill, hnot⟩ ↦ ⟨hstill, ?_⟩
  have hne : v ≠ u := fun heq ↦ hc s hs.pid_eq hfalse (heq ▸ hstill)
  simp [hne, hnot]

theorem write_leaving (line : String) :
    Triple (Leaving env p₀ L D d pid M) (write line) (Leaving env p₀ L D d pid M) E := by
  refine .assign fun s hs ↦ ?_
  obtain ⟨after, hlog, htidy, hquiet, hdue⟩ := hs.log
  refine ⟨hs.exiting, hs.blocked, hs.pid_eq, hs.polls, after ++ [.wrote line], ?_,
    htidy.append (.wrote line), hquiet.append (by simp [Quiet]),
    fun u hu ↦ (hdue u hu).imp_left (·.append_left _)⟩
  rw [State.record, hlog, List.append_assoc]

/-- All that may be due. -/
theorem State.Due.mem {s : State} {u : Request} (h : s.Due u) :
    u ∈ [.remove, .pidtr s.pid 0, .enable 0] := by
  cases u with
  | enable value =>
    obtain ⟨rfl, -⟩ := h
    simp
  | pidtr value1 value2 =>
    obtain ⟨rfl, rfl, -⟩ := h
    simp
  | remove => simp
  | setup => exact h.elim
  | setbuf nbufs => exact h.elim
  | setreg value1 value2 value3 value4 => exact h.elim
  | getbuf => exact h.elim
  | readtr => exact h.elim

theorem ukdbgSetenable_leaving : Triple (Leaving env p₀ L D d pid M) (ukdbgSetenable env h 0)
    (Leaving env p₀ L D d pid (.enable 0 :: M)) E := by
  refine .cons (sysctl_leaving (r := .enable 0) rfl _) (.cons (.assign fun s hs ↦ ?_) .nil)
  obtain ⟨after, hlog, htidy, hquiet, hdue⟩ := hs.log
  refine ⟨hs.exiting, hs.blocked, hs.pid_eq, hs.polls, after, hlog, htidy, hquiet, fun u hu ↦ ?_⟩
  refine (hdue u hu).imp_right fun ⟨hstill, hnot⟩ ↦ ⟨?_, hnot⟩
  -- the flag that is cleared is about the request that has just been made
  cases u with
  | enable value =>
    obtain ⟨rfl, -⟩ := hstill
    exact (hnot List.mem_cons_self).elim
  | _ => exact hstill

theorem ukdbgSetpidcheck_leaving :
    Triple (Leaving env p₀ L D d pid M) (fun s ↦ ukdbgSetpidcheck env h s.pid 0 s)
      (Leaving env p₀ L D d pid (.pidtr pid 0 :: M)) E :=
  .of_eq (sysctl_leaving (r := .pidtr pid 0) rfl (ukdbgExit h "ukdbg_setpidcheck::sysctl"))
    fun s hs ↦ by rw [hs.pid_eq, ukdbgSetpidcheck]

/-- The handler has come by everything. -/
theorem exit_leaving (n : ℤ) : Triple (Leaving env p₀ L D d pid [.remove, .pidtr pid 0, .enable 0])
    (fun s ↦ .inr (.exit n s)) (fun _ ↦ False) (Exited env p₀ L D) where
  next s t _ ht := by cases ht
  exit s r hs hr := by
    cases hr
    obtain ⟨after, hlog, htidy, hquiet, hdue⟩ := hs.log
    refine ⟨n, s, after, rfl, hlog, htidy, hquiet, fun u hu ↦ ?_⟩
    obtain hmade | ⟨hstill, hnot⟩ := hdue u hu
    · exact hmade
    · exact (hnot (hs.pid_eq ▸ hstill.mem)).elim

end

/-- **The handler asks for what is due, and exits.**  Each time it is entered anew, one more signal
is blocked. -/
theorem ukdbgExitHandler_handles (env : Env) (d : ℕ) : Handles env d (ukdbgExitHandler env d) := by
  induction d with
  | zero => exact fun n s₀ h ↦ absurd h (Nat.not_lt_zero _)
  | succ d ih =>
    intro n s₀ hblocked
    rw [ukdbgExitHandler]
    have hstart : Triple (· = s₀)
        (assign fun t : State ↦ { t.record (.entered n) with exiting := 1 })
        (Leaving env s₀.polls (s₀.log ++ [.entered n]) s₀.Due d s₀.pid [])
        (Exited env s₀.polls (s₀.log ++ [.entered n]) s₀.Due) := by
      refine .assign ?_
      rintro s rfl
      exact ⟨one_ne_zero, Nat.lt_succ_iff.mp hblocked, rfl, le_rfl, [], (List.append_nil _).symm,
        .nil, by simp [Quiet], fun u hu ↦ .inr ⟨hu, List.not_mem_nil⟩⟩
    refine hstart.cons (.cons (whenever_leaving ih (u := .enable 0) ?_ ukdbgSetenable_leaving)
      (.cons (whenever_leaving ih (u := .pidtr s₀.pid 0) ?_ ukdbgSetpidcheck_leaving)
      (.cons (whenever_leaving ih (u := .remove) ?_ (sysctl_leaving (r := .remove) trivial _))
      ((arrive_leaving ih).cons ((write_leaving _).cons ((exit_leaving n).cons .nil))))))
    · exact fun s _ hfalse hdue ↦ of_decide_eq_false hfalse hdue.2
    · exact fun s hpid hfalse hdue ↦ of_decide_eq_false hfalse hdue.2.2
    · exact fun s _ hfalse hdue ↦ of_decide_eq_false hfalse hdue

end Kdebug
end MacOSXInternal
