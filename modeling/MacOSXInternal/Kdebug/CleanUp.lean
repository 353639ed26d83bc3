import MacOSXInternal.Kdebug.Handler

/-!
# What `kdebug` leaves behind

* `Ready` is what holds between two calls of `main`: all that has been set up is due.
* `main_finished`: every run that something happens to comes to its end, through the handler.
* `Facility` is what is relied on in the kernel, and `main_undoes` the result.
-/

set_option autoImplicit false

namespace MacOSXInternal
namespace Kdebug

open Exits

/-! ## Before the handler -/

section
variable {env : Env} {h : Handler} {d b : ℕ} {X Q : State → Prop}

/-- Nothing has been set up that the handler would not take back. -/
structure Covered (d : ℕ) (s : State) : Prop where
  blocked : s.blockedᶜ.card < d
  entered : ∀ n, .entered n ∉ s.log
  due : ∀ u r, Undoes u r → .sysctl r true ∈ s.log → s.Due u

/-- Something happens to the run: a call fails, or a signal arrives. -/
def Env.Happens (env : Env) (n : ℕ) : Prop := env.fails n = true ∨ env.arrives n ≠ none

/-- The handler is about to be entered, since something has happened. -/
structure Struck (env : Env) (d : ℕ) (s : State) : Prop extends Covered d s where
  happened : ∃ n < s.polls, env.Happens n

/-- The program has exited because of what happened at `event`, and the handler has taken back what
had been set up before. -/
def Finished (env : Env) (r : End) : Prop :=
  ∃ event status t before n after, env.Happens event ∧ r = .exit status t ∧
    t.log = before ++ .entered n :: after ∧ (∀ n, .entered n ∉ before) ∧ Tidy after ∧
    Quiet env (event + 1) after ∧ ∀ u r, Undoes u r → .sysctl r true ∈ before → Made u after

theorem Handles.finished (hh : Handles env d h) {s : State} (hs : Struck env d s) (n : ℤ) :
    Triple (· = s) (h n) (fun _ ↦ False) (Finished env) := by
  refine (hh n s hs.blocked).weaken (fun _ h ↦ h) (fun _ h ↦ h) ?_
  rintro r ⟨status, t, after, rfl, hlog, htidy, hquiet, hdue⟩
  obtain ⟨event, hlt, hevent⟩ := hs.happened
  refine ⟨event, status, t, s.log, n, after, hevent, rfl, ?_, hs.entered, htidy,
    fun hnone ↦ hquiet fun m hm ↦ hnone m (Nat.le_trans hlt hm),
    fun u r hur hr ↦ hdue u (hs.due u r hur hr)⟩
  rw [hlog, List.append_assoc]
  rfl

/-- An event that says nothing of these. -/
theorem Covered.record {s : State} (hs : Covered d s) {e : Event} (he : ∀ n, e ≠ .entered n)
    (he' : ∀ r, e ≠ .sysctl r true) : Covered d (s.record e) where
  blocked := hs.blocked
  entered n hn := by
    obtain hn | hn := List.mem_append.mp hn
    · exact hs.entered n hn
    · exact he n (List.mem_singleton.mp hn).symm
  due u r hur hr := by
    obtain hr | hr := List.mem_append.mp hr
    · exact hs.due u r hur hr
    · exact (he' r (List.mem_singleton.mp hr).symm).elim

theorem ukdbgExit_finished (hh : Handles env d h) (msg : String) :
    Triple (Struck env d) (ukdbgExit h msg) (fun _ ↦ False) (Finished env) :=
  .cons (.assign fun _ hs ↦ ⟨hs.record nofun nofun, hs.happened⟩)
    (.cons (.of_forall fun _ hs ↦ hh.finished hs 0) .nil)

/-- Between two calls of `main`; `b` tells whether the next one has been looked for signals. -/
structure Ready (env : Env) (d b : ℕ) (s : State) : Prop where
  exiting : s.exiting = 0
  blocked : s.blocked = ∅
  setRemoveFlag : s.setRemoveFlag ≠ 0
  polls : s.polls = s.calls + b
  fails : ∀ n < s.calls, env.fails n = false
  arrives : ∀ n < s.polls, env.arrives n = none
  covered : Covered d s

/-- A call that has failed has set up nothing. -/
theorem Ready.struck {s : State} (hs : Ready env d 1 s) (hf : env.fails s.calls = true)
    (r : Request) : Struck env d (s.did r false) where
  toCovered := by
    have hcovered : Covered d (s.record (.sysctl r false)) := hs.covered.record nofun nofun
    exact ⟨hcovered.blocked, hcovered.entered, hcovered.due⟩
  happened := ⟨s.calls, hs.polls ▸ Nat.lt_succ_self s.calls, .inl hf⟩

theorem arrive_ready (hh : Handles env d h) (hX : ∀ s n, X s → X { s with polls := n }) :
    Triple (fun s ↦ Ready env d 0 s ∧ X s) (arrive env h) (fun s ↦ Ready env d 1 s ∧ X s)
      (Finished env) := by
  refine arrive_triple (fun s ⟨hs, hx⟩ hsig ↦ ⟨?_, hX s _ hx⟩) fun s sig ⟨hs, _⟩ harr hsig ↦ ?_
  · have hnone : env.arrives s.polls = none := by
      rw [Option.eq_none_iff_forall_ne_some]
      intro sig h
      have hmem := hsig sig h
      rw [hs.blocked] at hmem
      exact Finset.notMem_empty sig hmem
    refine ⟨hs.exiting, hs.blocked, hs.setRemoveFlag, ?_, hs.fails, fun n hn ↦ ?_, ?_⟩
    · exact congrArg (· + 1) hs.polls
    · obtain hlt | rfl := Nat.lt_succ_iff_lt_or_eq.mp hn
      · exact hs.arrives n hlt
      · exact hnone
    · exact ⟨hs.covered.blocked, hs.covered.entered, hs.covered.due⟩
  · have hcovered : Covered d (s.record (.arrived sig)) := hs.covered.record nofun nofun
    refine hh.finished ?_ _
    refine ⟨⟨(card_compl_insert_lt hsig).trans hs.covered.blocked, hcovered.entered,
      hcovered.due⟩, s.polls, Nat.lt_succ_self _, .inr ?_⟩
    rw [harr]
    exact Option.some_ne_none sig

theorem call_ready (hh : Handles env d h) (hX : ∀ s n, X s → X { s with polls := n }) {p : Prog}
    (hp : Triple (fun s ↦ Ready env d 1 s ∧ X s) p Q (Finished env)) :
    Triple (fun s ↦ Ready env d 0 s ∧ X s) (call env h p) Q (Finished env) :=
  (arrive_ready hh hX).cons (hp.cons .nil)

/-- A call of `sysctl` that does not fail; or else the rest does not return. -/
theorem sysctl_done {r : Request} {guard : State → Bool} {failed : Prog}
    (hguard : ∀ s, s.exiting = 0 → guard s = true)
    (hfail : ∀ s, Ready env d 1 s → X s → env.fails s.calls = true →
      Triple (· = s.did r false) failed (fun _ ↦ False) (Finished env)) :
    Triple (fun s ↦ Ready env d 1 s ∧ X s) (sysctl env r guard failed)
      (fun t ↦ ∃ s, Ready env d 1 s ∧ X s ∧ env.fails s.calls = false ∧ t = s.did r true)
      (Finished env) := by
  refine .of_forall fun s ⟨hs, hx⟩ ↦ ?_
  cases hf : env.fails s.calls with
  | false =>
    refine ⟨?_, ?_⟩
    · rintro s' t rfl ht
      rw [sysctl_of_ok hf] at ht
      cases ht
      exact ⟨s', hs, hx, hf, rfl⟩
    · rintro _ r rfl hr
      rw [sysctl_of_ok hf] at hr
      cases hr
  | true =>
    have hrun : sysctl env r guard failed s = failed (s.did r false) := by
      simp [sysctl, hf, hguard (s.did r false) hs.exiting]
    obtain ⟨e, he, hfin⟩ := (hfail s hs hx hf).exists_exit rfl
    rw [he] at hrun
    refine ⟨?_, ?_⟩
    · rintro _ t rfl ht
      rw [hrun] at ht
      cases ht
    · rintro _ r rfl hr
      rw [hrun] at hr
      cases hr
      exact hfin

/-- What has been set up is due from then on, if the flags say so. -/
theorem Ready.did {s : State} (hs : Ready env d 1 s) (hf : env.fails s.calls = false) {r : Request}
    (hr : ∀ u, Undoes u r → s.Due u) : Ready env d 0 (s.did r true) where
  exiting := hs.exiting
  blocked := hs.blocked
  setRemoveFlag := hs.setRemoveFlag
  polls := hs.polls
  fails n hn := by
    obtain hlt | rfl := Nat.lt_succ_iff_lt_or_eq.mp hn
    · exact hs.fails n hlt
    · exact hf
  arrives := hs.arrives
  covered := by
    refine ⟨hs.covered.blocked, fun n hn ↦ ?_, fun u r' hur hr' ↦ ?_⟩
    · obtain hn | hn := List.mem_append.mp hn
      · exact hs.covered.entered n hn
      · cases List.mem_singleton.mp hn
    · obtain hr' | hr' := List.mem_append.mp hr'
      · exact hs.covered.due u r' hur hr'
      · cases List.mem_singleton.mp hr'
        exact hr u hur

/-! ## The calls of `main` -/

/-- A call that `main` makes, which brings the run forward. -/
def Advances (env : Env) (d : ℕ) (p : Prog) : Prop :=
  ∀ k, Triple (fun s ↦ Ready env d 0 s ∧ s.calls = k) p (fun t ↦ Ready env d 0 t ∧ k < t.calls)
    (Finished env)

theorem Advances.ready {p : Prog} (hp : Advances env d p) :
    Triple (Ready env d 0) p (Ready env d 0) (Finished env) :=
  .of_forall fun s hs ↦
    ((hp s.calls).single ⟨hs, rfl⟩).weaken (fun _ h ↦ h) (fun _ ht ↦ ht.1) (fun _ h ↦ h)

theorem Advances.both {p q : Prog} (hp : Advances env d p) (hq : Advances env d q) :
    Advances env d (inOrder [p, q]) := by
  refine fun k ↦ (hp k).cons (.cons (.of_forall fun s ⟨hs, hlt⟩ ↦ ?_) .nil)
  exact ((hq s.calls).single ⟨hs, rfl⟩).weaken (fun _ h ↦ h)
    (fun t ht ↦ ⟨ht.1, Nat.lt_trans hlt ht.2⟩) (fun _ h ↦ h)

/-- The functions that do nothing but ask, and do not look at `exiting`. -/
theorem advances_sysctl (hh : Handles env d h) {r : Request} (msg : String)
    (hr : ∀ (s : State) u, s.setRemoveFlag ≠ 0 → Undoes u r → s.Due u) :
    Advances env d (call env h (sysctl env r (fun _ ↦ true) (ukdbgExit h msg))) := by
  refine fun k ↦ call_ready (X := fun s ↦ s.calls = k) hh (fun _ _ hx ↦ hx) ?_
  refine (sysctl_done (fun _ _ ↦ rfl) fun s hs _ hf ↦ ?_).weaken (fun _ hs ↦ hs) ?_ (fun _ h ↦ h)
  · exact (ukdbgExit_finished hh msg).single (hs.struck hf r)
  · rintro _ ⟨s, hs, rfl, hf, rfl⟩
    exact ⟨hs.did hf fun u hu ↦ hr s u hs.setRemoveFlag hu, Nat.lt_succ_self _⟩

theorem advances_sample (hh : Handles env d h) : Advances env d (sample env h) :=
  (advances_sysctl hh _ (by rintro s u - ⟨⟩)).both (advances_sysctl hh _ (by rintro s u - ⟨⟩))

/-- The first call.  When it fails, the flag says that there is nothing to remove. -/
theorem ukdbgClear_ready (hh : Handles env d h) :
    Triple (fun s ↦ Ready env d 0 s ∧ s.log = []) (call env h (ukdbgClear env h)) (Ready env d 0)
      (Finished env) := by
  refine call_ready (X := fun s ↦ s.log = []) hh (fun _ _ hx ↦ hx) ?_
  refine (sysctl_done (fun s hs ↦ decide_eq_true hs) fun s hs hlog hf ↦ ?_).weaken (fun _ hs ↦ hs)
    ?_ (fun _ h ↦ h)
  · refine .cons (Q := Struck env d) (.assign ?_) ((ukdbgExit_finished hh _).cons .nil)
    rintro _ rfl
    have hstruck := hs.struck hf .remove
    refine ⟨⟨hstruck.blocked, hstruck.entered, fun u r hur hr ↦ ?_⟩, hstruck.happened⟩
    have hmem : .sysctl r true ∈ s.log ++ [.sysctl .remove false] := hr
    rw [hlog] at hmem
    cases List.mem_singleton.mp hmem
  · rintro _ ⟨s, hs, -, hf, rfl⟩
    exact hs.did hf (by rintro u ⟨⟩)

theorem ukdbgSetpidcheck_ready (hh : Handles env d h) :
    Triple (Ready env d 0) (whenever (fun s ↦ 0 < s.pid)
      (call env h fun s ↦ ukdbgSetpidcheck env h s.pid 1 s)) (Ready env d 0) (Finished env) := by
  refine .whenever (.of_forall fun s₀ ⟨hs₀, hpid⟩ ↦ ?_) fun s hs _ ↦ hs
  refine (call_ready (X := fun s ↦ s.pid = s₀.pid) hh (fun _ _ hx ↦ hx) ?_).single ⟨hs₀, rfl⟩
  refine .of_eq (q := ukdbgSetpidcheck env h s₀.pid 1) ?_ fun s ⟨_, hx⟩ ↦ by rw [hx]
  refine (sysctl_done (fun s hs ↦ decide_eq_true hs) fun s hs _ hf ↦ ?_).weaken (fun _ hs ↦ hs) ?_
    (fun _ h ↦ h)
  · exact (ukdbgExit_finished hh _).single (hs.struck hf _)
  · rintro _ ⟨s, hs, hx, hf, rfl⟩
    refine hs.did hf ?_
    rintro _ ⟨⟩
    exact ⟨hx.symm, rfl, hx ▸ of_decide_eq_true hpid⟩

/-- The last call before the loop.  Nothing looks at the flag until it is set. -/
theorem ukdbgSetenable_ready (hh : Handles env d h) :
    Triple (Ready env d 0) (call env h (ukdbgSetenable env h 1)) (Ready env d 0)
      (Finished env) := by
  refine (call_ready (X := fun _ ↦ True) hh (fun _ _ hx ↦ hx) (.cons (sysctl_done
    (fun s hs ↦ decide_eq_true hs) fun s hs _ hf ↦ ?_) (.cons (.assign ?_) .nil))).weaken
    (fun s hs ↦ ⟨hs, trivial⟩) (fun _ h ↦ h) (fun _ h ↦ h)
  · exact (ukdbgExit_finished hh _).single (hs.struck hf _)
  · rintro _ ⟨s, hs, -, hf, rfl⟩
    have hdue (u : Request) (h : s.Due u) : State.Due { s with traceEnabled := 1 } u := by
      cases u with
      | enable value => exact ⟨h.1, one_ne_zero⟩
      | _ => exact h
    have hset : Ready env d 1 { s with traceEnabled := 1 } :=
      ⟨hs.exiting, hs.blocked, hs.setRemoveFlag, hs.polls, hs.fails, hs.arrives,
        hs.covered.blocked, hs.covered.entered, fun u r hur hr ↦ hdue u (hs.covered.due u r hur hr)⟩
    refine hset.did hf ?_
    rintro _ ⟨⟩
    exact ⟨rfl, one_ne_zero⟩

theorem setUp_ready (hh : Handles env d h) :
    Triple (fun s ↦ Ready env d 0 s ∧ s.log = []) (setUp env h) (Ready env d 0) (Finished env) :=
  (ukdbgClear_ready hh).cons
    ((advances_sysctl hh _ (by rintro s u hs ⟨⟩; exact hs)).ready.cons
    ((advances_sysctl hh _ (by rintro s u hs ⟨⟩; exact hs)).ready.cons
    ((ukdbgSetpidcheck_ready hh).cons
    ((advances_sysctl hh _ (by rintro s u - ⟨⟩)).ready.cons
    ((ukdbgSetenable_ready hh).cons .nil)))))

/-- **Every run that something happens to comes to its end**, and through the handler. -/
theorem main_finished (hevent : ∃ n, env.Happens n) {depth : ℕ}
    (hdepth : 4 < depth) {argv : List ℤ} (hargv : argv.length ≤ 1) :
    ∃ turns, ∀ fuel, turns ≤ fuel → ∃ r,
      main env depth fuel argv true = some r ∧ Finished env r := by
  have hh := ukdbgExitHandler_handles env depth
  obtain ⟨s, hs⟩ : ∃ s, s = { State.initial with pid := argv.headD (-1) } := ⟨_, rfl⟩
  have hready : Ready env depth 0 s ∧ s.log = [] := by
    rw [hs]
    refine ⟨⟨rfl, rfl, one_ne_zero, rfl, ?_, ?_, hdepth, ?_, ?_⟩, rfl⟩
    · exact fun n hn ↦ absurd hn (Nat.not_lt_zero n)
    · exact fun n hn ↦ absurd hn (Nat.not_lt_zero n)
    · exact fun n ↦ List.not_mem_nil
    · exact fun u r hu hr ↦ absurd hr List.not_mem_nil
  have hmain (fuel : ℕ) : main env depth fuel argv true =
      Sum.elim (Loop.run (sample env (ukdbgExitHandler env depth)) fuel) some
        (setUp env (ukdbgExitHandler env depth) s) := by
    rw [hs]
    rcases argv with _ | ⟨pid, _ | ⟨x, argv⟩⟩
    · simp only [main, if_true]
      split <;> rename_i hset <;> rw [hset] <;> rfl
    · simp only [main, if_true]
      split <;> rename_i hset <;> rw [hset] <;> rfl
    · exact absurd hargv (by simp)
  simp only [hmain]
  cases hset : setUp env (ukdbgExitHandler env depth) s with
  | inr r => exact ⟨0, fun _ _ ↦ ⟨r, rfl, (setUp_ready hh).exit s r hready hset⟩⟩
  | inl t =>
    obtain ⟨n, hn⟩ := hevent
    have hbound (s : State) (hs : Ready env depth 0 s) : s.calls ≤ n := by
      by_contra hlt
      rw [not_le] at hlt
      obtain hn | hn := hn
      · rw [hs.fails n hlt] at hn
        cases hn
      · exact hn (hs.arrives n (hs.polls ▸ hlt))
    have hturn (k : ℕ) : Triple (fun s ↦ Ready env depth 0 s ∧ n - s.calls = k)
        (sample env (ukdbgExitHandler env depth)) (fun s ↦ Ready env depth 0 s ∧ n - s.calls < k)
        (Finished env) := by
      refine .of_forall fun s hs ↦ ((advances_sample hh s.calls).single ⟨hs.1, rfl⟩).weaken
        (fun _ h ↦ h) (fun t ht ↦ ⟨ht.1, ?_⟩) (fun _ h ↦ h)
      obtain ⟨ht, hlt⟩ := ht
      have := hbound t ht
      omega
    obtain ⟨r, ⟨turns, hrun⟩, hfin⟩ := Triple.forever (fun s ↦ n - s.calls) hturn
      ((setUp_ready hh).next s t hready hset)
    exact ⟨turns, fun fuel hfuel ↦ ⟨r, Loop.run_mono hfuel hrun, hfin⟩⟩

end

/-! ## The kernel -/

/-- What is relied on in the kernel: each request of the handler turns off what the comment at its
function says, and none of them turns anything on. -/
structure Facility (κ : Type) where
  apply : Request → κ → κ
  tracing : κ → Prop
  pidCheck : ℤ → κ → Prop
  buffers : κ → Prop
  enable_off : ∀ k, ¬ tracing (apply (.enable 0) k)
  pidtr_off : ∀ pid k, ¬ pidCheck pid (apply (.pidtr pid 0) k)
  remove_off : ∀ k, ¬ buffers (apply .remove k)
  tracing_kept : ∀ r k, r.IsCleanUp → tracing (apply r k) → tracing k
  pidCheck_kept : ∀ pid r k, r.IsCleanUp → pidCheck pid (apply r k) → pidCheck pid k
  buffers_kept : ∀ r k, r.IsCleanUp → buffers (apply r k) → buffers k

section
variable {κ : Type} (F : Facility κ)

/-- A call that fails has no effect. -/
def Facility.step (k : κ) : Event → κ
  | .sysctl r true => F.apply r k
  | _ => k

/-- The kernel after a run. -/
def Facility.after (log : List Event) (k : κ) : κ := log.foldl F.step k

/-- What an element turns off, and none turns on, is off in the end. -/
theorem not_foldl_of_mem {α β : Type} {f : β → α → β} {P : β → Prop} {l : List α} {a : α}
    (ha : a ∈ l) (hoff : ∀ b, ¬ P (f b a)) (hkept : ∀ a ∈ l, ∀ b, P (f b a) → P b) (b : β) :
    ¬ P (l.foldl f b) := by
  have hback (l : List α) (hkept : ∀ a ∈ l, ∀ b, P (f b a) → P b) (b : β)
      (h : P (l.foldl f b)) : P b := by
    induction l generalizing b with
    | nil => exact h
    | cons x l ih =>
      obtain ⟨hx, hl⟩ := List.forall_mem_cons.mp hkept
      exact hx b (ih hl _ h)
  obtain ⟨l₁, l₂, rfl⟩ := List.append_of_mem ha
  intro h
  rw [List.foldl_append, List.foldl_cons] at h
  exact hoff _ (hback l₂ (fun x hx ↦ hkept x (by simp [hx])) _ h)

variable {F} {P : κ → Prop} {u : Request} {before after : List Event} {n : ℤ}

theorem Tidy.not_after (htidy : Tidy after) (hoff : ∀ k, ¬ P (F.apply u k))
    (hkept : ∀ r k, r.IsCleanUp → P (F.apply r k) → P k) (hu : .sysctl u true ∈ after) (k : κ) :
    ¬ P (F.after (before ++ .entered n :: after) k) := by
  rw [Facility.after, List.foldl_append, List.foldl_cons]
  refine not_foldl_of_mem hu (fun k ↦ hoff k) (fun e he k hP ↦ ?_) _
  match e, he, hP with
  | .sysctl r true, he, hP => exact hkept r k (htidy.cleanUp r true he) hP
  | .sysctl _ false, _, hP => exact hP
  | .arrived _, _, hP => exact hP
  | .entered _, _, hP => exact hP
  | .wrote _, _, hP => exact hP

/-- What had been set up before the handler was entered has been taken back after it, so that it is
not in effect in `k` if the call for that has succeeded. -/
structure Undone (F : Facility κ) (k : κ) (before after : List Event) : Prop where
  tracing : ∀ value, value ≠ 0 → .sysctl (.enable value) true ∈ before →
    Made (.enable 0) after ∧ (.sysctl (.enable 0) true ∈ after → ¬ F.tracing k)
  pidCheck : ∀ pid check, check ≠ 0 → .sysctl (.pidtr pid check) true ∈ before →
    Made (.pidtr pid 0) after ∧ (.sysctl (.pidtr pid 0) true ∈ after → ¬ F.pidCheck pid k)
  buffers : (∃ nbufs, .sysctl (.setbuf nbufs) true ∈ before) ∨ .sysctl .setup true ∈ before →
    Made .remove after ∧ (.sysctl .remove true ∈ after → ¬ F.buffers k)

theorem Tidy.undone (htidy : Tidy after)
    (hmade : ∀ u r, Undoes u r → .sysctl r true ∈ before → Made u after) (k : κ) :
    Undone F (F.after (before ++ .entered n :: after) k) before after where
  tracing value hv hr :=
    ⟨hmade _ _ (.enable hv) hr, fun hu ↦ htidy.not_after F.enable_off F.tracing_kept hu k⟩
  pidCheck pid check hc hr :=
    ⟨hmade _ _ (.pidtr pid hc) hr,
      fun hu ↦ htidy.not_after (F.pidtr_off pid) (F.pidCheck_kept pid) hu k⟩
  buffers hr := by
    refine ⟨?_, fun hu ↦ htidy.not_after F.remove_off F.buffers_kept hu k⟩
    obtain ⟨nbufs, hr⟩ | hr := hr
    · exact hmade _ _ (.setbuf nbufs) hr
    · exact hmade _ _ .setup hr

/-- The handler is entered once, and then only by signals that arrive while it is at work; so not
again if none does after what ended the run. -/
structure Once (env : Env) (event : ℕ) (before after : List Event) : Prop where
  first : ∀ n, .entered n ∉ before
  again : after.countP (·.isEntered) = after.countP (·.isArrived)
  alone : (∀ m, event < m → env.arrives m = none) → ∀ n, .entered n ∉ after

theorem Tidy.once {env : Env} {event : ℕ} (htidy : Tidy after)
    (hquiet : Quiet env (event + 1) after) (hbefore : ∀ n, .entered n ∉ before) :
    Once env event before after where
  first := hbefore
  again := htidy.entered
  alone hnone n hn := by
    have hzero : after.countP (·.isArrived) = 0 := by
      refine List.countP_eq_zero.mpr fun e he hsig ↦ ?_
      cases e with
      | arrived sig => exact hquiet hnone sig he
      | _ => cases hsig
    exact List.countP_eq_zero.mp (htidy.entered.trans hzero) _ hn rfl

end

/-- **`kdebug` undoes what it has set up.**  Whatever calls fail and whatever signals arrive, if
anything of this happens at all, then the handler is entered, it is not entered again by a call that
fails, `exit` is reached, and what had been set up has been taken back. -/
theorem main_undoes {κ : Type} (F : Facility κ) (k : κ) (env : Env) (hevent : ∃ n, env.Happens n)
    {depth : ℕ} (hdepth : 4 < depth) {argv : List ℤ} (hargv : argv.length ≤ 1) :
    ∃ turns, ∀ fuel, turns ≤ fuel → ∃ event status t before n after,
      env.Happens event ∧ main env depth fuel argv true = some (.exit status t) ∧
      t.log = before ++ .entered n :: after ∧ Once env event before after ∧
      Undone F (F.after t.log k) before after := by
  obtain ⟨turns, hturns⟩ := main_finished hevent hdepth hargv
  refine ⟨turns, fun fuel hfuel ↦ ?_⟩
  obtain ⟨r, hrun, event, status, t, before, n, after, hhappens, rfl, hlog, hbefore, htidy, hquiet,
    hmade⟩ := hturns fuel hfuel
  exact ⟨event, status, t, before, n, after, hhappens, hrun, hlog, htidy.once hquiet hbefore,
    hlog ▸ htidy.undone hmade k⟩

/-! ## A run that is interrupted -/

/-- What is on in the kernel, with the pids that are checked. -/
structure Switches where
  tracing : Bool
  pids : Finset ℤ
  buffers : Bool
  deriving DecidableEq

/-- The requests as the comments have them. -/
def switches : Facility Switches where
  apply
    | .enable value, k => { k with tracing := value ≠ 0 }
    | .remove, k => { k with buffers := false }
    | .setup, k => { k with tracing := false, buffers := true }
    | .setbuf _, k => { k with buffers := true }
    | .pidtr pid check, k =>
      { k with pids := if check = 0 then k.pids.erase pid else insert pid k.pids }
    | _, k => k
  tracing k := k.tracing = true
  pidCheck pid k := pid ∈ k.pids
  buffers k := k.buffers = true
  enable_off := by simp
  pidtr_off := by simp
  remove_off := by simp
  tracing_kept r k hr h := by
    cases r <;> simp_all [Request.IsCleanUp]
  pidCheck_kept pid r k hr h := by
    cases r <;> simp_all [Request.IsCleanUp]
  buffers_kept r k hr h := by
    cases r <;> simp_all [Request.IsCleanUp]

/-- The ninth call, the first one of the second turn, is interrupted from the keyboard. -/
def interrupted : Env where
  fails _ := false
  arrives n := if n = 8 then some .sigint else none
  bsddbgCode := 0

/-- When all has been set up for the process 42. -/
def running : State where
  exiting := 0
  pid := 42
  traceEnabled := 1
  setRemoveFlag := 1
  blocked := ∅
  calls := 6
  polls := 6
  log := [.sysctl .remove true, .sysctl (.setbuf kdbgSampleSize) true, .sysctl .setup true,
    .sysctl (.pidtr 42 1) true, .sysctl (.setreg 0 0 0 0) true, .sysctl (.enable 1) true]

/-- After the first turn. -/
def sampled : State :=
  { running with
    calls := 8
    polls := 8
    log := running.log ++ [.sysctl .getbuf true, .sysctl .readtr true] }

/-- When the handler is entered. -/
def struck : State :=
  { sampled with
    blocked := {.sigint}
    polls := 9
    log := sampled.log ++ [.arrived .sigint] }

def cleanedUp : State :=
  { struck with
    exiting := 1
    traceEnabled := 0
    calls := 11
    polls := 13
    log := struck.log ++ [.entered 2, .sysctl (.enable 0) true, .sysctl (.pidtr 42 0) true,
      .sysctl .remove true, .wrote "cleaning up..."] }

theorem setUp_interrupted (h : Handler) :
    setUp interrupted h { State.initial with pid := 42 } = .inl running := by
  simp [setUp, inOrder, call_of_none, sysctl_of_ok, interrupted, whenever, assign, ukdbgClear,
    ukdbgSetbuf, ukdbgReinit, ukdbgSetpidcheck, ukdbgSetregValcheck, ukdbgSetenable,
    State.initial, State.did, State.record, running]

theorem sample_running (h : Handler) : sample interrupted h running = .inl sampled := by
  simp [sample, inOrder, call_of_none, sysctl_of_ok, interrupted, ukdbgGetbuf, ukdbgRead,
    State.did, State.record, running, sampled]

theorem ukdbgExitHandler_struck :
    ukdbgExitHandler interrupted 5 2 struck = .inr (.exit 2 cleanedUp) := by
  simp [ukdbgExitHandler, inOrder, call_of_none, arrive_of_none, sysctl_of_ok, interrupted,
    whenever, assign, ukdbgClear, ukdbgSetpidcheck, ukdbgSetenable, write, State.did,
    State.record, cleanedUp, struck, sampled, running]

theorem sample_sampled :
    sample interrupted (ukdbgExitHandler interrupted 5) sampled = .inr (.exit 2 cleanedUp) := by
  have harrive : arrive interrupted (ukdbgExitHandler interrupted 5) sampled =
      ukdbgExitHandler interrupted 5 2 struck := rfl
  simp [sample, inOrder, call, harrive, ukdbgExitHandler_struck]

/-- The process 42 is traced, and nothing is on before.  All has been set up when the handler is
entered, and nothing is on at the exit. -/
theorem main_undoes_interrupted :
    ∃ turns, ∀ fuel, turns ≤ fuel → ∃ event status t before n after,
      interrupted.Happens event ∧ main interrupted 5 fuel [42] true = some (.exit status t) ∧
      t.log = before ++ .entered n :: after ∧ Once interrupted event before after ∧
      Undone switches (switches.after t.log ⟨false, ∅, false⟩) before after ∧
      (∀ r ∈ [.setbuf kdbgSampleSize, .setup, .pidtr 42 1, .enable 1], .sysctl r true ∈ before) ∧
      switches.after before ⟨false, ∅, false⟩ = ⟨true, {42}, true⟩ ∧
      switches.after t.log ⟨false, ∅, false⟩ = ⟨false, ∅, false⟩ := by
  have hdepth : 4 < 5 := by decide
  have hargv : [(42 : ℤ)].length ≤ 1 := by decide
  obtain ⟨turns, hturns⟩ := main_undoes switches ⟨false, ∅, false⟩ interrupted
    ⟨8, .inr (by decide)⟩ hdepth hargv
  refine ⟨max turns 2, fun fuel hfuel ↦ ?_⟩
  obtain ⟨event, status, t, before, n, after, hhappens, hrun, hlog, honce, hundone⟩ :=
    hturns fuel (Nat.le_trans (Nat.le_max_left ..) hfuel)
  have hmain : main interrupted 5 fuel [42] true = some (.exit 2 cleanedUp) := by
    obtain ⟨k, rfl⟩ := Nat.exists_eq_add_of_le' (Nat.le_trans (Nat.le_max_right ..) hfuel)
    simp [main, setUp_interrupted, Loop.run, sample_running, sample_sampled]
  obtain ⟨rfl, rfl⟩ := End.exit.inj (Option.some.inj (hrun.symm.trans hmain))
  -- what is before the handler is what is before it is entered first
  have hbefore : before = struck.log := by
    have hwhile : cleanedUp.log.takeWhile (!·.isEntered) = before := by
      rw [hlog, List.takeWhile_append_of_pos]
      · exact List.append_nil before
      · intro e he
        cases e with
        | entered m => exact absurd he (honce.first m)
        | _ => rfl
    rw [← hwhile]
    rfl
  refine ⟨event, 2, cleanedUp, before, n, after, hhappens, hrun, hlog, honce, hundone, ?_⟩
  rw [hbefore]
  exact ⟨by decide, by decide, by decide⟩

end Kdebug
end MacOSXInternal
