import MacOSXInternal.Notify.Consumer

/-!
# What is posted and what is printed

The part of `notify_consumer` that prints what comes by the descriptor and by the port.

* `OnPipe` follows a notification from `notify_post` to the line about the descriptor.  Its thread
  looks at `check` even if `read` has put nothing there.
* `OnPort` follows one to the thread of the port, which looks at what is in its message buffer even
  if nothing has been put there.
* `consumer_lines` is the result.
-/

set_option autoImplicit false

namespace MacOSXInternal
namespace Notify

open Runs

section
variable {wire : ℤ → ℤ} {s t : State} {a : Act} {θ : Thread} {at' : At} {name : Name} {token : ℤ}

/-! ## The descriptor -/

@[simp] theorem about_print (name : Name) (line : Line) : about name (s.print line).out =
    about name s.out ++ if line.name = name then [line] else [] := by
  simp [about, State.print, List.filter_append, List.filter_singleton]

/-- The part that leads from the posts to the lines about the descriptor.  `garbage` is what was in
`check` before anything had been read. -/
structure OnPipe (wire : ℤ → ℤ) (garbage : ℤ) (l : List Act) (s : State) : Prop where
  pipe : ∀ check ∈ s.pipe, ∃ token, s.issued .descriptor = some token ∧ check = wire token
  check : s.check = garbage ∨ ∃ token, s.issued .descriptor = some token ∧ s.check = wire token
  lines : ∀ line ∈ about .descriptor s.out, ∃ token, s.issued .descriptor = some token ∧
    (line = descriptorLine (wire token) token ∨
      0 < l.count .readEnds ∧ line = descriptorLine garbage token)
  length : (about .descriptor s.out).length + s.pipe.length ≤
    l.countP (Act.posts .descriptor) + l.count .readEnds
  printing : ∀ line ∈ s.printing, line.name = .signal

section
variable {garbage : ℤ} {l : List Act}

theorem OnPipe.mono (h : OnPipe wire garbage l s) : OnPipe wire garbage (l ++ [a]) s := by
  have hends := countP_le (· == .readEnds) l a
  refine ⟨h.pipe, h.check, fun line hline ↦ ?_, ?_, h.printing⟩
  · obtain ⟨token, hissued, hline⟩ := h.lines line hline
    exact ⟨token, hissued, hline.imp_right fun hline ↦ ⟨hline.1.trans_le hends, hline.2⟩⟩
  · exact h.length.trans (Nat.add_le_add (countP_le ..) hends)

/-- The pipe stays as it is, and what is printed is not about the descriptor. -/
theorem OnPipe.congr (h : OnPipe wire garbage l s) (hpipe : t.pipe = s.pipe)
    (hcheck : t.check = s.check) (hissued : t.issued .descriptor = s.issued .descriptor)
    (hout : about .descriptor t.out = about .descriptor s.out)
    (hprinting : ∀ line ∈ t.printing, line ∈ s.printing ∨ line.name = .signal) :
    OnPipe wire garbage l t where
  pipe := by
    rw [hpipe, hissued]
    exact h.pipe
  check := by
    rw [hcheck, hissued]
    exact h.check
  lines := by
    rw [hout, hissued]
    exact h.lines
  length := by
    rw [hout, hpipe]
    exact h.length
  printing line hline := (hprinting line hline).elim (h.printing line) id

theorem OnPipe.dispatch (h : OnPipe wire garbage l s) : OnPipe wire garbage l s.dispatch := by
  unfold State.dispatch
  split_ifs
  · exact h.congr rfl rfl rfl ((about_print ..).trans (by simp [Line.name]))
      fun _ hline ↦ .inl hline
  · exact h.congr rfl rfl rfl rfl fun _ hline ↦ .inl hline
  · exact h.congr rfl rfl rfl ((about_print ..).trans (by simp [Line.name]))
      fun _ hline ↦ .inl hline

/-- A line about the descriptor that there is room for. -/
theorem OnPipe.compare (h : OnPipe wire garbage l s)
    (hissued : s.issued .descriptor = some (s.token .descriptor))
    (hcheck : s.check = wire (s.token .descriptor) ∨ 0 < l.count .readEnds)
    (hroom : (about .descriptor s.out).length + s.pipe.length <
      l.countP (Act.posts .descriptor) + l.count .readEnds) :
    OnPipe wire garbage l s.compare := by
  have hout : about .descriptor s.compare.out =
      about .descriptor s.out ++ [descriptorLine s.check (s.token .descriptor)] := by
    rw [State.compare, about_print, descriptorLine_name, if_pos rfl]
  refine ⟨h.pipe, h.check, fun line hline ↦ ?_, ?_, h.printing⟩
  · rw [hout] at hline
    obtain hold | hnew := List.mem_append.mp hline
    · exact h.lines line hold
    · refine ⟨_, hissued, ?_⟩
      rw [List.mem_singleton.mp hnew]
      obtain hwire | hends := hcheck
      · exact .inl (by rw [hwire])
      · obtain hgarbage | ⟨token, htoken, hwire⟩ := h.check
        · exact .inr ⟨hends, by rw [hgarbage]⟩
        · obtain rfl := Option.some.inj (hissued.symm.trans htoken)
          exact .inl (by rw [hwire])
  · rw [hout, List.length_append, List.length_singleton]
    show _ + 1 + s.pipe.length ≤ _
    omega

theorem OnPipe.move (h : OnPipe wire garbage l s) (hfresh : Fresh s) (hmove : Move wire s a t) :
    OnPipe wire garbage (l ++ [a]) t := by
  have hwaiting (hat : s.thread .descriptor = .waiting) :
      s.issued .descriptor = some (s.token .descriptor) :=
    hfresh.past .descriptor (by
      show (s.thread .descriptor).Past .descriptor
      rw [hat]
      trivial)
  cases hmove with
  | @post argv name hargv =>
    obtain ⟨heq, -⟩ | ⟨token, hissued, ⟨rfl, heq⟩ | ⟨-, heq⟩ | ⟨-, heq⟩⟩ :=
      notify_post_cases wire s name
    · rw [heq]
      exact h.mono
    · rw [heq]
      refine ⟨fun check hcheck ↦ ?_, h.check, h.mono.lines, ?_, h.printing⟩
      · obtain hold | hnew := List.mem_append.mp hcheck
        · exact h.pipe check hold
        · exact ⟨token, hissued, List.mem_singleton.mp hnew⟩
      · have hlength := h.length
        have hends := countP_le (· == .readEnds) l (Act.produce argv)
        change l.count .readEnds ≤ (l ++ [Act.produce argv]).count .readEnds at hends
        rw [countP_post l hargv]
        simp only [List.length_append, List.length_singleton]
        omega
    · rw [heq]
      exact h.mono.congr rfl rfl rfl rfl fun _ hline ↦ .inl hline
    · rw [heq]
      exact h.mono.congr rfl rfl rfl rfl fun _ hline ↦ .inl hline
  | @handle k =>
    refine h.mono.congr rfl rfl rfl rfl fun line hline ↦ ?_
    obtain hold | hnew := List.mem_append.mp hline
    · exact .inl hold
    · exact .inr (by rw [List.mem_singleton.mp hnew, sighandler_USR1_name])
  | @handleFails k changed =>
    refine h.mono.congr rfl rfl rfl rfl fun line hline ↦ ?_
    obtain hold | hnew := List.mem_append.mp hline
    · exact .inl hold
    · exact .inr (by rw [List.mem_singleton.mp hnew]; rfl)
  | @print pre post line hprinting =>
    have hname : line.name = .signal := h.printing line (by simp [hprinting])
    refine h.mono.congr rfl rfl rfl ?_ fun other hother ↦ .inl ?_
    · exact (about_print ..).trans (by simp [hname])
    · rw [hprinting]
      obtain hpre | hpost := List.mem_append.mp hother
      · exact List.mem_append_left _ hpre
      · exact List.mem_append_right _ (List.mem_cons_of_mem _ hpost)
  | @register θ name token hθ hvalid hnew =>
    by_cases hname : name = .descriptor
    · subst hname
      -- nothing has been written or printed before
      have hnone : s.issued .descriptor = none := by
        refine hfresh.ahead .descriptor ?_
        rw [hfresh.register θ .descriptor hθ, hθ]
        exact .inl rfl
      have hpipe (check : ℤ) (hcheck : check ∈ s.pipe) : False := by
        obtain ⟨token, hissued, -⟩ := h.pipe check hcheck
        exact absurd (hnone.symm.trans hissued) nofun
      have hlines (line : Line) (hline : line ∈ about .descriptor s.out) : False := by
        obtain ⟨token, hissued, -⟩ := h.lines line hline
        exact absurd (hnone.symm.trans hissued) nofun
      have hcheck : s.check = garbage := h.check.resolve_right fun ⟨token, hissued, _⟩ ↦ by
        exact absurd (hnone.symm.trans hissued) nofun
      exact ⟨fun check hcheck ↦ (hpipe check hcheck).elim, .inl hcheck,
        fun line hline ↦ (hlines line hline).elim, h.mono.length, h.printing⟩
    · refine h.mono.congr rfl rfl ?_ rfl fun _ hline ↦ .inl hline
      exact Function.update_of_ne (Ne.symm hname) ..
  | @read check rest hat hpipe =>
    have hissued := hwaiting hat
    have hwire : check = wire (s.token .descriptor) := by
      obtain ⟨token, htoken, hcheck⟩ := h.pipe check (by simp [hpipe])
      obtain rfl := Option.some.inj (hissued.symm.trans htoken)
      exact hcheck
    have hlength := h.mono (a := Act.other).length
    rw [hpipe, List.length_cons] at hlength
    have hread : OnPipe wire garbage (l ++ [Act.other]) { s with check := check, pipe := rest } :=
      ⟨fun other hother ↦ h.pipe other (by simp [hpipe, hother]), .inr ⟨_, hissued, hwire⟩,
        h.mono.lines, by
          show (about .descriptor s.out).length + rest.length ≤ _
          omega, h.printing⟩
    exact hread.compare hissued (.inl hwire) hlength
  | readEnds hat hpipe =>
    have hends : (l ++ [Act.readEnds]).count Act.readEnds = l.count .readEnds + 1 := by simp
    have hposts := countP_le (Act.posts .descriptor) l .readEnds
    have hlength := h.length
    exact h.mono.compare (hwaiting hat) (.inr (by omega)) (by omega)
  | @receive id rest =>
    have hreceived : OnPipe wire garbage (l ++ [Act.other])
        { s with queue := rest, msgh_id := id } :=
      h.mono.congr rfl rfl rfl rfl fun _ hline ↦ .inl hline
    exact hreceived.dispatch
  | receiveFails => exact h.mono.dispatch
  | canceling =>
    exact h.mono.congr rfl rfl rfl ((about_print ..).trans (by simp [Line.name]))
      fun _ hline ↦ .inl hline
  | dropped | usage | postFails | kill | arrive | killed | deliver | createDescriptor
  | createMachPort | createFails | setHandler | registerFails | store | check | checkFails
  | readFails | cancel | exit =>
    exact h.mono.congr rfl rfl rfl rfl fun _ hline ↦ .inl hline

end

/-! ## The port -/

/-- The thread of the port has been told to leave. -/
def At.Leaving : At → Prop
  | .cancelling _ | .exiting => True
  | _ => False

/-- The part that leads from the posts to the lines of the thread of the port. -/
structure OnPort (l : List Act) (s : State) : Prop where
  queue : ∀ id ∈ s.queue, s.issued .mach_port = some id ∨
    s.issued .cancel = some id ∧ 0 < l.countP (Act.posts .cancel)
  unissued : s.issued .mach_port = none → about .mach_port s.out = []
  length : ∀ token, s.issued .mach_port = some token →
    (about .mach_port s.out).length + s.queue.count token ≤
      l.countP (Act.posts .mach_port) + l.count .receiveFails
  spurious : .spurious .mach_port ∈ s.out → 0 < l.count .receiveFails
  leaving : (s.thread .machPort).Leaving →
    0 < l.countP (Act.posts .cancel) + l.count .receiveFails
  cancel : about .cancel s.out = [] ∨
    about .cancel s.out = [.received .cancel] ∧ s.thread .machPort = .exiting

section
variable {l : List Act}

theorem OnPort.mono (h : OnPort l s) : OnPort (l ++ [a]) s := by
  have hcancel := countP_le (Act.posts .cancel) l a
  have hfails := countP_le (· == .receiveFails) l a
  refine ⟨fun id hid ↦ ?_, h.unissued, fun token htoken ↦ ?_, fun hline ↦ ?_, fun hat ↦ ?_,
    h.cancel⟩
  · exact (h.queue id hid).imp_right fun hid ↦ ⟨hid.1, hid.2.trans_le hcancel⟩
  · exact (h.length token htoken).trans (Nat.add_le_add (countP_le ..) hfails)
  · exact (h.spurious hline).trans_le hfails
  · exact (h.leaving hat).trans_le (Nat.add_le_add hcancel hfails)

/-- The queue stays as it is, and what is printed does not come from the port. -/
theorem OnPort.congr (h : OnPort l s) (hqueue : t.queue = s.queue)
    (hissued : t.issued = s.issued)
    (hout : t.out = s.out ∨ ∃ line : Line, t.out = s.out ++ [line] ∧
      line.name ≠ .mach_port ∧ line.name ≠ .cancel)
    (hthread : t.thread .machPort = s.thread .machPort) : OnPort l t := by
  have habout {name : Name} (hname : name = .mach_port ∨ name = .cancel) :
      about name t.out = about name s.out := by
    obtain heq | ⟨line, heq, hport, hcancel⟩ := hout
    · rw [heq]
    · refine (congrArg (about name) heq).trans ((about_print name line).trans ?_)
      obtain rfl | rfl := hname
      · simp [hport]
      · simp [hcancel]
  refine ⟨?_, ?_, ?_, fun hline ↦ h.spurious ?_, ?_, ?_⟩
  · rw [hqueue, hissued]
    exact h.queue
  · rw [hissued, habout (.inl rfl)]
    exact h.unissued
  · rw [hissued, hqueue, habout (.inl rfl)]
    exact h.length
  · obtain heq | ⟨line, heq, hport, -⟩ := hout
    · rwa [heq] at hline
    · rw [heq] at hline
      obtain hold | hnew := List.mem_append.mp hline
      · exact hold
      · obtain rfl := List.mem_singleton.mp hnew
        exact absurd rfl hport
  · rw [hthread]
    exact h.leaving
  · rw [hthread, habout (.inr rfl)]
    exact h.cancel

/-- A thread goes on; if it is that of the port, then not to leave. -/
theorem OnPort.goto (h : OnPort l s) (hθ : s.thread θ ≠ .exiting)
    (hat : θ = .machPort → at'.Leaving → (s.thread θ).Leaving) : OnPort l (s.goto θ at') := by
  by_cases hmach : θ = .machPort
  · subst hmach
    refine ⟨h.queue, h.unissued, h.length, h.spurious, fun hleaving ↦ h.leaving ?_, .inl ?_⟩
    · rw [goto_thread_self] at hleaving
      exact hat rfl hleaving
    · exact h.cancel.resolve_right fun hcancel ↦ hθ hcancel.2
  · exact h.congr rfl rfl (.inl rfl) (goto_thread_of_ne (Ne.symm hmach))

theorem OnPort.register (h : OnPort l s) (hfresh : s.issued name = none)
    (hnew : ∀ other, s.issued other ≠ some token) : OnPort l (s.notify_register name token) := by
  have hother {other : Name} (hne : other ≠ name) :
      Function.update s.issued name (some token) other = s.issued other :=
    Function.update_of_ne hne ..
  have hkeep {other : Name} {id : ℤ} (hid : s.issued other = some id) :
      Function.update s.issued name (some token) other = some id := by
    refine (hother ?_).trans hid
    rintro rfl
    exact absurd (hfresh.symm.trans hid) nofun
  refine ⟨fun id hid ↦ ?_, fun hnone ↦ ?_, fun token' htoken' ↦ ?_, h.spurious, h.leaving,
    h.cancel⟩
  · exact (h.queue id hid).imp hkeep (And.imp_left hkeep)
  · refine h.unissued ?_
    by_cases hname : .mach_port = name
    · rw [hname, hfresh]
    · exact (hother hname).symm.trans hnone
  · by_cases hname : .mach_port = name
    · subst hname
      change Function.update s.issued .mach_port (some token) .mach_port = some token' at htoken'
      rw [Function.update_self] at htoken'
      obtain rfl := Option.some.inj htoken'
      have hqueue : token ∉ s.queue := fun hmem ↦
        (h.queue token hmem).elim (hnew .mach_port) fun hid ↦ hnew .cancel hid.1
      show (about .mach_port s.out).length + s.queue.count token ≤ _
      rw [h.unissued hfresh, List.count_eq_zero_of_not_mem hqueue]
      exact Nat.zero_le _
    · exact h.length token' ((hother hname).symm.trans htoken')

/-- A line that there is room for. -/
theorem OnPort.print (h : OnPort l s) (hat : s.thread .machPort = .waiting)
    (hissued : s.issued .mach_port ≠ none) {line : Line} (hname : line.name = .mach_port)
    (hroom : ∀ token, s.issued .mach_port = some token →
      (about .mach_port s.out).length + s.queue.count token <
        l.countP (Act.posts .mach_port) + l.count .receiveFails)
    (hspurious : line = .spurious .mach_port → 0 < l.count .receiveFails) :
    OnPort l (s.print line) := by
  refine ⟨h.queue, fun hnone ↦ absurd hnone hissued, fun token htoken ↦ ?_, fun hline ↦ ?_,
    h.leaving, .inl ?_⟩
  · have hlength := hroom token htoken
    rw [about_print, hname, if_pos rfl, List.length_append, List.length_singleton]
    show _ + s.queue.count token ≤ _
    omega
  · obtain hold | hnew := List.mem_append.mp hline
    · exact h.spurious hold
    · exact hspurious (List.mem_singleton.mp hnew).symm
  · have hnone := h.cancel.resolve_right fun hcancel ↦ by
      exact absurd (hat.symm.trans hcancel.2) nofun
    rw [about_print, hname, hnone]
    rfl

theorem OnPort.receive {id : ℤ} {rest : List ℤ} (h : OnPort l s)
    (hat : s.thread .machPort = .waiting)
    (hport : s.issued .mach_port = some (s.token .mach_port))
    (hcancel : s.issued .cancel = some (s.token .cancel)) (hqueue : s.queue = id :: rest) :
    OnPort l { s with queue := rest, msgh_id := id }.dispatch := by
  have hroom (token : ℤ) (htoken : s.issued .mach_port = some token) :
      (about .mach_port s.out).length + (rest.count token + if id = token then 1 else 0) ≤
        l.countP (Act.posts .mach_port) + l.count .receiveFails := by
    have hlength := h.length token htoken
    rw [hqueue, List.count_cons] at hlength
    simpa using hlength
  have hrest : OnPort l { s with queue := rest, msgh_id := id } :=
    ⟨fun id hid ↦ h.queue id (hqueue ▸ List.mem_cons_of_mem _ hid), h.unissued,
      fun token htoken ↦ le_trans (by simp) (hroom token htoken), h.spurious, h.leaving, h.cancel⟩
  have hid := h.queue id (hqueue ▸ List.mem_cons_self)
  unfold State.dispatch
  split_ifs with hmach hcanc
  · change id = s.token .mach_port at hmach
    refine hrest.print hat ?_ rfl (fun token htoken ↦ ?_) nofun
    · rw [show State.issued { s with queue := rest, msgh_id := id } = s.issued from rfl, hport]
      nofun
    · obtain rfl := Option.some.inj (hport.symm.trans htoken)
      have hlength := hroom _ hport
      rw [if_pos hmach] at hlength
      exact hlength
  · change id = s.token .cancel at hcanc
    refine ⟨hrest.queue, hrest.unissued, hrest.length, hrest.spurious, fun _ ↦ ?_, .inl ?_⟩
    · obtain hport' | hcancel' := hid
      · exact absurd (Option.some.inj (hport'.symm.trans hport)) hmach
      · exact Nat.add_pos_left hcancel'.2 _
    · exact h.cancel.resolve_right fun hcancel ↦ by
        exact absurd (hat.symm.trans hcancel.2) nofun
  · -- the message is about one of the two names
    obtain hport' | hcancel' := hid
    · exact absurd (Option.some.inj (hport'.symm.trans hport)) hmach
    · exact absurd (Option.some.inj (hcancel'.1.symm.trans hcancel)) hcanc

theorem OnPort.receiveFails (h : OnPort l s) (hat : s.thread .machPort = .waiting)
    (hissued : s.issued .mach_port ≠ none) : OnPort (l ++ [Act.receiveFails]) s.dispatch := by
  have hfails : (l ++ [Act.receiveFails]).count Act.receiveFails = l.count .receiveFails + 1 := by
    simp
  have hroom (token : ℤ) (htoken : s.issued .mach_port = some token) :
      (about .mach_port s.out).length + s.queue.count token <
        (l ++ [Act.receiveFails]).countP (Act.posts .mach_port) +
          (l ++ [Act.receiveFails]).count .receiveFails := by
    have hlength := h.length token htoken
    have hposts := countP_le (Act.posts .mach_port) l .receiveFails
    omega
  have hpos : 0 < (l ++ [Act.receiveFails]).count Act.receiveFails := by omega
  unfold State.dispatch
  split_ifs
  · exact h.mono.print hat hissued rfl hroom fun _ ↦ hpos
  · refine ⟨h.mono.queue, h.unissued, h.mono.length, h.mono.spurious, fun _ ↦ ?_, .inl ?_⟩
    · exact Nat.add_pos_right _ hpos
    · exact h.cancel.resolve_right fun hcancel ↦ by
        exact absurd (hat.symm.trans hcancel.2) nofun
  · exact h.mono.print hat hissued rfl hroom fun _ ↦ hpos

theorem OnPort.move {garbage : ℤ} (h : OnPort l s) (hpipe : OnPipe wire garbage l s)
    (hfresh : Fresh s) (hmove : Move wire s a t) : OnPort (l ++ [a]) t := by
  have hwaiting (hat : s.thread .machPort = .waiting) :
      s.issued .mach_port = some (s.token .mach_port) ∧
        s.issued .cancel = some (s.token .cancel) :=
    ⟨hfresh.past .mach_port (by
      show (s.thread .machPort).Past .mach_port
      rw [hat]
      trivial),
    hfresh.past .cancel (by
      show (s.thread .machPort).Past .cancel
      rw [hat]
      trivial)⟩
  cases hmove with
  | @post argv name hargv =>
    obtain ⟨heq, -⟩ | ⟨token, hissued, ⟨-, heq⟩ | ⟨hname, heq⟩ | ⟨-, heq⟩⟩ :=
      notify_post_cases wire s name
    · rw [heq]
      exact h.mono
    · rw [heq]
      exact h.mono.congr rfl rfl (.inl rfl) rfl
    · rw [heq]
      have hpost := countP_post l hargv
      refine ⟨fun id hid ↦ ?_, h.unissued, fun other hother ↦ ?_, h.mono.spurious,
        h.mono.leaving, h.cancel⟩
      · obtain hold | hnew := List.mem_append.mp hid
        · exact h.mono.queue id hold
        · obtain rfl := List.mem_singleton.mp hnew
          obtain rfl | rfl := hname
          · exact .inl hissued
          · exact .inr ⟨hissued, by omega⟩
      · have hlength := h.mono (a := Act.produce argv).length other hother
        show (about .mach_port s.out).length + (s.queue ++ [token]).count other ≤ _
        obtain rfl | rfl := hname
        · have hlength' := h.length other hother
          have hfails := countP_le (· == .receiveFails) l (Act.produce argv)
          change l.count .receiveFails ≤ (l ++ [Act.produce argv]).count .receiveFails at hfails
          have hone : [token].count other ≤ 1 := List.count_le_length
          rw [List.count_append]
          omega
        · have hne : token ≠ other := by
            rintro rfl
            exact absurd (hfresh.distinct _ _ _ hissued hother) nofun
          rwa [List.count_append, List.count_singleton, if_neg (by simpa using hne), Nat.add_zero]
    · rw [heq]
      exact h.mono.congr rfl rfl (.inl rfl) rfl
  | @print pre post line hprinting =>
    have hname : line.name = .signal := hpipe.printing line (by simp [hprinting])
    refine h.mono.congr rfl rfl (.inr ⟨line, rfl, ?_, ?_⟩) rfl
    · rw [hname]
      nofun
    · rw [hname]
      nofun
  | createDescriptor hmain hunborn =>
    have hmain' : OnPort (l ++ [Act.other]) (s.goto .main .createMachPort) :=
      h.mono.goto (by rw [hmain]; nofun) nofun
    refine hmain'.goto ?_ ?_
    · rw [goto_thread_of_ne (by decide), hunborn]
      nofun
    · exact fun _ hat ↦ hat.elim
  | createMachPort hmain hunborn =>
    have hmain' : OnPort (l ++ [Act.other]) (s.goto .main .setHandler) :=
      h.mono.goto (by rw [hmain]; nofun) nofun
    refine hmain'.goto ?_ ?_
    · rw [goto_thread_of_ne (by decide), hunborn]
      nofun
    · exact fun _ hat ↦ hat.elim
  | createFails hmain =>
    refine h.mono.goto ?_ nofun
    obtain hmain | hmain := hmain
    · rw [hmain]
      nofun
    · rw [hmain]
      nofun
  | setHandler hmain =>
    have hset : OnPort (l ++ [Act.other]) { s with handler := true } :=
      h.mono.congr rfl rfl (.inl rfl) rfl
    exact hset.goto (by rw [hmain]; nofun) nofun
  | @register θ name token hθ hvalid hnew =>
    have hnone : s.issued name = none := by
      refine hfresh.ahead name ?_
      rw [hfresh.register θ name hθ, hθ]
      exact .inl rfl
    have hgone : OnPort (l ++ [Act.other]) (s.goto θ (.registered name token)) :=
      h.mono.goto (by rw [hθ]; nofun) fun _ hat ↦ hat.elim
    exact hgone.register hnone hnew
  | @registerFails θ name hθ =>
    refine h.mono.goto (by rw [hθ]; nofun) fun hmach hat ↦ ?_
    cases name with
    | descriptor | mach_port | cancel => exact hat.elim
    | signal => exact absurd ((hfresh.register θ .signal hθ).trans hmach) nofun
  | @store θ name token hθ =>
    have hstored : OnPort (l ++ [Act.other]) (s.store name token) :=
      h.mono.congr rfl rfl (.inl rfl) rfl
    refine hstored.goto (by rw [show (s.store name token).thread = s.thread from rfl, hθ]; nofun)
      fun _ hat ↦ ?_
    cases name with
    | descriptor | mach_port | signal | cancel => exact hat.elim
  | check hmain =>
    have hchecked : OnPort (l ++ [Act.other]) s.notify_check :=
      h.mono.congr rfl rfl (.inl rfl) rfl
    exact hchecked.goto (by rw [show s.notify_check.thread = s.thread from rfl, hmain]; nofun)
      nofun
  | @checkFails changed hmain =>
    have hchecked : OnPort (l ++ [Act.checkFails]) { s with changed := changed } :=
      h.mono.congr rfl rfl (.inl rfl) rfl
    refine hchecked.goto ?_ nofun
    show s.thread .main ≠ .exiting
    rw [hmain]
    nofun
  | read | readEnds =>
    refine h.mono.congr rfl rfl (.inr ⟨_, rfl, ?_, ?_⟩) rfl
    · rw [descriptorLine_name]
      nofun
    · rw [descriptorLine_name]
      nofun
  | readFails hat => exact h.mono.goto (by rw [hat]; nofun) nofun
  | receive hat hqueue => exact h.mono.receive hat (hwaiting hat).1 (hwaiting hat).2 hqueue
  | receiveFails hat => exact h.receiveFails hat (by rw [(hwaiting hat).1]; nofun)
  | @cancel θ name names hθ =>
    have hcancelled : OnPort (l ++ [Act.other]) (s.notify_cancel name) :=
      h.mono.congr rfl rfl (.inl rfl) rfl
    have hthread : (s.notify_cancel name).thread = s.thread := rfl
    refine hcancelled.goto (by rw [hthread, hθ]; nofun) fun _ _ ↦ ?_
    rw [hthread, hθ]
    trivial
  | canceling hat =>
    have hnone := h.cancel.resolve_right fun hcancel ↦ by
      exact absurd (hat.symm.trans hcancel.2) nofun
    refine ⟨h.mono.queue, fun hnone' ↦ ?_, fun token htoken ↦ ?_, fun hline ↦ h.mono.spurious ?_,
      fun _ ↦ h.mono.leaving (by rw [hat]; trivial), .inr ⟨?_, goto_thread_self⟩⟩
    · exact (about_print ..).trans ((List.append_nil _).trans (h.unissued hnone'))
    · refine le_of_eq_of_le ?_ (h.mono.length token htoken)
      exact congrArg (List.length · + _) ((about_print ..).trans (List.append_nil _))
    · obtain hold | hnew := List.mem_append.mp hline
      · exact hold
      · exact absurd (List.mem_singleton.mp hnew) nofun
    · exact (about_print ..).trans (by rw [hnone]; rfl)
  | dropped | usage | postFails | kill | arrive | killed | deliver | handle | handleFails | exit =>
    exact h.mono.congr rfl rfl (.inl rfl) rfl

theorem onPipe_start (check msgh_id : ℤ) : OnPipe wire check [] (start check msgh_id) :=
  ⟨nofun, .inl rfl, nofun, le_rfl, nofun⟩

theorem onPort_start (check msgh_id : ℤ) : OnPort [] (start check msgh_id) :=
  ⟨nofun, fun _ ↦ rfl, nofun, nofun, fun hat ↦ hat.elim, .inl rfl⟩

theorem on_run {check msgh_id : ℤ} (hr : Run (Step wire) (start check msgh_id) l s) :
    OnPipe wire check l s ∧ OnPort l s :=
  hr.history (I := fun l s ↦ OnPipe wire check l s ∧ OnPort l s)
    ⟨onPipe_start check msgh_id, onPort_start check msgh_id⟩
    fun _ _ _ _ hu h hstep ↦ ⟨h.1.move (fresh_run hu) hstep.2,
      h.2.move h.1 (fresh_run hu) hstep.2⟩

/-- **No more is printed than has been posted**, but for what is looked at for a second time.  There
is at most one line about the descriptor for each notification that was posted and each time that
`read` found the end.  It says that a notification was received if the token reads the same when it
has been written in network byte order, and that it is spurious if not; only once `read` has found
the end, it may say so of what happened to be in `check` to begin with.  The thread of the port
prints at most one line for each notification that was posted, if no `mach_msg` fails; for each that
fails, it may look at a message for a second time.  It leaves, and says so once, only if it was told
to or a `mach_msg` has failed, and only in the latter case it finds anything spurious. -/
theorem consumer_lines {check msgh_id : ℤ} (hr : Run (Step wire) (start check msgh_id) l s) :
    (about .descriptor s.out).length ≤
      l.countP (Act.posts .descriptor) + l.count .readEnds ∧
    (∀ line ∈ about .descriptor s.out, ∃ token, s.issued .descriptor = some token ∧
      (line = descriptorLine (wire token) token ∨
        0 < l.count .readEnds ∧ line = descriptorLine check token)) ∧
    (about .mach_port s.out).length ≤
      l.countP (Act.posts .mach_port) + l.count .receiveFails ∧
    (.spurious .mach_port ∈ s.out → 0 < l.count .receiveFails) ∧
    (about .cancel s.out ≠ [] → about .cancel s.out = [.received .cancel] ∧
      0 < l.countP (Act.posts .cancel) + l.count .receiveFails) := by
  obtain ⟨hpipe, hport⟩ := on_run hr
  refine ⟨(Nat.le_add_right ..).trans hpipe.length, hpipe.lines, ?_, hport.spurious,
    fun hcancel ↦ ?_⟩
  · cases hissued : s.issued .mach_port with
    | none =>
      rw [hport.unissued hissued]
      exact Nat.zero_le _
    | some token => exact (Nat.le_add_right ..).trans (hport.length token hissued)
  · obtain ⟨heq, hat⟩ := hport.cancel.resolve_left hcancel
    exact ⟨heq, hport.leaving (by rw [hat]; trivial)⟩

end

end

/-- Where the low byte comes first, a notification by file descriptor is taken for a spurious
one, and for another when the descriptor is at its end. -/
theorem consumer_lines_low_byte_first : ∃ s : State,
    s.out = [.spurious .descriptor, .spurious .descriptor] ∧
    (about .descriptor s.out).length ≤ 2 ∧ (about .mach_port s.out).length ≤ 0 := by
  have hrun : ∃ s, Run (Step fun token ↦ 16777216 * token) (start 0 0)
      [.other, .other, .other, .produce ["notify_producer".toList, "-f".toList], .other,
        .readEnds] s ∧ s.out = [.spurious .descriptor, .spurious .descriptor] :=
    ⟨_, .cons ⟨rfl, .createDescriptor rfl rfl⟩ <|
      .cons ⟨rfl, @Move.register _ _ .descriptor .descriptor 1 rfl (by decide) nofun⟩ <|
      .cons ⟨rfl, @Move.store _ _ .descriptor .descriptor 1 rfl⟩ <|
      .cons ⟨rfl, @Move.post _ _ _ .descriptor rfl⟩ <| .cons ⟨rfl, .read rfl rfl⟩ <|
      .single ⟨rfl, .readEnds rfl rfl⟩, rfl⟩
  obtain ⟨s, hr, hout⟩ := hrun
  have h := consumer_lines hr
  exact ⟨s, hout, h.1, h.2.2.1⟩

end Notify
end MacOSXInternal
