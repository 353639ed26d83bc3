import Mathlib.Algebra.Order.Ring.Int
import MacOSXInternal.Lib.Flags
import MacOSXInternal.Lib.Runs

/-!
# Watching a file and the mounted volumes

`kq_fwatch` and `kq_vfswatch` register with the kernel, and then print what each call of `kevent`
reports.  The kernel keeps one word of flags for the program, adds to it whatever happens, and
clears it when the program is told.  Things go on happening while the program is busy printing.

* `Watcher` is what the two programs differ in, and `Step` one thing that happens, to the file
  system or to the program.
* `epochs` cuts the events of a run at the reports.
* `Told` is the invariant: each report has been printed from all that happened since the one before,
  and the rest is still pending.
-/

set_option autoImplicit false

namespace MacOSXInternal
namespace Kqueue

open Flags Runs

/-! ## The programs -/

/-- What the two programs differ in. -/
structure Watcher where
  /-- The flags of its events, and their descriptions. -/
  descriptions : List (BitVec 32 × String)
  /-- What `process_events` prints first. -/
  heading : List String
  /-- The format it prints a description in. -/
  format : String → String
  /-- The flags on which it returns -1. -/
  stops : BitVec 32
  /-- The flags the kernel keeps. -/
  keeps : BitVec 32
  /-- The calls before the loop, by the status the program exits with when one fails. -/
  calls : List ℤ

/-- From `<sys/event.h>`. -/
def NOTE_DELETE : BitVec 32 := 0x01
def NOTE_WRITE : BitVec 32 := 0x02
def NOTE_EXTEND : BitVec 32 := 0x04
def NOTE_ATTRIB : BitVec 32 := 0x08
def NOTE_LINK : BitVec 32 := 0x10
def NOTE_RENAME : BitVec 32 := 0x20
def NOTE_REVOKE : BitVec 32 := 0x40

def VnEventDescriptions : List (BitVec 32 × String) :=
  [(NOTE_ATTRIB, "attributes changed"), (NOTE_DELETE, "deleted"), (NOTE_EXTEND, "extended"),
    (NOTE_LINK, "link count changed"), (NOTE_RENAME, "renamed"),
    (NOTE_REVOKE, "access revoked or file system unmounted"), (NOTE_WRITE, "written")]

def NOTE_ALL : BitVec 32 :=
  NOTE_ATTRIB ||| NOTE_DELETE ||| NOTE_EXTEND ||| NOTE_LINK ||| NOTE_RENAME ||| NOTE_REVOKE |||
    NOTE_WRITE

/-- The calls are `kqueue`, `open` and `kevent`. -/
def kq_fwatch : Watcher where
  descriptions := VnEventDescriptions
  heading := []
  format := id
  stops := NOTE_DELETE
  keeps := NOTE_ALL
  calls := [1, 1, -1]

/-- From `<sys/mount.h>`. -/
def VQ_NOTRESP : BitVec 32 := 0x001
def VQ_NEEDAUTH : BitVec 32 := 0x002
def VQ_LOWDISK : BitVec 32 := 0x004
def VQ_MOUNT : BitVec 32 := 0x008
def VQ_UNMOUNT : BitVec 32 := 0x010
def VQ_DEAD : BitVec 32 := 0x020
def VQ_ASSIST : BitVec 32 := 0x040
def VQ_NOTRESPLOCK : BitVec 32 := 0x080
def VQ_UPDATE : BitVec 32 := 0x100

def VfsEventDescriptions : List (BitVec 32 × String) :=
  [(VQ_NOTRESP, "server is down"), (VQ_NEEDAUTH, "server needs authentication"),
    (VQ_LOWDISK, "disk space is low"), (VQ_MOUNT, "file system mounted"),
    (VQ_UNMOUNT, "file system unmounted"),
    (VQ_DEAD, "file system is dead (needs force unmount)"),
    (VQ_ASSIST, "file system needs assistance from external program"),
    (VQ_NOTRESPLOCK, "server locked down"), (VQ_UPDATE, "file system information has changed")]

/-- The calls are `kqueue` and `kevent`, and `EVFILT_FS` keeps every flag.  Its `process_events`
returns 0 always. -/
def kq_vfswatch : Watcher where
  descriptions := VfsEventDescriptions
  heading := ["notification received"]
  format d := "\t+ " ++ d
  stops := 0
  keeps := BitVec.allOnes 32
  calls := [-1, -1]

variable (W : Watcher)

/-- `process_events`: the lines it prints, and what it returns. -/
def Watcher.process_events (fflags : BitVec 32) : List String × ℤ :=
  (W.heading ++ (shown W.descriptions fflags).map W.format, if Meets W.stops fflags then -1 else 0)

/-- Where a program is. -/
inductive Phase
  /-- These calls are left before the loop. -/
  | setUp (left : List ℤ)
  | watching
  | exited (status : ℤ)
  deriving DecidableEq, Repr

/-- The flags the kernel keeps for the program, and the lines the program has printed. -/
structure State where
  phase : Phase
  pending : BitVec 32
  out : List String
  deriving DecidableEq, Repr

def start : State := ⟨.setUp W.calls, 0#32, []⟩

inductive Label
  /-- Something happens in the file system. -/
  | event (hint : BitVec 32)
  /-- A call before the loop returns. -/
  | setUp (ok : Bool)
  /-- `kevent` returns 1, 0 or -1. -/
  | delivered
  | nothing
  | failed
  deriving DecidableEq, Repr

/-- One event, or the return of one call with what the program does until the next. -/
inductive Step : State → Label → State → Prop
  | event {s : State} (hint : BitVec 32) (h : s.phase = .watching) :
      Step s (.event hint) { s with pending := s.pending ||| hint &&& W.keeps }
  | missed {s : State} (hint : BitVec 32) (h : s.phase ≠ .watching) : Step s (.event hint) s
  | setUp {s : State} {status : ℤ} {left : List ℤ} (h : s.phase = .setUp (status :: left)) :
      Step s (.setUp true) { s with phase := if left = [] then .watching else .setUp left }
  | setUpFails {s : State} {status : ℤ} {left : List ℤ} (h : s.phase = .setUp (status :: left)) :
      Step s (.setUp false) { s with phase := .exited status }
  | delivered {s : State} (h : s.phase = .watching) (hpending : s.pending ≠ 0#32) :
      Step s .delivered
        { phase :=
            if (W.process_events s.pending).2 ≠ 0 then .exited (W.process_events s.pending).2
            else .watching
          pending := 0#32
          out := s.out ++ (W.process_events s.pending).1 }
  | nothing {s : State} (h : s.phase = .watching) : Step s .nothing s
  | failed {s : State} (h : s.phase = .watching) : Step s .failed { s with phase := .exited (-1) }

/-! ## What a report is about -/

/-- Before the loop nobody listens. -/
def observe (e : Epochs (BitVec 32)) : Label → Epochs (BitVec 32)
  | .event hint => e.happen hint
  | .setUp _ => .empty
  | .delivered => e.close
  | .nothing | .failed => e

/-- The events of a run, cut at the reports. -/
def epochs (l : List Label) : Epochs (BitVec 32) := l.foldl observe .empty

theorem epochs_append (l : List Label) (a : Label) : epochs (l ++ [a]) = observe (epochs l) a := by
  simp [epochs]

/-- One of these events is among them. -/
def Among (mask : BitVec 32) (hints : List (BitVec 32)) : Prop := ∃ hint ∈ hints, Meets mask hint

instance (mask : BitVec 32) (hints : List (BitVec 32)) : Decidable (Among mask hints) :=
  inferInstanceAs (Decidable (∃ hint ∈ hints, Meets mask hint))

/-- What the table says of some events. -/
def Watcher.kinds (hints : List (BitVec 32)) : List String :=
  (W.descriptions.filter fun r ↦ Among r.1 hints).map Prod.snd

/-- The lines for some events. -/
def Watcher.report (hints : List (BitVec 32)) : List String :=
  W.heading ++ (W.kinds hints).map W.format

/-- The kernel keeps the flags that the program looks at. -/
structure Watcher.Subscribed : Prop where
  descriptions : ∀ r ∈ W.descriptions, r.1 &&& W.keeps = r.1
  stops : W.stops &&& W.keeps = W.stops

theorem kq_fwatch_subscribed : kq_fwatch.Subscribed := ⟨by decide, by decide⟩

theorem kq_vfswatch_subscribed : kq_vfswatch.Subscribed := ⟨by decide, by decide⟩

/-- A word of flags that stands for some events. -/
def Watcher.Holds (flags : BitVec 32) (hints : List (BitVec 32)) : Prop :=
  ∀ mask, mask &&& W.keeps = mask → (Meets mask flags ↔ Among mask hints)

section
variable {W} {flags : BitVec 32} {hints : List (BitVec 32)}

theorem Watcher.holds_nil : W.Holds 0#32 [] := fun mask _ ↦ by simp [Among]

theorem Watcher.Holds.happen (h : W.Holds flags hints) (hint : BitVec 32) :
    W.Holds (flags ||| hint &&& W.keeps) (hints ++ [hint]) := by
  intro mask hmask
  rw [meets_or, h mask hmask, meets_and hmask]
  simp [Among, or_and_right, exists_or]

/-- The program prints what the table says of the events. -/
theorem Watcher.Holds.process_events (h : W.Holds flags hints) (hW : W.Subscribed) :
    W.process_events flags = (W.report hints, if Among W.stops hints then -1 else 0) := by
  have hshown : shown W.descriptions flags = W.kinds hints := by
    have htest : ∀ r ∈ W.descriptions, decide (Meets r.1 flags) = decide (Among r.1 hints) :=
      fun r hr ↦ decide_eq_decide.mpr (h r.1 (hW.descriptions r hr))
    rw [shown, kinds, List.filter_congr htest]
  have hstops : Meets W.stops flags ↔ Among W.stops hints := h W.stops hW.stops
  simp only [Watcher.process_events, report, hshown, hstops]

end

/-! ## Nothing is lost -/

/-- **What has been reported**, after the run `l`. -/
structure Told (l : List Label) (s : State) : Prop where
  /-- Each report is about all that happened since the one before. -/
  out : s.out = (epochs l).closed.flatMap W.report
  /-- The rest is pending. -/
  pending : s.phase = .watching → W.Holds s.pending (epochs l).current
  /-- There is no report before the loop. -/
  early : ∀ left, s.phase = .setUp left → s.pending = 0#32 ∧ (epochs l).closed = []
  /-- The first report of an event that stops the program is the last. -/
  last : ∀ pre hints post, (epochs l).closed = pre ++ hints :: post → Among W.stops hints →
    post = [] ∧ s.phase = .exited (-1)
  /-- Nothing but such a report or a failure ends the program. -/
  ended : ∀ status, s.phase = .exited status → .setUp false ∉ l → .failed ∉ l →
    ∃ hints ∈ (epochs l).closed, Among W.stops hints

section
variable {W} {l : List Label} {s t : State} {a : Label}

theorem told_start : Told W [] (start W) where
  out := rfl
  pending h := by exact absurd h nofun
  early left h := ⟨rfl, rfl⟩
  last pre hints post h := by simp [epochs, Epochs.empty] at h
  ended status h := by exact absurd h nofun

/-- A step that reports nothing and ends nothing. -/
theorem Told.quiet (h : Told W l s) (hclosed : (epochs (l ++ [a])).closed = (epochs l).closed)
    (hphase : t.phase = s.phase) (hout : t.out = s.out)
    (hearly : s.phase ≠ .watching → t.pending = s.pending)
    (hpending : s.phase = .watching → W.Holds t.pending (epochs (l ++ [a])).current) :
    Told W (l ++ [a]) t where
  out := by rw [hout, hclosed, h.out]
  pending ht := hpending (by rw [← hphase, ht])
  early left ht := by
    rw [hphase] at ht
    rw [hclosed, hearly (by rw [ht]; exact Phase.noConfusion)]
    exact h.early left ht
  last pre hints post hcut hstop := by
    rw [hphase]
    exact h.last pre hints post (by rw [← hclosed, hcut]) hstop
  ended status ht hset hfail := by
    rw [hclosed]
    exact h.ended status (by rw [← hphase, ht]) (fun hmem ↦ hset (by simp [hmem]))
      (fun hmem ↦ hfail (by simp [hmem]))

/-- As long as the program watches, no report was about an event that stops it. -/
theorem Told.not_among (h : Told W l s) (hs : s.phase = .watching) {hints : List (BitVec 32)}
    (hmem : hints ∈ (epochs l).closed) : ¬Among W.stops hints := by
  intro hstop
  obtain ⟨pre, post, hcut⟩ := List.append_of_mem hmem
  have hexit := (h.last pre hints post hcut hstop).2
  rw [hs] at hexit
  exact absurd hexit nofun

/-- A call before the loop has returned. -/
theorem Told.of_setUp {left : List ℤ} (h : Told W l s) (hs : s.phase = .setUp left) (ok : Bool)
    (phase : Phase) (hphase : ∀ status, phase = .exited status → ok = false) :
    Told W (l ++ [.setUp ok]) { s with phase := phase } := by
  have hepochs : epochs (l ++ [.setUp ok]) = .empty := epochs_append l _
  obtain ⟨hpending, hclosed⟩ := h.early left hs
  constructor
  · rw [hepochs]
    show s.out = []
    rw [h.out, hclosed, List.flatMap_nil]
  · intro _
    rw [hepochs, hpending]
    exact W.holds_nil
  · intro _ _
    rw [hepochs]
    exact ⟨hpending, rfl⟩
  · intro pre hints post hcut
    simp [hepochs, Epochs.empty] at hcut
  · intro status ht hset
    exact absurd (by simp [hphase status ht]) hset

/-- `kevent` has returned an event. -/
theorem Told.delivered (hW : W.Subscribed) (h : Told W l s) (hs : s.phase = .watching) :
    Told W (l ++ [.delivered])
      { phase :=
          if (W.process_events s.pending).2 ≠ 0 then .exited (W.process_events s.pending).2
          else .watching
        pending := 0#32
        out := s.out ++ (W.process_events s.pending).1 } := by
  have hclosed : (epochs (l ++ [.delivered])).closed =
      (epochs l).closed ++ [(epochs l).current] := by
    rw [epochs_append]
    rfl
  rw [(h.pending hs).process_events hW]
  constructor
  · simp [hclosed, h.out]
  · intro _
    rw [epochs_append]
    exact W.holds_nil
  · intro left ht
    split_ifs at ht
  · intro pre hints post hcut hstop
    rw [hclosed] at hcut
    obtain rfl | ⟨post, x, rfl⟩ := post.eq_nil_or_concat
    · obtain ⟨-, hhints⟩ := List.append_inj' hcut rfl
      obtain rfl := List.cons.inj hhints |>.1
      simp [hstop]
    · -- an earlier report
      rw [List.concat_eq_append, ← List.cons_append, ← List.append_assoc] at hcut
      have hmem : hints ∈ (epochs l).closed := by
        rw [(List.append_inj' hcut rfl).1]
        simp
      exact absurd hstop (h.not_among hs hmem)
  · intro status ht _ _
    refine ⟨(epochs l).current, by simp [hclosed], ?_⟩
    by_contra hno
    simp [hno] at ht

theorem Told.step (hW : W.Subscribed) (h : Told W l s) (hstep : Step W s a t) :
    Told W (l ++ [a]) t := by
  cases hstep with
  | event hint hs =>
    refine h.quiet (by rw [epochs_append]; rfl) rfl rfl (fun hne ↦ absurd hs hne) fun _ ↦ ?_
    rw [epochs_append]
    exact (h.pending hs).happen hint
  | missed hint hs =>
    exact h.quiet (by rw [epochs_append]; rfl) rfl rfl (fun _ ↦ rfl) fun hs' ↦ absurd hs' hs
  | setUp hs =>
    refine h.of_setUp hs true _ fun status hphase ↦ ?_
    split_ifs at hphase
  | setUpFails hs => exact h.of_setUp hs false _ fun _ _ ↦ rfl
  | delivered hs hpending => exact h.delivered hW hs
  | nothing hs =>
    refine h.quiet (by rw [epochs_append]; rfl) rfl rfl (fun _ ↦ rfl) fun _ ↦ ?_
    rw [epochs_append]
    exact h.pending hs
  | failed hs =>
    have hepochs : epochs (l ++ [.failed]) = epochs l := epochs_append l _
    constructor
    · rw [hepochs]
      exact h.out
    · intro ht
      exact absurd ht nofun
    · intro left ht
      exact absurd ht nofun
    · intro pre hints post hcut hstop
      rw [hepochs] at hcut
      exact absurd hstop (h.not_among hs (by simp [hcut]))
    · intro status _ _ hfail
      exact absurd (by simp) hfail

/-- **Whatever happens, and whenever the program gets to look**, it has told of all that happened
before its last look, report by report. -/
theorem told_of_run (hW : W.Subscribed) (hr : Run (Step W) (start W) l s) : Told W l s :=
  hr.history (I := Told W) told_start fun _ _ _ _ _ h hstep ↦ h.step hW hstep

end

/-! ## `kq_fwatch` -/

/-- **`kq_fwatch` reports every event on its file until the file is gone.**  After any run, what has
been printed is, for each return of `kevent`, the descriptions of the kinds of events since the
return before, each once and in the order of the table; the flags that are pending are of the events
since the last one.  A report of the deletion is the last, after it the program exits with -1, and
if no call fails it exits after no other. -/
theorem kq_fwatch_reports {l : List Label} {s : State}
    (hr : Run (Step kq_fwatch) (start kq_fwatch) l s) :
    (s.out = (epochs l).closed.flatMap fun hints ↦
      (VnEventDescriptions.filter fun r ↦ Among r.1 hints).map Prod.snd) ∧
    (s.phase = .watching → ∀ r ∈ VnEventDescriptions,
      Meets r.1 s.pending ↔ Among r.1 (epochs l).current) ∧
    (∀ pre hints post, (epochs l).closed = pre ++ hints :: post → Among NOTE_DELETE hints →
      post = [] ∧ s.phase = .exited (-1)) ∧
    (∀ status, s.phase = .exited status → .setUp false ∉ l → .failed ∉ l →
      ∃ hints ∈ (epochs l).closed, Among NOTE_DELETE hints) := by
  have h := told_of_run kq_fwatch_subscribed hr
  refine ⟨?_, fun hs r hr ↦ ?_, h.last, h.ended⟩
  · rw [h.out]
    congr 1
    funext hints
    show [] ++ (kq_fwatch.kinds hints).map id = _
    rw [List.nil_append, List.map_id]
    rfl
  · exact h.pending hs r.1 (kq_fwatch_subscribed.descriptions r hr)

/-- The run in which the file is written to before the program listens, then written to and extended
at once, then deleted. -/
theorem run_written_deleted :
    Run (Step kq_fwatch) (start kq_fwatch)
      [.setUp true, .setUp true, .event NOTE_WRITE, .setUp true,
        .event (NOTE_WRITE ||| NOTE_EXTEND), .event NOTE_WRITE, .delivered, .event NOTE_DELETE,
        .delivered]
      ⟨.exited (-1), 0#32, ["extended", "written", "deleted"]⟩ :=
  .cons (.setUp rfl) <| .cons (.setUp rfl) <| .cons (.missed _ Phase.noConfusion) <|
    .cons (.setUp rfl) <| .cons (.event _ rfl) <| .cons (.event _ rfl) <|
    .cons (.delivered rfl (by decide)) <| .cons (.event _ rfl) <|
    .single (.delivered rfl (by decide))

theorem kq_fwatch_reports_written_deleted :
    (epochs [.setUp true, .setUp true, .event NOTE_WRITE, .setUp true,
        .event (NOTE_WRITE ||| NOTE_EXTEND), .event NOTE_WRITE, .delivered, .event NOTE_DELETE,
        .delivered]).closed.flatMap (fun hints ↦
      (VnEventDescriptions.filter fun r ↦ Among r.1 hints).map Prod.snd) =
        ["extended", "written", "deleted"] :=
  (kq_fwatch_reports run_written_deleted).1.symm

/-! ## `kq_vfswatch` -/

theorem mem_format {d : String} {l : List String} (h : d ∈ l.map kq_vfswatch.format) :
    d.toList.head? = some '\t' := by
  obtain ⟨d, -, rfl⟩ := List.mem_map.mp h
  show ("\t+ " ++ d).toList.head? = some '\t'
  rw [String.toList_append]
  rfl

/-- **The output of `kq_vfswatch` can be read back.**  Two runs print the same exactly when, report
by report, they were told of the same kinds of events; and a run ends only through a call that
fails. -/
theorem kq_vfswatch_output_iff {l m : List Label} {s t : State}
    (hr : Run (Step kq_vfswatch) (start kq_vfswatch) l s)
    (hr' : Run (Step kq_vfswatch) (start kq_vfswatch) m t) :
    (s.out = t.out ↔
      ((epochs l).closed.map fun hints ↦ VfsEventDescriptions.filter fun r ↦ Among r.1 hints) =
        (epochs m).closed.map fun hints ↦ VfsEventDescriptions.filter fun r ↦ Among r.1 hints) ∧
    (∀ status, s.phase = .exited status → .setUp false ∈ l ∨ .failed ∈ l) := by
  have h := told_of_run kq_vfswatch_subscribed hr
  have h' := told_of_run kq_vfswatch_subscribed hr'
  refine ⟨?_, fun status hs ↦ ?_⟩
  · have hheading (hints : List (BitVec 32)) :
        "notification received" ∉ (kq_vfswatch.kinds hints).map kq_vfswatch.format :=
      fun hmem ↦ absurd (mem_format hmem) (by decide)
    have hkinds (a b : List (BitVec 32)) :
        (kq_vfswatch.kinds a).map kq_vfswatch.format =
            (kq_vfswatch.kinds b).map kq_vfswatch.format ↔
          (VfsEventDescriptions.filter fun r ↦ Among r.1 a) =
            VfsEventDescriptions.filter fun r ↦ Among r.1 b := by
      have hnodup : (VfsEventDescriptions.map fun r ↦ "\t+ " ++ r.2).Nodup := by decide
      have hid := map_filter_inj (f := id) (l := VfsEventDescriptions) (by decide)
        (p := fun r ↦ Among r.1 a) (q := fun r ↦ Among r.1 b)
      rw [List.map_id, List.map_id] at hid
      rw [hid, ← map_filter_inj hnodup, Watcher.kinds, Watcher.kinds, List.map_map, List.map_map]
      rfl
    rw [h.out, h'.out]
    show ((epochs l).closed.flatMap fun hints ↦ "notification received" ::
      (kq_vfswatch.kinds hints).map kq_vfswatch.format) = ((epochs m).closed.flatMap fun hints ↦
        "notification received" :: (kq_vfswatch.kinds hints).map kq_vfswatch.format) ↔ _
    rw [flatMap_heading_inj hheading]
    exact map_eq_map_congr hkinds
  · by_contra hno
    rw [not_or] at hno
    obtain ⟨hints, -, hint, -, hstop⟩ := h.ended status hs hno.1 hno.2
    exact hstop BitVec.zero_and

/-- A volume is mounted, once or twice, before the program looks. -/
theorem run_mounted (hints : List (BitVec 32))
    (h : hints = [VQ_MOUNT, VQ_MOUNT] ∨ hints = [VQ_MOUNT]) :
    Run (Step kq_vfswatch) (start kq_vfswatch)
      ([.setUp true, .setUp true] ++ hints.map .event ++ [.delivered])
      ⟨.watching, 0#32, ["notification received", "\t+ file system mounted"]⟩ := by
  obtain rfl | rfl := h
  · exact .cons (.setUp rfl) <| .cons (.setUp rfl) <| .cons (.event _ rfl) <|
      .cons (.event _ rfl) <| .single (.delivered rfl (by decide))
  · exact .cons (.setUp rfl) <| .cons (.setUp rfl) <| .cons (.event _ rfl) <|
      .single (.delivered rfl (by decide))

theorem kq_vfswatch_output_mounted :
    ((epochs ([.setUp true, .setUp true] ++ [VQ_MOUNT, VQ_MOUNT].map .event ++
        [.delivered])).closed.map fun hints ↦ VfsEventDescriptions.filter fun r ↦ Among r.1 hints) =
      (epochs ([.setUp true, .setUp true] ++ [VQ_MOUNT].map .event ++
        [.delivered])).closed.map fun hints ↦ VfsEventDescriptions.filter fun r ↦ Among r.1 hints :=
  (kq_vfswatch_output_iff (run_mounted _ (.inl rfl)) (run_mounted _ (.inr rfl))).1.mp rfl

end Kqueue
end MacOSXInternal
