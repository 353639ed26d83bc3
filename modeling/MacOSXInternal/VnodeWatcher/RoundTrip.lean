import Mathlib.Data.List.Basic
import MacOSXInternal.VnodeWatcher.Notification

/-!
# Vnode event records in the queue

A record is cut off behind its path, and the user side takes one record after another out of the
queue into the same `vdata`, which it never clears.

* `dequeues` is what `vdata` holds after each record has been taken out; `handler_of_dequeue` is the
  place of it in the handler.
* `callback_eq_none_iff` says which events leave no record.
* `survives` is the result: nothing of an event is lost in the queue, and nothing of an earlier
  record is read again.
-/

set_option autoImplicit false

namespace MacOSXInternal
namespace VnodeWatcher

/-! ## Taking records out of the queue -/

/-- `IODataQueueDequeue`: the record is copied over the front of `vdata`, if it fits. -/
def dequeue (vdata entry : List Byte) : Option (List Byte) :=
  if entry.length ≤ sizeofData then some (entry ++ vdata.drop entry.length) else none

/-- What `vdata` holds after each of the records has been taken out of the queue. -/
def dequeues : List Byte → List (List Byte) → Option (List (List Byte))
  | _, [] => some []
  | vdata, entry :: queue =>
    (dequeue vdata entry).bind fun vdata ↦ (dequeues vdata queue).map (vdata :: ·)

theorem handler_of_dequeue {o : ByteOrder} {vdata vdata' entry : List Byte}
    (h : dequeue vdata entry = some vdata') (fuel : ℕ) (queue : List (List Byte)) :
    handler o (fuel + 1) vdata (entry :: queue) =
      if vdata'.head? = some kt_kStopListeningToMessages then .exited [] queue
      else (handler o fuel vdata' queue).cons (.line (lineOfData o vdata')) := by
  rw [dequeue] at h
  split at h
  case isFalse => cases h
  case isTrue hle =>
    obtain rfl := Option.some.inj h
    rw [handler, if_pos hle]

theorem dequeues_cons {vdata entry : List Byte} {queue contents : List (List Byte)} :
    dequeues vdata (entry :: queue) = some contents ↔
      ∃ vdata' contents', dequeue vdata entry = some vdata' ∧
        dequeues vdata' queue = some contents' ∧ contents = vdata' :: contents' := by
  simp only [dequeues, Option.bind_eq_some_iff, Option.map_eq_some_iff]
  constructor
  · rintro ⟨vdata', hone, contents', hrest, rfl⟩
    exact ⟨vdata', contents', hone, hrest, rfl⟩
  · rintro ⟨vdata', contents', hone, hrest, rfl⟩
    exact ⟨vdata', hone, contents', hrest, rfl⟩

/-- **No record looks like the stop message**: all are printed, and the loop waits for more. -/
theorem handler_of_dequeues {o : ByteOrder} {vdata : List Byte}
    {queue contents : List (List Byte)} (h : dequeues vdata queue = some contents)
    (hgo : ∀ v ∈ contents, v.head? ≠ some kt_kStopListeningToMessages) {fuel : ℕ}
    (hfuel : queue.length < fuel) :
    handler o fuel vdata queue = .waiting (contents.map fun v ↦ .line (lineOfData o v)) := by
  induction queue generalizing vdata contents fuel with
  | nil =>
    obtain rfl := Option.some.inj h
    obtain ⟨fuel, rfl⟩ := Nat.exists_eq_add_of_lt hfuel
    rfl
  | cons entry queue ih =>
    obtain ⟨vdata', contents', hone, hrest, rfl⟩ := dequeues_cons.mp h
    rw [List.forall_mem_cons] at hgo
    rw [List.length_cons] at hfuel
    obtain ⟨fuel, rfl⟩ : ∃ n, fuel = n + 1 := ⟨fuel - 1, by omega⟩
    rw [handler_of_dequeue hone, if_neg hgo.1, ih hrest hgo.2 (by omega)]
    rfl

/-- **A record looks like the stop message**: those before the first such are printed, and the
others stay in the queue. -/
theorem handler_of_dequeues_stop {o : ByteOrder} {vdata v : List Byte}
    {queue before after : List (List Byte)}
    (h : dequeues vdata queue = some (before ++ v :: after))
    (hgo : ∀ v ∈ before, v.head? ≠ some kt_kStopListeningToMessages)
    (hstop : v.head? = some kt_kStopListeningToMessages) {fuel : ℕ}
    (hfuel : queue.length < fuel) :
    handler o fuel vdata queue =
      .exited (before.map fun v ↦ .line (lineOfData o v)) (queue.drop (before.length + 1)) := by
  induction before generalizing vdata queue fuel with
  | nil =>
    cases queue with
    | nil => cases h
    | cons entry queue =>
      obtain ⟨vdata', contents', hone, -, heq⟩ := dequeues_cons.mp h
      obtain ⟨rfl, rfl⟩ := List.cons.inj heq
      obtain ⟨fuel, rfl⟩ : ∃ n, fuel = n + 1 := ⟨fuel - 1, by omega⟩
      rw [handler_of_dequeue hone, if_pos hstop]
      rfl
  | cons w before ih =>
    cases queue with
    | nil => cases h
    | cons entry queue =>
      obtain ⟨vdata', contents', hone, hrest, heq⟩ := dequeues_cons.mp h
      obtain ⟨rfl, rfl⟩ := List.cons.inj heq
      rw [List.forall_mem_cons] at hgo
      rw [List.length_cons] at hfuel
      obtain ⟨fuel, rfl⟩ : ∃ n, fuel = n + 1 := ⟨fuel - 1, by omega⟩
      rw [handler_of_dequeue hone, if_neg hgo.1, ih hrest hgo.2 (by omega)]
      rfl

/-- What the handler has printed. -/
def Outcome.out : Outcome → List Output
  | .exited out _ => out
  | .waiting out => out
  | .running => []

theorem Outcome.out_cons_prefix {x : Output} {r : Outcome} {l : List Output} (h : r.out <+: l) :
    (r.cons x).out <+: x :: l := by
  cases r with
  | exited out rest => exact (List.prefix_cons_inj x).mpr h
  | waiting out => exact (List.prefix_cons_inj x).mpr h
  | running => exact List.nil_prefix

/-! ## Records -/

/-- The event is about the log file. -/
def isLog (e : VnodeEvent) : Bool :=
  match e.getpath with
  | .path p => p.bytes = VNW_LOG_FILE.toList.map fun c ↦ BitVec.ofNat 8 c.toNat
  | .failed _ => false

variable {o : ByteOrder} {g : VnodeWatcherData} {e : VnodeEvent} {m : List Byte}

/-- **No record is made exactly of the events about the log file.**  What `vn_getpath` leaves in
`name_len` when it fails does not matter, since the path is empty then. -/
theorem callback_eq_none_iff : callback o g e = none ↔ isLog e := by
  cases he : e.getpath with
  | failed n =>
    obtain ⟨m, hm⟩ := callback_of_failed (o := o) (g := g) he
    simp [hm, isLog, he]
  | path p =>
    have htake : (fillData g e).path.take (p.bytes.length + 1) = p.bytes ++ [0] := by
      have hpath : (fillData g e).path = pathField g.path e.getpath := rfl
      rw [hpath, he, pathField, List.take_length_add_append]
      rfl
    have hlog : isLog e ↔ p.bytes ++ [0] = gLogFilePath := by
      rw [isLog, he, gLogFilePath, List.append_left_inj]
      exact decide_eq_true_iff
    rw [hlog, callback, ite_eq_right_iff]
    simp only [he, nameLen, reduceCtorEq, imp_false, not_or, ne_eq, not_not]
    refine ⟨?_, fun hpath ↦ ?_⟩
    · rintro ⟨hlen, hpath⟩
      rwa [← hlen, htake] at hpath
    · have hlen : p.bytes.length + 1 = gLogFilePathLen := by
        rw [gLogFilePathLen, ← hpath, List.length_append, List.length_singleton]
      exact ⟨hlen, by rw [← hlen, htake, hpath]⟩

theorem pathSize_le (r : PathResult) : pathSize r ≤ MAXPATHLEN := by
  cases r with
  | path p =>
    have hle := p.length_le
    have hpos : 0 < MAXPATHLEN := by decide
    rw [pathSize]
    omega
  | failed n => exact (by decide : 1 ≤ MAXPATHLEN)

theorem length_callback (h : callback o g e = some m) :
    m.length = sizeofData - MAXPATHLEN + pathSize e.getpath := by
  have hle := pathSize_le e.getpath
  rw [← callback_eq h, List.length_take, VnodeWatcherData.length_toBytes]
  refine Nat.min_eq_left ?_
  simp only [sizeofData]
  omega

theorem dequeue_callback (h : callback o g e = some m) (vdata : List Byte) :
    dequeue vdata m = some (m ++ vdata.drop m.length) :=
  if_pos (callback_length_le h)

/-! ## Every history -/

/-- The events that have left a record. -/
theorem map_snd_enqueued (o : ByteOrder) (calls : List (VnodeWatcherData × VnodeEvent)) :
    (enqueued o calls).map Prod.snd = (calls.map Prod.snd).filter fun e ↦ !isLog e := by
  induction calls with
  | nil => rfl
  | cons c calls ih =>
    rw [enqueued] at ih
    rw [enqueued, List.filterMap_cons, List.map_cons, List.filter_cons]
    cases h : callback o c.1 c.2 with
    | none =>
      have hlog : isLog c.2 = true := callback_eq_none_iff.mp h
      simp [hlog, ih]
    | some m =>
      have hlog : isLog c.2 = false := by
        rw [Bool.eq_false_iff]
        intro hlog
        rw [callback_eq_none_iff.mpr hlog] at h
        cases h
      simp [hlog, ih]

/-- What is in `vdata` after each record, by the records in the queue. -/
theorem dequeues_fields {records : List (List Byte × VnodeEvent)}
    (hmade : ∀ r ∈ records, ∃ g, callback o g r.2 = some r.1) (vdata : List Byte) :
    ∃ contents, dequeues vdata (records.map Prod.fst) = some contents ∧
      contents.map (fieldsOfData o) = (records.map fun r ↦ fieldsOf r.2) ∧
      contents.map List.head? = records.map fun r ↦ (o.encode 4 r.2.pid.toNat).head? := by
  induction records generalizing vdata with
  | nil => exact ⟨[], rfl, rfl, rfl⟩
  | cons r records ih =>
    rw [List.forall_mem_cons] at hmade
    obtain ⟨⟨g, hg⟩, hmade⟩ := hmade
    obtain ⟨contents, hcontents, hfields, hheads⟩ := ih hmade (r.1 ++ vdata.drop r.1.length)
    refine ⟨(r.1 ++ vdata.drop r.1.length) :: contents, ?_, ?_, ?_⟩
    · exact dequeues_cons.mpr ⟨_, contents, dequeue_callback hg vdata, hcontents, rfl⟩
    · rw [List.map_cons, List.map_cons, hfields, fieldsOfData_callback hg]
    · rw [List.map_cons, List.map_cons, hheads, callback_head hg]

/-- The handler prints the records in their order, as far as it gets. -/
theorem handler_out {records : List (List Byte × VnodeEvent)}
    (hmade : ∀ r ∈ records, ∃ g, callback o g r.2 = some r.1) (fuel : ℕ) (vdata : List Byte) :
    (handler o fuel vdata (records.map Prod.fst)).out <+:
      records.map fun r ↦ .line (lineOf r.2) := by
  induction records generalizing fuel vdata with
  | nil => cases fuel <;> exact List.nil_prefix
  | cons r records ih =>
    rw [List.forall_mem_cons] at hmade
    obtain ⟨⟨g, hg⟩, hmade⟩ := hmade
    cases fuel with
    | zero => exact List.nil_prefix
    | succ fuel =>
      rw [List.map_cons, handler_of_dequeue (dequeue_callback hg vdata), lineOfData_callback hg]
      split
      · exact List.nil_prefix
      · exact Outcome.out_cons_prefix (ih hmade fuel _)

/-- **Vnode event records survive the queue.**  Whatever the callback is invoked for, and whatever
is in `vdata` to begin with:

* a record is as long as its path needs, and fits in `vdata`;
* every record can be taken out, and after each the fields of `vdata` are those of the event it is
  about, they make its line, and the first byte is that of its pid;
* if this byte is never that of the stop message, the handler prints the contents of `vdata` for
  all records and waits for more;
* otherwise it prints them for the records before the first such, and leaves its loop;
* so what it prints are the lines for these events, in their order;
* the events without a record are those about the log file. -/
theorem survives (o : ByteOrder) (calls : List (VnodeWatcherData × VnodeEvent))
    (vdata : List Byte) :
    (∀ r ∈ enqueued o calls,
      16 + (MAXCOMLEN + 1) + pathSize r.2.getpath ≤ r.1.length ∧ r.1.length ≤ sizeofData) ∧
    (∃ contents, dequeues vdata ((enqueued o calls).map Prod.fst) = some contents ∧
      contents.map (fieldsOfData o) = ((enqueued o calls).map fun r ↦ fieldsOf r.2) ∧
      contents.map (lineOfData o) = ((enqueued o calls).map fun r ↦ lineOf r.2) ∧
      contents.map List.head? =
        ((enqueued o calls).map fun r ↦ (o.encode 4 r.2.pid.toNat).head?) ∧
      ((∀ v ∈ contents, v.head? ≠ some kt_kStopListeningToMessages) →
        ∀ fuel, (enqueued o calls).length < fuel →
          handler o fuel vdata ((enqueued o calls).map Prod.fst) =
            .waiting (contents.map fun v ↦ .line (lineOfData o v))) ∧
      ∀ before v after, contents = before ++ v :: after →
        (∀ v ∈ before, v.head? ≠ some kt_kStopListeningToMessages) →
        v.head? = some kt_kStopListeningToMessages →
        ∀ fuel, (enqueued o calls).length < fuel →
          handler o fuel vdata ((enqueued o calls).map Prod.fst) =
            .exited (before.map fun v ↦ .line (lineOfData o v))
              (((enqueued o calls).map Prod.fst).drop (before.length + 1))) ∧
    (∀ fuel, (handler o fuel vdata ((enqueued o calls).map Prod.fst)).out <+:
      (enqueued o calls).map fun r ↦ .line (lineOf r.2)) ∧
    (enqueued o calls).map Prod.snd = (calls.map Prod.snd).filter fun e ↦ !isLog e := by
  have hmade : ∀ r ∈ enqueued o calls, ∃ g, callback o g r.2 = some r.1 :=
    fun r hr ↦ callback_of_mem_enqueued hr
  refine ⟨?_, ?_, fun fuel ↦ handler_out hmade fuel vdata, map_snd_enqueued o calls⟩
  · intro r hr
    obtain ⟨g, hg⟩ := hmade r hr
    refine ⟨?_, callback_length_le hg⟩
    rw [length_callback hg]
    simp only [sizeofData]
    omega
  · obtain ⟨contents, hcontents, hfields, hheads⟩ := dequeues_fields hmade vdata
    have hlines : contents.map (lineOfData o) = (enqueued o calls).map fun r ↦ lineOf r.2 := by
      have hline := congrArg (List.map Fields.line) hfields
      simpa only [List.map_map, Function.comp_def, ← lineOfData_eq, ← lineOf_eq] using hline
    refine ⟨contents, hcontents, hfields, hlines, hheads, ?_, ?_⟩
    · intro hgo fuel hfuel
      exact handler_of_dequeues hcontents hgo (by rwa [List.length_map])
    · rintro before v after rfl hgo hstop fuel hfuel
      exact handler_of_dequeues_stop hcontents hgo hstop (by rwa [List.length_map])

/-- An event of process 6 on the log file. -/
def eventLog : VnodeEvent :=
  { event255 with
    pid := 6
    pid_nonneg := by decide
    getpath := .path ⟨VNW_LOG_FILE.toList.map fun c ↦ BitVec.ofNat 8 c.toNat, by decide, by decide⟩ }

/-- An event of process 7 on a vnode with a path. -/
def event7 : VnodeEvent :=
  { event255 with
    pid := 7
    pid_nonneg := by decide
    getpath := .path ⟨"/tmp/a file".toList.map fun c ↦ BitVec.ofNat 8 c.toNat, by decide, by decide⟩ }

/-- An event of process 8 on one without. -/
def event8 : VnodeEvent :=
  { event255 with
    pid := 8
    pid_nonneg := by decide }

/-- A record behind a longer one, and none for the log file in between. -/
theorem survives_shorter :
    handler .little 3 (List.replicate sizeofData 0xff)
        ((enqueued .little [(zeroData, event7), (zeroData, eventLog), (zeroData, event8)]).map
          Prod.fst) =
      .waiting [.line (lineOf event7), .line (lineOf event8)] := by
  obtain ⟨-, ⟨contents, -, -, hlines, hheads, hwaiting, -⟩, -, hevents⟩ := survives .little
    [(zeroData, event7), (zeroData, eventLog), (zeroData, event8)] (List.replicate sizeofData 0xff)
  generalize enqueued .little _ = records at *
  have hevents : records.map Prod.snd = [event7, event8] := hevents.trans rfl
  have hmap {α : Type} (f : VnodeEvent → α) :
      (records.map fun r ↦ f r.2) = [f event7, f event8] := by
    rw [← Function.comp_def f Prod.snd, ← List.map_map, hevents]
    rfl
  rw [hmap lineOf] at hlines
  rw [hmap fun e ↦ (ByteOrder.little.encode 4 e.pid.toNat).head?] at hheads
  have hgo : ∀ v ∈ contents, v.head? ≠ some kt_kStopListeningToMessages := by
    intro v hv
    have hmem : v.head? ∈ contents.map List.head? := List.mem_map_of_mem hv
    rw [hheads] at hmem
    rcases List.mem_pair.mp hmem with hv | hv
    · rw [hv]
      decide
    · rw [hv]
      decide
  have hlen : records.length < 3 := by
    rw [← List.length_map Prod.snd, hevents]
    decide
  have hprinted := congrArg (List.map Output.line) hlines
  rw [List.map_map] at hprinted
  rw [hwaiting hgo 3 hlen]
  exact congrArg Outcome.waiting hprinted

end VnodeWatcher
end MacOSXInternal
