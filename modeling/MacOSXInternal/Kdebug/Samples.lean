import MacOSXInternal.Lib.Flags

/-!
# What `kdebug` prints

In each turn of its loop `kdebug` asks the kernel how many records there are in its buffer, has as
many copied to its own, and prints a line for each.  Its own buffer has room for
`KDBG_SAMPLE_SIZE` records and is used over and over again.  How a time stamp is put together is a
matter of the kernel's headers.

* `turn` is one turn, which may go over the end of the buffer.
* `sampleLine_eq_iff` says what a line tells of a record.
* `samples_printed` is the result: when the loop is safe, what it prints, and what that tells.
-/

set_option autoImplicit false

namespace MacOSXInternal
namespace Kdebug

open Flags

/-! ## Records -/

/-- A `kd_buf`, without the four arguments that are not printed. -/
structure KdBuf where
  timestamp : BitVec 64
  /-- The thread. -/
  arg5 : BitVec 32
  debugid : BitVec 32

def KDBG_FUNC_MASK : BitVec 32 := 0xfffffffc#32

def KDBG_CLASS_MASK : BitVec 32 := 0xff000000#32

def KDBG_CLASS_SHIFT : ℕ := 24

def DBG_FUNC_START : BitVec 32 := 1#32

def DBG_FUNC_END : BitVec 32 := 2#32

/-- The names after the assignment to the last of them. -/
def KDBG_CLASS_NAMES : List (Option String) :=
  [none, some "DBG_MACH", some "DBG_NETWORK", some "DBG_FSYSTEM", some "DBG_BSD", some "DBG_IOKIT",
    some "DBG_DRIVERS", some "DBG_TRACE", some "DBG_DLIL", some "DBG_SECURITY"] ++
  .replicate 10 none ++ [some "DBG_MISC"] ++ .replicate 10 none ++
  [some "DBG_DYLD", some "DBG_QT", some "DBG_APPS", none] ++ .replicate 220 none ++ [some "DBG_MIG"]

/-- What the kernel's headers say about time stamps. -/
structure Header where
  KDBG_TIMESTAMP_MASK : BitVec 64
  KDBG_CPU_MASK : BitVec 64
  KDBG_CPU_SHIFT : ℕ

/-- What is printed of a record. -/
structure Line where
  now : BitVec 64
  cpu : BitVec 64
  className : String
  type : BitVec 32
  thread : BitVec 32
  qual : String
  deriving DecidableEq

/-- `class`, as an index. -/
def classOf (debugid : BitVec 32) : ℕ :=
  ((debugid &&& KDBG_CLASS_MASK) >>> KDBG_CLASS_SHIFT).toNat

/-- What is printed for the class; `none` if there is no such entry. -/
def className (debugid : BitVec 32) : Option String :=
  KDBG_CLASS_NAMES[classOf debugid]?.map (·.getD "")

def qual (debugid : BitVec 32) : String :=
  if Meets DBG_FUNC_START debugid then "DBG_FUNC_START"
  else if Meets DBG_FUNC_END debugid then "DBG_FUNC_END"
  else ""

/-- The body of the inner loop; `none` if the table of names is left. -/
def sampleLine (header : Header) (kd : KdBuf) : Option Line :=
  (className kd.debugid).map fun name ↦
    { now := kd.timestamp &&& header.KDBG_TIMESTAMP_MASK
      cpu := (kd.timestamp &&& header.KDBG_CPU_MASK) >>> header.KDBG_CPU_SHIFT
      className := name
      type := kd.debugid &&& KDBG_FUNC_MASK
      thread := kd.arg5
      qual := qual kd.debugid }

theorem classOf_lt (debugid : BitVec 32) : classOf debugid < KDBG_CLASS_NAMES.length := by
  have hlength : KDBG_CLASS_NAMES.length = 256 := by
    simp only [KDBG_CLASS_NAMES, List.length_append, List.length_replicate, List.length_cons,
      List.length_nil]
  have hlt := (debugid &&& KDBG_CLASS_MASK).isLt
  rw [hlength, classOf, KDBG_CLASS_SHIFT, BitVec.toNat_ushiftRight, Nat.shiftRight_eq_div_pow]
  omega

/-- The table is never left. -/
theorem isSome_className (debugid : BitVec 32) : (className debugid).isSome := by
  simp [className, classOf_lt]

/-- The type tells the class. -/
theorem classOf_eq_of_type {d d' : BitVec 32}
    (h : d &&& KDBG_FUNC_MASK = d' &&& KDBG_FUNC_MASK) : classOf d = classOf d' := by
  have hmask : KDBG_CLASS_MASK = KDBG_FUNC_MASK &&& KDBG_CLASS_MASK := by decide
  rw [classOf, classOf, hmask, ← BitVec.and_assoc, ← BitVec.and_assoc, h]

/-- The end of a function is not told from the beginning if it is both. -/
theorem qual_eq_iff {d d' : BitVec 32} : qual d = qual d' ↔
    (Meets DBG_FUNC_START d ↔ Meets DBG_FUNC_START d') ∧
      (¬Meets DBG_FUNC_START d → (Meets DBG_FUNC_END d ↔ Meets DBG_FUNC_END d')) := by
  unfold qual
  by_cases hs : Meets DBG_FUNC_START d <;> by_cases hs' : Meets DBG_FUNC_START d' <;>
    by_cases he : Meets DBG_FUNC_END d <;> by_cases he' : Meets DBG_FUNC_END d' <;>
    simp [hs, hs', he, he']

/-- What a line tells of a record. -/
structure Seen where
  now : BitVec 64
  cpu : BitVec 64
  type : BitVec 32
  thread : BitVec 32
  start : Bool
  stop : Bool
  deriving DecidableEq

def seen (header : Header) (kd : KdBuf) : Seen where
  now := kd.timestamp &&& header.KDBG_TIMESTAMP_MASK
  cpu := (kd.timestamp &&& header.KDBG_CPU_MASK) >>> header.KDBG_CPU_SHIFT
  type := kd.debugid &&& KDBG_FUNC_MASK
  thread := kd.arg5
  start := Meets DBG_FUNC_START kd.debugid
  stop := !decide (Meets DBG_FUNC_START kd.debugid) && decide (Meets DBG_FUNC_END kd.debugid)

/-- **A line tells the record** as far as it is printed; the name of the class adds nothing. -/
theorem sampleLine_eq_iff {header : Header} {kd kd' : KdBuf} :
    sampleLine header kd = sampleLine header kd' ↔ seen header kd = seen header kd' := by
  obtain ⟨name, hname⟩ := Option.isSome_iff_exists.mp (isSome_className kd.debugid)
  obtain ⟨name', hname'⟩ := Option.isSome_iff_exists.mp (isSome_className kd'.debugid)
  have hclass (h : kd.debugid &&& KDBG_FUNC_MASK = kd'.debugid &&& KDBG_FUNC_MASK) :
      name = name' := by
    rw [className, classOf_eq_of_type h] at hname
    exact Option.some.inj (hname.symm.trans hname')
  have hquals : (seen header kd).start = (seen header kd').start ∧
      (seen header kd).stop = (seen header kd').stop ↔ qual kd.debugid = qual kd'.debugid := by
    rw [qual_eq_iff]
    by_cases hs : Meets DBG_FUNC_START kd.debugid <;>
      by_cases hs' : Meets DBG_FUNC_START kd'.debugid <;> simp [seen, hs, hs']
  rw [sampleLine, sampleLine, hname, hname', Option.map_some, Option.map_some, Option.some.injEq,
    Line.mk.injEq, ← hquals, Seen.mk.injEq]
  constructor
  · rintro ⟨hnow, hcpu, -, htype, hthread, hstart, hend⟩
    exact ⟨hnow, hcpu, htype, hthread, hstart, hend⟩
  · rintro ⟨hnow, hcpu, htype, hthread, hstart, hend⟩
    exact ⟨hnow, hcpu, hclass htype, htype, hthread, hstart, hend⟩

/-! ## The loop -/

def KDBG_SAMPLE_SIZE : ℕ := 16384

/-- `kd_buf_memory`. -/
structure Buffer where
  cells : List KdBuf
  length_eq : cells.length = KDBG_SAMPLE_SIZE

/-- What the kernel says in one turn: how many records there are, and those that it copies, which
are as many at most as have been asked for. -/
structure Answer where
  nkdbufs : ℕ
  records : List KdBuf
  length_le : records.length ≤ nkdbufs

/-- `ukdbg_read`; `none` if the records do not fit. -/
def Buffer.ukdbg_read (buffer : Buffer) (records : List KdBuf) : Option Buffer :=
  if h : records.length ≤ KDBG_SAMPLE_SIZE then
    some ⟨records ++ buffer.cells.drop records.length, by simp [buffer.length_eq, h]⟩
  else none

variable (header : Header)

/-- The inner loop; `none` if it leaves the buffer or the table. -/
def printed (buffer : Buffer) (count : ℕ) : Option (List Line) :=
  (List.range count).mapM fun i ↦ buffer.cells[i]?.bind (sampleLine header)

/-- One turn of the loop: the buffer and the lines. -/
def turn (buffer : Buffer) (answer : Answer) : Option (Buffer × List Line) := do
  let buffer ← buffer.ukdbg_read answer.records
  let lines ← printed header buffer answer.records.length
  return (buffer, lines)

/-- Turn after turn. -/
def turns (buffer : Buffer) : List Answer → Option (List Line)
  | [] => some []
  | answer :: answers => do
    let (buffer, lines) ← turn header buffer answer
    let rest ← turns buffer answers
    return lines ++ rest

/-- The records of all turns, in order. -/
def delivered (answers : List Answer) : List KdBuf := answers.flatMap Answer.records

variable {header}

/-- A table that is longer than what is looked up in it. -/
theorem mapM_range_append {α β : Type} {f : α → Option β} (l rest : List α) :
    ((List.range l.length).mapM fun i ↦ (l ++ rest)[i]?.bind f) = l.mapM f := by
  induction l with
  | nil => rfl
  | cons a l ih =>
    rw [List.length_cons, List.range_succ_eq_map, List.mapM_cons, List.mapM_cons, List.mapM_map]
    have htail : ((fun i ↦ (a :: l ++ rest)[i]?.bind f) ∘ Nat.succ) =
        fun i ↦ (l ++ rest)[i]?.bind f := rfl
    rw [htail, ih]
    rfl

/-- The line of a record. -/
def line (header : Header) (kd : KdBuf) : Line :=
  (sampleLine header kd).get (by simp [sampleLine, isSome_className])

theorem sampleLine_eq (kd : KdBuf) : sampleLine header kd = some (line header kd) :=
  (Option.some_get _).symm

theorem line_eq_iff {kd kd' : KdBuf} :
    line header kd = line header kd' ↔ seen header kd = seen header kd' := by
  rw [← sampleLine_eq_iff, sampleLine_eq, sampleLine_eq, Option.some.injEq]

theorem isSome_ukdbg_read (buffer : Buffer) {records : List KdBuf} :
    (buffer.ukdbg_read records).isSome ↔ records.length ≤ KDBG_SAMPLE_SIZE := by
  simp [Buffer.ukdbg_read]

/-- What has been read before is not printed again. -/
theorem printed_ukdbg_read {buffer buffer' : Buffer} {records : List KdBuf}
    (h : buffer.ukdbg_read records = some buffer') :
    printed header buffer' records.length = some (records.map (line header)) := by
  have hlines : sampleLine header = fun kd ↦ pure (line header kd) := funext sampleLine_eq
  obtain ⟨_, hread⟩ := Option.dite_none_right_eq_some.mp h
  obtain rfl := Option.some.inj hread
  rw [printed, mapM_range_append, hlines]
  exact List.mapM_pure

/-- One turn: the records that have just been read are printed, if they fit. -/
theorem turn_eq_some_iff {buffer buffer' : Buffer} {answer : Answer} {lines : List Line} :
    turn header buffer answer = some (buffer', lines) ↔
      buffer.ukdbg_read answer.records = some buffer' ∧
        lines = answer.records.map (line header) := by
  rw [turn, Option.bind_eq_bind, Option.bind_eq_some_iff]
  constructor
  · rintro ⟨b, hread, h⟩
    rw [printed_ukdbg_read hread] at h
    obtain ⟨rfl, rfl⟩ := Prod.mk.inj (Option.some.inj h)
    exact ⟨hread, rfl⟩
  · rintro ⟨hread, rfl⟩
    exact ⟨buffer', hread, by rw [printed_ukdbg_read hread]; rfl⟩

theorem turns_eq_some_iff {buffer : Buffer} {answers : List Answer} {lines : List Line} :
    turns header buffer answers = some lines ↔
      (∀ answer ∈ answers, answer.records.length ≤ KDBG_SAMPLE_SIZE) ∧
        lines = (delivered answers).map (line header) := by
  induction answers generalizing buffer lines with
  | nil => simp [turns, delivered, eq_comm]
  | cons answer answers ih =>
    rw [turns, Option.bind_eq_bind, Option.bind_eq_some_iff, List.forall_mem_cons, delivered,
      List.flatMap_cons, List.map_append]
    constructor
    · rintro ⟨⟨buffer', printed⟩, hturn, hrest⟩
      obtain ⟨hread, rfl⟩ := turn_eq_some_iff.mp hturn
      obtain ⟨rest, hrest, hlines⟩ := Option.bind_eq_some_iff.mp hrest
      obtain ⟨hfit, rfl⟩ := ih.mp hrest
      have hfits := (isSome_ukdbg_read buffer).mp (Option.isSome_iff_exists.mpr ⟨buffer', hread⟩)
      exact ⟨⟨hfits, hfit⟩, (Option.some.inj hlines).symm⟩
    · rintro ⟨⟨hfit, hrest⟩, rfl⟩
      obtain ⟨buffer', hread⟩ := Option.isSome_iff_exists.mp
        ((isSome_ukdbg_read buffer).mpr hfit)
      exact ⟨(buffer', _), turn_eq_some_iff.mpr ⟨hread, rfl⟩,
        Option.bind_eq_some_iff.mpr ⟨_, ih.mpr ⟨hrest, rfl⟩, rfl⟩⟩

/-- **The loop is safe while the kernel has no more records than have been asked for**, and prints
what it is given, once and in order; the lines tell of the records what has been `seen`. -/
theorem samples_printed (header : Header) (buffer : Buffer) (answers : List Answer) :
    (turns header buffer answers = none ↔
      ∃ answer ∈ answers, KDBG_SAMPLE_SIZE < answer.records.length) ∧
    ((∀ answer ∈ answers, answer.nkdbufs ≤ KDBG_SAMPLE_SIZE) →
      turns header buffer answers = (delivered answers).mapM (sampleLine header)) ∧
    ∀ (buffer' : Buffer) (answers' : List Answer) (lines : List Line),
      turns header buffer answers = some lines →
        (turns header buffer' answers' = some lines ↔
          (∀ answer ∈ answers', answer.records.length ≤ KDBG_SAMPLE_SIZE) ∧
            (delivered answers').map (seen header) = (delivered answers).map (seen header)) := by
  refine ⟨?_, ?_, ?_⟩
  · have hsome : (∃ lines, turns header buffer answers = some lines) ↔
        ∀ answer ∈ answers, answer.records.length ≤ KDBG_SAMPLE_SIZE := by
      simp [turns_eq_some_iff]
    rw [← not_iff_not, Option.eq_none_iff_forall_ne_some, not_forall_not, hsome]
    simp only [not_exists, not_and, Nat.not_lt]
  · intro hfit
    have hlines : sampleLine header = fun kd ↦ pure (line header kd) := funext sampleLine_eq
    rw [hlines, List.mapM_pure]
    refine turns_eq_some_iff.mpr ⟨fun answer hmem ↦ ?_, rfl⟩
    exact Nat.le_trans answer.length_le (hfit answer hmem)
  · intro buffer' answers' lines h
    obtain ⟨-, rfl⟩ := turns_eq_some_iff.mp h
    rw [turns_eq_some_iff, eq_comm, map_eq_map_congr fun _ _ ↦ line_eq_iff]

/-! The records of two turns, the second of which has fewer than the first. -/

def someHeader : Header := ⟨0x00ffffffffffffff#64, 0x0f00000000000000#64, 56⟩

def someBuffer : Buffer :=
  ⟨.replicate KDBG_SAMPLE_SIZE ⟨0#64, 0#32, 0#32⟩, List.length_replicate⟩

/-- A system call that begins and ends, on two processors. -/
def callAnswer : Answer :=
  ⟨2, [⟨0x0000000000000064#64, 9#32, 0x040c0011#32⟩, ⟨0x0100000000000065#64, 9#32, 0x040c0012#32⟩],
    Nat.le_refl 2⟩

/-- Something of another thread; two more records have come, and are not copied. -/
def pageAnswer : Answer :=
  ⟨3, [⟨0x0000000000000066#64, 7#32, 0x03020000#32⟩], Nat.le_add_right 1 2⟩

/-- The same records at once, the last of them with a bit that is not printed. -/
def onceAnswer : Answer :=
  ⟨3, [⟨0x0000000000000064#64, 9#32, 0x040c0011#32⟩, ⟨0x0100000000000065#64, 9#32, 0x040c0012#32⟩,
    ⟨0x8000000000000066#64, 7#32, 0x03020000#32⟩], Nat.le_refl 3⟩

/-- One record more than there is room for. -/
def floodAnswer : Answer :=
  ⟨KDBG_SAMPLE_SIZE + 1, .replicate (KDBG_SAMPLE_SIZE + 1) ⟨0#64, 0#32, 0#32⟩,
    Nat.le_of_eq List.length_replicate⟩

/-- The second turn does not print what is left of the first; that the records have come in two
turns is not seen; and the buffer can be overrun. -/
theorem samples_printed_again :
    turns someHeader someBuffer [callAnswer, pageAnswer] = some
      [⟨0x64#64, 0#64, "DBG_BSD", 0x040c0010#32, 9#32, "DBG_FUNC_START"⟩,
        ⟨0x65#64, 1#64, "DBG_BSD", 0x040c0010#32, 9#32, "DBG_FUNC_END"⟩,
        ⟨0x66#64, 0#64, "DBG_FSYSTEM", 0x03020000#32, 7#32, ""⟩] ∧
    turns someHeader someBuffer [onceAnswer] =
      turns someHeader someBuffer [callAnswer, pageAnswer] ∧
    turns someHeader someBuffer [callAnswer, floodAnswer] = none := by
  obtain ⟨-, hprinted, hsame⟩ := samples_printed someHeader someBuffer [callAnswer, pageAnswer]
  have hlines := hprinted (by simp [callAnswer, pageAnswer, KDBG_SAMPLE_SIZE])
  refine ⟨hlines.trans (by decide), ?_, ?_⟩
  · rw [hlines]
    refine (hsame someBuffer [onceAnswer] _ (hlines.trans rfl)).mpr ⟨?_, by decide⟩
    simp [onceAnswer, KDBG_SAMPLE_SIZE]
  · refine (samples_printed someHeader someBuffer _).1.mpr ⟨floodAnswer, by simp, ?_⟩
    rw [floodAnswer, List.length_replicate]
    exact Nat.lt_succ_self _

end Kdebug
end MacOSXInternal
