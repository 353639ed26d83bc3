import Mathlib.Data.Nat.Notation
import MacOSXInternal.Lib.Delimited
import MacOSXInternal.Lib.Flags
import MacOSXInternal.VnodeWatcher.RoundTrip

/-!
# What the printed characters tell

`vnodewatch` prints an event as a line of names.  Two rights of a directory and of a file go by
different names, some rights have no name, and what counts as a directory is decided with a mask.
The path and the command are printed as they are, between quotation marks and parentheses that they
may contain themselves.

* `isdir` is that test, and `isdir_iff` the vnode types that pass it.
* `rights` are the rights that have a name.
* `Line.text` are the characters of a line, and `stdout` those of a session.
* `Readable` is what keeps a line from being taken for another: no quotation mark in the path, and
  no newline in the command.
* `printed_eq_iff` is the result: the characters that a whole session has printed can be read back
  into the events, up to the rights without a name.
-/

set_option autoImplicit false

namespace MacOSXInternal
namespace VnodeWatcher

open Flags Delimited

/-- The test `vdata.v_type & VDIR`. -/
def isdir (v : VType) : Bool := v.ctorIdx &&& VType.VDIR.ctorIdx ≠ 0

/-- Four more types have the bit of `VDIR`. -/
theorem isdir_iff (v : VType) :
    isdir v ↔ v = .VDIR ∨ v = .VBLK ∨ v = .VSOCK ∨ v = .VFIFO ∨ v = .VCPLX := by
  cases v <;> decide

/-- The rights that have a name: for a directory there is one more, `DELETE_CHILD`. -/
def rights (v : VType) : BitVec 32 := if isdir v then 0xC6003FFE#32 else 0xC6003FBE#32

/-- The table for a vnode of type `v`. -/
def actions (v : VType) : List Action :=
  (if isdir v then dirActions else fileActions) ++ commonActions

theorem getLsbD_rights (v : VType) (n : ℕ) :
    (rights v).getLsbD n ↔ ∃ a ∈ actions v, a.1 = n := by
  have hsmall : ∀ b : Bool, ∀ n < 32,
      (if b then 0xC6003FFE#32 else 0xC6003FBE#32).getLsbD n ↔
        ∃ a ∈ (if b then dirActions else fileActions) ++ commonActions, a.1 = n := by decide
  have hbound : ∀ b : Bool, ∀ a ∈ (if b then dirActions else fileActions) ++ commonActions,
      a.1 < 32 := by decide
  by_cases hn : n < 32
  · exact hsmall (isdir v) n hn
  · rw [BitVec.getLsbD_of_ge _ _ (not_lt.mp hn)]
    refine iff_of_false (by simp) ?_
    rintro ⟨a, ha, rfl⟩
    exact hn (hbound (isdir v) a ha)

/-- The names that `action_print` prints tell the rights that have one. -/
theorem actionPrint_eq_iff (v : VType) (action action' : BitVec 32) :
    actionPrint action (isdir v) = actionPrint action' (isdir v) ↔
      action &&& rights v = action' &&& rights v := by
  have hnames : ∀ b : Bool,
      (((if b then dirActions else fileActions) ++ commonActions).map Prod.snd).Nodup := by decide
  rw [actionPrint, actionPrint, map_filter_inj (hnames (isdir v)), and_eq_and_iff]
  simp only [getLsbD_rights, forall_exists_index, and_imp]
  exact ⟨fun h n a ha hn ↦ hn ▸ h a ha, fun h a ha ↦ h a.1 a ha rfl⟩

/-- What can be seen of an event. -/
def visible (e : VnodeEvent) : Fields :=
  { fieldsOf e with action := (e.action &&& rights e.v_type).toNat }

theorem VType.ctorIdx_lt_names (v : VType) : v.ctorIdx < vtype_names.length := by
  cases v <;> decide

theorem VTagType.ctorIdx_lt_names (v : VTagType) : v.ctorIdx < vtag_names.length := by
  cases v <;> decide

theorem VType.ctorIdx_inj {v v' : VType} : v.ctorIdx = v'.ctorIdx ↔ v = v' := by
  refine ⟨fun h ↦ ?_, congrArg _⟩
  have hof : VType.ofNat v.ctorIdx = VType.ofNat v'.ctorIdx := by rw [h]
  rwa [VType.ofNat_ctorIdx, VType.ofNat_ctorIdx] at hof

/-- **A line tells the event**, up to the rights without a name. -/
theorem lineOf_eq_iff (e e' : VnodeEvent) : lineOf e = lineOf e' ↔ visible e = visible e' := by
  have htype : (lineOf e).vtype = (lineOf e').vtype ↔ (visible e).v_type = (visible e').v_type :=
    List.getElem?_inj e.v_type.ctorIdx_lt_names (by decide)
  have htag : (lineOf e).vtag = (lineOf e').vtag ↔ (visible e).v_tag = (visible e').v_tag :=
    List.getElem?_inj e.v_tag.ctorIdx_lt_names (by decide)
  have haction (h : (visible e).v_type = (visible e').v_type) :
      (lineOf e).action = (lineOf e').action ↔ (visible e).action = (visible e').action := by
    have h : e.v_type = e'.v_type := VType.ctorIdx_inj.mp h
    show actionPrint e.action (isdir e.v_type) = actionPrint e'.action (isdir e'.v_type) ↔
      (e.action &&& rights e.v_type).toNat = (e'.action &&& rights e'.v_type).toNat
    rw [h, actionPrint_eq_iff, BitVec.toNat_inj]
  rw [Line.mk.injEq, Fields.mk.injEq, htype, htag]
  constructor
  · rintro ⟨hpath, htype, htag, hpid, hcomm, hact⟩
    exact ⟨hpid, (haction htype).mp hact, htype, htag, hcomm, hpath⟩
  · rintro ⟨hpid, hact, htype, htag, hcomm, hpath⟩
    exact ⟨hpath, htype, htag, hpid, hcomm, (haction htype).mpr hact⟩

/-! ## Characters -/

/-- The characters of a string in the source. -/
def chars (s : String) : List Byte := s.toList.map fun c ↦ BitVec.ofNat 8 c.toNat

/-- What `%lu` prints. -/
def decimal (n : ℕ) : List Byte := (Nat.toDigits 10 n).map fun c ↦ BitVec.ofNat 8 c.toNat

/-- What `action_print` prints. -/
def actionText (names : List String) : List Byte :=
  chars "\x7b " ++ names.flatMap (fun name ↦ chars name ++ chars " ") ++ chars "\x7d\n"

/-- The `printf` of the handler, and what `action_print` prints behind it. -/
def lineText (path : List Byte) (vtype vtag : String) (pid : ℕ) (p_comm : List Byte)
    (action : List String) : List Byte :=
  chars "\"" ++ path ++ chars "\" " ++ chars vtype ++ chars " " ++ chars vtag ++ chars " " ++
    decimal pid ++ chars "(" ++ p_comm ++ chars ") " ++ actionText action

/-- The characters of a line, unless a table is read outside its bounds. -/
def Line.text (l : Line) : Option (List Byte) :=
  l.vtype.bind fun vtype ↦ l.vtag.map fun vtag ↦
    lineText l.path vtype vtag l.pid l.p_comm l.action

/-- What has been printed on the standard output; errors go elsewhere. -/
def stdout : List Output → Option (List Byte)
  | [] => some []
  | .line l :: out => l.text.bind fun t ↦ (stdout out).map (t ++ ·)
  | .error :: out => stdout out

theorem toNat_of_mem_toDigits {n : ℕ} {c : Char} (h : c ∈ Nat.toDigits 10 n) :
    48 ≤ c.toNat ∧ c.toNat ≤ 57 := by
  have hdigit := Nat.isDigit_of_mem_toDigits (by decide) (by decide) h
  simpa [Char.isDigit, UInt32.le_iff_toNat_le] using hdigit

theorem not_mem_decimal (n : ℕ) : (0x28 : Byte) ∉ decimal n := by
  rw [decimal, List.mem_map]
  rintro ⟨c, hc, heq⟩
  have hdigit := toNat_of_mem_toDigits hc
  have heq := congrArg BitVec.toNat heq
  rw [BitVec.toNat_ofNat, Nat.mod_eq_of_lt (by omega)] at heq
  simp at heq
  omega

theorem decimal_inj {m n : ℕ} : decimal m = decimal n ↔ m = n := by
  have hback (n : ℕ) : Nat.ofDigitChars 10 ((decimal n).map fun b ↦ Char.ofNat b.toNat) 0 = n := by
    have hchars : (decimal n).map (fun b ↦ Char.ofNat b.toNat) = Nat.toDigits 10 n := by
      rw [decimal, List.map_map]
      refine (List.map_congr_left fun c hc ↦ ?_).trans (List.map_id _)
      have hdigit := toNat_of_mem_toDigits hc
      rw [Function.comp_apply, BitVec.toNat_ofNat, Nat.mod_eq_of_lt (by omega), Char.ofNat_toNat,
        id_eq]
    rw [hchars, Nat.ofDigitChars_ten_toDigits]
  constructor
  · intro h
    rw [← hback m, h, hback]
  · rintro rfl
    rfl

/-- The names of all rights. -/
def actionNames : List String := (fileActions ++ dirActions ++ commonActions).map Prod.snd

theorem mem_actionNames {action : BitVec 32} {dir : Bool} {name : String}
    (h : name ∈ actionPrint action dir) : name ∈ actionNames := by
  have hsub : ∀ dir : Bool, (if dir then dirActions else fileActions) ++ commonActions ⊆
      fileActions ++ dirActions ++ commonActions := by decide
  rw [actionPrint, List.mem_map] at h
  obtain ⟨a, ha, rfl⟩ := h
  exact List.mem_map_of_mem (hsub dir (List.mem_filter.mp ha).1)

/-- A name, as it is printed, has no blank, no parenthesis and no newline, and tells the name. -/
theorem chars_of_mem {name : String} (h : name ∈ actionNames ++ vtype_names ++ vtag_names) :
    (0x20 : Byte) ∉ chars name ∧ (0x29 : Byte) ∉ chars name ∧ (0x0a : Byte) ∉ chars name := by
  revert name
  decide

theorem chars_inj {names : List String} (hnames : (names.map chars).Nodup) {a b : String}
    (ha : a ∈ names) (hb : b ∈ names) : chars a = chars b ↔ a = b :=
  ⟨List.inj_on_of_nodup_map hnames ha hb, congrArg chars⟩

/-- The rights are printed as words. -/
def words (names : List String) : List Byte := names.flatMap fun name ↦ chars name ++ [0x20]

theorem words_inj {names names' : List String} (h : names ⊆ actionNames)
    (h' : names' ⊆ actionNames) : words names = words names' ↔ names = names' := by
  have hword : SelfDelimiting (· ∈ actionNames) (fun name ↦ chars name ++ [0x20]) id :=
    (SelfDelimiting.word fun hmem ↦ (chars_of_mem (by simp [hmem])).1).congr fun ha hb ↦
      chars_inj (by decide) ha hb
  rw [words, words, hword.flatMap_inj h h', List.map_id, List.map_id]

theorem not_mem_words {names : List String} (h : names ⊆ actionNames) :
    (0x29 : Byte) ∉ words names ∧ (0x0a : Byte) ∉ words names := by
  have hword {b : Byte} (hb : b ∈ words names) (hne : b ≠ 0x20) :
      ∃ name ∈ names, b ∈ chars name := by
    rw [words, List.mem_flatMap] at hb
    obtain ⟨name, hname, hb⟩ := hb
    rw [List.mem_append, List.mem_singleton, or_iff_left hne] at hb
    exact ⟨name, hname, hb⟩
  constructor
  · intro hb
    obtain ⟨name, hname, hb⟩ := hword hb (by decide)
    exact (chars_of_mem (by simp [h hname])).2.1 hb
  · intro hb
    obtain ⟨name, hname, hb⟩ := hword hb (by decide)
    exact (chars_of_mem (by simp [h hname])).2.2 hb

/-- A line, with its fields and what ends them. -/
theorem lineText_append (path : List Byte) (vtype vtag : String) (pid : ℕ) (p_comm : List Byte)
    (action : List String) (r : List Byte) :
    lineText path vtype vtag pid p_comm action ++ r =
      0x22 :: (path ++ 0x22 :: 0x20 :: (chars vtype ++ 0x20 :: (chars vtag ++ 0x20 ::
        (decimal pid ++ 0x28 :: ((p_comm ++ 0x29 :: (0x20 :: 0x7b :: 0x20 ::
          (words action ++ [0x7d]))) ++ 0x0a :: r))))) := by
  have hblank : chars " " = [0x20] := by decide
  have hquote : chars "\"" = [0x22] := by decide
  have hquoted : chars "\" " = [0x22, 0x20] := by decide
  have hopen : chars "(" = [0x28] := by decide
  have hclose : chars ") " = [0x29, 0x20] := by decide
  have hbegin : chars "\x7b " = [0x7b, 0x20] := by decide
  have hend : chars "\x7d\n" = [0x7d, 0x0a] := by decide
  simp [lineText, actionText, words, hblank, hquote, hquoted, hopen, hclose, hbegin, hend]

/-- Nothing in the path or the command looks like the end of it. -/
def Readable (e : VnodeEvent) : Prop :=
  (0x22 : Byte) ∉ (fieldsOf e).path ∧ (0x0a : Byte) ∉ (fieldsOf e).p_comm

instance (e : VnodeEvent) : Decidable (Readable e) :=
  inferInstanceAs (Decidable (_ ∉ _ ∧ _ ∉ _))

/-- A line of an event can be printed. -/
theorem text_lineOf (e : VnodeEvent) : ∃ vtype ∈ vtype_names, ∃ vtag ∈ vtag_names,
    (lineOf e).vtype = some vtype ∧ (lineOf e).vtag = some vtag ∧
      (lineOf e).text = some (lineText (fieldsOf e).path vtype vtag (fieldsOf e).pid
        (fieldsOf e).p_comm (lineOf e).action) := by
  have htype : (lineOf e).vtype = some (vtype_names.get ⟨_, e.v_type.ctorIdx_lt_names⟩) :=
    List.getElem?_eq_getElem e.v_type.ctorIdx_lt_names
  have htag : (lineOf e).vtag = some (vtag_names.get ⟨_, e.v_tag.ctorIdx_lt_names⟩) :=
    List.getElem?_eq_getElem e.v_tag.ctorIdx_lt_names
  refine ⟨_, List.get_mem _ _, _, List.get_mem _ _, htype, htag, ?_⟩
  rw [Line.text, htype, htag]
  rfl

/-- **The characters of a line tell the event**, and where it ends. -/
theorem selfDelimiting_line :
    SelfDelimiting Readable (fun e ↦ (lineOf e).text.getD []) visible := by
  have hline : SelfDelimiting Readable (fun e ↦ (lineOf e).text.getD []) lineOf := by
    refine ⟨fun {e} _ ↦ ?_, fun {e e' r s} he he' ↦ ?_⟩
    · obtain ⟨vtype, -, vtag, -, -, -, htext⟩ := text_lineOf e
      rw [htext, Option.getD_some, ← List.append_nil (lineText ..), lineText_append]
      exact List.cons_ne_nil _ _
    · obtain ⟨vtype, hmem, vtag, hmemTag, htype, htag, htext⟩ := text_lineOf e
      obtain ⟨vtype', hmem', vtag', hmemTag', htype', htag', htext'⟩ := text_lineOf e'
      have hact (e : VnodeEvent) : (lineOf e).action ⊆ actionNames := fun _ ↦ mem_actionNames
      have hwords := not_mem_words (hact e)
      have hwords' := not_mem_words (hact e')
      rw [htext, htext', Option.getD_some, Option.getD_some, lineText_append, lineText_append,
        List.cons.injEq, append_cons_inj he.1 he'.1, List.cons.injEq,
        append_cons_inj (chars_of_mem (by simp [hmem])).1 (chars_of_mem (by simp [hmem'])).1,
        append_cons_inj (chars_of_mem (by simp [hmemTag])).1 (chars_of_mem (by simp [hmemTag'])).1,
        append_cons_inj (not_mem_decimal _) (not_mem_decimal _),
        append_cons_inj (by simpa using And.intro he.2 hwords.2)
          (by simpa using And.intro he'.2 hwords'.2),
        append_cons_inj_last (by simpa using hwords.1) (by simpa using hwords'.1), decimal_inj,
        chars_inj (by decide) hmem hmem', chars_inj (by decide) hmemTag hmemTag']
      have hline : lineOf e = lineOf e' ↔ (fieldsOf e).path = (fieldsOf e').path ∧
          (lineOf e).vtype = (lineOf e').vtype ∧ (lineOf e).vtag = (lineOf e').vtag ∧
          (fieldsOf e).pid = (fieldsOf e').pid ∧ (fieldsOf e).p_comm = (fieldsOf e').p_comm ∧
          (lineOf e).action = (lineOf e').action :=
        Iff.of_eq (Line.mk.injEq ..)
      simp only [hline, htype, htype', htag, htag', Option.some_inj, List.cons.injEq,
        List.append_left_inj, words_inj (hact e) (hact e'), true_and, and_assoc]
  exact hline.congr fun _ _ ↦ lineOf_eq_iff _ _

/-! ## Sessions -/

/-- A handler that waits has printed every record. -/
theorem handler_waiting {o : ByteOrder} {records : List (List Byte × VnodeEvent)}
    (hmade : ∀ r ∈ records, ∃ g, callback o g r.2 = some r.1) {fuel : ℕ} {vdata : List Byte}
    {out : List Output} (h : handler o fuel vdata (records.map Prod.fst) = .waiting out) :
    out = records.map fun r ↦ .line (lineOf r.2) := by
  induction records generalizing fuel vdata out with
  | nil =>
    cases fuel with
    | zero => simp [handler] at h
    | succ fuel => simpa [handler, eq_comm] using h
  | cons r records ih =>
    rw [List.forall_mem_cons] at hmade
    obtain ⟨⟨g, hg⟩, hmade⟩ := hmade
    cases fuel with
    | zero => simp [handler] at h
    | succ fuel =>
      by_cases hd : Distinct o r.2
      · rw [List.map_cons, (handler_callback hg fuel vdata _).1 hd] at h
        cases hrest : handler o fuel (r.1 ++ vdata.drop r.1.length) (records.map Prod.fst) with
        | waiting out' =>
          rw [hrest, Outcome.cons, Outcome.waiting.injEq] at h
          rw [← h, ih hmade hrest, List.map_cons]
        | exited | running =>
          rw [hrest] at h
          cases h
      · rw [List.map_cons, (handler_callback hg fuel vdata _).2 hd] at h
        cases h

theorem stdout_lines (events : List VnodeEvent) :
    stdout (events.map fun e ↦ .line (lineOf e)) =
      some (events.flatMap fun e ↦ (lineOf e).text.getD []) := by
  induction events with
  | nil => rfl
  | cons e events ih =>
    obtain ⟨vtype, -, vtag, -, -, -, htext⟩ := text_lineOf e
    rw [List.map_cons, stdout, ih, List.flatMap_cons, htext]
    rfl

/-- **The output of a session can be read back.**  Two sessions that have printed all their records,
on machines of either byte order and whatever `vdata` held, have printed the same characters exactly
when they were about the same events, less those on the log file and up to the rights without a
name; if no path has a quotation mark in it, and no command a newline. -/
theorem printed_eq_iff {o o' : ByteOrder} {calls calls' : List (VnodeWatcherData × VnodeEvent)}
    {fuel fuel' : ℕ} {vdata vdata' : List Byte} {out out' : List Output}
    (h : handler o fuel vdata ((enqueued o calls).map Prod.fst) = .waiting out)
    (h' : handler o' fuel' vdata' ((enqueued o' calls').map Prod.fst) = .waiting out')
    (hr : ∀ c ∈ calls, Readable c.2) (hr' : ∀ c ∈ calls', Readable c.2) :
    ∃ text text', stdout out = some text ∧ stdout out' = some text' ∧
      (text = text' ↔
        ((calls.map Prod.snd).filter fun e ↦ !isLog e).map visible =
          ((calls'.map Prod.snd).filter fun e ↦ !isLog e).map visible) := by
  have hlines (l : List (List Byte × VnodeEvent)) :
      (l.map fun r ↦ Output.line (lineOf r.2)) = (l.map Prod.snd).map fun e ↦ .line (lineOf e) := by
    rw [List.map_map]
    rfl
  have hreadable {calls : List (VnodeWatcherData × VnodeEvent)} (hr : ∀ c ∈ calls, Readable c.2) :
      ∀ e ∈ (calls.map Prod.snd).filter fun e ↦ !isLog e, Readable e := by
    intro e he
    obtain ⟨c, hc, rfl⟩ := List.mem_map.mp (List.mem_filter.mp he).1
    exact hr c hc
  rw [handler_waiting (fun r hr ↦ callback_of_mem_enqueued hr) h,
    handler_waiting (fun r hr ↦ callback_of_mem_enqueued hr) h', hlines, hlines, map_snd_enqueued,
    map_snd_enqueued]
  exact ⟨_, _, stdout_lines _, stdout_lines _,
    selfDelimiting_line.flatMap_inj (hreadable hr) (hreadable hr')⟩

/-- A session in which no pid looks like the stop message. -/
theorem handler_distinct (o : ByteOrder) (calls : List (VnodeWatcherData × VnodeEvent))
    (hd : ∀ c ∈ calls, Distinct o c.2) (vdata : List Byte) :
    ∃ out, handler o (calls.length + 1) vdata ((enqueued o calls).map Prod.fst) = .waiting out := by
  obtain ⟨contents, hcontents, -, hheads⟩ :=
    dequeues_fields (fun r hr ↦ callback_of_mem_enqueued (o := o) hr) vdata
  have hlen : (enqueued o calls).length ≤ calls.length := List.length_filterMap_le ..
  refine ⟨_, handler_of_dequeues hcontents (fun v hv ↦ ?_) (by rw [List.length_map]; omega)⟩
  have hmem : v.head? ∈ contents.map List.head? := List.mem_map_of_mem hv
  rw [hheads, List.mem_map] at hmem
  obtain ⟨r, hr, heq⟩ := hmem
  have hcall : r.2 ∈ calls.map Prod.snd := by
    have hsnd : r.2 ∈ (enqueued o calls).map Prod.snd := List.mem_map_of_mem hr
    rw [map_snd_enqueued] at hsnd
    exact (List.mem_filter.mp hsnd).1
  obtain ⟨c, hc, hcr⟩ := List.mem_map.mp hcall
  rw [← heq, Ne, head_pid_eq_stop, not_not, ← hcr]
  exact hd c hc

/-- The event of process 8, with `SYNCHRONIZE`, which has no name. -/
def eventSynchronize : VnodeEvent := { event8 with action := 0x00100002 }

/-- Two sessions that differ in the byte order, in an event on the log file and in `SYNCHRONIZE`. -/
theorem printed_eq_synchronize : ∃ out out',
    handler .big 3 (List.replicate sizeofData 0) ((enqueued .big
      [(zeroData, event7), (zeroData, event8)]).map Prod.fst) = .waiting out ∧
    handler .little 4 (List.replicate sizeofData 0xff) ((enqueued .little
      [(zeroData, event7), (zeroData, eventLog), (zeroData, eventSynchronize)]).map Prod.fst) =
        .waiting out' ∧
    stdout out = stdout out' := by
  have hpid : ∀ c ∈ [(zeroData, event7), (zeroData, eventLog), (zeroData, eventSynchronize)],
      c.2.pid.toNat % 256 ≠ kt_kStopListeningToMessages.toNat := by decide
  obtain ⟨out, hout⟩ := handler_distinct .big [(zeroData, event7), (zeroData, event8)]
    (fun c _ ↦ .inl rfl) (List.replicate sizeofData 0)
  obtain ⟨out', hout'⟩ := handler_distinct .little
    [(zeroData, event7), (zeroData, eventLog), (zeroData, eventSynchronize)]
    (fun c hc ↦ .inr (hpid c hc)) (List.replicate sizeofData 0xff)
  obtain ⟨text, text', htext, htext', hiff⟩ := printed_eq_iff hout hout' (by decide) (by decide)
  refine ⟨out, out', hout, hout', ?_⟩
  rw [htext, htext', hiff.mpr (by decide)]

/-- With a quotation mark in it, the path of one event can make its line look like two. -/
example : stdout [.line { lineOf event7 with
      path := chars "/x\" VREG VT_HFS 7() \x7b READ_DATA \x7d\n\"/y" }] =
    stdout [.line { lineOf event7 with path := chars "/x" },
      .line { lineOf event7 with path := chars "/y" }] := by
  decide

end VnodeWatcher
end MacOSXInternal
