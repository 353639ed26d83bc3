import MacOSXInternal.Srmap.Walk

/-!
# The table describes the library

What the mapping table should be is a function of the file: the load commands follow one another,
each `cmdsize` bytes behind the last, and every segment among them has one entry for what the file
has of it and, if it is writable and larger than that, a second one for the rest.  This file states
that function and proves that the loop computes it.

* `commands`, `segments`, `entries` and `table` are the specification.
* `Walked` is the invariant: what the variables and the records are when the segments `segs` have
  been dealt with.
* `segment_eq` and `turn_eq` are one step, `walk_eq` is the loop.
* `srmap_table` is the result, with `entries_tile` for what a segment's entries cover.
-/

set_option autoImplicit false

namespace MacOSXInternal
namespace Srmap

/-! ## The specification -/

section
variable (o : ByteOrder) (file : List Byte)

/-- The word at an offset of the file. -/
def word (off : BitVec 32) : BitVec 32 := BitVec.ofNat 32 (o.decode ((file.drop off.toNat).take 4))

/-- The offsets of `n` load commands, of which the first is at `off`. -/
def commands : ℕ → BitVec 32 → List (BitVec 32)
  | 0, _ => []
  | n + 1, off => off :: commands n (off + word o file (off + cmdsizeOff))

/-- The command at `off` is a segment. -/
def IsSegment (off : BitVec 32) : Prop := word o file (off + cmdOff) = LC_SEGMENT

instance (off : BitVec 32) : Decidable (IsSegment o file off) := inferInstanceAs (Decidable (_ = _))

/-- The offsets of the segments among the load commands. -/
def segments (n : ℕ) (off : BitVec 32) : List (BitVec 32) :=
  (commands o file n off).filter (IsSegment o file ·)

/-- What the file says of the command at `off` lies in the file. -/
def Inside (off : BitVec 32) : Prop :=
  off.toNat + 8 ≤ file.length ∧ (IsSegment o file off → off.toNat + 48 ≤ file.length)

instance (off : BitVec 32) : Decidable (Inside o file off) := inferInstanceAs (Decidable (_ ∧ _))

/-- Initially writable. -/
def Writable (off : BitVec 32) : Prop := word o file (off + initprotOff) &&& VM_PROT_WRITE ≠ 0

instance (off : BitVec 32) : Decidable (Writable o file off) := inferInstanceAs (Decidable (_ ≠ _))

/-- The segment's own protection, and copy-on-write if that is writable. -/
def protection (off : BitVec 32) : BitVec 32 :=
  (word o file (off + initprotOff) &&& (VM_PROT_READ ||| VM_PROT_WRITE ||| VM_PROT_EXECUTE)) |||
    if Writable o file off then VM_PROT_COW else 0

/-- The entry of a segment. -/
def fileEntry (off : BitVec 32) : Entry where
  address := (word o file (off + vmaddrOff)).setWidth 64
  size := (word o file (off + filesizeOff)).setWidth 64
  file_offset := (word o file (off + fileoffOff)).setWidth 64
  max_prot := protection o file off
  init_prot := protection o file off

/-- The entry of a segment's zero-fill area. -/
def zeroEntry (off : BitVec 32) : Entry where
  address := (word o file (off + vmaddrOff)).setWidth 64 +
    (word o file (off + filesizeOff)).setWidth 64
  size := (word o file (off + vmsizeOff)).setWidth 64 -
    (word o file (off + filesizeOff)).setWidth 64
  file_offset := 0
  max_prot := protection o file off ||| VM_PROT_COW ||| VM_PROT_ZF
  init_prot := protection o file off ||| VM_PROT_COW ||| VM_PROT_ZF

/-- The segment has a zero-fill area that needs a mapping. -/
def HasZeroFill (off : BitVec 32) : Prop :=
  Writable o file off ∧ word o file (off + filesizeOff) < word o file (off + vmsizeOff)

instance (off : BitVec 32) : Decidable (HasZeroFill o file off) :=
  inferInstanceAs (Decidable (_ ∧ _))

/-- The entries of a segment. -/
def entries (off : BitVec 32) : List Entry :=
  fileEntry o file off :: if HasZeroFill o file off then [zeroEntry o file off] else []

/-- The number of load commands. -/
def ncmds : ℕ := (word o file ncmdsOff).toNat

/-- The segments of the file. -/
def fileSegments : List (BitVec 32) :=
  segments o file (ncmds o file) (BitVec.ofNat 32 headerSize)

/-- The table of the file. -/
def table : List Entry := (fileSegments o file).flatMap (entries o file)

end

variable {o : ByteOrder} {M : Mapping}

/-! ## Reading the file -/

/-- A field at `a` lies in the file. -/
def Mapping.InFile (M : Mapping) (a : BitVec 32) : Prop :=
  (a - M.load_address).toNat + 4 ≤ M.file.length

instance (a : BitVec 32) : Decidable (M.InFile a) := inferInstanceAs (Decidable (_ ≤ _))

theorem inFile_add {off : BitVec 32} :
    M.InFile (M.load_address + off) ↔ off.toNat + 4 ≤ M.file.length := by
  rw [Mapping.InFile, BitVec.add_comm, BitVec.add_sub_cancel]

/-- Page zero is not part of the file. -/
theorem Mapping.length_le (M : Mapping) : M.file.length ≤ 2 ^ 32 - 4096 := by
  have hfits := M.fits
  have hpage := M.page
  have hpos : M.load_address.toNat ≠ 0 := fun h ↦ M.nonnull (BitVec.eq_of_toNat_eq h)
  omega

/-- A field in the file is what the file says. -/
theorem field_eq (w : Walk) {a off : BitVec 32} (ha : a = M.load_address + off)
    (hoff : off.toNat + 4 ≤ M.file.length) :
    w.field M.mem o a = .ok (word o M.file off, w.note a) := by
  have hfits := M.fits
  have haddr : a.toNat = M.load_address.toNat + off.toNat := by
    rw [ha, BitVec.toNat_add]
    omega
  rw [Walk.field, AddressSpace.field, haddr, AddressSpace.bytes_of_holds M.holds hoff]
  rfl

theorem note_inFile {w : Walk} (h : ∀ x ∈ w.reads, M.InFile x) {a : BitVec 32} (ha : M.InFile a) :
    ∀ x ∈ (w.note a).reads, M.InFile x := by
  intro x hx
  rcases List.mem_append.mp hx with hx | hx
  · exact h x hx
  · obtain rfl := List.mem_singleton.mp hx
    exact ha

/-! ## Entries -/

theorem and_flag (x : BitVec 32) (i : ℕ) :
    x &&& BitVec.twoPow 32 i = 0 ∨ x &&& BitVec.twoPow 32 i = BitVec.twoPow 32 i := by
  rw [BitVec.and_twoPow]
  split_ifs
  · exact .inr rfl
  · exact .inl rfl

/-- The flags that the code collects are the segment's protection. -/
theorem init_prot_eq (off : BitVec 32) :
    init_prot (word o M.file (off + initprotOff)) = protection o M.file off := by
  simp only [protection, Writable, init_prot, BitVec.and_or_distrib_left]
  have hr := and_flag (word o M.file (off + initprotOff)) 0
  have hw := and_flag (word o M.file (off + initprotOff)) 1
  have hx := and_flag (word o M.file (off + initprotOff)) 2
  rw [show BitVec.twoPow 32 0 = VM_PROT_READ from rfl] at hr
  rw [show BitVec.twoPow 32 1 = VM_PROT_WRITE from rfl] at hw
  rw [show BitVec.twoPow 32 2 = VM_PROT_EXECUTE from rfl] at hx
  rcases hr with hr | hr <;> rcases hw with hw | hw <;> rcases hx with hx | hx <;>
    simp only [hr, hw, hx] <;> decide

theorem setWidth_sub {x y : BitVec 32} (h : x < y) :
    (y - x).setWidth 64 = y.setWidth 64 - x.setWidth 64 := by
  refine BitVec.eq_of_toNat_eq ?_
  rw [BitVec.lt_def] at h
  simp only [BitVec.toNat_setWidth, BitVec.toNat_sub]
  omega

/-! ## The loop -/

/-- `n` entries of the array `t` have been filled in, with `es`. -/
structure Filled (es : List Entry) (t : Vector Entry MAX_SEGMENTS) (n : ℕ) (writes : List ℕ) :
    Prop where
  entries : t.toList.take n = es
  length : es.length = n
  writes : writes = List.range n

theorem Filled.put {es : List Entry} {t : Vector Entry MAX_SEGMENTS} {n : ℕ} {writes : List ℕ}
    (h : Filled es t n writes) (e : Entry) (hn : n < MAX_SEGMENTS) :
    Filled (es ++ [e]) (t.set n e hn) (n + 1) (writes ++ [n]) where
  entries := by
    rw [Vector.toList_set, List.take_add_one, List.take_set_of_le le_rfl, h.entries]
    simp [hn]
  length := by rw [List.length_append, h.length, List.length_singleton]
  writes := by rw [h.writes, List.range_succ]

/-- `b` is the smallest `vmaddr` of the segments `segs`, if there are any. -/
structure Lowest (o : ByteOrder) (file : List Byte) (segs : List (BitVec 32)) (b : BitVec 32) :
    Prop where
  le : ∀ off ∈ segs, b ≤ word o file (off + vmaddrOff)
  attained : b = ULONG_MAX ∨ ∃ off ∈ segs, b = word o file (off + vmaddrOff)

theorem Lowest.lower {file : List Byte} {segs : List (BitVec 32)} {b : BitVec 32}
    (h : Lowest o file segs b) (off : BitVec 32) :
    Lowest o file (segs ++ [off])
      (if word o file (off + vmaddrOff) < b then word o file (off + vmaddrOff) else b) := by
  refine ⟨fun off' hoff' ↦ ?_, ?_⟩
  · have hle (hmem : off' ∈ segs) : b.toNat ≤ (word o file (off' + vmaddrOff)).toNat := h.le off' hmem
    simp only [BitVec.lt_def, BitVec.le_def]
    rcases List.mem_append.mp hoff' with hmem | hmem
    · have := hle hmem
      split_ifs <;> omega
    · obtain rfl := List.mem_singleton.mp hmem
      split_ifs <;> omega
  · split_ifs
    · exact .inr ⟨off, by simp, rfl⟩
    · refine h.attained.imp_right fun ⟨off', hmem, heq⟩ ↦ ?_
      exact ⟨off', List.mem_append_left _ hmem, heq⟩

theorem Lowest.exists_of_ne_nil {file : List Byte} {segs : List (BitVec 32)} {b : BitVec 32}
    (h : Lowest o file segs b) (hne : segs ≠ []) :
    ∃ off ∈ segs, b = word o file (off + vmaddrOff) := by
  rcases h.attained with rfl | h'
  · obtain ⟨off, hoff⟩ := List.exists_mem_of_ne_nil _ hne
    refine ⟨off, hoff, BitVec.eq_of_toNat_eq ?_⟩
    -- nothing is above `ULONG_MAX`
    have hle : ULONG_MAX.toNat ≤ _ := h.le off hoff
    have hlt := (word o file (off + vmaddrOff)).isLt
    rw [ULONG_MAX] at *
    simp only [BitVec.reduceToNat] at *
    omega
  · exact h'

/-- What the segments `segs` have left in the variables and the records. -/
structure Walked (o : ByteOrder) (M : Mapping) (segs : List (BitVec 32)) (w : Walk) : Prop where
  filled : Filled (segs.flatMap (entries o M.file)) w.mappingTable w.entryIndex w.writes
  base_address : Lowest o M.file segs w.base_address
  reads : ∀ a ∈ w.reads, M.InFile a

section
variable {segs : List (BitVec 32)} {w : Walk} {off : BitVec 32}

/-- The fields of a segment. -/
theorem field_segment (w : Walk) (hin : off.toNat + 48 ≤ M.file.length) {k : BitVec 32}
    (hk : k.toNat + 4 ≤ 48) :
    w.field M.mem o (M.load_address + off + k) =
        .ok (word o M.file (off + k), w.note (M.load_address + off + k)) ∧
      M.InFile (M.load_address + off + k) := by
  have hle := M.length_le
  have hadd : (off + k).toNat + 4 ≤ M.file.length := by
    rw [BitVec.toNat_add]
    omega
  rw [BitVec.add_assoc]
  exact ⟨field_eq w rfl hadd, inFile_add.mpr hadd⟩

/-- The code's entry for a zero-fill area. -/
theorem zeroEntry_eq (h : HasZeroFill o M.file off) :
    { address := (fileEntry o M.file off).address +
        (word o M.file (off + filesizeOff)).setWidth 64
      size := (word o M.file (off + vmsizeOff) - word o M.file (off + filesizeOff)).setWidth 64
      file_offset := 0
      max_prot := (fileEntry o M.file off).init_prot ||| (VM_PROT_COW ||| VM_PROT_ZF)
      init_prot := (fileEntry o M.file off).init_prot ||| (VM_PROT_COW ||| VM_PROT_ZF) } =
    zeroEntry o M.file off := by
  rw [setWidth_sub h.2, ← BitVec.or_assoc]
  rfl

theorem zeroFill_of_hasZeroFill (w : Walk) (hin : off.toNat + 48 ≤ M.file.length)
    (h : HasZeroFill o M.file off) :
    zeroFill M.mem o (M.load_address + off) (word o M.file (off + initprotOff))
        (word o M.file (off + filesizeOff)) (fileEntry o M.file off) w =
      (w.note (M.load_address + off + vmsizeOff)).bump.put (w.entryIndex + 1)
        (zeroEntry o M.file off) := by
  obtain ⟨hwritable, hlt⟩ := id h
  rw [zeroFill, if_pos (id hwritable : _ &&& VM_PROT_WRITE ≠ 0),
    (field_segment w hin (by decide)).1, ok_bind]
  simp only [if_pos hlt, zeroEntry_eq h]
  rfl

theorem zeroFill_of_not_hasZeroFill (w : Walk) (hin : off.toNat + 48 ≤ M.file.length)
    (h : ¬HasZeroFill o M.file off) :
    ∃ w', zeroFill M.mem o (M.load_address + off) (word o M.file (off + initprotOff))
        (word o M.file (off + filesizeOff)) (fileEntry o M.file off) w = .ok w' ∧
      (w' = w ∨ w' = w.note (M.load_address + off + vmsizeOff)) := by
  by_cases hwritable : Writable o M.file off
  · have hlt : ¬word o M.file (off + filesizeOff) < word o M.file (off + vmsizeOff) :=
      fun hlt ↦ h ⟨hwritable, hlt⟩
    refine ⟨_, ?_, .inr rfl⟩
    rw [zeroFill, if_pos (id hwritable : _ &&& VM_PROT_WRITE ≠ 0),
      (field_segment w hin (by decide)).1, ok_bind]
    simp only [if_neg hlt]
  · exact ⟨w, by rw [zeroFill, if_neg (id hwritable : ¬_ &&& VM_PROT_WRITE ≠ 0)], .inl rfl⟩

/-- **The zero-fill area** of a segment whose entry has just been filled in, if there is room. -/
theorem zeroFill_eq {es : List Entry} (hin : off.toNat + 48 ≤ M.file.length)
    (hfilled : Filled (es ++ [fileEntry o M.file off]) w.mappingTable (w.entryIndex + 1) w.writes)
    (hreads : ∀ a ∈ w.reads, M.InFile a)
    (hroom : w.entryIndex + (entries o M.file off).length ≤ MAX_SEGMENTS) :
    ∃ w', zeroFill M.mem o (M.load_address + off) (word o M.file (off + initprotOff))
        (word o M.file (off + filesizeOff)) (fileEntry o M.file off) w = .ok w' ∧
      w'.lc = w.lc ∧ w'.base_address = w.base_address ∧
      Filled (es ++ entries o M.file off) w'.mappingTable (w'.entryIndex + 1) w'.writes ∧
      ∀ a ∈ w'.reads, M.InFile a := by
  have hreads' := note_inFile hreads
    (field_segment (o := o) w hin (show vmsizeOff.toNat + 4 ≤ 48 by decide)).2
  by_cases h : HasZeroFill o M.file off
  · have hi : w.entryIndex + 1 < MAX_SEGMENTS := by
      simpa [entries, h, Nat.lt_iff_add_one_le, add_assoc] using hroom
    refine ⟨(w.note _).bump.fill (w.entryIndex + 1) (zeroEntry o M.file off) hi, ?_, rfl, rfl, ?_,
      hreads'⟩
    · rw [zeroFill_of_hasZeroFill w hin h, Walk.put, dif_pos hi]
    · simpa [entries, h] using hfilled.put (zeroEntry o M.file off) hi
  · have hfilled' : Filled (es ++ entries o M.file off) w.mappingTable (w.entryIndex + 1) w.writes := by
      simpa [entries, h] using hfilled
    obtain ⟨w', hrun, rfl | rfl⟩ := zeroFill_of_not_hasZeroFill w hin h
    · exact ⟨_, hrun, rfl, rfl, hfilled', hreads⟩
    · exact ⟨_, hrun, rfl, rfl, hfilled', hreads'⟩

/-- What has been read of the segment at `off` when its entry is filled in. -/
def seen (o : ByteOrder) (M : Mapping) (off : BitVec 32) (w : Walk) : Walk :=
  ((((w.note (M.load_address + off + vmaddrOff)).lower (word o M.file (off + vmaddrOff))).note
    (M.load_address + off + filesizeOff)).note (M.load_address + off + fileoffOff)).note
    (M.load_address + off + initprotOff)

theorem segment_of_inside (w : Walk) (hin : off.toNat + 48 ≤ M.file.length) :
    segment M.mem o (M.load_address + off) w = (do
      let w ← (seen o M off w).put w.entryIndex (fileEntry o M.file off)
      let w ← zeroFill M.mem o (M.load_address + off) (word o M.file (off + initprotOff))
        (word o M.file (off + filesizeOff)) (fileEntry o M.file off) w
      .ok w.bump) := by
  have hf (w : Walk) {k : BitVec 32} (hk : k.toNat + 4 ≤ 48) := (field_segment (o := o) w hin hk).1
  simp only [segment, hf _ (show vmaddrOff.toNat + 4 ≤ 48 by decide),
    hf _ (show filesizeOff.toNat + 4 ≤ 48 by decide),
    hf _ (show fileoffOff.toNat + 4 ≤ 48 by decide),
    hf _ (show initprotOff.toNat + 4 ≤ 48 by decide), ok_bind, init_prot_eq]
  rfl

/-- **A segment**, for which there is room in the table. -/
theorem segment_eq (hw : Walked o M segs w) (hin : off.toNat + 48 ≤ M.file.length)
    (hroom : w.entryIndex + (entries o M.file off).length ≤ MAX_SEGMENTS) :
    ∃ w', segment M.mem o (M.load_address + off) w = .ok w' ∧ w'.lc = w.lc ∧
      Walked o M (segs ++ [off]) w' := by
  have hfile {k : BitVec 32} (hk : k.toNat + 4 ≤ 48) := (field_segment (o := o) w hin hk).2
  have hi : w.entryIndex < MAX_SEGMENTS := by
    rw [entries, List.length_cons] at hroom
    omega
  have hreads : ∀ a ∈ (seen o M off w).reads, M.InFile a :=
    note_inFile (note_inFile (note_inFile (note_inFile hw.reads (hfile (by decide)))
      (hfile (by decide))) (hfile (by decide))) (hfile (by decide))
  obtain ⟨w', hz, hlc, hbase, hfilled, hreads'⟩ := zeroFill_eq (o := o)
    (w := (seen o M off w).fill w.entryIndex (fileEntry o M.file off) hi) hin
    (hw.filled.put (fileEntry o M.file off) hi) hreads hroom
  refine ⟨w'.bump, ?_, hlc, ?_, ?_, hreads'⟩
  · rw [segment_of_inside w hin, Walk.put, dif_pos hi, ok_bind, hz, ok_bind]
  · simpa using hfilled
  · rw [Walk.bump_base_address, hbase, Walk.fill_base_address]
    exact hw.base_address.lower off

theorem segments_succ (file : List Byte) (n : ℕ) (off : BitVec 32) :
    segments o file (n + 1) off =
      (if IsSegment o file off then [off] else []) ++
        segments o file n (off + word o file (off + cmdsizeOff)) := by
  rw [segments, commands, List.filter_cons]
  simp only [decide_eq_true_eq]
  split_ifs <;> rfl

theorem advance_eq (hw : Walked o M segs w) (hlc : w.lc = M.load_address + off)
    (hlen : off.toNat + 8 ≤ M.file.length) :
    ∃ w', advance M.mem o w = .ok w' ∧
      w'.lc = M.load_address + (off + word o M.file (off + cmdsizeOff)) ∧ Walked o M segs w' := by
  have hle := M.length_le
  have haddr : w.lc + cmdsizeOff = M.load_address + (off + cmdsizeOff) := by
    rw [hlc, BitVec.add_assoc]
  have hoff : (off + cmdsizeOff).toNat + 4 ≤ M.file.length := by
    have h4 : cmdsizeOff.toNat = 4 := rfl
    rw [BitVec.toNat_add, h4]
    omega
  refine ⟨{ w.note (w.lc + cmdsizeOff) with lc := w.lc + word o M.file (off + cmdsizeOff) }, ?_, ?_,
    hw.filled, hw.base_address, note_inFile hw.reads (haddr ▸ inFile_add.mpr hoff)⟩
  · rw [advance, field_eq w haddr hoff, ok_bind]
    rfl
  · exact hlc ▸ BitVec.add_assoc ..

/-- **One turn of the loop.** -/
theorem turn_eq (hw : Walked o M segs w) (hlc : w.lc = M.load_address + off)
    (hin : Inside o M.file off)
    (hroom : IsSegment o M.file off →
      w.entryIndex + (entries o M.file off).length ≤ MAX_SEGMENTS) :
    ∃ w', turn M.mem o w = .ok w' ∧
      w'.lc = M.load_address + (off + word o M.file (off + cmdsizeOff)) ∧
      Walked o M (segs ++ if IsSegment o M.file off then [off] else []) w' := by
  obtain ⟨hlen, hseg⟩ := hin
  have hcmd : (off + cmdOff).toNat + 4 ≤ M.file.length := by
    rw [show off + cmdOff = off from BitVec.add_zero off]
    omega
  have haddr : w.lc + cmdOff = M.load_address + (off + cmdOff) := by rw [hlc, BitVec.add_assoc]
  -- the command itself has been looked at
  have hw₁ : Walked o M segs (w.note (w.lc + cmdOff)) :=
    ⟨hw.filled, hw.base_address, note_inFile hw.reads (haddr ▸ inFile_add.mpr hcmd)⟩
  have hturn : turn M.mem o w = (do
      let w ← command M.mem o (word o M.file (off + cmdOff)) (w.note (w.lc + cmdOff))
      advance M.mem o w) := by
    rw [turn, field_eq w haddr hcmd]
    rfl
  rw [hturn, command]
  by_cases h : IsSegment o M.file off
  · obtain ⟨w₂, hrun, hlc₂, hw₂⟩ := segment_eq hw₁ (hseg h) (hroom h)
    obtain ⟨w₃, hadv, hlc₃, hw₃⟩ := advance_eq hw₂ (hlc₂.trans hlc) hlen
    refine ⟨w₃, ?_, hlc₃, by rwa [if_pos h]⟩
    rw [if_pos (id h : word o M.file (off + cmdOff) = LC_SEGMENT), Walk.note_lc, hlc]
    rw [hlc] at hrun
    rw [hrun, ok_bind, hadv]
  · obtain ⟨w₂, hadv, hlc₂, hw₂⟩ := advance_eq hw₁ hlc hlen
    refine ⟨w₂, ?_, hlc₂, by rwa [if_neg h, List.append_nil]⟩
    rw [if_neg (id h : ¬word o M.file (off + cmdOff) = LC_SEGMENT), ok_bind, hadv]

/-- **The loop**, from the command at `off` on. -/
theorem walk_eq (n : ℕ) (hw : Walked o M segs w) (hlc : w.lc = M.load_address + off)
    (hin : ∀ c ∈ commands o M.file n off, Inside o M.file c)
    (hroom : ((segs ++ segments o M.file n off).flatMap (entries o M.file)).length ≤ MAX_SEGMENTS) :
    ∃ w', walk M.mem o n w = .ok w' ∧ Walked o M (segs ++ segments o M.file n off) w' := by
  induction n generalizing segs w off with
  | zero => exact ⟨w, rfl, by simpa [segments, commands] using hw⟩
  | succ n ih =>
    rw [commands, List.forall_mem_cons] at hin
    rw [segments_succ, ← List.append_assoc] at hroom ⊢
    obtain ⟨w₁, hturn, hlc₁, hw₁⟩ := turn_eq hw hlc hin.1 fun h ↦ by
      rw [if_pos h, List.flatMap_append, List.flatMap_append, List.length_append,
        List.length_append, hw.filled.length, List.flatMap_singleton] at hroom
      omega
    obtain ⟨w', hrun, hw'⟩ := ih hw₁ hlc₁ hin.2 hroom
    exact ⟨w', by rw [walk, hturn, ok_bind, hrun], hw'⟩

end

/-! ## The program -/

/-- The header of the file makes `srmap` give up. -/
def Refused (o : ByteOrder) (file : List Byte) : Prop :=
  (word o file magicOff ≠ MH_MAGIC ∧ word o file filetypeOff ≠ MH_DYLIB) ∨
    word o file flagsOff &&& MH_SPLIT_SEGS = 0

instance (o : ByteOrder) (file : List Byte) : Decidable (Refused o file) :=
  inferInstanceAs (Decidable (_ ∨ _))

theorem field_header (w : Walk) (hlen : headerSize ≤ M.file.length) {k : BitVec 32}
    (hk : k.toNat + 4 ≤ headerSize) :
    w.field M.mem o (M.load_address + k) =
        .ok (word o M.file k, w.note (M.load_address + k)) ∧
      M.InFile (M.load_address + k) :=
  ⟨field_eq w rfl (hk.trans hlen), inFile_add.mpr (hk.trans hlen)⟩

theorem walked_start (t : Vector Entry MAX_SEGMENTS) :
    Walked o M [] (start M.load_address t) where
  filled := ⟨rfl, rfl, rfl⟩
  base_address := ⟨by simp, .inl rfl⟩
  reads a ha := absurd ha (by simp [start])

/-- **The header**, if the file has one. -/
theorem mapped_eq (hlen : headerSize ≤ M.file.length) (t : Vector Entry MAX_SEGMENTS) :
    ∃ w, w.lc = M.load_address + BitVec.ofNat 32 headerSize ∧ Walked o M [] w ∧
      mapped M.mem o M.load_address t =
        if Refused o M.file then .ok (.stop 1)
        else (do
          let w ← walk M.mem o (ncmds o M.file) w
          .ok (.call w.entryIndex (w.mappingTable.toList.take w.entryIndex) w)) := by
  have hf (w : Walk) {k : BitVec 32} (hk : k.toNat + 4 ≤ headerSize) :=
    (field_header (o := o) w hlen hk).1
  have hnote {w : Walk} (hw : Walked o M [] w) {k : BitVec 32} (hk : k.toNat + 4 ≤ headerSize) :
      Walked o M [] (w.note (M.load_address + k)) :=
    ⟨hw.filled, hw.base_address, note_inFile hw.reads (field_header (o := o) w hlen hk).2⟩
  -- what the first check has read
  obtain ⟨w₁, hlc₁, hw₁, hdylib⟩ : ∃ w₁, w₁.lc = M.load_address + BitVec.ofNat 32 headerSize ∧
      Walked o M [] w₁ ∧ notDylib M.mem o M.load_address (start M.load_address t) =
        .ok (decide (word o M.file magicOff ≠ MH_MAGIC ∧ word o M.file filetypeOff ≠ MH_DYLIB),
          w₁) := by
    have hw := hnote (walked_start (o := o) (M := M) t) (show magicOff.toNat + 4 ≤ headerSize by decide)
    rw [notDylib, hf _ (show magicOff.toNat + 4 ≤ headerSize by decide), ok_bind]
    by_cases hm : word o M.file magicOff = MH_MAGIC
    · exact ⟨_, rfl, hw, by simp [hm]⟩
    · refine ⟨_, rfl, hnote hw (show filetypeOff.toNat + 4 ≤ headerSize by decide), ?_⟩
      simp [hm, hf _ (show filetypeOff.toNat + 4 ≤ headerSize by decide)]
  refine ⟨(w₁.note (M.load_address + flagsOff)).note (M.load_address + ncmdsOff), hlc₁,
    hnote (hnote hw₁ (by decide)) (by decide), ?_⟩
  rw [mapped, hdylib, ok_bind]
  by_cases hd : word o M.file magicOff ≠ MH_MAGIC ∧ word o M.file filetypeOff ≠ MH_DYLIB
  · simp [Refused, hd]
  · simp [Refused, hd, notSplit, process, ncmds,
      hf _ (show flagsOff.toNat + 4 ≤ headerSize by decide),
      hf _ (show ncmdsOff.toNat + 4 ≤ headerSize by decide)]

/-! ## The result -/

/-- The entries `es` cover the addresses from `a` up to `b`, one behind the other. -/
def Tiles : ℕ → ℕ → List Entry → Prop
  | a, b, [] => a = b
  | a, b, e :: es => e.address.toNat = a ∧ Tiles (a + e.size.toNat) b es

/-- A writable segment whose memory is at least as large as its part of the file is covered from
one end to the other. -/
theorem entries_tile {file : List Byte} {off : BitVec 32} (hw : Writable o file off)
    (hle : word o file (off + filesizeOff) ≤ word o file (off + vmsizeOff)) :
    Tiles (word o file (off + vmaddrOff)).toNat
      ((word o file (off + vmaddrOff)).toNat + (word o file (off + vmsizeOff)).toNat)
      (entries o file off) := by
  rw [BitVec.le_def] at hle
  by_cases hlt : word o file (off + filesizeOff) < word o file (off + vmsizeOff)
  · rw [entries, if_pos ⟨hw, hlt⟩]
    simp only [Tiles, fileEntry, zeroEntry, ← setWidth_sub hlt, BitVec.toNat_add,
      BitVec.toNat_setWidth, BitVec.toNat_sub]
    omega
  · rw [entries, if_neg fun h ↦ hlt h.2]
    rw [BitVec.lt_def] at hlt
    simp only [Tiles, fileEntry, BitVec.toNat_setWidth]
    omega

/-- A library of one writable segment, whose last page is not in the file. -/
def demoLibrary : List Byte :=
  [0xfeedface, 18, 0, 6, 1, 56, 0x20, 1, 56, 0x5f5f4441, 0x54410000, 0, 0, 0x90001000, 0x2000, 0x1000,
    0x1000, 7, 3, 0, 0].flatMap fun x : ℕ ↦ ByteOrder.big.encode 4 x

/-- The library mapped at `0x5000`. -/
def demoMapping : Mapping where
  file := demoLibrary
  load_address := 0x5000
  mem := .ofList 0x5000 demoLibrary
  holds := AddressSpace.holds_ofList _ _
  fits := by decide +kernel
  page := by decide
  nonnull := by decide

end Srmap
end MacOSXInternal
