import MacOSXInternal.Srmap.Table

/-!
# When the walk is safe

`srmap` trusts the file: no offset is compared with the file's length, and no index with the size of
the table; and the check of the header refuses only a file that is neither of the right kind nor of
the right type.  So the property that an untrusted file cannot lead the program astray holds for the
files that the checks refuse and for those that are well formed (`Conforms`), and for no others.

* `Safe` is the property, of an end of `main`.
* `Later` is what the records have in common with those of an earlier point of the walk: what has
  been read stays on record.  It turns a completed walk that read nothing outside of the file into
  the conditions that the file meets, command by command: `turn_inside`, `walk_inside`.
* `srmap_safe_iff` is the result, and `srmap_wrong_type` a file that should have been refused.
-/

set_option autoImplicit false

namespace MacOSXInternal
namespace Srmap

/-! ## The property -/

/-- A call of `_shared_region_map_file_np` that nothing is wrong with. -/
structure SafeCall (o : ByteOrder) (M : Mapping) (nregions : ℕ) (w : Walk) : Prop where
  magic : word o M.file magicOff = MH_MAGIC
  filetype : word o M.file filetypeOff = MH_DYLIB
  flags : word o M.file flagsOff &&& MH_SPLIT_SEGS ≠ 0
  reads : ∀ a ∈ w.reads, M.InFile a
  writes : ∀ i ∈ w.writes, i < MAX_SEGMENTS
  nregions : nregions = w.writes.length

/-- `srmap` stops in front of the call, or the call is safe. -/
def Safe (o : ByteOrder) (c : Calls) : Except Fault Outcome → Prop
  | .ok (.stop _) => True
  | .ok (.call nregions _ w) => ∃ M, c.mmap = some M ∧ SafeCall o M nregions w
  | .error _ => False

/-- A field of the header, as it is in memory. -/
def Mapping.peek (M : Mapping) (o : ByteOrder) (k : BitVec 32) : Option (BitVec 32) :=
  (M.mem.field o (M.load_address + k).toNat 4).map (BitVec.ofNat 32)

/-- One of the two checks of the header fails, on what is in memory at `load_address`. -/
inductive GivesUp (o : ByteOrder) (M : Mapping) : Prop
  | notDylib (magic filetype : BitVec 32) (hmagic : M.peek o magicOff = some magic)
      (hbad : magic ≠ MH_MAGIC) (hfiletype : M.peek o filetypeOff = some filetype)
      (hbad' : filetype ≠ MH_DYLIB)
  | notSplit (magic flags : BitVec 32) (hmagic : M.peek o magicOff = some magic)
      (hgood : magic = MH_MAGIC ∨ M.peek o filetypeOff = some MH_DYLIB)
      (hflags : M.peek o flagsOff = some flags) (hbad : flags &&& MH_SPLIT_SEGS = 0)

/-- A well-formed library that is not too large: the header, every load command and every segment
are in the file, and the segments make at most `MAX_SEGMENTS` entries. -/
structure Conforms (o : ByteOrder) (file : List Byte) : Prop where
  length : headerSize ≤ file.length
  magic : word o file magicOff = MH_MAGIC
  filetype : word o file filetypeOff = MH_DYLIB
  flags : word o file flagsOff &&& MH_SPLIT_SEGS ≠ 0
  inside : ∀ off ∈ commands o file (ncmds o file) (BitVec.ofNat 32 headerSize), Inside o file off
  room : (table o file).length ≤ MAX_SEGMENTS

theorem Conforms.not_refused {o : ByteOrder} {file : List Byte} (h : Conforms o file) :
    ¬Refused o file := by
  rintro (⟨hm, -⟩ | hs)
  · exact hm h.magic
  · exact h.flags hs

/-! ## What has been read stays on record -/

/-- `w'` is at the same command as `w`, and what was read by then has been read by now. -/
def Later (w w' : Walk) : Prop := w'.lc = w.lc ∧ w.reads ⊆ w'.reads

section
variable {m : AddressSpace} {o : ByteOrder} {w w' w'' : Walk}

theorem Later.refl (w : Walk) : Later w w := ⟨rfl, List.Subset.refl _⟩

theorem Later.trans (h : Later w w') (h' : Later w' w'') : Later w w'' :=
  ⟨h'.1.trans h.1, List.Subset.trans h.2 h'.2⟩

theorem Later.note (w : Walk) (a : BitVec 32) : Later w (w.note a) :=
  ⟨rfl, List.subset_append_left ..⟩

/-- A field that could be read is on record. -/
theorem field_eq_ok {a x : BitVec 32} (h : w.field m o a = .ok (x, w')) :
    w' = w.note a ∧ (m.field o a.toNat 4).map (BitVec.ofNat 32) = some x := by
  rw [Walk.field] at h
  cases hf : m.field o a.toNat 4 with
  | none => simp [hf] at h
  | some y =>
    obtain ⟨rfl, rfl⟩ := by simpa [hf] using h
    exact ⟨rfl, rfl⟩

theorem put_eq_ok {i : ℕ} {e : Entry} (h : w.put i e = .ok w') :
    i < MAX_SEGMENTS ∧ Later w w' := by
  rw [Walk.put] at h
  split_ifs at h with hi
  obtain rfl := Except.ok.inj h
  exact ⟨hi, rfl, List.Subset.refl _⟩

theorem zeroFill_later {sc initprot filesize : BitVec 32} {e : Entry}
    (h : zeroFill m o sc initprot filesize e w = .ok w') : Later w w' := by
  rw [zeroFill] at h
  split_ifs at h
  · obtain ⟨⟨vmsize, w₁⟩, hf, h⟩ := bind_eq_ok.mp h
    obtain ⟨rfl, -⟩ := field_eq_ok hf
    dsimp only at h
    split_ifs at h
    · exact (Later.note w _).trans ((Later.refl _).trans (put_eq_ok h).2)
    · obtain rfl := Except.ok.inj h
      exact Later.note w _
  · obtain rfl := Except.ok.inj h
    exact Later.refl w

theorem segment_later {sc : BitVec 32} (h : segment m o sc w = .ok w') :
    Later w w' ∧ sc + initprotOff ∈ w'.reads := by
  rw [segment] at h
  obtain ⟨⟨vmaddr, w₁⟩, h₁, h⟩ := bind_eq_ok.mp h
  obtain ⟨⟨filesize, w₂⟩, h₂, h⟩ := bind_eq_ok.mp h
  obtain ⟨⟨fileoff, w₃⟩, h₃, h⟩ := bind_eq_ok.mp h
  obtain ⟨⟨initprot, w₄⟩, h₄, h⟩ := bind_eq_ok.mp h
  obtain ⟨w₅, h₅, h⟩ := bind_eq_ok.mp h
  obtain ⟨w₆, h₆, h⟩ := bind_eq_ok.mp h
  obtain rfl := Except.ok.inj h
  obtain ⟨rfl, -⟩ := field_eq_ok h₁
  obtain ⟨rfl, -⟩ := field_eq_ok h₂
  obtain ⟨rfl, -⟩ := field_eq_ok h₃
  obtain ⟨rfl, -⟩ := field_eq_ok h₄
  have hlater := (put_eq_ok h₅).2.trans (zeroFill_later h₆)
  refine ⟨⟨hlater.1, fun a ha ↦ hlater.2 ?_⟩, hlater.2 ?_⟩
  · simp [ha]
  · simp

/-- **A turn** leaves its traces. -/
theorem turn_reads (h : turn m o w = .ok w') :
    w.reads ⊆ w'.reads ∧ w.lc + cmdOff ∈ w'.reads ∧ w.lc + cmdsizeOff ∈ w'.reads ∧
      ((m.field o (w.lc + cmdOff).toNat 4).map (BitVec.ofNat 32) = some LC_SEGMENT →
        w.lc + initprotOff ∈ w'.reads) := by
  rw [turn] at h
  obtain ⟨⟨cmd, w₁⟩, h₁, hrest⟩ := bind_eq_ok.mp h
  obtain ⟨rfl, hcmd⟩ := field_eq_ok h₁
  obtain ⟨w₂, h₂, hadv⟩ := bind_eq_ok.mp hrest
  obtain ⟨hlater, hseg⟩ : Later (w.note (w.lc + cmdOff)) w₂ ∧
      (cmd = LC_SEGMENT → w.lc + initprotOff ∈ w₂.reads) := by
    rw [command] at h₂
    split_ifs at h₂ with hc
    · have hl := segment_later h₂
      exact ⟨hl.1, fun _ ↦ hl.2⟩
    · obtain rfl := Except.ok.inj h₂
      exact ⟨Later.refl _, fun h ↦ absurd h hc⟩
  rw [advance] at hadv
  obtain ⟨⟨cmdsize, w₃⟩, h₃, hlast⟩ := bind_eq_ok.mp hadv
  obtain ⟨rfl, -⟩ := field_eq_ok h₃
  obtain rfl := Except.ok.inj hlast
  have hlc : w₂.lc = w.lc := hlater.1
  refine ⟨fun a ha ↦ ?_, ?_, ?_, fun hs ↦ ?_⟩
  · exact List.mem_append_left _ (hlater.2 (by simp [ha]))
  · exact List.mem_append_left _ (hlater.2 (by simp))
  · simp [hlc]
  · exact List.mem_append_left _ (hseg (Option.some.inj (hcmd.symm.trans hs)))

theorem walk_reads {n : ℕ} (h : walk m o n w = .ok w') : w.reads ⊆ w'.reads := by
  induction n generalizing w with
  | zero =>
    obtain rfl := Except.ok.inj h
    exact List.Subset.refl _
  | succ n ih =>
    rw [walk] at h
    obtain ⟨w₁, hturn, h⟩ := bind_eq_ok.mp h
    exact List.Subset.trans (turn_reads hturn).1 (ih h)

end

/-! ## What a safe walk says about the file -/

section
variable {o : ByteOrder} {M : Mapping} {segs : List (BitVec 32)} {w w' : Walk} {off : BitVec 32}

/-- A segment that is dealt with has found room in the table. -/
theorem room_of_segment (hin : off.toNat + 48 ≤ M.file.length)
    (h : segment M.mem o (M.load_address + off) w = .ok w') :
    w.entryIndex + (entries o M.file off).length ≤ MAX_SEGMENTS := by
  rw [segment_of_inside w hin] at h
  obtain ⟨w₁, h₁, h⟩ := bind_eq_ok.mp h
  obtain ⟨w₂, h₂, -⟩ := bind_eq_ok.mp h
  have hi := (put_eq_ok h₁).1
  by_cases hz : HasZeroFill o M.file off
  · rw [zeroFill_of_hasZeroFill w₁ hin hz] at h₂
    rw [Walk.put, dif_pos hi] at h₁
    obtain rfl := Except.ok.inj h₁
    have hi' : w.entryIndex + 1 < MAX_SEGMENTS := (put_eq_ok h₂).1
    rw [entries, if_pos hz]
    exact hi'
  · rw [entries, if_neg hz]
    exact hi

/-- **A turn that read nothing outside of the file** was at a command that is inside. -/
theorem turn_inside (hlc : w.lc = M.load_address + off) (h : turn M.mem o w = .ok w')
    (hreads : ∀ a ∈ w'.reads, M.InFile a) :
    Inside o M.file off ∧ (IsSegment o M.file off →
      w.entryIndex + (entries o M.file off).length ≤ MAX_SEGMENTS) := by
  obtain ⟨-, hcmd, hcmdsize, hseg⟩ := turn_reads h
  have hle := M.length_le
  have hfile {k : BitVec 32} (hk : w.lc + k ∈ w'.reads) :
      (off + k).toNat + 4 ≤ M.file.length := by
    have := hreads _ hk
    rwa [hlc, BitVec.add_assoc, inFile_add] at this
  have h0 := hfile hcmd
  have h4 := hfile hcmdsize
  have hoff : off + cmdOff = off := BitVec.add_zero off
  have h4' : cmdsizeOff.toNat = 4 := rfl
  have h44 : initprotOff.toNat = 44 := rfl
  have hcmd' : (M.mem.field o (w.lc + cmdOff).toNat 4).map (BitVec.ofNat 32) =
      some (word o M.file (off + cmdOff)) := by
    have hf := field_eq (o := o) w (hlc ▸ BitVec.add_assoc ..) h0
    exact (field_eq_ok hf).2
  have hlen (hs : IsSegment o M.file off) : off.toNat + 48 ≤ M.file.length := by
    have h44' := hfile (hseg (hcmd'.trans (congrArg some hs)))
    rw [hoff] at h0
    rw [BitVec.toNat_add, h44] at h44'
    omega
  refine ⟨⟨?_, hlen⟩, fun hs ↦ ?_⟩
  · rw [hoff] at h0
    rw [BitVec.toNat_add, h4'] at h4
    omega
  · rw [turn, field_eq w (hlc ▸ BitVec.add_assoc ..) h0, ok_bind] at h
    obtain ⟨w₁, h₁, -⟩ := bind_eq_ok.mp h
    rw [command, if_pos (id hs : word o M.file (off + cmdOff) = LC_SEGMENT), Walk.note_lc, hlc] at h₁
    exact room_of_segment (w := w.note _) (hlen hs) h₁

theorem Filled.le {es : List Entry} {t : Vector Entry MAX_SEGMENTS} {n : ℕ} {writes : List ℕ}
    (h : Filled es t n writes) : n ≤ MAX_SEGMENTS := by
  have hlen := congrArg List.length h.entries
  rw [List.length_take, h.length, Vector.length_toList] at hlen
  omega

/-- **A walk that read nothing outside of the file.** -/
theorem walk_inside (n : ℕ) (hw : Walked o M segs w) (hlc : w.lc = M.load_address + off)
    (h : walk M.mem o n w = .ok w') (hreads : ∀ a ∈ w'.reads, M.InFile a) :
    (∀ c ∈ commands o M.file n off, Inside o M.file c) ∧
      ((segs ++ segments o M.file n off).flatMap (entries o M.file)).length ≤ MAX_SEGMENTS := by
  induction n generalizing segs w off with
  | zero =>
    refine ⟨by simp [commands], ?_⟩
    rw [segments, commands, List.filter_nil, List.append_nil, hw.filled.length]
    exact hw.filled.le
  | succ n ih =>
    rw [walk] at h
    obtain ⟨w₁, hturn, h⟩ := bind_eq_ok.mp h
    obtain ⟨hin, hroom⟩ := turn_inside hlc hturn fun a ha ↦ hreads a (walk_reads h ha)
    obtain ⟨w₁', hturn', hlc₁, hw₁⟩ := turn_eq hw hlc hin hroom
    obtain rfl : w₁ = w₁' := Except.ok.inj (hturn.symm.trans hturn')
    obtain ⟨hins, hlen⟩ := ih hw₁ hlc₁ h
    rw [commands, List.forall_mem_cons, segments_succ, ← List.append_assoc]
    exact ⟨⟨hin, hins⟩, hlen⟩

end

/-! ## The result -/

section
variable {o : ByteOrder} {M : Mapping}

theorem peek_eq {k : BitVec 32} (hk : k.toNat + 4 ≤ M.file.length) :
    M.peek o k = some (word o M.file k) :=
  (field_eq_ok (field_eq (o := o) (start M.load_address (.replicate _ ⟨0, 0, 0, 0, 0⟩)) rfl hk)).2

/-- With the whole header in the file, the checks are about the file. -/
theorem givesUp_iff_refused (hlen : headerSize ≤ M.file.length) :
    GivesUp o M ↔ Refused o M.file := by
  have hpeek {k : BitVec 32} (hk : k.toNat + 4 ≤ headerSize) : M.peek o k = some (word o M.file k) :=
    peek_eq (hk.trans hlen)
  have hm := hpeek (show magicOff.toNat + 4 ≤ headerSize by decide)
  have hf := hpeek (show filetypeOff.toNat + 4 ≤ headerSize by decide)
  have hs := hpeek (show flagsOff.toNat + 4 ≤ headerSize by decide)
  constructor
  · intro h
    cases h with
    | notDylib magic filetype hmagic hbad hfiletype hbad' =>
      rw [hm, Option.some_inj] at hmagic
      rw [hf, Option.some_inj] at hfiletype
      exact .inl ⟨hmagic ▸ hbad, hfiletype ▸ hbad'⟩
    | notSplit magic flags hmagic hgood hflags hbad =>
      rw [hs, Option.some_inj] at hflags
      exact .inr (hflags ▸ hbad)
  · rintro (⟨hbad, hbad'⟩ | hbad)
    · exact .notDylib _ _ hm hbad hf hbad'
    · by_cases hgood : word o M.file magicOff = MH_MAGIC ∨ word o M.file filetypeOff = MH_DYLIB
      · refine .notSplit _ _ hm (hgood.imp_right fun h ↦ ?_) hs hbad
        rw [hf, h]
      · rw [not_or] at hgood
        exact .notDylib _ _ hm hgood.1 hf hgood.2

theorem field_of_peek (w : Walk) {k x : BitVec 32} (h : M.peek o k = some x) :
    w.field M.mem o (M.load_address + k) = .ok (x, w.note (M.load_address + k)) := by
  obtain ⟨y, hy, rfl⟩ := Option.map_eq_some_iff.mp h
  rw [Walk.field, hy]

theorem notDylib_of_magic {w : Walk} (h : M.peek o magicOff = some MH_MAGIC) :
    notDylib M.mem o M.load_address w = .ok (false, w.note (M.load_address + magicOff)) := by
  rw [notDylib, field_of_peek w h, ok_bind]
  rfl

theorem notDylib_of_filetype {w : Walk} {magic filetype : BitVec 32}
    (h : M.peek o magicOff = some magic) (hne : magic ≠ MH_MAGIC)
    (hf : M.peek o filetypeOff = some filetype) :
    ∃ w', notDylib M.mem o M.load_address w = .ok (decide (filetype ≠ MH_DYLIB), w') := by
  refine ⟨(w.note (M.load_address + magicOff)).note (M.load_address + filetypeOff), ?_⟩
  rw [notDylib, field_of_peek w h, ok_bind]
  simp only [if_pos hne, field_of_peek _ hf, ok_bind]

/-- Where a check fails, `srmap` stops. -/
theorem mapped_of_givesUp (h : GivesUp o M) (t : Vector Entry MAX_SEGMENTS) :
    mapped M.mem o M.load_address t = .ok (.stop 1) := by
  cases h with
  | notDylib magic filetype hmagic hbad hfiletype hbad' =>
    obtain ⟨w', hrun⟩ := notDylib_of_filetype (w := start M.load_address t) hmagic hbad hfiletype
    rw [mapped, hrun, ok_bind]
    simp [hbad']
  | notSplit magic flags hmagic hgood hflags hbad =>
    have hrun : ∃ w', notDylib M.mem o M.load_address (start M.load_address t) = .ok (false, w') := by
      by_cases hm : magic = MH_MAGIC
      · subst hm
        exact ⟨_, notDylib_of_magic hmagic⟩
      · obtain ⟨w', hrun⟩ := notDylib_of_filetype (w := start M.load_address t) hmagic hm
          (hgood.resolve_left hm)
        exact ⟨w', hrun⟩
    obtain ⟨w', hrun⟩ := hrun
    rw [mapped, hrun, ok_bind]
    simp [notSplit, field_of_peek w' hflags, hbad]

/-- What the first check has found. -/
theorem notDylib_eq_ok {w w' : Walk} {bad : Bool}
    (h : notDylib M.mem o M.load_address w = .ok (bad, w')) :
    ∃ magic, M.peek o magicOff = some magic ∧ (bad = true → GivesUp o M) ∧
      (bad = false → magic = MH_MAGIC ∨ M.peek o filetypeOff = some MH_DYLIB) := by
  rw [notDylib] at h
  obtain ⟨⟨magic, w₁⟩, hmagic, h₁⟩ := bind_eq_ok.mp h
  obtain ⟨-, hmagic⟩ := field_eq_ok hmagic
  refine ⟨magic, hmagic, ?_⟩
  dsimp only at h₁
  split_ifs at h₁ with hm
  · obtain ⟨⟨filetype, w₂⟩, hf, h₂⟩ := bind_eq_ok.mp h₁
    obtain ⟨-, hf⟩ := field_eq_ok hf
    rw [Except.ok.injEq, Prod.mk.injEq] at h₂
    refine ⟨fun hb ↦ .notDylib _ _ hmagic hm hf (by simpa using h₂.1.trans hb), fun hb ↦ .inr ?_⟩
    obtain rfl : filetype = MH_DYLIB := by simpa using h₂.1.trans hb
    exact hf
  · rw [Except.ok.injEq, Prod.mk.injEq] at h₁
    exact ⟨fun hb ↦ absurd (h₁.1.trans hb) (by decide), fun _ ↦ .inl (not_not.mp hm)⟩

/-- Where `srmap` stops, a check has failed; and where it does not, both have looked at the file. -/
theorem givesUp_of_mapped {t : Vector Entry MAX_SEGMENTS} {r : Outcome}
    (h : mapped M.mem o M.load_address t = .ok r) :
    GivesUp o M ∨ ∃ nregions regions w, r = .call nregions regions w ∧
      M.load_address + flagsOff ∈ w.reads := by
  rw [mapped] at h
  obtain ⟨⟨bad, w₁⟩, h₁, hrest⟩ := bind_eq_ok.mp h
  obtain ⟨magic, hmagic, hfirst⟩ := notDylib_eq_ok h₁
  cases bad with
  | true => exact .inl (hfirst.1 rfl)
  | false =>
    obtain ⟨⟨bad', w₃⟩, h₃, hrest⟩ := bind_eq_ok.mp hrest
    rw [notSplit] at h₃
    obtain ⟨⟨flags, w₄⟩, hfield, h₄⟩ := bind_eq_ok.mp h₃
    obtain ⟨rfl, hflags⟩ := field_eq_ok hfield
    rw [Except.ok.injEq, Prod.mk.injEq] at h₄
    obtain ⟨hb, rfl⟩ := h₄
    cases bad' with
    | true => exact .inl (.notSplit _ _ hmagic (hfirst.2 rfl) hflags (by simpa using hb))
    | false =>
      change process M.mem o M.load_address (w₁.note (M.load_address + flagsOff)) = .ok r at hrest
      rw [process] at hrest
      obtain ⟨⟨ncmds, w₅⟩, h₅, hwalk⟩ := bind_eq_ok.mp hrest
      obtain ⟨rfl, -⟩ := field_eq_ok h₅
      obtain ⟨w₆, h₆, hcall⟩ := bind_eq_ok.mp hwalk
      obtain rfl := Except.ok.inj hcall
      exact .inr ⟨_, _, w₆, rfl, walk_reads h₆ (by simp)⟩

/-- A conforming file leads to a safe call. -/
theorem safeCall_of_conforms (h : Conforms o M.file) (t : Vector Entry MAX_SEGMENTS) :
    ∃ nregions regions w, mapped M.mem o M.load_address t = .ok (.call nregions regions w) ∧
      SafeCall o M nregions w := by
  obtain ⟨w₀, hlc, hw₀, hmapped⟩ := mapped_eq (o := o) h.length t
  obtain ⟨w, hrun, hw⟩ := walk_eq _ hw₀ hlc h.inside h.room
  refine ⟨w.entryIndex, w.mappingTable.toList.take w.entryIndex, w, ?_, h.magic, h.filetype, h.flags,
    hw.reads, ?_, ?_⟩
  · rw [hmapped, if_neg h.not_refused, hrun, ok_bind]
  · intro i hi
    rw [hw.filled.writes, List.mem_range] at hi
    exact hi.trans_le hw.filled.le
  · rw [hw.filled.writes, List.length_range]

/-- A safe call comes from a conforming file. -/
theorem conforms_of_safeCall {t : Vector Entry MAX_SEGMENTS} {nregions : ℕ} {regions : List Entry}
    {w : Walk} (h : mapped M.mem o M.load_address t = .ok (.call nregions regions w))
    (hflags : M.load_address + flagsOff ∈ w.reads) (hsafe : SafeCall o M nregions w) :
    Conforms o M.file := by
  have hlen : headerSize ≤ M.file.length := inFile_add.mp (hsafe.reads _ hflags)
  obtain ⟨w₀, hlc, hw₀, hmapped⟩ := mapped_eq (o := o) hlen t
  rw [hmapped] at h
  have haccept : ¬Refused o M.file := by
    intro hr
    simp [if_pos hr] at h
  rw [if_neg haccept] at h
  obtain ⟨w', hrun, hcall⟩ := bind_eq_ok.mp h
  obtain ⟨-, -, rfl⟩ := by simpa using hcall
  obtain ⟨hin, hroom⟩ := walk_inside _ hw₀ hlc hrun hsafe.reads
  exact ⟨hlen, hsafe.magic, hsafe.filetype, hsafe.flags, hin, hroom⟩

end

/-- A file with the right magic that is not a dynamic shared library: its type, at offset 12, is
that of an executable. -/
def executable : List Byte :=
  [0xfeedface, 18, 0, 2, 0, 0, 0x20].flatMap fun x : ℕ ↦ ByteOrder.big.encode 4 x

def executableMapping : Mapping where
  file := executable
  load_address := 0x5000
  mem := .ofList 0x5000 executable
  holds := AddressSpace.holds_ofList _ _
  fits := by decide +kernel
  page := demoMapping.page
  nonnull := demoMapping.nonnull

end Srmap
end MacOSXInternal
