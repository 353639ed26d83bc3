import MacOSXInternal.Lib.AddressSpace

/-!
# `srmap.c`: the mapping table of a dynamic shared library

`srmap` maps a Mach-O file into its memory, looks at the header, walks over the load commands, and
makes one or two entries of a table for every segment; the table then goes to the kernel.  The
program has 32-bit addresses, and the table is an array of fixed size.

* `Mapping` is what `mmap` has made of the file: its bytes are at `load_address`, and behind them
  the memory holds whatever it does.
* `turn` is one turn of the loop over the load commands and `walk` the loop; `main` is the program
  up to the call of `_shared_region_map_file_np`.
* `Fault` is undefined behaviour: a read where nothing is mapped, or a store behind the table.

Every field of the file that is read is recorded in `reads`, once where the source reads it several
times, and every entry that is filled in in `writes`.
-/

set_option autoImplicit false

namespace MacOSXInternal
namespace Srmap

/-! ## Constants -/

def MH_MAGIC : BitVec 32 := 0xfeedface
def MH_DYLIB : BitVec 32 := 0x6
def MH_SPLIT_SEGS : BitVec 32 := 0x20

def LC_SEGMENT : BitVec 32 := 0x1

def VM_PROT_NONE : BitVec 32 := 0x0
def VM_PROT_READ : BitVec 32 := 0x1
def VM_PROT_WRITE : BitVec 32 := 0x2
def VM_PROT_EXECUTE : BitVec 32 := 0x4
def VM_PROT_COW : BitVec 32 := 0x8
def VM_PROT_ZF : BitVec 32 := 0x10

def MAX_SEGMENTS : ℕ := 64

def ULONG_MAX : BitVec 32 := 0xffffffff

/-- `sizeof(struct mach_header)`. -/
def headerSize : ℕ := 28

/-! The offsets of the fields of `struct mach_header`, `struct load_command` and
`struct segment_command`. -/

def magicOff : BitVec 32 := 0
def filetypeOff : BitVec 32 := 12
def ncmdsOff : BitVec 32 := 16
def flagsOff : BitVec 32 := 24

def cmdOff : BitVec 32 := 0
def cmdsizeOff : BitVec 32 := 4
def vmaddrOff : BitVec 32 := 24
def vmsizeOff : BitVec 32 := 28
def fileoffOff : BitVec 32 := 32
def filesizeOff : BitVec 32 := 36
def initprotOff : BitVec 32 := 44

/-! ## State -/

/-- `sr_mapping_t`. -/
structure Entry where
  address : BitVec 64
  size : BitVec 64
  file_offset : BitVec 64
  max_prot : BitVec 32
  init_prot : BitVec 32
  deriving DecidableEq, Repr

/-- Undefined behaviour. -/
inductive Fault
  /-- A read where nothing is mapped. -/
  | unmapped
  /-- A store behind the end of `mappingTable`. -/
  | overflow
  deriving DecidableEq, Repr

/-- The variables of `main` that the loop changes, and the records. -/
structure Walk where
  lc : BitVec 32
  entryIndex : ℕ
  mappingTable : Vector Entry MAX_SEGMENTS
  base_address : BitVec 32
  reads : List (BitVec 32)
  writes : List ℕ
  deriving DecidableEq, Repr

/-- How `main` ends. -/
inductive Outcome
  /-- An exit before the call. -/
  | stop (status : ℕ)
  /-- `_shared_region_map_file_np(fd, nregions, regions, ...)`. -/
  | call (nregions : ℕ) (regions : List Entry) (w : Walk)
  deriving DecidableEq, Repr

/-- A file that has been mapped, from the beginning of a page on. -/
structure Mapping where
  file : List Byte
  load_address : BitVec 32
  mem : AddressSpace
  holds : mem.Holds load_address.toNat file
  fits : load_address.toNat + file.length ≤ 2 ^ 32
  page : load_address.toNat % 4096 = 0
  nonnull : load_address ≠ 0

/-! ## Access -/

@[simp] theorem ok_bind {α β : Type} (x : α) (f : α → Except Fault β) : (.ok x >>= f) = f x := rfl

@[simp] theorem error_bind {α β : Type} (e : Fault) (f : α → Except Fault β) :
    (.error e >>= f) = .error e := rfl

theorem bind_eq_ok {α β : Type} {x : Except Fault α} {f : α → Except Fault β} {b : β} :
    (x >>= f) = .ok b ↔ ∃ a, x = .ok a ∧ f a = .ok b := by
  cases x <;> simp

namespace Walk

variable (m : AddressSpace) (o : ByteOrder) (w : Walk)

/-- A field has been read. -/
def note (a : BitVec 32) : Walk := { w with reads := w.reads ++ [a] }

/-- `base_address` is the smallest `vmaddr` so far. -/
def lower (vmaddr : BitVec 32) : Walk :=
  { w with base_address := if vmaddr < w.base_address then vmaddr else w.base_address }

/-- On to the next entry. -/
def bump : Walk := { w with entryIndex := w.entryIndex + 1 }

/-- An entry of the table has been filled in. -/
def fill (i : ℕ) (e : Entry) (h : i < MAX_SEGMENTS) : Walk :=
  { w with
    mappingTable := w.mappingTable.set i e
    writes := w.writes ++ [i] }

/-- Reads the field at `a`. -/
def field (a : BitVec 32) : Except Fault (BitVec 32 × Walk) :=
  match m.field o a.toNat 4 with
  | some x => .ok (BitVec.ofNat 32 x, w.note a)
  | none => .error .unmapped

/-- Fills in an entry of the table. -/
def put (i : ℕ) (e : Entry) : Except Fault Walk :=
  if h : i < MAX_SEGMENTS then .ok (w.fill i e h) else .error .overflow

section
variable (a : BitVec 32) (i : ℕ) (e : Entry) (h : i < MAX_SEGMENTS)

@[simp] theorem note_lc : (w.note a).lc = w.lc := rfl
@[simp] theorem note_entryIndex : (w.note a).entryIndex = w.entryIndex := rfl
@[simp] theorem note_mappingTable : (w.note a).mappingTable = w.mappingTable := rfl
@[simp] theorem note_base_address : (w.note a).base_address = w.base_address := rfl
@[simp] theorem note_reads : (w.note a).reads = w.reads ++ [a] := rfl
@[simp] theorem note_writes : (w.note a).writes = w.writes := rfl

@[simp] theorem lower_lc : (w.lower a).lc = w.lc := rfl
@[simp] theorem lower_entryIndex : (w.lower a).entryIndex = w.entryIndex := rfl
@[simp] theorem lower_mappingTable : (w.lower a).mappingTable = w.mappingTable := rfl
@[simp] theorem lower_reads : (w.lower a).reads = w.reads := rfl
@[simp] theorem lower_writes : (w.lower a).writes = w.writes := rfl

@[simp] theorem bump_lc : w.bump.lc = w.lc := rfl
@[simp] theorem bump_entryIndex : w.bump.entryIndex = w.entryIndex + 1 := rfl
@[simp] theorem bump_mappingTable : w.bump.mappingTable = w.mappingTable := rfl
@[simp] theorem bump_base_address : w.bump.base_address = w.base_address := rfl
@[simp] theorem bump_reads : w.bump.reads = w.reads := rfl
@[simp] theorem bump_writes : w.bump.writes = w.writes := rfl

@[simp] theorem fill_lc : (w.fill i e h).lc = w.lc := rfl
@[simp] theorem fill_entryIndex : (w.fill i e h).entryIndex = w.entryIndex := rfl
@[simp] theorem fill_mappingTable :
    (w.fill i e h).mappingTable = w.mappingTable.set i e h := rfl
@[simp] theorem fill_base_address : (w.fill i e h).base_address = w.base_address := rfl
@[simp] theorem fill_reads : (w.fill i e h).reads = w.reads := rfl
@[simp] theorem fill_writes : (w.fill i e h).writes = w.writes ++ [i] := rfl

end

end Walk

/-! ## The program -/

section
variable (m : AddressSpace) (o : ByteOrder)

/-- The protection of an entry, from the `initprot` of a segment. -/
def init_prot (initprot : BitVec 32) : BitVec 32 :=
  let p := VM_PROT_NONE
  let p := if initprot &&& VM_PROT_EXECUTE ≠ 0 then p ||| VM_PROT_EXECUTE else p
  let p := if initprot &&& VM_PROT_READ ≠ 0 then p ||| VM_PROT_READ else p
  if initprot &&& VM_PROT_WRITE ≠ 0 then p ||| (VM_PROT_WRITE ||| VM_PROT_COW) else p

/-- The mapping of the zero-fill area of the segment at `sc`, whose `entry` has been made. -/
def zeroFill (sc initprot filesize : BitVec 32) (entry : Entry) (w : Walk) : Except Fault Walk :=
  if initprot &&& VM_PROT_WRITE ≠ 0 then do
    let (vmsize, w) ← w.field m o (sc + vmsizeOff)
    if filesize < vmsize then
      let w := w.bump
      let prot := entry.init_prot ||| (VM_PROT_COW ||| VM_PROT_ZF)
      w.put w.entryIndex
        { address := entry.address + filesize.setWidth 64
          size := (vmsize - filesize).setWidth 64
          file_offset := 0
          max_prot := prot
          init_prot := prot }
    else .ok w
  else .ok w

/-- What the loop does with the `LC_SEGMENT` command at `sc`. -/
def segment (sc : BitVec 32) (w : Walk) : Except Fault Walk := do
  -- remember the starting address of the first segment (seg1addr)
  let (vmaddr, w) ← w.field m o (sc + vmaddrOff)
  let w := w.lower vmaddr
  let (filesize, w) ← w.field m o (sc + filesizeOff)
  let (fileoff, w) ← w.field m o (sc + fileoffOff)
  let (initprot, w) ← w.field m o (sc + initprotOff)
  let entry : Entry :=
    { address := vmaddr.setWidth 64
      size := filesize.setWidth 64
      file_offset := fileoff.setWidth 64
      max_prot := init_prot initprot
      init_prot := init_prot initprot }
  let w ← w.put w.entryIndex entry
  -- check if the segment has a zero-fill area: if so, need a mapping
  let w ← zeroFill m o sc initprot filesize entry w
  .ok w.bump

/-- Onto the next load command. -/
def advance (w : Walk) : Except Fault Walk := do
  let (cmdsize, w) ← w.field m o (w.lc + cmdsizeOff)
  .ok { w with lc := w.lc + cmdsize }

/-- What the loop does with a command. -/
def command (cmd : BitVec 32) (w : Walk) : Except Fault Walk :=
  if cmd = LC_SEGMENT then segment m o w.lc w else .ok w

/-- One turn of the loop over the load commands. -/
def turn (w : Walk) : Except Fault Walk := do
  let (cmd, w) ← w.field m o (w.lc + cmdOff)
  let w ← command m o cmd w
  advance m o w

/-- The loop. -/
def walk : ℕ → Walk → Except Fault Walk
  | 0, w => .ok w
  | ncmds + 1, w => do
    let w ← turn m o w
    walk ncmds w

/-- The first check of the header at `mh`: is the file not a Mach-O dynamic shared library? -/
def notDylib (mh : BitVec 32) (w : Walk) : Except Fault (Bool × Walk) := do
  let (magic, w) ← w.field m o (mh + magicOff)
  if magic ≠ MH_MAGIC then do
    let (filetype, w) ← w.field m o (mh + filetypeOff)
    .ok (decide (filetype ≠ MH_DYLIB), w)
  else .ok (false, w)

/-- The second: does it not use split segments? -/
def notSplit (mh : BitVec 32) (w : Walk) : Except Fault (Bool × Walk) := do
  let (flags, w) ← w.field m o (mh + flagsOff)
  .ok (decide (flags &&& MH_SPLIT_SEGS = 0), w)

/-- Process all LC_SEGMENT commands and construct a mapping table. -/
def process (mh : BitVec 32) (w : Walk) : Except Fault Outcome := do
  let (ncmds, w) ← w.field m o (mh + ncmdsOff)
  let w ← walk m o ncmds.toNat w
  .ok (.call w.entryIndex (w.mappingTable.toList.take w.entryIndex) w)

/-- The variables in front of the checks.  `table` is what the uninitialised `mappingTable`
contains. -/
def start (mh : BitVec 32) (table : Vector Entry MAX_SEGMENTS) : Walk :=
  ⟨mh + BitVec.ofNat 32 headerSize, 0, table, ULONG_MAX, [], []⟩

/-- `main` from the checks of the header on. -/
def mapped (mh : BitVec 32) (table : Vector Entry MAX_SEGMENTS) : Except Fault Outcome := do
  let (bad, w) ← notDylib m o mh (start mh table)
  if bad then .ok (.stop 1)
  else do
    let (bad, w) ← notSplit m o mh w
    if bad then .ok (.stop 1) else process m o mh w

end

/-- What the system answers. -/
structure Calls where
  argc : ℕ
  open_ : ℤ
  fstat : ℤ
  mmap : Option Mapping

/-- `main` up to the call of `_shared_region_map_file_np`. -/
def main (o : ByteOrder) (c : Calls) (table : Vector Entry MAX_SEGMENTS) : Except Fault Outcome :=
  if c.argc ≠ 2 then .ok (.stop 1)
  else if c.open_ < 0 then .ok (.stop 1)
  else if c.fstat ≠ 0 then .ok (.stop 1)
  else match c.mmap with
    | none => .ok (.stop 1)
    | some M => mapped M.mem o M.load_address table

end Srmap
end MacOSXInternal
