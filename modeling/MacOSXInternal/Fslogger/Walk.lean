import MacOSXInternal.Lib.AddressSpace

/-!
# `fslogger.c`: the walk over the events

`fslogger` reads from the fsevents device into a buffer and walks over what it got: an outer loop
over events, an inner loop over the arguments of one event.  The position is kept twice, as the
offset `off`, which ends the loops, and as the pointer `kea`, through which the fields are read.

The walk reads the process's memory, of which the buffer is a part, and stops where that is not
mapped.  What it prints is recorded in `log`: for every event and every argument the fields that it
found, where the argument's data is, and what is shown of the data.

* `Header` is what `<sys/fsevents.h>` defines, `Lookups` the C library.
* `showArg` is the `switch` over the type of an argument.
* `processArgs` and `processEvents` are the two loops, `processBuffer` one pass of the endless one.
-/

set_option autoImplicit false

namespace MacOSXInternal
namespace Fslogger

open AddressSpace

/-! ## Tables -/

def FSEVENT_BUFSIZ : ℕ := 131072

/-- Event names. -/
def kfseNames : List String :=
  ["FSE_CREATE_FILE", "FSE_DELETE", "FSE_STAT_CHANGED", "FSE_RENAME", "FSE_CONTENT_MODIFIED",
    "FSE_EXCHANGE", "FSE_FINDER_INFO_CHANGED", "FSE_CREATE_DIR", "FSE_CHOWN"]

/-- Argument names. -/
def kfseArgNames : List String :=
  ["FSE_ARG_UNKNOWN", "FSE_ARG_VNODE", "FSE_ARG_STRING", "FSE_ARGPATH", "FSE_ARG_INT32",
    "FSE_ARG_INT64", "FSE_ARG_RAW", "FSE_ARG_INO", "FSE_ARG_UID", "FSE_ARG_DEV", "FSE_ARG_MODE",
    "FSE_ARG_GID", "FSE_ARG_FINFO"]

/-- For pretty-printing of vnode types. -/
inductive VType
  | VNON | VREG | VDIR | VBLK | VCHR | VLNK | VSOCK | VFIFO | VBAD | VSTR | VCPLX
  deriving DecidableEq, Repr

open VType in
def iftovt_tab : List VType :=
  [VNON, VFIFO, VCHR, VNON, VDIR, VNON, VBLK, VNON, VREG, VNON, VLNK, VNON, VSOCK, VNON, VNON,
    VBAD]

def vtypeNames : List String :=
  ["VNON", "VREG", "VDIR", "VBLK", "VCHR", "VLNK", "VSOCK", "VFIFO", "VBAD", "VSTR", "VCPLX"]

def S_IFMT : ℕ := 0xf000

/-- What `<sys/fsevents.h>` defines.  The tables of the program have a name for every event and
every type of argument; the number for dropped events is not one of an event. -/
structure Header where
  FSE_EVENTS_DROPPED : BitVec 32
  FSE_MAX_EVENTS : ℕ
  FSE_MAX_ARGS : ℕ
  FSE_ARG_DONE : BitVec 16
  FSE_ARG_VNODE : ℕ
  FSE_ARG_STRING : ℕ
  FSE_ARG_INT32 : ℕ
  FSE_ARG_RAW : ℕ
  FSE_ARG_INO : ℕ
  FSE_ARG_UID : ℕ
  FSE_ARG_DEV : ℕ
  FSE_ARG_MODE : ℕ
  FSE_ARG_GID : ℕ
  max_events : FSE_MAX_EVENTS ≤ kfseNames.length
  max_args : FSE_MAX_ARGS < kfseArgNames.length
  dropped : FSE_EVENTS_DROPPED.toInt < -1 ∨ FSE_MAX_EVENTS ≤ FSE_EVENTS_DROPPED.toInt

/-- The header of Mac OS X 10.4. -/
def tiger : Header where
  FSE_EVENTS_DROPPED := 999
  FSE_MAX_EVENTS := 9
  FSE_MAX_ARGS := 12
  FSE_ARG_DONE := 0xb33f
  FSE_ARG_VNODE := 1
  FSE_ARG_STRING := 2
  FSE_ARG_INT32 := 4
  FSE_ARG_RAW := 6
  FSE_ARG_INO := 7
  FSE_ARG_UID := 8
  FSE_ARG_DEV := 9
  FSE_ARG_MODE := 10
  FSE_ARG_GID := 11
  max_events := by decide
  max_args := by decide
  dropped := by decide

/-- What the C library answers. -/
structure Lookups where
  get_proc_name : ℤ → String
  getpwuid : ℕ → Option String
  getgrgid : ℕ → Option String
  strmode : ℕ → String

/-! ## State -/

/-- What is shown of the data of an argument. -/
inductive Shown
  | path (s : List Byte)
  | string (s : List Byte)
  | int32 (n : ℤ)
  | ptr (bytes : List Byte)
  | ino (n : ℤ)
  | uid (n : ℕ) (name : String)
  | fsid (dev : ℕ)
  | dev (dev major minor : ℕ)
  | mode (fileModeString : String) (mode : ℕ) (vtype : String)
  | gid (n : ℕ) (name : String)
  | unknown
  deriving DecidableEq

/-- What is printed at one place of the walk. -/
inductive Visit
  | dropped (pid : ℤ)
  | event (type : ℤ) (name : String) (pid : ℤ) (procName : String)
  | arg (type len : ℕ) (name : String) (data : ℕ) (shown : Shown)
  | done (type : ℕ)
  deriving DecidableEq

/-- The variables of the walk that outlive a turn of a loop, and what has been printed. -/
structure Walk where
  off : ℕ
  is_fse_arg_vnode : Bool
  log : List Visit
  deriving DecidableEq

/-- Why the program ends. -/
inductive Stop
  /-- It reads where nothing is mapped, or outside of a table. -/
  | fault
  /-- `exit`. -/
  | exit (status : ℕ)
  /-- Not an end of the program: the fuel of the model. -/
  | fuel
  deriving DecidableEq

/-- A read. -/
def fetch {α : Type} : Option α → Except Stop α
  | some x => .ok x
  | none => .error .fault

@[simp] theorem fetch_some {α : Type} (x : α) : fetch (some x) = .ok x := rfl

@[simp] theorem ok_bind {α β : Type} (x : α) (f : α → Except Stop β) : (.ok x >>= f) = f x := rfl

/-! ## The code -/

section
variable (h : Header) (c : Lookups) (o : ByteOrder) (m : AddressSpace)

/-- A signed field of four bytes. -/
def int32 (a : ℕ) : Option ℤ := (m.field o a 4).map fun x ↦ (BitVec.ofNat 32 x).toInt

/-- The cases of the `switch`. -/
inductive Case
  | vnode | string | int32 | raw | ino | uid | dev | mode | gid | default

/-- Handle based on argument type. -/
def Header.case (type : ℕ) : Case :=
  if type = h.FSE_ARG_VNODE then .vnode
  else if type = h.FSE_ARG_STRING then .string
  else if type = h.FSE_ARG_INT32 then .int32
  else if type = h.FSE_ARG_RAW then .raw
  else if type = h.FSE_ARG_INO then .ino
  else if type = h.FSE_ARG_UID then .uid
  else if type = h.FSE_ARG_DEV then .dev
  else if type = h.FSE_ARG_MODE then .mode
  else if type = h.FSE_ARG_GID then .gid
  else .default

/-- `major` and `minor`. -/
def major (dev : ℕ) : ℕ := dev / 2 ^ 24

def minor (dev : ℕ) : ℕ := dev % 2 ^ 24

/-- The `switch`: what is shown of the data, and `is_fse_arg_vnode` afterwards. -/
def showArg (type len data : ℕ) (is_fse_arg_vnode : Bool) : Option (Shown × Bool) :=
  match h.case type with
  | .vnode => do
    let s ← m.string data
    return (.path s, true)
  | .string => do
    let s ← m.string data
    return (.string s, is_fse_arg_vnode)
  | .int32 => do
    let n ← int32 o m data
    return (.int32 n, is_fse_arg_vnode)
  | .raw => do
    -- the data itself is taken for an address, in the loop, so not if there are no bytes
    if len = 0 then return (.ptr [], is_fse_arg_vnode)
    let ptr ← m.field o data 4
    let bytes ← AddressSpace.bytes (fun a ↦ m (a % 2 ^ 32)) ptr len
    return (.ptr bytes, is_fse_arg_vnode)
  | .ino => do
    let n ← int32 o m data
    return (.ino n, is_fse_arg_vnode)
  | .uid => do
    let n ← m.field o data 4
    return (.uid n ((c.getpwuid n).getD "?"), is_fse_arg_vnode)
  | .dev => do
    let dev ← m.field o data 4
    if is_fse_arg_vnode then return (.fsid dev, false)
    return (.dev dev (major dev) (minor dev), is_fse_arg_vnode)
  | .mode => do
    let mode ← m.field o data 4
    let va_mode := mode &&& 0x0000ffff
    let va_type := mode &&& 0xfffff000
    let va_type ← iftovt_tab[(va_type &&& S_IFMT) >>> 12]?
    let vtype := vtypeNames[va_type.ctorIdx]?.getD "?"
    return (.mode (c.strmode va_mode) mode vtype, is_fse_arg_vnode)
  | .gid => do
    let n ← m.field o data 4
    return (.gid n ((c.getgrgid n).getD "?"), is_fse_arg_vnode)
  | .default => return (.unknown, is_fse_arg_vnode)

/-- Process arguments: at most as many turns of the loop as the first argument says, `ret` bytes in
the buffer, from the pointer `kea` on. -/
def processArgs (ret : ℕ) : ℕ → ℕ → Walk → Except Stop Walk
  | 0, _, w => .ok w
  | turns + 1, kea, w => do
    if ¬w.off < ret then return w
    let type ← fetch (m.field o kea 2)
    if type = h.FSE_ARG_DONE.toNat then
      return { w with off := w.off + 2, log := w.log ++ [.done type] }
    let len ← fetch (m.field o (kea + 2) 2)
    let eoff := 2 + 2 + len
    let arg_id := if type > h.FSE_MAX_ARGS then 0 else type
    let name ← fetch kfseArgNames[arg_id]?
    let (shown, is_fse_arg_vnode) ←
      fetch (showArg h c o m type len (kea + 4) w.is_fse_arg_vnode)
    processArgs ret turns (kea + eoff)
      ⟨w.off + eoff, is_fse_arg_vnode, w.log ++ [.arg type len name (kea + 4) shown]⟩

/-- Process one or more events received, in the buffer at `buffer`.  The inner loop takes a turn for
every value of its counter from zero to `FSE_MAX_ARGS`. -/
def processEvents (buffer ret : ℕ) : ℕ → Walk → Except Stop Walk
  | 0, w => if w.off < ret then .error .fuel else .ok w
  | fuel + 1, w => do
    if ¬w.off < ret then return w
    let kfse := buffer + w.off
    let off := w.off + 4 + 4
    let type ← fetch (int32 o m kfse)
    if type = h.FSE_EVENTS_DROPPED.toInt then
      let pid ← fetch (int32 o m (kfse + 4))
      processEvents buffer ret fuel { w with off := off + 2, log := w.log ++ [.dropped pid] }
    else if type < h.FSE_MAX_EVENTS ∧ type ≥ -1 then
      -- the name of event -1 is in front of the table
      let name ← fetch (if type < 0 then none else kfseNames[type.toNat]?)
      let pid ← fetch (int32 o m (kfse + 4))
      let w ← processArgs h c o m ret (h.FSE_MAX_ARGS + 1) (kfse + 8)
        { w with off, log := w.log ++ [.event type name pid (c.get_proc_name pid)] }
      processEvents buffer ret fuel w
    else .error (.exit 1)

/-- One pass of the event-processing loop, after `read` has returned `ret`.  Every turn of the loop
over the events advances `off` by more than one, so `ret` is fuel enough. -/
def processBuffer (buffer ret : ℕ) (is_fse_arg_vnode : Bool) : Except Stop Walk :=
  processEvents h c o m buffer ret ret ⟨0, is_fse_arg_vnode, []⟩

end

end Fslogger
end MacOSXInternal
