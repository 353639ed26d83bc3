import MacOSXInternal.Fslogger.Decode
import MacOSXInternal.Lib.Traced

/-!
# What the walk touches

The walk once more, with a list of everything that it reads and of every place in a table that it
looks at.  `result_processBuffer` says that it is the walk.
-/

set_option autoImplicit false

namespace MacOSXInternal
namespace Fslogger

open AddressSpace Traced

/-! ## The walk -/

/-- What the walk touches. -/
inductive Access
  /-- A field of an event, or of the header of an argument. -/
  | field (a n : ℕ)
  /-- A byte that is shown of an argument of `len` bytes at `data`. -/
  | payload (data len a : ℕ)
  /-- An element of a table. -/
  | index (size : ℕ) (i : ℤ)
  deriving DecidableEq

namespace Reads

variable (h : Header) (c : Lookups) (o : ByteOrder) (m : AddressSpace)

/-- A string, byte by byte, from `a` on. -/
def stringWithin (data len : ℕ) : ℕ → ℕ → Traced Access Stop (List Byte)
  | _, 0 => touch [] (.error .fault)
  | a, n + 1 => do
    let b ← touch [.payload data len a] (fetch (m a))
    if b = 0 then return []
    let s ← stringWithin data len (a + 1) n
    return b :: s

/-- Four bytes, which `x` makes of the data. -/
def word {α : Type} (data len : ℕ) (x : Option α) : Traced Access Stop α :=
  touch ((List.range 4).map fun j ↦ .payload data len (data + j)) (fetch x)

/-- The `switch`. -/
def showArg (type len data : ℕ) (is_fse_arg_vnode : Bool) : Traced Access Stop (Shown × Bool) :=
  match h.case type with
  | .vnode => do
    let s ← stringWithin m data len data (2 ^ 32 - data)
    return (.path s, true)
  | .string => do
    let s ← stringWithin m data len data (2 ^ 32 - data)
    return (.string s, is_fse_arg_vnode)
  | .int32 => do
    let n ← word data len (int32 o m data)
    return (.int32 n, is_fse_arg_vnode)
  | .raw => do
    if len = 0 then return (.ptr [], is_fse_arg_vnode)
    let ptr ← word data len (m.field o data 4)
    let bytes ← touch ((List.range len).map fun j ↦ .payload data len ((ptr + j) % 2 ^ 32))
      (fetch (AddressSpace.bytes (fun a ↦ m (a % 2 ^ 32)) ptr len))
    return (.ptr bytes, is_fse_arg_vnode)
  | .ino => do
    let n ← word data len (int32 o m data)
    return (.ino n, is_fse_arg_vnode)
  | .uid => do
    let n ← word data len (m.field o data 4)
    return (.uid n ((c.getpwuid n).getD "?"), is_fse_arg_vnode)
  | .dev => do
    let dev ← word data len (m.field o data 4)
    if is_fse_arg_vnode then return (.fsid dev, false)
    return (.dev dev (major dev) (minor dev), is_fse_arg_vnode)
  | .mode => do
    let mode ← word data len (m.field o data 4)
    let va_mode := mode &&& 0x0000ffff
    let va_type := mode &&& 0xfffff000
    let i := (va_type &&& S_IFMT) >>> 12
    let va_type ← touch [.index iftovt_tab.length i] (fetch iftovt_tab[i]?)
    let vtype ←
      if va_type.ctorIdx < vtypeNames.length then
        touch [.index vtypeNames.length va_type.ctorIdx] (fetch vtypeNames[va_type.ctorIdx]?)
      else pure "?"
    return (.mode (c.strmode va_mode) mode vtype, is_fse_arg_vnode)
  | .gid => do
    let n ← word data len (m.field o data 4)
    return (.gid n ((c.getgrgid n).getD "?"), is_fse_arg_vnode)
  | .default => return (.unknown, is_fse_arg_vnode)

def processArgs (ret : ℕ) : ℕ → ℕ → Walk → Traced Access Stop Walk
  | 0, _, w => pure w
  | turns + 1, kea, w => do
    if ¬w.off < ret then return w
    let type ← touch [.field kea 2] (fetch (m.field o kea 2))
    if type = h.FSE_ARG_DONE.toNat then
      return { w with off := w.off + 2, log := w.log ++ [.done type] }
    let len ← touch [.field (kea + 2) 2] (fetch (m.field o (kea + 2) 2))
    let eoff := 2 + 2 + len
    let arg_id := if type > h.FSE_MAX_ARGS then 0 else type
    let name ← touch [.index kfseArgNames.length arg_id] (fetch kfseArgNames[arg_id]?)
    let (shown, is_fse_arg_vnode) ← showArg h c o m type len (kea + 4) w.is_fse_arg_vnode
    processArgs ret turns (kea + eoff)
      ⟨w.off + eoff, is_fse_arg_vnode, w.log ++ [.arg type len name (kea + 4) shown]⟩

def processEvents (buffer ret : ℕ) : ℕ → Walk → Traced Access Stop Walk
  | 0, w => if w.off < ret then touch [] (.error .fuel) else pure w
  | fuel + 1, w => do
    if ¬w.off < ret then return w
    let kfse := buffer + w.off
    let off := w.off + 4 + 4
    let type ← touch [.field kfse 4] (fetch (int32 o m kfse))
    if type = h.FSE_EVENTS_DROPPED.toInt then
      let pid ← touch [.field (kfse + 4) 4] (fetch (int32 o m (kfse + 4)))
      processEvents buffer ret fuel { w with off := off + 2, log := w.log ++ [.dropped pid] }
    else if type < h.FSE_MAX_EVENTS ∧ type ≥ -1 then
      let name ← touch [.index kfseNames.length type]
        (fetch (if type < 0 then none else kfseNames[type.toNat]?))
      let pid ← touch [.field (kfse + 4) 4] (fetch (int32 o m (kfse + 4)))
      let w ← processArgs h c o m ret (h.FSE_MAX_ARGS + 1) (kfse + 8)
        { w with off, log := w.log ++ [.event type name pid (c.get_proc_name pid)] }
      processEvents buffer ret fuel w
    else touch [] (.error (.exit 1))

def processBuffer (buffer ret : ℕ) (is_fse_arg_vnode : Bool) : Traced Access Stop Walk :=
  processEvents h c o m buffer ret ret ⟨0, is_fse_arg_vnode, []⟩

end Reads

variable {h : Header} {c : Lookups} {o : ByteOrder} {m : AddressSpace}

theorem fetch_bind {α β : Type} (x : Option α) (f : α → Option β) :
    fetch (x >>= f) = fetch x >>= fun a ↦ fetch (f a) := by
  cases x <;> rfl

theorem result_stringWithin (data len a n : ℕ) :
    (Reads.stringWithin m data len a n).result = fetch (m.stringWithin a n) := by
  induction n generalizing a with
  | zero => rfl
  | succ n ih =>
    rw [Reads.stringWithin, AddressSpace.stringWithin, result_bind, result_touch]
    cases hb : m a with
    | none => rfl
    | some b =>
      by_cases h0 : b = 0
      · simp [h0]
      · simp only [fetch_some, ok_bind, h0, if_false, result_bind, ih, Option.bind_some]
        cases m.stringWithin (a + 1) n <;> rfl

/-- Every vnode type has a name. -/
theorem vtypeName_eq (t : VType) :
    t.ctorIdx < vtypeNames.length ∧
      vtypeNames[t.ctorIdx]? = some (vtypeNames[t.ctorIdx]?.getD "?") := by
  cases t <;> decide

/-- It is the walk. -/
theorem result_showArg (type len data : ℕ) (v : Bool) :
    (Reads.showArg h c o m type len data v).result = fetch (showArg h c o m type len data v) := by
  rw [Reads.showArg, showArg]
  cases h.case type with
  | vnode | string =>
    simp only [result_bind, result_stringWithin, fetch_bind, string, result_pure]
    rfl
  | int32 | ino | uid | gid =>
    simp only [result_bind, Reads.word, result_touch, fetch_bind, result_pure]
    rfl
  | raw =>
    by_cases hlen : len = 0
    · simp [hlen]
    · simp only [hlen, if_false, result_bind, Reads.word, result_touch, fetch_bind, result_pure]
      rfl
  | dev =>
    simp only [result_bind, Reads.word, result_touch, fetch_bind]
    cases v <;> rfl
  | mode =>
    simp only [result_bind, Reads.word, result_touch, fetch_bind]
    congr 1
    funext mode
    congr 1
    funext t
    rw [if_pos (vtypeName_eq t).1, result_bind, result_touch, (vtypeName_eq t).2]
    rfl
  | default => rfl

theorem result_processArgs (ret turns kea : ℕ) (w : Walk) :
    (Reads.processArgs h c o m ret turns kea w).result = processArgs h c o m ret turns kea w := by
  induction turns generalizing kea w with
  | zero => rfl
  | succ turns ih =>
    simp only [Reads.processArgs, processArgs, result_bind, result_ite, result_touch, result_pure,
      result_showArg, ih]
    rfl

theorem result_processEvents (buffer ret fuel : ℕ) (w : Walk) :
    (Reads.processEvents h c o m buffer ret fuel w).result =
      processEvents h c o m buffer ret fuel w := by
  induction fuel generalizing w with
  | zero =>
    rw [Reads.processEvents, processEvents, result_ite]
    rfl
  | succ fuel ih =>
    simp only [Reads.processEvents, processEvents, result_bind, result_ite, result_touch,
      result_pure, result_processArgs, ih]
    rfl

/-- **What is listed is what the walk touches.** -/
theorem result_processBuffer (buffer ret : ℕ) (v : Bool) :
    (Reads.processBuffer h c o m buffer ret v).result = processBuffer h c o m buffer ret v :=
  result_processEvents ..

end Fslogger
end MacOSXInternal
