import Mathlib.Data.List.Basic
import MacOSXInternal.Lib.ByteOrder
import MacOSXInternal.VnodeWatcher.UserClient

/-!
# From the kauth callback to a printed line

The kernel side of VnodeWatcher puts one record into the data queue for each vnode event
(`my_vnode_authorize_callback`), and one single byte when the user client stops.  The user side
(`vnodeNotificationHandler` in `vnodewatch.c`) takes them out again, one after the other, into the
same `vdata`, and tells the two apart by the first byte of what it has just copied.  That byte is
a byte of the event's `pid`, and which one depends on the byte order of the machine.

* `callback` builds the record as the kernel does, field by field into an uninitialised structure,
  and cuts it off after the path.
* `handler` is the loop of the user side, over the records still in the queue.
* `handler_iff` says when the two fit together: with a big-endian machine always, with a
  little-endian one exactly when no recorded pid has the stop message as its low-order byte.
  When they fit, the handler prints for each record the line `lineOf` computes from the event, so
  every field arrives whatever an earlier, longer record has left in `vdata`.
-/

set_option autoImplicit false

namespace MacOSXInternal
namespace VnodeWatcher

/-! ## The record -/

/-- From `<sys/param.h>`. -/
def MAXCOMLEN : ℕ := 16

/-- From `<sys/param.h>`. -/
def MAXPATHLEN : ℕ := 1024

/-- `enum vtype`. -/
inductive VType
  | VNON | VREG | VDIR | VBLK | VCHR | VLNK | VSOCK | VFIFO | VBAD | VSTR | VCPLX
  deriving DecidableEq, Repr

/-- `enum vtagtype`. -/
inductive VTagType
  | VT_NON | VT_UFS | VT_NFS | VT_MFS | VT_MSDOSFS | VT_LFS | VT_LOFS | VT_FDESC | VT_PORTAL
  | VT_NULL | VT_UMAP | VT_KERNFS | VT_PROCFS | VT_AFS | VT_ISOFS | VT_UNION | VT_HFS | VT_VOLFS
  | VT_DEVFS | VT_WEBDAV | VT_UDF | VT_AFP | VT_CDDA | VT_CIFS | VT_OTHER
  deriving DecidableEq, Repr

/-- The characters of a C string of length at most `n`, without its terminating NUL. -/
structure CString (n : ℕ) where
  bytes : List Byte
  nonzero : (0 : Byte) ∉ bytes
  length_le : bytes.length ≤ n

/-- What `vn_getpath` does: it writes a path and its NUL and sets `name_len` to their length, or it
fails and leaves some value in `name_len`. -/
inductive PathResult
  | path (p : CString (MAXPATHLEN - 1))
  | failed (name_len : ℕ)

/-- What the kernel answers when one invocation of the callback asks it about the event. -/
structure VnodeEvent where
  pid : BitVec 32
  /-- Pids are not negative. -/
  pid_nonneg : pid.toNat < 2 ^ 31
  comm : CString MAXCOMLEN
  action : BitVec 32
  v_type : VType
  v_tag : VTagType
  getpath : PathResult

/-- `VnodeWatcherData_t`, with the three bytes of padding that round its size up to a multiple of
four. -/
structure VnodeWatcherData where
  pid : BitVec 32
  action : BitVec 32
  v_type : BitVec 32
  v_tag : BitVec 32
  p_comm : List Byte
  path : List Byte
  padding : List Byte
  p_comm_length : p_comm.length = MAXCOMLEN + 1
  path_length : path.length = MAXPATHLEN
  padding_length : padding.length = 3

/-- `sizeof(VnodeWatcherData_t)`. -/
def sizeofData : ℕ := 16 + (MAXCOMLEN + 1) + MAXPATHLEN + 3

/-- The record in memory. -/
def VnodeWatcherData.toBytes (o : ByteOrder) (d : VnodeWatcherData) : List Byte :=
  o.encode 4 d.pid.toNat ++ (o.encode 4 d.action.toNat ++ (o.encode 4 d.v_type.toNat ++
    (o.encode 4 d.v_tag.toNat ++ (d.p_comm ++ (d.path ++ d.padding)))))

theorem VnodeWatcherData.length_toBytes (o : ByteOrder) (d : VnodeWatcherData) :
    (d.toBytes o).length = sizeofData := by
  simp [toBytes, sizeofData, d.p_comm_length, d.path_length, d.padding_length, MAXCOMLEN,
    MAXPATHLEN]

/-! ## The kernel side -/

/-- `VNW_LOG_FILE`. -/
def VNW_LOG_FILE : String := "/private/tmp/VnodeWatcher.log"

/-- The characters of `VNW_LOG_FILE` and the NUL, which is what `gLogFilePath` points to. -/
def gLogFilePath : List Byte := VNW_LOG_FILE.toList.map (fun c ↦ BitVec.ofNat 8 c.toNat) ++ [0]

/-- `strlen(gLogFilePath) + 1`. -/
def gLogFilePathLen : ℕ := gLogFilePath.length

/-- `strncpy` of a name and its padding with NULs, which is what `proc_name` does. -/
def procName (name : CString MAXCOMLEN) : List Byte :=
  name.bytes ++ List.replicate (MAXCOMLEN + 1 - name.bytes.length) 0

theorem length_procName (name : CString MAXCOMLEN) :
    (procName name).length = MAXCOMLEN + 1 := by
  have := name.length_le
  simp only [procName, List.length_append, List.length_replicate]
  omega

/-- What the path field holds after `vn_getpath`, or after the assignment to its first byte. -/
def pathField (old : List Byte) : PathResult → List Byte
  | .path p => p.bytes ++ 0 :: old.drop (p.bytes.length + 1)
  | .failed _ => 0 :: old.drop 1

theorem length_pathField {old : List Byte} (h : old.length = MAXPATHLEN) (r : PathResult) :
    (pathField old r).length = MAXPATHLEN := by
  cases r with
  | path p =>
    have := p.length_le
    simp only [pathField, List.length_append, List.length_cons, List.length_drop, h,
      MAXPATHLEN] at this ⊢
    omega
  | failed => simp [pathField, h, MAXPATHLEN]

/-- `name_len` after `vn_getpath`. -/
def nameLen : PathResult → ℕ
  | .path p => p.bytes.length + 1
  | .failed name_len => name_len

/-- What is added to `size` for the path. -/
def pathSize : PathResult → ℕ
  | .path p => p.bytes.length + 1
  | .failed _ => 1

/-- The assignments to `data`. -/
def fillData (garbage : VnodeWatcherData) (e : VnodeEvent) : VnodeWatcherData :=
  { garbage with
    pid := e.pid
    p_comm := procName e.comm
    action := e.action
    v_type := BitVec.ofNat 32 e.v_type.ctorIdx
    v_tag := BitVec.ofNat 32 e.v_tag.ctorIdx
    path := pathField garbage.path e.getpath
    p_comm_length := length_procName e.comm
    path_length := length_pathField garbage.path_length e.getpath }

/-- `my_vnode_authorize_callback`: the record it enqueues, if any.  `garbage` is what the stack
holds in the place of `data` on entry. -/
def callback (o : ByteOrder) (garbage : VnodeWatcherData) (e : VnodeEvent) : Option (List Byte) :=
  let data := fillData garbage e
  let size := sizeofData - MAXPATHLEN + pathSize e.getpath
  if nameLen e.getpath ≠ gLogFilePathLen ∨ data.path.take gLogFilePathLen ≠ gLogFilePath then
    some ((data.toBytes o).take size)
  else none

/-! ## The user side -/

/-- The mask of a `KAUTH_VNODE_` right from `<sys/kauth.h>` and the name printed for it. -/
abbrev Action := ℕ × String

/-- The rights printed for something that is not a directory. -/
def fileActions : List Action :=
  [(1, "READ_DATA"), (2, "WRITE_DATA"), (3, "EXECUTE"), (5, "APPEND_DATA")]

/-- The rights printed for a directory. -/
def dirActions : List Action :=
  [(1, "LIST_DIRECTORY"), (2, "ADD_FILE"), (3, "SEARCH"), (5, "ADD_SUBDIRECTORY"),
    (6, "DELETE_CHILD")]

/-- The rights printed for both. -/
def commonActions : List Action :=
  [(4, "DELETE"), (7, "READ_ATTRIBUTES"), (8, "WRITE_ATTRIBUTES"), (9, "READ_EXTATTRIBUTES"),
    (10, "WRITE_EXTATTRIBUTES"), (11, "READ_SECURITY"), (12, "WRITE_SECURITY"),
    (13, "TAKE_OWNERSHIP"), (25, "LINKTARGET"), (26, "CHECKIMMUTABLE"), (31, "ACCESS"),
    (30, "NOIMMUTABLE")]

/-- `action_print`: the names of the rights whose bit is set. -/
def actionPrint (action : BitVec 32) (isdir : Bool) : List String :=
  (((if isdir then dirActions else fileActions) ++ commonActions).filter
    fun a ↦ action.getLsbD a.1).map Prod.snd

/-- The table in `vtype_name`. -/
def vtype_names : List String :=
  ["VNON", "VREG", "VDIR", "VBLK", "VCHR", "VLNK", "VSOCK", "VFIFO", "VBAD", "VSTR", "VCPLX"]

/-- The table in `vtag_name`. -/
def vtag_names : List String :=
  ["VT_NON", "VT_UFS", "VT_NFS", "VT_MFS", "VT_MSDOSFS", "VT_LFS", "VT_LOFS", "VT_FDESC",
    "VT_PORTAL", "VT_NULL", "VT_UMAP", "VT_KERNFS", "VT_PROCFS", "VT_AFS", "VT_ISOFS", "VT_UNION",
    "VT_HFS", "VT_VOLFS", "VT_DEVFS", "VT_WEBDAV", "VT_UDF", "VT_AFP", "VT_CDDA", "VT_CIFS",
    "VT_OTHER"]

/-- A line of output.  A name is `none` where the table is read outside its bounds. -/
structure Line where
  path : List Byte
  vtype : Option String
  vtag : Option String
  pid : ℕ
  p_comm : List Byte
  action : List String
  deriving DecidableEq

/-- What `%s` prints from a place in memory: the bytes up to the first NUL. -/
def cString (mem : List Byte) : List Byte := mem.takeWhile (· ≠ 0)

/-- The `n` bytes at offset `off`, as an integer. -/
def field (o : ByteOrder) (vdata : List Byte) (off n : ℕ) : ℕ :=
  o.decode ((vdata.drop off).take n)

/-- The two `printf`s and `action_print`, reading the fields of `vdata`. -/
def lineOfData (o : ByteOrder) (vdata : List Byte) : Line where
  path := cString (vdata.drop (16 + (MAXCOMLEN + 1)))
  vtype := vtype_names[field o vdata 8 4]?
  vtag := vtag_names[field o vdata 12 4]?
  pid := field o vdata 0 4
  p_comm := cString (vdata.drop 16)
  action := actionPrint (BitVec.ofNat 32 (field o vdata 4 4))
    (field o vdata 8 4 &&& VType.VDIR.ctorIdx ≠ 0)

/-- The fields of a record, as they are read from `vdata` or asked of the kernel.  The two arrays of
characters are read up to their NUL. -/
structure Fields where
  pid : ℕ
  action : ℕ
  v_type : ℕ
  v_tag : ℕ
  p_comm : List Byte
  path : List Byte
  deriving DecidableEq

/-- The fields of `vdata`. -/
def fieldsOfData (o : ByteOrder) (vdata : List Byte) : Fields where
  pid := field o vdata 0 4
  action := field o vdata 4 4
  v_type := field o vdata 8 4
  v_tag := field o vdata 12 4
  p_comm := cString (vdata.drop 16)
  path := cString (vdata.drop (16 + (MAXCOMLEN + 1)))

/-- How the fields are printed. -/
def Fields.line (d : Fields) : Line where
  path := d.path
  vtype := vtype_names[d.v_type]?
  vtag := vtag_names[d.v_tag]?
  pid := d.pid
  p_comm := d.p_comm
  action := actionPrint (BitVec.ofNat 32 d.action) (d.v_type &&& VType.VDIR.ctorIdx ≠ 0)

theorem lineOfData_eq (o : ByteOrder) (vdata : List Byte) :
    lineOfData o vdata = (fieldsOfData o vdata).line := rfl

/-- Something written to the terminal. -/
inductive Output
  | line (l : Line)
  | error
  deriving DecidableEq

/-- How `vnodeNotificationHandler` is found after some iterations. -/
inductive Outcome
  /-- Left the loop through the `goto`, with these records still in the queue. -/
  | exited (out : List Output) (rest : List (List Byte))
  /-- Waiting for data, having printed this. -/
  | waiting (out : List Output)
  /-- Still running. -/
  | running
  deriving DecidableEq

/-- Put something in front of the output. -/
def Outcome.cons (x : Output) : Outcome → Outcome
  | .exited out rest => .exited (x :: out) rest
  | .waiting out => .waiting (x :: out)
  | .running => .running

/-- The loops of `vnodeNotificationHandler`, for so many iterations.  `IODataQueueDequeue` copies
the record at the head of the queue over the front of `vdata`; one that does not fit stays where
it is. -/
def handler (o : ByteOrder) : ℕ → List Byte → List (List Byte) → Outcome
  | 0, _, _ => .running
  | _ + 1, _, [] => .waiting []
  | fuel + 1, vdata, entry :: queue =>
    if entry.length ≤ sizeofData then
      let vdata := entry ++ vdata.drop entry.length
      if vdata.head? = some kt_kStopListeningToMessages then .exited [] queue
      else (handler o fuel vdata queue).cons (.line (lineOfData o vdata))
    else (handler o fuel vdata (entry :: queue)).cons .error

/-- The line an event should be printed as. -/
def lineOf (e : VnodeEvent) : Line where
  path := match e.getpath with
    | .path p => p.bytes
    | .failed _ => []
  vtype := vtype_names[e.v_type.ctorIdx]?
  vtag := vtag_names[e.v_tag.ctorIdx]?
  pid := e.pid.toNat
  p_comm := e.comm.bytes
  action := actionPrint e.action (e.v_type.ctorIdx &&& VType.VDIR.ctorIdx ≠ 0)

/-- The fields of an event. -/
def fieldsOf (e : VnodeEvent) : Fields where
  pid := e.pid.toNat
  action := e.action.toNat
  v_type := e.v_type.ctorIdx
  v_tag := e.v_tag.ctorIdx
  p_comm := e.comm.bytes
  path := match e.getpath with
    | .path p => p.bytes
    | .failed _ => []

theorem lineOf_eq (e : VnodeEvent) : lineOf e = (fieldsOf e).line := by
  rw [Fields.line, fieldsOf, BitVec.ofNat_toNat, BitVec.setWidth_eq]
  rfl

/-! ## What is in a record -/

theorem cString_append_zero {l : List Byte} (h : (0 : Byte) ∉ l) (r : List Byte) :
    cString (l ++ 0 :: r) = l := by
  induction l with
  | nil => simp [cString]
  | cons b l ih =>
    rw [List.mem_cons, not_or] at h
    have ih := ih h.2
    rw [cString] at ih ⊢
    rw [List.cons_append, List.takeWhile_cons_of_pos (by simpa using Ne.symm h.1), ih]

theorem cString_procName (name : CString MAXCOMLEN) (r : List Byte) :
    cString (procName name ++ r) = name.bytes := by
  have hpos : MAXCOMLEN + 1 - name.bytes.length = (MAXCOMLEN - name.bytes.length) + 1 := by
    have := name.length_le
    omega
  rw [procName, hpos, List.replicate_succ, List.append_assoc, List.cons_append]
  exact cString_append_zero name.nonzero _

theorem VType.ctorIdx_lt (v : VType) : v.ctorIdx < 2 ^ 32 := by cases v <;> decide

theorem VTagType.ctorIdx_lt (v : VTagType) : v.ctorIdx < 2 ^ 32 := by cases v <;> decide

/-- The part of a record from its path on: the path and its NUL, then three more bytes. -/
theorem cString_take_pathField (old pad : List Byte) (e : VnodeEvent) (tail : List Byte) :
    cString ((pathField old e.getpath ++ pad).take (3 + pathSize e.getpath) ++ tail) =
      (lineOf e).path := by
  cases he : e.getpath with
  | path p =>
    have htake : (pathField old (.path p) ++ pad).take (3 + pathSize (.path p)) =
        p.bytes ++ 0 :: (old.drop (p.bytes.length + 1) ++ pad).take 3 := by
      rw [pathSize, pathField, List.append_assoc,
        show 3 + (p.bytes.length + 1) = p.bytes.length + (3 + 1) by omega,
        List.take_length_add_append, List.cons_append, List.take_succ_cons]
    rw [htake, List.append_assoc, List.cons_append, cString_append_zero p.nonzero]
    simp [lineOf, he]
  | failed n =>
    rw [pathField, List.cons_append, pathSize, List.take_succ_cons]
    simp [cString, lineOf, he]

/-- A record is whole up to its path, and goes on as far as the path does. -/
theorem fillData_toBytes_take (o : ByteOrder) (g : VnodeWatcherData) (e : VnodeEvent) :
    ((fillData g e).toBytes o).take (sizeofData - MAXPATHLEN + pathSize e.getpath) =
      o.encode 4 e.pid.toNat ++ (o.encode 4 e.action.toNat ++ (o.encode 4 e.v_type.ctorIdx ++
        (o.encode 4 e.v_tag.ctorIdx ++ (procName e.comm ++
          (pathField g.path e.getpath ++ g.padding).take (3 + pathSize e.getpath))))) := by
  have htake : ∀ {l₁ l₂ : List Byte} {n : ℕ} (i : ℕ), l₁.length = n →
      (l₁ ++ l₂).take (n + i) = l₁ ++ l₂.take i := by
    rintro l₁ l₂ n i rfl
    exact List.take_length_add_append ..
  have htype : (fillData g e).v_type.toNat = e.v_type.ctorIdx :=
    (BitVec.toNat_ofNat ..).trans (Nat.mod_eq_of_lt e.v_type.ctorIdx_lt)
  have htag : (fillData g e).v_tag.toNat = e.v_tag.ctorIdx :=
    (BitVec.toNat_ofNat ..).trans (Nat.mod_eq_of_lt e.v_tag.ctorIdx_lt)
  rw [VnodeWatcherData.toBytes, show sizeofData - MAXPATHLEN + pathSize e.getpath =
    4 + (4 + (4 + (4 + ((MAXCOMLEN + 1) + (3 + pathSize e.getpath))))) by
      simp only [sizeofData, MAXCOMLEN, MAXPATHLEN]; omega]
  rw [htake _ (by simp), htake _ (by simp), htake _ (by simp), htake _ (by simp),
    htake _ (fillData g e).p_comm_length]
  rw [htype, htag]
  rfl

/-- Reading the fields back out of the front of `vdata`. -/
theorem fieldsOfData_append (o : ByteOrder) {pid action v_type v_tag : ℕ} (hpid : pid < 2 ^ 32)
    (haction : action < 2 ^ 32) (htype : v_type < 2 ^ 32) (htag : v_tag < 2 ^ 32)
    {comm : List Byte} (hcomm : comm.length = MAXCOMLEN + 1) (r : List Byte) :
    fieldsOfData o (o.encode 4 pid ++ (o.encode 4 action ++ (o.encode 4 v_type ++
      (o.encode 4 v_tag ++ (comm ++ r))))) =
        ⟨pid, action, v_type, v_tag, cString (comm ++ r), cString r⟩ := by
  have hint : ∀ {x : ℕ}, x < 2 ^ 32 → o.decode (o.encode 4 x) = x := fun hx ↦
    o.decode_encode (by simpa using hx)
  have hcomm : comm.length = 17 := hcomm
  simp [fieldsOfData, field, MAXCOMLEN, List.drop_append, List.drop_eq_nil_of_le, hcomm, hint hpid,
    hint haction, hint htype, hint htag]

section Callback

variable {o : ByteOrder} {g : VnodeWatcherData} {e : VnodeEvent} {m : List Byte}

theorem callback_eq (h : callback o g e = some m) :
    ((fillData g e).toBytes o).take (sizeofData - MAXPATHLEN + pathSize e.getpath) = m := by
  simp only [callback, Option.ite_none_right_eq_some, Option.some.injEq] at h
  exact h.2

theorem callback_length_le (h : callback o g e = some m) : m.length ≤ sizeofData := by
  rw [← callback_eq h, List.length_take, VnodeWatcherData.length_toBytes]
  exact min_le_right _ _

/-- An event without a path is not mistaken for one on the log file. -/
theorem callback_of_failed {n : ℕ} (he : e.getpath = .failed n) : ∃ m, callback o g e = some m := by
  have hne : (fillData g e).path.take gLogFilePathLen ≠ gLogFilePath := by
    have hlog : gLogFilePath.head? = some 0x2f := by decide
    have hlen : gLogFilePathLen ≠ 0 := by decide
    intro heq
    rw [← heq, List.head?_take, if_neg hlen] at hlog
    simp [fillData, he, pathField] at hlog
  exact ⟨_, if_pos (.inr hne)⟩

/-- The byte that the handler looks at is a byte of the pid. -/
theorem callback_head (h : callback o g e = some m) (tail : List Byte) :
    (m ++ tail).head? = (o.encode 4 e.pid.toNat).head? := by
  rw [← callback_eq h, fillData_toBytes_take]
  have hlen := ByteOrder.length_encode o 4 e.pid.toNat
  cases hpid : o.encode 4 e.pid.toNat with
  | nil => simp [hpid] at hlen
  | cons b l => rfl

/-- **Every field arrives**, whatever lies behind the record in `vdata`. -/
theorem fieldsOfData_callback (h : callback o g e = some m) (tail : List Byte) :
    fieldsOfData o (m ++ tail) = fieldsOf e := by
  rw [← callback_eq h, fillData_toBytes_take]
  simp only [List.append_assoc]
  rw [fieldsOfData_append o e.pid.isLt e.action.isLt e.v_type.ctorIdx_lt e.v_tag.ctorIdx_lt
    (length_procName e.comm),
    cString_take_pathField, cString_procName]
  rfl

theorem lineOfData_callback (h : callback o g e = some m) (tail : List Byte) :
    lineOfData o (m ++ tail) = lineOf e := by
  rw [lineOfData_eq, fieldsOfData_callback h, lineOf_eq]

end Callback

/-! ## The loop -/

/-- The records that the invocations of the callback put into the queue, in order, each with the
event it is about. -/
def enqueued (o : ByteOrder) (calls : List (VnodeWatcherData × VnodeEvent)) :
    List (List Byte × VnodeEvent) :=
  calls.filterMap fun c ↦ (callback o c.1 c.2).map fun m ↦ (m, c.2)

theorem callback_of_mem_enqueued {o : ByteOrder}
    {calls : List (VnodeWatcherData × VnodeEvent)} {r : List Byte × VnodeEvent}
    (h : r ∈ enqueued o calls) : ∃ g, callback o g r.2 = some r.1 := by
  simp only [enqueued, List.mem_filterMap, Option.map_eq_some_iff] at h
  obtain ⟨c, -, m, hm, rfl⟩ := h
  exact ⟨c.1, hm⟩

/-- The pid of an event does not look like the stop message. -/
def Distinct (o : ByteOrder) (e : VnodeEvent) : Prop :=
  o = .big ∨ e.pid.toNat % 256 ≠ kt_kStopListeningToMessages.toNat

/-- **The byte the handler compares** is the stop message exactly when the machine is little-endian
and the low-order byte of the pid is: the high-order byte of a pid is less than 128. -/
theorem head_pid_eq_stop (o : ByteOrder) (e : VnodeEvent) :
    (o.encode 4 e.pid.toNat).head? = some kt_kStopListeningToMessages ↔ ¬Distinct o e := by
  have hpid := e.pid_nonneg
  cases o with
  | big =>
    rw [ByteOrder.head_encode_big, Option.some_inj, ← BitVec.toNat_inj]
    simp only [Distinct, kt_kStopListeningToMessages, true_or, not_true_eq_false, iff_false]
    have hstop : (0xff : BitVec 8).toNat = 255 := rfl
    rw [BitVec.toNat_ofNat, hstop]
    omega
  | little =>
    rw [ByteOrder.head_encode_little, Option.some_inj, ← BitVec.toNat_inj]
    simp [Distinct, kt_kStopListeningToMessages]

/-- One iteration on a record that the callback made. -/
theorem handler_callback {o : ByteOrder} {g : VnodeWatcherData} {e : VnodeEvent} {m : List Byte}
    (h : callback o g e = some m) (fuel : ℕ) (vdata : List Byte) (queue : List (List Byte)) :
    (Distinct o e → handler o (fuel + 1) vdata (m :: queue) =
      (handler o fuel (m ++ vdata.drop m.length) queue).cons (.line (lineOf e))) ∧
    (¬Distinct o e → handler o (fuel + 1) vdata (m :: queue) = .exited [] queue) := by
  have hhead : (m ++ vdata.drop m.length).head? = some kt_kStopListeningToMessages ↔
      ¬Distinct o e := by
    rw [callback_head h, head_pid_eq_stop]
  simp only [handler, if_pos (callback_length_le h), lineOfData_callback h]
  exact ⟨fun hd ↦ if_neg fun hstop ↦ hhead.mp hstop hd, fun hd ↦ if_pos (hhead.mpr hd)⟩

/-- One iteration on the stop message. -/
theorem handler_stop (o : ByteOrder) (fuel : ℕ) (vdata : List Byte) (queue : List (List Byte)) :
    handler o (fuel + 1) vdata ([kt_kStopListeningToMessages] :: queue) = .exited [] queue := by
  simp [handler, sizeofData]

theorem Outcome.cons_eq_exited {x : Output} {r : Outcome} {out : List Output}
    {rest : List (List Byte)} :
    r.cons x = .exited out rest ↔ ∃ out', out = x :: out' ∧ r = .exited out' rest := by
  cases r with
  | exited out' rest' =>
    simp only [cons, exited.injEq]
    constructor
    · rintro ⟨rfl, rfl⟩
      exact ⟨out', rfl, rfl, rfl⟩
    · rintro ⟨_, rfl, rfl, rfl⟩
      exact ⟨rfl, rfl⟩
  | waiting | running => simp [cons]

/-- **The handler and the callback agree on what ends the session exactly when no recorded pid
looks like the stop message.**  For every sequence of invocations of the callback followed by the
stop message, the handler prints one line for each record, in order, and leaves its loop on taking
the stop message, which is the last record in the queue, if and only if the machine is big-endian
or no recorded pid has `kt_kStopListeningToMessages` as its low-order byte. -/
theorem handler_iff (o : ByteOrder) (calls : List (VnodeWatcherData × VnodeEvent))
    (vdata : List Byte) :
    (∃ fuel, handler o fuel vdata
        ((enqueued o calls).map Prod.fst ++ [[kt_kStopListeningToMessages]]) =
      .exited ((enqueued o calls).map fun r ↦ .line (lineOf r.2)) []) ↔
    o = .big ∨ ∀ r ∈ enqueued o calls, r.2.pid.toNat % 256 ≠ kt_kStopListeningToMessages.toNat := by
  have hall : (o = .big ∨ ∀ r ∈ enqueued o calls,
      r.2.pid.toNat % 256 ≠ kt_kStopListeningToMessages.toNat) ↔
      ∀ r ∈ enqueued o calls, Distinct o r.2 := by
    simp only [Distinct]
    refine ⟨?_, fun h ↦ ?_⟩
    · rintro (hbig | hne) r hr
      · exact .inl hbig
      · exact .inr (hne r hr)
    · by_cases hbig : o = .big
      · exact .inl hbig
      · exact .inr fun r hr ↦ (h r hr).resolve_left hbig
  rw [hall]
  have hmade : ∀ r ∈ enqueued o calls, ∃ g, callback o g r.2 = some r.1 :=
    fun r hr ↦ callback_of_mem_enqueued hr
  generalize enqueued o calls = records at hmade
  induction records generalizing vdata with
  | nil => simpa using ⟨1, handler_stop o 0 vdata []⟩
  | cons r records ih =>
    obtain ⟨g, hg⟩ := hmade r (by simp)
    have hrest := ih (r.1 ++ vdata.drop r.1.length) fun r' hr' ↦ hmade r' (by simp [hr'])
    rw [List.forall_mem_cons]
    refine Iff.trans ?_ (and_congr_right fun _ ↦ hrest)
    constructor
    · rintro ⟨_ | fuel, hf⟩
      · simp [handler] at hf
      · by_cases hd : Distinct o r.2
        · rw [List.map_cons, List.cons_append, (handler_callback hg fuel vdata _).1 hd,
            Outcome.cons_eq_exited] at hf
          obtain ⟨out, hout, hf⟩ := hf
          obtain rfl := (List.cons.inj hout).2
          exact ⟨hd, fuel, hf⟩
        · rw [List.map_cons, List.cons_append, (handler_callback hg fuel vdata _).2 hd] at hf
          simp at hf
    · rintro ⟨hd, fuel, hf⟩
      refine ⟨fuel + 1, ?_⟩
      rw [List.map_cons, List.cons_append, (handler_callback hg fuel vdata _).1 hd, hf]
      rfl

/-- A zeroed stack frame. -/
def zeroData : VnodeWatcherData where
  pid := 0
  action := 0
  v_type := 0
  v_tag := 0
  p_comm := List.replicate (MAXCOMLEN + 1) 0
  path := List.replicate MAXPATHLEN 0
  padding := List.replicate 3 0
  p_comm_length := List.length_replicate
  path_length := List.length_replicate
  padding_length := List.length_replicate

/-- An event of process 255, on a vnode that has no path. -/
def event255 : VnodeEvent where
  pid := 255
  pid_nonneg := by decide
  comm := ⟨[], by simp, by simp⟩
  action := 2
  v_type := .VREG
  v_tag := .VT_HFS
  getpath := .failed MAXPATHLEN

/-- On a little-endian machine an event of process 255 ends the session before the stop message. -/
theorem handler_event255 :
    ¬∃ fuel, handler .little fuel (List.replicate sizeofData 0)
        ((enqueued .little [(zeroData, event255)]).map Prod.fst ++ [[kt_kStopListeningToMessages]]) =
      .exited ((enqueued .little [(zeroData, event255)]).map fun r ↦ .line (lineOf r.2)) [] := by
  obtain ⟨m, hm⟩ := callback_of_failed (o := .little) (g := zeroData) (e := event255) rfl
  have henq : enqueued .little [(zeroData, event255)] = [(m, event255)] := by simp [enqueued, hm]
  rw [henq]
  rintro ⟨_ | fuel, hf⟩
  · simp [handler] at hf
  · have hstop := (handler_callback hm fuel (List.replicate sizeofData 0)
      [[kt_kStopListeningToMessages]]).2 (by simp [Distinct, event255, kt_kStopListeningToMessages])
    exact absurd (hstop.symm.trans hf) (by simp)

end VnodeWatcher
end MacOSXInternal
