import MacOSXInternal.Lib.ByteOrder
import MacOSXInternal.Lib.Names
import MacOSXInternal.Lib.Runs

/-!
# POSIX shared memory

`shm_create` makes an object under a name and copies a string into it, `shm_info` prints what is in
an object, and `shm_unlink` removes a name.  Any number of them may run at the same time, and every
call and every byte may come between the calls and bytes of the others.

* `Step` is a call, or one byte.  `Move` are the calls that change nothing but where their program
  is.
* `Filled` is how far the creator of an object has come with its string, and `Seen` what a program
  that prints it can have read so far.
* `shm_info_shows` says that `shm_info` shows the beginning of a string that was given to a
  `shm_create` with the same path, and all of it if the creator was done before.
-/

set_option autoImplicit false

namespace MacOSXInternal
namespace PosixShm

open Runs Names

/-! ## The programs -/

/-- A program with its arguments. -/
inductive Program (κ : Type)
  | shm_create (path : κ) (str : List Byte)
  | shm_info (path : κ)
  | shm_unlink (path : κ)

/-- The programs that are run, and the size that `ftruncate` gives an object. -/
structure Setup (κ ι : Type) where
  program : ι → Program κ
  nonzero : ∀ i path str, program i = .shm_create path str → 0 ∉ str
  sizeOf : ℕ → ℕ
  le_sizeOf : ∀ n, n ≤ sizeOf n

/-- Where a program is. -/
inductive Phase (ι : Type)
  /-- About to call `shm_open` or `shm_unlink`. -/
  | opening
  | truncating
  | mapping
  /-- To store the byte at `k`, in `snprintf`. -/
  | writing (k : ℕ)
  | stating (o : ι)
  | viewing (o : ι) (st_size : ℕ)
  /-- To read the next byte, in `printf`. -/
  | reading (o : ι) (st_size : ℕ) (contents : List Byte)
  /-- `shm_info` has printed the contents, and exited. -/
  | shown (o : ι) (contents : List Byte)
  | exited (status : ℕ)
  /-- Has used `MAP_FAILED` as an address. -/
  | crashed
  deriving DecidableEq

structure Object where
  size : ℕ
  bytes : ℕ → Byte

structure State (κ ι : Type) where
  names : Space κ ι
  /-- By creator. -/
  object : ι → Object
  phase : ι → Phase ι

/-- A string and zeros. -/
def bytesOf (str : List Byte) : ℕ → Byte := fun k ↦ str.getD k 0

def start (κ ι : Type) : State κ ι := ⟨empty κ ι, fun _ ↦ ⟨0, bytesOf []⟩, fun _ ↦ .opening⟩

variable {κ ι : Type}

/-- The calls and bytes of program `i` that change nothing but where it is.  `mmap` does not return
null when it fails, and nobody looks whether `ftruncate` does. -/
inductive Move (S : Setup κ ι) (s : State κ ι) (i : ι) : Phase ι → Phase ι → Prop
  | createFails {path : κ} {str : List Byte} (hi : S.program i = .shm_create path str) :
      Move S s i .opening (.exited 1)
  | truncateFails : Move S s i .truncating .mapping
  | map {path : κ} {str : List Byte} (hi : S.program i = .shm_create path str)
      (hsize : str.length + 1 ≤ (s.object i).size) : Move S s i .mapping (.writing 0)
  | mapFails : Move S s i .mapping .crashed
  | opens {path : κ} {o : ι} (hi : S.program i = .shm_info path) (ho : s.names path = some o) :
      Move S s i .opening (.stating o)
  | openFails {path : κ} (hi : S.program i = .shm_info path) : Move S s i .opening (.exited 1)
  | stat {o : ι} : Move S s i (.stating o) (.viewing o (s.object o).size)
  | statFails {o : ι} : Move S s i (.stating o) (.exited 1)
  | view {o : ι} {st_size : ℕ} (hsize : 0 < st_size) :
      Move S s i (.viewing o st_size) (.reading o st_size [])
  | viewFails {o : ι} {st_size : ℕ} : Move S s i (.viewing o st_size) .crashed
  | read {o : ι} {st_size : ℕ} {contents : List Byte} (hin : contents.length < st_size)
      (hbyte : (s.object o).bytes contents.length ≠ 0) :
      Move S s i (.reading o st_size contents)
        (.reading o st_size (contents ++ [(s.object o).bytes contents.length]))
  | readEnd {o : ι} {st_size : ℕ} {contents : List Byte} (hin : contents.length < st_size)
      (hbyte : (s.object o).bytes contents.length = 0) :
      Move S s i (.reading o st_size contents) (.shown o contents)
  | unlinkFails {path : κ} (hi : S.program i = .shm_unlink path) :
      Move S s i .opening (.exited 255)

variable [DecidableEq κ] [DecidableEq ι]

/-- Program `i` goes on. -/
def State.goto (s : State κ ι) (i : ι) (phase : Phase ι) : State κ ι :=
  { s with phase := Function.update s.phase i phase }

/-- A call, or one byte, of program `i`. -/
inductive Step (S : Setup κ ι) : State κ ι → ι → State κ ι → Prop
  | move {s : State κ ι} {i : ι} {phase : Phase ι} (h : Move S s i (s.phase i) phase) :
      Step S s i (s.goto i phase)
  | create {s : State κ ι} {i : ι} {path : κ} {str : List Byte} (h : s.phase i = .opening)
      (hi : S.program i = .shm_create path str) (hfree : s.names path = none) :
      Step S s i { s.goto i .truncating with names := bind s.names path i }
  | truncate {s : State κ ι} {i : ι} {path : κ} {str : List Byte} (h : s.phase i = .truncating)
      (hi : S.program i = .shm_create path str) :
      Step S s i
        { s.goto i .mapping with
          object := Function.update s.object i
            { s.object i with size := S.sizeOf (str.length + 1) } }
  | write {s : State κ ι} {i : ι} {path : κ} {str : List Byte} {k : ℕ} (h : s.phase i = .writing k)
      (hi : S.program i = .shm_create path str) :
      Step S s i
        { s.goto i (if k < str.length then .writing (k + 1) else .exited 0) with
          object := Function.update s.object i
            { s.object i with
              bytes := Function.update (s.object i).bytes k (bytesOf str k) } }
  | unlink {s : State κ ι} {i : ι} {path : κ} (h : s.phase i = .opening)
      (hi : S.program i = .shm_unlink path) (hbound : (s.names path).isSome) :
      Step S s i { s.goto i (.exited 0) with names := Names.unlink s.names path }

/-! ## What is in an object -/

/-- How far the creator of an object has come. -/
structure Filled (str : List Byte) (phase : Phase ι) (object : Object) (k : ℕ) : Prop where
  le : k ≤ str.length
  bytes : object.bytes = bytesOf (str.take k)
  size : object.size = 0 ∨ str.length < object.size
  early : phase = .opening ∨ phase = .truncating ∨ phase = .mapping → k = 0
  writing : ∀ m, phase = .writing m → k = m ∧ str.length < object.size
  done : phase = .exited 0 → k = str.length ∧ str.length < object.size

/-- What a program can have read of an object with `str`. -/
def Seen (str : List Byte) : Phase ι → Prop
  | .viewing _ st_size => st_size = 0 ∨ str.length < st_size
  | .reading _ st_size contents => str.length < st_size ∧ contents <+: str
  | .shown _ contents => contents <+: str
  | _ => True

/-- The object a program has opened. -/
def Phase.object : Phase ι → Option ι
  | .stating o | .viewing o _ | .reading o _ _ | .shown o _ => some o
  | _ => none

variable (S : Setup κ ι)

/-- A `shm_create` that has made an object under `path`. -/
def CreatedAs (path : κ) (o : ι) : Prop := ∃ str, S.program o = .shm_create path str

structure Inv (s : State κ ι) : Prop where
  names : Holds (CreatedAs S) s.names
  filled : ∀ i path str, S.program i = .shm_create path str →
    ∃ k, Filled str (s.phase i) (s.object i) k
  opened : ∀ i o, (s.phase i).object = some o → ∃ path str,
    S.program i = .shm_info path ∧ S.program o = .shm_create path str ∧ Seen str (s.phase i)

/-! ## One step -/

section
omit [DecidableEq κ] [DecidableEq ι]

theorem bytesOf_take (str : List Byte) (k m : ℕ) :
    bytesOf (str.take k) m = if m < k then bytesOf str m else 0 := by
  rw [bytesOf, List.getD_eq_getElem?_getD, List.getElem?_take]
  split_ifs <;> rfl

/-- One more byte of the string. -/
theorem update_bytesOf (str : List Byte) (k : ℕ) :
    Function.update (bytesOf (str.take k)) k (bytesOf str k) = bytesOf (str.take (k + 1)) := by
  funext m
  rw [bytesOf_take]
  by_cases hm : m = k
  · subst hm
    rw [Function.update_self, if_pos (Nat.lt_succ_self m)]
  · rw [Function.update_of_ne hm, bytesOf_take]
    exact if_congr (by omega) rfl rfl

variable {S : Setup κ ι} {s : State κ ι} {i : ι} {phase phase' : Phase ι} {str : List Byte} {k : ℕ}

/-- Reading on from the beginning of the string, in an object that holds `k` bytes of it. -/
theorem prefix_of_byte {contents : List Byte} (h : contents <+: str) (hk : k ≤ str.length)
    (hbyte : bytesOf (str.take k) contents.length ≠ 0) :
    contents ++ [bytesOf (str.take k) contents.length] <+: str := by
  rw [bytesOf_take] at hbyte ⊢
  split_ifs at hbyte with hlt
  · obtain ⟨rest, rfl⟩ := h
    cases rest with
    | nil =>
      rw [List.append_nil] at hk
      omega
    | cons b rest =>
      have hget : bytesOf (contents ++ b :: rest) contents.length = b := by simp [bytesOf]
      rw [if_pos hlt, hget]
      exact ⟨rest, by simp⟩
  · exact absurd rfl hbyte

theorem Filled.move {path : κ} (h : Filled str phase (s.object i) k)
    (hi : S.program i = .shm_create path str) (hmove : Move S s i phase phase') :
    Filled str phase' (s.object i) k where
  le := h.le
  bytes := h.bytes
  size := h.size
  early hp := by
    cases hmove <;> simp at hp
    exact h.early (.inr (.inl rfl))
  writing m hm := by
    cases hmove <;> simp at hm
    case map hi' hsize =>
      rw [hi, Program.shm_create.injEq] at hi'
      obtain ⟨-, rfl⟩ := hi'
      exact ⟨(h.early (.inr (.inr rfl))).trans hm, hsize⟩
  done hp := by
    cases hmove <;> simp at hp

/-- Going on with an object, which another program may be filling. -/
theorem Seen.move (hmove : Move S s i phase phase') {o : ι} (ho : phase.object = some o)
    (h : Seen str phase) (hfilled : ∃ phase : Phase ι, ∃ k, Filled str phase (s.object o) k) :
    Seen str phase' := by
  obtain ⟨ophase, k, hfilled⟩ := hfilled
  cases hmove with
  | stat =>
    obtain rfl := Option.some.inj ho
    exact hfilled.size
  | view hsize =>
    obtain hzero | hlt := h
    · omega
    · exact ⟨hlt, List.nil_prefix⟩
  | read hin hbyte =>
    obtain rfl := Option.some.inj ho
    rw [hfilled.bytes] at hbyte ⊢
    exact ⟨h.1, prefix_of_byte h.2 hfilled.le hbyte⟩
  | readEnd => exact h.2
  | _ => trivial

/-- A program goes on with its object, or has just opened one. -/
theorem Move.object (hmove : Move S s i phase phase') {o : ι} (ho : phase'.object = some o) :
    phase.object = some o ∨
      ∃ path, S.program i = .shm_info path ∧ s.names path = some o ∧ phase' = .stating o := by
  cases hmove with
  | opens hi hname =>
    obtain rfl := Option.some.inj ho
    exact .inr ⟨_, hi, hname, rfl⟩
  | stat => exact .inl ho
  | view => exact .inl ho
  | read => exact .inl ho
  | readEnd => exact .inl ho
  | _ => exact absurd ho nofun

end

section
variable {S : Setup κ ι} {s t : State κ ι} {i : ι}

omit [DecidableEq κ] in
theorem goto_phase (s : State κ ι) (i : ι) (phase : Phase ι) (j : ι) :
    (s.goto i phase).phase j = if j = i then phase else s.phase j :=
  Function.update_apply ..

omit [DecidableEq κ] in
/-- A step of a creator, in its own object. -/
theorem Inv.of_creator {path : κ} {str : List Byte} {phase : Phase ι} {object : Object} {k : ℕ}
    (h : Inv S s) (hi : S.program i = .shm_create path str) (hnames : Holds (CreatedAs S) t.names)
    (hobject : t.object = Function.update s.object i object)
    (hphase : t.phase = Function.update s.phase i phase) (hnone : phase.object = none)
    (hfilled : Filled str phase object k) : Inv S t where
  names := hnames
  filled j path' str' hj := by
    rw [hobject, hphase]
    by_cases hji : j = i
    · subst hji
      rw [hi, Program.shm_create.injEq] at hj
      obtain ⟨-, rfl⟩ := hj
      rw [Function.update_self, Function.update_self]
      exact ⟨k, hfilled⟩
    · rw [Function.update_of_ne hji, Function.update_of_ne hji]
      exact h.filled j path' str' hj
  opened j o ho := by
    rw [hphase] at ho ⊢
    by_cases hji : j = i
    · rw [hji, Function.update_self, hnone] at ho
      exact absurd ho nofun
    · rw [Function.update_of_ne hji] at ho ⊢
      exact h.opened j o ho

omit [DecidableEq κ] in
theorem Inv.move (h : Inv S s) {phase : Phase ι} (hmove : Move S s i (s.phase i) phase) :
    Inv S (s.goto i phase) where
  names := h.names
  filled j path str hj := by
    obtain ⟨k, hk⟩ := h.filled j path str hj
    rw [goto_phase]
    split_ifs with hji
    · subst hji
      exact ⟨k, hk.move hj hmove⟩
    · exact ⟨k, hk⟩
  opened j o ho := by
    rw [goto_phase] at ho ⊢
    split_ifs at ho ⊢ with hji
    · subst hji
      obtain ho | ⟨path, hj, hname, rfl⟩ := hmove.object ho
      · obtain ⟨path, str, hj, hcreate, hseen⟩ := h.opened j o ho
        exact ⟨path, str, hj, hcreate, hseen.move hmove ho ⟨_, h.filled o path str hcreate⟩⟩
      · obtain ⟨str, hcreate⟩ := h.names path o hname
        exact ⟨path, str, hj, hcreate, trivial⟩
    · exact h.opened j o ho

theorem Inv.step (h : Inv S s) (hstep : Step S s i t) : Inv S t := by
  cases hstep with
  | move hmove => exact h.move hmove
  | @create path str hphase hi hfree =>
    obtain ⟨k, hk⟩ := h.filled i path str hi
    refine h.of_creator hi (h.names.bind ⟨str, hi⟩) (Function.update_eq_self i s.object).symm
      rfl rfl (k := k) ⟨hk.le, hk.bytes, hk.size, fun _ ↦ hk.early (.inl hphase), ?_, ?_⟩
    · intro m hm
      exact absurd hm nofun
    · intro hdone
      exact absurd hdone nofun
  | @truncate path str hphase hi =>
    obtain ⟨k, hk⟩ := h.filled i path str hi
    refine h.of_creator hi h.names rfl rfl rfl
      (k := k) ⟨hk.le, hk.bytes, .inr (S.le_sizeOf _),
        fun _ ↦ hk.early (.inr (.inl hphase)), ?_, ?_⟩
    · intro m hm
      exact absurd hm nofun
    · intro hdone
      exact absurd hdone nofun
  | @write path str k hphase hi =>
    obtain ⟨k', hk⟩ := h.filled i path str hi
    obtain ⟨rfl, hsize⟩ := hk.writing k hphase
    have hbytes : Function.update (s.object i).bytes k' (bytesOf str k') =
        bytesOf (str.take (k' + 1)) := by
      rw [hk.bytes, update_bytesOf]
    by_cases hlt : k' < str.length
    · rw [if_pos hlt]
      refine h.of_creator hi h.names rfl rfl rfl (k := k' + 1) ⟨hlt, hbytes, .inr hsize, ?_, ?_, ?_⟩
      · simp
      · intro m hm
        exact ⟨Phase.writing.inj hm, hsize⟩
      · intro hdone
        exact absurd hdone nofun
    · -- the zero at the end
      have hend : str.take (k' + 1) = str.take str.length := by
        rw [List.take_of_length_le (by omega), List.take_length]
      rw [if_neg hlt]
      refine h.of_creator hi h.names rfl rfl rfl (k := str.length)
        ⟨le_refl _, by rw [hbytes, hend], .inr hsize, ?_, ?_, fun _ ↦ ⟨rfl, hsize⟩⟩
      · simp
      · intro m hm
        exact absurd hm nofun
  | @unlink path hphase hi hbound =>
    have hother (j : ι) : (s.goto i (.exited 0)).phase j =
        if j = i then .exited 0 else s.phase j := goto_phase s i _ j
    refine ⟨h.names.unlink, fun j path' str hj ↦ ?_, fun j o ho ↦ ?_⟩
    · have hji : j ≠ i := by
        rintro rfl
        rw [hi] at hj
        exact absurd hj nofun
      rw [hother, if_neg hji]
      exact h.filled j path' str hj
    · rw [hother] at ho ⊢
      split_ifs at ho ⊢ with hji
      · exact absurd ho nofun
      · exact h.opened j o ho

omit [DecidableEq κ] [DecidableEq ι] in
/-- Nothing is written and nobody has anything open. -/
theorem inv_start (S : Setup κ ι) : Inv S (start κ ι) where
  names := holds_empty
  filled i path str hi := by
    refine ⟨0, Nat.zero_le _, rfl, .inl rfl, fun _ ↦ rfl, fun m hm ↦ ?_, fun hdone ↦ ?_⟩
    · exact absurd hm nofun
    · exact absurd hdone nofun
  opened i o ho := by exact absurd ho nofun

end

/-! ## What is shown -/

section
variable {S : Setup κ ι} {s t : State κ ι} {l m : List ι} {i o : ι} {path : κ} {str : List Byte}
  {contents : List Byte}

theorem inv_of_run (hr : Run (Step S) (start κ ι) l s) : Inv S s :=
  hr.invariant (fun _ _ _ h hstep ↦ h.step hstep) (inv_start S)

omit [DecidableEq κ] [DecidableEq ι] in
/-- A string without zeros is over where its object has a zero. -/
theorem eq_of_prefix_of_zero (hstr : 0 ∉ str) (h : contents <+: str)
    (hzero : bytesOf str contents.length = 0) : contents = str := by
  obtain ⟨rest, rfl⟩ := h
  cases rest with
  | nil => rw [List.append_nil]
  | cons b rest =>
    have hb : b = 0 := by simpa [bytesOf] using hzero
    exact absurd (by simp [hb]) hstr

/-- The creator of the object is done, and whoever has shown it since has shown all of it. -/
def Whole (i o : ι) (str : List Byte) (s : State κ ι) : Prop :=
  s.phase o = .exited 0 ∧ ∀ contents, s.phase i = .shown o contents → contents = str

/-- A program that is done takes no step, and one shows what it has read when it comes to a zero. -/
theorem Step.spec {j : ι} (h : Step S s j t) :
    s.phase j ≠ .exited 0 ∧ (∀ x ≠ j, t.phase x = s.phase x) ∧
      ∀ o contents, t.phase j = .shown o contents →
        (∃ st_size, s.phase j = .reading o st_size contents) ∧
          (s.object o).bytes contents.length = 0 := by
  have hothers {phase : Phase ι} : ∀ x ≠ j, (s.goto j phase).phase x = s.phase x :=
    fun x hx ↦ Function.update_of_ne hx ..
  have hself {phase : Phase ι} : (s.goto j phase).phase j = phase := Function.update_self ..
  cases h with
  | move hmove =>
    refine ⟨fun hdone ↦ ?_, hothers, fun o contents hshown ↦ ?_⟩
    · rw [hdone] at hmove
      exact absurd hmove nofun
    · rw [hself] at hshown
      subst hshown
      generalize hphase : s.phase j = phase at hmove
      cases hmove with
      | readEnd hin hbyte => exact ⟨⟨_, rfl⟩, hbyte⟩
  | create hphase | truncate hphase | unlink hphase =>
    refine ⟨fun hdone ↦ ?_, hothers, fun o contents hshown ↦ ?_⟩
    · rw [hphase] at hdone
      exact absurd hdone nofun
    · exact absurd (hself.symm.trans hshown) nofun
  | write hphase =>
    refine ⟨fun hdone ↦ ?_, hothers, fun o contents hshown ↦ ?_⟩
    · rw [hphase] at hdone
      exact absurd hdone nofun
    · have hshown := hself.symm.trans hshown
      split_ifs at hshown

theorem Whole.step (h : Inv S s) (hw : Whole i o str s) (ho : S.program o = .shm_create path str)
    {j : ι} (hstep : Step S s j t) : Whole i o str t := by
  obtain ⟨hbusy, hothers, hshown⟩ := hstep.spec
  have hjo : o ≠ j := by
    rintro rfl
    exact hbusy hw.1
  refine ⟨(hothers o hjo).trans hw.1, fun contents hphase ↦ ?_⟩
  by_cases hij : i = j
  · subst hij
    obtain ⟨⟨st_size, hreading⟩, hzero⟩ := hshown o contents hphase
    obtain ⟨k, hk⟩ := h.filled o path str ho
    obtain ⟨path', str', -, ho', hseen⟩ := h.opened i o (by rw [hreading]; rfl)
    rw [hreading] at hseen
    obtain ⟨-, rfl⟩ := Program.shm_create.inj (ho.symm.trans ho')
    rw [hk.bytes, (hk.done hw.1).1, List.take_length] at hzero
    exact eq_of_prefix_of_zero (S.nonzero o path str ho) hseen.2 hzero
  · exact hw.2 contents (by rw [← hothers i hij, hphase])

/-- **`shm_info` shows the beginning of what a `shm_create` with the same path was given**, all of
it if that one was done when `shm_info` began, and does not read behind the object, whatever other
programs do in between. -/
theorem shm_info_shows (hr : Run (Step S) (start κ ι) l s) (hr' : Run (Step S) s m t)
    (hi : S.program i = .shm_info path) :
    (∀ o st_size contents, t.phase i = .reading o st_size contents → contents.length < st_size) ∧
    (∀ o contents, t.phase i = .shown o contents →
      ∃ str, S.program o = .shm_create path str ∧ contents <+: str ∧
        (s.phase i = .opening → s.phase o = .exited 0 → contents = str)) := by
  have h := inv_of_run (hr.append hr')
  refine ⟨fun o st_size contents hphase ↦ ?_, fun o contents hphase ↦ ?_⟩
  · obtain ⟨path, str, -, -, hseen⟩ := h.opened i o (by rw [hphase]; rfl)
    rw [hphase] at hseen
    exact hseen.2.length_le.trans_lt hseen.1
  · obtain ⟨path', str, hi', ho, hseen⟩ := h.opened i o (by rw [hphase]; rfl)
    rw [hphase] at hseen
    obtain rfl := Program.shm_info.inj (hi.symm.trans hi')
    refine ⟨str, ho, hseen, fun hopening hdone ↦ ?_⟩
    have hwhole : Inv S t ∧ Whole i o str t :=
      hr'.invariant (I := fun s ↦ Inv S s ∧ Whole i o str s)
        (fun _ _ _ h hstep ↦ ⟨h.1.step hstep, h.2.step h.1 ho hstep⟩)
        ⟨inv_of_run hr, hdone, fun _ hshown ↦ by rw [hopening] at hshown; cases hshown⟩
    exact hwhole.2.2 contents hphase

end

/-! A name that is bound, unlinked and bound again, with one who looks while the string is still
being written, and one who looks when the name is another's. -/

inductive Player
  | first
  | early
  | late
  | unlinker
  | second
  deriving DecidableEq

/-- `first` writes `Hi!`, and `second` `No`. -/
def greeting : Setup Unit Player where
  program
    | .first => .shm_create () [72, 105, 33]
    | .early => .shm_info ()
    | .late => .shm_info ()
    | .unlinker => .shm_unlink ()
    | .second => .shm_create () [78, 111]
  nonzero i path str h := by
    cases i with
    | first =>
      obtain ⟨-, rfl⟩ := Program.shm_create.inj h
      decide
    | second =>
      obtain ⟨-, rfl⟩ := Program.shm_create.inj h
      decide
    | early => cases h
    | late => cases h
    | unlinker => cases h
  sizeOf n := n
  le_sizeOf n := le_refl n

/-- `early` comes to the end of what is written before `first` has written the last letter. -/
def greetingWritten : List Player :=
  [.first, .first, .first, .first, .early, .early, .early, .early, .first, .early, .early, .first,
    .first]

/-- `late` opens the object, and reads it when the name is another's. -/
def greetingRead : List Player :=
  [.late, .unlinker, .late, .second, .second, .late, .late, .second, .second, .late, .late, .late]

theorem run_greeting : ∃ s t, Run (Step greeting) (start Unit Player) greetingWritten s ∧
    Run (Step greeting) s greetingRead t ∧ s.phase .late = .opening ∧
      s.phase .first = .exited 0 ∧ t.phase .early = .shown .first [72, 105] ∧
      t.phase .late = .shown .first [72, 105, 33] ∧ t.names () = some .second := by
  refine ⟨_, _, .cons (.create rfl rfl rfl) <| .cons (.truncate rfl rfl) <|
    .cons (.move (.map rfl (by decide))) <| .cons (.write rfl rfl) <|
    .cons (.move (.opens rfl rfl)) <| .cons (.move .stat) <| .cons (.move (.view (by decide))) <|
    .cons (.move (.read (by decide) (by decide))) <| .cons (.write rfl rfl) <|
    .cons (.move (.read (by decide) (by decide))) <|
    .cons (.move (.readEnd (by decide) (by decide))) <| .cons (.write rfl rfl) <|
    .single (.write rfl rfl),
    .cons (.move (.opens rfl rfl)) <| .cons (.unlink rfl rfl rfl) <| .cons (.move .stat) <|
    .cons (.create rfl rfl rfl) <| .cons (.truncate rfl rfl) <|
    .cons (.move (.view (by decide))) <| .cons (.move (.read (by decide) (by decide))) <|
    .cons (.move (.map rfl (by decide))) <| .cons (.write rfl rfl) <|
    .cons (.move (.read (by decide) (by decide))) <|
    .cons (.move (.read (by decide) (by decide))) <|
    .single (.move (.readEnd (by decide) (by decide))),
    rfl, rfl, rfl, rfl, rfl⟩

theorem shm_info_shows_greeting : ∃ s t,
    Run (Step greeting) (start Unit Player) greetingWritten s ∧
    Run (Step greeting) s greetingRead t ∧ t.names () = some .second ∧
    (∃ contents, t.phase .early = .shown .first contents ∧
      ∃ str, greeting.program .first = .shm_create () str ∧ contents <+: str) ∧
    ∃ contents, t.phase .late = .shown .first contents ∧
      ∃ str, greeting.program .first = .shm_create () str ∧ contents = str := by
  obtain ⟨s, t, hr, hr', hopening, hdone, hearly, hlate, hsecond⟩ := run_greeting
  obtain ⟨str, hstr, hprefix, -⟩ := (shm_info_shows hr hr' rfl).2 .first [72, 105] hearly
  obtain ⟨str', hstr', -, hall⟩ := (shm_info_shows hr hr' rfl).2 .first [72, 105, 33] hlate
  exact ⟨s, t, hr, hr', hsecond, ⟨_, hearly, str, hstr, hprefix⟩,
    _, hlate, str', hstr', hall hopening hdone⟩

end PosixShm
end MacOSXInternal
