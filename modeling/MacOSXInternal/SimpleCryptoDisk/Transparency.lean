import MacOSXInternal.SimpleCryptoDisk.Driver

/-!
# SimpleCryptoDisk is a transparent filter

A client that issues one request after another through the filter cannot tell it from a plain disk.
`Ideal` is that plain disk, together with the client's buffers; `Filtered` is the driver in front of
a provider that stores what it is handed and returns it.  The two agree (`Agrees`) when the buffers
are the same and each byte of the provider is the complement of the plain disk's.

* `Agrees.request` is the simulation step: a request through the filter takes agreeing states to
  agreeing states.  It rests on `submit_spec` and `complete_eq`, and on the two lemmas that say the
  block loops complement every byte, so the byte order does not appear in it.
* `transparent` is the result for sequences of requests.
-/

set_option autoImplicit false

namespace MacOSXInternal
namespace SimpleCryptoDisk

open Splice

/-! ## A plain disk -/

/-- A byte-addressed disk. -/
abbrev Disk := ℕ → Byte

namespace Disk

/-- The `length` bytes from `start` on. -/
def range (d : Disk) (start length : ℕ) : List Byte := (List.range length).map fun i ↦ d (start + i)

/-- The disk with `bytes` written from `start` on. -/
def overwrite (d : Disk) (start : ℕ) (bytes : List Byte) : Disk := fun x ↦
  if x < start then d x else (bytes[x - start]?).getD (d x)

/-- Each byte complemented. -/
def complement (d : Disk) : Disk := fun x ↦ ~~~ d x

@[simp] theorem length_range (d : Disk) (start length : ℕ) :
    (d.range start length).length = length := by
  simp [range]

theorem complement_complement (d : Disk) : d.complement.complement = d := by
  funext x
  simp [complement]

theorem map_range_complement (d : Disk) (start length : ℕ) :
    (d.complement.range start length).map (~~~ ·) = d.range start length := by
  simp [range, complement]

theorem complement_overwrite (d : Disk) (start : ℕ) (bytes : List Byte) :
    d.complement.overwrite start (bytes.map (~~~ ·)) = (d.overwrite start bytes).complement := by
  funext x
  simp only [overwrite, complement, List.getElem?_map]
  by_cases hx : x < start
  · simp [hx]
  · cases bytes[x - start]? <;> simp [hx]

/-- What has just been written is what is read. -/
theorem range_overwrite (d : Disk) (start : ℕ) (bytes : List Byte) :
    (d.overwrite start bytes).range start bytes.length = bytes := by
  refine List.ext_getElem (by simp) fun i h₁ h₂ ↦ ?_
  simp [range, overwrite, h₂]

end Disk

/-- A request, and what the client puts into its buffer beforehand. -/
structure Prepared where
  request : Request
  contents : List Byte

/-- A plain disk and the client's buffers. -/
structure Ideal where
  disk : Disk
  buffer : ℕ → List Byte

/-- What a plain disk does. -/
def Ideal.request (s : Ideal) (q : Prepared) : Ideal :=
  match q.request.direction with
  | .read =>
    { s with
      buffer := Function.update s.buffer q.request.buffer
        (s.disk.range q.request.byteStart q.contents.length) }
  | .write =>
    { disk := s.disk.overwrite q.request.byteStart q.contents
      buffer := Function.update s.buffer q.request.buffer q.contents }

/-! ## The filter and its provider -/

/-- The driver and the provider's disk. -/
structure Filtered where
  kernel : Kernel
  disk : Disk

/-- `kIOReturnSuccess`. -/
def kIOReturnSuccess : BitVec 32 := 0

/-- A request through the filter, which the provider completes successfully and in full. -/
def Filtered.transact (s : Filtered) (r : Request) : Option Filtered := do
  let (k, h) ← submit s.kernel r
  let (old, _) ← k.contents h.buffer
  let (k, disk) ← match h.direction with
    | .read => do
      let k ← fill k h (s.disk.range h.byteStart old.length)
      some (k, s.disk)
    | .write => do
      let (bytes, k) ← fetch k h
      some (k, s.disk.overwrite h.byteStart bytes)
  let k ← complete k h kIOReturnSuccess (BitVec.ofNat 64 old.length)
  some ⟨k, disk⟩

/-- The client prepares its buffer and issues the request. -/
def Filtered.request (s : Filtered) (q : Prepared) : Option Filtered :=
  Filtered.transact ⟨s.kernel.setBuffer q.request.buffer q.contents, s.disk⟩ q.request

/-- A sequence of requests, one after another. -/
def Filtered.requests : Filtered → List Prepared → Option Filtered
  | s, [] => some s
  | s, q :: qs => (s.request q).bind (·.requests qs)

/-- The client sees the same, and the provider stores complements. -/
structure Agrees (s : Filtered) (i : Ideal) : Prop where
  buffer : s.kernel.buffer = i.buffer
  disk : s.disk = i.disk.complement

/-! ## The simulation -/

/-- What a read through the filter leaves behind. -/
theorem Filtered.transact_read (s : Filtered) {r : Request} (hr : r.direction = .read)
    (hd : 512 ∣ (s.kernel.buffer r.buffer).length) :
    ∃ t, s.transact r = some t ∧ t.disk = s.disk ∧
      t.kernel.buffer = Function.update s.kernel.buffer r.buffer
        ((s.disk.range r.byteStart (s.kernel.buffer r.buffer).length).map (~~~ ·)) := by
  obtain ⟨k, hsub, hheld, -, -, hbuf, -, -, -⟩ := submit_spec s.kernel r
  obtain ⟨bytes, hbytes⟩ :
      ∃ b, b = s.disk.range r.byteStart (s.kernel.buffer r.buffer).length := ⟨_, rfl⟩
  have hlen : bytes.length = (s.kernel.buffer r.buffer).length := by simp [hbytes]
  have hcontents : k.contents (handover s.kernel.this r s.kernel.next).buffer =
      some (s.kernel.buffer r.buffer, k.log (.buffer r.buffer)) := by
    simp [handover, hr, Kernel.contents, hbuf]
  have hfill : fill k (handover s.kernel.this r s.kernel.next) bytes =
      some (afterTransfer k r s.kernel.next bytes) := by
    rw [fill_eq k hr, hbuf, splice_zero, ← hlen, List.take_length, hlen, List.drop_length,
      List.append_nil]
  have hcomplete := complete_eq (k := afterTransfer k r s.kernel.next bytes) hheld s.kernel.this
    kIOReturnSuccess (BitVec.ofNat 64 (s.kernel.buffer r.buffer).length)
  refine ⟨⟨afterCompletion (afterTransfer k r s.kernel.next bytes) r s.kernel.next
    kIOReturnSuccess (BitVec.ofNat 64 (s.kernel.buffer r.buffer).length), s.disk⟩, ?_, rfl, ?_⟩
  · rw [Filtered.transact, hsub]
    simp only [Option.bind_eq_bind, Option.bind_some, hcontents, handover_direction, hr,
      handover_byteStart, ← hbytes, hfill, hcomplete]
  · have hfix : fixBufferUserRead k.order bytes = _ :=
      fixBufferUserRead_of_dvd k.order (by rwa [hlen])
    simp [afterCompletion, afterTransfer, hr, hbuf, ← hbytes, hfix]

/-- What a write through the filter leaves behind. -/
theorem Filtered.transact_write (s : Filtered) {r : Request} (hr : r.direction = .write)
    (hd : 512 ∣ (s.kernel.buffer r.buffer).length) :
    ∃ t, s.transact r = some t ∧ t.kernel.buffer = s.kernel.buffer ∧
      t.disk = s.disk.overwrite r.byteStart ((s.kernel.buffer r.buffer).map (~~~ ·)) := by
  obtain ⟨k, hsub, hheld, -, -, hbuf, -, -, -⟩ := submit_spec s.kernel r
  have hlen := length_encrypted s.kernel r
  obtain ⟨k', hcontents⟩ : ∃ k', k.contents (handover s.kernel.this r s.kernel.next).buffer =
      some (encrypted s.kernel r, k') := ⟨_, fetch_eq hr hheld s.kernel.this⟩
  have hfetch := fetch_eq hr hheld s.kernel.this
  have hcomplete := complete_eq (k := afterTransfer k r s.kernel.next (k.buffer r.buffer)) hheld
    s.kernel.this kIOReturnSuccess (BitVec.ofNat 64 (encrypted s.kernel r).length)
  refine ⟨⟨afterCompletion (afterTransfer k r s.kernel.next (k.buffer r.buffer)) r s.kernel.next
    kIOReturnSuccess (BitVec.ofNat 64 (encrypted s.kernel r).length),
    s.disk.overwrite r.byteStart (encrypted s.kernel r)⟩, ?_, ?_, ?_⟩
  · rw [Filtered.transact, hsub]
    simp only [Option.bind_eq_bind, Option.bind_some, hcontents, handover_direction, hr,
      handover_byteStart, hfetch, hcomplete]
  · simp [afterCompletion, afterTransfer, hr, hbuf]
  · rw [encrypted, fixBufferUserWrite_of_dvd _ (Kernel.length_garbage ..).symm hd]

/-- **The simulation step.** -/
theorem Agrees.request {s : Filtered} {i : Ideal} (h : Agrees s i) {q : Prepared}
    (hq : 512 ∣ q.contents.length) : ∃ t, s.request q = some t ∧ Agrees t (i.request q) := by
  have hd : 512 ∣ ((s.kernel.setBuffer q.request.buffer q.contents).buffer
      q.request.buffer).length := by simpa using hq
  cases hr : q.request.direction with
  | read =>
    obtain ⟨t, ht, hdisk, hbuf⟩ := Filtered.transact_read ⟨_, s.disk⟩ hr hd
    refine ⟨t, ht, ?_, ?_⟩
    · rw [hbuf]
      simp [Ideal.request, hr, h.buffer, h.disk, Disk.map_range_complement]
    · rw [hdisk, h.disk]
      simp [Ideal.request, hr]
  | write =>
    obtain ⟨t, ht, hbuf, hdisk⟩ := Filtered.transact_write ⟨_, s.disk⟩ hr hd
    refine ⟨t, ht, ?_, ?_⟩
    · rw [hbuf]
      simp [Ideal.request, hr, h.buffer]
    · rw [hdisk]
      simp [Ideal.request, hr, h.disk, Disk.complement_overwrite]

theorem Agrees.requests {s : Filtered} {i : Ideal} (h : Agrees s i) {qs : List Prepared}
    (hqs : ∀ q ∈ qs, 512 ∣ q.contents.length) :
    ∃ t, s.requests qs = some t ∧ Agrees t (qs.foldl Ideal.request i) := by
  induction qs generalizing s i with
  | nil => exact ⟨s, rfl, h⟩
  | cons q qs ih =>
    obtain ⟨u, hu, hag⟩ := h.request (hqs q (List.mem_cons_self ..))
    obtain ⟨t, ht, hag'⟩ := ih hag fun q' hq' ↦ hqs q' (List.mem_cons_of_mem _ hq')
    exact ⟨t, by rw [Filtered.requests, hu, Option.bind_some, ht], hag'⟩

/-- **Transparency.**  After any sequence of requests through the filter the client's buffers are
those of a plain disk that began with the complements of the provider's bytes, and the provider's
bytes are the complements of that disk's.  A further read leaves in the client's buffer what the
plain disk has there, and a further write leaves the client's buffer as the client prepared it. -/
theorem transparent (k : Kernel) (disk : Disk) (qs : List Prepared) (q : Prepared)
    (hqs : ∀ q' ∈ qs ++ [q], 512 ∣ q'.contents.length) :
    ∃ s t, Filtered.requests ⟨k, disk⟩ qs = some s ∧ s.request q = some t ∧
      Agrees s (qs.foldl Ideal.request ⟨disk.complement, k.buffer⟩) ∧
      Agrees t ((qs ++ [q]).foldl Ideal.request ⟨disk.complement, k.buffer⟩) ∧
      t.kernel.buffer = Function.update s.kernel.buffer q.request.buffer
        (match q.request.direction with
          | .read => (qs.foldl Ideal.request ⟨disk.complement, k.buffer⟩).disk.range
              q.request.byteStart q.contents.length
          | .write => q.contents) := by
  have h₀ : Agrees ⟨k, disk⟩ ⟨disk.complement, k.buffer⟩ :=
    ⟨rfl, disk.complement_complement.symm⟩
  have hqs' (q' : Prepared) (hq' : q' ∈ qs) : 512 ∣ q'.contents.length := hqs q' (by simp [hq'])
  obtain ⟨s, hs, hag⟩ := h₀.requests hqs'
  obtain ⟨t, ht, hag'⟩ := hag.request (q := q) (hqs q (by simp))
  refine ⟨s, t, hs, ht, hag, by simpa using hag', ?_⟩
  rw [hag'.buffer, hag.buffer]
  cases hr : q.request.direction <;> simp [Ideal.request, hr]

/-- A block written through the filter comes back. -/
theorem transparent_writeRead :
    ∃ s t, Filtered.requests
        ⟨⟨.little, 0, fun _ _ ↦ 0, fun _ ↦ none, 0, fun _ ↦ [], []⟩, fun _ ↦ 0⟩
        [⟨⟨.write, 1024, 0, ⟨none, 0, 0⟩⟩, List.replicate 512 0xaa⟩] = some s ∧
      s.request ⟨⟨.read, 1024, 1, ⟨none, 0, 0⟩⟩, List.replicate 512 0⟩ = some t ∧
      t.kernel.buffer 1 = List.replicate 512 0xaa := by
  obtain ⟨s, t, hs, ht, -, -, hbuf⟩ := transparent
    ⟨.little, 0, fun _ _ ↦ 0, fun _ ↦ none, 0, fun _ ↦ [], []⟩ (fun _ ↦ 0)
    [⟨⟨.write, 1024, 0, ⟨none, 0, 0⟩⟩, List.replicate 512 0xaa⟩]
    ⟨⟨.read, 1024, 1, ⟨none, 0, 0⟩⟩, List.replicate 512 0⟩ (by
      intro q hq
      rcases List.mem_append.mp hq with h | h <;>
        rw [List.mem_singleton.mp h, List.length_replicate])
  refine ⟨s, t, hs, ht, ?_⟩
  have hrange := Disk.range_overwrite (Disk.complement fun _ ↦ 0) 1024 (List.replicate 512 0xaa)
  rw [List.length_replicate] at hrange
  rw [hbuf, Function.update_self]
  simp only [List.length_replicate]
  exact hrange

end SimpleCryptoDisk
end MacOSXInternal
