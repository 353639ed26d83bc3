import MacOSXInternal.SimpleCryptoDisk.Driver

/-!
# Reads that the provider does not complete in full

The completion routine is told a status and the number of bytes transferred.  It passes both on to
the client, but decrypts the whole buffer first, so the bytes that the provider did not store are
complemented as well (`shortRead_eq`).
-/

set_option autoImplicit false

namespace MacOSXInternal
namespace SimpleCryptoDisk

open Splice

/-- A client issues a request, the provider overwrites the first bytes of the buffer with `stored`
and completes the request. -/
def shortRead (k : Kernel) (r : Request) (stored : List Byte) (status : BitVec 32)
    (actualByteCount : BitVec 64) : Option Kernel := do
  let (k, h) ← submit k r
  let k ← fill k h stored
  complete k h status actualByteCount

/-- What a client may expect of its buffer: the bytes stored are decrypted, the others are what they
were.  The client's routine is the last thing that is run, so it sees the buffer as it is in the
end. -/
structure Unscrambled (k : Kernel) (r : Request) (stored : List Byte) (status : BitVec 32)
    (actualByteCount : BitVec 64) (k' : Kernel) : Prop where
  buffer : k'.buffer r.buffer =
    stored.map (~~~ ·) ++ (k.buffer r.buffer).drop actualByteCount.toNat
  answered : (r.answer status actualByteCount).map .call <:+ k'.events

variable {k : Kernel} {r : Request} {stored : List Byte}

/-- **What a read leaves behind**: the bytes stored and the others, all of them complemented. -/
theorem shortRead_eq (hr : r.direction = .read) (hd : 512 ∣ (k.buffer r.buffer).length)
    (hlen : stored.length ≤ (k.buffer r.buffer).length) (status : BitVec 32)
    (actualByteCount : BitVec 64) :
    ∃ k', shortRead k r stored status actualByteCount = some k' ∧
      k'.buffer r.buffer =
        stored.map (~~~ ·) ++ ((k.buffer r.buffer).drop stored.length).map (~~~ ·) ∧
      (r.answer status actualByteCount).map .call <:+ k'.events := by
  obtain ⟨k₁, hsub, hheld, -, -, hbuf, -, -, -⟩ := submit_spec k r
  have hfill : fill k₁ (handover k.this r k.next) stored = some (afterTransfer k₁ r k.next
      (stored ++ (k.buffer r.buffer).drop stored.length)) := by
    rw [fill_eq k₁ hr, hbuf, List.take_of_length_le hlen, splice_zero]
  have hcomplete := complete_eq (k := afterTransfer k₁ r k.next
    (stored ++ (k.buffer r.buffer).drop stored.length)) hheld k.this status actualByteCount
  have hlen' : (stored ++ (k.buffer r.buffer).drop stored.length).length =
      (k.buffer r.buffer).length := by
    rw [List.length_append, List.length_drop]
    omega
  refine ⟨afterCompletion (afterTransfer k₁ r k.next
    (stored ++ (k.buffer r.buffer).drop stored.length)) r k.next status actualByteCount, ?_, ?_, ?_⟩
  · simp only [shortRead, hsub, Option.bind_eq_bind, Option.bind_some, hfill, hcomplete]
  · have hfix := fixBufferUserRead_of_dvd k₁.order (hlen'.symm ▸ hd)
    simp only [afterCompletion, hr, afterTransfer, Function.update_self, hfix, List.map_append]
  · exact ⟨_, (List.append_assoc ..)⟩

theorem map_complement_eq_self {l : List Byte} : l.map (~~~ ·) = l ↔ l = [] := by
  constructor
  · intro h
    cases l with
    | nil => rfl
    | cons x l =>
      have hx : ~~~ x = x := (List.cons.inj h).1
      exact absurd hx (by bv_omega)
  · rintro rfl
    rfl

/-- **A read leaves the client's buffer unscrambled when and only when it is complete.** -/
theorem unscrambled_iff (hr : r.direction = .read) (hd : 512 ∣ (k.buffer r.buffer).length)
    {actualByteCount : BitVec 64} (hstored : stored.length = actualByteCount.toNat)
    (hle : actualByteCount.toNat ≤ (k.buffer r.buffer).length) (status : BitVec 32) :
    (∃ k', shortRead k r stored status actualByteCount = some k' ∧
      Unscrambled k r stored status actualByteCount k') ↔
      actualByteCount.toNat = (k.buffer r.buffer).length := by
  obtain ⟨k₁, hk₁, hbuf, hans⟩ := shortRead_eq hr hd (hstored ▸ hle) status actualByteCount
  have hrest : k₁.buffer r.buffer =
      stored.map (~~~ ·) ++ (k.buffer r.buffer).drop actualByteCount.toNat ↔
      actualByteCount.toNat = (k.buffer r.buffer).length := by
    rw [hbuf, hstored, List.append_cancel_left_eq, map_complement_eq_self, List.drop_eq_nil_iff]
    omega
  constructor
  · rintro ⟨k', hk', h⟩
    obtain rfl : k₁ = k' := Option.some.inj (hk₁.symm.trans hk')
    exact hrest.mp h.buffer
  · intro h
    exact ⟨k₁, hk₁, hrest.mpr h, hans⟩

/-- A kernel with one client buffer, of one block. -/
def oneBlock (bytes : List Byte) : Kernel :=
  ⟨.big, 0, fun _ _ ↦ 0, fun _ ↦ none, 0, fun _ ↦ bytes, []⟩

/-- A complete read of a block. -/
theorem unscrambled_complete :
    ∃ k', shortRead (oneBlock (List.replicate 512 0)) ⟨.read, 0, 0, ⟨some (.client 0), 0, 0⟩⟩
        (List.replicate 512 0xaa) 0 512 = some k' ∧
      Unscrambled (oneBlock (List.replicate 512 0)) ⟨.read, 0, 0, ⟨some (.client 0), 0, 0⟩⟩
        (List.replicate 512 0xaa) 0 512 k' := by
  have hlen : (List.replicate 512 (0 : Byte)).length = 512 := List.length_replicate
  have hstored : (List.replicate 512 (0xaa : Byte)).length = (512 : BitVec 64).toNat :=
    List.length_replicate
  have h := unscrambled_iff (k := oneBlock (List.replicate 512 0))
    (r := ⟨.read, 0, 0, ⟨some (.client 0), 0, 0⟩⟩) rfl (Dvd.intro 1 hlen.symm) hstored hlen.ge 0
  exact h.mpr hlen.symm

/-- A read that fails with `kIOReturnError` before the first byte. -/
theorem not_unscrambled_error :
    ¬ ∃ k', shortRead (oneBlock (List.replicate 512 0)) ⟨.read, 0, 0, ⟨some (.client 0), 0, 0⟩⟩
        [] 0xe00002bc 0 = some k' ∧
      Unscrambled (oneBlock (List.replicate 512 0)) ⟨.read, 0, 0, ⟨some (.client 0), 0, 0⟩⟩
        [] 0xe00002bc 0 k' := by
  rintro ⟨k', hk', h⟩
  have hlen : (List.replicate 512 (0 : Byte)).length = 512 := List.length_replicate
  -- every byte of the block has become 0xff
  have hnone : ([] : List Byte).length ≤ (List.replicate 512 (0 : Byte)).length := Nat.zero_le _
  obtain ⟨k₁, hk₁, hbuf, -⟩ := shortRead_eq (k := oneBlock (List.replicate 512 0))
    (r := ⟨.read, 0, 0, ⟨some (.client 0), 0, 0⟩⟩) rfl (Dvd.intro 1 hlen.symm) hnone 0xe00002bc 0
  obtain rfl : k₁ = k' := Option.some.inj (hk₁.symm.trans hk')
  have hbuf' := hbuf.symm.trans h.buffer
  have hnil : List.replicate 512 (0 : Byte) = [] := map_complement_eq_self.mp hbuf'
  have hzero : 512 = 0 := hlen.symm.trans (congrArg List.length hnil)
  exact absurd hzero (by decide)

end SimpleCryptoDisk
end MacOSXInternal
