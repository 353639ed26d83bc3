import MacOSXInternal.Lib.ByteOrder
import MacOSXInternal.Lib.Splice

/-!
# The block loops of SimpleCryptoDisk

`fixBufferUserRead` and `fixBufferUserWrite` go through a buffer in blocks of 512 bytes, view each
block as 64 integers of 64 bits, and replace every integer by its complement.  This file translates
both loops, with the byte order of the machine as a parameter, and says what they do to the bytes.

* `fixBufferUserRead_eq` and `fixBufferUserWrite_eq`: every byte of every whole block is
  complemented, in either byte order.
* `fixBufferUserRead_of_dvd` and `fixBufferUserWrite_of_dvd`: with a length that the `assert` of the
  two functions lets through, this is the whole buffer.

The assertions themselves are compiled out of a release kernel, so the loops are translated without
them: the bytes behind the last whole block are left as they are.
-/

set_option autoImplicit false

namespace MacOSXInternal
namespace SimpleCryptoDisk

open Splice

/-! ## The loops -/

/-- `buffer->readBytes(offset, bytes, length)`, for a range inside the buffer. -/
def readBytes (buffer : List Byte) (offset length : ℕ) : List Byte := chunk buffer offset length

/-- `buffer->writeBytes(offset, bytes, length)`, for a range inside the buffer. -/
def writeBytes (buffer : List Byte) (offset : ℕ) (bytes : List Byte) : List Byte :=
  splice buffer offset bytes

/-- `~w` for a `UInt64` that lies in memory as the bytes `w`. -/
def complementWord (o : ByteOrder) (w : List Byte) : List Byte :=
  o.encode 8 (~~~ BitVec.ofNat 64 (o.decode w)).toNat

/-- `for (j = 0; j < 64; j++) byteBlock[j] = ~(byteBlock[j]);` -/
def complementBlock (o : ByteOrder) (byteBlock : List Byte) : List Byte :=
  (List.range 64).foldl
    (fun b j ↦ splice b (j * 8) (complementWord o (chunk b (j * 8) 8))) byteBlock

/-- What `fixBufferUserRead` leaves in `buffer`. -/
def fixBufferUserRead (o : ByteOrder) (buffer : List Byte) : List Byte :=
  (List.range (buffer.length / 512)).foldl
    (fun b i ↦ writeBytes b (i * 512) (complementBlock o (readBytes b (i * 512) 512))) buffer

/-- What `fixBufferUserWrite` leaves in `bufferW`. -/
def fixBufferUserWrite (o : ByteOrder) (bufferR bufferW : List Byte) : List Byte :=
  (List.range (bufferR.length / 512)).foldl
    (fun b i ↦ writeBytes b (i * 512) (complementBlock o (readBytes bufferR (i * 512) 512))) bufferW

/-! ## What they do -/

theorem complementWord_eq (o : ByteOrder) (w : List Byte) (h : w.length = 8) :
    complementWord o w = w.map (~~~ ·) := by
  have hlt := o.decode_lt w
  have hnot : (~~~ BitVec.ofNat 64 (o.decode w)).toNat = 256 ^ 8 - 1 - o.decode w := by
    rw [h] at hlt
    rw [BitVec.toNat_not, BitVec.toNat_ofNat, Nat.mod_eq_of_lt (by omega)]
    omega
  rw [complementWord, hnot, o.encode_compl_decode h]

theorem complementBlock_eq (o : ByteOrder) (b : List Byte) (h : b.length = 512) :
    complementBlock o b = b.map (~~~ ·) := by
  have hfold := foldl_splice_inPlace (complementWord_eq o) b 64 (by omega)
  rw [complementBlock, hfold, List.take_of_length_le (by omega), List.drop_of_length_le (by omega),
    List.append_nil]

/-- **The read loop** complements the bytes of the whole blocks. -/
theorem fixBufferUserRead_eq (o : ByteOrder) (buffer : List Byte) :
    fixBufferUserRead o buffer =
      (buffer.take (buffer.length / 512 * 512)).map (~~~ ·) ++
        buffer.drop (buffer.length / 512 * 512) :=
  foldl_splice_inPlace (complementBlock_eq o) buffer _ (Nat.div_mul_le_self ..)

/-- **The write loop** complements the bytes of the whole blocks on the way to `bufferW`. -/
theorem fixBufferUserWrite_eq (o : ByteOrder) {bufferR bufferW : List Byte}
    (h : bufferR.length = bufferW.length) :
    fixBufferUserWrite o bufferR bufferW =
      (bufferR.take (bufferR.length / 512 * 512)).map (~~~ ·) ++
        bufferW.drop (bufferR.length / 512 * 512) :=
  foldl_splice_copy (complementBlock_eq o) bufferR bufferW _ (Nat.div_mul_le_self ..)
    (h ▸ Nat.div_mul_le_self ..)

theorem fixBufferUserRead_of_dvd (o : ByteOrder) {buffer : List Byte} (h : 512 ∣ buffer.length) :
    fixBufferUserRead o buffer = buffer.map (~~~ ·) := by
  rw [fixBufferUserRead_eq, Nat.div_mul_cancel h, List.take_length, List.drop_length,
    List.append_nil]

theorem fixBufferUserWrite_of_dvd (o : ByteOrder) {bufferR bufferW : List Byte}
    (h : bufferR.length = bufferW.length) (hd : 512 ∣ bufferR.length) :
    fixBufferUserWrite o bufferR bufferW = bufferR.map (~~~ ·) := by
  rw [fixBufferUserWrite_eq o h, Nat.div_mul_cancel hd, List.take_length, h, List.drop_length,
    List.append_nil]

@[simp] theorem length_fixBufferUserWrite (o : ByteOrder) {bufferR bufferW : List Byte}
    (h : bufferR.length = bufferW.length) :
    (fixBufferUserWrite o bufferR bufferW).length = bufferW.length := by
  have h' := Nat.div_mul_le_self bufferR.length 512
  rw [fixBufferUserWrite_eq o h, List.length_append, List.length_map, List.length_take,
    List.length_drop]
  omega

end SimpleCryptoDisk
end MacOSXInternal
