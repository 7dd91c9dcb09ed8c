import Mathlib.Data.UInt

/-!
# Numbers of two bytes

The way in which numbers of sixteen bits are laid out in packets and in files.
-/
namespace DataFormats

/-- `write_uint16`, the low byte first. -/
def writeUint16 (v : UInt16) : List UInt8 := [(v &&& 0xff).toUInt8, (v >>> 8 &&& 0xff).toUInt8]

/-- `read_uint16`; its loop takes the bytes from the last one down. -/
def readUint16 (o : List UInt8) : UInt16 := o.foldr (fun b v => v <<< 8 ||| b.toUInt16) 0

@[simp] theorem writeUint16_length : (writeUint16 v).length = 2 := rfl

theorem readUint16_pair : (readUint16 [a, b]).toNat = a.toNat + 256 * b.toNat := by
  have ha := a.toNat_lt
  have hb := b.toNat_lt
  have hshf : b.toNat <<< 8 % 65536 = b.toNat <<< 8 := by omega
  have hread : (readUint16 [a, b]).toNat = b.toNat <<< 8 % 65536 ||| a.toNat := by simp [readUint16]
  rw [hread, hshf, ← Nat.shiftLeft_add_eq_or_of_lt ha, Nat.shiftLeft_eq]
  omega

/-- A number is read back as it was written. -/
theorem readUint16_writeUint16 (v : UInt16) : readUint16 (writeUint16 v) = v := by
  have hv := v.toNat_lt
  have hmask : ∀ n : Nat, n &&& 255 = n % 256 := fun n => Nat.and_two_pow_sub_one_eq_mod n 8
  have hlow : (v &&& 0xff).toUInt8.toNat = v.toNat % 256 := by simp [hmask]
  have hhigh : (v >>> 8 &&& 0xff).toUInt8.toNat = v.toNat / 256 := by
    simp only [UInt16.toNat_toUInt8, UInt16.toNat_and, UInt16.toNat_shiftRight, UInt16.reduceToNat,
      hmask, Nat.shiftRight_eq_div_pow, Nat.reduceMod, Nat.reducePow]
    omega
  apply UInt16.toNat_inj.mp
  rw [writeUint16, readUint16_pair, hlow, hhigh]
  omega

end DataFormats
