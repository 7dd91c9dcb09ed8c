import ServalDna.ByteNumber
import ServalDna.KeyStream

/-!
# Encryption of Rhizome payloads

A payload is encrypted in pages with XSalsa20. The nonce of a page is the nonce
of the payload plus the offset of the page in the stream, as a big-endian number
of 24 bytes. `xsalsa20 nonce key i` stands for byte `i` of the key stream that
belongs to `nonce` and `key`.
-/
namespace RhizomeCrypt

open ByteNumber KeyStream List

def pageSize : Nat := 4096

/-- `add_nonce`: the last byte is the least significant one. -/
def addNonce (nonce : List UInt8) (value : Nat) : List UInt8 := (addCarry nonce.reverse value).reverse

variable (xsalsa20 : List UInt8 → List UInt8 → Nat → UInt8)

/-- The loop of `rhizome_crypt_xor_block` over whole pages. -/
def xorPages (key nonce : List UInt8) (buffer : List UInt8) : List UInt8 :=
  if buffer = [] then []
  else
    xorFrom (xsalsa20 nonce key) 0 (buffer.take pageSize) ++
      xorPages key (addNonce nonce pageSize) (buffer.drop pageSize)
termination_by buffer.length
decreasing_by
  rename_i h
  have hpos := length_pos_iff.mpr h
  simp only [length_drop, pageSize]
  omega

/-- `rhizome_crypt_xor_block`. A block that begins inside a page is first moved to
its place in a page of its own, after `padding` bytes that do not matter. -/
def cryptXorBlock (buffer : List UInt8) (streamOffset : Nat) (key nonce : List UInt8) : List UInt8 :=
  let nonceOffset := streamOffset - streamOffset % pageSize
  let blockNonce := addNonce nonce nonceOffset
  if nonceOffset < streamOffset then
    let padding := streamOffset % pageSize
    let size := min (pageSize - padding) buffer.length
    let temp := List.replicate padding 0 ++ buffer.take size
    (xorFrom (xsalsa20 blockNonce key) 0 temp).drop padding ++
      xorPages xsalsa20 key (addNonce blockNonce pageSize) (buffer.drop size)
  else xorPages xsalsa20 key blockNonce buffer

/-- Byte `position` of the key stream of a whole payload. -/
def keyByte (key nonce : List UInt8) (position : Nat) : UInt8 :=
  xsalsa20 (addNonce nonce (position - position % pageSize)) key (position % pageSize)

theorem addNonce_addNonce : addNonce (addNonce nc u) v = addNonce nc (u + v) := by
  rw [addNonce, addNonce, addNonce, reverse_reverse, addCarry_addCarry]

/-- The key stream inside one page. -/
theorem keyByte_page (hst : start % pageSize = 0) (hi : i < pageSize) :
    keyByte xsalsa20 key nc (start + i) = xsalsa20 (addNonce nc start) key i := by
  have hmod : (start + i) % pageSize = i := by
    rw [Nat.add_mod, hst, zero_add, Nat.mod_mod, Nat.mod_eq_of_lt hi]
  rw [keyByte, hmod, Nat.add_sub_cancel]

theorem xorPages_eq (nc buffer : List UInt8) (start : Nat) (hst : start % pageSize = 0) :
    xorPages xsalsa20 key (addNonce nc start) buffer =
      xorFrom (keyByte xsalsa20 key nc) start buffer := by
  induction hn : buffer.length using Nat.strong_induction_on generalizing buffer start with
  | _ n ih =>
    rw [xorPages]
    split
    · next hnil =>
      rw [hnil]
      rfl
    next hne =>
    have hpos := length_pos_iff.mpr hne
    have hrest := ih (buffer.drop pageSize).length (by simp only [length_drop, pageSize]; omega)
      (buffer.drop pageSize) (start + pageSize) (by rw [Nat.add_mod_right, hst]) rfl
    have hpage : xorFrom (xsalsa20 (addNonce nc start) key) 0 (buffer.take pageSize) =
        xorFrom (keyByte xsalsa20 key nc) start (buffer.take pageSize) := by
      apply xorFrom_congr
      intro i hi
      rw [length_take] at hi
      rw [keyByte_page xsalsa20 hst (by omega), zero_add]
    have hspl := xorFrom_append (keyByte xsalsa20 key nc) start (buffer.take pageSize)
      (buffer.drop pageSize)
    rw [take_append_drop] at hspl
    rw [addNonce_addNonce, hrest, hpage, hspl]
    by_cases hsht : pageSize ≤ buffer.length
    · rw [length_take, min_eq_left hsht]
    rw [drop_of_length_le (by omega)]
    simp

/-- `rhizome_crypt_xor_block` applies the key stream of the whole payload to a
block at any offset. -/
theorem cryptXorBlock_eq (buffer : List UInt8) (streamOffset : Nat) (key nc : List UInt8) :
    cryptXorBlock xsalsa20 buffer streamOffset key nc =
      xorFrom (keyByte xsalsa20 key nc) streamOffset buffer := by
  have hali : (streamOffset - streamOffset % pageSize) % pageSize = 0 := by
    simp only [pageSize]
    omega
  have hpad : streamOffset % pageSize < pageSize := Nat.mod_lt _ (by decide)
  have hle := Nat.mod_le streamOffset pageSize
  simp only [cryptXorBlock]
  split
  · generalize hn : min (pageSize - streamOffset % pageSize) buffer.length = n
    have hhead : (xorFrom (xsalsa20 (addNonce nc (streamOffset - streamOffset % pageSize)) key) 0
        (List.replicate (streamOffset % pageSize) 0 ++ buffer.take n)).drop (streamOffset % pageSize) =
          xorFrom (keyByte xsalsa20 key nc) streamOffset (buffer.take n) := by
      rw [xorFrom_drop, drop_left' (by simp), zero_add]
      apply xorFrom_congr
      intro i hi
      rw [length_take] at hi
      rw [← keyByte_page xsalsa20 hali (by omega)]
      congr 1
      omega
    have hspl := xorFrom_append (keyByte xsalsa20 key nc) streamOffset (buffer.take n) (buffer.drop n)
    rw [take_append_drop] at hspl
    rw [hhead, addNonce_addNonce, xorPages_eq xsalsa20 nc _ _ (by
      rw [Nat.add_mod_right, hali]), hspl, length_take]
    by_cases hsht : pageSize - streamOffset % pageSize ≤ buffer.length
    · congr 2
      omega
    rw [drop_of_length_le (by omega)]
    simp
  next heq =>
  rw [xorPages_eq xsalsa20 nc _ _ hali]
  congr 1
  omega

/-- A text may be cut at any place and its parts processed one after the other, and
processing a block a second time restores it. -/
theorem cryptXorBlock_position (streamOffset : Nat) (key nonce a b buffer : List UInt8) :
    cryptXorBlock xsalsa20 (a ++ b) streamOffset key nonce =
        cryptXorBlock xsalsa20 a streamOffset key nonce ++
          cryptXorBlock xsalsa20 b (streamOffset + a.length) key nonce ∧
      cryptXorBlock xsalsa20 (cryptXorBlock xsalsa20 buffer streamOffset key nonce) streamOffset key
        nonce = buffer := by
  constructor
  · rw [cryptXorBlock_eq, cryptXorBlock_eq, cryptXorBlock_eq, xorFrom_append]
  · rw [cryptXorBlock_eq, cryptXorBlock_eq, xorFrom_xorFrom]

end RhizomeCrypt
