import ServalDna.BufferReads
import ServalDna.BufferWrites
import Mathlib.Data.Nat.Bitwise
import Mathlib.Data.UInt

/-!
# Values in overlay buffers

Every writer of an overlay buffer has a reader. Values that are written one after
the other are read back by the readers in the same order, with three exceptions:
the reader of 64-bit numbers in network order shifts one byte too far and makes
some bytes negative, the reader of packed 64-bit numbers shifts values of 32
bits, and a byte string of no bytes cannot be written.
-/
namespace BufferCodec

open ListSlice OverlayBuffer BufferReads BufferWrites List Option

/-- A string of C, without its terminating zero. -/
structure CStr where
  chars : List UInt8
  nonzero : 0 ∉ chars
  deriving DecidableEq

inductive Value where
  | byte (v : UInt8)
  | ui16 (v : UInt16)
  | ui16Rv (v : UInt16)
  | ui32 (v : UInt32)
  | ui32Rv (v : UInt32)
  | ui64 (v : UInt64)
  | ui64Rv (v : UInt64)
  | packedUi32 (v : UInt32)
  | packedUi64 (v : UInt64)
  | bytes (v : List UInt8)
  | str (v : CStr)
  deriving DecidableEq

def Value.append (b : Buffer) : Value → Option Buffer
  | .byte v => obAppendByte b v
  | .ui16 v => obAppendUi16 b v
  | .ui16Rv v => obAppendUi16Rv b v
  | .ui32 v => obAppendUi32 b v
  | .ui32Rv v => obAppendUi32Rv b v
  | .ui64 v => obAppendUi64 b v
  | .ui64Rv v => obAppendUi64Rv b v
  | .packedUi32 v => obAppendPackedUi32 b v
  | .packedUi64 v => obAppendPackedUi64 b v
  | .bytes v => obAppendBytes b v
  | .str v => obAppendStr b v.chars

def appendAll (b : Buffer) : List Value → Option Buffer
  | [] => some b
  | v :: rest => (v.append b).bind fun b => appendAll b rest

/-- The reader that belongs to the writer of `v` returns `v`. -/
def Value.Returned (b : Buffer) : Value → Prop
  | .byte v => (obGet b).value = some v
  | .ui16 v => (obGetUi16 b).value = v
  | .ui16Rv v => (obGetUi16Rv b).value = v
  | .ui32 v => (obGetUi32 b).value = v
  | .ui32Rv v => (obGetUi32Rv b).value = v
  | .ui64 v => (obGetUi64 b).value = v
  | .ui64Rv v => (obGetUi64Rv b).value = v
  | .packedUi32 v => (obGetPackedUi32 b).value = some v
  | .packedUi64 v => (obGetPackedUi64 b).value = some v
  | .bytes v => (obGetBytes b v.length).value = some v
  | .str v => (obGetStrPtr b).value = some v.chars

def Value.after (b : Buffer) : Value → Buffer
  | .byte _ => (obGet b).buffer
  | .ui16 _ => (obGetUi16 b).buffer
  | .ui16Rv _ => (obGetUi16Rv b).buffer
  | .ui32 _ => (obGetUi32 b).buffer
  | .ui32Rv _ => (obGetUi32Rv b).buffer
  | .ui64 _ => (obGetUi64 b).buffer
  | .ui64Rv _ => (obGetUi64Rv b).buffer
  | .packedUi32 _ => (obGetPackedUi32 b).buffer
  | .packedUi64 _ => (obGetPackedUi64 b).buffer
  | .bytes v => (obGetBytes b v.length).buffer
  | .str _ => (obGetStrPtr b).buffer

def ReadBack (b : Buffer) : List Value → Prop
  | [] => b.position = b.limit
  | v :: rest => v.Returned b ∧ ReadBack (v.after b) rest

/-- What is written to a new buffer can be read back after `ob_flip`. -/
def RoundTrip (values : List Value) : Prop :=
  ∃ b b', appendAll obNew values = some b ∧ obFlip b = some b' ∧ ReadBack b' values

/-- The values that a reader gives back. -/
def Value.Exact : Value → Prop
  | .ui64 v => v.toNat / 2 ^ 31 % 2 ^ 9 = 0 ∨ 2 ^ 64 - 2 ^ 31 ≤ v.toNat
  | .packedUi64 v => v.toNat < 2 ^ 31
  | .bytes v => v ≠ []
  | _ => True

/-! ## Numbers from bytes -/

theorem ui16_bytes (v : UInt16) : (v >>> 8).toUInt8.toUInt16 <<< 8 ||| v.toUInt8.toUInt16 = v := by
  apply UInt16.toBitVec_inj.mp
  apply BitVec.eq_of_getLsbD_eq
  intro i hi
  simp only [UInt16.toBitVec_or, UInt16.toBitVec_shiftLeft, UInt8.toBitVec_toUInt16,
    UInt16.toBitVec_toUInt8, UInt16.toBitVec_shiftRight, BitVec.getLsbD_or, BitVec.getLsbD_setWidth]
  simp
  grind

theorem ui32_bytes (v : UInt32) :
    (v >>> 24).toUInt8.toUInt32 <<< 24 ||| (v >>> 16).toUInt8.toUInt32 <<< 16 |||
      (v >>> 8).toUInt8.toUInt32 <<< 8 ||| v.toUInt8.toUInt32 = v := by
  apply UInt32.toBitVec_inj.mp
  apply BitVec.eq_of_getLsbD_eq
  intro i hi
  simp only [UInt32.toBitVec_or, UInt32.toBitVec_shiftLeft, UInt8.toBitVec_toUInt32,
    UInt32.toBitVec_toUInt8, UInt32.toBitVec_shiftRight, BitVec.getLsbD_or, BitVec.getLsbD_setWidth]
  simp
  grind

theorem ui32Rv_bytes (v : UInt32) : v.toUInt8.toUInt32 ||| (v >>> 8).toUInt8.toUInt32 <<< 8 |||
      (v >>> 16).toUInt8.toUInt32 <<< 16 ||| (v >>> 24).toUInt8.toUInt32 <<< 24 = v := by
  have hswap (a b c d : UInt32) : a ||| b ||| c ||| d = d ||| c ||| b ||| a := by ac_rfl
  rw [hswap, ui32_bytes]

variable (v : UInt64)

theorem ui64_bytes : v.toUInt8.toUInt64 ||| (v >>> 8).toUInt8.toUInt64 <<< 8 |||
      (v >>> 16).toUInt8.toUInt64 <<< 16 ||| (v >>> 24).toUInt8.toUInt64 <<< 24 |||
      (v >>> 32).toUInt8.toUInt64 <<< 32 ||| (v >>> 40).toUInt8.toUInt64 <<< 40 |||
      (v >>> 48).toUInt8.toUInt64 <<< 48 ||| (v >>> 56).toUInt8.toUInt64 <<< 56 = v := by
  apply UInt64.toBitVec_inj.mp
  apply BitVec.eq_of_getLsbD_eq
  intro i hi
  simp only [UInt64.toBitVec_or, UInt64.toBitVec_shiftLeft, UInt8.toBitVec_toUInt64,
    UInt64.toBitVec_toUInt8, UInt64.toBitVec_shiftRight, BitVec.getLsbD_or, BitVec.getLsbD_setWidth]
  simp
  grind

theorem intToUi64_testBit : (intToUi64 x).toNat.testBit i =
      (x.toNat.testBit i || (decide (32 ≤ i ∧ i < 64) && x.toNat.testBit 31)) := by
  have htop : x.toNat.testBit 31 = decide (x ≥ 0x80000000) := by
    have hlt := x.toNat_lt
    rw [Nat.testBit_eq_decide_div_mod_eq, decide_eq_decide, ge_iff_le, UInt32.le_iff_toNat_le]
    change x.toNat / 2 ^ 31 % 2 = 1 ↔ 2 ^ 31 ≤ x.toNat
    omega
  unfold intToUi64
  rw [htop]
  by_cases h : x ≥ 0x80000000
  · have hmask : (0xFFFFFFFF00000000 : UInt64).toNat = (2 ^ 32 - 1) * 2 ^ 32 := rfl
    rw [if_pos h, UInt64.toNat_or, Nat.testBit_or, hmask, Nat.testBit_mul_two_pow,
      Nat.testBit_two_pow_sub_one, UInt32.toNat_toUInt64, Bool.or_comm]
    congr 1
    grind
  · simp [h]

theorem intToUi64_or : intToUi64 a ||| intToUi64 b = intToUi64 (a ||| b) := by
  apply UInt64.toNat_inj.mp
  apply Nat.eq_of_testBit_eq
  intro i
  simp only [UInt64.toNat_or, Nat.testBit_or, intToUi64_testBit, UInt32.toNat_or]
  cases decide (32 ≤ i ∧ i < 64) <;> grind

def misread (v : UInt64) : UInt64 :=
  (v >>> 56).toUInt8.toUInt64 <<< 56 ||| (v >>> 48).toUInt8.toUInt64 <<< 48 |||
    (v >>> 40).toUInt8.toUInt64 <<< 40 ||| (v >>> 32).toUInt8.toUInt64 <<< 36 |||
    intToUi64 ((v >>> 24).toUInt8.toUInt32 <<< 24) |||
    intToUi64 ((v >>> 16).toUInt8.toUInt32 <<< 16) |||
    intToUi64 ((v >>> 8).toUInt8.toUInt32 <<< 8) ||| intToUi64 v.toUInt8.toUInt32

theorem misread_top : (v >>> 56).toUInt8.toUInt64 <<< 56 ||| (v >>> 48).toUInt8.toUInt64 <<< 48 |||
      (v >>> 40).toUInt8.toUInt64 <<< 40 = (v >>> 40) <<< 40 := by
  apply UInt64.toBitVec_inj.mp
  apply BitVec.eq_of_getLsbD_eq
  intro i hi
  simp only [UInt64.toBitVec_or, UInt64.toBitVec_shiftLeft, UInt8.toBitVec_toUInt64,
    UInt64.toBitVec_toUInt8, UInt64.toBitVec_shiftRight, BitVec.getLsbD_or]
  simp
  grind

theorem byte_toUInt32 (v k : UInt64) (s : UInt32) (hs : s.toNat = k.toNat) (hk : k.toNat ≤ 24) :
    (v.toUInt32 >>> s).toUInt8 = (v >>> k).toUInt8 := by
  apply UInt8.toNat_inj.mp
  apply Nat.eq_of_testBit_eq
  intro i
  have hk32 : k.toNat % 32 = k.toNat := Nat.mod_eq_of_lt (by omega)
  have hk64 : k.toNat % 64 = k.toNat := Nat.mod_eq_of_lt (by omega)
  simp only [UInt32.toNat_toUInt8, UInt64.toNat_toUInt8, UInt32.toNat_shiftRight,
    UInt64.toNat_shiftRight, Nat.testBit_mod_two_pow, Nat.testBit_shiftRight, UInt64.toNat_toUInt32,
    hs, hk32, hk64]
  grind

theorem misread_low : intToUi64 ((v >>> 24).toUInt8.toUInt32 <<< 24) |||
      intToUi64 ((v >>> 16).toUInt8.toUInt32 <<< 16) |||
      intToUi64 ((v >>> 8).toUInt8.toUInt32 <<< 8) ||| intToUi64 v.toUInt8.toUInt32 =
      intToUi64 v.toUInt32 := by
  have h := ui32_bytes v.toUInt32
  rw [byte_toUInt32 v 24 24 rfl (by decide), byte_toUInt32 v 16 16 rfl (by decide),
    byte_toUInt32 v 8 8 rfl (by decide), UInt64.toUInt8_toUInt32] at h
  rw [intToUi64_or, intToUi64_or, intToUi64_or, h]

theorem misread_eq : misread v =
      (v >>> 40) <<< 40 ||| (v >>> 32).toUInt8.toUInt64 <<< 36 ||| intToUi64 v.toUInt32 := by
  rw [misread, ← misread_top, ← misread_low]
  simp only [UInt64.or_assoc]

theorem misread_testBit (hi : i < 64) : (misread v).toNat.testBit i =
      ((decide (40 ≤ i) && v.toNat.testBit i) || (decide (36 ≤ i ∧ i < 44) && v.toNat.testBit (i - 4)) ||
        ((decide (i < 32) && v.toNat.testBit i) || decide (32 ≤ i) && v.toNat.testBit 31)) := by
  simp only [misread_eq, UInt64.toNat_or, Nat.testBit_or, intToUi64_testBit, UInt64.toNat_shiftLeft,
    Nat.testBit_mod_two_pow, Nat.testBit_shiftLeft, UInt8.toNat_toUInt64, UInt64.toNat_toUInt32,
    UInt64.toNat_toUInt8, UInt64.toNat_shiftRight, Nat.testBit_shiftRight, UInt64.reduceToNat,
    Nat.reduceMod, hi, decide_true, Bool.true_and, Nat.reduceLT]
  congr 2
  · grind
  · grind
  · grind

theorem bits_31_to_39 :
    v.toNat / 2 ^ 31 % 2 ^ 9 = 0 ↔ ∀ i, 31 ≤ i → i < 40 → v.toNat.testBit i = false := by
  have hbit (j : Nat) : (v.toNat / 2 ^ 31 % 2 ^ 9).testBit j = (decide (j < 9) && v.toNat.testBit (j + 31)) := by
    rw [Nat.testBit_mod_two_pow, Nat.testBit_div_two_pow]
  constructor
  · intro h i hlow hhigh
    have hj := hbit (i - 31)
    rw [h, Nat.zero_testBit, Nat.sub_add_cancel hlow] at hj
    simpa [show i - 31 < 9 by omega] using hj.symm
  intro h
  apply Nat.zero_of_testBit_eq_false
  intro j
  rw [hbit]
  by_cases hj : j < 9
  · simp [h (j + 31) (by omega) (by omega)]
  · simp [hj]

theorem bits_31_to_63 : 2 ^ 64 - 2 ^ 31 ≤ v.toNat ↔ ∀ i, 31 ≤ i → i < 64 → v.toNat.testBit i = true := by
  have hlt := v.toNat_lt
  have hquot : 2 ^ 64 - 2 ^ 31 ≤ v.toNat ↔ v.toNat / 2 ^ 31 = 2 ^ 33 - 1 := by omega
  rw [hquot]
  constructor
  · intro h i hlow hhigh
    have hj := congrArg (fun n => n.testBit (i - 31)) h
    simp only [Nat.testBit_div_two_pow, Nat.testBit_two_pow_sub_one, Nat.sub_add_cancel hlow] at hj
    simpa [show i - 31 < 33 by omega] using hj
  intro h
  apply Nat.eq_of_testBit_eq
  intro j
  rw [Nat.testBit_div_two_pow, Nat.testBit_two_pow_sub_one]
  by_cases hj : j < 33
  · simp [hj, h (j + 31) (by omega) (by omega)]
  have hpow : (2 : Nat) ^ 64 ≤ 2 ^ (j + 31) := Nat.pow_le_pow_right (by decide) (by omega)
  rw [Nat.testBit_lt_two_pow (lt_of_lt_of_le hlt hpow)]
  simp [hj]

theorem misread_iff : misread v = v ↔ (Value.ui64 v).Exact := by
  rw [Value.Exact, bits_31_to_39, bits_31_to_63]
  constructor
  · intro h
    have hbit (i : Nat) (hi : i < 64) := misread_testBit v hi
    cases h31 : v.toNat.testBit 31 with
    | true =>
      refine .inr fun i hlow hhigh => ?_
      grind
    | false =>
      refine .inl fun i hlow hhigh => ?_
      grind
  intro h
  apply UInt64.toNat_inj.mp
  apply Nat.eq_of_testBit_eq
  intro i
  by_cases hi : i < 64
  · rw [misread_testBit v hi]
    rcases h with h | h
    · grind
    · grind
  have hpow : (2 : Nat) ^ 64 ≤ 2 ^ i := Nat.pow_le_pow_right (by decide) (by omega)
  rw [Nat.testBit_lt_two_pow (lt_of_lt_of_le (misread v).toNat_lt hpow),
    Nat.testBit_lt_two_pow (lt_of_lt_of_le v.toNat_lt hpow)]

/-! ## Packed numbers -/

def packed (v : UInt64) : List UInt8 :=
  ((v &&& 0x7f) ||| (if v > 0x7f then 0x80 else 0)).toUInt8 ::
    if v >>> 7 ≠ 0 then packed (v >>> 7) else []
termination_by v.toNat
decreasing_by exact shiftRight_lt v ‹_›

/-- What the packed readers make of the bytes of `v`, from a shift and a sum on. -/
def unpacked {α : Type} [OrOp α] (convert : UInt32 → α) (v : UInt64) (shift : Nat) (ret : Option α) :
    Option α :=
  let ret := do
    let sum ← ret
    let bits ← shiftInt (v &&& 0x7f).toUInt8 shift
    some (sum ||| convert bits)
  if v >>> 7 ≠ 0 then unpacked convert (v >>> 7) (shift + 7) ret else ret
termination_by v.toNat
decreasing_by exact shiftRight_lt v ‹_›

theorem toNat_shift7 : (v >>> 7).toNat = v.toNat / 128 := by simp [Nat.shiftRight_eq_div_pow]

theorem shift7_eq_zero_iff : v >>> 7 = 0 ↔ v.toNat < 128 := by
  rw [← UInt64.toNat_inj, toNat_shift7, UInt64.toNat_zero]
  omega

theorem toNat_low7 : (v &&& 0x7f).toNat = v.toNat % 128 := by
  exact Nat.and_two_pow_sub_one_eq_mod v.toNat 7

theorem packed_byte : let byte := ((v &&& 0x7f) ||| (if v > 0x7f then 0x80 else 0)).toUInt8
    byte &&& 0x7f = (v &&& 0x7f).toUInt8 ∧ (byte &&& 0x80 ≠ 0 ↔ v >>> 7 ≠ 0) := by
  intro byte
  have hmask : ∀ low : Fin 128, ((UInt8.ofNat low.val ||| 0x80) &&& 0x7f = UInt8.ofNat low.val ∧
        (UInt8.ofNat low.val ||| 0x80) &&& 0x80 ≠ 0) ∧
      UInt8.ofNat low.val &&& 0x7f = UInt8.ofNat low.val ∧ UInt8.ofNat low.val &&& 0x80 = 0 := by
    decide +kernel
  have hlow : (v &&& 0x7f).toUInt8 = UInt8.ofNat (v.toNat % 128) := by
    apply UInt8.toNat_inj.mp
    rw [UInt64.toNat_toUInt8, toNat_low7, UInt8.toNat_ofNat']
  have hv := hmask ⟨v.toNat % 128, Nat.mod_lt _ (by decide)⟩
  simp only at hv
  have hgt : v > 0x7f ↔ ¬v.toNat < 128 := by
    rw [gt_iff_lt, UInt64.lt_iff_toNat_lt]
    change 127 < v.toNat ↔ _
    omega
  rw [ne_eq, ne_eq, shift7_eq_zero_iff]
  by_cases h : v.toNat < 128
  · have hbyte : byte = UInt8.ofNat (v.toNat % 128) := by
      simp only [byte, if_neg (fun hv => hgt.mp hv h), UInt64.or_zero, hlow]
    rw [hbyte, hlow]
    exact ⟨hv.2.1, by simp [hv.2.2, h]⟩
  have hbyte : byte = UInt8.ofNat (v.toNat % 128) ||| 0x80 := by
    simp only [byte, if_pos (hgt.mpr h), UInt64.toUInt8_or, hlow]
    rfl
  rw [hbyte, hlow]
  exact ⟨hv.1.1, by simp [hv.1.2, h]⟩

theorem packed_length (v : UInt64) (h : v.toNat < 128 ^ (k + 1)) : (packed v).length ≤ k + 1 := by
  induction k generalizing v with
  | zero =>
    have hz : v >>> 7 = 0 := (shift7_eq_zero_iff v).mpr (by simpa using h)
    rw [packed, if_neg (not_not.mpr hz)]
    exact le_rfl
  | succ k ih =>
    rw [packed, length_cons]
    by_cases hv : v >>> 7 ≠ 0
    · have hlt : (v >>> 7).toNat < 128 ^ (k + 1) := by
        rw [toNat_shift7, Nat.div_lt_iff_lt_mul (by decide)]
        exact h
      rw [if_pos hv]
      exact Nat.succ_le_succ (ih _ hlt)
    rw [if_neg hv]
    exact Nat.succ_le_succ (Nat.zero_le _)

theorem unpackLoop_packed {α : Type} [OrOp α] (convert : UInt32 → α) (failed : α) (v : UInt64)
    (h : Holds b (packed v ++ rest)) (hps : (packed v).length ≤ passes) (sh : Nat)
    (ret : Option α) :
    (unpackLoop convert failed passes b sh ret).value = unpacked convert v sh ret ∧
      (unpackLoop convert failed passes b sh ret).buffer = b.advance (packed v).length := by
  induction v using packed.induct generalizing b passes sh ret with
  | case1 v ih =>
    obtain ⟨hlow, hmore⟩ := packed_byte v
    rw [packed] at h hps ⊢
    rw [unpacked]
    generalize ((v &&& 0x7f) ||| (if v > 0x7f then 0x80 else 0)).toUInt8 = byte at *
    obtain ⟨passes, rfl⟩ := Nat.exists_eq_add_of_le' (le_trans (Nat.le_add_left 1 _) hps)
    rw [unpackLoop, h.obGet]
    simp only [hlow]
    by_cases hv : v >>> 7 ≠ 0
    · rw [if_pos hv] at h hps
      rw [if_pos hv, if_pos hv, if_pos (hmore.mpr hv)]
      have hrest : Holds (b.advance 1) (packed (v >>> 7) ++ rest) :=
        (show Holds b ([byte] ++ (packed (v >>> 7) ++ rest)) from h).advance
      have hlen : (packed (v >>> 7)).length ≤ passes := by
        rw [length_cons] at hps
        omega
      obtain ⟨hval, hbuf⟩ := ih hv hrest hlen (sh + 7) (do
        let sum ← ret
        let bits ← shiftInt (v &&& 0x7f).toUInt8 sh
        some (sum ||| convert bits))
      refine ⟨hval, ?_⟩
      rw [hbuf, Buffer.advance, Buffer.advance, length_cons]
      simp only [add_assoc, add_comm 1]
      rfl
    rw [if_neg hv, if_neg hv, if_neg (fun hm => hv (hmore.mp hm))]
    exact ⟨rfl, rfl⟩

theorem unpacked_none {α : Type} [OrOp α] (convert : UInt32 → α) (sh : Nat) :
    unpacked convert v sh none = none := by
  induction v using packed.induct generalizing sh with
  | case1 v ih =>
    rw [unpacked]
    by_cases hv : v >>> 7 ≠ 0
    · rw [if_pos hv]
      exact ih hv (sh + 7)
    rw [if_neg hv]
    rfl

theorem testBit_digits (v : Nat) : (v * 2 ^ s).testBit i =
      ((v % 128 * 2 ^ s).testBit i || (v / 128 * 2 ^ (s + 7)).testBit i) := by
  rw [show 128 = 2 ^ 7 from rfl]
  simp only [Nat.testBit_mul_two_pow, Nat.testBit_mod_two_pow, Nat.testBit_div_two_pow]
  grind

theorem toNat_low8 : (v &&& 0x7f).toUInt8.toNat = v.toNat % 128 := by
  rw [UInt64.toNat_toUInt8, toNat_low7]
  omega

theorem shiftInt_low {v : UInt64} (hs : s < 32) (hv : v.toNat * 2 ^ s < 2 ^ 32) :
    ∃ y, shiftInt (v &&& 0x7f).toUInt8 s = some y ∧ y.toNat = v.toNat % 128 * 2 ^ s := by
  refine ⟨_, if_pos hs, ?_⟩
  have hle : v.toNat % 128 * 2 ^ s ≤ v.toNat * 2 ^ s := Nat.mul_le_mul_right _ (Nat.mod_le _ _)
  have hs32 : (UInt32.ofNat s).toNat % 32 = s := by
    rw [UInt32.toNat_ofNat']
    omega
  rw [UInt32.toNat_shiftLeft, UInt8.toNat_toUInt32, toNat_low8, hs32, Nat.shiftLeft_eq,
    Nat.mod_eq_of_lt (lt_of_le_of_lt hle hv)]

/-- A number of less than `n` bits comes back bit by bit, if `convert` keeps numbers
of less than `n` bits. -/
theorem unpacked_bits {α : Type} [OrOp α] {convert : UInt32 → α} {bit : α → Nat → Bool} {n : Nat}
    (hor : ∀ a b i, bit (a ||| b) i = (bit a i || bit b i)) (hn : n ≤ 32)
    (hcon : ∀ y : UInt32, y.toNat < 2 ^ n → ∀ i, bit (convert y) i = y.toNat.testBit i)
    (v : UInt64) (s : Nat) (hs : s < 32) (hv : v.toNat * 2 ^ s < 2 ^ n) (r : α) :
    ∃ x, unpacked convert v s (some r) = some x ∧
      ∀ i, bit x i = (bit r i || (v.toNat * 2 ^ s).testBit i) := by
  induction v using packed.induct generalizing s r with
  | case1 v ih =>
    have hpow : 2 ^ n ≤ 2 ^ 32 := Nat.pow_le_pow_right (by decide) hn
    obtain ⟨y, hshf, hy⟩ := shiftInt_low hs (lt_of_lt_of_le hv hpow)
    have hylt : y.toNat < 2 ^ n := by
      rw [hy]
      exact lt_of_le_of_lt (Nat.mul_le_mul_right _ (Nat.mod_le _ _)) hv
    rw [unpacked]
    simp only [hshf, bind_eq_bind, bind_some]
    by_cases h7 : v >>> 7 ≠ 0
    · have hquot : v.toNat / 128 * 2 ^ (s + 7) ≤ v.toNat * 2 ^ s := by
        rw [Nat.pow_add, mul_comm (2 ^ s), ← mul_assoc]
        exact Nat.mul_le_mul_right _ (Nat.div_mul_le_self _ _)
      have hpos : 1 ≤ v.toNat / 128 := by
        have hge := mt (shift7_eq_zero_iff v).mpr h7
        omega
      have hs7 : s + 7 < 32 := by
        apply (Nat.pow_lt_pow_iff_right (by decide : 1 < 2)).mp
        calc 2 ^ (s + 7) ≤ v.toNat / 128 * 2 ^ (s + 7) := Nat.le_mul_of_pos_left _ hpos
          _ < 2 ^ n := lt_of_le_of_lt hquot hv
          _ ≤ 2 ^ 32 := hpow
      rw [if_pos h7]
      obtain ⟨x, hx, hbits⟩ := ih h7 (s + 7) hs7
        (by rw [toNat_shift7]; exact lt_of_le_of_lt hquot hv) (r ||| convert y)
      refine ⟨x, hx, fun i => ?_⟩
      rw [hbits, hor, hcon y hylt, hy, toNat_shift7, testBit_digits v.toNat, Bool.or_assoc]
    have hsm : v.toNat < 128 := (shift7_eq_zero_iff v).mp (not_not.mp h7)
    rw [if_neg h7]
    refine ⟨_, rfl, fun i => ?_⟩
    rw [hor, hcon y hylt, hy, Nat.mod_eq_of_lt hsm]

theorem unpacked_ui32 (v : UInt32) : unpacked id v.toUInt64 0 (some 0) = some v := by
  obtain ⟨x, hx, hbits⟩ := @unpacked_bits UInt32 _ id (fun a i => a.toNat.testBit i) 32
    (fun a b i => by rw [UInt32.toNat_or, Nat.testBit_or]) (le_rfl) (fun _ _ _ => rfl)
    v.toUInt64 0 (by decide) (by simpa using v.toNat_lt) 0
  rw [hx]
  congr 1
  apply UInt32.toNat_inj.mp
  apply Nat.eq_of_testBit_eq
  intro i
  simpa using hbits i

/-- From the sixth byte on there is no value. -/
theorem unpacked_wide {α : Type} [OrOp α] (convert : UInt32 → α) (v : UInt64) (s : Nat)
    (hs : s + 7 * k = 35) (hv : 2 ^ (7 * k) ≤ v.toNat) (r : Option α) :
    unpacked convert v s r = none := by
  induction k generalizing v s r with
  | zero =>
    have hshf : shiftInt (v &&& 0x7f).toUInt8 s = none := if_neg (by omega)
    rw [unpacked]
    simp only [hshf, bind_eq_bind]
    cases r with
    | none | some r =>
      simp [bind_none, unpacked_none]
  | succ k ih =>
    have hdiv : 2 ^ (7 * k) ≤ v.toNat / 128 := by
      rw [Nat.le_div_iff_mul_le (by decide)]
      rwa [Nat.mul_succ, Nat.pow_add] at hv
    have h7 : v >>> 7 ≠ 0 := by
      intro h0
      have hsm := (shift7_eq_zero_iff v).mp h0
      have hpos := Nat.two_pow_pos (7 * k)
      omega
    rw [unpacked, if_pos h7]
    exact ih (v >>> 7) (s + 7) (by omega) (by rw [toNat_shift7]; exact hdiv) _

/-- The bits from 31 on are all the same. -/
def Flat (x : UInt64) : Prop := ∀ i, 31 ≤ i → i < 64 → x.toNat.testBit i = x.toNat.testBit 63

theorem flat_intToUi64 (y : UInt32) : Flat (intToUi64 y) := by
  intro i hlow hhigh
  have hpow (j : Nat) (hj : 32 ≤ j) : y.toNat.testBit j = false := by
    apply Nat.testBit_lt_two_pow
    exact lt_of_lt_of_le y.toNat_lt (Nat.pow_le_pow_right (by decide) hj)
  rw [intToUi64_testBit, intToUi64_testBit, hpow 63 (by decide)]
  by_cases hi : 32 ≤ i
  · simp [hpow i hi, hi, hhigh]
  have h31 : i = 31 := by omega
  simp [h31]

theorem flat_or (hx : Flat x) (hy : Flat y) : Flat (x ||| y) := by
  intro i hlow hhigh
  rw [UInt64.toNat_or, Nat.testBit_or, Nat.testBit_or, hx i hlow hhigh, hy i hlow hhigh]

theorem unpacked_flat (s : Nat) (hr : Flat r) (h : unpacked intToUi64 v s (some r) = some x) :
    Flat x := by
  induction v using packed.induct generalizing s r with
  | case1 v ih =>
    rw [unpacked] at h
    simp only [bind_eq_bind, bind_some] at h
    cases hshf : shiftInt (v &&& 0x7f).toUInt8 s with
    | none =>
      simp only [hshf, bind_none, unpacked_none, ite_self] at h
      cases h
    | some y =>
      simp only [hshf, bind_some] at h
      have hflat := flat_or hr (flat_intToUi64 y)
      split at h
      · next h7 => exact ih h7 (s + 7) hflat h
      cases h
      exact hflat

theorem unpacked_ui64_iff : unpacked intToUi64 v 0 (some 0) = some v ↔ v.toNat < 2 ^ 31 := by
  constructor
  · intro h
    by_contra hbig
    by_cases hwide : 2 ^ (7 * 5) ≤ v.toNat
    · rw [unpacked_wide intToUi64 v 0 rfl hwide] at h
      cases h
    have hflat : Flat v := unpacked_flat v 0 (fun _ _ _ => by simp) h
    have h63 : v.toNat.testBit 63 = false := Nat.testBit_lt_two_pow (by omega)
    apply hbig
    apply Nat.lt_pow_two_of_testBit
    intro i hi
    by_cases hlt : i < 64
    · rw [hflat i hi hlt, h63]
    apply Nat.testBit_lt_two_pow
    exact lt_of_lt_of_le v.toNat_lt (Nat.pow_le_pow_right (by decide) (by omega))
  intro h
  have hcon (y : UInt32) (hy : y.toNat < 2 ^ 31) (i : Nat) :
      (intToUi64 y).toNat.testBit i = y.toNat.testBit i := by
    rw [intToUi64_testBit, Nat.testBit_lt_two_pow hy, Bool.and_false, Bool.or_false]
  obtain ⟨x, hx, hbits⟩ := @unpacked_bits UInt64 _ intToUi64 (fun a i => a.toNat.testBit i) 31
    (fun a b i => by rw [UInt64.toNat_or, Nat.testBit_or]) (by decide) hcon v 0 (by decide)
    (by simpa using h) 0
  rw [hx]
  congr 1
  apply UInt64.toNat_inj.mp
  apply Nat.eq_of_testBit_eq
  intro i
  simpa using hbits i

/-! ## Writing values -/

def Value.encoded : Value → List UInt8
  | .byte v => [v]
  | .ui16 v => [(v >>> 8).toUInt8, v.toUInt8]
  | .ui16Rv v => [v.toUInt8, (v >>> 8).toUInt8]
  | .ui32 v => [(v >>> 24).toUInt8, (v >>> 16).toUInt8, (v >>> 8).toUInt8, v.toUInt8]
  | .ui32Rv v => [v.toUInt8, (v >>> 8).toUInt8, (v >>> 16).toUInt8, (v >>> 24).toUInt8]
  | .ui64 v => [(v >>> 56).toUInt8, (v >>> 48).toUInt8, (v >>> 40).toUInt8, (v >>> 32).toUInt8,
      (v >>> 24).toUInt8, (v >>> 16).toUInt8, (v >>> 8).toUInt8, v.toUInt8]
  | .ui64Rv v => [v.toUInt8, (v >>> 8).toUInt8, (v >>> 16).toUInt8, (v >>> 24).toUInt8,
      (v >>> 32).toUInt8, (v >>> 40).toUInt8, (v >>> 48).toUInt8, (v >>> 56).toUInt8]
  | .packedUi32 v => packed v.toUInt64
  | .packedUi64 v => packed v
  | .bytes v => v
  | .str v => v.chars ++ [0]

def encodedAll (values : List Value) : List UInt8 := values.flatMap Value.encoded

theorem packed_append (h : Own b) (hlim : 1 ≤ b.sizeLimit) :
    ∃ b', obAppendPackedUi64 b v = some b' ∧ Appended b (packed v) b' := by
  induction v using packed.induct generalizing b with
  | case1 v ih =>
    rw [obAppendPackedUi64, packed]
    generalize ((v &&& 0x7f) ||| (if v > 0x7f then 0x80 else 0)).toUInt8 = byte
    obtain ⟨c, hc, happ⟩ := append_own h [byte] (fun _ => hlim)
    have hbyte : obAppendByte b byte = some c := hc
    rw [hbyte]
    by_cases h7 : v >>> 7 ≠ 0
    · obtain ⟨b', hb', hrest⟩ := ih h7 happ.own (by rw [happ.sizeLimit]; exact hlim)
      simp only [if_pos h7]
      exact ⟨b', hb', happ.trans hrest⟩
    simp only [if_neg h7]
    exact ⟨c, rfl, happ⟩

theorem packed_ne_nil : packed v ≠ [] := by
  rw [packed]
  exact cons_ne_nil _ _

theorem value_append (v : Value) (h : Own b)
    (hfst : b.memory = .null → v.encoded.length ≤ b.sizeLimit) (hlim : 1 ≤ b.sizeLimit)
    (hne : v.encoded ≠ []) : ∃ b', v.append b = some b' ∧ Appended b v.encoded b' := by
  cases v with
  | packedUi32 v => exact packed_append v.toUInt64 h hlim
  | packedUi64 v => exact packed_append v h hlim
  | bytes v =>
    have hv : ¬v = [] := hne
    rw [Value.append, obAppendBytes, if_neg hv]
    exact append_own h v hfst
  | str v =>
    have hv : ¬v.chars ++ [0] = [] := hne
    rw [Value.append, obAppendStr, obAppendBytes, if_neg hv]
    exact append_own h (v.chars ++ [0]) hfst
  | _ => exact append_own h _ hfst

/-- Values are appended one after the other. -/
theorem appendAll_own (h : Own b) (hfst : b.memory = .null → (encodedAll vals).length ≤ b.sizeLimit)
    (hlim : 1 ≤ b.sizeLimit) (hne : ∀ v ∈ vals, v.encoded ≠ []) :
    ∃ b', appendAll b vals = some b' ∧ Appended b (encodedAll vals) b' := by
  induction vals generalizing b with
  | nil => exact ⟨b, rfl, Appended.refl h⟩
  | cons v vals ih =>
    simp only [encodedAll, flatMap_cons, length_append] at hfst ⊢
    obtain ⟨c, hc, happ⟩ := value_append v h (fun hnull => by have := hfst hnull; omega) hlim
      (hne v mem_cons_self)
    obtain ⟨b', hb', hrest⟩ := ih happ.own (fun hnull => by
        rw [happ.sizeLimit]
        have hb : b.memory = .null := by
          rcases h.memory with hmem | ⟨hmem, -⟩
          · rw [happ.allocated hmem] at hnull
            cases hnull
          · exact hmem
        have := hfst hb
        simp only [encodedAll]
        omega)
      (by rw [happ.sizeLimit]; exact hlim) (fun w hw => hne w (mem_cons_of_mem v hw))
    refine ⟨b', ?_, happ.trans hrest⟩
    rw [appendAll, hc, bind_some, hb']

/-- Only a byte string of no bytes has no encoding, and it cannot be written. -/
theorem encoded_ne_nil {v : Value} (h : v.append b = some b') : v.encoded ≠ [] := by
  cases v with
  | packedUi32 v => exact packed_ne_nil v.toUInt64
  | packedUi64 v => exact packed_ne_nil v
  | bytes v =>
    intro hnil
    have hv : v = [] := hnil
    rw [Value.append, obAppendBytes, if_pos hv] at h
    cases h
  | str v => exact append_ne_nil_of_right_ne_nil _ (cons_ne_nil _ _)
  | _ => exact cons_ne_nil _ _

theorem appendAll_encoded {vals : List Value} (h : appendAll b vals = some b') :
    ∀ v ∈ vals, v.encoded ≠ [] := by
  induction vals generalizing b with
  | nil => exact forall_mem_nil _
  | cons v vals ih =>
    obtain ⟨c, hc, hrest⟩ := bind_eq_some_iff.mp h
    exact forall_mem_cons.mpr ⟨encoded_ne_nil hc, ih hrest⟩

theorem flip_holds (h : Appended obNew xs b) (hlen : xs.length < 2 ^ 62) :
    ∃ b', obFlip b = some b' ∧ Holds b' xs := by
  have hpos : b.position = xs.length := by
    rw [h.position]
    exact zero_add _
  have hlim : b.position ≤ sizeMax := by
    simp only [sizeMax]
    omega
  have hsta : b.memory = .static → b.position ≤ b.allocSize := by
    intro hmem
    rcases h.own.memory with hmem' | ⟨hmem', -⟩
    · cases hmem.symm.trans hmem'
    · cases hmem.symm.trans hmem'
  have hcon : b.bytes.take b.position = xs := h.written hlim
  have halc : b.position ≤ b.allocSize := by
    have hins := h.own.inside
    rw [h.sizeLimit] at hins
    exact hins hlim
  have hsize : b.allocSize < 2 ^ 63 := by
    have hle := h.allocSize
    have hnew : obNew.allocSize = 0 := rfl
    simp only [slack] at hle
    omega
  refine ⟨⟨b.bytes, b.memory, 0, 0, b.position⟩, ?_, ⟨hsize, Nat.zero_le _⟩, ?_⟩
  · rw [obFlip, obLimitsize, if_pos ⟨by simp only [sizeMax]; omega, le_rfl, Nat.zero_le _, hsta⟩]
    rfl
  simp only [ahead, slice_start_zero, Buffer.limit, Nat.sub_zero, Buffer.allocSize]
  rwa [min_eq_left (show b.position ≤ b.bytes.length from halc)]

/-! ## Reading values -/

theorem scanStr_exact (h : Sound b) (hcs : (ahead b).drop ofs = cs ++ 0 :: rest) (hzero : 0 ∉ cs)
    (hps : cs.length < passes) : (scanStr b passes ofs).1 = some (ofs + cs.length) := by
  induction cs generalizing ofs passes with
  | nil =>
    obtain ⟨hofs, hbyte, -⟩ := byteAt_of_drop hcs
    obtain ⟨passes, rfl⟩ := Nat.exists_eq_add_of_lt hps
    rw [scanStr, if_pos (h.testOffset_ahead (le_of_lt hofs)), if_pos hbyte]
    rfl
  | cons c cs ih =>
    obtain ⟨hofs, hbyte, hdrop⟩ := byteAt_of_drop hcs
    obtain ⟨passes, rfl⟩ := Nat.exists_eq_add_of_lt hps
    have hc : ¬c = 0 := fun hc => hzero (hc ▸ mem_cons_self)
    have hlen : cs.length < (c :: cs).length + passes := by
      rw [length_cons]
      omega
    have hrest := ih hdrop (fun hmem => hzero (mem_cons_of_mem c hmem)) hlen
    rw [scanStr, if_pos (h.testOffset_ahead (le_of_lt hofs)), hbyte, if_neg hc]
    refine hrest.trans ?_
    rw [length_cons, add_assoc, add_comm 1]

theorem str_read (s : CStr) (h : Holds b (s.chars ++ [0] ++ rest)) :
    (obGetStrPtr b).value = some s.chars ∧
      (obGetStrPtr b).buffer = b.advance (s.chars ++ [0]).length := by
  have hah : ahead b = s.chars ++ 0 :: rest := by
    rw [h.ahead_eq, append_assoc]
    rfl
  have hlen : s.chars.length < (ahead b).length := by
    rw [hah, length_append, length_cons]
    omega
  have hscan := scanStr_exact h.sound (drop_zero.trans hah) s.nonzero
    (show s.chars.length < b.allocSize + 2 by
      have hle := limit_le_allocSize b
      rw [ahead_length] at hlen
      omega)
  have hchs : slice b.bytes b.position s.chars.length = s.chars := by
    have htake : (ahead b).take s.chars.length = s.chars := by rw [hah, take_left]
    rw [ahead_length] at hlen
    rwa [ahead, take_slice _ _ _ _ (le_of_lt hlen)] at htake
  rw [zero_add] at hscan
  rw [obGetStrPtr]
  split
  · next heq =>
    rw [heq] at hscan
    cases hscan
    rw [hchs, length_append]
    exact ⟨rfl, rfl⟩
  next heq =>
  rw [heq] at hscan
  cases hscan

theorem packed_read {α : Type} [OrOp α] (convert : UInt32 → α) (failed zero : α) (v : UInt64)
    (h : Holds b (packed v ++ rest)) :
    (unpackLoop convert failed (b.allocSize + 1) b 0 (some zero)).value =
        unpacked convert v 0 (some zero) ∧
      (unpackLoop convert failed (b.allocSize + 1) b 0 (some zero)).buffer =
        b.advance (packed v).length := by
  apply unpackLoop_packed convert failed v h
  have hlen := h.length_eq
  have hle := limit_le_allocSize b
  rw [length_append] at hlen
  omega

theorem fixed_read {α : Type} {failed v : α} {value : (Nat → UInt8) → α} (h : Holds b (xs ++ rest))
    (hn : xs.length = n) (hval : (∀ i, i < n → b.byteAt (b.position + i) = xs.getD i 0) →
      (value (fun i => b.byteAt (b.position + i)) = v ↔ p)) :
    ((b.readFixed n failed value).value = v ↔ p) ∧
      (b.readFixed n failed value).buffer = b.advance xs.length := by
  subst hn
  rw [h.readFixed]
  exact ⟨hval h.byteAt, rfl⟩

/-- The reader of a value takes its bytes, and returns it if it is exact. -/
theorem value_read (v : Value) (h : Holds b (v.encoded ++ rest)) (hne : v.encoded ≠ []) :
    (v.Returned b ↔ v.Exact) ∧ v.after b = b.advance v.encoded.length := by
  cases v with
  | byte v =>
    have hread : obGet b = _ := Holds.obGet h
    rw [Value.Returned, Value.after, hread]
    exact ⟨iff_of_true rfl trivial, rfl⟩
  | ui16 v =>
    refine fixed_read h rfl fun hbyte => ?_
    simp only [hbyte, Nat.reduceLT]
    exact iff_of_true (ui16_bytes v) trivial
  | ui16Rv v =>
    refine fixed_read h rfl fun hbyte => ?_
    simp only [hbyte, Nat.reduceLT]
    exact iff_of_true ((UInt16.or_comm _ _).trans (ui16_bytes v)) trivial
  | ui32 v =>
    refine fixed_read h rfl fun hbyte => ?_
    simp only [hbyte, Nat.reduceLT]
    exact iff_of_true (ui32_bytes v) trivial
  | ui32Rv v =>
    refine fixed_read h rfl fun hbyte => ?_
    simp only [hbyte, Nat.reduceLT]
    exact iff_of_true (ui32Rv_bytes v) trivial
  | ui64 v =>
    refine fixed_read h rfl fun hbyte => ?_
    simp only [hbyte, Nat.reduceLT]
    exact misread_iff v
  | ui64Rv v =>
    refine fixed_read h rfl fun hbyte => ?_
    simp only [hbyte, Nat.reduceLT]
    exact iff_of_true (ui64_bytes v) trivial
  | packedUi32 v =>
    have hread := packed_read id 0xFFFFFFFF 0 v.toUInt64 h
    rw [unpacked_ui32] at hread
    exact ⟨iff_of_true hread.1 trivial, hread.2⟩
  | packedUi64 v =>
    have hread := packed_read intToUi64 0xFFFFFFFFFFFFFFFF 0 v h
    rw [Value.Returned, obGetPackedUi64, hread.1]
    exact ⟨unpacked_ui64_iff v, hread.2⟩
  | bytes v =>
    have hread := h.obGetBytes
    exact ⟨iff_of_true (congrArg Read.value hread) hne, congrArg Read.buffer hread⟩
  | str v =>
    have hread := str_read v h
    exact ⟨iff_of_true hread.1 trivial, hread.2⟩

/-- Values are read back exactly if each of them is exact. -/
theorem readBack_iff (h : Holds b (encodedAll vals)) (hne : ∀ v ∈ vals, v.encoded ≠ []) :
    ReadBack b vals ↔ ∀ v ∈ vals, v.Exact := by
  induction vals generalizing b with
  | nil =>
    have hlen := h.length_eq
    have hin := h.sound.inside
    simp only [encodedAll, flatMap_nil, length_nil] at hlen
    refine iff_of_true ?_ (fun v hv => nomatch hv)
    change b.position = b.limit
    omega
  | cons v vals ih =>
    have hcons : Holds b (v.encoded ++ encodedAll vals) := h
    obtain ⟨hret, haft⟩ := value_read v hcons (hne v mem_cons_self)
    have hrest := ih hcons.advance (fun w hw => hne w (mem_cons_of_mem v hw))
    rw [ReadBack, haft, hret, hrest, forall_mem_cons]

/-! ## Round trips -/

/-- Values that are written to a new buffer one after the other are read back if and
only if each of them is exact. -/
theorem values_round_trip_iff (values : List Value) (hlen : (encodedAll values).length < 2 ^ 62) :
    RoundTrip values ↔ ∀ v ∈ values, v.Exact := by
  have hfst : obNew.memory = .null → (encodedAll values).length ≤ obNew.sizeLimit := by
    intro _
    simp only [obNew, sizeMax]
    omega
  constructor
  · rintro ⟨b, b', happ, hflip, hback⟩
    have hne := appendAll_encoded happ
    obtain ⟨c, hc, happe⟩ := appendAll_own own_new hfst (by decide) hne
    obtain ⟨c', hc', hhl⟩ := flip_holds happe hlen
    rw [happ] at hc
    cases hc
    rw [hflip] at hc'
    cases hc'
    exact (readBack_iff hhl hne).mp hback
  intro hexa
  have hne : ∀ v ∈ values, v.encoded ≠ [] := by
    intro v hv
    cases v with
    | bytes v => exact hexa _ hv
    | packedUi32 v => exact packed_ne_nil v.toUInt64
    | packedUi64 v => exact packed_ne_nil v
    | str v => exact append_ne_nil_of_right_ne_nil _ (cons_ne_nil _ _)
    | _ => exact cons_ne_nil _ _
  obtain ⟨b, happ, happe⟩ := appendAll_own own_new hfst (by decide) hne
  obtain ⟨b', hflip, hhl⟩ := flip_holds happe hlen
  exact ⟨b, b', happ, hflip, (readBack_iff hhl hne).mpr hexa⟩

theorem values_round_trip_three :
    RoundTrip [.ui64 (2 ^ 40 + 1), .packedUi64 300, .str ⟨[72, 105], by decide⟩] := by
  refine (values_round_trip_iff _ (by decide +kernel)).mpr ?_
  intro v hv
  simp only [mem_cons, not_mem_nil, or_false] at hv
  rcases hv with rfl | rfl | rfl
  · exact .inl (by decide)
  · exact Nat.lt_of_sub_eq_succ rfl
  · trivial

def readAlone {α : Type} (v : Value) (read : Buffer → Read α) : Option α :=
  ((appendAll obNew [v]).bind obFlip).map fun b => (read b).value

/-- `ob_get_ui64` returns 2^36 for 2^32, and `ob_get_packed_ui64` sets the upper half
of a number whose bit 31 is set. -/
theorem large_numbers_misread : readAlone (.ui64 0x100000000) obGetUi64 = some 0x1000000000 ∧
      readAlone (.packedUi64 0x80000000) obGetPackedUi64 = some (some 0xFFFFFFFF80000000) ∧
      ¬RoundTrip [.ui64 0x100000000] := by
  have hread : readAlone (.ui64 0x100000000) obGetUi64 = some 0x1000000000 := by decide +kernel
  refine ⟨hread, by decide +kernel, ?_⟩
  rintro ⟨b, b', happ, hflip, hret, -⟩
  have hval : (obGetUi64 b').value = 0x100000000 := hret
  rw [readAlone, happ, bind_some, hflip, map_some, hval] at hread
  exact absurd hread (by decide)

end BufferCodec
