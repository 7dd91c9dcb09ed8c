import Mathlib.Algebra.Group.Nat.Defs
import Mathlib.Logic.Function.Iterate

/-!
# Golay code

Twelve bits of data are followed by eleven check bits, the remainder of a division
of the data by a polynomial, and by a parity bit. A receiver divides the whole word: the
remainder of a word that has not been changed is zero.
-/
namespace Golay

def poly : BitVec 32 := 0xAE3#32

def divide (cw : BitVec 32) : BitVec 32 :=
  (if cw &&& 1#32 ≠ 0#32 then cw ^^^ poly else cw) >>> 1

def golay (cw : BitVec 32) : BitVec 32 :=
  let c := cw &&& 0xfff#32
  (divide^[12] c <<< 12) ||| c

def parity (cw : BitVec 32) : Bool :=
  let p := cw.setWidth 8 ^^^ (cw >>> 8).setWidth 8 ^^^ (cw >>> 16).setWidth 8
  let p := p ^^^ p >>> 4
  let p := p ^^^ p >>> 2
  let p := p ^^^ p >>> 1
  p.getLsbD 0

def pack (a b c : UInt8) : BitVec 32 :=
  a.toBitVec.setWidth 32 ||| b.toBitVec.setWidth 32 <<< 8 ||| c.toBitVec.setWidth 32 <<< 16

def unpack (cw : BitVec 32) : List UInt8 :=
  [⟨cw.setWidth 8⟩, ⟨(cw >>> 8).setWidth 8⟩, ⟨(cw >>> 16).setWidth 8⟩]

def golayWord (cw : BitVec 32) : BitVec 32 :=
  let cw := golay cw
  if parity cw then cw ||| 0x800000#32 else cw

def golayEncode (a b c : UInt8) : List UInt8 := unpack (golayWord (pack a b c))

def syndrome (cw : BitVec 32) : BitVec 32 := divide^[12] (cw &&& 0x7fffff#32) <<< 12

def weight (cw : BitVec 32) : Nat := (List.range 24).countP (cw.getLsbD ·)

def rotateLeft (cw : BitVec 32) : BitVec 32 :=
  (if cw &&& 0x400000#32 ≠ 0#32 then cw <<< 1 ||| 1#32 else cw <<< 1) &&& 0x7fffff#32

def rotateRight (cw : BitVec 32) : BitVec 32 :=
  (if cw &&& 1#32 ≠ 0#32 then cw >>> 1 ||| 0x400000#32 else cw >>> 1) &&& 0x7fffff#32

/-- Checks the syndrome of each cyclic shift; `w` bits may be wrong. -/
def correctShift (w : Nat) : Nat → Nat → BitVec 32 → Option (BitVec 32)
  | 0, _, _ => none
  | passes + 1, i, cw =>
    if weight (syndrome cw) ≤ w then some (rotateRight^[i] (cw ^^^ syndrome cw))
    else correctShift w passes (i + 1) (rotateLeft cw)

def correctTrial (cw : BitVec 32) (w : Nat) : Option (BitVec 32) :=
  if syndrome cw = 0#32 then some cw else correctShift w 23 0 cw

def correct (cw : BitVec 32) : BitVec 32 :=
  ((correctTrial cw 3).or
    ((List.range 23).findSome? fun j => correctTrial (cw ^^^ 1#32 <<< j) 2)).getD cw

/-- The data of a codeword. The number of bits that were corrected is not returned here. -/
def golayDecode (a b c : UInt8) : BitVec 32 :=
  let cw := pack a b c
  let parityBit := cw &&& 0x800000#32
  (correct (cw &&& ~~~0x800000#32) ||| parityBit) &&& 0xfff#32

/-! ## Words that have not been changed -/

variable {x y : BitVec 32}

theorem and_ones (hn : n ≤ 32) (h : x.toNat < 2 ^ n) : x &&& BitVec.ofNat 32 (2 ^ n - 1) = x := by
  apply BitVec.eq_of_toNat_eq
  have hpow : 2 ^ n ≤ 2 ^ 32 := Nat.pow_le_pow_right (by decide) hn
  rw [BitVec.toNat_and, BitVec.toNat_ofNat, Nat.mod_eq_of_lt (by omega), Nat.and_two_pow_sub_one_eq_mod,
    Nat.mod_eq_of_lt h]

theorem getLsbD_of_lt (h : x.toNat < 2 ^ n) (hi : n ≤ i) : x.getLsbD i = false :=
  Nat.testBit_lt_two_pow (Nat.lt_of_lt_of_le h (Nat.pow_le_pow_right (by decide) hi))

theorem shiftLeft_shiftRight_one (h : y.toNat < 2 ^ 12) (hk : k < 12) :
    (y <<< (k + 1)) >>> 1 = y <<< k := by
  apply BitVec.eq_of_getLsbD_eq
  intro i hi
  rw [BitVec.getLsbD_ushiftRight, BitVec.getLsbD_shiftLeft, BitVec.getLsbD_shiftLeft]
  by_cases hlast : i = 31
  · rw [hlast, getLsbD_of_lt h (by omega : 12 ≤ 31 - k)]
    simp
  have hpl : 1 + i - (k + 1) = i - k := by omega
  have hbel : 1 + i < k + 1 ↔ i < k := by omega
  rw [hpl, decide_eq_decide.mpr hbel, decide_eq_true (by omega : 1 + i < 32), decide_eq_true hi]

/-- The division goes through a word that stands above the bits that it examines. -/
theorem divide_xor (x : BitVec 32) (hy : y.toNat < 2 ^ 12) (hk : k < 12) :
    divide (x ^^^ y <<< (k + 1)) = divide x ^^^ y <<< k := by
  have hlow : (x ^^^ y <<< (k + 1)) &&& 1#32 = x &&& 1#32 := by
    apply BitVec.eq_of_getLsbD_eq
    intro i hi
    by_cases hzero : i = 0
    · subst hzero
      simp
    · simp [hzero]
  rw [divide, divide, hlow, ← shiftLeft_shiftRight_one hy hk]
  split
  · rw [← BitVec.ushiftRight_xor_distrib]
    congr 1
    ac_rfl
  · rw [BitVec.ushiftRight_xor_distrib]

theorem divide_iterate_xor (x : BitVec 32) (hy : y.toNat < 2 ^ 12) (hn : n ≤ 12) :
    divide^[n] (x ^^^ y <<< n) = divide^[n] x ^^^ y := by
  induction n generalizing x with
  | zero => simp
  | succ n ih => rw [Function.iterate_succ_apply, divide_xor x hy hn, ih (divide x) (by omega),
      Function.iterate_succ_apply]

theorem divide_lt (h : x.toNat < 2 ^ 12) : (divide x).toNat < 2 ^ 11 := by
  rw [divide, BitVec.toNat_ushiftRight, Nat.shiftRight_eq_div_pow]
  split
  · have hxor : (x ^^^ poly).toNat < 2 ^ 12 := by exact Nat.xor_lt_two_pow h (by decide)
    omega
  · omega

theorem divide_iterate_lt (h : x.toNat < 2 ^ 12) : (divide^[n + 1] x).toNat < 2 ^ 11 := by
  induction n generalizing x with
  | zero => exact divide_lt h
  | succ n ih =>
    exact ih (Nat.lt_trans (divide_lt h) (by decide))

theorem getLsbD_data : (0xfff#32).getLsbD i = decide (i < 12) := by
  rw [BitVec.getLsbD_ofNat, Nat.testBit_two_pow_sub_one 12 i]
  by_cases hi : i < 12
  · simp [hi, (by omega : i < 32)]
  · simp [hi]

theorem getLsbD_parityBit : (0x800000#32).getLsbD i = decide (i = 23) := by
  rw [(by decide : 0x800000#32 = BitVec.twoPow 32 23), BitVec.getLsbD_twoPow]
  simp [eq_comm]

section Codeword

variable (d : BitVec 32)

theorem data_lt : (d &&& 0xfff#32).toNat < 2 ^ 12 :=
  Nat.lt_of_le_of_lt (by rw [BitVec.toNat_and]; exact Nat.and_le_right) (by decide : (0xfff : Nat) < 2 ^ 12)

theorem check_lt : (divide^[12] (d &&& 0xfff#32)).toNat < 2 ^ 11 := divide_iterate_lt (data_lt d)

theorem golay_eq_xor : golay d = (d &&& 0xfff#32) ^^^ divide^[12] (d &&& 0xfff#32) <<< 12 := by
  apply BitVec.eq_of_getLsbD_eq
  intro i hi
  rw [golay, BitVec.getLsbD_or, BitVec.getLsbD_xor, BitVec.getLsbD_shiftLeft]
  by_cases hlow : i < 12
  · simp [hlow]
  rw [getLsbD_of_lt (data_lt d) (by omega)]
  simp

theorem golay_lt : (golay d).toNat < 2 ^ 23 := by
  have hdata := data_lt d
  have hcheck := check_lt d
  apply Nat.or_lt_two_pow
  · rw [BitVec.toNat_shiftLeft, Nat.shiftLeft_eq]
    omega
  · omega

theorem syndrome_golay : syndrome (golay d) = 0#32 := by
  have hmask : golay d &&& 0x7fffff#32 = golay d := and_ones (by decide) (golay_lt d)
  have hcheck := Nat.lt_trans (check_lt d) (by decide : 2 ^ 11 < 2 ^ 12)
  rw [syndrome, hmask, golay_eq_xor, divide_iterate_xor _ hcheck (Nat.le_refl _), BitVec.xor_self]
  rfl

theorem getLsbD_golay (hi : i < 12) : (golay d).getLsbD i = d.getLsbD i := by
  rw [golay_eq_xor, BitVec.getLsbD_xor, BitVec.getLsbD_shiftLeft, BitVec.getLsbD_and, getLsbD_data]
  simp [hi]

theorem getLsbD_golayWord (hi : i ≠ 23) : (golayWord d).getLsbD i = (golay d).getLsbD i := by
  rw [golayWord]
  split
  · rw [BitVec.getLsbD_or, getLsbD_parityBit]
    simp [hi]
  · rfl

theorem golayWord_data : golayWord d &&& ~~~0x800000#32 = golay d := by
  apply BitVec.eq_of_getLsbD_eq
  intro i hi
  rw [BitVec.getLsbD_and, BitVec.getLsbD_not, getLsbD_parityBit]
  by_cases hpar : i = 23
  · subst hpar
    rw [getLsbD_of_lt (golay_lt d) (Nat.le_refl 23)]
    simp
  rw [getLsbD_golayWord d hpar]
  simp [hi, hpar]

theorem golayWord_lt : (golayWord d).toNat < 2 ^ 24 := by
  have hgolay := golay_lt d
  rw [golayWord]
  split
  · exact Nat.or_lt_two_pow (by omega) (by decide)
  · omega

end Codeword

theorem pack_unpack {w : BitVec 32} (h : w.toNat < 2 ^ 24) :
    pack ⟨w.setWidth 8⟩ ⟨(w >>> 8).setWidth 8⟩ ⟨(w >>> 16).setWidth 8⟩ = w := by
  apply BitVec.eq_of_getLsbD_eq
  intro i hi
  rw [pack, BitVec.getLsbD_or, BitVec.getLsbD_or, BitVec.getLsbD_shiftLeft, BitVec.getLsbD_shiftLeft]
  simp only [BitVec.getLsbD_setWidth, BitVec.getLsbD_ushiftRight, hi, decide_true, Bool.true_and]
  -- the bits of the three bytes, and those above them
  rcases (by omega : i < 8 ∨ (8 ≤ i ∧ i < 16) ∨ (16 ≤ i ∧ i < 24) ∨ 24 ≤ i) with
    hi | ⟨hge, hi⟩ | ⟨hge, hi⟩ | hge
  · simp [hi, (by omega : i < 16)]
  · have h8 : decide (i < 8) = false := decide_eq_false (by omega)
    simp [h8, hi, (by omega : i - 8 < 8), (by omega : i - 8 < 32), Nat.add_sub_cancel' hge]
  · have h8 : decide (i < 8) = false := decide_eq_false (by omega)
    have h16 : decide (i < 16) = false := decide_eq_false (by omega)
    have h8' : decide (i - 8 < 8) = false := decide_eq_false (by omega)
    simp [h8, h16, h8', (by omega : i - 16 < 8), (by omega : i - 16 < 32), Nat.add_sub_cancel' hge]
  have h8 : decide (i < 8) = false := decide_eq_false (by omega)
  have h8' : decide (i - 8 < 8) = false := decide_eq_false (by omega)
  have h16 : decide (i - 16 < 8) = false := decide_eq_false (by omega)
  rw [getLsbD_of_lt h hge, h8, h8', h16]
  simp

theorem correct_golay : correct (golay d) = golay d := by
  rw [correct, correctTrial, if_pos (syndrome_golay d), Option.some_or, Option.getD_some]

/-- The data of a word that has not been changed. -/
theorem golayDecode_unpack (d : BitVec 32) (h : unpack (golayWord d) = [a, b, c]) :
    golayDecode a b c = d &&& 0xfff#32 := by
  have hpack : pack a b c = golayWord d := by
    cases h
    exact pack_unpack (golayWord_lt d)
  rw [golayDecode, hpack, golayWord_data, correct_golay]
  apply BitVec.eq_of_getLsbD_eq
  intro i hi
  rw [BitVec.getLsbD_and, BitVec.getLsbD_or, BitVec.getLsbD_and, BitVec.getLsbD_and, getLsbD_data,
    getLsbD_parityBit]
  by_cases hdata : i < 12
  · have hpar : i ≠ 23 := by omega
    simp [getLsbD_golay d hdata, hpar]
  · simp [hdata]

theorem unpack_head (d : BitVec 32) : (golayWord d).setWidth 8 = d.setWidth 8 := by
  apply BitVec.eq_of_getLsbD_eq
  intro i hi
  rw [BitVec.getLsbD_setWidth, BitVec.getLsbD_setWidth, getLsbD_golayWord d (by omega),
    getLsbD_golay d (by omega)]

end Golay
