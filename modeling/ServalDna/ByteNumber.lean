import Mathlib.Data.Nat.Digits.Lemmas

/-!
# Numbers held in byte strings

A byte string is read as a natural number, least significant byte first. The
only operation is addition with carry, cut off at the end of the string: the
carry out of the last byte is lost, so the sum is taken modulo `256 ^ length`.
-/
namespace ByteNumber

/-- The number written in `bytes`, least significant byte first. -/
def value (bytes : List UInt8) : Nat := Nat.ofDigits 256 (bytes.map UInt8.toNat)

@[simp] theorem value_nil : value [] = 0 := rfl
@[simp] theorem value_cons (b : UInt8) (rest : List UInt8) :
    value (b :: rest) = b.toNat + 256 * value rest := by simp [value, Nat.ofDigits_cons]

variable (bytes : List UInt8)

theorem value_lt : value bytes < 256 ^ bytes.length := by
  induction bytes with
  | nil => simp
  | cons b rest ih =>
    have hb := b.toNat_lt
    rw [value_cons, List.length_cons, Nat.pow_succ]
    omega

/-- Two strings of one length that hold the same number are the same string. -/
theorem value_inj (hlen : xs.length = ys.length) (h : value xs = value ys) : xs = ys := by
  induction xs generalizing ys with
  | nil => exact (List.length_eq_zero_iff.mp hlen.symm).symm
  | cons x xs ih =>
    cases ys with
    | nil => simp at hlen
    | cons y ys =>
      have hx := x.toNat_lt
      have hy := y.toNat_lt
      simp only [value_cons] at h
      have hxy : x = y := UInt8.toNat_inj.mp (by omega)
      have hrest := ih (by simpa using hlen) (by omega)
      rw [hxy, hrest]

/-- Add `v` to the number held in the string, byte by byte. Once the carry is
zero the remaining bytes are not touched. -/
def addCarry : List UInt8 → Nat → List UInt8
  | [], _ => []
  | b :: rest, v =>
    if v = 0 then b :: rest
    else UInt8.ofNat (b.toNat + v % 256) :: addCarry rest (v / 256 + (b.toNat + v % 256) / 256)

@[simp] theorem addCarry_zero : addCarry bytes 0 = bytes := by
  cases bytes <;> simp [addCarry]

@[simp] theorem addCarry_length (v : Nat) : (addCarry bytes v).length = bytes.length := by
  induction bytes generalizing v with
  | nil => rfl
  | cons b rest ih =>
    unfold addCarry
    split
    · rfl
    · simp [ih]

theorem value_addCarry (v : Nat) :
    value (addCarry bytes v) = (value bytes + v) % 256 ^ bytes.length := by
  induction bytes generalizing v with
  | nil => simp [addCarry, Nat.mod_one]
  | cons b rest ih =>
    by_cases hv : v = 0
    · subst v
      rw [addCarry_zero, add_zero, Nat.mod_eq_of_lt (value_lt _)]
    have hstep : addCarry (b :: rest) v = UInt8.ofNat (b.toNat + v % 256) ::
        addCarry rest (v / 256 + (b.toNat + v % 256) / 256) := by
      rw [addCarry, if_neg hv]
    rw [hstep, value_cons, ih, value_cons, List.length_cons, Nat.pow_succ, mul_comm (256 ^ _),
      Nat.mod_mul]
    have hbyte : (UInt8.ofNat (b.toNat + v % 256)).toNat = (b.toNat + v % 256) % 256 := by simp
    rw [hbyte]
    -- the low byte and the carry are the remainder and the quotient of one division by 256
    have hlow : (b.toNat + 256 * value rest + v) % 256 = (b.toNat + v % 256) % 256 := by omega
    have hhigh : (b.toNat + 256 * value rest + v) / 256 =
        value rest + (v / 256 + (b.toNat + v % 256) / 256) := by omega
    rw [hlow, hhigh]

/-- Successive additions are one addition, whatever carries are lost on the way. -/
theorem addCarry_addCarry (u v : Nat) : addCarry (addCarry bytes u) v = addCarry bytes (u + v) := by
  apply value_inj (by simp)
  rw [value_addCarry, value_addCarry, value_addCarry, addCarry_length, Nat.mod_add_mod, add_assoc]

theorem take_addCarry (n : Nat) (bytes : List UInt8) (v : Nat) :
    (addCarry bytes v).take n = addCarry (bytes.take n) v := by
  induction bytes generalizing n v with
  | nil => simp [addCarry]
  | cons b rest ih =>
    cases n with
    | zero => simp [addCarry]
    | succ n =>
      by_cases hv : v = 0
      · simp [hv]
      · simp [addCarry, hv, ih]

end ByteNumber
