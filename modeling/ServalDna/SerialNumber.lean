import Mathlib.Data.UInt
import Mathlib.Data.Int.Init

/-!
# Serial numbers of sixteen bits

A counter that wraps at `2 ^ 16` is compared through the sign of the difference.
`serial x` is what is left of the true number `x`. The sign tells the order of
two true numbers only while they are close, and these lemmas say what it tells
for any two.
-/
namespace SerialNumber

/-- The sixteen bits of a true number. -/
def serial (x : Int) : UInt16 := UInt16.ofInt x

def compareWrapped (one two : UInt16) : Int := (one - two).toBitVec.toInt

theorem serial_toNat (x : Int) : ((serial x).toNat : Int) = x % 65536 := by
  rw [serial, UInt16.ofInt, UInt16.toNat_ofNat']
  omega

theorem serial_eq_iff (x y : Int) : serial x = serial y ↔ (x - y) % 65536 = 0 := by
  have hx := serial_toNat x
  have hy := serial_toNat y
  rw [← UInt16.toNat_inj]
  omega

theorem serial_add_one (x : Int) : serial x + 1 = serial (x + 1) := by
  have hx := serial_toNat x
  have hy := serial_toNat (x + 1)
  rw [← UInt16.toNat_inj, UInt16.toNat_add]
  simp only [UInt16.reduceToNat]
  omega

theorem serial_sub_one (x : Int) : serial x - 1 = serial (x - 1) := by
  have hx := serial_toNat x
  have hy := serial_toNat (x - 1)
  rw [← UInt16.toNat_inj, UInt16.toNat_sub]
  simp only [UInt16.reduceToNat]
  omega

theorem serial_sub_toNat (x y : Int) : ((serial x - serial y).toNat : Int) = (x - y) % 65536 := by
  have hx := serial_toNat x
  have hy := serial_toNat y
  rw [UInt16.toNat_sub]
  omega

theorem compareWrapped_serial : compareWrapped (serial x) (serial y) =
      if (x - y) % 65536 < 32768 then (x - y) % 65536 else (x - y) % 65536 - 65536 := by
  have hsub := serial_sub_toNat x y
  rw [compareWrapped, BitVec.toInt_eq_toNat_cond, UInt16.toNat_toBitVec]
  split <;> split <;> omega

theorem compareWrapped_neg_iff (x y : Int) :
    compareWrapped (serial x) (serial y) < 0 ↔ 32768 ≤ (x - y) % 65536 := by
  rw [compareWrapped_serial]
  split <;> omega

theorem compareWrapped_pos_iff (x y : Int) : 0 < compareWrapped (serial x) (serial y) ↔
      0 < (x - y) % 65536 ∧ (x - y) % 65536 < 32768 := by
  rw [compareWrapped_serial]
  split <;> omega

end SerialNumber
