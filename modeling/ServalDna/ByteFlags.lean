import Mathlib.Logic.Basic

/-!
# Flags held in a byte

A flag is a byte with one bit set, and a set of flags is the byte that joins
them. A test for a flag goes through the join bit by bit, and a mask that shares
no bit with the flag hides it.
-/
namespace ByteFlags

def hasFlag (flags flag : UInt8) : Bool := flags &&& flag != 0

def flagIf (set : Bool) (flag : UInt8) : UInt8 := if set then flag else 0

theorem and_or_distrib (a b flag : UInt8) : (a ||| b) &&& flag = (a &&& flag) ||| (b &&& flag) := by
  apply UInt8.toBitVec_inj.mp
  ext i
  simp [Bool.and_or_distrib_right]

@[simp] theorem hasFlag_or (a b flag : UInt8) :
    hasFlag (a ||| b) flag = (hasFlag a flag || hasFlag b flag) := by
  rw [Bool.eq_iff_iff]
  simp only [hasFlag, and_or_distrib, bne_iff_ne, Bool.or_eq_true, ne_eq, UInt8.or_eq_zero_iff,
    not_and_or]

theorem hasFlag_mask (a mask flag : UInt8) (h : mask &&& flag = 0) :
    hasFlag (a &&& mask) flag = false := by
  simp [hasFlag, UInt8.and_assoc, h]

theorem hasFlag_flagIf (set : Bool) (mine flag : UInt8) :
    hasFlag (flagIf set mine) flag = (set && hasFlag mine flag) := by
  cases set <;> simp [flagIf, hasFlag]

end ByteFlags
