import ServalDna.ListSlice
import Mathlib.Data.UInt

/-!
# Stream ciphers

A stream cipher combines each byte of a text with the byte of the key stream at
its place. `xorFrom stream start text` does this for a piece of the text that
begins at the place `start`, so pieces may be combined in any order and put
together afterwards.
-/
namespace KeyStream

open ListSlice List

def xorFrom (stream : Nat → UInt8) : Nat → List UInt8 → List UInt8
  | _, [] => []
  | start, b :: rest => (b ^^^ stream start) :: xorFrom stream (start + 1) rest

variable (stream : Nat → UInt8)

@[simp] theorem xorFrom_nil (start : Nat) : xorFrom stream start [] = [] :=
  rfl

@[simp] theorem xorFrom_length (start : Nat) (text : List UInt8) :
    (xorFrom stream start text).length = text.length := by
  induction text generalizing start with
  | nil => rfl
  | cons b rest ih => rw [xorFrom, length_cons, ih, length_cons]

theorem xorFrom_append (start : Nat) (xs ys : List UInt8) : xorFrom stream start (xs ++ ys) =
      xorFrom stream start xs ++ xorFrom stream (start + xs.length) ys := by
  induction xs generalizing start with
  | nil => simp
  | cons b rest ih =>
    rw [cons_append, xorFrom, ih, xorFrom, cons_append, length_cons, add_right_comm start 1, add_assoc]

/-- The key stream is applied twice. -/
theorem xorFrom_xorFrom (start : Nat) (text : List UInt8) :
    xorFrom stream start (xorFrom stream start text) = text := by
  induction text generalizing start with
  | nil => rfl
  | cons b rest ih => rw [xorFrom, xorFrom, ih, UInt8.xor_assoc, UInt8.xor_self, UInt8.xor_zero]

theorem xorFrom_congr {stream stream' : Nat → UInt8} {text : List UInt8}
    (h : ∀ i, i < text.length → stream (start + i) = stream' (start' + i)) :
    xorFrom stream start text = xorFrom stream' start' text := by
  induction text generalizing start start' with
  | nil => rfl
  | cons b rest ih =>
    have hhead := h 0 (by simp)
    have htail : xorFrom stream (start + 1) rest = xorFrom stream' (start' + 1) rest := by
      apply ih
      intro i hi
      have hnext := h (i + 1) (by simpa using hi)
      rwa [add_right_comm start 1, add_right_comm start' 1, add_assoc, add_assoc]
    rw [xorFrom, xorFrom, htail]
    rw [add_zero, add_zero] at hhead
    rw [hhead]

theorem xorFrom_drop (start n : Nat) (text : List UInt8) :
    (xorFrom stream start text).drop n = xorFrom stream (start + n) (text.drop n) := by
  induction text generalizing start n with
  | nil => simp
  | cons b rest ih =>
    cases n with
    | zero => rfl
    | succ n =>
      rw [xorFrom, drop_succ_cons, ih, drop_succ_cons, add_assoc, add_comm 1]

theorem xorFrom_take : (xorFrom stream start text).take n = xorFrom stream start (text.take n) := by
  induction text generalizing start n with
  | nil => simp
  | cons b rest ih =>
    cases n with
    | zero => rfl
    | succ n => rw [xorFrom, take_succ_cons, ih, take_succ_cons, xorFrom]

/-- A piece of the text gives the same piece of the result. -/
theorem slice_xorFrom (start a n : Nat) (text : List UInt8) :
    slice (xorFrom stream start text) a n = xorFrom stream (start + a) (slice text a n) := by
  rw [slice, xorFrom_drop, xorFrom_take, slice]

end KeyStream
