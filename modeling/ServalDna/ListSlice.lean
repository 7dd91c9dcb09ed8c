import Mathlib.Algebra.Group.Nat.Defs
import Mathlib.Data.List.Basic

/-!
# Slices of lists

`slice l start length` is the run of `length` elements from index `start`, cut
off at the end of the list. `overwrite l start bytes` replaces the elements from
index `start` on by `bytes`.
-/
namespace ListSlice

open List

variable {α : Type}

def slice (l : List α) (start length : Nat) : List α := (l.drop start).take length

variable (l : List α)

@[simp] theorem slice_length (start length : Nat) :
    (slice l start length).length = min length (l.length - start) := by simp [slice]

@[simp] theorem slice_zero_length : slice l start 0 = [] := by simp [slice]

theorem slice_slice_length (start length : Nat) :
    slice l start (slice l start length).length = slice l start length := by
  rw [slice_length, slice, slice, ← length_drop, ← take_eq_take_min]

theorem slice_append_drop (start length : Nat) :
    slice l start length ++ l.drop (start + (slice l start length).length) = l.drop start := by
  have h := slice_slice_length l start length
  generalize (slice l start length).length = n at h ⊢
  rw [← h, slice, ← drop_drop, take_append_drop]

theorem slice_start_zero (length : Nat) : slice l 0 length = l.take length := by simp [slice]

theorem slice_slice (h : b + n ≤ m) : slice (slice l a m) b n = slice l (a + b) n := by
  simp only [slice, drop_take, take_take, drop_drop]
  rw [Nat.min_eq_left (by omega)]

theorem slice_append_slice (start m n : Nat) :
    slice l start m ++ slice l (start + m) n = slice l start (m + n) := by
  simp only [slice, take_add, drop_drop]

theorem slice_append_left (xs ys : List α) (start length : Nat) (h : start + length ≤ xs.length) :
    slice (xs ++ ys) start length = slice xs start length := by
  rw [slice, slice, drop_append_of_le_length (by omega),
    take_append_of_le_length (by rw [length_drop]; omega)]

theorem slice_append_right (xs ys : List α) (start length : Nat) (h : xs.length ≤ start) :
    slice (xs ++ ys) start length = slice ys (start - xs.length) length := by
  rw [slice, slice, drop_append, drop_of_length_le h, nil_append]

theorem slice_middle (pre l after : List α) :
    slice (pre ++ l ++ after) pre.length l.length = l := by
  simp [slice]

theorem take_append_slice : l.take m ++ slice l m n = l.take (m + n) := by
  simp only [slice, take_add]

theorem take_slice (start length n : Nat) (h : n ≤ length) :
    (slice l start length).take n = slice l start n := by
  simp only [slice, take_take]
  rw [Nat.min_eq_left h]

theorem drop_slice (start length n : Nat) :
    (slice l start length).drop n = slice l (start + n) (length - n) := by
  simp only [slice, drop_take, drop_drop]

def overwrite (l : List α) (start : Nat) (bytes : List α) : List α :=
  l.take start ++ bytes ++ l.drop (start + bytes.length)

@[simp] theorem overwrite_nil : overwrite l start [] = l := by simp [overwrite]

theorem overwrite_length (start : Nat) (bytes : List α) (h : start + bytes.length ≤ l.length) :
    (overwrite l start bytes).length = l.length := by
  simp only [overwrite, length_append, length_take, length_drop]
  omega

/-- Two adjacent writes, the first one below, are one. -/
theorem overwrite_above (start : Nat) (xs ys : List α) (h : start ≤ l.length) :
    overwrite (overwrite l start xs) (start + xs.length) ys = overwrite l start (xs ++ ys) := by
  have hlen : (l.take start ++ xs).length = start + xs.length := by simp [h]
  simp only [overwrite]
  rw [take_left' hlen, ← drop_drop, drop_left' hlen]
  simp [add_assoc]

/-- Two adjacent writes, the first one above, are one. -/
theorem overwrite_below (start : Nat) (xs ys : List α) (h : start + xs.length ≤ l.length) :
    overwrite (overwrite l (start + xs.length) ys) start xs = overwrite l start (xs ++ ys) := by
  have htake : (l.take (start + xs.length)).length = start + xs.length := by simp [h]
  simp only [overwrite, append_assoc]
  rw [take_append_of_le_length (by omega), take_take, Nat.min_eq_left (by omega), drop_left' htake]
  simp [Nat.add_assoc]

theorem set_eq_overwrite (a : α) (h : i < l.length) : l.set i a = overwrite l i [a] := by
  rw [overwrite, set_eq_take_append_cons_drop, if_pos h]
  simp

/-- What lies behind a write stays. -/
theorem drop_overwrite (h : start ≤ l.length) (hn : start + bytes.length ≤ n) :
    (overwrite l start bytes).drop n = l.drop n := by
  have hlen : (l.take start ++ bytes).length = start + bytes.length := by simp [h]
  rw [overwrite, drop_append, drop_eq_nil_of_le (by omega), nil_append, drop_drop, hlen]
  congr 1
  omega

/-- What has been written. -/
theorem slice_overwrite (bytes after : List α) (h : start ≤ l.length) :
    slice (overwrite l start (bytes ++ after)) start bytes.length = bytes := by
  rw [slice, overwrite, append_assoc, drop_left' (length_take_of_le h), append_assoc, take_left' rfl]

end ListSlice
