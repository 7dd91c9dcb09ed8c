import Mathlib.Order.Interval.Finset.Nat
import ServalDna.HttpHeaders

/-!
# Byte ranges of a resource

`http_range_close` turns the ranges of a request into closed ranges of a
resource whose length is known, and `http_range_bytes` adds up their sizes.
-/
namespace HttpRanges

open HttpHeaders List

/-- The switch in `http_range_close`: `first` and `last`, which are unsigned. -/
def bounds (resourceLength : UInt64) (range : Range) : Nat × Nat :=
  let length := resourceLength.toNat
  let last := (resourceLength - 1).toNat
  let first := if range.first < length then range.first else length
  match range.type with
  | .closed => (first, if range.last < length then range.last else last)
  | .open => (first, last)
  | .suffix => (if range.last < length then length - range.last else 0, last)

def closeRange (resourceLength : UInt64) (range : Range) : Option Range :=
  let (first, last) := bounds resourceLength range
  if first ≤ last then some ⟨.closed, first, last⟩ else none

def httpRangeClose (src : List Range) (resourceLength : UInt64) : List Range :=
  src.filterMap (closeRange resourceLength)

/-- One round of `http_range_bytes`, with its two assertions. -/
def addBytes (bytes : Nat) (range : Range) : Option Nat :=
  if range.type = .closed ∧ range.first ≤ range.last then
    some ((bytes + (range.last - range.first + 1)) % 2 ^ 64)
  else none

def httpRangeBytes (ranges : List Range) : Option Nat := ranges.foldlM addBytes 0

def requests (length : Nat) (range : Range) (p : Nat) : Bool :=
  match range.type with
  | .closed => range.first ≤ p ∧ p ≤ range.last
  | .open => range.first ≤ p
  | .suffix => length ≤ p + range.last

def positions (length : Nat) (range : Range) : Finset Nat :=
  (Finset.range length).filter (requests length range ·)

def requestedBytes (length : Nat) (src : List Range) : Nat :=
  (src.map fun range => (positions length range).card).sum

theorem positions_eq (h : rl ≠ 0) (rg : Range) :
    positions rl.toNat rg =
      Finset.Icc (bounds rl rg).1 (bounds rl rg).2 := by
  have hpos : rl.toNat ≠ 0 := fun h0 => h (UInt64.toNat_inj.mp h0)
  have hlast : (rl - 1).toNat = rl.toNat - 1 :=
    UInt64.toNat_sub_of_le _ _ (UInt64.le_iff_toNat_le.mpr (Nat.pos_of_ne_zero hpos))
  ext p
  rcases rg with ⟨_ | _ | _, first, last⟩ <;>
    simp only [positions, requests, bounds, hlast, Finset.mem_filter, Finset.mem_range, Finset.mem_Icc,
      decide_eq_true_eq] <;> split_ifs <;> omega

/-- A range is left out when it asks for nothing, and closed otherwise. -/
theorem closeRange_cases (h : rl ≠ 0) (rg : Range) :
    (closeRange rl rg = none ∧ positions rl.toNat rg = ∅) ∨
    ∃ first last, first ≤ last ∧ closeRange rl rg = some ⟨.closed, first, last⟩ ∧
      positions rl.toNat rg = Finset.Icc first last := by
  rw [positions_eq h, closeRange]
  by_cases hle : (bounds rl rg).1 ≤ (bounds rl rg).2
  · exact .inr ⟨_, _, hle, if_pos hle, rfl⟩
  · exact .inl ⟨if_neg hle, Finset.Icc_eq_empty hle⟩

/-- What a list of closed ranges should be for the ranges that were asked for. -/
def Closes (length : Nat) (src dst : List Range) : Prop :=
  Forall₂ (fun range out => out.type = .closed ∧ Finset.Icc out.first out.last = positions length range)
    (src.filter fun range => positions length range ≠ ∅) dst

theorem closes_httpRangeClose (h : rl ≠ 0) (src : List Range) :
    Closes rl.toNat src (httpRangeClose src rl) := by
  induction src with
  | nil => exact .nil
  | cons rg src ih =>
    rw [Closes, httpRangeClose, filterMap_cons, filter_cons]
    rcases closeRange_cases h rg with ⟨hnone, hemp⟩ | ⟨first, last, hle, hsome, hpos⟩
    · simpa [hnone, hemp, Closes, httpRangeClose] using ih
    · simp only [hsome, hpos]
      rw [if_pos (by simpa using hle)]
      exact .cons ⟨rfl, hpos.symm⟩ ih

/-- The closed ranges have the size of what was asked for, modulo 2^64. -/
theorem bytes_httpRangeClose (h : rl ≠ 0) (src : List Range) (hbs : bytes < 2 ^ 64) :
    (httpRangeClose src rl).foldlM addBytes bytes =
      some ((bytes + requestedBytes rl.toNat src) % 2 ^ 64) := by
  induction src generalizing bytes with
  | nil => exact congrArg some (Nat.mod_eq_of_lt hbs).symm
  | cons rg src ih =>
    rw [httpRangeClose, filterMap_cons, requestedBytes, map_cons, sum_cons, ← requestedBytes]
    rcases closeRange_cases h rg with ⟨hnone, hemp⟩ | ⟨first, last, hle, hsome, hpos⟩
    · simpa [hnone, hemp, httpRangeClose] using ih hbs
    · have hcard : (Finset.Icc first last).card = last - first + 1 := by
        rw [Nat.card_Icc]
        omega
      simp only [hsome, hpos, hcard, foldlM_cons, addBytes, if_pos hle, true_and]
      rw [Option.bind_eq_bind, Option.bind_some, ← httpRangeClose, ih (Nat.mod_lt _ (by decide)),
        Nat.mod_add_mod, Nat.add_assoc]

/-- The ranges are closed as they were asked for and their bytes added up, unless the resource is
empty, where `resource_length - 1` is the largest number, or the sum leaves 64 bits. -/
theorem ranges_closed_iff (resourceLength : UInt64) (src : List Range) :
    Closes resourceLength.toNat src (httpRangeClose src resourceLength) ∧
      httpRangeBytes (httpRangeClose src resourceLength) =
        some (requestedBytes resourceLength.toNat src) ↔
    (resourceLength = 0 → src = []) ∧ requestedBytes resourceLength.toNat src < 2 ^ 64 := by
  by_cases h : resourceLength = 0
  · subst h
    cases src with
    | nil => simp [Closes, httpRangeClose, httpRangeBytes, requestedBytes]
    | cons rg src =>
      refine iff_of_false (fun h => ?_) (by simp)
      have hlen := h.1.length_eq
      rcases rg with ⟨_ | _ | _, first, last⟩ <;>
        simp [positions, httpRangeClose, closeRange, bounds] at hlen
  · rw [httpRangeBytes, bytes_httpRangeClose h src (by decide), Nat.zero_add, Option.some_inj,
      Nat.mod_eq_iff_lt (by decide)]
    exact and_congr (iff_of_true (closes_httpRangeClose h src) fun h0 => absurd h0 h) .rfl

theorem empty_resource_not_closed : ¬ Closes 0 [⟨.open, 0, 0⟩] (httpRangeClose [⟨.open, 0, 0⟩] 0) ∧
    httpRangeClose [⟨.open, 0, 0⟩] 0 = [⟨.closed, 0, 2 ^ 64 - 1⟩] :=
  ⟨fun h => absurd h.length_eq (by decide), by decide⟩

end HttpRanges
