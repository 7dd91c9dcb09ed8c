import ServalDna.BufferWrites

/-!
# Copies of overlay buffers

`ob_dup` gives the copy the position of the original before it appends the bytes. The writer
does not expect a position in a buffer that has no memory yet, so only a buffer at position
zero can be copied. The position of the copy is then behind the bytes, where the sender of a
forwarded frame looks for the end of the payload.
-/
namespace BufferCopy

open OverlayBuffer BufferWrites List

def relevant (b : Buffer) : Nat :=
  min (if b.sizeLimit ≠ sizeMax then b.sizeLimit else b.position) b.allocSize

def blank (b : Buffer) : Buffer :=
  { obNew with checkpointLength := b.checkpointLength, position := b.position, sizeLimit := b.sizeLimit }

/-- `none` is a failed assertion. -/
def obDup (b : Buffer) : Option Buffer :=
  if b.memory ≠ .null ∧ b.allocSize ≠ 0 then
    if b.sizeLimit ≠ sizeMax ∧ b.sizeLimit < b.position then none
    else if relevant b ≠ 0 then obAppendBytes (blank b) (b.bytes.take (relevant b))
    else some (blank b)
  else some (blank b)

/-- There is a copy, with the same bytes. -/
def Copied (b : Buffer) : Prop :=
  ∃ d, obDup b = some d ∧ ∀ i, i < relevant b → d.bytes[i]? = b.bytes[i]?

/-- A buffer whose position is in its data. -/
structure Placed (b : Buffer) : Prop where
  memory : b.memory = .null → b.bytes = []
  limit : b.position ≤ b.sizeLimit
  inside : b.position ≤ b.allocSize

theorem relevant_le : relevant b ≤ b.allocSize := Nat.min_le_right _ _

/-- At position zero the bytes go into memory of the copy. -/
theorem dup_appends (h : b.position = 0) (hcnt : relevant b ≠ 0) :
    ∃ d, obAppendBytes (blank b) (b.bytes.take (relevant b)) = some d ∧
      d.position = relevant b ∧ content d = b.bytes.take (relevant b) := by
  have hlen : (b.bytes.take (relevant b)).length = relevant b := length_take_of_le relevant_le
  have hne : b.bytes.take (relevant b) ≠ [] := by
    intro hnil
    rw [hnil] at hlen
    exact hcnt hlen.symm
  have hfits : relevant b ≤ b.sizeLimit := by
    by_cases hlim : b.sizeLimit ≠ sizeMax
    · rw [relevant, if_pos hlim]
      exact Nat.min_le_left _ _
    rw [relevant, if_neg hlim, h, Nat.zero_min] at hcnt
    exact absurd rfl hcnt
  have hown : Own (blank b) := ⟨.inr ⟨rfl, h, rfl⟩, fun _ => Nat.le_of_eq h⟩
  obtain ⟨d, hd, happ⟩ := append_own hown _ fun _ => Nat.le_trans (Nat.le_of_eq hlen) hfits
  have hpos : d.position = relevant b := by
    rw [happ.position, hlen, show (blank b).position = 0 from h, Nat.zero_add]
  refine ⟨d, by rw [obAppendBytes, if_neg hne, hd], hpos, ?_⟩
  rw [happ.written (Nat.le_trans (Nat.le_of_eq hpos) hfits), content,
    show (blank b).bytes = [] from rfl, take_nil, nil_append]

theorem dup_at_zero (h : b.position = 0) : ∃ d, obDup b = some d ∧ (b.memory ≠ .null →
      d.position = relevant b ∧ content d = b.bytes.take (relevant b)) := by
  have hblank (h0 : relevant b = 0) :
      (blank b).position = relevant b ∧ content (blank b) = b.bytes.take (relevant b) := by
    rw [h0]
    exact ⟨h, take_nil⟩
  unfold obDup
  split
  · rw [if_neg (by omega)]
    split
    · next hcnt =>
      obtain ⟨d, hd, hsame⟩ := dup_appends h hcnt
      exact ⟨d, hd, fun _ => hsame⟩
    · next hzero => exact ⟨_, rfl, fun _ => hblank (not_not.mp hzero)⟩
  next hemp =>
  refine ⟨_, rfl, fun hmem => hblank ?_⟩
  have hle := relevant_le (b := b)
  have hnone : b.allocSize = 0 := not_not.mp fun hne => hemp ⟨hmem, hne⟩
  omega

/-- The copy is at a position, and has no memory. -/
theorem dup_fails (hb : Placed b) (h : b.position ≠ 0) : obDup b = none := by
  have hins := hb.inside
  have hlim := hb.limit
  have hcnt : relevant b ≠ 0 := by
    unfold relevant
    split <;> omega
  have hmem : b.memory ≠ .null := by
    intro hnull
    rw [Buffer.allocSize, hb.memory hnull] at hins
    exact h (Nat.le_zero.mp hins)
  have hsp : obMakespace (blank b) (b.bytes.take (relevant b)).length = none := if_pos ⟨h, rfl⟩
  rw [obDup, if_pos ⟨hmem, by omega⟩, if_neg (by omega), if_pos hcnt, obAppendBytes,
    Buffer.append, hsp]
  exact ite_self none

/-- A buffer can be copied if and only if it is at position zero. A payload that was received is at
position zero and limited, and the copy has just its bytes in front of the position. -/
theorem ob_dup_copies_iff (b : Buffer) (payload : List UInt8) :
    (Placed b → (Copied b ↔ b.position = 0)) ∧ (payload.length < sizeMax →
        ∃ d, obDup { obStatic payload with sizeLimit := payload.length } = some d ∧
          content d = payload) := by
  constructor
  · intro hb
    constructor
    · rintro ⟨d, hd, -⟩
      by_contra h
      rw [dup_fails hb h] at hd
      cases hd
    intro h
    obtain ⟨d, hd, hsame⟩ := dup_at_zero h
    refine ⟨d, hd, fun i hi => ?_⟩
    have hmem : b.memory ≠ .null := by
      intro hnull
      have hle := relevant_le (b := b)
      rw [Buffer.allocSize, hb.memory hnull] at hle
      exact Nat.not_lt_zero i (Nat.lt_of_lt_of_le hi hle)
    obtain ⟨hpos, hcon⟩ := hsame hmem
    rw [content, hpos] at hcon
    rw [← getElem?_take_of_lt hi, hcon, getElem?_take_of_lt hi]
  intro hsm
  have hcnt : relevant { obStatic payload with sizeLimit := payload.length } = payload.length := by
    simp [relevant, obStatic, Buffer.allocSize, Nat.ne_of_lt hsm]
  obtain ⟨d, hd, hsame⟩ := dup_at_zero (b := { obStatic payload with sizeLimit := payload.length }) rfl
  rw [hcnt] at hsame
  refine ⟨d, hd, (hsame (by simp [obStatic])).2.trans ?_⟩
  exact take_length

/-- The second byte of a buffer is next to be read. -/
theorem ob_dup_fails_inside : Placed ⟨[1, 2], .static, 0, 1, 2⟩ ∧ ¬ Copied ⟨[1, 2], .static, 0, 1, 2⟩ := by
  refine ⟨⟨by decide, by decide, by decide⟩, ?_⟩
  rintro ⟨d, hd, -⟩
  cases hd

end BufferCopy
