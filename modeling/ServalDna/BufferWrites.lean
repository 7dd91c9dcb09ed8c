import ServalDna.OverlayBuffer

/-!
# Writes to overlay buffers

A writer with memory of its own puts its bytes behind those that are there, as
long as the limit allows. Once a write does not fit, nothing is written any more
and only the position tells how much was asked for. `Appended` says what any
number of writes in a row have done to a buffer; it is closed under sequence.
-/
namespace BufferWrites

open ListSlice OverlayBuffer List

/-- What has been written. -/
def content (b : Buffer) : List UInt8 := b.bytes.take b.position

/-- A buffer that may grow, and whose written bytes are all there. -/
structure Own (b : Buffer) : Prop where
  memory : b.memory = .allocated ∨ b.memory = .null ∧ b.position = 0 ∧ b.bytes = []
  inside : b.position ≤ b.sizeLimit → b.position ≤ b.allocSize

def slack : Nat := 2 ^ 17

theorem roundUp_bounds (unit n : Nat) (h : 0 < unit) : n ≤ roundUp unit n ∧ roundUp unit n ≤ n + unit := by
  unfold roundUp
  split <;> omega

theorem roundUp_above (bound unit n : Nat) (h : 0 < unit) :
    n ≤ (if n > bound then roundUp unit n else n) ∧
      (if n > bound then roundUp unit n else n) ≤ n + unit := by
  have hround := roundUp_bounds unit n h
  split <;> omega

theorem newSize_bounds (n : Nat) : n ≤ newSize n ∧ newSize n ≤ n + slack := by
  have h64 := roundUp_bounds 64 (max n 64) (by decide)
  unfold newSize slack
  generalize roundUp 64 (max n 64) = m at h64 ⊢
  have h1024 := roundUp_above 1024 1024 m (by decide)
  simp only
  generalize (if m > 1024 then roundUp 1024 m else m) = k at h1024 ⊢
  have hbig := roundUp_above 65536 65536 k (by decide)
  omega

/-- The effect of writes of `xs` altogether. -/
structure Appended (b : Buffer) (xs : List UInt8) (b' : Buffer) : Prop where
  own : Own b'
  position : b'.position = b.position + xs.length
  sizeLimit : b'.sizeLimit = b.sizeLimit
  checkpoint : b'.checkpointLength = b.checkpointLength
  allocated : b.memory = .allocated → b'.memory = .allocated
  allocSize : b'.allocSize ≤ max b.allocSize (b'.position + slack)
  kept : ∀ k, k ≤ b.position → k ≤ b.sizeLimit → b'.bytes.take k = b.bytes.take k
  written : b'.position ≤ b.sizeLimit → content b' = content b ++ xs

namespace Appended

theorem refl (h : Own b) : Appended b [] b where
  own := h
  position := rfl
  sizeLimit := rfl
  checkpoint := rfl
  allocated := id
  allocSize := Nat.le_max_left _ _
  kept _ _ _ := rfl
  written _ := (append_nil _).symm

theorem trans (h : Appended b xs b') (h' : Appended b' ys b'') : Appended b (xs ++ ys) b'' where
  own := h'.own
  position := by rw [h'.position, h.position, length_append, add_assoc]
  sizeLimit := h'.sizeLimit.trans h.sizeLimit
  checkpoint := h'.checkpoint.trans h.checkpoint
  allocated := fun hb => h'.allocated (h.allocated hb)
  allocSize := by
    have h1 := h.allocSize
    have h2 := h'.allocSize
    have hpos := h'.position
    omega
  kept := by
    intro k hk hlim
    have hpos := h.position
    rw [h'.kept k (by omega) (by rw [h.sizeLimit]; exact hlim), h.kept k hk hlim]
  written := by
    intro hle
    have hpos := h'.position
    rw [h'.written (by rw [h.sizeLimit]; exact hle), h.written (by omega), append_assoc]

end Appended

/-- The area of `c` is the one of `b`, with room for `n` more bytes. -/
structure Spacious (b : Buffer) (n : Nat) (c : Buffer) : Prop where
  memory : c.memory = .allocated ∨ c.memory = .null ∧ c.position = 0 ∧ n = 0 ∧ c.bytes = []
  allocated : b.memory = .allocated → c.memory = .allocated
  position : c.position = b.position
  sizeLimit : c.sizeLimit = b.sizeLimit
  checkpoint : c.checkpointLength = b.checkpointLength
  room : b.position + n ≤ c.allocSize
  allocSize : c.allocSize ≤ max b.allocSize (b.position + n + slack)
  kept : c.bytes.take b.position = b.bytes.take b.position

theorem spacious_grown (h : b.position ≤ b.allocSize) : Spacious b n { b with
      bytes := b.bytes.take b.position ++ List.replicate (newSize (b.position + n) - b.position) 0
      memory := .allocated } := by
  have hbds := newSize_bounds (b.position + n)
  have hlen : (b.bytes.take b.position).length = b.position := length_take_of_le h
  constructor
  · exact .inl rfl
  · intro _
    rfl
  · rfl
  · rfl
  · rfl
  · simp only [Buffer.allocSize, length_append, hlen, length_replicate]
    omega
  · simp only [Buffer.allocSize, length_append, hlen, length_replicate]
    omega
  · exact take_left' hlen

theorem makespace_own (h : Own b) : b.position + n > b.sizeLimit ∧ obMakespace b n = some (false, b) ∨
      b.position + n ≤ b.sizeLimit ∧ ∃ c, obMakespace b n = some (true, c) ∧ Spacious b n c := by
  have hnull : ¬(b.position ≠ 0 ∧ b.memory = .null) := by
    intro ⟨hpos, hmem⟩
    rcases h.memory with hmem' | ⟨-, hpos', -⟩
    · rw [hmem] at hmem'
      cases hmem'
    · exact hpos hpos'
  have hsta : ¬b.memory = .static := by
    intro hmem
    rcases h.memory with hmem' | ⟨hmem', -⟩
    · rw [hmem] at hmem'
      cases hmem'
    rw [hmem] at hmem'
    cases hmem'
  by_cases hfits : b.position + n ≤ b.sizeLimit
  · refine .inr ⟨hfits, ?_⟩
    by_cases halc : b.position + n ≤ b.allocSize
    · refine ⟨b, ?_, ?_⟩
      · rw [obMakespace, if_neg hnull, if_neg (Nat.not_lt.mpr hfits), if_pos halc]
      refine ⟨?_, id, rfl, rfl, rfl, halc, Nat.le_max_left _ _, rfl⟩
      rcases h.memory with hmem | ⟨hmem, hpos, hbs⟩
      · exact .inl hmem
      rw [Buffer.allocSize, hbs, length_nil] at halc
      exact .inr ⟨hmem, hpos, by omega, hbs⟩
    refine ⟨_, ?_, spacious_grown (h.inside (by omega))⟩
    rw [obMakespace, if_neg hnull, if_neg (Nat.not_lt.mpr hfits), if_neg halc, if_neg hsta]
  refine .inl ⟨Nat.not_le.mp hfits, ?_⟩
  rw [obMakespace, if_neg hnull, if_pos (Nat.not_le.mp hfits)]

theorem take_overwrite (xs : List UInt8) (hk : k ≤ start) (hst : start ≤ bytes.length) :
    (overwrite bytes start xs).take k = bytes.take k := by
  simp only [overwrite, append_assoc]
  rw [take_append_of_le_length (by simp only [length_take]; omega), take_take, Nat.min_eq_left hk]

theorem take_overwrite_end (xs : List UInt8) (hst : start ≤ bytes.length) :
    (overwrite bytes start xs).take (start + xs.length) = bytes.take start ++ xs := by
  apply take_left'
  simp [hst]

/-- A write inside of the area. -/
theorem appended_overwrite (h : Spacious b xs.length c) : Appended b xs { c with
      bytes := overwrite c.bytes c.position xs, position := c.position + xs.length } := by
  have hroom : c.position + xs.length ≤ c.bytes.length := by
    rw [h.position]
    exact h.room
  have hlen := overwrite_length c.bytes c.position xs hroom
  have hposi := h.position
  constructor
  · constructor
    · rcases h.memory with hmem | ⟨hmem, hpos, hn, hbs⟩
      · exact .inl hmem
      refine .inr ⟨hmem, by simp [hpos, hn], ?_⟩
      rw [← length_eq_zero_iff, hlen, hbs, length_nil]
    intro _
    rw [Buffer.allocSize, hlen]
    exact hroom
  · exact congrArg (· + xs.length) h.position
  · exact h.sizeLimit
  · exact h.checkpoint
  · exact h.allocated
  · simp only [Buffer.allocSize, hlen]
    rw [h.position]
    exact h.allocSize
  · intro k hk _
    rw [take_overwrite xs (by omega) (by omega)]
    have htake := congrArg (List.take k) h.kept
    simpa only [take_take, Nat.min_eq_left hk] using htake
  intro _
  simp only [content]
  rw [take_overwrite_end xs (by omega), h.position, h.kept]

/-- The first write into a new buffer must fit. -/
theorem append_own (h : Own b) (xs : List UInt8) (hfst : b.memory = .null → xs.length ≤ b.sizeLimit) :
    ∃ b', b.append xs = some b' ∧ Appended b xs b' := by
  rcases makespace_own h with ⟨hover, hsp⟩ | ⟨-, c, hsp, hc⟩
  · refine ⟨b.advance xs.length, by rw [Buffer.append, hsp], ?_⟩
    rcases h.memory with hmem | ⟨hmem, hpos, -⟩
    · have hnot := Nat.not_le.mpr hover
      exact {
          own := ⟨.inl hmem, fun hle => absurd hle hnot⟩
          position := rfl
          sizeLimit := rfl
          checkpoint := rfl
          allocated := id
          allocSize := Nat.le_max_left _ _
          kept := fun _ _ _ => rfl
          written := fun hle => absurd hle hnot }
    have hle := hfst hmem
    omega
  · exact ⟨_, by rw [Buffer.append, hsp], appended_overwrite hc⟩

theorem own_new : Own obNew := ⟨.inr ⟨rfl, rfl, rfl⟩, fun _ => Nat.le_refl 0⟩

end BufferWrites
