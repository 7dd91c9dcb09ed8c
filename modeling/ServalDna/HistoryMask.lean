import Mathlib.Data.Set.Insert

/-!
# A history in 64 bits

The numbers below a head are remembered in a mask: bit `k` stands for the number
that is `k + 1` below the head. A number below the head is marked in place. When
the head moves up, the mask is shifted, and the old head is pushed into it.
-/
namespace HistoryMask

def mark (mask : BitVec 64) (offset : Nat) : BitVec 64 := mask ||| (1#64 <<< offset)

/-- The head moves up by `offset + 1`. -/
def push (mask : BitVec 64) (offset : Nat) : BitVec 64 := ((mask <<< 1) ||| 1#64) <<< offset

theorem getLsbD_mark :
    (mark mask offset).getLsbD k = true ↔ mask.getLsbD k = true ∨ k < 64 ∧ k = offset := by
  simp only [mark, BitVec.getLsbD_or, BitVec.getLsbD_shiftLeft, BitVec.getLsbD_one, Bool.or_eq_true,
    Bool.and_eq_true, decide_eq_true_eq, Bool.not_eq_true', decide_eq_false_iff_not]
  apply or_congr_right
  omega

theorem getLsbD_push : (push mask off).getLsbD k = true ↔
      k < 64 ∧ (k = off ∨ off < k ∧ mask.getLsbD (k - off - 1) = true) := by
  simp only [push, BitVec.getLsbD_or, BitVec.getLsbD_shiftLeft, BitVec.getLsbD_one, Bool.or_eq_true,
    Bool.and_eq_true, decide_eq_true_eq, Bool.not_eq_true', decide_eq_false_iff_not]
  constructor
  · rintro ⟨⟨hk, hle⟩, ⟨⟨_, hpos⟩, hbit⟩ | ⟨_, hzero⟩⟩
    · exact ⟨hk, .inr ⟨by omega, hbit⟩⟩
    · exact ⟨hk, .inl (by omega)⟩
  rintro ⟨hk, heq | ⟨hlt, hbit⟩⟩
  · exact ⟨⟨hk, by omega⟩, .inr ⟨by omega, by omega⟩⟩
  · exact ⟨⟨hk, by omega⟩, .inl ⟨⟨by omega, by omega⟩, hbit⟩⟩

/-! ## What a mask says -/

section Meaning

variable {seen : Set Nat}

/-- Every bit stands for a number that was seen. -/
def Sound (mask : BitVec 64) (head : Nat) (seen : Set Nat) : Prop :=
  ∀ k, mask.getLsbD k = true → ∃ m ∈ seen, m + k + 1 = head

/-- The numbers that were seen have their bits, as far as the mask reaches. -/
def Complete (mask : BitVec 64) (head : Nat) (seen : Set Nat) : Prop :=
  ∀ m ∈ seen, m < head → head ≤ m + 64 → mask.getLsbD (head - m - 1) = true

theorem Sound.zero : Sound 0#64 head seen := by
  intro k hk
  simp at hk

theorem Sound.mono (h : Sound mask head seen) (hsub : seen ⊆ seen') : Sound mask head seen' := by
  intro k hk
  obtain ⟨m, hm, heq⟩ := h k hk
  exact ⟨m, hsub hm, heq⟩

theorem Sound.mark (h : Sound mask head seen) (hn : n < head) :
    Sound (mark mask (head - n - 1)) head (insert n seen) := by
  intro k hk
  rcases getLsbD_mark.mp hk with hold | ⟨_, hnew⟩
  · exact h.mono (Set.subset_insert n seen) k hold
  · exact ⟨n, Set.mem_insert n seen, by omega⟩

theorem Sound.push (h : Sound mask head seen) (hhead : head ∈ seen) (hn : head < n) :
    Sound (push mask (n - head - 1)) n seen := by
  intro k hk
  rcases getLsbD_push.mp hk with ⟨_, hnew | ⟨hlt, hold⟩⟩
  · exact ⟨head, hhead, by omega⟩
  obtain ⟨m, hm, heq⟩ := h _ hold
  exact ⟨m, hm, by omega⟩

theorem Complete.mark (h : Complete mask head seen) :
    Complete (mark mask (head - n - 1)) head (insert n seen) := by
  intro m hm hlt hle
  rw [getLsbD_mark]
  rcases Set.mem_insert_iff.mp hm with rfl | hm
  · exact .inr ⟨by omega, rfl⟩
  · exact .inl (h m hm hlt hle)

theorem Complete.push (h : Complete mask head seen) (hle : ∀ m ∈ seen, m ≤ head) (hn : head < n) :
    Complete (push mask (n - head - 1)) n (insert n seen) := by
  intro m hm hlt hrch
  rw [getLsbD_push]
  rcases Set.mem_insert_iff.mp hm with rfl | hm
  · omega
  refine ⟨by omega, ?_⟩
  rcases Nat.lt_or_eq_of_le (hle m hm) with hbel | rfl
  · refine .inr ⟨by omega, ?_⟩
    have hbit := h m hm hbel (by omega)
    rwa [show n - m - 1 - (n - head - 1) - 1 = head - m - 1 by omega]
  · exact .inl rfl

/-- After a jump of more than 64 there is nothing to remember. -/
theorem Complete.zero (hle : ∀ m ∈ seen, m ≤ head) (hn : head + 64 < n) :
    Complete 0#64 n (insert n seen) := by
  intro m hm hlt hrch
  rcases Set.mem_insert_iff.mp hm with rfl | hm
  · omega
  have hbel := hle m hm
  omega

/-- A mask that is sound and complete tells which numbers in its reach were seen. -/
theorem mem_iff (hsnd : Sound mask head seen) (hcom : Complete mask head seen) (hn : n < head)
    (hrch : head ≤ n + 64) : mask.getLsbD (head - n - 1) = true ↔ n ∈ seen := by
  constructor
  · intro hbit
    obtain ⟨m, hm, heq⟩ := hsnd _ hbit
    rwa [show n = m by omega]
  intro hseen
  exact hcom n hseen hn hrch

/-- The bits of a mask are those of the numbers seen. -/
def Exact (mask : BitVec 64) (head : Nat) (seen : Set Nat) : Prop :=
  ∀ i, i < 64 → (mask.getLsbD i = true ↔ ∃ m ∈ seen, m + i + 1 = head)

theorem exact_iff : Exact mask head seen ↔ Sound mask head seen ∧ Complete mask head seen := by
  constructor
  · intro h
    constructor
    · intro k hk
      exact (h k (BitVec.lt_of_getLsbD hk)).mp hk
    intro m hm hlt hrch
    exact (h _ (by omega)).mpr ⟨m, hm, by omega⟩
  rintro ⟨hsnd, hcom⟩ i hi
  constructor
  · exact hsnd i
  rintro ⟨m, hm, rfl⟩
  have hbit := hcom m hm (by omega) (by omega)
  rwa [show m + i + 1 - m - 1 = i by omega] at hbit

/-! ## Runs of numbers -/

/-- The highest of the numbers so far. -/
def Highest (numbers : List Nat) (head : Nat) : Prop := head ∈ numbers ∧ ∀ m ∈ numbers, m ≤ head

/-- Each number is at most 64 behind and at most 191 ahead of the highest before it. -/
def InWindow (numbers : List Nat) : Prop :=
  ∀ before n after, numbers = before ++ n :: after →
    ∀ head, Highest before head → head ≤ n + 64 ∧ n ≤ head + 191

/-- One number comes 64 behind the highest, twice. -/
theorem inWindow_late : InWindow [70, 6, 6] := by
  rintro pre n after heq head ⟨hmem, hle⟩
  rcases pre with _ | ⟨a, _ | ⟨b, _ | ⟨c, pre⟩⟩⟩ <;> simp at heq hmem hle <;> omega

theorem Highest.unique (h : Highest nums head) (h' : Highest nums head') : head = head' :=
  le_antisymm (h'.2 head h.1) (h.2 head' h'.1)

theorem Highest.concat (h : Highest nums head) (n : Nat) : Highest (nums ++ [n]) (max head n) := by
  constructor
  · rcases Nat.le_total head n with hle | hle
    · simp [max_eq_right hle]
    · simp [max_eq_left hle, h.1]
  exact List.forall_mem_append.mpr ⟨fun m hm => (h.2 m hm).trans (le_max_left head n),
    List.forall_mem_singleton.mpr (le_max_right head n)⟩

theorem setOf_concat (nums : List Nat) (n : Nat) :
    { m | m ∈ nums ++ [n] } = insert n { m | m ∈ nums } := by
  ext
  simp [or_comm]

theorem InWindow.left (h : InWindow (before ++ after)) : InWindow before := by
  rintro first n rest rfl
  exact h first n (rest ++ after) (by simp)

/-- A bound on the numbers seen, after one more. -/
theorem insert_le (hle : ∀ m ∈ seen, m ≤ head) (hhead : head ≤ top) (hn : n ≤ top) :
    ∀ m ∈ insert n seen, m ≤ top := by
  intro m hm
  rcases Set.mem_insert_iff.mp hm with rfl | hm
  · exact hn
  · exact le_trans (hle m hm) hhead

/-- What is in reach of one number that was seen is in reach of the head. -/
theorem le_head_add (hmem : head ∈ seen) (hle : ∀ m ∈ seen, m ≤ head)
    (h : seen = ∅ ∨ ∃ m ∈ seen, n ≤ m + reach) : n ≤ head + reach := by
  rcases h with hemp | ⟨m, hm, hn⟩
  · rw [hemp] at hmem
    cases hmem
  have hmax := hle m hm
  omega

end Meaning

/-! ## Numbers of 8 bits -/

theorem toUInt8_ofNat (n : Nat) : (UInt16.ofNat n).toUInt8 = UInt8.ofNat n := by
  apply UInt8.toNat_inj.mp
  simp only [UInt16.toNat_toUInt8, UInt16.toNat_ofNat', UInt8.toNat_ofNat']
  omega

/-- The distance from `n` up to `head`, as far as it shows in the lowest 8 bits. -/
theorem distance_toNat {head n : Nat} (h : n < head) (hle : head ≤ n + 256) :
    (UInt8.ofNat head - 1 - UInt8.ofNat n).toNat = head - n - 1 := by
  simp only [UInt8.toNat_sub, UInt8.toNat_ofNat', UInt8.toNat_one]
  omega

theorem distance_swap_toNat {head n : Nat} (h : head ≤ n) (hle : n ≤ head + 255) :
    (UInt8.ofNat head - 1 - UInt8.ofNat n).toNat = 255 - (n - head) := by
  simp only [UInt8.toNat_sub, UInt8.toNat_ofNat', UInt8.toNat_one]
  omega

/-- The distance from `head` up to `n`. -/
theorem distance_up_toNat {head n : Nat} (h : head < n) (hle : n ≤ head + 256) :
    (UInt8.ofNat n - UInt8.ofNat head - 1).toNat = n - head - 1 := by
  simp only [UInt8.toNat_sub, UInt8.toNat_ofNat', UInt8.toNat_one]
  omega

end HistoryMask
