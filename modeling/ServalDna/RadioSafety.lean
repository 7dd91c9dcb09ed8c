import ServalDna.RadioLink

/-!
# The bounds of the radio receiver

Whatever bytes come in, the receive buffer is never overrun, its start does not go below
zero and the search for frames ends. The length of the packet that is put together stays
in its bounds too, but the number of bytes to copy is computed without a sign: a frame
that is shorter than its own headers makes it wrap around, and added to the length of a
packet that is under way it passes the only check.
-/
namespace RadioSafety

open ListSlice Golay RadioLink List

theorem sub32_eq (h : b ≤ a) (ha : a < 2 ^ 32) : sub32 a b = a - b := by
  rw [sub32]
  omega

/-- The lengths that `decode_length` lets through. -/
def FrameLength (n : Nat) : Prop := n = 17 ∨ 33 ≤ n ∧ n ≤ 255

/-- What is true of the receiver at all times. -/
structure Inside (s : RxState) : Prop where
  size : s.payload.length = payloadSize
  inside : s.payloadStart + s.payloadOffset ≤ payloadSize
  frame : s.payloadLength = 0 ∨ FrameLength s.payloadLength
  packet : s.packetLength ≤ mdpMtu + 1

variable {s : RxState}

theorem decodeLength_frame {length : Nat} (h : decodeLength s = some length) : FrameLength length := by
  rw [decodeLength] at h
  split at h
  · cases h
  simp only at h
  split at h
  · cases h
  next hin =>
  cases h
  rw [fecLength, linkMtu] at hin
  rw [FrameLength]
  omega

/-! ## The search for a header -/

/-- What the search has changed: some bytes were skipped, and a length may have been found. -/
structure Searched (s r : RxState) : Prop where
  inside : Inside r
  total : r.payloadStart + r.payloadOffset = s.payloadStart + s.payloadOffset
  offset : r.payloadOffset ≤ s.payloadOffset
  found : r.payloadLength = 0 → r.payloadOffset < 6

@[simp] theorem skip_start : s.skip.payloadStart = s.payloadStart + 1 := rfl

theorem skip_offset (h : Inside s) (hpos : 0 < s.payloadOffset) :
    s.skip.payloadOffset = s.payloadOffset - 1 := by
  have hin := h.inside
  rw [payloadSize, linkMtu] at hin
  exact sub32_eq hpos (by omega)

theorem skip_inside (h : Inside s) (hpos : 0 < s.payloadOffset) : Inside s.skip := by
  have hin := h.inside
  refine ⟨h.size, ?_, h.frame, h.packet⟩
  rw [skip_offset h hpos, skip_start]
  omega

theorem lookForHeader_searched (h : Inside s) (hps : s.payloadOffset ≤ ps) :
    Searched s (lookForHeader ps s) := by
  fun_induction lookForHeader ps s with
  | case1 => exact ⟨h, rfl, Nat.le_refl _, fun _ => by omega⟩
  | case2 => exact ⟨⟨h.size, h.inside, .inr (.inl rfl), h.packet⟩, rfl, Nat.le_refl _, nofun⟩
  | case3 _ _ _ _ length hlen =>
    have hfr := decodeLength_frame hlen
    refine ⟨⟨h.size, h.inside, .inr hfr, h.packet⟩, rfl, Nat.le_refl _, ?_⟩
    intro hzero
    rw [FrameLength] at hfr
    simp only at hzero
    omega
  | case4 ps s hlook _ _ ih =>
    have hpos : 0 < s.payloadOffset := by omega
    have hoff := skip_offset h hpos
    have hsrch := ih (skip_inside h hpos) (by omega)
    refine ⟨hsrch.inside, ?_, ?_, hsrch.found⟩
    · rw [hsrch.total, skip_start]
      omega
    have := hsrch.offset
    omega
  | case5 => exact ⟨h, rfl, Nat.le_refl _, fun hzero => by omega⟩

/-! ## A frame -/

/-- The bytes that are copied are those that the frame has brought, and they fit. -/
def Fragment.Good (f : Fragment) : Prop :=
  f.copied = true → 38 ≤ f.frame ∧ f.dataBytes = f.frame - 38 ∧ f.packetLength + f.dataBytes ≤ mdpMtu

/-- A frame shorter than its own headers, and a packet long enough to make up for it. -/
def Fragment.Short (f : Fragment) : Prop := f.frame < 38 ∧ 38 ≤ f.frame + f.packetLength

theorem restart_le (h : s.packetLength ≤ mdpMtu + 1) : s.restart ≤ mdpMtu + 1 := by
  rw [RxState.restart]
  split
  · exact Nat.zero_le _
  split
  · exact Nat.le_refl _
  · exact h

/-- The number of bytes to copy, as it is computed in two steps. -/
theorem dataBytes_eq (h : n ≤ 255) : dataBytes n = if 38 ≤ n then n - 38 else 2 ^ 64 - (38 - n) := by
  rw [dataBytes, radioUsedHeaderLength, fecLength, sub64, sub64]
  split
  · omega
  · omega

theorem assemble_fragment (hfr : s.payloadLength ≤ 255) (hpac : s.packetLength ≤ mdpMtu + 1)
    (hf : (assemble s errs).fragment = some f) : Fragment.Good f ↔ ¬ Fragment.Short f := by
  have hres := restart_le hpac
  have hcnt := dataBytes_eq hfr
  rw [mdpMtu] at hres
  rw [assemble, mdpMtu] at hf
  split at hf
  · next hlong =>
    cases hf
    simp only [Fragment.Good, Fragment.Short, Bool.false_eq_true, false_imp_iff, true_iff]
    split at hcnt
    · omega
    · omega
  next hfits =>
  cases hf
  simp only [Fragment.Good, Fragment.Short, mdpMtu, true_imp_iff]
  split at hcnt
  · omega
  · omega

/-- What is true of a frame that has been parsed. -/
structure Sound (s : RxState) (p : Parsed) : Prop where
  inside : Inside p.state
  start : p.state.payloadStart = s.payloadStart
  offset : p.state.payloadOffset = s.payloadOffset
  length : p.state.payloadLength = s.payloadLength
  backtrack : p.backtrack < s.payloadLength
  fragment : ∀ f, p.fragment = some f → (Fragment.Good f ↔ ¬ Fragment.Short f)

theorem assemble_sound (h : Inside s) (hfr : 33 ≤ s.payloadLength) (hle : s.payloadLength ≤ 255)
    (herr : errs ≤ 16) : Sound s (assemble s errs) := by
  have hfrag : ∀ f, (assemble s errs).fragment = some f → (Fragment.Good f ↔ ¬ Fragment.Short f) :=
    fun f => assemble_fragment hle h.packet
  rw [assemble] at hfrag ⊢
  split
  · next hlong =>
    rw [if_pos hlong] at hfrag
    exact ⟨⟨h.size, h.inside, h.frame, Nat.le_refl _⟩, rfl, rfl, rfl, by simp only; omega, hfrag⟩
  next hfits =>
  rw [if_neg hfits] at hfrag
  refine ⟨⟨h.size, h.inside, h.frame, ?_⟩, rfl, rfl, rfl, by simp only; omega, hfrag⟩
  simp only
  split
  · exact Nat.le_refl _
  · omega

theorem radioLinkParse_sound (rs : ReedSolomon) (h : Inside s)
    (hfr : FrameLength s.payloadLength) (hwh : s.payloadLength ≤ s.payloadOffset) :
    Sound s (radioLinkParse rs s) := by
  have hin := h.inside
  rw [radioLinkParse]
  split
  · next hlen => exact ⟨h, rfl, rfl, rfl, by simp only; omega, nofun⟩
  next hlen =>
  rw [FrameLength] at hfr
  have hblk := rs.decode_length (slice s.payload (s.payloadStart + 4) (s.payloadLength - 4))
  rw [slice_length, h.size] at hblk
  have hsto : Inside { s with
      payload := overwrite s.payload (s.payloadStart + 4)
        (rs.decode (slice s.payload (s.payloadStart + 4) (s.payloadLength - 4))).2 } := by
    refine ⟨?_, h.inside, h.frame, h.packet⟩
    rw [overwrite_length _ _ _ (by rw [h.size]; omega), h.size]
  simp only
  split
  · exact ⟨hsto, rfl, rfl, rfl, by simp only; omega, nofun⟩
  next errs herr =>
  have hsnd := assemble_sound hsto (by simp only; omega) (by simp only; omega)
    (rs.errors_le _ errs herr)
  exact { hsnd with }

/-! ## The passes of the loop -/

section Passes

variable (h : Inside s) (hfr : FrameLength s.payloadLength)
  (hwh : s.payloadLength ≤ s.payloadOffset)

include h hfr hwh

omit hfr hwh in
/-- The `n` bytes from the start of a frame on are left out, and the rest is moved down. -/
theorem moved_inside {dst : Nat} (hpos : 0 < n) (hn : n ≤ s.payloadOffset) (hdst : dst ≤ s.payloadStart)
    (hs' : s' = { s with
      payload := overwrite s.payload dst (slice s.payload (s.payloadStart + n) (sub32 s.payloadOffset n))
      payloadOffset := sub32 s.payloadOffset n + dst
      payloadStart := 0
      payloadLength := 0 }) : Inside s' ∧ s'.measure < s.measure := by
  have hin := h.inside
  have hsize := h.size
  rw [payloadSize, linkMtu] at hin
  have hoff : sub32 s.payloadOffset n = s.payloadOffset - n := sub32_eq hn (by omega)
  rw [hoff] at hs'
  subst hs'
  constructor
  · refine ⟨?_, ?_, .inl rfl, h.packet⟩
    · rw [overwrite_length, hsize]
      rw [slice_length, hsize, payloadSize, linkMtu]
      omega
    rw [payloadSize, linkMtu]
    simp only
    omega
  rw [RxState.measure, RxState.measure, payloadSize, linkMtu]
  simp only
  omega

theorem cut_inside : Inside s.cut ∧ s.cut.measure < s.measure := by
  rw [FrameLength] at hfr
  exact moved_inside h (by omega) hwh (Nat.le_refl _) rfl

omit hfr in
theorem consume_inside (hback : bt < s.payloadLength) :
    Inside (s.consume bt) ∧ (s.consume bt).measure < s.measure :=
  moved_inside h (Nat.sub_pos_of_lt hback) (by omega) (Nat.zero_le _) rfl

theorem skipped_inside : Inside { s.skip with payloadLength := 0 } ∧
      RxState.measure { s.skip with payloadLength := 0 } < s.measure := by
  rw [FrameLength] at hfr
  have hpos : 0 < s.payloadOffset := by omega
  have hskip := skip_inside h hpos
  refine ⟨⟨hskip.size, hskip.inside, .inl rfl, hskip.packet⟩, ?_⟩
  rw [RxState.measure, RxState.measure, skip_start, skip_offset h hpos]
  have htot : s.payloadStart + 1 + (s.payloadOffset - 1) = s.payloadStart + s.payloadOffset := by omega
  rw [htot]
  omega

theorem next_inside (rs : ReedSolomon) :
    Inside (radioLinkParse rs s).next ∧ (radioLinkParse rs s).next.measure < s.measure := by
  have hsnd := radioLinkParse_sound rs h hfr hwh
  have hfr' : FrameLength (radioLinkParse rs s).state.payloadLength := hsnd.length ▸ hfr
  have hwh' : (radioLinkParse rs s).state.payloadLength ≤ (radioLinkParse rs s).state.payloadOffset := by
    rw [hsnd.length, hsnd.offset]
    exact hwh
  have hmea : (radioLinkParse rs s).state.measure = s.measure := by
    rw [RxState.measure, RxState.measure, hsnd.start, hsnd.offset]
  rw [Parsed.next, ← hmea]
  split
  · exact consume_inside hsnd.inside hwh' (hsnd.length ▸ hsnd.backtrack)
  · exact skipped_inside hsnd.inside hfr' hwh'

end Passes

/-- What is true when all of a byte's passes are done. -/
structure Settled (r : Received) : Prop where
  inside : Inside r.state
  waiting : r.state.payloadOffset < 255
  fragments : ∀ f ∈ r.fragments, (Fragment.Good f ↔ ¬ Fragment.Short f)

theorem Settled.after (hp : ∀ f, p.fragment = some f → (Fragment.Good f ↔ ¬ Fragment.Short f))
    (h : Settled r) : Settled (r.after p) := by
  refine ⟨h.inside, h.waiting, fun f hf => ?_⟩
  rcases mem_append.mp hf with hnew | hold
  · exact hp f (by simpa using hnew)
  · exact h.fragments f hold

theorem Settled.followed (h : Settled r) (hrest : Settled rest) : Settled (r.followed rest) := by
  refine ⟨hrest.inside, hrest.waiting, fun f hf => ?_⟩
  rcases mem_append.mp hf with hfst | hlat
  · exact h.fragments f hfst
  · exact hrest.fragments f hlat

theorem parseLoop_settled (h : Inside s) (hps : s.measure < ps) :
    ∃ r, parseLoop rs ps s = some r ∧ Settled r := by
  induction ps generalizing s with
  | zero => cases hps
  | succ ps ih =>
    have hsrch := lookForHeader_searched h (Nat.le_refl s.payloadOffset)
    have hless : (lookForHeader s.payloadOffset s).measure ≤ s.measure := by
      have hoff := hsrch.offset
      rw [RxState.measure, RxState.measure, hsrch.total]
      omega
    rw [parseLoop]
    simp only
    split
    · next hwait =>
      refine ⟨_, rfl, hsrch.inside, ?_, nofun⟩
      have hfnd := hsrch.found
      have hfr := hsrch.inside.frame
      rw [FrameLength] at hfr
      simp only
      omega
    next hrdy =>
    obtain ⟨hlen, hwh⟩ := not_or.mp hrdy
    have hfr := hsrch.inside.frame.resolve_left hlen
    split
    · obtain ⟨hcut, hcutl⟩ := cut_inside hsrch.inside hfr (Nat.not_lt.mp hwh)
      exact ih hcut (by omega)
    obtain ⟨hnext, hnex⟩ := next_inside hsrch.inside hfr (Nat.not_lt.mp hwh) rs
    have hsnd := radioLinkParse_sound rs hsrch.inside hfr (Nat.not_lt.mp hwh)
    obtain ⟨r, hr, hset⟩ := ih hnext (by omega)
    exact ⟨_, by rw [hr, Option.map_some], hset.after hsnd.fragment⟩

/-! ## Streams -/

/-- The buffer is full only when there is something in front of the start. -/
theorem makeRoom_bounds (hsize : s.payload.length = payloadSize)
    (hin : s.payloadStart + s.payloadOffset ≤ payloadSize) (hwait : s.payloadOffset < 255) :
    s.makeRoom.payload.length = payloadSize ∧
      s.makeRoom.payloadStart + s.makeRoom.payloadOffset < payloadSize := by
  rw [payloadSize, linkMtu] at hin hsize
  rw [RxState.makeRoom]
  split
  · next hfull =>
    rw [payloadSize, linkMtu] at hfull
    have hst : sub32 s.payloadStart 1 = s.payloadStart - 1 := sub32_eq (by omega) (by omega)
    constructor
    · rw [length_append, length_drop, length_drop, hsize, payloadSize, linkMtu]
    rw [hst, payloadSize, linkMtu]
    simp only
    omega
  · next hsp => exact ⟨hsize, Nat.not_le.mp hsp⟩

/-- Only the receive buffer and its start change. -/
theorem makeRoom_frame (s : RxState) : s.makeRoom =
    { s with payload := s.makeRoom.payload, payloadStart := s.makeRoom.payloadStart } := by
  unfold RxState.makeRoom
  split
  · rfl
  · rfl

theorem makeRoom_inside (h : Inside s) (hwait : s.payloadOffset < 255) :
    Inside s.makeRoom ∧ s.makeRoom.payloadStart + s.makeRoom.payloadOffset < payloadSize := by
  obtain ⟨hsize, hsp⟩ := makeRoom_bounds h.size h.inside hwait
  refine ⟨⟨hsize, Nat.le_of_lt hsp, ?_, ?_⟩, hsp⟩
  · rw [makeRoom_frame]
    exact h.frame
  rw [makeRoom_frame]
  exact h.packet

theorem push_inside (h : Inside s) (hwait : s.payloadOffset < 255) : Inside (s.push c) := by
  obtain ⟨hroom, hsp⟩ := makeRoom_inside h hwait
  refine ⟨?_, hsp, hroom.frame, hroom.packet⟩
  rw [RxState.push, length_set, hroom.size]

/-- Every stream is taken to its end. -/
theorem receive_settled (h : Inside s) (hwait : s.payloadOffset < 255) :
    ∃ r, receive rs s str = some r ∧ Settled r := by
  induction str generalizing s with
  | nil => exact ⟨_, rfl, h, hwait, nofun⟩
  | cons c str ih =>
    obtain ⟨r, hr, hset⟩ := parseLoop_settled (push_inside h hwait) (Nat.lt_succ_self _)
    obtain ⟨rest, hrest, hset'⟩ := ih hset.inside hset.waiting
    refine ⟨r.followed rest, ?_, hset.followed hset'⟩
    rw [receive, radioLinkDecode, hr, Option.bind_some, hrest, Option.map_some]

theorem start_inside : Inside .start :=
  ⟨length_replicate, Nat.zero_le _, .inl rfl, Nat.zero_le _⟩

/-- After every byte of every stream the receive buffer is in its bounds, with space in front
of the start if it is full, and so is the length of the packet. All copies are right
exactly if no short frame comes while a packet is long enough to make up for it. -/
theorem receiver_stays_inside_iff (rs : ReedSolomon) (stream : List UInt8) :
    ∃ r, receive rs .start stream = some r ∧ r.state.payloadStart + r.state.payloadOffset ≤ payloadSize ∧
      (payloadSize ≤ r.state.payloadStart + r.state.payloadOffset → 0 < r.state.payloadStart) ∧
      r.state.packetLength ≤ mdpMtu + 1 ∧
      ((∀ f ∈ r.fragments, Fragment.Good f) ↔ ∀ f ∈ r.fragments, ¬ Fragment.Short f) := by
  obtain ⟨r, hr, hset⟩ := receive_settled start_inside (by decide)
  refine ⟨r, hr, hset.inside.inside, fun hfull => ?_, hset.inside.packet, ?_⟩
  · have hwait := hset.waiting
    rw [payloadSize, linkMtu] at hfull
    omega
  · exact forall₂_congr hset.fragments

def trusting : ReedSolomon where
  encode _ := List.replicate fecLength 0
  decode block := (some 0, block)
  encode_length _ := length_replicate
  decode_length _ := rfl
  errors_le block n hn := by
    cases hn
    decide

def shortFrame : List UInt8 := 0xfe :: lengthField 29 ++ List.replicate 33 0

/-- The number of bytes to copy is one less than zero, and the target is behind the end. -/
theorem short_frame_overruns : (receive trusting .start shortFrame).map (·.fragments) =
      some [⟨37, mdpMtu + 1, 2 ^ 64 - 1, true⟩] := by
  decide +kernel

end RadioSafety
