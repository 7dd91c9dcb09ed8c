import ServalDna.ListSlice
import ServalDna.RhizomeCrypt
import ServalDna.RhizomeManifest

/-!
# Buffered reads of a payload

`rhizome_read_buffered` serves a request from one cached page. Each pass of its
loop takes bytes from the cached page for the start of the request, or for its
end, or else loads the page of the read position. The end of the request is
copied without moving the read position, so a call that uses the cached page in
that way leaves `read->offset` at the start of that page.
-/
namespace ReadBuffered

open ListSlice Option
open RhizomeCrypt (pageSize)
open RhizomeManifest (sizeUnset sizeUnset_toNat)

structure Read where
  length : Nat
  offset : Nat
  deriving DecidableEq, Repr

/-- The cached page; `data` has the first `len` bytes of the array. -/
structure ReadBuffer where
  offset : Nat
  data : List UInt8
  deriving DecidableEq, Repr

/-- The variables of the loop. `data` is the memory of the caller and `pos` how
far the `data` pointer has moved in it. -/
structure Locals where
  read : Read
  buffer : ReadBuffer
  data : List UInt8
  pos : Nat
  len : Nat
  bytesCopied : Nat
  deriving DecidableEq, Repr

/-- What a call returns and leaves behind. A `status` of `none` is `-1`. -/
structure Result where
  status : Option Nat
  read : Read
  buffer : ReadBuffer
  data : List UInt8
  deriving DecidableEq, Repr

/-- `len` after the check against the length of the payload. -/
def clip (read : Read) (len : Nat) : Nat :=
  if read.length ≠ sizeUnset.toNat ∧ (read.offset + len) % 2 ^ 64 > read.length then
    (read.length + 2 ^ 64 - read.offset) % 2 ^ 64
  else len

def fromHead (s : Locals) : Option Locals :=
  if s.read.offset ≥ s.buffer.offset then
    let ofs := s.read.offset - s.buffer.offset
    if ofs ≤ s.buffer.data.length then
      let size := min s.len (s.buffer.data.length - ofs)
      if size > 0 then
        some { s with
          data := overwrite s.data s.pos (slice s.buffer.data ofs size)
          pos := s.pos + size
          len := s.len - size
          read := { s.read with offset := (s.read.offset + size) % 2 ^ 64 }
          bytesCopied := s.bytesCopied + size }
      else none
    else none
  else none

def fromTail (s : Locals) : Option Locals :=
  if (s.read.offset + s.len) % 2 ^ 64 > s.buffer.offset then
    let ofs := (s.read.offset + s.len) % 2 ^ 64 - s.buffer.offset
    if ofs ≤ s.buffer.data.length then
      let size := min s.len ofs
      if size > 0 then
        some { s with
          data := overwrite s.data (s.pos + s.len - size) (slice s.buffer.data (ofs - size) size)
          len := s.len - size
          bytesCopied := s.bytesCopied + size }
      else none
    else none
  else none

/-- The start of the page that holds an offset. -/
def pageOf (offset : Nat) : Nat := offset - offset % pageSize

/-- One pass of the loop. `rhizomeRead` gives the bytes that a read of one page
at an offset returns; an error leaves the cache empty. -/
def pass (rhizomeRead : Nat → Option (List UInt8)) (s : Locals) : Except Result Locals :=
  let s := { s with len := clip s.read s.len }
  match fromHead s with
  | some s' => .ok s'
  | none =>
    match fromTail s with
    | some s' => .ok s'
    | none =>
      match rhizomeRead (pageOf s.read.offset) with
      | none => .error ⟨none, s.read, ⟨pageOf s.read.offset, []⟩, s.data⟩
      | some bytes => .ok { s with buffer := ⟨pageOf s.read.offset, bytes⟩ }

/-- At most `fuel` passes; `none` if the loop is still running then. -/
def readLoop (rhizomeRead : Nat → Option (List UInt8)) : Nat → Locals → Option Result
  | 0, _ => none
  | fuel + 1, s =>
    if s.len = 0 then some ⟨some s.bytesCopied, s.read, s.buffer, s.data⟩
    else
      match pass rhizomeRead s with
      | .error r => some r
      | .ok s' => readLoop rhizomeRead fuel s'

/-- `rhizome_read_buffered`, asked to fill the whole of `data`. Two passes for
every byte are more than a call that returns can need. -/
def rhizomeReadBuffered (rhizomeRead : Nat → Option (List UInt8)) (read : Read)
    (buffer : ReadBuffer) (data : List UInt8) : Option Result :=
  readLoop rhizomeRead (2 * data.length + 2) ⟨read, buffer, data, 0, data.length, 0⟩

/-- The cache as earlier calls leave it: still empty, or one page of the payload. -/
def CacheOf (payload : List UInt8) (buffer : ReadBuffer) : Prop :=
  buffer = ⟨0, []⟩ ∨ (buffer.offset % pageSize = 0 ∧ buffer.offset ≤ payload.length ∧
    buffer.data = slice payload buffer.offset pageSize)

theorem cache_end (h : CacheOf payload buf) :
    buf.offset + buf.data.length ≤ payload.length := by
  obtain rfl | ⟨-, hle, hdata⟩ := h
  · simp
  rw [hdata, slice_length]
  omega

theorem cache_slice (h : CacheOf payload buf) (start n : Nat)
    (hend : start + n ≤ buf.data.length) :
    slice buf.data start n = slice payload (buf.offset + start) n := by
  obtain rfl | ⟨-, -, hdata⟩ := h
  · have hzero : start + n ≤ 0 := hend
    obtain rfl : n = 0 := by omega
    simp
  rw [hdata, slice_length] at hend
  rw [hdata, slice_slice _ (by omega)]

theorem pageOf_le (offset : Nat) : pageOf offset ≤ offset := Nat.sub_le _ _

theorem lt_pageOf_add (off : Nat) : off < pageOf off + pageSize := by
  have hlt := Nat.mod_lt off (show 0 < pageSize by decide)
  rw [pageOf]
  omega

theorem cache_pageOf (h : off ≤ payload.length) :
    CacheOf payload ⟨pageOf off, slice payload (pageOf off) pageSize⟩ := by
  refine .inr ⟨?_, Nat.le_trans (pageOf_le off) h, rfl⟩
  exact Nat.mod_eq_zero_of_dvd (Nat.dvd_sub_mod off)

/-- The request of `s` lies in the payload and in the memory of the caller. -/
structure Pending (payload : List UInt8) (s : Locals) : Prop where
  length_eq : s.read.length = payload.length
  length_lt : payload.length < sizeUnset.toNat
  cache : CacheOf payload s.buffer
  request_end : s.read.offset + s.len ≤ payload.length
  room : s.pos + s.len ≤ s.data.length

section Pending

variable (h : Pending payload s)

include h

theorem pending_sum : (s.read.offset + s.len) % 2 ^ 64 = s.read.offset + s.len := by
  have hlt := h.length_lt
  rw [sizeUnset_toNat] at hlt
  exact Nat.mod_eq_of_lt (by have := h.request_end; omega)

theorem clip_pending : clip s.read s.len = s.len := by
  rw [clip, pending_sum h, h.length_eq, if_neg]
  exact fun hend => absurd h.request_end (by omega)

def takeHead (payload : List UInt8) (s : Locals) (n : Nat) : Locals :=
  { s with
    data := overwrite s.data s.pos (slice payload s.read.offset n)
    pos := s.pos + n
    len := s.len - n
    read := { s.read with offset := s.read.offset + n }
    bytesCopied := s.bytesCopied + n }

theorem pass_head (hle : s.buffer.offset ≤ s.read.offset)
    (hlt : s.read.offset < s.buffer.offset + s.buffer.data.length) (hpos : 0 < s.len) :
    pass rhizomeRead s = .ok (takeHead payload s
      (min s.len (s.buffer.offset + s.buffer.data.length - s.read.offset))) := by
  have hsize : min s.len (s.buffer.data.length - (s.read.offset - s.buffer.offset)) =
      min s.len (s.buffer.offset + s.buffer.data.length - s.read.offset) := by omega
  have hcch := cache_end h.cache
  have hend := h.length_lt
  have hsli := cache_slice h.cache (s.read.offset - s.buffer.offset)
    (min s.len (s.buffer.offset + s.buffer.data.length - s.read.offset)) (by omega)
  rw [Nat.add_sub_cancel' hle] at hsli
  rw [sizeUnset_toNat] at hend
  simp only [pass, clip_pending h, fromHead, if_pos hle, hsize, hsli]
  rw [if_pos (by omega), if_pos (by omega)]
  simp only [takeHead]
  rw [Nat.mod_eq_of_lt (by omega)]

/-- The cached page has the end of the request but not its start. -/
def TailCached (buffer : ReadBuffer) (offset len : Nat) : Prop :=
  offset < buffer.offset ∧ buffer.offset < offset + len ∧
    offset + len ≤ buffer.offset + buffer.data.length

instance (buffer : ReadBuffer) (offset len : Nat) : Decidable (TailCached buffer offset len) :=
  inferInstanceAs (Decidable (_ ∧ _ ∧ _))

def takeTail (payload : List UInt8) (s : Locals) : Locals :=
  { s with
    data := overwrite s.data (s.pos + (s.buffer.offset - s.read.offset))
      (slice payload s.buffer.offset (s.read.offset + s.len - s.buffer.offset))
    len := s.buffer.offset - s.read.offset
    bytesCopied := s.bytesCopied + (s.read.offset + s.len - s.buffer.offset) }

omit h in
theorem fromHead_none (h : ¬(s.buffer.offset ≤ s.read.offset ∧
    s.read.offset < s.buffer.offset + s.buffer.data.length ∧ 0 < s.len)) : fromHead s = none := by
  simp only [fromHead]
  split
  · split
    · rw [if_neg (by omega)]
    · rfl
  · rfl

theorem pass_tail (htail : TailCached s.buffer s.read.offset s.len) :
    pass rhizomeRead s = .ok (takeTail payload s) := by
  obtain ⟨hlt, hst, hle⟩ := htail
  have hmod := pending_sum h
  have hend := h.request_end
  have hsize : min s.len (s.read.offset + s.len - s.buffer.offset) =
      s.read.offset + s.len - s.buffer.offset := by omega
  have hsli := cache_slice h.cache 0 (s.read.offset + s.len - s.buffer.offset) (by omega)
  have hpl : s.pos + s.len - (s.read.offset + s.len - s.buffer.offset) =
      s.pos + (s.buffer.offset - s.read.offset) := by omega
  have hrest : s.len - (s.read.offset + s.len - s.buffer.offset) =
      s.buffer.offset - s.read.offset := by omega
  simp only [pass, clip_pending h, fromHead_none (s := s) (by omega), fromTail, hmod, hsize,
    Nat.sub_self, hsli, add_zero, hpl, hrest]
  rw [if_pos hst, if_pos (by omega), if_pos (by omega)]
  rfl

/-- A read returns the page of the payload at its offset. -/
def ReadsPages (rhizomeRead : Nat → Option (List UInt8)) (payload : List UInt8) : Prop :=
  ∀ offset, offset ≤ payload.length → rhizomeRead offset = some (slice payload offset pageSize)

def loaded (payload : List UInt8) (s : Locals) : Locals :=
  { s with buffer := ⟨pageOf s.read.offset, slice payload (pageOf s.read.offset) pageSize⟩ }

omit h in
theorem pass_load (hread : ReadsPages rhizomeRead payload) (h : Pending payload s)
    (hhead : ¬(s.buffer.offset ≤ s.read.offset ∧
      s.read.offset < s.buffer.offset + s.buffer.data.length ∧ 0 < s.len))
    (htail : ¬TailCached s.buffer s.read.offset s.len) :
    pass rhizomeRead s = .ok (loaded payload s) := by
  have hmod := pending_sum h
  have hend := h.request_end
  have hnone : fromTail s = none := by
    simp only [fromTail, hmod]
    rw [TailCached] at htail
    split
    · split
      · rw [if_neg (by omega)]
      · rfl
    · rfl
  have hpage := pageOf_le s.read.offset
  simp [pass, clip_pending h, fromHead_none hhead, hnone, hread _ (show
    pageOf s.read.offset ≤ payload.length by omega), loaded]

theorem pending_loaded : Pending payload (loaded payload s) := by
  have hend := h.request_end
  exact ⟨h.length_eq, h.length_lt, cache_pageOf (by omega), h.request_end, h.room⟩

theorem pending_takeHead (hn : n ≤ s.len) : Pending payload (takeHead payload s n) := by
  have hend := h.request_end
  have hroom := h.room
  refine ⟨h.length_eq, h.length_lt, h.cache, ?_, ?_⟩
  · simp only [takeHead]
    omega
  simp only [takeHead]
  rw [overwrite_length _ _ _ (by rw [slice_length]; omega)]
  omega

theorem pending_takeTail (htail : TailCached s.buffer s.read.offset s.len) :
    Pending payload (takeTail payload s) := by
  obtain ⟨hlt, hst, hle⟩ := htail
  have hend := h.request_end
  have hroom := h.room
  refine ⟨h.length_eq, h.length_lt, h.cache, ?_, ?_⟩
  · simp only [takeTail]
    omega
  simp only [takeTail]
  rw [overwrite_length _ _ _ (by rw [slice_length]; omega)]
  omega

omit h in
theorem readLoop_ok (hpos : 0 < s.len) (hpass : pass rhizomeRead s = .ok s') :
    readLoop rhizomeRead (fuel + 1) s = readLoop rhizomeRead fuel s' := by
  rw [readLoop, if_neg (by omega), hpass]

/-- The loop returns with the whole request of `s` served, the read position at
`offset` and a page of the payload in the cache. -/
def Serves (rhizomeRead : Nat → Option (List UInt8)) (payload : List UInt8) (fuel : Nat)
    (s : Locals) (offset : Nat) : Prop :=
  ∃ buffer, CacheOf payload buffer ∧ readLoop rhizomeRead fuel s =
    some ⟨some (s.bytesCopied + s.len), { s.read with offset := offset }, buffer,
      overwrite s.data s.pos (slice payload s.read.offset s.len)⟩

theorem serves_empty (hzero : s.len = 0) : Serves rhizomeRead payload (fuel + 1) s s.read.offset :=
  ⟨s.buffer, h.cache, by simp [readLoop, hzero]⟩

/-- Serving the rest after bytes of the start are copied serves the request. -/
theorem serves_takeHead (hn : n ≤ s.len)
    (hrest : Serves rhizomeRead payload fuel (takeHead payload s n) offset)
    (hloop : readLoop rhizomeRead (fuel + 1) s = readLoop rhizomeRead fuel (takeHead payload s n)) :
    Serves rhizomeRead payload (fuel + 1) s offset := by
  obtain ⟨buf, hcch, heq⟩ := hrest
  refine ⟨buf, hcch, ?_⟩
  have hroom := h.room
  have hend := h.request_end
  have hlen : (slice payload s.read.offset n).length = n := by
    rw [slice_length]
    omega
  have hdata := overwrite_above s.data s.pos (slice payload s.read.offset n)
    (slice payload (s.read.offset + n) (s.len - n)) (by omega)
  rw [hlen, slice_append_slice, Nat.add_sub_cancel' hn] at hdata
  rw [hloop, heq]
  simp only [takeHead, hdata]
  rw [add_assoc, Nat.add_sub_cancel' hn]

end Pending

section Served

variable (hread : ReadsPages rhizomeRead payload)

include hread

/-- From a cached page at or before the read position the request is served
front to back. -/
theorem serves_forward (s : Locals) (h : Pending payload s) (hle : s.buffer.offset ≤ s.read.offset)
    (hfuel : 2 * s.len + 2 ≤ fuel ∨
      s.read.offset < s.buffer.offset + s.buffer.data.length ∧ 2 * s.len + 1 ≤ fuel) :
    Serves rhizomeRead payload fuel s (s.read.offset + s.len) := by
  induction fuel generalizing s with
  | zero => omega
  | succ fuel ih =>
    by_cases hzero : s.len = 0
    · rw [hzero]
      exact serves_empty h hzero
    have hend := h.request_end
    by_cases hhit : s.read.offset < s.buffer.offset + s.buffer.data.length
    · have hn : min s.len (s.buffer.offset + s.buffer.data.length - s.read.offset) ≤ s.len :=
        Nat.min_le_left _ _
      refine serves_takeHead h hn ?_ (readLoop_ok (by omega) (pass_head h hle hhit (by omega)))
      have hrest := ih _ (pending_takeHead h hn) (by simp only [takeHead]; omega)
        (by simp only [takeHead]; omega)
      simp only [takeHead] at hrest ⊢
      rwa [add_assoc, Nat.add_sub_cancel' hn] at hrest
    have htail : ¬TailCached s.buffer s.read.offset s.len := fun ht => by
      have hlt := ht.1
      omega
    rw [Serves, readLoop_ok (by omega) (pass_load hread h (by omega) htail)]
    have hpage := lt_pageOf_add s.read.offset
    have hpage' := pageOf_le s.read.offset
    refine ih (loaded payload s) (pending_loaded h) hpage' ?_
    simp only [loaded, slice_length]
    omega

/-- A cached page past the read position is replaced before anything is copied. -/
theorem serves_load (h : Pending payload s) (hlt : s.read.offset < s.buffer.offset)
    (htail : ¬TailCached s.buffer s.read.offset s.len) (hfuel : 2 * s.len + 1 ≤ fuel) :
    Serves rhizomeRead payload (fuel + 1) s (s.read.offset + s.len) := by
  by_cases hzero : s.len = 0
  · rw [hzero]
    exact serves_empty h hzero
  rw [Serves, readLoop_ok (by omega) (pass_load hread h (by omega) htail)]
  refine serves_forward hread (loaded payload s) (pending_loaded h) (pageOf_le s.read.offset) ?_
  have hend := h.request_end
  have hpage := lt_pageOf_add s.read.offset
  simp only [loaded, slice_length]
  omega

omit hread in
theorem serves_takeTail (h : Pending payload s) (htail : TailCached s.buffer s.read.offset s.len)
    (hrest : Serves rhizomeRead payload fuel (takeTail payload s) offset) :
    Serves rhizomeRead payload (fuel + 1) s offset := by
  obtain ⟨buf, hcch, heq⟩ := hrest
  have hpass : pass rhizomeRead s = .ok (takeTail payload s) := pass_tail h htail
  refine ⟨buf, hcch, ?_⟩
  obtain ⟨hlt, hst, hle⟩ := htail
  have hroom := h.room
  have hend := h.request_end
  have hlen : (slice payload s.read.offset (s.buffer.offset - s.read.offset)).length =
      s.buffer.offset - s.read.offset := by
    rw [slice_length]
    omega
  have hspl := slice_append_slice payload s.read.offset (s.buffer.offset - s.read.offset)
    (s.read.offset + s.len - s.buffer.offset)
  rw [show s.read.offset + (s.buffer.offset - s.read.offset) = s.buffer.offset by omega,
    show s.buffer.offset - s.read.offset + (s.read.offset + s.len - s.buffer.offset) = s.len by
      omega] at hspl
  have hdata := overwrite_below s.data s.pos
    (slice payload s.read.offset (s.buffer.offset - s.read.offset))
    (slice payload s.buffer.offset (s.read.offset + s.len - s.buffer.offset)) (by omega)
  rw [hlen, hspl] at hdata
  have hcnt : s.bytesCopied + (s.read.offset + s.len - s.buffer.offset) +
      (s.buffer.offset - s.read.offset) = s.bytesCopied + s.len := by omega
  rw [readLoop_ok (by omega) hpass, heq]
  simp [takeTail, hdata, hcnt]

/-- The request is served in full; the read position ends at the end of the
request, unless the cached page had that end and not the start. -/
theorem serves_pending (h : Pending payload s) (hfuel : 2 * s.len + 1 ≤ fuel) :
    Serves rhizomeRead payload (fuel + 1) s
      (if TailCached s.buffer s.read.offset s.len then s.buffer.offset else s.read.offset + s.len) := by
  by_cases htail : TailCached s.buffer s.read.offset s.len
  · rw [if_pos htail]
    apply serves_takeTail h htail
    have hpend := pending_takeTail h htail
    obtain ⟨hlt, hst, hle⟩ := htail
    obtain ⟨fuel, rfl⟩ := Nat.exists_eq_add_of_le' (show 1 ≤ fuel by omega)
    have hrest := serves_load hread hpend hlt (by simp only [TailCached, takeTail]; omega)
      (show 2 * (takeTail payload s).len + 1 ≤ fuel by simp only [takeTail]; omega)
    simp only [takeTail] at hrest ⊢
    rwa [show s.read.offset + (s.buffer.offset - s.read.offset) = s.buffer.offset by omega] at hrest
  rw [if_neg htail]
  by_cases hle : s.buffer.offset ≤ s.read.offset
  · exact serves_forward hread s h hle (.inl (by omega))
  · exact serves_load hread h (by omega) htail hfuel

omit hread in
theorem clip_eq_min {read : Read} (hlen : read.length = payload.length)
    (hle : read.offset ≤ payload.length) (hsum : read.offset + len < 2 ^ 64) :
    clip read len = min len (payload.length - read.offset) := by
  rw [clip, sizeUnset_toNat, Nat.mod_eq_of_lt hsum, hlen]
  split
  · omega
  · omega

/-- What a call does when the end of the request is below 2^64. -/
theorem rhizomeReadBuffered_spec (hlt : payload.length < sizeUnset.toNat) {read : Read}
    (hlen : read.length = payload.length) (hle : read.offset ≤ payload.length)
    (hcch : CacheOf payload buf) (hsum : read.offset + data.length < 2 ^ 64) :
    ∃ buf', CacheOf payload buf' ∧ rhizomeReadBuffered rhizomeRead read buf data =
      some ⟨some (min data.length (payload.length - read.offset)),
        { read with offset :=
            if TailCached buf read.offset (min data.length (payload.length - read.offset))
            then buf.offset else read.offset + min data.length (payload.length - read.offset) },
        buf',
        overwrite data 0 (slice payload read.offset
          (min data.length (payload.length - read.offset)))⟩ := by
  have hclip := clip_eq_min hlen hle hsum
  have hpend : Pending payload ⟨read, buf, data, 0,
      min data.length (payload.length - read.offset), 0⟩ :=
    ⟨hlen, hlt, hcch, by simp only; omega, by simp only; omega⟩
  have hsame : pass rhizomeRead ⟨read, buf, data, 0, data.length, 0⟩ =
      pass rhizomeRead ⟨read, buf, data, 0, min data.length (payload.length - read.offset), 0⟩ := by
    have hagn := clip_pending hpend
    simp only at hagn
    simp [pass, hclip, hagn]
  generalize hn : min data.length (payload.length - read.offset) = n at *
  by_cases hzero : data.length = 0
  · obtain rfl : n = 0 := by omega
    refine ⟨buf, hcch, ?_⟩
    rw [if_neg (by simp only [TailCached]; omega)]
    simp [rhizomeReadBuffered, readLoop, hzero]
  by_cases hnone : n = 0
  · subst hnone
    have hload := pass_load hread hpend (by simp) (by simp only [TailCached]; omega)
    refine ⟨_, (pending_loaded hpend).cache, ?_⟩
    rw [if_neg (by simp only [TailCached]; omega), rhizomeReadBuffered,
      readLoop_ok (by simp only; omega) (hsame.trans hload)]
    simp [readLoop, loaded]
  have hser := serves_pending hread hpend (show 2 * n + 1 ≤ 2 * data.length + 1 by omega)
  obtain ⟨buf', hcch', heq⟩ := hser
  refine ⟨buf', hcch', ?_⟩
  rw [readLoop, if_neg hnone, ← hsame] at heq
  rw [rhizomeReadBuffered, readLoop, if_neg hzero, heq]
  simp

end Served

/-- The end of the request is past 2^64, so that no pass can finish it. -/
structure Stuck (payload : List UInt8) (s : Locals) : Prop where
  length_eq : s.read.length = payload.length
  length_lt : payload.length < sizeUnset.toNat
  cache : CacheOf payload s.buffer
  offset_le : s.read.offset ≤ payload.length
  len_lt : s.len < 2 ^ 64
  wraps : 2 ^ 64 ≤ s.read.offset + s.len

theorem stuck_sum (h : Stuck payload s) :
    (s.read.offset + s.len) % 2 ^ 64 = s.read.offset + s.len - 2 ^ 64 := by
  have hlt := h.length_lt
  have hle := h.offset_le
  have hlen := h.len_lt
  rw [sizeUnset_toNat] at hlt
  rw [Nat.mod_eq_sub_mod h.wraps, Nat.mod_eq_of_lt (by omega)]

theorem stuck_fromHead (h : Stuck payload s) (hhead : fromHead s = some s') : Stuck payload s' := by
  obtain ⟨hleng, hbd, hcch, hle, hlen, hwrap⟩ := h
  have hend := cache_end hcch
  have hbd' := hbd
  rw [sizeUnset_toNat] at hbd'
  simp only [fromHead] at hhead
  split at hhead
  · split at hhead
    · split at hhead <;> cases hhead
      refine ⟨hleng, hbd, hcch, ?_, ?_, ?_⟩
      all_goals
        simp only
        omega
    · cases hhead
  · cases hhead

theorem stuck_fromTail (h : Stuck payload s) (htail : fromTail s = some s') : Stuck payload s' := by
  have hsum := stuck_sum h
  obtain ⟨hleng, hbd, hcch, hle, hlen, hwrap⟩ := h
  have hbd' := hbd
  simp only [fromTail, hsum] at htail
  split at htail
  · split at htail
    · split at htail <;> cases htail
      refine ⟨hleng, hbd, hcch, hle, ?_, ?_⟩
      · simp only
        omega
      simp only
      omega
    · cases htail
  · cases htail

theorem stuck_pass (hread : ReadsPages rhizomeRead payload) (h : Stuck payload s) :
    ∃ s', pass rhizomeRead s = .ok s' ∧ Stuck payload s' := by
  have hclip : clip s.read s.len = s.len := by
    have hlen := h.len_lt
    have hle := h.offset_le
    have hleng := h.length_eq
    rw [clip, if_neg]
    rw [stuck_sum h]
    omega
  have hpage := pageOf_le s.read.offset
  have hle := h.offset_le
  simp only [pass, hclip, hread _ (show pageOf s.read.offset ≤ payload.length by omega)]
  cases hhead : fromHead s with
  | some s' => exact ⟨s', rfl, stuck_fromHead h hhead⟩
  | none =>
    cases htail : fromTail s with
    | some s' => exact ⟨s', rfl, stuck_fromTail h htail⟩
    | none =>
      exact ⟨_, rfl, h.length_eq, h.length_lt, cache_pageOf hle, hle, h.len_lt, h.wraps⟩

/-- A request that ends past 2^64 is never finished, in any number of passes. -/
theorem readLoop_stuck (hread : ReadsPages rhizomeRead payload) (s : Locals) (h : Stuck payload s) :
    readLoop rhizomeRead fuel s = none := by
  induction fuel generalizing s with
  | zero => rfl
  | succ fuel ih =>
    have hpos : 0 < s.len := by
      have hlt := h.length_lt
      have hle := h.offset_le
      have hwrap := h.wraps
      rw [sizeUnset_toNat] at hlt
      omega
    obtain ⟨s', hpass, hs'⟩ := stuck_pass hread h
    rw [readLoop_ok hpos hpass]
    exact ih s' hs'

/-! ## Sequences of calls -/

/-- A call: the caller may move `read->offset` first, then asks for as many bytes
as `data` has. -/
structure Call where
  seek : Option Nat
  data : List UInt8
  size_lt : data.length < 2 ^ 64

def seekTo (read : Read) (call : Call) : Read :=
  { read with offset := call.seek.getD read.offset }

def available (payload : List UInt8) (read : Read) (call : Call) : Nat :=
  min call.data.length (payload.length - (seekTo read call).offset)

/-- Every call returns the number of bytes there are, puts those bytes in `data`
and moves the read position past them. -/
def CallsCorrect (rhizomeRead : Nat → Option (List UInt8)) (payload : List UInt8) :
    Read → ReadBuffer → List Call → Prop
  | _, _, [] => True
  | read, buffer, call :: calls =>
    ∃ r, rhizomeReadBuffered rhizomeRead (seekTo read call) buffer call.data = some r ∧
      r.status = some (available payload read call) ∧
      r.data = overwrite call.data 0
        (slice payload (seekTo read call).offset (available payload read call)) ∧
      r.read.offset = (seekTo read call).offset + available payload read call ∧
      CallsCorrect rhizomeRead payload r.read r.buffer calls

/-- No call asks past 2^64, and none finds only the end of its request in the
page that the calls before it left in the cache. -/
def CallsClear (rhizomeRead : Nat → Option (List UInt8)) (payload : List UInt8) :
    Read → ReadBuffer → List Call → Prop
  | _, _, [] => True
  | read, buffer, call :: calls =>
    (seekTo read call).offset + call.data.length < 2 ^ 64 ∧
      ¬TailCached buffer (seekTo read call).offset (available payload read call) ∧
      ∀ r, rhizomeReadBuffered rhizomeRead (seekTo read call) buffer call.data = some r →
        CallsClear rhizomeRead payload r.read r.buffer calls

/-- The calls read the payload exactly if none of them is spoiled by the cached page. -/
theorem callsCorrect_iff_clear {rhizomeRead : Nat → Option (List UInt8)}
    (hread : ReadsPages rhizomeRead payload) (hlt : payload.length < sizeUnset.toNat)
    (hseek : ∀ call ∈ calls, ∀ o, call.seek = some o → o ≤ payload.length) (read : Read)
    (hlen : read.length = payload.length) (hle : read.offset ≤ payload.length)
    (buffer : ReadBuffer) (hcch : CacheOf payload buffer) :
    CallsCorrect rhizomeRead payload read buffer calls ↔
      CallsClear rhizomeRead payload read buffer calls := by
  induction calls generalizing read buffer with
  | nil => simp [CallsCorrect, CallsClear]
  | cons call calls ih =>
    have hle' : (seekTo read call).offset ≤ payload.length := by
      cases ho : call.seek with
      | none => simpa [seekTo, ho] using hle
      | some o => simpa [seekTo, ho] using hseek call List.mem_cons_self o ho
    have hrest := ih (fun call hmem => hseek call (List.mem_cons_of_mem _ hmem))
    by_cases hsum : (seekTo read call).offset + call.data.length < 2 ^ 64
    · obtain ⟨buffer', hcch', heq⟩ := rhizomeReadBuffered_spec hread hlt
        (show (seekTo read call).length = payload.length from hlen) hle' hcch hsum
      rw [← available] at heq
      by_cases htail : TailCached buffer (seekTo read call).offset (available payload read call)
      · have hst := htail.2.1
        rw [if_pos htail] at heq
        constructor
        · rintro ⟨r, hr, -, -, hoff, -⟩
          rw [heq, some_inj] at hr
          subst hr
          simp only at hoff
          omega
        rintro ⟨-, hnot, -⟩
        exact absurd htail hnot
      rw [if_neg htail] at heq
      have hnext := hrest { seekTo read call with
        offset := (seekTo read call).offset + available payload read call } hlen
        (by simp only [available]; omega) buffer' hcch'
      constructor
      · rintro ⟨r, hr, -, -, -, hcs⟩
        refine ⟨hsum, htail, fun r' hr' => ?_⟩
        rw [hr, some_inj] at hr'
        rw [heq, some_inj] at hr
        subst hr'
        subst hr
        exact hnext.mp hcs
      rintro ⟨-, -, hcs⟩
      exact ⟨_, heq, rfl, rfl, rfl, hnext.mpr (hcs _ heq)⟩
    have hstuck : Stuck payload ⟨seekTo read call, buffer, call.data, 0, call.data.length, 0⟩ :=
      ⟨hlen, hlt, hcch, hle', call.size_lt, by simp only; omega⟩
    have hnone : rhizomeReadBuffered rhizomeRead (seekTo read call) buffer call.data = none :=
      readLoop_stuck hread _ hstuck
    constructor
    · rintro ⟨r, hr, -⟩
      exact absurd (hnone.symm.trans hr) (some_ne_none r).symm
    intro hclr
    exact absurd hclr.1 hsum

/-- Starting with an empty cache, a sequence of calls with seeks reads the payload
correctly just when no call finds the end of its request alone in the cached page. -/
theorem rhizome_read_buffered_calls_iff (payload : List UInt8) (hlt : payload.length < sizeUnset.toNat)
    (rhizomeRead : Nat → Option (List UInt8)) (hread : ReadsPages rhizomeRead payload)
    (offset : Nat) (hle : offset ≤ payload.length) (calls : List Call)
    (hseek : ∀ call ∈ calls, ∀ o, call.seek = some o → o ≤ payload.length) :
    CallsCorrect rhizomeRead payload ⟨payload.length, offset⟩ ⟨0, []⟩ calls ↔
      CallsClear rhizomeRead payload ⟨payload.length, offset⟩ ⟨0, []⟩ calls :=
  callsCorrect_iff_clear hread hlt hseek _ rfl hle _ (.inl rfl)

theorem rhizome_read_buffered_calls_two :
    CallsCorrect (fun o => some (slice [1, 2, 3, 4, 5] o pageSize)) [1, 2, 3, 4, 5] ⟨5, 0⟩ ⟨0, []⟩
      [⟨none, [0, 0], by decide⟩, ⟨some 1, [0, 0], by decide⟩] := by
  refine (rhizome_read_buffered_calls_iff [1, 2, 3, 4, 5] (by decide) _ (fun _ _ => rfl) 0
    (by decide) _ (by decide)).mpr ⟨by decide, by decide, fun r hr => ?_⟩
  cases hr
  exact ⟨by decide, by decide, fun r hr => trivial⟩

def twoPages : List UInt8 := List.replicate 4100 7

def readTwoPages (offset : Nat) : Option (List UInt8) := some (slice twoPages offset pageSize)

/-- Reading one byte at 4096 and then ten at 4090 returns the ten bytes, with the
read position at 4096 and not at 4100. -/
theorem read_offset_stays_at_page_start :
    ∃ r₁ r₂, rhizomeReadBuffered readTwoPages ⟨4100, 4096⟩ ⟨0, []⟩ [0] = some r₁ ∧
      rhizomeReadBuffered readTwoPages { r₁.read with offset := 4090 } r₁.buffer
        (List.replicate 10 0) = some r₂ ∧
      r₂.status = some 10 ∧ r₂.data = List.replicate 10 7 ∧ r₂.read.offset = 4096 := by
  have hsec : (rhizomeReadBuffered readTwoPages ⟨4100, 4090⟩ ⟨4096, [7, 7, 7, 7]⟩
      (List.replicate 10 0)).map (fun r => (r.status, r.data, r.read.offset)) =
        some (some 10, List.replicate 10 7, 4096) := by decide +kernel
  obtain ⟨r₂, hr2, hfie⟩ := map_eq_some_iff.mp hsec
  simp only [Prod.mk.injEq] at hfie
  exact ⟨⟨some 1, ⟨4100, 4097⟩, ⟨4096, [7, 7, 7, 7]⟩, [7]⟩, r₂, by decide +kernel, hr2, hfie⟩

end ReadBuffered
