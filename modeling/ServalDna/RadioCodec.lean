import ServalDna.PacketStream
import ServalDna.RadioSafety

/-!
# Packets that arrive as they were sent

The receiver waits for a whole frame, with the bytes that have come so far in a window of
its buffer. Each frame of a packet adds its data to what has been put together, since the
numbers follow each other, and the last one delivers the packet. So whatever packets are
sent, one after the other, they are delivered once each and in their order.
-/
namespace RadioCodec

open ListSlice OverlayBuffer BufferReads Golay RadioLink RadioSafety List Option
open PacketStream (Rests)

/-- The receive buffer holds `xs` behind its start. -/
structure Waiting (s : RxState) (xs : List UInt8) : Prop where
  size : s.payload.length = payloadSize
  inside : s.payloadStart + s.payloadOffset ≤ payloadSize
  window : slice s.payload s.payloadStart s.payloadOffset = xs

namespace Waiting

theorem offset_eq (h : Waiting s xs) : s.payloadOffset = xs.length := by
  have hin := h.inside
  rw [← h.window, slice_length, h.size]
  omega

theorem byte (h : Waiting s xs) (hi : i < xs.length) : s.byte i = xs.getD i 0 := by
  have hoff := h.offset_eq
  rw [RxState.byte, ← h.window, slice, getD_eq_getElem?_getD, getD_eq_getElem?_getD,
    getElem?_take_of_lt (by omega), getElem?_drop]

end Waiting

theorem slice_set (c : UInt8) (h : start + n < l.length) :
    slice (l.set (start + n) c) start (n + 1) = slice l start n ++ [c] := by
  rw [← slice_append_slice]
  congr 1
  · rw [slice, slice, drop_set, if_neg (by omega), take_set_of_le (by omega)]
  rw [slice, drop_set, if_neg (by omega), Nat.sub_self, drop_eq_getElem_cons h, set_cons_zero]
  rfl

theorem Waiting.makeRoom (h : Waiting s xs) (hxs : xs.length < 255) :
    Waiting s.makeRoom xs ∧ s.makeRoom.payloadStart + s.makeRoom.payloadOffset < payloadSize := by
  have hin := h.inside
  have hsize := h.size
  have hoff := h.offset_eq
  obtain ⟨hsize', hsp⟩ := makeRoom_bounds hsize hin (by omega)
  refine ⟨⟨hsize', le_of_lt hsp, ?_⟩, hsp⟩
  rw [payloadSize, linkMtu] at hin hsize
  rw [RxState.makeRoom]
  split
  · next hfull =>
    rw [payloadSize, linkMtu] at hfull
    have hback : 1 + (s.payloadStart - 1) = s.payloadStart := by omega
    have hwin : slice (s.payload.drop 1 ++ s.payload.drop (payloadSize - 1)) (s.payloadStart - 1)
        s.payloadOffset = xs := by
      rw [slice_append_left _ _ _ _ (by rw [length_drop]; omega), slice, drop_drop, hback]
      exact h.window
    rw [sub32_eq (by omega) (by omega)]
    exact hwin
  · exact h.window

theorem Waiting.push (h : Waiting s xs) (hxs : xs.length < 255) (c : UInt8) :
    Waiting (s.push c) (xs ++ [c]) := by
  obtain ⟨hroom, hsp⟩ := h.makeRoom hxs
  refine ⟨?_, hsp, ?_⟩
  · rw [RxState.push, length_set, hroom.size]
  · rw [RxState.push, slice_set c (by rw [hroom.size]; exact hsp), hroom.window]

/-- What has been put together, apart from the receive buffer. -/
structure Assembly where
  seq : UInt8
  dst : List UInt8
  packetLength : Nat

def assembly (s : RxState) : Assembly := ⟨s.seq, s.dst, s.packetLength⟩

theorem makeRoom_assembly :
    assembly s.makeRoom = assembly s ∧ s.makeRoom.payloadLength = s.payloadLength := by
  rw [makeRoom_frame]
  exact ⟨rfl, rfl⟩

theorem push_assembly (s : RxState) :
    assembly (s.push c) = assembly s ∧ (s.push c).payloadLength = s.payloadLength :=
  makeRoom_assembly

/-! ## The header of a frame -/

def frameLength (data : List UInt8) : Nat := data.length + 38

theorem lengthField_length : (lengthField len).length = 3 := rfl

variable (rs : ReedSolomon)

theorem frameBytes_length (flags : UInt8) : (frameBytes rs flags data).length = frameLength data := by
  simp only [frameBytes, length_cons, length_append, lengthField_length, rs.encode_length, fecLength,
    frameLength]
  omega

def lengthWord (n : UInt8) : BitVec 32 := pack n (n &&& 0xF) 0

theorem lengthWord_halves : ∀ v : BitVec 8, let n : UInt8 := ⟨v⟩
    (lengthWord n &&& 0xfff#32) >>> 8 &&& 0xF#32 = lengthWord n &&& 0xfff#32 &&& 0xF#32 ∧
      (lengthWord n &&& 0xfff#32 &&& 0xFF#32).toNat = n.toNat ∧ (lengthWord n).setWidth 8 = n.toBitVec := by
  decide +kernel

theorem lengthField_eq : ∃ b c, lengthField len = [UInt8.ofNat len, b, c] ∧
    golayDecode (UInt8.ofNat len) b c = lengthWord (UInt8.ofNat len) &&& 0xfff#32 := by
  have hhead : (golayWord (lengthWord (UInt8.ofNat len))).setWidth 8 = (UInt8.ofNat len).toBitVec :=
    (unpack_head _).trans (lengthWord_halves _).2.2
  have hfld : lengthField len = [⟨(golayWord (lengthWord (UInt8.ofNat len))).setWidth 8⟩, _, _] := rfl
  rw [hhead] at hfld
  exact ⟨_, _, hfld, golayDecode_unpack _ hfld⟩

section Frame

variable {rs : ReedSolomon} {s : RxState}

/-- The bytes so far are the beginning of a frame. -/
structure Begun (rs : ReedSolomon) (flags : UInt8) (data : List UInt8) (s : RxState) (xs : List UInt8) :
    Prop where
  waiting : Waiting s xs
  begins : xs <+: frameBytes rs flags data
  short : data.length ≤ linkPayloadMtu

theorem Begun.small (h : Begun rs flags data s xs) : data.length ≤ 215 := h.short

theorem Begun.byte (h : Begun rs flags data s xs) (hi : i < xs.length) :
    s.byte i = (frameBytes rs flags data).getD i 0 := by
  obtain ⟨rest, hrest⟩ := h.begins
  rw [h.waiting.byte hi, ← hrest, getD_eq_getElem?_getD, getD_eq_getElem?_getD, getElem?_append_left hi]

theorem Begun.header (h : Begun rs flags data s xs) (hxs : 6 ≤ xs.length) :
    parseHeartbeat s = false ∧ decodeLength s = some (frameLength data) := by
  have hsht := h.small
  obtain ⟨b, c, hfld, hdec⟩ := lengthField_eq
  have hfr : frameBytes rs flags data = 0xfe :: UInt8.ofNat (data.length + fecLength - radioCrcLength) ::
      b :: c :: (flags :: msgDatastream :: data ++ rs.encode (flags :: msgDatastream :: data)) := by
    rw [frameBytes, hfld]
    rfl
  have h1 := h.byte (i := 1) (by omega)
  have h2 := h.byte (i := 2) (by omega)
  have h3 := h.byte (i := 3) (by omega)
  rw [hfr] at h1 h2 h3
  simp only [getD_cons_succ, getD_cons_zero] at h1 h2 h3
  have hlen : (UInt8.ofNat (data.length + fecLength - radioCrcLength)).toNat = data.length + 30 := by
    rw [UInt8.toNat_ofNat', fecLength, radioCrcLength]
    omega
  constructor
  · have hne : s.byte 1 ≠ 9 := by
      rw [h1]
      intro h9
      have hnine : data.length + 30 = 9 := hlen.symm.trans (congrArg UInt8.toNat h9)
      omega
    simp [parseHeartbeat, hne]
  obtain ⟨hhal, hval, -⟩ := lengthWord_halves
    (UInt8.ofNat (data.length + fecLength - radioCrcLength)).toBitVec
  rw [decodeLength, h1, h2, h3, hdec, hhal, hval, hlen]
  rw [radioHeaderLength, radioCrcLength, fecLength, linkMtu, frameLength]
  simp
  omega

def knownLength (data xs : List UInt8) : Nat := if xs.length < 6 then 0 else frameLength data

theorem Begun.look (h : Begun rs flags data s xs)
    (hkn : s.payloadLength = 0 ∨ s.payloadLength = knownLength data xs)
    (hps : s.payloadOffset ≤ ps) :
    lookForHeader ps s = { s with payloadLength := knownLength data xs } := by
  have hoff := h.waiting.offset_eq
  rw [knownLength] at hkn ⊢
  by_cases hxs : xs.length < 6
  · rw [if_pos hxs] at hkn ⊢
    have hsame : s = { s with payloadLength := 0 } := by rw [← or_self_iff.mp hkn]
    cases ps with
    | zero => exact hsame
    | succ ps =>
      rw [lookForHeader, if_neg (by omega)]
      exact hsame
  rw [if_neg hxs] at hkn ⊢
  obtain ⟨hhea, hlen⟩ := h.header (Nat.not_lt.mp hxs)
  cases ps with
  | zero => omega
  | succ ps =>
    rw [lookForHeader]
    by_cases hzero : s.payloadLength = 0
    · rw [if_pos ⟨hzero, by omega⟩, hhea, hlen]
      rfl
    · rw [if_neg fun hlook => hzero hlook.1, ← hkn.resolve_left hzero]

theorem Begun.push (h : Begun rs flags data s xs) (hc : xs ++ [c] <+: frameBytes rs flags data) :
    Begun rs flags data (s.push c) (xs ++ [c]) := by
  have hlen := hc.length_le
  have hsht := h.small
  rw [length_append, length_singleton, frameBytes_length, frameLength] at hlen
  exact ⟨h.waiting.push (by omega) c, hc, h.short⟩

theorem knownLength_mono (hkn : s.payloadLength = knownLength data xs) :
    s.payloadLength = 0 ∨ s.payloadLength = knownLength data (xs ++ [c]) := by
  rw [knownLength] at hkn ⊢
  split at hkn
  · exact .inl hkn
  next hxs =>
  rw [if_neg (by simp; omega)]
  exact .inr hkn

/-- A byte that is not the last one of its frame is only kept. -/
theorem decode_wait (h : Begun rs flags data s xs) (hkn : s.payloadLength = knownLength data xs)
    (hc : xs ++ [c] <+: frameBytes rs flags data) (hmore : xs.length + 1 < frameLength data) :
    ∃ s', radioLinkDecode rs s c = some ⟨s', [], []⟩ ∧ Begun rs flags data s' (xs ++ [c]) ∧
      s'.payloadLength = knownLength data (xs ++ [c]) ∧ assembly s' = assembly s := by
  obtain ⟨hasm, hlen⟩ := push_assembly s
  have hpsh := h.push hc
  have hlook := hpsh.look (hlen ▸ knownLength_mono hkn) le_rfl
  have hoff := hpsh.waiting.offset_eq
  have hwait : knownLength data (xs ++ [c]) = 0 ∨
      (s.push c).payloadOffset < knownLength data (xs ++ [c]) := by
    rw [hoff, knownLength]
    split
    · exact .inl rfl
    right
    rw [length_append, length_singleton]
    exact hmore
  refine ⟨{ s.push c with payloadLength := knownLength data (xs ++ [c]) }, ?_, ?_, rfl, hasm⟩
  · rw [radioLinkDecode, parseLoop, hlook]
    exact if_pos hwait
  · exact { hpsh with waiting := { hpsh.waiting with } }

/-! ## The last byte of a frame -/

theorem overwrite_slice (l : List UInt8) : overwrite l start (slice l start n) = l := by
  rw [overwrite, append_assoc, slice_append_drop, take_append_drop]

/-- A code whose blocks are decoded when they have not been changed. -/
def Faithful (rs : ReedSolomon) : Prop :=
  ∀ data, 2 ≤ data.length → data.length ≤ 223 →
    rs.decode (data ++ rs.encode data) = (some 0, data ++ rs.encode data)

theorem frameBytes_drop : (frameBytes rs flags data).drop 4 =
      flags :: msgDatastream :: data ++ rs.encode (flags :: msgDatastream :: data) := rfl

/-- A whole frame comes to the assembly as it was sent. -/
theorem parse_whole (hrs : Faithful rs) (h : Begun rs flags data s (frameBytes rs flags data))
    (hlen : s.payloadLength = frameLength data) : radioLinkParse rs s = assemble s 0 := by
  have hsht := h.small
  have hoff := h.waiting.offset_eq
  rw [frameBytes_length, ← hlen] at hoff
  have hblk : slice s.payload (s.payloadStart + 4) (s.payloadLength - 4) =
      flags :: msgDatastream :: data ++ rs.encode (flags :: msgDatastream :: data) := by
    rw [← drop_slice, ← hoff, h.waiting.window, frameBytes_drop]
  have hdec := hrs (flags :: msgDatastream :: data) (by simp) (by simp; omega)
  rw [radioLinkParse, if_neg (by rw [hlen, frameLength]; omega), hblk, hdec]
  simp only
  rw [← hblk, overwrite_slice]

def restartWith (flags : UInt8) (a : Assembly) : Nat :=
  if flags &&& 0x40 ≠ 0 then 0
  else if flags &&& 0x3f ≠ (a.seq + 1) &&& 0x3f then mdpMtu + 1
  else a.packetLength

def Assembly.add (a : Assembly) (flags : UInt8) (data : List UInt8) : Assembly where
  seq := flags &&& 0x3f
  dst := overwrite a.dst (restartWith flags a) data
  packetLength := if flags &&& 0x80 ≠ 0 then mdpMtu + 1 else restartWith flags a + data.length

def Assembly.completed (a : Assembly) (flags : UInt8) (data : List UInt8) : List (List UInt8) :=
  if flags &&& 0x80 ≠ 0 then [(a.add flags data).dst.take (restartWith flags a + data.length)] else []

theorem assemble_whole (h : Begun rs flags data s (frameBytes rs flags data))
    (hlen : s.payloadLength = frameLength data)
    (hfits : restartWith flags (assembly s) + data.length ≤ mdpMtu) :
    assembly (assemble s 0).state = (assembly s).add flags data ∧
      (assemble s 0).delivered.toList = (assembly s).completed flags data ∧
      (assemble s 0).accepted = true ∧ (assemble s 0).backtrack = 0 ∧
      (assemble s 0).state.payload = s.payload ∧ (assemble s 0).state.payloadOffset = s.payloadOffset ∧
      (assemble s 0).state.payloadLength = s.payloadLength := by
  have hsht := h.small
  have hfl : s.byte 4 = flags := h.byte (by rw [frameBytes_length, frameLength]; omega)
  have hres : s.restart = restartWith flags (assembly s) := by
    rw [RxState.restart, hfl]
    rfl
  have hcnt : dataBytes s.payloadLength = data.length := by
    rw [hlen, frameLength, dataBytes_eq (by omega), if_pos (by omega)]
    omega
  have hdata : slice s.payload (s.payloadStart + radioHeaderLength) data.length = data := by
    have hoff := h.waiting.offset_eq
    rw [frameBytes_length, frameLength] at hoff
    have hwin := congrArg (slice · 6 data.length) h.waiting.window
    rw [slice_slice _ (by omega)] at hwin
    exact hwin.trans (take_left)
  have hmod : (restartWith flags (assembly s) + data.length) % 2 ^ 64 =
      restartWith flags (assembly s) + data.length := by
    rw [mdpMtu] at hfits
    omega
  rw [assemble, hcnt, hres, hfl, hdata, hmod, if_neg (Nat.not_lt.mpr hfits)]
  refine ⟨rfl, ?_, rfl, rfl, rfl, rfl, rfl⟩
  rw [Assembly.completed]
  simp only
  split
  · rfl
  · rfl

/-- A receiver between two frames. -/
structure Ready (s : RxState) : Prop where
  waiting : Waiting s []
  length : s.payloadLength = 0

/-- The fragment has been added and the receiver is ready for the next frame. -/
structure Took (a : Assembly) (flags : UInt8) (data : List UInt8) (r : Received) : Prop where
  delivered : r.delivered = a.completed flags data
  ready : Ready r.state
  added : assembly r.state = a.add flags data

theorem ready_consume {t : RxState} (hsize : t.payload.length = payloadSize)
    (hwh : t.payloadOffset = t.payloadLength) (hsm : t.payloadOffset ≤ 255) : Ready (t.consume 0) := by
  have hoff : sub32 t.payloadOffset (t.payloadLength - 0) = 0 := by
    rw [Nat.sub_zero, ← hwh, sub32_eq le_rfl (by omega), Nat.sub_self]
  refine ⟨⟨?_, ?_, ?_⟩, rfl⟩
  · rw [RxState.consume, hoff, slice_zero_length, overwrite_nil, hsize]
  · rw [RxState.consume, hoff]
    exact Nat.zero_le _
  · rw [RxState.consume, hoff, slice_zero_length]

theorem consume_assembly : assembly (t.consume bt) = assembly t := rfl

theorem Ready.parseLoop (h : Ready t) (ps : Nat) :
    parseLoop rs (ps + 1) t = some ⟨t, [], []⟩ := by
  have hoff : t.payloadOffset = 0 := h.waiting.offset_eq
  rw [RadioLink.parseLoop, hoff, lookForHeader]
  exact if_pos (.inl h.length)

/-- The pass for a whole frame, and the one behind it that finds nothing more. -/
theorem parse_last (hrs : Faithful rs) (h : Begun rs flags data s (frameBytes rs flags data))
    (hlen : s.payloadLength = frameLength data)
    (hfits : restartWith flags (assembly s) + data.length ≤ mdpMtu) (ps : Nat) :
    ∃ r, (parseLoop rs (ps + 1) (radioLinkParse rs s).next).map (·.after (radioLinkParse rs s)) = some r ∧
      Took (assembly s) flags data r := by
  have hsht := h.small
  have hoff := h.waiting.offset_eq
  rw [frameBytes_length, ← hlen] at hoff
  rw [parse_whole hrs h hlen]
  obtain ⟨hasm, hdel, hacc, hbac, hpl, hoff', hlen'⟩ :=
    assemble_whole h hlen hfits
  generalize assemble s 0 = p at hasm hdel hacc hbac hpl hoff' hlen' ⊢
  have hnext : p.next = p.state.consume 0 := by rw [Parsed.next, if_pos hacc, hbac]
  have hrdy : Ready p.next := by
    rw [hnext]
    apply ready_consume
    · rw [hpl, h.waiting.size]
    · rw [hoff', hlen', hoff]
    rw [hoff', hoff, hlen, frameLength]
    omega
  refine ⟨Received.after p ⟨p.next, [], []⟩, ?_, ⟨?_, hrdy, ?_⟩⟩
  · rw [hrdy.parseLoop ps, map_some]
  · rw [Received.after, hdel, append_nil]
  · rw [← hasm, Received.after_state, hnext, consume_assembly]

theorem decode_last (hrs : Faithful rs) (h : Begun rs flags data s xs)
    (hkn : s.payloadLength = knownLength data xs) (hc : xs ++ [c] = frameBytes rs flags data)
    (hfits : restartWith flags (assembly s) + data.length ≤ mdpMtu) :
    ∃ r, radioLinkDecode rs s c = some r ∧ Took (assembly s) flags data r := by
  obtain ⟨hasm, hlen⟩ := push_assembly s
  have hpsh : Begun rs flags data (s.push c) (xs ++ [c]) := h.push (hc.symm ▸ prefix_rfl)
  have hlook := hpsh.look (hlen ▸ knownLength_mono hkn) le_rfl
  have hoff := hpsh.waiting.offset_eq
  rw [hc, frameBytes_length] at hoff
  have hfr : 6 < frameLength data := by
    rw [frameLength]
    omega
  have hkn' : knownLength data (xs ++ [c]) = frameLength data := by
    rw [hc, knownLength, frameBytes_length, if_neg (by omega)]
  have hwh : Begun rs flags data { s.push c with payloadLength := frameLength data }
      (frameBytes rs flags data) := by
    rw [← hc]
    exact { hpsh with waiting := { hpsh.waiting with } }
  obtain ⟨ps, hps⟩ : ∃ ps, (s.push c).measure = ps + 1 :=
    ⟨(s.push c).measure - 1, by rw [RxState.measure]; omega⟩
  rw [radioLinkDecode, hps, parseLoop, hlook, hkn']
  rw [if_neg (by rw [hoff]; simp only; omega), (hwh.header (by rw [frameBytes_length]; omega)).1,
    if_neg Bool.false_ne_true]
  rw [← hasm] at hfits ⊢
  exact parse_last hrs hwh rfl hfits ps

theorem receive_begun (hrs : Faithful rs) (h : Begun rs flags data s xs)
    (hkn : s.payloadLength = knownLength data xs) (hys : xs ++ ys = frameBytes rs flags data)
    (hne : ys ≠ []) (hfits : restartWith flags (assembly s) + data.length ≤ mdpMtu) :
    ∃ r, receive rs s ys = some r ∧ Took (assembly s) flags data r := by
  induction ys generalizing s xs with
  | nil => exact absurd rfl hne
  | cons c ys ih =>
    have hys' : (xs ++ [c]) ++ ys = frameBytes rs flags data := by
      rw [append_assoc, singleton_append, hys]
    cases hrest : ys with
    | nil =>
      rw [hrest, append_nil] at hys'
      obtain ⟨r, hr, htook⟩ := decode_last hrs h hkn hys' hfits
      refine ⟨r.followed ⟨r.state, [], []⟩, ?_, ⟨?_, htook.ready, htook.added⟩⟩
      · rw [receive, hr]
        rfl
      · rw [Received.followed, append_nil, htook.delivered]
    | cons c' ys' =>
      have hmore : xs.length + 1 < frameLength data := by
        rw [← frameBytes_length rs flags, ← hys', hrest]
        simp
      obtain ⟨s', hs', hbgn, hkn', hasm⟩ := decode_wait h hkn ⟨ys, hys'⟩ hmore
      rw [← hasm] at hfits ⊢
      obtain ⟨r, hr, hrcv⟩ := ih hbgn hkn' hys' (by rw [hrest]; exact cons_ne_nil _ _) hfits
      refine ⟨r, ?_, hrcv⟩
      rw [receive, hs', bind_some, ← hrest, hr, map_some]
      rfl

/-- A frame that is received by itself. -/
theorem receive_frame (flags : UInt8) (hrs : Faithful rs) (h : Ready s) (hsht : data.length ≤ linkPayloadMtu)
    (hfits : restartWith flags (assembly s) + data.length ≤ mdpMtu) :
    ∃ r, receive rs s (frameBytes rs flags data) = some r ∧ Took (assembly s) flags data r :=
  receive_begun hrs ⟨h.waiting, nil_prefix, hsht⟩ h.length (nil_append _) (cons_ne_nil _ _) hfits

end Frame

theorem receive_append (s : RxState) {r r' : Received} (hr : receive rs s xs = some r)
    (hr' : receive rs r.state ys = some r') : receive rs s (xs ++ ys) = some (r.followed r') := by
  induction xs generalizing s r with
  | nil =>
    cases hr
    exact hr'
  | cons c xs ih =>
    obtain ⟨first, hfst, hr⟩ := bind_eq_some_iff.mp hr
    obtain ⟨rest, hrest, rfl⟩ := map_eq_some_iff.mp hr
    rw [cons_append, receive, hfst, bind_some, ih first.state hrest hr', map_some]
    simp [Received.followed]

/-! ## The fragments of a packet -/

theorem frameFlags_bits : (frameFlags tx startP endP &&& 0x40 ≠ 0 ↔ startP = true) ∧
      (frameFlags tx startP endP &&& 0x80 ≠ 0 ↔ endP = true) ∧
      frameFlags tx startP endP &&& 0x3f = UInt8.ofNat (tx % 64) ∧
      (UInt8.ofNat (tx % 64) + 1) &&& 0x3f = UInt8.ofNat ((tx + 1) % 64) := by
  have hn := Nat.mod_lt tx (show 0 < 64 by decide)
  rw [frameFlags, ← Nat.mod_add_mod]
  generalize tx % 64 = n at *
  revert n startP endP
  decide +kernel

/-- A packet is under way: `done` has been put together, and the next frame has the number
`txSeq`. Nothing is needed for the first frame. -/
def Underway (a : Assembly) (txSeq : Nat) (done : List UInt8) : Prop :=
  done ≠ [] → a.packetLength = done.length ∧ a.dst.take done.length = done ∧
    (a.seq + 1) &&& 0x3f = UInt8.ofNat (txSeq % 64)

theorem Underway.restart (h : Underway a tx done) :
    restartWith (frameFlags tx (done.length == 0) endP) a = done.length := by
  obtain ⟨hst, -, hseq, -⟩ := frameFlags_bits
  rw [restartWith]
  by_cases hdone : done = []
  · rw [if_pos (hst.mpr (by simp [hdone])), hdone]
    rfl
  obtain ⟨hlen, -, hnext⟩ := h hdone
  rw [if_neg (by rw [hst]; simpa using hdone), hseq, hnext, if_neg (not_not.mpr rfl), hlen]

theorem Underway.dst (h : Underway a tx done) :
    (a.add (frameFlags tx (done.length == 0) endP) data).dst.take (done.length + data.length) =
      done ++ data := by
  have htake : a.dst.take done.length = done := by
    by_cases hdone : done = []
    · rw [hdone]
      rfl
    · exact (h hdone).2.1
  have hlen : (a.dst.take done.length ++ data).length = done.length + data.length := by
    rw [htake, length_append]
  rw [Assembly.add, h.restart, overwrite, take_left' hlen, htake]

theorem Underway.add (h : Underway a tx done) :
    Underway (a.add (frameFlags tx (done.length == 0) false) data) (tx + 1) (done ++ data) := by
  obtain ⟨-, hend, hseq, hnext⟩ := frameFlags_bits
  intro _
  refine ⟨?_, ?_, ?_⟩
  · rw [Assembly.add, if_neg (by rw [hend]; exact Bool.false_ne_true), h.restart, length_append]
  · rw [length_append, h.dst]
  · rw [Assembly.add, hseq, hnext]

theorem Underway.completed (h : Underway a tx done) :
    a.completed (frameFlags tx (done.length == 0) endP) data = if endP then [done ++ data] else [] := by
  obtain ⟨-, hend, -⟩ := frameFlags_bits
  rw [Assembly.completed, h.restart, h.dst]
  exact if_congr hend rfl rfl

/-- The frame that is made of the next part of a packet. -/
theorem encode_next (tx : Nat) {done rest : List UInt8} (hb : Rests b rest)
    (hpos : b.position = done.length) :
    radioLinkEncodePacket rs ⟨tx, some b⟩ = if rest.length ≤ linkPayloadMtu then
        some (⟨tx + 1, none⟩, frameBytes rs (frameFlags tx (done.length == 0) true) rest)
      else
        some (⟨tx + 1, some (b.advance linkPayloadMtu)⟩,
          frameBytes rs (frameFlags tx (done.length == 0) false) (rest.take linkPayloadMtu)) := by
  rw [radioLinkEncodePacket]
  simp only [hb.remaining, obPosition, hpos]
  by_cases hlast : rest.length ≤ linkPayloadMtu
  · have hhl : Holds b (rest ++ []) := by
      rw [append_nil]
      exact hb.holds
    simp only [if_pos hlast, Nat.not_lt.mpr hlast, decide_false, Bool.not_false, if_true]
    rw [hhl.obGetBytes]
    rfl
  have hmore : rest.length > linkPayloadMtu := Nat.not_le.mp hlast
  have htake : (rest.take linkPayloadMtu).length = linkPayloadMtu := by
    rw [length_take]
    omega
  have hhl : Holds b (rest.take linkPayloadMtu ++ rest.drop linkPayloadMtu) := by
    rw [take_append_drop]
    exact hb.holds
  have hget := hhl.obGetBytes
  rw [htake] at hget
  simp only [if_neg hlast, hmore, decide_true, Bool.not_true, Bool.false_eq_true, if_false]
  rw [hget]
  rfl

/-- The rest of a packet that is under way comes out as a whole. -/
theorem packet_arrives {rs : ReedSolomon} (hrs : Faithful rs) {b : Buffer} {rx : RxState}
    {done rest : List UInt8} (hb : Rests b rest) (hpos : b.position = done.length)
    (hlen : done.length + rest.length ≤ mdpMtu) (hps : rest.length + 1 < ps)
    (hrx : Ready rx) (hund : Underway (assembly rx) tx done) :
    ∃ sent r, encodeAll rs ps ⟨tx, some b⟩ = some sent ∧ sent.1.txPacket = none ∧
      receive rs rx sent.2 = some r ∧ r.delivered = [done ++ rest] ∧ Ready r.state := by
  induction ps generalizing tx b rx done rest with
  | zero => omega
  | succ ps ih =>
    have henc := encode_next rs tx hb hpos
    rw [encodeAll, if_neg (by exact Bool.false_ne_true)]
    by_cases hlast : rest.length ≤ linkPayloadMtu
    · rw [if_pos hlast] at henc
      obtain ⟨r, hr, hdel, hrdy⟩ := receive_frame (frameFlags tx (done.length == 0) true) hrs hrx
        hlast (by rw [hund.restart]; exact hlen)
      obtain ⟨ps, rfl⟩ : ∃ n, ps = n + 1 := ⟨ps - 1, by omega⟩
      refine ⟨(⟨tx + 1, none⟩, frameBytes rs (frameFlags tx (done.length == 0) true) rest ++ []), r, ?_, rfl,
        ?_, ?_, hrdy⟩
      · rw [henc, bind_some, encodeAll]
        rfl
      · rw [append_nil]
        exact hr
      · rw [hdel, hund.completed, if_pos rfl]
    rw [if_neg hlast] at henc
    have htake : (rest.take linkPayloadMtu).length = linkPayloadMtu := by
      rw [length_take]
      omega
    have hspl : done ++ rest.take linkPayloadMtu ++ rest.drop linkPayloadMtu = done ++ rest := by
      rw [append_assoc, take_append_drop]
    obtain ⟨r, hr, htook⟩ := receive_frame
      (frameFlags tx (done.length == 0) false) hrs hrx (le_of_eq htake)
      (by rw [hund.restart]; omega)
    have hmtu : 0 < linkPayloadMtu := by decide
    have hnext : Underway (assembly r.state) (tx + 1) (done ++ rest.take linkPayloadMtu) :=
      htook.added ▸ hund.add
    have hb' : Rests (b.advance linkPayloadMtu) (rest.drop linkPayloadMtu) := by
      have hrests : Rests b (rest.take linkPayloadMtu ++ rest.drop linkPayloadMtu) := by
        rw [take_append_drop]
        exact hb
      have hadv := hrests.advance
      rwa [htake] at hadv
    obtain ⟨sent, r', hsent, hnone, hr', hdel', hrdy'⟩ := ih hb'
      (by simp; omega) (by simp; omega) (by simp; omega) htook.ready hnext
    refine ⟨(sent.1, _ ++ sent.2), r.followed r', ?_, hnone, receive_append rs rx hr hr', ?_, hrdy'⟩
    · rw [henc, bind_some, hsent]
      rfl
    rw [Received.followed, htook.delivered, hdel', hund.completed, hspl]
    rfl

/-! ## Sequences of packets -/

/-- `radio_link_queue_packet`; `none` is the return value -1, or a failed assertion. -/
def radioLinkQueuePacket (tx : TxState) (buffer : Buffer) : Option TxState :=
  if tx.txPacket.isSome then none
  else (obFlip buffer).map fun b => { tx with txPacket := some b }

def filled (packet : List UInt8) : Buffer := { obStatic packet with position := packet.length }

theorem filled_flip (packet : List UInt8) (h : packet.length < 2 ^ 63) :
    ∃ b, obFlip (filled packet) = some b ∧ Rests b packet ∧ b.position = 0 := by
  have hmax : packet.length ≠ sizeMax := by
    rw [sizeMax]
    omega
  have hlim : Buffer.limit ⟨packet, .static, 0, 0, packet.length⟩ = packet.length := Nat.min_self _
  refine ⟨⟨packet, .static, 0, 0, packet.length⟩, ?_, ⟨⟨⟨h, Nat.zero_le _⟩, ?_⟩, le_rfl⟩, rfl⟩
  · rw [obFlip, obLimitsize, if_pos ⟨hmax, le_rfl, Nat.zero_le _, fun _ => le_rfl⟩]
    rfl
  rw [ahead, hlim, slice_start_zero]
  exact take_length

/-- Packets are queued one after the other, each when the one before has been sent. -/
def sendAll (rs : ReedSolomon) : TxState → List (List UInt8) → Option (TxState × List UInt8)
  | tx, [] => some (tx, [])
  | tx, packet :: packets =>
    (radioLinkQueuePacket tx (filled packet)).bind fun tx =>
      (encodeAll rs (packet.length + 2) tx).bind fun r =>
        (sendAll rs r.1 packets).map fun rest => (rest.1, r.2 ++ rest.2)

/-- Whatever packets are sent one after the other, to a receiver that holds no bytes, each is
delivered once, as it was, and in its order. -/
theorem packets_arrive (rs : ReedSolomon) (hrs : Faithful rs) (packets : List (List UInt8))
    (hlen : ∀ p ∈ packets, p.length ≤ mdpMtu) (tx : TxState) (htx : tx.txPacket = none) (rx : RxState)
    (hrx : Ready rx) :
    ∃ sent r, sendAll rs tx packets = some sent ∧ receive rs rx sent.2 = some r ∧ r.delivered = packets := by
  induction packets generalizing tx rx with
  | nil => exact ⟨(tx, []), ⟨rx, [], []⟩, rfl, rfl, rfl⟩
  | cons packet packets ih =>
    obtain ⟨hpac, hpk⟩ := forall_mem_cons.mp hlen
    rw [mdpMtu] at hpac
    obtain ⟨b, hflip, hb, hpos⟩ := filled_flip packet (by omega)
    have hfst : Underway (assembly rx) tx.txSeq [] := fun h => absurd rfl h
    have hst : b.position = ([] : List UInt8).length := hpos
    obtain ⟨sent, r, hsent, hnone, hr, hdel, hrdy⟩ := packet_arrives hrs hb hst
      (by rw [mdpMtu, length_nil]; omega) (Nat.lt_succ_self _) hrx hfst
    obtain ⟨sent', r', hsent', hr', hdel'⟩ := ih hpk sent.1 hnone r.state hrdy
    refine ⟨(sent'.1, sent.2 ++ sent'.2), r.followed r', ?_, receive_append rs rx hr hr', ?_⟩
    · rw [sendAll, radioLinkQueuePacket, htx, hflip, if_neg (by exact Bool.false_ne_true), map_some,
        bind_some, hsent, bind_some, hsent', map_some]
    rw [Received.followed, hdel, hdel']
    rfl

/-! ## The code of the radio -/

/-- The product with the primitive element of the field. -/
def double (x : UInt8) : UInt8 := if x < 128 then x <<< 1 else x <<< 1 ^^^ 0x87

/-- `CCSDS_poly` without its last number, from the end: the exponents of the coefficients. -/
def exponents : List Nat :=
  [249, 59, 66, 4, 43, 126, 251, 97, 30, 3, 213, 50, 66, 170, 5, 24,
    5, 170, 66, 50, 213, 3, 30, 97, 251, 126, 43, 4, 66, 59, 249, 0]

/-- A pass of the loop of `encode_rs_8`; the tables of powers and exponents do the products. -/
def shiftIn (parity : List UInt8) (byte : UInt8) : List UInt8 :=
  List.zipWith (fun p k => p ^^^ double^[k] (byte ^^^ parity.headD 0)) (parity.tail ++ [0]) exponents

def encodeRs8 (data : List UInt8) : List UInt8 := data.foldl shiftIn (List.replicate fecLength 0)

theorem encodeRs8_length (data : List UInt8) : (encodeRs8 data).length = fecLength := by
  induction data using List.reverseRecOn with
  | nil => exact length_replicate
  | append_singleton data byte ih =>
    rw [encodeRs8, foldl_append, ← encodeRs8, foldl_cons, foldl_nil, shiftIn, length_zipWith,
      length_append, length_tail, ih]
    rfl

/-- The encoder, and a decoder that finds no errors in what it wrote and corrects nothing else. -/
def ccsds : ReedSolomon where
  encode := encodeRs8
  decode block :=
    (if encodeRs8 (block.take (block.length - fecLength)) = block.drop (block.length - fecLength) then some 0
      else none, block)
  encode_length := encodeRs8_length
  decode_length _ := rfl
  errors_le block n hn := by
    split at hn
    · cases hn
      decide
    · cases hn

theorem ccsds_faithful : Faithful ccsds := by
  intro data _ _
  have hlen : (data ++ ccsds.encode data).length - fecLength = data.length := by
    rw [length_append, ccsds.encode_length, Nat.add_sub_cancel]
  show (ite _ _ _, _) = _
  rw [hlen, take_left, drop_left]
  exact congrArg (·, _) (if_pos rfl)

theorem start_ready : Ready .start := ⟨⟨length_replicate, Nat.zero_le _, slice_zero_length _⟩, rfl⟩

/-- A packet of two fragments and an empty one. -/
theorem packets_arrive_two : ∃ sent r,
    sendAll ccsds ⟨0, none⟩ [List.replicate 300 7, []] = some sent ∧
      receive ccsds .start sent.2 = some r ∧ r.delivered = [List.replicate 300 7, []] :=
  packets_arrive ccsds ccsds_faithful [List.replicate 300 7, []]
    (forall_mem_cons.mpr ⟨by rw [length_replicate, mdpMtu]; decide,
      forall_mem_singleton.mpr (Nat.zero_le _)⟩) ⟨0, none⟩ rfl .start start_ready

end RadioCodec
