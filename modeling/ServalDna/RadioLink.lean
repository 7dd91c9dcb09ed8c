import ServalDna.Golay
import ServalDna.OverlayBuffer

/-!
# Packets over a serial radio

The radio takes frames of at most 255 bytes. A packet is cut into fragments, and each is
sent in a frame with a Golay coded length, a sequence number with flags for the first and
the last fragment, and the check bytes of a Reed-Solomon code. The receiver is given one
byte at a time; it looks for a length that can be decoded, waits for the whole frame, and
puts the fragments together again.
-/
namespace RadioLink

open ListSlice OverlayBuffer Golay

def fecLength : Nat := 32
def radioHeaderLength : Nat := 6
def radioUsedHeaderLength : Nat := 4
def radioCrcLength : Nat := 2
def linkMtu : Nat := 255
def linkPayloadMtu : Nat := linkMtu - fecLength - radioHeaderLength - radioCrcLength
def mdpMtu : Nat := 1200

/-- `sizeof payload`, the size of the receive buffer. -/
def payloadSize : Nat := linkMtu * 3

def msgDatastream : UInt8 := 67

def msgRadio : UInt8 := 166

def radioSourceSystem : UInt8 := 51
def radioSourceComponent : UInt8 := 68

/-- A Reed-Solomon code. A block is the data with the check bytes behind it, and its length
tells the pad. `none` is the return value -1; the decoder may change the block. -/
structure ReedSolomon where
  encode : List UInt8 → List UInt8
  decode : List UInt8 → Option Nat × List UInt8
  encode_length : ∀ data, (encode data).length = fecLength
  decode_length : ∀ block, (decode block).2.length = block.length
  errors_le : ∀ block n, (decode block).1 = some n → n ≤ 16

/-! ## Sending -/

/-- The sending side of `struct radio_link_state`. -/
structure TxState where
  txSeq : Nat
  txPacket : Option Buffer

/-- Golay coded length of a frame with `len` bytes behind its header and before the CRC. -/
def lengthField (len : Nat) : List UInt8 := golayEncode (UInt8.ofNat len) (UInt8.ofNat len &&& 0xF) 0

def frameFlags (txSeq : Nat) (startP endP : Bool) : UInt8 :=
  UInt8.ofNat (txSeq % 64) ||| (if startP then 0x40 else 0) ||| (if endP then 0x80 else 0)

def frameBytes (rs : ReedSolomon) (flags : UInt8) (data : List UInt8) : List UInt8 :=
  let block := flags :: msgDatastream :: data
  0xfe :: lengthField (data.length + fecLength - radioCrcLength) ++ (block ++ rs.encode block)

/-- The frame that is put into `txbuffer`. `none` is a failed assertion. -/
def radioLinkEncodePacket (rs : ReedSolomon) (tx : TxState) : Option (TxState × List UInt8) :=
  match tx.txPacket with
  | none => some (tx, [])
  | some b =>
    match obRemaining b with
    | none => none
    | some remaining =>
      let startP := obPosition b == 0
      let endP := !(remaining > linkPayloadMtu)
      let got := obGetBytes b (if endP then remaining else linkPayloadMtu)
      got.value.map fun data =>
        ({ txSeq := tx.txSeq + 1, txPacket := if endP then none else some got.buffer },
          frameBytes rs (frameFlags tx.txSeq startP endP) data)

/-- Frames are made until the packet is sent, in at most `passes` calls. -/
def encodeAll (rs : ReedSolomon) : Nat → TxState → Option (TxState × List UInt8)
  | 0, _ => none
  | passes + 1, tx =>
    if tx.txPacket.isNone then some (tx, [])
    else
      (radioLinkEncodePacket rs tx).bind fun r =>
        (encodeAll rs passes r.1).map fun rest => (rest.1, r.2 ++ rest.2)

/-! ## Receiving -/

/-- The receiving side of `struct radio_link_state`. -/
structure RxState where
  payload : List UInt8
  payloadLength : Nat
  seq : UInt8
  payloadStart : Nat
  payloadOffset : Nat
  dst : List UInt8
  packetLength : Nat
  deriving DecidableEq

def RxState.start : RxState where
  payload := List.replicate payloadSize 0
  payloadLength := 0
  seq := 0
  payloadStart := 0
  payloadOffset := 0
  dst := List.replicate mdpMtu 0
  packetLength := 0

def RxState.byte (s : RxState) (i : Nat) : UInt8 := s.payload.getD (s.payloadStart + i) 0

/-- Differences of the types `unsigned` and `size_t`. -/
def sub32 (a b : Nat) : Nat := (a + (2 ^ 32 - b % 2 ^ 32)) % 2 ^ 32
def sub64 (a b : Nat) : Nat := (a + (2 ^ 64 - b % 2 ^ 64)) % 2 ^ 64

/-- A frame that has come to the assembly: its length, the length of the packet so far,
the number of bytes to copy, and whether they are copied. -/
structure Fragment where
  frame : Nat
  packetLength : Nat
  dataBytes : Nat
  copied : Bool
  deriving DecidableEq, Repr

/-- What `radio_link_parse` does; `delivered` is the packet given to `packetOkOverlay`. -/
structure Parsed where
  state : RxState
  accepted : Bool
  backtrack : Nat
  delivered : Option (List UInt8)
  fragment : Option Fragment

def RxState.restart (s : RxState) : Nat :=
  if s.byte 4 &&& 0x40 ≠ 0 then 0
  else if s.byte 4 &&& 0x3f ≠ (s.seq + 1) &&& 0x3f then mdpMtu + 1
  else s.packetLength

/-- The number of bytes of a fragment, from the length of its frame; for the Reed-Solomon
decoder it is two more. -/
def dataBytes (frame : Nat) : Nat := sub64 (sub64 frame (radioUsedHeaderLength + fecLength)) 2

/-- The part of `radio_link_parse` behind the Reed-Solomon decoder. -/
def assemble (s : RxState) (errors : Nat) : Parsed :=
  let count := dataBytes s.payloadLength
  let packetLength := s.restart
  let seq := s.byte 4 &&& 0x3f
  if (packetLength + count) % 2 ^ 64 > mdpMtu then
    ⟨{ s with seq := seq, packetLength := mdpMtu + 1 }, true, errors, none,
      some ⟨s.payloadLength, packetLength, count, false⟩⟩
  else
    let dst := overwrite s.dst packetLength (slice s.payload (s.payloadStart + radioHeaderLength) count)
    let total := (packetLength + count) % 2 ^ 64
    let last := s.byte 4 &&& 0x80 ≠ 0
    ⟨{ s with seq := seq, dst := dst, packetLength := if last then mdpMtu + 1 else total }, true, errors,
      if last then some (dst.take total) else none,
      some ⟨s.payloadLength, packetLength, count, true⟩⟩

def radioLinkParse (rs : ReedSolomon) (s : RxState) : Parsed :=
  if s.payloadLength = 17 then
    ⟨s, golayDecode (s.byte 14) (s.byte 15) (s.byte 16) = 0x555#32, 0, none, none⟩
  else
    let r := rs.decode (slice s.payload (s.payloadStart + 4) (s.payloadLength - 4))
    let s := { s with payload := overwrite s.payload (s.payloadStart + 4) r.2 }
    match r.1 with
    | none => ⟨s, false, 0, none, none⟩
    | some errors => assemble s errors

/-- `none` is the return value -1. -/
def decodeLength (s : RxState) : Option Nat :=
  let gd := golayDecode (s.byte 1) (s.byte 2) (s.byte 3)
  if gd >>> 8 &&& 0xF#32 ≠ gd &&& 0xF#32 then none
  else
    let length := (gd &&& 0xFF#32).toNat + radioHeaderLength + radioCrcLength
    if length ≠ 17 ∧ (length ≤ fecLength ∨ length > linkMtu) then none else some length

/-- The header of a status message of the local firmware. What it tells is not modelled. -/
def parseHeartbeat (s : RxState) : Bool :=
  s.byte 0 == 0xFE && s.byte 1 == 9 && s.byte 3 == radioSourceSystem &&
    s.byte 4 == radioSourceComponent && s.byte 5 == msgRadio

def RxState.skip (s : RxState) : RxState :=
  { s with payloadStart := s.payloadStart + 1, payloadOffset := sub32 s.payloadOffset 1 }

/-- The loop that looks for a header; each pass takes one byte away. -/
def lookForHeader : Nat → RxState → RxState
  | 0, s => s
  | passes + 1, s =>
    if s.payloadLength = 0 ∧ s.payloadOffset ≥ 6 then
      if parseHeartbeat s then { s with payloadLength := 17 }
      else
        match decodeLength s with
        | some length => { s with payloadLength := length }
        | none => lookForHeader passes s.skip
    else s

/-- A status message is cut out of the buffer, and the search begins anew. -/
def RxState.cut (s : RxState) : RxState :=
  let offset := sub32 s.payloadOffset s.payloadLength
  { s with
    payload := overwrite s.payload s.payloadStart
      (slice s.payload (s.payloadStart + s.payloadLength) offset)
    payloadOffset := offset + s.payloadStart
    payloadStart := 0
    payloadLength := 0 }

/-- A frame and all before it is thrown away, but for the last `backtrack` bytes. -/
def RxState.consume (s : RxState) (backtrack : Nat) : RxState :=
  let offset := sub32 s.payloadOffset (s.payloadLength - backtrack)
  { s with
    payload := overwrite s.payload 0
      (slice s.payload (s.payloadStart + (s.payloadLength - backtrack)) offset)
    payloadOffset := offset
    payloadStart := 0
    payloadLength := 0 }

/-- The state after a byte, the packets that were delivered and the fragments. -/
structure Received where
  state : RxState
  delivered : List (List UInt8)
  fragments : List Fragment
  deriving DecidableEq

def Received.after (p : Parsed) (r : Received) : Received :=
  ⟨r.state, p.delivered.toList ++ r.delivered, p.fragment.toList ++ r.fragments⟩

@[simp] theorem Received.after_state (p : Parsed) (r : Received) : (r.after p).state = r.state := rfl

def Parsed.next (p : Parsed) : RxState :=
  if p.accepted then p.state.consume p.backtrack else { p.state.skip with payloadLength := 0 }

/-- The outer loop of `radio_link_decode`, with at most `passes` passes. -/
def parseLoop (rs : ReedSolomon) : Nat → RxState → Option Received
  | 0, _ => none
  | passes + 1, s =>
    let s := lookForHeader s.payloadOffset s
    if s.payloadLength = 0 ∨ s.payloadOffset < s.payloadLength then some ⟨s, [], []⟩
    else if parseHeartbeat s then parseLoop rs passes s.cut
    else
      let p := radioLinkParse rs s
      (parseLoop rs passes p.next).map (·.after p)

def RxState.makeRoom (s : RxState) : RxState :=
  if s.payloadStart + s.payloadOffset ≥ payloadSize then
    { s with
      payload := s.payload.drop 1 ++ s.payload.drop (payloadSize - 1)
      payloadStart := sub32 s.payloadStart 1 }
  else s

def RxState.push (s : RxState) (c : UInt8) : RxState :=
  let s := s.makeRoom
  { s with
    payload := s.payload.set (s.payloadStart + s.payloadOffset) c
    payloadOffset := s.payloadOffset + 1 }

/-- Becomes less with each pass: the bytes that are held, and those behind the start. -/
def RxState.measure (s : RxState) : Nat :=
  (payloadSize + 1) * (s.payloadStart + s.payloadOffset) + s.payloadOffset

def radioLinkDecode (rs : ReedSolomon) (s : RxState) (c : UInt8) : Option Received :=
  parseLoop rs ((s.push c).measure + 1) (s.push c)

def Received.followed (r rest : Received) : Received :=
  ⟨rest.state, r.delivered ++ rest.delivered, r.fragments ++ rest.fragments⟩

def receive (rs : ReedSolomon) : RxState → List UInt8 → Option Received
  | s, [] => some ⟨s, [], []⟩
  | s, c :: stream =>
    (radioLinkDecode rs s c).bind fun r => (receive rs r.state stream).map r.followed

end RadioLink
