import ServalDna.ByteFlags
import ServalDna.OverlayBuffer
import ServalDna.SubscriberTrie

/-!
# Overlay packets

A packet has an envelope header that names its sender, and a number of payloads,
each with a header of its own. The addresses in the headers are compressed: a code
of one byte stands for the sender of the packet, for the address that was coded
just before, or for one of the two ends of a point to point link; all other
addresses are abbreviated to the first bytes of the subscriber id. Sender and
receiver each keep a context of what the codes stand for.
-/
namespace OverlayPacket

open ByteFlags OverlayBuffer
open SubscriberTrie (Sid sidSize)

def codeSelf : UInt8 := 0xff
def codePrevious : UInt8 := 0xfe
def codeP2pYou : UInt8 := 0xfd
def codeP2pMe : UInt8 := 0xfc

def packetUnicast : UInt8 := 1
def packetInterface : UInt8 := 2
def packetSeq : UInt8 := 4

def flagSenderSame : UInt8 := 1
def flagToBroadcast : UInt8 := 2
def flagOneHop : UInt8 := 4
def flagCiphered : UInt8 := 16
def flagSigned : UInt8 := 32
def flagAckSoon : UInt8 := 64
def flagLegacyType : UInt8 := 128

def ttlMax : UInt8 := 31

def typeData : Nat := 0x30

def supportedVersion : UInt8 := 1

def broadcastLen : Nat := 8

inductive Encapsulation where
  | overlay | single
  deriving DecidableEq, Repr

def Encapsulation.code : Encapsulation → UInt8
  | .overlay => 1
  | .single => 2

def Encapsulation.ofCode (code : UInt8) : Option Encapsulation :=
  if code = 1 then some .overlay else if code = 2 then some .single else none

/-- The settings and the state of an `overlay_interface` that the headers depend on. -/
structure Interface where
  pointToPoint : Bool
  otherDevice : Option Sid
  localEcho : Bool
  deriving DecidableEq

/-- `struct decode_context`; its flags are two truth values here. -/
structure Context where
  sender : Option Sid
  previous : Option Sid
  pointToPointDevice : Option Sid
  encodingHeader : Bool
  invalidAddress : Bool
  packetVersion : UInt8
  encapsulation : Encapsulation
  deriving DecidableEq

def Context.start : Context := ⟨none, none, none, false, false, 0, .overlay⟩

/-- `struct broadcast`. -/
structure Broadcast where
  id : List UInt8
  length_eq : id.length = broadcastLen
  deriving DecidableEq

def Broadcast.zero : Broadcast := ⟨List.replicate broadcastLen 0, by decide⟩

/-- `struct overlay_frame`, as far as the headers use it. `payload` is what the
payload's buffer holds, and of the modifiers only the lowest byte counts. -/
structure Frame where
  type : Nat
  modifiers : UInt8
  ttl : UInt8
  queue : UInt8
  mdpSequence : Int
  source : Option Sid
  destination : Option Sid
  broadcastId : Broadcast
  packetVersion : UInt8
  payload : List UInt8
  deriving DecidableEq

def Frame.zero : Frame := ⟨0, 0, 0, 0, 0, none, none, .zero, 0, []⟩

/-! ## Sending -/

/-- A node that sends: its own id, and the length in nibbles at which it tells each
subscriber from all others it knows. -/
structure Sender where
  mySubscriber : Sid
  abbreviateLen : Sid → Nat
  interface : Interface

/-- The context of a packet, and the subscribers whose next address is sent in full. -/
structure Encoder where
  context : Context
  sendFull : Sid → Bool

/-- How an address is written. -/
inductive Code where
  | p2pYou
  | p2pMe
  | self
  | previous
  | abbreviation (id : List UInt8)
  deriving DecidableEq, Repr

def abbreviationLen (sender : Sender) (e : Encoder) (subscriber : Sid) : Nat :=
  if e.sendFull subscriber then sidSize
  else
    let len := (sender.abbreviateLen subscriber + 2) / 2
    let len := if e.context.encodingHeader then len + 1 else len
    if len > sidSize then sidSize else len

/-- The choice of `overlay_address_append`. -/
def addressCode (sender : Sender) (e : Encoder) (subscriber : Sid) : Code :=
  if e.context.pointToPointDevice = some subscriber then .p2pYou
  else if e.sendFull subscriber = false ∧ subscriber = sender.mySubscriber ∧
      e.context.pointToPointDevice.isSome ∧
      (e.context.encodingHeader = false ∨ sender.interface.localEcho = false) then .p2pMe
  else if e.context.sender = some subscriber then .self
  else if e.context.previous = some subscriber then .previous
  else .abbreviation (subscriber.bytes.take (abbreviationLen sender e subscriber))

def Encoder.after (e : Encoder) (subscriber : Sid) (code : Code) : Encoder where
  context := { e.context with previous := some subscriber }
  sendFull := match code with
    | .abbreviation _ => Function.update e.sendFull subscriber false
    | _ => e.sendFull

/-- `none` is a failed assertion. -/
def overlayAddressAppend (sender : Sender) (e : Encoder) (b : Buffer) (subscriber : Sid) :
    Option (Encoder × Buffer) := do
  let code := addressCode sender e subscriber
  let b ← match code with
    | .p2pYou => obAppendByte b codeP2pYou
    | .p2pMe => obAppendByte b codeP2pMe
    | .self => obAppendByte b codeSelf
    | .previous => obAppendByte b codePrevious
    | .abbreviation id => (obAppendByte b (UInt8.ofNat id.length)).bind fun b => obAppendBytes b id
  some (e.after subscriber code, b)

def appendByteIf (cond : Bool) (b : Buffer) (byte : UInt8) : Option Buffer :=
  if cond then obAppendByte b byte else some b

def Encoder.begin (e : Encoder) (sender : Sender) (packetVersion : UInt8) : Encoder :=
  let device :=
    if sender.interface.pointToPoint ∧ sender.interface.otherDevice.isSome ∧ packetVersion ≥ 1 then
      sender.interface.otherDevice
    else e.context.pointToPointDevice
  { e with context := { e.context with
    pointToPointDevice := device, encodingHeader := true, invalidAddress := false } }

def Encoder.named (e : Encoder) (sender : Sender) : Encoder :=
  { e with context := { e.context with
    encodingHeader := false, invalidAddress := false, sender := some sender.mySubscriber } }

def envelopeFlags (unicast : Bool) (interface : UInt8) (seq : Option UInt8) : UInt8 :=
  flagIf unicast packetUnicast ||| flagIf (interface != 0) packetInterface |||
    flagIf seq.isSome packetSeq

/-- `none` is a version that is not supported, or a failed assertion. -/
def overlayPacketInitHeader (sender : Sender) (packetVersion : UInt8) (encapsulation : Encapsulation)
    (e : Encoder) (b : Buffer) (unicast : Bool) (interface : UInt8) (seq : Option UInt8) :
    Option (Encoder × Buffer) :=
  if packetVersion > supportedVersion then none
  else do
    let b ← obAppendByte b packetVersion
    let b ← obAppendByte b encapsulation.code
    let r ← overlayAddressAppend sender (e.begin sender packetVersion) b sender.mySubscriber
    let flags := envelopeFlags unicast interface seq
    let b ← obAppendByte r.2 flags
    let b ← appendByteIf (hasFlag flags packetInterface) b interface
    let b ← appendByteIf (hasFlag flags packetSeq) b (seq.getD 0)
    some (r.1.named sender, b)

def payloadFlags (e : Encoder) (f : Frame) (broadcast : Option Broadcast) (nextHop : Option Sid)
    (willRetransmit : Bool) : UInt8 :=
  (f.modifiers &&& (flagCiphered ||| flagSigned)) ||| flagIf willRetransmit flagAckSoon |||
    flagIf ((f.ttl == 1 && broadcast.isNone) || (f.destination.isSome && f.destination == nextHop))
      flagOneHop |||
    flagIf (f.source == e.context.sender) flagSenderSame |||
    flagIf f.destination.isNone flagToBroadcast ||| flagIf (f.type != typeData) flagLegacyType

def appendKnown (sender : Sender) (e : Encoder) (b : Buffer) (subscriber : Option Sid) :
    Option (Encoder × Buffer) :=
  subscriber.bind (overlayAddressAppend sender e b)

def appendSource (sender : Sender) (e : Encoder) (b : Buffer) (f : Frame) (flags : UInt8) :
    Option (Encoder × Buffer) :=
  if hasFlag flags flagSenderSame then some (e, b) else appendKnown sender e b f.source

def appendTarget (sender : Sender) (e : Encoder) (b : Buffer) (f : Frame)
    (broadcast : Option Broadcast) (nextHop : Option Sid) (flags : UInt8) :
    Option (Encoder × Buffer) :=
  if hasFlag flags flagToBroadcast then
    if hasFlag flags flagOneHop then some (e, b)
    else broadcast.bind fun broadcast => (obAppendBytes b broadcast.id).map (e, ·)
  else
    (appendKnown sender e b f.destination).bind fun r =>
      if hasFlag flags flagOneHop then some r else appendKnown sender r.1 r.2 nextHop

/-- The truth value is false for the return value -1. `none` is a failed assertion or a
null pointer that is followed. -/
def overlayFrameBuildHeader (sender : Sender) (e : Encoder) (b : Buffer) (f : Frame)
    (broadcast : Option Broadcast) (nextHop : Option Sid) (willRetransmit : Bool) :
    Option (Bool × Encoder × Buffer) :=
  if f.ttl > ttlMax then some (false, e, b)
  else do
    let flags := payloadFlags e f broadcast nextHop willRetransmit
    let b ← obAppendByte b flags
    let r ← appendSource sender e b f flags
    let r ← appendTarget sender r.1 r.2 f broadcast nextHop flags
    let b ← appendByteIf (!hasFlag flags flagOneHop) r.2 (f.ttl ||| ((f.queue &&& 3) <<< 5))
    let b ← appendByteIf (hasFlag flags flagLegacyType) b (UInt8.ofNat f.type)
    let b ← appendByteIf (f.packetVersion ≥ 1) b (UInt8.ofNat (f.mdpSequence % 256).toNat)
    some (true, r.1, b)

/-- The broadcast address of a frame, unless it is all zero or there is a destination. -/
def frameBroadcast (f : Frame) : Option Broadcast :=
  if f.destination.isNone ∧ f.broadcastId ≠ .zero then some f.broadcastId else none

def appendLength (encapsulation : Encapsulation) (b : Buffer) (payload : List UInt8) : Option Buffer :=
  if encapsulation = .overlay then obAppendUi16 b (UInt16.ofNat payload.length) else some b

def appendPayloadBytes (encapsulation : Encapsulation) (b : Buffer) (payload : List UInt8) :
    Option Buffer :=
  (appendLength encapsulation b payload).bind fun b =>
    if payload = [] then some b else obAppendBytes b payload

/-- The truth value is false for the return value -1: the frame is not in the buffer. -/
def overlayFrameAppendPayload (sender : Sender) (encapsulation : Encapsulation) (e : Encoder)
    (b : Buffer) (f : Frame) (nextHop : Option Sid) (willRetransmit : Bool) :
    Option (Bool × Encoder × Buffer) :=
  match overlayFrameBuildHeader sender e (obCheckpoint b) f (frameBroadcast f) nextHop
      willRetransmit with
  | none => none
  | some (false, e, b) => some (false, e, obRewind b)
  | some (true, e, b) =>
    (appendPayloadBytes encapsulation b f.payload).map fun b =>
      if obOverrun b then (false, e, obRewind b) else (true, e, b)

/-! ## Receiving -/

/-- A node that receives. Its other state changes while a packet is parsed, so `find`
is given the number of the lookup, and the checks for duplicates are given the
number of the payload. `isSelf` are the subscribers with `REACHABLE_SELF`. -/
structure Node where
  mySubscriber : Sid
  isSelf : Sid → Bool
  interface : Interface
  find : Nat → List UInt8 → Option Sid
  duplicatePacket : Bool
  dropBroadcast : Nat → Broadcast → Bool
  forwardBroadcast : Nat → Bool
  duplicatePayload : Nat → UInt8 → Bool

/-- The context of a packet, and the number of lookups made so far. -/
structure Decoder where
  context : Context
  lookups : Nat

/-- The pointer and the decoder after an address: a known one is remembered, and one
that is not known makes the payload invalid. -/
def Decoder.settle (d : Decoder) (subscriber answer : Option Sid) : Option Sid × Decoder :=
  match answer with
  | some s => (some s, { d with context := { d.context with previous := some s } })
  | none => (subscriber, { d with context := { d.context with invalidAddress := true } })

/-- `find_subscr_buffer`. `none` is the return value -1. -/
def findSubscrBuffer (node : Node) (d : Decoder) (b : Buffer) (len : Nat) :
    Option (Option Sid × Decoder × Buffer) :=
  if len = 0 ∨ len > sidSize then none
  else
    match (obGetBytesPtr b len).value with
    | none => none
    | some id =>
      let r := { d with lookups := d.lookups + 1 }.settle none (node.find d.lookups id)
      some (r.1, r.2, (obGetBytesPtr b len).buffer)

/-- `none` is the return value -1; `subscriber` is what the pointer held before. -/
def overlayAddressParse (node : Node) (d : Decoder) (b : Buffer) (subscriber : Option Sid) :
    Option (Option Sid × Decoder × Buffer) :=
  match (obGet b).value with
  | none => none
  | some len =>
    let b := (obGet b).buffer
    if len = codeP2pYou then
      let r := d.settle subscriber (d.context.pointToPointDevice.map fun _ => node.mySubscriber)
      some (r.1, r.2, b)
    else if len = codeP2pMe then
      let r := d.settle subscriber d.context.pointToPointDevice
      some (r.1, r.2, b)
    else if len = codeSelf then
      let r := d.settle subscriber d.context.sender
      some (r.1, r.2, b)
    else if len = codePrevious then
      let r := d.settle subscriber d.context.previous
      some (r.1, r.2, b)
    else findSubscrBuffer node d b len.toNat

/-- What `parseMdpPacketHeader` has found so far. -/
structure Parse where
  decoder : Decoder
  buffer : Buffer
  frame : Frame
  nextHop : Option Sid
  process : Bool
  forward : Bool
  sequence : Option UInt8

def parseSource (node : Node) (flags : UInt8) (p : Parse) : Option Parse :=
  if hasFlag flags flagSenderSame then
    let context := p.decoder.context
    some { p with
      decoder := { p.decoder with context := { context with
        invalidAddress := context.invalidAddress || context.sender.isNone } }
      frame := { p.frame with source := context.sender } }
  else
    match overlayAddressParse node p.decoder p.buffer p.frame.source with
    | none => none
    | some (source, d, b) =>
      let ignored := match source with
        | none => true
        | some s => node.isSelf s
      some { p with
        decoder := d, buffer := b, frame := { p.frame with source := source }
        process := p.process && !ignored, forward := p.forward && !ignored }

def parseBroadcast (node : Node) (i : Nat) (flags : UInt8) (p : Parse) : Option Parse :=
  if hasFlag flags flagOneHop then
    some { p with frame := { p.frame with destination := none } }
  else
    let got := obGetBytes p.buffer broadcastLen
    match got.value with
    | none => none
    | some id =>
      if h : id.length = broadcastLen then
        let drop := node.dropBroadcast i ⟨id, h⟩
        some { p with
          buffer := got.buffer
          frame := { p.frame with broadcastId := ⟨id, h⟩, destination := none }
          process := p.process && !drop
          forward := p.forward && !drop && node.forwardBroadcast i }
      else none

def Node.isMine (node : Node) (subscriber : Option Sid) : Bool :=
  match subscriber with
  | none => false
  | some s => node.isSelf s

def parseNextHop (node : Node) (flags : UInt8) (p : Parse) : Option Parse :=
  if hasFlag flags flagOneHop then some p
  else
    match overlayAddressParse node p.decoder p.buffer p.nextHop with
    | none => none
    | some (nextHop, d, b) => some { p with
        decoder := d, buffer := b, nextHop := nextHop, forward := p.forward && node.isMine nextHop }

def parseDestination (node : Node) (flags : UInt8) (p : Parse) : Option Parse :=
  match overlayAddressParse node p.decoder p.buffer p.frame.destination with
  | none => none
  | some (destination, d, b) => parseNextHop node flags { p with
      decoder := d, buffer := b, frame := { p.frame with destination := destination }
      process := p.process && node.isMine destination }

def parseTarget (node : Node) (i : Nat) (flags : UInt8) (p : Parse) : Option Parse :=
  if hasFlag flags flagToBroadcast then parseBroadcast node i flags p
  else parseDestination node flags p

def parseTtl (flags : UInt8) (p : Parse) : Option Parse :=
  let limited (p : Parse) : Parse :=
    let ttl := if p.frame.ttl ≠ 0 then p.frame.ttl - 1 else 0
    { p with frame := { p.frame with ttl := ttl }, forward := p.forward && ttl != 0 }
  if hasFlag flags flagOneHop then some (limited { p with frame := { p.frame with ttl := 1 } })
  else
    match (obGet p.buffer).value with
    | none => none
    | some ttlQos => some (limited { p with
        buffer := (obGet p.buffer).buffer
        frame := { p.frame with ttl := ttlQos &&& 0x1F, queue := (ttlQos >>> 5) &&& 3 } })

def parseType (flags : UInt8) (p : Parse) : Option Parse :=
  if hasFlag flags flagLegacyType then
    match (obGet p.buffer).value with
    | none => none
    | some ftype => some { p with
        buffer := (obGet p.buffer).buffer, frame := { p.frame with type := ftype.toNat } }
  else some { p with frame := { p.frame with type := typeData } }

def parseSequence (node : Node) (i : Nat) (p : Parse) : Option Parse :=
  if p.decoder.context.packetVersion ≥ 1 then
    match (obGet p.buffer).value with
    | none => none
    | some seq =>
      let duplicate := node.duplicatePayload i seq
      some { p with
        buffer := (obGet p.buffer).buffer, sequence := some seq
        process := p.process && !duplicate, forward := p.forward && !duplicate }
  else some p

/-- The end of `parseMdpPacketHeader`: a payload with an invalid address is skipped. -/
def parseEnd (flags : UInt8) (p : Parse) : Parse :=
  let context := p.decoder.context
  { p with
    frame := { p.frame with modifiers := flags, packetVersion := context.packetVersion }
    process := p.process && !context.invalidAddress
    forward := p.forward && !context.invalidAddress }

/-- `i` is the number of the payload in the packet. `none` is the return value -1. -/
def parseMdpPacketHeader (node : Node) (i : Nat) (d : Decoder) (frame : Frame) (b : Buffer) :
    Option Parse := do
  let flags ← (obGet b).value
  let p ← parseSource node flags ⟨d, (obGet b).buffer, frame, none, true, true, none⟩
  let p ← parseTarget node i flags p
  let p ← parseTtl flags p
  let p ← parseType flags p
  let p ← parseSequence node i p
  some (parseEnd flags p)

def envelopeDecoder (node : Node) (version : UInt8) (encapsulation : Encapsulation) : Decoder where
  context := { Context.start with
    pointToPointDevice :=
      if node.interface.pointToPoint ∧ node.interface.otherDevice.isSome then node.interface.otherDevice
      else none
    packetVersion := version
    encapsulation := encapsulation }
  lookups := 0

def skipEnvelopeFields (b : Buffer) : Buffer :=
  let flags := (obGet b).value
  let b := (obGet b).buffer
  let b := if flags.all (hasFlag · packetInterface) then (obGet b).buffer else b
  if flags.all (hasFlag · packetSeq) then (obGet b).buffer else b

/-- The decoder for the payloads, unless the packet is one of our own or a duplicate. -/
def envelopeSender (node : Node) (sender : Option Sid) (d : Decoder) : Option Decoder :=
  let d := { d with context := { d.context with sender := sender } }
  match sender with
  | none => some d
  | some s =>
    if node.isSelf s ∨ node.duplicatePacket then none
    else if node.interface.pointToPoint ∧ node.interface.otherDevice ≠ some s then
      some { d with context := { d.context with pointToPointDevice := some s } }
    else some d

/-- `none` is a packet that is not looked at any further. -/
def parseEnvelopeHeader (node : Node) (b : Buffer) : Option (Decoder × Buffer) := do
  let version ← (obGet b).value
  let b := (obGet b).buffer
  if version > supportedVersion then none else
  let code ← (obGet b).value
  let b := (obGet b).buffer
  let encapsulation ← Encapsulation.ofCode code
  let r ← overlayAddressParse node (envelopeDecoder node version encapsulation) b none
  (envelopeSender node r.1 r.2.1).map (·, skipEnvelopeFields r.2.2)

/-- A payload as `packetOkOverlay` sees it: what its header says, whether it is
processed and forwarded, the sequence number that was checked, and its length. The
bytes of the payload are in the frame when it is processed or forwarded. -/
structure Received where
  frame : Frame
  nextHop : Option Sid
  process : Bool
  forward : Bool
  sequence : Option UInt8
  payloadLen : Nat
  deriving DecidableEq

/-- `header_valid != 0`. -/
def Received.accepted (r : Received) : Bool := r.process || r.forward

/-- The length of a payload and the buffer at its start; `none` ends the packet. -/
def payloadStart (encapsulation : Encapsulation) (b : Buffer) : Option (Nat × Buffer) :=
  match encapsulation with
  | .single => (obRemaining b).map (·, b)
  | .overlay =>
    let got := obGetUi16 b
    (obRemaining got.buffer).bind fun remaining =>
      if got.value.toNat > remaining then none else some (got.value.toNat, got.buffer)

/-- The loop of `packetOkOverlay` with at most `passes` passes left. Every pass takes
the flags of a payload or ends the loop. -/
def payloadLoop (node : Node) : Nat → Nat → Decoder → Frame → Buffer → List Received
  | 0, _, _, _, _ => []
  | passes + 1, i, d, f, b =>
    if obRemaining b = none ∨ obRemaining b = some 0 then []
    else
      let d := { d with context := { d.context with encodingHeader := false, invalidAddress := false } }
      match parseMdpPacketHeader node i d { f with broadcastId := .zero } b with
      | none => []
      | some p =>
        match payloadStart p.decoder.context.encapsulation p.buffer with
        | none => []
        | some (len, b) =>
          let rest := payloadLoop node passes (i + 1) p.decoder p.frame (b.advance len)
          if p.process || p.forward then
            match obSlice b b.position len with
            | none => []
            | some payload =>
              ⟨{ p.frame with payload := payload.bytes }, p.nextHop, p.process, p.forward,
                p.sequence, len⟩ :: rest
          else ⟨p.frame, p.nextHop, p.process, p.forward, p.sequence, len⟩ :: rest

/-- All payloads of a packet, in the order in which they are parsed. -/
def packetOkOverlay (node : Node) (packet : List UInt8) : List Received :=
  match (obLimitsize (obStatic packet) packet.length).bind (parseEnvelopeHeader node) with
  | none => []
  | some (d, b) => payloadLoop node packet.length 0 d .zero b

end OverlayPacket
