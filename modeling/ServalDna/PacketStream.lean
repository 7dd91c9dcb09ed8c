import ServalDna.BufferCodec
import ServalDna.PacketFormat

/-!
# Packets of many payloads

A packet as it is built: the envelope header, and then one call after the other
that appends a payload or leaves it out. The receiver takes the bytes of the packet
payload by payload. Every payload that was appended is seen by the receiver under a
header that `HeaderParsed` describes.
-/
namespace PacketStream

open ByteFlags OverlayBuffer BufferReads BufferWrites OverlayPacket PacketFormat
open SubscriberTrie (Sid sidSize)
open List hiding take
open Option hiding sequence

/-! ## Building a packet -/

/-- The arguments of all calls that build one packet. A frame is appended to a packet of
its own version only, and the size limit is an `int32_t`. -/
structure Packet where
  packetVersion : UInt8
  encapsulation : Encapsulation
  unicast : Bool
  interface : UInt8
  seq : Option UInt8
  mtu : Nat
  outgoing : List Outgoing
  mtu_lt : mtu < 2 ^ 31
  version_eq : ∀ o ∈ outgoing, o.frame.packetVersion = packetVersion

/-- A payload that is in the packet, and the encoder it was written with. -/
structure Placed where
  outgoing : Outgoing
  encoder : Encoder

def Packet.start (p : Packet) (sender : Sender) (sendFull : Sid → Bool) : Option (Encoder × Buffer) :=
  (obLimitsize obNew p.mtu).bind fun b =>
    overlayPacketInitHeader sender p.packetVersion p.encapsulation
      ⟨{ Context.start with packetVersion := p.packetVersion }, sendFull⟩ b p.unicast p.interface p.seq

/-- The payloads that calls of `overlay_frame_append_payload` have placed, and the buffer
after them. -/
def appendAll (sender : Sender) (encapsulation : Encapsulation) :
    Encoder → Buffer → List Outgoing → Option (List Placed × Buffer)
  | _, b, [] => some ([], b)
  | e, b, o :: rest => do
    let r ← overlayFrameAppendPayload sender encapsulation e b o.frame o.nextHop o.willRetransmit
    let t ← appendAll sender encapsulation r.2.1 r.2.2 rest
    some (if r.1 then ⟨o, e⟩ :: t.1 else t.1, t.2)

/-- The bytes of a packet and the payloads in it. -/
structure Transmission where
  placed : List Placed
  bytes : List UInt8

/-- `none` is a failed assertion, or an envelope header that is already too long. -/
def Packet.transmit (p : Packet) (sender : Sender) (sendFull : Sid → Bool) : Option Transmission :=
  (p.start sender sendFull).bind fun r =>
    if obOverrun r.2 then none
    else (appendAll sender p.encapsulation r.1 r.2 p.outgoing).map fun t => ⟨t.1, content t.2⟩

def Placed.wire (p : Placed) (sender : Sender) (encapsulation : Encapsulation) : List UInt8 :=
  p.outgoing.wire sender encapsulation p.encoder

def Placed.addresses (p : Placed) (sender : Sender) : List Address :=
  p.outgoing.addresses sender p.encoder

def wires (sender : Sender) (encapsulation : Encapsulation) (placed : List Placed) : List UInt8 :=
  placed.flatMap (·.wire sender encapsulation)

def Packet.opening (p : Packet) (sender : Sender) (sendFull : Sid → Bool) : Encoder :=
  Encoder.begin ⟨{ Context.start with packetVersion := p.packetVersion }, sendFull⟩ sender p.packetVersion

def Packet.senderCode (p : Packet) (sender : Sender) (sendFull : Sid → Bool) : Code :=
  addressCode sender (p.opening sender sendFull) sender.mySubscriber

def Packet.envelope (p : Packet) (sender : Sender) (sendFull : Sid → Bool) : List UInt8 :=
  [p.packetVersion] ++ [p.encapsulation.code] ++ codeBytes (p.senderCode sender sendFull) ++
    [envelopeFlags p.unicast p.interface p.seq] ++ (if p.interface != 0 then [p.interface] else []) ++
    (if p.seq.isSome then [p.seq.getD 0] else [])

def Packet.encoder (p : Packet) (sender : Sender) (sendFull : Sid → Bool) : Encoder :=
  ((p.opening sender sendFull).after sender.mySubscriber (p.senderCode sender sendFull)).named sender

/-- The other end of a point to point link, if the sender has codes for the two ends. -/
def linkEnd (sender : Sender) (packetVersion : UInt8) : Option Sid :=
  if sender.interface.pointToPoint ∧ sender.interface.otherDevice.isSome ∧ packetVersion ≥ 1 then
    sender.interface.otherDevice
  else none

/-- What an encoder has of the packet's header. -/
structure Opened (sender : Sender) (version : UInt8) (e : Encoder) : Prop where
  named : e.context.sender = some sender.mySubscriber
  device : e.context.pointToPointDevice = linkEnd sender version

/-- A payload that could be written after the envelope header. -/
structure Placed.Written (sender : Sender) (version : UInt8) (p : Placed) : Prop where
  complete : p.outgoing.Complete p.encoder
  opened : Opened sender version p.encoder
  version_eq : p.outgoing.frame.packetVersion = version
  ttl : p.outgoing.frame.ttl ≤ ttlMax

theorem envelopeFlags_interface (unicast : Bool) :
    hasFlag (envelopeFlags unicast ifc seq) packetInterface = (ifc != 0) := by
  simp only [envelopeFlags, hasFlag_or, hasFlag_flagIf]
  generalize (ifc != 0) = i, seq.isSome = s
  revert unicast i s
  decide

theorem envelopeFlags_seq (unicast : Bool) :
    hasFlag (envelopeFlags unicast ifc seq) packetSeq = seq.isSome := by
  simp only [envelopeFlags, hasFlag_or, hasFlag_flagIf]
  generalize (ifc != 0) = i, seq.isSome = s
  revert unicast i s
  decide

def fresh (mtu : Nat) : Buffer := { obNew with sizeLimit := mtu }

theorem ne_sizeMax (h : n < 2 ^ 31) : n ≠ sizeMax := by
  simp only [sizeMax]
  omega

theorem limitsize_new (mtu : Nat) (h : mtu < 2 ^ 31) : obLimitsize obNew mtu = some (fresh mtu) := by
  rw [obLimitsize, if_pos ⟨ne_sizeMax h, Nat.zero_le _, Nat.zero_le _, fun hmem => (by cases hmem)⟩]
  rfl

theorem first_byte (hmtu : mtu ≠ 0) (h : obAppendByte (fresh mtu) x = some b) :
    Appended (fresh mtu) [x] b ∧ Writable b := by
  have hown : Own (fresh mtu) := ⟨.inr ⟨rfl, rfl, rfl⟩, fun _ => le_rfl⟩
  have hpos : ([x] : List UInt8).length ≤ (fresh mtu).sizeLimit := Nat.pos_of_ne_zero hmtu
  obtain ⟨c, hc, happ⟩ := append_own hown [x] (fun _ => hpos)
  have hbyte : obAppendByte (fresh mtu) x = some c := hc
  rw [hbyte] at h
  cases h
  refine ⟨happ, happ.own, ?_⟩
  rcases happ.own.memory with hmem | ⟨-, hzero, -⟩
  · exact hmem
  have hposi := happ.position
  rw [hzero] at hposi
  cases hposi

variable {p : Packet}

theorem header_inv (h : overlayPacketInitHeader sender p.packetVersion p.encapsulation
      ⟨{ Context.start with packetVersion := p.packetVersion }, full⟩ (fresh p.mtu) p.unicast
      p.interface p.seq = some (e, b)) :
    p.packetVersion ≤ supportedVersion ∧ e = p.encoder sender full ∧ Writable b ∧
      Appended (fresh p.mtu) (p.envelope sender full) b := by
  rw [overlayPacketInitHeader] at h
  split at h
  · cases h
  next hver =>
  -- with a limit of 0 the second byte finds no memory
  have hmtu : p.mtu ≠ 0 := by
    intro hzero
    rw [hzero] at h
    cases h
  obtain ⟨b1, h1, h⟩ := bind_eq_some_iff.mp h
  obtain ⟨b2, h2, h⟩ := bind_eq_some_iff.mp h
  obtain ⟨⟨e3, b3⟩, h3, h⟩ := bind_eq_some_iff.mp h
  obtain ⟨b4, h4, h⟩ := bind_eq_some_iff.mp h
  obtain ⟨b5, h5, h⟩ := bind_eq_some_iff.mp h
  obtain ⟨b6, h6, ⟨⟩⟩ := bind_eq_some_iff.mp h
  obtain ⟨a1, w1⟩ := first_byte hmtu h1
  have a2 := byte_inv w1 h2
  have w2 := w1.after a2
  obtain ⟨c, hc, a3⟩ := address_append w2 sender (p.opening sender full) sender.mySubscriber
  have h3' : overlayAddressAppend sender (p.opening sender full) b2 sender.mySubscriber =
    some (e3, b3) := h3
  rw [hc] at h3'
  cases h3'
  have w3 := w2.after a3
  have a4 := byte_inv w3 h4
  have w4 := w3.after a4
  have a5 := byteIf_inv w4 h5
  have w5 := w4.after a5
  have a6 := byteIf_inv w5 h6
  rw [envelopeFlags_interface] at a5
  rw [envelopeFlags_seq] at a6
  refine ⟨UInt8.not_lt.mp hver, rfl, w5.after a6, ?_⟩
  exact ((((a1.trans a2).trans a3).trans a4).trans a5).trans a6

theorem start_inv (h : p.start sender sendFull = some (e, b)) (hfits : obOverrun b = false) :
    p.packetVersion ≤ supportedVersion ∧ e = p.encoder sender sendFull ∧ Writable b ∧
      b.sizeLimit = p.mtu ∧ b.position ≤ b.sizeLimit ∧ content b = p.envelope sender sendFull := by
  rw [Packet.start, limitsize_new p.mtu p.mtu_lt, bind_some] at h
  obtain ⟨hver, henc, hwr, happ⟩ := header_inv h
  have hsize : b.sizeLimit = p.mtu := happ.sizeLimit
  have hmax : b.sizeLimit ≠ sizeMax := hsize ▸ ne_sizeMax p.mtu_lt
  have hin : b.position ≤ b.sizeLimit := by
    apply Nat.not_lt.mp
    intro hlt
    rw [(overrun_iff hwr.own hmax).mpr hlt] at hfits
    cases hfits
  exact ⟨hver, henc, hwr, hsize, hin, happ.written (by rw [← happ.sizeLimit]; exact hin)⟩

theorem codeAll_opened (h : Opened sender version e) :
    Opened sender version (codeAll sender e ids).2 := by
  induction ids generalizing e with
  | nil => exact h
  | cons s ids ih => exact ih ⟨h.named, h.device⟩

/-- A run of calls appends the bytes of the payloads that it places. -/
theorem appendAll_inv (hb : Writable b) (hlim : b.sizeLimit ≠ sizeMax)
    (hin : b.position ≤ b.sizeLimit) (hopn : Opened sender version e)
    (hver : ∀ o ∈ out, o.frame.packetVersion = version)
    (h : appendAll sender enc e b out = some (placed, b')) :
    b'.position ≤ b.sizeLimit ∧ content b' = content b ++ wires sender enc placed ∧
      ∀ q ∈ placed, q.Written sender version := by
  induction out generalizing e b placed with
  | nil =>
    cases h
    exact ⟨hin, (append_nil _).symm, forall_mem_nil _⟩
  | cons o rest ih =>
    obtain ⟨⟨ok, e1, b1⟩, h1, h⟩ := bind_eq_some_iff.mp h
    obtain ⟨⟨placed', b2⟩, h2, h⟩ := bind_eq_some_iff.mp h
    cases h
    have ho := hver o mem_cons_self
    have hrest : ∀ o ∈ rest, o.frame.packetVersion = version :=
      fun o hmem => hver o (mem_cons_of_mem _ hmem)
    obtain ⟨hb1, hin1, happ⟩ := append_inv hb hlim hin h1
    -- a frame that is not placed leaves the bytes as they are, but not always the encoder
    cases happ with
    | refused _ _ hsame =>
      rw [← hsame.content, ← hsame.sizeLimit]
      exact ih hb1 (by rw [hsame.sizeLimit]; exact hlim) hin1 hopn hrest h2
    | overran _ _ _ _ hsame =>
      rw [← hsame.content, ← hsame.sizeLimit]
      exact ih hb1 (by rw [hsame.sizeLimit]; exact hlim) hin1 (codeAll_opened hopn) hrest h2
    | placed _ httl hcom hcon _ hsize =>
      obtain ⟨hend, hall, hwr⟩ :=
        ih hb1 (by rw [hsize]; exact hlim) hin1 (codeAll_opened hopn) hrest h2
      refine ⟨by rw [← hsize]; exact hend, ?_, ?_⟩
      · rw [hall, hcon, append_assoc]
        rfl
      exact forall_mem_cons.mpr ⟨⟨hcom, hopn, ho, httl⟩, hwr⟩

/-- What a packet holds. -/
structure Packet.Holding (p : Packet) (sender : Sender) (sendFull : Sid → Bool) (t : Transmission) :
    Prop where
  version : p.packetVersion ≤ supportedVersion
  bytes : t.bytes = p.envelope sender sendFull ++ wires sender p.encapsulation t.placed
  length : t.bytes.length < 2 ^ 31
  written : ∀ q ∈ t.placed, q.Written sender p.packetVersion

/-- What a packet holds when it has been built. -/
theorem transmit_holding (h : p.transmit sender sendFull = some t) : p.Holding sender sendFull t := by
  obtain ⟨⟨e, b⟩, hst, h⟩ := bind_eq_some_iff.mp h
  split at h
  · cases h
  next hfits =>
  obtain ⟨⟨placed, b'⟩, happ, rfl⟩ := map_eq_some_iff.mp h
  obtain ⟨hver, rfl, hb, hsize, hin, hcon⟩ := start_inv hst (by simpa using hfits)
  have hlt := p.mtu_lt
  obtain ⟨hend, hall, hwr⟩ :=
    appendAll_inv hb (hsize ▸ ne_sizeMax hlt) hin ⟨rfl, rfl⟩ p.version_eq happ
  refine ⟨hver, ?_, ?_, hwr⟩
  · rw [hall, hcon]
  have hlen : (content b').length ≤ b'.position := length_take_le _ _
  simp only
  omega

/-! ## Parsing a packet -/

/-- The buffer of a received packet: it ends at its limit. -/
structure Rests (b : Buffer) (xs : List UInt8) : Prop where
  holds : Holds b xs
  limited : b.sizeLimit ≤ b.allocSize

namespace Rests

theorem advance (h : Rests b (xs ++ rest)) : Rests (b.advance xs.length) rest :=
  ⟨h.holds.advance, h.limited⟩

theorem remaining (h : Rests b xs) : obRemaining b = some xs.length := by
  have hlen := h.holds.length_eq
  have hin := h.holds.sound.inside
  have hsm := h.holds.sound.small
  have hlim := h.limited
  simp only [Buffer.limit, min_eq_left hlim] at hlen hin
  rw [obRemaining, if_pos ⟨by simp only [sizeMax]; omega, hin⟩, hlen]

theorem slice (h : Rests b (xs ++ rest)) : obSlice b b.position xs.length = some (obStatic xs) := by
  have hlen := h.holds.length_eq
  have hin := h.holds.sound.inside
  have hle := limit_le_allocSize b
  rw [length_append] at hlen
  have hxs : ListSlice.slice b.bytes b.position xs.length = xs := by
    have htake : (ahead b).take xs.length = xs := by rw [h.holds.ahead_eq, take_left]
    rw [ahead, ListSlice.take_slice _ _ _ _ (by omega)] at htake
    exact htake
  rw [obSlice, if_neg (by omega), hxs]

end Rests

theorem ui16_get {v : UInt16} (h : Holds b ([(v >>> 8).toUInt8, v.toUInt8] ++ rest)) :
    (obGetUi16 b).value = v ∧ (obGetUi16 b).buffer = b.advance 2 := by
  obtain ⟨hval, hbuf⟩ := BufferCodec.value_read (.ui16 v) h (cons_ne_nil _ _)
  exact ⟨hval.mpr trivial, hbuf⟩

def restart (d : Decoder) : Decoder :=
  { d with context := { d.context with encodingHeader := false, invalidAddress := false } }

def blank (f : Frame) : Frame := { f with broadcastId := .zero }

/-- What the receiver sees of a payload. -/
structure Seen (node : Node) (sender : Sender) (q : Placed) (d : Decoder) (f : Frame) (p : Parse)
    (r : Received) : Prop where
  header : ∃ b, HeaderParsed node sender q.outgoing q.encoder (restart d) (blank f) b p
  frame : ∃ payload, r.frame = { p.frame with payload := payload }
  nextHop : r.nextHop = p.nextHop
  sequence : r.sequence = p.sequence
  accepted : r.accepted = (p.process || p.forward)

def record (p : Parse) (len : Nat) (payload : List UInt8) : Received :=
  if p.process || p.forward then
    ⟨{ p.frame with payload := payload }, p.nextHop, p.process, p.forward, p.sequence, len⟩
  else ⟨p.frame, p.nextHop, p.process, p.forward, p.sequence, len⟩

theorem seen_record {p : Parse} (len : Nat) (pl : List UInt8)
    (h : HeaderParsed node sender q.outgoing q.encoder (restart d) (blank f) b p) :
    Seen node sender q d f p (record p len pl) := by
  rw [record]
  split
  · exact ⟨⟨b, h⟩, ⟨pl, rfl⟩, rfl, rfl, rfl⟩
  · exact ⟨⟨b, h⟩, ⟨p.frame.payload, rfl⟩, rfl, rfl, rfl⟩

theorem payloadLoop_pass {p : Parse} (hb : Rests b xs) (hne : xs ≠ [])
    (hpar : parseMdpPacketHeader node i (restart d) (blank f) b = some p)
    (hst : payloadStart p.decoder.context.encapsulation p.buffer = some (pl.length, b'))
    (hb' : Rests b' (pl ++ rest)) :
    payloadLoop node (ps + 1) i d f b = record p pl.length pl ::
      payloadLoop node ps (i + 1) p.decoder p.frame (b'.advance pl.length) := by
  have hmore : ¬(obRemaining b = none ∨ obRemaining b = some 0) := by
    rw [hb.remaining]
    simpa using hne
  have hpar' : parseMdpPacketHeader node i
    { d with context := { d.context with encodingHeader := false, invalidAddress := false } }
    { f with broadcastId := .zero } b = some p := hpar
  rw [payloadLoop, if_neg hmore]
  simp only [hpar', hst, hb'.slice, record]
  split <;> rfl

theorem parsed_format {p : Parse} (h : HeaderParsed node sender o e d f b p) :
    SameFormat d p.decoder := by
  rw [h.decoder]
  exact (takeSource_format node d f.source _).trans (takeTarget_format node _ f.destination _)

/-- What the loop needs to take the next payload of the packet. -/
structure Ready (version : UInt8) (encapsulation : Encapsulation) (d : Decoder) : Prop where
  version : d.context.packetVersion = version
  encapsulation : d.context.encapsulation = encapsulation

section Loop

variable (node : Node) {q : Placed}

theorem wire_ne_nil : q.wire sender enc ++ rest ≠ [] := by
  simp [Placed.wire, Outgoing.wire, Outgoing.header]

theorem overlay_wire_length : (q.wire sender .overlay).length =
    (q.outgoing.header sender q.encoder).length + 2 + q.outgoing.frame.payload.length := by
  simp only [Placed.wire, Outgoing.wire, Outgoing.lengthBytes, length_append, if_pos,
    length_cons, length_nil]

/-- In an overlay packet the length says where a payload ends, modulo 2 ^ 16. -/
theorem overlay_pass (ps : Nat) (hq : q.Written sender version) (hd : Ready version .overlay d)
    (hb : Rests b (q.wire sender .overlay ++ rest))
    (hlen : len = q.outgoing.frame.payload.length % 65536) :
    ∃ p, HeaderParsed node sender q.outgoing q.encoder (restart d) (blank f) b p ∧
      Ready version .overlay p.decoder ∧
      payloadLoop node (ps + 1) i d f b =
        record p len ((q.outgoing.frame.payload ++ rest).take len) ::
          payloadLoop node ps (i + 1) p.decoder p.frame
            (b.advance ((q.outgoing.header sender q.encoder).length + 2 + len)) := by
  have hwire : Rests b (q.outgoing.header sender q.encoder ++
      ([(UInt16.ofNat q.outgoing.frame.payload.length >>> 8).toUInt8,
        (UInt16.ofNat q.outgoing.frame.payload.length).toUInt8] ++
        (q.outgoing.frame.payload ++ rest))) := by
    simpa [Placed.wire, Outgoing.wire, Outgoing.lengthBytes] using hb
  obtain ⟨p, hpar, hhdr⟩ := parse_header node sender q.outgoing q.encoder
    (d := restart d) (f := blank f) i hq.complete (hd.version.trans hq.version_eq.symm) hwire.holds
  have hfmt := parsed_format hhdr
  have hrdy : Ready version .overlay p.decoder :=
    ⟨hfmt.packetVersion.trans hd.version, hfmt.encapsulation.trans hd.encapsulation⟩
  have hleng := hwire.advance
  rw [← hhdr.buffer] at hleng
  obtain ⟨hval, hbuf⟩ := ui16_get hleng.holds
  have hbody : Rests (p.buffer.advance 2) (q.outgoing.frame.payload ++ rest) := hleng.advance
  have hmod : (UInt16.ofNat q.outgoing.frame.payload.length).toNat = len := by simp [hlen]
  have htkn : ((q.outgoing.frame.payload ++ rest).take len).length = len := by
    rw [length_take, length_append]
    omega
  refine ⟨p, hhdr, hrdy, ?_⟩
  have hst : payloadStart p.decoder.context.encapsulation p.buffer =
      some (((q.outgoing.frame.payload ++ rest).take len).length, p.buffer.advance 2) := by
    rw [hrdy.encapsulation]
    simp only [payloadStart, hval, hbuf, hbody.remaining, bind_some, hmod, htkn]
    rw [if_neg (by rw [length_append]; omega)]
  rw [← take_append_drop len (q.outgoing.frame.payload ++ rest)] at hbody
  rw [payloadLoop_pass hb wire_ne_nil hpar hst hbody, htkn, hhdr.buffer,
    advance_advance, advance_advance, add_assoc]

/-- A packet of the other kind has one payload, which is all that is left. -/
theorem single_pass (ps : Nat) (hq : q.Written sender version) (hd : Ready version .single d)
    (hb : Rests b (q.wire sender .single ++ rest)) :
    ∃ p, HeaderParsed node sender q.outgoing q.encoder (restart d) (blank f) b p ∧
      payloadLoop node (ps + 1) i d f b =
        [record p (q.outgoing.frame.payload ++ rest).length (q.outgoing.frame.payload ++ rest)] := by
  have hwire : Rests b (q.outgoing.header sender q.encoder ++ (q.outgoing.frame.payload ++ rest)) := by
    simpa [Placed.wire, Outgoing.wire, Outgoing.lengthBytes] using hb
  obtain ⟨p, hpar, hhdr⟩ := parse_header node sender q.outgoing q.encoder
    (d := restart d) (f := blank f) i hq.complete (hd.version.trans hq.version_eq.symm) hwire.holds
  have hfmt := parsed_format hhdr
  have hbody := hwire.advance
  rw [← hhdr.buffer] at hbody
  refine ⟨p, hhdr, ?_⟩
  have hst : payloadStart p.decoder.context.encapsulation p.buffer =
      some ((q.outgoing.frame.payload ++ rest).length, p.buffer) := by
    rw [hfmt.encapsulation, show (restart d).context.encapsulation = .single from hd.encapsulation]
    simp [payloadStart, hbody.remaining]
  rw [← append_nil (q.outgoing.frame.payload ++ rest)] at hbody
  rw [payloadLoop_pass hb wire_ne_nil hpar hst hbody]
  cases ps with
  | zero => rfl
  | succ ps =>
    have hend : obRemaining (p.buffer.advance (q.outgoing.frame.payload ++ rest).length) = some 0 :=
      hbody.advance.remaining
    rw [payloadLoop, if_pos (.inr hend)]

end Loop

/-! ## The envelope header -/

def Packet.heard (p : Packet) (node : Node) (sender : Sender) (sendFull : Sid → Bool) :
    Option Sid × Decoder :=
  take node (envelopeDecoder node p.packetVersion p.encapsulation) (p.senderCode sender sendFull) none

theorem ofCode_code : Encapsulation.ofCode encapsulation.code = some encapsulation := by
  cases encapsulation <;> rfl

/-- A byte that is only there under a condition is skipped under it. -/
theorem skip_byte (cond : Bool) (h : Holds b ((if cond then [x] else []) ++ rest)) :
    (if cond = true then (obGet b).buffer else b) = b.advance (if cond then [x] else []).length := by
  cases cond with
  | true =>
    have hget := Holds.obGet h
    rw [if_pos rfl, hget]
    rfl
  | false => rfl

theorem fields_skipped (h : Holds b ([envelopeFlags p.unicast p.interface p.seq] ++
      ((if p.interface != 0 then [p.interface] else []) ++
        ((if p.seq.isSome then [p.seq.getD 0] else []) ++ rest)))) :
    skipEnvelopeFields b = b.advance (1 + (if p.interface != 0 then [p.interface] else []).length +
      (if p.seq.isSome then [p.seq.getD 0] else []).length) := by
  have hget := Holds.obGet h
  have h1 : Holds (b.advance 1) _ := h.advance
  have hint := skip_byte (p.interface != 0) h1
  have hseq := skip_byte p.seq.isSome h1.advance
  simp only [skipEnvelopeFields, hget, all_some, envelopeFlags_interface, envelopeFlags_seq,
    hint, hseq]
  simp [advance_advance]

theorem envelope_parsed (hver : p.packetVersion ≤ supportedVersion)
    (h : Holds b (p.envelope sender full ++ rest)) :
    parseEnvelopeHeader node b =
      (envelopeSender node (p.heard node sender full).1 (p.heard node sender full).2).map
        (·, b.advance (p.envelope sender full).length) := by
  have hlen : (p.envelope sender full).length = 1 + 1 +
      (codeBytes (p.senderCode sender full)).length + (1 +
        (if p.interface != 0 then [p.interface] else []).length +
        (if p.seq.isSome then [p.seq.getD 0] else []).length) := by
    simp only [Packet.envelope, length_append, length_singleton]
    omega
  simp only [Packet.envelope, append_assoc] at h
  have hget1 : obGet b = ⟨some p.packetVersion, b.advance 1, [b.position]⟩ := Holds.obGet h
  have h1 : Holds (b.advance 1) _ := h.advance
  have hget2 := Holds.obGet h1
  have h2 : Holds ((b.advance 1).advance 1) _ := h1.advance
  have hpar : overlayAddressParse node (envelopeDecoder node p.packetVersion p.encapsulation)
      ((b.advance 1).advance 1) none = some ((p.heard node sender full).1,
        (p.heard node sender full).2,
        ((b.advance 1).advance 1).advance (codeBytes (p.senderCode sender full)).length) :=
    parse_code node _ (addressCode_valid sender (p.opening sender full) sender.mySubscriber) h2 none
  rw [parseEnvelopeHeader]
  simp only [hget1, hget2, bind_eq_bind, bind_some, ofCode_code,
    if_neg (UInt8.not_lt.mpr hver), hpar]
  rw [fields_skipped h2.advance, hlen]
  simp [advance_advance]

theorem static_rests (h : bytes.length < 2 ^ 31) :
    ∃ b, obLimitsize (obStatic bytes) bytes.length = some b ∧ Rests b bytes := by
  have hmax := ne_sizeMax h
  refine ⟨{ obStatic bytes with sizeLimit := bytes.length }, ?_, ?_⟩
  · rw [obLimitsize, if_pos ⟨hmax, Nat.zero_le _, Nat.zero_le _, fun _ => le_rfl⟩]
  constructor
  · constructor
    · exact ⟨by change bytes.length < 2 ^ 63; omega, Nat.zero_le _⟩
    simp [ahead, obStatic, Buffer.limit, Buffer.allocSize, ListSlice.slice_start_zero]
  · exact le_rfl

def Packet.decoder (p : Packet) (node : Node) (sender : Sender) (sendFull : Sid → Bool) :
    Option Decoder :=
  envelopeSender node (p.heard node sender sendFull).1 (p.heard node sender sendFull).2

theorem decoder_ready (h : p.decoder node sender full = some d) :
    Ready p.packetVersion p.encapsulation d := by
  have hfmt := take_format node (envelopeDecoder node p.packetVersion p.encapsulation)
    (p.senderCode sender full) none
  have hhrd : Ready p.packetVersion p.encapsulation (p.heard node sender full).2 :=
    ⟨hfmt.packetVersion, hfmt.encapsulation⟩
  revert h
  rw [Packet.decoder]
  generalize (p.heard node sender full).1 = named
  fun_cases envelopeSender with
  | case2 => rintro ⟨⟩
  | _ =>
    intro h
    rw [← Option.some.inj h]
    exact ⟨hhrd.version, hhrd.encapsulation⟩

/-- The receiver parses the payloads from the end of the envelope header on. -/
theorem packet_parsed (node : Node) (h : p.Holding sender full t) :
    (p.decoder node sender full = none ∧ packetOkOverlay node t.bytes = []) ∨
      ∃ d b, p.decoder node sender full = some d ∧ Ready p.packetVersion p.encapsulation d ∧
        Rests b (wires sender p.encapsulation t.placed) ∧
        packetOkOverlay node t.bytes = payloadLoop node t.bytes.length 0 d .zero b := by
  obtain ⟨b, hlim, hrests⟩ := static_rests h.length
  have hbs : Rests b (p.envelope sender full ++ wires sender p.encapsulation t.placed) := by
    rw [← h.bytes]
    exact hrests
  have hpar : parseEnvelopeHeader node b = (p.decoder node sender full).map _ :=
    envelope_parsed h.version hbs.holds
  rw [packetOkOverlay, hlim, bind_some, hpar]
  cases hd : p.decoder node sender full with
  | none => exact .inl ⟨rfl, rfl⟩
  | some d => exact .inr ⟨d, _, rfl, decoder_ready hd, hbs.advance, rfl⟩

end PacketStream
