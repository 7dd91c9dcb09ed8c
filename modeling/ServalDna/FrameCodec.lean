import ServalDna.AddressCompression

/-!
# Frames that go through a packet

A list of frames is put into an overlay packet, and the receiver, who knows all the
addresses in it, parses the packet. It gets the frames that fitted, in their order,
if the lengths of their payloads fit into 16 bits and every address that is coded as
the previous one repeats the address before it in the packet. The second condition
fails after a frame that did not fit: its bytes are taken out of the packet, but the
sender goes on with the context that the frame has left behind.
-/
namespace FrameCodec

open ByteFlags OverlayBuffer BufferReads BufferWrites OverlayPacket PacketFormat PacketStream
open AddressCompression
open SubscriberTrie (Sid sidSize)
open List hiding take
open Option hiding sequence

/-! ## Frames that can be sent -/

/-- A frame of the kind that is queued for sending. -/
structure Sendable (o : Outgoing) : Prop where
  source : o.frame.source.isSome
  ttl_pos : 1 ≤ o.frame.ttl
  ttl_le : o.frame.ttl ≤ ttlMax
  type_lt : o.frame.type < 256
  broadcast : o.frame.destination = none → o.frame.ttl = 1 ∨ o.frame.broadcastId ≠ .zero
  nextHop : o.frame.destination.isSome → o.oneHop = false → o.nextHop.isSome

variable {o : Outgoing}

theorem sendable_complete (h : Sendable o) : o.Complete e := by
  refine ⟨fun _ => h.source, ?_, h.nextHop⟩
  intro hdest hhop
  have hne : o.frame.broadcastId ≠ .zero := by
    intro hzero
    have hone : o.frame.ttl = 1 := (h.broadcast hdest).resolve_right (fun hne => hne hzero)
    have htrue : o.oneHop = true := by simp [Outgoing.oneHop, hone, frameBroadcast, hzero]
    rw [hhop] at htrue
    cases htrue
  simp [frameBroadcast, hdest, hne]

variable {p : Packet}

section Calls

variable (sender : Sender)

theorem byteIf_some (cond : Bool) (x : UInt8) (hb : Writable b) :
    ∃ b', appendByteIf cond b x = some b' ∧ Writable b' := by
  cases cond with
  | true =>
    obtain ⟨b', hb', happ⟩ := append_writable hb [x]
    exact ⟨b', hb', hb.after happ⟩
  | false => exact ⟨b, rfl, hb⟩

theorem byte_some (x : UInt8) (hb : Writable b) : ∃ b', obAppendByte b x = some b' ∧ Writable b' :=
  byteIf_some true x hb

theorem known_some (hb : Writable b) (hs : s.isSome) :
    ∃ r, appendKnown sender e b s = some r ∧ Writable r.2 := by
  obtain ⟨s, rfl⟩ := isSome_iff_exists.mp hs
  obtain ⟨b', hb', happ⟩ := address_append hb sender e s
  exact ⟨_, hb', hb.after happ⟩

theorem source_some (hb : Writable b) (h : o.Complete e) :
    ∃ r, appendSource sender e b o.frame (o.flags e) = some r ∧ Writable r.2 := by
  rw [appendSource, flags_senderSame]
  cases hsame : o.senderSame e with
  | true => exact ⟨_, rfl, hb⟩
  | false => exact known_some sender hb (h.source hsame)

theorem target_some (e' : Encoder) (hb : Writable b) (h : o.Complete e) :
    ∃ r, appendTarget sender e' b o.frame (frameBroadcast o.frame) o.nextHop (o.flags e) = some r ∧
      Writable r.2 := by
  rw [appendTarget, flags_toBroadcast, flags_oneHop]
  cases hdest : o.frame.destination with
  | none =>
    rw [isNone_none, if_pos rfl]
    cases hhop : o.oneHop with
    | true => exact ⟨_, rfl, hb⟩
    | false =>
      obtain ⟨b', hb', happ⟩ := append_writable hb o.frame.broadcastId.id
      refine ⟨(e', b'), ?_, hb.after happ⟩
      rw [if_neg Bool.false_ne_true, h.broadcast hdest hhop, bind_some, obAppendBytes,
        if_neg (broadcast_ne_nil _), hb', map_some]
  | some d =>
    obtain ⟨r, hr, hw⟩ := known_some sender hb (isSome_some (a := d))
    rw [hr, bind_some]
    cases hhop : o.oneHop with
    | true => exact ⟨r, rfl, hw⟩
    | false => exact known_some sender hw (h.nextHop (by rw [hdest]; rfl) hhop)

theorem build_some (hb : Writable b) (h : o.Complete e) (httl : o.frame.ttl ≤ ttlMax) :
    ∃ r, overlayFrameBuildHeader sender e b o.frame (frameBroadcast o.frame) o.nextHop
      o.willRetransmit = some (true, r) ∧ Writable r.2 := by
  obtain ⟨b1, h1, w1⟩ := byte_some (o.flags e) hb
  obtain ⟨r2, h2, w2⟩ := source_some sender w1 h
  obtain ⟨r3, h3, w3⟩ := target_some sender r2.1 w2 h
  obtain ⟨b4, h4, w4⟩ := byteIf_some (!hasFlag (o.flags e) flagOneHop)
    (o.frame.ttl ||| ((o.frame.queue &&& 3) <<< 5)) w3
  obtain ⟨b5, h5, w5⟩ := byteIf_some (hasFlag (o.flags e) flagLegacyType) (UInt8.ofNat o.frame.type) w4
  obtain ⟨b6, h6, w6⟩ := byteIf_some (decide (o.frame.packetVersion ≥ 1)) o.sequenceByte w5
  refine ⟨(r3.1, b6), ?_, w6⟩
  rw [Outgoing.flags] at h1 h2 h3 h4 h5
  rw [Outgoing.sequenceByte] at h6
  rw [overlayFrameBuildHeader, if_neg (UInt8.not_lt.mpr httl)]
  simp only [h1, h2, h3, h4, h5, h6, bind_eq_bind, bind_some]

theorem payload_some (enc : Encapsulation) (pl : List UInt8) (hb : Writable b) :
    ∃ b', appendPayloadBytes enc b pl = some b' := by
  have hlen : ∃ b', appendLength enc b pl = some b' ∧ Writable b' := by
    cases enc with
    | overlay =>
      obtain ⟨b', hb', happ⟩ := append_writable hb
        [(UInt16.ofNat pl.length >>> 8).toUInt8, (UInt16.ofNat pl.length).toUInt8]
      exact ⟨b', hb', hb.after happ⟩
    | single => exact ⟨b, rfl, hb⟩
  obtain ⟨b1, h1, w1⟩ := hlen
  rw [appendPayloadBytes, h1, bind_some]
  split
  · exact ⟨b1, rfl⟩
  next hne =>
  obtain ⟨b2, h2, -⟩ := append_writable w1 pl
  exact ⟨b2, by rw [obAppendBytes, if_neg hne, h2]⟩

/-- A frame that can be sent is appended, or left out, without a failed assertion. -/
theorem append_some (enc : Encapsulation) (hb : Writable b) (h : o.Complete e)
    (httl : o.frame.ttl ≤ ttlMax) :
    ∃ r, overlayFrameAppendPayload sender enc e b o.frame o.nextHop o.willRetransmit =
      some r := by
  obtain ⟨r, hr, hw⟩ := build_some sender (writable_checkpoint hb) h httl
  obtain ⟨b', hb'⟩ := payload_some enc o.frame.payload hw
  rw [overlayFrameAppendPayload, hr]
  simp only [hb', map_some]
  split
  · exact ⟨_, rfl⟩
  · exact ⟨_, rfl⟩

theorem appending_sizeLimit {sender : Sender} {ok : Bool} {e' : Encoder}
    (h : Appending sender enc o e b ok e' b') : b'.sizeLimit = b.sizeLimit := by
  cases h with
  | refused _ _ hsame => exact hsame.sizeLimit
  | placed _ _ _ _ _ hsize => exact hsize
  | overran _ _ _ _ hsame => exact hsame.sizeLimit

theorem appendAll_some (e : Encoder) {out : List Outgoing} (hb : Writable b)
    (hlim : b.sizeLimit ≠ sizeMax) (hin : b.position ≤ b.sizeLimit)
    (h : ∀ o ∈ out, Sendable o) :
    ∃ t, appendAll sender enc e b out = some t := by
  induction out generalizing e b with
  | nil => exact ⟨_, rfl⟩
  | cons o rest ih =>
    have ho := h o mem_cons_self
    obtain ⟨⟨ok, e1, b1⟩, h1⟩ :=
      append_some sender enc hb (sendable_complete ho) ho.ttl_le
    obtain ⟨hb1, hin1, happ⟩ := append_inv hb hlim hin h1
    have hsize := appending_sizeLimit happ
    obtain ⟨t, ht⟩ := ih e1 hb1 (by rw [hsize]; exact hlim) hin1
      (fun o hmem => h o (mem_cons_of_mem _ hmem))
    rw [appendAll, h1, bind_eq_bind, bind_some, ht, bind_eq_bind, bind_some]
    exact ⟨_, rfl⟩

end Calls

theorem header_some (sender : Sender) (full : Sid → Bool)
    (hver : p.packetVersion ≤ supportedVersion) (hmtu : p.mtu ≠ 0) :
    ∃ r, p.start sender full = some r := by
  have hown : Own (fresh p.mtu) := ⟨.inr ⟨rfl, rfl, rfl⟩, fun _ => le_rfl⟩
  obtain ⟨b1, h1, -⟩ := append_own hown [p.packetVersion] (fun _ => Nat.pos_of_ne_zero hmtu)
  have h1' : obAppendByte (fresh p.mtu) p.packetVersion = some b1 := h1
  have w1 := (first_byte hmtu h1').2
  obtain ⟨b2, h2, w2⟩ := byte_some p.encapsulation.code w1
  obtain ⟨b3, h3, a3⟩ := address_append w2 sender (p.opening sender full) sender.mySubscriber
  have h3' : overlayAddressAppend sender (Encoder.begin
    ⟨{ Context.start with packetVersion := p.packetVersion }, full⟩ sender p.packetVersion) b2
      sender.mySubscriber = _ := h3
  have w3 := w2.after a3
  obtain ⟨b4, h4, w4⟩ := byte_some (envelopeFlags p.unicast p.interface p.seq) w3
  obtain ⟨b5, h5, w5⟩ := byteIf_some
    (hasFlag (envelopeFlags p.unicast p.interface p.seq) packetInterface) p.interface w4
  obtain ⟨b6, h6, -⟩ := byteIf_some
    (hasFlag (envelopeFlags p.unicast p.interface p.seq) packetSeq) (p.seq.getD 0) w5
  rw [Packet.start, limitsize_new p.mtu p.mtu_lt, bind_some, overlayPacketInitHeader,
    if_neg (UInt8.not_lt.mpr hver)]
  simp only [h1', h2, h3', h4, h5, h6, bind_eq_bind, bind_some]
  exact ⟨_, rfl⟩

/-- Frames that can be sent make a packet if there is room for the envelope header. -/
theorem transmit_some (hver : p.packetVersion ≤ supportedVersion)
    (hroom : (p.envelope sender sendFull).length ≤ p.mtu) (hfra : ∀ o ∈ p.outgoing, Sendable o) :
    ∃ t, p.transmit sender sendFull = some t := by
  have hmtu : p.mtu ≠ 0 := by
    intro hzero
    rw [hzero] at hroom
    simp [Packet.envelope] at hroom
  obtain ⟨⟨e, b⟩, hst⟩ := header_some sender sendFull hver hmtu
  have hinv := hst
  rw [Packet.start, limitsize_new p.mtu p.mtu_lt, bind_some] at hinv
  obtain ⟨-, -, hwr, happ⟩ := header_inv hinv
  have hsize : b.sizeLimit = p.mtu := happ.sizeLimit
  have hpos : b.position = 0 + (p.envelope sender sendFull).length := happ.position
  have hin : b.position ≤ b.sizeLimit := by omega
  have hmax : b.sizeLimit ≠ sizeMax := hsize ▸ ne_sizeMax p.mtu_lt
  have hfits : ¬obOverrun b = true := by
    rw [overrun_iff hwr.own hmax]
    omega
  obtain ⟨t, ht⟩ := appendAll_some sender e hwr hmax hin hfra
  rw [Packet.transmit, hst, bind_some, if_neg hfits, ht, map_some]
  exact ⟨_, rfl⟩

/-- The buffers of a packet while it is built. -/
inductive Building (p : Packet) (sender : Sender) (sendFull : Sid → Bool) : Encoder → Buffer → Prop where
  | start {e : Encoder} {b : Buffer} (h : p.start sender sendFull = some (e, b))
      (fits : obOverrun b = false) : Building p sender sendFull e b
  | append {e e' : Encoder} {b b' : Buffer} {ok : Bool} (o : Outgoing)
      (before : Building p sender sendFull e b)
      (h : overlayFrameAppendPayload sender p.encapsulation e b o.frame o.nextHop o.willRetransmit =
        some (ok, e', b')) : Building p sender sendFull e' b'

theorem building_inv (h : Building p sender full e b) :
    Writable b ∧ b.position ≤ b.sizeLimit ∧ b.sizeLimit ≠ sizeMax := by
  induction h with
  | start h fits =>
    obtain ⟨-, -, hb, hsize, hin, -⟩ := start_inv h fits
    exact ⟨hb, hin, hsize ▸ ne_sizeMax p.mtu_lt⟩
  | append o _ h ih =>
    obtain ⟨hb, hin, hlim⟩ := ih
    obtain ⟨hb', hin', happ⟩ := append_inv hb hlim hin h
    exact ⟨hb', hin', by rw [appending_sizeLimit happ]; exact hlim⟩

/-- A frame that is left out leaves the buffer as it was. -/
theorem left_out_unchanged (hbui : Building p sender full e b)
    (h : overlayFrameAppendPayload sender p.encapsulation e b o.frame o.nextHop o.willRetransmit =
      some (false, e', b')) : Unchanged b b' := by
  obtain ⟨hb, hin, hlim⟩ := building_inv hbui
  obtain ⟨-, -, happ⟩ := append_inv hb hlim hin h
  cases happ with
  | refused _ _ hsame => exact hsame
  | overran _ _ _ _ hsame => exact hsame

/-! ## Receivers that know all addresses -/

/-- The receiver's table has the intended subscriber for every abbreviation. -/
def KnownAnswer (node : Node) (lookups : Nat) (a : Address) : Prop :=
  ∀ id, a.code = .abbreviation id → node.find lookups id = some a.subscriber

instance (node : Node) (lookups : Nat) : ∀ a, Decidable (KnownAnswer node lookups a)
  | ⟨.abbreviation id, s⟩ =>
    decidable_of_iff (node.find lookups id = some s)
      ⟨fun h _ hid => by cases hid; exact h, fun h => h id rfl⟩
  | ⟨.p2pYou, _⟩ => isTrue fun _ hid => nomatch hid
  | ⟨.p2pMe, _⟩ => isTrue fun _ hid => nomatch hid
  | ⟨.self, _⟩ => isTrue fun _ hid => nomatch hid
  | ⟨.previous, _⟩ => isTrue fun _ hid => nomatch hid

def Known (node : Node) : Nat → List Address → Prop
  | _, [] => True
  | n, a :: rest => KnownAnswer node n a ∧ Known node (n + lookupsOf a.code) rest

instance decidableKnown (node : Node) : ∀ n addresses, Decidable (Known node n addresses)
  | _, [] => instDecidableTrue
  | n, a :: rest =>
    haveI := decidableKnown node (n + lookupsOf a.code) rest
    inferInstanceAs (Decidable (KnownAnswer node n a ∧ _))

/-- A receiver that looks at the packets of the sender. If the sender has codes for the
ends of a link, then the receiver has the same two ends. -/
structure Receives (sender : Sender) (version : UInt8) (node : Node) : Prop where
  other : node.isSelf sender.mySubscriber = false
  fresh : node.duplicatePacket = false
  link : (linkEnd sender version).isSome → linkEnd sender version = some node.mySubscriber ∧
    node.interface.pointToPoint = true ∧ node.interface.otherDevice = some sender.mySubscriber

/-- An address that is coded as the previous one repeats the address before it in the
packet. -/
def Repeats : Sid → List Address → Prop
  | _, [] => True
  | last, a :: rest => (a.code = .previous → last = a.subscriber) ∧ Repeats a.subscriber rest

instance decidableRepeats : ∀ last addresses, Decidable (Repeats last addresses)
  | _, [] => instDecidableTrue
  | last, a :: rest =>
    haveI := decidableRepeats a.subscriber rest
    inferInstanceAs (Decidable ((a.code = .previous → last = a.subscriber) ∧ _))

/-- The address that the one after `addresses` may repeat. -/
def lastOf : Sid → List Address → Sid
  | last, [] => last
  | _, a :: rest => lastOf a.subscriber rest

theorem lastOf_append (last : Sid) : lastOf last (xs ++ ys) = lastOf (lastOf last xs) ys := by
  induction xs generalizing last with
  | nil => rfl
  | cons a xs ih => exact ih a.subscriber

theorem repeats_append : Repeats last (xs ++ ys) ↔ Repeats last xs ∧ Repeats (lastOf last xs) ys := by
  induction xs generalizing last with
  | nil => simp [Repeats, lastOf]
  | cons a xs ih => simp only [cons_append, Repeats, lastOf, ih, and_assoc]

section Tracking

variable (sender : Sender) (version : UInt8) (node : Node)

/-- The receiver has all that it needs to resolve the addresses that are to come. -/
structure Tracks (last : Sid) (d : Decoder) (addresses : List Address) : Prop where
  named : d.context.sender = some sender.mySubscriber
  device : (linkEnd sender version).isSome → d.context.pointToPointDevice = some sender.mySubscriber
  other : (linkEnd sender version).isSome → linkEnd sender version = some node.mySubscriber
  previous : d.context.previous = some last
  known : Known node d.lookups addresses
  coded : ∀ a ∈ addresses, Coded sender version a

variable {sender version node}

/-- A code other than the one for the previous address stands for the intended subscriber. -/
theorem answer_coded (hcod : Coded sender version a)
    (hend : (linkEnd sender version).isSome → linkEnd sender version = some node.mySubscriber)
    (hdev : (linkEnd sender version).isSome → d.context.pointToPointDevice = some sender.mySubscriber)
    (hself : a.code = .self → d.context.sender = some sender.mySubscriber)
    (hkn : KnownAnswer node d.lookups a) (hprev : a.code ≠ .previous) :
    answer node d a.code = some a.subscriber := by
  unfold Coded at hcod
  cases hcode : a.code with
  | p2pYou =>
    rw [hcode] at hcod
    have hsome : (linkEnd sender version).isSome := by
      rw [hcod]
      rfl
    have hoth := hend hsome
    rw [hcod] at hoth
    rw [answer, hdev hsome]
    exact hoth.symm
  | p2pMe =>
    rw [hcode] at hcod
    rw [answer, hdev hcod.2, hcod.1]
  | self =>
    rw [hcode] at hcod
    rw [answer, hself hcode, hcod]
  | previous => exact absurd hcode hprev
  | abbreviation id => exact hkn id hcode

/-- Whom the receiver takes an address for. -/
theorem answer_tracked (h : Tracks sender version node last d (a :: rest)) :
    answer node d a.code = some (if a.code = .previous then last else a.subscriber) := by
  by_cases hprev : a.code = .previous
  · rw [hprev, answer, h.previous, if_pos rfl]
  rw [if_neg hprev]
  exact answer_coded (h.coded a mem_cons_self) h.other h.device (fun _ => h.named) h.known.1 hprev

theorem take_tracked (h : Tracks sender version node last d (a :: rest)) :
    ((take node d a.code subscriber).1 = some a.subscriber ↔
        (a.code = .previous → last = a.subscriber)) ∧
      ((a.code = .previous → last = a.subscriber) →
        Tracks sender version node a.subscriber (take node d a.code subscriber).2 rest) := by
  have hans := answer_tracked h
  have hrest : ∀ a ∈ rest, Coded sender version a := fun x hx => h.coded x (mem_cons_of_mem _ hx)
  unfold take
  rw [hans]
  constructor
  · change some _ = some _ ↔ _
    split
    · next hprev => simp [hprev]
    · next hoth => simp [hoth]
  intro hrep
  refine ⟨h.named, h.device, h.other, ?_, h.known.2, hrest⟩
  change some _ = some _
  split
  · next hprev => rw [hrep hprev]
  · rfl

theorem tracks_flags (encodingHeader invalidAddress : Bool)
    (h : Tracks sender version node last d addresses) :
    Tracks sender version node last { d with context := { d.context with
      encodingHeader := encodingHeader, invalidAddress := invalidAddress } } addresses :=
  { h with }

theorem source_tracked (hopn : Opened sender version e) (hcom : o.Complete e)
    (h : Tracks sender version node last d ((codeAll sender e (o.sourceIds e)).1 ++ rest)) :
    let addresses := (codeAll sender e (o.sourceIds e)).1
    let taken := takeSource node d subscriber addresses
    (taken.1 = o.frame.source ↔ Repeats last addresses) ∧
      (Repeats last addresses → Tracks sender version node (lastOf last addresses) taken.2 rest) := by
  cases hsame : o.senderSame e with
  | true =>
    rw [o.sourceIds_same hsame] at h ⊢
    have hsrc : o.frame.source = some sender.mySubscriber :=
      (beq_iff_eq.mp hsame).trans hopn.named
    exact ⟨iff_of_true (h.named.trans hsrc.symm) trivial,
      fun _ => tracks_flags d.context.encodingHeader _ h⟩
  | false =>
    obtain ⟨s, hs⟩ := isSome_iff_exists.mp (hcom.source hsame)
    rw [o.sourceIds_other hsame hs] at h ⊢
    rw [hs]
    obtain ⟨hval, htr⟩ := take_tracked h
    simp only [codeAll, takeSource, Repeats, and_true, lastOf]
    exact ⟨hval, htr⟩

theorem target_tracked (hcom : o.Complete e)
    (h : Tracks sender version node last d ((codeAll sender e' o.targetIds).1 ++ rest)) :
    let addresses := (codeAll sender e' o.targetIds).1
    let taken := takeTarget node d subscriber addresses
    (taken.1 = o.frame.destination ∧
        taken.2.1 = (if o.frame.destination.isSome && !o.oneHop then o.nextHop else none) ↔
      Repeats last addresses) ∧
      (Repeats last addresses → Tracks sender version node (lastOf last addresses) taken.2.2 rest) := by
  cases hdest : o.frame.destination with
  | none =>
    rw [o.targetIds_broadcast hdest] at h ⊢
    exact ⟨iff_of_true ⟨rfl, rfl⟩ trivial, fun _ => h⟩
  | some t =>
    cases hhop : o.oneHop with
    | true =>
      rw [o.targetIds_oneHop hdest hhop] at h ⊢
      obtain ⟨hval, htr⟩ := take_tracked h
      simp only [codeAll, takeTarget, Repeats, and_true, lastOf]
      exact ⟨⟨fun hall => hval.mp hall.1, fun hrep => ⟨hval.mpr hrep, rfl⟩⟩, htr⟩
    | false =>
      obtain ⟨n, hn⟩ := isSome_iff_exists.mp (hcom.nextHop (by rw [hdest]; rfl) hhop)
      rw [o.targetIds_hop hdest hhop hn] at h ⊢
      obtain ⟨hval1, htr1⟩ := take_tracked h
      simp only [codeAll, takeTarget, Repeats, and_true, lastOf, hn]
      constructor
      · constructor
        · rintro ⟨htgt, hnext⟩
          have hfst := hval1.mp htgt
          exact ⟨hfst, (take_tracked (htr1 hfst)).1.mp hnext⟩
        rintro ⟨hfst, hsec⟩
        exact ⟨hval1.mpr hfst, (take_tracked (htr1 hfst)).1.mpr hsec⟩
      rintro ⟨hfst, hsec⟩
      exact (take_tracked (htr1 hfst)).2 hsec

/-- A receiver that knows all addresses finds those of a payload if and only if they
repeat what they are coded to repeat. -/
theorem takeAll_tracked (hopn : Opened sender version e) (hcom : o.Complete e) (f : Frame)
    (h : Tracks sender version node last d (o.addresses sender e ++ rest)) :
    let taken := takeAll node sender o e d f
    (taken.source = o.frame.source ∧ taken.destination = o.frame.destination ∧
        taken.nextHop = (if o.frame.destination.isSome && !o.oneHop then o.nextHop else none) ↔
      Repeats last (o.addresses sender e)) ∧
      (Repeats last (o.addresses sender e) →
        Tracks sender version node (lastOf last (o.addresses sender e)) taken.decoder rest) := by
  simp only [Outgoing.addresses, Outgoing.ids, codeAll_append, append_assoc] at h ⊢
  obtain ⟨hsrc, htr⟩ := source_tracked hopn hcom h
  rw [repeats_append, lastOf_append]
  constructor
  · constructor
    · rintro ⟨hfst, hoths⟩
      have hrep := hsrc.mp hfst
      exact ⟨hrep, (target_tracked hcom (htr hrep)).1.mp hoths⟩
    rintro ⟨hfst, hsec⟩
    exact ⟨hsrc.mpr hfst, (target_tracked hcom (htr hfst)).1.mpr hsec⟩
  rintro ⟨hfst, hsec⟩
  exact (target_tracked hcom (htr hfst)).2 hsec

end Tracking

/-! ## Frames as they are received -/

def modifierMask : UInt8 := flagCiphered ||| flagSigned

/-- The receiver has the frame that was sent, one hop later. The payload's bytes are
only looked at when the frame is accepted. -/
structure Decoded (o : Outgoing) (r : Received) : Prop where
  addresses : Attributed o r
  broadcastId : o.frame.destination = none → r.frame.broadcastId = o.frame.broadcastId
  type : r.frame.type = o.frame.type
  payloadLen : r.payloadLen = o.frame.payload.length
  payload : r.accepted = true → r.frame.payload = o.frame.payload
  modifiers : r.frame.modifiers &&& modifierMask = o.frame.modifiers &&& modifierMask
  sequence : o.frame.packetVersion ≥ 1 → r.sequence.map (·.toNat) = some (o.frame.mdpSequence % 256).toNat
  ttl : r.frame.ttl = if o.oneHop then 0 else o.frame.ttl - 1

theorem ttl_unmasked {ttl queue : UInt8} (h : ttl ≤ ttlMax) :
    (ttl ||| ((queue &&& 3) <<< 5)) &&& 0x1F = ttl := by
  have hque : queue &&& 3 ≤ 3 := UInt8.and_le_right
  have hall : ∀ t : Fin 32, ∀ q : Fin 4,
      (UInt8.ofNat t ||| (UInt8.ofNat q <<< 5)) &&& 0x1F = UInt8.ofNat t := by decide
  have ht : ttl.toNat < 32 := Nat.lt_succ_of_le (UInt8.le_iff_toNat_le.mp h)
  have hq : (queue &&& 3).toNat < 4 := Nat.lt_succ_of_le (UInt8.le_iff_toNat_le.mp hque)
  simpa only [UInt8.ofNat_toNat] using hall ⟨ttl.toNat, ht⟩ ⟨(queue &&& 3).toNat, hq⟩

theorem ttlLeft_eq (h : Sendable o) : o.ttlLeft = if o.oneHop then 0 else o.frame.ttl - 1 := by
  rw [Outgoing.ttlLeft]
  cases o.oneHop with
  | true => simp
  | false =>
    have hne : o.frame.ttl ≠ 0 := by
      intro hzero
      have hpos := h.ttl_pos
      rw [hzero] at hpos
      exact absurd hpos (by decide)
    simp only [if_neg Bool.false_ne_true, ttl_unmasked h.ttl_le, if_pos hne]

theorem flagIf_masked (set : Bool) (h : flag &&& modifierMask = 0) :
    flagIf set flag &&& modifierMask = 0 := by
  cases set with
  | true => exact h
  | false => exact UInt8.zero_and

theorem flags_masked (o : Outgoing) (e : Encoder) :
    o.flags e &&& modifierMask = o.frame.modifiers &&& modifierMask := by
  have hself : o.frame.modifiers &&& (flagCiphered ||| flagSigned) &&& modifierMask =
      o.frame.modifiers &&& modifierMask := by
    rw [UInt8.and_assoc]
    rfl
  have hoths : flagAckSoon &&& modifierMask = 0 ∧ flagOneHop &&& modifierMask = 0 ∧
      flagSenderSame &&& modifierMask = 0 ∧ flagToBroadcast &&& modifierMask = 0 ∧
      flagLegacyType &&& modifierMask = 0 := by decide
  simp [Outgoing.flags, payloadFlags, and_or_distrib, hself, flagIf_masked, hoths]

theorem sequenceByte_toNat : o.sequenceByte.toNat = (o.frame.mdpSequence % 256).toNat := by
  exact Nat.mod_eq_of_lt (by omega)

theorem broadcastId_eq (hdest : o.frame.destination = none) :
    (if o.frame.destination.isNone && !o.oneHop then o.frame.broadcastId else Broadcast.zero) =
      o.frame.broadcastId := by
  rw [hdest]
  cases hhop : o.oneHop with
  | false => rfl
  | true =>
    -- one hop without a destination is only announced when there is no broadcast id
    simp only [Outgoing.oneHop, hdest, frameBroadcast, isSome_none, Bool.false_and,
      Bool.or_false, Bool.and_eq_true, isNone_none, true_and] at hhop
    by_cases hzero : o.frame.broadcastId = .zero
    · exact hzero.symm
    · simp [hzero] at hhop

@[simp] theorem record_payloadLen (p : Parse) (len : Nat) (pl : List UInt8) :
    (record p len pl).payloadLen = len := by
  rw [record]
  split <;> rfl

theorem record_payload (p : Parse) (len : Nat) (payload : List UInt8)
    (h : (record p len payload).accepted = true) : (record p len payload).frame.payload = payload := by
  rw [record] at h ⊢
  split
  · rfl
  next hnot =>
  rw [if_neg hnot] at h
  exact absurd h hnot

/-- The receiver gets a frame if and only if its length fits into 16 bits and its
addresses repeat what they are coded to repeat. -/
theorem record_decoded_iff {q : Placed} {p : Parse} {rest : List Address}
    (hq : q.Written sender version) (hsen : Sendable q.outgoing)
    (h : Tracks sender version node last d (q.addresses sender ++ rest))
    (hprs : HeaderParsed node sender q.outgoing q.encoder (restart d) (blank f) b p)
    (after : List UInt8) (hsize : len = q.outgoing.frame.payload.length % 65536) :
    Decoded q.outgoing (record p len ((q.outgoing.frame.payload ++ after).take len)) ↔
      q.outgoing.frame.payload.length < 65536 ∧ Repeats last (q.addresses sender) := by
  obtain ⟨-, ⟨bytes, hfr⟩, hnex, hseq, -⟩ := seen_record
    len ((q.outgoing.frame.payload ++ after).take len) hprs
  have htkn := (takeAll_tracked hq.opened hq.complete (blank f) (tracks_flags false false h)).1
  have hadd := attributed_iff q.outgoing
    (record p len ((q.outgoing.frame.payload ++ after).take len))
  rw [hfr, hnex, hprs.source, hprs.destination, hprs.nextHop] at hadd
  replace hadd := hadd.trans htkn
  constructor
  · intro hdec
    have hlen := hdec.payloadLen
    rw [record_payloadLen] at hlen
    exact ⟨by omega, hadd.mp hdec.addresses⟩
  rintro ⟨hsht, hrep⟩
  have hmod := hsize.trans (Nat.mod_eq_of_lt hsht)
  refine ⟨hadd.mpr hrep, ?_, ?_, ?_, ?_, ?_, ?_, ?_⟩
  · intro hdest
    rw [hfr]
    exact hprs.broadcastId.trans (broadcastId_eq hdest)
  · rw [hfr]
    refine hprs.type.trans ?_
    split
    · exact Nat.mod_eq_of_lt hsen.type_lt
    · next hdata => exact (not_not.mp hdata).symm
  · rw [record_payloadLen, hmod]
  · intro hacc
    rw [record_payload _ _ _ hacc, hmod, take_left]
  · rw [hfr]
    rw [hprs.modifiers, flags_masked]
  · intro hone
    rw [hseq, hprs.sequence, if_pos hone, map_some, sequenceByte_toNat]
  rw [hfr]
  exact hprs.ttl.trans (ttlLeft_eq hsen)

/-- The lengths fit into 16 bits. -/
def ShortPayloads (placed : List Placed) : Prop :=
  ∀ q ∈ placed, q.outgoing.frame.payload.length < 65536

instance (placed : List Placed) : Decidable (ShortPayloads placed) :=
  inferInstanceAs (Decidable (∀ q ∈ placed, _))

/-- The receiver has the frames that were sent, in their order. -/
def AllDecoded (placed : List Placed) (received : List Received) : Prop :=
  List.Forall₂ (fun q r => Decoded q.outgoing r) placed received

theorem loop_decoded_iff (passes i : Nat) (f : Frame) (hps : placed.length ≤ passes)
    (hplc : ∀ q ∈ placed, q.Written sender version ∧ Sendable q.outgoing)
    (hd : Ready version .overlay d) (hb : Rests b (wires sender .overlay placed))
    (h : Tracks sender version node last d (payloadAddresses sender placed)) :
    AllDecoded placed (payloadLoop node passes i d f b) ↔
      ShortPayloads placed ∧ Repeats last (payloadAddresses sender placed) := by
  induction placed generalizing passes i d f b last with
  | nil =>
    have hnone : payloadLoop node passes i d f b = [] := by
      cases passes with
      | zero => rfl
      | succ passes =>
        have hend : obRemaining b = some 0 := hb.remaining
        rw [payloadLoop, if_pos (.inr hend)]
    rw [hnone]
    exact iff_of_true List.Forall₂.nil ⟨forall_mem_nil _, trivial⟩
  | cons q placed ih =>
    obtain ⟨hq, hsen⟩ := hplc q mem_cons_self
    cases passes with
    | zero => cases hps
    | succ passes =>
      have hwire : Rests b (q.wire sender .overlay ++ wires sender .overlay placed) := hb
      obtain ⟨p, hprs, hrdy, hloop⟩ := overlay_pass node (f := f) (i := i) passes hq hd hwire rfl
      have hfst := record_decoded_iff hq hsen h hprs (wires sender .overlay placed) rfl
      have hspl : Repeats last (payloadAddresses sender (q :: placed)) ↔
          Repeats last (q.addresses sender) ∧
            Repeats (lastOf last (q.addresses sender)) (payloadAddresses sender placed) :=
        repeats_append
      rw [hloop, AllDecoded, forall₂_cons, hfst, hspl, ShortPayloads, forall_mem_cons]
      -- the rest of the packet is only in step when the first frame was
      have hrest : q.outgoing.frame.payload.length < 65536 ∧ Repeats last (q.addresses sender) →
          (AllDecoded placed (payloadLoop node passes (i + 1) p.decoder p.frame
              (b.advance ((q.outgoing.header sender q.encoder).length + 2 +
                q.outgoing.frame.payload.length % 65536))) ↔
            ShortPayloads placed ∧
              Repeats (lastOf last (q.addresses sender)) (payloadAddresses sender placed)) := by
        rintro ⟨hsht, hrep⟩
        have htr :=
          (takeAll_tracked hq.opened hq.complete (blank f) (tracks_flags false false h)).2 hrep
        apply ih passes (i + 1) p.frame (Nat.le_of_succ_le_succ hps)
          (fun q hmem => hplc q (mem_cons_of_mem _ hmem)) hrdy
        · rw [Nat.mod_eq_of_lt hsht, ← overlay_wire_length]
          exact hwire.advance
        rw [hprs.decoder]
        exact htr
      constructor
      · rintro ⟨hhead, htail⟩
        obtain ⟨hsht, hrep⟩ := (hrest hhead).mp htail
        exact ⟨⟨hhead.1, hsht⟩, hhead.2, hrep⟩
      rintro ⟨⟨hhead, hsht⟩, hfst, hrep⟩
      exact ⟨⟨hhead, hfst⟩, (hrest ⟨hhead, hfst⟩).mpr ⟨hsht, hrep⟩⟩

theorem envelope_device (enc : Encapsulation) (hrcv : Receives sender version node)
    (hsome : (linkEnd sender version).isSome) :
    (envelopeDecoder node version enc).context.pointToPointDevice =
      some sender.mySubscriber := by
  obtain ⟨-, hpoint, hoth⟩ := hrcv.link hsome
  simp [envelopeDecoder, hpoint, hoth]

theorem heard_known (hrcv : Receives sender p.packetVersion node)
    (hkn : KnownAnswer node 0 ⟨p.senderCode sender full, sender.mySubscriber⟩) :
    answer node (envelopeDecoder node p.packetVersion p.encapsulation) (p.senderCode sender full) =
      some sender.mySubscriber := by
  obtain ⟨hprev, hself⟩ := senderCode_first sender p full
  exact answer_coded (a := ⟨_, _⟩) (addressCode_coded _ rfl (fun _ => rfl))
    (fun hsome => (hrcv.link hsome).1) (envelope_device _ hrcv)
    (fun hcode => absurd hcode hself) hkn hprev

/-- The receiver takes the packet and knows its sender. -/
theorem decoder_tracks (hrcv : Receives sender p.packetVersion node)
    (hkn : Known node 0 (allAddresses p sender full placed))
    (hcod : ∀ a ∈ payloadAddresses sender placed, Coded sender p.packetVersion a) :
    ∃ d, p.decoder node sender full = some d ∧
      Tracks sender p.packetVersion node sender.mySubscriber d (payloadAddresses sender placed) := by
  have htkn : ¬(node.isSelf sender.mySubscriber = true ∨ node.duplicatePacket = true) := by
    simp [hrcv.other, hrcv.fresh]
  simp only [Packet.decoder, Packet.heard, take, heard_known hrcv hkn.1, Decoder.settle,
    envelopeSender, if_neg htkn]
  split
  · exact ⟨_, rfl, rfl, fun _ => rfl, fun hsome => (hrcv.link hsome).1, rfl, hkn.2, hcod⟩
  exact ⟨_, rfl, rfl, envelope_device p.encapsulation hrcv, fun hsome => (hrcv.link hsome).1, rfl,
    hkn.2, hcod⟩

theorem placed_length_le (sender : Sender) (encapsulation : Encapsulation) (placed : List Placed) :
    placed.length ≤ (wires sender encapsulation placed).length := by
  induction placed with
  | nil => exact le_rfl
  | cons q placed ih =>
    have hone : 1 ≤ (q.wire sender encapsulation).length := by
      simp only [Placed.wire, Outgoing.wire, Outgoing.header, length_append, length_singleton]
      omega
    have hwires : wires sender encapsulation (q :: placed) =
      q.wire sender encapsulation ++ wires sender encapsulation placed := rfl
    rw [hwires, length_append, length_cons]
    omega

/-! ## The frames that find room -/

/-- The frames that are placed in `room` bytes. One that does not find room is left out, but its
addresses have gone through the encoder. -/
def fitting (sender : Sender) (encapsulation : Encapsulation) :
    Encoder → Nat → List Outgoing → List Placed
  | _, _, [] => []
  | e, room, o :: rest =>
    if o.frame.ttl > ttlMax then fitting sender encapsulation e room rest
    else if (o.wire sender encapsulation e).length ≤ room then
      ⟨o, e⟩ :: fitting sender encapsulation (o.encoder sender e)
        (room - (o.wire sender encapsulation e).length) rest
    else fitting sender encapsulation (o.encoder sender e) room rest

/-- The frames of a packet that find room behind its header. -/
def fits (p : Packet) (sender : Sender) (sendFull : Sid → Bool) : List Placed :=
  fitting sender p.encapsulation (p.encoder sender sendFull)
    (p.mtu - (p.envelope sender sendFull).length) p.outgoing

/-- A frame is left out exactly if its ttl is too large or its bytes do not fit. -/
theorem appendAll_fitting (hb : Writable b) (hlim : b.sizeLimit ≠ sizeMax) (hin : b.position ≤ b.sizeLimit)
    (h : appendAll sender enc e b out = some (placed, b')) :
    placed = fitting sender enc e (b.sizeLimit - b.position) out := by
  induction out generalizing e b placed with
  | nil => cases h; rfl
  | cons o rest ih =>
    obtain ⟨⟨ok, e1, b1⟩, h1, h⟩ := bind_eq_some_iff.mp h
    obtain ⟨⟨placed', b2⟩, h2, h⟩ := bind_eq_some_iff.mp h
    cases h
    obtain ⟨hb1, hin1, happ⟩ := append_inv hb hlim hin h1
    have hrest := ih hb1 (by rw [appending_sizeLimit happ]; exact hlim) hin1 h2
    rw [fitting]
    cases happ with
    | refused _ httl hsame =>
      rw [if_pos httl, ← hsame.sizeLimit, ← hsame.position]
      exact hrest
    | overran _ httl _ hroom hsame =>
      have hlong : ¬(o.wire sender enc e).length ≤ b.sizeLimit - b.position := by omega
      rw [if_neg (UInt8.not_lt.mpr httl), if_neg hlong, ← hsame.sizeLimit, ← hsame.position]
      exact hrest
    | placed _ httl _ _ hpos hsize =>
      have hshort : (o.wire sender enc e).length ≤ b.sizeLimit - b.position := by omega
      rw [if_neg (UInt8.not_lt.mpr httl), if_pos hshort, Nat.sub_sub, ← hpos, ← hsize, ← hrest]
      rfl

theorem transmit_fits (h : p.transmit sender full = some t) : t.placed = fits p sender full := by
  obtain ⟨⟨e, b⟩, hst, h⟩ := bind_eq_some_iff.mp h
  split at h
  · cases h
  next hfits =>
  obtain ⟨⟨placed, b'⟩, happ, rfl⟩ := map_eq_some_iff.mp h
  obtain ⟨-, rfl, hb, hsize, hin, hcon⟩ := start_inv hst (by simpa using hfits)
  have hpos : b.position = (p.envelope sender full).length := by
    have hinside := hb.own.inside hin
    rw [← hcon, content, length_take]
    exact (Nat.min_eq_left hinside).symm
  rw [fits, ← hsize, ← hpos]
  exact appendAll_fitting hb (hsize ▸ ne_sizeMax p.mtu_lt) hin happ

theorem fitting_mem (e : Encoder) (room : Nat) (out : List Outgoing) :
    ∀ q ∈ fitting sender enc e room out, q.outgoing ∈ out := by
  fun_induction fitting sender enc e room out with
  | case1 => exact forall_mem_nil _
  | case2 _ _ _ _ _ ih | case4 _ _ _ _ _ _ ih => exact fun q hq => mem_cons_of_mem _ (ih q hq)
  | case3 _ _ _ _ _ _ ih =>
    exact forall_mem_cons.mpr ⟨mem_cons_self, fun q hq => mem_cons_of_mem _ (ih q hq)⟩

/-- The encoder always knows the last address. -/
theorem codeAll_repeats (ids : List Sid) (h : e.context.previous = some last) :
    Repeats last (codeAll sender e ids).1 ∧
      (codeAll sender e ids).2.context.previous = some (lastOf last (codeAll sender e ids).1) := by
  induction ids generalizing e last with
  | nil => exact ⟨trivial, h⟩
  | cons s ids ih =>
    have hnext : (e.after s (addressCode sender e s)).context.previous = some s := rfl
    refine ⟨⟨fun hcode => ?_, (ih hnext).1⟩, (ih hnext).2⟩
    simp only [addressCode] at hcode
    split_ifs at hcode with _ _ _ hprev
    exact Option.some.inj (h.symm.trans hprev)

theorem fitting_length (e : Encoder) (room : Nat) (out : List Outgoing) :
    (fitting sender enc e room out).length ≤ out.length := by
  fun_induction fitting sender enc e room out with
  | case1 => exact le_rfl
  | case3 _ _ _ _ _ _ ih => exact Nat.succ_le_succ ih
  | case2 _ _ _ _ _ ih | case4 _ _ _ _ _ _ ih => exact Nat.le_succ_of_le ih

/-- Without a frame that is left out, the encoder is where the packet is. -/
theorem fitting_repeats (h : e.context.previous = some last)
    (hall : (fitting sender enc e room out).length = out.length) :
    Repeats last (payloadAddresses sender (fitting sender enc e room out)) := by
  fun_induction fitting sender enc e room out generalizing last with
  | case1 => trivial
  | case3 e _ o _ _ _ ih =>
    have hcoded : Repeats last (codeAll sender e (o.ids e)).1 ∧ _ := codeAll_repeats _ h
    exact repeats_append.mpr ⟨hcoded.1, ih hcoded.2 (Nat.succ.inj hall)⟩
  | case2 | case4 => exact absurd hall (Nat.ne_of_lt (Nat.lt_succ_of_le (fitting_length ..)))

/-- The address that the encoder takes for the one before is the one before in the packet. -/
def Renewed (sender : Sender) (e : Encoder) (last : Sid) : List Sid → Prop
  | [] => True
  | s :: _ => e.context.previous = some s → s ≠ sender.mySubscriber →
      e.context.pointToPointDevice ≠ some s → last = s

/-- Every frame that finds room in `room` bytes has a length of 16 bits and starts with an address that
is renewed. `last` is the last address in the packet. -/
def Unbroken (sender : Sender) : Sid → Encoder → Nat → List Outgoing → Prop
  | _, _, _, [] => True
  | last, e, room, o :: rest =>
    if o.frame.ttl > ttlMax then Unbroken sender last e room rest
    else if (o.wire sender .overlay e).length ≤ room then
      o.frame.payload.length < 65536 ∧ Renewed sender e last (o.ids e) ∧
        Unbroken sender ((o.ids e).getLastD last) (o.encoder sender e)
          (room - (o.wire sender .overlay e).length) rest
    else Unbroken sender last (o.encoder sender e) room rest

theorem lastOf_codeAll (e : Encoder) (ids : List Sid) (last : Sid) :
    lastOf last (codeAll sender e ids).1 = ids.getLastD last := by
  induction ids generalizing e last with
  | nil => rfl
  | cons s ids ih => rw [getLastD_cons, ← ih (e.after s (addressCode sender e s)) s]; rfl

theorem repeats_iff (hopn : Opened sender version e) (ids : List Sid) :
    Repeats last (codeAll sender e ids).1 ↔ Renewed sender e last ids := by
  cases ids with
  | nil => rfl
  | cons s ids =>
    have hrest : Repeats s (codeAll sender (e.after s (addressCode sender e s)) ids).1 :=
      (codeAll_repeats ids rfl).1
    have hcode : addressCode sender e s = .previous ↔ e.context.previous = some s ∧
        s ≠ sender.mySubscriber ∧ e.context.pointToPointDevice ≠ some s := by
      have hself : some sender.mySubscriber = some s ↔ s = sender.mySubscriber := by
        rw [some.injEq, eq_comm]
      simp only [addressCode, hopn.named, hself]
      split_ifs <;> simp_all
    rw [codeAll, Repeats, hcode, Renewed]
    simp only [hrest, and_true, and_imp]

/-- The condition on the frames that find room, as one on the frames that are offered. -/
theorem unbroken_iff (hopn : Opened sender version e) (last : Sid) (room : Nat) (out : List Outgoing) :
    Unbroken sender last e room out ↔ ShortPayloads (fitting sender .overlay e room out) ∧
      Repeats last (payloadAddresses sender (fitting sender .overlay e room out)) := by
  induction out generalizing last e room with
  | nil => exact iff_of_true trivial ⟨forall_mem_nil _, trivial⟩
  | cons o rest ih =>
    rw [Unbroken, fitting]
    split_ifs with httl hfits
    · exact ih hopn last room
    · have haddr : payloadAddresses sender (⟨o, e⟩ :: fitting sender .overlay (o.encoder sender e)
          (room - (o.wire sender .overlay e).length) rest) = (codeAll sender e (o.ids e)).1 ++
            payloadAddresses sender (fitting sender .overlay (o.encoder sender e)
              (room - (o.wire sender .overlay e).length) rest) := rfl
      have hrest : Opened sender version (o.encoder sender e) := codeAll_opened hopn
      rw [haddr, repeats_append, repeats_iff hopn, lastOf_codeAll, ShortPayloads, forall_mem_cons, ih hrest,
        ShortPayloads]
      exact ⟨fun ⟨hlen, hfst, hall, hrep⟩ => ⟨⟨hlen, hall⟩, hfst, hrep⟩,
        fun ⟨⟨hlen, hall⟩, hfst, hrep⟩ => ⟨hlen, hfst, hall, hrep⟩⟩
    · exact ih (codeAll_opened hopn) last room

/-- All frames are decoded exactly if their lengths fit and no address is repeated wrongly. -/
theorem decoded_iff (h : p.transmit sender full = some t) (hovl : p.encapsulation = .overlay)
    (hfrms : ∀ o ∈ p.outgoing, Sendable o) (hrcv : Receives sender p.packetVersion node)
    (hkn : Known node 0 (allAddresses p sender full t.placed)) :
    AllDecoded t.placed (packetOkOverlay node t.bytes) ↔ ShortPayloads t.placed ∧
      Repeats sender.mySubscriber (payloadAddresses sender t.placed) := by
  have hhold := transmit_holding h
  obtain ⟨d, hd, htr⟩ := decoder_tracks hrcv hkn (payloads_coded hhold.written)
  rcases packet_parsed node hhold with ⟨hnone, -⟩ | ⟨d', b, hd', hrdy, hb, hloop⟩
  · cases hd.symm.trans hnone
  cases hd.symm.trans hd'
  rw [hovl] at hrdy hb
  rw [hloop]
  apply loop_decoded_iff _ _ _ _ _ hrdy hb htr
  · have hle := placed_length_le sender .overlay t.placed
    rw [hhold.bytes, hovl, length_append]
    omega
  intro q hq
  exact ⟨hhold.written q hq, hfrms _ (fitting_mem _ _ _ q (transmit_fits h ▸ hq))⟩

/-- **Exactly the frames that fit are put into an overlay packet, and they come out of it if and only
if** their lengths fit into 16 bits and each of them starts with an address that is renewed; and a frame
that is left out leaves the packet as it was. -/
theorem frames_round_trip_iff (p : Packet) (sender : Sender) (sendFull : Sid → Bool) (node : Node)
    (hoverlay : p.encapsulation = .overlay) (hversion : p.packetVersion ≤ supportedVersion)
    (hroom : (p.envelope sender sendFull).length ≤ p.mtu) (hframes : ∀ o ∈ p.outgoing, Sendable o)
    (hreceives : Receives sender p.packetVersion node)
    (hknown : Known node 0 (allAddresses p sender sendFull (fits p sender sendFull))) :
    (∃ t, p.transmit sender sendFull = some t ∧ t.placed = fits p sender sendFull ∧
      (AllDecoded t.placed (packetOkOverlay node t.bytes) ↔
        Unbroken sender sender.mySubscriber (p.encoder sender sendFull)
          (p.mtu - (p.envelope sender sendFull).length) p.outgoing)) ∧
      ∀ (e : Encoder) (b : Buffer) (o : Outgoing) (e' : Encoder) (b' : Buffer),
        Building p sender sendFull e b →
        overlayFrameAppendPayload sender p.encapsulation e b o.frame o.nextHop o.willRetransmit =
          some (false, e', b') → Unchanged b b' := by
  refine ⟨?_, fun e b o e' b' hbui h => left_out_unchanged (o := o) hbui h⟩
  obtain ⟨t, ht⟩ := transmit_some hversion hroom hframes
  have hfits := transmit_fits ht
  refine ⟨t, ht, hfits, (decoded_iff ht hoverlay hframes hreceives (hfits ▸ hknown)).trans ?_⟩
  have hopn : Opened sender p.packetVersion (p.encoder sender sendFull) := ⟨rfl, rfl⟩
  rw [unbroken_iff hopn, ← hoverlay, ← fits, ← hfits]

/-! ## A frame that does not fit -/

theorem sendable_iff : Sendable o ↔ o.frame.source.isSome ∧ 1 ≤ o.frame.ttl ∧ o.frame.ttl ≤ ttlMax ∧
      o.frame.type < 256 ∧
      (o.frame.destination = none → o.frame.ttl = 1 ∨ o.frame.broadcastId ≠ .zero) ∧
      (o.frame.destination.isSome → o.oneHop = false → o.nextHop.isSome) :=
  ⟨fun h => ⟨h.source, h.ttl_pos, h.ttl_le, h.type_lt, h.broadcast, h.nextHop⟩,
    fun ⟨h1, h2, h3, h4, h5, h6⟩ => ⟨h1, h2, h3, h4, h5, h6⟩⟩

instance (o : Outgoing) : Decidable (Sendable o) := decidable_of_iff' _ sendable_iff

theorem receives_neighbour : Receives relay 1 (neighbour known) :=
  ⟨show (sidOf 1 == sidOf 3) = false by decide, rfl, fun hsome => absurd hsome (by decide)⟩

theorem mixed_mtu_lt : 1200 < 2 ^ 31 := by decide

def mixed : Packet where
  packetVersion := 1
  encapsulation := .overlay
  unicast := false
  interface := 2
  seq := none
  mtu := 1200
  outgoing := [broadcastOf (sidOf 2) [5, 6],
    ⟨⟨5, flagSigned, 9, 3, 300, some (sidOf 2), some (sidOf 5), .zero, 1, [7]⟩, some (sidOf 3), true⟩,
    ⟨⟨typeData, 0, 4, 2, 301, some (sidOf 1), none, ⟨[1, 2, 3, 4, 5, 6, 7, 8], rfl⟩, 1, []⟩, none, false⟩]
  mtu_lt := mixed_mtu_lt
  version_eq := by decide

theorem mixed_sent : (mixed.transmit relay noneFull).isSome := by decide +kernel

theorem frames_round_trip_three : let t := (mixed.transmit relay noneFull).get mixed_sent
    t.placed.length = 3 ∧
      AllDecoded t.placed (packetOkOverlay (neighbour [sidOf 1, sidOf 2, sidOf 3, sidOf 5]) t.bytes) := by
  have hsent := (some_get mixed_sent).symm
  obtain ⟨⟨t, ht, -, hiff⟩, -⟩ := frames_round_trip_iff mixed relay noneFull
    (neighbour [sidOf 1, sidOf 2, sidOf 3, sidOf 5]) rfl (by decide) (by decide +kernel)
    (by decide +kernel) receives_neighbour (by decide +kernel)
  cases hsent.symm.trans ht
  have hopn : Opened relay 1 (mixed.encoder relay noneFull) := ⟨rfl, rfl⟩
  exact ⟨by decide +kernel, hiff.mpr ((unbroken_iff hopn _ _ _).mpr (by decide +kernel))⟩

theorem decoded_sources (h : AllDecoded placed received) :
    received.map (·.frame.source) = placed.map (·.outgoing.frame.source) := by
  induction h with
  | nil => rfl
  | cons hfst _ ih => rw [map_cons, map_cons, hfst.addresses.source, ih]

def tight : Packet where
  packetVersion := 1
  encapsulation := .overlay
  unicast := false
  interface := 0
  seq := none
  mtu := 40
  outgoing := [broadcastOf (sidOf 2) (List.replicate 30 0), broadcastOf (sidOf 2) [6]]
  mtu_lt := by decide
  version_eq := by decide

theorem tight_sent : (tight.transmit relay noneFull).isSome := by decide +kernel

/-- The second frame refers to an address that is not in the packet, and is received as
a frame of the relay. -/
theorem left_out_frame_misleads : ∃ t, tight.transmit relay noneFull = some t ∧
      (∀ o ∈ tight.outgoing, Sendable o) ∧
      Known (neighbour [sidOf 1, sidOf 2]) 0 (allAddresses tight relay noneFull t.placed) ∧
      t.placed.map (·.outgoing) = [broadcastOf (sidOf 2) [6]] ∧
      (packetOkOverlay (neighbour [sidOf 1, sidOf 2]) t.bytes).map
        (fun r => (r.accepted, r.frame.source, r.frame.payload)) = [(true, some (sidOf 1), [6])] ∧
      ¬AllDecoded t.placed (packetOkOverlay (neighbour [sidOf 1, sidOf 2]) t.bytes) := by
  refine ⟨_, (some_get tight_sent).symm, by decide +kernel, by decide +kernel,
    by decide +kernel, by decide +kernel, ?_⟩
  intro hdec
  exact absurd (decoded_sources hdec) (by decide +kernel)

end FrameCodec
