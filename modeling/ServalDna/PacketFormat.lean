import ServalDna.BufferReads
import ServalDna.BufferWrites
import ServalDna.OverlayPacket

/-!
# The bytes of an overlay packet

What the writers of headers put into a buffer, and what the parsers make of it.
The bytes do not depend on the tables of the nodes, except for the choice of the
address codes; and the parsers take the same bytes whether they know an address
or not.
-/
namespace PacketFormat

open ByteFlags OverlayBuffer BufferReads BufferWrites OverlayPacket List
open SubscriberTrie (Sid sidSize)
open Option hiding sequence

/-! ## Address codes -/

def codeBytes : Code → List UInt8
  | .p2pYou => [codeP2pYou]
  | .p2pMe => [codeP2pMe]
  | .self => [codeSelf]
  | .previous => [codePrevious]
  | .abbreviation id => UInt8.ofNat id.length :: id

/-- An address in a packet, and the subscriber it stands for. -/
structure Address where
  code : Code
  subscriber : Sid
  deriving DecidableEq

def codeAll (sender : Sender) : Encoder → List Sid → List Address × Encoder
  | e, [] => ([], e)
  | e, s :: rest =>
    let code := addressCode sender e s
    let r := codeAll sender (e.after s code) rest
    (⟨code, s⟩ :: r.1, r.2)

def addressBytes (addresses : List Address) : List UInt8 := addresses.flatMap (codeBytes ·.code)

@[simp] theorem addressBytes_nil : addressBytes [] = [] := rfl
@[simp] theorem addressBytes_cons :
    addressBytes (a :: rest) = codeBytes a.code ++ addressBytes rest := rfl

def CodeValid : Code → Prop
  | .abbreviation id => 0 < id.length ∧ id.length ≤ sidSize
  | _ => True

theorem abbreviationLen_bounds (sender : Sender) (e : Encoder) (s : Sid) :
    0 < abbreviationLen sender e s ∧ abbreviationLen sender e s ≤ sidSize := by
  have hsize : sidSize = 32 := rfl
  unfold abbreviationLen
  split
  · omega
  simp only
  split <;> split <;> omega

theorem addressCode_valid (sender : Sender) (e : Encoder) (s : Sid) :
    CodeValid (addressCode sender e s) := by
  have hlen := abbreviationLen_bounds sender e s
  fun_cases addressCode with
  | case5 =>
    simp only [CodeValid, length_take, s.length_eq]
    omega
  | _ => trivial

/-- A buffer of the sender: it has memory of its own. -/
structure Writable (b : Buffer) : Prop where
  own : Own b
  allocated : b.memory = .allocated

variable {b : Buffer}

theorem Writable.after (h : Writable b) (hb : Appended b xs b') :
    Writable b' := ⟨hb.own, hb.allocated h.allocated⟩

theorem append_writable (h : Writable b) (xs : List UInt8) :
    ∃ b', b.append xs = some b' ∧ Appended b xs b' := by
  apply append_own h.own
  intro hnull
  rw [h.allocated] at hnull
  cases hnull

theorem byte_append (h : Writable b) (x : UInt8) :
    ∃ b', obAppendByte b x = some b' ∧ Appended b [x] b' := append_writable h [x]

theorem address_append (h : Writable b) (sender : Sender) (e : Encoder) (s : Sid) :
    ∃ b', overlayAddressAppend sender e b s = some (e.after s (addressCode sender e s), b') ∧
      Appended b (codeBytes (addressCode sender e s)) b' := by
  have hvd := addressCode_valid sender e s
  rw [overlayAddressAppend]
  generalize addressCode sender e s = code at hvd ⊢
  cases code with
  | abbreviation id =>
    obtain ⟨c, hbyte, happ⟩ := byte_append h (UInt8.ofNat id.length)
    obtain ⟨b', hb', hrest⟩ := append_writable (h.after happ) id
    have hne : ¬id = [] := length_pos_iff.mp hvd.1
    refine ⟨b', ?_, happ.trans hrest⟩
    simp only [hbyte, bind_some, obAppendBytes, if_neg hne, hb', bind_eq_bind]
  | p2pYou | p2pMe | self | previous =>
    exact (byte_append h _).imp fun b' hb => ⟨by simp [hb.1], hb.2⟩

/-! ## Payloads as they are sent -/

/-- A frame with the arguments it is appended with. -/
structure Outgoing where
  frame : Frame
  nextHop : Option Sid
  willRetransmit : Bool
  deriving DecidableEq

def Outgoing.oneHop (o : Outgoing) : Bool :=
  (o.frame.ttl == 1 && (frameBroadcast o.frame).isNone) ||
    (o.frame.destination.isSome && o.frame.destination == o.nextHop)

def Outgoing.flags (o : Outgoing) (e : Encoder) : UInt8 :=
  payloadFlags e o.frame (frameBroadcast o.frame) o.nextHop o.willRetransmit

def Outgoing.senderSame (o : Outgoing) (e : Encoder) : Bool := o.frame.source == e.context.sender

/-- The source, if its address is written. -/
def Outgoing.sourceIds (o : Outgoing) (e : Encoder) : List Sid :=
  if o.senderSame e then [] else o.frame.source.toList

/-- The destination and the next hop, if their addresses are written. -/
def Outgoing.targetIds (o : Outgoing) : List Sid :=
  match o.frame.destination with
  | none => []
  | some d => d :: if o.oneHop then [] else o.nextHop.toList

def Outgoing.ids (o : Outgoing) (e : Encoder) : List Sid := o.sourceIds e ++ o.targetIds

section Ids

variable (o : Outgoing)

theorem Outgoing.sourceIds_same (h : o.senderSame e = true) : o.sourceIds e = [] := if_pos h

theorem Outgoing.sourceIds_other (h : o.senderSame e = false) (hs : o.frame.source = some s) :
    o.sourceIds e = [s] := by
  rw [sourceIds, h, hs]
  rfl

theorem Outgoing.targetIds_broadcast (h : o.frame.destination = none) : o.targetIds = [] := by
  rw [targetIds, h]

theorem Outgoing.targetIds_oneHop (hd : o.frame.destination = some d) (hhop : o.oneHop = true) :
    o.targetIds = [d] := by
  simp only [targetIds, hd, hhop, if_pos]

theorem Outgoing.targetIds_hop (hd : o.frame.destination = some d) (hhop : o.oneHop = false)
    (hn : o.nextHop = some n) : o.targetIds = [d, n] := by
  simp only [targetIds, hd, hhop, hn]
  rfl

end Ids

def Outgoing.addresses (o : Outgoing) (sender : Sender) (e : Encoder) : List Address :=
  (codeAll sender e (o.ids e)).1

def Outgoing.encoder (o : Outgoing) (sender : Sender) (e : Encoder) : Encoder :=
  (codeAll sender e (o.ids e)).2

def Outgoing.broadcastBytes (o : Outgoing) : List UInt8 :=
  if o.frame.destination.isNone ∧ o.oneHop = false then o.frame.broadcastId.id else []

def Outgoing.ttlBytes (o : Outgoing) : List UInt8 :=
  if !o.oneHop then [o.frame.ttl ||| ((o.frame.queue &&& 3) <<< 5)] else []

def Outgoing.typeBytes (o : Outgoing) : List UInt8 :=
  if o.frame.type != typeData then [UInt8.ofNat o.frame.type] else []

def Outgoing.sequenceByte (o : Outgoing) : UInt8 := UInt8.ofNat (o.frame.mdpSequence % 256).toNat

def Outgoing.sequenceBytes (o : Outgoing) : List UInt8 :=
  if o.frame.packetVersion ≥ 1 then [o.sequenceByte] else []

def Outgoing.header (o : Outgoing) (sender : Sender) (e : Encoder) : List UInt8 :=
  [o.flags e] ++ addressBytes (codeAll sender e (o.sourceIds e)).1 ++ o.broadcastBytes ++
    addressBytes (codeAll sender (codeAll sender e (o.sourceIds e)).2 o.targetIds).1 ++
    o.ttlBytes ++ o.typeBytes ++ o.sequenceBytes

def Outgoing.lengthBytes (o : Outgoing) (encapsulation : Encapsulation) : List UInt8 :=
  if encapsulation = .overlay then
    [(UInt16.ofNat o.frame.payload.length >>> 8).toUInt8, (UInt16.ofNat o.frame.payload.length).toUInt8]
  else []

def Outgoing.wire (o : Outgoing) (sender : Sender) (encapsulation : Encapsulation) (e : Encoder) :
    List UInt8 :=
  o.header sender e ++ o.lengthBytes encapsulation ++ o.frame.payload

/-- The pointers that are followed are not null. -/
structure Outgoing.Complete (o : Outgoing) (e : Encoder) : Prop where
  source : o.senderSame e = false → o.frame.source.isSome
  broadcast : o.frame.destination = none → o.oneHop = false → frameBroadcast o.frame = some o.frame.broadcastId
  nextHop : o.frame.destination.isSome → o.oneHop = false → o.nextHop.isSome

theorem codeAll_append (sender : Sender) (e : Encoder) (xs ys : List Sid) : codeAll sender e (xs ++ ys) =
      ((codeAll sender e xs).1 ++ (codeAll sender (codeAll sender e xs).2 ys).1,
        (codeAll sender (codeAll sender e xs).2 ys).2) := by
  induction xs generalizing e with
  | nil => rfl
  | cons s xs ih =>
    simp only [cons_append, codeAll, ih]

section Flags

variable (o : Outgoing) (e : Encoder)

/-- A flag that is not a modifier is set by its own condition or by none. -/
theorem hasFlag_flags (h : (flagCiphered ||| flagSigned) &&& flag = 0) : hasFlag (o.flags e) flag =
      (o.willRetransmit && hasFlag flagAckSoon flag || o.oneHop && hasFlag flagOneHop flag ||
        o.senderSame e && hasFlag flagSenderSame flag ||
        o.frame.destination.isNone && hasFlag flagToBroadcast flag ||
        (o.frame.type != typeData) && hasFlag flagLegacyType flag) := by
  simp [Outgoing.flags, payloadFlags, hasFlag_or, hasFlag_mask _ _ _ h, hasFlag_flagIf, Outgoing.senderSame, Outgoing.oneHop]

/-- Among the flags with a condition each one tells its own. -/
theorem conditions_apart : ∀ ack hop same broadcast legacy : Bool,
    let has := fun flag => ack && hasFlag flagAckSoon flag || hop && hasFlag flagOneHop flag ||
      same && hasFlag flagSenderSame flag || broadcast && hasFlag flagToBroadcast flag ||
      legacy && hasFlag flagLegacyType flag
    has flagSenderSame = same ∧ has flagToBroadcast = broadcast ∧ has flagOneHop = hop ∧
      has flagLegacyType = legacy := by
  decide

@[simp] theorem flags_senderSame : hasFlag (o.flags e) flagSenderSame = o.senderSame e := by
  rw [hasFlag_flags o e (by decide)]
  exact (conditions_apart _ _ _ _ _).1

@[simp] theorem flags_toBroadcast :
    hasFlag (o.flags e) flagToBroadcast = o.frame.destination.isNone := by
  rw [hasFlag_flags o e (by decide)]
  exact (conditions_apart _ _ _ _ _).2.1

@[simp] theorem flags_oneHop : hasFlag (o.flags e) flagOneHop = o.oneHop := by
  rw [hasFlag_flags o e (by decide)]
  exact (conditions_apart _ _ _ _ _).2.2.1

@[simp] theorem flags_legacyType : hasFlag (o.flags e) flagLegacyType = (o.frame.type != typeData) := by
  rw [hasFlag_flags o e (by decide)]
  exact (conditions_apart _ _ _ _ _).2.2.2

end Flags

/-! ## Writing a payload -/

variable {o : Outgoing}

section Written

variable (hb : Writable b)

include hb

theorem appendKnown_inv (h : appendKnown sender e b s = some (e', b')) :
    s.isSome ∧ e' = (codeAll sender e s.toList).2 ∧
      Appended b (addressBytes (codeAll sender e s.toList).1) b' := by
  cases s with
  | none => cases h
  | some s =>
    obtain ⟨c, hc, happ⟩ := address_append hb sender e s
    rw [appendKnown, bind_some, hc] at h
    cases h
    refine ⟨rfl, rfl, ?_⟩
    simpa [codeAll] using happ

theorem byteIf_inv {cond : Bool} {x : UInt8} (h : appendByteIf cond b x = some b') :
    Appended b (if cond then [x] else []) b' := by
  rw [appendByteIf] at h
  cases cond with
  | true =>
    obtain ⟨c, hbyte, happ⟩ := byte_append hb x
    rw [if_pos rfl, hbyte] at h
    cases h
    exact happ
  | false =>
    cases h
    exact Appended.refl hb.own

theorem byte_inv {x : UInt8} (h : obAppendByte b x = some b') : Appended b [x] b' :=
  @byteIf_inv b hb b' true x h

theorem source_inv (h : appendSource sender e b o.frame (o.flags e) = some (e', b')) :
    (o.senderSame e = false → o.frame.source.isSome) ∧ e' = (codeAll sender e (o.sourceIds e)).2 ∧
      Appended b (addressBytes (codeAll sender e (o.sourceIds e)).1) b' := by
  rw [appendSource, flags_senderSame] at h
  rw [Outgoing.sourceIds]
  cases hsame : o.senderSame e with
  | true =>
    rw [hsame, if_pos rfl] at h
    cases h
    exact ⟨nofun, rfl, Appended.refl hb.own⟩
  | false =>
    rw [hsame, if_neg Bool.false_ne_true] at h
    obtain ⟨hsome, he, happ⟩ := appendKnown_inv hb h
    exact ⟨fun _ => hsome, he, happ⟩

/-- What `overlay_frame_build_header` has done when it returns. -/
structure Built (sender : Sender) (o : Outgoing) (e : Encoder) (b : Buffer) (e' : Encoder)
    (b' : Buffer) : Prop where
  ttl : o.frame.ttl ≤ ttlMax
  complete : o.Complete e
  encoder : e' = o.encoder sender e
  appended : Appended b (o.header sender e) b'

omit hb in
theorem broadcast_ne_nil (broadcast : Broadcast) : broadcast.id ≠ [] :=
  ne_nil_of_length_pos (by rw [broadcast.length_eq]; decide)

theorem broadcast_inv (hbc : frameBroadcast o.frame = some broadcast)
    (h : obAppendBytes b broadcast.id = some b') :
    broadcast = o.frame.broadcastId ∧ Appended b o.frame.broadcastId.id b' := by
  have hid : broadcast = o.frame.broadcastId := by
    unfold frameBroadcast at hbc
    split at hbc <;> cases hbc
    rfl
  subst hid
  obtain ⟨c, hc, happ⟩ := append_writable hb o.frame.broadcastId.id
  rw [obAppendBytes, if_neg (broadcast_ne_nil _), hc] at h
  cases h
  exact ⟨rfl, happ⟩

/-- What `appendTarget` has done when it returns. -/
structure Targeted (sender : Sender) (o : Outgoing) (e : Encoder) (b : Buffer) (e' : Encoder)
    (b' : Buffer) : Prop where
  broadcast : o.frame.destination = none → o.oneHop = false →
    frameBroadcast o.frame = some o.frame.broadcastId
  nextHop : o.frame.destination.isSome → o.oneHop = false → o.nextHop.isSome
  encoder : e' = (codeAll sender e o.targetIds).2
  appended : Appended b (o.broadcastBytes ++ addressBytes (codeAll sender e o.targetIds).1) b'

variable
    (h : appendTarget sender e b o.frame (frameBroadcast o.frame) o.nextHop (o.flags e0) = some (e', b'))

include h

theorem broadcastTarget_inv (hdest : o.frame.destination = none) : Targeted sender o e b e' b' := by
  have hids := o.targetIds_broadcast hdest
  rw [appendTarget, flags_toBroadcast, flags_oneHop, hdest, isNone_none, if_pos rfl] at h
  cases hhop : o.oneHop with
  | true =>
    rw [hhop, if_pos rfl] at h
    cases h
    constructor
    · simp [hhop]
    · simp [hdest]
    · rw [hids]
      rfl
    · simpa [Outgoing.broadcastBytes, hhop, hids, codeAll] using Appended.refl hb.own
  | false =>
    rw [hhop, if_neg Bool.false_ne_true] at h
    obtain ⟨broadcast, hbc, h⟩ := bind_eq_some_iff.mp h
    obtain ⟨c, hc, ⟨⟩⟩ := map_eq_some_iff.mp h
    obtain ⟨rfl, happ⟩ := broadcast_inv hb hbc hc
    constructor
    · intro _ _
      exact hbc
    · simp [hdest]
    · rw [hids]
      rfl
    · simpa [Outgoing.broadcastBytes, hhop, hdest, hids, codeAll] using happ

theorem directedTarget_inv (hdest : o.frame.destination = some d) : Targeted sender o e b e' b' := by
  rw [appendTarget, flags_toBroadcast, flags_oneHop, hdest, isNone_some, if_neg Bool.false_ne_true] at h
  obtain ⟨r, hd, h⟩ := bind_eq_some_iff.mp h
  obtain ⟨-, he, happ⟩ := appendKnown_inv hb hd
  cases hhop : o.oneHop with
  | true =>
    rw [hhop, if_pos rfl] at h
    cases h
    have hids := o.targetIds_oneHop hdest hhop
    constructor
    · simp [hdest]
    · simp [hhop]
    · rw [hids]
      exact he
    simp only [Outgoing.broadcastBytes, hdest, hids]
    exact happ
  | false =>
    rw [hhop, if_neg Bool.false_ne_true] at h
    obtain ⟨hnext, he', happ'⟩ := appendKnown_inv (hb.after happ) h
    obtain ⟨n, hn⟩ := isSome_iff_exists.mp hnext
    have hids : o.targetIds = [d] ++ [n] := o.targetIds_hop hdest hhop hn
    rw [he, hn] at he' happ'
    constructor
    · simp [hdest]
    · intro _ _
      exact hnext
    · rw [hids, codeAll_append]
      exact he'
    simp only [Outgoing.broadcastBytes, hdest, hids, codeAll_append]
    simpa [addressBytes] using happ.trans happ'

theorem target_inv : Targeted sender o e b e' b' := by
  cases hdest : o.frame.destination with
  | none => exact broadcastTarget_inv hb h hdest
  | some d => exact directedTarget_inv hb h hdest

omit h

theorem build_inv {ok : Bool}
    (h : overlayFrameBuildHeader sender e b o.frame (frameBroadcast o.frame) o.nextHop o.willRetransmit = some (ok, e', b')) :
    (ok = false ∧ o.frame.ttl > ttlMax ∧ e' = e ∧ b' = b) ∨ (ok = true ∧ Built sender o e b e' b') := by
  rw [overlayFrameBuildHeader] at h
  by_cases httl : o.frame.ttl > ttlMax
  · rw [if_pos httl] at h
    cases h
    exact .inl ⟨rfl, httl, rfl, rfl⟩
  rw [if_neg httl] at h
  obtain ⟨b1, h1, h⟩ := bind_eq_some_iff.mp h
  obtain ⟨⟨e2, b2⟩, h2, h⟩ := bind_eq_some_iff.mp h
  obtain ⟨⟨e3, b3⟩, h3, h⟩ := bind_eq_some_iff.mp h
  obtain ⟨b4, h4, h⟩ := bind_eq_some_iff.mp h
  obtain ⟨b5, h5, h⟩ := bind_eq_some_iff.mp h
  obtain ⟨b6, h6, ⟨⟩⟩ := bind_eq_some_iff.mp h
  have a1 : Appended b [o.flags e] b1 := byte_inv hb h1
  have w1 := hb.after a1
  obtain ⟨hsrc, rfl, a2⟩ := source_inv w1 h2
  have w2 := w1.after a2
  have ht := target_inv w2 h3
  have w3 := w2.after ht.appended
  have a4 := byteIf_inv w3 h4
  have w4 := w3.after a4
  have a5 := byteIf_inv w4 h5
  have a6 := byteIf_inv (w4.after a5) h6
  refine .inr ⟨rfl, ?_⟩
  constructor
  · exact UInt8.not_lt.mp httl
  · exact ⟨hsrc, ht.broadcast, ht.nextHop⟩
  · rw [ht.encoder, Outgoing.encoder, Outgoing.ids, codeAll_append]
  have hall := ((((a1.trans a2).trans ht.appended).trans a4).trans a5).trans a6
  change Appended b (_ ++ (if !hasFlag (o.flags e) flagOneHop then _ else _) ++
    (if hasFlag (o.flags e) flagLegacyType then _ else _) ++ _) _ at hall
  rw [flags_oneHop, flags_legacyType] at hall
  simpa only [Outgoing.header, Outgoing.ttlBytes, Outgoing.typeBytes, Outgoing.sequenceBytes,
    Outgoing.sequenceByte, append_assoc, decide_eq_true_eq] using hall

theorem payload_inv (h : appendPayloadBytes enc b o.frame.payload = some b') :
    Appended b (o.lengthBytes enc ++ o.frame.payload) b' := by
  obtain ⟨b1, h1, h⟩ := bind_eq_some_iff.mp h
  have a1 : Appended b (o.lengthBytes enc) b1 := by
    cases enc with
    | overlay =>
      obtain ⟨c, hc, happ⟩ := append_writable hb (o.lengthBytes .overlay)
      have hui16 : obAppendUi16 b (UInt16.ofNat o.frame.payload.length) = some c := hc
      rw [appendLength, if_pos rfl, hui16] at h1
      cases h1
      exact happ
    | single =>
      cases h1
      exact Appended.refl hb.own
  have a2 : Appended b1 o.frame.payload b' := by
    obtain ⟨c, hc, happ⟩ := append_writable (hb.after a1) o.frame.payload
    split at h
    · next hnil =>
      cases h
      rw [hnil]
      exact Appended.refl a1.own
    next hne =>
    rw [obAppendBytes, if_neg hne, hc] at h
    cases h
    exact happ
  exact a1.trans a2

end Written

/-- The buffer holds the same bytes and writes go on from the same place. -/
structure Unchanged (b b' : Buffer) : Prop where
  content : content b' = content b
  position : b'.position = b.position
  sizeLimit : b'.sizeLimit = b.sizeLimit

/-- Whether a payload of a buffer overruns the limit. -/
theorem overrun_iff (hb : Own b) (hlim : b.sizeLimit ≠ sizeMax) :
    obOverrun b = true ↔ b.sizeLimit < b.position := by
  have hins := hb.inside
  simp only [obOverrun, hlim, ne_eq, not_false_eq_true, true_and, gt_iff_lt, decide_eq_true_eq]
  split
  · exact Iff.rfl
  constructor <;> omega

theorem writable_checkpoint (hb : Writable b) : Writable (obCheckpoint b) :=
  ⟨⟨hb.own.memory, hb.own.inside⟩, hb.allocated⟩

/-- What a call of `overlay_frame_append_payload` does when it returns: the frame is
refused for its ttl, or its bytes are appended, or they do not fit. -/
inductive Appending (sender : Sender) (encapsulation : Encapsulation) (o : Outgoing) (e : Encoder)
    (b : Buffer) : Bool → Encoder → Buffer → Prop where
  | refused (b' : Buffer) (ttl : o.frame.ttl > ttlMax) (unchanged : Unchanged b b') :
      Appending sender encapsulation o e b false e b'
  | placed (b' : Buffer) (ttl : o.frame.ttl ≤ ttlMax) (complete : o.Complete e)
      (content : content b' = content b ++ o.wire sender encapsulation e)
      (position : b'.position = b.position + (o.wire sender encapsulation e).length)
      (sizeLimit : b'.sizeLimit = b.sizeLimit) :
      Appending sender encapsulation o e b true (o.encoder sender e) b'
  | overran (b' : Buffer) (ttl : o.frame.ttl ≤ ttlMax) (complete : o.Complete e)
      (room : b.sizeLimit < b.position + (o.wire sender encapsulation e).length)
      (unchanged : Unchanged b b') :
      Appending sender encapsulation o e b false (o.encoder sender e) b'

/-- What a call of `overlay_frame_append_payload` can do. -/
theorem append_inv (hb : Writable b) (hlim : b.sizeLimit ≠ sizeMax) (hin : b.position ≤ b.sizeLimit)
    (h : overlayFrameAppendPayload sender enc e b o.frame o.nextHop o.willRetransmit =
      some (ok, e', b')) :
    Writable b' ∧ b'.position ≤ b'.sizeLimit ∧ Appending sender enc o e b ok e' b' := by
  rw [overlayFrameAppendPayload] at h
  have hc := writable_checkpoint hb
  split at h
  · cases h
  · next e1 b1 hbld =>
    cases h
    rcases build_inv hc hbld with ⟨-, httl, rfl, rfl⟩ | ⟨hf, -⟩
    · exact ⟨⟨⟨hb.own.memory, hb.own.inside⟩, hb.allocated⟩, hin, .refused _ httl ⟨rfl, rfl, rfl⟩⟩
    · cases hf
  next e1 b1 hbld =>
  obtain ⟨b2, hpl, hres⟩ := map_eq_some_iff.mp h
  rcases build_inv hc hbld with ⟨hf, -⟩ | ⟨-, hblt⟩
  · cases hf
  have a2 := payload_inv (hc.after hblt.appended) hpl
  have hall : Appended (obCheckpoint b) (o.wire sender enc e) b2 := by
    simpa only [Outgoing.wire, append_assoc] using hblt.appended.trans a2
  have hw := hc.after hall
  have hsl : b2.sizeLimit = b.sizeLimit := hall.sizeLimit
  have hpos : b2.position = b.position + (o.wire sender enc e).length := hall.position
  have hchk : b2.checkpointLength = b.position := hall.checkpoint
  rw [hblt.encoder] at hres
  by_cases hover : obOverrun b2 = true
  · rw [if_pos hover] at hres
    cases hres
    have hroom := (overrun_iff hw.own (by rw [hsl]; exact hlim)).mp hover
    have hkept : b2.bytes.take b.position = b.bytes.take b.position :=
      hall.kept b.position le_rfl hin
    have halc : b.position ≤ b2.allocSize := by
      have hlen := congrArg List.length hkept
      have hfull := hb.own.inside hin
      simp only [length_take] at hlen
      simp only [Buffer.allocSize] at hfull ⊢
      omega
    refine ⟨⟨⟨.inl hw.allocated, ?_⟩, hw.allocated⟩, ?_, ?_⟩
    · intro _
      simp only [obRewind, hchk]
      exact halc
    · simp only [obRewind, hchk, hsl]
      exact hin
    refine .overran _ hblt.ttl hblt.complete (by omega) ⟨?_, hchk, hsl⟩
    simp only [content, obRewind, hchk]
    exact hkept
  rw [if_neg hover] at hres
  cases hres
  have hroom := mt (overrun_iff hw.own (by rw [hsl]; exact hlim)).mpr hover
  have hfits : b'.position ≤ b.sizeLimit := by omega
  exact ⟨hw, by omega, .placed _ hblt.ttl hblt.complete (hall.written hfits) hpos hsl⟩

/-! ## Parsing addresses -/

def answer (node : Node) (d : Decoder) : Code → Option Sid
  | .p2pYou => d.context.pointToPointDevice.map fun _ => node.mySubscriber
  | .p2pMe => d.context.pointToPointDevice
  | .self => d.context.sender
  | .previous => d.context.previous
  | .abbreviation id => node.find d.lookups id

/-- The number of lookups that a code needs. -/
def lookupsOf : Code → Nat
  | .abbreviation _ => 1
  | _ => 0

def fallback (subscriber : Option Sid) : Code → Option Sid
  | .abbreviation _ => none
  | _ => subscriber

/-- The pointer and the decoder after a code. -/
def take (node : Node) (d : Decoder) (code : Code) (subscriber : Option Sid) : Option Sid × Decoder :=
  { d with lookups := d.lookups + lookupsOf code }.settle (fallback subscriber code) (answer node d code)

theorem abbreviation_not_code {id : List UInt8} (h : id.length ≤ sidSize) :
    (UInt8.ofNat id.length).toNat = id.length ∧ UInt8.ofNat id.length ≠ codeP2pYou ∧
      UInt8.ofNat id.length ≠ codeP2pMe ∧ UInt8.ofNat id.length ≠ codeSelf ∧
      UInt8.ofNat id.length ≠ codePrevious := by
  have hsize : sidSize = 32 := rfl
  have hall : ∀ n : Fin 33, (UInt8.ofNat n.val).toNat = n.val ∧ UInt8.ofNat n.val ≠ codeP2pYou ∧
      UInt8.ofNat n.val ≠ codeP2pMe ∧ UInt8.ofNat n.val ≠ codeSelf ∧
      UInt8.ofNat n.val ≠ codePrevious := by
    decide
  exact hall ⟨id.length, by omega⟩

/-- An address is parsed to what its code stands for. -/
theorem parse_code (node : Node) (d : Decoder) {code : Code} (hcode : CodeValid code)
    (h : Holds b (codeBytes code ++ rest)) (subscriber : Option Sid) :
    overlayAddressParse node d b subscriber =
      some ((take node d code subscriber).1, (take node d code subscriber).2,
        b.advance (codeBytes code).length) := by
  cases code with
  | abbreviation id =>
    obtain ⟨hlen, hyou, hme, hself, hprev⟩ := abbreviation_not_code hcode.2
    have hcons : Holds b (UInt8.ofNat id.length :: (id ++ rest)) := h
    have hrest : Holds (b.advance 1) (id ++ rest) :=
      (show Holds b ([UInt8.ofNat id.length] ++ (id ++ rest)) from h).advance
    have hbs : obGetBytesPtr (b.advance 1) id.length = _ := hrest.obGetBytes
    have hrng : ¬(id.length = 0 ∨ id.length > sidSize) := by
      have hpos := hcode.1
      have hle := hcode.2
      omega
    have hsum : (b.advance 1).advance id.length = b.advance (codeBytes (.abbreviation id)).length := by
      simp only [Buffer.advance, codeBytes, length_cons]
      congr 1
      omega
    rw [overlayAddressParse, hcons.obGet]
    simp only [if_neg hyou, if_neg hme, if_neg hself, if_neg hprev, hlen]
    rw [findSubscrBuffer, if_neg hrng, hbs]
    simp only [hsum]
    rfl
  | p2pYou | p2pMe | self | previous =>
    have hget := (show Holds b (_ :: rest) from h).obGet
    rw [overlayAddressParse, hget]
    rfl

/-! ## Parsing a payload header -/

section Parsing

variable (node : Node) (sender : Sender) (o : Outgoing) (e : Encoder)

def takeSource (d : Decoder) (subscriber : Option Sid) : List Address → Option Sid × Decoder
  | [] => (d.context.sender, { d with context := { d.context with
      invalidAddress := d.context.invalidAddress || d.context.sender.isNone } })
  | a :: _ => take node d a.code subscriber

def takeTarget (d : Decoder) (subscriber : Option Sid) : List Address → Option Sid × Option Sid × Decoder
  | [] => (none, none, d)
  | [a] => ((take node d a.code subscriber).1, none, (take node d a.code subscriber).2)
  | a :: c :: _ =>
    let r := take node d a.code subscriber
    (r.1, (take node r.2 c.code none).1, (take node r.2 c.code none).2)

theorem parseSource_spec (hcom : o.senderSame e = false → o.frame.source.isSome)
    (h : Holds p.buffer (addressBytes (codeAll sender e (o.sourceIds e)).1 ++ rest)) :
    let taken := takeSource node p.decoder p.frame.source (codeAll sender e (o.sourceIds e)).1
    ∃ q, parseSource node (o.flags e) p = some q ∧ q.decoder = taken.2 ∧
      q.buffer = p.buffer.advance (addressBytes (codeAll sender e (o.sourceIds e)).1).length ∧
      q.frame = { p.frame with source := taken.1 } ∧ q.nextHop = p.nextHop ∧
      q.sequence = p.sequence := by
  rw [parseSource, flags_senderSame]
  cases hsame : o.senderSame e with
  | true =>
    rw [if_pos rfl, o.sourceIds_same hsame]
    exact ⟨_, rfl, rfl, rfl, rfl, rfl, rfl⟩
  | false =>
    obtain ⟨s, hs⟩ := isSome_iff_exists.mp (hcom hsame)
    rw [o.sourceIds_other hsame hs] at h ⊢
    have hcode : Holds p.buffer (codeBytes (addressCode sender e s) ++ rest) := by
      simpa [codeAll] using h
    rw [if_neg Bool.false_ne_true,
      parse_code node p.decoder (addressCode_valid sender e s) hcode p.frame.source]
    simp only [codeAll, takeSource, addressBytes_cons, addressBytes_nil, append_nil]
    exact ⟨_, rfl, rfl, rfl, rfl, rfl, rfl⟩

theorem parseBroadcast_spec (hdest : o.frame.destination = none)
    (h : Holds p.buffer (o.broadcastBytes ++ rest)) :
    ∃ process forward, parseBroadcast node i (o.flags e) p = some { p with
        buffer := p.buffer.advance o.broadcastBytes.length
        frame := { p.frame with
          broadcastId := if o.oneHop then p.frame.broadcastId else o.frame.broadcastId
          destination := none }
        process := process
        forward := forward } := by
  rw [parseBroadcast, flags_oneHop]
  cases hhop : o.oneHop with
  | true =>
    have hbs : o.broadcastBytes = [] := by simp [Outgoing.broadcastBytes, hhop]
    rw [if_pos rfl, hbs]
    exact ⟨p.process, p.forward, rfl⟩
  | false =>
    have hbs : o.broadcastBytes = o.frame.broadcastId.id := by
      simp [Outgoing.broadcastBytes, hhop, hdest]
    have hlen := o.frame.broadcastId.length_eq
    rw [hbs] at h ⊢
    have hget := h.obGetBytes
    rw [hlen] at hget
    rw [if_neg Bool.false_ne_true, hget]
    simp only [hlen, dif_pos, if_neg Bool.false_ne_true]
    exact ⟨_, _, rfl⟩

theorem parseDestination_spec (hdest : o.frame.destination.isSome)
    (hnext : o.oneHop = false → o.nextHop.isSome) (hnone : p.nextHop = none)
    (h : Holds p.buffer (addressBytes (codeAll sender e' o.targetIds).1 ++ rest)) :
    let taken := takeTarget node p.decoder p.frame.destination (codeAll sender e' o.targetIds).1
    ∃ process forward, parseDestination node (o.flags e) p = some { p with
        decoder := taken.2.2
        buffer := p.buffer.advance (addressBytes (codeAll sender e' o.targetIds).1).length
        frame := { p.frame with destination := taken.1 }
        nextHop := taken.2.1
        process := process
        forward := forward } := by
  obtain ⟨t, ht⟩ := isSome_iff_exists.mp hdest
  cases hhop : o.oneHop with
  | true =>
    rw [o.targetIds_oneHop ht hhop] at h ⊢
    have hcode : Holds p.buffer (codeBytes (addressCode sender e' t) ++ rest) := by
      simpa [codeAll] using h
    rw [parseDestination,
      parse_code node p.decoder (addressCode_valid sender e' t) hcode p.frame.destination]
    simp only [parseNextHop, flags_oneHop, hhop, if_pos, codeAll, takeTarget, addressBytes_cons,
      addressBytes_nil, append_nil, hnone]
    exact ⟨_, _, rfl⟩
  | false =>
    obtain ⟨n, hn⟩ := isSome_iff_exists.mp (hnext hhop)
    rw [o.targetIds_hop ht hhop hn] at h ⊢
    have hcode : Holds p.buffer (codeBytes (addressCode sender e' t) ++
        (codeBytes (addressCode sender (e'.after t (addressCode sender e' t)) n) ++ rest)) := by
      simpa [codeAll] using h
    rw [parseDestination,
      parse_code node p.decoder (addressCode_valid sender e' t) hcode p.frame.destination]
    simp only [parseNextHop, flags_oneHop, hhop, if_neg Bool.false_ne_true]
    rw [parse_code node _ (addressCode_valid sender _ n) hcode.advance p.nextHop]
    simp only [codeAll, takeTarget, addressBytes_cons, addressBytes_nil, append_nil, hnone,
      Buffer.advance, length_append, add_assoc]
    exact ⟨_, _, rfl⟩

def Outgoing.ttlLeft (o : Outgoing) : UInt8 :=
  let ttl : UInt8 := if o.oneHop then 1 else (o.frame.ttl ||| ((o.frame.queue &&& 3) <<< 5)) &&& 0x1F
  if ttl ≠ 0 then ttl - 1 else 0

theorem parseTtl_spec (h : Holds p.buffer (o.ttlBytes ++ rest)) :
    ∃ q queue, parseTtl (o.flags e) p = some q ∧ q.decoder = p.decoder ∧
      q.buffer = p.buffer.advance o.ttlBytes.length ∧
      q.frame = { p.frame with ttl := o.ttlLeft, queue := queue } ∧ q.nextHop = p.nextHop ∧
      q.sequence = p.sequence := by
  rw [parseTtl, flags_oneHop, Outgoing.ttlLeft]
  cases hhop : o.oneHop with
  | true =>
    have hbs : o.ttlBytes = [] := by simp [Outgoing.ttlBytes, hhop]
    rw [if_pos rfl, hbs]
    exact ⟨_, p.frame.queue, rfl, rfl, rfl, rfl, rfl, rfl⟩
  | false =>
    have hbs : o.ttlBytes = [o.frame.ttl ||| ((o.frame.queue &&& 3) <<< 5)] := by
      simp [Outgoing.ttlBytes, hhop]
    rw [hbs] at h ⊢
    rw [if_neg Bool.false_ne_true, h.obGet]
    exact ⟨_, _, rfl, rfl, rfl, rfl, rfl, rfl⟩

theorem parseType_spec (h : Holds p.buffer (o.typeBytes ++ rest)) : parseType (o.flags e) p =
      some { p with
        buffer := p.buffer.advance o.typeBytes.length
        frame := { p.frame with
          type := if o.frame.type ≠ typeData then o.frame.type % 256 else typeData } } := by
  rw [parseType, flags_legacyType]
  by_cases htype : o.frame.type = typeData
  · have hne : (o.frame.type != typeData) = false := by simp [htype]
    have hbs : o.typeBytes = [] := by simp [Outgoing.typeBytes, htype]
    rw [hne, if_neg Bool.false_ne_true, hbs, if_neg (not_not.mpr htype)]
    rfl
  have hne : (o.frame.type != typeData) = true := by simp [htype]
  have hbs : o.typeBytes = [UInt8.ofNat o.frame.type] := by simp [Outgoing.typeBytes, htype]
  rw [hbs] at h ⊢
  rw [hne, if_pos rfl, h.obGet, if_pos htype]
  simp only [UInt8.toNat_ofNat']
  rfl

theorem parseSequence_spec (hver : p.decoder.context.packetVersion = o.frame.packetVersion)
    (hnone : p.sequence = none) (h : Holds p.buffer (o.sequenceBytes ++ rest)) :
    ∃ q, parseSequence node i p = some q ∧ q.decoder = p.decoder ∧
      q.buffer = p.buffer.advance o.sequenceBytes.length ∧ q.frame = p.frame ∧
      q.nextHop = p.nextHop ∧
      q.sequence = if o.frame.packetVersion ≥ 1 then some o.sequenceByte else none := by
  rw [parseSequence, hver]
  by_cases hone : o.frame.packetVersion ≥ 1
  · have hbs : o.sequenceBytes = [o.sequenceByte] := by simp [Outgoing.sequenceBytes, hone]
    rw [hbs] at h ⊢
    rw [if_pos hone, if_pos hone, h.obGet]
    exact ⟨_, rfl, rfl, rfl, rfl, rfl, rfl⟩
  have hbs : o.sequenceBytes = [] := by simp [Outgoing.sequenceBytes, hone]
  rw [if_neg hone, if_neg hone, hbs]
  exact ⟨p, rfl, rfl, rfl, rfl, rfl, hnone⟩

variable (d : Decoder)

/-- The decoder after a payload header. -/
structure SameFormat (d d' : Decoder) : Prop where
  packetVersion : d'.context.packetVersion = d.context.packetVersion
  encapsulation : d'.context.encapsulation = d.context.encapsulation

theorem SameFormat.trans {d d' d'' : Decoder} (h : SameFormat d d') (h' : SameFormat d' d'') :
    SameFormat d d'' :=
  ⟨h'.packetVersion.trans h.packetVersion, h'.encapsulation.trans h.encapsulation⟩

theorem take_format (code : Code) (subscriber : Option Sid) :
    SameFormat d (take node d code subscriber).2 := by
  rw [take]
  cases answer node d code <;> exact ⟨rfl, rfl⟩

theorem takeSource_format (subscriber : Option Sid) (ads : List Address) :
    SameFormat d (takeSource node d subscriber ads).2 := by
  cases ads with
  | nil => exact ⟨rfl, rfl⟩
  | cons a rest => exact take_format node d a.code subscriber

theorem takeTarget_format (subscriber : Option Sid) (ads : List Address) :
    SameFormat d (takeTarget node d subscriber ads).2.2 := by
  cases ads with
  | nil => exact ⟨rfl, rfl⟩
  | cons a rest =>
    have ha := take_format node d a.code subscriber
    cases rest with
    | nil => exact ha
    | cons c rest => exact ha.trans (take_format node _ c.code none)

/-- The addresses of a payload as the receiver takes them, and its decoder after them. -/
structure Taken where
  source : Option Sid
  destination : Option Sid
  nextHop : Option Sid
  decoder : Decoder

def takeAll (d : Decoder) (f : Frame) : Taken :=
  let sources := codeAll sender e (o.sourceIds e)
  let source := takeSource node d f.source sources.1
  let target := takeTarget node source.2 f.destination (codeAll sender sources.2 o.targetIds).1
  ⟨source.1, target.1, target.2.1, target.2.2⟩

/-- What `parseMdpPacketHeader` makes of a header. -/
structure HeaderParsed (d : Decoder) (f : Frame) (b : Buffer) (p : Parse) : Prop where
  buffer : p.buffer = b.advance (o.header sender e).length
  decoder : p.decoder = (takeAll node sender o e d f).decoder
  source : p.frame.source = (takeAll node sender o e d f).source
  destination : p.frame.destination = (takeAll node sender o e d f).destination
  nextHop : p.nextHop = (takeAll node sender o e d f).nextHop
  accepted : (p.process || p.forward) = true → p.decoder.context.invalidAddress = false
  broadcastId : p.frame.broadcastId =
    if o.frame.destination.isNone && !o.oneHop then o.frame.broadcastId else f.broadcastId
  ttl : p.frame.ttl = o.ttlLeft
  type : p.frame.type = if o.frame.type ≠ typeData then o.frame.type % 256 else typeData
  modifiers : p.frame.modifiers = o.flags e
  sequence : p.sequence = if o.frame.packetVersion ≥ 1 then some o.sequenceByte else none

/-- The source is taken before the destination is looked at. -/
theorem target_parsed (hcom : o.Complete e) (hnone : p.nextHop = none)
    (h : Holds p.buffer (o.broadcastBytes ++ addressBytes (codeAll sender e' o.targetIds).1 ++ rest)) :
    let taken := takeTarget node p.decoder p.frame.destination (codeAll sender e' o.targetIds).1
    ∃ q, parseTarget node i (o.flags e) p = some q ∧ q.decoder = taken.2.2 ∧
      q.buffer = p.buffer.advance (o.broadcastBytes ++
        addressBytes (codeAll sender e' o.targetIds).1).length ∧
      q.frame = { p.frame with
        broadcastId := if o.frame.destination.isNone && !o.oneHop then o.frame.broadcastId
          else p.frame.broadcastId
        destination := taken.1 } ∧
      q.nextHop = taken.2.1 ∧ q.sequence = p.sequence := by
  rw [parseTarget, flags_toBroadcast]
  cases hdest : o.frame.destination with
  | none =>
    rw [o.targetIds_broadcast hdest] at h ⊢
    simp only [codeAll, addressBytes_nil, append_nil, takeTarget] at h ⊢
    obtain ⟨process, fwd, hpar⟩ := parseBroadcast_spec node o e hdest h
    rw [isNone_none, if_pos rfl, hpar]
    refine ⟨_, rfl, rfl, rfl, ?_, hnone, rfl⟩
    cases o.oneHop <;> rfl
  | some t =>
    have hbs : o.broadcastBytes = [] := by simp [Outgoing.broadcastBytes, hdest]
    have hsome : o.frame.destination.isSome := by
      rw [hdest]
      rfl
    rw [hbs, nil_append] at h ⊢
    obtain ⟨process, fwd, hpar⟩ := parseDestination_spec node sender o e hsome
      (hcom.nextHop hsome) hnone h
    rw [isNone_some, if_neg Bool.false_ne_true, hpar]
    exact ⟨_, rfl, rfl, rfl, rfl, rfl, rfl⟩

theorem advance_advance (b : Buffer) (m n : Nat) : (b.advance m).advance n = b.advance (m + n) := by
  simp only [Buffer.advance, add_assoc]

/-- A header is parsed to what was written. -/
theorem parse_header {d : Decoder} (i : Nat) (hcom : o.Complete e)
    (hver : d.context.packetVersion = o.frame.packetVersion)
    (h : Holds b (o.header sender e ++ rest)) :
    ∃ p, parseMdpPacketHeader node i d f b = some p ∧ HeaderParsed node sender o e d f b p := by
  have hlen : (o.header sender e).length = 1 +
      (addressBytes (codeAll sender e (o.sourceIds e)).1).length + (o.broadcastBytes ++
        addressBytes (codeAll sender (codeAll sender e (o.sourceIds e)).2 o.targetIds).1).length +
      o.ttlBytes.length + o.typeBytes.length + o.sequenceBytes.length := by
    simp only [Outgoing.header, length_append, length_singleton]
    omega
  simp only [Outgoing.header, append_assoc] at h
  have hfl : obGet b = ⟨some (o.flags e), b.advance 1, [b.position]⟩ := Holds.obGet h
  have h1 : Holds (b.advance 1) _ := h.advance
  obtain ⟨p1, hp1, hdec1, hbuf1, hfr1, hnext1, hseq1⟩ := parseSource_spec node sender o e
    (p := ⟨d, b.advance 1, f, none, true, true, none⟩) hcom.source h1
  have h2 := h1.advance
  rw [← append_assoc, ← hbuf1] at h2
  obtain ⟨p2, hp2, hdec2, hbuf2, hfr2, hnext2, hseq2⟩ := target_parsed node sender o e
     hcom hnext1 h2
  have h3 := h2.advance
  rw [← hbuf2] at h3
  obtain ⟨p3, queue, hp3, hdec3, hbuf3, hfr3, hnext3, hseq3⟩ := parseTtl_spec o e h3
  have h4 := h3.advance
  rw [← hbuf3] at h4
  have hp4 := parseType_spec o e h4
  have h5 := h4.advance
  have hfmt := (takeSource_format node d f.source (codeAll sender e (o.sourceIds e)).1).trans
    (takeTarget_format node _ f.destination
      (codeAll sender (codeAll sender e (o.sourceIds e)).2 o.targetIds).1)
  have htkn : p3.decoder = (takeAll node sender o e d f).decoder := by
    rw [hdec3, hdec2, hdec1, hfr1]
    rfl
  obtain ⟨p5, hp5, hdec5, hbuf5, hfr5, hnext5, hseq5⟩ := parseSequence_spec node o (p := { p3 with
      buffer := p3.buffer.advance o.typeBytes.length
      frame := { p3.frame with
        type := if o.frame.type ≠ typeData then o.frame.type % 256 else typeData } })
    (by rw [← hver, ← hfmt.packetVersion]; exact congrArg (·.context.packetVersion) htkn)
    (hseq3.trans (hseq2.trans hseq1)) h5
  refine ⟨parseEnd (o.flags e) p5, ?_, ?_⟩
  · simp only [parseMdpPacketHeader, hfl, bind_eq_bind, bind_some]
    rw [hp1, bind_some, hp2, bind_some, hp3, bind_some, hp4, bind_some, hp5, bind_some]
  have hfr : p5.frame = { f with
      source := (takeAll node sender o e d f).source
      destination := (takeAll node sender o e d f).destination
      broadcastId := if o.frame.destination.isNone && !o.oneHop then o.frame.broadcastId
        else f.broadcastId
      ttl := o.ttlLeft
      queue := queue
      type := if o.frame.type ≠ typeData then o.frame.type % 256 else typeData } := by
    rw [hfr5, hfr3, hfr2, hdec1, hfr1]
    rfl
  refine ⟨?_, hdec5.trans htkn, ?_, ?_, ?_, ?_, ?_, ?_, ?_, rfl, hseq5⟩
  · rw [hlen]
    change p5.buffer = _
    rw [hbuf5, hbuf3, hbuf2, hbuf1]
    simp only [advance_advance]
  · exact congrArg (·.source) hfr
  · exact congrArg (·.destination) hfr
  · change p5.nextHop = _
    rw [hnext5, hnext3, hnext2, hdec1, hfr1]
    rfl
  · intro hacc
    simp only [parseEnd] at hacc ⊢
    cases hinv : p5.decoder.context.invalidAddress <;> simp_all
  · exact congrArg (·.broadcastId) hfr
  · exact congrArg (·.ttl) hfr
  · exact congrArg (·.type) hfr

end Parsing

end PacketFormat
