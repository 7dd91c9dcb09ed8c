import ServalDna.FrameCodec

/-!
# Relayed broadcasts

A node remembers the ids of the broadcasts it has seen in a table with one slot
for each hash value, and drops a payload whose id is still in its slot. What is
not dropped may be queued again for its own neighbours. The table starts with
all bytes zero, so a payload with an all zero id is dropped as long as its slot
has not been taken by another id; after that it is accepted and queued, and the
encoder takes its id for no id at all.
-/
namespace BroadcastRelay

open ByteFlags OverlayBuffer BufferWrites OverlayPacket PacketFormat PacketStream FrameCodec List
open AddressCompression (sidOf noneFull)
open SubscriberTrie (Sid)
open Option hiding sequence

/-! ## The table of broadcast ids -/

/-- `bpilist`. -/
abbrev Table := Nat → Broadcast

def Table.initial : Table := fun _ => .zero

def bpiIndex (addr : Broadcast) : Nat :=
  let index := addr.id.foldl
    (fun index byte => (((index <<< 3) &&& 0xfff8) + ((index >>> 13) &&& 0x7)) ^^^ byte.toNat) 0
  index &&& 0x3ff

@[simp] theorem bpiIndex_zero : bpiIndex .zero = 0 := by decide

def overlayBroadcastDropCheck (table : Table) (addr : Broadcast) : Bool × Table :=
  if table (bpiIndex addr) ≠ addr then (false, Function.update table (bpiIndex addr) addr)
  else (true, table)

variable {d : Decoder}

theorem dropCheck_zero (h : tab 0 = .zero) : (overlayBroadcastDropCheck tab .zero).1 = true := by
  simp [overlayBroadcastDropCheck, h]

/-! ## Packets with the table -/

def withTable (node : Node) (table : Table) : Node :=
  { node with dropBroadcast := fun _ addr => (overlayBroadcastDropCheck table addr).1 }

/-- The broadcast id that `parseMdpPacketHeader` looks up in the table. It does so
before it reads the rest of the header. -/
def checkedBroadcast (node : Node) (d : Decoder) (frame : Frame) (b : Buffer) : Option Broadcast := do
  let flags ← (obGet b).value
  let p ← parseSource node flags ⟨d, (obGet b).buffer, frame, none, true, true, none⟩
  if hasFlag flags flagToBroadcast ∧ hasFlag flags flagOneHop = false then
    let id ← (obGetBytes p.buffer broadcastLen).value
    if h : id.length = broadcastLen then some ⟨id, h⟩ else none
  else none

def record (table : Table) : Option Broadcast → Table
  | none => table
  | some addr => (overlayBroadcastDropCheck table addr).2

/-- What a node has parsed, the ids it has looked up, each with the table at that
moment, and the table at the end. -/
structure Outcome where
  received : List Received
  checks : List (Table × Broadcast)
  table : Table

/-- The loop of `packetOkOverlay`, as in `payloadLoop`, with the table passed on from
one payload to the next. -/
def relayLoop (node : Node) : Nat → Nat → Decoder → Frame → Buffer → Table → Outcome
  | 0, _, _, _, _, table => ⟨[], [], table⟩
  | passes + 1, i, d, f, b, table =>
    if obRemaining b = none ∨ obRemaining b = some 0 then ⟨[], [], table⟩
    else
      let d := { d with context := { d.context with encodingHeader := false, invalidAddress := false } }
      let f := { f with broadcastId := .zero }
      let checked := checkedBroadcast node d f b
      let here := checked.toList.map fun addr => (table, addr)
      let after := record table checked
      match parseMdpPacketHeader (withTable node table) i d f b with
      | none => ⟨[], here, after⟩
      | some p =>
        match payloadStart p.decoder.context.encapsulation p.buffer with
        | none => ⟨[], here, after⟩
        | some (len, b) =>
          let rest := relayLoop node passes (i + 1) p.decoder p.frame (b.advance len) after
          if p.process || p.forward then
            match obSlice b b.position len with
            | none => ⟨[], here, after⟩
            | some payload =>
              ⟨⟨{ p.frame with payload := payload.bytes }, p.nextHop, p.process, p.forward,
                p.sequence, len⟩ :: rest.received, here ++ rest.checks, rest.table⟩
          else
            ⟨⟨p.frame, p.nextHop, p.process, p.forward, p.sequence, len⟩ :: rest.received,
              here ++ rest.checks, rest.table⟩

def relayPacket (node : Node) (packet : List UInt8) (table : Table) : Outcome :=
  match (obLimitsize (obStatic packet) packet.length).bind (parseEnvelopeHeader node) with
  | none => ⟨[], [], table⟩
  | some (d, b) => relayLoop node packet.length 0 d .zero b table

/-- A sequence of packets. Between two of them the node may change in any way, apart
from the table. -/
def relayPackets : List (Node × List UInt8) → Table → Outcome
  | [], table => ⟨[], [], table⟩
  | (node, packet) :: packets, table =>
    let first := relayPacket node packet table
    let rest := relayPackets packets first.table
    ⟨first.received ++ rest.received, first.checks ++ rest.checks, rest.table⟩

/-! ### The same payloads as without the table -/

section Verdicts

variable (node : Node)

/-- From payload `i` on, the checks of two nodes agree. -/
def AgreeFrom (i : Nat) (verdict verdict' : Nat → Broadcast → Bool) : Prop :=
  ∀ j, i ≤ j → verdict j = verdict' j

theorem header_agree (h : verdict i = verdict' i) (f : Frame) (b : Buffer) :
    parseMdpPacketHeader { node with dropBroadcast := verdict } i d f b =
      parseMdpPacketHeader { node with dropBroadcast := verdict' } i d f b := by
  have htgt : ∀ flags p, parseTarget { node with dropBroadcast := verdict } i flags p =
      parseTarget { node with dropBroadcast := verdict' } i flags p := by
    intro flags p
    simp only [parseTarget, parseBroadcast, h]
    rfl
  simp only [parseMdpPacketHeader, htgt]
  rfl

theorem payloadLoop_agree (h : AgreeFrom i verdict verdict') (d : Decoder) (f : Frame) (b : Buffer) :
    payloadLoop { node with dropBroadcast := verdict } passes i d f b =
      payloadLoop { node with dropBroadcast := verdict' } passes i d f b := by
  induction passes generalizing i d f b with
  | zero => rfl
  | succ passes ih =>
    have hrest := fun d f b => ih (i := i + 1) (fun j hj => h j (by omega)) d f b
    simp [payloadLoop, header_agree node (h i (Nat.le_refl i)), hrest]

/-- The payloads parsed with the table are those of a node whose checks give the
table's answers. -/
theorem relayLoop_verdicts (i : Nat) (d : Decoder) (f : Frame) (b : Buffer) (tab : Table) :
    ∃ verdict, (relayLoop node passes i d f b tab).received =
      payloadLoop { node with dropBroadcast := verdict } passes i d f b := by
  induction passes generalizing i d f b tab with
  | zero => exact ⟨fun _ _ => false, rfl⟩
  | succ passes ih =>
    let d' := { d with context := { d.context with encodingHeader := false, invalidAddress := false } }
    let f' := { f with broadcastId := Broadcast.zero }
    let answer : Broadcast → Bool := fun addr => (overlayBroadcastDropCheck tab addr).1
    have hhdr (verdict : Nat → Broadcast → Bool) (h : verdict i = answer) :
        parseMdpPacketHeader { node with dropBroadcast := verdict } i d' f' b =
          parseMdpPacketHeader (withTable node tab) i d' f' b :=
      header_agree node h f' b
    simp only [relayLoop, payloadLoop]
    cases hp : parseMdpPacketHeader (withTable node tab) i d' f' b with
    | none =>
      refine ⟨fun _ => answer, ?_⟩
      rw [hhdr _ rfl, hp]
      split <;> rfl
    | some p =>
      cases hs : payloadStart p.decoder.context.encapsulation p.buffer with
      | none =>
        refine ⟨fun _ => answer, ?_⟩
        rw [hhdr _ rfl, hp]
        simp only [hs]
        split <;> rfl
      | some start =>
        obtain ⟨later, hlat⟩ := ih (i + 1) p.decoder p.frame (start.2.advance start.1)
          (record tab (checkedBroadcast node d' f' b))
        have hfrom : AgreeFrom (i + 1) later fun j => if j = i then answer else later j :=
          fun j hj => (if_neg (by omega)).symm
        have hrest := hlat.trans
          (payloadLoop_agree node hfrom p.decoder p.frame (start.2.advance start.1))
        refine ⟨fun j => if j = i then answer else later j, ?_⟩
        rw [hhdr _ (if_pos rfl), hp]
        simp only [hs]
        split
        · rfl
        split
        · cases hsli : obSlice start.2 start.2.position start.1 with
          | none => rfl
          | some pl => exact congrArg _ hrest
        · exact congrArg _ hrest

theorem relayPacket_verdicts : ∃ verdict, (relayPacket node packet tab).received =
      packetOkOverlay { node with dropBroadcast := verdict } packet := by
  change ∃ verdict, Outcome.received (match (obLimitsize (obStatic packet) packet.length).bind
      (parseEnvelopeHeader node) with | none => _ | some (d, b) => _) =
    match (obLimitsize (obStatic packet) packet.length).bind (parseEnvelopeHeader node) with
      | none => _ | some (d, b) => _
  cases (obLimitsize (obStatic packet) packet.length).bind (parseEnvelopeHeader node) with
  | none => exact ⟨fun _ _ => false, rfl⟩
  | some start => exact relayLoop_verdicts node 0 start.1 .zero start.2 tab

end Verdicts

/-! ## Payloads that are forwarded -/

/-- The header parsed so far has been understood, and the payload is to be forwarded. -/
structure Live (p : Parse) : Prop where
  forward : p.forward = true
  valid : p.decoder.context.invalidAddress = false

theorem settle_valid {subscriber answer : Option Sid}
    (h : (d.settle subscriber answer).2.context.invalidAddress = false) :
    d.context.invalidAddress = false ∧ (d.settle subscriber answer).1.isSome := by
  cases answer with
  | none => cases h
  | some s => exact ⟨h, rfl⟩

theorem addressParse_valid (h : overlayAddressParse node d b s = some (s', d', b'))
    (hvd : d'.context.invalidAddress = false) :
    d.context.invalidAddress = false ∧ s'.isSome := by
  unfold overlayAddressParse at h
  split at h
  · cases h
  simp only at h
  repeat' split at h
  · cases h
    exact settle_valid hvd
  · cases h
    exact settle_valid hvd
  · cases h
    exact settle_valid hvd
  · cases h
    exact settle_valid hvd
  unfold findSubscrBuffer at h
  split at h
  · cases h
  split at h <;> cases h
  exact settle_valid hvd

theorem parseSource_live (h : parseSource node flags p = some q) (hq : Live q) :
    q.frame.source.isSome := by
  unfold parseSource at h
  split at h
  · cases h
    have hvd := hq.valid
    cases hsnd : p.decoder.context.sender with
    | none => simp [hsnd] at hvd
    | some s => simp
  split at h
  · cases h
  next s d b hpar =>
  cases h
  exact (addressParse_valid hpar hq.valid).2

/-- A payload whose target is nobody in particular has had its id looked up, unless it
goes over one hop only. -/
theorem parseTarget_live (h : parseTarget node i flags p = some q) (hq : Live q) :
    Live p ∧ q.frame.source = p.frame.source ∧
      (q.frame.destination = none → hasFlag flags flagOneHop = false →
        hasFlag flags flagToBroadcast = true ∧
        ∃ id, ∃ hid : id.length = broadcastLen, (obGetBytes p.buffer broadcastLen).value = some id ∧
          node.dropBroadcast i ⟨id, hid⟩ = false ∧ q.frame.broadcastId = ⟨id, hid⟩) := by
  unfold parseTarget at h
  split at h
  · next hto =>
    unfold parseBroadcast at h
    split at h
    · next hhop =>
      cases h
      refine ⟨⟨hq.forward, hq.valid⟩, rfl, fun _ hf => ?_⟩
      rw [hhop] at hf
      cases hf
    simp only at h
    split at h
    · cases h
    next id hget =>
    split at h
    · next hid =>
      cases h
      have hfwd := hq.forward
      simp only [Bool.and_eq_true, Bool.not_eq_true'] at hfwd
      exact ⟨⟨hfwd.1.1, hq.valid⟩, rfl, fun _ _ => ⟨hto, id, hid, hget, hfwd.1.2, rfl⟩⟩
    · cases h
  unfold parseDestination at h
  split at h
  · cases h
  next dst d b hpar =>
  unfold parseNextHop at h
  split at h
  · cases h
    obtain ⟨hvd, hsome⟩ := addressParse_valid hpar hq.valid
    refine ⟨⟨hq.forward, hvd⟩, rfl, fun hnone => ?_⟩
    simp only at hnone
    rw [hnone] at hsome
    cases hsome
  split at h
  · cases h
  next nextHop d' b' hnext =>
  cases h
  have hfwd := hq.forward
  simp only [Bool.and_eq_true] at hfwd
  obtain ⟨hvd, -⟩ := addressParse_valid hnext hq.valid
  obtain ⟨hvd, hsome⟩ := addressParse_valid hpar hvd
  refine ⟨⟨hfwd.1, hvd⟩, rfl, fun hnone => ?_⟩
  simp only at hnone
  rw [hnone] at hsome
  cases hsome

/-- The parts of a frame that the queue leaves as they are. -/
structure SameTarget (f g : Frame) : Prop where
  source : g.source = f.source
  destination : g.destination = f.destination
  broadcastId : g.broadcastId = f.broadcastId

/-- The hops left after one more, of the five bits in a header. -/
theorem ttl_bounds (h : (if byte &&& 0x1F ≠ 0 then (byte &&& 0x1F) - 1 else 0) ≠ 0) :
    1 ≤ (if byte &&& 0x1F ≠ 0 then (byte &&& 0x1F) - 1 else 0) ∧
      (if byte &&& 0x1F ≠ 0 then (byte &&& 0x1F) - 1 else 0) ≤ ttlMax := by
  have hle : (byte &&& 0x1F).toNat ≤ 31 := by exact Nat.and_le_right
  generalize byte &&& 0x1F = ttl at h hle ⊢
  split at h
  · next hne =>
    have hpos : 1 ≤ ttl.toNat := Nat.pos_of_ne_zero fun h0 => hne (UInt8.toNat_inj.mp h0)
    have hsub : (ttl - 1).toNat = ttl.toNat - 1 :=
      UInt8.toNat_sub_of_le _ _ (UInt8.le_iff_toNat_le.mpr hpos)
    have hne' : (ttl - 1).toNat ≠ 0 := fun h0 => h (UInt8.toNat_inj.mp h0)
    rw [if_pos hne, UInt8.le_iff_toNat_le, UInt8.le_iff_toNat_le, hsub]
    change 1 ≤ ttl.toNat - 1 ∧ ttl.toNat - 1 ≤ 31
    omega
  · exact absurd rfl h

/-- A payload that goes over one hop only has no hop left. -/
theorem parseTtl_live (h : parseTtl flags p = some q) (hq : Live q) :
    Live p ∧ SameTarget p.frame q.frame ∧ hasFlag flags flagOneHop = false ∧
      1 ≤ q.frame.ttl ∧ q.frame.ttl ≤ ttlMax := by
  unfold parseTtl at h
  split at h
  · cases h
    have hfwd := hq.forward
    simp at hfwd
  next hhop =>
  split at h
  · cases h
  next ttlQos hget =>
  cases h
  have hfwd := hq.forward
  simp only [Bool.and_eq_true, bne_iff_ne] at hfwd
  exact ⟨⟨hfwd.1, hq.valid⟩, ⟨rfl, rfl, rfl⟩, by simpa using hhop, ttl_bounds hfwd.2⟩

theorem parseType_live (h : parseType flags p = some q) (hq : Live q) :
    Live p ∧ SameTarget p.frame q.frame ∧ q.frame.ttl = p.frame.ttl := by
  unfold parseType at h
  split at h
  · split at h <;> cases h
    exact ⟨⟨hq.forward, hq.valid⟩, ⟨rfl, rfl, rfl⟩, rfl⟩
  cases h
  exact ⟨⟨hq.forward, hq.valid⟩, ⟨rfl, rfl, rfl⟩, rfl⟩

theorem parseSequence_live (h : parseSequence node i p = some q) (hq : Live q) :
    Live p ∧ q.frame = p.frame := by
  unfold parseSequence at h
  split at h
  · split at h <;> cases h
    have hfwd := hq.forward
    simp only [Bool.and_eq_true] at hfwd
    exact ⟨⟨hfwd.1, hq.valid⟩, rfl⟩
  cases h
  exact ⟨hq, rfl⟩

/-- A payload that is forwarded: its source is known, it has hops left, and if it is a
broadcast its id has been looked up and was not in the table. -/
structure Forwardable (node : Node) (i : Nat) (checked : Option Broadcast) (f : Frame) : Prop where
  source : f.source.isSome
  ttl_pos : 1 ≤ f.ttl
  ttl_le : f.ttl ≤ ttlMax
  broadcast : f.destination = none →
    checked = some f.broadcastId ∧ node.dropBroadcast i f.broadcastId = false

theorem header_forward (h : parseMdpPacketHeader node i d f b = some p)
    (hfwd : p.forward = true) : Forwardable node i (checkedBroadcast node d f b) p.frame := by
  obtain ⟨flags, hfl, h⟩ := bind_eq_some_iff.mp h
  obtain ⟨p1, hsrc, h⟩ := bind_eq_some_iff.mp h
  obtain ⟨p2, htgt, h⟩ := bind_eq_some_iff.mp h
  obtain ⟨p3, httl, h⟩ := bind_eq_some_iff.mp h
  obtain ⟨p4, htype, h⟩ := bind_eq_some_iff.mp h
  obtain ⟨p5, hseq, ⟨⟩⟩ := bind_eq_some_iff.mp h
  simp only [parseEnd, Bool.and_eq_true, Bool.not_eq_true'] at hfwd
  obtain ⟨live4, hfr5⟩ := parseSequence_live hseq ⟨hfwd.1, hfwd.2⟩
  obtain ⟨live3, hsame4, httl4⟩ := parseType_live htype live4
  obtain ⟨live2, hsame3, hhop, hpos, hle⟩ := parseTtl_live httl live3
  obtain ⟨live1, hsrc2, hbc⟩ := parseTarget_live htgt live2
  have hkn := parseSource_live hsrc live1
  have hdst : p5.frame.destination = p2.frame.destination := by
    rw [hfr5, hsame4.destination, hsame3.destination]
  have hid : p5.frame.broadcastId = p2.frame.broadcastId := by
    rw [hfr5, hsame4.broadcastId, hsame3.broadcastId]
  constructor
  · change p5.frame.source.isSome
    rwa [hfr5, hsame4.source, hsame3.source, hsrc2]
  · change 1 ≤ p5.frame.ttl
    rwa [hfr5, httl4]
  · change p5.frame.ttl ≤ ttlMax
    rwa [hfr5, httl4]
  intro hnone
  change _ = some p5.frame.broadcastId ∧ node.dropBroadcast i p5.frame.broadcastId = false
  obtain ⟨hto, id, hlen, hget, hnew, hsaved⟩ := hbc (hdst ▸ hnone) hhop
  rw [hid, hsaved]
  refine ⟨?_, hnew⟩
  rw [checkedBroadcast, bind_eq_bind, hfl, bind_some, bind_eq_bind,
    hsrc, bind_some, if_pos ⟨hto, hhop⟩, bind_eq_bind, hget, bind_some,
    dif_pos hlen]

/-! ## Encoding a forwarded frame -/

/-- A forwarded frame when it is sent: the queue sets its version and its sequence
number, and chooses the next hop if there is a destination. -/
structure Queued (f : Frame) (o : Outgoing) : Prop where
  frame : ∃ version sequence, o.frame = { f with packetVersion := version, mdpSequence := sequence }
  nextHop : f.destination.isSome → o.nextHop.isSome

/-- However the frame is sent, `overlay_frame_append_payload` returns without having
passed on a null id, and what it writes has the id of a broadcast in its place. -/
def Encodes (f : Frame) : Prop :=
  ∀ o, Queued f o → ∀ (sender : Sender) (encapsulation : Encapsulation) (e : Encoder) (b : Buffer),
    Writable b → b.sizeLimit ≠ sizeMax → b.position ≤ b.sizeLimit →
    ∃ ok e' b', overlayFrameAppendPayload sender encapsulation e b o.frame o.nextHop
        o.willRetransmit = some (ok, e', b') ∧
      (ok = true → content b' = content b ++ o.wire sender encapsulation e) ∧
      (f.destination = none → o.broadcastBytes = f.broadcastId.id)

theorem forwardable_encodes (h : Forwardable node i checked f)
    (hid : f.destination = none → f.broadcastId ≠ .zero) : Encodes f := by
  intro o ho sender enc e b hb hlim hin
  obtain ⟨⟨version, sequence, hfr⟩, hnext⟩ := ho
  have hbc : f.destination = none → frameBroadcast o.frame = some f.broadcastId := by
    intro hnone
    rw [frameBroadcast, hfr, if_pos ⟨by simp [hnone], hid hnone⟩]
  have hhop : f.destination = none → o.oneHop = false := by
    intro hnone
    rw [Outgoing.oneHop, hbc hnone, hfr]
    simp [hnone]
  have hcom : o.Complete e := by
    constructor
    · intro _
      rw [hfr]
      exact h.source
    · intro hnone _
      rw [hfr] at hnone
      rw [hbc hnone, hfr]
    intro hsome _
    rw [hfr] at hsome
    exact hnext hsome
  have httl : o.frame.ttl ≤ ttlMax := by
    rw [hfr]
    exact h.ttl_le
  obtain ⟨⟨ok, e', b'⟩, hcall⟩ := append_some sender enc hb hcom httl
  refine ⟨ok, e', b', hcall, ?_, ?_⟩
  · rintro rfl
    obtain ⟨-, -, happ⟩ := append_inv hb hlim hin hcall
    cases happ with
    | placed _ _ _ hcon => exact hcon
  intro hnone
  rw [Outgoing.broadcastBytes, if_pos ⟨by rw [hfr, hnone]; rfl, hhop hnone⟩, hfr]

/-! ## All packets that are received -/

/-- Whenever an all zero id is looked up, its slot is still all zero. -/
def ZeroSlotFree (checks : List (Table × Broadcast)) : Prop :=
  ∀ c ∈ checks, c.2 = .zero → c.1 0 = .zero

theorem header_encodes
    (hfree : ZeroSlotFree ((checkedBroadcast node d f b).toList.map fun addr => (tab, addr)))
    (h : parseMdpPacketHeader (withTable node tab) i d f b = some p) (hfwd : p.forward = true)
    : Encodes { p.frame with payload := payload } := by
  have hfrom := header_forward h hfwd
  have hnon : p.frame.destination = none → p.frame.broadcastId ≠ .zero := by
    intro hnone hzero
    obtain ⟨hche, hnew⟩ := hfrom.broadcast hnone
    change checkedBroadcast node d f b = _ at hche
    have hslot : tab 0 = .zero := by
      refine hfree (tab, p.frame.broadcastId) ?_ hzero
      rw [hche]
      exact mem_singleton.mpr rfl
    change (overlayBroadcastDropCheck tab p.frame.broadcastId).1 = false at hnew
    rw [hzero, dropCheck_zero hslot] at hnew
    cases hnew
  exact forwardable_encodes (f := { p.frame with payload := payload }) { hfrom with } hnon

theorem relayLoop_encodes (hfree : ZeroSlotFree (relayLoop node ps i d f b tab).checks) :
    ∀ r ∈ (relayLoop node ps i d f b tab).received, r.forward = true → Encodes r.frame := by
  fun_induction relayLoop node ps i d f b tab with
  | case6 _ _ _ _ _ _ _ _ _ _ _ _ p hp _ _ _ _ _ _ _ ih =>
    have hhere := forall_mem_append.mp hfree
    exact forall_mem_cons.mpr ⟨header_encodes hhere.1 hp, ih hhere.2⟩
  | case7 _ _ _ _ _ _ _ _ _ _ _ _ p hp _ _ _ _ hski ih =>
    have hhere := forall_mem_append.mp hfree
    exact forall_mem_cons.mpr ⟨fun _ => absurd (by simp_all) hski, ih hhere.2⟩
  | _ => exact forall_mem_nil _

theorem relayPacket_encodes (hfree : ZeroSlotFree (relayPacket node packet tab).checks) :
    ∀ r ∈ (relayPacket node packet tab).received, r.forward = true → Encodes r.frame := by
  unfold relayPacket at hfree ⊢
  split
  · exact forall_mem_nil _
  next d b hst =>
  simp only [hst] at hfree
  exact relayLoop_encodes hfree

/-- As long as no all zero id is looked up after its slot was taken, every frame that
is queued for forwarding is encoded with the id that was received. -/
theorem forwarded_broadcasts_encode (packets : List (Node × List UInt8)) (table : Table)
    (hfree : ZeroSlotFree (relayPackets packets table).checks) :
    ∀ r ∈ (relayPackets packets table).received, r.forward = true → Encodes r.frame := by
  induction packets generalizing table with
  | nil => exact forall_mem_nil _
  | cons first packets ih =>
    have hparts := forall_mem_append.mp hfree
    exact forall_mem_append.mpr ⟨relayPacket_encodes hparts.1, ih _ hparts.2⟩

/-! ### Two packets -/

/-- A packet from `sidOf 2` with one empty broadcast that has four hops left. -/
def broadcastPacket (id : List UInt8) : List UInt8 := [0, 1, 1, 2, 0] ++ [3] ++ id ++ [5, 0, 0]

def slotZeroId : List UInt8 := [0, 0, 0, 0, 0, 0, 1, 8]

def listener : Node := AddressCompression.neighbour [sidOf 2]

theorem forwarded_broadcasts_encode_one :
    (relayPackets [(listener, broadcastPacket slotZeroId)] .initial).received.map
        (fun r => (r.forward, r.frame.broadcastId.id)) = [(true, slotZeroId)] ∧
    ∀ r ∈ (relayPackets [(listener, broadcastPacket slotZeroId)] .initial).received,
      r.forward = true → Encodes r.frame := by
  refine ⟨by decide +kernel, forwarded_broadcasts_encode _ .initial ?_⟩
  have hids : (relayPackets [(listener, broadcastPacket slotZeroId)] .initial).checks.map
      (fun c => decide (c.2 = .zero)) = [false] := by decide +kernel
  intro c hc hzero
  have hmem := List.mem_map_of_mem (f := fun c => decide (c.2 = Broadcast.zero)) hc
  rw [hids, mem_singleton, decide_eq_false_iff_not] at hmem
  exact absurd hzero hmem

def zeroFrame : Frame := ⟨typeData, 3, 4, 0, 0, some (sidOf 2), none, .zero, 0, []⟩

/-- The table when the first packet has been received. -/
theorem slotZero_taken : (relayPacket listener (broadcastPacket slotZeroId) .initial).table =
      Function.update Table.initial 0 ⟨slotZeroId, rfl⟩ := by
  rfl

/-- The first packet takes the slot of the all zero id, the second has that id: it is
queued, and encoding it follows a null pointer. -/
theorem zero_broadcast_forwarded : (relayPackets [(listener, broadcastPacket slotZeroId),
        (listener, broadcastPacket (List.replicate 8 0))] .initial).received.map
        (fun r => (r.forward, r.frame)) =
      [(true, { zeroFrame with broadcastId := ⟨slotZeroId, rfl⟩ }), (true, zeroFrame)] ∧
    (overlayFrameAppendPayload AddressCompression.relay .overlay ⟨.start, noneFull⟩
      (fresh 1200) zeroFrame none false).isNone := by
  constructor
  · have hfst : (relayPacket listener (broadcastPacket slotZeroId) .initial).received.map
        (fun r => (r.forward, r.frame)) =
          [(true, { zeroFrame with broadcastId := ⟨slotZeroId, rfl⟩ })] := by decide +kernel
    have hsec : (relayPacket listener (broadcastPacket (List.replicate 8 0))
        (Function.update Table.initial 0 ⟨slotZeroId, rfl⟩)).received.map
        (fun r => (r.forward, r.frame)) = [(true, zeroFrame)] := by decide +kernel
    simp only [relayPackets, slotZero_taken, map_append, hfst, hsec, append_nil]
    rfl
  · decide +kernel

end BroadcastRelay
