import ServalDna.PacketStream

/-!
# Compressed addresses and whom they stand for

The receiver of a packet may not know the subscriber of an abbreviation. Its payload
is then skipped, and the register for `OA_CODE_PREVIOUS` keeps the address before.
The sender's register has moved on, and it moves as well when a payload does not fit
and is taken out of the packet again. So a later payload can be attributed to the
wrong subscriber. It cannot if every address that is coded as the previous one
repeats the address before it in the packet, and the receiver knows that one.
-/
namespace AddressCompression

open OverlayBuffer BufferReads OverlayPacket PacketFormat PacketStream
open SubscriberTrie (Sid sidSize)
open List hiding take

/-- The receiver has found the addresses that the sender has encoded; the next hop is
only encoded for a payload that has a destination further away. -/
structure Attributed (o : Outgoing) (r : Received) : Prop where
  source : r.frame.source = o.frame.source
  destination : r.frame.destination = o.frame.destination
  nextHop : r.nextHop = if o.frame.destination.isSome && !o.oneHop then o.nextHop else none

theorem attributed_iff (o : Outgoing) (r : Received) :
    Attributed o r ↔ r.frame.source = o.frame.source ∧ r.frame.destination = o.frame.destination ∧
      r.nextHop = if o.frame.destination.isSome && !o.oneHop then o.nextHop else none :=
  ⟨fun h => ⟨h.source, h.destination, h.nextHop⟩, fun h => ⟨h.1, h.2.1, h.2.2⟩⟩

instance (o : Outgoing) (r : Received) : Decidable (Attributed o r) :=
  decidable_of_iff' _ (attributed_iff o r)

/-- Every payload that is accepted is one of the packet, with its addresses. -/
def AllAttributed : List Placed → List Received → Prop
  | [], [] => True
  | _ :: _, [] => True
  | [], _ :: _ => False
  | q :: placed, r :: received =>
    (r.accepted = true → Attributed q.outgoing r) ∧ AllAttributed placed received

instance decidableAllAttributed : ∀ placed received, Decidable (AllAttributed placed received)
  | [], [] => instDecidableTrue
  | _ :: _, [] => instDecidableTrue
  | [], _ :: _ => instDecidableFalse
  | q :: placed, r :: received =>
    haveI := decidableAllAttributed placed received
    inferInstanceAs (Decidable ((r.accepted = true → Attributed q.outgoing r) ∧ _))

/-! ## Receivers -/

/-- The receiver takes an abbreviation for the intended subscriber or for none. -/
def HonestAnswer (node : Node) (lookups : Nat) (a : Address) : Prop :=
  ∀ id, a.code = .abbreviation id →
    node.find lookups id = none ∨ node.find lookups id = some a.subscriber

instance (node : Node) (lookups : Nat) : ∀ a, Decidable (HonestAnswer node lookups a)
  | ⟨.abbreviation id, s⟩ =>
    decidable_of_iff (node.find lookups id = none ∨ node.find lookups id = some s)
      ⟨fun h _ hid => by cases hid; exact h, fun h => h id rfl⟩
  | ⟨.p2pYou, _⟩ => isTrue fun _ hid => nomatch hid
  | ⟨.p2pMe, _⟩ => isTrue fun _ hid => nomatch hid
  | ⟨.self, _⟩ => isTrue fun _ hid => nomatch hid
  | ⟨.previous, _⟩ => isTrue fun _ hid => nomatch hid

/-- The answers of the receiver's table to all abbreviations of a packet. -/
def Honest (node : Node) : Nat → List Address → Prop
  | _, [] => True
  | n, a :: rest => HonestAnswer node n a ∧ Honest node (n + lookupsOf a.code) rest

instance decidableHonest (node : Node) : ∀ n addresses, Decidable (Honest node n addresses)
  | _, [] => instDecidableTrue
  | n, a :: rest =>
    haveI := decidableHonest node (n + lookupsOf a.code) rest
    inferInstanceAs (Decidable (HonestAnswer node n a ∧ _))

/-- If the sender has codes for the two ends of a link, then the receiver is the other
end, and does not take the sender for someone else. -/
def LinkHonest (sender : Sender) (version : UInt8) (node : Node) : Prop :=
  (linkEnd sender version).isSome → linkEnd sender version = some node.mySubscriber ∧
      (node.interface.otherDevice = none ∨ node.interface.otherDevice = some sender.mySubscriber)

instance (sender : Sender) (version : UInt8) (node : Node) : Decidable (LinkHonest sender version node) :=
  inferInstanceAs (Decidable (_ → _))

/-- Whether the receiver can resolve a code; `last` is the address before, if it could
be resolved, and the context is the one after the envelope header. -/
def resolves (node : Node) (c : Context) (lookups : Nat) (last : Option Sid) : Code → Bool
  | .p2pYou => c.pointToPointDevice.isSome
  | .p2pMe => c.pointToPointDevice.isSome
  | .self => c.sender.isSome
  | .previous => last.isSome
  | .abbreviation id => (node.find lookups id).isSome

def lastAfter (node : Node) (c : Context) (lookups : Nat) (last : Option Sid) (a : Address) :
    Option Sid :=
  if resolves node c lookups last a.code then some a.subscriber else none

/-- An address that is coded as the previous one repeats the address before it in the
packet, and the receiver could resolve that one. -/
def InStep (node : Node) (c : Context) : Nat → Option Sid → List Address → Prop
  | _, _, [] => True
  | n, last, a :: rest =>
    (a.code = .previous → last = some a.subscriber) ∧
      InStep node c (n + lookupsOf a.code) (lastAfter node c n last a) rest

instance decidableInStep (node : Node) (c : Context) :
    ∀ n last addresses, Decidable (InStep node c n last addresses)
  | _, _, [] => instDecidableTrue
  | n, last, a :: rest =>
    haveI := decidableInStep node c (n + lookupsOf a.code) (lastAfter node c n last a) rest
    inferInstanceAs (Decidable ((a.code = .previous → last = some a.subscriber) ∧ _))

def payloadAddresses (sender : Sender) (placed : List Placed) : List Address :=
  placed.flatMap (·.addresses sender)

def allAddresses (p : Packet) (sender : Sender) (sendFull : Sid → Bool) (placed : List Placed) :
    List Address :=
  ⟨p.senderCode sender sendFull, sender.mySubscriber⟩ :: payloadAddresses sender placed

/-- `InStep` for a packet. -/
def PreviousInStep (p : Packet) (sender : Sender) (sendFull : Sid → Bool) (node : Node)
    (placed : List Placed) : Prop :=
  ∀ d ∈ p.decoder node sender sendFull,
    InStep node d.context d.lookups d.context.sender (payloadAddresses sender placed)

instance (p : Packet) (sender : Sender) (sendFull : Sid → Bool) (node : Node) (placed : List Placed) :
    Decidable (PreviousInStep p sender sendFull node placed) :=
  inferInstanceAs (Decidable (∀ d ∈ p.decoder node sender sendFull, _))

/-! ## Following the addresses of a packet -/

/-- What the choice of a code says about the subscriber. -/
def Coded (sender : Sender) (version : UInt8) (a : Address) : Prop :=
  match a.code with
  | .p2pYou => linkEnd sender version = some a.subscriber
  | .p2pMe => a.subscriber = sender.mySubscriber ∧ (linkEnd sender version).isSome
  | .self => a.subscriber = sender.mySubscriber
  | _ => True

variable {o : Outgoing}

theorem addressCode_coded (s : Sid) (hdev : e.context.pointToPointDevice = linkEnd sender version)
    (hnam : e.context.sender = some s → s = sender.mySubscriber) :
    Coded sender version ⟨addressCode sender e s, s⟩ := by
  unfold addressCode
  split
  · next hyou => exact hdev.symm.trans hyou
  split
  · next hme => exact ⟨hme.2.1, by rw [← hdev]; exact hme.2.2.1⟩
  split
  · next hself => exact hnam hself
  · split <;> trivial

theorem codeAll_coded (ids : List Sid) (h : Opened sender version e) :
    ∀ a ∈ (codeAll sender e ids).1, Coded sender version a := by
  induction ids generalizing e with
  | nil =>
    intro a ha
    cases ha
  | cons s ids ih =>
    intro a ha
    rcases mem_cons.mp ha with rfl | ha
    · apply addressCode_coded s h.device
      intro hself
      exact (Option.some.inj (h.named.symm.trans hself)).symm
    · exact ih (e := e.after s (addressCode sender e s)) ⟨h.named, h.device⟩ a ha

theorem payloads_coded (h : ∀ q ∈ placed, q.Written sender version) :
    ∀ a ∈ payloadAddresses sender placed, Coded sender version a := by
  intro a ha
  obtain ⟨q, hq, ha⟩ := mem_flatMap.mp ha
  exact codeAll_coded _ (h q hq).opened a ha

section Following

variable (sender : Sender) (version : UInt8) (node : Node) (c : Context)

/-- What the receiver knows after the envelope header. -/
structure Heard : Prop where
  named : c.sender = none ∨ c.sender = some sender.mySubscriber
  device : (linkEnd sender version).isSome →
    c.pointToPointDevice = none ∨ c.pointToPointDevice = some sender.mySubscriber
  other : (linkEnd sender version).isSome → linkEnd sender version = some node.mySubscriber

/-- The receiver follows the addresses that are still to come. -/
structure Follows (last : Option Sid) (d : Decoder) (addresses : List Address) : Prop where
  named : d.context.sender = c.sender
  device : d.context.pointToPointDevice = c.pointToPointDevice
  previous : ∀ s, last = some s → d.context.previous = some s
  inStep : InStep node c d.lookups last addresses
  honest : Honest node d.lookups addresses
  coded : ∀ a ∈ addresses, Coded sender version a

variable {sender version node c}

theorem unresolved_or_intended {found : Option Sid} (h : found = none ∨ found = some s) :
    found = none ∧ found.isSome = false ∨ found = some s :=
  h.imp_left fun hnone => ⟨hnone, by rw [hnone]; rfl⟩

section Heard

variable (hc : Heard sender version node c)

include hc

/-- A code is taken for the intended subscriber or for none. -/
theorem answer_intended (h : Follows sender version node c last d (a :: rest)) :
    answer node d a.code = none ∧ resolves node c d.lookups last a.code = false ∨
      answer node d a.code = some a.subscriber := by
  have hcod := h.coded a mem_cons_self
  obtain ⟨hstep, -⟩ := h.inStep
  obtain ⟨hhon, -⟩ := h.honest
  unfold Coded at hcod
  cases hcode : a.code with
  | p2pYou =>
    rw [hcode] at hcod
    have hoth := hc.other (by rw [hcod]; rfl)
    rw [hcod] at hoth
    simp only [answer, resolves, h.device]
    cases c.pointToPointDevice with
    | none => exact .inl ⟨rfl, rfl⟩
    | some device => exact .inr hoth.symm
  | p2pMe =>
    rw [hcode] at hcod
    obtain ⟨hme, hsome⟩ := hcod
    simp only [answer, resolves, h.device, hme]
    exact unresolved_or_intended (hc.device hsome)
  | self =>
    rw [hcode] at hcod
    simp only [answer, resolves, h.named, hcod]
    exact unresolved_or_intended hc.named
  | previous => exact .inr (h.previous _ (hstep hcode))
  | abbreviation id =>
    simp only [answer, resolves]
    exact unresolved_or_intended (hhon id hcode)

/-- After an address the receiver follows the rest, and it has the intended subscriber
unless the payload is invalid. -/
theorem follows_take (h : Follows sender version node c last d (a :: rest)) :
    (∃ last', Follows sender version node c last' (take node d a.code subscriber).2 rest) ∧
      ((take node d a.code subscriber).2.context.invalidAddress = false →
        d.context.invalidAddress = false ∧ (take node d a.code subscriber).1 = some a.subscriber) := by
  have hrest : ∀ a ∈ rest, Coded sender version a := fun x hx => h.coded x (mem_cons_of_mem _ hx)
  unfold take
  rcases answer_intended hc h with ⟨hnone, hunr⟩ | hsome
  · rw [hnone]
    refine ⟨⟨none, h.named, h.device, ?_, ?_, h.honest.2, hrest⟩, ?_⟩
    · intro s hs
      cases hs
    · have hstep := h.inStep.2
      rw [lastAfter, hunr] at hstep
      exact hstep
    intro hinv
    cases hinv
  rw [hsome]
  refine ⟨⟨lastAfter node c d.lookups last a, h.named, h.device, ?_, h.inStep.2, h.honest.2, hrest⟩, ?_⟩
  · intro s hs
    unfold lastAfter at hs
    split at hs
    · exact hs
    · cases hs
  intro hvd
  exact ⟨hvd, rfl⟩

omit hc in
/-- The flags of the decoder do not matter. -/
theorem follows_flags (h : Follows sender version node c last d addresses) :
    Follows sender version node c last { d with context := { d.context with
      encodingHeader := encodingHeader, invalidAddress := invalidAddress } } addresses :=
  { h with }

theorem follows_source (hopn : Opened sender version e) (hcom : o.Complete e)
    (h : Follows sender version node c last d ((codeAll sender e (o.sourceIds e)).1 ++ rest)) :
    (∃ last', Follows sender version node c last'
      (takeSource node d subscriber (codeAll sender e (o.sourceIds e)).1).2 rest) ∧
      ((takeSource node d subscriber (codeAll sender e (o.sourceIds e)).1).2.context.invalidAddress =
          false →
        (takeSource node d subscriber (codeAll sender e (o.sourceIds e)).1).1 = o.frame.source) := by
  cases hsame : o.senderSame e with
  | true =>
    rw [o.sourceIds_same hsame] at h ⊢
    refine ⟨⟨last, follows_flags h⟩, ?_⟩
    intro hvd
    have hsrc : o.frame.source = some sender.mySubscriber :=
      (beq_iff_eq.mp hsame).trans hopn.named
    rw [hsrc]
    simp only [codeAll, takeSource, h.named, Bool.or_eq_false_iff] at hvd ⊢
    rcases hc.named with hnone | hsnd
    · rw [hnone] at hvd
      cases hvd.2
    · exact hsnd
  | false =>
    obtain ⟨s, hs⟩ := Option.isSome_iff_exists.mp (hcom.source hsame)
    rw [o.sourceIds_other hsame hs] at h ⊢
    rw [hs]
    obtain ⟨hfol, hval⟩ := follows_take hc h
    exact ⟨hfol, fun hvd => (hval hvd).2⟩

theorem follows_target (hcom : o.Complete e)
    (h : Follows sender version node c last d ((codeAll sender e' o.targetIds).1 ++ rest)) :
    let taken := takeTarget node d subscriber (codeAll sender e' o.targetIds).1
    (∃ last', Follows sender version node c last' taken.2.2 rest) ∧
      (taken.2.2.context.invalidAddress = false → d.context.invalidAddress = false ∧
        taken.1 = o.frame.destination ∧
        taken.2.1 = if o.frame.destination.isSome && !o.oneHop then o.nextHop else none) := by
  cases hdest : o.frame.destination with
  | none =>
    rw [o.targetIds_broadcast hdest] at h ⊢
    exact ⟨⟨last, h⟩, fun hvd => ⟨hvd, rfl, rfl⟩⟩
  | some t =>
    cases hhop : o.oneHop with
    | true =>
      rw [o.targetIds_oneHop hdest hhop] at h ⊢
      obtain ⟨hfol, hval⟩ := follows_take hc h
      refine ⟨hfol, ?_⟩
      intro hvd
      obtain ⟨hbef, htgt⟩ := hval hvd
      exact ⟨hbef, htgt, rfl⟩
    | false =>
      obtain ⟨n, hn⟩ := Option.isSome_iff_exists.mp (hcom.nextHop (by rw [hdest]; rfl) hhop)
      rw [o.targetIds_hop hdest hhop hn] at h ⊢
      obtain ⟨⟨last1, hfol1⟩, hval1⟩ := follows_take hc h
      obtain ⟨hfol2, hval2⟩ := follows_take hc hfol1
      refine ⟨hfol2, ?_⟩
      intro hvd
      obtain ⟨hmid, hnext⟩ := hval2 hvd
      obtain ⟨hbef, htgt⟩ := hval1 hmid
      rw [hn]
      exact ⟨hbef, htgt, hnext⟩

/-- The receiver follows the addresses of a payload, and has found them all unless the
payload is invalid. -/
theorem follows_takeAll (hopn : Opened sender version e) (hcom : o.Complete e)
    (h : Follows sender version node c last d (o.addresses sender e ++ rest)) :
    let taken := takeAll node sender o e d f
    (∃ last', Follows sender version node c last' taken.decoder rest) ∧
      (taken.decoder.context.invalidAddress = false → taken.source = o.frame.source ∧
        taken.destination = o.frame.destination ∧
        taken.nextHop = if o.frame.destination.isSome && !o.oneHop then o.nextHop else none) := by
  rw [Outgoing.addresses, Outgoing.ids, codeAll_append, append_assoc] at h
  obtain ⟨⟨last1, hfol1⟩, hsrc⟩ := follows_source hc hopn hcom h
  obtain ⟨hfol2, htgt⟩ := follows_target hc hcom hfol1
  refine ⟨hfol2, ?_⟩
  intro hvd
  obtain ⟨hmid, hdst, hnex⟩ := htgt hvd
  exact ⟨hsrc hmid, hdst, hnex⟩

/-- One payload: it is attributed as it was sent if it is accepted. -/
theorem record_attributed {q : Placed} {b : Buffer} {p : Parse} (hq : q.Written sender version)
    (h : Follows sender version node c last d (q.addresses sender ++ rest))
    (hprs : HeaderParsed node sender q.outgoing q.encoder (restart d) (blank f) b p) :
    (∃ last', Follows sender version node c last' p.decoder rest) ∧
      ((record p len pl).accepted = true → Attributed q.outgoing (record p len pl)) := by
  obtain ⟨hfol, hadd⟩ := follows_takeAll hc hq.opened hq.complete (follows_flags h)
  have hseen := seen_record len pl hprs
  refine ⟨by rw [hprs.decoder]; exact hfol, ?_⟩
  intro hacc
  rw [hseen.accepted] at hacc
  have hvd := hprs.accepted hacc
  rw [hprs.decoder] at hvd
  obtain ⟨hsrc, hdst, hnex⟩ := hadd hvd
  obtain ⟨bytes, hfr⟩ := hseen.frame
  constructor
  · rw [hfr]
    exact hprs.source.trans hsrc
  · rw [hfr]
    exact hprs.destination.trans hdst
  rw [hseen.nextHop]
  exact hprs.nextHop.trans hnex

end Heard

/-- All payloads of a packet. -/
theorem loop_attributed (passes i : Nat) (f : Frame) (hc : Heard sender version node c)
    (hplc : ∀ q ∈ placed, q.Written sender version)
    (hsht : enc = .overlay → ∀ q ∈ placed, q.outgoing.frame.payload.length < 65536)
    (hd : Ready version enc d) (hb : Rests b (wires sender enc placed))
    (h : Follows sender version node c last d (payloadAddresses sender placed)) :
    AllAttributed placed (payloadLoop node passes i d f b) := by
  induction placed generalizing passes i d f b last with
  | nil =>
    cases passes with
    | zero => trivial
    | succ passes =>
      have hend : obRemaining b = some 0 := hb.remaining
      rw [payloadLoop, if_pos (.inr hend)]
      trivial
  | cons q placed ih =>
    have hq := hplc q mem_cons_self
    cases passes with
    | zero => trivial
    | succ passes =>
      cases enc with
      | single =>
        obtain ⟨p, hprs, hloop⟩ := single_pass node passes hq hd hb
        rw [hloop]
        refine ⟨(record_attributed hc hq h hprs).2, ?_⟩
        cases placed <;> trivial
      | overlay =>
        obtain ⟨p, hprs, hrdy, hloop⟩ := overlay_pass node passes hq hd hb rfl
        have hlen := Nat.mod_eq_of_lt (hsht rfl q mem_cons_self)
        obtain ⟨⟨last', hfol⟩, hfst⟩ := record_attributed hc hq h hprs
        rw [hloop]
        refine ⟨hfst, ?_⟩
        apply ih _ _ _ (fun q hmem => hplc q (mem_cons_of_mem _ hmem))
          (fun _ q hmem => hsht rfl q (mem_cons_of_mem _ hmem)) hrdy _ hfol
        rw [hlen, ← overlay_wire_length]
        exact hb.advance

/-! ## The envelope header -/

/-- The sender's address is the first one, so there is nothing to repeat. -/
theorem senderCode_first (sender : Sender) (p : Packet) (full : Sid → Bool) :
    p.senderCode sender full ≠ .previous ∧ p.senderCode sender full ≠ .self := by
  unfold Packet.senderCode addressCode
  split
  · exact ⟨Code.noConfusion, Code.noConfusion⟩
  split
  · exact ⟨Code.noConfusion, Code.noConfusion⟩
  split
  · next hself => cases hself
  split
  · next hprev => cases hprev
  · exact ⟨Code.noConfusion, Code.noConfusion⟩

theorem envelope_heard (enc : Encapsulation) (hlink : LinkHonest sender version node) :
    Heard sender version node (envelopeDecoder node version enc).context := by
  refine ⟨.inl rfl, ?_, fun hsome => (hlink hsome).1⟩
  intro hsome
  simp only [envelopeDecoder]
  split
  · exact (hlink hsome).2
  · exact .inl rfl

/-- What the address of the sender leaves behind. -/
structure Named (sender : Sender) (p : Packet) (node : Node) (code : Code) (r : Option Sid × Decoder) :
    Prop where
  sid : r.1 = none ∨ r.1 = some sender.mySubscriber
  previous : ∀ s, r.1 = some s → r.2.context.previous = some s
  device : r.2.context.pointToPointDevice =
    (envelopeDecoder node p.packetVersion p.encapsulation).context.pointToPointDevice
  lookups : r.2.lookups = 0 + lookupsOf code

theorem heard_named (hlink : LinkHonest sender p.packetVersion node)
    (hhon : HonestAnswer node 0 ⟨p.senderCode sender full, sender.mySubscriber⟩) :
    Named sender p node (p.senderCode sender full) (p.heard node sender full) := by
  have hfol : Follows sender p.packetVersion node
      (envelopeDecoder node p.packetVersion p.encapsulation).context none
      (envelopeDecoder node p.packetVersion p.encapsulation)
      [⟨p.senderCode sender full, sender.mySubscriber⟩] := by
    refine ⟨rfl, rfl, ?_, ⟨?_, trivial⟩, ⟨hhon, trivial⟩, ?_⟩
    · intro s hs
      cases hs
    · intro hprev
      exact absurd hprev (senderCode_first sender p full).1
    intro a ha
    rw [mem_singleton.mp ha]
    exact addressCode_coded _ rfl (fun _ => rfl)
  unfold Packet.heard take
  rcases answer_intended (envelope_heard p.encapsulation hlink) hfol with ⟨hnone, -⟩ | hsome
  · rw [hnone]
    have hpoi : fallback none (p.senderCode sender full) = none := by
      cases p.senderCode sender full <;> rfl
    refine ⟨.inl hpoi, ?_, rfl, rfl⟩
    intro s hs
    cases hpoi.symm.trans hs
  rw [hsome]
  exact ⟨.inr rfl, fun s hs => hs, rfl, rfl⟩

/-- The receiver takes the sender for the right one or for none, and remembers it. -/
theorem decoder_heard (hlink : LinkHonest sender p.packetVersion node)
    (hhon : Honest node 0 (allAddresses p sender full placed))
    (hd : p.decoder node sender full = some d) :
    Heard sender p.packetVersion node d.context ∧
      (∀ s, d.context.sender = some s → d.context.previous = some s) ∧
      Honest node d.lookups (payloadAddresses sender placed) := by
  have hnam := heard_named hlink hhon.1
  have hrest := hhon.2
  rw [← hnam.lookups] at hrest
  have henv := envelope_heard p.encapsulation hlink
  have hdev := henv.device
  rw [← hnam.device] at hdev
  rw [Packet.decoder, envelopeSender.eq_def] at hd
  split at hd
  · next hnone =>
    cases hd
    exact ⟨⟨.inl hnone, hdev, henv.other⟩, hnam.previous, hrest⟩
  next s hs =>
  have hmy : s = sender.mySubscriber := by
    rcases hnam.sid with hnone | hsome
    · cases hs.symm.trans hnone
    · exact Option.some.inj (hs.symm.trans hsome)
  split at hd
  · cases hd
  split at hd
  · cases hd
    exact ⟨⟨hnam.sid, fun _ => .inr (congrArg some hmy), henv.other⟩, hnam.previous, hrest⟩
  cases hd
  exact ⟨⟨hnam.sid, hdev, henv.other⟩, hnam.previous, hrest⟩

end Following

/-- Address compression never misattributes a payload of a packet whose addresses
stay in step. -/
theorem accepted_addresses_intended (p : Packet) (sender : Sender) (sendFull : Sid → Bool) (node : Node)
    {t : Transmission} (hsent : p.transmit sender sendFull = some t)
    (hlink : LinkHonest sender p.packetVersion node)
    (hhonest : Honest node 0 (allAddresses p sender sendFull t.placed))
    (hstep : PreviousInStep p sender sendFull node t.placed)
    (hshort : p.encapsulation = .overlay → ∀ q ∈ t.placed, q.outgoing.frame.payload.length < 65536) :
    AllAttributed t.placed (packetOkOverlay node t.bytes) := by
  have hhold := transmit_holding hsent
  rcases packet_parsed node hhold with ⟨-, hnone⟩ | ⟨d, b, hd, hrdy, hb, hloop⟩
  · rw [hnone]
    cases t.placed <;> trivial
  obtain ⟨hhrd, hprev, hrest⟩ := decoder_heard hlink hhonest hd
  rw [hloop]
  apply loop_attributed _ _ _ hhrd hhold.written hshort hrdy hb
  exact ⟨rfl, rfl, hprev, hstep d hd, hrest, payloads_coded hhold.written⟩

/-! ## A relay and its neighbour -/

def sidOf (byte : UInt8) : Sid := ⟨List.replicate sidSize byte, length_replicate⟩

def relay : Sender := ⟨sidOf 1, fun _ => 2, ⟨false, none, false⟩⟩

/-- A neighbour that knows the subscribers `known`. -/
def neighbour (known : List Sid) : Node where
  mySubscriber := sidOf 3
  isSelf := (· == sidOf 3)
  interface := ⟨false, none, false⟩
  find := fun _ id => known.find? fun s => s.bytes.take id.length == id
  duplicatePacket := false
  dropBroadcast := fun _ _ => false
  forwardBroadcast := fun _ => true
  duplicatePayload := fun _ _ => false

def broadcastOf (source : Sid) (payload : List UInt8) : Outgoing :=
  ⟨⟨typeData, 0, 1, 1, 7, some source, none, .zero, 1, payload⟩, none, false⟩

def twoBroadcasts : Packet where
  packetVersion := 1
  encapsulation := .overlay
  unicast := false
  interface := 0
  seq := some 9
  mtu := 1200
  outgoing := [broadcastOf (sidOf 2) [5], broadcastOf (sidOf 2) [6]]
  mtu_lt := by decide
  version_eq := by decide

def noneFull : Sid → Bool := fun _ => false

theorem twoBroadcasts_sent : (twoBroadcasts.transmit relay noneFull).isSome := by decide +kernel

/-- A neighbour that knows the origin gets both. -/
theorem accepted_addresses_intended_two :
    let t := (twoBroadcasts.transmit relay noneFull).get twoBroadcasts_sent
    AllAttributed t.placed (packetOkOverlay (neighbour [sidOf 1, sidOf 2]) t.bytes) ∧
      (packetOkOverlay (neighbour [sidOf 1, sidOf 2]) t.bytes).length = 2 :=
  ⟨accepted_addresses_intended twoBroadcasts relay noneFull (neighbour [sidOf 1, sidOf 2])
    (Option.some_get twoBroadcasts_sent).symm (by decide +kernel) (by decide +kernel)
    (by decide +kernel) (by decide +kernel), by decide +kernel⟩

/-- The neighbour does not know the origin, and takes the second broadcast for one of
the relay. -/
theorem unknown_origin_misattributed : ∃ t, twoBroadcasts.transmit relay noneFull = some t ∧
      LinkHonest relay 1 (neighbour [sidOf 1]) ∧
      Honest (neighbour [sidOf 1]) 0 (allAddresses twoBroadcasts relay noneFull t.placed) ∧
      (packetOkOverlay (neighbour [sidOf 1]) t.bytes).map
        (fun r => (r.accepted, r.frame.source, r.frame.payload)) =
          [(false, none, []), (true, some (sidOf 1), [6])] ∧
      ¬AllAttributed t.placed (packetOkOverlay (neighbour [sidOf 1]) t.bytes) := by
  refine ⟨_, (Option.some_get twoBroadcasts_sent).symm, ?_⟩
  decide +kernel

end AddressCompression
