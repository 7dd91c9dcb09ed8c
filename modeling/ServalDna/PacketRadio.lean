import ServalDna.BroadcastRelay
import ServalDna.RadioCodec
import ServalDna.ShortAbbreviation

/-!
# Frames over a packet radio

A node builds packets of frames, with addresses as short as its table of subscribers allows,
and a radio link sends each packet in pieces. The neighbour puts the pieces together, parses
the packets, and looks the addresses up in a table of its own. All frames arrive, as long as
the neighbour has no subscriber that the node does not have: an abbreviation is only known
to be unique in the table of the node.
-/
namespace PacketRadio

open SubscriberTrie ShortAbbreviation OverlayPacket PacketFormat PacketStream AddressCompression
open FrameCodec RadioLink RadioCodec
open BroadcastRelay (relayPacket relayPackets relayPacket_verdicts)
open List hiding take

/-! ## Two tables -/

/-- The node has created the subscribers `known`, and the neighbour has created `heard n` before
its lookup `n`. -/
structure Tables (known : List Sid) (heard : Nat → List Sid) (sender : Sender) (node : Node) :
    Prop where
  depth : ∀ s ∈ (insertAll known).subscribers, sender.abbreviateLen s.sid = s.abbreviateLen
  lookup : ∀ n id, node.find n id = (findSubscriber (insertAll (heard n)) id true).1.map Subscriber.sid
  subset : ∀ n, heard n ⊆ known

/-- A subscriber that can be found by its address: it is known, or all of its id is there. -/
def Findable (heard : Nat → List Sid) (a : Address) : Prop :=
  a.code = .abbreviation a.subscriber.bytes ∨ ∀ n, a.subscriber ∈ heard n

theorem mem_insertAll {sids : List Sid} {sid : Sid} (h : sid ∈ sids) :
    ∃ s ∈ (insertAll sids).subscribers, s.sid = sid :=
  mem_map.mp ((mem_insertAll_sids sids sid).mpr h)

section Lookup

variable {known : List Sid} {heard : Nat → List Sid} {sender : Sender} {node : Node}
variable (h : Tables known heard sender node)

include h

theorem find_full (sid : Sid) : node.find n sid.bytes = some sid := by
  have hfound : Inserted sid _ [] _ _ := (findSubscriber_inserted (insertAll_wellFormed (heard n))).1
  obtain ⟨s, hs, hsid, -⟩ := hfound.found
  rw [h.lookup, hs, Option.map_some, hsid]

/-- What is unique in the larger table is unique in the smaller one. -/
theorem find_abbreviation {sid : Sid} {bytes : List UInt8} (hsid : sid ∈ heard n)
    (hcode : addressCode sender e sid = .abbreviation bytes) : node.find n bytes = some sid := by
  obtain rfl : bytes = sid.bytes.take (abbreviationLen sender e sid) := by
    unfold addressCode at hcode
    split_ifs at hcode
    exact (Code.abbreviation.inj hcode).symm
  obtain ⟨hpos, hle⟩ := abbreviationLen_bounds sender e sid
  have hlen : (sid.bytes.take (abbreviationLen sender e sid)).length = abbreviationLen sender e sid := by
    rw [length_take, sid.length_eq, min_eq_left hle]
  by_cases hfull : abbreviationLen sender e sid = sidSize
  · rw [hfull, take_of_length_le sid.length_eq.le]
    exact find_full h sid
  obtain ⟨s, hs, rfl⟩ := mem_insertAll (h.subset n hsid)
  obtain ⟨-, hself, honly⟩ := abbreviation_unique known hs (e := e) (h.depth s hs)
  obtain ⟨s', hs', heq⟩ := mem_insertAll hsid
  have hwf := insertAll_wellFormed (heard n)
  generalize s.sid.bytes.take (abbreviationLen sender e s.sid) = bytes at hlen hself honly
  have honly' : OnlyMatch (insertAll (heard n)).subscribers bytes s' := by
    refine ⟨hs', by rw [Matches, heq]; exact hself, fun t ht hmatch => ?_⟩
    have hheard : t.sid ∈ heard n := (mem_insertAll_sids _ _).mp (mem_map_of_mem ht)
    obtain ⟨t', ht', heq'⟩ := mem_insertAll (h.subset n hheard)
    have hsame := honly t' ht' (by rw [Matches, heq']; exact hmatch)
    exact inj_on_of_nodup_map (sids_nodup hwf) ht hs' (by rw [← heq', hsame, heq])
  have hfind := ((findSubscriber_lookup hwf bytes (by omega) (by omega)).2 s').mpr honly'
  have hcreate : findSubscriber (insertAll (heard n)) bytes true =
      findSubscriber (insertAll (heard n)) bytes false := by simp [findSubscriber, hlen, hfull]
  rw [h.lookup, hcreate, hfind, Option.map_some, heq]

theorem known_addresses {addresses : List Address}
    (hcodes : ∀ a ∈ addresses, ∃ e, a.code = addressCode sender e a.subscriber)
    (hfind : ∀ a ∈ addresses, Findable heard a) (n : Nat) : Known node n addresses := by
  induction addresses generalizing n with
  | nil => trivial
  | cons a rest ih =>
    obtain ⟨⟨e, hcode⟩, hcodes⟩ := forall_mem_cons.mp hcodes
    obtain ⟨hfull | hheard, hfind⟩ := forall_mem_cons.mp hfind
    · refine ⟨fun id hid => ?_, ih hcodes hfind _⟩
      cases hfull.symm.trans hid
      exact find_full h a.subscriber
    · refine ⟨fun id hid => ?_, ih hcodes hfind _⟩
      exact find_abbreviation h (hheard n) (hcode.symm.trans hid)

end Lookup

/-! ## The frames of a packet -/

theorem codeAll_codes (ids : List Sid) : ∀ a ∈ (codeAll sender e ids).1,
    ∃ e, a.code = addressCode sender e a.subscriber := by
  induction ids generalizing e with
  | nil => exact forall_mem_nil _
  | cons s ids ih => exact forall_mem_cons.mpr ⟨⟨e, rfl⟩, ih⟩

theorem allAddresses_codes (placed : List Placed) :
    ∀ a ∈ allAddresses p sender full placed, ∃ e, a.code = addressCode sender e a.subscriber := by
  refine forall_mem_cons.mpr ⟨⟨_, rfl⟩, fun a ha => ?_⟩
  obtain ⟨q, -, ha⟩ := mem_flatMap.mp ha
  exact codeAll_codes _ a ha

/-- A packet that the node has built, all of whose frames have found room, and the neighbour at
the time when it comes. -/
structure Crossing (sender : Sender) (known : List Sid) where
  packet : Packet
  full : Sid → Bool
  sent : Transmission
  node : Node
  heard : Nat → List Sid
  overlay : packet.encapsulation = .overlay
  mtu_le : packet.mtu ≤ mdpMtu
  frames : ∀ o ∈ packet.outgoing, Sendable o
  transmitted : packet.transmit sender full = some sent
  room : sent.placed.map Placed.outgoing = packet.outgoing
  receives : Receives sender packet.packetVersion node
  tables : Tables known heard sender node
  findable : ∀ a ∈ allAddresses packet sender full sent.placed, Findable heard a

section Crossing

variable {sender : Sender} {known : List Sid} (c : Crossing sender known)

theorem Crossing.repeats : Repeats sender.mySubscriber (payloadAddresses sender c.sent.placed) := by
  have hlen := congrArg length c.room
  rw [length_map] at hlen
  have hfits := transmit_fits c.transmitted
  rw [hfits] at hlen ⊢
  exact fitting_repeats rfl hlen

theorem Crossing.bytes_le : c.sent.bytes.length ≤ mdpMtu := by
  obtain ⟨⟨e, b⟩, hstart, h⟩ := Option.bind_eq_some_iff.mp c.transmitted
  split at h
  · cases h
  next hfits =>
  obtain ⟨⟨placed, b'⟩, happ, hsent⟩ := Option.map_eq_some_iff.mp h
  obtain ⟨-, rfl, hb, hsize, hin, -⟩ := start_inv hstart (by simpa using hfits)
  obtain ⟨hend, -⟩ := appendAll_inv hb (hsize ▸ ne_sizeMax c.packet.mtu_lt) hin ⟨rfl, rfl⟩
    c.packet.version_eq happ
  have hlen : (BufferWrites.content b').length ≤ b'.position := length_take_le _ _
  have := c.mtu_le
  rw [← hsent]
  simp only
  omega

theorem Crossing.short : ShortPayloads c.sent.placed := by
  intro q hq
  have hle := c.bytes_le
  rw [(transmit_holding c.transmitted).bytes, c.overlay, length_append, mdpMtu] at hle
  have hmem : q.wire sender .overlay ∈ c.sent.placed.map (·.wire sender .overlay) := mem_map_of_mem hq
  have hwire : (q.wire sender .overlay).length ≤ (wires sender .overlay c.sent.placed).length :=
    (sublist_flatten_of_mem hmem).length_le
  rw [overlay_wire_length] at hwire
  omega

theorem Crossing.decoded : AllDecoded c.sent.placed (packetOkOverlay c.node c.sent.bytes) :=
  (decoded_iff c.transmitted c.overlay c.frames c.receives
    (known_addresses c.tables (allAddresses_codes c.sent.placed) c.findable 0)).mpr ⟨c.short, c.repeats⟩

/-- Which broadcasts the neighbour has seen before does not matter. -/
theorem Crossing.relayed (table : BroadcastRelay.Table) :
    AllDecoded c.sent.placed (relayPacket c.node c.sent.bytes table).received := by
  obtain ⟨verdict, hsame⟩ : ∃ verdict, (relayPacket c.node c.sent.bytes table).received =
    packetOkOverlay { c.node with dropBroadcast := verdict } c.sent.bytes := relayPacket_verdicts c.node
  rw [hsame]
  exact Crossing.decoded { c with
    node := { c.node with dropBroadcast := verdict }
    receives := ⟨c.receives.other, c.receives.fresh, c.receives.link⟩
    tables := ⟨c.tables.depth, c.tables.lookup, c.tables.subset⟩ }

end Crossing

/-- All frames of all packets come out of the radio at the other end. -/
theorem frames_over_radio (rs : ReedSolomon) (hrs : Faithful rs) (sender : Sender) (known : List Sid)
    (crossings : List (Crossing sender known)) (tx : TxState) (htx : tx.txPacket = none) (rx : RxState)
    (hrx : Ready rx) : ∃ sent r, sendAll rs tx (crossings.map fun c => c.sent.bytes) = some sent ∧
      receive rs rx sent.2 = some r ∧ r.delivered.length = crossings.length ∧
      ∀ table, AllDecoded (crossings.flatMap fun c => c.sent.placed)
        (relayPackets ((crossings.map fun c => c.node).zip r.delivered) table).received := by
  induction crossings generalizing tx rx with
  | nil => exact ⟨(tx, []), ⟨rx, [], []⟩, rfl, rfl, rfl, fun _ => .nil⟩
  | cons c crossings ih =>
    have hlen := c.bytes_le
    rw [mdpMtu] at hlen
    obtain ⟨b, hflip, hb, hpos⟩ := filled_flip c.sent.bytes (by omega)
    obtain ⟨sent, r, hsent, hnone, hr, hdel, hready⟩ := packet_arrives hrs hb
      (show b.position = ([] : List UInt8).length from hpos) (by rw [mdpMtu, length_nil]; omega)
      (Nat.lt_succ_self _) hrx (fun h => absurd rfl h)
    obtain ⟨sent', r', hsent', hr', hcount, hrest⟩ := ih sent.1 hnone r.state hready
    refine ⟨(sent'.1, sent.2 ++ sent'.2), r.followed r', ?_, receive_append rs rx hr hr', ?_, ?_⟩
    · rw [map_cons, sendAll, radioLinkQueuePacket, htx, hflip, if_neg (by exact Bool.false_ne_true),
        Option.map_some, Option.bind_some, hsent, Option.bind_some, hsent', Option.map_some]
    · rw [Received.followed, hdel]
      simp only [length_append, length_cons, length_nil, hcount]
      omega
    intro table
    rw [Received.followed, hdel]
    exact rel_append (c.relayed table) (hrest _)

def stations : List Sid := [sidOf 1, sidOf 2, sidOf 3]

/-- A neighbour that knows as many subscribers as the relay. -/
def listener : Node := { neighbour [] with
  find := fun _ bytes => (findSubscriber (insertAll stations) bytes true).1.map Subscriber.sid }

def twoHeard : Crossing relay stations where
  packet := twoBroadcasts
  full := noneFull
  sent := (twoBroadcasts.transmit relay noneFull).get twoBroadcasts_sent
  node := listener
  heard := fun _ => stations
  overlay := rfl
  mtu_le := le_rfl
  frames := by decide +kernel
  transmitted := (Option.some_get _).symm
  room := by decide +kernel
  receives := ⟨by decide, rfl, fun hsome => absurd hsome (by decide)⟩
  tables := ⟨by decide +kernel, fun _ _ => rfl, fun _ _ h => h⟩
  findable := fun a ha => .inr fun _ => (show ∀ a ∈ allAddresses twoBroadcasts relay noneFull
    ((twoBroadcasts.transmit relay noneFull).get twoBroadcasts_sent).placed, a.subscriber ∈ stations
      by decide +kernel) a ha

/-- Two packets with two broadcasts each. -/
theorem frames_over_radio_two : ∃ sent r,
    sendAll ccsds ⟨0, none⟩ [twoHeard.sent.bytes, twoHeard.sent.bytes] = some sent ∧
      receive ccsds .start sent.2 = some r ∧ r.delivered.length = 2 ∧
      ∀ table, AllDecoded ([twoHeard, twoHeard].flatMap fun c => c.sent.placed)
        (relayPackets ([twoHeard.node, twoHeard.node].zip r.delivered) table).received :=
  frames_over_radio _ ccsds_faithful relay stations [twoHeard, twoHeard] ⟨0, none⟩ rfl .start
    start_ready

end PacketRadio
