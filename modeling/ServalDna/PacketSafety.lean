import ServalDna.AddressCompression
import ServalDna.QueueAck

/-!
# Packets of any content

What `packetOkOverlay` makes of bytes that need not come from a node. An envelope
header that is cut off behind the sender's address is taken as complete, its missing
fields as if all their bits were set. A broadcast may ask to be decrypted with the key
of its destination, which it does not have.
-/
namespace PacketSafety

open ByteFlags OverlayBuffer OverlayPacket
open BufferReads (Holds)
open PacketStream (static_rests)
open QueueAck (LinkIn)
open AddressCompression (neighbour sidOf)
open SubscriberTrie (Sid sidSize)

/-! ## Envelope headers that are cut off -/

/-- An incoming link of a neighbour, for the interface that the packets come in on. -/
structure InLink where
  sender : Sid
  senderInterface : Int
  unicast : Bool
  window : LinkIn
  deriving DecidableEq

/-- The sequence numbers of a link; -1 is a packet without one. -/
def InLink.receive (link : InLink) (senderSeq : Int) : Bool × InLink :=
  if senderSeq < 0 then (false, link)
  else
    let (duplicate, window) := QueueAck.linkReceivedPacket link.window (UInt8.ofNat senderSeq.toNat)
    (duplicate, { link with window })

/-- `link_received_packet`, without the times and the counter until the next acknowledgement. The
link is made if there is none, and with it the neighbour. -/
def linkReceivedPacket (links : List InLink) (sender : Option Sid) (senderInterface senderSeq : Int)
    (unicast : Bool) : Bool × List InLink :=
  match sender with
  | none => (false, links)
  | some s =>
    let found (link : InLink) : Bool :=
      link.sender = s && link.senderInterface = senderInterface && link.unicast = unicast
    match links.find? found with
    | some link =>
      let (duplicate, link) := link.receive senderSeq
      (duplicate, links.map fun other => if found other then link else other)
    | none =>
      let (duplicate, link) := InLink.receive ⟨s, senderInterface, unicast, .new⟩ senderSeq
      (duplicate, link :: links)

/-- What `parseEnvelopeHeader` returns: -1, 1 for a packet of our own, or what
`link_received_packet` returns. -/
inductive Answer where
  | error
  | own
  | received (duplicate : Bool)
  deriving DecidableEq

/-- The fields behind the sender's address. -/
structure Fields where
  senderInterface : Int
  senderSeq : Int
  unicast : Bool

def fieldIf (flags : Option UInt8) (flag : UInt8) (b : Buffer) : Option (Read (Option UInt8)) :=
  if flags.all (hasFlag · flag) then some (obGet b) else none

def envelopeFields (b : Buffer) : Fields :=
  let flags := (obGet b).value
  let b := (obGet b).buffer
  let interface := fieldIf flags packetInterface b
  let seq := fieldIf flags packetSeq ((interface.map Read.buffer).getD b)
  { senderInterface := interface.elim 0 fun r => r.value.elim (-1) fun x => x.toNat
    senderSeq := seq.elim (-1) fun r => r.value.elim 0xFF fun x => x.toNat
    unicast := flags.all (hasFlag · packetUnicast) }

def envelopeAddress (node : Node) (b : Buffer) : Option (Option Sid × Decoder × Buffer) := do
  let version ← (obGet b).value
  let b := (obGet b).buffer
  if version > supportedVersion then none else
  let code ← (obGet b).value
  let b := (obGet b).buffer
  let encapsulation ← Encapsulation.ofCode code
  overlayAddressParse node (envelopeDecoder node version encapsulation) b none

/-- What is noted of a packet once the sender is known. -/
def noteSender (node : Node) (links : List InLink) (sender : Option Sid) (fields : Fields) :
    Answer × List InLink :=
  if sender.any node.isSelf then (.own, links)
  else
    let (duplicate, links) :=
      linkReceivedPacket links sender fields.senderInterface fields.senderSeq fields.unicast
    (.received duplicate, links)

/-- `parseEnvelopeHeader` and what it does to the links. -/
def receiveEnvelope (node : Node) (links : List InLink) (b : Buffer) : Answer × List InLink :=
  match envelopeAddress node b with
  | none => (.error, links)
  | some (sender, _, b) => noteSender node links sender (envelopeFields b)

/-- The header of a packet; `none` is a failed assertion. -/
def receivePacket (node : Node) (links : List InLink) (packet : List UInt8) :
    Option (Answer × List InLink) :=
  (obLimitsize (obStatic packet) packet.length).map (receiveEnvelope node links)

theorem parseEnvelopeHeader_eq (node : Node) (b : Buffer) :
    parseEnvelopeHeader node b = (envelopeAddress node b).bind fun r =>
      (envelopeSender node r.1 r.2.1).map (·, skipEnvelopeFields r.2.2) := by
  unfold parseEnvelopeHeader envelopeAddress
  cases (obGet b).value with
  | none => rfl
  | some version =>
    simp only [Option.bind_eq_bind, Option.bind_some]
    split
    · rfl
    · simp only [Option.bind_assoc]

/-! ### The bytes of a header -/

/-- A code that stands for an address without further bytes. -/
def shortCode (code : UInt8) : Bool := code ∈ [codeP2pYou, codeP2pMe, codeSelf, codePrevious]

/-- The bytes of an address behind its code. -/
def addressLength (code : UInt8) : Nat := if shortCode code then 0 else code.toNat

/-- The bytes that the flags announce. -/
def fieldCount (flags : UInt8) : Nat :=
  (hasFlag flags packetInterface).toNat + (hasFlag flags packetSeq).toNat

/-- The flags are missing, or a byte that they announce. -/
def incomplete : List UInt8 → Bool
  | [] => true
  | flags :: fields => fields.length < fieldCount flags

/-- The packet ends before its header is complete. -/
def cutOff : List UInt8 → Bool
  | _ :: _ :: code :: rest => incomplete (rest.drop (addressLength code))
  | _ => true

/-- The bytes behind the sender's address, if it is complete and what stands before it is supported. -/
def behindAddress : List UInt8 → Option (List UInt8)
  | version :: encapsulation :: code :: rest =>
    if version ≤ supportedVersion ∧ (Encapsulation.ofCode encapsulation).isSome ∧
        (shortCode code ∨ 0 < code.toNat ∧ code.toNat ≤ sidSize) ∧ addressLength code ≤ rest.length then
      some (rest.drop (addressLength code))
    else none
  | _ => none

/-- What is taken for the fields where they are incomplete: the missing bits are set. -/
def assumed : List UInt8 → Fields
  | [] => ⟨-1, 255, true⟩
  | [flags] => ⟨if hasFlag flags packetInterface then -1 else 0, if hasFlag flags packetSeq then 255 else -1,
      hasFlag flags packetUnicast⟩
  | flags :: senderInterface :: _ => ⟨senderInterface.toNat, 255, hasFlag flags packetUnicast⟩

theorem get_nil (h : Holds b []) : obGet b = ⟨none, b, []⟩ := by
  have hlen := h.length_eq
  have hin := h.sound.inside
  have htest : testOffset b 1 = false := by
    rw [Bool.eq_false_iff, ne_eq, h.sound.testOffset_iff 1 (by decide)]
    simp only [List.length_nil] at hlen
    omega
  simp [obGet, Buffer.readFixed, htest]

theorem bytes_missing (h : Holds b xs) (hlen : xs.length < n) (hn : n < 2 ^ 63) :
    (obGetBytesPtr b n).value = none := by
  have hlim := h.length_eq
  have htest : testOffset b n = false := by
    rw [Bool.eq_false_iff, ne_eq, h.sound.testOffset_iff n hn]
    omega
  simp [obGetBytesPtr, Buffer.readFixed, htest]

/-- The fields that are read from incomplete bytes. -/
theorem envelopeFields_incomplete (h : Holds b fields) (hinc : incomplete fields = true) :
    envelopeFields b = assumed fields := by
  obtain _ | ⟨flags, _ | ⟨x, rest⟩⟩ := fields
  · simp [envelopeFields, fieldIf, get_nil h, assumed]
  · have hend : Holds (b.advance 1) [] := (show Holds b ([flags] ++ []) from h).advance
    simp only [envelopeFields, fieldIf, h.obGet, Option.all_some, assumed]
    cases hasFlag flags packetInterface <;> cases hasFlag flags packetSeq <;> simp [get_nil hend]
  · -- a field is missing although one is there, so both are announced
    have hlen : rest.length + 1 < fieldCount flags := of_decide_eq_true hinc
    have hseq := Bool.toNat_le (hasFlag flags packetSeq)
    have hint := Bool.toNat_le (hasFlag flags packetInterface)
    rw [fieldCount] at hlen
    have hrest : rest = [] := List.length_eq_zero_iff.mp (by omega)
    have hboth : hasFlag flags packetInterface = true ∧ hasFlag flags packetSeq = true := by
      simp only [← Bool.toNat_eq_one]
      omega
    subst hrest
    have hnext : Holds (b.advance 1) [x] := (show Holds b ([flags] ++ [x]) from h).advance
    have hend : Holds ((b.advance 1).advance 1) [] := (show Holds (b.advance 1) ([x] ++ []) from hnext).advance
    simp [envelopeFields, fieldIf, h.obGet, hnext.obGet, get_nil hend, hboth, assumed]

/-- An address is read to its end if it is complete, and refused if not. -/
theorem addressParse_bytes (node : Node) (d : Decoder) (h : Holds b (code :: rest)) :
    if (shortCode code ∨ 0 < code.toNat ∧ code.toNat ≤ sidSize) ∧ addressLength code ≤ rest.length then
      ∃ r ∈ overlayAddressParse node d b none, Holds r.2.2 (rest.drop (addressLength code))
    else overlayAddressParse node d b none = none := by
  have hnext : Holds (b.advance 1) rest := (show Holds b ([code] ++ rest) from h).advance
  simp only [overlayAddressParse, h.obGet, addressLength]
  cases hshort : shortCode code with
  | true =>
    simp only [true_or, if_true, true_and, Nat.zero_le, List.drop_zero]
    simp only [shortCode, List.mem_cons, List.not_mem_nil, or_false, decide_eq_true_eq] at hshort
    repeat' split
    all_goals first | exact ⟨_, rfl, hnext⟩ | simp_all
  | false =>
    simp only [shortCode, List.mem_cons, List.not_mem_nil, or_false, decide_eq_false_iff_not, not_or]
      at hshort
    simp only [hshort.1, hshort.2.1, hshort.2.2.1, hshort.2.2.2, if_false, Bool.false_eq_true, false_or]
    rw [findSubscrBuffer]
    by_cases hsize : 0 < code.toNat ∧ code.toNat ≤ sidSize
    · rw [if_neg (by omega : ¬(code.toNat = 0 ∨ code.toNat > sidSize))]
      by_cases hlen : code.toNat ≤ rest.length
      · have htake : Holds (b.advance 1) (rest.take code.toNat ++ rest.drop code.toNat) := by
          rwa [List.take_append_drop]
        have hcount : (rest.take code.toNat).length = code.toNat := by simp [hlen]
        have hread := htake.obGetBytes
        have hdrop := htake.advance
        rw [hcount] at hread hdrop
        rw [if_pos ⟨hsize, hlen⟩, show obGetBytesPtr (b.advance 1) code.toNat = _ from hread]
        exact ⟨_, rfl, hdrop⟩
      · rw [if_neg (fun h => hlen h.2), bytes_missing hnext (by omega) (code.toNat_lt.trans (by decide))]
    · rw [if_neg (fun h => hsize h.1), if_pos (by omega)]

/-- Where the fields behind the sender's address begin. -/
theorem envelopeAddress_bytes (node : Node) (h : Holds b packet) :
    match behindAddress packet with
    | none => envelopeAddress node b = none
    | some fields => ∃ r ∈ envelopeAddress node b, Holds r.2.2 fields := by
  obtain _ | ⟨version, _ | ⟨encapsulation, rest⟩⟩ := packet
  · simp [behindAddress, envelopeAddress, get_nil h]
  · have hend : Holds (b.advance 1) [] := (show Holds b ([version] ++ []) from h).advance
    simp [behindAddress, envelopeAddress, h.obGet, get_nil hend]
  have hnext : Holds (b.advance 1) (encapsulation :: rest) :=
    (show Holds b ([version] ++ _) from h).advance
  have hadr : Holds ((b.advance 1).advance 1) rest :=
    (show Holds (b.advance 1) ([encapsulation] ++ _) from hnext).advance
  simp only [envelopeAddress, h.obGet, hnext.obGet, Option.bind_eq_bind, Option.bind_some]
  by_cases hver : version ≤ supportedVersion
  · rw [if_neg (UInt8.not_lt.mpr hver)]
    cases henc : Encapsulation.ofCode encapsulation with
    | none =>
      cases rest <;> simp [behindAddress, henc]
    | some e =>
      obtain _ | ⟨code, rest⟩ := rest
      · simp [behindAddress, overlayAddressParse, get_nil hadr]
      · have hparse := addressParse_bytes node (envelopeDecoder node version e) hadr
        simp only [behindAddress, hver, henc, Option.isSome_some, true_and, Option.bind_some]
        split at hparse
        · next hcode => simpa only [if_pos hcode] using hparse
        · next hcode => simpa only [if_neg hcode] using hparse
  · rw [if_pos (UInt8.not_le.mp hver)]
    cases rest <;> simp [behindAddress, hver]

theorem behindAddress_cutOff (h : fields ∈ behindAddress packet) : cutOff packet = incomplete fields := by
  obtain _ | ⟨version, _ | ⟨encapsulation, _ | ⟨code, rest⟩⟩⟩ := packet
  · cases h
  · cases h
  · cases h
  rw [Option.mem_def, behindAddress] at h
  split at h
  · cases h
    rfl
  · cases h

/-- The sender that the address of a packet stands for. -/
def packetSender (node : Node) (packet : List UInt8) : Option Sid := do
  let b ← obLimitsize (obStatic packet) packet.length
  (← envelopeAddress node b).1

/-- **A packet that ends before its header is complete is refused, and no link is changed, exactly if
it does not end between the sender's address and the last field.** If it ends there, it is noted with
the missing bits set. -/
theorem cut_off_refused_iff (node : Node) (links : List InLink) (packet : List UInt8)
    (hsmall : packet.length < 2 ^ 31) :
    ((cutOff packet = true → receivePacket node links packet = some (.error, links)) ↔
      ∀ fields ∈ behindAddress packet, incomplete fields = false) ∧
    ∀ fields ∈ behindAddress packet, incomplete fields = true →
      receivePacket node links packet =
        some (noteSender node links (packetSender node packet) (assumed fields)) := by
  obtain ⟨b, hb, hrests⟩ := static_rests hsmall
  have hadr := envelopeAddress_bytes node hrests.holds
  have hnoted (fields : List UInt8) (hfields : fields ∈ behindAddress packet)
      (hinc : incomplete fields = true) : receivePacket node links packet =
        some (noteSender node links (packetSender node packet) (assumed fields)) := by
    rw [hfields] at hadr
    obtain ⟨r, hr, hholds⟩ := hadr
    simp only [receivePacket, packetSender, hb, Option.map_some, receiveEnvelope, Option.mem_def.mp hr,
      envelopeFields_incomplete hholds hinc, Option.bind_eq_bind, Option.bind_some]
  refine ⟨⟨fun h fields hfields => ?_, fun h hcut => ?_⟩, hnoted⟩
  · by_contra hinc
    rw [Bool.not_eq_false] at hinc
    have hcut : cutOff packet = true := by
      rw [behindAddress_cutOff hfields]
      exact hinc
    have herr := (hnoted fields hfields hinc).symm.trans (h hcut)
    rw [noteSender] at herr
    split at herr <;> cases herr
  · have hnone : behindAddress packet = none := by
      rw [Option.eq_none_iff_forall_not_mem]
      intro fields hfields
      rw [behindAddress_cutOff hfields, h fields hfields] at hcut
      cases hcut
    rw [hnone] at hadr
    simp [receivePacket, hb, receiveEnvelope, hadr]

theorem cut_off_refused_version : receivePacket (neighbour [sidOf 2]) [] [1] = some (.error, []) :=
  (cut_off_refused_iff _ _ _ (by decide)).1.mpr (by simp [behindAddress]) rfl

/-- A packet that ends with the address of a neighbour is noted for the interface -1 and
the sequence number 255. -/
theorem cut_off_accepted : cutOff [1, 1, 1, 2] = true ∧
    receivePacket (neighbour [sidOf 2]) [] [1, 1, 1, 2] =
      some (.received false, [⟨sidOf 2, -1, true, ⟨some 255, 0⟩⟩]) := by
  decide +kernel

/-! ## Frames that are to be decrypted -/

/-- `process_incoming_frame` hands a frame of data to `overlay_mdp_decrypt`, which looks
up the destination's key if neither of the flags for no encryption and no signature
stands for a modifier. -/
def looksUpKey (r : Received) : Bool :=
  r.process && r.frame.type == typeData && hasFlag r.frame.modifiers flagCiphered &&
    hasFlag r.frame.modifiers flagSigned

/-- A payload that is processed is addressed to somebody or to everybody, as its flags say. -/
def Aimed (flags : UInt8) (p : Parse) : Prop :=
  p.process = true → (p.frame.destination.isSome ↔ hasFlag flags flagToBroadcast = false)

theorem aimed_target (h : parseTarget node i flags p = some q) : Aimed flags q := by
  revert h
  fun_cases parseTarget with
  | case1 hto =>
    have hnob : (none : Option Sid).isSome ↔ hasFlag flags flagToBroadcast = false := by simp [hto]
    fun_cases parseBroadcast with
    | case1 | case3 =>
      rintro ⟨⟩
      exact fun _ => hnob
    | _ => rintro ⟨⟩
  | case2 hto =>
    fun_cases parseDestination with
    | case1 => rintro ⟨⟩
    | case2 dst =>
      have hmine (process : Bool) (hproc : (process && node.isMine dst) = true) :
          dst.isSome ↔ hasFlag flags flagToBroadcast = false := by
        cases dst with
        | none => simp [Node.isMine] at hproc
        | some _ => simpa using hto
      fun_cases parseNextHop with
      | case2 => rintro ⟨⟩
      | _ =>
        rintro ⟨⟩
        exact hmine _

-- the rest of the header leaves the destination as it is, and only stops processing

theorem aimed_ttl (h : Aimed flags p) (hq : parseTtl flags' p = some q) : Aimed flags q := by
  unfold parseTtl at hq
  split at hq
  · cases hq
    exact h
  split at hq <;> cases hq
  exact h

theorem aimed_type (h : Aimed flags p) (hq : parseType flags' p = some q) : Aimed flags q := by
  unfold parseType at hq
  split at hq
  · split at hq <;> cases hq
    exact h
  cases hq
  exact h

theorem aimed_sequence (h : Aimed flags p) (hq : parseSequence node i p = some q) : Aimed flags q := by
  unfold parseSequence at hq
  split at hq
  · split at hq <;> cases hq
    exact fun hproc => h (Bool.and_eq_true_iff.mp hproc).1
  cases hq
  exact h

theorem aimed_header (h : parseMdpPacketHeader node i d f b = some p) : Aimed p.frame.modifiers p := by
  obtain ⟨flags, -, h⟩ := Option.bind_eq_some_iff.mp h
  obtain ⟨p1, -, h⟩ := Option.bind_eq_some_iff.mp h
  obtain ⟨p2, htgt, h⟩ := Option.bind_eq_some_iff.mp h
  obtain ⟨p3, httl, h⟩ := Option.bind_eq_some_iff.mp h
  obtain ⟨p4, htype, h⟩ := Option.bind_eq_some_iff.mp h
  obtain ⟨p5, hseq, ⟨⟩⟩ := Option.bind_eq_some_iff.mp h
  have haimed := aimed_sequence (aimed_type (aimed_ttl (aimed_target htgt) httl) htype) hseq
  exact fun hproc => haimed (Bool.and_eq_true_iff.mp hproc).1

/-- A payload that is processed has a destination unless it is a broadcast. -/
theorem aimed_loop (hr : r ∈ payloadLoop node ps i d f b) (hproc : r.process = true) :
    r.frame.destination.isSome ↔ hasFlag r.frame.modifiers flagToBroadcast = false := by
  fun_induction payloadLoop node ps i d f b with
  | case6 _ _ _ _ _ _ _ p hp _ _ _ _ _ _ _ ih | case7 _ _ _ _ _ _ _ p hp _ _ _ _ _ ih =>
    obtain rfl | hr := List.mem_cons.mp hr
    · exact aimed_header hp hproc
    · exact ih hr
  | _ => cases hr

/-- A frame whose destination's key is looked up has a destination if and only if it is
not a broadcast. -/
theorem decrypted_destination_iff (node : Node) (packet : List UInt8) :
    ∀ r ∈ packetOkOverlay node packet, looksUpKey r = true →
      (r.frame.destination.isSome ↔ hasFlag r.frame.modifiers flagToBroadcast = false) := by
  intro r hr hlooks
  simp only [looksUpKey, Bool.and_eq_true] at hlooks
  unfold packetOkOverlay at hr
  split at hr
  · cases hr
  · exact aimed_loop hr hlooks.1.1.1

theorem decrypted_destination_none :
    ∃ r ∈ packetOkOverlay (neighbour [sidOf 2]) [0, 1, 1, 2, 0, 0x37, 0, 0], looksUpKey r = true ∧
      (r.frame.destination.isSome ↔ hasFlag r.frame.modifiers flagToBroadcast = false) := by
  have hone : (packetOkOverlay (neighbour [sidOf 2]) [0, 1, 1, 2, 0, 0x37, 0, 0]).map looksUpKey =
      [true] := by decide +kernel
  obtain ⟨r, hr, hlooks⟩ := List.mem_map.mp (hone ▸ List.mem_singleton_self true)
  exact ⟨r, hr, hlooks, decrypted_destination_iff _ _ r hr hlooks⟩

/-- A broadcast with both modifiers over one hop: there is no destination to look up. -/
theorem encrypted_broadcast_processed :
    (packetOkOverlay (neighbour [sidOf 2]) [0, 1, 1, 2, 0, 0x37, 0, 0]).map
      (fun r => (looksUpKey r, r.frame.destination)) = [(true, none)] := by
  decide +kernel

end PacketSafety
