import ServalDna.BufferReads
import ServalDna.OverlayPacket

/-!
# Records of a link state message

Every record of a link state message begins with its length, so that fields that a
node does not know can be jumped over. The loop that reads the records does not
always jump: a record with the number of an interface that cannot exist is left in
its middle, a record with a field that cannot be read ends the loop, and a length
beyond the end of the message is not checked before the jump.
-/
namespace LinkRecords

open ByteFlags OverlayBuffer BufferReads OverlayPacket Option
open SubscriberTrie (Sid sidSize)

def flagHasInterface : UInt8 := 1
def flagNoPath : UInt8 := 2
def flagHasAck : UInt8 := 16
def flagHasDropRate : UInt8 := 32

def maxInterfaces : UInt8 := 16

def numberOfSetBits (i : UInt32) : UInt32 :=
  let i := i - (i >>> 1 &&& (0x55555555 : UInt32))
  let i := (i &&& (0x33333333 : UInt32)) + (i >>> 2 &&& (0x33333333 : UInt32))
  (((i + i >>> 4) &&& (0x0F0F0F0F : UInt32)) * 0x01010101) >>> 24

example : numberOfSetBits 0xF0F00F11 = 14 := by decide

/-- The fields of a record; `start` is the position of its length, and `fieldsEnd` the
position behind the last field that was read. A missing interface or
acknowledgement is -1 in the source. -/
structure Record where
  start : Nat
  length : UInt8
  flags : UInt8
  receiver : Option Sid
  version : UInt8
  transmitter : Option Sid
  interfaceId : Option UInt8
  ackSeq : Option UInt8
  ackMask : UInt32
  dropRate : UInt32
  invalidAddress : Bool
  fieldsEnd : Nat
  deriving DecidableEq

/-! ## Reading a record -/

/-- The fields that every record has. -/
structure Head where
  flags : UInt8
  receiver : Option Sid
  version : UInt8
  transmitter : Option Sid
  decoder : Decoder
  buffer : Buffer

def readTransmitter (node : Node) (flags : UInt8) (d : Decoder) (b : Buffer) :
    Option (Option Sid × Decoder × Buffer) :=
  if hasFlag flags flagNoPath then some (none, d, b) else overlayAddressParse node d b none

def readHead (node : Node) (d : Decoder) (b : Buffer) : Option Head := do
  let flags ← (obGet b).value
  let d := { d with context := { d.context with encodingHeader := false, invalidAddress := false } }
  let receiver ← overlayAddressParse node d (obGet b).buffer none
  let version ← (obGet receiver.2.2).value
  let transmitter ← readTransmitter node flags receiver.2.1 (obGet receiver.2.2).buffer
  some ⟨flags, receiver.1, version, transmitter.1, transmitter.2.1, transmitter.2.2⟩

def maskDropRate (ackMask : UInt32) : UInt32 :=
  let rate := 15 - numberOfSetBits (ackMask &&& 0x7FFF)
  if rate ≤ 3 then 0 else rate

def readAck (flags : UInt8) (b : Buffer) : Option UInt8 × UInt32 × UInt32 × Buffer :=
  if hasFlag flags flagHasAck then
    let mask := obGetUi32 (obGet b).buffer
    ((obGet b).value, mask.value, maskDropRate mask.value, mask.buffer)
  else (none, 0, 0, b)

def readDropRate (flags : UInt8) (rate : UInt32) (b : Buffer) : Option (UInt32 × Buffer) :=
  if hasFlag flags flagHasDropRate then (obGet b).value.map fun rate => (rate.toUInt32, (obGet b).buffer)
  else some (rate, b)

/-- How a pass of the loop ends: there is no record; the loop is left; the record is
ignored and the next pass begins where it stands; or the record has been read and the
next pass begins behind it. -/
inductive Outcome where
  | ended
  | broken
  | ignored (d : Decoder) (b : Buffer)
  | read (r : Record) (d : Decoder) (b : Buffer)

def readRest (start : Buffer) (length : UInt8) (h : Head) (interfaceId : Option UInt8) (b : Buffer) :
    Outcome :=
  let ack := readAck h.flags b
  match readDropRate h.flags ack.2.2.1 ack.2.2.2 with
  | none => .broken
  | some drop =>
    .read ⟨start.position, length, h.flags, h.receiver, h.version, h.transmitter, interfaceId,
        ack.1, ack.2.1, drop.1, h.decoder.context.invalidAddress, drop.2.position⟩
      h.decoder { drop.2 with position := start.position + length.toNat }

def readRecord (node : Node) (d : Decoder) (b : Buffer) (length : UInt8) : Outcome :=
  match readHead node d (obGet b).buffer with
  | none => .broken
  | some h =>
    if hasFlag h.flags flagHasInterface then
      match (obGet h.buffer).value with
      | none => .broken
      | some id =>
        if id ≥ maxInterfaces then .ignored h.decoder (obGet h.buffer).buffer
        else readRest b length h (some id) (obGet h.buffer).buffer
    else readRest b length h none h.buffer

def linkRecord (node : Node) (d : Decoder) (b : Buffer) : Outcome :=
  match (obGet b).value with
  | none => .ended
  | some length => if length = 0 then .ended else readRecord node d b length

/-! ## Readers only move on -/

/-- The position has moved on in the same area. -/
structure Onward (b b' : Buffer) : Prop where
  bytes : b'.bytes = b.bytes
  sizeLimit : b'.sizeLimit = b.sizeLimit
  position : b.position ≤ b'.position

namespace Onward

theorem refl (b : Buffer) : Onward b b := ⟨rfl, rfl, le_rfl⟩

theorem trans (h : Onward b b') (h' : Onward b' b'') : Onward b b'' :=
  ⟨h'.bytes.trans h.bytes, h'.sizeLimit.trans h.sizeLimit, le_trans h.position h'.position⟩

theorem readFixed {α : Type} (b : Buffer) (n : Nat) (failed : α) (value : (Nat → UInt8) → α) :
    Onward b (b.readFixed n failed value).buffer := by
  rw [Buffer.readFixed]
  split
  · exact ⟨rfl, rfl, Nat.le_add_right _ _⟩
  · exact refl b

theorem obGet (b : Buffer) : Onward b (obGet b).buffer := readFixed b 1 none _

theorem address {r : Option Sid × Decoder × Buffer}
    (h : overlayAddressParse node d b subscriber = some r) : Onward b r.2.2 := by
  have hget := Onward.obGet b
  rw [overlayAddressParse] at h
  split at h
  · cases h
  split at h
  · cases h
    exact hget
  split at h
  · cases h
    exact hget
  split at h
  · cases h
    exact hget
  split at h
  · cases h
    exact hget
  rw [findSubscrBuffer] at h
  split at h
  · cases h
  split at h <;> cases h
  exact hget.trans (readFixed _ _ _ _)

end Onward

theorem readHead_onward {h : Head} (hhead : readHead node d b = some h) : Onward b h.buffer := by
  obtain ⟨flags, -, hhead⟩ := bind_eq_some_iff.mp hhead
  obtain ⟨rcv, hrcv, hhead⟩ := bind_eq_some_iff.mp hhead
  obtain ⟨version, -, hhead⟩ := bind_eq_some_iff.mp hhead
  obtain ⟨transmitter, htx, ⟨⟩⟩ := bind_eq_some_iff.mp hhead
  have hst := ((Onward.obGet b).trans (Onward.address hrcv)).trans (Onward.obGet _)
  rw [readTransmitter] at htx
  split at htx
  · cases htx
    exact hst
  · exact hst.trans (Onward.address htx)

theorem readAck_onward : Onward b (readAck flags b).2.2.2 := by
  rw [readAck]
  split
  · exact (Onward.obGet b).trans (Onward.readFixed _ _ _ _)
  · exact Onward.refl b

theorem readDropRate_onward (h : readDropRate flags rate b = some r) : Onward b r.2 := by
  rw [readDropRate] at h
  split at h
  · obtain ⟨byte, -, rfl⟩ := map_eq_some_iff.mp h
    exact Onward.obGet b
  cases h
  exact Onward.refl b

def Left (b : Buffer) (length : UInt8) : Outcome → Prop
  | .ended => False
  | .broken => True
  | .ignored _ b' => Onward (b.advance 1) b'
  | .read r _ b' => r.start = b.position ∧ r.length = length ∧ b'.bytes = b.bytes ∧
      b'.sizeLimit = b.sizeLimit ∧ b'.position = b.position + length.toNat

theorem readRest_left (h : Head) (id : Option UInt8) (hb : Onward start b) :
    Left start length (readRest start length h id b) := by
  rw [readRest]
  split
  · trivial
  next drop hdrop =>
  have honw := (hb.trans readAck_onward).trans (readDropRate_onward hdrop)
  exact ⟨rfl, rfl, honw.bytes, honw.sizeLimit, rfl⟩

theorem obGet_some (h : (obGet b).value = some x) :
    x = b.byteAt b.position ∧ (obGet b).buffer = b.advance 1 := by
  rw [obGet, Buffer.readFixed] at h ⊢
  split at h
  · next htest =>
    rw [if_pos htest]
    exact ⟨(Option.some.inj h).symm, rfl⟩
  · cases h

theorem readRecord_left (node : Node) (d : Decoder) (length : UInt8)
    (hget : (obGet b).buffer = b.advance 1) : Left b length (readRecord node d b length) := by
  have hmv : Onward b (b.advance 1) := ⟨rfl, rfl, Nat.le_add_right _ _⟩
  rw [readRecord, hget]
  split
  · trivial
  next h hhead =>
  have hhead := readHead_onward hhead
  split
  · split
    · trivial
    split
    · exact hhead.trans (Onward.obGet _)
    · exact readRest_left h _ ((hmv.trans hhead).trans (Onward.obGet _))
  · exact readRest_left h none (hmv.trans hhead)

/-- A pass that finds a record has found a length that is not zero. -/
theorem linkRecord_left : linkRecord node d b = .ended ∨
      (b.byteAt b.position ≠ 0 ∧ Left b (b.byteAt b.position) (linkRecord node d b)) := by
  rw [linkRecord]
  split
  · exact .inl rfl
  next length hlen =>
  obtain ⟨rfl, hmv⟩ := obGet_some hlen
  split
  · exact .inl rfl
  · next hne => exact .inr ⟨hne, readRecord_left node d _ hmv⟩

theorem toNat_pos {x : UInt8} (h : x ≠ 0) : 0 < x.toNat :=
  Nat.pos_of_ne_zero fun h0 => h (UInt8.toNat_inj.mp h0)

theorem record_found (h : linkRecord node d b = o) (ho : o ≠ .ended) :
    b.byteAt b.position ≠ 0 ∧ Left b (b.byteAt b.position) o :=
  h ▸ linkRecord_left.resolve_left (h ▸ ho)

theorem linkRecord_ignored (h : linkRecord node d b = .ignored d' b') : Onward (b.advance 1) b' :=
  (record_found h nofun).2

theorem linkRecord_read (h : linkRecord node d b = .read r d' b') :
    r.start = b.position ∧ r.length = b.byteAt b.position ∧ b'.bytes = b.bytes ∧
      b'.sizeLimit = b.sizeLimit ∧ b'.position = b.position + (b.byteAt b.position).toNat :=
  (record_found h nofun).2

/-! ## The loop -/

/-- The passes of the loop: where each found a record, what was read, and whether the
assertion of `ob_remaining` has failed. -/
structure Trace where
  starts : List Nat
  records : List Record
  failed : Bool
  deriving DecidableEq

theorem obRemaining_lt (h : obRemaining b = some (n + 1)) : b.position < b.sizeLimit := by
  rw [obRemaining] at h
  split at h
  · have := Option.some.inj h
    omega
  · cases h

theorem read_advances (hpos : b.position < b.sizeLimit) (h : linkRecord node d b = .read r d' b') :
    b'.sizeLimit - b'.position < b.sizeLimit - b.position := by
  obtain ⟨-, -, -, hlim, hposi⟩ := linkRecord_read h
  have := toNat_pos (record_found h nofun).1
  omega

theorem ignored_advances (hpos : b.position < b.sizeLimit) (h : linkRecord node d b = .ignored d' b') :
    b'.sizeLimit - b'.position < b.sizeLimit - b.position := by
  have honw := linkRecord_ignored h
  have hlim : b'.sizeLimit = b.sizeLimit := honw.sizeLimit
  have hposi : b.position + 1 ≤ b'.position := honw.position
  omega

/-- The loop of `link_receive`, on the message of another node. -/
def receiveRecords (node : Node) (d : Decoder) (b : Buffer) : Trace :=
  match _hrem : obRemaining b with
  | none => ⟨[], [], true⟩
  | some 0 => ⟨[], [], false⟩
  | some (_ + 1) =>
    match _hrec : linkRecord node d b with
    | .ended => ⟨[], [], false⟩
    | .broken => ⟨[b.position], [], false⟩
    | .ignored d' b' =>
      let rest := receiveRecords node d' b'
      ⟨b.position :: rest.starts, rest.records, rest.failed⟩
    | .read r d' b' =>
      let rest := receiveRecords node d' b'
      ⟨b.position :: rest.starts, r :: rest.records, rest.failed⟩
termination_by b.sizeLimit - b.position
decreasing_by
  · exact ignored_advances (obRemaining_lt _hrem) _hrec
  · exact read_advances (obRemaining_lt _hrem) _hrec

/-- The context of `link_receive` names no sender and no other device. -/
def linkReceive (node : Node) (payload : Buffer) : Trace :=
  receiveRecords node ⟨Context.start, 0⟩ payload

/-! ## Splitting at the lengths -/

/-- Where the records begin when the payload is split at their lengths. -/
def recordStarts (bytes : List UInt8) (limit start : Nat) : List Nat :=
  if _h : start < limit ∧ bytes.getD start 0 ≠ 0 then
    start :: recordStarts bytes limit (start + (bytes.getD start 0).toNat)
  else []
termination_by limit - start
decreasing_by
  have := toNat_pos _h.2
  omega

def startsAhead (b : Buffer) : List Nat := recordStarts b.bytes b.sizeLimit b.position

def behind (b : Buffer) : Buffer := b.advance (b.byteAt b.position).toNat

/-- The loop's assertion holds, it has found exactly the records that the lengths tell,
and it has read no field of a record behind the record's end. -/
structure Framed (b : Buffer) (t : Trace) : Prop where
  asserted : t.failed = false
  starts : t.starts = startsAhead b
  inside : ∀ r ∈ t.records, r.fieldsEnd ≤ r.start + r.length.toNat

/-- A payload whose lengths lead the loop: no record reaches beyond the payload or is
shorter than its fields, a record that cannot be read is the last one, and so is one
with an unknown interface, unless it ends with the interface. -/
inductive WellFramed (node : Node) : Decoder → Buffer → Prop where
  | done {d : Decoder} {b : Buffer} (inside : b.position ≤ b.sizeLimit) (nothing : startsAhead b = []) :
      WellFramed node d b
  | broken {d : Decoder} {b : Buffer} (found : b.position < b.sizeLimit)
      (record : linkRecord node d b = .broken) (last : startsAhead (behind b) = []) :
      WellFramed node d b
  | ignored {d d' : Decoder} {b b' : Buffer} (found : b.position < b.sizeLimit)
      (record : linkRecord node d b = .ignored d' b') (last : startsAhead (behind b) = [])
      (nothing : startsAhead b' = []) (inside : b'.position ≤ b'.sizeLimit) : WellFramed node d b
  | resumed {d d' : Decoder} {b b' : Buffer} (found : b.position < b.sizeLimit)
      (record : linkRecord node d b = .ignored d' b') (next : b'.position = (behind b).position)
      (rest : WellFramed node d' b') : WellFramed node d b
  | read {d d' : Decoder} {b b' : Buffer} {r : Record} (found : b.position < b.sizeLimit)
      (record : linkRecord node d b = .read r d' b')
      (fields : r.fieldsEnd ≤ r.start + r.length.toNat) (rest : WellFramed node d' b') :
      WellFramed node d b

theorem WellFramed.inside (h : WellFramed node d b) : b.position ≤ b.sizeLimit := by
  cases h with
  | done inside => exact inside
  | broken found | ignored found | resumed found | read found => exact found.le

/-! ## Following the lengths -/

theorem startsAhead_beyond (h : b.sizeLimit ≤ b.position) : startsAhead b = [] := by
  rw [startsAhead, recordStarts, dif_neg fun hfnd => Nat.not_lt.mpr h hfnd.1]

theorem startsAhead_zero (h : b.byteAt b.position = 0) : startsAhead b = [] := by
  rw [startsAhead, recordStarts, dif_neg fun hfnd => hfnd.2 h]

theorem startsAhead_cons (hpos : b.position < b.sizeLimit) (h : b.byteAt b.position ≠ 0) :
    startsAhead b = b.position :: startsAhead (behind b) := by
  rw [startsAhead, recordStarts, dif_pos ⟨hpos, h⟩]
  rfl

/-- The split goes on from the position only. -/
theorem startsAhead_congr (hbs : b'.bytes = b.bytes) (hlim : b'.sizeLimit = b.sizeLimit)
    (hpos : b'.position = b.position) : startsAhead b' = startsAhead b := by
  rw [startsAhead, startsAhead, hbs, hlim, hpos]

theorem startsAhead_head {xs : List Nat} (h : startsAhead b = x :: xs) : x = b.position := by
  rw [startsAhead, recordStarts] at h
  split at h
  · exact (List.cons.inj h).1.symm
  · cases h

section Inversion

variable {b : Buffer} (hpos : b.position < b.sizeLimit)

include hpos

theorem startsAhead_ne_nil (h : linkRecord node d b = o) (ho : o ≠ .ended) : startsAhead b ≠ [] := by
  rw [startsAhead_cons hpos (record_found h ho).1]
  exact List.cons_ne_nil _ _

theorem wellFramed_broken_iff (hrec : linkRecord node d b = .broken) :
    WellFramed node d b ↔ startsAhead (behind b) = [] := by
  constructor
  · intro h
    cases h with
    | done _ nothing => exact absurd nothing (startsAhead_ne_nil hpos hrec nofun)
    | broken _ _ last => exact last
    | ignored _ record | resumed _ record => exact Outcome.noConfusion (hrec.symm.trans record)
    | read _ record => exact Outcome.noConfusion (hrec.symm.trans record)
  · exact .broken hpos hrec

theorem wellFramed_ignored_iff (hrec : linkRecord node d b = .ignored d' b') : WellFramed node d b ↔
      (startsAhead (behind b) = [] ∧ startsAhead b' = [] ∧ b'.position ≤ b'.sizeLimit) ∨
        (b'.position = (behind b).position ∧ WellFramed node d' b') := by
  constructor
  · intro h
    cases h with
    | done _ nothing => exact absurd nothing (startsAhead_ne_nil hpos hrec nofun)
    | broken _ record => exact Outcome.noConfusion (hrec.symm.trans record)
    | ignored _ record last nothing inside =>
      cases hrec.symm.trans record
      exact .inl ⟨last, nothing, inside⟩
    | resumed _ record next rest =>
      cases hrec.symm.trans record
      exact .inr ⟨next, rest⟩
    | read _ record => exact Outcome.noConfusion (hrec.symm.trans record)
  rintro (⟨last, nothing, inside⟩ | ⟨next, rest⟩)
  · exact .ignored hpos hrec last nothing inside
  · exact .resumed hpos hrec next rest

theorem wellFramed_read_iff (hrec : linkRecord node d b = .read r d' b') :
    WellFramed node d b ↔ WellFramed node d' b' ∧ r.fieldsEnd ≤ r.start + r.length.toNat := by
  constructor
  · intro h
    cases h with
    | done _ nothing => exact absurd nothing (startsAhead_ne_nil hpos hrec nofun)
    | broken _ record | ignored _ record => exact Outcome.noConfusion (hrec.symm.trans record)
    | resumed _ record => exact Outcome.noConfusion (hrec.symm.trans record)
    | read _ record fields rest =>
      cases hrec.symm.trans record
      exact ⟨rest, fields⟩
  rintro ⟨rest, fields⟩
  exact .read hpos hrec fields rest

end Inversion

/-- A payload that a message has been received in: all of it lies in the area. -/
structure Payload (b : Buffer) : Prop where
  limited : b.sizeLimit ≤ b.allocSize
  small : b.allocSize < 2 ^ 63

theorem Payload.congr (h : Payload b) (hbs : b'.bytes = b.bytes)
    (hlim : b'.sizeLimit = b.sizeLimit) : Payload b' := by
  have hsize : b'.allocSize = b.allocSize := congrArg List.length hbs
  exact ⟨hsize ▸ hlim ▸ h.limited, hsize ▸ h.small⟩

/-- In a payload that is not used up, only a length of zero ends the loop. -/
theorem Payload.ended (h : Payload b) (hpos : b.position < b.sizeLimit)
    (hend : linkRecord node d b = .ended) : b.byteAt b.position = 0 := by
  have hlim := h.limited
  have hsm := h.small
  have htest : testOffset b 1 = true := by
    rw [testOffset_iff 1 (by rw [sizeMax]; omega)]
    exact Nat.le_min.mpr ⟨hpos, lt_of_lt_of_le hpos hlim⟩
  have hget : (obGet b).value = some (b.byteAt b.position) := by
    rw [obGet, Buffer.readFixed, if_pos htest]
    rfl
  by_contra hne
  rw [linkRecord, hget] at hend
  simp only [if_neg hne] at hend
  have hleft := readRecord_left node d (b.byteAt b.position) (obGet_some hget).2
  rw [hend] at hleft
  exact hleft

theorem obRemaining_zero (h : obRemaining b = some 0) : b.position = b.sizeLimit := by
  rw [obRemaining] at h
  split at h
  · have := Option.some.inj h
    omega
  · cases h

theorem Payload.remaining_none (hb : Payload b) (h : obRemaining b = none) :
    b.sizeLimit < b.position := by
  have hlim := hb.limited
  have hsm := hb.small
  rw [obRemaining] at h
  split at h
  · cases h
  next hnot =>
  rw [not_and_or, not_le, not_not, sizeMax] at hnot
  omega

/-- The first pass that finds a record finds it at the position of the payload. -/
theorem receiveRecords_head (h : (receiveRecords node d b).starts = x :: xs) : x = b.position := by
  rw [receiveRecords] at h
  split at h
  · cases h
  · cases h
  split at h
  · cases h
  all_goals exact (List.cons.inj h).1.symm

theorem receiveRecords_nil (hb : Payload b) (hst : (receiveRecords node d b).starts = [])
    (hfail : (receiveRecords node d b).failed = false) :
    startsAhead b = [] ∧ b.position ≤ b.sizeLimit := by
  rw [receiveRecords] at hst hfail
  split at hst
  · next hrem =>
    split at hfail <;> simp_all
  · next hrem =>
    have hend := obRemaining_zero hrem
    exact ⟨startsAhead_beyond hend.ge, hend.le⟩
  next hrem =>
  have hpos := obRemaining_lt hrem
  split at hst
  · next hrec => exact ⟨startsAhead_zero (hb.ended hpos hrec), hpos.le⟩
  · cases hst
  · cases hst
  · cases hst

theorem receiveRecords_done (hb : Payload b) (hno : startsAhead b = [])
    (hins : b.position ≤ b.sizeLimit) : receiveRecords node d b = ⟨[], [], false⟩ := by
  rw [receiveRecords]
  split
  · next hrem => exact absurd hins (Nat.not_le.mpr (hb.remaining_none hrem))
  · rfl
  next hrem =>
  have hend : linkRecord node d b = .ended := by
    by_contra hne
    rw [startsAhead_cons (obRemaining_lt hrem) (record_found rfl hne).1] at hno
    cases hno
  split
  · rfl
  all_goals
    next hrec =>
      rw [hend] at hrec
      cases hrec

/-- A record that is read has the next one behind it. -/
theorem Framed.cons_iff (hst : startsAhead b = b.position :: startsAhead b') :
    Framed b ⟨b.position :: t.starts, r :: t.records, t.failed⟩ ↔
      Framed b' t ∧ r.fieldsEnd ≤ r.start + r.length.toNat := by
  constructor
  · rintro ⟨hass, hcons, hins⟩
    rw [hst] at hcons
    exact ⟨⟨hass, (List.cons.inj hcons).2, fun q hq => hins q (List.mem_cons_of_mem r hq)⟩,
      hins r List.mem_cons_self⟩
  rintro ⟨⟨hass, hrest, hins⟩, hfie⟩
  exact ⟨hass, by rw [hst, hrest], List.forall_mem_cons.mpr ⟨hfie, hins⟩⟩

/-- A record that is ignored leaves the loop in its middle: it finds the records that
follow only if there are none, or if the next one begins there. -/
theorem Framed.ignored_iff (hb' : Payload b') (honw : Onward (b.advance 1) b')
    (hst : startsAhead b = b.position :: startsAhead (behind b)) :
    Framed b ⟨b.position :: (receiveRecords node d' b').starts, (receiveRecords node d' b').records,
        (receiveRecords node d' b').failed⟩ ↔
      (startsAhead (behind b) = [] ∧ startsAhead b' = [] ∧ b'.position ≤ b'.sizeLimit) ∨
        (b'.position = (behind b).position ∧ Framed b' (receiveRecords node d' b')) := by
  constructor
  · rintro ⟨hass, hcons, hins⟩
    rw [hst] at hcons
    have hrest := (List.cons.inj hcons).2
    cases hfnd : (receiveRecords node d' b').starts with
    | nil => exact .inl ⟨hrest.symm.trans hfnd, receiveRecords_nil hb' hfnd hass⟩
    | cons x xs =>
      have hsame : b'.position = (behind b).position :=
        (receiveRecords_head hfnd).symm.trans (startsAhead_head (hrest.symm.trans hfnd))
      have hah := startsAhead_congr (b := behind b) honw.bytes honw.sizeLimit hsame
      exact .inr ⟨hsame, hass, hrest.trans hah.symm, hins⟩
  rintro (⟨hlast, hno, hins⟩ | ⟨hsame, hfra⟩)
  · rw [receiveRecords_done hb' hno hins]
    exact ⟨rfl, by rw [hst, hlast], by simp⟩
  have hah := startsAhead_congr (b := behind b) honw.bytes honw.sizeLimit hsame
  exact ⟨hfra.asserted, by rw [hst, hfra.starts, hah], hfra.inside⟩

theorem receiveRecords_framed_iff (hb : Payload b) :
    Framed b (receiveRecords node d b) ↔ WellFramed node d b := by
  fun_induction receiveRecords node d b with
  | case1 d b hrem =>
    constructor
    · intro h
      exact absurd h.asserted (by simp)
    intro h
    exact absurd h.inside (Nat.not_le.mpr (hb.remaining_none hrem))
  | case2 d b hrem =>
    have hend := obRemaining_zero hrem
    have hno := startsAhead_beyond hend.ge
    exact iff_of_true ⟨rfl, hno.symm, by simp⟩ (.done hend.le hno)
  | case3 d b n hrem hrec =>
    have hpos := obRemaining_lt hrem
    have hno := startsAhead_zero (hb.ended hpos hrec)
    exact iff_of_true ⟨rfl, hno.symm, by simp⟩ (.done hpos.le hno)
  | case4 d b n hrem hrec =>
    have hpos := obRemaining_lt hrem
    have hst := startsAhead_cons hpos (record_found hrec nofun).1
    rw [wellFramed_broken_iff hpos hrec]
    constructor
    · intro h
      exact (List.cons.inj (h.starts.trans hst)).2.symm
    intro hlast
    exact ⟨rfl, by rw [hst, hlast], by simp⟩
  | case5 d b n hrem d' b' hrec rest ih =>
    have hpos := obRemaining_lt hrem
    have hst := startsAhead_cons hpos (record_found hrec nofun).1
    have honw := linkRecord_ignored hrec
    have hb' := hb.congr honw.bytes honw.sizeLimit
    rw [Framed.ignored_iff hb' honw hst, wellFramed_ignored_iff hpos hrec, ih hb']
  | case6 d b n hrem r d' b' hrec rest ih =>
    have hpos := obRemaining_lt hrem
    obtain ⟨-, -, hbs, hlim, hposi⟩ := linkRecord_read hrec
    have hst : startsAhead b = b.position :: startsAhead b' := by
      rw [startsAhead_cons hpos (record_found hrec nofun).1,
        startsAhead_congr (b := behind b) hbs hlim hposi]
    rw [Framed.cons_iff hst, wellFramed_read_iff hpos hrec, ih (hb.congr hbs hlim)]

theorem receiveRecords_starts_length :
    (receiveRecords node d b).starts.length ≤ b.sizeLimit - b.position := by
  fun_induction receiveRecords node d b with
  | case1 | case2 | case3 => exact Nat.zero_le _
  | case4 d b n hrem =>
    have := obRemaining_lt hrem
    rw [List.length_singleton]
    omega
  | case5 d b n hrem d' b' hrec rest ih =>
    have hless := ignored_advances (obRemaining_lt hrem) hrec
    exact Nat.succ_le_of_lt (lt_of_le_of_lt ih hless)
  | case6 d b n hrem r d' b' hrec rest ih =>
    have hless := read_advances (obRemaining_lt hrem) hrec
    exact Nat.succ_le_of_lt (lt_of_le_of_lt ih hless)

/-- The loop comes to an end, with at most one record for each byte, and it follows the
lengths of the records exactly if the payload is well framed. -/
theorem records_split_iff (node : Node) (payload : Buffer) (h : Payload payload) :
    (linkReceive node payload).starts.length ≤ payload.sizeLimit - payload.position ∧
      (Framed payload (linkReceive node payload) ↔ WellFramed node ⟨Context.start, 0⟩ payload) :=
  ⟨receiveRecords_starts_length, receiveRecords_framed_iff h⟩

def lonely : Node where
  mySubscriber := ⟨List.replicate sidSize 1, by decide⟩
  isSelf _ := false
  interface := ⟨false, none, false⟩
  find _ _ := none
  duplicatePacket := false
  dropBroadcast _ _ := false
  forwardBroadcast _ := false
  duplicatePayload _ _ := false

def received (bytes : List UInt8) : Buffer := ⟨bytes, .static, 0, 0, bytes.length⟩

/-- Two records without a path, the first with a field that is not known. -/
theorem records_split_two : Framed (received [5, 2, 0xff, 1, 99, 4, 2, 0xff, 1])
      (linkReceive lonely (received [5, 2, 0xff, 1, 99, 4, 2, 0xff, 1])) := by
  refine (records_split_iff lonely _ ⟨by decide, by decide⟩).2.mpr ?_
  refine .read (by decide) rfl (by decide) ?_
  refine .read (by decide) rfl (by decide) ?_
  exact .done (by decide) (startsAhead_beyond (by decide))

/-- A length beyond the payload lets the assertion fail; an interface that cannot exist
makes the loop go on in the middle of the record; an address that is too long ends it
before the next record; and a length that is too short lets the fields overlap. -/
theorem records_not_split : (linkReceive lonely (received [200, 2, 0xff, 1])).failed = true ∧
    (linkReceive lonely (received [6, 3, 0xff, 1, 20, 0, 4, 2, 0xff, 1])).starts = [0] ∧
    startsAhead (received [6, 3, 0xff, 1, 20, 0, 4, 2, 0xff, 1]) = [0, 6] ∧
    (linkReceive lonely (received [4, 2, 40, 1, 4, 2, 0xff, 1])).starts = [0] ∧
    startsAhead (received [4, 2, 40, 1, 4, 2, 0xff, 1]) = [0, 4] ∧
    (linkReceive lonely (received [3, 2, 0xff, 0])).records.map (·.fieldsEnd) = [4] := by
  decide +kernel

end LinkRecords
