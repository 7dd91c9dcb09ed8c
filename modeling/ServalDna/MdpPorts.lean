import ServalDna.BufferCodec

/-!
# The port numbers in front of an MDP payload

Both numbers are packed, the destination first and shifted by one bit to make room
for a flag that the source is the same. The shifted number has no more than 32 bits,
so the top bit of the destination is lost.
-/
namespace MdpPorts

open OverlayBuffer BufferReads BufferWrites BufferCodec List

/-- The two ports of `struct internal_mdp_header`. -/
structure Ports where
  destinationPort : UInt32
  sourcePort : UInt32
  deriving DecidableEq, Repr

def overlayMdpEncodePorts (plaintext : Buffer) (dstPort srcPort : UInt32) : Option Buffer :=
  let port := dstPort <<< 1
  let port := if dstPort = srcPort then port ||| 1 else port
  (obAppendPackedUi32 plaintext port).bind fun b =>
    if dstPort ≠ srcPort then obAppendPackedUi32 b srcPort else some b

/-- `none` if a number has so many bytes that they cannot be shifted. -/
def overlayMdpDecodeHeader (buff : Buffer) : Option (Ports × Buffer) := do
  let first := obGetPackedUi32 buff
  let port ← first.value
  if port &&& 1 = 0 then
    let second := obGetPackedUi32 first.buffer
    let source ← second.value
    return (⟨port >>> 1, source⟩, second.buffer)
  else return (⟨port >>> 1, port >>> 1⟩, first.buffer)

def portBytes (dst src : UInt32) : List UInt8 :=
  if dst = src then packed (dst <<< 1 ||| 1).toUInt64
  else packed (dst <<< 1).toUInt64 ++ packed src.toUInt64

theorem packed_ui32_length (v : UInt32) : (packed v.toUInt64).length ≤ 5 :=
  packed_length v.toUInt64 (lt_trans v.toNat_lt (by decide))

theorem content_new (h : Appended obNew xs b) (hlen : xs.length ≤ 10) : content b = xs := by
  have hpos : b.position = 0 + xs.length := h.position
  exact h.written (by simp only [obNew, sizeMax]; omega)

theorem encodePorts_new (dst src : UInt32) :
    ∃ b, overlayMdpEncodePorts obNew dst src = some b ∧ content b = portBytes dst src := by
  by_cases hsame : dst = src
  · obtain ⟨b, hb, happ⟩ := packed_append (dst <<< 1 ||| 1).toUInt64 own_new (by decide)
    have hlen := packed_ui32_length (dst <<< 1 ||| 1)
    simp only [overlayMdpEncodePorts, portBytes, hsame, ↓reduceIte, ne_eq, not_true_eq_false] at *
    exact ⟨b, by rw [obAppendPackedUi32, hb]; rfl, content_new happ (by omega)⟩
  obtain ⟨b, hb, hfst⟩ := packed_append (dst <<< 1).toUInt64 own_new (by decide)
  obtain ⟨b', hb', hsec⟩ := packed_append src.toUInt64 hfst.own (by rw [hfst.sizeLimit]; decide)
  have hlen := packed_ui32_length (dst <<< 1)
  have hlen' := packed_ui32_length src
  simp only [overlayMdpEncodePorts, portBytes, hsame, ↓reduceIte, ne_eq, not_false_eq_true]
  refine ⟨b', ?_, content_new (hfst.trans hsec) (by rw [length_append]; omega)⟩
  rw [obAppendPackedUi32, hb]
  exact hb'

theorem shifted_even (port : UInt32) : port <<< 1 &&& 1 = 0 := by
  apply UInt32.toNat_inj.mp
  simp [Nat.shiftLeft_eq]

theorem shifted_odd (port : UInt32) : (port <<< 1 ||| 1) &&& 1 ≠ 0 := by
  intro h
  have hnat := congrArg UInt32.toNat h
  simp only [UInt32.toNat_and, UInt32.toNat_or, UInt32.toNat_one, Nat.and_one_is_mod] at hnat
  rw [Nat.or_mod_two_eq_one.mpr (.inr rfl)] at hnat
  cases hnat

theorem shifted_back (port : UInt32) : (port <<< 1 ||| 1) >>> 1 = port <<< 1 >>> 1 := by
  rw [UInt32.shiftRight_or, show (1 : UInt32) >>> 1 = 0 from rfl, UInt32.or_zero]

theorem shifted_eq_iff (port : UInt32) : port <<< 1 >>> 1 = port ↔ port.toNat < 2 ^ 31 := by
  have hlt := port.toNat_lt
  rw [← UInt32.toNat_inj]
  simp [Nat.shiftLeft_eq, Nat.shiftRight_eq_div_pow]
  omega

theorem packed_value {v : UInt32} (h : Holds b (packed v.toUInt64 ++ rest)) :
    (obGetPackedUi32 b).value = some v ∧
      (obGetPackedUi32 b).buffer = b.advance (packed v.toUInt64).length := by
  have hread := packed_read id 0xFFFFFFFF 0 v.toUInt64 h
  rw [unpacked_ui32] at hread
  exact hread

/-- What is decoded from encoded ports: only the top bit of the destination is lost. -/
theorem decodeHeader_encoded (h : Holds b (portBytes dst src ++ payload)) :
    ∃ b', overlayMdpDecodeHeader b =
        some (⟨dst <<< 1 >>> 1, if dst = src then dst <<< 1 >>> 1 else src⟩, b') ∧
      Holds b' payload := by
  by_cases hsame : dst = src
  · rw [portBytes, if_pos hsame] at h
    obtain ⟨hport, hbuf⟩ := packed_value h
    refine ⟨_, ?_, h.advance⟩
    simp [overlayMdpDecodeHeader, hport, hbuf, shifted_odd, shifted_back, hsame]
  rw [portBytes, if_neg hsame, append_assoc] at h
  obtain ⟨hport, hbuf⟩ := packed_value h
  obtain ⟨hsrc, hrest⟩ := packed_value h.advance
  refine ⟨_, ?_, h.advance.advance⟩
  simp only [overlayMdpDecodeHeader, hport, hbuf, Option.bind_eq_bind, Option.bind_some,
    shifted_even, hsrc, hrest, hsame, ↓reduceIte]
  rfl

/-- Ports are decoded as they were encoded, with the payload left to read, if and only
if the destination is less than `2 ^ 31`. -/
theorem mdp_ports_round_trip_iff (dst src : UInt32) :
    ∃ b, overlayMdpEncodePorts obNew dst src = some b ∧ ∀ payload b', Holds b' (content b ++ payload) →
        ∃ ports b'', overlayMdpDecodeHeader b' = some (ports, b'') ∧ Holds b'' payload ∧
          (ports = ⟨dst, src⟩ ↔ dst.toNat < 2 ^ 31) := by
  obtain ⟨b, hb, hcon⟩ := encodePorts_new dst src
  refine ⟨b, hb, fun payload b' h => ?_⟩
  rw [hcon] at h
  obtain ⟨b'', hdec, hrest⟩ := decodeHeader_encoded h
  refine ⟨_, b'', hdec, hrest, ?_⟩
  rw [← shifted_eq_iff, Ports.mk.injEq]
  by_cases hsame : dst = src
  · simp [hsame]
  · simp [hsame]

/-- Port `2 ^ 31 + 1` is taken for port 1. -/
theorem mdp_port_truncated :
    (((overlayMdpEncodePorts obNew 0x80000001 5).bind obFlip).bind overlayMdpDecodeHeader).map
      Prod.fst = some ⟨1, 5⟩ := by decide +kernel

end MdpPorts
