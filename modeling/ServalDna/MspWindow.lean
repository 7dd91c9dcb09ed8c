import ServalDna.SerialNumber
import Mathlib.Data.List.Basic

/-!
# The packet windows of an MSP socket

A socket has a window of packets to transmit and one of packets received. Both
are lists of packets kept in the order of their wrapped sequence numbers;
`_head` and `_tail` are the ends of the list. The round trip times of a window
only show up in debug output and are left out.
-/
namespace MspWindow

open SerialNumber

def maxWindowSize : Nat := 4

/-- `sent` is `none` for `TIME_MS_NEVER_HAS`. -/
structure Packet where
  seq : UInt16
  flags : UInt8
  sent : Option Int
  payload : List UInt8
  offset : Nat
  deriving DecidableEq, Repr

structure Window where
  packetCount : Nat
  nextSeq : UInt16
  packets : List Packet
  deriving DecidableEq, Repr

def Window.start : Window := ⟨0, 0, []⟩

/-- The results -1, 0 and 1 of `add_packet`. -/
inductive AddResult where
  | ambiguous
  | duplicate
  | added
  deriving DecidableEq, Repr

/-- The walk of `add_packet` from the head to the first packet that is not before
the new one. `none` means that this packet has the same number. The walk stops at
the tail at the latest. -/
def insertInOrder (packet : Packet) : List Packet → Option (List Packet)
  | [] => some [packet]
  | p :: rest =>
    if compareWrapped p.seq packet.seq < 0 then (insertInOrder packet rest).map (p :: ·)
    else if p.seq = packet.seq then none
    else some (packet :: p :: rest)

def Window.withPackets (w : Window) (packets : List Packet) : Window :=
  { w with packets := packets, packetCount := w.packetCount + 1 }

/-- `add_packet`; memory for the packet is always found. -/
def addPacket (w : Window) (seq : UInt16) (flags : UInt8) (payload : List UInt8) : AddResult × Window :=
  let packet : Packet := ⟨seq, flags, none, payload, 0⟩
  match w.packets with
  | [] => (.added, w.withPackets [packet])
  | head :: rest =>
    let tail := rest.getLastD head
    if tail.seq = seq then (.duplicate, w)
    else if compareWrapped tail.seq seq < 0 then
      if 0 < compareWrapped head.seq seq then (.ambiguous, w)
      else (.added, w.withPackets (head :: rest ++ [packet]))
    else
      match insertInOrder packet (head :: rest) with
      | none => (.duplicate, w)
      | some packets => (.added, w.withPackets packets)

/-- The packets that `free_acked_packets` frees are a run from the head. -/
def isAcked (seq : UInt16) (p : Packet) : Bool := compareWrapped p.seq seq ≤ 0

def freeAckedPackets (w : Window) (seq : UInt16) : Window :=
  { w with
    packets := w.packets.dropWhile (isAcked seq)
    packetCount := w.packetCount - (w.packets.takeWhile (isAcked seq)).length }

/-! ## The packet count -/

/-- `packet_count` is the number of packets linked from `_head`. -/
def Counted (w : Window) : Prop := w.packetCount = w.packets.length

theorem counted_start : Counted Window.start := rfl

theorem insertInOrder_length (pks pks' : List Packet)
    (h : insertInOrder packet pks = some pks') : pks'.length = pks.length + 1 := by
  fun_induction insertInOrder packet pks generalizing pks' with
  | case2 _ _ _ ih =>
    obtain ⟨rest', hrest, rfl⟩ := Option.map_eq_some_iff.mp h
    rw [List.length_cons, ih rest' hrest, List.length_cons]
  | case3 => cases h
  | _ =>
    cases h
    rfl

theorem addPacket_counted (h : Counted w) (seq : UInt16) (flags : UInt8) (pl : List UInt8) :
    Counted (addPacket w seq flags pl).2 := by
  rw [Counted] at h
  fun_cases addPacket w seq flags pl with
  | case1 _ hnil => simp [Counted, Window.withPackets, h, hnil]
  | case4 _ _ _ hcons => simp [Counted, Window.withPackets, h, hcons]
  | case6 _ _ _ hcons _ _ _ _ hins =>
    simp [Counted, Window.withPackets, h, hcons, insertInOrder_length _ _ hins]
  | case2 | case3 | case5 => exact h

theorem freeAckedPackets_counted (h : Counted w) (seq : UInt16) : Counted (freeAckedPackets w seq) := by
  have hspl := congrArg List.length (List.takeWhile_append_dropWhile (p := isAcked seq)
    (l := w.packets))
  rw [List.length_append] at hspl
  simp only [Counted, freeAckedPackets] at h ⊢
  omega

end MspWindow
