import ServalDna.MspNumbering
import ServalDna.MspTable

/-!
# The two ends of an MSP connection

Two sockets at the ends of a connection, each run by its own process, and a
network that loses, duplicates, delays and reorders what they send. It keeps
every datagram that was ever sent and may hand any of them over, any number of
times, as long as fewer than `2 ^ 15` newer sequence numbers have been given out
since. Next to its socket each end keeps a history that no function reads: the
payloads it has queued, the bytes its handler has consumed and the payloads that
were consumed completely. The true number of a packet is its place in the list of
all payloads queued.
-/
namespace MspEndpoint

open ByteFlags DataFormats SerialNumber MspWindow MspSocket MspNumbering

/-! ## Ends of a connection -/

/-- Bytes on the network, with the true number of the packet they carry and the
number of packets they acknowledge. -/
structure Datagram where
  bytes : List UInt8
  seq : Option Nat
  ack : Option Nat
  deriving DecidableEq, Repr

/-- One end. `accepted` are the payloads that `msp_send` has taken, `queued` also
has the empty one of a packet that `msp_shutdown` adds, and `shutdownAt` is the
number of the packet that carries the flag. -/
structure Endpoint where
  sock : Sock
  phase : Phase
  accepted : List (List UInt8)
  queued : List (List UInt8)
  shutdownAt : Option Nat
  consumed : List UInt8
  delivered : List (List UInt8)
  wire : List Datagram
  deriving DecidableEq, Repr

def Endpoint.opened (s : Sock) : Endpoint := ⟨s, .idle, [], [], none, [], [], []⟩

/-- The newest number whose low bits are `seq`. -/
def Endpoint.number (e : Endpoint) (seq : UInt16) : Nat :=
  e.queued.length - (e.sock.tx.nextSeq - seq).toNat

def Endpoint.datagram (e : Endpoint) (bytes : List UInt8) : Datagram :=
  match bytes with
  | flags :: _ :: _ :: low :: high :: _ =>
    ⟨bytes, some (e.number (readUint16 [low, high])),
      if hasFlag flags flagAck then some e.delivered.length else none⟩
  | flags :: _ :: _ :: _ =>
    ⟨bytes, none, if hasFlag flags flagAck then some e.delivered.length else none⟩
  | _ => ⟨bytes, none, none⟩

def Endpoint.sends (e : Endpoint) (sent : List (List UInt8)) : Endpoint :=
  { e with wire := e.wire ++ sent.map e.datagram }

def Endpoint.send (e : Endpoint) (payload : List UInt8) : Except Abort Endpoint := do
  let (r, s) ← mspSend payload e.sock
  match r with
  | none => return { e with sock := s }
  | some _ => return { e with
      sock := s, accepted := e.accepted ++ [payload], queued := e.queued ++ [payload] }

/-- The payloads queued after `msp_shutdown` has made the tx window `tx`. -/
def Endpoint.queuedAfter (e : Endpoint) (tx : Window) : List (List UInt8) :=
  if tx.nextSeq = e.sock.tx.nextSeq then e.queued else e.queued ++ [[]]

def Endpoint.shutdown (e : Endpoint) : Except Abort Endpoint := do
  let (done, s) ← mspShutdown e.sock
  if done then
    return { e with
      sock := s
      queued := e.queuedAfter s.tx
      shutdownAt := some ((e.queuedAfter s.tx).length - 1) }
  else return { e with sock := s }

def Endpoint.stop (e : Endpoint) : Endpoint :=
  { e.sends (mspStop e.sock).2 with sock := (mspStop e.sock).1 }

def Endpoint.start (e : Endpoint) (now : Int) : Endpoint :=
  if e.phase = .idle then
    { e with sock := (processSockStart now e.sock).1, phase := (processSockStart now e.sock).2 }
  else e

/-- The handler of `process_sock` has consumed `nconsumed` bytes of what it was
offered. -/
def Endpoint.handlerReturns (e : Endpoint) (nconsumed : Nat) : Except Abort Endpoint :=
  match e.phase with
  | .inHandler index =>
    match e.sock.rx.packets[index]? with
    | none => .ok e
    | some p => do
      let (s, phase) ← handlerReturned nconsumed index e.sock
      return { e with
        sock := s
        phase := phase
        consumed := e.consumed ++ (p.payload.drop p.offset).take nconsumed
        delivered :=
          if s.rx.nextSeq = e.sock.rx.nextSeq then e.delivered else e.delivered ++ [p.payload] }
  | _ => .ok e

/-- `process_sock` ends; a closed socket is freed soon after and takes no more steps. -/
def Endpoint.finish (e : Endpoint) (now : Int) (pendingBind : Bool)
    (outcome : Packet → SendResult) (ackOutcome : SendResult) : Except Abort Endpoint :=
  if e.phase = .finishing then do
    let f ← processSockFinish now pendingBind outcome ackOutcome e.sock
    if f.freed then .error .usedAfterFree
    else return { e.sends f.sent with sock := f.sock, phase := .idle }
  else .ok e

def Endpoint.receive (e : Endpoint) (now : Int) (d : Datagram) : Endpoint :=
  match d.bytes with
  | [] => e
  | flags :: _ =>
    { e.sends (receivePacket now flags d.bytes e.sock).2 with
      sock := (receivePacket now flags d.bytes e.sock).1 }

/-! ## The connection -/

inductive Side where
  | left
  | right
  deriving DecidableEq, Repr

def Side.other : Side → Side
  | .left => .right
  | .right => .left

@[simp] theorem other_other (side : Side) : side.other.other = side := by cases side <;> rfl
@[simp] theorem other_ne (side : Side) : side.other ≠ side := by cases side <;> simp [Side.other]

abbrev System := Side → Endpoint

/-- The steps of one end. `receive` takes any datagram that the other end ever sent. -/
inductive Action where
  | send (payload : List UInt8)
  | shutdown
  | stop
  | bound (header : MspTable.Header)
  | start (now : Int)
  | handlerReturns (nconsumed : Nat)
  | finish (now : Int) (pendingBind : Bool) (outcome : Packet → SendResult) (ackOutcome : SendResult)
  | receive (now : Int) (index : Nat)

/-- Fewer than `2 ^ 15` newer numbers than those of the datagram have been given
out: by `peer`, who sent it, and by `me`, whose packets it acknowledges. -/
def InTime (me peer : Endpoint) (d : Datagram) : Prop :=
  (∀ n ∈ d.seq, peer.queued.length ≤ n + 32768) ∧ (∀ k ∈ d.ack, me.queued.length < k + 32768)

instance (me peer : Endpoint) (d : Datagram) : Decidable (InTime me peer d) := by
  unfold InTime
  infer_instance

/-- One end takes a step, looking at the datagrams of its peer. -/
def act (me peer : Endpoint) : Action → Except Abort Endpoint
  | .send payload => me.send payload
  | .shutdown => me.shutdown
  | .stop => .ok me.stop
  | .bound header => .ok { me with sock := MspTable.bindAnswer header me.sock }
  | .start now => .ok (me.start now)
  | .handlerReturns nconsumed => me.handlerReturns nconsumed
  | .finish now pendingBind outcome ackOutcome => me.finish now pendingBind outcome ackOutcome
  | .receive now index =>
    match peer.wire[index]? with
    | none => .ok me
    | some d => if me.phase = .idle ∧ InTime me peer d then .ok (me.receive now d) else .ok me

def step (sys : System) (side : Side) (a : Action) : Except Abort System := do
  let e ← act (sys side) (sys side.other) a
  return Function.update sys side e

def run : System → List (Side × Action) → Except Abort System
  | sys, [] => .ok sys
  | sys, (side, a) :: actions => do
    let sys' ← step sys side a
    run sys' actions

/-! ## What the two directions look at -/

/-- The part of an end that has to do with what it sends. -/
structure Outgoing where
  tx : Window
  shutdownLocal : Bool
  accepted : List (List UInt8)
  queued : List (List UInt8)
  shutdownAt : Option Nat
  wire : List Datagram

/-- The part of an end that has to do with what it receives. -/
structure Incoming where
  rx : Window
  shutdownRemote : Bool
  phase : Phase
  consumed : List UInt8
  delivered : List (List UInt8)

def Endpoint.outgoing (e : Endpoint) : Outgoing :=
  ⟨e.sock.tx, e.sock.state.shutdownLocal, e.accepted, e.queued, e.shutdownAt, e.wire⟩

def Endpoint.incoming (e : Endpoint) : Incoming :=
  ⟨e.sock.rx, e.sock.state.shutdownRemote, e.phase, e.consumed, e.delivered⟩

/-- The number `n` was sent with this payload and with or without the flag. -/
structure Carries (o : Outgoing) (n : Nat) (flags : UInt8) (payload : List UInt8) : Prop where
  queued : o.queued[n]? = some payload
  shutdown : hasFlag flags flagShutdown = true ↔ o.shutdownAt = some n
  sent : ∃ d ∈ o.wire, d.seq = some n

/-- Later, more payloads are queued and more datagrams sent, but nothing that was
sent changes. -/
structure Extends (o o' : Outgoing) : Prop where
  queued : o.queued <+: o'.queued
  wire : ∀ d ∈ o.wire, d ∈ o'.wire
  shutdownAt : ∀ d ∈ o.wire, ∀ n, d.seq = some n → (o'.shutdownAt = some n ↔ o.shutdownAt = some n)
  kept : ∀ n, o.shutdownAt = some n → o'.shutdownAt = some n

theorem carries_extends (hext : Extends o o') (h : Carries o n flags payload) :
    Carries o' n flags payload := by
  obtain ⟨d, hd, hseq⟩ := h.sent
  refine ⟨?_, ?_, d, hext.wire d hd, hseq⟩
  · obtain ⟨more, hmore⟩ := hext.queued
    obtain ⟨hlt, -⟩ := List.getElem?_eq_some_iff.mp h.queued
    rw [← hmore, List.getElem?_append_left hlt]
    exact h.queued
  rw [hext.shutdownAt d hd n hseq]
  exact h.shutdown

/-! ## What a datagram does to a socket -/

variable (s : Sock)

/-- Neither direction sees a difference. -/
def Kept (s s' : Sock) : Prop :=
  s'.tx = s.tx ∧ s'.rx = s.rx ∧ s'.state.shutdownLocal = s.state.shutdownLocal ∧
    s'.state.shutdownRemote = s.state.shutdownRemote

theorem mspStop_windows : Kept s (mspStop s).1 := by
  rw [mspStop]
  split <;> exact ⟨rfl, rfl, rfl, rfl⟩

theorem offerSpace_windows : Kept s (offerSpace s) := by
  rw [offerSpace]
  split <;> exact ⟨rfl, rfl, rfl, rfl⟩

def acknowledged (flags low high : UInt8) (s : Sock) : Sock :=
  offerSpace (if hasFlag flags flagAck then
    { s with tx := freeAckedPackets s.tx (readUint16 [low, high]) } else s)

theorem acknowledged_windows (flags low high : UInt8) (s : Sock) :
    ((acknowledged flags low high s).tx = s.tx ∨ (hasFlag flags flagAck = true ∧
      (acknowledged flags low high s).tx = freeAckedPackets s.tx (readUint16 [low, high]))) ∧
    (acknowledged flags low high s).rx = s.rx ∧
    (acknowledged flags low high s).state.shutdownLocal = s.state.shutdownLocal ∧
    (acknowledged flags low high s).state.shutdownRemote = s.state.shutdownRemote := by
  rw [acknowledged]
  split
  · next hack => exact (offerSpace_windows _).imp_left fun htx => .inr ⟨hack, htx⟩
  · exact (offerSpace_windows s).imp_left .inl

/-- What becomes of the tx window and of the rx window. -/
def Processed (bytes : List UInt8) (s s' : Sock) : Prop :=
  (s'.tx = s.tx ∨ ∃ flags low high rest, bytes = flags :: low :: high :: rest ∧
    hasFlag flags flagAck = true ∧ s'.tx = freeAckedPackets s.tx (readUint16 [low, high])) ∧
  (s'.rx = s.rx ∨ ∃ flags a b low high payload, bytes = flags :: a :: b :: low :: high :: payload ∧
    s'.rx = (addPacket s.rx (readUint16 [low, high]) flags payload).2) ∧
  s'.state.shutdownLocal = s.state.shutdownLocal ∧
  s'.state.shutdownRemote = s.state.shutdownRemote

theorem processed_receiveData : Processed bytes s (receiveData now bytes s) := by
  unfold receiveData
  split
  · next flags low high data =>
    have hack := acknowledged_windows flags low high s
    simp only [acknowledged] at hack ⊢
    generalize offerSpace (if hasFlag flags flagAck = true then
      { s with tx := freeAckedPackets s.tx (readUint16 [low, high]) } else s) = t at hack ⊢
    obtain ⟨htx, hrx, hloc, hrem⟩ := hack
    have htx' : t.tx = s.tx ∨ ∃ flags' low' high' rest,
        flags :: low :: high :: data = flags' :: low' :: high' :: rest ∧
        hasFlag flags' flagAck = true ∧ t.tx = freeAckedPackets s.tx (readUint16 [low', high']) :=
      htx.imp_right (fun hack => ⟨flags, low, high, data, rfl, hack⟩)
    split
    · next low' high' data' =>
      rw [hrx]
      split
      all_goals
        rename_i heq
        have hadd := congrArg Prod.snd heq
        exact ⟨htx', .inr ⟨flags, low, high, low', high', data', rfl, hadd.symm⟩, hloc, hrem⟩
    · exact ⟨htx', .inl hrx, hloc, hrem⟩
  · exact ⟨.inl rfl, .inl rfl, rfl, rfl⟩

/-- What a received packet does to the two windows. -/
theorem processed_receivePacket (now : Int) (flags : UInt8) (bytes : List UInt8) (s : Sock) :
    Processed bytes s (receivePacket now flags bytes s).1 := by
  simp only [receivePacket]
  split
  · obtain ⟨htx, hrx, hloc, hrem⟩ := mspStop_windows { s with
      timeout := now + 10000, state := { s.state with receivedPacket := true } }
    exact ⟨.inl htx, .inl hrx, hloc, hrem⟩
  exact processed_receiveData { s with
    timeout := now + 10000, state := { s.state with receivedPacket := true } }

/-- A datagram with a packet in it has the packet's number and contents. -/
def Truthful (o : Outgoing) (d : Datagram) : Prop :=
  ∀ flags a b low high payload, d.bytes = flags :: a :: b :: low :: high :: payload →
    ∃ n, d.seq = some n ∧ readUint16 [low, high] = serial n ∧ Carries o n flags payload

/-! ## What goes out at the end of `process_sock` -/

def firstByte (s : Sock) (flags : UInt8) : UInt8 :=
  flags ||| (if s.state.receivedData then flagAck else 0) |||
    (if s.state.receivedPacket then 0 else flagFirst)

theorem preamble_eq (flags : UInt8) :
    preamble s flags = firstByte s flags :: writeUint16 (s.rx.nextSeq - 1) := rfl

theorem firstByte_shutdown (h : flags = 0 ∨ flags = flagShutdown) :
    hasFlag (firstByte s flags) flagShutdown = decide (flags = flagShutdown) := by
  rw [firstByte]
  obtain rfl | rfl := h
  all_goals
    cases s.state.receivedData
    all_goals
      cases s.state.receivedPacket
      all_goals decide

theorem closeFinished_windows : Kept s (closeFinished s) := by
  rw [closeFinished]
  split <;> exact ⟨rfl, rfl, rfl, rfl⟩

theorem sendAck_cases {oc : SendResult} {s : Sock} {f : Finish}
    (h : sendAck now oc s = .ok f) :
    Kept s f.sock ∧ (f.sent = [] ∨ f.sent = [preamble s 0]) := by
  revert h
  fun_cases sendAck now oc s with
  | case2 => rintro ⟨⟩
  | case5 =>
    rintro ⟨⟩
    exact ⟨closeFinished_windows _, .inr rfl⟩
  | case6 =>
    rintro ⟨⟩
    exact ⟨closeFinished_windows _, .inl rfl⟩
  | _ =>
    rintro ⟨⟩
    exact ⟨⟨rfl, rfl, rfl, rfl⟩, .inl rfl⟩

/-- What the end of `process_sock` does to the windows, and what it sends. -/
theorem processSockFinish_cases {pb : Bool} {oc : Packet → SendResult}
    {ao : SendResult} {s : Sock} {f : Finish}
    (h : processSockFinish now pb oc ao s = .ok f) :
    f.sock.tx = { s.tx with
      packets := (transmit now pb oc s.tx.packets s).packets } ∧
    f.sock.rx = s.rx ∧ f.sock.state.shutdownLocal = s.state.shutdownLocal ∧
    f.sock.state.shutdownRemote = s.state.shutdownRemote ∧
    ∃ acks, (acks = [] ∨ acks = [preamble s 0]) ∧
      f.sent = (transmit now pb oc s.tx.packets s).sent.map (packetBytes s) ++ acks := by
  obtain ⟨-, _, _, _, hsock⟩ := MspTable.transmit_spec now pb oc s.tx.packets s
  rw [processSockFinish] at h
  split at h
  · cases h
  simp only at h
  generalize transmit now pb oc s.tx.packets s = t at *
  split at h
  · cases h
  · cases h
    refine ⟨?_, ?_, ?_, ?_, [], .inl rfl, (List.append_nil _).symm⟩
    all_goals simp [Transmission.result, hsock]
  split at h
  · cases h
  next f' hack =>
  cases h
  obtain ⟨⟨htx', hrx', hloc, hrem⟩, hsent⟩ := sendAck_cases hack
  have hpre : preamble t.result 0 = preamble s 0 := by
    simp [preamble, Transmission.result, hsock]
  refine ⟨htx'.trans ?_, hrx'.trans ?_, hloc.trans ?_, hrem.trans ?_, f'.sent, hpre ▸ hsent, rfl⟩
  all_goals simp [Transmission.result, hsock]

end MspEndpoint
