import ServalDna.ByteFlags
import ServalDna.DataFormats
import ServalDna.MspWindow

/-!
# One MSP socket

The functions of the MSP client that work on one socket. `process_sock` calls the
application's handler in the middle of its work and the handler may call back
into the library, so it is cut at those calls: `processSockStart` runs up to the
first call, `handlerReturned` from one call to the next, and `processSockFinish`
does the rest. Each call reads the clock once. The fields that only decide when
to call `msp_processing` again, and when to call the handler without data, are
left out: the handler may be called, or not, with no data at the end.
-/
namespace MspSocket

open ByteFlags DataFormats MspWindow

/-- The bits of `msp_state_t`. -/
structure State where
  listening : Bool := false
  receivedData : Bool := false
  receivedPacket : Bool := false
  shutdownLocal : Bool := false
  shutdownRemote : Bool := false
  closed : Bool := false
  error : Bool := false
  dataout : Bool := false
  stopped : Bool := false
  deriving DecidableEq, Repr

def State.uninitialised : State := {}

structure SockAddr where
  sid : Nat
  port : Nat
  deriving DecidableEq, Repr

def sidAny : Nat := 0

/-- `bind` is `MDP_FLAG_BIND` in the flags of the header. -/
structure Sock where
  mdpSock : Nat
  state : State
  tx : Window
  rx : Window
  previousAck : UInt16
  nextAck : Int
  localAddr : SockAddr
  remoteAddr : SockAddr
  bind : Bool
  timeout : Int
  deriving DecidableEq, Repr

/-- What stops the program: a failed assertion, or memory used after it is freed. -/
inductive Abort where
  | invalidHandle
  | notUninitialised
  | noLocalPort
  | noRemotePort
  | isListening
  | isShutdown
  | overconsumed
  | txCount
  | dataout
  | usedAfterFree
  deriving DecidableEq, Repr

def flagShutdown : UInt8 := 1
def flagAck : UInt8 := 2
def flagFirst : UInt8 := 4
def flagStop : UInt8 := 8

def retransmitTime : Int := 1500

/-! ## The calls of an application -/

def mspSocket (now : Int) (mdpSock : Nat) : Sock :=
  ⟨mdpSock, .uninitialised, .start, .start, 0x7FFF, 0, ⟨sidAny, 0⟩, ⟨sidAny, 0⟩, false, now + 10000⟩

def mspConnect (now : Int) (remote : SockAddr) (sock : Sock) : Except Abort Sock :=
  if sock.state ≠ .uninitialised then .error .notUninitialised
  else .ok { sock with
    remoteAddr := remote
    state := { sock.state with dataout := true }
    nextAck := now + 10 }

/-- `sendOk` tells whether the daemon takes the request to bind the port. -/
def mspListen (now : Int) (sendOk : Bool) (sock : Sock) : Except Abort Sock :=
  if sock.state ≠ .uninitialised then .error .notUninitialised
  else if sock.localAddr.port = 0 then .error .noLocalPort
  else if sendOk then
    .ok { sock with state := { sock.state with listening := true }, bind := true, timeout := now + 1000 }
  else
    .ok { sock with
      state := { sock.state with listening := true, error := true, closed := true }, bind := true }

def Sock.queued (sock : Sock) (tx : Window) : Sock :=
  { sock with
    tx := { tx with nextSeq := tx.nextSeq + 1 }
    state := { sock.state with
      dataout := sock.state.dataout && decide (tx.packetCount < maxWindowSize) } }

/-- The number returned by `msp_send` is the length of the payload, or `none` for -1. -/
def mspSend (payload : List UInt8) (sock : Sock) : Except Abort (Option Nat × Sock) :=
  if sock.state.listening then .error .isListening
  else if sock.remoteAddr.port = 0 then .error .noRemotePort
  else if sock.state.shutdownLocal then .error .isShutdown
  else if sock.state.closed ∨ sock.tx.packetCount > maxWindowSize then .ok (none, sock)
  else
    match addPacket sock.tx sock.tx.nextSeq 0 payload with
    | (.ambiguous, _) => .ok (none, sock)
    | (_, tx) => .ok (some payload.length, sock.queued tx)

/-- What `msp_send` can do when no assertion fails. -/
theorem mspSend_cases (h : mspSend pl sock = .ok (r, sock')) : (r = none ∧ sock' = sock) ∨
    (sock.state.listening = false ∧ sock.state.shutdownLocal = false ∧
      sock.state.closed = false ∧ sock.tx.packetCount ≤ maxWindowSize ∧
      (addPacket sock.tx sock.tx.nextSeq 0 pl).1 ≠ .ambiguous ∧ r = some pl.length ∧
      sock' = sock.queued (addPacket sock.tx sock.tx.nextSeq 0 pl).2) := by
  revert h
  fun_cases mspSend pl sock with
  | case1 | case2 | case3 => rintro ⟨⟩
  | case4 | case5 =>
    rintro ⟨⟩
    exact .inl ⟨rfl, rfl⟩
  | case6 hlis _ hshut hopen res tx hres hadd =>
    rintro ⟨⟩
    simp only [not_or, Bool.not_eq_true, not_lt] at hopen hlis hshut
    rw [hadd]
    exact .inr ⟨hlis, hshut, hopen.1, hopen.2, by simpa using hres, rfl, rfl⟩

def State.shutdown (state : State) : State := { state with shutdownLocal := true, dataout := false }

/-- `msp_shutdown`: the last packet carries the flag if it was never sent. -/
def mspShutdown (sock : Sock) : Except Abort (Bool × Sock) :=
  if sock.state.listening then .error .isListening
  else if sock.state.shutdownLocal then .error .isShutdown
  else
    match sock.tx.packets.getLast? with
    | some tail =>
      if tail.sent = none then
        .ok (true, { sock with
          tx := { sock.tx with packets := sock.tx.packets.dropLast ++
            [{ tail with flags := tail.flags ||| flagShutdown }] }
          state := sock.state.shutdown })
      else shutdownPacket
    | none => shutdownPacket
where
  shutdownPacket : Except Abort (Bool × Sock) :=
    match addPacket sock.tx sock.tx.nextSeq flagShutdown [] with
    | (.ambiguous, _) => .ok (false, sock)
    | (_, tx) =>
      .ok (true, { sock with
        tx := { tx with nextSeq := tx.nextSeq + 1 }, state := sock.state.shutdown })

/-- What `msp_shutdown` can do when no assertion fails: nothing, flag the last
packet, or add a packet of its own. -/
theorem mspShutdown_cases (h : mspShutdown sock = .ok (done, sock')) : (done = false ∧ sock' = sock) ∨
    (done = true ∧ sock.state.listening = false ∧ sock.state.shutdownLocal = false ∧
      ((∃ init tail, sock.tx.packets = init ++ [tail] ∧ tail.sent = none ∧ sock' = { sock with
          tx := { sock.tx with
            packets := init ++ [{ tail with flags := tail.flags ||| flagShutdown }] }
          state := sock.state.shutdown }) ∨
      ((addPacket sock.tx sock.tx.nextSeq flagShutdown []).1 ≠ .ambiguous ∧ sock' = { sock with
          tx := { (addPacket sock.tx sock.tx.nextSeq flagShutdown []).2 with
            nextSeq := (addPacket sock.tx sock.tx.nextSeq flagShutdown []).2.nextSeq + 1 }
          state := sock.state.shutdown }))) := by
  revert h
  fun_cases mspShutdown sock with
  | case1 | case2 => rintro ⟨⟩
  | case3 hlis hshut tail htail hsent =>
    rintro ⟨⟩
    simp only [Bool.not_eq_true] at hlis hshut
    have hspl := List.dropLast_append_getLast? tail htail
    exact .inr ⟨rfl, hlis, hshut, .inl ⟨_, tail, hspl.symm, hsent, rfl⟩⟩
  | case4 hlis hshut | case5 hlis hshut =>
    intro h
    simp only [Bool.not_eq_true] at hlis hshut
    rw [mspShutdown.shutdownPacket] at h
    split at h
    · cases h
      exact .inl ⟨rfl, rfl⟩
    next res tx hres hadd =>
    cases h
    rw [hadd]
    exact .inr ⟨rfl, hlis, hshut, .inr ⟨by simpa using hres, rfl⟩⟩

/-- `msp_stop`, with the packet that it sends. -/
def mspStop (sock : Sock) : Sock × List (List UInt8) :=
  if sock.state.stopped then (sock, [])
  else
    ({ sock with state := { sock.state with stopped := true, closed := true, dataout := false } },
      if sock.remoteAddr.port ≠ 0 ∧ sock.state.listening = false then [[flagStop]] else [])

/-! ## `process_sock` -/

/-- Where `process_sock` is: not running, in the handler with the rest of the rx
packet at `index`, or in the handler with no data after all packets. -/
inductive Phase where
  | idle
  | inHandler (index : Nat)
  | finishing
  deriving DecidableEq, Repr

def freeDelivered (sock : Sock) : Sock :=
  { sock with rx := freeAckedPackets sock.rx (sock.rx.nextSeq - 1) }

/-- The head of the loop over rx packets, up to the call of the handler. -/
def rxLoop (sock : Sock) (index : Nat) : Sock × Phase :=
  match sock.rx.packets[index]? with
  | none => (freeDelivered sock, .finishing)
  | some p =>
    if p.seq = sock.rx.nextSeq then
      ({ sock with state := { sock.state with
        shutdownRemote := sock.state.shutdownRemote || hasFlag p.flags flagShutdown } },
        .inHandler index)
    else (freeDelivered sock, .finishing)

def processSockStart (now : Int) (sock : Sock) : Sock × Phase :=
  if sock.timeout < now then
    ({ sock with state := { sock.state with closed := true, error := true } }, .idle)
  else if sock.state.listening then (sock, .idle)
  else rxLoop sock 0

/-- The loop goes on after the handler has consumed `nconsumed` bytes. -/
def handlerReturned (nconsumed index : Nat) (sock : Sock) : Except Abort (Sock × Phase) :=
  match sock.rx.packets[index]? with
  | none => .ok (sock, .idle)
  | some p =>
    if p.payload.length - p.offset < nconsumed then .error .overconsumed
    else if nconsumed = 0 ∧ p.offset < p.payload.length then .ok (freeDelivered sock, .finishing)
    else
      let packets := sock.rx.packets.set index { p with offset := p.offset + nconsumed }
      if p.offset + nconsumed < p.payload.length then
        .ok (rxLoop { sock with rx := { sock.rx with packets := packets } } index)
      else
        .ok (rxLoop { sock with rx := { sock.rx with
          packets := packets, nextSeq := sock.rx.nextSeq + 1 } } (index + 1))

def checkTx (sock : Sock) : Except Abort Unit :=
  if sock.tx.packets.length ≠ sock.tx.packetCount then .error .txCount
  else if sock.tx.packets.length ≥ maxWindowSize ∨ sock.state.closed ∨ sock.state.shutdownLocal then
    if sock.state.dataout then .error .dataout else .ok ()
  else if sock.state.dataout then .ok () else .error .dataout

/-- What `send_message` does with a packet: take it, ask to try again, or fail. -/
inductive SendResult where
  | sent
  | again
  | failed
  deriving DecidableEq, Repr

def preamble (sock : Sock) (flags : UInt8) : List UInt8 :=
  (flags ||| (if sock.state.receivedData then flagAck else 0) |||
    (if sock.state.receivedPacket then 0 else flagFirst)) :: writeUint16 (sock.rx.nextSeq - 1)

/-- The bytes that `msp_send_packet` sends. -/
def packetBytes (sock : Sock) (p : Packet) : List UInt8 :=
  preamble sock p.flags ++ writeUint16 p.seq ++ p.payload

def isExpired (now : Int) (p : Packet) : Bool :=
  match p.sent with
  | none => true
  | some sent => decide (sent + retransmitTime < now)

/-- How the loop that transmits ends. -/
inductive TransmitEnd where
  | done
  | failed
  | noRemotePort
  deriving DecidableEq, Repr

/-- The outcome of the loop that transmits: the socket, the packets it has looked
at, and the packets sent. -/
structure Transmission where
  sock : Sock
  packets : List Packet
  sent : List Packet
  ending : TransmitEnd
  deriving DecidableEq, Repr

def Transmission.after (p : Packet) (sent : List Packet) (t : Transmission) : Transmission :=
  { t with packets := p :: t.packets, sent := sent ++ t.sent }

/-- The loop that transmits packets. `pendingBind` tells whether another socket
waits for its port; `outcome` is what becomes of each packet. -/
def transmit (now : Int) (pendingBind : Bool) (outcome : Packet → SendResult) :
    List Packet → Sock → Transmission
  | [], sock => ⟨sock, [], [], .done⟩
  | p :: rest, sock =>
    if isExpired now p then
      if sock.localAddr.port = 0 ∧ (pendingBind ∨ sock.bind) then ⟨sock, p :: rest, [], .done⟩
      else if sock.remoteAddr.port = 0 then ⟨sock, p :: rest, [], .noRemotePort⟩
      else
        let sock := { sock with
          bind := sock.bind || sock.localAddr.port == 0
          previousAck := sock.rx.nextSeq - 1 }
        match outcome p with
        | .again => ⟨sock, p :: rest, [], .done⟩
        | .failed => ⟨sock, p :: rest, [], .failed⟩
        | .sent =>
          (transmit now pendingBind outcome rest { sock with nextAck := now + retransmitTime }).after
            { p with sent := some now } [p]
    else (transmit now pendingBind outcome rest sock).after p []

/-- The test that closes the socket at the end of `process_sock`. It compares numbers
of type `int`, and 0 less one is no number of sixteen bits. -/
def finished (sock : Sock) : Bool :=
  sock.state.shutdownLocal && sock.state.shutdownRemote && sock.tx.packetCount == 0 &&
    sock.rx.packetCount == 0 && (sock.previousAck.toNat : Int) == sock.rx.nextSeq.toNat - 1

def closeFinished (sock : Sock) : Sock :=
  if finished sock then { sock with state := { sock.state with closed := true } } else sock

/-- The rest of `process_sock`: the socket, the bytes sent, and whether a failure
has made `msp_close_all` free the socket. -/
structure Finish where
  sock : Sock
  sent : List (List UInt8)
  freed : Bool
  deriving DecidableEq, Repr

/-- The packet that `send_ack` sends. -/
def ackBytes (sock : Sock) : List UInt8 := preamble sock 0

/-- The end of `process_sock`, after the tx packets: an acknowledgement if none
has gone out lately, and the test for the end of the connection. -/
def sendAck (now : Int) (outcome : SendResult) (sock : Sock) : Except Abort Finish :=
  if sock.nextAck < now then
    if sock.localAddr.port = 0 ∧ sock.bind then .ok ⟨sock, [], false⟩
    else if sock.remoteAddr.port = 0 then .error .noRemotePort
    else
      let sock := { sock with bind := sock.bind || sock.localAddr.port == 0 }
      match outcome with
      | .again => .ok ⟨sock, [], false⟩
      | .failed => .ok ⟨sock, [], true⟩
      | .sent =>
        .ok ⟨closeFinished { sock with
            previousAck := sock.rx.nextSeq - 1, nextAck := now + retransmitTime },
          [ackBytes sock], false⟩
  else .ok ⟨closeFinished sock, [], false⟩

def Transmission.result (t : Transmission) : Sock :=
  { t.sock with tx := { t.sock.tx with packets := t.packets } }

def processSockFinish (now : Int) (pendingBind : Bool) (outcome : Packet → SendResult)
    (ackOutcome : SendResult) (sock : Sock) : Except Abort Finish :=
  match checkTx sock with
  | .error e => .error e
  | .ok () =>
    let t := transmit now pendingBind outcome sock.tx.packets sock
    match t.ending with
    | .noRemotePort => .error .noRemotePort
    | .failed => .ok ⟨t.result, t.sent.map (packetBytes sock), true⟩
    | .done =>
      match sendAck now ackOutcome t.result with
      | .error e => .error e
      | .ok f => .ok { f with sent := t.sent.map (packetBytes sock) ++ f.sent }

/-! ## `process_packet` -/

def offerSpace (sock : Sock) : Sock :=
  if sock.tx.packetCount < maxWindowSize ∧ sock.state.shutdownLocal = false ∧
      sock.state.closed = false then
    { sock with state := { sock.state with dataout := true } }
  else sock

/-- The part of `process_packet` that acknowledges packets and takes data. -/
def receiveData (now : Int) (payload : List UInt8) (sock : Sock) : Sock :=
  match payload with
  | flags :: low :: high :: data =>
    let sock := offerSpace (if hasFlag flags flagAck then
      { sock with tx := freeAckedPackets sock.tx (readUint16 [low, high]) } else sock)
    match data with
    | low :: high :: data =>
      match addPacket sock.rx (readUint16 [low, high]) flags data with
      | (.added, rx) => { sock with
          state := { sock.state with receivedData := true }, rx := rx, nextAck := now }
      | (_, rx) => { sock with state := { sock.state with receivedData := true }, rx := rx }
    | _ => sock
  | _ => sock

/-- `process_packet` once it has found the socket of a packet that has a first byte. -/
def receivePacket (now : Int) (flags : UInt8) (payload : List UInt8) (sock : Sock) :
    Sock × List (List UInt8) :=
  let sock := { sock with
    timeout := now + 10000, state := { sock.state with receivedPacket := true } }
  if hasFlag flags flagStop then mspStop sock
  else (receiveData now payload sock, [])

end MspSocket
