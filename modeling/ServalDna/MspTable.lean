import ServalDna.MspSocket

/-!
# The flow control of all MSP sockets

The sockets of a process form a list. `msp_processing` calls `process_sock` on
every one of them and then frees those that are closed; applications and their
handlers connect, listen, send and stop in between, and packets arrive. For each
step it is shown what becomes of the two assertions of `process_sock`: the packet
count is the number of linked packets, and `MSP_STATE_DATAOUT` is set exactly
when there is room for another packet.
-/
namespace MspTable

open ByteFlags DataFormats MspWindow MspSocket List

/-! ## Flow control of one socket -/

/-- There is room in the tx window of a socket that still takes data. -/
def room (s : Sock) : Bool :=
  decide (s.tx.packetCount < maxWindowSize) && !s.state.closed && !s.state.shutdownLocal

/-- What the assertions of `process_sock` ask for. -/
structure Flow (s : Sock) : Prop where
  counted : Counted s.tx
  dataout : s.state.listening = false → s.state.dataout = room s

theorem checkTx_flow (h : Flow s) (hs : s.state.listening = false) : checkTx s = .ok () := by
  have hcnt : s.tx.packetCount = s.tx.packets.length := h.counted
  have hfull : (s.tx.packets.length ≥ maxWindowSize ∨ s.state.closed ∨ s.state.shutdownLocal) ↔
      s.state.dataout = false := by
    rw [h.dataout hs, room, hcnt, ← Bool.not_eq_true]
    simp only [Bool.and_eq_true, decide_eq_true_eq, Bool.not_eq_true', not_and_or, not_lt,
      Bool.not_eq_false, or_assoc]
  rw [checkTx, if_neg (by omega)]
  simp only [hfull]
  cases s.state.dataout <;> rfl

/-- The part of a socket that flow control depends on. -/
def flowView (s : Sock) : Nat × Nat × Bool × Bool × Bool × Bool :=
  (s.tx.packetCount, s.tx.packets.length, s.state.listening, s.state.dataout, s.state.closed,
    s.state.shutdownLocal)

theorem flow_congr (h : Flow s) (hview : flowView s' = flowView s) : Flow s' := by
  simp only [flowView, Prod.mk.injEq] at hview
  obtain ⟨hcnt, hlen, hlis, hdat, hcld, hshut⟩ := hview
  refine ⟨?_, fun hs => ?_⟩
  · rw [Counted, hcnt, hlen]
    exact h.counted
  · rw [hdat, h.dataout (hlis ▸ hs), room, room, hcnt, hcld, hshut]

theorem flow_connect (hcnt : Counted s.tx) (hemp : s.tx.packetCount = 0)
    (hstep : mspConnect now rem s = .ok s') : Flow s' := by
  rw [mspConnect] at hstep
  split at hstep
  · cases hstep
  next hste =>
  cases hstep
  have hfr : s.state = .uninitialised := not_not.mp hste
  refine ⟨hcnt, fun _ => ?_⟩
  simp [room, hfr, State.uninitialised, hemp, maxWindowSize]

theorem flow_listen (hcnt : Counted s.tx) (hstep : mspListen now sendOk s = .ok s') : Flow s' := by
  rw [mspListen] at hstep
  split at hstep
  · cases hstep
  split at hstep
  · cases hstep
  split at hstep
  · cases hstep
    exact ⟨hcnt, fun hs => by simp at hs⟩
  cases hstep
  exact ⟨hcnt, fun hs => by simp at hs⟩

theorem addPacket_count (w : Window) (seq : UInt16) (flags : UInt8) (pl : List UInt8) :
    w.packetCount ≤ (addPacket w seq flags pl).2.packetCount ∧
      (addPacket w seq flags pl).2.packetCount ≤ w.packetCount + 1 := by
  fun_cases addPacket w seq flags pl with
  | case1 | case4 | case6 => exact ⟨Nat.le_succ _, le_rfl⟩
  | case2 | case3 | case5 => exact ⟨le_rfl, Nat.le_succ _⟩

theorem flow_send (h : Flow s) (hstep : mspSend pl s = .ok (r, s')) : Flow s' := by
  obtain ⟨-, rfl⟩ | ⟨hlis, hshut, hcld, -, -, -, rfl⟩ := mspSend_cases hstep
  · exact h
  refine ⟨addPacket_counted h.counted s.tx.nextSeq 0 pl, fun _ => ?_⟩
  have hmore := (addPacket_count s.tx s.tx.nextSeq 0 pl).1
  have hout := h.dataout hlis
  simp only [Sock.queued, room, hcld, hshut, hout, Bool.not_false, Bool.and_true]
  by_cases hfull : (addPacket s.tx s.tx.nextSeq 0 pl).2.packetCount < maxWindowSize
  · simp [hfull, lt_of_le_of_lt hmore hfull]
  · simp [hfull]

theorem flow_shutdown (h : Flow s) (hstep : mspShutdown s = .ok (done, s')) : Flow s' := by
  obtain ⟨-, rfl⟩ | ⟨-, -, -, ⟨init, tail, hpk, -, rfl⟩ | ⟨-, rfl⟩⟩ :=
    mspShutdown_cases hstep
  · exact h
  · have hcnt : s.tx.packetCount = s.tx.packets.length := h.counted
    refine ⟨?_, fun _ => by simp [room, State.shutdown]⟩
    simp [Counted, hcnt, hpk]
  exact ⟨addPacket_counted h.counted s.tx.nextSeq flagShutdown [],
    fun _ => by simp [room, State.shutdown]⟩

theorem flow_stop (h : Flow s) : Flow (mspStop s).1 := by
  rw [mspStop]
  split
  · exact h
  · exact ⟨h.counted, fun _ => by simp [room]⟩

@[simp] theorem flowView_rxLoop (s : Sock) (idx : Nat) : flowView (rxLoop s idx).1 = flowView s := by
  rw [rxLoop]
  split
  · rfl
  · split <;> rfl

theorem flowView_handlerReturned (h : handlerReturned nc idx s = .ok (s', ph)) :
    flowView s' = flowView s := by
  rw [handlerReturned] at h
  split at h
  · cases h
    rfl
  split at h
  · cases h
  split at h
  · cases h
    rfl
  split at h
  all_goals
    have hs' := congrArg Prod.fst (Except.ok.inj h)
    rw [← show _ = s' from hs', flowView_rxLoop]
    rfl

/-- The loop that transmits only changes when and what the socket acknowledges. -/
theorem transmit_spec (now : Int) (pb : Bool) (oc : Packet → SendResult)
    (pks : List Packet) (s : Sock) :
    (transmit now pb oc pks s).packets.length = pks.length ∧
      ∃ bind previousAck nextAck, (transmit now pb oc pks s).sock =
        { s with bind := bind, previousAck := previousAck, nextAck := nextAck } := by
  fun_induction transmit now pb oc pks s with
  | case6 _ _ _ _ _ _ _ _ ih | case7 _ _ _ _ ih => exact ⟨congrArg Nat.succ ih.1, ih.2⟩
  | _ => exact ⟨rfl, _, _, _, rfl⟩

theorem flow_closeFinished (h : Flow s) : Flow (closeFinished s) := by
  rw [closeFinished]
  split
  · next hfin =>
    simp only [finished, Bool.and_eq_true] at hfin
    refine ⟨h.counted, fun hs => ?_⟩
    have hout := h.dataout hs
    simp only [room, hfin.1.1.1.1, Bool.not_true, Bool.and_false] at hout ⊢
    exact hout
  · exact h

theorem flow_sendAck (h : Flow s) (hstep : sendAck now oc s = .ok f) : Flow f.sock := by
  revert hstep
  fun_cases sendAck now oc s with
  | case1 =>
    rintro ⟨⟩
    exact h
  | case2 => rintro ⟨⟩
  | case3 | case4 =>
    rintro ⟨⟩
    exact flow_congr h rfl
  | case5 =>
    rintro ⟨⟩
    exact flow_closeFinished (flow_congr h rfl)
  | case6 =>
    rintro ⟨⟩
    exact flow_closeFinished h

/-- The rest of `process_sock` passes its assertions and keeps the flow control. -/
theorem flow_processSockFinish (h : Flow s) (hs : s.state.listening = false) :
    processSockFinish now pb oc ao s ≠ .error .txCount ∧
      processSockFinish now pb oc ao s ≠ .error .dataout ∧
      ∀ f, processSockFinish now pb oc ao s = .ok f → Flow f.sock := by
  obtain ⟨hlen, _, _, _, hsock⟩ := transmit_spec now pb oc s.tx.packets s
  have hres : Flow (transmit now pb oc s.tx.packets s).result := by
    apply flow_congr h
    simp [flowView, Transmission.result, hsock, hlen]
  rw [processSockFinish, checkTx_flow h hs]
  simp only
  generalize transmit now pb oc s.tx.packets s = t at *
  cases hend : t.ending with
  | noRemotePort => exact ⟨by simp, by simp, fun f hf => by cases hf⟩
  | failed => exact ⟨by simp, by simp, fun f hf => by cases hf; exact hres⟩
  | done =>
    cases hack : sendAck now ao t.result with
    | error e =>
      have he : e = .noRemotePort := by
        revert hack
        fun_cases sendAck now ao t.result <;> rintro ⟨⟩
        rfl
      subst he
      exact ⟨by simp, by simp, fun f hf => by cases hf⟩
    | ok f =>
      have hflow := flow_sendAck hres hack
      exact ⟨by simp, by simp, fun f' hf => by cases hf; exact hflow⟩

/-- `MSP_STATE_DATAOUT` is not set without need. -/
def Restrained (s : Sock) : Prop := room s = false → s.state.dataout = false

theorem restrained_flow (h : Flow s) (hlis : s.state.listening = false) :
    Restrained s := fun hroom => (h.dataout hlis).trans hroom

theorem flow_offerSpace (hcnt : Counted s.tx) (h : Restrained s) : Flow (offerSpace s) := by
  rw [offerSpace]
  split
  · next hsp =>
    refine ⟨hcnt, fun _ => ?_⟩
    simp [room, hsp.1, hsp.2.1, hsp.2.2]
  next hsp =>
  have hroom : room s = false := by
    rw [room, ← Bool.not_eq_true]
    simp only [Bool.and_eq_true, decide_eq_true_eq, Bool.not_eq_true']
    exact fun hall => hsp ⟨hall.1.1, hall.2, hall.1.2⟩
  exact ⟨hcnt, fun _ => (h hroom).trans hroom.symm⟩

theorem restrained_freeAcked (h : Restrained s) :
    Restrained { s with tx := freeAckedPackets s.tx seq } := by
  intro hroom
  apply h
  have hle : (freeAckedPackets s.tx seq).packetCount ≤ s.tx.packetCount := Nat.sub_le _ _
  simp only [room] at hroom ⊢
  by_cases hlt : s.tx.packetCount < maxWindowSize
  · have hlt' := lt_of_le_of_lt hle hlt
    simpa [hlt, hlt'] using hroom
  · simp [hlt]

/-- A packet of three bytes or more brings a socket to what flow control asks for. -/
theorem flow_receiveData (hcnt : Counted s.tx) (h : Restrained s) (hlong : 3 ≤ pl.length) :
    Flow (receiveData now pl s) := by
  obtain ⟨flags, low, high, data, rfl⟩ : ∃ flags low high data,
      pl = flags :: low :: high :: data := by
    match pl, hlong with
    | flags :: low :: high :: data, _ => exact ⟨flags, low, high, data, rfl⟩
  have hsp : Flow (offerSpace (if hasFlag flags flagAck then
      { s with tx := freeAckedPackets s.tx (readUint16 [low, high]) } else s)) := by
    split
    · exact flow_offerSpace (freeAckedPackets_counted hcnt _) (restrained_freeAcked h)
    · exact flow_offerSpace hcnt h
  simp only [receiveData]
  split
  · split
    · exact flow_congr hsp rfl
    · exact flow_congr hsp rfl
  · exact hsp

theorem receiveData_short (hsht : pl.length < 3) : receiveData now pl s = s := by
  match pl, hsht with
  | [], _ => rfl
  | [_], _ => rfl
  | [_, _], _ => rfl

theorem flow_receivePacket (h : Flow s) (hlis : s.state.listening = false) :
    Flow (receivePacket now flags pl s).1 := by
  have hsock : Flow { s with
      timeout := now + 10000, state := { s.state with receivedPacket := true } } :=
    flow_congr h rfl
  simp only [receivePacket]
  split
  · exact flow_stop hsock
  by_cases hlong : 3 ≤ pl.length
  · exact flow_receiveData hsock.counted (restrained_flow hsock hlis) hlong
  rw [receiveData_short (by omega)]
  exact hsock

/-! ## All sockets -/

/-- Where `msp_processing` is: not running, about to process the sockets `rest`,
in the handler of one of them, about to look for closed sockets in `rest`, or in
the handler of one that is being freed. Sockets are only ever added in front of
the list, so the ones still to come are known from the start of each loop. -/
inductive Pass where
  | idle
  | visit (rest : List Nat)
  | inSock (handle : Nat) (phase : Phase) (rest : List Nat)
  | scan (rest : List Nat)
  | freeing (handle : Nat) (rest : List Nat)
  deriving DecidableEq, Repr

/-- The list from `root`, each socket with the number that its handle stands for. -/
structure Table where
  socks : List (Nat × Sock)
  nextHandle : Nat
  pass : Pass
  deriving DecidableEq, Repr

def Table.start : Table := ⟨[], 0, .idle⟩

def Table.find (t : Table) (handle : Nat) : Except Abort Sock :=
  match t.socks.find? (fun e => e.1 == handle) with
  | none => .error .invalidHandle
  | some e => .ok e.2

def Table.set (t : Table) (handle : Nat) (s : Sock) : Table :=
  { t with socks := t.socks.map (fun e => if e.1 = handle then (handle, s) else e) }

def Table.insert (t : Table) (s : Sock) : Table :=
  { t with socks := (t.nextHandle, s) :: t.socks, nextHandle := t.nextHandle + 1 }

/-- The calls of an application. The first two make a socket, set its local
address and connect it or listen on it. -/
inductive Call where
  | connect (now : Int) (mdpSock : Nat) (localAddr remote : SockAddr)
  | listen (now : Int) (mdpSock : Nat) (localAddr : SockAddr) (sendOk : Bool)
  | send (handle : Nat) (payload : List UInt8)
  | shutdown (handle : Nat)
  | stop (handle : Nat)
  deriving DecidableEq, Repr

def Table.call (t : Table) : Call → Except Abort Table
  | .connect now mdpSock localAddr remote => do
    let s ← mspConnect now remote { mspSocket now mdpSock with localAddr := localAddr }
    return t.insert s
  | .listen now mdpSock localAddr sendOk => do
    let s ← mspListen now sendOk { mspSocket now mdpSock with localAddr := localAddr }
    return t.insert s
  | .send handle payload => do
    let s ← t.find handle
    let (_, s') ← mspSend payload s
    return t.set handle s'
  | .shutdown handle => do
    let s ← t.find handle
    let (_, s') ← mspShutdown s
    return t.set handle s'
  | .stop handle => do
    let s ← t.find handle
    return t.set handle (mspStop s).1

/-- The header of a packet from the daemon. -/
structure Header where
  localAddr : SockAddr
  remoteAddr : SockAddr
  bind : Bool
  error : Bool
  deriving DecidableEq, Repr

/-- What the search in `process_packet` comes to: a socket that waits for its port,
the socket of the connection, or at most a listening socket. -/
inductive Lookup where
  | bound (handle : Nat) (s : Sock)
  | found (handle : Nat) (s : Sock)
  | unknown (listening : Option Sock)
  deriving DecidableEq, Repr

def lookup (mdpSock : Nat) (header : Header) : Option Sock → List (Nat × Sock) → Lookup
  | listening, [] => .unknown listening
  | listening, (handle, s) :: rest =>
    if s.mdpSock = mdpSock then
      if s.bind ∧ header.bind then .bound handle s
      else if s.state.listening then
        if s.localAddr.port = header.localAddr.port ∧
            (s.localAddr.sid = sidAny ∨ s.localAddr.sid = header.localAddr.sid) then
          lookup mdpSock header (some s) rest
        else lookup mdpSock header listening rest
      else if s.remoteAddr = header.remoteAddr ∧ s.localAddr = header.localAddr then
        .found handle s
      else lookup mdpSock header listening rest
    else lookup mdpSock header listening rest

def timeNeverWill : Int := 2 ^ 63 - 1

def bindAnswer (header : Header) (s : Sock) : Sock :=
  { s with
    localAddr := header.localAddr
    bind := false
    timeout := if s.state.listening then timeNeverWill else s.timeout }

/-- A socket for a connection that a peer opens to the listening socket `s`. -/
def acceptSock (now : Int) (header : Header) (s : Sock) : Sock :=
  { mspSocket now s.mdpSock with
    localAddr := header.localAddr, remoteAddr := header.remoteAddr, bind := header.bind }

def Table.processPacket (t : Table) (now : Int) (mdpSock : Nat) (header : Header)
    (payload : List UInt8) : Table :=
  if header.error then t
  else
    match lookup mdpSock header none t.socks, payload with
    | .bound handle s, _ => t.set handle (bindAnswer header s)
    | _, [] => t
    | .found handle s, flags :: _ => t.set handle (receivePacket now flags payload s).1
    | .unknown (some s), flags :: _ =>
      if hasFlag flags flagStop = false ∧ hasFlag flags flagFirst then
        t.insert (receivePacket now flags payload (acceptSock now header s)).1
      else t
    | .unknown none, _ :: _ => t

/-- Steps of the process. `calls` come from the application, and from its handlers
while `msp_processing` runs. -/
inductive Action where
  | call (c : Call)
  | packet (now : Int) (mdpSock : Nat) (header : Header) (payload : List UInt8)
  | processing
  | proceed (now : Int)
  | handlerReturns (nconsumed : Nat)
  | finish (now : Int) (outcome : Packet → SendResult) (ackOutcome : SendResult)

/-- `pending_bind`, for the sockets other than `handle`. -/
def Table.pendingBind (t : Table) (handle mdpSock : Nat) : Bool :=
  t.socks.any (fun e => e.1 != handle && e.2.mdpSock == mdpSock && e.2.bind)

/-- `free_all_packets` on both windows; the handler is then called a last time. -/
def release (s : Sock) : Sock :=
  { s with tx := { s.tx with packets := [], packetCount := 0 }
           rx := { s.rx with packets := [], packetCount := 0 } }

/-- The loops of `msp_processing` up to the next call of a handler. -/
def Table.proceed (t : Table) (now : Int) : Except Abort Table :=
  match t.pass with
  | .visit [] => .ok { t with pass := .scan (t.socks.map Prod.fst) }
  | .visit (handle :: rest) => do
    let s ← t.find handle
    match processSockStart now s with
    | (s', .idle) => return { t.set handle s' with pass := .visit rest }
    | (s', phase) => return { t.set handle s' with pass := .inSock handle phase rest }
  | .scan [] => .ok { t with pass := .idle }
  | .scan (handle :: rest) => do
    let s ← t.find handle
    if s.state.closed then return { t.set handle (release s) with pass := .freeing handle rest }
    else return { t with pass := .scan rest }
  | .freeing handle rest =>
    .ok { t with socks := t.socks.filter (fun e => e.1 != handle), pass := .scan rest }
  | _ => .ok t

/-- One step; a step that is not due at this point leaves the table as it is. -/
def step (t : Table) : Action → Except Abort Table
  | .call c =>
    match t.pass with
    | .visit _ => .ok t
    | .scan _ => .ok t
    | _ => t.call c
  | .packet now mdpSock header payload =>
    match t.pass with
    | .idle => .ok (t.processPacket now mdpSock header payload)
    | _ => .ok t
  | .processing =>
    match t.pass with
    | .idle => .ok { t with pass := .visit (t.socks.map Prod.fst) }
    | _ => .ok t
  | .proceed now => t.proceed now
  | .handlerReturns nconsumed =>
    match t.pass with
    | .inSock handle (.inHandler index) rest => do
      let s ← t.find handle
      let (s', phase) ← handlerReturned nconsumed index s
      return { t.set handle s' with pass := .inSock handle phase rest }
    | _ => .ok t
  | .finish now outcome ackOutcome =>
    match t.pass with
    | .inSock handle .finishing rest => do
      let s ← t.find handle
      let f ← processSockFinish now (t.pendingBind handle s.mdpSock) outcome ackOutcome s
      if f.freed then .error .usedAfterFree
      else return { t.set handle f.sock with pass := .visit rest }
    | _ => .ok t

def run : Table → List Action → Except Abort Table
  | t, [] => .ok t
  | t, a :: actions => do
    let t' ← step t a
    run t' actions

/-! ## The invariant -/

/-- The sockets that a pass has still to come to. -/
def Pass.pending : Pass → List Nat
  | .idle => []
  | .visit rest => rest
  | .inSock handle _ rest => handle :: rest
  | .scan rest => rest
  | .freeing handle rest => handle :: rest

/-- The sockets that may be out of order because they have timed out: those that
this pass has processed and not freed yet. -/
def Excused : Pass → Nat → Prop
  | .idle, _ => False
  | .visit rest, handle => handle ∉ rest
  | .inSock current _ rest, handle => handle ∉ current :: rest
  | .scan rest, handle => handle ∈ rest
  | .freeing current rest, handle => handle ∈ current :: rest

/-- Flow control is in order, or the socket is closed and excused. -/
def InOrder (pass : Pass) (e : Nat × Sock) : Prop :=
  Flow e.2 ∨ (e.2.state.closed = true ∧ Excused pass e.1)

/-- A socket that is being processed is not a listening one. -/
def Connected : Pass → Nat × Sock → Prop
  | .inSock handle _ _, e => e.1 = handle → e.2.state.listening = false
  | _, _ => True

structure Inv (t : Table) : Prop where
  nodup : (t.socks.map Prod.fst).Nodup
  fresh : ∀ e ∈ t.socks, e.1 < t.nextHandle
  pendingNodup : t.pass.pending.Nodup
  pendingFresh : ∀ handle ∈ t.pass.pending, handle < t.nextHandle
  inOrder : ∀ e ∈ t.socks, InOrder t.pass e
  connected : ∀ e ∈ t.socks, Connected t.pass e

theorem inv_start : Inv Table.start := by
  constructor <;> simp [Table.start, Pass.pending]

variable {t : Table} {pass : Pass}

theorem find_mem (h : t.find handle = .ok s) : (handle, s) ∈ t.socks := by
  rw [Table.find] at h
  split at h
  · cases h
  next e hfind =>
  cases h
  have hhan : e.1 = handle := by simpa using find?_some hfind
  rw [← hhan]
  exact mem_of_find?_eq_some hfind

@[simp] theorem set_handles (handle : Nat) :
    (t.set handle s).socks.map Prod.fst = t.socks.map Prod.fst := by
  simp only [Table.set, map_map]
  apply map_congr_left
  intro e _
  simp only [Function.comp]
  split
  · next heq => exact heq.symm
  · rfl

theorem mem_set (h : e ∈ (t.set handle s).socks) : e = (handle, s) ∨ (e ∈ t.socks ∧ e.1 ≠ handle) := by
  obtain ⟨e', he', heq⟩ := mem_map.mp h
  split at heq
  · exact .inl heq.symm
  · next hne => exact .inr ⟨heq ▸ he', heq ▸ hne⟩

/-- One socket is replaced and the pass moves on to a part of what is pending. -/
theorem inv_set (h : Inv t) (hmem : (handle, s) ∈ t.socks)
    (hpen : pass.pending.Sublist t.pass.pending)
    (hs' : InOrder pass (handle, s') ∧ Connected pass (handle, s'))
    (hrest : ∀ e ∈ t.socks, e.1 ≠ handle → InOrder pass e ∧ Connected pass e) :
    Inv { t.set handle s' with pass := pass } := by
  have hall : ∀ e ∈ (t.set handle s').socks, e.1 < t.nextHandle ∧ InOrder pass e ∧ Connected pass e := by
    intro e he
    obtain rfl | ⟨he, hne⟩ := mem_set he
    · exact ⟨h.fresh (handle, s) hmem, hs'⟩
    · exact ⟨h.fresh e he, hrest e he hne⟩
  constructor
  · rw [set_handles]
    exact h.nodup
  · exact fun e he => (hall e he).1
  · exact h.pendingNodup.sublist hpen
  · exact fun cur hmem => h.pendingFresh cur (hpen.subset hmem)
  · exact fun e he => (hall e he).2.1
  · exact fun e he => (hall e he).2.2

/-- The table stays as it is and the pass moves on. -/
theorem inv_pass (h : Inv t) (hnd : pass.pending.Nodup)
    (hfr : ∀ handle ∈ pass.pending, handle < t.nextHandle)
    (hall : ∀ e ∈ t.socks, InOrder pass e ∧ Connected pass e) : Inv { t with pass := pass } :=
  { h with
    pendingNodup := hnd
    pendingFresh := hfr
    inOrder := fun e he => (hall e he).1
    connected := fun e he => (hall e he).2 }

theorem inv_insert (h : Inv t) (hflow : Flow s) : Inv (t.insert s) := by
  have hnew : t.nextHandle ∉ t.socks.map Prod.fst := by
    intro hmem
    obtain ⟨e, he, heq⟩ := mem_map.mp hmem
    exact absurd heq (ne_of_lt (h.fresh e he))
  have hconn : Connected t.pass (t.nextHandle, s) := by
    have hpen := h.pendingFresh
    generalize t.pass = pass at *
    cases pass with
    | inSock cur ph rest => exact fun heq => absurd heq (hpen cur mem_cons_self).ne'
    | _ => trivial
  constructor
  · exact nodup_cons.mpr ⟨hnew, h.nodup⟩
  · exact forall_mem_cons.mpr ⟨Nat.lt_succ_self _, fun e he => Nat.lt_succ_of_lt (h.fresh e he)⟩
  · exact h.pendingNodup
  · exact fun handle hmem => Nat.lt_succ_of_lt (h.pendingFresh handle hmem)
  · exact forall_mem_cons.mpr ⟨.inl hflow, h.inOrder⟩
  · exact forall_mem_cons.mpr ⟨hconn, h.connected⟩

/-! ## Calls and packets -/

/-- A call of an application on one socket: flow control stays in order, a closed
socket stays closed, and no socket starts or stops to listen. -/
structure Keeps (s s' : Sock) : Prop where
  flow : Flow s → Flow s'
  closed : s.state.closed = true → s'.state.closed = true
  listening : s'.state.listening = s.state.listening

theorem keeps_send (h : mspSend pl s = .ok (r, s')) : Keeps s s' := by
  refine ⟨fun hflow => flow_send hflow h, ?_, ?_⟩
  all_goals obtain ⟨-, rfl⟩ | ⟨-, -, -, -, -, -, rfl⟩ := mspSend_cases h
  · exact id
  · exact id
  · rfl
  · rfl

theorem keeps_shutdown (h : mspShutdown s = .ok (done, s')) : Keeps s s' := by
  refine ⟨fun hflow => flow_shutdown hflow h, ?_, ?_⟩
  all_goals obtain ⟨-, rfl⟩ | ⟨-, -, -, ⟨_, _, _, _, rfl⟩ | ⟨-, rfl⟩⟩ := mspShutdown_cases h
  · exact id
  · exact id
  · exact id
  · rfl
  · rfl
  · rfl

theorem keeps_stop : Keeps s (mspStop s).1 := by
  refine ⟨flow_stop, ?_, ?_⟩
  all_goals
    rw [mspStop]
    split
  · exact id
  · exact fun _ => rfl
  · rfl
  · rfl

theorem inv_keeps (h : Inv t) (hmem : (handle, s) ∈ t.socks) (hkeeps : Keeps s s') :
    Inv (t.set handle s') := by
  refine inv_set h hmem (List.Sublist.refl _) ⟨?_, ?_⟩ (fun e he _ => ⟨h.inOrder e he, h.connected e he⟩)
  · exact (h.inOrder _ hmem).imp hkeeps.flow fun hcld => ⟨hkeeps.closed hcld.1, hcld.2⟩
  have hconn := h.connected _ hmem
  generalize t.pass = pass at *
  cases pass with
  | inSock cur ph rest => exact fun heq => hkeeps.listening.trans (hconn heq)
  | _ => trivial

/-- Neither assertion of flow control has failed. -/
def Blameless {α : Type} (r : Except Abort α) : Prop :=
  r ≠ .error .txCount ∧ r ≠ .error .dataout

/-- Neither assertion of flow control has failed, and the table is in order. -/
def Sound (r : Except Abort Table) : Prop :=
  Blameless r ∧ ∀ t, r = .ok t → Inv t

theorem sound_ok (h : Inv t) : Sound (.ok t) :=
  ⟨⟨by simp, by simp⟩, fun _ heq => Except.ok.inj heq ▸ h⟩

theorem sound_bind {α : Type} {r : Except Abort α} {next : α → Except Abort Table}
    (hr : Blameless r) (hnext : ∀ a, r = .ok a → Sound (next a)) : Sound (r >>= next) := by
  cases r with
  | error e =>
    refine ⟨⟨fun heq => hr.1 ?_, fun heq => hr.2 ?_⟩, nofun⟩
    · rw [Except.error.inj heq]
    · rw [Except.error.inj heq]
  | ok a => exact hnext a rfl

theorem sound_find {next : Sock → Except Abort Table}
    (hnext : ∀ s, (handle, s) ∈ t.socks → Sound (next s)) : Sound (t.find handle >>= next) := by
  refine sound_bind ?_ fun s hfind => hnext s (find_mem hfind)
  rw [Table.find]
  split <;> exact ⟨by simp, by simp⟩

theorem blameless_connect : Blameless (mspConnect now rem s) := by
  rw [mspConnect]
  split <;> exact ⟨by simp, by simp⟩

theorem blameless_listen : Blameless (mspListen now sendOk s) := by
  rw [mspListen]
  repeat' split
  all_goals exact ⟨by simp, by simp⟩

theorem blameless_send : Blameless (mspSend pl s) := by
  rw [mspSend]
  repeat' split
  all_goals exact ⟨by simp, by simp⟩

theorem blameless_shutdown : Blameless (mspShutdown s) := by
  fun_cases mspShutdown s with
  | case4 | case5 =>
    rw [mspShutdown.shutdownPacket]
    split <;> exact ⟨by simp, by simp⟩
  | _ => exact ⟨by simp, by simp⟩

theorem blameless_handlerReturned : Blameless (handlerReturned nc idx s) := by
  rw [handlerReturned]
  repeat' split
  all_goals exact ⟨by simp, by simp⟩

theorem call_sound (h : Inv t) : Sound (t.call c) := by
  cases c with
  | connect now msk la rem =>
    refine sound_bind blameless_connect (fun s hs => sound_ok (inv_insert h ?_))
    exact flow_connect counted_start rfl hs
  | listen now msk la sendOk =>
    refine sound_bind blameless_listen (fun s hs => sound_ok (inv_insert h ?_))
    exact flow_listen counted_start hs
  | send handle pl =>
    refine sound_find fun s hmem => ?_
    refine sound_bind blameless_send (fun r hr => sound_ok ?_)
    exact inv_keeps h hmem (keeps_send hr)
  | shutdown handle =>
    refine sound_find fun s hmem => ?_
    refine sound_bind blameless_shutdown (fun r hr => sound_ok ?_)
    exact inv_keeps h hmem (keeps_shutdown hr)
  | stop handle =>
    refine sound_find fun s hmem => sound_ok ?_
    exact inv_keeps h hmem keeps_stop

theorem lookup_mem (msk : Nat) (header : Header) (lis : Option Sock)
    (socks : List (Nat × Sock)) :
    (∀ handle s, lookup msk header lis socks = .bound handle s → (handle, s) ∈ socks) ∧
    (∀ handle s, lookup msk header lis socks = .found handle s →
      (handle, s) ∈ socks ∧ s.state.listening = false) := by
  fun_induction lookup msk header lis socks with
  | case1 => simp
  | case2 => simp
  | case5 _ _ _ _ _ _ hlis => simpa using hlis
  | case3 _ _ _ _ _ _ _ _ ih | case4 _ _ _ _ _ _ _ _ ih | case6 _ _ _ _ _ _ _ _ ih
  | case7 _ _ _ _ _ ih =>
    refine ⟨fun handle s h => mem_cons_of_mem _ (ih.1 handle s h), fun handle s h => ?_⟩
    exact (ih.2 handle s h).imp_left (mem_cons_of_mem _)

/-- A packet that opens a connection and ends before the number it acknowledges. -/
def ShortConnect (t : Table) : Action → Prop
  | .packet _ mdpSock header payload =>
    t.pass = .idle ∧ header.error = false ∧ payload.length < 3 ∧
    (∃ s, lookup mdpSock header none t.socks = .unknown (some s)) ∧
    ∃ flags ∈ payload.head?, hasFlag flags flagStop = false ∧ hasFlag flags flagFirst
  | _ => False

theorem flow_of_idle (h : Inv t) (hidle : t.pass = .idle) (he : e ∈ t.socks) : Flow e.2 := by
  have hord := h.inOrder e he
  rw [hidle] at hord
  exact hord.resolve_right (fun hexc => hexc.2)

theorem inv_setIdle (h : Inv t) (hidle : t.pass = .idle) (hmem : (handle, s) ∈ t.socks)
    (hflow : Flow s') : Inv (t.set handle s') := by
  refine inv_set h hmem (List.Sublist.refl _) ⟨.inl hflow, ?_⟩
    (fun e he _ => ⟨h.inOrder e he, h.connected e he⟩)
  rw [hidle]
  trivial

theorem inv_processPacket (h : Inv t) (hidle : t.pass = .idle) {header : Header}
    (hlong : ¬ ShortConnect t (.packet now msk header pl)) :
    Inv (t.processPacket now msk header pl) := by
  have hmem := lookup_mem msk header none t.socks
  unfold Table.processPacket
  split
  · exact h
  next herr =>
  cases hlook : lookup msk header none t.socks with
  | bound handle s =>
    have hs := hmem.1 handle s hlook
    exact inv_setIdle h hidle hs (flow_congr (flow_of_idle h hidle hs) rfl)
  | found handle s =>
    obtain ⟨hs, hlis⟩ := hmem.2 handle s hlook
    cases pl with
    | nil => exact h
    | cons flags rest =>
      exact inv_setIdle h hidle hs (flow_receivePacket (flow_of_idle h hidle hs) hlis)
  | unknown lis =>
    cases pl with
    | nil => exact h
    | cons flags rest =>
      cases lis with
      | none => exact h
      | some s =>
        simp only
        split
        · next hfl =>
          -- the flow control of the socket that the packet creates
          apply inv_insert h
          rw [receivePacket, if_neg (by simp [hfl.1])]
          apply flow_receiveData counted_start (fun _ => rfl)
          by_contra hsht
          exact hlong ⟨hidle, by simpa using herr, by omega, ⟨s, hlook⟩, flags, rfl, hfl⟩
        · exact h

/-! ## Whole runs -/

theorem processSockStart_cases (now : Int) (s : Sock) : (processSockStart now s =
      ({ s with state := { s.state with closed := true, error := true } }, .idle)) ∨
    (processSockStart now s = (s, .idle)) ∨
    (s.state.listening = false ∧ processSockStart now s = rxLoop s 0) := by
  rw [processSockStart]
  split
  · exact .inl rfl
  split
  · exact .inr (.inl rfl)
  · next hlis => exact .inr (.inr ⟨by simpa using hlis, rfl⟩)

theorem rxLoop_phase (s : Sock) (idx : Nat) : (rxLoop s idx).2 ≠ .idle := by
  rw [rxLoop]
  split
  · simp
  · split <;> simp

theorem listening_of_flowView (h : flowView s' = flowView s) :
    s'.state.listening = s.state.listening := by
  simp only [flowView, Prod.mk.injEq] at h
  exact h.2.2.1

section Invariant

variable (h : Inv t)

include h

/-- The socket that a pass comes to next has its flow control in order. -/
theorem flow_of_next (hmem : (handle, s) ∈ t.socks) (hexc : ¬ Excused t.pass handle) : Flow s :=
  (h.inOrder _ hmem).resolve_right (fun hcld => hexc hcld.2)

omit h in
theorem inOrder_mono (h : InOrder pass e) (hexc : Excused pass e.1 → Excused pass' e.1) :
    InOrder pass' e :=
  h.imp_right (fun hcld => ⟨hcld.1, hexc hcld.2⟩)

/-- The handles a pass has still to come to after the one in turn. -/
theorem inv_rest (hpen : t.pass.pending = handle :: rest) :
    handle ∉ rest ∧ rest.Nodup ∧ ∀ other ∈ rest, other < t.nextHandle := by
  have hnd := h.pendingNodup
  have hfr := h.pendingFresh
  rw [hpen] at hnd hfr
  obtain ⟨hnot, hrest⟩ := nodup_cons.mp hnd
  exact ⟨hnot, hrest, fun other hoth => hfr other (mem_cons_of_mem _ hoth)⟩

/-- The socket that was in turn is in order and the pass goes on to the others. -/
theorem inv_visited (hmem : (handle, s) ∈ t.socks) (hpen : t.pass.pending = handle :: rest)
    (hexc : ∀ other, Excused t.pass other ↔ other ∉ handle :: rest)
    (hs' : InOrder (.visit rest) (handle, s')) :
    Inv { t.set handle s' with pass := .visit rest } := by
  refine inv_set h hmem ?_ ⟨hs', trivial⟩ (fun e he _ => ⟨?_, trivial⟩)
  · rw [hpen]
    exact sublist_cons_self handle rest
  refine inOrder_mono (h.inOrder e he) (fun hoth => ?_)
  exact fun hin => (hexc e.1).mp hoth (mem_cons_of_mem _ hin)

/-- The socket that was in turn is in order and waits for its handler. -/
theorem inv_inSock (hmem : (handle, s) ∈ t.socks) (hpen : t.pass.pending = handle :: rest)
    (hexc : ∀ other, Excused t.pass other ↔ other ∉ handle :: rest) (hflow : Flow s')
    (hlis : s'.state.listening = false) :
    Inv { t.set handle s' with pass := .inSock handle ph rest } := by
  refine inv_set h hmem ?_ ⟨.inl hflow, fun _ => hlis⟩ (fun e he hne => ⟨?_, ?_⟩)
  · rw [hpen]
    exact List.Sublist.refl _
  · exact inOrder_mono (h.inOrder e he) (hexc e.1).mp
  · exact fun heq => absurd heq hne

theorem proceed_visit (hpass : t.pass = .visit (handle :: rest)) : Sound (t.proceed now) := by
  rw [Table.proceed, hpass]
  refine sound_find fun s hmem => ?_
  have hpen : t.pass.pending = handle :: rest := by rw [hpass]; rfl
  have hexc : ∀ other, Excused t.pass other ↔ other ∉ handle :: rest := by
    rw [hpass]
    exact fun other => Iff.rfl
  have hflow : Flow s := flow_of_next h hmem (by rw [hexc]; simp)
  have hnot : handle ∉ rest := (inv_rest h hpen).1
  obtain hst | hst | ⟨hlis, hst⟩ := processSockStart_cases now s
  · rw [hst]
    exact sound_ok (inv_visited h hmem hpen hexc (.inr ⟨rfl, hnot⟩))
  · rw [hst]
    exact sound_ok (inv_visited h hmem hpen hexc (.inl hflow))
  have hph := rxLoop_phase s 0
  have hview := flowView_rxLoop s 0
  rw [hst]
  generalize rxLoop s 0 = r at *
  obtain ⟨s', ph⟩ := r
  have hin : Inv { t.set handle s' with pass := .inSock handle ph rest } :=
    inv_inSock h hmem hpen hexc (flow_congr hflow hview) ((listening_of_flowView hview).trans hlis)
  cases ph with
  | idle => exact absurd rfl hph
  | inHandler idx | finishing => exact sound_ok hin

theorem proceed_scan (hpass : t.pass = .scan (handle :: rest)) : Sound (t.proceed now) := by
  rw [Table.proceed, hpass]
  refine sound_find fun s hmem => ?_
  have hpen : t.pass.pending = handle :: rest := by rw [hpass]; rfl
  have hord := h.inOrder
  obtain ⟨-, hnd, hfr⟩ := inv_rest h hpen
  rw [hpass] at hord
  split
  · next hcld =>
    refine sound_ok (inv_set h hmem ?_ ⟨.inr ⟨hcld, mem_cons_self⟩, trivial⟩
      (fun e he _ => ⟨inOrder_mono (hord e he) id, trivial⟩))
    rw [hpen]
    exact List.Sublist.refl _
  next hopen =>
  refine sound_ok (inv_pass h hnd hfr (fun e he => ⟨?_, trivial⟩))
  obtain hflow | ⟨hcld, hin⟩ := hord e he
  · exact .inl hflow
  obtain heq | hin := mem_cons.mp hin
  · rw [inj_on_of_nodup_map h.nodup he hmem heq] at hcld
    exact absurd hcld hopen
  · exact .inr ⟨hcld, hin⟩

theorem proceed_freeing (hpass : t.pass = .freeing handle rest) : Sound (t.proceed now) := by
  rw [Table.proceed, hpass]
  have hpen : t.pass.pending = handle :: rest := by rw [hpass]; rfl
  have hord := h.inOrder
  obtain ⟨-, hnd, hfr⟩ := inv_rest h hpen
  rw [hpass] at hord
  have hsub : (t.socks.filter (fun e => e.1 != handle)).Sublist t.socks := filter_sublist
  refine sound_ok ⟨h.nodup.sublist (hsub.map Prod.fst), fun e he => h.fresh e (hsub.subset he),
    hnd, hfr, fun e he => ?_, fun _ _ => trivial⟩
  obtain ⟨he, hne⟩ := mem_filter.mp he
  refine inOrder_mono (hord e he) (fun hin => ?_)
  exact (mem_cons.mp hin).resolve_left (by simpa using hne)

/-- A loop over all sockets of the list begins. -/
theorem inv_loop (hpen : pass.pending = t.socks.map Prod.fst)
    (hall : ∀ e ∈ t.socks, InOrder pass e ∧ Connected pass e) : Inv { t with pass := pass } := by
  refine inv_pass h (hpen ▸ h.nodup) (fun handle hhan => ?_) hall
  rw [hpen] at hhan
  obtain ⟨e, he, rfl⟩ := mem_map.mp hhan
  exact h.fresh e he

theorem proceed_sound : Sound (t.proceed now) := by
  have hord := h.inOrder
  cases hpass : t.pass with
  | idle =>
    rw [Table.proceed, hpass]
    exact sound_ok h
  | visit rest =>
    cases rest with
    | nil =>
      rw [Table.proceed, hpass]
      refine sound_ok (inv_loop h rfl (fun e he => ⟨inOrder_mono (hord e he) (fun _ => ?_), trivial⟩))
      exact mem_map_of_mem he
    | cons handle rest => exact proceed_visit h hpass
  | inSock handle ph rest =>
    rw [Table.proceed, hpass]
    exact sound_ok h
  | scan rest =>
    cases rest with
    | nil =>
      rw [Table.proceed, hpass]
      rw [hpass] at hord
      refine sound_ok (inv_pass h nodup_nil nofun
        (fun e he => ⟨inOrder_mono (hord e he) (fun hin => ?_), trivial⟩))
      exact absurd hin not_mem_nil
    | cons handle rest => exact proceed_scan h hpass
  | freeing handle rest => exact proceed_freeing h hpass

/-- The socket whose handler is running. -/
theorem inSock_current (hpass : t.pass = .inSock handle ph rest) (hmem : (handle, s) ∈ t.socks) :
    Flow s ∧ s.state.listening = false := by
  have hconn := h.connected _ hmem
  rw [hpass] at hconn
  refine ⟨flow_of_next h hmem ?_, hconn rfl⟩
  rw [hpass]
  exact fun hnot => hnot mem_cons_self

theorem handlerReturns_sound : Sound (step t (.handlerReturns nc)) := by
  simp only [step]
  split
  · next handle idx rest hpass =>
    refine sound_find fun s hmem => ?_
    refine sound_bind blameless_handlerReturned (fun r hr => sound_ok ?_)
    obtain ⟨hflow, hlis⟩ := inSock_current h hpass hmem
    have hview := flowView_handlerReturned hr
    refine inv_inSock h hmem (by rw [hpass]; rfl) (fun other => ?_)
      (flow_congr hflow hview) ((listening_of_flowView hview).trans hlis)
    rw [hpass]
    exact Iff.rfl
  · exact sound_ok h

theorem finish_sound : Sound (step t (.finish now oc ao)) := by
  simp only [step]
  split
  · next handle rest hpass =>
    refine sound_find fun s hmem => ?_
    obtain ⟨hflow, hlis⟩ := inSock_current h hpass hmem
    obtain ⟨hcnt, hdat, hok⟩ := @flow_processSockFinish s now
      (t.pendingBind handle s.mdpSock) oc ao hflow hlis
    refine sound_bind ⟨hcnt, hdat⟩ (fun f hf => ?_)
    split
    · exact ⟨⟨by simp, by simp⟩, nofun⟩
    refine sound_ok (inv_visited h hmem (by rw [hpass]; rfl) (fun other => ?_) (.inl (hok f hf)))
    rw [hpass]
    exact Iff.rfl
  · exact sound_ok h

theorem step_sound (hlong : ¬ ShortConnect t a) : Sound (step t a) := by
  cases a with
  | call c =>
    simp only [step]
    split
    · exact sound_ok h
    · exact sound_ok h
    · exact call_sound h
  | packet now msk header pl =>
    simp only [step]
    split
    · next hidle => exact sound_ok (inv_processPacket h hidle hlong)
    · exact sound_ok h
  | processing =>
    simp only [step]
    split
    · next hidle =>
      exact sound_ok (inv_loop h rfl (fun e he => ⟨.inl (flow_of_idle h hidle he), trivial⟩))
    · exact sound_ok h
  | proceed now => exact proceed_sound h
  | handlerReturns nc => exact handlerReturns_sound h
  | finish now oc ao => exact finish_sound h

end Invariant

/-- No step of a run is a connection packet without a number to acknowledge. -/
def NoShortConnect : Table → List Action → Prop
  | _, [] => True
  | t, a :: rest => ¬ ShortConnect t a ∧ ∀ t', step t a = .ok t' → NoShortConnect t' rest

/-- Flow control stays in order along every run without short connection packets. -/
theorem run_sound (h : Inv t) (hlong : NoShortConnect t acts) : Sound (run t acts) := by
  induction acts generalizing t with
  | nil => exact sound_ok h
  | cons a rest ih =>
    have hstep := step_sound h hlong.1
    exact sound_bind hstep.1 (fun t' ht' => ih (hstep.2 t' ht') (hlong.2 t' ht'))

/-- In every run without a connection packet that ends before the number it
acknowledges, the two assertions of `process_sock` hold: whenever the end of
`process_sock` is due on a socket, its packet count is the number of its packets
and it offers space exactly when there is some. -/
theorem process_sock_assertions_hold (actions : List Action)
    (hlong : NoShortConnect Table.start actions) :
    run Table.start actions ≠ .error .txCount ∧ run Table.start actions ≠ .error .dataout ∧
    ∀ t handle rest s, run Table.start actions = .ok t → t.pass = .inSock handle .finishing rest →
      (handle, s) ∈ t.socks →
      s.tx.packetCount = s.tx.packets.length ∧
      (s.state.dataout = true ↔
        s.tx.packetCount < maxWindowSize ∧ s.state.closed = false ∧ s.state.shutdownLocal = false) := by
  obtain ⟨⟨hcnt, hdat⟩, hinv⟩ := run_sound inv_start hlong
  refine ⟨hcnt, hdat, fun t handle rest s hrun hpass hmem => ?_⟩
  obtain ⟨hflow, hlis⟩ := inSock_current (hinv t hrun) hpass hmem
  refine ⟨hflow.counted, ?_⟩
  rw [hflow.dataout hlis, room]
  simp [and_assoc]

/-- A peer connects to a listening port with the packet `payload`, and
`msp_processing` runs up to the end of `process_sock` on the new socket. -/
def acceptRun (payload : List UInt8) : List Action :=
  [.call (.listen 0 0 ⟨sidAny, 5⟩ true), .packet 1 0 ⟨⟨7, 5⟩, ⟨9, 6⟩, false, false⟩ payload,
    .processing, .proceed 2, .handlerReturns 1, .finish 2 (fun _ => .sent) .sent]

theorem noShortConnect_acceptRun (h : 3 ≤ pl.length) :
    NoShortConnect Table.start (acceptRun pl) :=
  ⟨id, fun _ _ => ⟨fun hsht => absurd hsht.2.2.1 (by omega), fun _ _ => ⟨id, fun _ _ =>
    ⟨id, fun _ _ => ⟨id, fun _ _ => ⟨id, fun _ _ => trivial⟩⟩⟩⟩⟩⟩

theorem process_sock_assertions_hold_first_packet :
    NoShortConnect Table.start (acceptRun [flagFirst, 0xff, 0xff, 0, 0, 42]) ∧
      run Table.start (acceptRun [flagFirst, 0xff, 0xff, 0, 0, 42]) ≠ .error .dataout ∧
      ∃ t, run Table.start (acceptRun [flagFirst, 0xff, 0xff, 0, 0, 42]) = .ok t :=
  ⟨noShortConnect_acceptRun (by decide),
    (process_sock_assertions_hold _ (noShortConnect_acceptRun (by decide))).2.1, _, rfl⟩

/-- A connection packet of one byte makes a socket that offers no space for data,
and the next `process_sock` on it aborts. -/
theorem short_connect_aborts : run Table.start (acceptRun [flagFirst]) = .error .dataout := by
  decide

end MspTable
