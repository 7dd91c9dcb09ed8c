import ServalDna.MspReceiver
import ServalDna.MspSender

/-!
# Delivery over an MSP connection

Both ends together. Every step of one end, whatever the network hands over and
whatever the handlers consume, keeps the sending end, the receiving end and the
datagrams between them in step; so what is consumed is always the beginning of
what was sent.
-/
namespace MspDelivery

open ByteFlags DataFormats SerialNumber MspWindow MspSocket MspNumbering MspEndpoint MspReceiver MspSender List

/-! ## Acknowledgements on the network -/

/-- A datagram acknowledges packets that its sender has delivered. -/
def Acknowledges (count : Nat) (d : Datagram) : Prop :=
  ∀ flags low high rest, d.bytes = flags :: low :: high :: rest → hasFlag flags flagAck = true →
    ∃ k ≤ count, d.ack = some k ∧ readUint16 [low, high] = serial ((k : Int) - 1)

theorem acknowledges_mono {cnt count' : Nat} (hle : cnt ≤ count') (h : Acknowledges cnt d) :
    Acknowledges count' d := by
  intro flags low high rest hbs hack
  obtain ⟨k, hk, hrest⟩ := h flags low high rest hbs hack
  exact ⟨k, le_trans hk hle, hrest⟩

@[simp] theorem datagram_bytes (e : Endpoint) : (e.datagram bytes).bytes = bytes := by
  unfold Endpoint.datagram
  split <;> rfl

theorem datagram_ack (e : Endpoint) (b : UInt8) (rest : List UInt8) :
    (e.datagram (flags :: a :: b :: rest)).ack =
      if hasFlag flags flagAck then some e.delivered.length else none := by
  match rest with
  | [] => rfl
  | [_] => rfl
  | _ :: _ :: _ => rfl

theorem acknowledges_preamble {e : Endpoint}
    (hseq : e.sock.rx.nextSeq = serial e.delivered.length) (flags : UInt8) (rest : List UInt8) :
    Acknowledges e.delivered.length (e.datagram (preamble e.sock flags ++ rest)) := by
  intro flags' low high rest' hbs hack
  rw [datagram_bytes, preamble_eq] at hbs
  cases hbs
  refine ⟨e.delivered.length, le_rfl, ?_, ?_⟩
  · exact (datagram_ack e _ rest).trans (if_pos hack)
  · exact (readUint16_writeUint16 _).trans (by rw [hseq, serial_sub_one])

theorem acknowledges_short {count : Nat} (h : d.bytes.length < 3) : Acknowledges count d := by
  intro flags low high rest hbs
  rw [hbs] at h
  simp only [length_cons] at h
  omega

/-! ## One end and its peer -/

/-- What `me` has sent is in order, and so is what it has received from `peer`. -/
structure Half (me peer : Endpoint) : Prop where
  sender : Sender me.outgoing
  acks : ∀ d ∈ me.wire, Acknowledges me.delivered.length d
  receiver : Receiver peer.outgoing me.incoming
  behind : me.queued.length ≤ me.sock.tx.packets.length + peer.delivered.length

/-- A step of `me` seen from both ends. -/
structure Moves (me peer me' : Endpoint) : Prop where
  half : Half me' peer
  sent : Extends me.outgoing me'.outgoing
  delivered : me.delivered <+: me'.delivered
  shutdown : me'.sock.state.shutdownRemote = true →
    me.sock.state.shutdownRemote = true ∨ peer.shutdownAt = some me'.delivered.length

theorem extends_refl : Extends o o :=
  ⟨prefix_refl _, fun _ hd => hd, fun _ _ _ _ => Iff.rfl, fun _ hn => hn⟩

theorem moves_refl (h : Half me peer) : Moves me peer me :=
  ⟨h, extends_refl, prefix_refl _, .inl⟩

/-- Few numbers are ahead of those delivered. -/
theorem near_of_half (h : Half peer me) : Near peer.outgoing me.incoming := by
  have hroom := h.sender.room
  have hbeh := h.behind
  simp only [Near, Endpoint.outgoing, Endpoint.incoming] at hroom ⊢
  omega

theorem half_peer (h : Half peer me) (hmvs : Moves me peer me') : Half peer me' := by
  have hlen := hmvs.delivered.length_le
  have hbeh := h.behind
  exact ⟨h.sender, h.acks, receiver_extends h.receiver hmvs.sent, by omega⟩

/-- A step that leaves alone what was received. -/
theorem moves_outgoing (h : Half me peer) (hinc : me'.incoming = me.incoming)
    (hsnd : Sender me'.outgoing) (hext : Extends me.outgoing me'.outgoing)
    (hacks : ∀ d ∈ me'.wire, Acknowledges me'.delivered.length d)
    (hbeh : me'.queued.length ≤ me'.sock.tx.packets.length + peer.delivered.length) :
    Moves me peer me' := by
  refine ⟨⟨hsnd, hacks, hinc ▸ h.receiver, hbeh⟩, hext, ?_, fun hrem => .inl ?_⟩
  · rw [show me'.delivered = me.delivered from congrArg Incoming.delivered hinc]
  · exact (congrArg Incoming.shutdownRemote hinc).symm.trans hrem

/-- A step that leaves alone what was sent. -/
theorem moves_incoming (h : Half me peer) (hout : me'.outgoing = me.outgoing)
    (hrcv : Receiver peer.outgoing me'.incoming) (hdel : me.delivered <+: me'.delivered)
    (hshut : me'.sock.state.shutdownRemote = true →
      me.sock.state.shutdownRemote = true ∨ peer.shutdownAt = some me'.delivered.length) :
    Moves me peer me' := by
  have hwire : me'.wire = me.wire := congrArg Outgoing.wire hout
  have hqd : me'.queued = me.queued := congrArg Outgoing.queued hout
  have htx : me'.sock.tx = me.sock.tx := congrArg Outgoing.tx hout
  refine ⟨⟨hout ▸ h.sender, fun d hd => ?_, hrcv, ?_⟩, hout ▸ extends_refl, hdel, hshut⟩
  · exact acknowledges_mono hdel.length_le (h.acks d (hwire ▸ hd))
  rw [hqd, htx]
  exact h.behind

/-! ## The steps -/

section Moving

variable (h : Half me peer)

include h

theorem moves_queue (hinc : me'.incoming = me.incoming) (hout : me'.outgoing =
      queue me.outgoing flags pl sl accepted sat)
    (hloc : me.outgoing.shutdownLocal = false)
    (hat : sat = none ∨ sat = some me.queued.length)
    (hsnd : Sender (queue me.outgoing flags pl sl accepted sat)) :
    Moves me peer me' := by
  have hwire : me'.wire = me.wire := congrArg Outgoing.wire hout
  have hdel : me'.delivered = me.delivered := congrArg Incoming.delivered hinc
  refine moves_outgoing h hinc (hout ▸ hsnd) ?_ ?_ ?_
  · rw [hout]
    exact extends_queue h.sender hloc hat
  · rw [hwire, hdel]
    exact h.acks
  have hbeh := @behind_queue me.outgoing h.sender flags pl sl accepted sat
    _ h.behind
  rwa [← hout] at hbeh

theorem moves_send (hstep : me.send pl = .ok me') : Moves me peer me' := by
  rw [Endpoint.send] at hstep
  cases hsend : mspSend pl me.sock with
  | error a =>
    rw [hsend] at hstep
    cases hstep
  | ok r =>
    obtain ⟨r, s⟩ := r
    rw [hsend] at hstep
    obtain ⟨rfl, rfl⟩ | ⟨-, hloc, -, hcnt, -, rfl, rfl⟩ := mspSend_cases hsend
    · cases hstep
      exact moves_refl h
    cases hstep
    have hnone : me.shutdownAt = none := shutdownAt_none h.sender hloc
    have hlen : me.sock.tx.packetCount = me.sock.tx.packets.length := h.sender.counted
    refine moves_queue h rfl rfl hloc (.inl hnone)
      (sender_queue h.sender hloc (.inl hnone) ?_ (.inl rfl) (.inl ?_))
    · rw [hnone]
      rfl
    simp only [Endpoint.outgoing, maxWindowSize] at hcnt ⊢
    omega

theorem moves_shutdown (hstep : me.shutdown = .ok me') : Moves me peer me' := by
  rw [Endpoint.shutdown] at hstep
  cases hshut : mspShutdown me.sock with
  | error a =>
    rw [hshut] at hstep
    cases hstep
  | ok r =>
    obtain ⟨done, s⟩ := r
    rw [hshut] at hstep
    obtain ⟨rfl, rfl⟩ | ⟨rfl, -, hloc, ⟨init, tail, hpk, hsent, rfl⟩ | ⟨-, rfl⟩⟩ :=
      mspShutdown_cases hshut
    · cases hstep
      exact moves_refl h
    · have hinc : me'.incoming = me.incoming := by
        cases hstep
        rfl
      have hout : me'.outgoing = flagLast me.outgoing init tail := by
        cases hstep
        simp only [Endpoint.outgoing, Endpoint.queuedAfter, ↓reduceIte]
        rfl
      have hwire : me'.wire = me.wire := congrArg Outgoing.wire hout
      have hdel : me'.delivered = me.delivered := congrArg Incoming.delivered hinc
      refine moves_outgoing h hinc ?_ ?_ ?_ ?_
      · rw [hout]
        exact sender_flagLast h.sender hloc hpk hsent
      · rw [hout]
        exact extends_flagLast h.sender hloc hpk hsent
      · rw [hwire, hdel]
        exact h.acks
      have hbeh := h.behind
      rw [hpk] at hbeh
      rw [show me'.queued = me.queued from congrArg Outgoing.queued hout,
        show me'.sock.tx = _ from congrArg Outgoing.tx hout]
      simpa [flagLast] using hbeh
    obtain ⟨_, _, _, _, _, _, htx⟩ := @tx_queue me.outgoing h.sender flagShutdown [] true
      me.accepted (some me.queued.length)
    have hnext : (addPacket me.sock.tx me.sock.tx.nextSeq flagShutdown []).2.nextSeq + 1 =
        serial (me.queued.length + 1 : Nat) := congrArg Window.nextSeq htx
    have hseq : (addPacket me.sock.tx me.sock.tx.nextSeq flagShutdown []).2.nextSeq + 1 ≠
        me.sock.tx.nextSeq := by
      rw [hnext, show me.sock.tx.nextSeq = _ from h.sender.nextSeq, Ne, serial_eq_iff]
      simp only [Endpoint.outgoing]
      omega
    have hinc : me'.incoming = me.incoming := by
      cases hstep
      rfl
    have hout : me'.outgoing =
        queue me.outgoing flagShutdown [] true me.accepted (some me.queued.length) := by
      cases hstep
      simp only [Endpoint.outgoing, Endpoint.queuedAfter, if_neg hseq, length_append,
        length_singleton, Nat.add_sub_cancel]
      rfl
    exact moves_queue h hinc hout hloc (.inr rfl)
      (sender_queue h.sender hloc (.inr ⟨rfl, rfl⟩) (packetFlags_same _).symm
        (.inr ⟨rfl, rfl, rfl⟩) (.inr rfl))

omit h in
theorem mspStop_short (s : Sock) : ∀ bytes ∈ (mspStop s).2, bytes.length < 3 := by
  rw [mspStop]
  split
  · simp
  · split <;> simp

omit h in
theorem receivePacket_short (now : Int) (flags : UInt8) (bytes : List UInt8) (s : Sock) :
    ∀ reply ∈ (receivePacket now flags bytes s).2, reply.length < 3 := by
  simp only [receivePacket]
  split
  · exact mspStop_short _
  · simp

omit h in
/-- Short replies of `me` and packets of `me` that were acknowledged. -/
theorem bare_replies {replies : List (List UInt8)} (hsht : ∀ bytes ∈ replies, bytes.length < 3) :
    ∀ d ∈ replies.map me.datagram, Bare d ∧ ∀ count, Acknowledges count d := by
  intro d hd
  obtain ⟨bytes, hbs, rfl⟩ := mem_map.mp hd
  have hlt := hsht bytes hbs
  exact ⟨datagram_bare me (by omega), fun count => acknowledges_short (by simpa using hlt)⟩

theorem moves_stop : Moves me peer me.stop := by
  obtain ⟨htx, hrx, hloc, hrem⟩ := mspStop_windows me.sock
  have hrep := @bare_replies me _ (mspStop_short me.sock)
  have hinc : me.stop.incoming = me.incoming := by
    simp [Endpoint.incoming, Endpoint.stop, Endpoint.sends, hrx, hrem]
  have hout : me.stop.outgoing =
      { me.outgoing with wire := me.wire ++ (mspStop me.sock).2.map me.datagram } := by
    simp [Endpoint.outgoing, Endpoint.stop, Endpoint.sends, htx, hloc]
  obtain ⟨hsnd, hext⟩ := sender_bare h.sender (fun d hd => (hrep d hd).1)
  refine moves_outgoing h hinc (hout ▸ hsnd) (hout ▸ hext) ?_ ?_
  · exact forall_mem_append.mpr ⟨h.acks, fun d hd => (hrep d hd).2 _⟩
  rw [show me.stop.sock.tx = me.sock.tx from htx]
  exact h.behind

theorem moves_bound (header : MspTable.Header) :
    Moves me peer { me with sock := MspTable.bindAnswer header me.sock } :=
  moves_outgoing h rfl h.sender extends_refl h.acks h.behind

omit h in
theorem rxLoop_tx (s : Sock) (idx : Nat) : (rxLoop s idx).1.tx = s.tx ∧
      (rxLoop s idx).1.state.shutdownLocal = s.state.shutdownLocal := by
  rw [rxLoop]
  split
  · exact ⟨rfl, rfl⟩
  · split <;> exact ⟨rfl, rfl⟩

theorem moves_start (hpeer : Half peer me) : Moves me peer (me.start now) := by
  obtain ⟨hrcv, hdel, hshut⟩ := receiver_start h.receiver (near_of_half hpeer) now
  refine moves_incoming h ?_ hrcv (hdel ▸ prefix_refl _)
    (fun hrem => by rw [hdel]; exact hshut hrem)
  rw [Endpoint.start]
  split
  · obtain hst | hst | ⟨-, hst⟩ := MspTable.processSockStart_cases now me.sock
    · rw [hst]
      rfl
    · rw [hst]
      rfl
    obtain ⟨htx, hloc⟩ := rxLoop_tx me.sock 0
    simp [Endpoint.outgoing, hst, htx, hloc]
  · rfl

omit h in
theorem handlerReturns_outgoing (hstep : me.handlerReturns nc = .ok me') :
    me'.outgoing = me.outgoing := by
  rw [Endpoint.handlerReturns] at hstep
  split at hstep
  · next idx _ =>
    split at hstep
    · cases hstep
      rfl
    next p hp =>
    cases hret : handlerReturned nc idx me.sock with
    | error a =>
      rw [hret] at hstep
      cases hstep
    | ok r =>
      obtain ⟨s', ph⟩ := r
      rw [hret] at hstep
      cases hstep
      have hkept : s'.tx = me.sock.tx ∧ s'.state.shutdownLocal = me.sock.state.shutdownLocal := by
        obtain ⟨-, rfl, -⟩ | hloop | ⟨-, hloop⟩ := handlerReturned_cases hp hret
        · exact ⟨rfl, rfl⟩
        · have hwin := rxLoop_tx (advanced me.sock idx p nc) idx
          rw [← hloop] at hwin
          exact hwin
        have hwin := rxLoop_tx (nextExpected (advanced me.sock idx p nc)) (idx + 1)
        rw [← hloop] at hwin
        exact hwin
      simp [Endpoint.outgoing, hkept.1, hkept.2]
  cases hstep
  rfl

theorem moves_handlerReturns {nc : Nat} (hpeer : Half peer me)
    (hstep : me.handlerReturns nc = .ok me') : Moves me peer me' := by
  obtain ⟨hrcv, hdel, hshut⟩ :=
    receiver_handlerReturns h.receiver (near_of_half hpeer) hstep
  exact moves_incoming h (handlerReturns_outgoing hstep) hrcv hdel hshut

/-- What goes out at the end of `process_sock`: copies of packets, and at most an
acknowledgement without a packet. -/
theorem finish_datagrams (hcons : Consecutive base l) (htot : base + l.length = me.queued.length)
    (hsht : l.length ≤ 6) (hqd : ∀ e ∈ l, Queued me.outgoing e.1 e.2)
    (htx : Transmitted now base l l' sentL)
    (hacks : acks = [] ∨ acks = [preamble me.sock 0]) :
    ∀ d ∈ ((sentL.map Prod.snd).map (packetBytes me.sock) ++ acks).map me.datagram,
      ((∃ e ∈ sentL, Copies e d) ∨ Bare d) ∧ Acknowledges me.delivered.length d := by
  intro d hd
  obtain ⟨bytes, hbs, rfl⟩ := mem_map.mp hd
  obtain hbs | hbs := mem_append.mp hbs
  · rw [map_map] at hbs
    obtain ⟨⟨n, p⟩, he, rfl⟩ := mem_map.mp hbs
    have hin := htx.sent _ he
    have hbd := consecutive_mem hcons hin
    refine ⟨.inl ⟨_, he, datagram_copies h.sender (hqd _ hin) ?_ ?_⟩, ?_⟩
    · omega
    · omega
    · exact acknowledges_preamble h.receiver.nextSeq p.flags _
  obtain rfl | rfl := hacks
  · cases hbs
  obtain rfl := mem_singleton.mp hbs
  refine ⟨.inr (datagram_bare me (by simp [preamble_eq])), ?_⟩
  have hack := acknowledges_preamble h.receiver.nextSeq 0 []
  rwa [append_nil] at hack

theorem moves_finish (hstep : me.finish now pb oc ao = .ok me') :
    Moves me peer me' := by
  rw [Endpoint.finish] at hstep
  split at hstep
  · cases hfin : processSockFinish now pb oc ao me.sock with
    | error a =>
      rw [hfin] at hstep
      cases hstep
    | ok f =>
      rw [hfin] at hstep
      by_cases hfreed : f.freed
      · simp [hfreed, bind, Except.bind] at hstep
      simp only [hfreed, bind, Except.bind, pure, Except.pure, Bool.false_eq_true,
        ↓reduceIte, Except.ok.injEq] at hstep
      subst hstep
      obtain ⟨htx, hrx, hloc, hrem, acks, hacks, hsent⟩ := processSockFinish_cases hfin
      obtain ⟨base, l, hpk, hcons, htot, hqd⟩ := h.sender.window
      have hroom := h.sender.room
      have hpk' : me.sock.tx.packets = l.map Prod.snd := hpk
      rw [hpk, length_map] at hroom
      rw [hpk'] at htx hsent
      obtain ⟨l', sentL, hl', hsentL, htra⟩ :=
        @transmit_numbered base l now pb oc hcons me.sock
      rw [hl'] at htx
      rw [hsentL] at hsent
      have hnew := finish_datagrams h hcons htot (by omega) hqd htra hacks
      rw [← hsent] at hnew
      have hout : Endpoint.outgoing { me.sends f.sent with sock := f.sock, phase := .idle } =
          transmits me.outgoing l' (f.sent.map me.datagram) := by
        simp [Endpoint.outgoing, Endpoint.sends, htx, hloc, transmits]
      refine ⟨⟨?_, ?_, ⟨?_, h.receiver.delivered, ?_, ?_, ?_⟩, ?_⟩, ?_, prefix_refl _, ?_⟩
      · rw [hout]
        exact sender_transmits h.sender hpk htot hqd hcons htra (fun d hd => (hnew d hd).1)
      · exact forall_mem_append.mpr ⟨h.acks, fun d hd => (hnew d hd).2⟩
      · exact (congrArg Window.nextSeq hrx).trans h.receiver.nextSeq
      · obtain ⟨lr, part, hlr, hrest⟩ := h.receiver.window
        exact ⟨lr, part, (congrArg Window.packets hrx).trans hlr, hrest⟩
      · exact fun idx hph => by cases hph
      · exact fun hset => h.receiver.shutdown (hrem.symm.trans hset)
      · have hbeh := h.behind
        rw [hpk', length_map] at hbeh
        simp only [Endpoint.sends, htx, length_map, htra.length]
        exact hbeh
      · rw [hout]
        exact extends_transmits
      · exact fun hset => .inl (hrem.symm.trans hset)
  · cases hstep
    exact moves_refl h

/-- What an acknowledgement in a datagram of `peer` does to the tx window of `me`. -/
theorem sender_processed (hpeer : Half peer me) (hd : d ∈ peer.wire) (hint : InTime me peer d)
    (hproc : Processed d.bytes me.sock s) :
    Sender { me.outgoing with tx := s.tx } ∧
      me.queued.length ≤ s.tx.packets.length + peer.delivered.length := by
  obtain htx | ⟨flags, low, high, rest, hbs, hack, htx⟩ := hproc.1
  · rw [htx]
    exact ⟨h.sender, h.behind⟩
  obtain ⟨k, hk, hdack, hread⟩ := hpeer.acks d hd flags low high rest hbs hack
  have hle : peer.delivered.length ≤ me.queued.length := hpeer.receiver.delivered.length_le
  obtain ⟨hsnd, hbeh⟩ := sender_acknowledged h.sender (le_trans hk hle) (hint.2 k hdack)
  rw [htx, hread]
  exact ⟨hsnd, hbeh _ hk h.behind⟩

theorem moves_receive (hpeer : Half peer me) (hd : d ∈ peer.wire) (hidle : me.phase = .idle)
    (hint : InTime me peer d) : Moves me peer (me.receive now d) := by
  obtain ⟨hrec, hdel, hrem⟩ := receiver_receive h.receiver (near_of_half hpeer) hidle
    (hpeer.sender.wire d hd) hint.1 now
  have hshut : (me.receive now d).sock.state.shutdownRemote = true →
      me.sock.state.shutdownRemote = true ∨ peer.shutdownAt = some (me.receive now d).delivered.length :=
    fun hset => .inl (hrem.symm.trans hset)
  cases hbs : d.bytes with
  | nil =>
    have hsame : me.receive now d = me := by
      unfold Endpoint.receive
      rw [hbs]
    rw [hsame]
    exact moves_refl h
  | cons flags rest =>
    have hproc := processed_receivePacket now flags d.bytes me.sock
    obtain ⟨hsnd, hbeh⟩ := sender_processed h hpeer hd hint hproc
    have hrep := @bare_replies me _ (receivePacket_short now flags d.bytes me.sock)
    obtain ⟨hsnd', hext⟩ := sender_bare hsnd (fun d' hd' => (hrep d' hd').1)
    have hrcv : me.receive now d = { me.sends (receivePacket now flags d.bytes me.sock).2 with
        sock := (receivePacket now flags d.bytes me.sock).1 } := by
      unfold Endpoint.receive
      rw [hbs]
    have hout : (me.receive now d).outgoing = { me.outgoing with
        tx := (receivePacket now flags d.bytes me.sock).1.tx
        wire := me.wire ++ (receivePacket now flags d.bytes me.sock).2.map me.datagram } := by
      rw [hrcv]
      simp [Endpoint.outgoing, Endpoint.sends, hproc.2.2.1]
    refine ⟨⟨hout ▸ hsnd', ?_, hrec, ?_⟩, ?_, hdel ▸ prefix_refl _, hshut⟩
    · rw [hdel, hrcv]
      exact forall_mem_append.mpr ⟨h.acks, fun d hd => (hrep d hd).2 _⟩
    · rw [hrcv]
      exact hbeh
    rw [hout]
    exact { hext with }

/-- Every action of an end keeps its half in step. -/
theorem moves_act (hpeer : Half peer me) (hstep : act me peer a = .ok me') : Moves me peer me' := by
  cases a with
  | send pl => exact moves_send h hstep
  | shutdown => exact moves_shutdown h hstep
  | stop =>
    cases hstep
    exact moves_stop h
  | bound header =>
    cases hstep
    exact moves_bound h header
  | start now =>
    cases hstep
    exact moves_start h hpeer
  | handlerReturns nc => exact moves_handlerReturns h hpeer hstep
  | finish now pb oc ao => exact moves_finish h hstep
  | receive now idx =>
    simp only [act] at hstep
    split at hstep
    · cases hstep
      exact moves_refl h
    next d hd =>
    split at hstep
    · next hgrd =>
      cases hstep
      exact moves_receive h hpeer (mem_of_getElem? hd) hgrd.1 hgrd.2
    cases hstep
    exact moves_refl h

end Moving

/-! ## Whole runs -/

def Inv (sys : System) : Prop := ∀ side : Side, Half (sys side) (sys side.other)

/-- A socket at the beginning of a connection: made by `msp_connect`, or by
`process_packet` for the first packet to a listening port. -/
inductive Opened : Sock → Prop where
  | connected (now : Int) (mdpSock : Nat) (localAddr remote : SockAddr) (s : Sock)
      (h : mspConnect now remote { mspSocket now mdpSock with localAddr := localAddr } = .ok s) :
      Opened s
  | accepted (now : Int) (header : MspTable.Header) (listening : Sock) :
      Opened (MspTable.acceptSock now header listening)

theorem opened_fresh (h : Opened s) : s.tx = .start ∧ s.rx = .start ∧ s.state.shutdownLocal = false ∧
      s.state.shutdownRemote = false := by
  cases h with
  | connected now msk la rem _ h =>
    cases h
    exact ⟨rfl, rfl, rfl, rfl⟩
  | accepted now header lis => exact ⟨rfl, rfl, rfl, rfl⟩

theorem half_opened (h : Opened s) : Half (.opened s) (.opened s') := by
  obtain ⟨htx, hrx, hloc, hrem⟩ := opened_fresh h
  have hnext : serial ((0 : Nat) : Int) = 0 := by decide
  have hout : (Endpoint.opened s).outgoing = ⟨.start, false, [], [], none, []⟩ := by
    simp [Endpoint.outgoing, Endpoint.opened, htx, hloc]
  have hinc : (Endpoint.opened s).incoming = ⟨.start, false, .idle, [], []⟩ := by
    simp [Endpoint.incoming, Endpoint.opened, hrx, hrem]
  refine ⟨?_, forall_mem_nil _, ?_, Nat.zero_le _⟩
  · rw [hout]
    exact ⟨hnext.symm, ⟨0, [], rfl, trivial, rfl, by simp⟩, counted_start, .inl (Nat.zero_le _),
      .inl rfl, fun n hn => (by cases hn), forall_mem_nil _, forall_mem_nil _⟩
  rw [hinc]
  exact ⟨hnext.symm, nil_prefix, ⟨[], [], rfl, received_nil _ _,
    ⟨by simp, by simp, by simp, fun _ => rfl⟩, rfl⟩,
    fun idx hph => (by cases hph), fun hset => (by cases hset)⟩

def opening (left right : Sock) : System
  | .left => .opened left
  | .right => .opened right

theorem inv_opening (hleft : Opened left) (hrt : Opened right) : Inv (opening left right) := by
  intro side
  cases side with
  | left => exact half_opened hleft
  | right => exact half_opened hrt

/-- A step of one end keeps both ends in step. -/
theorem inv_step (h : Inv sys) (hstep : step sys side a = .ok sys') :
    Inv sys' ∧ sys' side.other = sys side.other ∧ Moves (sys side) (sys side.other) (sys' side) := by
  rw [step] at hstep
  cases hact : act (sys side) (sys side.other) a with
  | error e =>
    rw [hact] at hstep
    cases hstep
  | ok me' =>
    rw [hact] at hstep
    cases hstep
    have hpeer : Half (sys side.other) (sys side) := by
      have hoth := h side.other
      rwa [other_other] at hoth
    have hmvs := moves_act (h side) hpeer hact
    have hsame : Function.update sys side me' side.other = sys side.other :=
      Function.update_of_ne (other_ne side) _ _
    refine ⟨fun side' => ?_, hsame, by rwa [Function.update_self]⟩
    by_cases hside : side' = side
    · subst hside
      rw [Function.update_self, hsame]
      exact hmvs.half
    have hside' : side' = side.other := by
      cases side' <;> cases side <;> simp_all [Side.other]
    subst hside'
    rw [hsame, other_other, Function.update_self]
    exact half_peer hpeer hmvs

/-- Both ends are in step along every run. -/
theorem inv_run (h : Inv sys) (hrun : run sys acts = .ok sys') : Inv sys' := by
  induction acts generalizing sys with
  | nil =>
    cases hrun
    exact h
  | cons first rest ih =>
    obtain ⟨side, a⟩ := first
    rw [run] at hrun
    cases hstep : step sys side a with
    | error e =>
      rw [hstep] at hrun
      cases hrun
    | ok mid =>
      rw [hstep] at hrun
      exact ih (inv_step h hstep).1 hrun

/-! ## What is delivered -/

theorem accepted_flatten (h : Sender o) : o.queued.flatten = o.accepted.flatten := by
  obtain heq | ⟨-, heq⟩ := h.accepted
  · rw [heq]
  rw [heq]
  simp

/-- The bytes consumed are those of the payloads delivered and a part of the next. -/
theorem receiver_consumed (h : Receiver o i) : ∃ part, i.consumed = i.delivered.flatten ++ part ∧
      part <+: o.queued.getD i.delivered.length [] ∧ i.consumed <+: o.queued.flatten := by
  obtain ⟨l, part, -, -, hhl, hcsm⟩ := h.window
  refine ⟨part, hcsm, ?_⟩
  by_cases hin : ∃ e ∈ l, e.1 = i.delivered.length
  · obtain ⟨e, he, hnext⟩ := hin
    have hpart := hhl.current e he hnext
    have hqd := (hhl.carries e he).queued
    rw [hnext] at hqd
    have hbeg : part <+: e.2.payload := hpart ▸ List.take_prefix _ _
    obtain ⟨after, haft⟩ := prefix_snoc h.delivered hqd
    refine ⟨?_, ?_⟩
    · rw [getD_eq_getElem?_getD, hqd]
      exact hbeg
    rw [hcsm, ← haft, flatten_append, flatten_append, append_assoc]
    refine (prefix_append_right_inj _).mpr (hbeg.trans ?_)
    simp
  have hpart : part = [] := hhl.absent (fun e he heq => hin ⟨e, he, heq⟩)
  obtain ⟨after, haft⟩ := h.delivered
  subst hpart
  refine ⟨ nil_prefix, ?_⟩
  rw [hcsm, ← haft, append_nil, flatten_append]
  exact prefix_append _ _

/-- The payloads that have left the tx window were delivered. -/
theorem removed_delivered (h : Half me peer) (hpeer : Half peer me) :
    ∃ removed, removed ++ me.sock.tx.packets.map Packet.payload = me.queued ∧
      removed <+: peer.delivered := by
  obtain ⟨base, l, hpk, hcons, htot, hqd⟩ := h.sender.window
  have hpk' : me.sock.tx.packets = l.map Prod.snd := hpk
  have htot' : base + l.length = me.queued.length := htot
  have hbeh := h.behind
  rw [hpk', length_map] at hbeh
  refine ⟨me.queued.take base, ?_, ?_⟩
  · rw [hpk']
    exact payloads_consecutive hcons htot (fun e he => (hqd e he).payload)
  have hdel : peer.delivered = me.queued.take peer.delivered.length :=
    prefix_iff_eq_take.mp hpeer.receiver.delivered
  rw [hdel]
  exact take_prefix_take_left (by omega)

/-- In every run of a connection, in either direction: the bytes consumed are the
beginning of the bytes accepted, the payloads are delivered once each and in their
order, a payload leaves the tx window only after it was delivered, and a step sets
`MSP_STATE_SHUTDOWN_REMOTE` only when the packet with the flag is the next one. -/
theorem msp_delivers_in_order {left right : Sock} (hleft : Opened left) (hright : Opened right)
    (actions : List (Side × Action)) (sys : System)
    (hrun : run (opening left right) actions = .ok sys) (side : Side) :
    (sys side.other).consumed <+: (sys side).accepted.flatten ∧
    ((sys side).queued = (sys side).accepted ∨ (sys side).queued = (sys side).accepted ++ [[]]) ∧
    (sys side.other).delivered <+: (sys side).queued ∧
    (∃ part, (sys side.other).consumed = (sys side.other).delivered.flatten ++ part ∧
      part <+: (sys side).queued.getD (sys side.other).delivered.length []) ∧
    (∃ removed, removed ++ (sys side).sock.tx.packets.map Packet.payload = (sys side).queued ∧
      removed <+: (sys side.other).delivered) ∧
    (∀ actor a sys', step sys actor a = .ok sys' → (sys side.other).sock.state.shutdownRemote = false →
      (sys' side.other).sock.state.shutdownRemote = true →
      (sys' side).shutdownAt = some (sys' side.other).delivered.length) := by
  have hinv := inv_run (inv_opening hleft hright) hrun
  have hside := hinv side
  have hoth : Half (sys side.other) (sys side) := by
    have hoth := hinv side.other
    rwa [other_other] at hoth
  obtain ⟨part, hcsm, hpart, hbeg⟩ := receiver_consumed hoth.receiver
  refine ⟨?_, hside.sender.accepted.imp_right And.right, hoth.receiver.delivered,
    ⟨part, hcsm, hpart⟩, removed_delivered hside hoth, fun actor a sys' hstep hclr hset => ?_⟩
  · rw [accepted_flatten hside.sender] at hbeg
    exact hbeg
  obtain ⟨-, hsame, hmvs⟩ := inv_step hinv hstep
  by_cases hactor : actor = side
  · subst hactor
    rw [hsame, hclr] at hset
    cases hset
  have hactor' : actor = side.other := by
    cases actor <;> cases side <;> simp_all [Side.other]
  subst hactor'
  rw [other_other] at hsame hmvs
  rw [hsame]
  obtain hset' | hnext := hmvs.shutdown hset
  · rw [hclr] at hset'
    cases hset'
  · exact hnext

def connecting : Sock :=
  { mspSocket 0 0 with
    localAddr := ⟨7, 5⟩, remoteAddr := ⟨9, 6⟩, state := { dataout := true }, nextAck := 10 }

def accepting : Sock := MspTable.acceptSock 0 ⟨⟨9, 6⟩, ⟨7, 5⟩, false, false⟩ (mspSocket 0 0)

/-- Three bytes and the end of the stream go over, the datagram twice, and the
handler takes the bytes in two parts. -/
def shortStream : List (Side × Action) :=
  [(.left, .send [1, 2, 3]), (.left, .shutdown), (.left, .start 1),
    (.left, .finish 1 false (fun _ => .sent) .sent), (.right, .receive 2 0),
    (.right, .receive 2 0), (.right, .start 3), (.right, .handlerReturns 2),
    (.right, .handlerReturns 1), (.right, .receive 3 0),
    (.right, .finish 3 false (fun _ => .sent) .sent), (.left, .receive 4 0)]

theorem opened_connecting : Opened connecting :=
  .connected 0 0 ⟨7, 5⟩ ⟨9, 6⟩ _ rfl

theorem opened_accepting : Opened accepting := .accepted 0 _ _

theorem shortStream_runs : ∃ sys, run (opening connecting accepting) shortStream = .ok sys ∧
      (sys .right).consumed = [1, 2, 3] ∧ (sys .left).sock.tx.packets = [] :=
  ⟨_, rfl, by decide, by decide⟩

theorem msp_delivers_short_stream : ∃ sys, run (opening connecting accepting) shortStream = .ok sys ∧
      (sys .right).consumed = [1, 2, 3] ∧ (sys .left).sock.tx.packets = [] ∧
      (sys .right).consumed <+: (sys .left).accepted.flatten := by
  obtain ⟨sys, hrun, hcsm, hemp⟩ := shortStream_runs
  exact ⟨sys, hrun, hcsm, hemp,
    (msp_delivers_in_order opened_connecting opened_accepting shortStream sys hrun .left).1⟩

end MspDelivery
