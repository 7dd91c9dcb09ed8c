import ServalDna.MspDelivery

/-!
# The limits of an MSP socket

Two places where a counter of a socket meets its limit. `msp_send` takes a payload
unless the tx window holds more packets than its size, and `msp_shutdown` adds a
packet without looking at the size. The test for the end of a connection compares
the number acknowledged with the next number less one, which is below zero when
the next number has just wrapped.
-/
namespace MspLimits

open SerialNumber MspWindow MspSocket MspEndpoint MspDelivery MspTable

/-! ## The size of the tx window -/

/-- `msp_shutdown` only flags the last packet. -/
def FlagsLast (s : Sock) : Prop := ∃ tail, s.tx.packets.getLast? = some tail ∧ tail.sent = none

/-- The states of a socket to which `msp_send`, and an `msp_shutdown` that adds a packet,
are only applied when `ok` holds. Any packets may arrive. -/
inductive Reaches (ok : Sock → Prop) : Sock → Prop where
  | opened : Opened s → Reaches ok s
  | send : Reaches ok s → ok s → mspSend payload s = .ok (r, s') → Reaches ok s'
  | shutdown : Reaches ok s → FlagsLast s ∨ ok s → mspShutdown s = .ok (done, s') → Reaches ok s'
  | stop : Reaches ok s → Reaches ok (mspStop s).1
  | receive : Reaches ok s → Reaches ok (receivePacket now flags bytes s).1
  | start : Reaches ok s → Reaches ok (processSockStart now s).1
  | handler : Reaches ok s → handlerReturned nconsumed index s = .ok (s', phase) → Reaches ok s'
  | finish : Reaches ok s → processSockFinish now pendingBind outcome ackOutcome s = .ok f →
      Reaches ok f.sock

theorem mspShutdown_count (hfl : FlagsLast s) (h : mspShutdown s = .ok (done, s')) :
    s'.tx.packetCount = s.tx.packetCount := by
  obtain ⟨tail, htail, hsent⟩ := hfl
  rw [mspShutdown] at h
  split at h
  · cases h
  split at h
  · cases h
  rw [htail] at h
  simp only [hsent, ↓reduceIte] at h
  cases h
  rfl

/-- As long as packets are only added when there is room for them, the tx window keeps
to its size. -/
theorem tx_window_bounded (h : Reaches (fun s => s.tx.packetCount < maxWindowSize) s) :
    s.tx.packetCount ≤ maxWindowSize := by
  induction h with
  | opened h =>
    rw [(opened_fresh h).1]
    exact Nat.zero_le _
  | @send s payload _ _ _ hroom hstep ih =>
    have hmore := (addPacket_count s.tx s.tx.nextSeq 0 payload).2
    obtain ⟨-, rfl⟩ | ⟨-, -, -, -, -, -, rfl⟩ := mspSend_cases hstep
    · exact ih
    · exact le_trans hmore hroom
  | @shutdown s _ _ _ hroom hstep ih =>
    obtain hfl | hroom := hroom
    · rw [mspShutdown_count hfl hstep]
      exact ih
    have hmore := (addPacket_count s.tx s.tx.nextSeq flagShutdown []).2
    obtain ⟨-, rfl⟩ | ⟨-, -, -, ⟨_, _, _, _, rfl⟩ | ⟨-, rfl⟩⟩ := mspShutdown_cases hstep
    · exact ih
    · exact ih
    · exact le_trans hmore hroom
  | @stop s _ ih =>
    rw [(mspStop_windows s).1]
    exact ih
  | @receive s now flags bytes _ ih =>
    obtain htx | ⟨_, low, high, _, _, _, htx⟩ := (processed_receivePacket now flags bytes s).1
    · rw [htx]
      exact ih
    rw [htx]
    exact le_trans (Nat.sub_le _ _) ih
  | @start s now _ ih =>
    obtain hst | hst | ⟨-, hst⟩ := processSockStart_cases now s
    · rw [hst]
      exact ih
    · rw [hst]
      exact ih
    rw [hst, (rxLoop_tx s 0).1]
    exact ih
  | @handler s _ _ s' _ _ hstep ih =>
    have hcnt : s'.tx.packetCount = s.tx.packetCount :=
      congrArg Prod.fst (flowView_handlerReturned hstep)
    rw [hcnt]
    exact ih
  | finish _ hstep ih =>
    rw [(processSockFinish_cases hstep).1]
    exact ih

theorem tx_window_bounded_send :
    ∃ s, mspSend [7] connecting = .ok (some 1, s) ∧ s.tx.packetCount ≤ maxWindowSize :=
  ⟨_, rfl, tx_window_bounded (.send (.opened opened_connecting) (by decide) rfl)⟩

/-- `msp_send` takes five payloads before any is acknowledged. -/
theorem tx_window_exceeded : ∃ s, Reaches (fun _ => True) s ∧ maxWindowSize < s.tx.packetCount := by
  have hopn : Reaches (fun _ => True) connecting := .opened opened_connecting
  have hsend (s s' : Sock) (h : Reaches (fun _ => True) s)
      (hstep : mspSend [7] s = .ok (some 1, s')) : Reaches (fun _ => True) s' := .send h trivial hstep
  exact ⟨_, hsend _ _ (hsend _ _ (hsend _ _ (hsend _ _ (hsend _ _ hopn rfl) rfl) rfl) rfl) rfl,
    by decide⟩

/-! ## The end of a connection -/

/-- Both directions are shut down and nothing is left in the windows of an open socket;
`n` packets were received in order, so that `next_seq` is `serial n` as in `Receiver`,
and an acknowledgement of the last one went out. -/
structure Settled (n : Nat) (s : Sock) : Prop where
  flow : Flow s
  connected : s.state.listening = false
  opened : s.state.closed = false
  shutdownLocal : s.state.shutdownLocal = true
  shutdownRemote : s.state.shutdownRemote = true
  sent : s.tx.packets = []
  received : s.rx = ⟨0, serial n, []⟩
  acknowledged : s.previousAck = serial ((n : Int) - 1)

theorem processSockStart_settled (h : Settled n s) (htime : now ≤ s.timeout) :
    processSockStart now s = (s, .finishing) := by
  have hfree : freeDelivered s = s := by
    obtain ⟨_, _, _, ⟨_, _, _⟩, _, _, _, _, _, _⟩ := s
    cases h.received
    rfl
  rw [processSockStart, if_neg (not_lt.mpr htime), if_neg (by simp [h.connected]), rxLoop, hfree]
  simp [h.received]

/-- The numbers are equal as numbers of type `int`, unless the next number is 0. -/
theorem finished_settled (h : Settled n s) : finished s = true ↔ n % 65536 ≠ 0 := by
  have hcnt : s.tx.packetCount = s.tx.packets.length := h.flow.counted
  simp only [finished, hcnt, h.sent, h.received, h.acknowledged, h.shutdownLocal,
    h.shutdownRemote, serial_toNat, List.length_nil, beq_self_eq_true, Bool.and_self, Bool.true_and,
    beq_iff_eq]
  omega

theorem closeFinished_settled (h : Settled n s) :
    (closeFinished s).state.closed = true ↔ n % 65536 ≠ 0 := by
  rw [← finished_settled h, closeFinished]
  split
  · next hfin => simp [hfin]
  · next hopen => simp [hopen, h.opened]

theorem sendAck_settled (h : Settled n s) (hack : s.nextAck < now → ao = .sent ∧
      s.remoteAddr.port ≠ 0 ∧ (s.localAddr.port ≠ 0 ∨ s.bind = false)) :
    ∃ f, sendAck now ao s = .ok f ∧ (f.sock.state.closed = true ↔ n % 65536 ≠ 0) := by
  rw [sendAck]
  split
  · next hdue =>
    obtain ⟨rfl, hrem, hloc⟩ := hack hdue
    have hbind : ¬ (s.localAddr.port = 0 ∧ s.bind = true) := by simpa [imp_iff_not_or] using hloc
    rw [if_neg hbind, if_neg hrem]
    refine ⟨_, rfl, closeFinished_settled ⟨flow_congr h.flow rfl, h.connected, h.opened,
      h.shutdownLocal, h.shutdownRemote, h.sent, h.received, ?_⟩⟩
    rw [h.received]
    exact serial_sub_one n
  · exact ⟨_, rfl, closeFinished_settled h⟩

/-- `process_sock` closes a connection that is settled unless the number of packets
received is a multiple of `2 ^ 16`. If another acknowledgement has become due, it goes
out first. -/
theorem settled_closes_iff (h : Settled n s) (pendingBind : Bool) (outcome : Packet → SendResult)
    (htime : now ≤ s.timeout) (hack : s.nextAck < now → ackOutcome = .sent ∧
      s.remoteAddr.port ≠ 0 ∧ (s.localAddr.port ≠ 0 ∨ s.bind = false)) :
    ∃ f, (processSockStart now s).2 = .finishing ∧
      processSockFinish now pendingBind outcome ackOutcome (processSockStart now s).1 = .ok f ∧
      (f.sock.state.closed = true ↔ n % 65536 ≠ 0) := by
  have hres : Transmission.result ⟨s, [], [], .done⟩ = s := by
    obtain ⟨_, _, ⟨_, _, _⟩, _, _, _, _, _, _, _⟩ := s
    cases h.sent
    rfl
  obtain ⟨f, hf, hcld⟩ := sendAck_settled h hack
  rw [processSockStart_settled h htime, processSockFinish, checkTx_flow h.flow h.connected, h.sent]
  simp only [transmit, hres, hf]
  exact ⟨_, trivial, rfl, hcld⟩

def settledAt (n : Nat) : Sock :=
  { connecting with
    state := { shutdownLocal := true, shutdownRemote := true }
    rx := ⟨0, serial n, []⟩, previousAck := serial ((n : Int) - 1) }

theorem settled_settledAt (n : Nat) : Settled n (settledAt n) :=
  ⟨⟨rfl, fun _ => rfl⟩, rfl, rfl, rfl, rfl, rfl, rfl, rfl⟩

theorem settled_closes_one :
    ∃ f, processSockFinish 5 false (fun _ => .sent) .sent (processSockStart 5 (settledAt 1)).1 = .ok f ∧
      f.sock.state.closed = true := by
  obtain ⟨f, -, hf, hcld⟩ := @settled_closes_iff 1 _ 5 .sent (settled_settledAt 1) false
    (fun _ => .sent) (by decide) (by decide)
  exact ⟨f, hf, hcld.mpr (by decide)⟩

/-- After `2 ^ 16` packets the socket stays open. -/
theorem settled_stays_open : Settled 65536 (settledAt 65536) ∧ ∃ f,
      processSockFinish 5 false (fun _ => .sent) .sent (processSockStart 5 (settledAt 65536)).1 = .ok f ∧
      f.sock.state.closed = false :=
  ⟨settled_settledAt 65536, _, rfl, rfl⟩

end MspLimits
