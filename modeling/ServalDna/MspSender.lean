import ServalDna.MspEndpoint

/-!
# The sending end of an MSP connection

The tx window of an end holds the last of the payloads it has queued, under
consecutive numbers. Every datagram on the network has the contents of the packet
whose number it carries: a packet is only changed by `msp_shutdown`, and only
while it has not been sent.
-/
namespace MspSender

open ByteFlags DataFormats SerialNumber MspWindow MspSocket MspNumbering MspEndpoint List

/-! ## Consecutive numbers -/

/-- The numbers go up by one from `base`. -/
def Consecutive : Nat → Numbered → Prop
  | _, [] => True
  | base, e :: rest => e.1 = base ∧ Consecutive (base + 1) rest

variable {base : Nat} {l : Numbered} {o : Outgoing}

theorem consecutive_append :
    Consecutive base (l ++ l') ↔ Consecutive base l ∧ Consecutive (base + l.length) l' := by
  induction l generalizing base with
  | nil => simp [Consecutive]
  | cons e rest ih =>
    simp only [cons_append, Consecutive, length_cons, ih, and_assoc]
    rw [add_right_comm, add_assoc]

theorem consecutive_mem (h : Consecutive base l) {e : Nat × Packet} (he : e ∈ l) :
    base ≤ e.1 ∧ e.1 < base + l.length := by
  induction l generalizing base with
  | nil => cases he
  | cons a rest ih =>
    obtain ⟨rfl, hrest⟩ := h
    obtain rfl | he := mem_cons.mp he
    · simp
    have hbd := ih hrest he
    simp only [length_cons]
    omega

theorem consecutive_last (h : Consecutive base l) (hlast : l.getLast? = some last) :
    last.1 + 1 = base + l.length := by
  obtain ⟨init, rfl⟩ := getLast?_eq_some_iff.mp hlast
  obtain ⟨-, hnum, -⟩ := consecutive_append.mp h
  rw [hnum, length_append]
  rfl

theorem consecutive_dropWhile {next : Nat} {l : Numbered} (h : Consecutive base l) :
    ∃ base', Consecutive base' (l.dropWhile (fun e => decide (e.1 < next))) ∧
      base' + (l.dropWhile (fun e => decide (e.1 < next))).length = base + l.length ∧
      (base' ≤ base ∨ base' ≤ next) := by
  induction l generalizing base with
  | nil => exact ⟨base, trivial, rfl, .inl le_rfl⟩
  | cons e rest ih =>
    obtain ⟨rfl, hrest⟩ := h
    rw [dropWhile_cons]
    split
    · next hlt =>
      simp only [decide_eq_true_eq] at hlt
      obtain ⟨base', hcons, hlen, hle⟩ := ih hrest
      refine ⟨base', hcons, ?_, .inr (by omega)⟩
      rw [hlen, length_cons]
      omega
    · exact ⟨e.1, ⟨rfl, hrest⟩, rfl, .inl le_rfl⟩

/-! ## The tx window -/

def packetFlags (shutdownAt : Option Nat) (n : Nat) : UInt8 :=
  if shutdownAt = some n then flagShutdown else 0

@[simp] theorem packetFlags_none : packetFlags none n = 0 := rfl

@[simp] theorem packetFlags_same (n : Nat) : packetFlags (some n) n = flagShutdown := by
  simp [packetFlags]

theorem packetFlags_ne (h : n ≠ m) : packetFlags (some n) m = 0 := by simp [packetFlags, h]

/-- The packet `n` of the tx window. -/
structure Queued (o : Outgoing) (n : Nat) (p : Packet) : Prop where
  seq : p.seq = serial n
  payload : o.queued[n]? = some p.payload
  flags : p.flags = packetFlags o.shutdownAt n
  unsent : p.sent = none → ∀ d ∈ o.wire, d.seq ≠ some n

structure Sender (o : Outgoing) : Prop where
  nextSeq : o.tx.nextSeq = serial o.queued.length
  window : ∃ base l, o.tx.packets = l.map Prod.snd ∧ Consecutive base l ∧
    base + l.length = o.queued.length ∧ ∀ e ∈ l, Queued o e.1 e.2
  counted : Counted o.tx
  room : o.tx.packets.length ≤ 5 ∨ (o.shutdownLocal = true ∧ o.tx.packets.length ≤ 6)
  accepted : o.queued = o.accepted ∨ (o.shutdownLocal = true ∧ o.queued = o.accepted ++ [[]])
  shutdownAt : ∀ n, o.shutdownAt = some n → o.shutdownLocal = true ∧ n + 1 = o.queued.length
  sent : ∀ d ∈ o.wire, ∀ n, d.seq = some n → n < o.queued.length
  wire : ∀ d ∈ o.wire, Truthful o d

/-- The payloads of consecutive packets are a part of the payloads queued. -/
theorem payloads_consecutive (hcons : Consecutive base l) (htot : base + l.length = queued.length)
    (hpl : ∀ e ∈ l, queued[e.1]? = some e.2.payload) :
    queued.take base ++ (l.map Prod.snd).map Packet.payload = queued := by
  induction l generalizing base with
  | nil =>
    rw [length_nil, add_zero] at htot
    rw [htot]
    simp
  | cons e rest ih =>
    obtain ⟨rfl, hrest⟩ := hcons
    have hhead := hpl e mem_cons_self
    rw [length_cons] at htot
    have htail := ih hrest (by omega) (fun a ha => hpl a (mem_cons_of_mem _ ha))
    rw [take_add_one, hhead, append_assoc] at htail
    exact htail

/-- A packet with the next number goes to the end of the tx window. -/
theorem addPacket_next (hpk : w.packets = l.map Prod.snd) (hcons : Consecutive base l)
    (htot : base + l.length = total) (hseq : ∀ e ∈ l, e.2.seq = serial e.1)
    (hsht : l.length ≤ 6) (flags : UInt8) (pl : List UInt8) :
    addPacket w (serial total) flags pl =
      (.added, w.withPackets ((l ++ [(total, newPacket (serial total) flags pl)]).map
        Prod.snd)) := by
  cases l with
  | nil => simp [addPacket, hpk, newPacket]
  | cons e rest =>
    have htail : ((e :: rest).map Prod.snd).getLast? = some ((rest.map Prod.snd).getLastD e.2) := by
      rw [map_cons, getLast?_cons, getLastD_eq_getLast?]
    rw [getLast?_map] at htail
    obtain ⟨last, hlast, hlastP⟩ := Option.map_eq_some_iff.mp htail
    have hnum := consecutive_last hcons hlast
    have hhead : e.1 = base := hcons.1
    have hlas := hseq last (mem_of_getLast? hlast)
    have hhea := hseq e mem_cons_self
    simp only [addPacket, hpk, map_cons]
    rw [← hlastP, hlas, hhea, if_neg, if_pos, if_neg]
    · simp [newPacket]
    · rw [compareWrapped_pos_iff]
      omega
    · rw [compareWrapped_neg_iff]
      omega
    rw [serial_eq_iff]
    omega

theorem truthful_extends (hext : Extends o o') (h : Truthful o d) : Truthful o' d := by
  intro flags a b low high pl hbs
  obtain ⟨n, hseq, hread, hcar⟩ := h flags a b low high pl hbs
  exact ⟨n, hseq, hread, carries_extends hext hcar⟩

section Sender

variable (h : Sender o)

include h

theorem shutdownAt_none (hloc : o.shutdownLocal = false) : o.shutdownAt = none := by
  cases hat : o.shutdownAt with
  | none => rfl
  | some n =>
    rw [(h.shutdownAt n hat).1] at hloc
    cases hloc

def queue (o : Outgoing) (flags : UInt8) (payload : List UInt8) (shutdownLocal : Bool)
    (accepted : List (List UInt8)) (shutdownAt : Option Nat) : Outgoing :=
  { o with
    tx := { (addPacket o.tx o.tx.nextSeq flags payload).2 with
      nextSeq := (addPacket o.tx o.tx.nextSeq flags payload).2.nextSeq + 1 }
    shutdownLocal := shutdownLocal
    accepted := accepted
    queued := o.queued ++ [payload]
    shutdownAt := shutdownAt }

section Queue

variable {flags : UInt8}

theorem extends_queue (hloc : o.shutdownLocal = false)
    (hat : sat = none ∨ sat = some o.queued.length) :
    Extends o (queue o flags pl sl accepted sat) := by
  have hnone := shutdownAt_none h hloc
  refine ⟨prefix_append _ _, fun d hd => hd, fun d hd n hseq => ?_, fun n hn => ?_⟩
  · have hlt := h.sent d hd n hseq
    simp only [queue, hnone]
    obtain rfl | rfl := hat
    · simp
    simp
    omega
  rw [hnone] at hn
  cases hn

theorem tx_queue : ∃ base l, o.tx.packets = l.map Prod.snd ∧ Consecutive base l ∧
      base + l.length = o.queued.length ∧ (∀ e ∈ l, Queued o e.1 e.2) ∧
      (queue o flags pl sl accepted sat).tx =
        ⟨o.tx.packetCount + 1, serial (o.queued.length + 1 : Nat),
          (l ++ [(o.queued.length, newPacket (serial o.queued.length) flags pl)]).map
            Prod.snd⟩ := by
  obtain ⟨base, l, hpk, hcons, htot, hqd⟩ := h.window
  refine ⟨base, l, hpk, hcons, htot, hqd, ?_⟩
  have hsht : l.length ≤ 6 := by
    have hroom := h.room
    rw [hpk, length_map] at hroom
    omega
  have hadd := addPacket_next hpk hcons htot (fun e he => (hqd e he).seq) hsht flags pl
  simp only [queue, h.nextSeq, hadd, Window.withPackets]
  rw [serial_add_one]
  rfl

theorem sender_queue (hloc : o.shutdownLocal = false)
    (hat : sat = none ∨ (sat = some o.queued.length ∧ sl = true))
    (hfl : flags = packetFlags sat o.queued.length)
    (hacc : accepted = o.accepted ++ [pl] ∨ (sl = true ∧ accepted = o.accepted ∧ pl = []))
    (hroom : o.tx.packets.length ≤ 4 ∨ sl = true) :
    Sender (queue o flags pl sl accepted sat) := by
  have hat' : sat = none ∨ sat = some o.queued.length := hat.imp_right And.left
  have hext : Extends o (queue o flags pl sl accepted sat) :=
    extends_queue h hloc hat'
  have hnone := shutdownAt_none h hloc
  have hsame : o.queued = o.accepted := h.accepted.resolve_right (fun hc => by simp [hloc] at hc)
  obtain ⟨base, l, hpk, hcons, htot, hqd, htx⟩ := @tx_queue o h flags pl
    sl accepted sat
  have hlen : l.length = o.tx.packets.length := by rw [hpk, length_map]
  constructor
  · rw [htx]
    simp [queue]
  · refine ⟨base, _, congrArg Window.packets htx, consecutive_append.mpr ⟨hcons, ?_⟩, ?_, ?_⟩
    · exact ⟨htot.symm, trivial⟩
    · simp only [length_append, length_singleton, queue]
      omega
    intro e he
    obtain he | he := mem_append.mp he
    · have hold := hqd e he
      have hlt := (consecutive_mem hcons he).2
      refine ⟨hold.seq, ?_, ?_, hold.unsent⟩
      · simp only [queue]
        rw [getElem?_append_left (by omega)]
        exact hold.payload
      rw [hold.flags, hnone, packetFlags_none]
      obtain rfl | rfl := hat'
      · rfl
      · exact (packetFlags_ne (by omega)).symm
    obtain rfl := mem_singleton.mp he
    refine ⟨rfl, by simp [queue, newPacket], hfl, fun _ d hd hseq => ?_⟩
    exact lt_irrefl _ (h.sent d hd _ hseq)
  · rw [Counted, htx]
    have hcnt : o.tx.packetCount = o.tx.packets.length := h.counted
    simp [hcnt, hlen]
  · rw [htx]
    have hold := h.room
    simp only [hloc, Bool.false_eq_true, false_and, or_false] at hold
    simp only [length_map, length_append, length_singleton, hlen, queue]
    obtain hroom | hloc' := hroom
    · exact .inl (by omega)
    · exact .inr ⟨hloc', by omega⟩
  · simp only [queue, hsame]
    obtain rfl | ⟨hloc', rfl, rfl⟩ := hacc
    · exact .inl rfl
    · exact .inr ⟨hloc', rfl⟩
  · intro n hn
    simp only [queue] at hn ⊢
    obtain rfl | ⟨rfl, hloc'⟩ := hat
    · cases hn
    cases hn
    exact ⟨hloc', by simp⟩
  · intro d hd n hseq
    have hlt := h.sent d hd n hseq
    simp only [queue, length_append, length_singleton]
    omega
  · exact fun d hd => truthful_extends hext (h.wire d hd)

theorem behind_queue {bound : Nat} (hbeh : o.queued.length ≤ o.tx.packets.length + bound) :
    (queue o flags pl sl accepted sat).queued.length ≤
      (queue o flags pl sl accepted sat).tx.packets.length + bound := by
  obtain ⟨base, l, hpk, -, -, -, htx⟩ := @tx_queue o h flags pl sl accepted
    sat
  rw [hpk, length_map] at hbeh
  rw [htx]
  simp only [queue, length_append, length_map, length_singleton]
  omega

end Queue

def flagLast (o : Outgoing) (init : List Packet) (tail : Packet) : Outgoing :=
  { o with
    tx := { o.tx with packets := init ++ [{ tail with flags := tail.flags ||| flagShutdown }] }
    shutdownLocal := true
    shutdownAt := some (o.queued.length - 1) }

section FlagLast

variable {tail : Packet}

/-- The last packet of the tx window has the last number. -/
theorem window_last (hpk : o.tx.packets = init ++ [tail]) :
    ∃ base l, init = l.map Prod.snd ∧ Consecutive base l ∧ base + l.length + 1 = o.queued.length ∧
      (∀ e ∈ l, Queued o e.1 e.2) ∧ Queued o (o.queued.length - 1) tail := by
  obtain ⟨base, l, hl, hcons, htot, hqd⟩ := h.window
  rw [hpk] at hl
  obtain ⟨l', last, rfl, rfl, hlast⟩ := map_eq_append_iff.mp hl.symm
  obtain ⟨e, rfl, rfl⟩ := map_eq_singleton_iff.mp hlast
  obtain ⟨hfr, hnum, -⟩ := consecutive_append.mp hcons
  simp only [length_append, length_singleton] at htot
  refine ⟨base, l', rfl, hfr, htot, fun a ha => hqd a (mem_append_left _ ha), ?_⟩
  have hlas := hqd e (by simp)
  rwa [show e.1 = o.queued.length - 1 by omega] at hlas

theorem extends_flagLast (hloc : o.shutdownLocal = false) (hpk : o.tx.packets = init ++ [tail])
    (hsent : tail.sent = none) : Extends o (flagLast o init tail) := by
  obtain ⟨-, -, -, -, -, -, hlast⟩ := window_last h hpk
  have hnone := shutdownAt_none h hloc
  refine ⟨prefix_refl _, fun d hd => hd, fun d hd n hseq => ?_, fun n hn => ?_⟩
  · have hne : n ≠ o.queued.length - 1 := fun heq => hlast.unsent hsent d hd (heq ▸ hseq)
    simp only [flagLast, hnone, Option.some.injEq, reduceCtorEq, iff_false]
    exact fun heq => hne heq.symm
  rw [hnone] at hn
  cases hn

theorem sender_flagLast (hloc : o.shutdownLocal = false) (hpk : o.tx.packets = init ++ [tail])
    (hsent : tail.sent = none) : Sender (flagLast o init tail) := by
  obtain ⟨base, l, rfl, hcons, htot, hqd, hlast⟩ := window_last h hpk
  have hext := extends_flagLast h hloc hpk hsent
  have hnone := shutdownAt_none h hloc
  have hfl : tail.flags ||| flagShutdown = flagShutdown := by
    rw [hlast.flags, hnone, packetFlags_none]
    decide
  constructor
  · exact h.nextSeq
  · refine ⟨base, l ++ [(o.queued.length - 1, { tail with flags := tail.flags ||| flagShutdown })],
      by simp [flagLast], consecutive_append.mpr ⟨hcons, ?_⟩, ?_, ?_⟩
    · exact ⟨by omega, trivial⟩
    · simp only [length_append, length_singleton, flagLast]
      omega
    intro e he
    obtain he | he := mem_append.mp he
    · have hold := hqd e he
      have hlt := (consecutive_mem hcons he).2
      refine ⟨hold.seq, hold.payload, ?_, hold.unsent⟩
      rw [hold.flags, hnone, packetFlags_none]
      exact (packetFlags_ne (by omega)).symm
    obtain rfl := mem_singleton.mp he
    exact ⟨hlast.seq, hlast.payload, hfl.trans (packetFlags_same _).symm, hlast.unsent⟩
  · have hcnt : o.tx.packetCount = o.tx.packets.length := h.counted
    simp [Counted, flagLast, hcnt, hpk]
  · have hold := h.room
    simp only [hloc, hpk, Bool.false_eq_true, false_and, or_false, length_append,
      length_singleton] at hold
    simp only [flagLast, length_append, length_singleton]
    exact .inl hold
  · have hsame : o.queued = o.accepted :=
      h.accepted.resolve_right (fun hc => by simp [hloc] at hc)
    exact .inl hsame
  · intro n hn
    cases hn
    exact ⟨rfl, by simp only [flagLast]; omega⟩
  · exact h.sent
  · exact fun d hd => truthful_extends hext (h.wire d hd)

end FlagLast

/-! ## Acknowledgements -/

/-- An acknowledgement of `cnt` packets that is not late drops those packets and
no others. -/
theorem sender_acknowledged {cnt : Nat} (hle : cnt ≤ o.queued.length)
    (hint : o.queued.length < cnt + 32768) :
    Sender { o with tx := freeAckedPackets o.tx (serial ((cnt : Int) - 1)) } ∧
      ∀ bound, cnt ≤ bound → o.queued.length ≤ o.tx.packets.length + bound → o.queued.length ≤
          (freeAckedPackets o.tx (serial ((cnt : Int) - 1))).packets.length + bound := by
  obtain ⟨base, l, hpk, hcons, htot, hqd⟩ := h.window
  have hroom : o.tx.packets.length ≤ 6 := by
    have hroom := h.room
    omega
  have hlen : l.length = o.tx.packets.length := by rw [hpk, length_map]
  have hdrop : (freeAckedPackets o.tx (serial ((cnt : Int) - 1))).packets =
      (l.dropWhile (fun e => decide (e.1 < cnt))).map Prod.snd := by
    simp only [freeAckedPackets, hpk]
    refine dropWhile_isAcked (fun e he => (hqd e he).seq) (fun e he => ?_) (fun e he => ?_)
    all_goals have hbd := consecutive_mem hcons he
    · omega
    · omega
  have hsub := dropWhile_sublist (l := l) (fun e => decide (e.1 < cnt))
  have hsho := hsub.length_le
  obtain ⟨base', hcons', htot', hbase⟩ := @consecutive_dropWhile base cnt l hcons
  refine ⟨⟨h.nextSeq, ⟨base', _, hdrop, hcons', htot'.trans htot, ?_⟩,
    freeAckedPackets_counted h.counted _, ?_, h.accepted, h.shutdownAt, h.sent, ?_⟩, ?_⟩
  · intro e he
    have hold := hqd e (hsub.subset he)
    exact { hold with }
  · rw [hdrop, length_map]
    exact h.room.imp (fun hold => by omega) (fun hold => ⟨hold.1, by omega⟩)
  · intro d hd flags a b low high pl hbs
    obtain ⟨n, hseq, hread, hcar⟩ := h.wire d hd flags a b low high pl hbs
    exact ⟨n, hseq, hread, hcar.queued, hcar.shutdown, hcar.sent⟩
  intro bound hcnt hbeh
  rw [hdrop, length_map]
  omega

end Sender

/-! ## Datagrams that go out -/

/-- Of the packets `l` those in `sentL` go out, and the others stay as they are. -/
structure Transmitted (now : Int) (base : Nat) (l l' sentL : Numbered) : Prop where
  consecutive : Consecutive base l'
  length : l'.length = l.length
  sent : ∀ e ∈ sentL, e ∈ l
  kept : ∀ e' ∈ l', (e' ∈ l ∧ ∀ e ∈ sentL, e.1 ≠ e'.1) ∨
    ∃ e ∈ l, e' = (e.1, { e.2 with sent := some now })

theorem transmitted_none (h : Consecutive base l) : Transmitted now base l l [] :=
  ⟨h, rfl, by simp, fun _ he' => .inl ⟨he', by simp⟩⟩

theorem transmitted_sent (hnum : e.1 = base) (h : Transmitted now (base + 1) rest l' sentL) :
    Transmitted now base (e :: rest) ((e.1, { e.2 with sent := some now }) :: l') (e :: sentL) := by
  refine ⟨⟨hnum, h.consecutive⟩, congrArg Nat.succ h.length, ?_, fun e' he' => ?_⟩
  · exact forall_mem_cons.mpr ⟨mem_cons_self, fun a ha => mem_cons_of_mem _ (h.sent a ha)⟩
  obtain rfl | he' := mem_cons.mp he'
  · exact .inr ⟨e, mem_cons_self, rfl⟩
  have hlt := (consecutive_mem h.consecutive he').1
  obtain ⟨hin, hnot⟩ | ⟨a, ha, heq⟩ := h.kept e' he'
  · refine .inl ⟨mem_cons_of_mem _ hin, fun a ha => ?_⟩
    obtain rfl | ha := mem_cons.mp ha
    · omega
    · exact hnot a ha
  · exact .inr ⟨a, mem_cons_of_mem _ ha, heq⟩

theorem transmitted_kept (hnum : e.1 = base) (hrest : Consecutive (base + 1) rest)
    (h : Transmitted now (base + 1) rest l' sentL) :
    Transmitted now base (e :: rest) (e :: l') sentL := by
  refine ⟨⟨hnum, h.consecutive⟩, congrArg Nat.succ h.length,
    fun a ha => mem_cons_of_mem _ (h.sent a ha), fun e' he' => ?_⟩
  obtain rfl | he' := mem_cons.mp he'
  · refine .inl ⟨mem_cons_self, fun a ha => ?_⟩
    have hlt := (consecutive_mem hrest (h.sent a ha)).1
    omega
  obtain ⟨hin, hnot⟩ | ⟨a, ha, heq⟩ := h.kept e' he'
  · exact .inl ⟨mem_cons_of_mem _ hin, hnot⟩
  · exact .inr ⟨a, mem_cons_of_mem _ ha, heq⟩

/-- The loop that transmits, in true numbers. -/
theorem transmit_numbered (pb : Bool) (oc : Packet → SendResult)
    (h : Consecutive base l) (s : Sock) :
    ∃ l' sentL, (transmit now pb oc (l.map Prod.snd) s).packets = l'.map Prod.snd ∧
      (transmit now pb oc (l.map Prod.snd) s).sent = sentL.map Prod.snd ∧
      Transmitted now base l l' sentL := by
  induction l generalizing base s with
  | nil => exact ⟨[], [], rfl, rfl, transmitted_none h⟩
  | cons e rest ih =>
    obtain ⟨hnum, hrest⟩ := h
    have hnone : Transmitted now base (e :: rest) (e :: rest) [] :=
      transmitted_none ⟨hnum, hrest⟩
    rw [map_cons, transmit]
    split
    · split
      · exact ⟨_, _, rfl, rfl, hnone⟩
      split
      · exact ⟨_, _, rfl, rfl, hnone⟩
      split
      · exact ⟨_, _, rfl, rfl, hnone⟩
      · exact ⟨_, _, rfl, rfl, hnone⟩
      obtain ⟨l', sentL, hpk, hsent, htx⟩ := ih hrest { s with
        bind := s.bind || s.localAddr.port == 0
        previousAck := s.rx.nextSeq - 1
        nextAck := now + retransmitTime }
      refine ⟨_, _, ?_, ?_, transmitted_sent hnum htx⟩
      · simp [Transmission.after, hpk]
      · simp [Transmission.after, hsent]
    obtain ⟨l', sentL, hpk, hsent, htx⟩ := ih hrest s
    refine ⟨_, _, ?_, hsent, transmitted_kept hnum hrest htx⟩
    simp [Transmission.after, hpk]

/-- The datagram `d` is the packet `e`. -/
structure Copies (e : Nat × Packet) (d : Datagram) : Prop where
  seq : d.seq = some e.1
  bytes : ∃ flags a b low high, d.bytes = flags :: a :: b :: low :: high :: e.2.payload ∧
    readUint16 [low, high] = serial e.1 ∧
    (hasFlag flags flagShutdown = true ↔ e.2.flags = flagShutdown)

/-- A datagram without a packet in it. -/
def Bare (d : Datagram) : Prop := d.seq = none ∧ d.bytes.length < 5

def transmits (o : Outgoing) (l' : Numbered) (new : List Datagram) : Outgoing :=
  { o with tx := { o.tx with packets := l'.map Prod.snd }, wire := o.wire ++ new }

theorem packetFlags_iff : packetFlags sat n = flagShutdown ↔ sat = some n := by
  rw [packetFlags]
  split
  · next h => simp [h]
  next h =>
  simp only [h, iff_false]
  decide

theorem extends_transmits : Extends o (transmits o l' new) :=
  ⟨prefix_refl _, fun _ hd => mem_append_left _ hd, fun _ _ _ _ => Iff.rfl, fun _ hn => hn⟩

theorem truthful_copies (hqd : Queued o e.1 e.2) (hd : d ∈ new) (h : Copies e d) :
    Truthful (transmits o l' new) d := by
  intro flags a b low high pl hbs
  obtain ⟨flags', a', b', low', high', hbs', hread, hfl⟩ := h.bytes
  rw [hbs'] at hbs
  cases hbs
  refine ⟨e.1, h.seq, hread, hqd.payload, ?_, d, mem_append_right _ hd, h.seq⟩
  rw [hfl, hqd.flags]
  exact packetFlags_iff

theorem sender_transmits (h : Sender o) (hpk : o.tx.packets = l.map Prod.snd)
    (htot : base + l.length = o.queued.length) (hqd : ∀ e ∈ l, Queued o e.1 e.2)
    (hcons : Consecutive base l) (htx : Transmitted now base l l' sentL)
    (hnew : ∀ d ∈ new, (∃ e ∈ sentL, Copies e d) ∨ Bare d) :
    Sender (transmits o l' new) := by
  have hlen : l'.length = o.tx.packets.length := by
    rw [htx.length, hpk, length_map]
  constructor
  · exact h.nextSeq
  · refine ⟨base, l', rfl, htx.consecutive, ?_, fun e' he' => ?_⟩
    · rw [htx.length]
      exact htot
    obtain ⟨hin, hnot⟩ | ⟨e, he, rfl⟩ := htx.kept e' he'
    · have hold := hqd e' hin
      refine ⟨hold.seq, hold.payload, hold.flags, fun hsent d hd hseq => ?_⟩
      obtain hd | hd := mem_append.mp hd
      · exact hold.unsent hsent d hd hseq
      obtain ⟨e, he, hcop⟩ | hbare := hnew d hd
      · rw [hcop.seq] at hseq
        exact hnot e he (Option.some.inj hseq)
      rw [hbare.1] at hseq
      cases hseq
    have hold := hqd e he
    exact ⟨hold.seq, hold.payload, hold.flags, nofun⟩
  · have hcnt : o.tx.packetCount = o.tx.packets.length := h.counted
    simp [Counted, transmits, hcnt, hlen]
  · simp only [transmits, length_map, hlen]
    exact h.room
  · exact h.accepted
  · exact h.shutdownAt
  · intro d hd n hseq
    obtain hd | hd := mem_append.mp hd
    · exact h.sent d hd n hseq
    obtain ⟨e, he, hcop⟩ | hbare := hnew d hd
    · rw [hcop.seq] at hseq
      cases hseq
      have hlt := (consecutive_mem hcons (htx.sent e he)).2
      simp only [transmits]
      omega
    rw [hbare.1] at hseq
    cases hseq
  intro d hd
  obtain hd | hd := mem_append.mp hd
  · exact truthful_extends extends_transmits (h.wire d hd)
  obtain ⟨e, he, hcop⟩ | hbare := hnew d hd
  · exact truthful_copies (hqd e (htx.sent e he)) hd hcop
  intro flags a b low high payload hbs
  have hsht := hbare.2
  rw [hbs] at hsht
  simp only [length_cons] at hsht
  omega

/-- Datagrams without packets may go out at any time. -/
theorem sender_bare (h : Sender o) (hnew : ∀ d ∈ new, Bare d) :
    Sender { o with wire := o.wire ++ new } ∧ Extends o { o with wire := o.wire ++ new } := by
  obtain ⟨base, l, hpk, hcons, htot, hqd⟩ := h.window
  have hsame : transmits o l new = { o with wire := o.wire ++ new } := by rw [transmits, ← hpk]
  rw [← hsame]
  exact ⟨sender_transmits h hpk htot hqd hcons (@transmitted_none base l 0 hcons)
    (fun d hd => .inr (hnew d hd)), extends_transmits⟩

theorem datagram_bare (e : Endpoint) (h : bytes.length < 5) : Bare (e.datagram bytes) := by
  match bytes, h with
  | [], _ => exact ⟨rfl, by simp [Endpoint.datagram]⟩
  | [_], _ => exact ⟨rfl, by simp [Endpoint.datagram]⟩
  | [_, _], _ => exact ⟨rfl, by simp [Endpoint.datagram]⟩
  | [_, _, _], _ => exact ⟨rfl, by simp [Endpoint.datagram]⟩
  | [_, _, _, _], _ => exact ⟨rfl, by simp [Endpoint.datagram]⟩

theorem datagram_copies {e : Endpoint} (h : Sender e.outgoing) {p : Packet}
    (hqd : Queued e.outgoing n p) (hlt : n < e.queued.length) (hnear : e.queued.length ≤ n + 6) :
    Copies (n, p) (e.datagram (packetBytes e.sock p)) := by
  have hnum : e.number p.seq = n := by
    have hsub := serial_sub_toNat e.queued.length n
    rw [Endpoint.number, hqd.seq, show e.sock.tx.nextSeq = _ from h.nextSeq]
    simp only [Endpoint.outgoing]
    omega
  have hfl : p.flags = 0 ∨ p.flags = flagShutdown := by
    rw [hqd.flags, packetFlags]
    split
    · exact .inr rfl
    · exact .inl rfl
  have hread : readUint16 [_, _] = p.seq := readUint16_writeUint16 p.seq
  constructor
  · simp only [Endpoint.datagram, packetBytes, preamble_eq, writeUint16, List.cons_append, List.nil_append,
      hread, hnum]
  refine ⟨_, _, _, _, _, rfl, ?_, ?_⟩
  · rw [hread, hqd.seq]
  · rw [← firstByte, firstByte_shutdown e.sock hfl, decide_eq_true_eq]

end MspSender
