import ServalDna.MspEndpoint
import Mathlib.Data.List.TakeWhile

/-!
# The receiving end of an MSP connection

What one end has received of what the other end sent. The packets that wait in
the rx window are copies of packets that were sent, the bytes consumed are those
of the packets delivered and of a part of the next one, and every step of the
receiving end keeps it that way.
-/
namespace MspReceiver

open DataFormats SerialNumber MspWindow MspSocket MspNumbering MspEndpoint List

/-! ## The receiving end -/

/-- The packets of a received window are what the sender sent, `part` is what the
handler has consumed of the packet `next`, and no later packet was touched. -/
structure Holds (o : Outgoing) (next : Nat) (part : List UInt8) (l : Numbered) : Prop where
  carries : ∀ e ∈ l, Carries o e.1 e.2.flags e.2.payload
  later : ∀ e ∈ l, next < e.1 → e.2.offset = 0
  current : ∀ e ∈ l, e.1 = next → part = e.2.payload.take e.2.offset
  absent : (∀ e ∈ l, e.1 ≠ next) → part = []

structure Receiver (o : Outgoing) (i : Incoming) : Prop where
  nextSeq : i.rx.nextSeq = serial i.delivered.length
  delivered : i.delivered <+: o.queued
  window : ∃ l part, i.rx.packets = l.map Prod.snd ∧
    Received i.delivered.length o.queued.length l ∧ Holds o i.delivered.length part l ∧
    i.consumed = i.delivered.flatten ++ part
  phase : ∀ index, i.phase = .inHandler index → ∃ p, i.rx.packets[index]? = some p ∧ p.seq = i.rx.nextSeq
  shutdown : i.shutdownRemote = true → ∃ n, o.shutdownAt = some n ∧ n ≤ i.delivered.length

/-- `free_acked_packets` is called on a window from which `next - 1` may just have
been delivered. -/
structure Loose (next total : Nat) (l : Numbered) : Prop where
  seq : ∀ e ∈ l, e.2.seq = serial e.1
  below : ∀ e ∈ l, e.1 < total
  shape : (Ordered l ∧ ∀ e ∈ l, next ≤ e.1 + 32769) ∨ (Jammed next l ∧ ∀ e ∈ l, next ≤ e.1 + 32768)

variable {next : Nat}

theorem loose_received (h : Received next total l) : Loose next total l := by
  refine ⟨h.seq, h.below, ?_⟩
  obtain hord | hjam := h.shape
  · exact .inl ⟨hord, fun e he => by have := h.recent e he; omega⟩
  · exact .inr ⟨hjam, h.recent⟩

theorem loose_recent (h : Loose next total l) (he : e ∈ l) : next ≤ e.1 + 32769 := by
  obtain ⟨-, hrec⟩ | ⟨-, hrec⟩ := h.shape
  · exact hrec e he
  have hle := hrec e he
  omega

/-- A packet with the low bits of `next` is the packet `next`. -/
theorem loose_next (h : Loose next total l) (hnear : total < next + 32768) (he : e ∈ l)
    (hseq : e.2.seq = serial next) : e.1 = next := by
  have hrec := loose_recent h he
  have hbel := h.below e he
  rw [h.seq e he] at hseq
  exact (same_iff (by omega) (by omega)).mp hseq

theorem received_next (h : Loose next total l) (he : e ∈ l) (hnext : e.1 = next) :
    Received next total l := by
  obtain ⟨hord, -⟩ | ⟨hjam, -⟩ := h.shape
  · refine ⟨h.seq, fun a ha => ?_, h.below, .inl hord⟩
    cases hl : l.head? with
    | none =>
      rw [head?_eq_none_iff.mp hl] at he
      cases he
    | some first =>
      have hE := ordered_first hord hl he
      have hA := ordered_first hord hl ha
      omega
  · exact absurd hnext (hjam.missing e he)

theorem dropWhile_jammed (h : Jammed next l) : l.dropWhile (fun e => decide (e.1 < next)) = l := by
  obtain ⟨first, last, hfst, -, hlt, -⟩ := h.ends
  cases l with
  | nil => cases hfst
  | cons a rest =>
    cases hfst
    rw [dropWhile_cons, if_neg (by simp only [decide_eq_true_eq]; omega)]

theorem received_dropWhile (h : Loose next total l) :
    Received next total (l.dropWhile (fun e => decide (e.1 < next))) := by
  obtain ⟨hord, -⟩ | ⟨hjam, hrec⟩ := h.shape
  · have hsub := dropWhile_sublist (l := l) (fun e => decide (e.1 < next))
    exact ⟨fun e he => h.seq e (hsub.subset he),
      fun e he => Nat.le_add_right_of_le (ordered_dropWhile hord e he),
      fun e he => h.below e (hsub.subset he), .inl (hord.sublist hsub)⟩
  rw [dropWhile_jammed hjam]
  exact ⟨h.seq, hrec, h.below, .inr hjam⟩

theorem holds_dropWhile (h : Holds o next part l) :
    Holds o next part (l.dropWhile (fun e => decide (e.1 < next))) := by
  have hsub := dropWhile_subset (l := l) (fun e => decide (e.1 < next))
  refine ⟨fun e he => h.carries e (hsub he), fun e he => h.later e (hsub he),
    fun e he => h.current e (hsub he), fun hmis => h.absent (fun e he heq => ?_)⟩
  rw [← takeWhile_append_dropWhile (p := fun e : Nat × Packet => decide (e.1 < next)) (l := l)] at he
  obtain he | he := mem_append.mp he
  · have hlt := mem_takeWhile_imp he
    simp only [decide_eq_true_eq] at hlt
    omega
  · exact hmis e he heq

/-- The loop over received packets is about to look for the packet `next`. -/
structure Ready (o : Outgoing) (next : Nat) (part : List UInt8) (s : Sock) (l : Numbered) :
    Prop where
  nextSeq : s.rx.nextSeq = serial next
  packets : s.rx.packets = l.map Prod.snd
  loose : Loose next o.queued.length l
  holds : Holds o next part l

/-- The loop over received packets has come to a call of the handler. -/
structure Called (o : Outgoing) (next : Nat) (part : List UInt8) (remote : Bool) (after : Sock)
    (phase : Phase) : Prop where
  nextSeq : after.rx.nextSeq = serial next
  window : ∃ l, after.rx.packets = l.map Prod.snd ∧ Received next o.queued.length l ∧ Holds o next part l
  phase : ∀ index, phase = .inHandler index →
    ∃ p, after.rx.packets[index]? = some p ∧ p.seq = after.rx.nextSeq
  shutdown : after.state.shutdownRemote = true → remote = true ∨ o.shutdownAt = some next

theorem called_free (h : Ready o next part s l) (hnear : o.queued.length < next + 32768) :
    Called o next part s.state.shutdownRemote (freeDelivered s) .finishing := by
  refine ⟨h.nextSeq, ⟨_, ?_, received_dropWhile h.loose, holds_dropWhile h.holds⟩, nofun, .inl⟩
  simp only [freeDelivered, freeAckedPackets]
  rw [h.nextSeq, serial_sub_one, h.packets]
  refine dropWhile_isAcked h.loose.seq (fun e he => loose_recent h.loose he) (fun e he => ?_)
  have hbel := h.loose.below e he
  omega

theorem called_rxLoop (h : Ready o next part s l) (hnear : o.queued.length < next + 32768)
    (idx : Nat) :
    Called o next part s.state.shutdownRemote (rxLoop s idx).1 (rxLoop s idx).2 := by
  rw [rxLoop]
  split
  · exact called_free h hnear
  next p hp =>
  split
  · next hseq =>
    have hmem : ∃ e ∈ l, e.2 = p := by
      have hin := mem_of_getElem? hp
      rw [h.packets] at hin
      exact mem_map.mp hin
    obtain ⟨e, he, rfl⟩ := hmem
    have hnext := loose_next h.loose hnear he (hseq.trans h.nextSeq)
    refine ⟨h.nextSeq, ⟨l, h.packets, received_next h.loose he hnext, h.holds⟩, ?_, ?_⟩
    · intro i hi
      cases hi
      exact ⟨e.2, hp, hseq⟩
    intro hrem
    simp only [Bool.or_eq_true] at hrem
    refine hrem.imp_right (fun hflag => ?_)
    rw [← hnext]
    exact (h.holds.carries e he).shutdown.mp hflag
  · exact called_free h hnear

/-- The numbers given out are less than `2 ^ 15` ahead of those delivered. -/
def Near (o : Outgoing) (i : Incoming) : Prop :=
  o.queued.length < i.delivered.length + 32768

/-- A call of the handler leaves the receiving end in order. -/
theorem receiver_called {e e' : Endpoint} (h : Receiver o e.incoming)
    (hdel : e'.delivered <+: o.queued) (hle : e.delivered.length ≤ e'.delivered.length)
    (hcsm : e'.consumed = e'.delivered.flatten ++ part)
    (hcld : Called o e'.delivered.length part e.sock.state.shutdownRemote e'.sock e'.phase) :
    Receiver o e'.incoming := by
  obtain ⟨l, hl, hrcv, hhl⟩ := hcld.window
  refine ⟨hcld.nextSeq, hdel, ⟨l, part, hl, hrcv, hhl, hcsm⟩, hcld.phase, fun hrem => ?_⟩
  obtain hrem | hnow := hcld.shutdown hrem
  · obtain ⟨n, hn, hle'⟩ := h.shutdown hrem
    exact ⟨n, hn, le_trans hle' hle⟩
  · exact ⟨_, hnow, le_rfl⟩

theorem receiver_start {e : Endpoint} (h : Receiver o e.incoming) (hnear : Near o e.incoming)
    (now : Int) :
    Receiver o (e.start now).incoming ∧ (e.start now).delivered = e.delivered ∧
      ((e.start now).sock.state.shutdownRemote = true →
        e.sock.state.shutdownRemote = true ∨ o.shutdownAt = some e.delivered.length) := by
  rw [Endpoint.start]
  split
  · next hidle =>
    obtain ⟨l, part, hpk, hrcv, hhl, hcsm⟩ := h.window
    obtain hst | hst | ⟨-, hst⟩ := MspTable.processSockStart_cases now e.sock
    · rw [hst]
      exact ⟨{ h with phase := nofun }, rfl, .inl⟩
    · rw [hst]
      exact ⟨{ h with phase := nofun }, rfl, .inl⟩
    rw [hst]
    have hrdy : Ready o e.delivered.length part e.sock l :=
      ⟨h.nextSeq, hpk, loose_received hrcv, hhl⟩
    have hcld := called_rxLoop hrdy hnear 0
    exact ⟨receiver_called h h.delivered le_rfl hcsm hcld, rfl, hcld.shutdown⟩
  · exact ⟨h, rfl, .inl⟩

theorem forall_mem_set {P : Nat × Packet → Prop} {l : List (Nat × Packet)} (h : ∀ a ∈ l, P a)
    (he : P e) : ∀ a ∈ l.set index e, P a :=
  fun a ha => (mem_or_eq_of_mem_set ha).elim (h a) fun heq => heq ▸ he

theorem ordered_set (h : Ordered l) {index : Nat} (he : l[index]? = some e) (heq : e'.1 = e.1) :
    Ordered (l.set index e') := by
  have hnum : (l.set index e').map Prod.fst = l.map Prod.fst := by
    obtain ⟨hlt, rfl⟩ := List.getElem?_eq_some_iff.mp he
    have hsame := set_getElem_self (show index < (l.map Prod.fst).length by simpa using hlt)
    rwa [getElem_map, ← heq, ← map_set] at hsame
  have hpairs : (l.map Prod.fst).Pairwise (fun a b => a < b ∧ b ≤ a + 32768) :=
    pairwise_map.mpr h
  rw [← hnum] at hpairs
  exact pairwise_map.mp hpairs

theorem ordered_inj (h : Ordered l) (ha : a ∈ l) (hb : b ∈ l) (heq : a.1 = b.1) : a = b := by
  have hnd : (l.map Prod.fst).Nodup :=
    pairwise_map.mpr (h.imp (fun hlt => ne_of_lt hlt.1))
  exact inj_on_of_nodup_map hnd ha hb heq

def advanced (s : Sock) (index : Nat) (p : Packet) (nconsumed : Nat) : Sock :=
  { s with rx := { s.rx with
    packets := s.rx.packets.set index { p with offset := p.offset + nconsumed } } }

def nextExpected (s : Sock) : Sock :=
  { s with rx := { s.rx with nextSeq := s.rx.nextSeq + 1 } }

/-- The handler has consumed a part of the packet `next`. -/
theorem ready_part (nc : Nat) (h : Ready o next part s l) (hord : Ordered l)
    (hl : l[index]? = some (next, p)) :
    Ready o next (part ++ (p.payload.drop p.offset).take nc)
      (advanced s index p nc) (l.set index (next, { p with offset := p.offset + nc })) := by
  have hin : (next, p) ∈ l := mem_of_getElem? hl
  have hpart : part ++ (p.payload.drop p.offset).take nc =
      p.payload.take (p.offset + nc) := by
    rw [h.holds.current _ hin rfl, take_add]
  have hnew := ordered_set hord hl
    (show (next, { p with offset := p.offset + nc }).1 = (next, p).1 from rfl)
  have hnewIn : (next, { p with offset := p.offset + nc }) ∈
      l.set index (next, { p with offset := p.offset + nc }) := by
    obtain ⟨hlt, -⟩ := List.getElem?_eq_some_iff.mp hl
    exact mem_set hlt _
  constructor
  · exact h.nextSeq
  · simp [advanced, h.packets]
  · exact ⟨forall_mem_set h.loose.seq (h.loose.seq (next, p) hin),
      forall_mem_set h.loose.below (h.loose.below (next, p) hin), .inl ⟨hnew,
      forall_mem_set (fun e he => loose_recent h.loose he) (loose_recent (e := (next, p)) h.loose hin)⟩⟩
  refine ⟨forall_mem_set h.holds.carries (h.holds.carries (next, p) hin),
    forall_mem_set h.holds.later fun hlt => absurd hlt (lt_irrefl _), fun e he heq => ?_,
    fun hmis => ?_⟩
  · rw [ordered_inj hnew he hnewIn heq]
    exact hpart
  · exact absurd rfl (hmis _ hnewIn)

/-- The packet `next` is consumed completely. -/
theorem ready_next (h : Ready o next part s l) (hord : Ordered l)
    (hrec : ∀ e ∈ l, next ≤ e.1 + 32768) :
    Ready o (next + 1) [] (nextExpected s) l := by
  constructor
  · simp only [nextExpected, h.nextSeq]
    exact serial_add_one next
  · exact h.packets
  · refine ⟨h.loose.seq, h.loose.below, .inl ⟨hord, fun e he => ?_⟩⟩
    have hle := hrec e he
    omega
  refine ⟨h.holds.carries, fun e he hlt => h.holds.later e he (by omega), fun e he heq => ?_,
    fun _ => rfl⟩
  rw [h.holds.later e he (by omega), take_zero]

theorem handlerReturned_cases (hp : s.rx.packets[idx]? = some p)
    (h : handlerReturned nc idx s = .ok (s', ph)) :
    (nc = 0 ∧ s' = freeDelivered s ∧ ph = .finishing) ∨
    ((s', ph) = rxLoop (advanced s idx p nc) idx) ∨
    (p.payload.length ≤ p.offset + nc ∧
      (s', ph) = rxLoop (nextExpected (advanced s idx p nc)) (idx + 1)) := by
  rw [handlerReturned, hp] at h
  simp only at h
  split at h
  · cases h
  split at h
  · next hzero =>
    cases h
    exact .inl ⟨hzero.1, rfl, rfl⟩
  split at h
  · exact .inr (.inl (Except.ok.inj h).symm)
  · next hfull => exact .inr (.inr ⟨Nat.not_lt.mp hfull, (Except.ok.inj h).symm⟩)

theorem prefix_snoc {α : Type} {xs ys : List α} {y : α} (h : xs <+: ys)
    (hy : ys[xs.length]? = some y) : xs ++ [y] <+: ys := by
  obtain ⟨rest, rfl⟩ := h
  rw [getElem?_append_right le_rfl, Nat.sub_self] at hy
  cases rest with
  | nil => cases hy
  | cons z rest =>
    cases hy
    exact ⟨rest, by simp⟩

theorem receiver_handlerReturns {e e' : Endpoint} {nc : Nat} (h : Receiver o e.incoming)
    (hnear : Near o e.incoming) (hstep : e.handlerReturns nc = .ok e') :
    Receiver o e'.incoming ∧ e.delivered <+: e'.delivered ∧ (e'.sock.state.shutdownRemote = true →
        e.sock.state.shutdownRemote = true ∨ o.shutdownAt = some e'.delivered.length) := by
  rw [Endpoint.handlerReturns] at hstep
  split at hstep
  · next index hph =>
    obtain ⟨p, hp, hseq⟩ := h.phase index hph
    obtain ⟨l, part, hpk, hrcv, hhl, hcsm⟩ := h.window
    change e.sock.rx.packets[index]? = some p at hp
    rw [hp] at hstep
    cases hret : handlerReturned nc index e.sock with
    | error a =>
      rw [hret] at hstep
      cases hstep
    | ok r =>
      obtain ⟨s', ph⟩ := r
      rw [hret] at hstep
      cases hstep
      have hrdy : Ready o e.delivered.length part e.sock l :=
        ⟨h.nextSeq, hpk, loose_received hrcv, hhl⟩
      have hl : l[index]? = some (e.delivered.length, p) := by
        rw [hrdy.packets, getElem?_map] at hp
        obtain ⟨⟨n, p'⟩, hl, rfl⟩ := Option.map_eq_some_iff.mp hp
        have hn := loose_next hrdy.loose hnear (mem_of_getElem? hl) (hseq.trans h.nextSeq)
        rw [hl, ← hn]
      have hin := mem_of_getElem? hl
      have hord : Ordered l :=
        hrcv.shape.resolve_right (fun hjam => hjam.missing _ hin rfl)
      have hpart := ready_part nc hrdy hord hl
      obtain ⟨rfl, rfl, rfl⟩ | hloop | ⟨hfull, hloop⟩ := handlerReturned_cases hp hret
      · have hcld := called_free hrdy hnear
        rw [if_pos (show (freeDelivered e.sock).rx.nextSeq = e.sock.rx.nextSeq from rfl),
          take_zero, append_nil]
        exact ⟨receiver_called h h.delivered le_rfl hcsm hcld, prefix_refl _, hcld.shutdown⟩
      · have hcld := called_rxLoop hpart hnear index
        rw [← hloop] at hcld
        have hseq' : s'.rx.nextSeq = e.sock.rx.nextSeq := hcld.nextSeq.trans h.nextSeq.symm
        rw [if_pos hseq']
        refine ⟨receiver_called h h.delivered le_rfl ?_ hcld, prefix_refl _, hcld.shutdown⟩
        rw [show e.consumed = e.delivered.flatten ++ part from hcsm, append_assoc]
      have hrec : ∀ a ∈ l.set index (e.delivered.length, { p with offset := p.offset + nc }),
          e.delivered.length ≤ a.1 + 32768 :=
        forall_mem_set hrcv.recent (Nat.le_add_right _ _)
      have hnext := ready_next hpart (ordered_set hord hl rfl) hrec
      have hcld := called_rxLoop hnext (lt_of_lt_of_le hnear (by simp [Endpoint.incoming]))
        (index + 1)
      rw [← hloop] at hcld
      have hseq' : s'.rx.nextSeq ≠ e.sock.rx.nextSeq := by
        rw [hcld.nextSeq, show e.sock.rx.nextSeq = _ from h.nextSeq, Ne, serial_eq_iff]
        simp only [Endpoint.incoming]
        omega
      rw [if_neg hseq']
      have hsnoc : e.delivered ++ [p.payload] <+: o.queued :=
        prefix_snoc h.delivered (hhl.carries _ hin).queued
      have hlen : (e.delivered ++ [p.payload]).length = e.delivered.length + 1 := by simp
      rw [← hlen] at hcld
      refine ⟨receiver_called h hsnoc (by simp) ?_ hcld, prefix_append _ _, hcld.shutdown⟩
      have hcur := hhl.current _ hin rfl
      rw [show e.consumed = e.delivered.flatten ++ part from hcsm, append_assoc,
        hcur, ← take_add, take_of_length_le hfull]
      simp
  · cases hstep
    exact ⟨h, prefix_refl _, .inl⟩

/-! ## Datagrams that arrive -/

/-- A packet with the number `next` in a received window is alone. -/
theorem received_alone {pre after : Numbered} (h : Received next total (pre ++ e :: after))
    (hnext : e.1 = next) : ∀ a ∈ pre ++ after, a.1 ≠ next := by
  have hord : Ordered (pre ++ e :: after) :=
    h.shape.resolve_right (fun hjam => hjam.missing e (by simp) hnext)
  obtain ⟨-, hback, hacr⟩ := pairwise_append.mp hord
  intro a ha
  obtain ha | ha := mem_append.mp ha
  · have hlt := hacr a ha e mem_cons_self
    omega
  have hlt := (pairwise_cons.mp hback).1 a ha
  omega

theorem holds_place {pre after : Numbered} {pl : List UInt8}
    (h : Holds o next part (pre ++ after)) (hcar : Carries o m flags pl)
    (hrcv : Received next total (pre ++ (m, newPacket (serial m) flags pl) :: after)) :
    Holds o next part (pre ++ (m, newPacket (serial m) flags pl) :: after) := by
  refine ⟨forall_mem_place h.carries hcar, forall_mem_place h.later (fun _ => rfl),
    forall_mem_place h.current (fun hnext => ?_), fun hmis => h.absent (fun e he => ?_)⟩
  · exact h.absent (received_alone hrcv hnext)
  apply hmis e
  obtain he | he := mem_append.mp he
  · exact mem_append_left _ he
  · exact mem_append_right _ (mem_cons_of_mem _ he)

theorem receiver_extends (h : Receiver o i) (hext : Extends o o') : Receiver o' i := by
  obtain ⟨l, part, hpk, hrcv, hhl, hcsm⟩ := h.window
  refine ⟨h.nextSeq, h.delivered.trans hext.queued, ⟨l, part, hpk,
    received_mono hrcv hext.queued.length_le, ?_, hcsm⟩, h.phase, fun hrem => ?_⟩
  · exact ⟨fun e he => carries_extends hext (hhl.carries e he), hhl.later, hhl.current,
      hhl.absent⟩
  obtain ⟨n, hn, hle⟩ := h.shutdown hrem
  exact ⟨n, hext.kept n hn, hle⟩

theorem receiver_receive {e : Endpoint} (h : Receiver o e.incoming) (hnear : Near o e.incoming)
    (hidle : e.phase = .idle) (htru : Truthful o d)
    (hint : ∀ n ∈ d.seq, o.queued.length ≤ n + 32768) (now : Int) :
    Receiver o (e.receive now d).incoming ∧ (e.receive now d).delivered = e.delivered ∧
      (e.receive now d).sock.state.shutdownRemote = e.sock.state.shutdownRemote := by
  rw [Endpoint.receive]
  split
  · exact ⟨h, rfl, rfl⟩
  next flags _ _ =>
  obtain ⟨-, hrx, -, hrem⟩ := processed_receivePacket now flags d.bytes e.sock
  generalize (receivePacket now flags d.bytes e.sock).1 = s' at hrx hrem
  have hph : ∀ idx, e.phase = .inHandler idx →
      ∃ p, s'.rx.packets[idx]? = some p ∧ p.seq = s'.rx.nextSeq := by
    rw [hidle]
    exact nofun
  have hshut : s'.state.shutdownRemote = true → ∃ n, o.shutdownAt = some n ∧
      n ≤ e.delivered.length := fun hset => h.shutdown (hrem.symm.trans hset)
  obtain ⟨l, part, hpk, hrcv, hhl, hcsm⟩ := h.window
  have hkept : s'.rx = e.sock.rx → Receiver o ⟨s'.rx, s'.state.shutdownRemote, e.phase,
      e.consumed, e.delivered⟩ := by
    intro hsame
    refine ⟨(congrArg Window.nextSeq hsame).trans h.nextSeq, h.delivered, ?_, hph, hshut⟩
    exact ⟨l, part, (congrArg Window.packets hsame).trans hpk, hrcv, hhl, hcsm⟩
  obtain hsame | ⟨flags', a, b, low, high, payload, hbs, hadd⟩ := hrx
  · exact ⟨hkept hsame, rfl, hrem⟩
  obtain ⟨n, hseq, hread, hcar⟩ := htru _ _ _ _ _ _ hbs
  rw [hread] at hadd
  obtain hsame | ⟨before, after, rfl, hplc, hrcv'⟩ :=
    addPacket_received flags' payload hnear h.delivered.length_le
      ⟨(List.getElem?_eq_some_iff.mp hcar.queued).1, hint n hseq⟩ hpk hrcv
  · exact ⟨hkept (hadd.trans hsame), rfl, hrem⟩
  have hrx := hadd.trans hplc
  refine ⟨⟨(congrArg Window.nextSeq hrx).trans h.nextSeq, h.delivered, ?_, hph, hshut⟩, rfl, hrem⟩
  exact ⟨_, part, congrArg Window.packets hrx, hrcv', holds_place hhl hcar hrcv', hcsm⟩

end MspReceiver
