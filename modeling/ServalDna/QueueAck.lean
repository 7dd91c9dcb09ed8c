import Mathlib.Data.List.Induction
import ServalDna.HistoryMask

/-!
# Acknowledged frames

A sender numbers its packets to a destination and keeps every frame until a packet
with it is acknowledged. The receiver remembers the packets that have reached it and
reports 8 bits of the highest number and 32 bits of history. A frame is taken off the
queue when its packet shows in the report. This is right as long as sender, receiver
and reports do not drift too far apart for 8 bits, and as long as every frame that
notes the number of a packet is in that packet: a frame that opens a packet and then
does not fit notes the number as well.
-/
namespace QueueAck

open HistoryMask List Option

/-! ## The receiver -/

/-- What the receiver keeps of a link; `none` stands for -1. -/
structure LinkIn where
  ackSequence : Option UInt8
  ackMask : BitVec 64
  deriving DecidableEq

def LinkIn.new : LinkIn := ⟨none, 0#64⟩

/-- The loop over the numbers from `ackSequence` up to `senderSeq`; it comes round to
`senderSeq` in at most 256 passes. -/
def countMissed (senderSeq : UInt8) : Nat → UInt8 → BitVec 64 → BitVec 64
  | 0, _, mask => mask
  | passes + 1, ackSequence, mask =>
    if ackSequence + 1 = senderSeq then mask
    else countMissed senderSeq passes (ackSequence + 1) (mask <<< 1)

/-- The return value tells whether the packet is a duplicate. -/
def linkReceivedPacket (link : LinkIn) (senderSeq : UInt8) : Bool × LinkIn :=
  match link.ackSequence with
  | none => (false, { link with ackSequence := some senderSeq })
  | some ack =>
    let offset := (ack - 1 - senderSeq).toNat
    if offset < 64 then
      if link.ackMask.getLsbD offset then (true, link)
      else (false, { link with ackMask := mark link.ackMask offset })
    else
      (false, ⟨some senderSeq, countMissed senderSeq 256 ack ((link.ackMask <<< 1) ||| 1#64)⟩)

theorem countMissed_eq (ps : Nat) (ack : UInt8) (mask : BitVec 64)
    (h : (seq - ack - 1).toNat < ps) :
    countMissed seq ps ack mask = mask <<< (seq - ack - 1).toNat := by
  induction ps generalizing ack mask with
  | zero => omega
  | succ ps ih =>
    rw [countMissed]
    split
    · next heq =>
      have hzero : (seq - ack - 1).toNat = 0 := by
        have hack := ack.toNat_lt
        rw [← heq]
        simp only [UInt8.toNat_sub, UInt8.toNat_add, UInt8.toNat_one]
        omega
      rw [hzero, BitVec.shiftLeft_zero]
    next hne =>
    have hdown : (seq - (ack + 1) - 1).toNat + 1 = (seq - ack - 1).toNat := by
      have hnat : ¬(ack + 1).toNat = seq.toNat := fun heq => hne (UInt8.toNat_inj.mp heq)
      have hlt := seq.toNat_lt
      have hack := ack.toNat_lt
      simp only [UInt8.toNat_sub, UInt8.toNat_add, UInt8.toNat_one] at hnat ⊢
      omega
    rw [ih (ack + 1) (mask <<< 1) (by omega), ← BitVec.shiftLeft_add, ← hdown, Nat.add_comm 1]

/-- The packets with the numbers in `seen` have reached the receiver. -/
inductive Sees : LinkIn → Set Nat → Prop where
  | fresh : Sees .new ∅
  | heard (mask : BitVec 64) (head : Nat) (seen : Set Nat) (mem : head ∈ seen)
      (le : ∀ m ∈ seen, m ≤ head) (sound : Sound mask head seen) :
      Sees ⟨some (UInt8.ofNat head), mask⟩ seen

section Heard

variable {link : LinkIn} {head n : Nat} (hhead : link.ackSequence = some (UInt8.ofNat head))

include hhead

theorem received_behind (hlt : n < head) (hnear : head ≤ n + 64) :
    linkReceivedPacket link (UInt8.ofNat n) = if link.ackMask.getLsbD (head - n - 1) then (true, link)
      else (false, { link with ackMask := mark link.ackMask (head - n - 1) }) := by
  have hoff := distance_toNat hlt (by omega)
  simp only [linkReceivedPacket, hhead, hoff, if_pos (show head - n - 1 < 64 by omega)]

theorem received_ahead (hgt : head < n) (hfar : n ≤ head + 191) :
    linkReceivedPacket link (UInt8.ofNat n) =
      (false, ⟨some (UInt8.ofNat n), push link.ackMask (n - head - 1)⟩) := by
  have hoff := distance_swap_toNat (le_of_lt hgt) (by omega)
  simp only [linkReceivedPacket, hhead, hoff, if_neg (show ¬255 - (n - head) < 64 by omega)]
  rw [countMissed_eq _ _ _ (UInt8.toNat_lt _), distance_up_toNat hgt (by omega)]
  rfl

/-- The highest packet once more: the loop goes all the way round and the mask is lost. -/
theorem received_again : linkReceivedPacket link (UInt8.ofNat head) =
    (false, ⟨some (UInt8.ofNat head), 0#64⟩) := by
  have hoff := distance_swap_toNat (Nat.le_refl head) (by omega)
  have hround : (UInt8.ofNat head - UInt8.ofNat head - 1).toNat = 255 := by
    rw [UInt8.sub_self]
    rfl
  simp only [linkReceivedPacket, hhead, hoff, Nat.sub_self, if_neg (show ¬255 - 0 < 64 by decide)]
  rw [countMissed_eq _ _ _ (UInt8.toNat_lt _), hround, BitVec.shiftLeft_eq_zero (by decide)]

end Heard

/-- A packet that is at most 64 behind and at most 191 ahead is noted rightly. -/
theorem sees_step (h : Sees link seen) (hbeh : ∀ m ∈ seen, m ≤ n + 64)
    (hah : seen = ∅ ∨ ∃ m ∈ seen, n ≤ m + 191) :
    Sees (linkReceivedPacket link (UInt8.ofNat n)).2 (insert n seen) := by
  cases h with
  | fresh =>
    apply Sees.heard 0#64 n _ (Set.mem_insert n ∅) _ Sound.zero
    intro m hm
    rcases Set.mem_insert_iff.mp hm with rfl | hm
    · exact le_rfl
    · cases hm
  | heard mask head seen hmem hle hsnd =>
    have hfar : n ≤ head + 191 := le_head_add hmem hle hah
    have hnear := hbeh head hmem
    rcases Nat.lt_trichotomy n head with hlt | rfl | hgt
    · have hins := insert_le hle le_rfl (le_of_lt hlt)
      rw [received_behind rfl hlt hnear]
      split
      · exact .heard mask head _ (Set.mem_insert_of_mem n hmem) hins
          (hsnd.mono (Set.subset_insert n seen))
      · exact .heard _ head _ (Set.mem_insert_of_mem n hmem) hins (hsnd.mark hlt)
    · rw [received_again rfl, Set.insert_eq_of_mem hmem]
      exact .heard _ n seen hmem hle Sound.zero
    have hins := insert_le hle (le_of_lt hgt) (Nat.le_refl n)
    rw [received_ahead rfl hgt hfar]
    exact .heard _ n _ (Set.mem_insert n seen) hins
      ((hsnd.push hmem hgt).mono (Set.subset_insert n seen))

/-! ### The window over a run -/

/-- The link after packets with these numbers, of which it gets 8 bits. -/
def receiveNumbers (numbers : List Nat) : LinkIn :=
  numbers.foldl (fun link n => (linkReceivedPacket link (UInt8.ofNat n)).2) .new

/-- What the window of a link has to say about the packets that were received. -/
structure Tracks (link : LinkIn) (numbers : List Nat) (head : Nat) : Prop where
  sequence : link.ackSequence = some (UInt8.ofNat head)
  mask : Exact link.ackMask head { m | m ∈ numbers }

/-- The window is right after every packet, and a duplicate is found out and changes nothing. -/
structure ExactRun (numbers : List Nat) : Prop where
  tracks : ∀ before after, numbers = before ++ after → ∀ head, Highest before head →
    Tracks (receiveNumbers before) before head
  duplicate : ∀ before n after, numbers = before ++ n :: after → n ∈ before →
    linkReceivedPacket (receiveNumbers before) (UInt8.ofNat n) = (true, receiveNumbers before)

theorem receiveNumbers_append : receiveNumbers (nums ++ [n]) =
      (linkReceivedPacket (receiveNumbers nums) (UInt8.ofNat n)).2 := by
  simp [receiveNumbers]

/-- A number in reach is added to those seen; one that was seen changes nothing. -/
theorem tracks_step {head n : Nat} (h : Tracks link nums head) (hhead : Highest nums head) (hne : n ≠ head)
    (hnear : head ≤ n + 64) (hfar : n ≤ head + 191) :
    Tracks (linkReceivedPacket link (UInt8.ofNat n)).2 (nums ++ [n]) (max head n) ∧
      (n ∈ nums → linkReceivedPacket link (UInt8.ofNat n) = (true, link)) := by
  obtain ⟨hsnd, hcom⟩ := exact_iff.mp h.mask
  rcases Nat.lt_or_gt_of_ne hne with hlt | hgt
  · have hbit := mem_iff hsnd hcom hlt hnear
    rw [received_behind h.sequence hlt hnear, max_eq_left (le_of_lt hlt)]
    split
    · next hset =>
      refine ⟨⟨h.sequence, ?_⟩, fun _ => rfl⟩
      rw [setOf_concat, Set.insert_eq_of_mem (hbit.mp hset)]
      exact h.mask
    next hclr =>
    refine ⟨⟨h.sequence, ?_⟩, fun hmem => absurd (hbit.mpr hmem) hclr⟩
    rw [setOf_concat]
    exact exact_iff.mpr ⟨hsnd.mark hlt, hcom.mark⟩
  rw [received_ahead h.sequence hgt hfar, max_eq_right (le_of_lt hgt)]
  refine ⟨⟨rfl, ?_⟩, fun hmem => absurd (hhead.2 n hmem) (Nat.not_le.mpr hgt)⟩
  rw [setOf_concat]
  have hmore := (hsnd.push hhead.1 hgt).mono (Set.subset_insert n _)
  exact exact_iff.mpr ⟨hmore, hcom.push hhead.2 hgt⟩

theorem tracks_first : Tracks (receiveNumbers [n]) [n] n := by
  refine ⟨rfl, exact_iff.mpr ⟨Sound.zero, ?_⟩⟩
  intro m hm hlt
  rw [mem_singleton.mp hm] at hlt
  omega

/-- No packet has the number of the highest before it. -/
def NoRepeat (numbers : List Nat) : Prop :=
  ∀ before n after, numbers = before ++ n :: after → ¬ Highest before n

theorem NoRepeat.left (h : NoRepeat (before ++ rest)) : NoRepeat before := by
  rintro first n rest' rfl
  exact h first n (rest' ++ rest) (by simp)

/-- The receiver tracks all numbers that stay in its window. -/
theorem tracks_run (hwin : InWindow numbers) (hnew : NoRepeat numbers) :
    numbers = [] ∨ ∃ head, Highest numbers head ∧ Tracks (receiveNumbers numbers) numbers head := by
  induction numbers using List.reverseRecOn with
  | nil => exact .inl rfl
  | append_singleton numbers n ih =>
    right
    rcases ih hwin.left hnew.left with rfl | ⟨head, hhead, htr⟩
    · exact ⟨n, ⟨mem_singleton_self n, by simp⟩, tracks_first⟩
    obtain ⟨hnear, hfar⟩ := hwin numbers n [] rfl head hhead
    have hne : n ≠ head := by
      rintro rfl
      exact hnew numbers n [] rfl hhead
    rw [receiveNumbers_append]
    exact ⟨max head n, hhead.concat n, (tracks_step htr hhead hne hnear hfar).1⟩

/-- The window is exact as long as the highest packet does not arrive again. -/
theorem ack_window_exact_iff (hwindow : InWindow numbers) : ExactRun numbers ↔ NoRepeat numbers := by
  constructor
  · intro h before n after heq hhead
    have htr := h.tracks before (n :: after) heq n hhead
    have hfnd := h.duplicate before n after heq hhead.1
    rw [received_again htr.sequence] at hfnd
    cases hfnd
  intro hnew
  constructor
  · rintro before after rfl head hhead
    rcases tracks_run hwindow.left hnew.left with rfl | ⟨head', hhead', htr⟩
    · cases hhead.1
    rw [hhead.unique hhead']
    exact htr
  rintro before n after rfl hmem
  rcases tracks_run hwindow.left hnew.left with rfl | ⟨head, hhead, htr⟩
  · cases hmem
  obtain ⟨hnear, hfar⟩ := hwindow before n after rfl head hhead
  have hne : n ≠ head := by
    rintro rfl
    exact hnew before n after rfl hhead
  exact (tracks_step htr hhead hne hnear hfar).2 hmem

/-- A packet comes late and then once more. -/
theorem ack_window_exact_three : InWindow [70, 6, 6] ∧ ExactRun [70, 6, 6] := by
  refine ⟨inWindow_late, (ack_window_exact_iff inWindow_late).mpr ?_⟩
  rintro pre n after heq ⟨hmem, hle⟩
  rcases pre with _ | ⟨a, _ | ⟨b, _ | ⟨c, pre⟩⟩⟩ <;> simp at heq hmem hle <;> omega

/-- The highest packet arrives twice, and the one before it is forgotten. -/
theorem ack_window_lost : ¬ ExactRun [1, 2, 2] ∧ (receiveNumbers [1, 2]).ackMask = 1#64 ∧
    (receiveNumbers [1, 2, 2]).ackMask = 0#64 := by
  refine ⟨fun h => ?_, by decide, by decide +kernel⟩
  have hfnd := h.duplicate [1, 2] 2 [] rfl (by decide)
  revert hfnd
  decide

/-! ## The sender -/

/-- A frame on the queue. `sentSequence` is -1 (`none`) or the number of the packet that
was noted last; `packet` is the place of that packet in the list of all packets. -/
structure Frame where
  id : Nat
  sentSequence : Option UInt16
  packet : Option Nat
  deriving DecidableEq

/-- A packet and the frames it carries. -/
structure Packet where
  seq : UInt16
  frames : List Nat
  deriving DecidableEq

/-- A report of the receiver. `reached` are the packets that had reached it by then. -/
structure Ack where
  seq : UInt8
  mask : BitVec 32
  reached : List Nat
  deriving DecidableEq

/-- Whether `overlay_queue_ack` takes a frame for acknowledged. -/
def isAcked (ackSeq : UInt8) (ackMask : BitVec 32) (frameSeq : Option UInt16) : Bool :=
  match frameSeq with
  | none => false
  | some seq =>
    let delta := (ackSeq - seq.toUInt8).toNat
    delta == 0 || (delta ≤ 32 && ackMask.getLsbD (delta - 1))

def overlayQueueAck (queue : List Frame) (ack : Ack) : List Frame × List Nat :=
  (queue.filter fun f => !isAcked ack.seq ack.mask f.sentSequence,
    (queue.filter fun f => isAcked ack.seq ack.mask f.sentSequence).map (·.id))

/-- The report of `append_link_state`: the mask is cut to 32 bits, and there is no
report before a packet with a number has been heard. -/
def reportOf (link : LinkIn) (reached : List Nat) : Option Ack :=
  link.ackSequence.map fun seq => ⟨seq, link.ackMask.setWidth 32, reached⟩

/-! ## Sender, receiver and the packets and reports between them -/

structure System where
  sequenceNumber : UInt16
  queue : List Frame
  packets : List Packet
  link : LinkIn
  reached : List Nat
  acks : List Ack
  acknowledged : List Nat
  deriving DecidableEq

def System.start : System := ⟨0, [], [], .new, [], [], []⟩

/-- A frame is queued or dropped for a reason of its own. A packet is sent: the frame
that opens it notes its number, and so do the frames that are carried by it. A packet
that was sent may reach the receiver at any time, more than once or never, and the
same is true of reports and the sender. -/
inductive Event where
  | enqueue (id : Nat)
  | drop (id : Nat)
  | send (opener : Option Nat) (carried : List Nat)
  | receive (packet : Nat)
  | report
  | ack (place : Nat)
  deriving DecidableEq, Repr

def note (seq : UInt16) (packet : Nat) (noted : List Nat) (queue : List Frame) : List Frame :=
  queue.map fun f =>
    if f.id ∈ noted then { f with sentSequence := some seq, packet := some packet } else f

/-- `none` is an event that is not possible. -/
def step (s : System) : Event → Option System
  | .enqueue id => some { s with queue := s.queue ++ [⟨id, none, none⟩] }
  | .drop id => some { s with queue := s.queue.filter (·.id != id) }
  | .send opener carried =>
    let seq := s.sequenceNumber + 1
    some { s with
      sequenceNumber := seq
      packets := s.packets ++ [⟨seq, carried⟩]
      queue := note seq s.packets.length (opener.toList ++ carried) s.queue }
  | .receive k =>
    (s.packets[k]?).map fun p =>
      { s with link := (linkReceivedPacket s.link p.seq.toUInt8).2, reached := k :: s.reached }
  | .report => (reportOf s.link s.reached).map fun ack => { s with acks := s.acks ++ [ack] }
  | .ack place =>
    (s.acks[place]?).map fun ack =>
      let r := overlayQueueAck s.queue ack
      { s with queue := r.1, acknowledged := r.2 ++ s.acknowledged }

def run : System → List Event → Option System
  | s, [] => some s
  | s, e :: events => (step s e).bind (run · events)

/-- Every frame that was taken for acknowledged was in a packet that has reached the
receiver. -/
def AcknowledgedReached (s : System) : Prop :=
  ∀ id ∈ s.acknowledged, ∃ k ∈ s.reached, ∃ p ∈ s.packets[k]?, id ∈ p.frames

instance (s : System) : Decidable (AcknowledgedReached s) :=
  inferInstanceAs (Decidable (∀ id ∈ s.acknowledged, _))

/-- What keeps the numbers of 8 bits apart: the frame that opens a packet is in it; a
packet that arrives is at most 64 behind every other and at most 191 ahead of all;
and the packets that are noted on the queue are at most 255 behind and at most 223
ahead of the highest packet in a report that arrives. -/
def InReach (s : System) : Event → Prop
  | .send opener carried => ∀ f ∈ opener, f ∈ carried
  | .receive k => (∀ m ∈ s.reached, m ≤ k + 64) ∧ (s.reached = [] ∨ ∃ m ∈ s.reached, k ≤ m + 191)
  | .ack place => ∀ ack ∈ s.acks[place]?, ∀ f ∈ s.queue, ∀ n ∈ f.packet,
      (∀ m ∈ ack.reached, m ≤ n + 255) ∧ ∃ m ∈ ack.reached, n ≤ m + 223
  | _ => True

instance (s : System) : ∀ e, Decidable (InReach s e)
  | .enqueue _ => instDecidableTrue
  | .drop _ => instDecidableTrue
  | .send opener carried => inferInstanceAs (Decidable (∀ f ∈ opener, f ∈ carried))
  | .receive _ => inferInstanceAs (Decidable (_ ∧ _))
  | .report => instDecidableTrue
  | .ack place => inferInstanceAs (Decidable (∀ ack ∈ s.acks[place]?, _))

def AllInReach : System → List Event → Prop
  | _, [] => True
  | s, e :: events => InReach s e ∧ ∀ s' ∈ step s e, AllInReach s' events

instance decidableAllInReach : ∀ events s, Decidable (AllInReach s events)
  | [], _ => instDecidableTrue
  | e :: events, s =>
    haveI := decidableAllInReach events
    inferInstanceAs (Decidable (InReach s e ∧ ∀ s' ∈ step s e, AllInReach s' events))

/-! ## Runs -/

def numbersOf (places : List Nat) : Set Nat := { n | ∃ k ∈ places, n = k + 1 }

@[simp] theorem numbersOf_nil : numbersOf [] = ∅ := by
  ext n
  simp [numbersOf]

@[simp] theorem numbersOf_cons : numbersOf (k :: places) = insert (k + 1) (numbersOf places) := by
  ext n
  simp [numbersOf]

/-- What a report says. -/
structure Ack.Honest (ack : Ack) (head : Nat) : Prop where
  seq : ack.seq = UInt8.ofNat head
  mem : head ∈ numbersOf ack.reached
  le : ∀ m ∈ numbersOf ack.reached, m ≤ head
  sound : ∀ k, ack.mask.getLsbD k = true → ∃ m ∈ numbersOf ack.reached, m + k + 1 = head

/-- What holds in every run that stays in reach. -/
structure Inv (s : System) : Prop where
  counter : s.sequenceNumber = UInt16.ofNat s.packets.length
  packets : ∀ k p, s.packets[k]? = some p → p.seq = UInt16.ofNat (k + 1)
  unsent : ∀ f ∈ s.queue, f.packet = none → f.sentSequence = none
  sent : ∀ f ∈ s.queue, ∀ k, f.packet = some k → ∃ p, s.packets[k]? = some p ∧
    f.sentSequence = some p.seq ∧ f.id ∈ p.frames
  link : Sees s.link (numbersOf s.reached)
  acks : ∀ ack ∈ s.acks, (∃ head, ack.Honest head) ∧ ∀ k ∈ ack.reached, k ∈ s.reached
  acknowledged : AcknowledgedReached s

theorem inv_start : Inv .start where
  counter := rfl
  packets := nofun
  unsent := nofun
  sent := nofun
  link := by
    rw [show System.start.reached = [] from rfl, numbersOf_nil]
    exact .fresh
  acks := nofun
  acknowledged := nofun

theorem inv_enqueue {id : Nat} (h : Inv s) (hstep : step s (.enqueue id) = some s') : Inv s' := by
  cases hstep
  exact { h with
    unsent := forall_mem_append.mpr ⟨h.unsent, forall_mem_singleton.mpr fun _ => rfl⟩
    sent := forall_mem_append.mpr ⟨h.sent, forall_mem_singleton.mpr nofun⟩ }

/-- Frames that leave the queue do not matter to those that stay. -/
theorem inv_filter (keep : Frame → Bool) (h : Inv s) : Inv { s with queue := s.queue.filter keep } :=
  { h with
    unsent := fun f hf => h.unsent f (mem_filter.mp hf).1
    sent := fun f hf => h.sent f (mem_filter.mp hf).1 }

theorem inv_send (h : Inv s) (hrch : InReach s (.send opener carried))
    (hstep : step s (.send opener carried) = some s') : Inv s' := by
  cases hstep
  have hnext : s.sequenceNumber + 1 = UInt16.ofNat (s.packets.length + 1) := by
    rw [h.counter, UInt16.ofNat_add]
    rfl
  have hold : ∀ (k : Nat) (p : Packet), s.packets[k]? = some p →
      (s.packets ++ [⟨s.sequenceNumber + 1, carried⟩])[k]? = some p := by
    intro k p hp
    have hlt := (List.getElem?_eq_some_iff.mp hp).1
    rw [getElem?_append_left hlt, hp]
  have hnoted : ∀ id ∈ opener.toList ++ carried, id ∈ carried :=
    forall_mem_append.mpr ⟨fun id hid => hrch id (mem_toList.mp hid), fun _ => id⟩
  refine ⟨?_, ?_, ?_, ?_, h.link, h.acks, ?_⟩
  · rw [length_append]
    exact hnext
  · intro k p hp
    by_cases hlt : k < s.packets.length
    · rw [getElem?_append_left hlt] at hp
      exact h.packets k p hp
    have hk := (List.getElem?_eq_some_iff.mp hp).1
    rw [length_append, length_singleton] at hk
    obtain rfl : k = s.packets.length := by omega
    rw [getElem?_concat_length] at hp
    cases hp
    exact hnext
  · intro f hf hnone
    obtain ⟨g, hg, rfl⟩ := List.mem_map.mp hf
    split at hnone
    · cases hnone
    next hoth =>
    rw [if_neg hoth]
    exact h.unsent g hg hnone
  · intro f hf k hk
    obtain ⟨g, hg, rfl⟩ := List.mem_map.mp hf
    split at hk
    · next hid =>
      cases hk
      rw [if_pos hid]
      exact ⟨_, getElem?_concat_length, rfl, hnoted _ hid⟩
    next hoth =>
    rw [if_neg hoth]
    obtain ⟨p, hp, hseq, hfr⟩ := h.sent g hg k hk
    exact ⟨p, hold k p hp, hseq, hfr⟩
  intro id hid
  obtain ⟨k, hk, p, hp, hfr⟩ := h.acknowledged id hid
  exact ⟨k, hk, p, hold k p hp, hfr⟩

theorem inv_receive (h : Inv s) (hrch : InReach s (.receive k))
    (hstep : step s (.receive k) = some s') : Inv s' := by
  obtain ⟨p, hp, rfl⟩ := map_eq_some_iff.mp hstep
  refine { h with link := ?_, acks := ?_, acknowledged := ?_ }
  · simp only [h.packets k p hp, toUInt8_ofNat, numbersOf_cons]
    apply sees_step h.link
    · rintro m ⟨j, hj, rfl⟩
      have hle := hrch.1 j hj
      omega
    rcases hrch.2 with hnil | ⟨j, hj, hle⟩
    · rw [hnil]
      exact .inl numbersOf_nil
    · exact .inr ⟨j + 1, ⟨j, hj, rfl⟩, by omega⟩
  · intro ack hack
    obtain ⟨hhon, hsub⟩ := h.acks ack hack
    exact ⟨hhon, fun j hj => mem_cons_of_mem k (hsub j hj)⟩
  intro id hid
  obtain ⟨j, hj, hp'⟩ := h.acknowledged id hid
  exact ⟨j, mem_cons_of_mem k hj, hp'⟩

theorem inv_report (h : Inv s) (hstep : step s .report = some s') : Inv s' := by
  obtain ⟨ack, hack, rfl⟩ := map_eq_some_iff.mp hstep
  refine { h with acks := forall_mem_append.mpr ⟨h.acks, forall_mem_singleton.mpr ?_⟩ }
  obtain ⟨seq, hseq, rfl⟩ := map_eq_some_iff.mp hack
  refine ⟨?_, fun j hj => hj⟩
  have hlink := h.link
  generalize hseen : numbersOf s.reached = seen at hlink
  generalize s.link = link at hlink hseq
  cases hlink with
  | fresh => cases hseq
  | heard mask head _ hmem hle hsnd =>
    cases hseq
    refine ⟨head, rfl, hseen ▸ hmem, hseen ▸ hle, ?_⟩
    intro k hk
    rw [BitVec.getLsbD_setWidth, Bool.and_eq_true] at hk
    obtain ⟨m, hm, heq⟩ := hsnd k hk.2
    exact ⟨m, hseen ▸ hm, heq⟩

/-- A frame that shows in an honest report was in a packet that had reached the
receiver. -/
theorem acked_reached {ack : Ack} {head n : Nat} (h : ack.Honest head) (hbeh : head ≤ n + 255)
    (hah : n ≤ head + 223) (hack : isAcked ack.seq ack.mask (some (UInt16.ofNat n)) = true) :
    n ∈ numbersOf ack.reached := by
  simp only [isAcked, h.seq, toUInt8_ofNat, Bool.or_eq_true, Bool.and_eq_true, beq_iff_eq,
    decide_eq_true_eq] at hack
  rcases Nat.lt_or_ge head n with hlt | hge
  · have hdelta : (UInt8.ofNat head - UInt8.ofNat n).toNat = 256 - (n - head) := by
      simp only [UInt8.toNat_sub, UInt8.toNat_ofNat']
      omega
    omega
  have hdelta : (UInt8.ofNat head - UInt8.ofNat n).toNat = head - n := by
    simp only [UInt8.toNat_sub, UInt8.toNat_ofNat']
    omega
  rcases hack with hzero | ⟨_, hbit⟩
  · rw [show n = head by omega]
    exact h.mem
  rcases Nat.eq_or_lt_of_le hge with rfl | hlt
  · exact h.mem
  obtain ⟨m, hm, heq⟩ := h.sound _ hbit
  rwa [show n = m by omega]

theorem inv_ack (h : Inv s) (hrch : InReach s (.ack plc))
    (hstep : step s (.ack plc) = some s') : Inv s' := by
  obtain ⟨ack, hack, rfl⟩ := map_eq_some_iff.mp hstep
  obtain ⟨⟨head, hhon⟩, hsub⟩ := h.acks ack (mem_of_getElem? hack)
  have hfil := inv_filter (fun f => !isAcked ack.seq ack.mask f.sentSequence) h
  refine { hfil with acknowledged := ?_ }
  intro id hid
  rcases mem_append.mp hid with hid | hid
  · obtain ⟨f, hf, rfl⟩ := List.mem_map.mp hid
    obtain ⟨hque, hacke⟩ := mem_filter.mp hf
    cases hpac : f.packet with
    | none =>
      rw [h.unsent f hque hpac] at hacke
      cases hacke
    | some k =>
      obtain ⟨p, hp, hseq, hfr⟩ := h.sent f hque k hpac
      obtain ⟨hbeh, m, hm, hah⟩ := hrch ack hack f hque k hpac
      rw [hseq, h.packets k p hp] at hacke
      have hhead : head ≤ k + 1 + 255 := by
        obtain ⟨j, hj, rfl⟩ := hhon.mem
        have hle := hbeh j hj
        omega
      have hnear : k + 1 ≤ head + 223 := by
        have hle := hhon.le (m + 1) ⟨m, hm, rfl⟩
        omega
      obtain ⟨j, hj, heq⟩ := acked_reached hhon hhead hnear hacke
      obtain rfl : k = j := by omega
      exact ⟨k, hsub k hj, p, hp, hfr⟩
  · exact h.acknowledged id hid

theorem inv_step (h : Inv s) (hrch : InReach s e) (hstep : step s e = some s') : Inv s' := by
  cases e with
  | enqueue id => exact inv_enqueue h hstep
  | drop id =>
    cases hstep
    exact inv_filter _ h
  | send opener car => exact inv_send h hrch hstep
  | receive k => exact inv_receive h hrch hstep
  | report => exact inv_report h hstep
  | ack plc => exact inv_ack h hrch hstep

/-- The invariant holds along every run in reach. -/
theorem inv_run (h : Inv s) (hrch : AllInReach s evs) (hrun : run s evs = some s') : Inv s' := by
  induction evs generalizing s with
  | nil =>
    cases hrun
    exact h
  | cons e evs ih =>
    obtain ⟨s1, hstep, hrun⟩ := bind_eq_some_iff.mp hrun
    exact ih (inv_step h hrch.1 hstep) (hrch.2 s1 hstep) hrun

/-- In a run that stays in reach only frames that have reached the receiver are taken
for acknowledged. -/
theorem acknowledged_means_reached (events : List Event) (s : System)
    (hreach : AllInReach .start events) (hrun : run .start events = some s) :
    AcknowledgedReached s :=
  (inv_run inv_start hreach hrun).acknowledged

/-- The first packet is lost and the second one arrives twice, before the third. -/
def twoOfThree : List Event :=
  [.enqueue 0, .enqueue 1, .enqueue 2, .send (some 0) [0], .send (some 1) [1], .send (some 2) [2],
    .receive 1, .receive 1, .receive 2, .report, .ack 0]

theorem twoOfThree_some : (run .start twoOfThree).isSome := by decide +kernel

theorem acknowledged_means_reached_two : let s := (run .start twoOfThree).get twoOfThree_some
    s.acknowledged = [1, 2] ∧ AcknowledgedReached s :=
  ⟨by decide +kernel, acknowledged_means_reached twoOfThree _ (by decide +kernel)
    (some_get twoOfThree_some).symm⟩

/-- The packet with the frame is lost, and the packet 256 later arrives. -/
def wrapped : List Event :=
  [.enqueue 0, .send (some 0) [0]] ++ List.replicate 256 (.send none []) ++
    [.receive 256, .report, .ack 0]

def squeezed : List Event :=
  [.enqueue 0, .enqueue 1, .send (some 0) [1], .receive 0, .report, .ack 0]

/-- Frames that are taken for acknowledged and have never reached the receiver. -/
theorem unreached_acknowledged :
    (∃ s ∈ run .start wrapped, s.acknowledged = [0] ∧ ¬AcknowledgedReached s) ∧
      ∃ s ∈ run .start squeezed, s.acknowledged = [0, 1] ∧ ¬AcknowledgedReached s := by
  decide +kernel

end QueueAck
