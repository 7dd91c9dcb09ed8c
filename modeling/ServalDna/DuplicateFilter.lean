import Mathlib.Data.List.Induction
import ServalDna.HistoryMask

/-!
# Payloads that arrive more than once

A sender numbers its payloads with one counter for all of its neighbours. The lowest
8 bits of the number travel with the payload, and a payload is only sent again while
fewer than 64 others have got a number since. The receiver keeps the highest number
and a history of 64 bits. It tells duplicates from new payloads as long as no payload
that arrives is more than 191 numbers ahead; the counter is shared, so a sender that
talks to others can be as far ahead as it likes.
-/
namespace DuplicateFilter

open HistoryMask List

/-! ## The receiver -/

/-- What a neighbour's payloads are compared with; `none` stands for -1. -/
structure Neighbour where
  mdpAckSequence : Option UInt8
  mdpAckMask : BitVec 64
  deriving DecidableEq

def Neighbour.new : Neighbour := ⟨none, 0#64⟩

/-- The return value tells whether the payload is a duplicate. The neighbour is known,
since its packet has been noted before its payloads are looked at. -/
def linkReceivedDuplicate (neighbour : Neighbour) (payloadSeq : UInt8) : Bool × Neighbour :=
  match neighbour.mdpAckSequence with
  | none => (false, { neighbour with mdpAckSequence := some payloadSeq })
  | some ack =>
    if ack = payloadSeq then (true, neighbour)
    else
      let offset := (ack - 1 - payloadSeq).toNat
      if offset < 64 then
        if neighbour.mdpAckMask.getLsbD offset then (true, neighbour)
        else (false, { neighbour with mdpAckMask := mark neighbour.mdpAckMask offset })
      else
        let offset := (payloadSeq - ack - 1).toNat
        (false, ⟨some payloadSeq, if offset ≥ 64 then 0#64 else push neighbour.mdpAckMask offset⟩)

/-- The receiver has seen the payloads with the numbers in `seen`. -/
inductive Filters : Neighbour → Set Nat → Prop where
  | fresh : Filters .new ∅
  | heard (mask : BitVec 64) (head : Nat) (seen : Set Nat) (mem : head ∈ seen)
      (le : ∀ m ∈ seen, m ≤ head) (sound : Sound mask head seen) (complete : Complete mask head seen) :
      Filters ⟨some (UInt8.ofNat head), mask⟩ seen

theorem ofNat_ne (h : m < n) (hlt : n < m + 256) : UInt8.ofNat m ≠ UInt8.ofNat n := by
  intro heq
  have hmod := congrArg UInt8.toNat heq
  simp only [UInt8.toNat_ofNat'] at hmod
  omega

section Judged

variable {head n : Nat} (hmem : head ∈ seen) (hle : ∀ m ∈ seen, m ≤ head)
  (hsnd : Sound mask head seen) (hcom : Complete mask head seen)

/-- The verdict on `n` is right, and the receiver has then seen `n` too. -/
def Judged (neighbour : Neighbour) (seen : Set Nat) (n : Nat) : Prop :=
  ((linkReceivedDuplicate neighbour (UInt8.ofNat n)).1 = true ↔ n ∈ seen) ∧
    Filters (linkReceivedDuplicate neighbour (UInt8.ofNat n)).2 (insert n seen)

theorem judged_first : Judged .new ∅ n := by
  refine ⟨by simp [linkReceivedDuplicate, Neighbour.new], ?_⟩
  apply Filters.heard 0#64 n _ (Set.mem_insert n ∅)
  · exact insert_le nofun (Nat.zero_le n) (Nat.le_refl n)
  · exact Sound.zero
  intro m hm hlt
  rcases Set.mem_insert_iff.mp hm with rfl | hm
  · omega
  · cases hm

include hmem hle hsnd hcom

theorem judged_head : Judged ⟨some (UInt8.ofNat head), mask⟩ seen head := by
  refine ⟨by simp [linkReceivedDuplicate, hmem], ?_⟩
  rw [Set.insert_eq_of_mem hmem]
  simp only [linkReceivedDuplicate, if_pos]
  exact .heard mask head seen hmem hle hsnd hcom

theorem judged_behind (hlt : n < head) (hnear : head ≤ n + 64) :
    Judged ⟨some (UInt8.ofNat head), mask⟩ seen n := by
  have hoff := distance_toNat hlt (by omega)
  have hbit := mem_iff hsnd hcom hlt (by omega)
  have hins := insert_le hle le_rfl (le_of_lt hlt)
  simp only [Judged, linkReceivedDuplicate, if_neg (ofNat_ne hlt (by omega)).symm, hoff,
    if_pos (show head - n - 1 < 64 by omega)]
  split
  · next hset =>
    have hseen := hbit.mp hset
    refine ⟨iff_of_true rfl hseen, ?_⟩
    rw [Set.insert_eq_of_mem hseen]
    exact .heard mask head seen hmem hle hsnd hcom
  next hclr =>
  refine ⟨iff_of_false Bool.false_ne_true (mt hbit.mpr hclr), ?_⟩
  exact .heard _ head _ (Set.mem_insert_of_mem n hmem) hins (hsnd.mark hlt) hcom.mark

theorem judged_ahead (hgt : head < n) (hfar : n ≤ head + 191) :
    Judged ⟨some (UInt8.ofNat head), mask⟩ seen n := by
  have hoff := distance_swap_toNat (le_of_lt hgt) (by omega)
  have hfwd := distance_up_toNat hgt (by omega)
  have hnew : n ∉ seen := fun hn => absurd (hle n hn) (Nat.not_le.mpr hgt)
  have hins := insert_le hle (le_of_lt hgt) (Nat.le_refl n)
  simp only [Judged, linkReceivedDuplicate, if_neg (ofNat_ne hgt (by omega)), hoff, hfwd,
    if_neg (show ¬255 - (n - head) < 64 by omega)]
  refine ⟨iff_of_false Bool.false_ne_true hnew, ?_⟩
  apply Filters.heard _ n _ (Set.mem_insert n seen) hins
  · split
    · exact Sound.zero
    · exact (hsnd.push hmem hgt).mono (Set.subset_insert n seen)
  split
  · exact Complete.zero hle (by omega)
  · exact hcom.push hle hgt

end Judged

/-- A number that is at most 64 behind and at most 191 ahead is judged rightly. -/
theorem filters_step (h : Filters neighbour seen) (hbeh : ∀ m ∈ seen, m ≤ n + 64)
    (hah : seen = ∅ ∨ ∃ m ∈ seen, n ≤ m + 191) : Judged neighbour seen n := by
  cases h with
  | fresh => exact judged_first
  | heard mask head seen hmem hle hsnd hcom =>
    rcases Nat.lt_trichotomy n head with hlt | rfl | hgt
    · exact judged_behind hmem hle hsnd hcom hlt (hbeh head hmem)
    · exact judged_head hmem hle hsnd hcom
    · exact judged_ahead hmem hle hsnd hcom hgt (le_head_add hmem hle hah)

/-! ## Any numbers in the window -/

/-- The receiver after payloads with these numbers, of which it gets 8 bits. -/
def receiveAll (numbers : List Nat) : Neighbour :=
  numbers.foldl (fun neighbour n => (linkReceivedDuplicate neighbour (UInt8.ofNat n)).2) .new

theorem Filters.highest (h : Filters neighbour seen) :
    seen = ∅ ∨ ∃ head ∈ seen, ∀ m ∈ seen, m ≤ head := by
  cases h with
  | fresh => exact .inl rfl
  | heard mask head seen hmem hle => exact .inr ⟨head, hmem, hle⟩

theorem Filters.exact {head : Nat} (h : Filters neighbour seen) (hmem : head ∈ seen)
    (hle : ∀ m ∈ seen, m ≤ head) : Exact neighbour.mdpAckMask head seen := by
  cases h with
  | fresh => cases hmem
  | heard mask head' seen hmem' hle' hsnd hcom =>
    obtain rfl : head = head' := le_antisymm (hle' head hmem) (hle head' hmem')
    exact exact_iff.mpr ⟨hsnd, hcom⟩

/-- The verdict on the next number is right. -/
theorem judged_next (hwin : InWindow (pre ++ n :: rest))
    (h : Filters (receiveAll pre) { m | m ∈ pre }) :
    Judged (receiveAll pre) { m | m ∈ pre } n := by
  rcases h.highest with hemp | ⟨head, hmem, hle⟩
  · exact filters_step h (by simp [hemp]) (.inl hemp)
  obtain ⟨hnear, hfar⟩ := hwin pre n rest rfl head ⟨hmem, hle⟩
  exact filters_step h (fun m hm => (hle m hm).trans hnear) (.inr ⟨head, hmem, hfar⟩)

/-- The receiver has seen just the payloads that came. -/
theorem filters_receiveAll (hwin : InWindow nums) :
    Filters (receiveAll nums) { m | m ∈ nums } := by
  induction nums using List.reverseRecOn with
  | nil =>
    rw [show { m | m ∈ ([] : List Nat) } = ∅ by ext; simp]
    exact .fresh
  | append_singleton nums n ih =>
    have hnext := (judged_next hwin (ih hwin.left)).2
    rw [receiveAll, foldl_append, setOf_concat]
    exact hnext

/-- A payload is taken for a duplicate if it is one, and the mask has the last 64 numbers. -/
theorem duplicate_window_exact (hwindow : InWindow numbers) :
    (∀ before n after, numbers = before ++ n :: after →
      ((linkReceivedDuplicate (receiveAll before) (UInt8.ofNat n)).1 = true ↔ n ∈ before)) ∧
    ∀ before after, numbers = before ++ after → ∀ head, Highest before head →
      Exact (receiveAll before).mdpAckMask head { m | m ∈ before } := by
  constructor
  · rintro before n after rfl
    exact (judged_next hwindow (filters_receiveAll hwindow.left)).1
  rintro before after rfl head ⟨hmem, hle⟩
  exact (filters_receiveAll hwindow.left).exact hmem hle

/-- A payload comes late and then once more. -/
theorem duplicate_window_exact_three : InWindow [70, 6, 6] ∧
    (linkReceivedDuplicate (receiveAll [70, 6]) (UInt8.ofNat 6)).1 = true :=
  ⟨inWindow_late, ((duplicate_window_exact inWindow_late).1 [70, 6] 6 [] rfl).mpr (by decide)⟩

/-! ## The sender and the way to the receiver -/

/-- A payload that has arrived, and whether it was rejected as a duplicate. -/
structure Delivery where
  payload : Nat
  duplicate : Bool
  deriving DecidableEq

/-- `numbers` are the numbers of the payloads, in the order in which they were given
out; a payload is named by its place in this list. The payloads on the way to the
receiver are in the order in which they were sent, and the last delivery is the
first of the log. -/
structure System where
  mdpSequence : UInt16
  numbers : List UInt16
  channel : List Nat
  neighbour : Neighbour
  log : List Delivery
  deriving DecidableEq

def System.start : System := ⟨0, [], [], .new, []⟩

/-- A payload to this neighbour or to another one gets the next number; a payload that
has a number is sent to the neighbour, for the first time or again; and what is sent
is lost or delivered. -/
inductive Event where
  | number
  | transmit (payload : Nat)
  | lose (place : Nat)
  | deliver
  deriving DecidableEq, Repr

/-- Whether `overlay_stuff_packet` drops a payload instead of sending it. -/
def tooLate (mdpSequence number : UInt16) : Bool := (mdpSequence - number).toNat ≥ 64

/-- `none` is an event that is not possible. -/
def step (s : System) : Event → Option System
  | .number => some { s with
      mdpSequence := s.mdpSequence + 1, numbers := s.numbers ++ [s.mdpSequence + 1] }
  | .transmit i =>
    match s.numbers[i]? with
    | none => none
    | some number =>
      if tooLate s.mdpSequence number then none else some { s with channel := s.channel ++ [i] }
  | .lose place => some { s with channel := s.channel.eraseIdx place }
  | .deliver =>
    match s.channel with
    | [] => none
    | i :: rest =>
      match s.numbers[i]? with
      | none => none
      | some number =>
        let r := linkReceivedDuplicate s.neighbour number.toUInt8
        some { s with channel := rest, neighbour := r.2, log := ⟨i, r.1⟩ :: s.log }

def run : System → List Event → Option System
  | s, [] => some s
  | s, e :: events => (step s e).bind (run · events)

def accepted (log : List Delivery) : List Nat :=
  (log.filter fun d => !d.duplicate).map (·.payload)

def RejectedKnown : List Delivery → Prop
  | [] => True
  | d :: log => (d.duplicate = true → d.payload ∈ log.map (·.payload)) ∧ RejectedKnown log

instance decidableRejectedKnown : ∀ log, Decidable (RejectedKnown log)
  | [] => instDecidableTrue
  | _ :: log =>
    haveI := decidableRejectedKnown log
    inferInstanceAs (Decidable (_ ∧ RejectedKnown log))

/-- What keeps the two ends in reach of each other: a payload is sent while really fewer
than 64 others have got a number since, and one that arrives is not more than 191
numbers above all that have arrived before. -/
def InReach (s : System) : Event → Prop
  | .transmit i => s.numbers.length ≤ i + 64
  | .deliver => ∀ i ∈ s.channel.head?, s.log = [] ∨ ∃ d ∈ s.log, i ≤ d.payload + 191
  | _ => True

instance (s : System) : ∀ e, Decidable (InReach s e)
  | .number => instDecidableTrue
  | .transmit i => inferInstanceAs (Decidable (s.numbers.length ≤ i + 64))
  | .lose _ => instDecidableTrue
  | .deliver => inferInstanceAs (Decidable (∀ i ∈ s.channel.head?, _))

def AllInReach : System → List Event → Prop
  | _, [] => True
  | s, e :: events => InReach s e ∧ ∀ s' ∈ step s e, AllInReach s' events

instance decidableAllInReach : ∀ events s, Decidable (AllInReach s events)
  | [], _ => instDecidableTrue
  | e :: events, s =>
    haveI := decidableAllInReach events
    inferInstanceAs (Decidable (InReach s e ∧ ∀ s' ∈ step s e, AllInReach s' events))

/-! ## Runs -/

def arrived (log : List Delivery) : Set Nat := { n | ∃ d ∈ log, n = d.payload + 1 }

@[simp] theorem arrived_nil : arrived [] = ∅ := by
  ext n
  simp [arrived]

@[simp] theorem arrived_cons : arrived (d :: log) = insert (d.payload + 1) (arrived log) := by
  ext n
  simp [arrived]

theorem mem_arrived : i + 1 ∈ arrived log ↔ i ∈ log.map (·.payload) := by
  simp only [arrived, Set.mem_ofPred_eq, mem_map]
  constructor
  · rintro ⟨d, hd, heq⟩
    exact ⟨d, hd, by omega⟩
  rintro ⟨d, hd, rfl⟩
  exact ⟨d, hd, rfl⟩

/-- What holds in every run that stays in reach. -/
structure Inv (s : System) : Prop where
  counter : s.mdpSequence = UInt16.ofNat s.numbers.length
  numbers : ∀ i, i < s.numbers.length → s.numbers[i]? = some (UInt16.ofNat (i + 1))
  known : ∀ i ∈ s.channel, i < s.numbers.length
  logged : ∀ d ∈ s.log, d.payload < s.numbers.length
  ordered : s.channel.Pairwise fun j i => j ≤ i + 63
  behind : ∀ d ∈ s.log, ∀ i ∈ s.channel, d.payload ≤ i + 63
  filters : Filters s.neighbour (arrived s.log)
  once : (accepted s.log).Nodup
  rejected : RejectedKnown s.log

theorem inv_start : Inv .start where
  counter := rfl
  numbers := nofun
  known := nofun
  logged := nofun
  ordered := List.Pairwise.nil
  behind := nofun
  filters := by
    rw [show System.start.log = [] from rfl, arrived_nil]
    exact .fresh
  once := nodup_nil
  rejected := trivial

theorem inv_number (h : Inv s) (hstep : step s .number = some s') : Inv s' := by
  cases hstep
  have hlen : (s.numbers ++ [s.mdpSequence + 1]).length = s.numbers.length + 1 := by simp
  have hnext : s.mdpSequence + 1 = UInt16.ofNat (s.numbers.length + 1) := by
    rw [h.counter, UInt16.ofNat_add]
    rfl
  refine { h with counter := ?_, numbers := ?_, known := ?_, logged := ?_ }
  · rw [hlen]
    exact hnext
  · intro i hi
    rw [hlen] at hi
    by_cases hlt : i < s.numbers.length
    · rw [getElem?_append_left hlt]
      exact h.numbers i hlt
    obtain rfl : i = s.numbers.length := by omega
    rw [getElem?_concat_length, hnext]
  · intro i hi
    have hlt := h.known i hi
    rw [hlen]
    omega
  · intro d hd
    have hlt := h.logged d hd
    rw [hlen]
    omega

theorem inv_transmit (h : Inv s) (hrch : InReach s (.transmit i))
    (hstep : step s (.transmit i) = some s') : Inv s' := by
  simp only [step] at hstep
  split at hstep
  · cases hstep
  next number hnum =>
  split at hstep <;> cases hstep
  have hlt : i < s.numbers.length := (List.getElem?_eq_some_iff.mp hnum).1
  -- everything that was sent before has a number that was given out before
  have hbef : ∀ j, j < s.numbers.length → j ≤ i + 63 := by
    intro j hj
    have hlen : s.numbers.length ≤ i + 64 := hrch
    omega
  refine { h with known := ?_, ordered := ?_, behind := ?_ }
  · exact forall_mem_append.mpr ⟨h.known, forall_mem_singleton.mpr hlt⟩
  · rw [pairwise_append]
    refine ⟨h.ordered, pairwise_singleton _ _, ?_⟩
    intro j hj k hk
    rw [mem_singleton.mp hk]
    exact hbef j (h.known j hj)
  intro d hd
  exact forall_mem_append.mpr ⟨h.behind d hd, forall_mem_singleton.mpr (hbef _ (h.logged d hd))⟩

theorem inv_lose (h : Inv s) (hstep : step s (.lose plc) = some s') : Inv s' := by
  cases hstep
  have hsub : (s.channel.eraseIdx plc).Sublist s.channel := eraseIdx_sublist _ _
  exact { h with
    known := fun i hi => h.known i (hsub.subset hi)
    ordered := h.ordered.sublist hsub
    behind := fun d hd i hi => h.behind d hd i (hsub.subset hi) }

theorem mem_accepted (h : i ∈ accepted log) : i ∈ log.map (·.payload) := by
  obtain ⟨d, hd, rfl⟩ := mem_map.mp h
  exact mem_map_of_mem (mem_filter.mp hd).1

theorem inv_deliver (h : Inv s) (hrch : InReach s .deliver) (hstep : step s .deliver = some s') :
    Inv s' := by
  simp only [step] at hstep
  split at hstep
  · cases hstep
  next i rest hcha =>
  have hi : i ∈ s.channel := by
    rw [hcha]
    exact mem_cons_self
  have hrest : ∀ j ∈ rest, j ∈ s.channel := by
    intro j hj
    rw [hcha]
    exact mem_cons_of_mem _ hj
  have hnum := h.numbers i (h.known i hi)
  rw [hnum] at hstep
  cases hstep
  have hord := h.ordered
  rw [hcha, pairwise_cons] at hord
  have hah : arrived s.log = ∅ ∨ ∃ m ∈ arrived s.log, i + 1 ≤ m + 191 := by
    rcases hrch i (by rw [hcha]; rfl) with hnil | ⟨d, hd, hle⟩
    · rw [hnil]
      exact .inl arrived_nil
    · exact .inr ⟨d.payload + 1, ⟨d, hd, rfl⟩, by omega⟩
  have hbeh : ∀ m ∈ arrived s.log, m ≤ i + 1 + 64 := by
    rintro m ⟨d, hd, rfl⟩
    have hle := h.behind d hd i hi
    omega
  obtain ⟨hver, hfil⟩ := filters_step h.filters hbeh hah
  rw [← toUInt8_ofNat, mem_arrived] at hver
  rw [← toUInt8_ofNat] at hfil
  generalize linkReceivedDuplicate s.neighbour (UInt16.ofNat (i + 1)).toUInt8 = r at hver hfil ⊢
  refine ⟨h.counter, h.numbers, fun j hj => h.known j (hrest j hj), ?_, hord.2, ?_, ?_, ?_, ?_⟩
  · exact forall_mem_cons.mpr ⟨h.known i hi, h.logged⟩
  · exact forall_mem_cons.mpr ⟨hord.1, fun d hd j hj => h.behind d hd j (hrest j hj)⟩
  · rw [arrived_cons]
    exact hfil
  · cases hr : r.1 with
    | true => simpa [accepted] using h.once
    | false =>
      have hnew : i ∉ s.log.map (·.payload) := by
        intro hmem
        rw [hver.mpr hmem] at hr
        cases hr
      have hcons : accepted (⟨i, false⟩ :: s.log) = i :: accepted s.log := rfl
      rw [hcons, nodup_cons]
      exact ⟨fun hmem => hnew (mem_accepted hmem), h.once⟩
  · exact ⟨hver.mp, h.rejected⟩

theorem inv_step (h : Inv s) (hrch : InReach s e) (hstep : step s e = some s') : Inv s' := by
  cases e with
  | number => exact inv_number h hstep
  | transmit i => exact inv_transmit h hrch hstep
  | lose plc => exact inv_lose h hstep
  | deliver => exact inv_deliver h hrch hstep

/-- The invariant holds along every run in reach. -/
theorem inv_run (h : Inv s) (hrch : AllInReach s evs) (hrun : run s evs = some s') : Inv s' := by
  induction evs generalizing s with
  | nil =>
    cases hrun
    exact h
  | cons e evs ih =>
    obtain ⟨s1, hstep, hrun⟩ := Option.bind_eq_some_iff.mp hrun
    exact ih (inv_step h hrch.1 hstep) (hrch.2 s1 hstep) hrun

/-- In a run that stays in reach no payload is accepted twice, and only payloads that
have arrived before are rejected. -/
theorem accepted_at_most_once (events : List Event) (s : System)
    (hreach : AllInReach .start events) (hrun : run .start events = some s) :
    (accepted s.log).Nodup ∧ RejectedKnown s.log := by
  have h := inv_run inv_start hreach hrun
  exact ⟨h.once, h.rejected⟩

/-- The first payload arrives, is sent again and arrives again, and the next one after
150 others arrives as well. -/
def inReachRun : List Event :=
  [.number, .transmit 0, .transmit 0, .deliver, .deliver] ++ List.replicate 150 .number ++
    [.transmit 150, .deliver]

theorem inReachRun_some : (run .start inReachRun).isSome := by decide +kernel

theorem accepted_at_most_once_two : let s := (run .start inReachRun).get inReachRun_some
    s.log = [⟨150, false⟩, ⟨0, true⟩, ⟨0, false⟩] ∧ (accepted s.log).Nodup ∧ RejectedKnown s.log :=
  ⟨by decide +kernel, accepted_at_most_once inReachRun _ (by decide +kernel)
    (Option.some_get inReachRun_some).symm⟩

/-- 190 payloads to others, then two to the neighbour. The first of them is lost and is
sent again after the second, which is then sent again too. -/
def overtaken : List Event :=
  [.number, .transmit 0, .deliver] ++ List.replicate 190 .number ++
    [.number, .transmit 191, .lose 0, .number, .transmit 192, .deliver, .transmit 191, .deliver,
      .transmit 192, .deliver]

def wrapped : List Event :=
  [.number, .transmit 0, .deliver] ++ List.replicate 256 .number ++ [.transmit 256, .deliver]

/-- A payload that is accepted twice, and one that is rejected though it has not
arrived before. -/
theorem shared_counter_confuses : (run .start overtaken).map (·.log) =
        some [⟨192, false⟩, ⟨191, false⟩, ⟨192, false⟩, ⟨0, false⟩] ∧
      (run .start wrapped).map (·.log) = some [⟨256, true⟩, ⟨0, false⟩] ∧
      ¬RejectedKnown [⟨256, true⟩, ⟨0, false⟩] := by
  decide +kernel

end DuplicateFilter
