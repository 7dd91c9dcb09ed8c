import Mathlib.Data.List.FinRange
import Mathlib.Data.UInt
import Mathlib.Logic.Function.Basic

/-!
# The table of MDP bindings

A port of 0 marks a free entry of `mdp_bindings`, while the subscriber and the client that it
had stay in place. Over all requests there is at most one live binding for a subscriber and a
port. Frames and checks that ask for port 0 find the free entries.
-/
namespace MdpBindings

open List

def maxBindings : Nat := 100

/-- How the frames of a binding are sent to its client. -/
inductive Version where
  | legacy | v2
  deriving DecidableEq

/-- One entry; without a subscriber it is for all of them. -/
structure Binding (S A : Type) where
  subscriber : Option S
  port : UInt32
  version : Version
  client : A

structure Mdp (S A : Type) where
  bindings : Fin maxBindings → Binding S A
  initialised : Bool

variable {S A : Type}

/-! ### Entries -/

def Mdp.find (s : Mdp S A) (p : Binding S A → Bool) : Option (Fin maxBindings) :=
  (List.finRange maxBindings).find? fun i => p (s.bindings i)

def Mdp.put (s : Mdp S A) (i : Fin maxBindings) (b : Binding S A) : Mdp S A :=
  { s with bindings := Function.update s.bindings i b }

def Mdp.free (s : Mdp S A) (p : Binding S A → Bool) : Mdp S A where
  bindings i := if p (s.bindings i) then { s.bindings i with port := 0 } else s.bindings i
  initialised := s.initialised

/-- At most one live binding for a subscriber and a port. -/
def Unique (s : Mdp S A) : Prop :=
  ∀ i j, (s.bindings i).port ≠ 0 → (s.bindings j).port = (s.bindings i).port →
    (s.bindings j).subscriber = (s.bindings i).subscriber → j = i

section Entries

variable {s : Mdp S A}

theorem find_some (h : s.find p = some i) : p (s.bindings i) = true :=
  find?_some (p := fun i => p (s.bindings i)) h

theorem find_none (h : s.find p = none) (i : Fin maxBindings) : p (s.bindings i) = false := by
  have hnot := find?_eq_none.mp h i (mem_finRange i)
  rwa [Bool.not_eq_true] at hnot

theorem unique_put (hs : Unique s)
    (h : ∀ j, j ≠ i → (s.bindings j).port = b.port → (s.bindings j).subscriber ≠ b.subscriber) :
    Unique (s.put i b) := by
  intro j k hlive hport hsub
  simp only [Mdp.put, Function.update_apply] at hlive hport hsub
  by_cases hj : j = i <;> by_cases hk : k = i
  · rw [hj, hk]
  · rw [if_pos hj, if_neg hk] at hport hsub
    exact absurd hsub (h k hk hport)
  · rw [if_neg hj, if_pos hk] at hport hsub
    exact absurd hsub.symm (h j hj hport.symm)
  rw [if_neg hj] at hlive
  rw [if_neg hj, if_neg hk] at hport hsub
  exact hs j k hlive hport hsub

theorem unique_free (hs : Unique s) (p : Binding S A → Bool) : Unique (s.free p) := by
  intro j k hlive hport hsub
  by_cases hj : p (s.bindings j) = true <;> by_cases hk : p (s.bindings k) = true <;>
    simp only [Mdp.free, hj, hk, Bool.false_eq_true, if_true, if_false] at hlive hport hsub
  · exact absurd rfl hlive
  · exact absurd rfl hlive
  · exact absurd hport.symm hlive
  · exact hs j k hlive hport hsub

end Entries

/-! ### Requests and frames -/

section Requests

variable [DecidableEq S] (same : A → A → Bool)

/-- `overlay_mdp_releasebindings`, for which `same` is the comparison of two addresses. Closing
all ports in `mdp_process_packet` does the same. -/
def overlayMdpReleasebindings (client : A) (s : Mdp S A) : Mdp S A :=
  s.free fun b => same b.client client

def Mdp.ready (s : Mdp S A) : Mdp S A :=
  if s.initialised then s else ⟨(s.free fun _ => true).bindings, true⟩

/-- `overlay_mdp_process_bind_request`: whether it returns 0. -/
def overlayMdpProcessBindRequest (subscriber : Option S) (port : UInt32) (force : Bool) (client : A)
    (random : Nat) (s : Mdp S A) : Bool × Mdp S A :=
  if port = 0 then (false, s)
  else
    let s := s.ready
    let record (i : Fin maxBindings) := (true, s.put i ⟨subscriber, port, .legacy, client⟩)
    match s.find fun b => b.port == port && b.subscriber == subscriber with
    | some i =>
      if same (s.bindings i).client client then (true, s)
      else if force then record i
      else (false, s)
    | none =>
      -- with no free entry one of them is picked at random
      record ((s.find fun b => b.port == 0).getD ⟨random % maxBindings, Nat.mod_lt _ (by decide)⟩)

/-- A bind request of the second protocol in `mdp_process_packet`, for the port that is asked for
or, where that is 0, for the next one that is not bound. -/
def mdpProcessBind (subscriber : Option S) (port : UInt32) (client : A) (s : Mdp S A) : Bool × Mdp S A :=
  match s.find fun b => b.port == port && (b.subscriber == subscriber || b.subscriber.isNone),
    s.find fun b => b.port == 0 with
  | none, some i => (true, s.put i ⟨subscriber, port, .v2, client⟩)
  | _, _ => (false, s)

/-- The end of `mdp_process_packet`, for a packet with the flag to close: its own binding is freed. -/
def mdpProcessClose (subscriber : Option S) (port : UInt32) (client : A) (s : Mdp S A) : Mdp S A :=
  match (s.find fun b => b.port == port && b.subscriber == subscriber).or
    ((List.finRange maxBindings).reverse.find? fun i =>
      (s.bindings i).port == port && (s.bindings i).subscriber.isNone) with
  | some i => if same (s.bindings i).client client then s.put i { s.bindings i with port := 0 } else s
  | none => s

/-- What of a frame's header decides where it goes; a broadcast has no destination. -/
structure Header (S : Type) where
  destination : Option S
  destinationPort : UInt32

inductive Delivery (A : Type) where
  | filtered | sent (client : A) | internal
  deriving DecidableEq

/-- The entry that a frame is for: the first one for its destination, or else the last one for
all subscribers. -/
def Mdp.matching (s : Mdp S A) (h : Header S) : Option (Fin maxBindings) :=
  (s.find fun b => b.port == h.destinationPort &&
      (h.destination.isNone || b.subscriber == h.destination)).or
    ((List.finRange maxBindings).reverse.find? fun i =>
      (s.bindings i).port == h.destinationPort && (s.bindings i).subscriber.isNone)

/-- `overlay_saw_mdp_frame`, where `allowed` is the answer of the filter and `dead` says that the
client's socket is gone. -/
def overlaySawMdpFrame (allowed dead : Bool) (h : Header S) (s : Mdp S A) : Delivery A × Mdp S A :=
  if allowed then
    match s.matching h with
    | some i =>
      let client := (s.bindings i).client
      (.sent client, if (s.bindings i).version = .legacy ∧ dead then
        overlayMdpReleasebindings same client s else s)
    | none => (.internal, s)
  else (.filtered, s)

/-- `overlay_mdp_check_binding`; without a client the frame is the system's own. -/
def overlayMdpCheckBinding (subscriber : S) (port : UInt32) (client : Option A) (s : Mdp S A) : Bool :=
  client.all fun client => (s.find fun b => b.port == port &&
    (b.subscriber.isNone || b.subscriber == some subscriber) && same b.client client).isSome

inductive Event (S A : Type) where
  | bind (subscriber : Option S) (port : UInt32) (force : Bool) (client : A) (random : Nat)
  | bind2 (subscriber : Option S) (port : UInt32) (client : A) (hport : port ≠ 0)
  | close (subscriber : Option S) (port : UInt32) (client : A)
  | release (client : A)
  | frame (allowed dead : Bool) (h : Header S)

def step (s : Mdp S A) : Event S A → Mdp S A
  | .bind subscriber port force client random =>
    (overlayMdpProcessBindRequest same subscriber port force client random s).2
  | .bind2 subscriber port client _ => (mdpProcessBind subscriber port client s).2
  | .close subscriber port client => mdpProcessClose same subscriber port client s
  | .release client => overlayMdpReleasebindings same client s
  | .frame allowed dead h => (overlaySawMdpFrame same allowed dead h s).2

def Mdp.init (zero : A) : Mdp S A := ⟨fun _ => ⟨none, 0, .legacy, zero⟩, false⟩

def run (s : Mdp S A) (events : List (Event S A)) : Mdp S A := events.foldl (step same) s

/-! ### At most one binding -/

variable {s : Mdp S A}

omit [DecidableEq S] in
theorem unique_ready (hs : Unique s) : Unique s.ready := by
  rw [Mdp.ready]
  split
  · exact hs
  · exact fun i j => unique_free hs (fun _ => true) i j

theorem unique_bind (hs : Unique s) :
    Unique (overlayMdpProcessBindRequest same subscriber port force cl rnd s).2 := by
  simp only [overlayMdpProcessBindRequest]
  split
  · exact hs
  next hport =>
  have huni := unique_ready hs
  split
  · next i hfnd =>
    have hkey := find_some hfnd
    rw [Bool.and_eq_true, beq_iff_eq, beq_iff_eq] at hkey
    split
    · exact huni
    split
    · -- the entry is taken over with its port and subscriber
      refine unique_put huni fun j hj hp hsub => hj ?_
      exact huni i j (by rwa [hkey.1]) (hp.trans hkey.1.symm) (hsub.trans hkey.2.symm)
    · exact huni
  next hnone =>
  refine unique_put huni fun j _ hp hsub => ?_
  have hoth := find_none hnone j
  simp [hp, hsub] at hoth

theorem unique_bind2 (hs : Unique s) : Unique (mdpProcessBind subscriber port cl s).2 := by
  rw [mdpProcessBind]
  split
  · next hnone _ =>
    refine unique_put hs fun j _ hp hsub => ?_
    have hoth := find_none hnone j
    simp [hp, hsub] at hoth
  · exact hs

theorem unique_close (hs : Unique s) : Unique (mdpProcessClose same subscriber port cl s) := by
  rw [mdpProcessClose]
  split
  · split
    · next i _ _ =>
      intro j k hlive hport hsub
      simp only [Mdp.put, Function.update_apply] at hlive hport hsub
      by_cases hj : j = i
      · simp [hj] at hlive
      by_cases hk : k = i
      · simp only [if_pos hk, if_neg hj] at hport hlive
        exact absurd hport.symm hlive
      simp only [if_neg hj, if_neg hk] at hlive hport hsub
      exact hs j k hlive hport hsub
    · exact hs
  · exact hs

theorem unique_step (hs : Unique s) : Unique (step same s e) := by
  cases e with
  | bind subscriber port force cl rnd => exact unique_bind same hs
  | bind2 subscriber port cl hport => exact unique_bind2 hs
  | close subscriber port cl => exact unique_close same hs
  | release cl => exact unique_free hs fun b => same b.client cl
  | frame alw dead h =>
    simp only [step, overlaySawMdpFrame]
    split
    · split
      · dsimp only
        split
        · exact unique_free hs _
        · exact hs
      · exact hs
    · exact hs

/-- No two entries have the same binding after any run. -/
theorem unique_run (zero : A) (evs : List (Event S A)) :
    Unique (run same (Mdp.init zero : Mdp S A) evs) := by
  induction evs using List.reverseRecOn with
  | nil => exact fun _ _ hlive => absurd rfl hlive
  | append_singleton evs e ih =>
    rw [run, foldl_append]
    exact unique_step same ih

/-! ### Frames and checks -/

/-- The entry has the frame's port and is for its destination or for all. -/
def Serves (b : Binding S A) (h : Header S) : Prop :=
  b.port = h.destinationPort ∧
    (h.destination = none ∨ b.subscriber = none ∨ b.subscriber = h.destination)

/-- The client holds a live binding for the frame, and one for its very destination if there is
one. -/
def Rightly (s : Mdp S A) (h : Header S) (client : A) : Prop :=
  ∃ i, (s.bindings i).client = client ∧ (s.bindings i).port ≠ 0 ∧ Serves (s.bindings i) h ∧
    (h.destination ≠ none → ∀ j, (s.bindings j).port = h.destinationPort →
      (s.bindings j).subscriber = h.destination → (s.bindings i).subscriber = h.destination)

theorem matching_some (hi : s.matching h = some i) :
    Serves (s.bindings i) h ∧ (h.destination ≠ none → ∀ j, (s.bindings j).port = h.destinationPort →
      (s.bindings j).subscriber = h.destination → (s.bindings i).subscriber = h.destination) := by
  rcases Option.or_eq_some_iff.mp hi with hexa | ⟨hnone, hany⟩
  · have hkey := find_some hexa
    simp only [Bool.and_eq_true, Bool.or_eq_true, beq_iff_eq, Option.isNone_iff_eq_none] at hkey
    exact ⟨⟨hkey.1, hkey.2.imp_right .inr⟩, fun hne _ _ _ => hkey.2.resolve_left hne⟩
  have hkey := find?_some hany
  rw [Bool.and_eq_true, beq_iff_eq, Option.isNone_iff_eq_none] at hkey
  refine ⟨⟨hkey.1, .inr (.inl hkey.2)⟩, fun _ j hport hsub => ?_⟩
  have hoth := find_none hnone j
  simp [hport, hsub] at hoth

theorem matching_none (hnone : s.matching h = none) (i : Fin maxBindings) :
    ¬ Serves (s.bindings i) h := by
  rintro ⟨hport, hsrv⟩
  obtain ⟨hexa, hany⟩ := Option.or_eq_none_iff.mp hnone
  have hoth := find_none hexa i
  have hall := find?_eq_none.mp hany i (mem_reverse.mpr (mem_finRange i))
  rcases hsrv with hdest | hsub | hsub
  · simp [hport, hdest] at hoth
  · simp [hport, hsub] at hall
  · simp [hport, hsub] at hoth

/-- A frame goes to a client that holds a binding for it, unless it is for port 0 and finds a
free entry. -/
theorem frame_rightly (alw dead : Bool) (h : Header S) :
    (∀ cl, (overlaySawMdpFrame same alw dead h s).1 = .sent cl → Rightly s h cl) ↔
      (alw → h.destinationPort = 0 → ∀ i, ¬ Serves (s.bindings i) h) := by
  constructor
  · intro hrt hall hzero i hsrv
    cases hmat : s.matching h with
    | none => exact matching_none hmat i hsrv
    | some k =>
      obtain ⟨j, -, hlive, hj, -⟩ := hrt (s.bindings k).client (by
        simp [overlaySawMdpFrame, hall, hmat])
      exact hlive (hj.1.trans hzero)
  intro hcond cl hsent
  simp only [overlaySawMdpFrame] at hsent
  split at hsent
  · next hall =>
    split at hsent
    · next i hmat =>
      cases hsent
      obtain ⟨hsrv, hpre⟩ := matching_some hmat
      refine ⟨i, rfl, fun hzero => ?_, hsrv, hpre⟩
      exact hcond hall (hsrv.1.symm.trans hzero) i hsrv
    · cases hsent
  · cases hsent

/-- The client has an entry with the port for the subscriber or for all. -/
def Bound (b : Binding S A) (subscriber : S) (port : UInt32) (client : A) : Prop :=
  b.port = port ∧ (b.subscriber = none ∨ b.subscriber = some subscriber) ∧ same b.client client = true

/-- The check succeeds exactly if an entry has the binding. -/
theorem check_iff : overlayMdpCheckBinding same subscriber port (some client) s = true ↔
      ∃ i, Bound same (s.bindings i) subscriber port client := by
  simp [overlayMdpCheckBinding, Mdp.find, Bound, and_assoc]

/-- After every sequence of requests there is at most one live binding for a subscriber and a
port; frames go to clients that hold a binding for them, and a check is passed by those only,
exactly when the port is not 0 or no free entry answers. -/
theorem bindings_table (zero : A) (events : List (Event S A)) : let s := run same (.init zero) events
    Unique s ∧
    (∀ allowed dead h,
      (∀ client, (overlaySawMdpFrame same allowed dead h s).1 = .sent client → Rightly s h client) ↔
        (allowed → h.destinationPort = 0 → ∀ i, ¬ Serves (s.bindings i) h)) ∧
    ∀ subscriber port client, (overlayMdpCheckBinding same subscriber port (some client) s = true →
        ∃ i, (s.bindings i).port ≠ 0 ∧ Bound same (s.bindings i) subscriber port client) ↔
        (port = 0 → ∀ i, ¬ Bound same (s.bindings i) subscriber port client) := by
  intro s
  refine ⟨unique_run same zero events, frame_rightly same, fun subscriber port client => ?_⟩
  rw [check_iff]
  constructor
  · intro hhl hzero i hbd
    obtain ⟨j, hlive, hj⟩ := hhl ⟨i, hbd⟩
    exact hlive (hj.1.trans hzero)
  rintro hcond ⟨i, hbd⟩
  exact ⟨i, fun hzero => hcond (hbd.1.symm.trans hzero) i hbd, hbd⟩

end Requests

/-- A frame for port 0 of a subscriber goes to the client that has had a binding for the
subscriber and has released it. -/
theorem released_served : ¬ ∀ (events : List (Event Nat Nat)) (h : Header Nat) (client : Nat),
    (overlaySawMdpFrame (· == ·) true false h (run (· == ·) (.init 0) events)).1 = .sent client →
      Rightly (run (· == ·) (.init 0) events) h client := by
  intro hall
  obtain ⟨i, -, hlive, hsrv, -⟩ :=
    hall [.bind (some 1) 5 false 7 0, .release 7] ⟨some 1, 0⟩ 7 (by decide +kernel)
  exact hlive hsrv.1

end MdpBindings
