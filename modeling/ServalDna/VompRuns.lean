import ServalDna.VompTable

/-!
# The states of the calls over whole runs

Over every sequence of packets, requests and alarms the two states of each call stay among
the six and never decrease, audio reaches the clients only in a call, and a sender that has
ended the call ends it here, as long as no sender's state is an alias.
-/
namespace VompRuns

open VompCall VompStates VompTable TextCodec

/-- The call at `k` was at `j` before the event: a removal puts the last call in the hole. -/
def Was (s s' : Vomp) (j k : Fin maxCalls) : Prop :=
  if s'.count < s.count ∧ s.phase = .expired k then j.val + 1 = s.count
  else j = k ∧ k.val < s.count

/-- What an event should do to the states. -/
structure Orderly (s : Vomp) (e : Event) (s' : Vomp) (out : List Output) : Prop where
  inRange : ∀ k, k.val < s'.count → InRange (s'.calls k)
  later : ∀ j k, k.val < s'.count → Was s s' j k →
    (s'.calls k).localHalf.session = (s.calls j).localHalf.session ∧
    (s.calls j).localHalf.state ≤ (s'.calls k).localHalf.state ∧
    (s.calls j).remoteHalf.state ≤ (s'.calls k).remoteHalf.state
  audio : ¬ Silent out → ∃ env p i, e = .packet env p ∧ addressed s p = some i ∧
    (s'.calls i).localHalf.state = inCall ∧ (s'.calls i).remoteHalf.state = inCall
  ended : ∀ env p i, e = .packet env p → p.accepted → addressed s p = some i →
    p.header.senderState = callEnded → (s'.calls i).localHalf.state = callEnded

theorem inRange_effect (h : Effect s e s') (hrng : ∀ k, k.val < s.count → InRange (s.calls k))
    (hnot : ¬ Aliased s e) : ∀ k, k.val < s'.count → InRange (s'.calls k) := by
  intro k hk
  cases h with
  | stay => exact hrng k hk
  | change i call ph hi _ _ _ hcall _ _ =>
    by_cases hki : k = i
    · rw [hki, put_same]
      exact hcall hnot (hrng i hi)
    rw [put_other _ hki]
    exact hrng k hk
  | add _ hroom call _ _ hcall =>
    rcases Nat.lt_succ_iff_lt_or_eq.mp hk with hlt | heq
    · rw [pushed_other hroom call (ne_of_lt hlt)]
      exact hrng k hlt
    obtain rfl : k = ⟨s.count, hroom⟩ := Fin.ext heq
    rw [pushed_same]
    exact hcall
  | remove i last _ _ hlast hcnt _ hmv hkept _ =>
    rw [hcnt] at hk
    obtain ⟨j, hj, -, heq, -⟩ := removed_source hlast hmv hkept hk
    rw [heq]
    exact hrng j hj

theorem later_effect (h : Effect s e s') (hk : k.val < s'.count) (hwas : Was s s' j k) :
    (s'.calls k).localHalf.session = (s.calls j).localHalf.session ∧
    (s.calls j).localHalf.state ≤ (s'.calls k).localHalf.state ∧
    (s.calls j).remoteHalf.state ≤ (s'.calls k).remoteHalf.state := by
  rw [Was] at hwas
  cases h with
  | stay =>
    rw [if_neg fun h => lt_irrefl _ h.1] at hwas
    rw [hwas.1]
    exact ⟨rfl, le_rfl, le_rfl⟩
  | change i call ph hi hses hloc hrem _ _ _ =>
    rw [if_neg fun h => lt_irrefl _ h.1] at hwas
    obtain ⟨rfl, -⟩ := hwas
    by_cases hji : j = i
    · rw [hji, put_same]
      exact ⟨hses, hloc, hrem⟩
    rw [put_other _ hji]
    exact ⟨rfl, le_rfl, le_rfl⟩
  | add _ hroom call _ _ _ =>
    rw [if_neg fun h => Nat.not_succ_lt_self h.1] at hwas
    obtain ⟨rfl, hlt⟩ := hwas
    rw [pushed_other hroom call (ne_of_lt hlt)]
    exact ⟨rfl, le_rfl, le_rfl⟩
  | remove i last _ hph hlast hcnt _ hmv hkept _ =>
    rw [hcnt] at hk
    obtain ⟨j', -, -, heq, rfl⟩ := removed_source hlast hmv hkept hk
    have hj : j = if k = i then last else k := by
      split
      · next hki =>
        rw [if_pos ⟨by omega, by rw [hph, hki]⟩] at hwas
        exact Fin.ext (by omega)
      next hki =>
      rw [if_neg fun h => hki (Phase.expired.inj (hph.symm.trans h.2)).symm] at hwas
      exact hwas.1
    rw [hj, heq]
    exact ⟨rfl, le_rfl, le_rfl⟩

/-- An event that is no alias does what it should. -/
theorem orderly_step (hs : Tidy s) (hrng : ∀ k, k.val < s.count → InRange (s.calls k))
    (hnot : ¬ Aliased s e) (h : step cfg s e = some (s', out)) : Orderly s e s' out := by
  obtain ⟨heff, hsil⟩ := step_effect hs h
  constructor
  · exact inRange_effect heff hrng hnot
  · exact fun j k => later_effect heff
  · intro haud
    cases e with
    | packet env p =>
      refine ⟨env, p, ?_⟩
      rcases packet_cases s p with hcr | hign | ⟨i, hacc, hi⟩
      · obtain ⟨_, _, -, hadd⟩ := creates_added hcr h
        exact absurd hadd.silent haud
      · rw [show step cfg s (.packet env p) = _ from hign env] at h
        cases h
        exact absurd silent_nil haud
      obtain ⟨-, rfl, rfl⟩ := addressed_heard hacc hi h
      have hhrd := heard_inRange env (hrng i (addressed_lt hi)) fun henv hal =>
        hnot ⟨hacc, henv, i, hi, hal⟩
      refine ⟨i, rfl, hi, ?_⟩
      rw [put_same]
      exact hhrd.2 haud
    | _ => exact absurd (hsil fun _ _ => Event.noConfusion) haud
  rintro env p i rfl hacc hi hend
  obtain ⟨-, rfl, rfl⟩ := addressed_heard hacc hi h
  rw [put_same]
  exact heard_ended env (hrng i (addressed_lt hi)) hend

/-- An alias leaves a state that is none of the six. -/
theorem aliased_step (hrng : ∀ k, k.val < s.count → InRange (s.calls k)) (hal : Aliased s e)
    (h : step cfg s e = some (s', out)) : ∃ k, k.val < s'.count ∧ ¬ InRange (s'.calls k) := by
  cases e with
  | packet env p =>
    obtain ⟨hacc, henv, i, hi, hal⟩ := hal
    obtain ⟨-, rfl, rfl⟩ := addressed_heard hacc hi h
    have hlt := addressed_lt hi
    refine ⟨i, hlt, fun hcall => ?_⟩
    have hle := hcall.remote_le
    rw [put_same, heard_alias env (hrng i hlt) henv hal] at hle
    exact absurd hal.lt (Nat.not_lt_of_le hle)
  | _ => exact hal.elim

/-- A state that is reached without an alias. -/
inductive Reach (cfg : Config) : Vomp → Prop
  | init : Reach cfg .init
  | step {s s' : Vomp} {e : Event} {out : List Output} (h : Reach cfg s) (hnot : ¬ Aliased s e)
      (hstep : step cfg s e = some (s', out)) : Reach cfg s'

/-- All states of calls stay among the six. -/
theorem Reach.inRange (h : Reach cfg s) : Tidy s ∧ ∀ k, k.val < s.count → InRange (s.calls k) := by
  induction h with
  | init => exact ⟨tidy_init, fun _ h => absurd h (Nat.not_lt_zero _)⟩
  | step _ hnot hstep ih =>
    have heff := (step_effect ih.1 hstep).1
    exact ⟨heff.tidy ih.1, inRange_effect heff ih.2 hnot⟩

/-- After every sequence of events without an alias the next event comes to its end and does
what it should exactly when it finds room for a call that it creates, the numbers in it end, and it
is no alias. -/
theorem call_states (cfg : Config) {s : Vomp} (hs : Reach cfg s) (e : Event) :
    (∃ s' out, step cfg s e = some (s', out) ∧ Orderly s e s' out) ↔
      Roomy s e ∧ Complete s e ∧ ¬ Aliased s e := by
  obtain ⟨htidy, hrng⟩ := hs.inRange
  constructor
  · rintro ⟨s', out, hstep, hord⟩
    refine ⟨(roomy_of_step hstep).1, (roomy_of_step hstep).2, fun hal => ?_⟩
    obtain ⟨k, hk, hout⟩ := aliased_step hrng hal hstep
    exact hout (hord.inRange k hk)
  rintro ⟨hrm, hcom, hnot⟩
  obtain ⟨s', out, hstep⟩ := step_defined cfg htidy hrm hcom
  exact ⟨s', out, hstep, orderly_step htidy hrng hnot hstep⟩

/-- A packet of the first peer for the call that it has prepared, with a sender's state of ten. -/
def stateTen : Event :=
  .packet ⟨0, true, 2#256, []⟩ ⟨1, 0, false, false, [2] ++ ui16 1 ++ ui16 1000 ++ [0x1A], by decide⟩

/-- With our state 1 the sender's state 10 gives the value of the states 2 and 2. -/
theorem state_ten_stored : ¬ ∀ (cfg : Config) (events : List Event) (s : Vomp),
    run cfg .init events = some s → ∀ i, i.val < s.count → InRange (s.calls i) := by
  intro h
  have hrun : (run defaultConfig .init [prepare 0, stateTen]).map (fun s =>
      (s.count, (s.calls ⟨0, by decide⟩).remoteHalf.state)) = some (1, 10) := by decide +kernel
  obtain ⟨s, hs, hsta⟩ := Option.map_eq_some_iff.mp hrun
  rw [Prod.mk.injEq] at hsta
  have hle := (h defaultConfig _ s hs ⟨0, by decide⟩ (by rw [hsta.1]; decide)).remote_le
  rw [hsta.2] at hle
  exact absurd hle (by decide)

theorem call_states_first : ∃ s' out, step defaultConfig .init (prepare 0) = some (s', out) ∧
    Orderly .init (prepare 0) s' out := by
  refine (call_states defaultConfig .init (prepare 0)).mpr ⟨fun _ => Nat.le_of_ble_eq_true rfl,
    ⟨fun _ h => h.2.1 (by decide +kernel), fun i _ hi => absurd (addressed_lt hi) (Nat.not_lt_zero _)⟩, ?_⟩
  rintro ⟨-, -, i, hi, -⟩
  exact absurd (addressed_lt hi) (Nat.not_lt_zero _)

end VompRuns
