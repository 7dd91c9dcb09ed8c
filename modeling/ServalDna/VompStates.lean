import ServalDna.VompCall

/-!
# The states of a call

Our state and the other party's state of every call over all sequences of
packets, requests and alarms. The state of the sender is a field of four bits
and the switch shifts ours by three, so that a state above `VOMP_STATE_CALLENDED`
can take the place of another pair of states (`Alias`); apart from such packets
the states stay in their range and never decrease.
-/
namespace VompStates

open OverlayBuffer VompCall

/-! ### What the functions do to a call -/

/-- The same call at a later time. -/
structure Later (call call' : Call) : Prop where
  session : call'.localHalf.session = call.localHalf.session
  scheduled : call'.scheduled = call.scheduled
  localState : call.localHalf.state ≤ call'.localHalf.state
  remoteState : call.remoteHalf.state ≤ call'.remoteHalf.state

theorem Later.refl (call : Call) : Later call call := ⟨rfl, rfl, le_rfl, le_rfl⟩

theorem Later.trans (h : Later a b) (h' : Later b c) : Later a c :=
  ⟨h'.session.trans h.session, h'.scheduled.trans h.scheduled, h.localState.trans h'.localState,
    h.remoteState.trans h'.remoteState⟩

/-- The states and the session of a call are left as they are. -/
structure Same (call call' : Call) : Prop where
  session : call'.localHalf.session = call.localHalf.session
  scheduled : call'.scheduled = call.scheduled
  localState : call'.localHalf.state = call.localHalf.state
  remoteState : call'.remoteHalf.state = call.remoteHalf.state

theorem Same.refl (call : Call) : Same call call := ⟨rfl, rfl, rfl, rfl⟩

theorem Same.trans (h : Same a b) (h' : Same b c) : Same a c :=
  ⟨h'.session.trans h.session, h'.scheduled.trans h.scheduled, h'.localState.trans h.localState,
    h'.remoteState.trans h.remoteState⟩

theorem Same.later (h : Same call call') : Later call call' :=
  ⟨h.session, h.scheduled, h.localState.ge, h.remoteState.ge⟩

@[simp] theorem andThen_call (a : Acted) : (a.andThen f).call = (f a.call).call := rfl

variable (env : Env)

theorem same_vompUpdate (call : Call) : Same call (vompUpdate env call).call := by
  rw [vompUpdate]
  split
  · exact .refl call
  · exact ⟨rfl, rfl, rfl, rfl⟩

theorem same_vompUpdate_touched (call : Call) :
    Same call (vompUpdate env { call with lastActivity := env.now }).call := by
  have h := same_vompUpdate env { call with lastActivity := env.now }
  exact { h with }

theorem later_vompUpdateLocalState (ns : Nat) (call : Call) :
    Later call (vompUpdateLocalState env ns call).call := by
  rw [vompUpdateLocalState]
  split
  · exact .refl call
  · next h => exact ⟨rfl, rfl, Nat.le_of_not_le h, le_rfl⟩

@[simp] theorem vompUpdateLocalState_local :
    (vompUpdateLocalState env newState call).call.localHalf.state =
      max call.localHalf.state newState := by
  rw [vompUpdateLocalState]
  split
  · next h => exact (max_eq_left h).symm
  · next h => exact (max_eq_right (Nat.le_of_not_le h)).symm

@[simp] theorem vompUpdateLocalState_remote :
    (vompUpdateLocalState env ns call).call.remoteHalf.state = call.remoteHalf.state := by
  rw [vompUpdateLocalState]
  split <;> rfl

theorem later_vompUpdateRemoteState (ns : Nat) (call : Call) :
    Later call (vompUpdateRemoteState ns call).call := by
  rw [vompUpdateRemoteState]
  split
  · exact .refl call
  · next h => exact ⟨rfl, rfl, le_rfl, Nat.le_of_not_le h⟩

@[simp] theorem vompUpdateRemoteState_remote :
    (vompUpdateRemoteState newState call).call.remoteHalf.state =
      max call.remoteHalf.state newState := by
  rw [vompUpdateRemoteState]
  split
  · next h => exact (max_eq_left h).symm
  · next h => exact (max_eq_right (Nat.le_of_not_le h)).symm

@[simp] theorem vompUpdateRemoteState_local :
    (vompUpdateRemoteState ns call).call.localHalf.state = call.localHalf.state := by
  rw [vompUpdateRemoteState]
  split <;> rfl

theorem same_vompProcessAudio : Same call (vompProcessAudio env pl call).call := by
  simp only [vompProcessAudio]
  split
  · exact .refl call
  · split <;> split <;> exact ⟨rfl, rfl, rfl, rfl⟩

theorem same_vompExtractRemoteCodecList (pl : Buffer) (call : Call) :
    Same call (vompExtractRemoteCodecList pl call).1 := by
  simp only [vompExtractRemoteCodecList]
  repeat' split
  all_goals exact ⟨rfl, rfl, rfl, rfl⟩

/-- Our state before the switch is the one that we are in, or the call is to end. -/
theorem considered_spec : Same call (considered env pl senderState call).2.1 ∧
      ((considered env pl senderState call).1 = callEnded ∨
        (considered env pl senderState call).1 = call.localHalf.state ∧
          senderState ≠ callEnded ∧ env.interested) ∧
      (ringingOut ≤ senderState → senderState ≠ callEnded → env.interested →
        (considered env pl senderState call).1 = call.localHalf.state) := by
  have hcod := same_vompExtractRemoteCodecList pl call
  have hende : ¬ callEnded < ringingOut := by decide
  simp only [considered]
  cases henv : env.interested with
  | false =>
    simp only [Bool.false_eq_true, if_false, hende, false_and]
    refine ⟨⟨rfl, rfl, rfl, rfl⟩, .inl ?_, fun _ _ h => h.elim⟩
    split <;> rfl
  | true =>
    simp only [if_true]
    by_cases herl : call.localHalf.state < ringingOut ∧ senderState < ringingOut
    · simp only [herl, and_self, if_true]
      have hlow : ¬ ringingOut ≤ senderState := Nat.not_le_of_lt herl.2
      refine ⟨?_, ?_, fun h => absurd h hlow⟩
      · split
        · exact hcod
        · exact hcod.trans ⟨rfl, rfl, rfl, rfl⟩
      by_cases hend : senderState = callEnded
      · exact .inl (if_pos hend)
      simp only [hend, if_false]
      split
      · exact .inr ⟨rfl, hend, trivial⟩
      · exact .inl rfl
    simp only [herl, if_false]
    refine ⟨.refl call, ?_, fun _ hend _ => if_neg hend⟩
    by_cases hend : senderState = callEnded
    · exact .inl (if_pos hend)
    · exact .inr ⟨if_neg hend, hend, trivial⟩

/-! ### What is put out -/

def IsAudio : Output → Prop
  | .told (.audio ..) => True
  | _ => False

/-- No audio is put out. -/
def Silent (out : List Output) : Prop := ∀ o ∈ out, ¬ IsAudio o

theorem silent_nil : Silent [] := fun _ h => absurd h List.not_mem_nil

theorem Silent.append (h : Silent out) (h' : Silent out') : Silent (out ++ out') :=
  fun o ho => (List.mem_append.mp ho).elim (h o) (h' o)

theorem silent_singleton (h : ¬ IsAudio o) : Silent [o] :=
  fun _ ho => List.mem_singleton.mp ho ▸ h

theorem silent_ite {c : Prop} [Decidable c] (h : Silent out) (h' : Silent out') :
    Silent (if c then out else out') := by
  split
  · exact h
  · exact h'

theorem silent_vompUpdate : Silent (vompUpdate env call).out := by
  rw [vompUpdate]
  split
  · exact silent_nil
  · exact (silent_singleton id).append (silent_ite (silent_singleton id) silent_nil)

theorem silent_vompUpdateLocalState : Silent (vompUpdateLocalState env ns call).out := by
  rw [vompUpdateLocalState]
  split
  · exact silent_nil
  exact (silent_ite (silent_singleton id) silent_nil).append
    (silent_ite (silent_singleton id) (silent_ite (silent_singleton id) silent_nil))

theorem silent_vompUpdateRemoteState : Silent (vompUpdateRemoteState ns call).out := by
  rw [vompUpdateRemoteState]
  split
  · exact silent_nil
  exact silent_ite (silent_singleton id) (silent_ite (silent_singleton id)
    (silent_ite (silent_singleton id) silent_nil))

/-! ### One packet for a call -/

/-- What comes out of a packet for a call when the switch has a case for it. -/
structure Moved (call call' : Call) (out : List Output) (move : Move) (recvrState senderState : Nat) :
    Prop where
  later : Later call call'
  localState : call'.localHalf.state = max call.localHalf.state (move.state.getD recvrState)
  remoteState : call'.remoteHalf.state = senderState
  audio : move.audio = false → Silent out

/-- A packet is ignored, or both states take the values that the switch gives them. -/
theorem callHeard_cases : ∃ rs, (rs = callEnded ∨ rs = call.localHalf.state ∧
        max ss call.remoteHalf.state ≠ callEnded ∧ env.interested) ∧
      (ringingOut ≤ max ss call.remoteHalf.state →
        max ss call.remoteHalf.state ≠ callEnded → env.interested →
          rs = call.localHalf.state) ∧
      ∃ ini,
      (moves ini (combined rs (max ss call.remoteHalf.state)) = none ∧
        Same call (callHeard env pl ss call).call ∧
          (callHeard env pl ss call).out = []) ∨
      ∃ move, moves ini (combined rs (max ss call.remoteHalf.state)) = some move ∧
        Moved call (callHeard env pl ss call).call
          (callHeard env pl ss call).out move rs
          (max ss call.remoteHalf.state) := by
  obtain ⟨hsame, hrec, hown⟩ := considered_spec env
  simp only [callHeard]
  generalize considered env pl (max ss call.remoteHalf.state) call = c at *
  obtain ⟨rs, call1, pl1⟩ := c
  refine ⟨rs, hrec, hown, call1.initiatedCall, ?_⟩
  match hmove : moves call1.initiatedCall
    (combined rs (max ss call.remoteHalf.state)) with
  | none => exact .inl ⟨rfl, hsame, rfl⟩
  | some move =>
    refine .inr ⟨move, rfl, ?_⟩
    simp only
    generalize hcall2 : { call1 with
      rejectionReason := move.reason.getD call1.rejectionReason
      createTime := if move.established then env.now else call1.createTime } = call2
    have hsame2 : Same call call2 := by
      rw [← hcall2]
      exact hsame.trans ⟨rfl, rfl, rfl, rfl⟩
    generalize hacted : (if move.audio then vompProcessAudio env pl1 call2 else ⟨call2, []⟩) = acted
    have hpla : Same call acted.call ∧ (move.audio = false → Silent acted.out) := by
      rw [← hacted]
      cases move.audio with
      | true => exact ⟨hsame2.trans (same_vompProcessAudio env), nofun⟩
      | false => exact ⟨hsame2, fun _ => silent_nil⟩
    obtain ⟨hsame3, hsil⟩ := hpla
    have hrem := later_vompUpdateRemoteState (max ss call.remoteHalf.state) acted.call
    have hloc := later_vompUpdateLocalState env (move.state.getD rs)
      (vompUpdateRemoteState (max ss call.remoteHalf.state) acted.call).call
    have hupd := same_vompUpdate_touched env (vompUpdateLocalState env (move.state.getD rs)
      (vompUpdateRemoteState (max ss call.remoteHalf.state) acted.call).call).call
    refine ⟨?_, ?_, ?_, fun haud => ?_⟩
    · exact ((hsame3.later.trans hrem).trans hloc).trans hupd.later
    · simp [hupd.localState, hsame3.localState]
    · simp [hupd.remoteState, hsame3.remoteState]
    exact ((((hsil haud).append silent_vompUpdateRemoteState).append
      (silent_vompUpdateLocalState _)).append silent_nil).append (silent_vompUpdate _)

/-! ### The range of the states -/

/-- Both states of the call are among the six. -/
structure InRange (call : Call) : Prop where
  one_le_local : 1 ≤ call.localHalf.state
  local_le : call.localHalf.state ≤ callEnded
  one_le_remote : 1 ≤ call.remoteHalf.state
  remote_le : call.remoteHalf.state ≤ callEnded

theorem Later.inRange (h : Later call call') (hcall : InRange call)
    (hloc : call'.localHalf.state ≤ callEnded) (hrem : call'.remoteHalf.state ≤ callEnded) :
    InRange call' :=
  ⟨hcall.one_le_local.trans h.localState, hloc, hcall.one_le_remote.trans h.remoteState, hrem⟩

theorem Same.inRange (h : Same call call') (hcall : InRange call) : InRange call' :=
  h.later.inRange hcall (h.localState.trans_le hcall.local_le) (h.remoteState.trans_le hcall.remote_le)

theorem inRange_vompUpdateLocalState (hcall : InRange call) (h : ns ≤ callEnded) :
    InRange (vompUpdateLocalState env ns call).call := by
  apply (later_vompUpdateLocalState env ns call).inRange hcall
  · rw [vompUpdateLocalState_local]
    exact Nat.max_le.mpr ⟨hcall.local_le, h⟩
  rw [vompUpdateLocalState_remote]
  exact hcall.remote_le

theorem inRange_vompUpdateRemoteState (hcall : InRange call) (h : ns ≤ callEnded) :
    InRange (vompUpdateRemoteState ns call).call := by
  apply (later_vompUpdateRemoteState ns call).inRange hcall
  · rw [vompUpdateRemoteState_local]
    exact hcall.local_le
  rw [vompUpdateRemoteState_remote]
  exact Nat.max_le.mpr ⟨hcall.remote_le, h⟩

/-- A sender's state that is none of the six and that, with our state, gives the value of a
case of the switch. -/
def Alias (localState senderState : Nat) : Prop :=
  localState = noCall ∧ (senderState = 10 ∨ senderState = 11) ∨
    (localState = callPrep ∨ localState = ringingOut) ∧ 9 ≤ senderState ∧ senderState ≤ 13 ∨
    (localState = ringingIn ∨ localState = inCall) ∧ (senderState = 11 ∨ senderState = 13)

instance (localState senderState : Nat) : Decidable (Alias localState senderState) :=
  inferInstanceAs (Decidable (_ ∨ _))

theorem Alias.lt (h : Alias localState senderState) : callEnded < senderState := by
  simp only [Alias, callEnded] at h ⊢
  omega

/-- The cases of the switch, tried for all values. -/
theorem moves_table : ∀ (ini : Bool) (l : Fin 7) (s : Fin 16), 1 ≤ l.val → 1 ≤ s.val →
    (Alias l s → (moves ini (combined l s)).isSome) ∧
    ∀ move ∈ moves ini (combined l s), (∀ state ∈ move.state, state ≤ callEnded) ∧
      (¬ Alias l s → s.val ≤ callEnded ∧
        (move.audio = true → s.val = inCall ∧ max l.val (move.state.getD l) = inCall)) := by
  decide +kernel

theorem moves_ended : moves ini (combined callEnded callEnded) = some .wait := by
  cases ini <;> rfl

section Switch

variable (hl : 1 ≤ l) (hl' : l ≤ callEnded) (hs : 1 ≤ s) (hs' : s < 16)

include hl hl' hs hs'

theorem isSome_moves (h : Alias l s) : (moves ini (combined l s)).isSome :=
  (moves_table ini ⟨l, Nat.lt_succ_of_le hl'⟩ ⟨s, hs'⟩ hl hs).1 h

theorem moves_spec (hmove : moves ini (combined l s) = some move) :
    (∀ state ∈ move.state, state ≤ callEnded) ∧ (¬ Alias l s → s ≤ callEnded ∧
      (move.audio = true → s = inCall ∧ max l (move.state.getD l) = inCall)) :=
  (moves_table ini ⟨l, Nat.lt_succ_of_le hl'⟩ ⟨s, hs'⟩ hl hs).2 move hmove

end Switch

section Heard

variable {env : Env}

theorem later_callHeard (env : Env) (pl : Buffer) (ss : Nat) (call : Call) :
    Later call (callHeard env pl ss call).call := by
  obtain ⟨rs, -, -, ini, ⟨-, hsame, -⟩ | ⟨move, -, hmv⟩⟩ :=
    callHeard_cases env
  · exact hsame.later
  · exact hmv.later

/-- The sender's state as it is taken, which is not below the state last heard. -/
theorem not_alias_max (hcall : InRange call) (h : ¬ Alias l ss) :
    ¬ Alias l (max ss call.remoteHalf.state) := by
  intro hal
  have hlt := hal.lt
  have hle := hcall.remote_le
  rw [max_eq_left (by omega)] at hal
  exact h hal

/-- A packet that is no alias keeps the states in their range, and its audio is played only
in a call. -/
theorem callHeard_inRange (env : Env) (pl : Buffer) (hcall : InRange call) (hsnd : ss < 16)
    (hal : env.interested → ¬ Alias call.localHalf.state ss) :
    InRange (callHeard env pl ss call).call ∧
      (¬ Silent (callHeard env pl ss call).out →
        (callHeard env pl ss call).call.localHalf.state = inCall ∧
          (callHeard env pl ss call).call.remoteHalf.state = inCall) := by
  have hlow : 1 ≤ max ss call.remoteHalf.state :=
    hcall.one_le_remote.trans (le_max_right _ _)
  have hhigh : max ss call.remoteHalf.state < 16 :=
    Nat.max_lt.mpr ⟨hsnd, lt_of_le_of_lt hcall.remote_le (by decide)⟩
  obtain ⟨rs, hrec, -, ini, ⟨-, hsame, hout⟩ | ⟨move, hmove, hmv⟩⟩ :=
    callHeard_cases env
  · exact ⟨hsame.inRange hcall, fun h => absurd (hout ▸ silent_nil) h⟩
  have hown : 1 ≤ rs ∧ rs ≤ callEnded := by
    rcases hrec with rfl | ⟨rfl, -⟩
    · decide
    · exact ⟨hcall.one_le_local, hcall.local_le⟩
  have hnot : ¬ Alias rs (max ss call.remoteHalf.state) := by
    rcases hrec with rfl | ⟨rfl, -, henv⟩
    · simp [Alias, noCall, callPrep, ringingOut, ringingIn, inCall, callEnded]
    · exact not_alias_max hcall (hal henv)
  obtain ⟨hsta, hspec⟩ := moves_spec hown.1 hown.2 hlow hhigh hmove
  have hste : move.state.getD rs ≤ callEnded := by
    cases hst : move.state with
    | none => exact hown.2
    | some state => exact hsta state hst
  constructor
  · apply hmv.later.inRange hcall
    · rw [hmv.localState]
      exact Nat.max_le.mpr ⟨hcall.local_le, hste⟩
    · rw [hmv.remoteState]
      exact (hspec hnot).1
  intro haud
  have htrue : move.audio = true := by
    cases h : move.audio with
    | true => rfl
    | false => exact absurd (hmv.audio h) haud
  obtain ⟨hs, hl⟩ := (hspec hnot).2 htrue
  rw [hmv.localState, hmv.remoteState]
  refine ⟨?_, hs⟩
  rcases hrec with rfl | ⟨rfl, -⟩
  · exact absurd (hl ▸ le_max_left callEnded _) (by decide)
  · exact hl

/-- A sender that has ended the call ends it here. -/
theorem callHeard_ended (hcall : InRange call) :
    (callHeard env pl callEnded call).call.localHalf.state = callEnded := by
  have hmax : max callEnded call.remoteHalf.state = callEnded := max_eq_left hcall.remote_le
  obtain ⟨rs, hrec, -, ini, hcas⟩ := callHeard_cases env
  rw [hmax] at hrec hcas
  have hend : rs = callEnded := hrec.resolve_right fun h => h.2.1 rfl
  rw [hend, moves_ended] at hcas
  rcases hcas with ⟨h, -⟩ | ⟨move, hmove, hmv⟩
  · cases h
  cases hmove
  rw [hmv.localState]
  exact max_eq_right hcall.local_le

/-- The state of an alias is stored. -/
theorem callHeard_alias (hcall : InRange call) (hsnd : senderState < 16)
    (henv : env.interested) (hal : Alias call.localHalf.state senderState) :
    (callHeard env pl senderState call).call.remoteHalf.state = senderState := by
  have hlt : 6 < senderState := hal.lt
  have hrem : call.remoteHalf.state ≤ 6 := hcall.remote_le
  have hmax : max senderState call.remoteHalf.state = senderState := max_eq_left (by omega)
  obtain ⟨rs, -, hown, ini, hcas⟩ := callHeard_cases env
  rw [hmax] at hown hcas
  have hrec := hown (show 3 ≤ senderState by omega) (show senderState ≠ 6 by omega) henv
  rw [hrec] at hcas
  rcases hcas with ⟨hnone, -⟩ | ⟨move, -, hmv⟩
  · have hsome : (moves ini (combined call.localHalf.state senderState)).isSome :=
      isSome_moves hcall.one_le_local hcall.local_le (by omega) hsnd hal
    rw [hnone] at hsome
    cases hsome
  · exact hmv.remoteState

theorem callHeard_remote_le (env : Env) (pl : Buffer) (ss : Nat) (call : Call) :
    (callHeard env pl ss call).call.remoteHalf.state ≤
      max ss call.remoteHalf.state := by
  obtain ⟨rs, -, -, ini, ⟨-, hsame, -⟩ | ⟨move, -, hmv⟩⟩ :=
    callHeard_cases env
  · rw [hsame.remoteState]
    exact le_max_right _ _
  · rw [hmv.remoteState]

/-- Before the call is answered there is no audio. -/
theorem callHeard_early (env : Env) (pl : Buffer) (hcall : InRange call)
    (hsnd : senderState < inCall) (hrem : call.remoteHalf.state < inCall) :
    InRange (callHeard env pl senderState call).call ∧
      Silent (callHeard env pl senderState call).out := by
  have hnot : ¬ Alias call.localHalf.state senderState :=
    fun h => absurd (h.lt.trans hsnd) (by decide)
  obtain ⟨hrng, haud⟩ := callHeard_inRange env pl hcall
    (hsnd.trans (by decide)) fun _ => hnot
  refine ⟨hrng, by_contra fun h => ?_⟩
  have hle := callHeard_remote_le env pl senderState call
  rw [(haud h).2] at hle
  exact absurd (Nat.max_lt.mpr ⟨hsnd, hrem⟩) (Nat.not_lt_of_le hle)

end Heard

/-! ### Requests and alarms -/

/-- A client's request or a timeout: the states grow in their range, without audio. -/
structure Steady (call : Call) (acted : Acted) : Prop where
  later : Later call acted.call
  inRange : InRange call → InRange acted.call
  silent : Silent acted.out

theorem Steady.refl (call : Call) : Steady call ⟨call, []⟩ := ⟨.refl call, id, silent_nil⟩

theorem Steady.andThen (h : Steady call a) (hf : Steady a.call (f a.call)) : Steady call (a.andThen f) :=
  ⟨h.later.trans hf.later, fun hcall => hf.inRange (h.inRange hcall), h.silent.append hf.silent⟩

theorem Same.steady (h : Same call call') (h' : Steady call' acted) : Steady call acted :=
  ⟨h.later.trans h'.later, fun hcall => h'.inRange (h.inRange hcall), h'.silent⟩

theorem steady_vompUpdate (call : Call) : Steady call (vompUpdate env call) :=
  ⟨(same_vompUpdate env call).later, (same_vompUpdate env call).inRange, silent_vompUpdate env⟩

theorem steady_vompUpdateLocalState (call : Call) (h : ns ≤ callEnded) :
    Steady call (vompUpdateLocalState env ns call) :=
  ⟨later_vompUpdateLocalState env ns call, fun hcall => inRange_vompUpdateLocalState env hcall h,
    silent_vompUpdateLocalState env⟩

theorem steady_vompUpdateRemoteState (h : ns ≤ callEnded) :
    Steady call (vompUpdateRemoteState ns call) :=
  ⟨later_vompUpdateRemoteState ns call, fun hcall => inRange_vompUpdateRemoteState hcall h,
    silent_vompUpdateRemoteState⟩

theorem steady_vompRinging (call : Call) : Steady call (vompRinging env call) := by
  rw [vompRinging]
  split
  · exact (steady_vompUpdateLocalState env call (by decide)).andThen (steady_vompUpdate env _)
  · exact .refl call

theorem steady_vompPickup (call : Call) : Steady call (vompPickup env call) := by
  rw [vompPickup]
  split
  · refine (steady_vompUpdateLocalState env call (by decide)).andThen ?_
    apply Same.steady _ (steady_vompUpdate env _)
    exact ⟨rfl, rfl, rfl, rfl⟩
  · exact .refl call

theorem steady_vompHangup (call : Call) : Steady call (vompHangup env call) :=
  (steady_vompUpdateLocalState env call (by decide)).andThen (steady_vompUpdate env _)

theorem steady_expireCall (cfg : Config) (env : Env) (call : Call) :
    Steady call (expireCall cfg env call) := by
  rw [expireCall]
  split
  · have hrea : Same call { call with rejectionReason := .timeout } := ⟨rfl, rfl, rfl, rfl⟩
    exact ((hrea.steady (steady_vompUpdateLocalState env _ (by decide))).andThen
      (steady_vompUpdateRemoteState (by decide))).andThen (steady_vompUpdate env _)
  · exact .refl call

end VompStates
