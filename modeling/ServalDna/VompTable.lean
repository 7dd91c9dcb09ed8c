import ServalDna.VompPayload
import ServalDna.VompStates

/-!
# The table of calls

What one event does to the table: it leaves it alone, changes the call at one
place, adds a call at the end or removes one, whose place the last call takes.
From this follows, over all sequences of events, that the first `vomp_call_count`
entries are the live calls and that their session numbers differ, as long as
every packet that creates a call finds room for it.
-/
namespace VompTable

open VompCall VompPayload VompStates TextCodec Option

/-! ### Places -/

@[simp] theorem put_same (s : Vomp) (i : Fin maxCalls) (call : Call) : (s.put i call).calls i = call :=
  Function.update_self ..

variable {s : Vomp}

@[simp] theorem put_other (call : Call) (h : j ≠ i) : (s.put i call).calls j = s.calls j :=
  Function.update_of_ne h ..

@[simp] theorem put_count : (s.put i call).count = s.count :=
  rfl

@[simp] theorem put_put : (s.put i call).put i call' = s.put i call' := by simp [Vomp.put]

/-- The call whose alarm is being processed. -/
def active : Phase → Option (Fin maxCalls)
  | .idle => none
  | .expired i => some i
  | .updated i => some i

/-- The call that a packet is for. -/
def addressed (s : Vomp) (p : Packet) : Option (Fin maxCalls) :=
  (List.finRange maxCalls).find? fun i => i.val < s.count &&
    (s.calls i).isFor p.source p.destination p.header.senderSession p.header.recvrSession

theorem addressed_lt (h : addressed s p = some i) : i.val < s.count := by
  have hfnd := List.find?_some h
  rw [Bool.and_eq_true, decide_eq_true_eq] at hfnd
  exact hfnd.1

/-- The packet asks for a new call. -/
def Creates (s : Vomp) (p : Packet) : Prop :=
  p.accepted ∧ addressed s p = none ∧ p.header.senderState = callPrep ∧
    p.header.recvrState = noCall ∧ p.header.recvrSession = 0

def newCall (env : Env) (remote loc : Subscriber) (remoteSession localSession : Nat) : Call :=
  { Call.zero with
    scheduled := true
    localHalf := { Half.zero with subscriber := loc, session := localSession, state := noCall }
    remoteHalf := { Half.zero with subscriber := remote, session := remoteSession, state := noCall }
    lastSentStatus := none
    createTime := env.now
    lastActivity := env.now
    alarm := env.now + 1000 }

theorem inRange_newCall : InRange (newCall env rem loc rses localSession) := by
  constructor <;> exact Nat.le_of_ble_eq_true rfl

def pushed (s : Vomp) (h : s.count < maxCalls) (call : Call) : Vomp :=
  { s.put ⟨s.count, h⟩ call with count := s.count + 1 }

@[simp] theorem pushed_same (s : Vomp) (h : s.count < maxCalls) (call : Call) :
    (pushed s h call).calls ⟨s.count, h⟩ = call := put_same ..

@[simp] theorem pushed_other (h : s.count < maxCalls) (call : Call) (hi : i.val ≠ s.count) :
    (pushed s h call).calls i = s.calls i :=
  put_other call fun heq => hi (congrArg Fin.val heq)

@[simp] theorem pushed_put (h : s.count < maxCalls) :
    (pushed s h call).put ⟨s.count, h⟩ call' = pushed s h call' := by
  simp [pushed, Vomp.put]

theorem vompCreateCall_room (h : s.count < maxCalls) :
    vompCreateCall env rem loc rses 0 s = some (⟨s.count, h⟩,
      pushed s h (newCall env rem loc rses (vompGenerateSessionId s env.random))) := by
  simp [vompCreateCall, h, schedule, Call.zero, pushed, newCall]

theorem vompCreateCall_full (h : ¬ s.count < maxCalls) :
    vompCreateCall env rem loc rses 0 s = none := by
  simp [vompCreateCall, h]

/-! ### Packets -/

def heard (env : Env) (p : Packet) (call : Call) : Acted :=
  callHeard env p.header.rest p.header.senderState (call.recordSession p.header.senderSession)

theorem same_recordSession (call : Call) (session : Nat) : Same call (call.recordSession session) := by
  rw [Call.recordSession]
  split <;> exact ⟨rfl, rfl, rfl, rfl⟩

theorem heard_inRange (env : Env) (hcall : InRange call)
    (hal : env.interested → ¬ Alias call.localHalf.state p.header.senderState) :
    InRange (heard env p call).call ∧ (¬ Silent (heard env p call).out →
      (heard env p call).call.localHalf.state = inCall ∧
        (heard env p call).call.remoteHalf.state = inCall) := by
  have hsnd : p.header.senderState < 16 := Nat.mod_lt _ (by decide)
  have hrec := same_recordSession call p.header.senderSession
  exact callHeard_inRange env _ (hrec.inRange hcall) hsnd (hrec.localState ▸ hal)

theorem heard_alias (env : Env) (hcall : InRange call) (henv : env.interested)
    (hal : Alias call.localHalf.state p.header.senderState) :
    (heard env p call).call.remoteHalf.state = p.header.senderState := by
  have hrec := same_recordSession call p.header.senderSession
  apply callHeard_alias (hrec.inRange hcall) (Nat.mod_lt _ (by decide)) henv
  rw [hrec.localState]
  exact hal

theorem heard_ended (env : Env) (hcall : InRange call) (h : p.header.senderState = callEnded) :
    (heard env p call).call.localHalf.state = callEnded := by
  rw [heard, h]
  exact callHeard_ended ((same_recordSession ..).inRange hcall)

theorem asserts_recordSession (env : Env) (p : Packet) (call : Call) :
    callAsserts env p.header.rest p.header.senderState (call.recordSession p.header.senderSession) = true ↔
      Asserts env p call := by
  rw [callAsserts_iff, Call.recordSession]
  split <;> rfl

theorem vompMdpReceived_addressed (hacc : p.accepted) (h : addressed s p = some i) :
    vompMdpReceived env p s = if Asserts env p (s.calls i) then none else
      some (s.put i (heard env p (s.calls i)).call, (heard env p (s.calls i)).out) := by
  rw [addressed] at h
  simp only [vompMdpReceived, hacc, if_true, vompFindOrCreateCall, h, put_same, asserts_recordSession]
  simp [heard]

theorem addressed_heard (hacc : p.accepted) (hi : addressed s p = some i)
    (h : vompMdpReceived env p s = some (s', out)) : ¬ Asserts env p (s.calls i) ∧
      s' = s.put i (heard env p (s.calls i)).call ∧ out = (heard env p (s.calls i)).out := by
  rw [vompMdpReceived_addressed hacc hi] at h
  split at h <;> cases h
  exact ⟨‹_›, rfl, rfl⟩

theorem vompMdpReceived_creates (h : Creates s p) : vompMdpReceived env p s =
      if hroom : s.count < maxCalls ∧ ¬ (env.interested ∧ Unended p) then
        let acted := callHeard env p.header.rest p.header.senderState (newCall env p.source p.destination
          p.header.senderSession (vompGenerateSessionId s env.random))
        some (pushed s hroom.1 acted.call, acted.out)
      else none := by
  obtain ⟨hacc, hnone, hsnd, hrec, hses⟩ := h
  have hend : ¬ (callPrep = callEnded ∨ noCall = callEnded) := by decide
  rw [addressed] at hnone
  simp only [vompMdpReceived, hacc, if_true, vompFindOrCreateCall, hnone]
  simp only [hsnd, hrec, hses, hend, if_false, and_self, if_true]
  by_cases hroom : s.count < maxCalls
  · have hasserts : ∀ session, callAsserts env p.header.rest callPrep (newCall env p.source p.destination
        p.header.senderSession session) = true ↔ env.interested ∧ Unended p := by
      intro session
      rw [← hsnd, callAsserts_iff, Asserts, hsnd]
      simp [newCall, Call.zero, Half.zero, callPrep, noCall, ringingOut]
    simp only [vompCreateCall_room hroom, hroom, map_some, pushed_same, pushed_put, hasserts]
    by_cases hend : env.interested ∧ Unended p <;> simp [hend]
  · simp [vompCreateCall_full hroom, hroom]

theorem vompMdpReceived_ignored (hcr : ¬ Creates s p) (h : p.accepted → addressed s p = none)
    (env : Env) : vompMdpReceived env p s = some (s, []) := by
  by_cases hacc : p.accepted = true
  · have hnone := h hacc
    have hnew : ¬ (p.header.senderState = callPrep ∧ p.header.recvrState = noCall ∧
        p.header.recvrSession = 0) := fun hnew => hcr ⟨hacc, hnone, hnew⟩
    rw [addressed] at hnone
    simp [vompMdpReceived, hacc, vompFindOrCreateCall, hnone, hnew]
  · simp [vompMdpReceived, hacc]

/-- A packet creates a call, is ignored, or is for a call of the table. -/
theorem packet_cases (s : Vomp) (p : Packet) :
    Creates s p ∨ (∀ env, vompMdpReceived env p s = some (s, [])) ∨
      ∃ i, p.accepted ∧ addressed s p = some i := by
  by_cases hcr : Creates s p
  · exact .inl hcr
  by_cases hadd : p.accepted → addressed s p = none
  · exact .inr (.inl (vompMdpReceived_ignored hcr hadd))
  rw [Classical.not_imp, ← ne_eq, ne_none_iff_exists'] at hadd
  obtain ⟨hacc, i, hi⟩ := hadd
  exact .inr (.inr ⟨i, hacc, hi⟩)

/-! ### What an event does -/

/-- The first entries are the live calls: their alarms are scheduled, apart from the one that
is being processed, and no others are. -/
structure Tidy (s : Vomp) : Prop where
  count_le : s.count ≤ maxCalls
  active_lt : ∀ i, active s.phase = some i → i.val < s.count
  scheduled_iff : ∀ i, (s.calls i).scheduled = true ↔ i.val < s.count ∧ active s.phase ≠ some i

/-- A sender's state stands for another one. -/
def Aliased (s : Vomp) : Event → Prop
  | .packet env p => p.accepted ∧ env.interested ∧
      ∃ i, addressed s p = some i ∧ Alias (s.calls i).localHalf.state p.header.senderState
  | _ => False

def randomWords : Event → List UInt32
  | .packet env _ => env.random
  | .dial env .. => env.random
  | _ => []

def Creating (s : Vomp) : Event → Prop
  | .packet _ p => Creates s p
  | .dial .. => s.phase = .idle ∧ s.count < maxCalls
  | _ => False

inductive Effect (s : Vomp) (e : Event) : Vomp → Prop
  | stay : Effect s e s
  | change (i : Fin maxCalls) (call : Call) (phase : Phase) (hi : i.val < s.count)
      (hsession : call.localHalf.session = (s.calls i).localHalf.session)
      (hlocal : (s.calls i).localHalf.state ≤ call.localHalf.state)
      (hremote : (s.calls i).remoteHalf.state ≤ call.remoteHalf.state)
      (hrange : ¬ Aliased s e → InRange (s.calls i) → InRange call)
      (hscheduled : call.scheduled = true ↔ active phase ≠ some i)
      (hothers : ∀ j, j ≠ i → (active phase = some j ↔ active s.phase = some j)) :
      Effect s e { s.put i call with phase }
  | add (hcreating : Creating s e) (h : s.count < maxCalls) (call : Call)
      (hscheduled : call.scheduled = true)
      (hsession : call.localHalf.session = vompGenerateSessionId s (randomWords e))
      (hrange : InRange call) : Effect s e (pushed s h call)
  | remove (i last : Fin maxCalls) (s' : Vomp) (hphase : s.phase = .expired i)
      (hlast : last.val + 1 = s.count) (hcount : s'.count = last.val) (hidle : s'.phase = .idle)
      (hmoved : i ≠ last → s'.calls i = s.calls last)
      (hkept : ∀ j, j ≠ i → j.val < last.val → s'.calls j = s.calls j)
      (hfree : ∀ j, last.val ≤ j.val → (s'.calls j).scheduled = false) : Effect s e s'

/-- A change that leaves the alarm alone. -/
theorem Effect.later (hs : Tidy s) (hi : i.val < s.count) (h : Later (s.calls i) call)
    (hrng : ¬ Aliased s e → InRange (s.calls i) → InRange call) : Effect s e (s.put i call) := by
  refine .change i call s.phase hi h.session h.localState h.remoteState hrng ?_ fun _ _ => Iff.rfl
  rw [h.scheduled, hs.scheduled_iff]
  exact and_iff_right hi

/-- A call that has been added behind the last one. -/
structure Added (s : Vomp) (random : List UInt32) (call : Call) (out : List Output) : Prop where
  scheduled : call.scheduled = true
  session : call.localHalf.session = vompGenerateSessionId s random
  inRange : InRange call
  silent : Silent out

theorem creates_added (hcr : Creates s p) (h : vompMdpReceived env p s = some (s', out)) :
    ∃ (hroom : s.count < maxCalls) (call : Call), s' = pushed s hroom call ∧
      Added s env.random call out := by
  rw [vompMdpReceived_creates hcr] at h
  split at h
  · next hroom =>
    cases h
    generalize hcall : newCall env p.source p.destination p.header.senderSession
      (vompGenerateSessionId s env.random) = call
    have hsnd := hcr.2.2.1
    have hlat := later_callHeard env p.header.rest p.header.senderState call
    have hprep : p.header.senderState < inCall := by
      rw [hsnd]
      decide
    have hrem : call.remoteHalf.state < inCall := by
      rw [← hcall]
      exact Nat.le_of_ble_eq_true rfl
    have herl := callHeard_early env p.header.rest (hcall ▸ inRange_newCall ..) hprep hrem
    subst hcall
    exact ⟨hroom.1, _, rfl, hlat.scheduled, hlat.session, herl.1, herl.2⟩
  · cases h

theorem effect_packet (hs : Tidy s) (h : vompMdpReceived env p s = some (s', out)) :
    Effect s (.packet env p) s' := by
  rcases packet_cases s p with hcr | hign | ⟨i, hacc, hi⟩
  · obtain ⟨hroom, call, rfl, hadd⟩ := creates_added hcr h
    have hcre : Creating s (.packet env p) := hcr
    exact .add hcre hroom call hadd.scheduled hadd.session hadd.inRange
  · rw [hign] at h
    cases h
    exact .stay
  obtain ⟨-, rfl, rfl⟩ := addressed_heard hacc hi h
  have hrec := same_recordSession (s.calls i) p.header.senderSession
  refine .later hs (addressed_lt hi) (hrec.later.trans (later_callHeard ..)) fun hnot hcall => ?_
  exact (heard_inRange env hcall fun henv hal => hnot ⟨hacc, henv, i, hi, hal⟩).1

theorem dial_added (hroom : s.count < maxCalls)
    (h : vompDial env loc rem ldid rdid s = some (s', out)) :
    ∃ call, s' = pushed s hroom call ∧ Added s env.random call out := by
  rw [vompDial, if_neg (Nat.not_le_of_lt hroom), vompCreateCall_room hroom] at h
  simp only [map_some, pushed_same, pushed_put, Option.some.injEq, Prod.mk.injEq] at h
  obtain ⟨rfl, rfl⟩ := h
  generalize hcall : newCall env rem loc 0 (vompGenerateSessionId s env.random) = call
  generalize hnam : { call with
    localHalf := { call.localHalf with did := didField ldid }
    remoteHalf := { call.remoteHalf with did := didField rdid } } = named
  have hsame : Same call named := by
    rw [← hnam]
    exact ⟨rfl, rfl, rfl, rfl⟩
  have hini : ∀ call : Call, Steady call (vompUpdate env { call with initiatedCall := true }) := by
    intro call
    apply Same.steady _ (steady_vompUpdate env _)
    exact ⟨rfl, rfl, rfl, rfl⟩
  have hpre : Steady named (vompUpdateLocalState env callPrep named) :=
    steady_vompUpdateLocalState env named (by decide)
  have hstdy : Steady call ((vompUpdateLocalState env callPrep named).andThen fun call =>
      vompUpdate env { call with initiatedCall := true }) :=
    hsame.steady (hpre.andThen (hini _))
  subst hcall
  exact ⟨_, rfl, hstdy.later.scheduled, hstdy.later.session, hstdy.inRange (inRange_newCall ..),
    hstdy.silent⟩

theorem effect_dial (hidle : s.phase = .idle)
    (h : vompDial env loc rem ldid rdid s = some (s', out)) :
    Effect s (.dial env loc rem ldid rdid) s' ∧ Silent out := by
  by_cases hroom : s.count < maxCalls
  · obtain ⟨call, rfl, hadd⟩ := dial_added hroom h
    have hcr : Creating s (.dial env loc rem ldid rdid) := ⟨hidle, hroom⟩
    exact ⟨.add hcr hroom call hadd.scheduled hadd.session hadd.inRange, hadd.silent⟩
  rw [vompDial, if_pos (Nat.le_of_not_lt hroom)] at h
  cases h
  exact ⟨.stay, silent_nil⟩

theorem effect_request (hs : Tidy s) (hf : ∀ call, Steady call (f call))
    (h : (if s.phase = .idle then request f tok s else (s, [])) = (s', out)) :
    Effect s e s' ∧ Silent out := by
  rw [request] at h
  split at h
  rotate_left
  · cases h
    exact ⟨.stay, silent_nil⟩
  split at h
  · cases h
    exact ⟨.stay, silent_singleton id⟩
  next i hfnd =>
  cases h
  have hi := List.find?_some hfnd
  rw [Bool.and_eq_true, decide_eq_true_eq] at hi
  exact ⟨.later hs hi.1 (hf _).later fun _ => (hf _).inRange, (hf _).silent⟩

theorem effect_tick (hs : Tidy s) (hph : s.phase = .idle) (hsch : (s.calls i).scheduled = true) :
    Effect s e
      { s.put i (expireCall cfg env (unschedule (s.calls i))).call with phase := .expired i } := by
  have hstdy := steady_expireCall cfg env (unschedule (s.calls i))
  have hi := ((hs.scheduled_iff i).mp hsch).1
  refine .change i _ _ hi hstdy.later.session hstdy.later.localState hstdy.later.remoteState
    (fun _ hcall => hstdy.inRange { hcall with }) ?_ fun j hj => ?_
  · rw [hstdy.later.scheduled]
    simp [unschedule, active]
  · simp [active, hph, hj.symm]

theorem effect_checked (hs : Tidy s) (hph : s.phase = .expired i) :
    Effect s e { s.put i (vompUpdate env (s.calls i)).call with phase := .updated i } := by
  have hstdy := steady_vompUpdate env (s.calls i)
  have hact : active s.phase = some i := by rw [hph]; rfl
  have hi := hs.active_lt i hact
  refine .change i _ _ hi hstdy.later.session hstdy.later.localState hstdy.later.remoteState
    (fun _ => hstdy.inRange) ?_ fun j hj => ?_
  · rw [hstdy.later.scheduled, hs.scheduled_iff, hact]
    simp [active]
  rw [hact]
  rfl

theorem effect_alive (hs : Tidy s) (hph : s.phase = .updated i)
    (h : keepAlive env (s.calls i) = some acted) :
    Effect s e { s.put i acted.call with phase := .idle } ∧ Silent acted.out := by
  have hact : active s.phase = some i := by rw [hph]; rfl
  have hi := hs.active_lt i hact
  simp only [keepAlive, schedule] at h
  split at h <;> cases h
  have hsame : Same (s.calls i) (vompSendStatusRemote env (s.calls i)).call := ⟨rfl, rfl, rfl, rfl⟩
  refine ⟨.change i _ _ hi hsame.session hsame.localState.ge hsame.remoteState.ge
    (fun _ hcall => { hcall with }) ?_ fun j hj => ?_,
    (silent_singleton id).append (silent_singleton id)⟩
  · simp [active]
  rw [hact]
  simp [active, hj.symm]

def cleared (call : Call) : Call :=
  { unschedule call with
    localHalf := { call.localHalf with session := 0 }
    remoteHalf := { call.remoteHalf with session := 0 } }

theorem vompCallDestroy_last (h : i.val + 1 = s.count) :
    vompCallDestroy i s = some { s.put i (cleared (s.calls i)) with count := i.val } := by
  have hcnt : s.count ≠ 0 := by omega
  have hi : i.val = s.count - 1 := by omega
  simp only [vompCallDestroy, put_count, hcnt, if_false, hi, if_true]
  rfl

theorem vompCallDestroy_moves (h : last.val + 1 = s.count) (hne : i ≠ last) :
    vompCallDestroy i s = some { ((s.put i (cleared (s.calls i))).put last (unschedule (s.calls last))).put i
      { s.calls last with scheduled := true } with count := last.val } := by
  have hcnt : s.count ≠ 0 := by omega
  have hlast : s.count - 1 = last.val := by omega
  have hi : i.val ≠ last.val := fun h => hne (Fin.ext h)
  simp only [vompCallDestroy, put_count, hcnt, hlast, hi, if_false, last.isLt, dif_pos, Fin.eta,
    put_other _ hne.symm]
  rfl

/-- The call at `i` is gone and the last one has its place. -/
theorem vompCallDestroy_spec (hs : Tidy s) (hph : s.phase = .expired i) :
    ∃ s1, vompCallDestroy i s = some s1 ∧ Effect s e { s1 with phase := .idle } := by
  have hact : active s.phase = some i := by rw [hph]; rfl
  have hi := hs.active_lt i hact
  have hle := hs.count_le
  obtain ⟨last, hlast⟩ : ∃ last : Fin maxCalls, last.val + 1 = s.count :=
    ⟨⟨s.count - 1, by omega⟩, Nat.sub_add_cancel (by omega)⟩
  have hbeh : ∀ j : Fin maxCalls, last.val < j.val → (s.calls j).scheduled = false := by
    intro j hj
    rw [← Bool.not_eq_true, hs.scheduled_iff]
    omega
  by_cases heq : i = last
  · subst heq
    refine ⟨_, vompCallDestroy_last hlast, .remove i i _ hph hlast rfl rfl (fun h => absurd rfl h)
      (fun j hj _ => put_other _ hj) fun j hj => ?_⟩
    by_cases hij : j = i
    · subst hij
      rw [put_same]
      rfl
    rw [put_other _ hij]
    exact hbeh j (lt_of_le_of_ne hj fun h => hij (Fin.ext h.symm))
  refine ⟨_, vompCallDestroy_moves hlast heq, .remove i last _ hph hlast rfl rfl (fun _ => ?_)
    (fun j hj hlt => ?_) fun j hj => ?_⟩
  · rw [put_same]
    have hsch : (s.calls last).scheduled = true := by
      rw [hs.scheduled_iff, hact]
      exact ⟨by omega, fun h => heq (Option.some.inj h)⟩
    rw [← hsch]
  · rw [put_other _ hj, put_other _ (fun h => by subst h; omega), put_other _ hj]
  have hji : j ≠ i := by
    rintro rfl
    exact heq (Fin.ext (by omega))
  rw [put_other _ hji]
  by_cases hjl : j = last
  · subst hjl
    rw [put_same]
    rfl
  rw [put_other _ hjl, put_other _ hji]
  exact hbeh j (lt_of_le_of_ne hj fun h => hjl (Fin.ext h.symm))

/-- What an event does to the table, and that only packets bring audio. -/
theorem step_effect (hs : Tidy s) (h : step cfg s e = some (s', out)) :
    Effect s e s' ∧ ((∀ env p, e ≠ .packet env p) → Silent out) := by
  have hqt : ∀ {p : Prop}, Effect s e s' ∧ Silent out → Effect s e s' ∧ (p → Silent out) :=
    And.imp_right fun hsil _ => hsil
  revert h
  fun_cases step cfg s e with
  | case1 env p => exact fun h => ⟨effect_packet hs h, fun hne => absurd rfl (hne env p)⟩
  | case2 _ _ _ _ _ hidle => exact fun h => hqt (effect_dial hidle h)
  | case4 env =>
    exact fun h => hqt (effect_request hs (steady_vompRinging env) (Option.some.inj h))
  | case5 env =>
    exact fun h => hqt (effect_request hs (steady_vompPickup env) (Option.some.inj h))
  | case6 env =>
    exact fun h => hqt (effect_request hs (steady_vompHangup env) (Option.some.inj h))
  | case7 env _ hgrd =>
    rintro ⟨⟩
    exact ⟨effect_tick hs hgrd.1 hgrd.2, fun _ => (steady_expireCall cfg env _).silent⟩
  | case9 _ i hph =>
    intro h
    obtain ⟨s1, hdes, ⟨⟩⟩ := map_eq_some_iff.mp h
    obtain ⟨s2, hdes', heff⟩ := vompCallDestroy_spec hs hph
    rw [hdes] at hdes'
    cases hdes'
    exact ⟨heff, fun _ => silent_nil⟩
  | case10 env i hph =>
    rintro ⟨⟩
    exact ⟨effect_checked hs hph, fun _ => (steady_vompUpdate env _).silent⟩
  | case12 _ _ hph =>
    intro h
    obtain ⟨acted, hacted, ⟨⟩⟩ := map_eq_some_iff.mp h
    exact hqt (effect_alive hs hph hacted)
  | _ =>
    rintro ⟨⟩
    exact ⟨.stay, fun _ => silent_nil⟩

/-- Every event keeps the table tidy. -/
theorem Effect.tidy (h : Effect s e s') (hs : Tidy s) : Tidy s' := by
  cases h with
  | stay => exact hs
  | change i call ph hi _ _ _ _ hsch hoths =>
    constructor
    · exact hs.count_le
    · intro j hj
      by_cases hji : j = i
      · rw [hji]
        exact hi
      · exact hs.active_lt j ((hoths j hji).mp hj)
    intro j
    by_cases hji : j = i
    · subst hji
      rw [put_same, hsch]
      exact (and_iff_right hi).symm
    rw [put_other _ hji, hs.scheduled_iff, ne_eq, ne_eq, hoths j hji]
    rfl
  | add _ hroom call hsch _ _ =>
    constructor
    · exact hroom
    · exact fun j hj => Nat.lt_succ_of_lt (hs.active_lt j hj)
    intro j
    have hact : active (pushed s hroom call).phase = active s.phase := rfl
    have hcnt : (pushed s hroom call).count = s.count + 1 := rfl
    rw [hact, hcnt]
    by_cases hj : j.val = s.count
    · obtain rfl : j = ⟨s.count, hroom⟩ := Fin.ext hj
      rw [pushed_same]
      refine iff_of_true hsch ⟨Nat.lt_succ_self _, fun h => ?_⟩
      exact absurd (hs.active_lt _ h) (lt_irrefl _)
    rw [pushed_other hroom call hj, hs.scheduled_iff]
    have : j.val < s.count ↔ j.val < s.count + 1 := by omega
    rw [this]
  | remove i last _ hph hlast hcnt hidle hmv hkept hfree =>
    have hact : active s.phase = some i := by rw [hph]; rfl
    constructor
    · omega
    · intro j hj
      rw [hidle] at hj
      cases hj
    intro j
    rw [hidle, hcnt]
    by_cases hj : j.val < last.val
    · refine iff_of_true ?_ ⟨hj, nofun⟩
      by_cases hji : j = i
      · subst hji
        have hne : j ≠ last := fun h => by subst h; omega
        rw [hmv hne, hs.scheduled_iff, hact]
        exact ⟨by omega, fun h => hne (Option.some.inj h)⟩
      rw [hkept j hji hj, hs.scheduled_iff, hact]
      exact ⟨by omega, fun h => hji (Option.some.inj h).symm⟩
    refine iff_of_false ?_ fun h => hj h.1
    rw [hfree j (Nat.le_of_not_lt hj)]
    decide

theorem tidy_init : Tidy .init := by
  constructor
  · decide
  · intro i hi
    cases hi
  intro i
  exact iff_of_false Bool.false_ne_true fun h => absurd h.1 (Nat.not_lt_zero _)

/-! ### Session numbers -/

/-- The word gives a session number that is not zero and not in use. -/
def Usable (s : Vomp) (word : UInt32) : Prop :=
  word.toNat % 2 ^ 16 ≠ 0 ∧ s.sessionUsed (word.toNat % 2 ^ 16) = false

theorem vompGenerateSessionId_drawn (h : ∃ word ∈ rnd, Usable s word) :
    vompGenerateSessionId s rnd ≠ 0 ∧ s.sessionUsed (vompGenerateSessionId s rnd) = false := by
  induction rnd with
  | nil =>
    obtain ⟨word, hword, -⟩ := h
    exact absurd hword List.not_mem_nil
  | cons word rnd ih =>
    rw [vompGenerateSessionId]
    split
    · next hbad =>
      obtain ⟨w, hw, husa⟩ := h
      rcases List.mem_cons.mp hw with rfl | hw
      · rcases hbad with hzero | hused
        · exact absurd hzero husa.1
        rw [husa.2] at hused
        cases hused
      · exact ih ⟨w, hw, husa⟩
    next hgood =>
    rw [not_or, Bool.not_eq_true] at hgood
    exact hgood

theorem vompGenerateSessionId_failed (h : ¬ ∃ word ∈ rnd, Usable s word) :
    vompGenerateSessionId s rnd = 2 ^ 32 - 1 := by
  induction rnd with
  | nil => rfl
  | cons word rnd ih =>
    rw [vompGenerateSessionId, if_pos]
    · apply ih
      rintro ⟨w, hw, husa⟩
      exact h ⟨w, List.mem_cons_of_mem word hw, husa⟩
    by_contra hgood
    rw [not_or, Bool.not_eq_true] at hgood
    exact h ⟨word, List.mem_cons_self, hgood⟩

theorem sessionUsed_of_lt (hi : i.val < s.count) :
    s.sessionUsed (s.calls i).localHalf.session = true := by
  rw [Vomp.sessionUsed, List.any_eq_true]
  exact ⟨i, List.mem_finRange i, by simp [hi]⟩

/-- The table as it should be. -/
structure Table (s : Vomp) : Prop extends Tidy s where
  session_ne : ∀ i, i.val < s.count → (s.calls i).localHalf.session ≠ 0
  distinct : ∀ i j, i.val < s.count → j.val < s.count →
    (s.calls i).localHalf.session = (s.calls j).localHalf.session → i = j

def Roomy (s : Vomp) : Event → Prop
  | .packet _ p => Creates s p → s.count < maxCalls
  | _ => True

/-- The numbers of a call that is being set up end in the packet. -/
def Complete (s : Vomp) : Event → Prop
  | .packet env p => (Creates s p → ¬ (env.interested ∧ Unended p)) ∧
      ∀ i, p.accepted → addressed s p = some i → ¬ Asserts env p (s.calls i)
  | _ => True

/-- A call that is created gets a session number, or is the only one without. -/
def Drawn (s : Vomp) (e : Event) : Prop :=
  Creating s e → (∃ word ∈ randomWords e, Usable s word) ∨
    ∀ i, i.val < s.count → (s.calls i).localHalf.session ≠ 2 ^ 32 - 1

/-- The call at `i` has been removed and all others are as they were. -/
structure Removed (s s' : Vomp) (i : Fin maxCalls) : Prop where
  count : s'.count + 1 = s.count
  kept : ∀ j, j.val < s.count → j ≠ i → ∃ k, k.val < s'.count ∧ s'.calls k = s.calls j
  only : ∀ k, k.val < s'.count → ∃ j, j.val < s.count ∧ j ≠ i ∧ s'.calls k = s.calls j

section Sessions

variable {s' : Vomp}

/-- An event that creates a call adds one behind the last. -/
theorem creating_added (h : Creating s e) (hstep : step cfg s e = some (s', out)) :
    ∃ (hroom : s.count < maxCalls) (call : Call), s' = pushed s hroom call ∧
      Added s (randomWords e) call out := by
  cases e with
  | packet env p => exact creates_added h hstep
  | dial env loc rem ldid rdid =>
    simp only [step, h.1, if_true] at hstep
    exact ⟨h.2, dial_added h.2 hstep⟩
  | _ => exact h.elim

theorem session_fresh (hdrw : Drawn s e) (hcr : Creating s e) :
    vompGenerateSessionId s (randomWords e) ≠ 0 ∧ ∀ i, i.val < s.count →
      (s.calls i).localHalf.session ≠ vompGenerateSessionId s (randomWords e) := by
  by_cases hword : ∃ word ∈ randomWords e, Usable s word
  · obtain ⟨hne, hunu⟩ := vompGenerateSessionId_drawn hword
    refine ⟨hne, fun i hi heq => ?_⟩
    rw [← heq, sessionUsed_of_lt hi] at hunu
    cases hunu
  rw [vompGenerateSessionId_failed hword]
  exact ⟨by decide, (hdrw hcr).resolve_left hword⟩

theorem pushed_table {hroom : s.count < maxCalls} (hs : Table s) (htidy : Tidy (pushed s hroom call))
    (hne : call.localHalf.session ≠ 0)
    (hfr : ∀ i, i.val < s.count → (s.calls i).localHalf.session ≠ call.localHalf.session) :
    Table (pushed s hroom call) := by
  have hnew : ∀ i : Fin maxCalls, i.val = s.count → (pushed s hroom call).calls i = call := by
    intro i hi
    obtain rfl : i = ⟨s.count, hroom⟩ := Fin.ext hi
    exact pushed_same ..
  have hold : ∀ i : Fin maxCalls, i.val < s.count → (pushed s hroom call).calls i = s.calls i :=
    fun i hi => pushed_other hroom call (ne_of_lt hi)
  constructor
  · exact htidy
  · intro i hi
    rcases Nat.lt_succ_iff_lt_or_eq.mp hi with hlt | heq
    · rw [hold i hlt]
      exact hs.session_ne i hlt
    rw [hnew i heq]
    exact hne
  intro i j hi hj h
  rcases Nat.lt_succ_iff_lt_or_eq.mp hi with hi | hi <;>
    rcases Nat.lt_succ_iff_lt_or_eq.mp hj with hj | hj
  · rw [hold i hi, hold j hj] at h
    exact hs.distinct i j hi hj h
  · rw [hold i hi, hnew j hj] at h
    exact absurd h (hfr i hi)
  · rw [hnew i hi, hold j hj] at h
    exact absurd h.symm (hfr j hj)
  · exact Fin.ext (hi.trans hj.symm)

/-- Where a call that is still there was before another one was removed. -/
theorem removed_source (hlast : last.val + 1 = s.count) (hmv : i ≠ last → s'.calls i = s.calls last)
    (hkept : ∀ j, j ≠ i → j.val < last.val → s'.calls j = s.calls j) (hk : k.val < last.val) :
    ∃ j, j.val < s.count ∧ j ≠ i ∧ s'.calls k = s.calls j ∧ j = if k = i then last else k := by
  by_cases hki : k = i
  · subst hki
    have hne : k ≠ last := fun h => by subst h; exact lt_irrefl _ hk
    exact ⟨last, by omega, hne.symm, hmv hne, (if_pos rfl).symm⟩
  · exact ⟨k, by omega, hki, hkept k hki hk, (if_neg hki).symm⟩

theorem Effect.table (h : Effect s e s') (hs : Table s) (hdrw : Drawn s e) : Table s' := by
  have htidy := h.tidy hs.toTidy
  cases h with
  | stay => exact hs
  | change i call ph _ hses _ _ _ _ _ =>
    have hsess : ∀ j, ((s.put i call).calls j).localHalf.session =
        (s.calls j).localHalf.session := by
      intro j
      by_cases hji : j = i
      · rw [hji, put_same, hses]
      · rw [put_other _ hji]
    constructor
    · exact htidy
    · intro j hj
      rw [hsess j]
      exact hs.session_ne j hj
    intro j k hj hk h
    rw [hsess j, hsess k] at h
    exact hs.distinct j k hj hk h
  | add hcr hroom call _ hses _ =>
    obtain ⟨hne, hnew⟩ := session_fresh hdrw hcr
    rw [← hses] at hne hnew
    exact pushed_table hs htidy hne hnew
  | remove i last _ _ hlast hcnt _ hmv hkept _ =>
    constructor
    · exact htidy
    · intro k hk
      rw [hcnt] at hk
      obtain ⟨j, hj, -, heq, -⟩ := removed_source hlast hmv hkept hk
      rw [heq]
      exact hs.session_ne j hj
    intro k k' hk hk' h
    rw [hcnt] at hk hk'
    obtain ⟨j, hj, -, heq, hjk⟩ := removed_source hlast hmv hkept hk
    obtain ⟨j', hj', -, heq', hjk'⟩ := removed_source hlast hmv hkept hk'
    rw [heq, heq'] at h
    have hsame := hs.distinct j j' hj hj' h
    rw [hjk, hjk'] at hsame
    split_ifs at hsame with hki hki'
    · rw [hki, hki']
    · rw [← hsame] at hk'
      exact absurd hk' (lt_irrefl _)
    · rw [hsame] at hk
      exact absurd hk (lt_irrefl _)
    · exact hsame

/-- A call is only removed after its alarm. -/
theorem Effect.removed (h : Effect s e s') (hs : Tidy s) (hfewer : s'.count < s.count) :
    ∃ i, s.phase = .expired i ∧ Removed s s' i := by
  cases h with
  | stay | change => exact absurd hfewer (lt_irrefl _)
  | add => exact absurd hfewer (Nat.not_lt_of_le (Nat.le_succ _))
  | remove i last _ hph hlast hcnt _ hmv hkept _ =>
    have hi : i.val < s.count := hs.active_lt i (by rw [hph]; rfl)
    refine ⟨i, hph, by omega, fun j hj hji => ?_, fun k hk => ?_⟩
    · by_cases hjl : j = last
      · subst hjl
        exact ⟨i, by omega, hmv hji.symm⟩
      have hlt : j.val < last.val := by omega
      exact ⟨j, by omega, hkept j hji hlt⟩
    rw [hcnt] at hk
    obtain ⟨j, hj, hji, heq, -⟩ := removed_source hlast hmv hkept hk
    exact ⟨j, hj, hji, heq⟩

/-- A step that is made has found room and a complete packet. -/
theorem roomy_of_step (h : step cfg s e = some (s', out)) : Roomy s e ∧ Complete s e := by
  cases e with
  | packet env p =>
    refine ⟨fun hcr => (creates_added hcr h).1, fun hcr hend => ?_, fun i hacc hi => ?_⟩
    · rw [step, vompMdpReceived_creates hcr, dif_neg fun hroom => hroom.2 hend] at h
      cases h
    · exact (addressed_heard hacc hi h).1
  | _ => exact ⟨trivial, trivial⟩

/-- With room for a new call, and numbers that end, every event comes to its end. -/
theorem step_defined (cfg : Config) (hs : Tidy s) (hrm : Roomy s e) (hcom : Complete s e) :
    ∃ s' out, step cfg s e = some (s', out) := by
  suffices h : (step cfg s e).isSome by
    obtain ⟨⟨s', out⟩, h⟩ := isSome_iff_exists.mp h
    exact ⟨s', out, h⟩
  fun_cases step cfg s e with
  | case1 env p =>
    rcases packet_cases s p with hcr | hign | ⟨i, hacc, hi⟩
    · rw [vompMdpReceived_creates hcr, dif_pos ⟨hrm hcr, hcom.1 hcr⟩]
      rfl
    · rw [hign]
      rfl
    rw [vompMdpReceived_addressed hacc hi, if_neg (hcom.2 i hacc hi)]
    rfl
  | case2 =>
    rw [vompDial]
    split
    · rfl
    next hfull =>
    rw [vompCreateCall_room (Nat.lt_of_not_le hfull)]
    rfl
  | case9 env i hph =>
    obtain ⟨s1, hdes, -⟩ := @vompCallDestroy_spec s i (.check env) hs hph
    rw [hdes]
    rfl
  | case12 _ i hph =>
    have huns : (s.calls i).scheduled = false := by
      rw [← Bool.not_eq_true, hs.scheduled_iff, hph]
      exact fun h => h.2 rfl
    simp [keepAlive, schedule, vompSendStatusRemote, huns]
  | _ => rfl

/-- A state that is reached while every new call has got a session number. -/
inductive Reach (cfg : Config) : Vomp → Prop
  | init : Reach cfg .init
  | step {s s' : Vomp} {e : Event} {out : List Output} (h : Reach cfg s)
      (hdrawn : Drawn s e) (hstep : step cfg s e = some (s', out)) : Reach cfg s'

theorem table_init : Table .init :=
  ⟨tidy_init, fun _ h => absurd h (Nat.not_lt_zero _), fun _ _ h => absurd h (Nat.not_lt_zero _)⟩

/-- A step keeps the table as it should be. -/
theorem table_step (hs : Table s) (hdrw : Drawn s e) (h : step cfg s e = some (s', out)) : Table s' :=
  (step_effect hs.toTidy h).1.table hs hdrw

theorem table_reach (h : Reach cfg s) : Table s := by
  induction h with
  | init => exact table_init
  | step _ hdrw hstep ih => exact table_step ih hdrw hstep

/-- Over every sequence of events the table is as it should be, and the next event comes to
its end and keeps it so exactly when the packet that creates a call finds room for it, the
numbers in a packet end there, and the new call gets a session number. -/
theorem call_table (cfg : Config) {s : Vomp} (hs : Reach cfg s) (e : Event) : Table s ∧
    ((∃ s' out, step cfg s e = some (s', out) ∧ Table s' ∧
        (s'.count < s.count → ∃ i, s.phase = .expired i ∧ Removed s s' i)) ↔
      Roomy s e ∧ Complete s e ∧ Drawn s e) := by
  have htab := table_reach hs
  refine ⟨htab, ?_, ?_⟩
  · rintro ⟨s', out, hstep, htab', -⟩
    refine ⟨(roomy_of_step hstep).1, (roomy_of_step hstep).2, fun hcr => ?_⟩
    obtain ⟨hroom, call, rfl, hadd⟩ := creating_added hcr hstep
    by_cases hword : ∃ word ∈ randomWords e, Usable s word
    · exact .inl hword
    refine .inr fun i hi hses => ?_
    have hcall : call.localHalf.session = 2 ^ 32 - 1 :=
      hadd.session.trans (vompGenerateSessionId_failed hword)
    have hsame := htab'.distinct i ⟨s.count, hroom⟩ (Nat.lt_succ_of_lt hi) (Nat.lt_succ_self _) (by
      rw [pushed_other hroom call (ne_of_lt hi), pushed_same, hses, hcall])
    rw [hsame] at hi
    exact absurd hi (lt_irrefl _)
  rintro ⟨hrm, hcom, hdrw⟩
  obtain ⟨s', out, hstep⟩ := step_defined cfg htab.toTidy hrm hcom
  exact ⟨s', out, hstep, table_step htab hdrw hstep,
    (step_effect htab.toTidy hstep).1.removed htab.toTidy⟩

end Sessions

def defaultConfig : Config := ⟨15000, 30000, 30000⟩

/-- A packet of peer `n + 1` that prepares a call, with the codec 1. -/
def prepare (n : Nat) : Event :=
  .packet ⟨0, true, 2#256, [UInt32.ofNat (1000 + n)]⟩
    ⟨n + 1, 0, false, false, [2] ++ ui16 (n + 1) ++ [0, 0, 0x12, 1, 0], by simp [ui16]⟩

/-- The seventeenth peer that prepares a call has it written behind the table. -/
theorem seventeenth_call : ¬ ∀ (cfg : Config) (events : List Event),
    ∃ s, run cfg .init events = some s ∧ s.count ≤ maxCalls := by
  intro h
  obtain ⟨s, hrun, -⟩ := h defaultConfig ((List.range 17).map prepare)
  have hnone : (run defaultConfig .init ((List.range 17).map prepare)).isNone = true := by
    decide +kernel
  rw [hrun] at hnone
  cases hnone

theorem first_call : ∃ s' out, step defaultConfig .init (prepare 0) = some (s', out) ∧ Table s' ∧
    (s'.count < Vomp.init.count → ∃ i, Vomp.init.phase = .expired i ∧ Removed .init s' i) :=
  (call_table defaultConfig .init (prepare 0)).2.mpr
    ⟨fun _ => Nat.le_of_ble_eq_true rfl, ⟨fun _ h => h.2.1 (by decide +kernel), fun i _ hi =>
      absurd (addressed_lt hi) (Nat.not_lt_zero _)⟩, fun _ => .inr fun _ h => absurd h (Nat.not_lt_zero _)⟩

end VompTable
