import ServalDna.OverlayBuffer
import ServalDna.TextCodec
import Mathlib.Logic.Function.Basic

/-!
# VoMP calls

The calls of the voice over mesh protocol: a table of `VOMP_MAX_CALLS` entries
of which the first `vomp_call_count` are in use, and for each call the state
that we are in and the state that the other party was last heard to be in.

A frame to one of our own identities is processed before `overlay_send_frame`
returns. Sending is the last thing that a packet or a request does to the
table, so that such frames are the packets that come next; the two sends in the
middle of `vomp_process_tick` cut it into the parts `tick`, `check` and `alive`.
-/
namespace VompCall

open OverlayBuffer TextCodec

/-! ### Calls -/

def noCall : Nat := 1
def callPrep : Nat := 2
def ringingOut : Nat := 3
def ringingIn : Nat := 4
def inCall : Nat := 5
def callEnded : Nat := 6

inductive Rejection where
  | hangup | noPhone | noCodec | busy | timeout
  deriving DecidableEq

/-- A subscriber as its place in memory. -/
abbrev Subscriber := Nat

/-- `struct vomp_call_half`. -/
structure Half where
  subscriber : Subscriber
  did : Text
  state : Nat
  session : Nat
  sequence : UInt32

structure JitterSample where
  sampleClock : Int
  delta : Int
  sortIndex : Nat

/-- `struct jitter_measurements`; `sorted` has the places of the samples. -/
structure Jitter where
  samples : Nat → JitterSample
  sorted : Nat → Nat
  nextSample : Nat
  sampleCount : Nat

abbrev Codecs := BitVec 256

/-- `struct vomp_call_state`. `scheduled` tells whether its alarm waits to be run,
and a last sent status of `none` is -1. -/
structure Call where
  scheduled : Bool
  alarm : Nat
  localHalf : Half
  remoteHalf : Half
  initiatedCall : Bool
  createTime : Nat
  lastActivity : Nat
  remoteAudioClock : UInt32
  lastSentStatus : Option Nat
  rejectionReason : Rejection
  remoteCodecFlags : Codecs
  jitter : Jitter

def Half.zero : Half := ⟨0, [], 0, 0, 0⟩

def Jitter.zero : Jitter := ⟨fun _ => ⟨0, 0, 0⟩, fun _ => 0, 0, 0⟩

def Call.zero : Call :=
  ⟨false, 0, .zero, .zero, false, 0, 0, 0, some 0, .hangup, 0, .zero⟩

/-- `none` is the failed assertion that the alarm is not scheduled. -/
def schedule (call : Call) : Option Call :=
  if call.scheduled then none else some { call with scheduled := true }

def unschedule (call : Call) : Call := { call with scheduled := false }

/-! ### What is told and sent -/

/-- What clients that monitor calls are told. -/
inductive Message where
  | codecs (session : Nat) (codecs : List Nat)
  | callTo (session : Nat) (localSid : Subscriber) (localDid : Text) (remoteSid : Subscriber)
      (remoteDid : Text)
  | callFrom (session : Nat) (localSid : Subscriber) (localDid : Text) (remoteSid : Subscriber)
      (remoteDid : Text)
  | ringing (session : Nat)
  | answered (session : Nat)
  | hangup (session : Nat)
  | callStatus (localSession remoteSession localState remoteState : Nat)
      (localSid remoteSid : Subscriber) (localDid remoteDid : Text)
  | audio (session : Nat) (codec : UInt8) (time sequence : UInt32) (jitterDelay delay : Int)
      (bytes : List UInt8)
  | keepAlive (session : Nat)

structure Frame where
  source : Subscriber
  destination : Subscriber
  payload : List UInt8

inductive Output where
  | told (message : Message)
  | sent (frame : Frame)

/-- A call after a function has worked on it, and what it has put out. -/
structure Acted where
  call : Call
  out : List Output

def Acted.andThen (a : Acted) (f : Call → Acted) : Acted := ⟨(f a.call).call, a.out ++ (f a.call).out⟩

/-- What the world gives to a function: the time, whether a client monitors calls, the
codecs of all such clients, and the words that `urandombytes` returns before it fails. -/
structure Env where
  now : Nat
  interested : Bool
  codecs : Codecs
  random : List UInt32

/-! ### Jitter -/

def jitterSamples : Nat := 128
def seenSamples : Nat := 16

def toInt32 (n : Int) : Int := n.bmod (2 ^ 32)

/-- The look through the recent samples, at place `i` with `left` looks left; a place below
zero is `none`. -/
def seenSample (m : Jitter) (sampleClock : Int) : Nat → Option Nat → Bool
  | 0, _ => false
  | left + 1, i =>
    let i := i.getD (m.sampleCount - 1)
    if (m.samples i).sampleClock = sampleClock then true
    else seenSample m sampleClock left (if i = 0 then none else some (i - 1))

/-- The binary search for the place of a delta between `low` and `high`, where `high` is one
more than `max`. -/
def jitterPosition (m : Jitter) (delta : Int) : Nat → Nat → Nat → Nat → Nat
  | 0, _, _, pos => pos
  | left + 1, low, high, pos =>
    if low < high then
      let mid := (high - 1 + low) / 2
      if delta ≤ (m.samples (m.sorted mid)).delta then jitterPosition m delta left low mid mid
      else jitterPosition m delta left (mid + 1) high (mid + 1)
    else pos

def Jitter.place (m : Jitter) (i sample : Nat) : Jitter :=
  { m with
    sorted := Function.update m.sorted i sample
    samples := Function.update m.samples sample { m.samples sample with sortIndex := i } }

/-- The sorted places between `old` and `pos` move by one. -/
def Jitter.shuffle (m : Jitter) (old pos : Nat) : Jitter :=
  let m := (List.range (old - pos)).foldl (fun m k => m.place (old - k) (m.sorted (old - k - 1))) m
  (List.range (pos - old)).foldl (fun m k => m.place (old + k) (m.sorted (old + k + 1))) m

/-- `none` is a sample that has been seen; otherwise its delay is returned with the new
measurements. -/
def storeJitterSample (m : Jitter) (sampleClock localClock : Int) : Option (Jitter × Int) :=
  let looks := if m.sampleCount = 0 then 0 else min seenSamples (m.sampleCount + 1)
  if seenSample m sampleClock looks (if m.nextSample = 0 then none else some (m.nextSample - 1)) then
    none
  else
    let sample := m.nextSample
    let m := { m with
      nextSample := if sample + 1 ≥ jitterSamples then 0 else sample + 1 }
    let delta := toInt32 (localClock - sampleClock)
    let old := if m.sampleCount ≥ jitterSamples then (m.samples sample).sortIndex else m.sampleCount
    let pos := min (jitterPosition m delta m.sampleCount 0 m.sampleCount 0) (m.sampleCount - 1)
    let m := if m.sampleCount = 0 then m else m.shuffle old pos
    let m := { m with
      sorted := Function.update m.sorted pos sample
      sampleCount := if m.sampleCount < jitterSamples then m.sampleCount + 1 else m.sampleCount
      samples := Function.update m.samples sample ⟨sampleClock, delta, pos⟩ }
    some (m, toInt32 (delta - (m.samples (m.sorted 0)).delta))

def getJitterSize (m : Jitter) : Int :=
  let i := min (jitterSamples - 4) (m.sampleCount - 1)
  max 60 (toInt32 ((m.samples (m.sorted i)).delta - (m.samples (m.sorted 0)).delta))

/-! ### The table -/

def maxCalls : Nat := 16

/-- Where the processing of a call's alarm has come to. -/
inductive Phase where
  | idle
  | expired (i : Fin maxCalls)
  | updated (i : Fin maxCalls)
  deriving DecidableEq

structure Vomp where
  calls : Fin maxCalls → Call
  count : Nat
  phase : Phase

def Vomp.init : Vomp := ⟨fun _ => .zero, 0, .idle⟩

def Vomp.put (s : Vomp) (i : Fin maxCalls) (call : Call) : Vomp :=
  { s with calls := Function.update s.calls i call }

def vompFindCallBySession (s : Vomp) (token : Nat) : Option (Fin maxCalls) :=
  (List.finRange maxCalls).find? fun i =>
    i.val < s.count && token == (s.calls i).localHalf.session

def Vomp.sessionUsed (s : Vomp) (session : Nat) : Bool :=
  (List.finRange maxCalls).any fun i => i.val < s.count &&
    (session == (s.calls i).localHalf.session || session == (s.calls i).remoteHalf.session)

/-- When `urandombytes` fails the result is -1. -/
def vompGenerateSessionId (s : Vomp) : List UInt32 → Nat
  | [] => 2 ^ 32 - 1
  | word :: random =>
    let session := word.toNat % 2 ^ 16
    if session = 0 ∨ s.sessionUsed session then vompGenerateSessionId s random else session

/-- The new call and its place; `none` is a place outside of the table. -/
def vompCreateCall (env : Env) (remote loc : Subscriber) (remoteSession localSession : Nat)
    (s : Vomp) : Option (Fin maxCalls × Vomp) :=
  let localSession :=
    if localSession = 0 then vompGenerateSessionId s env.random else localSession
  if h : s.count < maxCalls then
    let call := { Call.zero with
      localHalf := { Half.zero with subscriber := loc, session := localSession, state := noCall }
      remoteHalf := { Half.zero with subscriber := remote, session := remoteSession, state := noCall }
      lastSentStatus := none
      createTime := env.now
      lastActivity := env.now
      alarm := env.now + 1000 }
    (schedule call).map fun call => (⟨s.count, h⟩, { s.put ⟨s.count, h⟩ call with count := s.count + 1 })
  else none

def Call.isFor (call : Call) (remote loc : Subscriber) (senderSession recvrSession : Nat) : Bool :=
  let remoteChecked := call.remoteHalf.session != 0 && senderSession != 0
  let localChecked := call.localHalf.session != 0 && recvrSession != 0
  (!remoteChecked || senderSession == call.remoteHalf.session) &&
    (!localChecked || recvrSession == call.localHalf.session) &&
    (remoteChecked || localChecked) &&
    remote == call.remoteHalf.subscriber && loc == call.localHalf.subscriber

def Call.recordSession (call : Call) (senderSession : Nat) : Call :=
  if call.remoteHalf.session = 0 then
    { call with remoteHalf := { call.remoteHalf with session := senderSession } }
  else call

def vompFindOrCreateCall (env : Env) (remote loc : Subscriber) (senderSession recvrSession : Nat)
    (senderState recvrState : Nat) (s : Vomp) : Option (Option (Fin maxCalls) × Vomp) :=
  match (List.finRange maxCalls).find? fun i =>
      i.val < s.count && (s.calls i).isFor remote loc senderSession recvrSession with
  | some i => some (some i, s.put i ((s.calls i).recordSession senderSession))
  | none =>
    if senderState = callEnded ∨ recvrState = callEnded then some (none, s)
    else if senderState = callPrep ∧ recvrState = noCall ∧ recvrSession = 0 then
      (vompCreateCall env remote loc senderSession recvrSession s).map fun r => (some r.1, r.2)
    else some (none, s)

/-- The entry is given back and the last one moves into its place. `none` is a failed
assertion. -/
def vompCallDestroy (i : Fin maxCalls) (s : Vomp) : Option Vomp :=
  let call := unschedule (s.calls i)
  let s := s.put i { call with
    localHalf := { call.localHalf with session := 0 }
    remoteHalf := { call.remoteHalf with session := 0 } }
  if s.count = 0 then none
  else if i.val = s.count - 1 then some { s with count := s.count - 1 }
  else if h : s.count - 1 < maxCalls then
    let last := unschedule (s.calls ⟨s.count - 1, h⟩)
    (schedule last).map fun call =>
      { (s.put ⟨s.count - 1, h⟩ last).put i call with count := s.count - 1 }
  else none

/-! ### States -/

def ui16 (n : Nat) : List UInt8 := [UInt8.ofNat (n / 256), UInt8.ofNat n]

def codecList (codecs : Codecs) : List Nat := (List.range 256).filter codecs.getLsbD

def vompSendStatusRemote (env : Env) (call : Call) : Acted :=
  let header := [(2 : UInt8)] ++ ui16 call.localHalf.session ++ ui16 call.remoteHalf.session ++
    [UInt8.ofNat (call.remoteHalf.state <<< 4 ||| call.localHalf.state)]
  let setup :=
    if call.localHalf.state < ringingOut ∧ call.remoteHalf.state < ringingOut then
      (codecList env.codecs).map UInt8.ofNat ++ [0] ++
        if call.initiatedCall then call.localHalf.did ++ [0] ++ call.remoteHalf.did ++ [0] else []
    else []
  ⟨{ call with localHalf := { call.localHalf with sequence := call.localHalf.sequence + 1 } },
    [.sent ⟨call.localHalf.subscriber, call.remoteHalf.subscriber, header ++ setup⟩]⟩

def vompUpdateLocalState (env : Env) (newState : Nat) (call : Call) : Acted :=
  let session := call.localHalf.session
  if call.localHalf.state ≥ newState then ⟨call, []⟩
  else
    let codecs :=
      if newState > callPrep ∧ newState ≤ inCall ∧ call.localHalf.state ≤ callPrep then
        [.told (.codecs session (codecList (call.remoteCodecFlags &&& env.codecs)))]
      else []
    let told :=
      if newState = callPrep then
        [.told (.callTo session call.localHalf.subscriber call.localHalf.did
          call.remoteHalf.subscriber call.remoteHalf.did)]
      else if newState = callEnded then [.told (.hangup session)]
      else []
    ⟨{ call with localHalf := { call.localHalf with state := newState } }, codecs ++ told⟩

def vompUpdateRemoteState (newState : Nat) (call : Call) : Acted :=
  let session := call.localHalf.session
  if call.remoteHalf.state ≥ newState then ⟨call, []⟩
  else
    let told :=
      if newState = ringingOut then
        [.told (.callFrom session call.localHalf.subscriber call.localHalf.did
          call.remoteHalf.subscriber call.remoteHalf.did)]
      else if newState = ringingIn then [.told (.ringing session)]
      else if newState = inCall ∧ call.initiatedCall then [.told (.answered session)]
      else []
    ⟨{ call with remoteHalf := { call.remoteHalf with state := newState } }, told⟩

def vompUpdate (env : Env) (call : Call) : Acted :=
  let combinedStatus := call.remoteHalf.state <<< 4 ||| call.localHalf.state
  if call.lastSentStatus = some combinedStatus then ⟨call, []⟩
  else
    (vompSendStatusRemote env { call with lastSentStatus := some combinedStatus }).andThen fun call =>
      ⟨call, if env.interested then
        [.told (.callStatus call.localHalf.session call.remoteHalf.session call.localHalf.state
          call.remoteHalf.state call.localHalf.subscriber call.remoteHalf.subscriber
          call.localHalf.did call.remoteHalf.did)] else []⟩

/-! ### Audio -/

def toAbsoluteValue (short : UInt16) (reference : UInt32) : UInt32 :=
  let value := (reference &&& 0xFFFF0000) ||| short.toUInt32
  let value := if value + 0x8000 < reference then value + 0x10000 else value
  if value > reference + 0x8000 then value - 0x10000 else value

/-- What is left of a payload; where the assertion can fail, `overruns` tells. -/
def remaining (b : Buffer) : Nat := (obRemaining b).getD 0

def vompProcessAudio (env : Env) (payload : Buffer) (call : Call) : Acted :=
  if remaining payload < 1 then ⟨call, []⟩
  else
    let codec := obGet payload
    let time := obGetUi16 codec.buffer
    let sequence := obGetUi16 time.buffer
    let decodedTime := toAbsoluteValue time.value call.remoteAudioClock
    let decodedSequence := toAbsoluteValue sequence.value call.remoteHalf.sequence
    let call :=
      if call.remoteAudioClock ≤ decodedTime ∧ call.remoteHalf.sequence ≤ decodedSequence then
        { call with
          remoteAudioClock := decodedTime
          remoteHalf := { call.remoteHalf with sequence := decodedSequence } }
      else call
    let decodedTime := decodedTime * 20
    match storeJitterSample call.jitter (toInt32 decodedTime.toNat) (toInt32 env.now) with
    | none => ⟨call, []⟩
    | some (jitter, delay) =>
      ⟨{ call with jitter },
        [.told (.audio call.localHalf.session (codec.value.getD 0xFF) decodedTime decodedSequence
          (getJitterSize jitter) delay
          (ListSlice.slice payload.bytes sequence.buffer.position (remaining sequence.buffer)))]⟩

/-! ### Packets -/

def setCodecFlag (codec : UInt8) (flags : Codecs) : Codecs := flags ||| 1#256 <<< codec.toNat

/-- The codecs up to a zero, with at most `left` bytes left. -/
def extractCodecs : Nat → Codecs → Buffer → Codecs × Buffer
  | 0, flags, b => (flags, b)
  | left + 1, flags, b =>
    if remaining b = 0 then (flags, b)
    else
      let codec := (obGet b).value.getD 0xFF
      if codec = 0 then (flags, (obGet b).buffer)
      else extractCodecs left (setCodecFlag codec flags) (obGet b).buffer

def didField (str : Text) : Text := str.take 63

def vompExtractRemoteCodecList (payload : Buffer) (call : Call) : Call × Buffer :=
  let (remoteCodecFlags, payload) :=
    extractCodecs (remaining payload) call.remoteCodecFlags payload
  let call := { call with remoteCodecFlags }
  if call.initiatedCall || remaining payload == 0 then (call, payload)
  else
    let remoteDid := obGetStrPtr payload
    match remoteDid.value with
    | none => (call, remoteDid.buffer)
    | some did =>
      let call := { call with remoteHalf := { call.remoteHalf with did := didField did } }
      if remaining remoteDid.buffer = 0 then (call, remoteDid.buffer)
      else
        let localDid := obGetStrPtr remoteDid.buffer
        match localDid.value with
        | none => (call, localDid.buffer)
        | some did =>
          ({ call with localHalf := { call.localHalf with did := didField did } }, localDid.buffer)

/-- Behind the first string `ob_remaining` fails its assertion if that string has run over the end of
the payload. -/
def overruns (payload : Buffer) (call : Call) : Bool :=
  let payload := (extractCodecs (remaining payload) call.remoteCodecFlags payload).2
  !call.initiatedCall && remaining payload != 0 && (obGetStrPtr payload).value.isSome &&
    (obRemaining (obGetStrPtr payload).buffer).isNone

/-- What a case of the switch over both states does: our new state, the reason for a
rejection, whether the call is established now, and whether audio is played. -/
structure Move where
  state : Option Nat
  reason : Option Rejection
  established : Bool
  audio : Bool

def Move.wait : Move := ⟨none, none, false, false⟩

def combined (recvrState senderState : Nat) : Nat := recvrState <<< 3 ||| senderState

/-- The cases of the switch; `none` is the default case, in which the packet is ignored. -/
def moves (initiatedCall : Bool) (combinedState : Nat) : Option Move :=
  if combinedState = combined noCall callPrep then some .wait
  else if combinedState = combined ringingIn ringingOut ∨ combinedState = combined noCall ringingOut then
    some (if initiatedCall then ⟨some callEnded, some .busy, false, false⟩ else .wait)
  else if combinedState = combined callPrep noCall ∨ combinedState = combined callPrep callPrep then
    some ⟨some (if initiatedCall then ringingOut else callEnded), none, false, false⟩
  else if combinedState = combined ringingOut noCall ∨ combinedState = combined ringingOut callPrep ∨
      combinedState = combined ringingOut ringingIn then some .wait
  else if combinedState = combined ringingOut ringingOut then
    some ⟨some inCall, none, true, false⟩
  else if combinedState = combined inCall ringingOut then some .wait
  else if combinedState = combined ringingOut inCall then some ⟨some inCall, none, true, true⟩
  else if combinedState = combined inCall inCall then some ⟨none, none, false, true⟩
  else if combinedState = combined callEnded noCall ∨ combinedState = combined callEnded callPrep ∨
      combinedState = combined callEnded ringingOut ∨ combinedState = combined callEnded ringingIn ∨
      combinedState = combined callEnded inCall ∨ combinedState = combined callEnded callEnded then
    some .wait
  else none

/-- Our state before the switch, and the call and the payload at that point. -/
def considered (env : Env) (payload : Buffer) (senderState : Nat) (call : Call) : Nat × Call × Buffer :=
  let (recvrState, call) :=
    if env.interested then (call.localHalf.state, call)
    else (callEnded, { call with rejectionReason := .noPhone })
  let (recvrState, call, payload) :=
    if recvrState < ringingOut ∧ senderState < ringingOut then
      let (call, payload) := vompExtractRemoteCodecList payload call
      if env.codecs &&& call.remoteCodecFlags ≠ 0 then (recvrState, call, payload)
      else (callEnded, { call with rejectionReason := .noCodec }, payload)
    else (recvrState, call, payload)
  (if senderState = callEnded then callEnded else recvrState, call, payload)

/-- Whether the codecs and numbers of a payload are looked at, and an assertion fails there. -/
def callAsserts (env : Env) (payload : Buffer) (senderState : Nat) (call : Call) : Bool :=
  env.interested && call.localHalf.state < ringingOut && max senderState call.remoteHalf.state < ringingOut &&
    overruns payload call

def callHeard (env : Env) (payload : Buffer) (senderState : Nat) (call : Call) : Acted :=
  let senderState := max senderState call.remoteHalf.state
  let (recvrState, call, payload) := considered env payload senderState call
  match moves call.initiatedCall (combined recvrState senderState) with
  | none => ⟨call, []⟩
  | some move =>
    let call := { call with
      rejectionReason := move.reason.getD call.rejectionReason
      createTime := if move.established then env.now else call.createTime }
    (if move.audio then vompProcessAudio env payload call else ⟨call, []⟩)
      |>.andThen (vompUpdateRemoteState senderState)
      |>.andThen (vompUpdateLocalState env (move.state.getD recvrState))
      |>.andThen (fun call => ⟨{ call with lastActivity := env.now }, []⟩)
      |>.andThen (vompUpdate env)

/-- A frame to the VoMP port. -/
structure Packet where
  source : Subscriber
  destination : Subscriber
  noCrypt : Bool
  noSign : Bool
  payload : List UInt8
  short : payload.length < 2 ^ 63

def Packet.buffer (p : Packet) : Buffer := { obStatic p.payload with sizeLimit := p.payload.length }

/-- The fields in front of the payload and the buffer behind them. -/
structure Header where
  version : UInt8
  senderSession : Nat
  recvrSession : Nat
  recvrState : Nat
  senderState : Nat
  rest : Buffer

def Packet.header (p : Packet) : Header :=
  let version := obGet p.buffer
  let senderSession := obGetUi16 version.buffer
  let recvrSession := obGetUi16 senderSession.buffer
  let state := obGet recvrSession.buffer
  let byte := (state.value.getD 0xFF).toNat
  ⟨version.value.getD 0xFF, senderSession.value.toNat, recvrSession.value.toNat, byte >>> 4, byte % 16,
    state.buffer⟩

/-- Only a packet that is encrypted and signed and has the right version is looked at. -/
def Packet.accepted (p : Packet) : Bool := !p.noCrypt && !p.noSign && p.header.version == 2

/-- `none` is a failed assertion or a place outside of the table. -/
def vompMdpReceived (env : Env) (p : Packet) (s : Vomp) : Option (Vomp × List Output) :=
  let h := p.header
  if p.accepted then
    match vompFindOrCreateCall env p.source p.destination h.senderSession h.recvrSession
      h.senderState h.recvrState s with
    | none => none
    | some (none, s) => some (s, [])
    | some (some i, s) =>
      let acted := callHeard env h.rest h.senderState (s.calls i)
      if callAsserts env h.rest h.senderState (s.calls i) then none
      else some (s.put i acted.call, acted.out)
  else some (s, [])

/-! ### Requests and ticks -/

def vompDial (env : Env) (loc remote : Subscriber) (localDid remoteDid : Text) (s : Vomp) :
    Option (Vomp × List Output) :=
  if s.count ≥ maxCalls then some (s, [])
  else
    (vompCreateCall env remote loc 0 0 s).map fun (i, s) =>
      let call := s.calls i
      let call := { call with
        localHalf := { call.localHalf with did := didField localDid }
        remoteHalf := { call.remoteHalf with did := didField remoteDid } }
      let acted := (vompUpdateLocalState env callPrep call).andThen fun call =>
        vompUpdate env { call with initiatedCall := true }
      (s.put i acted.call, acted.out)

def vompRinging (env : Env) (call : Call) : Acted :=
  if !call.initiatedCall ∧ call.localHalf.state < ringingIn ∧ call.remoteHalf.state = ringingOut then
    (vompUpdateLocalState env ringingIn call).andThen (vompUpdate env)
  else ⟨call, []⟩

def vompPickup (env : Env) (call : Call) : Acted :=
  if call.localHalf.state ≤ ringingIn ∧ call.remoteHalf.state = ringingOut then
    (vompUpdateLocalState env inCall call).andThen fun call =>
      vompUpdate env { call with createTime := env.now }
  else ⟨call, []⟩

def vompHangup (env : Env) (call : Call) : Acted :=
  (vompUpdateLocalState env callEnded call).andThen (vompUpdate env)

/-- A client's request for the call with this token. A client that names no call is told
that it has ended. -/
def request (f : Call → Acted) (token : Nat) (s : Vomp) : Vomp × List Output :=
  match vompFindCallBySession s token with
  | none => (s, [.told (.hangup token)])
  | some i => (s.put i (f (s.calls i)).call, (f (s.calls i)).out)

/-- `config.vomp`. -/
structure Config where
  dialTimeout : Nat
  ringTimeout : Nat
  networkTimeout : Nat

/-- The start of `vomp_process_tick`: a call that has waited too long ends. -/
def expireCall (cfg : Config) (env : Env) (call : Call) : Acted :=
  if (call.remoteHalf.state < ringingOut ∧ call.createTime + cfg.dialTimeout < env.now) ∨
      (call.localHalf.state < inCall ∧ call.createTime + cfg.ringTimeout < env.now) ∨
      call.lastActivity + cfg.networkTimeout < env.now then
    (vompUpdateLocalState env callEnded { call with rejectionReason := .timeout })
      |>.andThen (vompUpdateRemoteState callEnded)
      |>.andThen (vompUpdate env)
  else ⟨call, []⟩

/-- The end of `vomp_process_tick`: the other party and the clients hear that the call is
alive, and the alarm is set again. -/
def keepAlive (env : Env) (call : Call) : Option Acted :=
  let acted := vompSendStatusRemote env call
  (schedule { acted.call with alarm := env.now + 1000 }).map fun call =>
    ⟨call, acted.out ++ [.told (.keepAlive call.localHalf.session)]⟩

inductive Event where
  | packet (env : Env) (p : Packet)
  | dial (env : Env) (loc remote : Subscriber) (localDid remoteDid : Text)
  | ringing (env : Env) (token : Nat)
  | pickup (env : Env) (token : Nat)
  | hangup (env : Env) (token : Nat)
  | tick (env : Env) (i : Fin maxCalls)
  | check (env : Env)
  | alive (env : Env)

/-- One event. Requests of clients and alarms come only while no alarm is processed, and an
alarm is taken from the schedule before its function is called. `none` is a failed assertion
or a place outside of the table. -/
def step (cfg : Config) (s : Vomp) : Event → Option (Vomp × List Output)
  | .packet env p => vompMdpReceived env p s
  | .dial env loc remote localDid remoteDid =>
    if s.phase = .idle then vompDial env loc remote localDid remoteDid s else some (s, [])
  | .ringing env token => some (if s.phase = .idle then request (vompRinging env) token s else (s, []))
  | .pickup env token => some (if s.phase = .idle then request (vompPickup env) token s else (s, []))
  | .hangup env token => some (if s.phase = .idle then request (vompHangup env) token s else (s, []))
  | .tick env i =>
    if s.phase = .idle ∧ (s.calls i).scheduled then
      let acted := expireCall cfg env (unschedule (s.calls i))
      some ({ s.put i acted.call with phase := .expired i }, acted.out)
    else some (s, [])
  | .check env =>
    match s.phase with
    | .expired i =>
      if (s.calls i).localHalf.state = callEnded ∧ (s.calls i).remoteHalf.state = callEnded then
        (vompCallDestroy i s).map fun s => ({ s with phase := .idle }, [])
      else
        let acted := vompUpdate env (s.calls i)
        some ({ s.put i acted.call with phase := .updated i }, acted.out)
    | _ => some (s, [])
  | .alive env =>
    match s.phase with
    | .updated i => (keepAlive env (s.calls i)).map fun acted =>
        ({ s.put i acted.call with phase := .idle }, acted.out)
    | _ => some (s, [])

def run (cfg : Config) (s : Vomp) : List Event → Option Vomp
  | [] => some s
  | e :: events => (step cfg s e).bind fun out => run cfg out.1 events

end VompCall
