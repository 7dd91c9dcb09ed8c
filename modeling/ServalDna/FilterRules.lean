import ServalDna.FileCursor

/-!
# The rules of the packet filter

`parse_mdp_packet_rules` reads the rules from a text file with a recursive descent
parser. It stops with a failed assertion where it needs a byte that is not there. What
such places are is said on the text alone: a rule that ends where another byte is
needed, and a first endpoint that does not fit the cursor's buffer.
-/
namespace FilterRules

open TextCodec FileCursor Option

/-! ## The parser -/

structure PortRange where
  first : Nat
  last : Nat
  deriving DecidableEq, Repr

/-- One end of a rule: no subscriber is any subscriber, and `hasPort` is the flag
`RULE_LOCAL_PORT` or `RULE_REMOTE_PORT`. -/
structure Endpoint where
  subscriber : Option (Binary 32)
  hasPort : Bool
  ports : PortRange
  deriving DecidableEq

/-- `struct packet_rule`, with its flags as members. -/
structure PacketRule where
  drop : Bool
  inbound : Bool
  outbound : Bool
  localEnd : Endpoint
  remoteEnd : Endpoint
  deriving DecidableEq

def Endpoint.zero : Endpoint := ⟨none, false, ⟨0, 0⟩⟩
def PacketRule.zero : PacketRule := ⟨false, false, false, .zero, .zero⟩

def sidStrlen : Nat := 64

/-- `none` is a failed assertion, here and below. -/
def space (c : Cursor) : Option (Bool × Cursor) :=
  match _hpeek : c.peek with
  | none => none
  | some (byte, c₁) =>
    if byte = some 32 then
      match _hnext : c₁.next with
      | none => none
      | some c₂ => (space c₂).map fun r => (true, r.2)
    else some (false, c₁)
termination_by c.text.length
decreasing_by
  have := (Cursor.next_inv _hnext).2
  have := (Cursor.peek_after _hpeek).length
  omega

theorem space_none (hpeek : c.peek = none) : space c = none := by
  rw [space]
  split
  · rfl
  next hsome =>
  rw [hpeek] at hsome
  cases hsome

theorem space_stop (hpeek : c.peek = some (byte, c1)) (hbyte : byte ≠ some 32) :
    space c = some (false, c1) := by
  rw [space]
  split
  · next hnone =>
    rw [hpeek] at hnone
    cases hnone
  next hsome =>
  rw [hpeek] at hsome
  cases hsome
  rw [if_neg hbyte]

theorem space_step (hpeek : c.peek = some (some 32, c1)) (hnext : c1.next = some c2) :
    space c = (space c2).map fun r => (true, r.2) := by
  rw [space]
  split
  · next hnone =>
    rw [hpeek] at hnone
    cases hnone
  next hsome =>
  rw [hpeek] at hsome
  cases hsome
  rw [if_pos rfl]
  split
  · next hnone =>
    rw [hnext] at hnone
    cases hnone
  next hsome =>
  rw [hnext] at hsome
  cases hsome
  rfl

def optspace (c : Cursor) : Option Cursor := (space c).map Prod.snd

def sep (c : Cursor) : Option (Bool × Cursor) := do
  let (byte, c) ← c.peek
  if byte = some 10 ∨ byte = some 59 then
    let c ← c.next
    return (true, c)
  else return (false, c)

/-- `strn_to_uint32` on what is loaded. -/
def number (base : Nat) (c : Cursor) : Option (Option Nat × Cursor) := do
  let loaded ← c.preloaded
  match strToUint (2 ^ 32) base loaded with
  | some (value, rest) =>
    let c ← c.advance (loaded.length - rest.length)
    return (some value, c)
  | none => return (none, c)

def port (c : Cursor) : Option (Option Nat × Cursor) :=
  match c.skip (ascii "0x") with
  | (true, c) => number 16 (c.preload 8)
  | (false, c) => number 10 (c.preload 10)

def portrange (range : PortRange) (c : Cursor) : Option (Bool × PortRange × Cursor) := do
  match ← port c with
  | (none, c) => return (false, range, c)
  | (some first, c) =>
    let c ← optspace c
    let (byte, c) ← c.peek
    if byte = some 45 then
      let c ← c.next
      let c ← optspace c
      match ← port c with
      | (none, c) => return (false, { range with first }, c)
      | (some last, c) => return (true, ⟨first, last⟩, c)
    else return (true, ⟨first, first⟩, c)

/-- `parse_sid_t` on what is loaded, with the length of the text that was read. -/
def parseSid (hex : Text) : Option (Binary 32 × Nat) :=
  if (ascii "broadcast").isPrefixOf hex then some (⟨List.replicate 32 0xff, List.length_replicate⟩, 9)
  else (parseBinary 32 hex hex.length).map fun sid => (sid, sidStrlen)

/-- The subscriber of an endpoint; `false` if there is none. -/
def sidany (e : Endpoint) (c : Cursor) : Option (Bool × Endpoint × Cursor) :=
  match (c.preload sidStrlen).skip (ascii "*") with
  | (true, c) => some (true, { e with subscriber := none }, c)
  | (false, c) => do
    let loaded ← c.preloaded
    match parseSid loaded with
    | some (sid, length) =>
      let c ← c.advance length
      return (true, { e with subscriber := some sid }, c)
    | none => return (false, e, c)

def endpoint (e : Endpoint) (c : Cursor) : Option (Bool × Endpoint × Cursor) := do
  match ← sidany e c with
  | (false, e, c) => return (false, e, c)
  | (true, e, c) =>
    let c ← optspace c
    let (byte, c) ← c.peek
    if byte = some 58 then
      let c ← c.next
      let c ← optspace c
      match ← portrange e.ports c with
      | (false, ports, c) => return (false, { e with ports }, c)
      | (true, ports, c) => return (true, { e with ports, hasPort := true }, c)
    else return (true, e, c)

def direction (rule : PacketRule) (c : Cursor) : PacketRule × Cursor :=
  let (inbound, c) := c.skip (ascii "<")
  let (outbound, c) := c.skip (ascii ">")
  ({ rule with inbound, outbound }, c)

def settle (pin : Nat) (found : Bool) (c : Cursor) : Option Cursor :=
  if found then (c.unpin pin).bind optspace else c.retreat pin

def remotePattern (rule : PacketRule) (c : Cursor) : Option (Bool × PacketRule × Cursor) :=
  match direction rule c with
  | (rule, c) =>
    if rule.inbound || rule.outbound then do
      let c ← optspace c
      let (found, e, c) ← endpoint rule.remoteEnd c
      return (found, { rule with remoteEnd := e }, c)
    else some (false, rule, c)

def pattern (rule : PacketRule) (c : Cursor) : Option (Bool × PacketRule × Cursor) := do
  let (pin, c) ← c.setPin
  let (found, e, c) ← endpoint rule.localEnd c
  let c ← settle pin found c
  remotePattern { rule with localEnd := e } c

def which (rule : PacketRule) (c : Cursor) : Option (Bool × PacketRule × Cursor) :=
  match c.skip (ascii "all") with
  | (true, c) => some (true, rule, c)
  | (false, c) => pattern rule c

def verb (rule : PacketRule) (c : Cursor) : Bool × PacketRule × Cursor :=
  match c.skip (ascii "allow") with
  | (true, c) => (true, rule, c)
  | (false, c) =>
    match c.skip (ascii "drop") with
    | (true, c) => (true, { rule with drop := true }, c)
    | (false, c) => (false, rule, c)

def rule (c : Cursor) : Option (Option PacketRule × Cursor) :=
  match verb .zero c with
  | (false, _, c) => some (none, c)
  | (true, r, c) => do
    let c ← optspace c
    let (found, r, c) ← which r c
    return (if found then some r else none, c)

/-! ### The cursor goes on -/

section After

open Cursor

theorem space_after (h : space c = some (found, c')) : After c c' := by
  fun_induction space c generalizing found with
  | case1 c hpeek => cases h
  | case2 c c1 hnext hpeek => cases h
  | case3 c c1 c2 hnext hpeek ih =>
    obtain ⟨⟨found', c3⟩, hsp, heq⟩ := map_eq_some_iff.mp h
    cases heq
    exact (peek_after hpeek).trans (After.trans ⟨1, (next_inv hnext).1⟩ (ih hsp))
  | case4 c byte c1 hpeek hbyte =>
    cases h
    exact peek_after hpeek

theorem optspace_after (h : optspace c = some c') : After c c' := by
  obtain ⟨⟨found, c1⟩, hsp, rfl⟩ := map_eq_some_iff.mp h
  exact space_after hsp

theorem sep_after (h : sep c = some (found, c')) :
    After c c' ∧ (found = true → c'.text.length < c.text.length) := by
  obtain ⟨⟨byte, c1⟩, hpeek, h⟩ := bind_eq_some_iff.mp h
  simp only at h
  split at h
  · obtain ⟨c2, hnext, ⟨⟩⟩ := bind_eq_some_iff.mp h
    obtain ⟨hmv, hlt⟩ := next_inv hnext
    have := (peek_after hpeek).length
    exact ⟨(peek_after hpeek).trans ⟨1, hmv⟩, fun _ => by omega⟩
  cases h
  exact ⟨peek_after hpeek, fun h => absurd h Bool.false_ne_true⟩

theorem number_after (h : number base c = some (value, c')) : After c c' := by
  obtain ⟨loaded, -, h⟩ := bind_eq_some_iff.mp h
  split at h
  · obtain ⟨c1, hadv, ⟨⟩⟩ := bind_eq_some_iff.mp h
    exact ⟨_, (advance_inv hadv).1⟩
  cases h
  exact .refl c

theorem port_after (h : port c = some (value, c')) : After c c' := by
  unfold port at h
  split at h
  · next c1 hskip => exact (skip_after hskip).trans ((c1.preload_after 8).trans (number_after h))
  · next c1 hskip => exact (skip_after hskip).trans ((c1.preload_after 10).trans (number_after h))

/-- What follows behind a separator, if there is one. -/
theorem separated_after {α : Type} {a a' : α} {rest : Cursor → Option (Bool × α × Cursor)}
    (hrest : ∀ {c}, rest c = some (found, a', c') → After c c')
    (h : ((optspace c).bind fun c => c.peek.bind fun p =>
      if p.1 = some byte then p.2.next.bind fun c => (optspace c).bind rest
      else some (true, a, p.2)) = some (found, a', c')) : After c c' := by
  obtain ⟨c1, hsp, h⟩ := bind_eq_some_iff.mp h
  obtain ⟨⟨there, c2⟩, hpeek, h⟩ := bind_eq_some_iff.mp h
  refine (optspace_after hsp).trans ((peek_after hpeek).trans ?_)
  split at h
  · obtain ⟨c3, hnext, h⟩ := bind_eq_some_iff.mp h
    obtain ⟨c4, hsp', h⟩ := bind_eq_some_iff.mp h
    exact After.trans ⟨1, (next_inv hnext).1⟩ ((optspace_after hsp').trans (hrest h))
  cases h
  exact .refl _

theorem portrange_after {rg rg' : PortRange}
    (h : portrange rg c = some (found, rg', c')) : After c c' := by
  obtain ⟨⟨first, c1⟩, hport, h⟩ := bind_eq_some_iff.mp h
  refine (port_after hport).trans ?_
  cases first with
  | none =>
    cases h
    exact .refl _
  | some first =>
    refine separated_after (fun h => ?_) h
    obtain ⟨⟨last, c6⟩, hport', h⟩ := bind_eq_some_iff.mp h
    refine (port_after hport').trans ?_
    cases last <;> cases h <;> exact .refl _

theorem sidany_after (h : sidany e c = some (found, e', c')) : After c c' := by
  unfold sidany at h
  refine (c.preload_after sidStrlen).trans ?_
  split at h
  · next c1 hskip =>
    cases h
    exact skip_after hskip
  next c1 hskip =>
  refine (skip_after hskip).trans ?_
  obtain ⟨loaded, -, h⟩ := bind_eq_some_iff.mp h
  split at h
  · obtain ⟨c2, hadv, ⟨⟩⟩ := bind_eq_some_iff.mp h
    exact ⟨_, (advance_inv hadv).1⟩
  cases h
  exact .refl _

theorem endpoint_after {e e' : Endpoint} (h : endpoint e c = some (found, e', c')) : After c c' := by
  obtain ⟨⟨there, e1, c1⟩, hsid, h⟩ := bind_eq_some_iff.mp h
  refine (sidany_after hsid).trans ?_
  cases there with
  | false =>
    cases h
    exact .refl _
  | true =>
    refine separated_after (fun h => ?_) h
    obtain ⟨⟨ok, ports, c6⟩, hports, h⟩ := bind_eq_some_iff.mp h
    refine (portrange_after hports).trans ?_
    cases ok <;> cases h <;> exact .refl _

theorem direction_after (h : direction r c = (r', c')) : After c c' := by
  cases h
  exact (skip_after (Prod.eta _)).trans (skip_after (Prod.eta _))

theorem remotePattern_after (h : remotePattern r c = some (found, r', c')) : After c c' := by
  unfold remotePattern at h
  generalize hdir : direction r c = d at h
  obtain ⟨r1, c1⟩ := d
  refine (direction_after hdir).trans ?_
  simp only at h
  split at h
  · obtain ⟨c2, hsp, h⟩ := bind_eq_some_iff.mp h
    obtain ⟨⟨there, e, c3⟩, hend, h⟩ := bind_eq_some_iff.mp h
    cases h
    exact (optspace_after hsp).trans (endpoint_after hend)
  cases h
  exact .refl _

/-- A pattern does not end before it begins, even if the cursor retreats. -/
theorem pattern_length (h : pattern r c = some (found, r', c')) : c'.text.length ≤ c.text.length := by
  obtain ⟨⟨pin, c1⟩, hpin, h⟩ := bind_eq_some_iff.mp h
  obtain ⟨⟨there, e, c2⟩, hend, h⟩ := bind_eq_some_iff.mp h
  obtain ⟨c3, hset, h⟩ := bind_eq_some_iff.mp h
  have haft := endpoint_after hend
  have htext : c1.text = c.text := by
    unfold setPin at hpin
    split at hpin <;> cases hpin
    rfl
  have hlen : c3.text.length ≤ c.text.length := by
    unfold settle at hset
    split at hset
    · obtain ⟨c4, hunpin, hsp⟩ := bind_eq_some_iff.mp hset
      have h1 := haft.length
      have h2 := (optspace_after hsp).length
      rw [unpin_text hunpin] at h2
      rw [htext] at h1
      omega
    · rw [retreat_text hpin haft hset]
  exact (remotePattern_after h).length.trans hlen

theorem verb_after (h : verb r c = (found, r', c')) : After c c' := by
  unfold verb at h
  split at h
  · next c1 hskip =>
    cases h
    exact skip_after hskip
  next c1 hskip =>
  refine (skip_after hskip).trans ?_
  split at h
  · next c2 hskip' =>
    cases h
    exact skip_after hskip'
  next c2 hskip' =>
  cases h
  exact skip_after hskip'

theorem rule_length {r : Option PacketRule} (h : rule c = some (r, c')) :
    c'.text.length ≤ c.text.length := by
  unfold rule at h
  split at h
  · next r1 c1 hverb =>
    cases h
    exact (verb_after hverb).length
  next r1 c1 hverb =>
  obtain ⟨c2, hsp, h⟩ := bind_eq_some_iff.mp h
  obtain ⟨⟨there, r2, c3⟩, hwhi, h⟩ := bind_eq_some_iff.mp h
  cases h
  have hlen := ((verb_after hverb).trans (optspace_after hsp)).length
  unfold which at hwhi
  split at hwhi
  · next c4 hskip =>
    cases hwhi
    exact (skip_after hskip).length.trans hlen
  · next c4 hskip => exact (pattern_length hwhi).trans ((skip_after hskip).length.trans hlen)

end After

/-! ### The list of rules -/

/-- The test of the loop and, if it passes, the loop's body; no rule ends the loop. -/
def nextRule (c : Cursor) : Option (Option PacketRule × Cursor) := do
  let (ended, c) := c.eof
  if ended then return (none, c)
  let (found, c) ← sep c
  if !found then return (none, c)
  let (ended, c) := c.eof
  if ended then return (none, c)
  let c ← optspace c
  let (r, c) ← rule c
  let c ← optspace c
  return (r, c)

theorem nextRule_length {c c' : Cursor} (h : nextRule c = some (some r, c')) :
    c'.text.length < c.text.length := by
  unfold nextRule at h
  simp only at h
  split at h
  · cases h
  obtain ⟨⟨found, c1⟩, hsep, h⟩ := bind_eq_some_iff.mp h
  obtain ⟨-, hlt⟩ := sep_after hsep
  have hlen := (c.preload_after 1).length
  split at h
  · cases h
  next hfnd =>
  split at h
  · cases h
  obtain ⟨c2, hsp, h⟩ := bind_eq_some_iff.mp h
  obtain ⟨⟨r', c3⟩, hrule, h⟩ := bind_eq_some_iff.mp h
  obtain ⟨c4, hsp', ⟨⟩⟩ := bind_eq_some_iff.mp h
  have h1 := hlt (by simpa using hfnd)
  have h2 := (c1.preload_after 1).length
  have h3 := (optspace_after hsp).length
  have h4 := rule_length hrule
  have h5 : c'.text.length ≤ c3.text.length := (optspace_after hsp').length
  simp only [Cursor.eof] at h1 h3
  omega

def rulesLoop (rules : List PacketRule) (c : Cursor) : Option (List PacketRule × Cursor) :=
  match _h : nextRule c with
  | none => none
  | some (none, c) => some (rules, c)
  | some (some r, c) => rulesLoop (rules ++ [r]) c
termination_by c.text.length
decreasing_by exact nextRule_length _h

theorem rulesLoop_eq (rules : List PacketRule) (c : Cursor) :
    rulesLoop rules c = (nextRule c).bind fun r =>
      match r.1 with
      | none => some (rules, r.2)
      | some rule => rulesLoop (rules ++ [rule]) r.2 := by
  rw [rulesLoop]
  split
  · next h => rw [h, bind_none]
  · next c' h => rw [h, bind_some]
  · next rule c' h => rw [h, bind_some]

/-- `_rules`, with the list. -/
def rules (c : Cursor) : Option (Bool × List PacketRule × Cursor) := do
  let c ← optspace c
  let (first, c) ← rule c
  let c ← optspace c
  let (list, c) ← match first with
    | some r => rulesLoop [r] c
    | none => some ([], c)
  let (ended, c) := c.eof
  return (ended, list, c)

def parseMdpPacketRules (file : Text) : Option (Int × List PacketRule) := do
  let (ended, list, c) ← rules (.init file)
  if ended then return (0, list)
  -- the message shows what is loaded
  if c.available ≠ 0 then
    let _ ← c.preloaded
    return (1, [])
  else return (1, [])

end FilterRules
