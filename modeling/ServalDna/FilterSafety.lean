import ServalDna.FilterRules

/-!
# Where the rule parser stops with a failed assertion

What the parser finds at a place of the text, said without the cursor: the part of a
rule that is looked for is there, with its length; it is not there; or the text is cut
short, so that a byte is needed where there is none. The last is what makes an
assertion fail. Inside a first endpoint, which is pinned, also the end of the buffer
cuts the text short.
-/
namespace FilterSafety

open TextCodec FileCursor FilterRules Option
open List hiding Cursor

/-! ## Readings of a text -/

inductive Reading where
  | absent | cut | found (length : Nat)
  deriving DecidableEq, Repr

namespace Reading

def andThen (r : Reading) (f : Nat → Reading) : Reading :=
  match r with
  | found n => f n
  | absent => absent
  | cut => cut

def after (n : Nat) : Reading → Reading
  | found m => found (n + m)
  | absent => absent
  | cut => cut

end Reading

open Reading

def spaces (t : Text) : Nat := (t.takeWhile (· == 32)).length

def spaceReading (pinned : Bool) (offset : Nat) (t : Text) : Reading :=
  if pinned ∧ bufferSize ≤ offset + spaces t then cut else found (spaces t)

/-- How many bytes of a number are looked at: the 64 bytes that an endpoint is loaded
with, or `n` bytes. -/
def window (pinned : Bool) (offset n : Nat) : Nat :=
  if pinned then min (max (sidStrlen - offset) n) (bufferSize - offset) else max (sidStrlen - offset) n

def numberReading (pinned : Bool) (base n offset : Nat) (t : Text) : Reading :=
  let s := t.take (window pinned offset n)
  if s = [] then cut
  else
    match strToUint (2 ^ 32) base s with
    | some (_, rest) => found (s.length - rest.length)
    | none => absent

def portReading (pinned : Bool) (offset : Nat) (t : Text) : Reading :=
  if (ascii "0x").isPrefixOf (t.take (window pinned offset 2)) then
    (numberReading pinned 16 8 (offset + 2) (t.drop 2)).after 2
  else numberReading pinned 10 10 offset t

def portrangeReading (pinned : Bool) (offset : Nat) (t : Text) : Reading :=
  (portReading pinned offset t).andThen fun n =>
  (spaceReading pinned (offset + n) (t.drop n)).andThen fun k =>
  if (t.drop (n + k)).head? = some 45 then
    (spaceReading pinned (offset + (n + k + 1)) (t.drop (n + k + 1))).andThen fun l =>
    (portReading pinned (offset + (n + k + 1 + l)) (t.drop (n + k + 1 + l))).after (n + k + 1 + l)
  else found (n + k)

def sidLength (t : Text) : Option Nat :=
  if t.head? = some 42 then some 1 else (parseSid (t.take sidStrlen)).map Prod.snd

def endpointReading (pinned : Bool) (t : Text) : Reading :=
  if t = [] then cut
  else
    match sidLength t with
    | none => absent
    | some n =>
      (spaceReading pinned n (t.drop n)).andThen fun k =>
      if (t.drop (n + k)).head? = some 58 then
        (spaceReading pinned (n + k + 1) (t.drop (n + k + 1))).andThen fun l =>
        (portrangeReading pinned (n + k + 1 + l) (t.drop (n + k + 1 + l))).after (n + k + 1 + l)
      else found (n + k)

def trim (t : Text) : Text := t.dropWhile (· == 32)

def directionLength (t : Text) : Nat :=
  let n := if t.head? = some 60 then 1 else 0
  if (t.drop n).head? = some 62 then n + 1 else n

def remoteReading (t : Text) : Reading :=
  let n := directionLength t
  if n = 0 then absent
  else (endpointReading false (trim (t.drop n))).after (n + spaces (t.drop n))

def patternReading (t : Text) : Reading :=
  if t = [] then cut
  else
    match endpointReading true t with
    | cut => cut
    | absent => remoteReading t
    | found n => (remoteReading (trim (t.drop n))).after (n + spaces (t.drop n))

def whichReading (t : Text) : Reading :=
  if (ascii "all").isPrefixOf t then found 3 else patternReading t

def verbLength (t : Text) : Option Nat :=
  if (ascii "allow").isPrefixOf t then some 5
  else if (ascii "drop").isPrefixOf t then some 4
  else none

def ruleReading (t : Text) : Reading :=
  match verbLength t with
  | none => absent
  | some n => (whichReading (trim (t.drop n))).after (n + spaces (t.drop n))

/-- From a place at which a rule is looked for to the places of the following rules. -/
inductive RuleAt : Text → Text → Prop where
  | here (t : Text) : RuleAt t t
  | next {t rest t' : Text} {n : Nat} {sep : UInt8} : ruleReading t = found n →
      trim (t.drop n) = sep :: rest → (sep = 10 ∨ sep = 59) → rest ≠ [] → RuleAt (trim rest) t' →
      RuleAt t t'

/-- No rule from here on is cut short. -/
def Complete (t : Text) : Prop := ∀ t', RuleAt t t' → ruleReading t' ≠ cut

/-! ## Results that follow a reading -/

/-- What a reading says of a result: there is none if the text is cut short, it is `missing` if the part
is absent, and it is `there` if the part is found. -/
def Settles {β : Type} (missing : β → Prop) (there : Nat → β → Prop) : Reading → Option β → Prop
  | .cut, result => result = none
  | .absent, result => ∃ b, result = some b ∧ missing b
  | .found n, result => ∃ b, result = some b ∧ there n b

section Settles

variable {β γ : Type} {missing : β → Prop} {there there' : Nat → β → Prop} {missing' : γ → Prop}
  {there'' : Nat → γ → Prop} {rd : Reading} {res : Option β}

theorem Settles.bind (h : Settles missing there rd res) {k : β → Option γ} {f : Nat → Reading}
    (hmissing : ∀ b, res = some b → missing b → ∃ b', k b = some b' ∧ missing' b')
    (hthere : ∀ n b, res = some b → there n b → Settles missing' there'' (f n) (k b)) :
    Settles missing' there'' (rd.andThen f) (res.bind k) := by
  cases rd with
  | cut =>
    obtain rfl : res = none := h
    rfl
  | absent =>
    obtain ⟨b, rfl, hb⟩ := h
    exact hmissing b rfl hb
  | found n =>
    obtain ⟨b, rfl, hb⟩ := h
    exact hthere n b rfl hb

theorem Settles.map (h : Settles missing there rd res) {k : β → Option γ}
    (hmissing : ∀ b, res = some b → missing b → ∃ b', k b = some b' ∧ missing' b')
    (hthere : ∀ n b, res = some b → there n b → ∃ b', k b = some b' ∧ there'' n b') :
    Settles missing' there'' rd (res.bind k) := by
  have hbind : Settles missing' there'' (rd.andThen .found) (res.bind k) := h.bind hmissing hthere
  cases rd <;> exact hbind

theorem Settles.after (h : Settles missing there rd res) (hthere : ∀ n b, there n b → there' (m + n) b) :
    Settles missing there' (rd.after m) res := by
  cases rd with
  | absent | cut => exact h
  | found n => exact h.imp fun b hb => hb.imp_right (hthere n b)

end Settles

/-! ## The cursor inside an endpoint -/

open Cursor (Same Moved After Free loaded preload_same preload_available)

/-- The cursor stands at an offset from the start of an endpoint. What is loaded is
left from the 64 bytes at the start, or at most `slack` bytes. -/
structure Standing (pinned : Bool) (slack offset : Nat) (t : Text) (c : Cursor) : Prop where
  text : c.text = t
  span : c.span = if pinned then some offset else none
  low : min (sidStrlen - offset) t.length ≤ c.available
  high : c.available ≤ max (sidStrlen - offset) slack

variable {t : Text}

section Standing

variable (h : Standing pinned slack offset t c)

include h

theorem Standing.limit : c.limit = if pinned then bufferSize - offset else bufferSize := by
  rw [Cursor.limit, h.span]
  cases pinned <;> rfl

theorem Standing.weaken (hle : slack ≤ slack') : Standing pinned slack' offset t c :=
  ⟨h.text, h.span, h.low, h.high.trans (by omega)⟩

theorem Standing.load (hn : n ≤ slack) (hsame : Same c c')
    (hav : c'.available = c.loaded n) : Standing pinned slack offset t c' := by
  have hlow := h.low
  have hhigh := h.high
  refine ⟨hsame.text.trans h.text, hsame.span.trans h.span, ?_, ?_⟩
  · rw [hav, loaded]
    omega
  rw [hav, loaded]
  omega

theorem Standing.move (hmv : Moved c n c') (hav : c'.available = c.available - n) :
    Standing pinned (slack - n) (offset + n) (t.drop n) c' := by
  have hlow := h.low
  have hhigh := h.high
  refine ⟨by rw [hmv.text, h.text], ?_, ?_, ?_⟩
  · rw [hmv.span, h.span]
    cases pinned <;> rfl
  · rw [hav, length_drop]
    omega
  · omega

theorem Standing.full : c.limit = 0 ↔ pinned = true ∧ bufferSize ≤ offset := by
  rw [h.limit]
  cases pinned with
  | true => simp [Nat.sub_eq_zero_iff_le]
  | false => simp [bufferSize]

theorem Standing.pos (hlim : c.limit ≠ 0) (ht : t ≠ []) : 0 < (c.preload 1).available := by
  have hlen := length_pos_iff.mpr ht
  rw [preload_available, loaded, h.text]
  omega

/-- The byte at the cursor. -/
theorem Standing.peek (hsl : 1 ≤ slack) : if pinned ∧ bufferSize ≤ offset then c.peek = none
    else c.peek = some (t.head?, c.preload 1) ∧ Standing pinned slack offset t (c.preload 1) ∧
      (t ≠ [] → 0 < (c.preload 1).available) := by
  split
  · next hfull => exact c.peek_full (h.full.mpr hfull)
  next hfull =>
  have hlim : c.limit ≠ 0 := fun hzero => hfull (h.full.mp hzero)
  refine ⟨?_, h.load hsl (preload_same c 1) (preload_available c 1), h.pos hlim⟩
  rw [c.peek_spec hlim, h.text]

/-- The byte at the cursor, and the cursor behind it. -/
theorem Standing.next (hsl : 1 ≤ slack)
    (hfull : ¬(pinned = true ∧ bufferSize ≤ offset)) (hhead : t.head? = some byte) :
    ∃ c', (c.preload 1).next = some c' ∧ Standing pinned (slack - 1) (offset + 1) (t.drop 1) c' := by
  have hpeek := h.peek hsl
  rw [if_neg hfull] at hpeek
  obtain ⟨-, hstd, hpos⟩ := hpeek
  have hload := hpos (by rintro rfl; cases hhead)
  obtain ⟨c', hnext, hmv, hav⟩ := (c.preload 1).next_spec hload
  exact ⟨c', hnext, hstd.move hmv hav⟩

/-- What is loaded when a number is read. -/
theorem available_window (hsl : slack ≤ n)
    (hn : n ≤ bufferSize) : c.loaded n = (t.take (window pinned offset n)).length := by
  have hlow := h.low
  have hhigh := h.high
  have hlen := c.available_le
  have hlim := c.available_le_limit
  rw [h.text] at hlen
  rw [h.limit] at hlim
  rw [loaded, h.limit, h.text, length_take, window]
  cases pinned with
  | true =>
    simp only [if_true] at hlim ⊢
    omega
  | false =>
    simp only [Bool.false_eq_true, if_false] at hlim ⊢
    omega

/-- The word is loaded if it is there, unless the buffer ends. -/
theorem skip_reading (word : Text) (hsl : word.length ≤ slack) (hword : word.length ≤ bufferSize) :
    if word.isPrefixOf (t.take (window pinned offset word.length)) then
      ∃ c', c.skip word = (true, c') ∧
        Standing pinned (slack - word.length) (offset + word.length) (t.drop word.length) c'
    else ∃ c', c.skip word = (false, c') ∧ Standing pinned slack offset t c' := by
  have hspec := c.skip_spec word
  have hiff : word.isPrefixOf (t.take (window pinned offset word.length)) = true ↔
      word.length ≤ c.loaded word.length ∧ word.isPrefixOf c.text = true := by
    have hlim := c.available_le_limit
    have hwin : word.length ≤ window pinned offset word.length ↔ word.length ≤ c.limit := by
      rw [h.limit, window]
      cases pinned with
      | true =>
        simp only [if_true]
        omega
      | false =>
        simp only [Bool.false_eq_true, if_false]
        omega
    rw [List.isPrefixOf_iff_prefix, List.isPrefixOf_iff_prefix, prefix_take_iff, h.text, hwin,
      loaded, h.text]
    constructor
    · rintro ⟨hpre, hle⟩
      have := hpre.length_le
      exact ⟨by omega, hpre⟩
    rintro ⟨hle, hpre⟩
    exact ⟨hpre, by omega⟩
  by_cases hthr : word.isPrefixOf (t.take (window pinned offset word.length)) = true
  · rw [if_pos (hiff.mp hthr)] at hspec
    rw [if_pos hthr]
    obtain ⟨c', hskip, hmv, hav⟩ := hspec
    have hload := h.load hsl (preload_same c _) (preload_available c _)
    refine ⟨c', hskip, hload.move ((preload_same c _).symm.moved hmv) ?_⟩
    rw [preload_available, hav]
  rw [if_neg (fun hboth => hthr (hiff.mpr hboth))] at hspec
  rw [if_neg hthr]
  obtain ⟨c', hskip, hsame, hav⟩ := hspec
  exact ⟨c', hskip, h.load hsl hsame hav⟩

def Follows {α : Type} (pinned : Bool) (slack offset : Nat) (t : Text) :
    Reading → Option (Bool × α × Cursor) → Prop :=
  Settles (fun r => r.1 = false) fun n r =>
    r.1 = true ∧ Standing pinned slack (offset + n) (t.drop n) r.2.2

omit h in
theorem spaces_cons : spaces (32 :: t) = spaces t + 1 := rfl

omit h in
theorem spaces_other (h : byte ≠ 32) : spaces (byte :: t) = 0 := by
  rw [spaces, takeWhile_cons_of_neg (by simpa using h)]
  rfl

theorem space_reading (hsl : 1 ≤ slack) :
    if pinned ∧ bufferSize ≤ offset + spaces t then space c = none
    else ∃ found c', space c = some (found, c') ∧
      Standing pinned slack (offset + spaces t) (t.drop (spaces t)) c' := by
  induction t generalizing c offset with
  | nil =>
    have hpeek := h.peek hsl
    rw [show spaces [] = 0 from rfl, add_zero]
    split at hpeek
    · next hfull => rw [if_pos hfull, space_none hpeek]
    next hfull =>
    rw [if_neg hfull]
    exact ⟨false, _, space_stop hpeek.1 nofun, hpeek.2.1⟩
  | cons byte rest ih =>
    have hpeek := h.peek hsl
    split at hpeek
    · next hfull => rw [if_pos ⟨hfull.1, hfull.2.trans (Nat.le_add_right _ _)⟩, space_none hpeek]
    next hfull =>
    obtain ⟨hpeek, hstd, hpos⟩ := hpeek
    have hload := hpos (cons_ne_nil _ _)
    by_cases hbyte : byte = 32
    · subst hbyte
      obtain ⟨c2, hnext, hmv, hav⟩ := (c.preload 1).next_spec hload
      have hrest := ih ((hstd.move hmv hav).weaken (Nat.sub_le slack 1))
      rw [spaces_cons, add_comm (spaces rest) 1, ← add_assoc, space_step hpeek hnext]
      split
      · next hcut =>
        rw [if_pos hcut] at hrest
        rw [hrest, map_none]
      next hcut =>
      rw [if_neg hcut] at hrest
      obtain ⟨found, c', hsp, hstd'⟩ := hrest
      refine ⟨true, c', by rw [hsp, map_some], ?_⟩
      rw [add_comm 1, drop_succ_cons]
      exact hstd'
    rw [spaces_other hbyte, add_zero, if_neg hfull]
    exact ⟨false, _, space_stop hpeek (by simpa using hbyte), hstd⟩

/-- Optional spaces. -/
theorem optspace_reading (hsl : 1 ≤ slack) :
    Settles (fun _ => False) (fun k c' => Standing pinned slack (offset + k) (t.drop k) c' ∧
      ¬(pinned = true ∧ bufferSize ≤ offset + k)) (spaceReading pinned offset t) (optspace c) := by
  have hsp := space_reading h hsl
  unfold spaceReading
  by_cases hcut : pinned = true ∧ bufferSize ≤ offset + spaces t
  · rw [if_pos hcut] at hsp
    rw [if_pos hcut, optspace, hsp]
    rfl
  rw [if_neg hcut] at hsp
  rw [if_neg hcut]
  obtain ⟨found, c', hsp, hstd⟩ := hsp
  exact ⟨c', by rw [optspace, hsp, map_some], hstd, hcut⟩

/-! ## Numbers and ports -/

def FollowsNumber (pinned : Bool) (slack offset : Nat) (t : Text) :
    Reading → Option (Option Nat × Cursor) → Prop :=
  Settles (fun r => r.1 = none) fun n r =>
    r.1.isSome ∧ Standing pinned slack (offset + n) (t.drop n) r.2

theorem number_reading (hsl : slack ≤ n) (hn : n ≤ bufferSize) :
    FollowsNumber pinned (n - 1) offset t (numberReading pinned base n offset t)
      (number base (c.preload n)) := by
  have hav := (preload_available c n).trans (available_window h hsl hn)
  have hstd := (h.weaken hsl).load (Nat.le_refl n) (preload_same c n) (preload_available c n)
  have hload : (c.preload n).text.take (c.preload n).available = t.take (window pinned offset n) := by
    rw [hav, hstd.text, length_take, ← take_take, take_length]
  unfold numberReading number
  rw [Cursor.preloaded_spec, hload, hav]
  generalize t.take (window pinned offset n) = s at *
  by_cases hs : s = []
  · rw [if_pos hs, hs]
    rfl
  have hlen : s.length ≠ 0 := fun hzero => hs (length_eq_zero_iff.mp hzero)
  rw [if_neg hs, if_neg hlen]
  simp only [bind_eq_bind, bind_some]
  cases hread : strToUint (2 ^ 32) base s with
  | none => exact ⟨_, rfl, rfl⟩
  | some r =>
    obtain ⟨value, rest⟩ := r
    have hdig := strToUint_length hread
    obtain ⟨c', hadv, hmv, hav'⟩ :=
      (c.preload n).advance_spec (s.length - rest.length) (by omega)
    refine ⟨(some value, c'), ?_, rfl, (hstd.move hmv hav').weaken (by omega)⟩
    simp only [hadv, bind_some]
    rfl

omit h in
theorem FollowsNumber.after (h : FollowsNumber pinned slack (offset + m) (t.drop m) rd result)
    (hle : slack ≤ slack') : FollowsNumber pinned slack' offset t (rd.after m) result := by
  refine Settles.after h fun n r hr => hr.imp_right fun hstd => ?_
  rw [← add_assoc, ← drop_drop]
  exact hstd.weaken hle

theorem port_reading (hsl : slack ≤ 8) :
    FollowsNumber pinned 9 offset t (portReading pinned offset t) (port c) := by
  have hskip := skip_reading (h.weaken hsl) (ascii "0x") (by decide) (by decide)
  rw [show (ascii "0x").length = 2 from rfl] at hskip
  unfold portReading port
  split at hskip
  · next hthr =>
    obtain ⟨c', hskip, hstd⟩ := hskip
    rw [if_pos hthr, hskip]
    exact (number_reading hstd (by decide) (by decide)).after (by decide)
  next hthr =>
  obtain ⟨c', hskip, hstd⟩ := hskip
  rw [if_neg hthr, hskip]
  exact number_reading hstd (by decide) (by decide)

/-- Spaces, and then the byte behind them. -/
theorem Standing.look (hsl : 1 ≤ slack) :
    Settles (fun _ => False) (fun k p => p.1 = (t.drop k).head? ∧
        Standing pinned slack (offset + k) (t.drop k) p.2 ∧
        ∀ byte, (t.drop k).head? = some byte → ∃ c1, p.2.next = some c1 ∧
          Standing pinned (slack - 1) (offset + (k + 1)) (t.drop (k + 1)) c1)
      (spaceReading pinned offset t) ((optspace c).bind Cursor.peek) := by
  refine (optspace_reading h hsl).map (fun _ _ hno => hno.elim) fun k c' _ hstd => ?_
  obtain ⟨hstd, hfull⟩ := hstd
  have hpeek := hstd.peek hsl
  rw [if_neg hfull] at hpeek
  refine ⟨_, hpeek.1, rfl, hpeek.2.1, fun byte hbyte => ?_⟩
  obtain ⟨c1, hnext, hstd'⟩ := hstd.next hsl hfull hbyte
  exact ⟨c1, hnext, by rwa [drop_drop] at hstd'⟩

end Standing

theorem Follows.after {α : Type} {result : Option (Bool × α × Cursor)}
    (h : Follows pinned slack (offset + m) (t.drop m) rd result) :
    Follows pinned slack offset t (rd.after m) result := by
  refine Settles.after h fun n r hr => hr.imp_right fun hstd => ?_
  rwa [← add_assoc, ← drop_drop]

/-- What follows behind a separator, if there is one; `plc m` is where the text is when
`m` bytes of it have been read. -/
theorem separated_reading {α : Type} (a : α) {plc : Nat → Nat}
    (hpl : ∀ m, plc m = offset + m) (last : Nat → Reading)
    {rest : Cursor → Option (Bool × α × Cursor)} {n : Nat}
    (h : Standing pinned slack (plc n) (t.drop n) c) (hpos : 1 ≤ slack) (hsl : slack ≤ 9)
    (hrest : ∀ m c, Standing pinned 8 (plc m) (t.drop m) c →
      Follows pinned 9 (plc m) (t.drop m) (last m) (rest c)) :
    Follows pinned 9 offset t ((spaceReading pinned (plc n) (t.drop n)).andThen fun k =>
        if (t.drop (n + k)).head? = some byte then
          (spaceReading pinned (plc (n + k + 1)) (t.drop (n + k + 1))).andThen fun l =>
          (last (n + k + 1 + l)).after (n + k + 1 + l)
        else .found (n + k))
      ((optspace c).bind fun c => c.peek.bind fun p =>
        if p.1 = some byte then p.2.next.bind fun c => (optspace c).bind rest
        else some (true, a, p.2)) := by
  obtain rfl : plc = (offset + ·) := funext hpl
  have hlook := h.look hpos
  rw [← Option.bind_assoc]
  refine hlook.bind (fun _ _ hno => hno.elim) fun k p _ hp => ?_
  obtain ⟨hbyte, hstd3, hnext⟩ := hp
  rw [drop_drop] at hbyte hstd3
  rw [hbyte]
  simp only [drop_drop] at hnext
  by_cases hthr : (t.drop (n + k)).head? = some byte
  · obtain ⟨c4, hnext, hstd4⟩ := hnext byte hthr
    rw [add_assoc offset n (k + 1), ← add_assoc n k 1] at hstd4
    rw [if_pos hthr, if_pos hthr, hnext, bind_some]
    refine (optspace_reading (hstd4.weaken (Nat.sub_le_sub_right hsl 1)) (by decide)).bind
      (fun _ _ hno => hno.elim) fun l c5 _ hstd5 => ?_
    rw [drop_drop, add_assoc offset (n + k + 1) l] at hstd5
    exact (hrest _ c5 hstd5.1).after
  rw [if_neg hthr, if_neg hthr]
  rw [add_assoc] at hstd3
  exact ⟨_, rfl, rfl, hstd3.weaken hsl⟩

/-- The parser of a port range does what the text says. -/
theorem portrange_reading (h : Standing pinned slack offset t c) (hsl : slack ≤ 8) (rg : PortRange) :
    Follows pinned 9 offset t (portrangeReading pinned offset t) (portrange rg c) := by
  refine (port_reading h hsl).bind ?_ ?_
  · rintro ⟨_, c'⟩ - rfl
    exact ⟨_, rfl, rfl⟩
  rintro n ⟨first, c1⟩ - ⟨hsome, hstd⟩
  obtain ⟨first, rfl⟩ := isSome_iff_exists.mp hsome
  refine separated_reading _ (fun _ => rfl) (fun m => portReading pinned (offset + m) (t.drop m))
    hstd (by decide) le_rfl fun m c5 hstd5 => (port_reading hstd5 (by decide)).map ?_ ?_
  · rintro ⟨_, c'⟩ - rfl
    exact ⟨_, rfl, rfl⟩
  rintro k ⟨last, c'⟩ - ⟨hlast, hstd'⟩
  obtain ⟨last, rfl⟩ := isSome_iff_exists.mp hlast
  exact ⟨_, rfl, rfl, hstd'⟩

/-! ## Endpoints -/

/-- The cursor at the start of an endpoint. -/
structure Starting (pinned : Bool) (t : Text) (c : Cursor) : Prop where
  text : c.text = t
  span : c.span = if pinned then some 0 else none
  available : c.available ≤ sidStrlen

theorem Starting.load (h : Starting pinned t c) : Standing pinned 1 0 t (c.preload sidStrlen) := by
  have hsame := preload_same c sidStrlen
  have hlim : c.limit = bufferSize := by
    rw [Cursor.limit, h.span]
    cases pinned <;> rfl
  have hbuf : sidStrlen ≤ bufferSize := by decide
  have hav := h.available
  refine ⟨hsame.text.trans h.text, hsame.span.trans h.span, ?_, ?_⟩
  · rw [preload_available, loaded, hlim, h.text]
    omega
  rw [preload_available, loaded, hlim]
  omega

theorem parseSid_length (h : parseSid s = some (sid, n)) : n ≤ s.length := by
  unfold parseSid at h
  split at h
  · next hword =>
    cases h
    exact (List.isPrefixOf_iff_prefix.mp hword).length_le
  obtain ⟨b, hb, ⟨⟩⟩ := map_eq_some_iff.mp h
  unfold parseBinary at hb
  split at hb
  · cases hb
  · next hlen => exact le_of_eq (not_not.mp hlen).symm

theorem head_iff : [byte].isPrefixOf t = true ↔ t.head? = some byte := by
  rw [List.isPrefixOf_iff_prefix]
  cases t with
  | nil => simp
  | cons first rest =>
    rw [cons_prefix_cons, head?_cons, Option.some.injEq]
    exact ⟨fun h => h.1.symm, fun h => ⟨h.symm, nil_prefix⟩⟩

theorem star_iff : (ascii "*").isPrefixOf (t.take (window pinned 0 1)) = true ↔ t.head? = some 42 := by
  have hwin : window pinned 0 1 = 63 + 1 := by cases pinned <;> rfl
  have hstar : ascii "*" = [42] := by decide
  rw [hwin, hstar, head_iff, head?_take, if_neg (Nat.succ_ne_zero _)]

theorem sidany_reading (h : Starting pinned t c) (e : Endpoint) : if t = [] then sidany e c = none else
      match sidLength t with
      | none => ∃ e' c', sidany e c = some (false, e', c') ∧ Starting pinned t c'
      | some n => ∃ e' c', sidany e c = some (true, e', c') ∧ Standing pinned 1 n (t.drop n) c' := by
  have hstd := h.load
  have hskip := skip_reading hstd (ascii "*") (by decide) (by decide)
  unfold sidany sidLength
  split at hskip
  · next hstar =>
    have hhead := star_iff.mp hstar
    obtain ⟨c', hskip, hstd'⟩ := hskip
    rw [if_neg (by rintro rfl; cases hhead), hskip]
    simp only [if_pos hhead]
    exact ⟨_, c', rfl, hstd'.weaken (by decide)⟩
  next hstar =>
  have hhead : ¬t.head? = some 42 := fun hhead => hstar (star_iff.mpr hhead)
  obtain ⟨c', hskip, hstd'⟩ := hskip
  rw [hskip]
  simp only [if_neg hhead]
  have hlow := hstd'.low
  have hhigh := hstd'.high
  have hle := c'.available_le
  rw [hstd'.text] at hle
  rw [Cursor.preloaded_spec]
  have hsid : sidStrlen = 64 := rfl
  split
  · next hnil =>
    rw [hnil, length_nil] at hle
    rw [if_pos (by omega)]
    rfl
  next hne =>
  have hlen := length_pos_iff.mpr hne
  have htake : c'.text.take c'.available = t.take sidStrlen := by
    rw [hstd'.text, show c'.available = min sidStrlen t.length by omega, ← take_take, take_length]
  rw [if_neg (by omega), htake]
  simp only [bind_eq_bind, bind_some]
  cases hpar : parseSid (t.take sidStrlen) with
  | none => exact ⟨_, c', rfl, hstd'.text, hstd'.span, by omega⟩
  | some r =>
    obtain ⟨sid, n⟩ := r
    have hn := parseSid_length hpar
    rw [length_take] at hn
    obtain ⟨c'', hadv, hmv, hav⟩ := c'.advance_spec n (by omega)
    have hstd'' := hstd'.move hmv hav
    rw [zero_add] at hstd''
    simp only [hadv, bind_some, map_some]
    exact ⟨_, c'', rfl, hstd''.weaken (by omega)⟩

/-- The parser of an endpoint does what the text says. -/
theorem endpoint_reading (h : Starting pinned t c) (e : Endpoint) :
    Follows pinned 9 0 t (endpointReading pinned t) (endpoint e c) := by
  have hsid := sidany_reading h e
  unfold endpointReading endpoint
  by_cases hnil : t = []
  · rw [if_pos hnil] at hsid
    rw [if_pos hnil, hsid]
    rfl
  rw [if_neg hnil] at hsid
  rw [if_neg hnil]
  generalize sidLength t = length at *
  cases length with
  | none =>
    obtain ⟨e', c', hsid, -⟩ := hsid
    rw [hsid]
    exact ⟨_, rfl, rfl⟩
  | some n =>
    obtain ⟨e', c1, hsid, hstd⟩ := hsid
    rw [hsid]
    refine separated_reading e' (fun m => (zero_add m).symm)
      (fun m => portrangeReading pinned m (t.drop m)) hstd (by decide) (by decide)
      fun m c5 hstd5 => (portrange_reading hstd5 (by decide) e'.ports).map ?_ ?_
    · rintro ⟨_, ports, c'⟩ - rfl
      exact ⟨_, rfl, rfl⟩
    · rintro k ⟨_, ports, c'⟩ - ⟨rfl, hstd'⟩
      exact ⟨_, rfl, rfl, hstd'⟩

/-- Without a subscriber the cursor stays where it is. -/
theorem endpoint_noSid (h : Starting pinned t c) (hne : t ≠ []) (hsid : sidLength t = none) (e : Endpoint) :
    ∃ e' c', endpoint e c = some (false, e', c') ∧ Starting pinned t c' := by
  have hrd := sidany_reading h e
  rw [if_neg hne, hsid] at hrd
  obtain ⟨e', c', hres, hsta⟩ := hrd
  refine ⟨e', c', ?_, hsta⟩
  rw [endpoint, hres]
  rfl

/-! ## Rules -/

/-- The cursor is not pinned, and not more is loaded than an endpoint needs. -/
structure Out (t : Text) (c : Cursor) : Prop where
  text : c.text = t
  free : c.Free
  available : c.available ≤ sidStrlen

theorem trim_eq_drop : trim t = t.drop (spaces t) := by
  induction t with
  | nil => rfl
  | cons byte rest ih =>
    by_cases hbyte : byte = 32
    · subst hbyte
      exact ih
    rw [spaces_other hbyte, trim, dropWhile_cons_of_neg (by simpa using hbyte)]
    rfl

/-- A cursor that is not pinned, as one far behind the start of an endpoint. -/
theorem standing_free (hfree : c.Free) (h : c.available ≤ slack) :
    Standing false slack sidStrlen c.text c := by
  refine ⟨rfl, hfree.span, ?_, ?_⟩ <;> omega

theorem Standing.out (h : Standing false slack offset t c) (hsl : slack ≤ sidStrlen)
    (hfree : c.Free) : Out t c := by
  have hhigh := h.high
  exact ⟨h.text, hfree, by omega⟩

theorem free_after (hfree : c.Free) (haft : After c c') : c'.Free := by
  obtain ⟨n, hmv⟩ := haft
  exact hfree.moved hmv

theorem free_optspace (hfree : c.Free) : ∃ c', optspace c = some c' ∧ c'.Free ∧ c'.text = trim c.text ∧
      c'.available ≤ max c.available 1 := by
  have hsp := space_reading (standing_free hfree (le_max_left c.available 1)) (by omega)
  obtain ⟨found, c', hsp, hstd⟩ := hsp
  have hhigh := hstd.high
  refine ⟨c', by rw [optspace, hsp, map_some], free_after hfree (space_after hsp), ?_, by omega⟩
  rw [hstd.text, trim_eq_drop]

section Out

variable (h : Out t c)

include h

theorem Out.optspace : ∃ c', optspace c = some c' ∧ Out (trim t) c' := by
  obtain ⟨c', hsp, hfree, htext, hav⟩ := free_optspace h.free
  have hle := h.available
  have hsid : sidStrlen = 64 := rfl
  exact ⟨c', hsp, htext.trans (by rw [h.text]), hfree, by omega⟩

/-- A word at the cursor. -/
theorem Out.skip (word : Text) (hword : word.length ≤ sidStrlen) :
    if word.isPrefixOf t then ∃ c', c.skip word = (true, c') ∧ Out (t.drop word.length) c'
    else ∃ c', c.skip word = (false, c') ∧ Out t c' ∧ (word ≠ [] → t ≠ [] → 0 < c'.available) := by
  have hspec := c.skip_spec word
  have hle := h.available
  have hlim : c.limit = bufferSize := by rw [Cursor.limit, h.free.span]; rfl
  have hbuf : sidStrlen ≤ bufferSize := by decide
  have hload : c.loaded word.length = max c.available (min word.length t.length) := by
    rw [loaded, hlim, h.text]
    omega
  by_cases hthr : word.isPrefixOf t = true
  · have hlen := (List.isPrefixOf_iff_prefix.mp hthr).length_le
    rw [if_pos ⟨by omega, by rw [h.text]; exact hthr⟩] at hspec
    rw [if_pos hthr]
    obtain ⟨c', hskip, hmv, hav⟩ := hspec
    exact ⟨c', hskip, by rw [hmv.text, h.text], h.free.moved hmv, by omega⟩
  rw [if_neg (by rw [h.text]; exact fun hboth => hthr hboth.2)] at hspec
  rw [if_neg hthr]
  obtain ⟨c', hskip, hsame, hav⟩ := hspec
  refine ⟨c', hskip, ⟨hsame.text.trans h.text, h.free.moved hsame.still, by omega⟩, fun hw ht => ?_⟩
  have := length_pos_iff.mpr hw
  have := length_pos_iff.mpr ht
  omega

/-- One byte at the cursor. -/
theorem Out.skipByte (byte : UInt8) : ∃ c', c.skip [byte] = (decide (t.head? = some byte), c') ∧
      Out (t.drop (if t.head? = some byte then 1 else 0)) c' := by
  have hskip := h.skip [byte] (show 1 ≤ 64 by decide)
  by_cases hhead : t.head? = some byte
  · rw [if_pos (head_iff.mpr hhead)] at hskip
    obtain ⟨c', hskip, hout⟩ := hskip
    exact ⟨c', by rw [hskip, decide_eq_true hhead], by rw [if_pos hhead]; exact hout⟩
  rw [if_neg (fun hpre => hhead (head_iff.mp hpre))] at hskip
  obtain ⟨c', hskip, hout, -⟩ := hskip
  exact ⟨c', by rw [hskip, decide_eq_false hhead], by rw [if_neg hhead]; exact hout⟩

theorem direction_reading (r : PacketRule) :
    ∃ r' c', direction r c = (r', c') ∧ Out (t.drop (directionLength t)) c' ∧
      (r'.inbound || r'.outbound) = decide (directionLength t ≠ 0) := by
  obtain ⟨c1, hless, hout1⟩ := h.skipByte 60
  obtain ⟨c2, hgt, hout2⟩ := hout1.skipByte 62
  have hless' : ascii "<" = [60] := by decide
  have hgt' : ascii ">" = [62] := by decide
  unfold direction directionLength
  rw [hless', hgt', hless]
  simp only [hgt]
  refine ⟨_, c2, rfl, ?_, ?_⟩
  · rw [drop_drop] at hout2
    by_cases h62 : (t.drop (if t.head? = some 60 then 1 else 0)).head? = some 62
    · simp only [if_pos h62] at hout2 ⊢
      exact hout2
    simp only [if_neg h62] at hout2 ⊢
    exact hout2
  by_cases h60 : t.head? = some 60
  · simp only [if_pos h60]
    split <;> simp [*]
  simp only [if_neg h60, drop_zero]
  split <;> simp [*]

omit h in
/-- Where there is no direction, none is found, however much is loaded. -/
theorem direction_none (h : directionLength c.text = 0) (r : PacketRule) :
    ∃ r' c', direction r c = (r', c') ∧ (r'.inbound || r'.outbound) = false := by
  have h60 : ¬c.text.head? = some 60 := by
    intro h60
    simp only [directionLength, if_pos h60] at h
    split at h <;> omega
  have h62 : ¬c.text.head? = some 62 := by
    intro h62
    simp only [directionLength, if_neg h60, drop_zero, if_pos h62] at h
    omega
  have hskip : ∀ byte (c0 : Cursor), ¬c0.text.head? = some byte →
      ∃ c', c0.skip [byte] = (false, c') ∧ c'.text = c0.text := by
    intro byte c0 hbyte
    have hspec := c0.skip_spec [byte]
    rw [if_neg (fun hboth => hbyte (head_iff.mp hboth.2))] at hspec
    obtain ⟨c', hskip, hsame, -⟩ := hspec
    exact ⟨c', hskip, hsame.text⟩
  obtain ⟨c1, hless, htext⟩ := hskip 60 c h60
  obtain ⟨c2, hgt, -⟩ := hskip 62 c1 (by rw [htext]; exact h62)
  have hless' : ascii "<" = [60] := by decide
  have hgt' : ascii ">" = [62] := by decide
  unfold direction
  rw [hless', hgt', hless]
  simp only [hgt]
  exact ⟨_, c2, rfl, rfl⟩

def FollowsRule (t : Text) : Reading → Option (Bool × PacketRule × Cursor) → Prop :=
  Settles (fun r => r.1 = false ∧ r.2.2.Free) fun n r => r.1 = true ∧ Out (t.drop n) r.2.2

omit h in
theorem FollowsRule.after {result : Option (Bool × PacketRule × Cursor)}
    (h : FollowsRule (t.drop m) rd result) : FollowsRule t (rd.after m) result := by
  refine Settles.after h fun n r hr => hr.imp_right fun hout => ?_
  rwa [← drop_drop]

omit h in
theorem trim_drop (t : Text) : trim (t.drop n) = t.drop (n + spaces (t.drop n)) := by
  rw [trim_eq_drop, drop_drop]

theorem remotePattern_reading (r : PacketRule) :
    FollowsRule t (remoteReading t) (remotePattern r c) := by
  obtain ⟨r1, c1, hdir, hout, hfl⟩ := direction_reading h r
  unfold remoteReading remotePattern
  simp only [hdir, hfl]
  by_cases hzero : directionLength t = 0
  · rw [if_pos hzero, if_neg (by simp [hzero])]
    exact ⟨_, rfl, rfl, hout.free⟩
  rw [if_neg hzero, if_pos (by simpa using hzero)]
  obtain ⟨c2, hsp, hout2⟩ := hout.optspace
  simp only [hsp, bind_eq_bind, bind_some]
  have hst : Starting false (trim (t.drop (directionLength t))) c2 :=
    ⟨hout2.text, hout2.free.span, hout2.available⟩
  refine FollowsRule.after ?_
  rw [← trim_drop]
  refine (endpoint_reading hst r1.remoteEnd).map ?_ ?_
  · rintro ⟨_, e, c3⟩ hend rfl
    exact ⟨_, rfl, rfl, free_after hout2.free (endpoint_after hend)⟩
  · rintro n ⟨_, e, c3⟩ hend ⟨rfl, hstd⟩
    exact ⟨_, rfl, rfl, hstd.out (by decide) (free_after hout2.free (endpoint_after hend))⟩

omit h in
/-- A subscriber does not begin with a byte that is neither a star nor a letter nor a digit. -/
theorem sidLength_none (hhex : hexvalue byte = none) (hstar : byte ≠ 42) (hb : byte ≠ 98)
    (rest : Text) : sidLength (byte :: rest) = none := by
  have hword : ∀ s, ¬(ascii "broadcast").isPrefixOf (byte :: s) = true := by
    intro s hpre
    obtain ⟨tail, htail⟩ := List.isPrefixOf_iff_prefix.mp hpre
    have hhead := congrArg List.head? htail
    exact hb (Option.some.inj hhead).symm
  have hbin : ∀ s hxl, parseBinary 32 (byte :: s) hxl = none := by
    intro s hxl
    have hread : (strnFromhex 32 (byte :: s)).1 = [] := by
      cases s with
      | nil => rfl
      | cons low s => simp [strnFromhex, hhex]
    unfold parseBinary
    split
    · rfl
    · rw [dif_neg (by rw [hread]; decide)]
  unfold sidLength parseSid
  rw [if_neg (by simpa using hstar), show sidStrlen = 63 + 1 from rfl, take_succ_cons,
    if_neg (hword _), hbin]
  rfl

omit h in
/-- A text that begins with a subscriber has no direction at its start. -/
theorem directionLength_sid (h : (sidLength t).isSome) : directionLength t = 0 := by
  have hhead : ∀ byte : UInt8, hexvalue byte = none → byte ≠ 42 → byte ≠ 98 → ¬t.head? = some byte := by
    intro byte hhex hstar hb hhead
    obtain ⟨rest, rfl⟩ := head?_eq_some_iff.mp hhead
    rw [sidLength_none hhex hstar hb] at h
    cases h
  have h60 := hhead 60 (by decide) (by decide) (by decide)
  have h62 := hhead 62 (by decide) (by decide) (by decide)
  simp only [directionLength, if_neg h60, drop_zero, if_neg h62]

/-- A pattern, with a byte of it loaded if there is one. -/
theorem pattern_reading (hload : t ≠ [] → 0 < c.available) :
    FollowsRule t (patternReading t) (pattern r c) := by
  have hpin := c.setPin_spec h.free
  unfold patternReading pattern
  by_cases hnil : t = []
  · have hle := c.available_le
    rw [h.text, hnil, length_nil] at hle
    rw [if_pos (by omega)] at hpin
    rw [if_pos hnil, hpin]
    rfl
  have hpos := hload hnil
  rw [if_neg (by omega)] at hpin
  obtain ⟨c1, hpin, htext, hpinn, hspan, hpins, hav⟩ := hpin
  rw [h.text] at htext hpinn
  have hst : Starting true t c1 := ⟨htext, hspan, by rw [hav]; exact h.available⟩
  have hend := endpoint_reading hst r.localEnd
  simp only [if_neg hnil, hpin, bind_eq_bind, bind_some]
  generalize endpointReading true t = reading at *
  cases reading with
  | cut =>
    rw [show endpoint r.localEnd c1 = none from hend]
    rfl
  | found n =>
    obtain ⟨⟨_, e, c2⟩, hend, rfl, hstd⟩ := hend
    obtain ⟨k, hmv⟩ := endpoint_after hend
    obtain ⟨c3, hunpin, htext3, hfree, hav3⟩ :=
      c2.unpin_spec hstd.span (hmv.pins.trans hpins)
    have hhigh : c2.available ≤ _ := hstd.high
    have hsid : sidStrlen = 64 := rfl
    have hout3 : Out (t.drop n) c3 := ⟨htext3.trans hstd.text, hfree, by omega⟩
    obtain ⟨c4, hsp, hout4⟩ := hout3.optspace
    simp only [hend, bind_some, settle, if_true, hunpin, hsp]
    refine FollowsRule.after ?_
    rw [← trim_drop]
    exact remotePattern_reading hout4 _
  | absent =>
    cases hsid : sidLength t with
    | none =>
      obtain ⟨e, c2, hend, hst2⟩ := endpoint_noSid hst hnil hsid r.localEnd
      obtain ⟨k, hmv⟩ := endpoint_after hend
      obtain ⟨c3, hret, htext3, hfree, hav3⟩ :=
        c2.retreat_spec hst2.span (hmv.pinned.trans hpinn) (hmv.pins.trans hpins)
      have hle := hst2.available
      simp only [hend, bind_some, settle, Bool.false_eq_true, if_false, hret]
      exact remotePattern_reading ⟨htext3, hfree, by omega⟩ _
    | some m =>
      obtain ⟨⟨_, e, c2⟩, hend, rfl⟩ := hend
      obtain ⟨k, hmv⟩ := endpoint_after hend
      obtain ⟨c3, hret, htext3, hfree, -⟩ :=
        c2.retreat_spec (hmv.span.trans (by rw [hspan, map_some]))
          (hmv.pinned.trans hpinn) (hmv.pins.trans hpins)
      have hzero : directionLength t = 0 := directionLength_sid (by rw [hsid]; rfl)
      obtain ⟨r', c4, hdir, hfl⟩ :=
        direction_none (c := c3) (by rw [htext3]; exact hzero) { r with localEnd := e }
      simp only [hend, bind_some, settle, Bool.false_eq_true, if_false, hret, remotePattern,
        hdir, hfl, remoteReading, hzero, if_true]
      exact ⟨_, rfl, rfl, free_after hfree (direction_after hdir)⟩

theorem which_reading (r : PacketRule) : FollowsRule t (whichReading t) (which r c) := by
  have hskip := h.skip (ascii "all") (by decide)
  unfold whichReading which
  split at hskip
  · next hall =>
    obtain ⟨c', hskip, hout⟩ := hskip
    rw [if_pos hall, hskip]
    exact ⟨_, rfl, rfl, hout⟩
  next hall =>
  obtain ⟨c', hskip, hout, hload⟩ := hskip
  rw [if_neg hall, hskip]
  exact pattern_reading hout (hload (by decide))

theorem verb_reading (r : PacketRule) : match verbLength t with
    | none => ∃ r' c', verb r c = (false, r', c') ∧ c'.Free
    | some n => ∃ r' c', verb r c = (true, r', c') ∧ Out (t.drop n) c' := by
  have hskip := h.skip (ascii "allow") (by decide)
  unfold verbLength verb
  split at hskip
  · next hallow =>
    obtain ⟨c', hskip, hout⟩ := hskip
    simp only [if_pos hallow, hskip]
    exact ⟨_, c', rfl, hout⟩
  next hallow =>
  obtain ⟨c1, hskip, hout, -⟩ := hskip
  simp only [if_neg hallow, hskip]
  have hskip' := hout.skip (ascii "drop") (by decide)
  split at hskip'
  · next hdrop =>
    obtain ⟨c', hskip', hout'⟩ := hskip'
    simp only [if_pos hdrop, hskip']
    exact ⟨_, c', rfl, hout'⟩
  next hdrop =>
  obtain ⟨c', hskip', hout', -⟩ := hskip'
  simp only [if_neg hdrop, hskip']
  exact ⟨_, c', rfl, hout'.free⟩

/-- The parser of a rule does what the text says. -/
theorem rule_reading : Settles (fun r => r.1 = none ∧ r.2.Free)
    (fun n r => r.1.isSome ∧ Out (t.drop n) r.2) (ruleReading t) (rule c) := by
  have hverb := verb_reading h .zero
  unfold ruleReading rule
  generalize verbLength t = length at *
  cases length with
  | none =>
    obtain ⟨r, c', hverb, hfree⟩ := hverb
    rw [hverb]
    exact ⟨_, rfl, rfl, hfree⟩
  | some n =>
    obtain ⟨r, c1, hverb, hout⟩ := hverb
    obtain ⟨c2, hsp, hout2⟩ := hout.optspace
    have hwhi : FollowsRule t _ (which r c2) := FollowsRule.after (m := n + spaces (t.drop n))
      (by rw [← trim_drop]; exact which_reading hout2 r)
    simp only [hverb, hsp, bind_eq_bind, bind_some]
    refine hwhi.map ?_ ?_
    · rintro ⟨_, r', c'⟩ - ⟨rfl, hfree⟩
      exact ⟨_, rfl, rfl, hfree⟩
    · rintro k ⟨_, r', c'⟩ - ⟨rfl, hout'⟩
      exact ⟨_, rfl, rfl, hout'⟩

/-! ### The list of rules -/

def tailReading (t : Text) : Reading :=
  match t with
  | [] => absent
  | sep :: rest => if (sep = 10 ∨ sep = 59) ∧ rest ≠ [] then ruleReading (trim rest) else absent

theorem Out.load : Out t (c.preload 1) ∧ (t ≠ [] → 0 < (c.preload 1).available) := by
  have hsame := preload_same c 1
  have hle := h.available
  have hlim := h.free.limit
  have hsid : sidStrlen = 64 := rfl
  have hav := preload_available c 1
  rw [loaded, h.text] at hav
  refine ⟨⟨hsame.text.trans h.text, h.free.moved hsame.still, by omega⟩, fun hne => ?_⟩
  have := length_pos_iff.mpr hne
  omega

theorem Out.eof : c.eof = (t.isEmpty, c.preload 1) := by
  rw [c.eof_spec h.free.limit, h.text]

theorem sep_reading :
    if t.head? = some 10 ∨ t.head? = some 59 then ∃ c', sep c = some (true, c') ∧ Out (t.drop 1) c'
    else ∃ c', sep c = some (false, c') ∧ Out t c' := by
  obtain ⟨hout, hload⟩ := h.load
  unfold sep
  simp only [c.peek_spec h.free.limit, h.text, bind_eq_bind, bind_some]
  by_cases hsep : t.head? = some 10 ∨ t.head? = some 59
  · have hne : t ≠ [] := by
      rintro rfl
      simp at hsep
    obtain ⟨c', hnext, hmv, hav⟩ := (c.preload 1).next_spec (hload hne)
    have hle := hout.available
    simp only [if_pos hsep, hnext, bind_some]
    exact ⟨c', rfl, by rw [hmv.text, hout.text], hout.free.moved hmv, by omega⟩
  simp only [if_neg hsep]
  exact ⟨_, rfl, hout⟩

theorem nextRule_reading : Settles (fun r => r.1 = none ∧ r.2.Free)
    (fun n r => ∃ sep rest rule, t = sep :: rest ∧ r.1 = some rule ∧ Out (trim ((trim rest).drop n)) r.2)
    (tailReading t) (nextRule c) := by
  obtain ⟨hout1, -⟩ := h.load
  unfold nextRule
  simp only [h.eof]
  cases t with
  | nil => exact ⟨_, rfl, rfl, hout1.free⟩
  | cons byte rest =>
    have hsep := sep_reading hout1
    simp only [isEmpty_cons, Bool.false_eq_true, if_false, head?_cons, Option.some.injEq,
      tailReading] at hsep ⊢
    by_cases hbyte : byte = 10 ∨ byte = 59
    · rw [if_pos hbyte] at hsep
      obtain ⟨c2, hsep, hout2⟩ := hsep
      rw [drop_one, tail_cons] at hout2
      obtain ⟨hout3, -⟩ := hout2.load
      simp only [hsep, bind_eq_bind, bind_some, Bool.not_true, Bool.false_eq_true, if_false, hout2.eof]
      by_cases hrest : rest = []
      · rw [if_neg (fun hboth => hboth.2 hrest), hrest]
        exact ⟨_, rfl, rfl, hout3.free⟩
      rw [if_pos ⟨hbyte, hrest⟩, isEmpty_eq_false_iff.mpr hrest]
      obtain ⟨c4, hsp, hout4⟩ := hout3.optspace
      simp only [Bool.false_eq_true, if_false, hsp, bind_some]
      refine (rule_reading hout4).map ?_ ?_
      · rintro ⟨_, c5⟩ - ⟨rfl, hfree⟩
        obtain ⟨c6, hsp', hfree', -⟩ := free_optspace hfree
        simp only [hsp', bind_some]
        exact ⟨_, rfl, rfl, hfree'⟩
      · rintro n ⟨r, c5⟩ - ⟨hsome, hout5⟩
        obtain ⟨r, rfl⟩ := isSome_iff_exists.mp hsome
        obtain ⟨c6, hsp', hout6⟩ := hout5.optspace
        simp only [hsp', bind_some]
        exact ⟨_, rfl, byte, rest, r, rfl, rfl, hout6⟩
    rw [if_neg hbyte] at hsep
    obtain ⟨c2, hsep, hout2⟩ := hsep
    rw [if_neg (fun hboth => hbyte hboth.1)]
    simp only [hsep, bind_eq_bind, bind_some]
    exact ⟨_, rfl, rfl, hout2.free⟩

end Out

/-- The rules that follow are complete. -/
def CompleteTail (t : Text) : Prop :=
  ∀ sep rest, t = sep :: rest → (sep = 10 ∨ sep = 59) → rest ≠ [] → Complete (trim rest)

theorem complete_iff :
    Complete t ↔ ruleReading t ≠ cut ∧ ∀ n, ruleReading t = found n → CompleteTail (trim (t.drop n)) := by
  constructor
  · intro h
    refine ⟨h t (.here t), fun n hn sep rest htail hsep hne t' ht' => ?_⟩
    exact h t' (.next hn htail hsep hne ht')
  rintro ⟨hcut, htail⟩ t' ht'
  cases ht' with
  | here => exact hcut
  | next hn hrest hsep hne ht' => exact htail _ hn _ _ hrest hsep hne t' ht'

theorem completeTail_iff : CompleteTail t ↔ tailReading t ≠ cut ∧
      ∀ sep rest n, t = sep :: rest → tailReading t = found n → CompleteTail (trim ((trim rest).drop n)) := by
  cases t with
  | nil => simp [CompleteTail, tailReading]
  | cons byte tail =>
    by_cases hrule : (byte = 10 ∨ byte = 59) ∧ tail ≠ []
    · have hrd : tailReading (byte :: tail) = ruleReading (trim tail) := if_pos hrule
      rw [hrd]
      constructor
      · intro h
        obtain ⟨hcut, htail⟩ := complete_iff.mp (h byte tail rfl hrule.1 hrule.2)
        refine ⟨hcut, fun sep rest n heq hn => ?_⟩
        cases heq
        exact htail n hn
      rintro ⟨hcut, htail⟩ sep rest heq - -
      cases heq
      exact complete_iff.mpr ⟨hcut, fun n hn => htail byte tail n rfl hn⟩
    have hrd : tailReading (byte :: tail) = absent := if_neg hrule
    rw [hrd]
    refine ⟨fun _ => ⟨nofun, nofun⟩, fun _ sep rest heq hsep hne => ?_⟩
    cases heq
    exact absurd ⟨hsep, hne⟩ hrule

theorem trim_length (t : Text) : (trim t).length ≤ t.length := by
  rw [trim_eq_drop, length_drop]
  omega

/-- The loop returns exactly if the rules that follow are complete. -/
theorem rulesLoop_reading (h : Out t c) (list : List PacketRule) :
    (CompleteTail t ∧ ∃ list' c', rulesLoop list c = some (list', c') ∧ c'.Free) ∨
      (¬CompleteTail t ∧ rulesLoop list c = none) := by
  -- each pass takes a separator from the text
  induction hlen : t.length using Nat.strongRecOn generalizing t c list with
  | ind len ih =>
    have hpass := nextRule_reading h
    rw [completeTail_iff, rulesLoop_eq]
    generalize tailReading t = reading at *
    cases reading with
    | cut =>
      exact .inr ⟨fun hcom => hcom.1 rfl, by rw [show nextRule c = none from hpass]; rfl⟩
    | absent =>
      obtain ⟨⟨_, c'⟩, hpass, rfl, hfree⟩ := hpass
      exact .inl ⟨⟨nofun, nofun⟩, list, c', by rw [hpass]; rfl, hfree⟩
    | found n =>
      obtain ⟨⟨_, c'⟩, hpass, sep, rest, r, rfl, rfl, hout⟩ := hpass
      have hsho : (trim ((trim rest).drop n)).length < len := by
        have h1 := trim_length ((trim rest).drop n)
        have h2 := trim_length rest
        rw [length_drop] at h1
        rw [length_cons] at hlen
        omega
      have hrest := ih _ hsho hout (list ++ [r]) rfl
      rw [hpass, bind_some]
      rcases hrest with ⟨hcom, hloop⟩ | ⟨hcut, hloop⟩
      · refine .inl ⟨⟨nofun, fun sep' rest' n' heq hn => ?_⟩, hloop⟩
        cases heq
        cases hn
        exact hcom
      · exact .inr ⟨fun hall => hcut (hall.2 sep rest n rfl rfl), hloop⟩

/-- The parser returns exactly if no rule is cut short. -/
theorem rules_reading :
    (Complete (trim file) ∧ ∃ ended list c', rules (.init file) = some (ended, list, c')) ∨
      (¬Complete (trim file) ∧ rules (.init file) = none) := by
  have hst : Out file (.init file) := ⟨rfl, ⟨rfl, rfl⟩, Nat.zero_le _⟩
  obtain ⟨c1, hsp, hout1⟩ := hst.optspace
  have hrule := rule_reading hout1
  unfold rules
  rw [complete_iff]
  simp only [hsp, bind_eq_bind, bind_some]
  generalize ruleReading (trim file) = reading at *
  cases reading with
  | cut =>
    exact .inr ⟨fun hcom => hcom.1 rfl, by rw [show rule c1 = none from hrule]; rfl⟩
  | absent =>
    obtain ⟨⟨_, c2⟩, hrule, rfl, hfree⟩ := hrule
    obtain ⟨c3, hsp', -⟩ := free_optspace hfree
    refine .inl ⟨⟨nofun, nofun⟩, ?_⟩
    simp only [hrule, hsp', bind_some]
    exact ⟨_, _, _, rfl⟩
  | found n =>
    obtain ⟨⟨r, c2⟩, hrule, hsome, hout2⟩ := hrule
    obtain ⟨r, rfl⟩ := isSome_iff_exists.mp hsome
    obtain ⟨c3, hsp', hout3⟩ := hout2.optspace
    simp only [hrule, hsp', bind_some]
    rcases rulesLoop_reading hout3 [r] with ⟨hcom, list', c', hloop, -⟩ | ⟨hcut, hloop⟩
    · refine .inl ⟨⟨nofun, fun n' hn => ?_⟩, ?_⟩
      · cases hn
        exact hcom
      rw [hloop]
      exact ⟨_, _, _, rfl⟩
    refine .inr ⟨fun hall => hcut (hall.2 n rfl), ?_⟩
    rw [hloop]
    rfl

/-- The parser returns, whatever the text is, unless a rule that it comes to is cut short. -/
theorem parse_returns_iff (file : Text) :
    (∃ ret list, parseMdpPacketRules file = some (ret, list) ∧ (ret = 0 ∨ ret = 1)) ↔
      Complete (trim file) := by
  unfold parseMdpPacketRules
  rcases rules_reading with ⟨hcom, ended, list, c', hrules⟩ | ⟨hcut, hrules⟩
  · refine ⟨fun _ => hcom, fun _ => ?_⟩
    simp only [hrules, bind_eq_bind, bind_some]
    cases ended with
    | true => exact ⟨0, list, rfl, .inl rfl⟩
    | false =>
      by_cases hav : c'.available = 0
      · exact ⟨1, [], by simp [hav], .inr rfl⟩
      refine ⟨1, [], ?_, .inr rfl⟩
      simp only [Bool.false_eq_true, if_false, hav, ne_eq, not_false_eq_true, if_true,
        Cursor.preloaded_spec, bind_some]
      rfl
  refine ⟨fun hret => ?_, fun hcom => absurd hcom hcut⟩
  obtain ⟨ret, list, hpar, -⟩ := hret
  rw [hrules] at hpar
  cases hpar

/-- Four texts that end where the parser needs another byte. -/
theorem parse_aborts :
    parseMdpPacketRules (ascii "allow") = none ∧ parseMdpPacketRules (ascii "allow *:") = none ∧
    parseMdpPacketRules (ascii "drop <") = none ∧ parseMdpPacketRules (ascii "allow * > *:1-") = none := by
  decide +kernel

end FilterSafety
