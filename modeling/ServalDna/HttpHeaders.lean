import ServalDna.HttpScan

/-!
# Values of HTTP headers

The content type, range, origin and basic credentials that `http_server.c`
reads from header lines. A character array holds the text before its NUL, and
a value too long for its array is refused by every caller.
-/
namespace HttpHeaders

open TextCodec Scanner Scanner.Scan HttpScan Option

/-- `CONTENT_LENGTH_UNKNOWN`, which a header can also give as a number. -/
def contentLengthUnknown : Nat := 2 ^ 64 - 1

/-! ### Parameters behind semicolons -/

def semicolon : Scan UInt8 Unit := do
  skipOptionalSpace
  skipLiteral (ascii ";")
  skipOptionalSpace

theorem within_semicolon {ι : Type} (hstop : EndsLine stop) : Within stop (fun _ : ι => semicolon) :=
  (within_skipOptionalSpace hstop).bind fun _ =>
    (within_skipLiteral (hstop.not_mem (by decide))).bind fun _ => within_skipOptionalSpace hstop

/-- A literal takes its own length off the text. -/
theorem skipLiteral_length {lit text rest : Text}
    (h : (skipLiteral lit).run text = some (some (), rest)) :
    text.length = lit.length + rest.length := by
  rw [skipLiteral_some h, List.length_append]

theorem semicolon_length {text rest : Text} (h : semicolon.run text = some (some (), rest)) :
    rest.length < text.length := by
  obtain ⟨_, mid, hsp, h⟩ := run_bind_eq_some h
  obtain ⟨_, mid', hlit, h⟩ := run_bind_eq_some h
  have hle := (leaves_skipOptionalSpace text _ mid hsp).length_le
  have hlt := skipLiteral_length hlit
  have hle' := (leaves_skipOptionalSpace mid' _ rest h).length_le
  have hone : (ascii ";").length = 1 := rfl
  omega

def paramsFrom {α : Type} (one : α → Scan UInt8 α) (hone : ∀ a, Leaves (one a)) (a : α)
    (text : Text) : Option (Option α × Text) :=
  match _hsemi : semicolon.run text with
  | none => none
  | some (none, rest) => some (some a, rest)
  | some (some (), rest) =>
    match _hparam : (one a).run rest with
    | none => none
    | some (none, rest') => some (none, rest')
    | some (some a', rest') => paramsFrom one hone a' rest'
termination_by text.length
decreasing_by
  have := semicolon_length _hsemi
  have := (hone a rest _ rest' _hparam).length_le
  omega

def params {α : Type} (one : α → Scan UInt8 α) (hone : ∀ a, Leaves (one a)) (a : α) :
    Scan UInt8 α := ⟨paramsFrom one hone a⟩

theorem paramsFrom_eq {α : Type} (one : α → Scan UInt8 α) (hone : ∀ a, Leaves (one a)) (a : α)
    (text : Text) : paramsFrom one hone a text = match semicolon.run text with
      | none => none
      | some (none, rest) => some (some a, rest)
      | some (some (), rest) =>
        match (one a).run rest with
        | none => none
        | some (none, rest') => some (none, rest')
        | some (some a', rest') => paramsFrom one hone a' rest' := by
  rw [paramsFrom]
  split <;> rename_i hsemi <;> simp only [hsemi]
  split <;> rename_i hone' <;> simp [hone']

theorem within_params {α ι : Type} (hstop : EndsLine stop) {one : ι → α → Scan UInt8 α}
    (hone : ∀ i a, Leaves (one i a)) (hwit : ∀ a, Within stop (fun i => one i a)) (a : α) :
    Within stop (fun i => params (one i) (hone i) a) := by
  intro line
  -- by induction on what is left of the line
  induction hn : line.length using Nat.strongRecOn generalizing a line with
  | ind n ih =>
    intro hline
    simp only [params]
    obtain ⟨out, hout, hsemi⟩ := (within_semicolon hstop : Within stop fun _ : ι => semicolon) line hline
    rcases out with _ | ⟨_ | ⟨⟩, rest⟩
    · refine ⟨none, by simp, fun i after => ?_⟩
      rw [paramsFrom_eq, hsemi i after]
      rfl
    · refine ⟨some (some a, rest), unstopped_some _ (hout _ rfl), fun i after => ?_⟩
      rw [paramsFrom_eq, hsemi i after]
      rfl
    obtain ⟨out', hout', hprm⟩ := hwit a rest (hout (some (), rest) rfl)
    rcases out' with _ | ⟨_ | a', rest'⟩
    · refine ⟨none, by simp, fun i after => ?_⟩
      rw [paramsFrom_eq, hsemi i after]
      simp [hprm i after]
    · refine ⟨some (none, rest'), unstopped_some _ (hout' _ rfl), fun i after => ?_⟩
      rw [paramsFrom_eq, hsemi i after]
      simp [hprm i after]
    by_cases hemp : IsEmpty ι
    · exact ⟨none, by simp, fun i => hemp.elim i⟩
    obtain ⟨i0⟩ := not_isEmpty_iff.mp hemp
    have hlt := semicolon_length (hsemi i0 [])
    have hle := (hone i0 a _ _ _ (hprm i0 [])).length_le
    simp only [List.length_append, List.length_cons, List.length_nil] at hlt hle
    obtain ⟨out'', hout'', hrest⟩ := ih rest'.length (by omega) a' rest' rfl (hout' (some a', rest') rfl)
    refine ⟨out'', hout'', fun i after => ?_⟩
    rw [paramsFrom_eq, hsemi i after]
    simp only [map_some, hprm i after]
    exact hrest i after

/-! ### Content types -/

structure ContentType where
  type : Text
  subtype : Text
  multipartBoundary : Text
  charset : Text
  format : Text
  deriving DecidableEq, Repr

def ContentType.empty : ContentType := ⟨[], [], [], [], []⟩

/-- A parameter that is not known: the value is to be skipped, for which
`_parse_token_or_quoted_string` is called with no room. -/
def skipParam {α : Type} (a : α) : Scan UInt8 α := do
  let _ ← skipToken
  skipLiteral (ascii "=")
  let _ ← parseTokenOrQuotedString 0
  return a

def contentTypeParam (ct : ContentType) : Scan UInt8 ContentType :=
  choose (ascii "charset=") (do return { ct with charset := ← parseTokenOrQuotedString 31 }) <|
  choose (ascii "boundary=")
    (do return { ct with multipartBoundary := ← parseTokenOrQuotedString 71 }) <|
  choose (ascii "format=") (do return { ct with format := ← parseTokenOrQuotedString 31 }) <|
  skipParam ct

theorem leaves_skipParam {α : Type} (a : α) : Leaves (skipParam a) :=
  (leaves_word _).bind fun _ => (leaves_skipLiteral _).bind fun _ =>
    (leaves_parseTokenOrQuotedString 0).bind fun _ => leaves_pure a

theorem leaves_contentTypeParam (ct : ContentType) : Leaves (contentTypeParam ct) :=
  leaves_choose _ ((leaves_parseTokenOrQuotedString 31).bind fun _ => leaves_pure _) <|
  leaves_choose _ ((leaves_parseTokenOrQuotedString 71).bind fun _ => leaves_pure _) <|
  leaves_choose _ ((leaves_parseTokenOrQuotedString 31).bind fun _ => leaves_pure _) <|
  leaves_skipParam ct

def parseContentType (ct : ContentType) : Scan UInt8 ContentType := do
  let type ← parseToken 64
  skipLiteral (ascii "/")
  let subtype ← parseToken 64
  params contentTypeParam leaves_contentTypeParam { ct with type, subtype }

section Within

variable {ι : Type} (hstop : EndsLine stop)

include hstop

theorem within_skipParam {α : Type} (a : α) : Within stop (fun _ : ι => skipParam a) :=
  (within_word (hstop.eq_false (by decide))).bind fun _ =>
    (within_skipLiteral (hstop.not_mem (by decide))).bind fun _ =>
      (within_parseTokenOrQuotedString hstop 0).bind fun _ => within_pure a

theorem within_contentTypeParam (ct : ContentType) : Within stop (fun _ : ι => contentTypeParam ct) :=
  within_choose (hstop.not_mem (by decide))
    ((within_parseTokenOrQuotedString hstop 31).bind fun _ => within_pure _) <|
  within_choose (hstop.not_mem (by decide))
    ((within_parseTokenOrQuotedString hstop 71).bind fun _ => within_pure _) <|
  within_choose (hstop.not_mem (by decide))
    ((within_parseTokenOrQuotedString hstop 31).bind fun _ => within_pure _) <|
  within_skipParam hstop ct

theorem within_parseContentType (ct : ContentType) : Within stop (fun _ : ι => parseContentType ct) :=
  (within_parseToken hstop 64).bind fun _ =>
    (within_skipLiteral (hstop.not_mem (by decide))).bind fun _ =>
      (within_parseToken hstop 64).bind fun _ =>
        within_params hstop (fun _ => leaves_contentTypeParam) (within_contentTypeParam hstop) _

end Within

/-! ### Ranges -/

inductive RangeType where
  | closed | open | suffix
  deriving DecidableEq, Repr

structure Range where
  type : RangeType
  first : Nat
  last : Nat
  deriving DecidableEq, Repr

/-- One round of the loop in `_parse_ranges`. A last number that is too large is taken for none, and the
literal that is looked for behind it fails if the cursor is behind the data. -/
def parseRange (beyond : Text) : Scan UInt8 Range :=
  choose (ascii "-") (do return ⟨.suffix, 0, ← parseHttpSize beyond⟩) do
    let first ← parseHttpSize beyond
    skipLiteral (ascii "-")
    match ← (parseUint (2 ^ 64) true beyond).attempt with
    | some last =>
      require (first ≤ last)
      return ⟨.closed, first, last⟩
    | none => return ⟨.open, first, 0⟩

def comma : Scan UInt8 Unit := do
  skipLiteral (ascii ",")
  skipOptionalSpace

theorem leaves_parseRange : Leaves (parseRange beyond) := by
  refine leaves_choose _ ((leaves_parseUint _ _ _).bind fun _ => leaves_pure _) <|
    (leaves_parseUint _ _ _).bind fun _ => (leaves_skipLiteral _).bind fun _ =>
      (leaves_parseUint _ _ _).attempt.bind fun last => ?_
  cases last with
  | some last => exact (leaves_require _).bind fun _ => leaves_pure _
  | none => exact leaves_pure _

theorem comma_length {text rest : Text} (h : comma.run text = some (some (), rest)) :
    rest.length < text.length := by
  obtain ⟨_, mid, hlit, h⟩ := run_bind_eq_some h
  have hlt := skipLiteral_length hlit
  have hle := (leaves_skipOptionalSpace mid _ rest h).length_le
  have hone : (ascii ",").length = 1 := rfl
  omega

/-- `_parse_ranges`: all the ranges, of which the first five are stored. -/
def rangesFrom (beyond text : Text) : Option (Option (List Range) × Text) :=
  match _hrange : (parseRange beyond).run text with
  | none => none
  | some (none, rest) => some (none, rest)
  | some (some range, rest) =>
    match _hcomma : comma.run rest with
    | none => none
    | some (none, rest') => some (some [range], rest')
    | some (some (), rest') =>
      match rangesFrom beyond rest' with
      | some (some ranges, rest'') => some (some (range :: ranges), rest'')
      | out => out
termination_by text.length
decreasing_by
  have := (leaves_parseRange text _ rest _hrange).length_le
  have := comma_length _hcomma
  omega

def parseRanges (beyond : Text) : Scan UInt8 (List Range) := ⟨rangesFrom beyond⟩

theorem rangesFrom_eq : rangesFrom beyond text = match (parseRange beyond).run text with
    | none => none
    | some (none, rest) => some (none, rest)
    | some (some rg, rest) =>
      match comma.run rest with
      | none => none
      | some (none, rest') => some (some [rg], rest')
      | some (some (), rest') =>
        match rangesFrom beyond rest' with
        | some (some ranges, rest'') => some (some (rg :: ranges), rest'')
        | out => out := by
  rw [rangesFrom]
  split <;> rename_i hrng <;> simp only [hrng]
  split <;> rename_i hcma <;> simp [hcma]

section Within

variable (hstop : EndsLine stop)

include hstop

theorem within_parseRange : Within stop (fun beyond => parseRange beyond) := by
  refine within_choose (hstop.not_mem (by decide))
    ((within_parseUint hstop _ _).bind fun _ => within_pure _)
    ((within_parseUint hstop _ _).bind fun _ =>
      (within_skipLiteral (hstop.not_mem (by decide))).bind fun _ =>
        (within_parseUint hstop _ _).attempt.bind fun last => ?_)
  cases last with
  | some last => exact (within_require _).bind fun _ => within_pure _
  | none => exact within_pure _

theorem within_comma {ι : Type} : Within stop (fun _ : ι => comma) :=
  (within_skipLiteral (hstop.not_mem (by decide))).bind fun _ => within_skipOptionalSpace hstop

theorem within_parseRanges : Within stop (fun beyond => parseRanges beyond) := by
  intro line
  -- by induction on what is left of the line
  induction hn : line.length using Nat.strongRecOn generalizing line with
  | ind n ih =>
    intro hline
    simp only [parseRanges]
    obtain ⟨out, hout, hrng⟩ := within_parseRange hstop line hline
    rcases out with _ | ⟨_ | rg, rest⟩
    · refine ⟨none, by simp, fun i after => ?_⟩
      rw [rangesFrom_eq, hrng i after]
      rfl
    · refine ⟨some (none, rest), unstopped_some _ (hout _ rfl), fun i after => ?_⟩
      rw [rangesFrom_eq, hrng i after]
      rfl
    obtain ⟨out', hout', hcma⟩ :=
      (within_comma hstop : Within stop fun _ : Text => comma) rest (hout (some rg, rest) rfl)
    rcases out' with _ | ⟨_ | ⟨⟩, rest'⟩
    · refine ⟨none, by simp, fun i after => ?_⟩
      rw [rangesFrom_eq, hrng i after]
      simp [hcma i after]
    · refine ⟨some (some [rg], rest'), unstopped_some _ (hout' _ rfl), fun i after => ?_⟩
      rw [rangesFrom_eq, hrng i after]
      simp [hcma i after]
    have hle := (leaves_parseRange _ _ _ (hrng [] [])).length_le
    have hlt := comma_length (hcma [] [])
    simp only [List.length_append, List.length_cons, List.length_nil] at hlt hle
    obtain ⟨out'', hout'', hrest⟩ := ih rest'.length (by omega) rest' rfl (hout' (some (), rest') rfl)
    simp only [parseRanges] at hrest
    refine ⟨out''.map fun x => (x.1.map (rg :: ·), x.2), fun x hx => ?_, fun i after => ?_⟩
    · obtain ⟨y, hy, rfl⟩ := mem_map.mp hx
      exact hout'' y hy
    rw [rangesFrom_eq, hrng i after]
    simp only [map_some, hcma i after, hrest i after]
    rcases out'' with _ | ⟨_ | ranges, rest''⟩ <;> rfl

end Within

/-! ### Origins -/

structure Origin where
  null : Bool
  scheme : Text
  hostname : Text
  port : Nat
  deriving DecidableEq, Repr

def Origin.empty : Origin := ⟨false, [], [], 0⟩

/-- `strn_to_uint16`, which tells an overflow by dividing again. -/
def scanUint16 : Nat → Nat → Text → UintScan
  | value, newvalue, [] => ⟨value, newvalue, []⟩
  | value, newvalue, c :: s =>
    if isdigit c then
      let newvalue := (value * 10 + (c.toNat - 48)) % 2 ^ 16
      if newvalue / 10 ≠ value then ⟨value, newvalue, c :: s⟩
      else scanUint16 newvalue newvalue s
    else ⟨value, newvalue, c :: s⟩

/-- The port at the end of `hostname:port`. A number that is taken must end
where the host name does. -/
def splitPort (hostname : Text) : Option (Text × Nat) :=
  let digits := (hostname.reverse.takeWhile isdigit).reverse
  let host := hostname.take (hostname.length - digits.length)
  if digits ≠ [] ∧ host.getLast? = some 58 then
    let r := scanUint16 0 0 digits
    if r.value ≠ r.newvalue then some (hostname, 0)
    else if r.rest = [] then some (host.dropLast, r.value) else none
  else some (hostname, 0)

/-- The scheme and the host of an origin; `line` is what is left of the line.
A value too long is cut off and the rest of the line is passed over. -/
def originFrom (line : Text) : Scan UInt8 Origin := do
  let scheme ← skipWordPrintable 58
  skipLiteral (ascii "://")
  let hostname ← skipWordPrintable 47
  match splitPort hostname with
  | none => abort
  | some (host, port) =>
    if host = [] then abort
    else if scheme.length < 10 ∧ host.length < 40 then return ⟨false, scheme, host, port⟩
    else (⟨fun text => some (some ⟨false, scheme.take 9, host.take 39, port⟩,
      text.drop (line.length - (scheme.length + 3 + hostname.length)))⟩ : Scan UInt8 Origin)

/-- `_parse_origin`, which never fails; `line` is what is left of the line. -/
def parseOrigin (line : Text) : Scan UInt8 Origin := ⟨fun text =>
  match (do skipLiteral (ascii "null"); let _ ← skipSpace : Scan UInt8 Unit).run text with
  | some (some (), rest) => some (some { Origin.empty with null := true }, rest)
  | _ =>
    if line = ascii "null" then some (some { Origin.empty with null := true }, text.drop 4)
    else
      match (originFrom line).run text with
      | none => none
      | some (origin, rest) =>
        some (some (origin.getD Origin.empty), if rest.head? = some 47 then rest.tail else rest)⟩

/-! ### Basic credentials -/

def base64Digit (c : UInt8) : Option UInt8 :=
  if isupper c then some (c - 65)
  else if islower c then some (c - 71)
  else if isdigit c then some (c + 4)
  else if c = 43 then some 62
  else if c = 47 then some 63
  else none

structure Base64 where
  buf : UInt8
  digits : Nat
  bytes : Text

def Base64.push (st : Base64) (d : UInt8) : Base64 :=
  match st.digits % 4 with
  | 0 => ⟨d <<< 2, st.digits + 1, st.bytes⟩
  | 1 => ⟨d <<< 4, st.digits + 1, st.bytes ++ [st.buf ||| (d >>> 4)]⟩
  | 2 => ⟨d <<< 6, st.digits + 1, st.bytes ++ [st.buf ||| (d >>> 2)]⟩
  | _ => ⟨st.buf, st.digits + 1, st.bytes ++ [st.buf ||| d]⟩

/-- The end of `base64_decode` behind one pad character; `back` is the text
from that character on, which is not consumed where a second one is missing. -/
def base64Pad (st : Base64) (back : Text) : Text → Text × Text
  | [] => (st.bytes, [])
  | c :: rest =>
    if isHttpSpace c then base64Pad st back rest
    else if st.digits % 4 = 3 then (st.bytes, c :: rest)
    else if c = 61 then (st.bytes, rest.dropWhile isHttpSpace)
    else (st.bytes, back)

/-- `base64_decode` with spaces skipped: the bytes and the text behind them. -/
def base64From (st : Base64) : Text → Text × Text
  | [] => (st.bytes, [])
  | c :: rest =>
    match base64Digit c with
    | some d => base64From (st.push d) rest
    | none =>
      if c = 61 then
        if 2 ≤ st.digits % 4 then base64Pad st (c :: rest) rest else (st.bytes, c :: rest)
      else if isHttpSpace c then base64From st rest
      else (st.bytes, c :: rest)

end HttpHeaders
