import ServalDna.TextCodec
import ServalDna.Scanner

/-!
# The cursor of the HTTP request parser

The `_skip_` and `_parse_` functions of `http_server.c` that read from the
cursor up to the end of the received data. A scanner is given the bytes from
the cursor to `r->end`; the functions that read numbers go through
`str_to_uint64`, which knows nothing of `r->end`, so they are also given the
bytes of the buffer behind it.
-/
namespace HttpScan

open TextCodec Scanner Scanner.Scan
open List hiding span

/-! ### Character classes -/

def toupper (c : UInt8) : UInt8 := if islower c then c - 32 else c
def isgraph (c : UInt8) : Bool := !isspace c && isprint c
def isHttpSpace (c : UInt8) : Bool := c == 32 || c == 9

def isHttpSeparator (c : UInt8) : Bool :=
  (ascii "\t =<>;:\\\"/[]\x7b\x7d(),?@").contains c

def isHttpToken (c : UInt8) : Bool := isprint c && !isHttpSeparator c

/-! ### Literals and spaces -/

def skipLiteral (lit : Text) : Scan UInt8 Unit := literalBy (fun a b => a == b) lit

def skipLiteralNocase (lit : Text) : Scan UInt8 Unit :=
  literalBy (fun a b => toupper a == toupper b) lit

def crlf : Text := [13, 10]

def skipOptionalSpace : Scan UInt8 Unit := do
  let _ ← span isHttpSpace

def skipSpace : Scan UInt8 Unit := do
  let spaces ← span isHttpSpace
  require !spaces.isEmpty

/-- `if (_skip_literal(r, lit)) p; r->cursor = start; q`. -/
def choose {α : Type} (lit : Text) (p q : Scan UInt8 α) : Scan UInt8 α := do
  match ← (skipLiteral lit).attempt with
  | some () => p
  | none => q

/-! ### Ends of lines with optional CR and NULs -/

/-- `_skip_eol`; `cr` says that a CR has been passed. -/
def eolFrom (cr : Bool) : Text → Option (Option Unit × Text)
  | [] => some (none, [])
  | c :: rest =>
    if c = 0 then eolFrom cr rest
    else if c = 13 then if cr then some (none, c :: rest) else eolFrom true rest
    else if c = 10 then some (some (), rest)
    else some (none, c :: rest)

def skipEol : Scan UInt8 Unit := ⟨eolFrom false⟩

def trimEol (line : Text) : Text :=
  let line := line.reverse.dropWhile (· == 0)
  let line := if line.head? = some 13 then line.tail else line
  (line.dropWhile (· == 0)).reverse

/-- `_skip_to_eol`: the line before its end, which is the end of the data where
no LF has been received. -/
def lineAt (text : Text) : Text :=
  if 10 ∈ text then trimEol (text.takeWhile (· != 10)) else text

/-! ### Words, tokens and quoted strings -/

def assertAt (p : UInt8 → Bool) : Scan UInt8 Unit :=
  ⟨fun text => if text.head?.any p then some (some (), text) else none⟩

def skipWordPrintable (stop : UInt8) : Scan UInt8 Text := do
  let text ← word fun c => !isspace c && isprint c && c != stop
  assertAt fun c => isspace c || c == stop
  return text

def skipToken : Scan UInt8 Text := word isHttpToken

/-- `_parse_token` into an array of `dstsiz` bytes; its callers refuse a token
that does not fit. -/
def parseToken (dstsiz : Nat) : Scan UInt8 Text := do
  let token ← skipToken
  require (token.length < dstsiz)
  return token

/-- The loop of `_parse_quoted_string` behind the opening quote. -/
def quotedFrom (slosh : Bool) (dst : Text) : Text → Option (Option Text × Text)
  | [] => some (none, [])
  | c :: rest =>
    if !isprint c then some (none, c :: rest)
    else if slosh then quotedFrom false (dst ++ [c]) rest
    else if c = 34 then some (some dst, rest)
    else if c = 92 then quotedFrom true dst rest
    else quotedFrom false (dst ++ [c]) rest

/-- `_parse_quoted_string`, whose callers refuse an empty string and one that
does not fit. -/
def parseQuotedString (dstsiz : Nat) : Scan UInt8 Text := do
  skipLiteral [34]
  let text ← (⟨quotedFrom false []⟩ : Scan UInt8 Text)
  require (text ≠ [] && text.length < dstsiz)
  return text

/-- The first thing it does is assert that there is room for the value. -/
def parseTokenOrQuotedString (dstsiz : Nat) : Scan UInt8 Text :=
  if dstsiz = 0 then abort
  else ⟨fun text =>
    if text.head? = some 34 then (parseQuotedString dstsiz).run text
    else (parseToken dstsiz).run text⟩

/-! ### Numbers -/

/-- `_parse_http_size_t` and `_parse_uint32`. The digits are read on into the
bytes `beyond` the received data; a cursor behind `r->end` fails the assertion
of the next `_run_out`. After a number too large only some callers come to one
(`watched`): those of `_parse_uint32`, and `_parse_ranges` for the last number of a range. -/
def parseUint (modulus : Nat) (watched : Bool) (beyond : Text) : Scan UInt8 Nat :=
  ⟨fun text =>
    if text.head?.any isdigit then
      let r := scanUint modulus 10 0 0 (text ++ beyond)
      let used := text.length + beyond.length - r.rest.length
      if text.length < used && (watched || r.value == r.newvalue) then none
      else some (if r.value = r.newvalue then some r.value else none, text.drop used)
    else some (none, text)⟩

def parseHttpSize (beyond : Text) : Scan UInt8 Nat := parseUint (2 ^ 64) false beyond
def parseUint32 (beyond : Text) : Scan UInt8 Nat := parseUint (2 ^ 32) true beyond

variable {lit rest text w : Text}

theorem skipLiteral_some (h : (skipLiteral lit).run text = some (some (), rest)) :
    text = lit ++ rest := by
  change literalFrom _ lit text = _ at h
  fun_induction literalFrom (fun a b : UInt8 => a == b) lit text with
  | case1 text =>
    cases h
    rfl
  | case2 c lit => cases h
  | case3 c lit d text heq ih => rw [beq_iff_eq.mp heq, cons_append, ← ih h]
  | case4 c lit d text hne => cases h

theorem run_skipLiteral (lit rest : Text) :
    (skipLiteral lit).run (lit ++ rest) = some (some (), rest) := by
  induction lit with
  | nil => rfl
  | cons c lit ih =>
    change literalFrom _ (c :: lit) (c :: (lit ++ rest)) = _
    rw [literalFrom, if_pos (beq_self_eq_true c)]
    exact ih

/-- The literal is there, or the other scanner starts where it did. -/
theorem choose_cases {α : Type} (lit text : Text) (p q : Scan UInt8 α) :
    (∃ rest, text = lit ++ rest ∧ (choose lit p q).run text = p.run rest) ∨
      (∀ rest, text ≠ lit ++ rest) ∧ (choose lit p q).run text = q.run text := by
  simp only [choose, run_bind, attempt]
  rcases hlit : (skipLiteral lit).run text with _ | ⟨_ | ⟨⟩, rest⟩
  · exact absurd hlit (total_literalBy _ lit text)
  · refine .inr ⟨?_, rfl⟩
    rintro rest rfl
    rw [run_skipLiteral] at hlit
    cases hlit
  · exact .inl ⟨rest, skipLiteral_some hlit, rfl⟩

theorem total_choose {α : Type} (lit : Text) {p q : Scan UInt8 α} (hp : Total p) (hq : Total q) :
    Total (choose lit p q) := by
  intro text h
  rcases choose_cases lit text p q with ⟨rest, -, hrun⟩ | ⟨-, hrun⟩
  · exact hp rest (hrun ▸ h)
  · exact hq text (hrun ▸ h)

theorem eolFrom_ne_none (cr : Bool) (text : Text) : eolFrom cr text ≠ none := by
  fun_induction eolFrom cr text with
  | case2 _ _ ih | case4 _ _ _ _ ih => exact ih
  | _ => simp

theorem total_skipEol : Total skipEol := eolFrom_ne_none false

/-- Behind the received data there are no digits. -/
theorem total_parseUint (md : Nat) (wat : Bool) : Total (parseUint md wat []) := by
  intro text h
  obtain ⟨ds, hdig, -⟩ := scanUint_digits md 10 0 0 (text ++ [])
  have hlen := congrArg List.length hdig
  have hused : ¬ text.length < text.length + 0 - (scanUint md 10 0 0 (text ++ [])).rest.length := by
    omega
  simp only [parseUint, length_nil, hused, decide_false, Bool.false_and] at h
  split at h <;> cases h

theorem graph_word : (∀ a ∈ w, (!isspace a && isprint a && a != stop) = true) ↔
    ∀ a ∈ w, isgraph a = true ∧ a ≠ stop := by
  simp [isgraph]

/-- A word that is ended by a byte that ends words. -/
theorem run_skipWordPrintable (rest : Text) (hw : w ≠ [])
    (hgr : ∀ a ∈ w, isgraph a = true ∧ a ≠ stop) (hc : isspace c = true ∨ c = stop) :
    (skipWordPrintable stop).run (w ++ c :: rest) = some (some w, c :: rest) := by
  have hout : (!isspace c && isprint c && c != stop) = false := by
    rcases hc with hc | hc <;> simp [hc]
  have has : (isspace c || c == stop) = true := by
    rcases hc with hc | hc <;> simp [hc]
  simp [skipWordPrintable, run_bind, run_word rest hw (graph_word.mpr hgr) hout, assertAt,
    has, run_pure]

/-- A word that is ended by a byte that is neither printed nor white space. -/
theorem run_skipWordPrintable_none (rest : Text) (hw : w ≠ [])
    (hgr : ∀ a ∈ w, isgraph a = true ∧ a ≠ stop) (hc : isprint c = false ∧ isspace c = false)
    (hstop : c ≠ stop) : (skipWordPrintable stop).run (w ++ c :: rest) = none := by
  have hout : (!isspace c && isprint c && c != stop) = false := by simp [hc.1]
  have has : (isspace c || c == stop) = false := by simp [hc.2, hstop]
  simp [skipWordPrintable, run_bind, run_word rest hw (graph_word.mpr hgr) hout, assertAt, has]

theorem skipWordPrintable_none (h : (skipWordPrintable stop).run text = none) :
    ∃ w c after, text = w ++ c :: after ∧ w ≠ [] ∧ (∀ a ∈ w, isgraph a = true ∧ a ≠ stop) ∧
      isprint c = false ∧ isspace c = false := by
  simp only [skipWordPrintable, run_bind] at h
  split at h
  · next hnone => exact absurd hnone (total_word _ text)
  · cases h
  next w _ hword =>
  obtain ⟨c, after, rfl, rfl, hne, hw, hc⟩ := word_some hword
  refine ⟨w, c, after, rfl, hne, graph_word.mp hw, ?_⟩
  cases hsp : isspace c <;> cases hstop : c == stop <;> simp_all [assertAt]

theorem skipWordPrintable_done (h : (skipWordPrintable stop).run text = some (some w, rest)) :
    ∃ c after, rest = c :: after ∧ text = w ++ c :: after ∧ w ≠ [] ∧
      (∀ a ∈ w, isgraph a = true ∧ a ≠ stop) ∧ (isspace c = true ∨ c = stop) := by
  obtain ⟨w', t1, hword, h⟩ := run_bind_eq_some h
  obtain ⟨_, t2, has, ⟨⟩⟩ := run_bind_eq_some h
  obtain ⟨c, after, rfl, rfl, hne, hw, -⟩ := word_some hword
  simp only [assertAt] at has
  split at has
  · next hc =>
    cases has
    exact ⟨c, after, rfl, rfl, hne, graph_word.mp hw, by simpa using hc⟩
  · cases has

theorem skipWordPrintable_fail (h : (skipWordPrintable stop).run text = some (none, rest)) :
    rest = [] ∨ rest = text := by
  simp only [skipWordPrintable, run_bind] at h
  split at h
  · cases h
  · next hword =>
    cases h
    exact word_none hword
  simp only [assertAt] at h
  split at h
  · cases h
  · next has => split at has <;> cases has
  · cases h

/-! ### The scanners leave the end of the text -/

theorem leaves_skipLiteral (lit : Text) : Leaves (skipLiteral lit) := leaves_literalBy _ lit

theorem leaves_skipOptionalSpace : Leaves skipOptionalSpace :=
  (leaves_span _).bind fun _ => leaves_pure _

theorem leaves_choose {α : Type} (lit : Text) {p q : Scan UInt8 α} (hp : Leaves p)
    (hq : Leaves q) : Leaves (choose lit p q) := by
  refine (leaves_skipLiteral lit).attempt.bind fun found => ?_
  cases found with
  | some _ => exact hp
  | none => exact hq

/-- An end of line ends in a LF. -/
theorem eolFrom_suffix (cr : Bool) (h : eolFrom cr text = some (x, rest)) :
    x.elim rest (fun _ => 10 :: rest) <:+ text := by
  fun_induction eolFrom cr text with
  | case2 _ _ ih | case4 _ _ _ _ ih => exact (ih h).trans (suffix_cons _ _)
  | _ =>
    cases h
    exact suffix_rfl

theorem leaves_skipEol : Leaves skipEol := by
  intro text x rest h
  have hleft := eolFrom_suffix false h
  cases x with
  | none => exact hleft
  | some => exact (suffix_cons 10 rest).trans hleft

theorem leaves_assertAt : Leaves (assertAt p) := by
  intro text x rest h
  simp only [assertAt] at h
  split at h <;> cases h
  exact suffix_rfl

theorem leaves_skipWordPrintable (stop : UInt8) : Leaves (skipWordPrintable stop) :=
  (leaves_word _).bind fun _ => leaves_assertAt.bind fun _ => leaves_pure _

theorem leaves_parseToken : Leaves (parseToken dstsiz) :=
  (leaves_word _).bind fun _ => (leaves_require _).bind fun _ => leaves_pure _

theorem quotedFrom_suffix (slosh : Bool) (dst text : Text)
    (h : quotedFrom slosh dst text = some (x, rest)) : rest <:+ text := by
  fun_induction quotedFrom slosh dst text with
  | case1 | case2 =>
    cases h
    exact suffix_rfl
  | case4 =>
    cases h
    exact suffix_cons _ rest
  | case3 _ _ _ _ ih | case5 _ _ _ _ _ _ ih | case6 _ _ _ _ _ _ _ _ ih =>
    exact (ih h).trans (suffix_cons _ _)

theorem leaves_parseQuotedString : Leaves (parseQuotedString dstsiz) := by
  refine (leaves_skipLiteral _).bind fun _ => Leaves.bind ?_ fun _ =>
    (leaves_require _).bind fun _ => leaves_pure _
  exact fun text _ _ h => quotedFrom_suffix false [] text h

theorem leaves_parseTokenOrQuotedString (dstsiz : Nat) : Leaves (parseTokenOrQuotedString dstsiz) := by
  rw [parseTokenOrQuotedString]
  split
  · exact leaves_abort
  intro text x rest h
  simp only at h
  split at h
  · exact leaves_parseQuotedString text x rest h
  · exact leaves_parseToken text x rest h

theorem leaves_parseUint (md : Nat) (wat : Bool) (beyond : Text) :
    Leaves (parseUint md wat beyond) := by
  intro text x rest h
  simp only [parseUint] at h
  split at h
  · split at h <;> cases h
    exact drop_suffix _ _
  cases h
  exact suffix_rfl

/-! ### Literals and numbers -/

theorem skipLiteral_bind (a b text : Text) :
    (do skipLiteral a; skipLiteral b : Scan UInt8 Unit).run text = (skipLiteral (a ++ b)).run text := by
  change (literalBy _ a >>= fun _ => literalBy _ b).run text = literalFrom _ (a ++ b) text
  induction a generalizing text with
  | nil => rfl
  | cons c a ih =>
    cases text with
    | nil => rfl
    | cons d text =>
      have hrest := ih text
      rw [run_bind] at hrest ⊢
      simp only [literalBy, cons_append, literalFrom] at hrest ⊢
      by_cases hsame : (d == c) = true
      · simp [hsame, hrest]
      · simp [hsame]

/-- With NULs behind the data no digit is read from there. -/
theorem run_parseUint32_nil (hd : text.head?.any isdigit = true) : (parseUint32 []).run text =
      some (if (scanUint (2 ^ 32) 10 0 0 text).value = (scanUint (2 ^ 32) 10 0 0 text).newvalue
        then some (scanUint (2 ^ 32) 10 0 0 text).value else none,
        (scanUint (2 ^ 32) 10 0 0 text).rest) := by
  obtain ⟨ds, hs, -⟩ := scanUint_digits (2 ^ 32) 10 0 0 text
  simp only [parseUint32, parseUint, hd, if_true, append_nil, length_nil, add_zero]
  generalize scanUint (2 ^ 32) 10 0 0 text = r at hs
  have hused : text.length - r.rest.length = ds.length := by
    have hlen := congrArg List.length hs
    rw [length_append] at hlen
    omega
  have hsht : ¬ text.length < ds.length := by
    have hlen := congrArg List.length hs
    omega
  have hdrop : text.drop ds.length = r.rest := by rw [hs, drop_left]
  simp [hused, hsht, hdrop]

/-! ### The scanners keep to their line -/

/-- A byte that ends lines. -/
def EndsLine (c : UInt8) : Prop := c = 10 ∨ c = 13

theorem EndsLine.not_mem (h : EndsLine stop) (hlit : 10 ∉ lit ∧ 13 ∉ lit) : stop ∉ lit := by
  rcases h with rfl | rfl
  · exact hlit.1
  · exact hlit.2

/-- A byte that ends lines is in no class of bytes of a value. -/
theorem EndsLine.eq_false (h : EndsLine stop) {p : UInt8 → Bool} (hp : p 10 = false ∧ p 13 = false) :
    p stop = false := by
  rcases h with rfl | rfl
  · exact hp.1
  · exact hp.2

section Within

variable {ι : Type} (hstop : EndsLine stop)

theorem within_skipLiteral (hlit : stop ∉ lit) : Within stop (fun _ : ι => skipLiteral lit) :=
  within_literalBy _ lit fun c hc => by
    rw [beq_eq_false_iff_ne]
    exact fun h => hlit (h ▸ hc)

include hstop in
theorem within_skipOptionalSpace : Within stop (fun _ : ι => skipOptionalSpace) :=
  (within_span (hstop.eq_false (by decide))).bind fun _ => within_pure _

theorem within_choose {α : Type} (hlit : stop ∉ lit) {p q : ι → Scan UInt8 α} (hp : Within stop p)
    (hq : Within stop q) : Within stop (fun i => choose lit (p i) (q i)) := by
  refine (within_skipLiteral hlit).attempt.bind fun found => ?_
  cases found with
  | some _ => exact hp
  | none => exact hq

theorem within_assertAt : Within stop (fun _ : ι => assertAt p) := by
  intro line hline
  have hhead : ∀ after : Text, (line ++ stop :: after).head? = some (line.head?.getD stop) := by
    intro after
    cases line <;> rfl
  simp only [assertAt, hhead, Option.any_some]
  split
  · exact ⟨some (some (), line), fun x hx => by cases hx; exact hline, fun _ _ => rfl⟩
  · exact ⟨none, fun _ hx => absurd hx (Option.not_mem_none _), fun _ _ => rfl⟩

include hstop in
theorem within_skipWordPrintable (c : UInt8) : Within stop (fun _ : ι => skipWordPrintable c) := by
  have hpr : isprint stop = false := hstop.eq_false (by decide)
  exact (within_word (by simp [hpr])).bind fun _ => within_assertAt.bind fun _ => within_pure _

include hstop in
theorem within_skipSpace : Within stop (fun _ : ι => skipSpace) :=
  (within_span (hstop.eq_false (by decide))).bind fun _ => within_require _

include hstop in
theorem within_parseToken (dstsiz : Nat) : Within stop (fun _ : ι => parseToken dstsiz) :=
  (within_word (hstop.eq_false (by decide))).bind fun _ => (within_require _).bind fun _ => within_pure _

include hstop in
theorem quotedFrom_stop (slosh : Bool) (dst line : Text) (hline : stop ∉ line) : ∃ x rest, stop ∉ rest ∧
      ∀ after, quotedFrom slosh dst (line ++ stop :: after) = some (x, rest ++ stop :: after) := by
  have hpr : isprint stop = false := hstop.eq_false (by decide)
  induction line generalizing slosh dst with
  | nil => exact ⟨none, [], hline, fun after => by simp [quotedFrom, hpr]⟩
  | cons c line ih =>
    have hrest : stop ∉ line := fun h => hline (mem_cons_of_mem c h)
    simp only [cons_append, quotedFrom]
    split
    · exact ⟨none, c :: line, hline, fun _ => rfl⟩
    split
    · exact ih false (dst ++ [c]) hrest
    split
    · exact ⟨some dst, line, hrest, fun _ => rfl⟩
    split
    · exact ih true dst hrest
    · exact ih false (dst ++ [c]) hrest

include hstop in
theorem within_parseQuotedString : Within stop (fun _ : ι => parseQuotedString dstsiz) := by
  refine (within_skipLiteral (hstop.not_mem (by decide))).bind fun _ => Within.bind ?_ fun _ =>
    (within_require _).bind fun _ => within_pure _
  refine within_of_some fun line hline => ?_
  obtain ⟨x, rest, hrest, heq⟩ := quotedFrom_stop hstop false [] line hline
  exact ⟨x, rest, hrest, fun _ => heq⟩

include hstop in
theorem within_parseTokenOrQuotedString (dstsiz : Nat) :
    Within stop (fun _ : ι => parseTokenOrQuotedString dstsiz) := by
  simp only [parseTokenOrQuotedString]
  split
  · exact within_abort
  intro line hline
  have hqu : stop ≠ 34 := by rcases hstop with rfl | rfl <;> decide
  have hhead : ∀ after : Text, (line ++ stop :: after).head? = some 34 ↔ line.head? = some 34 := by
    intro after
    cases line <;> simp [hqu]
  simp only [hhead]
  split
  · exact within_parseQuotedString hstop line hline
  · exact within_parseToken hstop dstsiz line hline

include hstop in
theorem within_parseUint (md : Nat) (wat : Bool) :
    Within stop (fun beyond => parseUint md wat beyond) := by
  refine within_of_some fun line hline => ?_
  have hhead : ∀ after : Text, (line ++ stop :: after).head?.any isdigit = line.head?.any isdigit := by
    intro after
    cases line with
    | nil => exact hstop.eq_false (p := isdigit) (by decide)
    | cons => rfl
  obtain ⟨ds, hdig, -⟩ := scanUint_digits md 10 0 0 line
  have hscan : ∀ beyond after : Text, scanUint md 10 0 0 (line ++ stop :: after ++ beyond) =
      { scanUint md 10 0 0 line with
        rest := (scanUint md 10 0 0 line).rest ++ stop :: (after ++ beyond) } := by
    intro beyond after
    rw [append_assoc, cons_append]
    refine scanUint_append md 10 0 0 line (stop :: (after ++ beyond)) fun _ c hc => ?_
    cases hc
    rcases hstop with rfl | rfl <;> decide
  generalize scanUint md 10 0 0 line = r at hdig hscan
  -- the digits end in the line, so the cursor is not behind `r->end`
  have hused : ∀ beyond after : Text, (line ++ stop :: after).length + beyond.length -
      (r.rest ++ stop :: (after ++ beyond)).length = ds.length := by
    intro beyond after
    have hlen := congrArg List.length hdig
    simp only [length_append, length_cons] at hlen ⊢
    omega
  have hdrop : ∀ after : Text, (line ++ stop :: after).drop ds.length = r.rest ++ stop :: after := by
    intro after
    rw [hdig, append_assoc, drop_left]
  have hsht : ∀ after : Text, ¬ (line ++ stop :: after).length < ds.length := by
    intro after
    have hlen := congrArg List.length hdig
    simp only [length_append, length_cons] at hlen ⊢
    omega
  cases hd : line.head?.any isdigit with
  | false =>
    exact ⟨none, line, hline, fun beyond after => by simp only [parseUint, hhead, hd]; rfl⟩
  | true =>
    refine ⟨if r.value = r.newvalue then some r.value else none, r.rest, ?_, fun beyond after => ?_⟩
    · exact fun h => hline (hdig ▸ mem_append_right ds h)
    simp only [parseUint, hhead, hd, hscan, hused, hdrop, if_true]
    rw [if_neg]
    simp only [Bool.and_eq_true, decide_eq_true_eq, not_and]
    exact fun h => absurd h (hsht after)

end Within

end HttpScan
