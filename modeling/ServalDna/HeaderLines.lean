import ServalDna.HeaderAborts
import ServalDna.RequestLine

/-!
# Header lines that stop the program

The header lines behind a valid request line, all received in one read: which
of them fail an assertion, that `r->received`, `r->parsed` and `r->end` keep
their order, and that what follows a line has no effect on what is made of it.
-/
namespace HeaderLines

open TextCodec Scanner Scanner.Scan HttpScan HttpHeaders ListSlice HttpRequest RequestRun RequestSplit
open RequestLine HeaderAborts List Option

/-! ### The end of a line -/

theorem zeros_split (l : Text) : ∃ z, l = z ++ l.dropWhile (· == 0) ∧ ∀ c ∈ z, c = 0 := by
  refine ⟨l.takeWhile (· == 0), takeWhile_append_dropWhile.symm, fun c hc => ?_⟩
  simpa using mem_takeWhile_imp hc

/-- The line and what ends it: NULs, a CR or none, and NULs. -/
theorem trimEol_split (line : Text) : ∃ zs cr zs' : Text,
    line = trimEol line ++ (zs ++ (cr ++ zs')) ∧ (cr = [] ∨ cr = [13]) ∧
      (∀ c ∈ zs, c = 0) ∧ ∀ c ∈ zs', c = 0 := by
  have hcr : ∀ l : Text, ∃ cr : Text, l = cr ++ (if l.head? = some 13 then l.tail else l) ∧
      (cr = [] ∨ cr = [13]) := by
    intro l
    split
    · next h =>
      obtain ⟨rest, rfl⟩ : ∃ rest, l = 13 :: rest := ⟨l.tail, by cases l <;> simp_all⟩
      exact ⟨[13], rfl, .inr rfl⟩
    · exact ⟨[], rfl, .inl rfl⟩
  simp only [trimEol]
  obtain ⟨z1, h1, hz1⟩ := zeros_split line.reverse
  obtain ⟨cr, h2, hz2⟩ := hcr (line.reverse.dropWhile (· == 0))
  generalize (if (line.reverse.dropWhile (· == 0)).head? = some 13 then
    (line.reverse.dropWhile (· == 0)).tail else line.reverse.dropWhile (· == 0)) = l2 at h2 ⊢
  obtain ⟨z3, h3, hz3⟩ := zeros_split l2
  refine ⟨z3.reverse, cr, z1.reverse, ?_, hz2, ?_, ?_⟩
  · have hcrr : cr = cr.reverse := by rcases hz2 with rfl | rfl <;> rfl
    rw [hcrr, ← reverse_append, ← reverse_append, ← reverse_append, append_assoc,
      append_assoc, ← h3, ← h2, ← h1, reverse_reverse]
  · simpa using hz3
  · simpa using hz1

theorem eolFrom_zeros (found : Bool) (h : ∀ c ∈ zs, c = 0) :
    eolFrom found (zs ++ rest) = eolFrom found rest := by
  induction zs with
  | nil => rfl
  | cons c zs ih =>
    rw [cons_append, eolFrom, if_pos (h c mem_cons_self)]
    exact ih fun d hd => h d (mem_cons_of_mem c hd)

/-- Behind the end of a line its successor begins. -/
theorem nextLine_lf (content after : Text) :
    nextLine ((content ++ 10 :: after).drop (trimEol content).length) = after := by
  obtain ⟨zs, cr, zs', hspl, hcr, hzs, hzs'⟩ := trimEol_split content
  have hdrop : (content ++ 10 :: after).drop (trimEol content).length =
      zs ++ (cr ++ (zs' ++ 10 :: after)) := by
    rw [hspl, append_assoc, ← hspl, drop_left]
    simp
  have heol : eolFrom false (zs ++ (cr ++ (zs' ++ 10 :: after))) = some (some (), after) := by
    rw [eolFrom_zeros false hzs]
    rcases hcr with rfl | rfl
    · rw [nil_append, eolFrom_zeros false hzs']
      rfl
    · exact eolFrom_zeros true hzs'
  simp [nextLine, skipEol, hdrop, heol]

variable {content rest text line : Text} {r : Request}

theorem lineAt_lf (after : Text) (h : 10 ∉ content) :
    lineAt (content ++ 10 :: after) = trimEol content := by
  have hne : ∀ c ∈ content, (c != 10) = true := fun c hc => by
    simpa using fun heq : c = 10 => h (heq ▸ hc)
  have htake : (content ++ 10 :: after).takeWhile (· != 10) = content := by
    rw [takeWhile_append_of_pos hne]
    simp
  rw [lineAt, if_pos (by simp), htake]

/-- The line and its end. -/
theorem lineAt_split :
    ∃ tail, text = lineAt text ++ tail ∧ ∀ c ∈ tail.head?, c = 0 ∨ c = 13 ∨ c = 10 := by
  by_cases hlf : 10 ∈ text
  · obtain ⟨content, after, rfl, hcon⟩ := eq_append_cons_of_mem hlf
    obtain ⟨zs, cr, zs', hspl, hcr, hzs, hzs'⟩ := trimEol_split content
    rw [lineAt_lf after hcon]
    refine ⟨zs ++ (cr ++ zs') ++ 10 :: after, ?_, fun c hc => ?_⟩
    · rw [← append_assoc, ← hspl]
    have hmem : ∀ d ∈ zs ++ (cr ++ zs'), d = 0 ∨ d = 13 ∨ d = 10 := by
      intro d hd
      rcases mem_append.mp hd with hd | hd
      · exact .inl (hzs d hd)
      rcases mem_append.mp hd with hd | hd
      · rcases hcr with rfl | rfl
        · exact absurd hd not_mem_nil
        · exact .inr (.inl (mem_singleton.mp hd))
      · exact .inl (hzs' d hd)
    generalize zs ++ (cr ++ zs') = t at hc hmem
    cases t with
    | nil =>
      cases hc
      decide
    | cons d t =>
      cases hc
      exact hmem c mem_cons_self
  rw [lineAt, if_neg hlf]
  exact ⟨[], (append_nil _).symm, fun c hc => absurd hc (not_mem_none c)⟩

/-! ### Labels -/

/-- The label in front, in upper or lower case, and the value behind its spaces. -/
def Labelled (name : String) (text value : Text) : Prop :=
  ∃ label spaces, text = label ++ (spaces ++ value) ∧
    label.map toupper = (ascii name).map toupper ∧ Spaces spaces ∧
    ∀ c ∈ value.head?, isHttpSpace c = false

variable {lit tail value : Text}

theorem nocase_some (h : (skipLiteralNocase lit).run text = some (some (), rest)) :
    ∃ label, text = label ++ rest ∧ label.map toupper = lit.map toupper := by
  change literalFrom _ lit text = _ at h
  fun_induction literalFrom (fun a b : UInt8 => toupper a == toupper b) lit text with
  | case1 text =>
    cases h
    exact ⟨[], rfl, rfl⟩
  | case2 c lit => cases h
  | case3 c lit d text heq ih =>
    obtain ⟨label, rfl, hlab⟩ := ih h
    exact ⟨d :: label, rfl, by rw [map_cons, map_cons, hlab, beq_iff_eq.mp heq]⟩
  | case4 c lit d text hne => cases h

theorem run_nocase {label : Text} (h : label.map toupper = lit.map toupper) :
    (skipLiteralNocase lit).run (label ++ rest) = some (some (), rest) := by
  induction lit generalizing label with
  | nil =>
    rw [map_nil, map_eq_nil_iff] at h
    rw [h]
    rfl
  | cons c lit ih =>
    cases label with
    | nil => cases h
    | cons d label =>
      rw [map_cons, map_cons, List.cons.injEq] at h
      change literalFrom (fun a b => toupper a == toupper b) (c :: lit) (d :: (label ++ rest)) = _
      rw [literalFrom, if_pos (beq_iff_eq.mpr h.1)]
      exact ih h.2

/-- Two labels that are in front of one text, one of them is the start of the other. -/
theorem label_exclusive {lit' rest' : Text} (h : (skipLiteralNocase lit).run text = some (some (), rest))
    (h' : (skipLiteralNocase lit').run text = some (some (), rest')) :
    lit.map toupper <+: lit'.map toupper ∨ lit'.map toupper <+: lit.map toupper := by
  obtain ⟨label, rfl, hlab⟩ := nocase_some h
  obtain ⟨label', heq, hlab'⟩ := nocase_some h'
  rw [← hlab, ← hlab']
  rcases append_eq_append_iff.mp heq with ⟨mid, rfl, -⟩ | ⟨mid, rfl, -⟩
  · exact .inl (by rw [map_append]; exact prefix_append _ _)
  · exact .inr (by rw [map_append]; exact prefix_append _ _)

theorem labelled_iff : Labelled name text value ↔ ∃ rest, (skipLiteralNocase (ascii name)).run text =
      some (some (), rest) ∧ value = rest.dropWhile isHttpSpace := by
  constructor
  · rintro ⟨label, spaces, rfl, hlab, hsps, hval⟩
    refine ⟨spaces ++ value, run_nocase hlab, ?_⟩
    rw [dropWhile_run hsps hval]
  rintro ⟨rest, hrun, rfl⟩
  obtain ⟨label, rfl, hlab⟩ := nocase_some hrun
  refine ⟨label, rest.takeWhile isHttpSpace, ?_, hlab, fun c hc => mem_takeWhile_imp hc,
    fun c hc => head_dropWhile hc⟩
  rw [takeWhile_append_dropWhile]

/-! ### One line -/

/-- The line at the cursor fails an assertion. -/
def Spoiled (r : Request) : Prop :=
  let text := r.buffer.unparsed
  let line := lineAt text
  let header := r.head.requestHeader
  line ≠ [] ∧ ((header.contentType.type = [] ∧
      ∃ value, Labelled "Content-Type:" text value ∧ UnknownContentType value) ∨
    (header.authorization = none ∧ ∃ value, Labelled "Authorization:" text value ∧
      BadDigest (lineFrom text line value) value) ∨
    (header.origin.null = false ∧ header.origin.scheme = [] ∧
      ∃ value, Labelled "Origin:" text value ∧ BadOrigin (lineFrom text line value) value))

theorem valueLine_none {value : Text → Scan UInt8 RequestHeaders} :
    valueLine r text line duplicate value rest = none ↔ duplicate = false ∧
      (value (lineFrom text line (rest.dropWhile isHttpSpace))).run
        (rest.dropWhile isHttpSpace) = none := by
  simp only [valueLine]
  cases duplicate with
  | true => simp
  | false =>
    generalize (value (lineFrom text line (rest.dropWhile isHttpSpace))).run _ = out
    rcases out with _ | ⟨_ | header, rest'⟩ <;> simp

/-- A value that is stored fails an assertion where its scanner does. -/
theorem run_map_none {α β : Type} (p : Scan UInt8 α) (f : α → β) (text : Text) :
    (do return f (← p) : Scan UInt8 β).run text = none ↔ p.run text = none := by
  simp only [run_bind, run_pure]
  rcases p.run text with _ | ⟨_ | a, rest⟩ <;> simp

theorem total_parseRange : Total (parseRange []) := by
  refine total_choose _ ((total_parseUint _ _).bind fun _ => total_pure _)
    ((total_parseUint _ _).bind fun _ => (total_literalBy _ _).bind fun _ =>
      (total_parseUint _ _).attempt.bind fun last => ?_)
  cases last with
  | some last => exact (total_require _).bind fun _ => total_pure _
  | none => exact total_pure _

theorem total_parseRanges : Total (parseRanges []) := by
  have hcma : Total comma := (total_literalBy _ _).bind fun _ => total_skipOptionalSpace
  intro text h
  change rangesFrom [] text = none at h
  fun_induction rangesFrom [] text with
  | case1 text hnone => exact total_parseRange text hnone
  | case2 | case4 | case5 => cases h
  | case3 text rg rest hrng hnone => exact hcma rest hnone
  | case6 text rg rest hrng rest' hcma hnone ih => exact ih h

theorem contentLengthLine_some (hstl : r.buffer.stale = []) :
    contentLengthLine r text line rest ≠ none := by
  intro h
  simp only [contentLengthLine, hstl, valueLine_none, run_map_none] at h
  exact total_parseUint _ _ _ h.2

theorem rangeLine_some (hstl : r.buffer.stale = []) : rangeLine r text line rest ≠ none := by
  intro h
  simp only [rangeLine, hstl, valueLine_none] at h
  exact ((total_literalBy _ _).bind fun _ => total_parseRanges.bind fun _ => total_pure _) _ h.2

theorem contentTypeLine_none :
    contentTypeLine r text line rest = none ↔ r.head.requestHeader.contentType.type = [] ∧
      UnknownContentType (rest.dropWhile isHttpSpace) := by
  simp only [contentTypeLine, valueLine_none, run_map_none, parseContentType_none]
  simp

theorem originLine_none : originLine r text line rest = none ↔
      (r.head.requestHeader.origin.null = false ∧ r.head.requestHeader.origin.scheme = []) ∧
      BadOrigin (lineFrom text line (rest.dropWhile isHttpSpace)) (rest.dropWhile isHttpSpace) := by
  simp only [originLine, valueLine_none, run_map_none, parseOrigin_none]
  simp

/-- What is left of a line at a cursor in it. -/
theorem lineFrom_eq : lineFrom (line ++ tail) line (rest ++ tail) = rest := by
  have hlen : (rest ++ tail).length - ((line ++ tail).length - line.length) = rest.length := by
    simp
  rw [lineFrom, hlen, take_left' rfl]

theorem authorizationLine_none (hstl : r.buffer.stale = [])
    (htail : ∀ c ∈ tail.head?, c = 0 ∨ c = 13 ∨ c = 10)
    (hrest : ∃ rl, rest.dropWhile isHttpSpace = rl ++ tail) :
    authorizationLine srv r (line ++ tail) line rest = none ↔ r.head.requestHeader.authorization = none ∧
      BadDigest (lineFrom (line ++ tail) line (rest.dropWhile isHttpSpace))
        (rest.dropWhile isHttpSpace) := by
  obtain ⟨rl, hrest⟩ := hrest
  rw [hrest, lineFrom_eq, ← parseAuthorization_none htail srv hstl]
  simp only [authorizationLine, hrest, lineFrom_eq]
  cases r.head.requestHeader.authorization with
  | some cred => simp
  | none =>
    rcases parseAuthorization srv r.buffer rl (rl ++ tail) with _ | _ | _ | _ <;> simp

/-- The labels do not contain the bytes of an end of line, whatever their case. -/
theorem label_ne {label : Text} (h : label.map toupper = (ascii name).map toupper)
    (hname : ∀ c ∈ (ascii name).map toupper, c ≠ 0 ∧ c ≠ 13 ∧ c ≠ 10) :
    ∀ c ∈ label, c ≠ 0 ∧ c ≠ 13 ∧ c ≠ 10 := by
  intro c hc
  have hupper := hname (toupper c) (h ▸ List.mem_map_of_mem hc)
  refine ⟨?_, ?_, ?_⟩ <;> rintro rfl
  · exact hupper.1 rfl
  · exact hupper.2.1 rfl
  · exact hupper.2.2 rfl

/-- The value begins in the line. -/
theorem value_in_line (h : (skipLiteralNocase (ascii name)).run (line ++ tail) = some (some (), rest))
    (hname : ∀ c ∈ (ascii name).map toupper, c ≠ 0 ∧ c ≠ 13 ∧ c ≠ 10)
    (htail : ∀ c ∈ tail.head?, c = 0 ∨ c = 13 ∨ c = 10) :
    ∃ rl, rest.dropWhile isHttpSpace = rl ++ tail := by
  obtain ⟨label, htext, hlab⟩ := nocase_some h
  have hspl : line ++ tail = (label ++ rest.takeWhile isHttpSpace) ++ rest.dropWhile isHttpSpace := by
    rw [append_assoc, takeWhile_append_dropWhile, htext]
  obtain ⟨rl, hrest, -⟩ := split_line htail hspl (fun c hc => by
    rcases mem_append.mp hc with hc | hc
    · exact label_ne hlab hname c hc
    · exact space_ne (mem_takeWhile_imp hc))
  exact ⟨rl, hrest⟩

section Labels

variable (srv : Server) (r : Request)

/-- A label in front of a line rules out those that it does not start with. -/
theorem no_label {out : Text} (h : (skipLiteralNocase (ascii name)).run text = some (some (), rest))
    (hname : ¬ ((ascii name').map toupper <+: (ascii name).map toupper ∨
      (ascii name).map toupper <+: (ascii name').map toupper)) :
    (skipLiteralNocase (ascii name')).run text ≠ some (some (), out) :=
  fun h' => hname (label_exclusive h' h)

theorem headerLine_contentType
    (h : (skipLiteralNocase (ascii "Content-Type:")).run text = some (some (), rest)) :
    headerLine srv r text line = contentTypeLine r text line rest := by
  simp only [headerLine]
  split
  · next h' => exact absurd h' (no_label h (by decide))
  · rw [h]

theorem headerLine_authorization
    (h : (skipLiteralNocase (ascii "Authorization:")).run text = some (some (), rest)) :
    headerLine srv r text line = authorizationLine srv r text line rest := by
  simp only [headerLine]
  iterate 3
    split
    · next h' => exact absurd h' (no_label h (by decide))
  rw [h]

theorem headerLine_origin (h : (skipLiteralNocase (ascii "Origin:")).run text = some (some (), rest)) :
    headerLine srv r text line = originLine r text line rest := by
  simp only [headerLine]
  iterate 4
    split
    · next h' => exact absurd h' (no_label h (by decide))
  rw [h]

end Labels

theorem headerLine_none (hstl : r.buffer.stale = [])
    (htail : ∀ c ∈ tail.head?, c = 0 ∨ c = 13 ∨ c = 10) :
    headerLine srv r (line ++ tail) line = none ↔ (r.head.requestHeader.contentType.type = [] ∧
        ∃ value, Labelled "Content-Type:" (line ++ tail) value ∧ UnknownContentType value) ∨
      (r.head.requestHeader.authorization = none ∧
        ∃ value, Labelled "Authorization:" (line ++ tail) value ∧
          BadDigest (lineFrom (line ++ tail) line value) value) ∨
      (r.head.requestHeader.origin.null = false ∧ r.head.requestHeader.origin.scheme = [] ∧
        ∃ value, Labelled "Origin:" (line ++ tail) value ∧
          BadOrigin (lineFrom (line ++ tail) line value) value) := by
  simp only [labelled_iff]
  constructor
  · intro h
    simp only [headerLine] at h
    split at h
    · exact absurd h (contentLengthLine_some hstl)
    split at h
    · next rest hlab =>
      obtain ⟨htype, hval⟩ := contentTypeLine_none.mp h
      exact .inl ⟨htype, _, ⟨rest, hlab, rfl⟩, hval⟩
    split at h
    · exact absurd h (rangeLine_some hstl)
    split at h
    · next rest hlab =>
      obtain ⟨hnone, hval⟩ := (authorizationLine_none hstl htail
        (value_in_line hlab (by decide +kernel) htail)).mp h
      exact .inr (.inl ⟨hnone, _, ⟨rest, hlab, rfl⟩, hval⟩)
    split at h
    · next rest hlab =>
      obtain ⟨⟨hnull, hsch⟩, hval⟩ := originLine_none.mp h
      exact .inr (.inr ⟨hnull, hsch, _, ⟨rest, hlab, rfl⟩, hval⟩)
    · cases h
  rintro (⟨htype, _, ⟨rest, hlab, rfl⟩, hval⟩ | ⟨hnone, _, ⟨rest, hlab, rfl⟩, hval⟩ |
    ⟨hnull, hsch, _, ⟨rest, hlab, rfl⟩, hval⟩)
  · rw [headerLine_contentType srv r hlab]
    exact contentTypeLine_none.mpr ⟨htype, hval⟩
  · rw [headerLine_authorization srv r hlab]
    exact (authorizationLine_none hstl htail
      (value_in_line hlab (by decide +kernel) htail)).mpr ⟨hnone, hval⟩
  rw [headerLine_origin srv r hlab]
  exact originLine_none.mpr ⟨⟨hnull, hsch⟩, hval⟩

/-- A header line stops the program exactly if it is spoiled. -/
theorem parse_none_iff (hpsr : r.parser = .header) (hstl : r.buffer.stale = []) :
    parse srv r = none ↔ Spoiled r := by
  obtain ⟨tail, htext, htail⟩ := lineAt_split
  have hhdr : headerLine srv r (lineAt r.buffer.unparsed ++ tail) (lineAt r.buffer.unparsed) =
    none ↔ _ := headerLine_none hstl htail
  rw [← htext] at hhdr
  simp only [parse, hpsr, parseHeader, Spoiled]
  rw [← hhdr]
  by_cases hline : lineAt r.buffer.unparsed = []
  · simp [hline]
  simp only [hline, if_false, not_false_eq_true, true_and, ne_eq]
  rcases headerLine srv r r.buffer.unparsed (lineAt r.buffer.unparsed) with _ | _ | _ | _ | _ <;>
    simp

/-! ### What follows a line -/

theorem lineFrom_lf (hline : line.length ≤ content.length) (after : Text) :
    lineFrom (content ++ 10 :: after) line (value ++ 10 :: after) =
      value.take (value.length - (content.length - line.length)) := by
  have hlen : (value ++ 10 :: after).length - ((content ++ 10 :: after).length - line.length) =
      value.length - (content.length - line.length) := by
    simp only [length_append, length_cons]
    omega
  rw [lineFrom, hlen, take_append_of_le_length (Nat.sub_le _ _)]

theorem atEol_lf (hline : line.length ≤ content.length) (after : Text) :
    atEol (content ++ 10 :: after) line (rest ++ 10 :: after) =
      ((rest.dropWhile isHttpSpace).length == content.length - line.length) := by
  rw [atEol, dropWhile_stop (by decide), Bool.eq_iff_iff, beq_iff_eq, beq_iff_eq]
  simp only [length_append, length_cons]
  omega

def behind (after : Text) : HttpRequest.Line → HttpRequest.Line
  | .store b header => .store (b.read after) header
  | line => line

/-- A value whose scanner keeps to the line. -/
theorem valueLine_behind (hline : line.length ≤ content.length)
    {value : Text → Scan UInt8 RequestHeaders}
    (hval : ∃ out, ∀ after, (value ((rest.dropWhile isHttpSpace).take
      ((rest.dropWhile isHttpSpace).length - (content.length - line.length)))).run
        (rest.dropWhile isHttpSpace ++ 10 :: after) =
          Option.map (fun x : Option RequestHeaders × Text => (x.1, x.2 ++ 10 :: after)) out) :
    ∃ x, ∀ after y, valueLine (append r after) (content ++ 10 :: after) line duplicate value
      (rest ++ 10 :: after) = some y → y = behind after x := by
  obtain ⟨out, hout⟩ := hval
  have hdrop : ∀ after, (rest ++ 10 :: after).dropWhile isHttpSpace =
      rest.dropWhile isHttpSpace ++ 10 :: after := dropWhile_stop (by decide) rest
  simp only [valueLine, hdrop, lineFrom_lf hline, hout]
  cases duplicate with
  | true => exact ⟨.skip, fun _ _ h => (Option.some.inj h).symm⟩
  | false =>
    rcases out with _ | ⟨_ | header, rest'⟩
    · exact ⟨.skip, fun _ _ h => by simp at h⟩
    · exact ⟨.malformed, fun _ _ h => (Option.some.inj h).symm⟩
    refine ⟨if (rest'.dropWhile isHttpSpace).length == content.length - line.length then
      .store r.buffer header else .malformed, fun after y h => ?_⟩
    simp only [Bool.false_eq_true, if_false, map_some, atEol_lf hline, Option.some.injEq] at h
    rw [← h]
    split <;> rfl

/-! ### Scanners on a complete line -/

theorem endsLine_lf : EndsLine 10 := .inl rfl

def originWords : Scan UInt8 (Text × Text) := do
  let scheme ← skipWordPrintable 58
  skipLiteral (ascii "://")
  let hostname ← skipWordPrintable 47
  return (scheme, hostname)

def originEnd (line : Text) (words : Text × Text) : Scan UInt8 Origin :=
  match splitPort words.2 with
  | none => abort
  | some (host, port) =>
    if host = [] then abort
    else if words.1.length < 10 ∧ host.length < 40 then return ⟨false, words.1, host, port⟩
    else (⟨fun text => some (some ⟨false, words.1.take 9, host.take 39, port⟩,
      text.drop (line.length - (words.1.length + 3 + words.2.length)))⟩ : Scan UInt8 Origin)

theorem originFrom_eq : (originFrom line).run text = (originWords >>= originEnd line).run text := by
  simp only [originFrom, originWords, run_bind, run_pure]
  rcases (skipWordPrintable 58).run text with _ | ⟨_ | sch, rest⟩
  · rfl
  · rfl
  simp only
  rcases (skipLiteral (ascii "://")).run rest with _ | ⟨_ | ⟨⟩, rest⟩
  · rfl
  · rfl
  simp only
  rcases (skipWordPrintable 47).run rest with _ | ⟨_ | hostname, rest⟩ <;> rfl

theorem within_originWords {ι : Type} : Within 10 (fun _ : ι => originWords) :=
  (within_skipWordPrintable endsLine_lf 58).bind fun _ =>
    (within_skipLiteral (by decide)).bind fun _ =>
      (within_skipWordPrintable endsLine_lf 47).bind fun _ => within_pure _

theorem originWords_some (h : originWords.run text = some (some ws, rest)) :
    text.length = ws.1.length + 3 + ws.2.length + rest.length := by
  obtain ⟨sch, mid, hsch, h⟩ := run_bind_eq_some h
  obtain ⟨_, mid', hlit, h⟩ := run_bind_eq_some h
  obtain ⟨hostname, mid'', hhost, ⟨⟩⟩ := run_bind_eq_some h
  obtain ⟨c, after, rfl, rfl, -⟩ := skipWordPrintable_done hsch
  obtain ⟨d, after', rfl, rfl, -⟩ := skipWordPrintable_done hhost
  have hthree : (ascii "://").length = 3 := rfl
  have := skipLiteral_length hlit
  simp only [length_append, length_cons] at this ⊢
  omega

/-- An origin is read in its line. -/
theorem originFrom_within (hval : 10 ∉ value) (hline : line.length ≤ value.length) :
    ∃ out : Option (Option Origin × Text), (∀ x ∈ out, 10 ∉ x.2) ∧
      ∀ after, (originFrom line).run (value ++ 10 :: after) =
        out.map fun x => (x.1, x.2 ++ 10 :: after) := by
  obtain ⟨out, hout, hwords⟩ := (within_originWords : Within 10 fun _ : Unit => originWords) value hval
  simp only [originFrom_eq, run_bind, hwords ()]
  rcases out with _ | ⟨_ | ws, rest⟩
  · exact ⟨none, by simp, fun _ => rfl⟩
  · exact ⟨some (none, rest), unstopped_some _ (hout _ rfl), fun _ => rfl⟩
  have hrest : 10 ∉ rest := hout (some ws, rest) rfl
  have hlen := originWords_some (hwords () [])
  simp only [length_append, length_cons, length_nil] at hlen
  simp only [map_some, originEnd]
  rcases splitPort ws.2 with _ | ⟨host, port⟩
  · exact ⟨none, by simp, fun _ => rfl⟩
  simp only
  split
  · exact ⟨none, by simp, fun _ => rfl⟩
  split
  · exact ⟨some (some ⟨false, ws.1, host, port⟩, rest), unstopped_some _ hrest, fun _ => rfl⟩
  refine ⟨some (some ⟨false, ws.1.take 9, host.take 39, port⟩,
    rest.drop (line.length - (ws.1.length + 3 + ws.2.length))),
    unstopped_some _ fun h => hrest (mem_of_mem_drop h), fun after => ?_⟩
  simp only [map_some]
  rw [drop_append_of_le_length (by omega)]

theorem within_literal_space {ι : Type} (hlit : 10 ∉ lit) :
    Within 10 (fun _ : ι => (do skipLiteral lit; skipSpace : Scan UInt8 Unit)) :=
  (within_skipLiteral hlit).bind fun _ => within_skipSpace endsLine_lf

theorem parseOrigin_within (hval : 10 ∉ value) (hline : line.length ≤ value.length) :
    ∃ out : Option (Option Origin × Text), ∀ after,
      (parseOrigin line).run (value ++ 10 :: after) = out.map fun x => (x.1, x.2 ++ 10 :: after) := by
  obtain ⟨null, -, hnull⟩ := (within_literal_space (by decide) :
    Within 10 fun _ : Unit => (do skipLiteral (ascii "null"); skipSpace)) value hval
  obtain ⟨out, -, hout⟩ := originFrom_within hval hline
  simp only [parseOrigin, literal_space_pure, hnull ()]
  rcases null with _ | ⟨_ | ⟨⟩, rest⟩
  rotate_left 2
  · exact ⟨some (some { Origin.empty with null := true }, rest), fun _ => rfl⟩
  -- the other two go on with the scheme
  all_goals
    simp only [map_some, map_none, hout]
    split
    · next hnull =>
      refine ⟨some (some { Origin.empty with null := true }, value.drop 4), fun after => ?_⟩
      have hfour : line.length = 4 := by rw [hnull]; rfl
      rw [drop_append_of_le_length (by omega)]
      rfl
    rcases out with _ | ⟨org, rest⟩
    · exact ⟨none, fun _ => rfl⟩
    refine ⟨some (some (org.getD Origin.empty),
      if rest.head? = some 47 then rest.tail else rest), fun after => ?_⟩
    cases rest with
    | nil => simp
    | cons c rest => by_cases hc : c = 47 <;> simp [hc]

/-- Base 64 ends in its line. -/
theorem base64Pad_lf (back : Text) :
    ∃ rest, ∀ after, base64Pad st (back ++ 10 :: after) (text ++ 10 :: after) =
      (st.bytes, rest ++ 10 :: after) := by
  induction text with
  | nil =>
    have hsp : isHttpSpace 10 = false := rfl
    have hpad : ¬ (10 : UInt8) = 61 := by decide
    simp only [nil_append, base64Pad, hsp, hpad, Bool.false_eq_true, if_false]
    split
    · exact ⟨[], fun _ => rfl⟩
    · exact ⟨back, fun _ => by simp⟩
  | cons c text ih =>
    simp only [cons_append, base64Pad]
    split
    · exact ih
    split
    · exact ⟨c :: text, fun _ => rfl⟩
    split
    · exact ⟨text.dropWhile isHttpSpace, fun after => by rw [dropWhile_stop (by decide)]⟩
    · exact ⟨back, fun _ => rfl⟩

theorem base64From_lf (st : Base64) (text : Text) :
    ∃ bytes rest, ∀ after, base64From st (text ++ 10 :: after) = (bytes, rest ++ 10 :: after) := by
  induction text generalizing st with
  | nil =>
    refine ⟨st.bytes, [], fun after => ?_⟩
    simp [base64From, base64Digit, isupper, islower, isdigit, isHttpSpace]
  | cons c text ih =>
    simp only [cons_append, base64From]
    split
    · next d _ => exact ih (st.push d)
    split
    · split
      · obtain ⟨rest, hrest⟩ := base64Pad_lf (c :: text)
        exact ⟨st.bytes, rest, hrest⟩
      · exact ⟨st.bytes, c :: text, fun _ => rfl⟩
    split
    · exact ih st
    · exact ⟨st.bytes, c :: text, fun _ => rfl⟩

theorem reserveStr_read (b : Buffer) (after : Text) : (b.read after).reserveStr address str =
      (b.reserveStr address str).map fun x => (x.1.read after, x.2) :=
  reserve_read b address _ _ after

/-- Basic credentials, with more data behind their line. -/
theorem authorizationBasic_behind (srv : Server) {b : Buffer} (after : Text) (hstl : b.stale = [])
    (hval : value ++ [10] <:+ b.unparsed) :
    authorizationBasic srv (b.read after) line (value ++ 10 :: after) =
      (authorizationBasic srv b line (value ++ [10])).map fun
        | .passed b' cred rest => .passed (b'.read after) cred (rest ++ after)
        | x => x := by
  obtain ⟨bytes, rest, hbase⟩ := base64From_lf ⟨0, 0, []⟩ value
  have hstl' : (b.read after).stale = [] := by simp [Buffer.read, hstl]
  have hsuf : rest ++ [10] <:+ b.unparsed := by
    have := base64From_suffix ⟨0, 0, []⟩ (value ++ [10])
    rw [hbase []] at this
    exact this.trans hval
  have hcom : (b.read after).commit (rest ++ 10 :: after) = (b.commit (rest ++ [10])).read after := by
    rw [← commit_read, append_assoc]
    rfl
  have hne : ∀ t : Text, ¬ value ++ 10 :: t = [] := fun t => by simp
  simp only [authorizationBasic, basicCredentials, hstl, hstl', hne, if_false, hbase, false_and]
  by_cases hlong : 5 + line.length * 3 / 4 ≤ bytes.length
  · simp only [hlong, if_true]
    rfl
  by_cases hcol : 58 ∉ bytes
  · simp only [hlong, hcol, if_false]
    rfl
  simp only [hlong, hcol, if_false, hcom, reserveStr_read]
  rcases (b.commit (rest ++ [10])).reserveStr (srv.address .user) (bytes.takeWhile (· != 58)) with
    code | ⟨b1, user⟩
  · rfl
  simp only [Except.map, reserveStr_read]
  rcases b1.reserveStr (srv.address .password)
    (bytes.drop ((bytes.takeWhile (· != 58)).length + 1)) with code | ⟨b2, password⟩
  · rfl
  simp only [map_some, append_assoc]
  rfl

theorem authorizationBasic_rest {b b' : Buffer} (hstl : b.stale = [])
    (h : authorizationBasic srv b line (value ++ [10]) = some (.passed b' cred rest)) :
    ∃ pre, rest = pre ++ [10] := by
  obtain ⟨bytes, pre, hbase⟩ := base64From_lf ⟨0, 0, []⟩ value
  have hne : ¬ value ++ [10] = [] := by simp
  simp only [authorizationBasic, basicCredentials, hstl, hne, if_false, hbase, false_and] at h
  split at h
  · cases h
  · cases h
  next hcred =>
  split at hcred
  · cases hcred
  split at hcred <;> cases hcred
  split at h
  · cases h
  split at h <;> cases h
  exact ⟨pre, rfl⟩

/-- The cursor behind a `Digest` is not at the end of the line. -/
theorem atEol_digest (after : Text) (hline : line.length ≤ content.length)
    (hrest : rest.length < value.length) :
    atEol (content ++ 10 :: after) line ((rest ++ 10 :: after).drop
      (value.take (value.length - (content.length - line.length))).length) = false := by
  rw [atEol, beq_eq_false_iff_ne]
  have hle := (dropWhile_suffix isHttpSpace (l := (rest ++ 10 :: after).drop
      (value.take (value.length - (content.length - line.length))).length)).length_le
  simp only [length_drop, length_take, length_append, length_cons] at hle ⊢
  omega

/-- What is made of an authorization, whatever follows its line. -/
theorem authorizationLine_behind (hstl : r.buffer.stale = [])
    (hunp : r.buffer.unparsed = content ++ [10]) (hline : line.length ≤ content.length)
    (hrest : rest <:+ content) (hlf : 10 ∉ content) :
    ∃ x, ∀ after y, authorizationLine srv (append r after) (content ++ 10 :: after) line
      (rest ++ 10 :: after) = some y → y = behind after x := by
  have hdrop : ∀ after, (rest ++ 10 :: after).dropWhile isHttpSpace =
      rest.dropWhile isHttpSpace ++ 10 :: after := dropWhile_stop (by decide) rest
  have hhead : ∀ after, (append r after).head = r.head := fun _ => rfl
  have hbuf : ∀ after, (append r after).buffer = r.buffer.read after := fun _ => rfl
  have hval : rest.dropWhile isHttpSpace <:+ content := (dropWhile_suffix _).trans hrest
  simp only [authorizationLine, hdrop, lineFrom_lf hline, hhead, hbuf]
  generalize rest.dropWhile isHttpSpace = value at hval
  have hval' : 10 ∉ value := fun h => hlf (hval.subset h)
  split
  · exact ⟨.skip, fun _ _ h => (Option.some.inj h).symm⟩
  obtain ⟨basic, hbas', hbas⟩ := (within_literal_space (by decide) :
    Within 10 fun _ : Unit => (do skipLiteral (ascii "Basic"); skipSpace)) value hval'
  simp only [parseAuthorization, hbas ()]
  rcases basic with _ | ⟨_ | ⟨⟩, rest1⟩
  · exact ⟨.skip, fun _ _ h => by simp at h⟩
  rotate_left
  · have hsuf : rest1 ++ [10] <:+ r.buffer.unparsed := by
      obtain ⟨pre, hbef⟩ := hval
      have hline : value ++ [10] <:+ content ++ [10] :=
        ⟨pre, by rw [← append_assoc, hbef]⟩
      rw [hunp]
      exact (literal_space_suffix (hbas () [])).trans hline
    simp only [map_some, authorizationBasic_behind srv _ hstl hsuf]
    rcases hbas : authorizationBasic srv r.buffer
      (value.take (value.length - (content.length - line.length))) (rest1 ++ [10]) with
      _ | _ | code | ⟨b', credentials, rest'⟩
    · exact ⟨.skip, fun _ _ h => by simp at h⟩
    · exact ⟨.malformed, fun _ _ h => (Option.some.inj h).symm⟩
    · exact ⟨.error code, fun _ _ h => (Option.some.inj h).symm⟩
    obtain ⟨pre, rfl⟩ := authorizationBasic_rest hstl hbas
    simp only [map_some, append_assoc, cons_append, nil_append, atEol_lf hline]
    refine ⟨if (pre.dropWhile isHttpSpace).length == content.length - line.length then
      .store b' { r.head.requestHeader with authorization := credentials } else .malformed,
      fun after y h => ?_⟩
    rw [← Option.some.inj h]
    split <;> rfl
  obtain ⟨digest, -, hdig⟩ := (within_literal_space (by decide) :
    Within 10 fun _ : Unit => (do skipLiteral (ascii "Digest"); skipSpace)) rest1
    (hbas' (none, rest1) rfl)
  simp only [map_some, hdig ()]
  rcases digest with _ | ⟨_ | ⟨⟩, rest2⟩
  · exact ⟨.malformed, fun _ _ h => (Option.some.inj h).symm⟩
  · exact ⟨.malformed, fun _ _ h => (Option.some.inj h).symm⟩
  have hsho : rest2.length < value.length := by
    have hle := (literal_space_suffix (hbas () [])).length_le
    obtain ⟨spaces, heq, -⟩ := literal_space_some (hdig () [])
    have hlen := congrArg List.length heq
    have hname : (ascii "Digest").length = 6 := rfl
    simp only [length_append, length_cons, length_nil, hname] at hle hlen
    omega
  refine ⟨.malformed, fun after y h => ?_⟩
  simp only [map_some] at h
  by_cases hsht : (rest2 ++ 10 :: after).length <
    (value.take (value.length - (content.length - line.length))).length
  · simp only [hsht, if_true] at h
    cases h
  simp only [hsht, if_false, atEol_digest _ hline hsho, Bool.false_eq_true, Option.some.injEq] at h
  exact h.symm

/-! ### A line and its successors -/

theorem trimEol_length (content : Text) : (trimEol content).length ≤ content.length := by
  obtain ⟨zs, cr, zs', hspl, -⟩ := trimEol_split content
  have := congrArg List.length hspl
  rw [length_append] at this
  omega

theorem within_nocase {ι : Type} (h : ∀ c ∈ (ascii name).map toupper, c ≠ 0 ∧ c ≠ 13 ∧ c ≠ 10) :
    Within 10 (fun _ : ι => skipLiteralNocase (ascii name)) :=
  within_literalBy _ _ fun c hc => by
    rw [beq_eq_false_iff_ne]
    intro heq
    exact (h _ (List.mem_map_of_mem hc)).2.2 heq.symm

/-- A value read by a scanner that keeps to its line. -/
theorem valueLine_within (hline : line.length ≤ content.length) (hlf : 10 ∉ content)
    (hrest : rest <:+ content) {p : Text → Scan UInt8 RequestHeaders} (hp : Within 10 p) :
    ∃ x, ∀ after y, valueLine (append r after) (content ++ 10 :: after) line duplicate (fun _ => p [])
      (rest ++ 10 :: after) = some y → y = behind after x := by
  have hval : 10 ∉ rest.dropWhile isHttpSpace := fun h =>
    hlf (hrest.subset ((dropWhile_suffix _).subset h))
  obtain ⟨out, -, hout⟩ := hp _ hval
  exact valueLine_behind hline ⟨out, hout []⟩

theorem label_lf (hlf : 10 ∉ content) (name : String)
    (h : ∀ c ∈ (ascii name).map toupper, c ≠ 0 ∧ c ≠ 13 ∧ c ≠ 10) :
    ∃ (found : Option Unit) (rest : Text), rest <:+ content ∧
      ∀ after, (skipLiteralNocase (ascii name)).run (content ++ 10 :: after) =
        some (found, rest ++ 10 :: after) := by
  obtain ⟨out, -, hout⟩ := (within_nocase h : Within (10 : UInt8) fun _ : Unit => _) content hlf
  rcases out with _ | ⟨found, rest⟩
  · exact absurd (hout () []) (total_literalBy _ _ _)
  have hsuf := leaves_literalBy _ _ _ _ _ (hout () [])
  obtain ⟨pre, hbef⟩ := hsuf
  rw [← append_assoc] at hbef
  exact ⟨found, rest, ⟨pre, append_cancel_right hbef⟩, hout ()⟩

/-- What is made of a line whose LF has been received does not depend on what follows it. -/
theorem headerLine_behind (hstl : r.buffer.stale = [])
    (hunp : r.buffer.unparsed = content ++ [10]) (hline : line.length ≤ content.length)
    (hlf : 10 ∉ content) :
    ∃ x, ∀ after y, headerLine srv (append r after) (content ++ 10 :: after) line = some y →
      y = behind after x := by
  have hstl' : ∀ after, (append r after).buffer.stale = [] := fun after => by
    simp [append, Buffer.read, hstl]
  have hhead : ∀ after, (append r after).head = r.head := fun _ => rfl
  obtain ⟨found1, rest1, hrest1, hlab1⟩ := label_lf hlf "Content-Length:" (by decide +kernel)
  obtain ⟨found2, rest2, hrest2, hlab2⟩ := label_lf hlf "Content-Type:" (by decide +kernel)
  obtain ⟨found3, rest3, hrest3, hlab3⟩ := label_lf hlf "Range:" (by decide +kernel)
  obtain ⟨found4, rest4, hrest4, hlab4⟩ := label_lf hlf "Authorization:" (by decide +kernel)
  obtain ⟨found5, rest5, hrest5, hlab5⟩ := label_lf hlf "Origin:" (by decide +kernel)
  simp only [headerLine, hlab1, hlab2, hlab3, hlab4, hlab5]
  cases found1 with
  | some _ =>
    simp only [contentLengthLine, hstl', hhead]
    exact valueLine_within hline hlf hrest1
      ((within_parseUint endsLine_lf _ _).bind fun _ => within_pure _)
  | none =>
  cases found2 with
  | some _ =>
    simp only [contentTypeLine, hhead]
    exact valueLine_within hline hlf hrest2
      ((within_parseContentType endsLine_lf _).bind fun _ => within_pure _)
  | none =>
  cases found3 with
  | some _ =>
    simp only [rangeLine, hstl', hhead]
    exact valueLine_within hline hlf hrest3 ((within_skipLiteral (by decide)).bind fun _ =>
      (within_parseRanges endsLine_lf).bind fun _ => within_pure _)
  | none =>
  cases found4 with
  | some _ => exact authorizationLine_behind hstl hunp hline hrest4 hlf
  | none =>
  cases found5 with
  | some _ =>
    simp only [originLine, hhead]
    have hval : 10 ∉ rest5.dropWhile isHttpSpace := fun h =>
      hlf (hrest5.subset ((dropWhile_suffix _).subset h))
    have hsht : ((rest5.dropWhile isHttpSpace).take ((rest5.dropWhile isHttpSpace).length -
        (content.length - line.length))).length ≤ (rest5.dropWhile isHttpSpace).length := by
      rw [length_take]
      exact min_le_right _ _
    obtain ⟨out, hout⟩ := parseOrigin_within hval hsht
    refine valueLine_behind hline ⟨out.map fun x => (x.1.map fun origin =>
      { r.head.requestHeader with origin }, x.2), fun after => ?_⟩
    rw [run_bind, hout]
    rcases out with _ | ⟨_ | origin, rest⟩ <;> rfl
  | none => exact ⟨.skip, fun _ _ h => (Option.some.inj h).symm⟩

def taken (r : Request) : HttpRequest.Line → Nat × Request
  | .skip => (0, r.commit [])
  | .store b requestHeader =>
    (0, { r with buffer := b.commit [], head := { r.head with requestHeader } })
  | .malformed => (400, r)
  | .error code => (code, r)

/-- The parser's result for a header line whose LF has been received is the same whatever
has been received behind it. -/
theorem parse_behind (srv : Server) (hpsr : r.parser = .header) (hstl : r.buffer.stale = [])
    (hunp : r.buffer.unparsed = content ++ [10]) (hlf : 10 ∉ content)
    (hline : trimEol content ≠ []) :
    ∃ x : Nat × Request, ∀ after y, parse srv (append r after) = some y →
      y = (x.1, append x.2 after) := by
  obtain ⟨x, hx⟩ := headerLine_behind hstl hunp (trimEol_length content) hlf
  have htext : ∀ after, (append r after).buffer.unparsed = content ++ 10 :: after := fun after => by
    simp [append, Buffer.read, hunp]
  have hpsr' : ∀ after, (append r after).parser = .header := fun _ => hpsr
  have hcom : ∀ (b : Buffer) after, (b.read after).commit after = (b.commit []).read after :=
    fun b after => commit_read [] after
  refine ⟨taken r x, fun after y h => ?_⟩
  simp only [parse, hpsr', parseHeader, htext, lineAt_lf after hlf, hline, if_false, nextLine_lf] at h
  split at h
  · cases h
  all_goals
    next hout =>
    cases h
    have hy := hx _ _ hout
    cases x <;> cases hy
    simp [taken, append, Request.commit, hcom, hpsr]

/-! ### The lines of a request -/

/-- The program stops where a round of the loop fails an assertion. -/
theorem process_none_iff : process srv r = none ↔ ∃ r', Rounds srv r r' ∧ parse srv r' = none := by
  induction r using process_induction srv with
  | h r ih =>
    rw [RequestRun.process_eq]
    rcases hstep : step srv r with _ | ⟨_ | _ | _, r1⟩
    · exact ⟨fun _ => ⟨r, .refl, map_eq_none_iff.mp hstep⟩, fun _ => rfl⟩
    · refine (ih r1 hstep).trans ⟨?_, ?_⟩ <;> rintro ⟨r', hrds, hnone⟩
      · exact ⟨r', .head hstep hrds, hnone⟩
      rcases hrds.cases_head with rfl | ⟨r2, hstep', hrds⟩
      · rw [step, hnone] at hstep
        cases hstep
      rw [hstep] at hstep'
      cases hstep'
      exact ⟨r', hrds, hnone⟩
    all_goals
      constructor
      · intro h
        cases h
      rintro ⟨r', hrds, hnone⟩
      rcases hrds.cases_head with rfl | ⟨r2, hstep', -⟩
      · rw [step, hnone] at hstep
        cases hstep
      rw [hstep] at hstep'
      cases hstep'

theorem Rounds.advance (h : Rounds srv r r') : Advance r r' := by
  induction h with
  | refl => exact .refl r
  | tail _ hstep ih => exact ih.trans (advance_step hstep)

/-- No handler has been called before the end of the request line. -/
theorem calls_nil (h : Rounds srv r r') (hr : r.calls = []) (hrank : 3 ≤ r'.parser.rank) :
    r'.calls = [] :=
  ((Rounds.advance h).line hrank).trans hr

/-- An assertion that fails behind the request line fails in a header line. -/
theorem parse_none_header {head : Head} (h : HandsOver srv text rest head)
    (hr : Rounds srv (append .init text) r) (hnone : parse srv r = none) : r.parser = .header := by
  obtain ⟨r0, r1, code, hrds, -, hpar, -, hcs, -⟩ := h
  have hstep : ∀ r', step srv r ≠ some (.again, r') := by
    rw [step, hnone]
    exact fun _ h => by cases h
  have hbeh : ∃ r2, step srv r0 = some (.again, r2) ∧ Rounds srv r2 r := by
    rcases Relation.ReflTransGen.total_of_right_unique (fun a b c hb hc => by
      simpa using hb.symm.trans hc) hr hrds with hback | hforth
    · rcases hback.cases_head with rfl | ⟨r', hstep', -⟩
      · rw [hnone] at hpar
        cases hpar
      · exact absurd hstep' (hstep r')
    rcases hforth.cases_head with rfl | ⟨r', hstep', hrest⟩
    · rw [hnone] at hpar
      cases hpar
    · exact ⟨r', hstep', hrest⟩
  obtain ⟨r2, hstep2, hrest⟩ := hbeh
  have hrank2 : r2.parser.rank < 3 := by
    by_contra hrank
    have hnil := calls_nil (hrds.tail hstep2) rfl (Nat.le_of_not_lt hrank)
    rw [step, hpar] at hstep2
    obtain ⟨-, rfl, -⟩ := settle_again (Option.some.inj hstep2)
    rw [hcs] at hnil
    cases hnil
  have hrank : r.parser.rank < 3 := (Rounds.advance hrest).rank.trans_lt hrank2
  cases hpsr : r.parser with
  | header => rfl
  | startBody | startParsingHeaders =>
    rw [parse, hpsr] at hnone
    cases hnone
  | verb | path | httpVersion =>
    rw [hpsr] at hrank
    exact absurd hrank (by decide)

/-- A received line by itself, without what has been received behind it. -/
theorem line_alone {after : Text} (hunp : r.buffer.unparsed = content ++ 10 :: after)
    (hstl : r.buffer.stale = []) (htot : after.length ≤ r.total) :
    ∃ r0, r = append r0 after ∧ r0.parser = r.parser ∧ r0.buffer.stale = [] ∧
      r0.buffer.unparsed = content ++ [10] := by
  refine ⟨{ r with
    buffer := { r.buffer with unparsed := content ++ [10], stale := [] }
    total := r.total - after.length }, ?_, rfl, rfl, rfl⟩
  obtain ⟨⟨_, _, _, _, _⟩, _, _, _, _, _, _⟩ := r
  simp only at hunp hstl htot
  simp [append, Buffer.read, hunp, hstl, Nat.sub_add_cancel htot]

/-- Behind a valid request line the program stops at the first spoiled header line and
nowhere else. In every round the pointers keep their order, and what is made of a line is
the same whatever follows its LF. -/
theorem header_lines (srv : Server) {text rest : Text} {head : Head}
    (hfits : Buffer.init.endAt + text.length ≤ bufferSize) (hover : HandsOver srv text rest head) :
    ((∃ r, run srv [text] = some r) ↔
      ∀ r, Rounds srv (append .init text) r → r.parser = .header → ¬ Spoiled r) ∧
    ∀ r, Rounds srv (append .init text) r →
      r.buffer.received ≤ r.buffer.below.length ∧ r.buffer.unparsed <:+ text ∧
      (∀ code r', parse srv r = some (code, r') →
        r'.buffer.received ≤ r'.buffer.below.length ∧ r'.buffer.unparsed <:+ r.buffer.unparsed) ∧
      ∀ content after, r.parser = .header → r.buffer.unparsed = content ++ 10 :: after →
        10 ∉ content → trimEol content ≠ [] →
        ∃ (r₀ : Request) (x : Nat × Request), r = append r₀ after ∧
          r₀.buffer.unparsed = content ++ [10] ∧
          ∀ after' y, parse srv (append r₀ after') = some y → y = (x.1, append x.2 after') := by
  have hstl : ∀ r, Rounds srv (append .init text) r → r.buffer.stale = [] := fun r hr => by
    rw [(Rounds.advance hr).buffer.stale]
    simp [append, Buffer.read, Request.init, Buffer.init]
  refine ⟨?_, fun r hr => ?_⟩
  · rw [run_single_eq hfits, ← isSome_iff_exists, ← ne_none_iff_isSome, ne_eq, process_none_iff]
    constructor
    · intro hnone r hr hpsr hspo
      exact hnone ⟨r, hr, (parse_none_iff hpsr (hstl r hr)).mpr hspo⟩
    rintro h ⟨r, hr, hnone⟩
    have hpsr := parse_none_header hover hr hnone
    exact h r hr hpsr ((parse_none_iff hpsr (hstl r hr)).mp hnone)
  have hadv := Rounds.advance hr
  have hinit : (append .init text).buffer.received ≤ (append .init text).buffer.below.length :=
    le_rfl
  have hrcv := hadv.buffer.received hinit
  have hsuf : r.buffer.unparsed <:+ text := hadv.buffer.unparsed
  refine ⟨hrcv, hsuf, fun code r' hpar => ?_, fun content after hpsr hunp hlf hline => ?_⟩
  · have hprs := (advance_parse hpar).buffer
    exact ⟨hprs.received hrcv, hprs.unparsed⟩
  have htot : after.length ≤ r.total := by
    have hlen := hsuf.length_le
    have hinit : (append .init text).total = text.length := zero_add _
    rw [hunp, length_append, length_cons] at hlen
    rw [hadv.total, hinit]
    omega
  obtain ⟨r₀, rfl, hpsr0, hstl0, hunp0⟩ := line_alone hunp (hstl r hr) htot
  obtain ⟨x, hx⟩ := parse_behind srv (hpsr0.trans hpsr) hstl0 hunp0 hlf hline
  exact ⟨r₀, x, rfl, hunp0, hx⟩

theorem root_graph : ∀ c ∈ ascii "/", isgraph c = true ∧ c ≠ 63 := by decide +kernel

theorem root_ne : ascii "/" ≠ [] := cons_ne_nil _ _

def rootLine : RequestLine.Line where
  verb := .get
  path := ascii "/"
  params := []
  minor := sampleLine.minor
  path_ne := root_ne
  path_graph := root_graph
  params_le := Nat.zero_le _

/-- A parameter of the content type that is not known stops the program. -/
theorem charset_stops : ¬ ∀ (srv : Server) (text rest : Text) (head : Head),
    Buffer.init.endAt + text.length ≤ bufferSize → HandsOver srv text rest head →
      ∃ r, run srv [text] = some r := by
  intro h
  have hover := handsOver_line passing rootLine
    (ascii "Content-Type: text/html; version=2\r\n\r\n") (by decide) (by decide)
    (roomy_of_length (by decide)) (by decide)
  obtain ⟨r, hrun⟩ := h passing _ _ _ (by decide) hover
  rw [run_single_eq (by decide)] at hrun
  have hnone : process passing (append .init (rootLine.text ++
    ascii "Content-Type: text/html; version=2\r\n\r\n")) = none := by decide +kernel
  rw [hnone] at hrun
  cases hrun

def harmlessLines : Text :=
  ascii "Origin: http://[::1]:80/\r\nRange: bytes=-5\r\nContent-Length: 12\r\n\r\n"

theorem harmless_lines : (∃ r, run passing [rootLine.text ++ harmlessLines] = some r) ∧
    ∀ r, Rounds passing (append .init (rootLine.text ++ harmlessLines)) r → r.parser = .header →
      ¬ Spoiled r := by
  have hover := handsOver_line passing rootLine harmlessLines (by decide) (by decide)
    (roomy_of_length (by decide)) (by decide)
  have hrun : ∃ r, run passing [rootLine.text ++ harmlessLines] = some r := by
    refine isSome_iff_exists.mp ?_
    decide +kernel
  exact ⟨hrun, (header_lines passing (by decide) hover).1.mp hrun⟩

end HeaderLines
