import ServalDna.HttpRequest

/-!
# Header values that fail an assertion

Which values of the `Content-Type`, `Origin` and `Authorization` headers make
the parsers of `http_server.c` fail an assertion, said of the text of the value
alone: a content type with a parameter that is not known, an origin with a byte
that cannot be printed, with no host or with a port that wraps around, and a
`Digest` close to the end of the data.
-/
namespace HeaderAborts

open TextCodec Scanner Scanner.Scan HttpScan HttpHeaders ListSlice HttpRequest Option
open List hiding span

/-! ### Parameters of a content type -/

def Token (w : Text) : Prop := w ≠ [] ∧ ∀ c ∈ w, isHttpToken c = true

def Spaces (s : Text) : Prop := ∀ c ∈ s, isHttpSpace c = true

/-- The body of a quoted string and the text that it stands for. -/
inductive Quoted : Text → Text → Prop where
  | nil : Quoted [] []
  | plain {c : UInt8} {body text : Text} (hprint : isprint c = true) (hquote : c ≠ 34)
    (hslosh : c ≠ 92) (h : Quoted body text) : Quoted (c :: body) (c :: text)
  | slosh {c : UInt8} {body text : Text} (hprint : isprint c = true) (h : Quoted body text) :
    Quoted (92 :: c :: body) (c :: text)

/-- A token or a quoted string for an array of `size` bytes. -/
def Value (size : Nat) (v : Text) : Prop :=
  Token v ∧ v.length < size ∨
    ∃ body text, v = 34 :: (body ++ [34]) ∧ Quoted body text ∧ text ≠ [] ∧ text.length < size

def knownParams : List (Text × Nat) :=
  [(ascii "charset", 31), (ascii "boundary", 71), (ascii "format", 31)]

/-- The parameters of a content type come to one that is not known. -/
inductive UnknownParam : Text → Prop where
  | here {s s' name : Text} (rest : Text) (hs : Spaces s) (hs' : Spaces s') (hname : Token name)
    (hunknown : name ∉ knownParams.map Prod.fst) :
    UnknownParam (s ++ 59 :: (s' ++ (name ++ 61 :: rest)))
  | later {s s' v rest : Text} {param : Text × Nat} (hs : Spaces s) (hs' : Spaces s')
    (hparam : param ∈ knownParams) (hv : Value param.2 v) (h : UnknownParam rest) :
    UnknownParam (s ++ 59 :: (s' ++ (param.1 ++ 61 :: (v ++ rest))))

/-- A content type that comes to a parameter that is not known. -/
def UnknownContentType (value : Text) : Prop :=
  ∃ type subtype rest, value = type ++ 47 :: (subtype ++ rest) ∧ Token type ∧ type.length < 64 ∧
    Token subtype ∧ subtype.length < 64 ∧ UnknownParam rest

variable {text rest w digits host tail line : Text}

theorem quotedFrom_quoted (h : Quoted body text) (dst rest : Text) :
    quotedFrom false dst (body ++ 34 :: rest) = some (some (dst ++ text), rest) := by
  induction h generalizing dst with
  | nil => simp [quotedFrom, isprint]
  | plain hpr hqu hslo _ ih =>
    simp only [cons_append, quotedFrom, hpr, hqu, hslo]
    simp [ih]
  | slosh hpr _ ih =>
    simp only [cons_append, quotedFrom, hpr]
    simp [ih, isprint]

theorem quoted_of_quotedFrom (h : quotedFrom slosh dst text = some (some d, rest)) :
    ∃ body t, text = body ++ 34 :: rest ∧ d = dst ++ t ∧
      Quoted (if slosh then 92 :: body else body) t := by
  fun_induction quotedFrom slosh dst text with
  | case1 | case2 => cases h
  | case3 dst c text hpr ih =>
    obtain ⟨body, t, rfl, rfl, hq⟩ := ih h
    exact ⟨c :: body, c :: t, rfl, by simp, .slosh (by simpa using hpr) (by simpa using hq)⟩
  | case4 slosh dst text hslo =>
    cases h
    exact ⟨[], [], rfl, by simp, by simpa [hslo] using Quoted.nil⟩
  | case5 slosh dst text hslo hpr hqu ih =>
    obtain ⟨body, t, rfl, rfl, hq⟩ := ih h
    exact ⟨92 :: body, t, rfl, rfl, by simpa [hslo] using hq⟩
  | case6 slosh dst c text hpr hslo hqu hslo' ih =>
    obtain ⟨body, t, rfl, rfl, hq⟩ := ih h
    refine ⟨c :: body, c :: t, rfl, by simp, ?_⟩
    simp only [hslo, Bool.false_eq_true, if_false] at hq ⊢
    exact .plain (by simpa using hpr) hqu hslo' hq

theorem run_parseToken (hw : Token w) (hsize : w.length < size) (hc : isHttpToken c = false) :
    (parseToken size).run (w ++ c :: rest) = some (some w, c :: rest) := by
  simp [parseToken, skipToken, run_bind, run_word rest hw.1 hw.2 hc, run_require, hsize, run_pure]

theorem parseToken_some (h : (parseToken size).run text = some (some w, rest)) :
    text = w ++ rest ∧ Token w ∧ w.length < size := by
  obtain ⟨w', mid, hword, h⟩ := run_bind_eq_some h
  obtain ⟨_, mid', hreq, ⟨⟩⟩ := run_bind_eq_some h
  obtain ⟨c, after, rfl, rfl, hne, hw, -⟩ := word_some hword
  rw [run_require] at hreq
  split at hreq
  · next hsize =>
    cases hreq
    exact ⟨rfl, ⟨hne, hw⟩, of_decide_eq_true hsize⟩
  · cases hreq

theorem head_token (hw : Token w) : (w ++ rest).head? ≠ some 34 := by
  obtain ⟨hne, hw⟩ := hw
  cases w with
  | nil => exact absurd rfl hne
  | cons c w =>
    have hc := hw c mem_cons_self
    intro h
    cases h
    exact absurd hc (by decide)

/-- A value is read up to what follows it. -/
theorem run_value (rest : Text) (hv : Value size v) (hc : isHttpToken c = false) :
    ∃ a, (parseTokenOrQuotedString size).run (v ++ c :: rest) = some (some a, c :: rest) := by
  rcases hv with ⟨hv, hsize⟩ | ⟨body, text, rfl, hq, hne, hsize⟩
  · refine ⟨v, ?_⟩
    rw [parseTokenOrQuotedString, if_neg (by omega)]
    simp only [head_token hv, if_false]
    exact run_parseToken hv hsize hc
  refine ⟨text, ?_⟩
  have hbody := quotedFrom_quoted hq [] (c :: rest)
  have hqu : (skipLiteral [34]).run (34 :: (body ++ [34]) ++ c :: rest) =
      some (some (), body ++ 34 :: c :: rest) := by
    have := run_skipLiteral [34] (body ++ 34 :: c :: rest)
    simpa using this
  have hreq : (decide (text ≠ []) && decide (text.length < size)) = true := by simp [hne, hsize]
  rw [parseTokenOrQuotedString, if_neg (by omega)]
  simp only [cons_append, head?_cons, if_true]
  simp only [cons_append] at hqu
  simp only [parseQuotedString, run_bind, hqu, hbody, nil_append, run_require, hreq,
    if_true, run_pure]

theorem value_of_run {a : Text} (h : (parseTokenOrQuotedString size).run text = some (some a, rest)) :
    ∃ v, text = v ++ rest ∧ Value size v := by
  rw [parseTokenOrQuotedString] at h
  split at h
  · cases h
  simp only at h
  split at h
  · obtain ⟨_, mid, hqu, h⟩ := run_bind_eq_some h
    obtain ⟨d, mid', hbody, h⟩ := run_bind_eq_some h
    obtain ⟨_, mid'', hreq, h⟩ := run_bind_eq_some h
    cases h
    obtain ⟨body, t, rfl, hd, hq⟩ := quoted_of_quotedFrom hbody
    subst hd
    rw [run_require] at hreq
    split at hreq
    · next hsize =>
      cases hreq
      refine ⟨34 :: (body ++ [34]), ?_, .inr ⟨body, a, rfl, by simpa using hq, ?_⟩⟩
      · rw [skipLiteral_some hqu]
        simp
      · simpa using hsize
    · cases hreq
  obtain ⟨rfl, htok, hsize⟩ := parseToken_some h
  exact ⟨a, rfl, .inl ⟨htok, hsize⟩⟩

theorem quotedFrom_ne_none (dst text : Text) : quotedFrom slosh dst text ≠ none := by
  fun_induction quotedFrom slosh dst text with
  | case1 | case2 | case4 => exact some_ne_none _
  | case3 _ _ _ _ ih | case5 _ _ _ _ _ _ ih | case6 _ _ _ _ _ _ _ _ ih => exact ih

theorem total_parseToken : Total (parseToken size) :=
  (total_word _).bind fun _ => (total_require _).bind fun _ => total_pure _

theorem total_parseTokenOrQuotedString (hsize : size ≠ 0) : Total (parseTokenOrQuotedString size) := by
  have hquo : Total (parseQuotedString size) :=
    (total_literalBy _ _).bind fun _ => Total.bind (quotedFrom_ne_none []) fun _ =>
      (total_require _).bind fun _ => total_pure _
  intro text
  rw [parseTokenOrQuotedString, if_neg hsize]
  simp only
  split
  · exact hquo text
  · exact total_parseToken text

/-! ### The loop over the parameters -/

theorem takeWhile_spaces (hs : Spaces s) (htext : ∀ c ∈ text.head?, isHttpSpace c = false) :
    skipOptionalSpace.run (s ++ text) = some (some (), text) := by
  simp only [skipOptionalSpace, run_bind, span, dropWhile_run hs htext, run_pure]

theorem run_semicolon (hs : Spaces s) (hs' : Spaces s')
    (htext : ∀ c ∈ text.head?, isHttpSpace c = false) :
    semicolon.run (s ++ 59 :: (s' ++ text)) = some (some (), text) := by
  have hsemi : (skipLiteral (ascii ";")).run (59 :: (s' ++ text)) = some (some (), s' ++ text) :=
    run_skipLiteral [59] (s' ++ text)
  have hhead : ∀ c ∈ (59 :: (s' ++ text)).head?, isHttpSpace c = false := by
    intro c hc
    cases hc
    decide
  have hfst := takeWhile_spaces hs hhead
  simp only [semicolon, run_bind, hfst, hsemi, takeWhile_spaces hs' htext]

theorem spaces_of_run (h : skipOptionalSpace.run text = some (some (), rest)) :
    ∃ s, text = s ++ rest ∧ Spaces s := by
  cases h
  exact ⟨text.takeWhile isHttpSpace, (takeWhile_append_dropWhile).symm,
    fun c hc => mem_takeWhile_imp hc⟩

theorem semicolon_some (h : semicolon.run text = some (some (), rest)) :
    ∃ s s', text = s ++ 59 :: (s' ++ rest) ∧ Spaces s ∧ Spaces s' := by
  obtain ⟨_, mid, hsp, h1⟩ := run_bind_eq_some h
  obtain ⟨_, mid', hlit, h2⟩ := run_bind_eq_some h1
  obtain ⟨s, rfl, hs⟩ := spaces_of_run hsp
  obtain ⟨s', rfl, hs'⟩ := spaces_of_run h2
  exact ⟨s, s', by rw [skipLiteral_some hlit]; rfl, hs, hs'⟩

theorem total_skipOptionalSpace : Total skipOptionalSpace :=
  (total_span _).bind fun _ => total_pure _

theorem total_semicolon : Total semicolon :=
  total_skipOptionalSpace.bind fun _ => (total_literalBy _ _).bind fun _ => total_skipOptionalSpace

theorem skipParam_none {α : Type} {a : α} (h : (skipParam a).run text = none) :
    ∃ name rest, text = name ++ 61 :: rest ∧ Token name := by
  obtain ⟨w, mid, hword, h1⟩ := (total_word _).bind_none h
  obtain ⟨c, after, rfl, rfl, hne, hw, -⟩ := word_some hword
  obtain ⟨_, rest, hlit, -⟩ := (total_literalBy _ _).bind_none h1
  exact ⟨w, rest, by rw [skipLiteral_some hlit]; rfl, hne, hw⟩

theorem run_skipParam {α : Type} (a : α) (rest : Text) (hname : Token name) :
    (skipParam a).run (name ++ 61 :: rest) = none := by
  have hlit : (skipLiteral (ascii "=")).run (61 :: rest) = some (some (), rest) :=
    run_skipLiteral [61] rest
  have hword : skipToken.run (name ++ 61 :: rest) = some (some name, 61 :: rest) :=
    run_word rest hname.1 hname.2 (by decide)
  simp only [skipParam, run_bind, hword, hlit]
  rfl

/-- What a parameter of a content type comes to. -/
theorem contentTypeParam_cases (ct : ContentType) (text : Text) :
    (∃ prm ∈ knownParams, ∃ rest, text = prm.1 ++ 61 :: rest ∧
      ∃ f : Text → ContentType, (contentTypeParam ct).run text =
        (do return f (← parseTokenOrQuotedString prm.2) : Scan UInt8 ContentType).run rest) ∨
      (∀ prm ∈ knownParams, ∀ rest, text ≠ prm.1 ++ 61 :: rest) ∧
        (contentTypeParam ct).run text = (skipParam ct).run text := by
  rw [contentTypeParam]
  rcases choose_cases (ascii "charset=") text _ _ with ⟨rest, htext, hrun⟩ | ⟨hcha, hrun⟩
  · exact .inl ⟨(ascii "charset", 31), by decide, rest, htext, _, hrun⟩
  rw [hrun]
  rcases choose_cases (ascii "boundary=") text _ _ with ⟨rest, htext, hrun⟩ | ⟨hbou, hrun⟩
  · exact .inl ⟨(ascii "boundary", 71), by decide, rest, htext, _, hrun⟩
  rw [hrun]
  rcases choose_cases (ascii "format=") text _ _ with ⟨rest, htext, hrun⟩ | ⟨hfmt, hrun⟩
  · exact .inl ⟨(ascii "format", 31), by decide, rest, htext, _, hrun⟩
  refine .inr ⟨?_, hrun⟩
  intro prm hprm
  simp only [knownParams, mem_cons, not_mem_nil, or_false] at hprm
  rcases hprm with rfl | rfl | rfl
  · exact hcha
  · exact hbou
  · exact hfmt

/-- Two names before their `=`. -/
theorem name_unique {name name' rest' : Text} (h : name ++ 61 :: rest = name' ++ 61 :: rest')
    (hname : 61 ∉ name) (hname' : 61 ∉ name') : name = name' ∧ rest = rest' := by
  have hspan : ∀ {w v : Text}, 61 ∉ w → (w ++ 61 :: v).takeWhile (· != 61) = w := by
    intro w v hw
    rw [takeWhile_append_of_pos (by grind)]
    simp
  have hsame : name = name' := by rw [← hspan hname, h, hspan hname']
  subst hsame
  exact ⟨rfl, (List.cons.inj (append_cancel_left h)).2⟩

theorem Token.not_mem (hw : Token w) (hc : isHttpToken c = false) : c ∉ w := by
  intro hmem
  rw [hw.2 c hmem] at hc
  cases hc

theorem known_not_mem : ∀ prm ∈ knownParams, 61 ∉ prm.1 ∧ prm.2 ≠ 0 ∧
    prm.1 ≠ [] ∧ ∀ c ∈ prm.1, isHttpSpace c = false := by
  decide +kernel

/-- What follows the type or a parameter begins with a space or a semicolon. -/
theorem UnknownParam.head (h : UnknownParam text) :
    ∃ c rest, text = c :: rest ∧ isHttpToken c = false := by
  have hcons : ∀ s rest : Text, Spaces s →
      ∃ c rest', s ++ 59 :: rest = c :: rest' ∧ isHttpToken c = false := by
    intro s rest hs
    cases s with
    | nil => exact ⟨59, rest, rfl, by decide⟩
    | cons c s =>
      refine ⟨c, s ++ 59 :: rest, rfl, ?_⟩
      have := hs c mem_cons_self
      simp only [isHttpSpace, Bool.or_eq_true, beq_iff_eq] at this
      rcases this with rfl | rfl <;> decide
  cases h with
  | here rest hs | later hs => exact hcons _ _ hs

theorem head?_append_mem (hw : w ≠ []) (hc : c ∈ (w ++ rest).head?) : c ∈ w := by
  cases w with
  | nil => exact absurd rfl hw
  | cons d w =>
    cases hc
    exact mem_cons_self

theorem known_injective : ∀ p ∈ knownParams, ∀ q ∈ knownParams, p.1 = q.1 → p = q := by decide

theorem skipParam_ne_some {α : Type} (a b : α) : (skipParam a).run text ≠ some (some b, rest) := by
  intro h
  obtain ⟨_, _, -, h⟩ := run_bind_eq_some h
  obtain ⟨_, _, -, h⟩ := run_bind_eq_some h
  obtain ⟨_, _, habort, -⟩ := run_bind_eq_some h
  cases habort

theorem params_none_of_unknown (h : UnknownParam text) (ct : ContentType) :
    paramsFrom contentTypeParam leaves_contentTypeParam ct text = none := by
  induction h generalizing ct with
  | @here s s' name rest hs hs' hname hunk =>
    have hsp : ∀ c ∈ (name ++ 61 :: rest).head?, isHttpSpace c = false := by
      intro c hc
      have hc' := hname.2 c (head?_append_mem hname.1 hc)
      simp only [isHttpSpace, Bool.or_eq_false_iff, beq_eq_false_iff_ne]
      constructor <;> rintro rfl <;> exact absurd hc' (by decide)
    rw [paramsFrom_eq, run_semicolon hs hs' hsp]
    rcases contentTypeParam_cases ct (name ++ 61 :: rest) with
      ⟨param, hprm, rest', htext, -⟩ | ⟨-, hrun⟩
    · have := name_unique htext (hname.not_mem (by decide)) (known_not_mem param hprm).1
      exact absurd (List.mem_map.mpr ⟨param, hprm, this.1.symm⟩) hunk
    · simp only [hrun, run_skipParam ct rest hname]
  | @later s s' v rest param hs hs' hprm hv hrest ih =>
    obtain ⟨hname, hsize, hne, hsp⟩ := known_not_mem param hprm
    have hsp' : ∀ c ∈ (param.1 ++ 61 :: (v ++ rest)).head?, isHttpSpace c = false :=
      fun c hc => hsp c (head?_append_mem hne hc)
    rw [paramsFrom_eq, run_semicolon hs hs' hsp']
    rcases contentTypeParam_cases ct (param.1 ++ 61 :: (v ++ rest)) with
      ⟨param', hprm', rest', htext, f, hrun⟩ | ⟨hne, -⟩
    · obtain ⟨hsame, rfl⟩ := name_unique htext hname (known_not_mem param' hprm').1
      have hprm'' : param' = param := known_injective param' hprm' param hprm hsame.symm
      subst hprm''
      obtain ⟨c, after, rfl, hc⟩ := hrest.head
      obtain ⟨a, ha⟩ := run_value after hv hc
      simp only [hrun, run_bind, ha, run_pure]
      exact ih (f a)
    · exact absurd rfl (hne param hprm (v ++ rest))

/-- The loop fails an assertion only at a parameter that is not known. -/
theorem unknown_of_params_none {ct : ContentType}
    (h : paramsFrom contentTypeParam leaves_contentTypeParam ct text = none) :
    UnknownParam text := by
  induction hn : text.length using Nat.strongRecOn generalizing text ct with
  | ind n ih =>
    rw [paramsFrom_eq] at h
    split at h
    · next hnone => exact absurd hnone (total_semicolon text)
    · cases h
    next mid hsemi =>
    have hlen := semicolon_length hsemi
    obtain ⟨s, s', rfl, hs, hs'⟩ := semicolon_some hsemi
    rcases contentTypeParam_cases ct mid with
      ⟨prm, hprm, rest, rfl, f, hrun⟩ | ⟨hunk, hrun⟩
    · have htot := total_parseTokenOrQuotedString (known_not_mem prm hprm).2.1 rest
      rw [hrun, run_bind] at h
      rcases hval : (parseTokenOrQuotedString prm.2).run rest with _ | ⟨_ | a, rest'⟩
      · exact absurd hval htot
      · simp [hval] at h
      rw [hval] at h
      obtain ⟨v, rfl, hv⟩ := value_of_run hval
      refine .later hs hs' hprm hv (ih _ ?_ h rfl)
      rw [← hn]
      simp only [length_append, length_cons] at hlen ⊢
      omega
    rw [hrun] at h
    split at h
    · next hnone =>
      obtain ⟨name, rest, rfl, hname⟩ := skipParam_none hnone
      refine .here rest hs hs' hname fun hmem => ?_
      obtain ⟨prm, hprm, rfl⟩ := List.mem_map.mp hmem
      exact hunk prm hprm rest rfl
    · cases h
    · next hsome => exact absurd hsome (skipParam_ne_some _ _)

theorem parseContentType_none (ct : ContentType) (value : Text) :
    (parseContentType ct).run value = none ↔ UnknownContentType value := by
  constructor
  · intro h
    obtain ⟨type, mid, htype, h1⟩ := total_parseToken.bind_none h
    obtain ⟨rfl, htok, hlen⟩ := parseToken_some htype
    obtain ⟨_, mid', hsla, h2⟩ := (total_literalBy _ _).bind_none h1
    obtain ⟨sub, rest, hsub, h3⟩ := total_parseToken.bind_none h2
    obtain ⟨rfl, htok', hlen'⟩ := parseToken_some hsub
    refine ⟨type, sub, rest, ?_, htok, hlen, htok', hlen', unknown_of_params_none h3⟩
    rw [skipLiteral_some hsla]
    rfl
  rintro ⟨type, sub, rest, rfl, htype, htype', hsub, hsub', hrest⟩
  obtain ⟨c, after, rfl, hc⟩ := hrest.head
  have hsla : (skipLiteral (ascii "/")).run (47 :: (sub ++ c :: after)) =
      some (some (), sub ++ c :: after) := run_skipLiteral [47] _
  simp only [parseContentType, run_bind, run_parseToken htype htype' (by decide : isHttpToken 47 = false),
    hsla, run_parseToken hsub hsub' hc]
  exact params_none_of_unknown hrest _

/-! ### Origins -/

/-- A byte that is neither printed nor white space. -/
def Unprintable (c : UInt8) : Prop := isprint c = false ∧ isspace c = false

/-- A port of which a part that does not fit 16 bits leaves, cut down to 16
bits, the number that stands before its last digit. -/
def Wraps (digits : Text) : Prop :=
  ∃ before c after, digits = before ++ c :: after ∧ digitsValue before < 2 ^ 16 ∧
    2 ^ 16 ≤ digitsValue (before ++ [c]) ∧ digitsValue (before ++ [c]) % 2 ^ 16 = digitsValue before

/-- A host name with a port that wraps around, or with a port only. -/
def BadHost (hostname : Text) : Prop :=
  ∃ host digits, hostname = host ++ 58 :: digits ∧ digits ≠ [] ∧
    (∀ c ∈ digits, isdigit c = true) ∧ (Wraps digits ∨ host = [] ∧ digitsValue digits < 2 ^ 16)

theorem digitsValue_snoc (digits : Text) (c : UInt8) :
    digitsValue (digits ++ [c]) = digitsValue digits * 10 + (c.toNat - 48) := by
  simp [digitsValue]

/-- The loop of `strn_to_uint16` behind the digits `before`. -/
theorem scanUint16_spec (hbef : digitsValue before < 2 ^ 16) (hdig : ∀ c ∈ digits, isdigit c = true) :
    (digitsValue (before ++ digits) < 2 ^ 16 ∧ scanUint16 (digitsValue before) (digitsValue before) digits =
        ⟨digitsValue (before ++ digits), digitsValue (before ++ digits), []⟩) ∨
    ∃ mid c after, digits = mid ++ c :: after ∧ digitsValue (before ++ mid) < 2 ^ 16 ∧
      2 ^ 16 ≤ digitsValue (before ++ mid ++ [c]) ∧
      scanUint16 (digitsValue before) (digitsValue before) digits =
        ⟨digitsValue (before ++ mid), digitsValue (before ++ mid ++ [c]) % 2 ^ 16, c :: after⟩ := by
  induction digits generalizing before with
  | nil => exact .inl ⟨by simpa using hbef, by simp [scanUint16]⟩
  | cons c digits ih =>
    rw [forall_mem_cons] at hdig
    have hc : c.toNat - 48 < 10 := by
      have := hdig.1
      simp only [isdigit, Bool.and_eq_true, decide_eq_true_eq, UInt8.le_iff_toNat_le] at this
      have h57 : (57 : UInt8).toNat = 57 := rfl
      omega
    have hnew : (digitsValue before * 10 + (c.toNat - 48)) % 2 ^ 16 = digitsValue (before ++ [c]) % 2 ^ 16 := by
      rw [digitsValue_snoc]
    simp only [scanUint16, hdig.1, if_true, hnew]
    have hsnoc := digitsValue_snoc before c
    by_cases hfits : digitsValue (before ++ [c]) < 2 ^ 16
    · have hsame : digitsValue (before ++ [c]) / 10 = digitsValue before := by omega
      rw [Nat.mod_eq_of_lt hfits, if_neg (not_not_intro hsame)]
      rcases ih hfits hdig.2 with ⟨hall, hscan⟩ | ⟨mid, d, after, rfl, hmid, hover, hscan⟩
      · left
        rw [append_assoc] at hall hscan
        exact ⟨hall, hscan⟩
      right
      rw [append_assoc] at hmid hover hscan
      exact ⟨c :: mid, d, after, rfl, hmid, by simpa using hover, by simpa using hscan⟩
    right
    have hover : digitsValue (before ++ [c]) % 2 ^ 16 / 10 ≠ digitsValue before := by omega
    rw [if_pos hover]
    refine ⟨[], c, digits, rfl, ?_, ?_, ?_⟩
    · simpa using hbef
    · simpa using hfits
    · simp

theorem digitsValue_mono (digits more : Text) : digitsValue digits ≤ digitsValue (digits ++ more) := by
  induction more generalizing digits with
  | nil => simp
  | cons c more ih =>
    have hstep : digitsValue digits ≤ digitsValue (digits ++ [c]) := by
      rw [digitsValue_snoc]
      omega
    have hrest := ih (digits ++ [c])
    rw [append_assoc, singleton_append] at hrest
    exact le_trans hstep hrest

theorem crossing_nil {after : Text} (hrest : c :: after = mid ++ rest) (hover : 2 ^ 16 ≤ digitsValue (pre ++ [c]))
    (hbef : digitsValue (pre ++ mid) < 2 ^ 16) : mid = [] := by
  cases mid with
  | nil => rfl
  | cons d mid =>
    cases hrest
    rw [← singleton_append, ← append_assoc] at hbef
    have := digitsValue_mono (pre ++ [c]) mid
    omega

/-- There is one digit at which a number stops fitting. -/
theorem crossing_unique {pre c after pre' c' after'}
    (h : pre ++ c :: after = pre' ++ c' :: after')
    (hbef : digitsValue pre < 2 ^ 16) (hover : 2 ^ 16 ≤ digitsValue (pre ++ [c]))
    (hbef' : digitsValue pre' < 2 ^ 16) (hover' : 2 ^ 16 ≤ digitsValue (pre' ++ [c'])) :
    pre = pre' ∧ c = c' := by
  rcases append_eq_append_iff.mp h with ⟨mid, rfl, hrest⟩ | ⟨mid, rfl, hrest⟩
  · obtain rfl := crossing_nil hrest hover hbef'
    cases hrest
    exact ⟨(append_nil _).symm, rfl⟩
  obtain rfl := crossing_nil hrest hover' hbef
  cases hrest
  exact ⟨append_nil _, rfl⟩

/-- The digits at the end of a host name. -/
theorem digits_eq (hdig : ∀ c ∈ digits, isdigit c = true)
    (hhost : ∀ c ∈ host.getLast?, isdigit c = false) :
    ((host ++ digits).reverse.takeWhile isdigit).reverse = digits := by
  rw [reverse_append, takeWhile_append_of_pos fun c hc => hdig c (mem_reverse.mp hc)]
  have hstop : host.reverse.takeWhile isdigit = [] := by
    cases hrev : host.reverse with
    | nil => rfl
    | cons c rest =>
      have : isdigit c = false := hhost c (by rw [← head?_reverse, hrev]; rfl)
      simp [this]
  rw [hstop, append_nil, reverse_reverse]

theorem exists_digits (hostname : Text) :
    ∃ host digits, hostname = host ++ digits ∧ (∀ c ∈ digits, isdigit c = true) ∧
      ∀ c ∈ host.getLast?, isdigit c = false := by
  refine ⟨(hostname.reverse.dropWhile isdigit).reverse, (hostname.reverse.takeWhile isdigit).reverse,
    ?_, fun c hc => mem_takeWhile_imp (mem_reverse.mp hc), fun c hc => ?_⟩
  · rw [← reverse_append, takeWhile_append_dropWhile, reverse_reverse]
  rw [getLast?_reverse] at hc
  exact head_dropWhile hc

theorem badHost_iff (hdig : ∀ c ∈ digits, isdigit c = true)
    (hhost : ∀ c ∈ host.getLast?, isdigit c = false) :
    BadHost (host ++ digits) ↔ digits ≠ [] ∧ host.getLast? = some 58 ∧
      (Wraps digits ∨ host.dropLast = [] ∧ digitsValue digits < 2 ^ 16) := by
  constructor
  · rintro ⟨host', digits', heq, hne, hdig', hbad⟩
    have hcol : host' ++ 58 :: digits' = (host' ++ [58]) ++ digits' := by simp
    have hlast : ∀ c ∈ (host' ++ [58]).getLast?, isdigit c = false := by
      intro c hc
      simp at hc
      rw [← hc]
      decide
    have hsame : digits = digits' := by
      rw [← digits_eq hdig hhost, heq, hcol, digits_eq hdig' hlast]
    subst hsame
    rw [hcol] at heq
    have hhost' := append_cancel_right heq
    subst hhost'
    exact ⟨hne, by simp, by simpa using hbad⟩
  rintro ⟨hne, hcol, hbad⟩
  have hspl : host = host.dropLast ++ [58] := (dropLast_append_getLast? 58 hcol).symm
  refine ⟨host.dropLast, digits, ?_, hne, hdig, hbad⟩
  conv_lhs => rw [hspl]
  simp

/-- Where the port of an origin ends where it should. -/
theorem splitPort_cases (hostname : Text) :
    BadHost hostname ∧ (splitPort hostname = none ∨ ∃ port, splitPort hostname = some ([], port)) ∨
      ¬ BadHost hostname ∧ ∃ host port, splitPort hostname = some (host, port) ∧
        (hostname ≠ [] → host ≠ []) := by
  obtain ⟨host, digits, rfl, hdig, hhost⟩ := exists_digits hostname
  have hlen : (host ++ digits).length - digits.length = host.length := by simp
  simp only [badHost_iff hdig hhost, splitPort, digits_eq hdig hhost, hlen, take_left' rfl]
  by_cases hport : digits ≠ [] ∧ host.getLast? = some 58
  · rw [if_pos hport]
    have hnil : digitsValue [] < 2 ^ 16 := by decide
    rcases scanUint16_spec hnil hdig with ⟨hall, hscan⟩ | ⟨mid, c, after, rfl, hmid, hover, hscan⟩
    · have hwrp : ¬ Wraps digits := by
        rintro ⟨pre, c, after, rfl, -, hover, -⟩
        have := digitsValue_mono (pre ++ [c]) after
        simp only [append_assoc, singleton_append, nil_append] at this hall hover
        omega
      change scanUint16 0 0 digits = _ at hscan
      rw [hscan]
      simp only [nil_append] at hall ⊢
      by_cases hemp : host.dropLast = []
      · refine .inl ⟨⟨hport.1, hport.2, .inr ⟨hemp, hall⟩⟩, .inr ⟨digitsValue digits, ?_⟩⟩
        rw [if_neg (not_not_intro rfl), if_pos trivial, hemp]
      refine .inr ⟨fun h => h.2.2.elim hwrp fun h' => hemp h'.1, host.dropLast,
        digitsValue digits, ?_, fun _ => hemp⟩
      rw [if_neg (not_not_intro rfl), if_pos trivial]
    change scanUint16 0 0 _ = _ at hscan
    rw [hscan]
    simp only [nil_append] at hmid hover ⊢
    have hlrg : ¬ digitsValue (mid ++ c :: after) < 2 ^ 16 := by
      have := digitsValue_mono (mid ++ [c]) after
      simp only [append_assoc, singleton_append] at this hover
      omega
    by_cases hsame : digitsValue mid = digitsValue (mid ++ [c]) % 2 ^ 16
    · left
      have hwrp : Wraps (mid ++ c :: after) := ⟨mid, c, after, rfl, hmid, hover, hsame.symm⟩
      refine ⟨⟨hport.1, hport.2, .inl hwrp⟩, .inl ?_⟩
      rw [if_neg (not_not_intro hsame), if_neg (cons_ne_nil _ _)]
    right
    have hwrp : ¬ Wraps (mid ++ c :: after) := by
      rintro ⟨pre, d, after', heq, hbef, hover', hsame'⟩
      obtain ⟨rfl, rfl⟩ := crossing_unique heq hmid hover hbef hover'
      exact hsame hsame'.symm
    exact ⟨fun h => h.2.2.elim hwrp fun h' => hlrg h'.2, _, _, if_pos hsame, id⟩
  right
  rw [if_neg hport]
  exact ⟨fun h => hport ⟨h.1, h.2.1⟩, _, _, rfl, id⟩

/-- A word of printable bytes other than `stop`. -/
def Word (stop : UInt8) (w : Text) : Prop := w ≠ [] ∧ ∀ c ∈ w, isgraph c = true ∧ c ≠ stop

/-- The origin is `null`; `line` is what is left of the line. -/
def NullOrigin (line value : Text) : Prop :=
  line = ascii "null" ∨ ∃ c rest, value = ascii "null" ++ c :: rest ∧ isHttpSpace c = true

/-- A scheme, or a scheme and a host, that fail an assertion. -/
def BadScheme (value : Text) : Prop :=
  (∃ scheme c rest, value = scheme ++ c :: rest ∧ Word 58 scheme ∧ Unprintable c) ∨
    ∃ scheme hostname c rest, value = scheme ++ (ascii "://" ++ (hostname ++ c :: rest)) ∧
      Word 58 scheme ∧ Word 47 hostname ∧
      (Unprintable c ∨ (isspace c = true ∨ c = 47) ∧ BadHost hostname)

theorem originFrom_none (value : Text) : (originFrom line).run value = none ↔ BadScheme value := by
  constructor
  · intro h
    rw [originFrom, run_bind] at h
    split at h
    · next hsch =>
      obtain ⟨w, c, after, rfl, hne, hw, hc⟩ := skipWordPrintable_none hsch
      exact .inl ⟨w, c, after, rfl, ⟨hne, hw⟩, hc⟩
    · cases h
    next sch mid hsch =>
    obtain ⟨c, after, rfl, rfl, hne, hw, -⟩ := skipWordPrintable_done hsch
    obtain ⟨_, mid', hlit, h⟩ := (total_literalBy _ _).bind_none h
    rw [skipLiteral_some hlit]
    simp only [run_bind] at h
    split at h
    · next hhost =>
      obtain ⟨w, d, after', rfl, hne', hw', hd⟩ := skipWordPrintable_none hhost
      exact .inr ⟨sch, w, d, after', rfl, ⟨hne, hw⟩, ⟨hne', hw'⟩, .inl hd⟩
    · cases h
    next hostname mid'' hhost =>
    obtain ⟨d, after', rfl, rfl, hne', hw', hd⟩ := skipWordPrintable_done hhost
    refine .inr ⟨sch, hostname, d, after', rfl, ⟨hne, hw⟩, ⟨hne', hw'⟩, .inr ⟨hd, ?_⟩⟩
    rcases splitPort_cases hostname with ⟨hbad, -⟩ | ⟨-, host, port, hport, hhost'⟩
    · exact hbad
    simp only [hport, hhost' hne', if_false] at h
    split at h <;> cases h
  rintro (⟨sch, c, rest, rfl, hsch, hc⟩ | ⟨sch, hostname, c, rest, rfl, hsch, hhost, hbad⟩)
  · have hcol : c ≠ 58 := fun h => absurd (h ▸ hc) (by decide : ¬ (isprint 58 = false ∧ _))
    simp only [originFrom, run_bind, run_skipWordPrintable_none rest hsch.1 hsch.2 hc hcol]
  have hsch' := run_skipWordPrintable (47 :: 47 :: (hostname ++ c :: rest)) hsch.1 hsch.2 (.inr rfl)
  have hlit := run_skipLiteral (ascii "://") (hostname ++ c :: rest)
  change (skipWordPrintable 58).run (sch ++ (ascii "://" ++ (hostname ++ c :: rest))) =
    some (some sch, ascii "://" ++ (hostname ++ c :: rest)) at hsch'
  simp only [originFrom, run_bind, hsch', hlit]
  rcases hbad with hc | ⟨hc, hbad⟩
  · have hsla : c ≠ 47 := fun h => absurd (h ▸ hc) (by decide : ¬ (isprint 47 = false ∧ _))
    simp only [run_skipWordPrintable_none rest hhost.1 hhost.2 hc hsla]
  simp only [run_skipWordPrintable rest hhost.1 hhost.2 hc]
  rcases splitPort_cases hostname with ⟨-, hnone | ⟨port, hport⟩⟩ | ⟨hgood, -⟩
  · simp only [hnone, run_abort]
  · simp [hport, run_abort]
  · exact absurd hbad hgood

theorem run_skipSpace : skipSpace.run text =
    some (if (text.head?.any isHttpSpace) = true then some () else none,
      text.dropWhile isHttpSpace) := by
  cases text with
  | nil => rfl
  | cons c text =>
    cases hc : isHttpSpace c <;> simp [skipSpace, run_bind, span, hc]

/-- The literal and a space behind it. -/
theorem literal_space_some
    (h : (do skipLiteral lit; skipSpace : Scan UInt8 Unit).run text = some (some (), rest)) :
    ∃ spaces, text = lit ++ (spaces ++ rest) ∧ spaces ≠ [] ∧ Spaces spaces ∧
      ∀ c ∈ rest.head?, isHttpSpace c = false := by
  obtain ⟨_, mid, hlit, h⟩ := run_bind_eq_some h
  rw [run_skipSpace] at h
  cases mid with
  | nil => cases h
  | cons c mid =>
    cases hc : isHttpSpace c with
    | false => simp [hc] at h
    | true =>
      simp only [Option.some.injEq, Prod.mk.injEq] at h
      rw [← h.2]
      refine ⟨(c :: mid).takeWhile isHttpSpace, ?_, by simp [hc], fun d hd => mem_takeWhile_imp hd,
        fun d hd => head_dropWhile hd⟩
      rw [takeWhile_append_dropWhile, skipLiteral_some hlit]

theorem run_literal_space (lit : Text) (rest : Text) (hc : isHttpSpace c = true) :
    (do skipLiteral lit; skipSpace : Scan UInt8 Unit).run (lit ++ c :: rest) =
      some (some (), (c :: rest).dropWhile isHttpSpace) := by
  simp [run_bind, run_skipLiteral, run_skipSpace, hc]

theorem literal_space_pure (lit text : Text) :
    (do skipLiteral lit; let _ ← skipSpace : Scan UInt8 Unit).run text =
      (do skipLiteral lit; skipSpace : Scan UInt8 Unit).run text := by
  simp only [run_bind, run_pure, run_skipSpace]
  split
  · rfl
  · rfl
  · next rest _ => cases (rest.head?.any isHttpSpace) <;> rfl

/-- An origin that fails an assertion. -/
def BadOrigin (line value : Text) : Prop := ¬ NullOrigin line value ∧ BadScheme value

theorem parseOrigin_none (line value : Text) :
    (parseOrigin line).run value = none ↔ BadOrigin line value := by
  rw [BadOrigin, ← originFrom_none value]
  simp only [parseOrigin, literal_space_pure]
  constructor
  · intro h
    split at h
    · cases h
    next hnull =>
    split at h
    · cases h
    next hline =>
    split at h
    · next hnone =>
      refine ⟨?_, hnone⟩
      rintro (rfl | ⟨c, rest, rfl, hc⟩)
      · exact hline rfl
      · exact hnull _ (run_literal_space (ascii "null") rest hc)
    · cases h
  rintro ⟨hnull, hnone⟩
  split
  · next hsome =>
    obtain ⟨spaces, rfl, hne, hsps, -⟩ := literal_space_some hsome
    obtain ⟨c, spaces, rfl⟩ := exists_cons_of_ne_nil hne
    exact absurd (.inr ⟨c, _, rfl, hsps c mem_cons_self⟩) hnull
  · rw [if_neg fun hline => hnull (.inl hline), hnone]

/-! ### Credentials -/

/-- A `Digest`, which may stand behind the start of `Basic`, too close to the
end of the data; `line` is what is left of the line. -/
def BadDigest (line value : Text) : Prop :=
  ∃ start spaces rest, start <+: ascii "Basic" ∧
    value = start ++ (ascii "Digest" ++ (spaces ++ rest)) ∧ spaces ≠ [] ∧ Spaces spaces ∧
    (∀ c ∈ rest.head?, isHttpSpace c = false) ∧ rest.length < line.length

theorem literal_fail (h : (skipLiteral lit).run text = some (none, rest)) :
    ∃ start, start <+: lit ∧ text = start ++ rest := by
  change literalFrom _ lit text = _ at h
  fun_induction literalFrom (fun a b : UInt8 => a == b) lit text with
  | case1 text => cases h
  | case2 c lit =>
    cases h
    exact ⟨[], nil_prefix, rfl⟩
  | case3 c lit d text heq ih =>
    obtain ⟨start, hst, rfl⟩ := ih h
    rw [beq_iff_eq.mp heq]
    exact ⟨c :: start, cons_prefix_cons.mpr ⟨rfl, hst⟩, rfl⟩
  | case4 c lit d text hne =>
    cases h
    exact ⟨[], nil_prefix, rfl⟩

theorem basic_space_fail (h : (do skipLiteral (ascii "Basic"); skipSpace : Scan UInt8 Unit).run text =
      some (none, rest)) : ∃ start, start <+: ascii "Basic" ∧ text = start ++ rest := by
  simp only [run_bind] at h
  split at h
  · cases h
  · next hlit =>
    cases h
    exact literal_fail hlit
  next mid hlit =>
  rw [run_skipSpace] at h
  cases hmid : mid.head?.any isHttpSpace with
  | true => simp [hmid] at h
  | false =>
    have hdrop : mid.dropWhile isHttpSpace = mid := by
      cases mid with
      | nil => rfl
      | cons c mid =>
        have hc : isHttpSpace c = false := hmid
        simp [hc]
    simp only [hmid, hdrop, Option.some.injEq, Prod.mk.injEq] at h
    exact ⟨ascii "Basic", prefix_rfl, by rw [← h.2, skipLiteral_some hlit]⟩

theorem run_basic_digest {start : Text} (hst : start <+: ascii "Basic") :
    (do skipLiteral (ascii "Basic"); skipSpace : Scan UInt8 Unit).run
      (start ++ (ascii "Digest" ++ rest)) = some (none, ascii "Digest" ++ rest) := by
  have hmem : start ∈ (ascii "Basic").inits := (mem_inits _ _).mpr hst
  have hinits : (ascii "Basic").inits =
      [[], ascii "B", ascii "Ba", ascii "Bas", ascii "Basi", ascii "Basic"] := by decide
  rw [hinits] at hmem
  simp only [mem_cons, not_mem_nil, or_false] at hmem
  rcases hmem with rfl | rfl | rfl | rfl | rfl | rfl <;> rfl

theorem base64Pad_bytes : (base64Pad st back text).1 = st.bytes := by
  fun_induction base64Pad st back text with
  | case2 _ _ _ ih => exact ih
  | _ => rfl

theorem push_length (st : Base64) (d : UInt8) (hst : 4 * st.bytes.length ≤ 3 * st.digits) :
    (st.push d).digits = st.digits + 1 ∧ 4 * (st.push d).bytes.length ≤ 3 * (st.push d).digits := by
  have hpl : st.digits % 4 = 0 ∨ st.digits % 4 = 1 ∨ st.digits % 4 = 2 ∨ st.digits % 4 = 3 := by
    omega
  rcases hpl with h | h | h | h
  all_goals
    simp only [Base64.push, h, length_append, length_singleton, true_and]
    omega

theorem space_ne (h : isHttpSpace c = true) : c ≠ 0 ∧ c ≠ 13 ∧ c ≠ 10 := by
  simp only [isHttpSpace, Bool.or_eq_true, beq_iff_eq] at h
  rcases h with rfl | rfl <;> decide

theorem total_literal_space : Total (do skipLiteral lit; skipSpace : Scan UInt8 Unit) :=
  (total_literalBy _ _).bind fun _ => (total_span _).bind fun _ => total_require _

section EndOfLine

variable (htail : ∀ c ∈ tail.head?, c = 0 ∨ c = 13 ∨ c = 10)
include htail

/-- Four digits give three bytes, and the end of the line is no digit. -/
theorem base64From_length (line : Text) (st : Base64) (hst : 4 * st.bytes.length ≤ 3 * st.digits) :
    4 * (base64From st (line ++ tail)).1.length ≤ 3 * (st.digits + line.length) := by
  induction line generalizing st with
  | nil =>
    have hbs : (base64From st tail).1 = st.bytes := by
      cases tail with
      | nil => rfl
      | cons c tail =>
        rcases htail c rfl with rfl | rfl | rfl <;>
          simp [base64From, base64Digit, isHttpSpace, isupper, islower, isdigit]
    rw [nil_append, hbs]
    simpa using hst
  | cons c line ih =>
    rw [cons_append, base64From]
    split
    · next d _ =>
      obtain ⟨hdig, hst'⟩ := push_length st d hst
      have := ih (st.push d) hst'
      rw [length_cons]
      omega
    split
    · split
      · rw [base64Pad_bytes]
        omega
      simp only
      omega
    split
    · have := ih st hst
      rw [length_cons]
      omega
    simp only
    omega

/-- The credentials fit their array. -/
theorem basicCredentials_ne_none (hline : rest.length ≤ line.length) :
    basicCredentials line [] (rest ++ tail) ≠ none := by
  intro h
  have hlen := base64From_length htail rest ⟨0, 0, []⟩ (by decide)
  by_cases htext : rest ++ tail = []
  · simp [basicCredentials, htext, base64From] at h
  simp only [basicCredentials, htext, if_false, false_and] at h
  split at h
  · simp only [zero_add] at hlen
    omega
  · split at h <;> cases h

theorem authorizationBasic_ne_none {b : Buffer} (hstl : b.stale = [])
    (hline : rest.length ≤ line.length) : authorizationBasic srv b line (rest ++ tail) ≠ none := by
  fun_cases authorizationBasic srv b line (rest ++ tail) with
  | case1 hnone => exact absurd (hstl ▸ hnone) (basicCredentials_ne_none htail hline)
  | _ => rintro ⟨⟩

/-- What has been read of a line that has no byte of its end. -/
theorem split_line (h : line ++ tail = used ++ rest) (hused : ∀ c ∈ used, c ≠ 0 ∧ c ≠ 13 ∧ c ≠ 10) :
    ∃ restLine, rest = restLine ++ tail ∧ line = used ++ restLine := by
  rcases append_eq_append_iff.mp h with ⟨mid, rfl, rfl⟩ | ⟨mid, rfl, rfl⟩
  · cases mid with
    | nil => exact ⟨[], rfl, by simp⟩
    | cons c mid =>
      have hc := hused c (by simp)
      have := htail c rfl
      simp [hc] at this
  · exact ⟨mid, rfl, rfl⟩

/-- An authorization fails an assertion only at a `Digest`. -/
theorem parseAuthorization_none (srv : Server) {b : Buffer} (hstl : b.stale = []) :
    parseAuthorization srv b line (line ++ tail) = none ↔ BadDigest line (line ++ tail) := by
  constructor
  · intro h
    rw [parseAuthorization] at h
    split at h
    · next rest hbas =>
      obtain ⟨spaces, htext, -, hsps, -⟩ := literal_space_some hbas
      have hused : ∀ d ∈ ascii "Basic" ++ spaces, d ≠ 0 ∧ d ≠ 13 ∧ d ≠ 10 :=
        forall_mem_append.mpr ⟨by decide +kernel, fun d hd => space_ne (hsps d hd)⟩
      rw [← append_assoc] at htext
      obtain ⟨rl, rfl, hline⟩ := split_line htail htext hused
      refine absurd h (authorizationBasic_ne_none htail hstl ?_)
      rw [hline, length_append]
      omega
    · next rest hbas =>
      obtain ⟨start, hst, htext⟩ := basic_space_fail hbas
      split at h
      · next rest' hdig =>
        obtain ⟨spaces, rfl, hne, hsps, hrest⟩ := literal_space_some hdig
        split at h
        · next hsht => exact ⟨start, spaces, rest', hst, htext, hne, hsps, hrest, hsht⟩
        · cases h
      · cases h
    · next hnone => exact absurd hnone (total_literal_space _)
  rintro ⟨start, spaces, rest, hst, htext, hne, hsps, hrest, hsht⟩
  obtain ⟨c, spaces, rfl⟩ := exists_cons_of_ne_nil hne
  have hc := hsps c mem_cons_self
  have hdig := run_literal_space (ascii "Digest") (spaces ++ rest) hc
  rw [← cons_append, dropWhile_run hsps hrest] at hdig
  rw [parseAuthorization, htext, run_basic_digest hst]
  simp only [hdig, hsht, if_true]

end EndOfLine

end HeaderAborts
