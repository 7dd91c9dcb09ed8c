import ServalDna.HttpRequest

/-!
# Runs of the HTTP request parser

What one call of a parser can do to the request (`Advance`), and the loop of
`http_request_receive` as the rounds it takes. The bound on the rounds is never
met: each round consumes data or hands over to the next parser.
-/
namespace RequestRun

open TextCodec Scanner Scanner.Scan HttpScan HttpHeaders ListSlice HttpRequest List Option

/-! ### Steps of the buffer -/

/-- Data has been parsed and strings have been reserved. -/
structure Follows (b b' : Buffer) : Prop where
  stale : b'.stale = b.stale
  endAt : b'.endAt = b.endAt
  unparsed : b'.unparsed <:+ b.unparsed
  received : b.received ≤ b.below.length → b'.received ≤ b'.below.length

theorem Follows.refl (b : Buffer) : Follows b b := ⟨rfl, rfl, suffix_rfl, id⟩

variable {rest str text line : Text}

theorem Follows.trans (h : Follows a b) (h' : Follows b c) : Follows a c :=
  ⟨h'.stale.trans h.stale, h'.endAt.trans h.endAt, h'.unparsed.trans h.unparsed,
    h'.received ∘ h.received⟩

theorem follows_commit (h : rest <:+ b.unparsed) : Follows b (b.commit rest) := by
  have hle := h.length_le
  refine ⟨rfl, ?_, h, ?_⟩
  · simp only [Buffer.endAt, Buffer.commit, length_append, length_take]
    omega
  intro hb
  simp only [Buffer.commit, length_append]
  omega

theorem moveDecoded_length : (moveDecoded len mem dst src).length = mem.length := by
  fun_induction moveDecoded len mem dst src with
  | case1 => rfl
  | case2 _ _ _ _ _ _ ih | case3 _ _ _ _ _ _ _ _ _ _ _ ih | case4 _ _ _ _ _ _ _ ih =>
    rw [ih, length_set]

theorem pointerBytes_length (address : Nat) : (pointerBytes address).length = pointerSize := by
  simp [pointerBytes]

theorem follows_reserve
    (hmover : ∀ start, start + len < b.below.length → (mover b.below start).length = b.below.length)
    (h : b.reserve address len mover = .ok (b', str)) :
    Follows b b' ∧ b'.unparsed = b.unparsed := by
  simp only [Buffer.reserve] at h
  split at h
  · cases h
  split at h
  · cases h
  next hfits =>
  cases h
  have hlen : (overwrite ((mover b.below (b.reserved + pointerSize)).set
      (b.reserved + pointerSize + len) 0) b.reserved (pointerBytes address)).length =
      b.below.length := by
    have hbel := hmover (b.reserved + pointerSize) (by omega)
    rw [overwrite_length, length_set, hbel]
    rw [length_set, hbel, pointerBytes_length]
    omega
  refine ⟨⟨rfl, ?_, suffix_rfl, fun hb => ?_⟩, rfl⟩
  · simp [Buffer.endAt, hlen]
  simp only [hlen]
  omega

theorem follows_reserveUriencoded {start length : Nat}
    (h : b.reserveUriencoded address start length = some (.ok (b', str))) :
    Follows b b' ∧ b'.unparsed = b.unparsed := by
  simp only [Buffer.reserveUriencoded] at h
  split at h
  · cases h
  · exact follows_reserve (fun _ _ => moveDecoded_length) (Option.some.inj h)

theorem follows_reserveStr (h : b.reserveStr address text = .ok (b', str)) :
    Follows b b' ∧ b'.unparsed = b.unparsed :=
  follows_reserve (fun _ hst => overwrite_length _ _ _ (by omega)) h

/-! ### The scanners of the request line leave the end of the data -/

theorem scanVerb_run (h : scanVerb verbs text = .done verb rest) :
    (do skipLiteral verb.word; skipLiteral (ascii " ") : Scan UInt8 Unit).run text =
      some (some (), rest) := by
  induction verbs with
  | nil => cases h
  | cons v verbs ih =>
    rw [scanVerb] at h
    split at h
    · next hrun =>
      cases h
      exact hrun
    · cases h
    · exact ih h

theorem scanVerb_suffix (h : scanVerb verbs text = .done verb rest) : rest <:+ text :=
  ((leaves_skipLiteral _).bind fun _ => leaves_skipLiteral _) text _ rest (scanVerb_run h)

theorem queryFrom_suffix {cnt : Nat} {params : List Text}
    (h : queryFrom cnt text = some (params, rest)) : rest <:+ text := by
  fun_induction queryFrom cnt text generalizing params with
  | case3 => cases h
  | case4 _ c text hc _ hrun =>
    cases h
    exact (leaves_skipWordPrintable _ text _ _ hrun).trans (suffix_cons c text)
  | case5 _ c text hc _ _ hrun ih =>
    obtain ⟨out, hout, ⟨⟩⟩ := map_eq_some_iff.mp h
    exact (ih hout).trans ((leaves_skipWordPrintable _ text _ _ hrun).trans (suffix_cons c text))
  | _ =>
    cases h
    exact suffix_rfl

theorem leaves_scanPath : Leaves scanPath := by
  refine Leaves.bind ?_ fun _ => (leaves_skipLiteral _).bind fun _ => leaves_pure _
  intro text x rest h
  simp only at h
  split at h
  · cases h
  · next hrun =>
    cases h
    exact leaves_skipWordPrintable _ text _ _ hrun
  next hrun =>
  obtain ⟨out, hout, ⟨⟩⟩ := map_eq_some_iff.mp h
  exact (queryFrom_suffix hout).trans (leaves_skipWordPrintable _ text _ _ hrun)

theorem leaves_scanVersion : Leaves (scanVersion beyond) :=
  (leaves_skipLiteral _).bind fun _ => (leaves_parseUint _ _ _).bind fun _ =>
    (leaves_require _).bind fun _ => (leaves_skipLiteral _).bind fun _ =>
      (leaves_parseUint _ _ _).bind fun _ => (leaves_require _).bind fun _ =>
        leaves_skipEol.bind fun _ => leaves_pure _

theorem scanned_done {α : Type} {p : Scan UInt8 α} {a : α}
    (h : scanned p text = some (.done a rest)) : p.run text = some (some a, rest) := by
  obtain ⟨⟨x, mid⟩, hrun, heq⟩ := map_eq_some_iff.mp h
  rcases x with _ | a
  · cases mid <;> cases heq
  cases heq
  exact hrun

theorem nextLine_suffix : nextLine rest <:+ rest := by
  rw [nextLine]
  split
  · next hrun => exact leaves_skipEol rest _ _ hrun
  · exact suffix_rfl

/-! ### Steps of the request -/

/-- What a call of a parser can do to the request. -/
structure Advance (r r' : Request) : Prop where
  total : r'.total = r.total
  buffer : Follows r.buffer r'.buffer
  rank : r'.parser.rank ≤ r.parser.rank
  line : 3 ≤ r'.parser.rank → r'.calls = r.calls
  calls : ∃ new, r'.calls = r.calls ++ new ∧ ∀ call ∈ new, call.2 = r.total

theorem Advance.of_eq (htot : r'.total = r.total) (hbuf : Follows r.buffer r'.buffer)
    (hrank : r'.parser.rank ≤ r.parser.rank) (hcs : r'.calls = r.calls) : Advance r r' :=
  ⟨htot, hbuf, hrank, fun _ => hcs, [], by rw [hcs, append_nil], fun _ h => absurd h not_mem_nil⟩

theorem Advance.refl (r : Request) : Advance r r :=
  .of_eq rfl (.refl _) le_rfl rfl

theorem Advance.trans (h : Advance r r') (h' : Advance r' r'') : Advance r r'' := by
  obtain ⟨new, hnew, htot⟩ := h.calls
  obtain ⟨new', hnew', htot'⟩ := h'.calls
  refine ⟨h'.total.trans h.total, h.buffer.trans h'.buffer, le_trans h'.rank h.rank, ?_,
    new ++ new', by rw [hnew', hnew, append_assoc], ?_⟩
  · exact fun hrank => (h'.line hrank).trans (h.line (le_trans hrank h'.rank))
  intro call hcall
  rcases mem_append.mp hcall with hcall | hcall
  · exact htot call hcall
  · exact (htot' call hcall).trans h.total

theorem Advance.call (h : Advance r r') (handler : Handler) (hlow : r'.parser.rank < 3) :
    Advance r { r' with calls := r'.calls ++ [(handler, r'.total)] } := by
  refine h.trans ⟨rfl, .refl _, le_rfl, ?_, [(handler, r'.total)], rfl, ?_⟩
  · exact fun hrank => absurd hlow (Nat.not_lt.mpr hrank)
  intro call hcall
  rw [mem_singleton.mp hcall]

theorem advance_parseVerb (hr : r.parser = .verb) (h : parseVerb r = some (code, r')) :
    Advance r r' := by
  rw [parseVerb] at h
  split at h
  · cases h
  split at h
  · cases h
    exact .refl r
  · cases h
    exact .refl r
  next hscan =>
  cases h
  exact .of_eq rfl (follows_commit (scanVerb_suffix hscan)) (by simp [hr, Parser.rank]) rfl

/-- What the reservation of the path and the parameters leaves as it is. -/
structure Reserved (r r' : Request) : Prop where
  total : r'.total = r.total
  calls : r'.calls = r.calls
  unparsed : r'.buffer.unparsed = r.buffer.unparsed
  buffer : Follows r.buffer r'.buffer
  parser : r'.parser = r.parser ∨ r'.parser = .httpVersion

/-- A string has been reserved before the others. -/
theorem Reserved.after (h : Reserved r1 r') (htot : r1.total = r.total)
    (hcs : r1.calls = r.calls) (hpsr : r1.parser = r.parser)
    (hbuf : Follows r.buffer r1.buffer ∧ r1.buffer.unparsed = r.buffer.unparsed) :
    Reserved r r' :=
  ⟨h.total.trans htot, h.calls.trans hcs, h.unparsed.trans hbuf.2, hbuf.1.trans h.buffer,
    by rw [← hpsr]; exact h.parser⟩

theorem reserved_status (h : Follows r.buffer b ∧ b.unparsed = r.buffer.unparsed) :
    Reserved r { r with buffer := b, status := status } :=
  ⟨rfl, rfl, h.2, h.1, .inl rfl⟩

theorem reserved_reserveParams (srv : Server) (i start : Nat) (params : List Text)
    (h : reserveParams srv i start params r = some r') : Reserved r r' := by
  induction params generalizing i start r with
  | nil =>
    cases h
    exact ⟨rfl, rfl, rfl, .refl _, .inr rfl⟩
  | cons prm params ih =>
    simp only [reserveParams] at h
    split at h
    · cases h
    · cases h
      exact reserved_status ⟨.refl _, rfl⟩
    next b nameStr hname =>
    have hb := follows_reserveUriencoded hname
    split at h
    · exact (ih (i + 1) _ h).after rfl rfl rfl hb
    split at h
    · cases h
    · cases h
      exact reserved_status hb
    next b' valueStr hval =>
    have hb' := follows_reserveUriencoded hval
    exact (ih (i + 1) _ h).after rfl rfl rfl ⟨hb.1.trans hb'.1, hb'.2.trans hb.2⟩

theorem reserved_reservePath (srv : Server) (start : Nat) (path : Text) (params : List Text)
    (h : reservePath srv start path params r = some r') : Reserved r r' := by
  rw [reservePath] at h
  split at h
  · cases h
  · cases h
    exact reserved_status ⟨.refl _, rfl⟩
  next b str hpath =>
  exact (reserved_reserveParams srv _ _ _ h).after rfl rfl rfl (follows_reserveUriencoded hpath)

theorem advance_parsePath (hr : r.parser = .path) (h : parsePath srv r = some (code, r')) :
    Advance r r' := by
  rw [parsePath] at h
  split at h
  · cases h
  · cases h
    exact .refl r
  · cases h
    exact .refl r
  next hscan =>
  obtain ⟨r1, hres, ⟨⟩⟩ := map_eq_some_iff.mp h
  have hrese := reserved_reservePath srv _ _ _ hres
  refine .of_eq hrese.total ((follows_commit (leaves_scanPath _ _ _
    (scanned_done hscan))).trans hrese.buffer) ?_ hrese.calls
  rcases hrese.parser with hpsr | hpsr
  · rw [hpsr]
    exact le_rfl
  rw [hpsr, hr]
  decide

theorem advance_parseHttpVersion (hr : r.parser = .httpVersion)
    (h : parseHttpVersion srv r = some (code, r')) : Advance r r' := by
  rw [parseHttpVersion] at h
  split at h
  · cases h
  · cases h
    exact .refl r
  · cases h
    exact .refl r
  next major minor rest hscan =>
  cases h
  have hadv : Advance r { r.commit rest with
      head := { r.head with versionMajor := major, versionMinor := minor }
      parser := .startParsingHeaders } :=
    .of_eq rfl (follows_commit (leaves_scanVersion _ _ _ (scanned_done hscan)))
      (by simp [hr, Parser.rank]) rfl
  exact hadv.call .firstLine (Nat.lt_succ_self 2)

/-! ### Header lines -/

theorem base64Pad_suffix (back : Text) (hback : text <:+ back) :
    (base64Pad st back text).2 <:+ back := by
  fun_induction base64Pad st back text with
  | case1 | case3 => exact hback
  | case2 _ _ _ ih => exact ih ((suffix_cons _ _).trans hback)
  | case4 => exact ((dropWhile_suffix _).trans (suffix_cons _ _)).trans hback
  | case5 => exact suffix_rfl

theorem base64From_suffix (st : Base64) (text : Text) : (base64From st text).2 <:+ text := by
  fun_induction base64From st text with
  | case2 _ _ _ _ _ ih | case5 _ _ _ _ _ _ ih => exact ih.trans (suffix_cons _ _)
  | case3 => exact base64Pad_suffix _ (suffix_cons _ _)
  | _ => exact suffix_rfl

theorem basicCredentials_suffix
    (h : basicCredentials line beyond text = some (some (cred, rest))) : rest <:+ text := by
  have hsuf := base64From_suffix ⟨0, 0, []⟩ (if text = [] then beyond else text)
  rw [basicCredentials] at h
  generalize base64From ⟨0, 0, []⟩ (if text = [] then beyond else text) = out at h hsuf
  obtain ⟨bytes, rest'⟩ := out
  simp only at h
  split at h
  · cases h
  split at h
  · cases h
  split at h
  · cases h
  obtain ⟨-, rfl⟩ := h
  by_cases hnil : text = []
  · rw [if_pos hnil]
    exact nil_suffix
  rw [if_neg hnil] at hsuf ⊢
  exact hsuf

/-- What a literal and spaces leave, whether they are found or not. -/
theorem literal_space_suffix
    (h : (do skipLiteral lit; skipSpace : Scan UInt8 Unit).run text = some (x, rest)) :
    rest <:+ text :=
  (leaves_skipLiteral lit).bind (fun _ => (leaves_span _).bind fun _ => leaves_require _) _ _ _ h

/-- The buffer after an authorization, with all of it behind `r->parsed` that
was behind the cursor. -/
theorem follows_parseAuthorization (htext : text <:+ b.unparsed)
    (h : parseAuthorization srv b line text = some (.passed b' cred rest)) :
    Follows b b' ∧ rest <:+ b'.unparsed := by
  revert h
  fun_cases parseAuthorization srv b line text with
  | case1 mid hbas =>
    have hmid : mid <:+ b.unparsed := (literal_space_suffix hbas).trans htext
    fun_cases authorizationBasic srv b line mid with
    | case5 _ _ _ hcred _ _ huser _ _ hpas =>
      rintro ⟨⟩
      have hrest := (basicCredentials_suffix hcred).trans hmid
      obtain ⟨hfol, hunp⟩ := follows_reserveStr huser
      obtain ⟨hfol', hunp'⟩ := follows_reserveStr hpas
      refine ⟨(follows_commit hrest).trans (hfol.trans hfol'), ?_⟩
      rw [hunp', hunp]
      exact suffix_rfl
    | _ => rintro ⟨⟩
  | case3 _ hbas _ hdig =>
    rintro ⟨⟩
    have hrest := (literal_space_suffix hdig).trans (literal_space_suffix hbas)
    exact ⟨.refl b, (drop_suffix _ _).trans (hrest.trans htext)⟩
  | _ => rintro ⟨⟩

theorem valueLine_store {header : RequestHeaders}
    (h : valueLine r text line duplicate value rest = some (.store b header)) : b = r.buffer := by
  simp only [valueLine] at h
  split at h
  · cases h
  split at h
  · cases h
  · split at h <;> cases h
    rfl
  · cases h

/-- Where a line is stored the buffer still has the end of the line. -/
theorem follows_headerLine {header : RequestHeaders}
    (h : headerLine srv r r.buffer.unparsed line = some (.store b header)) :
    Follows r.buffer b ∧ r.buffer.unparsed.drop line.length <:+ b.unparsed := by
  revert h
  fun_cases headerLine srv r r.buffer.unparsed line with
  | case4 _ rest hlab =>
    have hrest : rest <:+ r.buffer.unparsed := leaves_literalBy _ _ _ _ _ hlab
    fun_cases authorizationLine srv r r.buffer.unparsed line rest with
    | case5 _ _ _ b' cred rest' hauth =>
      split <;> rintro ⟨⟩
      next heol =>
      obtain ⟨hfol, hsuf⟩ :=
        follows_parseAuthorization ((dropWhile_suffix _).trans hrest) hauth
      refine ⟨hfol, ?_⟩
      -- the cursor is at the end of the line or at spaces before it
      have hlen : (r.buffer.unparsed.drop line.length).length ≤ b.unparsed.length := by
        have hle := (dropWhile_suffix (l := rest') isHttpSpace).length_le
        have heq := eq_of_beq heol
        have hle' := hsuf.length_le
        rw [length_drop]
        omega
      exact suffix_of_suffix_length_le (drop_suffix _ _) hfol.unparsed hlen
    | _ => rintro ⟨⟩
  | case6 => rintro ⟨⟩
  | _ =>
    simp only [contentLengthLine, contentTypeLine, rangeLine, originLine]
    intro h
    rw [valueLine_store h]
    exact ⟨.refl _, drop_suffix _ _⟩

theorem advance_parseHeader (hr : r.parser = .header) (h : parseHeader srv r = some (code, r')) :
    Advance r r' := by
  have hnext : nextLine (r.buffer.unparsed.drop (lineAt r.buffer.unparsed).length) <:+
      r.buffer.unparsed.drop (lineAt r.buffer.unparsed).length := nextLine_suffix
  simp only [parseHeader] at h
  split at h
  · cases h
    have hcom : Advance r (r.commit
        (nextLine (r.buffer.unparsed.drop (lineAt r.buffer.unparsed).length))) :=
      .of_eq rfl (follows_commit (hnext.trans (drop_suffix _ _))) le_rfl rfl
    have hcall := hcom.call .headers (by simp [Request.commit, hr, Parser.rank])
    exact ⟨hcall.total, hcall.buffer, by simp [hr, Parser.rank], by simp [Parser.rank], hcall.calls⟩
  split at h
  · cases h
  · cases h
    exact .of_eq rfl (follows_commit (hnext.trans (drop_suffix _ _))) le_rfl rfl
  · next hline =>
    cases h
    obtain ⟨hfol, hsuf⟩ := follows_headerLine hline
    exact .of_eq rfl (hfol.trans (follows_commit (hnext.trans hsuf))) le_rfl rfl
  · cases h
    exact .refl r
  cases h
  exact .refl r

theorem advance_parse (h : parse srv r = some (code, r')) : Advance r r' := by
  rw [parse] at h
  split at h
  · next hr => exact advance_parseVerb hr h
  · next hr => exact advance_parsePath hr h
  · next hr => exact advance_parseHttpVersion hr h
  · next hr =>
    simp only [startParsingHeaders] at h
    split at h <;> cases h
    · exact .refl r
    · exact .of_eq rfl (.refl _) (by simp [hr, Parser.rank]) rfl
  · next hr => exact advance_parseHeader hr h
  cases h
  exact .refl r

/-! ### The loop -/

theorem rank_injective {p q : Parser} (h : p.rank = q.rank) : p = q := by
  cases p <;> cases q <;> first | rfl | cases h

theorem Advance.answer (h : Advance r r') (code : Nat) : Advance r (r'.answer code) := by
  rw [Request.answer]
  split
  · exact h
  · exact { h with }

theorem advance_settle (code : Nat) (h : Advance r r') : Advance r (settle r code r').2 := by
  rw [settle]
  split
  · exact h
  · exact h.answer _

theorem advance_step {next : Next} (h : step srv r = some (next, r')) : Advance r r' := by
  obtain ⟨⟨code, r1⟩, hpar, heq⟩ := map_eq_some_iff.mp h
  have hadv := advance_settle code (advance_parse hpar)
  rwa [heq] at hadv

/-- A round after which the loop goes on. -/
theorem settle_again (h : settle r code r1 = (.again, r')) : code = 0 ∧ r1 = r' ∧ r'.status = none ∧
      ¬ (r'.buffer.unparsed.length = r.buffer.unparsed.length ∧ r'.parser = r.parser) := by
  simp only [settle] at h
  split at h
  · cases h
  next hcode =>
  by_cases hzero : code = 0
  · subst hzero
    by_cases hsame : r1.buffer.unparsed.length = r.buffer.unparsed.length ∧ r1.parser = r.parser
    · simp [hsame, Request.answer] at h
    simp only [hsame, and_false, if_false, Request.answer, if_true, Prod.mk.injEq] at h
    obtain ⟨hstat, rfl⟩ := h
    refine ⟨rfl, rfl, ?_, hsame⟩
    cases hs : r1.status with
    | none => rfl
    | some => simp [hs] at hstat
  · simp [hzero, Request.answer] at h

theorem rounds_step (h : step srv r = some (.again, r')) : r'.rounds < r.rounds := by
  have hadv := advance_step h
  obtain ⟨⟨code, r1⟩, hpar, heq⟩ := map_eq_some_iff.mp h
  change settle r code r1 = _ at heq
  obtain ⟨-, rfl, -, hmv⟩ := settle_again heq
  have hlen := hadv.buffer.unparsed.length_le
  have hrank := hadv.rank
  simp only [Request.rounds]
  by_cases hsame : r1.parser.rank = r.parser.rank
  · have hlen' : r1.buffer.unparsed.length ≠ r.buffer.unparsed.length :=
      fun hl => hmv ⟨hl, rank_injective hsame⟩
    omega
  · omega

theorem processFor_enough (h : r.rounds < rounds) : processFor srv rounds r = process srv r := by
  have hmore : ∀ m n r, r.rounds < m → r.rounds < n → processFor srv m r = processFor srv n r := by
    intro m
    induction m with
    | zero => intro n r hm; omega
    | succ m ih =>
      intro n r hm hn
      cases n with
      | zero => omega
      | succ n =>
        rw [processFor, processFor]
        split
        · rfl
        · next r' hstep =>
          have := rounds_step hstep
          exact ih n r' (by omega) (by omega)
        · rfl
  exact hmore rounds (r.rounds + 1) r h (Nat.lt_succ_self _)

theorem process_eq (srv : Server) (r : Request) : process srv r = match step srv r with
      | none => none
      | some (.again, r') => process srv r'
      | some (_, r') => some r' := by
  rw [process, processFor]
  rcases hstep : step srv r with _ | ⟨_ | _ | _, r'⟩
  · rfl
  · exact processFor_enough (rounds_step hstep)
  · rfl
  · rfl

/-- Induction on the rounds of the loop. -/
theorem process_induction (srv : Server) {motive : Request → Prop}
    (h : ∀ r, (∀ r', step srv r = some (.again, r') → motive r') → motive r) (r : Request) :
    motive r := by
  induction hn : r.rounds using Nat.strongRecOn generalizing r with
  | ind n ih =>
    subst hn
    exact h r fun r' hstep => ih r'.rounds (rounds_step hstep) r' rfl

theorem advance_process (r : Request) (h : process srv r = some r') : Advance r r' := by
  induction r using process_induction srv with
  | h r ih =>
    rw [process_eq] at h
    split at h
    · cases h
    · next r1 hstep => exact (advance_step hstep).trans (ih r1 hstep h)
    next hstep =>
    cases h
    exact advance_step hstep

end RequestRun
