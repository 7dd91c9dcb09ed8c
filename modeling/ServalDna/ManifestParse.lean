import ServalDna.ManifestFields
import Mathlib.Data.List.TakeWhile

/-!
# Parsing a manifest

`rhizome_manifest_parse` reads a manifest from its text form, a sequence of lines
`LABEL=VALUE` up to the first NUL. Lines end with LF or with CR LF. A text that is
not of this form, a value of a core field that its parser does not accept, a label
that is listed already and a field too many make the whole manifest invalid; a
value of another field that is not accepted is skipped.
-/
namespace ManifestParse

open TextCodec ManifestFields List Option

def maxBytes : Nat := 8192
def maxLabelLen : Nat := 80

def fieldLabelIsValid : Text → Bool
  | [] => false
  | c :: rest => decide (rest.length < maxLabelLen) && isalpha c && rest.all isalnum

def fieldValueIsValid (value : Text) : Bool :=
  decide (value.length < maxBytes) && value.all fun c => c != 0 && c != 13 && c != 10

/-- `enum rhizome_manifest_parse_status`. -/
inductive ParseStatus where
  | error | ok | syntaxError | duplicateField | invalid | malformed | overflow
  deriving DecidableEq, Repr

/-- The test for a field that is there already. -/
def fieldExists (m : Manifest) (label : Text) : Bool :=
  match descriptor label with
  | some f => m.test f
  | none => (m.get label).isSome

/-- The last part of `rhizome_manifest_parse_field`. -/
def storeField (m : Manifest) (label value : Text) : Option (ParseStatus × Manifest) :=
  match descriptor label with
  | some f => (m.parse f value).map fun r =>
      (if r.1 then .ok else if f.core then .invalid else .malformed, r.2)
  | none =>
    match m.set label value with
    | some m => some (.ok, m)
    | none => some (.error, m)

/-- `none` is a failed assertion. -/
def parseField (m : Manifest) (label value : Text) : Option (ParseStatus × Manifest) :=
  if fieldLabelIsValid label = false then some (.syntaxError, m)
  else if fieldValueIsValid value = false then some (.syntaxError, m)
  else if m.vars.length > maxVars then none
  else if fieldExists m label then some (.duplicateField, m)
  else if m.vars.length = maxVars then some (.overflow, m)
  else storeField m label value

/-! ### Lines -/

def trimCr (raw : Text) : Text := if raw.getLast? = some 13 then raw.dropLast else raw

def inLabel (c : UInt8) : Bool := c != 0 && c != 61 && c != 10
def inValue (c : UInt8) : Bool := c != 0 && c != 10

/-- The label and the value of the line at the start of the text, and what is behind
it; `none` is a line that is not well formed. The first character of a label is not
looked at. -/
def nextLine : Text → Option (Text × Text × Text)
  | [] => none
  | c :: s =>
    match s.dropWhile inLabel with
    | 61 :: t =>
      match t.dropWhile inValue with
      | 10 :: rest => some (c :: s.takeWhile inLabel, trimCr (t.takeWhile inValue), rest)
      | _ => none
    | _ => none

theorem nextLine_inv (h : nextLine s = some (label, value, rest)) :
    ∃ c s' raw, label = c :: s' ∧ value = trimCr raw ∧
      (∀ x ∈ s', inLabel x = true) ∧ (∀ x ∈ raw, inValue x = true) ∧
      s = label ++ 61 :: raw ++ 10 :: rest := by
  cases s with
  | nil => cases h
  | cons c s =>
    rw [nextLine] at h
    split at h
    · next t hlab =>
      split at h
      · next rest' hval =>
        cases h
        refine ⟨c, s.takeWhile inLabel, t.takeWhile inValue, rfl, rfl, ?_, ?_, ?_⟩
        · intro x hx
          exact (mem_takeWhile_imp hx)
        · intro x hx
          exact (mem_takeWhile_imp hx)
        have hs := takeWhile_append_dropWhile (p := inLabel) (l := s)
        have ht := takeWhile_append_dropWhile (p := inValue) (l := t)
        rw [hlab] at hs
        rw [hval] at ht
        rw [append_assoc, cons_append, cons_append, ht, hs]
      · cases h
    · cases h

theorem nextLine_length (h : nextLine s = some (label, value, rest)) : rest.length < s.length := by
  obtain ⟨c, s', raw, -, -, -, -, rfl⟩ := nextLine_inv h
  simp
  omega

/-! ### The loop -/

/-- The variables of the loop; the counters only matter as truth values. -/
structure Progress where
  manifest : Manifest
  invalid : Bool
  hasInvalidCore : Bool
  hasDuplicate : Bool
  error : Bool
  deriving DecidableEq

def Progress.start (m : Manifest) : Progress := ⟨m, false, false, false, false⟩

def Progress.note (st : Progress) (status : ParseStatus) (m : Manifest) : Progress :=
  match status with
  | .error => { st with manifest := m, error := true }
  | .ok => { st with manifest := m }
  | .syntaxError => { st with manifest := m, invalid := true }
  | .duplicateField => { st with manifest := m, hasDuplicate := true }
  | .invalid => { st with manifest := m, hasInvalidCore := true }
  | .malformed => { st with manifest := { m with malformed := some "Invalid field" } }
  | .overflow => { st with manifest := m, invalid := true }

/-- The result has the text at which the loop stops. -/
def parseLoop (text : Text) (st : Progress) : Option (Progress × Text) :=
  if st.invalid || st.error then some (st, text)
  else if text.head?.all (· == 0) then some (st, text)
  else
    match _h : nextLine text with
    | none => some ({ st with invalid := true }, text)
    | some (label, value, rest) =>
      match parseField st.manifest label value with
      | none => none
      | some (status, m) => parseLoop rest (st.note status m)
termination_by text.length
decreasing_by exact nextLine_length _h

/-- The assertions at the start of `rhizome_manifest_parse`. -/
def ready (m : Manifest) : Bool :=
  m.bodyBytes == 0 && m.vars == [] && m.finalised == false && m.malformed == none &&
    m.id == none && m.filehash == none && m.isJournal == false &&
    m.filesize == RhizomeManifest.sizeUnset && m.tail == RhizomeManifest.sizeUnset &&
    m.version == 0 && m.date == none && m.sender == none && m.recipient == none &&
    m.payloadEncryption == .cryptUnknown

theorem ready_fresh : ready .fresh = true := by decide

/-- The end of `rhizome_manifest_parse`, with `rest` the text at which the loop has
stopped. -/
def finish (data : Text) (st : Progress) (rest : Text) : Int × Manifest :=
  if st.error then (-1, st.manifest)
  else if rest.head?.any (· != 0) || st.invalid || st.hasInvalidCore || st.hasDuplicate then
    (1, st.manifest.clear)
  else
    let nul := if rest = [] then 0 else 1
    (0, { st.manifest with bodyBytes := data.length - rest.length + nul })

/-- `data` are the bytes in the manifest's buffer. `none` is a failed assertion. -/
def manifestParse (m : Manifest) (data : Text) : Option (Int × Manifest) :=
  if data.length > maxBytes ∨ ready m = false then none
  else (parseLoop data (.start m)).map fun r => finish data r.1 r.2

/-! ### No assertion fails -/

section Total

variable {m : Manifest}

theorem isManifestName_of_valid (h : fieldValueIsValid value = true) : isManifestName value = true := by
  simp only [fieldValueIsValid, Bool.and_eq_true, List.all_eq_true, bne_iff_ne] at h
  simp only [isManifestName, List.all_eq_true, Bool.and_eq_true, bne_iff_ne]
  exact fun c hc => ⟨(h.2 c hc).2, (h.2 c hc).1.2⟩

/-- What `rhizome_manifest_parse_field` does. -/
inductive Parsed (m : Manifest) (label value : Text) : ParseStatus → Manifest → Prop
  | refused (hinvalid : ¬(fieldLabelIsValid label = true ∧ fieldValueIsValid value = true)) :
      Parsed m label value .syntaxError m
  | twice (hexists : fieldExists m label = true) : Parsed m label value .duplicateField m
  | full (hnew : fieldExists m label = false) (hfull : m.vars.length = maxVars) :
      Parsed m label value .overflow m
  | unread {f : Field} (hdesc : descriptor label = some f) (hnew : m.value f = none)
      (hroom : m.vars.length < maxVars) (hread : f.read value = none)
      (hstatus : status = if f.core then .invalid else .malformed) : Parsed m label value status m
  | known {f : Field} {v : f.Value} (hdesc : descriptor label = some f) (hnew : m.value f = none)
      (hroom : m.vars.length < maxVars) (hread : f.read value = some v) (hv : f.settable v = true)
      (hvars : setVar m.vars f.label (f.print v) = some vars) :
      Parsed m label value .ok ({ m with vars }.write f v)
  | unknown (hdesc : descriptor label = none) (hnew : m.get label = none)
      (hroom : m.vars.length < maxVars) (hvars : setVar m.vars label value = some vars) :
      Parsed m label value .ok { m with vars }

theorem storeField_parsed (hval : fieldValueIsValid value = true) (hnew : fieldExists m label = false)
    (hroom : m.vars.length < maxVars) :
    ∃ st m', storeField m label value = some (st, m') ∧ Parsed m label value st m' := by
  unfold storeField
  cases hdesc : descriptor label with
  | some f =>
    have hnone : m.value f = none := by simpa [fieldExists, hdesc, Manifest.test] using hnew
    cases hread : f.read value with
    | none => exact ⟨_, m, by simp [Manifest.parse, hread], .unread hdesc hnone hroom hread rfl⟩
    | some v =>
      have hv := read_settable (isManifestName_of_valid hval) hread
      obtain ⟨vars, hvars, -⟩ := setVar_some f.label (f.print v) hroom
      refine ⟨_, _, ?_, .known hdesc hnone hroom hread hv hvars⟩
      simp [Manifest.parse, hread, m.store_spec hv hnone hvars]
  | none =>
    obtain ⟨vars, hvars, -⟩ := setVar_some label value hroom
    have hnone : m.get label = none := by simpa [fieldExists, hdesc] using hnew
    exact ⟨_, _, by simp [Manifest.set, hvars], .unknown hdesc hnone hroom hvars⟩

theorem parseField_parsed (hlen : m.vars.length ≤ maxVars) (label value : Text) :
    ∃ st m', parseField m label value = some (st, m') ∧ Parsed m label value st m' := by
  unfold parseField
  split
  · next hlab => exact ⟨_, _, rfl, .refused (by simp [hlab])⟩
  split
  · next hval => exact ⟨_, _, rfl, .refused (by simp [hval])⟩
  next hval =>
  rw [if_neg (by omega)]
  split
  · next hex => exact ⟨_, _, rfl, .twice hex⟩
  next hnew =>
  have hnew : fieldExists m label = false := by simpa using hnew
  split
  · next hfull => exact ⟨_, _, rfl, .full hnew hfull⟩
  · exact storeField_parsed (by simpa using hval) hnew (by omega)

/-- A manifest whose text is being read. -/
def Pending (m : Manifest) : Prop := m.finalised = false ∧ m.bodyBytes = 0

theorem pending_write {v : f.Value} (h : Pending m) : Pending (m.write f v) := by
  cases f <;> exact ⟨rfl, h.2⟩

theorem setVar_length (h : setVar vars var value = some vars') (hroom : vars.length < maxVars) :
    vars'.length ≤ maxVars := by
  obtain ⟨vars', h', hlen⟩ := setVar_some var value hroom
  cases h.symm.trans h'
  exact hlen

theorem Parsed.bounded (h : Parsed m label value st m') (hlen : m.vars.length ≤ maxVars) :
    st ≠ .error ∧ m'.vars.length ≤ maxVars ∧ (Pending m → Pending m') := by
  cases h with
  | refused | twice | full => exact ⟨by simp, hlen, id⟩
  | unread _ _ _ _ hstat =>
    refine ⟨?_, hlen, id⟩
    rw [hstat]
    split <;> simp
  | known _ _ hroom _ _ hvars =>
    refine ⟨by simp, ?_, fun h => pending_write h⟩
    simpa using setVar_length hvars hroom
  | unknown _ _ hroom hvars => exact ⟨by simp, setVar_length hvars hroom, id⟩

theorem parseField_some (hlen : m.vars.length ≤ maxVars) (label value : Text) :
    ∃ st m', parseField m label value = some (st, m') ∧ st ≠ .error ∧
      m'.vars.length ≤ maxVars ∧ (Pending m → Pending m') := by
  obtain ⟨st, m', hfld, hpar⟩ := parseField_parsed hlen label value
  exact ⟨st, m', hfld, hpar.bounded hlen⟩

theorem note_error (st : Progress) (m : Manifest) (h : status ≠ .error) :
    (st.note status m).error = st.error := by
  cases status <;> first | rfl | exact absurd rfl h

theorem note_vars (st : Progress) (status : ParseStatus) (m : Manifest) :
    (st.note status m).manifest.vars = m.vars := by
  cases status <;> rfl

theorem note_pending (st : Progress) (status : ParseStatus) (h : Pending m) :
    Pending (st.note status m).manifest := by
  cases status <;> exact h

/-- The loop ends at a text of its own, and never for want of memory. -/
theorem parseLoop_some (st : Progress) (hlen : st.manifest.vars.length ≤ maxVars)
    (herr : st.error = false) (hpen : Pending st.manifest) :
    ∃ st' rest, parseLoop text st = some (st', rest) ∧ st'.error = false ∧ Pending st'.manifest := by
  fun_induction parseLoop text st with
  | case1 text st hstop | case2 text st hstop hend => exact ⟨st, text, rfl, herr, hpen⟩
  | case3 text st hstop hend hline => exact ⟨_, text, rfl, herr, hpen⟩
  | case4 text st hstop hend label value rest hline hfld =>
    obtain ⟨status, m', hsome, -, -⟩ := parseField_some hlen label value
    rw [hfld] at hsome
    cases hsome
  | case5 text st hstop hend label value rest hline status m hfld ih =>
    obtain ⟨status', m', hsome, hok, hlen', hstep⟩ := parseField_some hlen label value
    rw [hfld] at hsome
    cases hsome
    exact ih (by rw [note_vars]; exact hlen') (by rw [note_error st m hok]; exact herr)
      (note_pending st status (hstep hpen))

/-- Parsing a text that is not too long always returns. -/
theorem manifestParse_some (data : Text) (hdata : data.length ≤ maxBytes) :
    ∃ st rest, parseLoop data (.start .fresh) = some (st, rest) ∧ st.error = false ∧
      Pending st.manifest ∧ manifestParse .fresh data = some (finish data st rest) := by
  obtain ⟨st, rest, hloop, herr, hpen⟩ :=
    parseLoop_some (.start .fresh) (Nat.zero_le _) rfl ⟨rfl, rfl⟩
  refine ⟨st, rest, hloop, herr, hpen, ?_⟩
  rw [manifestParse, if_neg, hloop, map_some]
  rintro (h | h)
  · omega
  · cases h

end Total

/-! ### A text that is refused -/

theorem value_crypt {m : Manifest} : m.value .crypt = none ↔ m.payloadEncryption = .cryptUnknown := by
  simp only [Manifest.value]
  cases m.payloadEncryption <;> simp

/-- What `rhizome_manifest_clear` leaves is a fresh manifest where no field but the core
fields was set. -/
theorem clear_eq_fresh (h : Pending m) :
    m.clear = .fresh ↔ ∀ f : Field, f.core = false → m.value f = none := by
  simp only [Manifest.clear, Manifest.fresh, Manifest.mk.injEq, h.1, h.2, true_and, and_true]
  constructor
  · rintro ⟨hbk, hser, hdate, hsnd, hrec, hname, hcry⟩ f hcore
    cases f <;> first | cases hcore; done | assumption | exact value_crypt.mpr hcry
  intro hnone
  exact ⟨hnone .bk rfl, hnone .service rfl, hnone .date rfl, hnone .sender rfl,
    hnone .recipient rfl, hnone .name rfl, value_crypt.mp (hnone .crypt rfl)⟩

/-- A manifest that is refused is cleared. -/
theorem refused (h : manifestParse .fresh data = some (1, m)) :
    ∃ st rest, parseLoop data (.start .fresh) = some (st, rest) ∧ Pending st.manifest ∧
      m = st.manifest.clear := by
  have hdata : data.length ≤ maxBytes := by
    by_contra hlong
    rw [manifestParse, if_pos (.inl (by omega))] at h
    cases h
  obtain ⟨st, rest, hloop, herr, hpen, hpar⟩ := manifestParse_some data hdata
  refine ⟨st, rest, hloop, hpen, ?_⟩
  rw [h, finish, herr, if_neg Bool.false_ne_true] at hpar
  split at hpar <;> cases hpar
  rfl

end ManifestParse
