import ServalDna.FoldRuns
import ServalDna.ListSlice
import ServalDna.ManifestGrammar

/-!
# The quick inspection of a manifest

Before a node takes the trouble to parse an advertised manifest, it looks for the id
and the version with a state machine over the characters. It compares labels with
their case, while the parser does not, and it has checks of its own for duplicates and
line ends. If both it and the parser accept a text, they agree on what they report.
-/
namespace ManifestInspect

open FoldRuns TextCodec ManifestFields ManifestParse ManifestGrammar List Option
open ListSlice (slice slice_middle)
open RhizomeManifest (sizeUnset)

inductive State where
  | label | value | error
  deriving DecidableEq, Repr

/-- `has_bid` and `has_version`: not seen, in the value, read. -/
inductive Seen where
  | no | value | read
  deriving DecidableEq, Repr

/-- The variables of `rhizome_manifest_inspect` and what it has put into the summary.
`begin` and `eol` are offsets in the buffer. -/
structure Inspect where
  state : State
  hasBid : Seen
  hasVersion : Seen
  start : Nat
  eol : Option Nat
  bid : Option (Binary 32)
  version : Option UInt64
  deriving DecidableEq

def Inspect.initial : Inspect := ⟨.label, .no, .no, 0, none, none, none⟩

/-- The character `=` after a label. -/
def endLabel (buf : Text) (p : Nat) (st : Inspect) : Inspect :=
  let label := slice buf st.start (p - st.start)
  if fieldLabelIsValid label = false then { st with state := .error }
  else if label = ascii "id" then
    if st.hasBid ≠ .no then { st with state := .error }
    else { st with state := .value, hasBid := .value, start := p + 1 }
  else if label = ascii "version" then
    if st.hasVersion ≠ .no then { st with state := .error }
    else { st with state := .value, hasVersion := .value, start := p + 1 }
  else { st with state := .value }

/-- The value of an id or a version, which ends at `eol`. -/
def readValue (buf : Text) (eol : Nat) (st : Inspect) : Inspect :=
  if st.hasBid = .value then
    match parseBinary 32 (buf.drop st.start) (eol - st.start) with
    | some bid => { st with hasBid := .read, bid := some bid }
    | none => { st with state := .error }
  else if st.hasVersion = .value then
    match strToUint (2 ^ 64) 10 (buf.drop st.start) with
    | some (version, rest) =>
      if rest.length = buf.length - eol then
        { st with hasVersion := .read, version := some (UInt64.ofNat version) }
      else { st with state := .error }
    | none => { st with state := .error }
  else st

def endLine (buf : Text) (p : Nat) (st : Inspect) : Inspect :=
  let st := readValue buf (st.eol.getD p) st
  if st.state = .value then { st with state := .label, start := p + 1, eol := none } else st

def inspectStep (buf : Text) (p : Nat) (c : UInt8) (st : Inspect) : Inspect :=
  match st.state with
  | .label => if c = 61 then endLabel buf p st else st
  | .value =>
    if c = 13 ∧ st.eol = none then { st with eol := some p }
    else if c = 10 then endLine buf p st
    else if st.eol.isSome then { st with state := .error }
    else st
  | .error => st

def inspectLoop (buf : Text) : Text → Nat → Inspect → Inspect × Nat
  | [], p, st => (st, p)
  | c :: rest, p, st =>
    if st.state = .error ∨ c = 0 then (st, p) else inspectLoop buf rest (p + 1) (inspectStep buf p c st)

/-- `struct rhizome_manifest_summary`. -/
structure Summary where
  bid : Option (Binary 32)
  version : Option UInt64
  bodyLen : Nat
  deriving DecidableEq

def rhizomeManifestInspect (buf : Text) : Bool × Summary :=
  let r := inspectLoop buf buf 0 .initial
  let p := if (buf.drop r.2).head? = some 0 then r.2 + 1 else r.2
  (r.1.state == .label && r.1.hasBid == .read && r.1.hasVersion == .read, ⟨r.1.bid, r.1.version, p⟩)

/-! ### Validation -/

def missing (m : Manifest) : Option String :=
  match m.service with
  | none => some "Missing 'service' field"
  | some service =>
    if service = ascii "file" then
      if m.name.isNone then some "Manifest with service='file' missing 'name' field" else m.malformed
    else if service = ascii "MeshMS1" ∨ service = ascii "MeshMS2" then
      if m.recipient.isNone then some "Manifest missing 'recipient' field"
      else if m.sender.isNone then some "Manifest missing 'sender' field"
      else m.malformed
    else if isManifestService service = false then some "Manifest invalid 'service' field"
    else if m.date.isNone then some "Missing 'date' field"
    else m.malformed

def reason (m : Manifest) : Option String :=
  if m.id.isNone then some "Missing 'id' field"
  else if m.version = 0 then some "Missing 'version' field"
  else if m.filesize = sizeUnset then some "Missing 'filesize' field"
  else if m.filesize = 0 ∧ m.filehash.isSome then some "Spurious 'filehash' field"
  else if m.filesize ≠ 0 ∧ m.filehash.isNone then some "Missing 'filehash' field"
  else none

def manifestValidateReason (m : Manifest) : Option String × Manifest :=
  (reason m, { m with malformed := missing m, finalised := (reason m).isNone })

def manifestValidate (m : Manifest) : Bool × Manifest :=
  ((manifestValidateReason m).1.isNone, (manifestValidateReason m).2)

/-- The assertions that `overlay_rhizome_saw_advertisements` makes on an advertised
manifest that has been inspected, parsed and validated. -/
structure Asserted (m : Manifest) (summ : Summary) : Prop where
  hasId : m.id.isSome
  hasVersion : m.version ≠ 0
  sameBid : m.id = summ.bid
  sameVersion : some m.version = summ.version
  sameBody : m.bodyBytes = summ.bodyLen

/-! ## The inspection of lines -/

/-- What has been found when a line begins. -/
structure Brief where
  bid : Option (Binary 32)
  version : Option UInt64
  deriving DecidableEq

def seen {α : Type} : Option α → Seen
  | none => .no
  | some _ => .read

def Brief.at (brief : Brief) (p : Nat) : Inspect :=
  ⟨.label, seen brief.bid, seen brief.version, p, none, brief.bid, brief.version⟩

def inspectLine (brief : Brief) (l : Line) : Option Brief :=
  if l.label = ascii "id" then
    if brief.bid.isSome then none
    else (strToBinary 32 l.value).map fun bid => { brief with bid := some bid }
  else if l.label = ascii "version" then
    if brief.version.isSome then none
    else (strToUint64 l.value).map fun version => { brief with version := some version }
  else some brief

theorem inspectLoop_keep (p : Nat) (hste : st.state ≠ .error) (hseg : ∀ c ∈ seg, c ≠ 0)
    (hkeep : ∀ c ∈ seg, ∀ p, inspectStep buf p c st = st) :
    inspectLoop buf (seg ++ rest) p st = inspectLoop buf rest (p + seg.length) st := by
  induction seg generalizing p with
  | nil => rfl
  | cons c seg ih =>
    have hc := hseg c mem_cons_self
    rw [cons_append, inspectLoop, if_neg (by simp [hste, hc]),
      hkeep c mem_cons_self, ih (p + 1) (fun x hx => hseg x (mem_cons_of_mem _ hx))
        (fun x hx => hkeep x (mem_cons_of_mem _ hx)), length_cons]
    congr 1
    omega

theorem inspectLoop_step (rest : Text) (hste : st.state ≠ .error) (hc : c ≠ 0) :
    inspectLoop buf (c :: rest) p st = inspectLoop buf rest (p + 1) (inspectStep buf p c st) := by
  rw [inspectLoop, if_neg (by simp [hste, hc])]

theorem inspectLoop_error (h : st.state = .error) : (inspectLoop buf rest p st).1.state = .error := by
  cases rest with
  | nil => exact h
  | cons c rest => rw [inspectLoop, if_pos (.inl h)]; exact h

/-! ### One line -/

variable {lines : List Line} {m' : Manifest}

section Line

variable {buf before after : Text} {l : Line}

theorem seen_ne_value {α : Type} (found : Option α) : seen found ≠ .value := by
  cases found <;> exact nofun

theorem seen_eq_no {α : Type} {found : Option α} : seen found = .no ↔ found.isSome = false := by
  cases found <;> simp [seen]

theorem seen_eq_read {α : Type} {found : Option α} : seen found = .read ↔ found.isSome := by
  cases found <;> simp [seen]

def opened (brief : Brief) (l : Line) (start p : Nat) : Inspect :=
  let st := { brief.at start with state := .value }
  if l.label = ascii "id" then { st with hasBid := .value, start := p }
  else if l.label = ascii "version" then { st with hasVersion := .value, start := p }
  else st

def repeated (brief : Brief) (l : Line) : Bool :=
  if l.label = ascii "id" then brief.bid.isSome
  else if l.label = ascii "version" then brief.version.isSome
  else false

theorem endLabel_line (hl : l.Valid) (hbuf : buf = before ++ l.label ++ after) :
    endLabel buf (before.length + l.label.length) (br.at before.length) =
      if repeated br l then { br.at before.length with state := .error }
      else opened br l before.length (before.length + l.label.length + 1) := by
  have hlab : slice buf before.length (before.length + l.label.length - before.length) = l.label := by
    rw [hbuf, Nat.add_sub_cancel_left, slice_middle]
  simp only [endLabel, repeated, opened, Brief.at, hlab, hl.label, Bool.true_eq_false, if_false, ne_eq,
    seen_eq_no, Bool.not_eq_false]
  by_cases hid : l.label = ascii "id"
  · simp only [if_pos hid]
  simp only [if_neg hid]
  by_cases hver : l.label = ascii "version"
  · simp only [if_pos hver]
  · simp only [if_neg hver, Bool.false_eq_true, if_false]

/-- The characters from the `=` to the end of the line. -/
theorem inspectLoop_value (hl : l.Valid) (hste : st.state = .value) (heol : st.eol = none) :
    ∃ eol, inspectLoop buf ((l.value ++ if l.cr then [13] else []) ++ 10 :: after) p st =
      inspectLoop buf after (p + l.value.length + (if l.cr then 1 else 0) + 1)
        (endLine buf (p + l.value.length + if l.cr then 1 else 0) { st with eol }) ∧
      eol.getD (p + l.value.length + if l.cr then 1 else 0) = p + l.value.length := by
  have hne : st.state ≠ .error := by rw [hste]; exact nofun
  have hkeep : ∀ c ∈ l.value, ∀ p, inspectStep buf p c st = st := by
    intro c hc p
    obtain ⟨-, h13, h10⟩ := mem_value hl.value hc
    simp [inspectStep, hste, heol, h13, h10]
  rw [append_assoc, inspectLoop_keep p hne (fun c hc => (mem_value hl.value hc).1) hkeep]
  cases l.cr with
  | true =>
    refine ⟨some (p + l.value.length), ?_, rfl⟩
    have hcr : inspectStep buf (p + l.value.length) 13 st =
        { st with eol := some (p + l.value.length) } := by
      simp [inspectStep, hste, heol]
    have hlf : ∀ q, inspectLoop buf (10 :: after) q { st with eol := some (p + l.value.length) } = _ :=
      fun q => inspectLoop_step after hne (by decide)
    rw [if_pos rfl, cons_append, inspectLoop_step _ hne (by decide), hcr, nil_append, hlf]
    simp [inspectStep, hste]
  | false =>
    refine ⟨st.eol, ?_, by rw [heol]; rfl⟩
    have hlf : inspectStep buf (p + l.value.length) 10 st = endLine buf (p + l.value.length) st := by
      simp [inspectStep, hste]
    rw [if_neg Bool.false_ne_true, nil_append, inspectLoop_step _ hne (by decide), hlf]
    rfl

/-- The number ends where the line ends. -/
theorem strToUint_line (value after : Text) (hc : hexvalue c = none) :
    (match strToUint (2 ^ 64) 10 (value ++ c :: after) with
      | some (version, rest) =>
        if rest.length = (c :: after).length then some (UInt64.ofNat version) else none
      | none => none) = strToUint64 value := by
  rw [strToUint_append _ _ value after hc, strToUint64]
  rcases strToUint (2 ^ 64) 10 value with _ | ⟨version, rest⟩
  · rfl
  cases rest with
  | nil => exact if_pos rfl
  | cons d rest =>
    refine if_neg ?_
    rw [length_append, length_cons]
    omega

/-- What the end of the line makes of the value. -/
theorem endLine_line (start : Nat) (hnew : repeated br l = false)
    (hval : buf.drop p = l.value ++ c :: after) (hc : hexvalue c = none)
    (heol : eol.getD q = p + l.value.length) :
    match inspectLine br l with
    | some br' => endLine buf q { opened br l start p with eol } = br'.at (q + 1)
    | none => (endLine buf q { opened br l start p with eol }).state = .error := by
  unfold inspectLine
  unfold repeated at hnew
  by_cases hid : l.label = ascii "id"
  · rw [if_pos hid] at hnew
    have hread : parseBinary 32 (buf.drop p) (p + l.value.length - p) = strToBinary 32 l.value := by
      rw [Nat.add_sub_cancel_left, parseBinary_eq _ _ _ (by rw [hval]; simp), hval, take_left]
    simp only [endLine, opened, readValue, heol, if_pos hid, hnew, hread, if_true, Bool.false_eq_true,
      if_false]
    cases strToBinary 32 l.value with
    | some bid => rfl
    | none => rfl
  simp only [if_neg hid] at hnew ⊢
  have hbid := seen_ne_value br.bid
  by_cases hver : l.label = ascii "version"
  · rw [if_pos hver] at hnew
    have hread := strToUint_line l.value after hc
    have hend : buf.length - (p + l.value.length) = (c :: after).length := by
      have h := congrArg List.length hval
      rw [length_drop, length_append] at h
      omega
    rw [← hval] at hread
    simp only [endLine, opened, readValue, if_neg hid, if_pos hver, heol, Brief.at, if_neg hbid,
      if_true, hend, hnew, Bool.false_eq_true, if_false, ← hread]
    cases strToUint (2 ^ 64) 10 (buf.drop p) with
    | none => rfl
    | some r =>
      by_cases hrest : r.2.length = (c :: after).length
      · simp only [if_pos hrest]
        rfl
      simp only [if_neg hrest]
      rfl
  simp only [endLine, opened, readValue, if_neg hid, if_neg hver, heol, Brief.at, if_neg hbid,
    if_neg (seen_ne_value br.version), if_true]

theorem mem_label (hl : l.Valid) (hc : c ∈ l.label) : c ≠ 0 ∧ c ≠ 61 := by
  obtain ⟨d, s, hcons, hd, hs⟩ := label_cons hl.label
  have hrng : 48 ≤ c.toNat ∧ c.toNat ≠ 61 := by
    rw [hcons] at hc
    rcases mem_cons.mp hc with rfl | hc
    · exact isalnum_range hd
    · exact isalnum_range (hs c hc)
  constructor <;> rintro rfl <;> simp at hrng

theorem opened_state :
    (opened br l start p).state = .value ∧ (opened br l start p).eol = none := by
  unfold opened
  split
  · exact ⟨rfl, rfl⟩
  · split <;> exact ⟨rfl, rfl⟩

theorem inspectLine_repeated (h : repeated br l = true) : inspectLine br l = none := by
  unfold repeated at h
  unfold inspectLine
  by_cases hid : l.label = ascii "id"
  · rw [if_pos hid] at h ⊢
    rw [if_pos h]
  rw [if_neg hid] at h ⊢
  by_cases hver : l.label = ascii "version"
  · rw [if_pos hver] at h ⊢
    rw [if_pos h]
  rw [if_neg hver] at h
  cases h

/-- The characters of a whole line. -/
theorem inspectLoop_line (hl : l.Valid) (br : Brief) (hbuf : buf = before ++ l.bytes ++ after) :
    match inspectLine br l with
    | some br' => inspectLoop buf (l.bytes ++ after) before.length (br.at before.length) =
        inspectLoop buf after (before ++ l.bytes).length (br'.at (before ++ l.bytes).length)
    | none => (inspectLoop buf (l.bytes ++ after) before.length
        (br.at before.length)).1.state = .error := by
  have hbs : l.bytes ++ after =
      l.label ++ 61 :: ((l.value ++ if l.cr then [13] else []) ++ 10 :: after) := by
    simp [Line.bytes]
  have hlen : (before ++ l.bytes).length =
      before.length + l.label.length + 1 + l.value.length + (if l.cr then 1 else 0) + 1 := by
    rw [length_append, Line.bytes]
    cases l.cr <;> simp <;> omega
  have hkeep : ∀ c ∈ l.label, ∀ p,
      inspectStep buf p c (br.at before.length) = br.at before.length := by
    intro c hc p
    simp [inspectStep, Brief.at, (mem_label hl hc).2]
  have hst : inspectLoop buf (l.bytes ++ after) before.length (br.at before.length) =
      inspectLoop buf ((l.value ++ if l.cr then [13] else []) ++ 10 :: after)
        (before.length + l.label.length + 1)
        (endLabel buf (before.length + l.label.length) (br.at before.length)) := by
    have hste : (br.at before.length).state ≠ .error := fun h => by cases h
    rw [hbs, inspectLoop_keep _ hste (fun c hc => (mem_label hl hc).1) hkeep,
      inspectLoop_step _ hste (by decide)]
    rfl
  rw [hst, endLabel_line hl (by rw [hbuf, append_assoc, hbs, ← append_assoc])]
  cases hnew : repeated br l with
  | true =>
    rw [inspectLine_repeated hnew]
    exact inspectLoop_error rfl
  | false =>
    obtain ⟨hval, hnone⟩ := opened_state
    obtain ⟨eol, hloop, heol⟩ := inspectLoop_value hl hval hnone
    rw [if_neg Bool.false_ne_true, hloop, ← hlen]
    have hdrop : ∃ c rest, hexvalue c = none ∧
        buf.drop (before.length + l.label.length + 1) = l.value ++ c :: rest := by
      have h : buf.drop (before.length + l.label.length + 1) =
          (l.value ++ if l.cr then [13] else []) ++ 10 :: after := by
        have hspl : buf = (before ++ l.label ++ [61]) ++
            ((l.value ++ if l.cr then [13] else []) ++ 10 :: after) := by
          rw [hbuf, append_assoc, hbs]
          simp
        rw [hspl, drop_left' (by simp [add_assoc])]
      rw [h]
      cases l.cr with
      | true => exact ⟨13, 10 :: after, by decide, by simp⟩
      | false => exact ⟨10, after, by decide, by simp⟩
    obtain ⟨c, rest, hc, hdrop⟩ := hdrop
    have hend := endLine_line before.length hnew hdrop hc heol
    generalize inspectLine br l = found at *
    cases found with
    | some br' => rw [hend, hlen]
    | none => exact inspectLoop_error hend

end Line

/-! ### All lines -/

theorem inspectLoop_lines {buf before after : Text} (hls : ∀ l ∈ lines, l.Valid)
    (haft : after.head?.all (· == 0) = true) (br : Brief)
    (hbuf : buf = before ++ lines.flatMap Line.bytes ++ after) :
    match lines.foldlM inspectLine br with
    | some br' => inspectLoop buf (lines.flatMap Line.bytes ++ after) before.length
        (br.at before.length) =
      (br'.at (before ++ lines.flatMap Line.bytes).length, (before ++ lines.flatMap Line.bytes).length)
    | none => (inspectLoop buf (lines.flatMap Line.bytes ++ after) before.length
        (br.at before.length)).1.state = .error := by
  induction lines generalizing before br with
  | nil =>
    simp only [foldlM_nil, Option.pure_def, flatMap_nil, nil_append, append_nil]
    cases after with
    | nil => rfl
    | cons c after =>
      have hc : c = 0 := by simpa using haft
      rw [inspectLoop, if_pos (.inr hc)]
  | cons l lines ih =>
    have hl := hls l mem_cons_self
    have hbuf' : buf = before ++ l.bytes ++ (lines.flatMap Line.bytes ++ after) := by
      rw [hbuf]
      simp
    have hline := inspectLoop_line hl br hbuf'
    rw [flatMap_cons, append_assoc, foldlM_cons]
    generalize inspectLine br l = found at *
    cases found with
    | none => exact hline
    | some br' =>
      have hnext : buf = (before ++ l.bytes) ++ lines.flatMap Line.bytes ++ after := by
        rw [hbuf']
        simp
      have hrest := ih (fun l' hl' => hls l' (mem_cons_of_mem _ hl')) br' hnext
      rw [hline, ← append_assoc]
      exact hrest

/-! ### What the inspection reports -/

/-- The id and the version found are those of lines with these labels. -/
structure Found (lines : List Line) (brief : Brief) : Prop where
  bid : ∀ bid, brief.bid = some bid → ∃ l ∈ lines, l.holds .id = some bid
  version : ∀ version, brief.version = some version →
    ∃ l ∈ lines, l.label = Field.version.label ∧ strToUint64 l.value = some version

theorem found_mono (h : Found lines brief) (hsub : ∀ l ∈ lines, l ∈ lines') : Found lines' brief := by
  constructor
  · intro bid hbid
    obtain ⟨l, hl, hhl⟩ := h.bid bid hbid
    exact ⟨l, hsub l hl, hhl⟩
  intro version hver
  obtain ⟨l, hl, hhl⟩ := h.version version hver
  exact ⟨l, hsub l hl, hhl⟩

theorem found_line (h : Found lines brief) (hline : inspectLine brief l = some brief') :
    Found (lines ++ [l]) brief' := by
  have hold : Found (lines ++ [l]) brief := found_mono h fun l' hl' => mem_append_left _ hl'
  unfold inspectLine at hline
  split at hline
  · next hid =>
    split at hline
    · cases hline
    obtain ⟨bid, hread, rfl⟩ := map_eq_some_iff.mp hline
    refine ⟨?_, hold.version⟩
    rintro _ ⟨⟩
    have hdesc : descriptor l.label = some .id := by
      rw [hid]
      exact descriptor_label .id
    exact ⟨l, by simp, by rw [Line.holds, if_pos hdesc]; exact hread⟩
  split at hline
  · next hver =>
    split at hline
    · cases hline
    obtain ⟨version, hread, rfl⟩ := map_eq_some_iff.mp hline
    refine ⟨hold.bid, ?_⟩
    rintro _ ⟨⟩
    exact ⟨l, by simp, hver, hread⟩
  cases hline
  exact hold

theorem found_run (h : lines.foldlM inspectLine ⟨none, none⟩ = some brief) : Found lines brief := by
  refine foldlM_induct Found ⟨?_, ?_⟩ (fun _ _ _ _ hfnd hline => found_line hfnd hline) h
  · rintro _ ⟨⟩
  · rintro _ ⟨⟩

/-! ## What the parser has read -/

/-- The members that the parser has set, and that no two lines give a core field. -/
structure Kept (lines : List Line) (m : Manifest) : Prop where
  values : ∀ f, f ≠ .bk → m.value f = holding lines f
  single : ∀ f, f.core = true → ∀ l ∈ lines, descriptor l.label = some f →
    (l.holds f).isSome ∧ l.holds f = holding lines f

section Kept

variable {l : Line} {m : Manifest}

theorem core_ne_bk {f : Field} (h : f.core = true) : f ≠ .bk := by
  rintro rfl
  cases h

/-- A line that is taken or skipped without a complaint. -/
theorem kept_step (hm : Kept before m) (hl : l.Valid) (hpar : Parsed m l.label l.value st m')
    (hstat : st = .ok ∨ st = .malformed) : Kept (before ++ [l]) m' := by
  refine ⟨value_step hm.values hpar hl (by rintro rfl; simp at hstat), fun g hcore l' hl' hdesc' => ?_⟩
  rw [holding_snoc]
  rcases mem_append.mp hl' with hl' | hl'
  · obtain ⟨hsome, hsame⟩ := hm.single g hcore l' hl' hdesc'
    rw [← hsame, or_of_isSome hsome]
    exact ⟨hsome, rfl⟩
  rw [mem_singleton.mp hl'] at hdesc' ⊢
  cases hpar with
  | refused | twice | full => simp at hstat
  | unread hdesc _ _ _ hstatus =>
    cases hdesc.symm.trans hdesc'
    simp [hstatus, hcore] at hstat
  | known hdesc hnew _ hread =>
    cases hdesc.symm.trans hdesc'
    rw [hm.values g (core_ne_bk hcore)] at hnew
    rw [hnew, none_or, Line.holds, if_pos hdesc, hread]
    exact ⟨rfl, rfl⟩
  | unknown hdesc => cases hdesc.symm.trans hdesc'

theorem kept_note (hm : Kept before m) (st : Progress) : Kept before (st.note status m).manifest := by
  have hsame : ∀ f, (st.note status m).manifest.value f = m.value f := by
    intro f
    cases status <;> cases f <;> rfl
  exact ⟨fun f hf => by rw [hsame, hm.values f hf], hm.single⟩

theorem run_bounded (hlen : st.manifest.vars.length ≤ maxVars) (herr : st.error = false)
    (hrun : runLines st lines = some st') :
    st'.manifest.vars.length ≤ maxVars ∧ st'.error = false := by
  refine foldlM_some (fun st => st.manifest.vars.length ≤ maxVars ∧ st.error = false) ?_
    ⟨hlen, herr⟩ hrun
  intro st1 l st2 h1 hstep
  obtain ⟨st3, hstep', hbds⟩ := stepLine_some h1.1 h1.2 l
  rw [hstep] at hstep'
  cases hstep'
  exact hbds

/-- What the parser has kept when all lines are read. -/
theorem kept_run (hls : ∀ l ∈ lines, l.Valid) (hrun : runLines (.start .fresh) lines = some st)
    (hcl : Clean st) : Kept lines st.manifest := by
  induction lines using List.reverseRecOn generalizing st with
  | nil =>
    cases hrun
    exact ⟨reads_fresh.values, nofun⟩
  | append_singleton before l ih =>
    rw [runLines, foldlM_append] at hrun
    obtain ⟨st1, hbef, hstep⟩ := bind_eq_some_iff.mp hrun
    obtain ⟨st2, hstep, ⟨⟩⟩ := bind_eq_some_iff.mp hstep
    have hm := ih (fun l' hl' => hls l' (mem_append_left _ hl')) hbef (stepLine_clean hstep hcl)
    obtain ⟨hlen, herr⟩ := run_bounded (Nat.zero_le _) rfl hbef
    rw [stepLine, if_neg (by simp [(stepLine_clean hstep hcl).1, herr])] at hstep
    obtain ⟨⟨status, m'⟩, hfld, rfl⟩ := map_eq_some_iff.mp hstep
    obtain ⟨hstat, hpar⟩ := status_of_clean hlen hfld hcl
    exact kept_note (kept_step hm (hls l (by simp)) hpar hstat) st1

end Kept

/-! ## Both on one text -/

/-- The inspection of a text that consists of lines. -/
theorem inspect_lines (hls : Spells lines data) {summ : Summary}
    (h : rhizomeManifestInspect data = (true, summ)) :
    Found lines ⟨summ.bid, summ.version⟩ ∧ summ.bid.isSome ∧ summ.version.isSome ∧
      summ.bodyLen = bodyCount data := by
  obtain ⟨tail, hdata, htail⟩ := body_split data
  have hcnt := bodyCount_eq hdata htail
  have hlen := congrArg List.length hdata
  have htail' : data.drop (body data).length = tail := by
    have h : (body data ++ tail).drop (body data).length = tail := drop_left
    rwa [← hdata] at h
  have hspl := hdata
  rw [hls.2] at hdata
  have hst : data = [] ++ lines.flatMap Line.bytes ++ tail := hdata
  have hloop := inspectLoop_lines hls.1 htail ⟨none, none⟩ hst
  simp only [nil_append, ← hls.2, ← hspl, length_nil] at hloop
  have hini : Inspect.initial = Brief.at ⟨none, none⟩ 0 := rfl
  unfold rhizomeManifestInspect at h
  rw [hini] at h
  cases hrun : lines.foldlM inspectLine ⟨none, none⟩ with
  | none =>
    rw [hrun] at hloop
    simp [hloop] at h
  | some br =>
    rw [hrun] at hloop
    rw [hloop] at h
    simp only [Brief.at, htail', Prod.mk.injEq, Bool.and_eq_true, beq_iff_eq] at h
    obtain ⟨⟨⟨-, hbid⟩, hver⟩, rfl⟩ := h
    refine ⟨found_run hrun, seen_eq_read.mp hbid, seen_eq_read.mp hver, ?_⟩
    rw [← hcnt]
    rw [length_append] at hlen
    cases tail with
    | nil => simpa using hlen.symm
    | cons c tail =>
      have hc : c = 0 := by simpa using htail
      subst hc
      simp only [head?_cons, if_true, cons_ne_nil, if_false]
      omega

/-- A parsed manifest that is valid has been parsed with success. -/
theorem parsed_of_valid (hpar : manifestParse .fresh data = some (ret, m)) (hret : ret ≠ -1)
    (hvd : manifestValidate m = (true, m')) :
    data.length ≤ maxBytes ∧ ret = 0 ∧ m.id.isSome ∧ m.version ≠ 0 ∧
      m'.id = m.id ∧ m'.version = m.version ∧ m'.bodyBytes = m.bodyBytes := by
  have hdata : data.length ≤ maxBytes := by
    unfold manifestParse at hpar
    split at hpar
    · cases hpar
    · next h => exact Nat.le_of_not_gt fun hlt => h (.inl hlt)
  obtain ⟨hrea, rfl⟩ := Prod.mk.inj hvd
  have hrea : reason m = none := isNone_iff_eq_none.mp hrea
  have hid : m.id.isSome := by
    cases hid : m.id with
    | some bid => rfl
    | none => simp [reason, hid] at hrea
  have hver : m.version ≠ 0 := by
    intro h
    cases hid' : m.id <;> simp [reason, h, hid'] at hrea
  refine ⟨hdata, ?_, hid, hver, rfl, rfl, rfl⟩
  obtain ⟨st, rest, -, herr, -, hfin⟩ := manifestParse_some data hdata
  rw [hfin] at hpar
  unfold finish at hpar
  split at hpar
  · cases hpar
    exact absurd rfl hret
  split at hpar
  · cases hpar
    cases hid
  cases hpar
  rfl

/-- An advertised manifest that the inspection accepts, and that is parsed and then
valid, meets the assertions. -/
theorem inspect_agrees (data : Text) {summ : Summary} {ret : Int} {m m' : Manifest}
    (hinspect : rhizomeManifestInspect data = (true, summ))
    (hparse : manifestParse .fresh data = some (ret, m)) (hret : ret ≠ -1)
    (hvalid : manifestValidate m = (true, m')) : Asserted m' summ := by
  obtain ⟨hdata, rfl, hid, hver, hid', hver', hbody'⟩ := parsed_of_valid hparse hret hvalid
  obtain ⟨lines, st, hspe, hrun, hcl, rfl⟩ := parse_zero hdata hparse
  have hkept := kept_run hspe.1 hrun hcl
  obtain ⟨hfnd, hbid, hnum, hbody⟩ := inspect_lines hspe hinspect
  obtain ⟨bid, hbid⟩ := isSome_iff_exists.mp hbid
  obtain ⟨version, hnum⟩ := isSome_iff_exists.mp hnum
  refine ⟨by rw [hid']; exact hid, by rw [hver']; exact hver, ?_, ?_, by rw [hbody', hbody]⟩
  · obtain ⟨l, hl, hhl⟩ := hfnd.bid bid hbid
    have hdesc := descriptor_of_holds (isSome_of_eq_some hhl)
    rw [hid', hbid, ← hhl, (hkept.single .id rfl l hl hdesc).2]
    exact hkept.values .id (by decide)
  obtain ⟨l, hl, hlab, hread⟩ := hfnd.version version hnum
  have hdesc : descriptor l.label = some .version := by rw [hlab, descriptor_label]
  obtain ⟨hsome, hhold⟩ := hkept.single .version rfl l hl hdesc
  rw [Line.holds, if_pos hdesc] at hsome hhold
  have hval : st.manifest.value .version = some st.manifest.version := if_neg hver
  rw [hkept.values .version (by decide), ← hhold] at hval
  have hsame : strToUint64 l.value = some st.manifest.version :=
    (filter_eq_some_iff.mp hval).1
  rw [hver', hnum, ← hread, hsame]

def emptyPayload : Text :=
  ascii "id=" ++ tohex (List.replicate 32 7) ++ ascii "\nversion=12\r\nfilesize=0\n\x00"

theorem inspect_agrees_emptyPayload :
    ∃ summ ret m m', rhizomeManifestInspect emptyPayload = (true, summ) ∧
      manifestParse .fresh emptyPayload = some (ret, m) ∧ ret ≠ -1 ∧
      manifestValidate m = (true, m') ∧ Asserted m' summ := by
  have hins : (rhizomeManifestInspect emptyPayload).1 = true := by decide +kernel
  have hpar : (manifestParse .fresh emptyPayload).map (fun r => (r.1, (manifestValidate r.2).1)) =
      some (0, true) := by decide +kernel
  obtain ⟨⟨ret, m⟩, hpar, hvd⟩ := map_eq_some_iff.mp hpar
  obtain ⟨rfl, hvd⟩ := Prod.mk.inj hvd
  generalize hsumm : rhizomeManifestInspect emptyPayload = r at hins
  obtain ⟨ok, summ⟩ := r
  obtain rfl : ok = true := hins
  generalize hm' : manifestValidate m = r' at hvd
  obtain ⟨valid, m'⟩ := r'
  obtain rfl : valid = true := hvd
  exact ⟨summ, 0, m, m', rfl, hpar, by decide, hm', inspect_agrees emptyPayload hsumm hpar (by decide) hm'⟩

end ManifestInspect
