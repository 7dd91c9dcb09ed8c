import ServalDna.ManifestParse

/-!
# The grammar of manifests

What `rhizome_manifest_parse` accepts, said without its loop: the bytes before the
first NUL are lines of a valid form, and each line fits behind the ones before it.
The manifest then lists the accepted fields in their order. The fields that the
program knows are listed under their own spelling, and with the text that their
setter prints.
-/
namespace ManifestGrammar

open TextCodec ManifestFields ManifestParse Option
open List hiding lookup

/-! ## Lines -/

structure Line where
  label : Text
  value : Text
  cr : Bool
  deriving DecidableEq, Repr

def Line.bytes (l : Line) : Text :=
  l.label ++ 61 :: (l.value ++ if l.cr then [13] else []) ++ [10]

structure Line.Valid (l : Line) : Prop where
  label : fieldLabelIsValid l.label = true
  value : fieldValueIsValid l.value = true

instance (l : Line) : Decidable l.Valid :=
  decidable_of_iff (fieldLabelIsValid l.label = true ∧ fieldValueIsValid l.value = true)
    ⟨fun h => ⟨h.1, h.2⟩, fun h => ⟨h.label, h.value⟩⟩

theorem isalnum_range (h : isalnum c = true) : 48 ≤ c.toNat ∧ c.toNat ≠ 61 := by
  simp only [isalnum, isalpha, isupper, islower, isdigit, Bool.or_eq_true, Bool.and_eq_true,
    decide_eq_true_eq, UInt8.le_iff_toNat_le, UInt8.toNat_ofNat, Nat.reduceMod, Nat.reducePow] at h
  omega

theorem inLabel_of_isalnum (h : isalnum c = true) : inLabel c = true := by
  have hrng := isalnum_range h
  simp only [inLabel, Bool.and_eq_true, bne_iff_ne]
  refine ⟨⟨?_, ?_⟩, ?_⟩ <;> rintro rfl <;> simp at hrng

theorem isalnum_of_isalpha (h : isalpha c = true) : isalnum c = true := by simp [isalnum, h]

theorem label_cons (h : fieldLabelIsValid label = true) :
    ∃ c rest, label = c :: rest ∧ isalnum c = true ∧ ∀ x ∈ rest, isalnum x = true := by
  cases label with
  | nil => cases h
  | cons c rest =>
    simp only [fieldLabelIsValid, Bool.and_eq_true, List.all_eq_true] at h
    exact ⟨c, rest, rfl, isalnum_of_isalpha h.1.2, h.2⟩

theorem mem_value (h : fieldValueIsValid value = true) (hc : c ∈ value) : c ≠ 0 ∧ c ≠ 13 ∧ c ≠ 10 := by
  simp only [fieldValueIsValid, Bool.and_eq_true, List.all_eq_true, bne_iff_ne] at h
  exact ⟨(h.2 c hc).1.1, (h.2 c hc).1.2, (h.2 c hc).2⟩

theorem trimCr_cr : trimCr (value ++ [13]) = value := by simp [trimCr]

theorem trimCr_valid (h : fieldValueIsValid value = true) : trimCr value = value := by
  rw [trimCr, if_neg]
  intro hlast
  exact (mem_value h (mem_of_getLast? hlast)).2.1 rfl

theorem trimCr_eq (raw : Text) : ∃ cr : Bool, raw = trimCr raw ++ if cr then [13] else [] := by
  unfold trimCr
  split
  · next hlast =>
    obtain ⟨init, rfl⟩ := getLast?_eq_some_iff.mp hlast
    exact ⟨true, by simp⟩
  · exact ⟨false, by simp⟩

section Line

variable {l : Line}

theorem nextLine_bytes (hl : l.Valid) (rest : Text) :
    nextLine (l.bytes ++ rest) = some (l.label, l.value, rest) := by
  obtain ⟨c, s, hlab, -, hs⟩ := label_cons hl.label
  have hraw : ∀ x ∈ l.value ++ (if l.cr then [13] else []), inValue x = true := by
    intro x hx
    simp only [inValue, Bool.and_eq_true, bne_iff_ne]
    rcases mem_append.mp hx with hx | hx
    · have hne := mem_value hl.value hx
      exact ⟨hne.1, hne.2.2⟩
    split at hx
    · rw [mem_singleton.mp hx]
      decide
    · cases hx
  have hlab' : ∀ x ∈ s, inLabel x = true := fun x hx => inLabel_of_isalnum (hs x hx)
  have hstop : inLabel 61 = false := by decide
  have hstop' : inValue 10 = false := by decide
  have htrim : trimCr (l.value ++ if l.cr then [13] else []) = l.value := by
    cases l.cr with
    | true => exact trimCr_cr
    | false => simpa using trimCr_valid hl.value
  have hbs : l.bytes ++ rest =
      c :: (s ++ 61 :: ((l.value ++ if l.cr then [13] else []) ++ 10 :: rest)) := by
    simp [Line.bytes, hlab]
  rw [hbs, nextLine]
  simp only [takeWhile_append_of_pos hlab', dropWhile_append_of_pos hlab', takeWhile_append_of_pos hraw,
    dropWhile_append_of_pos hraw, takeWhile_cons, dropWhile_cons, hstop, hstop', Bool.false_eq_true,
    if_false, append_nil, htrim, hlab]

theorem nul_not_mem_bytes (hl : l.Valid) : (0 : UInt8) ∉ l.bytes := by
  obtain ⟨c, s, hlab, hc, hs⟩ := label_cons hl.label
  intro h0
  simp only [Line.bytes, mem_append, mem_cons, not_mem_nil, or_false] at h0
  rcases h0 with (h0 | h0 | h0 | h0) | h0
  · rw [hlab] at h0
    have halnum : isalnum 0 = true := by
      rcases mem_cons.mp h0 with rfl | h0
      · exact hc
      · exact hs 0 h0
    exact absurd halnum (by decide)
  · cases h0
  · exact (mem_value hl.value h0).1 rfl
  · split at h0
    · exact absurd (mem_singleton.mp h0) (by decide)
    · cases h0
  · cases h0

end Line

/-! ## The loop over lines -/

def stepLine (st : Progress) (l : Line) : Option Progress :=
  if st.invalid || st.error then some st
  else (parseField st.manifest l.label l.value).map fun r => st.note r.1 r.2

def runLines (st : Progress) (lines : List Line) : Option Progress := lines.foldlM stepLine st

variable {lines before : List Line} {st' st : Progress}

/-- The text that the lines stand for, up to the end or to a NUL. -/
theorem parseLoop_lines (hls : ∀ l ∈ lines, l.Valid) {tail : Text}
    (htail : tail.head?.all (· == 0) = true) (st : Progress) (hrun : runLines st lines = some st') :
    ∃ rest, parseLoop (lines.flatMap Line.bytes ++ tail) st = some (st', rest) ∧
      (st'.invalid = false → st'.error = false → rest = tail) := by
  induction lines generalizing st with
  | nil =>
    cases hrun
    refine ⟨tail, ?_, fun _ _ => rfl⟩
    rw [flatMap_nil, nil_append, parseLoop]
    split
    · rfl
    · rfl
  | cons l lines ih =>
    have hl := hls l mem_cons_self
    obtain ⟨st1, hstep, hrun⟩ := bind_eq_some_iff.mp hrun
    unfold stepLine at hstep
    by_cases hstop : (st.invalid || st.error) = true
    · rw [if_pos hstop] at hstep
      cases hstep
      -- once the loop has stopped the other lines change nothing
      have hkeep : ∀ lines, runLines st lines = some st := by
        intro lines
        induction lines with
        | nil => rfl
        | cons l lines ih =>
          change (stepLine st l).bind _ = _
          rw [stepLine, if_pos hstop]
          exact ih
      rw [← runLines, hkeep lines] at hrun
      cases hrun
      refine ⟨(l :: lines).flatMap Line.bytes ++ tail, ?_, fun hi he => ?_⟩
      · rw [parseLoop, if_pos hstop]
      · simp [hi, he] at hstop
    rw [if_neg hstop] at hstep
    obtain ⟨⟨status, m⟩, hfld, rfl⟩ := map_eq_some_iff.mp hstep
    have hhead : ¬((l :: lines).flatMap Line.bytes ++ tail).head?.all (· == 0) = true := by
      obtain ⟨c, s, hlab, hc, -⟩ := label_cons hl.label
      have hne : c ≠ 0 := by
        rintro rfl
        exact absurd hc (by decide)
      simp [Line.bytes, hlab, hne]
    have hnext := nextLine_bytes hl (lines.flatMap Line.bytes ++ tail)
    obtain ⟨rest, hloop, hrest⟩ :=
      ih (fun l' hl' => hls l' (mem_cons_of_mem _ hl')) _ hrun
    refine ⟨rest, ?_, hrest⟩
    rw [parseLoop, if_neg hstop, if_neg hhead]
    rw [flatMap_cons, append_assoc]
    split
    · next hnone =>
      rw [hnext] at hnone
      cases hnone
    next label value rest' hsome =>
    rw [hnext] at hsome
    cases hsome
    simp only [hfld]
    exact hloop

theorem syntaxError_of_invalid (h : parseField m label value = some (status, m'))
    (hstat : status ≠ .syntaxError) :
    fieldLabelIsValid label = true ∧ fieldValueIsValid value = true := by
  unfold parseField at h
  split at h
  · cases h
    exact absurd rfl hstat
  next hlab =>
  split at h
  · cases h
    exact absurd rfl hstat
  · next hval => exact ⟨by simpa using hlab, by simpa using hval⟩

theorem parseLoop_invalid (h : parseLoop text st = some (st', rest)) (hok : st'.invalid = false) :
    st.invalid = false := by
  cases hinv : st.invalid with
  | false => rfl
  | true =>
    rw [parseLoop, if_pos (by simp [hinv])] at h
    cases h
    rw [hinv] at hok
    cases hok

/-- Where the loop ends without an invalid line, it has read lines. -/
theorem parseLoop_inv (h : parseLoop text st = some (st', rest)) (hinv : st'.invalid = false)
    (herr : st'.error = false) :
    ∃ lines, (∀ l ∈ lines, l.Valid) ∧ text = lines.flatMap Line.bytes ++ rest ∧
      runLines st lines = some st' ∧ rest.head?.all (· == 0) = true := by
  fun_induction parseLoop text st with
  | case1 text st hstop =>
    cases h
    simp [hinv, herr] at hstop
  | case2 text st hstop hend =>
    cases h
    exact ⟨[], fun _ h => absurd h not_mem_nil, rfl, rfl, hend⟩
  | case3 text st hstop hend hline =>
    cases h
    cases hinv
  | case4 text st hstop hend label value rest' hline hfld => cases h
  | case5 text st hstop hend label value rest' hline status m hfld ih =>
    obtain ⟨lines, hls, hrest, hrun, htail⟩ := ih h
    have hstat : status ≠ .syntaxError := by
      rintro rfl
      have := parseLoop_invalid h hinv
      cases this
    obtain ⟨hlab, hval⟩ := syntaxError_of_invalid hfld hstat
    obtain ⟨c, s, raw, -, hraw, -, -, htext⟩ := nextLine_inv hline
    obtain ⟨cr, hcr⟩ := trimCr_eq raw
    refine ⟨⟨label, value, cr⟩ :: lines, ?_, ?_, ?_, htail⟩
    · exact forall_mem_cons.mpr ⟨⟨hlab, hval⟩, hls⟩
    · rw [htext, hcr, ← hraw, flatMap_cons, append_assoc _ _ rest, ← hrest]
      simp [Line.bytes]
    change (stepLine st ⟨label, value, cr⟩).bind _ = _
    rw [stepLine, if_neg hstop, hfld]
    exact hrun

/-! ## Accepted lines -/

def Line.name (l : Line) : Text :=
  match descriptor l.label with
  | some f => f.label
  | none => l.label

/-- What is listed for a line; `none` if the value is not accepted. -/
def Line.field (l : Line) : Option (Text × Text) :=
  match descriptor l.label with
  | some f => (f.read l.value).map fun v => (f.label, f.print v)
  | none => some (l.label, l.value)

def Line.holds (l : Line) (f : Field) : Option f.Value :=
  if descriptor l.label = some f then f.read l.value else none

def listed (lines : List Line) : List (Text × Text) := lines.filterMap Line.field

/-- A line that can follow the lines before it. -/
structure Fits (before : List Line) (l : Line) : Prop where
  new : ∀ entry ∈ listed before, entry.1 ≠ l.name
  room : (listed before).length < maxVars
  core : ∀ f, descriptor l.label = some f → f.core = true → (f.read l.value).isSome

/-- Lines that make a manifest: each is well formed and fits behind the ones before it. -/
structure Accepted (lines : List Line) : Prop where
  valid : ∀ l ∈ lines, l.Valid
  core : ∀ l ∈ lines, ∀ f, descriptor l.label = some f → f.core = true → (f.read l.value).isSome
  distinct : lines.Pairwise fun a b => a.field.isSome → a.name ≠ b.name
  room : ∀ i, i < lines.length → (listed (lines.take i)).length < maxVars

section Names

variable {l : Line}

theorem field_name (h : l.field = some en) : en.1 = l.name := by
  unfold Line.field Line.name at *
  generalize descriptor l.label = d at *
  cases d with
  | some f =>
    obtain ⟨v, -, rfl⟩ := map_eq_some_iff.mp h
    rfl
  | none =>
    cases h
    rfl

theorem holds_field (h : (l.holds f).isSome) : ∃ en, l.field = some en ∧ en.1 = f.label := by
  unfold Line.holds at h
  split at h
  · next hdesc =>
    obtain ⟨v, hv⟩ := isSome_iff_exists.mp h
    exact ⟨(f.label, f.print v), by simp [Line.field, hdesc, hv], rfl⟩
  · cases h

/-- An entry under the label of a known field comes from a line of that field. -/
theorem field_holds (h : l.field = some en) (hname : en.1 = f.label) : (l.holds f).isSome := by
  unfold Line.field at h
  cases hdesc : descriptor l.label with
  | some g =>
    rw [hdesc] at h
    obtain ⟨v, hv, rfl⟩ := map_eq_some_iff.mp h
    obtain rfl := label_injective hname
    simp [Line.holds, hdesc, hv]
  | none =>
    rw [hdesc] at h
    cases h
    rw [show l.label = f.label from hname, descriptor_label] at hdesc
    cases hdesc

theorem descriptor_of_holds (h : (l.holds f).isSome) : descriptor l.label = some f := by
  unfold Line.holds at h
  split at h
  · next hdesc => exact hdesc
  · cases h

theorem mem_listed : entry ∈ listed lines ↔ ∃ l ∈ lines, l.field = some entry := by
  simp [listed, mem_filterMap]

theorem listed_append : listed (lines ++ lines') = listed lines ++ listed lines' :=
  filterMap_append

theorem lookup_listed : (lookup (listed lines) f.label).isSome ↔ ∃ l ∈ lines, (l.holds f).isSome := by
  rw [lookup_isSome]
  constructor
  · rintro ⟨en, hent, hname⟩
    obtain ⟨l, hl, hfld⟩ := mem_listed.mp hent
    exact ⟨l, hl, field_holds hfld hname⟩
  rintro ⟨l, hl, hhl⟩
  obtain ⟨en, hfld, hname⟩ := holds_field hhl
  exact ⟨en, mem_listed.mpr ⟨l, hl, hfld⟩, hname⟩

theorem accepted_snoc : Accepted (before ++ [l]) ↔ Accepted before ∧ l.Valid ∧ Fits before l := by
  constructor
  · intro h
    refine ⟨⟨fun l' hl' => h.valid l' (by simp [hl']), fun l' hl' => h.core l' (by simp [hl']), ?_, ?_⟩,
      h.valid l (by simp), ?_, ?_, h.core l (by simp)⟩
    · exact (pairwise_append.mp h.distinct).1
    · intro i hi
      have hroom := h.room i (by simp; omega)
      rwa [take_append_of_le_length (by omega)] at hroom
    · intro en hent
      obtain ⟨l', hl', hfld⟩ := mem_listed.mp hent
      rw [field_name hfld]
      exact (pairwise_append.mp h.distinct).2.2 l' hl' l (by simp) (by simp [hfld])
    have hroom := h.room before.length (by simp)
    rwa [take_left] at hroom
  rintro ⟨h, hl, hfits⟩
  refine ⟨?_, ?_, ?_, ?_⟩
  · exact forall_mem_append.mpr ⟨h.valid, forall_mem_singleton.mpr hl⟩
  · exact forall_mem_append.mpr ⟨h.core, forall_mem_singleton.mpr hfits.core⟩
  · refine pairwise_append.mpr ⟨h.distinct, pairwise_singleton _ _, ?_⟩
    intro a ha b hb hsome
    obtain ⟨en, hfld⟩ := isSome_iff_exists.mp hsome
    rw [mem_singleton.mp hb, ← field_name hfld]
    exact hfits.new en (mem_listed.mpr ⟨a, ha, hfld⟩)
  intro i hi
  rw [length_append, length_singleton] at hi
  by_cases hlt : i < before.length
  · rw [take_append_of_le_length (by omega)]
    exact h.room i hlt
  rw [show i = before.length by omega, take_left]
  exact hfits.room

end Names

/-! ## The manifest of accepted lines -/

/-- The first value that the lines have for a field. -/
def holding (lines : List Line) (f : Field) : Option f.Value := lines.findSome? fun l => l.holds f

/-- A line with an id takes the bundle key away. -/
def keyStep (key : Option (Binary 32)) (l : Line) : Option (Binary 32) :=
  if (l.holds .id).isSome then none
  else
    match l.holds .bk with
    | some v => some v
    | none => key

/-- What a manifest holds when the lines have been parsed. -/
structure Reads (lines : List Line) (m : Manifest) : Prop where
  vars : m.vars = listed lines
  values : ∀ f, f ≠ .bk → m.value f = holding lines f
  key : m.bundleKey = lines.foldl keyStep none

theorem reads_fresh : Reads [] .fresh := by
  refine ⟨rfl, ?_, rfl⟩
  intro f _
  cases f <;> rfl

theorem value_vars {m : Manifest} (f : Field) : ({ m with vars } : Manifest).value f = m.value f := by
  cases f <;> rfl

theorem key_some (h : lines.foldl keyStep key = some v) :
    key.isSome ∨ ∃ l ∈ lines, (l.holds .bk).isSome := by
  induction lines generalizing key with
  | nil => exact .inl (by rw [show key = some v from h]; rfl)
  | cons l lines ih =>
    rcases ih h with hsome | ⟨l', hl', hhl⟩
    · unfold keyStep at hsome
      split at hsome
      · cases hsome
      split at hsome
      · next v' hv' => exact .inr ⟨l, mem_cons_self, by rw [hv']; rfl⟩
      · exact .inl hsome
    · exact .inr ⟨l', mem_cons_of_mem _ hl', hhl⟩

theorem key_lost (h : lines.foldl keyStep (some v) = none) : ∃ l ∈ lines, (l.holds .id).isSome := by
  induction lines generalizing v with
  | nil => cases h
  | cons l lines ih =>
    rw [foldl_cons] at h
    by_cases hid : (l.holds .id).isSome
    · exact ⟨l, mem_cons_self, hid⟩
    rw [keyStep, if_neg hid] at h
    split at h <;> exact exists_mem_cons_of_exists (ih h)

/-- A key that was there and is gone has been followed by an id. -/
theorem key_followed (h : lines.foldl keyStep key = none) (hkey : ∃ l ∈ lines, (l.holds .bk).isSome) :
    ∃ k i, [k, i].Sublist lines ∧ (k.holds .bk).isSome ∧ (i.holds .id).isSome := by
  induction lines generalizing key with
  | nil =>
    obtain ⟨l, hl, -⟩ := hkey
    cases hl
  | cons l lines ih =>
    rw [foldl_cons] at h
    by_cases hmore : ∃ l ∈ lines, (l.holds .bk).isSome
    · obtain ⟨k, i, hsub, hk, hi⟩ := ih h hmore
      exact ⟨k, i, hsub.cons l, hk, hi⟩
    obtain ⟨l', hl', hhl⟩ := hkey
    rcases mem_cons.mp hl' with rfl | hl'
    · have hid : ¬(l'.holds .id).isSome := by simp [Line.holds, descriptor_of_holds hhl]
      obtain ⟨v, hv⟩ := isSome_iff_exists.mp hhl
      rw [keyStep, if_neg hid, hv] at h
      obtain ⟨i, hi, hiid⟩ := key_lost h
      exact ⟨l', i, List.Sublist.cons_cons l' (singleton_sublist.mpr hi), hhl, hiid⟩
    · exact absurd ⟨l', hl', hhl⟩ hmore

section Step

variable {l : Line}

theorem holding_snoc : holding (before ++ [l]) f = (holding before f).or (l.holds f) := by
  simp [holding, findSome?_append]

theorem holding_isSome : (holding before f).isSome ↔ (lookup (listed before) f.label).isSome := by
  rw [lookup_listed, holding, findSome?_isSome_iff]

section Accepted

variable (hm : Reads before m)

include hm

/-- A field that is set is listed, and the other way round unless an id has taken the
bundle key away. -/
theorem value_listed (f : Field) : ((m.value f).isSome → (lookup (listed before) f.label).isSome) ∧
      (f ≠ .bk → (lookup (listed before) f.label).isSome → (m.value f).isSome) := by
  by_cases hf : f = .bk
  · subst hf
    refine ⟨fun h => ?_, fun h => absurd rfl h⟩
    obtain ⟨v, hv⟩ := isSome_iff_exists.mp h
    rw [show m.value .bk = m.bundleKey from rfl, hm.key] at hv
    rw [lookup_listed]
    exact (key_some hv).resolve_left Bool.false_ne_true
  rw [hm.values f hf, holding_isSome]
  exact ⟨id, fun _ => id⟩

theorem fieldExists_new (hnew : ∀ en ∈ listed before, en.1 ≠ l.name) :
    fieldExists m l.label = false := by
  rw [← lookup_eq_none, ← not_isSome_iff_eq_none] at hnew
  rw [← Bool.not_eq_true]
  unfold fieldExists
  unfold Line.name at hnew
  generalize descriptor l.label = d at *
  cases d with
  | some f => exact fun h => hnew ((value_listed hm f).1 h)
  | none =>
    rw [← hm.vars] at hnew
    exact hnew

/-- The test misses a listed field only where an id has taken the bundle key away. -/
theorem new_of_not_fieldExists
    (hkey : descriptor l.label = some .bk → (lookup (listed before) Field.bk.label).isSome →
      m.bundleKey.isSome) (h : fieldExists m l.label = false) :
    ∀ en ∈ listed before, en.1 ≠ l.name := by
  rw [← lookup_eq_none, ← not_isSome_iff_eq_none]
  rw [← Bool.not_eq_true] at h
  unfold fieldExists at h
  unfold Line.name
  generalize descriptor l.label = d at *
  cases d with
  | some f =>
    refine fun hsome => h ?_
    by_cases hf : f = .bk
    · subst hf
      exact hkey rfl hsome
    · exact (value_listed hm f).2 hf hsome
  | none =>
    rw [← hm.vars]
    exact h

omit hm in
theorem holds_other (hdesc : descriptor l.label = some f) (hg : g ≠ f) : l.holds g = none := by
  rw [Line.holds, hdesc, if_neg]
  rintro ⟨⟩
  exact hg rfl

omit hm in
theorem holds_unknown (hdesc : descriptor l.label = none) (g : Field) : l.holds g = none := by
  rw [Line.holds, hdesc, if_neg nofun]

omit hm in
theorem holds_unread (hdesc : descriptor l.label = some f) (hread : f.read l.value = none) (g : Field) :
    l.holds g = none := by
  by_cases hg : g = f
  · subst hg
    rw [Line.holds, if_pos hdesc, hread]
  · exact holds_other hdesc hg

omit hm in
/-- What has been read is read from the first line that holds it, if it is not the bundle key. -/
theorem value_step (hvalues : ∀ f, f ≠ .bk → m.value f = holding before f)
    (hpar : Parsed m l.label l.value status m') (hl : l.Valid) (hstat : status ≠ .overflow) (g : Field)
    (hg : g ≠ .bk) : m'.value g = holding (before ++ [l]) g := by
  rw [holding_snoc, ← hvalues g hg]
  cases hpar with
  | refused hinvalid => exact absurd ⟨hl.label, hl.value⟩ hinvalid
  | full => exact absurd rfl hstat
  | twice hexists =>
    cases hhl : l.holds g with
    | none => rw [or_none]
    | some v =>
      rw [fieldExists, descriptor_of_holds (by rw [hhl]; rfl)] at hexists
      exact (or_of_isSome hexists).symm
  | unread hdesc _ _ hread => rw [holds_unread hdesc hread, or_none]
  | @known _ f _ hdesc hnew _ hread hv =>
    by_cases hf : g = f
    · subst hf
      rw [Manifest.write_value _ hv, hnew, none_or, Line.holds, if_pos hdesc, hread]
    · rw [Manifest.write_others _ hf (fun _ => hg), holds_other hdesc hf, or_none, value_vars]
  | unknown hdesc => rw [holds_unknown hdesc, or_none, value_vars]

omit hm in
theorem key_known (hdesc : descriptor l.label = some f) (hread : f.read l.value = some v) :
    ({ m with vars }.write f v).bundleKey = keyStep m.bundleKey l := by
  have hhl : l.holds f = some v := by rw [Line.holds, if_pos hdesc, hread]
  rw [keyStep]
  by_cases hid : f = .id
  · subst hid
    rw [hhl]
    rfl
  rw [holds_other hdesc (Ne.symm hid), if_neg (by simp)]
  by_cases hbk : f = .bk
  · subst hbk
    rw [hhl]
    rfl
  rw [holds_other hdesc (Ne.symm hbk)]
  exact Manifest.write_others (f := f) (g := .bk) (v := v) _ (Ne.symm hbk) (fun h => absurd h hid)

/-- A line that fits is listed, or skipped as malformed. -/
theorem parseField_fits (hl : l.Valid) (hfits : Fits before l) :
    ∃ status m', parseField m l.label l.value = some (status, m') ∧
      (status = .ok ∨ status = .malformed) ∧ Reads (before ++ [l]) m' := by
  have hex := fieldExists_new hm hfits.new
  have hlen : m.vars.length < maxVars := by
    rw [hm.vars]
    exact hfits.room
  have hnone := lookup_eq_none.mpr hfits.new
  rw [← hm.vars] at hnone
  obtain ⟨status, m', hfld, hpar⟩ := parseField_parsed hlen.le l.label l.value
  have hvalues := value_step hm.values hpar hl
  refine ⟨status, m', hfld, ?_⟩
  cases hpar with
  | refused hinvalid => exact absurd ⟨hl.label, hl.value⟩ hinvalid
  | twice hexists => cases hex.symm.trans hexists
  | full _ hfull => omega
  | @unread _ f hdesc _ _ hread hstat =>
    have hcore : f.core = false := by
      refine Bool.eq_false_iff.mpr fun hcore => ?_
      simpa [hread] using hfits.core f hdesc hcore
    have hstat : status = .malformed := by simpa [hcore] using hstat
    refine ⟨.inr hstat, ?_, hvalues (by simp [hstat]), ?_⟩
    · simp [listed, Line.field, hdesc, hread, hm.vars]
    · simp [foldl_append, hm.key, keyStep, holds_unread hdesc hread]
  | @known _ f v hdesc _ _ hread hv hvars =>
    rw [Line.name, hdesc] at hnone
    rw [setVar_new hnone hlen] at hvars
    cases hvars
    refine ⟨.inl rfl, ?_, hvalues (by simp), ?_⟩
    · simp [listed, Line.field, hdesc, hread, hm.vars]
    · rw [foldl_append, ← hm.key, foldl_cons, foldl_nil]
      exact key_known hdesc hread
  | unknown hdesc _ _ hvars =>
    rw [Line.name, hdesc] at hnone
    rw [setVar_new hnone hlen] at hvars
    cases hvars
    refine ⟨.inl rfl, ?_, hvalues (by simp), ?_⟩
    · simp [listed, Line.field, hdesc, hm.vars]
    · simp [foldl_append, hm.key, keyStep, holds_unknown hdesc]

/-- A line that the parser takes or skips fits. -/
theorem fits_of_parsed
    (hkey : descriptor l.label = some .bk → (lookup (listed before) Field.bk.label).isSome →
      m.bundleKey.isSome) (hpar : Parsed m l.label l.value status m')
    (hstat : status = .ok ∨ status = .malformed) : Fits before l := by
  cases hpar with
  | refused | twice | full => simp at hstat
  | unread hdesc hnew hroom _ hstatus =>
    refine ⟨new_of_not_fieldExists hm hkey ?_, hm.vars ▸ hroom, fun f hdesc' hcore => ?_⟩
    · simp [fieldExists, hdesc, Manifest.test, hnew]
    · cases hdesc.symm.trans hdesc'
      simp [hstatus, hcore] at hstat
  | known hdesc hnew hroom hread =>
    refine ⟨new_of_not_fieldExists hm hkey ?_, hm.vars ▸ hroom, fun f hdesc' _ => ?_⟩
    · simp [fieldExists, hdesc, Manifest.test, hnew]
    · cases hdesc.symm.trans hdesc'
      simp [hread]
  | unknown hdesc hnew hroom =>
    refine ⟨new_of_not_fieldExists hm hkey ?_, hm.vars ▸ hroom, fun f hdesc' _ => ?_⟩
    · simp [fieldExists, hdesc, hnew]
    · cases hdesc.symm.trans hdesc'

end Accepted

end Step

/-! ## Runs -/

/-- Nothing has made the manifest invalid. -/
def Clean (st : Progress) : Prop :=
  st.invalid = false ∧ st.hasInvalidCore = false ∧ st.hasDuplicate = false

/-- A bundle key, then an id, then again a bundle key: the second key is not noticed as
a duplicate. -/
def KeyRepeated (lines : List Line) : Prop :=
  ∃ k i k', [k, i, k'].Sublist lines ∧ (k.holds .bk).isSome ∧ (i.holds .id).isSome ∧
    descriptor k'.label = some .bk

theorem note_reads (h : Reads lines m) : Reads lines (st.note status m).manifest := by
  cases status <;> first | exact h | exact ⟨h.vars, fun f hf => by rw [← h.values f hf]; cases f <;> rfl, h.key⟩

theorem note_clean :
    Clean (st.note status m) ↔ Clean st ∧ status ≠ .syntaxError ∧ status ≠ .duplicateField ∧
      status ≠ .invalid ∧ status ≠ .overflow := by
  cases status <;> simp [Clean, Progress.note]

theorem status_of_clean (hlen : m.vars.length ≤ maxVars)
    (hfld : parseField m label value = some (status, m')) (hcl : Clean (st.note status m')) :
    (status = .ok ∨ status = .malformed) ∧ Parsed m label value status m' := by
  obtain ⟨-, hs1, hs2, hs3, hs4⟩ := note_clean.mp hcl
  obtain ⟨status', m'', hsome, hpar⟩ := parseField_parsed hlen label value
  cases hfld.symm.trans hsome
  refine ⟨?_, hpar⟩
  cases hpar with
  | refused | twice | full => simp_all
  | unread _ _ _ _ hstat => split at hstat <;> simp_all
  | known | unknown => exact .inl rfl

theorem stepLine_clean (h : stepLine st l = some st') (hcl : Clean st') : Clean st := by
  unfold stepLine at h
  split at h
  · cases h
    exact hcl
  obtain ⟨⟨status, m⟩, -, rfl⟩ := map_eq_some_iff.mp h
  exact (note_clean.mp hcl).1

theorem stepLine_some (hlen : st.manifest.vars.length ≤ maxVars) (herr : st.error = false) (l : Line) :
    ∃ st', stepLine st l = some st' ∧ st'.manifest.vars.length ≤ maxVars ∧ st'.error = false := by
  unfold stepLine
  split
  · exact ⟨st, rfl, hlen, herr⟩
  obtain ⟨status, m', hfld, hok, hlen', -⟩ := parseField_some hlen l.label l.value
  refine ⟨_, by rw [hfld, map_some], ?_, ?_⟩
  · rw [note_vars]
    exact hlen'
  rw [note_error st m' hok]
  exact herr

theorem keyRepeated_front (h : ¬KeyRepeated (before ++ [l])) : ¬KeyRepeated before := by
  rintro ⟨k, i, k', hsub, hk, hi, hk'⟩
  exact h ⟨k, i, k', hsub.trans (sublist_append_left _ _), hk, hi, hk'⟩

/-- A listed bundle key is set when another one comes, unless an id was in between. -/
theorem key_kept (hm : Reads before m) (hkey : ¬KeyRepeated (before ++ [l]))
    (hdesc : descriptor l.label = some .bk)
    (hlst : (lookup (listed before) Field.bk.label).isSome) : m.bundleKey.isSome := by
  cases hnone : m.bundleKey with
  | some v => rfl
  | none =>
    rw [hm.key] at hnone
    obtain ⟨k, i, hsub, hk, hi⟩ := key_followed hnone (lookup_listed.mp hlst)
    exact absurd ⟨k, i, l, hsub.append (List.Sublist.refl [l]), hk, hi, hdesc⟩ hkey

/-- The run over well formed lines: it finds nothing wrong exactly if they are
accepted, and then the manifest holds what they say. -/
theorem run_spec (hls : ∀ l ∈ lines, l.Valid) (hkey : ¬KeyRepeated lines) :
    ∃ st, runLines (.start .fresh) lines = some st ∧ st.manifest.vars.length ≤ maxVars ∧
      st.error = false ∧ (Clean st ↔ Accepted lines) ∧ (Accepted lines → Reads lines st.manifest) := by
  induction lines using List.reverseRecOn with
  | nil =>
    refine ⟨.start .fresh, rfl, Nat.zero_le _, rfl, ?_, fun _ => reads_fresh⟩
    exact ⟨fun _ => ⟨nofun, nofun, List.Pairwise.nil, nofun⟩, fun _ => ⟨rfl, rfl, rfl⟩⟩
  | append_singleton before l ih =>
    have hl := hls l (by simp)
    obtain ⟨st, hrun, hlen, herr, hcl, hrds⟩ :=
      ih (fun l' hl' => hls l' (by simp [hl'])) (keyRepeated_front hkey)
    obtain ⟨st', hstep, hlen', herr'⟩ := stepLine_some hlen herr l
    have hrun' : runLines (.start .fresh) (before ++ [l]) = some st' := by
      rw [runLines, foldlM_append, ← runLines, hrun]
      change (stepLine st l).bind _ = _
      rw [hstep]
      rfl
    refine ⟨st', hrun', hlen', herr', ?_⟩
    by_cases hbef : Accepted before
    · have hst := hcl.mpr hbef
      have hm := hrds hbef
      rw [stepLine, if_neg (by simp [hst.1, herr])] at hstep
      obtain ⟨⟨status, m'⟩, hfld, rfl⟩ := map_eq_some_iff.mp hstep
      by_cases hfits : Fits before l
      · obtain ⟨status', m'', hfld', hstat, hm'⟩ := parseField_fits hm hl hfits
        rw [hfld] at hfld'
        cases hfld'
        have hnote : Clean (st.note status m') := by
          rw [note_clean]
          rcases hstat with rfl | rfl <;> simp [hst]
        exact ⟨⟨fun _ => accepted_snoc.mpr ⟨hbef, hl, hfits⟩, fun _ => hnote⟩,
          fun _ => note_reads hm'⟩
      have hnot : ¬Accepted (before ++ [l]) := fun h => hfits (accepted_snoc.mp h).2.2
      refine ⟨⟨fun hnote => ?_, fun h => absurd h hnot⟩, fun h => absurd h hnot⟩
      obtain ⟨hstat, hpar⟩ := status_of_clean hlen hfld hnote
      exact absurd (fits_of_parsed hm (key_kept hm hkey) hpar hstat) hfits
    have hnot : ¬Accepted (before ++ [l]) := fun h => hbef (accepted_snoc.mp h).1
    refine ⟨⟨fun h => ?_, fun h => absurd h hnot⟩, fun h => absurd h hnot⟩
    exact absurd (hcl.mp (stepLine_clean hstep h)) hbef

/-! ## Texts -/

def body (data : Text) : Text := data.takeWhile (· != 0)

theorem nul_not_mem_lines (hls : ∀ l ∈ lines, l.Valid) : (0 : UInt8) ∉ lines.flatMap Line.bytes := by
  intro h
  obtain ⟨l, hl, hmem⟩ := mem_flatMap.mp h
  exact nul_not_mem_bytes (hls l hl) hmem

/-- The text behind the body starts with the NUL, if there is one. -/
theorem body_split (data : Text) : ∃ tail, data = body data ++ tail ∧ tail.head?.all (· == 0) = true := by
  refine ⟨data.dropWhile (· != 0), takeWhile_append_dropWhile.symm, ?_⟩
  cases h : data.dropWhile (· != 0) with
  | nil => rfl
  | cons c tail =>
    have hhead := head?_dropWhile_not (p := (· != 0)) (l := data)
    rw [h] at hhead
    simpa using hhead

theorem body_lines (hls : ∀ l ∈ lines, l.Valid) (hrest : rest.head?.all (· == 0) = true) :
    body (lines.flatMap Line.bytes ++ rest) = lines.flatMap Line.bytes := by
  have hall : ∀ c ∈ lines.flatMap Line.bytes, (c != 0) = true := by
    intro c hc
    rw [bne_iff_ne]
    rintro rfl
    exact nul_not_mem_lines hls hc
  rw [body, takeWhile_append_of_pos hall]
  cases rest with
  | nil => simp
  | cons c rest =>
    have hc : c = 0 := by simpa using hrest
    simp [hc]

/-- The number of bytes that `manifest_body_bytes` counts: the text and its NUL. -/
def bodyCount (data : Text) : Nat := min data.length ((body data).length + 1)

theorem bodyCount_eq {tail : Text} (h : data = body data ++ tail)
    (htail : tail.head?.all (· == 0) = true) :
    data.length - tail.length + (if tail = [] then 0 else 1) = bodyCount data := by
  have hlen := congrArg List.length h
  rw [length_append] at hlen
  unfold bodyCount
  cases tail with
  | nil =>
    rw [length_nil] at hlen ⊢
    rw [if_pos rfl]
    omega
  | cons c tail =>
    rw [length_cons] at hlen ⊢
    rw [if_neg (cons_ne_nil c tail)]
    omega

/-- The lines that a text consists of. -/
def Spells (lines : List Line) (data : Text) : Prop :=
  (∀ l ∈ lines, l.Valid) ∧ body data = lines.flatMap Line.bytes

theorem finish_clean (herr : st.error = false) (hrest : rest.head?.all (· == 0) = true)
    (hcl : Clean st) :
    finish data st rest = (0, { st.manifest with
      bodyBytes := data.length - rest.length + if rest = [] then 0 else 1 }) := by
  have hany : rest.head?.any (· != 0) = false := by
    cases rest with
    | nil => rfl
    | cons c rest => simpa using hrest
  obtain ⟨h1, h2, h3⟩ := hcl
  simp [finish, herr, hany, h1, h2, h3]

theorem finish_not_clean (herr : st.error = false) (hcl : ¬Clean st) :
    finish data st rest = (1, st.manifest.clear) := by
  have hfl : (rest.head?.any (· != 0) || st.invalid || st.hasInvalidCore || st.hasDuplicate) = true := by
    by_contra hnot
    simp only [Bool.not_eq_true, Bool.or_eq_false_iff] at hnot
    exact hcl ⟨hnot.1.1.2, hnot.1.2, hnot.2⟩
  simp [finish, herr, hfl]

/-- The parser on the text of well formed lines. -/
theorem parse_accepted (hdata : data.length ≤ maxBytes)
    (hbody : body data = lines.flatMap Line.bytes) (hacc : Accepted lines)
    (hkey : ¬KeyRepeated lines) :
    ∃ m, Reads lines m ∧
      manifestParse .fresh data = some (0, { m with bodyBytes := bodyCount data }) := by
  obtain ⟨tail, hspl, htail⟩ := body_split data
  obtain ⟨st, hrun, -, herr, hcl, hrds⟩ := run_spec hacc.valid hkey
  obtain ⟨rest, hloop, hrest⟩ := parseLoop_lines hacc.valid htail _ hrun
  have hst := hcl.mpr hacc
  have hend : rest = tail := hrest hst.1 herr
  subst hend
  rw [← hbody, ← hspl] at hloop
  obtain ⟨st', rest', hloop', -, -, hpar⟩ := manifestParse_some data hdata
  rw [hloop] at hloop'
  cases hloop'
  refine ⟨st.manifest, hrds hacc, ?_⟩
  rw [hpar, finish_clean herr htail hst, bodyCount_eq hspl htail]

/-- A manifest that the parser accepts consists of lines in which it has found nothing
wrong. -/
theorem parse_zero (hdata : data.length ≤ maxBytes) (h : manifestParse .fresh data = some (0, m)) :
    ∃ lines st, Spells lines data ∧ runLines (.start .fresh) lines = some st ∧ Clean st ∧
      m = { st.manifest with bodyBytes := bodyCount data } := by
  obtain ⟨st, rest, hloop, herr, -, hpar⟩ := manifestParse_some data hdata
  rw [hpar] at h
  have hcl : Clean st := by
    by_cases hcl : Clean st
    · exact hcl
    rw [finish_not_clean herr hcl] at h
    cases h
  obtain ⟨lines, hls, hdatum, hrun, hrest⟩ := parseLoop_inv hloop hcl.1 herr
  have hbody : body data = lines.flatMap Line.bytes := by
    rw [hdatum]
    exact body_lines hls hrest
  have hspl : data = body data ++ rest := hbody ▸ hdatum
  rw [finish_clean herr hrest hcl, bodyCount_eq hspl hrest] at h
  cases h
  exact ⟨lines, st, ⟨hls, hbody⟩, hrun, hcl, rfl⟩

/-- Every text is parsed without a failed assertion. It is accepted exactly if the
bytes before the first NUL are lines that are accepted, and then these are the fields
that the manifest lists. -/
theorem manifest_grammar (data : Text) (hdata : data.length ≤ maxBytes) :
    ∃ ret m, manifestParse .fresh data = some (ret, m) ∧ (ret = 0 ∨ ret = 1) ∧
      ((∀ lines, Spells lines data → ¬KeyRepeated lines) →
        (ret = 0 ↔ ∃ lines, body data = lines.flatMap Line.bytes ∧ Accepted lines) ∧
        ∀ lines, body data = lines.flatMap Line.bytes → Accepted lines →
          m.vars = listed lines ∧ m.bodyBytes = bodyCount data) := by
  have hpar : ∃ ret m, manifestParse .fresh data = some (ret, m) ∧ (ret = 0 ∨ ret = 1) := by
    obtain ⟨st, rest, hloop, herr, -, hpar⟩ := manifestParse_some data hdata
    by_cases hcl : Clean st
    · obtain ⟨lines, -, -, -, hrest⟩ := parseLoop_inv hloop hcl.1 herr
      exact ⟨_, _, hpar.trans (by rw [finish_clean herr hrest hcl]), .inl rfl⟩
    · exact ⟨_, _, hpar.trans (by rw [finish_not_clean herr hcl]), .inr rfl⟩
  obtain ⟨ret, m, hpar, hret⟩ := hpar
  refine ⟨ret, m, hpar, hret, fun hkey => ?_⟩
  have hacc : ∀ lines, body data = lines.flatMap Line.bytes → Accepted lines →
      ret = 0 ∧ m.vars = listed lines ∧ m.bodyBytes = bodyCount data := by
    intro lines hbody hacce
    obtain ⟨m', hrds, hpar'⟩ :=
      parse_accepted hdata hbody hacce (hkey lines ⟨hacce.valid, hbody⟩)
    rw [hpar] at hpar'
    cases hpar'
    exact ⟨rfl, hrds.vars, rfl⟩
  refine ⟨⟨?_, ?_⟩, fun lines hbody hacce => (hacc lines hbody hacce).2⟩
  · rintro rfl
    obtain ⟨lines, st, hspe, hrun, hcl, -⟩ := parse_zero hdata hpar
    obtain ⟨st', hrun', -, -, hiff, -⟩ := run_spec hspe.1 (hkey lines hspe)
    rw [hrun] at hrun'
    cases hrun'
    exact ⟨lines, hspe.2, hiff.mp hcl⟩
  rintro ⟨lines, hbody, hacce⟩
  exact (hacc lines hbody hacce).1

theorem length_le_count (lines : List Line) : lines.length ≤ (lines.flatMap Line.bytes).count 10 := by
  induction lines with
  | nil => exact Nat.zero_le _
  | cons l lines ih =>
    rw [length_cons, flatMap_cons, count_append, Line.bytes, count_append, count_singleton_self]
    omega

def twoLines : Text := ascii "name=x\nversion=7\n"

theorem manifest_grammar_two : ∃ ret m, manifestParse .fresh twoLines = some (ret, m) ∧
    (ret = 0 ↔ ∃ lines, body twoLines = lines.flatMap Line.bytes ∧ Accepted lines) ∧
    ∀ lines, body twoLines = lines.flatMap Line.bytes → Accepted lines →
      m.vars = listed lines ∧ m.bodyBytes = bodyCount twoLines := by
  obtain ⟨ret, m, hpar, -, hgram⟩ := manifest_grammar twoLines (by decide)
  refine ⟨ret, m, hpar, hgram ?_⟩
  -- A key, an id and a key are three lines.
  rintro lines ⟨-, hbody⟩ ⟨k, i, k', hsub, -⟩
  have hlen : 3 ≤ (body twoLines).count 10 := by
    rw [hbody]
    exact hsub.length_le.trans (length_le_count lines)
  exact absurd hlen (by decide)

/-- A label may be repeated after a malformed value, but not before one; and a known
field is listed under its own spelling, with its value printed anew. -/
theorem manifest_grammar_spelling :
    (manifestParse .fresh (ascii "date=x\ndate=5\n")).map (fun r => (r.1, r.2.vars)) =
      some (0, [(ascii "date", ascii "5")]) ∧
    (manifestParse .fresh (ascii "date=5\ndate=x\n")).map (fun r => r.1) = some 1 ∧
    (manifestParse .fresh (ascii "VERSION=007\n")).map (fun r => (r.1, r.2.vars)) =
      some (0, [(ascii "version", ascii "7")]) := by
  decide +kernel

end ManifestGrammar
