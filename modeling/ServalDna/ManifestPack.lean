import ServalDna.FoldRuns
import ServalDna.ManifestGrammar

/-!
# Packing a manifest

`rhizome_manifest_pack_variables` writes the listed variables as lines of text. The
text is all that another node gets, so the members of a manifest have to agree with
its variables: a manifest that is built with setters and then packed should be read
back with the same members.
-/
namespace ManifestPack

open FoldRuns TextCodec ManifestFields ManifestParse ManifestGrammar Option
open RhizomeManifest (PayloadEncryption sizeUnset)
open List hiding lookup replace

/-! ## Building a manifest -/

abbrev CString := { s : Text // (0 : UInt8) ∉ s }

/-- A field that has no descriptor, as `rhizome_manifest_parse_field` lets it in. -/
structure Unknown where
  label : Text
  value : Text
  unknown : descriptor label = none
  labelValid : fieldLabelIsValid label = true
  valueValid : fieldValueIsValid value = true

/-- The calls that change the fields. -/
inductive Call where
  | setId (bid : Option (Binary 32))
  | setVersion (version : UInt64) | delVersion
  | setFilesize (size : UInt64) | delFilesize
  | setFilehash (hash : Option (Binary 64)) | delFilehash
  | setTail (tail : UInt64)
  | setBundleKey (bk : Option (Binary 32)) | delBundleKey
  | setService (service : Option CString) | delService
  | setName (name : Option CString) | delName
  | setDate (date : Int64) | delDate
  | setSender (sid : Option (Binary 32)) | delSender
  | setRecipient (sid : Option (Binary 32)) | delRecipient
  | setCrypt (flag : PayloadEncryption)
  | setUnknown (field : Unknown) | delUnknown (label : Text) (unknown : descriptor label = none)

/-- `none` is a failed assertion. -/
def Call.run (m : Manifest) : Call → Option Manifest
  | setId bid => m.setId bid
  | setVersion version => m.setVersion version
  | delVersion => m.delVersion
  | setFilesize size => m.setFilesize size
  | delFilesize => m.delFilesize
  | setFilehash hash => m.setFilehash hash
  | delFilehash => m.delFilehash
  | setTail tail => m.setTail tail
  | setBundleKey bk => m.setBundleKey bk
  | delBundleKey => m.delBundleKey
  | setService service => m.setService (service.map (·.val))
  | delService => m.delService
  | setName name => m.setName (name.map (·.val))
  | delName => m.delName
  | setDate date => m.setDate date
  | delDate => m.delDate
  | setSender sid => m.setSender sid
  | delSender => m.delSender
  | setRecipient sid => m.setRecipient sid
  | delRecipient => m.delRecipient
  | setCrypt flag => m.setCrypt flag
  -- the result NULL changes nothing
  | setUnknown field => some ((m.set field.label field.value).getD m)
  | delUnknown label _ => some (m.del label)

def build (calls : List Call) : Option Manifest := calls.foldlM Call.run .fresh

/-! ## Packing -/

def packVariables (vars : List (Text × Text)) : Text :=
  vars.flatMap fun entry => entry.1 ++ 61 :: entry.2 ++ [10]

/-- The bytes that `rhizome_manifest_pack_variables` leaves in the buffer; `none` if
they do not fit with their NUL. -/
def manifestPackVariables (m : Manifest) : Option Text :=
  if (packVariables m.vars).length < maxBytes then some (packVariables m.vars ++ [0]) else none

/-! ## The list of variables -/

section Vars

variable {vars vars' : List (Text × Text)}

theorem others_ne {rest : List (Text × Text)} (hfst : label ∉ rest.map Prod.fst) (h : label = var) :
    ∀ e ∈ rest, e.1 ≠ var := by
  intro e he heq
  exact hfst (List.mem_map.mpr ⟨e, he, heq.trans h.symm⟩)

theorem replace_perm (hmem : (lookup vars var).isSome) :
    replace vars var value ~ (var, value) :: remove vars var := by
  induction vars with
  | nil => cases hmem
  | cons first rest ih =>
    rw [replace, remove]
    by_cases hfst : first.1 = var
    · rw [if_pos hfst, hfst, eraseP_cons_of_pos (by simp [hfst])]
    rw [lookup, find?_cons_of_neg (by simp [hfst])] at hmem
    rw [if_neg hfst, eraseP_cons_of_neg (by simp [hfst])]
    exact ((ih hmem).cons first).trans (.swap ..)

/-- A variable that is set is listed once, and the others stay. -/
theorem setVar_perm (h : setVar vars var value = some vars') :
    vars' ~ (var, value) :: remove vars var := by
  unfold setVar at h
  split at h
  · next hmem =>
    cases h
    exact replace_perm hmem
  next hnone =>
  split at h <;> cases h
  have hnew := lookup_eq_none.mp (not_isSome_iff_eq_none.mp hnone)
  rw [remove, eraseP_of_forall_not (by simpa using hnew)]
  exact perm_append_singleton _ _

theorem mem_remove (hvars : (vars.map Prod.fst).Nodup) :
    en ∈ remove vars var ↔ en ∈ vars ∧ en.1 ≠ var := by
  induction vars with
  | nil => simp [remove]
  | cons first rest ih =>
    rw [map_cons, nodup_cons] at hvars
    by_cases hfst : first.1 = var
    · rw [remove, eraseP_cons_of_pos (by simp [hfst]), mem_cons]
      constructor
      · exact fun h => ⟨.inr h, others_ne hvars.1 hfst en h⟩
      rintro ⟨rfl | h, hne⟩
      · exact absurd hfst hne
      · exact h
    rw [remove, eraseP_cons_of_neg (by simp [hfst]), ← remove, mem_cons, mem_cons, ih hvars.2]
    constructor
    · rintro (rfl | h)
      · exact ⟨.inl rfl, hfst⟩
      · exact ⟨.inr h.1, h.2⟩
    rintro ⟨rfl | h, hne⟩
    · exact .inl rfl
    · exact .inr ⟨h, hne⟩

/-- A variable that is set is listed once, and the others stay. -/
theorem setVar_mem (hvars : (vars.map Prod.fst).Nodup) (h : setVar vars var value = some vars') :
    en ∈ vars' ↔ en = (var, value) ∨ (en ∈ vars ∧ en.1 ≠ var) := by
  rw [(setVar_perm h).mem_iff, mem_cons, mem_remove hvars]

theorem setVar_labels (hvars : (vars.map Prod.fst).Nodup) (hroom : vars.length ≤ maxVars)
    (h : setVar vars var value = some vars') :
    (vars'.map Prod.fst).Nodup ∧ vars'.length ≤ maxVars := by
  constructor
  · rw [((setVar_perm h).map Prod.fst).nodup_iff, map_cons, nodup_cons]
    refine ⟨fun hmem => ?_, hvars.sublist (eraseP_sublist.map Prod.fst)⟩
    obtain ⟨e, he, heq⟩ := List.mem_map.mp hmem
    exact ((mem_remove hvars).mp he).2 heq
  unfold setVar at h
  split at h
  · cases h
    rwa [replace_length]
  split at h <;> cases h
  rw [length_append, length_singleton]
  omega

theorem remove_labels (hvars : (vars.map Prod.fst).Nodup) (hroom : vars.length ≤ maxVars) :
    ((remove vars var).map Prod.fst).Nodup ∧ (remove vars var).length ≤ maxVars := by
  have hsub : (remove vars var).Sublist vars := eraseP_sublist
  exact ⟨hvars.sublist (hsub.map Prod.fst), hsub.length_le.trans hroom⟩

end Vars

/-! ## Variables and members -/

/-- A value without a NUL in its text. -/
def Field.Printable (f : Field) (v : f.Value) : Prop :=
  f.settable v = true ∧ (0 : UInt8) ∉ f.print v

/-- What an entry of the list stands for. The variables of the id and of the bundle key
may be listed without their member. -/
inductive Entry (m : Manifest) : Text × Text → Prop where
  | known {f : Field} {v : f.Value} : Field.Printable f v →
      (m.value f = some v ∨ m.value f = none ∧ (f = .id ∨ f = .bk)) → Entry m (f.label, f.print v)
  | unknown {label value : Text} : descriptor label = none → fieldLabelIsValid label = true →
      fieldValueIsValid value = true → Entry m (label, value)

structure Consistent (m : Manifest) : Prop where
  distinct : (m.vars.map Prod.fst).Nodup
  room : m.vars.length ≤ maxVars
  entries : ∀ entry ∈ m.vars, Entry m entry
  listed : ∀ f v, m.value f = some v → (f.label, f.print v) ∈ m.vars

theorem consistent_fresh : Consistent .fresh := by
  refine ⟨nodup_nil, Nat.zero_le _, nofun, ?_⟩
  intro f v h
  cases f <;> cases h

/-- An entry stays what it is if its field keeps its value. -/
theorem entry_keep (h : Entry m entry) (hkeep : ∀ g, g.label = entry.1 → m'.value g = m.value g ∨
      m'.value g = none ∧ (g = .id ∨ g = .bk)) : Entry m' entry := by
  cases h with
  | unknown hdesc hlab hval => exact .unknown hdesc hlab hval
  | known hv hval =>
    refine .known hv ?_
    rcases hkeep _ rfl with hsame | hnone
    · rw [hsame]
      exact hval
    · exact .inr hnone

/-- A setter that lists a value. -/
theorem consistent_set (hm : Consistent m) (hv : Field.Printable f v)
    (hvars : setVar m.vars f.label (f.print v) = some m'.vars) (hval : m'.value f = some v)
    (hoths : ∀ g, g ≠ f → m'.value g = m.value g ∨ m'.value g = none ∧ (g = .id ∨ g = .bk)) :
    Consistent m' := by
  obtain ⟨hdis, hroom⟩ := setVar_labels hm.distinct hm.room hvars
  refine ⟨hdis, hroom, ?_, ?_⟩
  · intro en hent
    rcases (setVar_mem hm.distinct hvars).mp hent with rfl | ⟨hent, hne⟩
    · exact .known hv (.inl hval)
    refine entry_keep (hm.entries en hent) ?_
    intro g hg
    exact hoths g fun h => hne (by rw [← hg, h])
  intro g w hw
  by_cases hg : g = f
  · subst hg
    rw [hval] at hw
    cases hw
    exact (setVar_mem hm.distinct hvars).mpr (.inl rfl)
  have hlst : m.value g = some w := by
    rcases hoths g hg with hsame | ⟨hnone, -⟩
    · rw [← hsame, hw]
    rw [hnone] at hw
    cases hw
  refine (setVar_mem hm.distinct hvars).mpr (.inr ⟨hm.listed g w hlst, ?_⟩)
  exact fun h => hg (label_injective h)

/-- A setter that takes a variable from the list. -/
theorem consistent_del (hm : Consistent m) (hvars : m'.vars = remove m.vars f.label)
    (hval : m'.value f = none) (hoths : ∀ g, g ≠ f → m'.value g = m.value g) : Consistent m' := by
  obtain ⟨hdis, hroom⟩ := remove_labels hm.distinct hm.room
  rw [← hvars] at hdis hroom
  refine ⟨hdis, hroom, ?_, ?_⟩
  · intro en hent
    rw [hvars, mem_remove hm.distinct] at hent
    refine entry_keep (hm.entries en hent.1) ?_
    intro g hg
    exact .inl (hoths g fun h => hent.2 (by rw [← hg, h]))
  intro g w hw
  have hg : g ≠ f := by
    rintro rfl
    rw [hval] at hw
    cases hw
  rw [hoths g hg] at hw
  rw [hvars, mem_remove hm.distinct]
  exact ⟨hm.listed g w hw, fun h => hg (label_injective h)⟩

/-- A member that changes with no variable: the id that is taken away. -/
theorem consistent_same (hm : Consistent m) (hvars : m'.vars = m.vars)
    (hoths : ∀ g, m'.value g = m.value g ∨ m'.value g = none ∧ (g = .id ∨ g = .bk)) :
    Consistent m' := by
  refine ⟨by rw [hvars]; exact hm.distinct, by rw [hvars]; exact hm.room, ?_, ?_⟩
  · intro en hent
    rw [hvars] at hent
    exact entry_keep (hm.entries en hent) fun g _ => hoths g
  intro g w hw
  rw [hvars]
  rcases hoths g with hsame | ⟨hnone, -⟩
  · exact hm.listed g w (hsame ▸ hw)
  rw [hnone] at hw
  cases hw

theorem consistent_write (hm : Consistent m) (hv : Field.Printable f v)
    (h : (m.set f.label (f.print v)).map (fun m => m.write f v) = some m') : Consistent m' := by
  obtain ⟨m1, hset, rfl⟩ := map_eq_some_iff.mp h
  obtain ⟨vars, hvars, rfl⟩ := map_eq_some_iff.mp hset
  refine consistent_set hm hv ?_ (Manifest.write_value _ hv.1) ?_
  · rw [Manifest.write_vars]
    exact hvars
  intro g hg
  by_cases hkey : f = .id ∧ g = .bk
  · obtain ⟨rfl, rfl⟩ := hkey
    exact .inr ⟨rfl, .inr rfl⟩
  rw [Manifest.write_others _ hg fun hf hgk => hkey ⟨hf, hgk⟩, value_vars]
  exact .inl rfl

/-! ### The text of a value -/

variable {f : Field} {l : Line}

theorem tohex_chars (h : c ∈ tohex bytes) : c ≠ 0 ∧ c ≠ 10 ∧ c ≠ 13 ∧ c ≠ 98 := by
  obtain ⟨d, hd, rfl⟩ := mem_tohex h
  have all : ∀ d : Fin 16, hexdigitUpper d ≠ 0 ∧ hexdigitUpper d ≠ 10 ∧ hexdigitUpper d ≠ 13 ∧
      hexdigitUpper d ≠ 98 := by decide
  exact all ⟨d, hd⟩

theorem decimal_chars (h : c ∈ decimal n) : c ≠ 0 ∧ c ≠ 10 ∧ c ≠ 13 := by
  have hdig := isdigit_of_mem_decimal h
  refine ⟨?_, ?_, ?_⟩ <;> rintro rfl <;> exact absurd hdig (by decide)

theorem service_chars (hs : isManifestService s = true) (h : c ∈ s) : c ≠ 0 ∧ c ≠ 10 ∧ c ≠ 13 := by
  simp only [isManifestService, Bool.and_eq_true, List.all_eq_true] at hs
  have hc := hs.2 c h
  refine ⟨?_, ?_, ?_⟩ <;> rintro rfl <;> exact absurd hc (by decide)

theorem name_chars (hs : isManifestName s = true) (h : c ∈ s) : c ≠ 10 ∧ c ≠ 13 := by
  simp only [isManifestName, List.all_eq_true, Bool.and_eq_true, bne_iff_ne] at hs
  exact hs c h

/-- The text of a value has no line ends, and no NUL if a name has none. -/
theorem print_chars (hv : f.settable v = true) (hc : c ∈ f.print v) :
    c ≠ 10 ∧ c ≠ 13 ∧ (f ≠ .name → c ≠ 0) := by
  cases f with
  | id | bk | sender | recipient | filehash =>
    have h := tohex_chars hc
    exact ⟨h.2.1, h.2.2.1, fun _ => h.1⟩
  | version | filesize | tail | date =>
    have h := decimal_chars hc
    exact ⟨h.2.1, h.2.2, fun _ => h.1⟩
  | service =>
    have h := service_chars hv hc
    exact ⟨h.2.1, h.2.2, fun _ => h.1⟩
  | name =>
    have h := name_chars hv hc
    exact ⟨h.1, h.2, fun h => absurd rfl h⟩
  | crypt =>
    have hcry : c = 48 ∨ c = 49 := by
      cases v
      · exact .inl (mem_singleton.mp hc)
      · exact .inr (mem_singleton.mp hc)
    rcases hcry with rfl | rfl <;> decide

theorem printable (hv : f.settable v = true) (hf : f ≠ .name) : Field.Printable f v :=
  ⟨hv, fun h => (print_chars hv h).2.2 hf rfl⟩

theorem not_broadcast : ¬(ascii "broadcast").isPrefixOf (tohex bytes) = true := by
  intro h
  have hsub := (List.isPrefixOf_iff_prefix.mp h).subset
  have hmem : (98 : UInt8) ∈ tohex bytes := hsub (by decide)
  exact (tohex_chars hmem).2.2.2 rfl

/-- The parser of a field reads what its setter has printed. -/
theorem read_print (hv : f.settable v = true) (hf : f ≠ .date) : f.read (f.print v) = some v := by
  cases f with
  | id | bk | filehash => exact strToBinary_tohex v
  | sender | recipient =>
    change strToSid (tohex v.val) = some v
    rw [strToSid, if_neg not_broadcast]
    exact strToBinary_tohex v
  | version | filesize | tail =>
    exact filter_eq_some_iff.mpr ⟨strToUint64_decimal v, hv⟩
  | service => exact if_pos hv
  | name => rfl
  | crypt => cases v <;> rfl
  | date => exact absurd rfl hf

/-- A date is printed without its sign, and too large a number is not read. -/
theorem read_print_date (date : Int64) :
    Field.date.read (Field.date.print date) = if 0 ≤ date then some date else none := by
  have hnat : date.toUInt64.toNat = date.toBitVec.toNat := rfl
  have hint : date.toInt = if 2 * date.toBitVec.toNat < 2 ^ 64 then (date.toBitVec.toNat : Int)
      else (date.toBitVec.toNat : Int) - (2 ^ 64 : Nat) := BitVec.toInt_eq_toNat_cond _
  have hlt := date.toBitVec.isLt
  change (strToInt64 (decimal date.toUInt64.toNat)).map Int64.ofInt = _
  have hle : 0 ≤ date ↔ 0 ≤ date.toInt := Int64.le_iff_toInt_le
  rw [strToInt64_decimal, hnat]
  generalize date.toBitVec.toNat = n at *
  by_cases hn : n < 2 ^ 63
  · rw [if_pos (by omega)] at hint
    rw [if_pos hn, if_pos (hle.mpr (by omega)), map_some, ← hint, Int64.ofInt_toInt]
  · rw [if_neg hn, if_neg (fun h => absurd (hle.mp h) (by omega)), map_none]

/-! ### Calls -/

section Calls

variable (hm : Consistent m)

include hm

omit hm in
theorem label_ne (hlab : descriptor label = none) (g : Field) : g.label ≠ label := by
  intro h
  rw [← h, descriptor_label] at hlab
  cases hlab

theorem consistent_unknown (field : Unknown)
    (hvars : setVar m.vars field.label field.value = some vars) : Consistent { m with vars } := by
  obtain ⟨hdis, hroom⟩ := setVar_labels hm.distinct hm.room hvars
  refine ⟨hdis, hroom, ?_, ?_⟩
  · intro en hent
    rcases (setVar_mem hm.distinct hvars).mp hent with rfl | ⟨hent, -⟩
    · exact .unknown field.unknown field.labelValid field.valueValid
    · exact entry_keep (hm.entries en hent) fun g _ => .inl (value_vars g)
  intro g w hw
  rw [value_vars] at hw
  exact (setVar_mem hm.distinct hvars).mpr (.inr ⟨hm.listed g w hw, label_ne field.unknown g⟩)

theorem consistent_delUnknown (hlab : descriptor label = none) : Consistent (m.del label) := by
  obtain ⟨hdis, hroom⟩ := remove_labels hm.distinct hm.room
  refine ⟨hdis, hroom, ?_, ?_⟩
  · intro en hent
    exact entry_keep (hm.entries en ((mem_remove hm.distinct).mp hent).1) fun g _ => .inl (value_vars g)
  intro g w hw
  rw [Manifest.del, value_vars] at hw
  exact (mem_remove hm.distinct).mpr ⟨hm.listed g w hw, label_ne hlab g⟩

/-- The deleters take away a member that is set together with its variable. -/
theorem consistent_delMember {set : Bool} {absent : Prop} [Decidable absent]
    (h : (if set then some deleted else if absent then some m else none) = some m')
    (hvars : deleted.vars = remove m.vars f.label) (hval : deleted.value f = none)
    (hoths : ∀ g, g ≠ f → deleted.value g = m.value g) : Consistent m' := by
  split at h
  · cases h
    exact consistent_del hm hvars hval hoths
  split at h <;> cases h
  exact hm

theorem consistent_delBundleKey (h : m.delBundleKey = some m') : Consistent m' :=
  consistent_delMember (f := .bk) hm h rfl rfl fun g hg => by cases g <;> trivial

theorem consistent_delService (h : m.delService = some m') : Consistent m' :=
  consistent_delMember (f := .service) hm h rfl rfl fun g hg => by
    cases g <;> trivial

theorem consistent_delName (h : m.delName = some m') : Consistent m' :=
  consistent_delMember (f := .name) hm h rfl rfl fun g hg => by cases g <;> trivial

theorem consistent_delDate (h : m.delDate = some m') : Consistent m' :=
  consistent_delMember (f := .date) hm h rfl rfl fun g hg => by cases g <;> trivial

theorem consistent_delSender (h : m.delSender = some m') : Consistent m' :=
  consistent_delMember (f := .sender) hm h rfl rfl fun g hg => by
    cases g <;> trivial

theorem consistent_delRecipient (h : m.delRecipient = some m') : Consistent m' :=
  consistent_delMember (f := .recipient) hm h rfl rfl fun g hg => by
    cases g <;> trivial

theorem consistent_setId (h : m.setId bid = some m') : Consistent m' := by
  cases bid with
  | some bid =>
    rw [Manifest.setId] at h
    split at h
    · cases h
      exact hm
    · exact consistent_write (f := .id) hm (printable rfl (by decide)) h
  | none =>
    rw [Manifest.setId] at h
    split at h
    · cases h
      refine consistent_same hm rfl fun g => ?_
      cases g with
      | id => exact .inr ⟨rfl, .inl rfl⟩
      | bk => exact .inr ⟨rfl, .inr rfl⟩
      | _ => exact .inl rfl
    cases h
    exact hm

theorem consistent_setVersion (version : UInt64)
    (h : m.setVersion version = some m') : Consistent m' := by
  by_cases hv : version = 0
  · rw [Manifest.setVersion, if_neg (not_not.mpr hv)] at h
    cases h
    refine consistent_del (f := .version) hm rfl (if_pos hv) fun g hg => ?_
    cases g <;> trivial
  rw [Manifest.setVersion, if_pos hv] at h
  exact consistent_write (f := .version) hm (printable (Manifest.isVersion_iff.mpr hv) (by decide)) h

theorem consistent_setFilesize (size : UInt64) (h : m.setFilesize size = some m') : Consistent m' := by
  by_cases hv : size = sizeUnset
  · rw [Manifest.setFilesize, if_pos hv] at h
    cases h
    refine consistent_del (f := .filesize) hm rfl (if_pos hv) fun g hg => ?_
    cases g <;> trivial
  rw [Manifest.setFilesize, if_neg hv] at h
  exact consistent_write (f := .filesize) hm (printable (Manifest.isSize_iff.mpr hv) (by decide)) h

theorem consistent_setTail {tail : UInt64} (h : m.setTail tail = some m') : Consistent m' := by
  by_cases hv : tail = sizeUnset
  · rw [Manifest.setTail, if_pos hv] at h
    cases h
    refine consistent_del (f := .tail) hm rfl rfl fun g hg => ?_
    cases g <;> trivial
  rw [Manifest.setTail, if_neg hv, Option.map_map] at h
  exact consistent_write (f := .tail) hm (printable (Manifest.isSize_iff.mpr hv) (by decide)) h

theorem consistent_setFilehash (hash : Option (Binary 64))
    (h : m.setFilehash hash = some m') : Consistent m' := by
  cases hash with
  | some hash => exact consistent_write (f := .filehash) hm (printable rfl (by decide)) h
  | none =>
    cases h
    refine consistent_del (f := .filehash) hm rfl rfl fun g hg => ?_
    cases g <;> trivial

theorem consistent_setService (h : m.setService service = some m') : Consistent m' := by
  cases service with
  | some service =>
    rw [Manifest.setService] at h
    split at h
    · next hv => exact consistent_write (f := .service) hm (printable hv (by decide)) h
    · cases h
  | none => exact consistent_delService hm h

theorem consistent_setName {name : Option CString}
    (h : m.setName (name.map (·.val)) = some m') : Consistent m' := by
  cases name with
  | some name =>
    rw [map_some, Manifest.setName] at h
    split at h
    · next hv => exact consistent_write (f := .name) hm ⟨hv, name.property⟩ h
    · cases h
  | none =>
    cases h
    refine consistent_del (f := .name) hm rfl rfl fun g hg => ?_
    cases g <;> trivial

theorem consistent_setCrypt (h : m.setCrypt flag = some m') : Consistent m' := by
  cases flag with
  | cryptUnknown =>
    cases h
    refine consistent_del (f := .crypt) hm rfl rfl fun g hg => ?_
    cases g <;> trivial
  | clear => exact consistent_write (f := .crypt) (v := false) hm (printable rfl (by decide)) h
  | encrypted => exact consistent_write (f := .crypt) (v := true) hm (printable rfl (by decide)) h

/-- Every call keeps variables and members in step. -/
theorem consistent_call {call : Call} (h : call.run m = some m') : Consistent m' := by
  cases call with
  | setId bid => exact consistent_setId hm h
  | setVersion version => exact consistent_setVersion hm version h
  | delVersion => exact consistent_setVersion hm 0 h
  | setFilesize size => exact consistent_setFilesize hm size h
  | delFilesize => exact consistent_setFilesize hm sizeUnset h
  | setFilehash hash => exact consistent_setFilehash hm hash h
  | delFilehash => exact consistent_setFilehash hm none h
  | setTail tail => exact consistent_setTail hm h
  | setBundleKey bk =>
    cases bk with
    | some bk => exact consistent_write (f := .bk) hm (printable rfl (by decide)) h
    | none => exact consistent_delBundleKey hm h
  | delBundleKey => exact consistent_delBundleKey hm h
  | setService service => exact consistent_setService hm h
  | delService => exact consistent_delService hm h
  | setName name => exact consistent_setName hm h
  | delName => exact consistent_delName hm h
  | setDate date => exact consistent_write (f := .date) hm (printable rfl (by decide)) h
  | delDate => exact consistent_delDate hm h
  | setSender sid =>
    cases sid with
    | some sid => exact consistent_write (f := .sender) hm (printable rfl (by decide)) h
    | none => exact consistent_delSender hm h
  | delSender => exact consistent_delSender hm h
  | setRecipient sid =>
    cases sid with
    | some sid => exact consistent_write (f := .recipient) hm (printable rfl (by decide)) h
    | none => exact consistent_delRecipient hm h
  | delRecipient => exact consistent_delRecipient hm h
  | setCrypt flag => exact consistent_setCrypt hm h
  | setUnknown field =>
    cases h
    cases hset : m.set field.label field.value with
    | none => exact hm
    | some m1 =>
      obtain ⟨vars, hvars, rfl⟩ := map_eq_some_iff.mp hset
      exact consistent_unknown hm field hvars
  | delUnknown label hlab =>
    cases h
    exact consistent_delUnknown hm hlab

omit hm in
theorem consistent_build {cs : List Call} (h : build cs = some m) : Consistent m :=
  foldlM_some Consistent (fun _ _ _ hm hcall => consistent_call hm hcall) consistent_fresh h

end Calls

/-! ## The lines of the packed text -/

def lines (vars : List (Text × Text)) : List Line := vars.map fun entry => ⟨entry.1, entry.2, false⟩

theorem mem_lines (h : l ∈ lines vars) : ∃ en ∈ vars, l = ⟨en.1, en.2, false⟩ := by
  obtain ⟨en, hent, rfl⟩ := List.mem_map.mp h
  exact ⟨en, hent, rfl⟩

theorem packVariables_lines : packVariables vars = (lines vars).flatMap Line.bytes := by
  rw [packVariables, lines, flatMap_map]
  congr 1
  funext entry
  simp [Line.bytes]

theorem value_length (h : en ∈ vars) : en.2.length ≤ (packVariables vars).length := by
  induction vars with
  | nil => cases h
  | cons first rest ih =>
    have hcons : packVariables (first :: rest) =
        first.1 ++ 61 :: first.2 ++ [10] ++ packVariables rest := rfl
    rw [hcons]
    simp only [length_append, length_cons]
    rcases mem_cons.mp h with rfl | h
    · omega
    have := ih h
    omega

theorem label_valid : fieldLabelIsValid f.label = true := by cases f <;> decide

theorem entry_valid (hlen : (packVariables m.vars).length < maxBytes) (hm : Consistent m)
    (hent : en ∈ m.vars) : Line.Valid ⟨en.1, en.2, false⟩ := by
  have hfit := value_length hent
  cases hm.entries en hent with
  | unknown hdesc hlab hval => exact ⟨hlab, hval⟩
  | @known f v hv _ =>
    refine ⟨label_valid, ?_⟩
    simp only [fieldValueIsValid, Bool.and_eq_true, decide_eq_true_eq, List.all_eq_true, bne_iff_ne]
    refine ⟨lt_of_le_of_lt hfit hlen, fun c hc => ?_⟩
    have hchs := print_chars hv.1 hc
    exact ⟨⟨fun h0 => hv.2 (h0 ▸ hc), hchs.2.1⟩, hchs.1⟩

section Packed

variable (hm : Consistent m)

include hm

theorem entry_known (hent : en ∈ m.vars) (hdesc : descriptor en.1 = some f) :
    ∃ v, en = (f.label, f.print v) ∧ Field.Printable f v ∧
      (m.value f = some v ∨ m.value f = none ∧ (f = .id ∨ f = .bk)) := by
  cases hm.entries en hent with
  | unknown hnone _ _ =>
    rw [show descriptor _ = none from hnone] at hdesc
    cases hdesc
  | known hv hval =>
    rw [descriptor_label] at hdesc
    cases hdesc
    exact ⟨_, rfl, hv, hval⟩

/-- A variable is a known one exactly under its label. -/
theorem entry_descriptor (hent : en ∈ m.vars) :
    descriptor en.1 = some f ↔ en.1 = f.label := by
  constructor
  · intro hdesc
    obtain ⟨v, rfl, -⟩ := entry_known hm hent hdesc
    rfl
  intro h
  rw [h, descriptor_label]

theorem line_name (hent : en ∈ m.vars) : Line.name ⟨en.1, en.2, false⟩ = en.1 := by
  unfold Line.name
  split
  · next f hdesc => exact ((entry_descriptor hm hent).mp hdesc).symm
  · rfl

omit hm in
theorem accepted_lines (hlen : (packVariables m.vars).length < maxBytes) (hm : Consistent m) :
    Accepted (lines m.vars) := by
  refine ⟨?_, ?_, ?_, ?_⟩
  · intro l hl
    obtain ⟨en, hent, rfl⟩ := mem_lines hl
    exact entry_valid hlen hm hent
  · intro l hl f hdesc hcore
    obtain ⟨en, hent, rfl⟩ := mem_lines hl
    obtain ⟨v, rfl, hv, -⟩ := entry_known hm hent hdesc
    rw [read_print hv.1 (by rintro rfl; cases hcore)]
    rfl
  · rw [lines, pairwise_map]
    have hpair := pairwise_map.mp hm.distinct
    refine hpair.imp_of_mem ?_
    intro a b ha hb hne _
    rwa [line_name hm ha, line_name hm hb]
  intro i hi
  have hle : (listed ((lines m.vars).take i)).length ≤ i :=
    (length_filterMap_le _ _).trans (length_take_le _ _)
  have hls : (lines m.vars).length = m.vars.length := length_map _
  have hroom := hm.room
  omega

theorem line_label (hl : l ∈ lines m.vars) (hdesc : descriptor l.label = some f) :
    l.label = f.label := by
  obtain ⟨en, hent, rfl⟩ := mem_lines hl
  exact (entry_descriptor hm hent).mp hdesc

/-- No label is there twice, so no bundle key is. -/
theorem not_keyRepeated : ¬KeyRepeated (lines m.vars) := by
  rintro ⟨k, i, k', hsub, hk, -, hk'⟩
  have hlab : ((lines m.vars).map Line.label).Nodup := by
    rw [lines, List.map_map]
    exact hm.distinct
  have hnd := hlab.sublist (hsub.map Line.label)
  have hmem := hsub.subset
  have h1 := line_label hm (hmem (by simp)) (descriptor_of_holds hk)
  have h2 := line_label hm (hmem (by simp)) hk'
  simp [h1, h2] at hnd

/-! ### What the parser gets -/

/-- The lines have for a field what its variable reads as. -/
theorem holding_lines (f : Field) : holding (lines m.vars) f = (lookup m.vars f.label).bind f.read := by
  have hdesc : ∀ en ∈ m.vars, (descriptor en.1 = some f ↔ en.1 = f.label) :=
    fun en hent => entry_descriptor hm hent
  have hdis := hm.distinct
  revert hdesc hdis
  generalize m.vars = vars
  intro hdesc hdis
  induction vars with
  | nil => rfl
  | cons first rest ih =>
    rw [map_cons, nodup_cons] at hdis
    have hrest := ih (fun e he => hdesc e (mem_cons_of_mem _ he)) hdis.2
    have hfst := hdesc first mem_cons_self
    have hcons : holding (lines (first :: rest)) f =
        (Line.holds ⟨first.1, first.2, false⟩ f).or (holding (lines rest) f) := by
      rw [holding, lines, map_cons, findSome?_cons]
      cases h : Line.holds ⟨first.1, first.2, false⟩ f <;> rfl
    rw [hcons, hrest, Line.holds]
    by_cases hlab : first.1 = f.label
    · have hnone := lookup_eq_none.mpr (others_ne hdis.1 hlab)
      rw [if_pos (hfst.mpr hlab), hnone, lookup, find?_cons_of_pos (by simp [hlab])]
      simp
    rw [if_neg (fun h => hlab (hfst.mp h)), none_or, lookup, lookup,
      find?_cons_of_neg (by simp [hlab])]

omit hm in
theorem lookup_of_mem (hvars : (vars.map Prod.fst).Nodup) (h : (var, value) ∈ vars) :
    lookup vars var = some value := by
  have hsome : (lookup vars var).isSome := lookup_isSome.mpr ⟨_, h, rfl⟩
  obtain ⟨value', hval'⟩ := isSome_iff_exists.mp hsome
  have hmem := mem_of_lookup hval'
  have hsame := inj_on_of_nodup_map hvars hmem h rfl
  rw [hval', (Prod.mk.inj hsame).2]

/-- What is listed for a known field. -/
theorem lookup_cases : (lookup m.vars f.label = none ∧ m.value f = none) ∨
    ∃ v, lookup m.vars f.label = some (f.print v) ∧ Field.Printable f v ∧
      (m.value f = some v ∨ m.value f = none ∧ (f = .id ∨ f = .bk)) := by
  cases hlook : lookup m.vars f.label with
  | none =>
    refine .inl ⟨rfl, ?_⟩
    cases hval : m.value f with
    | none => rfl
    | some v =>
      rw [lookup_of_mem hm.distinct (hm.listed f v hval)] at hlook
      cases hlook
  | some text =>
    refine .inr ?_
    obtain ⟨v, heq, hv, hval⟩ := entry_known hm (mem_of_lookup hlook) (descriptor_label f)
    rw [(Prod.mk.inj heq).2]
    exact ⟨v, rfl, hv, hval⟩

/-! ### The bundle key -/

def keyListed (vars : List (Text × Text)) : Bool :=
  match vars.dropWhile fun entry => entry.1 != Field.bk.label with
  | [] => false
  | _ :: after => after.all fun entry => entry.1 != Field.id.label

/-- Known labels have their own spelling, and an id or a bundle key can be read. -/
def Spelled (vars : List (Text × Text)) : Prop :=
  ∀ entry ∈ vars, ∀ f, descriptor entry.1 = some f →
    entry.1 = f.label ∧ (f = .id ∨ f = .bk → (f.read entry.2).isSome)

theorem spelled_consistent : Spelled m.vars := by
  intro en hent f hdesc
  refine ⟨(entry_descriptor hm hent).mp hdesc, fun hf => ?_⟩
  obtain ⟨v, rfl, hv, -⟩ := entry_known hm hent hdesc
  rw [read_print hv.1 (by rintro rfl; simp at hf)]
  rfl

omit hm in
theorem holds_spelled (h : Spelled (first :: rest)) (hf : first.1 ≠ f.label) :
    Line.holds ⟨first.1, first.2, false⟩ f = none := by
  rw [Line.holds, if_neg]
  intro hdesc
  exact hf (h first mem_cons_self f hdesc).1

omit hm in
theorem lines_cons : lines (first :: rest) = ⟨first.1, first.2, false⟩ :: lines rest := rfl

omit hm in
theorem key_kept_or_lost (h : Spelled vars) (hkey : ∀ en ∈ vars, en.1 ≠ Field.bk.label) :
    (lines vars).foldl keyStep key =
      if vars.all fun en => en.1 != Field.id.label then key else none := by
  induction vars generalizing key with
  | nil => rfl
  | cons first rest ih =>
    have hrest : Spelled rest := fun e he => h e (mem_cons_of_mem _ he)
    have hkey' : ∀ en ∈ rest, en.1 ≠ Field.bk.label :=
      fun e he => hkey e (mem_cons_of_mem _ he)
    rw [lines_cons, foldl_cons, keyStep, holds_spelled h (hkey first mem_cons_self)]
    by_cases hid : first.1 = Field.id.label
    · have hdesc : descriptor first.1 = some .id := by rw [hid, descriptor_label]
      have hsome : (Line.holds ⟨first.1, first.2, false⟩ .id).isSome := by
        rw [Line.holds, if_pos hdesc]
        exact (h first mem_cons_self .id hdesc).2 (.inl rfl)
      rw [if_pos hsome, ih hrest hkey', ite_self, all_cons, if_neg (by simp [hid])]
    rw [holds_spelled h hid, if_neg (by simp), all_cons, bne_iff_ne.mpr hid, Bool.true_and]
    exact ih hrest hkey'

omit hm in
/-- The bundle key that the parser keeps. -/
theorem key_lines (h : Spelled vars) (hvars : (vars.map Prod.fst).Nodup) :
    (lines vars).foldl keyStep none =
      if keyListed vars then (lookup vars Field.bk.label).bind Field.bk.read else none := by
  induction vars with
  | nil => rfl
  | cons first rest ih =>
    have hrest : Spelled rest := fun e he => h e (mem_cons_of_mem _ he)
    rw [map_cons, nodup_cons] at hvars
    rw [lines_cons, foldl_cons, keyStep]
    by_cases hbk : first.1 = Field.bk.label
    · have hdesc : descriptor first.1 = some .bk := by rw [hbk, descriptor_label]
      obtain ⟨v, hv⟩ := isSome_iff_exists.mp ((h first mem_cons_self .bk hdesc).2 (.inr rfl))
      have hhl : Line.holds ⟨first.1, first.2, false⟩ .bk = some v := by
        rw [Line.holds, if_pos hdesc, hv]
      have hid : first.1 ≠ Field.id.label := by
        rw [hbk]
        exact fun heq => absurd (label_injective heq) (by decide)
      rw [holds_spelled h hid, hhl, if_neg (by simp)]
      refine (key_kept_or_lost hrest (others_ne hvars.1 hbk)).trans ?_
      rw [keyListed, dropWhile_cons_of_neg (by simp [hbk]), lookup, find?_cons_of_pos (by simp [hbk])]
      simp only [map_some, bind_some, hv]
      rfl
    rw [holds_spelled h hbk]
    simp only [ite_self]
    rw [ih hrest hvars.2, keyListed, keyListed, dropWhile_cons_of_pos (by simp [hbk]), lookup, lookup,
      find?_cons_of_neg (by simp [hbk])]

/-! ## The round trip -/

def unknownFields (vars : List (Text × Text)) : List (Text × Text) :=
  vars.filter fun entry => (descriptor entry.1).isNone

/-- Two manifests with the same fields. -/
structure SameFields (m m' : Manifest) : Prop where
  known : ∀ f, m'.value f = m.value f
  unknown : unknownFields m'.vars = unknownFields m.vars

/-- What the setters do not see to: an id that is taken away stays listed, a negative
date is printed as a number that is not read, and the bundle key that goes with an
id stays listed. -/
structure Packable (m : Manifest) : Prop where
  id : (lookup m.vars Field.id.label).isSome → m.id.isSome
  date : ∀ date, m.date = some date → 0 ≤ date
  key : m.bundleKey.isSome = keyListed m.vars

omit hm in
theorem keyListed_none (h : lookup vars Field.bk.label = none) : keyListed vars = false := by
  have hall : vars.dropWhile (fun en => en.1 != Field.bk.label) = [] := by
    rw [dropWhile_eq_nil_iff]
    intro en hent
    exact bne_iff_ne.mpr (lookup_eq_none.mp h en hent)
  rw [keyListed, hall]

theorem unknownFields_lines : unknownFields (listed (lines m.vars)) = unknownFields m.vars := by
  have hent := hm.entries
  revert hent
  generalize m.vars = vars
  intro hent
  induction vars with
  | nil => rfl
  | cons first rest ih =>
    have hrest := ih fun e he => hent e (mem_cons_of_mem _ he)
    have hcons : listed (lines (first :: rest)) =
        (Line.field ⟨first.1, first.2, false⟩).toList ++ listed (lines rest) := by
      rw [lines_cons, listed, filterMap_cons]
      cases Line.field ⟨first.1, first.2, false⟩ <;> rfl
    rw [hcons]
    unfold unknownFields at hrest ⊢
    rw [filter_append, hrest, filter_cons]
    cases hdesc : descriptor first.1 with
    | some f =>
      -- a known field is listed under its label, or not at all
      have hfld : ∀ e ∈ (Line.field ⟨first.1, first.2, false⟩).toList,
          ¬(descriptor e.1).isNone = true := by
        intro e he
        rw [mem_toList] at he
        simp only [Line.field, hdesc] at he
        obtain ⟨v, -, rfl⟩ := map_eq_some_iff.mp he
        simp
      rw [filter_eq_nil_iff.mpr hfld]
      rfl
    | none => simp [Line.field, hdesc]

/-- The members after parsing. -/
theorem parsed_value (hrds : Reads (lines m.vars) m') (f : Field) (hf : f ≠ .bk)
    (hid : f = .id → (lookup m.vars Field.id.label).isSome → m.id.isSome)
    (hdate : f = .date → ∀ date, m.date = some date → 0 ≤ date) : m'.value f = m.value f := by
  rw [hrds.values f hf, holding_lines hm]
  rcases lookup_cases hm with ⟨hnone, hval⟩ | ⟨v, hsome, hv, hval⟩
  · rw [hnone, hval]
    rfl
  have hset : m.value f = some v := by
    rcases hval with hval | ⟨hnone, hkey⟩
    · exact hval
    obtain rfl := hkey.resolve_right hf
    have hlost := hid rfl (by rw [hsome]; rfl)
    rw [show m.id = none from hnone] at hlost
    cases hlost
  rw [hsome, hset, bind_some]
  by_cases hdated : f = .date
  · subst hdated
    exact (read_print_date v).trans (if_pos (hdate rfl v hset))
  · exact read_print hv.1 hdated

/-- The bundle key that is read back is the one that was listed. -/
theorem parsed_key (hrds : Reads (lines m.vars) m') : m'.bundleKey.isSome = keyListed m.vars ∧
      (m.bundleKey.isSome = keyListed m.vars → m'.bundleKey = m.bundleKey) := by
  have hkey := hrds.key
  rw [key_lines (spelled_consistent hm) hm.distinct] at hkey
  rcases lookup_cases hm with ⟨hnone, hval⟩ | ⟨v, hsome, hv, hval⟩
  · rw [hkey, keyListed_none hnone]
    exact ⟨rfl, fun _ => (show m.bundleKey = none from hval).symm⟩
  have hread : (lookup m.vars Field.bk.label).bind Field.bk.read = some v := by
    rw [hsome, bind_some, read_print hv.1 (by decide)]
  rw [hread] at hkey
  cases hlst : keyListed m.vars with
  | false =>
    rw [hlst] at hkey
    refine ⟨by rw [hkey]; rfl, fun hlost => ?_⟩
    rw [hkey]
    cases hbun : m.bundleKey with
    | none => rfl
    | some bk =>
      rw [hbun] at hlost
      cases hlost
  | true =>
    rw [hlst] at hkey
    refine ⟨by rw [hkey]; rfl, fun hset => ?_⟩
    rw [hkey]
    rcases hval with hval | ⟨hnone, -⟩
    · exact (show m.bundleKey = some v from hval).symm
    rw [show m.bundleKey = none from hnone] at hset
    cases hset

/-- The parser on a packed text. -/
theorem parse_packed (hpack : manifestPackVariables m = some data) : ∃ m', Reads (lines m.vars) m' ∧
      manifestParse .fresh data = some (0, { m' with bodyBytes := bodyCount data }) := by
  unfold manifestPackVariables at hpack
  split at hpack
  · next hlen =>
    cases hpack
    have hacc := accepted_lines hlen hm
    refine parse_accepted ?_ ?_ hacc (not_keyRepeated hm)
    · rw [length_append, length_singleton]
      omega
    rw [packVariables_lines]
    exact body_lines hacc.valid rfl
  · cases hpack

end Packed

/-- A manifest that has been built is packed and parsed again: the text is accepted, and
the fields are the same exactly if it is packable. -/
theorem pack_parse_round_trip {calls : List Call} {data : Text} (hbuild : build calls = some m)
    (hpack : manifestPackVariables m = some data) :
    (∃ m', manifestParse .fresh data = some (0, m') ∧ SameFields m m') ↔ Packable m := by
  have hm := consistent_build hbuild
  obtain ⟨m1, hrds, hpar⟩ := parse_packed hm hpack
  have hval : ∀ f, ({ m1 with bodyBytes := bodyCount data } : Manifest).value f = m1.value f := by
    intro f
    cases f <;> rfl
  obtain ⟨hkey, hsame⟩ := parsed_key hm hrds
  constructor
  · rintro ⟨m', hpar', hfie⟩
    rw [hpar] at hpar'
    cases hpar'
    have hkn : ∀ f, m1.value f = m.value f := fun f => (hval f).symm.trans (hfie.known f)
    refine ⟨fun hlst => ?_, fun date hdate => ?_, ?_⟩
    · rcases lookup_cases hm with ⟨hnone, -⟩ | ⟨v, hsome, hv, -⟩
      · rw [hnone] at hlst
        cases hlst
      have hid := hrds.values .id (by decide)
      rw [holding_lines hm, hsome, bind_some, read_print hv.1 (by decide), hkn] at hid
      rw [show m.id = some v from hid]
      rfl
    · have hlook := lookup_of_mem hm.distinct (hm.listed .date date hdate)
      have hvals := hrds.values .date (by decide)
      rw [holding_lines hm, hlook, bind_some, read_print_date, hkn] at hvals
      by_cases hle : 0 ≤ date
      · exact hle
      rw [if_neg hle, show m.value .date = some date from hdate] at hvals
      cases hvals
    · rw [← hkey, show m1.bundleKey = m.bundleKey from hkn .bk]
  intro hpac
  refine ⟨_, hpar, fun f => ?_, ?_⟩
  · by_cases hf : f = .bk
    · subst hf
      exact hsame hpac.key
    · exact parsed_value hm hrds f hf (fun _ => hpac.id) fun _ => hpac.date
  · rw [hrds.vars, unknownFields_lines hm]

theorem pack_parse_round_trip_version :
    ∃ m data, build [.setVersion 7, .setDate 5] = some m ∧ manifestPackVariables m = some data ∧
      ((∃ m', manifestParse .fresh data = some (0, m') ∧ SameFields m m') ↔ Packable m) := by
  have hsome : ((build [.setVersion 7, .setDate 5]).bind manifestPackVariables).isSome = true := by
    decide +kernel
  obtain ⟨data, hdata⟩ := isSome_iff_exists.mp hsome
  obtain ⟨m, hbld, hpack⟩ := bind_eq_some_iff.mp hdata
  exact ⟨m, data, hbld, hpack, pack_parse_round_trip hbld hpack⟩

def repacked (calls : List Call) : Option (Manifest × Int × Manifest) :=
  (build calls).bind fun m => (manifestPackVariables m).bind fun data =>
    (manifestParse .fresh data).map fun r => (m, r)

def sevens : Binary 32 := ⟨List.replicate 32 7, length_replicate⟩

/-- A date before 1970 is lost, an id that was taken away comes back, and so does the
bundle key of an id that was replaced. -/
theorem repacked_differs : (repacked [.setDate (-1)]).map (fun r => (r.1.date, r.2.1, r.2.2.date)) =
      some (some (-1), 0, none) ∧
    (repacked [.setId (some sevens), .setId none]).map (fun r => (r.1.id, r.2.1, r.2.2.id)) =
      some (none, 0, some sevens) ∧
    (repacked [.setId (some ⟨List.replicate 32 1, length_replicate⟩), .setBundleKey (some sevens),
        .setId (some sevens)]).map (fun r => (r.1.bundleKey, r.2.1, r.2.2.bundleKey)) =
      some (none, 0, some sevens) := by
  refine ⟨by decide +kernel, by decide +kernel, by decide +kernel⟩

end ManifestPack
