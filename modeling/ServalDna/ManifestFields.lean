import ServalDna.RhizomeManifest
import ServalDna.TextCodec

/-!
# The fields of a manifest

A manifest keeps its fields twice: as a list of labels and values in text form, in
the order in which they came in, and as typed members. The setters keep the two
in step. This module has the table of known fields, the typed members with the
setters of `rhizome_bundle.c`, and the parser and printer of each field.
-/
namespace ManifestFields

open TextCodec Option
open RhizomeManifest (PayloadEncryption sizeUnset)

def maxVars : Nat := 256

/-- `rhizome_manifest_fields`. -/
inductive Field where
  | id | version | filehash | filesize | tail
  | bk | service | date | sender | recipient | name | crypt
  deriving DecidableEq, Repr

def Field.all : List Field :=
  [.id, .version, .filehash, .filesize, .tail, .bk, .service, .date, .sender, .recipient, .name, .crypt]

def Field.label : Field → Text
  | .id => ascii "id"
  | .version => ascii "version"
  | .filehash => ascii "filehash"
  | .filesize => ascii "filesize"
  | .tail => ascii "tail"
  | .bk => ascii "BK"
  | .service => ascii "service"
  | .date => ascii "date"
  | .sender => ascii "sender"
  | .recipient => ascii "recipient"
  | .name => ascii "name"
  | .crypt => ascii "crypt"

def Field.core : Field → Bool
  | .id | .version | .filehash | .filesize | .tail => true
  | _ => false

/-- `get_rhizome_manifest_field_descriptor`. -/
def descriptor (label : Text) : Option Field := Field.all.find? fun f => strcaseeq label f.label

@[simp] theorem descriptor_label (f : Field) : descriptor f.label = some f := by
  cases f <;> decide

theorem label_injective {f g : Field} (h : f.label = g.label) : f = g := by
  have hf := descriptor_label f
  rw [h, descriptor_label] at hf
  exact (Option.some.inj hf).symm

/-! ## Values -/

/-- What a field holds when it is set. -/
def Field.Value : Field → Type
  | .id | .bk | .sender | .recipient => Binary 32
  | .filehash => Binary 64
  | .version | .filesize | .tail => UInt64
  | .service | .name => Text
  | .date => Int64
  | .crypt => Bool

def isManifestService (text : Text) : Bool :=
  text != [] && text.all fun c => isalnum c || c == 95 || c == 46

def isManifestName (text : Text) : Bool := text.all fun c => c != 10 && c != 13

theorem broadcast_length : (List.replicate 32 (0xff : UInt8)).length = 32 := List.length_replicate

def strToSid (text : Text) : Option (Binary 32) :=
  if (ascii "broadcast").isPrefixOf text then
    if text = ascii "broadcast" then some ⟨List.replicate 32 0xff, broadcast_length⟩ else none
  else strToBinary 32 text

def isVersion (version : UInt64) : Bool := version != 0

def isSize (size : UInt64) : Bool := size != sizeUnset

def readVersion (text : Text) : Option UInt64 := (strToUint64 text).filter isVersion

def readSize (text : Text) : Option UInt64 := (strToUint64 text).filter isSize

def readService (text : Text) : Option Text := if isManifestService text then some text else none

def readCrypt (text : Text) : Option Bool :=
  if text = [48] then some false else if text = [49] then some true else none

def printCrypt (encrypted : Bool) : Text := if encrypted then [49] else [48]

def cryptFlag (encrypted : Bool) : PayloadEncryption := if encrypted then .encrypted else .clear

/-- What the field's parser makes of a text; `none` is a malformed value. -/
def Field.read : (f : Field) → Text → Option f.Value
  | .id, text => strToBinary 32 text
  | .version, text => readVersion text
  | .filehash, text => strToBinary 64 text
  | .filesize, text => readSize text
  | .tail, text => readSize text
  | .bk, text => strToBinary 32 text
  | .service, text => readService text
  | .date, text => (strToInt64 text).map Int64.ofInt
  | .sender, text => strToSid text
  | .recipient, text => strToSid text
  | .name, text => some text
  | .crypt, text => readCrypt text

/-- The text that the setter lists. -/
def Field.print : (f : Field) → f.Value → Text
  | .id, v => tohex v.val
  | .version, v => decimal v.toNat
  | .filehash, v => tohex v.val
  | .filesize, v => decimal v.toNat
  | .tail, v => decimal v.toNat
  | .bk, v => tohex v.val
  | .service, v => v
  | .date, v => decimal v.toUInt64.toNat
  | .sender, v => tohex v.val
  | .recipient, v => tohex v.val
  | .name, v => v
  | .crypt, v => printCrypt v

/-! ## Manifests -/

/-- `has_id`, `has_filehash`, `has_bundle_key`, `has_date`, `has_sender` and
`has_recipient` are the `Option`s here. -/
structure Manifest where
  vars : List (Text × Text)
  id : Option (Binary 32)
  version : UInt64
  filehash : Option (Binary 64)
  filesize : UInt64
  tail : UInt64
  isJournal : Bool
  bundleKey : Option (Binary 32)
  service : Option Text
  date : Option Int64
  sender : Option (Binary 32)
  recipient : Option (Binary 32)
  name : Option Text
  payloadEncryption : PayloadEncryption
  malformed : Option String
  finalised : Bool
  bodyBytes : Nat
  deriving DecidableEq

/-- A manifest as `rhizome_new_manifest` returns it. -/
def Manifest.fresh : Manifest :=
  ⟨[], none, 0, none, sizeUnset, sizeUnset, false, none, none, none, none, none, none,
    .cryptUnknown, none, false, 0⟩

/-- `rhizome_manifest_clear`. It does not reset all members. -/
def Manifest.clear (m : Manifest) : Manifest :=
  { m with
    vars := [], malformed := none, id := none, filehash := none, isJournal := false
    filesize := sizeUnset, tail := sizeUnset, version := 0 }

/-! ### The list of variables -/

def lookup (vars : List (Text × Text)) (var : Text) : Option Text :=
  (vars.find? fun entry => entry.1 == var).map Prod.snd

def replace (vars : List (Text × Text)) (var value : Text) : List (Text × Text) :=
  match vars with
  | [] => []
  | entry :: rest =>
    if entry.1 = var then (entry.1, value) :: rest else entry :: replace rest var value

def remove (vars : List (Text × Text)) (var : Text) : List (Text × Text) :=
  vars.eraseP fun entry => entry.1 == var

/-- `rhizome_manifest_set`; `none` is the result NULL. -/
def setVar (vars : List (Text × Text)) (var value : Text) : Option (List (Text × Text)) :=
  if (lookup vars var).isSome then some (replace vars var value)
  else if vars.length ≥ maxVars then none
  else some (vars ++ [(var, value)])

theorem lookup_isSome : (lookup vars var).isSome ↔ ∃ en ∈ vars, en.1 = var := by
  simp [lookup, List.find?_isSome]

theorem lookup_eq_none : lookup vars var = none ↔ ∀ en ∈ vars, en.1 ≠ var := by
  simp [lookup, List.find?_eq_none]

theorem mem_of_lookup (h : lookup vars var = some value) : (var, value) ∈ vars := by
  obtain ⟨en, hfind, rfl⟩ := map_eq_some_iff.mp h
  have hname := List.find?_some hfind
  have hmem := List.mem_of_find?_eq_some hfind
  rw [beq_iff_eq] at hname
  exact hname ▸ hmem

@[simp] theorem replace_length : (replace vars var value).length = vars.length := by
  fun_induction replace vars var value with
  | case1 => rfl
  | case2 => rfl
  | case3 en rest hname ih => simp [ih]

theorem setVar_new (hnew : lookup vars var = none) (hroom : vars.length < maxVars) :
    setVar vars var value = some (vars ++ [(var, value)]) := by
  rw [setVar, hnew, if_neg (by decide), if_neg (by omega)]

/-- There is room for a variable: it is listed, or the list is not full. -/
theorem setVar_some (var value : Text) (hroom : vars.length < maxVars) :
    ∃ vars', setVar vars var value = some vars' ∧ vars'.length ≤ maxVars := by
  unfold setVar
  split
  · exact ⟨_, rfl, by rw [replace_length]; omega⟩
  rw [if_neg (by omega)]
  exact ⟨_, rfl, by simp; omega⟩

namespace Manifest

def set (m : Manifest) (var value : Text) : Option Manifest :=
  (setVar m.vars var value).map fun vars => { m with vars }

def del (m : Manifest) (var : Text) : Manifest := { m with vars := remove m.vars var }

def get (m : Manifest) (var : Text) : Option Text := lookup m.vars var

/-! ### Setters

`none` is a failed assertion. -/

def idChanged (m : Manifest) (id : Option (Binary 32)) : Manifest :=
  { m with id, finalised := false, bundleKey := none }

def setId (m : Manifest) : Option (Binary 32) → Option Manifest
  | some bid =>
    if m.id = some bid then some m
    else (m.set Field.id.label (tohex bid.val)).map fun m => m.idChanged (some bid)
  | none => if m.id.isSome then some (m.idChanged none) else some m

def setVersion (m : Manifest) (version : UInt64) : Option Manifest :=
  (if version ≠ 0 then m.set Field.version.label (decimal version.toNat)
    else some (m.del Field.version.label)).map
    fun m => { m with version, finalised := false }

def delVersion (m : Manifest) : Option Manifest := m.setVersion 0

def setFilesize (m : Manifest) (filesize : UInt64) : Option Manifest :=
  (if filesize = sizeUnset then some (m.del Field.filesize.label)
    else m.set Field.filesize.label (decimal filesize.toNat)).map
    fun m => { m with filesize, finalised := false }

def delFilesize (m : Manifest) : Option Manifest := m.setFilesize sizeUnset

def setFilehash (m : Manifest) (hash : Option (Binary 64)) : Option Manifest :=
  (match hash with
    | some hash => m.set Field.filehash.label (tohex hash.val)
    | none => some (m.del Field.filehash.label)).map
    fun m : Manifest => { m with filehash := hash, finalised := false }

def delFilehash (m : Manifest) : Option Manifest := m.setFilehash none

def setTail (m : Manifest) (tail : UInt64) : Option Manifest :=
  (if tail = sizeUnset then some { m.del Field.tail.label with isJournal := false }
    else (m.set Field.tail.label (decimal tail.toNat)).map ({ · with isJournal := true })).map
    fun m => { m with tail, finalised := false }

def delBundleKey (m : Manifest) : Option Manifest :=
  if m.bundleKey.isSome then
    some { m.del Field.bk.label with bundleKey := none, finalised := false }
  else if m.get Field.bk.label = none then some m
  else none

def setBundleKey (m : Manifest) : Option (Binary 32) → Option Manifest
  | some bk => (m.set Field.bk.label (tohex bk.val)).map
      fun m => { m with bundleKey := some bk, finalised := false }
  | none => m.delBundleKey

def delService (m : Manifest) : Option Manifest :=
  if m.service.isSome then
    some { m.del Field.service.label with service := none, finalised := false }
  else if m.get Field.service.label = none then some m
  else none

def setService (m : Manifest) : Option Text → Option Manifest
  | some service =>
    if isManifestService service then
      (m.set Field.service.label service).map
        fun m => { m with service := some service, finalised := false }
    else none
  | none => m.delService

def delName (m : Manifest) : Option Manifest :=
  if m.name.isSome then some { m.del Field.name.label with name := none, finalised := false }
  else if m.get Field.name.label = none then some m
  else none

def setName (m : Manifest) : Option Text → Option Manifest
  | some name =>
    if isManifestName name then
      (m.set Field.name.label name).map fun m => { m with name := some name, finalised := false }
    else none
  | none => some { m.del Field.name.label with name := none, finalised := false }

def setDate (m : Manifest) (date : Int64) : Option Manifest :=
  (m.set Field.date.label (decimal date.toUInt64.toNat)).map
    fun m => { m with date := some date, finalised := false }

def delDate (m : Manifest) : Option Manifest :=
  if m.date.isSome then some { m.del Field.date.label with date := none, finalised := false }
  else if m.get Field.date.label = none then some m
  else none

def delSender (m : Manifest) : Option Manifest :=
  if m.sender.isSome then some { m.del Field.sender.label with sender := none, finalised := false }
  else if m.get Field.sender.label = none then some m
  else none

def setSender (m : Manifest) : Option (Binary 32) → Option Manifest
  | some sid => (m.set Field.sender.label (tohex sid.val)).map
      fun m => { m with sender := some sid, finalised := false }
  | none => m.delSender

def delRecipient (m : Manifest) : Option Manifest :=
  if m.recipient.isSome then
    some { m.del Field.recipient.label with recipient := none, finalised := false }
  else if m.get Field.recipient.label = none then some m
  else none

def setRecipient (m : Manifest) : Option (Binary 32) → Option Manifest
  | some sid => (m.set Field.recipient.label (tohex sid.val)).map
      fun m => { m with recipient := some sid, finalised := false }
  | none => m.delRecipient

def setCrypt (m : Manifest) (flag : PayloadEncryption) : Option Manifest :=
  (match flag with
    | .cryptUnknown => some (m.del Field.crypt.label)
    | .clear => m.set Field.crypt.label [48]
    | .encrypted => m.set Field.crypt.label [49]).map
    fun m : Manifest => { m with payloadEncryption := flag, finalised := false }

/-! ### The record of the payload -/

/-- The members that the record of a payload has too. -/
structure Describes (m : Manifest) (p : RhizomeManifest.Manifest) : Prop where
  version : p.version = m.version
  filesize : p.filesize = m.filesize
  filehash : p.filehash = m.filehash.map (·.val)
  tail : p.tail = m.tail
  journal : p.isJournal = m.isJournal

variable {m m' : Manifest} {p : RhizomeManifest.Manifest}

theorem set_eq (h : m.set var value = some m') : ∃ vars, m' = { m with vars } := by
  obtain ⟨vars, -, rfl⟩ := map_eq_some_iff.mp h
  exact ⟨vars, rfl⟩

theorem Describes.setVersion (h : Describes m p) (hm : m.setVersion v = some m') :
    Describes m' (RhizomeManifest.setVersion p v) := by
  obtain ⟨m1, hm1, rfl⟩ := map_eq_some_iff.mp hm
  split at hm1
  · obtain ⟨vars, rfl⟩ := set_eq hm1
    exact { h with version := rfl }
  · cases hm1
    exact { h with version := rfl }

theorem Describes.setFilesize (h : Describes m p) (hm : m.setFilesize v = some m') :
    Describes m' (RhizomeManifest.setFilesize p v) := by
  obtain ⟨m1, hm1, rfl⟩ := map_eq_some_iff.mp hm
  split at hm1
  · cases hm1
    exact { h with filesize := rfl }
  · obtain ⟨vars, rfl⟩ := set_eq hm1
    exact { h with filesize := rfl }

theorem Describes.setFilehash (h : Describes m p) (hash : Binary 64)
    (hm : m.setFilehash (some hash) = some m') :
    Describes m' (RhizomeManifest.setFilehash p hash.val) := by
  obtain ⟨m1, hm1, rfl⟩ := map_eq_some_iff.mp hm
  obtain ⟨vars, rfl⟩ := set_eq hm1
  exact { h with filehash := rfl }

theorem Describes.setTail (h : Describes m p) (hm : m.setTail v = some m') :
    Describes m' (RhizomeManifest.setTail p v) := by
  obtain ⟨m1, hm1, rfl⟩ := map_eq_some_iff.mp hm
  split at hm1
  · next hunset =>
    cases hm1
    exact { h with tail := rfl, journal := by simp [RhizomeManifest.setTail, hunset] }
  · next hset =>
    obtain ⟨m2, hm2, rfl⟩ := map_eq_some_iff.mp hm1
    obtain ⟨vars, rfl⟩ := set_eq hm2
    exact { h with tail := rfl, journal := by simp [RhizomeManifest.setTail, hset] }

/-! ### Fields by their descriptor -/

def value (m : Manifest) : (f : Field) → Option f.Value
  | .id => m.id
  | .version => if m.version = 0 then none else some m.version
  | .filehash => m.filehash
  | .filesize => if m.filesize = sizeUnset then none else some m.filesize
  | .tail => if m.isJournal then some m.tail else none
  | .bk => m.bundleKey
  | .service => m.service
  | .date => m.date
  | .sender => m.sender
  | .recipient => m.recipient
  | .name => m.name
  | .crypt =>
    match m.payloadEncryption with
    | .cryptUnknown => none
    | .clear => some false
    | .encrypted => some true

def test (m : Manifest) (f : Field) : Bool := (m.value f).isSome

def store (m : Manifest) : (f : Field) → f.Value → Option Manifest
  | .id, v => m.setId (some v)
  | .version, v => m.setVersion v
  | .filehash, v => m.setFilehash (some v)
  | .filesize, v => m.setFilesize v
  | .tail, v => m.setTail v
  | .bk, v => m.setBundleKey (some v)
  | .service, v => m.setService (some v)
  | .date, v => m.setDate v
  | .sender, v => m.setSender (some v)
  | .recipient, v => m.setRecipient (some v)
  | .name, v => m.setName (some v)
  | .crypt, v => m.setCrypt (cryptFlag v)

/-- The descriptor's `parse`: false if the value is malformed, and then the manifest
is left as it is. -/
def parse (m : Manifest) (f : Field) (text : Text) : Option (Bool × Manifest) :=
  match f.read text with
  | none => some (false, m)
  | some v => (m.store f v).map fun m => (true, m)

end Manifest

/-! ### What a setter does -/

/-- The values that a field's parser returns, and that its setter takes. -/
def Field.settable : (f : Field) → f.Value → Bool
  | .version, v => isVersion v
  | .filesize, v => isSize v
  | .tail, v => isSize v
  | .service, v => isManifestService v
  | .name, v => isManifestName v
  | _, _ => true

theorem read_settable {f : Field} {v : f.Value} (htext : isManifestName text = true)
    (h : f.read text = some v) : f.settable v = true := by
  cases f with
  | version | filesize | tail => exact (filter_eq_some_iff.mp h).2
  | service =>
    obtain ⟨hser, ⟨⟩⟩ := ite_none_right_eq_some.mp h
    exact hser
  | name =>
    cases h
    exact htext
  | _ => rfl

namespace Manifest

def write (m : Manifest) : (f : Field) → f.Value → Manifest
  | .id, v => m.idChanged (some v)
  | .version, v => { m with version := v, finalised := false }
  | .filehash, v => { m with filehash := some v, finalised := false }
  | .filesize, v => { m with filesize := v, finalised := false }
  | .tail, v => { m with tail := v, isJournal := true, finalised := false }
  | .bk, v => { m with bundleKey := some v, finalised := false }
  | .service, v => { m with service := some v, finalised := false }
  | .date, v => { m with date := some v, finalised := false }
  | .sender, v => { m with sender := some v, finalised := false }
  | .recipient, v => { m with recipient := some v, finalised := false }
  | .name, v => { m with name := some v, finalised := false }
  | .crypt, v => { m with payloadEncryption := cryptFlag v, finalised := false }

section Write

variable (m : Manifest)

@[simp] theorem write_vars : (m.write f v).vars = m.vars := by cases f <;> rfl

theorem isVersion_iff {v : UInt64} : isVersion v = true ↔ v ≠ 0 := by simp [isVersion]

theorem isSize_iff {v : UInt64} : isSize v = true ↔ v ≠ sizeUnset := by simp [isSize]

theorem write_value (hv : f.settable v = true) : (m.write f v).value f = some v := by
  cases f with
  | version => exact if_neg (isVersion_iff.mp hv)
  | filesize => exact if_neg (isSize_iff.mp hv)
  | crypt => cases v <;> rfl
  | _ => rfl

/-- Another field keeps its value, but for the bundle key when the id changes. -/
theorem write_others (hg : g ≠ f) (hkey : f = .id → g ≠ .bk) : (m.write f v).value g = m.value g := by
  cases f <;> cases g <;> first | rfl | exact absurd rfl hg | exact absurd rfl (hkey rfl)

/-- A setter lists the text of the value and writes the member. -/
theorem store_eq (hv : f.settable v = true) (hnew : m.value f = none) :
    m.store f v = (m.set f.label (f.print v)).map fun m => m.write f v := by
  cases f with
  | id =>
    have hne : ¬m.id = some v := by
      rw [show m.id = none from hnew]
      exact nofun
    exact if_neg hne
  | version => simp only [store, setVersion, if_pos (isVersion_iff.mp hv), Field.print, write]
  | filesize => simp only [store, setFilesize, if_neg (isSize_iff.mp hv), Field.print, write]
  | tail =>
    simp only [store, setTail, if_neg (isSize_iff.mp hv), Field.print, map_map]
    rfl
  | service | name => exact if_pos hv
  | crypt => cases v <;> rfl
  | _ => rfl

theorem store_spec {vars : List (Text × Text)} (hv : f.settable v = true) (hnew : m.value f = none)
    (hvars : setVar m.vars f.label (f.print v) = some vars) :
    m.store f v = some ({ m with vars }.write f v) := by
  rw [m.store_eq hv hnew, set, hvars, map_some, map_some]

end Write

end Manifest

end ManifestFields
