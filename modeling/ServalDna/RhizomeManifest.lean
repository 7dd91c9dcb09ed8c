import Mathlib.Data.UInt

/-!
# Rhizome manifests

The fields of `rhizome_manifest` that describe a payload and its keys, with the
setters that keep `is_journal` and `has_filehash` in step with `tail` and
`filehash`. The text variables, the signature block and the fields that only
the user interface reads are not part of this record.
-/
namespace RhizomeManifest

abbrev Filehash := List UInt8

def sizeUnset : UInt64 := 0xFFFFFFFFFFFFFFFF

@[simp] theorem sizeUnset_toNat : sizeUnset.toNat = 18446744073709551615 := rfl

inductive PayloadEncryption where
  | cryptUnknown | clear | encrypted
  deriving DecidableEq, Repr

/-- `has_sender`, `has_recipient` and `has_filehash` are the `Option`s here. -/
structure Manifest where
  cryptoSignPublic : List UInt8
  cryptoSignSecret : List UInt8
  haveSecret : Bool
  version : UInt64
  tail : UInt64
  filesize : UInt64
  filehash : Option Filehash
  isJournal : Bool
  sender : Option (List UInt8)
  recipient : Option (List UInt8)
  payloadEncryption : PayloadEncryption
  payloadKey : List UInt8
  payloadNonce : List UInt8
  deriving DecidableEq, Repr

def setVersion (m : Manifest) (version : UInt64) : Manifest := { m with version }

def setFilesize (m : Manifest) (filesize : UInt64) : Manifest := { m with filesize }

def setFilehash (m : Manifest) (hash : Filehash) : Manifest := { m with filehash := some hash }

def delFilehash (m : Manifest) : Manifest := { m with filehash := none }

def setTail (m : Manifest) (tail : UInt64) : Manifest :=
  { m with tail, isJournal := tail != sizeUnset }

/-- A journal as `rhizome_manifest_validate` and the field parsers leave it:
both sizes are set. -/
structure IsJournal (m : Manifest) : Prop where
  journal : m.isJournal = true
  tail_set : m.tail ≠ sizeUnset
  filesize_set : m.filesize ≠ sizeUnset

end RhizomeManifest
