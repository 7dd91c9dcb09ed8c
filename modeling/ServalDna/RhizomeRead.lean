import ServalDna.RhizomeWrite

/-!
# Reading a payload from the Rhizome store

A payload is read in pieces from any offset. Its hash is checked when it is read
in order from the start to the end, and its bytes are decrypted at their place
in the key stream of the bundle.
-/
namespace RhizomeRead

open ListSlice KeyStream RhizomeCrypt RhizomeManifest RhizomeWrite List

variable (env : Env)

/-! ## The key of a payload -/

/-- The identities of the keyring, and the secret that two identities share, as
`keyring_get_nm_bytes` gives it. -/
structure Keyring where
  findSid : List UInt8 → Bool
  nmBytes : List UInt8 → List UInt8 → List UInt8

def writeUint64 (v : UInt64) : List UInt8 :=
  (List.range 8).map (fun i => (v >>> UInt64.ofNat (8 * i)).toUInt8)

/-- The bytes that `rhizome_derive_payload_key` takes the key from. -/
def keySource (keyring : Keyring) (m : Manifest) : Option (List UInt8) :=
  match m.sender, m.recipient with
  | some sender, some recipient =>
    if keyring.findSid sender then some (keyring.nmBytes sender recipient)
    else if keyring.findSid recipient then some (keyring.nmBytes recipient sender)
    else none
  | _, _ =>
    if m.haveSecret then some ("sasquatch".toUTF8.toList ++ m.cryptoSignSecret) else none

/-- The bytes that it takes the nonce from. All versions of a journal share one. -/
def nonceSource (m : Manifest) : List UInt8 :=
  let version := if m.isJournal then 0 else m.version
  writeUint64 version ++ m.cryptoSignPublic ++ writeUint64 version

/-- `rhizome_derive_payload_key`, which fails if the secret is not known. -/
def derivePayloadKey (keyring : Keyring) (m : Manifest) : Option Manifest :=
  (keySource keyring m).map fun source => { m with
    payloadKey := (env.sha512 source).take 32
    payloadNonce := (env.sha512 (nonceSource m)).take 24 }

/-! ## `rhizome_read` -/

/-- `struct rhizome_read` of an open payload, with the bytes that the file or the row
holds. `verified` is `none` until the whole payload has been hashed. -/
structure Read where
  id : Filehash
  bytes : List UInt8
  verified : Option Bool
  offset : Nat
  hashOffset : Nat
  hashed : List UInt8
  crypt : Bool
  tail : Nat
  key : List UInt8
  nonce : List UInt8
  deriving DecidableEq, Repr

/-- `rhizome_open_read` on a state of zeros. -/
def openRead (store : Store) (hash : Filehash) : PayloadStatus × Read :=
  match store hash with
  | none => (.new, ⟨hash, [], none, 0, 0, [], false, 0, [], []⟩)
  | some bytes => (.stored, ⟨hash, bytes, none, 0, 0, [], false, 0, [], []⟩)

def hashBlock (read : Read) (buffer : List UInt8) : Read :=
  if read.hashOffset = read.offset ∧ buffer ≠ [] then
    let hashed := read.hashed ++ buffer
    let hashOffset := read.hashOffset + buffer.length
    { read with
      hashed := hashed
      hashOffset := hashOffset
      verified := if hashOffset ≥ read.bytes.length then some (env.sha512 hashed = read.id)
        else read.verified }
  else read

def decipher (read : Read) (buffer : List UInt8) : List UInt8 :=
  if read.crypt then
    cryptXorBlock env.xsalsa20 buffer (read.offset + read.tail) read.key read.nonce
  else buffer

/-- `rhizome_read`. The result is `none` for `-1`. -/
def rhizomeRead (read : Read) (size : Nat) : Option (List UInt8) × Read :=
  if read.verified = some false then (none, read)
  else
    let buffer := slice read.bytes read.offset size
    let hashed := hashBlock env read buffer
    if hashed.verified = some false then (none, hashed)
    else (some (decipher env read buffer), { hashed with offset := read.offset + buffer.length })

/-- `rhizome_read_close`: a payload with a wrong hash is deleted. -/
def readClose (store : Store) (read : Read) : Store :=
  if read.verified = some false then Function.update store read.id none else store

/-- A read changes only the position and what is known of the hash. -/
theorem hashBlock_frame (read : Read) : ∃ verified hashOffset hashed, hashBlock env read buf =
      { read with verified := verified, hashOffset := hashOffset, hashed := hashed } := by
  rw [hashBlock]
  split
  · exact ⟨_, _, _, rfl⟩
  · exact ⟨_, _, _, rfl⟩

theorem rhizomeRead_some {read read' : Read} {buf : List UInt8}
    (h : rhizomeRead env read size = (some buf, read')) :
    buf = decipher env read (slice read.bytes read.offset size) ∧
      ∃ verified hashOffset hashed, read' = { read with
        verified := verified
        hashOffset := hashOffset
        hashed := hashed
        offset := read.offset + (slice read.bytes read.offset size).length } := by
  obtain ⟨verified, hashOffset, hashed, hfr⟩ :=
    hashBlock_frame env read
  rw [rhizomeRead] at h
  split at h
  · cases h
  simp only at h
  split at h
  · cases h
  rw [hfr] at h
  cases h
  exact ⟨rfl, verified, hashOffset, hashed, rfl⟩

@[simp] theorem decipher_length (read : Read) : (decipher env read buf).length = buf.length := by
  rw [decipher]
  split
  · rw [cryptXorBlock_eq, xorFrom_length]
  · rfl

theorem rhizomeRead_progress {read read' : Read} {buf : List UInt8} (hne : buf ≠ [])
    (h : rhizomeRead env read size = (some buf, read')) :
    read'.bytes.length - read'.offset < read.bytes.length - read.offset := by
  obtain ⟨hbuf, ver, ho, hashed, rfl⟩ := rhizomeRead_some env h
  have hpos := length_pos_iff.mpr hne
  rw [hbuf, decipher_length, slice_length] at hpos
  simp only [slice_length]
  omega

/-- The loop of `write_file`: a payload is read page by page up to its end. -/
def readFile (read : Read) : Option (List UInt8) × Read :=
  match _hread : rhizomeRead env read pageSize with
  | (none, read') => (none, read')
  | (some [], read') => (some [], read')
  | (some (b :: buffer), read') =>
    let r := readFile read'
    (r.1.map (fun rest => b :: buffer ++ rest), r.2)
termination_by read.bytes.length - read.offset
decreasing_by exact rhizomeRead_progress env (cons_ne_nil _ _) _hread

def readDeriveKey (keyring : Keyring) (m : Manifest) (read : Read) : PayloadStatus × Manifest × Read :=
  if m.payloadEncryption ≠ .encrypted then (.stored, m, { read with crypt := false })
  else
    match derivePayloadKey env keyring m with
    | none => (.cryptoFail, m, { read with crypt := true })
    | some m => (.stored, m, { read with
        crypt := true
        tail := if m.isJournal ∧ m.tail > 0 then m.tail.toNat else read.tail
        key := m.payloadKey
        nonce := m.payloadNonce })

def openDecryptRead (keyring : Keyring) (store : Store) (m : Manifest) :
    PayloadStatus × Manifest × Read :=
  match openRead store (m.filehash.getD []) with
  | (.stored, read) => readDeriveKey env keyring m read
  | (status, read) => (status, m, read)

/-- `rhizome_extract_file`, with the bytes that go to the file. -/
def extractFile (keyring : Keyring) (store : Store) (m : Manifest) :
    PayloadStatus × Option (List UInt8) × Store :=
  match openDecryptRead env keyring store m with
  | (.stored, _, read) =>
    match readFile env read with
    | (none, read) => (.error, none, readClose store read)
    | (some bytes, read) => (.stored, some bytes, readClose store read)
  | (status, _, read) => (status, none, readClose store read)

/-! ## Whole payloads -/

/-- A payload that is read in order and has the right hash. -/
structure InOrder (read : Read) : Prop where
  id : read.id = env.sha512 read.bytes
  offset_le : read.offset ≤ read.bytes.length
  hashOffset : read.hashOffset = read.offset
  hashed : read.hashed = read.bytes.take read.offset
  verified : read.verified ≠ some false

variable {env}

theorem hashBlock_inOrder {read : Read} (h : InOrder env read) (size : Nat) :
    InOrder env { hashBlock env read (slice read.bytes read.offset size) with
      offset := read.offset + (slice read.bytes read.offset size).length } := by
  have hle := h.offset_le
  have hlen := slice_length read.bytes read.offset size
  by_cases hnil : slice read.bytes read.offset size = []
  · rw [hashBlock, if_neg (fun hand => hand.2 hnil), hnil]
    exact h
  rw [hashBlock, if_pos ⟨h.hashOffset, hnil⟩]
  have hhas : read.hashed ++ slice read.bytes read.offset size =
      read.bytes.take (read.offset + (slice read.bytes read.offset size).length) := by
    rw [h.hashed, ← take_append_slice, slice_slice_length]
  refine ⟨h.id, ?_, ?_, hhas, ?_⟩
  · simp only
    omega
  · simp [h.hashOffset]
  simp only [hhas, h.hashOffset]
  split
  · next hend =>
    rw [take_of_length_le hend, ← h.id]
    simp
  · exact h.verified

/-- Reading in order never fails. -/
theorem rhizomeRead_inOrder {read : Read} (h : InOrder env read) : ∃ read', rhizomeRead env read size =
        (some (decipher env read (slice read.bytes read.offset size)), read') ∧
      InOrder env read' := by
  have hhash := hashBlock_inOrder h size
  refine ⟨_, ?_, hhash⟩
  rw [rhizomeRead, if_neg h.verified]
  rw [if_neg hhash.verified]

theorem decipher_append (read : Read) (ys : List UInt8) : decipher env read (xs ++ ys) =
      decipher env read xs ++ decipher env { read with offset := read.offset + xs.length } ys := by
  simp only [decipher]
  split
  · rw [cryptXorBlock_eq, cryptXorBlock_eq, cryptXorBlock_eq, xorFrom_append, add_right_comm read.offset]
  · rfl

/-- A payload with the right hash is read to its end. -/
theorem readFile_inOrder {read : Read} (h : InOrder env read) : ∃ read', readFile env read =
        (some (decipher env read (read.bytes.drop read.offset)), read') ∧ InOrder env read' := by
  induction hrest : read.bytes.length - read.offset using Nat.strong_induction_on generalizing read with
  | _ rest ih =>
    obtain ⟨read1, hread, hnext⟩ := rhizomeRead_inOrder h
    rw [readFile]
    split
    · next heq =>
      rw [hread] at heq
      cases heq
    · next read2 heq =>
      rw [hread] at heq
      obtain ⟨hnil, rfl⟩ := Prod.mk.inj heq
      have hnil := congrArg List.length (Option.some.inj hnil)
      rw [decipher_length, slice_length, length_nil] at hnil
      have hpage : 0 < pageSize := by decide
      have hdrop : read.bytes.drop read.offset = [] := drop_of_length_le (by omega)
      have hemp : (decipher env read []).length = 0 := decipher_length env read
      rw [hdrop, length_eq_zero_iff.mp hemp]
      exact ⟨read1, rfl, hnext⟩
    next b buf read2 heq =>
    have hprog := rhizomeRead_progress env (cons_ne_nil _ _) heq
    rw [hread] at heq
    obtain ⟨hbuf, rfl⟩ := Prod.mk.inj heq
    have hbuf := Option.some.inj hbuf
    obtain ⟨read', hrec, hdone⟩ := ih _ (by omega) hnext rfl
    obtain ⟨_, ver, ho, hashed, hfr⟩ := rhizomeRead_some env hread
    refine ⟨read', ?_, hdone⟩
    simp only
    rw [hrec, ← slice_append_drop read.bytes read.offset pageSize, decipher_append,
      Option.map_some, ← hbuf, hfr]
    rfl

theorem openRead_inOrder (h : store (env.sha512 bytes) = some bytes) :
    ∃ read, openRead store (env.sha512 bytes) = (.stored, read) ∧ InOrder env read ∧
      read.bytes = bytes ∧ read.offset = 0 ∧ read.tail = 0 := by
  rw [openRead, h]
  exact ⟨_, rfl, ⟨rfl, Nat.zero_le _, rfl, rfl, by simp⟩, rfl, rfl, rfl⟩

end RhizomeRead
