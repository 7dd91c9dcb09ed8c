import ServalDna.RhizomeCrypt
import ServalDna.RhizomeManifest
import Mathlib.Logic.Function.Basic

/-!
# Writing a payload into the Rhizome store

Pieces of a payload are written in any order. They are cached in a list of
blocks until they can be encrypted, hashed and stored in the order of the file.
The database and the file system take every write. The external file and the
row of FILEBLOBS are the bytes they hold; the state of SHA-512 is the bytes that
went into it.
-/
namespace RhizomeWrite

open ListSlice RhizomeCrypt RhizomeManifest

def bufferMaximumSize : Nat := 1024 * 1024

/-- `struct rhizome_write_buffer`. -/
structure Block where
  offset : Nat
  data : List UInt8
  deriving DecidableEq, Repr

def Block.endOffset (b : Block) : Nat := b.offset + b.data.length

/-- `struct rhizome_write`. `fileLength` is `none` for `RHIZOME_SIZE_UNSET`, `blobFd`
holds the external file once it is open, and `blobRow` the row that
`blob_rowid` stands for, which is open for writing while `sqlBlob` is set. -/
structure Write where
  fileLength : Option Nat
  fileOffset : Nat
  writtenOffset : Nat
  bufferList : List Block
  bufferSize : Nat
  hashed : List UInt8
  blobFd : Option (List UInt8)
  blobRow : Option (List UInt8)
  sqlBlob : Bool
  id : Filehash
  idKnown : Bool
  crypt : Bool
  tail : Nat
  key : List UInt8
  nonce : List UInt8
  deriving DecidableEq, Repr

def Write.cipher (w : Write) : Bool × Nat × List UInt8 × List UInt8 :=
  (w.crypt, w.tail, w.key, w.nonce)

/-- XSalsa20 by nonce, key and place, SHA-512, and `config.rhizome.max_blob_size`. -/
structure Env where
  xsalsa20 : List UInt8 → List UInt8 → Nat → UInt8
  sha512 : List UInt8 → Filehash
  maxBlobSize : Nat

variable (env : Env)

/-- The place in the stream is a sum of two `uint64_t`. -/
def encipher (w : Write) (offset : Nat) (buffer : List UInt8) : List UInt8 :=
  if w.crypt then cryptXorBlock env.xsalsa20 buffer ((offset + w.tail) % 2 ^ 64) w.key w.nonce
  else buffer

/-- `prepare_data`, with the buffer that it encrypts in place. -/
def prepareData (w : Write) (buffer : List UInt8) : Option (Write × List UInt8) :=
  if buffer = [] then none
  else if w.fileLength.any (fun length => w.fileOffset + buffer.length > length) then none
  else
    let buffer := encipher env w w.fileOffset buffer
    some ({ w with
      hashed := w.hashed ++ buffer
      fileOffset := w.fileOffset + buffer.length }, buffer)

def external (w : Write) : Bool := w.fileLength.all (fun length => length > env.maxBlobSize)

/-- `write_get_lock`. A new row of FILEBLOBS is filled with zeros. -/
def writeGetLock (w : Write) : Write :=
  if w.blobFd.isSome || w.sqlBlob then w
  else if external env w then { w with blobFd := some [] }
  else { w with
    blobRow := some (w.blobRow.getD (List.replicate (w.fileLength.getD 0) 0)), sqlBlob := true }

/-- `write_data`. A file that is too short is filled up with zeros; a row keeps its
length and has to be open. -/
def writeData (w : Write) (offset : Nat) (buffer : List UInt8) : Option Write :=
  if buffer = [] then some w
  else
    match w.blobFd, w.sqlBlob, w.blobRow with
    | some bytes, _, _ => some { w with
        blobFd := some (overwrite (bytes ++ List.replicate (offset - bytes.length) 0) offset buffer)
        writtenOffset := offset + buffer.length }
    | none, true, some bytes =>
      if offset + buffer.length > bytes.length then none
      else some { w with
        blobRow := some (overwrite bytes offset buffer)
        writtenOffset := offset + buffer.length }
    | none, _, _ => none

def writeReleaseLock (w : Write) : Write := { w with sqlBlob := false }

/-! ## `rhizome_random_write` -/

/-- The variables of the loop. `before` are the blocks that `ptr` has passed and
`after` those from `*ptr` on; `data` are the `data_size` bytes from `buffer`. -/
structure Cursor where
  w : Write
  before : List Block
  after : List Block
  offset : Nat
  data : List UInt8
  lastOffset : Nat
  deriving DecidableEq, Repr

/-- The end of a pass: `continue`, or `break` with the value of `ret`. -/
inductive Pass where
  | again (c : Cursor)
  | stop (ok : Bool) (c : Cursor)

/-- An existing block that can be processed now. -/
def prepareNext (c : Cursor) : Option Cursor :=
  match c.after with
  | [] => some c
  | n :: rest =>
    if n.offset = c.w.fileOffset then
      match prepareData env c.w n.data with
      | none => none
      | some (w, data) => some { c with w := w, after := ⟨n.offset, data⟩ :: rest }
    else some c

/-- An existing block that should be written now; `none` if there is none. -/
def flushNext (shouldWrite : Bool) (c : Cursor) : Option Pass :=
  match c.after with
  | [] => none
  | n :: rest =>
    if shouldWrite ∧ n.offset = c.w.writtenOffset then
      match writeData (writeGetLock env c.w) n.offset n.data with
      | none => some (.stop false { c with w := writeGetLock env c.w })
      | some w => some (.again { c with
          w := { w with bufferSize := w.bufferSize - n.data.length }
          after := rest
          lastOffset := n.offset + n.data.length })
    else none

/-- Incoming data that was already received is skipped; `none` if that is all. -/
def skipReceived (c : Cursor) : Option Cursor :=
  if c.offset < c.lastOffset then
    if c.lastOffset - c.offset ≥ c.data.length then none
    else some { c with
      offset := c.offset + (c.lastOffset - c.offset)
      data := c.data.drop (c.lastOffset - c.offset) }
  else some c

def pieceSize (c : Cursor) : Nat :=
  match c.after with
  | [] => c.data.length
  | n :: _ => min c.data.length (n.offset - c.offset)

def preparePiece (c : Cursor) : Option (Write × List UInt8) :=
  if c.offset = c.w.fileOffset then prepareData env c.w (c.data.take (pieceSize c))
  else some (c.w, c.data.take (pieceSize c))

/-- A piece of the incoming data is written or cached at the place of `ptr`. -/
def insertPiece (shouldWrite : Bool) (c : Cursor) : Pass :=
  match preparePiece env c with
  | none => .stop false c
  | some (w, piece) =>
    if shouldWrite ∧ c.offset = w.writtenOffset then
      match writeData (writeGetLock env w) c.offset piece with
      | none => .stop false { c with w := writeGetLock env w }
      | some w => .again { c with
          w := w
          offset := c.offset + pieceSize c
          data := c.data.drop (pieceSize c) }
    else
      let size := min (pieceSize c) (bufferMaximumSize - w.bufferSize)
      if size = 0 then .stop true { c with w := w }
      else .again { c with
        w := { w with bufferSize := w.bufferSize + size }
        before := c.before ++ [⟨c.offset, piece.take size⟩]
        offset := c.offset + size
        data := (piece ++ c.data.drop (pieceSize c)).drop size }

def pass (shouldWrite : Bool) (c : Cursor) : Pass :=
  match prepareNext env c with
  | none => .stop false c
  | some c =>
    match flushNext env shouldWrite c with
    | some r => r
    | none =>
      match skipReceived c with
      | none => .stop true c
      | some c =>
        if c.data = [] then .stop true c
        else
          match c.after with
          | [] => insertPiece env shouldWrite c
          | n :: rest =>
            if c.offset < n.offset then insertPiece env shouldWrite c
            else .again { c with
              before := c.before ++ [n]
              after := rest
              lastOffset := n.offset + n.data.length }

def Cursor.remaining (c : Cursor) : Nat := c.after.length + c.data.length

theorem prepareNext_remaining (h : prepareNext env c = some c') : c'.remaining = c.remaining := by
  revert h
  fun_cases prepareNext env c with
  | case2 => rintro ⟨⟩
  | case3 _ _ haft =>
    rintro ⟨⟩
    simp [Cursor.remaining, haft]
  | _ =>
    rintro ⟨⟩
    rfl

theorem flushNext_remaining (h : flushNext env shouldWrite c = some (.again c')) :
    c'.remaining < c.remaining := by
  revert h
  fun_cases flushNext env shouldWrite c with
  | case3 _ _ haft =>
    rintro ⟨⟩
    simp [Cursor.remaining, haft]
  | _ => rintro ⟨⟩

theorem skipReceived_remaining (h : skipReceived c = some c') : c'.remaining ≤ c.remaining := by
  rw [skipReceived] at h
  split at h
  · split at h <;> cases h
    simp only [Cursor.remaining, List.length_drop]
    omega
  cases h
  exact le_rfl

theorem pieceSize_pos (hdata : c.data ≠ []) (haft : ∀ n ∈ c.after.head?, c.offset < n.offset) :
    0 < pieceSize c := by
  have hpos := List.length_pos_iff.mpr hdata
  rw [pieceSize]
  split
  · exact hpos
  next n rest heq =>
  have hlt := haft n (by rw [heq]; rfl)
  omega

theorem pieceSize_le (c : Cursor) : pieceSize c ≤ c.data.length := by
  rw [pieceSize]
  split
  · exact le_rfl
  · exact min_le_left _ _

@[simp] theorem encipher_length (w : Write) (off : Nat) (buf : List UInt8) :
    (encipher env w off buf).length = buf.length := by
  rw [encipher]
  split
  · rw [cryptXorBlock_eq, KeyStream.xorFrom_length]
  · rfl

theorem encipher_eq (h : buf ≠ [] → off + w.tail < 2 ^ 64) : encipher env w off buf =
    if w.crypt then KeyStream.xorFrom (keyByte env.xsalsa20 w.key w.nonce) (off + w.tail) buf else buf := by
  rw [encipher, cryptXorBlock_eq]
  by_cases hnil : buf = []
  · rw [hnil, KeyStream.xorFrom_nil, KeyStream.xorFrom_nil]
  · rw [Nat.mod_eq_of_lt (h hnil)]

theorem preparePiece_length (h : preparePiece env c = some (w, pc)) : pc.length = pieceSize c := by
  have hle := pieceSize_le c
  rw [preparePiece] at h
  split at h
  · rw [prepareData] at h
    split at h
    · cases h
    split at h <;> cases h
    simp [hle]
  cases h
  simp [hle]

theorem insertPiece_remaining (hpos : 0 < pieceSize c)
    (h : insertPiece env shouldWrite c = .again c') : c'.remaining < c.remaining := by
  have hle := pieceSize_le c
  revert h
  fun_cases insertPiece env shouldWrite c with
  | case3 w pc hprep | case5 w pc hprep =>
    rintro ⟨⟩
    have hlen := preparePiece_length env hprep
    simp only [Cursor.remaining, List.length_drop, List.length_append]
    omega
  | _ => rintro ⟨⟩

theorem pass_remaining (h : pass env shouldWrite c = .again c') : c'.remaining < c.remaining := by
  rw [pass] at h
  split at h
  · cases h
  next c1 hprep =>
  have h1 := prepareNext_remaining env hprep
  split at h
  · next r hflu =>
    rw [h] at hflu
    have h2 := flushNext_remaining env hflu
    omega
  split at h
  · cases h
  next c2 hskip =>
  have h2 := skipReceived_remaining hskip
  split at h
  · cases h
  next hdata =>
  split at h
  · next haft =>
    have h3 := insertPiece_remaining env (pieceSize_pos hdata (by simp [haft])) h
    omega
  next n rest haft =>
  split at h
  · next hlt =>
    have h3 := insertPiece_remaining env (pieceSize_pos hdata (by simp [haft, hlt])) h
    omega
  cases h
  have h3 : rest.length + c2.data.length < c2.remaining := by
    simp only [Cursor.remaining, haft, List.length_cons]
    omega
  exact lt_of_lt_of_le h3 (le_trans h2 (le_of_eq h1))

def writeLoop (shouldWrite : Bool) (c : Cursor) : Bool × Cursor :=
  match _hpass : pass env shouldWrite c with
  | .stop ok c => (ok, c)
  | .again c' => writeLoop shouldWrite c'
termination_by c.remaining
decreasing_by exact pass_remaining env _hpass

def shouldWrite (w : Write) (buffer : Option (List UInt8)) (size : Nat) : Bool :=
  w.blobFd.isSome || w.sqlBlob || buffer.isNone || external env w ||
    decide (w.fileOffset > env.maxBlobSize) ||
    w.fileLength.any (fun length => w.writtenOffset + w.bufferSize + size ≥ length) ||
    decide (w.writtenOffset + w.bufferSize + size ≥ bufferMaximumSize)

def clip (w : Write) (offset : Nat) (buffer : List UInt8) : List UInt8 :=
  match w.fileLength with
  | none => buffer
  | some length => buffer.take (length - offset)

/-- `rhizome_random_write`; a buffer of `none` is NULL. The result tells whether it
returns 0. -/
def randomWrite (w : Write) (offset : Nat) (buffer : Option (List UInt8)) : Bool × Write :=
  if w.fileLength.any (fun length => offset ≥ length) then (true, w)
  else
    let data := clip w offset (buffer.getD [])
    let r := writeLoop env (shouldWrite env w buffer data.length)
      ⟨w, [], w.bufferList, offset, data, w.writtenOffset⟩
    (r.1, writeReleaseLock { r.2.w with bufferList := r.2.before ++ r.2.after })

def writeBuffer (w : Write) (buffer : List UInt8) : Bool × Write :=
  randomWrite env w w.fileOffset (some buffer)

/-! ## Opening and finishing a payload -/

/-- `enum rhizome_payload_status`. -/
inductive PayloadStatus where
  | error | empty | new | stored | wrongSize | wrongHash | cryptoFail | tooBig | evicted
  deriving DecidableEq, Repr

/-- The payloads of the store, each under its hash: the rows of FILES whose bytes are
in FILEBLOBS or in a file. -/
abbrev Store := Filehash → Option (List UInt8)

def rhizomeExists (store : Store) (hash : Filehash) : Bool := (store hash).isSome

/-- `store_make_space` in the state that disk and clock are in: the payloads that are
left in the store, and whether the new one fits in. -/
abbrev MakeSpace := Store → Nat → PayloadStatus × Store

def zeroed : Write := ⟨some 0, 0, 0, [], 0, [], none, none, false, [], false, false, 0, [], []⟩

/-- `rhizome_open_write` on a state of zeros. -/
def openWrite (makeSpace : MakeSpace) (store : Store) (expectedHash : Option Filehash)
    (fileLength : Option Nat) : PayloadStatus × Write × Store :=
  if fileLength = some 0 then (.empty, zeroed, store)
  else if expectedHash.any (rhizomeExists store) then (.stored, zeroed, store)
  else
    let w := { zeroed with id := expectedHash.getD [], idKnown := expectedHash.isSome }
    match fileLength with
    | none => (.new, { w with fileLength := none }, store)
    | some length =>
      let (status, store) := makeSpace store length
      if status ≠ .new then (status, w, store)
      else (.new, { w with fileLength := some length }, store)

def setKey (w : Write) (crypt : Bool) (tail : Nat) (key nonce : List UInt8) : Write :=
  { w with crypt, tail, key, nonce }

/-- `rhizome_fail_write`: the file and the row are removed. -/
def failWrite (w : Write) : Write :=
  { writeReleaseLock w with blobFd := none, blobRow := none, bufferList := [] }

/-- The part of `rhizome_finish_write` where the length becomes known. -/
def settleLength (makeSpace : MakeSpace) (store : Store) (w : Write) : PayloadStatus × Write × Store :=
  match w.fileLength with
  | some _ => (.new, w, store)
  | none =>
    let w := { w with fileLength := some w.fileOffset }
    if w.fileOffset = 0 then (.empty, w, store)
    else
      let (status, store) := makeSpace store w.fileOffset
      (status, w, store)

def flushBuffers (w : Write) : Bool × Write :=
  if w.bufferList = [] then (true, w) else randomWrite env w 0 none

def copyFileToBlob (bytes : List UInt8) (size : Nat) : Option (List UInt8) :=
  if bytes.length < size then none else some (bytes.take size)

/-- The bytes that were written: those of the row, or those of the file, which is
copied into a row if it is small enough. -/
def payloadBytes (w : Write) : Option (List UInt8) :=
  match w.blobFd with
  | none => w.blobRow
  | some bytes =>
    if external env w then some bytes
    else some ((copyFileToBlob bytes (w.fileLength.getD 0)).getD bytes)

def storePayload (store : Store) (status : PayloadStatus) (w : Write) : PayloadStatus × Write × Store :=
  let closed := { writeReleaseLock w with blobFd := none, blobRow := none }
  if rhizomeExists store w.id then (.stored, closed, store)
  else (status, closed, Function.update store w.id (payloadBytes env w))

/-- `rhizome_finish_write`. The result is `none` if the assertion fails that no more
was written than expected. -/
def finishWrite (makeSpace : MakeSpace) (store : Store) (w : Write) :
    Option (PayloadStatus × Write × Store) :=
  let (status, w, store) := settleLength makeSpace store w
  if status ≠ .new ∧ status ≠ .empty then some (status, failWrite w, store)
  else
    let (ok, w) := flushBuffers env w
    if ok = false ∨ w.bufferList ≠ [] then some (.error, failWrite w, store)
    else if w.fileLength.any (fun length => w.fileOffset < length) then
      some (.wrongSize, failWrite w, store)
    else if w.fileLength ≠ some w.fileOffset then none
    else if w.fileLength = some 0 then some (status, failWrite w, store)
    else if w.idKnown ∧ w.id ≠ env.sha512 w.hashed then some (.wrongHash, failWrite w, store)
    else some (storePayload env store status { w with id := env.sha512 w.hashed })

end RhizomeWrite
