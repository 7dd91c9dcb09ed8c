import ServalDna.RandomWrite
import ServalDna.RhizomeRead

/-!
# Appending to a journal

An append drops bytes from the front of a journal, copies the rest of the old
payload as it is stored, and writes the new bytes behind it. The stored bytes
stay valid since byte `i` of the payload is always encrypted with byte
`tail + i` of the key stream of the bundle.
-/
namespace JournalAppend

open ListSlice KeyStream RhizomeCrypt RhizomeManifest RhizomeWrite RhizomeRead RandomWrite
open List Option

variable (env : Env)

/-! ## `rhizome_append_journal_buffer` -/

/-- The loop of `rhizome_pipe`. It never ends once a read returns no bytes, which
`none` stands for. -/
def pipeLoop (read : Read) (w : Write) (length : Nat) : Option (Bool × Read × Write) :=
  if length = 0 then some (true, read, w)
  else
    match rhizomeRead env read (min pageSize length) with
    | (none, read) => some (false, read, w)
    | (some [], _) => none
    | (some (b :: rest), read) =>
      let r := writeBuffer env w (b :: rest)
      if r.1 then pipeLoop read r.2 (length - (b :: rest).length) else some (false, read, r.2)
termination_by length
decreasing_by
  simp only [length_cons]
  omega

def rhizomePipe (read : Read) (w : Write) (length : Nat) : Option (Bool × Read × Write) :=
  if w.fileLength.any (fun fileLength => w.fileOffset > fileLength) then none
  else if w.fileLength.any (fun fileLength => length > fileLength - w.fileOffset) then
    some (false, read, w)
  else pipeLoop env read w length

def journalPipe (store : Store) (w : Write) (hash : Filehash) (startOffset length : Nat) :
    Option (PayloadStatus × Write × Store) :=
  match openRead store hash with
  | (.stored, read) =>
    match rhizomePipe env { read with offset := startOffset } w length with
    | none => none
    | some (ok, read, w) => some (if ok then .stored else .error, w, readClose store read)
  | (status, read) => some (status, w, readClose store read)

def writeDeriveKey (keyring : Keyring) (m : Manifest) (w : Write) : PayloadStatus × Manifest × Write :=
  if m.payloadEncryption ≠ .encrypted then (.new, m, w)
  else
    match derivePayloadKey env keyring m with
    | none => (.cryptoFail, m, w)
    | some m => (.new, m, setKey w true (if m.isJournal ∧ m.tail > 0 then m.tail.toNat else w.tail)
        m.payloadKey m.payloadNonce)

/-- The part of `rhizome_write_open_journal` that copies the old payload. The status
codes that `rhizome_journal_pipe` should not return are fatal. -/
def copyExisting (store : Store) (w : Write) (m : Manifest) (advanceBy copyLength : UInt64) :
    Option (PayloadStatus × Write × Store) :=
  if copyLength > 0 then
    match journalPipe env store w (m.filehash.getD []) advanceBy.toNat copyLength.toNat with
    | none => none
    | some (status, w, store) =>
      match status with
      | .empty | .new | .stored => some (.new, w, store)
      | .error | .tooBig => some (status, w, store)
      | .wrongSize | .wrongHash | .cryptoFail | .evicted => none
  else some (.new, w, store)

def advanceTail (m : Manifest) (advanceBy : UInt64) : Manifest :=
  if advanceBy > 0 then setTail m (m.tail + advanceBy) else m

def knownSize (size : UInt64) : Option Nat := if size = sizeUnset then none else some size.toNat

/-- The assertions of `rhizome_write_open_journal`. -/
def OpenAsserts (m : Manifest) (advanceBy appendSize : UInt64) : Prop :=
  m.isJournal = true ∧ m.filesize ≠ sizeUnset ∧ advanceBy ≤ m.filesize ∧
    (appendSize ≠ sizeUnset → m.filesize + appendSize > m.filesize)

instance (m : Manifest) (advanceBy appendSize : UInt64) : Decidable (OpenAsserts m advanceBy appendSize) :=
  inferInstanceAs (Decidable (_ ∧ _))

/-- `rhizome_write_open_journal`. The result is `none` if an assertion fails or the
call does not return. -/
def writeOpenJournal (keyring : Keyring) (makeSpace : MakeSpace) (store : Store) (m : Manifest)
    (advanceBy appendSize : UInt64) : Option (PayloadStatus × Manifest × Write × Store) :=
  if ¬OpenAsserts m advanceBy appendSize then none
  else
    let copyLength := m.filesize - advanceBy
    let newFilesize :=
      if appendSize = sizeUnset then sizeUnset else m.filesize + appendSize - advanceBy
    let m := advanceTail m advanceBy
    match openWrite makeSpace store none (knownSize newFilesize) with
    | (.new, w, store) =>
      match copyExisting env store w m advanceBy copyLength with
      | none => none
      | some (.new, w, store) =>
        match writeDeriveKey env keyring m w with
        | (.new, m, w) => some (.new, m, w, store)
        | (status, m, w) => some (status, m, failWrite w, store)
      | some (status, w, store) => some (status, m, failWrite w, store)
    | (status, w, store) => some (status, m, failWrite w, store)

/-- The size of a manifest is filled in, and the version of a journal. -/
def fillSize (m : Manifest) (length : UInt64) : Manifest :=
  let m := setFilesize m length
  if m.isJournal then setVersion m (m.tail + m.filesize) else m

def fillHash (m : Manifest) (status : PayloadStatus) (id : Filehash) : PayloadStatus × Manifest :=
  if m.filesize ≠ 0 then
    if m.isJournal ∨ m.filehash = none then (status, setFilehash m id)
    else if m.filehash ≠ some id then (.wrongHash, m)
    else (status, m)
  else if m.isJournal then (status, delFilehash m)
  else if m.filehash ≠ none then (.wrongHash, m)
  else (status, m)

/-- The second half of `rhizome_finish_store`. -/
def fillManifest (w : Write) (m : Manifest) (status : PayloadStatus) (length : UInt64) :
    PayloadStatus × Manifest :=
  if ¬(m.isJournal ∨ m.filesize = sizeUnset) ∧ m.filesize ≠ length then (.wrongSize, m)
  else fillHash (fillSize m length) status w.id

def finishStore (w : Write) (m : Manifest) (status : PayloadStatus) :
    Option (PayloadStatus × Manifest) :=
  match status with
  | .empty => if w.fileLength = some 0 then some (fillManifest w m status 0) else none
  | .new | .stored => w.fileLength.map fun length => fillManifest w m status (UInt64.ofNat length)
  | _ => some (status, m)

/-- The new bytes are written, and the payload is finished if that goes well. -/
def fillWrite (makeSpace : MakeSpace) (store : Store) (fill : Write → Bool × Write) (w : Write) :
    Option (PayloadStatus × Write × Store) :=
  let r := fill w
  if r.1 then finishWrite env makeSpace store r.2 else some (.error, r.2, store)

/-- `rhizome_append_journal_buffer` and `rhizome_append_journal_file`, of which `fill`
writes the buffer or the file. -/
def appendJournal (keyring : Keyring) (makeSpace : MakeSpace) (store : Store) (m : Manifest)
    (advanceBy appendSize : UInt64) (fill : Write → Bool × Write) :
    Option (PayloadStatus × Manifest × Store) :=
  match writeOpenJournal env keyring makeSpace store m advanceBy appendSize with
  | none => none
  | some (.new, m, w, store) =>
    (fillWrite env makeSpace store fill w).bind fun (status, w, store) =>
      (finishStore w m status).map fun (status, m) => (status, m, store)
  | some (status, m, _, store) => some (status, m, store)

def appendJournalBuffer (keyring : Keyring) (makeSpace : MakeSpace) (store : Store) (m : Manifest)
    (advanceBy : UInt64) (buffer : List UInt8) : Option (PayloadStatus × Manifest × Store) :=
  appendJournal env keyring makeSpace store m advanceBy (UInt64.ofNat buffer.length) fun w =>
    if buffer = [] then (true, w) else writeBuffer env w buffer

variable {env}

theorem not_pos {n : UInt64} (h : ¬n > 0) : n = 0 := by simpa using h

/-! ## Copying the old payload -/

/-- The kept bytes are copied as they are, and the added ones are encrypted behind
them. -/
def journalPlan (kept added : List UInt8) (stream : Nat → UInt8) (start : Nat)
    (cipher : Bool × Nat × List UInt8 × List UInt8) (limit : Nat)
    (hlimit : limit ≤ kept.length + added.length) : Plan where
  plain := kept ++ added
  target := kept ++ xorFrom stream (start + kept.length) added
  limit := limit
  cipher := cipher
  length_eq := by simp
  limit_le := by simpa using hlimit

variable {read : Read}

theorem encipher_raw (h : w.cipher = rawCipher) : encipher env w a buffer = buffer := by
  rw [encipher, show w.crypt = false from congrArg Prod.fst h]
  rfl

theorem rhizomePipe_true {length : Nat} (h : rhizomePipe env read w length = some (true, read', w')) :
    pipeLoop env read w length = some (true, read', w') := by
  rw [rhizomePipe] at h
  split at h
  · cases h
  split at h
  · cases h
  · exact h

/-- The next bytes are written up to the end of the plan. -/
theorem writeBuffer_next (h : Writing env P w)
    (hbuf : buffer = slice P.plain w.fileOffset buffer.length)
    (hend : w.fileOffset + buffer.length = P.limit) :
    let r := writeBuffer env w buffer
    r.1 = true ∧ r.2.fileOffset = P.limit ∧ Writing env P r.2 := by
  have hle := P.limit_le
  have hclip : clip w w.fileOffset ((some buffer).getD []) = buffer := by
    rw [clip, h.streaming.length]
    apply take_of_length_le
    rw [getD_some]
    omega
  obtain ⟨hok, hwrt, hgoal⟩ := randomWrite_writing h w.fileOffset (some buffer) (some P.limit)
    (by rw [hclip]; exact hbuf) (by rw [hclip]; exact fun _ => le_of_eq hend)
    (by rw [hclip]; intro e he; cases he; exact ⟨le_rfl, hend⟩)
  exact ⟨hok, le_antisymm hwrt.streaming.processed_le (hgoal _ rfl), hwrt⟩

section Copy

variable {kept added : List UInt8} {stream : Nat → UInt8}

/-- One piece of the copy. -/
theorem writeBuffer_copies {w : Write} {limit n : Nat} {hlim : limit ≤ kept.length + added.length}
    (h : Writing env (journalPlan kept added stream start rawCipher limit hlim) w)
    (hoff : w.fileOffset = limit) (hn : limit + n ≤ kept.length) :
    let r := writeBuffer env w (slice kept limit n)
    r.1 = true ∧ r.2.fileOffset = limit + n ∧
      Writing env (journalPlan kept added stream start rawCipher (limit + n) (by omega)) r.2 := by
  have hlen : (slice kept limit n).length = n := by
    rw [slice_length]
    omega
  have hext : Writing env (journalPlan kept added stream start rawCipher (limit + n) (by omega)) w := by
    apply writing_setKey (Q := journalPlan kept added stream start rawCipher (limit + n) (by omega)) h rfl
      rfl (Nat.le_add_right _ _) w.crypt w.tail w.key w.nonce h.streaming.cipher
    intro a m _ hle
    have hkept : a + m ≤ kept.length := le_trans hle hn
    apply (encipher_raw h.streaming.cipher).trans
    exact (slice_append_left _ _ _ _ hkept).trans (slice_append_left _ _ _ _ hkept).symm
  apply writeBuffer_next hext
  · rw [hlen, hoff]
    exact (slice_append_left _ _ _ _ hn).symm
  rw [hlen, hoff]
  rfl

/-- The kept bytes are copied. -/
theorem pipeLoop_copies {read' : Read} {limit length : Nat}
    {hlim : limit ≤ kept.length + added.length} (hlen : limit + length = kept.length)
    (h : Writing env (journalPlan kept added stream start rawCipher limit hlim) w)
    (hoff : w.fileOffset = limit) (hcry : read.crypt = false)
    (hbs : read.bytes.drop read.offset = kept.drop limit)
    (hpipe : pipeLoop env read w length = some (true, read', w')) :
    w'.fileOffset = kept.length ∧
      Writing env (journalPlan kept added stream start rawCipher kept.length (Nat.le_add_right _ _)) w' := by
  fun_induction pipeLoop generalizing limit with
  | case1 read w =>
    cases hpipe
    obtain rfl : limit = kept.length := hlen
    exact ⟨hoff, h⟩
  | case4 read w length hzero b rest read1 hread r hr =>
    next ih =>
    obtain ⟨hbuf, ver, ho, hashed, hread1⟩ := rhizomeRead_some env hread
    have hsli : slice read.bytes read.offset (min pageSize length) =
        slice kept limit (min pageSize length) := by
      rw [slice, hbs, slice]
    rw [decipher, hcry, hsli] at hbuf
    simp only [Bool.false_eq_true, if_false] at hbuf
    have hn : (b :: rest).length = min pageSize length := by
      rw [hbuf, slice_length]
      omega
    have hcopy := @writeBuffer_copies env kept added stream start w limit (min pageSize length) hlim h
      hoff (by omega)
    rw [← hbuf] at hcopy
    obtain ⟨-, hoff', hwrt⟩ := hcopy
    apply ih (by omega) hwrt hoff' ?_ ?_ hpipe
    · rw [hread1]
      exact hcry
    rw [hread1, hsli, ← hbuf, hn, ← drop_drop, hbs, drop_drop]
  | _ => cases hpipe

/-- The old payload is copied if it is there. -/
theorem copyExisting_new {w w' : Write} {store store' : Store} {m : Manifest}
    {adv cl : UInt64} (hfr : Fresh w (kept.length + added.length))
    (hraw : w.cipher = rawCipher) (hlen : cl.toNat = kept.length)
    (hold : kept ≠ [] → ∀ bytes, store (m.filehash.getD []) = some bytes →
      bytes.drop adv.toNat = kept)
    (hcopy : copyExisting env store w m adv cl = some (.new, w', store')) :
    (w'.fileOffset = kept.length ∧ Writing env
      (journalPlan kept added stream start rawCipher kept.length (Nat.le_add_right _ _)) w') ∨
    (kept ≠ [] ∧ w' = w) := by
  have hst : Writing env (journalPlan kept added stream start rawCipher 0 (Nat.zero_le _)) w := by
    apply writing_fresh
    · simpa [journalPlan] using hfr
    · exact hraw
    intro a n hle
    have hzero : n = 0 := by
      simp only [journalPlan] at hle
      omega
    subst hzero
    rw [encipher_raw hraw, slice_zero_length, slice_zero_length]
  rw [copyExisting] at hcopy
  by_cases hpos : cl > 0
  · have hne : kept ≠ [] := by
      rw [gt_iff_lt, UInt64.lt_iff_toNat_lt, hlen] at hpos
      exact length_pos_iff.mp hpos
    rw [if_pos hpos, journalPipe, openRead] at hcopy
    cases hsto : store (m.filehash.getD []) with
    | none =>
      rw [hsto] at hcopy
      cases hcopy
      exact .inr ⟨hne, rfl⟩
    | some bytes =>
      left
      rw [hsto] at hcopy
      simp only at hcopy
      split at hcopy
      · cases hcopy
      next st w1 store1 heq =>
      split at heq
      · cases heq
      next ok read w2 hpipe =>
      cases heq
      cases ok with
      | false => cases hcopy
      | true =>
        cases hcopy
        apply pipeLoop_copies (by omega) hst hfr.processed rfl ?_ (rhizomePipe_true hpipe)
        exact hold hne bytes hsto
  have hnil : kept = [] := length_eq_zero_iff.mp (by rw [← hlen, not_pos hpos]; rfl)
  rw [if_neg hpos] at hcopy
  cases hcopy
  subst hnil
  exact .inl ⟨hfr.processed, hst⟩

end Copy

/-- The new bytes are encrypted behind those that were kept. -/
theorem writeBuffer_appends {kept added key nc : List UInt8}
    {cipher : Bool × Nat × List UInt8 × List UInt8}
    (hwrap : start + kept.length + added.length ≤ 2 ^ 64)
    (h : Writing env (journalPlan kept added (keyByte env.xsalsa20 key nc) start cipher
      kept.length (Nat.le_add_right _ _)) w) (hoff : w.fileOffset = kept.length) :
    let r := writeBuffer env (setKey w true start key nc) added
    r.1 = true ∧ Writing env (journalPlan kept added (keyByte env.xsalsa20 key nc) start
      (true, start, key, nc) (kept.length + added.length) le_rfl) r.2 := by
  have hkeyed := writing_setKey (Q := journalPlan kept added (keyByte env.xsalsa20 key nc) start
    (true, start, key, nc) (kept.length + added.length) le_rfl) h rfl rfl
    (Nat.le_add_right _ _) true start key nc rfl (by
      intro a n ha hle
      rw [hoff] at ha
      simp only [journalPlan]
      rw [slice_append_right _ _ _ _ ha, slice_append_right _ _ _ _ ha, slice_xorFrom, encipher_eq]
      · simp only [setKey, if_true]
        congr 1
        omega
      · intro hne
        have := length_pos_iff.mpr hne
        simp only [slice, length_take, length_drop] at this
        simp only [setKey]
        omega)
  have hsli : added = slice (kept ++ added) w.fileOffset added.length := by
    rw [hoff, slice_append_right _ _ _ _ le_rfl, Nat.sub_self, slice_start_zero, take_length]
  obtain ⟨hok, -, hwrt⟩ := writeBuffer_next hkeyed hsli (congrArg (· + added.length) hoff)
  exact ⟨hok, hwrt⟩

/-- A payload whose old bytes were not copied stays too short. -/
theorem uncopied_not_new {kept added key nc : List UInt8} {tail : Nat} {ms : MakeSpace}
    {store store' : Store} (hkept : kept ≠ []) (hwrap : tail + kept.length + added.length ≤ 2 ^ 64)
    (hfr : Fresh w (kept.length + added.length)) :
    finishWrite env ms store (writeBuffer env (setKey w true tail key nc) added).2 ≠
      some (.new, w', store') := by
  intro hfin
  have hpos := length_pos_iff.mpr hkept
  let P := journalPlan [] (added ++ List.replicate kept.length 0) (keyByte env.xsalsa20 key nc) tail
    (true, tail, key, nc) added.length (by simp)
  have hlen : P.target.length = kept.length + added.length := by simp [P, journalPlan, add_comm]
  have hst : Writing env P (setKey w true tail key nc) := by
    apply writing_fresh
    · rw [hlen]
      exact fresh_setKey hfr true tail key nc
    · rfl
    intro a n _
    simp only [P, journalPlan, nil_append, length_nil, add_zero]
    rw [slice_xorFrom, add_comm, encipher_eq]
    · rfl
    · intro hne
      have := length_pos_iff.mpr hne
      simp only [slice, length_take, length_drop, length_append, length_replicate] at this
      simp only [setKey]
      omega
  have hzero : (setKey w true tail key nc).fileOffset = 0 := hfr.processed
  have hsli : added = slice P.plain (setKey w true tail key nc).fileOffset added.length := by
    simp [hzero, P, journalPlan, slice_start_zero]
  obtain ⟨-, -, hwrt⟩ := writeBuffer_next hst hsli (by simp [hzero, P, journalPlan])
  have hlim := (finishWrite_new hwrt (by rw [← length_pos_iff]; omega) hfin).1
  rw [hlen, show P.limit = added.length from rfl] at hlim
  omega

/-! ## Inversion -/

section Append

variable {m m' : Manifest}

def keyOf (env : Env) (keyring : Keyring) (m : Manifest) : Option (List UInt8 × List UInt8) :=
  (derivePayloadKey env keyring m).map fun m => (m.payloadKey, m.payloadNonce)

def withKeys (m : Manifest) (key nonce : List UInt8) : Manifest :=
  { m with payloadKey := key, payloadNonce := nonce }

theorem derivePayloadKey_some (h : derivePayloadKey env keyring m = some m') :
    ∃ key nc, m' = withKeys m key nc ∧ keyOf env keyring m = some (key, nc) := by
  rw [keyOf, h]
  obtain ⟨source, _, rfl⟩ := map_eq_some_iff.mp h
  exact ⟨_, _, rfl, rfl⟩

theorem writeDeriveKey_keys (h : writeDeriveKey env keyring m w = (st, m', w')) :
    ∃ key nonce, m' = withKeys m key nonce := by
  rw [writeDeriveKey] at h
  split at h
  · cases h
    exact ⟨_, _, rfl⟩
  split at h
  · cases h
    exact ⟨_, _, rfl⟩
  next hder =>
  cases h
  obtain ⟨key, nonce, hm, -⟩ := derivePayloadKey_some hder
  exact ⟨key, nonce, hm⟩

/-- What an open has done. The tail has moved whatever comes of it. -/
theorem writeOpenJournal_some (h : writeOpenJournal env keyring ms store m adv asz =
      some (st, m', w, store')) :
    OpenAsserts m adv asz ∧
    (∃ key nc, m' = withKeys (advanceTail m adv) key nc) ∧
    (st = .new → ∃ w0 store0 w1,
      openWrite ms store none (knownSize (if asz = sizeUnset then sizeUnset
        else m.filesize + asz - adv)) = (.new, w0, store0) ∧
      copyExisting env store0 w0 (advanceTail m adv) adv (m.filesize - adv) =
        some (.new, w1, store') ∧
      writeDeriveKey env keyring (advanceTail m adv) w1 = (.new, m', w)) := by
  rw [writeOpenJournal] at h
  split at h
  · cases h
  next hass =>
  refine ⟨not_not.mp hass, ?_⟩
  simp only at h
  split at h
  · next w0 store0 hwr =>
    split at h
    · cases h
    · next w1 store1 hcopy =>
      split at h
      · next hkey =>
        cases h
        exact ⟨writeDeriveKey_keys hkey, fun _ => ⟨w0, store0, w1, hwr, hcopy, hkey⟩⟩
      next hne hkey =>
      cases h
      exact ⟨writeDeriveKey_keys hkey, fun hnew => (hne hnew).elim⟩
    next hne _ =>
    cases h
    exact ⟨⟨_, _, rfl⟩, fun hnew => (hne hnew).elim⟩
  next hne _ =>
  cases h
  exact ⟨⟨_, _, rfl⟩, fun hnew => (hne hnew).elim⟩

theorem fillHash_status (m : Manifest) (st : PayloadStatus) (id : Filehash) :
    (fillHash m st id).1 = st ∨ (fillHash m st id).1 = .wrongHash := by
  fun_cases fillHash with
  | case2 | case5 => exact .inr rfl
  | _ => exact .inl rfl

theorem fillManifest_new {length : UInt64}
    (h : fillManifest w m st length = (.new, m')) : st = .new := by
  rw [fillManifest] at h
  split at h
  · cases h
  have hstat := fillHash_status (fillSize m length) st w.id
  rw [h] at hstat
  cases hstat with
  | inl heq => exact heq.symm
  | inr heq => cases heq

/-- The statuses of a payload that is in the store. -/
def Kept (status : PayloadStatus) : Prop := status = .new ∨ status = .stored ∨ status = .empty

theorem finishStore_cases (h : finishStore w m st = some (st', m')) :
    (Kept st ∧ ∃ n, w.fileLength = some n ∧ (st = .empty → n = 0) ∧
      fillManifest w m st (UInt64.ofNat n) = (st', m')) ∨ ¬Kept st ∧ st' = st ∧ m' = m := by
  cases st with
  | empty =>
    simp only [finishStore] at h
    split at h
    · next hzero => exact .inl ⟨.inr (.inr rfl), 0, hzero, fun _ => rfl, Option.some.inj h⟩
    · cases h
  | new =>
    obtain ⟨n, hn, hfill⟩ := map_eq_some_iff.mp h
    exact .inl ⟨.inl rfl, n, hn, by simp, hfill⟩
  | stored =>
    obtain ⟨n, hn, hfill⟩ := map_eq_some_iff.mp h
    exact .inl ⟨.inr (.inl rfl), n, hn, by simp, hfill⟩
  | _ =>
    cases h
    exact .inr ⟨by simp [Kept], rfl, rfl⟩

theorem finishStore_status (h : finishStore w m st = some (.new, m')) : st = .new := by
  obtain ⟨-, n, -, -, hfill⟩ | ⟨-, hstat, -⟩ := finishStore_cases h
  · exact fillManifest_new hfill
  · exact hstat.symm

def appended (m : Manifest) (length : UInt64) (hash : Filehash) : Manifest :=
  setFilehash (setVersion (setFilesize m length) (m.tail + length)) hash

@[simp] theorem appended_tail (length : UInt64) (hash : Filehash) :
    (appended m length hash).tail = m.tail := rfl

@[simp] theorem appended_filesize (length : UInt64) (hash : Filehash) :
    (appended m length hash).filesize = length := rfl

@[simp] theorem appended_version (length : UInt64) (hash : Filehash) :
    (appended m length hash).version = m.tail + length := rfl

theorem finishStore_journal {n : Nat} (hjou : m.isJournal = true)
    (hlen : w.fileLength = some n) (hn : UInt64.ofNat n ≠ 0) :
    finishStore w m .new = some (.new, appended m (UInt64.ofNat n) w.id) := by
  rw [finishStore, hlen]
  simp [fillManifest, fillHash, fillSize, setFilesize, setVersion, hjou, hn, appended]

/-- An append ends with the payload that it has opened, or returns the error of the open. -/
theorem appendJournal_some (h : appendJournal env keyring ms store m adv asz fill = some (st, m', store')) :
    (∃ m1 w store1 st1 w1, writeOpenJournal env keyring ms store m adv asz = some (.new, m1, w, store1) ∧
      fillWrite env ms store1 fill w = some (st1, w1, store') ∧ finishStore w1 m1 st1 = some (st, m')) ∨
    st ≠ .new ∧ ∃ w, writeOpenJournal env keyring ms store m adv asz = some (st, m', w, store') := by
  rw [appendJournal] at h
  split at h
  · cases h
  · next hopen =>
    obtain ⟨⟨st1, w1, store2⟩, hfill, h⟩ := bind_eq_some_iff.mp h
    obtain ⟨⟨st', m2⟩, hsto, heq⟩ := map_eq_some_iff.mp h
    cases heq
    exact .inl ⟨_, _, _, _, _, hopen, hfill, hsto⟩
  · next hne hopen =>
    cases h
    exact .inr ⟨hne, _, hopen⟩

/-- The calls that an append of a new version is made of. -/
theorem appendJournalBuffer_new (hne : buf ≠ []) (hset : UInt64.ofNat buf.length ≠ sizeUnset)
    (h : appendJournalBuffer env keyring ms store m adv buf = some (.new, m', store')) :
    ∃ w0 store0 w1 store1 m1 w w', openWrite ms store none
        (knownSize (m.filesize + UInt64.ofNat buf.length - adv)) = (.new, w0, store0) ∧
      copyExisting env store0 w0 (advanceTail m adv) adv (m.filesize - adv) =
        some (.new, w1, store1) ∧
      writeDeriveKey env keyring (advanceTail m adv) w1 = (.new, m1, w) ∧
      finishWrite env ms store1 (writeBuffer env w buf).2 = some (.new, w', store') ∧
      finishStore w' m1 .new = some (.new, m') := by
  obtain ⟨m1, w, store1, st1, w', hopen, hfill, hsto⟩ | ⟨hnew, -⟩ := appendJournal_some h
  · obtain rfl := finishStore_status hsto
    simp only [fillWrite, if_neg hne] at hfill
    split at hfill
    · obtain ⟨-, -, hnew⟩ := writeOpenJournal_some hopen
      obtain ⟨w0, store0, w1, hwr, hcopy, hkey⟩ := hnew rfl
      rw [if_neg hset] at hwr
      exact ⟨w0, store0, w1, store1, m1, w, w', hwr, hcopy, hkey, hfill, hsto⟩
    · cases hfill
  · exact absurd rfl hnew

/-! ## One append -/

/-- An encrypted journal: byte `i` of its content is stored under byte `tail + i` of
the key stream. -/
structure Journal (env : Env) (keyring : Keyring) (store : Store) (m : Manifest)
    (content : List UInt8) : Prop extends IsJournal m where
  encrypted : m.payloadEncryption = .encrypted
  size : m.filesize.toNat = content.length
  stored : content ≠ [] → ∃ hash key nonce, m.filehash = some hash ∧
    keyOf env keyring m = some (key, nonce) ∧
    store hash = some (xorFrom (keyByte env.xsalsa20 key nonce) m.tail.toNat content)

/-- Making space only removes payloads. -/
def Evicts (makeSpace : MakeSpace) : Prop :=
  ∀ store size hash bytes, (makeSpace store size).2 hash = some bytes → store hash = some bytes

/-- All versions of a journal have one key and one nonce. -/
theorem keyOf_journal (hj : m.isJournal = true) (hj' : m'.isJournal = true)
    (hpub : m'.cryptoSignPublic = m.cryptoSignPublic)
    (hsrc : keySource keyring m' = keySource keyring m) :
    keyOf env keyring m' = keyOf env keyring m := by
  rw [keyOf, keyOf, derivePayloadKey, derivePayloadKey, hsrc, nonceSource, nonceSource, hj, hj',
    hpub, Option.map_map, Option.map_map]
  rfl

theorem toNat_ofNat {n : Nat} (h : n < sizeUnset.toNat) : (UInt64.ofNat n).toNat = n := by
  rw [sizeUnset_toNat] at h
  exact UInt64.toNat_ofNat_of_lt (by simp only [UInt64.size]; omega)

theorem toNat_add {a b : UInt64} (h : a.toNat + b.toNat < sizeUnset.toNat) :
    (a + b).toNat = a.toNat + b.toNat := by
  rw [sizeUnset_toNat] at h
  rw [UInt64.toNat_add]
  omega

theorem ne_sizeUnset (h : n.toNat < sizeUnset.toNat) : n ≠ sizeUnset := by
  intro heq
  rw [heq] at h
  exact lt_irrefl _ h

def moved (m : Manifest) (advanceBy : UInt64) : Manifest :=
  { m with tail := m.tail + advanceBy, isJournal := true }

theorem advanceTail_eq (hj : m.isJournal = true) (h : m.tail.toNat + advanceBy.toNat < sizeUnset.toNat) :
    advanceTail m advanceBy = moved m advanceBy := by
  rw [advanceTail, moved]
  split
  · rw [setTail, bne_iff_ne.mpr (ne_sizeUnset (by rwa [toNat_add h]))]
  next hzero => rw [not_pos hzero, UInt64.add_zero, ← hj]

theorem writeDeriveKey_new (henc : m.payloadEncryption = .encrypted) (hj : m.isJournal = true)
    (h : writeDeriveKey env keyring m w = (.new, m', w')) :
    ∃ key nc, m' = withKeys m key nc ∧ keyOf env keyring m = some (key, nc) ∧
      (w.tail = 0 → w' = setKey w true m.tail.toNat key nc) := by
  rw [writeDeriveKey, if_neg (not_not.mpr henc)] at h
  split at h
  · cases h
  next m1 hder =>
  obtain ⟨key, nc, rfl, hkey⟩ := derivePayloadKey_some hder
  cases h
  refine ⟨key, nc, rfl, hkey, ?_⟩
  intro htail
  simp only [withKeys, hj, true_and]
  split
  · rfl
  next hzero =>
  rw [htail, not_pos hzero]
  rfl

theorem knownSize_eq {n : UInt64} (h : n.toNat < sizeUnset.toNat) : knownSize n = some n.toNat := by
  rw [knownSize, if_neg (ne_sizeUnset h)]

/-- The payload that a manifest names has the hash that it is named by. -/
def Verified (env : Env) (store : Store) (m : Manifest) : Prop :=
  ∀ hash bytes, m.filehash = some hash → store hash = some bytes → hash = env.sha512 bytes

/-- The bytes that an append stores, and the manifest that names them. -/
theorem append_stores (h : Journal env keyring store m content) (hsp : Evicts ms)
    (hadv : adv.toNat ≤ content.length) (hne : buf ≠ [])
    (hsum : m.tail.toNat + content.length + buf.length < sizeUnset.toNat)
    (happ : appendJournalBuffer env keyring ms store m adv buf =
      some (.new, m', store')) :
    ∃ key nc, keyOf env keyring m = some (key, nc) ∧
      let target := xorFrom (keyByte env.xsalsa20 key nc) (m.tail.toNat + adv.toNat)
        (content.drop adv.toNat ++ buf)
      store' (env.sha512 target) = some target ∧
      m' = appended (withKeys (moved m adv) key nc) (UInt64.ofNat target.length)
        (env.sha512 target) := by
  have hpos := length_pos_iff.mpr hne
  have hadde : (UInt64.ofNat buf.length).toNat = buf.length := toNat_ofNat (by omega)
  have hset : UInt64.ofNat buf.length ≠ sizeUnset := ne_sizeUnset (by omega)
  obtain ⟨w0, store0, w1, store1, m1, w, w', hwr, hcopy, hkey, hfin, hsto⟩ :=
    appendJournalBuffer_new hne hset happ
  rw [advanceTail_eq h.journal (by omega)] at hcopy hkey
  obtain ⟨key, nc, rfl, hkeyof, hw⟩ :=
    writeDeriveKey_new (m := moved m adv) h.encrypted rfl hkey
  have hkeys : keyOf env keyring m = some (key, nc) :=
    (keyOf_journal (m := moved m adv) rfl h.journal rfl rfl).trans hkeyof
  have hcop : (m.filesize - adv).toNat = (content.drop adv.toNat).length := by
    rw [UInt64.toNat_sub_of_le _ _ (UInt64.le_iff_toNat_le.mpr (by rw [h.size]; exact hadv)),
      h.size, length_drop]
  have hfil : (m.filesize + UInt64.ofNat buf.length - adv).toNat =
      (content.drop adv.toNat).length + buf.length := by
    have hadd : (m.filesize + UInt64.ofNat buf.length).toNat = content.length + buf.length := by
      rw [toNat_add (by rw [h.size, hadde]; omega), h.size, hadde]
    rw [UInt64.toNat_sub_of_le _ _ (UInt64.le_iff_toNat_le.mpr (by rw [hadd]; omega)), hadd, length_drop]
    omega
  have hfits : (content.drop adv.toNat).length + buf.length < sizeUnset.toNat := by
    rw [length_drop]
    omega
  rw [knownSize_eq (by rw [hfil]; exact hfits), hfil] at hwr
  obtain ⟨_, hfr, hraw, hspa⟩ := openWrite_new hwr
  generalize hkept : xorFrom (keyByte env.xsalsa20 key nc) (m.tail.toNat + adv.toNat)
    (content.drop adv.toNat) = kept
  have hkep : (content.drop adv.toNat).length = kept.length := by
    rw [← hkept, xorFrom_length]
  rw [hkep] at hfr hcop hfits
  have hold : kept ≠ [] → ∀ bytes, store0 ((moved m adv).filehash.getD []) = some bytes →
      bytes.drop adv.toNat = kept := by
    intro hne' bytes hbs
    have hcon : content ≠ [] := by
      rintro rfl
      apply hne'
      rw [← hkept, drop_nil, xorFrom_nil]
    obtain ⟨hash, key', nc', hhash, hkey', hstor⟩ := h.stored hcon
    rw [hkeys] at hkey'
    cases hkey'
    rw [moved, hhash, getD_some] at hbs
    have hsame := hsp store _ hash bytes (by rw [hspa]; exact hbs)
    rw [hstor] at hsame
    cases hsame
    rw [xorFrom_drop, hkept]
  have htail : (moved m adv).tail.toNat = m.tail.toNat + adv.toNat :=
    toNat_add (by omega)
  rw [htail] at hw
  have hwrap : m.tail.toNat + adv.toNat + kept.length + buf.length ≤ 2 ^ 64 := by
    have hmax : sizeUnset.toNat < 2 ^ 64 := sizeUnset.toNat_lt
    rw [← hkep, length_drop]
    omega
  refine ⟨key, nc, hkeys, ?_⟩
  simp only [xorFrom_append, hkept, hkep]
  obtain ⟨hoff, hwrt⟩ | ⟨hkeptn, rfl⟩ := @copyExisting_new env kept buf
    (keyByte env.xsalsa20 key nc) (m.tail.toNat + adv.toNat) w0 w1 store0 store1 _ _ _
    hfr hraw hcop hold hcopy
  · have htail1 : w1.tail = 0 := congrArg (fun cipher => cipher.2.1) hwrt.streaming.cipher
    rw [hw htail1] at hfin
    obtain ⟨_, hwrt'⟩ := writeBuffer_appends hwrap hwrt hoff
    obtain ⟨_, hid, hlen, hsto'⟩ := finishWrite_new hwrt'
      (by simp [journalPlan, ← length_pos_iff, hpos]) hfin
    simp only [journalPlan] at hid hlen hsto'
    generalize htgt : kept ++ xorFrom _ _ buf = target at *
    have hsize : target.length = kept.length + buf.length := by simp [← htgt]
    have hnon : UInt64.ofNat target.length ≠ 0 := by
      intro hzero
      have hnat := toNat_ofNat (hsize ▸ hfits)
      rw [hzero, hsize, UInt64.toNat_zero] at hnat
      omega
    rw [finishStore_journal rfl hlen hnon, hid] at hsto
    cases hsto
    exact ⟨by rw [hsto']; exact Function.update_self .., rfl⟩
  have htail1 : w1.tail = 0 := congrArg (fun cipher => cipher.2.1) hraw
  rw [hw htail1] at hfin
  exact absurd hfin (uncopied_not_new hkeptn hwrap hfr)

/-- An append makes a new version of the journal. -/
theorem append_journal (h : Journal env keyring store m content) (hsp : Evicts ms)
    (hadv : advanceBy.toNat ≤ content.length) (hne : buf ≠ [])
    (hsum : m.tail.toNat + content.length + buf.length < sizeUnset.toNat)
    (happ : appendJournalBuffer env keyring ms store m advanceBy buf =
      some (.new, m', store')) :
    m'.tail.toNat = m.tail.toNat + advanceBy.toNat ∧
      m'.filesize.toNat = m.filesize.toNat - advanceBy.toNat + buf.length ∧
      m'.version.toNat = m.tail.toNat + m.filesize.toNat + buf.length ∧
      Journal env keyring store' m' (content.drop advanceBy.toNat ++ buf) ∧
      Verified env store' m' := by
  obtain ⟨key, nc, hkeys, hsto, rfl⟩ := append_stores h hsp hadv hne hsum happ
  generalize htgt : xorFrom (keyByte env.xsalsa20 key nc) (m.tail.toNat + advanceBy.toNat)
    (content.drop advanceBy.toNat ++ buf) = target at hsto ⊢
  have hlen : target.length = content.length - advanceBy.toNat + buf.length := by
    rw [← htgt, xorFrom_length, length_append, length_drop]
  have hmv : (withKeys (moved m advanceBy) key nc).tail = m.tail + advanceBy := rfl
  have htail : (m.tail + advanceBy).toNat = m.tail.toNat + advanceBy.toNat := toNat_add (by omega)
  have hsize : (UInt64.ofNat target.length).toNat = target.length := toNat_ofNat (by omega)
  have hver : (m.tail + advanceBy + UInt64.ofNat target.length).toNat =
      m.tail.toNat + advanceBy.toNat + target.length := by
    rw [toNat_add (by omega), htail, hsize]
  refine ⟨htail, ?_, ?_, ⟨⟨rfl, ?_, ?_⟩, h.encrypted, ?_, ?_⟩, ?_⟩
  · rw [appended_filesize, hsize, hlen, h.size]
  · rw [appended_version, hmv, hver, hlen, h.size]
    omega
  · exact ne_sizeUnset (by rw [appended_tail, hmv, htail]; omega)
  · exact ne_sizeUnset (by rw [appended_filesize, hsize]; omega)
  · rw [appended_filesize, hsize, hlen, length_append, length_drop]
  · intro _
    refine ⟨env.sha512 target, key, nc, rfl, ?_, ?_⟩
    · rw [← hkeys]
      apply keyOf_journal h.journal <;> rfl
    rw [hsto, ← htgt, ← htail]
    rfl
  intro hash bytes hhash hbs
  cases hhash
  rw [hsto] at hbs
  cases hbs
  rfl

/-! ## Reading back -/

theorem keyOf_some (h : keyOf env keyring m = some (key, nc)) :
    derivePayloadKey env keyring m = some (withKeys m key nc) := by
  obtain ⟨m', hder, heq⟩ := map_eq_some_iff.mp h
  obtain ⟨key', nc', rfl, _⟩ := derivePayloadKey_some hder
  cases heq
  exact hder

theorem readDeriveKey_journal (henc : m.payloadEncryption = .encrypted) (hj : m.isJournal = true)
    (hkeys : keyOf env keyring m = some (key, nonce)) (htail : read.tail = 0) :
    readDeriveKey env keyring m read = (.stored, withKeys m key nonce,
      { read with crypt := true, tail := m.tail.toNat, key := key, nonce := nonce }) := by
  rw [readDeriveKey, if_neg (not_not.mpr henc), keyOf_some hkeys]
  simp only [withKeys, hj, true_and, htail]
  split
  · rfl
  next hzero =>
  rw [not_pos hzero]
  rfl

/-- The content of a journal is read back. -/
theorem journal_reads (h : Journal env keyring store m content) (hne : content ≠ [])
    (hver : Verified env store m) :
    extractFile env keyring store m = (.stored, some content, store) := by
  obtain ⟨hash, key, nonce, hhash, hkeys, hsto⟩ := h.stored hne
  generalize hbs : xorFrom (keyByte env.xsalsa20 key nonce) m.tail.toNat content = bytes at hsto
  have hsha := hver hash bytes hhash hsto
  rw [hsha] at hsto hhash
  obtain ⟨read, hopen, hinO, rfl, hoff, htail⟩ := openRead_inOrder hsto
  have hkeyed : InOrder env
      { read with crypt := true, tail := m.tail.toNat, key := key, nonce := nonce } :=
    { hinO with }
  obtain ⟨read', hfile, hdone⟩ := readFile_inOrder hkeyed
  have hclr : decipher env
      { read with crypt := true, tail := m.tail.toNat, key := key, nonce := nonce }
      (read.bytes.drop read.offset) = content := by
    simp only [decipher, if_true, hoff, drop_zero, zero_add]
    rw [cryptXorBlock_eq, ← hbs, xorFrom_xorFrom]
  rw [extractFile, openDecryptRead, hhash, getD_some, hopen]
  simp only
  rw [readDeriveKey_journal h.encrypted h.journal hkeys htail]
  simp only
  rw [hfile]
  simp only [hclr]
  rw [readClose, if_neg hdone.verified]

end Append

/-! ## Sequences of appends -/

/-- One append, with what `store_make_space` did at its time. -/
structure Append where
  makeSpace : MakeSpace
  advanceBy : UInt64
  buffer : List UInt8

def Append.apply (content : List UInt8) (a : Append) : List UInt8 :=
  content.drop a.advanceBy.toNat ++ a.buffer

/-- The appends one after the other, as long as each returns `PAYLOAD_STATUS_NEW`. -/
def appendAll (env : Env) (keyring : Keyring) :
    Store → Manifest → List Append → Option (Store × Manifest)
  | store, m, [] => some (store, m)
  | store, m, a :: rest =>
    match appendJournalBuffer env keyring a.makeSpace store m a.advanceBy a.buffer with
    | some (.new, m', store') => appendAll env keyring store' m' rest
    | _ => none

def Allowed (content : List UInt8) : List Append → Prop
  | [] => True
  | a :: rest => Evicts a.makeSpace ∧ a.advanceBy.toNat ≤ content.length ∧ a.buffer ≠ [] ∧
    Allowed (a.apply content) rest

def added (appends : List Append) : Nat := (appends.map (fun a => a.buffer.length)).sum

section Sequence

variable {keyring : Keyring} {store store' : Store} {m m' : Manifest}

/-- Every version of the journal has the content that was appended. -/
theorem appendAll_journal (h : Journal env keyring store m content) (hall : Allowed content apps)
    (hsum : m.tail.toNat + content.length + added apps < sizeUnset.toNat)
    (hrun : appendAll env keyring store m apps = some (store', m')) :
    Journal env keyring store' m' (apps.foldl Append.apply content) ∧
      m'.tail.toNat + m'.filesize.toNat = m.tail.toNat + m.filesize.toNat + added apps ∧
      (apps ≠ [] → m'.version.toNat = m'.tail.toNat + m'.filesize.toNat) := by
  induction apps generalizing store m content with
  | nil =>
    cases hrun
    exact ⟨h, by simp [added], by simp⟩
  | cons a rest ih =>
    obtain ⟨hsp, hadv, hne, hrest⟩ := hall
    rw [appendAll] at hrun
    split at hrun
    · next m1 store1 happ =>
      have hsum' : m.tail.toNat + content.length + (a.buffer.length + added rest) <
        sizeUnset.toNat := by simpa [added] using hsum
      obtain ⟨htail, hsize, hver, hjou, _⟩ :=
        append_journal h hsp hadv hne (by omega) happ
      have hle : a.advanceBy.toNat ≤ m.filesize.toNat := by rw [h.size]; exact hadv
      have hlen := hjou.size
      obtain ⟨hfinal, hend, hver'⟩ := ih hjou hrest
        (by rw [← hlen]; rw [← h.size] at hsum'; omega) hrun
      have hadd : added (a :: rest) = a.buffer.length + added rest := by simp [added]
      refine ⟨hfinal, by omega, ?_⟩
      intro _
      cases rest with
      | nil =>
        cases hrun
        omega
      | cons b rest => exact hver' (cons_ne_nil _ _)
    · cases hrun

theorem allowed_append (h : Allowed content (apps ++ [last])) :
    Allowed content apps ∧ Allowed (apps.foldl Append.apply content) [last] := by
  induction apps generalizing content with
  | nil => exact ⟨trivial, h⟩
  | cons a rest ih =>
    obtain ⟨hsp, hadv, hne, hrest⟩ := h
    exact ⟨⟨hsp, hadv, hne, (ih hrest).1⟩, (ih hrest).2⟩

/-- **Appends to an encrypted journal read back.** After any appends, one more moves
the tail, gives the journal a higher version, and leaves a payload that reads as
the old content without its first bytes, followed by the new ones. -/
theorem journal_appends_read_back {last : Append} {store₂ : Store} {m₂ : Manifest}
    (h : Journal env keyring store m content) (hallowed : Allowed content (appends ++ [last]))
    (hsum : m.tail.toNat + content.length + added (appends ++ [last]) < sizeUnset.toNat)
    (hrun : appendAll env keyring store m appends = some (store', m'))
    (hlast : appendJournalBuffer env keyring last.makeSpace store' m' last.advanceBy last.buffer =
      some (.new, m₂, store₂)) :
    let current := appends.foldl Append.apply content
    m'.filesize.toNat = current.length ∧ m₂.tail.toNat = m'.tail.toNat + last.advanceBy.toNat ∧
      m₂.filesize.toNat = m'.filesize.toNat - last.advanceBy.toNat + last.buffer.length ∧
      m₂.version.toNat = m'.tail.toNat + m'.filesize.toNat + last.buffer.length ∧
      (appends ≠ [] ∨ m.version.toNat = m.tail.toNat + m.filesize.toNat → m'.version < m₂.version) ∧
      extractFile env keyring store₂ m₂ =
        (.stored, some (current.drop last.advanceBy.toNat ++ last.buffer), store₂) := by
  obtain ⟨hbef, hsp, hadv, hne, _⟩ := allowed_append hallowed
  have hadd : added (appends ++ [last]) = added appends + last.buffer.length := by simp [added]
  have hpos := length_pos_iff.mpr hne
  obtain ⟨hjou, hend, hvers⟩ := appendAll_journal h hbef (by omega) hrun
  have hsize := h.size
  have hsize' := hjou.size
  obtain ⟨htail, hfil, hver2, hjou2, hver⟩ :=
    append_journal hjou hsp hadv hne (by omega) hlast
  refine ⟨hsize', htail, hfil, hver2, ?_, journal_reads hjou2 (by simp [hne]) hver⟩
  intro hcase
  rw [UInt64.lt_iff_toNat_lt, hver2]
  by_cases hnil : appends = []
  · subst hnil
    cases hrun
    have heq := hcase.resolve_left (fun hne' => hne' rfl)
    omega
  rw [hvers hnil]
  omega

end Sequence

def sampleKeyring : Keyring := ⟨fun _ => true, fun sender recipient => sender ++ recipient⟩

def sampleJournal : Manifest where
  cryptoSignPublic := [1]
  cryptoSignSecret := []
  haveSecret := false
  version := 8
  tail := 5
  filesize := 3
  filehash := some [22, 19, 12]
  isJournal := true
  sender := some [2]
  recipient := some [3]
  payloadEncryption := .encrypted
  payloadKey := []
  payloadNonce := []

def sampleStore : Store := fun hash => if hash = [22, 19, 12] then some [12, 19, 22] else none

def sampleAppend (advanceBy : UInt64) (buffer : List UInt8) : Append :=
  ⟨fun store _ => (.new, store), advanceBy, buffer⟩

theorem sampleJournal_journal :
    Journal sampleEnv sampleKeyring sampleStore sampleJournal [10, 20, 30] := by
  refine ⟨⟨rfl, by decide, by decide⟩, rfl, rfl, ?_⟩
  intro _
  exact ⟨_, _, _, rfl, rfl, by decide +kernel⟩

theorem journal_appends_read_back_twice : ∃ store m store₂ m₂,
      appendAll sampleEnv sampleKeyring sampleStore sampleJournal [sampleAppend 0 [40]] =
        some (store, m) ∧
      appendJournalBuffer sampleEnv sampleKeyring (fun store _ => (.new, store)) store m 2 [50, 60] =
        some (.new, m₂, store₂) ∧
      extractFile sampleEnv sampleKeyring store₂ m₂ = (.stored, some [30, 40, 50, 60], store₂) := by
  have hevi : Evicts (fun store _ => (.new, store)) := fun _ _ _ _ h => h
  have hsome : (appendAll sampleEnv sampleKeyring sampleStore sampleJournal
      [sampleAppend 0 [40]]).isSome = true := by decide +kernel
  obtain ⟨⟨store, m⟩, hrun⟩ := isSome_iff_exists.mp hsome
  have hnew : ((appendAll sampleEnv sampleKeyring sampleStore sampleJournal
      [sampleAppend 0 [40]]).bind fun r => (appendJournalBuffer sampleEnv sampleKeyring
        (fun store _ => (.new, store)) r.1 r.2 2 [50, 60]).map Prod.fst) = some .new := by
    decide +kernel
  rw [hrun, bind_some] at hnew
  obtain ⟨⟨st, m₂, store₂⟩, hlast, hstat⟩ := map_eq_some_iff.mp hnew
  cases hstat
  have hread := @journal_appends_read_back sampleEnv sampleKeyring sampleStore store sampleJournal m
    [10, 20, 30] [sampleAppend 0 [40]] (sampleAppend 2 [50, 60]) store₂ m₂ sampleJournal_journal
    ⟨hevi, by decide, by decide, hevi, by decide, by decide, trivial⟩
    (by decide) hrun hlast
  exact ⟨store, m, store₂, m₂, hrun, hlast, hread.2.2.2.2.2⟩

/-! ## Appends that fail -/

structure Unaltered (m m' : Manifest) : Prop where
  tail : m'.tail = m.tail
  filesize : m'.filesize = m.filesize
  version : m'.version = m.version
  filehash : m'.filehash = m.filehash

theorem fillManifest_tail {length : UInt64} (h : fillManifest w m st length = (st', m')) :
    m'.tail = m.tail := by
  have hsize : (fillSize m length).tail = m.tail := by
    simp only [fillSize]
    split <;> rfl
  rw [fillManifest] at h
  split at h
  · cases h
    rfl
  rw [fillHash] at h
  rw [← hsize]
  repeat' split at h
  all_goals
    cases h
    rfl

theorem fillManifest_journal {length : UInt64} (hj : m.isJournal = true)
    (h : fillManifest w m status length = (status', m')) : status' = status := by
  simp only [fillManifest, fillHash, fillSize, setFilesize, setVersion, hj, true_or, not_true_eq_false,
    false_and, if_true, if_false] at h
  split at h
  all_goals
    cases h
    rfl

theorem tail_advanceTail : (advanceTail m advanceBy).tail = m.tail + advanceBy := by
  rw [advanceTail]
  split
  · rfl
  next hzero => rw [not_pos hzero, UInt64.add_zero]

theorem advanceTail_zero : advanceTail m 0 = m := if_neg (by decide)

/-- A failed append has moved the tail and changed nothing else that counts. -/
theorem appendJournal_failed (h : appendJournal env keyring ms store m adv asz fill =
      some (st, m', store')) (hfail : ¬Kept st) :
    m'.tail = m.tail + adv ∧ (adv = 0 → ∃ key nc, m' = withKeys m key nc) := by
  obtain ⟨m1, w, store1, st1, w1, hopen, -, hsto⟩ | ⟨-, w, hopen⟩ := appendJournal_some h
  all_goals obtain ⟨hass, ⟨key, nc, rfl⟩, -⟩ := writeOpenJournal_some hopen
  · obtain ⟨hkept, n, -, -, hfill⟩ | ⟨-, rfl, rfl⟩ := finishStore_cases hsto
    · refine ⟨(fillManifest_tail hfill).trans tail_advanceTail, ?_⟩
      rintro rfl
      rw [advanceTail_zero] at hfill
      exact absurd (fillManifest_journal (m := withKeys m key nc) hass.1 hfill ▸ hkept) hfail
    · exact ⟨tail_advanceTail, fun hzero => ⟨key, nc, by rw [hzero, advanceTail_zero]⟩⟩
  · exact ⟨tail_advanceTail, fun hzero => ⟨key, nc, by rw [hzero, advanceTail_zero]⟩⟩

section Outcome

variable (env : Env) (keyring : Keyring) (makeSpace : MakeSpace) (store : Store) (m : Manifest)
  (advanceBy appendSize : UInt64) (fill : Write → Bool × Write)

/-- How the new payload is opened. -/
def opening : PayloadStatus × Write × Store :=
  openWrite makeSpace store none (knownSize (if appendSize = sizeUnset then sizeUnset
    else m.filesize + appendSize - advanceBy))

/-- How the kept part of the old payload is copied into it. -/
def copying : Option (PayloadStatus × Write × Store) :=
  let (_, w, store) := opening makeSpace store m advanceBy appendSize
  copyExisting env store w (advanceTail m advanceBy) advanceBy (m.filesize - advanceBy)

/-- The payload is not the one the manifest names. -/
def Mismatch (length : UInt64) (id : Filehash) : Prop :=
  m.filesize ≠ length ∨ m.filehash ≠ none ∧ (m.filesize = 0 ∨ m.filehash ≠ some id)

/-- What can go wrong on the way: the payload is not opened, since there is no space for it, an error in
the copy or no key; or it is not written or finished. A tail of `2 ^ 64 - 1` bytes counts as none, and
the payload is then checked as that of a file. -/
inductive Fails : Prop
  | opening (hopen : writeOpenJournal env keyring makeSpace store m advanceBy appendSize =
        some (status, m', w, store')) (hfail : ¬Kept status)
  | writing (hopen : writeOpenJournal env keyring makeSpace store m advanceBy appendSize =
        some (.new, m', w, store'))
      (hfill : fillWrite env makeSpace store' fill w = some (status, w', store'')) (hfail : ¬Kept status)
  | filling (hopen : writeOpenJournal env keyring makeSpace store m advanceBy appendSize =
        some (.new, m', w, store'))
      (hfill : fillWrite env makeSpace store' fill w = some (status, w', store'')) (hkept : Kept status)
      (hlength : w'.fileLength = some n) (hempty : status = .empty → n = 0)
      (hadvance : 0 < advanceBy) (htail : m.tail + advanceBy = sizeUnset)
      (hother : Mismatch m (UInt64.ofNat n) w'.id)

end Outcome

theorem fillManifest_file {n : UInt64} (hj : m.isJournal = false) (hsize : m.filesize ≠ sizeUnset)
    (hkept : Kept status) : ¬Kept (fillManifest w m status n).1 ↔ Mismatch m n w.id := by
  have hkept' : ¬Kept .wrongSize ∧ ¬Kept .wrongHash := by simp [Kept]
  simp only [fillManifest, hj, hsize, Bool.false_eq_true, false_or, not_false_eq_true, true_and, Mismatch]
  split
  · next hne => exact iff_of_true hkept'.1 (.inl hne)
  next heq =>
  rw [not_not] at heq
  subst heq
  simp only [fillHash, fillSize, setFilesize, hj, Bool.false_eq_true, if_false, false_or, ne_eq,
    not_true_eq_false]
  by_cases hzero : m.filesize = 0
  · simp only [hzero, not_true_eq_false, if_false, true_or, and_true]
    split
    · next hne => exact iff_of_true hkept'.2 hne
    · next heq => exact iff_of_false (not_not.mpr hkept) heq
  · simp only [hzero, not_false_eq_true, if_true, false_or]
    split
    · next hnone => exact iff_of_false (not_not.mpr hkept) fun h => h.1 hnone
    split
    · next hsome hne => exact iff_of_true hkept'.2 ⟨hsome, hne⟩
    · next heq => exact iff_of_false (not_not.mpr hkept) fun h => heq h.2

theorem finishStore_eq (hkept : Kept status) (hlength : w.fileLength = some n)
    (hempty : status = .empty → n = 0) :
    finishStore w m status = some (fillManifest w m status (UInt64.ofNat n)) := by
  obtain rfl | rfl | rfl := hkept
  · simp [finishStore, hlength]
  · simp [finishStore, hlength]
  · simp [finishStore, hlength, hempty rfl]

theorem isJournal_advanceTail (hj : m.isJournal = true) :
    (advanceTail m adv).isJournal = false ↔ 0 < adv ∧ m.tail + adv = sizeUnset := by
  rw [advanceTail]
  split
  · next hpos => simpa [setTail] using fun _ => hpos
  · next hzero => simp [hj, hzero]

theorem mismatch_advanceTail : Mismatch (withKeys (advanceTail m adv) key nc) = Mismatch m := by
  rw [advanceTail]
  split <;> rfl

theorem finishStore_failed (h : ¬Kept status) : finishStore w m status = some (status, m) := by
  cases status <;> first | rfl | exact absurd (by simp [Kept]) h

/-- An opening returns if its assertions hold and its copy ends. -/
theorem writeOpenJournal_isSome (hass : OpenAsserts m adv asz)
    (hcopy : (opening ms store m adv asz).1 = .new → (copying env ms store m adv asz).isSome) :
    (writeOpenJournal env keyring ms store m adv asz).isSome := by
  rw [writeOpenJournal, if_neg (not_not.mpr hass)]
  simp only [copying] at hcopy ⊢
  rw [← opening]
  split
  · next w0 store0 hopen =>
    rw [hopen] at hcopy
    obtain ⟨⟨status, w, store1⟩, hcopied⟩ := isSome_iff_exists.mp (hcopy rfl)
    simp only at hcopied
    rw [hcopied]
    cases status <;> try rfl
    simp only
    split <;> rfl
  · rfl

theorem appendJournal_written
    (h : writeOpenJournal env keyring ms store m adv asz = some (.new, m', w, store'))
    (hfill : fillWrite env ms store' fill w = some (status, w', store''))
    (hstore : finishStore w' m' status = some r) (hfail : ¬Kept r.1) :
    ∃ st m' store', appendJournal env keyring ms store m adv asz fill = some (st, m', store') ∧
      ¬Kept st := by
  refine ⟨r.1, r.2, store'', ?_, hfail⟩
  rw [appendJournal, h]
  simp only [hfill, hstore, bind_some]
  rfl

/-- An append returns an error exactly if something goes wrong on its way. -/
theorem append_fails_iff (hass : OpenAsserts m adv asz) :
    (∃ st m' store', appendJournal env keyring ms store m adv asz fill = some (st, m', store') ∧ ¬Kept st) ↔
      Fails env keyring ms store m adv asz fill := by
  have hsize : (advanceTail m adv).filesize ≠ sizeUnset := by
    rw [advanceTail]
    split
    all_goals exact hass.2.1
  constructor
  · rintro ⟨st, m', store', happ, hfail⟩
    obtain ⟨m1, w, store1, status, w', hopen, hfill, hsto⟩ | ⟨-, w, hopen⟩ := appendJournal_some happ
    · obtain ⟨hkept, n, hlength, hempty, hfilled⟩ | ⟨hkept, -⟩ := finishStore_cases hsto
      · obtain ⟨-, ⟨key, nc, rfl⟩, -⟩ := writeOpenJournal_some hopen
        cases hj : (advanceTail m adv).isJournal
        · obtain ⟨hpos, htail⟩ := (isJournal_advanceTail hass.1).mp hj
          refine .filling hopen hfill hkept hlength hempty hpos htail ?_
          rw [← mismatch_advanceTail, ← fillManifest_file (m := withKeys _ key nc) hj hsize hkept, hfilled]
          exact hfail
        · exact absurd (fillManifest_journal (m := withKeys _ key nc) hj hfilled ▸ hkept) hfail
      · exact .writing hopen hfill hkept
    · exact .opening hopen hfail
  · intro hfails
    cases hfails with
    | @opening status m' _ store' hopen hfail =>
      refine ⟨status, m', store', ?_, hfail⟩
      rw [appendJournal, hopen]
      cases status <;> first | rfl | exact absurd (by simp [Kept]) hfail
    | writing hopen hfill hfail => exact appendJournal_written hopen hfill (finishStore_failed hfail) hfail
    | filling hopen hfill hkept hlength hempty hpos htail hother =>
      obtain ⟨-, ⟨key, nc, rfl⟩, -⟩ := writeOpenJournal_some hopen
      have hj := (isJournal_advanceTail hass.1).mpr ⟨hpos, htail⟩
      rw [← mismatch_advanceTail, ← fillManifest_file (m := withKeys _ key nc) hj hsize hkept] at hother
      exact appendJournal_written hopen hfill (finishStore_eq hkept hlength hempty) hother

end JournalAppend
