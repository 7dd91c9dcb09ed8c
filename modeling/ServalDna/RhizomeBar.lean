import ServalDna.RhizomeManifest
import ServalDna.TextCodec

/-!
# Bundle advertisement records

A BAR is a 32-byte summary of a manifest: the first 15 bytes of its id, the
logarithm of its size, the low 56 bits of its version, a bounding box and a
time to live. A node looks a received BAR up in its store to decide whether the
bundle is worth fetching.
-/
namespace RhizomeBar

open RhizomeManifest TextCodec List

def barPrefixBytes : Nat := 15
def barVersionOffset : Nat := 16

abbrev Bar := List UInt8

def log2ll (x : UInt64) : Int :=
  let lookup : List Int := [0, 1, 2, 2, 3, 3, 3, 3, 4, 4, 4, 4, 4, 4, 4, 4]
  let v : Int := -1
  let (v, x) := if x > 0xffffffff then (v + 32, x >>> 32) else (v, x)
  let (v, x) := if x > 0xffff then (v + 16, x >>> 16) else (v, x)
  let (v, x) := if x > 0xff then (v + 8, x >>> 8) else (v, x)
  let (v, x) := if x > 0xf then (v + 4, x >>> 4) else (v, x)
  v + lookup.getD (x &&& 0xf).toNat 0

/-- Byte `i` of a version, counted from the least significant one. -/
def versionByte (version : UInt64) (i : Nat) : UInt8 :=
  UInt8.ofNat (version.toNat / 256 ^ i)

def geobox : List UInt8 := [0, 0, 0, 0, 0xff, 0xf0, 0xff, 0xf0]

/-- `none` is the failed assertion on a manifest without a file size. -/
def rhizomeManifestToBar (m : Manifest) : Option Bar :=
  if m.filesize = sizeUnset then none
  else
    some (m.cryptoSignPublic.take barPrefixBytes ++ [UInt8.ofNat ((log2ll m.filesize) % 256).toNat]
      ++ (List.range 7).map (fun j => versionByte m.version (6 - j))
      ++ geobox ++ [0])

def rhizomeBarPrefix (bar : Bar) : List UInt8 := bar.take barPrefixBytes

/-- The seven version bytes put together again, most significant byte first. -/
def rhizomeBarVersion (bar : Bar) : Nat :=
  (List.range 7).foldl
    (fun version i => version ||| (bar.getD (barVersionOffset + 6 - i) 0).toNat <<< (8 * i)) 0

/-- One row of the `MANIFESTS` table. -/
structure Row where
  id : List UInt8
  version : UInt64
  filehash : Option Text
  deriving DecidableEq, Repr

/-- The manifests in the order in which the query meets them; `id` is the key of
the table. -/
structure Store where
  manifests : List Row
  unique : (manifests.map Row.id).Nodup
  rhizomeExists : Binary 64 → Bool

def Store.payload (store : Store) (row : Row) : Bool :=
  match row.filehash with
  | none => true
  | some [] => true
  | some text =>
    match strToBinary 64 text with
    | none => false
    | some hash => store.rhizomeExists hash

/-- A version as it is bound to a statement and stored in a column. -/
def int64 (version : UInt64) : Int := version.toInt64.toInt

/-- The row that the query of `is_interesting` returns. -/
def Store.query (store : Store) (idPrefix : List UInt8) (version : UInt64) : Option Row :=
  store.manifests.find? fun row => idPrefix.isPrefixOf row.id && decide (int64 version ≤ int64 row.version)

def isInteresting (store : Store) (idPrefix : List UInt8) (version : UInt64) : Int :=
  match store.query idPrefix version with
  | none => 1
  | some row => if store.payload row then 0 else 1

def rhizomeIsBarInteresting (store : Store) (bar : Bar) : Int :=
  isInteresting store (rhizomeBarPrefix bar) (UInt64.ofNat (rhizomeBarVersion bar))

/-! ### What a BAR says about its manifest -/

theorem bar_inv (h : rhizomeManifestToBar m = some bar) :
    bar = m.cryptoSignPublic.take barPrefixBytes ++ [UInt8.ofNat ((log2ll m.filesize) % 256).toNat]
      ++ (List.range 7).map (fun j => versionByte m.version (6 - j)) ++ geobox ++ [0] := by
  unfold rhizomeManifestToBar at h
  split at h
  · cases h
  · exact (Option.some.inj h).symm

theorem rhizomeBarPrefix_of (hid : m.cryptoSignPublic.length = 32)
    (h : rhizomeManifestToBar m = some bar) :
    rhizomeBarPrefix bar = m.cryptoSignPublic.take barPrefixBytes := by
  have hlen : (m.cryptoSignPublic.take barPrefixBytes).length = barPrefixBytes := by
    rw [length_take, hid, barPrefixBytes]
    rfl
  rw [bar_inv h, rhizomeBarPrefix]
  simp only [append_assoc]
  exact take_left' hlen

theorem bar_versionByte (hid : m.cryptoSignPublic.length = 32)
    (h : rhizomeManifestToBar m = some bar) (hi : i < 7) :
    bar.getD (barVersionOffset + 6 - i) 0 = versionByte m.version i := by
  have hlen : (m.cryptoSignPublic.take barPrefixBytes).length = 15 := by
    rw [length_take, hid, barPrefixBytes]
    rfl
  have hpl : barVersionOffset + 6 - i = 15 + (1 + (6 - i)) := by
    rw [barVersionOffset]
    omega
  rw [bar_inv h, hpl, getD_eq_getElem?_getD]
  simp only [append_assoc]
  rw [getElem?_append_right (by omega), hlen, Nat.add_sub_cancel_left,
    getElem?_append_right (by simp), length_singleton, Nat.add_sub_cancel_left,
    getElem?_append_left (by simp; omega), getElem?_map,
    getElem?_range (by omega)]
  simp only [Option.map_some, Option.getD_some]
  congr 1
  omega

/-- The low bytes of a number, put together one by one. -/
theorem or_versionByte : version.toNat % 256 ^ i ||| (versionByte version i).toNat <<< (8 * i) =
      version.toNat % 256 ^ (i + 1) := by
  have hpow : 2 ^ (8 * i) = 256 ^ i := by rw [Nat.pow_mul]
  have hlow : version.toNat % 256 ^ i < 2 ^ (8 * i) := by
    rw [hpow]
    exact Nat.mod_lt _ (Nat.pow_pos (by decide))
  have hbyte : (versionByte version i).toNat = version.toNat / 256 ^ i % 256 := by
    simp [versionByte]
  rw [Nat.or_comm, ← Nat.shiftLeft_add_eq_or_of_lt hlow, Nat.shiftLeft_eq, hpow, hbyte,
    Nat.pow_succ, Nat.mod_mul, add_comm, mul_comm]

theorem rhizomeBarVersion_of (hid : m.cryptoSignPublic.length = 32)
    (h : rhizomeManifestToBar m = some bar) :
    rhizomeBarVersion bar = m.version.toNat % 2 ^ 56 := by
  have hloop : ∀ n, n ≤ 7 → (List.range n).foldl
        (fun version i => version ||| (bar.getD (barVersionOffset + 6 - i) 0).toNat <<< (8 * i)) 0
      = m.version.toNat % 256 ^ n := by
    intro n hn
    induction n with
    | zero => simp [Nat.mod_one]
    | succ n ih =>
      rw [range_succ, foldl_append, ih (by omega)]
      simp only [foldl_cons, foldl_nil]
      rw [bar_versionByte hid h (by omega), or_versionByte]
  rw [rhizomeBarVersion, hloop 7 (le_rfl), show (256 : Nat) = 2 ^ 8 from rfl, ← Nat.pow_mul]

/-! ### Looking a BAR up -/

section Lookup

variable {store : Store}

/-- No other bundle of the store has the id prefix of `id`. -/
def Store.Alone (store : Store) (id : List UInt8) : Prop :=
  ∀ row ∈ store.manifests, (id.take barPrefixBytes).isPrefixOf row.id = true → row.id = id

/-- The store holds this version of the bundle. -/
def Store.Holds (store : Store) (id : List UInt8) (version : UInt64) (row : Row) : Prop :=
  row ∈ store.manifests ∧ row.id = id ∧ row.version = version

/-- With one bundle of that prefix in the store, the query is a comparison with
the stored version. -/
theorem query_alone {id : List UInt8} (haln : store.Alone id) (hrow : row ∈ store.manifests)
    (hid : row.id = id) :
    store.query (id.take barPrefixBytes) version =
      if int64 version ≤ int64 row.version then some row else none := by
  have hst : (id.take barPrefixBytes).isPrefixOf row.id = true := by
    rw [hid, List.isPrefixOf_iff_prefix]
    exact List.take_prefix _ _
  cases hfnd : store.query (id.take barPrefixBytes) version with
  | none =>
    have hnone := find?_eq_none.mp hfnd row hrow
    rw [if_neg]
    intro hle
    simp [hst, hle] at hnone
  | some found =>
    have hmem := mem_of_find?_eq_some hfnd
    have htest := find?_some hfnd
    simp only [Bool.and_eq_true, decide_eq_true_eq] at htest
    have hsame : found = row :=
      inj_on_of_nodup_map store.unique hmem hrow ((haln found hmem htest.1).trans hid.symm)
    rw [if_pos (hsame ▸ htest.2), hsame]

theorem int64_eq (version : UInt64) :
    int64 version = if version.toNat < 2 ^ 63 then (version.toNat : Int) else version.toNat - 2 ^ 64 := by
  rw [int64, Int64.toInt, UInt64.toBitVec_toInt64, BitVec.toInt_eq_toNat_cond]
  simp only [UInt64.toNat_toBitVec]
  split <;> split <;> omega

/-- A BAR against the one stored version of its bundle. -/
theorem interesting_alone (hlen : m.cryptoSignPublic.length = 32)
    (hbar : rhizomeManifestToBar m = some bar) (haln : store.Alone m.cryptoSignPublic)
    {version : UInt64} (hhl : store.Holds m.cryptoSignPublic version row) :
    rhizomeIsBarInteresting store bar =
      if (m.version.toNat % 2 ^ 56 : Nat) ≤ int64 version ∧ store.payload row = true then 0 else 1 := by
  obtain ⟨hrow, hid, rfl⟩ := hhl
  have hsmall : m.version.toNat % 2 ^ 56 < 2 ^ 63 := by omega
  have hword : m.version.toNat % 2 ^ 56 < UInt64.size := Nat.lt_trans hsmall (by decide)
  have hbound : int64 (UInt64.ofNat (m.version.toNat % 2 ^ 56)) = (m.version.toNat % 2 ^ 56 : Nat) := by
    rw [int64_eq, UInt64.toNat_ofNat_of_lt' hword, if_pos hsmall]
  rw [rhizomeIsBarInteresting, isInteresting, rhizomeBarPrefix_of hlen hbar,
    rhizomeBarVersion_of hlen hbar, query_alone haln hrow hid, hbound]
  by_cases hle : (m.version.toNat % 2 ^ 56 : Nat) ≤ int64 row.version
  · simp only [hle, if_true, true_and]
  · simp only [hle, if_false, false_and]

/-- For two versions of a bundle that shares its id prefix with no other stored
bundle: against the stored older version the BAR of the newer one is
interesting exactly if its low 56 bits are above that version, the stored version is
negative, as it is from `2 ^ 63` on, or the stored payload is missing; against the stored newer
version the BAR of the older one is not, exactly if the stored version is not negative and the
payload is there. -/
theorem bar_version_order (store : Store) (older newer : Manifest) (barOlder barNewer : Bar)
    (row : Row) (hlen : older.cryptoSignPublic.length = 32)
    (hid : newer.cryptoSignPublic = older.cryptoSignPublic)
    (hlt : older.version < newer.version) (halone : store.Alone older.cryptoSignPublic)
    (holder : rhizomeManifestToBar older = some barOlder)
    (hnewer : rhizomeManifestToBar newer = some barNewer) :
    (store.Holds older.cryptoSignPublic older.version row → (rhizomeIsBarInteresting store barNewer = 1 ↔
        older.version.toNat < newer.version.toNat % 2 ^ 56 ∨ 2 ^ 63 ≤ older.version.toNat ∨
          store.payload row = false)) ∧
    (store.Holds older.cryptoSignPublic newer.version row → (rhizomeIsBarInteresting store barOlder = 0 ↔
        newer.version.toNat < 2 ^ 63 ∧ store.payload row = true)) := by
  have hlt' : older.version.toNat < newer.version.toNat := UInt64.lt_iff_toNat_lt.mp hlt
  constructor
  · intro hhl
    rw [interesting_alone (hid ▸ hlen) hnewer (hid ▸ halone) (hid ▸ hhl), int64_eq]
    have hstored := older.version.toNat_lt
    cases store.payload row <;> simp
    split <;> omega
  intro hhl
  rw [interesting_alone hlen holder halone hhl, int64_eq]
  have hstored := newer.version.toNat_lt
  cases store.payload row <;> simp
  split <;> omega

end Lookup

/-! ### Two bundles by way of example -/

def emptyManifest (id : List UInt8) (version : UInt64) : Manifest where
  cryptoSignPublic := id
  cryptoSignSecret := []
  haveSecret := false
  version := version
  tail := sizeUnset
  filesize := 0
  filehash := none
  isJournal := false
  sender := none
  recipient := none
  payloadEncryption := .cryptUnknown
  payloadKey := []
  payloadNonce := []

def oneRow (row : Row) : Store where
  manifests := [row]
  unique := by simp
  rhizomeExists := fun _ => false

def someId : List UInt8 := List.replicate 32 7
def neighbourId : List UInt8 := List.replicate 31 7 ++ [8]

theorem bar_version_order_one_two : (oneRow ⟨someId, 1, none⟩).Holds someId 1 ⟨someId, 1, none⟩ ∧
    ((oneRow ⟨someId, 1, none⟩).Holds someId 1 ⟨someId, 1, none⟩ →
      (rhizomeIsBarInteresting (oneRow ⟨someId, 1, none⟩)
          ((rhizomeManifestToBar (emptyManifest someId 2)).getD []) = 1 ↔
        (1 : UInt64).toNat < (2 : UInt64).toNat % 2 ^ 56 ∨ 2 ^ 63 ≤ (1 : UInt64).toNat ∨
          (oneRow ⟨someId, 1, none⟩).payload ⟨someId, 1, none⟩ = false)) := by
  constructor
  · exact ⟨mem_singleton.mpr rfl, rfl, rfl⟩
  have haln : (oneRow ⟨someId, 1, none⟩).Alone someId := by
    intro row hrow _
    rw [mem_singleton.mp hrow]
  exact (bar_version_order (oneRow ⟨someId, 1, none⟩) (emptyManifest someId 1)
    (emptyManifest someId 2) _ _ ⟨someId, 1, none⟩ (by decide) rfl (by decide) haln rfl rfl).1

/-- Where the order of versions is lost: at version `2 ^ 56` the 56 bits of the
BAR start again from zero; a stored bundle of the same id prefix answers for
the advertised one; and a stored manifest without its payload, or with a version that is
negative in its column, does not make an older BAR uninteresting. -/
theorem bar_version_order_lost : rhizomeIsBarInteresting (oneRow ⟨someId, 1, none⟩)
      ((rhizomeManifestToBar (emptyManifest someId (2 ^ 56))).getD []) = 0 ∧
    rhizomeIsBarInteresting ⟨[⟨someId, 1, none⟩, ⟨neighbourId, 3, none⟩], by decide, fun _ => false⟩
      ((rhizomeManifestToBar (emptyManifest someId 2)).getD []) = 0 ∧
    rhizomeIsBarInteresting (oneRow ⟨someId, 2, some (tohex (List.replicate 64 1))⟩)
      ((rhizomeManifestToBar (emptyManifest someId 1)).getD []) = 1 ∧
    rhizomeIsBarInteresting (oneRow ⟨someId, 2 ^ 63, none⟩)
      ((rhizomeManifestToBar (emptyManifest someId 1)).getD []) = 1 := by
  decide +kernel

end RhizomeBar
