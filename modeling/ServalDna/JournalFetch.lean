import ServalDna.RhizomeManifest
import ServalDna.ListSlice

/-!
# Planning the fetch of a newer journal

A fetch slot that holds an older version of a journal asks the peer for the
bytes past the old end only and copies the rest from the old payload. With the
old payload starting at journal offset `pt` and the new one at `t`, byte `k` of
the new payload is byte `t - pt + k` of the old one. The three pieces of 64-bit
arithmetic in `schedule_fetch`, `pipe_journal` and `rhizome_pipe` are modelled
as they stand; they agree exactly when the old tail is zero.
-/
namespace JournalFetch

open RhizomeManifest ListSlice

/-- The first and last byte of the `Range` request header. -/
structure Range where
  first : UInt64
  last : UInt64
  deriving DecidableEq, Repr

/-- The test that makes `schedule_fetch` drop a stored older version. -/
def unusable (previous manifest : Manifest) : Bool :=
  !previous.isJournal || previous.tail > manifest.tail ||
    previous.filesize + previous.tail < manifest.tail

/-- What `schedule_fetch` keeps as `slot->previous` and the range it asks for.
`retrieved` is the stored manifest of the bundle, if there is one. An error is
a failed assertion and carries its text. -/
def scheduleFetch (retrieved : Option Manifest) (manifest : Manifest) :
    Except String (Option (Manifest × Range)) :=
  if !manifest.isJournal then .ok none
  else
    match retrieved with
    | none => .ok none
    | some previous =>
      if unusable previous manifest then .ok none
      else if ¬previous.filesize ≥ manifest.tail then
        .error "slot->previous->filesize >= slot->manifest->tail"
      else if ¬manifest.filesize > 0 then .error "slot->manifest->filesize > 0"
      else .ok (some (previous, ⟨previous.filesize - manifest.tail, manifest.filesize - 1⟩))

/-- A run of bytes of the old payload. -/
structure Span where
  start : UInt64
  length : UInt64
  deriving DecidableEq, Repr

/-- What `rhizome_pipe` copies: the whole span, or nothing if there is no room for it. -/
def pipeSpan (fileLength fileOffset : UInt64) (span : Span) : Option Span :=
  if span.length > fileLength - fileOffset then none else some span

/-- The bytes that `pipe_journal` copies from the previous version, if any. The
write state has room for `manifest.filesize` bytes, `fileOffset` of them used. -/
def pipeJournal (previous : Option Manifest) (manifest : Manifest) (fileOffset : UInt64) :
    Except String (Option Span) :=
  match previous with
  | none => .ok none
  | some previous =>
    if manifest.tail = sizeUnset then .error "slot->manifest->tail != RHIZOME_SIZE_UNSET"
    else if previous.tail = sizeUnset then .error "slot->previous->tail != RHIZOME_SIZE_UNSET"
    else if previous.filesize = sizeUnset then .error "slot->previous->filesize != RHIZOME_SIZE_UNSET"
    else
      let start := manifest.tail - previous.tail + fileOffset
      let length := previous.filesize - manifest.tail - fileOffset
      if start < previous.filesize ∧ length > 0 then
        .ok (pipeSpan manifest.filesize fileOffset ⟨start, length⟩)
      else .ok none

/-- The bytes `[t - pt + fileOffset, pf)` of the old payload, or nothing. -/
def overlap (pt pf t fileOffset : Nat) : Option (Nat × Nat) :=
  if t - pt + fileOffset < pf then some (t - pt + fileOffset, pf - (t - pt + fileOffset)) else none

def select (payload : List UInt8) : Option (Nat × Nat) → List UInt8
  | none => []
  | some (start, length) => slice payload start length

/-- What the plan is for: no assertion fails, the request starts where the old
payload ends, the copy is the overlap, and the bytes already written, the copy
and the requested range together are the new payload, whenever both payloads
are windows of one journal. -/
structure Seamless (previous manifest : Manifest) (fileOffset : UInt64) : Prop where
  range : ∃ r, scheduleFetch (some previous) manifest = .ok (some (previous, r)) ∧
    r.first.toNat = previous.tail.toNat + previous.filesize.toNat - manifest.tail.toNat ∧
    r.last.toNat = manifest.filesize.toNat - 1
  copy : ∃ span, pipeJournal (some previous) manifest fileOffset = .ok span ∧
    span.map (fun s => (s.start.toNat, s.length.toNat)) =
      overlap previous.tail.toNat previous.filesize.toNat manifest.tail.toNat fileOffset.toNat
  joined : ∀ journal : List UInt8,
    fileOffset.toNat ≤ previous.tail.toNat + previous.filesize.toNat - manifest.tail.toNat →
    let old := slice journal previous.tail.toNat previous.filesize.toNat
    let new := slice journal manifest.tail.toNat manifest.filesize.toNat
    new.take fileOffset.toNat ++
      select old (overlap previous.tail.toNat previous.filesize.toNat manifest.tail.toNat
        fileOffset.toNat) ++
      new.drop (previous.tail.toNat + previous.filesize.toNat - manifest.tail.toNat) = new

theorem unusable_eq_false (h : unusable previous man = false) :
    previous.isJournal = true ∧ previous.tail.toNat ≤ man.tail.toNat ∧
      man.tail.toNat ≤ (previous.filesize.toNat + previous.tail.toNat) % 2 ^ 64 := by
  simp only [unusable, Bool.or_eq_false_iff, Bool.not_eq_false', decide_eq_false_iff_not,
    UInt64.not_lt, gt_iff_lt, UInt64.le_iff_toNat_le, UInt64.toNat_add] at h
  exact ⟨h.1.1, h.1.2, h.2⟩

/-- A kept older version gives the range `pf - t .. f - 1`, or the assertion
`pf >= t` fails. -/
theorem scheduleFetch_kept (hj : man.isJournal = true)
    (hkept : unusable previous man = false) (hf : 0 < man.filesize.toNat) :
    scheduleFetch (some previous) man = if man.tail.toNat ≤ previous.filesize.toNat then
        .ok (some (previous, ⟨previous.filesize - man.tail, man.filesize - 1⟩))
      else .error "slot->previous->filesize >= slot->manifest->tail" := by
  have hpos : man.filesize > 0 := UInt64.lt_iff_toNat_lt.mpr (by simpa using hf)
  by_cases h : man.tail ≤ previous.filesize
  · rw [if_pos (UInt64.le_iff_toNat_le.mp h)]
    simp [scheduleFetch, hj, hkept, h, hpos]
  rw [if_neg (fun hle => h (UInt64.le_iff_toNat_le.mpr hle))]
  simp [scheduleFetch, hj, hkept, h]

/-- With a zero old tail the copy is the overlap. A sum `t + off` past
`2 ^ 64` would select bytes from the wrong place, but its length is then more
than the write state has room for, and the pipe refuses it. -/
theorem pipeJournal_zero_tail (hprev : IsJournal previous) (hman : IsJournal man)
    (hpt : previous.tail = 0) (hle : man.tail.toNat ≤ previous.filesize.toNat)
    (hnewer : previous.filesize.toNat < man.tail.toNat + man.filesize.toNat)
    (ho : off.toNat ≤ man.filesize.toNat) :
    ∃ span, pipeJournal (some previous) man off = .ok span ∧
      span.map (fun s => (s.start.toNat, s.length.toNat)) =
        overlap 0 previous.filesize.toNat man.tail.toNat off.toNat := by
  have hpf := previous.filesize.toNat_lt
  have hf := man.filesize.toNat_lt
  have hst : (man.tail - previous.tail + off).toNat =
      (man.tail.toNat + off.toNat) % 2 ^ 64 := by
    rw [hpt, UInt64.toNat_add]
    simp
  have hlen : (previous.filesize - man.tail - off).toNat =
      (2 ^ 64 - off.toNat + (previous.filesize.toNat - man.tail.toNat)) % 2 ^ 64 := by
    rw [UInt64.toNat_sub, UInt64.toNat_sub_of_le _ _ (UInt64.le_iff_toNat_le.mpr hle)]
  have hroom : (man.filesize - off).toNat = man.filesize.toNat - off.toNat :=
    UInt64.toNat_sub_of_le _ _ (UInt64.le_iff_toNat_le.mpr ho)
  simp only [pipeJournal, hman.tail_set, hprev.tail_set, hprev.filesize_set, if_false, overlap,
    Nat.sub_zero, UInt64.lt_iff_toNat_lt, gt_iff_lt, hst, hlen, UInt64.toNat_zero]
  by_cases hwrap : man.tail.toNat + off.toNat < 2 ^ 64
  · by_cases hover : man.tail.toNat + off.toNat < previous.filesize.toNat
    · rw [if_pos (by omega), if_pos hover]
      refine ⟨_, rfl, ?_⟩
      rw [pipeSpan, if_neg (by rw [gt_iff_lt, UInt64.lt_iff_toNat_lt, hlen, hroom]; omega)]
      simp only [Option.map_some, hst, hlen, Option.some.injEq, Prod.mk.injEq]
      omega
    rw [if_neg (by omega), if_neg hover]
    exact ⟨none, rfl, rfl⟩
  rw [if_neg (show ¬man.tail.toNat + off.toNat < previous.filesize.toNat by omega)]
  refine ⟨none, ?_, rfl⟩
  split
  · rw [pipeSpan, if_pos (by rw [gt_iff_lt, UInt64.lt_iff_toNat_lt, hlen, hroom]; omega)]
  · rfl

/-- The overlap continues the new payload from `fileOffset` to the old end. -/
theorem take_append_overlap (pt f fileOffset : Nat) (hpt : pt ≤ t) (hend : pt + pf ≤ t + f)
    (ho : fileOffset ≤ pt + pf - t) :
    (slice jr t f).take fileOffset ++ select (slice jr pt pf) (overlap pt pf t fileOffset) =
      (slice jr t f).take (pt + pf - t) := by
  rw [take_slice _ _ _ _ (by omega), take_slice _ _ _ _ (by omega)]
  by_cases h : t - pt + fileOffset < pf
  · have hst : pt + (t - pt + fileOffset) = t + fileOffset := by omega
    have hsum : fileOffset + (pf - (t - pt + fileOffset)) = pt + pf - t := by omega
    rw [overlap, if_pos h, select, slice_slice _ (by omega), hst, slice_append_slice, hsum]
  have heq : fileOffset = pt + pf - t := by omega
  rw [overlap, if_neg h, select, List.append_nil, heq]

/-- The fetch of a newer journal version is planned without gap or overlap
exactly when the stored version starts at journal offset zero. -/
theorem journal_fetch_seamless_iff (hprev : IsJournal previous) (hman : IsJournal manifest)
    (hkept : unusable previous manifest = false) (hf : 0 < manifest.filesize.toNat)
    (hnewer : previous.tail.toNat + previous.filesize.toNat <
      manifest.tail.toNat + manifest.filesize.toNat)
    (ho : fileOffset.toNat ≤ manifest.filesize.toNat) :
    Seamless previous manifest fileOffset ↔ previous.tail = 0 := by
  obtain ⟨-, htail, hover⟩ := unusable_eq_false hkept
  have hpf := previous.filesize.toNat_lt
  have hsched := scheduleFetch_kept hman.journal hkept hf
  constructor
  · rintro ⟨⟨r, hr, hfst, -⟩, -, -⟩
    rw [hsched] at hr
    by_cases hle : manifest.tail.toNat ≤ previous.filesize.toNat
    · rw [if_pos hle] at hr
      injection hr with hr
      injection hr with hr
      injection hr with _ hr
      rw [← hr, UInt64.toNat_sub_of_le _ _ (UInt64.le_iff_toNat_le.mpr hle)] at hfst
      exact UInt64.toNat_inj.mp (by simp only [UInt64.toNat_zero]; omega)
    rw [if_neg hle] at hr
    exact absurd hr (by simp)
  intro hpt
  have hpt0 : previous.tail.toNat = 0 := by simp [hpt]
  rw [hpt0, add_zero, Nat.mod_eq_of_lt hpf] at hover
  rw [if_pos hover] at hsched
  refine ⟨⟨_, hsched, ?_, ?_⟩, ?_, ?_⟩
  · rw [UInt64.toNat_sub_of_le _ _ (UInt64.le_iff_toNat_le.mpr hover)]
    omega
  · exact UInt64.toNat_sub_of_le _ _ (UInt64.le_iff_toNat_le.mpr (Nat.succ_le_of_lt hf))
  · rw [hpt0]
    exact pipeJournal_zero_tail hprev hman hpt hover (by omega) ho
  intro jr hoff
  simp only
  rw [take_append_overlap _ _ _ htail (by omega) hoff]
  exact List.take_append_drop _ _

def journalWindow (tail filesize : UInt64) : Manifest where
  cryptoSignPublic := []
  cryptoSignSecret := []
  haveSecret := false
  version := tail + filesize
  tail := tail
  filesize := filesize
  filehash := none
  isJournal := true
  sender := none
  recipient := none
  payloadEncryption := .clear
  payloadKey := []
  payloadNonce := []

theorem journal_fetch_seamless_grown : Seamless (journalWindow 0 20) (journalWindow 5 25) 3 :=
  (journal_fetch_seamless_iff ⟨rfl, by decide, by decide⟩ ⟨rfl, by decide, by decide⟩
    (by decide) (by decide) (by decide) (by decide)).mpr rfl

/-- The stored version covers journal bytes 4 and 5, the new one bytes 5 to 7.
The overlap is one byte, yet the assertion of `schedule_fetch` fails. -/
theorem journal_fetch_aborts_after_advance : unusable (journalWindow 4 2) (journalWindow 5 3) = false ∧
      scheduleFetch (some (journalWindow 4 2)) (journalWindow 5 3) =
        .error "slot->previous->filesize >= slot->manifest->tail" ∧
      ¬Seamless (journalWindow 4 2) (journalWindow 5 3) 0 := by
  have herr : scheduleFetch (some (journalWindow 4 2)) (journalWindow 5 3) =
      .error "slot->previous->filesize >= slot->manifest->tail" := rfl
  refine ⟨rfl, herr, ?_⟩
  rintro ⟨⟨r, hr, -⟩, -, -⟩
  rw [herr] at hr
  exact absurd hr (by simp)

end JournalFetch
