import ServalDna.JournalAppend
import ServalDna.MeshmsPly
import ServalDna.ReadBuffered

/-!
# Reading a ply page by page

`ply_read_prev` goes on from where `rhizome_read_buffered` leaves the offset behind a footer.
Whatever page is in the cache at each read, a ply is read back as long as none of its footers
lies across two pages. If one does and the upper page is in the cache, then the offset stays
a byte too low, and so does the record.
-/
namespace PlyPages

open DataFormats ListSlice List
open ReadBuffered (ReadBuffer CacheOf TailCached rhizomeReadBuffered)
open RhizomeCrypt (pageSize)
open MeshmsPly
open RandomWrite (sampleEnv)
open RhizomeManifest (Manifest sizeUnset sizeUnset_toNat)
open RhizomeRead (Keyring extractFile)
open RhizomeWrite (Env MakeSpace Store)
open JournalAppend

/-- `rhizome_read_buffered` on a payload, where `cache` has what the calls before a read have left
in the cache. The calls of a scan all read at different offsets. -/
def readPages (content : List UInt8) (cache : Int → Nat → ReadBuffer) : MeshmsPly.ReadBuffered :=
  fun offset len =>
    (rhizomeReadBuffered (fun page => some (slice content page pageSize)) ⟨content.length, offset.toNat⟩
      (cache offset len) (replicate len 0)).bind fun r =>
        r.status.map fun n => (r.data.take n, (r.read.offset : Int))

/-- What the requests of a reader have left in its cache since it was opened. -/
def cacheAfter (content : List UInt8) (requests : List (Int × Nat)) : ReadBuffer :=
  requests.foldl (fun buffer request =>
    ((rhizomeReadBuffered (fun page => some (slice content page pageSize))
      ⟨content.length, request.1.toNat⟩ buffer (replicate request.2 0)).map (·.buffer)).getD buffer) ⟨0, []⟩

/-- `ply_read_prev` with the cache of its reader. The record is read with the page that the footer has
left there. -/
def readPrev (content : List UInt8) (ply : PlyRead) : Status × PlyRead :=
  plyReadPrev (readPages content fun offset _ => cacheAfter content
    (if offset = ply.offset - 2 then ply.requests else ply.requests ++ [(ply.offset - 2, 2)])) ply

/-- No footer of the records lies across two pages. -/
def InPages (records : List Record) : Prop := ∀ f ∈ layout 0 records, (f.endOffset - 1) % pageSize ≠ 0

section Pages

variable {content : List UInt8} {cache : Int → Nat → ReadBuffer} {ply : PlyRead} {n len : Nat}

/-- The call behind a footer that is read at `offset`. -/
theorem plyReadPrev_footerAt (hoff : ply.offset = n) (hn : n ≤ content.length) (htwo : 2 < n)
    (hread : readPages content cache (n - 2 : Nat) 2 = some (slice content (n - 2) 2, offset)) :
    plyReadPrev (readPages content cache) ply =
      readBehind (readPages content cache) { ply.atFooter content n with offset } := by
  have hst : (n : Int) - 2 = ((n - 2 : Nat) : Int) := by omega
  have hlen : (slice content (n - 2) 2).length = 2 := by
    rw [slice_length]
    omega
  rw [plyReadPrev]
  simp only [hoff, if_neg (by omega : ¬(n : Int) ≤ 2), hst, PlyRead.request, hread, hlen, ne_eq,
    not_true_eq_false, if_false]
  rfl

theorem readRecord_found (hoff : ply.offset = n) (hlen : ply.recordLength.toNat = len)
    (hn : n + len ≤ content.length) : ∃ next, readRecord (sliceOf content) ply = (.updated, next) ∧
      next.offset = n ∧ next.found = ⟨ply.type, len, slice content n len, ply.recordEndOffset⟩ := by
  have hsli : (slice content n len).length = len := by
    rw [slice_length]
    omega
  refine ⟨{ ply.grow.request len with record := overwrite ply.grow.record 0 (slice content n len) }, ?_,
    hoff, ?_⟩
  · simp only [readRecord, PlyRead.grow, PlyRead.request, hoff, hlen, sliceOf_inside hn, hsli, ne_eq,
      not_true_eq_false, if_false]
  have htake := take_overwrite_start ply.grow.record (slice content n len)
  rw [hsli] at htake
  simp only [PlyRead.found, PlyRead.request, PlyRead.grow, hlen] at htake ⊢
  rw [htake]

variable (hlt : content.length < sizeUnset.toNat)
variable (hcache : ∀ offset len, CacheOf content (cache offset len))

include hlt hcache

theorem readPages_eq (h : n + len ≤ content.length) : readPages content cache n len =
    some (slice content n len, ((if TailCached (cache n len) n len then (cache n len).offset
      else n + len : Nat) : Int)) := by
  rw [sizeUnset_toNat] at hlt
  have hmin : min (replicate len (0 : UInt8)).length (content.length - n) = len := by
    rw [length_replicate]
    omega
  have hspec : ∃ buffer, CacheOf content buffer ∧ rhizomeReadBuffered
      (fun page => some (slice content page pageSize)) ⟨content.length, n⟩ (cache n len)
        (replicate len 0) = _ :=
    ReadBuffered.rhizomeReadBuffered_spec (fun _ _ => rfl) hlt rfl (by simp only; omega) (hcache n len)
      (by rw [length_replicate]; simp only; omega)
  obtain ⟨buffer, -, heq⟩ := hspec
  simp only [hmin] at heq
  have hfill := take_overwrite_start (replicate len 0) (slice content n len)
  have hlen : (slice content n len).length = len := by
    rw [slice_length]
    omega
  rw [hlen] at hfill
  rw [readPages, Int.toNat_natCast, heq]
  simp only [Option.bind_some, Option.map_some, hfill]

theorem readRecord_pages (hoff : ply.offset = n) (h : n + ply.recordLength.toNat ≤ content.length) :
    readRecord (readPages content cache) ply = readRecord (sliceOf content) ply := by
  have hlen : (slice content n ply.recordLength.toNat).length = ply.recordLength.toNat := by
    rw [slice_length]
    omega
  simp only [readRecord, PlyRead.grow, PlyRead.request, hoff, readPages_eq hlt hcache h, sliceOf_inside h,
    hlen, ne_eq, not_true_eq_false, if_false]

/-- With its footer in one page, a call does the same for any page in the cache. -/
theorem plyReadPrev_pages (hoff : ply.offset = n) (hn : n ≤ content.length)
    (hpage : 2 < n → (n - 1) % pageSize ≠ 0) :
    plyReadPrev (readPages content cache) ply = plyReadPrev (sliceOf content) ply := by
  by_cases htwo : 2 < n
  · have htail : ¬TailCached (cache (n - 2 : Nat) 2) (n - 2) 2 := by
      rintro ⟨hlow, hhigh, -⟩
      obtain hnil | ⟨hstart, -⟩ := hcache (n - 2 : Nat) 2
      · rw [hnil] at hlow
        cases hlow
      · exact hpage htwo ((show (cache (n - 2 : Nat) 2).offset = n - 1 by omega) ▸ hstart)
    have hread := readPages_eq hlt hcache (show n - 2 + 2 ≤ content.length by omega)
    rw [if_neg htail, Nat.sub_add_cancel (by omega)] at hread
    rw [plyReadPrev_footerAt hoff hn htwo hread, plyReadPrev_footer hoff hn htwo]
    have hat : { ply.atFooter content n with offset := (n : Int) } = ply.atFooter content n := rfl
    rw [hat, readBehind, readBehind]
    split
    · rfl
    next hfits =>
    have hlen : (footerBefore content n >>> 4).toNat + 2 ≤ n := by
      simp only [PlyRead.atFooter] at hfits
      omega
    refine readRecord_pages hlt hcache (n := n - ((footerBefore content n >>> 4).toNat + 2)) ?_ ?_
    · simp only [PlyRead.atFooter]
      omega
    · simp only [PlyRead.atFooter]
      omega
  · rw [plyReadPrev, plyReadPrev]
    simp only [if_pos (by omega : ply.offset ≤ 2)]

omit hcache in
theorem cacheOf_after {requests : List (Int × Nat)}
    (h : ∀ request ∈ requests, 0 ≤ request.1 ∧ request.1 + request.2 ≤ (content.length : Int)) :
    CacheOf content (cacheAfter content requests) := by
  rw [cacheAfter]
  generalize hbuf : (⟨0, []⟩ : ReadBuffer) = buffer
  have hcch : CacheOf content buffer := .inl hbuf.symm
  clear hbuf
  induction requests generalizing buffer with
  | nil => exact hcch
  | cons request requests ih =>
    obtain ⟨hfst, hrest⟩ := forall_mem_cons.mp h
    rw [sizeUnset_toNat] at hlt
    have hsum : request.1.toNat + (replicate request.2 (0 : UInt8)).length < 2 ^ 64 := by
      rw [length_replicate]
      omega
    obtain ⟨buffer', hnext, heq⟩ := @ReadBuffered.rhizomeReadBuffered_spec
      (fun page => some (slice content page pageSize)) _ (fun _ _ => rfl) _ _ hlt
      ⟨content.length, request.1.toNat⟩ rfl (by simp only; omega) hcch hsum
    rw [foldl_cons, heq]
    exact ih hrest _ hnext

omit hcache in
/-- With its footer in one page, a call does what it does on the bytes themselves. -/
theorem readPrev_eq (hin : Inside content.length ply) (hoff : ply.offset = n) (hn : n ≤ content.length)
    (hpage : 2 < n → (n - 1) % pageSize ≠ 0) :
    readPrev content ply = plyReadPrev (sliceOf content) ply := by
  by_cases htwo : 2 < n
  · refine plyReadPrev_pages hlt (fun offset len => cacheOf_after hlt ?_) hoff hn hpage
    split
    · exact hin
    · exact forall_mem_append.mpr ⟨hin, forall_mem_singleton.mpr (by rw [hoff]; omega)⟩
  · rw [readPrev, plyReadPrev, plyReadPrev]
    simp only [if_pos (by omega : ply.offset ≤ 2)]

/-- The page of the footer's second byte is in the cache, and the first byte lies below. -/
theorem plyReadPrev_tail (hoff : ply.offset = n) (hn : n ≤ content.length) (htwo : 2 < n)
    (hcached : (cache (n - 2 : Nat) 2).offset = n - 1) : plyReadPrev (readPages content cache) ply =
      readBehind (readPages content cache) { ply.atFooter content n with offset := (n - 1 : Nat) } := by
  have htail : TailCached (cache (n - 2 : Nat) 2) (n - 2) 2 := by
    refine ⟨by omega, by omega, ?_⟩
    obtain hnil | ⟨-, -, hdata⟩ := hcache (n - 2 : Nat) 2
    · rw [hnil] at hcached
      change 0 = n - 1 at hcached
      omega
    · rw [hdata, slice_length, pageSize]
      omega
  have hread := readPages_eq hlt hcache (show n - 2 + 2 ≤ content.length by omega)
  rw [if_pos htail, hcached] at hread
  exact plyReadPrev_footerAt hoff hn htwo hread

/-- The record is then taken to start a byte before it does. -/
theorem plyReadPrev_across (hoff : ply.offset = (n + len + 3 : Nat)) (hn : n + len + 3 ≤ content.length)
    (hlen : (footerBefore content (n + len + 3) >>> 4).toNat = len)
    (hcached : (cache (n + len + 1 : Nat) 2).offset = n + len + 2) :
    ∃ next, plyReadPrev (readPages content cache) ply = (.updated, next) ∧ next.offset = n ∧
      next.found = ⟨(footerBefore content (n + len + 3) &&& 0xF).toUInt8, len, slice content n len,
        (n + len + 3 : Nat)⟩ := by
  rw [plyReadPrev_tail hlt hcache hoff hn (by omega) hcached, readBehind, if_neg]
  · have hback : ((n + len + 3 - 1 : Nat) : Int) - (len + 2) = n := by omega
    simp only [PlyRead.atFooter, hlen, hback]
    rw [readRecord_pages hlt hcache rfl (by simp only [hlen]; omega)]
    exact readRecord_found rfl hlen (by omega)
  · simp only [PlyRead.atFooter, hlen]
    omega

end Pages

/-! ## The records of a ply -/

theorem InPages.init (h : InPages (recs ++ [r])) : InPages recs := by
  intro f hmem
  refine h f ?_
  rw [layout_snoc]
  exact mem_append_left _ hmem

theorem InPages.last (h : InPages (recs ++ [r])) :
    ((recs.flatMap Record.bytes).length + r.body.length + 2 - 1) % pageSize ≠ 0 := by
  have hlast := h _ (layout_snoc ▸ mem_append_right _ (mem_singleton_self _))
  simp only [zero_add, pageSize] at hlast ⊢
  omega

theorem plyScan_step {next : PlyRead} (h : plyReadPrev rb ply = (.updated, next)) :
    plyScan rb (ps + 1) ply = (plyScan rb ps next).map fun r => (next :: r.1, r.2) := by
  simp [plyScan, h]

theorem footer_length (before after : List UInt8) (r : Record) :
    (footerBefore (before ++ r.bytes ++ after) (before.length + r.body.length + 2) >>> 4).toNat =
      r.body.length := by
  rw [footerBefore_record, r.mark_length]

theorem record_end_le (before after : List UInt8) (r : Record) :
    before.length + r.body.length + 2 ≤ (before ++ r.bytes ++ after).length := by
  simp only [length_append, r.bytes_length]
  omega

/-- From behind any of the records, the scan does the same for any pages in the cache. -/
theorem plyScan_pages (after : List UInt8) (ply : PlyRead)
    (hlt : (recs.flatMap Record.bytes ++ after).length < sizeUnset.toNat)
    (hcache : ∀ offset len, CacheOf (recs.flatMap Record.bytes ++ after) (cache offset len))
    (hpages : InPages recs) (hoff : ply.offset = (recs.flatMap Record.bytes).length)
    (hin : Inside (recs.flatMap Record.bytes ++ after).length ply) :
    plyScan (readPages (recs.flatMap Record.bytes ++ after) cache) (recs.length + 1) ply =
      plyScan (sliceOf (recs.flatMap Record.bytes ++ after)) (recs.length + 1) ply := by
  induction recs using List.reverseRecOn generalizing after ply with
  | nil =>
    obtain ⟨last, hcall, -⟩ := plyReadPrev_ends hoff (by simp) (.inl (by simp)) hin
    have hsame := plyReadPrev_pages hlt hcache hoff (by simp) (by simp)
    rw [plyScan_ends hcall, plyScan_ends (hsame.trans hcall)]
  | append_singleton recs r ih =>
    have hlast := hpages.last
    generalize hbef : recs.flatMap Record.bytes = before at ih hlast
    have hbs : (recs ++ [r]).flatMap Record.bytes = before ++ r.bytes := by simp [hbef]
    rw [hbs] at hlt hcache hoff hin ⊢
    have hbody := r.body_range
    have hend : ply.offset = (before.length + r.body.length + 2 : Nat) := by
      rw [hoff, length_append, r.bytes_length, add_assoc]
    have hle := record_end_le before after r
    obtain ⟨next, hcall, hnext, -, hins⟩ :=
      plyReadPrev_moves hend hle (by omega) (footer_length before after r) hin
    have hsame := plyReadPrev_pages hlt hcache hend hle fun _ => hlast
    rw [append_assoc] at hlt hcache hcall hins hsame ⊢
    have hrest := ih (r.bytes ++ after) next hlt hcache hpages.init hnext hins
    rw [length_append, length_singleton, plyScan_step (hsame.trans hcall), plyScan_step hcall, hrest]

/-- The scan finds all records of a ply, the latest first. -/
theorem plyScan_finds (hlt : (recs.flatMap Record.bytes).length < sizeUnset.toNat)
    (hcache : ∀ offset len, CacheOf (recs.flatMap Record.bytes) (cache offset len))
    (hpages : InPages recs) (ply : PlyRead) : ∃ seen last,
      plyScan (readPages (recs.flatMap Record.bytes) cache) (recs.length + 1)
        (plyReadOpen (recs.flatMap Record.bytes).length ply) = some (seen, .ok, last) ∧
      seen.map PlyRead.found = (layout 0 recs).reverse := by
  generalize hply : plyReadOpen (recs.flatMap Record.bytes).length ply = opened
  have hin : Inside (recs.flatMap Record.bytes).length opened := by
    subst hply
    exact fun _ hmem => absurd hmem not_mem_nil
  have hoff : opened.offset = (recs.flatMap Record.bytes).length := by
    subst hply
    rfl
  have hscan := plyScan_records [] opened hoff
  have hsame := @plyScan_pages cache recs [] opened
  rw [append_nil] at hsame hscan
  rw [hsame hlt hcache hpages hoff hin]
  exact hscan hin

/-- Whatever pages are in the cache at its reads, the scan finds the records of a ply, the last one
first, if no footer lies across two pages. -/
theorem ply_read_by_pages (records : List Record) (ply : PlyRead) (cache : Int → Nat → ReadBuffer)
    (hlt : (records.flatMap Record.bytes).length < sizeUnset.toNat)
    (hcache : ∀ offset len, CacheOf (records.flatMap Record.bytes) (cache offset len))
    (hpages : InPages records) : ∃ content seen last, records.foldlM appendRecord [] = some content ∧
      plyScan (readPages content cache) (records.length + 1) (plyReadOpen content.length ply) =
        some (seen, .ok, last) ∧
      seen.map PlyRead.found = (layout 0 records).reverse := by
  obtain ⟨seen, last, hscan, hfnd⟩ := plyScan_finds hlt hcache hpages ply
  exact ⟨_, seen, last, appendRecords_eq records, hscan, hfnd⟩

def greeting : Record := ⟨2, [104, 105], by decide, by decide⟩

/-- The only page of the two greetings. -/
def onePage : ReadBuffer := ⟨0, slice (greeting.bytes ++ greeting.bytes) 0 pageSize⟩

theorem ply_read_by_pages_two : ∃ content seen last,
    [greeting, greeting].foldlM appendRecord [] = some content ∧
      plyScan (readPages content fun _ _ => onePage) 3 (plyReadOpen content.length ⟨0, 0, 0, 0, [], []⟩) =
        some (seen, .ok, last) ∧
      seen.map PlyRead.found = (layout 0 [greeting, greeting]).reverse :=
  ply_read_by_pages [greeting, greeting] _ (fun _ _ => onePage) (by decide)
    (fun _ _ => .inr ⟨rfl, Nat.zero_le _, rfl⟩) (by unfold InPages; decide)

/-! ## Plies in the store -/

/-- What `append_meshms_buffer` appends to the journal. -/
def plyAppend (a : MakeSpace × List Record) : Append := ⟨a.1, 0, a.2.flatMap Record.bytes⟩

theorem bytes_ne_nil {records : List Record} (h : records ≠ []) : records.flatMap Record.bytes ≠ [] := by
  obtain ⟨r, rest, rfl⟩ := exists_cons_of_ne_nil h
  refine ne_nil_of_length_pos ?_
  rw [flatMap_cons, length_append, r.bytes_length]
  omega

section Stored

variable {env : Env} {keyring : Keyring} {store store' : Store} {m m' : Manifest}

/-- Appends of records leave a journal of all the records. -/
theorem appendAll_ply {appends : List (MakeSpace × List Record)}
    (h : Journal env keyring store m (old.flatMap Record.bytes))
    (hall : ∀ a ∈ appends, Evicts a.1 ∧ a.2 ≠ [])
    (hsum : m.tail.toNat + ((old ++ appends.flatMap Prod.snd).flatMap Record.bytes).length <
      sizeUnset.toNat)
    (hrun : appendAll env keyring store m (appends.map plyAppend) = some (store', m')) :
    Journal env keyring store' m' ((old ++ appends.flatMap Prod.snd).flatMap Record.bytes) ∧
      (appends ≠ [] → Verified env store' m') := by
  induction appends generalizing old store m with
  | nil =>
    cases hrun
    exact ⟨by rwa [flatMap_nil, append_nil], fun hne => absurd rfl hne⟩
  | cons a rest ih =>
    obtain ⟨⟨hsp, hne⟩, hrest⟩ := forall_mem_cons.mp hall
    have hsplit : old ++ (a :: rest).flatMap Prod.snd = old ++ a.2 ++ rest.flatMap Prod.snd := by
      rw [flatMap_cons, append_assoc]
    rw [hsplit] at hsum ⊢
    rw [map_cons, appendAll] at hrun
    split at hrun
    · next m1 store1 happ =>
      have hroom : m.tail.toNat + (old.flatMap Record.bytes).length + (a.2.flatMap Record.bytes).length <
          sizeUnset.toNat := by
        simp only [flatMap_append, length_append, sizeUnset_toNat] at hsum
        have hmax : sizeUnset.toNat = 2 ^ 64 - 1 := rfl
        omega
      obtain ⟨htail, -, -, hjou, hver⟩ := append_journal h hsp (Nat.zero_le _) (bytes_ne_nil hne) hroom happ
      change Journal env keyring store1 m1 (old.flatMap Record.bytes ++ a.2.flatMap Record.bytes) at hjou
      rw [← flatMap_append] at hjou
      obtain ⟨hfinal, hvers⟩ := ih hjou hrest (htail ▸ hsum) hrun
      refine ⟨hfinal, fun _ => ?_⟩
      cases rest with
      | nil =>
        cases hrun
        exact hver
      | cons b rest => exact hvers (cons_ne_nil b rest)
    · cases hrun

/-- Whatever messages have been appended to an encrypted ply, its payload is read back, and the scan
from the end that the manifest gives finds them all. -/
theorem messages_in_journal (old : List Record) (appends : List (MakeSpace × List Record))
    (h : Journal env keyring store m (old.flatMap Record.bytes)) (hne : appends ≠ [])
    (hall : ∀ a ∈ appends, Evicts a.1 ∧ a.2 ≠ [])
    (hsum : m.tail.toNat + ((old ++ appends.flatMap Prod.snd).flatMap Record.bytes).length <
      sizeUnset.toNat)
    (hrun : appendAll env keyring store m (appends.map plyAppend) = some (store', m'))
    (hpages : InPages (old ++ appends.flatMap Prod.snd)) (ply : PlyRead) :
    ∃ content, extractFile env keyring store' m' = (.stored, some content, store') ∧
      ∀ cache, (∀ offset len, CacheOf content (cache offset len)) → ∃ passes seen last,
        plyScan (readPages content cache) passes (plyReadOpen m'.filesize.toNat ply) =
          some (seen, .ok, last) ∧
        seen.map PlyRead.found = (layout 0 (old ++ appends.flatMap Prod.snd)).reverse := by
  obtain ⟨hjou, hver⟩ := appendAll_ply h hall hsum hrun
  have hsome : old ++ appends.flatMap Prod.snd ≠ [] := by
    obtain ⟨a, rest, rfl⟩ := exists_cons_of_ne_nil hne
    rw [flatMap_cons]
    exact append_ne_nil_of_right_ne_nil _ (append_ne_nil_of_left_ne_nil (hall a mem_cons_self).2 _)
  refine ⟨_, journal_reads hjou (bytes_ne_nil hsome) (hver hne), ?_⟩
  intro cache hcache
  rw [hjou.size]
  exact ⟨_, plyScan_finds (Nat.lt_of_le_of_lt (Nat.le_add_left _ _) hsum) hcache hpages ply⟩

end Stored

def newPly : Manifest := { sampleJournal with version := 0, tail := 0, filesize := 0, filehash := none }

def twoGreetings : List (MakeSpace × List Record) :=
  replicate 2 (fun store _ => (.new, store), [greeting])

theorem messages_in_journal_two : ∃ store m content,
    appendAll sampleEnv sampleKeyring (fun _ => none) newPly (twoGreetings.map plyAppend) =
        some (store, m) ∧
      extractFile sampleEnv sampleKeyring store m = (.stored, some content, store) ∧
      ∀ cache, (∀ offset len, CacheOf content (cache offset len)) → ∃ passes seen last,
        plyScan (readPages content cache) passes (plyReadOpen m.filesize.toNat ⟨0, 0, 0, 0, [], []⟩) =
          some (seen, .ok, last) ∧
        seen.map PlyRead.found = (layout 0 [greeting, greeting]).reverse := by
  have hjou : Journal sampleEnv sampleKeyring (fun _ => none) newPly [] :=
    ⟨⟨rfl, by decide, by decide⟩, rfl, rfl, fun hne => absurd rfl hne⟩
  have hsome : (appendAll sampleEnv sampleKeyring (fun _ => none) newPly
      (twoGreetings.map plyAppend)).isSome = true := by decide +kernel
  obtain ⟨⟨store, m⟩, hrun⟩ := Option.isSome_iff_exists.mp hsome
  have hall : ∀ a ∈ twoGreetings, Evicts a.1 ∧ a.2 ≠ [] := by
    intro a ha
    obtain rfl := eq_of_mem_replicate ha
    exact ⟨fun _ _ _ _ h => h, cons_ne_nil _ _⟩
  obtain ⟨content, hread⟩ := messages_in_journal [] twoGreetings hjou (cons_ne_nil _ _) hall (by decide)
    hrun (by unfold InPages; decide) ⟨0, 0, 0, 0, [], []⟩
  exact ⟨store, m, content, hrun, hread⟩

/-! ## Footers across pages -/

/-- The bytes from the one before a record, as many as its body has. -/
theorem shifted_slice (front after : List UInt8) (byte : UInt8) (r : Record) :
    slice (front ++ [byte] ++ r.bytes ++ after) front.length r.body.length =
      byte :: r.body.dropLast := by
  have hne : r.body ≠ [] := ne_nil_of_length_pos (by have := r.body_range; omega)
  have hlen : (byte :: r.body.dropLast).length = r.body.length := by
    have hpos := length_pos_of_ne_nil hne
    rw [length_cons, length_dropLast]
    omega
  have hsli := slice_middle front (byte :: r.body.dropLast)
    (r.body.getLast hne :: writeUint16 r.mark ++ after)
  have hbody := dropLast_concat_getLast hne
  rw [hlen] at hsli
  rw [Record.bytes, ← hsli]
  congr 1
  nth_rewrite 1 [← hbody]
  simp only [append_assoc, cons_append, nil_append]

/-- The footer of a record of the ply lies across two pages, and the upper page is in the cache. The
call then finds a body that starts with the byte before the record and goes on from there, or,
behind the first record, takes the ply to be at its end. -/
theorem footer_across_pages (before after : List UInt8) (r : Record) (ply : PlyRead)
    (cache : Int → Nat → ReadBuffer)
    (hlt : (before ++ r.bytes ++ after).length < sizeUnset.toNat)
    (hcache : ∀ offset len, CacheOf (before ++ r.bytes ++ after) (cache offset len))
    (hoff : ply.offset = (before ++ r.bytes).length)
    (hcached : (cache (before.length + r.body.length : Nat) 2).offset = before.length + r.body.length + 1) :
    (before = [] → ∃ last, plyReadPrev (readPages (before ++ r.bytes ++ after) cache) ply = (.ok, last)) ∧
    ∀ front byte, before = front ++ [byte] → ∃ next,
      plyReadPrev (readPages (before ++ r.bytes ++ after) cache) ply = (.updated, next) ∧
        next.offset = front.length ∧
        next.found = ⟨r.type, r.body.length, byte :: r.body.dropLast, (before ++ r.bytes).length⟩ := by
  have hbody := r.body_range
  have hlen := footer_length before after r
  have hle := record_end_le before after r
  have hend : (before ++ r.bytes).length = before.length + r.body.length + 2 := by
    rw [length_append, r.bytes_length, add_assoc]
  rw [hend] at hoff
  constructor
  · rintro rfl
    rw [plyReadPrev_tail hlt hcache hoff hle (by omega) hcached, readBehind, if_pos]
    · exact ⟨_, rfl⟩
    · simp only [PlyRead.atFooter, hlen]
      rw [length_nil]
      omega
  rintro front byte rfl
  have hfront : (front ++ [byte]).length + r.body.length + 2 = front.length + r.body.length + 3 := by
    rw [length_append, length_singleton]
    omega
  have hcached' : (cache (front.length + r.body.length + 1 : Nat) 2).offset =
      front.length + r.body.length + 2 := by
    rw [length_append, length_singleton, Nat.add_right_comm] at hcached
    exact hcached
  obtain ⟨next, hcall, hnext, hfnd⟩ := plyReadPrev_across hlt hcache (hfront ▸ hoff) (hfront ▸ hle)
    (hfront ▸ hlen) hcached'
  refine ⟨next, hcall, hnext, ?_⟩
  rw [hfnd, ← hfront, footerBefore_record, r.mark_type, shifted_slice, hend]

/-- With a byte before it, this record leaves one byte of the page to its footer. -/
def pageful : Record :=
  ⟨2, replicate 4094 0, by decide, by rw [length_replicate, messageMaxLen]; omega⟩

def twoPages : List UInt8 := [7] ++ pageful.bytes ++ greeting.bytes

/-- The page that the greeting has been read from. -/
def upperPage : ReadBuffer := ⟨pageSize, slice twoPages pageSize pageSize⟩

theorem footer_across_pages_one : ∃ next,
    plyReadPrev (readPages twoPages fun _ _ => upperPage) ⟨4097, 0, 0, 0, [], []⟩ = (.updated, next) ∧
      next.offset = 0 ∧ next.found = ⟨2, 4094, 7 :: pageful.body.dropLast, 4097⟩ := by
  have hbody : pageful.body.length = 4094 := length_replicate
  have hlen : ([7] ++ pageful.bytes).length = 4097 := by
    rw [length_append, pageful.bytes_length, hbody, length_singleton]
  have hall : twoPages.length = 4101 := by
    rw [twoPages, length_append, hlen, greeting.bytes_length]
    rfl
  have hpage : CacheOf twoPages upperPage := by
    refine .inr ⟨Nat.mod_self _, ?_, by simp only [upperPage]⟩
    simp only [hall, upperPage, pageSize]
    omega
  have hcall := (footer_across_pages [7] greeting.bytes pageful ⟨4097, 0, 0, 0, [], []⟩
    (fun _ _ => upperPage) (hall ▸ by rw [sizeUnset_toNat]; omega) (fun _ _ => hpage)
    (by rw [hlen]; rfl) (by rw [hbody, length_singleton, upperPage, pageSize])).2 [] 7 rfl
  rw [hlen, hbody] at hcall
  exact hcall

end PlyPages
