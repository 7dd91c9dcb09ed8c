import Mathlib.Data.List.Induction
import ServalDna.DataFormats
import ServalDna.ListSlice

/-!
# The records of a MeshMS ply

A ply is a journal of records. `append_footer` ends each of them with two bytes
that hold its length and its type, and `ply_read_prev` walks the journal
backwards from its end, one record a call.

Offsets are integers here: where the `uint64_t` of the source would wrap, the
model has a negative offset. `rhizome_read_buffered` is a parameter of the
reader; the results are about the one that returns the bytes asked for and moves
the offset over them.
-/
namespace MeshmsPly

open DataFormats ListSlice List

def messageMaxLen : Nat := 4095

/-- `enum meshms_status`. -/
inductive Status where
  | error | ok | updated | sidLocked | protocolFault
  deriving DecidableEq, Repr

/-- `append_footer`; `none` is the failed assertion. -/
def appendFooter (type : UInt8) (messageLen : Nat) : Option (List UInt8) :=
  if messageLen ≤ messageMaxLen then
    some (writeUint16 (UInt16.ofNat (messageLen <<< 4 ||| (type &&& 0xF).toNat)))
  else none

/-- `struct meshms_ply_read`. `record` is all the memory of the record buffer, so
its length is `record_size`. `requests` has the start and length of every read so
far. -/
structure PlyRead where
  offset : Int
  recordEndOffset : Int
  recordLength : UInt16
  type : UInt8
  record : List UInt8
  requests : List (Int × Nat)
  deriving DecidableEq, Repr

/-- The end of `ply_read_open`. -/
def plyReadOpen (filesize : Nat) (ply : PlyRead) : PlyRead :=
  { ply with offset := filesize, requests := [] }

/-- `rhizome_read_buffered`: the bytes read from an offset and the offset after
them; `none` is `-1`. -/
abbrev ReadBuffered := Int → Nat → Option (List UInt8 × Int)

def PlyRead.request (ply : PlyRead) (len : Nat) : PlyRead :=
  { ply with requests := ply.requests ++ [(ply.offset, len)] }

def PlyRead.setFooter (ply : PlyRead) (footer : UInt16) : PlyRead :=
  { ply with recordLength := footer >>> 4, type := (footer &&& 0xF).toUInt8 }

/-- The record buffer grown to `recordLength` if it is smaller. -/
def PlyRead.grow (ply : PlyRead) : PlyRead :=
  { ply with record := ply.record ++ List.replicate (ply.recordLength.toNat - ply.record.length) 0 }

/-- The part of `ply_read_prev` that reads the record at the offset. -/
def readRecord (readBuffered : ReadBuffered) (ply : PlyRead) : Status × PlyRead :=
  let recordStart := ply.offset
  let ply := ply.grow.request ply.recordLength.toNat
  match readBuffered ply.offset ply.recordLength.toNat with
  | none => (.error, ply)
  | some (bytes, offset) =>
    let ply := { ply with record := overwrite ply.record 0 bytes, offset := offset }
    if bytes.length ≠ ply.recordLength.toNat then (.protocolFault, ply)
    else (.updated, { ply with offset := recordStart })

/-- The part of `ply_read_prev` behind the read of the footer. -/
def readBehind (readBuffered : ReadBuffered) (ply : PlyRead) : Status × PlyRead :=
  if (ply.recordLength.toNat : Int) + 2 > ply.offset then (.ok, ply)
  else readRecord readBuffered { ply with offset := ply.offset - (ply.recordLength.toNat + 2) }

def plyReadPrev (readBuffered : ReadBuffered) (ply : PlyRead) : Status × PlyRead :=
  let ply := { ply with recordEndOffset := ply.offset }
  if ply.offset ≤ 2 then (.ok, ply)
  else
    let ply := PlyRead.request { ply with offset := ply.offset - 2 } 2
    match readBuffered ply.offset 2 with
    | none => (.error, ply)
    | some (footer, offset) =>
      let ply := { ply with offset := offset }
      if footer.length ≠ 2 then (.protocolFault, ply)
      else readBehind readBuffered (ply.setFooter (readUint16 footer))

/-- Call `ply_read_prev` while it returns `MESHMS_STATUS_UPDATED`: the states after
those calls, and what the last call returns. `none` if `passes` calls were not
enough. -/
def plyScan (readBuffered : ReadBuffered) : Nat → PlyRead → Option (List PlyRead × Status × PlyRead)
  | 0, _ => none
  | passes + 1, ply =>
    let called := plyReadPrev readBuffered ply
    if called.1 = .updated then
      (plyScan readBuffered passes called.2).map fun r => (called.2 :: r.1, r.2)
    else some ([], called)

/-- The reader that returns the bytes of `content` asked for and moves over them. -/
def sliceOf (content : List UInt8) : ReadBuffered := fun offset len =>
  let bytes := slice content offset.toNat len
  some (bytes, offset + bytes.length)

/-! ## Footers -/

/-- A record that may be appended to a ply. -/
structure Record where
  type : UInt8
  body : List UInt8
  type_range : 1 ≤ type.toNat ∧ type.toNat ≤ 15
  body_range : 1 ≤ body.length ∧ body.length ≤ messageMaxLen

/-- The number in the footer of a record. -/
def Record.mark (r : Record) : UInt16 := UInt16.ofNat (r.body.length <<< 4 ||| (r.type &&& 0xF).toNat)

theorem Record.mark_toNat (r : Record) : r.mark.toNat = 16 * r.body.length + r.type.toNat := by
  have htype := r.type_range
  have hbody : r.body.length ≤ 4095 := r.body_range.2
  have hmask : (r.type &&& 0xF).toNat = r.type.toNat % 16 :=
    (UInt8.toNat_and ..).trans (Nat.and_two_pow_sub_one_eq_mod _ 4)
  have hlow : r.type.toNat % 16 < 2 ^ 4 := Nat.mod_lt _ (by decide)
  rw [mark, hmask, ← Nat.shiftLeft_add_eq_or_of_lt hlow, UInt16.toNat_ofNat', Nat.shiftLeft_eq]
  omega

theorem Record.mark_length (r : Record) : (r.mark >>> 4).toNat = r.body.length := by
  have htype := r.type_range
  have hmark := r.mark_toNat
  simp only [UInt16.toNat_shiftRight, Nat.shiftRight_eq_div_pow, UInt16.reduceToNat, Nat.reduceMod,
    Nat.reducePow]
  omega

theorem Record.mark_type (r : Record) : (r.mark &&& 0xF).toUInt8 = r.type := by
  have htype := r.type_range
  have hmark := r.mark_toNat
  have hmask : (r.mark &&& 0xF).toNat = r.mark.toNat % 16 :=
    (UInt16.toNat_and ..).trans (Nat.and_two_pow_sub_one_eq_mod _ 4)
  apply UInt8.toNat_inj.mp
  rw [UInt16.toNat_toUInt8, hmask]
  omega

/-! ## Plies -/

def appendRecord (content : List UInt8) (r : Record) : Option (List UInt8) :=
  (appendFooter r.type r.body.length).map fun footer => content ++ r.body ++ footer

def Record.bytes (r : Record) : List UInt8 := r.body ++ writeUint16 r.mark

@[simp] theorem Record.bytes_length (r : Record) : r.bytes.length = r.body.length + 2 := by
  simp [bytes]

theorem appendRecord_eq : appendRecord content r = some (content ++ r.bytes) := by
  rw [appendRecord, appendFooter, if_pos r.body_range.2, Option.map_some, append_assoc]
  rfl

theorem appendRecords_eq (recs : List Record) :
    recs.foldlM appendRecord content = some (content ++ recs.flatMap Record.bytes) := by
  induction recs generalizing content with
  | nil => simp
  | cons r recs ih =>
    rw [foldlM_cons, appendRecord_eq, Option.bind_eq_bind, Option.bind_some, ih,
      flatMap_cons, append_assoc]

/-- What a call of `ply_read_prev` has found. -/
structure Found where
  type : UInt8
  length : Nat
  body : List UInt8
  endOffset : Int
  deriving DecidableEq, Repr

def PlyRead.found (ply : PlyRead) : Found :=
  ⟨ply.type, ply.recordLength.toNat, ply.record.take ply.recordLength.toNat, ply.recordEndOffset⟩

/-- The records of a ply with the offsets behind their footers, from offset `start` on. -/
def layout (start : Nat) : List Record → List Found
  | [] => []
  | r :: records =>
    ⟨r.type, r.body.length, r.body, (start + r.body.length + 2 : Nat)⟩ ::
      layout (start + r.body.length + 2) records

theorem layout_snoc : layout start (recs ++ [r]) = layout start recs ++
      [⟨r.type, r.body.length, r.body,
        (start + (recs.flatMap Record.bytes).length + r.body.length + 2 : Nat)⟩] := by
  induction recs generalizing start with
  | nil => simp [layout]
  | cons first recs ih =>
    simp only [cons_append, layout, ih, flatMap_cons, length_append, Record.bytes_length]
    congr 5
    omega

/-! ## One call -/

/-- Every read so far was of bytes of the ply. -/
def Inside (size : Nat) (ply : PlyRead) : Prop :=
  ∀ request ∈ ply.requests, 0 ≤ request.1 ∧ request.1 + request.2 ≤ (size : Int)

variable {len n : Nat} {ply : PlyRead}

theorem Inside.request (h : Inside size ply) (hoff : ply.offset = n) (hn : n + len ≤ size) :
    Inside size (ply.request len) := by
  refine forall_mem_append.mpr ⟨h, forall_mem_singleton.mpr ?_⟩
  rw [hoff]
  omega

theorem sliceOf_inside (h : n + len ≤ content.length) :
    sliceOf content n len = some (slice content n len, ((n + len : Nat) : Int)) := by
  have hlen : (slice content n len).length = len := by
    rw [slice_length]
    omega
  simp [sliceOf, hlen]

/-- The number in the footer that ends at offset `n`. -/
def footerBefore (content : List UInt8) (n : Nat) : UInt16 := readUint16 (slice content (n - 2) 2)

def PlyRead.atFooter (ply : PlyRead) (content : List UInt8) (n : Nat) : PlyRead :=
  { offset := n
    recordEndOffset := n
    recordLength := footerBefore content n >>> 4
    type := (footerBefore content n &&& 0xF).toUInt8
    record := ply.record
    requests := ply.requests ++ [(((n - 2 : Nat) : Int), 2)] }

theorem inside_atFooter (hn : n ≤ content.length) (htwo : 2 < n) (hin : Inside content.length ply) :
    Inside content.length (ply.atFooter content n) := by
  exact forall_mem_append.mpr ⟨hin, forall_mem_singleton.mpr (by omega)⟩

section Call

variable {content : List UInt8} (hoff : ply.offset = n) (hn : n ≤ content.length)
include hoff hn

theorem plyReadPrev_footer (htwo : 2 < n) :
    plyReadPrev (sliceOf content) ply = readBehind (sliceOf content) (ply.atFooter content n) := by
  have hst : (n : Int) - 2 = ((n - 2 : Nat) : Int) := by omega
  have hlen : (slice content (n - 2) 2).length = 2 := by
    rw [slice_length]
    omega
  have hback : ((n - 2 + 2 : Nat) : Int) = n := by omega
  have hread : sliceOf content ((n - 2 : Nat) : Int) 2 = _ :=
    sliceOf_inside (by omega : n - 2 + 2 ≤ content.length)
  rw [plyReadPrev]
  simp only [hoff, if_neg (by omega : ¬ (n : Int) ≤ 2), hst, PlyRead.request, hread, hlen, hback,
    ne_eq, not_true_eq_false, if_false]
  rfl

/-- A call too close to the start of the ply ends the scan. -/
theorem plyReadPrev_ends (hsht : n ≤ 2 ∨ n < (footerBefore content n >>> 4).toNat + 2)
    (hin : Inside content.length ply) :
    ∃ last, plyReadPrev (sliceOf content) ply = (.ok, last) ∧ Inside content.length last := by
  by_cases htwo : 2 < n
  · refine ⟨ply.atFooter content n, ?_, inside_atFooter hn htwo hin⟩
    rw [plyReadPrev_footer hoff hn htwo, readBehind, if_pos]
    simp only [PlyRead.atFooter]
    omega
  refine ⟨{ ply with recordEndOffset := ply.offset }, ?_, hin⟩
  rw [plyReadPrev]
  simp only [if_pos (by omega : ply.offset ≤ 2)]

end Call

/-- The first bytes of a buffer that is large enough are the bytes written to its start. -/
theorem take_overwrite_start (l bytes : List UInt8) : (overwrite l 0 bytes).take bytes.length = bytes := by
  simp [overwrite]

/-- A call with a whole record before the offset finds that record and stops at its start. -/
theorem plyReadPrev_moves (hoff : ply.offset = (n + len + 2 : Nat))
    (hn : n + len + 2 ≤ content.length) (hpos : 0 < n + len)
    (hlen : (footerBefore content (n + len + 2) >>> 4).toNat = len)
    (hin : Inside content.length ply) :
    ∃ next, plyReadPrev (sliceOf content) ply = (.updated, next) ∧ next.offset = n ∧
      next.found = ⟨(footerBefore content (n + len + 2) &&& 0xF).toUInt8, len, slice content n len,
        (n + len + 2 : Nat)⟩ ∧ Inside content.length next := by
  have hbeh := inside_atFooter hn (by omega) hin
  have hsli : (slice content n len).length = len := by
    rw [slice_length]
    omega
  let start := { ply.atFooter content (n + len + 2) with offset := (n : Int) }
  have hreq : Inside content.length (start.grow.request len) :=
    Inside.request hbeh (n := n) rfl (by omega)
  refine ⟨{ start.grow.request len with record := overwrite start.grow.record 0 (slice content n len) },
    ?_, rfl, ?_, hreq⟩
  · have hback : (((n + len + 2 : Nat) : Int) - (len + 2)) = n := by omega
    rw [plyReadPrev_footer hoff hn (by omega), readBehind, if_neg]
    · simp only [PlyRead.atFooter, hlen, hback, readRecord, PlyRead.grow, PlyRead.request]
      rw [sliceOf_inside (by omega)]
      simp [hsli, start, PlyRead.atFooter, hlen]
    simp only [PlyRead.atFooter, hlen]
    omega
  have htake := take_overwrite_start start.grow.record (slice content n len)
  rw [hsli] at htake
  simp only [PlyRead.found, PlyRead.request, PlyRead.grow, start, PlyRead.atFooter, hlen] at htake ⊢
  rw [htake]

/-! ## The scan -/

theorem plyScan_ends (h : plyReadPrev rb ply = (.ok, last)) :
    plyScan rb (ps + 1) ply = some ([], .ok, last) := by
  simp [plyScan, h]

theorem plyScan_moves {next : PlyRead} (h : plyReadPrev rb ply = (.updated, next))
    (hrest : plyScan rb ps next = some (seen, last)) :
    plyScan rb (ps + 1) ply = some (next :: seen, last) := by
  simp [plyScan, h, hrest]

theorem decreasing_cons {rest : List Int} (hab : b < a) (h : (b :: rest).Pairwise (· > ·)) :
    (a :: b :: rest).Pairwise (· > ·) := by
  have hrest : ∀ c ∈ rest, a > c := fun c hc => Int.lt_trans (rel_of_pairwise_cons h hc) hab
  exact pairwise_cons.mpr ⟨forall_mem_cons.mpr ⟨hab, hrest⟩, h⟩

/-- From any offset in any ply the scan ends, its offsets only go down, and it
reads only bytes of the ply. -/
theorem plyScan_inside (n spare : Nat) (ply : PlyRead) (hoff : ply.offset = n)
    (hn : n ≤ content.length) (hin : Inside content.length ply) :
    ∃ seen last, plyScan (sliceOf content) (n + 1 + spare) ply = some (seen, .ok, last) ∧
      (ply.offset :: seen.map PlyRead.offset).Pairwise (· > ·) ∧ Inside content.length last := by
  induction n using Nat.strongRecOn generalizing spare ply with
  | ind n ih =>
    by_cases hsht : n ≤ 2 ∨ n < (footerBefore content n >>> 4).toNat + 2
    · obtain ⟨last, hcall, hlast⟩ := plyReadPrev_ends hoff hn hsht hin
      rw [Nat.add_right_comm]
      exact ⟨[], last, plyScan_ends hcall, pairwise_singleton _ _, hlast⟩
    -- the record before the offset is whole, so the call moves to its start
    generalize hlen : (footerBefore content n >>> 4).toNat = len at hsht
    obtain ⟨start, rfl⟩ : ∃ start, n = start + len + 2 := ⟨n - len - 2, by omega⟩
    obtain ⟨next, hcall, hnext, -, hins⟩ :=
      plyReadPrev_moves hoff hn (by omega) hlen hin
    obtain ⟨seen, last, hscan, hdown, hlast⟩ :=
      ih start (by omega) (len + 1 + spare) next hnext (by omega) hins
    refine ⟨next :: seen, last, ?_, decreasing_cons (by omega) hdown, hlast⟩
    have hps : start + len + 2 + 1 + spare = start + 1 + (len + 1 + spare) + 1 := by omega
    rw [hps]
    exact plyScan_moves hcall hscan

/-- The footer behind a record, wherever it is in a ply. -/
theorem footerBefore_record (pre after : List UInt8) (r : Record) :
    footerBefore (pre ++ r.bytes ++ after) (pre.length + r.body.length + 2) = r.mark := by
  have hsli := slice_middle (pre ++ r.body) (writeUint16 r.mark) after
  rw [append_assoc pre, length_append, writeUint16_length] at hsli
  rw [footerBefore, Nat.add_sub_cancel, Record.bytes, hsli, readUint16_writeUint16]

theorem body_slice (pre after : List UInt8) (r : Record) :
    slice (pre ++ r.bytes ++ after) pre.length r.body.length = r.body := by
  have hsli := slice_middle pre r.body (writeUint16 r.mark ++ after)
  rwa [← append_assoc, append_assoc pre] at hsli

/-- The scan from behind the last of the records finds them all, the last one first. -/
theorem plyScan_records (after : List UInt8) (ply : PlyRead)
    (hoff : ply.offset = (recs.flatMap Record.bytes).length)
    (hin : Inside (recs.flatMap Record.bytes ++ after).length ply) :
    ∃ seen last, plyScan (sliceOf (recs.flatMap Record.bytes ++ after)) (recs.length + 1) ply =
        some (seen, .ok, last) ∧ seen.map PlyRead.found = (layout 0 recs).reverse := by
  induction recs using List.reverseRecOn generalizing after ply with
  | nil =>
    obtain ⟨last, hcall, -⟩ := plyReadPrev_ends hoff (by simp) (.inl (by simp)) hin
    exact ⟨[], last, plyScan_ends hcall, rfl⟩
  | append_singleton recs r ih =>
    generalize hbef : recs.flatMap Record.bytes = before at ih
    have hbs : (recs ++ [r]).flatMap Record.bytes = before ++ r.bytes := by simp [hbef]
    rw [hbs] at hoff hin ⊢
    have hbody := r.body_range
    have hlen : (footerBefore (before ++ r.bytes ++ after) (before.length + r.body.length + 2) >>> 4).toNat =
        r.body.length := by rw [footerBefore_record, r.mark_length]
    have hend : ply.offset = (before.length + r.body.length + 2 : Nat) := by
      rw [hoff, length_append, r.bytes_length, add_assoc]
    obtain ⟨next, hcall, hnext, hfnd, hins⟩ := plyReadPrev_moves hend
      (by simp only [length_append, r.bytes_length]; omega) (by omega) hlen hin
    rw [footerBefore_record, r.mark_type, body_slice] at hfnd
    rw [append_assoc] at hcall hins ⊢
    obtain ⟨seen, last, hscan, hseen⟩ := ih (r.bytes ++ after) next hnext hins
    refine ⟨next :: seen, last, ?_, ?_⟩
    · rw [length_append]
      exact plyScan_moves hcall hscan
    rw [map_cons, hseen, layout_snoc, reverse_append, hbef, hfnd, zero_add]
    rfl

/-- The records appended to an empty ply are read back from its end, each with its
type, length, body and end offset, the last one first, and then the scan is at its
end. In any ply whatsoever the scan comes to an end with offsets that only go down
and reads nothing outside the ply. -/
theorem ply_reads_back : (∀ (records : List Record) (ply : PlyRead), ∃ content seen last,
      records.foldlM appendRecord [] = some content ∧
      plyScan (sliceOf content) (records.length + 1) (plyReadOpen content.length ply) =
        some (seen, .ok, last) ∧
      seen.map PlyRead.found = (layout 0 records).reverse) ∧
    ∀ (content : List UInt8) (ply : PlyRead) (spare : Nat), ∃ seen last,
      plyScan (sliceOf content) (content.length + 1 + spare) (plyReadOpen content.length ply) =
        some (seen, .ok, last) ∧
      ((content.length : Int) :: seen.map PlyRead.offset).Pairwise (· > ·) ∧
      ∀ request ∈ last.requests, 0 ≤ request.1 ∧ request.1 + request.2 ≤ (content.length : Int) := by
  have hopen : ∀ (size : Nat) (ply : PlyRead), Inside size (plyReadOpen size ply) := by
    intro size ply request hmem
    exact absurd hmem not_mem_nil
  constructor
  · intro records ply
    have hscan := plyScan_records [] (plyReadOpen (records.flatMap Record.bytes).length ply) rfl
    rw [append_nil] at hscan
    obtain ⟨seen, last, hseen, hfnd⟩ := hscan (hopen _ ply)
    exact ⟨records.flatMap Record.bytes, seen, last, appendRecords_eq records, hseen, hfnd⟩
  intro content ply spare
  exact plyScan_inside content.length spare (plyReadOpen content.length ply) rfl
    (Nat.le_refl _) (hopen _ ply)

end MeshmsPly
