import ServalDna.RhizomeWrite

/-!
# Random-order writes store the payload

Whatever pieces of the payload arrive, and in whatever order, the bytes that are
hashed and the bytes that are stored are always the first bytes of the stored
form of the payload. The cached blocks fill the gap between the two offsets.
-/
namespace RandomWrite

open ListSlice KeyStream RhizomeCrypt RhizomeWrite Option
open List hiding Cursor

/-- What is to be written: the bytes that are given to the writer, the bytes that it
should store, how many of them are written now, and the encryption settings for
these. -/
structure Plan where
  plain : List UInt8
  target : List UInt8
  limit : Nat
  cipher : Bool × Nat × List UInt8 × List UInt8
  length_eq : plain.length = target.length
  limit_le : limit ≤ target.length

variable {P : Plan}

/-! ## The stored bytes -/

/-- The file holds the bytes below `writtenOffset`. A row holds them too, and zeros
above. -/
structure Stored (env : Env) (target : List UInt8) (w : Write) : Prop where
  file : ∀ bytes, w.blobFd = some bytes → bytes = target.take w.writtenOffset
  row : w.blobFd = none → ∀ bytes, w.blobRow = some bytes →
    bytes = target.take w.writtenOffset ++ List.replicate (target.length - w.writtenOffset) 0
  nothing : w.blobFd = none → w.blobRow = none → w.writtenOffset = 0
  rowless : external env w = true → w.blobRow = none
  locked : w.sqlBlob = true → w.blobRow.isSome = true

variable {data target : List UInt8}

theorem overwrite_file (hn : n ≤ target.length) (hdata : data = slice target n data.length) :
    overwrite (target.take n ++ List.replicate (n - (target.take n).length) 0) n data =
      target.take (n + data.length) := by
  have hlen : (target.take n).length = n := by simp [hn]
  rw [hlen, Nat.sub_self, replicate_zero, append_nil, overwrite,
    take_of_length_le (by omega), drop_of_length_le (by omega), append_nil]
  rw [← take_append_slice, ← hdata]

theorem overwrite_row (hn : n ≤ target.length) (hdata : data = slice target n data.length) :
    overwrite (target.take n ++ List.replicate (target.length - n) 0) n data =
      target.take (n + data.length) ++ List.replicate (target.length - (n + data.length)) 0 := by
  have hlen : (target.take n).length = n := by simp [hn]
  rw [overwrite, take_left' hlen, ← drop_drop, drop_left' hlen,
    drop_replicate, ← take_append_slice, ← hdata, Nat.sub_sub]

def written (w : Write) (fd row : Option (List UInt8)) (sql : Bool) (size : Nat) : Write :=
  { w with blobFd := fd, blobRow := row, sqlBlob := sql, writtenOffset := w.writtenOffset + size }

/-- The next bytes go to the file or the row that is open. -/
theorem writeData_open (h : Stored env target w) (hopen : w.blobFd.isSome = true ∨ w.sqlBlob = true)
    (hn : w.writtenOffset ≤ target.length) (hne : data ≠ [])
    (hdata : data = slice target w.writtenOffset data.length) :
    ∃ fd row sql, writeData w w.writtenOffset data = some (written w fd row sql data.length) ∧
      Stored env target (written w fd row sql data.length) := by
  rw [writeData, if_neg hne]
  cases hfd : w.blobFd with
  | some bytes =>
    have hwr := overwrite_file hn hdata
    rw [← h.file bytes hfd] at hwr
    refine ⟨some (target.take (w.writtenOffset + data.length)), w.blobRow, w.sqlBlob, ?_,
      fun _ h' => (Option.some.inj h').symm, by simp [written], by simp [written], h.rowless, h.locked⟩
    simp only [hwr]
    rfl
  | none =>
    have hsql : w.sqlBlob = true := by simpa [hfd] using hopen
    obtain ⟨bytes, hrow⟩ := isSome_iff_exists.mp (h.locked hsql)
    have hbs := h.row hfd bytes hrow
    have hwr := overwrite_row hn hdata
    have hfits : w.writtenOffset + data.length ≤ bytes.length := by
      have hlen := congrArg List.length hdata
      rw [slice_length] at hlen
      rw [hbs, length_append, length_take, length_replicate]
      omega
    rw [← hbs] at hwr
    refine ⟨none, some (overwrite bytes w.writtenOffset data), true, ?_, by simp [written], ?_,
      by simp [written], fun h' => absurd (h.rowless h') (by simp [hrow]), fun _ => rfl⟩
    · simp only [hsql, hrow, if_neg (Nat.not_lt.mpr hfits)]
      rw [written, ← hfd, ← hsql]
    · exact fun _ _ h' => (Option.some.inj h').symm.trans hwr

theorem stored_writeGetLock (h : Stored env target w) (hlen : w.fileLength = some target.length) :
    Stored env target (writeGetLock env w) ∧
      ((writeGetLock env w).blobFd.isSome = true ∨ (writeGetLock env w).sqlBlob = true) ∧
      ∃ fd row sql, writeGetLock env w = written w fd row sql 0 := by
  rw [writeGetLock]
  by_cases hopen : (w.blobFd.isSome || w.sqlBlob) = true
  · rw [if_pos hopen]
    rw [Bool.or_eq_true] at hopen
    exact ⟨h, hopen, w.blobFd, w.blobRow, w.sqlBlob, rfl⟩
  rw [if_neg hopen]
  simp only [Bool.or_eq_true, not_or, Bool.not_eq_true, isSome_eq_false_iff, isNone_iff_eq_none] at hopen
  by_cases hext : external env w = true
  · rw [if_pos hext]
    have hzero := h.nothing hopen.1 (h.rowless hext)
    exact ⟨⟨by simp [hzero], by simp, by simp, h.rowless, h.locked⟩, .inl rfl, some [], w.blobRow,
      w.sqlBlob, rfl⟩
  rw [if_neg hext]
  refine ⟨⟨h.file, ?_, by simp, fun h' => absurd h' hext, fun _ => rfl⟩, .inr rfl, w.blobFd, _, true, rfl⟩
  intro _ bytes h'
  cases hrow : w.blobRow with
  | none =>
    rw [hrow, hlen] at h'
    cases h'
    simp [h.nothing hopen.1 hrow]
  | some bytes' =>
    rw [hrow] at h'
    cases h'
    exact h.row hopen.1 _ hrow

/-! ## The processed bytes -/

/-- The bytes below `fileOffset` have been encrypted and hashed, those below
`writtenOffset` have been stored. -/
structure Streaming (env : Env) (P : Plan) (w : Write) : Prop where
  length : w.fileLength = some P.target.length
  written_le : w.writtenOffset ≤ w.fileOffset
  processed_le : w.fileOffset ≤ P.limit
  hashed : w.hashed = P.target.take w.fileOffset
  stored : Stored env P.target w
  cipher : w.cipher = P.cipher
  enciphers : ∀ a n, w.fileOffset ≤ a → a + n ≤ P.limit →
    encipher env w a (slice P.plain a n) = slice P.target a n

def processed (w : Write) (bytes : List UInt8) : Write :=
  { w with hashed := w.hashed ++ bytes, fileOffset := w.fileOffset + bytes.length }

theorem slice_target_length (h : a + n ≤ P.limit) : (slice P.target a n).length = n := by
  have hle := P.limit_le
  rw [slice_length]
  omega

/-- The next bytes are encrypted at their place. -/
theorem prepareData_next (h : Streaming env P w) (hne : data ≠ [])
    (hdata : data = slice P.plain w.fileOffset data.length)
    (hend : w.fileOffset + data.length ≤ P.limit) :
    prepareData env w data = some (processed w (slice P.target w.fileOffset data.length),
        slice P.target w.fileOffset data.length) := by
  have hle := P.limit_le
  have henc := h.enciphers w.fileOffset data.length le_rfl hend
  rw [← hdata] at henc
  have hfits : ¬w.fileLength.any (fun length => w.fileOffset + data.length > length) = true := by
    rw [h.length, any_some, decide_eq_true_iff]
    omega
  rw [prepareData, if_neg hne, if_neg hfits]
  simp only [henc]
  rfl

theorem streaming_processed (h : Streaming env P w) (hend : w.fileOffset + n ≤ P.limit) :
    Streaming env P (processed w (slice P.target w.fileOffset n)) := by
  have hlen := slice_target_length hend
  refine ⟨h.length, ?_, ?_, ?_, { h.stored with }, h.cipher, ?_⟩
  · exact le_trans h.written_le (Nat.le_add_right _ _)
  · simp only [processed, hlen]
    exact hend
  · simp only [processed, hlen, h.hashed]
    rw [take_append_slice]
  intro a m ha hm
  exact h.enciphers a m (le_trans (Nat.le_add_right _ _) ha) hm

theorem streaming_written (h : Streaming env P w) (hne : data ≠ [])
    (hdata : data = slice P.target w.writtenOffset data.length)
    (hend : w.writtenOffset + data.length ≤ w.fileOffset) :
    ∃ fd row sql, writeData (writeGetLock env w) w.writtenOffset data =
        some (written w fd row sql data.length) ∧
      Streaming env P (written w fd row sql data.length) := by
  have hle := P.limit_le
  have hproc := h.processed_le
  have hin : w.writtenOffset ≤ P.target.length := by omega
  obtain ⟨hloc, hopen, fd0, row0, sql0, hlock⟩ := stored_writeGetLock h.stored h.length
  rw [hlock] at hloc hopen ⊢
  obtain ⟨fd, row, sql, hwr, hsto⟩ := writeData_open hloc hopen hin hne hdata
  exact ⟨fd, row, sql, hwr, h.length, hend, h.processed_le, h.hashed, hsto, h.cipher, h.enciphers⟩

theorem streaming_bufferSize (h : Streaming env P w) :
    Streaming env P { w with bufferSize := size } :=
  { h with stored := { h.stored with } }

/-! ## The cached blocks -/

/-- The blocks between the stored bytes and the end of the payload. Those below the
bytes that were processed hold bytes to store, and the others bytes as they came. -/
structure Cached (P : Plan) (written processed size : Nat) (blocks : List Block) : Prop where
  sorted : blocks.Pairwise (fun a b => a.endOffset ≤ b.offset)
  nonempty : ∀ b ∈ blocks, b.data ≠ []
  unwritten : ∀ b ∈ blocks, written ≤ b.offset
  within : ∀ b ∈ blocks, b.endOffset ≤ P.limit
  ready : ∀ b ∈ blocks, b.offset < processed →
    b.endOffset ≤ processed ∧ b.data = slice P.target b.offset b.data.length
  waiting : ∀ b ∈ blocks, processed ≤ b.offset → b.data = slice P.plain b.offset b.data.length
  covered : ∀ x, written ≤ x → x < processed → ∃ b ∈ blocks, b.offset ≤ x ∧ x < b.endOffset
  size_eq : size = (blocks.map (fun b => b.data.length)).sum
  bounded : size ≤ bufferMaximumSize

theorem offset_lt_endOffset {b : Block} (h : b.data ≠ []) : b.offset < b.endOffset :=
  Nat.lt_add_of_pos_right (length_pos_iff.mpr h)

/-- The first block is taken away when it is stored. -/
theorem cached_flush {processed : Nat} {n : Block} (h : Cached P n.offset processed size (n :: ys)) :
    Cached P n.endOffset processed (size - n.data.length) ys := by
  obtain ⟨hsort, hne, hunw, hwit, hrdy, hwai, hcov, hsize, hbou⟩ := h
  simp only [pairwise_cons, forall_mem_cons] at hsort hne hunw hwit hrdy hwai
  refine ⟨hsort.2, hne.2, hsort.1, hwit.2, hrdy.2, hwai.2, ?_, ?_, by omega⟩
  · intro x hx hlt
    have hpos := offset_lt_endOffset hne.1
    obtain ⟨b, hb, hbx⟩ := hcov x (by omega) hlt
    rw [mem_cons] at hb
    obtain rfl | hb := hb
    · omega
    · exact ⟨b, hb, hbx⟩
  · rw [hsize, map_cons, sum_cons, Nat.add_sub_cancel_left]

/-- A block is put between the others. It is either the next to be processed, which
has been done, or it lies above. -/
theorem cached_insert {processed processed' : Nat} {b : Block}
    (h : Cached P wr processed size (xs ++ ys)) (hne : b.data ≠ [])
    (hxs : ∀ x ∈ xs, x.endOffset ≤ b.offset) (hys : ∀ y ∈ ys, b.endOffset ≤ y.offset)
    (hwr : wr ≤ b.offset) (hend : b.endOffset ≤ P.limit)
    (hcase : (b.offset = processed ∧ processed' = b.endOffset ∧
        b.data = slice P.target b.offset b.data.length) ∨
      (processed < b.offset ∧ processed' = processed ∧ b.data = slice P.plain b.offset b.data.length))
    (hbou : size + b.data.length ≤ bufferMaximumSize) :
    Cached P wr processed' (size + b.data.length) (xs ++ b :: ys) := by
  obtain ⟨hsort, hnon, hunw, hwit, hrdy, hwai, hcov, hsize, _⟩ := h
  have hpos := offset_lt_endOffset hne
  have hsides : ∀ y ∈ xs ++ ys, y.offset < b.offset ∧ y ∈ xs ∨ b.endOffset ≤ y.offset := by
    intro y hy
    cases mem_append.mp hy with
    | inl hy' =>
      have hle := hxs y hy'
      have hpos' := offset_lt_endOffset (hnon y hy)
      exact .inl ⟨by omega, hy'⟩
    | inr hy' => exact .inr (hys y hy')
  have hmem : ∀ y, y ∈ xs ++ b :: ys ↔ y = b ∨ y ∈ xs ++ ys := by
    intro y
    simp only [mem_append, mem_cons]
    tauto
  have hall : ∀ q : Block → Prop, q b → (∀ y ∈ xs ++ ys, q y) → ∀ y ∈ xs ++ b :: ys, q y := by
    intro q hb hold y hy
    obtain rfl | hy := (hmem y).mp hy
    · exact hb
    · exact hold y hy
  refine ⟨?_, hall _ hne hnon, hall _ hwr hunw, hall _ hend hwit, ?_, ?_, ?_, ?_, hbou⟩
  · rw [pairwise_append] at hsort ⊢
    refine ⟨hsort.1, pairwise_cons.mpr ⟨hys, hsort.2.1⟩, ?_⟩
    intro x hx y hy
    cases mem_cons.mp hy with
    | inl h' => rw [h']; exact hxs x hx
    | inr h' => exact hsort.2.2 x hx y h'
  · intro y hy hlt
    obtain rfl | hy := (hmem y).mp hy
    · obtain ⟨_, hnew, hdata⟩ | ⟨hab, hnew, _⟩ := hcase
      · exact ⟨by omega, hdata⟩
      · omega
    have hside := hsides y hy
    have hold := hrdy y hy (by omega)
    exact ⟨by omega, hold.2⟩
  · intro y hy hle
    obtain rfl | hy := (hmem y).mp hy
    · obtain ⟨_, hnew, _⟩ | ⟨_, _, hdata⟩ := hcase
      · omega
      · exact hdata
    · exact hwai y hy (by omega)
  · intro x hx hlt
    by_cases hold : x < processed
    · obtain ⟨y, hy, hyx⟩ := hcov x hx hold
      exact ⟨y, (hmem y).mpr (.inr hy), hyx⟩
    · exact ⟨b, (hmem b).mpr (.inl rfl), by omega, by omega⟩
  simp only [map_append, map_cons, sum_append, sum_cons] at hsize ⊢
  omega

/-- A block that was not processed may be left out. -/
theorem cached_remove {n : Block} (h : Cached P wr n.offset size (xs ++ n :: ys)) :
    Cached P wr n.offset (size - n.data.length) (xs ++ ys) := by
  have hsub : xs ++ ys <+ xs ++ n :: ys := (sublist_cons_self n ys).append_left xs
  refine ⟨h.sorted.sublist hsub, fun b hb => h.nonempty b (hsub.mem hb),
    fun b hb => h.unwritten b (hsub.mem hb), fun b hb => h.within b (hsub.mem hb),
    fun b hb => h.ready b (hsub.mem hb), fun b hb => h.waiting b (hsub.mem hb), ?_, ?_,
    (Nat.sub_le _ _).trans h.bounded⟩
  · intro x hx hlt
    obtain ⟨b, hb, hle, hend⟩ := h.covered x hx hlt
    have hne : b ≠ n := by
      rintro rfl
      omega
    exact ⟨b, by simpa [hne] using hb, hle, hend⟩
  rw [h.size_eq]
  simp only [map_append, map_cons, sum_append, sum_cons]
  omega

/-- A block whose turn has come is processed in its place. -/
theorem cached_prepare {n : Block} (h : Cached P wr n.offset size (xs ++ n :: ys))
    (hlen : data.length = n.data.length) (hdata : data = slice P.target n.offset data.length) :
    Cached P wr n.endOffset size (xs ++ ⟨n.offset, data⟩ :: ys) := by
  have hmem : n ∈ xs ++ n :: ys := by simp
  have hend : (⟨n.offset, data⟩ : Block).endOffset = n.endOffset := by
    rw [Block.endOffset, Block.endOffset, hlen]
  have hne : data ≠ [] := by
    rw [← length_pos_iff, hlen, length_pos_iff]
    exact h.nonempty n hmem
  have hsize : size - n.data.length + data.length = size := by
    rw [h.size_eq, hlen]
    simp only [map_append, map_cons, sum_append, sum_cons]
    omega
  obtain ⟨-, hys, hxs⟩ := pairwise_append.mp h.sorted
  have hins := cached_insert (b := ⟨n.offset, data⟩) (cached_remove h) hne
    (fun x hx => hxs x hx n mem_cons_self) (hend ▸ (pairwise_cons.mp hys).1)
    (h.unwritten n hmem) (hend ▸ h.within n hmem) (.inl ⟨rfl, hend.symm, hdata⟩)
    (hsize.le.trans h.bounded)
  rw [hsize] at hins
  exact hins

/-- With nothing between the two offsets, both go on together. -/
theorem cached_advance (h : Cached P wr wr size blocks) (hle : wr ≤ wr')
    (hblo : ∀ b ∈ blocks, wr' ≤ b.offset) : Cached P wr' wr' size blocks :=
  { h with
    unwritten := hblo
    ready := fun b hb hlt => absurd hlt (Nat.not_lt.mpr (hblo b hb))
    waiting := fun b hb _ => h.waiting b hb (le_trans hle (hblo b hb))
    covered := fun _ hx hlt => absurd hlt (Nat.not_lt.mpr hx) }

/-! ## One pass of the loop -/

/-- What holds at the start of every pass. `goal` is the end of the incoming data, if
these begin at `fileOffset`. -/
structure Going (env : Env) (P : Plan) (shouldWrite : Bool) (goal : Option Nat) (c : Cursor) :
    Prop where
  streaming : Streaming env P c.w
  cached : Cached P c.w.writtenOffset c.w.fileOffset c.w.bufferSize (c.before ++ c.after)
  passed : ∀ b ∈ c.before, b.endOffset ≤ max c.lastOffset c.offset
  ahead : ∀ b ∈ c.after, c.lastOffset ≤ b.offset
  reached : c.w.writtenOffset ≤ max c.lastOffset c.offset
  incoming : c.data = slice P.plain c.offset c.data.length
  inside : c.offset + c.data.length ≤ P.limit
  writing : shouldWrite = true → ∀ b ∈ c.before, c.w.writtenOffset < b.offset
  caching : shouldWrite = false → c.w.bufferSize + c.data.length < bufferMaximumSize
  sequential : ∀ e ∈ goal, c.offset ≤ c.w.fileOffset ∧ c.lastOffset ≤ c.w.fileOffset ∧
    c.offset + c.data.length = e

/-- What holds at the end of the loop. -/
structure Done (env : Env) (P : Plan) (goal : Option Nat) (w : Write) (blocks : List Block) :
    Prop where
  streaming : Streaming env P w
  cached : Cached P w.writtenOffset w.fileOffset w.bufferSize blocks
  reached : ∀ e ∈ goal, e ≤ w.fileOffset

def Good (env : Env) (P : Plan) (shouldWrite : Bool) (goal : Option Nat) : Pass → Prop
  | .again c => Going env P shouldWrite goal c
  | .stop ok c => ok = true ∧ Done env P goal c.w (c.before ++ c.after)

section Going

variable (h : Going env P sw goal c)

include h

theorem prepareNext_going : ∃ c', prepareNext env c = some c' ∧ Going env P sw goal c' ∧
      ∀ n ∈ c'.after.head?, n.offset ≠ c'.w.fileOffset := by
  cases c with
  | mk w pre after offset data lastOffset =>
  cases after with
  | nil => exact ⟨_, rfl, h, by simp⟩
  | cons n rest =>
    by_cases hturn : n.offset = w.fileOffset
    · have hmem : n ∈ pre ++ n :: rest := by simp
      have hcch := h.cached
      have hne := hcch.nonempty n hmem
      have hdata := hcch.waiting n hmem (le_of_eq hturn.symm)
      have hend := hcch.within n hmem
      have hpos := offset_lt_endOffset hne
      rw [Block.endOffset] at hend hpos
      rw [hturn] at hdata hend
      have hlen := slice_target_length hend
      have hprep : prepareNext env ⟨w, pre, n :: rest, offset, data, lastOffset⟩ =
          some ⟨processed w (slice P.target w.fileOffset n.data.length), pre,
            ⟨n.offset, slice P.target w.fileOffset n.data.length⟩ :: rest, offset, data,
            lastOffset⟩ := by
        rw [prepareNext]
        simp only [if_pos hturn, prepareData_next h.streaming hne hdata hend]
      refine ⟨_, hprep, ⟨streaming_processed h.streaming hend, ?_, h.passed, ?_, h.reached,
        h.incoming, h.inside, h.writing, h.caching, ?_⟩, ?_⟩
      · rw [← hturn] at hcch hlen
        have hnext := cached_prepare hcch hlen (by rw [hlen])
        simp only [processed, ← hturn, hlen]
        exact hnext
      · exact forall_mem_cons.mpr (forall_mem_cons.mp h.ahead)
      · intro e he
        obtain ⟨hoff, hlast, hgoal⟩ := h.sequential e he
        exact ⟨le_trans hoff (Nat.le_add_right _ _), le_trans hlast (Nat.le_add_right _ _), hgoal⟩
      intro n' hn'
      cases hn'
      simp only [processed, hlen]
      omega
    refine ⟨_, ?_, h, ?_⟩
    · rw [prepareNext]
      simp only [if_neg hturn]
    intro n' hn'
    cases hn'
    exact hturn

omit h in
/-- Behind the passed blocks nothing starts where the stored bytes end. -/
theorem before_nil (h : Going env P true goal c) (hlast : ∀ b ∈ c.before, b.endOffset ≤ c.w.writtenOffset) :
    c.before = [] := by
  cases hbef : c.before with
  | nil => rfl
  | cons b rest =>
    have hmem : b ∈ c.before := by rw [hbef]; exact mem_cons_self ..
    have hwrt := h.writing rfl b hmem
    have hle := hlast b hmem
    have hpos := offset_lt_endOffset (h.cached.nonempty b (mem_append_left _ hmem))
    omega

theorem flushNext_going (hhead : ∀ n ∈ c.after.head?, n.offset ≠ c.w.fileOffset) :
    (∃ c', flushNext env sw c = some (.again c') ∧ Going env P sw goal c') ∨ (flushNext env sw c = none ∧
        (sw = true → ∀ n ∈ c.after.head?, n.offset ≠ c.w.writtenOffset)) := by
  cases c with
  | mk w pre after offset data lastOffset =>
  cases after with
  | nil => exact .inr ⟨rfl, by simp⟩
  | cons n rest =>
    by_cases hturn : sw = true ∧ n.offset = w.writtenOffset
    · left
      obtain ⟨hsw, hturn⟩ := hturn
      subst hsw
      have hmem : n ∈ pre ++ n :: rest := by simp
      have hcch := h.cached
      have hne := hcch.nonempty n hmem
      have hle := h.streaming.written_le
      have hlt : n.offset < w.fileOffset :=
        lt_of_le_of_ne (hturn ▸ hle) (hhead n rfl)
      obtain ⟨hend, hdata⟩ := hcch.ready n hmem hlt
      have hnil : pre = [] := by
        apply before_nil h
        intro b hb
        rw [← hturn]
        exact (pairwise_append.mp hcch.sorted).2.2 b hb n mem_cons_self
      subst hnil
      rw [Block.endOffset] at hend
      rw [hturn] at hdata hend
      obtain ⟨fd, row, sql, hwr, hstr⟩ := streaming_written h.streaming hne hdata hend
      rw [← hturn] at hcch
      have hflu := cached_flush hcch
      have hstep : flushNext env true ⟨w, [], n :: rest, offset, data, lastOffset⟩ =
          some (.again ⟨{ written w fd row sql n.data.length with
            bufferSize := w.bufferSize - n.data.length }, [], rest, offset, data,
            w.writtenOffset + n.data.length⟩) := by
        rw [flushNext]
        simp only [hturn, and_self, if_true, hwr]
        rfl
      refine ⟨_, hstep, ⟨streaming_bufferSize hstr, ?_, by simp, ?_, ?_, h.incoming,
        h.inside, by simp, by simp, ?_⟩⟩
      · simp only [written, ← hturn, nil_append]
        exact hflu
      · intro b hb
        simp only [← hturn]
        exact hflu.unwritten b hb
      · simp only [written]
        omega
      intro e he
      obtain ⟨hoff, hlast, hgoal⟩ := h.sequential e he
      exact ⟨hoff, hend, hgoal⟩
    right
    refine ⟨?_, ?_⟩
    · rw [flushNext]
      simp only [if_neg hturn]
    intro hsw n' hn' heq
    cases hn'
    exact hturn ⟨hsw, heq⟩

theorem skipReceived_going : (skipReceived c = none ∧ ∀ e ∈ goal, e ≤ c.w.fileOffset) ∨
      ∃ offset data, skipReceived c = some { c with offset := offset, data := data } ∧
        Going env P sw goal { c with offset := offset, data := data } ∧ c.lastOffset ≤ offset := by
  rw [skipReceived]
  by_cases hlt : c.offset < c.lastOffset
  · rw [if_pos hlt]
    by_cases hall : c.lastOffset - c.offset ≥ c.data.length
    · left
      rw [if_pos hall]
      refine ⟨rfl, ?_⟩
      intro e he
      obtain ⟨hoff, hlast, hgoal⟩ := h.sequential e he
      omega
    right
    rw [if_neg hall]
    have hsum : c.offset + (c.lastOffset - c.offset) = c.lastOffset := by omega
    refine ⟨_, _, rfl, ⟨h.streaming, h.cached, ?_, h.ahead, ?_, ?_, ?_, h.writing, ?_, ?_⟩, ?_⟩
    · intro b hb
      have hpas := h.passed b hb
      simp only
      omega
    · have hrea := h.reached
      simp only
      omega
    · simp only [length_drop]
      rw [h.incoming, drop_slice, ← h.incoming]
    · have hins := h.inside
      simp only [length_drop]
      omega
    · intro hsw
      have hcac := h.caching hsw
      simp only [length_drop]
      omega
    · intro e he
      obtain ⟨hoff, hlast, hgoal⟩ := h.sequential e he
      simp only [length_drop]
      omega
    · omega
  right
  rw [if_neg hlt]
  exact ⟨c.offset, c.data, rfl, h, Nat.le_of_not_lt hlt⟩

theorem moveOn_going {n : Block} (haft : c.after = n :: rest) (hlast : c.lastOffset ≤ c.offset)
    (hle : n.offset ≤ c.offset) (hhead : n.offset ≠ c.w.fileOffset)
    (hwr : sw = true → n.offset ≠ c.w.writtenOffset) :
    Going env P sw goal { c with
      before := c.before ++ [n], after := rest, lastOffset := n.offset + n.data.length } := by
  have hblo : c.before ++ [n] ++ rest = c.before ++ c.after := by simp [haft]
  have hmem : n ∈ c.before ++ c.after := by simp [haft]
  have hsort := h.cached.sorted
  rw [haft, pairwise_append, pairwise_cons] at hsort
  refine ⟨h.streaming, ?_, ?_, ?_, ?_, h.incoming, h.inside, ?_, h.caching, ?_⟩
  · simp only [hblo]
    exact h.cached
  · refine forall_mem_append.mpr ⟨fun b hb => ?_, by simp [Block.endOffset]⟩
    have hpas := h.passed b hb
    simp only
    omega
  · exact hsort.2.1.1
  · have hrea := h.reached
    simp only
    omega
  · refine fun hsw => forall_mem_append.mpr ⟨h.writing hsw, ?_⟩
    simpa using lt_of_le_of_ne (h.cached.unwritten n hmem) (Ne.symm (hwr hsw))
  intro e he
  obtain ⟨hoff, hlast', hgoal⟩ := h.sequential e he
  have hrdy := h.cached.ready n hmem (lt_of_le_of_ne (le_trans hle hoff) hhead)
  exact ⟨hoff, hrdy.1, hgoal⟩

/-- The first block ahead is the lowest. -/
theorem offset_le_after (hhead : ∀ b ∈ c.after.head?, n ≤ b.offset) : ∀ b ∈ c.after, n ≤ b.offset := by
  have hsort := (pairwise_append.mp h.cached.sorted).2.1
  intro b hb
  cases haft : c.after with
  | nil =>
    rw [haft] at hb
    cases hb
  | cons m rest =>
    have hm := hhead m (by rw [haft]; rfl)
    rw [haft] at hb hsort
    cases mem_cons.mp hb with
    | inl hb' => rw [hb']; exact hm
    | inr hb' =>
      have hle := (pairwise_cons.mp hsort).1 b hb'
      rw [Block.endOffset] at hle
      omega

/-- New data never lie below the bytes that were processed. -/
theorem fileOffset_le_offset (hlast : c.lastOffset ≤ c.offset)
    (haft : ∀ b ∈ c.after.head?, c.offset < b.offset) : c.w.fileOffset ≤ c.offset := by
  by_contra hlt
  have hrea := h.reached
  obtain ⟨b, hb, hle, hend⟩ := h.cached.covered c.offset (by omega) (by omega)
  cases mem_append.mp hb with
  | inl hb' =>
    have hpas := h.passed b hb'
    omega
  | inr hb' =>
    have hab := offset_le_after h haft b hb'
    omega

omit h in
/-- When blocks are written and none could be, all that was processed is stored. -/
theorem writtenOffset_eq_fileOffset (h : Going env P true goal c)
    (hhead : ∀ n ∈ c.after.head?, n.offset ≠ c.w.writtenOffset) :
    c.w.writtenOffset = c.w.fileOffset := by
  apply le_antisymm h.streaming.written_le
  by_contra hlt
  obtain ⟨b, hb, hle, hend⟩ := h.cached.covered c.w.writtenOffset le_rfl (by omega)
  have hunw := h.cached.unwritten
  cases mem_append.mp hb with
  | inl hb' =>
    have hwrt := h.writing rfl b hb'
    omega
  | inr hb' =>
    have hab : ∀ n ∈ c.after.head?, c.w.writtenOffset + 1 ≤ n.offset := by
      intro n hn
      have hmem := mem_append_right c.before (mem_of_mem_head? hn)
      exact lt_of_le_of_ne (hunw n hmem) (Ne.symm (hhead n hn))
    have hb'' := offset_le_after h hab b hb'
    omega

theorem pieceSize_le_after : ∀ b ∈ c.after, c.offset < b.offset → c.offset + pieceSize c ≤ b.offset := by
  intro b hb hlt
  cases haft : c.after with
  | nil =>
    rw [haft] at hb
    cases hb
  | cons n rest =>
    have hle : n.offset ≤ b.offset := offset_le_after h (by simp [haft]) b hb
    rw [pieceSize, haft]
    simp only
    omega

theorem incoming_take (hn : n ≤ c.data.length) : c.data.take n = slice P.plain c.offset n := by
  rw [h.incoming, take_slice _ _ _ _ hn]

theorem incoming_drop : c.data.drop n = slice P.plain (c.offset + n) (c.data.drop n).length := by
  rw [length_drop, ← drop_slice, ← h.incoming]

omit h in
/-- A piece that was written at the end of the stored bytes. -/
theorem going_written (h : Going env P true goal c) (hlast : c.lastOffset ≤ c.offset)
    (hwr : c.w.writtenOffset = c.offset) (hproc : c.w.fileOffset = c.offset)
    (hn : n ≤ c.data.length) (haft : ∀ b ∈ c.after, c.offset + n ≤ b.offset)
    (hstr : Streaming env P w) (hwr' : w.writtenOffset = c.offset + n)
    (hproc' : w.fileOffset = c.offset + n) (hsize : w.bufferSize = c.w.bufferSize) :
    Going env P true goal { c with w := w, offset := c.offset + n, data := c.data.drop n } := by
  have hnil : c.before = [] := by
    apply before_nil h
    intro b hb
    have hpas := h.passed b hb
    omega
  have hcch := h.cached
  have hins := h.inside
  rw [hwr, hproc, hnil] at hcch
  refine ⟨hstr, ?_, ?_, h.ahead, ?_, incoming_drop h, ?_, ?_, by simp, ?_⟩
  · simp only [hwr', hproc', hsize, hnil]
    exact cached_advance hcch (Nat.le_add_right _ _) (by simpa using haft)
  · simp [hnil]
  · simp only [hwr']
    omega
  · simp only [length_drop]
    omega
  · simp [hnil]
  intro e he
  obtain ⟨hoff, hlast', hgoal⟩ := h.sequential e he
  simp only [hproc', length_drop]
  omega

section Inserting

variable (hlast : c.lastOffset ≤ c.offset)

include hlast

/-- A piece that was cached. -/
theorem going_cached (hne : pc ≠ []) (hle : pc.length ≤ c.data.length)
    (haft : ∀ b ∈ c.after, c.offset + pc.length ≤ b.offset) (hstr : Streaming env P w)
    (hwr : w.writtenOffset = c.w.writtenOffset) (hsize : w.bufferSize = c.w.bufferSize)
    (hroom : c.w.bufferSize + pc.length ≤ bufferMaximumSize)
    (hcase : (c.offset = c.w.fileOffset ∧ w.fileOffset = c.offset + pc.length ∧
        pc = slice P.target c.offset pc.length) ∨
      (c.w.fileOffset < c.offset ∧ w.fileOffset = c.w.fileOffset ∧
        pc = slice P.plain c.offset pc.length))
    (hwrt : sw = true → c.w.writtenOffset < c.offset) :
    Going env P sw goal { c with
      w := { w with bufferSize := w.bufferSize + pc.length }
      before := c.before ++ [⟨c.offset, pc⟩]
      offset := c.offset + pc.length
      data := c.data.drop pc.length } := by
  have hrea := h.reached
  have hins := h.inside
  have hpas : ∀ b ∈ c.before, b.endOffset ≤ c.offset := by
    intro b hb
    have hle := h.passed b hb
    omega
  have hcch : Cached P c.w.writtenOffset w.fileOffset (c.w.bufferSize + pc.length)
      (c.before ++ ⟨c.offset, pc⟩ :: c.after) := by
    apply cached_insert (b := ⟨c.offset, pc⟩) h.cached hne hpas haft
    · simp only
      omega
    · exact le_trans (Nat.add_le_add_left hle _) hins
    · exact hcase
    · exact hroom
  refine ⟨streaming_bufferSize hstr, ?_, ?_, h.ahead, ?_, incoming_drop h, ?_, ?_, ?_, ?_⟩
  · simp only [hwr, hsize, append_assoc, singleton_append]
    exact hcch
  · refine forall_mem_append.mpr ⟨fun b hb => ?_, by simp [Block.endOffset]⟩
    exact le_trans (hpas b hb) (le_trans (Nat.le_add_right _ _) (le_max_right _ _))
  · simp only [hwr]
    omega
  · simp only [length_drop]
    omega
  · intro hsw
    simp only [hwr]
    exact forall_mem_append.mpr ⟨h.writing hsw, by simpa using hwrt hsw⟩
  · intro hsw
    have hcac := h.caching hsw
    simp only [length_drop, hsize]
    omega
  intro e he
  obtain ⟨hoff, hlast', hend⟩ := h.sequential e he
  simp only [length_drop]
  omega

/-- The piece that comes next is encrypted and, if blocks are written, stored. -/
theorem insertPiece_next (hpos : 0 < pieceSize c)
    (haft : ∀ b ∈ c.after, c.offset + pieceSize c ≤ b.offset) (hturn : c.offset = c.w.fileOffset)
    (hhead : sw = true → c.w.writtenOffset = c.w.fileOffset) :
    Good env P sw goal (insertPiece env sw c) := by
  have hsize := pieceSize_le c
  have hins := h.inside
  have hend : c.w.fileOffset + pieceSize c ≤ P.limit := by omega
  have hlen := slice_target_length hend
  have hne : slice P.target c.w.fileOffset (pieceSize c) ≠ [] := by
    rw [← length_pos_iff]
    omega
  have hstr := streaming_processed h.streaming hend
  have hprep : preparePiece env c = some (processed c.w (slice P.target c.w.fileOffset (pieceSize c)),
        slice P.target c.w.fileOffset (pieceSize c)) := by
    have htake : (c.data.take (pieceSize c)).length = pieceSize c := by simp [hsize]
    have hpre := prepareData_next h.streaming (length_pos_iff.mp (htake ▸ hpos))
      (by rw [htake, ← hturn, incoming_take h hsize]) (by rw [htake]; exact hend)
    rw [htake] at hpre
    rw [preparePiece, if_pos hturn, hpre]
  rw [insertPiece, hprep]
  simp only
  cases sw with
  | true =>
    have hwri := hhead rfl
    have hcond : c.offset = (processed c.w (slice P.target c.w.fileOffset (pieceSize c))).writtenOffset :=
      hturn.trans hwri.symm
    obtain ⟨fd, row, sql, hwr, hstr'⟩ := streaming_written hstr hne
      (by rw [hlen]; simp only [processed, hwri])
      (by simp [processed, hwri, hlen])
    rw [if_pos ⟨rfl, hcond⟩, hcond, hwr]
    rw [← hcond]
    have hwr' : c.w.writtenOffset = c.offset := hwri.trans hturn.symm
    apply going_written h hlast hwr' hturn.symm hsize haft hstr'
    · simp only [written, processed, hlen, hwr']
    · simp only [written, processed, hlen, hturn]
    · rfl
  | false =>
    have hcac := h.caching rfl
    have hmin : min (pieceSize c) (bufferMaximumSize - c.w.bufferSize) = pieceSize c := by omega
    have hdrop : (slice P.target c.w.fileOffset (pieceSize c) ++ c.data.drop (pieceSize c)).drop
        (pieceSize c) = c.data.drop (pieceSize c) := drop_left' hlen
    have hwh : (slice P.target c.w.fileOffset (pieceSize c)).take (pieceSize c) =
        slice P.target c.w.fileOffset (pieceSize c) := take_of_length_le (by omega)
    have hcch := going_cached h hlast hne (by omega) (by rw [hlen]; exact haft) hstr rfl
      rfl (by omega)
      (.inl ⟨hturn, by simp only [processed, hturn], by rw [hlen, hturn]⟩) (by simp)
    rw [hlen] at hcch
    simp only [processed, hmin, hdrop, hwh, if_neg (ne_of_gt hpos)] at hcch ⊢
    exact hcch

/-- A piece above those that were processed is cached as far as there is room. -/
theorem insertPiece_above (haft : ∀ b ∈ c.after, c.offset + pieceSize c ≤ b.offset)
    (hab : c.w.fileOffset < c.offset) : Good env P sw goal (insertPiece env sw c) := by
  have hsize := pieceSize_le c
  have hwr := h.streaming.written_le
  have hprep : preparePiece env c = some (c.w, c.data.take (pieceSize c)) := by
    rw [preparePiece, if_neg (ne_of_gt hab)]
  rw [insertPiece, hprep]
  simp only
  rw [if_neg (by omega), take_append_drop, take_take]
  generalize hroom : min (pieceSize c) (bufferMaximumSize - c.w.bufferSize) = size
  rw [min_eq_left (by omega)]
  by_cases hfull : size = 0
  · rw [if_pos hfull]
    refine ⟨rfl, h.streaming, h.cached, ?_⟩
    intro e he
    have hoff := (h.sequential e he).1
    omega
  rw [if_neg hfull]
  have hlen : (c.data.take size).length = size := by
    rw [length_take]
    omega
  have hne : c.data.take size ≠ [] := length_pos_iff.mp (by omega)
  have hfits : ∀ b ∈ c.after, c.offset + (c.data.take size).length ≤ b.offset := by
    intro b hb
    have hle := haft b hb
    omega
  have hcch := going_cached h hlast hne (by omega) hfits h.streaming rfl rfl (by omega)
    (.inr ⟨hab, rfl, by rw [hlen, incoming_take h (by omega)]⟩) (by omega)
  rw [hlen] at hcch
  exact hcch

theorem insertPiece_good (hdata : c.data ≠ []) (haft : ∀ n ∈ c.after.head?, c.offset < n.offset)
    (hhead : sw = true → ∀ n ∈ c.after.head?, n.offset ≠ c.w.writtenOffset) :
    Good env P sw goal (insertPiece env sw c) := by
  have hfits : ∀ b ∈ c.after, c.offset + pieceSize c ≤ b.offset := by
    intro b hb
    exact pieceSize_le_after h b hb (offset_le_after h haft b hb)
  obtain heq | hlt := Nat.eq_or_lt_of_le (fileOffset_le_offset h hlast haft)
  · apply insertPiece_next h hlast (pieceSize_pos hdata haft) hfits heq.symm
    intro hsw
    subst hsw
    exact writtenOffset_eq_fileOffset h (hhead rfl)
  · exact insertPiece_above h hlast hfits hlt

end Inserting

/-- One pass keeps what holds at its start. -/
theorem pass_good : Good env P sw goal (pass env sw c) := by
  obtain ⟨c1, hprep, h1, hhead⟩ := prepareNext_going h
  rw [RhizomeWrite.pass, hprep]
  simp only
  obtain ⟨c2, hflu, h2⟩ | ⟨hflu, hwr⟩ := flushNext_going h1 hhead
  · rw [hflu]
    exact h2
  rw [hflu]
  obtain ⟨hskip, hgoal⟩ | ⟨offset, data, hskip, h2, hlast⟩ := skipReceived_going h1
  · rw [hskip]
    exact ⟨rfl, h1.streaming, h1.cached, hgoal⟩
  rw [hskip]
  simp only
  by_cases hdata : data = []
  · rw [if_pos hdata]
    refine ⟨rfl, h2.streaming, h2.cached, ?_⟩
    intro e he
    have hoff : offset ≤ c1.w.fileOffset := (h2.sequential e he).1
    have hend : offset + data.length = e := (h2.sequential e he).2.2
    rw [hdata] at hend
    exact hend ▸ hoff
  rw [if_neg hdata]
  split
  · next haft => exact insertPiece_good h2 hlast hdata (by simp [haft]) hwr
  next n rest haft =>
  have hn : n ∈ c1.after.head? := by rw [haft]; rfl
  by_cases hlt : offset < n.offset
  · rw [if_pos hlt]
    exact insertPiece_good h2 hlast hdata (by simp [haft, hlt]) hwr
  rw [if_neg hlt]
  exact moveOn_going h2 haft hlast (Nat.le_of_not_lt hlt) (hhead n hn) (fun hsw => hwr hsw n hn)

/-! ## Whole calls -/

/-- The loop ends well. -/
theorem writeLoop_done : (writeLoop env sw c).1 = true ∧ Done env P goal (writeLoop env sw c).2.w
      ((writeLoop env sw c).2.before ++ (writeLoop env sw c).2.after) := by
  fun_induction writeLoop with
  | case1 c ok c' hpass =>
    have hgood := pass_good h
    rwa [hpass] at hgood
  | case2 c c' hpass ih =>
    have hgood := pass_good h
    rw [hpass] at hgood
    exact ih hgood

end Going

/-- A payload that is being written, between two calls. -/
structure Writing (env : Env) (P : Plan) (w : Write) : Prop where
  streaming : Streaming env P w
  cached : Cached P w.writtenOffset w.fileOffset w.bufferSize w.bufferList

theorem writing_of_done (h : Done env P goal w bks) :
    Writing env P (writeReleaseLock { w with bufferList := bks }) := by
  exact ⟨{ h.streaming with
    stored := { h.streaming.stored with locked := by simp [writeReleaseLock] } }, h.cached⟩

/-- The settings may change between two calls. -/
theorem writing_setKey (h : Writing env P w) (hpln : Q.plain = P.plain)
    (htgt : Q.target = P.target) (hlim : P.limit ≤ Q.limit) (crypt : Bool) (tail : Nat)
    (key nc : List UInt8) (hcip : (setKey w crypt tail key nc).cipher = Q.cipher)
    (henc : ∀ a n, w.fileOffset ≤ a → a + n ≤ Q.limit →
      encipher env (setKey w crypt tail key nc) a (slice Q.plain a n) = slice Q.target a n) :
    Writing env Q (setKey w crypt tail key nc) := by
  obtain ⟨plain, target, limit, cipher, _, _⟩ := Q
  subst hpln htgt
  have hproc := le_trans h.streaming.processed_le hlim
  exact ⟨{ h.streaming with
      processed_le := hproc
      stored := { h.streaming.stored with }
      cipher := hcip
      enciphers := henc },
    { h.cached with within := fun b hb => le_trans (h.cached.within b hb) hlim }⟩

theorem shouldWrite_false (h : shouldWrite env w buf size = false) :
    w.bufferSize + size < bufferMaximumSize := by
  simp only [shouldWrite, Bool.or_eq_false_iff, decide_eq_false_iff_not] at h
  omega

/-- One call with a part of the payload. -/
theorem randomWrite_writing (h : Writing env P w) (offset : Nat) (buf : Option (List UInt8))
    (goal : Option Nat) (hdata : clip w offset (buf.getD []) =
      slice P.plain offset (clip w offset (buf.getD [])).length)
    (hins : offset < P.target.length → offset + (clip w offset (buf.getD [])).length ≤ P.limit)
    (hgoal : ∀ e ∈ goal, offset ≤ w.fileOffset ∧ offset + (clip w offset (buf.getD [])).length = e) :
    (randomWrite env w offset buf).1 = true ∧ Writing env P (randomWrite env w offset buf).2 ∧
      ∀ e ∈ goal, e ≤ (randomWrite env w offset buf).2.fileOffset := by
  have hlen := h.streaming.length
  rw [randomWrite]
  by_cases hpast : w.fileLength.any (fun length => offset ≥ length) = true
  · rw [if_pos hpast]
    refine ⟨rfl, h, ?_⟩
    intro e he
    obtain ⟨hoff, hend⟩ := hgoal e he
    rw [hlen, any_some, decide_eq_true_iff] at hpast
    rw [clip, hlen] at hend
    simp only [length_take] at hend ⊢
    omega
  rw [if_neg hpast]
  rw [hlen, any_some, decide_eq_true_iff] at hpast
  generalize clip w offset (buf.getD []) = data at hdata hins hgoal ⊢
  have hgoing : Going env P (shouldWrite env w buf data.length) goal
      ⟨w, [], w.bufferList, offset, data, w.writtenOffset⟩ := by
    refine ⟨h.streaming, h.cached, by simp, h.cached.unwritten, ?_, hdata, hins (by omega),
      by simp, shouldWrite_false, ?_⟩
    · exact le_max_left _ _
    intro e he
    exact ⟨(hgoal e he).1, h.streaming.written_le, (hgoal e he).2⟩
  obtain ⟨hok, hdone⟩ := writeLoop_done hgoing
  exact ⟨hok, writing_of_done hdone, hdone.reached⟩

/-! ## Opening and finishing -/

/-- A payload that was opened and that nothing was written to. -/
structure Fresh (w : Write) (length : Nat) : Prop where
  length : w.fileLength = some length
  processed : w.fileOffset = 0
  written : w.writtenOffset = 0
  blocks : w.bufferList = []
  size : w.bufferSize = 0
  hashed : w.hashed = []
  file : w.blobFd = none
  row : w.blobRow = none
  unlocked : w.sqlBlob = false

def rawCipher : Bool × Nat × List UInt8 × List UInt8 := (false, 0, [], [])

theorem openWrite_new {hash : Option RhizomeManifest.Filehash}
    (h : openWrite ms store hash (some n) = (.new, w, store')) :
    n ≠ 0 ∧ Fresh w n ∧ w.cipher = rawCipher ∧ ms store n = (.new, store') := by
  rw [openWrite] at h
  split at h
  · cases h
  next hne =>
  split at h
  · cases h
  simp only at h
  split at h
  · next hsp =>
    exact absurd (congrArg Prod.fst h) hsp
  next hsp =>
  rw [ne_eq, not_not] at hsp
  cases h
  exact ⟨fun hzero => hne (congrArg some hzero), by constructor <;> rfl, rfl, Prod.ext hsp rfl⟩

theorem fresh_setKey {length : Nat} (h : Fresh w length) (crypt : Bool) (tail : Nat)
    (key nc : List UInt8) : Fresh (setKey w crypt tail key nc) length :=
  { h with }

theorem writing_fresh (h : Fresh w P.target.length) (hcip : w.cipher = P.cipher)
    (henc : ∀ a n, a + n ≤ P.limit →
      encipher env w a (slice P.plain a n) = slice P.target a n) : Writing env P w := by
  obtain ⟨hlen, hproc, hwr, hblo, hsize, hhas, hfile, hrow, hunl⟩ := h
  refine ⟨⟨hlen, by omega, by omega, by simp [hhas, hproc], ⟨?_, ?_, ?_, ?_, ?_⟩,
    hcip, fun a n _ hle => henc a n hle⟩, ?_⟩
  · simp [hfile]
  · simp [hrow]
  · simp [hwr]
  · simp [hrow]
  · simp [hunl]
  rw [hproc, hwr, hblo, hsize]
  constructor <;> simp

/-- Once no block is cached, all that was processed is stored. -/
theorem stored_all (h : Writing env P w) (hnil : w.bufferList = []) :
    w.writtenOffset = w.fileOffset := by
  apply le_antisymm h.streaming.written_le
  by_contra hlt
  obtain ⟨b, hb, _⟩ := h.cached.covered w.writtenOffset le_rfl (by omega)
  rw [hnil] at hb
  cases hb

theorem payloadBytes_eq (h : Stored env target w) (hlen : w.fileLength = some target.length)
    (hwr : w.writtenOffset = target.length) (hpos : target ≠ []) :
    payloadBytes env w = some target := by
  rw [payloadBytes]
  cases hfd : w.blobFd with
  | some bytes =>
    have hbs := h.file bytes hfd
    rw [hwr, take_length] at hbs
    subst hbs
    simp [hlen, copyFileToBlob]
  | none =>
    cases hrow : w.blobRow with
    | some bytes =>
      have hbs := h.row hfd bytes hrow
      rw [hwr] at hbs
      simp [hbs]
    | none =>
      have hzero := h.nothing hfd hrow
      rw [hwr] at hzero
      exact absurd (length_eq_zero_iff.mp hzero) hpos

theorem flushBuffers_writing (h : Writing env P w) :
    (flushBuffers env w).1 = true ∧ Writing env P (flushBuffers env w).2 := by
  rw [flushBuffers]
  by_cases hnil : w.bufferList = []
  · rw [if_pos hnil]
    exact ⟨rfl, h⟩
  rw [if_neg hnil]
  have hclip : clip w 0 ((none : Option (List UInt8)).getD []) = [] := by
    rw [clip, h.streaming.length]
    simp
  obtain ⟨hok, hwrt, _⟩ := randomWrite_writing h 0 none none
    (by rw [hclip]; simp) (by rw [hclip]; simp) (by simp)
  exact ⟨hok, hwrt⟩

/-- A payload that is new in the store has the bytes that were to be stored. -/
theorem finishWrite_new (h : Writing env P w) (hpos : P.target ≠ [])
    (hfin : finishWrite env ms store w = some (.new, w', store')) :
    P.limit = P.target.length ∧ w'.id = env.sha512 P.target ∧ w'.fileLength = some P.target.length ∧
      store' = Function.update store (env.sha512 P.target) (some P.target) := by
  have hset : settleLength ms store w = (.new, w, store) := by
    rw [settleLength, h.streaming.length]
  obtain ⟨hok, hwrt⟩ := flushBuffers_writing h
  rw [finishWrite, hset] at hfin
  simp only [ne_eq, not_true_eq_false, false_and, if_false] at hfin
  generalize flushBuffers env w = r at hok hwrt hfin
  obtain ⟨ok, w1⟩ := r
  have hlen := hwrt.streaming.length
  split at hfin
  · cases hfin
  next hemp =>
  split at hfin
  · cases hfin
  split at hfin
  · cases hfin
  next hoff =>
  rw [not_not, hlen, Option.some.injEq] at hoff
  split at hfin
  · next hzero =>
    rw [hlen, Option.some.injEq] at hzero
    exact absurd (length_eq_zero_iff.mp hzero) hpos
  split at hfin
  · cases hfin
  have hhas : w1.hashed = P.target := by rw [hwrt.streaming.hashed, ← hoff, take_length]
  have hnil : w1.bufferList = [] := by tauto
  have hwr := (stored_all hwrt hnil).trans hoff.symm
  have hbs := payloadBytes_eq hwrt.streaming.stored hlen hwr hpos
  have hbs' : payloadBytes env { w1 with id := env.sha512 w1.hashed } = some P.target :=
    hbs
  have hlim : P.limit = P.target.length :=
    le_antisymm P.limit_le (hoff ▸ hwrt.streaming.processed_le)
  have hsto := Option.some.inj hfin
  rw [storePayload, hbs', hhas] at hsto
  split at hsto <;> cases hsto
  exact ⟨hlim, rfl, hlen, rfl⟩

/-! ## Payloads in random order -/

/-- A buffer that agrees with the payload at its offset, as far as the payload goes. -/
def IsSlice (plain : List UInt8) (offset : Nat) (buffer : Option (List UInt8)) : Prop :=
  ∀ bytes ∈ buffer, bytes.take (plain.length - offset) = slice plain offset bytes.length

instance (plain : List UInt8) (offset : Nat) (buffer : Option (List UInt8)) :
    Decidable (IsSlice plain offset buffer) :=
  inferInstanceAs (Decidable (∀ bytes ∈ buffer, _))

def writeAll (env : Env) (w : Write) : List (Nat × Option (List UInt8)) → Bool × Write
  | [] => (true, w)
  | (offset, buffer) :: rest =>
    let r := randomWrite env w offset buffer
    let r' := writeAll env r.2 rest
    (r.1 && r'.1, r'.2)

/-- What the writer holds between two calls, for the given payload and the form in
which it is to be stored. -/
structure Consistent (env : Env) (plain target : List UInt8) (w : Write) : Prop where
  sorted : w.bufferList.Pairwise (fun a b => a.offset < b.offset ∧ a.endOffset ≤ b.offset)
  size_eq : w.bufferSize = (w.bufferList.map (fun b => b.data.length)).sum
  bounded : w.bufferSize ≤ bufferMaximumSize
  written_le : w.writtenOffset ≤ w.fileOffset
  hashed : w.hashed = target.take w.fileOffset
  stored : Stored env target w
  ready : ∀ b ∈ w.bufferList, b.offset < w.fileOffset →
    b.endOffset ≤ w.fileOffset ∧ b.data = slice target b.offset b.data.length
  waiting : ∀ b ∈ w.bufferList, w.fileOffset ≤ b.offset → b.data = slice plain b.offset b.data.length

def wholePlan (env : Env) (w : Write) (plain : List UInt8) : Plan where
  plain := plain
  target := encipher env w 0 plain
  limit := plain.length
  cipher := w.cipher
  length_eq := (encipher_length env w 0 plain).symm
  limit_le := le_of_eq (encipher_length env w 0 plain).symm

theorem encipher_slice (h : w.crypt = true → w.tail + plain.length ≤ 2 ^ 64) :
    encipher env w a (slice plain a n) = slice (encipher env w 0 plain) a n := by
  cases hcry : w.crypt with
  | false => simp [encipher, hcry]
  | true =>
    have hfits := h hcry
    rw [encipher_eq, encipher_eq, hcry, if_pos rfl, if_pos rfl, slice_xorFrom, zero_add, add_comm]
    · intro hne
      have := length_pos_iff.mpr hne
      omega
    · intro hne
      have := length_pos_iff.mpr hne
      simp only [slice, length_take, length_drop] at this
      omega

theorem consistent_of_writing {plain : List UInt8} (h : Writing env (wholePlan env w0 plain) w) :
    Consistent env plain (encipher env w0 0 plain) w := by
  have hsort := h.cached.sorted.imp_of_mem (fun {a b} ha _ hle =>
    And.intro (lt_of_lt_of_le (offset_lt_endOffset (h.cached.nonempty a ha)) hle) hle)
  exact { h.cached, h.streaming with sorted := hsort }

/-- All writes of pieces of the payload succeed. -/
theorem writeAll_writing (hlim : P.limit = P.target.length) (h : Writing env P w)
    (hcs : ∀ call ∈ cs, IsSlice P.plain call.1 call.2) :
    (writeAll env w cs).1 = true ∧ Writing env P (writeAll env w cs).2 := by
  induction cs generalizing w with
  | nil => exact ⟨rfl, h⟩
  | cons call rest ih =>
    obtain ⟨offset, buf⟩ := call
    have hsli := hcs (offset, buf) mem_cons_self
    have hdata : clip w offset (buf.getD []) =
        slice P.plain offset (clip w offset (buf.getD [])).length := by
      rw [clip, h.streaming.length, ← P.length_eq]
      cases buf with
      | none => simp
      | some bytes =>
        have hbs := hsli bytes rfl
        simp only [getD_some]
        rw [hbs, slice_slice_length]
    have hins : offset < P.target.length →
        offset + (clip w offset (buf.getD [])).length ≤ P.limit := by
      rw [clip, h.streaming.length]
      simp only [length_take]
      omega
    obtain ⟨hok, hwrt, _⟩ := randomWrite_writing h offset buf none hdata hins (by simp)
    obtain ⟨hoks, hwri⟩ := ih hwrt (fun call hcall => hcs call (mem_cons_of_mem _ hcall))
    exact ⟨by rw [writeAll, hok, hoks]; rfl, hwri⟩

def sampleEnv : Env := ⟨fun _ _ i => UInt8.ofNat (i + 1), List.reverse, 128⟩

def sampleCalls : List (Nat × Option (List UInt8)) :=
  [(2, some [30, 40, 99]), (0, some [10, 20, 30])]

/-- A key stream that depends on the ninth byte of the nonce from its end. -/
def nonceEnv : Env := ⟨fun nonce _ i => nonce.getD 15 0 + UInt8.ofNat i, List.reverse, 128⟩

end RandomWrite
