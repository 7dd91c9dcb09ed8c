import ServalDna.FoldRuns
import ServalDna.MeshmsThread

/-!
# The iterator lists the whole thread

Each of my ACKs covers the part of their ply from the offset of the ACK before it to its
own. So the parts that all of them cover, one behind the other, are their ply from its
start to my latest ACK, and the iterator comes across each message once.
-/
namespace ThreadComplete

open DataFormats FoldRuns MeshmsPly MeshmsThread OverlayBuffer BufferCodec Option
open PlyPages (InPages readPrev readPrev_eq)
open List hiding iterate

/-! ## Numbers -/

theorem unpackLoop_packed (v : UInt64) (i : Nat) (sum : Option UInt64) (rest : List UInt8) :
    MeshmsThread.unpackLoop i sum (packed v ++ rest) = match unpacked intToUi64 v (i * 7) sum with
      | none => .undetermined
      | some x => .value (i + (packed v).length) x := by
  induction v using packed.induct generalizing i sum with
  | case1 v ih =>
    obtain ⟨hlow, hmore⟩ := packed_byte v
    rw [packed, unpacked]
    rw [cons_append, MeshmsThread.unpackLoop]
    simp only [hlow]
    by_cases hv : v >>> 7 ≠ 0
    · rw [if_pos (hmore.mpr hv), if_pos hv, if_pos hv, ih hv, Nat.add_one_mul, length_cons,
        add_right_comm, add_assoc i]
    rw [if_neg (fun h => hv (hmore.mp h)), if_neg hv, if_neg hv]
    rfl

variable {n : Nat} {records mine : List Record} {after content theirs : List UInt8} {iter : Iterator}

theorem ofInt_toNat (h : n < 2 ^ 31) : (UInt64.ofInt n).toNat = n := by
  rw [UInt64.ofInt]
  simp
  omega

/-- A number below 2^31 is read back, whatever comes behind it. -/
theorem unpackUint_pack (h : n < 2 ^ 31) (rest : List UInt8) :
    ∃ v, unpackUint (packUint n ++ rest) = .value (packUint n).length v ∧ v.toNat = n := by
  have hn := ofInt_toNat h
  refine ⟨UInt64.ofInt n, ?_, hn⟩
  rw [unpackUint, packUint, unpackLoop_packed, zero_mul,
    (unpacked_ui64_iff (UInt64.ofInt n)).mpr (by rw [hn]; exact h), zero_add]

/-! ## Reading records -/

def bytes (records : List Record) : List UInt8 := records.flatMap Record.bytes

theorem bytes_snoc : bytes (a ++ [r]) ++ after = bytes a ++ (r.bytes ++ after) := by simp [bytes]

theorem bytes_snoc_length (a : List Record) (r : Record) :
    (bytes (a ++ [r])).length = (bytes a).length + r.body.length + 2 := by
  simp [bytes, add_assoc]

theorem length_le_bytes (records : List Record) : records.length ≤ (bytes records).length := by
  induction records with
  | nil => exact le_rfl
  | cons r records ih =>
    have hcons : (bytes (r :: records)).length = r.bytes.length + (bytes records).length := by
      simp [bytes]
    rw [length_cons, hcons, Record.bytes_length]
    omega

theorem bytes_eq_nil (h : bytes records = []) : records = [] := by
  have hlen := length_le_bytes records
  rw [h] at hlen
  exact length_eq_zero_iff.mp (Nat.le_zero.mp hlen)

/-- A ply that starts with the records, with their footers inside pages. -/
structure Starts (content : List UInt8) (records : List Record) : Prop where
  bytes_eq : ∃ after, content = bytes records ++ after
  small : content.length < 2 ^ 31
  pages : InPages records

theorem inPages_left (h : InPages (a ++ b)) : InPages a := by
  induction b using List.reverseRecOn with
  | nil => rwa [append_nil] at h
  | append_singleton b r ih => exact ih (by rw [← append_assoc] at h; exact h.init)

theorem Starts.left (h : Starts content (a ++ b)) : Starts content a := by
  obtain ⟨after, hcon⟩ := h.bytes_eq
  exact ⟨⟨bytes b ++ after, by rw [hcon]; simp [bytes]⟩, h.small, inPages_left h.pages⟩

/-- A reader at an offset of a ply. -/
structure At (content : List UInt8) (n : Nat) (ply : PlyRead) : Prop where
  offset : ply.offset = n
  inside : Inside content.length ply

theorem at_open : At content content.length (plyReadOpen content.length ply) :=
  ⟨rfl, fun _ h => absurd h not_mem_nil⟩

/-- A reader behind a record finds it. -/
theorem read_record (hst : Starts content (records ++ [r]))
    (h : At content (bytes (records ++ [r])).length ply) :
    ∃ next, readPrev content ply = (.updated, next) ∧ At content (bytes records).length next ∧
      next.found = ⟨r.type, r.body.length, r.body, (bytes (records ++ [r])).length⟩ := by
  obtain ⟨after, hcon⟩ := hst.bytes_eq
  have hform : content = bytes records ++ r.bytes ++ after := by
    rw [hcon, bytes_snoc, append_assoc]
  have hbody := r.body_range
  have hlen : (footerBefore content ((bytes records).length + r.body.length + 2) >>> 4).toNat =
      r.body.length := by rw [hform, footerBefore_record, r.mark_length]
  have hsize : (bytes records).length + r.body.length + 2 ≤ content.length := by
    rw [hcon, length_append, bytes_snoc_length]
    omega
  have hoff := h.offset
  rw [bytes_snoc_length] at hoff ⊢
  obtain ⟨next, hcall, hnext, hfnd, hins⟩ :=
    plyReadPrev_moves hoff hsize (by omega) hlen h.inside
  rw [hform, footerBefore_record, r.mark_type, body_slice] at hfnd
  have hsame := readPrev_eq (lt_trans hst.small (by decide)) h.inside hoff hsize fun _ => hst.pages.last
  exact ⟨next, hsame.trans hcall, ⟨hnext, hins⟩, hfnd⟩

/-- A reader at the start of a ply is at its end. -/
theorem read_start (h : At content 0 ply) :
    ∃ last, readPrev content ply = (.ok, last) ∧ last.recordEndOffset = 0 ∧
      Inside content.length last := by
  refine ⟨{ ply with recordEndOffset := ply.offset }, ?_, h.offset, h.inside⟩
  have hoff : ply.offset = 0 := h.offset
  rw [readPrev, plyReadPrev]
  simp [hoff]

/-- What the search for a record of some type comes to. -/
inductive Search (type : UInt8) (content : List UInt8) : List Record → Status × PlyRead → Prop where
  | found {a b : List Record} {r : Record} {ply : PlyRead} : r.type = type → (∀ x ∈ b, x.type ≠ type) →
      ply.found = ⟨r.type, r.body.length, r.body, (bytes (a ++ [r])).length⟩ →
      Inside content.length ply → Search type content (a ++ [r] ++ b) (.updated, ply)
  | absent {records : List Record} {ply : PlyRead} : (∀ x ∈ records, x.type ≠ type) →
      ply.recordEndOffset = 0 → Inside content.length ply → Search type content records (.ok, ply)

theorem findLoop_search (hst : Starts content records)
    (h : At content (bytes records).length ply) :
    ∃ result, findLoop content type (records.length + 1 + spare) ply = some result ∧
      Search type content records result := by
  induction records using List.reverseRecOn generalizing ply with
  | nil =>
    obtain ⟨last, hcall, hend, hin⟩ := read_start h
    refine ⟨(.ok, last), ?_, .absent (by simp) hend hin⟩
    rw [length_nil, zero_add, add_comm, findLoop, hcall]
    rfl
  | append_singleton records r ih =>
    obtain ⟨next, hcall, hnext, hfnd⟩ := read_record hst h
    have htype : next.type = r.type := congrArg Found.type hfnd
    have hps : (records ++ [r]).length + 1 + spare = records.length + 1 + spare + 1 := by
      rw [length_append, length_singleton]
      omega
    rw [hps, findLoop, hcall]
    by_cases ht : r.type = type
    · refine ⟨(.updated, next), if_neg (fun h => h.2 (htype.trans ht)), ?_⟩
      have hsea := Search.found (b := []) ht (by simp) hfnd hnext.inside
      rwa [append_nil] at hsea
    rw [if_pos ⟨rfl, fun h => ht (htype.symm.trans h)⟩]
    have hnot : ∀ b : List Record, (∀ x ∈ b, x.type ≠ type) → ∀ x ∈ b ++ [r], x.type ≠ type :=
      fun b hb => forall_mem_append.mpr ⟨hb, by simpa using ht⟩
    obtain ⟨result, hrun, hsea⟩ := ih hst.left hnext
    refine ⟨result, hrun, ?_⟩
    cases hsea with
    | @found a b x ply hx hb hf hin =>
      rw [append_assoc]
      exact .found hx (hnot b hb) hf hin
    | absent hall hend hin => exact .absent (hnot _ hall) hend hin

/-- The search from the end of a ply. -/
theorem plyFindPrev_search (hst : Starts (bytes records) records) (type : UInt8) :
    ∃ result, plyFindPrev (bytes records) type (plyReadOpen (bytes records).length closed) = some result ∧
      Search type (bytes records) records result := by
  have hlen := length_le_bytes records
  have hps : (bytes records).length + 1 =
      records.length + 1 + ((bytes records).length - records.length) := by omega
  rw [plyFindPrev, hps]
  exact findLoop_search hst at_open

/-! ## My ply -/

theorem bytesOf_append : bytesOf (a ++ b) = bytesOf a ++ bytesOf b := by simp [bytesOf]

theorem bytesOf_eq (records : List Theirs) : bytesOf records = bytes (records.map Theirs.record) := rfl

theorem bytesOf_snoc (records : List Theirs) (r : Theirs) :
    bytesOf (records ++ [r]) = bytes (records.map Theirs.record ++ [r.record]) := by simp [bytesOf_eq]

theorem bytesOf_le : (bytesOf a).length ≤ (bytesOf (a ++ b)).length := by simp [bytesOf_append]

theorem bytesOf_eq_nil {records : List Theirs} (h : bytesOf records = []) : records = [] :=
  map_eq_nil_iff.mp (bytes_eq_nil h)

/-- The records of my ply, with the records of their ply that my ACKs cover and the
messages that I have sent. Each ACK goes on where the one before it has stopped. -/
inductive Log : List Record → List Theirs → List Posted → Prop where
  | nil : Log [] [] []
  | message {mine : List Record} {covered : List Theirs} {sent : List Posted} {r : Record} :
      Log mine covered sent → r.type = typeMessage →
      Log (mine ++ [r]) covered (sent ++ [⟨(bytes (mine ++ [r])).length, r.body⟩])
  | time {mine : List Record} {covered : List Theirs} {sent : List Posted} {r : Record} :
      Log mine covered sent → r.type = typeTime → 4 ≤ r.body.length → Log (mine ++ [r]) covered sent
  | ack {mine : List Record} {covered more : List Theirs} {sent : List Posted} {r : Record} :
      Log mine covered sent → r.type = typeAck →
      r.body = ackBody (bytesOf (covered ++ more)).length (bytesOf covered).length →
      Log (mine ++ [r]) (covered ++ more) sent

/-- The last record of a type. -/
def lastOf (type : UInt8) (records : List Record) : Option Record := records.reverse.find? (·.type == type)

theorem lastOf_snoc (r : Record) :
    lastOf type (records ++ [r]) = if r.type = type then some r else lastOf type records := by
  by_cases hr : r.type = type <;> simp [lastOf, hr]

theorem lastOf_found {a b : List Record} {r : Record} (hr : r.type = type) (hb : ∀ x ∈ b, x.type ≠ type) :
    lastOf type (a ++ [r] ++ b) = some r := by
  induction b using List.reverseRecOn with
  | nil => rw [append_nil, lastOf_snoc, if_pos hr]
  | append_singleton b x ih =>
    rw [← append_assoc, lastOf_snoc, if_neg (hb x (by simp)), ih fun y hy => hb y (mem_append_left _ hy)]

/-- My last ACK says how much is covered. -/
theorem Log.latest (h : Log mine covered sent) : (lastOf typeAck mine).elim (covered = [])
    fun r => ∃ rest, r.body = packUint (bytesOf covered).length ++ rest := by
  induction h with
  | nil => rfl
  | message _ htype ih | time _ htype _ ih =>
    rw [lastOf_snoc, if_neg (by rw [htype]; decide)]
    exact ih
  | ack _ htype hbody _ =>
    rw [lastOf_snoc, if_pos htype]
    exact ⟨_, hbody⟩

theorem lastOf_none (h : ∀ x ∈ records, x.type ≠ type) : lastOf type records = none := by
  simpa [lastOf] using h

theorem Log.sent_nil (h : Log mine covered sent) (hnil : mine = []) : sent = [] := by
  cases h with
  | nil => rfl
  | message _ _ | time _ _ _ | ack _ _ _ => exact absurd hnil (by simp)

/-- `update_conversation` finds where my latest ACK has stopped. -/
theorem previousAck_log (h : Log mine covered sent) (hst : Starts (bytes mine) mine)
    (hsm : (bytesOf covered).length < 2 ^ 31) :
    previousAck (some (bytes mine)) = some (.ok, ((bytesOf covered).length : Int)) := by
  obtain ⟨res, hrun, hsea⟩ := plyFindPrev_search hst typeAck
  have hlast := h.latest
  rw [previousAck, hrun, bind_some]
  cases hsea with
  | @found a b r ply htype hb hfnd _ =>
    rw [lastOf_found htype hb] at hlast
    obtain ⟨rest, hbody⟩ := hlast
    obtain ⟨v, hv, hn⟩ := unpackUint_pack hsm rest
    rw [if_pos rfl, hfnd, hbody, hv]
    simp [hn]
  | absent hall hend _ =>
    rw [lastOf_none hall] at hlast
    rw [if_neg (by simp), show covered = [] from hlast]
    rfl

theorem packUint_length (h : n < 2 ^ 31) : (packUint n).length ≤ 5 := by
  apply packed_length
  rw [ofInt_toNat h]
  exact lt_trans h (by decide)

theorem ackBody_range {last previous : Nat} (h : last < 2 ^ 31) (hle : previous ≤ last) :
    1 ≤ (ackBody last previous).length ∧ (ackBody last previous).length ≤ messageMaxLen := by
  have hfst := packUint_pos last
  have hlen := packUint_length h
  have hsub : ((last : Int) - previous) = ((last - previous : Nat) : Int) := by omega
  have hrest : (if (previous : Int) ≠ 0 then packUint (last - previous) else []).length ≤ 5 := by
    split
    · rw [hsub]
      exact packUint_length (by omega)
    · exact Nat.zero_le 5
  rw [ackBody, length_append]
  constructor
  · omega
  · exact le_trans (Nat.add_le_add hlen hrest) (by decide)

theorem time_range : 1 ≤ typeTime.toNat ∧ typeTime.toNat ≤ 15 := by decide
theorem ack_range : 1 ≤ typeAck.toNat ∧ typeAck.toNat ≤ 15 := by decide
theorem message_range : 1 ≤ typeMessage.toNat ∧ typeMessage.toNat ≤ 15 := by decide
variable (now : UInt32)

theorem four_range : 1 ≤ (writeUint32 now).length ∧
    (writeUint32 now).length ≤ messageMaxLen := ⟨by simp [writeUint32], by simp [writeUint32, messageMaxLen]⟩

def timeRecord (now : UInt32) : Record := ⟨typeTime, writeUint32 now, time_range, four_range now⟩

theorem footer_record (r : Record) : appendFooter r.type r.body.length = some (writeUint16 r.mark) :=
  if_pos r.body_range.2

theorem appendTimestamp_record : appendTimestamp now = some (timeRecord now).bytes := by
  have hfoo : appendFooter typeTime 4 = _ := footer_record (timeRecord now)
  rfl

/-- A record that is appended with the time behind it. -/
theorem buffer_records : bytes mine ++ (r.body ++ writeUint16 r.mark ++ (timeRecord now).bytes) =
      bytes (mine ++ [r] ++ [timeRecord now]) := by
  simp [bytes, Record.bytes]

/-! ## Updates -/

/-- A conversation whose plies are lists of records, the first of theirs covered. -/
structure Plies (conv : Conversation) (mine : List Record) (covered rest : List Theirs) : Prop where
  log : Log mine covered conv.sent
  mine : conv.myPly.getD [] = bytes mine
  theirs : conv.theirPly.getD [] = bytesOf (covered ++ rest)
  acked : conv.acked = (bytesOf covered).length

/-- Both plies are small and have their footers inside pages. -/
structure Readable (conv : Conversation) : Prop where
  mineSmall : size conv.myPly < 2 ^ 31
  theirsSmall : size conv.theirPly < 2 ^ 31
  minePaged : PlyPaged conv.myPly
  theirsPaged : PlyPaged conv.theirPly

section Plies

variable (h : Plies conv mine covered rest)

include h

theorem Plies.remember (st : Status) : Plies (conv.remember st).2 mine covered rest := by
  simp only [Conversation.remember]
  split
  · exact h
  · exact { h with }

/-- What an update leaves behind: the covered part of their ply may have grown. -/
def Updated (all : List Theirs) (result : Option (Status × Conversation)) : Prop :=
  ∃ status conv' mine covered rest, result = some (status, conv') ∧ covered ++ rest = all ∧
    Plies conv' mine covered rest

theorem updated_remember (st : Status) :
    Updated (covered ++ rest) (some (conv.remember st)) :=
  ⟨_, _, mine, covered, rest, rfl, rfl, h.remember st⟩

omit h in
theorem updated_acknowledge {more : List Theirs} (h : Plies conv mine covered (more ++ rest))
    (hlast : conv.theirLastMessage = (bytesOf (covered ++ more)).length)
    (hsm : (bytesOf (covered ++ more)).length < 2 ^ 31) :
    Updated (covered ++ (more ++ rest))
      (acknowledge now stored conv ((bytesOf covered).length : Int)) := by
  let r : Record := ⟨typeAck, ackBody (bytesOf (covered ++ more)).length (bytesOf covered).length,
    ack_range, ackBody_range hsm bytesOf_le⟩
  have hfoo : appendFooter typeAck
      (ackBody (bytesOf (covered ++ more)).length (bytesOf covered).length).length = _ := footer_record r
  rw [acknowledge, ackBuffer, hlast, hfoo, bind_some, appendTimestamp_record, map_some, map_some]
  cases stored with
  | false => exact ⟨_, _, mine, covered, more ++ rest, rfl, rfl, h.remember .error⟩
  | true =>
    let conv' : Conversation :=
      { conv with
        myPly := some (conv.myPly.getD [] ++ (r.body ++ writeUint16 r.mark ++ (timeRecord now).bytes))
        acked := (bytesOf (covered ++ more)).length }
    have hpls : Plies conv' (mine ++ [r] ++ [timeRecord now]) (covered ++ more) rest := by
      refine ⟨(h.log.ack rfl rfl).time rfl (le_rfl), ?_, ?_, rfl⟩
      · rw [← buffer_records, ← h.mine]
        rfl
      rw [append_assoc]
      exact h.theirs
    exact ⟨_, _, _, _, _, rfl, append_assoc .., hpls.remember .updated⟩

omit h in
theorem bytesOf_length_cons (r : Theirs) (records : List Theirs) :
    (bytesOf (r :: records)).length = r.body.length + 2 + (bytesOf records).length := by
  simp [bytesOf, Theirs.record]

omit h in
/-- Of two parts of their ply that both start it, the longer goes on where the shorter stops. -/
theorem longer_start (h : a ++ b = c ++ d) (hlt : (bytesOf a).length < (bytesOf c).length) :
    ∃ more, c = a ++ more ∧ b = more ++ d := by
  rcases append_eq_append_iff.mp h with ⟨more, hc, hb⟩ | ⟨more, ha, _⟩
  · exact ⟨more, hc, hb⟩
  rw [ha] at hlt
  exact absurd bytesOf_le (not_le_of_gt hlt)

omit h in
/-- The records of a list of theirs, split at one of them. -/
theorem split_records {all : List Theirs} (h : all.map Theirs.record = a ++ [r] ++ b) :
    ∃ fr back, all = fr ++ back ∧ bytesOf fr = bytes (a ++ [r]) := by
  obtain ⟨fr, back, hall, hfr, _⟩ := map_eq_append_iff.mp h
  exact ⟨fr, back, hall, by rw [bytesOf_eq, hfr]⟩

theorem Plies.starts_mine (hread : Readable conv) : Starts (bytes mine) mine :=
  ⟨⟨[], (append_nil _).symm⟩, h.mine ▸ hread.mineSmall, hread.minePaged mine h.mine⟩

theorem Plies.starts_theirs (hread : Readable conv) :
    Starts (bytesOf (covered ++ rest)) ((covered ++ rest).map Theirs.record) :=
  ⟨⟨[], (append_nil _).symm⟩, h.theirs ▸ hread.theirsSmall, hread.theirsPaged _ h.theirs⟩

theorem previousAck_plies (hread : Readable conv) :
    ∃ st, previousAck conv.myPly = some (st, ((bytesOf covered).length : Int)) ∧
      (conv.myPly.isSome → st = .ok) := by
  have hsm : (bytesOf covered).length < 2 ^ 31 := bytesOf_le.trans_lt (h.starts_theirs hread).small
  have hst := h.starts_mine hread
  have hmine := h.mine
  generalize conv.myPly = ply at *
  cases ply with
  | none =>
    have hnil : mine = [] := bytes_eq_nil hmine.symm
    have hcov := h.log.latest
    rw [hnil] at hcov
    exact ⟨.protocolFault, by rw [show covered = [] from hcov]; rfl, nofun⟩
  | some content =>
    have hcon : content = bytes mine := hmine
    exact ⟨.ok, by rw [hcon]; exact previousAck_log h.log hst hsm, fun _ => rfl⟩

/-- The part of an update after their last message is found at the end of `fr`, or at
no message at all. -/
theorem updated_ack (hall : covered ++ rest = fr ++ back) (hread : Readable conv)
    (hlast : conv.theirLastMessage = (bytesOf fr).length) :
    Updated (covered ++ rest) (updateAck now stored conv) := by
  have hsm := (h.starts_theirs hread).small
  obtain ⟨st, hprev, hok⟩ := previousAck_plies h hread
  rw [updateAck, hprev, bind_some]
  have hnot : ¬(conv.myPly.isSome ∧ meshmsFailed (st, ((bytesOf covered).length : Int)).1) := by
    rintro ⟨hsome, hfail⟩
    rw [hok hsome] at hfail
    exact Bool.false_ne_true hfail
  rw [if_neg hnot, hlast]
  by_cases hle : ((bytesOf fr).length : Int) ≤ (bytesOf covered).length
  · rw [if_pos hle]
    exact updated_remember h .updated
  rw [if_neg hle]
  obtain ⟨more, hfr, hrest⟩ := longer_start hall (by omega)
  rw [hrest] at h ⊢
  refine updated_acknowledge now h (by rw [hlast, hfr]) ?_
  rw [← hfr]
  rw [hall] at hsm
  exact bytesOf_le.trans_lt hsm

theorem updated_conversation (hread : Readable conv) :
    Updated (covered ++ rest) (updateConversation now stored conv) := by
  have hthe := h.theirs
  unfold updateConversation
  cases ht : conv.theirPly with
  | none => exact ⟨_, _, mine, covered, rest, rfl, rfl, h⟩
  | some theirs =>
    rw [ht] at hthe
    have hcon : theirs = bytes ((covered ++ rest).map Theirs.record) := hthe
    obtain ⟨res, hrun, hsea⟩ := plyFindPrev_search (h.starts_theirs hread) typeMessage
    rw [← hcon] at hrun
    dsimp only
    rw [hrun, bind_some]
    -- their last message ends some first part of their ply
    have hfr : ∃ fr back, covered ++ rest = fr ++ back ∧
        res.2.recordEndOffset = (bytesOf fr).length ∧ meshmsFailed res.1 = false := by
      generalize hmap : (covered ++ rest).map Theirs.record = records at hsea
      cases hsea with
      | @found a b r ply _ _ hfnd _ =>
        obtain ⟨fr, back, hall, hbs⟩ := split_records hmap
        refine ⟨fr, back, hall, ?_, rfl⟩
        rw [hbs]
        exact congrArg Found.endOffset hfnd
      | absent _ hend _ => exact ⟨[], covered ++ rest, rfl, hend, rfl⟩
    obtain ⟨fr, back, hall, hend, hok⟩ := hfr
    rw [if_neg (by rw [hok]; decide)]
    by_cases hsame : conv.theirLastMessage = res.2.recordEndOffset
    · rw [if_pos hsame]
      exact updated_remember h .ok
    rw [if_neg hsame]
    have hpls : Plies { conv with theirLastMessage := res.2.recordEndOffset } mine covered rest :=
      { h with }
    have hup : Updated (covered ++ rest) (updateAck now stored
        { conv with theirLastMessage := res.2.recordEndOffset }) :=
      updated_ack now hpls hall { hread with } hend
    rwa [ht] at hup

/-! ## Runs -/

/-- A thread whose plies are lists of records, the first of theirs covered by my ACKs. -/
structure Tiled (thread : Thread) (mine : List Record) (covered rest : List Theirs) : Prop where
  plies : Plies thread.conv mine covered rest
  received : thread.received = postedFrom 0 (covered ++ rest)
  theirAck : thread.theirAck = lastAck 0 (covered ++ rest)

theorem Plies.kept (save : Bool) (old : Conversation) :
    Plies (Conversation.kept save old conv) mine covered rest := by
  unfold Conversation.kept
  split
  · exact h
  · exact { h with }

end Plies

/-- Listing the conversations keeps the form of the thread. -/
theorem tiled_list (now : UInt32) (h : Tiled th mine covered rest) (hread : Readable th.conv) :
    ∃ st th' mine' covered' rest',
      meshmsConversationsList save now stored th = some (st, th') ∧ Tiled th' mine' covered' rest' := by
  have hup : Updated (covered ++ rest) (updateGrown now stored th.conv) := by
    unfold updateGrown
    split
    · exact updated_conversation now h.plies hread
    · exact ⟨_, _, mine, covered, rest, rfl, rfl, h.plies⟩
  obtain ⟨st, conv', mine', covered', rest', hrun, hall, hpls⟩ := hup
  rw [meshmsConversationsList, hrun, map_some]
  refine ⟨_, _, mine', covered', rest', rfl, hpls.kept _ _, ?_, ?_⟩
  · rw [hall]
    exact h.received
  · rw [hall]
    exact h.theirAck

theorem strncpy_length : (strncpy message).length = message.length := by
  have hle : (message.takeWhile (· != 0)).length ≤ message.length :=
    (takeWhile_sublist _).length_le
  rw [strncpy, length_append, length_replicate]
  omega

theorem plies_post (hne : message ≠ []) (h : Plies conv mine covered rest) :
    ∃ mine', Plies (postMessage now stored message conv) mine' covered rest := by
  by_cases hlen : (messageBody message).length ≤ messageMaxLen
  · have hpos : 1 ≤ (messageBody message).length := by
      rw [messageBody, length_append, strncpy_length]
      have := length_pos_iff.mpr hne
      omega
    let r : Record := ⟨typeMessage, messageBody message, message_range, hpos, hlen⟩
    have hfoo : appendFooter typeMessage (messageBody message).length = _ := footer_record r
    rw [postMessage, messageBuffer, hfoo, bind_some, appendTimestamp_record, map_some]
    cases stored with
    | false => exact ⟨mine, h⟩
    | true =>
      have hend : size conv.myPly + (messageBody message).length + 2 = (bytes (mine ++ [r])).length := by
        rw [bytes_snoc_length, ← h.mine]
        rfl
      have hlog := (h.log.message (r := r) rfl).time (r := timeRecord now) rfl (le_rfl)
      refine ⟨mine ++ [r] ++ [timeRecord now], ?_, ?_, h.theirs, h.acked⟩
      · rw [← hend] at hlog
        exact hlog
      rw [← buffer_records, ← h.mine]
      rfl
  have hfoo : appendFooter typeMessage (messageBody message).length = none := if_neg hlen
  refine ⟨mine, ?_⟩
  rw [postMessage, messageBuffer, hfoo]
  exact h

theorem postedFrom_append :
    postedFrom start (a ++ b) = postedFrom start a ++ postedFrom (start + (bytesOf a).length) b := by
  induction a generalizing start with
  | nil => rfl
  | cons r a ih =>
    simp only [cons_append, postedFrom, ih, append_assoc, bytesOf_length_cons]
    congr 3
    omega

theorem lastAck_append (pre : Nat) (b : List Theirs) :
    lastAck pre (a ++ b) = lastAck (lastAck pre a) b := by
  induction a generalizing pre with
  | nil => rfl
  | cons r a ih => cases r <;> exact ih _

theorem tiled_grow (records : List Theirs) (h : Tiled th mine covered rest) :
    Tiled (th.grow records) mine covered (rest ++ records) := by
  have hthe := h.plies.theirs
  refine ⟨⟨h.plies.log, h.plies.mine, ?_, h.plies.acked⟩, ?_, ?_⟩
  · rw [← append_assoc, bytesOf_append, ← hthe]
    rfl
  · rw [← append_assoc, postedFrom_append, zero_add, ← hthe, ← h.received]
    rfl
  rw [← append_assoc, lastAck_append, ← h.theirAck]
  rfl

theorem tiled_step (h : Tiled th mine covered rest) (hread : Readable th.conv)
    (hstep : th.step ev = some th') :
    ∃ mine' covered' rest', Tiled th' mine' covered' rest' := by
  cases ev with
  | grow records =>
    cases hstep
    exact ⟨mine, covered, rest ++ records, tiled_grow records h⟩
  | list save now stored =>
    obtain ⟨st, s, mine', covered', rest', hrun, htil⟩ := tiled_list now h hread
    rw [Thread.step, hrun] at hstep
    cases hstep
    exact ⟨mine', covered', rest', htil⟩
  | send message now ackStored stored =>
    rw [Thread.step, meshmsSendMessage] at hstep
    by_cases hbad : message = [] ∨ messageMaxLen < message.length
    · rw [if_pos hbad] at hstep
      cases hstep
      exact ⟨mine, covered, rest, h⟩
    obtain ⟨st, s, mine', covered', rest', hrun, htil⟩ :=
      tiled_list now h hread
    rw [if_neg hbad, hrun, map_some, Option.some.injEq] at hstep
    subst hstep
    by_cases hfail : meshmsFailed st = true
    · simp only [hfail, if_true]
      exact ⟨mine', covered', rest', htil⟩
    simp only [hfail]
    obtain ⟨mine2, hpost⟩ := plies_post now (fun h => hbad (.inl h)) htil.plies
    exact ⟨mine2, covered', rest', hpost, htil.received, htil.theirAck⟩

theorem paged_none : PlyPaged none := by
  intro records hnil
  rw [bytes_eq_nil hnil.symm]
  exact forall_mem_nil _

/-- The thread has its form after every run. -/
theorem tiled_run (h : Run (fun s => Small s ∧ Paged s) thread) :
    Readable thread.conv ∧ ∃ mine covered rest, Tiled thread mine covered rest := by
  induction h with
  | empty =>
    exact ⟨⟨by decide, by decide, paged_none, paged_none⟩, [], [], [], ⟨.nil, rfl, rfl, rfl⟩, rfl, rfl⟩
  | step _ hstep hgood ih =>
    obtain ⟨hbef, mine, covered, rest, htil⟩ := ih
    exact ⟨⟨hgood.1.1, hgood.1.2, hgood.2.1, hgood.2.2⟩, tiled_step htil hbef hstep⟩

/-! ## The iterator -/

/-- The items that the iterator comes to before it returns `MESHMS_STATUS_OK`. -/
inductive Lists : Iterator → List Item → Prop where
  | again {iter iter' : Iterator} {items : List Item} : pass iter = .again iter' → Lists iter' items →
      Lists iter items
  | item {iter iter' : Iterator} {item : Item} {items : List Item} : pass iter = .returns .updated iter' →
      iter'.item = some item → Lists iter' items → Lists iter (item :: items)
  | stop {iter iter' : Iterator} : pass iter = .returns .ok iter' → Lists iter []

theorem prev_succ {r : Status × Iterator} (h : meshmsMessageIteratorPrev ps iter = some r) :
    meshmsMessageIteratorPrev (ps + 1) iter = some r := by
  induction ps generalizing iter with
  | zero => cases h
  | succ ps ih =>
    rw [meshmsMessageIteratorPrev] at h ⊢
    generalize pass iter = p at *
    cases p with
    | again iter' => exact ih h
    | returns st iter' => exact h
    | undetermined => cases h

/-- Enough calls with enough passes list the items. -/
theorem iterate_lists (h : Lists iter its) :
    ∃ n, ∀ ps ≥ n, ∀ cs ≥ n, iterate ps cs iter = some (its, .ok) := by
  induction h with
  | @again iter iter' its hp _ ih =>
    obtain ⟨n, ih⟩ := ih
    refine ⟨n + 1, fun ps hps cs hcs => ?_⟩
    obtain ⟨ps, rfl⟩ := Nat.exists_eq_add_of_le' (Nat.le_of_add_left_le hps)
    obtain ⟨cs, rfl⟩ := Nat.exists_eq_add_of_le' (Nat.le_of_add_left_le hcs)
    have hfew := ih ps (by omega) (cs + 1) (by omega)
    have hmany := ih (ps + 1) (by omega) (cs + 1) (by omega)
    rw [iterate] at hfew hmany ⊢
    obtain ⟨r, hr, _⟩ := bind_eq_some_iff.mp hfew
    have hone : meshmsMessageIteratorPrev (ps + 1) iter = some r := by
      rw [meshmsMessageIteratorPrev, hp]
      exact hr
    rw [hone]
    rw [prev_succ hr] at hmany
    exact hmany
  | @item iter iter' item its hp hitem _ ih =>
    obtain ⟨n, ih⟩ := ih
    refine ⟨n + 1, fun ps hps cs hcs => ?_⟩
    obtain ⟨ps, rfl⟩ := Nat.exists_eq_add_of_le' (Nat.le_of_add_left_le hps)
    obtain ⟨cs, rfl⟩ := Nat.exists_eq_add_of_le' (Nat.le_of_add_left_le hcs)
    have hrest := ih (ps + 1) (by omega) cs (by omega)
    simp [iterate, meshmsMessageIteratorPrev, hp, hrest, hitem]
  | @stop iter iter' hp =>
    refine ⟨1, fun ps hps cs hcs => ?_⟩
    obtain ⟨ps, rfl⟩ := Nat.exists_eq_add_of_le' hps
    obtain ⟨cs, rfl⟩ := Nat.exists_eq_add_of_le' hcs
    simp [iterate, meshmsMessageIteratorPrev, hp]

/-- The messages among the items that the iterator comes to. -/
def Gives (iter : Iterator) (sent : List (Posted × Bool)) (received : List Posted) : Prop :=
  ∃ items, Lists iter items ∧ items.filterMap Item.sent = sent ∧ items.filterMap Item.received = received

theorem gives_again {sent : List (Posted × Bool)} (hp : pass iter = .again iter')
    (h : Gives iter' sent received) : Gives iter sent received := by
  obtain ⟨its, hlists, hs, hr⟩ := h
  exact ⟨its, .again hp hlists, hs, hr⟩

theorem gives_item {sent : List (Posted × Bool)} (hp : pass iter = .returns .updated iter')
    (hitem : iter'.item = some item) (h : Gives iter' sent received) :
    Gives iter (item.sent.toList ++ sent) (item.received.toList ++ received) := by
  obtain ⟨its, hlists, hs, hr⟩ := h
  refine ⟨item :: its, .item hp hitem hlists, ?_, ?_⟩
  · cases hi : item.sent <;> simp [hi, hs]
  · cases hi : item.received <;> simp [hi, hr]

/-- What the walk through their ply leaves as it is. -/
structure Same (iter iter' : Iterator) : Prop where
  myContent : iter'.myContent = iter.myContent
  theirContent : iter'.theirContent = iter.theirContent
  latest : iter'.latestAckMyOffset = iter.latestAckMyOffset
  myReader : iter'.myReader = iter.myReader

/-- The end of the walk: at the start of their ply, or at a record that is covered by an
earlier ACK. -/
theorem gives_leave {sent : List (Posted × Bool)} (hst : Starts content (covered.map Theirs.record))
    (hthe : iter.theirContent = some content) (hin : iter.inAck = true)
    (hat : At content (bytesOf covered).length iter.theirReader)
    (hend : iter.endRange = (bytesOf covered).length)
    (hrest : ∀ iter', Same iter iter' → iter'.inAck = false → Inside content.length iter'.theirReader →
      Gives iter' sent received) : Gives iter sent received := by
  have hpass : pass iter = passTheirs iter := if_pos hin
  cases covered using List.reverseRecOn with
  | nil =>
    obtain ⟨last, hcall, _, hins⟩ := read_start hat
    refine gives_again ?_
      (hrest { iter with theirReader := last, inAck := false } ⟨rfl, rfl, rfl, rfl⟩ rfl hins)
    rw [hpass, passTheirs, hthe, getD_some, hcall]
    rfl
  | append_singleton covered r =>
    rw [map_append] at hst
    rw [bytesOf_snoc] at hat hend
    obtain ⟨next, hcall, hnext, _⟩ := read_record hst hat
    have hout : ¬iter.endRange ≤ next.offset := by
      rw [hend, hnext.offset, bytes_snoc_length]
      omega
    refine gives_again ?_
      (hrest { iter with theirReader := next, inAck := false } ⟨rfl, rfl, rfl, rfl⟩ rfl hnext.inside)
    rw [hpass, passTheirs, hthe, getD_some, hcall]
    simp [meshmsFailed, hout]

/-- The walk through the part of their ply that an ACK covers. -/
theorem gives_theirs {sent : List (Posted × Bool)}
    (hst : Starts content ((covered ++ more).map Theirs.record))
    (hthe : iter.theirContent = some content) (hin : iter.inAck = true)
    (hat : At content (bytesOf (covered ++ more)).length iter.theirReader)
    (hend : iter.endRange = (bytesOf covered).length)
    (hrest : ∀ iter', Same iter iter' → iter'.inAck = false → Inside content.length iter'.theirReader →
      Gives iter' sent received) :
    Gives iter sent ((postedFrom (bytesOf covered).length more).reverse ++ received) := by
  induction more using List.reverseRecOn generalizing iter with
  | nil =>
    rw [append_nil] at hst hat
    exact gives_leave hst hthe hin hat hend hrest
  | append_singleton more r ih =>
    have hpass : pass iter = passTheirs iter := if_pos hin
    rw [← append_assoc, bytesOf_snoc] at hat
    rw [← append_assoc, map_append] at hst
    obtain ⟨next, hcall, hnext, hfnd⟩ := read_record hst hat
    rw [passTheirs, hthe, getD_some, hcall] at hpass
    have hin' : iter.endRange ≤ next.offset := by
      rw [hend, hnext.offset, ← bytesOf_eq, bytesOf_append, length_append]
      omega
    have hstop : (bytes ((covered ++ more).map Theirs.record ++ [r.record])).length =
        (bytesOf covered).length + (bytesOf more).length + r.body.length + 2 := by
      rw [bytes_snoc_length, ← bytesOf_eq, bytesOf_append, length_append]
      rfl
    -- the walk goes on below this record
    have hgo : ∀ item, Gives { iter with theirReader := next, item := item } sent
        ((postedFrom (bytesOf covered).length more).reverse ++ received) := by
      intro item
      exact ih hst.left hthe hin hnext hend fun iter' hsame => hrest iter' { hsame with }
    rw [postedFrom_append, reverse_append, append_assoc]
    cases r with
    | message text short =>
      have hp : pass iter = .returns .updated { iter with
          theirReader := next
          item := some (.messageReceived ⟨next.found.endOffset, next.found.body⟩
            (decide (next.found.endOffset ≤ iter.readOffset)) iter.timestamp) } := by
        simp [hpass, hthe, meshmsFailed, hin', hfnd, Theirs.record, Theirs.type, Theirs.body, typeMessage,
          typeAck]
      have hitem := gives_item hp rfl (hgo _)
      rw [hfnd, hstop] at hitem
      exact hitem
    | ack off bytes short =>
      have hp : pass iter = .returns .updated { iter with
          theirReader := next
          item := some (.ackReceived next.found.endOffset (unpackUint next.found.body)
            iter.timestamp) } := by
        simp [hpass, hthe, meshmsFailed, hin', hfnd, Theirs.record, Theirs.type]
      exact gives_item hp rfl (hgo _)
    | time body short =>
      refine gives_again ?_ (hgo iter.item)
      simp [hpass, hthe, meshmsFailed, hin', hfnd, Theirs.record, Theirs.type, typeTime, typeMessage, typeAck]

/-- An ACK of mine leads to the part of their ply that it covers. -/
theorem enterAck_covers (hlast : last < 2 ^ 31) (hle : previous ≤ last) (hsize : last ≤ theirs.length) :
    enterAck iter theirs (ackBody last previous) = .again { iter with
        theirReader := { iter.theirReader with offset := last }
        inAck := true
        endRange := previous } := by
  obtain ⟨v, hv, hn⟩ := unpackUint_pack hlast
    (if (previous : Int) ≠ 0 then packUint (last - previous) else [])
  rw [enterAck, ackBody, hv]
  simp only [hn, drop_left, if_neg (Nat.not_lt.mpr hsize)]
  by_cases h0 : previous = 0
  · subst h0
    rfl
  have hsub : ((last : Int) - previous) = ((last - previous : Nat) : Int) := by omega
  obtain ⟨d, hd, hdn⟩ := unpackUint_pack (n := last - previous) (by omega) []
  rw [append_nil] at hd
  rw [if_pos (by omega), hsub, hd]
  simp only [hdn]
  congr 2
  omega

/-- The iterator at some record of my ply, with all before it still to come. -/
structure Standing (iter : Iterator) (mine : List Record) (theirs : List UInt8) : Prop where
  starts : Starts iter.myContent mine
  atMine : At iter.myContent (bytes mine).length iter.myReader
  theirBytes : iter.theirContent.getD [] = theirs
  inside : Inside theirs.length iter.theirReader
  outside : iter.inAck = false

theorem Standing.next (h : Standing iter (mine ++ [r]) theirs) :
    ∃ next, readPrev iter.myContent iter.myReader = (.updated, next) ∧
      next.found = ⟨r.type, r.body.length, r.body, (bytes (mine ++ [r])).length⟩ ∧
      ∀ timestamp item,
        Standing { iter with myReader := next, timestamp := timestamp, item := item } mine theirs := by
  obtain ⟨next, hcall, hnext, hfnd⟩ := read_record h.starts h.atMine
  exact ⟨next, hcall, hfnd, fun timestamp item => ⟨h.starts.left, hnext, h.theirBytes, h.inside, h.outside⟩⟩

theorem Standing.pass (h : Standing iter mine theirs) : MeshmsThread.pass iter = passMine iter := by
  rw [MeshmsThread.pass, h.outside]
  rfl

def marked (latest : Nat) (message : Posted) : Posted × Bool :=
  (message, decide (message.endOffset ≤ latest))

/-- From a record of mine on, all messages before it are given. -/
theorem gives_mine (hlog : Log mine covered sent) (h : Standing iter mine theirs)
    (hst : Starts theirs (covered.map Theirs.record)) :
    Gives iter (sent.map (marked iter.latestAckMyOffset)).reverse (postedFrom 0 covered).reverse := by
  induction hlog generalizing iter with
  | nil =>
    obtain ⟨last, hcall, _, _⟩ := read_start h.atMine
    have hp : pass iter = .returns .ok { iter with myReader := last } := by
      rw [h.pass, passMine, hcall]
      rfl
    exact ⟨[], .stop hp, rfl, rfl⟩
  | @message mine covered sent r _ htype ih =>
    obtain ⟨next, hcall, hfnd, hstn⟩ := h.next
    have hp : pass iter = .returns .updated { iter with
        myReader := next
        item := some (.messageSent ⟨next.found.endOffset, next.found.body⟩ (iter.latestAckMyOffset != 0 &&
          decide (next.found.endOffset ≤ iter.latestAckMyOffset)) iter.timestamp) } := by
      rw [h.pass, passMine, hcall]
      simp [hfnd, htype, typeTime, typeMessage, typeAck]
    have hitem := gives_item hp rfl (ih (hstn iter.timestamp _) hst)
    have hpos := bytes_snoc_length mine r
    have hmark : (iter.latestAckMyOffset != 0 &&
        decide (((bytes (mine ++ [r])).length : Int) ≤ iter.latestAckMyOffset)) =
          decide (((bytes (mine ++ [r])).length : Int) ≤ iter.latestAckMyOffset) := by
      by_cases h0 : iter.latestAckMyOffset = 0
      · rw [h0]
        exact (decide_eq_false (by omega)).symm
      · simp [h0]
    rw [map_append, reverse_append]
    rw [hfnd, hmark] at hitem
    exact hitem
  | @time mine covered sent r _ htype hlen ih =>
    obtain ⟨next, hcall, hfnd, hstn⟩ := h.next
    have hgv := ih (hstn (readUint32 next.found.body) iter.item) hst
    refine gives_again ?_ hgv
    rw [h.pass, passMine, hcall]
    simp [hfnd, htype, Nat.not_lt.mpr hlen]
  | @ack mine covered more sent r _ htype hbody ih =>
    obtain ⟨next, hcall, hfnd, hstn⟩ := h.next
    have hback : Starts theirs (covered.map Theirs.record) := by
      rw [map_append] at hst
      exact hst.left
    have hsmall := hst.small
    obtain ⟨after, hthe⟩ := hst.bytes_eq
    rw [← bytesOf_eq] at hthe
    have hsize : (bytesOf (covered ++ more)).length ≤ theirs.length := by
      rw [hthe, length_append]
      omega
    cases hc : iter.theirContent with
    | none =>
      -- without their ply nothing is covered
      have hnil : theirs = [] := by
        rw [← h.theirBytes, hc]
        rfl
      rw [hnil] at hthe
      have hall := bytesOf_eq_nil (append_eq_nil_iff.mp hthe.symm).1
      have hmore : covered ++ more = covered := by rw [hall, (append_eq_nil_iff.mp hall).1]
      rw [hmore]
      have hgv := ih (hstn iter.timestamp iter.item) hback
      refine gives_again ?_ hgv
      rw [h.pass, passMine, hcall]
      simp [hfnd, htype, typeTime, typeAck, hc]
    | some content =>
      have hcon : content = theirs := by
        rw [← h.theirBytes, hc]
        rfl
      have hp : pass iter = .again { iter with
          myReader := next
          theirReader := { iter.theirReader with offset := (bytesOf (covered ++ more)).length }
          inAck := true
          endRange := (bytesOf covered).length } := by
        rw [h.pass, passMine, hcall]
        simp only [hfnd, htype, hbody, hc, hcon]
        exact enterAck_covers (by omega) bytesOf_le hsize
      refine gives_again hp ?_
      rw [postedFrom_append, reverse_append, zero_add]
      refine gives_theirs hst (by rw [hc, hcon]) rfl ⟨rfl, h.inside⟩ rfl ?_
      intro iter' hsame hout hins
      have hstn' := hstn iter.timestamp iter.item
      have hnow : Standing iter' mine theirs := by
        refine ⟨?_, ?_, ?_, hins, hout⟩
        · rw [hsame.myContent]
          exact hstn'.starts
        · rw [hsame.myContent, hsame.myReader]
          exact hstn'.atMine
        rw [hsame.theirContent]
        exact h.theirBytes
      have hgv := ih hnow hback
      rwa [hsame.latest] at hgv

/-! ## The thread -/

theorem postedFrom_bounds (start : Nat) (records : List Theirs) : ∀ m ∈ postedFrom start records,
      (start : Int) < m.endOffset ∧ m.endOffset ≤ (start + (bytesOf records).length : Nat) := by
  induction records generalizing start with
  | nil => exact nofun
  | cons r records ih =>
    intro m hm
    rw [bytesOf_length_cons]
    rcases mem_append.mp hm with hm | hm
    · cases r with
      | message text short =>
        rw [mem_singleton.mp hm]
        dsimp only
        omega
      | ack off rest short | time body short => exact absurd hm not_mem_nil
    have := ih _ m hm
    omega

/-- The messages up to the end of the covered part are those of that part. -/
theorem filter_covered : (postedFrom 0 (covered ++ rest)).filter
        (fun m : Posted => decide (m.endOffset ≤ (bytesOf covered).length)) =
      postedFrom 0 covered := by
  have hin : ∀ m ∈ postedFrom 0 covered, decide (m.endOffset ≤ (bytesOf covered).length) = true := by
    intro m hm
    have := postedFrom_bounds 0 covered m hm
    exact decide_eq_true (by omega)
  have hout : ∀ m ∈ postedFrom (0 + (bytesOf covered).length) rest,
      ¬decide (m.endOffset ≤ (bytesOf covered).length) = true := by
    intro m hm
    have := postedFrom_bounds _ rest m hm
    simp only [decide_eq_true_eq]
    omega
  rw [postedFrom_append, filter_append, filter_eq_self.mpr hin, filter_eq_nil_iff.mpr hout, append_nil]

theorem lastAck_none {records : List Theirs} (h : ∀ x ∈ records, x.type ≠ typeAck) :
    lastAck before records = before := by
  induction records with
  | nil => rfl
  | cons r records ih =>
    have hrest := ih fun x hx => h x (mem_cons_of_mem _ hx)
    cases r with
    | ack off rest short => exact absurd rfl (h _ mem_cons_self)
    | message _ _ | time _ _ => exact hrest

/-- The iterator finds the offset in their latest ACK. -/
theorem latestAck_theirs {records : List Theirs}
    (hst : Starts (bytesOf records) (records.map Theirs.record)) :
    ∃ ply, latestAck (bytesOf records) = some (.ok, lastAck 0 records, ply) ∧
      Inside (bytesOf records).length ply := by
  obtain ⟨res, hrun, hsea⟩ := plyFindPrev_search hst typeAck
  rw [latestAck, bytesOf_eq, hrun, bind_some]
  generalize hmap : records.map Theirs.record = all at hsea
  cases hsea with
  | @found a b r ply htype hb hfnd hin =>
    obtain ⟨fr, back, hall, hfr, hback⟩ := map_eq_append_iff.mp hmap
    obtain ⟨fr, one, rfl, _, hone⟩ := map_eq_append_iff.mp hfr
    obtain ⟨x, rfl, hx⟩ := map_eq_singleton_iff.mp hone
    have hnone : ∀ y ∈ back, y.type ≠ typeAck := by
      intro y hy
      exact hb y.record (by rw [← hback]; exact List.mem_map_of_mem hy)
    refine ⟨ply, ?_, hin⟩
    rw [hall, lastAck_append, lastAck_append, lastAck_none hnone, if_pos rfl, hfnd, ← hx]
    rw [← hx] at htype
    cases x with
    | ack off rest short =>
      obtain ⟨v, hv, hn⟩ := unpackUint_pack off.isLt rest
      have hbody : (Theirs.ack off rest short).record.body = packUint (off.val : Nat) ++ rest := rfl
      simp only [hbody, hv, hn]
      rfl
    | message text short => exact absurd (show typeMessage = typeAck from htype) (by decide)
    | time body short => exact absurd (show typeTime = typeAck from htype) (by decide)
  | @absent _ ply hall _ hin =>
    have hnone : ∀ y ∈ records, y.type ≠ typeAck := by
      intro y hy
      exact hall y.record (by rw [← hmap]; exact List.mem_map_of_mem hy)
    refine ⟨ply, ?_, hin⟩
    rw [lastAck_none hnone]
    rfl

/-- What opening the iterator on two plies comes to. -/
theorem openPlies_stands (readOffset : Int) (h : Plies conv mine covered rest) (hread : Readable conv) :
    ∃ iter, openPlies readOffset conv = some (.ok, iter) ∧
      Standing iter mine (bytesOf (covered ++ rest)) ∧
      (mine ≠ [] → iter.latestAckMyOffset = lastAck 0 (covered ++ rest)) := by
  have hmine := h.mine
  have hthe := h.theirs
  have hcld : ∀ size, Inside size closed := fun _ _ hmem => absurd hmem not_mem_nil
  have hst := h.starts_mine hread
  have hst' := h.starts_theirs hread
  unfold openPlies
  generalize conv.myPly = ply at *
  cases ply with
  | none =>
    have hnil : mine = [] := bytes_eq_nil hmine.symm
    rw [hnil] at hst ⊢
    exact ⟨_, rfl, ⟨hst, ⟨rfl, hcld _⟩, hthe, hcld _, rfl⟩, fun hne => absurd rfl hne⟩
  | some content =>
    have hcon : content = bytes mine := hmine
    subst hcon
    generalize conv.theirPly = ply at *
    cases ply with
    | none =>
      refine ⟨_, rfl, ⟨hst, at_open, hthe, hcld _, rfl⟩, fun _ => ?_⟩
      rw [bytesOf_eq_nil hthe.symm]
      rfl
    | some theirs =>
      have hall : theirs = bytesOf (covered ++ rest) := hthe
      subst hall
      obtain ⟨ply, hlat, hin⟩ := latestAck_theirs hst'
      dsimp only
      rw [hlat, map_some]
      exact ⟨_, rfl, ⟨hst, at_open, rfl, hin, rfl⟩, fun _ => rfl⟩

/-- The thread that the iterator lists. -/
def Complete (thread : Thread) (items : List Item) : Prop :=
  items.filterMap Item.sent =
      (thread.conv.sent.map fun m : Posted => (m, decide (m.endOffset ≤ thread.theirAck))).reverse ∧
    items.filterMap Item.received =
      (thread.received.filter fun m : Posted => decide (m.endOffset ≤ thread.conv.acked)).reverse

/-- **In every run through threads whose footers lie inside pages, the iterator lists each message that
I have sent and each message in their ply up to my latest ACK**, once and from the last to the first,
and marks those of mine as delivered that their latest ACK covers. -/
theorem thread_complete {thread thread' : Thread} (h : Run (fun s => Small s ∧ Paged s) thread)
    (now : UInt32) (stored : Bool) (readOffset : Int) {iter : Iterator}
    (hopen : meshmsMessageIteratorOpen now stored readOffset thread = some (.ok, iter, thread'))
    (hsmall : Small thread') (hpaged : Paged thread') :
    ∃ items n, Complete thread' items ∧
      ∀ passes ≥ n, ∀ calls ≥ n, iterate passes calls iter = some (items, .ok) := by
  obtain ⟨hread, mine, covered, rest, htil⟩ := tiled_run h
  obtain ⟨st, listed, mine, covered, rest, hlist, htil⟩ := tiled_list now htil hread
  rw [meshmsMessageIteratorOpen, hlist, bind_some] at hopen
  obtain ⟨opened, hplies, heq⟩ := map_eq_some_iff.mp hopen
  obtain ⟨-, rfl, rfl⟩ : _ ∧ opened.2 = iter ∧ listed = thread' := by simpa using heq
  have hread' : Readable listed.conv := ⟨hsmall.1, hsmall.2, hpaged.1, hpaged.2⟩
  obtain ⟨iter, hopen', hstn, hlat⟩ := openPlies_stands readOffset htil.plies hread'
  cases hopen'.symm.trans hplies
  have hcovered : Starts (bytesOf (covered ++ rest)) (covered.map Theirs.record) := by
    have hst := htil.plies.starts_theirs hread'
    rw [map_append] at hst
    exact hst.left
  obtain ⟨items, hlists, hsent, hrcv⟩ := gives_mine htil.plies.log hstn hcovered
  obtain ⟨n, hn⟩ := iterate_lists hlists
  refine ⟨items, n, ⟨?_, ?_⟩, hn⟩
  · rw [hsent]
    by_cases hne : mine = []
    · rw [htil.plies.log.sent_nil hne]
      rfl
    rw [hlat hne, ← htil.theirAck]
    rfl
  · rw [hrcv, htil.received, htil.plies.acked, filter_covered]

/-! ## Two runs -/

theorem layout_bounds (start : Nat) (records : List Record) : ∀ f ∈ layout start records,
    (start : Int) + 3 ≤ f.endOffset ∧ f.endOffset ≤ (start + (bytes records).length : Nat) := by
  induction records generalizing start with
  | nil => exact forall_mem_nil _
  | cons r records ih =>
    have hbody := r.body_range
    have hcons : (bytes (r :: records)).length = r.body.length + 2 + (bytes records).length := by
      simp [bytes]
    refine forall_mem_cons.mpr ⟨by simp only; omega, fun f hf => ?_⟩
    have := ih _ f hf
    omega

/-- All footers of a ply in one page lie in it. -/
theorem paged_short (h : size ply ≤ 4096) : PlyPaged ply := by
  intro records hrec f hf
  obtain ⟨hlow, hhigh⟩ := layout_bounds 0 records f hf
  have hlen : (bytes records).length = size ply := congrArg length hrec.symm
  have hpage : RhizomeCrypt.pageSize = 4096 := rfl
  rw [hpage]
  omega

def stepWithin (limit : Nat) (thread : Thread) (event : Event) : Option Thread :=
  (thread.step event).filter fun s => decide (size s.conv.myPly ≤ limit ∧ size s.conv.theirPly ≤ limit)

theorem run_events {evs : List Event} {good : Thread → Prop} (h : Run good s)
    (hgood : ∀ s, size s.conv.myPly ≤ limit → size s.conv.theirPly ≤ limit → good s)
    (hrun : evs.foldlM (stepWithin limit) s = some s') : Run good s' := by
  refine foldlM_some (Run good) (fun s ev next hs hnext => ?_) h hrun
  obtain ⟨hstep, hsize⟩ := filter_eq_some_iff.mp hnext
  obtain ⟨hmine, htheirs⟩ := of_decide_eq_true hsize
  exact hs.step hstep (hgood _ hmine htheirs)

def talk : List Event :=
  [.grow [.message [104, 105] (by decide)], .send [121, 111] 7 true true,
    .grow [.ack 14 [] (by decide +kernel), .message [111, 107] (by decide)]]

theorem thread_complete_talk : ∃ thread thread' iter, Run (fun s => Small s ∧ Paged s) thread ∧
    meshmsMessageIteratorOpen 9 true 0 thread = some (.ok, iter, thread') ∧
    thread'.conv.sent.length = 1 ∧ thread'.received.length = 2 ∧ thread'.conv.acked = 13 ∧
    ∃ items n, Complete thread' items ∧
      ∀ passes ≥ n, ∀ calls ≥ n, iterate passes calls iter = some (items, .ok) := by
  have hgood (s : Thread) (hmine : size s.conv.myPly ≤ 4096) (htheirs : size s.conv.theirPly ≤ 4096) :
      Small s ∧ Paged s :=
    ⟨⟨lt_of_le_of_lt hmine (by decide), lt_of_le_of_lt htheirs (by decide)⟩, paged_short hmine,
      paged_short htheirs⟩
  have h : ((talk.foldlM (stepWithin 4096) .empty).bind (meshmsMessageIteratorOpen 9 true 0)).any (fun r =>
      r.1 == .ok && r.2.2.conv.sent.length == 1 && r.2.2.received.length == 2 &&
        r.2.2.conv.acked == 13 && decide (size r.2.2.conv.myPly ≤ 4096) &&
          decide (size r.2.2.conv.theirPly ≤ 4096)) = true := by decide +kernel
  obtain ⟨⟨st, iter, thread'⟩, hopen, hr⟩ := (Option.any_eq_true _ _).mp h
  obtain ⟨thread, hrun, hopen⟩ := bind_eq_some_iff.mp hopen
  simp only [Bool.and_eq_true, beq_iff_eq, decide_eq_true_eq] at hr
  obtain ⟨⟨⟨⟨⟨rfl, hsent⟩, hrcv⟩, hack⟩, hmine⟩, htheirs⟩ := hr
  have hthr := run_events .empty hgood hrun
  exact ⟨thread, thread', iter, hthr, hopen, hsent, hrcv, hack,
    thread_complete hthr 9 true 0 hopen (hgood _ hmine htheirs).1 (hgood _ hmine htheirs).2⟩

def longMessage : List UInt8 := replicate 4094 65

/-- The footer of a message with 4094 characters lies across two pages. The upper page is in the cache
from the time behind the message, and the iterator takes the ply to be at its end. -/
theorem long_message_lost : ∃ thread thread' iter, Run Small thread ∧
    meshmsMessageIteratorOpen 9 true 0 thread = some (.ok, iter, thread') ∧
    thread'.conv.sent.map Posted.text = [longMessage ++ [0]] ∧ iterate 2 1 iter = some ([], .ok) := by
  have hgood (s : Thread) (hmine : size s.conv.myPly ≤ 5000) (htheirs : size s.conv.theirPly ≤ 5000) :
      Small s := ⟨lt_of_le_of_lt hmine (by decide), lt_of_le_of_lt htheirs (by decide)⟩
  have h : (([Event.send longMessage 7 true true].foldlM (stepWithin 5000) .empty).bind
      (meshmsMessageIteratorOpen 9 true 0)).any (fun r => r.1 == .ok &&
        r.2.2.conv.sent.map Posted.text == [longMessage ++ [0]] && iterate 2 1 r.2.1 == some ([], .ok)) =
          true := by decide +kernel
  obtain ⟨⟨st, iter, thread'⟩, hopen, hr⟩ := (Option.any_eq_true _ _).mp h
  obtain ⟨thread, hrun, hopen⟩ := bind_eq_some_iff.mp hopen
  simp only [Bool.and_eq_true, beq_iff_eq] at hr
  obtain ⟨⟨rfl, hsent⟩, hlisted⟩ := hr
  exact ⟨thread, thread', iter, run_events .empty hgood hrun, hopen, hsent, hlisted⟩

end ThreadComplete
