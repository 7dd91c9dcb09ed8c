import ServalDna.BufferCodec
import ServalDna.PlyPages

/-!
# MeshMS threads

Each side of a conversation writes to a ply of its own. My ply has my messages, and an
ACK whenever I have seen new messages in their ply. The iterator walks my ply backwards
and, at each ACK, goes through the part of their ply that the ACK covers.

A number that `unpack_uint` leaves undetermined, by a shift of an `int` by too many
bits, ends a function of the model with `none`.
-/
namespace MeshmsThread

open MeshmsPly ListSlice OverlayBuffer BufferCodec
open PlyPages (InPages readPrev)

def typeAck : UInt8 := 1
def typeMessage : UInt8 := 2
def typeTime : UInt8 := 3

def meshmsFailed (status : Status) : Bool := status != .ok && status != .updated

/-! ## Numbers -/

def packUint (v : Int) : List UInt8 := packed (UInt64.ofInt v)

/-- What `unpack_uint` returns. -/
inductive Unpacked where
  | failed
  | undetermined
  | value (length : Nat) (v : UInt64)
  deriving DecidableEq

def unpackLoop (i : Nat) (v : Option UInt64) : List UInt8 → Unpacked
  | [] => .failed
  | byte :: bytes =>
    let v := do
      let sum ← v
      let bits ← shiftInt (byte &&& 0x7f) (i * 7)
      some (sum ||| intToUi64 bits)
    if byte &&& 0x80 ≠ 0 then unpackLoop (i + 1) v bytes
    else
      match v with
      | none => .undetermined
      | some v => .value (i + 1) v

def unpackUint (buffer : List UInt8) : Unpacked := unpackLoop 0 (some 0) buffer

def writeUint32 (v : UInt32) : List UInt8 :=
  [(v &&& 0xff).toUInt8, (v >>> 8 &&& 0xff).toUInt8, (v >>> 16 &&& 0xff).toUInt8,
    (v >>> 24 &&& 0xff).toUInt8]

def readUint32 (o : List UInt8) : UInt32 := (o.take 4).foldr (fun b v => v <<< 8 ||| b.toUInt32) 0

def appendTimestamp (now : UInt32) : Option (List UInt8) :=
  (appendFooter typeTime 4).map fun footer => writeUint32 now ++ footer

/-! ## Conversations -/

def closed : PlyRead := ⟨0, 0, 0, 0, [], []⟩

def findLoop (content : List UInt8) (type : UInt8) : Nat → PlyRead → Option (Status × PlyRead)
  | 0, _ => none
  | passes + 1, ply =>
    let called := readPrev content ply
    if called.1 = .updated ∧ called.2.type ≠ type then findLoop content type passes called.2
    else some called

/-- Each pass of the loop moves down by two bytes or more, so the passes suffice. -/
def plyFindPrev (content : List UInt8) (type : UInt8) (ply : PlyRead) : Option (Status × PlyRead) :=
  findLoop content type (content.length + 1) ply

/-- A message in a ply, with the offset behind its footer. -/
structure Posted where
  endOffset : Int
  text : List UInt8
  deriving DecidableEq

/-- `struct meshms_conversations`; a ply that was not found is `none`. The last two
fields are not in the source: the messages that I have sent, and the offset of my
latest ACK. -/
structure Conversation where
  myPly : Option (List UInt8)
  theirPly : Option (List UInt8)
  theirLastMessage : Int
  theirSize : Nat
  sent : List Posted
  acked : Int

def size (ply : Option (List UInt8)) : Nat := (ply.getD []).length

/-- `append_meshms_buffer`: the ply is created if there is none. The store may fail,
and then nothing changes. -/
def appendMeshmsBuffer (stored : Bool) (conv : Conversation) (buffer : List UInt8) :
    Status × Conversation :=
  if stored then (.updated, { conv with myPly := some (conv.myPly.getD [] ++ buffer) })
  else (.error, conv)

/-- The offset in my latest ACK, 0 if there is none. -/
def previousAck (myPly : Option (List UInt8)) : Option (Status × Int) :=
  match myPly with
  | none => some (.protocolFault, 0)
  | some content =>
    (plyFindPrev content typeAck (plyReadOpen content.length closed)).bind fun found =>
      if found.1 = .updated then
        match unpackUint found.2.found.body with
        | .failed => some (.ok, 0)
        | .undetermined => none
        | .value _ v => some (.ok, v.toNat)
      else some (found.1, 0)

def ackBody (last previous : Int) : List UInt8 :=
  packUint last ++ if previous ≠ 0 then packUint (last - previous) else []

def ackBuffer (now : UInt32) (last previous : Int) : Option (List UInt8) :=
  (appendFooter typeAck (ackBody last previous).length).bind fun footer =>
    (appendTimestamp now).map fun time => ackBody last previous ++ footer ++ time

/-- The end of `update_conversation`. -/
def Conversation.remember (conv : Conversation) (status : Status) : Status × Conversation :=
  (status, if meshmsFailed status then conv else { conv with theirSize := size conv.theirPly })

def acknowledge (now : UInt32) (stored : Bool) (conv : Conversation) (previous : Int) :
    Option (Status × Conversation) :=
  (ackBuffer now conv.theirLastMessage previous).map fun buffer =>
    let r := appendMeshmsBuffer stored conv buffer
    Conversation.remember (if stored then { r.2 with acked := conv.theirLastMessage } else r.2) r.1

/-- The part of `update_conversation` after their last message is found. Without an
outgoing ply its status is a fault, which the call that appends the ACK replaces. -/
def updateAck (now : UInt32) (stored : Bool) (conv : Conversation) : Option (Status × Conversation) :=
  (previousAck conv.myPly).bind fun previous =>
    if conv.myPly.isSome ∧ meshmsFailed previous.1 then some (conv.remember previous.1)
    else if conv.theirLastMessage ≤ previous.2 then some (conv.remember .updated)
    else acknowledge now stored conv previous.2

def updateConversation (now : UInt32) (stored : Bool) (conv : Conversation) :
    Option (Status × Conversation) :=
  match conv.theirPly with
  | none => some (.ok, conv)
  | some theirs =>
    (plyFindPrev theirs typeMessage (plyReadOpen theirs.length closed)).bind fun found =>
      if meshmsFailed found.1 then some (conv.remember found.1)
      else if conv.theirLastMessage = found.2.recordEndOffset then some (conv.remember .ok)
      else updateAck now stored { conv with theirLastMessage := found.2.recordEndOffset }

/-! ## Threads -/

/-- The two plies and my index of conversations. `received` and `theirAck` are not in
the source: the messages in their ply, and the offset in their latest ACK. -/
structure Thread where
  conv : Conversation
  received : List Posted
  theirAck : Nat

def Thread.empty : Thread := ⟨⟨none, none, 0, 0, [], 0⟩, [], 0⟩

/-- What `update_conversations` does with one conversation. -/
def updateGrown (now : UInt32) (stored : Bool) (conv : Conversation) :
    Option (Status × Conversation) :=
  if conv.theirSize ≠ size conv.theirPly then updateConversation now stored conv else some (.ok, conv)

/-- What is in the store afterwards: the index stays as it was unless it is saved. -/
def Conversation.kept (save : Bool) (old conv : Conversation) : Conversation :=
  if save then conv
  else { conv with theirLastMessage := old.theirLastMessage, theirSize := old.theirSize }

/-- `meshms_conversations_list`, for one conversation; the index is saved if all
conversations are listed. -/
def meshmsConversationsList (save : Bool) (now : UInt32) (stored : Bool) (thread : Thread) :
    Option (Status × Thread) :=
  (updateGrown now stored thread.conv).map fun r =>
    (r.1, { thread with conv := Conversation.kept (save && r.1 == .updated) thread.conv r.2 })

/-- `strncpy` into a buffer of the length of the message. -/
def strncpy (message : List UInt8) : List UInt8 :=
  message.takeWhile (· != 0) ++ List.replicate (message.length - (message.takeWhile (· != 0)).length) 0

def messageBody (message : List UInt8) : List UInt8 :=
  strncpy message ++ if message.getLast? ≠ some 0 then [0] else []

def messageBuffer (now : UInt32) (message : List UInt8) : Option (List UInt8) :=
  (appendFooter typeMessage (messageBody message).length).bind fun footer =>
    (appendTimestamp now).map fun time => messageBody message ++ footer ++ time

/-- The message is put into my ply; if an assertion fails on the way, it is not. -/
def postMessage (now : UInt32) (stored : Bool) (message : List UInt8) (conv : Conversation) :
    Conversation :=
  match messageBuffer now message with
  | none => conv
  | some buffer =>
    let r := appendMeshmsBuffer stored conv buffer
    if stored then
      { r.2 with
        sent := conv.sent ++ [⟨(size conv.myPly + (messageBody message).length + 2 : Nat), messageBody message⟩] }
    else r.2

def meshmsSendMessage (now : UInt32) (ackStored stored : Bool) (message : List UInt8) (thread : Thread) :
    Option Thread :=
  if message = [] ∨ messageMaxLen < message.length then some thread
  else
    (meshmsConversationsList false now ackStored thread).map fun r =>
      if meshmsFailed r.1 then r.2
      else { r.2 with conv := postMessage now stored message r.2.conv }

/-- A record of their ply. A message ends with NUL, and an ACK starts with the offset
that it acknowledges. -/
inductive Theirs where
  | message (text : List UInt8) (short : text.length < messageMaxLen)
  | ack (offset : Fin (2 ^ 31)) (rest : List UInt8)
      (short : (packUint offset.val ++ rest).length ≤ messageMaxLen)
  | time (body : List UInt8) (short : 1 ≤ body.length ∧ body.length ≤ messageMaxLen)

def Theirs.type : Theirs → UInt8
  | .message .. => typeMessage
  | .ack .. => typeAck
  | .time .. => typeTime

def Theirs.body : Theirs → List UInt8
  | .message text _ => text ++ [0]
  | .ack offset rest _ => packUint offset.val ++ rest
  | .time body _ => body

theorem packUint_pos (v : Int) : 1 ≤ (packUint v).length :=
  List.length_pos_iff.mpr (packed_ne_nil _)

def Theirs.record (r : Theirs) : Record where
  type := r.type
  body := r.body
  type_range := by cases r <;> (simp only [Theirs.type]; decide)
  body_range := by
    cases r with
    | message text short =>
      simp only [Theirs.body, List.length_append, List.length_singleton]
      omega
    | ack offset rest short =>
      have := packUint_pos offset.val
      simp only [Theirs.body]
      simp only [List.length_append] at short ⊢
      omega
    | time body short => exact short

def bytesOf (records : List Theirs) : List UInt8 := (records.map Theirs.record).flatMap Record.bytes

/-- The messages among records that start at an offset. -/
def postedFrom (start : Nat) : List Theirs → List Posted
  | [] => []
  | r :: records =>
    let stop := start + r.body.length + 2
    (match r with
      | .message text _ => [⟨stop, text ++ [0]⟩]
      | _ => []) ++ postedFrom stop records

def lastAck (before : Nat) : List Theirs → Nat
  | [] => before
  | .ack offset _ _ :: records => lastAck offset.val records
  | _ :: records => lastAck before records

def Thread.grow (thread : Thread) (records : List Theirs) : Thread where
  conv := { thread.conv with theirPly := some (thread.conv.theirPly.getD [] ++ bytesOf records) }
  received := thread.received ++ postedFrom (size thread.conv.theirPly) records
  theirAck := lastAck thread.theirAck records

inductive Event where
  | send (message : List UInt8) (now : UInt32) (ackStored stored : Bool)
  | grow (records : List Theirs)
  | list (save : Bool) (now : UInt32) (stored : Bool)

def Thread.step (thread : Thread) : Event → Option Thread
  | .send message now ackStored stored => meshmsSendMessage now ackStored stored message thread
  | .grow records => some (thread.grow records)
  | .list save now stored => (meshmsConversationsList save now stored thread).map Prod.snd

/-- The offsets of both plies are below 2^31. -/
def Small (thread : Thread) : Prop :=
  size thread.conv.myPly < 2 ^ 31 ∧ size thread.conv.theirPly < 2 ^ 31

/-- However a ply is cut into records, none of their footers lies across two pages. -/
def PlyPaged (ply : Option (List UInt8)) : Prop :=
  ∀ records, ply.getD [] = records.flatMap Record.bytes → InPages records

def Paged (thread : Thread) : Prop := PlyPaged thread.conv.myPly ∧ PlyPaged thread.conv.theirPly

/-- The threads that are reached through threads that are `good`. -/
inductive Run (good : Thread → Prop) : Thread → Prop where
  | empty : Run good .empty
  | step {s s' : Thread} {event : Event} : Run good s → s.step event = some s' → good s' → Run good s'

/-! ## The iterator -/

inductive Item where
  | messageSent (message : Posted) (delivered : Bool) (timestamp : UInt32)
  | messageReceived (message : Posted) (read : Bool) (timestamp : UInt32)
  | ackReceived (offset : Int) (ackOffset : Unpacked) (timestamp : UInt32)
  deriving DecidableEq

/-- `struct meshms_message_iterator`. -/
structure Iterator where
  myContent : List UInt8
  theirContent : Option (List UInt8)
  readOffset : Int
  latestAckMyOffset : Nat
  myReader : PlyRead
  theirReader : PlyRead
  endRange : Int
  inAck : Bool
  timestamp : UInt32
  item : Option Item

def latestAck (content : List UInt8) : Option (Status × Nat × PlyRead) :=
  (plyFindPrev content typeAck (plyReadOpen content.length closed)).bind fun found =>
    if found.1 = .updated then
      match unpackUint found.2.found.body with
      | .failed => some (.ok, 0, found.2)
      | .undetermined => none
      | .value _ v => some (.ok, v.toNat, found.2)
    else some (found.1, 0, found.2)

/-- The part of `meshms_message_iterator_open` after the conversation is found. -/
def openPlies (readOffset : Int) (conv : Conversation) : Option (Status × Iterator) :=
  let blank : Iterator := ⟨[], conv.theirPly, readOffset, 0, closed, closed, 0, false, 0, none⟩
  match conv.myPly with
  | none => some (.ok, blank)
  | some mine =>
    let iter := { blank with myContent := mine, myReader := plyReadOpen mine.length closed }
    match conv.theirPly with
    | none => some (.ok, iter)
    | some theirs =>
      (latestAck theirs).map fun found =>
        (found.1, { iter with
          latestAckMyOffset := found.2.1
          theirReader := { found.2.2 with offset := theirs.length } })

def meshmsMessageIteratorOpen (now : UInt32) (stored : Bool) (readOffset : Int) (thread : Thread) :
    Option (Status × Iterator × Thread) :=
  (meshmsConversationsList false now stored thread).bind fun r =>
    (openPlies readOffset r.2.conv).map fun opened =>
      (if meshmsFailed r.1 then r.1 else opened.1, opened.2, r.2)

/-- One pass of the loop in `meshms_message_iterator_prev`. -/
inductive Pass where
  | again (iter : Iterator)
  | returns (status : Status) (iter : Iterator)
  | undetermined

def passTheirs (iter : Iterator) : Pass :=
  let called := readPrev (iter.theirContent.getD []) iter.theirReader
  let found := called.2.found
  let iter := { iter with theirReader := called.2 }
  if meshmsFailed called.1 then .returns called.1 iter
  else if called.1 = .updated ∧ iter.endRange ≤ called.2.offset then
    if found.type = typeAck then
      .returns .updated
        { iter with item := some (.ackReceived found.endOffset (unpackUint found.body) iter.timestamp) }
    else if found.type = typeMessage then
      if found.body.getLast? = some 0 then
        .returns .updated { iter with
          item := some (.messageReceived ⟨found.endOffset, found.body⟩
            (decide (found.endOffset ≤ iter.readOffset)) iter.timestamp) }
      else .returns .protocolFault iter
    else .again iter
  else .again { iter with inAck := false }

def enterAck (iter : Iterator) (theirs body : List UInt8) : Pass :=
  match unpackUint body with
  | .failed => .returns .protocolFault iter
  | .undetermined => .undetermined
  | .value length v =>
    let offset := if v.toNat > theirs.length then theirs.length else v.toNat
    let start := { iter with theirReader := { iter.theirReader with offset := offset }, inAck := true }
    match unpackUint (body.drop length) with
    | .failed => .again { start with endRange := 0 }
    | .undetermined => .undetermined
    | .value _ delta => .again { start with endRange := v.toNat - delta.toNat }

def passMine (iter : Iterator) : Pass :=
  let called := readPrev iter.myContent iter.myReader
  let found := called.2.found
  let iter := { iter with myReader := called.2 }
  if called.1 ≠ .updated then .returns called.1 iter
  else if found.type = typeTime then
    if found.length < 4 then .returns .protocolFault iter
    else .again { iter with timestamp := readUint32 found.body }
  else if found.type = typeAck then
    match iter.theirContent with
    | none => .again iter
    | some theirs => enterAck iter theirs found.body
  else if found.type = typeMessage then
    .returns .updated { iter with
      item := some (.messageSent ⟨found.endOffset, found.body⟩
        (iter.latestAckMyOffset != 0 && decide (found.endOffset ≤ iter.latestAckMyOffset)) iter.timestamp) }
  else .again iter

def pass (iter : Iterator) : Pass := if iter.inAck then passTheirs iter else passMine iter

/-- `meshms_message_iterator_prev`; `none` if `passes` passes were not enough. -/
def meshmsMessageIteratorPrev : Nat → Iterator → Option (Status × Iterator)
  | 0, _ => none
  | passes + 1, iter =>
    match pass iter with
    | .again iter => meshmsMessageIteratorPrev passes iter
    | .returns status iter => some (status, iter)
    | .undetermined => none

/-- Call the iterator while it returns `MESHMS_STATUS_UPDATED`: the items that it was at,
and what the last call returns. -/
def iterate (passes : Nat) : Nat → Iterator → Option (List Item × Status)
  | 0, _ => none
  | calls + 1, iter =>
    (meshmsMessageIteratorPrev passes iter).bind fun called =>
      if called.1 = .updated then
        (iterate passes calls called.2).map fun r => (called.2.item.toList ++ r.1, r.2)
      else some ([], called.1)

def Item.sent : Item → Option (Posted × Bool)
  | .messageSent message delivered _ => some (message, delivered)
  | _ => none

def Item.received : Item → Option Posted
  | .messageReceived message _ _ => some message
  | _ => none

end MeshmsThread
