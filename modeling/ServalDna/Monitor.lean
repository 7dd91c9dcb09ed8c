import Mathlib.Data.List.Basic
import Mathlib.Data.List.GetD
import Mathlib.Data.Int.Init
import ServalDna.TextCodec

/-!
# The monitor server's stream parser

A monitor client sends command lines, each optionally announcing a block of
binary data (`*length:command`). `monitor_client_poll` is called whenever the
socket has something to say; it reads the line byte by byte, then the data block
in as many pieces as the kernel hands out, and keeps its place in the
`monitor_context` between calls. The kernel is an oracle that decides what each
read of a poll returns. What a run of polls passes on is compared with a parser
that sees one byte at a time.
-/
namespace Monitor

open List TextCodec

def lineLength : Nat := 160

/-- `MONITOR_DATA_SIZE`, which is `MAX_AUDIO_BYTES`. -/
def dataSize : Int := 1024

inductive MonitorState where
  | unused
  | command
  | data
  deriving DecidableEq, Repr

/-- `line` has the `line_length` characters read so far. `buffer` is the memory
around the array, addressed from its first element. -/
structure MonitorContext where
  line : List UInt8
  state : MonitorState
  buffer : Int → UInt8
  dataExpected : Int
  dataOffset : Int

inductive Errno where
  | eintr
  | enotrecoverable
  | eagain
  | other
  deriving DecidableEq, Repr

/-- What the kernel does with one read: it returns at most `most + 1` of the bytes
asked for, or as many of them as there are, or it fails. -/
inductive Decision where
  | give (most : Option Nat)
  | fail (errno : Errno)
  deriving DecidableEq, Repr

/-- The calls that a poll makes. A read of the data block that fails with
`EAGAIN` or `EINTR` is `transient`. -/
inductive Event where
  | readLine (index : Nat)
  | announce (length : Int)
  | readData (start count : Int) (transient : Bool)
  | processCommand (line data : List UInt8)
  deriving DecidableEq, Repr

structure Outcome where
  context : MonitorContext
  stream : List UInt8
  reads : Nat
  events : List Event
  returned : Bool

/-! ## The C library -/

/-- `atoi`, which C leaves undefined for numbers that do not fit an `int`. -/
def atoi (s : List UInt8) : Int :=
  match s.dropWhile isspace with
  | 45 :: digits => -(digitsValue (digits.takeWhile isdigit) : Int)
  | 43 :: digits => digitsValue (digits.takeWhile isdigit)
  | digits => digitsValue (digits.takeWhile isdigit)

def readBytes (count : Nat) (most : Option Nat) (stream : List UInt8) : List UInt8 :=
  stream.take (min count ((most.map Nat.succ).getD count))

def store (buffer : Int → UInt8) (start : Int) (bytes : List UInt8) : Int → UInt8 :=
  fun i => if start ≤ i ∧ i < start + bytes.length then bytes.getD (i - start).toNat 0 else buffer i

/-! ## `monitor_client_poll` -/

def monitorClose (c : MonitorContext) : MonitorContext := { c with state := .unused }

def resetParsing (c : MonitorContext) : MonitorContext :=
  { c with state := .command, dataExpected := 0, dataOffset := 0, line := [] }

/-- The end of one round of the `MONITOR_STATE_COMMAND` loop: what it does with a
character that was read into `line[line_length]`. -/
def takeChar (c : MonitorContext) (ch : UInt8) : MonitorContext × List Event :=
  if ch = 13 then (c, [])
  else if c.dataExpected = 0 ∧ (c.line ++ [ch]).head? = some 42 ∧ ch = 58 then
    ({ c with dataExpected := atoi (c.line.drop 1), line := [] }, [.announce (atoi (c.line.drop 1))])
  else if ch = 10 then ({ c with state := .data, dataOffset := 0 }, [])
  else ({ c with line := c.line ++ [ch] }, [])

/-- The `MONITOR_STATE_COMMAND` loop, with `reads` reads made in this poll. -/
def commandLoop (oracle : Nat → Decision) (reads : Nat) (c : MonitorContext)
    (stream : List UInt8) : Outcome :=
  if c.line.length ≥ lineLength then
    ⟨monitorClose { c with line := [] }, stream, reads, [], true⟩
  else
    match oracle reads with
    | .fail errno =>
      ⟨if errno = .other then monitorClose c else c, stream, reads + 1, [.readLine c.line.length], true⟩
    | .give _ =>
      match stream with
      | [] => ⟨c, [], reads + 1, [.readLine c.line.length], false⟩
      | ch :: rest =>
        let (c', events) := takeChar c ch
        if c'.state = .data then ⟨c', rest, reads + 1, .readLine c.line.length :: events, false⟩
        else
          let r := commandLoop oracle (reads + 1) c' rest
          { r with events := .readLine c.line.length :: events ++ r.events }

/-- The bytes of the data block that `monitor_process_command` gets to see. -/
def dataBlock (c : MonitorContext) : List UInt8 :=
  (List.range c.dataExpected.toNat).map (fun i : Nat => c.buffer i)

/-- The end of the `MONITOR_STATE_DATA` case: process the command once the data
block is complete. -/
def finishData (c : MonitorContext) (stream : List UInt8) (reads : Nat) (events : List Event) :
    Outcome :=
  if c.dataOffset < c.dataExpected then ⟨c, stream, reads, events, false⟩
  else ⟨resetParsing c, stream, reads, events ++ [.processCommand c.line (dataBlock c)], false⟩

/-- The `MONITOR_STATE_DATA` case. A read that returns no bytes leaves `errno`
at zero and closes the socket. -/
def dataPhase (oracle : Nat → Decision) (reads : Nat) (c : MonitorContext)
    (stream : List UInt8) : Outcome :=
  let count := c.dataExpected - c.dataOffset
  if count > 0 then
    match oracle reads with
    | .fail errno =>
      if errno = .eagain ∨ errno = .eintr then
        finishData { c with dataOffset := c.dataOffset + -1 } stream (reads + 1)
          [.readData c.dataOffset count true]
      else ⟨monitorClose c, stream, reads + 1, [.readData c.dataOffset count false], true⟩
    | .give most =>
      let bytes := readBytes count.toNat most stream
      if bytes = [] then
        ⟨monitorClose c, stream, reads + 1, [.readData c.dataOffset count false], true⟩
      else
        finishData { c with
            buffer := store c.buffer c.dataOffset bytes
            dataOffset := c.dataOffset + bytes.length }
          (stream.drop bytes.length) (reads + 1) [.readData c.dataOffset count false]
  else finishData c stream reads []

/-- The flags of `poll.revents` and what the reads of the poll return. -/
structure Poll where
  pollin : Bool
  hangup : Bool
  oracle : Nat → Decision

/-- The `switch` of `monitor_client_poll`. -/
def pollState (oracle : Nat → Decision) (c : MonitorContext) (stream : List UInt8) : Outcome :=
  match c.state with
  | .command =>
    let r := commandLoop oracle 0 c stream
    if r.returned = true ∨ r.context.state ≠ .data then r
    else
      let r' := dataPhase oracle r.reads r.context r.stream
      { r' with events := r.events ++ r'.events }
  | .data => dataPhase oracle 0 c stream
  | .unused => ⟨resetParsing c, stream, 0, [], false⟩

/-- The check for `POLLHUP` and `POLLERR`, unless the poll has returned. -/
def checkHangup (poll : Poll) (r : Outcome) : Outcome :=
  if r.returned = false ∧ poll.hangup = true then { r with context := monitorClose r.context }
  else r

variable (poll : Poll)

@[simp] theorem checkHangup_events : (checkHangup poll r).events = r.events := by
  rw [checkHangup]
  split <;> rfl

@[simp] theorem checkHangup_stream : (checkHangup poll r).stream = r.stream := by
  rw [checkHangup]
  split <;> rfl

def monitorClientPoll (poll : Poll) (c : MonitorContext) (stream : List UInt8) : Outcome :=
  checkHangup poll (if poll.pollin then pollState poll.oracle c stream else ⟨c, stream, 0, [], false⟩)

/-- Polls of one client until its socket is closed. -/
def runPolls : List Poll → MonitorContext → List UInt8 → Outcome
  | [], c, stream => ⟨c, stream, 0, [], false⟩
  | poll :: polls, c, stream =>
    if c.state = .unused then ⟨c, stream, 0, [], false⟩
    else
      let r := monitorClientPoll poll c stream
      let r' := runPolls polls r.context r.stream
      { r' with events := r.events ++ r'.events }

/-- `monitor_new_client` on a context that another client may have used before. -/
def monitorNewClient (c : MonitorContext) : MonitorContext :=
  { c with line := [], state := .command }

/-! ## The parser that sees one byte at a time -/

/-- `block` has the data bytes seen so far once the command line is complete. -/
structure Parser where
  line : List UInt8
  expected : Int
  block : Option (List UInt8)
  deriving DecidableEq, Repr

/-- The next byte, and the command with its data that it completes, if any. -/
def feed (p : Parser) (ch : UInt8) : Parser × List (List UInt8 × List UInt8) :=
  match p.block with
  | some got =>
    if (got.length : Int) + 1 < p.expected then ({ p with block := some (got ++ [ch]) }, [])
    else (⟨[], 0, none⟩, [(p.line, got ++ [ch])])
  | none =>
    if ch = 13 then (p, [])
    else if p.expected = 0 ∧ (p.line ++ [ch]).head? = some 42 ∧ ch = 58 then
      (⟨[], atoi (p.line.drop 1), none⟩, [])
    else if ch = 10 then
      if 0 < p.expected then ({ p with block := some [] }, [])
      else (⟨[], 0, none⟩, [(p.line, [])])
    else ({ p with line := p.line ++ [ch] }, [])

def feedAll : Parser → List UInt8 → Parser × List (List UInt8 × List UInt8)
  | p, [] => (p, [])
  | p, ch :: rest =>
    ((feedAll (feed p ch).1 rest).1, (feed p ch).2 ++ (feedAll (feed p ch).1 rest).2)

theorem feedAll_append : feedAll p (xs ++ ys) =
      ((feedAll (feedAll p xs).1 ys).1, (feedAll p xs).2 ++ (feedAll (feedAll p xs).1 ys).2) := by
  induction xs generalizing p with
  | nil => simp [feedAll]
  | cons ch xs ih => simp [feedAll, ih]

/-- Bytes of a data block are collected up to the announced length. -/
theorem feedAll_block (line : List UInt8) (expected : Int) (got bytes : List UInt8)
    (hne : bytes ≠ []) (hle : (got.length : Int) + bytes.length ≤ expected) :
    feedAll ⟨line, expected, some got⟩ bytes = if (got.length : Int) + bytes.length < expected then
        (⟨line, expected, some (got ++ bytes)⟩, [])
      else (⟨[], 0, none⟩, [(line, got ++ bytes)]) := by
  induction bytes generalizing got with
  | nil => exact absurd rfl hne
  | cons ch bytes ih =>
    cases bytes with
    | nil =>
      by_cases hlt : (got.length : Int) + 1 < expected
      · simp [feedAll, feed, hlt]
      · simp [feedAll, feed, hlt]
    | cons ch' bytes =>
      have hlong : (got.length : Int) + 1 < expected := by
        simp only [length_cons] at hle
        omega
      have hrest := ih (got ++ [ch]) (cons_ne_nil _ _) (by simp at hle ⊢; omega)
      rw [feedAll, feed]
      simp only [hlong, if_true, hrest, nil_append]
      simp [Int.add_comm, Int.add_left_comm]

/-- The parser never meets a character in a line that is already full. -/
def Fits : Parser → List UInt8 → Prop
  | _, [] => True
  | p, ch :: rest => (p.block = none → p.line.length < lineLength) ∧ Fits (feed p ch).1 rest

theorem fits_append (xs : List UInt8) : Fits p (xs ++ ys) ↔ Fits p xs ∧ Fits (feedAll p xs).1 ys := by
  induction xs generalizing p with
  | nil => simp [Fits, feedAll]
  | cons ch xs ih => simp [Fits, feedAll, ih, and_assoc]

theorem fits_block (line : List UInt8) (got bytes : List UInt8)
    (hle : (got.length : Int) + bytes.length ≤ expected) :
    Fits ⟨line, expected, some got⟩ bytes := by
  induction bytes generalizing got with
  | nil => trivial
  | cons ch bytes ih =>
    refine ⟨by simp, ?_⟩
    cases bytes with
    | nil => trivial
    | cons ch' bytes =>
      simp only [length_cons] at hle
      have hmore : (got.length : Int) + 1 < expected := by omega
      simp only [feed, hmore, if_true]
      exact ih (got ++ [ch]) (by simp; omega)

/-! ## The polls follow the parser -/

/-- The commands passed to `monitor_process_command`. -/
def commands : List Event → List (List UInt8 × List UInt8)
  | [] => []
  | .processCommand line data :: events => (line, data) :: commands events
  | _ :: events => commands events

theorem commands_append : commands (xs ++ ys) = commands xs ++ commands ys := by
  induction xs with
  | nil => rfl
  | cons e xs ih => cases e <;> simp [commands, ih]

/-- The parser that waits for the rest of the command line. -/
abbrev waiting (c : MonitorContext) : Parser := ⟨c.line, c.dataExpected, none⟩

/-- A character of the command line is skipped, kept or announces a data block, or it
ends the line. -/
theorem takeChar_cases (c : MonitorContext) (ch : UInt8) :
    ((takeChar c ch).1.state = c.state ∧ feed (waiting c) ch = (waiting (takeChar c ch).1, []) ∧
      commands (takeChar c ch).2 = []) ∨
    (takeChar c ch = ({ c with state := .data, dataOffset := 0 }, []) ∧
      feed (waiting c) ch = if 0 < c.dataExpected then (⟨c.line, c.dataExpected, some []⟩, [])
        else (⟨[], 0, none⟩, [(c.line, [])])) := by
  rw [feed]
  fun_cases takeChar with
  | case1 hskip => exact .inl ⟨rfl, if_pos hskip, rfl⟩
  | case2 hskip hcol =>
    rw [if_neg hskip, if_pos hcol]
    exact .inl ⟨rfl, rfl, rfl⟩
  | case3 hskip hcol hend =>
    rw [if_neg hskip, if_neg hcol, if_pos hend]
    exact .inr ⟨rfl, rfl⟩
  | case4 hskip hcol hend =>
    rw [if_neg hskip, if_neg hcol, if_neg hend]
    exact .inl ⟨rfl, rfl, rfl⟩

/-- What the loop has done when it ends with a whole line: the bytes before the
newline took the parser to the line, and the newline starts the data block. -/
def LineRead (c : MonitorContext) (stream : List UInt8) (r : Outcome) : Prop :=
  ∃ bytes ch, stream = bytes ++ ch :: r.stream ∧ commands r.events = [] ∧ r.returned = false ∧
    r.context.dataOffset = 0 ∧ feedAll (waiting c) bytes = (waiting r.context, []) ∧
    feed (waiting r.context) ch = (if 0 < r.context.dataExpected
      then (⟨r.context.line, r.context.dataExpected, some []⟩, [])
      else (⟨[], 0, none⟩, [(r.context.line, [])])) ∧
    Fits (waiting c) (bytes ++ [ch])

/-- What the loop has done when the line is not complete. -/
def LinePending (c : MonitorContext) (stream : List UInt8) (r : Outcome) : Prop :=
  ∃ bytes, stream = bytes ++ r.stream ∧ commands r.events = [] ∧
    (feedAll (waiting c) bytes).2 = [] ∧ Fits (waiting c) bytes ∧
    (r.context.state = .command → (feedAll (waiting c) bytes).1 = waiting r.context)

variable (oracle : Nat → Decision)

/-- A round of the loop that gets no character: the line is full, the read fails,
or the stream has ended. -/
structure Stopped (oracle : Nat → Decision) (c : MonitorContext) (stream : List UInt8)
    (r : Outcome) : Prop where
  cause : (lineLength ≤ c.line.length ∧ r.context.state = .unused) ∨
    (∃ i errno, oracle i = .fail errno) ∨ (stream = [] ∧ r.context = c)
  stream_eq : r.stream = stream
  events_eq : r.events = [] ∨ (c.line.length < lineLength ∧ r.events = [.readLine c.line.length])
  context_eq : r.context = c ∨ (r.context.state = .unused ∧
    r.context.dataOffset = c.dataOffset ∧ r.context.dataExpected = c.dataExpected)

theorem commandLoop_cases (reads : Nat) : Stopped oracle c str (commandLoop oracle reads c str) ∨
    (c.line.length < lineLength ∧ (∃ most, oracle reads = .give most) ∧
      ∃ ch rest, str = ch :: rest) := by
  by_cases hfull : c.line.length ≥ lineLength
  · rw [commandLoop.eq_def, if_pos hfull]
    exact .inl ⟨.inl ⟨hfull, rfl⟩, rfl, .inl rfl, .inr ⟨rfl, rfl, rfl⟩⟩
  rw [commandLoop.eq_def, if_neg hfull]
  cases hora : oracle reads with
  | fail errno =>
    refine .inl ⟨.inr (.inl ⟨reads, errno, hora⟩), rfl, .inr ⟨by omega, rfl⟩, ?_⟩
    by_cases hoth : errno = .other
    · simp only [if_pos hoth]
      exact .inr ⟨rfl, rfl, rfl⟩
    · exact .inl (if_neg hoth)
  | give most =>
    cases str with
    | nil =>
      exact .inl ⟨.inr (.inr ⟨rfl, rfl⟩), rfl, .inr ⟨by omega, rfl⟩, .inl rfl⟩
    | cons ch rest => exact .inr ⟨by omega, ⟨most, rfl⟩, ch, rest, rfl⟩

/-- Induction along the rounds of the loop: it stops, it reads a character of the
line, or it reads the end of the line. -/
theorem commandLoop_induct {motive : MonitorContext → List UInt8 → Outcome → Prop}
    (stop : ∀ c str r, c.state = .command → Stopped oracle c str r → motive c str r)
    (more : ∀ c ch rest r, c.line.length < lineLength → (takeChar c ch).1.state = .command →
      feed (waiting c) ch = (waiting (takeChar c ch).1, []) → commands (takeChar c ch).2 = [] →
      motive (takeChar c ch).1 rest r →
      motive c (ch :: rest)
        { r with events := .readLine c.line.length :: (takeChar c ch).2 ++ r.events })
    (line : ∀ c ch rest reads, c.line.length < lineLength →
      feed (waiting c) ch = (if 0 < c.dataExpected then (⟨c.line, c.dataExpected, some []⟩, [])
        else (⟨[], 0, none⟩, [(c.line, [])])) →
      motive c (ch :: rest) ⟨{ c with state := .data, dataOffset := 0 }, rest, reads,
        [.readLine c.line.length], false⟩) (reads : Nat) (c : MonitorContext) (str : List UInt8)
    (h : c.state = .command) : motive c str (commandLoop oracle reads c str) := by
  induction str generalizing reads c with
  | nil =>
    obtain hstop | ⟨-, -, ch, rest, hstr⟩ := commandLoop_cases oracle reads
    · exact stop c [] _ h hstop
    · cases hstr
  | cons ch rest ih =>
    obtain hstop | ⟨hfits, ⟨most, hgive⟩, -⟩ := commandLoop_cases oracle reads
    · exact stop c _ _ h hstop
    rw [commandLoop, if_neg (by omega), hgive]
    obtain ⟨hste, hfeed, hevs⟩ | ⟨htake, hfeed⟩ := takeChar_cases c ch
    · rw [h] at hste
      simp only [hste]
      exact more c ch rest _ hfits hste hfeed hevs (ih (reads + 1) _ hste)
    rw [htake]
    exact line c ch rest (reads + 1) hfits hfeed

theorem linePending_stopped (h : Stopped oracle c stream r) : LinePending c stream r := by
  refine ⟨[], h.stream_eq.symm, ?_, rfl, trivial, fun hste => ?_⟩
  · obtain hnone | ⟨-, hone⟩ := h.events_eq
    · rw [hnone, commands]
    rw [hone]
    rfl
  obtain hsame | ⟨hcld, -⟩ := h.context_eq
  · rw [hsame, feedAll]
  rw [hcld] at hste
  cases hste

theorem stopped_state (h : Stopped oracle c str r) (hc : c.state = .command) :
    r.context.state ≠ .data := by
  obtain hsame | ⟨hcld, -⟩ := h.context_eq
  · simp [hsame, hc]
  · simp [hcld]

/-- The loop follows the parser up to the end of the line. -/
theorem commandLoop_spec (reads : Nat) (str : List UInt8) (h : c.state = .command) :
    ((commandLoop oracle reads c str).context.state = .data →
      LineRead c str (commandLoop oracle reads c str)) ∧
    ((commandLoop oracle reads c str).context.state ≠ .data →
      LinePending c str (commandLoop oracle reads c str)) := by
  apply commandLoop_induct oracle (motive := fun c str r =>
    (r.context.state = .data → LineRead c str r) ∧
      (r.context.state ≠ .data → LinePending c str r)) _ _ _ reads c str h
  · intro c str r hc hstop
    exact ⟨fun hdata => absurd hdata (stopped_state oracle hstop hc), fun _ => linePending_stopped oracle hstop⟩
  · intro c ch rest r hfits hste hfeed hevs hrest
    have hcons : ∀ bytes, Fits (waiting (takeChar c ch).1) bytes → Fits (waiting c) (ch :: bytes) :=
      fun bytes h => ⟨fun _ => hfits, by rw [hfeed]; exact h⟩
    constructor
    · intro hdata
      obtain ⟨bytes, ch', hstr, hcmds, hret, hoff, hall, hline, hbs⟩ := hrest.1 hdata
      refine ⟨ch :: bytes, ch', by simp [hstr], ?_, hret, hoff, ?_, hline, hcons _ hbs⟩
      · simp [commands_append, commands, hevs, hcmds]
      · simp [feedAll, hfeed, hall]
    intro hdata
    obtain ⟨bytes, hstr, hcmds, hall, hbs, hline⟩ := hrest.2 hdata
    refine ⟨ch :: bytes, by simp [hstr], ?_, ?_, hcons _ hbs, fun hcom => ?_⟩
    · simp [commands_append, commands, hevs, hcmds]
    · simp [feedAll, hfeed, hall]
    · simp [feedAll, hfeed, hline hcom]
  intro c ch rest reads hfits hfeed
  exact ⟨fun _ => ⟨[], ch, rfl, rfl, rfl, rfl, rfl, hfeed, fun _ => hfits, trivial⟩,
    fun hdata => absurd rfl hdata⟩

/-- The context holds what the parser holds. A closed one holds nothing. -/
def Refines (c : MonitorContext) (p : Parser) : Prop :=
  match c.state with
  | .unused => True
  | .command => p = waiting c
  | .data => ∃ got, p = ⟨c.line, c.dataExpected, some got⟩ ∧ c.dataOffset = got.length ∧
      (got.length : Int) < c.dataExpected ∧ ∀ i : Nat, i < got.length → c.buffer i = got.getD i 0

/-- The outcome is what the parser makes of the bytes that were taken from the stream. -/
def Advances (p : Parser) (stream : List UInt8) (r : Outcome) : Prop :=
  ∃ bytes, stream = bytes ++ r.stream ∧ commands r.events = (feedAll p bytes).2 ∧
    Refines r.context (feedAll p bytes).1 ∧ Fits p bytes

/-- No read of the data block fails with `EAGAIN` or `EINTR`. -/
def NoTransient (events : List Event) : Prop :=
  ∀ start count, Event.readData start count true ∉ events

theorem advances_idle (h : Refines c p) : Advances p str ⟨c, str, reads, [], returned⟩ :=
  ⟨[], rfl, rfl, h, trivial⟩

theorem readBytes_length (count : Nat) (most : Option Nat) (str : List UInt8) :
    (readBytes count most str).length ≤ count := by
  rw [readBytes, length_take]
  omega

theorem readBytes_append (cnt : Nat) (most : Option Nat) (stream : List UInt8) :
    readBytes cnt most stream ++ stream.drop (readBytes cnt most stream).length = stream := by
  have htake := prefix_iff_eq_take.mp (List.take_prefix
    (min cnt ((most.map Nat.succ).getD cnt)) stream)
  rw [← readBytes] at htake
  nth_rewrite 1 [htake]
  exact take_append_drop _ _

theorem store_inside (buf : Int → UInt8) (i : Nat)
    (hgot : ∀ i : Nat, i < got.length → buf i = got.getD i 0) (hi : i < (got ++ bytes).length) :
    store buf got.length bytes i = (got ++ bytes).getD i 0 := by
  rw [length_append] at hi
  rw [store]
  by_cases hlt : i < got.length
  · rw [if_neg (by omega), hgot i hlt, getD_append _ _ _ _ hlt]
  rw [if_pos (by omega), getD_append_right _ _ _ _ (by omega)]
  congr 1
  omega

theorem dataBlock_eq (hlen : c.dataExpected = got.length)
    (hgot : ∀ i : Nat, i < got.length → c.buffer i = got.getD i 0) : dataBlock c = got := by
  rw [dataBlock, hlen]
  apply ext_getElem
  · simp
  intro i hi hi'
  rw [getElem_map, getElem_range, hgot i hi', getD_eq_getElem _ _ hi']

theorem finishData_mem (h : e ∈ evs) : e ∈ (finishData c str reads evs).events := by
  fun_cases finishData with
  | case1 => exact h
  | case2 => exact mem_append_left _ h

/-- A data block of no bytes: the command is processed without a read. -/
theorem dataPhase_none (hzero : c.dataOffset = 0) (hnone : ¬0 < c.dataExpected) :
    dataPhase oracle reads c str =
      ⟨resetParsing c, str, reads, [.processCommand c.line []], false⟩ := by
  have hblk : dataBlock c = [] := by
    rw [dataBlock, Int.toNat_of_nonpos (by omega)]
    rfl
  rw [dataPhase]
  rw [if_neg (by omega), finishData, if_neg (by omega), hblk]
  rfl

theorem dataPhase_spec (hste : c.state = .data) (h : Refines c p)
    (hqt : NoTransient (dataPhase oracle reads c stream).events) :
    Advances p stream (dataPhase oracle reads c stream) := by
  simp only [Refines, hste] at h
  obtain ⟨got, rfl, hoff, hlt, hgot⟩ := h
  rw [dataPhase] at hqt ⊢
  rw [if_pos (by omega)] at hqt ⊢
  have hcld : ∀ evs, commands evs = [] → Advances ⟨c.line, c.dataExpected, some got⟩
      stream ⟨monitorClose c, stream, reads + 1, evs, true⟩ :=
    fun evs hevs => ⟨[], rfl, hevs, by simp [Refines, monitorClose], trivial⟩
  cases hora : oracle reads with
  | fail errno =>
    simp only [hora] at hqt ⊢
    by_cases htra : errno = .eagain ∨ errno = .eintr
    · rw [if_pos htra] at hqt
      exact absurd (finishData_mem mem_cons_self) (hqt _ _)
    rw [if_neg htra]
    exact hcld _ rfl
  | give most =>
    simp only
    have hle := readBytes_length (c.dataExpected - c.dataOffset).toNat most stream
    have hstr := readBytes_append (c.dataExpected - c.dataOffset).toNat most stream
    generalize readBytes (c.dataExpected - c.dataOffset).toNat most stream = bytes at *
    by_cases hnone : bytes = []
    · rw [if_pos hnone]
      exact hcld _ rfl
    rw [if_neg hnone]
    have hfeed := feedAll_block c.line c.dataExpected got bytes hnone (by omega)
    have hbuf : ∀ i : Nat, i < (got ++ bytes).length →
        store c.buffer c.dataOffset bytes i = (got ++ bytes).getD i 0 := by
      intro i hi
      rw [hoff]
      exact store_inside c.buffer i hgot hi
    rw [finishData]
    by_cases hmore : (got.length : Int) + bytes.length < c.dataExpected
    · rw [if_pos hmore] at hfeed
      rw [if_pos (by simp only; omega)]
      refine ⟨bytes, hstr.symm, by rw [hfeed]; rfl, ?_, fits_block _ _ _ (by omega)⟩
      rw [hfeed]
      simp only [Refines, hste]
      exact ⟨got ++ bytes, rfl, by simp [hoff], by simpa using hmore, hbuf⟩
    rw [if_neg hmore] at hfeed
    rw [if_neg (by simp only; omega)]
    refine ⟨bytes, hstr.symm, ?_, ?_, fits_block _ _ _ (by omega)⟩
    · rw [hfeed, dataBlock_eq (by simp; omega) hbuf]
      rfl
    rw [hfeed]
    rfl

/-- First `bytes` with `events`, then what `r` has done. -/
theorem advances_after (hevs : commands events = (feedAll p bytes).2) (hfits : Fits p bytes)
    (h : Advances (feedAll p bytes).1 rest r) :
    Advances p (bytes ++ rest) { r with events := events ++ r.events } := by
  obtain ⟨bytes', hstr, hcmds, href, hfits'⟩ := h
  refine ⟨bytes ++ bytes', ?_, ?_, ?_, ?_⟩
  · rw [hstr, append_assoc]
  · rw [commands_append, hevs, hcmds, feedAll_append]
  · rw [feedAll_append]
    exact href
  · exact (fits_append _).mpr ⟨hfits, hfits'⟩

theorem advances_linePending (hdata : r.context.state ≠ .data) (h : LinePending c stream r) :
    Advances (waiting c) stream r := by
  obtain ⟨bytes, hstr, hcmds, hall, hfits, hste⟩ := h
  refine ⟨bytes, hstr, by rw [hcmds, hall], ?_, hfits⟩
  cases hr : r.context.state with
  | unused => simp only [Refines, hr]
  | data => exact absurd hr hdata
  | command =>
    simp only [Refines, hr]
    exact hste hr

theorem noTransient_append : NoTransient (xs ++ ys) ↔ NoTransient xs ∧ NoTransient ys := by
  simp [NoTransient, not_or, forall_and]

/-- The line and then the data block of one poll. -/
theorem advances_lineRead (hdata : r.context.state = .data) (h : LineRead c str r)
    (hqt : NoTransient (dataPhase oracle r.reads r.context r.stream).events) :
    Advances (waiting c) str { dataPhase oracle r.reads r.context r.stream with
      events := r.events ++ (dataPhase oracle r.reads r.context r.stream).events } := by
  obtain ⟨bytes, ch, hstr, hcmds, hret, hoff, hall, hline, hfits⟩ := h
  have hfeed : feedAll (waiting c) (bytes ++ [ch]) = feed (waiting r.context) ch := by
    simp [feedAll_append, hall, feedAll]
  rw [hstr, append_cons]
  by_cases hsome : 0 < r.context.dataExpected
  · rw [if_pos hsome] at hline
    refine advances_after (by rw [hfeed, hline, hcmds]) hfits ?_
    rw [hfeed, hline]
    apply dataPhase_spec oracle hdata _ hqt
    simp only [Refines, hdata]
    exact ⟨[], rfl, hoff, hsome, fun i hi => absurd hi (Nat.not_lt_zero i)⟩
  rw [if_neg hsome] at hline
  rw [dataPhase_none oracle hoff hsome]
  refine ⟨bytes ++ [ch], rfl, ?_, ?_, hfits⟩
  · rw [hfeed, hline, commands_append, hcmds]
    rfl
  rw [hfeed, hline]
  rfl

theorem pollState_spec (hopen : c.state ≠ .unused) (h : Refines c p)
    (hqt : NoTransient (pollState oracle c str).events) :
    Advances p str (pollState oracle c str) := by
  cases hste : c.state with
  | unused => exact absurd hste hopen
  | data =>
    simp only [pollState, hste] at hqt ⊢
    exact dataPhase_spec oracle hste h hqt
  | command =>
    simp only [Refines, hste] at h
    subst h
    simp only [pollState, hste] at hqt ⊢
    have hloop := commandLoop_spec oracle 0 str hste
    generalize commandLoop oracle 0 c str = r at *
    by_cases hdata : r.context.state = .data
    · have hline := hloop.1 hdata
      have hret : r.returned = false := by
        obtain ⟨_, _, _, _, hret, _⟩ := hline
        exact hret
      rw [if_neg (by simp [hret, hdata])] at hqt ⊢
      exact advances_lineRead oracle hdata hline (noTransient_append.mp hqt).2
    rw [if_pos (.inr hdata)]
    exact advances_linePending hdata (hloop.2 hdata)

theorem advances_checkHangup (h : Advances p str r) : Advances p str (checkHangup poll r) := by
  obtain ⟨bytes, hstr, hcmds, href, hfits⟩ := h
  refine ⟨bytes, by simpa using hstr, by simpa using hcmds, ?_, hfits⟩
  rw [checkHangup]
  split
  · trivial
  · exact href

theorem monitorClientPoll_spec (hopen : c.state ≠ .unused) (h : Refines c p)
    (hqt : NoTransient (monitorClientPoll poll c str).events) :
    Advances p str (monitorClientPoll poll c str) := by
  rw [monitorClientPoll, checkHangup_events] at hqt
  apply advances_checkHangup
  by_cases hin : poll.pollin = true
  · rw [if_pos hin] at hqt ⊢
    exact pollState_spec poll.oracle hopen h hqt
  rw [if_neg hin]
  exact advances_idle h

/-- A run of polls passes on the commands that the parser finds in the bytes that
the run has read. -/
theorem runPolls_spec (str : List UInt8) (h : Refines c p)
    (hqt : NoTransient (runPolls pls c str).events) :
    Advances p str (runPolls pls c str) := by
  induction pls generalizing c p str with
  | nil => exact advances_idle h
  | cons poll pls ih =>
    rw [runPolls] at hqt ⊢
    by_cases hcld : c.state = .unused
    · rw [if_pos hcld]
      exact advances_idle h
    rw [if_neg hcld] at hqt ⊢
    obtain ⟨bytes, hstr, hcmds, href, hfits⟩ :=
      monitorClientPoll_spec poll hcld h (noTransient_append.mp hqt).1
    have hrest := ih _ href (noTransient_append.mp hqt).2
    nth_rewrite 1 [hstr]
    exact advances_after hcmds hfits hrest

/-! ## Array bounds -/

/-- The read stores into `line[]` or `buffer[]` and nowhere else. -/
def InBounds : Event → Prop
  | .readLine index => index < lineLength
  | .readData start count _ => 0 ≤ start ∧ start + count ≤ dataSize
  | _ => True

/-- An announced length fits the buffer, and no read of the data block fails with
`EAGAIN` or `EINTR`. -/
def Orderly : Event → Prop
  | .announce length => 0 ≤ length ∧ length ≤ dataSize
  | .readData _ _ transient => transient = false
  | _ => True

instance : DecidablePred InBounds
  | .readLine index => inferInstanceAs (Decidable (index < lineLength))
  | .readData start count _ => inferInstanceAs (Decidable (0 ≤ start ∧ start + count ≤ dataSize))
  | .announce _ => isTrue trivial
  | .processCommand _ _ => isTrue trivial

instance : DecidablePred Orderly
  | .announce length => inferInstanceAs (Decidable (0 ≤ length ∧ length ≤ dataSize))
  | .readData _ _ transient => inferInstanceAs (Decidable (transient = false))
  | .readLine _ => isTrue trivial
  | .processCommand _ _ => isTrue trivial

/-- `data_offset` lies between zero and `data_expected`, which fits the buffer. -/
def Sound (c : MonitorContext) : Prop :=
  0 ≤ c.dataOffset ∧ c.dataOffset ≤ c.dataExpected ∧ c.dataExpected ≤ dataSize

theorem sound_reset (c : MonitorContext) : Sound (resetParsing c) :=
  ⟨Int.le_refl 0, Int.le_refl 0, show (0 : Int) ≤ dataSize by decide⟩

theorem noTransient_orderly (h : ∀ e ∈ events, Orderly e) : NoTransient events := by
  intro start cnt hmem
  have hord : true = false := h _ hmem
  cases hord

/-- The outcome keeps the bounds if all goes orderly. -/
def KeepsBounds (r : Outcome) : Prop :=
  (∀ e ∈ r.events, Orderly e) → Sound r.context ∧ ∀ e ∈ r.events, InBounds e

theorem keepsBounds_after (hevs : ∀ e ∈ events, InBounds e)
    (h : (∀ e ∈ events, Orderly e) → KeepsBounds r) :
    KeepsBounds { r with events := events ++ r.events } := by
  intro hord
  rw [forall_mem_append] at hord
  obtain ⟨hsnd, hrest⟩ := h hord.1 hord.2
  exact ⟨hsnd, forall_mem_append.mpr ⟨hevs, hrest⟩⟩

theorem keepsBounds_stopped (h : Stopped oracle c str r) (hsnd : Sound c) : KeepsBounds r := by
  intro _
  refine ⟨?_, ?_⟩
  · obtain hsame | ⟨-, hoff, hexp⟩ := h.context_eq
    · rw [hsame]
      exact hsnd
    rw [Sound, hoff, hexp]
    exact hsnd
  obtain hnone | ⟨hfits, hone⟩ := h.events_eq
  · simp [hnone]
  · simp [hone, InBounds, hfits]

/-- A character keeps the bounds: a length is announced only while none is expected. -/
theorem takeChar_bounds (hsnd : Sound c) (hord : ∀ e ∈ (takeChar c ch).2, Orderly e) :
    Sound (takeChar c ch).1 := by
  obtain ⟨hlow, hle, hsize⟩ := hsnd
  revert hord
  fun_cases takeChar with
  | case2 _ hcol =>
    intro hord
    have hlen : 0 ≤ atoi (c.line.drop 1) ∧ atoi (c.line.drop 1) ≤ dataSize :=
      hord _ mem_cons_self
    exact ⟨hlow, by simp only; omega, hlen.2⟩
  | case3 => exact fun _ => ⟨Int.le_refl 0, by simp only; omega, hsize⟩
  | _ => exact fun _ => ⟨hlow, hle, hsize⟩

theorem takeChar_events (c : MonitorContext) (ch : UInt8) :
    ∀ e ∈ (takeChar c ch).2, ∃ length, e = .announce length := by
  fun_cases takeChar <;> simp

theorem commandLoop_bounds (reads : Nat) (str : List UInt8) (h : c.state = .command)
    (hsnd : Sound c) : KeepsBounds (commandLoop oracle reads c str) := by
  revert hsnd
  apply commandLoop_induct oracle (motive := fun c _ r => Sound c → KeepsBounds r) _ _ _ reads c str h
  · intro c str r _ hstop hsnd
    exact keepsBounds_stopped oracle hstop hsnd
  · intro c ch rest r hfits _ _ _ ih hsnd
    apply keepsBounds_after
    · intro e he
      obtain rfl | he := mem_cons.mp he
      · exact hfits
      obtain ⟨length, rfl⟩ := takeChar_events c ch e he
      trivial
    intro hord
    exact ih (takeChar_bounds hsnd (fun e he => hord e (mem_cons_of_mem _ he)))
  intro c ch rest reads hfits _ hsnd
  obtain ⟨hlow, hle, hsize⟩ := hsnd
  refine fun _ => ⟨⟨Int.le_refl 0, by simp only; omega, hsize⟩, ?_⟩
  simp [InBounds, hfits]

theorem finishData_bounds (hsnd : Sound c) (hevs : ∀ e ∈ evs, InBounds e) :
    KeepsBounds (finishData c str reads evs) := by
  intro _
  fun_cases finishData with
  | case1 => exact ⟨hsnd, hevs⟩
  | case2 => exact ⟨sound_reset c, forall_mem_append.mpr ⟨hevs, by simp [InBounds]⟩⟩

theorem dataPhase_bounds (hsnd : Sound c) : KeepsBounds (dataPhase oracle reads c str) := by
  have ⟨hlow, hle, hsize⟩ := hsnd
  rw [dataPhase]
  by_cases hcnt : c.dataExpected - c.dataOffset > 0
  · rw [if_pos hcnt]
    have hread : ∀ trn, ∀ e ∈ [Event.readData c.dataOffset
        (c.dataExpected - c.dataOffset) trn], InBounds e := by
      intro trn e he
      rw [mem_singleton.mp he]
      exact ⟨hlow, by omega⟩
    cases oracle reads with
    | fail errno =>
      simp only
      split
      · exact fun hord => absurd (finishData_mem mem_cons_self) (noTransient_orderly hord _ _)
      · exact fun _ => ⟨hsnd, hread false⟩
    | give most =>
      simp only
      have hlen := readBytes_length (c.dataExpected - c.dataOffset).toNat most str
      split
      · exact fun _ => ⟨hsnd, hread false⟩
      · exact finishData_bounds ⟨by simp only; omega, by simp only; omega, hsize⟩ (hread false)
  rw [if_neg hcnt]
  exact finishData_bounds hsnd (by simp)

theorem pollState_bounds (hsnd : Sound c) : KeepsBounds (pollState oracle c str) := by
  rw [pollState]
  cases hste : c.state with
  | unused => exact fun _ => ⟨sound_reset c, by simp⟩
  | data => exact dataPhase_bounds oracle hsnd
  | command =>
    have hloop := commandLoop_bounds oracle 0 str hste hsnd
    simp only
    split
    · exact hloop
    intro hord
    have hline := hloop (fun e he => hord e (mem_append_left _ he))
    exact keepsBounds_after hline.2 (fun _ => dataPhase_bounds oracle hline.1) hord

theorem keepsBounds_checkHangup (h : KeepsBounds r) : KeepsBounds (checkHangup poll r) := by
  intro hord
  rw [checkHangup_events] at hord ⊢
  refine ⟨?_, (h hord).2⟩
  rw [checkHangup]
  split <;> exact (h hord).1

theorem monitorClientPoll_bounds (hsnd : Sound c) : KeepsBounds (monitorClientPoll poll c str) := by
  apply keepsBounds_checkHangup
  split
  · exact pollState_bounds poll.oracle hsnd
  · exact fun _ => ⟨hsnd, by simp⟩

/-- Every run of polls keeps the bounds. -/
theorem runPolls_bounds (str : List UInt8) (hsnd : Sound c) :
    KeepsBounds (runPolls pls c str) := by
  induction pls generalizing c str with
  | nil => exact fun _ => ⟨hsnd, by simp [runPolls]⟩
  | cons poll pls ih =>
    rw [runPolls]
    split
    · exact fun _ => ⟨hsnd, by simp⟩
    intro hord
    have hpoll := monitorClientPoll_bounds poll hsnd (fun e he => hord e (mem_append_left _ he))
    exact keepsBounds_after hpoll.2 (fun _ => ih _ hpoll.1) hord

/-! ## Reads that return all they ask for -/

def fullPoll : Poll := ⟨true, false, fun _ => .give none⟩

theorem commandLoop_noTransient (reads : Nat) (str : List UInt8) (h : c.state = .command) :
    NoTransient (commandLoop oracle reads c str).events := by
  apply commandLoop_induct oracle (motive := fun _ _ r => NoTransient r.events) _ _ _ reads c str h
  · intro c str r _ hstop start cnt hmem
    obtain hnone | ⟨-, hone⟩ := hstop.events_eq
    · simp [hnone] at hmem
    · simp [hone] at hmem
  · intro c ch rest r _ _ _ _ ih start cnt hmem
    obtain hmem | hmem := mem_append.mp hmem
    · obtain heq | hmem := mem_cons.mp hmem
      · cases heq
      obtain ⟨length, ⟨⟩⟩ := takeChar_events c ch _ hmem
    · exact ih start cnt hmem
  intro c ch rest reads _ _ start cnt hmem
  simp at hmem

theorem monitorClientPoll_full :
    monitorClientPoll fullPoll c stream = pollState fullPoll.oracle c stream := by
  simp [monitorClientPoll, checkHangup, fullPoll]

theorem fullPoll_noTransient (str : List UInt8) :
    NoTransient (monitorClientPoll fullPoll c str).events := by
  have hdata : ∀ reads c str, NoTransient (dataPhase fullPoll.oracle reads c str).events := by
    intro reads c str start cnt hmem
    simp only [dataPhase, finishData, fullPoll] at hmem
    split_ifs at hmem <;> simp at hmem
  rw [monitorClientPoll_full, pollState]
  cases hste : c.state with
  | unused => simp [NoTransient]
  | data => exact hdata 0 c str
  | command =>
    have hloop := commandLoop_noTransient fullPoll.oracle 0 str hste
    simp only
    split
    · exact hloop
    · exact noTransient_append.mpr ⟨hloop, hdata _ _ _⟩

theorem fullRun_noTransient (n : Nat) (c : MonitorContext) (str : List UInt8) :
    NoTransient (runPolls (List.replicate n fullPoll) c str).events := by
  induction n generalizing c str with
  | zero => simp [runPolls, NoTransient]
  | succ n ih =>
    rw [replicate_succ, runPolls]
    split
    · simp [NoTransient]
    · exact noTransient_append.mpr ⟨fullPoll_noTransient str, ih _ _⟩

/-- A poll with full reads has taken the whole stream, or some of it with the
socket still open, or it has met a line that is too long. -/
def Progress (p : Parser) (stream : List UInt8) (r : Outcome) : Prop :=
  r.stream = [] ∨ (r.context.state ≠ .unused ∧ r.stream.length < stream.length) ∨
    ∃ bytes, stream = bytes ++ r.stream ∧ (feedAll p bytes).1.block = none ∧
      lineLength ≤ (feedAll p bytes).1.line.length

theorem progress_after (h : Progress (feedAll p bytes).1 rest r) (events : List Event) :
    Progress p (bytes ++ rest) { r with events := events } := by
  obtain hnil | ⟨hopen, hlt⟩ | ⟨bytes', hstr, hfull⟩ := h
  · exact .inl hnil
  · exact .inr (.inl ⟨hopen, by rw [length_append]; exact Nat.lt_add_left _ hlt⟩)
  refine .inr (.inr ⟨bytes ++ bytes', by rw [hstr, append_assoc], ?_⟩)
  rw [feedAll_append]
  exact hfull

theorem commandLoop_progress (reads : Nat) (str : List UInt8) (h : c.state = .command) :
    Progress (waiting c) str (commandLoop fullPoll.oracle reads c str) := by
  apply commandLoop_induct fullPoll.oracle (motive := fun c str r =>
    Progress (waiting c) str r) _ _ _ reads c str h
  · intro c str r _ hstop
    obtain ⟨hfull, -⟩ | ⟨i, errno, hfail⟩ | ⟨hnil, -⟩ := hstop.cause
    · exact .inr (.inr ⟨[], hstop.stream_eq.symm, rfl, hfull⟩)
    · cases hfail
    · exact .inl (hstop.stream_eq.trans hnil)
  · intro c ch rest r _ _ hfeed _ ih
    have hone : (feedAll (waiting c) [ch]).1 = waiting (takeChar c ch).1 := by simp [feedAll, hfeed]
    exact progress_after (hone ▸ ih) _
  intro c ch rest reads _ _
  exact .inr (.inl ⟨by simp, Nat.lt_succ_self _⟩)

theorem dataPhase_progress (hste : c.state = .data) (hlt : c.dataOffset < c.dataExpected) :
    Progress p str (dataPhase fullPoll.oracle reads c str) := by
  simp only [dataPhase, fullPoll]
  rw [if_pos (by omega)]
  by_cases hnil : str = []
  · subst hnil
    exact .inl (by simp [readBytes])
  have hpos : 0 < (readBytes (c.dataExpected - c.dataOffset).toNat none str).length := by
    have hlen := length_pos_of_ne_nil hnil
    rw [readBytes, length_take]
    simp only [Option.map_none, Option.getD_none]
    omega
  rw [if_neg (ne_nil_of_length_pos hpos), finishData]
  have hlen := length_pos_of_ne_nil hnil
  refine .inr (.inl ?_)
  split
  · exact ⟨by simp [hste], by rw [length_drop]; omega⟩
  · exact ⟨by simp [resetParsing], by rw [length_drop]; omega⟩

theorem pollState_progress (str : List UInt8) (hopen : c.state ≠ .unused) (h : Refines c p) :
    Progress p str (pollState fullPoll.oracle c str) := by
  cases hste : c.state with
  | unused => exact absurd hste hopen
  | data =>
    simp only [Refines, hste] at h
    obtain ⟨got, rfl, hoff, hlt, -⟩ := h
    simp only [pollState, hste]
    exact dataPhase_progress hste (by omega)
  | command =>
    simp only [Refines, hste] at h
    subst h
    have hspec := (commandLoop_spec fullPoll.oracle 0 str hste).1
    have hprog := commandLoop_progress 0 str hste
    simp only [pollState, hste]
    generalize commandLoop fullPoll.oracle 0 c str = r at *
    split
    · exact hprog
    next hline =>
    simp only [not_or, not_not] at hline
    obtain ⟨bytes, ch, hstr, -, -, hoff, -⟩ := hspec hline.2
    rw [hstr, append_cons]
    by_cases hsome : 0 < r.context.dataExpected
    · exact progress_after (dataPhase_progress hline.2 (by omega)) _
    rw [dataPhase_none fullPoll.oracle hoff hsome]
    exact .inr (.inl ⟨by simp [resetParsing], by simp; omega⟩)

/-- With full reads a run takes all of a stream in which no line is too long. -/
theorem fullRun_stream (str : List UInt8) (hopen : c.state ≠ .unused) (h : Refines c p)
    (hfits : Fits p str) (hn : str.length ≤ n) :
    (runPolls (List.replicate n fullPoll) c str).stream = [] := by
  induction n generalizing c p str with
  | zero => exact eq_nil_of_length_eq_zero (Nat.le_zero.mp hn)
  | succ n ih =>
    have hqt := fullRun_noTransient (n + 1) c str
    rw [replicate_succ, runPolls, if_neg hopen] at hqt ⊢
    obtain ⟨bytes, hstr, -, href, -⟩ :=
      monitorClientPoll_spec fullPoll hopen h (noTransient_append.mp hqt).1
    have hprog := pollState_progress str hopen h
    rw [← monitorClientPoll_full] at hprog
    generalize monitorClientPoll fullPoll c str = r at *
    have hdone : r.stream = [] → (runPolls (List.replicate n fullPoll) r.context r.stream).stream =
        [] := by
      intro hnil
      obtain ⟨bytes', hstr', -⟩ := runPolls_spec r.stream href (noTransient_append.mp hqt).2
      rw [hnil] at hstr'
      rw [hnil]
      exact (append_eq_nil_iff.mp hstr'.symm).2
    obtain hnil | ⟨hopen', hlt⟩ | ⟨bytes', hstr', hblk, hfull⟩ := hprog
    · exact hdone hnil
    · have hfits' : Fits (feedAll p bytes).1 r.stream := by
        rw [hstr, fits_append] at hfits
        exact hfits.2
      exact ih r.stream hopen' href hfits' (by omega)
    rw [hstr', fits_append] at hfits
    cases hrest : r.stream with
    | nil => exact hrest ▸ hdone hrest
    | cons ch rest =>
      rw [hrest] at hfits
      have hlt := hfits.2.1 hblk
      omega

/-! ## One client after the other -/

/-- What a client sends and how its socket is polled. -/
structure Client where
  stream : List UInt8
  polls : List Poll

/-- The context after the clients that used it one after the other, and the events
of all of them. -/
def serve : List Client → MonitorContext → MonitorContext × List Event
  | [], c => (c, [])
  | client :: clients, c =>
    let r := runPolls client.polls (monitorNewClient c) client.stream
    ((serve clients r.context).1, r.events ++ (serve clients r.context).2)

def start : MonitorContext := ⟨[], .unused, fun _ => 0, 0, 0⟩

/-- Clients that are served in turn leave the context sound. -/
theorem serve_sound (cls : List Client) (hsnd : Sound c)
    (hord : ∀ e ∈ (serve cls c).2, Orderly e) : Sound (serve cls c).1 := by
  induction cls generalizing c with
  | nil => exact hsnd
  | cons cl cls ih =>
    have hcli := runPolls_bounds cl.stream (show Sound (monitorNewClient c) from hsnd)
      (fun e he => hord e (mem_append_left _ he))
    exact ih hcli.1 (fun e he => hord e (mem_append_right _ he))

/-- A client that announces only blocks that fit, and whose data reads never fail
with `EAGAIN` or `EINTR`, is parsed within the two arrays, and however its bytes
are split the commands are those of full reads of the same bytes. The clients
before it, which may leave a block unfinished, have to keep to the same terms. -/
theorem monitor_parses_like_full_reads (before : List Client) (client : Client)
    (hbefore : ∀ e ∈ (serve before start).2, Orderly e)
    (horderly : ∀ e ∈ (runPolls client.polls (monitorNewClient (serve before start).1)
      client.stream).events, Orderly e) :
    let c := monitorNewClient (serve before start).1
    let r := runPolls client.polls c client.stream
    (∀ e ∈ r.events, InBounds e) ∧
      0 ≤ r.context.dataOffset ∧ r.context.dataOffset ≤ r.context.dataExpected ∧
      ∃ bytes, client.stream = bytes ++ r.stream ∧ commands r.events =
        commands (runPolls (List.replicate bytes.length fullPoll) c bytes).events := by
  intro c r
  have hsnd : Sound c := serve_sound before (sound_reset start) hbefore
  have hbds := runPolls_bounds client.stream hsnd horderly
  have href : Refines c (waiting c) := rfl
  obtain ⟨bytes, hstr, hcmds, -, hfits⟩ :=
    runPolls_spec client.stream href (noTransient_orderly horderly)
  refine ⟨hbds.2, hbds.1.1, hbds.1.2.1, bytes, hstr, ?_⟩
  have hqt := fullRun_noTransient bytes.length c bytes
  have hall := fullRun_stream bytes (by simp [c, monitorNewClient]) href hfits (Nat.le_refl _)
  obtain ⟨bytes', hstr', hcmds', -⟩ := runPolls_spec bytes href hqt
  rw [hall, append_nil] at hstr'
  rw [hcmds, hcmds', ← hstr']

/-- A client that sends `*2:a` and the data `xyz`. -/
def announced : List UInt8 := [42, 50, 58, 97, 10, 120, 121, 122]

def bytePoll : Poll := ⟨true, false, fun _ => .give (some 0)⟩

/-- The line is read, then the first read of the data fails with `EAGAIN`. -/
def failingPoll : Poll := ⟨true, false, fun i => if i = 5 then .fail .eagain else .give none⟩

theorem monitor_parses_split_block :
    commands (runPolls [bytePoll, bytePoll] (monitorNewClient start) announced).events =
        [([97], [120, 121])] ∧
      ∃ bytes, announced = bytes ++
          (runPolls [bytePoll, bytePoll] (monitorNewClient start) announced).stream ∧
        commands (runPolls [bytePoll, bytePoll] (monitorNewClient start) announced).events =
          commands (runPolls (List.replicate bytes.length fullPoll) (monitorNewClient start)
            bytes).events :=
  ⟨by decide, (monitor_parses_like_full_reads [] ⟨announced, [bytePoll, bytePoll]⟩ (by decide)
    (by decide)).2.2.2⟩

/-- A length of 2000 makes the server read past the buffer. A data read that fails
with `EAGAIN` moves `data_offset` to -1, and the next read stores the first byte in
front of the buffer and takes one byte too many. -/
theorem monitor_overruns_and_shifts_data : (∃ e ∈ (runPolls [fullPoll] (monitorNewClient start)
        [42, 50, 48, 48, 48, 58, 97, 10, 120]).events, ¬InBounds e) ∧
      (runPolls [failingPoll] (monitorNewClient start) announced).context.dataOffset = -1 ∧
      (∃ e ∈ (runPolls [failingPoll, fullPoll] (monitorNewClient start) announced).events, ¬InBounds e) ∧
      commands (runPolls [failingPoll, fullPoll] (monitorNewClient start) announced).events =
        [([97], [121, 122])] ∧
      commands (runPolls (List.replicate 8 fullPoll) (monitorNewClient start) announced).events =
        [([97], [120, 121])] := by
  decide

end Monitor
