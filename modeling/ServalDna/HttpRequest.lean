import ServalDna.HttpHeaders
import ServalDna.ListSlice

/-!
# Receiving the head of an HTTP request

`http_request_receive` of `http_server.c` with the parsers of the request line
and of the header lines. The buffer is cut at `r->parsed` and at `r->end`. It
starts out as NULs, and what is left behind `r->end` when the unparsed data is
shifted down stays there.

The handlers are called with what has been parsed and either let the parser go
on or give the status code of a response. From the end of the headers on the
data belongs to `http_request_start_body`.
-/
namespace HttpRequest

open TextCodec Scanner Scanner.Scan HttpScan HttpHeaders ListSlice

/-! ### The buffer -/

def bufferSize : Nat := 8 * 1024

/-- The space that is never used for reserved strings. -/
def unreservedSize : Nat := 1024

def pointerSize : Nat := 8

def maxParams : Nat := 10

structure Buffer where
  /-- from the start to `r->parsed` -/
  below : Text
  /-- from `r->parsed` to `r->end` -/
  unparsed : Text
  /-- what has been written behind `r->end`; NULs follow -/
  stale : Text
  reserved : Nat
  received : Nat
  deriving DecidableEq

/-- `http_request_init`: room for the pointers to the path and the names of the
parameters is put aside. -/
def Buffer.init : Buffer :=
  ⟨List.replicate (pointerSize * (1 + maxParams)) 0, [], [], 0, pointerSize * (1 + maxParams)⟩

def Buffer.endAt (b : Buffer) : Nat := b.below.length + b.unparsed.length

/-- `_commit` with `rest` from the cursor on. -/
def Buffer.commit (b : Buffer) (rest : Text) : Buffer :=
  { b with
    below := b.below ++ b.unparsed.take (b.unparsed.length - rest.length)
    unparsed := rest }

/-- The shift of the unparsed data down to `r->received`. -/
def Buffer.shift (b : Buffer) : Buffer :=
  { b with
    below := b.below.take b.received
    stale := (b.below ++ b.unparsed ++ b.stale).drop (b.received + b.unparsed.length) }

/-- The part of `http_request_receive` before the read: the buffer, shifted
where it runs short, and the room for the read. -/
def Buffer.makeRoom (b : Buffer) (remaining : Option Nat) : Buffer × Nat :=
  let room := bufferSize - b.endAt
  let spare := b.below.length - b.received
  if remaining.any (· < room) then (b, remaining.getD 0)
  else if spare ≠ 0 ∧ (room < 128 ∨ room < 1024 ∧ 32 ≤ spare) then
    let b := b.shift
    (b, min (bufferSize - b.endAt) (remaining.getD bufferSize))
  else (b, min room (remaining.getD bufferSize))

def Buffer.read (b : Buffer) (bytes : Text) : Buffer :=
  { b with unparsed := b.unparsed ++ bytes, stale := b.stale.drop bytes.length }

/-! ### Reserved strings -/

def wwwFormUriDecode : Text → Text
  | [] => []
  | c :: rest =>
    if c = 43 then 32 :: wwwFormUriDecode rest
    else
      match c == 37, rest with
      | true, h :: l :: rest' =>
        match hexvalue h, hexvalue l with
        | some high, some low => UInt8.ofNat (high * 16 + low) :: wwwFormUriDecode rest'
        | _, _ => c :: wwwFormUriDecode (h :: l :: rest')
      | _, rest => c :: wwwFormUriDecode rest

/-- `_mover_www_form_uri_decode` of `len` bytes in the buffer, byte by byte. -/
def moveDecoded : Nat → Text → Nat → Nat → Text
  | 0, mem, _, _ => mem
  | len + 1, mem, dst, src =>
    let c := mem.getD src 0
    if c = 43 then moveDecoded len (mem.set dst 32) (dst + 1) (src + 1)
    else
      match c == 37, hexvalue (mem.getD (src + 1) 0), hexvalue (mem.getD (src + 2) 0) with
      | true, some high, some low =>
        moveDecoded len (mem.set dst (UInt8.ofNat (high * 16 + low))) (dst + 1) (src + 3)
      | _, _, _ => moveDecoded len (mem.set dst c) (dst + 1) (src + 1)

def pointerBytes (address : Nat) : Text :=
  (List.range pointerSize).map fun i => UInt8.ofNat (address / 256 ^ i)

/-- `_reserve`: the buffer with the string, and the string; or the status code. -/
def Buffer.reserve (b : Buffer) (address len : Nat) (mover : Text → Nat → Text) :
    Except Nat (Buffer × Text) :=
  let siz := pointerSize + len + 1
  if bufferSize - unreservedSize < b.reserved + siz then .error 414
  else if b.below.length < b.reserved + siz then .error 500
  else
    let restr := b.reserved + pointerSize
    let mem := (mover b.below restr).set (restr + len) 0
    .ok ({ b with
      below := overwrite mem b.reserved (pointerBytes address)
      reserved := b.reserved + siz
      received := max b.received (b.reserved + siz) }, (mem.drop restr).take len)

/-- `_reserve_www_form_uriencoded` of the bytes at `start`, of which there must
be some. -/
def Buffer.reserveUriencoded (b : Buffer) (address start length : Nat) :
    Option (Except Nat (Buffer × Text)) :=
  if length = 0 then none
  else
    let len := (wwwFormUriDecode ((b.below.drop start).take length)).length
    some (b.reserve address len fun mem restr => moveDecoded len mem restr start)

def cstr (text : Text) : Text := text.takeWhile (· != 0)

def Buffer.reserveStr (b : Buffer) (address : Nat) (str : Text) : Except Nat (Buffer × Text) :=
  b.reserve address (cstr str).length fun mem restr => overwrite mem restr (cstr str)

/-! ### The request -/

inductive Verb where
  | get | post | put | head | delete | trace | options | connect | patch
  deriving DecidableEq, Repr

def Verb.word : Verb → Text
  | .get => ascii "GET"
  | .post => ascii "POST"
  | .put => ascii "PUT"
  | .head => ascii "HEAD"
  | .delete => ascii "DELETE"
  | .trace => ascii "TRACE"
  | .options => ascii "OPTIONS"
  | .connect => ascii "CONNECT"
  | .patch => ascii "PATCH"

def httpVerbs : List Verb :=
  [.get, .post, .put, .head, .delete, .trace, .options, .connect, .patch]

structure RequestHeaders where
  contentLength : Nat
  contentType : ContentType
  contentRangeCount : Nat
  contentRanges : List Range
  origin : Origin
  /-- the user and the password where the scheme is `BASIC` -/
  authorization : Option (Text × Text)
  deriving DecidableEq, Repr

def RequestHeaders.init : RequestHeaders :=
  ⟨contentLengthUnknown, .empty, 0, [], .empty, none⟩

structure Head where
  verb : Option Verb
  path : Option Text
  queryParameters : List (Text × Option Text)
  versionMajor : Nat
  versionMinor : Nat
  requestHeader : RequestHeaders
  deriving DecidableEq, Repr

def Head.init : Head := ⟨none, none, [], 0, 0, .init⟩

/-- `HTTP_REQUEST_PARAM_NOVALUE` is the empty text. -/
def getQueryParam (head : Head) (name : Text) : Option Text :=
  (head.queryParameters.find? fun param => cstr param.1 == name).map fun param =>
    (param.2.map cstr).getD []

/-- The pointers of the request to its reserved strings. -/
inductive Slot where
  | path | name (i : Nat) | value (i : Nat) | user | password
  deriving DecidableEq

/-- What the request is set up with: the handlers, which answer with a status
code or not at all, and where its fields are. -/
structure Server where
  handleFirstLine : Head → Option Nat
  handleHeaders : Head → Option Nat
  address : Slot → Nat
  firstLine_status : ∀ head, ∀ code ∈ handleFirstLine head, 200 ≤ code ∧ code < 600
  headers_status : ∀ head, ∀ code ∈ handleHeaders head, 200 ≤ code ∧ code < 600

inductive Handler where
  | firstLine | headers
  deriving DecidableEq, Repr

inductive Parser where
  | verb | path | httpVersion | startParsingHeaders | header | startBody
  deriving DecidableEq, Repr

structure Request where
  buffer : Buffer
  /-- `request_content_remaining` once it is known -/
  remaining : Option Nat
  parser : Parser
  head : Head
  status : Option Nat
  /-- the number of bytes read so far -/
  total : Nat
  /-- the handlers called so far, each with the bytes read by then -/
  calls : List (Handler × Nat)
  deriving DecidableEq

def Request.init : Request := ⟨.init, none, .verb, .init, none, 0, []⟩

def Request.commit (r : Request) (rest : Text) : Request :=
  { r with buffer := r.buffer.commit rest }

def Request.call (r : Request) (handler : Handler) (answer : Option Nat) : Nat × Request :=
  (answer.getD 0, { r with calls := r.calls ++ [(handler, r.total)] })

/-! ### The request line -/

/-- How a parser leaves the data: more is needed, it is malformed, or the value
is there. -/
inductive Scanned (α : Type) where
  | wait
  | bad
  | done (a : α) (rest : Text)

/-- `if (_run_out(r)) return 100; return 400;` after a failure. -/
def scanned {α : Type} (p : Scan UInt8 α) (text : Text) : Option (Scanned α) :=
  (p.run text).map fun
    | (some a, rest) => .done a rest
    | (none, []) => .wait
    | (none, _ :: _) => .bad

def scanVerb : List Verb → Text → Scanned Verb
  | [], _ => .bad
  | verb :: verbs, text =>
    match (do skipLiteral verb.word; skipLiteral (ascii " ") : Scan UInt8 Unit).run text with
    | some (some (), rest) => .done verb rest
    | some (none, []) => .wait
    | _ => scanVerb verbs text

def parseVerb (r : Request) : Option (Nat × Request) :=
  if r.buffer.unparsed = [] then none
  else
    match scanVerb httpVerbs r.buffer.unparsed with
    | .wait => some (100, r)
    | .bad => some (400, r)
    | .done verb rest =>
      some (0, { r.commit rest with head := { r.head with verb }, parser := .path })

/-- The loop over the query parameters: those that have been read, and the cursor. -/
def queryFrom : Nat → Text → Option (List Text × Text)
  | 0, text => some ([], text)
  | _ + 1, [] => some ([], [])
  | count + 1, c :: rest =>
    if c = 63 ∨ c = 38 then
      match (skipWordPrintable 38).run rest with
      | none => none
      | some (none, rest') => some ([], rest')
      | some (some param, rest') =>
        (queryFrom count rest').map fun out => (param :: out.1, out.2)
    else some ([], c :: rest)

def scanPath : Scan UInt8 (Text × List Text) := do
  let target ← (⟨fun text =>
    match (skipWordPrintable 63).run text with
    | none => none
    | some (none, rest) => some (some ([], []), rest)
    | some (some path, rest) =>
      (queryFrom maxParams rest).map fun out => (some (path, out.1), out.2)⟩ :
        Scan UInt8 (Text × List Text))
  skipLiteral (ascii " ")
  return target

def splitParam (param : Text) : Text × Option Text :=
  let name := param.takeWhile (· != 61)
  (name, if 61 ∈ param then some (param.drop (name.length + 1)) else none)

/-- The parameters are reserved one after the other; `start` is where the next
one lies in the buffer. -/
def reserveParams (srv : Server) : Nat → Nat → List Text → Request → Option Request
  | _, _, [], r => some { r with parser := .httpVersion }
  | i, start, param :: rest, r =>
    let (name, value) := splitParam param
    match r.buffer.reserveUriencoded (srv.address (.name i)) start name.length with
    | none => none
    | some (.error code) => some { r with status := some code }
    | some (.ok (b, nameStr)) =>
      match value with
      | none =>
        reserveParams srv (i + 1) (start + param.length + 1) rest { r with
          buffer := b
          head := { r.head with queryParameters := r.head.queryParameters ++ [(nameStr, none)] } }
      | some value =>
        match b.reserveUriencoded (srv.address (.value i)) (start + name.length + 1) value.length with
        | none => none
        | some (.error code) => some { r with buffer := b, status := some code }
        | some (.ok (b, valueStr)) =>
          reserveParams srv (i + 1) (start + param.length + 1) rest { r with
            buffer := b
            head := { r.head with
              queryParameters := r.head.queryParameters ++ [(nameStr, some valueStr)] } }

/-- The part of `http_request_parse_path` behind `_commit`; `start` is where
the path lies in the buffer. -/
def reservePath (srv : Server) (start : Nat) (path : Text) (params : List Text) (r : Request) :
    Option Request :=
  match r.buffer.reserveUriencoded (srv.address .path) start path.length with
  | none => none
  | some (.error code) => some { r with status := some code }
  | some (.ok (b, str)) =>
    reserveParams srv 0 (start + path.length + 1) params
      { r with buffer := b, head := { r.head with path := some str } }

def parsePath (srv : Server) (r : Request) : Option (Nat × Request) :=
  match scanned scanPath r.buffer.unparsed with
  | none => none
  | some .wait => some (100, r)
  | some .bad => some (400, r)
  | some (.done (path, params) rest) =>
    (reservePath srv r.buffer.below.length path params (r.commit rest)).map fun r' => (0, r')

def scanVersion (beyond : Text) : Scan UInt8 (Nat × Nat) := do
  skipLiteral (ascii "HTTP/")
  let major ← parseUint32 beyond
  require (0 < major && major < 255)
  skipLiteral (ascii ".")
  let minor ← parseUint32 beyond
  require (minor < 255)
  skipEol
  return (major, minor)

def parseHttpVersion (srv : Server) (r : Request) : Option (Nat × Request) :=
  match scanned (scanVersion r.buffer.stale) r.buffer.unparsed with
  | none => none
  | some .wait => some (100, r)
  | some .bad => some (400, r)
  | some (.done (versionMajor, versionMinor) rest) =>
    let r' := { r.commit rest with
      head := { r.head with versionMajor, versionMinor }, parser := .startParsingHeaders }
    some (r'.call .firstLine (srv.handleFirstLine r'.head))

def startParsingHeaders (r : Request) : Nat × Request :=
  if r.head.versionMajor ≠ 1 then (400, r) else (0, { r with parser := .header })

/-! ### The header lines -/

/-- What a header line comes to. -/
inductive Line where
  | skip
  | store (buffer : Buffer) (header : RequestHeaders)
  | malformed
  | error (code : Nat)

/-- `_parse_authorization_credentials_basic` from the cursor on, with the
cursor behind the credentials; `none` where there is no colon. With nothing
left before `r->end` the text is read on behind it. -/
def basicCredentials (line beyond text : Text) : Option (Option ((Text × Text) × Text)) :=
  let (bytes, rest) := base64From ⟨0, 0, []⟩ (if text = [] then beyond else text)
  if 5 + line.length * 3 / 4 ≤ bytes.length then none
  else if 58 ∉ bytes then some none
  else if text = [] ∧ rest ≠ beyond then none
  else
    let user := bytes.takeWhile (· != 58)
    some (some ((user, bytes.drop (user.length + 1)), if text = [] then [] else rest))

/-- Where `_parse_authorization` ends. -/
inductive Authorization where
  | failed
  | error (code : Nat)
  | passed (buffer : Buffer) (credentials : Option (Text × Text)) (rest : Text)

/-- `_parse_authorization` behind `Basic`. The data is committed up to the
cursor before the credentials are reserved. -/
def authorizationBasic (srv : Server) (b : Buffer) (line text : Text) : Option Authorization :=
  match basicCredentials line b.stale text with
  | none => none
  | some none => some .failed
  | some (some ((user, password), rest)) =>
    match (b.commit rest).reserveStr (srv.address .user) user with
    | .error code => some (.error code)
    | .ok (b, user) =>
      match b.reserveStr (srv.address .password) password with
      | .error code => some (.error code)
      | .ok (b, password) => some (.passed b (some (user, password)) rest)

/-- `_parse_authorization` with `line` from the cursor on. A `Digest` sends the
cursor on by the length of the whole value. -/
def parseAuthorization (srv : Server) (b : Buffer) (line text : Text) : Option Authorization :=
  match (do skipLiteral (ascii "Basic"); skipSpace : Scan UInt8 Unit).run text with
  | some (some (), rest) => authorizationBasic srv b line rest
  | some (none, rest) =>
    match (do skipLiteral (ascii "Digest"); skipSpace : Scan UInt8 Unit).run rest with
    | some (some (), rest') =>
      if rest'.length < line.length then none
      else some (.passed b none (rest'.drop line.length))
    | _ => some .failed
  | none => none

section Line

variable (srv : Server) (r : Request) (text line : Text)

def lineFrom (rest : Text) : Text := rest.take (rest.length - (text.length - line.length))

/-- `_skip_optional_space(r) && r->cursor == eol`. -/
def atEol (rest : Text) : Bool :=
  (rest.dropWhile isHttpSpace).length == text.length - line.length

/-- The lines that are parsed in place: a value that comes to the end of the
line is stored. -/
def valueLine (duplicate : Bool) (value : Text → Scan UInt8 RequestHeaders) (rest : Text) :
    Option Line :=
  if duplicate then some .skip
  else
    let rest := rest.dropWhile isHttpSpace
    match (value (lineFrom text line rest)).run rest with
    | none => none
    | some (some header, rest') =>
      some (if atEol text line rest' then .store r.buffer header else .malformed)
    | some (none, _) => some .malformed

def contentLengthLine : Text → Option Line :=
  let h := r.head.requestHeader
  valueLine r text line (h.contentLength != contentLengthUnknown) fun _ => do
    return { h with contentLength := ← parseHttpSize r.buffer.stale }

def contentTypeLine : Text → Option Line :=
  let h := r.head.requestHeader
  valueLine r text line (h.contentType.type != []) fun _ => do
    return { h with contentType := ← parseContentType h.contentType }

def rangeLine : Text → Option Line :=
  let h := r.head.requestHeader
  valueLine r text line (h.contentRangeCount != 0) fun _ => do
    skipLiteral (ascii "bytes=")
    let ranges ← parseRanges r.buffer.stale
    return { h with
      contentRanges := ranges.take 5 ++ h.contentRanges.drop ranges.length
      contentRangeCount := if 5 < ranges.length then 0 else ranges.length }

def originLine : Text → Option Line :=
  let h := r.head.requestHeader
  valueLine r text line (h.origin.null || h.origin.scheme != []) fun value => do
    return { h with origin := ← parseOrigin value }

def authorizationLine (rest : Text) : Option Line :=
  let h := r.head.requestHeader
  if h.authorization.isSome then some .skip
  else
    let rest := rest.dropWhile isHttpSpace
    match parseAuthorization srv r.buffer (lineFrom text line rest) rest with
    | none => none
    | some .failed => some .malformed
    | some (.error code) => some (.error code)
    | some (.passed b credentials rest') =>
      some (if atEol text line rest' then .store b { h with authorization := credentials }
        else .malformed)

/-- The labels in the order in which they are tried. -/
def headerLine : Option Line :=
  let label (name : String) := (skipLiteralNocase (ascii name)).run text
  match label "Content-Length:" with
  | some (some (), rest) => contentLengthLine r text line rest
  | _ =>
    match label "Content-Type:" with
    | some (some (), rest) => contentTypeLine r text line rest
    | _ =>
      match label "Range:" with
      | some (some (), rest) => rangeLine r text line rest
      | _ =>
        match label "Authorization:" with
        | some (some (), rest) => authorizationLine srv r text line rest
        | _ =>
          match label "Origin:" with
          | some (some (), rest) => originLine r text line rest
          | _ => some .skip

end Line

def nextLine (rest : Text) : Text :=
  match skipEol.run rest with
  | some (_, next) => next
  | none => rest

/-- A blank line ends the headers; what has been read behind it counts against
the content. -/
def endHeaders (srv : Server) (r : Request) (next : Text) : Nat × Request :=
  let length := r.head.requestHeader.contentLength
  let r' := { r.commit next with
    remaining := if length = contentLengthUnknown then r.remaining else some (length - next.length)
    parser := .startBody }
  r'.call .headers (srv.handleHeaders r'.head)

def parseHeader (srv : Server) (r : Request) : Option (Nat × Request) :=
  let text := r.buffer.unparsed
  let line := lineAt text
  let next := nextLine (text.drop line.length)
  if line = [] then some (endHeaders srv r next)
  else
    match headerLine srv r text line with
    | none => none
    | some .skip => some (0, r.commit next)
    | some (.store b requestHeader) =>
      some (0, { r with buffer := b.commit next, head := { r.head with requestHeader } })
    | some .malformed => some (400, r)
    | some (.error code) => some (code, r)

/-! ### Receiving -/

def parse (srv : Server) (r : Request) : Option (Nat × Request) :=
  match r.parser with
  | .verb => parseVerb r
  | .path => parsePath srv r
  | .httpVersion => parseHttpVersion srv r
  | .startParsingHeaders => some (startParsingHeaders r)
  | .header => parseHeader srv r
  | .startBody => some (100, r)

inductive Next where
  | again | poll | respond
  deriving DecidableEq

def Request.answer (r : Request) (code : Nat) : Request :=
  if code = 0 then r
  else { r with status := some (if 200 ≤ code ∧ code < 600 then code else 500) }

/-- What the loop of `http_request_receive` makes of a parser's result. A parser
that neither advances nor hands over is an error. -/
def settle (r : Request) (code : Nat) (r' : Request) : Next × Request :=
  if code = 100 then (.poll, r')
  else
    let r' := r'.answer (if code = 0 ∧ r'.buffer.unparsed.length = r.buffer.unparsed.length ∧
      r'.parser = r.parser then 500 else code)
    (if r'.status.isSome then .respond else .again, r')

def step (srv : Server) (r : Request) : Option (Next × Request) :=
  (parse srv r).map fun out => settle r out.1 out.2

/-- The parsers still to come. -/
def Parser.rank : Parser → Nat
  | .verb => 5
  | .path => 4
  | .httpVersion => 3
  | .startParsingHeaders => 2
  | .header => 1
  | .startBody => 0

def Request.rounds (r : Request) : Nat := r.parser.rank + r.buffer.unparsed.length

def processFor (srv : Server) : Nat → Request → Option Request
  | 0, r => some r
  | rounds + 1, r =>
    match step srv r with
    | none => none
    | some (.again, r') => processFor srv rounds r'
    | some (_, r') => some r'

/-- The loop of `http_request_receive` over the unparsed data. -/
def process (srv : Server) (r : Request) : Option Request := processFor srv (r.rounds + 1) r

/-- `http_request_receive` with the bytes that the socket has. A request that
has been responded to receives no more. -/
def receive (srv : Server) (r : Request) (bytes : Text) : Option Request :=
  if r.status.isSome then some r
  else
    let (b, room) := r.buffer.makeRoom r.remaining
    if room = 0 then some { r with buffer := b, status := some 431 }
    else
      let bytes := bytes.take room
      process srv { r with
        buffer := b.read bytes
        remaining := r.remaining.map (· - bytes.length)
        total := r.total + bytes.length }

def run (srv : Server) (pieces : List Text) : Option Request := pieces.foldlM (receive srv) .init

end HttpRequest
