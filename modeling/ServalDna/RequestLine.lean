import ServalDna.RequestSplit
import Mathlib.Logic.Relation

/-!
# The request line

What `http_request_parse_path` makes of the path and the query of a request
line. The strings are decoded towards the front of the buffer that they are
read from, each behind a pointer and with a NUL.
-/
namespace RequestLine

open TextCodec Scanner Scanner.Scan HttpScan HttpHeaders ListSlice HttpRequest RequestRun RequestSplit
open List Option

/-! ### Decoding in place -/

variable {mem : Text} {params : List Text}

theorem getD_of_drop {text : Text} (h : mem.drop src = text) (i : Nat) :
    mem.getD (src + i) 0 = text.getD i 0 := by
  rw [← h]
  simp [getD_eq_getElem?_getD]

/-- No escape goes on into what follows. -/
def Delimited (tail : Text) : Prop := ∀ c ∈ tail.head?, hexvalue c = none

variable {tail rest : Text} {srv : Server}

theorem delimited_hexvalue (h : Delimited tail) : hexvalue (tail.getD 0 0) = none := by
  cases tail with
  | nil => decide
  | cons c tail => exact h c rfl

/-- One byte more: the rest of the text is where it was. -/
theorem overwrite_step {enc : Text} (k : Nat) (hdst : dst ≤ src) (hmem : mem.drop src = enc ++ tail)
    (hk : 0 < k) (hrest : enc.drop k = rest) (hlen : k ≤ enc.length)
    (ih : ∀ {mem : Text} {dst src : Nat}, dst ≤ src → mem.drop src = rest ++ tail →
      moveDecoded (wwwFormUriDecode rest).length mem dst src =
        overwrite mem dst (wwwFormUriDecode rest)) :
    moveDecoded (wwwFormUriDecode rest).length (mem.set dst b) (dst + 1) (src + k) =
      overwrite mem dst (b :: wwwFormUriDecode rest) := by
  have hleng := congrArg List.length hmem
  rw [length_drop, length_append] at hleng
  rw [ih (by omega), set_eq_overwrite mem b (by omega)]
  · exact overwrite_above mem dst [b] _ (by omega)
  · rw [drop_set_of_lt (by omega), ← drop_drop, hmem, drop_append_of_le_length hlen, hrest]

/-- A byte that begins no escape is moved as it is. -/
theorem moveDecoded_plain (hc : mem.getD src 0 = c) (hplus : c ≠ 43)
    (hpln : c = 37 → hexvalue (mem.getD (src + 1) 0) = none ∨ hexvalue (mem.getD (src + 2) 0) = none) :
    moveDecoded (len + 1) mem dst src = moveDecoded len (mem.set dst c) (dst + 1) (src + 1) := by
  simp only [moveDecoded, hc, if_neg hplus]
  split
  · next hpct hhigh hlow =>
    rcases hpln (beq_iff_eq.mp hpct) with hnone | hnone
    · rw [hnone] at hhigh
      cases hhigh
    rw [hnone] at hlow
    cases hlow
  · rfl

/-- Decoding does not overtake the text that it reads. -/
theorem moveDecoded_eq (enc : Text) (htail : Delimited tail) (hdst : dst ≤ src)
    (hmem : mem.drop src = enc ++ tail) :
    moveDecoded (wwwFormUriDecode enc).length mem dst src =
      overwrite mem dst (wwwFormUriDecode enc) := by
  fun_induction wwwFormUriDecode enc generalizing mem dst src with
  | case1 => simp [moveDecoded]
  | case2 rest ih =>
    have h0 : mem.getD src 0 = 43 := getD_of_drop hmem 0
    rw [length_cons, moveDecoded, h0]
    exact overwrite_step 1 hdst hmem (by decide) rfl (by simp) ih
  | case3 c hc h l rest hpct high low hlow hhigh ih =>
    have h0 : mem.getD src 0 = c := getD_of_drop hmem 0
    have h1 : mem.getD (src + 1) 0 = h := getD_of_drop hmem 1
    have h2 : mem.getD (src + 2) 0 = l := getD_of_drop hmem 2
    simp only [length_cons, moveDecoded, h0, if_neg hc, hpct, h1, h2, hhigh, hlow]
    exact overwrite_step 3 hdst hmem (by decide) rfl (by simp) ih
  | case4 c hc h l rest hpct hbad ih =>
    have h1 : mem.getD (src + 1) 0 = h := getD_of_drop hmem 1
    have h2 : mem.getD (src + 2) 0 = l := getD_of_drop hmem 2
    have hpln : hexvalue h = none ∨ hexvalue l = none := by
      cases hhigh : hexvalue h with
      | none => exact .inl rfl
      | some high =>
        cases hlow : hexvalue l with
        | none => exact .inr rfl
        | some low => exact absurd hlow (hbad high low hhigh)
    have h0 : mem.getD src 0 = c := getD_of_drop hmem 0
    rw [length_cons, moveDecoded_plain h0 hc fun _ => by rwa [h1, h2]]
    exact overwrite_step 1 hdst hmem (by decide) rfl (by simp) ih
  | case5 c hc rest hsht ih =>
    have hpln : c = 37 → hexvalue (mem.getD (src + 1) 0) = none ∨
        hexvalue (mem.getD (src + 2) 0) = none := by
      rintro rfl
      rw [getD_of_drop hmem 1, getD_of_drop hmem 2]
      rcases rest with _ | ⟨h, _ | ⟨l, rest⟩⟩
      · exact .inl (delimited_hexvalue htail)
      · exact .inr (delimited_hexvalue htail)
      · exact absurd rfl fun hrest => hsht h l rest rfl hrest
    have h0 : mem.getD src 0 = c := getD_of_drop hmem 0
    rw [length_cons, moveDecoded_plain h0 hc hpln]
    exact overwrite_step 1 hdst hmem (by decide) rfl (by simp) ih

theorem decode_length (enc : Text) : (wwwFormUriDecode enc).length ≤ enc.length := by
  fun_induction wwwFormUriDecode enc with
  | case1 => exact le_rfl
  | case2 rest ih => exact Nat.succ_le_succ ih
  | case3 c hc h l rest hpct high low hlow hhigh ih =>
    simp only [length_cons]
    omega
  | case4 c hc h l rest hpct hbad ih | case5 c hc rest hsht ih => exact Nat.succ_le_succ ih

/-! ### One reserved string -/

def stringRoom (enc : Text) : Nat := pointerSize + (wwwFormUriDecode enc).length + 1

section Reserve

variable {b : Buffer} {enc : Text}

theorem reserve_long (address : Nat) (henc : enc ≠ []) (hmem : b.below.drop start = enc ++ d :: tail)
    (hlong : bufferSize - unreservedSize < b.reserved + stringRoom enc) :
    b.reserveUriencoded address start enc.length = some (.error 414) := by
  have hlen : enc.length ≠ 0 := fun h => henc (eq_nil_of_length_eq_zero h)
  rw [stringRoom] at hlong
  simp only [Buffer.reserveUriencoded, if_neg hlen, hmem, take_left' rfl, Buffer.reserve,
    if_pos hlong]

/-- A string that the pointers have not overtaken is decoded, and what lies
behind it stays. -/
theorem reserve_fits (address : Nat) (henc : enc ≠ [])
    (hmem : b.below.drop start = enc ++ d :: tail) (hd : hexvalue d = none)
    (hst : b.reserved + pointerSize ≤ start)
    (hfits : b.reserved + stringRoom enc ≤ bufferSize - unreservedSize) :
    ∃ b', b.reserveUriencoded address start enc.length = some (.ok (b', wwwFormUriDecode enc)) ∧
      b'.below.drop (start + enc.length + 1) = tail ∧ b'.reserved = b.reserved + stringRoom enc ∧
      b'.unparsed = b.unparsed ∧ b'.stale = b.stale := by
  have hlen : enc.length ≠ 0 := fun h => henc (eq_nil_of_length_eq_zero h)
  have hdec := decode_length enc
  have hroom := congrArg List.length hmem
  rw [length_drop, length_append, length_cons] at hroom
  have hdel : Delimited (d :: tail) := by
    intro c hc
    cases hc
    exact hd
  rw [stringRoom] at hfits ⊢
  simp only [Buffer.reserveUriencoded, if_neg hlen, hmem, take_left' rfl, Buffer.reserve,
    if_neg (Nat.not_lt.mpr hfits)]
  rw [if_neg (by omega), moveDecoded_eq enc hdel hst hmem,
    set_eq_overwrite _ _ (by rw [overwrite_length _ _ _ (by omega)]; omega),
    overwrite_above _ _ _ _ (by omega), ← slice, slice_overwrite _ _ _ (by omega)]
  refine ⟨_, rfl, ?_, rfl, rfl, rfl⟩
  have hpoi := pointerBytes_length address
  have hbel := overwrite_below b.below b.reserved (pointerBytes address)
    (wwwFormUriDecode enc ++ [0]) (by omega)
  rw [hpoi] at hbel
  simp only [hbel]
  rw [drop_overwrite _ (by omega), ← drop_drop, ← drop_drop, hmem, drop_left' rfl]
  · rfl
  simp only [length_append, hpoi, length_singleton]
  omega

/-- Strings that take `room` are reserved in the buffer, or refused with 414. -/
def Reserves (out : Option Request) (b : Buffer) (room : Nat) (done : Buffer → Request) : Prop :=
  (b.reserved + room ≤ bufferSize - unreservedSize →
    ∃ b', out = some (done b') ∧ b'.unparsed = b.unparsed ∧ b'.stale = b.stale) ∧
  (bufferSize - unreservedSize < b.reserved + room → b.reserved ≤ bufferSize - unreservedSize →
    ∃ r, out = some r ∧ r.status = some 414)

/-- One string is reserved, and the others behind it. -/
theorem reserves_next {out : Option Request} {done : Buffer → Request} (address : Nat) (henc : enc ≠ [])
    (hmem : b.below.drop start = enc ++ d :: tail) (hd : hexvalue d = none)
    (hst : b.reserved + pointerSize ≤ start)
    (hlong : b.reserveUriencoded address start enc.length = some (.error 414) →
      ∃ r, out = some r ∧ r.status = some 414)
    (hnext : ∀ b', b.reserveUriencoded address start enc.length =
        some (.ok (b', wwwFormUriDecode enc)) → b'.below.drop (start + enc.length + 1) = tail →
      b'.reserved = b.reserved + stringRoom enc → Reserves out b' room done) :
    Reserves out b (stringRoom enc + room) done := by
  by_cases hfits : b.reserved + stringRoom enc ≤ bufferSize - unreservedSize
  · obtain ⟨b', hb', hmem', hres, hunp, hstl⟩ :=
      reserve_fits address henc hmem hd hst hfits
    have hrest := hnext b' hb' hmem' hres
    rw [Reserves, hres, hunp, hstl, add_assoc] at hrest
    exact ⟨hrest.1, fun hover _ => hrest.2 hover hfits⟩
  exact ⟨fun h => absurd h (by omega), fun _ _ =>
    hlong (reserve_long address henc hmem (Nat.lt_of_not_le hfits))⟩

end Reserve

/-! ### The strings of a request line -/

structure Param where
  name : Text
  value : Option Text
  name_ne : name ≠ []
  name_graph : ∀ c ∈ name, isgraph c = true ∧ c ≠ 38 ∧ c ≠ 61
  value_graph : ∀ v ∈ value, ∀ c ∈ v, isgraph c = true ∧ c ≠ 38

def Param.text (p : Param) : Text := p.name ++ (p.value.map (61 :: ·)).getD []

def Param.strings (p : Param) : List Text := p.name :: p.value.toList

def Param.decoded (p : Param) : Text × Option Text :=
  (wwwFormUriDecode p.name, p.value.map wwwFormUriDecode)

def spelled : List Param → Text
  | [] => []
  | p :: params => p.text ++ (if params.isEmpty then 32 else 38) :: spelled params

def roomFor (strings : List Text) : Nat := (strings.map stringRoom).sum

@[simp] theorem roomFor_nil : roomFor [] = 0 := rfl
@[simp] theorem roomFor_cons (strings : List Text) :
    roomFor (s :: strings) = stringRoom s + roomFor strings := by simp [roomFor]
@[simp] theorem roomFor_append (t : List Text) : roomFor (s ++ t) = roomFor s + roomFor t := by
  simp [roomFor]

/-- Before each string is decoded to behind its pointer, the strings before it
and that pointer end where it starts or sooner. -/
def Roomy (reserved start : Nat) : List Text → Prop
  | [] => True
  | s :: strings =>
    reserved + pointerSize ≤ start ∧ Roomy (reserved + stringRoom s) (start + s.length + 1) strings

theorem splitParam_eq {name : Text} (hname : 61 ∉ name) :
    splitParam name = (name, none) ∧ ∀ value, splitParam (name ++ 61 :: value) = (name, some value) := by
  have hne : ∀ c ∈ name, (c != 61) = true := fun c hc => bne_iff_ne.mpr fun h => hname (h ▸ hc)
  constructor
  · simp [splitParam, takeWhile_eq_self_iff.mpr hne, hname]
  · simp [splitParam, takeWhile_append_of_pos hne]

theorem splitParam_text (p : Param) : splitParam p.text = (p.name, p.value) := by
  have hspl := splitParam_eq fun h : 61 ∈ p.name => (p.name_graph 61 h).2.2 rfl
  rw [Param.text]
  cases p.value with
  | none => exact (congrArg splitParam (append_nil p.name)).trans hspl.1
  | some v => exact hspl.2 v

/-- What the loop over the parameters comes to. -/
theorem reserveParams_spec (srv : Server) (params : List Param) (i start : Nat) (r : Request)
    (tail : Text) (hmem : r.buffer.below.drop start = spelled params ++ tail)
    (hrm : Roomy r.buffer.reserved start (params.flatMap Param.strings))
    (hvals : ∀ p ∈ params, p.value ≠ some []) :
    Reserves (reserveParams srv i start (params.map Param.text) r) r.buffer
      (roomFor (params.flatMap Param.strings)) fun b => { r with
        buffer := b
        head := { r.head with
          queryParameters := r.head.queryParameters ++ params.map Param.decoded }
        parser := .httpVersion } := by
  induction params generalizing i start r with
  | nil =>
    refine ⟨fun _ => ⟨r.buffer, ?_, rfl, rfl⟩, fun hlong hsht => ?_⟩
    · simp [reserveParams]
    simp at hlong
    omega
  | cons p params ih =>
    rw [forall_mem_cons] at hvals
    have hsep : hexvalue (if params.isEmpty then 32 else 38) = none := by split <;> decide
    generalize hd : (if params.isEmpty then (32 : UInt8) else 38) = d at hsep
    simp only [spelled, hd, append_assoc, cons_append] at hmem
    simp only [flatMap_cons, roomFor_append, map_cons, reserveParams, splitParam_text]
    cases hval : p.value with
    | none =>
      have htext : p.text = p.name := by simp [Param.text, hval]
      have hstrs : p.strings = [p.name] := by simp [Param.strings, hval]
      rw [htext] at hmem ⊢
      simp only [flatMap_cons, hstrs, singleton_append, Roomy] at hrm
      simp only [hstrs, roomFor_cons, roomFor_nil, add_zero]
      refine reserves_next (srv.address (.name i)) p.name_ne hmem hsep hrm.1 (fun hlong => ?_)
        fun b1 hb1 hmem1 hres1 => ?_
      · simp only [hlong]
        exact ⟨_, rfl, rfl⟩
      have hrest := ih (i + 1) (start + p.name.length + 1) { r with
        buffer := b1
        head := { r.head with
          queryParameters := r.head.queryParameters ++ [(wwwFormUriDecode p.name, none)] } }
        hmem1 (by rw [hres1]; exact hrm.2) hvals.2
      simp only [hb1]
      simpa [Param.decoded, hval] using hrest
    | some v =>
      have htext : p.text = p.name ++ 61 :: v := by simp [Param.text, hval]
      have hstrs : p.strings = [p.name, v] := by simp [Param.strings, hval]
      have hlen : start + p.text.length + 1 = start + p.name.length + 1 + v.length + 1 := by
        rw [htext, length_append, length_cons]
        omega
      have hv : v ≠ [] := fun h => hvals.1 (by rw [hval, h])
      rw [hlen]
      simp only [htext, append_assoc, cons_append] at hmem
      simp only [flatMap_cons, hstrs, cons_append, nil_append, Roomy] at hrm
      simp only [hstrs, roomFor_cons, roomFor_nil, add_zero]
      rw [add_assoc (stringRoom p.name)]
      refine reserves_next (srv.address (.name i)) p.name_ne hmem (by decide) hrm.1
        (fun hlong => ?_) fun b1 hb1 hmem1 hres1 => ?_
      · simp only [hlong]
        exact ⟨_, rfl, rfl⟩
      rw [← hres1] at hrm
      simp only [hb1]
      refine reserves_next (srv.address (.value i)) hv hmem1 hsep hrm.2.1 (fun hlong => ?_)
        fun b2 hb2 hmem2 hres2 => ?_
      · simp only [hlong]
        exact ⟨_, rfl, rfl⟩
      have hrest := ih (i + 1) (start + p.name.length + 1 + v.length + 1) { r with
        buffer := b2
        head := { r.head with
          queryParameters := r.head.queryParameters ++
            [(wwwFormUriDecode p.name, some (wwwFormUriDecode v))] } }
        hmem2 (by rw [hres2]; exact hrm.2.2) hvals.2
      simp only [hb2]
      simpa [Param.decoded, hval] using hrest

/-! ### Scanning the request line -/

theorem Param.text_graph (p : Param) : ∀ c ∈ p.text, isgraph c = true ∧ c ≠ 38 := by
  intro c hc
  rw [Param.text, mem_append] at hc
  rcases hc with hc | hc
  · exact ⟨(p.name_graph c hc).1, (p.name_graph c hc).2.1⟩
  cases hval : p.value with
  | none => simp [hval] at hc
  | some v =>
    simp only [hval, map_some, getD_some, mem_cons] at hc
    rcases hc with rfl | hc
    · decide
    · exact p.value_graph v hval c hc

theorem Param.text_ne (p : Param) : p.text ≠ [] := by simp [Param.text, p.name_ne]

theorem queryFrom_spelled (params : List Param) (cnt : Nat) (rest : Text)
    (hcnt : params.length ≤ cnt) (hne : params ≠ []) (c : UInt8) (hc : c = 63 ∨ c = 38) :
    queryFrom cnt (c :: spelled params ++ rest) = some (params.map Param.text, 32 :: rest) := by
  induction params generalizing cnt c with
  | nil => exact absurd rfl hne
  | cons p params ih =>
    cases cnt with
    | zero => exact absurd hcnt (by simp)
    | succ cnt =>
      by_cases hlast : params = []
      · subst hlast
        simp only [spelled, isEmpty_nil, if_true, cons_append, append_assoc,
          nil_append, queryFrom, if_pos hc]
        rw [run_skipWordPrintable rest p.text_ne p.text_graph (.inl (by decide))]
        cases cnt <;> simp [queryFrom]
      have hemp : params.isEmpty = false := by simpa using hlast
      simp only [spelled, hemp, Bool.false_eq_true, if_false, cons_append,
        append_assoc, queryFrom, if_pos hc]
      rw [run_skipWordPrintable _ p.text_ne p.text_graph (.inr rfl)]
      have hrest := ih cnt (Nat.le_of_succ_le_succ hcnt) hlast 38 (.inr rfl)
      rw [cons_append] at hrest
      simp [hrest]

/-- A request line; a value may be empty. -/
structure Line where
  verb : Verb
  path : Text
  params : List Param
  minor : Fin 10
  path_ne : path ≠ []
  path_graph : ∀ c ∈ path, isgraph c = true ∧ c ≠ 63
  params_le : params.length ≤ maxParams

def Line.target (l : Line) : Text :=
  l.path ++ (if l.params.isEmpty then 32 else 63) :: spelled l.params

def Line.version (l : Line) : Text := ascii "HTTP/1." ++ [UInt8.ofNat (48 + l.minor)] ++ crlf

def Line.text (l : Line) : Text := l.verb.word ++ ascii " " ++ l.target ++ l.version

def Line.strings (l : Line) : List Text := l.path :: l.params.flatMap Param.strings

theorem scanPath_target (l : Line) :
    scanPath.run (l.target ++ rest) = some (some (l.path, l.params.map Param.text), rest) := by
  simp only [Line.target, scanPath, run_bind, append_assoc, cons_append]
  by_cases hprms : l.params = []
  · rw [hprms]
    rw [run_skipWordPrintable _ l.path_ne l.path_graph (.inl (by decide))]
    rfl
  have hemp : l.params.isEmpty = false := by simpa using hprms
  have hqry := queryFrom_spelled l.params maxParams rest l.params_le hprms 63 (.inl rfl)
  rw [cons_append] at hqry
  simp only [hemp, Bool.false_eq_true, if_false]
  rw [run_skipWordPrintable _ l.path_ne l.path_graph (.inr rfl)]
  simp only [hqry, map_some]
  rfl

theorem scanVersion_version (l : Line) :
    (scanVersion []).run (l.version ++ rest) = some (some (1, l.minor.val), rest) := by
  have hdig : ∀ minor : Fin 10, isdigit (UInt8.ofNat (48 + minor)) = true := by decide
  have hscan : ∀ minor : Fin 10,
      (scanUint (2 ^ 32) 10 0 0 [UInt8.ofNat (48 + minor), 13]).value = minor ∧
        (scanUint (2 ^ 32) 10 0 0 [UInt8.ofNat (48 + minor), 13]).newvalue = minor ∧
        (scanUint (2 ^ 32) 10 0 0 [UInt8.ofNat (48 + minor), 13]).rest = [13] := by decide
  have hmajor : ∀ text, (parseUint32 []).run (49 :: 46 :: text) = some (some 1, 46 :: text) :=
    fun text => (run_parseUint32_nil rfl).trans rfl
  have hminor : ∀ text, (parseUint32 []).run (UInt8.ofNat (48 + l.minor) :: 13 :: text) =
      some (some l.minor.val, 13 :: text) := by
    intro text
    obtain ⟨hval, hnew, hrest⟩ := hscan l.minor
    have happ := scanUint_append (2 ^ 32) 10 0 0 [UInt8.ofNat (48 + l.minor), 13] text
      fun h => absurd (hrest.symm.trans h) (cons_ne_nil _ _)
    rw [hrest] at happ
    refine (run_parseUint32_nil (by exact hdig l.minor)).trans ?_
    change scanUint (2 ^ 32) 10 0 0 (UInt8.ofNat (48 + l.minor) :: 13 :: text) = _ at happ
    rw [happ]
    simp only [hval, hnew, if_true, singleton_append]
  have hhttp : (skipLiteral (ascii "HTTP/")).run (l.version ++ rest) =
      some (some (), 49 :: 46 :: UInt8.ofNat (48 + l.minor) :: 13 :: 10 :: rest) := rfl
  have hdot : ∀ text, (skipLiteral (ascii ".")).run (46 :: text) = some (some (), text) :=
    fun text => rfl
  have heol : skipEol.run (13 :: 10 :: rest) = some (some (), rest) := rfl
  have hsm : decide (l.minor.val < 255) = true := decide_eq_true (by omega)
  have hone : (decide (0 < 1) && decide (1 < 255)) = true := rfl
  simp only [scanVersion, run_bind, hhttp, hmajor, run_require, hone, if_true, hdot, hminor, hsm,
    heol, run_pure]

theorem scanVerb_word : scanVerb httpVerbs (verb.word ++ ascii " " ++ rest) = .done verb rest := by
  cases verb <;> rfl

/-! ### Parsing the request line -/

abbrev Rounds (srv : Server) : Request → Request → Prop :=
  Relation.ReflTransGen fun r r' => step srv r = some (.again, r')

theorem Rounds.process_eq (h : Rounds srv r r') : process srv r = process srv r' := by
  induction h with
  | refl => rfl
  | tail _ hstep ih => rw [ih, RequestRun.process_eq, hstep]

def Line.start (l : Line) : Nat := Buffer.init.endAt + (l.verb.word ++ ascii " ").length

def Line.head (l : Line) : Head :=
  { Head.init with
    verb := some l.verb
    path := some (wwwFormUriDecode l.path)
    queryParameters := l.params.map Param.decoded
    versionMajor := 1
    versionMinor := l.minor }

/-- The text is read at once and parsed up to the call of `handle_first_line`,
with `rest` behind the line. -/
def HandsOver (srv : Server) (text rest : Text) (head : Head) : Prop :=
  ∃ r r' code, Rounds srv (append .init text) r ∧ run srv [text] = process srv r ∧
    parse srv r = some (code, r') ∧ r'.status = none ∧ r'.calls = [(.firstLine, text.length)] ∧
    r'.head = head ∧ r'.buffer.unparsed = rest

theorem run_single_eq (hfits : Buffer.init.endAt + text.length ≤ bufferSize) :
    run srv [text] = process srv (append .init text) := by
  rw [HttpRequest.run, foldlM_cons, receive_init hfits]
  cases process srv (append .init text) <;> rfl

theorem HandsOver.calls {head : Head} (h : HandsOver srv text rest head)
    (hrun : run srv [text] = some w) : w.calls ≠ [] := by
  obtain ⟨r, r', code, -, hproc, hpar, -, hcs, -⟩ := h
  have hkept : ∃ new, w.calls = (settle r code r').2.calls ++ new := by
    rw [hproc, RequestRun.process_eq, step, hpar, map_some] at hrun
    generalize settle r code r' = settled at *
    rcases settled with ⟨_ | _ | _, s⟩
    · obtain ⟨new, hnew, -⟩ := (advance_process s hrun).calls
      exact ⟨new, hnew⟩
    all_goals
      cases hrun
      exact ⟨[], (append_nil _).symm⟩
  obtain ⟨new, hnew⟩ := hkept
  rw [hnew, settle_calls, hcs]
  exact cons_ne_nil _ _

theorem commit_append {b : Buffer} (h : b.unparsed = used ++ rest) :
    b.commit rest = { b with below := b.below ++ used, unparsed := rest } := by
  simp [Buffer.commit, h]

section Line

variable (srv : Server) (l : Line) (rest : Text)

def Line.verbParsed : Request :=
  { append .init (l.text ++ rest) with
    buffer := { Buffer.init with
      below := Buffer.init.below ++ (l.verb.word ++ ascii " ")
      unparsed := l.target ++ (l.version ++ rest) }
    head := { Head.init with verb := some l.verb }
    parser := .path }

theorem step_verb : step srv (append .init (l.text ++ rest)) = some (.again, l.verbParsed rest) := by
  have hunp : (append .init (l.text ++ rest)).buffer.unparsed =
      l.verb.word ++ ascii " " ++ (l.target ++ (l.version ++ rest)) := by
    simp [append, Buffer.read, Request.init, Buffer.init, Line.text, append_assoc]
  have hne : (append .init (l.text ++ rest)).buffer.unparsed ≠ [] := by
    rw [hunp]
    cases l.verb <;> simp [Verb.word, ascii]
  have hpar : parse srv (append .init (l.text ++ rest)) = some (0, l.verbParsed rest) := by
    change parseVerb _ = _
    rw [parseVerb, if_neg hne, hunp, scanVerb_word]
    simp only [Request.commit, commit_append hunp]
    simp [Line.verbParsed, append, Buffer.read, Request.init, Buffer.init]
  rw [step, hpar, map_some, settle_again_of rfl]
  intro h
  cases h.2

def Line.pathParsed (b : Buffer) : Request :=
  { l.verbParsed rest with
    buffer := b
    head := { Head.init with
      verb := some l.verb
      path := some (wwwFormUriDecode l.path)
      queryParameters := l.params.map Param.decoded }
    parser := .httpVersion }

theorem parse_path (hvals : ∀ p ∈ l.params, p.value ≠ some []) (hrm : Roomy 0 l.start l.strings) :
    (roomFor l.strings ≤ bufferSize - unreservedSize →
      ∃ b, parse srv (l.verbParsed rest) = some (0, l.pathParsed rest b) ∧
        b.unparsed = l.version ++ rest ∧ b.stale = []) ∧
    (bufferSize - unreservedSize < roomFor l.strings →
      ∃ r, parse srv (l.verbParsed rest) = some (0, r) ∧ r.status = some 414 ∧ r.calls = [] ∧
        r.buffer.unparsed = l.version ++ rest) := by
  have hunp : (l.verbParsed rest).buffer.unparsed = l.target ++ (l.version ++ rest) := rfl
  have hpar : parse srv (l.verbParsed rest) =
      (reservePath srv (l.verbParsed rest).buffer.below.length l.path (l.params.map Param.text)
        ((l.verbParsed rest).commit (l.version ++ rest))).map fun r => (0, r) := by
    change parsePath srv _ = _
    rw [parsePath, hunp, scanned_done_of (scanPath_target l)]
  have hlen : (l.verbParsed rest).buffer.below.length = l.start := by
    simp [Line.verbParsed, Line.start, Buffer.init, Buffer.endAt]
  have hcom : ((l.verbParsed rest).commit (l.version ++ rest)).buffer.below =
      Buffer.init.below ++ (l.verb.word ++ ascii " ") ++ l.target := by
    simp only [Request.commit, commit_append hunp]
    rfl
  have hmem : ((l.verbParsed rest).commit (l.version ++ rest)).buffer.below.drop l.start =
      l.path ++ (if l.params.isEmpty then 32 else 63) :: (spelled l.params ++ []) := by
    rw [hcom, drop_left', append_nil, Line.target]
    simp [Line.start, Buffer.endAt, Buffer.init]
  have hsep : hexvalue (if l.params.isEmpty then 32 else 63) = none := by split <;> decide
  generalize hr : (l.verbParsed rest).commit (l.version ++ rest) = r at hpar hmem
  have hres : r.buffer.reserved = 0 := by rw [← hr]; rfl
  have hunp' : r.buffer.unparsed = l.version ++ rest := by rw [← hr]; rfl
  have hstl : r.buffer.stale = [] := by rw [← hr]; rfl
  have hcs : r.calls = [] := by rw [← hr]; rfl
  rw [hlen] at hpar
  simp only [Line.strings, roomFor_cons, Roomy] at hrm ⊢
  have hrese : Reserves (reservePath srv l.start l.path (l.params.map Param.text) r) r.buffer
      (stringRoom l.path + roomFor (l.params.flatMap Param.strings)) fun b => { r with
        buffer := b
        head := { r.head with
          path := some (wwwFormUriDecode l.path)
          queryParameters := r.head.queryParameters ++ l.params.map Param.decoded }
        parser := .httpVersion } := by
    refine reserves_next (srv.address .path) l.path_ne hmem hsep (by rw [hres]; exact hrm.1)
      (fun hlong => ?_) fun b1 hb1 hmem1 hres1 => ?_
    · simp only [reservePath, hlong]
      exact ⟨_, rfl, rfl⟩
    simp only [reservePath, hb1]
    exact reserveParams_spec srv l.params 0 (l.start + l.path.length + 1) _ [] hmem1
      (by rw [hres1, hres]; exact hrm.2) hvals
  rw [Reserves, hres, hunp', hstl, zero_add] at hrese
  refine ⟨fun hfits => ?_, fun hlong => ?_⟩
  · obtain ⟨b, hb, hb'⟩ := hrese.1 hfits
    refine ⟨b, ?_, hb'⟩
    rw [hpar, hb, map_some, ← hr]
    rfl
  obtain ⟨r', hr', hstat⟩ := hrese.2 hlong (Nat.zero_le _)
  rw [hr'] at hpar
  have hkept := reserved_reservePath srv _ _ _ hr'
  exact ⟨r', hpar, hstat, hkept.calls.trans hcs, hkept.unparsed.trans hunp'⟩

/-- A line whose strings fit comes to the call of the handler. -/
theorem handsOver_line (hfits : Buffer.init.endAt + (l.text ++ rest).length ≤ bufferSize)
    (hvals : ∀ p ∈ l.params, p.value ≠ some [])
    (hrm : Roomy 0 l.start l.strings)
    (hroom : roomFor l.strings ≤ bufferSize - unreservedSize) :
    HandsOver srv (l.text ++ rest) rest l.head := by
  obtain ⟨b, hpar, hunp, hstl⟩ := (parse_path srv l rest hvals hrm).1 hroom
  have hstep : step srv (l.verbParsed rest) = some (.again, l.pathParsed rest b) := by
    rw [step, hpar, map_some, settle_again_of rfl]
    intro h
    cases h.2
  have hver : parse srv (l.pathParsed rest b) = some (Request.call
      { (l.pathParsed rest b).commit rest with head := l.head, parser := .startParsingHeaders }
      .firstLine (srv.handleFirstLine l.head)) := by
    change parseHttpVersion srv _ = _
    have hunp' : (l.pathParsed rest b).buffer.unparsed = l.version ++ rest := hunp
    have hstl' : (l.pathParsed rest b).buffer.stale = [] := hstl
    rw [parseHttpVersion, hunp', hstl', scanned_done_of (scanVersion_version l)]
    rfl
  have hrds : Rounds srv (append .init (l.text ++ rest)) (l.pathParsed rest b) :=
    .tail (.single (step_verb srv l rest)) hstep
  refine ⟨l.pathParsed rest b, _, _, hrds, ?_, hver, rfl, ?_, rfl, rfl⟩
  · rw [run_single_eq hfits, hrds.process_eq]
  · simp [Line.pathParsed, Line.verbParsed, Request.commit, append, Request.init]

/-- A line whose strings take too much room is refused with 414. -/
theorem refused_line (hvals : ∀ p ∈ l.params, p.value ≠ some []) (hrm : Roomy 0 l.start l.strings)
    (hlong : bufferSize - unreservedSize < roomFor l.strings) :
    ∃ r, process srv (append .init (l.text ++ rest)) = some r ∧ r.status = some 414 ∧ r.calls = [] := by
  obtain ⟨r, hpar, hstat, hcs, hunp⟩ := (parse_path srv l rest hvals hrm).2 hlong
  have hmv : r.buffer.unparsed.length ≠ (l.verbParsed rest).buffer.unparsed.length := by
    rw [hunp]
    simp [Line.verbParsed, Line.target]
    omega
  refine ⟨r, ?_, hstat, hcs⟩
  rw [RequestRun.process_eq, step_verb]
  simp only
  rw [RequestRun.process_eq, step, hpar]
  simp [settle, hmv, Request.answer, hstat]

end Line

/-- Eleven strings find room in the bytes put aside. -/
theorem roomy_of_length (h : reserved + pointerSize * strings.length ≤ start) :
    Roomy reserved start strings := by
  induction strings generalizing reserved start with
  | nil => trivial
  | cons s strings ih =>
    have hdec := decode_length s
    rw [length_cons, Nat.mul_succ] at h
    refine ⟨by omega, ih ?_⟩
    rw [stringRoom]
    omega

/-! ### Other lines -/

/-- A piece of the query between the `&`s. -/
def Piece (query p : Text) : Prop :=
  ∃ a b, query = a ++ p ++ b ∧ 38 ∉ p ∧ (a = [] ∨ a.getLast? = some 38) ∧ (b = [] ∨ b.head? = some 38)

/-- A line of printable bytes and spaces in which no path, name or value is empty. -/
structure Harmless (text : Text) : Prop where
  line : ∃ content, 10 ∉ content ∧ (text = content ∨ text = content ++ [10])
  printable : ∀ c ∈ text, isprint c = true ∨ isspace c = true
  path : ∀ (verb : Verb) target, text = verb.word ++ ascii " " ++ target → target.head? ≠ some 32
  params : ∀ (verb : Verb) path query after,
    text = verb.word ++ ascii " " ++ (path ++ 63 :: (query ++ after)) →
    (∀ c ∈ path, isspace c = false ∧ c ≠ 63) → (∀ c ∈ query, isspace c = false) →
    (∀ c ∈ after.head?, isspace c = true) → ∀ p, Piece query p →
    ∀ name value, p = name ++ 61 :: value → 61 ∉ name → name ≠ [] ∧ value ≠ []

/-- Nothing stands behind the LF of a line. -/
theorem Harmless.behind_lf (h : Harmless text) (hrest : 10 :: rest <:+ text) : rest = [] := by
  obtain ⟨content, hcon, rfl | rfl⟩ := h.line
  · exact absurd (hrest.subset mem_cons_self) hcon
  obtain ⟨pre, hbef⟩ := hrest
  cases eq_nil_or_concat rest with
  | inl hnil => exact hnil
  | inr hlast =>
    obtain ⟨init, c, rfl⟩ := hlast
    have hinit : pre ++ 10 :: init = content := by
      rw [concat_eq_append, ← cons_append, ← append_assoc] at hbef
      exact append_inj_left' hbef rfl
    exact absurd (by rw [← hinit]; simp) hcon

/-- Only a question mark or an ampersand begins a parameter. -/
theorem queryFrom_head {cnt : Nat} (h : queryFrom cnt (c :: text) = some (params, rest))
    (hne : params ≠ []) : c = 63 ∨ c = 38 := by
  by_contra hc
  cases cnt <;> simp [queryFrom, hc] at h <;> exact hne h.1

/-- The parameters that are read are pieces of the query. -/
theorem queryFrom_pieces {cnt : Nat} {text : Text}
    (h : queryFrom cnt (c :: text) = some (params, rest)) :
    ∀ p ∈ params, p ≠ [] ∧ Piece (text.takeWhile (!isspace ·)) p := by
  induction cnt generalizing c text params with
  | zero =>
    cases h
    exact forall_mem_nil _
  | succ cnt ih =>
    rw [queryFrom] at h
    split at h
    · next hc =>
      split at h
      · cases h
      · cases h
        exact forall_mem_nil _
      next w rest' hword =>
      obtain ⟨out, hout, ⟨⟩⟩ := map_eq_some_iff.mp h
      obtain ⟨d, after, rfl, rfl, hne, hw, hd⟩ := skipWordPrintable_done hword
      have hsp : ∀ a ∈ w, (!isspace a) = true := by
        intro a ha
        have := (hw a ha).1
        rw [isgraph, Bool.and_eq_true] at this
        exact this.1
      have hamp : 38 ∉ w := fun hmem => (hw 38 hmem).2 rfl
      rw [takeWhile_append_of_pos hsp, takeWhile_cons]
      intro p hp
      rcases mem_cons.mp hp with rfl | hp
      · refine ⟨hne, [], _, rfl, hamp, .inl rfl, ?_⟩
        rcases hd with hd | rfl
        · exact .inl (by simp [hd])
        · exact .inr (by simp [isspace])
      obtain rfl : d = 38 := (queryFrom_head hout (ne_nil_of_mem hp)).resolve_left <| by
        rintro rfl
        exact absurd hd (by decide)
      obtain ⟨hp0, a, b, hqry, hp', ha, hb⟩ := ih hout p hp
      refine ⟨hp0, w ++ 38 :: a, b, ?_, hp', .inr ?_, hb⟩
      · rw [hqry]
        simp [isspace]
      rcases ha with rfl | ha
      · simp
      · simp [getLast?_cons, ha]
    · cases h
      exact forall_mem_nil _

theorem queryFrom_none {cnt : Nat} (h : queryFrom cnt text = none) :
    ∃ c ∈ text, isprint c = false ∧ isspace c = false := by
  fun_induction queryFrom cnt text with
  | case3 _ c _ _ hword =>
    obtain ⟨w, d, after, rfl, -, -, hd⟩ := skipWordPrintable_none hword
    exact ⟨d, by simp, hd⟩
  | case5 _ c _ _ _ _ hword ih =>
    obtain ⟨d, hd, hd'⟩ := ih (map_eq_none_iff.mp h)
    have hsuf := leaves_skipWordPrintable 38 _ _ _ hword
    exact ⟨d, mem_cons_of_mem c (hsuf.subset hd), hd'⟩
  | _ => cases h

theorem reserveUriencoded_none {b : Buffer} {address start length : Nat}
    (h : b.reserveUriencoded address start length = none) : length = 0 := by
  simp only [Buffer.reserveUriencoded] at h
  split at h
  · next hlen => exact hlen
  · cases h

theorem reserveParams_none {i start : Nat} (h : reserveParams srv i start params r = none) :
    ∃ p ∈ params, (splitParam p).1 = [] ∨ (splitParam p).2 = some [] := by
  fun_induction reserveParams srv i start params r with
  | case2 _ _ _ _ _ _ _ hspl hname =>
    have hnil := eq_nil_of_length_eq_zero (reserveUriencoded_none hname)
    exact ⟨_, mem_cons_self, .inl (by rw [hspl, hnil])⟩
  | case5 _ _ _ _ _ _ _ _ _ _ hval hspl =>
    have hnil := eq_nil_of_length_eq_zero (reserveUriencoded_none hval)
    exact ⟨_, mem_cons_self, .inr (by rw [hspl, hnil])⟩
  | case4 _ _ _ _ _ _ _ _ _ _ ih | case7 _ _ _ _ _ _ _ _ _ _ _ _ _ _ ih =>
    exact exists_mem_cons_of_exists (ih h)
  | _ => cases h

/-- An error leaves a status code. -/
theorem reserveParams_status (h : reserveParams srv i start params r = some r') :
    r'.status.isSome = true ∨ r'.parser = .httpVersion := by
  fun_induction reserveParams srv i start params r with
  | case1 =>
    cases h
    exact .inr rfl
  | case3 | case6 =>
    cases h
    exact .inl rfl
  | case4 _ _ _ _ _ _ _ _ _ _ ih | case7 _ _ _ _ _ _ _ _ _ _ _ _ _ _ ih => exact ih h
  | _ => cases h

/-- An empty name or value is behind or before a `=`. -/
theorem splitParam_empty {p : Text} (hp : p ≠ [])
    (h : (splitParam p).1 = [] ∨ (splitParam p).2 = some []) :
    ∃ name value, p = name ++ 61 :: value ∧ 61 ∉ name ∧ (name = [] ∨ value = []) := by
  by_cases hmem : 61 ∈ p
  · obtain ⟨name, value, rfl, hname⟩ := eq_append_cons_of_mem hmem
    refine ⟨name, value, rfl, hname, ?_⟩
    simpa [(splitParam_eq hname).2] using h
  · simp [(splitParam_eq hmem).1, hp] at h

theorem scanPath_none {text : Text} (h : scanPath.run text = none) :
    ∃ c ∈ text, isprint c = false ∧ isspace c = false := by
  simp only [scanPath, run_bind] at h
  split at h
  · next htgt =>
    split at htgt
    · next hword =>
      obtain ⟨w, c, after, rfl, -, -, hc⟩ := skipWordPrintable_none hword
      exact ⟨c, by simp, hc⟩
    · cases htgt
    next hword =>
    obtain ⟨c, hc, hc'⟩ := queryFrom_none (map_eq_none_iff.mp htgt)
    exact ⟨c, (leaves_skipWordPrintable 63 _ _ _ hword).subset hc, hc'⟩
  · cases h
  next rest _ =>
  rcases literalFrom_cases (fun a b : UInt8 => a == b) (ascii " ") rest with
    ⟨mid, hmid⟩ | ⟨d, mid, hmid⟩ | hmid <;>
    simp [skipLiteral, literalBy, hmid] at h

/-- An empty path is one before a space; the parameters are pieces of the query. -/
theorem scanPath_done {text path : Text} (h : scanPath.run text = some (some (path, params), rest)) :
    path = [] ∧ text.head? = some 32 ∨
      path ≠ [] ∧ (params = [] ∨ ∃ query after, text = path ++ 63 :: (query ++ after) ∧
        (∀ c ∈ path, isspace c = false ∧ c ≠ 63) ∧ (∀ c ∈ query, isspace c = false) ∧
        (∀ c ∈ after.head?, isspace c = true) ∧ ∀ p ∈ params, p ≠ [] ∧ Piece query p) := by
  obtain ⟨x, mid, htgt, h⟩ := run_bind_eq_some h
  obtain ⟨_, mid', hsp, ⟨⟩⟩ := run_bind_eq_some h
  simp only at htgt
  split at htgt
  · cases htgt
  · next hword =>
    cases htgt
    left
    rcases skipWordPrintable_fail hword with rfl | rfl
    · cases hsp
    refine ⟨rfl, ?_⟩
    cases mid with
    | nil => cases hsp
    | cons c mid =>
      change (if (c == 32) = true then _ else _) = _ at hsp
      split at hsp
      · next hc => simpa using hc
      · cases hsp
  next path' rest' hword =>
  obtain ⟨out, hout, ⟨⟩⟩ := map_eq_some_iff.mp htgt
  obtain ⟨c, after, rfl, rfl, hne, hw, hc⟩ := skipWordPrintable_done hword
  refine .inr ⟨hne, ?_⟩
  by_cases hprms : out.1 = []
  · exact .inl hprms
  right
  obtain rfl : c = 63 := (queryFrom_head hout hprms).resolve_right <| by
    rintro rfl
    exact absurd hc (by decide)
  refine ⟨after.takeWhile (!isspace ·), after.dropWhile (!isspace ·), ?_, fun a ha => ?_,
    fun a ha => ?_, fun a ha => ?_, queryFrom_pieces hout⟩
  · rw [takeWhile_append_dropWhile]
  · have := hw a ha
    rw [isgraph, Bool.and_eq_true, Bool.not_eq_true'] at this
    exact ⟨this.1.1, this.2⟩
  · simpa using mem_takeWhile_imp ha
  · simpa using head_dropWhile ha

theorem total_scanVersion : Total (scanVersion []) :=
  (total_literalBy _ _).bind fun _ => (total_parseUint _ _).bind fun _ =>
    (total_require _).bind fun _ => (total_literalBy _ _).bind fun _ =>
      (total_parseUint _ _).bind fun _ => (total_require _).bind fun _ =>
        total_skipEol.bind fun _ => total_pure _

/-- Where a line is that is received in one read. -/
def Along (text : Text) (r : Request) : Prop :=
  r.buffer.stale = [] ∧ match r.parser with
    | .verb => r.buffer.unparsed = text
    | .path => ∃ verb : Verb, text = verb.word ++ ascii " " ++ r.buffer.unparsed
    | .httpVersion => r.buffer.unparsed <:+ text
    | .startParsingHeaders | .header => r.buffer.unparsed = []
    | .startBody => True

theorem scanVerb_split (h : scanVerb verbs text = .done verb rest) :
    text = verb.word ++ ascii " " ++ rest := by
  have hrun := scanVerb_run h
  rw [skipLiteral_bind] at hrun
  exact skipLiteral_some hrun

theorem along_step {text : Text} (htext : Harmless text) (hr : Along text r)
    (h : step srv r = some (.again, r')) : Along text r' := by
  obtain ⟨⟨code, r1⟩, hpar, heq⟩ := map_eq_some_iff.mp h
  obtain ⟨rfl, rfl, hstat, -⟩ := settle_again heq
  have hfol := (advance_parse hpar).buffer
  obtain ⟨hstl, hstg⟩ := hr
  refine ⟨hfol.stale.trans hstl, ?_⟩
  rw [parse] at hpar
  cases hpsr : r.parser with
  | verb =>
    simp only [hpsr, parseVerb] at hpar hstg
    split at hpar
    · cases hpar
    split at hpar
    · cases hpar
    · cases hpar
    next hscan =>
    cases hpar
    rw [hstg] at hscan
    exact ⟨_, scanVerb_split hscan⟩
  | path =>
    simp only [hpsr, parsePath] at hpar hstg
    split at hpar
    · cases hpar
    · cases hpar
    · cases hpar
    next hscan =>
    obtain ⟨r2, hres, ⟨⟩⟩ := map_eq_some_iff.mp hpar
    obtain ⟨verb, hverb⟩ := hstg
    have hpsr' : r1.parser = .httpVersion := by
      simp only [reservePath] at hres
      split at hres
      · cases hres
      · cases hres
        cases hstat
      refine (reserveParams_status hres).resolve_left ?_
      rw [hstat]
      decide
    rw [hpsr']
    exact hfol.unparsed.trans ⟨_, hverb.symm⟩
  | httpVersion =>
    simp only [hpsr, parseHttpVersion] at hpar hstg
    split at hpar
    · cases hpar
    · cases hpar
    · cases hpar
    next hscan =>
    simp only [Request.call, Option.some.injEq, Prod.mk.injEq] at hpar
    obtain ⟨-, rfl⟩ := hpar
    have hlf := (scanVersion_done (scanned_done hscan)).trans hstg
    exact htext.behind_lf hlf
  | startParsingHeaders =>
    simp only [hpsr, startParsingHeaders] at hpar hstg
    split at hpar <;> cases hpar
    exact hstg
  | header =>
    simp only [hpsr] at hstg
    simp only [hpsr, parseHeader, hstg] at hpar
    simp [lineAt, endHeaders, Request.call] at hpar
    rw [← hpar.2]
    trivial
  | startBody =>
    simp only [hpsr] at hpar
    cases hpar

theorem parse_along {text : Text} (htext : Harmless text) (hne : text ≠ []) (hr : Along text r) :
    parse srv r ≠ none := by
  obtain ⟨hstl, hstg⟩ := hr
  intro hpar
  rw [parse] at hpar
  cases hpsr : r.parser with
  | verb =>
    simp only [hpsr, parseVerb] at hpar hstg
    rw [hstg, if_neg hne] at hpar
    split at hpar <;> cases hpar
  | path =>
    simp only [hpsr, parsePath] at hpar hstg
    obtain ⟨verb, hverb⟩ := hstg
    split at hpar
    · next hscan =>
      obtain ⟨c, hc, hc'⟩ := scanPath_none (map_eq_none_iff.mp hscan)
      have := htext.printable c (by rw [hverb]; exact mem_append_right _ hc)
      simp [hc'] at this
    · cases hpar
    · cases hpar
    next path params rest hscan =>
    have hres := map_eq_none_iff.mp hpar
    rcases scanPath_done (scanned_done hscan) with ⟨-, hsp⟩ | ⟨hpath, hprms⟩
    · exact htext.path verb _ hverb hsp
    simp only [reservePath] at hres
    split at hres
    · next hnone => exact hpath (eq_nil_of_length_eq_zero (reserveUriencoded_none hnone))
    · cases hres
    obtain ⟨p, hp, hemp⟩ := reserveParams_none hres
    rcases hprms with rfl | ⟨query, after, hqry, hgr, hsp, haft, hpcs⟩
    · exact absurd hp not_mem_nil
    obtain ⟨hp0, hpiece⟩ := hpcs p hp
    obtain ⟨name, value, heq, hname, hnil⟩ := splitParam_empty hp0 hemp
    rw [hqry] at hverb
    have hfull := htext.params verb path query after hverb hgr hsp haft p hpiece
      name value heq hname
    exact hnil.elim hfull.1 hfull.2
  | httpVersion =>
    simp only [hpsr, parseHttpVersion, hstl] at hpar
    split at hpar
    · next hscan => exact total_scanVersion _ (map_eq_none_iff.mp hscan)
    all_goals cases hpar
  | startParsingHeaders =>
    simp only [hpsr] at hpar
    cases hpar
  | header =>
    simp only [hpsr] at hstg
    simp only [hpsr, parseHeader, hstg] at hpar
    simp [lineAt] at hpar
  | startBody =>
    simp only [hpsr] at hpar
    cases hpar

/-- A harmless text is parsed without a failed assertion. -/
theorem process_along (htext : Harmless text) (hne : text ≠ []) (hr : Along text r) :
    ∃ r', process srv r = some r' := by
  induction r using process_induction srv with
  | h r ih =>
    rw [RequestRun.process_eq]
    rcases hstep : step srv r with _ | ⟨_ | _ | _, r1⟩
    · exact absurd (map_eq_none_iff.mp hstep) (parse_along htext hne hr)
    · exact ih r1 hstep (along_step htext hr hstep)
    · exact ⟨r1, rfl⟩
    · exact ⟨r1, rfl⟩

/-! ### Every request line -/

/-- `http_request_get_query_param` on the parameters of a line, as C strings. -/
def Line.queryParam (l : Line) (name : Text) : Option Text :=
  (l.params.find? fun p => cstr (wwwFormUriDecode p.name) == name).map fun p =>
    (p.value.map fun v => cstr (wwwFormUriDecode v)).getD []

theorem getQueryParam_head (l : Line) (name : Text) : getQueryParam l.head name = l.queryParam name := by
  simp only [getQueryParam, Line.queryParam, Line.head, find?_map, Option.map_map]
  congr 1
  funext p
  simp only [Function.comp, Param.decoded, Option.map_map]
  rfl

/-- A request line whose strings the pointers do not overtake is parsed, and
refused only where its strings are too long; no other line of printable bytes
without empty strings stops the program. -/
theorem request_line (srv : Server) :
    (∀ (l : Line) (rest : Text), Buffer.init.endAt + (l.text ++ rest).length ≤ bufferSize →
      (∀ p ∈ l.params, p.value ≠ some []) → Roomy 0 l.start l.strings →
      (roomFor l.strings ≤ bufferSize - unreservedSize → HandsOver srv (l.text ++ rest) rest l.head ∧
          ∀ name, getQueryParam l.head name = l.queryParam name) ∧
      (bufferSize - unreservedSize < roomFor l.strings →
        ∃ r, run srv [l.text ++ rest] = some r ∧ r.status = some 414 ∧ r.calls = [])) ∧
    (∀ text, text ≠ [] → Buffer.init.endAt + text.length ≤ bufferSize → Harmless text →
      ∃ r, run srv [text] = some r) := by
  refine ⟨fun l rest hfits hvals hrm => ⟨fun hroom => ?_, fun hlong => ?_⟩,
    fun text hne hfits htext => ?_⟩
  · exact ⟨handsOver_line srv l rest hfits hvals hrm hroom, getQueryParam_head l⟩
  · rw [run_single_eq hfits]
    exact refused_line srv l rest hvals hrm hlong
  rw [run_single_eq hfits]
  refine process_along htext hne ⟨by simp [append, Buffer.read, Request.init, Buffer.init], ?_⟩
  exact nil_append text

theorem decode_plain (h : ∀ c ∈ enc, c ≠ 43 ∧ c ≠ 37) : wwwFormUriDecode enc = enc := by
  fun_induction wwwFormUriDecode enc with
  | case1 => rfl
  | case2 rest ih => exact absurd rfl (h 43 mem_cons_self).1
  | case3 c hc a b rest hpct | case4 c hc a b rest hpct =>
    exact absurd (beq_iff_eq.mp hpct) (h c mem_cons_self).2
  | case5 c hc rest hsht ih => rw [ih fun d hd => h d (mem_cons_of_mem c hd)]

def longLine : Line where
  verb := .get
  path := 47 :: List.replicate 7200 97
  params := []
  minor := 1
  path_ne := cons_ne_nil _ _
  path_graph := by
    intro c hc
    rcases mem_cons.mp hc with rfl | hc
    · decide
    rw [eq_of_mem_replicate hc]
    decide
  params_le := by decide

/-- Not every request line that fits the buffer is parsed. -/
theorem long_path_refused : ¬ ∀ (srv : Server) (l : Line) (rest : Text),
    Buffer.init.endAt + (l.text ++ rest).length ≤ bufferSize →
      HandsOver srv (l.text ++ rest) rest l.head ∧
        ∀ name, getQueryParam l.head name = l.queryParam name := by
  intro h
  have hpln : ∀ c ∈ longLine.path, c ≠ 43 ∧ c ≠ 37 := by
    intro c hc
    rcases mem_cons.mp hc with rfl | hc
    · decide
    rw [eq_of_mem_replicate hc]
    decide
  have hlen : longLine.path.length = 7201 := by rw [longLine, length_cons, length_replicate]
  have hstrs : longLine.strings = [longLine.path] := rfl
  have hroom : roomFor longLine.strings = 7210 := by
    rw [hstrs, roomFor_cons, roomFor_nil, stringRoom, decode_plain hpln, hlen]
    decide
  have htext : longLine.text.length = 7216 := by
    have htgt : longLine.target.length = 7202 := by
      change (longLine.path ++ [32]).length = _
      rw [length_append, hlen]
      rfl
    rw [Line.text, length_append, length_append, htgt]
    decide
  have hfits : ∀ rest : Text, rest.length = 0 →
      Buffer.init.endAt + (longLine.text ++ rest).length ≤ bufferSize := by
    intro rest hrest
    rw [length_append, htext, hrest]
    decide
  have hrm : Roomy 0 longLine.start longLine.strings := by
    refine roomy_of_length ?_
    decide
  obtain ⟨r, hrun, -, hcs⟩ := refused_line passing longLine []
    (forall_mem_nil _) hrm (by rw [hroom]; decide)
  rw [← run_single_eq (hfits [] rfl)] at hrun
  exact (h passing longLine [] (hfits [] rfl)).1.calls hrun hcs

def sampleLine : Line where
  verb := .get
  path := ascii "/a%41"
  params := [
    ⟨ascii "k", some (ascii "v+w"), by decide, by decide +kernel, fun v hv => by cases hv; decide +kernel⟩,
    ⟨ascii "flag", none, by decide, by decide +kernel, fun v hv => by cases hv⟩]
  minor := 1
  path_ne := by decide
  path_graph := by decide +kernel
  params_le := by decide

theorem request_line_sample : HandsOver passing (sampleLine.text ++ []) [] sampleLine.head ∧
      getQueryParam sampleLine.head (ascii "k") = some (ascii "v w") ∧
      getQueryParam sampleLine.head (ascii "flag") = some [] ∧
      getQueryParam sampleLine.head (ascii "none") = none := by
  obtain ⟨hover, hprm⟩ := ((request_line passing).1 sampleLine [] (by decide)
    (by decide) (roomy_of_length (by decide))).1 (by decide)
  refine ⟨hover, ?_, ?_, ?_⟩ <;> rw [hprm] <;> decide

end RequestLine
