import ServalDna.TextCodec

/-!
# Printable text between quotes

`toprint` writes any bytes as printable text, through a `strbuf` that counts what does not fit,
and `strn_fromprint` reads them back.
-/
namespace PrintText

open List TextCodec

/-- The characters that were appended to a `struct strbuf`, and the size of its buffer. There is
none without an end and for `strbuf_local(NULL, 0)`, whose end is the last address. -/
structure Strbuf where
  size : Option Nat
  appended : Text

def Strbuf.overrun (sb : Strbuf) : Bool := sb.size.any (· ≤ sb.appended.length)

def Strbuf.str (sb : Strbuf) : Text := sb.size.elim sb.appended fun n => sb.appended.take (n - 1)

def Strbuf.puts (sb : Strbuf) (text : Text) : Strbuf := { sb with appended := sb.appended ++ text }

/-- `strbuf_trunc` with a negative offset. -/
def Strbuf.trunc (sb : Strbuf) (n : Nat) : Strbuf :=
  { sb with appended := sb.str.take (sb.str.length - n) }

def hexdigitLower (d : Nat) : UInt8 := if d < 10 then UInt8.ofNat (48 + d) else UInt8.ofNat (87 + d)

def toprintByte (c : UInt8) : Text :=
  if c = 0 then ascii "\\0"
  else if c = 10 then ascii "\\n"
  else if c = 13 then ascii "\\r"
  else if c = 9 then ascii "\\t"
  else if c = 92 then ascii "\\\\"
  else if isprint c then [c]
  else ascii "\\x" ++ [hexdigitLower (c.toNat / 16), hexdigitLower (c.toNat % 16)]

/-- The opening and the closing quote; 0 stands for none. -/
structure Quotes where
  opening : UInt8
  closing : UInt8

def Quotes.spelling (quotes : Quotes) (c : UInt8) : Text :=
  if c = quotes.closing then [92, c] else toprintByte c

def mark (quote : UInt8) : Text := if quote = 0 then [] else [quote]

/-- `_overrun_quote` with the suffix `...`. -/
def overrunQuote (sb : Strbuf) (quote : UInt8) : Strbuf :=
  if sb.overrun then ((sb.trunc (3 + (mark quote).length)).puts (mark quote)).puts (ascii "...")
  else sb

/-- The loop of `strbuf_toprint_quoted_len`. -/
def toprintLoop (quotes : Quotes) : Strbuf → Text → Strbuf
  | sb, [] => sb
  | sb, c :: rest => if sb.overrun then sb else toprintLoop quotes (sb.puts (quotes.spelling c)) rest

def strbufToprintQuotedLen (sb : Strbuf) (quotes : Quotes) (buf : Text) : Strbuf :=
  let sb := toprintLoop quotes (sb.puts (mark quotes.opening)) buf
  overrunQuote (sb.puts (mark quotes.closing)) quotes.closing

def toprint (dstBufSiz : Option Nat) (srcBuf : Text) (quotes : Quotes) : Text :=
  (strbufToprintQuotedLen ⟨dstBufSiz, []⟩ quotes srcBuf).str

def toprintLen (srcBuf : Text) (quotes : Quotes) : Nat :=
  (strbufToprintQuotedLen ⟨none, []⟩ quotes srcBuf).appended.length

/-- The byte that is read behind a backslash, and the text that is left. -/
def unescape : Text → UInt8 × Text
  | [] => (92, [])
  | c :: src =>
    if c = 48 then (0, src)
    else if c = 110 then (10, src)
    else if c = 114 then (13, src)
    else if c = 116 then (9, src)
    else
      match c == 120, strnFromhex 1 src with
      | true, ([d], src) => (d, src)
      | _, _ => (c, src)

/-- The loop of `strn_fromprint`, with `left` characters up to `esrc` if there is one: the bytes,
and the text at `*afterp`. -/
def fromprintLoop (endquote : UInt8) : Nat → Option Nat → Text → Text × Text
  | 0, _, src => ([], src)
  | _ + 1, _, [] => ([], [])
  | dstsiz + 1, left, c :: src =>
    if left = some 0 ∨ c = endquote then ([], c :: src)
    else
      let (d, after) := if c = 92 then unescape src else (c, src)
      let r := fromprintLoop endquote dstsiz (left.map (· - (src.length + 1 - after.length))) after
      (d :: r.1, r.2)

def strnFromprint (dstsiz : Nat) (src : Text) (srclen : Nat) (endquote : UInt8) : Text × Text :=
  fromprintLoop endquote dstsiz (if srclen = 0 then none else some srclen) src

/-! ### The text -/

def Quotes.body (quotes : Quotes) (s : Text) : Text := s.flatMap quotes.spelling

def Quotes.text (quotes : Quotes) (s : Text) : Text :=
  mark quotes.opening ++ quotes.body s ++ mark quotes.closing

variable {sb : Strbuf} {quotes : Quotes} {s : Text} {c : UInt8}

theorem body_cons : quotes.body (c :: s) = quotes.spelling c ++ quotes.body s := rfl

theorem overrun_false (h : ∀ n ∈ sb.size, sb.appended.length < n) : sb.overrun = false := by
  rw [Strbuf.overrun, Option.any_eq_false]
  intro n hn
  simpa using h n hn

theorem toprintLoop_appended (h : ∀ n ∈ sb.size, (sb.appended ++ quotes.body s).length < n) :
    toprintLoop quotes sb s = sb.puts (quotes.body s) := by
  induction s generalizing sb with
  | nil => simp [toprintLoop, Strbuf.puts, Quotes.body]
  | cons c rest ih =>
    have hroom : sb.overrun = false := by
      apply overrun_false
      intro n hn
      have hlt := h n hn
      rw [length_append] at hlt
      omega
    rw [body_cons, ← append_assoc] at h
    rw [toprintLoop, hroom, if_neg Bool.false_ne_true, ih h, body_cons]
    simp [Strbuf.puts]

/-- A buffer that is large enough holds the whole text. -/
theorem toprint_text (h : ∀ n ∈ size, (quotes.text s).length < n) :
    strbufToprintQuotedLen ⟨size, []⟩ quotes s = ⟨size, quotes.text s⟩ := by
  have hloop : toprintLoop quotes ⟨size, mark quotes.opening⟩ s =
      ⟨size, mark quotes.opening ++ quotes.body s⟩ := by
    apply toprintLoop_appended
    intro n hn
    have hlt := h n hn
    rw [Quotes.text, length_append] at hlt
    exact Nat.lt_of_add_right_lt hlt
  have hroom : Strbuf.overrun ⟨size, quotes.text s⟩ = false := overrun_false h
  simp only [strbufToprintQuotedLen, Strbuf.puts, nil_append, hloop, overrunQuote]
  rw [← Quotes.text, hroom, if_neg Bool.false_ne_true]

/-- The length that is computed is that of the text. -/
theorem toprintLen_eq (s : Text) (quotes : Quotes) : toprintLen s quotes = (quotes.text s).length := by
  rw [toprintLen, toprint_text (by simp)]

/-- A buffer that is large enough gets the whole text. -/
theorem toprint_eq (h : ∀ n ∈ size, toprintLen s quotes < n) :
    toprint size s quotes = quotes.text s := by
  rw [toprintLen_eq] at h
  rw [toprint, toprint_text h]
  cases size with
  | none => rfl
  | some n => exact take_of_length_le (Nat.le_sub_one_of_lt (h n rfl))

theorem hexdigitLower_all : ∀ d : Fin 16, isprint (hexdigitLower d) = true ∧
    hexvalue (hexdigitLower d) = some d.val := by
  decide

theorem isprint_spelling (hclo : isprint quotes.closing = true) :
    ∀ d ∈ quotes.spelling c, isprint d = true := by
  have hc := c.toNat_lt
  have hhigh := (hexdigitLower_all ⟨c.toNat / 16, by omega⟩).1
  have hlow := (hexdigitLower_all ⟨c.toNat % 16, by omega⟩).1
  rw [Quotes.spelling]
  split
  · next h =>
    rw [h]
    exact forall_mem_cons.mpr ⟨rfl, forall_mem_singleton.mpr hclo⟩
  rw [toprintByte]
  repeat' split
  all_goals simp_all [isprint, ascii]

/-! ### The way back -/

/-- Quotes that `strn_fromprint` can tell from the text. -/
def Quotes.Clear (quotes : Quotes) : Prop :=
  isprint quotes.closing = true ∧ quotes.closing ∉ ascii "\\0nrtx"

/-- A byte stands for itself or is read behind a backslash. -/
theorem spelling_cases (hclr : quotes.Clear) (c : UInt8) :
    (quotes.spelling c = [c] ∧ c ≠ quotes.closing ∧ c ≠ 92) ∨
      ∃ esc, quotes.spelling c = 92 :: esc ∧ ∀ rest, unescape (esc ++ rest) = (c, rest) := by
  rw [Quotes.spelling]
  split
  · next h =>
    have hnot := hclr.2
    simp [ascii, ← h] at hnot
    exact .inr ⟨[c], rfl, fun rest => by simp [unescape, hnot]⟩
  next hclo =>
  have hc := c.toNat_lt
  have hhigh := (hexdigitLower_all ⟨c.toNat / 16, by omega⟩).2
  have hlow := (hexdigitLower_all ⟨c.toNat % 16, by omega⟩).2
  rw [toprintByte]
  repeat' split
  · next h => exact .inr ⟨[48], rfl, fun rest => by simp [unescape, h]⟩
  · next h => exact .inr ⟨[110], rfl, fun rest => by simp [unescape, h]⟩
  · next h => exact .inr ⟨[114], rfl, fun rest => by simp [unescape, h]⟩
  · next h => exact .inr ⟨[116], rfl, fun rest => by simp [unescape, h]⟩
  · next h => exact .inr ⟨[92], rfl, fun rest => by simp [unescape, h]⟩
  · next h _ => exact .inl ⟨rfl, hclo, h⟩
  refine .inr ⟨[120, hexdigitLower (c.toNat / 16), hexdigitLower (c.toNat % 16)], rfl, fun rest => ?_⟩
  have hbyte : c.toNat / 16 * 16 + c.toNat % 16 = c.toNat := by omega
  simp [unescape, strnFromhex, hhigh, hlow, hbyte]

/-- One byte is read back. -/
theorem fromprint_spelling (hclr : quotes.Clear) (dstsiz : Nat) (rest : Text)
    (hleft : left ≠ some 0) :
    let r := fromprintLoop quotes.closing dstsiz (left.map (· - (quotes.spelling c).length)) rest
    fromprintLoop quotes.closing (dstsiz + 1) left (quotes.spelling c ++ rest) = (c :: r.1, r.2) := by
  rcases spelling_cases hclr c with ⟨hspl, hclo, hbs⟩ | ⟨esc, hspl, hesc⟩
  · rw [hspl, singleton_append, fromprintLoop, if_neg (not_or.mpr ⟨hleft, hclo⟩), if_neg hbs]
    simp
  have hclo : (92 : UInt8) ≠ quotes.closing := by
    intro h
    exact hclr.2 (h ▸ by decide)
  have hlen : (esc ++ rest).length + 1 - rest.length = (92 :: esc).length := by
    rw [length_append, length_cons]
    omega
  rw [hspl, cons_append, fromprintLoop, if_neg (not_or.mpr ⟨hleft, hclo⟩), if_pos rfl, hesc]
  simp only [hlen]

/-- The bytes are read back up to the closing quote. -/
theorem fromprint_body (hclr : quotes.Clear) (hdst : s.length < dstsiz)
    (hleft : ∀ k ∈ left, (quotes.body s).length ≤ k) :
    fromprintLoop quotes.closing dstsiz left (quotes.body s ++ [quotes.closing]) =
      (s, [quotes.closing]) := by
  induction s generalizing dstsiz left with
  | nil =>
    obtain ⟨n, rfl⟩ := Nat.exists_eq_add_of_lt hdst
    exact if_pos (.inr rfl)
  | cons c rest ih =>
    obtain ⟨n, rfl⟩ := Nat.exists_eq_add_of_lt hdst
    rw [body_cons, length_append] at hleft
    have hpos : 0 < (quotes.spelling c).length := by
      rcases spelling_cases hclr c with ⟨hspl, -⟩ | ⟨esc, hspl, -⟩ <;> simp [hspl]
    have hne : left ≠ some 0 := by
      rintro rfl
      have := hleft 0 rfl
      omega
    rw [body_cons, append_assoc, fromprint_spelling hclr _ _ hne, ih]
    · simp
      omega
    intro k hk
    obtain ⟨k', hk', rfl⟩ := Option.map_eq_some_iff.mp hk
    have := hleft k' hk'
    omega

/-- The text of a large enough buffer has the length that `toprint_len` gives, is printable if
its opening quote is, and is read back behind that quote. -/
theorem print_round_trip (quotes : Quotes) (hclear : quotes.Clear) (s : Text) (size : Option Nat)
    (hsize : ∀ n ∈ size, toprintLen s quotes < n) : let text := toprint size s quotes
    text.length = toprintLen s quotes ∧
    (quotes.opening = 0 ∨ isprint quotes.opening = true → ∀ c ∈ text, isprint c = true) ∧
    ∀ dstsiz srclen, s.length < dstsiz →
      srclen = 0 ∨ text.length ≤ (mark quotes.opening).length + srclen + 1 →
      strnFromprint dstsiz (text.drop (mark quotes.opening).length) srclen quotes.closing =
        (s, [quotes.closing]) := by
  have hmark : mark quotes.closing = [quotes.closing] :=
    if_neg fun h => absurd hclear.1 (by rw [h]; decide)
  intro text
  have htext : text = quotes.text s := toprint_eq hsize
  rw [htext, toprintLen_eq]
  refine ⟨rfl, fun hopn c hc => ?_, fun dstsiz srclen hdst hlen => ?_⟩
  · rw [Quotes.text, hmark, mem_append, mem_append, mem_singleton] at hc
    rcases hc with (hc | hc) | rfl
    · rw [mark] at hc
      split at hc
      · cases hc
      next hne =>
      rw [mem_singleton.mp hc]
      exact hopn.resolve_left hne
    · obtain ⟨b, -, hb⟩ := mem_flatMap.mp hc
      exact isprint_spelling hclear.1 c hb
    · exact hclear.1
  rw [Quotes.text, append_assoc, drop_left, hmark, strnFromprint]
  apply fromprint_body hclear hdst
  intro k hk
  split at hk
  · cases hk
  next hne =>
  cases hk
  have := hlen.resolve_left hne
  simp only [Quotes.text, hmark, length_append, length_singleton] at this
  omega

theorem print_round_trip_newline : Quotes.Clear ⟨34, 34⟩ ∧
    toprint (some 8) [34, 10] ⟨34, 34⟩ = ascii "\"\\\"\\n\"" ∧
    strnFromprint 3 (ascii "\\\"\\n\"") 0 34 = ([34, 10], [34]) := by
  have hclr : Quotes.Clear ⟨34, 34⟩ := ⟨rfl, by decide⟩
  exact ⟨hclr, by decide,
    (print_round_trip ⟨34, 34⟩ hclr [34, 10] (some 8) (by decide)).2.2 3 0 (by decide) (.inl rfl)⟩

/-- The opening quote is written as it is. -/
theorem opening_not_printable : Quotes.Clear ⟨1, 34⟩ ∧
    ¬ ∀ c ∈ toprint none [97] ⟨1, 34⟩, isprint c = true := by
  exact ⟨⟨rfl, by decide⟩, by decide⟩

end PrintText
