import Mathlib.Data.List.TakeWhile
import Mathlib.Algebra.Group.Nat.Defs
import Mathlib.Data.UInt

/-!
# Numbers and binary identifiers as text

The string functions of `str.c` and `dataformats.c` that the manifest and the
configuration parsers share: hexadecimal identifiers and decimal numbers, each
with the function that prints it. A C string is the list of the bytes before
its NUL.
-/
namespace TextCodec

open List

abbrev Text := List UInt8

def ascii (s : String) : Text := s.toList.map fun c => UInt8.ofNat c.toNat

/-! ### Character classes -/

def isdigit (c : UInt8) : Bool := 48 ≤ c && c ≤ 57
def isupper (c : UInt8) : Bool := 65 ≤ c && c ≤ 90
def islower (c : UInt8) : Bool := 97 ≤ c && c ≤ 122
def isalpha (c : UInt8) : Bool := isupper c || islower c
def isalnum (c : UInt8) : Bool := isalpha c || isdigit c
def isspace (c : UInt8) : Bool := c == 32 || 9 ≤ c && c ≤ 13
def isprint (c : UInt8) : Bool := 32 ≤ c && c ≤ 126
def tolower (c : UInt8) : UInt8 := if isupper c then c + 32 else c

/-- `strcasecmp` finds no difference. -/
def strcaseeq (s t : Text) : Bool := s.map tolower == t.map tolower

/-! ### Hexadecimal -/

def hexvalue (c : UInt8) : Option Nat :=
  if isdigit c then some (c.toNat - 48)
  else if 65 ≤ c && c ≤ 70 then some (c.toNat - 55)
  else if 97 ≤ c && c ≤ 102 then some (c.toNat - 87)
  else none

def hexdigitUpper (d : Nat) : UInt8 := if d < 10 then UInt8.ofNat (48 + d) else UInt8.ofNat (55 + d)

theorem hexvalue_hexdigitUpper (h : d < 16) : hexvalue (hexdigitUpper d) = some d := by
  have all : ∀ d : Fin 16, hexvalue (hexdigitUpper d) = some d.val := by decide
  exact all ⟨d, h⟩

def tohex (bytes : List UInt8) : Text :=
  bytes.flatMap fun b => [hexdigitUpper (b.toNat / 16), hexdigitUpper (b.toNat % 16)]

@[simp] theorem tohex_nil : tohex [] = [] := rfl
@[simp] theorem tohex_cons : tohex (b :: bytes) =
      hexdigitUpper (b.toNat / 16) :: hexdigitUpper (b.toNat % 16) :: tohex bytes := rfl

theorem mem_tohex (h : c ∈ tohex bytes) : ∃ d, d < 16 ∧ c = hexdigitUpper d := by
  induction bytes with
  | nil => simp at h
  | cons b bytes ih =>
    have hb := b.toNat_lt
    rcases mem_cons.mp h with rfl | h
    · exact ⟨b.toNat / 16, by omega, rfl⟩
    rcases mem_cons.mp h with rfl | h
    · exact ⟨b.toNat % 16, by omega, rfl⟩
    · exact ih h

/-- Decode at most `n` bytes; the bytes and the text after their digits. -/
def strnFromhex : Nat → Text → List UInt8 × Text
  | n + 1, high :: low :: s =>
    match hexvalue high, hexvalue low with
    | some a, some b =>
      let rest := strnFromhex n s
      (UInt8.ofNat (a * 16 + b) :: rest.1, rest.2)
    | _, _ => ([], high :: low :: s)
  | _, s => ([], s)

@[simp] theorem strnFromhex_zero : strnFromhex 0 s = ([], s) := by
  cases s <;> rfl

theorem strnFromhex_tohex (bytes : List UInt8) (s : Text) :
    strnFromhex bytes.length (tohex bytes ++ s) = (bytes, s) := by
  induction bytes with
  | nil => simp
  | cons b bytes ih =>
    have hb := b.toNat_lt
    have hhigh := hexvalue_hexdigitUpper (d := b.toNat / 16) (by omega)
    have hlow := hexvalue_hexdigitUpper (d := b.toNat % 16) (by omega)
    have hbyte : b.toNat / 16 * 16 + b.toNat % 16 = b.toNat := by omega
    simp only [length_cons, tohex_cons, cons_append, strnFromhex, hhigh, hlow, ih, hbyte,
      UInt8.ofNat_toNat]

/-- What has been decoded took two digits a byte. -/
theorem strnFromhex_length (n : Nat) (s : Text) :
    2 * (strnFromhex n s).1.length + (strnFromhex n s).2.length = s.length := by
  fun_induction strnFromhex n s with
  | case1 n high low s a b hhigh hlow rest ih =>
    simp only [length_cons]
    simp only [rest] at ih ⊢
    omega
  | case2 => simp
  | case3 => simp

/-- Decoding looks at no more than two digits a byte. -/
theorem strnFromhex_take (n : Nat) (s : Text) :
    (strnFromhex n (s.take (2 * n))).1 = (strnFromhex n s).1 := by
  fun_induction strnFromhex n s with
  | case1 n high low s a b hhigh hlow rest ih =>
    have htake : (high :: low :: s).take (2 * (n + 1)) = high :: low :: s.take (2 * n) := rfl
    rw [htake]
    simp only [strnFromhex, hhigh, hlow, ih]
    rfl
  | case2 n high low s hbad =>
    have htake : (high :: low :: s).take (2 * (n + 1)) = high :: low :: s.take (2 * n) := rfl
    rw [htake, strnFromhex]
    split
    · next a b hhigh hlow => exact absurd hlow (hbad a b hhigh)
    · rfl
  | case3 n s hsht =>
    rcases n with _ | n
    · simp
    rcases s with _ | ⟨c, _ | ⟨d, s⟩⟩
    · rfl
    · rfl
    · exact absurd rfl (hsht n c d s rfl)

abbrev Binary (n : Nat) := { bytes : List UInt8 // bytes.length = n }

/-- `str_to_sid_t` and its siblings without the word `broadcast`: exactly the
digits of `n` bytes. -/
def strToBinary (n : Nat) (s : Text) : Option (Binary n) :=
  if h : (strnFromhex n s).1.length = n ∧ (strnFromhex n s).2 = [] then
    some ⟨(strnFromhex n s).1, h.1⟩
  else none

theorem strToBinary_tohex (b : Binary n) : strToBinary n (tohex b.val) = some b := by
  have hread : strnFromhex n (tohex b.val) = (b.val, []) := by
    have h := strnFromhex_tohex b.val []
    rwa [append_nil, b.property] at h
  rw [strToBinary, dif_pos ⟨by rw [hread]; exact b.property, by rw [hread]⟩]
  exact congrArg some (Subtype.ext (congrArg Prod.fst hread))

theorem strToBinary_length (h : strToBinary n s = some b) : s.length = 2 * n := by
  unfold strToBinary at h
  split at h
  · next hok =>
    have hlen := strnFromhex_length n s
    rw [hok.1, hok.2] at hlen
    simpa using hlen.symm
  · cases h

/-- `parse_rhizome_bid_t` and its siblings with a length and an end pointer: the
`hexlen` characters at `s` are the digits of `n` bytes. -/
def parseBinary (n : Nat) (s : Text) (hexlen : Nat) : Option (Binary n) :=
  if hexlen ≠ 2 * n then none
  else if h : (strnFromhex n s).1.length = n then some ⟨(strnFromhex n s).1, h⟩
  else none

/-- With a length the same characters are accepted as without one. -/
theorem parseBinary_eq (n : Nat) (s : Text) (hxl : Nat) (hlen : hxl ≤ s.length) :
    parseBinary n s hxl = strToBinary n (s.take hxl) := by
  by_cases hn : hxl = 2 * n
  · subst hn
    have hbs := strnFromhex_take n s
    have hrest := strnFromhex_length n (s.take (2 * n))
    rw [length_take, min_eq_left hlen] at hrest
    rw [parseBinary, if_neg (fun h => h rfl), strToBinary]
    by_cases hok : (strnFromhex n s).1.length = n
    · have hok' : (strnFromhex n (s.take (2 * n))).1.length = n := by rw [hbs, hok]
      have hnil : (strnFromhex n (s.take (2 * n))).2 = [] :=
        length_eq_zero_iff.mp (by omega)
      rw [dif_pos hok, dif_pos ⟨hok', hnil⟩]
      exact congrArg some (Subtype.ext hbs.symm)
    · rw [dif_neg hok, dif_neg (fun h => hok (by rw [← hbs]; exact h.1))]
  rw [parseBinary, if_pos hn]
  cases h : strToBinary n (s.take hxl) with
  | none => rfl
  | some b =>
    have hleng := strToBinary_length h
    rw [length_take, min_eq_left hlen] at hleng
    exact absurd hleng hn

/-! ### Unsigned numbers -/

/-- The variables of `strn_to_uint32` and `strn_to_uint64` where the loop stops. -/
structure UintScan where
  value : Nat
  newvalue : Nat
  rest : Text
  deriving DecidableEq, Repr

/-- The digit loop. The overflow test only notices a product that has become
smaller. -/
def scanUint (modulus base : Nat) : Nat → Nat → Text → UintScan
  | value, newvalue, [] => ⟨value, newvalue, []⟩
  | value, newvalue, c :: s =>
    match hexvalue c with
    | none => ⟨value, newvalue, c :: s⟩
    | some digit =>
      if base ≤ digit then ⟨value, newvalue, c :: s⟩
      else
        let newvalue := (value * base + digit) % modulus
        if newvalue < value then ⟨value, newvalue, c :: s⟩
        else scanUint modulus base newvalue newvalue s

/-- `strn_to_uint32` and `strn_to_uint64` with an end pointer: the number and
the text after it. -/
def strToUint (modulus base : Nat) (s : Text) : Option (Nat × Text) :=
  let r := scanUint modulus base 0 0 s
  if r.rest = s ∨ r.value ≠ r.newvalue then none else some (r.value, r.rest)

/-- `str_to_uint64` in base ten without an end pointer. -/
def strToUint64 (s : Text) : Option UInt64 :=
  match strToUint (2 ^ 64) 10 s with
  | some (value, []) => some (UInt64.ofNat value)
  | _ => none

/-- The digits that a number is read from. -/
theorem scanUint_digits (md base value nv : Nat) (s : Text) :
    ∃ ds, s = ds ++ (scanUint md base value nv s).rest ∧
      ∀ c ∈ ds, hexvalue c ≠ none := by
  fun_induction scanUint md base value nv s with
  | case1 | case2 | case3 | case4 => exact ⟨[], rfl, fun _ h => absurd h not_mem_nil⟩
  | case5 value nv c s digit hc hbase nv' hover ih =>
    obtain ⟨ds, hs, hdig⟩ := ih
    refine ⟨c :: ds, congrArg (c :: ·) hs, ?_⟩
    rintro d (_ | hd)
    · simp [hc]
    · exact hdig d (by assumption)

/-- A number has a digit. -/
theorem strToUint_length (h : strToUint md base s = some (value, rest)) :
    rest.length < s.length := by
  simp only [strToUint] at h
  split at h
  · cases h
  next hread =>
  obtain ⟨ds, hdig, -⟩ := scanUint_digits md base 0 0 s
  cases h
  have hlen := congrArg List.length hdig
  rw [length_append] at hlen
  cases ds with
  | nil => exact absurd (.inl hdig.symm) hread
  | cons d ds =>
    rw [length_cons] at hlen
    omega

/-- A number that ends before the text does, or before a character that is no digit, is not
read on. -/
theorem scanUint_append (modulus base value newvalue : Nat) (s after : Text)
    (h : (scanUint modulus base value newvalue s).rest = [] → ∀ c ∈ after.head?, hexvalue c = none) :
    scanUint modulus base value newvalue (s ++ after) = { scanUint modulus base value newvalue s with
        rest := (scanUint modulus base value newvalue s).rest ++ after } := by
  fun_induction scanUint modulus base value newvalue s with
  | case1 value newvalue =>
    cases after with
    | nil => rfl
    | cons c after => simp [scanUint, h rfl c rfl]
  | case2 value newvalue d s hd => simp [scanUint, hd]
  | case3 value newvalue d s digit hd hbase => simp [scanUint, hd, hbase]
  | case4 value newvalue d s digit hd hbase newvalue' hover =>
    simp only [cons_append, scanUint, hd, if_neg hbase]
    rw [if_pos hover]
  | case5 value newvalue d s digit hd hbase newvalue' hover ih =>
    simp only [cons_append, scanUint, hd, if_neg hbase]
    rw [if_neg hover]
    exact ih h

/-- A number before a character that is no digit is read as if the text ended there. -/
theorem strToUint_append (md base : Nat) (s : Text) (after : Text) (hc : hexvalue c = none) :
    strToUint md base (s ++ c :: after) =
      (strToUint md base s).map fun r => (r.1, r.2 ++ c :: after) := by
  have hscan := scanUint_append md base 0 0 s (c :: after) (by simp [hc])
  simp only [strToUint, hscan, append_cancel_right_eq]
  split <;> rfl

/-! ### Decimal text -/

/-- What `%u` and `PRIu64` print. -/
def decimal (n : Nat) : Text := (Nat.toDigits 10 n).map fun c => UInt8.ofNat c.toNat

def decimalDigit (d : Nat) : UInt8 := UInt8.ofNat (48 + d)

theorem digitChar_decimal (h : d < 10) : UInt8.ofNat (Nat.digitChar d).toNat = decimalDigit d := by
  have all : ∀ d : Fin 10, UInt8.ofNat (Nat.digitChar d).toNat = decimalDigit d := by decide
  exact all ⟨d, h⟩

theorem isdigit_decimalDigit (h : d < 10) : isdigit (decimalDigit d) = true := by
  have all : ∀ d : Fin 10, isdigit (decimalDigit d) = true := by decide
  exact all ⟨d, h⟩

theorem hexvalue_decimalDigit (h : d < 10) : hexvalue (decimalDigit d) = some d := by
  have all : ∀ d : Fin 10, hexvalue (decimalDigit d) = some d.val := by decide
  exact all ⟨d, h⟩

theorem decimal_small (h : n < 10) : decimal n = [decimalDigit n] := by
  rw [decimal, Nat.toDigits_eq_if (by omega), if_pos h]
  simp [digitChar_decimal h]

theorem decimal_large (h : 10 ≤ n) : decimal n = decimal (n / 10) ++ [decimalDigit (n % 10)] := by
  rw [decimal, Nat.toDigits_eq_if (by omega), if_neg (by omega), map_append]
  simp [digitChar_decimal (Nat.mod_lt n (by omega)), decimal]

theorem decimal_ne_nil (n : Nat) : decimal n ≠ [] := by
  by_cases h : n < 10
  · simp [decimal_small h]
  · simp [decimal_large (Nat.le_of_not_lt h)]

theorem isdigit_of_mem_decimal (hc : c ∈ decimal n) : isdigit c = true := by
  induction n using Nat.strongRecOn with
  | ind n ih =>
    by_cases h : n < 10
    · rw [decimal_small h, mem_singleton] at hc
      rw [hc]
      exact isdigit_decimalDigit h
    rw [decimal_large (Nat.le_of_not_lt h), mem_append, mem_singleton] at hc
    rcases hc with hc | rfl
    · exact ih (n / 10) (by omega) hc
    · exact isdigit_decimalDigit (Nat.mod_lt n (by omega))

/-- Reading the printed digits of a number that fits leaves the scan with that
number, and no step of it looks like an overflow. -/
theorem scanUint_decimal (hn : n < md) (s : Text) :
    scanUint md 10 0 0 (decimal n ++ s) = scanUint md 10 n n s := by
  induction n using Nat.strongRecOn generalizing s with
  | ind n ih =>
    have hstep : ∀ value, value * 10 + n % 10 = n →
        scanUint md 10 value value (decimalDigit (n % 10) :: s) = scanUint md 10 n n s := by
      intro value hval
      have hdig := hexvalue_decimalDigit (d := n % 10) (Nat.mod_lt n (by omega))
      have hmod : (value * 10 + n % 10) % md = n := by rw [hval, Nat.mod_eq_of_lt hn]
      simp only [scanUint, hdig, hmod]
      rw [if_neg (by omega), if_neg (by omega)]
    by_cases h : n < 10
    · have hzero := hstep 0 (by omega)
      rw [Nat.mod_eq_of_lt h] at hzero
      rw [decimal_small h, singleton_append, hzero]
    rw [decimal_large (Nat.le_of_not_lt h), append_assoc, singleton_append,
      ih (n / 10) (by omega) (by omega)]
    exact hstep (n / 10) (by omega)

theorem strToUint_decimal (hn : n < md) : strToUint md 10 (decimal n) = some (n, []) := by
  have hscan := scanUint_decimal hn []
  rw [append_nil] at hscan
  simp only [strToUint, hscan, scanUint]
  rw [if_neg]
  rintro (h | h)
  · exact decimal_ne_nil n h.symm
  · exact h rfl

theorem strToUint64_decimal (n : UInt64) : strToUint64 (decimal n.toNat) = some n := by
  simp [strToUint64, strToUint_decimal n.toNat_lt]

/-! ### Signed numbers -/

def digitsValue (s : Text) : Nat := s.foldl (fun value c => value * 10 + (c.toNat - 48)) 0

/-- `strtoll` in base ten on a text that does not start with white space:
`none` where it reads nothing or sets `ERANGE`, else the value and the rest. -/
def strtoll (s : Text) : Option (Int × Text) :=
  let (negative, t) : Bool × Text :=
    match s with
    | c :: t => if c = 45 then (true, t) else if c = 43 then (false, t) else (false, c :: t)
    | [] => (false, [])
  let digits := t.takeWhile isdigit
  let value : Int := if negative then -(digitsValue digits : Int) else digitsValue digits
  if digits = [] then none
  else if value < -2 ^ 63 ∨ 2 ^ 63 ≤ value then none
  else some (value, t.dropWhile isdigit)

/-- `str_to_int64` in base ten without an end pointer. -/
def strToInt64 (s : Text) : Option Int :=
  if s.head?.any isspace then none
  else
    match strtoll s with
    | some (value, []) => some value
    | _ => none

theorem digitsValue_decimal (n : Nat) : digitsValue (decimal n) = n := by
  induction n using Nat.strongRecOn with
  | ind n ih =>
    have hdig : ∀ d, d < 10 → (decimalDigit d).toNat - 48 = d := by
      intro d hd
      have all : ∀ d : Fin 10, (decimalDigit d).toNat - 48 = d.val := by decide
      exact all ⟨d, hd⟩
    by_cases h : n < 10
    · simp [decimal_small h, digitsValue, hdig n h]
    rw [decimal_large (Nat.le_of_not_lt h), digitsValue, foldl_append, ← digitsValue,
      ih (n / 10) (by omega)]
    simp only [foldl_cons, foldl_nil, hdig (n % 10) (Nat.mod_lt n (by omega))]
    omega

theorem isdigit_not_sign (h : isdigit c = true) : c ≠ 45 ∧ c ≠ 43 ∧ isspace c = false := by
  have hrng : 48 ≤ c ∧ c ≤ 57 := by simpa [isdigit] using h
  have hlow := UInt8.le_iff_toNat_le.mp hrng.1
  refine ⟨?_, ?_, ?_⟩
  · rintro rfl
    simp at hlow
  · rintro rfl
    simp at hlow
  cases hsp : isspace c with
  | false => rfl
  | true =>
    simp only [isspace, Bool.or_eq_true, beq_iff_eq, Bool.and_eq_true, decide_eq_true_eq] at hsp
    rcases hsp with rfl | ⟨-, hc⟩
    · simp at hlow
    have := UInt8.le_iff_toNat_le.mp hc
    simp at this hlow
    omega

/-- A printed number is read back while it fits a signed word; a larger one is
out of range. -/
theorem strToInt64_decimal (n : Nat) :
    strToInt64 (decimal n) = if n < 2 ^ 63 then some (n : Int) else none := by
  have hall : ∀ c ∈ decimal n, isdigit c = true := fun c hc => isdigit_of_mem_decimal hc
  have htake : (decimal n).takeWhile isdigit = decimal n := by exact takeWhile_eq_self_iff.mpr hall
  have hdrop : (decimal n).dropWhile isdigit = [] := by exact dropWhile_eq_nil_iff.mpr hall
  have hval := digitsValue_decimal n
  have hnil := decimal_ne_nil n
  generalize hs : decimal n = s at hall htake hdrop hval hnil
  match s with
  | [] => exact absurd rfl hnil
  | c :: s =>
    obtain ⟨hminus, hplus, hsp⟩ := isdigit_not_sign (hall c mem_cons_self)
    simp only [strToInt64, strtoll, head?_cons, Option.any_some, hsp, Bool.false_eq_true,
      if_false, if_neg hminus, if_neg hplus, htake, hdrop, hval, if_neg hnil]
    by_cases h : n < 2 ^ 63
    · rw [if_neg (by omega), if_pos h]
    · rw [if_pos (by omega), if_neg h]

end TextCodec
