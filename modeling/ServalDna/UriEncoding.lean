import ServalDna.TextCodec

/-!
# URI encoding

The encoder and the decoder of `str.c`, each in a plain and in a www-form
variant. An escape of the encoder has the low digit of the byte in front of the
high one, and without a limit on its output the encoder finds no room for it.
-/
namespace UriEncoding

open TextCodec List

/-- `beyond` is what the table of character classes says of byte 255, which lies behind its end. -/
structure Variant where
  wwwForm : Bool
  beyond : Bool

variable {v : Variant} {dstsiz last : Int} {n : Nat} {s : Text}

namespace Variant

def isUriCharUnreserved (v : Variant) (c : UInt8) : Bool :=
  if c = 255 then v.beyond else isalnum c || c == 45 || c == 46 || c == 95 || c == 126

def escaped (v : Variant) (c : UInt8) : Bool :=
  !(v.wwwForm && c == 32) && !v.isUriCharUnreserved c

def spelling (v : Variant) (c : UInt8) : Text :=
  if v.wwwForm && c == 32 then [43]
  else if v.isUriCharUnreserved c then [c]
  else [37, hexdigitUpper (c.toNat % 16), hexdigitUpper (c.toNat / 16)]

end Variant

section Loops

-- `last` is the distance of `dstend` from the destination
variable (v : Variant) (dstsiz last : Int)

/-- The loop of `_uri_encodev` on one buffer, behind `n` characters: the characters, and what is
left of the buffer. -/
def encodeBuffer : Nat → Text → Text × Text
  | _, [] => ([], [])
  | n, c :: rest =>
    if (dstsiz = -1 ∨ n < last) ∧ (v.escaped c = true → n + 3 ≤ last) then
      let r := encodeBuffer (n + (v.spelling c).length) rest
      (v.spelling c ++ r.1, r.2)
    else ([], c :: rest)

def encodeLoop : Nat → List Text → Text × List Text
  | _, [] => ([], [])
  | n, buffer :: iov =>
    let r := encodeBuffer v dstsiz last n buffer
    if r.2 = [] ∧ (dstsiz = -1 ∨ (n + r.1.length : Nat) < last) then
      let r' := encodeLoop (n + r.1.length) iov
      (r.1 ++ r'.1, r'.2)
    else (r.1, r.2 :: iov)

/-- `_uri_decode`, behind `n` bytes: the bytes, and the text that is left. -/
def uriDecode : Nat → Text → Text × Text
  | _, [] => ([], [])
  | n, c :: rest =>
    let step (byte : UInt8) (r : Text × Text) := (byte :: r.1, r.2)
    if dstsiz = -1 ∨ n < dstsiz then
      if v.wwwForm && c == 43 then step 32 (uriDecode (n + 1) rest)
      else
        match c == 37, rest with
        | true, h :: l :: rest' =>
          match hexvalue h, hexvalue l with
          | some high, some low => step (UInt8.ofNat (high * 16 + low)) (uriDecode (n + 1) rest')
          | _, _ => step c (uriDecode (n + 1) (h :: l :: rest'))
        | _, rest => step c (uriDecode (n + 1) rest)
    else ([], c :: rest)

end Loops

/-- `_uri_encodev`: the characters, of which a `NULL` destination gets only the number, and the
iovecs that are left. `NULL - 1` is the last address. -/
def uriEncodev (v : Variant) (null : Bool) (dstsiz : Int) (iov : List Text) : Text × List Text :=
  encodeLoop v dstsiz (if null then dstsiz % 2 ^ 64 else dstsiz) 0 iov

/-! ### Bytes and their spelling -/

theorem spelling_length (v : Variant) (c : UInt8) :
    (v.spelling c).length = if v.escaped c then 3 else 1 := by
  rw [Variant.spelling, Variant.escaped]
  split
  · next h => simp [h]
  next h =>
  split
  · next h' => simp [h, h']
  · next h' => simp [h, h']

def Variant.mirrored (v : Variant) (c : UInt8) : UInt8 :=
  if v.escaped c then UInt8.ofNat (c.toNat % 16 * 16 + c.toNat / 16) else c

theorem mirrored_eq_iff : v.mirrored c = c ↔ (v.escaped c = true → c.toNat / 16 = c.toNat % 16) := by
  have hc := c.toNat_lt
  rw [Variant.mirrored]
  split
  · next h =>
    simp only [h, true_imp_iff]
    rw [← UInt8.toNat_inj, UInt8.toNat_ofNat', Nat.mod_eq_of_lt (by omega)]
    omega
  · next h => exact iff_of_true rfl fun h' => absurd h' h

theorem decode_spelling : (uriDecode v (-1) n (v.spelling c ++ rest)).1 =
      v.mirrored c :: (uriDecode v (-1) (n + 1) rest).1 := by
  rw [Variant.spelling, Variant.mirrored, Variant.escaped]
  split
  · next h =>
    obtain ⟨hform, hc⟩ : v.wwwForm = true ∧ c = 32 := by simpa using h
    simp [uriDecode, hform, hc]
  next h =>
  split
  · next h' =>
    have hpct : (c == 37) = false := by
      rw [beq_eq_false_iff_ne]
      rintro rfl
      cases h'
    have hplus : c ≠ 43 := by
      rintro rfl
      cases h'
    simp [uriDecode, h, h', hpct, hplus]
  next h' =>
  have hlow := hexvalue_hexdigitUpper (d := c.toNat % 16) (by omega)
  have hhigh := hexvalue_hexdigitUpper (d := c.toNat / 16) (by have := c.toNat_lt; omega)
  simp [uriDecode, h, h', hlow, hhigh]

theorem decode_spelled : (uriDecode v (-1) n (s.flatMap v.spelling)).1 = s.map v.mirrored := by
  induction s generalizing n with
  | nil => rfl
  | cons c rest ih => rw [flatMap_cons, decode_spelling, ih, map_cons]

/-! ### Runs of the encoder -/

theorem encodeBuffer_full (h : ¬ (dstsiz = -1 ∨ n < last)) :
    encodeBuffer v dstsiz last n s = ([], s) := by
  cases s with
  | nil => rfl
  | cons c rest => rw [encodeBuffer, if_neg fun hroom => h hroom.1]

theorem encodeBuffer_append : encodeBuffer v dstsiz last n (s ++ t) =
      let r := encodeBuffer v dstsiz last n s
      let r' := encodeBuffer v dstsiz last (n + r.1.length) t
      if r.2 = [] then (r.1 ++ r'.1, r'.2) else (r.1, r.2 ++ t) := by
  induction s generalizing n with
  | nil => rfl
  | cons c rest ih =>
    rw [cons_append, encodeBuffer, encodeBuffer]
    split
    · rw [ih]
      simp only [length_append, add_assoc]
      split <;> simp
    · simp

/-- The split into iovecs does not matter. -/
theorem encodeLoop_flatten : let r := encodeLoop v dstsiz last n iov
    (r.1, r.2.flatten) = encodeBuffer v dstsiz last n iov.flatten := by
  induction iov generalizing n with
  | nil => rfl
  | cons buf iov ih =>
    rw [encodeLoop, flatten_cons, encodeBuffer_append]
    simp only
    split
    · next h => rw [if_pos h.1, ← ih]
    next h =>
    split
    · next hnil =>
      rw [encodeBuffer_full fun hroom => h ⟨hnil, hroom⟩, hnil, append_nil]
      rfl
    · rfl

/-- The bytes at the start of a text whose spelling has at most `k` characters. -/
def Variant.fitting (v : Variant) : Nat → Text → Text
  | _, [] => []
  | k, c :: rest =>
    if (v.spelling c).length ≤ k then c :: v.fitting (k - (v.spelling c).length) rest else []

theorem fitting_length (v : Variant) (k : Nat) (s : Text) :
    ((v.fitting k s).flatMap v.spelling).length ≤ k := by
  fun_induction v.fitting k s with
  | case1 => exact Nat.zero_le _
  | case2 k c rest hle ih =>
    rw [flatMap_cons, length_append]
    omega
  | case3 => exact Nat.zero_le _

theorem fitting_whole (h : (s.flatMap v.spelling).length ≤ k) : v.fitting k s = s := by
  induction s generalizing k with
  | nil => rfl
  | cons c rest ih =>
    rw [flatMap_cons, length_append] at h
    rw [Variant.fitting, if_pos (by omega), ih (by omega)]

theorem fitting_drop : v.fitting k s ++ s.drop (v.fitting k s).length = s := by
  fun_induction v.fitting k s with
  | case1 => rfl
  | case2 k c rest hle ih => simpa using ih
  | case3 => rfl

theorem encodeBuffer_limited (hlim : dstsiz ≠ -1) : let taken := v.fitting (last - n).toNat s
    encodeBuffer v dstsiz last n s = (taken.flatMap v.spelling, s.drop taken.length) := by
  induction s generalizing n with
  | nil => rfl
  | cons c rest ih =>
    have hlen := spelling_length v c
    have hfits : (dstsiz = -1 ∨ n < last) ∧ (v.escaped c = true → n + 3 ≤ last) ↔
        (v.spelling c).length ≤ (last - n).toNat := by
      cases hesc : v.escaped c with
      | true =>
        simp only [hesc, if_true, true_imp_iff] at hlen ⊢
        omega
      | false =>
        simp only [hesc, Bool.false_eq_true, if_false, false_imp_iff, and_true] at hlen ⊢
        omega
    have hrest : (last - (n + (v.spelling c).length : Nat)).toNat =
        (last - n).toNat - (v.spelling c).length := by omega
    simp only [encodeBuffer, hfits, ih, hrest, Variant.fitting]
    split <;> simp

theorem encodeBuffer_plain (h : ∀ c ∈ s, v.escaped c = false) :
    encodeBuffer v (-1) last n s = (s.flatMap v.spelling, []) := by
  induction s generalizing n with
  | nil => rfl
  | cons c rest ih =>
    simp [encodeBuffer, h c mem_cons_self, ih fun a ha => h a (mem_cons_of_mem _ ha)]

/-- Without a limit the end lies in front of the destination. -/
theorem plain_of_encodeBuffer (h : (encodeBuffer v (-1) (-1) n s).2 = []) :
    ∀ c ∈ s, v.escaped c = false := by
  induction s generalizing n with
  | nil => exact fun c hc => absurd hc not_mem_nil
  | cons c rest ih =>
    rw [encodeBuffer] at h
    split at h
    · next hadm =>
      refine forall_mem_cons.mpr ⟨?_, ih h⟩
      by_contra hesc
      have := hadm.2 (Bool.eq_true_of_not_eq_false hesc)
      omega
    · cases h

/-! ### The round trip -/

/-- What is asked of an encoder: its text fits and is decoded to the bytes that it has consumed,
those are all bytes if their spelling fits, and a `NULL` destination gives the same length. -/
structure RoundTrip (v : Variant) (dstsiz : Int) (iov : List Text) : Prop where
  decoded : iov.flatten = (uriDecode v (-1) 0 (uriEncodev v false dstsiz iov).1).1 ++
    (uriEncodev v false dstsiz iov).2.flatten
  fits : dstsiz ≠ -1 → (uriEncodev v false dstsiz iov).1.length ≤ dstsiz
  whole : dstsiz = -1 ∨ (iov.flatten.flatMap v.spelling).length ≤ dstsiz →
    (uriEncodev v false dstsiz iov).2.flatten = []
  counted : (uriEncodev v true dstsiz iov).1.length = (uriEncodev v false dstsiz iov).1.length

/-- The encoder has written the bytes `taken`, which are all if their spelling fits. -/
theorem roundTrip_iff {iov : List Text} (taken : Text) (h : encodeBuffer v dstsiz dstsiz 0 iov.flatten =
      (taken.flatMap v.spelling, iov.flatten.drop taken.length))
    (hnull : (encodeBuffer v dstsiz (dstsiz % 2 ^ 64) 0 iov.flatten).1.length =
      (taken.flatMap v.spelling).length)
    (htkn : taken ++ iov.flatten.drop taken.length = iov.flatten)
    (hfits : dstsiz ≠ -1 → (taken.flatMap v.spelling).length ≤ dstsiz)
    (hwh : dstsiz = -1 ∨ (iov.flatten.flatMap v.spelling).length ≤ dstsiz → taken = iov.flatten) :
    RoundTrip v dstsiz iov ↔ ∀ c ∈ taken, v.escaped c = true → c.toNat / 16 = c.toNat % 16 := by
  rw [← encodeLoop_flatten, Prod.mk.injEq] at h
  rw [← encodeLoop_flatten] at hnull
  obtain ⟨hwr, hleft⟩ : (uriEncodev v false dstsiz iov).1 = taken.flatMap v.spelling ∧
    (uriEncodev v false dstsiz iov).2.flatten = iov.flatten.drop taken.length := h
  have hmir : taken.map v.mirrored = taken.map id ↔ _ := map_inj_left
  simp only [map_id, id_eq, mirrored_eq_iff] at hmir
  rw [← hmir, ← append_left_inj (iov.flatten.drop taken.length), htkn]
  constructor
  · intro hall
    have hdec := hall.decoded
    rw [hwr, decode_spelled, hleft] at hdec
    exact hdec.symm
  intro hsame
  refine ⟨?_, fun hne => hwr ▸ hfits hne, fun hlrg => ?_, ?_⟩
  · rw [hwr, decode_spelled, hleft, hsame]
  · rw [hleft, hwh hlrg, drop_length]
  rw [hwr]
  exact hnull

/-- Without a limit no byte may need an escape; otherwise the digits of an escape must be equal. -/
theorem uri_round_trip_iff (v : Variant) (hsize : -1 ≤ dstsiz ∧ dstsiz < 2 ^ 63) (iov : List Text) :
    RoundTrip v dstsiz iov ↔ if dstsiz = -1 then ∀ c ∈ iov.flatten, v.escaped c = false
      else ∀ c ∈ v.fitting dstsiz.toNat iov.flatten,
        v.escaped c = true → c.toNat / 16 = c.toNat % 16 := by
  split
  · next hunl =>
    subst hunl
    constructor
    · intro h
      apply plain_of_encodeBuffer
      rw [← encodeLoop_flatten]
      exact h.whole (.inl rfl)
    intro h
    apply (roundTrip_iff iov.flatten ?_ ?_ ?_ (absurd rfl) (fun _ => rfl)).mpr
    · intro c hc hesc
      rw [h c hc] at hesc
      cases hesc
    · rw [encodeBuffer_plain h, drop_length]
    · rw [encodeBuffer_plain h]
    · rw [drop_length, append_nil]
  next hlim =>
  have hlen := fitting_length v dstsiz.toNat iov.flatten
  apply roundTrip_iff
  · rw [encodeBuffer_limited hlim, Int.natCast_zero, Int.sub_zero]
  · rw [encodeBuffer_limited hlim, Int.emod_eq_of_lt (by omega) (by omega), Int.natCast_zero,
      Int.sub_zero]
  · exact fitting_drop
  · intro _
    omega
  intro hlrg
  exact fitting_whole (by omega)

/-- Bytes without an escape come back, and so do those whose digits are equal. -/
theorem uri_round_trip_words : RoundTrip ⟨true, false⟩ (-1) [[97, 32], [98]] ∧
    RoundTrip ⟨false, false⟩ 6 [[34], [], [51, 119]] :=
  ⟨(uri_round_trip_iff _ (by decide) _).mpr (by decide +kernel),
    (uri_round_trip_iff _ (by decide) _).mpr (by decide +kernel)⟩

/-- A space is written as `%02`, which is decoded to byte 2; without a limit it is not written. -/
theorem space_is_not_encoded : ¬ RoundTrip ⟨false, false⟩ 3 [[32]] ∧
    ¬ RoundTrip ⟨false, false⟩ (-1) [[32]] := by
  constructor
  · intro h
    have hdec := h.decoded
    revert hdec
    decide
  intro h
  have hwh := h.whole (.inl rfl)
  revert hwh
  decide

end UriEncoding
