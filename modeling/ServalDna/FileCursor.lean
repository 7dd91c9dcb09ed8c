import ServalDna.TextCodec

/-!
# A cursor over a file

The packet filter's parser reads a file through a buffer of 1024 bytes. The cursor
stands at a byte of the buffer; `preload` sees to it that some bytes behind it are in
the buffer, and while the cursor is pinned the bytes from the pin on are kept. Bytes
that are not needed any more are moved out of the buffer when there is no room.
-/
namespace FileCursor

open TextCodec List Option

def bufferSize : Nat := 1024

/-- `buffer` has the bytes up to `end`; `current` and `pin` are offsets in it, and
`stream` is what the file still has. -/
structure Cursor where
  buffer : Text
  current : Nat
  pin : Option Nat
  pins : Nat
  stream : Text
  feof : Bool
  fits : buffer.length ≤ bufferSize
  inside : current ≤ buffer.length
  behind : ∀ p, pin = some p → p ≤ current
  ended : feof = true → stream = [] ∧ buffer.length < bufferSize

namespace Cursor

def init (file : Text) : Cursor where
  buffer := []
  current := 0
  pin := none
  pins := 0
  stream := file
  feof := false
  fits := Nat.zero_le _
  inside := le_rfl
  behind := nofun
  ended := nofun

variable (c : Cursor)

def available : Nat := c.buffer.length - c.current

/-! ### Loading -/

def space : Nat := bufferSize - c.buffer.length

def stale : Nat := c.pin.getD c.current

def ahead (n : Nat) : Nat :=
  if c.available + c.space ≥ n then n - c.available else if c.stale = 0 then c.space else 0

theorem ahead_le (n : Nat) (h : c.available < n) : c.ahead n ≤ c.space := by
  unfold ahead
  split
  · omega
  · split <;> omega

def fread (count : Nat) (h : count ≤ c.space) : Cursor where
  buffer := c.buffer ++ c.stream.take count
  current := c.current
  pin := c.pin
  pins := c.pins
  stream := c.stream.drop count
  feof := c.feof || decide (c.stream.length < count)
  fits := by
    have := c.fits
    rw [space] at h
    rw [length_append, length_take]
    omega
  inside := by
    have := c.inside
    rw [length_append]
    omega
  behind := c.behind
  ended := by
    intro hfeof
    have hfits := c.fits
    rw [space] at h
    rw [length_append, length_take]
    rcases Bool.or_eq_true_iff.mp hfeof with hfeof | hshort
    · obtain ⟨hstream, hlen⟩ := c.ended hfeof
      rw [hstream]
      simpa using hlen
    have hshort := of_decide_eq_true hshort
    exact ⟨drop_of_length_le (le_of_lt hshort), by omega⟩

theorem stale_le : c.stale ≤ c.current := by
  unfold stale
  cases h : c.pin with
  | none => exact le_rfl
  | some p => exact c.behind p h

def discard : Cursor where
  buffer := c.buffer.drop c.stale
  current := c.current - c.stale
  pin := c.pin.map fun _ => 0
  pins := c.pins
  stream := c.stream
  feof := c.feof
  fits := by
    have := c.fits
    rw [length_drop]
    omega
  inside := by
    have := c.inside
    rw [length_drop]
    omega
  behind := by
    intro p hp
    obtain ⟨q, -, rfl⟩ := map_eq_some_iff.mp hp
    exact Nat.zero_le _
  ended := by
    intro hfeof
    obtain ⟨hstream, hlen⟩ := c.ended hfeof
    refine ⟨hstream, ?_⟩
    rw [length_drop]
    omega

def work (n : Nat) : Nat :=
  if c.feof then 0 else 1 + 2 * (n - c.available) + if c.stale = 0 then 0 else 1

theorem available_fread (cnt : Nat) (h : cnt ≤ c.space) :
    (c.fread cnt h).available = c.available + min cnt c.stream.length := by
  have := c.inside
  simp only [available, fread, length_append, length_take]
  omega

theorem stale_discard : c.discard.stale = 0 := by
  have hpin : c.discard.stale = (c.pin.map fun _ => 0).getD (c.current - c.stale) := rfl
  rw [hpin, stale]
  cases c.pin with
  | none => exact Nat.sub_self _
  | some p => rfl

theorem available_discard : c.discard.available = c.available := by
  have := c.stale_le
  simp only [available, discard, length_drop]
  omega

theorem work_fread (n : Nat) (hneed : c.available < n) (hfeof : c.feof = false) (hah : 0 < c.ahead n) :
    (c.fread (c.ahead n) (c.ahead_le n hneed)).work n < c.work n := by
  have hstl : (c.fread (c.ahead n) (c.ahead_le n hneed)).stale = c.stale := rfl
  have hfeof' : (c.fread (c.ahead n) (c.ahead_le n hneed)).feof =
      decide (c.stream.length < c.ahead n) := by simp [fread, hfeof]
  unfold work
  rw [hfeof, hfeof', hstl, available_fread]
  by_cases hsht : c.stream.length < c.ahead n
  · rw [if_pos (by simpa using hsht), if_neg Bool.false_ne_true]
    omega
  rw [if_neg (by simpa using hsht), if_neg Bool.false_ne_true]
  omega

theorem work_discard (n : Nat) (hfeof : c.feof = false) (hstl : 0 < c.stale) :
    c.discard.work n < c.work n := by
  have hfeof' : c.discard.feof = false := hfeof
  unfold work
  rw [hfeof, hfeof', c.stale_discard, c.available_discard, if_neg Bool.false_ne_true,
    if_neg Bool.false_ne_true, if_pos rfl, if_neg (by omega)]
  omega

def preload (c : Cursor) (n : Nat) : Cursor :=
  if hneed : c.available < n ∧ c.feof = false then
    if _hahead : 0 < c.ahead n then preload (c.fread (c.ahead n) (c.ahead_le n hneed.1)) n
    else if _hstale : 0 < c.stale then preload c.discard n
    -- the buffer is too small
    else c
  else c
termination_by c.work n
decreasing_by
  · exact c.work_fread n hneed.1 hneed.2 _hahead
  · exact c.work_discard n hneed.2 _hstale

/-! ### Reading

`none` is a failed assertion. -/

def eof : Bool × Cursor :=
  let c := c.preload 1
  (c.current == c.buffer.length && c.feof, c)

def peek : Option (Option UInt8 × Cursor) :=
  let (ended, c) := c.eof
  if ended then some (none, c)
  else
    match c.buffer[c.current]? with
    | some byte => some (some byte, c)
    | none => none

def preloaded : Option Text :=
  if c.current < c.buffer.length then some (c.buffer.drop c.current) else none

def advance (n : Nat) : Option Cursor :=
  if h : c.current + n ≤ c.buffer.length then
    some { c with
      current := c.current + n
      inside := h
      behind := fun p hp => Nat.le_add_right_of_le (c.behind p hp) }
  else none

def next : Option Cursor := if c.current < c.buffer.length then c.advance 1 else none

def skip (text : Text) : Bool × Cursor :=
  let c := c.preload text.length
  if text.length ≤ c.available ∧ text.isPrefixOf (c.buffer.drop c.current) then
    match c.advance text.length with
    | some c => (true, c)
    | none => (false, c)
  else (false, c)

/-! ### Pinning -/

def withPin : Cursor :=
  { c with
    pin := some (c.pin.getD c.current)
    pins := c.pins + 1
    behind := by
      intro p hp
      cases hp
      exact c.stale_le }

def setPin : Option (Nat × Cursor) :=
  if c.current < c.buffer.length then some (c.current - c.pin.getD c.current, c.withPin) else none

def dropPin : Option Nat := if c.pins - 1 = 0 then none else c.pin

theorem dropPin_le (p : Nat) (h : c.dropPin = some p) : c.pin = some p := by
  unfold dropPin at h
  split at h
  · cases h
  · exact h

def unpin (offset : Nat) : Option Cursor :=
  match c.pin with
  | some p =>
    if 0 < c.pins ∧ p + offset ≤ c.current then
      some { c with
        pin := c.dropPin
        pins := c.pins - 1
        behind := fun q hq => c.behind q (c.dropPin_le q hq) }
    else none
  | none => none

def retreat (offset : Nat) : Option Cursor :=
  match hpin : c.pin with
  | some p =>
    if h : 0 < c.pins ∧ p + offset ≤ c.current then
      some { c with
        current := p + offset
        pin := c.dropPin
        pins := c.pins - 1
        inside := h.2.trans c.inside
        behind := by
          intro q hq
          have hq := c.dropPin_le q hq
          rw [hpin] at hq
          cases hq
          exact Nat.le_add_right _ _ }
    else none
  | none => none

/-! ## What the parser sees -/

def text : Text := c.buffer.drop c.current ++ c.stream

def pinned : Option Text := c.pin.map fun p => c.buffer.drop p ++ c.stream

def span : Option Nat := c.pin.map fun p => c.current - p

def limit : Nat := bufferSize - c.span.getD 0

/-- The cursor has been loaded and stands where it stood. -/
structure Same (c c' : Cursor) : Prop where
  text : c'.text = c.text
  pinned : c'.pinned = c.pinned
  span : c'.span = c.span
  pins : c'.pins = c.pins

theorem Same.refl (c : Cursor) : Same c c := ⟨rfl, rfl, rfl, rfl⟩

theorem Same.symm (h : Same c c') : Same c' c :=
  ⟨h.text.symm, h.pinned.symm, h.span.symm, h.pins.symm⟩

theorem Same.trans {c : Cursor} (h : Same c c') (h' : Same c' c'') : Same c c'' :=
  ⟨h'.text.trans h.text, h'.pinned.trans h.pinned, h'.span.trans h.span, h'.pins.trans h.pins⟩

theorem Same.limit {c : Cursor} (h : Same c c') : c'.limit = c.limit := by
  rw [Cursor.limit, Cursor.limit, h.span]

theorem text_length : c.text.length = c.available + c.stream.length := by
  rw [text, length_append, length_drop, available]

theorem available_le : c.available ≤ c.text.length := by
  rw [text_length]
  omega

/-- What the buffer can hold is loaded, free, or stale. -/
theorem limit_eq : c.limit = c.available + c.space + c.stale := by
  have := c.fits
  have := c.inside
  have hstl := c.stale_le
  unfold stale at hstl ⊢
  unfold available space limit span
  cases hpin : c.pin with
  | none =>
    simp only [map_none, getD_none]
    omega
  | some p =>
    simp only [hpin, map_some, getD_some] at hstl ⊢
    omega

theorem available_le_limit : c.available ≤ c.limit := by
  rw [limit_eq]
  omega

section Load

variable {c}

theorem same_fread (cnt : Nat) (h : cnt ≤ c.space) : Same c (c.fread cnt h) := by
  have hdrop : ∀ k, k ≤ c.buffer.length →
      (c.buffer ++ c.stream.take cnt).drop k ++ c.stream.drop cnt = c.buffer.drop k ++ c.stream := by
    intro k hk
    rw [drop_append_of_le_length hk, append_assoc, take_append_drop]
  refine ⟨hdrop c.current c.inside, ?_, rfl, rfl⟩
  unfold pinned
  cases hpin : c.pin with
  | none => simp [fread, hpin]
  | some p =>
    simp only [fread, hpin, map_some]
    rw [hdrop p ((c.behind p hpin).trans c.inside)]

theorem same_discard : Same c c.discard := by
  have hle := c.stale_le
  refine ⟨?_, ?_, ?_, rfl⟩
  · simp only [text, discard, drop_drop]
    rw [Nat.add_sub_of_le hle]
  all_goals
    simp only [pinned, span, discard, Option.map_map]
    cases hpin : c.pin with
    | none => rfl
    | some p =>
      have hstl : c.stale = p := by simp [stale, hpin]
      simp [hstl]

def loaded (c : Cursor) (n : Nat) : Nat := max c.available (min (min n c.limit) c.text.length)

theorem loaded_fread (n : Nat) (hneed : c.available < n) (hah : 0 < c.ahead n) :
    (c.fread (c.ahead n) (c.ahead_le n hneed)).loaded n = c.loaded n := by
  have hsame := same_fread (c.ahead n) (c.ahead_le n hneed)
  have hlen := c.text_length
  have hlim := c.limit_eq
  rw [loaded, loaded, hsame.limit, hsame.text, available_fread]
  unfold ahead at hah ⊢
  split
  · omega
  next hsp =>
  rw [if_neg hsp] at hah
  split at hah
  · next hstl =>
    rw [if_pos hstl]
    omega
  · omega

variable (c)

theorem preload_spec (n : Nat) : Same c (c.preload n) ∧ (c.preload n).available = c.loaded n ∧
      ((c.preload n).available < min n c.limit → (c.preload n).feof = true) := by
  fun_induction preload c n with
  | case1 c hneed hah ih =>
    have hsame := same_fread (c.ahead n) (c.ahead_le n hneed.1)
    obtain ⟨hsame', hload, hfeof⟩ := ih
    exact ⟨hsame.trans hsame', hload.trans (loaded_fread n hneed.1 hah), hfeof⟩
  | case2 c hneed hah hstl ih =>
    have hsame := same_discard (c := c)
    obtain ⟨hsame', hload, hfeof⟩ := ih
    rw [hsame.limit] at hfeof
    refine ⟨hsame.trans hsame', hload.trans ?_, hfeof⟩
    rw [loaded, loaded, hsame.limit, hsame.text, available_discard]
  | case3 c hneed hah hstl =>
    have hfull := c.limit_eq
    unfold ahead at hah
    have hsp : c.space = 0 := by
      split at hah
      · omega
      rw [if_pos (by omega)] at hah
      omega
    refine ⟨.refl c, ?_, fun h => ?_⟩
    · rw [loaded]
      omega
    · omega
  | case4 c hneed =>
    refine ⟨.refl c, ?_, fun h => ?_⟩
    · have hlen := c.text_length
      by_cases hn : c.available < n
      · have hfeof : c.feof = true := by
          cases hfeof : c.feof with
          | true => rfl
          | false => exact absurd ⟨hn, hfeof⟩ hneed
        have hstr := congrArg List.length (c.ended hfeof).1
        rw [length_nil] at hstr
        rw [loaded]
        omega
      rw [loaded]
      omega
    cases hfeof : c.feof with
    | true => rfl
    | false => exact absurd ⟨by omega, hfeof⟩ hneed

theorem preload_same (n : Nat) : Same c (c.preload n) := (preload_spec c n).1

theorem preload_available (n : Nat) : (c.preload n).available = c.loaded n :=
  (preload_spec c n).2.1

theorem buffer_text : c.buffer.drop c.current = c.text.take c.available := by
  rw [text, available, ← length_drop, take_left]

theorem head_text (h : 0 < c.available) : c.buffer[c.current]? = c.text.head? := by
  have hlen : c.current < c.buffer.length := by
    rw [available] at h
    omega
  rw [text, head?_append, head?_drop, getElem?_eq_getElem hlen, some_or]

/-- At the end of the file, or where a pinned text fills the buffer. -/
theorem available_zero (hlim : c.limit ≠ 0) (h : (c.preload 1).available = 0) :
    c.text = [] ∧ (c.preload 1).feof = true := by
  obtain ⟨-, hload, hfeof⟩ := preload_spec c 1
  have hend := hfeof (by omega)
  rw [hload, loaded] at h
  exact ⟨length_eq_zero_iff.mp (by omega), hend⟩

theorem eof_spec (hlim : c.limit ≠ 0) : c.eof = (c.text.isEmpty, c.preload 1) := by
  have hins := (c.preload 1).inside
  have hall : ((c.preload 1).current == (c.preload 1).buffer.length && (c.preload 1).feof) =
      c.text.isEmpty := by
    by_cases hzero : (c.preload 1).available = 0
    · obtain ⟨htext, hfeof⟩ := c.available_zero hlim hzero
      rw [available] at hzero
      rw [htext, hfeof, Bool.and_true, beq_iff_eq.mpr (by omega)]
      rfl
    have hne : c.text ≠ [] := by
      intro htext
      have hsame := (preload_same c 1).text
      have hle := (c.preload 1).available_le
      rw [hsame, htext, length_nil] at hle
      omega
    rw [available] at hzero
    rw [isEmpty_eq_false_iff.mpr hne, beq_eq_false_iff_ne.mpr (by omega), Bool.false_and]
  rw [eof, hall]

theorem peek_spec (hlim : c.limit ≠ 0) : c.peek = some (c.text.head?, c.preload 1) := by
  rw [peek, c.eof_spec hlim]
  cases htext : c.text with
  | nil => rfl
  | cons byte rest =>
    have hpos : 0 < (c.preload 1).available := by
      have := available_zero c hlim
      rw [htext] at this
      by_cases hzero : (c.preload 1).available = 0
      · cases (this hzero).1
      · omega
    simp [head_text _ hpos, (preload_same c 1).text, htext]

/-- A pinned text that fills the buffer cannot be read on. -/
theorem peek_full (hlim : c.limit = 0) : c.peek = none := by
  have hfits := (c.preload 1).fits
  have hins := (c.preload 1).inside
  have hlim' := (preload_same c 1).limit.trans hlim
  rw [limit_eq, available, space] at hlim'
  -- the pin is at the start of a buffer that is full, so the end of the file was not met
  have hfeof : (c.preload 1).feof = false := by
    cases h : (c.preload 1).feof with
    | false => rfl
    | true =>
      have := ((c.preload 1).ended h).2
      omega
  have hbyte : (c.preload 1).buffer[(c.preload 1).current]? = none := getElem?_eq_none (by omega)
  simp [peek, eof, hfeof, hbyte]

theorem preloaded_spec :
    c.preloaded = if c.available = 0 then none else some (c.text.take c.available) := by
  unfold preloaded
  by_cases h : c.available = 0
  · rw [if_pos h, if_neg (by rw [available] at h; omega)]
  · rw [if_neg h, if_pos (by rw [available] at h; omega), buffer_text]

variable {c}

/-- The cursor has been loaded and has gone on by some bytes. -/
structure Moved (c : Cursor) (n : Nat) (c' : Cursor) : Prop where
  text : c'.text = c.text.drop n
  pinned : c'.pinned = c.pinned
  span : c'.span = c.span.map (· + n)
  pins : c'.pins = c.pins

theorem Same.moved (h : Same c c') (h' : Moved c' n c'') : Moved c n c'' :=
  ⟨h'.text.trans (by rw [h.text]), h'.pinned.trans h.pinned, h'.span.trans (by rw [h.span]),
    h'.pins.trans h.pins⟩

theorem Same.still (h : Same c c') : Moved c 0 c' :=
  ⟨h.text.trans (by rw [drop_zero]), h.pinned, h.span.trans (by cases c.span <;> rfl), h.pins⟩

theorem Moved.trans {m : Nat} (h : Moved c m c') (h' : Moved c' n c'') : Moved c (m + n) c'' := by
  refine ⟨?_, h'.pinned.trans h.pinned, ?_, h'.pins.trans h.pins⟩
  · rw [h'.text, h.text, drop_drop]
  rw [h'.span, h.span, Option.map_map]
  cases c.span with
  | none => rfl
  | some s => simp

theorem span_add {pin : Option Nat} {cur : Nat} (h : ∀ p, pin = some p → p ≤ cur) (n : Nat) :
    pin.map (fun p => cur + n - p) = (pin.map fun p => cur - p).map (· + n) := by
  cases pin with
  | none => rfl
  | some p =>
    have := h p rfl
    simp only [map_some, Option.some.injEq]
    omega

theorem advance_spec (c : Cursor) (n : Nat) (h : n ≤ c.available) :
    ∃ c', c.advance n = some c' ∧ Moved c n c' ∧ c'.available = c.available - n := by
  have hins := c.inside
  have hle : c.current + n ≤ c.buffer.length := by
    rw [available] at h
    omega
  refine ⟨_, dif_pos hle, ⟨?_, rfl, ?_, rfl⟩, ?_⟩
  · rw [text, text, ← drop_drop, drop_append_of_le_length]
    rw [length_drop]
    omega
  · exact span_add c.behind n
  rw [available, available]
  simp only
  omega

theorem next_spec (c : Cursor) (h : 0 < c.available) :
    ∃ c', c.next = some c' ∧ Moved c 1 c' ∧ c'.available = c.available - 1 := by
  have hlt : c.current < c.buffer.length := by
    rw [available] at h
    omega
  rw [next, if_pos hlt]
  exact c.advance_spec 1 h

/-- The text is there, and is loaded, or it is not passed. -/
theorem skip_spec (c : Cursor) (word : Text) :
    if word.length ≤ c.loaded word.length ∧ word.isPrefixOf c.text then
      ∃ c', c.skip word = (true, c') ∧ Moved c word.length c' ∧
        c'.available = c.loaded word.length - word.length
    else ∃ c', c.skip word = (false, c') ∧ Same c c' ∧ c'.available = c.loaded word.length := by
  have hsame := preload_same c word.length
  have hload := preload_available c word.length
  unfold skip
  simp only
  rw [hload, buffer_text, hsame.text, hload]
  by_cases hlen : word.length ≤ c.loaded word.length
  · have hiff : word.isPrefixOf (c.text.take (c.loaded word.length)) = word.isPrefixOf c.text := by
      rw [Bool.eq_iff_iff, List.isPrefixOf_iff_prefix, List.isPrefixOf_iff_prefix, prefix_take_iff]
      exact ⟨fun h => h.1, fun h => ⟨h, hlen⟩⟩
    rw [hiff]
    by_cases hthr : word.isPrefixOf c.text = true
    · rw [if_pos ⟨hlen, hthr⟩, if_pos ⟨hlen, hthr⟩]
      obtain ⟨c', hadv, hmv, hav⟩ :=
        (c.preload word.length).advance_spec word.length (by rw [hload]; exact hlen)
      rw [hadv]
      exact ⟨c', rfl, hsame.moved hmv, by rw [hav, hload]⟩
    rw [if_neg (fun h => hthr h.2), if_neg (fun h => hthr h.2)]
    exact ⟨_, rfl, hsame, hload⟩
  rw [if_neg (fun h => hlen h.1), if_neg (fun h => hlen h.1)]
  exact ⟨_, rfl, hsame, hload⟩

/-! ### Where the cursor can go -/

/-- The cursor has gone on, and no byte behind its pin is lost. -/
def After (c c' : Cursor) : Prop := ∃ n, Moved c n c'

theorem After.refl (c : Cursor) : After c c := ⟨0, (Same.refl c).still⟩

theorem After.trans {c : Cursor} (h : After c c') (h' : After c' c'') : After c c'' := by
  obtain ⟨m, hm⟩ := h
  obtain ⟨n, hn⟩ := h'
  exact ⟨m + n, hm.trans hn⟩

theorem After.length {c : Cursor} (h : After c c') : c'.text.length ≤ c.text.length := by
  obtain ⟨n, hn⟩ := h
  rw [hn.text, length_drop]
  omega

theorem preload_after (c : Cursor) (n : Nat) : After c (c.preload n) := ⟨0, (preload_same c n).still⟩

theorem peek_after (h : c.peek = some (byte, c')) : After c c' := by
  by_cases hlim : c.limit = 0
  · rw [c.peek_full hlim] at h
    cases h
  rw [c.peek_spec hlim] at h
  cases h
  exact c.preload_after 1

theorem advance_inv (h : c.advance n = some c') : Moved c n c' ∧ n ≤ c.available := by
  by_cases hle : n ≤ c.available
  · obtain ⟨c1, hc1, hmv, -⟩ := c.advance_spec n hle
    rw [h] at hc1
    cases hc1
    exact ⟨hmv, hle⟩
  rw [advance, dif_neg (by rw [available] at hle; omega)] at h
  cases h

theorem next_inv (h : c.next = some c') : Moved c 1 c' ∧ c'.text.length < c.text.length := by
  unfold next at h
  split at h
  · obtain ⟨hmv, hle⟩ := advance_inv h
    refine ⟨hmv, ?_⟩
    have := c.available_le
    rw [hmv.text, length_drop]
    omega
  · cases h

theorem skip_after (h : c.skip word = (found, c')) : After c c' := by
  have hspec := c.skip_spec word
  split at hspec
  · obtain ⟨c1, hskip, hmv, -⟩ := hspec
    rw [h] at hskip
    cases hskip
    exact ⟨_, hmv⟩
  obtain ⟨c1, hskip, hsame, -⟩ := hspec
  rw [h] at hskip
  cases hskip
  exact ⟨0, hsame.still⟩

/-- The cursor goes back to where it was pinned. -/
theorem retreat_text (hpin : c.setPin = some (off, c1)) (haft : After c1 c2)
    (h : c2.retreat off = some c') : c'.text = c.text := by
  obtain ⟨n, hmv⟩ := haft
  unfold setPin at hpin
  split at hpin
  · obtain ⟨rfl, rfl⟩ := Prod.mk.inj (Option.some.inj hpin)
    have hle := c.stale_le
    have hpinn : c2.pinned = some (c.buffer.drop c.stale ++ c.stream) := hmv.pinned
    unfold retreat at h
    split at h
    · next q hq =>
      split at h
      · next hback =>
        cases h
        rw [pinned, hq, map_some] at hpinn
        have hsame := Option.some.inj hpinn
        have hins2 := c2.inside
        have hoff : c.current - c.pin.getD c.current = c.current - c.stale := rfl
        have htext : c2.buffer.drop (q + (c.current - c.stale)) ++ c2.stream =
            (c2.buffer.drop q ++ c2.stream).drop (c.current - c.stale) := by
          rw [drop_append_of_le_length (by rw [length_drop]; omega), drop_drop]
        refine htext.trans ?_
        rw [hsame, drop_append_of_le_length (by rw [length_drop]; omega), drop_drop,
          Nat.add_sub_of_le hle]
        rfl
      · cases h
    · cases h
  · cases hpin

theorem unpin_text (h : c.unpin off = some c') : c'.text = c.text := by
  unfold unpin at h
  split at h
  · split at h <;> cases h
    rfl
  · cases h

/-! ### Pins -/

/-- No byte of the buffer is kept for a retreat. -/
structure Free (c : Cursor) : Prop where
  pin : c.pin = none
  pins : c.pins = 0

theorem Free.span (h : c.Free) : c.span = none := by rw [Cursor.span, h.pin, map_none]

theorem Free.limit {c : Cursor} (h : c.Free) : c.limit ≠ 0 := by
  rw [Cursor.limit, h.span, getD_none]
  decide

theorem pin_none (h : c.span = none) : c.pin = none := by
  cases hpin : c.pin with
  | none => rfl
  | some p =>
    rw [Cursor.span, hpin] at h
    cases h

theorem Free.moved (h : c.Free) (hmv : Moved c n c') : c'.Free :=
  ⟨pin_none (by rw [hmv.span, h.span, map_none]), hmv.pins.trans h.pins⟩

theorem setPin_spec (c : Cursor) (hfree : c.Free) : if c.available = 0 then c.setPin = none
    else ∃ c', c.setPin = some (0, c') ∧ c'.text = c.text ∧ c'.pinned = some c.text ∧
      c'.span = some 0 ∧ c'.pins = 1 ∧ c'.available = c.available := by
  unfold setPin
  split
  · next hzero => rw [if_neg (by rw [available] at hzero; omega)]
  next hzero =>
  rw [if_pos (by rw [available] at hzero; omega)]
  have hpin : c.withPin.pin = some c.current := by simp [withPin, hfree.pin]
  refine ⟨c.withPin, by rw [hfree.pin, getD_none, Nat.sub_self], rfl, ?_, ?_, ?_, rfl⟩
  · rw [pinned, hpin]
    rfl
  · rw [span, hpin, map_some]
    exact congrArg some (Nat.sub_self _)
  · simp [withPin, hfree.pins]

theorem unpin_spec (c : Cursor) (hspan : c.span = some s) (hpins : c.pins = 1) :
    ∃ c', c.unpin 0 = some c' ∧ c'.text = c.text ∧ c'.Free ∧ c'.available = c.available := by
  obtain ⟨p, hp, -⟩ := map_eq_some_iff.mp hspan
  have hle := c.behind p hp
  unfold unpin
  simp only [hp, hpins]
  rw [if_pos ⟨by decide, hle⟩]
  exact ⟨_, rfl, rfl, ⟨by simp [dropPin, hpins], rfl⟩, rfl⟩

theorem retreat_spec (c : Cursor) (hspan : c.span = some s) (hpin : c.pinned = some t)
    (hpins : c.pins = 1) :
    ∃ c', c.retreat 0 = some c' ∧ c'.text = t ∧ c'.Free ∧ c'.available = c.available + s := by
  obtain ⟨p, hp, rfl⟩ := map_eq_some_iff.mp hspan
  have hle := c.behind p hp
  have hins := c.inside
  have htext : t = c.buffer.drop p ++ c.stream := by
    rw [pinned, hp, map_some] at hpin
    exact (Option.some.inj hpin).symm
  unfold retreat
  split
  · next q hq =>
    rw [hp] at hq
    cases hq
    rw [dif_pos ⟨by omega, hle⟩]
    refine ⟨_, rfl, htext.symm, ⟨by simp [dropPin, hpins], by simp [hpins]⟩, ?_⟩
    rw [available, available]
    simp only
    omega
  next hq =>
  rw [hp] at hq
  cases hq

end Load

end Cursor

end FileCursor
