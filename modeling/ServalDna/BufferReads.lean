import ServalDna.OverlayBuffer

/-!
# Reads from overlay buffers

The readers of an overlay buffer check a number of bytes against the limit before
they look at them. Two kinds of calls escape the check: one that asks for so many
bytes that the sum with the position wraps, and `ob_get_str_ptr` on a string that
has no terminating zero before the limit. All other calls look only at bytes
below the limit and keep the position there.
-/
namespace BufferReads

open ListSlice OverlayBuffer List

def ahead (b : Buffer) : List UInt8 := slice b.bytes b.position (b.limit - b.position)

/-- No object is larger than half of the address space, and the position is not
past the limit. -/
structure Sound (b : Buffer) : Prop where
  small : b.allocSize < 2 ^ 63
  inside : b.position ≤ b.limit

variable (b : Buffer)

@[simp] theorem advance_position (n : Nat) : (b.advance n).position = b.position + n := rfl

theorem limit_le_allocSize : b.limit ≤ b.allocSize := Nat.min_le_right _ _

@[simp] theorem ahead_length : (ahead b).length = b.limit - b.position := by
  have h := limit_le_allocSize b
  simp only [ahead, slice_length]
  simp only [Buffer.allocSize] at h
  omega

theorem ahead_advance (n : Nat) : ahead (b.advance n) = (ahead b).drop n := by
  simp only [ahead, drop_slice, Buffer.advance, Buffer.limit, Buffer.allocSize, Nat.sub_sub]

theorem byteAt_ahead (i : Nat) (h : i < (ahead b).length) :
    b.byteAt (b.position + i) = (ahead b).getD i 0 := by
  rw [ahead_length] at h
  simp only [Buffer.byteAt, ahead, slice, getD_eq_getElem?_getD, getElem?_take, if_pos h, getElem?_drop]

variable {b : Buffer}

theorem testOffset_iff (n : Nat) (h : b.position + n ≤ sizeMax) :
    testOffset b n = true ↔ b.position + n ≤ b.limit := by
  simp only [testOffset, Bool.decide_and, Bool.and_eq_true, decide_eq_true_eq,
    Nat.mod_eq_of_lt (Nat.lt_succ_of_le h), Buffer.limit, Nat.le_min]

namespace Sound

theorem testOffset_iff (h : Sound b) (n : Nat) (hn : n < 2 ^ 63) :
    testOffset b n = true ↔ b.position + n ≤ b.limit := by
  have hsm := h.small
  have hle := limit_le_allocSize b
  have hin := h.inside
  apply BufferReads.testOffset_iff
  simp only [sizeMax]
  omega

theorem advance (h : Sound b) (hn : b.position + n ≤ b.limit) : Sound (b.advance n) :=
  ⟨h.small, hn⟩

end Sound

/-! ## Reading known bytes -/

/-- The bytes that are left to read. -/
structure Holds (b : Buffer) (xs : List UInt8) : Prop where
  sound : Sound b
  ahead_eq : ahead b = xs

namespace Holds

theorem length_eq (h : Holds b xs) : b.limit - b.position = xs.length := by
  rw [← ahead_length, h.ahead_eq]

section Held

variable (h : Holds b (xs ++ rest))

include h

theorem advance : Holds (b.advance xs.length) rest := by
  have hlen := h.length_eq
  rw [length_append] at hlen
  have hin := h.sound.inside
  constructor
  · exact h.sound.advance (by omega)
  · rw [ahead_advance, h.ahead_eq, drop_left]

theorem testOffset : testOffset b xs.length = true := by
  have hlen := h.length_eq
  have hsm := h.sound.small
  have hle := limit_le_allocSize b
  have hin := h.sound.inside
  rw [length_append] at hlen
  rw [h.sound.testOffset_iff xs.length (by omega)]
  omega

theorem byteAt (i : Nat) (hi : i < xs.length) : b.byteAt (b.position + i) = xs.getD i 0 := by
  have hlen : i < (ahead b).length := by
    rw [h.ahead_eq, length_append]
    omega
  rw [byteAt_ahead b i hlen, h.ahead_eq]
  simp only [getD_eq_getElem?_getD, getElem?_append_left hi]

theorem readFixed {α : Type} (failed : α) (value : (Nat → UInt8) → α) :
    b.readFixed xs.length failed value = ⟨value fun i => b.byteAt (b.position + i), b.advance xs.length,
        List.range' b.position xs.length⟩ := by
  rw [Buffer.readFixed, if_pos h.testOffset]

omit h in
theorem obGet (h : Holds b (x :: rest)) : obGet b = ⟨some x, b.advance 1, [b.position]⟩ := by
  have hread := (show Holds b ([x] ++ rest) from h).readFixed none (fun byte => some (byte 0))
  have hbyte := (show Holds b ([x] ++ rest) from h).byteAt 0 (by simp)
  simp only [add_zero] at hbyte
  refine hread.trans ?_
  simp [hbyte]

theorem obGetBytes :
    obGetBytes b xs.length = ⟨some xs, b.advance xs.length, List.range' b.position xs.length⟩ := by
  rw [OverlayBuffer.obGetBytes, h.readFixed]
  congr 2
  apply ext_getElem
  · simp
  intro i hi hxs
  have hbyte := h.byteAt i hxs
  simp only [getElem_map, getElem_range, hbyte]
  simp [getD_eq_getElem?_getD, hxs]

end Held

end Holds

/-! ## Runs of readers -/

/-- A call of a reader; `len` is a `size_t`. -/
inductive Call where
  | peek
  | get
  | getBytes (len : UInt64)
  | getBytesPtr (len : UInt64)
  | getStrPtr
  | getUi16
  | getUi16Rv
  | getUi32
  | getUi32Rv
  | getUi64
  | getUi64Rv
  | getPackedUi32
  | getPackedUi64
  deriving DecidableEq, Repr

/-- The buffer after a call, the indices it has looked at, and whether it failed for
lack of data. The packed readers take bytes before they fail. -/
structure Effect where
  buffer : Buffer
  examined : List Nat
  failed : Bool

def fixedEffect {α : Type} (b : Buffer) (length : Nat) (r : Read α) : Effect :=
  ⟨r.buffer, r.examined, !testOffset b length⟩

/-- The bytes behind a pointer that is returned count as looked at. -/
def Call.effect (b : Buffer) : Call → Effect
  | .peek => fixedEffect b 1 (obPeek b)
  | .get => fixedEffect b 1 (obGet b)
  | .getBytes len => fixedEffect b len.toNat (obGetBytes b len.toNat)
  | .getBytesPtr len => fixedEffect b len.toNat (obGetBytesPtr b len.toNat)
  | .getStrPtr => ⟨(obGetStrPtr b).buffer, (obGetStrPtr b).examined, (obGetStrPtr b).value.isNone⟩
  | .getUi16 => fixedEffect b 2 (obGetUi16 b)
  | .getUi16Rv => fixedEffect b 2 (obGetUi16Rv b)
  | .getUi32 => fixedEffect b 4 (obGetUi32 b)
  | .getUi32Rv => fixedEffect b 4 (obGetUi32Rv b)
  | .getUi64 => fixedEffect b 8 (obGetUi64 b)
  | .getUi64Rv => fixedEffect b 8 (obGetUi64Rv b)
  | .getPackedUi32 => ⟨(obGetPackedUi32 b).buffer, (obGetPackedUi32 b).examined, false⟩
  | .getPackedUi64 => ⟨(obGetPackedUi64 b).buffer, (obGetPackedUi64 b).examined, false⟩

/-- The position is a `size_t`. -/
def Effect.wrap (e : Effect) : Effect :=
  { e with buffer := { e.buffer with position := e.buffer.position % (sizeMax + 1) } }

def Call.run (b : Buffer) (c : Call) : Effect := (c.effect b).wrap

/-- What a reader may do to a buffer. -/
structure StaysInside (b : Buffer) (e : Effect) : Prop where
  examined : ∀ i ∈ e.examined, i < b.limit
  position : e.buffer.position ≤ b.limit
  bytes : e.buffer.bytes = b.bytes
  sizeLimit : e.buffer.sizeLimit = b.sizeLimit
  failed : e.failed = true → e.buffer.position = b.position

namespace StaysInside

theorem limit (h : StaysInside b e) : e.buffer.limit = b.limit := by
  simp only [Buffer.limit, Buffer.allocSize, h.bytes, h.sizeLimit]

theorem unfailed (h : StaysInside b e) : StaysInside b ⟨e.buffer, e.examined, false⟩ :=
  ⟨h.examined, h.position, h.bytes, h.sizeLimit, fun hfail => nomatch hfail⟩

theorem sound (h : StaysInside b e) (hb : Sound b) : Sound e.buffer := by
  constructor
  · rw [Buffer.allocSize, h.bytes]
    exact hb.small
  rw [h.limit]
  exact h.position

end StaysInside

def AllInside : Buffer → List Call → Prop
  | _, [] => True
  | b, c :: rest => StaysInside b (c.run b) ∧ AllInside (c.run b).buffer rest

/-- The sum that is checked does not wrap, and a string ends before the limit. -/
def Checked (b : Buffer) : Call → Prop
  | .getBytes len => b.position + len.toNat ≤ sizeMax
  | .getBytesPtr len => b.position + len.toNat ≤ sizeMax
  | .getStrPtr => 0 ∈ ahead b
  | _ => True

def AllChecked : Buffer → List Call → Prop
  | _, [] => True
  | b, c :: rest => Checked b c ∧ AllChecked (c.run b).buffer rest

/-! ## One call -/

section Inside

variable (h : Sound b)

include h

theorem untouched_inside (failed : Bool) : StaysInside b ⟨b, [], failed⟩ := by
  constructor
  · intro i hi
    cases hi
  · exact h.inside
  · rfl
  · rfl
  intro _
  rfl

theorem checked_inside {α : Type} (hn : b.position + n ≤ sizeMax) (failed : α)
    (value : (Nat → UInt8) → α) : StaysInside b (fixedEffect b n (b.readFixed n failed value)) := by
  by_cases htest : testOffset b n = true
  · have hle := (testOffset_iff n hn).mp htest
    rw [Buffer.readFixed, if_pos htest]
    constructor
    · intro i hi
      have hrng := mem_range'_1.mp hi
      omega
    · exact hle
    · rfl
    · rfl
    intro hfail
    simp [fixedEffect, htest] at hfail
  rw [Buffer.readFixed, if_neg htest]
  exact untouched_inside h _

theorem wrap_inside (hin : StaysInside b e) : StaysInside b e.wrap := by
  have hpos : e.buffer.position % (sizeMax + 1) = e.buffer.position := by
    have hle := limit_le_allocSize b
    have hsm := h.small
    have hend := hin.position
    apply Nat.mod_eq_of_lt
    rw [sizeMax]
    omega
  exact { hin with
    position := Nat.le_trans (Nat.le_of_eq hpos) hin.position
    failed := fun hfail => hpos.trans (hin.failed hfail) }

/-- A sum that wraps passes the test, and the bytes that it stands for do not exist. -/
theorem unchecked_outside {α : Type} (hn : n ≤ sizeMax) (hwrap : sizeMax < b.position + n)
    (failed : α) (value : (Nat → UInt8) → α) :
    b.limit ∈ (fixedEffect b n (b.readFixed n failed value)).examined := by
  have hmod : (b.position + n) % (sizeMax + 1) = b.position + n - (sizeMax + 1) := by
    have hpos := Nat.le_trans h.inside (limit_le_allocSize b)
    have hsm := h.small
    rw [Nat.mod_eq_sub_mod hwrap]
    apply Nat.mod_eq_of_lt
    simp only [sizeMax] at *
    omega
  have hpos := Nat.le_min.mp h.inside
  have htest : testOffset b n = true := by
    simp only [testOffset, hmod, decide_eq_true_eq]
    omega
  rw [Buffer.readFixed, if_pos htest]
  refine mem_range'_1.mpr ⟨h.inside, Nat.lt_of_le_of_lt (limit_le_allocSize b) ?_⟩
  have halc := h.small
  rw [sizeMax] at hwrap
  omega

theorem fixed_inside_iff {α : Type} (len : UInt64) (failed : α) (value : (Nat → UInt8) → α) :
    StaysInside b (fixedEffect b len.toNat (b.readFixed len.toNat failed value)).wrap ↔
      b.position + len.toNat ≤ sizeMax := by
  constructor
  · intro hin
    by_contra hwrap
    have hlen : len.toNat ≤ sizeMax := Nat.le_of_lt_succ len.toNat_lt
    exact Nat.lt_irrefl _ (hin.examined _ (unchecked_outside h hlen (by omega) failed value))
  intro hn
  exact wrap_inside h (checked_inside h hn failed value)

theorem small_inside {α : Type} (n : Nat) (hn : n ≤ 8) (failed : α) (value : (Nat → UInt8) → α) :
    StaysInside b (fixedEffect b n (b.readFixed n failed value)) := by
  have hpos := Nat.le_trans h.inside (limit_le_allocSize b)
  have hsm := h.small
  apply checked_inside h
  simp only [sizeMax]
  omega

theorem peek_inside : StaysInside b (fixedEffect b 1 (obPeek b)) := by
  by_cases htest : testOffset b 1 = true
  · have hle := (h.testOffset_iff 1 (by decide)).mp htest
    rw [obPeek, if_pos htest]
    constructor
    · intro i hi
      have hi' : i = b.position := mem_singleton.mp hi
      omega
    · exact h.inside
    · rfl
    · rfl
    intro _
    rfl
  rw [obPeek, if_neg htest]
  exact untouched_inside h _

theorem Sound.testOffset_ahead (hofs : ofs ≤ (ahead b).length) : testOffset b ofs = true := by
  have hle := limit_le_allocSize b
  have hsm := h.small
  have hin := h.inside
  rw [ahead_length] at hofs
  rw [h.testOffset_iff ofs (by omega)]
  omega

omit h in
theorem byteAt_of_drop (h : (ahead b).drop ofs = x :: zs) :
    ofs < (ahead b).length ∧ b.byteAt (b.position + ofs) = x ∧ (ahead b).drop (ofs + 1) = zs := by
  have hofs : ofs < (ahead b).length := by
    by_contra hge
    rw [drop_of_length_le (by omega)] at h
    cases h
  rw [drop_eq_getElem_cons hofs, List.cons.injEq] at h
  refine ⟨hofs, ?_, h.2⟩
  rw [byteAt_ahead b ofs hofs, ← h.1, getD_eq_getElem?_getD, getElem?_eq_getElem hofs, Option.getD_some]

/-- A string that ends before the limit is scanned up to its end. -/
theorem scanStr_found (hzs : (ahead b).drop ofs = zs) (hps : zs.length < passes) (hmem : 0 ∈ zs) :
    ∃ k, (scanStr b passes ofs).1 = some k ∧ b.position + k < b.limit ∧
      ∀ i ∈ (scanStr b passes ofs).2, i < b.limit := by
  induction zs generalizing ofs passes with
  | nil => cases hmem
  | cons x zs ih =>
    obtain ⟨hofs, hbyte, hdrop⟩ := byteAt_of_drop hzs
    obtain ⟨passes, rfl⟩ := Nat.exists_eq_add_of_lt hps
    have hlt : b.position + ofs < b.limit := by
      rw [ahead_length] at hofs
      omega
    rw [scanStr, if_pos (h.testOffset_ahead (Nat.le_of_lt hofs)), hbyte]
    by_cases hx : x = 0
    · rw [if_pos hx]
      refine ⟨ofs, rfl, hlt, ?_⟩
      intro i hi
      rw [mem_singleton.mp hi]
      exact hlt
    rw [if_neg hx]
    have hrest : 0 ∈ zs := (mem_cons.mp hmem).resolve_left (Ne.symm hx)
    have hlen : zs.length < (x :: zs).length + passes := by
      rw [length_cons]
      omega
    obtain ⟨k, hk, hklt, hexa⟩ := ih hdrop hlen hrest
    refine ⟨k, hk, hklt, ?_⟩
    intro i hi
    cases hi with
    | head => exact hlt
    | tail _ hi => exact hexa i hi

/-- A string that does not end before the limit is scanned beyond it. -/
theorem scanStr_beyond (hofs : ofs ≤ (ahead b).length) (hzs : (ahead b).drop ofs = zs)
    (hps : zs.length < passes) (hmem : 0 ∉ zs) : b.limit ∈ (scanStr b passes ofs).2 := by
  induction zs generalizing ofs passes with
  | nil =>
    have hend : b.position + ofs = b.limit := by
      have hle := drop_eq_nil_iff.mp hzs
      have hin := h.inside
      rw [ahead_length] at hofs hle
      omega
    obtain ⟨passes, rfl⟩ := Nat.exists_eq_add_of_lt hps
    rw [scanStr, if_pos (h.testOffset_ahead hofs), hend]
    by_cases hbyte : b.byteAt b.limit = 0
    · simp [hbyte]
    · simp [hbyte]
  | cons x zs ih =>
    obtain ⟨hofs, hbyte, hdrop⟩ := byteAt_of_drop hzs
    obtain ⟨passes, rfl⟩ := Nat.exists_eq_add_of_lt hps
    have hx : ¬x = 0 := fun hx => hmem (hx ▸ mem_cons_self)
    rw [scanStr, if_pos (h.testOffset_ahead (Nat.le_of_lt hofs)), hbyte, if_neg hx]
    have hlen : zs.length < (x :: zs).length + passes := by
      rw [length_cons]
      omega
    apply mem_cons_of_mem
    exact ih hofs hdrop hlen (fun hrest => hmem (mem_cons_of_mem x hrest))

theorem str_inside_iff : StaysInside b (Call.run b .getStrPtr) ↔ 0 ∈ ahead b := by
  have hps : (ahead b).length < b.allocSize + 2 := by
    have hle := limit_le_allocSize b
    rw [ahead_length]
    omega
  constructor
  · intro hin
    by_contra hmem
    have hbey := scanStr_beyond h (Nat.zero_le _) drop_zero hps hmem
    have hexa : b.limit ∈ (obGetStrPtr b).examined := by
      rw [obGetStrPtr]
      split
      · next heq => rwa [heq] at hbey
      · next heq => rwa [heq] at hbey
    exact Nat.lt_irrefl _ (hin.examined _ hexa)
  intro hmem
  obtain ⟨k, hk, hlt, hexa⟩ := scanStr_found h drop_zero hps hmem
  have hread : obGetStrPtr b = ⟨some (slice b.bytes b.position k), b.advance (k + 1),
      (scanStr b (b.allocSize + 2) 0).2⟩ := by
    rw [obGetStrPtr]
    split
    · next heq =>
      rw [heq] at hk
      cases hk
      rw [heq]
    next heq =>
    rw [heq] at hk
    cases hk
  refine wrap_inside h ?_
  simp only [Call.effect, hread]
  constructor
  · exact hexa
  · exact hlt
  · rfl
  · rfl
  intro hfail
  cases hfail

omit h in
theorem unpackLoop_inside {α : Type} [OrOp α] (convert : UInt32 → α) (failed : α) (h : Sound b)
    (ps sh : Nat) (ret : Option α) :
    StaysInside b ⟨(unpackLoop convert failed ps b sh ret).buffer,
      (unpackLoop convert failed ps b sh ret).examined, false⟩ := by
  induction ps generalizing b sh ret with
  | zero => exact untouched_inside h false
  | succ ps ih =>
    have hget : StaysInside b (fixedEffect b 1 (obGet b)) := small_inside h 1 (by decide) _ _
    have hsnd : Sound (obGet b).buffer := hget.sound h
    rw [unpackLoop]
    cases hval : (obGet b).value with
    | none => exact hget.unfailed
    | some byte =>
      simp only
      split
      · have hrest := ih hsnd (sh + 7) (do
          let sum ← ret
          let bits ← shiftInt (byte &&& 0x7f) sh
          some (sum ||| convert bits))
        have hlim : (obGet b).buffer.limit = b.limit := hget.limit
        exact {
          examined := forall_mem_append.mpr ⟨hget.examined, hlim ▸ hrest.examined⟩
          position := hlim ▸ hrest.position
          bytes := hrest.bytes.trans hget.bytes
          sizeLimit := hrest.sizeLimit.trans hget.sizeLimit
          failed := nofun }
      · exact hget.unfailed

/-- A reader stays inside exactly if its check holds. -/
theorem call_inside_iff (c : Call) : StaysInside b (c.run b) ↔ Checked b c := by
  have hinside : ∀ {e : Effect}, StaysInside b e → (StaysInside b e.wrap ↔ True) :=
    fun hin => iff_of_true (wrap_inside h hin) trivial
  cases c with
  | peek => exact hinside (peek_inside h)
  | get => exact hinside (small_inside h 1 (by decide) _ _)
  | getBytes len | getBytesPtr len => exact fixed_inside_iff h len _ _
  | getStrPtr => exact str_inside_iff h
  | getUi16 | getUi16Rv => exact hinside (small_inside h 2 (by decide) _ _)
  | getUi32 | getUi32Rv => exact hinside (small_inside h 4 (by decide) _ _)
  | getUi64 | getUi64Rv => exact hinside (small_inside h 8 (by decide) _ _)
  | getPackedUi32 | getPackedUi64 => exact hinside (unpackLoop_inside _ _ h _ _ _)

end Inside

/-! ## Runs -/

/-- From a position that is not past the limit, the calls of a run look only at bytes
below the limit and keep the position there if and only if no checked sum wraps and
every string ends before the limit. -/
theorem reads_stay_inside_iff (b : Buffer) (calls : List Call) (h : Sound b) :
    AllInside b calls ↔ AllChecked b calls := by
  induction calls generalizing b with
  | nil => exact Iff.rfl
  | cons c rest ih =>
    constructor
    · intro ⟨hin, hrest⟩
      exact ⟨(call_inside_iff h c).mp hin, (ih _ (hin.sound h)).mp hrest⟩
    intro ⟨hche, hrest⟩
    have hin := (call_inside_iff h c).mpr hche
    exact ⟨hin, (ih _ (hin.sound h)).mpr hrest⟩

def unterminated : Buffer := ⟨[65, 66, 0], .static, 0, 0, 2⟩

theorem reads_stay_inside_two : AllInside unterminated [.getUi16, .get] :=
  (reads_stay_inside_iff unterminated [.getUi16, .get] ⟨by decide, by decide⟩).mpr
    ⟨trivial, trivial, trivial⟩

/-- The reader of strings looks at the byte behind the limit and moves past it. -/
theorem str_ptr_reads_beyond_limit :
    unterminated.position ≤ unterminated.limit ∧ unterminated.limit = 2 ∧
      (Call.run unterminated .getStrPtr).examined = [0, 1, 2] ∧
      (Call.run unterminated .getStrPtr).buffer.position = 3 ∧
      ¬AllInside unterminated [.getStrPtr] := by
  refine ⟨by decide, by decide, by decide, by decide, ?_⟩
  intro hin
  have hpos := hin.1.position
  revert hpos
  decide

end BufferReads
