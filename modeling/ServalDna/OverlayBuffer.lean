import ServalDna.ListSlice

/-!
# Overlay buffers

A buffer is an area of memory with a position and an upper limit. Writers append
at the position and let the area grow when it is their own; a writer that has no
room moves the position all the same, so that the overrun shows at the end.
Readers look at the bytes between the position and the limit.
-/
namespace OverlayBuffer

open ListSlice

/-- `SIZE_MAX`; sums of sizes are taken modulo `sizeMax + 1`. -/
def sizeMax : Nat := 2 ^ 64 - 1

/-- Whose memory `bytes` points to: no one's yet, the buffer's own, or another's. -/
inductive Memory where
  | null | allocated | static
  deriving DecidableEq, Repr

/-- `struct overlay_buffer`; `allocSize` is the length of `bytes`. -/
structure Buffer where
  bytes : List UInt8
  memory : Memory
  checkpointLength : Nat
  position : Nat
  sizeLimit : Nat
  deriving DecidableEq, Repr

def Buffer.allocSize (b : Buffer) : Nat := b.bytes.length

def Buffer.limit (b : Buffer) : Nat := min b.sizeLimit b.allocSize

/-- A run of readers takes the new position modulo `sizeMax + 1`. -/
def Buffer.advance (b : Buffer) (n : Nat) : Buffer := { b with position := b.position + n }

def obNew : Buffer := ⟨[], .null, 0, 0, sizeMax⟩

def obStatic (bytes : List UInt8) : Buffer := ⟨bytes, .static, 0, 0, sizeMax⟩

/-- A part of the area of `b` as a buffer of its own. -/
def obSlice (b : Buffer) (offset length : Nat) : Option Buffer :=
  if offset + length > b.allocSize then none else some (obStatic (slice b.bytes offset length))

def obCheckpoint (b : Buffer) : Buffer := { b with checkpointLength := b.position }

def obRewind (b : Buffer) : Buffer := { b with position := b.checkpointLength }

/-- `none` is a failed assertion. -/
def obLimitsize (b : Buffer) (bytes : Nat) : Option Buffer :=
  if bytes ≠ sizeMax ∧ b.position ≤ bytes ∧ b.checkpointLength ≤ bytes ∧
      (b.memory = .static → bytes ≤ b.allocSize) then
    some { b with sizeLimit := bytes }
  else none

/-- `none` is a failed assertion. -/
def obFlip (b : Buffer) : Option Buffer :=
  (obLimitsize { b with checkpointLength := 0 } b.position).map fun b => { b with position := 0 }

def obPosition (b : Buffer) : Nat := b.position

/-- `none` is a failed assertion. -/
def obRemaining (b : Buffer) : Option Nat :=
  if b.sizeLimit ≠ sizeMax ∧ b.position ≤ b.sizeLimit then some (b.sizeLimit - b.position) else none

def obOverrun (b : Buffer) : Bool :=
  b.position > if b.sizeLimit ≠ sizeMax ∧ b.sizeLimit < b.allocSize then b.sizeLimit else b.allocSize

/-! ## Writers -/

def roundUp (unit n : Nat) : Nat := if n % unit ≠ 0 then n + (unit - n % unit) else n

/-- The size of a new area that has to hold `n` bytes. -/
def newSize (n : Nat) : Nat :=
  let n := roundUp 64 (max n 64)
  let n := if n > 1024 then roundUp 1024 n else n
  if n > 65536 then roundUp 65536 n else n

/-- `none` is a failed assertion. What `emalloc` leaves in a new area is never read
before it is written, and stands here as zeros. -/
def obMakespace (b : Buffer) (bytes : Nat) : Option (Bool × Buffer) :=
  if b.position ≠ 0 ∧ b.memory = .null then none
  else if b.position + bytes > b.sizeLimit then some (false, b)
  else if b.position + bytes ≤ b.allocSize then some (true, b)
  else if b.memory = .static then some (false, b)
  else some (true, { b with
    bytes := b.bytes.take b.position ++ List.replicate (newSize (b.position + bytes) - b.position) 0
    memory := .allocated })

/-- What all writers do with the bytes `xs` of their value. -/
def Buffer.append (b : Buffer) (xs : List UInt8) : Option Buffer :=
  match obMakespace b xs.length with
  | none => none
  | some (true, b) => some { b with
      bytes := overwrite b.bytes b.position xs, position := b.position + xs.length }
  | some (false, b) => some (b.advance xs.length)

def obAppendByte (b : Buffer) (byte : UInt8) : Option Buffer := b.append [byte]

/-- `none` is a failed assertion: the byte string must not be empty. -/
def obAppendBytes (b : Buffer) (bytes : List UInt8) : Option Buffer :=
  if bytes = [] then none else b.append bytes

/-- `str` is the string without its terminating zero. -/
def obAppendStr (b : Buffer) (str : List UInt8) : Option Buffer := obAppendBytes b (str ++ [0])

def obAppendUi16 (b : Buffer) (v : UInt16) : Option Buffer := b.append [(v >>> 8).toUInt8, v.toUInt8]

def obAppendUi16Rv (b : Buffer) (v : UInt16) : Option Buffer := b.append [v.toUInt8, (v >>> 8).toUInt8]

def obAppendUi32 (b : Buffer) (v : UInt32) : Option Buffer :=
  b.append [(v >>> 24).toUInt8, (v >>> 16).toUInt8, (v >>> 8).toUInt8, v.toUInt8]

def obAppendUi32Rv (b : Buffer) (v : UInt32) : Option Buffer :=
  b.append [v.toUInt8, (v >>> 8).toUInt8, (v >>> 16).toUInt8, (v >>> 24).toUInt8]

def obAppendUi64 (b : Buffer) (v : UInt64) : Option Buffer :=
  b.append [(v >>> 56).toUInt8, (v >>> 48).toUInt8, (v >>> 40).toUInt8, (v >>> 32).toUInt8,
    (v >>> 24).toUInt8, (v >>> 16).toUInt8, (v >>> 8).toUInt8, v.toUInt8]

def obAppendUi64Rv (b : Buffer) (v : UInt64) : Option Buffer :=
  b.append [v.toUInt8, (v >>> 8).toUInt8, (v >>> 16).toUInt8, (v >>> 24).toUInt8,
    (v >>> 32).toUInt8, (v >>> 40).toUInt8, (v >>> 48).toUInt8, (v >>> 56).toUInt8]

theorem shiftRight_lt (v : UInt64) (h : v >>> 7 ≠ 0) : (v >>> 7).toNat < v.toNat := by
  have hne : (v >>> 7).toNat ≠ 0 := fun h0 => h (UInt64.toNat_inj.mp h0)
  have heq : (v >>> 7).toNat = v.toNat / 128 := by simp [Nat.shiftRight_eq_div_pow]
  omega

/-- Seven bits in each byte, the lowest first; the top bit tells that more follow. -/
def obAppendPackedUi64 (b : Buffer) (v : UInt64) : Option Buffer :=
  match obAppendByte b ((v &&& 0x7f) ||| (if v > 0x7f then 0x80 else 0)).toUInt8 with
  | none => none
  | some b => if v >>> 7 ≠ 0 then obAppendPackedUi64 b (v >>> 7) else some b
termination_by v.toNat
decreasing_by exact shiftRight_lt v ‹_›

/-- The loop is the one of `ob_append_packed_ui64`, on a shorter number. -/
def obAppendPackedUi32 (b : Buffer) (v : UInt32) : Option Buffer := obAppendPackedUi64 b v.toUInt64

/-! ## Readers -/

/-- What a reader returns, the buffer after it, and the indices it has looked at. -/
structure Read (α : Type) where
  value : α
  buffer : Buffer
  examined : List Nat
  deriving DecidableEq, Repr

/-- Tells whether `length` bytes from the position on may be read. -/
def testOffset (b : Buffer) (length : Nat) : Bool :=
  (b.position + length) % (sizeMax + 1) ≤ b.sizeLimit ∧
    (b.position + length) % (sizeMax + 1) ≤ b.allocSize

/-- A byte outside of the area is taken as zero. -/
def Buffer.byteAt (b : Buffer) (i : Nat) : UInt8 := b.bytes.getD i 0

/-- What all readers of a known length do: `value` is made of the bytes from the
position on, and `failed` is returned when there are not enough. -/
def Buffer.readFixed {α : Type} (b : Buffer) (length : Nat) (failed : α)
    (value : (Nat → UInt8) → α) : Read α :=
  if testOffset b length then
    ⟨value fun i => b.byteAt (b.position + i), b.advance length, List.range' b.position length⟩
  else ⟨failed, b, []⟩

/-- `none` is the return value -1. -/
def obPeek (b : Buffer) : Read (Option UInt8) :=
  if testOffset b 1 then ⟨some (b.byteAt b.position), b, [b.position]⟩ else ⟨none, b, []⟩

/-- `none` is the return value -1. -/
def obGet (b : Buffer) : Read (Option UInt8) := b.readFixed 1 none fun byte => some (byte 0)

/-- `none` is the return value -1. -/
def obGetBytes (b : Buffer) (len : Nat) : Read (Option (List UInt8)) :=
  b.readFixed len none fun byte => some ((List.range len).map byte)

/-- `none` is a null pointer; otherwise the bytes that the pointer gives access to. -/
def obGetBytesPtr (b : Buffer) (len : Nat) : Read (Option (List UInt8)) :=
  b.readFixed len none fun byte => some ((List.range len).map byte)

/-- The loop of `ob_get_str_ptr` with at most `passes` passes left: the offset of
the terminating zero, and the indices looked at. -/
def scanStr (b : Buffer) : Nat → Nat → Option Nat × List Nat
  | 0, _ => (none, [])
  | passes + 1, ofs =>
    if testOffset b ofs then
      if b.byteAt (b.position + ofs) = 0 then (some ofs, [b.position + ofs])
      else
        let r := scanStr b passes (ofs + 1)
        (r.1, (b.position + ofs) :: r.2)
    else (none, [])

/-- `none` is a null pointer. An offset that passes the test is at most `allocSize`,
so the passes suffice. -/
def obGetStrPtr (b : Buffer) : Read (Option (List UInt8)) :=
  match scanStr b (b.allocSize + 2) 0 with
  | (some ofs, examined) => ⟨some (slice b.bytes b.position ofs), b.advance (ofs + 1), examined⟩
  | (none, examined) => ⟨none, b, examined⟩

def obGetUi16 (b : Buffer) : Read UInt16 :=
  b.readFixed 2 0xFFFF fun byte => (byte 0).toUInt16 <<< 8 ||| (byte 1).toUInt16

def obGetUi16Rv (b : Buffer) : Read UInt16 :=
  b.readFixed 2 0xFFFF fun byte => (byte 0).toUInt16 ||| (byte 1).toUInt16 <<< 8

def obGetUi32 (b : Buffer) : Read UInt32 :=
  b.readFixed 4 0xFFFFFFFF fun byte =>
    (byte 0).toUInt32 <<< 24 ||| (byte 1).toUInt32 <<< 16 ||| (byte 2).toUInt32 <<< 8 |||
      (byte 3).toUInt32

def obGetUi32Rv (b : Buffer) : Read UInt32 :=
  b.readFixed 4 0xFFFFFFFF fun byte =>
    (byte 0).toUInt32 ||| (byte 1).toUInt32 <<< 8 ||| (byte 2).toUInt32 <<< 16 |||
      (byte 3).toUInt32 <<< 24

/-- An `int` with these bits, converted to `uint64_t`. -/
def intToUi64 (x : UInt32) : UInt64 :=
  if x ≥ 0x80000000 then 0xFFFFFFFF00000000 ||| x.toUInt64 else x.toUInt64

/-- The bytes 4 to 7 are shifted as values of type `int`, and byte 3 by 36 bits. -/
def obGetUi64 (b : Buffer) : Read UInt64 :=
  b.readFixed 8 0xFFFFFFFF fun byte =>
    (byte 0).toUInt64 <<< 56 ||| (byte 1).toUInt64 <<< 48 ||| (byte 2).toUInt64 <<< 40 |||
      (byte 3).toUInt64 <<< 36 ||| intToUi64 ((byte 4).toUInt32 <<< 24) |||
      intToUi64 ((byte 5).toUInt32 <<< 16) ||| intToUi64 ((byte 6).toUInt32 <<< 8) |||
      intToUi64 (byte 7).toUInt32

def obGetUi64Rv (b : Buffer) : Read UInt64 :=
  b.readFixed 8 0xFFFFFFFF fun byte =>
    (byte 0).toUInt64 ||| (byte 1).toUInt64 <<< 8 ||| (byte 2).toUInt64 <<< 16 |||
      (byte 3).toUInt64 <<< 24 ||| (byte 4).toUInt64 <<< 32 ||| (byte 5).toUInt64 <<< 40 |||
      (byte 6).toUInt64 <<< 48 ||| (byte 7).toUInt64 <<< 56

/-- A byte shifted as an `int`, which wraps at 32 bits; there is no result for a
shift by 32 or more. -/
def shiftInt (byte : UInt8) (shift : Nat) : Option UInt32 :=
  if shift < 32 then some (byte.toUInt32 <<< UInt32.ofNat shift) else none

/-- The loop of the packed readers with at most `passes` passes left. `convert` takes
an `int` to the type of the result, and a value of `none` is undetermined. -/
def unpackLoop {α : Type} [OrOp α] (convert : UInt32 → α) (failed : α) :
    Nat → Buffer → Nat → Option α → Read (Option α)
  | 0, b, _, _ => ⟨none, b, []⟩
  | passes + 1, b, shift, ret =>
    let got := obGet b
    match got.value with
    | none => ⟨some failed, got.buffer, got.examined⟩
    | some byte =>
      let ret := do
        let sum ← ret
        let bits ← shiftInt (byte &&& 0x7f) shift
        some (sum ||| convert bits)
      if byte &&& 0x80 ≠ 0 then
        let rest := unpackLoop convert failed passes got.buffer (shift + 7) ret
        ⟨rest.value, rest.buffer, got.examined ++ rest.examined⟩
      else ⟨ret, got.buffer, got.examined⟩

def obGetPackedUi32 (b : Buffer) : Read (Option UInt32) :=
  unpackLoop id 0xFFFFFFFF (b.allocSize + 1) b 0 (some 0)

def obGetPackedUi64 (b : Buffer) : Read (Option UInt64) :=
  unpackLoop intToUi64 0xFFFFFFFFFFFFFFFF (b.allocSize + 1) b 0 (some 0)

end OverlayBuffer
