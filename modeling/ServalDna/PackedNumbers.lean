import ServalDna.ThreadComplete

/-!
# Packed numbers

`pack_uint` puts seven bits of a number into each byte. `unpack_uint` takes bytes up to the
first one with a clear top bit. It shifts each of them as an `int`, so that a number from
2^31 on does not come back, and a sixth byte is shifted by more bits than an `int` has.
-/
namespace PackedNumbers

open OverlayBuffer BufferCodec MeshmsThread ThreadComplete List

def measurePackedUint (v : UInt64) : Nat :=
  if v >>> 7 ≠ 0 then measurePackedUint (v >>> 7) + 1 else 1
termination_by v.toNat
decreasing_by exact shiftRight_lt v ‹_›

theorem measure_eq (v : UInt64) : measurePackedUint v = (packed v).length := by
  induction v using packed.induct with
  | case1 v ih =>
    rw [measurePackedUint, packed, length_cons]
    split
    · next hmore => rw [ih hmore]
    · rfl

def shifted (i : Nat) (v : Option UInt64) (byte : UInt8) : Option UInt64 := do
  let sum ← v
  let bits ← shiftInt (byte &&& 0x7f) (i * 7)
  some (sum ||| intToUi64 bits)

theorem shifted_isSome : (shifted i v byte).isSome ↔ v.isSome ∧ i * 7 < 32 := by
  cases v with
  | none => simp [shifted]
  | some sum => by_cases h : i * 7 < 32 <;> simp [shifted, shiftInt, h]

theorem packUint_toNat (v : UInt64) : packUint v.toNat = packed v := by
  have hv : UInt64.ofInt v.toNat = v := by
    apply UInt64.toNat_inj.mp
    have hlt := v.toNat_lt
    simp [UInt64.ofInt]
    omega
  rw [packUint, hv]

/-- The bytes behind the first one with a clear top bit are not looked at. -/
theorem unpackLoop_stops (hmore : ∀ byte ∈ init, byte &&& 0x80 ≠ 0) (hlast : last &&& 0x80 = 0)
    (i : Nat) (v : Option UInt64) :
    ∃ o : Option UInt64, (o.isSome ↔ v.isSome ∧ (i + init.length) * 7 < 32) ∧ ∀ rest,
      MeshmsThread.unpackLoop i v (init ++ last :: rest) =
        o.elim .undetermined (.value (i + init.length + 1)) := by
  induction init generalizing i v with
  | nil =>
    refine ⟨shifted i v last, shifted_isSome, fun rest => ?_⟩
    rw [nil_append, MeshmsThread.unpackLoop, if_neg (not_not.mpr hlast)]
    cases hsum : shifted i v last <;> rw [shifted] at hsum <;> simp only [hsum] <;> rfl
  | cons byte init ih =>
    obtain ⟨htop, hmore⟩ := forall_mem_cons.mp hmore
    obtain ⟨o, hsome, hloop⟩ := ih hmore (i + 1) (shifted i v byte)
    refine ⟨o, ?_, fun rest => ?_⟩
    · rw [hsome, shifted_isSome, length_cons, and_assoc]
      refine and_congr_right fun _ => ?_
      omega
    rw [cons_append, MeshmsThread.unpackLoop, if_pos htop, length_cons, add_comm init.length,
      ← add_assoc]
    exact hloop rest

/-- The loop fails exactly if no byte ends the number. -/
theorem unpackLoop_failed (i : Nat) (v : Option UInt64) (bytes : List UInt8) :
    MeshmsThread.unpackLoop i v bytes = .failed ↔ ∀ byte ∈ bytes, byte &&& 0x80 ≠ 0 := by
  induction bytes generalizing i v with
  | nil => simp [MeshmsThread.unpackLoop]
  | cons byte bytes ih =>
    rw [MeshmsThread.unpackLoop, forall_mem_cons]
    split
    · next htop => simp only [ih, htop, not_false_eq_true, true_and, ne_eq]
    next htop =>
    refine iff_of_false ?_ fun h => htop h.1
    split <;> simp

/-- Which numbers come back, and which byte strings are read to their end. -/
theorem packed_codec_iff (v : UInt64) (rest buffer : List UInt8) :
    ((packUint v.toNat).length = measurePackedUint v ∧ measurePackedUint v ≤ 10) ∧
    (unpackUint (packUint v.toNat ++ rest) = .value (measurePackedUint v) v ↔ v.toNat < 2 ^ 31) ∧
    (unpackUint buffer = .failed ↔ ∀ byte ∈ buffer, byte &&& 0x80 ≠ 0) ∧
    ∀ init last, (∀ byte ∈ init, byte &&& 0x80 ≠ 0) → last &&& 0x80 = 0 →
      ((∃ x, ∀ rest, unpackUint (init ++ last :: rest) = .value (init.length + 1) x) ↔
        init.length < 5) := by
  refine ⟨?_, ?_, unpackLoop_failed 0 _ _, fun init last hmore hlast => ?_⟩
  · rw [packUint_toNat, measure_eq]
    exact ⟨rfl, packed_length v (lt_trans v.toNat_lt (by decide))⟩
  · rw [packUint_toNat, measure_eq, unpackUint, ThreadComplete.unpackLoop_packed, zero_mul,
      zero_add, ← unpacked_ui64_iff]
    cases unpacked intToUi64 v 0 (some 0) <;> simp
  obtain ⟨o, hsome, hloop⟩ := unpackLoop_stops hmore hlast 0 (some 0)
  simp only [unpackUint, hloop]
  cases o with
  | none | some x =>
    simp at hsome ⊢
    omega

/-- The number 2^31 comes back with its upper half set, and six bytes leave no number. -/
theorem packed_codec_fails : unpackUint (packUint (2 ^ 31)) = .value 5 0xFFFFFFFF80000000 ∧
    unpackUint [128, 128, 128, 128, 128, 0] = .undetermined := by
  have hpac : packUint (2 ^ 31) = packed 0x80000000 := rfl
  rw [hpac, packed, packed, packed, packed, packed]
  decide

end PackedNumbers
