import ServalDna.BufferReads
import ServalDna.VompCall

/-!
# The payload of a call's packet

Behind the header a packet lists codecs up to a zero, and then the two numbers as strings. A
first number that has no zero before the end of the packet takes the reader behind the end,
where `ob_remaining` fails its assertion.
-/
namespace VompPayload

open BufferReads hiding Call
open OverlayBuffer Option
open VompCall (Call Codecs Packet remaining setCodecFlag overruns callAsserts Env ringingOut)

/-- The payload of a packet fills its area. -/
structure Whole (b : Buffer) : Prop extends Sound b where
  full : b.sizeLimit = b.allocSize

namespace Whole

variable {b : Buffer}

theorem limit_eq (h : Whole b) : b.limit = b.allocSize := by
  rw [Buffer.limit, h.full, Nat.min_self]

theorem remaining_eq (h : Whole b) : remaining b = (ahead b).length := by
  have hin := h.inside
  have hsm := h.small
  rw [h.limit_eq] at hin
  rw [remaining, obRemaining, if_pos ⟨by rw [h.full, sizeMax]; omega, by rw [h.full]; exact hin⟩,
    ahead_length, h.limit_eq, h.full]
  rfl

theorem read (h : Whole b) (hin : StaysInside b e) : Whole e.buffer :=
  ⟨hin.sound h.toSound, by rw [hin.sizeLimit, h.full, Buffer.allocSize, Buffer.allocSize, hin.bytes]⟩

theorem get (h : Whole b) : Whole (obGet b).buffer :=
  h.read (e := fixedEffect b 1 (obGet b)) (small_inside h.toSound 1 (by decide) _ _)

theorem word (h : Whole b) : Whole (obGetUi16 b).buffer :=
  h.read (e := fixedEffect b 2 (obGetUi16 b)) (small_inside h.toSound 2 (by decide) _ _)

theorem header (p : Packet) : Whole p.header.rest := by
  have hst : Whole p.buffer := ⟨⟨p.short, Nat.zero_le _⟩, rfl⟩
  simp only [Packet.header]
  exact hst.get.word.word.get

/-- The loop stops behind the first zero, or at the end. -/
theorem extractCodecs (h : Whole b) (flags : Codecs) (hleft : (ahead b).length ≤ left) :
    Whole (VompCall.extractCodecs left flags b).2 ∧
      ahead (VompCall.extractCodecs left flags b).2 = ((ahead b).dropWhile (· != 0)).tail := by
  induction left generalizing b flags with
  | zero =>
    rw [VompCall.extractCodecs, List.length_eq_zero_iff.mp (Nat.le_zero.mp hleft)]
    exact ⟨h, rfl⟩
  | succ left ih =>
    rw [VompCall.extractCodecs, h.remaining_eq]
    cases hahead : ahead b with
    | nil => simpa using ⟨h, hahead⟩
    | cons x rest =>
      have hget : obGet b = ⟨some x, b.advance 1, [b.position]⟩ := Holds.obGet ⟨h.toSound, hahead⟩
      have hnext := h.get
      have hrest : ahead (b.advance 1) = rest := by rw [ahead_advance, hahead]; rfl
      rw [hget] at hnext ⊢
      rw [hahead] at hleft
      by_cases hx : x = 0
      · simpa [hx] using ⟨hnext, hrest⟩
      · have hlater := ih hnext (setCodecFlag x flags) (by rw [hrest]; simpa using hleft)
        simpa [hx, hrest] using hlater

/-- A string that has no zero before the end is found to end behind it. -/
theorem scanStr (h : Whole b) (hofs : ofs ≤ (ahead b).length) (hzs : (ahead b).drop ofs = zs)
    (hps : zs.length < passes) :
    (scanStr b passes ofs).1 = some (ofs + (zs.takeWhile (· != 0)).length) := by
  induction zs generalizing ofs passes with
  | nil =>
    obtain ⟨passes, rfl⟩ := Nat.exists_eq_add_of_lt hps
    have hend : b.bytes.length ≤ b.position + ofs := by
      have hle := List.drop_eq_nil_iff.mp hzs
      rw [ahead_length, h.limit_eq, Buffer.allocSize] at hle
      omega
    rw [OverlayBuffer.scanStr, if_pos (h.toSound.testOffset_ahead hofs), if_pos]
    · rfl
    · rw [Buffer.byteAt, List.getD_eq_getElem?_getD, List.getElem?_eq_none hend, getD_none]
  | cons x zs ih =>
    obtain ⟨hlt, hbyte, hdrop⟩ := byteAt_of_drop hzs
    obtain ⟨passes, rfl⟩ := Nat.exists_eq_add_of_lt hps
    rw [OverlayBuffer.scanStr, if_pos (h.toSound.testOffset_ahead hofs), hbyte]
    by_cases hx : x = 0
    · simp [hx]
    · have hlen : zs.length < (x :: zs).length + passes := by
        rw [List.length_cons]
        omega
      have hrest := ih hlt hdrop hlen
      rw [if_neg hx, hrest, List.takeWhile_cons_of_pos (by simpa using hx), List.length_cons,
        Nat.succ_add_eq_add_succ]

theorem overruns_iff (h : Whole b) (call : Call) : overruns b call = true ↔
    call.initiatedCall = false ∧ ((ahead b).dropWhile (· != 0)).tail ≠ [] ∧
      0 ∉ ((ahead b).dropWhile (· != 0)).tail := by
  obtain ⟨hcods, hahead⟩ := h.extractCodecs call.remoteCodecFlags h.remaining_eq.ge
  rw [overruns, ← hahead]
  generalize (VompCall.extractCodecs _ _ b).2 = b at hcods ⊢
  have hps : (ahead b).length < b.allocSize + 2 := by
    rw [ahead_length, hcods.limit_eq]
    omega
  have hscan := hcods.scanStr (Nat.zero_le _) List.drop_zero hps
  generalize hk : (ahead b).takeWhile (· != 0) = str at hscan
  have hmem : (ahead b).length ≤ str.length ↔ 0 ∉ ahead b := by
    have hself := List.takeWhile_eq_self_iff (p := (· != 0)) (l := ahead b)
    have hpre := hk ▸ List.takeWhile_prefix (· != 0) (l := ahead b)
    have hall : (∀ x ∈ ahead b, (x != 0) = true) ↔ 0 ∉ ahead b := by
      simp only [bne_iff_ne, ne_eq]
      exact ⟨fun h hmem => h 0 hmem rfl, fun h x hx heq => h (heq ▸ hx)⟩
    rw [← hall, ← hself, hk]
    exact ⟨hpre.eq_of_length_le, fun h => h ▸ le_rfl⟩
  have hread : (obGetStrPtr b).value.isSome = true ∧ (obGetStrPtr b).buffer = b.advance (str.length + 1) := by
    rw [Nat.zero_add] at hscan
    rw [obGetStrPtr]
    split <;> rename_i heq <;> rw [heq] at hscan <;> cases hscan
    exact ⟨rfl, rfl⟩
  have hin := hcods.inside
  have hsm := hcods.small
  have hlen := ahead_length b
  rw [hcods.limit_eq] at hin hlen
  have hnone : (obRemaining (b.advance (str.length + 1))).isNone = true ↔ 0 ∉ ahead b := by
    rw [← hmem, hlen, obRemaining, sizeMax]
    simp [Buffer.advance, hcods.full, Buffer.allocSize] at hsm hin ⊢
    omega
  rw [hread.1, hread.2, hcods.remaining_eq]
  simp only [Bool.and_eq_true, Bool.not_eq_true', bne_iff_ne, ne_eq, List.length_eq_zero_iff, hnone,
    and_true, and_assoc]

end Whole

/-- The bytes of the two numbers, behind the codecs. -/
def numbers (p : Packet) : List UInt8 := ((ahead p.header.rest).dropWhile (· != 0)).tail

/-- A first number that does not end. -/
def Unended (p : Packet) : Prop := numbers p ≠ [] ∧ 0 ∉ numbers p

/-- A packet for a call that is being set up, in which the first number does not end. -/
def Asserts (env : Env) (p : Packet) (call : Call) : Prop :=
  env.interested ∧ call.localHalf.state < ringingOut ∧
    max p.header.senderState call.remoteHalf.state < ringingOut ∧ call.initiatedCall = false ∧ Unended p

instance (p : Packet) : Decidable (Unended p) := inferInstanceAs (Decidable (_ ∧ _))

instance (env : Env) (p : Packet) (call : Call) : Decidable (Asserts env p call) :=
  inferInstanceAs (Decidable (_ ∧ _))

theorem callAsserts_iff (env : Env) (p : Packet) (call : Call) :
    callAsserts env p.header.rest p.header.senderState call = true ↔ Asserts env p call := by
  simp only [callAsserts, Bool.and_eq_true, decide_eq_true_eq, and_assoc, Asserts, Unended, numbers,
    (Whole.header p).overruns_iff]

end VompPayload
