import ServalDna.ByteNumber
import Mathlib.Data.List.Range

/-!
# Nonces of encrypted MDP frames

`generate_nonce` keeps a 128-byte little-endian counter and hands out its first
bytes; `encrypt_payload` clears the top bit of the first byte before it boxes
the payload. The first byte is the least significant one, so the cleared bit is
bit 7 of the counter: two nonces that are 128 calls apart differ in that bit
only, unless the addition carried out of the first byte.
-/
namespace MdpNonce

open ByteNumber List

def zeroBytes : Nat := 32
def nonceBytes : Nat := 24
def boxZeroBytes : Nat := 16

/-- `nonce_buffer`, always 128 bytes long. -/
structure NonceBuffer where
  bytes : List UInt8
  length_eq : bytes.length = 128

/-- The increment loop of `generate_nonce`: it stops at the first byte that
does not become zero. -/
def increment : List UInt8 → List UInt8
  | [] => []
  | b :: rest => if b + 1 ≠ 0 then (b + 1) :: rest else (b + 1) :: increment rest

theorem increment_eq_addCarry : increment bytes = addCarry bytes 1 := by
  induction bytes with
  | nil => rfl
  | cons b rest ih =>
    have hb := b.toNat_lt
    have hbyte : UInt8.ofNat (b.toNat + 1 % 256) = b + 1 := by
      apply UInt8.toNat_inj.mp
      simp
    by_cases h : b + 1 = 0
    · have hc : (b.toNat + 1 % 256) / 256 = 1 := by
        have := congrArg UInt8.toNat h
        simp only [UInt8.toNat_add, UInt8.toNat_one, UInt8.toNat_zero] at this
        omega
      rw [increment, if_neg (by simpa using h), addCarry, if_neg (by decide), hbyte, hc, ih]
    have hc : (b.toNat + 1 % 256) / 256 = 0 := by
      have : (b + 1).toNat ≠ 0 := fun h0 => h (UInt8.toNat_inj.mp h0)
      simp only [UInt8.toNat_add, UInt8.toNat_one] at this
      omega
    rw [increment, if_pos h, addCarry, if_neg (by decide), hbyte, hc]
    simp

def NonceBuffer.incremented (b : NonceBuffer) : NonceBuffer :=
  ⟨increment b.bytes, by rw [increment_eq_addCarry, addCarry_length, b.length_eq]⟩

/-- `nonce_initialised` and `nonce_buffer`. -/
structure NonceState where
  initialised : Bool
  buffer : NonceBuffer

/-- The statics of `overlay_mdp.c` when the daemon starts. -/
def NonceState.start : NonceState := ⟨false, ⟨List.replicate 128 0, by simp⟩⟩

/-- `none` stands for the return value -1. `urandombytes` is what the random
source gives to the first call. -/
def generateNonce (urandombytes : Option NonceBuffer) (bytes : Nat) (s : NonceState) :
    Option (List UInt8) × NonceState :=
  if bytes < 1 ∨ bytes > 128 then (none, s)
  else
    match if s.initialised then some s.buffer else urandombytes with
    | none => (none, s)
    | some buffer => (some (buffer.incremented.bytes.take bytes), ⟨true, buffer.incremented⟩)

/-- `nonce[0] &= 0x7f`. -/
def maskFirst : List UInt8 → List UInt8
  | [] => []
  | b :: rest => (b &&& 0x7f) :: rest

/-- What `encrypt_payload` takes from outside: the random source, the keyring
and the box function, each of which may fail. -/
structure Environment (Sid Key : Type) where
  urandombytes : Option NonceBuffer
  keyringGetNmBytes : Sid → Sid → Option Key
  cryptoBoxAfternm : List UInt8 → List UInt8 → Key → Option (List UInt8)

structure Request (Sid : Type) where
  source : Sid
  dest : Sid
  buffer : List UInt8
  /-- `ob_new` and `ob_append_space` give memory. -/
  obSpace : Bool

/-- The nonce and key given to the box function, if the call got that far, and
the frame returned to the caller. -/
structure Outcome (Key : Type) where
  boxed : Option (List UInt8 × Key)
  frame : Option (List UInt8)

variable {Sid Key : Type}

def encryptPayload (env : Environment Sid Key) (r : Request Sid) (s : NonceState) :
    Outcome Key × NonceState :=
  let plain := List.replicate zeroBytes 0 ++ r.buffer
  if r.obSpace = false then (⟨none, none⟩, s)
  else
    match generateNonce env.urandombytes nonceBytes s with
    | (none, s') => (⟨none, none⟩, s')
    | (some nonce, s') =>
      match env.keyringGetNmBytes r.source r.dest with
      | none => (⟨none, none⟩, s')
      | some k =>
        match env.cryptoBoxAfternm plain (maskFirst nonce) k with
        | none => (⟨some (maskFirst nonce, k), none⟩, s')
        | some cipherText =>
          (⟨some (maskFirst nonce, k), some (maskFirst nonce ++ cipherText.drop boxZeroBytes)⟩, s')

def encryptAll (env : Environment Sid Key) : NonceState → List (Request Sid) → List (Outcome Key)
  | _, [] => []
  | s, r :: rest => (encryptPayload env r s).1 :: encryptAll env (encryptPayload env r s).2 rest

def passedNonces (outcomes : List (Outcome Key)) : List (List UInt8) :=
  outcomes.filterMap (fun o => o.boxed.map Prod.fst)

/-- Every call returned a frame. -/
def AllSucceed (outcomes : List (Outcome Key)) : Prop := ∀ o ∈ outcomes, o.frame.isSome

instance (outcomes : List (Outcome Key)) : Decidable (AllSucceed outcomes) :=
  inferInstanceAs (Decidable (∀ o ∈ outcomes, o.frame.isSome))

def nextBuffer (env : Environment Sid Key) (s : NonceState) : Option NonceBuffer :=
  if s.initialised then some s.buffer else env.urandombytes

theorem incremented_take (b : NonceBuffer) (n : Nat) :
    b.incremented.bytes.take n = addCarry (b.bytes.take n) 1 := by
  rw [← take_addCarry, ← increment_eq_addCarry]
  rfl

variable (env : Environment Sid Key)

theorem generateNonce_next (hb : nextBuffer env s = some b) :
    generateNonce env.urandombytes nonceBytes s =
      (some (addCarry (b.bytes.take nonceBytes) 1), ⟨true, b.incremented⟩) := by
  rw [← incremented_take]
  unfold nextBuffer at hb
  simp [generateNonce, nonceBytes, hb]

/-- A successful call boxes under the masked first bytes of the incremented
counter and leaves the incremented counter to the next call. -/
theorem encryptPayload_success (r : Request Sid) (b : NonceBuffer) (hb : nextBuffer env s = some b)
    (h : (encryptPayload env r s).1.frame.isSome) :
    (encryptPayload env r s).1.boxed.map Prod.fst =
        some (maskFirst (addCarry (b.bytes.take nonceBytes) 1)) ∧
      nextBuffer env (encryptPayload env r s).2 = some b.incremented := by
  have hgen := generateNonce_next env hb
  unfold encryptPayload at h ⊢
  by_cases hs : r.obSpace = false
  · simp [hs] at h
  simp only [hs, hgen] at h ⊢
  cases hk : env.keyringGetNmBytes r.source r.dest with
  | none => simp [hk] at h
  | some k =>
    simp only [hk] at h ⊢
    cases hc : env.cryptoBoxAfternm (List.replicate zeroBytes 0 ++ r.buffer)
        (maskFirst (addCarry (b.bytes.take nonceBytes) 1)) k with
    | none => simp [hc] at h
    | some c => simp [nextBuffer]

/-- Run form: the nonces passed are the masked successive counter values. -/
theorem passedNonces_encryptAll (s : NonceState) (b : NonceBuffer) (hb : nextBuffer env s = some b)
    (h : AllSucceed (encryptAll env s reqs)) :
    passedNonces (encryptAll env s reqs) = (List.range reqs.length).map
        (fun i => maskFirst (addCarry (b.bytes.take nonceBytes) (i + 1))) := by
  induction reqs generalizing s b with
  | nil => rfl
  | cons r rest ih =>
    have hhead := encryptPayload_success env r b hb (h _ (by simp [encryptAll]))
    have htail : AllSucceed (encryptAll env (encryptPayload env r s).2 rest) := by
      intro o ho
      exact h o (by simp [encryptAll, ho])
    have hrest := ih (encryptPayload env r s).2 b.incremented hhead.2 htail
    rw [incremented_take] at hrest
    have hcons : passedNonces (encryptAll env s (r :: rest)) =
        maskFirst (addCarry (b.bytes.take nonceBytes) 1) ::
          passedNonces (encryptAll env (encryptPayload env r s).2 rest) := by
      simp [passedNonces, encryptAll, hhead.1]
    rw [hcons, hrest, length_cons, range_succ_eq_map]
    simp only [map_cons, map_map, zero_add, addCarry_addCarry]
    congr 1
    apply map_congr_left
    intro i _
    simp only [Function.comp_apply, Nat.succ_eq_add_one, add_comm 1]

/-- Masking forgets bit 7 of the number and nothing else. -/
theorem maskFirst_eq_iff (hlen : xs.length = ys.length) : maskFirst xs = maskFirst ys ↔
      value xs / 256 = value ys / 256 ∧ value xs % 128 = value ys % 128 := by
  cases xs with
  | nil =>
    have : ys = [] := length_eq_zero_iff.mp hlen.symm
    simp [this]
  | cons x xs =>
    cases ys with
    | nil => simp at hlen
    | cons y ys =>
      have hx := x.toNat_lt
      have hy := y.toNat_lt
      have hmask : ∀ b : UInt8, (b &&& 0x7f).toNat = b.toNat % 128 := by
        intro b
        exact Nat.and_two_pow_sub_one_eq_mod b.toNat 7
      have hfst : x &&& 0x7f = y &&& 0x7f ↔ x.toNat % 128 = y.toNat % 128 := by
        rw [← UInt8.toNat_inj, hmask, hmask]
      have hrest : xs = ys ↔ value xs = value ys :=
        ⟨fun h => by rw [h], value_inj (by simpa using hlen)⟩
      simp only [maskFirst, List.cons.injEq, hfst, hrest, value_cons]
      omega

/-- Two of the first `2 ^ 100` counter values agree after masking exactly when
they are 128 apart and the smaller has bit 7 clear. -/
theorem masked_values_agree_iff (c : Nat) (hij : i < j) (hj : j < 2 ^ 100) :
    ((c + i) % 256 ^ 24 / 256 = (c + j) % 256 ^ 24 / 256 ∧
      (c + i) % 256 ^ 24 % 128 = (c + j) % 256 ^ 24 % 128) ↔
      j = i + 128 ∧ (c + i) % 256 < 128 := by
  constructor
  · rintro ⟨hblk, hlow⟩
    constructor <;> omega
  rintro ⟨rfl, hbit⟩
  constructor <;> omega

/-- No value among the first `n` meets its successor by 128 exactly when the
run is short, or starts in an upper half block and ends before the next one. -/
theorem no_pair_apart_iff : (∀ i j, i < j → j < n → ¬(j = i + 128 ∧ (first + i) % 256 < 128)) ↔
      n ≤ 128 ∨ (128 ≤ first % 256 ∧ n + first % 256 ≤ 384) := by
  constructor
  · intro h
    by_cases hn : n ≤ 128
    · exact .inl hn
    have h0 := h 0 128 (by omega) (by omega)
    have hhigh : 128 ≤ first % 256 := by omega
    refine .inr ⟨hhigh, ?_⟩
    by_contra hlong
    have h1 := h (256 - first % 256) (256 - first % 256 + 128) (by omega) (by omega)
    omega
  rintro (hn | ⟨hhigh, hn⟩) i j hij hj ⟨rfl, hbit⟩
  · omega
  · omega

def startValue (b : NonceBuffer) : Nat := value (b.bytes.take nonceBytes)

theorem startValue_mod (b : NonceBuffer) : startValue b % 256 = (b.bytes.headD 0).toNat := by
  have hb := b.length_eq
  cases hbs : b.bytes with
  | nil => simp [hbs] at hb
  | cons x xs =>
    have hx := x.toNat_lt
    simp only [startValue, hbs, nonceBytes, take_succ_cons, value_cons, headD_cons]
    omega

/-- Distinctness of the masked counter values of a run of `n` calls. -/
theorem maskedCounter_nodup_iff (b : NonceBuffer) (hn : n < 2 ^ 100) :
    ((List.range n).map (fun i => maskFirst (addCarry (b.bytes.take nonceBytes) (i + 1)))).Nodup ↔
      n ≤ 128 ∨ (128 ≤ ((b.bytes.headD 0).toNat + 1) % 256 ∧
        n + ((b.bytes.headD 0).toNat + 1) % 256 ≤ 384) := by
  have hlen : (b.bytes.take nonceBytes).length = 24 := by simp [nonceBytes, b.length_eq]
  have hagree : ∀ i j, i < j → j < n → (maskFirst (addCarry (b.bytes.take nonceBytes) (i + 1)) =
          maskFirst (addCarry (b.bytes.take nonceBytes) (j + 1)) ↔
        j = i + 128 ∧ (startValue b + 1 + i) % 256 < 128) := by
    intro i j hij hj
    have h := masked_values_agree_iff (startValue b + 1) hij (by omega)
    rw [maskFirst_eq_iff (by simp), value_addCarry, value_addCarry, hlen, ← h]
    simp only [startValue, add_assoc, add_comm 1]
  have hfst : (startValue b + 1) % 256 = ((b.bytes.headD 0).toNat + 1) % 256 := by
    rw [← startValue_mod b]
    omega
  rw [← hfst, ← no_pair_apart_iff, nodup_map_iff_inj_on nodup_range]
  constructor
  · intro hinj i j hij hj hpair
    have := hinj i (by simpa using hij.trans hj) j (by simpa using hj) ((hagree i j hij hj).mpr hpair)
    omega
  intro hnone i hi j hj heq
  rw [mem_range] at hi hj
  rcases Nat.lt_trichotomy i j with hlt | heq' | hgt
  · exact absurd ((hagree i j hlt hj).mp heq) (hnone i j hlt hj)
  · exact heq'
  · exact absurd ((hagree j i hgt hi).mp heq.symm) (hnone j i hgt hi)

/-- A run of successful calls from fresh random bytes uses pairwise distinct
nonces exactly when it has at most 128 calls, or its first counter value has
bit 7 set and the run ends before bit 7 is set again. -/
theorem encryptAll_nonces_nodup_iff (env : Environment Sid Key) (b : NonceBuffer)
    (hrandom : env.urandombytes = some b) (reqs : List (Request Sid))
    (hcount : reqs.length < 2 ^ 100)
    (hsuccess : AllSucceed (encryptAll env NonceState.start reqs)) :
    (passedNonces (encryptAll env NonceState.start reqs)).Nodup ↔
      reqs.length ≤ 128 ∨ (128 ≤ ((b.bytes.headD 0).toNat + 1) % 256 ∧
        reqs.length + ((b.bytes.headD 0).toNat + 1) % 256 ≤ 384) := by
  rw [passedNonces_encryptAll env NonceState.start b (by simp [nextBuffer, NonceState.start, hrandom])
    hsuccess]
  exact maskedCounter_nodup_iff b hcount

/-- Calls succeed when memory, keys and the box function never fail. -/
theorem encryptAll_allSucceed (b : NonceBuffer) (hkey : ∀ x y, (env.keyringGetNmBytes x y).isSome)
    (hbox : ∀ plain nc k, (env.cryptoBoxAfternm plain nc k).isSome)
    (hsp : ∀ r ∈ reqs, r.obSpace = true) (s : NonceState) (hb : nextBuffer env s = some b) :
    AllSucceed (encryptAll env s reqs) := by
  induction reqs generalizing s b with
  | nil => simp [AllSucceed, encryptAll]
  | cons r rest ih =>
    have hfr : (encryptPayload env r s).1.frame.isSome := by
      have hgen := generateNonce_next env hb
      obtain ⟨k, hk⟩ := Option.isSome_iff_exists.mp (hkey r.source r.dest)
      obtain ⟨c, hc⟩ := Option.isSome_iff_exists.mp (hbox (List.replicate zeroBytes 0 ++ r.buffer)
          (maskFirst (addCarry (b.bytes.take nonceBytes) 1)) k)
      simp [encryptPayload, hsp r (by simp), hgen, hk, hc]
    have hnext := (encryptPayload_success env r b hb hfr).2
    have hrest := ih b.incremented (fun x hx => hsp x (by simp [hx])) _ hnext
    exact forall_mem_cons.mpr ⟨hfr, hrest⟩

/-- A keyring that knows every pair and a box that returns its input, started
from 128 zero bytes. -/
def zeroEnvironment : Environment Nat Nat where
  urandombytes := some ⟨List.replicate 128 0, by simp⟩
  keyringGetNmBytes := fun source dest => some (source + dest)
  cryptoBoxAfternm := fun plain _ _ => some plain

theorem encryptAll_nonces_nodup_iff_two : AllSucceed (encryptAll zeroEnvironment NonceState.start
        [⟨1, 2, [65], true⟩, ⟨1, 2, [66], true⟩]) ∧
      (passedNonces (encryptAll zeroEnvironment NonceState.start
        [⟨1, 2, [65], true⟩, ⟨1, 2, [66], true⟩])).Nodup := by
  have hs : AllSucceed (encryptAll zeroEnvironment NonceState.start
      [⟨1, 2, [65], true⟩, ⟨1, 2, [66], true⟩]) :=
    encryptAll_allSucceed zeroEnvironment _ (by intros; rfl) (by intros; rfl) (by simp) _ rfl
  exact ⟨hs, (encryptAll_nonces_nodup_iff zeroEnvironment _ rfl _ (by decide) hs).mpr (.inl (by decide))⟩

/-- From 128 zero bytes the first and the 129th call use one nonce. -/
theorem nonce_reused_after_128_calls : AllSucceed (encryptAll zeroEnvironment NonceState.start
        (List.replicate 129 ⟨1, 2, [65], true⟩)) ∧
      ¬(passedNonces (encryptAll zeroEnvironment NonceState.start
        (List.replicate 129 ⟨1, 2, [65], true⟩))).Nodup := by
  have hs : AllSucceed (encryptAll zeroEnvironment NonceState.start
      (List.replicate 129 ⟨1, 2, [65], true⟩)) :=
    encryptAll_allSucceed zeroEnvironment _ (by intros; rfl) (by intros; rfl)
      (by intro r hr; rw [eq_of_mem_replicate hr]) _ rfl
  refine ⟨hs, ?_⟩
  rw [passedNonces_encryptAll zeroEnvironment _ _ rfl hs, maskedCounter_nodup_iff _ (by simp)]
  simp

end MdpNonce
