import ServalDna.RequestRun

/-!
# The first read of a request

What a read adds to a request. The buffer commits and reserves the same whatever
data stands behind, and a first read that fits it is parsed as a whole.
-/
namespace RequestSplit

open TextCodec Scanner Scanner.Scan HttpScan HttpHeaders ListSlice HttpRequest RequestRun
open List Option

variable {text rest : Text} {r r' : Request} {srv : Server} {b : Buffer}

/-- A request with more data behind what has been read. -/
def append (r : Request) (bytes : Text) : Request :=
  { r with buffer := r.buffer.read bytes, total := r.total + bytes.length }

theorem commit_read (rest bytes : Text) :
    (b.read bytes).commit (rest ++ bytes) = (b.commit rest).read bytes := by
  have htake : (b.unparsed ++ bytes).take ((b.unparsed ++ bytes).length - (rest ++ bytes).length) =
      b.unparsed.take (b.unparsed.length - rest.length) := by
    rw [length_append, length_append, Nat.add_sub_add_right, take_append_of_le_length (Nat.sub_le _ _)]
  simp only [Buffer.commit, Buffer.read, htake]

theorem reserve_read (b : Buffer) (address len : Nat) (mover : Text → Nat → Text) (bytes : Text) :
    (b.read bytes).reserve address len mover =
      (b.reserve address len mover).map fun x => (x.1.read bytes, x.2) := by
  simp only [Buffer.reserve, Buffer.read, apply_ite (Except.map _)]
  rfl

theorem receive_init (hfits : Buffer.init.endAt + text.length ≤ bufferSize) :
    receive srv .init text = process srv (append .init text) := by
  have htake : text.take (bufferSize - Buffer.init.endAt) = text := take_of_length_le (by omega)
  have hroom : Buffer.init.makeRoom none = (Buffer.init, bufferSize - Buffer.init.endAt) := by decide
  rw [receive, if_neg (by decide), Request.init, hroom]
  simp only [htake]
  rw [if_neg (by decide)]
  rfl

/-! ### Parsers and rounds -/

/-- A complete version ends in a LF. -/
theorem scanVersion_done (h : (scanVersion beyond).run text = some (some version, rest)) :
    10 :: rest <:+ text := by
  obtain ⟨_, t1, h1, h⟩ := run_bind_eq_some h
  obtain ⟨_, t2, h2, h⟩ := run_bind_eq_some h
  obtain ⟨_, t3, h3, h⟩ := run_bind_eq_some h
  obtain ⟨_, t4, h4, h⟩ := run_bind_eq_some h
  obtain ⟨_, t5, h5, h⟩ := run_bind_eq_some h
  obtain ⟨_, t6, h6, h⟩ := run_bind_eq_some h
  obtain ⟨_, t7, h7, ⟨⟩⟩ := run_bind_eq_some h
  have hsuf : t6 <:+ text :=
    (leaves_require _ _ _ _ h6).trans <| (leaves_parseUint _ _ _ _ _ _ h5).trans <|
      (leaves_skipLiteral _ _ _ _ h4).trans <| (leaves_require _ _ _ _ h3).trans <|
        (leaves_parseUint _ _ _ _ _ _ h2).trans (leaves_skipLiteral _ _ _ _ h1)
  exact (eolFrom_suffix false h7).trans hsuf

theorem scanned_done_of {α : Type} {p : Scan UInt8 α} {a : α} (h : p.run text = some (some a, rest)) :
    scanned p text = some (.done a rest) := by
  rw [scanned, h]
  rfl

theorem settle_again_of (hstat : r'.status = none)
    (hmv : ¬ (r'.buffer.unparsed.length = r.buffer.unparsed.length ∧ r'.parser = r.parser)) :
    settle r 0 r' = (.again, r') := by
  simp [settle, hmv, Request.answer, hstat]

theorem answer_calls : (r.answer code).calls = r.calls := by
  simp only [Request.answer]
  split <;> rfl

theorem settle_calls (r : Request) (code : Nat) (r' : Request) :
    (settle r code r').2.calls = r'.calls := by
  simp only [settle]
  split
  · rfl
  · rw [answer_calls]

/-- A server that lets every request pass. -/
def passing : Server :=
  ⟨fun _ => none, fun _ => none, fun _ => 0, by simp, by simp⟩

end RequestSplit
