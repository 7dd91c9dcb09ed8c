import Mathlib.Data.List.TakeWhile
import Mathlib.Data.List.Infix

/-!
# Scanners

A scanner reads from the front of a list of symbols. It succeeds with a value
or fails, and in both cases leaves the symbols from its cursor on; `none` says
that the program stopped at a failed assertion. Sequencing stops at the first
failure with the cursor where it is, as a chain of `&&` does.

Three properties are proved for the combinators: a scanner does not stop the
program (`Total`), what is left is the end of the text (`Leaves`), and nothing
behind a stop symbol is looked at (`Within`).
-/
namespace Scanner

open List Option

variable {σ α β ι : Type}

structure Scan (σ α : Type) where
  run : List σ → Option (Option α × List σ)

namespace Scan

instance : Monad (Scan σ) where
  pure a := ⟨fun text => some (some a, text)⟩
  bind p f := ⟨fun text =>
    match p.run text with
    | none => none
    | some (none, rest) => some (none, rest)
    | some (some a, rest) => (f a).run rest⟩

def fail : Scan σ α := ⟨fun text => some (none, text)⟩

def abort : Scan σ α := ⟨fun _ => none⟩

def require (condition : Bool) : Scan σ Unit := if condition then pure () else fail

def attempt (p : Scan σ α) : Scan σ (Option α) := ⟨fun text =>
  match p.run text with
  | none => none
  | some (none, _) => some (some none, text)
  | some (some a, rest) => some (some (some a), rest)⟩

@[simp] theorem run_pure (a : α) (text : List σ) :
    (pure a : Scan σ α).run text = some (some a, text) := rfl

theorem run_bind (p : Scan σ α) (f : α → Scan σ β) (text : List σ) : (p >>= f).run text =
      match p.run text with
      | none => none
      | some (none, rest) => some (none, rest)
      | some (some a, rest) => (f a).run rest := rfl

@[simp] theorem run_fail : (fail : Scan σ α).run text = some (none, text) := rfl
@[simp] theorem run_abort (text : List σ) : (abort : Scan σ α).run text = none := rfl

@[simp] theorem run_require (cond : Bool) (text : List σ) :
    (require cond : Scan σ Unit).run text = some (if cond then some () else none, text) := by
  cases cond <;> rfl

theorem run_bind_eq_some {f : α → Scan σ β} {b : β} (h : (p >>= f).run text = some (some b, rest)) :
    ∃ a mid, p.run text = some (some a, mid) ∧ (f a).run mid = some (some b, rest) := by
  rw [run_bind] at h
  split at h
  · cases h
  · cases h
  · next a mid hp => exact ⟨a, mid, hp, h⟩

end Scan

open Scan

/-! ### No assertion fails -/

def Total (p : Scan σ α) : Prop := ∀ text, p.run text ≠ none

theorem total_pure (a : α) : Total (pure a : Scan σ α) := nofun

theorem total_require (cond : Bool) : Total (require cond : Scan σ Unit) := by
  intro text h
  rw [run_require] at h
  cases h

theorem Total.bind_none {f : α → Scan σ β} (hp : Total p) (h : (p >>= f).run text = none) :
    ∃ a mid, p.run text = some (some a, mid) ∧ (f a).run mid = none := by
  rw [run_bind] at h
  split at h
  · next hnone => exact absurd hnone (hp text)
  · cases h
  · next a mid hp => exact ⟨a, mid, hp, h⟩

theorem Total.bind {f : α → Scan σ β} (hp : Total p) (hf : ∀ a, Total (f a)) : Total (p >>= f) := by
  intro text h
  obtain ⟨a, mid, -, h⟩ := hp.bind_none h
  exact hf a mid h

theorem Total.attempt {p : Scan σ α} (hp : Total p) : Total p.attempt := by
  intro text h
  simp only [Scan.attempt] at h
  split at h
  · next hnone => exact hp text hnone
  · cases h
  · cases h

/-! ### The text and what is left of it -/

/-- The rest is the end of the text. -/
def Leaves (p : Scan σ α) : Prop := ∀ text a rest, p.run text = some (a, rest) → rest <:+ text

theorem leaves_pure (a : α) : Leaves (pure a : Scan σ α) := by
  intro text x rest h
  cases h
  exact suffix_rfl

theorem leaves_abort : Leaves (abort : Scan σ α) := by
  intro text x rest h
  cases h

theorem leaves_require (cond : Bool) : Leaves (require cond : Scan σ Unit) := by
  intro text x rest h
  rw [run_require] at h
  cases h
  exact suffix_rfl

theorem Leaves.bind {f : α → Scan σ β} (hp : Leaves p) (hf : ∀ a, Leaves (f a)) : Leaves (p >>= f) := by
  intro text b rest h
  rw [run_bind] at h
  split at h
  · cases h
  · next hmid =>
    cases h
    exact hp text none rest hmid
  · next a mid hmid => exact (hf a mid b rest h).trans (hp text (some a) mid hmid)

theorem Leaves.attempt {p : Scan σ α} (hp : Leaves p) : Leaves p.attempt := by
  intro text a rest h
  simp only [Scan.attempt] at h
  split at h
  · cases h
  · cases h
    exact suffix_rfl
  next b _ hmid =>
  cases h
  exact hp text (some b) rest hmid

/-! ### Nothing behind the stop symbol is looked at -/

/-- The scanners `p i` do the same on a line whatever follows its stop symbol. -/
def Within (stop : σ) (p : ι → Scan σ α) : Prop :=
  ∀ line, stop ∉ line → ∃ out : Option (Option α × List σ), (∀ x ∈ out, stop ∉ x.2) ∧
      ∀ i after, (p i).run (line ++ stop :: after) = out.map fun x => (x.1, x.2 ++ stop :: after)

theorem unstopped_some {rest : List σ} (a : Option α) (h : stop ∉ rest) :
    ∀ x ∈ some (a, rest), stop ∉ x.2 := by
  simpa using h

/-- A scanner that goes on or fails in the line. -/
theorem within_of_some {p : ι → Scan σ α} (h : ∀ line, stop ∉ line → ∃ a rest, stop ∉ rest ∧
      ∀ i after, (p i).run (line ++ stop :: after) = some (a, rest ++ stop :: after)) :
    Within stop p := by
  intro line hline
  obtain ⟨a, rest, hrest, heq⟩ := h line hline
  exact ⟨some (a, rest), unstopped_some a hrest, heq⟩

theorem within_pure (a : α) : Within stop (fun _ : ι => (pure a : Scan σ α)) :=
  within_of_some fun line hline => ⟨some a, line, hline, fun _ _ => rfl⟩

theorem within_fail : Within stop (fun _ : ι => (fail : Scan σ α)) :=
  within_of_some fun line hline => ⟨none, line, hline, fun _ _ => rfl⟩

theorem within_abort : Within stop (fun _ : ι => (abort : Scan σ α)) :=
  fun _ _ => ⟨none, by simp, fun _ _ => rfl⟩

theorem within_require (cond : Bool) :
    Within stop (fun _ : ι => (require cond : Scan σ Unit)) := by
  cases cond
  · exact within_fail
  · exact within_pure ()

theorem Within.bind {f : ι → α → Scan σ β} (hp : Within stop p)
    (hf : ∀ a, Within stop (fun i => f i a)) : Within stop (fun i => p i >>= f i) := by
  intro line hline
  obtain ⟨out, hout, heq⟩ := hp line hline
  rcases out with _ | ⟨_ | a, rest⟩
  · exact ⟨none, by simp, fun i after => by simp [run_bind, heq]⟩
  · exact ⟨some (none, rest), unstopped_some _ (hout _ rfl), fun i after => by simp [run_bind, heq]⟩
  obtain ⟨out', hout', heq'⟩ := hf a rest (hout (some a, rest) rfl)
  exact ⟨out', hout', fun i after => by simp [run_bind, heq, heq']⟩

theorem Within.attempt {p : ι → Scan σ α} (hp : Within stop p) :
    Within stop (fun i => (p i).attempt) := by
  intro line hline
  obtain ⟨out, hout, heq⟩ := hp line hline
  rcases out with _ | ⟨_ | a, rest⟩
  · exact ⟨none, by simp, fun i after => by simp [Scan.attempt, heq]⟩
  · exact ⟨some (some none, line), unstopped_some _ hline, fun i after => by simp [Scan.attempt, heq]⟩
  exact ⟨some (some (some a), rest), unstopped_some _ (hout _ rfl),
    fun i after => by simp [Scan.attempt, heq]⟩

/-! ### Literals -/

section Literal

variable (same : σ → σ → Bool)

def literalFrom : List σ → List σ → Option (Option Unit × List σ)
  | [], text => some (some (), text)
  | _ :: _, [] => some (none, [])
  | c :: lit, d :: rest => if same d c then literalFrom lit rest else some (none, d :: rest)

/-- The symbols of the literal one after the other, compared by `same`. -/
def literalBy (lit : List σ) : Scan σ Unit := ⟨literalFrom same lit⟩

theorem literalFrom_suffix (h : literalFrom same lit text = some (x, rest)) : rest <:+ text := by
  fun_induction literalFrom same lit text with
  | case1 text | case2 c lit | case4 c lit d text hne =>
    cases h
    exact suffix_rfl
  | case3 c lit d text heq ih => exact (ih h).trans (suffix_cons d text)

theorem leaves_literalBy (lit : List σ) : Leaves (literalBy same lit) :=
  fun _ _ _ h => literalFrom_suffix same h

theorem within_literalBy {stop : σ} (lit : List σ) (hlit : ∀ c ∈ lit, same stop c = false) :
    Within stop (fun _ : ι => literalBy same lit) := by
  refine within_of_some ?_
  induction lit with
  | nil => exact fun line hline => ⟨some (), line, hline, fun _ _ => rfl⟩
  | cons c lit ih =>
    intro line hline
    cases line with
    | nil =>
      refine ⟨none, [], hline, fun _ after => ?_⟩
      simp [literalBy, literalFrom, hlit c mem_cons_self]
    | cons d line =>
      cases hsame : same d c with
      | true =>
        obtain ⟨a, rest, hrest, heq⟩ := ih (fun e he => hlit e (mem_cons_of_mem c he)) line
          fun h => hline (mem_cons_of_mem d h)
        refine ⟨a, rest, hrest, fun i after => ?_⟩
        rw [← heq i after]
        simp [literalBy, literalFrom, hsame]
      | false =>
        refine ⟨none, d :: line, hline, fun _ after => ?_⟩
        simp [literalBy, literalFrom, hsame]

/-- Success, failure in the text, or the end of the text. -/
theorem literalFrom_cases (lit text : List σ) :
    (∃ rest, literalFrom same lit text = some (some (), rest)) ∨
      (∃ d rest, literalFrom same lit text = some (none, d :: rest)) ∨
      literalFrom same lit text = some (none, []) := by
  fun_induction literalFrom same lit text with
  | case1 text => exact .inl ⟨text, rfl⟩
  | case2 c lit => exact .inr (.inr rfl)
  | case3 c lit d text heq ih => exact ih
  | case4 c lit d text hne => exact .inr (.inl ⟨d, text, rfl⟩)

theorem total_literalBy (lit : List σ) : Total (literalBy same lit) := by
  intro text h
  change literalFrom same lit text = none at h
  rcases literalFrom_cases same lit text with ⟨rest, hrest⟩ | ⟨d, rest, hrest⟩ | hrest <;>
    rw [hrest] at h <;> cases h

end Literal

/-! ### Runs of symbols -/

section Span

variable (p : σ → Bool)

def span : Scan σ (List σ) := ⟨fun text => some (some (text.takeWhile p), text.dropWhile p)⟩

/-- A run of at least one symbol, which must be ended by another symbol. -/
def word : Scan σ (List σ) := ⟨fun text =>
  if (text.takeWhile p).isEmpty || (text.dropWhile p).isEmpty then some (none, text.dropWhile p)
  else some (some (text.takeWhile p), text.dropWhile p)⟩

theorem total_span : Total (span p) := nofun

theorem total_word : Total (word p) := by
  intro text h
  simp only [word] at h
  split at h <;> cases h

theorem leaves_span : Leaves (span p) := by
  intro text x rest h
  cases h
  exact dropWhile_suffix p

theorem leaves_word : Leaves (word p) := by
  intro text x rest h
  simp only [word] at h
  split at h <;> cases h <;> exact dropWhile_suffix p

variable {p}

theorem takeWhile_stop (hstop : p stop = false) (line after : List σ) :
    (line ++ stop :: after).takeWhile p = line.takeWhile p := by
  induction line with
  | nil => simp [hstop]
  | cons c line ih =>
    cases hc : p c with
    | true => simp [hc, ih]
    | false => simp [hc]

theorem dropWhile_stop (hstop : p stop = false) (line after : List σ) :
    (line ++ stop :: after).dropWhile p = line.dropWhile p ++ stop :: after := by
  induction line with
  | nil => simp [hstop]
  | cons c line ih =>
    cases hc : p c with
    | true => simp [hc, ih]
    | false => simp [hc]

/-- A run ends where a symbol without the property comes. -/
theorem dropWhile_run {s text : List σ} (hs : ∀ c ∈ s, p c = true)
    (htext : ∀ c ∈ text.head?, p c = false) : (s ++ text).dropWhile p = text := by
  rw [dropWhile_append_of_pos hs]
  cases text with
  | nil => rfl
  | cons c text => simp [htext c rfl]

theorem head_dropWhile {text : List σ} (h : c ∈ (text.dropWhile p).head?) : p c = false := by
  have hnot := head?_dropWhile_not p text
  rw [mem_def.mp h] at hnot
  exact hnot

theorem not_mem_dropWhile {line : List σ} (hline : stop ∉ line) : stop ∉ line.dropWhile p :=
  fun h => hline ((dropWhile_suffix p).subset h)

theorem within_span {stop : σ} (hstop : p stop = false) : Within stop (fun _ : ι => span p) := by
  refine within_of_some fun line hline =>
    ⟨some (line.takeWhile p), line.dropWhile p, not_mem_dropWhile hline, fun _ after => ?_⟩
  simp only [span, takeWhile_stop hstop, dropWhile_stop hstop]

theorem within_word {stop : σ} (hstop : p stop = false) : Within stop (fun _ : ι => word p) := by
  refine within_of_some fun line hline =>
    ⟨if (line.takeWhile p).isEmpty then none else some (line.takeWhile p), line.dropWhile p,
      not_mem_dropWhile hline, fun _ after => ?_⟩
  simp only [word, takeWhile_stop hstop, dropWhile_stop hstop]
  cases (line.takeWhile p).isEmpty <;> simp

theorem run_word (rest : List σ) (hne : w ≠ []) (hw : ∀ a ∈ w, p a = true) (hc : p c = false) :
    (word p).run (w ++ c :: rest) = some (some w, c :: rest) := by
  have htake : (w ++ c :: rest).takeWhile p = w := by
    rw [takeWhile_stop hc, takeWhile_eq_self_iff.mpr hw]
  have hdrop : (w ++ c :: rest).dropWhile p = c :: rest := by
    rw [dropWhile_stop hc, dropWhile_eq_nil_iff.mpr hw, nil_append]
  have hemp : w.isEmpty = false := by simpa using hne
  simp only [word, htake, hdrop, hemp, isEmpty_cons, Bool.or_false, Bool.false_eq_true, if_false]

theorem word_some (h : (word p).run text = some (some w, rest)) :
    ∃ c after, rest = c :: after ∧ text = w ++ c :: after ∧ w ≠ [] ∧ (∀ a ∈ w, p a = true) ∧
      p c = false := by
  simp only [word] at h
  split at h
  · cases h
  next hne =>
  cases h
  simp only [Bool.or_eq_true, not_or, List.isEmpty_iff] at hne
  have hhead := head_dropWhile_not p hne.2
  obtain ⟨c, after, hdrop⟩ := exists_cons_of_ne_nil hne.2
  refine ⟨c, after, hdrop, ?_, hne.1, fun a ha => mem_takeWhile_imp ha, ?_⟩
  · rw [← hdrop, takeWhile_append_dropWhile]
  · simpa only [hdrop, head_cons] using hhead

theorem word_none (h : (word p).run text = some (none, rest)) : rest = [] ∨ rest = text := by
  simp only [word] at h
  split at h
  · next hemp =>
    cases h
    rw [Bool.or_eq_true, List.isEmpty_iff, List.isEmpty_iff] at hemp
    rcases hemp with htake | hdrop
    · have hspl := takeWhile_append_dropWhile (p := p) (l := text)
      rw [htake, nil_append] at hspl
      exact .inr hspl
    · exact .inl hdrop
  · cases h

end Span

end Scanner
