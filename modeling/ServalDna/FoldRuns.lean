import Mathlib.Data.List.Induction
import Mathlib.Data.Option.Basic

/-!
# Runs of a partial step

A run of a step function that may fail is a monadic fold over a list. These are
the rules for what holds at its end.
-/
namespace FoldRuns

open List Option

variable {α β : Type} {l : List α} {b c : β}

/-- A property of the state and of what has been gone through, kept by every step. -/
theorem foldlM_induct (P : List α → β → Prop) (hb : P [] b)
    (hstep : ∀ pre c a d, P pre c → f c a = some d → P (pre ++ [a]) d)
    (h : l.foldlM f b = some c) : P l c := by
  induction l using List.reverseRecOn generalizing c with
  | nil =>
    cases h
    exact hb
  | append_singleton pre a ih =>
    rw [foldlM_append] at h
    obtain ⟨d, hbef, hlast⟩ := bind_eq_some_iff.mp h
    obtain ⟨e, ha, ⟨⟩⟩ := bind_eq_some_iff.mp hlast
    exact hstep pre d a c (ih hbef) ha

theorem foldlM_some (P : β → Prop) (hstep : ∀ b a c, P b → f b a = some c → P c) (hb : P b)
    (h : l.foldlM f b = some c) : P c :=
  foldlM_induct (fun _ => P) hb (fun _ => hstep) h

theorem foldlM_exists (P : β → Prop) (hstep : ∀ b a, P b → ∃ c, f b a = some c ∧ P c)
    (l : List α) (hb : P b) : ∃ c, l.foldlM f b = some c ∧ P c := by
  induction l generalizing b with
  | nil => exact ⟨b, rfl, hb⟩
  | cons a l ih =>
    obtain ⟨b', hb', hP⟩ := hstep b a hb
    rw [foldlM_cons, hb']
    exact ih hP

end FoldRuns
