import ServalDna.ManifestGrammar
import Mathlib.Data.List.Dedup

/-!
# A manifest after a failed parse

A text that `rhizome_manifest_parse` refuses leaves the manifest to
`rhizome_manifest_clear`, which does not reset all that the lines before the failure have set.
Whether the manifest is as it was before can be read off the labels and values of those lines.
-/
namespace ManifestRestore

open TextCodec ManifestFields ManifestParse ManifestGrammar Option
open List hiding lookup

/-! ### The lines of a text -/

/-- The lines up to the end of the text, or to the first one that is not well formed. -/
def lines (text : Text) : List Line :=
  if text.head?.all (· == 0) then []
  else
    match _h : nextLine text with
    | none => []
    | some (label, value, rest) =>
      if fieldLabelIsValid label && fieldValueIsValid value then ⟨label, value, false⟩ :: lines rest
      else []
termination_by text.length
decreasing_by exact nextLine_length _h

/-- The names under which lines are listed. -/
def names (ls : List Line) : List Text := ((listed ls).map Prod.fst).dedup

/-- The first of the lines `ls` behind `before`: those that come while the list has room. -/
def untilFull (before : List Line) : List Line → List Line
  | [] => []
  | l :: ls => if (names before).length < maxVars then l :: untilFull (before ++ [l]) ls else []

def isId (l : Line) : Bool := (l.holds .id).isSome

def isKey (l : Line) : Bool := (l.holds .bk).isSome

/-- A bundle key that no id has taken away: one behind the id, or one without an id. -/
def keyHeld (ls : List Line) : Bool :=
  if ls.any isId then (ls.dropWhile (!isId ·)).any isKey else ls.any isKey

/-- No line sets a field that is not a core field, apart from a bundle key that an id takes away. -/
def SetsCore (ls : List Line) : Prop :=
  keyHeld ls = false ∧ ∀ l ∈ ls, ∀ f : Field, f.core = false → f ≠ .bk → l.holds f = none

/-! ### What the lines have set -/

structure Held (before : List Line) (m : Manifest) : Prop where
  room : m.vars.length ≤ maxVars
  nodup : (m.vars.map Prod.fst).Nodup
  names : ∀ name, name ∈ m.vars.map Prod.fst ↔ name ∈ names before
  values : ∀ f, f ≠ .bk → m.value f = holding before f
  key : m.bundleKey.isSome = keyHeld before

theorem mem_names : name ∈ names ls ↔ ∃ l ∈ ls, ∃ en, l.field = some en ∧ en.1 = name := by
  simp only [names, mem_dedup, List.mem_map, mem_listed]
  grind

theorem names_snoc : name ∈ names (before ++ [l]) ↔
    name ∈ names before ∨ ∃ en, l.field = some en ∧ en.1 = name := by
  simp only [mem_names, mem_append, mem_singleton, or_and_right, exists_or, exists_eq_left]

theorem not_isKey_of_isId (h : isId l = true) : isKey l = false := by
  rw [isKey, holds_other (descriptor_of_holds h) (by decide)]
  rfl

theorem keyHeld_snoc : keyHeld (before ++ [l]) =
    if isId l && !before.any isId then false else keyHeld before || isKey l := by
  rw [keyHeld, any_append, dropWhile_append, keyHeld]
  cases hany : before.any isId with
  | true =>
    have hne : (before.dropWhile (!isId ·)).isEmpty = false := by
      obtain ⟨d, hd, hid⟩ := any_eq_true.mp hany
      rw [isEmpty_eq_false_iff, ne_eq, dropWhile_eq_nil_iff]
      exact fun h => absurd (h d hd) (by simp [hid])
    simp [hne]
  | false =>
    have hnil : before.dropWhile (!isId ·) = [] := by
      rw [dropWhile_eq_nil_iff]
      exact fun d hd => by simpa using any_eq_false.mp hany d hd
    cases hid : isId l with
    | true => simp [hnil, hid, not_isKey_of_isId hid]
    | false => simp [hid]

theorem replace_names : (replace vars var value).map Prod.fst = vars.map Prod.fst := by
  fun_induction replace vars var value with
  | case1 => rfl
  | case2 => rfl
  | case3 en rest hname ih => simp [ih]

/-- A variable that is set is listed once. -/
theorem setVar_names (h : setVar vars var value = some vars') (hnd : (vars.map Prod.fst).Nodup) :
    (vars'.map Prod.fst).Nodup ∧
      ∀ name, name ∈ vars'.map Prod.fst ↔ name ∈ vars.map Prod.fst ∨ name = var := by
  rw [setVar] at h
  split at h
  · next hold =>
    cases h
    rw [replace_names]
    obtain ⟨en, hen, rfl⟩ := lookup_isSome.mp hold
    refine ⟨hnd, fun name => ⟨.inl, ?_⟩⟩
    rintro (hmem | rfl)
    · exact hmem
    · exact mem_map_of_mem hen
  · next hnew =>
    split at h <;> cases h
    have hnot : var ∉ vars.map Prod.fst := fun hmem => by
      obtain ⟨en, hen, rfl⟩ := List.mem_map.mp hmem
      exact hnew (lookup_isSome.mpr ⟨en, hen, rfl⟩)
    simp [nodup_append, hnd]
    grind

theorem keyHeld_any (h : keyHeld before = true) : ∃ l ∈ before, isKey l = true := by
  rw [keyHeld] at h
  split at h
  · obtain ⟨l, hl, hkey⟩ := any_eq_true.mp h
    exact ⟨l, (dropWhile_sublist _).subset hl, hkey⟩
  · exact any_eq_true.mp h

namespace Held

variable {before : List Line} {m : Manifest} {l : Line}

theorem length_eq (h : Held before m) : m.vars.length = (ManifestRestore.names before).length := by
  have hperm : (m.vars.map Prod.fst).Perm (ManifestRestore.names before) :=
    (perm_ext_iff_of_nodup h.nodup (nodup_dedup _)).mpr h.names
  simpa using hperm.length_eq

/-- A field that is set is listed. -/
theorem listed_of_value (h : Held before m) (hval : (m.value f).isSome) :
    ∃ l ∈ before, (l.holds f).isSome := by
  by_cases hf : f = .bk
  · subst hf
    exact keyHeld_any (h.key ▸ hval)
  · rwa [h.values f hf, holding, findSome?_isSome_iff] at hval

theorem any_isId (h : Held before m) : before.any isId = (m.value .id).isSome := by
  rw [h.values .id (by decide), Bool.eq_iff_iff, holding, findSome?_isSome_iff, List.any_eq_true]
  rfl

theorem listed_names (h : Held before m) (hfld : l.field = some (name, value))
    (hvars : setVar m.vars name value = some vars) : (vars.map Prod.fst).Nodup ∧
      ∀ name, name ∈ vars.map Prod.fst ↔ name ∈ ManifestRestore.names (before ++ [l]) := by
  obtain ⟨hnd, hmem⟩ := setVar_names hvars h.nodup
  refine ⟨hnd, fun name' => ?_⟩
  rw [hmem, h.names, names_snoc, hfld]
  simp [eq_comm]

/-- The names that a line adds to those of the lines before it. -/
theorem names_step (h : Held before m) (hl : l.Valid) (hpar : Parsed m l.label l.value status m')
    (hstat : status ≠ .overflow) : (m'.vars.map Prod.fst).Nodup ∧
      ∀ name, name ∈ m'.vars.map Prod.fst ↔ name ∈ ManifestRestore.names (before ++ [l]) := by
  cases hpar with
  | refused hinvalid => exact absurd ⟨hl.label, hl.value⟩ hinvalid
  | full => exact absurd rfl hstat
  | twice hexists =>
    refine ⟨h.nodup, fun name => ?_⟩
    rw [h.names, names_snoc]
    refine ⟨.inl, fun hmem => hmem.elim id ?_⟩
    rintro ⟨en, hfld, rfl⟩
    rw [field_name hfld, Line.name]
    rw [fieldExists] at hexists
    cases hdesc : descriptor l.label with
    | some f =>
      rw [hdesc] at hexists
      obtain ⟨d, hd, hhl⟩ := h.listed_of_value hexists
      obtain ⟨en', hfld', hname⟩ := holds_field hhl
      exact mem_names.mpr ⟨d, hd, en', hfld', hname⟩
    | none =>
      rw [hdesc] at hexists
      rw [← h.names]
      obtain ⟨en, hen, hname⟩ := lookup_isSome.mp hexists
      exact List.mem_map.mpr ⟨en, hen, hname⟩
  | unread hdesc _ _ hread =>
    refine ⟨h.nodup, fun name => ?_⟩
    rw [h.names, names_snoc]
    simp [Line.field, hdesc, hread]
  | known hdesc _ _ hread _ hvars =>
    simpa using h.listed_names (l := l) (by simp [Line.field, hdesc, hread]) hvars
  | unknown hdesc _ _ hvars => exact h.listed_names (l := l) (by simp [Line.field, hdesc]) hvars

/-- An id takes the key away, and a key comes if there is none. -/
theorem key_step (h : Held before m) (hl : l.Valid) (hpar : Parsed m l.label l.value status m')
    (hstat : status ≠ .overflow) : m'.bundleKey.isSome = keyHeld (before ++ [l]) := by
  rw [keyHeld_snoc, ← h.key, h.any_isId]
  cases hpar with
  | refused hinvalid => exact absurd ⟨hl.label, hl.value⟩ hinvalid
  | full => exact absurd rfl hstat
  | twice hexists =>
    rw [fieldExists] at hexists
    have hset : ∀ {g}, (l.holds g).isSome → (m.value g).isSome := fun hg => by
      rwa [descriptor_of_holds hg] at hexists
    have hid : (isId l && !(m.value .id).isSome) = false := by
      cases hid : isId l with
      | false => rfl
      | true => simp [hset hid]
    rw [hid, if_neg Bool.false_ne_true]
    cases hkey : isKey l with
    | false => simp
    | true => simp [show m.bundleKey.isSome = true from hset hkey]
  | unread hdesc _ _ hread => simp [isId, isKey, holds_unread hdesc hread]
  | @known _ f v hdesc hnew _ hread =>
    rw [key_known hdesc hread, keyStep, isId, isKey]
    cases hid : (l.holds .id).isSome with
    | true =>
      cases hdesc.symm.trans (descriptor_of_holds hid)
      simp [hnew]
    | false =>
      simp only [Bool.false_and, Bool.false_eq_true, if_false]
      cases l.holds .bk with
      | none => exact (Bool.or_false _).symm
      | some key => exact (Bool.or_true _).symm
  | unknown hdesc => simp [isId, isKey, holds_unknown hdesc]

/-- What the parser makes of a well formed line while there is room. -/
theorem step (h : Held before m) (hl : l.Valid) (hpar : Parsed m l.label l.value status m')
    (hstat : status ≠ .overflow) : Held (before ++ [l]) m' := by
  obtain ⟨hnodup, hnames⟩ := h.names_step hl hpar hstat
  exact ⟨(hpar.bounded h.room).2.1, hnodup, hnames, value_step h.values hpar hl hstat, h.key_step hl hpar hstat⟩

theorem fresh : Held [] .fresh :=
  ⟨Nat.zero_le _, nodup_nil, fun _ => Iff.rfl, reads_fresh.values, rfl⟩

theorem note (h : Held before m) (st : Progress) (status : ParseStatus) :
    Held before (st.note status m).manifest := by
  cases status <;> first | exact h |
    exact ⟨h.room, h.nodup, h.names, fun f hf => by rw [← h.values f hf]; cases f <;> rfl, h.key⟩

end Held

theorem untilFull_full (h : ¬ (names before).length < maxVars) (ls : List Line) :
    untilFull before ls = [] := by
  cases ls with
  | nil => rfl
  | cons l ls => rw [untilFull, if_neg h]

theorem parseLoop_stopped (h : st.invalid = true) : parseLoop text st = some (st, text) := by
  rw [parseLoop, if_pos (by simp [h])]

/-- The loop has set what the lines say that come while there is room. -/
theorem parseLoop_held (h : Held before st.manifest) (hinv : st.invalid = false) (herr : st.error = false)
    (hrun : parseLoop text st = some (st', rest')) :
    Held (before ++ untilFull before (lines text)) st'.manifest := by
  fun_induction parseLoop text st generalizing before with
  | case1 text st hstop => simp [hinv, herr] at hstop
  | case2 text st hstop hend =>
    cases hrun
    rw [lines, if_pos hend]
    simpa [untilFull] using h
  | case3 text st hstop hend hline =>
    cases hrun
    rw [lines, if_neg hend]
    split
    · simpa [untilFull] using h
    · next heq => simp [hline] at heq
  | case4 => cases hrun
  | case5 text st hstop hend label value rest hline status m hfld ih =>
    rw [lines, if_neg hend]
    split
    · next heq => simp [hline] at heq
    next label' value' rest' heq =>
    rw [hline] at heq
    cases heq
    obtain ⟨status', m', hsome, hpar⟩ := parseField_parsed h.room label value
    cases hfld.symm.trans hsome
    by_cases hval : (fieldLabelIsValid label && fieldValueIsValid value) = true
    · rw [if_pos hval]
      have hl : Line.Valid ⟨label, value, false⟩ :=
        ⟨(Bool.and_eq_true_iff.mp hval).1, (Bool.and_eq_true_iff.mp hval).2⟩
      by_cases hover : status = .overflow
      · subst hover
        cases hpar with
        | unread _ _ _ _ hstat => split at hstat <;> cases hstat
        | full _ hfull =>
          rw [untilFull_full (by rw [← h.length_eq]; omega), append_nil]
          rw [parseLoop_stopped rfl] at hrun
          cases hrun
          exact h
      by_cases hroom : (names before).length < maxVars
      · rw [untilFull, if_pos hroom, append_cons]
        have hheld := h.step hl hpar hover
        refine ih (hheld.note st status) ?_ ?_ hrun
        · cases hpar with
          | refused hinvalid => exact absurd ⟨hl.label, hl.value⟩ hinvalid
          | full => exact absurd rfl hover
          | unread _ _ _ _ hstat => split at hstat <;> subst hstat <;> exact hinv
          | twice | known | unknown => exact hinv
        · rw [note_error st m (hpar.bounded h.room).1, herr]
      · rw [untilFull_full hroom, append_nil]
        rw [← h.length_eq] at hroom
        cases hpar with
        | refused hinvalid => exact absurd ⟨hl.label, hl.value⟩ hinvalid
        | full => exact absurd rfl hover
        | twice =>
          have hlater := ih (h.note st .duplicateField) hinv herr hrun
          rwa [untilFull_full (h.length_eq ▸ hroom), append_nil] at hlater
        | unread _ _ hless | known _ _ hless | unknown _ _ hless => exact absurd hless hroom
    · have hsyn : status = .syntaxError ∧ m = st.manifest := by
        rw [parseField] at hfld
        grind
      obtain ⟨rfl, rfl⟩ := hsyn
      rw [parseLoop_stopped rfl] at hrun
      cases hrun
      simpa [hval, untilFull] using h.note st .syntaxError


/-- **A text that is refused leaves the manifest as it was**, ready for the next text, exactly if the
lines before the failure, as far as there was room for them, have set only core fields. -/
theorem failed_parse_restores_iff (data : Text) (h : manifestParse .fresh data = some (1, m)) :
    (m = .fresh ∧ ready m = true) ↔ SetsCore (untilFull [] (lines data)) := by
  obtain ⟨st, rest, hloop, hpen, rfl⟩ := refused h
  have hheld := parseLoop_held Held.fresh rfl rfl hloop
  rw [nil_append] at hheld
  have hfresh : (st.manifest.clear = .fresh ∧ ready st.manifest.clear = true) ↔
      st.manifest.clear = .fresh := and_iff_left_of_imp fun heq => heq ▸ ready_fresh
  rw [hfresh, clear_eq_fresh hpen, SetsCore, ← hheld.key]
  have hvalue : ∀ f, f ≠ .bk → (st.manifest.value f = none ↔
      ∀ l ∈ untilFull [] (lines data), l.holds f = none) := by
    intro f hf
    rw [hheld.values f hf, holding, findSome?_eq_none_iff]
  constructor
  · intro hnone
    refine ⟨by rw [show st.manifest.bundleKey = none from hnone .bk rfl]; rfl, fun l hl f hcore hf => ?_⟩
    exact (hvalue f hf).mp (hnone f hcore) l hl
  · rintro ⟨hkey, hnone⟩ f hcore
    by_cases hf : f = .bk
    · subst hf
      exact Option.not_isSome_iff_eq_none.mp (Bool.eq_false_iff.mp hkey)
    · exact (hvalue f hf).mpr fun l hl => hnone l hl f hcore hf

/-- A version, and then a line that is not well formed. -/
theorem failed_parse_restores_version :
    manifestParse .fresh (ascii "version=1\nx") = some (1, .fresh) ∧
      SetsCore (untilFull [] (lines (ascii "version=1\nx"))) := by
  have hrun : manifestParse .fresh (ascii "version=1\nx") = some (1, .fresh) := by decide +kernel
  exact ⟨hrun, (failed_parse_restores_iff _ hrun).mp ⟨rfl, ready_fresh⟩⟩

/-- A date, and then a line that is not well formed: the date stays, and the next parse
fails an assertion. -/
theorem failed_parse_keeps_date :
    (manifestParse .fresh (ascii "date=5\nx")).map (fun r => (r.1, r.2.date, ready r.2)) =
      some (1, some 5, false) := by
  decide +kernel

end ManifestRestore
