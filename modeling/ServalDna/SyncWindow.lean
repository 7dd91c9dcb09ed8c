import Mathlib.Data.List.TakeWhile
import ServalDna.FoldRuns
import ServalDna.RhizomeSync

/-!
# The window has no holes

A list of the peer has all manifests between any two of its tokens. A window that is
extended along such a list, one entry after the other and from an entry next to it, is
left without a hole. Two steps break this. The window may start at a row number that
was seen in another list. And a list may begin with a token above all manifests, so
that manifests are added inside its range after it was sent.
-/
namespace SyncWindow

open FoldRuns RhizomeSync List
open Option hiding or_assoc

/-! ## Windows and chains -/

/-- What the node relies on in the rows of a database. -/
structure Rows (rows : List Row) : Prop where
  unique : ∀ a ∈ rows, ∀ b ∈ rows, a.rowid = b.rowid → a = b
  positive : ∀ row ∈ rows, 0 < row.rowid

variable {entries : List Entry} {db : Database}

theorem rows_of_database : Rows db.rows where
  unique _ ha _ hb hab :=
    inj_on_of_nodup_map (pairwise_map.mpr (db.sorted.imp ne_of_lt)) ha hb hab
  positive := db.positive

/-- The window of a node, all of whose manifests have been looked at. No manifest will
be added to it, since one has a row number at its end or above. -/
structure Window (rows : List Row) (st : Sync) : Prop where
  order : st.syncStart ≤ st.syncEnd
  bounded : ∃ row ∈ rows, st.syncEnd ≤ row.rowid
  covered : ∀ row ∈ rows, st.syncStart ≤ row.rowid → row.rowid ≤ st.syncEnd → row ∈ st.checked

/-- The BARs that are kept are those of manifests. -/
def Genuine (rows : List Row) (kept : List (Nat × Option Bar)) : Prop :=
  ∀ x ∈ kept, ∀ bar, x.2 = some bar → Row.mk x.1 bar ∈ rows

def Reach (rows : List Row) : Nat → Nat → List (Nat × Option Bar) → Prop
  | _, _, [] => True
  | s, e, x :: kept =>
    (x.1 < s ∧ (∀ row ∈ rows, x.1 < row.rowid → s ≤ row.rowid) ∧ Reach rows x.1 e kept) ∨
    (e < x.1 ∧ (∀ row ∈ rows, e < row.rowid → x.1 ≤ row.rowid) ∧ (∃ row ∈ rows, x.1 ≤ row.rowid) ∧
      Reach rows s x.1 kept)

theorem reach_nil (s e : Nat) : Reach rows s e [] := trivial

variable {r : Bool × Sync}

theorem Reach.left {e : Nat} {a b : List (Nat × Option Bar)} (h : Reach rows s e (a ++ b)) :
    Reach rows s e a := by
  induction a generalizing s e with
  | nil => trivial
  | cons x a ih =>
    rcases h with ⟨hlt, hgap, h⟩ | ⟨hlt, hgap, hrow, h⟩
    · exact .inl ⟨hlt, hgap, ih h⟩
    · exact .inr ⟨hlt, hgap, hrow, ih h⟩

/-- A falling list below the window that has all manifests of its range. -/
theorem reach_down {e : Nat} (hrest : ∀ s, Reach rows s e rest)
    (hord : kept.Pairwise fun a b => b.1 < a.1) (hbel : ∀ x ∈ kept, x.1 < s)
    (hall : ∀ row ∈ rows, ∀ x ∈ kept, x.1 ≤ row.rowid → row.rowid < s → ∃ y ∈ kept, y.1 = row.rowid) :
    Reach rows s e (kept ++ rest) := by
  induction kept generalizing s with
  | nil => exact hrest s
  | cons x kept ih =>
    obtain ⟨hx, hord⟩ := pairwise_cons.mp hord
    refine .inl ⟨hbel x mem_cons_self, ?_, ih hord hx ?_⟩
    · intro row hrow hlt
      by_contra hs
      obtain ⟨y, hy, heq⟩ := hall row hrow x mem_cons_self (by omega) (by omega)
      rcases mem_cons.mp hy with rfl | hy
      · omega
      have := hx y hy
      omega
    intro row hrow z hz hle hlt
    have hs := hbel x mem_cons_self
    obtain ⟨y, hy, heq⟩ := hall row hrow z (mem_cons_of_mem _ hz) hle (by omega)
    rcases mem_cons.mp hy with rfl | hy
    · omega
    · exact ⟨y, hy, heq⟩

/-- A rising list above the window that has all manifests of its range. -/
theorem reach_up (hrest : ∀ e, Reach rows s e rest) {e : Nat}
    (hord : kept.Pairwise fun a b => a.1 < b.1) (hab : ∀ x ∈ kept, e < x.1)
    (hbd : ∀ x ∈ kept, ∃ row ∈ rows, x.1 ≤ row.rowid)
    (hall : ∀ row ∈ rows, ∀ x ∈ kept, row.rowid ≤ x.1 → e < row.rowid → ∃ y ∈ kept, y.1 = row.rowid) :
    Reach rows s e (kept ++ rest) := by
  induction kept generalizing e with
  | nil => exact hrest e
  | cons x kept ih =>
    obtain ⟨hx, hord⟩ := pairwise_cons.mp hord
    have hb : ∀ z ∈ kept, ∃ row ∈ rows, z.1 ≤ row.rowid := fun z hz =>
      hbd z (mem_cons_of_mem _ hz)
    refine .inr ⟨hab x mem_cons_self, ?_, hbd x mem_cons_self, ih hord hx hb ?_⟩
    · intro row hrow hlt
      by_contra hs
      obtain ⟨y, hy, heq⟩ := hall row hrow x mem_cons_self (by omega) hlt
      rcases mem_cons.mp hy with rfl | hy
      · omega
      have := hx y hy
      omega
    intro row hrow z hz hle hlt
    have he := hab x mem_cons_self
    obtain ⟨y, hy, heq⟩ := hall row hrow z (mem_cons_of_mem _ hz) hle (by omega)
    rcases mem_cons.mp hy with rfl | hy
    · omega
    · exact ⟨y, hy, heq⟩

/-! ## Extending the window -/

/-- What one call of `sync_cache_bar` does when there is space for a BAR. -/
structure Cached (st st' : Sync) (token : Nat) (bar : Option Bar) : Prop where
  start : st'.syncStart = min st.syncStart token
  stop : st'.syncEnd = max st.syncEnd token
  keeps : st.checked ⊆ st'.checked
  checks : token ≠ 0 → ∃ b, bar = some b ∧ Row.mk token b ∈ st'.checked
  zero : token = 0 → st'.bars = st.bars

theorem checkBar_spec (h : checkBar intr st bar tok = some r) :
    r.2.syncStart = st.syncStart ∧ r.2.syncEnd = st.syncEnd ∧ st.checked ⊆ r.2.checked ∧
      (tok ≠ 0 → ∃ b, bar = some b ∧ Row.mk tok b ∈ r.2.checked) ∧
      (tok = 0 → r.2.bars = st.bars) := by
  unfold checkBar at h
  by_cases h0 : tok = 0
  · rw [if_pos h0, Option.some.injEq] at h
    subst h
    exact ⟨rfl, rfl, fun _ => id, fun hne => absurd h0 hne, fun _ => rfl⟩
  rw [if_neg h0] at h
  cases bar with
  | none => simp at h
  | some b =>
    by_cases hi : intr b = true <;> simp only [hi] at h <;> cases h <;>
      simp [h0]

theorem syncCacheBar_spec (h : syncCacheBar intr now st bar tok = some r) :
    (cacheBars ≤ st.bars.length ∧ r.2 = st) ∨
      (¬cacheBars ≤ st.bars.length ∧ Cached st r.2 tok bar) := by
  unfold syncCacheBar at h
  by_cases hfull : cacheBars ≤ st.bars.length
  · rw [if_pos hfull, Option.some.injEq] at h
    exact .inl ⟨hfull, by rw [← h]⟩
  rw [if_neg hfull] at h
  obtain ⟨c, hc, rfl⟩ := map_eq_some_iff.mp h
  obtain ⟨hs, he, hk, hch, hz⟩ := checkBar_spec hc
  refine .inr ⟨hfull, ?_⟩
  have hend : (extendEnd now c.2 tok).2.syncEnd = max st.syncEnd tok ∧
      (extendEnd now c.2 tok).2.syncStart = st.syncStart ∧
      (extendEnd now c.2 tok).2.checked = c.2.checked ∧
      (extendEnd now c.2 tok).2.bars = c.2.bars := by
    unfold extendEnd
    split
    · simp [countBar, hs]; omega
    · simp [hs, he]; omega
  obtain ⟨he1, hs1, hk1, hb1⟩ := hend
  have hst : (extendStart now (extendEnd now c.2 tok).2 tok).2.syncStart =
        min st.syncStart tok ∧
      (extendStart now (extendEnd now c.2 tok).2 tok).2.syncEnd = max st.syncEnd tok ∧
      (extendStart now (extendEnd now c.2 tok).2 tok).2.checked = c.2.checked ∧
      (extendStart now (extendEnd now c.2 tok).2 tok).2.bars = c.2.bars := by
    unfold extendStart
    split
    · simp [countBar, he1, hk1, hb1]; omega
    · simp [he1, hs1, hk1, hb1]; omega
  obtain ⟨hs2, he2, hk2, hb2⟩ := hst
  exact ⟨hs2, he2, by simpa only [hk2] using hk, by simpa only [hk2] using hch,
    by simpa only [hb2] using hz⟩

/-- A full cache ends the loop. -/
theorem cacheFrom_full (hfull : cacheBars ≤ st.bars.length)
    (h : cacheFrom intr now added st kept = some r) : r.2 = st := by
  induction kept generalizing added with
  | nil => cases h; rfl
  | cons x kept ih =>
    simp only [cacheFrom, syncCacheBar, if_pos hfull, bind_some] at h
    exact ih h

/-- One entry next to the window. -/
theorem window_step (hrows : Rows rows) {x : Nat × Option Bar} (hw : Window rows st)
    (hgen : ∀ bar, x.2 = some bar → Row.mk x.1 bar ∈ rows) (hc : Cached st st' x.1 x.2)
    (hnext : ∀ row ∈ rows, min st.syncStart x.1 ≤ row.rowid → row.rowid ≤ max st.syncEnd x.1 →
      row.rowid = x.1 ∨ (st.syncStart ≤ row.rowid ∧ row.rowid ≤ st.syncEnd))
    (hbd : ∃ row ∈ rows, max st.syncEnd x.1 ≤ row.rowid) : Window rows st' where
  order := by
    rw [hc.start, hc.stop]
    omega
  bounded := by rw [hc.stop]; exact hbd
  covered := by
    intro row hrow hs he
    rw [hc.start] at hs
    rw [hc.stop] at he
    rcases hnext row hrow hs he with heq | ⟨hs, he⟩
    · have hpos := hrows.positive row hrow
      obtain ⟨b, hb, hmem⟩ := hc.checks (by omega)
      rw [hrows.unique row hrow _ (hgen b hb) heq]
      exact hmem
    · exact hc.keeps (hw.covered row hrow hs he)

/-- The loop over a chain of entries leaves no hole. -/
theorem window_run (hrows : Rows rows) (hw : Window rows st) (hne : st.syncEnd ≠ 0)
    (hrch : Reach rows st.syncStart st.syncEnd kept) (hgen : Genuine rows kept)
    (h : cacheFrom intr now added st kept = some r) : Window rows r.2 ∧ r.2.syncEnd ≠ 0 := by
  induction kept generalizing st added with
  | nil => cases h; exact ⟨hw, hne⟩
  | cons x kept ih =>
    obtain ⟨c, hc, hrun⟩ := bind_eq_some_iff.mp h
    have hgx := hgen x mem_cons_self
    have hgk : Genuine rows kept := fun y hy => hgen y (mem_cons_of_mem _ hy)
    have hord := hw.order
    rcases syncCacheBar_spec hc with ⟨hfull, heq⟩ | ⟨_, hcch⟩
    · rw [heq] at hrun
      rw [cacheFrom_full hfull hrun]
      exact ⟨hw, hne⟩
    have hst := hcch.start
    have hstop := hcch.stop
    rcases hrch with ⟨hlt, hgap, hrch⟩ | ⟨hlt, hgap, hrow, hrch⟩
    · rw [min_eq_right (by omega)] at hst
      rw [max_eq_left (by omega)] at hstop
      refine ih (window_step hrows hw hgx hcch ?_ ?_) (by omega) ?_ hgk hrun
      · intro row hrow hs he
        have := hgap row hrow
        omega
      · rw [max_eq_left (by omega)]
        exact hw.bounded
      rw [hst, hstop]
      exact hrch
    rw [min_eq_left (by omega)] at hst
    rw [max_eq_right (by omega)] at hstop
    refine ih (window_step hrows hw hgx hcch ?_ ?_) (by omega) ?_ hgk hrun
    · intro row hrow hs he
      have := hgap row hrow
      omega
    · rw [max_eq_right (by omega)]
      exact hrow
    rw [hst, hstop]
    exact hrch

theorem cacheFrom_append (added : Bool) (st : Sync) (a b : List (Nat × Option Bar)) :
    cacheFrom intr now added st (a ++ b) =
      (cacheFrom intr now added st a).bind fun r => cacheFrom intr now r.1 r.2 b := by
  induction a generalizing added st with
  | nil => rfl
  | cons x a ih =>
    simp only [cons_append, cacheFrom, bind_assoc]
    congr 1
    funext r
    exact ih _ _

/-- The second loop does what the first would do on the entries it gets to. -/
theorem cacheBack_run (h : cacheBack intr now added st kept = some r) :
    ∃ a b, kept = a ++ b ∧ cacheFrom intr now added st a = some r := by
  induction kept generalizing added st with
  | nil => exact ⟨[], [], rfl, h⟩
  | cons x kept ih =>
    unfold cacheBack at h
    by_cases hold : maxOldBars ≤ st.bars.length
    · rw [if_pos hold] at h
      exact ⟨[], x :: kept, rfl, h⟩
    rw [if_neg hold] at h
    obtain ⟨c, hc, hrun⟩ := bind_eq_some_iff.mp h
    obtain ⟨a, b, hab, ha⟩ := ih hrun
    refine ⟨x :: a, b, by rw [hab, cons_append], ?_⟩
    rw [cacheFrom, hc]
    exact ha

/-- Both loops together go through the entries from the middle outwards; the second may
stop early. -/
theorem extend_run (h : extend intr now st kept mid = some st') :
    ∃ a b r, (kept.take mid).reverse = a ++ b ∧
      cacheFrom intr now false st (kept.drop mid ++ a) = some r ∧
      (st' = r.2 ∨ st' = { r.2 with nextRequest := now }) := by
  obtain ⟨c, hc, h⟩ := bind_eq_some_iff.mp h
  obtain ⟨d, hd, h⟩ := bind_eq_some_iff.mp h
  obtain ⟨a, b, hab, ha⟩ := cacheBack_run hd
  refine ⟨a, b, d, hab, ?_, ?_⟩
  · rw [cacheFrom_append, hc]
    exact ha
  cases h
  by_cases hadd : d.1 = true
  · exact .inr (if_pos hadd)
  · exact .inl (if_neg hadd)

/-! ## Reading a list -/

/-- The fields that reading a list leaves as they are. -/
structure Quiet (st st' : Sync) : Prop where
  start : st'.syncStart = st.syncStart
  stop : st'.syncEnd = st.syncEnd
  bars : st'.bars = st.bars
  checked : st'.checked = st.checked

theorem Quiet.trans {a b c : Sync} (h : Quiet a b) (h' : Quiet b c) : Quiet a c :=
  ⟨h'.start.trans h.start, h'.stop.trans h.stop, h'.bars.trans h.bars, h'.checked.trans h.checked⟩

theorem noteHighest_quiet (now : Nat) (st : Sync) (tok : Nat) : Quiet st (noteHighest now st tok) := by
  unfold noteHighest
  split <;> exact ⟨rfl, rfl, rfl, rfl⟩

theorem noteHighest_highest : (noteHighest now st token).highestSeen = max st.highestSeen token := by
  unfold noteHighest
  split
  · dsimp only
    omega
  · omega

def pair (e : Entry) : Nat × Option Bar := (e.token, e.known)

theorem scanEntry_kept (now : Nat) (s : Scan) (e : Entry) :
    (scanEntry now s e).kept.length ≤ s.kept.length + 1 := by
  unfold scanEntry
  dsimp only
  split
  · split <;> simp
  · simp

/-- A list is short enough to be read to its end. -/
theorem scan_eq_foldl {s : Scan} (h : s.kept.length + entries.length ≤ barsPerResponse) :
    scan now s entries = entries.foldl (scanEntry now) s := by
  induction entries generalizing s with
  | nil => rfl
  | cons e entries ih =>
    rw [length_cons] at h
    have hk := scanEntry_kept now s e
    rw [scan, if_pos (by omega), foldl_cons]
    exact ih (by omega)

/-- Without a window all entries are kept. -/
structure Idle (s s' : Scan) (entries : List Entry) : Prop where
  quiet : Quiet s.sync s'.sync
  kept : s'.kept = s.kept ++ entries.map pair
  mid : s'.mid = s.mid
  flagBefore : s'.hasBefore = s.hasBefore
  flagAfter : s'.hasAfter = s.hasAfter
  highest : s'.sync.highestSeen = entries.foldl (fun m e => max m e.token) s.sync.highestSeen

theorem scan_idle (now : Nat) {s : Scan} (h0 : s.sync.syncEnd = 0) (entries : List Entry) :
    Idle s (entries.foldl (scanEntry now) s) entries := by
  induction entries generalizing s with
  | nil => exact ⟨⟨rfl, rfl, rfl, rfl⟩, (append_nil _).symm, rfl, rfl, rfl, rfl⟩
  | cons e entries ih =>
    have hq := noteHighest_quiet now s.sync e.token
    have hstep : scanEntry now s e =
        { s with sync := noteHighest now s.sync e.token, kept := s.kept ++ [pair e] } := by
      unfold scanEntry
      rw [if_neg (by rw [hq.stop, h0]; exact fun h => h rfl)]
      rfl
    have hrest := ih (s := scanEntry now s e) (by rw [hstep]; exact hq.stop.trans h0)
    rw [hstep] at hrest
    rw [foldl_cons, hstep]
    refine ⟨hq.trans hrest.quiet, ?_, hrest.mid, hrest.flagBefore, hrest.flagAfter, ?_⟩
    · rw [hrest.kept, map_cons, append_assoc, singleton_append]
    · rw [hrest.highest, noteHighest_highest, foldl_cons]

/-- The entries of a list lie on one side of the window: `before` its end, `after` its
start, or both. -/
def Side (st : Sync) (before after : Bool) (entries : List Entry) : Prop :=
  ∀ e ∈ entries, decide (e.token ≤ st.syncEnd) = before ∧ decide (st.syncStart ≤ e.token) = after

/-- What entries of one side do to the variables of the loop. -/
structure Phase (s s' : Scan) (before after : Bool) (entries : List Entry) : Prop where
  quiet : Quiet s.sync s'.sync
  kept : s'.kept = s.kept ++ if before && after then [] else entries.map pair
  flagBefore : s'.hasBefore = (s.hasBefore || (before && !entries.isEmpty))
  flagAfter : s'.hasAfter = (s.hasAfter || (after && !entries.isEmpty))
  mid : s'.mid = if !(before && after) && !entries.isEmpty && s.mid.isNone && (s.hasBefore || before) &&
      (s.hasAfter || after) then some s.kept.length else s.mid

theorem scan_phase (now : Nat) {s : Scan} (hne : s.sync.syncEnd ≠ 0) {before after : Bool}
    (hside : Side s.sync before after entries) :
    Phase s (entries.foldl (scanEntry now) s) before after entries := by
  induction entries generalizing s with
  | nil => exact ⟨⟨rfl, rfl, rfl, rfl⟩, by simp, by simp, by simp, by simp⟩
  | cons e entries ih =>
    obtain ⟨hb, ha⟩ := hside e mem_cons_self
    have hq := noteHighest_quiet now s.sync e.token
    have hstep : Phase s (scanEntry now s e) before after [e] := by
      unfold scanEntry
      rw [if_pos (by rw [hq.stop]; exact hne), hq.stop, hq.start, hb, ha]
      cases before <;> cases after <;> simp only [decide_eq_true_eq, decide_eq_false_iff_not] at hb ha <;>
        simp [hb, ha]
      all_goals
        constructor
        · exact hq
        all_goals cases s.mid <;> simp [pair]
    have hside' : Side (scanEntry now s e).sync before after entries := by
      intro e' he'
      rw [hstep.quiet.stop, hstep.quiet.start]
      exact hside e' (mem_cons_of_mem _ he')
    have hrest := ih (by rw [hstep.quiet.stop]; exact hne) hside'
    rw [foldl_cons]
    refine ⟨hstep.quiet.trans hrest.quiet, ?_, ?_, ?_, ?_⟩
    · rw [hrest.kept, hstep.kept]
      cases before <;> cases after <;> simp
    · rw [hrest.flagBefore, hstep.flagBefore]
      cases before <;> simp
    · rw [hrest.flagAfter, hstep.flagAfter]
      cases after <;> simp
    rw [hrest.mid, hstep.mid, hstep.flagBefore, hstep.flagAfter, hstep.kept]
    cases before <;> cases after <;> cases s.mid <;> cases s.hasBefore <;> cases s.hasAfter <;> simp

/-- The list passes the window from one side to the other; `side` is true if it comes
from below. -/
structure Passes (st : Sync) (side : Bool) (entries a i b : List Entry) : Prop where
  split : entries = a ++ i ++ b
  first : Side st side (!side) a
  inner : Side st true true i
  last : Side st (!side) side b

theorem dropWhile_none (hp : ∀ x y, R x y → p y = true → p x = true) {l : List Entry}
    (h : l.Pairwise R) : ∀ x ∈ l.dropWhile p, p x = false := by
  induction h with
  | nil => exact nofun
  | @cons x l hx _ ih =>
    intro y hy
    by_cases hpx : p x = true
    · rw [dropWhile_cons_of_pos hpx] at hy
      exact ih y hy
    rw [dropWhile_cons_of_neg hpx] at hy
    rcases mem_cons.mp hy with rfl | hy
    · exact Bool.eq_false_iff.mpr hpx
    · exact Bool.eq_false_iff.mpr fun hpy => hpx (hp x y (hx y hy) hpy)

theorem passes_of_pairwise (hord : st.syncStart ≤ st.syncEnd) (side : Bool) {R : Entry → Entry → Prop}
    (hR : ∀ x y, R x y → if side then x.token < y.token else y.token < x.token)
    (h : entries.Pairwise R) : ∃ a i b, Passes st side entries a i b := by
  -- the first entries are those outside on the side from which the list comes
  let outer : Entry → Bool := fun e =>
    if side then decide (e.token < st.syncStart) else decide (st.syncEnd < e.token)
  let inner : Entry → Bool := fun e =>
    if side then decide (e.token ≤ st.syncEnd) else decide (st.syncStart ≤ e.token)
  have houter : ∀ x y, R x y → outer y = true → outer x = true := by
    intro x y hxy
    have := hR x y hxy
    cases side <;> simp [outer] at this ⊢ <;> omega
  have hinner : ∀ x y, R x y → inner y = true → inner x = true := by
    intro x y hxy
    have := hR x y hxy
    cases side <;> simp [inner] at this ⊢ <;> omega
  have hdrop := dropWhile_none houter h
  have hsub : (entries.dropWhile outer).Pairwise R := h.sublist (dropWhile_sublist _)
  have hlast := dropWhile_none hinner hsub
  refine ⟨entries.takeWhile outer, (entries.dropWhile outer).takeWhile inner,
    (entries.dropWhile outer).dropWhile inner, ?_, ?_, ?_, ?_⟩
  · rw [append_assoc, takeWhile_append_dropWhile, takeWhile_append_dropWhile]
  · intro e he
    have := mem_takeWhile_imp he
    cases side <;> simp [outer] at this ⊢ <;> omega
  · intro e he
    have h1 := mem_takeWhile_imp he
    have h2 := hdrop e ((takeWhile_sublist _).subset he)
    cases side <;> simp [outer, inner] at h1 h2 ⊢ <;> omega
  intro e he
  have h1 := hlast e he
  cases side <;> simp [inner] at h1 ⊢ <;> omega

/-- A list that has entries inside the window, or on both sides of it, has one that is
not after its end and one that is not before its start. -/
theorem Passes.touches (h : Passes st side entries a i b) (htouch : i ≠ [] ∨ (a ≠ [] ∧ b ≠ [])) :
    (∃ e ∈ entries, e.token ≤ st.syncEnd) ∧ ∃ e ∈ entries, st.syncStart ≤ e.token := by
  rw [h.split]
  rcases htouch with hi | ⟨ha, hb⟩
  · obtain ⟨e, he⟩ := exists_mem_of_ne_nil i hi
    obtain ⟨hbef, haft⟩ := h.inner e he
    exact ⟨⟨e, by simp [he], of_decide_eq_true hbef⟩, ⟨e, by simp [he], of_decide_eq_true haft⟩⟩
  obtain ⟨x, hx⟩ := exists_mem_of_ne_nil a ha
  obtain ⟨y, hy⟩ := exists_mem_of_ne_nil b hb
  have hfst := h.first x hx
  have hlast := h.last y hy
  cases side with
  | true =>
    exact ⟨⟨x, by simp [hx], of_decide_eq_true hfst.1⟩, ⟨y, by simp [hy], of_decide_eq_true hlast.2⟩⟩
  | false =>
    exact ⟨⟨y, by simp [hy], of_decide_eq_true hlast.1⟩, ⟨x, by simp [hx], of_decide_eq_true hfst.2⟩⟩

theorem middle_last (l : List (Nat × Option Bar)) :
    l.drop (l.length - 1) ++ (l.take (l.length - 1)).reverse = l.reverse := by
  induction l using List.reverseRecOn with
  | nil => rfl
  | append_singleton l x _ => simp

/-- The entries are gone through from the far side of the window on, and then back from
the near side, if the list has entries before the end and after the start. -/
theorem midPoint_passes {s : Scan}
    (hs : s.kept = [] ∧ s.hasBefore = false ∧ s.hasAfter = false ∧ s.mid = none)
    (hne : s.sync.syncEnd ≠ 0) (h : Passes s.sync side entries a i b) :
    Quiet s.sync (entries.foldl (scanEntry now) s).sync ∧
    ∀ mid, midPoint (entries.foldl (scanEntry now) s) = some mid →
      (∃ e ∈ entries, e.token ≤ s.sync.syncEnd) ∧ (∃ e ∈ entries, s.sync.syncStart ≤ e.token) ∧
      (entries.foldl (scanEntry now) s).kept.drop mid ++
        ((entries.foldl (scanEntry now) s).kept.take mid).reverse =
          b.map pair ++ (a.map pair).reverse := by
  obtain ⟨hk0, hb0, ha0, hm0⟩ := hs
  have h1 := scan_phase now hne h.first
  generalize hs1 : a.foldl (scanEntry now) s = s1 at h1
  have hne1 : s1.sync.syncEnd ≠ 0 := by rw [h1.quiet.stop]; exact hne
  have hin : Side s1.sync true true i := by
    intro e he; rw [h1.quiet.stop, h1.quiet.start]; exact h.inner e he
  have h2 := scan_phase now hne1 hin
  generalize hs2 : i.foldl (scanEntry now) s1 = s2 at h2
  have hne2 : s2.sync.syncEnd ≠ 0 := by rw [h2.quiet.stop]; exact hne1
  have hla : Side s2.sync (!side) side b := by
    intro e he
    rw [h2.quiet.stop, h2.quiet.start, h1.quiet.stop, h1.quiet.start]
    exact h.last e he
  have h3 := scan_phase now hne2 hla
  have hfold : entries.foldl (scanEntry now) s = b.foldl (scanEntry now) s2 := by
    rw [h.split, foldl_append, foldl_append, hs1, hs2]
  rw [hfold]
  generalize b.foldl (scanEntry now) s2 = s3 at h3
  refine ⟨(h1.quiet.trans h2.quiet).trans h3.quiet, ?_⟩
  have hkept : s3.kept = a.map pair ++ b.map pair := by
    rw [h3.kept, h2.kept, h1.kept, hk0]
    cases side <;> simp
  have hbef : s3.hasBefore = ((side && !a.isEmpty) || !i.isEmpty || (!side && !b.isEmpty)) := by
    rw [h3.flagBefore, h2.flagBefore, h1.flagBefore, hb0]
    cases side <;> simp
  have haft : s3.hasAfter = ((!side && !a.isEmpty) || !i.isEmpty || (side && !b.isEmpty)) := by
    rw [h3.flagAfter, h2.flagAfter, h1.flagAfter, ha0]
    cases side <;> simp
  have hmid : s3.mid = if !b.isEmpty && (!a.isEmpty || !i.isEmpty) then some a.length else none := by
    rw [h3.mid, h2.mid, h1.mid, h2.flagBefore, h2.flagAfter, h1.flagBefore, h1.flagAfter, h2.kept,
      h1.kept, hk0, hb0, ha0, hm0]
    cases side <;> cases a <;> cases i <;> cases b <;> simp
  intro mid hmp
  have hcase : (i ≠ [] ∨ (a ≠ [] ∧ b ≠ [])) ∧ (mid = a.length ∨ (b = [] ∧ mid = a.length - 1)) := by
    unfold midPoint at hmp
    cases side <;> cases a <;> cases i <;> cases b <;> simp_all
  obtain ⟨htouch, hpos⟩ := hcase
  obtain ⟨hbef, haft⟩ := h.touches htouch
  refine ⟨hbef, haft, ?_⟩
  rw [hkept]
  rcases hpos with rfl | ⟨rfl, rfl⟩
  · rw [drop_left' (length_map _), take_left' (length_map _)]
  have hlast := middle_last (a.map pair)
  rw [length_map] at hlast
  rw [map_nil, append_nil, nil_append]
  exact hlast

/-! ## Receiving a list -/

/-- A list that the peer may have sent. -/
structure Fair (rows : List Row) (entries : List Entry) : Prop where
  order : entries.Pairwise (fun a b => b.token < a.token) ∨ entries.Pairwise fun a b => a.token < b.token
  complete : ∀ row ∈ rows, ∀ a ∈ entries, ∀ b ∈ entries, a.token ≤ row.rowid → row.rowid ≤ b.token →
    row.entry ∈ entries
  genuine : ∀ e ∈ entries, e.bar ≠ noBar → Row.mk e.token e.bar ∈ rows
  bounded : ∀ e ∈ entries, ∃ row ∈ rows, e.token ≤ row.rowid
  short : entries.length ≤ barsPerResponse

theorem genuine_pairs (h : Fair rows entries) : Genuine rows (entries.map pair) := by
  intro x hx bar hbar
  obtain ⟨e, he, rfl⟩ := List.mem_map.mp hx
  simp only [pair, Entry.known] at hbar ⊢
  by_cases hno : e.bar = noBar
  · rw [if_pos hno] at hbar
    cases hbar
  rw [if_neg hno, Option.some.injEq] at hbar
  rw [← hbar]
  exact h.genuine e he hno

/-- What holds of the node between two lists. -/
structure Inv (rows : List Row) (st : Sync) : Prop where
  idle : st.syncEnd = 0 → st.bars = []
  window : st.syncEnd ≠ 0 → Window rows st

theorem Window.quiet (h : Window rows st) (hq : Quiet st st') : Window rows st' where
  order := by rw [hq.start, hq.stop]; exact h.order
  bounded := by rw [hq.stop]; exact h.bounded
  covered := by rw [hq.start, hq.stop, hq.checked]; exact h.covered

theorem Inv.quiet (h : Inv rows st) (hq : Quiet st st') : Inv rows st' where
  idle := by rw [hq.stop, hq.bars]; exact h.idle
  window := by rw [hq.stop]; exact fun hne => (h.window hne).quiet hq

theorem Window.inv (h : Window rows st) (hne : st.syncEnd ≠ 0) : Inv rows st :=
  ⟨fun h0 => absurd h0 hne, fun _ => h⟩

theorem inv_zero : Inv rows (.zero now) :=
  ⟨fun _ => rfl, fun h => absurd rfl h⟩

theorem inv_restart (h : Inv rows st) : Inv rows (restart now st) := by
  unfold restart
  split
  · exact inv_zero
  · exact h

theorem mem_of_map_pair (hx : x ∈ entries.map pair) : ∃ e ∈ entries, e.token = x.1 := by
  obtain ⟨e, he, rfl⟩ := List.mem_map.mp hx
  exact ⟨e, he, rfl⟩

theorem pairwise_pairs {R : Nat → Nat → Prop} (h : entries.Pairwise fun a b => R a.token b.token) :
    (entries.map pair).Pairwise fun a b => R a.1 b.1 :=
  pairwise_map.mpr h

theorem Passes.mem (h : Passes st side entries a i b) : e ∈ entries ↔ e ∈ a ∨ e ∈ i ∨ e ∈ b := by
  rw [h.split, mem_append, mem_append, or_assoc]

/-- The entries below the window are those on one side of it, those above it those on the
other. -/
theorem Passes.sides (h : Passes st side entries a i b) (he : e ∈ entries) :
    (e.token < st.syncStart ↔ e ∈ if side then a else b) ∧
      (st.syncEnd < e.token ↔ e ∈ if side then b else a) := by
  have hfst := h.first e
  have hinner := h.inner e
  have hlast := h.last e
  rw [h.mem] at he
  constructor
  all_goals
    constructor
    · intro hlt
      cases side <;> rcases he with ha | hi | hb <;> simp_all <;> omega
    intro hmem
    cases side <;> simp_all

section Chains

variable {st : Sync} {entries part : List Entry} (hfair : Fair rows entries)
include hfair

/-- The entries below the window, in falling order, are a chain down from it. -/
theorem reach_below (hmem : ∀ e, e ∈ part ↔ e ∈ entries ∧ e.token < st.syncStart)
    (hord : part.Pairwise fun a b => b.token < a.token)
    (haft : ∃ e ∈ entries, st.syncStart ≤ e.token) {e : Nat} (hrest : ∀ s, Reach rows s e rest) :
    Reach rows st.syncStart e (part.map pair ++ rest) := by
  refine reach_down hrest (pairwise_pairs (R := fun x y => y < x) hord) ?_ ?_
  · intro x hx
    obtain ⟨c, hc, heq⟩ := mem_of_map_pair hx
    rw [← heq]
    exact ((hmem c).mp hc).2
  intro row hrow x hx hle hlt
  obtain ⟨c, hc, heq⟩ := mem_of_map_pair hx
  obtain ⟨d, hd, hds⟩ := haft
  have hin := hfair.complete row hrow c ((hmem c).mp hc).1 d hd (by omega) (by omega)
  exact ⟨pair row.entry, List.mem_map_of_mem ((hmem _).mpr ⟨hin, hlt⟩), rfl⟩

/-- The entries above the window, in rising order, are a chain up from it. -/
theorem reach_above (hmem : ∀ e, e ∈ part ↔ e ∈ entries ∧ st.syncEnd < e.token)
    (hord : part.Pairwise fun a b => a.token < b.token)
    (hbef : ∃ e ∈ entries, e.token ≤ st.syncEnd) (hrest : ∀ e, Reach rows s e rest) :
    Reach rows s st.syncEnd (part.map pair ++ rest) := by
  refine reach_up hrest (pairwise_pairs hord) ?_ ?_ ?_
  · intro x hx
    obtain ⟨c, hc, heq⟩ := mem_of_map_pair hx
    rw [← heq]
    exact ((hmem c).mp hc).2
  · intro x hx
    obtain ⟨c, hc, heq⟩ := mem_of_map_pair hx
    rw [← heq]
    exact hfair.bounded c ((hmem c).mp hc).1
  intro row hrow x hx hle hlt
  obtain ⟨c, hc, heq⟩ := mem_of_map_pair hx
  obtain ⟨d, hd, hds⟩ := hbef
  have hin := hfair.complete row hrow d hd c ((hmem c).mp hc).1 (by omega) (by omega)
  exact ⟨pair row.entry, List.mem_map_of_mem ((hmem _).mpr ⟨hin, hlt⟩), rfl⟩

/-- A list that touches the window is gone through in chains that start next to it. -/
theorem reach_passes
    (hpw : entries.Pairwise fun x y => if side then x.token < y.token else y.token < x.token)
    (h : Passes st side entries a i b) (hbef : ∃ e ∈ entries, e.token ≤ st.syncEnd)
    (haft : ∃ e ∈ entries, st.syncStart ≤ e.token) :
    Reach rows st.syncStart st.syncEnd (b.map pair ++ (a.map pair).reverse) := by
  have hsub : ∀ e, e ∈ (if side then a else b) ∨ e ∈ (if side then b else a) → e ∈ entries := by
    intro e he
    rw [h.mem]
    cases side <;> simp only [if_true, Bool.false_eq_true, if_false] at he <;> tauto
  have hbel : ∀ e, e ∈ (if side then a else b) ↔ e ∈ entries ∧ e.token < st.syncStart := fun e =>
    ⟨fun he => ⟨hsub e (.inl he), (h.sides (hsub e (.inl he))).1.mpr he⟩,
      fun he => (h.sides he.1).1.mp he.2⟩
  have hab : ∀ e, e ∈ (if side then b else a) ↔ e ∈ entries ∧ st.syncEnd < e.token := fun e =>
    ⟨fun he => ⟨hsub e (.inr he), (h.sides (hsub e (.inr he))).2.mpr he⟩,
      fun he => (h.sides he.1).2.mp he.2⟩
  have hpa : a.Pairwise _ := hpw.sublist (by
    rw [h.split, append_assoc]
    exact sublist_append_left _ _)
  have hpb : b.Pairwise _ := hpw.sublist (by
    rw [h.split]
    exact sublist_append_right _ _)
  rw [← map_reverse, ← append_nil (List.map pair a.reverse)]
  cases side with
  | false =>
    refine reach_below hfair hbel hpb haft fun s => ?_
    exact reach_above hfair (fun e => mem_reverse.trans (hab e))
      (pairwise_reverse.mpr hpa) hbef fun e => reach_nil s e
  | true =>
    refine reach_above hfair hab hpb hbef fun e => ?_
    exact reach_below hfair (fun e => mem_reverse.trans (hbel e))
      (pairwise_reverse.mpr hpa) haft fun s => reach_nil s e

end Chains

theorem inv_of_run (hinv : Inv rows r.2) (h : st' = r.2 ∨ st' = { r.2 with nextRequest := now }) :
    Inv rows st' := by
  rcases h with rfl | rfl
  · exact hinv
  · exact hinv.quiet ⟨rfl, rfl, rfl, rfl⟩

/-- A list that is received when there is a window. -/
theorem inv_extend (hrows : Rows rows) (hfair : Fair rows entries) (hw : Window rows st)
    (hne : st.syncEnd ≠ 0)
    (h : processScan intr now (entries.foldl (scanEntry now) (.init st)) = some st') :
    Inv rows st' := by
  have hsides : ∃ side a i b, Passes st side entries a i b ∧
      entries.Pairwise fun x y => if side then x.token < y.token else y.token < x.token := by
    rcases hfair.order with hdown | hup
    · obtain ⟨a, i, b, hp⟩ := passes_of_pairwise hw.order false (fun _ _ h => h) hdown
      exact ⟨false, a, i, b, hp, hdown⟩
    obtain ⟨a, i, b, hp⟩ := passes_of_pairwise hw.order true (fun _ _ h => h) hup
    exact ⟨true, a, i, b, hp, hup⟩
  obtain ⟨side, a, i, b, hp, hpw⟩ := hsides
  obtain ⟨hq, hmid⟩ := midPoint_passes (s := .init st) ⟨rfl, rfl, rfl, rfl⟩ hne hp
  generalize entries.foldl (scanEntry now) (.init st) = s at h hq hmid
  have hws : Window rows s.sync := hw.quiet hq
  have hns : s.sync.syncEnd ≠ 0 := by rw [hq.stop]; exact hne
  have hbeg : begin s = (s.sync, midPoint s) := by simp [begin, starts, hns]
  rw [processScan, hbeg] at h
  cases hm : midPoint s with
  | none =>
    rw [hm] at h
    cases h
    exact hws.inv hns
  | some mid =>
    rw [hm] at h
    dsimp only at h
    by_cases hkept : s.kept = []
    · rw [if_pos hkept, Option.some.injEq] at h
      rw [← h]
      exact hws.inv hns
    rw [if_neg hkept] at h
    obtain ⟨hbef, haft, hseq⟩ := hmid mid hm
    obtain ⟨c, d, r, hcd, hrun, hst⟩ := extend_run h
    rw [hcd, ← append_assoc] at hseq
    have hrch := reach_passes hfair hpw hp hbef haft
    rw [← hseq] at hrch
    have hgen : Genuine rows (s.kept.drop mid ++ c) := by
      intro x hx
      apply genuine_pairs hfair
      have hmem : x ∈ b.map pair ++ (a.map pair).reverse := by
        rw [← hseq]
        exact mem_append_left d hx
      rw [hp.split]
      simp only [map_append, mem_append, mem_reverse] at hmem ⊢
      tauto
    have hrch' : Reach rows s.sync.syncStart s.sync.syncEnd (s.kept.drop mid ++ c) := by
      rw [hq.start, hq.stop]
      exact hrch.left
    obtain ⟨hwr, hnr⟩ := window_run hrows hws hns hrch' hgen hrun
    exact inv_of_run (hwr.inv hnr) hst

/-- The first call with a window: it has the row number of the entry only. -/
theorem window_first (hrows : Rows rows) (hfair : Fair rows entries) (he : e ∈ entries)
    (hs : st.syncStart = e.token) (hend : st.syncEnd = e.token) (hne : e.token ≠ 0)
    (hc : Cached st st' e.token e.known) : Window rows st' where
  order := by rw [hc.start, hc.stop]; omega
  bounded := by
    rw [hc.stop, hend, Nat.max_self]
    exact hfair.bounded e he
  covered := by
    intro row hrow hle hge
    rw [hc.start] at hle
    rw [hc.stop] at hge
    obtain ⟨bar, hbar, hmem⟩ := hc.checks hne
    have hgen := genuine_pairs hfair (pair e) (List.mem_map_of_mem he) bar hbar
    rw [hrows.unique row hrow _ hgen (by simp only [pair]; omega)]
    exact hmem

/-- In a falling list the first token is the highest. -/
theorem foldl_max_first (hm : m ≤ e.token) (hlt : ∀ x ∈ entries, x.token < e.token) :
    (e :: entries).foldl (fun m e => max m e.token) m = e.token := by
  rw [foldl_cons, max_eq_right hm]
  induction entries with
  | nil => rfl
  | cons x entries ih =>
    rw [foldl_cons, max_eq_left (le_of_lt (hlt x mem_cons_self))]
    exact ih fun y hy => hlt y (mem_cons_of_mem _ hy)

/-- A rising list of two entries or more does not start the window. -/
theorem falling_of_starts (hfair : Fair rows entries)
    (h : ∀ a ∈ entries.head?, ∀ b ∈ entries.getLast?, b.token ≤ a.token) :
    entries.Pairwise fun a b => b.token < a.token := by
  rcases hfair.order with hdown | hup
  · exact hdown
  cases entries with
  | nil => exact List.Pairwise.nil
  | cons e rest =>
    cases rest using List.reverseRecOn with
    | nil => exact pairwise_singleton _ _
    | append_singleton rest x =>
      have hlt := (pairwise_cons.mp hup).1 x (by simp)
      have hle := h e (by simp) x (getLast?_concat (l := e :: rest))
      omega

/-- A list that starts the window. -/
theorem inv_start (hrows : Rows rows) (hfair : Fair rows (e :: entries))
    (hfall : (e :: entries).Pairwise fun a b => b.token < a.token) (hs : st.syncStart = e.token)
    (hend : st.syncEnd = e.token) (hbars : st.bars = [])
    (h : extend intr now st ((e :: entries).map pair) 0 = some st') : Inv rows st' := by
  obtain ⟨hlt, hfall⟩ := pairwise_cons.mp hfall
  obtain ⟨c, d, r, hcd, hrun, hst⟩ := extend_run h
  have hc : c = [] := by exact (append_eq_nil_iff.mp hcd.symm).1
  rw [hc, append_nil, drop_zero, map_cons] at hrun
  obtain ⟨f, hf, hrun⟩ := bind_eq_some_iff.mp hrun
  rcases syncCacheBar_spec hf with ⟨hfull, _⟩ | ⟨_, hcch⟩
  · rw [hbars] at hfull
    exact absurd hfull (by decide)
  by_cases h0 : e.token = 0
  · -- nothing lies below a token of zero
    have hnil : entries = [] := by
      cases entries with
      | nil => rfl
      | cons x _ =>
        have := hlt x mem_cons_self
        omega
    rw [hnil] at hrun
    cases hrun
    have hinv : Inv rows f.2 := by
      have hstop := hcch.stop
      refine ⟨fun _ => (hcch.zero h0).trans hbars, fun hne => absurd ?_ hne⟩
      rw [hstop, hend]
      exact (Nat.max_self _).trans h0
    exact inv_of_run hinv hst
  have hw := window_first hrows hfair mem_cons_self hs hend h0 hcch
  have hsta : f.2.syncStart = e.token := by
    rw [hcch.start, hs]
    exact Nat.min_self _
  have hstop : f.2.syncEnd = e.token := by
    rw [hcch.stop, hend]
    exact Nat.max_self _
  have hmem : ∀ x, x ∈ entries ↔ x ∈ e :: entries ∧ x.token < f.2.syncStart := by
    intro x
    rw [hsta, mem_cons]
    constructor
    · exact fun hx => ⟨.inr hx, hlt x hx⟩
    rintro ⟨rfl | hx, hlt⟩
    · exact absurd hlt (lt_irrefl _)
    · exact hx
  have hrch := reach_below hfair hmem hfall ⟨e, mem_cons_self, by omega⟩
    fun s => reach_nil s f.2.syncEnd
  rw [append_nil] at hrch
  have hgen : Genuine rows (entries.map pair) := fun x hx =>
    genuine_pairs hfair x (mem_cons_of_mem _ hx)
  obtain ⟨hwr, hnr⟩ := window_run hrows hw (by omega) hrch hgen hrun
  exact inv_of_run (hwr.inv hnr) hst

/-- The first entry of the list that starts a window has the highest row number seen. -/
def StartsHighest (st : Sync) (entries : List Entry) : Prop :=
  st.syncEnd = 0 → ∀ first ∈ entries.head?, ∀ last ∈ entries.getLast?, last.token ≤ first.token →
    st.highestSeen ≤ first.token

/-- A list that is received when there is no window. -/
theorem inv_idle (hrows : Rows rows) (hfair : Fair rows entries) (h0 : st.syncEnd = 0)
    (hbars : st.bars = []) (hhigh : StartsHighest st entries)
    (h : processScan intr now (entries.foldl (scanEntry now) (.init st)) = some st') :
    Inv rows st' := by
  have hidle := scan_idle now (s := .init st) h0 entries
  generalize entries.foldl (scanEntry now) (.init st) = s at h hidle
  have hs0 : s.sync.syncEnd = 0 := hidle.quiet.stop.trans h0
  have hkept : s.kept = entries.map pair := hidle.kept
  have hsb : s.sync.bars = [] := hidle.quiet.bars.trans hbars
  rw [processScan] at h
  by_cases hst : starts s = true
  · cases entries with
    | nil => simp [starts, hkept] at hst
    | cons e rest =>
      have hle : ∀ a ∈ (e :: rest).head?, ∀ b ∈ (e :: rest).getLast?, b.token ≤ a.token := by
        intro a ha b hb
        simp only [starts, hkept, head?_map, getLast?_map, mem_def.mp ha,
          mem_def.mp hb, map_some, Bool.and_eq_true, decide_eq_true_eq, pair] at hst
        exact hst.2
      have hfall := falling_of_starts hfair hle
      have hlt := (pairwise_cons.mp hfall).1
      have hmax : s.sync.highestSeen = e.token := by
        rw [hidle.highest]
        obtain ⟨l, hl⟩ := isSome_iff_exists.mp (by simp : ((e :: rest).getLast?).isSome = true)
        exact foldl_max_first (hhigh h0 e rfl l hl (hle e rfl l hl)) hlt
      rw [begin, if_pos hst] at h
      simp only [hkept, map_cons, reduceCtorEq, if_false] at h
      refine inv_start hrows hfair hfall ?_ ?_ ?_ h
      · exact hmax
      · exact hmax
      · exact hsb
  have hmid : midPoint s = none := by simp [midPoint, hidle.flagBefore, hidle.mid, Scan.init]
  rw [begin, if_neg hst, hmid] at h
  cases h
  exact ⟨fun _ => hsb, fun hne => absurd hs0 hne⟩

/-- What holds between two lists holds after the next one. -/
theorem inv_process (hrows : Rows rows) (hfair : Fair rows entries) (hinv : Inv rows st)
    (hhigh : StartsHighest (restart now st) entries)
    (h : syncProcessBarList intr now st entries = some st') : Inv rows st' := by
  have hr : Inv rows { restart now st with lastResponse := now } :=
    (inv_restart hinv).quiet ⟨rfl, rfl, rfl, rfl⟩
  have hh : StartsHighest { restart now st with lastResponse := now } entries := hhigh
  rw [syncProcessBarList] at h
  generalize { restart now st with lastResponse := now } = st1 at h hr hh
  have hlen : (Scan.init st1).kept.length + entries.length ≤ barsPerResponse := by
    simpa [Scan.init] using hfair.short
  rw [scan_eq_foldl hlen] at h
  by_cases h0 : st1.syncEnd = 0
  · exact inv_idle hrows hfair h0 (hr.idle h0) hh h
  · exact inv_extend hrows hfair (hr.window h0) h0 h

/-! ## Sending a list -/

theorem sendRows_eq (hne : sent ≠ []) (rows : List Row) : sendRows mc mtk tok sent rows =
      sent ++ (rows.take (mc - sent.length)).map Row.entry := by
  induction rows generalizing sent with
  | nil => simp [sendRows]
  | cons row rows ih =>
    by_cases hlt : sent.length < mc
    · have hk : mc - sent.length = (mc - (sent.length + 1)) + 1 := by omega
      have hlen : (sent ++ [row.entry]).length = sent.length + 1 := length_append
      simp only [sendRows, if_pos hlt, if_neg hne, append_nil, hlen]
      rw [hk, take_succ_cons, map_cons]
      split
      · next hbreak =>
        rw [Nat.sub_eq_zero_of_le hbreak.1, take_zero, map_nil]
      · rw [ih (by simp), hlen, append_assoc, singleton_append]
    have hk : mc - sent.length = 0 := by omega
    simp only [sendRows, if_neg hlt, hk, take_zero, map_nil, append_nil]
    split
    · rfl
    · rw [ih hne, hk, take_zero, map_nil, append_nil]

/-- The form of a list: the token that was asked for, if it is needed, some of the rows,
and zero if there are no more. -/
structure Response (forwards : Bool) (token : Nat) (row : Row) (rest : List Row) (entries : List Entry) :
    Prop where
  form : ∃ k tail, entries = boundary token row ++ ((row :: rest).take (k + 1)).map Row.entry ++ tail ∧
    (tail = [] ∨ (forwards = false ∧ tail = [⟨0, noBar⟩] ∧ rest.length ≤ k))
  short : entries.length ≤ barsPerResponse

theorem boundary_length (tok : Nat) (row : Row) : (boundary tok row).length ≤ 1 := by
  unfold boundary
  split <;> simp

theorem response_form (cnt mtk : Nat) (hsel : db.select fwd tok = row :: rest) :
    Response fwd tok row rest (syncSendResponse db fwd tok cnt mtk) := by
  unfold syncSendResponse
  dsimp only
  have hmax : 1 ≤ (if cnt = 0 ∨ barsPerResponse < cnt then barsPerResponse else cnt) ∧
      (if cnt = 0 ∨ barsPerResponse < cnt then barsPerResponse else cnt) ≤ barsPerResponse := by
    unfold barsPerResponse
    split <;> omega
  generalize (if cnt = 0 ∨ barsPerResponse < cnt then barsPerResponse else cnt) = maxCount at hmax ⊢
  obtain ⟨hpos, hmax⟩ := hmax
  have hbd := boundary_length tok row
  have hlen : (boundary tok row ++ [row.entry]).length = (boundary tok row).length + 1 :=
    length_append
  have hsent : sendRows maxCount mtk tok [] (db.select fwd tok) = boundary tok row ++
        ((row :: rest).take (maxCount - ((boundary tok row).length + 1) + 1)).map Row.entry := by
    have hfst : 0 < maxCount := hpos
    simp only [hsel, sendRows, length_nil, if_pos hfst, if_true, nil_append, hlen]
    rw [take_succ_cons, map_cons]
    split
    · next hbreak =>
      rw [Nat.sub_eq_zero_of_le hbreak.1, take_zero, map_nil]
    · rw [sendRows_eq (by simp), hlen, append_assoc, singleton_append]
  rw [hsent]
  have htwe : 2 ≤ barsPerResponse := by decide
  have hcnt : (boundary tok row ++
      ((row :: rest).take (maxCount - ((boundary tok row).length + 1) + 1)).map Row.entry).length =
        (boundary tok row).length + 1 + min (maxCount - ((boundary tok row).length + 1)) rest.length := by
    rw [length_append, length_map, length_take, length_cons]
    omega
  split
  · next hz =>
    exact ⟨⟨_, _, rfl, .inr ⟨hz.2.2, rfl, by omega⟩⟩, by
      rw [length_append, hcnt, length_singleton]; omega⟩
  · exact ⟨⟨_, [], (append_nil _).symm, .inl rfl⟩, by rw [hcnt]; omega⟩

theorem response_nil (cnt : Nat) (hsel : db.select fwd tok = []) :
    syncSendResponse db fwd tok cnt mtk = [] := by
  simp [syncSendResponse, hsel, sendRows]

theorem mem_select : row ∈ db.select fwd token ↔
      row ∈ db.rows ∧ if fwd then token ≤ row.rowid else row.rowid ≤ token := by
  cases fwd <;> simp [Database.select]

theorem boundary_mem (h : e ∈ boundary tok row) :
    e = ⟨tok, noBar⟩ ∧ row.rowid ≠ tok ∧ tok ≠ headFlag := by
  unfold boundary at h
  split at h
  · next hne => exact ⟨mem_singleton.mp h, hne⟩
  · cases h

theorem boundary_pairwise : (boundary tok row).Pairwise R := by
  unfold boundary
  split
  · exact pairwise_singleton _ _
  · exact List.Pairwise.nil

/-- The rows that are not in the list lie beyond those that are. -/
theorem beyond {sel : List Row} (h : sel.Pairwise R) {x : Row} (hx : x ∈ sel) :
    x ∈ sel.take n ∨ (n < sel.length ∧ ∀ y ∈ sel.take n, R y x) := by
  rw [← take_append_drop n sel] at h hx
  rcases mem_append.mp hx with hx | hx
  · exact .inl hx
  refine .inr ⟨?_, fun y hy => (pairwise_append.mp h).2.2 y hy x hx⟩
  by_contra hn
  rw [drop_eq_nil_of_le (Nat.le_of_not_lt hn)] at hx
  cases hx

/-- The token of a request does not lie above all manifests. -/
def Reachable (db : Database) (token : Nat) : Prop :=
  token ≠ headFlag → ∀ row ∈ db.rows, row.rowid < token → ∃ top ∈ db.rows, token ≤ top.rowid

/-- `a` is not behind `b` for a list in the given direction. -/
def Ahead (forwards : Bool) (a b : Nat) : Prop := if forwards then a ≤ b else b ≤ a

theorem Ahead.trans {a b c : Nat} (hab : Ahead forwards a b) (hbc : Ahead forwards b c) :
    Ahead forwards a c := by
  cases forwards with
  | true => exact le_trans hab hbc
  | false => exact le_trans hbc hab

theorem Ahead.antisymm {a b : Nat} (hab : Ahead fwd a b) (hba : Ahead fwd b a) : a = b := by
  cases fwd with
  | true => exact le_antisymm hab hba
  | false => exact le_antisymm hba hab

theorem select_sorted (db : Database) (fwd : Bool) (tok : Nat) :
    (db.select fwd tok).Pairwise fun a b => ¬ Ahead fwd b.rowid a.rowid := by
  cases fwd with
  | true => exact (db.sorted.sublist filter_sublist).imp Nat.not_le.mpr
  | false =>
    exact pairwise_reverse.mpr ((db.sorted.sublist filter_sublist).imp Nat.not_le.mpr)

/-- The rows that a query selects make a fair list. -/
theorem fair_selected (hreq : fwd = false → Reachable db tok)
    (hsel : db.select fwd tok = row :: rest) (h : Response fwd tok row rest entries) :
    Fair db.rows entries := by
  obtain ⟨k, tail, hform, htail⟩ := h.form
  have hsort := select_sorted db fwd tok
  have hmem : ∀ r ∈ row :: rest, r ∈ db.rows ∧ Ahead fwd tok r.rowid := by
    intro r hr
    rw [← hsel] at hr
    exact mem_select.mp hr
  rw [hsel] at hsort
  obtain ⟨hrow, hah⟩ := hmem row mem_cons_self
  have htake : ∀ r ∈ (row :: rest).take (k + 1), r ∈ row :: rest := fun r hr =>
    mem_of_mem_take hr
  have hfst : row ∈ (row :: rest).take (k + 1) := by exact mem_cons_self
  have hcas : ∀ e ∈ entries, (e = ⟨tok, noBar⟩ ∧ row.rowid ≠ tok ∧ tok ≠ headFlag) ∨
      (∃ r ∈ (row :: rest).take (k + 1), e = r.entry) ∨
      (e = ⟨0, noBar⟩ ∧ fwd = false ∧ rest.length ≤ k) := by
    intro e he
    rw [hform] at he
    rcases mem_append.mp he with he | he
    · rcases mem_append.mp he with he | he
      · exact .inl (boundary_mem he)
      obtain ⟨r, hr, rfl⟩ := List.mem_map.mp he
      exact .inr (.inl ⟨r, hr, rfl⟩)
    rcases htail with rfl | ⟨hf, rfl, hk⟩
    · cases he
    · exact .inr (.inr ⟨mem_singleton.mp he, hf, hk⟩)
  have hord : entries.Pairwise fun a b => ¬ Ahead fwd b.token a.token := by
    rw [hform, pairwise_append, pairwise_append]
    refine ⟨⟨boundary_pairwise, ?_, ?_⟩, ?_, ?_⟩
    · exact pairwise_map.mpr (hsort.sublist (take_sublist _ _))
    · intro e he f hf hback
      obtain ⟨rfl, hne, _⟩ := boundary_mem he
      obtain ⟨r, hr, rfl⟩ := List.mem_map.mp hf
      -- the row lies between the token and the first row
      rcases mem_cons.mp (htake r hr) with rfl | hr
      · exact hne (hback.antisymm hah)
      · exact (pairwise_cons.mp hsort).1 r hr (hback.trans hah)
    · rcases htail with rfl | ⟨_, rfl, _⟩
      · exact List.Pairwise.nil
      · exact pairwise_singleton _ _
    intro e he f hf hback
    rcases htail with rfl | ⟨rfl, rfl, _⟩
    · cases hf
    rw [mem_singleton.mp hf] at hback
    have hpos := db.positive row hrow
    rcases mem_append.mp he with he | he
    · obtain ⟨rfl, _⟩ := boundary_mem he
      exact absurd (le_trans hah hback) (Nat.not_le.mpr hpos)
    obtain ⟨r, hr, rfl⟩ := List.mem_map.mp he
    exact absurd hback (Nat.not_le.mpr (db.positive r (hmem r (htake r hr)).1))
  have hcom : ∀ x ∈ db.rows, ∀ near ∈ entries, ∀ far ∈ entries, Ahead fwd near.token x.rowid →
      Ahead fwd x.rowid far.token → x.entry ∈ entries := by
    intro x hx near hnear far hfar hnx hxf
    have hx0 : Ahead fwd tok x.rowid ∨ x ∈ row :: rest := by
      rcases hcas near hnear with ⟨rfl, _⟩ | ⟨r, hr, rfl⟩ | ⟨rfl, rfl, _⟩
      · exact .inl hnx
      · exact .inl ((hmem r (htake r hr)).2.trans hnx)
      · exact absurd (db.positive x hx) (Nat.not_lt.mpr hnx)
    have hxs : x ∈ row :: rest := by
      rcases hx0 with h0 | hxs
      · rw [← hsel]
        exact mem_select.mpr ⟨hx, h0⟩
      · exact hxs
    rcases beyond hsort (n := k + 1) hxs with hin | ⟨hk, hlt⟩
    · rw [hform]
      exact mem_append_left _ (mem_append_right _ (List.mem_map_of_mem hin))
    exfalso
    rcases hcas far hfar with ⟨rfl, _⟩ | ⟨r, hr, rfl⟩ | ⟨_, _, hlen⟩
    · exact hlt row hfst (hxf.trans hah)
    · exact hlt r hr hxf
    rw [length_cons] at hk
    omega
  constructor
  · cases fwd with
    | true => exact .inr (hord.imp Nat.not_le.mp)
    | false => exact .inl (hord.imp Nat.not_le.mp)
  · intro x hx a ha b hb hax hxb
    cases fwd with
    | true => exact hcom x hx a ha b hb hax hxb
    | false => exact hcom x hx b hb a ha hxb hax
  · intro e he hbar
    rcases hcas e he with ⟨rfl, _⟩ | ⟨r, hr, rfl⟩ | ⟨rfl, _⟩
    · exact absurd rfl hbar
    · exact (hmem r (htake r hr)).1
    · exact absurd rfl hbar
  · intro e he
    rcases hcas e he with ⟨rfl, hne, hhead⟩ | ⟨r, hr, rfl⟩ | ⟨rfl, _⟩
    · cases fwd with
      | true => exact ⟨row, hrow, hah⟩
      | false => exact hreq rfl hhead row hrow (lt_of_le_of_ne hah hne)
    · exact ⟨r, (hmem r (htake r hr)).1, le_rfl⟩
    · exact ⟨row, hrow, Nat.zero_le _⟩
  · exact h.short

theorem fair_nil : Fair rows [] :=
  ⟨.inl List.Pairwise.nil, fun _ _ _ ha => absurd ha not_mem_nil,
    fun _ h => absurd h not_mem_nil, fun _ h => absurd h not_mem_nil, Nat.zero_le _⟩

/-- Every list that answers a request for a reachable token is fair. -/
theorem fair_response (hreq : fwd = false → Reachable db tok) (cnt : Nat) :
    Fair db.rows (syncSendResponse db fwd tok cnt mtk) := by
  cases hsel : db.select fwd tok with
  | nil =>
    rw [response_nil cnt hsel]
    exact fair_nil
  | cons row rest =>
    exact fair_selected hreq hsel (response_form cnt mtk hsel)

/-! ## Runs -/

/-- Lists stay fair, and the window stays sound, when a manifest is added. -/
theorem Fair.add (hf : db.fresh row = true) (h : Fair db.rows entries) :
    Fair (db.add row hf).rows entries := by
  have hmem : ∀ r ∈ db.rows, r ∈ (db.add row hf).rows := fun r hr => mem_append_left _ hr
  refine ⟨h.order, ?_, fun e he hb => hmem _ (h.genuine e he hb), ?_, h.short⟩
  · intro x hx a ha b hb hax hxb
    rcases mem_append.mp hx with hx | hx
    · exact h.complete x hx a ha b hb hax hxb
    obtain ⟨top, htop, hle⟩ := h.bounded b hb
    have hlt := (Database.fresh_iff.mp hf).2 top htop
    rw [mem_singleton.mp hx] at hxb
    omega
  intro e he
  obtain ⟨top, htop, hle⟩ := h.bounded e he
  exact ⟨top, hmem top htop, hle⟩

theorem Window.add (hf : db.fresh row = true) (h : Window db.rows st) :
    Window (db.add row hf).rows st := by
  obtain ⟨top, htop, hle⟩ := h.bounded
  refine ⟨h.order, ⟨top, mem_append_left _ htop, hle⟩, ?_⟩
  intro x hx hs he
  rcases mem_append.mp hx with hx | hx
  · exact h.covered x hx hs he
  have hlt := (Database.fresh_iff.mp hf).2 top htop
  rw [mem_singleton.mp hx] at he
  omega

/-- The condition on a step: a request backwards is for a token that does not lie above
all manifests, and the list that starts a window begins with the highest row number
that the node has seen. -/
def Careful (s : System) : Event → Prop
  | .send forwards token _ _ => forwards = false → Reachable s.db token
  | .receive _ now entries => StartsHighest (restart now s.sync) entries
  | _ => True

structure Good (s : System) : Prop where
  sent : ∀ entries ∈ s.sent, Fair s.db.rows entries
  inv : Inv s.db.rows s.sync
  passed : s.passed ⊆ s.db.rows

theorem good_init : Good (.init startTime) :=
  ⟨nofun, inv_zero, nofun⟩

/-- A careful step keeps the invariant. -/
theorem good_step {s s' : System} {ev : Event} (hg : Good s) (hc : Careful s ev)
    (h : s.step ev = some s') : Good s' := by
  cases ev with
  | add row =>
    simp only [System.step] at h
    split at h
    · next hf =>
      cases h
      refine ⟨fun p hp => (hg.sent p hp).add hf, ⟨hg.inv.idle, fun hne => (hg.inv.window hne).add hf⟩, ?_⟩
      exact fun r hr => mem_append_left _ (hg.passed hr)
    · cases h
  | send fwd tok cnt mtk =>
    cases h
    refine ⟨?_, hg.inv, hg.passed⟩
    intro p hp
    rcases mem_cons.mp hp with rfl | hp
    · exact fair_response hc cnt
    · exact hg.sent p hp
  | receive intr now entries =>
    simp only [System.step] at h
    split at h
    · next hsent =>
      obtain ⟨sync, hsync, rfl⟩ := map_eq_some_iff.mp h
      have hinv := inv_process rows_of_database (hg.sent entries hsent) hg.inv hc hsync
      exact ⟨hg.sent, hinv, fun r hr => mem_of_mem_filter hr⟩
    · cases h
  | forget bars =>
    simp only [System.step] at h
    split at h
    · next hlen =>
      cases h
      refine ⟨hg.sent, ⟨?_, ?_⟩, hg.passed⟩
      · intro h0
        rw [hg.inv.idle h0] at hlen
        exact length_eq_zero_iff.mp (Nat.le_zero.mp hlen)
      intro hne
      obtain ⟨hord, hbd, hcov⟩ := hg.inv.window hne
      exact ⟨hord, hbd, hcov⟩
    · cases h

theorem good_run {s : System} (h : Run Careful s) : Good s := by
  induction h with
  | init startTime => exact good_init
  | step _ hc hstep ih => exact good_step ih hc hstep

/-- In every run of careful steps, each manifest that the window was moved over has been
looked at. -/
theorem window_sound {s : System} (h : Run Careful s) : Sound s := by
  have hg := good_run h
  intro row hrow hin
  simp only [Sync.inside, Bool.and_eq_true, bne_iff_ne, decide_eq_true_eq] at hin
  exact (hg.inv.window hin.1.1).covered row (hg.passed hrow) hin.1.2 hin.2

def rowOf (n : Nat) : Row := ⟨n, ⟨List.replicate 32 1, length_replicate⟩⟩

/-- The node receives an announcement of one manifest. -/
theorem window_sound_announced : ∃ s, Run Careful s ∧ s.passed = [rowOf 1] ∧ Sound s := by
  have h1 := @Run.step Careful _ _ (.add (rowOf 1)) (.init 0) trivial rfl
  have h2 := @Run.step Careful _ _ (.send false headFlag 5 0) h1 (fun _ h => absurd rfl h) rfl
  have h3 := @Run.step Careful _ _ (.receive (fun _ => true) 0 [⟨1, (rowOf 1).bar⟩, ⟨0, noBar⟩]) h2
    (fun _ _ _ _ _ _ => Nat.zero_le _) rfl
  exact ⟨_, h3, rfl, window_sound h3⟩

instance (s : System) : Decidable (Sound s) :=
  inferInstanceAs (Decidable (∀ row ∈ s.passed, s.sync.inside row = true → row ∈ s.sync.checked))

theorem run_events {evs : List Event} {s s' : System} (hs : Run (fun _ _ => True) s)
    (h : evs.foldlM System.step s = some s') : Run (fun _ _ => True) s' :=
  foldlM_some _ (fun _ _ _ hs hstep => .step hs trivial hstep) hs h

/-- Two manifests. The answer to a request forwards from the first shows both row
numbers and starts no window; the answer to a request backwards from the first then
starts one at the second. -/
def twoLists : List Event :=
  [.add (rowOf 1), .add (rowOf 2), .send true 1 0 2, .send false 1 0 2,
    .receive (fun _ => true) 0 [(rowOf 1).entry, (rowOf 2).entry],
    .receive (fun _ => true) 0 [(rowOf 1).entry, ⟨0, noBar⟩]]

/-- The second manifest was there from the beginning, and is never looked at. -/
theorem window_hole : ∃ s, Run (fun _ _ => True) s ∧ s.sync.syncStart = 0 ∧ s.sync.syncEnd = 2 ∧
    rowOf 2 ∈ s.passed ∧ rowOf 2 ∉ s.sync.checked ∧ ¬Sound s := by
  have h : ∃ s, twoLists.foldlM System.step (.init 0) = some s ∧ s.sync.syncStart = 0 ∧
      s.sync.syncEnd = 2 ∧ rowOf 2 ∈ s.passed ∧ rowOf 2 ∉ s.sync.checked ∧ ¬Sound s :=
    ⟨_, rfl, by decide +kernel⟩
  obtain ⟨s, hrun, hs⟩ := h
  exact ⟨s, run_events (.init 0) hrun, hs⟩

end SyncWindow
