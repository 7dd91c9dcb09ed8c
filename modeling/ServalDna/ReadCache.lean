import Mathlib.Data.List.MinMax
import Mathlib.Order.Defs.LinearOrder

/-!
# The cache of open payloads

`rhizome_store.c` keeps the payloads that were read last in a search tree, and closes
them when they expire. An entry is taken out of the tree by putting its right subtree
where a search in the left one ends.
-/
namespace ReadCache

open List

variable {Bid : Type} [LinearOrder Bid]

/-- `struct cache_entry` without its links. -/
structure Entry (Bid : Type) where
  bundleId : Bid
  version : Nat
  expires : Int
  deriving DecidableEq

inductive Tree (Bid : Type) where
  | nil
  | node (left : Tree Bid) (entry : Entry Bid) (right : Tree Bid)
  deriving DecidableEq

inductive Side where
  | left | right

/-- The pointer that `find_entry_location` returns, as the way to it from the root. -/
def findEntryLocation (bundleId : Bid) (version : Nat) : Tree Bid → List Side
  | .nil => []
  | .node left entry right =>
    if bundleId = entry.bundleId then
      if entry.version = version then []
      else if version < entry.version then .left :: findEntryLocation bundleId version left
      else .right :: findEntryLocation bundleId version right
    else if bundleId < entry.bundleId then .left :: findEntryLocation bundleId version left
    else .right :: findEntryLocation bundleId version right

def Tree.get : Tree Bid → List Side → Tree Bid
  | .node left _ _, .left :: way => left.get way
  | .node _ _ right, .right :: way => right.get way
  | tree, _ => tree

def Tree.put : Tree Bid → List Side → Tree Bid → Tree Bid
  | .node left entry right, .left :: way, new => .node (left.put way new) entry right
  | .node left entry right, .right :: way, new => .node left entry (right.put way new)
  | _, _, new => new

def rejoin (left right : Tree Bid) : Tree Bid :=
  match right with
  | .nil => left
  | .node _ e _ => left.put (findEntryLocation e.bundleId e.version left) right

def closeEntries (timeout : Int) : Tree Bid → Int × Tree Bid
  | .nil => (0, .nil)
  | .node left entry right =>
    let (ret, left) := closeEntries timeout left
    let (tRight, right) := closeEntries timeout right
    let ret := if tRight ≠ 0 ∧ (tRight < ret ∨ ret = 0) then tRight else ret
    if entry.expires < timeout ∨ timeout = 0 then (ret, rejoin left right)
    else (if entry.expires < ret ∨ ret = 0 then entry.expires else ret, .node left entry right)

def Tree.entries : Tree Bid → List (Entry Bid)
  | .nil => []
  | .node left entry right => left.entries ++ entry :: right.entries

/-- The order of the tree. -/
def Entry.Before (a b : Entry Bid) : Prop :=
  a.bundleId < b.bundleId ∨ a.bundleId = b.bundleId ∧ a.version < b.version

def Tree.Ordered (tree : Tree Bid) : Prop := tree.entries.Pairwise Entry.Before

variable {tree left right : Tree Bid} {a e : Entry Bid} {l r : List (Entry Bid)}

theorem location_left (h : a.Before e) :
    findEntryLocation a.bundleId a.version (.node left e right) =
      .left :: findEntryLocation a.bundleId a.version left := by
  rcases h with hlt | ⟨heq, hlt⟩
  · rw [findEntryLocation, if_neg hlt.ne, if_pos hlt]
  · rw [findEntryLocation, if_pos heq, if_neg hlt.ne', if_pos hlt]

theorem location_right (h : e.Before a) :
    findEntryLocation a.bundleId a.version (.node left e right) =
      .right :: findEntryLocation a.bundleId a.version right := by
  rcases h with hlt | ⟨heq, hlt⟩
  · rw [findEntryLocation, if_neg hlt.ne', if_neg hlt.asymm]
  · rw [findEntryLocation, if_pos heq.symm, if_neg hlt.ne, if_neg hlt.asymm]

theorem Tree.ordered_node : (Tree.node left e right).Ordered ↔ left.Ordered ∧ right.Ordered ∧
    (∀ a ∈ left.entries, a.Before e) ∧ (∀ a ∈ right.entries, e.Before a) ∧
      ∀ a ∈ left.entries, ∀ b ∈ right.entries, a.Before b := by
  simp only [Ordered, entries, pairwise_append, pairwise_cons, forall_mem_cons]
  grind

/-- A search finds every entry. -/
theorem location_entry (h : tree.Ordered) (ha : a ∈ tree.entries) :
    ∃ left right, tree.get (findEntryLocation a.bundleId a.version tree) = .node left a right := by
  induction tree with
  | nil => cases ha
  | node left e right ihl ihr =>
    obtain ⟨hl, hr, hlt, hgt, -⟩ := Tree.ordered_node.mp h
    rcases mem_append.mp ha with ha | ha
    · rw [location_left (hlt a ha)]
      exact ihl hl ha
    rcases mem_cons.mp ha with rfl | ha
    · exact ⟨left, right, by rw [findEntryLocation, if_pos rfl, if_pos rfl]; rfl⟩
    · rw [location_right (hgt a ha)]
      exact ihr hr ha

/-- A tree is put behind all entries that come before its root. -/
theorem entries_put (h : ∀ a ∈ left.entries, a.Before e) :
    (left.put (findEntryLocation e.bundleId e.version left) right).entries =
      left.entries ++ right.entries := by
  induction left with
  | nil => rfl
  | node l a r _ ih =>
    simp only [Tree.entries, forall_mem_append, forall_mem_cons] at h
    rw [location_right h.2.1, Tree.put, Tree.entries, ih h.2.2, Tree.entries, append_assoc, cons_append]

theorem entries_rejoin (h : ∀ a ∈ left.entries, ∀ b ∈ right.entries, a.Before b) :
    (rejoin left right).entries = left.entries ++ right.entries := by
  cases right with
  | nil => exact (append_nil _).symm
  | node l e r => exact entries_put fun a ha => h a ha e (by simp [Tree.entries])

/-- The time is the first at which one of the entries expires, or zero if there is none. -/
def Earliest (l : List (Entry Bid)) (ret : Int) : Prop :=
  l = [] ∧ ret = 0 ∨ 0 < ret ∧ (∃ e ∈ l, e.expires = ret) ∧ ∀ e ∈ l, ret ≤ e.expires

omit [LinearOrder Bid] in
theorem Earliest.join (hl : Earliest l x) (hr : Earliest r y) :
    Earliest (l ++ r) (if y ≠ 0 ∧ (y < x ∨ x = 0) then y else x) := by
  unfold Earliest at *
  grind

omit [LinearOrder Bid] in
theorem Earliest.insert (h : Earliest (l ++ r) ret) (he : 0 < e.expires) :
    Earliest (l ++ e :: r) (if e.expires < ret ∨ ret = 0 then e.expires else ret) := by
  rcases h with ⟨hnil, rfl⟩ | ⟨hpos, hsome, hall⟩
  · obtain ⟨rfl, rfl⟩ := append_eq_nil_iff.mp hnil
    simp [Earliest, he]
  · unfold Earliest
    grind

/-- The entries that stay, and the returned time. -/
theorem closeEntries_spec (hnow : 0 < now) (h : tree.Ordered) :
    (closeEntries now tree).2.entries = tree.entries.filter (now ≤ ·.expires) ∧
      Earliest (closeEntries now tree).2.entries (closeEntries now tree).1 := by
  induction tree with
  | nil => exact ⟨rfl, .inl ⟨rfl, rfl⟩⟩
  | node left e right ihl ihr =>
    obtain ⟨hl, hr, -, -, hlr⟩ := Tree.ordered_node.mp h
    obtain ⟨hleft, herl⟩ := ihl hl
    obtain ⟨hrt, herl'⟩ := ihr hr
    have hjoin : (rejoin (closeEntries now left).2 (closeEntries now right).2).entries =
        (closeEntries now left).2.entries ++ (closeEntries now right).2.entries := by
      apply entries_rejoin
      rw [hleft, hrt]
      exact fun a ha b hb => hlr a (mem_of_mem_filter ha) b (mem_of_mem_filter hb)
    rw [closeEntries, Tree.entries, filter_append, filter_cons, ← hleft, ← hrt]
    by_cases he : e.expires < now
    · simp only [he, true_or, if_true, decide_eq_true_eq, Int.not_le.mpr he, if_false, hjoin]
      exact ⟨trivial, herl.join herl'⟩
    · simp only [he, hnow.ne', or_self, if_false, decide_eq_true_eq, Int.not_lt.mp he, if_true]
      exact ⟨rfl, (herl.join herl').insert (by omega)⟩

theorem closeEntries_zero (tree : Tree Bid) : closeEntries 0 tree = (0, .nil) := by
  induction tree with
  | nil => rfl
  | node left e right ihl ihr => simp [closeEntries, ihl, ihr, rejoin]

/-- At a time after zero the entries that have expired are closed, and the others can still be
found. At time zero all are closed. -/
theorem close_entries_expired (tree : Tree Bid) (h : tree.Ordered) : closeEntries 0 tree = (0, .nil) ∧
    ∀ now ret tree', 0 < now → closeEntries now tree = (ret, tree') →
      tree'.entries = tree.entries.filter (now ≤ ·.expires) ∧ tree'.Ordered ∧
      (∀ a ∈ tree'.entries, ∃ left right,
        tree'.get (findEntryLocation a.bundleId a.version tree') = .node left a right) ∧
      Earliest tree'.entries ret := by
  refine ⟨closeEntries_zero tree, fun now ret tree' hnow hclo => ?_⟩
  have hspec := closeEntries_spec hnow h
  rw [hclo] at hspec
  obtain ⟨hent, herl⟩ := hspec
  have hord : tree'.Ordered := by
    rw [Tree.Ordered, hent]
    exact h.filter _
  exact ⟨hent, hord, fun a ha => location_entry hord ha, herl⟩

/-- The entry in the middle expires first, and the right one is then put behind the left. -/
def threeEntries : Tree Nat := .node (.node .nil ⟨1, 1, 8⟩ .nil) ⟨2, 1, 5⟩ (.node .nil ⟨3, 1, 9⟩ .nil)

theorem close_entries_expired_three : threeEntries.Ordered ∧
    closeEntries 6 threeEntries = (8, .node .nil ⟨1, 1, 8⟩ (.node .nil ⟨3, 1, 9⟩ .nil)) ∧
    Earliest (Tree.node .nil ⟨1, 1, 8⟩ (.node .nil ⟨3, 1, 9⟩ .nil) : Tree Nat).entries 8 := by
  have h : threeEntries.Ordered := by simp [threeEntries, Tree.Ordered, Tree.entries, Entry.Before]
  have hclo : closeEntries 6 threeEntries = (8, .node .nil ⟨1, 1, 8⟩ (.node .nil ⟨3, 1, 9⟩ .nil)) := by
    decide
  exact ⟨h, hclo, ((close_entries_expired threeEntries h).2 6 _ _ (by decide) hclo).2.2.2⟩

def twoEntries : Tree Nat := .node (.node .nil ⟨1, 1, 8⟩ .nil) ⟨2, 1, 5⟩ .nil

/-- No entry has expired before the time zero, and yet both are closed. -/
theorem close_entries_zero_two : (∀ e ∈ twoEntries.entries, ¬e.expires < 0) ∧
    twoEntries.entries ≠ [] ∧ (closeEntries 0 twoEntries).2.entries = [] := by
  decide

end ReadCache
