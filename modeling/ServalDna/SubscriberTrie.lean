import Mathlib.Data.List.Basic
import Mathlib.Data.List.FinRange
import Mathlib.Data.List.GetD
import Mathlib.Data.List.Induction
import Mathlib.Logic.Function.Basic

/-!
# The subscriber trie

Known subscribers are kept in a tree that branches on successive nibbles of the
subscriber id. A slot is split only when a second subscriber has to go through
it, so the depth of a leaf is the length of the shortest abbreviation that tells
it from the others. Lookups of abbreviations rely on two facts that every
insertion keeps: a leaf lies on the path of its own id, and an inner node has
two different subscribers below it.
-/
namespace SubscriberTrie

open List Function

abbrev Nibble := Fin 16

def sidSize : Nat := 32

structure Sid where
  bytes : List UInt8
  length_eq : bytes.length = sidSize
  deriving DecidableEq

/-- `get_nibble`: the high half of a byte has the even position. -/
def getNibble (sidp : List UInt8) (pos : Nat) : Nibble :=
  if pos % 2 = 0 then Fin.ofNat 16 ((sidp.getD (pos / 2) 0).toNat / 16)
  else Fin.ofNat 16 (sidp.getD (pos / 2) 0).toNat

/-- `addr` is the address that `emalloc_zero` gave to the struct. -/
structure Subscriber where
  sid : Sid
  abbreviateLen : Nat
  addr : Nat
  deriving DecidableEq

/-- One of the sixteen entries of a `tree_node`; the constructor is the bit of
`is_tree`. -/
inductive Slot where
  | empty : Slot
  | subscriber : Subscriber → Slot
  | tree : (Nibble → Slot) → Slot

abbrev TreeNode := Nibble → Slot

/-- The loop of `_find_subscriber`, with `remaining` passes left. `make` holds the
id and the address of a new subscriber when one may be created. -/
def findLoop (sidp : List UInt8) (make : Option (Sid × Nat)) :
    Nat → Nat → TreeNode → Option Subscriber → Option Subscriber × TreeNode
  | 0, _, node, ret => (ret, node)
  | remaining + 1, pos, node, ret =>
    match node (getNibble sidp pos) with
    | .tree child =>
      let r := findLoop sidp make remaining (pos + 1) child ret
      (r.1, update node (getNibble sidp pos) (.tree r.2))
    | .empty =>
      match make with
      | none => (ret, node)
      | some (sid, addr) =>
        (some ⟨sid, pos + 1, addr⟩, update node (getNibble sidp pos) (.subscriber ⟨sid, pos + 1, addr⟩))
    | .subscriber s =>
      if s.sid.bytes.take sidp.length = sidp then (some s, node)
      else
        match make with
        | none => (none, node)
        | some _ =>
          let bumped := { s with abbreviateLen := pos + 2 }
          let r := findLoop sidp make remaining (pos + 1)
            (update (fun _ => .empty) (getNibble s.sid.bytes (pos + 1))
              (.subscriber bumped)) (some bumped)
          (r.1, update node (getNibble sidp pos) (.tree r.2))

structure Table where
  root : TreeNode
  nextAddr : Nat

def Table.start : Table := ⟨fun _ => .empty, 0⟩

/-- `_find_subscriber` on an id of `sidp.length` bytes. Only a whole id creates. -/
def findSubscriber (t : Table) (sidp : List UInt8) (create : Bool) : Option Subscriber × Table :=
  if h : sidp.length = sidSize ∧ create = true then
    let r := findLoop sidp (some (⟨sidp, h.1⟩, t.nextAddr)) (max 1 (2 * sidp.length)) 0 t.root none
    (r.1, ⟨r.2, t.nextAddr + 1⟩)
  else
    let r := findLoop sidp none (max 1 (2 * sidp.length)) 0 t.root none
    (r.1, ⟨r.2, t.nextAddr⟩)

def Slot.subscribers : Slot → List Subscriber
  | .empty => []
  | .subscriber s => [s]
  | .tree slots => (List.finRange 16).flatMap (fun i => (slots i).subscribers)

def Table.subscribers (t : Table) : List Subscriber := (Slot.tree t.root).subscribers

@[simp] theorem mem_subscribers_empty : ¬s ∈ Slot.empty.subscribers := by simp [Slot.subscribers]

@[simp] theorem mem_subscribers_subscriber (s s' : Subscriber) :
    s ∈ (Slot.subscriber s').subscribers ↔ s = s' := by simp [Slot.subscribers]

@[simp] theorem mem_subscribers_tree (s : Subscriber) (sls : Nibble → Slot) :
    s ∈ (Slot.tree sls).subscribers ↔ ∃ i, s ∈ (sls i).subscribers := by
  simp [Slot.subscribers]

/-! ## Nibble strings -/

def nibbles (sidp : List UInt8) (n : Nat) : List Nibble := (List.range n).map (getNibble sidp)

@[simp] theorem nibbles_length : (nibbles sidp n).length = n := by simp [nibbles]

theorem nibbles_succ : nibbles sidp (n + 1) = nibbles sidp n ++ [getNibble sidp n] := by
  simp [nibbles, range_succ]

theorem nibbles_eq_iff (xs ys : List UInt8) (n : Nat) :
    nibbles xs n = nibbles ys n ↔ ∀ p, p < n → getNibble xs p = getNibble ys p := by
  simp [nibbles]

/-- A path of one more nibble is the old path and that nibble. -/
theorem nibbles_append_iff (sidp : List UInt8) (path : List Nibble) (i : Nibble) :
    nibbles sidp (path ++ [i]).length = path ++ [i] ↔
      nibbles sidp path.length = path ∧ getNibble sidp path.length = i := by
  rw [length_append, length_singleton, nibbles_succ]
  constructor
  · intro h
    have := append_inj h (by simp)
    simpa using this
  rintro ⟨h, rfl⟩
  rw [h]

theorem byte_eq_of_nibbles (xs ys : List UInt8) (k : Nat)
    (hhigh : getNibble xs (2 * k) = getNibble ys (2 * k))
    (hlow : getNibble xs (2 * k + 1) = getNibble ys (2 * k + 1)) :
    xs.getD k 0 = ys.getD k 0 := by
  have heven : 2 * k / 2 = k := by omega
  have hodd : (2 * k + 1) / 2 = k := by omega
  simp only [getNibble, Nat.mul_mod_right, heven, if_true] at hhigh
  rw [getNibble, getNibble, if_neg (by omega), if_neg (by omega), hodd] at hlow
  have h1 := congrArg Fin.val hhigh
  have h2 := congrArg Fin.val hlow
  have hx := (xs.getD k 0).toNat_lt
  have hy := (ys.getD k 0).toNat_lt
  simp only [Fin.ofNat_eq_cast, Fin.val_natCast] at h1 h2
  apply UInt8.toNat_inj.mp
  omega

/-- Equal bytes and equal nibbles are the same thing. -/
theorem take_eq_iff_nibbles (hlen : ys.length ≤ xs.length) :
    xs.take ys.length = ys ↔ nibbles xs (2 * ys.length) = nibbles ys (2 * ys.length) := by
  rw [nibbles_eq_iff]
  constructor
  · intro h p hp
    have hbyte : xs.getD (p / 2) 0 = ys.getD (p / 2) 0 := by
      have hlt : p / 2 < ys.length := by omega
      have hidx : (xs.take ys.length)[p / 2]? = ys[p / 2]? := by rw [h]
      rw [getElem?_take_of_lt hlt] at hidx
      rw [getD_eq_getElem?_getD, getD_eq_getElem?_getD, hidx]
    rw [getNibble, getNibble, hbyte]
  intro h
  apply ext_getElem (by simp [hlen])
  intro k hk hk'
  have hbyte := byte_eq_of_nibbles xs ys k (h _ (by omega)) (h _ (by omega))
  rw [getElem_take]
  rw [getD_eq_getElem _ _ (by omega), getD_eq_getElem _ _ (by omega)] at hbyte
  exact hbyte

/-! ## Well placed slots -/

/-- `sidp` is an abbreviation of the subscriber's id: the `memcmp` of the source. -/
def Matches (sidp : List UInt8) (s : Subscriber) : Prop := s.sid.bytes.take sidp.length = sidp

theorem matches_iff (sidp : List UInt8) (s : Subscriber) (hlen : sidp.length ≤ sidSize) :
    Matches sidp s ↔ nibbles s.sid.bytes (2 * sidp.length) = nibbles sidp (2 * sidp.length) :=
  take_eq_iff_nibbles (by rw [s.sid.length_eq]; exact hlen)

theorem sid_eq_of_nibbles (a b : Sid)
    (h : nibbles a.bytes (2 * sidSize) = nibbles b.bytes (2 * sidSize)) : a = b := by
  have hbs : a.bytes.take b.bytes.length = b.bytes :=
    (take_eq_iff_nibbles (by rw [a.length_eq, b.length_eq])).mpr (by rw [b.length_eq]; exact h)
  rw [take_of_length_le (by rw [a.length_eq, b.length_eq])] at hbs
  cases a
  cases b
  simpa using hbs

/-- The slot is reached by the nibbles `path`: its subscribers lie on that path
and a split slot has two different ones. -/
def Slot.WellPlaced : Slot → List Nibble → Prop
  | .empty, _ => True
  | .subscriber s, path => nibbles s.sid.bytes path.length = path
  | .tree slots, path => (∀ i, (slots i).WellPlaced (path ++ [i])) ∧
      ∃ a b, a ∈ (Slot.tree slots).subscribers ∧ b ∈ (Slot.tree slots).subscribers ∧ a.sid ≠ b.sid

/-- The slots of a node at the end of `path`. -/
abbrev Placed (path : List Nibble) (node : TreeNode) : Prop := ∀ i, (node i).WellPlaced (path ++ [i])

theorem wellPlaced_path (slot : Slot) (path : List Nibble) (h : slot.WellPlaced path)
    (s : Subscriber) (hs : s ∈ slot.subscribers) : nibbles s.sid.bytes path.length = path := by
  induction slot generalizing path with
  | empty => simp at hs
  | subscriber s' =>
    rw [mem_subscribers_subscriber] at hs
    rw [hs]
    exact h
  | tree sls ih =>
    rw [mem_subscribers_tree] at hs
    obtain ⟨i, hi⟩ := hs
    exact ((nibbles_append_iff _ _ _).mp (ih i (path ++ [i]) (h.1 i) hi)).1

variable {node : TreeNode} {t : Table}

/-- A subscriber below slot `i` has the nibble `i` at that depth. -/
theorem nibble_of_mem (h : Placed path node) (hs : s ∈ (node i).subscribers) :
    nibbles s.sid.bytes path.length = path ∧ getNibble s.sid.bytes path.length = i :=
  (nibbles_append_iff _ _ _).mp (wellPlaced_path (node i) (path ++ [i]) (h i) s hs)

section Told

-- two subscribers of different slots agree up to the depth of the slots and differ there
variable {R : Subscriber → Subscriber → Prop}
  (hR : ∀ a b n, nibbles a.sid.bytes n = nibbles b.sid.bytes n →
    getNibble a.sid.bytes n < getNibble b.sid.bytes n → R a b)
include hR

theorem told_slots (hnode : Placed path node) (hij : i < j)
    (ha : a ∈ (node i).subscribers) (hb : b ∈ (node j).subscribers) : R a b := by
  obtain ⟨hpa, hia⟩ := nibble_of_mem hnode ha
  obtain ⟨hpb, hib⟩ := nibble_of_mem hnode hb
  exact hR a b path.length (hpa.trans hpb.symm) (by rwa [hia, hib])

theorem pairwise_node (hnode : Placed path node)
    (hsls : ∀ i, (node i).subscribers.Pairwise R) : (Slot.tree node).subscribers.Pairwise R := by
  rw [Slot.subscribers, pairwise_flatMap]
  refine ⟨fun i _ => hsls i, ?_⟩
  exact (pairwise_lt_finRange 16).imp fun hij a ha b hb => told_slots hR hnode hij ha hb

theorem pairwise_slot (slot : Slot) (path : List Nibble) (h : slot.WellPlaced path) :
    slot.subscribers.Pairwise R := by
  induction slot generalizing path with
  | empty => exact Pairwise.nil
  | subscriber s => exact pairwise_singleton _ s
  | tree sls ih => exact pairwise_node hR h.1 fun i => ih i _ (h.1 i)

end Told

/-! ## Lookups -/

/-- `s` is the only one of `subs` that `sidp` abbreviates. -/
def OnlyMatch (subs : List Subscriber) (sidp : List UInt8) (s : Subscriber) : Prop :=
  s ∈ subs ∧ Matches sidp s ∧ ∀ s' ∈ subs, Matches sidp s' → s' = s

section Lookup

variable {sidp : List UInt8} (hlen : sidp.length ≤ sidSize)

include hlen

/-- A match has the nibble that the loop reads, so it lies below the slot that
the loop enters. -/
theorem nibble_of_matches (hm : Matches sidp s) (hp : p < 2 * sidp.length) :
    getNibble s.sid.bytes p = getNibble sidp p :=
  (nibbles_eq_iff _ _ _).mp ((matches_iff sidp s hlen).mp hm) p hp

theorem onlyMatch_slot (hnode : Placed path node) (hp : path.length < 2 * sidp.length) :
    OnlyMatch (Slot.tree node).subscribers sidp s ↔
      OnlyMatch (node (getNibble sidp path.length)).subscribers sidp s := by
  have hslot : ∀ s', Matches sidp s' → (s' ∈ (Slot.tree node).subscribers ↔
      s' ∈ (node (getNibble sidp path.length)).subscribers) := by
    intro s' hm
    rw [mem_subscribers_tree]
    refine ⟨fun ⟨i, hi⟩ => ?_, fun h => ⟨_, h⟩⟩
    rw [← nibble_of_matches hlen hm hp, (nibble_of_mem hnode hi).2]
    exact hi
  refine ⟨fun ⟨hs, hm, hu⟩ => ⟨(hslot s hm).mp hs, hm, fun s' hs' hm' => ?_⟩,
    fun ⟨hs, hm, hu⟩ => ⟨(hslot s hm).mpr hs, hm, fun s' hs' hm' => ?_⟩⟩
  · exact hu s' ((hslot s' hm').mpr hs') hm'
  · exact hu s' ((hslot s' hm').mp hs') hm'

/-- An abbreviation that ends at a split slot fits two subscribers. -/
theorem not_onlyMatch_tree {ch : TreeNode} (h : (Slot.tree ch).WellPlaced path)
    (hpath : nibbles sidp path.length = path) (hend : path.length = 2 * sidp.length) (s : Subscriber) :
    ¬OnlyMatch (Slot.tree ch).subscribers sidp s := by
  obtain ⟨a, b, ha, hb, hab⟩ := h.2
  have hmat : ∀ s' ∈ (Slot.tree ch).subscribers, Matches sidp s' := by
    intro s' hs'
    rw [matches_iff sidp s' hlen, ← hend, hpath]
    exact wellPlaced_path _ path h s' hs'
  intro hu
  have heq : a = b := (hu.2.2 a ha (hmat a ha)).trans (hu.2.2 b hb (hmat b hb)).symm
  exact hab (congrArg Subscriber.sid heq)

/-- The loop without creation finds exactly the unique match and changes nothing. -/
theorem findLoop_lookup (remaining : Nat) (path : List Nibble) (node : TreeNode)
    (hnode : Placed path node) (hend : remaining = 0 → (Slot.tree node).WellPlaced path)
    (hpath : nibbles sidp path.length = path) (hrem : path.length + remaining = 2 * sidp.length) :
    (findLoop sidp none remaining path.length node none).2 = node ∧
      ∀ s, (findLoop sidp none remaining path.length node none).1 = some s ↔
        OnlyMatch (Slot.tree node).subscribers sidp s := by
  induction remaining generalizing path node with
  | zero =>
    refine ⟨rfl, fun s => ?_⟩
    have hnot := not_onlyMatch_tree hlen (hend rfl) hpath (by omega) s
    simp [findLoop, hnot]
  | succ remaining ih =>
    simp only [onlyMatch_slot hlen hnode (show path.length < 2 * sidp.length by omega)]
    rw [findLoop]
    cases hslot : node (getNibble sidp path.length) with
    | empty => simp [OnlyMatch]
    | subscriber s' =>
      by_cases hm : s'.sid.bytes.take sidp.length = sidp
      · simp +contextual [hm, OnlyMatch, Matches, eq_comm]
      · simp [hm, OnlyMatch, Matches]
    | tree ch =>
      have hch := hslot ▸ hnode (getNibble sidp path.length)
      obtain ⟨hsame, hfnd⟩ := ih (path ++ [getNibble sidp path.length]) ch hch.1
        (fun _ => hch) ((nibbles_append_iff _ _ _).mpr ⟨hpath, rfl⟩) (by simp; omega)
      rw [length_append, length_singleton] at hsame hfnd
      refine ⟨?_, hfnd⟩
      simp only
      rw [hsame, ← hslot]
      exact update_eq_self _ _

end Lookup

/-! ## Insertions -/

/-- What stays of a subscriber when it is moved down: its id and its address. -/
def Subscriber.key (s : Subscriber) : Sid × Nat := (s.sid, s.addr)

/-- `new` has the keys of `old`, and the new one if no subscriber had its id. -/
def Extends (sid : Sid) (addr : Nat) (old new : List Subscriber) : Prop :=
  ∀ k, k ∈ new.map Subscriber.key ↔ k ∈ old.map Subscriber.key ∨
    (k = (sid, addr) ∧ sid ∉ old.map Subscriber.sid)

theorem mem_map_sid_iff (subs : List Subscriber) :
    sid ∈ subs.map Subscriber.sid ↔ ∃ addr, (sid, addr) ∈ subs.map Subscriber.key := by
  simp [Subscriber.key]

theorem sid_mem_of_extends (h : Extends sid addr old new) (hold : sid' ∈ old.map Subscriber.sid) :
    sid' ∈ new.map Subscriber.sid := by
  rw [mem_map_sid_iff] at hold ⊢
  obtain ⟨addr', haddr⟩ := hold
  exact ⟨addr', (h _).mpr (.inl haddr)⟩

theorem mem_subscribers_update (node : TreeNode) (i : Nibble) (slot : Slot) (s : Subscriber) :
    s ∈ (Slot.tree (update node i slot)).subscribers ↔
      s ∈ slot.subscribers ∨ ∃ j, j ≠ i ∧ s ∈ (node j).subscribers := by
  rw [mem_subscribers_tree]
  constructor
  · rintro ⟨j, hj⟩
    by_cases hji : j = i
    · subst hji
      rw [update_self] at hj
      exact .inl hj
    rw [update_of_ne hji] at hj
    exact .inr ⟨j, hji, hj⟩
  rintro (h | ⟨j, hji, hj⟩)
  · exact ⟨i, by rw [update_self]; exact h⟩
  · exact ⟨j, by rw [update_of_ne hji]; exact hj⟩

section Updated

variable (hnode : Placed path node)

include hnode

/-- Extending the slot that `sid` selects extends the node. -/
theorem extends_update (h : Extends sid addr (node (getNibble sid.bytes path.length)).subscribers
      slot.subscribers) :
    Extends sid addr (Slot.tree node).subscribers
      (Slot.tree (update node (getNibble sid.bytes path.length) slot)).subscribers := by
  have hsid : sid ∈ (Slot.tree node).subscribers.map Subscriber.sid ↔
      sid ∈ (node (getNibble sid.bytes path.length)).subscribers.map Subscriber.sid := by
    simp only [mem_map, mem_subscribers_tree]
    constructor
    · rintro ⟨s, ⟨i, hi⟩, rfl⟩
      rw [(nibble_of_mem hnode hi).2]
      exact ⟨s, hi, rfl⟩
    rintro ⟨s, hs, rfl⟩
    exact ⟨s, ⟨_, hs⟩, rfl⟩
  have hspl := mem_subscribers_update node (getNibble sid.bytes path.length)
  have hself := hspl (node (getNibble sid.bytes path.length))
  rw [update_eq_self] at hself
  intro k
  rw [hsid]
  have hk := h k
  simp only [mem_map, hspl slot] at hk ⊢
  simp only [hself, or_and_right, exists_or]
  rw [hk]
  exact or_right_comm

theorem wellPlaced_update (hslot : slot.WellPlaced (path ++ [i])) :
    ∀ j, (update node i slot j).WellPlaced (path ++ [j]) := by
  intro j
  by_cases hji : j = i
  · rw [hji, update_self]
    exact hslot
  rw [update_of_ne hji]
  exact hnode j

/-- Two stored ids make a split slot well placed. -/
theorem wellPlaced_tree (hne : sid ≠ sid') (h : sid ∈ (Slot.tree node).subscribers.map Subscriber.sid)
    (h' : sid' ∈ (Slot.tree node).subscribers.map Subscriber.sid) :
    (Slot.tree node).WellPlaced path := by
  obtain ⟨a, ha, rfl⟩ := mem_map.mp h
  obtain ⟨b, hb, rfl⟩ := mem_map.mp h'
  exact ⟨hnode, a, b, ha, hb, hne⟩

/-- What one insertion below `path` does: the subscriber found has the id asked
for, and the node is the old one with at most one more subscriber. -/
structure Inserted (sid : Sid) (addr : Nat) (path : List Nibble) (node : TreeNode)
    (r : Option Subscriber × TreeNode) : Prop where
  found : ∃ s, r.1 = some s ∧ s.sid = sid ∧ s ∈ (Slot.tree r.2).subscribers
  placed : ∀ i, (r.2 i).WellPlaced (path ++ [i])
  extends_old : Extends sid addr (Slot.tree node).subscribers (Slot.tree r.2).subscribers

omit hnode in
theorem inserted_sid (h : Inserted sid addr path node r) :
    sid ∈ (Slot.tree r.2).subscribers.map Subscriber.sid := by
  obtain ⟨s, -, hsid, hmem⟩ := h.found
  exact mem_map.mpr ⟨s, hmem, hsid⟩

/-- An insertion in the tree below a slot is one in the node of that slot. -/
theorem inserted_update (hr : Inserted sid addr (path ++ [getNibble sid.bytes path.length]) ch r)
    (hkeys : ∀ k, k ∈ (Slot.tree ch).subscribers.map Subscriber.key ↔
      k ∈ (node (getNibble sid.bytes path.length)).subscribers.map Subscriber.key)
    (hne : sid ≠ sid') (hsid' : sid' ∈ (Slot.tree ch).subscribers.map Subscriber.sid) :
    Inserted sid addr path node (r.1, update node (getNibble sid.bytes path.length) (.tree r.2)) := by
  obtain ⟨s, hs, hsid, hmem⟩ := hr.found
  refine ⟨⟨s, hs, hsid, ?_⟩, ?_, ?_⟩
  · exact (mem_subscribers_update _ _ _ _).mpr (.inl hmem)
  · apply wellPlaced_update hnode
    exact wellPlaced_tree hr.placed hne (inserted_sid hr) (sid_mem_of_extends hr.extends_old hsid')
  apply extends_update hnode
  intro k
  have hk := hr.extends_old k
  rw [mem_map_sid_iff] at hk ⊢
  simp only [hkeys] at hk
  exact hk

theorem inserted_empty (hpath : nibbles sid.bytes path.length = path)
    (hslot : node (getNibble sid.bytes path.length) = .empty) :
    Inserted sid addr path node (some ⟨sid, al, addr⟩,
      update node (getNibble sid.bytes path.length) (.subscriber ⟨sid, al, addr⟩)) := by
  refine ⟨⟨_, rfl, rfl, (mem_subscribers_update _ _ _ _).mpr (.inl (by simp))⟩, ?_, ?_⟩
  · exact wellPlaced_update hnode ((nibbles_append_iff _ _ _).mpr ⟨hpath, rfl⟩)
  apply extends_update hnode
  intro k
  simp [hslot, Slot.subscribers, Subscriber.key]

/-- A subscriber with the id asked for is already there. -/
theorem inserted_stored (hs : s ∈ (Slot.tree node).subscribers) :
    Inserted s.sid addr path node (some s, node) := by
  refine ⟨⟨s, rfl, rfl, hs⟩, hnode, fun k => ?_⟩
  have hsto : s.sid ∈ (Slot.tree node).subscribers.map Subscriber.sid :=
    mem_map.mpr ⟨s, hs, rfl⟩
  simp [hsto]

end Updated

/-- The fresh node that takes a subscriber pushed one level down. -/
theorem wellPlaced_pushed (hpath : nibbles s.sid.bytes path.length = path) (i : Nibble) :
    (update (fun _ => Slot.empty) (getNibble s.sid.bytes path.length)
      (.subscriber s) i).WellPlaced (path ++ [i]) := by
  have hemp : ∀ i : Nibble, Slot.empty.WellPlaced (path ++ [i]) := fun _ => trivial
  have hslot : (Slot.subscriber s).WellPlaced (path ++ [getNibble s.sid.bytes path.length]) :=
    (nibbles_append_iff _ _ _).mpr ⟨hpath, rfl⟩
  exact wellPlaced_update hemp hslot i

theorem mem_subscribers_pushed :
    s' ∈ (Slot.tree (update (fun _ => Slot.empty) i (.subscriber s))).subscribers ↔ s' = s := by
  rw [mem_subscribers_update]
  simp

/-- At the depth of a whole id no two subscribers are left to tell apart. -/
theorem not_wellPlaced_full (h : (Slot.tree node).WellPlaced path) : path.length ≠ 2 * sidSize := by
  intro hlen
  obtain ⟨a, b, ha, hb, hab⟩ := h.2
  apply hab
  apply sid_eq_of_nibbles
  rw [← hlen, wellPlaced_path _ path h a ha, wellPlaced_path _ path h b hb]

/-- The loop with creation inserts. -/
theorem findLoop_insert (sid : Sid) (addr remaining : Nat) (path : List Nibble) (node : TreeNode)
    (ret : Option Subscriber) (hnode : Placed path node)
    (hpath : nibbles sid.bytes path.length = path)
    (hpos : 0 < remaining) (hrem : path.length + remaining = 2 * sidSize) :
    Inserted sid addr path node
      (findLoop sid.bytes (some (sid, addr)) remaining path.length node ret) := by
  induction remaining generalizing path node ret with
  | zero => omega
  | succ remaining ih =>
    have hpath' := (nibbles_append_iff sid.bytes path _).mpr ⟨hpath, rfl⟩
    have hlen' : (path ++ [getNibble sid.bytes path.length]).length = path.length + 1 := by simp
    rw [findLoop]
    cases hslot : node (getNibble sid.bytes path.length) with
    | empty => exact inserted_empty hnode hpath hslot
    | tree ch =>
      have hch := hslot ▸ hnode (getNibble sid.bytes path.length)
      have hfull := not_wellPlaced_full hch
      have hr := ih _ ch ret hch.1 hpath' (by omega) (by omega)
      rw [hlen'] at hr
      obtain ⟨a, b, ha, hb, hab⟩ := hch.2
      by_cases hsid : sid = a.sid
      · exact inserted_update hnode hr (fun k => by rw [hslot]) (hsid ▸ hab) (mem_map.mpr ⟨b, hb, rfl⟩)
      · exact inserted_update hnode hr (fun k => by rw [hslot]) hsid (mem_map.mpr ⟨a, ha, rfl⟩)
    | subscriber s =>
      have hs : nibbles s.sid.bytes _ = _ := hslot ▸ hnode (getNibble sid.bytes path.length)
      by_cases hm : s.sid = sid
      · have hmem : s ∈ (Slot.tree node).subscribers :=
          (mem_subscribers_tree _ _).mpr ⟨_, hslot ▸ (mem_subscribers_subscriber s s).mpr rfl⟩
        have htake : s.sid.bytes.take s.sid.bytes.length = s.sid.bytes := take_length
        subst hm
        simp only [htake, if_true]
        exact inserted_stored hnode hmem
      have htake : ¬s.sid.bytes.take sid.bytes.length = sid.bytes := by
        rw [sid.length_eq, ← s.sid.length_eq, take_length]
        intro hbs
        apply hm
        cases hsid : s.sid
        cases sid
        simpa [hsid] using hbs
      simp only [htake, if_false]
      have hfull : remaining ≠ 0 := by
        intro hzero
        apply hm
        apply sid_eq_of_nibbles
        have hdep : 2 * sidSize = (path ++ [getNibble sid.bytes path.length]).length := by omega
        rw [hdep, hs, hpath']
      have hplc := wellPlaced_pushed (s := { s with abbreviateLen := path.length + 2 }) hs
      have hr := ih _ _ (some { s with abbreviateLen := path.length + 2 }) hplc hpath'
        (by omega) (by omega)
      rw [hlen'] at hr
      refine inserted_update hnode hr (fun k => ?_) (Ne.symm hm)
        (mem_map.mpr ⟨_, mem_subscribers_pushed.mpr rfl, rfl⟩)
      simp only [mem_map, mem_subscribers_pushed, hslot, mem_subscribers_subscriber,
        exists_eq_left, Subscriber.key]

/-! ## The table -/

/-- The invariant of the table: every slot is well placed and the next address
is not in use. -/
structure Table.WellFormed (t : Table) : Prop where
  placed : ∀ i, (t.root i).WellPlaced ([] ++ [i])
  fresh : ∀ s ∈ t.subscribers, s.addr < t.nextAddr

theorem wellFormed_start : Table.start.WellFormed :=
  ⟨fun _ => trivial, fun s hs => by simp [Table.subscribers, Table.start] at hs⟩

def Table.sids (t : Table) : List Sid := t.subscribers.map Subscriber.sid

def Table.keys (t : Table) : List (Sid × Nat) := t.subscribers.map Subscriber.key

theorem Table.sids_eq (t : Table) : t.sids = t.keys.map Prod.fst := by
  simp [keys, sids, Subscriber.key]

section Formed

variable (h : t.WellFormed)

include h

theorem pairwise_table {R : Subscriber → Subscriber → Prop}
    (hR : ∀ a b n, nibbles a.sid.bytes n = nibbles b.sid.bytes n →
      getNibble a.sid.bytes n < getNibble b.sid.bytes n → R a b) : t.subscribers.Pairwise R :=
  pairwise_node hR h.placed fun i => pairwise_slot hR _ _ (h.placed i)

theorem sids_nodup : t.sids.Nodup := by
  refine pairwise_map.mpr (pairwise_table h fun a b n _ hlt heq => ?_)
  rw [heq] at hlt
  exact lt_irrefl _ hlt

theorem keys_nodup : t.keys.Nodup :=
  List.Nodup.of_map Prod.fst (t.sids_eq ▸ sids_nodup h)

/-- A lookup finds exactly the unique match and leaves the table alone. -/
theorem findSubscriber_lookup (sidp : List UInt8) (hpos : 1 ≤ sidp.length)
    (hlen : sidp.length ≤ sidSize) :
    (findSubscriber t sidp false).2 = t ∧
      ∀ s, (findSubscriber t sidp false).1 = some s ↔ OnlyMatch t.subscribers sidp s := by
  have hmax : max 1 (2 * sidp.length) = 2 * sidp.length := by omega
  obtain ⟨hsame, hfnd⟩ := findLoop_lookup hlen (2 * sidp.length) [] t.root h.placed
    (fun hzero => by omega) rfl (by simp)
  rw [length_nil] at hsame hfnd
  simp only [findSubscriber, Bool.false_eq_true, and_false, dite_false, hmax, hsame]
  exact ⟨trivial, hfnd⟩

theorem findSubscriber_inserted : Inserted sid t.nextAddr [] t.root
        ((findSubscriber t sid.bytes true).1, (findSubscriber t sid.bytes true).2.root) ∧
      (findSubscriber t sid.bytes true).2.nextAddr = t.nextAddr + 1 := by
  have hmax : max 1 (2 * sidSize) = 2 * sidSize := by decide
  have hr := findLoop_insert sid t.nextAddr (2 * sidSize) [] t.root none h.placed rfl (by decide)
    (by simp)
  simp only [findSubscriber, sid.length_eq, and_self, dite_true, hmax]
  exact ⟨hr, trivial⟩

/-- Creation keeps the invariant. -/
theorem findSubscriber_wellFormed (sid : Sid) : (findSubscriber t sid.bytes true).2.WellFormed := by
  obtain ⟨hr, hnext⟩ := findSubscriber_inserted h
  refine ⟨hr.placed, fun s hs => ?_⟩
  have hkey := (hr.extends_old s.key).mp (mem_map.mpr ⟨s, hs, rfl⟩)
  obtain hold | ⟨hnew, -⟩ := hkey
  · obtain ⟨s', hs', hsame⟩ := mem_map.mp hold
    have haddr : s'.addr = s.addr := congrArg Prod.snd hsame
    have hlt := h.fresh s' hs'
    omega
  have haddr : s.addr = t.nextAddr := congrArg Prod.snd hnew
  omega

/-- Creation adds the subscriber, at the fresh address, unless its id is stored. -/
theorem findSubscriber_keys (sid : Sid) : (findSubscriber t sid.bytes true).2.keys.Perm
      (if sid ∈ t.sids then t.keys else (sid, t.nextAddr) :: t.keys) := by
  obtain ⟨hr, -⟩ := findSubscriber_inserted h
  have hext : ∀ k, k ∈ (findSubscriber t sid.bytes true).2.keys ↔
      k ∈ t.keys ∨ (k = (sid, t.nextAddr) ∧ sid ∉ t.sids) := hr.extends_old
  have hnew := keys_nodup (findSubscriber_wellFormed h sid)
  by_cases hsid : sid ∈ t.sids
  · rw [if_pos hsid]
    apply (perm_ext_iff_of_nodup hnew (keys_nodup h)).mpr
    simp [hext, hsid]
  rw [if_neg hsid]
  have hfr : (sid, t.nextAddr) ∉ t.keys := by
    intro hmem
    exact hsid ((mem_map_sid_iff _).mpr ⟨_, hmem⟩)
  apply (perm_ext_iff_of_nodup hnew (nodup_cons.mpr ⟨hfr, keys_nodup h⟩)).mpr
  intro k
  rw [hext, mem_cons]
  tauto

theorem findSubscriber_sids :
    sid' ∈ (findSubscriber t sid.bytes true).2.sids ↔ sid' ∈ t.sids ∨ sid' = sid := by
  rw [Table.sids_eq, ((findSubscriber_keys h sid).map Prod.fst).mem_iff]
  by_cases hsid : sid ∈ t.sids
  · rw [if_pos hsid, ← t.sids_eq]
    exact ⟨.inl, fun hor => hor.elim id (fun heq => heq ▸ hsid)⟩
  rw [if_neg hsid, map_cons, ← t.sids_eq, mem_cons]
  exact or_comm

end Formed

def insertAll (sids : List Sid) : Table :=
  sids.foldl (fun t sid => (findSubscriber t sid.bytes true).2) Table.start

theorem insertAll_append (sids : List Sid) (sid : Sid) :
    insertAll (sids ++ [sid]) = (findSubscriber (insertAll sids) sid.bytes true).2 := by
  simp [insertAll]

theorem insertAll_wellFormed (sids : List Sid) : (insertAll sids).WellFormed := by
  induction sids using List.reverseRecOn with
  | nil => exact wellFormed_start
  | append_singleton sids sid ih =>
    rw [insertAll_append]
    exact findSubscriber_wellFormed ih sid

theorem mem_insertAll_sids (sids : List Sid) (sid : Sid) : sid ∈ (insertAll sids).sids ↔ sid ∈ sids := by
  induction sids using List.reverseRecOn with
  | nil => simp [insertAll, Table.sids, Table.subscribers, Table.start, Slot.subscribers]
  | append_singleton sids sid' ih =>
    rw [insertAll_append, findSubscriber_sids (insertAll_wellFormed sids), ih]
    simp

/-- After any insertions a lookup of an abbreviation returns the one subscriber
it fits, if there is just one, and creation returns the subscriber of the whole
id, adding it once and keeping every other one at its address. -/
theorem find_subscriber_unique_match (sids : List Sid) (sidp : List UInt8)
    (hpos : 1 ≤ sidp.length) (hlen : sidp.length ≤ sidSize) (sid : Sid) :
    ((findSubscriber (insertAll sids) sidp false).2 = insertAll sids ∧
      ∀ s, (findSubscriber (insertAll sids) sidp false).1 = some s ↔
        OnlyMatch (insertAll sids).subscribers sidp s) ∧
    (∃ s, (findSubscriber (insertAll sids) sid.bytes true).1 = some s ∧ s.sid = sid ∧
      s ∈ (insertAll (sids ++ [sid])).subscribers) ∧
    (insertAll (sids ++ [sid])).keys.Perm (if sid ∈ sids then (insertAll sids).keys
        else (sid, (insertAll sids).nextAddr) :: (insertAll sids).keys) ∧
    (∀ s ∈ (insertAll sids).subscribers, s.addr < (insertAll sids).nextAddr) ∧
    (insertAll sids).sids.Nodup ∧ (∀ sid', sid' ∈ (insertAll sids).sids ↔ sid' ∈ sids) := by
  have h := insertAll_wellFormed sids
  refine ⟨findSubscriber_lookup h sidp hpos hlen, ?_, ?_, h.fresh, sids_nodup h, mem_insertAll_sids sids⟩
  · rw [insertAll_append]
    exact (findSubscriber_inserted h).1.found
  rw [insertAll_append]
  simpa only [mem_insertAll_sids] using findSubscriber_keys h sid

theorem find_subscriber_unique_match_two : let a : Sid := ⟨List.replicate 32 0x11, rfl⟩
    let b : Sid := ⟨0x12 :: List.replicate 31 0, rfl⟩
    ∃ s, (findSubscriber (insertAll [a, b]) [0x12] false).1 = some s ∧ s.sid = b ∧
      OnlyMatch (insertAll [a, b]).subscribers [0x12] s := by
  intro a b
  have h := (find_subscriber_unique_match [a, b] [0x12] (by decide) (by decide) a).1.2
  have hfnd : (findSubscriber (insertAll [a, b]) [0x12] false).1 = some ⟨b, 2, 1⟩ := by decide
  exact ⟨⟨b, 2, 1⟩, hfnd, rfl, (h _).mp hfnd⟩

end SubscriberTrie
