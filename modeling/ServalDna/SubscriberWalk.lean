import ServalDna.SubscriberTrie
import Mathlib.Data.UInt

/-!
# Walks over the subscriber trie

`walk_tree` calls a function on the subscribers below a node until one call
returns non-zero. A walk may begin at a subscriber; its id is compared along
the first branch only, and every later slot is walked from its beginning.
-/
namespace SubscriberWalk

open SubscriberTrie List

/-- A callback reads and writes its context. The walk stops when it answers `true`. -/
abbrev Callback (σ : Type) := Subscriber → σ → Bool × σ

variable {σ : Type} (callback : Callback σ)

/-- The loop of `walk_tree` over the slots of a node, `start` being reset after the first. -/
def walkSlots (walk : Nibble → Option Subscriber → σ → Bool × σ) :
    List Nibble → Option Subscriber → σ → Bool × σ
  | [], _, context => (false, context)
  | i :: rest, start, context =>
    let r := walk i start context
    if r.1 then (true, r.2) else walkSlots walk rest none r.2

def walkTree : Slot → Nat → Option Subscriber → σ → Bool × σ
  | .empty, _, _, context => (false, context)
  | .subscriber s, _, _, context => callback s context
  | .tree slots, pos, start, context =>
    walkSlots (fun i start context => walkTree (slots i) (pos + 1) start context)
      ((List.finRange 16).drop (start.elim 0 fun b => (getNibble b.sid.bytes pos).val)) start context

/-- The loop of `prefix_matches`, with `remaining` nibbles left. -/
def matchLoop (id : List UInt8) : Nat → Nat → TreeNode → σ → σ
  | 0, pos, node, context => (walkTree callback (.tree node) (pos + 1) none context).2
  | remaining + 1, pos, node, context =>
    match node (getNibble id pos) with
    | .tree child => matchLoop id remaining (pos + 1) child context
    | .empty => context
    | .subscriber s =>
      if s.sid.bytes.take id.length = id then (callback s context).2 else context

def prefixMatches (t : Table) (id : List UInt8) (context : σ) : σ :=
  matchLoop callback id (2 * id.length) 0 t.root context

def enumSubscribers (t : Table) (start : Option Subscriber) (context : σ) : σ :=
  (walkTree callback (.tree t.root) 0 start context).2

/-- The calls on `subs` one after the other, up to the first that answers `true`. -/
def visit : List Subscriber → σ → Bool × σ
  | [], context => (false, context)
  | s :: rest, context =>
    if (callback s context).1 then (true, (callback s context).2)
    else visit rest (callback s context).2

theorem visit_singleton : visit callback [s] context = callback s context := by
  rw [visit, visit]
  split
  · next h => rw [← h]
  · next h => rw [← Bool.eq_false_iff.mpr h]

theorem visit_append (ys : List Subscriber) (ctx : σ) : visit callback (xs ++ ys) ctx =
      if (visit callback xs ctx).1 then (true, (visit callback xs ctx).2)
      else visit callback ys (visit callback xs ctx).2 := by
  induction xs generalizing ctx with
  | nil => rfl
  | cons s rest ih =>
    rw [cons_append, visit, visit]
    split
    · rfl
    · exact ih _

/-! ## The whole walk -/

theorem walkSlots_eq (node : TreeNode) (sls : List Nibble)
    (h : ∀ i context, walk i none context = visit callback (node i).subscribers context)
    (context : σ) :
    walkSlots walk sls none context =
      visit callback (sls.flatMap fun i => (node i).subscribers) context := by
  induction sls generalizing context with
  | nil => rfl
  | cons i rest ih => rw [walkSlots, flatMap_cons, visit_append, h, ih]

theorem walkTree_all (pos : Nat) (context : σ) :
    walkTree callback slot pos none context = visit callback slot.subscribers context := by
  induction slot generalizing pos context with
  | empty => rfl
  | subscriber s => exact (visit_singleton callback).symm
  | tree sls ih => exact walkSlots_eq callback sls _ (fun i => ih i (pos + 1)) context

/-! ## The order of the ids -/

/-- The first nibble that differs decides the order of two ids. -/
theorem bytes_lt_of_nibbles (a b : Sid) (n : Nat) (heq : nibbles a.bytes n = nibbles b.bytes n)
    (hlt : getNibble a.bytes n < getNibble b.bytes n) : a.bytes < b.bytes := by
  rw [nibbles_eq_iff] at heq
  have hin : n / 2 < b.bytes.length := by
    by_contra hout
    rw [getNibble, getNibble, getD_eq_default _ _ (by rw [a.length_eq, ← b.length_eq]; omega),
      getD_eq_default _ _ (by omega)] at hlt
    exact lt_irrefl _ hlt
  have hin' : n / 2 < a.bytes.length := by rwa [a.length_eq, ← b.length_eq]
  refine List.lt_iff_exists.mpr (.inr ⟨n / 2, hin', hin, fun j hj => ?_, ?_⟩)
  · have hbyte := byte_eq_of_nibbles a.bytes b.bytes j (heq _ (by omega)) (heq _ (by omega))
    rwa [getD_eq_getElem _ _ (by omega), getD_eq_getElem _ _ (by omega)] at hbyte
  rw [← getD_eq_getElem _ 0 hin', ← getD_eq_getElem _ 0 hin, UInt8.lt_iff_toNat_lt]
  have ha := (a.bytes.getD (n / 2) 0).toNat_lt
  rw [Fin.lt_def] at hlt
  by_cases heven : n % 2 = 0
  · simp only [getNibble, heven, if_true, Fin.ofNat_eq_cast, Fin.val_natCast] at hlt
    omega
  have hhigh := congrArg Fin.val (heq (n - 1) (by omega))
  simp only [getNibble, show (n - 1) % 2 = 0 by omega, show (n - 1) / 2 = n / 2 by omega, heven,
    if_true, if_false, Fin.ofNat_eq_cast, Fin.val_natCast] at hhigh hlt
  omega

variable {node : TreeNode} {id : List UInt8} {t : Table}

theorem slots_lt (h : Placed path node) (hij : i < j)
    (ha : a ∈ (node i).subscribers) (hb : b ∈ (node j).subscribers) :
    a.sid.bytes < b.sid.bytes :=
  told_slots (fun a b => bytes_lt_of_nibbles a.sid b.sid) h hij ha hb

/-- Ascending order of the ids. -/
def Ascending (subs : List Subscriber) : Prop :=
  subs.Pairwise fun a b => a.sid.bytes < b.sid.bytes

theorem ascending_table (h : t.WellFormed) : Ascending t.subscribers :=
  pairwise_table h fun a b => bytes_lt_of_nibbles a.sid b.sid

/-! ## Walks from a subscriber and below an abbreviation -/

theorem finRange_drop (i : Nibble) :
    (List.finRange 16).drop i.val = i :: (List.finRange 16).drop (i.val + 1) := by
  rw [drop_eq_getElem_cons (by simp)]
  simp

def behind (node : TreeNode) (i : Nibble) : List Subscriber :=
  ((List.finRange 16).drop (i.val + 1)).flatMap fun j => (node j).subscribers

/-- The subscribers of a node, those of slot `i` apart. -/
theorem filter_slot (hbef : ∀ j < i, ∀ s ∈ (node j).subscribers, p s = false) :
    (Slot.tree node).subscribers.filter p =
      (node i).subscribers.filter p ++ (behind node i).filter p := by
  have hspl := take_append_drop i.val (List.finRange 16)
  rw [finRange_drop] at hspl
  have hnone : (((List.finRange 16).take i.val).flatMap fun j => (node j).subscribers).filter p = [] := by
    rw [filter_eq_nil_iff]
    intro s hs
    obtain ⟨j, hj, hmem⟩ := mem_flatMap.mp hs
    obtain ⟨k, hk, rfl⟩ := mem_take_iff_getElem.mp hj
    have hlt : (List.finRange 16)[k] < i := by
      rw [getElem_finRange, Fin.lt_def]
      simp only [Fin.val_cast]
      omega
    simp [hbef _ hlt s hmem]
  rw [Slot.subscribers, ← hspl, flatMap_append, flatMap_cons, filter_append, filter_append, hnone]
  rfl

theorem mem_behind (hs : s ∈ behind node i) : ∃ j, i < j ∧ s ∈ (node j).subscribers := by
  obtain ⟨j, hj, hmem⟩ := mem_flatMap.mp hs
  obtain ⟨k, hk, rfl⟩ := mem_drop_iff_getElem.mp hj
  refine ⟨_, ?_, hmem⟩
  rw [getElem_finRange, Fin.lt_def]
  simp only [Fin.val_cast]
  omega

/-- The subscribers that `start` leaves: all, or those from its id on. -/
def From (start : Option Subscriber) (s : Subscriber) : Bool :=
  start.all fun b => decide (b.sid.bytes ≤ s.sid.bytes)

/-- A walk that begins at a subscriber below slot `i` begins at that slot. -/
theorem walkNode_from (hnode : Placed path node) (hb : b ∈ (node i).subscribers)
    (hslot : ∀ context, walkTree callback (node i) (path.length + 1) (some b) context =
      visit callback ((node i).subscribers.filter (From (some b))) context) :
    walkTree callback (.tree node) path.length (some b) context =
      visit callback ((Slot.tree node).subscribers.filter (From (some b))) context := by
  have hbef : ∀ j < i, ∀ s ∈ (node j).subscribers, From (some b) s = false := by
    intro j hj s hs
    simpa [From] using slots_lt hnode hj hs hb
  have haft : (behind node i).filter (From (some b)) = behind node i := by
    rw [filter_eq_self]
    intro s hs
    obtain ⟨j, hj, hmem⟩ := mem_behind hs
    simpa [From] using List.le_of_lt (slots_lt hnode hj hb hmem)
  rw [walkTree, Option.elim, (nibble_of_mem hnode hb).2, finRange_drop, walkSlots, hslot,
    filter_slot hbef, haft, visit_append]
  simp [behind, walkSlots_eq callback node _ fun i => walkTree_all callback (path.length + 1)]

theorem walkSlot_from (slot : Slot) (path : List Nibble) (h : slot.WellPlaced path)
    (hb : b ∈ slot.subscribers) (context : σ) :
    walkTree callback slot path.length (some b) context =
      visit callback (slot.subscribers.filter (From (some b))) context := by
  induction slot generalizing path context with
  | empty => simp at hb
  | subscriber s =>
    rw [mem_subscribers_subscriber] at hb
    subst hb
    simp [walkTree, Slot.subscribers, From, visit_singleton]
  | tree sls ih =>
    obtain ⟨i, hi⟩ := (mem_subscribers_tree _ _).mp hb
    refine walkNode_from callback h.1 hi (fun context => ?_)
    simpa using ih i (path ++ [i]) (h.1 i) hi context

/-- A walk visits the subscribers from its start on. -/
theorem walkTable_from (h : t.WellFormed) (hst : ∀ b ∈ start, b ∈ t.subscribers) :
    walkTree callback (.tree t.root) 0 start context =
      visit callback (t.subscribers.filter (From start)) context := by
  cases start with
  | none =>
    have hall : t.subscribers.filter (From none) = t.subscribers := filter_eq_self.mpr fun s _ => rfl
    rw [walkTree_all, hall, Table.subscribers]
  | some b =>
    obtain ⟨i, hi⟩ := (mem_subscribers_tree _ _).mp (hst b rfl)
    exact walkNode_from callback h.placed hi
      (walkSlot_from callback (t.root i) ([] ++ [i]) (h.placed i) hi)

/-- The loop of `prefix_matches` calls for the subscribers that `id` abbreviates. -/
theorem matchLoop_eq (hlen : id.length ≤ sidSize) (path : List Nibble) (node : TreeNode)
    (hnode : Placed path node) (hpath : nibbles id path.length = path)
    (hrem : path.length + remaining = 2 * id.length) (ctx : σ) :
    matchLoop callback id remaining path.length node ctx =
      (visit callback ((Slot.tree node).subscribers.filter
        fun s => s.sid.bytes.take id.length = id) ctx).2 := by
  induction remaining generalizing path node with
  | zero =>
    have hall : ∀ s ∈ (Slot.tree node).subscribers, decide (s.sid.bytes.take id.length = id) = true := by
      intro s hs
      obtain ⟨i, hi⟩ := (mem_subscribers_tree _ _).mp hs
      apply decide_eq_true
      rw [← Matches, matches_iff id s hlen, ← hrem, add_zero, hpath]
      exact (nibble_of_mem hnode hi).1
    rw [matchLoop, walkTree_all, filter_eq_self.mpr hall]
  | succ remaining ih =>
    have hoth : ∀ j, ∀ s ∈ (node j).subscribers, j ≠ getNibble id path.length →
        decide (s.sid.bytes.take id.length = id) = false := by
      intro j s hs hj
      apply decide_eq_false
      intro hm
      rw [← nibble_of_matches hlen hm (by omega), (nibble_of_mem hnode hs).2] at hj
      exact hj rfl
    have hslot := filter_slot fun j hj s hs => hoth j s hs hj.ne
    have haft : ((behind node (getNibble id path.length)).filter
        fun s => decide (s.sid.bytes.take id.length = id)) = [] := by
      rw [filter_eq_nil_iff]
      intro s hs
      obtain ⟨j, hj, hmem⟩ := mem_behind hs
      simp [hoth j s hmem hj.ne']
    rw [hslot, haft, append_nil, matchLoop]
    cases hch : node (getNibble id path.length) with
    | empty => rfl
    | subscriber s =>
      by_cases hm : s.sid.bytes.take id.length = id
      · simp [hm, Slot.subscribers, visit_singleton]
      · simp [hm, Slot.subscribers, visit]
    | tree ch =>
      have hplc := hch ▸ hnode (getNibble id path.length)
      have hr := ih (path ++ [getNibble id path.length]) ch hplc.1
        ((nibbles_append_iff _ _ _).mpr ⟨hpath, rfl⟩) (by simp; omega)
      rwa [length_append, length_singleton] at hr

/-- Both walks call for the subscribers they should, each once and in the order of
the ids, up to the first call that answers non-zero. -/
theorem walks_exact (sids : List Sid) (id : List UInt8) (hlen : id.length ≤ sidSize) (start : Option Subscriber)
    (hstart : ∀ b ∈ start, b ∈ (insertAll sids).subscribers) (context : σ) :
    prefixMatches callback (insertAll sids) id context =
        (visit callback ((insertAll sids).subscribers.filter
          fun s => s.sid.bytes.take id.length = id) context).2 ∧
      enumSubscribers callback (insertAll sids) start context =
        (visit callback ((insertAll sids).subscribers.filter (From start)) context).2 ∧
      Ascending (insertAll sids).subscribers ∧
      ∀ sid, sid ∈ (insertAll sids).subscribers.map Subscriber.sid ↔ sid ∈ sids := by
  have h := insertAll_wellFormed sids
  refine ⟨matchLoop_eq callback hlen [] _ h.placed rfl (by simp) context, ?_, ascending_table h,
    mem_insertAll_sids sids⟩
  rw [enumSubscribers, walkTable_from callback h hstart]

theorem walks_exact_two : let a : Sid := ⟨List.replicate 32 0x11, rfl⟩
    let b : Sid := ⟨0x12 :: List.replicate 31 0, rfl⟩
    let record : Callback (List Sid) := fun s log => (false, log ++ [s.sid])
    prefixMatches record (insertAll [a, b]) [0x11] [] = [a] ∧
    (visit record ((insertAll [a, b]).subscribers.filter
      fun s => s.sid.bytes.take 1 = [0x11]) []).2 = [a] ∧
    ∃ s ∈ (insertAll [a, b]).subscribers, s.sid = b ∧
      enumSubscribers record (insertAll [a, b]) (some s) [] = [b] ∧
      (visit record ((insertAll [a, b]).subscribers.filter (From (some s))) []).2 = [b] := by
  intro a b record
  have hmem : ⟨b, 2, 1⟩ ∈ (insertAll [a, b]).subscribers := by decide
  obtain ⟨hpre, henum, -⟩ := walks_exact record [a, b] [0x11] (by decide) (some ⟨b, 2, 1⟩)
    (fun s hs => by rwa [← Option.some.inj hs]) []
  have hfound : prefixMatches record (insertAll [a, b]) [0x11] [] = [a] := by decide
  have hlisted : enumSubscribers record (insertAll [a, b]) (some ⟨b, 2, 1⟩) [] = [b] := by decide
  exact ⟨hfound, hpre.symm.trans hfound, ⟨b, 2, 1⟩, hmem, rfl, hlisted, henum.symm.trans hlisted⟩

end SubscriberWalk
