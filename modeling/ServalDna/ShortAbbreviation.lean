import ServalDna.PacketFormat
import Mathlib.Data.Finset.Lattice.Fold
import Mathlib.Order.Lattice.Nat

/-!
# Shortest abbreviations

The trie keeps in each subscriber the depth of its slot, and a subscriber is
abbreviated to that many nibbles. The depth is the least number of nibbles that
tells the subscriber from every other one, whatever the order of the insertions.
-/
namespace ShortAbbreviation

open SubscriberTrie OverlayPacket PacketFormat List

def sharedNibbles (a b : Sid) : Nat :=
  Nat.findGreatest (fun n => nibbles a.bytes n = nibbles b.bytes n) (2 * sidSize)

def shortestLen (stored : List Sid) (sid : Sid) : Nat :=
  1 + (stored.toFinset.erase sid).sup (sharedNibbles sid)

theorem nibbles_mono {a b : Sid} (hmn : m ≤ n) (h : nibbles a.bytes n = nibbles b.bytes n) :
    nibbles a.bytes m = nibbles b.bytes m := by
  rw [nibbles_eq_iff] at h ⊢
  exact fun p hp => h p (hp.trans_le hmn)

theorem nibbles_shared (b : Sid) :
    nibbles a.bytes (sharedNibbles a b) = nibbles b.bytes (sharedNibbles a b) :=
  Nat.findGreatest_spec (P := fun n => nibbles a.bytes n = nibbles b.bytes n) (Nat.zero_le _) rfl

theorem le_shared (hne : a ≠ b) (h : nibbles a.bytes n = nibbles b.bytes n) : n ≤ sharedNibbles a b := by
  refine Nat.le_findGreatest (le_of_lt (Nat.lt_of_not_le fun hn => ?_)) h
  exact hne (sid_eq_of_nibbles a b (nibbles_mono hn h))

def Depths : Slot → Nat → Prop
  | .empty, _ => True
  | .subscriber s, depth => s.abbreviateLen = depth
  | .tree slots, depth => ∀ i, Depths (slots i) (depth + 1)

theorem depths_update {node : TreeNode} {slot : Slot} (h : ∀ i, Depths (node i) depth)
    (hslot : Depths slot depth) (j : Nibble) : Depths (Function.update node i slot j) depth := by
  by_cases hji : j = i
  · rwa [hji, Function.update_self]
  rw [Function.update_of_ne hji]
  exact h j

theorem findLoop_depths (sidp : List UInt8) (pos : Nat) (node : TreeNode) (ret : Option Subscriber)
    (h : ∀ i, Depths (node i) (pos + 1)) :
    ∀ i, Depths ((findLoop sidp (some new) remaining pos node ret).2 i) (pos + 1) := by
  induction remaining generalizing pos node ret with
  | zero => exact h
  | succ remaining ih =>
    rw [findLoop]
    cases hslot : node (getNibble sidp pos) with
    | tree ch =>
      have hch := h (getNibble sidp pos)
      rw [hslot] at hch
      exact depths_update h (ih (pos + 1) ch ret hch)
    | empty => exact depths_update h rfl
    | subscriber s =>
      dsimp only
      split
      · exact h
      · exact depths_update h (ih (pos + 1) _ _ (depths_update (fun _ => trivial) rfl))

variable (sids : List Sid)

theorem insertAll_depths : ∀ i, Depths ((insertAll sids).root i) 1 := by
  induction sids using List.reverseRecOn with
  | nil => exact fun _ => trivial
  | append_singleton sids sid ih =>
    rw [insertAll_append, findSubscriber, dif_pos ⟨sid.length_eq, rfl⟩]
    exact findLoop_depths _ 0 _ _ ih

/-- `s` is told from `subs` by its own number of nibbles and, unless it lies in a slot of the
node at depth `top`, by no smaller number. -/
structure Told (subs : List Subscriber) (top : Nat) (s : Subscriber) : Prop where
  alone : ∀ s' ∈ subs,
    nibbles s.sid.bytes s.abbreviateLen = nibbles s'.sid.bytes s.abbreviateLen → s' = s
  least : s.abbreviateLen = top + 1 ∨ top + 1 < s.abbreviateLen ∧ ∃ s' ∈ subs, s.sid ≠ s'.sid ∧
    nibbles s.sid.bytes (s.abbreviateLen - 1) = nibbles s'.sid.bytes (s.abbreviateLen - 1)

/-- A subscriber that shares the nibbles down to slot `i` lies below that slot. -/
theorem mem_slot {node : TreeNode} (hnode : Placed path node)
    {s s' : Subscriber} (hs : s ∈ (node i).subscribers) (hs' : s' ∈ (Slot.tree node).subscribers)
    {n : Nat} (hn : path.length < n) (h : nibbles s.sid.bytes n = nibbles s'.sid.bytes n) :
    s' ∈ (node i).subscribers := by
  obtain ⟨j, hj⟩ := (mem_subscribers_tree _ _).mp hs'
  have hij := (nibbles_eq_iff _ _ _).mp h path.length hn
  rw [(nibble_of_mem hnode hs).2, (nibble_of_mem hnode hj).2] at hij
  rwa [hij]

theorem told_node (path : List Nibble) (node : TreeNode) (i : Nibble) (hnode : Placed path node)
    (hdep : ∀ i, Depths (node i) (path.length + 1)) (hi : node i = slot) (s : Subscriber)
    (hs : s ∈ slot.subscribers) : Told (Slot.tree node).subscribers path.length s := by
  have hmem := hi ▸ hs
  induction slot generalizing path node i with
  | empty => simp at hs
  | subscriber s' =>
    rw [mem_subscribers_subscriber] at hs
    subst hs
    have hslot := hdep i
    rw [hi] at hslot
    refine ⟨fun s' hs' h => ?_, .inl hslot⟩
    have hlt : path.length < s.abbreviateLen := hslot ▸ Nat.lt_succ_self _
    simpa [hi] using mem_slot hnode hmem hs' hlt h
  | tree sls ih =>
    have hslot := hdep i
    rw [hi] at hslot
    have hsls := hi ▸ hnode i
    obtain ⟨k, hk⟩ := (mem_subscribers_tree _ _).mp hs
    have htold := ih k (path ++ [i]) sls k hsls.1 (by rwa [length_append]) rfl hk hk
    rw [length_append, length_singleton] at htold
    have hup : ∀ s' ∈ (Slot.tree sls).subscribers, s' ∈ (Slot.tree node).subscribers :=
      fun s' hs' => (mem_subscribers_tree _ _).mpr ⟨i, hi ▸ hs'⟩
    have hlong : path.length + 1 < s.abbreviateLen := by
      have := htold.least
      omega
    refine ⟨fun s' hs' h => htold.alone s' (hi ▸ mem_slot hnode hmem hs' (by omega) h) h,
      .inr ⟨hlong, ?_⟩⟩
    obtain hend | ⟨-, s', hs', h⟩ := htold.least
    · -- the inner node has two ids, one of which is not that of `s`
      obtain ⟨a, b, ha, hb, hab⟩ := hsls.2
      have hpath : ∀ s' ∈ (Slot.tree sls).subscribers,
          nibbles s'.sid.bytes (s.abbreviateLen - 1) = path ++ [i] := by
        intro s' hs'
        have := wellPlaced_path _ _ hsls s' hs'
        rwa [length_append, length_singleton, ← Nat.add_sub_cancel (path.length + 1) 1, ← hend] at this
      by_cases hsid : s.sid = a.sid
      · exact ⟨b, hup b hb, hsid ▸ hab, (hpath s hs).trans (hpath b hb).symm⟩
      · exact ⟨a, hup a ha, hsid, (hpath s hs).trans (hpath a ha).symm⟩
    · exact ⟨s', hup s' hs', h⟩

theorem told_stored (hs : s ∈ (insertAll sids).subscribers) : Told (insertAll sids).subscribers 0 s := by
  obtain ⟨i, hi⟩ := (mem_subscribers_tree _ _).mp hs
  exact told_node [] _ i (insertAll_wellFormed sids).placed (insertAll_depths sids) rfl s hi

/-- The stored length is the shortest one. -/
theorem abbreviateLen_eq {s : Subscriber} (hs : s ∈ (insertAll sids).subscribers) :
    s.abbreviateLen = shortestLen sids s.sid := by
  have htold := told_stored sids hs
  have hpos : 0 < s.abbreviateLen := by
    have := htold.least
    omega
  apply le_antisymm
  · obtain hone | ⟨-, s', hs', hne, h⟩ := htold.least
    · rw [hone, shortestLen]
      omega
    have hsto : s'.sid ∈ sids := (mem_insertAll_sids sids _).mp (mem_map.mpr ⟨s', hs', rfl⟩)
    have hle : s.abbreviateLen - 1 ≤ _ := (le_shared hne h).trans
      (Finset.le_sup (f := sharedNibbles s.sid)
        (Finset.mem_erase.mpr ⟨Ne.symm hne, List.mem_toFinset.mpr hsto⟩))
    rw [shortestLen]
    omega
  have hsup : (sids.toFinset.erase s.sid).sup (sharedNibbles s.sid) ≤ s.abbreviateLen - 1 := by
    apply Finset.sup_le
    intro sid hsid
    obtain ⟨hne, hmem⟩ := Finset.mem_erase.mp hsid
    obtain ⟨s', hs', rfl⟩ := mem_map.mp ((mem_insertAll_sids sids _).mpr (List.mem_toFinset.mp hmem))
    by_contra hlong
    have heq := htold.alone s' hs' (nibbles_mono (by omega) (nibbles_shared s'.sid))
    exact hne (by rw [heq])
  rw [shortestLen]
  omega

/-- The bytes that `overlay_address_append` writes fit this subscriber only. -/
theorem abbreviation_unique (hs : s ∈ (insertAll sids).subscribers)
    (hsnd : sender.abbreviateLen s.sid = s.abbreviateLen) :
    OnlyMatch (insertAll sids).subscribers (s.sid.bytes.take (abbreviationLen sender e s.sid)) s := by
  have hlen : s.abbreviateLen ≤ 2 * abbreviationLen sender e s.sid ∨
      abbreviationLen sender e s.sid = sidSize := by
    simp only [abbreviationLen, hsnd]
    split_ifs <;> omega
  have hle := (abbreviationLen_bounds sender e s.sid).2
  have htake : (s.sid.bytes.take (abbreviationLen sender e s.sid)).length =
      abbreviationLen sender e s.sid := by
    rw [length_take, s.sid.length_eq, min_eq_left hle]
  have hself : Matches (s.sid.bytes.take (abbreviationLen sender e s.sid)) s := by
    rw [Matches, htake]
  refine ⟨hs, hself, fun s' hs' hm => ?_⟩
  have hshr := ((matches_iff _ _ (by rwa [htake])).mp hself).trans
    ((matches_iff _ _ (by rwa [htake])).mp hm).symm
  rw [htake] at hshr
  apply (told_stored sids hs).alone s' hs'
  obtain hsht | hfull := hlen
  · exact nibbles_mono hsht hshr
  rw [hfull] at hshr
  rw [sid_eq_of_nibbles _ _ hshr]

/-- After any insertions every subscriber has the shortest abbreviation, whatever the order, and
the bytes written for it are resolved to it. -/
theorem abbreviations_shortest (sids : List Sid) :
    (∀ s ∈ (insertAll sids).subscribers, s.abbreviateLen = shortestLen sids s.sid ∧
      ∀ (sender : Sender) (e : Encoder) (id : List UInt8), sender.abbreviateLen s.sid = s.abbreviateLen →
        addressCode sender e s.sid = .abbreviation id →
        OnlyMatch (insertAll sids).subscribers id s ∧
          (findSubscriber (insertAll sids) id false).1 = some s) ∧
    ∀ sids' : List Sid, sids'.Perm sids → ∀ p : Sid × Nat,
      p ∈ (insertAll sids').subscribers.map (fun s => (s.sid, s.abbreviateLen)) ↔
        p ∈ (insertAll sids).subscribers.map (fun s => (s.sid, s.abbreviateLen)) := by
  have hmem : ∀ sids sid n, (sid, n) ∈ (insertAll sids).subscribers.map
      (fun s => (s.sid, s.abbreviateLen)) ↔ sid ∈ sids ∧ n = shortestLen sids sid := by
    intro sids sid n
    rw [← mem_insertAll_sids, Table.sids, mem_map, mem_map]
    constructor
    · rintro ⟨s, hs, heq⟩
      cases heq
      exact ⟨⟨s, hs, rfl⟩, abbreviateLen_eq sids hs⟩
    rintro ⟨⟨s, hs, rfl⟩, rfl⟩
    exact ⟨s, hs, by rw [abbreviateLen_eq sids hs]⟩
  refine ⟨fun s hs => ⟨abbreviateLen_eq sids hs, fun sender e id hsnd hcode => ?_⟩, ?_⟩
  · have hid : id = s.sid.bytes.take (abbreviationLen sender e s.sid) := by
      unfold addressCode at hcode
      split_ifs at hcode
      exact (Code.abbreviation.inj hcode).symm
    have honly := abbreviation_unique sids hs (e := e) hsnd
    have hbds := abbreviationLen_bounds sender e s.sid
    have hlen : id.length = abbreviationLen sender e s.sid := by
      rw [hid, length_take, s.sid.length_eq, min_eq_left hbds.2]
    rw [← hid] at honly
    refine ⟨honly, ?_⟩
    exact ((findSubscriber_lookup (insertAll_wellFormed sids) id (by omega) (by omega)).2 s).mpr honly
  rintro sids' hperm ⟨sid, n⟩
  rw [hmem, hmem, hperm.mem_iff, shortestLen, shortestLen, List.toFinset_eq_of_perm _ _ hperm]

end ShortAbbreviation
