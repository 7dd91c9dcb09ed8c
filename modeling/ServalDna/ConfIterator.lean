import ServalDna.TextCodec

/-!
# The iterator over the configuration

`cf_om_iter_start` and `cf_om_iter_next` of `conf_om.c`. The iterator goes down
the tree with a stack that has room for twenty nodes.
-/
namespace ConfIterator

open List TextCodec

/-- `struct cf_om_node`. Of the root, `fullkey` and `key` are NULL. -/
inductive Node where
  | mk (fullkey key text : Option Text) (nodv : List Node)

def Node.fullkey : Node → Option Text
  | .mk fullkey _ _ _ => fullkey

def Node.key : Node → Option Text
  | .mk _ key _ _ => key

def Node.text : Node → Option Text
  | .mk _ _ text _ => text

def Node.nodv : Node → List Node
  | .mk _ _ _ nodv => nodv

structure Frame where
  node : Node
  index : Nat

/-- The stack holds the entries up to `sp`, the last one first. -/
structure Iterator where
  node : Option Node
  stack : List Frame

def stackSize : Nat := 20

def cfOmIterStart (root : Node) : Iterator := ⟨some root, [⟨root, 0⟩]⟩

/-- The loop of `cf_om_iter_next`, with whether it returns zero. It is `none` where an entry
behind the stack is read or written. -/
def nextLoop : List Frame → Option (Bool × Iterator)
  | [] => none
  | ⟨parent, i⟩ :: below =>
    let sp := below.length
    if stackSize ≤ sp then none
    else match parent.nodv[i]? with
      | some node =>
        if stackSize ≤ sp then some (false, ⟨some node, ⟨parent, i + 1⟩ :: below⟩)
        else if stackSize ≤ sp + 1 then none
        else some (true, ⟨some node, ⟨node, 0⟩ :: ⟨parent, i + 1⟩ :: below⟩)
      | none => if sp = 0 then some (true, ⟨none, [⟨parent, i + 1⟩]⟩) else nextLoop below

def cfOmIterNext (it : Iterator) : Option (Bool × Iterator) :=
  match it.node with
  | none => some (true, it)
  | some _ => nextLoop it.stack

/-- The nodes that a loop over the iterator sees until its node is NULL. -/
def visits : Nat → Iterator → Option (List Node)
  | 0, _ => none
  | fuel + 1, it =>
    match it.node, cfOmIterNext it with
    | none, _ => some []
    | some node, some (true, it) => (visits fuel it).map (node :: ·)
    | some _, _ => none

mutual

/-- A node, and then the trees of its children in the order of the array. -/
def Node.preorder : Node → List Node
  | .mk fullkey key text nodv => .mk fullkey key text nodv :: preorderAll nodv

def preorderAll : List Node → List Node
  | [] => []
  | node :: nodes => node.preorder ++ preorderAll nodes

end

theorem Node.preorder_eq (node : Node) : node.preorder = node :: preorderAll node.nodv := by
  cases node
  rw [preorder, nodv]

/-- The tree has at most that many levels. -/
def Fits : Nat → Node → Prop
  | 0, _ => False
  | n + 1, node => ∀ child ∈ node.nodv, Fits n child

/-- The nodes that are still to be visited. -/
def pending : List Frame → List Node
  | [] => []
  | frame :: below => preorderAll (frame.node.nodv.drop frame.index) ++ pending below

/-- The stack has room for what is still to be visited. -/
def Room : List Frame → Prop
  | [] => True
  | frame :: below => below.length < stackSize ∧ Room below ∧
    ∀ child ∈ frame.node.nodv.drop frame.index, Fits (stackSize - (below.length + 1)) child

theorem fits_iff_children (h : n < stackSize) : Fits (stackSize - n) node ↔
    ∀ child ∈ node.nodv, Fits (stackSize - (n + 1)) child := by
  rw [← Nat.sub_add_cancel (Nat.sub_pos_of_lt h)]
  rfl

/-- A call goes to the first node that the stack leads to, and leaves as much room as there was;
without room it may come to write behind the stack. -/
theorem nextLoop_spec (hne : stack ≠ []) : nextLoop stack = none ∧ ¬Room stack ∨
    ∃ it, nextLoop stack = some (true, it) ∧ (it.node = none ∧ pending stack = [] ∧ Room stack ∨
      ∃ node, it.node = some node ∧ it.stack ≠ [] ∧ pending stack = node :: pending it.stack ∧
        (Room stack ↔ Room it.stack)) := by
  induction stack with
  | nil => exact absurd rfl hne
  | cons frame below ih =>
    obtain ⟨par, i⟩ := frame
    have hdrop : par.nodv.drop i = par.nodv[i]?.toList ++ par.nodv.drop (i + 1) :=
      drop_eq_getElem?_toList_append
    rw [nextLoop, pending, Room, hdrop]
    by_cases hsp : stackSize ≤ below.length
    · exact .inl ⟨if_pos hsp, fun h => Nat.not_lt_of_le hsp h.1⟩
    rw [if_neg hsp]
    cases hch : par.nodv[i]? with
    | some node =>
      simp only [if_neg hsp, Option.toList_some, singleton_append, forall_mem_cons]
      by_cases hdeep : stackSize ≤ below.length + 1
      · refine .inl ⟨if_pos hdeep, fun h => ?_⟩
        rw [Nat.sub_eq_zero_of_le hdeep] at h
        exact h.2.2.1
      refine .inr ⟨_, if_neg hdeep, .inr ⟨node, rfl, cons_ne_nil _ _, ?_, ?_⟩⟩
      · simp [pending, preorderAll, node.preorder_eq]
      · rw [fits_iff_children (Nat.lt_of_not_le hdeep)]
        simp only [Room, length_cons, drop_zero, Nat.lt_of_not_le hdeep, Nat.lt_of_not_le hsp]
        tauto
    | none =>
      have hnil : par.nodv.drop (i + 1) = [] :=
        drop_eq_nil_of_le (Nat.le_succ_of_le (List.getElem?_eq_none_iff.mp hch))
      cases below with
      | nil =>
        refine .inr ⟨_, rfl, .inl ⟨rfl, ?_, ?_⟩⟩
        · simp [hnil, preorderAll, pending]
        · simp [hnil, Room, stackSize]
      | cons frame below =>
        have hlt : below.length + 1 < stackSize := Nat.lt_of_not_le hsp
        simpa [hnil, preorderAll, hlt] using ih (cons_ne_nil _ _)

/-- With room, the loop comes past all nodes and to its end. -/
theorem visits_pending (hroom : Room stack) (hne : stack ≠ []) (node : Node)
    (hfuel : (pending stack).length + 1 < fuel) :
    visits fuel ⟨some node, stack⟩ = some (node :: pending stack) := by
  induction fuel generalizing stack node with
  | zero => cases hfuel
  | succ fuel ih =>
    obtain ⟨-, hfull⟩ | ⟨⟨next, stack'⟩, hnext, hlast | ⟨node', rfl, hne', hpen, hroom'⟩⟩ :=
      nextLoop_spec hne
    · exact absurd hroom hfull
    · obtain ⟨rfl, hnil, -⟩ := hlast
      cases fuel with
      | zero => omega
      | succ fuel => simp [visits, cfOmIterNext, hnext, hnil]
    · rw [hpen, length_cons] at hfuel
      simp [visits, cfOmIterNext, hnext, ih (hroom'.mp hroom) hne' node' (by omega), hpen]

/-- What the loop gets through has room. -/
theorem room_of_visits (hne : stack ≠ []) (h : visits fuel ⟨some node, stack⟩ = some nodes) :
    Room stack := by
  induction fuel generalizing stack node nodes with
  | zero => cases h
  | succ fuel ih =>
    simp only [visits, cfOmIterNext] at h
    obtain ⟨hnone, -⟩ | ⟨⟨next, stack'⟩, hnext, ⟨-, -, hroom⟩ | ⟨node', rfl, hne', -, hroom'⟩⟩ :=
      nextLoop_spec hne
    · rw [hnone] at h
      cases h
    · exact hroom
    · rw [hnext] at h
      obtain ⟨rest, hrest, -⟩ := Option.map_eq_some_iff.mp h
      exact hroom'.mpr (ih hne' hrest)

/-- The loop sees every node once, in depth first order, exactly if the tree has at most twenty
levels. No call ever returns the error. -/
theorem iterator_visits_all_iff (root : Node) :
    ((∃ fuel, visits fuel (cfOmIterStart root) = some root.preorder) ↔ Fits stackSize root) ∧
      ∀ it it', cfOmIterNext it ≠ some (false, it') := by
  have hpen : pending [⟨root, 0⟩] = preorderAll root.nodv := by simp [pending]
  have hroom : Room [⟨root, 0⟩] ↔ Fits stackSize root := by simp [Room, Fits, stackSize]
  refine ⟨⟨?_, ?_⟩, ?_⟩
  · rintro ⟨fuel, h⟩
    exact hroom.mp (room_of_visits (cons_ne_nil _ _) h)
  · intro hfits
    rw [cfOmIterStart, root.preorder_eq, ← hpen]
    exact ⟨_, visits_pending (hroom.mpr hfits) (cons_ne_nil _ _) root (Nat.lt_succ_self _)⟩
  · intro it it' h
    rw [cfOmIterNext] at h
    split at h
    · cases h
    by_cases hne : it.stack = []
    · rw [hne] at h
      cases h
    · obtain ⟨hnone, -⟩ | ⟨next, hnext, -⟩ := nextLoop_spec hne
      · cases hnone.symm.trans h
      · cases hnext.symm.trans h

def chain : Nat → Node
  | 0 => .mk none none none []
  | n + 1 => .mk none none none [chain n]

/-- One level more: the last of these calls writes behind the stack, where it should return an
error. -/
theorem iterator_overruns : ((range 20).foldlM (fun it _ => (cfOmIterNext it).map Prod.snd)
    (cfOmIterStart (chain 20))).isNone := by
  decide

end ConfIterator
