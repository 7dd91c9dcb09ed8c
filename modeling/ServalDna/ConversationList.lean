import ServalDna.MeshmsThread

/-!
# The list of conversations

`update_conversations` goes through the list with a pointer to the link that it is at.
A conversation with news is unlinked there and linked in again as the first one; if it
is the first one already, it stays and is looked at once more. `mark_read` moves the
read markers.
-/
namespace ConversationList

open MeshmsPly MeshmsThread List Option

/-- A conversation in the list, with the other party and the read marker. -/
structure Node where
  them : Nat
  conv : Conversation
  readOffset : Int

/-- A conversation that is updated is up to date. -/
theorem updateConversation_updated (h : updateConversation now stored conv = some (.updated, conv')) :
    conv'.theirSize = size conv'.theirPly := by
  have hrem : ∀ {conv st}, Conversation.remember conv st = (.updated, conv') →
      conv'.theirSize = size conv'.theirPly := by
    intro conv st h
    cases h
    rfl
  rw [updateConversation] at h
  split at h
  · cases h
  · obtain ⟨found, -, h⟩ := bind_eq_some_iff.mp h
    grind [updateAck, acknowledge, bind_eq_some_iff, map_eq_some_iff]

theorem updated_again (h : updateGrown now stored conv = some (.updated, conv')) :
    updateGrown now stored conv' = some (.ok, conv') := by
  rw [updateGrown] at h ⊢
  split at h
  · rw [if_neg (not_not.mpr (updateConversation_updated h))]
  · cases h

variable (now : UInt32) (stored : Bool)

def changed (n : Node) : Bool :=
  (updateGrown now stored n.conv).any fun r => r.1 == .updated

def updates (n : Node) : Bool :=
  (updateGrown now stored n.conv).any fun r => !meshmsFailed r.1

def updated (n : Node) : Node :=
  { n with conv := (updateGrown now stored n.conv).elim n.conv Prod.snd }

/-- The loop of `update_conversations`: the list is `front` up to the link and `rest`
behind it. -/
def updateLoop (status : Status) (front rest : List Node) : Option (Status × List Node) :=
  match rest with
  | [] => some (status, front)
  | n :: rest =>
    match _h : updateGrown now stored n.conv with
    | none => none
    | some (result, conv) =>
      if meshmsFailed result then some (result, front ++ { n with conv } :: rest)
      else if _hu : result = .updated then
        if front = [] then updateLoop .updated [] ({ n with conv } :: rest)
        else updateLoop .updated ({ n with conv } :: front) rest
      else updateLoop status (front ++ [{ n with conv }]) rest
-- a conversation that is looked at once more has no news then
termination_by 2 * rest.length + (rest.head?.any (changed now stored)).toNat
decreasing_by
  · subst _hu
    simp [changed, _h, updated_again _h]
  all_goals
    have hle := (rest.head?.any (changed now stored)).toNat_le
    simp only [length_cons]
    omega

def updateConversations (nodes : List Node) : Option (Status × List Node) :=
  updateLoop now stored .ok [] nodes

variable {now stored}

/-- An update leaves the same conversations in the list. -/
theorem updateLoop_perm (h : updateLoop now stored st fr rest = some (st', nodes)) :
    (nodes.map Node.them).Perm ((fr ++ rest).map Node.them) := by
  fun_induction updateLoop now stored st fr rest with
  | case1 =>
    cases h
    simp
  | case2 => cases h
  | case3 =>
    cases h
    simp
  | case4 st n rest conv _ _ ih => simpa using ih h
  | case5 st fr n rest conv _ _ _ ih =>
    refine (ih h).trans ?_
    rw [map_append, map_append]
    exact perm_middle.symm
  | case6 st fr n rest res conv _ _ _ ih => simpa using ih h

/-- Conversations with news come first, the last of them at the head. -/
theorem updateLoop_order (hall : ∀ n ∈ rest, updates now stored n = true) :
    updateLoop now stored st fr rest =
      some (if rest.any (changed now stored) then .updated else st,
        ((rest.filter (changed now stored)).map (updated now stored)).reverse ++ fr ++
          (rest.filter (!changed now stored ·)).map (updated now stored)) := by
  fun_induction updateLoop now stored st fr rest with
  | case1 => simp
  | case2 st fr n rest hnone => simpa [updates, hnone] using hall n mem_cons_self
  | case3 st fr n rest res conv hn hfail =>
    simpa [updates, hn, hfail] using hall n mem_cons_self
  | case4 st n rest conv hn hok ih =>
    have hagn := updated_again hn
    rw [ih (forall_mem_cons.mpr ⟨by simp [updates, hagn, meshmsFailed], (forall_mem_cons.mp hall).2⟩)]
    simp [changed, updated, hn, hagn]
  | case5 st fr n rest conv hfr hn hok ih =>
    rw [ih (forall_mem_cons.mp hall).2]
    simp [changed, updated, hn]
  | case6 st fr n rest res conv hn hok hu ih =>
    rw [ih (forall_mem_cons.mp hall).2]
    simp [changed, updated, hn, hu]

/-- The read marker of a conversation moves to the offset, not past their last message
and not back. -/
def Node.mark (offset : Int) (c : Node) : Nat × Node :=
  let newOffset := min offset c.conv.theirLastMessage
  if c.readOffset < newOffset then (1, { c with readOffset := newOffset }) else (0, c)

def markRead (theirSid : Option Nat) (offset : Int) : List Node → Nat × List Node
  | [] => (0, [])
  | c :: rest =>
    if theirSid.all (c.them == ·) then
      let r := if theirSid.isSome then (0, rest) else markRead theirSid offset rest
      ((c.mark offset).1 + r.1, (c.mark offset).2 :: r.2)
    else
      let r := markRead theirSid offset rest
      (r.1, c :: r.2)

/-- The read marker of a conversation has moved forward, if at all, and not beyond their
last message. -/
structure Marked (c c' : Node) : Prop where
  them : c'.them = c.them
  conv : c'.conv = c.conv
  forward : c.readOffset ≤ c'.readOffset
  within : c'.readOffset ≠ c.readOffset → c'.readOffset ≤ c.conv.theirLastMessage

theorem marked_refl (c : Node) : Marked c c := ⟨rfl, rfl, le_rfl, fun h => absurd rfl h⟩

theorem mark_marked (off : Int) (c : Node) : Marked c (c.mark off).2 := by
  rw [Node.mark]
  split
  · next hmv => exact ⟨rfl, rfl, le_of_lt hmv, fun _ => min_le_right ..⟩
  · exact marked_refl c

theorem markRead_marked (theirSid : Option Nat) (off : Int) (nodes : List Node) :
    Forall₂ Marked nodes (markRead theirSid off nodes).2 := by
  induction nodes with
  | nil => exact .nil
  | cons c rest ih =>
    rw [markRead]
    split
    · refine .cons (mark_marked off c) ?_
      split
      · exact forall₂_same.mpr fun x _ => marked_refl x
      · exact ih
    · exact .cons (marked_refl c) ih

/-- The list of conversations keeps all its members; unless one cannot be updated, those
with news come first, the latest one first, and the others follow in their order. Read
markers move forward, up to their last message at most. -/
theorem conversations_kept (now : UInt32) (stored : Bool) (nodes : List Node) :
    (∀ status nodes', updateConversations now stored nodes = some (status, nodes') →
      (nodes'.map Node.them).Perm (nodes.map Node.them)) ∧
    ((∀ n ∈ nodes, updates now stored n = true) → ∃ status,
      updateConversations now stored nodes = some (status,
        ((nodes.filter (changed now stored)).map (updated now stored)).reverse ++
          (nodes.filter (!changed now stored ·)).map (updated now stored))) ∧
    ∀ theirSid offset, Forall₂ Marked nodes (markRead theirSid offset nodes).2 := by
  refine ⟨fun status nodes' h => updateLoop_perm h, fun hall => ?_, fun theirSid offset =>
    markRead_marked theirSid offset nodes⟩
  have hord := @updateLoop_order now stored nodes .ok [] hall
  rw [append_nil] at hord
  exact ⟨_, hord⟩

end ConversationList
