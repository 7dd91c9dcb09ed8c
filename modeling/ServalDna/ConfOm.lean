import ServalDna.ConfChildren

/-!
# Names and patterns of configuration options

`conf_om.c` finds the components of a name one after the other as it checks the
name, goes down the tree with it, or compares it with a pattern. A place in a
string is the rest of the string from there on.
-/
namespace ConfOm

open ConfIterator ConfChildren FoldRuns TextCodec List

def alphaByte (c : UInt8) : Bool := isalpha c || c == 95

def wordByte (c : UInt8) : Bool := isalnum c || c == 95

def cfFindKeyend (key : Text) : Option Text :=
  let s := if key.head?.any alphaByte then key.tail else key
  let s := s.dropWhile wordByte
  if s.length = key.length ∨ s.head?.any (· != 46) then none else some s

def cfFindKeypatternEnd (key : Text) : Option Text :=
  match cfFindKeyend key with
  | some s => some s
  | none =>
    let s := if key.head? = some 42 then key.tail else key
    let s := if s = [42] then [] else s
    if s.length = key.length ∨ s.head?.any (· != 46) then none else some s

/-! ## Matching -/

/-- The loop that compares two components: at most `n` bytes of the pattern. -/
def skipEqual : Nat → Text → Text → Text × Text
  | n + 1, p :: pat, k :: key => if p = k then skipEqual n pat key else (p :: pat, k :: key)
  | _, pat, key => (pat, key)

/-- The verdict behind the loop of `cf_om_match`. -/
def verdict (pat : Text) (keyend patend : Option Text) : Int :=
  if patend = none then -1 else if keyend = some [] ∧ pat = [] then 1 else 0

/-- The loop of `cf_om_match`. Each round takes a byte of the pattern. -/
def matchLoop : Nat → Text → Text → Option Text → Option Text → Int
  | 0, pat, _, keyend, patend => verdict pat keyend patend
  | fuel + 1, pat, key, keyend, patend =>
    if pat = [] then verdict pat keyend patend
    else match cfFindKeyend key, cfFindKeypatternEnd pat with
      | none, _ => verdict pat none patend
      | some keyend, none => verdict pat (some keyend) none
      | some keyend, some patend =>
        let same := skipEqual (pat.length - patend.length) pat key
        if pat.head? = some 42 ∧ pat[1]? = some 42 then 1
        else if pat.head? ≠ some 42 ∧
            (same.1.length ≠ patend.length ∨ same.2.length ≠ keyend.length) then 0
        else matchLoop fuel patend.tail keyend.tail (some keyend) (some patend)

def cfOmMatch (pattern : Text) (node : Option Node) : Int :=
  match node with
  | none | some (.mk none _ _ _) => 0
  | some (.mk (some fullkey) _ _ _) =>
    if pattern = [] then -1 else matchLoop pattern.length pattern fullkey none (some pattern)

/-! ## The documented grammars -/

/-- `( key "." )* last`, of the components of a text. -/
def derived (key last : Text → Bool) : List Text → Bool
  | [] => false
  | [k] => last k
  | k :: ks => key k && derived key last ks

def isKey (k : Text) : Bool := k.head?.any alphaByte && k.all wordByte

def keyPattern (k : Text) : Bool := k == [42] || isKey k

def lastkeyPattern (k : Text) : Bool := k == [42, 42] || keyPattern k

def optionName (text : Text) : Bool := derived isKey isKey (text.splitOn 46)

def optionPattern (text : Text) : Bool := derived keyPattern lastkeyPattern (text.splitOn 46)

def matched : List Text → List Text → Bool
  | [], ks => ks.isEmpty
  | _, [] => false
  | p :: ps, k :: ks => ps.isEmpty && p == [42, 42] || (p == [42] || p == k) && matched ps ks

/-! ## Components -/

/-- The end of a component, or a dot. -/
def Stop (s : Text) : Prop := s = [] ∨ ∃ rest, s = 46 :: rest

def others (s : Text) : List Text := if s = [] then [] else s.tail.splitOn 46

theorem split_first (text : Text) :
    ∃ k s, 46 ∉ k ∧ text = k ++ s ∧ Stop s ∧ text.splitOn 46 = k :: others s := by
  by_cases h : 46 ∈ text
  · obtain ⟨k, rest, rfl, hk⟩ := eq_append_cons_of_mem h
    exact ⟨k, _, hk, rfl, .inr ⟨rest, rfl⟩, splitOn_append_cons_self_of_not_mem hk rest⟩
  · refine ⟨text, [], h, (append_nil _).symm, .inl rfl, splitOnP_eq_singleton fun c hc => ?_⟩
    exact beq_eq_false_iff_ne.mpr fun heq => h (heq ▸ hc)

theorem derived_others (rest : Text) : derived key last (k :: others (46 :: rest)) =
    (key k && derived key last (rest.splitOn 46)) := by
  have hne := splitOn_ne_nil 46 rest
  rw [others, if_neg (cons_ne_nil _ _), tail_cons]
  generalize rest.splitOn 46 = ks at *
  cases ks with
  | nil => exact absurd rfl hne
  | cons k' ks => rfl

/-- What `cf_find_keyend` takes for a component. -/
def wide (k : Text) : Bool := !k.isEmpty && k.all wordByte

theorem wordByte_of_alphaByte (h : alphaByte c = true) : wordByte c = true := by
  simp only [alphaByte, wordByte, isalnum, Bool.or_eq_true] at h ⊢
  tauto

theorem wide_of_isKey (h : isKey k = true) : wide k = true := by
  cases k with
  | nil => cases h
  | cons c k => exact (Bool.and_eq_true _ _ ▸ h).2

variable {k p s s' : Text}

theorem Stop.dropWhile (h : Stop s) : s.dropWhile wordByte = s := by
  obtain rfl | ⟨rest, rfl⟩ := h <;> rfl

theorem Stop.head (h : Stop s) : s.head?.any (· != 46) = false := by
  obtain rfl | ⟨rest, rfl⟩ := h <;> rfl

theorem keyend_split (hk : 46 ∉ k) (hs : Stop s) :
    cfFindKeyend (k ++ s) = if wide k then some s else none := by
  have hskip : ∀ key : Text, (if key.head?.any alphaByte then key.tail else key).dropWhile wordByte =
      key.dropWhile wordByte := by
    intro key
    cases key with
    | nil => rfl
    | cons c key =>
      split
      · next h => exact (dropWhile_cons_of_pos (wordByte_of_alphaByte h)).symm
      · rfl
  simp only [cfFindKeyend, hskip, dropWhile_append, hs.dropWhile]
  cases hrest : k.dropWhile wordByte with
  | nil =>
    have hall : k.all wordByte = true := by simpa using dropWhile_eq_nil_iff.mp hrest
    cases k with
    | nil => simp [wide]
    | cons c k =>
      simp only [wide, hall, hs.head, isEmpty_nil, if_true, length_append, length_cons]
      simp
  | cons c rest =>
    have hne : k.dropWhile wordByte ≠ [] := by simp [hrest]
    have hword := head_dropWhile_not wordByte hne
    have hmem : c ∈ k := (dropWhile_sublist wordByte).subset (hrest ▸ mem_cons_self)
    have hall : k.all wordByte = false := all_eq_false.mpr ⟨c, hmem, by simp_all⟩
    have hdot : c ≠ 46 := fun h => hk (h ▸ hmem)
    simp [wide, hall, hdot]

theorem keyend_key (h : isKey k = true) (hs : Stop s) : cfFindKeyend (k ++ s) = some s := by
  have hdot : 46 ∉ k :=
    fun hmem => absurd (all_eq_true.mp (Bool.and_eq_true _ _ ▸ h).2 46 hmem) (by decide)
  rw [keyend_split hdot hs, wide_of_isKey h, if_pos rfl]

theorem patternEnd_split (hk : 46 ∉ k) (hs : Stop s) : cfFindKeypatternEnd (k ++ s) =
    if wide k || k == [42] || k == [42, 42] && s.isEmpty then some s else none := by
  rw [cfFindKeypatternEnd, keyend_split hk hs]
  cases hwide : wide k with
  | true => simp
  | false =>
    rcases k with _ | ⟨c, _ | ⟨d, k⟩⟩
    · obtain rfl | ⟨rest, rfl⟩ := hs <;> simp
    · by_cases hc : c = 42
      · obtain rfl | ⟨rest, rfl⟩ := hs <;> simp [hc]
      · simp [hc]
    · have hd : d ≠ 46 := by
        rintro rfl
        simp at hk
      by_cases hc : c = 42
      · by_cases hlast : d = 42 ∧ k = [] ∧ s = []
        · simp [hc, hlast]
        · simp [hc, hd, hlast]
          tauto
      · simp [hc]

/-! ## Matching follows the components -/

theorem skipEqual_iff (k s' : Text) (hp : p.all wordByte = true) (hs : Stop s) :
    ((skipEqual p.length (p ++ s') (k ++ s)).1.length = s'.length ∧
      (skipEqual p.length (p ++ s') (k ++ s)).2.length = s.length) ↔ p = k := by
  induction p generalizing k with
  | nil => simp [skipEqual, eq_comm]
  | cons c p ih =>
    rw [all_cons, Bool.and_eq_true] at hp
    cases k with
    | nil =>
      have hc : c ≠ 46 := by
        rintro rfl
        exact absurd hp.1 (by decide)
      obtain rfl | ⟨rest, rfl⟩ := hs <;> simp [skipEqual, hc] <;> omega
    | cons d k =>
      by_cases hc : c = d
      · simpa [skipEqual, hc] using ih k hp.2
      · simp [skipEqual, hc]
        omega

theorem head_ne_star (h : isKey p = true) (s : Text) : (p ++ s).head? ≠ some 42 := by
  cases p with
  | nil => cases h
  | cons c p =>
    rintro ⟨⟩
    cases h

/-- A round of the loop compares two components. -/
theorem matchLoop_step (hp : keyPattern p = true) (hk : isKey k = true) (hs' : Stop s') (hs : Stop s) :
    matchLoop (fuel + 1) (p ++ s') (k ++ s) keyend patend =
      if p = [42] ∨ p = k then matchLoop fuel s'.tail s.tail (some s) (some s') else 0 := by
  rw [matchLoop, keyend_key hk hs]
  simp only [keyPattern, Bool.or_eq_true, beq_iff_eq] at hp
  obtain rfl | hp := hp
  · rw [patternEnd_split (by decide) hs']
    obtain rfl | ⟨rest, rfl⟩ := hs' <;> simp
  · have hsame := skipEqual_iff k s' (Bool.and_eq_true _ _ ▸ hp).2 hs
    have hhead := head_ne_star hp s'
    have hne : p ++ s' ≠ [] := fun h => by
      rw [(append_eq_nil_iff.mp h).1] at hp
      cases hp
    have hstar : p ≠ [42] := fun h => by simp [h] at hhead
    rw [cfFindKeypatternEnd, keyend_key hp hs', if_neg hne]
    simp only [hhead, false_and, if_false, ne_eq, not_false_eq_true, true_and,
      length_append, Nat.add_sub_cancel, hstar, false_or, ← hsame, ← not_and_or, ite_not]

theorem matchLoop_all (hk : isKey k = true) (hs : Stop s) :
    matchLoop (fuel + 1) [42, 42] (k ++ s) keyend patend = 1 := by
  rw [matchLoop, keyend_key hk hs]
  rfl

theorem matchLoop_nil : matchLoop fuel [] key keyend patend = verdict [] keyend patend := by
  cases fuel <;> simp [matchLoop]

theorem matchLoop_over (h : pat ≠ []) : matchLoop fuel pat [] keyend (some patend) = 0 := by
  cases fuel with
  | zero => simp [matchLoop, verdict, h]
  | succ fuel =>
    rw [matchLoop, if_neg h]
    rfl

/-- The loop compares all the components. -/
theorem matchLoop_eq (hfuel : pat.length ≤ fuel) (hp : optionPattern pat = true)
    (hk : optionName key = true) : matchLoop fuel pat key keyend patend =
      if matched (pat.splitOn 46) (key.splitOn 46) then 1 else 0 := by
  induction fuel generalizing pat key keyend patend with
  | zero =>
    rw [length_eq_zero_iff.mp (Nat.le_zero.mp hfuel)] at hp
    cases hp
  | succ fuel ih =>
    obtain ⟨p, s', -, rfl, hstop', hpat⟩ := split_first pat
    obtain ⟨k, s, -, rfl, hstop, hkey⟩ := split_first key
    rw [optionPattern, hpat] at hp
    rw [optionName, hkey] at hk
    rw [hpat, hkey]
    have hfst : isKey k = true := by
      obtain rfl | ⟨krest, rfl⟩ := hstop
      · exact hk
      · rw [derived_others, Bool.and_eq_true] at hk
        exact hk.1
    obtain rfl | ⟨prest, rfl⟩ := hstop'
    · by_cases hall : p = [42, 42]
      · subst hall
        rw [append_nil, matchLoop_all hfst hstop]
        simp [matched, others]
      · have hp : keyPattern p = true := by simpa [derived, others, lastkeyPattern, hall] using hp
        rw [matchLoop_step hp hfst (.inl rfl) hstop, tail_nil, matchLoop_nil]
        obtain rfl | ⟨krest, rfl⟩ := hstop <;> simp [matched, verdict, hall, others]
    · rw [derived_others, Bool.and_eq_true] at hp
      have hne : prest ≠ [] := by
        rintro rfl
        cases hp.2
      rw [matchLoop_step hp.1 hfst (.inr ⟨prest, rfl⟩) hstop, tail_cons]
      obtain rfl | ⟨krest, rfl⟩ := hstop
      · rw [tail_nil, matchLoop_over hne]
        simp [matched, others]
      · rw [derived_others, Bool.and_eq_true] at hk
        rw [tail_cons, ih (by simp at hfuel; omega) hp.2 hk.2]
        simp [matched, others, ite_and]

/-- **`cf_om_match` compares component by component.** -/
theorem match_components (pattern fullkey : Text) (key text : Option Text) (nodv : List Node)
    (hp : optionPattern pattern = true) (hk : optionName fullkey = true) :
    cfOmMatch pattern (some (.mk (some fullkey) key text nodv)) =
      if matched (pattern.splitOn 46) (fullkey.splitOn 46) then 1 else 0 := by
  have hne : pattern ≠ [] := by
    rintro rfl
    cases hp
  rw [cfOmMatch, if_neg hne]
  exact matchLoop_eq le_rfl hp hk

/-- The pattern `a.*.**` and the name `a.b.c`. -/
theorem match_three :
    cfOmMatch (ascii "a.*.**") (some (.mk (some (ascii "a.b.c")) (some (ascii "c")) none [])) = 1 :=
  match_components _ _ _ _ [] (by decide +kernel) (by decide +kernel)

/-! ## Names -/

/-- What a loop over the components of a name comes to: `keyend` is NULL, there is no child, or
it gets to a node. -/
inductive Walk (σ : Type) where
  | malformed
  | missing
  | node (node : σ)

def Walk.keyend {σ : Type} : Walk σ → Bool
  | .malformed => false
  | _ => true

def walk {σ : Type} (find : Text → Option Text) (child : σ → Text → Option σ) :
    Nat → σ → Text → Walk σ
  | 0, _, _ => .malformed
  | fuel + 1, node, key =>
    match find key with
    | none => .malformed
    | some keyend =>
      match child node (key.take (key.length - keyend.length)), keyend with
      | none, _ => .missing
      | some node, [] => .node node
      | some node, _ :: key => walk find child fuel node key

def isConfigvarname (text : Text) : Bool :=
  (walk cfFindKeyend (fun _ _ => some ()) (text.length + 1) () text).keyend

def isConfigvarpattern (text : Text) : Bool :=
  (walk cfFindKeypatternEnd (fun _ _ => some ()) (text.length + 1) () text).keyend

/-! ## The functions that go down the tree -/

/-- The first child whose key begins with the bytes from `key` to `keyend`. -/
def cfOmGetChild (parent : Node) (key : Text) : Option Node :=
  parent.nodv.find? fun child => strncmp key (keyText child) == 0

/-- The loop of `cf_om_get`, which is not run without a root. -/
def getNode (root : Option Node) (fullkey : Text) : Walk Node :=
  match root with
  | none => .missing
  | some root => walk cfFindKeyend cfOmGetChild (fullkey.length + 1) root fullkey

def cfOmGet (root : Option Node) (fullkey : Text) : Option Text :=
  match getNode root fullkey with
  | .node node => node.text
  | _ => none

def Node.setText (text : Option Text) : Node → Node
  | .mk fullkey key _ nodv => .mk fullkey key text nodv

def Node.setNodv (nodv : List Node) : Node → Node
  | .mk fullkey key text _ => .mk fullkey key text nodv

@[simp] theorem setNodv_nodv (nodv : List Node) (node : Node) : (Node.setNodv nodv node).nodv = nodv := by
  cases node
  rfl

theorem setNodv_keyText (nodv : List Node) (node : Node) :
    keyText (Node.setNodv nodv node) = keyText node := by
  cases node
  rfl

/-- A node as it is allocated. -/
def emptyNode : Node := .mk none none none []

/-- The loop of `cf_om_set` and `cf_om_parse`, which makes the children on its way. `path` is the
full key before `key`, and `assign` is done to the node that the loop gets to. There is no result
of it if `keyend` is NULL. All is `none` at a failed assertion. -/
def makeNode {β : Type} (assign : Node → β × Node) :
    Nat → Text → Text → Option Node → Option (Option β × Option Node)
  | 0, _, _, node => some (none, node)
  | fuel + 1, path, key, node =>
    match cfFindKeyend key with
    | none => some (none, node)
    | some keyend => do
      let parent := node.getD emptyNode
      let name := key.take (key.length - keyend.length)
      let (i, nodv) ← cfOmMakeChild parent.nodv path name
      let child ← nodv[i]?
      let (result, child') ← match keyend with
        | [] => some (some (assign child).1, some (assign child).2)
        | dot :: key => makeNode assign fuel (path ++ name ++ [dot]) key (some child)
      return (result, some (Node.setNodv (nodv.set i (child'.getD child)) parent))

/-- Whether the result is not `CFINVALID`, and the tree. -/
def cfOmSet (root : Option Node) (fullkey : Text) (text : Option Text) : Option (Bool × Option Node) :=
  (makeNode (fun node => ((), Node.setText text node)) (fullkey.length + 1) [] fullkey root).map
    fun r => (r.1.isSome, r.2)

/-- What becomes of a line that is not a comment and not blank. -/
inductive LineResult where
  | malformed | duplicate | stored

def LineResult.accepted : LineResult → Bool
  | .malformed => false
  | _ => true

/-- The result where the loop has got to a node, and whether its text was set. -/
def LineResult.ofStored : Option Bool → LineResult
  | none => .malformed
  | some true => .stored
  | some false => .duplicate

/-- The body of the loop of `cf_om_parse`. -/
def parseLine (line : Text) (root : Option Node) : Option (Option LineResult × Option Node) :=
  let line := if line.getLast? = some 13 then line.dropLast else line
  let fullkey := line.takeWhile (· != 61)
  if line.head? = some 35 ∨ line.all isspace then some (none, root)
  else if fullkey = [] ∨ fullkey.length = line.length then some (some .malformed, root)
  else
    (makeNode (fun node =>
        if node.text.isSome then (false, node)
        else (true, Node.setText (some (line.drop (fullkey.length + 1))) node))
      (fullkey.length + 1) [] fullkey root).map fun r => (some (.ofStored r.1), r.2)

/-- The lines one after the other. The flags of the result are those of the list. -/
def cfOmParse (buf : Text) (root : Option Node) : Option (List LineResult × Option Node) :=
  (buf.splitOn 10).foldlM (fun (results, root) line =>
    (parseLine line root).map fun r => (results ++ r.1.toList, r.2)) ([], root)

theorem walk_components
    (hfind : ∀ k s, 46 ∉ k → Stop s →
      find (k ++ s) = if if s = [] then last k else key k then some s else none)
    (hfuel : text.length < fuel) :
    (walk find (fun _ _ => some ()) fuel () text).keyend = derived key last (text.splitOn 46) := by
  induction fuel generalizing text with
  | zero => omega
  | succ fuel ih =>
    obtain ⟨k, s, hdot, rfl, hstop, hspl⟩ := split_first text
    rw [walk, hfind k s hdot hstop, hspl]
    obtain rfl | ⟨rest, rfl⟩ := hstop
    · cases hlast : last k <;> simp [others, derived, hlast, Walk.keyend]
    · rw [derived_others]
      cases hkey : key k
      · simp [Walk.keyend]
      · simp
        exact ih (by simp at hfuel; omega)

/-- Whether the leading words of a name lead to a node of the tree. -/
def leads (root : Option Node) (text : Text) : Bool :=
  (root.bind ((text.splitOn 46).takeWhile wide |>.foldlM cfOmGetChild)).isSome

/-- `cf_om_get` does not come to a malformed component behind a missing child. -/
theorem walk_getChild (hfuel : text.length < fuel) :
    (walk cfFindKeyend cfOmGetChild fuel node text).keyend =
      (derived wide wide (text.splitOn 46) || !leads (some node) text) := by
  induction fuel generalizing node text with
  | zero => omega
  | succ fuel ih =>
    obtain ⟨k, s, hdot, rfl, hstop, hspl⟩ := split_first text
    rw [walk, keyend_split hdot hstop, leads, hspl]
    cases hwide : wide k with
    | false => obtain rfl | ⟨rest, rfl⟩ := hstop <;> simp [others, derived, hwide, Walk.keyend]
    | true =>
      cases hch : cfOmGetChild node k with
      | none => simp [hwide, hch, Walk.keyend]
      | some node' =>
        obtain rfl | ⟨rest, rfl⟩ := hstop
        · simp [hch, Walk.keyend, others, derived, hwide]
        · have hrest := @ih node' rest (by simp at hfuel; omega)
          rw [derived_others]
          simpa [hwide, hch, others, leads] using hrest

/-- `cf_om_set` and `cf_om_parse` make the children of the words up to a malformed component. -/
theorem makeNode_accepts (assign : Node → β × Node) (path : Text) (node : Option Node)
    (hfuel : text.length < fuel) :
    ∃ r, makeNode assign fuel path text node = some r ∧
      r.1.isSome = derived wide wide (text.splitOn 46) := by
  induction fuel generalizing node text path with
  | zero => omega
  | succ fuel ih =>
    obtain ⟨k, s, hdot, rfl, hstop, hspl⟩ := split_first text
    rw [makeNode, keyend_split hdot hstop, hspl]
    cases hwide : wide k with
    | false =>
      obtain rfl | ⟨rest, rfl⟩ := hstop <;> exact ⟨_, rfl, by simp [others, derived, hwide]⟩
    | true =>
      obtain ⟨i, nodv, ch, hmake, hch⟩ := makeChild_some (node.getD emptyNode).nodv path k
      obtain rfl | ⟨rest, rfl⟩ := hstop
      · simp [hmake, hch, others, derived, hwide]
      · have hlt : rest.length < fuel := by
          simp at hfuel
          omega
        obtain ⟨r, hr, hacc⟩ := ih (path ++ k ++ [46]) (some ch) hlt
        rw [derived_others, hwide, Bool.true_and, ← hacc]
        rw [append_assoc] at hr
        simp [hmake, hch, hr]

/-! ## The order of the tree -/

/-- Every node's children ascend by their keys, so that the iterator goes in key order. -/
def Ordered (root : Option Node) : Prop := ∀ node ∈ root.elim [] Node.preorder, Sorted node.nodv

theorem mem_preorderAll : node ∈ preorderAll nodv ↔ ∃ ch ∈ nodv, node ∈ ch.preorder := by
  induction nodv with
  | nil => simp [preorderAll]
  | cons ch nodv ih => simp [preorderAll, ih]

theorem ordered_iff (node : Node) :
    Ordered (some node) ↔ Sorted node.nodv ∧ ∀ ch ∈ node.nodv, Ordered (some ch) := by
  obtain ⟨fullkey, key, text, nodv⟩ := node
  simp only [Ordered, Option.elim_some, Node.preorder, forall_mem_cons, mem_preorderAll, Node.nodv]
  grind

/-- A child that was made is a leaf, and the others are those of before. -/
theorem makeChild_mem (h : cfOmMakeChild nodv path key = some (i, nodv')) :
    ∀ ch ∈ nodv', ch ∈ nodv ∨ ch.nodv = [] := by
  have hnew : nodv' = nodv ∨ ∃ j, nodv' = nodv.take j ++ leaf path key :: nodv.drop j := by
    rw [cfOmMakeChild] at h
    split at h <;> obtain ⟨⟨found, j⟩, -, h⟩ := Option.bind_eq_some_iff.mp h <;> grind [leaf]
  rcases hnew with rfl | ⟨j, rfl⟩
  · exact fun ch => Or.inl
  · intro ch hch
    rcases mem_append.mp hch with hch | hch
    · exact .inl (mem_of_mem_take hch)
    · rcases mem_cons.mp hch with rfl | hch
      · exact .inr rfl
      · exact .inl (mem_of_mem_drop hch)

theorem sorted_set (h : Sorted nodv) (hi : nodv[i]? = some ch) (hkey : keyText ch' = keyText ch) :
    Sorted (nodv.set i ch') := by
  have hmap : (nodv.set i ch').map keyText = nodv.map keyText := by
    rw [map_set, hkey]
    refine ext_getElem? fun j => ?_
    grind
  rw [Sorted, ← pairwise_map (f := keyText) (R := (· < ·))] at h ⊢
  exact hmap ▸ h

/-- The children on the way of a name are put in order, and a node keeps its own key. -/
theorem makeNode_ordered (assign : Node → β × Node)
    (hassign : ∀ node, (assign node).2.nodv = node.nodv ∧ (assign node).2.key = node.key)
    (hnode : Ordered node) (h : makeNode assign fuel path text node = some r) :
    Ordered r.2 ∧ ∀ ch, node = some ch → ∃ ch', r.2 = some ch' ∧ keyText ch' = keyText ch := by
  induction fuel generalizing node text path r with
  | zero =>
    cases h
    exact ⟨hnode, fun ch hch => ⟨ch, hch, rfl⟩⟩
  | succ fuel ih =>
    obtain ⟨k, s, hdot, rfl, hstop, -⟩ := split_first text
    rw [makeNode, keyend_split hdot hstop] at h
    cases hwide : wide k with
    | false =>
      rw [hwide] at h
      cases h
      exact ⟨hnode, fun ch hch => ⟨ch, hch, rfl⟩⟩
    | true =>
      have hroot : Ordered (some (node.getD emptyNode)) := by
        cases node with
        | none => exact (ordered_iff _).mpr ⟨Pairwise.nil, by simp [emptyNode, Node.nodv]⟩
        | some node => exact hnode
      obtain ⟨hsorted, hchildren⟩ := (ordered_iff _).mp hroot
      have hnul : 0 ∉ k := fun hmem =>
        absurd (all_eq_true.mp (Bool.and_eq_true_iff.mp hwide).2 0 hmem) (by decide)
      obtain ⟨i, nodv, hmake, hmade⟩ := makeChild_made hsorted path hnul
      obtain ⟨ch, hch, -⟩ := hmade.child
      have hall : ∀ ch ∈ nodv, Ordered (some ch) := by
        intro ch hch
        rcases makeChild_mem hmake ch hch with hold | hleaf
        · exact hchildren ch hold
        · exact (ordered_iff _).mpr ⟨hleaf ▸ Pairwise.nil, by simp [hleaf]⟩
      -- What is done to the child keeps its key and its order, at the end of the name and before.
      have hput : ∀ {result ch'}, Ordered (some ch') → keyText ch' = keyText ch →
          r = (result, some (Node.setNodv (nodv.set i ch') (node.getD emptyNode))) →
          Ordered r.2 ∧ ∀ ch, node = some ch → ∃ ch', r.2 = some ch' ∧ keyText ch' = keyText ch := by
        rintro result ch' hord hkey rfl
        refine ⟨(ordered_iff _).mpr ⟨by simpa using sorted_set hmade.sorted hch hkey, fun c hc => ?_⟩, ?_⟩
        · rw [setNodv_nodv] at hc
          rcases mem_or_eq_of_mem_set hc with hc | rfl
          · exact hall c hc
          · exact hord
        · rintro ch rfl
          exact ⟨_, rfl, setNodv_keyText _ ch⟩
      obtain rfl | ⟨rest, rfl⟩ := hstop
      · simp [hwide, hmake, hch] at h
        refine @hput _ (assign ch).2 ?_ ?_ h.symm
        · rw [ordered_iff, (hassign ch).1, ← ordered_iff]
          exact hall ch (mem_of_getElem? hch)
        · rw [keyText, (hassign ch).2, keyText]
      · simp [hwide, hmake, hch] at h
        obtain ⟨⟨result, child⟩, hrec, h⟩ := Option.bind_eq_some_iff.mp h
        cases h
        obtain ⟨hord, hsame⟩ := ih (hall ch (mem_of_getElem? hch)) hrec
        obtain ⟨ch', hsome, hkey⟩ := hsame ch rfl
        cases hsome
        exact hput hord hkey rfl

theorem setText_same (text : Option Text) (node : Node) :
    (Node.setText text node).nodv = node.nodv ∧ (Node.setText text node).key = node.key := by
  cases node
  exact ⟨rfl, rfl⟩

theorem parseLine_ordered (hroot : Ordered root) (h : parseLine line root = some r) : Ordered r.2 := by
  rw [parseLine] at h
  generalize (if line.getLast? = some 13 then _ else _ : Text) = line at h
  split at h
  · cases h
    exact hroot
  split at h
  · cases h
    exact hroot
  obtain ⟨r, hr, rfl⟩ := Option.map_eq_some_iff.mp h
  refine (makeNode_ordered _ (fun node => ?_) hroot hr).1
  split
  · exact ⟨rfl, rfl⟩
  · exact setText_same _ node

/-- **The tree is in key order.** A configuration that is parsed and then set option by option is a
tree in which each node's children, which the iterator visits one after the other, ascend. -/
theorem configuration_ordered (buf : Text) (options : List (Text × Option Text)) {results root r}
    (hparse : cfOmParse buf none = some (results, root))
    (hset : options.foldlM (fun root o => (cfOmSet root o.1 o.2).map Prod.snd) root = some r) :
    Ordered r := by
  have hroot : Ordered root := by
    refine foldlM_some (fun s => Ordered s.2) (fun s line s' hs h => ?_) (by simp [Ordered]) hparse
    obtain ⟨r, hr, rfl⟩ := Option.map_eq_some_iff.mp h
    exact parseLine_ordered hs hr
  refine foldlM_some Ordered (fun s o s' hs h => ?_) hroot hset
  obtain ⟨r, hr, rfl⟩ := Option.map_eq_some_iff.mp h
  obtain ⟨r, hnode, rfl⟩ := Option.map_eq_some_iff.mp hr
  exact (makeNode_ordered _ (setText_same o.2) hs hnode).1

theorem derived_congr (h : ∀ k ∈ ks, key k = key' k ∧ last k = last' k) :
    derived key last ks = derived key' last' ks := by
  induction ks with
  | nil => rfl
  | cons k ks ih =>
    have hrest := ih fun k hk => h k (mem_cons_of_mem _ hk)
    obtain ⟨hkey, hlast⟩ := h k mem_cons_self
    cases ks with
    | nil => exact hlast
    | cons k' ks => exact congrArg₂ (· && ·) hkey hrest

theorem wide_eq_isKey (h : k.head?.any isdigit = false) : wide k = isKey k := by
  cases k with
  | nil => rfl
  | cons c k =>
    have hdig : isdigit c = false := h
    simp [wide, isKey, alphaByte, wordByte, isalnum, hdig]

theorem derived_self (h : ks ≠ []) : derived key key ks = ks.all key := by
  induction ks with
  | nil => exact absurd rfl h
  | cons k ks ih =>
    cases ks with
    | nil => simp [derived]
    | cons k' ks => exact congrArg (key k && ·) (ih (cons_ne_nil _ _))

theorem derived_mono (hkey : ∀ k, key k = true → key' k = true) (hlast : ∀ k, last k = true → last' k = true)
    (h : derived key last ks = true) : derived key' last' ks = true := by
  induction ks with
  | nil => cases h
  | cons k ks ih =>
    cases ks with
    | nil => exact hlast k h
    | cons k' ks =>
      have h := Bool.and_eq_true_iff.mp h
      exact Bool.and_eq_true_iff.mpr ⟨hkey k h.1, ih h.2⟩

/-- A name or pattern as the code takes it: words of letters, digits and `_`, and stars. -/
def worded (text : Text) : Bool :=
  derived (fun k => wide k || k == [42]) (fun k => wide k || k == [42] || k == [42, 42]) (text.splitOn 46)

theorem isConfigvarname_eq (text : Text) :
    isConfigvarname text = derived wide wide (text.splitOn 46) :=
  walk_components (by simpa using fun k s => keyend_split) (Nat.lt_succ_self _)

theorem isConfigvarpattern_eq (text : Text) : isConfigvarpattern text = worded text := by
  refine walk_components (fun k s hk hs => ?_) (Nat.lt_succ_self _)
  rw [patternEnd_split hk hs]
  cases s <;> simp

theorem noDigit_of_alphaByte (h : alphaByte c = true) : isdigit c = false := by
  simp only [alphaByte, isalpha, isupper, islower, isdigit, Bool.or_eq_true, Bool.and_eq_true,
    decide_eq_true_eq, beq_iff_eq, UInt8.le_iff_toNat_le, ← UInt8.toNat_inj, UInt8.reduceToNat,
    Bool.and_eq_false_iff, decide_eq_false_iff_not] at h ⊢
  omega

theorem noDigit_of_pattern (h : keyPattern k = true) : k.head?.any isdigit = false := by
  rcases Bool.or_eq_true_iff.mp h with h | h
  · rw [beq_iff_eq.mp h]
    rfl
  · cases k with
    | nil => rfl
    | cons c k =>
      have hc : alphaByte c = true := (Bool.and_eq_true_iff.mp h).1
      exact noDigit_of_alphaByte hc

theorem noDigit_of_derived (h : derived keyPattern lastkeyPattern ks = true) :
    ∀ k ∈ ks, k.head?.any isdigit = false := by
  induction ks with
  | nil => simp
  | cons k ks ih =>
    cases ks with
    | nil =>
      rcases Bool.or_eq_true_iff.mp h with h | h
      · simp [beq_iff_eq.mp h, isdigit]
      · simpa using noDigit_of_pattern h
    | cons k' ks =>
      have h := Bool.and_eq_true_iff.mp h
      exact forall_mem_cons.mpr ⟨noDigit_of_pattern h.1, ih h.2⟩

/-- The two predicates accept the documented grammars, unless a component begins with a digit. -/
theorem predicates_iff (text : Text) :
    (isConfigvarname text = optionName text ∧ isConfigvarpattern text = optionPattern text) ↔
      (worded text = true → ∀ k ∈ text.splitOn 46, k.head?.any isdigit = false) := by
  rw [isConfigvarname_eq, isConfigvarpattern_eq]
  constructor
  · rintro ⟨-, hpat⟩ hworded
    exact noDigit_of_derived (hpat.symm.trans hworded)
  intro hdigit
  cases hworded : worded text with
  | true =>
    have hwide := fun k hk => wide_eq_isKey (hdigit hworded k hk)
    refine ⟨derived_congr fun k hk => ⟨hwide k hk, hwide k hk⟩, hworded.symm.trans ?_⟩
    refine derived_congr fun k hk => ?_
    rw [hwide k hk, keyPattern, lastkeyPattern, keyPattern]
    simp [Bool.or_comm]
  | false =>
    have hnot : ∀ {key last}, (∀ k, key k = true → (wide k || k == [42]) = true) →
        (∀ k, last k = true → (wide k || k == [42] || k == [42, 42]) = true) →
        derived key last (text.splitOn 46) = false := by
      intro key last hkey hlast
      refine Bool.eq_false_iff.mpr fun h => ?_
      exact absurd (derived_mono hkey hlast h) (by rw [← worded, hworded]; simp)
    have hkey : ∀ k, isKey k = true → wide k = true := fun k => wide_of_isKey
    have hpat : ∀ k, keyPattern k = true → (wide k || k == [42]) = true := by
      intro k hk
      simp only [keyPattern, Bool.or_eq_true] at hk ⊢
      exact hk.symm.imp_left (hkey k)
    refine ⟨(hnot ?_ ?_).trans (hnot ?_ ?_).symm, (hnot hpat ?_).symm⟩
    · exact fun k hk => by simp [hk]
    · exact fun k hk => by simp [hk]
    · exact fun k hk => by simp [hkey k hk]
    · exact fun k hk => by simp [hkey k hk]
    · intro k hk
      rcases Bool.or_eq_true_iff.mp hk with hk | hk
      · simp [hk]
      · rw [hpat k hk, Bool.true_or]

/-- A line is accepted exactly if a variable name stands before its `=`. -/
theorem parseLine_accepts (value : Text) (root : Option Node) (h : 61 ∉ text) :
    ∃ r, parseLine (text ++ 61 :: value) root = some r ∧
      r.1.any LineResult.accepted = isConfigvarname text := by
  have hname : ∀ value : Text, (text ++ 61 :: value).takeWhile (· != 61) = text := by
    intro value
    have htext : ∀ c ∈ text, (c != 61) = true := fun c hc => bne_iff_ne.mpr fun heq => h (heq ▸ hc)
    rw [takeWhile_append_of_pos htext]
    simp
  have hline : ∃ value', (if (text ++ 61 :: value).getLast? = some 13 then (text ++ 61 :: value).dropLast
      else text ++ 61 :: value) = text ++ 61 :: value' := by
    split
    · next hcr =>
      cases value with
      | nil => simp at hcr
      | cons c value => exact ⟨_, by rw [dropLast_append_of_ne_nil (by simp), dropLast_cons_of_ne_nil (by simp)]⟩
    · exact ⟨value, rfl⟩
  obtain ⟨value', hline⟩ := hline
  simp only [parseLine, hline, hname]
  have hspace : (text ++ 61 :: value').all isspace = false := by simp [isspace]
  cases text with
  | nil => exact ⟨_, by simp; rfl, rfl⟩
  | cons c text =>
    by_cases hc : c = 35
    · subst hc
      have hend : cfFindKeyend (35 :: text) = none := by
        simp [cfFindKeyend, show alphaByte 35 = false by decide, show wordByte 35 = false by decide]
      refine ⟨_, by simp; rfl, ?_⟩
      rw [isConfigvarname, walk, hend]
      rfl
    · rw [if_neg (by rw [hspace]; simp [hc]), if_neg (by simp)]
      obtain ⟨r, hr, hacc⟩ := makeNode_accepts (fun node => if node.text.isSome then (false, node)
        else (true, Node.setText (some ((c :: text ++ 61 :: value').drop ((c :: text).length + 1))) node))
        [] root (Nat.lt_succ_self (c :: text).length)
      refine ⟨_, congrArg _ hr, ?_⟩
      rw [isConfigvarname_eq, ← hacc]
      obtain ⟨_ | _ | _, root'⟩ := r <;> rfl

/-- **Names.** The predicates accept the documented grammars, and `cf_om_set`, `cf_om_get` and
`cf_om_parse` report no other names as malformed, exactly if no component of the text begins with
a digit and the words before a malformed component lead to a node of the tree. -/
theorem names_as_documented_iff (text : Text) (root : Option Node) :
    (isConfigvarname text = optionName text ∧ isConfigvarpattern text = optionPattern text ∧
      (∀ value, ∃ r, cfOmSet root text value = some r ∧ r.1 = isConfigvarname text) ∧
      (getNode root text).keyend = isConfigvarname text ∧
      ∀ value, 61 ∉ text → ∃ r, parseLine (text ++ 61 :: value) root = some r ∧
        r.1.any LineResult.accepted = isConfigvarname text) ↔
    (worded text = true → ∀ k ∈ text.splitOn 46, k.head?.any isdigit = false) ∧
      ((text.splitOn 46).all wide = true ∨ leads root text = true) := by
  have hset : ∀ value, ∃ r, cfOmSet root text value = some r ∧ r.1 = isConfigvarname text := by
    intro value
    obtain ⟨r, hr, hacc⟩ := makeNode_accepts (fun node => ((), Node.setText value node)) [] root
      (Nat.lt_succ_self text.length)
    exact ⟨_, congrArg _ hr, hacc.trans (isConfigvarname_eq text).symm⟩
  have hget : (getNode root text).keyend = isConfigvarname text ↔
      ((text.splitOn 46).all wide = true ∨ leads root text = true) := by
    rw [isConfigvarname_eq, ← derived_self (splitOn_ne_nil 46 text)]
    cases root with
    | none => exact eq_comm.trans (by simp [leads, getNode, Walk.keyend])
    | some root =>
      rw [getNode, walk_getChild (Nat.lt_succ_self _)]
      cases derived wide wide (text.splitOn 46) <;> cases leads (some root) text <;> simp
  rw [← and_assoc, predicates_iff, hget]
  exact and_congr_right' ⟨fun h => h.2.1, fun h => ⟨hset, h, fun value => parseLine_accepts value root⟩⟩

/-- The name `1foo`, which is documented as invalid, and a malformed name that is not noticed as
the child of its first component is missing. -/
theorem names_not_as_documented :
    isConfigvarname (ascii "1foo") = true ∧ optionName (ascii "1foo") = false ∧
    isConfigvarname (ascii "foo.") = false ∧
    (getNode (some emptyNode) (ascii "foo.")).keyend = true := by
  decide +kernel

end ConfOm
