import ServalDna.ConfIterator
import ServalDna.FoldRuns

/-!
# The children of a configuration node

`cf_om_make_child` looks a key up among the children of a node by binary search, and
inserts a child where the search has ended. That keeps the children in the order of
their keys, whatever is made and removed.
-/
namespace ConfChildren

open ConfIterator FoldRuns TextCodec List

/-- A string of C that is looked up. -/
structure Key where
  text : Text
  noNul : 0 ∉ text

/-- The key of a child, which is not the root. -/
def keyText (node : Node) : Text := node.key.getD []

/-- `strncmp` with the length of the first string for its limit. -/
def strncmp : Text → Text → Int
  | [], _ => 0
  | k :: _, [] => k.toNat
  | k :: key, c :: child => if k = c then strncmp key child else (k.toNat : Int) - c.toNat

def compareKey (key child : Text) : Int :=
  let c := strncmp key child
  if c = 0 ∧ key.length < child.length then -1 else c

/-- The loop of the search from `m` to `n = stop - 1`. It gives whether the key was found, and
the last index. It is `none` where an entry behind the children is read. -/
def searchLoop (key : Text) (nodv : List Node) (m stop : Nat) : Option (Bool × Nat) :=
  let i := (m + stop - 1) / 2
  match nodv[i]? with
  | none => none
  | some child =>
    let c := compareKey key (keyText child)
    if c = 0 then some (true, i)
    else if 0 < c then if i + 1 < stop then searchLoop key nodv (i + 1) stop else some (false, i + 1)
    else if m < i then searchLoop key nodv m i else some (false, i)
termination_by stop - m

/-- A new child. `path` is the full key before `key`. -/
def leaf (path key : Text) : Node := .mk (some (path ++ key)) (some key) none []

/-- The index and the children after a call. It is `none` at a failed assertion. -/
def cfOmMakeChild (nodv : List Node) (path key : Text) : Option (Nat × List Node) := do
  let (found, i) ← if nodv.isEmpty then some (false, 0) else searchLoop key nodv 0 nodv.length
  if found then return (i, nodv)
  if nodv.length < i then none
  return (i, nodv.take i ++ leaf path key :: nodv.drop i)

def cfOmRemoveChild (nodv : List Node) (n : Nat) : Option (List Node) :=
  if n < nodv.length then some (nodv.eraseIdx n) else none

inductive Op where
  | make (path : Text) (key : Key)
  | remove (n : Nat)

def Op.perform (nodv : List Node) : Op → Option (List Node)
  | .make path key => (cfOmMakeChild nodv path key.text).map Prod.snd
  | .remove n => if n < nodv.length then cfOmRemoveChild nodv n else some nodv

def Sorted (nodv : List Node) : Prop := nodv.Pairwise fun a b => keyText a < keyText b

variable {nodv : List Node}

/-- The sign tells which of two keys is first. -/
theorem compareKey_spec {key : Text} (hkey : 0 ∉ key) (ch : Text) :
    (compareKey key ch = 0 → key = ch) ∧ (0 < compareKey key ch → ch < key) ∧
      (compareKey key ch < 0 → key < ch) := by
  unfold compareKey
  induction key generalizing ch with
  | nil => cases ch <;> simp [strncmp]
  | cons k key ih =>
    obtain ⟨hk, hkey⟩ := not_or.mp (mem_cons.not.mp hkey)
    cases ch with
    | nil =>
      have hpos : k.toNat ≠ 0 := fun h => hk (UInt8.toNat_inj.mp h).symm
      simp [strncmp, hpos]
    | cons c ch =>
      by_cases heq : k = c
      · simpa [strncmp, heq, cons_lt_cons_iff, UInt8.lt_irrefl] using ih hkey ch
      have hne : k.toNat ≠ c.toNat := fun h => heq (UInt8.toNat_inj.mp h)
      simp only [strncmp, if_neg heq, cons_lt_cons_iff, UInt8.lt_iff_toNat_lt]
      rw [if_neg (by omega)]
      omega

theorem searchLoop_some (key : Text) (hm : m < stop) (hstop : stop ≤ nodv.length) :
    ∃ found i, searchLoop key nodv m stop = some (found, i) ∧ i ≤ nodv.length ∧
      (found = true → i < nodv.length) := by
  fun_induction searchLoop key nodv m stop with
  | case1 m stop i hnone =>
    have := List.getElem?_eq_none_iff.mp hnone
    omega
  | case2 m stop i ch hi c hc => exact ⟨true, i, rfl, by omega, fun _ => by omega⟩
  | case3 m stop i ch hi c hc hpos hlt ih => exact ih hlt hstop
  | case4 m stop i ch hi c hc hpos hend => exact ⟨false, i + 1, rfl, by omega, by simp⟩
  | case5 m stop i ch hi c hc hpos hlt ih => exact ih hlt (by omega)
  | case6 m stop i ch hi c hc hpos hend => exact ⟨false, i, rfl, by omega, by simp⟩

/-- A call gives a child, in whatever order the children are. -/
theorem makeChild_some (nodv : List Node) (path key : Text) :
    ∃ i nodv' ch, cfOmMakeChild nodv path key = some (i, nodv') ∧ nodv'[i]? = some ch := by
  by_cases hnil : nodv = []
  · subst hnil
    exact ⟨0, _, _, rfl, rfl⟩
  obtain ⟨found, i, hend, hle, hlt⟩ := searchLoop_some key (length_pos_of_ne_nil hnil) le_rfl
  cases found with
  | true => exact ⟨i, nodv, nodv.get ⟨i, hlt rfl⟩, by simp [cfOmMakeChild, hnil, hend], by simp⟩
  | false => exact ⟨i, _, _, by simp [cfOmMakeChild, hnil, hend, hle]; rfl, by simp [hle]; rfl⟩

/-- The key belongs at index `i`. -/
structure Place (nodv : List Node) (key : Text) (i : Nat) : Prop where
  le : i ≤ nodv.length
  before : ∀ c ∈ nodv.take i, keyText c < key
  behind : ∀ c ∈ nodv.drop i, key < keyText c

theorem before_succ (h : Sorted nodv) (hi : nodv[i]? = some ch) (hlt : keyText ch < key) :
    ∀ c ∈ nodv.take (i + 1), keyText c < key := by
  have hspl := take_append_drop (i + 1) nodv
  rw [take_add_one, hi] at hspl ⊢
  rw [Sorted, ← hspl, pairwise_append, pairwise_append] at h
  refine forall_mem_append.mpr ⟨fun c hc => ?_, forall_mem_singleton.mpr hlt⟩
  exact List.lt_trans (h.1.2.2 c hc ch mem_cons_self) hlt

theorem behind_at (h : Sorted nodv) (hi : nodv[i]? = some ch) (hlt : key < keyText ch) :
    ∀ c ∈ nodv.drop i, key < keyText c := by
  have hdrop : nodv.drop i = ch :: nodv.drop (i + 1) := by
    rw [drop_eq_getElem?_toList_append, hi]
    rfl
  have hrest := h.drop (i := i)
  rw [hdrop] at hrest ⊢
  refine forall_mem_cons.mpr ⟨hlt, fun c hc => ?_⟩
  exact List.lt_trans hlt (rel_of_pairwise_cons hrest hc)

/-- The search finds the key, or the place where it belongs. -/
theorem searchLoop_spec (h : Sorted nodv) (hkey : 0 ∉ key) (hm : m < stop) (hstop : stop ≤ nodv.length)
    (hbef : ∀ c ∈ nodv.take m, keyText c < key) (hbeh : ∀ c ∈ nodv.drop stop, key < keyText c) :
    ∃ i, searchLoop key nodv m stop = some (true, i) ∧ (∃ c, nodv[i]? = some c ∧ keyText c = key) ∨
      searchLoop key nodv m stop = some (false, i) ∧ Place nodv key i := by
  fun_induction searchLoop key nodv m stop with
  | case1 m stop i hnone =>
    have := List.getElem?_eq_none_iff.mp hnone
    omega
  | case2 m stop i ch hi c hc =>
    exact ⟨i, .inl ⟨rfl, ch, hi, ((compareKey_spec hkey _).1 hc).symm⟩⟩
  | case3 m stop i ch hi c hc hpos hlt ih =>
    exact ih hlt hstop (before_succ h hi ((compareKey_spec hkey _).2.1 hpos)) hbeh
  | case4 m stop i ch hi c hc hpos hend =>
    have hlast : i + 1 = stop := by omega
    exact ⟨i + 1, .inr ⟨rfl, hlast ▸ hstop, before_succ h hi ((compareKey_spec hkey _).2.1 hpos),
      hlast ▸ hbeh⟩⟩
  | case5 m stop i ch hi c hc hpos hlt ih =>
    exact ih hlt (by omega) hbef (behind_at h hi ((compareKey_spec hkey _).2.2 (by omega)))
  | case6 m stop i ch hi c hc hpos hend =>
    have hfst : i = m := by omega
    exact ⟨i, .inr ⟨rfl, by omega, hfst ▸ hbef,
      behind_at h hi ((compareKey_spec hkey _).2.2 (by omega))⟩⟩

/-- What a call gives: the child with the key, which is new if there was none. -/
structure Made (nodv : List Node) (key : Text) (i : Nat) (nodv' : List Node) : Prop where
  sorted : Sorted nodv'
  child : ∃ c, nodv'[i]? = some c ∧ keyText c = key
  found : (∃ c ∈ nodv, keyText c = key) → nodv' = nodv
  created : (∀ c ∈ nodv, keyText c ≠ key) → nodv'.eraseIdx i = nodv

theorem Place.made (node : Node) (hpl : Place nodv (keyText node) i) (h : Sorted nodv) :
    Made nodv (keyText node) i (nodv.take i ++ node :: nodv.drop i) where
  sorted := by
    rw [Sorted, pairwise_append, pairwise_cons]
    refine ⟨h.take, ⟨hpl.behind, h.drop⟩, fun a ha => ?_⟩
    have hlt := hpl.before a ha
    exact forall_mem_cons.mpr ⟨hlt, fun b hb => List.lt_trans hlt (hpl.behind b hb)⟩
  child := ⟨node, by simp [hpl.le], rfl⟩
  found := by
    rintro ⟨c, hc, heq⟩
    rw [← take_append_drop i nodv] at hc
    rcases mem_append.mp hc with hc | hc
    · exact absurd (heq ▸ hpl.before c hc) (List.lt_irrefl _)
    · exact absurd (heq ▸ hpl.behind c hc) (List.lt_irrefl _)
  created _ := by simp [eraseIdx_append_of_length_le, hpl.le]

/-- A call makes the child, and its assertion holds. -/
theorem makeChild_made (h : Sorted nodv) (path : Text) (hkey : 0 ∉ key) :
    ∃ i nodv', cfOmMakeChild nodv path key = some (i, nodv') ∧ Made nodv key i nodv' := by
  have hnew : ∀ {i}, Place nodv key i → Made nodv key i
      (nodv.take i ++ leaf path key :: nodv.drop i) := fun hpl => Place.made (leaf path key) hpl h
  by_cases hnil : nodv = []
  · subst hnil
    exact ⟨0, _, rfl, hnew ⟨le_rfl, by simp, by simp⟩⟩
  have hlen := length_pos_of_ne_nil hnil
  obtain ⟨i, ⟨hfnd, c, hi, hc⟩ | ⟨hend, hpl⟩⟩ := searchLoop_spec h hkey hlen le_rfl (by simp) (by simp)
  · refine ⟨i, nodv, by simp [cfOmMakeChild, hnil, hfnd], h, ⟨c, hi, hc⟩, fun _ => rfl, ?_⟩
    intro habs
    exact absurd hc (habs c (mem_of_getElem? hi))
  · refine ⟨i, _, ?_, hnew hpl⟩
    simp [cfOmMakeChild, hnil, hend, hpl.le]

/-- Every operation returns and keeps the children sorted. -/
theorem Op.perform_sorted (op : Op) (h : Sorted nodv) :
    ∃ nodv', op.perform nodv = some nodv' ∧ Sorted nodv' := by
  cases op with
  | make path key =>
    obtain ⟨i, nodv', hmake, hmade⟩ := makeChild_made h path key.noNul
    exact ⟨nodv', by rw [perform, hmake]; rfl, hmade.sorted⟩
  | remove n =>
    rw [perform]
    split
    · next hn => exact ⟨_, if_pos hn, h.sublist (eraseIdx_sublist _ _)⟩
    · exact ⟨nodv, rfl, h⟩

/-- Whatever has been made and removed, the children ascend strictly by their keys, and the next
call returns the index of the child with its key, which is new if there was none. -/
theorem children_sorted (ops : List Op) : ∃ nodv, ops.foldlM Op.perform [] = some nodv ∧ Sorted nodv ∧
    ∀ path (key : Key),
      ∃ i nodv', cfOmMakeChild nodv path key.text = some (i, nodv') ∧ Made nodv key.text i nodv' := by
  obtain ⟨nodv, hrun, h⟩ := foldlM_exists Sorted (fun _ op h => op.perform_sorted h) ops Pairwise.nil
  exact ⟨nodv, hrun, h, fun path key => makeChild_made h path key.noNul⟩

end ConfChildren
