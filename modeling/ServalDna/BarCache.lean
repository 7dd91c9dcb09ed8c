import ServalDna.FoldRuns
import ServalDna.RhizomeBar
import ServalDna.RhizomeSync

/-!
# The BARs to ask a peer for

`rhizome_sync.c` has an array of the BARs whose manifests it wants from a peer, and goes
through it from its end. An entry is removed by moving the last one to its place, and
the array is freed with its last entry.
-/
namespace BarCache

open FoldRuns RhizomeBar List
open RhizomeSync (cacheBars barsPerResponse)

structure Entry where
  bar : Bar
  tries : UInt32
  nextRequest : Int

/-- `struct rhizome_sync`, with the memory of its array unless that is NULL. -/
structure State where
  bars : Option (List Entry)
  barCount : Nat

/-- It is `none` for an entry behind the array. -/
def State.read (s : State) (i : Nat) : Option Entry :=
  if i < s.barCount then s.bars.bind (·[i]?) else none

/-- It is `none` behind the memory. -/
def State.write (s : State) (i : Nat) (e : Entry) : Option State :=
  s.bars.bind fun bars => if i < bars.length then some { s with bars := some (bars.set i e) } else none

def State.remove (s : State) (i : Nat) : Option State := do
  let last ← s.read (s.barCount - 1)
  let s' ← if i < s.barCount - 1 then s.write i last else some s
  return if s.barCount - 1 = 0 then ⟨none, 0⟩ else { s' with barCount := s.barCount - 1 }

def State.settle (s : State) (i : Nat) : Option Entry → Option State
  | some e => s.write i e
  | none => s.remove i

/-- What a loop does with an entry. -/
structure Step (σ : Type) where
  kept : Option Entry
  stop : Bool
  next : σ

/-- The loops down from an index, with the entries that they have examined. -/
def sweep (act : Nat → σ → Entry → Step σ) :
    Nat → σ → State → Option (List (Entry × Option Entry) × State)
  | 0, _, s => some ([], s)
  | i + 1, x, s =>
    (s.read i).bind fun e =>
      let step := act i x e
      (s.settle i step.kept).bind fun s =>
        (if step.stop then some ([], s) else sweep act i step.next s).map fun rest =>
          ((e, step.kept) :: rest.1, rest.2)

def superseded (bar : Bar) (e : Entry) : Bool :=
  rhizomeBarPrefix e.bar == rhizomeBarPrefix bar && decide (rhizomeBarVersion e.bar ≤ rhizomeBarVersion bar)

def syncBundleInserted (bar : Bar) (s : State) : Option (List (Entry × Option Entry) × State) :=
  sweep (fun _ _ e => ⟨if superseded bar e then none else some e, false, ()⟩) s.barCount () s

/-- What `rhizome_sync_send_requests` is told at each index. -/
structure Env where
  now : Int
  ignoreManifestCheck : Nat → List UInt8 → Bool
  fetchHasQueueSpace : Nat → UInt8 → Bool
  fetchBarQueued : Nat → Bar → Bool

/-- The number of requests is the state of the loop; a packet has 1200 bytes for them. -/
def requestStep (env : Env) (i requests : Nat) (e : Entry) : Step Nat :=
  let log2Size := e.bar.getD 15 0
  if e.nextRequest > env.now ∨ env.ignoreManifestCheck i (rhizomeBarPrefix e.bar) ∨
      log2Size ≠ 0xff ∧ !env.fetchHasQueueSpace i log2Size then ⟨some e, false, requests⟩
  else if env.fetchBarQueued i e.bar then
    ⟨some { e with nextRequest := env.now + 2000 }, false, requests⟩
  else if 1200 - 32 * requests < 32 then ⟨some e, true, requests⟩
  else
    let e := { e with tries := e.tries - 1, nextRequest := env.now + 5000 }
    ⟨if e.tries = 0 then none else some e, barsPerResponse ≤ requests + 1, requests + 1⟩

def rhizomeSyncSendRequests (env : Env) (s : State) : Option (List (Entry × Option Entry) × State) :=
  sweep (requestStep env) s.barCount 0 s

abbrev Memory := { l : List Entry // l.length = cacheBars }

/-- The part of `sync_cache_bar` that has to do with the array. `memory` is what `emalloc` returns. -/
def syncCacheBar (memory : Option Memory) (interesting : Bool) (now : Int) (bar : Bar) (token : Nat)
    (s : State) : Option State :=
  if cacheBars ≤ s.barCount ∨ token = 0 ∨ interesting = false then some s
  else match s.bars.or (memory.map Subtype.val) with
    | none => some s
    | some bars => State.write ⟨some bars, s.barCount + 1⟩ s.barCount ⟨bar, 10, now⟩

inductive Op where
  | cacheBar (memory : Option Memory) (interesting : Bool) (now : Int) (bar : Bar) (token : Nat)
  | sendRequests (env : Env)
  | bundleInserted (bar : Bar)

def Op.perform (s : State) : Op → Option State
  | .cacheBar memory interesting now bar token => syncCacheBar memory interesting now bar token s
  | .sendRequests env => (rhizomeSyncSendRequests env s).map Prod.snd
  | .bundleInserted bar => (syncBundleInserted bar s).map Prod.snd

/-- The entries of an array that is NULL, or has room for all that it may get. -/
inductive Holds : List Entry → State → Prop where
  | null : Holds [] ⟨none, 0⟩
  | array (live junk : List Entry) (hlen : (live ++ junk).length = cacheBars) :
    Holds live ⟨some (live ++ junk), live.length⟩

variable {pre post live : List Entry}

theorem Holds.inv (h : Holds live s) (hne : live ≠ []) :
    ∃ junk, s = ⟨some (live ++ junk), live.length⟩ ∧ (live ++ junk).length = cacheBars := by
  cases h with
  | null => exact absurd rfl hne
  | array _ junk hlen => exact ⟨junk, rfl, hlen⟩

theorem Holds.read (h : Holds (pre ++ e :: post) s) : s.read pre.length = some e := by
  obtain ⟨junk, rfl, -⟩ := h.inv (by simp)
  simp [State.read]

/-- The last entry takes the place of the one that is removed. -/
theorem Holds.remove (h : Holds (pre ++ e :: post) s) :
    ∃ s' post', s.remove pre.length = some s' ∧ Holds (pre ++ post') s' ∧ post'.Perm post := by
  obtain ⟨junk, rfl, hlen⟩ := h.inv (by simp)
  rcases eq_nil_or_concat' post with rfl | ⟨post', last, rfl⟩
  · by_cases hpre : pre = []
    · exact ⟨⟨none, 0⟩, [], by simp [State.remove, State.read, hpre], by simpa [hpre] using .null, .refl _⟩
    · refine ⟨⟨some (pre ++ e :: junk), pre.length⟩, [], by simp [State.remove, State.read, hpre], ?_, .refl _⟩
      rw [append_nil]
      exact .array pre (e :: junk) (by simpa using hlen)
  · refine ⟨⟨some (pre ++ last :: post' ++ last :: junk), (pre ++ last :: post').length⟩, last :: post',
      by simp [State.remove, State.read, State.write], .array _ (last :: junk) (by simpa using hlen), ?_⟩
    exact (perm_append_singleton _ _).symm

theorem Holds.settle (h : Holds (pre ++ e :: post) s) (kept : Option Entry) :
    ∃ s' post', s.settle pre.length kept = some s' ∧ Holds (pre ++ post') s' ∧
      post'.Perm (kept.toList ++ post) := by
  cases kept with
  | none => exact h.remove
  | some e' =>
    obtain ⟨junk, rfl, hlen⟩ := h.inv (by simp)
    exact ⟨_, e' :: post, by simp [State.settle, State.write],
      .array (pre ++ e' :: post) junk (by simpa using hlen), .refl _⟩

variable (act : Nat → σ → Entry → Step σ) {outcome : Entry → Option Entry → Prop}

/-- A loop leaves the entries below those that it has examined, and keeps of these what it is to
keep. -/
theorem sweep_spec (hact : ∀ i x e, outcome e (act i x e).kept) (h : Holds (pre ++ post) s) (x : σ) :
    ∃ log s' low post', sweep act pre.length x s = some (log, s') ∧ Holds (low ++ post') s' ∧
      pre = low ++ (log.map Prod.fst).reverse ∧ post'.Perm (log.flatMap (·.2.toList) ++ post) ∧
      (∀ a ∈ log, outcome a.1 a.2) ∧ ((∀ i x e, (act i x e).stop = false) → low = []) := by
  induction pre using List.reverseRecOn generalizing post s x with
  | nil => exact ⟨[], s, [], post, rfl, h, rfl, .refl _, by simp, fun _ => rfl⟩
  | append_singleton pre e ih =>
    rw [append_assoc, singleton_append] at h
    have he := hact pre.length x e
    obtain ⟨s1, post1, hs1, h1, hperm⟩ := h.settle (act pre.length x e).kept
    simp only [length_append, length_singleton, sweep, h.read, Option.bind_some, hs1]
    cases hstop : (act pre.length x e).stop with
    | true =>
      refine ⟨_, s1, pre, post1, rfl, h1, rfl, ?_, forall_mem_singleton.mpr he, fun hgo => ?_⟩
      · rwa [flatMap_singleton]
      · cases hstop.symm.trans (hgo _ _ _)
    | false =>
      obtain ⟨log, s', low, post', hrun, h', rfl, hperm', hlog, hlow⟩ := ih h1 (act pre.length x e).next
      refine ⟨_, s', low, post', by rw [if_neg (by simp), hrun]; rfl, h', by simp, ?_,
        forall_mem_cons.mpr ⟨he, hlog⟩, hlow⟩
      rw [flatMap_cons, append_assoc]
      exact hperm'.trans ((hperm.append_left _).trans (perm_append_comm_assoc _ _ _))

/-- A pass that did not come to the entries `low` has examined all others, the last one first. The
array has those, and what was kept of the others. -/
def Passed (outcome : Entry → Option Entry → Prop) (live low : List Entry)
    (r : Option (List (Entry × Option Entry) × State)) : Prop :=
  ∃ log s' live', r = some (log, s') ∧ Holds live' s' ∧ live = low ++ (log.map Prod.fst).reverse ∧
    live'.Perm (low ++ log.flatMap (·.2.toList)) ∧ ∀ a ∈ log, outcome a.1 a.2

theorem Holds.passed (h : Holds live s) (x : σ) (hact : ∀ i x e, outcome e (act i x e).kept) :
    ∃ low, Passed outcome live low (sweep act s.barCount x s) ∧
      ((∀ i x e, (act i x e).stop = false) → low = []) := by
  have hcnt : s.barCount = live.length := by cases h <;> rfl
  rw [← append_nil live] at h
  obtain ⟨log, s', low, post, hrun, h', hlive, hperm, hlog, hlow⟩ := sweep_spec act hact h x
  rw [append_nil] at hperm
  exact ⟨low, ⟨log, s', _, hcnt ▸ hrun, h', hlive, hperm.append_left low, hlog⟩, hlow⟩

/-- What a request pass makes of an entry: it is removed if its tries come to zero. -/
def Tried (e : Entry) : Option Entry → Prop
  | none => e.tries - 1 = 0
  | some e' => e'.bar = e.bar ∧ (e'.tries = e.tries ∨ e'.tries = e.tries - 1 ∧ e'.tries ≠ 0)

theorem requestStep_tried (env : Env) (i requests : Nat) (e : Entry) :
    Tried e (requestStep env i requests e).kept := by
  unfold requestStep
  dsimp only
  split
  · exact ⟨rfl, .inl rfl⟩
  split
  · exact ⟨rfl, .inl rfl⟩
  split
  · exact ⟨rfl, .inl rfl⟩
  split
  · next hzero => exact hzero
  · next hne => exact ⟨rfl, .inr ⟨rfl, hne⟩⟩

theorem Holds.requests (h : Holds live s) (env : Env) :
    ∃ low, Passed Tried live low (rhizomeSyncSendRequests env s) := by
  obtain ⟨low, hpas, -⟩ := h.passed (requestStep env) 0 (requestStep_tried env)
  exact ⟨low, hpas⟩

/-- A bundle that is inserted removes the entries that it supersedes. -/
theorem Holds.inserted (h : Holds live s) (bar : Bar) :
    Passed (fun e kept => (if superseded bar e then none else some e) = kept) live []
      (syncBundleInserted bar s) := by
  obtain ⟨low, hpas, hlow⟩ := h.passed
    (fun _ _ e => ⟨if superseded bar e then none else some e, false, ()⟩) () fun _ _ _ => rfl
  exact hlow (fun _ _ _ => rfl) ▸ hpas

theorem Holds.push (hlen : (live ++ junk).length = cacheBars) (hroom : live.length < cacheBars) (e : Entry) :
    ∃ s', State.write ⟨some (live ++ junk), live.length + 1⟩ live.length e = some s' ∧
      Holds (live ++ [e]) s' := by
  cases junk with
  | nil => simp at hlen; omega
  | cons x junk =>
    refine ⟨⟨some (live ++ [e] ++ junk), (live ++ [e]).length⟩, by simp [State.write], ?_⟩
    exact .array (live ++ [e]) junk (by simpa using hlen)

theorem Holds.barCount (h : Holds live s) : s.barCount = live.length := by
  cases h with
  | null | array => rfl

/-- There is no memory for the array, or an interesting BAR is put at its end. -/
theorem Holds.cacheBar (h : Holds live s) (mem : Option Memory) (intr : Bool) (now : Int)
    (bar : Bar) (tok : Nat) :
    ∃ s' live', syncCacheBar mem intr now bar tok s = some s' ∧ Holds live' s' ∧
      (mem ≠ none → live' = if cacheBars ≤ live.length ∨ tok = 0 ∨ intr = false then live
        else live ++ [⟨bar, 10, now⟩]) := by
  unfold syncCacheBar
  rw [h.barCount]
  split
  · exact ⟨s, live, rfl, h, fun _ => rfl⟩
  next hfull =>
  cases h with
  | null =>
    cases mem with
    | none => exact ⟨_, _, rfl, .null, fun hmem => absurd rfl hmem⟩
    | some mem =>
      obtain ⟨s', hs', h'⟩ := @Holds.push [] mem.1 mem.2 (by decide) ⟨bar, 10, now⟩
      exact ⟨s', _, hs', h', fun _ => rfl⟩
  | array _ junk hlen =>
    obtain ⟨s', hs', h'⟩ := Holds.push hlen (by omega) ⟨bar, 10, now⟩
    exact ⟨s', _, hs', h', fun _ => rfl⟩

/-- Every operation returns and keeps the cache in order. -/
theorem Op.perform_holds (op : Op) (h : Holds live s) :
    ∃ s', op.perform s = some s' ∧ ∃ live', Holds live' s' := by
  cases op with
  | cacheBar mem intr now bar tok =>
    obtain ⟨s', live', hs', h', -⟩ := h.cacheBar mem intr now bar tok
    exact ⟨s', hs', live', h'⟩
  | sendRequests env =>
    obtain ⟨_, log, s', live', hrun, h', -⟩ := h.requests env
    exact ⟨s', by rw [perform, hrun]; rfl, live', h'⟩
  | bundleInserted bar =>
    obtain ⟨log, s', live', hrun, h', -⟩ := h.inserted bar
    exact ⟨s', by rw [perform, hrun]; rfl, live', h'⟩

theorem syncCacheBar_bars (h : RhizomeSync.syncCacheBar intr now st (some bar) tok = some r) :
    r.2.bars = if cacheBars ≤ st.bars.length ∨ tok = 0 ∨ intr bar = false then st.bars
      else st.bars ++ [bar] := by
  rw [RhizomeSync.syncCacheBar] at h
  split at h
  · next hfull =>
    cases h
    rw [if_pos (.inl hfull)]
  next hfull =>
  obtain ⟨c, hc, rfl⟩ := Option.map_eq_some_iff.mp h
  have hend : ∀ st : RhizomeSync.Sync, (RhizomeSync.extendEnd now st tok).2.bars = st.bars := by
    intro st
    rw [RhizomeSync.extendEnd]
    split <;> rfl
  have hstart : ∀ st : RhizomeSync.Sync, (RhizomeSync.extendStart now st tok).2.bars = st.bars := by
    intro st
    rw [RhizomeSync.extendStart]
    split <;> rfl
  rw [hstart, hend]
  rw [RhizomeSync.checkBar] at hc
  split at hc
  · next htok =>
    cases hc
    rw [if_pos (.inr (.inl htok))]
  next htok =>
  cases hintr : intr bar with
  | true =>
    simp only [hintr, if_true] at hc
    cases hc
    rw [if_neg (by simp [hfull, htok])]
  | false =>
    simp only [hintr, Bool.false_eq_true, if_false] at hc
    cases hc
    rw [if_pos (.inr (.inr rfl))]

/-- The array has the BARs that the list of the peer's state has, call by call. -/
theorem cacheBar_refines (h : Holds live s) (hbars : live.map Entry.bar = st.bars.map Subtype.val)
    (hr : RhizomeSync.syncCacheBar intr now st (some bar) tok = some r) (mem : Memory) (time : Int) :
    ∃ s' live', syncCacheBar (some mem) (intr bar) time bar.val tok s = some s' ∧ Holds live' s' ∧
      live'.map Entry.bar = r.2.bars.map Subtype.val := by
  obtain ⟨s', live', hs', h', hlive⟩ := h.cacheBar (some mem) (intr bar) time bar.val tok
  refine ⟨s', live', hs', h', ?_⟩
  have hlen : live.length = st.bars.length := by simpa using congrArg length hbars
  rw [hlive (Option.some_ne_none _), syncCacheBar_bars hr, hlen]
  split
  · exact hbars
  · rw [map_append, map_append, hbars, map_singleton, map_singleton]

/-- Whatever was done, the array has at most its number of entries and is not NULL if it has any.
A bundle that is inserted takes out just the BARs that it supersedes, and a pass of requests those
with no more tries; all others are kept. -/
theorem bars_kept (ops : List Op) : ∃ s live, ops.foldlM Op.perform ⟨none, 0⟩ = some s ∧ Holds live s ∧
    s.barCount ≤ cacheBars ∧ (0 < s.barCount → s.bars ≠ none) ∧
    (∀ env, ∃ low, Passed Tried live low (rhizomeSyncSendRequests env s)) ∧
    ∀ bar, Passed (fun e kept => (if superseded bar e then none else some e) = kept) live []
      (syncBundleInserted bar s) := by
  obtain ⟨s, hrun, live, h⟩ := foldlM_exists (fun s => ∃ live, Holds live s)
    (fun _ op h => h.elim fun _ h => op.perform_holds h) ops ⟨_, .null⟩
  refine ⟨s, live, hrun, h, ?_, ?_, h.requests, h.inserted⟩
  · cases h with
    | null => decide
    | array _ junk hlen => exact hlen ▸ by simp
  · cases h with
    | null => exact fun hpos => absurd hpos (lt_irrefl _)
    | array => exact fun _ => Option.some_ne_none _

end BarCache
