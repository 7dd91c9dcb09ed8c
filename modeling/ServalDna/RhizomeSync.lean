import ServalDna.TextCodec

/-!
# Rhizome synchronisation

A node learns which manifests a peer has from lists of BARs. Each BAR comes with a
token, the row number of the manifest in the peer's database. The node keeps a window
of row numbers that it has gone through, and extends it by lists that overlap it.

This module has the peer's answers, the node's state, and the two together with a
network that loses, repeats and reorders the lists.
-/
namespace RhizomeSync

open TextCodec

def cacheBars : Nat := 60
def maxOldBars : Nat := 40
def barsPerResponse : Nat := 12
def headFlag : Nat := 2 ^ 63 - 1

abbrev Bar := Binary 32

theorem noBar_length : (List.replicate 32 (0 : UInt8)).length = 32 := List.length_replicate

def noBar : Bar := ⟨List.replicate 32 0, noBar_length⟩

/-! ## The peer -/

structure Row where
  rowid : Nat
  bar : Bar
  deriving DecidableEq

/-- The manifests of a peer, in the order in which they were added. -/
structure Database where
  rows : List Row
  sorted : rows.Pairwise fun a b => a.rowid < b.rowid
  positive : ∀ row ∈ rows, 0 < row.rowid

namespace Database

def empty : Database := ⟨[], List.Pairwise.nil, nofun⟩

def fresh (db : Database) (row : Row) : Bool :=
  decide (0 < row.rowid) && db.rows.all fun r => decide (r.rowid < row.rowid)

theorem fresh_iff {db : Database} :
    db.fresh row = true ↔ 0 < row.rowid ∧ ∀ r ∈ db.rows, r.rowid < row.rowid := by
  simp [fresh]

def add (db : Database) (row : Row) (h : db.fresh row = true) : Database where
  rows := db.rows ++ [row]
  sorted := by
    rw [List.pairwise_append]
    refine ⟨db.sorted, List.pairwise_singleton _ _, ?_⟩
    intro a ha b hb
    rw [List.mem_singleton.mp hb]
    exact (fresh_iff.mp h).2 a ha
  positive := by
    intro r hr
    rcases List.mem_append.mp hr with hr | hr
    · exact db.positive r hr
    rw [List.mem_singleton.mp hr]
    exact (fresh_iff.mp h).1

def select (db : Database) (forwards : Bool) (token : Nat) : List Row :=
  if forwards then db.rows.filter fun row => decide (token ≤ row.rowid)
  else (db.rows.filter fun row => decide (row.rowid ≤ token)).reverse

end Database

/-- One entry of a list on the network. -/
structure Entry where
  token : Nat
  bar : Bar
  deriving DecidableEq

def Row.entry (row : Row) : Entry := ⟨row.rowid, row.bar⟩

/-- What is put in front of the first row: the token that was asked for, if no
manifest has it. -/
def boundary (token : Nat) (row : Row) : List Entry :=
  if row.rowid ≠ token ∧ token ≠ headFlag then [⟨token, noBar⟩] else []

/-- The loop over the rows; a list is always small enough for a packet. `maxToken` is
the highest row number that was announced: the loop goes on to it. -/
def sendRows (maxCount maxToken token : Nat) (sent : List Entry) : List Row → List Entry
  | [] => sent
  | row :: rows =>
    let sent :=
      if sent.length < maxCount then
        sent ++ (if sent = [] then boundary token row else []) ++ [row.entry]
      else sent
    if maxCount ≤ sent.length ∧ row.rowid ≤ maxToken then sent
    else sendRows maxCount maxToken token sent rows

def syncSendResponse (db : Database) (forwards : Bool) (token count maxToken : Nat) : List Entry :=
  let maxCount := if count = 0 ∨ barsPerResponse < count then barsPerResponse else count
  let sent := sendRows maxCount maxToken token [] (db.select forwards token)
  if sent ≠ [] ∧ sent.length < maxCount ∧ forwards = false then sent ++ [⟨0, noBar⟩] else sent

/-! ## The node -/

/-- `struct rhizome_sync`. `checked` is not in the source: it has the tokens and BARs
that were passed to `rhizome_is_bar_interesting` since the state was started. -/
structure Sync where
  syncStart : Nat
  syncEnd : Nat
  highestSeen : Nat
  syncComplete : Bool
  barsSeen : Nat
  startTime : Nat
  nextRequest : Nat
  lastExtended : Nat
  lastResponse : Nat
  lastNewBundle : Nat
  bars : List Bar
  checked : List Row
  deriving DecidableEq

def Sync.zero (startTime : Nat) : Sync := ⟨0, 0, 0, false, 0, startTime, 0, 0, 0, 0, [], []⟩

section Process

variable (interesting : Bar → Bool) (now : Nat)

/-- The look into the store. `none` is a crash: there is no BAR to look up. -/
def checkBar (st : Sync) (bar : Option Bar) (token : Nat) : Option (Bool × Sync) :=
  if token = 0 then some (false, st)
  else
    match bar with
    | none => none
    | some bar =>
      let st := { st with checked := st.checked ++ [⟨token, bar⟩] }
      if interesting bar then some (true, { st with bars := st.bars ++ [bar] }) else some (false, st)

def countBar (st : Sync) (token : Nat) : Sync :=
  { st with
    lastExtended := now
    barsSeen := if token ≠ 0 then st.barsSeen + 1 else st.barsSeen }

def extendEnd (st : Sync) (token : Nat) : Bool × Sync :=
  if st.syncEnd < token then (true, { countBar now st token with syncEnd := token }) else (false, st)

def extendStart (st : Sync) (token : Nat) : Bool × Sync :=
  if token < st.syncStart then (true, { countBar now st token with syncStart := token }) else (false, st)

def syncCacheBar (st : Sync) (bar : Option Bar) (token : Nat) : Option (Bool × Sync) :=
  if cacheBars ≤ st.bars.length then some (false, st)
  else
    (checkBar interesting st bar token).map fun r =>
      let e := extendEnd now r.2 token
      let s := extendStart now e.2 token
      (r.1 || e.1 || s.1, s.2)

/-- The variables of the loop that reads the list; `mid` is `mid_point`. -/
structure Scan where
  sync : Sync
  kept : List (Nat × Option Bar)
  hasBefore : Bool
  hasAfter : Bool
  mid : Option Nat

def noteHighest (st : Sync) (token : Nat) : Sync :=
  if st.highestSeen < token then
    { st with highestSeen := token, lastNewBundle := now, syncComplete := false }
  else st

def Entry.known (e : Entry) : Option Bar := if e.bar = noBar then none else some e.bar

def scanEntry (s : Scan) (e : Entry) : Scan :=
  let sync := noteHighest now s.sync e.token
  if sync.syncEnd ≠ 0 then
    let hasBefore := s.hasBefore || decide (e.token ≤ sync.syncEnd)
    let hasAfter := s.hasAfter || decide (sync.syncStart ≤ e.token)
    if e.token ≤ sync.syncEnd ∧ sync.syncStart ≤ e.token then { s with sync, hasBefore, hasAfter }
    else
      { sync, hasBefore, hasAfter
        kept := s.kept ++ [(e.token, e.known)]
        mid := if hasBefore && hasAfter && s.mid.isNone then some s.kept.length else s.mid }
  else { s with sync, kept := s.kept ++ [(e.token, e.known)] }

def scan (s : Scan) : List Entry → Scan
  | [] => s
  | e :: entries => if s.kept.length < barsPerResponse then scan (scanEntry now s e) entries else s

def cacheFrom (added : Bool) (st : Sync) : List (Nat × Option Bar) → Option (Bool × Sync)
  | [] => some (added, st)
  | (token, bar) :: rest =>
    (syncCacheBar interesting now st bar token).bind fun r => cacheFrom (added || r.1) r.2 rest

def cacheBack (added : Bool) (st : Sync) : List (Nat × Option Bar) → Option (Bool × Sync)
  | [] => some (added, st)
  | (token, bar) :: rest =>
    if maxOldBars ≤ st.bars.length then some (added, st)
    else (syncCacheBar interesting now st bar token).bind fun r => cacheBack (added || r.1) r.2 rest

def restart (st : Sync) : Sync := if now - st.startTime > 60 * 60 * 1000 then .zero now else st

def midPoint (s : Scan) : Option Nat :=
  if s.kept ≠ [] ∧ s.hasBefore ∧ s.hasAfter ∧ s.mid = none then some (s.kept.length - 1) else s.mid

def starts (s : Scan) : Bool :=
  s.sync.syncEnd == 0 && match s.kept.head?, s.kept.getLast? with
    | some first, some last => decide (last.1 ≤ first.1)
    | _, _ => false

def begin (s : Scan) : Sync × Option Nat :=
  if starts s then
    ({ s.sync with syncStart := s.sync.highestSeen, syncEnd := s.sync.highestSeen }, some 0)
  else (s.sync, midPoint s)

/-- The BARs that are kept are gone through from the middle outwards. -/
def extend (st : Sync) (kept : List (Nat × Option Bar)) (mid : Nat) : Option Sync := do
  let (added, st) ← cacheFrom interesting now false st (kept.drop mid)
  let (added, st) ← cacheBack interesting now added st (kept.take mid).reverse
  return if added then { st with nextRequest := now } else st

/-- The rest of `sync_process_bar_list`, after the list is read. -/
def processScan (s : Scan) : Option Sync :=
  match begin s with
  | (st, none) => some st
  | (st, some mid) => if s.kept = [] then some st else extend interesting now st s.kept mid

def Scan.init (st : Sync) : Scan := ⟨st, [], false, false, none⟩

def syncProcessBarList (st : Sync) (entries : List Entry) : Option Sync :=
  processScan interesting now (scan now (.init { restart now st with lastResponse := now }) entries)

end Process

/-! ## Node, peer and network -/

def Sync.inside (st : Sync) (row : Row) : Bool :=
  st.syncEnd != 0 && decide (st.syncStart ≤ row.rowid) && decide (row.rowid ≤ st.syncEnd)

/-- `sent` has all lists that the peer has sent; each may arrive any number of times,
in any order, or never. `passed` has the manifests in the window that were in the
database when the window was last moved over them. -/
structure System where
  db : Database
  sent : List (List Entry)
  sync : Sync
  passed : List Row

inductive Event where
  /-- the peer adds a manifest -/
  | add (row : Row)
  /-- the peer answers a request or makes an announcement -/
  | send (forwards : Bool) (token count maxToken : Nat)
  /-- the node receives a list -/
  | receive (interesting : Bar → Bool) (now : Nat) (entries : List Entry)
  /-- the node has fetched bundles, or has given up on them -/
  | forget (bars : List Bar)

def System.init (startTime : Nat) : System := ⟨.empty, [], .zero startTime, []⟩

/-- The window was moved from that of `old` to that of `sync`. -/
def System.move (s : System) (old sync : Sync) : System :=
  { s with
    sync
    passed := s.db.rows.filter fun row =>
      sync.inside row && (!old.inside row || decide (row ∈ s.passed)) }

/-- `none` if the event cannot happen, or if the node crashes. -/
def System.step (s : System) : Event → Option System
  | .add row => if h : s.db.fresh row = true then some { s with db := s.db.add row h } else none
  | .send forwards token count maxToken =>
    some { s with sent := syncSendResponse s.db forwards token count maxToken :: s.sent }
  | .receive interesting now entries =>
    if entries ∈ s.sent then
      (syncProcessBarList interesting now s.sync entries).map (s.move (restart now s.sync))
    else none
  | .forget bars =>
    if bars.length ≤ s.sync.bars.length then some { s with sync := { s.sync with bars } } else none

/-- The states of the runs whose steps all meet a condition. -/
inductive Run (allowed : System → Event → Prop) : System → Prop where
  | init (startTime : Nat) : Run allowed (.init startTime)
  | step {s s' : System} {event : Event} : Run allowed s → allowed s event → s.step event = some s' →
      Run allowed s'

/-- The manifests that the window was moved over have been looked at. -/
def Sound (s : System) : Prop := ∀ row ∈ s.passed, s.sync.inside row = true → row ∈ s.sync.checked

end RhizomeSync
