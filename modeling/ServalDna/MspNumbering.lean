import ServalDna.MspWindow
import Mathlib.Data.List.Infix

/-!
# The true numbers of the packets of a window

A window only holds sixteen bits of each sequence number. Here every packet of a
window comes with its true number, and what `add_packet` and
`free_acked_packets` do is described in these numbers. The walk of `add_packet`
puts a packet that is far ahead of a stale one in front of it; after that the
list is no longer in order, and the next packet to be delivered is turned away
as ambiguous until the connection ends.
-/
namespace MspNumbering

open SerialNumber MspWindow List

/-! ## Where `add_packet` puts a packet -/

def newPacket (seq : UInt16) (flags : UInt8) (payload : List UInt8) : Packet :=
  ⟨seq, flags, none, payload, 0⟩

theorem insertInOrder_split (h : insertInOrder packet pks = some pks') :
    ∃ before after, pks = before ++ after ∧ pks' = before ++ packet :: after ∧
      (∀ p ∈ before, compareWrapped p.seq packet.seq < 0) ∧
      ∀ q ∈ after.head?, ¬ compareWrapped q.seq packet.seq < 0 ∧ q.seq ≠ packet.seq := by
  fun_induction insertInOrder packet pks generalizing pks' with
  | case1 =>
    cases h
    exact ⟨[], [], rfl, rfl, by simp, by simp⟩
  | case2 p rest hlt ih =>
    obtain ⟨rest', hrest, rfl⟩ := Option.map_eq_some_iff.mp h
    obtain ⟨before, after, rfl, rfl, hbef, haft⟩ := ih hrest
    refine ⟨p :: before, after, rfl, rfl, ?_, haft⟩
    simpa using ⟨hlt, hbef⟩
  | case3 => cases h
  | case4 p rest hge hne =>
    cases h
    exact ⟨[], p :: rest, rfl, rfl, by simp, by simpa using ⟨Int.not_lt.mp hge, hne⟩⟩

/-- Where a packet with the number `seq` can go in a list that is not empty. -/
inductive Place (seq : UInt16) : List Packet → List Packet → Prop where
  | last (head tail : Packet) (packets : List Packet) (hhead : packets.head? = some head)
      (htail : packets.getLast? = some tail) (hlt : compareWrapped tail.seq seq < 0)
      (hge : ¬ 0 < compareWrapped head.seq seq) : Place seq packets []
  | between (next tail : Packet) (before after : List Packet)
      (htail : (next :: after).getLast? = some tail) (hge : ¬ compareWrapped tail.seq seq < 0)
      (hne : tail.seq ≠ seq) (hbefore : ∀ p ∈ before, compareWrapped p.seq seq < 0)
      (hnext : ¬ compareWrapped next.seq seq < 0) (hnext' : next.seq ≠ seq) :
      Place seq before (next :: after)

/-- What `add_packet` can do. -/
theorem addPacket_cases :
    ((addPacket w seq flags pl).1 ≠ .added ∧ (addPacket w seq flags pl).2 = w) ∨
    ∃ before after, w.packets = before ++ after ∧ addPacket w seq flags pl =
        (.added, w.withPackets (before ++ newPacket seq flags pl :: after)) ∧
      (w.packets = [] ∨ Place seq before after) := by
  simp only [addPacket]
  split
  · next hnil => exact .inr ⟨[], [], hnil, rfl, .inl hnil⟩
  next head rest hcons =>
  have htail : (head :: rest).getLast? = some (rest.getLastD head) := by
    rw [getLast?_cons, getLastD_eq_getLast?]
  split
  · exact .inl ⟨by simp, rfl⟩
  next hne =>
  split
  · next hlt =>
    split
    · exact .inl ⟨by simp, rfl⟩
    next hhead =>
    refine .inr ⟨head :: rest, [], by rw [hcons, append_nil], rfl, .inr ?_⟩
    exact .last head _ _ rfl htail hlt hhead
  next hge =>
  split
  · exact .inl ⟨by simp, rfl⟩
  next pks hins =>
  obtain ⟨before, after, hspl, rfl, hbef, haft⟩ := insertInOrder_split hins
  refine .inr ⟨before, after, hcons.trans hspl, rfl, .inr ?_⟩
  cases after with
  | nil =>
    rw [hspl, append_nil] at htail
    exact absurd (hbef _ (mem_of_getLast? htail)) hge
  | cons next after =>
    rw [hspl, getLast?_append_of_ne_nil _ (by simp)] at htail
    obtain ⟨hnext, hnext'⟩ := haft next rfl
    exact .between next _ before after htail hge hne hbef hnext hnext'

/-! ## Windows in order and jammed windows -/

/-- Packets with their true numbers. -/
abbrev Numbered := List (Nat × Packet)

/-- The numbers go up and lie close enough to be compared. -/
def Ordered (l : Numbered) : Prop := l.Pairwise (fun a b => a.1 < b.1 ∧ b.1 ≤ a.1 + 32768)

/-- A stale packet at the end is so far behind the first one that `next`, the
number to be delivered next, looks later than the end and earlier than the head. -/
structure Jammed (next : Nat) (l : Numbered) : Prop where
  ends : ∃ first last, l.head? = some first ∧ l.getLast? = some last ∧
    next < first.1 ∧ last.1 < next ∧ last.1 + 32768 < first.1
  missing : ∀ e ∈ l, e.1 ≠ next

/-- A received window: `next` is to be delivered next and `total` numbers exist. -/
structure Received (next total : Nat) (l : Numbered) : Prop where
  seq : ∀ e ∈ l, e.2.seq = serial e.1
  recent : ∀ e ∈ l, next ≤ e.1 + 32768
  below : ∀ e ∈ l, e.1 < total
  shape : Ordered l ∨ Jammed next l

theorem received_nil (next total : Nat) : Received next total [] :=
  ⟨by simp, by simp, by simp, .inl List.Pairwise.nil⟩

variable {l : Numbered} {e behind : Nat × Packet} {a b next : Nat}

theorem received_mono (h : Received next total l) (hle : total ≤ total') : Received next total' l :=
  ⟨h.seq, h.recent, fun e he => lt_of_lt_of_le (h.below e he) hle, h.shape⟩

theorem ordered_first (h : Ordered l) (hfst : l.head? = some first) (he : e ∈ l) :
    first.1 ≤ e.1 ∧ e.1 ≤ first.1 + 32768 := by
  cases l with
  | nil => cases hfst
  | cons a rest =>
    cases hfst
    obtain rfl | he := mem_cons.mp he
    · omega
    have hlt := (pairwise_cons.mp h).1 e he
    omega

theorem ordered_final (h : Ordered l) (hlast : l.getLast? = some last) (he : e ∈ l) :
    e.1 ≤ last.1 ∧ last.1 ≤ e.1 + 32768 := by
  obtain ⟨init, rfl⟩ := getLast?_eq_some_iff.mp hlast
  obtain he | he := mem_append.mp he
  · have hlt := (pairwise_append.mp h).2.2 e he last mem_cons_self
    omega
  obtain rfl := mem_singleton.mp he
  omega

/-! ## Placing a packet -/

theorem before_iff (hb : b < a + 65536) (ha : a < b + 32768) :
    compareWrapped (serial a) (serial b) < 0 ↔ a < b ∧ b ≤ a + 32768 := by
  rw [compareWrapped_neg_iff]
  omega

theorem after_iff (hb : b < a + 65536) (ha : a < b + 32768) :
    0 < compareWrapped (serial a) (serial b) ↔ b < a ∨ a + 32768 < b := by
  rw [compareWrapped_pos_iff]
  omega

theorem same_iff (hb : b < a + 65536) (ha : a < b + 65536) : serial a = serial b ↔ a = b := by
  rw [serial_eq_iff]
  omega

section Placing

variable {before after : Numbered} (hnear : total < next + 32768) (hnew : m < total ∧ total ≤ m + 32768)

include hnear hnew

/-- Every packet of the window can be compared with a new one that is not late. -/
theorem comparable (h : Received next total l) (he : e ∈ l) : m < e.1 + 65536 ∧ e.1 < m + 32768 := by
  have hrec := h.recent e he
  have hbel := h.below e he
  omega

theorem place_last (h : Received next total before) (hpl : Place (serial m) (before.map Prod.snd) []) :
    ∃ first last, before.head? = some first ∧ before.getLast? = some last ∧
      first.1 ≤ m ∧ m ≤ first.1 + 32768 ∧ last.1 < m ∧ m ≤ last.1 + 32768 := by
  cases hpl with
  | last head tail _ hhead htail hlt hge =>
    rw [head?_map] at hhead
    rw [getLast?_map] at htail
    obtain ⟨first, hfst, rfl⟩ := Option.map_eq_some_iff.mp hhead
    obtain ⟨last, hlast, rfl⟩ := Option.map_eq_some_iff.mp htail
    have hmemF := mem_of_head? hfst
    have hmemL := mem_of_getLast? hlast
    have hF := comparable hnear hnew h hmemF
    have hL := comparable hnear hnew h hmemL
    rw [h.seq first hmemF, after_iff hF.1 hF.2] at hge
    rw [h.seq last hmemL, before_iff hL.1 hL.2] at hlt
    exact ⟨first, last, hfst, hlast, by omega, by omega, hlt⟩

theorem place_between (h : Received next total (before ++ behind :: after))
    (hpl : Place (serial m) (before.map Prod.snd) ((behind :: after).map Prod.snd)) :
    ∃ last, (behind :: after).getLast? = some last ∧ (m < last.1 ∨ last.1 + 32768 < m) ∧
      (∀ e ∈ before, e.1 < m ∧ m ≤ e.1 + 32768) ∧ (m < behind.1 ∨ behind.1 + 32768 < m) := by
  cases hpl with
  | between next tail _ _ htail hge hne hbef hnext hnext' =>
    rw [← map_cons, getLast?_map] at htail
    obtain ⟨last, hlast, rfl⟩ := Option.map_eq_some_iff.mp htail
    have hmemL : last ∈ before ++ behind :: after :=
      mem_append_right _ (mem_of_getLast? hlast)
    have hmemB : behind ∈ before ++ behind :: after := by simp
    have hL := comparable hnear hnew h hmemL
    have hB := comparable hnear hnew h hmemB
    rw [h.seq last hmemL, before_iff hL.1 hL.2] at hge
    rw [h.seq last hmemL, Ne, same_iff hL.1 (by omega)] at hne
    rw [h.seq behind hmemB, before_iff hB.1 hB.2] at hnext
    rw [h.seq behind hmemB, Ne, same_iff hB.1 (by omega)] at hnext'
    refine ⟨last, hlast, by omega, fun e he => ?_, by omega⟩
    have hmem : e ∈ before ++ behind :: after := mem_append_left _ he
    have hE := comparable hnear hnew h hmem
    have hlt := hbef e.2 (mem_map_of_mem he)
    rwa [h.seq e hmem, before_iff hE.1 hE.2] at hlt

theorem ordered_append (h : Received next total before) (hord : Ordered before)
    (hpl : Place (serial m) (before.map Prod.snd) []) : Ordered (before ++ [(m, packet)]) := by
  obtain ⟨first, last, hfst, hlast, hm⟩ := place_last hnear hnew h hpl
  refine pairwise_append.mpr ⟨hord, pairwise_singleton _ _, fun e he e' he' => ?_⟩
  obtain rfl := mem_singleton.mp he'
  have hF := ordered_first hord hfst he
  have hL := ordered_final hord hlast he
  omega

theorem not_jammed_append (h : Received next total before) (hjam : Jammed next before) :
    ¬ Place (serial m) (before.map Prod.snd) [] := by
  intro hpl
  obtain ⟨first, last, hfst, hlast, hm⟩ := place_last hnear hnew h hpl
  obtain ⟨first', last', hfst', hlast', hends⟩ := hjam.ends
  rw [hfst] at hfst'
  rw [hlast] at hlast'
  cases hfst'
  cases hlast'
  omega

theorem ordered_insert (h : Received next total (before ++ behind :: after))
    (hord : Ordered (before ++ behind :: after))
    (hpl : Place (serial m) (before.map Prod.snd) ((behind :: after).map Prod.snd)) :
    Ordered (before ++ (m, packet) :: behind :: after) ∨
      Jammed next (before ++ (m, packet) :: behind :: after) := by
  obtain ⟨last, hlast, hlast', hbef, hbeh⟩ := place_between hnear hnew h hpl
  obtain ⟨hfr, hback, hacr⟩ := pairwise_append.mp hord
  by_cases hm : m < behind.1
  · left
    refine pairwise_append.mpr ⟨hfr, pairwise_cons.mpr ⟨fun e he => ?_, hback⟩, fun a ha e he => ?_⟩
    · have hbel := h.below e (mem_append_right _ he)
      have hfst := ordered_first hback rfl he
      omega
    obtain rfl | he := mem_cons.mp he
    · exact hbef a ha
    · exact hacr a ha e he
  right
  have hemp : before = [] := by
    rw [eq_nil_iff_forall_not_mem]
    intro a ha
    have hlt := hacr a ha behind mem_cons_self
    have hnext := hbef a ha
    omega
  subst hemp
  have hall : ∀ e ∈ behind :: after, e.1 ≤ last.1 := fun e he => (ordered_final hback hlast he).1
  have hrec := h.recent last (mem_of_getLast? hlast)
  have hwidth := (ordered_final hback hlast mem_cons_self).2
  refine ⟨⟨(m, packet), last, rfl, ?_, ?_⟩, fun e he => ?_⟩
  · simpa using hlast
  · omega
  obtain rfl | he := mem_cons.mp he
  · omega
  have hle := hall e he
  omega

theorem jammed_insert (h : Received next total (before ++ behind :: after))
    (hjam : Jammed next (before ++ behind :: after))
    (hpl : Place (serial m) (before.map Prod.snd) ((behind :: after).map Prod.snd)) :
    Jammed next (before ++ (m, packet) :: behind :: after) := by
  obtain ⟨last, hlast, hlast', hbef, hbeh⟩ := place_between hnear hnew h hpl
  obtain ⟨⟨first, last', hfst, hlastJ, hends⟩, hmis⟩ := hjam
  rw [getLast?_append_of_ne_nil _ (by simp), hlast] at hlastJ
  cases hlastJ
  have hbel := h.below first (mem_of_head? hfst)
  have hrec := h.recent last (mem_append_right _ (mem_of_getLast? hlast))
  have hnewl : (before ++ (m, packet) :: behind :: after).getLast? = some last := by
    rw [getLast?_append_of_ne_nil _ (by simp), getLast?_cons_cons, hlast]
  constructor
  · cases before with
    | nil =>
      refine ⟨(m, packet), last, rfl, hnewl, ?_⟩
      omega
    | cons a rest => exact ⟨first, last, hfst, hnewl, hends⟩
  intro e he
  obtain he | he := mem_append.mp he
  · exact hmis e (mem_append_left _ he)
  obtain rfl | he := mem_cons.mp he
  · omega
  · exact hmis e (mem_append_right _ he)

theorem shape_place (h : Received next total l) (hspl : l = before ++ after)
    (hpl : l = [] ∨ Place (serial m) (before.map Prod.snd) (after.map Prod.snd)) :
    Ordered (before ++ (m, packet) :: after) ∨ Jammed next (before ++ (m, packet) :: after) := by
  subst hspl
  obtain hnil | hpl := hpl
  · obtain ⟨rfl, rfl⟩ := append_eq_nil_iff.mp hnil
    exact .inl (pairwise_singleton _ _)
  cases after with
  | nil =>
    rw [append_nil] at h
    obtain hord | hjam := h.shape
    · exact .inl (ordered_append hnear hnew h hord hpl)
    · exact absurd hpl (not_jammed_append hnear hnew h hjam)
  | cons behind after =>
    obtain hord | hjam := h.shape
    · exact ordered_insert hnear hnew h hord hpl
    · exact .inr (jammed_insert hnear hnew h hjam hpl)

end Placing

theorem forall_mem_place {α : Type} {P : α → Prop} {before after : List α} {a : α}
    (h : ∀ e ∈ before ++ after, P e) (ha : P a) : ∀ e ∈ before ++ a :: after, P e := by
  rw [forall_mem_append] at h ⊢
  exact ⟨h.1, forall_mem_cons.mpr ⟨ha, h.2⟩⟩

/-- `add_packet` on a received window: it stays as it is, or it takes the packet in. -/
theorem addPacket_received {m : Nat} (flags : UInt8) (pl : List UInt8)
    (hnear : total < next + 32768) (hle : next ≤ total) (hnew : m < total ∧ total ≤ m + 32768)
    (hpk : w.packets = l.map Prod.snd) (h : Received next total l) :
    (addPacket w (serial m) flags pl).2 = w ∨
    ∃ before after, l = before ++ after ∧ (addPacket w (serial m) flags pl).2 = w.withPackets
        ((before ++ (m, newPacket (serial m) flags pl) :: after).map Prod.snd) ∧
      Received next total (before ++ (m, newPacket (serial m) flags pl) :: after) := by
  obtain ⟨-, hsame⟩ | ⟨beforeP, afterP, hspl, hadd, hpl⟩ :=
    addPacket_cases
  · exact .inl hsame
  right
  rw [hpk] at hspl hpl
  obtain ⟨before, after, rfl, rfl, rfl⟩ := map_eq_append_iff.mp hspl
  rw [map_eq_nil_iff] at hpl
  refine ⟨before, after, rfl, by rw [hadd]; simp, ?_⟩
  exact ⟨forall_mem_place h.seq rfl, forall_mem_place h.recent (by simp only; omega),
    forall_mem_place h.below hnew.1, shape_place hnear hnew h rfl hpl⟩

/-! ## Freeing packets -/

/-- What `free_acked_packets` looks at, for numbers that are near. -/
theorem isAcked_iff (hseq : e.2.seq = serial e.1) (hrec : next ≤ e.1 + 32769)
    (hnear : e.1 + 1 < next + 32768) :
    isAcked (serial ((next : Int) - 1)) e.2 = decide (e.1 < next) := by
  have hpos := compareWrapped_pos_iff e.1 ((next : Int) - 1)
  rw [isAcked, hseq, decide_eq_decide, ← Int.not_lt, hpos]
  omega

theorem dropWhile_isAcked (hseq : ∀ e ∈ l, e.2.seq = serial e.1)
    (hrec : ∀ e ∈ l, next ≤ e.1 + 32769) (hnear : ∀ e ∈ l, e.1 + 1 < next + 32768) :
    (l.map Prod.snd).dropWhile (isAcked (serial ((next : Int) - 1))) =
      (l.dropWhile (fun e => decide (e.1 < next))).map Prod.snd := by
  induction l with
  | nil => rfl
  | cons e rest ih =>
    have hhead := isAcked_iff (hseq e mem_cons_self) (hrec e mem_cons_self) (hnear e mem_cons_self)
    have htail := ih (fun a ha => hseq a (mem_cons_of_mem _ ha))
      (fun a ha => hrec a (mem_cons_of_mem _ ha))
      (fun a ha => hnear a (mem_cons_of_mem _ ha))
    rw [map_cons, dropWhile_cons, dropWhile_cons, hhead, htail]
    split <;> rfl

theorem ordered_dropWhile (h : Ordered l) :
    ∀ e ∈ l.dropWhile (fun e => decide (e.1 < next)), next ≤ e.1 := by
  induction l with
  | nil => simp
  | cons a rest ih =>
    obtain ⟨hhead, htail⟩ := pairwise_cons.mp h
    rw [dropWhile_cons]
    split
    · exact ih htail
    next hge =>
    intro e he
    simp only [decide_eq_true_eq] at hge
    obtain rfl | he := mem_cons.mp he
    · omega
    have hlt := hhead e he
    omega

end MspNumbering
