import Mathlib.Data.List.Chain
import Mathlib.Data.List.Rotate

/-!
# Lists linked in both directions

A list is linked when neighbours lead to each other. With a sentinel at either end every
node that comes or goes has two neighbours, so one rule covers linking a node in and one
taking it out.
-/

namespace PittCs.Lib

open List Option

universe u

variable {α : Type u}

/-- Neighbours in `l` lead to each other. -/
def Linked (next prev : α → Option α) (l : List α) : Prop :=
  l.IsChain fun a b => next a = some b ∧ prev b = some a

namespace Linked

variable {next prev next' prev' : α → Option α} {l xs ys : List α} {a b x : α}

/-- Only the links between nodes of the list are read. -/
theorem congr (h : Linked next prev l)
    (hnext : ∀ c ∈ l, ∀ d ∈ l, next c = some d → next' c = some d)
    (hprev : ∀ c ∈ l, ∀ d ∈ l, prev d = some c → prev' d = some c) : Linked next' prev' l := by
  refine List.IsChain.imp_of_mem_imp (fun c d hc hd hcd => ?_) h
  exact ⟨hnext c hc d hd hcd.1, hprev c hc d hd hcd.2⟩

theorem at_pair (h : Linked next prev (xs ++ a :: b :: ys)) :
    next a = some b ∧ prev b = some a :=
  (isChain_append_cons_cons.mp h).2.1

/-- The links on either side of a pair do not touch the links between them. -/
theorem sides (h : Linked next prev (xs ++ a :: b :: ys)) (hnodup : (xs ++ a :: b :: ys).Nodup)
    (hnext : ∀ c ∈ xs ++ a :: b :: ys, c ≠ a → next' c = next c)
    (hprev : ∀ c ∈ xs ++ a :: b :: ys, c ≠ b → prev' c = prev c) :
    Linked next' prev' (xs ++ [a]) ∧ Linked next' prev' (b :: ys) := by
  obtain ⟨hleft, hab, hright⟩ := isChain_append_cons_cons.mp h
  have hsplit : xs ++ a :: b :: ys = (xs ++ [a]) ++ (b :: ys) := by simp
  rw [hsplit] at hnodup
  have hdisjoint := (nodup_append.mp hnodup).2.2
  have hl : ∀ c ∈ xs ++ [a], c ∈ xs ++ a :: b :: ys := by
    intro c hc
    rw [hsplit]
    exact mem_append_left _ hc
  have hr : ∀ c ∈ b :: ys, c ∈ xs ++ a :: b :: ys := by
    intro c hc
    rw [hsplit]
    exact mem_append_right _ hc
  constructor
  · refine congr hleft (fun c hc d hd hcd => ?_) fun c hc d hd hcd => ?_
    · rw [hnext c (hl c hc), hcd]
      rintro rfl
      rw [hab.1] at hcd
      exact hdisjoint d hd b mem_cons_self (some.inj hcd).symm
    · rw [hprev d (hl d hd), hcd]
      exact hdisjoint d hd b mem_cons_self
  · refine congr hright (fun c hc d hd hcd => ?_) fun c hc d hd hcd => ?_
    · rw [hnext c (hr c hc), hcd]
      rintro rfl
      exact hdisjoint c (by simp) c hc rfl
    · rw [hprev d (hr d hd), hcd]
      rintro rfl
      rw [hab.2] at hcd
      exact hdisjoint a (by simp) c hc (some.inj hcd)

/-- A new node is linked in between two neighbours. -/
theorem insert (h : Linked next prev (xs ++ a :: b :: ys)) (hnodup : (xs ++ a :: b :: ys).Nodup)
    (hna : next' a = some x) (hpx : prev' x = some a) (hnx : next' x = some b)
    (hpb : prev' b = some x) (hnext : ∀ c ∈ xs ++ a :: b :: ys, c ≠ a → next' c = next c)
    (hprev : ∀ c ∈ xs ++ a :: b :: ys, c ≠ b → prev' c = prev c) :
    Linked next' prev' (xs ++ a :: x :: b :: ys) := by
  obtain ⟨hleft, hright⟩ := h.sides hnodup hnext hprev
  refine isChain_append_cons_cons.mpr ⟨hleft, ⟨hna, hpx⟩, ?_⟩
  exact isChain_cons_cons.mpr ⟨⟨hnx, hpb⟩, hright⟩

/-- A node is taken out: its neighbours are linked to each other. -/
theorem remove (h : Linked next prev (xs ++ a :: x :: b :: ys))
    (hnodup : (xs ++ a :: x :: b :: ys).Nodup) (hna : next' a = some b) (hpb : prev' b = some a)
    (hnext : ∀ c ∈ xs ++ a :: b :: ys, c ≠ a → next' c = next c)
    (hprev : ∀ c ∈ xs ++ a :: b :: ys, c ≠ b → prev' c = prev c) :
    Linked next' prev' (xs ++ a :: b :: ys) := by
  obtain ⟨hleft, hax, htail⟩ := isChain_append_cons_cons.mp h
  obtain ⟨hxb, hright⟩ := isChain_cons_cons.mp htail
  rw [nodup_append, nodup_cons, nodup_cons, nodup_cons] at hnodup
  obtain ⟨hxs, ⟨ha, hx, hb, hys⟩, hdisjoint⟩ := hnodup
  refine isChain_append_cons_cons.mpr ⟨?_, ⟨hna, hpb⟩, ?_⟩
  · refine congr hleft (fun c hc d hd hcd => ?_) fun c hc d hd hcd => ?_
    · rw [hnext c (by simp at hc ⊢; tauto), hcd]
      rintro rfl
      -- `a` led to the node that is gone
      rw [hax.1] at hcd
      obtain rfl := some.inj hcd
      rcases mem_append.mp hd with hd | hd
      · exact hdisjoint _ hd x (by simp) rfl
      · exact ha (by rw [mem_singleton.mp hd]; exact mem_cons_self)
    · rw [hprev d (by simp at hd ⊢; tauto), hcd]
      rintro rfl
      rcases mem_append.mp hd with hd | hd
      · exact hdisjoint _ hd d (by simp) rfl
      · exact ha (by rw [← mem_singleton.mp hd]; simp)
  · refine congr hright (fun c hc d hd hcd => ?_) fun c hc d hd hcd => ?_
    · rw [hnext c (by simp at hc ⊢; tauto), hcd]
      rintro rfl
      exact ha (mem_cons_of_mem _ hc)
    · rw [hprev d (by simp at hd ⊢; tauto), hcd]
      rintro rfl
      rw [hxb.2] at hcd
      obtain rfl := some.inj hcd
      exact hx hc

end Linked

/-!
## Circular lists

A list without sentinels is linked in both directions, and its last node and its first one
lead to each other. A node that is linked in between these two is the new last node or the
new first one; linking them past some nodes takes these off an end.
-/

structure Ring (next prev : α → Option α) (l : List α) : Prop where
  nodup : l.Nodup
  linked : Linked next prev l
  close : ∀ z ∈ l.getLast?, ∀ a ∈ l.head?, next z = some a ∧ prev a = some z

/-- A pair of neighbours does not start at the last element or end at the first. -/
theorem isChain_congr {R S : α → α → Prop} {l : List α} (h : l.IsChain R)
    (hRS : ∀ a ∈ l.dropLast, ∀ b ∈ l.tail, R a b → S a b) : l.IsChain S := by
  induction l with
  | nil => exact .nil
  | cons a l ih =>
    cases l with
    | nil => exact .singleton a
    | cons b l =>
      obtain ⟨hab, hl⟩ := isChain_cons_cons.mp h
      refine isChain_cons_cons.mpr ⟨hRS a mem_cons_self b mem_cons_self hab, ?_⟩
      exact ih hl fun c hc d hd =>
        hRS c (mem_cons_of_mem a hc) d (mem_of_mem_tail hd)

theorem ne_getLast_of_mem_dropLast {l : List α} (hnodup : l.Nodup) {c z : α}
    (hc : c ∈ l.dropLast) (hz : z ∈ l.getLast?) : c ≠ z := by
  rw [← dropLast_append_getLast? z hz] at hnodup
  rintro rfl
  exact (nodup_append.mp hnodup).2.2 c hc c (mem_singleton_self c) rfl

theorem ne_head_of_mem_tail {l : List α} (hnodup : l.Nodup) {c a : α} (hc : c ∈ l.tail)
    (ha : a ∈ l.head?) : c ≠ a := by
  cases l with
  | nil => cases hc
  | cons b l =>
    obtain rfl : b = a := some.inj ha
    rintro rfl
    exact (nodup_cons.mp hnodup).1 hc

namespace Linked

variable {next prev next' prev' : α → Option α} {l : List α}

/-- The links between the nodes do not include those of the two ends to each other. -/
theorem congr_ends (h : Linked next prev l) (hnodup : l.Nodup)
    (hnext : ∀ c ∈ l, c ∉ l.getLast? → next' c = next c)
    (hprev : ∀ c ∈ l, c ∉ l.head? → prev' c = prev c) : Linked next' prev' l := by
  refine isChain_congr h fun c hc d hd hcd => ⟨?_, ?_⟩
  · rw [hnext c ((dropLast_sublist l).subset hc) fun hz =>
      ne_getLast_of_mem_dropLast hnodup hc hz rfl]
    exact hcd.1
  · rw [hprev d (mem_of_mem_tail hd) fun ha => ne_head_of_mem_tail hnodup hd ha rfl]
    exact hcd.2

end Linked

namespace Ring

variable {next prev next' prev' : α → Option α} {l : List α} {a z x : α}

theorem nil : Ring next prev ([] : List α) where
  nodup := nodup_nil
  linked := .nil
  close _ hz := nomatch hz

theorem singleton (hnext : next x = some x) (hprev : prev x = some x) : Ring next prev [x] where
  nodup := nodup_singleton x
  linked := .singleton x
  close z hz a ha := by
    obtain rfl : x = z := some.inj hz
    obtain rfl : x = a := some.inj ha
    exact ⟨hnext, hprev⟩

/-- Only the links of the nodes are read. -/
theorem congr (h : Ring next prev l) (hnext : ∀ c ∈ l, next' c = next c)
    (hprev : ∀ c ∈ l, prev' c = prev c) : Ring next' prev' l where
  nodup := h.nodup
  linked := h.linked.congr (fun c hc _ _ hcd => (hnext c hc).trans hcd)
    fun _ _ d hd hcd => (hprev d hd).trans hcd
  close z hz a ha := by
    rw [hnext z (mem_of_getLast? hz), hprev a (mem_of_head? ha)]
    exact h.close z hz a ha

/-- The ends of a linked list are linked to each other. -/
theorem of_linked (h : Linked next prev l) (hnodup : l.Nodup) (hz : z ∈ l.getLast?)
    (ha : a ∈ l.head?) (hza : next' z = some a) (haz : prev' a = some z)
    (hnext : ∀ c ∈ l, c ≠ z → next' c = next c) (hprev : ∀ c ∈ l, c ≠ a → prev' c = prev c) :
    Ring next' prev' l where
  nodup := hnodup
  linked := h.congr_ends hnodup
    (fun c hc hlast => hnext c hc fun heq => hlast (heq ▸ hz))
    fun c hc hfirst => hprev c hc fun heq => hfirst (heq ▸ ha)
  close z' hz' a' ha' := by
    obtain rfl := mem_unique hz hz'
    obtain rfl := mem_unique ha ha'
    exact ⟨hza, haz⟩

/-- The links change around a new node `x` between the last node and the first one. -/
structure LinkedIn (next prev next' prev' : α → Option α) (l : List α) (z a x : α) : Prop where
  last : z ∈ l.getLast?
  first : a ∈ l.head?
  new : x ∉ l
  next_last : next' z = some x
  prev_new : prev' x = some z
  next_new : next' x = some a
  prev_first : prev' a = some x
  next_other : ∀ c ∈ l, c ≠ z → next' c = next c
  prev_other : ∀ c ∈ l, c ≠ a → prev' c = prev c

theorem linked_of_linkedIn (h : Ring next prev l)
    (hin : LinkedIn next prev next' prev' l z a x) : Linked next' prev' l :=
  h.linked.congr_ends h.nodup
    (fun c hc hlast => hin.next_other c hc fun heq => hlast (heq ▸ hin.last))
    fun c hc hfirst => hin.prev_other c hc fun heq => hfirst (heq ▸ hin.first)

/-- The new node is the last. -/
theorem append_singleton (h : Ring next prev l) (hin : LinkedIn next prev next' prev' l z a x) :
    Ring next' prev' (l ++ [x]) where
  nodup := nodup_append.mpr ⟨h.nodup, nodup_singleton x, fun c hc d hd heq =>
    hin.new (mem_singleton.mp hd ▸ heq ▸ hc)⟩
  linked := by
    refine isChain_append.mpr ⟨h.linked_of_linkedIn hin, .singleton x, fun z' hz' x' hx' => ?_⟩
    obtain rfl := mem_unique hin.last hz'
    obtain rfl : x = x' := some.inj hx'
    exact ⟨hin.next_last, hin.prev_new⟩
  close z' hz' a' ha' := by
    rw [getLast?_append, getLast?_singleton, some_or] at hz'
    obtain rfl : x = z' := some.inj hz'
    have hfirst : a ∈ (l ++ [x]).head? := by
      rw [head?_append, hin.first, some_or]
      rfl
    obtain rfl := mem_unique hfirst ha'
    exact ⟨hin.next_new, hin.prev_first⟩

/-- The new node is the first. -/
theorem cons (h : Ring next prev l) (hin : LinkedIn next prev next' prev' l z a x) :
    Ring next' prev' (x :: l) where
  nodup := nodup_cons.mpr ⟨hin.new, h.nodup⟩
  linked := by
    have hpair := isChain_append.mpr ⟨.singleton x, h.linked_of_linkedIn hin,
      fun x' hx' a' ha' => (?_ : next' x' = some a' ∧ prev' a' = some x')⟩
    · exact hpair
    · obtain rfl : x = x' := some.inj hx'
      obtain rfl := mem_unique hin.first ha'
      exact ⟨hin.next_new, hin.prev_first⟩
  close z' hz' a' ha' := by
    obtain rfl : x = a' := some.inj ha'
    have hlast : z ∈ (x :: l).getLast? := by
      rw [getLast?_cons, hin.last]
      rfl
    obtain rfl := mem_unique hlast hz'
    exact ⟨hin.next_last, hin.prev_new⟩

/-- The first node becomes the last. -/
theorem rotate_one (h : Ring next prev (a :: l)) : Ring next prev (l ++ [a]) := by
  cases l with
  | nil => exact h
  | cons b l =>
    rcases isChain_cons_cons.mp h.linked with ⟨hab, hrest⟩
    have hnodup := nodup_cons.mp h.nodup
    constructor
    case nodup =>
      refine nodup_append.mpr ⟨hnodup.2, nodup_singleton a, fun c hc d hd heq => ?_⟩
      rw [mem_singleton.mp hd] at heq
      exact hnodup.1 (heq ▸ hc)
    case linked =>
      refine isChain_append.mpr ⟨hrest, .singleton a, fun z hz a' ha' => ?_⟩
      have haa : a = a' := some.inj ha'
      have hlast : z ∈ (a :: b :: l).getLast? := by
        rw [getLast?_cons_cons]
        exact hz
      rw [← haa]
      exact h.close z hlast a rfl
    case close =>
      intro z hz c hc
      rw [getLast?_append, getLast?_singleton, some_or] at hz
      have haz : a = z := some.inj hz
      have hbc : b = c := some.inj hc
      rw [← haz, ← hbc]
      exact hab

theorem rotate (h : Ring next prev l) (n : Nat) : Ring next prev (l.rotate n) := by
  induction n generalizing l with
  | zero =>
    rw [rotate_zero]
    exact h
  | succ n ih =>
    cases l with
    | nil =>
      rw [rotate_nil]
      exact h
    | cons a l =>
      rw [rotate_cons_succ]
      exact ih h.rotate_one

/-- A ring may be cut anywhere. -/
theorem swap {l₁ l₂ : List α} (h : Ring next prev (l₁ ++ l₂)) : Ring next prev (l₂ ++ l₁) := by
  have hrotate := h.rotate l₁.length
  rwa [rotate_append_length_eq] at hrotate

theorem next_head (h : Ring next prev (a :: l)) : next a = (l ++ [a]).head? := by
  cases l with
  | nil => exact (h.close a rfl a rfl).1
  | cons b l => exact (isChain_cons_cons.mp h.linked).1.1

theorem prev_head (h : Ring next prev (l ++ [a])) : (l ++ [a]).head?.bind prev = some a := by
  cases hl : (l ++ [a]).head? with
  | none => cases l <;> cases hl
  | some b =>
    have hlast : a ∈ (l ++ [a]).getLast? := by
      rw [getLast?_append, getLast?_singleton, some_or]
      rfl
    exact (h.close a hlast b hl).2

/-- The same ring, run the other way. -/
theorem reverse (h : Ring next prev l) : Ring prev next l.reverse where
  nodup := nodup_reverse.mpr h.nodup
  linked := isChain_reverse.mpr (List.IsChain.imp (fun _ _ hab => hab.symm) h.linked)
  close z hz a ha := by
    rw [getLast?_reverse] at hz
    rw [head?_reverse] at ha
    exact (h.close a ha z hz).symm

/-- The first node is left out, once its neighbours are linked. -/
theorem tail (h : Ring next prev (a :: l)) {b : α} (hz : z ∈ l.getLast?) (hb : b ∈ l.head?)
    (hzb : next' z = some b) (hbz : prev' b = some z)
    (hnext : ∀ c ∈ l, c ≠ z → next' c = next c) (hprev : ∀ c ∈ l, c ≠ b → prev' c = prev c) :
    Ring next' prev' l :=
  of_linked (isChain_cons.mp h.linked).2 (nodup_cons.mp h.nodup).2 hz hb hzb hbz hnext
    hprev

end Ring

end PittCs.Lib
