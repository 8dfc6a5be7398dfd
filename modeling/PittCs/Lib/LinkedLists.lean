import Mathlib.Data.List.Nodup

/-!
# Linked lists in a memory

Singly linked: `link a` is `none` for a node that does not exist, and `some none` for one
that ends a list.

Doubly linked: the nodes of a list are addresses, and the two link fields are read through
functions `prev` and `next`. `Chain p c l` says that the links starting at `c` visit the
nodes of `l` in order and lead back, the first one to `p`. Insertion, at the head or behind
a node, and removal are stated for any memory whose link fields have changed as the
operation says, so that they do not depend on how the fields are stored.
-/

namespace PittCs.Lib

open List

universe u

/-! ## Singly linked lists -/

section Singly

variable {α : Type u}

/-- The links lead from `p` through the nodes of a list to `q`. -/
def Seg (link : α → Option (Option α)) : Option α → List α → Option α → Prop
  | p, [], q => p = q
  | p, a :: l, q => p = some a ∧ ∃ next, link a = some next ∧ Seg link next l q

namespace Seg

variable {link link' : α → Option (Option α)} {p q : Option α} {l m : List α} {a : α}

theorem append : Seg link p (l ++ m) q ↔ ∃ r, Seg link p l r ∧ Seg link r m q := by
  induction l generalizing p with
  | nil =>
    constructor
    · intro h
      exact ⟨p, rfl, h⟩
    · intro ⟨r, hp, h⟩
      cases hp
      exact h
  | cons a l ih =>
    constructor
    · intro ⟨hp, next, hnext, h⟩
      rcases ih.mp h with ⟨r, hl, hm⟩
      exact ⟨r, ⟨hp, next, hnext, hl⟩, hm⟩
    · intro ⟨r, ⟨hp, next, hnext, hl⟩, hm⟩
      exact ⟨hp, next, hnext, ih.mpr ⟨r, hl, hm⟩⟩

theorem singleton : Seg link p [a] q ↔ p = some a ∧ link a = some q := by
  constructor
  · intro ⟨hp, next, hnext, hq⟩
    cases hq
    exact ⟨hp, hnext⟩
  · intro ⟨hp, hnext⟩
    exact ⟨hp, q, hnext, rfl⟩

/-- Only the links of the nodes of the segment matter. -/
theorem congr (h : Seg link p l q) (hsame : ∀ a ∈ l, link' a = link a) : Seg link' p l q := by
  induction l generalizing p with
  | nil => exact h
  | cons a l ih =>
    rcases h with ⟨hp, next, hnext, hl⟩
    refine ⟨hp, next, ?_, ih hl fun b hb => hsame b (mem_cons_of_mem _ hb)⟩
    rw [hsame a mem_cons_self, hnext]

end Seg

end Singly

/-! ## Doubly linked lists -/

section Doubly

variable {α : Type u} (null : α) (prev next : α → α)

/-- From `c` on, the links visit `l`; the first node leads back to `p`. -/
def Chain : α → α → List α → Prop
  | _, c, [] => c = null
  | p, c, a :: l => c = a ∧ a ≠ null ∧ prev a = p ∧ Chain a (next a) l

namespace Chain

variable {null prev next} {prev' next' : α → α} {p c : α} {l : List α}

theorem eq_headD (h : Chain null prev next p c l) : c = l.headD null := by
  cases l with
  | nil => exact h
  | cons a l => exact h.1

theorem ne_null (h : Chain null prev next p c l) {a : α} (ha : a ∈ l) : a ≠ null := by
  induction l generalizing p c with
  | nil => cases ha
  | cons b l ih =>
    obtain ⟨-, hb, -, hl⟩ := h
    rcases mem_cons.mp ha with rfl | ha
    · exact hb
    · exact ih hl ha

/-- The chain reads only the links of its nodes. -/
theorem congr (h : Chain null prev next p c l) (hprev : ∀ a ∈ l, prev' a = prev a)
    (hnext : ∀ a ∈ l, next' a = next a) : Chain null prev' next' p c l := by
  induction l generalizing p c with
  | nil => exact h
  | cons a l ih =>
    obtain ⟨hc, ha, hp, hl⟩ := h
    refine ⟨hc, ha, (hprev a mem_cons_self).trans hp, ?_⟩
    rw [hnext a mem_cons_self]
    exact ih hl (fun b hb => hprev b (mem_cons_of_mem a hb))
      fun b hb => hnext b (mem_cons_of_mem a hb)

/-- The neighbours of a node, as its links have them. -/
theorem links_of_mem {xs ys : List α} {a : α} (h : Chain null prev next p c (xs ++ a :: ys)) :
    prev a = xs.getLastD p ∧ next a = ys.headD null := by
  induction xs generalizing p c with
  | nil => exact ⟨h.2.2.1, eq_headD h.2.2.2⟩
  | cons x xs ih =>
    obtain ⟨hp, hn⟩ := ih h.2.2.2
    exact ⟨by rw [hp, getLastD_cons], hn⟩

/-- What is not in `ys` is not where `ys` starts. -/
theorem headD_ne {a : α} {ys : List α} (ha : a ≠ null) (hys : a ∉ ys) : a ≠ ys.headD null := by
  cases ys with
  | nil => exact ha
  | cons y ys =>
    rintro rfl
    exact hys mem_cons_self

/-- What is not in `xs` is not where `xs` ends. -/
theorem getLastD_ne {a p : α} {xs : List α} (ha : a ≠ p) (hxs : a ∉ xs) : a ≠ xs.getLastD p := by
  intro heq
  have hmem : xs.getLastD p ∈ p :: xs := getLastD_mem_cons
  rcases mem_cons.mp hmem with h | h
  · exact ha (heq.trans h)
  · exact hxs (heq ▸ h)

/-- The links determine the nodes. -/
theorem unique {l' : List α} (h : Chain null prev next p c l) (h' : Chain null prev next p c l') :
    l = l' := by
  induction l generalizing p c l' with
  | nil =>
    cases l' with
    | nil => rfl
    | cons a l' => exact absurd (h'.1.symm.trans h) h'.2.1
  | cons a l ih =>
    cases l' with
    | nil => exact absurd (h.1.symm.trans h') h.2.1
    | cons a' l' =>
      have ha : a = a' := h.1.symm.trans h'.1
      subst ha
      rw [ih h.2.2.2 h'.2.2.2]

variable [DecidableEq α]

/-- A new node behind a node. -/
theorem insertAfter {xs ys : List α} {a b : α} (h : Chain null prev next p c (xs ++ a :: ys))
    (hnodup : (xs ++ a :: ys).Nodup) (hb : b ≠ null) (hpb : prev' b = a) (hnb : next' b = next a)
    (hprev : ∀ x ∈ xs ++ a :: ys, prev' x = if x = next a then b else prev x)
    (hnext : ∀ x ∈ xs ++ a :: ys, next' x = if x = a then b else next x) :
    Chain null prev' next' p c (xs ++ a :: b :: ys) := by
  induction xs generalizing p c with
  | nil =>
    obtain ⟨hc, ha, hpa, hys⟩ := h
    have hay : a ∉ ys := (nodup_cons.mp hnodup).1
    have hna : next a = ys.headD null := hys.eq_headD
    refine ⟨hc, ha, ?_, ?_⟩
    · rw [hprev a (by simp), if_neg, hpa]
      rw [hna]
      exact headD_ne ha hay
    · rw [hnext a (by simp), if_pos rfl]
      refine ⟨rfl, hb, hpb, ?_⟩
      rw [hnb]
      -- the node behind, if there is one, now leads back to `b`
      cases ys with
      | nil => exact hys
      | cons y ys =>
        obtain ⟨hny, hy, -, hl⟩ := hys
        have hya : y ≠ a := fun heq => hay (by simp [heq])
        have hyys : y ∉ ys := (nodup_cons.mp (nodup_cons.mp hnodup).2).1
        refine ⟨hny, hy, ?_, ?_⟩
        · rw [hprev y (by simp), if_pos hny.symm]
        · rw [hnext y (by simp), if_neg hya]
          refine hl.congr (fun x hx => ?_) fun x hx => ?_
          · rw [hprev x (by simp [hx]), if_neg]
            rw [hny]
            rintro rfl
            exact hyys hx
          · rw [hnext x (by simp [hx]), if_neg]
            rintro rfl
            exact hay (by simp [hx])
  | cons x xs ih =>
    obtain ⟨hc, hx, hpx, hl⟩ := h
    obtain ⟨-, hna⟩ := links_of_mem hl
    rw [cons_append, nodup_cons] at hnodup
    have hxa : x ≠ a := fun heq => hnodup.1 (by simp [heq])
    refine ⟨hc, hx, ?_, ?_⟩
    · rw [hprev x (by simp), if_neg, hpx]
      rw [hna]
      exact headD_ne hx fun hmem => hnodup.1 (by simp [hmem])
    · rw [hnext x (by simp), if_neg hxa]
      exact ih hl hnodup.2 (fun y hy => hprev y (by simp [hy])) fun y hy => hnext y (by simp [hy])

/-- A new node in front. -/
theorem insert {a : α} (h : Chain null prev next null c l) (ha : a ≠ null) (hnodup : l.Nodup)
    (hpa : prev' a = null) (hna : next' a = c)
    (hprev : ∀ b ∈ l, prev' b = if b = c then a else prev b)
    (hnext : ∀ b ∈ l, next' b = next b) : Chain null prev' next' null a (a :: l) := by
  refine ⟨rfl, ha, hpa, ?_⟩
  rw [hna]
  cases l with
  | nil => exact h
  | cons b l =>
    obtain ⟨rfl, hb, -, hl⟩ := h
    have hbl := (nodup_cons.mp hnodup).1
    refine ⟨rfl, hb, by rw [hprev _ mem_cons_self, if_pos rfl], ?_⟩
    rw [hnext _ mem_cons_self]
    refine hl.congr (fun x hx => ?_) fun x hx => hnext x (mem_cons_of_mem _ hx)
    rw [hprev x (mem_cons_of_mem _ hx), if_neg]
    rintro rfl
    exact hbl hx

/-- A node is taken out: its neighbours are linked to each other. -/
theorem remove {xs ys : List α} {a : α} (h : Chain null prev next p c (xs ++ a :: ys))
    (hnodup : (xs ++ a :: ys).Nodup) (hp : p ∉ xs ++ a :: ys)
    (hprev : ∀ b ∈ xs ++ ys, prev' b = if b = next a then prev a else prev b)
    (hnext : ∀ b ∈ xs ++ ys, next' b = if b = prev a then next a else next b) :
    Chain null prev' next' p (if prev a = p then next a else c) (xs ++ ys) := by
  induction xs generalizing p c with
  | nil =>
    -- the head goes: the node after it leads back to `p`
    obtain ⟨-, -, hpa, hys⟩ := h
    rw [if_pos hpa]
    cases ys with
    | nil => exact hys
    | cons y ys =>
      obtain ⟨hny, hy, -, hl⟩ := hys
      simp only [nil_append, nodup_cons, mem_cons, not_or] at hnodup hp
      have hy' : prev' y = p ∧ next' y = next y := by
        rw [hprev y (by simp), hnext y (by simp), hny, hpa, if_pos rfl, if_neg]
        · exact ⟨rfl, rfl⟩
        · rintro rfl
          exact hp.2.1 rfl
      refine ⟨hny, hy, hy'.1, ?_⟩
      rw [hy'.2]
      refine hl.congr (fun b hb => ?_) fun b hb => ?_
      · rw [hprev b (by simp [hb]), hny, if_neg]
        rintro rfl
        exact hnodup.2.1 hb
      · rw [hnext b (by simp [hb]), hpa, if_neg]
        rintro rfl
        exact hp.2.2 hb
  | cons x xs ih =>
    obtain ⟨rfl, hx, hpx, hl⟩ := h
    obtain ⟨hpa, hna⟩ := links_of_mem hl
    rw [cons_append, nodup_cons] at hnodup
    have hcys : c ∉ ys := fun hmem => hnodup.1 (by simp [hmem])
    have hne : prev a ≠ p := by
      rw [hpa]
      exact (getLastD_ne (fun hpc => hp (by simp [hpc])) fun hmem => hp (by simp [hmem])).symm
    rw [if_neg hne]
    refine ⟨rfl, hx, ?_, ?_⟩
    · rw [hprev c (by simp), if_neg, hpx]
      rw [hna]
      exact headD_ne hx hcys
    · rw [hnext c (by simp), if_congr eq_comm rfl rfl]
      exact ih hl hnodup.2 hnodup.1 (fun b hb => hprev b (by simp [hb]))
        fun b hb => hnext b (by simp [hb])

end Chain

end Doubly

end PittCs.Lib
