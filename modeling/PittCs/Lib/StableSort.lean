import Mathlib.Data.List.Basic

/-!
# Sorted rearrangements

Lists sorted by a comparison under which different elements may count as equal. A stable
rearrangement keeps the order of these. Rules for one more element, for two sorted parts
and for a pivot between two parts.
-/

namespace PittCs.Lib

open List

universe u

variable {α : Type u}

/-- A comparison: any two elements compare, and chains do. -/
structure Compares (le : α → α → Bool) : Prop where
  trans : ∀ x y z, le x y = true → le y z = true → le x z = true
  total : ∀ x y, (le x y || le y x) = true

/-- Equal for the comparison. -/
def tied (le : α → α → Bool) (x y : α) : Bool := le x y && le y x

/-- `s` is `l` in order. -/
structure SortOf (le : α → α → Bool) (l s : List α) : Prop where
  sorted : s.Pairwise fun x y => le x y = true
  perm : s.Perm l

/-- Moreover, what is equal stays in the order in which it was. -/
structure StableSortOf (le : α → α → Bool) (l s : List α) : Prop extends SortOf le l s where
  stable : ∀ x, s.filter (tied le x) = l.filter (tied le x)

section

variable {le : α → α → Bool} {x y : α} {l l' s s' t : List α}

/-- What is not below is above. -/
theorem Compares.above (hle : Compares le) (h : ¬ le x y = true) : le y x = true := by
  have htotal := hle.total x y
  rw [Bool.or_eq_true] at htotal
  exact htotal.resolve_left h

theorem tied_iff : tied le x y = true ↔ le x y = true ∧ le y x = true := Bool.and_eq_true_iff

/-! ## A pivot between two parts -/

theorem SortOf.pivot (hle : Compares le) (hs : SortOf le l s) (hs' : SortOf le l' s')
    (hbelow : ∀ y ∈ l, le y x = true) (habove : ∀ y ∈ l', le x y = true) :
    SortOf le (l ++ x :: l') (s ++ x :: s') := by
  have hbelow' : ∀ y ∈ s, le y x = true := fun y hy => hbelow y (hs.perm.mem_iff.mp hy)
  have habove' : ∀ y ∈ s', le x y = true := fun y hy => habove y (hs'.perm.mem_iff.mp hy)
  constructor
  case sorted =>
    refine pairwise_append.mpr ⟨hs.sorted, pairwise_cons.mpr ⟨habove', hs'.sorted⟩, ?_⟩
    intro y hy z hz
    rcases mem_cons.mp hz with rfl | hz
    · exact hbelow' y hy
    · exact hle.trans y x z (hbelow' y hy) (habove' z hz)
  case perm => exact hs.perm.append (hs'.perm.cons x)

theorem SortOf.of_perm (h : SortOf le l s) (hl : l.Perm l') : SortOf le l' s :=
  ⟨h.sorted, h.perm.trans hl⟩

/-! ## Stable rearrangements -/

theorem stableSortOf_self (h : l.Pairwise fun x y => le x y = true) : StableSortOf le l l where
  sorted := h
  perm := List.Perm.refl l
  stable _ := rfl

/-- What is sorted first may be sorted again with what follows. -/
theorem StableSortOf.append_trans (h : StableSortOf le l s) (h' : StableSortOf le (s ++ t) s') :
    StableSortOf le (l ++ t) s' where
  sorted := h'.sorted
  perm := h'.perm.trans (h.perm.append_right t)
  stable x := by rw [h'.stable, filter_append, filter_append, h.stable]

theorem StableSortOf.trans (h : StableSortOf le l s) (h' : StableSortOf le s s') :
    StableSortOf le l s' := by
  have happend : StableSortOf le (s ++ []) s' := by
    rw [append_nil]
    exact h'
  have hall := h.append_trans happend
  rw [append_nil] at hall
  exact hall

/-- An element that is not below `z` keeps out of the elements that are tied with `z`. -/
theorem filter_tied_eq_nil {z : α} (h : ∀ y ∈ l, ¬ le y z = true) : l.filter (tied le z) = [] := by
  refine filter_eq_nil_iff.mpr fun y hy htied => ?_
  exact h y hy (tied_iff.mp htied).2

/-- The last element moves in front of those above it. -/
theorem stableSortOf_insert (hle : Compares le) (hsorted : (s ++ t).Pairwise fun x y => le x y = true)
    (hbelow : ∀ y ∈ s, le y x = true) (habove : ∀ y ∈ t, ¬ le y x = true) :
    StableSortOf le (s ++ t ++ [x]) (s ++ x :: t) := by
  rcases pairwise_append.mp hsorted with ⟨hs, ht, hst⟩
  constructor
  case toSortOf =>
    constructor
    case sorted =>
      refine pairwise_append.mpr ⟨hs, pairwise_cons.mpr ⟨?_, ht⟩, ?_⟩
      · exact fun y hy => hle.above (habove y hy)
      · intro y hy z hz
        rcases mem_cons.mp hz with rfl | hz
        · exact hbelow y hy
        · exact hst y hy z hz
    case perm =>
      rw [append_assoc]
      exact (perm_append_singleton x t).symm.append_left s
  case stable =>
    intro z
    rw [append_assoc, filter_append, filter_append, filter_append,
      filter_cons, filter_singleton]
    cases hz : tied le z x with
    | false => simp
    | true =>
      -- what is above `x` is not tied with it
      have hnone : t.filter (tied le z) = [] := by
        refine filter_tied_eq_nil fun y hy hyz => habove y hy ?_
        exact hle.trans y z x hyz (tied_iff.mp hz).1
      rw [hnone]
      rfl

/-! ## Two sorted parts -/

theorem filter_merge (hle : Compares le) (z : α) {l l' : List α}
    (hl : l.Pairwise fun x y => le x y = true) :
    (List.merge l l' le).filter (tied le z) = l.filter (tied le z) ++ l'.filter (tied le z) := by
  induction l generalizing l' with
  | nil => rw [nil_merge]; rfl
  | cons x l ihl =>
    induction l' with
    | nil => rw [merge_right, filter_nil, append_nil]
    | cons y l' ihr =>
      by_cases hxy : le x y = true
      · rw [cons_merge_cons_pos le l l' hxy, filter_cons, filter_cons,
          ihl (pairwise_cons.mp hl).2]
        split
        case isTrue => rfl
        case isFalse => rfl
      · rw [cons_merge_cons_neg le l l' hxy, filter_cons (x := y), filter_cons (x := y), ihr]
        cases hz : tied le z y with
        | false => rfl
        | true =>
          -- all of the left part is above `y`
          have hnone : (x :: l).filter (tied le z) = [] := by
            refine filter_tied_eq_nil fun x' hx' hxz => hxy ?_
            have hxy' := hle.trans x' z y hxz (tied_iff.mp hz).1
            rcases mem_cons.mp hx' with rfl | hx'
            · exact hxy'
            · exact hle.trans x x' y ((pairwise_cons.mp hl).1 x' hx') hxy'
          rw [hnone]
          rfl

/-- The merge takes from the left part first. -/
theorem stableSortOf_merge (hle : Compares le) (h : StableSortOf le l s)
    (h' : StableSortOf le l' s') : StableSortOf le (l ++ l') (List.merge s s' le) where
  sorted := pairwise_merge hle.trans hle.total s s' h.sorted h'.sorted
  perm := (merge_perm_append le).trans (h.perm.append h'.perm)
  stable x := by rw [filter_merge hle x h.sorted, filter_append, h.stable, h'.stable]

end

end PittCs.Lib
