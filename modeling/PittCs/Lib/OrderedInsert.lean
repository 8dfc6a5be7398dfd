import Mathlib.Order.Lattice
import Mathlib.Data.List.Nodup

/-!
# Insertion from the right

A list kept in order by an insertion that looks for the place from the right
end, and gives up when an equal element is there already.
-/

namespace PittCs.Lib

open List

universe u v

variable {α : Type u} {κ : Type v}

/-- Looks for the place of `x` among the elements of `rev`, the nearest first;
`tail` is what was passed already. -/
def scanFromRight (cmp : α → α → Ordering) (x : α) : List α → List α → Option (List α)
  | [], tail => some (x :: tail)
  | y :: rev, tail =>
    match cmp x y with
    | .gt => some (rev.reverse ++ y :: x :: tail)
    | .eq => none
    | .lt => scanFromRight cmp x rev (y :: tail)

/-- The list with `x` in its place, or nothing when an equal element is met. -/
def insertFromRight (cmp : α → α → Ordering) (x : α) (l : List α) : Option (List α) :=
  scanFromRight cmp x l.reverse []

/-- The order of a list by strictly increasing keys. -/
def KeySorted [LT κ] (key : α → κ) (l : List α) : Prop :=
  l.Pairwise fun a b => key a < key b

theorem scanFromRight_perm {cmp : α → α → Ordering} {x : α} {rev tail l : List α}
    (h : scanFromRight cmp x rev tail = some l) : l.Perm (x :: (rev.reverse ++ tail)) := by
  induction rev generalizing tail with
  | nil =>
    injection h with h
    subst h
    exact List.Perm.refl _
  | cons y rev ih =>
    unfold scanFromRight at h
    have hmid : (x :: ((y :: rev).reverse ++ tail)).Perm (x :: (rev.reverse ++ y :: tail)) := by
      simp
    split at h
    · -- the place is right of `y`
      injection h with h
      subst h
      refine List.Perm.trans ?_ hmid.symm
      have hswap : (rev.reverse ++ y :: x :: tail).Perm (rev.reverse ++ x :: y :: tail) :=
        (List.Perm.swap x y tail).append_left _
      exact hswap.trans perm_middle
    · cases h
    · exact (ih h).trans hmid.symm

theorem insertFromRight_perm {cmp : α → α → Ordering} {x : α} {l l' : List α}
    (h : insertFromRight cmp x l = some l') : l'.Perm (x :: l) := by
  have hperm := scanFromRight_perm h
  simpa using hperm

section Keys

variable [LinearOrder κ] {key : α → κ} {cmp : α → α → Ordering}

theorem scanFromRight_sorted (hcmp : ∀ a b, cmp a b = compare (key a) (key b))
    {x : α} {rev tail l : List α} (hsorted : KeySorted key (rev.reverse ++ tail))
    (htail : ∀ y ∈ tail, key x < key y)
    (h : scanFromRight cmp x rev tail = some l) : KeySorted key l := by
  induction rev generalizing tail with
  | nil =>
    injection h with h
    subst h
    have hsorted' : KeySorted key tail := by simpa using hsorted
    exact pairwise_cons.mpr ⟨htail, hsorted'⟩
  | cons y rev ih =>
    have hsorted' : KeySorted key (rev.reverse ++ y :: tail) := by
      simpa using hsorted
    unfold scanFromRight at h
    rw [hcmp] at h
    split at h
    case h_1 hc =>
      -- every element left of `y` is below `y`, and `y` is below `x`
      injection h with h
      subst h
      have hyx : key y < key x := compare_gt_iff_gt.mp hc
      rcases pairwise_append.mp hsorted' with ⟨hrev, hright, hcross⟩
      have hright' := pairwise_cons.mp hright
      refine pairwise_append.mpr ⟨hrev, ?_, ?_⟩
      · refine pairwise_cons.mpr ⟨?_, pairwise_cons.mpr ⟨htail, hright'.2⟩⟩
        intro z hz
        rcases mem_cons.mp hz with rfl | hz
        · exact hyx
        · exact hright'.1 z hz
      · intro a ha z hz
        have hay : key a < key y := hcross a ha y mem_cons_self
        rcases mem_cons.mp hz with rfl | hz
        · exact hay
        · rcases mem_cons.mp hz with rfl | hz
          · exact hay.trans hyx
          · exact hay.trans (hright'.1 z hz)
    case h_2 => cases h
    case h_3 hc =>
      have hxy : key x < key y := compare_lt_iff_lt.mp hc
      refine ih hsorted' ?_ h
      intro z hz
      rcases mem_cons.mp hz with rfl | hz
      · exact hxy
      · exact htail z hz

/-- Insertion keeps a list in order. -/
theorem insertFromRight_sorted (hcmp : ∀ a b, cmp a b = compare (key a) (key b))
    {x : α} {l l' : List α} (hsorted : KeySorted key l)
    (h : insertFromRight cmp x l = some l') : KeySorted key l' := by
  refine scanFromRight_sorted hcmp ?_ ?_ h
  · simpa using hsorted
  · intro y hy
    cases hy

theorem exists_of_scanFromRight_none (hcmp : ∀ a b, cmp a b = compare (key a) (key b))
    {x : α} {rev tail : List α} (h : scanFromRight cmp x rev tail = none) :
    ∃ y ∈ rev, key y = key x := by
  induction rev generalizing tail with
  | nil => cases h
  | cons y rev ih =>
    unfold scanFromRight at h
    rw [hcmp] at h
    split at h
    case h_1 => cases h
    case h_2 hc => exact ⟨y, mem_cons_self, (compare_eq_iff_eq.mp hc).symm⟩
    case h_3 =>
      rcases ih h with ⟨z, hz, hkey⟩
      exact ⟨z, mem_cons_of_mem y hz, hkey⟩

/-- Insertion gives up only on an element with the same key. -/
theorem exists_of_insertFromRight_none (hcmp : ∀ a b, cmp a b = compare (key a) (key b))
    {x : α} {l : List α} (h : insertFromRight cmp x l = none) : ∃ y ∈ l, key y = key x := by
  rcases exists_of_scanFromRight_none hcmp h with ⟨y, hy, hkey⟩
  exact ⟨y, mem_reverse.mp hy, hkey⟩

/-- In a list in order the key determines the element. -/
theorem KeySorted.eq_of_key {l : List α} (hsorted : KeySorted key l) {a b : α} (ha : a ∈ l)
    (hb : b ∈ l) (hkey : key a = key b) : a = b := by
  have hnodup : (l.map key).Nodup := by
    refine pairwise_map.mpr (hsorted.imp ?_)
    intro a b hab
    exact hab.ne
  exact inj_on_of_nodup_map hnodup ha hb hkey

/-- Two lists in order with the same elements are equal. -/
theorem KeySorted.eq_of_perm {l l' : List α} (hsorted : KeySorted key l)
    (hsorted' : KeySorted key l') (hperm : l.Perm l') : l = l' := by
  refine hperm.eq_of_pairwise ?_ hsorted hsorted'
  intro a b _ _ hab hba
  exact absurd hab hba.asymm

end Keys

end PittCs.Lib
