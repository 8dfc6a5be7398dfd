import Mathlib.Data.List.Perm.Basic
import Mathlib.Order.Lattice

/-!
# The greatest elements of a sequence

`Kept` describes a list that keeps the greatest elements of a sequence, up to a limit:
while there is room an element is added, and then it takes the place of a least one.
`bubblePass` is a pass of bubble sort over a list, from greater to smaller values; each
pass that swaps leaves fewer inversions, so the passes come to an end with a sorted list.
-/

namespace PittCs.Lib

open List

universe u v

variable {α : Type u} {β : Type v} [LinearOrder β] (f : α → β)

/-! ## Keeping the greatest -/

/-- `kept` are greatest elements of `seen`, all of them or `limit` many; the others are
`dropped`. -/
structure Kept (limit : Nat) (seen kept dropped : List α) : Prop where
  perm : seen.Perm (kept ++ dropped)
  le_limit : kept.length ≤ limit
  full : dropped ≠ [] → kept.length = limit
  least : ∀ x ∈ dropped, ∀ y ∈ kept, f x ≤ f y

namespace Kept

variable {f} {limit : Nat} {seen kept dropped : List α}

theorem nil : Kept f limit [] [] [] where
  perm := .refl _
  le_limit := Nat.zero_le _
  full h := absurd rfl h
  least _ hx := absurd hx not_mem_nil

/-- There is room for another element. -/
theorem append (h : Kept f limit seen kept dropped) (hroom : kept.length < limit) (x : α) :
    Kept f limit (seen ++ [x]) (kept ++ [x]) dropped := by
  have hnone : dropped = [] := by
    by_contra hne
    exact absurd (h.full hne) (Nat.ne_of_lt hroom)
  subst hnone
  constructor
  case perm =>
    have hperm := h.perm
    rw [append_nil] at hperm ⊢
    exact hperm.append_right [x]
  case le_limit =>
    rw [length_append, length_singleton]
    exact hroom
  case full => exact fun hne => absurd rfl hne
  case least => exact fun y hy => absurd hy not_mem_nil

/-- An element that is not greater than any kept one. -/
theorem skip (h : Kept f limit seen kept dropped) (hfull : kept.length = limit) {x : α}
    (hx : ∀ y ∈ kept, f x ≤ f y) : Kept f limit (seen ++ [x]) kept (x :: dropped) := by
  constructor
  case perm =>
    refine (h.perm.append_right [x]).trans ?_
    rw [append_assoc]
    exact (perm_append_singleton x dropped).append_left kept
  case le_limit => exact h.le_limit
  case full => exact fun _ => hfull
  case least =>
    intro z hz
    rcases mem_cons.mp hz with heq | hz
    · rw [heq]
      exact hx
    · exact h.least z hz

/-- An element that takes the place of a least one. -/
theorem replace (h : Kept f limit seen kept dropped) (hfull : kept.length = limit) {x : α} {i : Nat}
    (hi : i < kept.length) (hmin : ∀ y ∈ kept, f kept[i] ≤ f y) (hx : f kept[i] ≤ f x) :
    Kept f limit (seen ++ [x]) (kept.set i x) (kept[i] :: dropped) := by
  have hset : (kept.set i x).Perm (x :: kept.eraseIdx i) := set_perm_cons_eraseIdx hi x
  have hget : kept.Perm (kept[i] :: kept.eraseIdx i) := (List.getElem_cons_eraseIdx_perm hi).symm
  constructor
  case perm =>
    refine (h.perm.append_right [x]).trans ?_
    refine ((hget.append_right dropped).append_right [x]).trans ?_
    refine (perm_append_singleton x _).trans ?_
    refine List.Perm.trans ?_ (hset.append_right _).symm
    rw [cons_append, cons_append]
    exact (perm_middle.symm).cons x
  case le_limit =>
    rw [length_set]
    exact h.le_limit
  case full =>
    intro _
    rw [length_set]
    exact hfull
  case least =>
    intro z hz y hy
    have hz' : f z ≤ f kept[i] := by
      rcases mem_cons.mp hz with heq | hz
      · rw [heq]
      · exact h.least z hz _ (List.getElem_mem hi)
    rcases mem_cons.mp (hset.mem_iff.mp hy) with heq | hy
    · rw [heq]
      exact hz'.trans hx
    · exact hz'.trans (hmin y (mem_of_mem_eraseIdx hy))

/-- Reordering what was kept. -/
theorem of_perm (h : Kept f limit seen kept dropped) {kept' : List α} (hperm : kept'.Perm kept) :
    Kept f limit seen kept' dropped where
  perm := h.perm.trans (hperm.symm.append_right dropped)
  le_limit := hperm.length_eq.trans_le h.le_limit
  full hne := hperm.length_eq.trans (h.full hne)
  least x hx y hy := h.least x hx y (hperm.mem_iff.mp hy)

theorem length_eq (h : Kept f limit seen kept dropped) : kept.length = min limit seen.length := by
  have hlen := h.perm.length_eq
  rw [length_append] at hlen
  have hle := h.le_limit
  by_cases hne : dropped = []
  · rw [hne, length_nil] at hlen
    omega
  · have hfull := h.full hne
    omega

theorem mem_seen (h : Kept f limit seen kept dropped) {x : α} (hx : x ∈ kept) : x ∈ seen :=
  h.perm.mem_iff.mpr (mem_append_left dropped hx)

theorem nodup (h : Kept f limit seen kept dropped) (hseen : seen.Nodup) : kept.Nodup :=
  (nodup_append.mp (h.perm.nodup_iff.mp hseen)).1

theorem le_of_not_mem (h : Kept f limit seen kept dropped) {x y : α} (hx : x ∈ seen)
    (hnot : x ∉ kept) (hy : y ∈ kept) : f x ≤ f y := by
  refine h.least x ?_ y hy
  exact (mem_append.mp (h.perm.mem_iff.mp hx)).resolve_left hnot

end Kept

/-! ## Bubble sort -/

/-- One pass from the left, with whether it has swapped. -/
def bubblePass : List α → List α × Bool
  | [] => ([], false)
  | [x] => ([x], false)
  | x :: y :: l =>
    if f x < f y then (y :: (bubblePass (x :: l)).1, true)
    else (x :: (bubblePass (y :: l)).1, (bubblePass (y :: l)).2)

/-- Passes until none swaps. -/
def bubbleSort : Nat → List α → Option (List α)
  | 0, _ => none
  | fuel + 1, l =>
    if (bubblePass f l).2 then bubbleSort fuel (bubblePass f l).1 else some (bubblePass f l).1

/-- The pairs that are in the wrong order. -/
def inversions : List α → Nat
  | [] => 0
  | x :: l => l.countP (fun y => decide (f x < f y)) + inversions l

theorem bubblePass_perm (l : List α) : (bubblePass f l).1.Perm l := by
  fun_induction bubblePass f l with
  | case1 => exact .refl _
  | case2 x => exact .refl _
  | case3 x y l hlt ih => exact (ih.cons y).trans (.swap x y l)
  | case4 x y l hlt ih => exact ih.cons x

/-- Each pass that swaps takes an inversion away. -/
theorem inversions_bubblePass (l : List α) :
    inversions f (bubblePass f l).1 + (bubblePass f l).2.toNat ≤ inversions f l := by
  fun_induction bubblePass f l with
  | case1 => exact Nat.le_refl _
  | case2 x => exact Nat.le_refl _
  | case3 x y l hlt ih =>
    have hcount := (bubblePass_perm f (x :: l)).countP_eq fun z => decide (f y < f z)
    have hx : decide (f y < f x) = false := decide_eq_false (not_lt.mpr hlt.le)
    have hy : decide (f x < f y) = true := decide_eq_true hlt
    rw [countP_cons, hx] at hcount
    simp only [inversions, Bool.toNat_true, countP_cons, hy, hcount] at ih ⊢
    simp only [Bool.false_eq_true, if_false, if_true] at ih ⊢
    omega
  | case4 x y l hlt ih =>
    have hcount := (bubblePass_perm f (y :: l)).countP_eq fun z => decide (f x < f z)
    simp only [inversions, hcount] at ih ⊢
    omega

/-- A pass that does not swap leaves the list as it was. -/
theorem bubblePass_eq (l : List α) (h : (bubblePass f l).2 = false) : (bubblePass f l).1 = l := by
  fun_induction bubblePass f l with
  | case1 => rfl
  | case2 x => rfl
  | case3 x y l hlt ih => exact absurd h nofun
  | case4 x y l hlt ih => rw [ih h]

/-- A pass that does not swap has found the list in order. -/
theorem pairwise_of_bubblePass (l : List α) (h : (bubblePass f l).2 = false) :
    l.Pairwise fun x y => f y ≤ f x := by
  fun_induction bubblePass f l with
  | case1 => exact .nil
  | case2 x => exact pairwise_singleton ..
  | case3 x y l hlt ih => exact absurd h nofun
  | case4 x y l hlt ih =>
    have hsorted := ih h
    have hyx : f y ≤ f x := not_lt.mp hlt
    refine pairwise_cons.mpr ⟨?_, hsorted⟩
    intro z hz
    rcases mem_cons.mp hz with heq | hz
    · rw [heq]
      exact hyx
    · exact ((pairwise_cons.mp hsorted).1 z hz).trans hyx

theorem bubbleSort_isSome (l : List α) {fuel : Nat} (h : inversions f l < fuel) :
    ∃ l', bubbleSort f fuel l = some l' := by
  induction fuel generalizing l with
  | zero => exact absurd h (Nat.not_lt_zero _)
  | succ fuel ih =>
    have hpass := inversions_bubblePass f l
    unfold bubbleSort
    split
    case isTrue hswap =>
      rw [hswap, Bool.toNat_true] at hpass
      exact ih _ (by omega)
    case isFalse => exact ⟨_, rfl⟩

theorem bubbleSort_spec {l l' : List α} {fuel : Nat} (h : bubbleSort f fuel l = some l') :
    l'.Perm l ∧ l'.Pairwise fun x y => f y ≤ f x := by
  induction fuel generalizing l with
  | zero => exact absurd h nofun
  | succ fuel ih =>
    unfold bubbleSort at h
    split at h
    case isTrue =>
      rcases ih h with ⟨hperm, hsorted⟩
      exact ⟨hperm.trans (bubblePass_perm f l), hsorted⟩
    case isFalse hswap =>
      have hnot : (bubblePass f l).2 = false := Bool.eq_false_of_not_eq_true hswap
      rw [← Option.some.inj h, bubblePass_eq f l hnot]
      exact ⟨.refl l, pairwise_of_bubblePass f l hnot⟩

theorem inversions_le (l : List α) : inversions f l ≤ l.length * l.length := by
  induction l with
  | nil => exact Nat.zero_le _
  | cons x l ih =>
    have hcount : l.countP (fun y => decide (f x < f y)) ≤ l.length := countP_le_length
    rw [inversions, length_cons, Nat.mul_succ, Nat.succ_mul]
    omega

end PittCs.Lib
