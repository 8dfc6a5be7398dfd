import Mathlib.Data.Multiset.Sort
import Mathlib.Order.Bounds.Basic

/-!
# Search trees with duplicates

`BTree.hs`. The keys are only compared, so any linear order stands for `Int`. A call of
`error` is a missing result. Equal keys go to the right: left of a key are smaller keys
only, right of it are keys that are not smaller.
-/

namespace PittCs.Cs1699.Bst

open List

inductive BTree (α : Type) where
  | emptyBTree
  | bTree (val : α) (left right : BTree α)
deriving Repr, DecidableEq

namespace BTree

variable {α : Type}

def btInorder : BTree α → List α
  | emptyBTree => []
  | bTree val left right => btInorder left ++ [val] ++ btInorder right

theorem btInorder_bTree (val : α) (left right : BTree α) :
    btInorder (bTree val left right) = btInorder left ++ [val] ++ btInorder right := rfl

theorem mem_btInorder_bTree {x val : α} {left right : BTree α} :
    x ∈ btInorder (bTree val left right) ↔
      x ∈ btInorder left ∨ x = val ∨ x ∈ btInorder right := by
  simp only [btInorder, mem_append, mem_singleton, or_assoc]

theorem btInorder_eq_nil {t : BTree α} : btInorder t = [] ↔ t = emptyBTree := by
  cases t with
  | emptyBTree | bTree val left right => simp [btInorder]

variable [LinearOrder α]

def bstAdd (x : α) : BTree α → BTree α
  | emptyBTree => bTree x emptyBTree emptyBTree
  | bTree val left right =>
    if x ≥ val then bTree val left (bstAdd x right) else bTree val (bstAdd x left) right

def bstContains (target : α) : BTree α → Bool
  | emptyBTree => false
  | bTree val left right =>
    if val == target then true
    else if val > target then false || bstContains target left
    else false || bstContains target right

def bstMax : BTree α → Option α
  | emptyBTree => none
  | bTree val _ right => if right == emptyBTree then some val else bstMax right

def bstMin : BTree α → Option α
  | emptyBTree => none
  | bTree val left _ => if left == emptyBTree then some val else bstMin left

def bstRemove (target : α) : BTree α → Option (BTree α)
  | emptyBTree => some emptyBTree
  | bTree val left right =>
    if target > val then (bstRemove target right).map fun r => bTree val left r
    else if target < val then (bstRemove target left).map fun l => bTree val l right
    else if right == emptyBTree && left == emptyBTree then some emptyBTree
    else if right == emptyBTree && left != emptyBTree then some left
    else if right != emptyBTree && left == emptyBTree then some right
    else (bstMin right).bind fun m => (bstRemove m right).map fun r => bTree m left r

/-! ## Order -/

/-- The order that `bstAdd` keeps. -/
def Ordered : BTree α → Prop
  | emptyBTree => True
  | bTree val left right =>
    (∀ x ∈ btInorder left, x < val) ∧ (∀ x ∈ btInorder right, val ≤ x) ∧ Ordered left ∧
      Ordered right

/-- The keys of an ordered tree are sorted. -/
theorem Ordered.pairwise {t : BTree α} (h : Ordered t) : (btInorder t).Pairwise (· ≤ ·) := by
  induction t with
  | emptyBTree => exact .nil
  | bTree val left right ihl ihr =>
    rcases h with ⟨hlt, hle, hl, hr⟩
    rw [btInorder, append_assoc, singleton_append]
    refine pairwise_append.mpr ⟨ihl hl, pairwise_cons.mpr ⟨hle, ihr hr⟩, ?_⟩
    intro x hx y hy
    have hxv := hlt x hx
    rcases mem_cons.mp hy with rfl | hy
    · exact hxv.le
    · exact hxv.le.trans (hle y hy)

/-! ## Adding -/

theorem btInorder_bstAdd (x : α) (t : BTree α) : (btInorder (bstAdd x t)).Perm (x :: btInorder t) := by
  induction t with
  | emptyBTree => exact .refl _
  | bTree val left right ihl ihr =>
    rw [bstAdd]
    split
    · rw [btInorder, btInorder]
      exact (ihr.append_left _).trans perm_middle
    · rw [btInorder, btInorder]
      exact (ihl.append_right _).append_right _

theorem mem_bstAdd {x y : α} {t : BTree α} : y ∈ btInorder (bstAdd x t) ↔ y = x ∨ y ∈ btInorder t := by
  rw [(btInorder_bstAdd x t).mem_iff, mem_cons]

theorem Ordered.bstAdd {t : BTree α} (h : Ordered t) (x : α) : Ordered (bstAdd x t) := by
  induction t with
  | emptyBTree => simp [BTree.bstAdd, Ordered, btInorder]
  | bTree val left right ihl ihr =>
    rcases h with ⟨hlt, hle, hl, hr⟩
    rw [BTree.bstAdd]
    split
    case isTrue hx =>
      refine ⟨hlt, ?_, hl, ihr hr⟩
      intro y hy
      rcases mem_bstAdd.mp hy with rfl | hy
      · exact hx
      · exact hle y hy
    case isFalse hx =>
      refine ⟨?_, hle, ihl hl, hr⟩
      intro y hy
      rcases mem_bstAdd.mp hy with rfl | hy
      · exact not_le.mp hx
      · exact hlt y hy

/-! ## Searching -/

theorem Ordered.bstContains_iff {t : BTree α} (h : Ordered t) (target : α) :
    bstContains target t = true ↔ target ∈ btInorder t := by
  induction t with
  | emptyBTree => simp [bstContains, btInorder]
  | bTree val left right ihl ihr =>
    rcases h with ⟨hlt, hle, hl, hr⟩
    rw [bstContains, mem_btInorder_bTree]
    by_cases heq : val = target
    · simp [heq]
    · rw [if_neg (by simpa using heq)]
      by_cases hgt : val > target
      · -- on the right are only keys that are not smaller than `val`
        rw [if_pos hgt, Bool.false_or, ihl hl]
        constructor
        · exact Or.inl
        · rintro (hmem | heq' | hmem)
          · exact hmem
          · exact absurd heq'.symm heq
          · exact absurd (hle target hmem) (not_le.mpr hgt)
      · rw [if_neg hgt, Bool.false_or, ihr hr]
        constructor
        · exact fun hmem => Or.inr (Or.inr hmem)
        · rintro (hmem | heq' | hmem)
          · exact absurd (hlt target hmem) hgt
          · exact absurd heq'.symm heq
          · exact hmem

theorem bstMin_eq_head? (t : BTree α) : bstMin t = (btInorder t).head? := by
  induction t with
  | emptyBTree => rfl
  | bTree val left right ihl _ =>
    rw [bstMin, btInorder]
    by_cases hl : left = emptyBTree
    · simp [hl, btInorder]
    · have hne : btInorder left ≠ [] := fun hnil => hl (btInorder_eq_nil.mp hnil)
      rw [if_neg (by simpa using hl), ihl, append_assoc, head?_append_of_ne_nil _ hne]

theorem bstMax_eq_getLast? (t : BTree α) : bstMax t = (btInorder t).getLast? := by
  induction t with
  | emptyBTree => rfl
  | bTree val left right _ ihr =>
    rw [bstMax, btInorder]
    by_cases hr : right = emptyBTree
    · simp [hr, btInorder]
    · have hne : btInorder right ≠ [] := fun hnil => hr (btInorder_eq_nil.mp hnil)
      rw [if_neg (by simpa using hr), ihr, getLast?_append_of_ne_nil _ hne]

theorem head?_isLeast {l : List α} (h : l.Pairwise (· ≤ ·)) (m : α) :
    l.head? = some m ↔ IsLeast {x | x ∈ l} m := by
  cases l with
  | nil => simp [IsLeast]
  | cons a l =>
    have ha : IsLeast {x | x ∈ a :: l} a := by
      refine ⟨mem_cons_self, ?_⟩
      intro x hx
      rcases mem_cons.mp hx with rfl | hx
      · exact le_rfl
      · exact (pairwise_cons.mp h).1 x hx
    rw [head?_cons, Option.some.injEq]
    constructor
    · rintro rfl
      exact ha
    · exact fun hm => ha.unique hm

theorem getLast?_isGreatest {l : List α} (h : l.Pairwise (· ≤ ·)) (m : α) :
    l.getLast? = some m ↔ IsGreatest {x | x ∈ l} m := by
  have hmem : {x | x ∈ l} = {x | x ∈ l.reverse} := by
    ext x
    simp
  rw [getLast?_eq_head?_reverse, hmem]
  exact head?_isLeast (α := αᵒᵈ) (pairwise_reverse.mpr h) m

/-! ## Removing -/

section Erase

variable {target val : α} {l r : List α}

theorem erase_right (hl : ∀ x ∈ l, x < val) (hgt : target > val) :
    (l ++ [val] ++ r).erase target = l ++ [val] ++ r.erase target := by
  apply erase_append_right
  intro hmem
  rcases mem_append.mp hmem with hmem | hmem
  · exact absurd (hl target hmem) (not_lt.mpr hgt.le)
  · exact absurd (mem_singleton.mp hmem) hgt.ne'

theorem erase_left (hr : ∀ x ∈ r, val ≤ x) (hlt : target < val) :
    (l ++ [val] ++ r).erase target = l.erase target ++ [val] ++ r := by
  by_cases hmem : target ∈ l
  · rw [append_assoc, erase_append_left _ hmem, append_assoc]
  · have hnot : target ∉ [val] ++ r := by
      intro hmem'
      rcases mem_append.mp hmem' with hmem' | hmem'
      · exact absurd (mem_singleton.mp hmem') hlt.ne
      · exact absurd (hr target hmem') (not_le.mpr hlt)
    rw [append_assoc, erase_append_right _ hmem, erase_of_not_mem hnot,
      erase_of_not_mem hmem, append_assoc]

theorem erase_middle (hl : ∀ x ∈ l, x < val) : (l ++ [val] ++ r).erase val = l ++ r := by
  have hnot : val ∉ l := fun hmem => lt_irrefl val (hl val hmem)
  rw [append_assoc, erase_append_right _ hnot, singleton_append,
    erase_cons_head]

end Erase

/-- What removal gives. -/
def Removes (target : α) (t t' : BTree α) : Prop :=
  Ordered t' ∧ (btInorder t').Perm ((btInorder t).erase target)

theorem Removes.subset {target x : α} {t t' : BTree α} (h : Removes target t t')
    (hx : x ∈ btInorder t') : x ∈ btInorder t :=
  mem_of_mem_erase (h.2.mem_iff.mp hx)

/-- The least right element takes the place of the root and is removed on the right. -/
theorem Ordered.replace {val m : α} {left right r : BTree α} (h : Ordered (bTree val left right))
    (hm : (btInorder right).head? = some m) (hr : Removes m right r) :
    Removes val (bTree val left right) (bTree m left r) := by
  rcases h with ⟨hlt, hle, hl, hor⟩
  have hleast := (head?_isLeast hor.pairwise m).mp hm
  constructor
  · refine ⟨?_, ?_, hl, hr.1⟩
    · intro x hx
      exact (hlt x hx).trans_le (hle m hleast.1)
    · intro x hx
      exact hleast.2 (hr.subset hx)
  · rw [btInorder, btInorder, erase_middle hlt, append_assoc]
    apply List.Perm.append_left
    exact (hr.2.cons m).trans (perm_cons_erase hleast.1).symm

theorem Ordered.bstRemove {t : BTree α} (h : Ordered t) (target : α) :
    ∃ t', bstRemove target t = some t' ∧ Removes target t t' := by
  induction t generalizing target with
  | emptyBTree => exact ⟨emptyBTree, rfl, trivial, .refl _⟩
  | bTree val left right ihl ihr =>
    obtain ⟨hlt, hle, hl, hr⟩ := id h
    rw [BTree.bstRemove]
    by_cases hgt : target > val
    · obtain ⟨r, hrem, hrem'⟩ := ihr hr target
      rw [if_pos hgt, hrem]
      refine ⟨bTree val left r, rfl, ⟨hlt, fun x hx => hle x (hrem'.subset hx), hl, hrem'.1⟩, ?_⟩
      rw [btInorder, btInorder, erase_right hlt hgt]
      exact hrem'.2.append_left _
    · rw [if_neg hgt]
      by_cases hlt' : target < val
      · obtain ⟨l, hrem, hrem'⟩ := ihl hl target
        rw [if_pos hlt', hrem]
        refine ⟨bTree val l right, rfl, ⟨fun x hx => hlt x (hrem'.subset hx), hle, hrem'.1, hr⟩, ?_⟩
        rw [btInorder, btInorder, erase_left hle hlt']
        exact (hrem'.2.append_right _).append_right _
      · obtain rfl : target = val := le_antisymm (not_lt.mp hgt) (not_lt.mp hlt')
        rw [if_neg hlt']
        by_cases hre : right = emptyBTree
        · by_cases hle' : left = emptyBTree
          · refine ⟨emptyBTree, by simp [hre, hle'], trivial, ?_⟩
            rw [btInorder_bTree, erase_middle hlt, hre, hle']
            exact .refl _
          · refine ⟨left, by simp [hre, hle'], hl, ?_⟩
            rw [btInorder_bTree, erase_middle hlt, hre]
            exact .of_eq (append_nil _).symm
        · by_cases hle' : left = emptyBTree
          · refine ⟨right, by simp [hre, hle'], hr, ?_⟩
            rw [btInorder_bTree, erase_middle hlt, hle']
            exact .refl _
          · -- two children: the least of the right one moves up
            obtain ⟨m, hm⟩ : ∃ m, (btInorder right).head? = some m := by
              cases hino : btInorder right with
              | nil => exact absurd (btInorder_eq_nil.mp hino) hre
              | cons m rest => exact ⟨m, rfl⟩
            obtain ⟨r, hrem, hrem'⟩ := ihr hr m
            refine ⟨bTree m left r, ?_, h.replace hm hrem'⟩
            simp [hre, hle', bstMin_eq_head?, hm, hrem]

/-! ## Runs -/

inductive Op (α : Type) where
  | add (x : α)
  | remove (x : α)

def step (t : BTree α) : Op α → Option (BTree α)
  | .add x => some (bstAdd x t)
  | .remove x => BTree.bstRemove x t

/-- One occurrence inserted, or one deleted if there is one. -/
def Op.onMultiset (s : Multiset α) : Op α → Multiset α
  | .add x => x ::ₘ s
  | .remove x => s.erase x

/-- An ordered tree with the elements of a multiset. -/
def Holds (t : BTree α) (s : Multiset α) : Prop := Ordered t ∧ (btInorder t : Multiset α) = s

theorem Holds.step {t : BTree α} {s : Multiset α} (h : Holds t s) (op : Op α) :
    ∃ t', step t op = some t' ∧ Holds t' (op.onMultiset s) := by
  rcases h with ⟨hord, rfl⟩
  cases op with
  | add x => exact ⟨_, rfl, hord.bstAdd x, Multiset.coe_eq_coe.mpr (btInorder_bstAdd x t)⟩
  | remove x =>
    obtain ⟨t', hrem, hord', hperm⟩ := hord.bstRemove x
    exact ⟨t', hrem, hord', (Multiset.coe_eq_coe.mpr hperm).trans (Multiset.coe_erase _ _).symm⟩

theorem Holds.run {t : BTree α} {s : Multiset α} (h : Holds t s) (ops : List (Op α)) :
    ∃ t', ops.foldlM BTree.step t = some t' ∧ Holds t' (ops.foldl Op.onMultiset s) := by
  induction ops generalizing t s with
  | nil => exact ⟨t, rfl, h⟩
  | cons op ops ih =>
    obtain ⟨t₁, hstep, h₁⟩ := h.step op
    obtain ⟨t', hrun, h'⟩ := ih h₁
    refine ⟨t', ?_, h'⟩
    rw [foldlM_cons, hstep, Option.bind_eq_bind, Option.bind_some, hrun]

/-- The tree refines a multiset. -/
theorem bst_refines_multiset (ops : List (Op α)) :
    ∃ t, ops.foldlM BTree.step emptyBTree = some t ∧
      btInorder t = (ops.foldl Op.onMultiset 0).sort (· ≤ ·) ∧
      (∀ x, bstContains x t = true ↔ x ∈ ops.foldl Op.onMultiset 0) ∧
      (∀ m, bstMin t = some m ↔ IsLeast {x | x ∈ ops.foldl Op.onMultiset 0} m) ∧
      ∀ m, bstMax t = some m ↔ IsGreatest {x | x ∈ ops.foldl Op.onMultiset 0} m := by
  have hempty : Holds (emptyBTree : BTree α) 0 := ⟨trivial, rfl⟩
  obtain ⟨t, hrun, hord, hs⟩ := hempty.run ops
  rw [← hs]
  refine ⟨t, hrun, ?_, ?_, ?_, ?_⟩
  · have hperm := Multiset.coe_eq_coe.mp (Multiset.sort_eq (btInorder t : Multiset α) (· ≤ ·)).symm
    exact hperm.eq_of_pairwise' hord.pairwise (Multiset.pairwise_sort _ _)
  · exact fun x => hord.bstContains_iff x
  · intro m
    rw [bstMin_eq_head?]
    exact head?_isLeast hord.pairwise m
  · intro m
    rw [bstMax_eq_getLast?]
    exact getLast?_isGreatest hord.pairwise m

end BTree

end PittCs.Cs1699.Bst
