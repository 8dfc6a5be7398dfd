import Mathlib.Data.List.Sort
import Mathlib.Tactic.Linarith

/-!
# Five sorts

`Sorting.hs`, over a linear order. A missing pattern and a call of `error` are a missing
result. Guards that a linear order makes exhaustive are the two branches of a condition.
-/

namespace PittCs.Cs1699.Sorting

open List Option

variable {α : Type} [LinearOrder α]

def quickSort : List α → List α
  | [] => []
  | [x] => [x]
  | x :: y :: xs =>
    let l := (y :: xs).filter (· < x)
    let r := (y :: xs).filter (· ≥ x)
    quickSort l ++ [x] ++ quickSort r
termination_by l => l.length
decreasing_by
  · exact Nat.lt_succ_of_le (length_filter_le _ _)
  · exact Nat.lt_succ_of_le (length_filter_le _ _)

def merge : List α → List α → List α
  | x, [] => x
  | [], y => y
  | x :: xs, y :: ys => if x > y then y :: merge (x :: xs) ys else x :: merge xs (y :: ys)
termination_by xs ys => xs.length + ys.length

def takeRemainder : Nat → List α → List α
  | _, [] => []
  | 0, y => y
  | x + 1, _ :: ys => takeRemainder x ys

omit [LinearOrder α] in
theorem takeRemainder_eq_drop (n : Nat) (l : List α) : takeRemainder n l = l.drop n := by
  induction n generalizing l with
  | zero => cases l <;> rfl
  | succ n ih =>
    cases l with
    | nil => rfl
    | cons x l => exact ih l

def mergeSort : List α → List α
  | [] => []
  | [x] => [x]
  | x :: y :: xs =>
    let mid := (x :: y :: xs).length / 2
    merge (mergeSort ((x :: y :: xs).take mid)) (mergeSort (takeRemainder mid (x :: y :: xs)))
termination_by l => l.length
decreasing_by
  · rw [length_take]
    simp only [length_cons]
    omega
  · rw [takeRemainder_eq_drop, length_drop]
    simp only [length_cons]
    omega

def insert (x : α) : List α → List α
  | [] => [x]
  | y :: ys => if x ≤ y then x :: y :: ys else y :: insert x ys

/-- There is no case for the empty list. -/
def insertionSort : List α → Option (List α)
  | [] => none
  | [x] => some [x]
  | x :: y :: xs => (insertionSort (y :: xs)).map (insert x)

def removeFirst (target : α) : List α → List α
  | [] => []
  | x :: xs => if x == target then xs else x :: removeFirst target xs

def myMin : List α → Option α
  | [] => none
  | [x] => some x
  | x :: y :: xs => (myMin (y :: xs)).map fun m => if x < m then x else m

theorem mem_of_myMin {l : List α} {m : α} (h : myMin l = some m) : m ∈ l := by
  induction l generalizing m with
  | nil => exact absurd h nofun
  | cons x l ih =>
    cases l with
    | nil =>
      rw [← some.inj h]
      exact mem_singleton_self x
    | cons y xs =>
      obtain ⟨m', hm', heq⟩ := map_eq_some_iff.mp h
      rw [← heq]
      split
      · exact mem_cons_self
      · exact mem_cons_of_mem x (ih hm')

theorem removeFirst_eq_erase (target : α) (l : List α) : removeFirst target l = l.erase target := by
  induction l with
  | nil => rfl
  | cons x l ih => rw [removeFirst, erase_cons, ih]

def selectionSort : List α → Option (List α)
  | [] => some []
  | [x] => some [x]
  | x :: y :: xs =>
    match _h : myMin (x :: y :: xs) with
    | none => none
    | some min => (selectionSort (removeFirst min (x :: y :: xs))).map (min :: ·)
termination_by l => l.length
decreasing_by
  rw [removeFirst_eq_erase, length_erase_of_mem (mem_of_myMin _h)]
  exact Nat.lt_succ_self _

def isSorted : List α → Bool
  | [] => true
  | [_] => true
  | x :: y :: xs => decide (x ≤ y) && isSorted (y :: xs)

def pass : List α → List α
  | [] => []
  | [x] => [x]
  | a :: b :: c => if a > b then b :: pass (a :: c) else a :: pass (b :: c)
termination_by l => l.length

/-! ## Passes remove inversions -/

theorem pass_perm (l : List α) : (pass l).Perm l := by
  induction l using pass.induct with
  | case1 | case2 x => rw [pass]
  | case3 a b c hab ih =>
    rw [pass, if_pos hab]
    exact (ih.cons b).trans (.swap a b c)
  | case4 a b c hab ih =>
    rw [pass, if_neg hab]
    exact ih.cons a

/-- The pairs in the wrong order. -/
def inversions : List α → Nat
  | [] => 0
  | x :: xs => xs.countP (· < x) + inversions xs

theorem inversions_pass_le (l : List α) : inversions (pass l) ≤ inversions l := by
  induction l using pass.induct with
  | case1 | case2 x => rw [pass]
  | case3 a b c hab ih =>
    rw [pass, if_pos hab]
    simp only [inversions, (pass_perm (a :: c)).countP_eq, countP_cons] at ih ⊢
    have hba : ¬ a < b := not_lt.mpr hab.le
    simp only [hba, decide_false, Bool.false_eq_true, if_false]
    omega
  | case4 a b c hab ih =>
    rw [pass, if_neg hab]
    simp only [inversions, (pass_perm (b :: c)).countP_eq, countP_cons] at ih ⊢
    omega

theorem inversions_pass_lt (l : List α) (h : isSorted l = false) :
    inversions (pass l) < inversions l := by
  induction l using pass.induct with
  | case1 | case2 x => exact absurd h (by simp [isSorted])
  | case3 a b c hab ih =>
    have hle := inversions_pass_le (a :: c)
    have hba : ¬ a < b := not_lt.mpr hab.le
    have hlt : b < a := hab
    rw [pass, if_pos hab]
    simp only [inversions, (pass_perm (a :: c)).countP_eq, countP_cons] at hle ⊢
    simp only [hba, hlt, decide_false, decide_true, Bool.false_eq_true, if_false, if_true]
    omega
  | case4 a b c hab ih =>
    have htail : isSorted (b :: c) = false := by
      simpa [isSorted, not_lt.mp hab] using h
    have hlt := ih htail
    rw [pass, if_neg hab]
    simp only [inversions, (pass_perm (b :: c)).countP_eq, countP_cons] at hlt ⊢
    omega

def bubbleSort (x : List α) : List α := if isSorted x then x else bubbleSort (pass x)
termination_by inversions x
decreasing_by
  rename_i h
  exact inversions_pass_lt x (Bool.eq_false_of_not_eq_true h)

/-! ## Sorted permutations -/

/-- `s` is the sorted permutation of `l`. -/
def SortOf (l s : List α) : Prop := s.Pairwise (· ≤ ·) ∧ s.Perm l

theorem SortOf.unique {l s s' : List α} (h : SortOf l s) (h' : SortOf l s') : s = s' :=
  (h.2.trans h'.2.symm).eq_of_pairwise' h.1 h'.1

theorem sortOf_quickSort (l : List α) : SortOf l (quickSort l) := by
  induction l using quickSort.induct with
  | case1 =>
    rw [quickSort]
    exact ⟨.nil, .refl _⟩
  | case2 x =>
    rw [quickSort]
    exact ⟨pairwise_singleton _ x, .refl _⟩
  | case3 x y xs l r ihl ihr =>
    have hnot : (fun z => !decide (z < x)) = fun z => decide (z ≥ x) := by
      funext z
      rw [← decide_not, decide_eq_decide]
      exact not_lt
    have hsplit := filter_append_perm (fun z => decide (z < x)) (y :: xs)
    rw [hnot] at hsplit
    rw [quickSort, append_assoc, singleton_append]
    constructor
    · refine pairwise_append.mpr ⟨ihl.1, pairwise_cons.mpr ⟨?_, ihr.1⟩, ?_⟩
      · intro z hz
        have hmem := mem_filter.mp (ihr.2.mem_iff.mp hz)
        simpa using hmem.2
      · intro u hu v hv
        have hux : u < x := by simpa using (mem_filter.mp (ihl.2.mem_iff.mp hu)).2
        rcases mem_cons.mp hv with rfl | hv
        · exact hux.le
        · have hxv : x ≤ v := by simpa using (mem_filter.mp (ihr.2.mem_iff.mp hv)).2
          exact hux.le.trans hxv
    · calc
        (quickSort l ++ x :: quickSort r).Perm (x :: (quickSort l ++ quickSort r)) :=
          perm_middle
        _ |>.Perm (x :: (l ++ r)) := (ihl.2.append ihr.2).cons x
        _ |>.Perm (x :: y :: xs) := hsplit.cons x

theorem merge_perm (xs ys : List α) : (merge xs ys).Perm (xs ++ ys) := by
  induction xs, ys using merge.induct with
  | case1 x => rw [merge, append_nil]
  | case2 y hy =>
    rw [merge.eq_2 _ hy]
    exact .refl _
  | case3 x xs y ys hxy ih =>
    rw [merge, if_pos hxy]
    exact (ih.cons y).trans perm_middle.symm
  | case4 x xs y ys hxy ih =>
    rw [merge, if_neg hxy]
    exact ih.cons x

theorem merge_pairwise {xs ys : List α} (hx : xs.Pairwise (· ≤ ·)) (hy : ys.Pairwise (· ≤ ·)) :
    (merge xs ys).Pairwise (· ≤ ·) := by
  induction xs, ys using merge.induct with
  | case1 x =>
    rw [merge]
    exact hx
  | case2 y hne =>
    rw [merge.eq_2 _ hne]
    exact hy
  | case3 x xs y ys hxy ih =>
    rw [merge, if_pos hxy]
    refine pairwise_cons.mpr ⟨?_, ih hx (pairwise_cons.mp hy).2⟩
    intro z hz
    rcases mem_append.mp ((merge_perm _ _).mem_iff.mp hz) with hz | hz
    · rcases mem_cons.mp hz with rfl | hz
      · exact le_of_lt hxy
      · exact (le_of_lt hxy).trans ((pairwise_cons.mp hx).1 z hz)
    · exact (pairwise_cons.mp hy).1 z hz
  | case4 x xs y ys hxy ih =>
    rw [merge, if_neg hxy]
    refine pairwise_cons.mpr ⟨?_, ih (pairwise_cons.mp hx).2 hy⟩
    intro z hz
    have hle : x ≤ y := not_lt.mp hxy
    rcases mem_append.mp ((merge_perm _ _).mem_iff.mp hz) with hz | hz
    · exact (pairwise_cons.mp hx).1 z hz
    · rcases mem_cons.mp hz with rfl | hz
      · exact hle
      · exact hle.trans ((pairwise_cons.mp hy).1 z hz)

theorem sortOf_mergeSort (l : List α) : SortOf l (mergeSort l) := by
  induction l using mergeSort.induct with
  | case1 =>
    rw [mergeSort]
    exact ⟨.nil, .refl _⟩
  | case2 x =>
    rw [mergeSort]
    exact ⟨pairwise_singleton _ x, .refl _⟩
  | case3 x y xs mid ihl ihr =>
    rw [mergeSort]
    refine ⟨merge_pairwise ihl.1 ihr.1, (merge_perm _ _).trans ?_⟩
    have hsplit := ihl.2.append ihr.2
    rw [takeRemainder_eq_drop, take_append_drop] at hsplit
    rw [takeRemainder_eq_drop]
    exact hsplit

theorem sortOf_insert {x : α} {l s : List α} (h : SortOf l s) : SortOf (x :: l) (insert x s) := by
  induction s generalizing l with
  | nil =>
    obtain rfl := h.2.nil_eq
    exact ⟨pairwise_singleton _ x, .refl _⟩
  | cons y s ih =>
    rw [insert]
    split
    case isTrue hxy =>
      refine ⟨pairwise_cons.mpr ⟨?_, h.1⟩, h.2.cons x⟩
      intro z hz
      rcases mem_cons.mp hz with rfl | hz
      · exact hxy
      · exact hxy.trans ((pairwise_cons.mp h.1).1 z hz)
    case isFalse hxy =>
      have hs := ih ⟨(pairwise_cons.mp h.1).2, .refl s⟩
      constructor
      · refine pairwise_cons.mpr ⟨?_, hs.1⟩
        intro z hz
        rcases mem_cons.mp (hs.2.mem_iff.mp hz) with rfl | hz
        · exact (not_le.mp hxy).le
        · exact (pairwise_cons.mp h.1).1 z hz
      · exact ((hs.2.cons y).trans (.swap x y s)).trans (h.2.cons x)

theorem sortOf_insertionSort {l : List α} (h : l ≠ []) :
    ∃ s, insertionSort l = some s ∧ SortOf l s := by
  induction l with
  | nil => exact absurd rfl h
  | cons x l ih =>
    cases l with
    | nil => exact ⟨[x], rfl, pairwise_singleton _ x, .refl _⟩
    | cons y xs =>
      obtain ⟨s, hs, hsort⟩ := ih (cons_ne_nil y xs)
      refine ⟨insert x s, ?_, sortOf_insert hsort⟩
      rw [insertionSort, hs, map_some]

theorem myMin_spec {l : List α} (h : l ≠ []) : ∃ m, myMin l = some m ∧ ∀ x ∈ l, m ≤ x := by
  induction l with
  | nil => exact absurd rfl h
  | cons x l ih =>
    cases l with
    | nil =>
      refine ⟨x, rfl, ?_⟩
      intro z hz
      exact (mem_singleton.mp hz).ge
    | cons y xs =>
      obtain ⟨m, hm, hle⟩ := ih (cons_ne_nil y xs)
      refine ⟨if x < m then x else m, ?_, ?_⟩
      · rw [myMin, hm, map_some]
      · intro z hz
        rcases mem_cons.mp hz with rfl | hz
        · split
          · exact le_rfl
          · exact not_lt.mp ‹_›
        · have hmz := hle z hz
          split
          · exact (le_of_lt ‹_›).trans hmz
          · exact hmz

theorem sortOf_selectionSort (l : List α) : ∃ s, selectionSort l = some s ∧ SortOf l s := by
  induction hn : l.length using Nat.strong_induction_on generalizing l with
  | _ n ih =>
    match l with
    | [] => exact ⟨[], by rw [selectionSort], .nil, .refl _⟩
    | [x] => exact ⟨[x], by rw [selectionSort], pairwise_singleton _ x, .refl _⟩
    | x :: y :: xs =>
      obtain ⟨m, hm, hle⟩ := myMin_spec (cons_ne_nil x (y :: xs))
      have hmem := mem_of_myMin hm
      have hlen : (removeFirst m (x :: y :: xs)).length < n := by
        rw [removeFirst_eq_erase, length_erase_of_mem hmem, ← hn]
        exact Nat.lt_succ_self _
      obtain ⟨s, hs, hsort⟩ := ih _ hlen (removeFirst m (x :: y :: xs)) rfl
      rw [removeFirst_eq_erase] at hsort
      refine ⟨m :: s, ?_, ?_, ?_⟩
      · rw [selectionSort]
        split
        case h_1 hnone => exact absurd (hm.symm.trans hnone) nofun
        case h_2 m' hsome =>
          obtain rfl := some.inj (hm.symm.trans hsome)
          rw [hs, map_some]
      · refine pairwise_cons.mpr ⟨?_, hsort.1⟩
        intro z hz
        exact hle z (mem_of_mem_erase (hsort.2.mem_iff.mp hz))
      · exact (hsort.2.cons m).trans (perm_cons_erase hmem).symm

theorem pairwise_of_isSorted {l : List α} (h : isSorted l = true) : l.Pairwise (· ≤ ·) := by
  induction l with
  | nil => exact .nil
  | cons x l ih =>
    cases l with
    | nil => exact pairwise_singleton _ x
    | cons y xs =>
      rw [isSorted, Bool.and_eq_true, decide_eq_true_eq] at h
      have hrest := ih h.2
      refine pairwise_cons.mpr ⟨?_, hrest⟩
      intro z hz
      rcases mem_cons.mp hz with rfl | hz
      · exact h.1
      · exact h.1.trans ((pairwise_cons.mp hrest).1 z hz)

theorem sortOf_bubbleSort (l : List α) : SortOf l (bubbleSort l) := by
  induction l using bubbleSort.induct with
  | case1 l h =>
    rw [bubbleSort, if_pos h]
    exact ⟨pairwise_of_isSorted h, .refl _⟩
  | case2 l h ih =>
    rw [bubbleSort, if_neg h]
    exact ⟨ih.1, ih.2.trans (pass_perm l)⟩

/-! ## Agreement -/

/-- The five sorts return the sorted permutation. -/
def Agree (l : List α) : Prop :=
  ∃ s, SortOf l s ∧ quickSort l = s ∧ mergeSort l = s ∧ insertionSort l = some s ∧
    selectionSort l = some s ∧ bubbleSort l = s

/-- The five sorts agree if and only if the list is not empty: `insertionSort` has no
case for the empty list. -/
theorem agree_iff (l : List α) : Agree l ↔ l ≠ [] := by
  constructor
  · rintro ⟨s, -, -, -, hins, -⟩ rfl
    exact absurd hins nofun
  · intro h
    obtain ⟨s, hins, hs⟩ := sortOf_insertionSort h
    obtain ⟨s', hsel, hs'⟩ := sortOf_selectionSort l
    refine ⟨s, hs, (sortOf_quickSort l).unique hs, (sortOf_mergeSort l).unique hs, hins, ?_,
      (sortOf_bubbleSort l).unique hs⟩
    rw [hsel, hs'.unique hs]

theorem not_agree_nil : ¬ Agree ([] : List Nat) := by
  rintro ⟨s, -, -, -, hins, -⟩
  exact absurd hins nofun

end PittCs.Cs1699.Sorting
