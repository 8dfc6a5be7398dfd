import Mathlib.Data.List.Induction
import PittCs.Cs445.Sorters

/-!
# The sorters sort

Every loop is followed on an array that is split into the part before the range, the range
and the part behind it. What a loop returns is again such an array, with the range
rearranged.
-/

namespace PittCs.Cs445.Sorters

open Comparable List

variable {α : Type}

/-! ## The comparison -/

section

variable [Comparable α]

def le (x y : α) : Bool := decide (compareTo x y ≤ 0)

theorem le_iff {x y : α} : le x y = true ↔ compareTo x y ≤ 0 := decide_eq_true_iff

theorem compareTo_self (x : α) : compareTo x x = 0 := by
  have hsign := antisymm x x
  refine Int.sign_eq_zero_iff_zero.mp ?_
  omega

theorem pos_iff {x y : α} : 0 < compareTo x y ↔ compareTo y x < 0 := by
  have hsign := antisymm x y
  rw [← Int.sign_eq_one_iff_pos, ← Int.sign_eq_neg_one_iff_neg]
  omega

theorem not_le_iff {x y : α} : ¬ le x y = true ↔ 0 < compareTo x y := by
  rw [le_iff, not_le]

theorem le_trans {x y z : α} (hxy : le x y = true) (hyz : le y z = true) : le x z = true := by
  by_contra hxz
  rw [le_iff] at hxy hyz
  rw [not_le_iff] at hxz
  have hzx := pos_iff.mp hxz
  -- `z < x ≤ y` makes `z < y`
  have hzy : compareTo z y < 0 := by
    rcases Int.lt_or_eq_of_le hxy with hlt | heq
    · have hyx : 0 < compareTo y x := pos_iff.mpr hlt
      exact pos_iff.mp (trans y x z hyx hxz)
    · have hcongr := congr x y z heq
      rw [Int.sign_eq_one_iff_pos.mpr hxz] at hcongr
      exact pos_iff.mp (Int.sign_eq_one_iff_pos.mp hcongr.symm)
  have hpos := pos_iff.mpr hzy
  omega

theorem compares_le : Lib.Compares (le : α → α → Bool) where
  trans _ _ _ hxy hyz := le_trans hxy hyz
  total x y := by
    rw [Bool.or_eq_true, le_iff, le_iff]
    by_cases hxy : compareTo x y ≤ 0
    · exact Or.inl hxy
    · exact Or.inr (le_of_lt (pos_iff.mp (not_le.mp hxy)))

end

/-! ## Arrays -/

section

variable {pre suf : List α} {x y : α} {i j : Int}

theorem load_mid (hi : i = pre.length) : load (pre ++ x :: suf) i = .ok x := by
  subst hi
  unfold load
  rw [if_pos (Int.natCast_nonneg _), Int.toNat_natCast, List.getElem?_append_right (Nat.le_refl _),
    Nat.sub_self]
  rfl

theorem store_mid (hi : i = pre.length) : store (pre ++ x :: suf) i y = .ok (pre ++ y :: suf) := by
  subst hi
  unfold store
  rw [if_pos, Int.toNat_natCast, set_append_right _ _ (Nat.le_refl _), Nat.sub_self]
  · rfl
  · rw [length_append, length_cons]
    omega

theorem swap_same (hi : i = pre.length) : swap (pre ++ x :: suf) i i = .ok (pre ++ x :: suf) := by
  unfold swap
  rw [load_mid hi, Lib.ok_bind, Lib.ok_bind, store_mid hi, Lib.ok_bind, store_mid hi]

theorem swap_apart {mid : List α} (hi : i = pre.length) (hj : j = i + 1 + mid.length) :
    swap (pre ++ x :: (mid ++ y :: suf)) i j = .ok (pre ++ y :: (mid ++ x :: suf)) := by
  have hj' : ∀ z : α, j = ((pre ++ z :: mid).length : Nat) := by
    intro z
    rw [length_append, length_cons]
    omega
  have hsplit : ∀ z z' : α, pre ++ z :: (mid ++ z' :: suf) = (pre ++ z :: mid) ++ z' :: suf := by
    intro z z'
    rw [append_assoc, cons_append]
  unfold swap
  rw [load_mid hi, Lib.ok_bind, hsplit x y, load_mid (hj' x), Lib.ok_bind, ← hsplit x y,
    store_mid hi, Lib.ok_bind, hsplit y y, store_mid (hj' y), ← hsplit y x]

/-- An index in the range splits it. -/
theorem exists_split (pre m : List α) {i : Int} (hlow : (pre.length : Int) ≤ i)
    (hhigh : i < (pre.length : Int) + m.length) :
    ∃ s x t, m = s ++ x :: t ∧ i = ((pre ++ s).length : Nat) := by
  have hlt : (i - pre.length).toNat < m.length := by omega
  refine ⟨m.take (i - pre.length).toNat, m[(i - pre.length).toNat],
    m.drop ((i - pre.length).toNat + 1), ?_, ?_⟩
  · rw [← drop_eq_getElem_cons hlt, take_append_drop]
  · rw [length_append, length_take]
    omega

theorem load_range (pre m suf : List α) {i : Int} (hlow : (pre.length : Int) ≤ i)
    (hhigh : i < (pre.length : Int) + m.length) : ∃ x, load (pre ++ (m ++ suf)) i = .ok x := by
  rcases exists_split pre m hlow hhigh with ⟨s, x, t, rfl, hi⟩
  refine ⟨x, ?_⟩
  rw [append_assoc, ← append_assoc]
  exact load_mid hi

/-- A swap with the last element of the range. -/
theorem swap_last (pre m suf : List α) {i high : Int} (hlow : (pre.length : Int) ≤ i)
    (hi : i ≤ high) (hhigh : high + 1 = pre.length + m.length) :
    ∃ m', swap (pre ++ (m ++ suf)) i high = .ok (pre ++ (m' ++ suf)) ∧ m'.Perm m := by
  rcases exists_split pre m hlow (by omega) with ⟨s, x, t, rfl, hs⟩
  simp only [length_append, length_cons] at hs hhigh
  rcases eq_nil_or_concat t with rfl | ⟨t', y, rfl⟩
  · have heq : high = i := by
      simp only [length_nil] at hhigh
      omega
    refine ⟨s ++ [x], ?_, List.Perm.refl _⟩
    rw [heq, append_assoc, ← append_assoc]
    exact swap_same (by rw [hs, length_append])
  · refine ⟨s ++ y :: (t' ++ [x]), ?_, ?_⟩
    · have hassoc : ∀ z z' : α, pre ++ (s ++ z :: (t' ++ [z']) ++ suf) =
          (pre ++ s) ++ z :: (t' ++ z' :: suf) := by
        intro z z'
        simp only [append_assoc, cons_append, nil_append]
      rw [concat_eq_append, hassoc, hassoc]
      refine swap_apart (by rw [hs, length_append]) ?_
      rw [concat_eq_append, length_append, length_singleton] at hhigh
      omega
    · rw [concat_eq_append]
      refine List.Perm.append_left s ?_
      calc
        (y :: (t' ++ [x])).Perm (y :: x :: t') := (perm_append_singleton x t').cons y
        _ |>.Perm (x :: y :: t') := List.Perm.swap x y t'
        _ |>.Perm (x :: (t' ++ [y])) := (perm_append_singleton y t').symm.cons x

end

/-! ## Insertion sort -/

section

variable [Comparable α] {pre suf : List α} {curr : α} {low high : Int}

theorem shiftLoop_spec (curr : α) (hlow : low = pre.length) (p : List α) :
    ∀ (y : α) (suf : List α) {j : Int},
    j = low + p.length - 1 → ∃ p₁ p₂ y', p = p₁ ++ p₂ ∧
      shiftLoop low curr j (pre ++ (p ++ y :: suf)) =
        .ok (low + p₁.length - 1, pre ++ (p₁ ++ y' :: (p₂ ++ suf))) ∧
      (∀ x ∈ p₂, ¬ le x curr = true) ∧ ∀ x ∈ p₁.getLast?, le x curr = true := by
  induction p using List.reverseRecOn with
  | nil =>
    intro y suf j hj
    refine ⟨[], [], y, rfl, ?_, fun _ hx => absurd hx not_mem_nil, fun _ hx => nomatch hx⟩
    rw [shiftLoop, if_neg (by rw [hj, length_nil]; omega), hj]
    rfl
  | append_singleton p x ih =>
    intro y suf j hj
    rw [length_append, length_singleton] at hj
    have hx : j = ((pre ++ p).length : Nat) := by
      rw [length_append, hj]
      omega
    have hy : j + 1 = ((pre ++ p ++ [x]).length : Nat) := by
      rw [length_append, length_singleton, hx]
      rfl
    have harr : pre ++ (p ++ [x] ++ y :: suf) = (pre ++ p) ++ x :: (y :: suf) := by
      simp only [append_assoc, cons_append, nil_append]
    rw [shiftLoop, if_pos (by omega), harr, load_mid hx, Lib.ok_bind]
    by_cases hlt : compareTo x curr > 0
    · have harr' : (pre ++ p) ++ x :: (y :: suf) = (pre ++ p ++ [x]) ++ y :: suf := by
        simp only [append_assoc, cons_append, nil_append]
      rw [if_pos hlt, harr', store_mid hy, Lib.ok_bind]
      have hj' : j - 1 = low + p.length - 1 := by omega
      rcases ih x (x :: suf) hj' with
        ⟨p₁, p₂, y', rfl, hrun, habove, hbelow⟩
      refine ⟨p₁, p₂ ++ [x], y', by rw [append_assoc], ?_, ?_, hbelow⟩
      · have harr'' : pre ++ (p₁ ++ p₂) ++ [x] ++ x :: suf = pre ++ (p₁ ++ p₂ ++ x :: x :: suf) := by
          simp only [append_assoc, cons_append, nil_append]
        rw [harr'', hrun, append_assoc, singleton_append]
      · intro z hz
        rcases mem_append.mp hz with hz | hz
        · exact habove z hz
        · rw [mem_singleton.mp hz]
          exact not_le_iff.mpr hlt
    · rw [if_neg hlt]
      refine ⟨p ++ [x], [], y, (append_nil _).symm, ?_, ?_, ?_⟩
      · rw [length_append, length_singleton, nil_append, hj, harr]
        rfl
      · exact fun _ hz => absurd hz not_mem_nil
      · intro z hz
        rw [getLast?_concat] at hz
        rw [← Option.some.inj hz]
        exact le_iff.mpr (not_lt.mp hlt)

/-- The elements up to the last one are below it. -/
theorem le_of_getLast {p : List α} (hsorted : p.Pairwise fun x y => le x y = true)
    (hlast : ∀ x ∈ p.getLast?, le x curr = true) : ∀ x ∈ p, le x curr = true := by
  intro x hx
  rcases eq_nil_or_concat p with rfl | ⟨p', z, rfl⟩
  · exact absurd hx not_mem_nil
  · rw [concat_eq_append] at hsorted hlast hx
    have hz : le z curr = true := hlast z (getLast?_concat ..)
    rcases mem_append.mp hx with hx | hx
    · have hxz := (pairwise_append.mp hsorted).2.2 x hx z (mem_singleton_self z)
      exact le_trans hxz hz
    · rw [mem_singleton.mp hx]
      exact hz

/-- One turn of the outer loop. -/
theorem insert_step (curr : α) (suf : List α) (hlow : low = pre.length) {s : List α} {i : Int} (hi : i = low + s.length)
    (hsorted : s.Pairwise fun x y => le x y = true) :
    ∃ s', (shiftLoop low curr (i - 1) (pre ++ (s ++ curr :: suf)) >>= fun r =>
      store r.2 (r.1 + 1) curr) = .ok (pre ++ (s' ++ suf)) ∧
      Lib.StableSortOf le (s ++ [curr]) s' := by
  have hj : i - 1 = low + s.length - 1 := by omega
  rcases shiftLoop_spec curr hlow s curr suf hj with
    ⟨p₁, p₂, y', rfl, hrun, habove, hbelow⟩
  refine ⟨p₁ ++ curr :: p₂, ?_, ?_⟩
  · have hslot : low + p₁.length - 1 + 1 = ((pre ++ p₁).length : Nat) := by
      rw [length_append, hlow]
      omega
    rw [hrun, Lib.ok_bind, ← append_assoc, store_mid hslot]
    simp only [append_assoc, cons_append]
  · have hbelow' := le_of_getLast (pairwise_append.mp hsorted).1 hbelow
    exact Lib.stableSortOf_insert compares_le hsorted hbelow' habove

theorem insertLoop_spec (hlow : low = pre.length) (t : List α) : ∀ {s : List α} {i : Int},
    i = low + s.length → high + 1 = i + t.length → s.Pairwise (fun x y => le x y = true) →
    ∃ s', insertLoop low high i (pre ++ (s ++ (t ++ suf))) = .ok (pre ++ (s' ++ suf)) ∧
      Lib.StableSortOf le (s ++ t) s' := by
  induction t with
  | nil =>
    intro s i hi hhigh hsorted
    rw [length_nil] at hhigh
    rw [insertLoop, if_neg (by omega), append_nil]
    exact ⟨s, rfl, Lib.stableSortOf_self hsorted⟩
  | cons curr t ih =>
    intro s i hi hhigh hsorted
    rw [length_cons] at hhigh
    have hcurr : i = ((pre ++ s).length : Nat) := by
      rw [length_append, hi, hlow]
      omega
    rcases insert_step curr (t ++ suf) hlow hi hsorted with ⟨s₁, hstep, hs₁⟩
    have hlen := hs₁.perm.length_eq
    rw [length_append, length_singleton] at hlen
    rcases ih (s := s₁) (i := i + 1) (by omega) (by omega) hs₁.sorted with ⟨s', hrun, hs'⟩
    refine ⟨s', ?_, ?_⟩
    · rcases Lib.bind_eq_ok.mp hstep with ⟨⟨j, a⟩, hr, hstore⟩
      have hload : load (pre ++ (s ++ (curr :: t ++ suf))) i = .ok curr := by
        rw [← append_assoc]
        exact load_mid hcurr
      rw [insertLoop, if_pos (by omega), hload, Lib.ok_bind, cons_append, hr, Lib.ok_bind]
      dsimp only at hstore ⊢
      rw [hstore, Lib.ok_bind]
      exact hrun
    · have hall := hs₁.append_trans hs'
      rw [append_assoc] at hall
      exact hall

theorem insertionSort_spec (m suf : List α) (hlow : low = pre.length) (hhigh : high + 1 = low + m.length) :
    ∃ s, insertionSort (pre ++ (m ++ suf)) low high = .ok (pre ++ (s ++ suf)) ∧
      Lib.StableSortOf le m s := by
  cases m with
  | nil =>
    rw [length_nil] at hhigh
    rw [insertionSort, insertLoop, if_neg (by omega)]
    exact ⟨[], rfl, Lib.stableSortOf_self List.Pairwise.nil⟩
  | cons x t =>
    rw [length_cons] at hhigh
    have hone : low + 1 = low + ([x] : List α).length := rfl
    exact insertLoop_spec hlow t (s := [x]) hone (by omega) (pairwise_singleton _ x)

/-! ## Partitions -/

/-- The range is split at the index that is returned. -/
structure Splits (m : List α) (S : List α) (x : α) (H : List α) : Prop where
  perm : (S ++ x :: H).Perm m
  below : ∀ y ∈ S, le y x = true
  above : ∀ y ∈ H, le x y = true

/-- On every range with elements. -/
def Partitionable.Splitting (part : Partitionable α) : Prop :=
  ∀ call pre m suf (low high : Int), m ≠ [] → low = (List.length pre : Nat) →
    high + 1 = low + m.length → ∃ S x H,
      part.partition call (pre ++ (m ++ suf)) low high =
        .ok (low + S.length, pre ++ ((S ++ x :: H) ++ suf)) ∧ Splits m S x H

variable {pivot : α}

/-- `S` is what is smaller so far, `G` what is not, `xs` the rest in front of the pivot. -/
theorem partitionLoop_spec (pre suf : List α) (pivot : α) (xs : List α) : ∀ {S G : List α} {i j : Int},
    i = ((pre ++ S).length : Nat) → j = i + G.length → high = j + xs.length →
    (∀ y ∈ S, compareTo y pivot < 0) → (∀ y ∈ G, ¬ compareTo y pivot < 0) →
    ∃ S' G', partitionLoop pivot high i j (pre ++ (S ++ (G ++ (xs ++ pivot :: suf)))) =
        .ok (((pre ++ S').length : Nat), pre ++ (S' ++ (G' ++ pivot :: suf))) ∧
      (S' ++ G').Perm (S ++ (G ++ xs)) ∧ (∀ y ∈ S', compareTo y pivot < 0) ∧
      ∀ y ∈ G', ¬ compareTo y pivot < 0 := by
  induction xs with
  | nil =>
    intro S G i j hi hj hhigh hS hG
    rw [length_nil] at hhigh
    have hfront : j = ((pre ++ S ++ G).length : Nat) := by
      rw [length_append, Int.natCast_add, hj, hi]
    have hload : load (pre ++ (S ++ (G ++ ([] ++ pivot :: suf)))) j = .ok pivot := by
      rw [← append_assoc, nil_append, ← append_assoc]
      exact load_mid hfront
    have hself : ¬ compareTo pivot pivot < 0 := by
      rw [compareTo_self]
      exact Int.lt_irrefl 0
    rw [partitionLoop, if_pos (by omega), hload, Lib.ok_bind, if_neg hself, partitionLoop,
      if_neg (by omega), append_nil, nil_append]
    refine ⟨S, G, ?_, List.Perm.refl _, hS, hG⟩
    rw [hi]
    rfl
  | cons x xs ih =>
    intro S G i j hi hj hhigh hS hG
    rw [length_cons] at hhigh
    have hfront : j = ((pre ++ S ++ G).length : Nat) := by
      rw [length_append, Int.natCast_add, hj, hi]
    have hload : load (pre ++ (S ++ (G ++ (x :: xs ++ pivot :: suf)))) j = .ok x := by
      rw [← append_assoc, ← append_assoc]
      exact load_mid hfront
    rw [partitionLoop, if_pos (by omega), hload, Lib.ok_bind]
    by_cases hlt : compareTo x pivot < 0
    · rw [if_pos hlt]
      have hS' : ∀ y ∈ S ++ [x], compareTo y pivot < 0 := by
        intro y hy
        rcases mem_append.mp hy with hy | hy
        · exact hS y hy
        · rw [mem_singleton.mp hy]
          exact hlt
      have hi' : i + 1 = ((pre ++ (S ++ [x])).length : Nat) := by
        rw [← append_assoc, length_append, length_singleton, hi]
        rfl
      cases G with
      | nil =>
        -- nothing between: the element stays
        have hij : j = i := by
          rw [hj]
          exact Int.add_zero i
        have hswap : swap (pre ++ (S ++ ([] ++ (x :: xs ++ pivot :: suf)))) i j =
            .ok (pre ++ ((S ++ [x]) ++ ([] ++ (xs ++ pivot :: suf)))) := by
          rw [hij, ← append_assoc]
          refine (swap_same hi).trans ?_
          simp only [append_assoc, cons_append, nil_append]
          rfl
        rw [hswap, Lib.ok_bind]
        rcases ih hi' (j := j + 1) (G := []) (by rw [hij]; exact (Int.add_zero _).symm) (by omega) hS' hG with
          ⟨S', G', hrun, hperm, hSG⟩
        refine ⟨S', G', hrun, hperm.trans ?_, hSG⟩
        rw [append_assoc]
        exact List.Perm.refl _
      | cons g G =>
        rw [length_cons] at hj
        have hswap : swap (pre ++ (S ++ (g :: G ++ (x :: xs ++ pivot :: suf)))) i j =
            .ok (pre ++ ((S ++ [x]) ++ ((G ++ [g]) ++ (xs ++ pivot :: suf)))) := by
          rw [← append_assoc]
          refine (swap_apart hi (by omega)).trans ?_
          simp only [append_assoc, cons_append, nil_append]
          rfl
        rw [hswap, Lib.ok_bind]
        have hG' : ∀ y ∈ G ++ [g], ¬ compareTo y pivot < 0 := fun y hy =>
          hG y ((perm_append_singleton g G).mem_iff.mp hy)
        have hj' : j + 1 = i + 1 + (G ++ [g]).length := by
          rw [length_append, length_singleton]
          omega
        rcases ih hi' hj' (by omega) hS' hG' with ⟨S', G', hrun, hperm, hSG⟩
        refine ⟨S', G', hrun, hperm.trans ?_, hSG⟩
        rw [append_assoc]
        refine List.Perm.append_left S ?_
        calc
          (x :: ((G ++ [g]) ++ xs)).Perm (x :: ((g :: G) ++ xs)) :=
            ((perm_append_singleton g G).append_right xs).cons x
          _ |>.Perm ((g :: G) ++ x :: xs) := perm_middle.symm
    · rw [if_neg hlt]
      have hG' : ∀ y ∈ G ++ [x], ¬ compareTo y pivot < 0 := by
        intro y hy
        rcases mem_append.mp hy with hy | hy
        · exact hG y hy
        · rw [mem_singleton.mp hy]
          exact hlt
      have hj' : j + 1 = i + (G ++ [x]).length := by
        rw [length_append, length_singleton]
        omega
      rcases ih hi hj' (by omega) hS hG' with ⟨S', G', hrun, hperm, hSG⟩
      have harr : G ++ (x :: xs ++ pivot :: suf) = (G ++ [x]) ++ (xs ++ pivot :: suf) := by
        simp only [append_assoc, cons_append, nil_append]
      refine ⟨S', G', ?_, hperm.trans ?_, hSG⟩
      · rw [harr]
        exact hrun
      · rw [append_assoc]
        exact List.Perm.refl _

theorem SimplePivot.partition_spec {m : List α} (suf : List α) (hm : m ≠ []) (hlow : low = pre.length)
    (hhigh : high + 1 = low + m.length) : ∃ S x H,
      SimplePivot.partition (pre ++ (m ++ suf)) low high =
        .ok (low + S.length, pre ++ ((S ++ x :: H) ++ suf)) ∧ Splits m S x H := by
  rcases eq_nil_or_concat m with rfl | ⟨xs, pivot, rfl⟩
  · exact absurd rfl hm
  rw [concat_eq_append] at hhigh ⊢
  rw [length_append, length_singleton] at hhigh
  have harr : pre ++ (xs ++ [pivot] ++ suf) = pre ++ ([] ++ ([] ++ (xs ++ pivot :: suf))) := by
    simp only [append_assoc, cons_append, nil_append]
  have hload : load (pre ++ ([] ++ ([] ++ (xs ++ pivot :: suf)))) high = .ok pivot := by
    rw [nil_append, nil_append, ← append_assoc]
    refine load_mid ?_
    rw [length_append]
    omega
  have hnone : ∀ P : α → Prop, ∀ y ∈ ([] : List α), P y := fun _ _ hy => absurd hy not_mem_nil
  have hend : high = low + xs.length := by omega
  rcases partitionLoop_spec pre suf pivot xs
    (S := []) (G := []) (i := low) (j := low) (by rw [append_nil, hlow])
    (Int.add_zero low).symm hend (hnone _) (hnone _) with ⟨S, G, hrun, hperm, hS, hG⟩
  unfold SimplePivot.partition
  rw [if_neg (by omega), harr, hload, Lib.ok_bind, hrun, Lib.ok_bind]
  have hbelow : ∀ y ∈ S, le y pivot = true := fun y hy => le_iff.mpr (le_of_lt (hS y hy))
  have habove : ∀ y ∈ G, le pivot y = true := by
    intro y hy
    refine le_iff.mpr (not_lt.mp fun hpos => hG y hy ?_)
    exact pos_iff.mp hpos
  have hlen := hperm.length_eq
  rw [nil_append, nil_append, length_append] at hlen
  have hdiv : (((pre ++ S).length : Nat) : Int) = low + S.length := by
    rw [length_append, hlow]
    rfl
  -- the pivot goes to the border
  cases G with
  | nil =>
    have hsame : high = ((pre ++ S).length : Nat) := by
      rw [length_nil] at hlen
      omega
    have hswap : swap (pre ++ (S ++ ([] ++ pivot :: suf))) ((pre ++ S).length : Nat) high =
        .ok (pre ++ (S ++ pivot :: suf)) := by
      rw [← hsame, nil_append, ← append_assoc]
      exact swap_same hsame
    refine ⟨S, pivot, [], ?_, ?_, hbelow, habove⟩
    · dsimp only
      rw [hswap, hdiv, append_assoc]
      rfl
    · rw [append_nil] at hperm
      exact hperm.append_right [pivot]
  | cons g G =>
    rw [length_cons] at hlen
    have hswap : swap (pre ++ (S ++ (g :: G ++ pivot :: suf))) ((pre ++ S).length : Nat) high =
        .ok (pre ++ (S ++ pivot :: (G ++ g :: suf))) := by
      rw [← append_assoc, cons_append, ← append_assoc pre S (pivot :: _)]
      refine swap_apart rfl ?_
      rw [hdiv]
      omega
    refine ⟨S, pivot, G ++ [g], ?_, ?_, hbelow, ?_⟩
    · dsimp only
      rw [hswap, hdiv]
      simp only [append_assoc, cons_append, nil_append]
      rfl
    · calc
        (S ++ pivot :: (G ++ [g])).Perm (S ++ pivot :: (g :: G)) :=
          ((perm_append_singleton g G).cons pivot).append_left S
        _ |>.Perm (S ++ (g :: G ++ [pivot])) :=
          (perm_append_singleton pivot (g :: G)).symm.append_left S
        _ |>.Perm (xs ++ [pivot]) := by
          rw [← append_assoc]
          exact hperm.append_right [pivot]
    · intro y hy
      exact habove y ((perm_append_singleton g G).mem_iff.mp hy)

theorem splitting_simplePivot : (SimplePivot : Partitionable α).Splitting :=
  fun _ _ _ _ _ _ hm hlow hhigh => SimplePivot.partition_spec _ hm hlow hhigh

/-- Another element may be moved to the end first. -/
theorem swap_partition_spec {m : List α} {piv : Int} (suf : List α) (hm : m ≠ []) (hlow : low = pre.length)
    (hhigh : high + 1 = low + m.length) (hpiv : low ≤ piv ∧ piv ≤ high) : ∃ S x H,
      (swap (pre ++ (m ++ suf)) piv high >>= fun a => SimplePivot.partition a low high) =
        .ok (low + S.length, pre ++ ((S ++ x :: H) ++ suf)) ∧ Splits m S x H := by
  rcases swap_last pre m suf (by omega) hpiv.2 (by omega) with
    ⟨m', hswap, hperm⟩
  have hm' : m' ≠ [] := by
    rintro rfl
    exact hm hperm.nil_eq.symm
  rcases SimplePivot.partition_spec suf hm' hlow (by rw [hperm.length_eq]; exact hhigh) with
    ⟨S, x, H, hrun, hsplits⟩
  refine ⟨S, x, H, ?_, hsplits.perm.trans hperm, hsplits.below, hsplits.above⟩
  rw [hswap]
  exact hrun

theorem findMid_spec {m : List α} {med : Int} (suf : List α) (hlow : low = pre.length)
    (hhigh : high + 1 = low + m.length) (hmed : low ≤ med ∧ med ≤ high) :
    ∃ piv, MedOfThree.findMid (pre ++ (m ++ suf)) low med high = .ok piv ∧
      low ≤ piv ∧ piv ≤ high := by
  have hload : ∀ i : Int, low ≤ i → i ≤ high → ∃ x, load (pre ++ (m ++ suf)) i = .ok x :=
    fun i hi hi' => load_range pre m suf (by omega) (by omega)
  rcases hload low (Int.le_refl low) (by omega) with ⟨l, hl⟩
  rcases hload med hmed.1 hmed.2 with ⟨k, hk⟩
  rcases hload high (by omega) (Int.le_refl high) with ⟨h, hh⟩
  unfold MedOfThree.findMid
  rw [hl, Lib.ok_bind, hk, Lib.ok_bind, hh, Lib.ok_bind]
  refine ⟨_, rfl, ?_⟩
  split
  case isTrue => exact ⟨Int.le_refl low, by omega⟩
  case isFalse =>
    split
    case isTrue => exact hmed
    case isFalse => exact ⟨by omega, Int.le_refl high⟩

theorem splitting_medOfThree : (MedOfThree : Partitionable α).Splitting := by
  intro _ pre m suf low high hm hlow hhigh
  have hpos := length_pos_iff.mpr hm
  have hmed : low ≤ (high + low).tdiv 2 ∧ (high + low).tdiv 2 ≤ high := by
    rw [Int.tdiv_eq_ediv_of_nonneg (by omega)]
    omega
  rcases findMid_spec suf hlow hhigh hmed with ⟨piv, hfind, hpiv⟩
  show ∃ S x H, MedOfThree.partition (pre ++ (m ++ suf)) low high = _ ∧ _
  unfold MedOfThree.partition
  rw [if_neg (by omega)]
  dsimp only
  rw [hfind]
  exact swap_partition_spec suf hm hlow hhigh hpiv

theorem splitting_randomPivot (r : Random) : (RandomPivot r : Partitionable α).Splitting := by
  intro call pre m suf low high hm hlow hhigh
  have hpos := length_pos_iff.mpr hm
  have hnonneg := r.nonneg call (high - low + 1) (by omega)
  have hlt := r.lt call (high - low + 1) (by omega)
  show ∃ S x H, RandomPivot.partition r call (pre ++ (m ++ suf)) low high = _ ∧ _
  unfold RandomPivot.partition
  rw [if_neg (by omega)]
  exact swap_partition_spec suf hm hlow hhigh ⟨by omega, by omega⟩

/-! ## Quick sort -/

theorem QuickSort.quicksort_spec {s : QuickSort α} (hpart : s.partAlgo.Splitting) (fuel : Nat) :
    ∀ (pre m suf : List α) {low high : Int} (call : Nat), m.length < fuel →
      low = pre.length → high + 1 = low + m.length → ∃ call' t,
        s.quicksort fuel call (pre ++ (m ++ suf)) low high = .ok (call', pre ++ (t ++ suf)) ∧
        Lib.SortOf le m t := by
  induction fuel with
  | zero => exact fun _ _ _ _ _ _ hfuel => absurd hfuel (Nat.not_lt_zero _)
  | succ fuel ih =>
    intro pre m suf low high call hfuel hlow hhigh
    rw [QuickSort.quicksort]
    by_cases hmin : high - low + 1 ≤ s.MIN_SIZE
    · rcases insertionSort_spec m suf hlow hhigh with ⟨t, hrun, ht⟩
      rw [if_pos hmin, hrun]
      exact ⟨call, t, rfl, ht.toSortOf⟩
    rw [if_neg hmin]
    by_cases hlt : low < high
    · have hm : m ≠ [] := by
        rintro rfl
        rw [length_nil] at hhigh
        omega
      rcases hpart call pre m suf low high hm hlow hhigh with ⟨S, x, H, hrun, hsplits⟩
      have hlen := hsplits.perm.length_eq
      rw [length_append, length_cons] at hlen
      rw [if_pos hlt, hrun, Lib.ok_bind]
      dsimp only
      -- the left part, with the pivot and the right part behind it
      have hdiv : low + S.length - 1 + 1 = low + S.length := by omega
      rcases ih pre S (x :: H ++ suf) (call + 1) (by omega) hlow hdiv with ⟨call', t, hleft, ht⟩
      have hmid : low + S.length + 1 = ((pre ++ (t ++ [x])).length : Nat) := by
        have hlen' := ht.perm.length_eq
        rw [length_append, length_append, length_singleton]
        omega
      have hend : high + 1 = low + S.length + 1 + H.length := by omega
      rcases ih (pre ++ (t ++ [x])) H suf call' (by omega) hmid hend with ⟨call'', t', hright, ht'⟩
      refine ⟨call'', t ++ x :: t', ?_, ?_⟩
      · have harr : pre ++ (S ++ x :: H ++ suf) = pre ++ (S ++ (x :: H ++ suf)) := by
          rw [append_assoc]
        have harr' : ∀ H' : List α, pre ++ (t ++ (x :: H' ++ suf)) =
            pre ++ (t ++ [x]) ++ (H' ++ suf) := by
          intro H'
          simp only [append_assoc, cons_append, nil_append]
        rw [harr, hleft, Lib.ok_bind]
        dsimp only
        rw [harr', hright, ← harr', append_assoc]
      · exact (ht.pivot compares_le ht' hsplits.below hsplits.above).of_perm hsplits.perm
    · rw [if_neg hlt]
      refine ⟨call, m, rfl, ?_, List.Perm.refl m⟩
      rcases m with - | ⟨x, - | ⟨y, m⟩⟩
      · exact List.Pairwise.nil
      · exact pairwise_singleton _ x
      · rw [length_cons, length_cons] at hhigh
        omega

/-! ## Merge sort -/

namespace MergeSort

omit [Comparable α] in
theorem copyLoop_spec (m : List α) : ∀ (pre : List α) {i start n : Int},
    start + i = pre.length → n = i + m.length → copyLoop (pre ++ (m ++ suf)) start n i = .ok m := by
  induction m with
  | nil =>
    intro pre i start n _ hn
    rw [length_nil] at hn
    rw [copyLoop, if_neg (by omega)]
    rfl
  | cons x m ih =>
    intro pre i start n hi hn
    rw [length_cons] at hn
    have hi' : start + (i + 1) = ((pre ++ [x]).length : Nat) := by
      rw [length_append, length_singleton]
      omega
    have hn' : n = i + 1 + m.length := by omega
    have hrest := ih (pre ++ [x]) hi' hn'
    rw [append_assoc, singleton_append] at hrest
    rw [copyLoop, if_pos (by omega), cons_append, load_mid hi, Lib.ok_bind, hrest]
    rfl

omit [Comparable α] in
theorem copy_spec (m : List α) {start n : Int} (hstart : start = pre.length) (hn : n = m.length) :
    copy (pre ++ (m ++ suf)) start n = .ok m := by
  unfold copy
  rw [if_neg (by omega)]
  exact copyLoop_spec m pre (by omega) (by omega)

omit [Comparable α] in
/-- The room `g` is filled with what is left of the side. -/
theorem restLoop_spec (l : List α) : ∀ (l₀ pre g : List α) {n i k : Int},
    i = l₀.length → n = i + l.length → k = pre.length → g.length = l.length →
    restLoop (l₀ ++ l) n i k (pre ++ (g ++ suf)) = .ok (k + l.length, pre ++ (l ++ suf)) := by
  induction l with
  | nil =>
    intro l₀ pre g n i k _ hn _ hg
    rw [length_nil] at hn
    rw [restLoop, if_neg (by omega), eq_nil_of_length_eq_zero hg, length_nil]
    exact congrArg (fun j => Except.ok (j, _)) (Int.add_zero k).symm
  | cons x l ih =>
    intro l₀ pre g n i k hi hn hk hg
    rw [length_cons] at hn
    rcases exists_cons_of_length_eq_add_one hg with ⟨y, g, rfl⟩
    have hi' : i + 1 = ((l₀ ++ [x]).length : Nat) := by
      rw [length_append, length_singleton, hi]
      rfl
    have hk' : k + 1 = ((pre ++ [x]).length : Nat) := by
      rw [length_append, length_singleton, hk]
      rfl
    have hn' : n = i + 1 + l.length := by omega
    have hrest := ih (l₀ ++ [x]) (pre ++ [x]) g hi' hn' hk' (Nat.succ.inj hg)
    simp only [append_assoc, singleton_append] at hrest
    rw [restLoop, if_pos (by omega), load_mid hi, Lib.ok_bind, cons_append, store_mid hk,
      Lib.ok_bind, hrest, length_cons, cons_append]
    refine congrArg (fun j => Except.ok (j, _)) ?_
    omega

/-- The three loops of `merge`. -/
def mergeLoops (left right : List α) (n1 n2 : Int) (i j k : Int) (a : List α) :
    Except Exc (List α) := do
  let (i, j, k, a) ← mergeLoop left right n1 n2 i j k a
  let (k, a) ← restLoop left n1 i k a
  let (_, a) ← restLoop right n2 j k a
  return a

/-- The room `g` is filled with the merge of what is left of the two sides. -/
theorem mergeLoops_spec (l r : List α) : ∀ (l₀ r₀ pre g : List α) {n1 n2 i j k : Int},
    i = l₀.length → n1 = i + l.length → j = r₀.length → n2 = j + r.length → k = pre.length →
    g.length = l.length + r.length →
    mergeLoops (l₀ ++ l) (r₀ ++ r) n1 n2 i j k (pre ++ (g ++ suf)) =
      .ok (pre ++ (List.merge l r le ++ suf)) := by
  induction l generalizing r with
  | nil =>
    intro l₀ r₀ pre g n1 n2 i j k hi hn1 hj hn2 hk hg
    rw [length_nil] at hn1
    rw [length_nil, Nat.zero_add] at hg
    unfold mergeLoops
    rw [mergeLoop, if_neg (by omega)]
    show (restLoop _ n1 i k _ >>= fun r => _) = _
    rw [restLoop, if_neg (by omega), nil_merge]
    show (restLoop _ n2 j k _ >>= fun r => _) = _
    rw [restLoop_spec r r₀ pre g hj hn2 hk hg]
    rfl
  | cons x l ihl =>
    induction r with
    | nil =>
      intro l₀ r₀ pre g n1 n2 i j k hi hn1 hj hn2 hk hg
      rw [length_nil] at hn2
      rw [length_nil, Nat.add_zero] at hg
      unfold mergeLoops
      rw [mergeLoop, if_neg (by omega)]
      show (restLoop _ n1 i k _ >>= fun r => _) = _
      rw [restLoop_spec (x :: l) l₀ pre g hi hn1 hk hg, merge_right]
      show (restLoop _ n2 j _ _ >>= fun r => _) = _
      rw [restLoop, if_neg (by omega)]
      rfl
    | cons y r ihr =>
      intro l₀ r₀ pre g n1 n2 i j k hi hn1 hj hn2 hk hg
      rw [length_cons] at hn1 hn2
      have hg' : g.length = (l.length + (y :: r).length) + 1 := by
        rw [hg, length_cons]
        omega
      rcases exists_cons_of_length_eq_add_one hg' with ⟨z, g, rfl⟩
      rw [length_cons, length_cons] at hg'
      have hk' : ∀ w : α, k + 1 = ((pre ++ [w]).length : Nat) := by
        intro w
        rw [length_append, length_singleton, hk]
        rfl
      -- one round takes one of the two heads
      have hstart : ∀ rest : Int × Int × Int × List α → Except Exc (List α),
          (mergeLoop (l₀ ++ x :: l) (r₀ ++ y :: r) n1 n2 i j k (pre ++ (z :: g ++ suf)) >>= rest) =
          if compareTo x y ≤ 0 then
            mergeLoop (l₀ ++ x :: l) (r₀ ++ y :: r) n1 n2 (i + 1) j (k + 1)
              (pre ++ x :: (g ++ suf)) >>= rest
          else
            mergeLoop (l₀ ++ x :: l) (r₀ ++ y :: r) n1 n2 i (j + 1) (k + 1)
              (pre ++ y :: (g ++ suf)) >>= rest := by
        intro rest
        rw [mergeLoop, if_pos (by omega), load_mid hi, Lib.ok_bind, load_mid hj, Lib.ok_bind,
          cons_append, store_mid hk, store_mid hk]
        split
        case isTrue => rfl
        case isFalse => rfl
      unfold mergeLoops
      rw [hstart]
      by_cases hxy : compareTo x y ≤ 0
      · have hi' : i + 1 = ((l₀ ++ [x]).length : Nat) := by
          rw [length_append, length_singleton, hi]
          rfl
        have hn1' : n1 = i + 1 + l.length := by omega
        have hrun := ihl (y :: r) (l₀ ++ [x]) r₀ (pre ++ [x]) g hi' hn1' hj hn2 (hk' x)
          (by rw [length_cons]; omega)
        simp only [append_assoc, singleton_append] at hrun
        rw [if_pos hxy, cons_merge_cons_pos le l r (le_iff.mpr hxy), cons_append]
        exact hrun
      · have hj' : j + 1 = ((r₀ ++ [y]).length : Nat) := by
          rw [length_append, length_singleton, hj]
          rfl
        have hn2' : n2 = j + 1 + r.length := by omega
        have hrun := ihr l₀ (r₀ ++ [y]) (pre ++ [y]) g hi hn1 hj' hn2' (hk' y)
          (by rw [length_cons]; omega)
        simp only [append_assoc, singleton_append] at hrun
        rw [if_neg hxy, cons_merge_cons_neg le l r (fun h => hxy (le_iff.mp h)),
          cons_append]
        exact hrun

/-- Two parts of the range are merged. -/
theorem merge_spec (l r suf : List α) {low med high : Int} (hlow : low = pre.length)
    (hmed : med + 1 = low + l.length) (hhigh : high = med + r.length) :
    merge (pre ++ (l ++ r ++ suf)) low med high = .ok (pre ++ (List.merge l r le ++ suf)) := by
  have hleft : copy (pre ++ (l ++ r ++ suf)) low (med - low + 1) = .ok l := by
    rw [append_assoc l]
    exact copy_spec l hlow (by omega)
  have hright : copy (pre ++ (l ++ r ++ suf)) (med + 1) (high - med) = .ok r := by
    rw [append_assoc l, ← append_assoc pre]
    refine copy_spec r ?_ (by omega)
    rw [length_append]
    omega
  unfold merge
  dsimp only
  rw [hleft, Lib.ok_bind, hright, Lib.ok_bind]
  exact mergeLoops_spec l r [] [] pre (l ++ r) rfl (by omega) rfl (by omega) hlow length_append

theorem mergeSort_spec (s : MergeSort) (n : Nat) : ∀ (pre m suf : List α) {low high : Nat},
    m.length ≤ n → low = pre.length → m ≠ [] → high + 1 = low + m.length → ∃ t,
      s.mergeSort (pre ++ (m ++ suf)) low high = .ok (pre ++ (t ++ suf)) ∧
      Lib.StableSortOf le m t := by
  induction n with
  | zero =>
    intro pre m suf low high hn _ hm _
    exact absurd (eq_nil_of_length_eq_zero (Nat.le_zero.mp hn)) hm
  | succ n ih =>
    intro pre m suf low high hn hlow hm hhigh
    have hpos := length_pos_iff.mpr hm
    have hlow' : (low : Int) = pre.length := congrArg Nat.cast hlow
    rw [mergeSort]
    -- where the range is cut
    have hcut : ∀ k, ∀ t : List α, t.length = m.length → k = (low + high) / 2 + 1 - low →
        (((low + high) / 2 : Nat) : Int) + 1 = low + (t.take k).length ∧
          (high : Int) = ((low + high) / 2 : Nat) + (t.drop k).length := by
      intro k t ht hk
      rw [length_take, length_drop, ht]
      omega
    split
    case isTrue hmin =>
      have hend : (high : Int) + 1 = low + m.length := by omega
      rcases insertionSort_spec m suf hlow' hend with ⟨t, hrun, ht⟩
      have hk := hcut _ t ht.perm.length_eq rfl
      have hmerge := merge_spec _ _ suf hlow' hk.1 hk.2
      rw [take_append_drop] at hmerge
      rw [hrun, Lib.ok_bind, hmerge]
      refine ⟨_, rfl, ht.trans ?_⟩
      -- the two halves of what is sorted
      have hsorted := ht.sorted
      rw [← take_append_drop ((low + high) / 2 + 1 - low) t] at hsorted
      rcases pairwise_append.mp hsorted with ⟨hl, hr, -⟩
      have hstable := Lib.stableSortOf_merge compares_le (Lib.stableSortOf_self hl)
        (Lib.stableSortOf_self hr)
      rw [take_append_drop] at hstable
      exact hstable
    case isFalse hmin =>
      split
      case isTrue hlt =>
        have hk := hcut _ m rfl rfl
        generalize hl : m.take ((low + high) / 2 + 1 - low) = l at hk
        generalize hr : m.drop ((low + high) / 2 + 1 - low) = r at hk
        have hm' : m = l ++ r := by rw [← hl, ← hr, take_append_drop]
        subst hm'
        rw [length_append] at hn hhigh hpos
        have hlne : l ≠ [] := by
          rintro rfl
          rw [length_nil] at hk
          omega
        have hrne : r ≠ [] := by
          rintro rfl
          rw [length_nil] at hk
          omega
        have hlpos := length_pos_iff.mpr hlne
        have hrpos := length_pos_iff.mpr hrne
        have hend : (low + high) / 2 + 1 = low + l.length := by omega
        rcases ih pre l (r ++ suf) (by omega) hlow hlne hend with ⟨t, hleft, ht⟩
        have hlen := ht.perm.length_eq
        have hmid : (low + high) / 2 + 1 = (pre ++ t).length := by
          rw [length_append]
          omega
        have hend' : high + 1 = (low + high) / 2 + 1 + r.length := by omega
        rcases ih (pre ++ t) r suf (by omega) hmid hrne hend' with ⟨t', hright, ht'⟩
        have hlen' := ht'.perm.length_eq
        refine ⟨List.merge t t' le, ?_, Lib.stableSortOf_merge compares_le ht ht'⟩
        rw [append_assoc l, hleft, Lib.ok_bind, ← append_assoc pre t, hright, Lib.ok_bind,
          append_assoc pre t, ← append_assoc t]
        exact merge_spec t t' suf hlow' (by omega) (by omega)
      case isFalse hlt =>
        refine ⟨m, rfl, Lib.stableSortOf_self ?_⟩
        rcases m with - | ⟨x, - | ⟨y, m⟩⟩
        · exact List.Pairwise.nil
        · exact pairwise_singleton _ x
        · rw [length_cons, length_cons] at hhigh
          omega

end MergeSort

/-! ## All sorters -/

/-- More fuel changes nothing. -/
theorem QuickSort.quicksort_fuel {s : QuickSort α} {fuel fuel' : Nat} (hfuel : fuel ≤ fuel') :
    ∀ {call : Nat} {a : List α} {low high : Int} {res : Nat × List α},
      s.quicksort fuel call a low high = .ok res → s.quicksort fuel' call a low high = .ok res := by
  induction fuel generalizing fuel' with
  | zero =>
    intro call a low high res h
    cases h
  | succ fuel ih =>
    intro call a low high res h
    rcases Nat.exists_eq_succ_of_ne_zero (Nat.ne_of_gt (Nat.lt_of_lt_of_le (Nat.succ_pos fuel) hfuel))
      with ⟨fuel', rfl⟩
    have hle := Nat.le_of_succ_le_succ hfuel
    rw [QuickSort.quicksort] at h ⊢
    split at h
    case isTrue hmin =>
      rw [if_pos hmin]
      exact h
    case isFalse hmin =>
      rw [if_neg hmin]
      split at h
      case isTrue hlt =>
        rw [if_pos hlt]
        rcases Lib.bind_eq_ok.mp h with ⟨⟨div, a₁⟩, hpart, h⟩
        rcases Lib.bind_eq_ok.mp h with ⟨⟨call', a₂⟩, hleft, hright⟩
        rw [hpart, Lib.ok_bind]
        dsimp only
        rw [ih hle hleft, Lib.ok_bind]
        exact ih hle hright
      case isFalse hlt =>
        rw [if_neg hlt]
        exact h

theorem QuickSort.sort_spec {s : QuickSort α} (hpart : s.partAlgo.Splitting) {a : List α} {len : Nat}
    (hlen : len ≤ a.length) : ∃ t, (∀ fuel, len < fuel → s.sort fuel a len = .ok (t ++ a.drop len)) ∧
      Lib.SortOf le (a.take len) t := by
  by_cases hzero : len = 0
  · subst hzero
    refine ⟨[], fun fuel _ => ?_, List.Pairwise.nil, List.Perm.refl []⟩
    unfold QuickSort.sort
    rw [if_neg (by omega), if_neg (by omega)]
    rfl
  · have htake : (a.take len).length = len := length_take_of_le hlen
    have hend : (len : Int) - 1 + 1 = 0 + (a.take len).length := by omega
    rcases QuickSort.quicksort_spec hpart (len + 1) [] (a.take len) (a.drop len) 0 (by omega) rfl
      hend with ⟨call, t, hrun, ht⟩
    refine ⟨t, fun fuel hfuel => ?_, ht⟩
    rw [nil_append, take_append_drop] at hrun
    change s.quicksort (len + 1) 0 a 0 (len - 1) = .ok (call, t ++ a.drop len) at hrun
    unfold QuickSort.sort
    rw [if_pos (by omega), QuickSort.quicksort_fuel hfuel hrun]
    rfl

theorem MergeSort.sort_spec (s : MergeSort) {a : List α} {len : Nat} (hlen : len ≤ a.length) :
    ∃ t, s.sort a len = .ok (t ++ a.drop len) ∧ Lib.StableSortOf le (a.take len) t := by
  by_cases hzero : len = 0
  · subst hzero
    refine ⟨[], ?_, Lib.stableSortOf_self List.Pairwise.nil⟩
    unfold MergeSort.sort
    rw [if_neg (by omega), if_neg (by omega)]
    rfl
  · have htake : (a.take len).length = len := length_take_of_le hlen
    have hne : a.take len ≠ [] := by
      intro hnil
      rw [hnil] at htake
      exact hzero htake.symm
    have hend : ((len : Int) - 1).toNat + 1 = 0 + (a.take len).length := by omega
    rcases MergeSort.mergeSort_spec s len [] (a.take len) (a.drop len) (by omega) rfl hne hend with
      ⟨t, hrun, ht⟩
    rw [nil_append, take_append_drop] at hrun
    change s.mergeSort a 0 ((len : Int) - 1).toNat = .ok (t ++ a.drop len) at hrun
    refine ⟨t, ?_, ht⟩
    unfold MergeSort.sort
    rw [if_pos (by omega), hrun]

/-- Quick sort with each of the pivots and merge sort put the front of an array in order and
leave the rest, for every minimum size; merge sort is stable. -/
theorem sorters_sort (min : Int) {a : List α} {len : Nat} (hlen : len ≤ a.length) :
    (∀ r : Random, ∀ part ∈ [SimplePivot, MedOfThree, RandomPivot r], ∃ t,
      (∀ fuel, len < fuel → (QuickSort.mk part min).sort fuel a len = .ok (t ++ a.drop len)) ∧
        Lib.SortOf le (a.take len) t) ∧
    ∃ t, (MergeSort.mk min).sort a len = .ok (t ++ a.drop len) ∧
      Lib.StableSortOf le (a.take len) t := by
  constructor
  · intro r part hpart
    have hsplitting : part.Splitting := by
      rcases mem_cons.mp hpart with rfl | hpart
      · exact splitting_simplePivot
      rcases mem_cons.mp hpart with rfl | hpart
      · exact splitting_medOfThree
      · rw [mem_singleton.mp hpart]
        exact splitting_randomPivot r
    exact QuickSort.sort_spec hsplitting hlen
  · exact MergeSort.sort_spec _ hlen

end

/-- Pairs, compared by their numbers. -/
instance comparableByNumber : Comparable (Int × Bool) where
  compareTo x y := x.1 - y.1
  antisymm x y := by rw [← Int.sign_neg, Int.neg_sub]
  trans x y z hxy hyz := by omega
  congr x y z h := by rw [Int.sub_eq_zero.mp h]

/-- Two equal pairs stay in their order. -/
theorem sorters_sort_pairs : ∃ t : List (Int × Bool),
    (MergeSort.mk 0).sort [(2, true), (1, true), (1, false), (0, true)] 3 = .ok (t ++ [(0, true)]) ∧
      t.filter (Lib.tied le (1, true)) = [(1, true), (1, false)] := by
  have hlen : 3 ≤ [((2 : Int), true), (1, true), (1, false), (0, true)].length := by decide
  rcases (sorters_sort 0 hlen).2 with ⟨t, hrun, ht⟩
  exact ⟨t, hrun, ht.stable (1, true)⟩

end PittCs.Cs445.Sorters
