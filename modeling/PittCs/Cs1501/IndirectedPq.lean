import Mathlib.Logic.Equiv.Basic
import PittCs.Lib.ArrayHeap

/-!
# Indirected priority queue

`IndirectedPQ.java`: a binary heap of values in an array, with a table that gives
the position of every key. The hash table is modelled as a map, and the entries of
the array behind `heap_length` keep whatever they held. A deep copy is the value.
-/

namespace PittCs.Cs1501

open PittCs.Lib.ArrayHeap Function Option

variable {κ α π : Type*}

/-- `KeyVal_Inter`: the key of a value, and what `compareTo` compares. -/
structure KeyVal (κ α π : Type*) where
  getKey : α → κ
  rank : α → π

/-- The fields of `IndirectedPQ`. -/
structure IndirectedPQ (κ α : Type*) where
  heap : Nat → α
  table : κ → Option Nat
  heap_length : Nat
  arr_length : Nat

namespace IndirectedPQ

/-- `INIT_LEN`. -/
def INIT_LEN : Nat := 10

/-- The constructor. -/
def new [Inhabited α] : IndirectedPQ κ α := ⟨fun _ => default, fun _ => none, 0, INIT_LEN⟩

/-- `contains`. -/
def contains (key : κ) (q : IndirectedPQ κ α) : Bool := (q.table key).isSome

/-- `get`. -/
def get (key : κ) (q : IndirectedPQ κ α) : Option α :=
  match q.table key with
  | none => none
  | some target => if target ≥ q.heap_length then none else some (q.heap target)

/-- `get_min`. -/
def getMin (q : IndirectedPQ κ α) : Option α :=
  if q.heap_length = 0 then none else some (q.heap 0)

/-- `resize`. -/
def resize [Inhabited α] (q : IndirectedPQ κ α) : IndirectedPQ κ α :=
  { q with
    arr_length := 2 * q.arr_length
    heap := fun i => if i < q.heap_length then q.heap i else default }

section Order

variable [DecidableEq κ] [LinearOrder π] (I : KeyVal κ α π)

/-- `compare(x, y) < 0`. -/
def less (q : IndirectedPQ κ α) (x y : Nat) : Bool := I.rank (q.heap x) < I.rank (q.heap y)

/-- `swap`. -/
def swap (x y : Nat) (q : IndirectedPQ κ α) : IndirectedPQ κ α :=
  { q with
    table := Function.update (Function.update q.table (I.getKey (q.heap x)) (some y))
      (I.getKey (q.heap y)) (some x)
    heap := exchange q.heap x y }

/-- The loop of `pull_up`. Integer division rounds towards zero, so the root is its
own parent and the comparison ends the loop there. -/
def pullUpLoop : Nat → IndirectedPQ κ α → Nat → IndirectedPQ κ α
  | 0, q, _ => q
  | fuel + 1, q, child_index =>
    let parent_index := parent child_index
    if q.less I child_index parent_index then
      pullUpLoop fuel (q.swap I parent_index child_index) parent_index
    else q

/-- `pull_up`. -/
def pullUp (q : IndirectedPQ κ α) (child_index : Nat) : IndirectedPQ κ α :=
  pullUpLoop I child_index q child_index

/-- The condition of the loop of `push_down`. -/
def childLess (q : IndirectedPQ κ α) (curr : Nat) : Bool :=
  2 * curr + 1 < q.heap_length &&
    ((2 * curr + 2 < q.heap_length && q.less I (2 * curr + 2) curr) ||
      q.less I (2 * curr + 1) curr)

/-- The child that `push_down` swaps with. -/
def smallestChild (q : IndirectedPQ κ α) (curr : Nat) : Nat :=
  let smallest := if q.less I (2 * curr + 1) curr then 2 * curr + 1 else curr
  if 2 * curr + 2 < q.heap_length && q.less I (2 * curr + 2) smallest then 2 * curr + 2
  else smallest

/-- The loop of `push_down`. -/
def pushDownLoop : Nat → IndirectedPQ κ α → Nat → IndirectedPQ κ α
  | 0, q, _ => q
  | fuel + 1, q, curr =>
    if q.childLess I curr then
      pushDownLoop fuel (q.swap I curr (q.smallestChild I curr)) (q.smallestChild I curr)
    else q

/-- `push_down`. -/
def pushDown (q : IndirectedPQ κ α) (curr : Nat) : IndirectedPQ κ α :=
  pushDownLoop I q.heap_length q curr

/-- `add`. -/
def add [Inhabited α] (target : α) (q : IndirectedPQ κ α) : IndirectedPQ κ α :=
  if q.contains (I.getKey target) then q
  else
    let q := if q.heap_length = q.arr_length then q.resize else q
    let q := { q with
      heap := Function.update q.heap q.heap_length target
      table := Function.update q.table (I.getKey target) (some q.heap_length) }
    let q := q.pullUp I q.heap_length
    { q with heap_length := q.heap_length + 1 }

/-- `remove(int)`. -/
def removeAt (target : Nat) (q : IndirectedPQ κ α) : Option α × IndirectedPQ κ α :=
  if target ≥ q.heap_length then (none, q)
  else
    let target_value := q.heap target
    let q := q.swap I target (q.heap_length - 1)
    let q := { q with heap_length := q.heap_length - 1 }
    (some target_value, q.pushDown I target)

/-- `remove(Key)`. -/
def remove (key : κ) (q : IndirectedPQ κ α) : Option α × IndirectedPQ κ α :=
  match q.table key with
  | none => (none, q)
  | some target_index =>
    let (target_value, q) := q.removeAt I target_index
    (target_value, { q with table := Function.update q.table key none })

/-- `update(int, Value)`. -/
def updateAt (target : Nat) (new_val : α) (q : IndirectedPQ κ α) : IndirectedPQ κ α :=
  if target > q.heap_length then q
  else
    let q := { q with heap := Function.update q.heap target new_val }
    let q := if q.less I target (parent target) then q.pullUp I target else q
    if q.childLess I target then q.pushDown I target else q

/-- `update(Key, Value)`. -/
def update (target : κ) (new_val : α) (q : IndirectedPQ κ α) : IndirectedPQ κ α :=
  match q.table target with
  | none => q
  | some target_index => if I.getKey new_val = target then q.updateAt I target_index new_val else q

/-- The loop of `is_heap`. -/
def isHeapLoop : Nat → IndirectedPQ κ α → Nat → Bool
  | 0, _, _ => true
  | fuel + 1, q, curr =>
    if 2 * curr + 1 < q.heap_length then
      if q.less I (2 * curr + 1) curr then false
      else if 2 * curr + 2 < q.heap_length && q.less I (2 * curr + 2) curr then false
      else isHeapLoop fuel q (curr + 1)
    else true

/-- `is_heap`. -/
def isHeap (q : IndirectedPQ κ α) : Bool := isHeapLoop I q.heap_length q 0

end Order

end IndirectedPQ

/-! ## Swaps -/

section Swaps

variable (I : KeyVal κ α π)

/-- The table gives the position of every key among the first `m` values. -/
def Consistent (m : Nat) (q : IndirectedPQ κ α) : Prop :=
  ∀ k i, q.table k = some i ↔ i < m ∧ I.getKey (q.heap i) = k

/-- The first `l` values are permuted, and the table follows. -/
structure Rearranged (l : Nat) (q q' : IndirectedPQ κ α) : Prop where
  heap_length : q'.heap_length = q.heap_length
  arr_length : q'.arr_length = q.arr_length
  perm : ∃ σ : Equiv.Perm Nat, (∀ i, l ≤ i → σ i = i) ∧ q'.heap = q.heap ∘ σ
  consistent : ∀ m, l ≤ m → Consistent I m q → Consistent I m q'

variable {I} {l m : Nat} {q q' q'' : IndirectedPQ κ α}

namespace Rearranged

theorem refl (l : Nat) (q : IndirectedPQ κ α) : Rearranged I l q q :=
  ⟨rfl, rfl, ⟨Equiv.refl Nat, fun _ _ => rfl, rfl⟩, fun _ _ h => h⟩

theorem trans (h : Rearranged I l q q') (h' : Rearranged I l q' q'') : Rearranged I l q q'' := by
  obtain ⟨σ, hσ, hheap⟩ := h.perm
  obtain ⟨τ, hτ, hheap'⟩ := h'.perm
  refine ⟨h'.heap_length.trans h.heap_length, h'.arr_length.trans h.arr_length,
    ⟨τ.trans σ, fun i hi => ?_, ?_⟩, fun m hm hc => h'.consistent m hm (h.consistent m hm hc)⟩
  · rw [Equiv.trans_apply, hτ i hi, hσ i hi]
  · rw [hheap', hheap]
    rfl

/-- Values behind the permuted ones stay. -/
theorem heap_of_le (h : Rearranged I l q q') {i : Nat} (hi : l ≤ i) : q'.heap i = q.heap i := by
  obtain ⟨σ, hσ, hheap⟩ := h.perm
  rw [hheap, comp_apply, hσ i hi]

/-- The values among the first `m` are the same. -/
theorem exists_heap_eq (h : Rearranged I l q q') (hlm : l ≤ m) (v : α) :
    (∃ i < m, q'.heap i = v) ↔ ∃ i < m, q.heap i = v := by
  obtain ⟨σ, hσ, hheap⟩ := h.perm
  have hlt : ∀ i, i < m ↔ σ i < m := by
    intro i
    by_cases hil : l ≤ i
    · rw [hσ i hil]
    · have hσl : σ i < l := by
        by_contra hge
        have hfix : σ i = i := σ.injective (hσ (σ i) (not_lt.mp hge))
        rw [hfix] at hge
        exact hge (not_le.mp hil)
      exact iff_of_true ((not_le.mp hil).trans_le hlm) (hσl.trans_le hlm)
  constructor
  · rintro ⟨i, hi, rfl⟩
    exact ⟨σ i, (hlt i).mp hi, by rw [hheap]; rfl⟩
  · rintro ⟨i, hi, rfl⟩
    refine ⟨σ.symm i, (hlt _).mpr (by simpa using hi), ?_⟩
    rw [hheap]
    simp

end Rearranged

theorem exchange_eq_comp_swap (h : Nat → α) (x y : Nat) :
    exchange h x y = h ∘ Equiv.swap x y := by
  funext i
  simp only [exchange, comp_apply, Equiv.swap_apply_def]
  split
  · rfl
  · split <;> rfl

variable [DecidableEq κ]

theorem Consistent.swap (h : Consistent I m q) {x y : Nat} (hx : x < m) (hy : y < m) :
    Consistent I m (q.swap I x y) := by
  have htx : q.table (I.getKey (q.heap x)) = some x := (h _ x).mpr ⟨hx, rfl⟩
  have hty : q.table (I.getKey (q.heap y)) = some y := (h _ y).mpr ⟨hy, rfl⟩
  have hlt : ∀ i, i < m ↔ Equiv.swap x y i < m := by
    intro i
    rw [Equiv.swap_apply_def]
    split
    · subst i; exact iff_of_true hx hy
    · split
      · subst i; exact iff_of_true hy hx
      · rfl
  -- the table follows the exchange of the two positions
  have htable : ∀ k i, (q.swap I x y).table k = some i ↔ q.table k = some (Equiv.swap x y i) := by
    intro k i
    have hsymm : ∀ j, j = Equiv.swap x y i ↔ Equiv.swap x y j = i := fun j => by
      rw [← Equiv.symm_apply_eq, Equiv.symm_swap]
    simp only [IndirectedPQ.swap]
    by_cases hky : k = I.getKey (q.heap y)
    · rw [hky, update_self, hty, some_inj, some_inj, hsymm,
        Equiv.swap_apply_right]
    · rw [update_of_ne hky]
      by_cases hkx : k = I.getKey (q.heap x)
      · rw [hkx, update_self, htx, some_inj, some_inj, hsymm,
          Equiv.swap_apply_left]
      · rw [update_of_ne hkx]
        cases htk : q.table k with
        | none => simp
        | some j =>
          have hj := (h k j).mp htk
          have hjx : j ≠ x := fun he => hkx (he ▸ hj.2.symm)
          have hjy : j ≠ y := fun he => hky (he ▸ hj.2.symm)
          rw [some_inj, some_inj, hsymm, Equiv.swap_apply_of_ne_of_ne hjx hjy]
  intro k i
  rw [htable, h k, ← hlt]
  simp only [IndirectedPQ.swap, exchange_eq_comp_swap, comp_apply]

theorem rearranged_swap {x y : Nat} (hx : x < l) (hy : y < l) :
    Rearranged I l q (q.swap I x y) := by
  refine ⟨rfl, rfl, ⟨Equiv.swap x y, fun i hi => ?_, exchange_eq_comp_swap q.heap x y⟩, ?_⟩
  · exact Equiv.swap_apply_of_ne_of_ne (hx.trans_le hi).ne' (hy.trans_le hi).ne'
  · exact fun m hm hc => hc.swap (hx.trans_le hm) (hy.trans_le hm)

end Swaps

/-! ## Sifting -/

section Sifting

variable [DecidableEq κ] [LinearOrder π] {I : KeyVal κ α π} {l : Nat} {q : IndirectedPQ κ α}

omit [DecidableEq κ] in
theorem less_iff {x y : Nat} : q.less I x y = true ↔ I.rank (q.heap x) < I.rank (q.heap y) := by
  simp [IndirectedPQ.less]

omit [LinearOrder π] in
theorem rank_swap (x y : Nat) :
    I.rank ∘ (q.swap I x y).heap = exchange (I.rank ∘ q.heap) x y :=
  comp_exchange q.heap I.rank x y

theorem pullUpLoop_spec (fuel c : Nat) (hc : c < l) (hfuel : c ≤ fuel)
    (hup : UpTo l (I.rank ∘ q.heap) c) :
    Rearranged I l q (q.pullUpLoop I fuel c) ∧
      IsHeap l (I.rank ∘ (q.pullUpLoop I fuel c).heap) := by
  induction fuel generalizing q c with
  | zero =>
    -- the root is not smaller than itself
    obtain rfl : c = 0 := Nat.le_zero.mp hfuel
    exact ⟨.refl l q, hup.isHeap (lt_irrefl _)⟩
  | succ fuel ih =>
    unfold IndirectedPQ.pullUpLoop
    dsimp only
    split
    case isTrue hlt =>
      have hlt := less_iff.mp hlt
      have hpos : 0 < c := by
        rcases Nat.eq_zero_or_pos c with rfl | hpos
        · exact absurd hlt (lt_irrefl _)
        · exact hpos
      have hpc := parent_lt hpos
      have hnext : UpTo l (I.rank ∘ (q.swap I (parent c) c).heap) (parent c) := by
        rw [rank_swap]
        exact hup.exchange hc hlt
      obtain ⟨hre, hheap⟩ := ih (parent c) (hpc.trans hc) (by omega) hnext
      exact ⟨(rearranged_swap (hpc.trans hc) hc).trans hre, hheap⟩
    case isFalse hge =>
      exact ⟨.refl l q, hup.isHeap fun hlt => hge (less_iff.mpr hlt)⟩

omit [DecidableEq κ] in
theorem childLess_iff {c : Nat} : q.childLess I c = true ↔
    ∃ i, 0 < i ∧ i < q.heap_length ∧ parent i = c ∧ I.rank (q.heap i) < I.rank (q.heap c) := by
  simp only [IndirectedPQ.childLess, Bool.and_eq_true, Bool.or_eq_true, decide_eq_true_eq,
    less_iff]
  constructor
  · rintro ⟨hl, ⟨hr, hlt⟩ | hlt⟩
    · exact ⟨2 * c + 2, by omega, hr, (parent_eq_iff (by omega)).mpr (Or.inr rfl), hlt⟩
    · exact ⟨2 * c + 1, by omega, hl, (parent_eq_iff (by omega)).mpr (Or.inl rfl), hlt⟩
  · rintro ⟨i, hi, hin, hpi, hlt⟩
    rcases (parent_eq_iff hi).mp hpi with rfl | rfl
    · exact ⟨hin, Or.inr hlt⟩
    · exact ⟨by omega, Or.inl ⟨hin, hlt⟩⟩

omit [DecidableEq κ] in
/-- The child to swap with is smaller than the parent and not larger than its sibling. -/
theorem smallestChild_spec {c : Nat} (h : q.childLess I c = true) :
    0 < q.smallestChild I c ∧ q.smallestChild I c < q.heap_length ∧
    parent (q.smallestChild I c) = c ∧
    I.rank (q.heap (q.smallestChild I c)) < I.rank (q.heap c) ∧
    ∀ i, 0 < i → i < q.heap_length → parent i = c →
      I.rank (q.heap (q.smallestChild I c)) ≤ I.rank (q.heap i) := by
  have hl : parent (2 * c + 1) = c := (parent_eq_iff (by omega)).mpr (Or.inl rfl)
  have hr : parent (2 * c + 2) = c := (parent_eq_iff (by omega)).mpr (Or.inr rfl)
  simp only [IndirectedPQ.childLess, Bool.and_eq_true, Bool.or_eq_true, decide_eq_true_eq,
    less_iff] at h
  obtain ⟨hln, hless⟩ := h
  simp only [IndirectedPQ.smallestChild, Bool.and_eq_true, decide_eq_true_eq, less_iff]
  by_cases hlc : I.rank (q.heap (2 * c + 1)) < I.rank (q.heap c)
  · rw [if_pos hlc]
    split
    case isTrue hcond =>
      refine ⟨by omega, hcond.1, hr, hcond.2.trans hlc, ?_⟩
      intro i hi _ hpi
      rcases (parent_eq_iff hi).mp hpi with rfl | rfl
      · exact hcond.2.le
      · exact le_rfl
    case isFalse hcond =>
      refine ⟨by omega, hln, hl, hlc, ?_⟩
      intro i hi hin hpi
      rcases (parent_eq_iff hi).mp hpi with rfl | rfl
      · exact le_rfl
      · exact not_lt.mp fun hlt => hcond ⟨hin, hlt⟩
  · rw [if_neg hlc]
    have hright := hless.resolve_right hlc
    rw [if_pos hright]
    refine ⟨by omega, hright.1, hr, hright.2, ?_⟩
    intro i hi _ hpi
    rcases (parent_eq_iff hi).mp hpi with rfl | rfl
    · exact (hright.2.trans_le (not_lt.mp hlc)).le
    · exact le_rfl

theorem pushDownLoop_spec (fuel c : Nat) (hfuel : q.heap_length ≤ c + fuel)
    (hdown : DownFrom q.heap_length (I.rank ∘ q.heap) c) :
    Rearranged I q.heap_length q (q.pushDownLoop I fuel c) ∧
      IsHeap q.heap_length (I.rank ∘ (q.pushDownLoop I fuel c).heap) := by
  induction fuel generalizing q c with
  | zero =>
    refine ⟨.refl _ q, hdown.isHeap ?_⟩
    intro i hi hin hpi
    have hci : c < i := hpi ▸ parent_lt hi
    omega
  | succ fuel ih =>
    unfold IndirectedPQ.pushDownLoop
    split
    case isTrue hless =>
      obtain ⟨hs, hsn, hps, hlt, hmin⟩ := smallestChild_spec hless
      have hcs : c < q.smallestChild I c := by
        have hlt := parent_lt hs
        rwa [hps] at hlt
      have hnext : DownFrom q.heap_length
          (I.rank ∘ (q.swap I c (q.smallestChild I c)).heap) (q.smallestChild I c) := by
        rw [rank_swap]
        exact hdown.exchange hs hsn hps hlt hmin
      obtain ⟨hre, hheap⟩ := ih (q.smallestChild I c) (q := q.swap I c (q.smallestChild I c))
        (by show q.heap_length ≤ _; omega) hnext
      exact ⟨(rearranged_swap (hcs.trans hsn) hsn).trans hre, hheap⟩
    case isFalse hstop =>
      refine ⟨.refl _ q, hdown.isHeap ?_⟩
      exact fun i hi hin hpi hlt => hstop (childLess_iff.mpr ⟨i, hi, hin, hpi, hlt⟩)

omit [DecidableEq κ] in
theorem isHeapLoop_iff (fuel c : Nat) (hfuel : q.heap_length ≤ c + fuel) :
    q.isHeapLoop I fuel c = true ↔ ∀ i, 0 < i → i < q.heap_length → c ≤ parent i →
      I.rank (q.heap (parent i)) ≤ I.rank (q.heap i) := by
  induction fuel generalizing c with
  | zero =>
    refine iff_of_true rfl fun i hi hin hpi => ?_
    have hlt := parent_lt hi
    omega
  | succ fuel ih =>
    unfold IndirectedPQ.isHeapLoop
    have hl : parent (2 * c + 1) = c := (parent_eq_iff (by omega)).mpr (Or.inl rfl)
    have hr : parent (2 * c + 2) = c := (parent_eq_iff (by omega)).mpr (Or.inr rfl)
    split
    case isTrue hln =>
      split
      case isTrue hlt =>
        refine iff_of_false nofun fun hall => ?_
        exact (hall _ (by omega) hln hl.ge).not_gt (by rw [hl]; exact less_iff.mp hlt)
      case isFalse hlge =>
        split
        case isTrue hlt =>
          simp only [Bool.and_eq_true, decide_eq_true_eq, less_iff] at hlt
          refine iff_of_false nofun fun hall => ?_
          exact (hall _ (by omega) hlt.1 hr.ge).not_gt (by rw [hr]; exact hlt.2)
        case isFalse hrge =>
          rw [ih (c + 1) (by omega)]
          refine ⟨fun hall i hi hin hpi => ?_, fun hall i hi hin hpi => hall i hi hin (by omega)⟩
          rcases Nat.eq_or_lt_of_le hpi with rfl | hpi
          · rcases (parent_eq_iff hi).mp rfl with hi' | hi'
            · rw [less_iff, ← hi'] at hlge
              exact not_lt.mp hlge
            · rw [← hi'] at hrge
              simp only [Bool.and_eq_true, decide_eq_true_eq, less_iff] at hrge
              exact not_lt.mp fun hlt => hrge ⟨hin, hlt⟩
          · exact hall i hi hin hpi
    case isFalse hln =>
      refine iff_of_true rfl fun i hi hin hpi => ?_
      have := (parent_eq_iff hi).mp rfl
      omega

omit [DecidableEq κ] in
/-- `is_heap` decides the heap order. -/
theorem isHeap_iff : q.isHeap I = true ↔ IsHeap q.heap_length (I.rank ∘ q.heap) := by
  rw [IndirectedPQ.isHeap, isHeapLoop_iff _ _ (Nat.le_add_left _ _)]
  exact ⟨fun h i hi hin => h i hi hin (Nat.zero_le _), fun h i hi hin _ => h i hi hin⟩

end Sifting

end PittCs.Cs1501
