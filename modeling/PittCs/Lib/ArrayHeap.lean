import Mathlib.Order.Lattice

/-!
# Heaps in an array

The order of a binary heap in an array: the children of position `i` are `2 i + 1`
and `2 i + 2`. While a value is sifted, the order may fail at one position, upwards
(`UpTo`) or downwards (`DownFrom`); one exchange moves that position a level, and a
sift that stops has restored the heap.
-/

namespace PittCs.Lib.ArrayHeap

open Function

universe u v

/-- The position above. The root is its own parent. -/
def parent (i : Nat) : Nat := (i - 1) / 2

theorem parent_lt {i : Nat} (h : 0 < i) : parent i < i := by
  unfold parent
  omega

theorem parent_le (i : Nat) : parent i ≤ i := by
  unfold parent
  omega

theorem parent_eq_iff {i p : Nat} (h : 0 < i) :
    parent i = p ↔ i = 2 * p + 1 ∨ i = 2 * p + 2 := by
  unfold parent
  omega

section Exchange

variable {α : Type u} (h : Nat → α)

/-- The array with two positions exchanged. -/
def exchange (x y : Nat) : Nat → α := fun i => if i = x then h y else if i = y then h x else h i

@[simp] theorem exchange_left (x y : Nat) : exchange h x y x = h y := by simp [exchange]

@[simp] theorem exchange_right (x y : Nat) : exchange h x y y = h x := by
  by_cases hyx : y = x
  · simp [exchange, hyx]
  · simp [exchange, hyx]

theorem exchange_of_ne {x y i : Nat} (hx : i ≠ x) (hy : i ≠ y) : exchange h x y i = h i := by
  simp [exchange, hx, hy]

theorem comp_exchange {β : Type v} (f : α → β) (x y : Nat) :
    f ∘ exchange h x y = exchange (f ∘ h) x y := by
  funext i
  simp only [comp_apply, exchange]
  split
  · rfl
  · split <;> rfl

end Exchange

section Order

variable {π : Type u} [LinearOrder π] {h : Nat → π} {n : Nat}

/-- No value is smaller than the one above it. -/
def IsHeap (n : Nat) (h : Nat → π) : Prop := ∀ i, 0 < i → i < n → h (parent i) ≤ h i

/-- A heap except that the value at `c` may be smaller than the one above it. -/
structure UpTo (n : Nat) (h : Nat → π) (c : Nat) : Prop where
  order : ∀ i, 0 < i → i < n → i ≠ c → h (parent i) ≤ h i
  grand : 0 < c → ∀ i, 0 < i → i < n → parent i = c → h (parent c) ≤ h i

/-- A heap except that the value at `c` may be larger than those below it. -/
structure DownFrom (n : Nat) (h : Nat → π) (c : Nat) : Prop where
  order : ∀ i, 0 < i → i < n → parent i ≠ c → h (parent i) ≤ h i
  grand : 0 < c → ∀ i, 0 < i → i < n → parent i = c → h (parent c) ≤ h i

/-- The root is minimal. -/
theorem IsHeap.root_le (hh : IsHeap n h) {i : Nat} (hi : i < n) : h 0 ≤ h i := by
  induction i using Nat.strongRecOn with
  | ind i ih =>
    rcases Nat.eq_zero_or_pos i with rfl | hpos
    · exact le_rfl
    · have hlt := parent_lt hpos
      exact (ih (parent i) hlt (hlt.trans hi)).trans (hh i hpos hi)

/-- A sift upwards that stops leaves a heap. -/
theorem UpTo.isHeap {c : Nat} (hu : UpTo n h c) (hstop : ¬ h c < h (parent c)) : IsHeap n h := by
  intro i hpos hi
  by_cases hic : i = c
  · subst hic
    exact not_lt.mp hstop
  · exact hu.order i hpos hi hic

/-- One exchange of a sift upwards. -/
theorem UpTo.exchange {c : Nat} (hu : UpTo n h c) (hc : c < n) (hlt : h c < h (parent c)) :
    UpTo n (exchange h (parent c) c) (parent c) := by
  have hpos : 0 < c := by
    rcases Nat.eq_zero_or_pos c with rfl | hpos
    · exact absurd hlt (lt_irrefl _)
    · exact hpos
  have hpc := parent_lt hpos
  constructor
  · intro i hi hin hip
    by_cases hic : i = c
    · -- the two exchanged values
      subst hic
      rw [exchange_left, exchange_right]
      exact hlt.le
    · rw [exchange_of_ne h hip hic]
      by_cases hpi : parent i = parent c
      · rw [hpi, exchange_left]
        exact hlt.le.trans (hpi ▸ hu.order i hi hin hic)
      · by_cases hpic : parent i = c
        · rw [hpic, exchange_right]
          exact hu.grand hpos i hi hin hpic
        · rw [exchange_of_ne h hpi hpic]
          exact hu.order i hi hin hic
  · intro hp i hi hin hpi
    have hpp := parent_lt hp
    have habove := hu.order (parent c) hp (hpc.trans hc) hpc.ne
    rw [exchange_of_ne h hpp.ne (hpp.trans hpc).ne]
    by_cases hic : i = c
    · subst hic
      rw [exchange_right]
      exact habove
    · have hpi' : parent c < i := hpi ▸ parent_lt hi
      rw [exchange_of_ne h hpi'.ne' hic]
      exact habove.trans (hpi ▸ hu.order i hi hin hic)

/-- A sift downwards that stops leaves a heap. -/
theorem DownFrom.isHeap {c : Nat} (hd : DownFrom n h c)
    (hstop : ∀ i, 0 < i → i < n → parent i = c → ¬ h i < h c) : IsHeap n h := by
  intro i hpos hi
  by_cases hpi : parent i = c
  · rw [hpi]
    exact not_lt.mp (hstop i hpos hi hpi)
  · exact hd.order i hpos hi hpi

/-- One exchange of a sift downwards, with the smallest child. -/
theorem DownFrom.exchange {c s : Nat} (hd : DownFrom n h c) (hs : 0 < s) (hsn : s < n)
    (hps : parent s = c) (hlt : h s < h c)
    (hmin : ∀ i, 0 < i → i < n → parent i = c → h s ≤ h i) :
    DownFrom n (exchange h c s) s := by
  have hcs : c < s := hps ▸ parent_lt hs
  constructor
  · intro i hi hin hpi
    by_cases hic : i = c
    · -- the child that came up is not smaller than what is above
      subst hic
      rw [exchange_left, exchange_of_ne h (parent_lt hi).ne hpi]
      exact hd.grand hi s hs hsn hps
    · by_cases his : i = s
      · subst his
        rw [exchange_right, hps, exchange_left]
        exact hlt.le
      · rw [exchange_of_ne h hic his]
        by_cases hpc : parent i = c
        · rw [hpc, exchange_left]
          exact hmin i hi hin hpc
        · rw [exchange_of_ne h hpc hpi]
          exact hd.order i hi hin hpc
  · intro _ i hi hin hpi
    have hsi : s < i := hpi ▸ parent_lt hi
    rw [hps, exchange_left, exchange_of_ne h (hcs.trans hsi).ne' hsi.ne']
    have hle := hd.order i hi hin (by rw [hpi]; exact hcs.ne')
    rwa [hpi] at hle

/-- The values below a position are not smaller than the one above it. -/
theorem IsHeap.grand (hh : IsHeap n h) {c i : Nat} (hpos : 0 < c) (hi : 0 < i) (hin : i < n)
    (hpi : parent i = c) : h (parent c) ≤ h i := by
  have hci : c < i := hpi ▸ parent_lt hi
  exact (hh c hpos (hci.trans hin)).trans (hpi ▸ hh i hi hin)

/-- A new value at a position, smaller than the one above it. -/
theorem IsHeap.upTo_update (hh : IsHeap n h) {c : Nat} {v : π} (hpos : 0 < c)
    (hv : v < h (parent c)) : UpTo n (Function.update h c v) c := by
  constructor
  · intro i hi hin hic
    rw [update_of_ne hic]
    by_cases hpi : parent i = c
    · rw [hpi, update_self]
      exact hv.le.trans (hh.grand hpos hi hin hpi)
    · rw [update_of_ne hpi]
      exact hh i hi hin
  · intro _ i hi hin hpi
    have hci : c < i := hpi ▸ parent_lt hi
    rw [update_of_ne hci.ne', update_of_ne (parent_lt hpos).ne]
    exact hh.grand hpos hi hin hpi

/-- A new value at a position, not smaller than the one above it. -/
theorem IsHeap.downFrom_update (hh : IsHeap n h) {c : Nat} {v : π}
    (hv : 0 < c → h (parent c) ≤ v) : DownFrom n (Function.update h c v) c := by
  constructor
  · intro i hi hin hpi
    rw [update_of_ne hpi]
    by_cases hic : i = c
    · subst hic
      rw [update_self]
      exact hv hi
    · rw [update_of_ne hic]
      exact hh i hi hin
  · intro hpos i hi hin hpi
    have hci : c < i := hpi ▸ parent_lt hi
    rw [update_of_ne hci.ne', update_of_ne (parent_lt hpos).ne]
    exact hh.grand hpos hi hin hpi

/-- A new last value. -/
theorem IsHeap.upTo_push (hh : IsHeap n h) (v : π) :
    UpTo (n + 1) (Function.update h n v) n := by
  constructor
  · intro i hi hin hic
    have hin' : i < n := Nat.lt_of_le_of_ne (Nat.le_of_lt_succ hin) hic
    rw [update_of_ne hic, update_of_ne ((parent_lt hi).trans hin').ne]
    exact hh i hi hin'
  · intro _ i hi hin hpi
    have hni : n < i := hpi ▸ parent_lt hi
    omega

end Order

end PittCs.Lib.ArrayHeap
