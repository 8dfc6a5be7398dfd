import Mathlib.Algebra.BigOperators.Ring.Finset
import Mathlib.Algebra.Order.BigOperators.Group.Finset
import Mathlib.Data.Fintype.BigOperators

/-!
# Counting over threads

Threads are numbered and each is in a local state. A weight on local states, summed over
all threads, is how shared counters are related to where the threads are; a step of one
thread changes the sum by what the weight of that thread changes.
-/

namespace PittCs.Lib.Threads

open Function

variable {σ : Type} {n : Nat}

/-- The weight of all threads together. -/
def total (w : σ → Nat) (f : Fin n → σ) : Nat := ∑ i, w (f i)

variable {w w' : σ → Nat} {f : Fin n → σ} {i : Fin n} {x : σ}

/-- A step of one thread. -/
theorem total_update (w : σ → Nat) (f : Fin n → σ) (i : Fin n) (x : σ) :
    total w (Function.update f i x) + w (f i) = total w f + w x := by
  unfold total
  have hcomp : (fun j => w (Function.update f i x j)) =
      Function.update (fun j => w (f j)) i (w x) := by
    funext j
    by_cases hj : j = i
    · subst hj
      rw [update_self, update_self]
    · rw [update_of_ne hj, update_of_ne hj]
  rw [hcomp, Finset.sum_update_of_mem (Finset.mem_univ i),
    ← Finset.add_sum_erase Finset.univ (fun j => w (f j)) (Finset.mem_univ i), Finset.sdiff_singleton_eq_erase]
  omega

/-- A change of all threads that keeps the weight of each. -/
theorem total_map {g : σ → σ} (hg : ∀ x, w (g x) = w x) (f : Fin n → σ) :
    total w (fun i => g (f i)) = total w f :=
  Finset.sum_congr rfl fun i _ => hg (f i)

theorem total_le_total (h : ∀ i, w (f i) ≤ w' (f i)) : total w f ≤ total w' f :=
  Finset.sum_le_sum fun i _ => h i

theorem total_le_mul {k : Nat} (h : ∀ i, w (f i) ≤ k * w' (f i)) : total w f ≤ k * total w' f := by
  unfold total
  rw [Finset.mul_sum]
  exact Finset.sum_le_sum fun i _ => h i

theorem le_total (w : σ → Nat) (f : Fin n → σ) (i : Fin n) : w (f i) ≤ total w f :=
  Finset.single_le_sum (f := fun j => w (f j)) (fun _ _ => Nat.zero_le _) (Finset.mem_univ i)

theorem total_eq_zero : total w f = 0 ↔ ∀ i, w (f i) = 0 := by
  unfold total
  rw [Finset.sum_eq_zero_iff]
  exact ⟨fun h i => h i (Finset.mem_univ i), fun h i _ => h i⟩

theorem exists_of_total_pos (h : 0 < total w f) : ∃ i, 0 < w (f i) := by
  by_contra hno
  push Not at hno
  have hzero : total w f = 0 := total_eq_zero.mpr fun i => Nat.le_zero.mp (hno i)
  omega

/-- All threads have the same weight. -/
theorem total_const {k : Nat} (h : ∀ i, w (f i) = k) : total w f = k * n := by
  unfold total
  rw [Finset.sum_congr rfl fun i _ => h i, Finset.sum_const, Finset.card_univ, Fintype.card_fin,
    Nat.mul_comm]
  rfl

end PittCs.Lib.Threads
