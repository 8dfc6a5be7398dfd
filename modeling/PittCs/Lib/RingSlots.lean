import Mathlib.Data.Int.ModEq

/-!
# A ring of slots

Consecutive numbers are written to a ring, number `k` to the slot `k % size`. The ring
holds the last `size` of them; a slot that was not written yet is as it was at the
start.
-/

namespace PittCs.Lib

open Function

universe u

variable {α : Type u}

/-- The numbers below `count` were written. `P k x` says that `x` is what was written for
`k`, and `blank x` that `x` is what a slot may hold at the start. -/
structure RingSlots (size : ℕ) (P : ℕ → α → Prop) (blank : α → Prop) (count : ℕ)
    (slots : ℕ → α) : Prop where
  recent : ∀ k < count, count ≤ k + size → P k (slots (k % size))
  blank : ∀ i < size, count ≤ i → blank (slots i)

/-- The last number below `count` with the residue of `k`. It is negative when there is
none. -/
def lastWritten (size count : ℕ) (k : ℤ) : ℤ := count - 1 - (count - 1 - k) % size

theorem mod_ne_of_lt {size k count : ℕ} (hlt : k < count) (hnear : count < k + size) :
    k % size ≠ count % size := by
  intro heq
  have hdvd := (Nat.modEq_iff_dvd' (Nat.le_of_lt hlt)).mp heq
  have hle := Nat.le_of_dvd (by omega) hdvd
  omega

theorem lastWritten_lt {size : ℕ} (hsize : 0 < size) (count : ℕ) (k : ℤ) :
    lastWritten size count k < count := by
  have hpos := Int.emod_nonneg ((count : ℤ) - 1 - k) (b := size) (by omega)
  unfold lastWritten
  omega

theorem le_lastWritten_add {size : ℕ} (hsize : 0 < size) (count : ℕ) (k : ℤ) :
    (count : ℤ) ≤ lastWritten size count k + size := by
  have hlt := Int.emod_lt_of_pos ((count : ℤ) - 1 - k) (b := size) (by omega)
  unfold lastWritten
  omega

theorem le_lastWritten (size : ℕ) {count : ℕ} {k : ℤ} (hk : k < count) :
    k ≤ lastWritten size count k := by
  have hle : ((count : ℤ) - 1 - k) % size ≤ count - 1 - k := by
    have hdiv := Int.ediv_nonneg (a := (count : ℤ) - 1 - k) (b := size) (by omega) (by omega)
    have hsplit := Int.emod_add_mul_ediv ((count : ℤ) - 1 - k) size
    have hmul := Int.mul_nonneg (Int.natCast_nonneg size) hdiv
    omega
  unfold lastWritten
  omega

theorem lastWritten_congr {size : ℕ} (count : ℕ) {j k : ℤ} (h : j % size = k % size) :
    lastWritten size count j = lastWritten size count k := by
  have hsub : (count : ℤ) - 1 - j ≡ count - 1 - k [ZMOD size] := (Int.ModEq.refl _).sub h
  unfold lastWritten
  rw [hsub]

theorem lastWritten_emod (size count : ℕ) (k : ℤ) :
    lastWritten size count k % size = k % size := by
  have hmod : (count - 1 - k) % size ≡ count - 1 - k [ZMOD size] := Int.mod_modEq _ _
  have hsub := (Int.ModEq.refl ((count : ℤ) - 1)).sub hmod
  rw [sub_sub_cancel] at hsub
  exact hsub

namespace RingSlots

variable {size : ℕ} {P : ℕ → α → Prop} {blank : α → Prop} {count : ℕ} {slots : ℕ → α}

theorem init (h : ∀ i, blank (slots i)) : RingSlots size P blank 0 slots where
  recent _ hk := absurd hk (Nat.not_lt_zero _)
  blank i _ _ := h i

/-- The next number overwrites the one that is `size` before it. -/
theorem push (h : RingSlots size P blank count slots) {x : α} (hx : P count x) :
    RingSlots size P blank (count + 1) (Function.update slots (count % size) x) where
  recent := by
    intro k hk hnear
    by_cases hlast : k = count
    · rw [hlast, update_self]
      exact hx
    · rw [update_of_ne (mod_ne_of_lt (by omega) (by omega))]
      exact h.recent k (by omega) (by omega)
  blank := by
    intro i hi hcount
    have hmod : count % size = count := Nat.mod_eq_of_lt (by omega)
    rw [hmod, update_of_ne (by omega)]
    exact h.blank i hi (by omega)

theorem mono (h : RingSlots size P blank count slots) {P' : ℕ → α → Prop}
    (hP : ∀ k < count, ∀ x, P k x → P' k x) : RingSlots size P' blank count slots where
  recent k hk hnear := hP k hk _ (h.recent k hk hnear)
  blank := h.blank

/-- What is in the slot of a residue. -/
theorem slot (h : RingSlots size P blank count slots) {i : ℕ} (hi : i < size) :
    (0 ≤ lastWritten size count i ∧ P (lastWritten size count i).toNat (slots i)) ∨
      (lastWritten size count i < 0 ∧ blank (slots i)) := by
  have hsize : 0 < size := by omega
  have hlt := lastWritten_lt hsize count i
  have hge := le_lastWritten_add hsize count i
  have hmod := lastWritten_emod size count i
  by_cases hneg : lastWritten size count i < 0
  · refine Or.inr ⟨hneg, h.blank i hi ?_⟩
    by_contra hcount
    have hle := le_lastWritten size (Int.ofNat_lt.mpr (not_le.mp hcount))
    omega
  · rcases Int.eq_ofNat_of_zero_le (not_lt.mp hneg) with ⟨j, hj⟩
    rw [hj] at hlt hge hmod ⊢
    have hslot : j % size = i := by
      have hmodNat : j % size = i % size := by exact_mod_cast hmod
      rw [hmodNat, Nat.mod_eq_of_lt hi]
    refine Or.inl ⟨Int.natCast_nonneg j, ?_⟩
    rw [Int.toNat_natCast, ← hslot]
    exact h.recent j (by omega) (by omega)

end RingSlots

end PittCs.Lib
