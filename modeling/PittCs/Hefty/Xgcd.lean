import Mathlib.Algebra.Order.Ring.Abs
import Mathlib.Tactic.LinearCombination
import PittCs.Hefty.Division

/-!
# The extended Euclidean algorithm

The second argument gets smaller with every call, whatever the lengths of the arrays
are. No array of the recursion is longer than the arguments, and a coefficient has at most
two bytes more than the whole bytes of the argument that bounds it.
-/

namespace PittCs.Hefty

open List

namespace HeftyInteger

/-- The results of a call on `a` and `b`. -/
structure IsXgcd (a b : HeftyInteger) (r : Xgcd) : Prop where
  gcd : r.gcd.value = Int.gcd a.value b.value
  bezout : a.value * r.x.value + b.value * r.y.value = r.gcd.value

/-- The coefficients of a call from those of the call inside it. -/
theorem IsXgcd.step {a b rest q p : HeftyInteger} {r : Xgcd} (h : IsXgcd b rest r)
    (hrest : rest.value = a.value % b.value) (hq : q.value = a.value / b.value)
    (hp : p.value = q.value * r.y.value) : IsXgcd a b ⟨r.gcd, r.y, r.x.minus p⟩ := by
  have hdiv := Int.mul_ediv_add_emod a.value b.value
  refine ⟨?_, ?_⟩
  · rw [h.gcd, hrest, Int.gcd_comm, Int.gcd_emod]
  · show a.value * r.y.value + b.value * (r.x.minus p).value = r.gcd.value
    rw [value_minus, hp, hq, ← h.bezout, hrest]
    linear_combination -r.y.value * hdiv

/-! ## The arrays of the coefficients -/

/-- The bytes for a coefficient of at most this size. -/
def coefLength (v : Int) : Nat := v.toNat.log2 / 8 + 2

theorem fits_coefLength {v w : Int} (h : |w| ≤ max 1 v) : Fits (coefLength v) w := by
  have hpow : 4 * (2 : Int) ^ (v.toNat.log2 + 1) ≤ 2 ^ (8 * coefLength v) := by
    rw [show (4 : Int) = 2 ^ 2 from rfl, ← pow_add]
    refine pow_le_pow_right₀ (by decide) ?_
    unfold coefLength
    omega
  have hlt : v < 2 ^ (v.toNat.log2 + 1) := by
    have hnat := Nat.lt_log2_self (n := v.toNat)
    have hcast : (v.toNat : Int) < 2 ^ (v.toNat.log2 + 1) := by exact_mod_cast hnat
    omega
  have hone : (1 : Int) ≤ 2 ^ (v.toNat.log2 + 1) := one_le_pow₀ (by decide)
  rw [abs_le] at h
  exact ⟨by omega, by omega⟩

theorem coefLength_mono {v w : Int} (h : v ≤ w) : coefLength v ≤ coefLength w := by
  unfold coefLength
  by_cases hv : v.toNat = 0
  · rw [hv]
    exact Nat.le_add_left _ _
  · have hself := (Nat.le_log2 hv).mp (Nat.le_refl _)
    have hlog := (Nat.le_log2 (n := w.toNat) (by omega)).mpr (Nat.le_trans hself (by omega))
    omega

/-- The whole bytes of a factor are added to the bytes for a coefficient. -/
theorem coefLength_mul {u v w : Int} (hu : 0 < u) (hv : 0 < v) (h : u * v ≤ w) :
    v.toNat.log2 / 8 + coefLength u ≤ coefLength w := by
  have hu' := (Nat.le_log2 (n := u.toNat) (by omega)).mp (Nat.le_refl _)
  have hv' := (Nat.le_log2 (n := v.toNat) (by omega)).mp (Nat.le_refl _)
  have hle : u.toNat * v.toNat ≤ w.toNat := by
    rw [← Int.toNat_mul hu.le hv.le]
    exact Int.toNat_le_toNat h
  have hpos : 0 < u.toNat * v.toNat := Nat.mul_pos (by omega) (by omega)
  have hlog := (Nat.le_log2 (n := w.toNat) (k := u.toNat.log2 + v.toNat.log2) (by omega)).mpr (by
    rw [Nat.pow_add]
    exact Nat.le_trans (Nat.mul_le_mul hu' hv') hle)
  unfold coefLength
  omega

theorem coefLength_lt {a : HeftyInteger} (h : a.length < 2 ^ 28) : coefLength a.value < 2 ^ 29 := by
  have hhigh := a.fits.2
  have hlog : a.value.toNat.log2 < 8 * a.length + 1 := by
    by_cases hzero : a.value.toNat = 0
    · rw [hzero]
      exact Nat.succ_pos _
    · rw [Nat.log2_lt hzero]
      have hcast : (a.value.toNat : Int) < 2 ^ (8 * a.length + 1) := by
        rw [pow_succ]
        omega
      exact_mod_cast hcast
  unfold coefLength
  omega

/-- The coefficients are bounded by the arguments, crosswise, and so are their arrays. -/
structure Bounded (a b : HeftyInteger) (r : Xgcd) : Prop where
  x : |r.x.value| ≤ max 1 b.value
  y : |r.y.value| ≤ max 1 a.value
  last : b.value = 0 → r.y.value = 0
  xLength : r.x.length ≤ coefLength b.value
  yLength : r.y.length ≤ coefLength a.value

/-- A product of a quotient with a coefficient that is bounded by the divisor. -/
theorem product_coefficient {a b q y : HeftyInteger} (hb : 0 < b.value) (hq : 0 ≤ q.value)
    (hqb : q.value * b.value ≤ a.value) (hqlength : q.length ≤ coefLength q.value)
    (ha : a.length < 2 ^ 28) (hb' : b.length < 2 ^ 28) (hqa : q.length ≤ a.length)
    (hy : |y.value| ≤ b.value) (hylength : y.length ≤ coefLength b.value) :
    ∃ p, q.multiply y = .ok p ∧ p.value = q.value * y.value ∧ p.length ≤ coefLength a.value ∧
      Fits p.length (-p.value) := by
  have hqmag := (magnitude_spec q).2.2.2 hq
  have hymag := (magnitude_spec y).2.2.1
  have hshort : 8 * (shorter q y).magnitude.length < 2 ^ 31 := by
    unfold shorter
    split
    · omega
    · rw [hqmag]
      omega
  have hlength : (product q y).length ≤ coefLength a.value := by
    have habs : (y.value.natAbs : Int) ≤ b.value := Int.abs_eq_natAbs y.value ▸ hy
    rw [length_product]
    unfold productLength
    split
    · exact Nat.le_add_left 1 _
    rename_i hv
    have hmod := Nat.mod_le (shorter q y).value.natAbs (2 ^ bitsRead q y)
    generalize (shorter q y).value.natAbs % 2 ^ bitsRead q y = v at *
    by_cases hlonger : q.length > y.length
    · rw [show shorter q y = y from if_pos hlonger] at hmod
      rw [show longer q y = q from if_pos hlonger, hqmag]
      have hvb : (v : Int) ≤ b.value := by omega
      rcases Int.lt_or_eq_of_le hq with hqpos | hqzero
      · have hle : q.value * v ≤ a.value :=
          Int.le_trans (Int.mul_le_mul_of_nonneg_left hvb hq) hqb
        have hnonneg : 0 ≤ q.value * v := Int.mul_nonneg hq (Int.natCast_nonneg v)
        have hsum := coefLength_mul (v := v) hqpos (by omega) hle
        rw [Int.toNat_natCast] at hsum
        refine width_le (by omega) (fits_coefLength ?_)
        rw [abs_of_nonneg hnonneg]
        omega
      · -- a quotient that is zero is longer than one byte only
        rw [← hqzero] at hqlength ⊢
        have hsmall : v.log2 / 8 = 0 := by
          have hone : y.length = 1 := by
            have hpos := y.length_pos
            have htwo : coefLength 0 = 2 := rfl
            omega
          have hfit := y.fits
          rw [hone] at hfit
          rcases hfit with ⟨hlow, hhigh⟩
          have hlt := (Nat.log2_lt hv (k := 8)).mpr (by omega)
          omega
        rw [hsmall, Int.zero_mul]
        refine width_le (Nat.le_trans hqlength ?_) (fits_coefLength (by simp))
        exact Nat.le_add_left _ _
    · rw [show shorter q y = q from if_neg hlonger] at hmod
      rw [show longer q y = y from if_neg hlonger]
      have hvq : (v : Int) ≤ q.value := by omega
      have hyfit : Fits (coefLength b.value) |y.value| := by
        refine fits_coefLength ?_
        rw [abs_abs]
        omega
      have hmagnitude : y.magnitude.length ≤ coefLength b.value := by
        rw [length_magnitude_width]
        exact width_le hylength hyfit
      have hle : b.value * v ≤ a.value := by
        rw [Int.mul_comm]
        exact Int.le_trans (Int.mul_le_mul_of_nonneg_right hvq hb.le) hqb
      have hsum := coefLength_mul (v := v) hb (by omega) hle
      rw [Int.toNat_natCast] at hsum
      refine width_le (by omega) (fits_coefLength ?_)
      rw [(magnitude_spec y).1, abs_mul, abs_abs, abs_of_nonneg (Int.natCast_nonneg v)]
      have hmul := Int.mul_le_mul_of_nonneg_right hy (Int.natCast_nonneg v)
      omega
  have hbound := coefLength_lt ha
  have hboundb := coefLength_lt hb'
  have hfits : ProductFits q y := by
    have hylt : y.magnitude.length < 2 ^ 31 := by omega
    refine ⟨?_, ?_, by rw [← length_product]; omega⟩ <;> rw [← length_magnitude_width]
    · unfold longer
      split
      · rw [hqmag]
        omega
      · exact hylt
    · omega
  exact ⟨_, multiply_of_fits hfits, product_right hshort, hlength, fits_neg_product q y⟩

/-- The call inside bounds the coefficients of the call. -/
theorem Bounded.step {a b rest q p : HeftyInteger} {r : Xgcd} (h : Bounded b rest r)
    (ha : 0 ≤ a.value) (hb : 0 < b.value) (hrest : rest.value = a.value % b.value)
    (hq : q.value = a.value / b.value) (hp : p.value = q.value * r.y.value)
    (hplength : p.length ≤ coefLength a.value) (hpneg : Fits p.length (-p.value)) :
    Bounded a b ⟨r.gcd, r.y, r.x.minus p⟩ := by
  have hdiv := Int.mul_ediv_add_emod a.value b.value
  have hnonneg := Int.emod_nonneg a.value hb.ne'
  have hqnonneg : 0 ≤ q.value := by
    rw [hq]
    exact Int.ediv_nonneg ha hb.le
  have hprod : b.value * (a.value / b.value) = q.value * b.value := by rw [hq, Int.mul_comm]
  have hqb : 0 ≤ q.value * b.value := Int.mul_nonneg hqnonneg hb.le
  have hy := h.y
  rw [Int.max_eq_right (by omega)] at hy
  have hbound : |r.x.value - p.value| ≤ max 1 a.value := by
    rw [hp]
    by_cases hzero : rest.value = 0
    · have hx := h.x
      rw [h.last hzero, Int.mul_zero, Int.sub_zero]
      omega
    · have hx := h.x
      have hmul : |q.value * r.y.value| ≤ q.value * b.value := by
        rw [abs_mul, abs_of_nonneg hqnonneg]
        exact Int.mul_le_mul_of_nonneg_left hy hqnonneg
      have htriangle := abs_sub r.x.value (q.value * r.y.value)
      omega
  refine ⟨?_, ?_, fun hzero => absurd hzero hb.ne', h.yLength, ?_⟩
  · show |r.y.value| ≤ _
    omega
  · show |(r.x.minus p).value| ≤ _
    rw [value_minus]
    exact hbound
  · show (r.x.minus p).length ≤ _
    have hx := Nat.le_trans h.xLength (coefLength_mono (show rest.value ≤ a.value by omega))
    rw [length_minus, width_of_fits hpneg]
    exact width_le (Nat.max_le.mpr ⟨hx, hplength⟩) (fits_coefLength hbound)

/-! ## The recursion -/

theorem recXGCD_zero {a b : HeftyInteger} (hb : b.value = 0) (fuel : Nat) :
    recXGCD (fuel + 1) a b = some (.ok ⟨a, one, zero⟩) := by
  unfold recXGCD
  rw [tryEquals_of_zero hb]
  rfl

theorem isXgcd_zero {a b : HeftyInteger} (ha : 0 ≤ a.value) (hb : b.value = 0) :
    IsXgcd a b ⟨a, one, zero⟩ := by
  refine ⟨?_, ?_⟩
  · rw [hb, Int.gcd_zero_right]
    show a.value = _
    omega
  · show a.value * one.value + b.value * zero.value = a.value
    have hone : one.value = 1 := by decide
    rw [hb, hone]
    ring

theorem recXGCD_spec {N : Nat} (hN : N < 2 ^ 28) {a b : HeftyInteger} (ha : 0 ≤ a.value)
    (hb : 0 ≤ b.value) (hla : a.length ≤ N) (hlb : b.length ≤ N) :
    ∃ r, IsXgcd a b r ∧ Bounded a b r ∧
      ∀ fuel : Nat, b.value < fuel → recXGCD fuel a b = some (.ok r) := by
  induction hn : b.value.toNat using Nat.strong_induction_on generalizing a b with
  | _ n ih =>
    by_cases hzero : b.value = 0
    · refine ⟨⟨a, one, zero⟩, isXgcd_zero ha hzero, ?_, fun fuel hfuel => ?_⟩
      · have hone : |one.value| = 1 ∧ zero.value = 0 := by decide
        refine ⟨?_, ?_, fun _ => hone.2, Nat.le_add_left 1 _, Nat.le_add_left 1 _⟩
        · show |one.value| ≤ _
          omega
        · show |zero.value| ≤ _
          rw [hone.2]
          exact Int.le_trans (by decide) (Int.le_max_left 1 a.value)
      · obtain ⟨fuel, rfl⟩ : ∃ f, fuel = f + 1 := ⟨fuel - 1, by omega⟩
        exact recXGCD_zero hzero fuel
    · have hpos : 0 < b.value := by omega
      have hmaga := (magnitude_spec a).2.2.2 ha
      have hmagb := (magnitude_spec b).2.2.2 hb
      have hbits : BitsFit a b := by
        refine ⟨hzero, ?_, ?_, .inl ?_⟩
        · rw [hmaga]
          omega
        · rw [hmagb]
          omega
        · rw [hmagb]
          omega
      rcases modulo_spec hpos hbits with ⟨rest, hrun, hrest, hlength⟩
      have hlt := Int.emod_lt_of_pos a.value hpos
      have hnonneg := Int.emod_nonneg a.value hzero
      rcases divide_spec hbits with ⟨q, hq, hqvalue, hqlength, hqlog⟩
      rw [Int.tdiv_eq_ediv_of_nonneg ha] at hqvalue
      have hqnonneg : 0 ≤ q.value := by
        rw [hqvalue]
        exact Int.ediv_nonneg ha hb
      rw [hmaga, (magnitude_spec q).2.2.2 hqnonneg] at hqlength
      have hshort := hlength ha
      rcases ih rest.value.toNat (by omega) hb (by omega) hlb (by omega) rfl
        with ⟨r, hxgcd, hbounded, hcall⟩
      have hqb : q.value * b.value ≤ a.value := by
        rw [hqvalue]
        exact Int.ediv_mul_le _ hzero
      have hy := hbounded.y
      rw [Int.max_eq_right (by omega)] at hy
      rcases product_coefficient hpos hqnonneg hqb (hqlog ha hb) (by omega) (by omega) hqlength hy
        hbounded.yLength with ⟨p, hp, hpvalue, hplength, hpneg⟩
      have hnext := hbounded.step ha hpos hrest hqvalue hpvalue hplength hpneg
      have hbound := coefLength_lt (show a.length < 2 ^ 28 by omega)
      have hsubtract : r.x.subtract p = .ok (r.x.minus p) := by
        have hylength := hnext.yLength
        dsimp only at hylength
        rw [subtract_eq, newArray_of_lt (by omega)]
      refine ⟨_, hxgcd.step hrest hqvalue hpvalue, hnext, fun fuel hfuel => ?_⟩
      obtain ⟨fuel, rfl⟩ : ∃ f, fuel = f + 1 := ⟨fuel - 1, by omega⟩
      unfold recXGCD
      rw [tryEquals_zero hbits.length, decide_eq_false hzero, hrun]
      dsimp only
      rw [hcall fuel (by omega), Option.map_some, ok_bind, hq, ok_bind, hp, ok_bind, hsubtract,
        ok_bind]
      rfl

/-- The algorithm ends with a divisor and its coefficients, however many calls it is
allowed beyond those it needs. -/
def XgcdCorrect (a b : HeftyInteger) : Prop :=
  ∃ r, IsXgcd a b r ∧ ∃ calls, ∀ fuel, calls ≤ fuel → xgcd fuel a b = some (.ok r)

/-- The recursion starts with the longer array. -/
theorem xgcdCorrect_of_rec {a b : HeftyInteger} (ha : 0 ≤ a.value) (hb : 0 ≤ b.value)
    (h : ∃ r calls, (if a.length < b.length then IsXgcd b a r else IsXgcd a b r) ∧
      ∀ fuel, calls ≤ fuel → (if a.length < b.length then recXGCD fuel b a
        else recXGCD fuel a b) = some (.ok r)) : XgcdCorrect a b := by
  have hna := (not_isNegative_iff a).mpr ha
  have hnb := (not_isNegative_iff b).mpr hb
  rcases h with ⟨r, calls, hxgcd, hcall⟩
  by_cases hlt : a.length < b.length
  · -- the arguments are exchanged, and so are the coefficients
    simp only [if_pos hlt] at hxgcd hcall
    refine ⟨⟨r.gcd, r.y, r.x⟩, ⟨?_, ?_⟩, calls, fun fuel hfuel => ?_⟩
    · rw [Int.gcd_comm]
      exact hxgcd.gcd
    · have hbezout := hxgcd.bezout
      rw [Int.add_comm] at hbezout
      exact hbezout
    · unfold xgcd
      rw [hna, hnb, if_neg (by decide), if_pos hlt, hcall fuel hfuel]
      rfl
  · simp only [if_neg hlt] at hxgcd hcall
    refine ⟨r, hxgcd, calls, fun fuel hfuel => ?_⟩
    unfold xgcd
    rw [hna, hnb, if_neg (by decide), if_neg hlt, hcall fuel hfuel]

/-- The extended Euclidean algorithm is right if it divides by nothing, since the integer in
the shorter array is zero, and for all arrays whose bits a division can count. -/
theorem xgcd_correct {a b : HeftyInteger} (ha : 0 ≤ a.value) (hb : 0 ≤ b.value)
    (h : (if a.length < b.length then a.value else b.value) = 0 ∨
      a.length < 2 ^ 28 ∧ b.length < 2 ^ 28) : XgcdCorrect a b := by
  refine xgcdCorrect_of_rec ha hb ?_
  by_cases hlt : a.length < b.length
  · simp only [if_pos hlt] at h ⊢
    rcases h with hzero | ⟨hla, hlb⟩
    · refine ⟨_, 1, isXgcd_zero hb hzero, fun fuel hfuel => ?_⟩
      obtain ⟨fuel, rfl⟩ : ∃ f, fuel = f + 1 := ⟨fuel - 1, by omega⟩
      exact recXGCD_zero hzero fuel
    · rcases recXGCD_spec hlb hb ha (Nat.le_refl _) (Nat.le_of_lt hlt) with ⟨r, hxgcd, -, hcall⟩
      exact ⟨r, a.value.toNat + 1, hxgcd, fun fuel hfuel => hcall fuel (by omega)⟩
  · simp only [if_neg hlt] at h ⊢
    rcases h with hzero | ⟨hla, hlb⟩
    · refine ⟨_, 1, isXgcd_zero ha hzero, fun fuel hfuel => ?_⟩
      obtain ⟨fuel, rfl⟩ : ∃ f, fuel = f + 1 := ⟨fuel - 1, by omega⟩
      exact recXGCD_zero hzero fuel
    · rcases recXGCD_spec hla ha hb (Nat.le_refl _) (Nat.not_lt.mp hlt) with ⟨r, hxgcd, -, hcall⟩
      exact ⟨r, b.value.toNat + 1, hxgcd, fun fuel hfuel => hcall fuel (by omega)⟩

/-- Twelve, and eighteen in two bytes. -/
theorem xgcd_correct_twelve : ∃ r : Xgcd, r.gcd.value = 6 ∧
    12 * r.x.value + 18 * r.y.value = 6 ∧ ∃ calls, ∀ fuel, calls ≤ fuel →
      xgcd fuel ⟨[12], cons_ne_nil _ _⟩ ⟨[0, 18], cons_ne_nil _ _⟩ = some (.ok r) := by
  rcases xgcd_correct (a := ⟨[12], cons_ne_nil _ _⟩) (b := ⟨[0, 18], cons_ne_nil _ _⟩)
    (by decide) (by decide) (.inr (by decide)) with ⟨r, hxgcd, hrun⟩
  have hgcd : r.gcd.value = 6 := hxgcd.gcd
  exact ⟨r, hgcd, hxgcd.bezout.trans hgcd, hrun⟩

/-- With `2 ^ 28` bytes the algorithm ends with an exception: one has no remainder. -/
theorem not_xgcdCorrect_of_length {a : HeftyInteger} (ha : 0 ≤ a.value)
    (hlength : a.length = 2 ^ 28) : ¬ XgcdCorrect a one := by
  rintro ⟨r, -, calls, hrun⟩
  have hmagnitude : a.magnitude.length = 2 ^ 28 := by
    rw [(magnitude_spec a).2.2.2 ha, hlength]
  have hequals : one.tryEquals zero = .ok false := by rfl
  have hmodulo : a.modulo one = .error "target bit out of bounds" := by
    unfold modulo
    rw [(not_isNegative_iff one).mpr (by decide), hequals, ok_bind]
    dsimp only
    rw [if_neg (by decide), if_neg (by decide),
      divide_error hmagnitude (by decide) (by decide)]
    rfl
  have hcall : recXGCD (calls + 1) a one = some (.error "target bit out of bounds") := by
    unfold recXGCD
    rw [hequals, hmodulo]
  have hone : one.length = 1 := rfl
  have hok := hrun (calls + 1) (Nat.le_succ _)
  unfold xgcd at hok
  rw [(not_isNegative_iff a).mpr ha, (not_isNegative_iff one).mpr (by decide), if_neg (by decide),
    if_neg (by omega), hcall] at hok
  cases hok

theorem not_xgcd_correct :
    ¬ ∀ a b : HeftyInteger, 0 ≤ a.value → 0 ≤ b.value → XgcdCorrect a b := by
  intro hall
  have hnonneg : 0 ≤ wideOne.value := by
    rw [value_wideOne]
    decide
  exact not_xgcdCorrect_of_length hnonneg length_wideOne (hall wideOne one hnonneg (by decide))

end HeftyInteger

end PittCs.Hefty
