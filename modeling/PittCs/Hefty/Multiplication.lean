import PittCs.Hefty.Shift

/-!
# Multiplication

The product is summed up over the bits of the shorter factor. The number of these
bits is an `int`, so that some bits of a very long factor are not read.
-/

namespace PittCs.Hefty

open PittCs.Lib.Digits

namespace HeftyInteger

variable {a b : HeftyInteger}

theorem ok_bind {α β : Type} (x : α) (f : α → Result β) : (Except.ok x >>= f) = f x := rfl

theorem foldlM_range_succ {β : Type} (f : β → Nat → Result β) (b : β) (n : Nat) :
    (List.range (n + 1)).foldlM f b = (List.range n).foldlM f b >>= fun r => f r n := by
  rw [List.range_succ, List.foldlM_append]
  congr 1
  funext r
  exact bind_pure (f r n)

/-- The bytes of the sum over the first `n` bits of `y`. -/
def partialProduct (x y : HeftyInteger) : Nat → HeftyInteger
  | 0 => zero
  | n + 1 =>
    if unsigned y.val / 2 ^ n % 2 = 1 then (partialProduct x y n).add (x.shifted n)
    else partialProduct x y n

theorem value_partialProduct (x y : HeftyInteger) (n : Nat) :
    (partialProduct x y n).value = x.value * (unsigned y.val % 2 ^ n : Nat) := by
  induction n with
  | zero =>
    rw [pow_zero, Nat.mod_one, Nat.cast_zero, Int.mul_zero]
    show zero.value = 0
    decide
  | succ n ih =>
    unfold partialProduct
    rw [Nat.mod_pow_succ]
    split
    · rename_i hone
      rw [value_add, ih, value_shifted, hone]
      push_cast
      ring
    · rw [ih, show unsigned y.val / 2 ^ n % 2 = 0 by omega, Nat.mul_zero, Nat.add_zero]

/-- A round adds the shifted factor if the bit is set. -/
theorem multiplyStep_eq (x y r : HeftyInteger) {n : Nat} (hn : (n : Int) < wrap (8 * y.length)) :
    multiplyStep x y r n = if unsigned y.val / 2 ^ n % 2 = 1 then newArray (r.add (x.shifted n))
      else .ok r := by
  unfold multiplyStep
  rw [getBit_spec hn, leftShift_eq]
  by_cases hone : unsigned y.val / 2 ^ n % 2 = 1
  · rw [if_pos hone, decide_eq_true hone]
    refine newArray_bind r.add ?_
    rw [length_add]
    exact Nat.le_trans (Nat.le_max_right _ _) (le_width _ _)
  · rw [if_neg hone, decide_eq_false hone]
    rfl

/-- The rounds make the sum, if its array can be made: no sum before it is longer. -/
theorem multiplyLoop_eq (x y : HeftyInteger) {n : Nat} (hn : n ≤ (wrap (8 * y.length)).toNat) :
    (List.range n).foldlM (multiplyStep x y) zero = newArray (partialProduct x y n) := by
  induction n with
  | zero => exact (newArray_of_lt (by decide)).symm
  | succ n ih =>
    have hstep := fun r => multiplyStep_eq x y r (n := n) (by omega)
    rw [foldlM_range_succ, ih (Nat.le_of_succ_le hn)]
    simp only [hstep]
    show _ = newArray (if unsigned y.val / 2 ^ n % 2 = 1 then _ else _)
    by_cases hone : unsigned y.val / 2 ^ n % 2 = 1
    · simp only [if_pos hone]
      refine newArray_bind (fun r => r.add (x.shifted n)) ?_
      rw [length_add]
      exact Nat.le_trans (Nat.le_max_left _ _) (le_width _ _)
    · simp only [if_neg hone]
      exact bind_pure _

/-- The bytes of a product with `v`: those of the factor, the whole bytes below the highest
bit of `v`, and one more if the product needs it. -/
def productLength (x : HeftyInteger) (v : Nat) : Nat :=
  if v = 0 then 1 else width (x.length + v.log2 / 8) (x.value * v)

/-- A shift that is added to a smaller product. -/
theorem width_max {x : HeftyInteger} (hx : 0 ≤ x.value) {v n : Nat} (hv : v < 2 ^ n) :
    width (max (productLength x v) (width (x.length + n / 8) (x.value * 2 ^ n)))
        (x.value * (v + 2 ^ n : Nat)) = width (x.length + n / 8) (x.value * (v + 2 ^ n : Nat)) := by
  have hlen := x.length_pos
  have hpow : (0 : Int) ≤ 2 ^ n := by positivity
  have hvn : (v : Int) ≤ 2 ^ n := by exact_mod_cast Nat.le_of_lt hv
  have hsmall : x.value * v ≤ x.value * 2 ^ n := Int.mul_le_mul_of_nonneg_left hvn hx
  have hsum : x.value * (v + 2 ^ n : Nat) = x.value * v + x.value * 2 ^ n := by
    push_cast
    ring
  have hnonneg : 0 ≤ x.value * v := Int.mul_nonneg hx (Int.natCast_nonneg v)
  have hnonneg' : 0 ≤ x.value * 2 ^ n := Int.mul_nonneg hx hpow
  -- one byte more is always enough
  have hfit : Fits (x.length + n / 8 + 1) (x.value * (v + 2 ^ n : Nat)) := by
    have hhigh := x.fits.2
    have hle : (2 : Int) ^ (8 * x.length) * 2 ^ (n + 1) ≤ 2 ^ (8 * (x.length + n / 8 + 1)) := by
      rw [← pow_add]
      exact pow_le_pow_right₀ (by decide) (by omega)
    have hmul : (2 * x.value) * 2 ^ (n + 1) ≤ 2 ^ (8 * x.length) * 2 ^ (n + 1) :=
      Int.mul_le_mul_of_nonneg_right (Int.le_of_lt hhigh) (by positivity)
    have hpos : (0 : Int) < 2 ^ (8 * (x.length + n / 8 + 1)) := by positivity
    rw [pow_succ] at hmul hle
    have hdouble : 2 * x.value * (2 ^ n * 2) = 4 * (x.value * 2 ^ n) := by ring
    have hlt : x.value * v + x.value * 2 ^ n < 2 * (x.value * 2 ^ n) ∨ x.value * 2 ^ n = 0 := by
      rcases Int.lt_or_eq_of_le hx with hpos | hzero
      · have hlt := Int.mul_lt_mul_of_pos_left (show (v : Int) < 2 ^ n by exact_mod_cast hv) hpos
        exact .inl (by omega)
      · exact .inr (by rw [← hzero, Int.zero_mul])
    rw [hsum]
    constructor <;> omega
  have hshort : productLength x v ≤ width (x.length + n / 8) (x.value * 2 ^ n) := by
    unfold productLength
    split
    · exact Nat.le_trans (by omega) (le_width _ _)
    · rename_i hv0
      have hlog : v.log2 < n := (Nat.log2_lt hv0).mpr hv
      have hbytes : v.log2 / 8 ≤ n / 8 := Nat.div_le_div_right (Nat.le_of_lt hlog)
      refine width_le (Nat.le_trans (by omega) (le_width _ _)) ?_
      unfold width
      split
      · rename_i h
        exact h.of_le hnonneg hsmall
      · exact hfit.of_le hnonneg (by omega)
  rw [Nat.max_eq_right hshort]
  unfold width
  by_cases hall : Fits (x.length + n / 8) (x.value * (v + 2 ^ n : Nat))
  · rw [if_pos (hall.of_le hnonneg' (by omega)), if_pos hall]
  · rw [if_neg hall]
    by_cases hold : Fits (x.length + n / 8) (x.value * 2 ^ n)
    · rw [if_pos hold, if_neg hall]
    · rw [if_neg hold, if_pos hfit]

theorem length_partialProduct {x : HeftyInteger} (hx : 0 ≤ x.value) (y : HeftyInteger) (n : Nat) :
    (partialProduct x y n).length = productLength x (unsigned y.val % 2 ^ n) := by
  induction n with
  | zero =>
    rw [pow_zero, Nat.mod_one]
    rfl
  | succ n ih =>
    have hv := Nat.mod_lt (unsigned y.val) (Nat.two_pow_pos n)
    unfold partialProduct
    rw [Nat.mod_pow_succ]
    split
    · rename_i hone
      have hlog : (unsigned y.val % 2 ^ n + 2 ^ n).log2 = n := by
        rw [Nat.log2_eq_iff (by omega), Nat.pow_succ]
        omega
      have hlength : productLength x (unsigned y.val % 2 ^ n + 2 ^ n) =
          width (x.length + n / 8) (x.value * (unsigned y.val % 2 ^ n + 2 ^ n : Nat)) := by
        have hpos := Nat.two_pow_pos n
        unfold productLength
        rw [if_neg (by omega), hlog]
      have hmax := width_max hx hv
      rw [hone, Nat.mul_one, hlength, ← hmax, length_add, ih, length_shifted_of_nonneg hx,
        value_partialProduct, value_shifted, ← Int.mul_add]
      push_cast
      rfl
    · rw [ih, show unsigned y.val / 2 ^ n % 2 = 0 by omega, Nat.mul_zero, Nat.add_zero]

theorem magnitude_spec (a : HeftyInteger) :
    a.magnitude.value = |a.value| ∧ (unsigned a.magnitude.val : Int) = |a.value| ∧
      a.magnitude.length ≤ a.length + 1 ∧ (0 ≤ a.value → a.magnitude = a) := by
  have hvalue : a.magnitude.value = |a.value| ∧ a.magnitude.length ≤ a.length + 1 ∧
      (0 ≤ a.value → a.magnitude = a) := by
    unfold magnitude
    by_cases ha : a.value < 0
    · rcases negate_spec a with ⟨hneg, hlength, -⟩
      rw [(isNegative_iff a).mpr ha, if_pos rfl, hneg, abs_of_neg ha]
      exact ⟨rfl, hlength, fun h => absurd ha (Int.not_lt.mpr h)⟩
    · have hnonneg := Int.not_lt.mp ha
      rw [(not_isNegative_iff a).mpr hnonneg, if_neg (by decide), abs_of_nonneg hnonneg]
      exact ⟨rfl, Nat.le_succ _, fun _ => rfl⟩
  rcases hvalue with ⟨hvalue, hlength, hsame⟩
  refine ⟨hvalue, ?_, hlength, hsame⟩
  rw [← hvalue]
  exact (value_of_nonneg (by rw [hvalue]; exact abs_nonneg _)).symm

theorem length_magnitude_width (a : HeftyInteger) :
    a.magnitude.length = width a.length |a.value| := by
  by_cases ha : a.value < 0
  · have hnegate : a.magnitude = a.negate := by
      unfold magnitude
      rw [(isNegative_iff a).mpr ha, if_pos rfl]
    rw [hnegate, length_negate, abs_of_neg ha]
  · have hnonneg := Int.not_lt.mp ha
    rw [(magnitude_spec a).2.2.2 hnonneg, abs_of_nonneg hnonneg, width_of_fits a.fits]

theorem magnitude_nonneg (a : HeftyInteger) : 0 ≤ a.magnitude.value := by
  rw [(magnitude_spec a).1]
  exact abs_nonneg _

theorem tryMagnitude_eq (h : a.length < 2 ^ 31) : a.tryMagnitude = newArray a.magnitude := by
  unfold tryMagnitude magnitude
  split
  · rfl
  · exact (newArray_of_lt h).symm

theorem le_length_magnitude (a : HeftyInteger) : a.length ≤ a.magnitude.length := by
  rw [length_magnitude_width]
  exact le_width _ _

theorem tryMagnitude_of_lt (h : a.magnitude.length < 2 ^ 31) :
    a.tryMagnitude = .ok a.magnitude := by
  have hle := a.le_length_magnitude
  rw [tryMagnitude_eq (by omega), newArray_of_lt h]

/-- The longer factor; of two equally long ones the second. -/
def longer (a b : HeftyInteger) : HeftyInteger := if a.length > b.length then a else b

/-- The factor whose bits are read. -/
def shorter (a b : HeftyInteger) : HeftyInteger := if a.length > b.length then b else a

/-- The number of bits of the shorter factor that are read: `8 * length` is an `int`. -/
def bitsRead (a b : HeftyInteger) : Nat := (wrap (8 * (shorter a b).magnitude.length)).toNat

theorem longer_mul_shorter (a b : HeftyInteger) :
    (longer a b).value * (shorter a b).value = a.value * b.value := by
  unfold longer shorter
  split
  · rfl
  · exact Int.mul_comm _ _

theorem multiply_eq (a b : HeftyInteger) : a.multiply b =
    (do
      let x ← (longer a b).tryMagnitude
      let y ← (shorter a b).tryMagnitude
      let result ← (List.range (wrap (8 * y.length)).toNat).foldlM (multiplyStep x y) zero
      if (longer a b).isNegative ^^ (shorter a b).isNegative then result.tryNegate
      else pure result) := by
  unfold multiply longer shorter
  by_cases h : a.length > b.length
  · simp only [if_pos h]
  · simp only [if_neg h]

/-- The bytes of a product. -/
def product (a b : HeftyInteger) : HeftyInteger :=
  let r := partialProduct (longer a b).magnitude (shorter a b).magnitude (bitsRead a b)
  if (longer a b).isNegative ^^ (shorter a b).isNegative then r.negate else r

theorem partialProduct_nonneg {x y : HeftyInteger} (hx : 0 ≤ x.value) (n : Nat) :
    0 ≤ (partialProduct x y n).value := by
  rw [value_partialProduct]
  exact Int.mul_nonneg hx (Int.natCast_nonneg _)

/-- The absolute values and the product are the arrays that count. -/
theorem multiply_of_lt (hx : (longer a b).magnitude.length < 2 ^ 31)
    (hy : (shorter a b).magnitude.length < 2 ^ 31) : a.multiply b = newArray (product a b) := by
  rw [multiply_eq, tryMagnitude_of_lt hx, ok_bind, tryMagnitude_of_lt hy, ok_bind, ← bitsRead,
    multiplyLoop_eq _ _ (by rw [bitsRead])]
  unfold product
  dsimp only
  split
  · refine newArray_bind negate ?_
    rw [length_negate]
    exact le_width _ _
  · exact bind_pure _

/-- The product gets its sign. -/
theorem value_signed_product {x y r : HeftyInteger} {n : Int}
    (h : r.value = |x.value| * (|y.value| % n)) :
    (if x.isNegative ^^ y.isNegative then r.negate else r).value =
      x.value * (y.value.sign * (|y.value| % n)) := by
  by_cases hy : y.value < 0
  · rw [(isNegative_iff y).mpr hy, Bool.xor_true, Int.sign_eq_neg_one_of_neg hy]
    by_cases hx : x.value < 0
    · rw [(isNegative_iff x).mpr hx, if_neg (by decide), h, abs_of_neg hx]
      ring
    · rw [(not_isNegative_iff x).mpr (by omega), if_pos (by decide), value_negate, h,
        abs_of_nonneg (by omega)]
      ring
  · rw [(not_isNegative_iff y).mpr (by omega), Bool.xor_false]
    have hsign : y.value.sign * (|y.value| % n) = |y.value| % n := by
      by_cases hzero : y.value = 0
      · rw [hzero, abs_zero, Int.zero_emod, Int.mul_zero]
      · rw [Int.sign_eq_one_of_pos (by omega), Int.one_mul]
    rw [hsign]
    by_cases hx : x.value < 0
    · rw [(isNegative_iff x).mpr hx, if_pos rfl, value_negate, h, abs_of_neg hx]
      ring
    · rw [(not_isNegative_iff x).mpr (by omega), if_neg (by decide), h, abs_of_nonneg (by omega)]

/-- What a multiplication computes: of the shorter factor only the bits below `bitsRead`
count. -/
theorem value_product (a b : HeftyInteger) : (product a b).value = (longer a b).value *
    ((shorter a b).value.sign * (|(shorter a b).value| % 2 ^ bitsRead a b)) := by
  refine value_signed_product ?_
  rw [value_partialProduct, (magnitude_spec (longer a b)).1, Int.natCast_emod,
    (magnitude_spec (shorter a b)).2.1, Nat.cast_pow, Nat.cast_ofNat]

theorem length_product (a b : HeftyInteger) : (product a b).length =
    productLength (longer a b).magnitude ((shorter a b).value.natAbs % 2 ^ bitsRead a b) := by
  have hunsigned : unsigned (shorter a b).magnitude.val = (shorter a b).value.natAbs := by
    have habs := (magnitude_spec (shorter a b)).2.1
    rw [Int.abs_eq_natAbs] at habs
    exact_mod_cast habs
  rw [← hunsigned, ← length_partialProduct (magnitude_nonneg _)]
  unfold product
  dsimp only
  split
  · exact length_negate_of_nonneg (partialProduct_nonneg (magnitude_nonneg _) _)
  · rfl

/-- A product is right if all bits of the shorter factor are read. -/
theorem product_right_iff (a b : HeftyInteger) : (product a b).value = a.value * b.value ↔
    (longer a b).value = 0 ∨ |(shorter a b).value| < 2 ^ bitsRead a b := by
  have hpos : (0 : Int) < 2 ^ bitsRead a b := by positivity
  rw [value_product, ← longer_mul_shorter, mul_eq_mul_left_iff, or_comm]
  generalize (shorter a b).value = v at *
  refine or_congr_right ?_
  conv_lhs => rhs; rw [← Int.sign_mul_abs v]
  by_cases hzero : v = 0
  · subst hzero
    rw [abs_zero, Int.zero_emod]
    exact iff_of_true rfl hpos
  · have hsign : v.sign ≠ 0 := mt Int.sign_eq_zero_iff_zero.mp hzero
    rw [mul_right_inj' hsign]
    constructor
    · intro hmod
      rw [← hmod]
      exact Int.emod_lt_of_pos _ hpos
    · exact Int.emod_eq_of_lt (abs_nonneg v)

/-- The arrays of a multiplication can be made. -/
structure ProductFits (a b : HeftyInteger) : Prop where
  first : width (longer a b).length |(longer a b).value| < 2 ^ 31
  second : width (shorter a b).length |(shorter a b).value| < 2 ^ 31
  product : productLength (longer a b).magnitude
    ((shorter a b).value.natAbs % 2 ^ bitsRead a b) < 2 ^ 31

theorem multiply_of_fits (h : ProductFits a b) :
    a.multiply b = .ok (product a b) := by
  rcases h with ⟨hx, hy, hproduct⟩
  rw [← length_magnitude_width] at hx hy
  rw [multiply_of_lt hx hy, newArray_of_lt]
  rw [length_product]
  exact hproduct

theorem multiply_correct_iff (ha : a.length < 2 ^ 31) (hb : b.length < 2 ^ 31) :
    (∃ r, a.multiply b = .ok r ∧ r.value = a.value * b.value) ↔ ProductFits a b ∧
      ((longer a b).value = 0 ∨ |(shorter a b).value| < 2 ^ bitsRead a b) := by
  have hx : (longer a b).length < 2 ^ 31 := by
    unfold longer
    split <;> assumption
  have hy : (shorter a b).length < 2 ^ 31 := by
    unfold shorter
    split <;> assumption
  rw [← product_right_iff]
  constructor
  · rintro ⟨r, hr, hvalue⟩
    by_cases hxm : (longer a b).magnitude.length < 2 ^ 31
    · by_cases hym : (shorter a b).magnitude.length < 2 ^ 31
      · rw [multiply_of_lt hxm hym] at hr
        by_cases hlt : (product a b).length < 2 ^ 31
        · rw [newArray_of_lt hlt] at hr
          cases hr
          rw [length_product] at hlt
          rw [length_magnitude_width] at hxm hym
          exact ⟨⟨hxm, hym, hlt⟩, hvalue⟩
        · rw [newArray_of_le (Nat.not_lt.mp hlt)] at hr
          cases hr
      · rw [multiply_eq, tryMagnitude_of_lt hxm, tryMagnitude_eq hy,
          newArray_of_le (Nat.not_lt.mp hym)] at hr
        cases hr
    · rw [multiply_eq, tryMagnitude_eq hx, newArray_of_le (Nat.not_lt.mp hxm)] at hr
      cases hr
  · rintro ⟨hfits, hvalue⟩
    exact ⟨_, multiply_of_fits hfits, hvalue⟩

/-- All bits are read if their number is an `int`. -/
theorem product_right (h : 8 * (shorter a b).magnitude.length < 2 ^ 31) :
    (product a b).value = a.value * b.value := by
  refine (product_right_iff a b).mpr (.inr ?_)
  have hbits : bitsRead a b = 8 * (shorter a b).magnitude.length := by
    have hwrap := wrap_eq h
    push_cast at hwrap
    unfold bitsRead
    rw [hwrap]
    omega
  rw [hbits, ← (magnitude_spec (shorter a b)).2.1]
  exact_mod_cast unsigned_lt (shorter a b).magnitude.val

/-- The operations of a ring, and the shifts, on two integers. -/
structure RingCorrect (a b : HeftyInteger) (n : Nat) : Prop where
  add : ∃ r, a.tryAdd b = .ok r ∧ r.value = a.value + b.value
  negate : ∃ r, a.tryNegate = .ok r ∧ r.value = -a.value
  subtract : ∃ r, a.subtract b = .ok r ∧ r.value = a.value - b.value
  multiply : ∃ r, a.multiply b = .ok r ∧ r.value = a.value * b.value
  leftShift : ∃ r, a.leftShift n = .ok r ∧ r.value = a.value * 2 ^ n
  rightShift : ∃ r, a.rightShift n = .ok r ∧ r.value = a.value / 2 ^ n

/-- The arrays of the six operations can be made: what each of them adds to the operands
leaves a length that is an `int`. -/
structure RingFits (a b : HeftyInteger) (n : Nat) : Prop where
  add : width (max a.length b.length) (a.value + b.value) < 2 ^ 31
  negate : width a.length (-a.value) < 2 ^ 31
  subtract : width (max a.length (width b.length (-b.value))) (a.value - b.value) < 2 ^ 31
  multiply : ProductFits a b
  leftShift : a.shiftLength n < 2 ^ 31

/-- All operations are right except for an array that is too long for its length and for a
product of which not all bits are read. -/
theorem ring_correct_iff (a b : HeftyInteger) (n : Nat) :
    RingCorrect a b n ↔ RingFits a b n ∧
      ((longer a b).value = 0 ∨ |(shorter a b).value| < 2 ^ bitsRead a b) := by
  have hadd := newArray_iff (P := fun r => r.value = a.value + b.value) (value_add a b)
  have hnegate := newArray_iff (P := fun r => r.value = -a.value) (value_negate a)
  have hsubtract := newArray_iff (P := fun r => r.value = a.value - b.value) (value_minus a b)
  have hshift := newArray_iff (P := fun r => r.value = a.value * 2 ^ n) (value_shifted a n)
  rw [length_add] at hadd
  rw [length_negate] at hnegate
  rw [← subtract_eq, length_minus] at hsubtract
  rw [← leftShift_eq, length_shifted_eq] at hshift
  have hle := le_width (max a.length b.length) (a.value + b.value)
  constructor
  · intro h
    have hlt := hadd.mp h.add
    have hproduct := (multiply_correct_iff (by omega) (by omega)).mp h.multiply
    exact ⟨⟨hlt, hnegate.mp h.negate, hsubtract.mp h.subtract, hproduct.1,
      hshift.mp h.leftShift⟩, hproduct.2⟩
  · rintro ⟨hfits, hbits⟩
    have hlt := hfits.add
    exact ⟨hadd.mpr hlt, hnegate.mpr hfits.negate, hsubtract.mpr hfits.subtract,
      (multiply_correct_iff (by omega) (by omega)).mpr ⟨hfits.multiply, hbits⟩,
      hshift.mpr hfits.leftShift, rightShift_spec a n⟩

/-- The same integer in `n` more bytes. -/
def widened (a : HeftyInteger) (n : Nat) : HeftyInteger :=
  ⟨a.padded n, by
    unfold padded
    simp [a.nonempty]⟩

theorem value_widened (a : HeftyInteger) (n : Nat) : (a.widened n).value = a.value :=
  (a.padded_spec n).1

theorem length_widened (a : HeftyInteger) (n : Nat) : (a.widened n).length = n + a.length :=
  (a.padded_spec n).2

/-- One in `2 ^ 28` bytes. -/
def wideOne : HeftyInteger := one.widened (2 ^ 28 - 1)

theorem value_wideOne : wideOne.value = 1 := by
  unfold wideOne
  rw [value_widened]
  decide

theorem length_wideOne : wideOne.length = 2 ^ 28 := by
  unfold wideOne
  rw [length_widened]
  decide

/-- With `2 ^ 28` bytes the number of bits is not an `int`: one times one is zero. -/
theorem not_ring_correct : ¬ ∀ (a b : HeftyInteger) (n : Nat), RingCorrect a b n := by
  intro hall
  have hmagnitude : wideOne.magnitude = wideOne := by
    refine (magnitude_spec wideOne).2.2.2 ?_
    rw [value_wideOne]
    decide
  have hbits : bitsRead wideOne wideOne = 0 := by
    unfold bitsRead shorter
    rw [if_neg (Nat.lt_irrefl _), hmagnitude, length_wideOne]
    decide
  have hcases := ((ring_correct_iff _ _ _).mp (hall wideOne wideOne 0)).2
  unfold longer shorter at hcases
  rw [if_neg (Nat.lt_irrefl _), hbits, value_wideOne] at hcases
  exact absurd hcases (by decide)

end HeftyInteger

end PittCs.Hefty
