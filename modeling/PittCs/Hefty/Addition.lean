import PittCs.Hefty.Integer

/-!
# Addition

The integer an array stands for, its sum and its negation. A result has the length
of the longer operand as long as it fits into it.
-/

namespace PittCs.Hefty

open PittCs.Lib.Digits List

/-- The numbers that `n` bytes hold in two's complement. -/
def Fits (n : Nat) (v : Int) : Prop := -2 ^ (8 * n) ≤ 2 * v ∧ 2 * v < 2 ^ (8 * n)

theorem Fits.mono {m n : Nat} {v : Int} (h : Fits m v) (hmn : m ≤ n) : Fits n v := by
  have hpow : (2 : Int) ^ (8 * m) ≤ 2 ^ (8 * n) := pow_le_pow_right₀ (by decide) (by omega)
  rcases h with ⟨hlow, hhigh⟩
  exact ⟨by omega, by omega⟩

instance (n : Nat) (v : Int) : Decidable (Fits n v) := inferInstanceAs (Decidable (_ ∧ _))

/-- The bytes that hold `v` when `n` are there already and one can be put in front. -/
def width (n : Nat) (v : Int) : Nat := if Fits n v then n else n + 1

theorem width_of_fits {n : Nat} {v : Int} (h : Fits n v) : width n v = n := if_pos h

theorem le_width (n : Nat) (v : Int) : n ≤ width n v := by
  unfold width
  split <;> omega

theorem width_le {n k : Nat} {v : Int} (hn : n ≤ k) (h : Fits k v) : width n v ≤ k := by
  unfold width
  split
  · exact hn
  · rename_i hnot
    have hne : n ≠ k := fun heq => hnot (heq ▸ h)
    omega

/-- Between zero and a number that fits. -/
theorem Fits.of_le {n : Nat} {v w : Int} (h : Fits n w) (hv : 0 ≤ v) (hle : v ≤ w) : Fits n v := by
  have hpos : (0 : Int) ≤ 2 ^ (8 * n) := by positivity
  have hhigh := h.2
  exact ⟨by omega, by omega⟩

theorem fits_signed (l : List Byte) : Fits l.length (signed l) :=
  ⟨le_two_mul_signed l, two_mul_signed_lt (by decide) l⟩

/-! ## Addition -/

theorem addLoop_carry (as bs : List Byte) : (addLoop as bs).2 ≤ 1 := by
  induction as generalizing bs with
  | nil => exact Nat.zero_le 1
  | cons a as ih =>
    cases bs with
    | nil => exact Nat.zero_le 1
    | cons b bs =>
      have ha := a.isLt
      have hb := b.isLt
      have hc := ih bs
      unfold addLoop
      dsimp only
      rw [Nat.shiftRight_eq_div_pow]
      omega

/-- The loop adds with carry. -/
theorem addLoop_spec {as bs : List Byte} (h : as.length = bs.length) :
    unsigned (addLoop as bs).1 + (addLoop as bs).2 * 2 ^ (8 * as.length) =
      unsigned as + unsigned bs := by
  induction as generalizing bs with
  | nil =>
    cases bs with
    | nil => rfl
    | cons b bs => cases h
  | cons a as ih =>
    cases bs with
    | nil => cases h
    | cons b bs =>
      have hlen : as.length = bs.length := by simpa using h
      have hrest := ih hlen
      have ha := a.isLt
      have hb := b.isLt
      have hc := addLoop_carry as bs
      unfold addLoop
      dsimp only
      rw [unsigned_cons, unsigned_cons, unsigned_cons, toNat_toByte_mask, length_addLoop hlen,
        ← hlen, length_cons, pow_succ_digit, BitVec.toNat_ofNat, Nat.shiftRight_eq_div_pow,
        Nat.mod_eq_of_lt (b := 2 ^ 32) (by omega)]
      have hcarry : (a.toNat + b.toNat + (addLoop as bs).2) % 256 +
          (a.toNat + b.toNat + (addLoop as bs).2) / 2 ^ 8 * 2 ^ 8 =
          a.toNat + b.toNat + (addLoop as bs).2 := by omega
      calc _ = ((a.toNat + b.toNat + (addLoop as bs).2) % 256 +
            (a.toNat + b.toNat + (addLoop as bs).2) / 2 ^ 8 * 2 ^ 8) * 2 ^ (8 * as.length) +
            unsigned (addLoop as bs).1 := by ring
        _ = (a.toNat + b.toNat) * 2 ^ (8 * as.length) + (unsigned (addLoop as bs).1 +
            (addLoop as bs).2 * 2 ^ (8 * as.length)) := by rw [hcarry]; ring
        _ = _ := by rw [hrest]; ring

/-- The bytes in front do not change the number. -/
theorem HeftyInteger.val_eq (a : HeftyInteger) : a.val = a.first :: a.val.tail :=
  (cons_head_tail a.nonempty).symm

namespace HeftyInteger

/-- The integer that the bytes stand for. -/
def value (a : HeftyInteger) : Int := signed a.val

variable {a b : HeftyInteger}

theorem fits (a : HeftyInteger) : Fits a.length a.value := fits_signed a.val

theorem isNegative_iff (a : HeftyInteger) : a.isNegative = true ↔ a.value < 0 := by
  unfold value isNegative
  rw [a.val_eq, signed_neg_iff, BitVec.slt_iff_toInt_lt]
  exact Iff.rfl

theorem not_isNegative_iff (a : HeftyInteger) : a.isNegative = false ↔ 0 ≤ a.value := by
  rw [← Bool.not_eq_true, isNegative_iff, Int.not_lt]

theorem value_of_neg (h : a.value < 0) : a.value = unsigned a.val - 2 ^ (8 * a.length) :=
  signed_eq_sub h

theorem value_of_nonneg (h : 0 ≤ a.value) : a.value = unsigned a.val := signed_eq_unsigned h

theorem padded_spec (a : HeftyInteger) (n : Nat) :
    signed (a.padded n) = a.value ∧ (a.padded n).length = n + a.length := by
  have hdigit : (if a.isNegative then (0xFF : Byte) else 0) = signDigit a.first := by
    unfold signDigit isNegative
    simp only [BitVec.slt_iff_toInt_lt]
    rfl
  unfold padded value length
  rw [hdigit]
  refine ⟨?_, by rw [length_append, length_replicate]⟩
  rw [a.val_eq]
  exact signed_extend (by decide) n _ _

/-- The bytes are those of the sum; between numbers without a sign nothing is left
over. -/
theorem sum_spec (h : b.length ≤ a.length) :
    (sum a b h).1.length = a.length ∧
      (2 : Int) ^ (8 * a.length) ∣ unsigned (sum a b h).1.val - (a.value + b.value) ∧
      (0 ≤ a.value → 0 ≤ b.value → (sum a b h).2 = 0) := by
  rcases b.padded_spec (a.length - b.length) with ⟨hpadded, hlength⟩
  rw [Nat.sub_add_cancel h] at hlength
  have hloop := addLoop_spec hlength.symm
  have hlen := length_addLoop hlength.symm
  refine ⟨hlen, ?_, ?_⟩
  · have ha := dvd_unsigned_sub_signed a.val
    have hb := dvd_unsigned_sub_signed (b.padded (a.length - b.length))
    rw [hlength, hpadded] at hb
    have hcast : (unsigned (sum a b h).1.val : Int) + (sum a b h).2 * 2 ^ (8 * a.length) =
        unsigned a.val + unsigned (b.padded (a.length - b.length)) := by
      exact_mod_cast hloop
    have heq : (unsigned (sum a b h).1.val : Int) - (a.value + b.value) =
        (unsigned a.val - signed a.val) +
          (unsigned (b.padded (a.length - b.length)) - b.value) -
          2 ^ (8 * a.length) * (sum a b h).2 := by
      unfold value
      linarith
    rw [heq]
    exact Int.dvd_sub (Int.dvd_add ha hb) (Int.dvd_mul_right _ _)
  · intro ha hb
    have hfita := (fits_signed a.val).2
    have hfitb := (fits_signed (b.padded (a.length - b.length))).2
    rw [hlength, hpadded] at hfitb
    have hsmall : unsigned a.val + unsigned (b.padded (a.length - b.length)) <
        2 ^ (8 * a.length) := by
      rw [signed_eq_unsigned ha] at hfita
      rw [← hpadded] at hb hfitb
      rw [signed_eq_unsigned hb] at hfitb
      have hcast : (unsigned a.val : Int) + unsigned (b.padded (a.length - b.length)) <
          2 ^ (8 * a.length) := by
        unfold length at hfitb ⊢
        omega
      exact_mod_cast hcast
    rw [← hloop] at hsmall
    by_contra hcarry
    have hbig : 2 ^ (8 * a.val.length) ≤
        (addLoop a.val (b.padded (a.length - b.length))).2 * 2 ^ (8 * a.val.length) :=
      Nat.le_mul_of_pos_left _ (Nat.pos_of_ne_zero hcarry)
    unfold length at hsmall hbig
    omega

/-- A number without a sign is known modulo its length. -/
theorem unsigned_eq_of_dvd {l : List Byte} {v : Int} (hdvd : (2 : Int) ^ (8 * l.length) ∣ unsigned l - v)
    (hnonneg : 0 ≤ v) (hlt : v < 2 ^ (8 * l.length)) : (unsigned l : Int) = v := by
  have hunsigned : (unsigned l : Int) < 2 ^ (8 * l.length) := by exact_mod_cast unsigned_lt l
  have hzero : (unsigned l : Int) - v = 0 := by
    refine Int.eq_zero_of_abs_lt_dvd hdvd ?_
    rw [abs_lt]
    constructor <;> omega
  omega

theorem value_extend_zero (a : HeftyInteger) : (a.extend 0).value = unsigned a.val := by
  unfold extend value
  rw [signed_cons]
  simp

theorem value_extend_ones (a : HeftyInteger) :
    (a.extend 0xFF).value = unsigned a.val - 2 ^ (8 * a.length) := by
  have hones : (0xFF : Byte).toInt = -1 := by decide
  unfold extend value
  rw [signed_cons, hones]
  unfold length
  ring

theorem add_spec (a b : HeftyInteger) :
    (a.add b).value = a.value + b.value ∧ (a.add b).length ≤ max a.length b.length + 1 ∧
      (Fits (max a.length b.length) (a.value + b.value) →
        (a.add b).length = max a.length b.length) := by
  have hfita := a.fits.mono (Nat.le_max_left a.length b.length)
  have hfitb := b.fits.mono (Nat.le_max_right a.length b.length)
  obtain ⟨res, carry, hres, hlength, hdvd, hcarry⟩ : ∃ (res : HeftyInteger) (carry : Nat),
      (if h : a.length < b.length then sum b a (Nat.le_of_lt h)
        else sum a b (Nat.not_lt.mp h)) = (res, carry) ∧
      res.length = max a.length b.length ∧
      (2 : Int) ^ (8 * max a.length b.length) ∣ unsigned res.val - (a.value + b.value) ∧
      (0 ≤ a.value → 0 ≤ b.value → carry = 0) := by
    by_cases h : a.length < b.length
    · rcases sum_spec (Nat.le_of_lt h) with ⟨hlength, hdvd, hcarry⟩
      rw [dif_pos h, Nat.max_eq_right (Nat.le_of_lt h)]
      rw [Int.add_comm] at hdvd
      exact ⟨_, _, rfl, hlength, hdvd, fun ha hb => hcarry hb ha⟩
    · rcases sum_spec (Nat.not_lt.mp h) with ⟨hlength, hdvd, hcarry⟩
      rw [dif_neg h, Nat.max_eq_left (Nat.not_lt.mp h)]
      exact ⟨_, _, rfl, hlength, hdvd, hcarry⟩
  generalize max a.length b.length = n at *
  subst hlength
  rcases hfita with ⟨hlowa, hhigha⟩
  rcases hfitb with ⟨hlowb, hhighb⟩
  rcases res.fits with ⟨hlow, hhigh⟩
  unfold add
  rw [hres]
  dsimp only
  by_cases ha : a.value < 0
  · rw [(isNegative_iff a).mpr ha]
    by_cases hb : b.value < 0
    · -- both are negative: the number without a sign is off by the range of the length
      have hsum : (unsigned res.val : Int) = a.value + b.value + 2 ^ (8 * res.length) := by
        refine unsigned_eq_of_dvd ?_ (by omega) (by unfold length at *; omega)
        have hshift := Int.dvd_sub hdvd (dvd_refl _)
        rw [sub_sub] at hshift
        exact hshift
      rw [(isNegative_iff b).mpr hb, if_neg (by decide), if_pos (by decide)]
      by_cases hr : res.value < 0
      · rw [(isNegative_iff res).mpr hr, if_neg (by decide)]
        have hval := value_of_neg hr
        exact ⟨by omega, Nat.le_succ _, fun _ => rfl⟩
      · rw [(not_isNegative_iff res).mpr (by omega), if_pos (by decide)]
        have hval := value_of_nonneg (Int.not_lt.mp hr)
        refine ⟨by rw [value_extend_ones]; omega, Nat.le_refl _, fun hfit => ?_⟩
        have hfit := hfit.1
        omega
    · rw [(not_isNegative_iff b).mpr (by omega), if_neg (by decide), if_neg (by decide)]
      refine ⟨signed_unique (by decide) hdvd ?_ ?_, Nat.le_succ _, fun _ => rfl⟩ <;>
        (unfold length at *; omega)
  · rw [(not_isNegative_iff a).mpr (by omega)]
    by_cases hb : b.value < 0
    · rw [(isNegative_iff b).mpr hb, if_neg (by decide), if_neg (by decide)]
      refine ⟨signed_unique (by decide) hdvd ?_ ?_, Nat.le_succ _, fun _ => rfl⟩ <;>
        (unfold length at *; omega)
    · -- none is negative: the number without a sign is the sum
      have hsum : (unsigned res.val : Int) = a.value + b.value :=
        unsigned_eq_of_dvd hdvd (by omega) (by unfold length at *; omega)
      rw [(not_isNegative_iff b).mpr (by omega), if_pos (by decide)]
      by_cases hr : res.value < 0
      · rw [(isNegative_iff res).mpr hr, if_pos rfl, hcarry (by omega) (by omega)]
        have hval := value_of_neg hr
        refine ⟨?_, Nat.le_refl _, fun hfit => ?_⟩
        · rw [← hsum]
          exact value_extend_zero res
        · have hfit := hfit.2
          omega
      · rw [(not_isNegative_iff res).mpr (by omega), if_neg (by decide)]
        have hval := value_of_nonneg (Int.not_lt.mp hr)
        exact ⟨by omega, Nat.le_succ _, fun _ => rfl⟩

theorem value_add (a b : HeftyInteger) : (a.add b).value = a.value + b.value := (add_spec a b).1

/-- A result that has one byte more at most has it only if it needs it. -/
theorem length_eq_width {r : HeftyInteger} {n : Nat} (hle : r.length ≤ n + 1)
    (hfit : Fits n r.value → r.length = n) : r.length = width n r.value := by
  unfold width
  split
  · rename_i h
    exact hfit h
  · rename_i h
    by_contra hne
    exact h (r.fits.mono (by omega))

theorem length_add (a b : HeftyInteger) :
    (a.add b).length = width (max a.length b.length) (a.value + b.value) := by
  rcases add_spec a b with ⟨hvalue, hle, hfit⟩
  rw [← hvalue] at hfit ⊢
  exact length_eq_width hle hfit

/-! ## Negation and subtraction -/

/-- The first byte `0x80` and zeros are the least number of a length. -/
theorem needsEx_iff (a : HeftyInteger) :
    (a.first = 0x80 ∧ ∀ b ∈ a.val.tail, b = 0) ↔ 2 * a.value = -2 ^ (8 * a.length) := by
  have hlength : a.length = a.val.tail.length + 1 := by
    unfold length
    rw [a.val_eq]
    rfl
  have hvalue : a.value = a.first.toInt * 2 ^ (8 * a.val.tail.length) + unsigned a.val.tail := by
    unfold value
    rw [a.val_eq, signed_cons]
    rfl
  have hpow : (2 : Int) ^ (8 * a.length) = 256 * 2 ^ (8 * a.val.tail.length) := by
    rw [hlength, Nat.mul_succ, pow_add]
    ring
  have hpos : (0 : Int) < 2 ^ (8 * a.val.tail.length) := by positivity
  rw [hvalue, hpow]
  constructor
  · rintro ⟨hfirst, hrest⟩
    have hzero : unsigned a.val.tail = 0 := unsigned_eq_zero_iff.mpr hrest
    have hmin : (0x80 : Byte).toInt = -128 := by decide
    rw [hfirst, hzero, hmin]
    ring
  · intro hmin
    have hge : 0 ≤ a.first.toInt + 128 := by
      have hle : -128 ≤ a.first.toInt := BitVec.le_toInt _
      omega
    have hprod : 0 ≤ (a.first.toInt + 128) * 2 ^ (8 * a.val.tail.length) :=
      Int.mul_nonneg hge hpos.le
    have hsum : (a.first.toInt + 128) * 2 ^ (8 * a.val.tail.length) + unsigned a.val.tail = 0 := by
      linarith
    have hfirst : (a.first.toInt + 128) * 2 ^ (8 * a.val.tail.length) = 0 := by omega
    have hrest : unsigned a.val.tail = 0 := by omega
    refine ⟨?_, unsigned_eq_zero_iff.mp hrest⟩
    rcases Int.mul_eq_zero.mp hfirst with hzero | hzero
    · refine BitVec.eq_of_toInt_eq ?_
      have hmin : (0x80 : Byte).toInt = -128 := by decide
      omega
    · omega

theorem length_flipped (a : HeftyInteger) : (a.val.map (~~~ ·)).length = a.length :=
  length_map _

theorem signed_flipped (a : HeftyInteger) : signed (a.val.map (~~~ ·)) = -a.value - 1 :=
  signed_not (by decide) a.val a.nonempty

/-- The number to which a negation adds one. -/
theorem exists_negate_eq (a : HeftyInteger) :
    ∃ neg : HeftyInteger, a.negate = neg.add one ∧ neg.value = -a.value - 1 ∧
      ((2 * a.value = -2 ^ (8 * a.length) ∧ neg.length = a.length + 1) ∨
        (2 * a.value ≠ -2 ^ (8 * a.length) ∧ neg.length = a.length)) := by
  unfold negate
  dsimp only
  by_cases hex : a.first = 0x80 ∧ ∀ b ∈ a.val.tail, b = 0
  · -- the least number of its length: its complement gets a sign byte in front
    have hmin := (needsEx_iff a).mp hex
    rw [if_pos hex]
    refine ⟨_, rfl, ?_, .inl ⟨hmin, congrArg (· + 1) a.length_flipped⟩⟩
    have hnonneg : 0 ≤ signed (a.val.map (~~~ ·)) := by
      have hpos : (0 : Int) < 2 ^ (8 * a.length) := by positivity
      rw [signed_flipped]
      omega
    rw [← signed_flipped, signed_eq_unsigned hnonneg]
    exact value_extend_zero ⟨a.val.map (~~~ ·), by simpa using a.nonempty⟩
  · rw [if_neg hex]
    exact ⟨_, rfl, a.signed_flipped, .inr ⟨mt (needsEx_iff a).mpr hex, a.length_flipped⟩⟩

theorem negate_spec (a : HeftyInteger) :
    a.negate.value = -a.value ∧ a.negate.length ≤ a.length + 1 ∧
      (Fits a.length (-a.value) → a.negate.length = a.length) := by
  rcases a.fits with ⟨hlow, hhigh⟩
  have hlength := a.length_pos
  have hone : one.value = 1 ∧ one.length = 1 := ⟨by decide, rfl⟩
  rcases exists_negate_eq a with ⟨neg, heq, hvalue, hcases⟩
  rcases add_spec neg one with ⟨hadd, -, hfit⟩
  rw [heq, hadd, hvalue, hone.1]
  rw [hvalue, hone.1, hone.2] at hfit
  refine ⟨by omega, ?_⟩
  rcases hcases with ⟨hmin, hneg⟩ | ⟨hmin, hneg⟩
  · have hwide : (2 : Int) ^ (8 * (a.length + 1)) = 256 * 2 ^ (8 * a.length) := by
      rw [Nat.mul_succ, pow_add]
      ring
    rw [hneg, Nat.max_eq_left (by omega)] at hfit
    refine ⟨Nat.le_of_eq (hfit ⟨by omega, by omega⟩), fun hsame => ?_⟩
    have hsame := hsame.2
    omega
  · rw [hneg, Nat.max_eq_left (by omega)] at hfit
    have hsame := hfit ⟨by omega, by omega⟩
    exact ⟨by omega, fun _ => hsame⟩

theorem value_negate (a : HeftyInteger) : a.negate.value = -a.value := a.negate_spec.1

theorem length_negate (a : HeftyInteger) : a.negate.length = width a.length (-a.value) := by
  rcases negate_spec a with ⟨hvalue, hle, hfit⟩
  rw [← hvalue] at hfit ⊢
  exact length_eq_width hle hfit

theorem length_negate_of_nonneg (h : 0 ≤ a.value) : a.negate.length = a.length := by
  rcases a.fits with ⟨hlow, hhigh⟩
  exact a.negate_spec.2.2 ⟨by omega, by omega⟩

/-! ## Arrays that can be made -/

theorem newArray_of_lt (h : a.length < 2 ^ 31) : newArray a = .ok a := if_pos h

theorem newArray_of_le (h : 2 ^ 31 ≤ a.length) : newArray a = .error "NegativeArraySizeException" :=
  if_neg (Nat.not_lt.mpr h)

/-- An array that is made on the way to a longer one need not be looked at. -/
theorem newArray_bind (f : HeftyInteger → HeftyInteger) (h : a.length ≤ (f a).length) :
    (newArray a >>= fun r => newArray (f r)) = newArray (f a) := by
  by_cases hlt : a.length < 2 ^ 31
  · rw [newArray_of_lt hlt]
    rfl
  · rw [newArray_of_le (Nat.not_lt.mp hlt), newArray_of_le (by omega)]
    rfl

/-- What an operation promises is that its result is right and can be made. -/
theorem newArray_iff {P : HeftyInteger → Prop} (h : P a) :
    (∃ r, newArray a = .ok r ∧ P r) ↔ a.length < 2 ^ 31 := by
  by_cases hlt : a.length < 2 ^ 31
  · exact iff_of_true ⟨a, newArray_of_lt hlt, h⟩ hlt
  · refine iff_of_false ?_ hlt
    rintro ⟨r, hr, -⟩
    rw [newArray_of_le (Nat.not_lt.mp hlt)] at hr
    cases hr

/-- The bytes of a difference. -/
def minus (a b : HeftyInteger) : HeftyInteger := a.add b.negate

theorem value_minus (a b : HeftyInteger) : (a.minus b).value = a.value - b.value := by
  unfold minus
  rw [value_add, value_negate, Int.sub_eq_add_neg]

theorem length_minus (a b : HeftyInteger) : (a.minus b).length =
    width (max a.length (width b.length (-b.value))) (a.value - b.value) := by
  unfold minus
  rw [length_add, length_negate, value_negate, Int.sub_eq_add_neg]

theorem subtract_eq (a b : HeftyInteger) : a.subtract b = newArray (a.minus b) := by
  refine newArray_bind a.add ?_
  rw [length_add]
  exact Nat.le_trans (Nat.le_max_right _ _) (le_width _ _)

end HeftyInteger

end PittCs.Hefty
