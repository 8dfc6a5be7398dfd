import Mathlib.Data.Nat.Digits.Defs

/-!
# Digit strings

Numbers as lists of digits of `w` bits, the most significant digit first. A list
stands for a natural number, or for an integer in two's complement.
-/

namespace PittCs.Lib.Digits

open List

variable {w : Nat}

/-- The number without a sign. -/
def unsigned (ds : List (BitVec w)) : Nat := Nat.ofDigits (2 ^ w) (ds.reverse.map BitVec.toNat)

/-- The number in two's complement: the first digit has a sign. -/
def signed : List (BitVec w) → Int
  | [] => 0
  | d :: ds => d.toInt * 2 ^ (w * ds.length) + unsigned ds

variable {d : BitVec w} {ds hi lo : List (BitVec w)}

theorem pow_succ_digit (w n : Nat) : 2 ^ (w * (n + 1)) = 2 ^ w * 2 ^ (w * n) := by
  rw [Nat.mul_succ, Nat.pow_add, Nat.mul_comm]

/-! ## Without a sign -/

@[simp] theorem unsigned_nil : unsigned ([] : List (BitVec w)) = 0 := rfl

theorem unsigned_append (hi lo : List (BitVec w)) :
    unsigned (hi ++ lo) = unsigned hi * 2 ^ (w * lo.length) + unsigned lo := by
  unfold unsigned
  rw [reverse_append, map_append, Nat.ofDigits_append, length_map,
    length_reverse, ← Nat.pow_mul]
  ring

theorem unsigned_cons (d : BitVec w) (ds : List (BitVec w)) :
    unsigned (d :: ds) = d.toNat * 2 ^ (w * ds.length) + unsigned ds := by
  have hone : unsigned [d] = d.toNat := Nat.ofDigits_singleton
  rw [← singleton_append, unsigned_append, hone]

theorem unsigned_lt (ds : List (BitVec w)) : unsigned ds < 2 ^ (w * ds.length) := by
  induction ds with
  | nil => simp
  | cons d ds ih =>
    have hd := d.isLt
    rw [unsigned_cons, length_cons, pow_succ_digit]
    calc d.toNat * 2 ^ (w * ds.length) + unsigned ds
        < d.toNat * 2 ^ (w * ds.length) + 2 ^ (w * ds.length) := by omega
      _ = (d.toNat + 1) * 2 ^ (w * ds.length) := by ring
      _ ≤ 2 ^ w * 2 ^ (w * ds.length) := Nat.mul_le_mul_right _ hd

theorem unsigned_replicate_zero (n : Nat) : unsigned (List.replicate n (0#w)) = 0 := by
  induction n with
  | zero => rfl
  | succ n ih =>
    rw [replicate_succ, unsigned_cons, ih, BitVec.toNat_ofNat, Nat.zero_mod, Nat.zero_mul]

theorem unsigned_eq_zero_iff : unsigned ds = 0 ↔ ∀ d ∈ ds, d = 0#w := by
  induction ds with
  | nil => simp
  | cons d ds ih =>
    have hpos := Nat.two_pow_pos (w * ds.length)
    have hzero : d.toNat * 2 ^ (w * ds.length) = 0 ↔ d = 0#w := by
      rw [Nat.mul_eq_zero, or_iff_left (by omega), ← BitVec.toNat_inj, BitVec.toNat_ofNat,
        Nat.zero_mod]
    rw [unsigned_cons, Nat.add_eq_zero_iff, hzero, ih, forall_mem_cons]

/-- A first digit of zero adds nothing. -/
theorem unsigned_cons_lt_iff : unsigned (d :: ds) < 2 ^ (w * ds.length) ↔ d = 0#w := by
  have hlow := unsigned_lt ds
  rw [unsigned_cons]
  constructor
  · intro h
    have hzero : d.toNat = 0 := by
      by_contra hpos
      have hle := Nat.le_mul_of_pos_left (2 ^ (w * ds.length)) (Nat.pos_of_ne_zero hpos)
      omega
    exact BitVec.eq_of_toNat_eq hzero
  · intro h
    rw [h, BitVec.toNat_ofNat, Nat.zero_mod, Nat.zero_mul]
    omega

/-- A number has one digit string of each length. -/
theorem unsigned_inj {es : List (BitVec w)} (hlength : ds.length = es.length)
    (h : unsigned ds = unsigned es) : ds = es := by
  induction ds generalizing es with
  | nil => exact (length_eq_zero_iff.mp hlength.symm).symm
  | cons d ds ih =>
    cases es with
    | nil => cases hlength
    | cons e es =>
      have hsame : ds.length = es.length := Nat.succ.inj hlength
      have hds := unsigned_lt ds
      have hes := unsigned_lt es
      rw [unsigned_cons, unsigned_cons, hsame] at h
      rw [hsame] at hds
      -- the first digit is the quotient, the other digits are the remainder
      have hquot := congrArg (· / 2 ^ (w * es.length)) h
      have hrest := congrArg (· % 2 ^ (w * es.length)) h
      simp only [Nat.mul_comm _ (2 ^ (w * es.length)), Nat.mul_add_div (Nat.two_pow_pos _),
        Nat.mul_add_mod, Nat.div_eq_of_lt hds, Nat.div_eq_of_lt hes, Nat.mod_eq_of_lt hds,
        Nat.mod_eq_of_lt hes, Nat.add_zero] at hquot hrest
      rw [BitVec.eq_of_toNat_eq hquot, ih hsame hrest]

/-- A longer string of the same number has zeros in front. -/
theorem eq_replicate_append {es : List (BitVec w)} (hle : ds.length ≤ es.length)
    (h : unsigned ds = unsigned es) :
    es = List.replicate (es.length - ds.length) 0#w ++ ds := by
  refine (unsigned_inj ?_ ?_).symm
  · rw [length_append, length_replicate, Nat.sub_add_cancel hle]
  · rw [unsigned_append, unsigned_replicate_zero, Nat.zero_mul, Nat.zero_add, h]

/-- The complement of every digit. -/
theorem unsigned_not (ds : List (BitVec w)) :
    unsigned (ds.map (~~~ ·)) + unsigned ds + 1 = 2 ^ (w * ds.length) := by
  induction ds with
  | nil => rfl
  | cons d ds ih =>
    have hd := d.isLt
    rw [map_cons, unsigned_cons, unsigned_cons, length_map, length_cons,
      pow_succ_digit, BitVec.toNat_not]
    have hsum : 2 ^ w - 1 - d.toNat + d.toNat + 1 = 2 ^ w := by omega
    calc (2 ^ w - 1 - d.toNat) * 2 ^ (w * ds.length) + unsigned (ds.map (~~~ ·)) +
          (d.toNat * 2 ^ (w * ds.length) + unsigned ds) + 1
        = (2 ^ w - 1 - d.toNat + d.toNat) * 2 ^ (w * ds.length) +
          (unsigned (ds.map (~~~ ·)) + unsigned ds + 1) := by ring
      _ = (2 ^ w - 1 - d.toNat + d.toNat + 1) * 2 ^ (w * ds.length) := by rw [ih]; ring
      _ = 2 ^ w * 2 ^ (w * ds.length) := by rw [hsum]

/-! ## A digit of the number -/

/-- The digit before the last `n`. -/
theorem exists_split {n : Nat} (h : n < ds.length) :
    ∃ hi d lo, ds = hi ++ d :: lo ∧ lo.length = n := by
  refine ⟨ds.take (ds.length - n - 1), ds[ds.length - n - 1], ds.drop (ds.length - n - 1 + 1), ?_, ?_⟩
  · rw [← drop_eq_getElem_cons, take_append_drop]
  · rw [length_drop]
    omega

theorem unsigned_split (hi : List (BitVec w)) (d : BitVec w) (lo : List (BitVec w)) :
    unsigned (hi ++ d :: lo) =
      (unsigned hi * 2 ^ w + d.toNat) * 2 ^ (w * lo.length) + unsigned lo := by
  rw [unsigned_append, unsigned_cons, length_cons, pow_succ_digit]
  ring

/-- A bit of the number is a bit of its digit. -/
theorem unsigned_bit {r : Nat} (hr : r < w) :
    unsigned (hi ++ d :: lo) / 2 ^ (w * lo.length + r) % 2 = d.toNat / 2 ^ r % 2 := by
  have hlow := unsigned_lt lo
  have hdigit : unsigned (hi ++ d :: lo) / 2 ^ (w * lo.length) = unsigned hi * 2 ^ w + d.toNat := by
    rw [unsigned_split, Nat.mul_comm, Nat.mul_add_div (Nat.two_pow_pos _), Nat.div_eq_of_lt hlow,
      Nat.add_zero]
  have hsplit : 2 ^ w = 2 ^ r * (2 * 2 ^ (w - r - 1)) := by
    rw [← Nat.pow_succ', ← Nat.pow_add]
    congr 1
    omega
  rw [Nat.pow_add, ← Nat.div_div_eq_div_mul, hdigit, hsplit]
  have hsum : unsigned hi * (2 ^ r * (2 * 2 ^ (w - r - 1))) + d.toNat =
      2 ^ r * (2 * (unsigned hi * 2 ^ (w - r - 1))) + d.toNat := by ring
  rw [hsum, Nat.mul_add_div (Nat.two_pow_pos r), Nat.mul_add_mod]

/-! ## In two's complement -/

theorem signed_cons (d : BitVec w) (ds : List (BitVec w)) :
    signed (d :: ds) = d.toInt * 2 ^ (w * ds.length) + unsigned ds := rfl

theorem signed_append (hne : hi ≠ []) (lo : List (BitVec w)) :
    signed (hi ++ lo) = signed hi * 2 ^ (w * lo.length) + unsigned lo := by
  cases hi with
  | nil => exact absurd rfl hne
  | cons d hi =>
    rw [cons_append, signed_cons, signed_cons, unsigned_append, length_append,
      Nat.mul_add, pow_add]
    push_cast
    ring

theorem signed_of_nonneg (h : 0 ≤ d.toInt) : signed (d :: ds) = unsigned (d :: ds) := by
  have htoInt : d.toInt = d.toNat := by
    rw [BitVec.toInt_eq_toNat_cond] at h ⊢
    have hlt := d.isLt
    split
    · rfl
    · rename_i hbig
      rw [if_neg hbig] at h
      omega
  rw [signed_cons, unsigned_cons, htoInt]
  push_cast
  rfl

theorem signed_of_neg (h : d.toInt < 0) :
    signed (d :: ds) = unsigned (d :: ds) - 2 ^ (w * (ds.length + 1)) := by
  have htoInt : d.toInt = d.toNat - 2 ^ w := by
    rw [BitVec.toInt_eq_toNat_cond] at h ⊢
    split
    · rename_i hsmall
      rw [if_pos hsmall] at h
      omega
    · push_cast
      rfl
  rw [signed_cons, unsigned_cons, htoInt, Nat.mul_succ, pow_add]
  push_cast
  ring

theorem signed_neg_iff (d : BitVec w) (ds : List (BitVec w)) : signed (d :: ds) < 0 ↔ d.toInt < 0 := by
  constructor
  · intro h
    by_contra hnonneg
    rw [signed_of_nonneg (by omega)] at h
    omega
  · intro h
    have hlt := unsigned_lt (d :: ds)
    rw [length_cons] at hlt
    rw [signed_of_neg h]
    have hcast : (unsigned (d :: ds) : Int) < 2 ^ (w * (ds.length + 1)) := by exact_mod_cast hlt
    omega

theorem signed_eq_unsigned (h : 0 ≤ signed ds) : signed ds = unsigned ds := by
  cases ds with
  | nil => rfl
  | cons d ds =>
    refine signed_of_nonneg ?_
    by_contra hneg
    have hsigned := (signed_neg_iff d ds).mpr (Int.not_le.mp hneg)
    exact absurd h (Int.not_le.mpr hsigned)

theorem signed_eq_sub (h : signed ds < 0) : signed ds = unsigned ds - 2 ^ (w * ds.length) := by
  cases ds with
  | nil => cases h
  | cons d ds => exact signed_of_neg ((signed_neg_iff d ds).mp h)

theorem dvd_unsigned_sub_signed (ds : List (BitVec w)) :
    (2 : Int) ^ (w * ds.length) ∣ unsigned ds - signed ds := by
  by_cases h : signed ds < 0
  · rw [signed_eq_sub h, sub_sub_cancel]
  · rw [signed_eq_unsigned (Int.not_lt.mp h), sub_self]
    exact dvd_zero _

theorem two_mul_signed_lt (hw : 0 < w) (ds : List (BitVec w)) :
    2 * signed ds < 2 ^ (w * ds.length) := by
  cases ds with
  | nil => simp [signed]
  | cons d ds =>
    have hd : d.toInt + 1 ≤ 2 ^ (w - 1) := BitVec.toInt_lt
    have hlow : (unsigned ds : Int) < 2 ^ (w * ds.length) := by exact_mod_cast unsigned_lt ds
    have hhalf : (2 : Int) ^ w = 2 * 2 ^ (w - 1) := by
      rw [← pow_succ', Nat.sub_add_cancel hw]
    rw [signed_cons, length_cons, Nat.mul_succ, pow_add, hhalf]
    calc 2 * (d.toInt * 2 ^ (w * ds.length) + unsigned ds)
        < 2 * (d.toInt * 2 ^ (w * ds.length) + 2 ^ (w * ds.length)) := by omega
      _ = 2 * ((d.toInt + 1) * 2 ^ (w * ds.length)) := by ring
      _ ≤ 2 * (2 ^ (w - 1) * 2 ^ (w * ds.length)) := by gcongr
      _ = 2 ^ (w * ds.length) * (2 * 2 ^ (w - 1)) := by ring

theorem le_two_mul_signed (ds : List (BitVec w)) : -2 ^ (w * ds.length) ≤ 2 * signed ds := by
  cases ds with
  | nil => simp [signed]
  | cons d ds =>
    have hd : -2 ^ w ≤ 2 * d.toInt := BitVec.le_two_mul_toInt
    rw [signed_cons, length_cons, Nat.mul_succ, pow_add]
    calc -((2 : Int) ^ (w * ds.length) * 2 ^ w) = -2 ^ w * 2 ^ (w * ds.length) := by ring
      _ ≤ 2 * d.toInt * 2 ^ (w * ds.length) := by gcongr
      _ ≤ 2 * (d.toInt * 2 ^ (w * ds.length) + unsigned ds) := by
          rw [mul_add, mul_assoc]
          omega

/-- The integer is known from its range and from the number without a sign. -/
theorem signed_unique {v : Int} (hw : 0 < w)
    (hdvd : (2 : Int) ^ (w * ds.length) ∣ unsigned ds - v)
    (hlow : -2 ^ (w * ds.length) ≤ 2 * v) (hhigh : 2 * v < 2 ^ (w * ds.length)) :
    signed ds = v := by
  have hdiff : (2 : Int) ^ (w * ds.length) ∣ signed ds - v := by
    have hsub := Int.dvd_sub hdvd (dvd_unsigned_sub_signed ds)
    rw [sub_sub_sub_cancel_left] at hsub
    exact hsub
  have hlt := two_mul_signed_lt hw ds
  have hge := le_two_mul_signed ds
  have hzero : signed ds - v = 0 := by
    refine Int.eq_zero_of_abs_lt_dvd hdiff ?_
    rw [abs_lt]
    constructor <;> omega
  omega

theorem signed_inj {es : List (BitVec w)} (hlength : ds.length = es.length)
    (h : signed ds = signed es) : ds = es := by
  refine unsigned_inj hlength ?_
  have hsign : (unsigned ds : Int) = unsigned es := by
    by_cases hneg : signed ds < 0
    · have hds := signed_eq_sub hneg
      have hes := signed_eq_sub (h ▸ hneg)
      rw [hlength] at hds
      omega
    · have hds := signed_eq_unsigned (Int.not_lt.mp hneg)
      have hes := signed_eq_unsigned (h ▸ Int.not_lt.mp hneg)
      omega
  exact_mod_cast hsign

theorem signed_not (hw : 0 < w) (ds : List (BitVec w)) (hne : ds ≠ []) :
    signed (ds.map (~~~ ·)) = -signed ds - 1 := by
  have hsum := unsigned_not ds
  have hlt := two_mul_signed_lt hw ds
  have hge := le_two_mul_signed ds
  refine signed_unique hw ?_ ?_ ?_
  · rw [length_map]
    have hcast : (unsigned (ds.map (~~~ ·)) : Int) + unsigned ds + 1 = 2 ^ (w * ds.length) := by
      exact_mod_cast hsum
    have heq : (unsigned (ds.map (~~~ ·)) : Int) - (-signed ds - 1) =
        2 ^ (w * ds.length) - (unsigned ds - signed ds) := by
      linarith
    rw [heq]
    exact Int.dvd_sub (dvd_refl _) (dvd_unsigned_sub_signed ds)
  · have hpos : 0 < w * ds.length := Nat.mul_pos hw (length_pos_iff.mpr hne)
    have heven : (2 : Int) ^ (w * ds.length) = 2 * 2 ^ (w * ds.length - 1) := by
      rw [← pow_succ', Nat.sub_add_cancel hpos]
    rw [length_map]
    omega
  · rw [length_map]
    omega

/-- The digit that repeats the sign. -/
def signDigit (d : BitVec w) : BitVec w := if d.toInt < 0 then BitVec.allOnes w else 0#w

/-- Longer by digits that repeat the sign. -/
theorem signed_extend (hw : 0 < w) (n : Nat) (d : BitVec w) (ds : List (BitVec w)) :
    signed (List.replicate n (signDigit d) ++ d :: ds) = signed (d :: ds) := by
  induction n with
  | zero => rfl
  | succ n ih =>
    rw [replicate_succ, cons_append, signed_cons, signDigit]
    by_cases h : d.toInt < 0
    · have hneg := (signed_neg_iff d ds).mpr h
      rw [if_pos h, BitVec.toInt_allOnes, if_pos hw]
      rw [signDigit, if_pos h] at ih
      rw [← ih] at hneg ⊢
      rw [signed_eq_sub hneg]
      ring
    · have hnonneg : 0 ≤ signed (d :: ds) := Int.not_lt.mp (mt (signed_neg_iff d ds).mp h)
      rw [if_neg h, BitVec.toInt_zero, Int.zero_mul, Int.zero_add]
      rw [signDigit, if_neg h] at ih
      rw [← ih] at hnonneg ⊢
      rw [signed_eq_unsigned hnonneg]

end PittCs.Lib.Digits
