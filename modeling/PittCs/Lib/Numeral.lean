import Mathlib.Tactic.Ring
import Mathlib.Tactic.Linarith
import Mathlib.Tactic.LinearCombination
import Mathlib.Tactic.Positivity

/-!
# Numerals

A number as the list of its digits in base `b`, the least significant digit first. The
digits are integers, since a digit under way may be out of range. A canonical numeral has
no zero in front, unless it is the single digit zero; then its length is the first key of
the order.
-/

namespace PittCs.Lib.Numeral

open List

variable {b : Int} {d e : Int} {ds xs ys : List Int} {n : Nat}

def value (b : Int) : List Int → Int
  | [] => 0
  | d :: ds => d + b * value b ds

def Digits (b : Int) (ds : List Int) : Prop := ∀ d ∈ ds, 0 ≤ d ∧ d < b

structure Canonical (b : Int) (ds : List Int) : Prop where
  ne_nil : ds ≠ []
  digits : Digits b ds
  lead : ds.getLast? = some 0 → ds.length = 1

theorem value_append (b : Int) (xs ys : List Int) :
    value b (xs ++ ys) = value b xs + b ^ xs.length * value b ys := by
  induction xs with
  | nil => simp [value]
  | cons d xs ih =>
    rw [cons_append, value, value, ih, length_cons, pow_succ]
    ring

theorem value_concat (b : Int) (xs : List Int) (d : Int) :
    value b (xs ++ [d]) = value b xs + b ^ xs.length * d := by
  rw [value_append]
  simp [value]

theorem value_replicate_zero (b : Int) (n : Nat) : value b (List.replicate n 0) = 0 := by
  induction n with
  | zero => rfl
  | succ n ih => rw [replicate_succ, value, ih, Int.mul_zero, Int.add_zero]

theorem Digits.sublist (h : Digits b ds) (hsub : xs.Sublist ds) : Digits b xs := fun d hd =>
  h d (hsub.subset hd)

theorem digits_append : Digits b (xs ++ ys) ↔ Digits b xs ∧ Digits b ys := forall_mem_append

theorem digits_singleton : Digits b [d] ↔ 0 ≤ d ∧ d < b := forall_mem_singleton

theorem digits_cons : Digits b (d :: ds) ↔ (0 ≤ d ∧ d < b) ∧ Digits b ds := forall_mem_cons

theorem Digits.value_nonneg (hb : 1 < b) (h : Digits b ds) : 0 ≤ value b ds := by
  induction ds with
  | nil => exact Int.le_refl 0
  | cons d ds ih =>
    obtain ⟨hd, hds⟩ := digits_cons.mp h
    have hrest := Int.mul_nonneg (by omega : 0 ≤ b) (ih hds)
    rw [value]
    omega

theorem Digits.value_lt (hb : 1 < b) (h : Digits b ds) : value b ds < b ^ ds.length := by
  induction ds with
  | nil => exact (pow_zero b).symm ▸ Int.zero_lt_one
  | cons d ds ih =>
    obtain ⟨hd, hds⟩ := digits_cons.mp h
    have hrest : value b ds + 1 ≤ b ^ ds.length := ih hds
    rw [value, length_cons, pow_succ']
    nlinarith

/-! ## The order -/

/-- Between numerals of one length the leading digit decides. -/
theorem value_concat_lt (hb : 1 < b) (hxs : Digits b xs) (hys : Digits b ys)
    (hlen : xs.length = ys.length) (hlt : d < e) : value b (xs ++ [d]) < value b (ys ++ [e]) := by
  have hpow : 0 < b ^ ys.length := pow_pos (by omega) _
  have hx := hxs.value_lt hb
  have hy := hys.value_nonneg hb
  rw [value_concat, value_concat, hlen] at *
  nlinarith

theorem Canonical.exists_concat (h : Canonical b ds) :
    ∃ xs d, ds = xs ++ [d] ∧ Digits b xs ∧ 0 ≤ d ∧ d < b ∧ (d = 0 → xs = []) := by
  obtain ⟨xs, d, rfl⟩ := (eq_nil_or_concat' ds).resolve_left h.ne_nil
  obtain ⟨hxs, hd⟩ := digits_append.mp h.digits
  obtain ⟨hnonneg, hlt⟩ := digits_singleton.mp hd
  refine ⟨xs, d, rfl, hxs, hnonneg, hlt, fun hzero => ?_⟩
  have hlen := h.lead (by rw [getLast?_concat, hzero])
  rw [length_append, length_singleton] at hlen
  exact length_eq_zero_iff.mp (by omega)

/-- The leading digit of a numeral of several digits is not zero. -/
theorem Canonical.pow_le_value (hb : 1 < b) (h : Canonical b ds) (hlen : 1 < ds.length) :
    b ^ (ds.length - 1) ≤ value b ds := by
  obtain ⟨xs, d, rfl, hxs, hnonneg, -, hzero⟩ := h.exists_concat
  rw [length_append, length_singleton] at hlen ⊢
  have hpos : 1 ≤ d := by
    by_contra hd
    have hxs := hzero (by omega)
    rw [hxs] at hlen
    exact absurd hlen (Nat.lt_irrefl 1)
  have hpow : 0 < b ^ xs.length := pow_pos (by omega) _
  have hlow := hxs.value_nonneg hb
  rw [value_concat, Nat.add_sub_cancel]
  nlinarith

theorem Canonical.value_pos (hb : 1 < b) (h : Canonical b ds) (hne : ds ≠ [0]) :
    0 < value b ds := by
  obtain ⟨xs, d, rfl, hxs, hnonneg, -, hzero⟩ := h.exists_concat
  have hpos : 0 < d := by
    refine lt_of_le_of_ne hnonneg fun heq => hne ?_
    rw [hzero heq.symm, ← heq]
    rfl
  have hhigh : 0 < b ^ xs.length * d := Int.mul_pos (pow_pos (by omega) _) hpos
  have hlow := hxs.value_nonneg hb
  rw [value_concat]
  omega

/-- The shorter numeral is the smaller number. -/
theorem Canonical.lt_of_length_lt (hb : 1 < b) (hxs : Digits b xs) (hne : xs ≠ [])
    (hys : Canonical b ys) (hlen : xs.length < ys.length) : value b xs < value b ys := by
  have hpos := length_pos_iff.mpr hne
  calc value b xs < b ^ xs.length := hxs.value_lt hb
    _ ≤ b ^ (ys.length - 1) := pow_le_pow_right₀ (by omega) (by omega)
    _ ≤ value b ys := hys.pow_le_value hb (by omega)

/-! ## Dropping digits -/

/-- Without the lowest digits. -/
theorem Digits.value_drop (hb : 1 < b) (h : Digits b ds) (n : Nat) :
    value b (ds.drop n) = value b ds / b ^ n := by
  rcases Nat.lt_or_ge n ds.length with hlt | hge
  · have hlow := h.sublist (take_sublist n ds)
    have hnonneg := hlow.value_nonneg hb
    have hbound := hlow.value_lt hb
    have hlen : (ds.take n).length = n := length_take_of_le (Nat.le_of_lt hlt)
    have hvalue := value_append b (ds.take n) (ds.drop n)
    rw [hlen] at hbound
    rw [take_append_drop, hlen] at hvalue
    rw [hvalue, Int.add_mul_ediv_left _ _ (Int.ne_of_gt (pow_pos (by omega) n)),
      Int.ediv_eq_zero_of_lt hnonneg hbound, Int.zero_add]
  · have hnonneg := h.value_nonneg hb
    have hlt : value b ds < b ^ n :=
      lt_of_lt_of_le (h.value_lt hb) (pow_le_pow_right₀ (by omega) hge)
    rw [drop_eq_nil_of_le hge, Int.ediv_eq_zero_of_lt hnonneg hlt]
    rfl

theorem Canonical.drop (h : Canonical b ds) (hn : n < ds.length) : Canonical b (ds.drop n) where
  ne_nil hnil := by
    have hlen := congrArg List.length hnil
    rw [length_drop, length_nil] at hlen
    omega
  digits := h.digits.sublist (drop_sublist n ds)
  lead hzero := by
    rw [getLast?_drop, if_neg (Nat.not_le.mpr hn)] at hzero
    have hone := h.lead hzero
    rw [length_drop]
    omega

theorem canonical_zero (hb : 1 < b) : Canonical b [0] where
  ne_nil := cons_ne_nil _ _
  digits := digits_singleton.mpr ⟨Int.le_refl 0, by omega⟩
  lead _ := rfl

/-! ## Zeros in front -/

/-- The number of zeros in front, at most `n`. The most significant digit is the first. -/
def leadingZeros : Nat → List Int → Nat
  | n + 1, d :: ds => if d = 0 then leadingZeros n ds + 1 else 0
  | _, _ => 0

/-- Of a number with digits one digit always stays. -/
theorem leadingZeros_spec (hne : ds ≠ []) : ∃ rest,
    ds = List.replicate (leadingZeros (ds.length - 1) ds) 0 ++ rest ∧ rest ≠ [] ∧
      (rest.head? = some 0 → rest.length = 1) := by
  induction ds with
  | nil => exact absurd rfl hne
  | cons d ds ih =>
    cases ds with
    | nil => exact ⟨[d], rfl, cons_ne_nil _ _, fun _ => rfl⟩
    | cons e ds =>
      obtain ⟨rest, hrest, hne', hlead⟩ := ih (cons_ne_nil e ds)
      have hlen : (d :: e :: ds).length - 1 = ((e :: ds).length - 1) + 1 := rfl
      rw [hlen, leadingZeros]
      by_cases hd : d = 0
      · refine ⟨rest, ?_, hne', hlead⟩
        rw [if_pos hd, replicate_succ, cons_append, ← hrest, hd]
      · refine ⟨d :: e :: ds, ?_, cons_ne_nil _ _, fun hhead => absurd ?_ hd⟩
        · rw [if_neg hd]
          rfl
        · exact Option.some.inj hhead

/-- The zeros in front do not count. -/
theorem strip_spec (hdigits : Digits b ds) (hne : ds ≠ []) :
    Canonical b (ds.take (ds.length - leadingZeros (ds.length - 1) ds.reverse)) ∧
      value b (ds.take (ds.length - leadingZeros (ds.length - 1) ds.reverse)) = value b ds := by
  have hne' : ds.reverse ≠ [] := reverse_ne_nil_iff.mpr hne
  obtain ⟨rest, hrest, hrest_ne, hlead⟩ := leadingZeros_spec hne'
  rw [length_reverse] at hrest
  generalize leadingZeros (ds.length - 1) ds.reverse = n at hrest ⊢
  -- `rest` is what is kept, from the most significant digit on
  have hdrop : ds.reverse.drop n = rest := by
    rw [hrest]
    exact drop_left' length_replicate
  have hkeep : ds.take (ds.length - n) = rest.reverse := by
    rw [← hdrop, drop_reverse, reverse_reverse]
  have hds : ds = rest.reverse ++ List.replicate n 0 := by
    rw [← reverse_reverse ds, hrest, reverse_append, reverse_replicate]
  rw [hkeep]
  constructor
  · constructor
    · exact reverse_ne_nil_iff.mpr hrest_ne
    · rw [hds] at hdigits
      exact (digits_append.mp hdigits).1
    · rw [getLast?_reverse, length_reverse]
      exact hlead
  · rw [hds, value_append, value_replicate_zero, Int.mul_zero, Int.add_zero]

/-- The length of a number says whether a list of its digits is canonical. -/
theorem canonical_of_pow_le (hb : 1 < b) (hdigits : Digits b ds) (hne : ds ≠ [])
    (hpow : 1 < ds.length → b ^ (ds.length - 1) ≤ value b ds) : Canonical b ds where
  ne_nil := hne
  digits := hdigits
  lead hzero := by
    obtain ⟨xs, d, rfl⟩ := (eq_nil_or_concat' ds).resolve_left hne
    rw [getLast?_concat] at hzero
    obtain rfl : d = 0 := Option.some.inj hzero
    by_contra hlen
    rw [length_append, length_singleton] at hlen hpow
    have hlow := (digits_append.mp hdigits).1.value_lt hb
    have hge := hpow (by omega)
    rw [value_concat, Int.mul_zero, Int.add_zero, Nat.add_sub_cancel] at hge
    omega

/-! ## Carries -/

/-- Digits that may be out of range are brought into range one after the other; `adjust`
gives a digit and what is carried to the next. -/
def carryDigits (adjust : Int → Bool → Int × Bool) : List Int → Bool → List Int × Bool
  | [], carry => ([], carry)
  | d :: ds, carry =>
    let rest := carryDigits adjust ds (adjust d carry).2
    ((adjust d carry).1 :: rest.1, rest.2)

variable {adjust : Int → Bool → Int × Bool} {carry : Bool} {s : Int}

theorem length_carryDigits : (carryDigits adjust ds carry).1.length = ds.length := by
  induction ds generalizing carry with
  | nil => rfl
  | cons d ds ih => exact congrArg Nat.succ ih

theorem carryDigits_append (xs ys : List Int) (carry : Bool) :
    carryDigits adjust (xs ++ ys) carry =
      ((carryDigits adjust xs carry).1 ++
          (carryDigits adjust ys (carryDigits adjust xs carry).2).1,
        (carryDigits adjust ys (carryDigits adjust xs carry).2).2) := by
  induction xs generalizing carry with
  | nil => rfl
  | cons d xs ih => rw [cons_append, carryDigits, carryDigits, ih]; rfl

/-- What is carried is worth `s` of the next digit. -/
theorem value_carryDigits
    (hadjust : ∀ d c, (adjust d c).1 + s * b * (adjust d c).2.toInt = d + s * c.toInt) :
    value b (carryDigits adjust ds carry).1 +
      s * b ^ ds.length * (carryDigits adjust ds carry).2.toInt = value b ds + s * carry.toInt := by
  induction ds generalizing carry with
  | nil => simp [carryDigits, value]
  | cons d ds ih =>
    have hrest := @ih (adjust d carry).2
    have hd := hadjust d carry
    rw [carryDigits, value, value, length_cons, pow_succ]
    dsimp only
    linear_combination hd + b * hrest

theorem digits_carryDigits (hds : ∀ d ∈ ds, ∀ c, 0 ≤ (adjust d c).1 ∧ (adjust d c).1 < b) :
    Digits b (carryDigits adjust ds carry).1 := by
  induction ds generalizing carry with
  | nil => exact fun _ hd => absurd hd not_mem_nil
  | cons d ds ih =>
    refine digits_cons.mpr ⟨hds d mem_cons_self carry, ?_⟩
    exact ih fun e he => hds e (mem_cons_of_mem d he)

/-- Adding or subtracting digit by digit. -/
theorem value_zipWith {op : Int → Int → Int} (hop : ∀ x y, op x y = x + s * y)
    (hlen : xs.length = ys.length) :
    value b (zipWith op xs ys) = value b xs + s * value b ys := by
  induction xs generalizing ys with
  | nil =>
    obtain rfl := length_eq_zero_iff.mp hlen.symm
    simp [value]
  | cons x xs ih =>
    cases ys with
    | nil => cases hlen
    | cons y ys =>
      rw [zipWith_cons_cons, value, value, value, hop, ih (Nat.succ.inj hlen)]
      ring

/-! ## Texts -/

/-- The characters of the digits, most significant first, are the text of the number. -/
theorem Canonical.toDigits {c : Nat} (hc : 1 < c) {ds : List Int} (h : Canonical c ds) :
    ds.reverse.map (fun d => d.toNat.digitChar) = Nat.toDigits c (value c ds).toNat := by
  induction ds with
  | nil => exact absurd rfl h.ne_nil
  | cons d ds ih =>
    obtain ⟨hd, hds⟩ := digits_cons.mp h.digits
    cases ds with
    | nil =>
      have hvalue : value c [d] = d := by
        rw [value, value, Int.mul_zero, Int.add_zero]
      rw [hvalue, Nat.toDigits_of_lt_base (by omega)]
      rfl
    | cons e ds =>
      have htail : Canonical c (e :: ds) := h.drop (Nat.succ_lt_succ (Nat.succ_pos _))
      have hne : e :: ds ≠ [0] := by
        rintro heq
        have hlead := h.lead (by rw [heq]; rfl)
        cases hlead
      have hpos := htail.value_pos (by omega) hne
      have hvalue : (value c (d :: e :: ds)).toNat =
          c * (value c (e :: ds)).toNat + d.toNat := by
        rw [value, Int.toNat_add hd.1 (Int.mul_nonneg (by omega) (Int.le_of_lt hpos)),
          Int.toNat_mul (by omega) (Int.le_of_lt hpos), Int.toNat_natCast, Nat.add_comm]
      rw [hvalue, ← Nat.toDigits_append_toDigits hc (by omega) (by omega), ← ih htail,
        Nat.toDigits_of_lt_base (by omega), reverse_cons, map_append]
      rfl

end PittCs.Lib.Numeral
