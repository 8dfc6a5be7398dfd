import PittCs.Hefty.Multiplication

/-!
# Division

Long division bit by bit. After the rounds at the bits above `i` the remainder and the
quotient are those of the dividend without its last `i` bits.
-/

namespace PittCs.Hefty

open PittCs.Lib.Digits List

/-- A leading zero before a zero does not count. -/
theorem signed_cutZeros (l : List Byte) : signed (cutZeros l) = signed l := by
  fun_induction cutZeros l with
  | case1 b c rest hzero ih =>
    rcases hzero with ⟨rfl, rfl⟩
    have hzero : (0 : Byte).toInt = 0 := rfl
    have hzero' : (0 : Byte).toNat = 0 := rfl
    rw [ih, signed_cons, signed_cons, unsigned_cons, hzero, hzero']
    simp
  | case2 b c rest hzero => rfl
  | case3 l hl => rfl

theorem length_cutZeros_le (l : List Byte) : (cutZeros l).length ≤ l.length := by
  fun_induction cutZeros l with
  | case1 b c rest hzero ih => exact Nat.le_trans ih (Nat.le_succ _)
  | case2 b c rest hzero => exact Nat.le_refl _
  | case3 l hl => exact Nat.le_refl _

/-- At most one leading zero is left. -/
theorem le_unsigned_cutZeros {l : List Byte} {n : Nat} (h : (cutZeros l).length = n + 2) :
    2 ^ (8 * n) ≤ unsigned (cutZeros l) := by
  fun_induction cutZeros l with
  | case1 b c rest hzero ih => exact ih h
  | case2 b c rest hzero =>
    have hlen : rest.length = n := by simpa using h
    rw [unsigned_cons, unsigned_cons, length_cons, hlen, pow_succ_digit]
    by_cases hb : b = 0
    · have hc : c.toNat ≠ 0 := fun hc => hzero ⟨hb, BitVec.eq_of_toNat_eq hc⟩
      have hle : 2 ^ (8 * n) ≤ c.toNat * 2 ^ (8 * n) :=
        Nat.le_mul_of_pos_left _ (Nat.pos_of_ne_zero hc)
      omega
    · have hb' : b.toNat ≠ 0 := fun h => hb (BitVec.eq_of_toNat_eq h)
      have hle : 2 ^ 8 * 2 ^ (8 * n) ≤ b.toNat * (2 ^ 8 * 2 ^ (8 * n)) :=
        Nat.le_mul_of_pos_left _ (Nat.pos_of_ne_zero hb')
      omega
  | case3 l hl =>
    exfalso
    rcases l with _ | ⟨b, _ | ⟨c, rest⟩⟩
    · cases h
    · simp at h
    · exact hl b c rest rfl

theorem cutZeros_of_zero {l : List Byte} (hne : l ≠ []) (h : ∀ b ∈ l, b = 0) : cutZeros l = [0] := by
  fun_induction cutZeros l with
  | case1 b c rest hzero ih =>
    exact ih (cons_ne_nil _ _) fun x hx => h x (mem_cons_of_mem _ hx)
  | case2 b c rest hzero =>
    exact absurd ⟨h b mem_cons_self, h c (mem_cons_of_mem _ mem_cons_self)⟩ hzero
  | case3 l hl =>
    rcases l with _ | ⟨b, _ | ⟨c, rest⟩⟩
    · exact absurd rfl hne
    · rw [h b mem_cons_self]
    · exact absurd rfl (hl b c rest)

namespace HeftyInteger

variable {a b : HeftyInteger}

theorem value_cut (a : HeftyInteger) : a.cut.value = a.value := signed_cutZeros a.val

theorem prune_of_nonneg (h : 0 ≤ a.value) : a.prune = a.cut := by
  unfold prune
  rw [(not_isNegative_iff a).mpr h, (magnitude_spec a).2.2.2 h]
  rfl

theorem value_cut_magnitude (a : HeftyInteger) : a.magnitude.cut.value = |a.value| := by
  rw [value_cut, (magnitude_spec a).1]

theorem prune_of_neg (h : a.value < 0) : a.prune = a.magnitude.cut.negate := by
  have hnonneg : 0 ≤ a.magnitude.cut.value := by
    rw [value_cut_magnitude]
    exact abs_nonneg _
  unfold prune
  dsimp only
  rw [(isNegative_iff a).mpr h, (not_isNegative_iff _).mpr hnonneg]
  rfl

theorem value_prune (a : HeftyInteger) : a.prune.value = a.value := by
  by_cases h : a.value < 0
  · rw [prune_of_neg h, value_negate, value_cut_magnitude, abs_of_neg h, Int.neg_neg]
  · rw [prune_of_nonneg (Int.not_lt.mp h), value_cut]

theorem equals_zero_iff (a : HeftyInteger) : a.equals zero = true ↔ a.value = 0 := by
  have hzero : zero.prune.val = [0] := by decide
  have hiff : a.equals zero = true ↔ a.prune.val = [0] := by
    unfold equals length
    dsimp only
    rw [hzero]
    rcases a.prune.val with _ | ⟨b, _ | ⟨c, rest⟩⟩ <;> simp
  rw [hiff]
  constructor
  · intro h
    rw [← value_prune]
    unfold value
    rw [h]
    decide
  · intro h
    have hnonneg : 0 ≤ a.value := by omega
    rw [prune_of_nonneg hnonneg]
    refine cutZeros_of_zero a.nonempty (unsigned_eq_zero_iff.mp ?_)
    have hvalue := value_of_nonneg hnonneg
    omega

theorem length_cut_le (a : HeftyInteger) : a.cut.length ≤ a.length := length_cutZeros_le a.val

/-- The absolute value is the array of a comparison that counts. -/
theorem tryPrune_eq (h : a.magnitude.length < 2 ^ 31) : a.tryPrune = .ok a.prune := by
  have hcut := a.magnitude.length_cut_le
  have hnonneg : 0 ≤ a.magnitude.cut.value := by
    rw [value_cut_magnitude]
    exact abs_nonneg _
  have hnegate := length_negate_of_nonneg hnonneg
  unfold tryPrune prune
  rw [tryMagnitude_of_lt h, ok_bind]
  dsimp only
  split
  · exact newArray_of_lt (by omega)
  · rfl

theorem tryEquals_zero (h : a.magnitude.length < 2 ^ 31) :
    a.tryEquals zero = .ok (decide (a.value = 0)) := by
  have hzero : zero.tryPrune = .ok zero.prune := tryPrune_eq (by decide)
  have hequals : a.equals zero = decide (a.value = 0) := by
    rw [Bool.eq_iff_iff, equals_zero_iff, decide_eq_true_iff]
  unfold tryEquals
  rw [tryPrune_eq h, hzero, ← hequals]
  rfl

/-! ## A round of the long division -/

theorem lt_wrap {i n : Nat} (hi : i < 8 * n) (hn : 8 * n < 2 ^ 31) : (i : Int) < wrap (8 * n) := by
  have hwrap := wrap_eq hn
  push_cast at hwrap
  omega

/-- The remainder takes in a bit. -/
theorem shiftIn_spec {r : HeftyInteger} {k : Nat} (hr : 0 ≤ r.value) (hk : r.length ≤ k)
    (hfit : Fits k (r.value * 2)) (hbits : 8 * k < 2 ^ 31) (bit : Bool) :
    ∃ s t, r.leftShift 1 = .ok s ∧ s.setBit 0 bit = .ok t ∧ t.value = r.value * 2 + bit.toNat ∧
      t.length ≤ k := by
  have hvalue : (r.shifted 1).value = r.value * 2 := r.value_shifted 1
  have hlength : (r.shifted 1).length ≤ k := by
    rw [length_shifted_of_nonneg hr, pow_one]
    exact width_le (by omega) hfit
  have hs : r.leftShift 1 = .ok (r.shifted 1) := by
    rw [show (1 : Int) = (1 : Nat) from rfl, leftShift_eq, newArray_of_lt (by omega)]
  generalize r.shifted 1 = s at *
  have hpos := s.length_pos
  rcases setBit_spec (a := s) (i := 0) (lt_wrap (by omega) (by omega)) bit
    with ⟨t, ht, htlength, hunsigned⟩
  refine ⟨s, t, hs, ht, ?_, by omega⟩
  have hs' := value_of_nonneg (a := s) (by omega)
  rw [pow_zero, Nat.div_one, Nat.mul_one, Nat.mul_one] at hunsigned
  -- the shifted number is even, so that the bit is added
  have hadd : unsigned t.val = unsigned s.val + bit.toNat := by omega
  have hone := bit.toNat_le
  have hfour : (2 : Int) ^ (8 * t.length) = 4 * 2 ^ (8 * t.length - 2) := by
    have hexp : 8 * t.length = 8 * t.length - 2 + 2 := by omega
    conv_lhs => rw [hexp, pow_add]
    ring
  rcases s.fits with ⟨-, hhigh⟩
  rw [← htlength] at hhigh
  rw [← hvalue, hs']
  refine signed_unique (by decide) ?_ ?_ ?_
  · rw [hadd]
    push_cast
    rw [Int.sub_self]
    exact dvd_zero _
  · show -2 ^ (8 * t.length) ≤ _
    omega
  · show _ < (2 : Int) ^ (8 * t.length)
    omega

/-- A divisor is taken from the remainder. -/
theorem length_minus_le {r d : HeftyInteger} {k : Nat} (hr : 0 ≤ r.value) (hd : 0 ≤ d.value)
    (hrk : r.length ≤ k) (hdk : d.length ≤ k) : (r.minus d).length ≤ k := by
  rcases r.fits.mono hrk with ⟨hlowr, hhighr⟩
  rcases d.fits.mono hdk with ⟨hlowd, hhighd⟩
  have hnegate := length_negate d
  rw [length_negate_of_nonneg hd] at hnegate
  rw [length_minus, ← hnegate]
  exact width_le (Nat.max_le.mpr ⟨hrk, hdk⟩) ⟨by omega, by omega⟩

/-- The remainder and the quotient after the rounds at the bits from `i` on. -/
structure DivInv (dividend divisor : HeftyInteger) (i : Nat) (r : HeftyInteger × HeftyInteger) :
    Prop where
  remainder : r.1.value = (unsigned dividend.val / 2 ^ i % unsigned divisor.val : Nat)
  short : r.1.length ≤ max dividend.length divisor.length
  -- the bits of a remainder that is shifted again can be counted
  bits : 0 < i → 8 * r.1.length < 2 ^ 31
  quotient : unsigned r.2.val = unsigned dividend.val / 2 ^ i / unsigned divisor.val * 2 ^ i
  length : r.2.length = dividend.length

/-- A dividend and a divisor without a sign that can be divided. The bits of the divisor
count when its remainder is shifted, after the quotient has got a bit above the last. -/
structure Divisible (dividend divisor : HeftyInteger) : Prop where
  nonneg : 0 ≤ dividend.value
  pos : 0 < divisor.value
  dividendBits : 8 * dividend.length < 2 ^ 31
  divisorLength : divisor.length < 2 ^ 31
  divisorBits : 8 * divisor.length < 2 ^ 31 ∨ dividend.value < 2 * divisor.value

section Division

variable {dividend divisor : HeftyInteger} {r : HeftyInteger × HeftyInteger} {i : Nat}

/-- One bit more of a dividend. -/
theorem div_mod_next {A D i bit : Nat} (hD : 0 < D) (hbit : A / 2 ^ i % 2 = bit) :
    (A / 2 ^ (i + 1) % D * 2 + bit < D →
      A / 2 ^ i % D = A / 2 ^ (i + 1) % D * 2 + bit ∧ A / 2 ^ i / D = 2 * (A / 2 ^ (i + 1) / D)) ∧
    (D ≤ A / 2 ^ (i + 1) % D * 2 + bit →
      A / 2 ^ i % D = A / 2 ^ (i + 1) % D * 2 + bit - D ∧
        A / 2 ^ i / D = 2 * (A / 2 ^ (i + 1) / D) + 1) := by
  have hhalf : A / 2 ^ i = 2 * (A / 2 ^ (i + 1)) + bit := by
    rw [Nat.pow_succ, ← Nat.div_div_eq_div_mul]
    omega
  have hsplit := Nat.mod_add_div (A / 2 ^ (i + 1)) D
  have hlt := Nat.mod_lt (A / 2 ^ (i + 1)) hD
  generalize A / 2 ^ (i + 1) % D = R at *
  generalize A / 2 ^ (i + 1) / D = Q at *
  have hdouble : D * (2 * Q) = 2 * (D * Q) := by ring
  constructor
  · intro hsmall
    exact ((Nat.div_mod_unique hD).mpr ⟨by omega, hsmall⟩).symm
  · intro hbig
    have hnext : D * (2 * Q + 1) = 2 * (D * Q) + D := by ring
    exact ((Nat.div_mod_unique hD).mpr ⟨by omega, by omega⟩).symm

theorem DivInv.step (h : DivInv dividend divisor (i + 1) r) (hargs : Divisible dividend divisor)
    (hi : i < 8 * dividend.length) :
    ∃ r', divideStep dividend divisor i r = .ok r' ∧ DivInv dividend divisor i r' := by
  rcases r with ⟨remainder, quotient⟩
  rcases h with ⟨hremainder, hshort, hrbits, hquotient, hlength⟩
  rcases hargs with ⟨hnonneg, hpos, hbits, hdlength, hbits'⟩
  dsimp only at *
  have hA := value_of_nonneg hnonneg
  have hD := value_of_nonneg (Int.le_of_lt hpos)
  have hnext := div_mod_next (A := unsigned dividend.val) (i := i) (by omega : 0 < unsigned divisor.val) rfl
  have hbit := getBit_spec (lt_wrap hi hbits)
  have hle : remainder.value * 2 ≤ dividend.value := by
    have hmod := Nat.mod_le (unsigned dividend.val / 2 ^ (i + 1)) (unsigned divisor.val)
    have hdiv : unsigned dividend.val / 2 ^ (i + 1) ≤ unsigned dividend.val / 2 ^ 1 :=
      Nat.div_le_div_left (Nat.pow_le_pow_right (by decide) (by omega)) (by decide)
    omega
  have hfit : Fits (max dividend.length remainder.length) (remainder.value * 2) :=
    (dividend.fits.mono (Nat.le_max_left _ _)).of_le (by omega) hle
  have hrbits' := hrbits (Nat.succ_pos i)
  rcases shiftIn_spec (by omega) (Nat.le_max_right _ _) hfit (by omega)
    (decide (unsigned dividend.val / 2 ^ i % 2 = 1)) with ⟨s, t, hs, ht, htvalue, htlength⟩
  have htonat : (decide (unsigned dividend.val / 2 ^ i % 2 = 1)).toNat =
      unsigned dividend.val / 2 ^ i % 2 := by
    by_cases hone : unsigned dividend.val / 2 ^ i % 2 = 1
    · rw [decide_eq_true hone, hone]
      rfl
    · rw [decide_eq_false hone, Bool.toNat_false]
      omega
  rw [htonat, hremainder] at htvalue
  have hdiff := value_minus t divisor
  have hdifflength := length_minus_le (r := t) (d := divisor) (by omega) (Int.le_of_lt hpos)
    (Nat.le_max_left t.length divisor.length) (Nat.le_max_right _ _)
  have hsubtract : t.subtract divisor = .ok (t.minus divisor) := by
    rw [subtract_eq, newArray_of_lt (by omega)]
  unfold divideStep
  rw [hbit, ok_bind, hs, ok_bind, ht, ok_bind, hsubtract, ok_bind]
  by_cases hneg : (t.minus divisor).value < 0
  · -- the divisor is larger: the bit of the quotient stays zero
    rw [(isNegative_iff _).mpr hneg, if_neg (by decide)]
    rcases hnext.1 (by omega) with ⟨hmod, hdiv⟩
    refine ⟨(t, quotient), rfl, ⟨?_, by dsimp only; omega, fun _ => by dsimp only; omega, ?_, hlength⟩⟩
    · rw [hmod, htvalue]
      push_cast
      rfl
    · rw [hdiv, hquotient, Nat.pow_succ]
      ring
  · rw [(not_isNegative_iff _).mpr (by omega), if_pos (by decide)]
    rcases hnext.2 (by omega) with ⟨hmod, hdiv⟩
    rcases setBit_spec (a := quotient) (i := i) (by rw [hlength]; exact lt_wrap hi hbits) true
      with ⟨q, hq, hqlength, hunsigned⟩
    have hzero : unsigned quotient.val / 2 ^ i % 2 = 0 := by
      rw [hquotient, Nat.pow_succ, Nat.mul_comm (2 ^ i), ← Nat.mul_assoc,
        Nat.mul_div_cancel _ (Nat.two_pow_pos i), Nat.mul_mod_left]
    rw [hq, ok_bind]
    -- the quotient has a bit here, so that above the last round the divisor is short
    have hlarge : 0 < i → 2 * unsigned divisor.val ≤ unsigned dividend.val := by
      intro hi
      have hle : unsigned divisor.val ≤ unsigned dividend.val / 2 ^ i :=
        (Nat.div_pos_iff.mp (by omega)).2
      have hhalf : unsigned dividend.val / 2 ^ i ≤ unsigned dividend.val / 2 ^ 1 :=
        Nat.div_le_div_left (Nat.pow_le_pow_right (by decide) hi) (by decide)
      omega
    refine ⟨(t.minus divisor, q), rfl, ⟨?_, by dsimp only; omega, fun hi => ?_, ?_, ?_⟩⟩
    · rw [hmod, hdiff, htvalue]
      omega
    · have hmore := hlarge hi
      dsimp only
      omega
    · rw [hzero, hquotient, Bool.toNat_true] at hunsigned
      generalize unsigned dividend.val / 2 ^ (i + 1) / unsigned divisor.val = Q at *
      dsimp only
      rw [Nat.pow_succ] at hunsigned
      rw [hdiv]
      linarith
    · rw [hqlength, hlength]

theorem DivInv.loop {n : Nat} (h : DivInv dividend divisor n r) (hargs : Divisible dividend divisor)
    (hn : n ≤ 8 * dividend.length) :
    ∃ r', divideLoop dividend divisor n r = .ok r' ∧ DivInv dividend divisor 0 r' := by
  induction n generalizing r with
  | zero => exact ⟨r, rfl, h⟩
  | succ n ih =>
    rcases h.step hargs (by omega) with ⟨r₁, hstep, h₁⟩
    rcases ih h₁ (by omega) with ⟨r', hrun, h'⟩
    refine ⟨r', ?_, h'⟩
    unfold divideLoop
    rw [hstep]
    exact hrun

end Division

/-! ## Quotients -/

/-- The number of rounds of the long division. -/
def rounds (dividend : HeftyInteger) : Nat := (wrap (wrap (8 * dividend.length) - 1) + 1).toNat

theorem rounds_eq {dividend : HeftyInteger} (h : 8 * dividend.length < 2 ^ 31) :
    dividend.rounds = 8 * dividend.length := by
  have hpos := dividend.length_pos
  have hwrap := wrap_eq h
  have hwrap' := wrap_eq (n := 8 * dividend.length - 1) (by omega)
  have hcast : ((8 * dividend.length - 1 : Nat) : Int) = 8 * dividend.length - 1 := by omega
  push_cast at hwrap
  rw [hcast] at hwrap'
  unfold rounds
  rw [hwrap, hwrap']
  omega

/-- The quotient of numbers without a sign. -/
theorem quotient_spec {dividend divisor : HeftyInteger} (h : Divisible dividend divisor) :
    ∃ r, divideLoop dividend divisor dividend.rounds (zero, dividend.zerosLike) = .ok r ∧
      r.2.value = dividend.value / divisor.value ∧ r.2.length = dividend.length := by
  have hA := value_of_nonneg h.nonneg
  have hD := value_of_nonneg (Int.le_of_lt h.pos)
  have hinit : DivInv dividend divisor (8 * dividend.length) (zero, dividend.zerosLike) := by
    have hlt := Nat.div_eq_of_lt (unsigned_lt dividend.val)
    have hdividend := dividend.length_pos
    have hbits : 8 * zero.length < 2 ^ 31 := by decide
    refine ⟨?_, ?_, fun _ => hbits, ?_, length_replicate⟩
    · unfold length
      rw [hlt, Nat.zero_mod]
      show zero.value = 0
      decide
    · show 1 ≤ max dividend.length divisor.length
      omega
    · unfold length
      rw [hlt, Nat.zero_div, Nat.zero_mul]
      exact unsigned_replicate_zero _
  rcases hinit.loop h (Nat.le_refl _) with ⟨r, hrun, hinv⟩
  rw [rounds_eq h.dividendBits]
  refine ⟨r, hrun, ?_, hinv.length⟩
  have hquotient := hinv.quotient
  rw [pow_zero, Nat.div_one, Nat.mul_one] at hquotient
  have hcast : (unsigned r.2.val : Int) = dividend.value / divisor.value := by
    rw [hquotient, hA, hD]
    push_cast
    rfl
  -- the quotient is not larger than the dividend, so that it has no sign
  have hle : unsigned r.2.val ≤ unsigned dividend.val := by
    rw [hquotient]
    exact Nat.div_le_self _ _
  have hhigh := dividend.fits.2
  rw [← hinv.length] at hhigh
  rw [← hcast]
  refine signed_unique (by decide) ?_ ?_ ?_
  · rw [Int.sub_self]
    exact dvd_zero _
  · show -2 ^ (8 * r.2.length) ≤ _
    omega
  · show _ < (2 : Int) ^ (8 * r.2.length)
    omega

theorem length_magnitude_negate (h : 0 ≤ a.value) : a.negate.magnitude.length = a.length := by
  have hlength := length_negate_of_nonneg h
  have hvalue := value_negate a
  unfold magnitude
  by_cases hneg : a.negate.value < 0
  · rw [(isNegative_iff _).mpr hneg, if_pos rfl]
    have hfit := a.fits
    rw [← hlength] at hfit
    rw [(negate_spec a.negate).2.2 (by rw [hvalue, Int.neg_neg]; exact hfit), hlength]
  · rw [(not_isNegative_iff _).mpr (by omega), if_neg (by decide), hlength]

theorem pow_le_of_length_cut {a : HeftyInteger} {n : Nat} (ha : 0 ≤ a.value)
    (hn : a.cut.length = n + 2) : (2 : Int) ^ (8 * n) ≤ a.value := by
  have hle := le_unsigned_cutZeros hn
  have hcut := value_of_nonneg (a := a.cut) (by rw [value_cut]; exact ha)
  rw [value_cut] at hcut
  rw [hcut]
  exact_mod_cast hle

theorem length_cut_le_log {a : HeftyInteger} (ha : 0 ≤ a.value) :
    a.cut.length ≤ a.value.toNat.log2 / 8 + 2 := by
  by_contra hlong
  obtain ⟨n, hn⟩ : ∃ n, a.cut.length = n + 2 := ⟨a.cut.length - 2, by omega⟩
  have hbig := pow_le_of_length_cut ha hn
  have hnat : 2 ^ (8 * n) ≤ a.value.toNat := by
    have hcast : ((a.value.toNat : Nat) : Int) = a.value := Int.toNat_of_nonneg ha
    rw [← hcast] at hbig
    exact_mod_cast hbig
  have hpos := Nat.two_pow_pos (8 * n)
  have hlog := (Nat.le_log2 (by omega)).mpr hnat
  omega

/-- Two integers whose bits a division can count. The divisor may be longer if the quotient
is no more than one. -/
structure BitsFit (a b : HeftyInteger) : Prop where
  ne : b.value ≠ 0
  bits : 8 * a.magnitude.length < 2 ^ 31
  length : b.magnitude.length < 2 ^ 31
  divisorBits : 8 * b.magnitude.length < 2 ^ 31 ∨ |a.value| < 2 * |b.value|

theorem divide_spec {a b : HeftyInteger} (h : BitsFit a b) :
    ∃ q, a.divide b = .ok q ∧ q.value = a.value.tdiv b.value ∧
      q.magnitude.length ≤ a.magnitude.length ∧
      (0 ≤ a.value → 0 ≤ b.value → q.length ≤ q.value.toNat.log2 / 8 + 2) := by
  rcases h with ⟨hb, ha, hb', hbits⟩
  have hvaluea := (magnitude_spec a).1
  have hvalueb := (magnitude_spec b).1
  have hargs : Divisible a.magnitude b.magnitude := by
    refine ⟨magnitude_nonneg a, ?_, ha, hb', ?_⟩
    · rw [hvalueb]
      exact abs_pos.mpr hb
    · rw [hvaluea, hvalueb]
      exact hbits
  rcases quotient_spec hargs with ⟨r, hrun, hvalue, hlength⟩
  rw [hvaluea, hvalueb] at hvalue
  have hnonneg : 0 ≤ r.2.value := by
    rw [hvalue]
    exact Int.ediv_nonneg (abs_nonneg _) (abs_nonneg _)
  have hcut := length_cut_le r.2
  have hrmag := (magnitude_spec r.2).2.2.2 hnonneg
  have hdivide : a.divide b = .ok
      (if a.isNegative ^^ b.isNegative then r.2.cut.negate else r.2.cut) := by
    have hprune : r.2.tryPrune = .ok r.2.cut := by
      rw [tryPrune_eq (by rw [hrmag]; omega), prune_of_nonneg hnonneg]
    unfold rounds at hrun
    unfold divide
    rw [tryEquals_zero hb', ok_bind, decide_eq_false hb]
    dsimp only
    rw [if_neg (by decide), tryMagnitude_of_lt (by omega), ok_bind, tryMagnitude_of_lt hb', ok_bind,
      hrun, ok_bind, hprune, ok_bind]
    split
    · refine newArray_of_lt ?_
      rw [length_negate_of_nonneg (by rw [value_cut]; exact hnonneg)]
      omega
    · rfl
  have hcutValue : r.2.cut.value = |a.value| / |b.value| := by
    rw [value_cut, hvalue]
  have hmagnitude := (magnitude_spec r.2.cut).2.2.2 (by rw [value_cut]; exact hnonneg)
  have hsame : r.2.cut.magnitude.length ≤ a.magnitude.length := by
    rw [hmagnitude]
    omega
  have hneg : r.2.cut.negate.magnitude.length ≤ a.magnitude.length := by
    rw [length_magnitude_negate (by rw [value_cut]; exact hnonneg)]
    omega
  refine ⟨_, hdivide, ?_⟩
  rw [← and_assoc]
  refine ⟨?_, fun hx hy => ?_⟩
  case refine_2 =>
    rw [(not_isNegative_iff a).mpr hx, (not_isNegative_iff b).mpr hy, if_neg (by decide), value_cut]
    exact length_cut_le_log hnonneg
  by_cases hx : a.value < 0
  · rw [(isNegative_iff a).mpr hx]
    by_cases hy : b.value < 0
    · rw [(isNegative_iff b).mpr hy, if_neg (by decide), hcutValue, abs_of_neg hx, abs_of_neg hy,
        ← Int.tdiv_eq_ediv_of_nonneg (by omega), Int.neg_tdiv_neg]
      exact ⟨rfl, hsame⟩
    · rw [(not_isNegative_iff b).mpr (by omega), if_pos (by decide), value_negate, hcutValue,
        abs_of_neg hx, abs_of_nonneg (by omega), ← Int.tdiv_eq_ediv_of_nonneg (by omega),
        Int.neg_tdiv, Int.neg_neg]
      exact ⟨rfl, hneg⟩
  · rw [(not_isNegative_iff a).mpr (by omega)]
    by_cases hy : b.value < 0
    · rw [(isNegative_iff b).mpr hy, if_pos (by decide), value_negate, hcutValue,
        abs_of_nonneg (by omega), abs_of_neg hy, ← Int.tdiv_eq_ediv_of_nonneg (by omega),
        Int.tdiv_neg, Int.neg_neg]
      exact ⟨rfl, hneg⟩
    · rw [(not_isNegative_iff b).mpr (by omega), if_neg (by decide), hcutValue,
        abs_of_nonneg (by omega), abs_of_nonneg (by omega), Int.tdiv_eq_ediv_of_nonneg (by omega)]
      exact ⟨rfl, hsame⟩

/-! ## Remainders -/

/-- A remainder of the truncated division that is negative is made positive. -/
theorem emod_of_tdiv {x y : Int} (hy : 0 < y) :
    (x - x.tdiv y * y < 0 → x - x.tdiv y * y + y = x % y) ∧
      (0 ≤ x - x.tdiv y * y → x - x.tdiv y * y = x % y) := by
  have htmod : x - x.tdiv y * y = x.tmod y := by
    rw [Int.tmod_def, Int.mul_comm]
  have hpos := Int.emod_nonneg x hy.ne'
  have hlt := Int.emod_lt_of_pos x hy
  rw [htmod, Int.tmod_eq_emod]
  split <;> omega

/-- Without its leading zeros a number has at most one byte more than a greater one. -/
theorem length_cut_le_of_lt {a b : HeftyInteger} (ha : 0 ≤ a.value) (hlt : a.value < b.value) :
    a.cut.length ≤ b.length + 1 := by
  by_contra hlong
  obtain ⟨n, hn⟩ : ∃ n, a.cut.length = n + 2 := ⟨a.cut.length - 2, by omega⟩
  have hbig := pow_le_of_length_cut ha hn
  have hfit := (b.fits.mono (show b.length ≤ n by omega)).2
  omega

/-- The negation of a product has the bytes of the product. -/
theorem fits_neg_product (a b : HeftyInteger) :
    Fits (product a b).length (-(product a b).value) := by
  have hnonneg := partialProduct_nonneg (magnitude_nonneg (longer a b)) (y := (shorter a b).magnitude)
    (bitsRead a b)
  unfold product
  dsimp only
  generalize partialProduct (longer a b).magnitude (shorter a b).magnitude (bitsRead a b) = r at *
  rcases r.fits with ⟨hlow, hhigh⟩
  split
  · rw [length_negate_of_nonneg hnonneg, value_negate, Int.neg_neg]
    exact r.fits
  · exact ⟨by omega, by omega⟩

/-- What is left of the dividend has its bytes or those of the product. -/
theorem length_minus_product {a q b : HeftyInteger}
    (h : Fits a.length (a.value - (product q b).value)) :
    (a.minus (product q b)).length ≤ max a.length (product q b).length := by
  rw [length_minus, width_of_fits (fits_neg_product q b)]
  exact width_le (Nat.le_refl _) (h.mono (Nat.le_max_left _ _))

/-- A remainder is not longer than both operands: if it needs as many bytes as the
longer one, the quotient is a single byte and the product is not longer either. -/
theorem length_remainder_le {a b q : HeftyInteger} (ha : 0 ≤ a.value) (hb : 0 < b.value)
    (hq : 0 ≤ q.value) (hlength : q.length ≤ a.length)
    (hpvalue : (product q b).value = q.value * b.value)
    (hrest : 0 ≤ (a.minus (product q b)).value) (hlt : (a.minus (product q b)).value < b.value) :
    (a.minus (product q b)).cut.length ≤ max a.length b.length := by
  by_contra hlong
  have hposa := a.length_pos
  obtain ⟨n, hn⟩ : ∃ n, (a.minus (product q b)).cut.length = n + 2 :=
    ⟨(a.minus (product q b)).cut.length - 2, by omega⟩
  have hbig := pow_le_of_length_cut hrest hn
  -- the divisor has `n + 1` bytes
  have hbytes := length_cut_le_of_lt hrest hlt
  have hmax : max a.length b.length = n + 1 := by omega
  have hdiff := value_minus a (product q b)
  have hhigh := (a.fits.mono (Nat.le_max_left a.length b.length)).2
  have hpow : (2 : Int) ^ (8 * (n + 1)) = 2 ^ 8 * 2 ^ (8 * n) := by
    rw [Nat.mul_succ, pow_add, Int.mul_comm]
  have hsmall : q.value < 2 ^ 8 := by
    by_contra hq8
    have hmul : 2 ^ 8 * (2 : Int) ^ (8 * n) ≤ q.value * b.value :=
      Int.mul_le_mul (Int.not_lt.mp hq8) (by omega) (by positivity) hq
    rw [hmax, hpow] at hhigh
    omega
  have hpnonneg : 0 ≤ (product q b).value := by
    rw [hpvalue]
    exact Int.mul_nonneg hq (Int.le_of_lt hb)
  have hfit : Fits (max a.length b.length) (product q b).value :=
    (a.fits.mono (Nat.le_max_left _ _)).of_le hpnonneg (by omega)
  have hplength : (product q b).length ≤ max a.length b.length := by
    have hshorter : shorter q b = q := if_neg (by omega)
    have hlonger : longer q b = b := if_neg (by omega)
    have hlog : (q.value.natAbs % 2 ^ bitsRead q b).log2 / 8 = 0 := by
      have hle := Nat.mod_le q.value.natAbs (2 ^ bitsRead q b)
      generalize q.value.natAbs % 2 ^ bitsRead q b = v at *
      by_cases hv : v = 0
      · rw [hv]
        decide
      · have hlt := (Nat.log2_lt hv (k := 8)).mpr (by omega)
        omega
    have hone := b.length_pos
    have hproduct := length_product q b
    rw [hshorter, hlonger, (magnitude_spec b).2.2.2 (Int.le_of_lt hb)] at hproduct
    rw [hproduct]
    unfold productLength
    split
    · omega
    · rw [hlog, Nat.add_zero]
      refine width_le (Nat.le_max_right _ _) (hfit.of_le ?_ ?_)
      · exact Int.mul_nonneg (Int.le_of_lt hb) (Int.natCast_nonneg _)
      · have hle := Nat.mod_le q.value.natAbs (2 ^ bitsRead q b)
        have hcast : ((q.value.natAbs % 2 ^ bitsRead q b : Nat) : Int) ≤ q.value := by omega
        rw [hpvalue, Int.mul_comm q.value]
        exact Int.mul_le_mul_of_nonneg_left hcast (Int.le_of_lt hb)
  have hlength := length_minus_product (q := q) (b := b)
    (a.fits.of_le (v := a.value - (product q b).value) (by omega) (by omega))
  have hcut := length_cut_le (a.minus (product q b))
  omega

/-- The arrays of the product of a quotient with its divisor can be made. -/
theorem productFits_of_quotient {q b : HeftyInteger} (hb : 0 ≤ b.value)
    (hq : 8 * q.magnitude.length < 2 ^ 31) (hlength : b.length < 2 ^ 31)
    (hbits : 8 * b.length < 2 ^ 31 ∨ |q.value| ≤ 1) :
    ProductFits q b ∧ (product q b).value = q.value * b.value := by
  have hmagnitude := (magnitude_spec b).2.2.2 hb
  have hle := q.le_length_magnitude
  have hshort : 8 * (shorter q b).magnitude.length < 2 ^ 31 := by
    unfold shorter
    split
    · rw [hmagnitude]
      omega
    · exact hq
  have hlong : (longer q b).magnitude.length < 2 ^ 31 := by
    unfold longer
    split
    · omega
    · rwa [hmagnitude]
  refine ⟨⟨?_, ?_, ?_⟩, product_right hshort⟩
  · rwa [← length_magnitude_width]
  · rw [← length_magnitude_width]
    omega
  unfold productLength
  split
  · decide
  · rename_i hv
    have hlog : (((shorter q b).value.natAbs % 2 ^ bitsRead q b).log2) <
        8 * (shorter q b).magnitude.length := by
      rw [Nat.log2_lt hv]
      have hunsigned := unsigned_lt (shorter q b).magnitude.val
      have habs := (magnitude_spec (shorter q b)).2.1
      rw [Int.abs_eq_natAbs] at habs
      have hnat : unsigned (shorter q b).magnitude.val = (shorter q b).value.natAbs := by
        exact_mod_cast habs
      rw [hnat] at hunsigned
      exact Nat.lt_of_le_of_lt (Nat.mod_le _ _) hunsigned
    by_cases hshortb : 8 * b.length < 2 ^ 31
    · have hlonger : 8 * (longer q b).magnitude.length < 2 ^ 31 := by
        unfold longer
        split
        · exact hq
        · rwa [hmagnitude]
      unfold width
      split <;> omega
    · -- the quotient is one, and the product the divisor
      have hlonger : longer q b = b := if_neg (by omega)
      have hshorter : shorter q b = q := if_neg (by omega)
      have hone := hbits.resolve_left hshortb
      rw [hshorter] at hv ⊢
      have hmod := Nat.mod_le q.value.natAbs (2 ^ bitsRead q b)
      rw [Int.abs_eq_natAbs] at hone
      have hv1 : q.value.natAbs % 2 ^ bitsRead q b = 1 := by omega
      rw [hlonger, hmagnitude, hv1, Nat.cast_one, Int.mul_one, show Nat.log2 1 / 8 = 0 by decide,
        Nat.add_zero, width_of_fits b.fits]
      exact hlength

/-- A quotient is no more than one if the dividend is less than twice the divisor. -/
theorem abs_tdiv_le_one {x y : Int} (h : |x| < 2 * |y|) : |x.tdiv y| ≤ 1 := by
  rw [Int.abs_eq_natAbs, Int.natAbs_tdiv]
  rw [Int.abs_eq_natAbs, Int.abs_eq_natAbs] at h
  have hdiv : x.natAbs / y.natAbs < 2 := Nat.div_lt_of_lt_mul (by omega)
  show ((x.natAbs / y.natAbs : Nat) : Int) ≤ 1
  omega

/-- What is left is between zero and the dividend. -/
theorem fits_remainder (a : HeftyInteger) (y : Int) :
    Fits a.length (a.value - a.value.tdiv y * y) := by
  have hmod : a.value - a.value.tdiv y * y = a.value.tmod y := by
    rw [Int.tmod_def, Int.mul_comm]
  have hsmall : (a.value.tmod y).natAbs ≤ a.value.natAbs := by
    rw [Int.natAbs_tmod]
    exact Nat.mod_le _ _
  rcases a.fits with ⟨hlow, hhigh⟩
  rw [hmod]
  rcases Int.le_total 0 a.value with ha | ha
  · have hsign := Int.tmod_nonneg y ha
    exact ⟨by omega, by omega⟩
  · have hsign := Int.tmod_nonneg y (Int.neg_nonneg.mpr ha)
    rw [Int.neg_tmod] at hsign
    have hpos : (0 : Int) < 2 ^ (8 * a.length) := by positivity
    exact ⟨by omega, by omega⟩

theorem modulo_spec {a b : HeftyInteger} (hb : 0 < b.value) (h : BitsFit a b) :
    ∃ r, a.modulo b = .ok r ∧ r.value = a.value % b.value ∧
      (0 ≤ a.value → r.length ≤ max a.length b.length) := by
  have hmagnitude := (magnitude_spec b).2.2.2 (Int.le_of_lt hb)
  rcases divide_spec h with ⟨q, hq, hqvalue, hqlength, -⟩
  rcases h with ⟨hne, ha, hb', hbits⟩
  have hla := a.le_length_magnitude
  have hequals := tryEquals_zero hb'
  rw [decide_eq_false hne] at hequals
  rw [hmagnitude] at hb' hbits
  rcases productFits_of_quotient (q := q) (b := b) (Int.le_of_lt hb) (by omega) hb'
    (hbits.imp_right fun hsmall => hqvalue ▸ abs_tdiv_le_one hsmall) with ⟨hfits, hpvalue⟩
  have hplength : (product q b).length < 2 ^ 31 := by
    rw [length_product]
    exact hfits.product
  have hresult : (a.minus (product q b)).value = a.value - a.value.tdiv b.value * b.value := by
    rw [value_minus, hpvalue, hqvalue]
  have hleft := fits_remainder a b.value
  rw [← hqvalue, ← hpvalue] at hleft
  have hdiff := length_minus_product hleft
  have hsubtract : a.subtract (product q b) = .ok (a.minus (product q b)) := by
    rw [subtract_eq, newArray_of_lt (by omega)]
  have hemod := emod_of_tdiv (x := a.value) hb
  have hrest := Int.emod_nonneg a.value (Int.ne_of_gt hb)
  have hlt := Int.emod_lt_of_pos a.value hb
  have hrun : ∀ r, (if (a.minus (product q b)).isNegative then (a.minus (product q b)).tryAdd b
      else pure (a.minus (product q b))) = .ok r → r.length < 2 ^ 31 → 0 ≤ r.value →
      a.modulo b = .ok r.cut := by
    intro r hr hlength hnonneg
    have hprune : r.tryPrune = .ok r.cut := by
      rw [tryPrune_eq (by rw [(magnitude_spec r).2.2.2 hnonneg]; exact hlength),
        prune_of_nonneg hnonneg]
    unfold modulo
    rw [(not_isNegative_iff b).mpr (Int.le_of_lt hb), hequals, ok_bind]
    dsimp only
    rw [if_neg (by decide), if_neg (by decide), hq, ok_bind, multiply_of_fits hfits, ok_bind,
      hsubtract, ok_bind]
    split at hr
    · rename_i hneg
      rw [if_pos hneg, hr, ok_bind, hprune]
    · rename_i hpos
      rw [if_neg hpos, hr, ok_bind, hprune]
  by_cases hneg : (a.minus (product q b)).value < 0
  · -- only of a negative dividend a remainder is negative
    have hvalue : ((a.minus (product q b)).add b).value = a.value % b.value := by
      rw [value_add, hresult]
      exact hemod.1 (by omega)
    have hfit : Fits b.length ((a.minus (product q b)).add b).value :=
      b.fits.of_le (by omega) (by omega)
    have hlength : ((a.minus (product q b)).add b).length < 2 ^ 31 := by
      rw [value_add] at hfit
      have hle := width_le (Nat.le_refl _)
        (hfit.mono (Nat.le_max_right (a.minus (product q b)).length b.length))
      rw [length_add]
      omega
    refine ⟨_, hrun _ ?_ hlength (by omega), by rw [value_cut, hvalue], fun hnonneg => ?_⟩
    · rw [(isNegative_iff _).mpr hneg, if_pos rfl]
      exact newArray_of_lt hlength
    · have hpos := Int.tmod_nonneg b.value hnonneg
      rw [Int.tmod_def, Int.mul_comm, ← hresult] at hpos
      omega
  · have hvalue : (a.minus (product q b)).value = a.value % b.value := by
      rw [hresult]
      exact hemod.2 (by omega)
    refine ⟨_, hrun (a.minus (product q b)) ?_ (by omega) (by omega), by rw [value_cut, hvalue],
      fun hnonneg => ?_⟩
    · rw [(not_isNegative_iff _).mpr (by omega), if_neg (by decide)]
      rfl
    · have hqnonneg : 0 ≤ q.value := by
        rw [hqvalue, Int.tdiv_eq_ediv_of_nonneg hnonneg]
        exact Int.ediv_nonneg hnonneg (Int.le_of_lt hb)
      rw [(magnitude_spec a).2.2.2 hnonneg, (magnitude_spec q).2.2.2 hqnonneg] at hqlength
      exact length_remainder_le hnonneg hb hqnonneg hqlength hpvalue (by omega) (by omega)

/-! ## Which integers can be divided -/

/-- A comparison with zero, for whose exception nothing is needed. -/
theorem tryEquals_of_zero {b : HeftyInteger} (h : b.value = 0) : b.tryEquals zero = .ok true := by
  have hnonneg := (not_isNegative_iff b).mpr (Int.le_of_eq h.symm)
  have hprune : b.tryPrune = .ok b.prune := by
    unfold tryPrune tryMagnitude prune magnitude
    rw [hnonneg]
    rfl
  have hzero : zero.tryPrune = .ok zero.prune := tryPrune_eq (by decide)
  have hequals := (equals_zero_iff b).mpr h
  unfold tryEquals
  rw [hprune, hzero]
  exact congrArg Except.ok hequals

theorem divide_zero {a b : HeftyInteger} (h : b.value = 0) :
    a.divide b = .error "cannot divide by 0" := by
  unfold divide
  rw [tryEquals_of_zero h, ok_bind]
  rfl

theorem modulo_nonpos {a b : HeftyInteger} (h : b.value ≤ 0) : ∃ e, a.modulo b = .error e := by
  unfold modulo
  by_cases hneg : b.value < 0
  · rw [(isNegative_iff b).mpr hneg, if_pos rfl]
    exact ⟨_, rfl⟩
  · rw [(not_isNegative_iff b).mpr (by omega), tryEquals_of_zero (by omega)]
    exact ⟨_, rfl⟩

/-- Division and remainder of two integers, and their exceptions. -/
structure DivisionCorrect (a b : HeftyInteger) : Prop where
  divide : b.value ≠ 0 → ∃ q, a.divide b = .ok q ∧ q.value = a.value.tdiv b.value
  modulo : 0 < b.value → ∃ r, a.modulo b = .ok r ∧
    ∀ s : Int, 0 ≤ s ∧ s < b.value ∧ b.value ∣ a.value - s ↔ s = r.value
  divideThrows : (∃ e, a.divide b = .error e) ↔ b.value = 0
  moduloThrows : (∃ e, a.modulo b = .error e) ↔ b.value ≤ 0

/-- Division is right for every divisor that is zero and for all integers whose bits it can
count. -/
theorem division_correct {a b : HeftyInteger} (h : b.value = 0 ∨ BitsFit a b) :
    DivisionCorrect a b := by
  have hdivide : b.value ≠ 0 → ∃ q, a.divide b = .ok q ∧ q.value = a.value.tdiv b.value := by
    intro hne
    rcases divide_spec (h.resolve_left hne) with ⟨q, hq, hvalue, -⟩
    exact ⟨q, hq, hvalue⟩
  have hmodulo : 0 < b.value → ∃ r, a.modulo b = .ok r ∧ r.value = a.value % b.value := by
    intro hpos
    rcases modulo_spec hpos (h.resolve_left (by omega)) with ⟨r, hr, hvalue, -⟩
    exact ⟨r, hr, hvalue⟩
  refine ⟨hdivide, ?_, ?_, ?_⟩
  · intro hpos
    rcases hmodulo hpos with ⟨r, hr, hvalue⟩
    refine ⟨r, hr, fun s => ?_⟩
    rw [hvalue]
    constructor
    · rintro ⟨hnonneg, hlt, hdvd⟩
      have hcongr : a.value % b.value = s % b.value :=
        Int.emod_eq_emod_iff_emod_sub_eq_zero.mpr (Int.emod_eq_zero_of_dvd hdvd)
      rw [hcongr, Int.emod_eq_of_lt hnonneg hlt]
    · rintro rfl
      exact ⟨Int.emod_nonneg _ (by omega), Int.emod_lt_of_pos _ hpos, Int.dvd_self_sub_emod⟩
  · constructor
    · rintro ⟨e, he⟩
      by_contra hne
      rcases hdivide hne with ⟨q, hq, -⟩
      rw [hq] at he
      cases he
    · exact fun hzero => ⟨_, divide_zero hzero⟩
  · constructor
    · rintro ⟨e, he⟩
      by_contra hpos
      rcases hmodulo (Int.not_le.mp hpos) with ⟨r, hr, -⟩
      rw [hr] at he
      cases he
    · exact modulo_nonpos

/-- Minus seven and two. -/
theorem division_correct_seven :
    (∃ q, HeftyInteger.divide ⟨[0xF9], cons_ne_nil _ _⟩ ⟨[2], cons_ne_nil _ _⟩ = .ok q ∧
      q.value = -3) ∧
    ∃ r, HeftyInteger.modulo ⟨[0xF9], cons_ne_nil _ _⟩ ⟨[2], cons_ne_nil _ _⟩ = .ok r ∧
      r.value = 1 := by
  have hcorrect : DivisionCorrect ⟨[0xF9], cons_ne_nil _ _⟩ ⟨[2], cons_ne_nil _ _⟩ :=
    division_correct (.inr ⟨by decide, by decide, by decide, .inl (by decide)⟩)
  refine ⟨hcorrect.divide (by decide), ?_⟩
  rcases hcorrect.modulo (by decide) with ⟨r, hr, hvalue⟩
  exact ⟨r, hr, ((hvalue 1).mp (by decide)).symm⟩

/-- The number of bits of the dividend is not an `int`, and its highest bit is not found. -/
theorem divideLoop_error {dividend divisor : HeftyInteger} {n : Nat}
    {r : HeftyInteger × HeftyInteger} (h : wrap (8 * dividend.length) ≤ n) :
    divideLoop dividend divisor (n + 1) r = .error "target bit out of bounds" := by
  have hbit : dividend.getBit n = .error "target bit out of bounds" := if_pos h
  unfold divideLoop divideStep
  rw [hbit]
  rfl

/-- The dividend that needs `2 ^ 28` bytes without its sign cannot be divided. -/
theorem divide_error {a b : HeftyInteger} (ha : a.magnitude.length = 2 ^ 28) (hb : b.value ≠ 0)
    (hb' : b.magnitude.length < 2 ^ 31) : a.divide b = .error "target bit out of bounds" := by
  have hwrap : wrap (8 * ((2 ^ 28 : Nat) : Int)) = -2 ^ 31 := by decide
  have hrounds : (wrap (wrap (8 * a.magnitude.length) - 1) + 1).toNat = 2 ^ 31 - 1 + 1 := by
    rw [ha]
    decide
  have hloop : divideLoop a.magnitude b.magnitude (2 ^ 31 - 1 + 1)
      (zero, a.magnitude.zerosLike) = .error "target bit out of bounds" := by
    refine divideLoop_error ?_
    rw [ha, hwrap]
    omega
  unfold divide
  rw [tryEquals_zero hb', decide_eq_false hb, ok_bind]
  dsimp only
  rw [if_neg (by decide), tryMagnitude_of_lt (by omega), ok_bind, tryMagnitude_of_lt hb', ok_bind,
    hrounds, hloop]
  rfl

/-- The least number of `n + 1` bytes. -/
def least (n : Nat) : HeftyInteger := ⟨0x80 :: List.replicate n 0, cons_ne_nil _ _⟩

theorem length_least (n : Nat) : (least n).length = n + 1 := by
  unfold least length
  rw [length_cons, length_replicate]

theorem length_magnitude_least (n : Nat) : (least n).magnitude.length = n + 2 := by
  have hmin : 2 * (least n).value = -2 ^ (8 * (least n).length) :=
    (needsEx_iff (least n)).mp ⟨rfl, fun b hb => eq_of_mem_replicate hb⟩
  have hpos : (0 : Int) < 2 ^ (8 * (least n).length) := by positivity
  have hneg : (least n).value < 0 := by omega
  rcases negate_spec (least n) with ⟨hvalue, hlength, -⟩
  have hlonger : (least n).length < (least n).negate.length := by
    by_contra hshort
    have hfit := ((least n).negate.fits.mono (Nat.not_lt.mp hshort)).2
    omega
  unfold magnitude
  rw [(isNegative_iff _).mpr hneg, if_pos rfl]
  rw [length_least] at hlength hlonger
  omega

/-- The least number of `2 ^ 28 - 1` bytes cannot be divided by one. -/
theorem not_division_correct : ¬ ∀ a b : HeftyInteger, DivisionCorrect a b := by
  intro hall
  have hmagnitude : (least (2 ^ 28 - 2)).magnitude.length = 2 ^ 28 := length_magnitude_least _
  rcases (hall (least (2 ^ 28 - 2)) one).divide (by decide) with ⟨q, hq, -⟩
  rw [divide_error hmagnitude (by decide) (by decide)] at hq
  cases hq

end HeftyInteger

end PittCs.Hefty
