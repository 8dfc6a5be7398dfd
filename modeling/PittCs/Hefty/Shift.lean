import PittCs.Hefty.Addition

/-!
# Shifts and bits
-/

namespace PittCs.Hefty

open PittCs.Lib.Digits List

namespace HeftyInteger

variable {a b : HeftyInteger}

/-! ## Left shift -/

/-- The loop multiplies by a power of two. -/
theorem leftShiftLoop_spec {k : Nat} (hk : k < 8) (l : List Byte) :
    unsigned (leftShiftLoop k l).1 + (leftShiftLoop k l).2.toNat * 2 ^ (8 * l.length) =
        unsigned l * 2 ^ k ∧ (leftShiftLoop k l).2.toNat < 2 ^ k := by
  induction l with
  | nil => exact ⟨by simp [leftShiftLoop], Nat.two_pow_pos k⟩
  | cons b rest ih =>
    rcases ih with ⟨hrest, hsmall⟩
    have hbyte := leftShift_byte hk b hsmall
    unfold leftShiftLoop
    dsimp only
    refine ⟨?_, ?_⟩
    · rw [unsigned_cons, unsigned_cons, length_leftShiftLoop, length_cons, pow_succ_digit]
      generalize (toByte ((toInt b <<< k ||| (leftShiftLoop k rest).2) &&& 0xFF)).toNat = x at *
      generalize ((toInt b <<< k ||| (leftShiftLoop k rest).2).sshiftRight 8 &&&
        ~~~((-1 : BitVec 32) <<< k)).toNat = y at *
      calc x * 2 ^ (8 * rest.length) + unsigned (leftShiftLoop k rest).1 +
            y * (2 ^ 8 * 2 ^ (8 * rest.length))
          = (x + y * 2 ^ 8) * 2 ^ (8 * rest.length) + unsigned (leftShiftLoop k rest).1 := by ring
        _ = b.toNat * 2 ^ k * 2 ^ (8 * rest.length) + (unsigned (leftShiftLoop k rest).1 +
            (leftShiftLoop k rest).2.toNat * 2 ^ (8 * rest.length)) := by rw [hbyte]; ring
        _ = (b.toNat * 2 ^ (8 * rest.length) + unsigned rest) * 2 ^ k := by rw [hrest]; ring
    · rw [toNat_and_lowMask hk]
      exact Nat.mod_lt _ (Nat.two_pow_pos k)

/-- An overflow fits into a byte without a sign. -/
theorem toByte_overflow {k : Nat} (hk : k < 8) {o : BitVec 32} (ho : o.toNat < 2 ^ k) :
    (toByte o).toNat = o.toNat ∧ (toByte o).toInt = o.toNat := by
  have hle : 2 ^ k ≤ 2 ^ 7 := Nat.pow_le_pow_right (by decide) (by omega)
  have htoNat : (toByte o).toNat = o.toNat := by
    unfold toByte
    rw [BitVec.toNat_setWidth]
    omega
  refine ⟨htoNat, ?_⟩
  rw [BitVec.toInt_eq_toNat_cond, htoNat, if_pos (by omega)]

theorem value_extend (a : HeftyInteger) (e : Byte) :
    (a.extend e).value = e.toInt * 2 ^ (8 * a.length) + unsigned a.val := rfl

theorem shiftedBits_spec {k : Nat} (hk : k < 8) (a : HeftyInteger) :
    (a.shiftedBits k).1.length = a.length ∧
      (unsigned (a.shiftedBits k).1.val : Int) + (a.shiftedBits k).2.toNat * 2 ^ (8 * a.length) =
        unsigned a.val * 2 ^ k ∧ (a.shiftedBits k).2.toNat < 2 ^ k := by
  rcases leftShiftLoop_spec hk a.val with ⟨hloop, hsmall⟩
  exact ⟨length_leftShiftLoop k a.val, by exact_mod_cast hloop, hsmall⟩

theorem bitLeftShift_of_nonneg {k : Nat} (hk : k < 8) (a : HeftyInteger) (ha : 0 ≤ a.value) :
    (a.bitLeftShift k).value = a.value * 2 ^ k ∧ (a.bitLeftShift k).length ≤ a.length + 1 ∧
      (Fits a.length (a.value * 2 ^ k) → (a.bitLeftShift k).length = a.length) := by
  rcases a.shiftedBits_spec hk with ⟨hlength, hloop, hsmall⟩
  unfold bitLeftShift
  generalize a.shiftedBits k = r at *
  rcases r with ⟨res, o⟩
  dsimp only at *
  have hpos : (0 : Int) ≤ 2 ^ (8 * a.length) := by positivity
  have hbytes := (toByte_overflow hk hsmall).2
  have hvalue := value_of_nonneg ha
  have hzero : (0 : BitVec 32).toNat = 0 := rfl
  rw [hvalue, ← hloop, (not_isNegative_iff a).mpr ha]
  by_cases ho : o = 0
  · subst ho
    rw [if_neg (not_not.mpr rfl), hzero, Nat.cast_zero, Int.zero_mul, Int.add_zero]
    unfold fixSign
    by_cases hr : res.value < 0
    · have hneg := value_of_neg hr
      have hlow := res.fits.1
      rw [(isNegative_iff res).mpr hr, if_pos (by decide), value_extend_zero]
      refine ⟨rfl, Nat.le_of_eq (congrArg (· + 1) hlength), fun hfit => ?_⟩
      have hhigh := hfit.2
      rw [hlength] at hneg hlow
      omega
    · rw [(not_isNegative_iff res).mpr (Int.not_lt.mp hr), if_neg (by decide), if_neg (by decide),
        value_of_nonneg (Int.not_lt.mp hr)]
      exact ⟨rfl, by omega, fun _ => hlength⟩
  · -- bits are left over: they are the first byte
    have hone : (1 : Int) ≤ o.toNat := by
      have hne : o.toNat ≠ 0 := fun h => ho (BitVec.eq_of_toNat_eq h)
      omega
    have hext : (res.extend (toByte o)).value = o.toNat * 2 ^ (8 * a.length) + unsigned res.val := by
      rw [value_extend, hbytes, hlength]
    have hbig : 1 * (2 : Int) ^ (8 * a.length) ≤ o.toNat * 2 ^ (8 * a.length) :=
      Int.mul_le_mul_of_nonneg_right hone hpos
    rw [if_pos ho]
    unfold fixSign
    rw [(not_isNegative_iff _).mpr (by omega), if_neg (by decide), if_neg (by decide), hext]
    refine ⟨Int.add_comm _ _, Nat.le_of_eq (congrArg (· + 1) hlength), fun hfit => ?_⟩
    have hhigh := hfit.2
    omega

/-- A negative number that is shifted within a byte gets another one, needed or not. -/
theorem bitLeftShift_of_neg {k : Nat} (hk : k < 8) (a : HeftyInteger) (ha : a.value < 0) :
    (a.bitLeftShift k).value = a.value * 2 ^ k ∧
      (a.bitLeftShift k).length = a.length + if k = 0 then 0 else 1 := by
  rcases a.shiftedBits_spec hk with ⟨hlength, hloop, hsmall⟩
  rcases a.fits with ⟨hlow, hhigh⟩
  unfold bitLeftShift
  generalize a.shiftedBits k = r at *
  rcases r with ⟨res, o⟩
  dsimp only at *
  have hpos : (0 : Int) ≤ 2 ^ (8 * a.length) := by positivity
  have hvalue := value_of_neg ha
  have hunsigned : (unsigned res.val : Int) < 2 ^ (8 * res.length) := by
    exact_mod_cast unsigned_lt res.val
  rw [hlength] at hunsigned
  rw [(isNegative_iff a).mpr ha]
  by_cases ho : o = 0
  · -- nothing is left over of a negative number only if it is not shifted
    subst ho
    have hzero : (0 : BitVec 32).toNat = 0 := rfl
    rw [hzero, Nat.cast_zero, Int.zero_mul, Int.add_zero] at hloop
    have hk0 : k = 0 := by
      by_contra hk0
      have htwo : (2 : Int) ^ 1 ≤ 2 ^ k := pow_le_pow_right₀ (by decide) (by omega)
      have hmul : (unsigned a.val : Int) * 2 ^ 1 ≤ unsigned a.val * 2 ^ k :=
        Int.mul_le_mul_of_nonneg_left htwo (Int.natCast_nonneg _)
      omega
    subst hk0
    rw [pow_zero, mul_one] at hloop ⊢
    have hsame : res.value = a.value := by
      refine signed_unique (by decide) ?_ ?_ ?_
      · rw [hloop, hvalue, sub_sub_cancel, ← hlength]
        exact dvd_refl _
      · rw [← hlength] at hlow
        exact hlow
      · rw [← hlength] at hhigh
        exact hhigh
    rw [if_neg (not_not.mpr rfl)]
    unfold fixSign
    rw [(isNegative_iff res).mpr (by omega), if_neg (by decide), if_neg (by decide), hsame]
    exact ⟨rfl, hlength⟩
  · have hk0 : k ≠ 0 := by
      rintro rfl
      exact ho (BitVec.eq_of_toNat_eq (Nat.lt_one_iff.mp hsmall))
    rcases toByte_overflow hk hsmall with ⟨hbyte, hbytes⟩
    have hext : (res.extend (toByte o)).value = o.toNat * 2 ^ (8 * a.length) + unsigned res.val := by
      rw [value_extend, hbytes, hlength]
    have hnonneg : (0 : Int) ≤ o.toNat * 2 ^ (8 * a.length) :=
      Int.mul_nonneg (Int.natCast_nonneg _) hpos
    have hmask := negativeMask_byte hk (toByte o) (by omega)
    rw [if_pos ho]
    unfold fixSign
    rw [(not_isNegative_iff _).mpr (by omega), if_neg (by decide), if_pos (by decide), if_neg hk0]
    refine ⟨?_, congrArg (· + 1) hlength⟩
    calc (toByte (toInt (toByte o) ||| ((-1 : BitVec 32) <<< k &&& 0xFF))).toInt *
          2 ^ (8 * res.length) + unsigned res.val
        = unsigned res.val + o.toNat * 2 ^ (8 * a.length) - 2 ^ (8 * a.length) * 2 ^ k := by
          rw [hmask, hbyte, hlength]
          ring
      _ = a.value * 2 ^ k := by
          rw [hloop, hvalue]
          ring

theorem value_bitLeftShift {k : Nat} (hk : k < 8) (a : HeftyInteger) :
    (a.bitLeftShift k).value = a.value * 2 ^ k := by
  by_cases ha : a.value < 0
  · exact (a.bitLeftShift_of_neg hk ha).1
  · exact (a.bitLeftShift_of_nonneg hk (Int.not_lt.mp ha)).1

theorem value_byteLeftShift (a : HeftyInteger) (n : Nat) :
    (a.byteLeftShift n).value = a.value * 2 ^ (8 * n) := by
  unfold byteLeftShift value
  rw [signed_append a.nonempty, length_replicate]
  have hzero : unsigned (List.replicate n (0 : Byte)) = 0 := unsigned_replicate_zero n
  rw [hzero, Nat.cast_zero, Int.add_zero]

/-- The bytes of a left shift. -/
def shifted (a : HeftyInteger) (n : Nat) : HeftyInteger :=
  (a.bitLeftShift (n % 8)).byteLeftShift (n / 8)

theorem leftShift_eq (a : HeftyInteger) (n : Nat) : a.leftShift n = newArray (a.shifted n) := by
  have hbytes : (n - n % 8) / 8 = n / 8 := by omega
  unfold leftShift shifted
  rw [if_neg (by omega), Int.toNat_natCast]
  dsimp only
  rw [hbytes]

theorem value_shifted (a : HeftyInteger) (n : Nat) : (a.shifted n).value = a.value * 2 ^ n := by
  unfold shifted
  rw [value_byteLeftShift, value_bitLeftShift (by omega), Int.mul_assoc, ← pow_add, Nat.mod_add_div]

/-- A number fits with whole bytes behind it just when it fits without them. -/
theorem fits_shifted_iff {k q : Nat} {v : Int} :
    Fits (k + q) (v * 2 ^ (8 * q)) ↔ Fits k v := by
  have hpos : (0 : Int) < 2 ^ (8 * q) := by positivity
  have hpow : (2 : Int) ^ (8 * (k + q)) = 2 ^ (8 * k) * 2 ^ (8 * q) := by
    rw [Nat.mul_add, pow_add]
  unfold Fits
  rw [hpow, ← Int.neg_mul, ← Int.mul_assoc, mul_le_mul_iff_left₀ hpos, mul_lt_mul_iff_left₀ hpos]

theorem length_shifted (a : HeftyInteger) (n : Nat) :
    (a.shifted n).length = (a.bitLeftShift (n % 8)).length + n / 8 := by
  unfold shifted byteLeftShift length
  rw [length_append, length_replicate]

theorem length_shifted_of_nonneg (ha : 0 ≤ a.value) (n : Nat) :
    (a.shifted n).length = width (a.length + n / 8) (a.value * 2 ^ n) := by
  rcases a.bitLeftShift_of_nonneg (k := n % 8) (by omega) ha with ⟨hvalue, hle, hfit⟩
  have hsplit : a.value * 2 ^ n = a.value * 2 ^ (n % 8) * 2 ^ (8 * (n / 8)) := by
    rw [Int.mul_assoc, ← pow_add, Nat.mod_add_div]
  rw [← hvalue] at hfit
  rw [length_shifted, length_eq_width hle hfit, hvalue, hsplit]
  unfold width
  simp only [fits_shifted_iff]
  split <;> omega

/-- The bytes that a left shift makes. -/
def shiftLength (a : HeftyInteger) (n : Nat) : Nat :=
  if a.value < 0 then a.length + n / 8 + if n % 8 = 0 then 0 else 1
  else width (a.length + n / 8) (a.value * 2 ^ n)

theorem length_shifted_eq (a : HeftyInteger) (n : Nat) : (a.shifted n).length = a.shiftLength n := by
  unfold shiftLength
  by_cases ha : a.value < 0
  · rw [if_pos ha, length_shifted, (a.bitLeftShift_of_neg (by omega) ha).2]
    omega
  · rw [if_neg ha]
    exact length_shifted_of_nonneg (Int.not_lt.mp ha) n

/-! ## Right shift -/

theorem length_rightShiftLoop (k : Nat) (l : List Byte) (o : Byte) :
    (rightShiftLoop k l o).length = l.length := by
  induction l generalizing o with
  | nil => rfl
  | cons t rest ih =>
    unfold rightShiftLoop
    dsimp only
    rw [length_cons, ih, length_cons]

/-- The loop divides by a power of two; `c` are the bits that come from the byte
before. -/
theorem rightShiftLoop_spec {k c : Nat} (hk : k < 8) {l : List Byte} {o : Byte}
    (ho : o.toNat = c * 2 ^ (8 - k)) :
    unsigned (rightShiftLoop k l o) = (c * 2 ^ (8 * l.length) + unsigned l) / 2 ^ k := by
  have hpow : 2 ^ k * 2 ^ (8 - k) = 2 ^ 8 := by
    rw [← Nat.pow_add]
    congr 1
    omega
  induction l generalizing o c with
  | nil =>
    have hc : c < 2 ^ k := by
      have hlt := o.isLt
      rw [ho, ← hpow] at hlt
      exact Nat.lt_of_mul_lt_mul_right hlt
    unfold rightShiftLoop
    rw [unsigned_nil, length_nil, Nat.mul_zero, Nat.pow_zero, Nat.mul_one, Nat.add_zero,
      Nat.div_eq_of_lt hc]
  | cons t rest ih =>
    have hkeep := rightShift_keep hk t
    have hrest := ih (rightOverflow_toNat hk t)
    have hsmall : t.toNat / 2 ^ k < 2 ^ (8 - k) := by
      rw [Nat.div_lt_iff_lt_mul (Nat.two_pow_pos k), Nat.mul_comm, hpow]
      exact t.isLt
    have hlen : ∀ o, (rightShiftLoop k rest o).length = rest.length := length_rightShiftLoop k rest
    unfold rightShiftLoop
    dsimp only
    rw [unsigned_cons, unsigned_cons, toNat_or_overflow (by rw [hkeep]; exact hsmall) ho, hkeep,
      hrest, hlen, length_cons, pow_succ_digit, ho]
    have hsplit : c * (2 ^ 8 * 2 ^ (8 * rest.length)) + (t.toNat * 2 ^ (8 * rest.length) +
        unsigned rest) = (t.toNat % 2 ^ k * 2 ^ (8 * rest.length) + unsigned rest) +
        2 ^ k * ((t.toNat / 2 ^ k + c * 2 ^ (8 - k)) * 2 ^ (8 * rest.length)) := by
      conv_lhs => rw [← Nat.mod_add_div t.toNat (2 ^ k), ← hpow]
      ring
    rw [hsplit, Nat.add_mul_div_left _ _ (Nat.two_pow_pos k), Nat.add_comm]

theorem value_bitRightShift {k : Nat} (hk : k < 8) (a : HeftyInteger) :
    (a.bitRightShift k).value = a.value / 2 ^ k := by
  have hloop := rightShiftLoop_spec (l := a.val.tail) hk (rightOverflow_toNat hk a.first)
  have hvalue : a.value = a.first.toInt * 2 ^ (8 * a.val.tail.length) + unsigned a.val.tail := by
    unfold value
    rw [a.val_eq, signed_cons]
    rfl
  have hpos : (2 : Int) ^ k ≠ 0 := by positivity
  -- the bits of the first byte below the shift go to the bytes after it
  have hsplit : a.value = ((a.first.toNat % 2 ^ k * 2 ^ (8 * a.val.tail.length) +
      unsigned a.val.tail : Nat) : Int) +
      2 ^ k * (a.first.toInt / 2 ^ k * 2 ^ (8 * a.val.tail.length)) := by
    push_cast
    have hemod := toInt_emod hk a.first
    push_cast at hemod
    rw [hvalue, ← hemod]
    conv_lhs => rw [← Int.mul_ediv_add_emod a.first.toInt (2 ^ k)]
    ring
  have hshifted : (a.bitRightShift k).value = a.first.toInt / 2 ^ k * 2 ^ (8 * a.val.tail.length) +
      ((a.first.toNat % 2 ^ k * 2 ^ (8 * a.val.tail.length) + unsigned a.val.tail) / 2 ^ k : Nat) := by
    unfold bitRightShift value
    rw [signed_cons, hloop, rightShift_first hk, length_rightShiftLoop]
  rw [hshifted, hsplit, Int.add_mul_ediv_left _ _ hpos, Int.natCast_ediv, Int.add_comm]
  push_cast
  rfl

theorem value_byteRightShift (a : HeftyInteger) (n : Nat) :
    (a.byteRightShift n).value = a.value / 2 ^ (8 * n) := by
  unfold byteRightShift
  by_cases h : a.length ≤ n
  · -- all bytes are shifted off
    rcases a.fits.mono h with ⟨hlow, hhigh⟩
    rw [dif_pos h]
    by_cases ha : a.value < 0
    · rw [(isNegative_iff a).mpr ha, if_pos rfl]
      have hdiv : a.value / 2 ^ (8 * n) = -1 := by
        rw [Int.ediv_eq_iff_of_pos (by positivity)]
        constructor <;> omega
      rw [hdiv]
      decide
    · rw [(not_isNegative_iff a).mpr (by omega), if_neg (by decide),
        Int.ediv_eq_zero_of_lt (by omega) (by omega)]
      decide
  · rw [dif_neg h]
    have hdrop : (a.val.drop (a.length - n)).length = n := by
      rw [length_drop]
      unfold length at h ⊢
      omega
    have hlow : (unsigned (a.val.drop (a.length - n)) : Int) < 2 ^ (8 * n) := by
      have hlt := unsigned_lt (a.val.drop (a.length - n))
      rw [hdrop] at hlt
      exact_mod_cast hlt
    have hne : a.val.take (a.length - n) ≠ [] := by
      rw [← length_pos_iff, length_take]
      unfold length at h ⊢
      omega
    have hsplit := signed_append hne (a.val.drop (a.length - n))
    rw [take_append_drop, hdrop] at hsplit
    unfold value
    rw [hsplit, Int.add_comm, Int.add_mul_ediv_right _ _ (by positivity),
      Int.ediv_eq_zero_of_lt (Int.natCast_nonneg _) hlow, Int.zero_add]

theorem rightShift_spec (a : HeftyInteger) (n : Nat) :
    ∃ r, a.rightShift n = .ok r ∧ r.value = a.value / 2 ^ n := by
  unfold rightShift
  rw [if_neg (by omega), Int.toNat_natCast]
  refine ⟨_, rfl, ?_⟩
  have hn : n % 8 + 8 * ((n - n % 8) / 8) = n := by omega
  by_cases hbytes : 0 < (n - n % 8) / 8
  · rw [if_pos hbytes, value_byteRightShift, value_bitRightShift (by omega),
      Int.ediv_ediv_of_nonneg (by positivity), ← pow_add, hn]
  · have hsame : n % 8 = n := by omega
    rw [if_neg hbytes, value_bitRightShift (by omega), hsame]

/-! ## Bits -/

theorem wrap_le {n : Nat} : wrap n ≤ n := by
  unfold wrap
  rw [Int.bmod_def]
  omega

theorem wrap_eq {n : Nat} (h : n < 2 ^ 31) : wrap n = n := by
  unfold wrap
  rw [Int.bmod_def]
  omega

/-- The byte of a bit, and the bytes before and behind it. -/
theorem get_split {a : HeftyInteger} {i : Nat} (hlt : i < 8 * a.length) :
    ∃ hi d lo, a.val = hi ++ d :: lo ∧ 8 * lo.length + i % 8 = i ∧
      a.val.get ⟨a.length - (i - i % 8) / 8 - 1, a.index_lt _⟩ = d ∧
      ∀ d', a.val.set (a.length - (i - i % 8) / 8 - 1) d' = hi ++ d' :: lo := by
  have hbyte : (i - i % 8) / 8 < a.length := by omega
  rcases a with ⟨val, hne⟩
  unfold length at *
  dsimp only at *
  rcases exists_split hbyte with ⟨hi, d, lo, rfl, hlo⟩
  have hindex : (hi ++ d :: lo).length - (i - i % 8) / 8 - 1 = hi.length := by
    rw [length_append, length_cons, ← hlo]
    omega
  refine ⟨hi, d, lo, rfl, by omega, ?_, ?_⟩
  · have hsome : (hi ++ d :: lo)[(hi ++ d :: lo).length - (i - i % 8) / 8 - 1]? = some d := by
      rw [hindex, List.getElem?_append_right (Nat.le_refl _), Nat.sub_self]
      rfl
    exact (List.getElem?_eq_some_iff.mp hsome).2
  · intro d'
    rw [hindex, set_append_right _ _ (Nat.le_refl _), Nat.sub_self, set_cons_zero]

theorem getBit_spec {a : HeftyInteger} {i : Nat} (hi : (i : Int) < wrap (8 * a.length)) :
    a.getBit i = .ok (decide (unsigned a.val / 2 ^ i % 2 = 1)) := by
  have hlt : i < 8 * a.length := by
    have hle := wrap_le (n := 8 * a.length)
    push_cast at hle
    omega
  rcases get_split hlt with ⟨hi', d, lo, hval, hpos, hget, -⟩
  unfold getBit
  rw [if_neg (by omega)]
  dsimp only
  rw [hget, getBit_byte (Nat.mod_lt i (by decide)),
    ← unsigned_bit (Nat.mod_lt i (by decide)), hpos, ← hval]
  rfl

theorem setBit_spec {a : HeftyInteger} {i : Nat} (hi : (i : Int) < wrap (8 * a.length)) (v : Bool) :
    ∃ r, a.setBit i v = .ok r ∧ r.length = a.length ∧
      unsigned r.val + unsigned a.val / 2 ^ i % 2 * 2 ^ i = unsigned a.val + v.toNat * 2 ^ i := by
  have hlt : i < 8 * a.length := by
    have hle := wrap_le (n := 8 * a.length)
    push_cast at hle
    omega
  rcases get_split hlt with ⟨hi', d, lo, hval, hpos, hget, hset⟩
  have hbyte := setBit_byte (Nat.mod_lt i (by decide : 0 < 8)) d v
  unfold setBit
  rw [if_neg (by omega)]
  dsimp only
  refine ⟨_, rfl, length_set, ?_⟩
  dsimp only
  have hbit : unsigned (hi' ++ d :: lo) / 2 ^ i % 2 = d.toNat / 2 ^ (i % 8) % 2 := by
    conv_lhs => rw [← hpos]
    exact unsigned_bit (Nat.mod_lt i (by decide))
  have hpow : 2 ^ i = 2 ^ (8 * lo.length) * 2 ^ (i % 8) := by
    rw [← Nat.pow_add, hpos]
  rw [hset, hget, hval, hbit, hpow, unsigned_split, unsigned_split]
  generalize (if v = true then toByte (toInt d ||| toInt (toByte ((1 : BitVec 32) <<< (i % 8))))
    else toByte (toInt d &&& ~~~toInt (toByte ((1 : BitVec 32) <<< (i % 8))))).toNat = new at *
  calc (unsigned hi' * 2 ^ 8 + new) * 2 ^ (8 * lo.length) + unsigned lo +
        d.toNat / 2 ^ (i % 8) % 2 * (2 ^ (8 * lo.length) * 2 ^ (i % 8))
      = (unsigned hi' * 2 ^ 8 + (new + d.toNat / 2 ^ (i % 8) % 2 * 2 ^ (i % 8))) *
        2 ^ (8 * lo.length) + unsigned lo := by ring
    _ = (unsigned hi' * 2 ^ 8 + d.toNat) * 2 ^ (8 * lo.length) + unsigned lo +
        v.toNat * (2 ^ (8 * lo.length) * 2 ^ (i % 8)) := by rw [hbyte]; ring

end HeftyInteger

end PittCs.Hefty
