import PittCs.Lib.Digits
import Mathlib.Tactic.IntervalCases

/-!
# Hefty integers

`HeftyInteger.java`. An integer of any size is an array of bytes in two's
complement, the most significant byte first. A byte is promoted to an `int` before
any operation and cut back to eight bits after it.

The operations are functions of the bytes: only `setBit` writes into an array that it
did not make, and the integer it was called on is not used again. Sums, negations and
shifts are given in two steps, first the bytes, then `newArray`: the length of an array is
an `int`, and an array that would be longer cannot be made. No array that such an
operation makes on its way is longer than its result. The number of bits, `8 * length`,
leaves the range of `int` for arrays that exist, and wraps.
-/

namespace PittCs.Hefty

open List

abbrev Byte := BitVec 8

/-- What an operation gives: an integer, or an exception, an `IllegalArgumentException` by
its message. -/
abbrev Result := Except String

/-- The value that an `int` holds. -/
def wrap (x : Int) : Int := x.bmod (2 ^ 32)

/-- The promotion of a byte. -/
def toInt (b : Byte) : BitVec 32 := b.signExtend 32

/-- The cast to a byte. -/
def toByte (x : BitVec 32) : Byte := x.setWidth 8

structure HeftyInteger where
  val : List Byte
  nonempty : val ≠ []

/-- The first loop of an addition, from the last bytes on: the sum and the carry.
`(int) a[i] & 0xFF` is the byte without a sign. -/
def addLoop : List Byte → List Byte → List Byte × Nat
  | a :: as, b :: bs =>
    let (res, carry) := addLoop as bs
    let carry := a.toNat + b.toNat + carry
    (toByte (BitVec.ofNat 32 carry &&& 0xFF) :: res, carry >>> 8)
  | _, _ => ([], 0)

theorem length_addLoop {as bs : List Byte} (h : as.length = bs.length) :
    (addLoop as bs).1.length = as.length := by
  induction as generalizing bs with
  | nil => rfl
  | cons a as ih =>
    cases bs with
    | nil => cases h
    | cons b bs =>
      unfold addLoop
      dsimp only
      rw [length_cons, ih (by simpa using h), length_cons]

/-- The loop of a left shift, from the last byte on: the shifted bytes and the bits
that are left over. -/
def leftShiftLoop (bitShift : Nat) : List Byte → List Byte × BitVec 32
  | [] => ([], 0)
  | b :: rest =>
    let (shiftedValue, overflow) := leftShiftLoop bitShift rest
    let shifted := (toInt b <<< bitShift) ||| overflow
    (toByte (shifted &&& 0xFF) :: shiftedValue,
      shifted.sshiftRight 8 &&& ~~~((-1 : BitVec 32) <<< bitShift))

theorem length_leftShiftLoop (bitShift : Nat) (l : List Byte) :
    (leftShiftLoop bitShift l).1.length = l.length := by
  induction l with
  | nil => rfl
  | cons b rest ih =>
    unfold leftShiftLoop
    dsimp only
    rw [length_cons, ih, length_cons]

/-- The bits of a byte that a right shift gives to the next one. -/
def rightOverflow (bitShift : Nat) (toShift : Byte) : Byte :=
  let overflowMask := toByte (~~~((-1 : BitVec 32) <<< bitShift))
  let byteMask := toByte 0xFF
  let overflow := toByte (toInt toShift &&& toInt overflowMask)
  toByte ((toInt overflow <<< (8 - bitShift)) &&& toInt byteMask)

/-- The loop of a right shift over the bytes after the first one. -/
def rightShiftLoop (bitShift : Nat) : List Byte → Byte → List Byte
  | [], _ => []
  | toShift :: rest, overflow =>
    let keepMask := toByte (~~~((-1 : BitVec 32) <<< (8 - bitShift)))
    let shifted := toByte ((toInt toShift).sshiftRight bitShift)
    let shifted := toByte (toInt shifted &&& toInt keepMask)
    toByte (toInt shifted ||| toInt overflow) ::
      rightShiftLoop bitShift rest (rightOverflow bitShift toShift)

/-- The loop of `prune`: a leading zero goes while a zero follows. -/
def cutZeros : List Byte → List Byte
  | b :: c :: rest => if b = 0 ∧ c = 0 then cutZeros (c :: rest) else b :: c :: rest
  | l => l

theorem cutZeros_ne_nil {l : List Byte} (h : l ≠ []) : cutZeros l ≠ [] := by
  fun_induction cutZeros l with
  | case1 b c rest hzero ih => exact ih (cons_ne_nil _ _)
  | case2 b c rest hzero => exact cons_ne_nil _ _
  | case3 l hl => exact h

namespace HeftyInteger

def length (this : HeftyInteger) : Nat := this.val.length

theorem length_pos (this : HeftyInteger) : 0 < this.length :=
  length_pos_iff.mpr this.nonempty

/-- `val[0]` -/
def first (this : HeftyInteger) : Byte := this.val.head this.nonempty

def isNegative (this : HeftyInteger) : Bool := this.first.slt 0

def zero : HeftyInteger := ⟨[0], cons_ne_nil _ _⟩

def one : HeftyInteger := ⟨[1], cons_ne_nil _ _⟩

def extend (this : HeftyInteger) (extension : Byte) : HeftyInteger :=
  ⟨extension :: this.val, cons_ne_nil _ _⟩

/-- The bytes with `n` more in front that repeat the sign. -/
def padded (this : HeftyInteger) (n : Nat) : List Byte :=
  List.replicate n (if this.isNegative then 0xFF else 0) ++ this.val

/-- The sum of the bytes, and the carry out of the first one. The longer number comes
first. -/
def sum (a b : HeftyInteger) (h : b.length ≤ a.length) : HeftyInteger × Nat :=
  let r := addLoop a.val (b.padded (a.length - b.length))
  (⟨r.1, by
    rw [← length_pos_iff, length_addLoop]
    · exact a.length_pos
    · unfold padded
      rw [length_append, length_replicate]
      exact (Nat.sub_add_cancel h).symm⟩, r.2)

def add (this other : HeftyInteger) : HeftyInteger :=
  let (res, carry) :=
    if h : this.length < other.length then sum other this (Nat.le_of_lt h)
    else sum this other (Nat.not_lt.mp h)
  if !this.isNegative && !other.isNegative then
    if res.isNegative then res.extend (BitVec.ofNat 8 carry) else res
  else if this.isNegative && other.isNegative then
    if !res.isNegative then res.extend 0xFF else res
  else res

def negate (this : HeftyInteger) : HeftyInteger :=
  let flipped := this.val.map (~~~ ·)
  -- the least number of its length has no negation of the same length
  let needsEx := this.first = 0x80 ∧ ∀ b ∈ this.val.tail, b = 0
  let neg : HeftyInteger :=
    if needsEx then ⟨0 :: flipped, cons_ne_nil _ _⟩
    else ⟨flipped, by simpa [flipped] using this.nonempty⟩
  neg.add one

/-- `new byte[n]`: a length that left the range of `int` has become negative. -/
def newArray (this : HeftyInteger) : Result HeftyInteger :=
  if this.length < 2 ^ 31 then pure this else throw "NegativeArraySizeException"

/-- `add` with the check of `extend`. -/
def tryAdd (this other : HeftyInteger) : Result HeftyInteger := newArray (this.add other)

/-- `negate` with the check of the array that is a byte longer; one is added without
another byte. -/
def tryNegate (this : HeftyInteger) : Result HeftyInteger := newArray this.negate

def subtract (this other : HeftyInteger) : Result HeftyInteger := do
  this.tryAdd (← other.tryNegate)

def byteLeftShift (this : HeftyInteger) (bytes : Nat) : HeftyInteger :=
  ⟨this.val ++ List.replicate bytes 0, by simp [this.nonempty]⟩

def byteRightShift (this : HeftyInteger) (bytes : Nat) : HeftyInteger :=
  if h : this.length ≤ bytes then
    if this.isNegative then ⟨[-1], cons_ne_nil _ _⟩ else ⟨[0], cons_ne_nil _ _⟩
  else
    ⟨this.val.take (this.length - bytes), by
      rw [← length_pos_iff, length_take]
      unfold length at h ⊢
      omega⟩

/-- The bytes shifted by less than a byte, and the bits that are left over. -/
def shiftedBits (this : HeftyInteger) (bitShift : Nat) : HeftyInteger × BitVec 32 :=
  let r := leftShiftLoop bitShift this.val
  (⟨r.1, by
    rw [← length_pos_iff, length_leftShiftLoop]
    exact this.length_pos⟩, r.2)

/-- The two special cases of a left shift: a number that became negative gets a byte in
front, and one that became positive has its leading bits set. -/
def fixSign (isNegative : Bool) (bitShift : Nat) (shiftedInt : HeftyInteger) : HeftyInteger :=
  if !isNegative && shiftedInt.isNegative then shiftedInt.extend 0
  else if isNegative && !shiftedInt.isNegative then
    let negativeMask : BitVec 32 := (-1 : BitVec 32) <<< bitShift &&& 0xFF
    ⟨toByte (toInt shiftedInt.first ||| negativeMask) :: shiftedInt.val.tail,
      cons_ne_nil _ _⟩
  else shiftedInt

/-- The part of a left shift below a byte. -/
def bitLeftShift (this : HeftyInteger) (bitShift : Nat) : HeftyInteger :=
  let (shiftedInt, overflow) := this.shiftedBits bitShift
  let shiftedInt := if overflow ≠ 0 then shiftedInt.extend (toByte overflow) else shiftedInt
  fixSign this.isNegative bitShift shiftedInt

def leftShift (this : HeftyInteger) (bits : Int) : Result HeftyInteger :=
  if bits < 0 then throw "shift must be > 0"
  else
    let bitShift := bits.toNat % 8
    let byteShift := (bits.toNat - bitShift) / 8
    newArray ((this.bitLeftShift bitShift).byteLeftShift byteShift)

/-- The part of a right shift below a byte; the first byte keeps the sign. -/
def bitRightShift (this : HeftyInteger) (bitShift : Nat) : HeftyInteger :=
  ⟨toByte ((toInt this.first).sshiftRight bitShift) ::
    rightShiftLoop bitShift this.val.tail (rightOverflow bitShift this.first),
    cons_ne_nil _ _⟩

def rightShift (this : HeftyInteger) (bits : Int) : Result HeftyInteger :=
  if bits < 0 then throw "shift must be > 0"
  else
    let bitShift := bits.toNat % 8
    let byteShift := (bits.toNat - bitShift) / 8
    let shiftedInt := this.bitRightShift bitShift
    pure (if 0 < byteShift then shiftedInt.byteRightShift byteShift else shiftedInt)

/-- The byte of a bit is in the array, which is not empty. -/
theorem index_lt (this : HeftyInteger) (bytes : Nat) :
    this.length - bytes - 1 < this.val.length := by
  have hpos := this.length_pos
  unfold length at hpos ⊢
  omega

def getBit (this : HeftyInteger) (bitPos : Nat) : Result Bool :=
  if wrap (8 * this.length) ≤ bitPos then throw "target bit out of bounds"
  else
    let bits := bitPos % 8
    let bytes := (bitPos - bits) / 8
    let targetByte := this.val.get ⟨this.length - bytes - 1, this.index_lt bytes⟩
    pure ((toInt targetByte).sshiftRight bits &&& 1 == 1)

def setBit (this : HeftyInteger) (bitPos : Nat) (bitVal : Bool) : Result HeftyInteger :=
  if wrap (8 * this.length) ≤ bitPos then throw "target bit out of bounds"
  else
    let bits := bitPos % 8
    let bytes := (bitPos - bits) / 8
    let targetByte := this.val.get ⟨this.length - bytes - 1, this.index_lt bytes⟩
    let bitMask := toByte ((1 : BitVec 32) <<< bits)
    let targetByte :=
      if bitVal then toByte (toInt targetByte ||| toInt bitMask)
      else toByte (toInt targetByte &&& ~~~toInt bitMask)
    pure ⟨this.val.set (this.length - bytes - 1) targetByte, by
      simpa using this.nonempty⟩

/-- The absolute value. -/
def magnitude (this : HeftyInteger) : HeftyInteger :=
  if this.isNegative then this.negate else this

def tryMagnitude (this : HeftyInteger) : Result HeftyInteger :=
  if this.isNegative then this.tryNegate else pure this

/-- A round of the multiplication. -/
def multiplyStep (x y result : HeftyInteger) (i : Nat) : Result HeftyInteger := do
  let currBit ← y.getBit i
  if currBit then
    let temp ← x.leftShift i
    result.tryAdd temp
  else pure result

def multiply (this other : HeftyInteger) : Result HeftyInteger := do
  let (x, y) := if this.length > other.length then (this, other) else (other, this)
  let ansNegative := x.isNegative ^^ y.isNegative
  let x ← x.tryMagnitude
  let y ← y.tryMagnitude
  let result ← (List.range (wrap (8 * y.length)).toNat).foldlM (multiplyStep x y) zero
  if ansNegative then result.tryNegate else pure result

/-- The array without the leading zeros that `prune` cuts off. -/
def cut (this : HeftyInteger) : HeftyInteger :=
  ⟨cutZeros this.val, cutZeros_ne_nil this.nonempty⟩

def prune (this : HeftyInteger) : HeftyInteger :=
  let newInt := this.magnitude.cut
  if this.isNegative && !newInt.isNegative then newInt.negate else newInt

def equals (this other : HeftyInteger) : Bool :=
  let thisInt := this.prune
  let other := other.prune
  thisInt.length == other.length && (thisInt.val.zip other.val).all fun (a, b) => a == b

def tryPrune (this : HeftyInteger) : Result HeftyInteger := do
  let newInt := (← this.tryMagnitude).cut
  if this.isNegative && !newInt.isNegative then newInt.tryNegate else pure newInt

/-- `equals` with the checks of `prune`. -/
def tryEquals (this other : HeftyInteger) : Result Bool := do
  let thisInt ← this.tryPrune
  let other ← other.tryPrune
  pure (thisInt.length == other.length && (thisInt.val.zip other.val).all fun (a, b) => a == b)

/-- As many zero bytes as another integer has bytes. -/
def zerosLike (this : HeftyInteger) : HeftyInteger :=
  ⟨List.replicate this.length 0, by simpa using Nat.ne_of_gt this.length_pos⟩

/-- A round of the long division at bit `i`, on the remainder and the quotient. -/
def divideStep (dividend divisor : HeftyInteger) (i : Nat) (r : HeftyInteger × HeftyInteger) :
    Result (HeftyInteger × HeftyInteger) := do
  let currBit ← dividend.getBit i
  let remainder ← r.1.leftShift 1
  let remainder ← remainder.setBit 0 currBit
  let difference ← remainder.subtract divisor
  if !difference.isNegative then
    let quotient ← r.2.setBit i true
    pure (difference, quotient)
  else pure (remainder, r.2)

/-- The rounds at the bits below `n`, the highest first. -/
def divideLoop (dividend divisor : HeftyInteger) :
    Nat → HeftyInteger × HeftyInteger → Result (HeftyInteger × HeftyInteger)
  | 0, r => pure r
  | n + 1, r => do
    let r ← divideStep dividend divisor n r
    divideLoop dividend divisor n r

def divide (this divisor : HeftyInteger) : Result HeftyInteger := do
  if ← divisor.tryEquals zero then throw "cannot divide by 0"
  let ansNegative := this.isNegative ^^ divisor.isNegative
  let dividend ← this.tryMagnitude
  let divisor ← divisor.tryMagnitude
  let quotient := dividend.zerosLike
  let start := wrap (wrap (8 * dividend.length) - 1)
  let r ← divideLoop dividend divisor (start + 1).toNat (zero, quotient)
  let quotient ← r.2.tryPrune
  if ansNegative then quotient.tryNegate else pure quotient

def modulo (this other : HeftyInteger) : Result HeftyInteger := do
  if other.isNegative then throw "cannot mod by a negative number"
  if ← other.tryEquals zero then throw "cannot mod by 0"
  let result ← this.divide other
  let result ← result.multiply other
  let result ← this.subtract result
  let result ← if result.isNegative then result.tryAdd other else pure result
  result.tryPrune

/-- The three results of the extended Euclidean algorithm. -/
structure Xgcd where
  gcd : HeftyInteger
  x : HeftyInteger
  y : HeftyInteger

/-- `recXGCD` with at most `fuel` calls; `none` when it needs more. -/
def recXGCD : Nat → HeftyInteger → HeftyInteger → Option (Result Xgcd)
  | 0, _, _ => none
  | fuel + 1, a, b =>
    match b.tryEquals zero with
    | .error e => some (.error e)
    | .ok true => some (pure ⟨a, one, zero⟩)
    | .ok false =>
      match a.modulo b with
      | .error e => some (.error e)
      | .ok rest => (recXGCD fuel b rest).map fun result => do
        let result ← result
        let newY ← a.divide b
        let newY ← newY.multiply result.y
        let newY ← result.x.subtract newY
        pure ⟨result.gcd, result.y, newY⟩

/-- `XGCD` with at most `fuel` calls of `recXGCD`. -/
def xgcd (fuel : Nat) (this other : HeftyInteger) : Option (Result Xgcd) :=
  if this.isNegative || other.isNegative then
    some (throw "XGCD does not accept negative input")
  else if this.length < other.length then
    (recXGCD fuel other this).map fun results => do
      let results ← results
      pure ⟨results.gcd, results.y, results.x⟩
  else recXGCD fuel this other

end HeftyInteger

/-!
## Operations on single bytes

What the masks and shifts of the loops do to the number a byte stands for.
-/

theorem toNat_toByte_mask (x : BitVec 32) : (toByte (x &&& 0xFF)).toNat = x.toNat % 256 := by
  unfold toByte
  rw [BitVec.toNat_setWidth, BitVec.toNat_and]
  have hmask : (0xFF : BitVec 32).toNat = 2 ^ 8 - 1 := rfl
  rw [hmask, Nat.and_two_pow_sub_one_eq_mod]
  omega

/-- The low bits that a shift by `k` leaves free. -/
theorem lowMask_eq {k : Nat} (hk : k < 8) :
    ~~~((-1 : BitVec 32) <<< k) = BitVec.ofNat 32 (2 ^ k - 1) := by
  interval_cases k <;> rfl

theorem toNat_and_lowMask {k : Nat} (hk : k < 8) (x : BitVec 32) :
    (x &&& ~~~((-1 : BitVec 32) <<< k)).toNat = x.toNat % 2 ^ k := by
  have hle : 2 ^ k ≤ 2 ^ 8 := Nat.pow_le_pow_right (by decide) (by omega)
  have hpos := Nat.two_pow_pos k
  rw [lowMask_eq hk, BitVec.toNat_and, BitVec.toNat_ofNat, Nat.mod_eq_of_lt (by omega),
    Nat.and_two_pow_sub_one_eq_mod]

/-- The bits from the byte below go where the shift left zeros. -/
theorem toNat_shift_or {k : Nat} (b : Byte) {o : BitVec 32} (ho : o.toNat < 2 ^ k) :
    ((toInt b <<< k) ||| o).toNat = ((toInt b).toNat * 2 ^ k + o.toNat) % 2 ^ 32 := by
  have hdisjoint : (toInt b <<< k) &&& o = 0 := by
    refine BitVec.eq_of_getLsbD_eq fun i hi => ?_
    rw [BitVec.getLsbD_and, BitVec.getLsbD_shiftLeft]
    by_cases hik : i < k
    · simp [hik]
    · have hbit : o.getLsbD i = false := by
        refine Nat.testBit_lt_two_pow (Nat.lt_of_lt_of_le ho ?_)
        exact Nat.pow_le_pow_right (by decide) (by omega)
      simp [hbit]
  rw [← BitVec.add_eq_or_of_and_eq_zero _ _ hdisjoint, BitVec.toNat_add, BitVec.toNat_shiftLeft,
    Nat.shiftLeft_eq]
  omega

theorem toNat_toInt_mod (b : Byte) : (toInt b).toNat % 256 = b.toNat := by
  have hb := b.isLt
  unfold toInt
  rw [BitVec.toNat_signExtend, BitVec.toNat_setWidth]
  split <;> omega

/-- The sign only fills the bits above. -/
theorem toNat_sshiftRight_mod (x : BitVec 32) {n j : Nat} (h : n + j ≤ 32) :
    (x.sshiftRight n).toNat % 2 ^ j = x.toNat / 2 ^ n % 2 ^ j := by
  refine Nat.eq_of_testBit_eq fun i => ?_
  rw [Nat.testBit_mod_two_pow, Nat.testBit_mod_two_pow, Nat.testBit_div_two_pow]
  by_cases hi : i < j
  · have hbit := BitVec.getLsbD_sshiftRight x n i
    rw [if_pos (by omega)] at hbit
    unfold BitVec.getLsbD at hbit
    rw [hbit]
    have hw : ¬ 32 ≤ i := by omega
    simp [hi, hw, Nat.add_comm]
  · simp [hi]

/-- A byte of a left shift and the bits it gives to the next one. -/
theorem leftShift_byte {k : Nat} (hk : k < 8) (b : Byte) {o : BitVec 32} (ho : o.toNat < 2 ^ k) :
    (toByte ((toInt b <<< k ||| o) &&& 0xFF)).toNat +
        ((toInt b <<< k ||| o).sshiftRight 8 &&& ~~~((-1 : BitVec 32) <<< k)).toNat * 2 ^ 8 =
      b.toNat * 2 ^ k + o.toNat := by
  have hb := b.isLt
  have hlow := toNat_toInt_mod b
  rw [toNat_toByte_mask, toNat_and_lowMask hk, toNat_sshiftRight_mod _ (by omega),
    toNat_shift_or b ho]
  have hlt : b.toNat * 2 ^ k + o.toNat < 2 ^ 8 * 2 ^ k := by
    calc b.toNat * 2 ^ k + o.toNat < (b.toNat + 1) * 2 ^ k := by
          rw [Nat.add_mul, Nat.one_mul]
          omega
      _ ≤ 2 ^ 8 * 2 ^ k := Nat.mul_le_mul_right _ hb
  have hdvd : 2 ^ 8 * 2 ^ k ∣ 2 ^ 32 := by
    rw [← Nat.pow_add]
    exact Nat.pow_dvd_pow 2 (by omega)
  obtain ⟨q, hq⟩ : ∃ q, (toInt b).toNat = b.toNat + 2 ^ 8 * q := ⟨(toInt b).toNat / 256, by omega⟩
  -- Both bytes together are the value below the ninth bit and the bits that leave it.
  have hsum : ((toInt b).toNat * 2 ^ k + o.toNat) % 2 ^ 32 % (2 ^ 8 * 2 ^ k) =
      b.toNat * 2 ^ k + o.toNat := by
    have hshift : (b.toNat + 2 ^ 8 * q) * 2 ^ k + o.toNat =
        b.toNat * 2 ^ k + o.toNat + 2 ^ 8 * 2 ^ k * q := by ring
    rw [Nat.mod_mod_of_dvd _ hdvd, hq, hshift, Nat.add_mul_mod_self_left, Nat.mod_eq_of_lt hlt]
  rw [Nat.mod_mul, Nat.mul_comm (2 ^ 8)] at hsum
  exact hsum

theorem getLsbD_toByte (x : BitVec 32) (i : Nat) :
    (toByte x).getLsbD i = (decide (i < 8) && x.getLsbD i) := by
  unfold toByte
  exact BitVec.getLsbD_setWidth ..

theorem getLsbD_toInt (b : Byte) {i : Nat} (hi : i < 8) : (toInt b).getLsbD i = b.getLsbD i := by
  have hwide : i < 32 := by omega
  unfold toInt
  rw [BitVec.getLsbD_signExtend, decide_eq_true hwide, if_pos hi, Bool.true_and]

theorem getLsbD_ones {i : Nat} (hi : i < 32) (k : Nat) :
    ((-1 : BitVec 32) <<< k).getLsbD i = decide (k ≤ i) := by
  have hones : (-1 : BitVec 32) = BitVec.allOnes 32 := rfl
  rw [hones, BitVec.getLsbD_shiftLeft, BitVec.getLsbD_allOnes]
  grind

theorem rightOverflow_toNat {k : Nat} (hk : k < 8) (b : Byte) :
    (rightOverflow k b).toNat = b.toNat % 2 ^ k * 2 ^ (8 - k) := by
  have hshift : rightOverflow k b = b <<< (8 - k) := by
    refine BitVec.eq_of_getLsbD_eq fun i hi => ?_
    have hmask : (0xFF : BitVec 32).getLsbD i = true := by
      interval_cases i <;> rfl
    unfold rightOverflow
    rw [getLsbD_toByte, BitVec.getLsbD_and, getLsbD_toInt _ hi, getLsbD_toByte, hmask,
      BitVec.getLsbD_shiftLeft, BitVec.getLsbD_shiftLeft]
    by_cases hb : i < 8 - k
    · grind
    · have hlow : i - (8 - k) < 8 := by omega
      rw [getLsbD_toInt _ hlow, getLsbD_toByte, BitVec.getLsbD_and, getLsbD_toInt _ hlow,
        getLsbD_toInt _ hlow, getLsbD_toByte, BitVec.getLsbD_not, getLsbD_ones (by omega)]
      grind
  have hpow : 2 ^ 8 = 2 ^ k * 2 ^ (8 - k) := by
    rw [← Nat.pow_add, Nat.add_sub_cancel' (Nat.le_of_lt hk)]
  rw [hshift, BitVec.toNat_shiftLeft, Nat.shiftLeft_eq, hpow, Nat.mul_mod_mul_right]

/-- The bits of a byte that a right shift keeps. -/
theorem rightShift_keep {k : Nat} (hk : k < 8) (b : Byte) :
    (toByte (toInt (toByte ((toInt b).sshiftRight k)) &&&
      toInt (toByte (~~~((-1 : BitVec 32) <<< (8 - k)))))).toNat = b.toNat / 2 ^ k := by
  rw [← Nat.shiftRight_eq_div_pow, ← BitVec.toNat_ushiftRight]
  refine congrArg _ (BitVec.eq_of_getLsbD_eq fun i hi => ?_)
  rw [getLsbD_toByte, BitVec.getLsbD_and, getLsbD_toInt _ hi, getLsbD_toInt _ hi, getLsbD_toByte,
    getLsbD_toByte, BitVec.getLsbD_not, getLsbD_ones (by omega), BitVec.getLsbD_sshiftRight,
    BitVec.getLsbD_ushiftRight]
  by_cases hb : k + i < 8
  · rw [getLsbD_toInt _ hb]
    grind
  · have hout := BitVec.getLsbD_of_ge b (k + i) (by omega)
    grind

/-- The first byte keeps its sign. -/
theorem rightShift_first {k : Nat} (hk : k < 8) (b : Byte) :
    (toByte ((toInt b).sshiftRight k)).toInt = b.toInt / 2 ^ k := by
  have hsame : toByte ((toInt b).sshiftRight k) = b.sshiftRight k := by
    refine BitVec.eq_of_getLsbD_eq fun i hi => ?_
    rw [getLsbD_toByte, BitVec.getLsbD_sshiftRight, BitVec.getLsbD_sshiftRight]
    unfold toInt
    rw [BitVec.getLsbD_signExtend]
    grind
  rw [hsame, BitVec.toInt_sshiftRight, Int.shiftRight_eq_div_pow]
  rfl

theorem toInt_emod {k : Nat} (hk : k < 8) (b : Byte) : b.toInt % 2 ^ k = (b.toNat % 2 ^ k : Nat) := by
  rcases pow_dvd_pow (2 : Int) (Nat.le_of_lt hk) with ⟨c, hc⟩
  rw [BitVec.toInt_eq_toNat_cond]
  push_cast
  split
  · rfl
  · have h256 : (256 : Int) = 2 ^ k * c := hc
    rw [h256, Int.sub_mul_emod_self_left]

theorem toByte_or (a b : Byte) : toByte (toInt a ||| toInt b) = a ||| b := by
  refine BitVec.eq_of_getLsbD_eq fun i hi => ?_
  rw [getLsbD_toByte, BitVec.getLsbD_or, BitVec.getLsbD_or, getLsbD_toInt _ hi, getLsbD_toInt _ hi]
  simp [hi]

theorem toByte_clear (a b : Byte) : toByte (toInt a &&& ~~~toInt b) = a &&& ~~~b := by
  refine BitVec.eq_of_getLsbD_eq fun i hi => ?_
  rw [getLsbD_toByte, BitVec.getLsbD_and, BitVec.getLsbD_and, BitVec.getLsbD_not,
    BitVec.getLsbD_not, getLsbD_toInt _ hi, getLsbD_toInt _ hi]
  grind

/-- The bits from the byte above go where the shift left zeros. -/
theorem toNat_or_overflow {j c : Nat} {a o : Byte} (ha : a.toNat < 2 ^ j)
    (ho : o.toNat = c * 2 ^ j) : (toByte (toInt a ||| toInt o)).toNat = a.toNat + o.toNat := by
  rw [toByte_or, BitVec.toNat_or, ho, Nat.or_comm, Nat.mul_comm, ← Nat.two_pow_add_eq_or_of_lt ha,
    Nat.add_comm]

theorem getBit_byte {k : Nat} (hk : k < 8) (b : Byte) :
    ((toInt b).sshiftRight k &&& 1 == 1) = decide (b.toNat / 2 ^ k % 2 = 1) := by
  have hbit : ((toInt b).sshiftRight k).getLsbD 0 = b.getLsbD k := by
    rw [BitVec.getLsbD_sshiftRight, Nat.add_zero, getLsbD_toInt _ hk]
    grind
  have hone : (toInt b).sshiftRight k &&& 1 = if b.getLsbD k then 1 else 0 := by
    rw [← hbit]
    exact BitVec.and_one_eq_setWidth_ofBool_getLsbD.trans (by split <;> simp_all)
  rw [hone, ← Nat.testBit_eq_decide_div_mod_eq]
  unfold BitVec.getLsbD
  split <;> simp_all

/-- The bit is exchanged. -/
theorem setBit_byte {r : Nat} (hr : r < 8) (b : Byte) (v : Bool) :
    (if v then toByte (toInt b ||| toInt (toByte ((1 : BitVec 32) <<< r)))
      else toByte (toInt b &&& ~~~toInt (toByte ((1 : BitVec 32) <<< r)))).toNat +
        b.toNat / 2 ^ r % 2 * 2 ^ r = b.toNat + v.toNat * 2 ^ r := by
  have hmask : toByte ((1 : BitVec 32) <<< r) = BitVec.twoPow 8 r := by
    interval_cases r <;> rfl
  rw [toByte_or, toByte_clear, hmask]
  -- The byte with the bit cleared, to which the bit is added.
  have hclear : (b &&& ~~~BitVec.twoPow 8 r) &&& BitVec.twoPow 8 r = 0 := by
    rw [BitVec.and_assoc, BitVec.and_comm (~~~_)]
    simp
  have hset : (b ||| BitVec.twoPow 8 r).toNat = (b &&& ~~~BitVec.twoPow 8 r).toNat + 2 ^ r := by
    rw [← BitVec.toNat_twoPow_of_lt hr, ← BitVec.toNat_add_of_and_eq_zero hclear,
      BitVec.add_eq_or_of_and_eq_zero _ _ hclear]
    refine congrArg _ (BitVec.eq_of_getLsbD_eq fun i hi => ?_)
    simp only [BitVec.getLsbD_or, BitVec.getLsbD_and, BitVec.getLsbD_not]
    grind
  have hbit : b.toNat = (b &&& ~~~BitVec.twoPow 8 r).toNat + b.toNat / 2 ^ r % 2 * 2 ^ r := by
    have htest : b.getLsbD r = decide (b.toNat / 2 ^ r % 2 = 1) := Nat.testBit_eq_decide_div_mod_eq
    have hall : ∀ i < 8, (BitVec.twoPow 8 r).getLsbD i = decide (r = i) := by
      intro i hi
      rw [BitVec.getLsbD_twoPow, decide_eq_true hr, Bool.true_and]
    rcases Nat.mod_two_eq_zero_or_one (b.toNat / 2 ^ r) with h | h
    · have hsame : b &&& ~~~BitVec.twoPow 8 r = b := by
        refine BitVec.eq_of_getLsbD_eq fun i hi => ?_
        rw [BitVec.getLsbD_and, BitVec.getLsbD_not, hall i hi]
        grind
      rw [h, hsame, Nat.zero_mul, Nat.add_zero]
    · have hsame : b ||| BitVec.twoPow 8 r = b := by
        refine BitVec.eq_of_getLsbD_eq fun i hi => ?_
        rw [BitVec.getLsbD_or, hall i hi]
        grind
      rw [h, Nat.one_mul, ← hset, hsame]
  cases v with
  | false =>
    rw [if_neg Bool.false_ne_true, Bool.toNat_false]
    omega
  | true =>
    rw [if_pos rfl, Bool.toNat_true]
    omega

/-- The bits above the overflow of a negative number are set. -/
theorem negativeMask_byte {k : Nat} (hk : k < 8) (o : Byte) (ho : o.toNat < 2 ^ k) :
    (toByte (toInt o ||| ((-1 : BitVec 32) <<< k &&& 0xFF))).toInt = o.toNat - 2 ^ k := by
  have hmask : (-1 : BitVec 32) <<< k &&& 0xFF = ((-1 : Byte) <<< k).setWidth 32 := by
    interval_cases k <;> rfl
  have hones : ((-1 : Byte) <<< k).toNat = 2 ^ 8 - 2 ^ k := by
    interval_cases k <;> rfl
  have hor : toByte (toInt o ||| ((-1 : BitVec 32) <<< k &&& 0xFF)) = o ||| (-1 : Byte) <<< k := by
    refine BitVec.eq_of_getLsbD_eq fun i hi => ?_
    rw [getLsbD_toByte, BitVec.getLsbD_or, getLsbD_toInt _ hi, hmask, BitVec.getLsbD_setWidth,
      BitVec.getLsbD_or]
    grind
  have hdisjoint : o &&& (-1 : Byte) <<< k = 0 := by
    refine BitVec.eq_of_getLsbD_eq fun i hi => ?_
    rw [BitVec.getLsbD_and, BitVec.getLsbD_shiftLeft]
    by_cases hik : i < k
    · simp [hik]
    · have hbit : o.getLsbD i = false :=
        Nat.testBit_lt_two_pow (Nat.lt_of_lt_of_le ho (Nat.pow_le_pow_right (by decide) (by omega)))
      simp [hbit]
  have hle : 2 ^ k ≤ 2 ^ 7 := Nat.pow_le_pow_right (by decide) (by omega)
  have hnat : (o ||| (-1 : Byte) <<< k).toNat = o.toNat + (2 ^ 8 - 2 ^ k) := by
    rw [← BitVec.add_eq_or_of_and_eq_zero _ _ hdisjoint, BitVec.toNat_add_of_and_eq_zero hdisjoint,
      hones]
  rw [hor, BitVec.toInt_eq_toNat_cond, hnat, if_neg (by omega)]
  have hcast : ((2 ^ k : Nat) : Int) = 2 ^ k := Nat.cast_pow 2 k
  rw [← hcast]
  omega
end PittCs.Hefty
