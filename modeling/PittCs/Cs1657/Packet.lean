import Mathlib.Data.Nat.Size
import PittCs.Hefty.Integer
import PittCs.Lib.Fields

/-!
# Packets of the decrypt protocol

What `Client.java` and `Server.java` write into the bytes of a packet and read from them.
A write or a read outside an array is an exception, which is `none`. A string is a list
of characters of one `char` each, and the charset of the platform is UTF-8.
-/

namespace PittCs.Cs1657

open Lib Hefty List Option

def PKTSIZE : Nat := 1024

def MAXMSG : Nat := 512

/-! ## Arrays -/

def newArray (n : Nat) : List Byte := List.replicate n 0

def write (a : List Byte) (i : Nat) (b : Byte) : Option (List Byte) :=
  if i < a.length then some (a.set i b) else none

/-- The loop `dst[i + offset] = src[i + start]` for the first `n` values of `i`. -/
def copyBytes (dst src : List Byte) (offset start n : Nat) : Option (List Byte) :=
  (List.range n).foldlM (fun dst i => do write dst (i + offset) (← src[i + start]?)) dst

/-! ## The standard library -/

/-- `getBytes`. -/
def getBytes (s : List Char) : List Byte := (s.flatMap String.utf8EncodeChar).map UInt8.toBitVec

/-- How many bytes become one replacement character where no character is encoded. -/
def malformedLength : List Nat → Nat
  | b₁ :: b₂ :: rest =>
    if b₁ < 0xE0 ∨ 0xF4 < b₁ ∨ b₂ / 64 ≠ 2 ∨ (b₁ = 0xE0 ∧ b₂ < 0xA0) ∨ (b₁ = 0xF0 ∧ b₂ < 0x90) ∨
        (b₁ = 0xF4 ∧ 0x90 ≤ b₂) then 1
    else if ∃ b₃ ∈ rest.head?, b₃ / 64 = 2 then 3 else 2
  | _ => 1

/-- Decodes one character, or replaces one piece that is malformed, at a time. -/
def decodeReplacing : Nat → List Byte → List Char
  | 0, _ | _, [] => []
  | n + 1, bytes =>
    match (bytes.map UInt8.ofBitVec).toByteArray.utf8DecodeChar? 0 with
    | some c => c :: decodeReplacing n (bytes.drop c.utf8Size)
    | none => '\uFFFD' :: decodeReplacing n (bytes.drop (malformedLength (bytes.map (·.toNat))))

/-- `new String(bytes, StandardCharsets.UTF_8)`. What is not well formed is replaced. -/
def newString (bytes : List Byte) : List Char :=
  match (bytes.map UInt8.ofBitVec).toByteArray.utf8Decode? with
  | some s => s.toList
  | none => decodeReplacing bytes.length bytes

/-- `s.substring(0, len)`. -/
def substring (s : List Char) (len : Int) : Option (List Char) :=
  if 0 ≤ len ∧ len ≤ s.length then some (s.take len.toNat) else none

/-- The number of bits without the sign. -/
def bitLength (v : Int) : Nat := (if v < 0 then -v - 1 else v).toNat.size

/-- `BigInteger.toByteArray`: two's complement with no more bytes than needed. -/
def toByteArray (v : Int) : List Byte :=
  (List.range (bitLength v / 8 + 1)).reverse.map fun i => BitVec.ofInt 8 (v / 256 ^ i)

/-- `new BigInteger(bytes)`. -/
def newBigInteger (bytes : List Byte) : Int := Digits.signed bytes

/-! ## Server.java -/

/-- `b >= 0 ? b : 256 + b`. -/
def unsignedInt (b : Byte) : BitVec 32 := if 0 ≤ (toInt b).toInt then toInt b else 256 + toInt b

def extractMsgLen (receiveBytes : List Byte) : Option Int := do
  let high := unsignedInt (← receiveBytes[2]?)
  let low := unsignedInt (← receiveBytes[1]?)
  return (low ||| (high <<< 8)).toInt

def loadMsgLen (sendBytes : List Byte) (len : Int) : Option (List Byte) := do
  let sendBytes ← write sendBytes 1 (toByte (BitVec.ofInt 32 len &&& 0xFF))
  write sendBytes 2 (toByte ((BitVec.ofInt 32 len).sshiftRight 8 &&& 0xFF))

def extractMsg (receiveBytes msgAsBytes : List Byte) (offset : Nat) (len : Int) :
    Option (List Byte) :=
  copyBytes msgAsBytes receiveBytes 0 offset (min len MAXMSG).toNat

def loadMsg (sendBytes responseAsBytes : List Byte) (offset : Nat) (len : Int) :
    Option (List Byte) :=
  copyBytes sendBytes responseAsBytes offset 0 (min len MAXMSG).toNat

def loadTimestamp (sendBytes timeAsBytes : List Byte) (offset : Nat) : Option (List Byte) :=
  (List.range timeAsBytes.length).foldlM (fun sendBytes i => do
    let b ← timeAsBytes[timeAsBytes.length - 1 - i]?
    if i ≤ offset + 7 then write sendBytes (offset + 7 - i) b else none) sendBytes

/-- How the text is read from a packet, at offset 3 in `run` of the server and at offset
19 in `main` of the client. -/
def extractText (receiveBytes : List Byte) (offset : Nat) : Option (List Char) := do
  let msgLen ← extractMsgLen receiveBytes
  let msgAsBytes ← extractMsg receiveBytes (newArray PKTSIZE) offset msgLen
  substring (newString msgAsBytes) msgLen

/-- The packet that `run` sends for a decrypt request. -/
def decryptResponse (responseMsg : List Char) (unixMillis unixNanos : BitVec 64) :
    Option (List Byte) := do
  let responseMsgAsBytes := getBytes responseMsg
  let sendBytes ← loadMsg (newArray PKTSIZE) responseMsgAsBytes 19 responseMsgAsBytes.length
  let sendBytes ← loadMsgLen sendBytes responseMsgAsBytes.length
  let sendBytes ← write sendBytes 0 1
  let sendBytes ← loadTimestamp sendBytes (toByteArray unixMillis.toInt) 3
  loadTimestamp sendBytes (toByteArray unixNanos.toInt) 11

/-! ## Client.java -/

def makeDecryptPkt (msg : List Char) : Option (List Byte) := do
  let msgAsBytes := getBytes msg
  let sendBytes ← write (newArray PKTSIZE) 0 1
  let sendBytes ← write sendBytes 1 (toByte (BitVec.ofNat 32 msg.length &&& 0xFF))
  let sendBytes ← write sendBytes 2
    (toByte ((BitVec.ofNat 32 msg.length).sshiftRight 8 &&& 0xFF))
  copyBytes sendBytes msgAsBytes 3 0 (min msgAsBytes.length MAXMSG)

def extractTimestamp (receiveBytes : List Byte) (offset : Nat) : Option (BitVec 64) := do
  let longAsBytes ← copyBytes (newArray 8) receiveBytes 0 offset 8
  return BitVec.ofInt 64 (newBigInteger longAsBytes)

/-!
## What survives a packet

Every text survives a request and a response. A timestamp is written as few bytes, at the
end of a field of zeros, and read back with the whole field: that loses the sign of a
negative number that is short.
-/

open Lib Lib.Fields Hefty

variable {a dst src p : List Byte} {b : Byte} {i n offset start : Nat}
  {s msg responseMsg : List Char} {t : BitVec 64}

/-! ## Writing -/

theorem write_eq (h : i < a.length) : write a i b = some (splice a i [b]) := by
  unfold write
  rw [if_pos h, splice_singleton h]

/-- One more turn of a loop. -/
theorem foldlM_range_succ {β : Type} {f : β → Nat → Option β} {x y z : β}
    (h : (List.range n).foldlM f x = some y) (hturn : f y n = some z) :
    (List.range (n + 1)).foldlM f x = some z := by
  rw [range_succ, foldlM_append, h]
  exact (bind_some y _).trans (by rw [foldlM_cons, hturn]; rfl)

theorem field_succ (h : start + n < src.length) :
    field src start (n + 1) = field src start n ++ [src[start + n]] := by
  unfold field
  have hdrop : n < (src.drop start).length := by
    rw [length_drop]
    omega
  rw [take_add_one, List.getElem?_eq_getElem hdrop, List.getElem_drop]
  rfl

theorem copyBytes_eq (hsrc : start + n ≤ src.length) (hdst : offset + n ≤ dst.length) :
    copyBytes dst src offset start n = some (splice dst offset (field src start n)) := by
  unfold copyBytes
  induction n with
  | zero =>
    rw [field_zero, splice_nil]
    rfl
  | succ n ih =>
    have hfield : (field src start n).length = n := length_field (by omega)
    have hsplice : offset + (field src start n).length < dst.length := by omega
    have hlen := length_splice (Nat.le_of_lt hsplice)
    refine foldlM_range_succ (ih (by omega) (by omega)) ?_
    rw [field_succ (by omega), ← set_splice hsplice, hfield, Nat.add_comm n start,
      List.getElem?_eq_getElem (by omega), Nat.add_comm n offset]
    show write _ _ _ = _
    unfold write
    rw [if_pos (by omega)]

/-- The bytes of the timestamp stand at the end of its field. -/
theorem loadTimestamp_eq {timeAsBytes : List Byte} (htime : timeAsBytes.length ≤ 8)
    (h : offset + 8 ≤ a.length) : loadTimestamp a timeAsBytes offset =
      some (splice a (offset + (8 - timeAsBytes.length)) timeAsBytes) := by
  unfold loadTimestamp
  -- after `k` turns the last `k` bytes are written
  have hturns : ∀ k ≤ timeAsBytes.length,
      (List.range k).foldlM (fun sendBytes i => do
        let b ← timeAsBytes[timeAsBytes.length - 1 - i]?
        if i ≤ offset + 7 then write sendBytes (offset + 7 - i) b else none) a =
      some (splice a (offset + (8 - k)) (timeAsBytes.drop (timeAsBytes.length - k))) := by
    intro k hk
    induction k with
    | zero =>
      rw [Nat.sub_zero, Nat.sub_zero, drop_length, splice_nil]
      rfl
    | succ k ih =>
      have hdrop : (timeAsBytes.drop (timeAsBytes.length - k)).length = k := by
        rw [length_drop]
        omega
      have hplace : offset + (8 - k) = offset + 7 - k + 1 := by omega
      have hplace' : offset + (8 - (k + 1)) = offset + 7 - k := by omega
      have hindex : timeAsBytes.length - (k + 1) = timeAsBytes.length - 1 - k := by omega
      have hcons : timeAsBytes.drop (timeAsBytes.length - (k + 1)) =
          timeAsBytes[timeAsBytes.length - 1 - k] :: timeAsBytes.drop (timeAsBytes.length - k) := by
        rw [hindex, drop_eq_getElem_cons (by omega)]
        congr 2
        omega
      have hsplice : offset + 7 - k + 1 + (timeAsBytes.drop (timeAsBytes.length - k)).length ≤
          a.length := by omega
      have hlen := length_splice hsplice
      refine foldlM_range_succ (ih (by omega)) ?_
      rw [hcons, hplace', hplace, ← set_splice_left hsplice, List.getElem?_eq_getElem (by omega)]
      show (if k ≤ offset + 7 then write _ (offset + 7 - k) _ else none) = _
      unfold write
      rw [if_pos (by omega), if_pos (by omega)]
  have hall := hturns _ (Nat.le_refl _)
  rw [Nat.sub_self, drop_zero] at hall
  exact hall

/-! ## Texts -/

/-- A text of characters that take one byte each. -/
def OneByte (s : List Char) : Prop := ∀ c ∈ s, c.utf8Size = 1

def hexDigits : List Char := "0123456789abcdefABCDEF".toList

def Hexadecimal (s : List Char) : Prop := ∀ c ∈ s, c ∈ hexDigits

instance : DecidablePred Hexadecimal := fun s => decidableBAll (· ∈ hexDigits) s

theorem Hexadecimal.oneByte (h : Hexadecimal s) : OneByte s := by
  have hdigits : ∀ c ∈ hexDigits, c.utf8Size = 1 := by
    simpa using (by decide : hexDigits.all (fun c => c.utf8Size = 1) = true)
  exact fun c hc => hdigits c (h c hc)

theorem OneByte.length_getBytes (h : OneByte s) : (getBytes s).length = s.length := by
  induction s with
  | nil => rfl
  | cons c s ih =>
    have hc := h c mem_cons_self
    have htail := ih fun c' hc' => h c' (mem_cons_of_mem c hc')
    unfold getBytes at htail ⊢
    rw [length_map] at htail ⊢
    rw [flatMap_cons, length_append, String.length_utf8EncodeChar, hc, htail,
      length_cons, Nat.add_comm]

theorem getBytes_append (s s' : List Char) : getBytes (s ++ s') = getBytes s ++ getBytes s' := by
  unfold getBytes
  rw [flatMap_append, map_append]

/-- The rest of the array is decoded to characters zero. -/
theorem getBytes_replicate (n : Nat) : getBytes (List.replicate n '\x00') = newArray n := by
  induction n with
  | zero => rfl
  | succ n ih =>
    rw [replicate_succ, ← singleton_append, getBytes_append, ih]
    rfl

theorem newString_getBytes (s : List Char) : newString (getBytes s) = s := by
  have hbytes : ((getBytes s).map UInt8.ofBitVec).toByteArray = s.utf8Encode := by
    have hid : (UInt8.ofBitVec ∘ UInt8.toBitVec) = id := rfl
    unfold getBytes
    rw [List.map_map, hid, List.map_id]
    rfl
  unfold newString
  rw [hbytes, utf8Decode?_utf8Encode]

theorem substring_append (s s' : List Char) : substring (s ++ s') s.length = some s := by
  unfold substring
  rw [if_pos ⟨by omega, by rw [length_append]; omega⟩, Int.toNat_natCast, take_left]

/-- The text in a packet, from its length and its bytes. -/
theorem extractText_eq (hlength : p.length = PKTSIZE) (hs : OneByte s) (hmax : s.length ≤ MAXMSG)
    (hoffset : offset + MAXMSG ≤ PKTSIZE) (hlen : extractMsgLen p = some (s.length : Int))
    (hbytes : field p offset s.length = getBytes s) : extractText p offset = some s := by
  have hmin : (min (s.length : Int) MAXMSG).toNat = s.length := by omega
  have hdst : 0 + s.length ≤ (newArray PKTSIZE).length := by
    unfold newArray
    rw [length_replicate]
    omega
  have harray : splice (newArray PKTSIZE) 0 (getBytes s) =
      getBytes (s ++ List.replicate (PKTSIZE - s.length) '\x00') := by
    rw [getBytes_append, getBytes_replicate]
    unfold splice newArray
    rw [take_zero, nil_append, hs.length_getBytes, drop_replicate, Nat.zero_add]
  have hmsg : extractMsg p (newArray PKTSIZE) offset s.length =
      some (getBytes (s ++ List.replicate (PKTSIZE - s.length) '\x00')) := by
    unfold extractMsg
    rw [hmin, copyBytes_eq (by omega) hdst, hbytes, harray]
  unfold extractText
  rw [hlen]
  show (do
    let msgAsBytes ← extractMsg p (newArray PKTSIZE) offset s.length
    substring (newString msgAsBytes) s.length) = some s
  rw [hmsg]
  show substring (newString _) s.length = some s
  rw [newString_getBytes, substring_append]

/-! ## The length -/

theorem toNat_unsignedInt (b : Byte) : (unsignedInt b).toNat = b.toNat := by
  decide +revert +kernel

/-- The low and the high byte of a length. -/
def lowByte (n : Nat) : Byte := toByte (BitVec.ofInt 32 n &&& 0xFF)

def highByte (n : Nat) : Byte := toByte ((BitVec.ofInt 32 n).sshiftRight 8 &&& 0xFF)

theorem extractMsgLen_eq (hn : n < 2 ^ 16) (hlow : p[1]? = some (lowByte n))
    (hhigh : p[2]? = some (highByte n)) : extractMsgLen p = some (n : Int) := by
  have hnat : (BitVec.ofInt 32 n).toNat = n := by
    rw [BitVec.toNat_ofInt]
    omega
  have hlow' : (unsignedInt (lowByte n)).toNat = n % 256 := by
    unfold lowByte
    rw [toNat_unsignedInt, toNat_toByte_mask, hnat]
  have hhigh' : (unsignedInt (highByte n)).toNat = n / 256 := by
    have hshift := toNat_sshiftRight_mod (BitVec.ofInt 32 n) (n := 8) (j := 8) (by omega)
    rw [hnat] at hshift
    unfold highByte
    rw [toNat_unsignedInt, toNat_toByte_mask]
    omega
  have hor : (unsignedInt (lowByte n) ||| (unsignedInt (highByte n) <<< 8)).toNat = n := by
    have hadd := Nat.two_pow_add_eq_or_of_lt (i := 8) (b := n % 256) (by omega) (n / 256)
    have hmod : n / 256 * 2 ^ 8 % 2 ^ 32 = 2 ^ 8 * (n / 256) := by omega
    rw [BitVec.toNat_or, BitVec.toNat_shiftLeft, hlow', hhigh', Nat.shiftLeft_eq, hmod,
      Nat.or_comm, ← hadd]
    omega
  unfold extractMsgLen
  rw [hlow, hhigh]
  show some (unsignedInt (lowByte n) ||| (unsignedInt (highByte n) <<< 8)).toInt = _
  rw [BitVec.toInt_eq_toNat_of_lt (by omega), hor]

/-! ## Timestamps -/

/-- The last `n` bytes of an integer. -/
def lastBytes (n : Nat) (v : Int) : List Byte :=
  (List.range n).reverse.map fun i => BitVec.ofInt 8 (v / 256 ^ i)

theorem toByteArray_eq (v : Int) : toByteArray v = lastBytes (bitLength v / 8 + 1) v := rfl

theorem lastBytes_succ (n : Nat) (v : Int) :
    lastBytes (n + 1) v = BitVec.ofInt 8 (v / 256 ^ n) :: lastBytes n v := by
  unfold lastBytes
  rw [range_succ, reverse_append, reverse_singleton, singleton_append,
    map_cons]

theorem length_lastBytes (n : Nat) (v : Int) : (lastBytes n v).length = n := by
  unfold lastBytes
  rw [length_map, length_reverse, length_range]

theorem length_toByteArray (v : Int) : (toByteArray v).length = bitLength v / 8 + 1 :=
  length_lastBytes _ v

theorem two_pow_mul_eight (n : Nat) : (2 : Int) ^ (8 * n) = 256 ^ n := by
  rw [pow_mul]
  rfl

theorem dvd_unsigned_lastBytes (n : Nat) (v : Int) :
    (256 : Int) ^ n ∣ Digits.unsigned (lastBytes n v) - v := by
  suffices h : ((Digits.unsigned (lastBytes n v) : Nat) : Int) = v % 256 ^ n by
    rw [h, ← neg_sub]
    exact Int.dvd_neg.mpr Int.dvd_self_sub_emod
  induction n with
  | zero => exact (Int.emod_one v).symm
  | succ n ih =>
    have hcast : (((2 : Nat) ^ (8 * n) : Nat) : Int) = 256 ^ n := by
      push_cast
      exact two_pow_mul_eight n
    have hbyte : (((BitVec.ofInt 8 (v / 256 ^ n)).toNat : Nat) : Int) = v / 256 ^ n % 256 := by
      rw [BitVec.toNat_ofInt]
      have hpos := Int.emod_nonneg (v / 256 ^ n) (b := 256) (by decide)
      exact Int.toNat_of_nonneg hpos
    rw [lastBytes_succ, Digits.unsigned_cons, length_lastBytes]
    rw [Nat.cast_add, Nat.cast_mul, ih, hbyte, hcast]
    have hhigh := Int.mul_ediv_add_emod (v / 256 ^ n) 256
    have hlow := Int.mul_ediv_add_emod v (256 ^ n)
    have hlow_nonneg := Int.emod_nonneg v (b := 256 ^ n) (by positivity)
    have hlow_lt := Int.emod_lt_of_pos v (b := 256 ^ n) (by positivity)
    have hbyte_nonneg := Int.emod_nonneg (v / 256 ^ n) (b := 256) (by decide)
    have hbyte_lt := Int.emod_lt_of_pos (v / 256 ^ n) (b := 256) (by decide)
    refine ((Int.ediv_emod_unique (q := v / 256 ^ n / 256) (by positivity)).mpr ⟨?_, ?_, ?_⟩).2.symm
    · calc v / 256 ^ n % 256 * 256 ^ n + v % 256 ^ n + 256 ^ (n + 1) * (v / 256 ^ n / 256)
          = 256 ^ n * (256 * (v / 256 ^ n / 256) + v / 256 ^ n % 256) + v % 256 ^ n := by ring
        _ = v := by rw [hhigh, hlow]
    · positivity
    · rw [pow_succ]
      nlinarith

theorem lt_two_pow_bitLength (v : Int) : -2 ^ bitLength v ≤ v ∧ v < 2 ^ bitLength v := by
  have hsize := Nat.lt_size_self (if v < 0 then -v - 1 else v).toNat
  have hlt : (if v < 0 then -v - 1 else v) < 2 ^ bitLength v := by
    have hcast : (((if v < 0 then -v - 1 else v).toNat : Nat) : Int) < 2 ^ bitLength v := by
      exact_mod_cast hsize
    exact lt_of_le_of_lt (Int.self_le_toNat _) hcast
  split at hlt
  · constructor <;> omega
  · constructor <;> omega

theorem bitLength_lt {v : Int} (k : Nat) : bitLength v < k + 1 ↔ -2 ^ k ≤ v ∧ v < 2 ^ k := by
  unfold bitLength
  rw [Nat.lt_succ_iff, Nat.size_le, Int.toNat_lt (by split <;> omega)]
  push_cast
  split <;> omega

/-- The bytes are the integer. -/
theorem newBigInteger_toByteArray (v : Int) : newBigInteger (toByteArray v) = v := by
  have hrange := lt_two_pow_bitLength v
  have hpow : (2 : Int) ^ bitLength v * 2 ≤ 2 ^ (8 * (bitLength v / 8 + 1)) := by
    rw [← pow_succ]
    exact pow_le_pow_right₀ (by decide) (by omega)
  unfold newBigInteger
  rw [toByteArray_eq]
  refine Digits.signed_unique (by decide) ?_ ?_ ?_
  · rw [length_lastBytes, two_pow_mul_eight]
    exact dvd_unsigned_lastBytes _ v
  · rw [length_lastBytes]
    omega
  · rw [length_lastBytes]
    omega

/-- What stands in the field of a timestamp. -/
def timeField (t : BitVec 64) : List Byte :=
  newArray (8 - (toByteArray t.toInt).length) ++ toByteArray t.toInt

/-- A timestamp that is not negative, or that needs all eight bytes. -/
def Fits (t : BitVec 64) : Prop := 0 ≤ t.toInt ∨ t.toInt < -2 ^ 55

theorem length_toByteArray_le (t : BitVec 64) : (toByteArray t.toInt).length ≤ 8 := by
  have hlt : bitLength t.toInt < 63 + 1 := by
    have hlow := BitVec.le_toInt t
    have hhigh := BitVec.toInt_lt (x := t)
    rw [bitLength_lt]
    constructor <;> omega
  rw [length_toByteArray]
  omega

/-- Zeros in front: the sign is lost. -/
theorem newBigInteger_zeros {bytes : List Byte} (hn : 0 < n) :
    newBigInteger (newArray n ++ bytes) = Digits.unsigned bytes := by
  obtain ⟨m, rfl⟩ := Nat.exists_eq_add_one_of_ne_zero (Nat.ne_of_gt hn)
  unfold newBigInteger newArray
  rw [replicate_succ, cons_append, Digits.signed_of_nonneg (by decide),
    ← cons_append, ← replicate_succ, Digits.unsigned_append]
  have hzero : Digits.unsigned (List.replicate (m + 1) (0 : Byte)) = 0 :=
    Digits.unsigned_replicate_zero (m + 1)
  rw [hzero, Nat.zero_mul, Nat.zero_add]

theorem newBigInteger_timeField (t : BitVec 64) :
    BitVec.ofInt 64 (newBigInteger (timeField t)) = t ↔ Fits t := by
  have hle := length_toByteArray_le t
  have hlen := length_toByteArray t.toInt
  have hvalue := newBigInteger_toByteArray t.toInt
  unfold timeField
  rcases Nat.lt_or_ge (toByteArray t.toInt).length 8 with hshort | hfull
  · -- a short number is read without its sign
    have hbits : bitLength t.toInt < 55 + 1 := by omega
    have hrange := (bitLength_lt 55).mp hbits
    have hlt : Digits.unsigned (toByteArray t.toInt) < 2 ^ 56 :=
      Nat.lt_of_lt_of_le (Digits.unsigned_lt _) (Nat.pow_le_pow_right (by decide) (by omega))
    rw [newBigInteger_zeros (by omega), ← BitVec.toInt_inj, BitVec.toInt_ofInt,
      Int.bmod_eq_of_le (by omega) (by omega)]
    unfold Fits
    constructor
    · intro h
      exact Or.inl (h ▸ Int.natCast_nonneg _)
    · rintro (hnonneg | hneg)
      · have hsigned : 0 ≤ Digits.signed (toByteArray t.toInt) := le_of_le_of_eq hnonneg hvalue.symm
        rw [← Digits.signed_eq_unsigned hsigned]
        exact hvalue
      · omega
  · have hzero : 8 - (toByteArray t.toInt).length = 0 := by omega
    have hbits : ¬ bitLength t.toInt < 55 + 1 := by omega
    rw [bitLength_lt] at hbits
    rw [hzero]
    show BitVec.ofInt 64 (newBigInteger (toByteArray t.toInt)) = t ↔ Fits t
    rw [hvalue, BitVec.ofInt_toInt]
    unfold Fits
    simp only [true_iff]
    omega

theorem extractTimestamp_eq (h : offset + 8 ≤ p.length) :
    extractTimestamp p offset = some (BitVec.ofInt 64 (newBigInteger (field p offset 8))) := by
  have hlen : (field p offset 8).length = 8 := length_field h
  have hfield : splice (newArray 8) 0 (field p offset 8) = field p offset 8 := by
    unfold splice newArray
    rw [hlen]
    exact append_nil _
  unfold extractTimestamp
  rw [copyBytes_eq h (Nat.le_refl 8), hfield]
  rfl

/-! ## The packets -/

theorem exists_write (h : i < a.length) : ∃ a', write a i b = some a' ∧ Written a i [b] a' :=
  ⟨_, write_eq h, h, rfl⟩

theorem exists_copyBytes (src : List Byte) (offset : Nat) (hsrc : n = src.length)
    (hdst : offset + n ≤ dst.length) :
    ∃ a', copyBytes dst src offset 0 n = some a' ∧ Written dst offset src a' := by
  subst hsrc
  have hsrc : 0 + src.length ≤ src.length := Nat.le_of_eq (Nat.zero_add _)
  have hcopy := copyBytes_eq hsrc hdst
  rw [field_all] at hcopy
  exact ⟨_, hcopy, hdst, rfl⟩

theorem exists_loadTimestamp (offset : Nat) (t : BitVec 64) (h : offset + 8 ≤ a.length) :
    ∃ a', loadTimestamp a (toByteArray t.toInt) offset = some a' ∧
      Written a (offset + (8 - (toByteArray t.toInt).length)) (toByteArray t.toInt) a' := by
  have hle := length_toByteArray_le t
  exact ⟨_, loadTimestamp_eq hle h, by omega, rfl⟩

theorem request_kept (hmsg : OneByte msg) (hmax : msg.length ≤ MAXMSG) :
    (do extractText (← makeDecryptPkt msg) 3) = some msg := by
  have hbytes := hmsg.length_getBytes
  have hmax' : msg.length ≤ 512 := hmax
  have hmin : min (getBytes msg).length MAXMSG = msg.length := by omega
  have hnew : (newArray PKTSIZE).length = 1024 := length_replicate
  -- the type and the two bytes of the length, then the text
  obtain ⟨a₁, hwrite₁, hw₁⟩ := exists_write (a := newArray PKTSIZE) (i := 0) (b := 1) (by omega)
  have hlen₁ := hw₁.length
  obtain ⟨a₂, hwrite₂, hw₂⟩ := exists_write (a := a₁) (i := 1) (b := lowByte msg.length) (by omega)
  have hlen₂ := hw₂.length
  obtain ⟨a₃, hwrite₃, hw₃⟩ := exists_write (a := a₂) (i := 2) (b := highByte msg.length) (by omega)
  have hlen₃ := hw₃.length
  have hroom : 3 + msg.length ≤ a₃.length := by omega
  obtain ⟨p, hcopy, hp⟩ := exists_copyBytes (getBytes msg) 3 hbytes.symm hroom
  have hpacket : makeDecryptPkt msg = some p := by
    show (do
      let sendBytes ← write (newArray PKTSIZE) 0 1
      let sendBytes ← write sendBytes 1 (lowByte msg.length)
      let sendBytes ← write sendBytes 2 (highByte msg.length)
      copyBytes sendBytes (getBytes msg) 3 0 (min (getBytes msg).length MAXMSG)) = some p
    rw [hmin]
    simp only [bind_eq_bind, bind_some, hwrite₁, hwrite₂, hwrite₃, hcopy]
  have hlow : p[1]? = some (lowByte msg.length) := by
    rw [hp.get_other (by omega), hw₃.get_other (by omega), hw₂.get]
  have hhigh : p[2]? = some (highByte msg.length) := by
    rw [hp.get_other (by omega), hw₃.get]
  have htext : field p 3 msg.length = getBytes msg := hbytes ▸ hp.read
  have hlength : p.length = PKTSIZE := by
    have hpacket := hp.length
    have hsize : PKTSIZE = 1024 := rfl
    omega
  rw [hpacket]
  exact extractText_eq hlength hmsg hmax (by decide) (extractMsgLen_eq (by omega) hlow hhigh) htext

/-- What the fields of a response hold. -/
structure Response (responseMsg : List Char) (unixMillis unixNanos : BitVec 64) (p : List Byte) :
    Prop where
  length : p.length = PKTSIZE
  low : p[1]? = some (lowByte responseMsg.length)
  high : p[2]? = some (highByte responseMsg.length)
  text : field p 19 responseMsg.length = getBytes responseMsg
  millis : field p 3 8 = timeField unixMillis
  nanos : field p 11 8 = timeField unixNanos

/-- A timestamp in a field of zeros. -/
theorem read_timeField (hw : Written a (offset + (8 - (toByteArray t.toInt).length))
    (toByteArray t.toInt) p) (h : offset + 8 ≤ a.length)
    (hzero : field a offset (8 - (toByteArray t.toInt).length) =
      newArray (8 - (toByteArray t.toInt).length)) : field p offset 8 = timeField t := by
  rw [hw.eq, field_splice_right (length_toByteArray_le t) h, hzero]
  rfl

theorem exists_response (hresponse : OneByte responseMsg) (hmax : responseMsg.length ≤ MAXMSG)
    (unixMillis unixNanos : BitVec 64) :
    ∃ p, decryptResponse responseMsg unixMillis unixNanos = some p ∧
      Response responseMsg unixMillis unixNanos p := by
  have hbytes := hresponse.length_getBytes
  have hmax' : responseMsg.length ≤ 512 := hmax
  have hmin : (min ((getBytes responseMsg).length : Int) MAXMSG).toNat = (getBytes responseMsg).length := by
    omega
  have hnew : (newArray PKTSIZE).length = 1024 := length_replicate
  have hroom : 19 + (getBytes responseMsg).length ≤ (newArray PKTSIZE).length := by omega
  obtain ⟨a₁, hcopy, hw₁⟩ := exists_copyBytes (getBytes responseMsg) 19 rfl hroom
  have hlen₁ := hw₁.length
  obtain ⟨a₂, hwrite₂, hw₂⟩ := exists_write (a := a₁) (i := 1)
    (b := lowByte responseMsg.length) (by omega)
  have hlen₂ := hw₂.length
  obtain ⟨a₃, hwrite₃, hw₃⟩ := exists_write (a := a₂) (i := 2)
    (b := highByte responseMsg.length) (by omega)
  have hlen₃ := hw₃.length
  obtain ⟨a₄, hwrite₄, hw₄⟩ := exists_write (a := a₃) (i := 0) (b := 1) (by omega)
  have hlen₄ := hw₄.length
  obtain ⟨a₅, hload₅, hw₅⟩ := exists_loadTimestamp (a := a₄) 3 unixMillis (by omega)
  have hlen₅ := hw₅.length
  obtain ⟨p, hload, hp⟩ := exists_loadTimestamp (a := a₅) 11 unixNanos (by omega)
  have hlen := hp.length
  have hmillis := length_toByteArray_le unixMillis
  have hnanos := length_toByteArray_le unixNanos
  -- the fields that a write does not meet
  have hzero : ∀ lo n, 3 ≤ lo → lo + n ≤ 19 → field a₄ lo n = newArray n := by
    intro lo n hlo hn
    rw [hw₄.read_other (Or.inr (by rw [length_singleton]; omega)),
      hw₃.read_other (Or.inr (by rw [length_singleton]; omega)),
      hw₂.read_other (Or.inr (by rw [length_singleton]; omega)),
      hw₁.read_other (Or.inl hn)]
    exact field_replicate (by unfold PKTSIZE; omega)
  have hlength : loadMsgLen a₁ responseMsg.length = some a₃ := by
    show (write a₁ 1 (lowByte responseMsg.length)).bind
      (fun sendBytes => write sendBytes 2 (highByte responseMsg.length)) = some a₃
    rw [hwrite₂]
    exact hwrite₃
  have hpacket : decryptResponse responseMsg unixMillis unixNanos = some p := by
    unfold decryptResponse loadMsg
    dsimp only
    rw [hmin, hcopy, hbytes]
    simp only [bind_eq_bind, bind_some, hlength, hwrite₄, hload₅, hload]
  refine ⟨p, hpacket, ?_⟩
  constructor
  · have hsize : PKTSIZE = 1024 := rfl
    omega
  · rw [hp.get_other (by omega), hw₅.get_other (by omega), hw₄.get_other (by simp),
      hw₃.get_other (by simp), hw₂.get]
  · rw [hp.get_other (by omega), hw₅.get_other (by omega), hw₄.get_other (by simp), hw₃.get]
  · rw [hp.read_other (by omega), hw₅.read_other (by omega), hw₄.read_other (by simp),
      hw₃.read_other (by simp), hw₂.read_other (by simp), ← hbytes, hw₁.read]
  · rw [hp.read_other (by omega)]
    exact read_timeField hw₅ (by omega) (hzero _ _ (by omega) (by omega))
  · refine read_timeField hp (by omega) ?_
    rw [hw₅.read_other (by omega)]
    exact hzero _ _ (by omega) (by omega)

/-! ## The result -/

/-- The server reads the message from a request, and the client the text and both
timestamps from a response. -/
def RoundTrip (msg responseMsg : List Char) (unixMillis unixNanos : BitVec 64) : Prop :=
  (do extractText (← makeDecryptPkt msg) 3) = some msg ∧
  ∃ p, decryptResponse responseMsg unixMillis unixNanos = some p ∧
    extractMsgLen p = some (responseMsg.length : Int) ∧ extractText p 19 = some responseMsg ∧
    extractTimestamp p 3 = some unixMillis ∧ extractTimestamp p 11 = some unixNanos

theorem roundTrip_iff_of_oneByte (hmsg : OneByte msg) (hlen : msg.length ≤ MAXMSG)
    (hresponse : OneByte responseMsg) (hlen' : responseMsg.length ≤ MAXMSG)
    (unixMillis unixNanos : BitVec 64) :
    RoundTrip msg responseMsg unixMillis unixNanos ↔ Fits unixMillis ∧ Fits unixNanos := by
  obtain ⟨p, hpacket, hp⟩ := exists_response hresponse hlen' unixMillis unixNanos
  have hsize : PKTSIZE = 1024 := rfl
  have hmax : MAXMSG = 512 := rfl
  have hlength := hp.length
  have hmsgLen := extractMsgLen_eq (p := p) (n := responseMsg.length) (by omega) hp.low hp.high
  have htext := extractText_eq hp.length hresponse hlen' (by decide) hmsgLen hp.text
  have hmillis : extractTimestamp p 3 = some unixMillis ↔ Fits unixMillis := by
    rw [extractTimestamp_eq (by omega), hp.millis, some_inj]
    exact newBigInteger_timeField unixMillis
  have hnanos : extractTimestamp p 11 = some unixNanos ↔ Fits unixNanos := by
    rw [extractTimestamp_eq (by omega), hp.nanos, some_inj]
    exact newBigInteger_timeField unixNanos
  constructor
  · rintro ⟨-, p', hpacket', -, -, htime, htime'⟩
    rw [some.inj (hpacket'.symm.trans hpacket)] at htime htime'
    exact ⟨hmillis.mp htime, hnanos.mp htime'⟩
  · rintro ⟨hfits, hfits'⟩
    exact ⟨request_kept hmsg hlen, p, hpacket, hmsgLen, htext, hmillis.mpr hfits, hnanos.mpr hfits'⟩

/-- Texts always survive; both timestamps do if and only if none of them is a negative
number of less than eight bytes. -/
theorem roundTrip_iff (hmsg : Hexadecimal msg) (hlen : msg.length ≤ MAXMSG)
    (hresponse : Hexadecimal responseMsg) (hlen' : responseMsg.length ≤ MAXMSG)
    (unixMillis unixNanos : BitVec 64) :
    RoundTrip msg responseMsg unixMillis unixNanos ↔ Fits unixMillis ∧ Fits unixNanos :=
  roundTrip_iff_of_oneByte hmsg.oneByte hlen hresponse.oneByte hlen' unixMillis unixNanos

/-- A request, and a response with a `nanoTime` that is negative and needs eight bytes. -/
theorem roundTrip_beef :
    RoundTrip "beef".toList "c0ffee".toList 1700000000000 (BitVec.ofInt 64 (-2 ^ 55 - 1)) :=
  (roundTrip_iff (by decide) (by decide) (by decide) (by decide) _ _).mpr
    ⟨Or.inl (by decide), Or.inr (by decide)⟩

/-- A `nanoTime` of -1 is read as 255. -/
theorem not_roundTrip : Hexadecimal ['0'] ∧ ¬ RoundTrip ['0'] ['0'] 0 (BitVec.ofInt 64 (-1)) := by
  have hdigit : Hexadecimal ['0'] := by decide
  refine ⟨hdigit, fun h => ?_⟩
  have hfits := (roundTrip_iff_of_oneByte hdigit.oneByte (by decide) hdigit.oneByte (by decide)
    _ _).mp h
  exact absurd hfits.2 (by unfold Fits; decide)

end PittCs.Cs1657
