import PittCs.Rcdb.Basic

/-!
# The Bloom filter

`BloomFilter.cpp`: a bit vector and two hash functions. The hash is computed in
`int`, so large keys overflow, and a negative remainder is an index before the
vector; both are undefined behaviour in the source.
-/

namespace PittCs.Rcdb

open List Option

def MAX_NUM_ENTRIES : Int := 512

/-- The largest value of an `int` is one less. -/
def INT_LIMIT : Int := 2147483648

/-- `class BloomFilter`. -/
structure BloomFilter where
  bitVector : List (BitVec 8)

namespace BloomFilter

/-- `BloomFilter::BloomFilter()`. -/
def init : BloomFilter := ⟨List.replicate 840 0⟩

/-- `HASH_1` of `computeHash`. -/
def computeHash1 (key : Int) : Except Err Int := .ok (key.tmod MAX_NUM_ENTRIES)

/-- `HASH_2` of `computeHash`. -/
def computeHash2 (key : Int) : Except Err Int :=
  if 5 * key < -INT_LIMIT ∨ 3 + 5 * key ≥ INT_LIMIT then
    .error (.undefinedBehaviour "signed overflow in computeHash")
  else .ok ((3 + 5 * key).tmod MAX_NUM_ENTRIES)

/-- The index of a bit; outside the vector there is none. -/
def bitIndex (f : BloomFilter) (i : Int) : Except Err Nat :=
  if i < 0 ∨ f.bitVector.length ≤ i.toNat / 8 then
    .error (.undefinedBehaviour "bitVector index out of range")
  else .ok i.toNat

/-- `BloomFilter::getElement`. -/
def getElement (f : BloomFilter) (i : Int) : Except Err Bool := do
  let i ← f.bitIndex i
  return (f.bitVector.getD (i / 8) 0).getLsbD (i % 8)

/-- `BloomFilter::setElement`. -/
def setElement (f : BloomFilter) (i : Int) : Except Err BloomFilter := do
  let i ← f.bitIndex i
  return ⟨f.bitVector.modify (i / 8) fun byte => byte ||| (1 : BitVec 8) <<< (i % 8)⟩

/-- `BloomFilter::add`. -/
def add (f : BloomFilter) (key : Int) : Except Err BloomFilter := do
  let k1 ← computeHash1 key
  let k2 ← computeHash2 key
  let f ← f.setElement k1
  f.setElement k2

/-- `BloomFilter::contains`. -/
def contains (f : BloomFilter) (key : Int) : Except Err Bool := do
  let k1 ← computeHash1 key
  let k2 ← computeHash2 key
  if ← f.getElement k1 then return true
  f.getElement k2

/-! ## No false negatives -/

/-- A key that is hashed without an overflow to bits of the vector. -/
def Hashable (key : Int) : Prop := 0 ≤ key ∧ 3 + 5 * key < INT_LIMIT

instance (key : Int) : Decidable (Hashable key) := inferInstanceAs (Decidable (_ ∧ _))

/-- The bit vector has its length. -/
def Full (f : BloomFilter) : Prop := f.bitVector.length = 840

theorem full_init : init.Full := length_replicate

def bit (f : BloomFilter) (i : Nat) : Bool := (f.bitVector.getD (i / 8) 0).getLsbD (i % 8)

def setBit (f : BloomFilter) (i : Nat) : BloomFilter :=
  ⟨f.bitVector.modify (i / 8) fun byte => byte ||| (1 : BitVec 8) <<< (i % 8)⟩

variable {f : BloomFilter} {key : Int}

theorem setBit_full (h : f.Full) (i : Nat) : (f.setBit i).Full := by
  unfold Full setBit
  rw [length_modify]
  exact h

/-- Setting a bit clears none. -/
theorem bit_setBit_of_bit {i j : Nat} (h : f.bit j = true) : (f.setBit i).bit j = true := by
  unfold bit setBit at *
  rw [getD_eq_getElem?_getD] at h ⊢
  rw [List.getElem?_modify]
  cases hbyte : f.bitVector[j / 8]? with
  | none =>
    rw [hbyte] at h
    exact absurd h (by simp)
  | some byte =>
    rw [hbyte] at h
    simp only [Option.map_eq_map, map_some, getD_some] at h ⊢
    split
    · rw [BitVec.getLsbD_or, h]
      rfl
    · exact h

theorem bit_setBit_self (h : f.Full) {i : Nat} (hi : i < 512) : (f.setBit i).bit i = true := by
  unfold Full at h
  have hlt : i / 8 < f.bitVector.length := by omega
  unfold bit setBit
  rw [getD_eq_getElem?_getD, List.getElem?_modify, List.getElem?_eq_getElem hlt]
  simp only [Option.map_eq_map, map_some, if_true, getD_some, BitVec.getLsbD_or,
    BitVec.getLsbD_shiftLeft]
  have hmod : i % 8 < 8 := Nat.mod_lt _ (by decide)
  simp [hmod]

/-- The two bits of a key. -/
def bits (key : Int) : Nat × Nat := ((key % 512).toNat, ((3 + 5 * key) % 512).toNat)

theorem bits_lt (key : Int) : (bits key).1 < 512 ∧ (bits key).2 < 512 := by
  unfold bits
  dsimp only
  omega

theorem computeHash1_eq (h : Hashable key) : computeHash1 key = .ok (bits key).1 := by
  rcases h with ⟨hpos, -⟩
  unfold computeHash1 bits MAX_NUM_ENTRIES
  rw [Int.tmod_eq_emod_of_nonneg hpos]
  congr 1
  dsimp only
  omega

theorem computeHash2_eq (h : Hashable key) : computeHash2 key = .ok (bits key).2 := by
  rcases h with ⟨hpos, hlt⟩
  unfold INT_LIMIT at hlt
  unfold computeHash2 bits MAX_NUM_ENTRIES INT_LIMIT
  rw [if_neg (by omega), Int.tmod_eq_emod_of_nonneg (by omega)]
  congr 1
  dsimp only
  omega

theorem bitIndex_eq (h : f.Full) {i : Nat} (hi : i < 512) : f.bitIndex i = .ok i := by
  unfold Full at h
  unfold bitIndex
  rw [if_neg (by omega)]
  rfl

theorem getElement_eq (h : f.Full) {i : Nat} (hi : i < 512) : f.getElement i = .ok (f.bit i) := by
  unfold getElement
  rw [bitIndex_eq h hi]
  rfl

theorem setElement_eq (h : f.Full) {i : Nat} (hi : i < 512) :
    f.setElement i = .ok (f.setBit i) := by
  unfold setElement
  rw [bitIndex_eq h hi]
  rfl

theorem contains_eq (h : f.Full) (hkey : Hashable key) :
    f.contains key = .ok (f.bit (bits key).1 || f.bit (bits key).2) := by
  unfold contains
  rw [computeHash1_eq hkey, computeHash2_eq hkey]
  simp only [bind, Except.bind]
  rw [getElement_eq h (bits_lt key).1, getElement_eq h (bits_lt key).2]
  cases f.bit (bits key).1 with
  | false => rfl
  | true => rfl

/-- `add` makes `contains` true of its key and false of none. -/
theorem add_spec (h : f.Full) (hkey : Hashable key) :
    ∃ f', f.add key = .ok f' ∧ f'.Full ∧ f'.contains key = .ok true ∧
      ∀ key', Hashable key' → f.contains key' = .ok true → f'.contains key' = .ok true := by
  have hfull₁ := setBit_full h (bits key).1
  have hfull₂ := setBit_full hfull₁ (bits key).2
  refine ⟨(f.setBit (bits key).1).setBit (bits key).2, ?_, hfull₂, ?_, ?_⟩
  · unfold add
    rw [computeHash1_eq hkey, computeHash2_eq hkey]
    simp only [bind, Except.bind]
    rw [setElement_eq h (bits_lt key).1]
    exact setElement_eq hfull₁ (bits_lt key).2
  · rw [contains_eq hfull₂ hkey, bit_setBit_self hfull₁ (bits_lt key).2, Bool.or_true]
  · intro key' hkey' hold
    rw [contains_eq h hkey'] at hold
    injection hold with hold
    rw [contains_eq hfull₂ hkey']
    rcases Bool.or_eq_true_iff.mp hold with hbit | hbit
    · rw [bit_setBit_of_bit (bit_setBit_of_bit hbit), Bool.true_or]
    · rw [bit_setBit_of_bit (bit_setBit_of_bit hbit), Bool.or_true]

end BloomFilter

end PittCs.Rcdb
