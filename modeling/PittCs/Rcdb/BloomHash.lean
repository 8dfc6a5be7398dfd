import PittCs.Lib.Outcome
import PittCs.Lib.TreeMap
import PittCs.Rcdb.Table

/-!
# The Bloom filter over all keys

`computeHash` multiplies the key in `int` before it reduces it. The operations
below take the arithmetic as a parameter: `wrapping` is what a 32-bit machine
computes, `strict` the language, in which an overflow is undefined behaviour. The
filter works for exactly the keys whose second hash is an index.
-/

namespace PittCs.Rcdb

open Std PittCs.Lib List

namespace BloomFilter

/-- Two's complement. -/
def wrapping (v : Int) : Except Err Int := .ok (v.bmod 4294967296)

def strict (v : Int) : Except Err Int :=
  if v < -INT_LIMIT ∨ v ≥ INT_LIMIT then
    .error (.undefinedBehaviour "signed overflow in computeHash")
  else .ok v

section Operations

variable (arith : Int → Except Err Int)

/-- `HASH_2` of `computeHash`. -/
def hash2 (key : Int) : Except Err Int := do
  let product ← arith (5 * key)
  let sum ← arith (3 + product)
  return sum.tmod MAX_NUM_ENTRIES

/-- `BloomFilter::add`. -/
def addIn (f : BloomFilter) (key : Int) : Except Err BloomFilter := do
  let k1 ← computeHash1 key
  let k2 ← hash2 arith key
  let f ← f.setElement k1
  f.setElement k2

/-- `BloomFilter::contains`. -/
def containsIn (f : BloomFilter) (key : Int) : Except Err Bool := do
  let k1 ← computeHash1 key
  let k2 ← hash2 arith key
  if ← f.getElement k1 then return true
  f.getElement k2

end Operations

/-- `BloomFilter::dump`, into the directory of a table. -/
def dump (f : BloomFilter) (d : Disk) (table : Str) : Disk := Table.writeSmallFiles d table f none

/-- `BloomFilter::load`. -/
def load (d : Disk) (table : Str) : BloomFilter := Table.loadBloomFilter d table

/-- What happens to a filter. -/
inductive FilterStep where
  | add (key : Int)
  /-- `dump`, then `load`. -/
  | reload

def step (arith : Int → Except Err Int) (d : Disk) (table : Str) (f : BloomFilter) :
    FilterStep → Except Err BloomFilter
  | .add key => f.addIn arith key
  | .reload => .ok (load (f.dump d table) table)

/-- Every index is within the vector, and after every prefix of the steps the keys
added by then are found. -/
def Sound (arith : Int → Except Err Int) (d : Disk) (table : Str) (steps : List FilterStep) :
    Prop :=
  ∀ before after, steps = before ++ after →
    ∃ f, before.foldlM (step arith d table) init = .ok f ∧
      ∀ key, .add key ∈ before → f.containsIn arith key = .ok true

/-! ## The second hash decides -/

/-- The second hash of the key is an index. -/
def Indexes (arith : Int → Except Err Int) (key : Int) : Prop :=
  ∃ i : Nat, i < 512 ∧ hash2 arith key = .ok i

section Steps

variable {arith : Int → Except Err Int} {d : Disk} {table : Str} {f f' : BloomFilter} {key : Int}
  {steps : List FilterStep}

theorem computeHash1_of_nonneg (hkey : 0 ≤ key) : computeHash1 key = .ok (bits key).1 := by
  unfold computeHash1 bits MAX_NUM_ENTRIES
  rw [Int.tmod_eq_emod_of_nonneg hkey]
  congr 1
  dsimp only
  omega

theorem addIn_of_indexes (hf : f.Full) (hkey : 0 ≤ key) {i : Nat} (hi : i < 512)
    (hhash : hash2 arith key = .ok i) :
    f.addIn arith key = .ok ((f.setBit (bits key).1).setBit i) := by
  unfold addIn
  rw [computeHash1_of_nonneg hkey, hhash]
  simp only [Bind.bind, Except.bind]
  rw [setElement_eq hf (bits_lt key).1]
  exact setElement_eq (setBit_full hf _) hi

/-- A bit is only set within the vector. -/
theorem indexes_of_addIn (h : f.addIn arith key = .ok f') : Indexes arith key := by
  unfold addIn at h
  rcases bind_eq_ok.mp h with ⟨k1, -, h⟩
  rcases bind_eq_ok.mp h with ⟨k2, hhash, h⟩
  rcases bind_eq_ok.mp h with ⟨f₁, -, h⟩
  rcases bind_eq_ok.mp h with ⟨i, hindex, -⟩
  have hlt : k2 < 512 := by
    unfold hash2 at hhash
    rcases bind_eq_ok.mp hhash with ⟨product, -, hhash⟩
    rcases bind_eq_ok.mp hhash with ⟨sum, -, hhash⟩
    cases hhash
    exact Int.tmod_lt_of_pos sum (by decide)
  have hnonneg : 0 ≤ k2 := by
    unfold bitIndex at hindex
    split at hindex
    · cases hindex
    case isFalse hrange => omega
  refine ⟨k2.toNat, by omega, ?_⟩
  rw [hhash, Int.toNat_of_nonneg hnonneg]

theorem containsIn_of_bit (hf : f.Full) (hkey : 0 ≤ key) (hindex : Indexes arith key)
    (hbit : f.bit (bits key).1 = true) : f.containsIn arith key = .ok true := by
  rcases hindex with ⟨i, -, hhash⟩
  unfold containsIn
  rw [computeHash1_of_nonneg hkey, hhash]
  simp only [Bind.bind, Except.bind]
  rw [getElement_eq hf (bits_lt key).1, hbit]
  rfl

/-- What was dumped is loaded again. -/
theorem load_dump (hdir : table ∈ d) (f : BloomFilter) : load (f.dump d table) table = f := by
  rcases TreeMap.mem_iff_isSome_getElem?.mp hdir with hsome
  rcases Option.isSome_iff_exists.mp hsome with ⟨dir, hget⟩
  unfold load dump Table.loadBloomFilter Table.writeSmallFiles
  rw [hget]
  simp

/-- The filter has its length, and the first bit of every added key is set. -/
structure Knows (f : BloomFilter) (steps : List FilterStep) : Prop where
  full : f.Full
  bit : ∀ key, .add key ∈ steps → f.bit (bits key).1 = true

theorem Knows.step (hdir : table ∈ d) (h : f.Knows steps) {s : FilterStep}
    (hs : ∀ key, s = .add key → 0 ≤ key ∧ Indexes arith key) :
    ∃ f', step arith d table f s = .ok f' ∧ f'.Knows (steps ++ [s]) := by
  cases s with
  | add key =>
    rcases hs key rfl with ⟨hkey, i, hi, hhash⟩
    have hfull := setBit_full h.full (bits key).1
    refine ⟨_, addIn_of_indexes h.full hkey hi hhash, setBit_full hfull i, ?_⟩
    intro key' hkey'
    apply bit_setBit_of_bit
    rcases mem_append.mp hkey' with hold | hnew
    · exact bit_setBit_of_bit (h.bit key' hold)
    · cases mem_singleton.mp hnew
      exact bit_setBit_self h.full (bits_lt key).1
  | reload =>
    refine ⟨f, congrArg Except.ok (load_dump hdir f), h.full, ?_⟩
    intro key hkey
    rcases mem_append.mp hkey with hold | hnew
    · exact h.bit key hold
    · cases mem_singleton.mp hnew

theorem knows_of_steps (hdir : table ∈ d)
    (hsteps : ∀ key, .add key ∈ steps → 0 ≤ key ∧ Indexes arith key) :
    ∃ f, steps.foldlM (BloomFilter.step arith d table) init = .ok f ∧ f.Knows steps := by
  have hrun := Returns.foldlM (f := BloomFilter.step arith d table) (l := steps) (b := init)
    (fun pre f => f.Knows pre) ⟨full_init, by simp⟩ (by
      intro pre s post hsplit f hf
      refine hf.step hdir ?_
      rintro key rfl
      apply hsteps key
      rw [hsplit]
      simp)
  exact hrun

/-- The filter is sound when the second hash of every added key is an index. -/
theorem sound_iff_indexes (hdir : table ∈ d) (hkeys : ∀ key, .add key ∈ steps → 0 ≤ key) :
    Sound arith d table steps ↔ ∀ key, .add key ∈ steps → Indexes arith key := by
  constructor
  · intro hsound key hmem
    rcases append_of_mem hmem with ⟨before, after, hsplit⟩
    rcases hsound (before ++ [.add key]) after (by simp [hsplit]) with ⟨f', hrun, -⟩
    rw [foldlM_append] at hrun
    rcases bind_eq_ok.mp hrun with ⟨f, -, hadd⟩
    rw [foldlM_cons] at hadd
    rcases bind_eq_ok.mp hadd with ⟨f₁, hadd, -⟩
    exact indexes_of_addIn hadd
  · rintro hindexes before after rfl
    have hbefore : ∀ key, .add key ∈ before → 0 ≤ key ∧ Indexes arith key := by
      intro key hmem
      have hmem' : FilterStep.add key ∈ before ++ after := mem_append_left _ hmem
      exact ⟨hkeys key hmem', hindexes key hmem'⟩
    rcases knows_of_steps hdir hbefore with ⟨f, hrun, hknows⟩
    refine ⟨f, hrun, fun key hmem => ?_⟩
    exact containsIn_of_bit hknows.full (hbefore key hmem).1 (hbefore key hmem).2
      (hknows.bit key hmem)

end Steps

/-! ## Which keys these are -/

theorem tmod_512_nonneg_iff (v : Int) : 0 ≤ v.tmod 512 ↔ 0 ≤ v ∨ (512 : Int) ∣ v := by
  rw [Int.tmod_eq_emod]
  split
  · omega
  · show 0 ≤ v % 512 - 512 ↔ _
    omega

theorem indexes_wrapping_iff (key : Int) : Indexes wrapping key ↔
    0 ≤ (3 + 5 * key).bmod 4294967296 ∨ (512 : Int) ∣ (3 + 5 * key).bmod 4294967296 := by
  have hhash : hash2 wrapping key = .ok (((3 + 5 * key).bmod 4294967296).tmod 512) := by
    unfold hash2 wrapping MAX_NUM_ENTRIES
    simp only [Bind.bind, Except.bind, Int.add_bmod_bmod]
    rfl
  rw [← tmod_512_nonneg_iff]
  unfold Indexes
  rw [hhash]
  have hlt : ((3 + 5 * key).bmod 4294967296).tmod 512 < 512 := Int.tmod_lt_of_pos _ (by decide)
  constructor
  · rintro ⟨i, -, hi⟩
    injection hi with hi
    omega
  · intro h
    refine ⟨(((3 + 5 * key).bmod 4294967296).tmod 512).toNat, by omega, ?_⟩
    rw [Int.toNat_of_nonneg h]

theorem hash2_strict (key : Int) : hash2 strict key = computeHash2 key := by
  unfold hash2 strict computeHash2 INT_LIMIT
  by_cases hproduct : 5 * key < -2147483648 ∨ 5 * key ≥ 2147483648
  · rw [if_pos hproduct, if_pos (by omega)]
    rfl
  · rw [if_neg hproduct]
    simp only [Bind.bind, Except.bind]
    by_cases hsum : 3 + 5 * key < -2147483648 ∨ 3 + 5 * key ≥ 2147483648
    · rw [if_pos hsum, if_pos (by omega)]
    · rw [if_neg hsum, if_neg (by omega)]
      rfl

theorem indexes_strict_iff {key : Int} (hkey : 0 ≤ key) :
    Indexes strict key ↔ 3 + 5 * key < INT_LIMIT := by
  unfold Indexes
  rw [hash2_strict]
  constructor
  · rintro ⟨i, -, hi⟩
    unfold computeHash2 at hi
    split at hi
    · cases hi
    case isFalse h => omega
  · intro h
    exact ⟨(bits key).2, (bits_lt key).2, computeHash2_eq ⟨hkey, h⟩⟩

/-- On a 32-bit machine the filter is sound for the keys with 3 + 5 · key, wrapped,
not negative or a multiple of 512; without relying on the wrap, for those that do
not overflow. -/
theorem sound_iff {d : Disk} {table : Str} {steps : List FilterStep} (hdir : table ∈ d)
    (hkeys : ∀ key, .add key ∈ steps → 0 ≤ key ∧ key < INT_LIMIT) :
    (Sound wrapping d table steps ↔ ∀ key, .add key ∈ steps →
      0 ≤ (3 + 5 * key).bmod 4294967296 ∨ (512 : Int) ∣ (3 + 5 * key).bmod 4294967296) ∧
    (Sound strict d table steps ↔ ∀ key, .add key ∈ steps → 3 + 5 * key < INT_LIMIT) := by
  have hnonneg : ∀ key, .add key ∈ steps → 0 ≤ key := fun key hmem => (hkeys key hmem).1
  rw [sound_iff_indexes hdir hnonneg, sound_iff_indexes hdir hnonneg]
  constructor
  · simp only [indexes_wrapping_iff]
  · constructor
    · intro h key hmem
      exact (indexes_strict_iff (hnonneg key hmem)).mp (h key hmem)
    · intro h key hmem
      exact (indexes_strict_iff (hnonneg key hmem)).mpr (h key hmem)

/-- A disk with one table. -/
def oneTable : Disk :=
  (∅ : Disk).insert (Str.ofString "A") ⟨fun _ => [], ∅, none⟩

theorem mem_oneTable : Str.ofString "A" ∈ oneTable := TreeMap.mem_insert_self

theorem sound_iff_small :
    (Sound wrapping oneTable (Str.ofString "A") [.add 5, .reload, .add 429496728] ↔
      ∀ key, .add key ∈ [FilterStep.add 5, .reload, .add 429496728] →
        0 ≤ (3 + 5 * key).bmod 4294967296 ∨ (512 : Int) ∣ (3 + 5 * key).bmod 4294967296) ∧
    (Sound strict oneTable (Str.ofString "A") [.add 5, .reload, .add 429496728] ↔
      ∀ key, .add key ∈ [FilterStep.add 5, .reload, .add 429496728] →
        3 + 5 * key < INT_LIMIT) := by
  refine sound_iff mem_oneTable ?_
  intro key hkey
  simp only [mem_cons, FilterStep.add.injEq, reduceCtorEq, not_mem_nil, or_false,
    false_or] at hkey
  unfold INT_LIMIT
  omega

/-- The second hash of this key is -507. -/
theorem sound_fails :
    ¬ ∀ (d : Disk) (table : Str) (steps : List FilterStep), table ∈ d →
      (∀ key, .add key ∈ steps → 0 ≤ key ∧ key < INT_LIMIT) → Sound wrapping d table steps := by
  intro hall
  have hsound := hall oneTable (Str.ofString "A") [.add 429496730] mem_oneTable (by
    intro key hkey
    cases mem_singleton.mp hkey
    decide)
  have hindex := (sound_iff_indexes mem_oneTable (by
    intro key hkey
    cases mem_singleton.mp hkey
    decide)).mp hsound 429496730 (mem_singleton_self _)
  exact absurd ((indexes_wrapping_iff 429496730).mp hindex) (by decide)

end BloomFilter

end PittCs.Rcdb
