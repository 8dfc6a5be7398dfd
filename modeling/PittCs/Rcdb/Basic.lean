import Mathlib.Data.List.TakeWhile
import Std.Data.TreeMap.Lemmas

/-!
# pittRCDB: strings, errors and column records

The data every layer of the storage engine shares. A C++ `string` of this
program always comes from a C string (`strtok` on a command line, or a `char`
array), so `Str` is a byte string without NUL. `int` quantities that only grow
with a table (offsets, sizes, counts, page numbers) are unbounded here; they stay in
range in tables of fewer than `2 ^ 28` slots and columns of fewer than `2 ^ 22` pages.
-/

namespace PittCs.Rcdb

open Std List

/-! ## Strings -/

/-- A C string: bytes without the terminator. -/
structure Str where
  chars : List UInt8
  no_nul : 0 ∉ chars
deriving DecidableEq

namespace Str

/-- The C string that starts at the first of these bytes of memory. -/
def ofBytes (bytes : List UInt8) : Str where
  chars := bytes.takeWhile (· ≠ 0)
  no_nul := by
    intro h
    simpa using mem_takeWhile_imp h

def ofString (s : String) : Str :=
  ofBytes (s.toList.map fun c => c.toNat.toUInt8)

def length (s : Str) : Nat := s.chars.length

/-- `substr(0, n)`. -/
def take (s : Str) (n : Nat) : Str where
  chars := s.chars.take n
  no_nul := fun h => s.no_nul (mem_of_mem_take h)

def append (s t : Str) : Str where
  chars := s.chars ++ t.chars
  no_nul := by
    intro h
    rcases mem_append.mp h with h | h
    · exact s.no_nul h
    · exact t.no_nul h

@[ext] theorem ext {s t : Str} (h : s.chars = t.chars) : s = t := by
  cases s
  cases t
  simpa using h

instance : Ord Str := ⟨compareOn Str.chars⟩

instance : TransOrd Str := inferInstanceAs (TransCmp (compareOn Str.chars))

instance : LawfulEqOrd Str where
  compare_self := ReflOrd.compare_self (α := List UInt8)
  eq_of_compare h := ext (LawfulEqOrd.eq_of_compare (α := List UInt8) h)

end Str

/-! ## Exceptions -/

/-- How a call can end without a result: the C++ exceptions the code throws,
`std::map::at` on a missing key, and undefined behaviour. -/
inductive Err where
  | runtimeError (what : String)
  | invalidArgument (what : String)
  | literal (what : String)
  | openFailed (table : Str) (file : String)
  | outOfRange
  | undefinedBehaviour (what : String)
deriving DecidableEq

/-! ## Fixed character arrays -/

/-- `char[8]`. -/
structure Chars8 where
  bytes : List UInt8
  length_eq : bytes.length = 8
deriving DecidableEq

/-- `strncpy(dst, s, 8)`: at most eight characters, padded with NUL. -/
def strncpy8 (s : Str) : Chars8 where
  bytes := (s.chars ++ List.replicate 8 0).take 8
  length_eq := by simp

/-- The characters before the first NUL, at most eight. -/
def Chars8.text (c : Chars8) : Str := Str.ofBytes c.bytes

theorem strncpy8_bytes {s : Str} (h : s.length ≤ 8) :
    (strncpy8 s).bytes = s.chars ++ List.replicate (8 - s.length) 0 := by
  have hlen : s.chars.length ≤ 8 := h
  show (s.chars ++ List.replicate 8 0).take 8 = _
  rw [take_append, take_of_length_le hlen, take_replicate]
  congr 2
  simp only [Str.length]
  omega

/-- A name of at most eight characters survives its `char[8]`. -/
theorem text_strncpy8 {s : Str} (h : s.length ≤ 8) : (strncpy8 s).text = s := by
  apply Str.ext
  show takeWhile _ (strncpy8 s).bytes = s.chars
  have hpos : ∀ c ∈ s.chars, decide (c ≠ 0) = true := by
    intro c hc
    simpa using fun h0 : c = 0 => s.no_nul (h0 ▸ hc)
  rw [strncpy8_bytes h, takeWhile_append_of_pos hpos]
  simp

end PittCs.Rcdb
