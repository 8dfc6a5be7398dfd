import Mathlib.Algebra.GroupWithZero.Nat
import Mathlib.Data.Fin.Basic

/-!
# Haskell strings
-/

namespace PittCs.Cs1699

/-- `Char`: the code points, surrogates included. -/
abbrev HChar := Fin 0x110000

instance neZeroCodePoints : NeZero 0x110000 := ⟨by decide⟩

instance lawfulHChar : LawfulBEq HChar := inferInstance

/-- `String`. -/
abbrev HString := List HChar

/-- A character literal. -/
def chr (c : Char) : HChar := Fin.ofNat 0x110000 c.toNat

/-- A string literal. -/
def lit (s : String) : HString := s.toList.map chr

end PittCs.Cs1699
