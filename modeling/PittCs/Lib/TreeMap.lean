import Std.Data.TreeMap.Lemmas

/-!
# Maps with decidable keys

Lookups in a `TreeMap` after an update, as an `if` on equality of keys.
-/

namespace PittCs.Lib

open Std

universe u v

variable {α : Type u} {β : Type v} [Ord α] [TransOrd α] [LawfulEqOrd α] [DecidableEq α]

theorem getElem?_insert_if (m : TreeMap α β) (k x : α) (v : β) :
    (m.insert k v)[x]? = if x = k then some v else m[x]? := by
  rw [TreeMap.getElem?_insert]
  by_cases hx : x = k
  · subst hx
    simp
  · have hx' : ¬ k = x := fun he => hx he.symm
    simp [hx, hx']

theorem getElem?_erase_if (m : TreeMap α β) (k x : α) :
    (m.erase k)[x]? = if x = k then none else m[x]? := by
  rw [TreeMap.getElem?_erase]
  by_cases hx : x = k
  · subst hx
    simp
  · have hx' : ¬ k = x := fun he => hx he.symm
    simp [hx, hx']

end PittCs.Lib
