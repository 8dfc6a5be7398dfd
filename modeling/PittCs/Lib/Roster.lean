import Mathlib.Data.List.Perm.Basic
import Mathlib.Data.List.Nodup

/-!
# Rosters

Every key may have an entry. A list is a roster of the entries if it holds one entry
for each key that has one, and nothing else. The order does not matter, and equal
entries of different keys are kept apart only by their number.
-/

namespace PittCs.Lib

open Function List

universe u v

variable {κ : Type u} {α : Type v}

/-- The list holds the entries, each once for its key. -/
def Roster (entry : κ → Option α) (l : List α) : Prop :=
  ∃ keys : List κ, keys.Nodup ∧ (∀ k, k ∈ keys ↔ entry k ≠ none) ∧ l.Perm (keys.filterMap entry)

namespace Roster

variable {entry : κ → Option α} {l l' : List α} {k : κ} {x : α}

theorem nil : Roster (fun _ : κ => (none : Option α)) [] :=
  ⟨[], nodup_nil, by simp, .refl _⟩

/-- A roster is determined up to its order. -/
theorem perm (h : Roster entry l) (h' : Roster entry l') : l.Perm l' := by
  rcases h with ⟨keys, hnodup, hkeys, hl⟩
  rcases h' with ⟨keys', hnodup', hkeys', hl'⟩
  have hperm : keys.Perm keys' :=
    (perm_ext_iff_of_nodup hnodup hnodup').mpr fun k => (hkeys k).trans (hkeys' k).symm
  exact hl.trans ((hperm.filterMap entry).trans hl'.symm)

theorem of_perm (h : Roster entry l) (hl : l'.Perm l) : Roster entry l' := by
  rcases h with ⟨keys, hnodup, hkeys, hperm⟩
  exact ⟨keys, hnodup, hkeys, hl.trans hperm⟩

theorem mem_iff (h : Roster entry l) : x ∈ l ↔ ∃ k, entry k = some x := by
  rcases h with ⟨keys, _, hkeys, hl⟩
  rw [hl.mem_iff, mem_filterMap]
  constructor
  · rintro ⟨k, _, hk⟩
    exact ⟨k, hk⟩
  · rintro ⟨k, hk⟩
    exact ⟨k, (hkeys k).mpr (by simp [hk]), hk⟩

variable [DecidableEq κ]

/-- A key without an entry gets one. -/
theorem insert (h : Roster entry l) (hk : entry k = none) :
    Roster (Function.update entry k (some x)) (x :: l) := by
  rcases h with ⟨keys, hnodup, hkeys, hl⟩
  have hnot : k ∉ keys := fun hmem => (hkeys k).mp hmem hk
  have hsame : keys.filterMap (Function.update entry k (some x)) = keys.filterMap entry := by
    refine filterMap_congr fun k' hk' => ?_
    have hne : k' ≠ k := fun heq => hnot (heq ▸ hk')
    exact update_of_ne hne _ _
  refine ⟨k :: keys, nodup_cons.mpr ⟨hnot, hnodup⟩, ?_, ?_⟩
  · intro k'
    by_cases heq : k' = k
    · simp [heq]
    · simp [heq, hkeys k']
  · rw [filterMap_cons, update_self, hsame]
    exact hl.cons x

variable [DecidableEq α]

/-- A key loses its entry. -/
theorem remove (h : Roster entry l) (hk : entry k = some x) :
    Roster (Function.update entry k none) (l.erase x) := by
  rcases h with ⟨keys, hnodup, hkeys, hl⟩
  have hmem : k ∈ keys := (hkeys k).mpr (by simp [hk])
  have hnot : k ∉ keys.erase k := hnodup.not_mem_erase
  have hsame : (keys.erase k).filterMap (Function.update entry k none) =
      (keys.erase k).filterMap entry := by
    refine filterMap_congr fun k' hk' => ?_
    have hne : k' ≠ k := fun heq => hnot (heq ▸ hk')
    exact update_of_ne hne _ _
  refine ⟨keys.erase k, hnodup.erase k, ?_, ?_⟩
  · intro k'
    rw [hnodup.mem_erase_iff, hkeys k']
    by_cases heq : k' = k
    · simp [heq]
    · simp [heq]
  · have hcons : (keys.filterMap entry).Perm (x :: (keys.erase k).filterMap entry) := by
      refine ((perm_cons_erase hmem).filterMap entry).trans ?_
      rw [filterMap_cons_some hk]
    rw [hsame]
    refine (hl.erase x).trans ((hcons.erase x).trans ?_)
    rw [erase_cons_head]

/-- A list cannot be a roster before and after a key has lost its entry. -/
theorem not_of_remove (h : Roster entry l) (hk : entry k = some x) :
    ¬ Roster (Function.update entry k none) l := by
  intro h'
  have hmem : x ∈ l := h.mem_iff.mpr ⟨k, hk⟩
  have hlen := (h'.perm (h.remove hk)).length_eq
  rw [length_erase_of_mem hmem] at hlen
  have := length_pos_of_mem hmem
  omega

end Roster

end PittCs.Lib
