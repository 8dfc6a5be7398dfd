import Mathlib.Data.List.Nodup

/-!
# Dictionaries in insertion order

A dictionary whose keys keep the order in which they were first set, as a list
of entries with distinct keys.
-/

namespace PittCs.Lib

open List

universe u v

variable {α : Type u} {β : Type v} [DecidableEq α]

/-- The entries with the value of `k` set, in its old place if it has one. -/
def setEntry (k : α) (v : β) : List (α × β) → List (α × β)
  | [] => [(k, v)]
  | e :: rest => if e.1 = k then (k, v) :: rest else e :: setEntry k v rest

theorem mem_keys_setEntry {k x : α} {v : β} {l : List (α × β)} :
    x ∈ (setEntry k v l).map Prod.fst ↔ x = k ∨ x ∈ l.map Prod.fst := by
  induction l with
  | nil => simp [setEntry]
  | cons e rest ih =>
    unfold setEntry
    by_cases he : e.1 = k
    · rw [if_pos he, map_cons, map_cons, mem_cons, mem_cons, he]
      constructor
      · rintro (hx | hx)
        · exact Or.inl hx
        · exact Or.inr (Or.inr hx)
      · rintro (hx | hx | hx)
        · exact Or.inl hx
        · exact Or.inl hx
        · exact Or.inr hx
    · rw [if_neg he, map_cons, map_cons, mem_cons, mem_cons, ih]
      exact or_left_comm

theorem nodup_setEntry {k : α} {v : β} {l : List (α × β)} (h : (l.map Prod.fst).Nodup) :
    ((setEntry k v l).map Prod.fst).Nodup := by
  induction l with
  | nil => simp [setEntry]
  | cons e rest ih =>
    rcases nodup_cons.mp h with ⟨hnot, hrest⟩
    unfold setEntry
    by_cases he : e.1 = k
    · rw [if_pos he]
      subst he
      exact h
    · rw [if_neg he]
      refine nodup_cons.mpr ⟨?_, ih hrest⟩
      intro hmem
      rcases mem_keys_setEntry.mp hmem with hk | hmem
      · exact he hk
      · exact hnot hmem

/-- A dictionary with keys of type `α`, in insertion order. -/
structure Dict (α : Type u) (β : Type v) where
  entries : List (α × β)
  nodup : (entries.map Prod.fst).Nodup
deriving DecidableEq

namespace Dict

def empty : Dict α β := ⟨[], nodup_nil⟩

def keys (d : Dict α β) : List α := d.entries.map Prod.fst

/-- `d.get(k)`. -/
def get? (d : Dict α β) (k : α) : Option β :=
  (d.entries.find? fun e => decide (e.1 = k)).map Prod.snd

/-- `d[k] = v`. -/
def set (d : Dict α β) (k : α) (v : β) : Dict α β :=
  ⟨setEntry k v d.entries, nodup_setEntry d.nodup⟩

variable {d : Dict α β} {k x : α} {v : β}

theorem mem_entries_iff : (k, v) ∈ d.entries ↔ d.get? k = some v := by
  unfold get?
  rcases d with ⟨l, hnodup⟩
  induction l with
  | nil => simp
  | cons e rest ih =>
    rcases nodup_cons.mp hnodup with ⟨hnot, hrest⟩
    by_cases he : e.1 = k
    · -- the key occurs nowhere else
      have hrest' : (k, v) ∉ rest := by
        intro hmem
        exact hnot (he ▸ mem_map_of_mem (f := Prod.fst) hmem)
      rw [mem_cons, find?_cons_of_pos (by simpa using he)]
      constructor
      · rintro (heq | hmem)
        · rw [← heq]
          rfl
        · exact absurd hmem hrest'
      · intro heq
        left
        injection heq with heq
        exact Prod.ext he.symm heq.symm
    · rw [mem_cons, find?_cons_of_neg (by simpa using he), ← ih hrest]
      constructor
      · rintro (heq | hmem)
        · exact absurd (congrArg Prod.fst heq).symm he
        · exact hmem
      · exact Or.inr

theorem mem_keys_iff : k ∈ d.keys ↔ ∃ v, d.get? k = some v := by
  unfold keys
  constructor
  · intro h
    rcases mem_map.mp h with ⟨⟨k', v⟩, hmem, rfl⟩
    exact ⟨v, mem_entries_iff.mp hmem⟩
  · rintro ⟨v, hv⟩
    exact mem_map_of_mem (f := Prod.fst) (mem_entries_iff.mpr hv)

theorem find?_setEntry (l : List (α × β)) :
    ((setEntry k v l).find? fun e => decide (e.1 = x)).map Prod.snd =
      if x = k then some v else (l.find? fun e => decide (e.1 = x)).map Prod.snd := by
  induction l with
  | nil =>
    by_cases hx : x = k
    · simp [setEntry, hx]
    · simp [setEntry, hx, Ne.symm hx]
  | cons e rest ih =>
    unfold setEntry
    by_cases he : e.1 = k
    · rw [if_pos he]
      by_cases hx : x = k
      · simp [hx]
      · have hkx : ¬ k = x := fun h => hx h.symm
        have hex : ¬ e.1 = x := fun h => hx (h.symm.trans he)
        simp [hx, hkx, hex]
    · rw [if_neg he]
      by_cases hex : e.1 = x
      · have hx : ¬ x = k := fun h => he (hex.trans h)
        simp [hex, hx]
      · rw [find?_cons_of_neg (by simpa using hex), ih,
          find?_cons_of_neg (by simpa using hex)]

theorem get?_set : (d.set k v).get? x = if x = k then some v else d.get? x :=
  find?_setEntry d.entries

@[simp]
theorem get?_set_self : (d.set k v).get? k = some v := by
  rw [get?_set, if_pos rfl]

theorem get?_set_of_ne (h : x ≠ k) : (d.set k v).get? x = d.get? x := by
  rw [get?_set, if_neg h]

/-- `del d[k]`. -/
def erase (d : Dict α β) (k : α) : Dict α β :=
  ⟨d.entries.filter fun e => decide (e.1 ≠ k), d.nodup.sublist (filter_sublist.map _)⟩

theorem get?_eq_none_iff : d.get? k = none ↔ ∀ e ∈ d.entries, e.1 ≠ k := by
  unfold get?
  rw [Option.map_eq_none_iff, find?_eq_none]
  simp only [decide_eq_true_eq]

theorem entries_erase_of_none (h : d.get? k = none) : (d.erase k).entries = d.entries := by
  refine filter_eq_self.mpr ?_
  intro e he
  exact decide_eq_true (get?_eq_none_iff.mp h e he)

theorem get?_erase_self : (d.erase k).get? k = none := by
  refine get?_eq_none_iff.mpr ?_
  intro e he
  exact of_decide_eq_true (mem_filter.mp he).2

theorem get?_erase_of_ne (h : x ≠ k) : (d.erase k).get? x = d.get? x := by
  refine Option.ext fun v => ?_
  rw [← mem_entries_iff, ← mem_entries_iff]
  unfold erase
  rw [mem_filter]
  exact and_iff_left (decide_eq_true h)

/-- The entry of a key that is there, and the others. -/
theorem entries_perm_of_get? (h : d.get? k = some v) :
    d.entries.Perm ((k, v) :: (d.erase k).entries) := by
  have hmem := mem_entries_iff.mpr h
  rcases append_of_mem hmem with ⟨pre, post, hsplit⟩
  have hnodup := d.nodup
  rw [hsplit, map_append, map_cons, nodup_append, nodup_cons] at hnodup
  have hpre : ∀ e ∈ pre, decide (e.1 ≠ k) = true := by
    intro e he
    exact decide_eq_true (hnodup.2.2 _ (mem_map_of_mem he) _ mem_cons_self)
  have hpost : ∀ e ∈ post, decide (e.1 ≠ k) = true := by
    intro e he
    refine decide_eq_true ?_
    intro heq
    have hkey : e.1 ∈ post.map Prod.fst := mem_map_of_mem he
    rw [heq] at hkey
    exact hnodup.2.1.1 hkey
  have herase : (d.erase k).entries = pre ++ post := by
    unfold erase
    dsimp only
    rw [hsplit, filter_append, filter_cons_of_neg (by simp),
      filter_eq_self.mpr hpre, filter_eq_self.mpr hpost]
  rw [herase, hsplit]
  exact perm_middle

theorem entries_set_perm : (d.set k v).entries.Perm ((k, v) :: (d.erase k).entries) := by
  have hset : (d.set k v).get? k = some v := get?_set_self
  have hperm := entries_perm_of_get? hset
  have hrest : ((d.set k v).erase k).entries.Perm (d.erase k).entries := by
    refine (perm_ext_iff_of_nodup ?_ ?_).mpr ?_
    · exact ((d.set k v).erase k).nodup.of_map _
    · exact (d.erase k).nodup.of_map _
    · rintro ⟨x, w⟩
      rw [mem_entries_iff, mem_entries_iff]
      by_cases hx : x = k
      · subst hx
        rw [get?_erase_self, get?_erase_self]
      · rw [get?_erase_of_ne hx, get?_erase_of_ne hx, get?_set_of_ne hx]
  exact hperm.trans (hrest.cons _)

end Dict

end PittCs.Lib
