import Mathlib.Data.Finset.Card

/-!
# Least recently used

A set of keys of bounded size as a list, the most recently used key first, and the
same set as entries that carry the time of their last use. The entries may lie in
any order; `Stamped` says that their times put them in the order of the list.
-/

namespace PittCs.Lib.Lru

open List

variable {α : Type}

/-- What an access finds. -/
inductive Outcome where
  | hit
  | miss
  | eviction
deriving DecidableEq

/-- An access to a key. In a full set the key that was not used for longest makes
room. -/
def access [DecidableEq α] (capacity : Nat) (l : List α) (a : α) : List α × Outcome :=
  if a ∈ l then (a :: l.erase a, .hit)
  else if l.length < capacity then (a :: l, .miss)
  else (a :: l.dropLast, .eviction)

/-- The keys of the entries in the order of their times, the latest first. -/
def Stamped (l : List α) (entries : List (α × Nat)) : Prop :=
  ∃ p : List (α × Nat), p.Perm entries ∧ (p.Pairwise fun x y => y.2 < x.2) ∧ p.map Prod.fst = l

variable {l : List α} {entries rest : List (α × Nat)} {a : α} {n : Nat}

theorem stamped_nil : Stamped ([] : List α) [] := ⟨[], .refl _, .nil, rfl⟩

theorem Stamped.congr {entries' : List (α × Nat)} (h : Stamped l entries)
    (hperm : entries.Perm entries') : Stamped l entries' := by
  rcases h with ⟨p, hp, hsorted, hkeys⟩
  exact ⟨p, hp.trans hperm, hsorted, hkeys⟩

theorem Stamped.length_eq (h : Stamped l entries) : l.length = entries.length := by
  rcases h with ⟨p, hp, -, rfl⟩
  rw [length_map, hp.length_eq]

theorem Stamped.mem_iff (h : Stamped l entries) : a ∈ l ↔ ∃ e ∈ entries, e.1 = a := by
  rcases h with ⟨p, hp, -, rfl⟩
  rw [mem_map]
  refine exists_congr fun e => and_congr_left fun _ => hp.mem_iff

/-- No two entries have the same time. -/
theorem Stamped.nodup_times (h : Stamped l entries) : (entries.map Prod.snd).Nodup := by
  rcases h with ⟨p, hp, hsorted, -⟩
  rw [← (hp.map Prod.snd).nodup_iff]
  refine pairwise_map.mpr (hsorted.imp ?_)
  intro x y hlt heq
  omega

/-- A key is used at a time after all others. -/
theorem Stamped.push (h : Stamped l entries) (hn : ∀ e ∈ entries, e.2 < n) :
    Stamped (a :: l) ((a, n) :: entries) := by
  rcases h with ⟨p, hp, hsorted, rfl⟩
  refine ⟨(a, n) :: p, hp.cons _, pairwise_cons.mpr ⟨?_, hsorted⟩, rfl⟩
  intro e he
  exact hn e (hp.mem_iff.mp he)

/-- An entry is taken out. -/
theorem Stamped.erase [DecidableEq α] (h : Stamped l ((a, n) :: rest)) (hnodup : l.Nodup) :
    Stamped (l.erase a) rest := by
  rcases h with ⟨p, hp, hsorted, rfl⟩
  have hmem : (a, n) ∈ p := hp.mem_iff.mpr mem_cons_self
  rcases append_of_mem hmem with ⟨front, back, rfl⟩
  refine ⟨front ++ back, ?_, ?_, ?_⟩
  · exact (perm_middle.symm.trans hp).cons_inv
  · exact hsorted.sublist (List.Sublist.append_left (sublist_cons_self _ _) _)
  · -- no other entry has the key
    rw [map_append, map_cons] at hnodup
    have hfront : a ∉ front.map Prod.fst := by
      intro hin
      exact (nodup_append.mp hnodup).2.2 a hin a mem_cons_self rfl
    rw [map_append, map_append, map_cons, erase_append_right _ hfront,
      erase_cons_head]

/-- The entry with the least time is the last key of the list. -/
theorem Stamped.dropLast (h : Stamped l ((a, n) :: rest)) (hn : ∀ e ∈ rest, n < e.2) :
    Stamped l.dropLast rest ∧ l = l.dropLast ++ [a] := by
  rcases h with ⟨p, hp, hsorted, rfl⟩
  have hmem : (a, n) ∈ p := hp.mem_iff.mpr mem_cons_self
  rcases append_of_mem hmem with ⟨front, back, rfl⟩
  have hrest := (perm_middle.symm.trans hp).cons_inv
  -- nothing can be behind it
  have hback : back = [] := by
    cases back with
    | nil => rfl
    | cons e back =>
      have hlater := (pairwise_cons.mp (pairwise_append.mp hsorted).2.1).1 e
        mem_cons_self
      have hearlier := hn e (hrest.mem_iff.mp (mem_append_right _ mem_cons_self))
      dsimp only at hlater
      omega
  subst hback
  rw [append_nil] at hrest
  rw [map_append, map_cons, map_nil, dropLast_concat]
  exact ⟨⟨front, hrest, (pairwise_append.mp hsorted).1, rfl⟩, rfl⟩

theorem nodup_access [DecidableEq α] (capacity : Nat) (a : α) (h : l.Nodup) :
    (access capacity l a).1.Nodup := by
  unfold access
  by_cases hmem : a ∈ l
  · rw [if_pos hmem]
    exact nodup_cons.mpr ⟨h.not_mem_erase, h.erase a⟩
  rw [if_neg hmem]
  split
  · exact nodup_cons.mpr ⟨hmem, h⟩
  · exact nodup_cons.mpr ⟨fun hin => hmem ((dropLast_sublist l).subset hin),
      h.sublist (dropLast_sublist l)⟩

/-! ## The order of the last uses -/

/-- The keys of a sequence of accesses, the most recently used first. -/
def recent [DecidableEq α] (trace : List α) : List α := trace.foldl (fun l a => a :: l.erase a) []

theorem recent_concat [DecidableEq α] (trace : List α) (a : α) :
    recent (trace ++ [a]) = a :: (recent trace).erase a := by
  unfold recent
  rw [foldl_append]
  rfl

theorem nodup_recent [DecidableEq α] (trace : List α) : (recent trace).Nodup := by
  induction trace using List.reverseRecOn with
  | nil => exact .nil
  | append_singleton trace a ih =>
    rw [recent_concat]
    exact nodup_cons.mpr ⟨ih.not_mem_erase, ih.erase a⟩

/-- The set holds the keys that were used most recently, as many as it can. -/
theorem access_take [DecidableEq α] (hn : 0 < n) (hl : l.Nodup) (a : α) :
    (access n (l.take n) a).1 = (a :: l.erase a).take n := by
  obtain ⟨m, rfl⟩ : ∃ m, n = m + 1 := ⟨n - 1, by omega⟩
  rw [take_succ_cons]
  unfold access
  by_cases hmem : a ∈ l.take (m + 1)
  · -- the key is among the first ones: those behind it move up
    rw [if_pos hmem]
    obtain ⟨xs, ys, rfl⟩ := append_of_mem (mem_of_mem_take hmem)
    have hxs : a ∉ xs := fun hin => (nodup_append.mp hl).2.2 a hin a mem_cons_self rfl
    have hlen : xs.length ≤ m := by
      by_contra hlt
      rw [take_append_of_le_length (by omega)] at hmem
      exact hxs (mem_of_mem_take hmem)
    have hcut : m + 1 - xs.length = (m - xs.length) + 1 := by omega
    rw [take_append, take_of_length_le (by omega), hcut, take_succ_cons,
      erase_append_right _ hxs, erase_cons_head, erase_append_right _ hxs,
      erase_cons_head, take_append, take_of_length_le hlen]
  rw [if_neg hmem]
  split
  case isTrue hlt =>
    -- there is room, so the set holds every key
    rw [length_take] at hlt
    rw [take_of_length_le (by omega)] at hmem ⊢
    rw [erase_of_not_mem hmem, take_of_length_le (by omega)]
  case isFalse hlt =>
    rw [length_take] at hlt
    have hdrop : (l.take (m + 1)).dropLast = l.take m := by
      rw [dropLast_eq_take, length_take, take_take]
      congr 1
      omega
    rw [hdrop]
    -- the key lies behind those that stay
    have hsplit : l = l.take (m + 1) ++ l.drop (m + 1) := (take_append_drop _ _).symm
    have herase : l.erase a = l.take (m + 1) ++ (l.drop (m + 1)).erase a := by
      conv_lhs => rw [hsplit]
      exact erase_append_right _ hmem
    rw [herase, take_append_of_le_length (by rw [length_take]; omega), take_take,
      Nat.min_eq_left (Nat.le_succ m)]

end PittCs.Lib.Lru
