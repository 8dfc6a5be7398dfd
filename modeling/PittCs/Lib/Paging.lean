import PittCs.Lib.Lru

/-!
# Demand paging

Pages are brought in when they are accessed and not before. A replacement policy is
any way to serve a trace of accesses with at most `n` resident pages; `Belady` evicts a
page whose next use is farthest, and no policy has fewer faults.

The proof carries a debt: how many more of the pages used soon the other policy may
have resident. Each unit of it was paid for by a fault of the other policy.
-/

namespace PittCs.Lib.Paging

open List

variable {α : Type} [DecidableEq α]

/-- An access to `p` is served with `n` frames: `p` is resident afterwards, and nothing
else was brought in. -/
structure Demand (n : Nat) (s : Finset α) (p : α) (s' : Finset α) : Prop where
  mem : p ∈ s'
  subset : s' ⊆ insert p s
  card : s'.card ≤ n

/-- Among the pages of `s`, none is used later in `σ` than `w`. -/
def Farthest (s : Finset α) (σ : List α) (w : α) : Prop :=
  w ∈ s ∧ ∀ y ∈ s, ∀ k, w ∈ σ.take k → y ∈ σ.take k

/-- An access to `p`, before the accesses `σ`, that evicts a farthest page. -/
def Belady (n : Nat) (s : Finset α) (p : α) (σ : List α) (s' : Finset α) : Prop :=
  if p ∈ s then s' = s
  else if s.card < n then s' = insert p s
  else ∃ w, Farthest s σ w ∧ s' = insert p (s.erase w)

/-- The cost of an access. -/
def fault (s : Finset α) (p : α) : Nat := if p ∈ s then 0 else 1

/-- From the resident set `s`, the trace is served by steps of `step` with so many
faults. A step sees the accesses that follow. -/
inductive Serves (step : Finset α → α → List α → Finset α → Prop) :
    Finset α → List α → Nat → Prop where
  | nil {s : Finset α} : Serves step s [] 0
  | cons {s s' : Finset α} {p : α} {σ : List α} {f : Nat} :
      step s p σ s' → Serves step s' σ f → Serves step s (p :: σ) (fault s p + f)

/-- Some demand paging policy serves the trace with so many faults. -/
abbrev Policy (n : Nat) : Finset α → List α → Nat → Prop :=
  Serves fun s p _ s' => Demand n s p s'

variable {n d : Nat} {s s' b b' : Finset α} {p w : α} {σ : List α}

theorem Belady.of_hit (hp : p ∈ s) : Belady n s p σ s := by
  unfold Belady
  rw [if_pos hp]

theorem Belady.of_room (hp : p ∉ s) (hs : s.card < n) : Belady n s p σ (insert p s) := by
  unfold Belady
  rw [if_neg hp, if_pos hs]

theorem Belady.of_full (hp : p ∉ s) (hs : ¬ s.card < n) (hw : Farthest s σ w) :
    Belady n s p σ (insert p (s.erase w)) := by
  unfold Belady
  rw [if_neg hp, if_neg hs]
  exact ⟨w, hw, rfl⟩

/-- How many pages of `s` are among the next `k` accesses. -/
def soon (s : Finset α) (σ : List α) (k : Nat) : Nat := (s.filter (· ∈ σ.take k)).card

/-- The debt: `b` has at most `d` more of the pages used soon, however soon is meant. -/
def Behind (d : Nat) (s b : Finset α) (σ : List α) : Prop :=
  ∀ k, soon b σ k ≤ soon s σ k + d

theorem soon_le_card (s : Finset α) (σ : List α) (k : Nat) : soon s σ k ≤ s.card :=
  Finset.card_filter_le _ _

theorem soon_mono (h : s ⊆ s') (σ : List α) (k : Nat) : soon s σ k ≤ soon s' σ k :=
  Finset.card_le_card (Finset.filter_subset_filter _ h)

/-- With the page accessed now the count is one more than without. -/
theorem soon_insert (h : p ∉ s) (σ : List α) (k : Nat) :
    soon (insert p s) σ k = soon s σ k + if p ∈ σ.take k then 1 else 0 := by
  unfold soon
  rw [Finset.filter_insert]
  split
  · exact Finset.card_insert_of_notMem fun hin => h (Finset.mem_filter.mp hin).1
  · rfl

theorem soon_erase (h : w ∈ s) (σ : List α) (k : Nat) :
    soon s σ k = soon (s.erase w) σ k + if w ∈ σ.take k then 1 else 0 := by
  conv_lhs => rw [← Finset.insert_erase h]
  exact soon_insert (Finset.notMem_erase w s) σ k

/-- Before the access to `p` it is the first of the accesses to come. -/
theorem soon_cons (s : Finset α) (p : α) (σ : List α) (k : Nat) :
    soon s (p :: σ) (k + 1) = soon (s.erase p) σ k + if p ∈ s then 1 else 0 := by
  have hother : soon (s.erase p) (p :: σ) (k + 1) = soon (s.erase p) σ k := by
    unfold soon
    congr 1
    refine Finset.filter_congr fun x hx => ?_
    rw [take_succ_cons, mem_cons, or_iff_right (Finset.ne_of_mem_erase hx)]
  split
  case isTrue h =>
    rw [soon_erase h, hother, if_pos]
    rw [take_succ_cons]
    exact mem_cons_self
  case isFalse h =>
    rw [Finset.erase_eq_of_notMem h] at hother ⊢
    exact hother

/-- Not all `n` frames hold pages used soon, unless the page accessed now is one. -/
theorem Demand.soon_le (h : Demand n b p b') (σ : List α) (k : Nat) :
    soon b' σ k + 1 ≤ n + if p ∈ σ.take k then 1 else 0 := by
  rw [soon_erase h.mem]
  have hle := soon_le_card (b'.erase p) σ k
  have hcard := Finset.card_erase_add_one h.mem
  have hn := h.card
  omega

/-- What the access changes for a policy. -/
theorem Demand.soon_step (h : Demand n b p b') (σ : List α) (k : Nat) :
    soon b' σ k + (if p ∈ b then 1 else 0) ≤
      soon b (p :: σ) (k + 1) + if p ∈ σ.take k then 1 else 0 := by
  have hsub : b'.erase p ⊆ b.erase p := by
    intro x hx
    obtain ⟨hne, hx⟩ := Finset.mem_erase.mp hx
    exact Finset.mem_erase.mpr ⟨hne, (Finset.mem_insert.mp (h.subset hx)).resolve_left hne⟩
  have hmono := soon_mono hsub σ k
  rw [soon_cons, soon_erase h.mem]
  omega

/-- If a farthest page is used soon, then all resident pages are. -/
theorem Farthest.soon_eq (h : Farthest s σ w) {k : Nat} (hk : w ∈ σ.take k) :
    soon s σ k = s.card := by
  unfold soon
  rw [Finset.filter_true_of_mem]
  intro y hy
  exact h.2 y hy k hk

/-- One access: the debt grows only with a fault of the other policy, and shrinks with a
fault of this one. -/
theorem Belady.step (h : Belady n s p σ s') (hb : Demand n b p b')
    (hd : Behind d s b (p :: σ)) :
    ∃ d', Behind d' s' b' σ ∧ fault s p + d' ≤ fault b p + d := by
  unfold Belady at h
  unfold fault
  by_cases hp : p ∈ s
  · -- a hit: the other policy may have to bring in what is here already
    rw [if_pos hp] at h
    rw [h]
    refine ⟨d + if p ∈ b then 0 else 1, ?_, ?_⟩
    · intro k
      have hk := hd (k + 1)
      have hstep := hb.soon_step σ k
      rw [soon_cons s, if_pos hp] at hk
      have hs := soon_erase hp σ k
      split_ifs at hstep hs ⊢ <;> omega
    · rw [if_pos hp]
      split_ifs <;> omega
  rw [if_neg hp] at h ⊢
  -- a fault: if the other policy has the page, then it was ahead
  have hpaid : (if p ∈ b then 1 else 0) ≤ d := by
    have h1 := hd 1
    rw [soon_cons, soon_cons, if_neg hp] at h1
    have h0 : soon (s.erase p) σ 0 = 0 := by
      unfold soon
      rw [take_zero, Finset.filter_false_of_mem fun _ _ => not_mem_nil]
      rfl
    omega
  refine ⟨d - if p ∈ b then 1 else 0, ?_, by split_ifs at hpaid ⊢ <;> omega⟩
  intro k
  have hk := hd (k + 1)
  rw [soon_cons s, if_neg hp, Finset.erase_eq_of_notMem hp] at hk
  have hstep := hb.soon_step σ k
  split at h
  · subst h
    rw [soon_insert hp]
    omega
  · obtain ⟨w, hw, rfl⟩ := h
    have hpw : p ∉ s.erase w := fun hin => hp (Finset.mem_of_mem_erase hin)
    have hs := soon_erase hw.1 σ k
    rw [soon_insert hpw]
    by_cases hsoon : w ∈ σ.take k
    · -- everything resident is used soon: the other policy cannot have more
      have hfull := hw.soon_eq hsoon
      have hle := hb.soon_le σ k
      rw [if_pos hsoon] at hs
      omega
    · rw [if_neg hsoon] at hs
      omega

theorem Belady.debt {f g : Nat} (h : Serves (Belady n) s σ f) (hb : Policy n b σ g)
    (hd : Behind d s b σ) : f ≤ g + d := by
  induction h generalizing b d g with
  | nil => exact Nat.zero_le _
  | cons hstep _ ih =>
    cases hb with
    | cons hdemand hrest =>
      obtain ⟨d', hd', hcost⟩ := hstep.step hdemand hd
      have hle := ih hrest hd'
      omega

/-- No policy has fewer faults than one that evicts the farthest page. -/
theorem Belady.optimal {f g : Nat} (h : Serves (Belady n) s σ f) (hb : Policy n s σ g) :
    f ≤ g :=
  Belady.debt (d := 0) h hb fun _ => Nat.le_refl _

/-! ## The least recently used page -/

/-- The faults of an access sequence when the least recently used page is evicted. -/
def lruFaults (n : Nat) : List α → List α → Nat
  | _, [] => 0
  | l, p :: σ => (if p ∈ l then 0 else 1) + lruFaults n (Lru.access n l p).1 σ

theorem length_access_le {l : List α} (hn : 0 < n) (h : l.length ≤ n) (p : α) :
    (Lru.access n l p).1.length ≤ n := by
  unfold Lru.access
  split
  case isTrue hp =>
    have hpos := length_pos_of_mem hp
    rw [length_cons, length_erase_of_mem hp]
    omega
  · split
    · rw [length_cons]
      omega
    · rw [length_cons, length_dropLast]
      omega

theorem demand_access {l : List α} (hn : 0 < n) (hl : l.length ≤ n) (hnodup : l.Nodup) (p : α) :
    Demand n l.toFinset p (Lru.access n l p).1.toFinset := by
  refine ⟨?_, ?_, ?_⟩
  · unfold Lru.access
    split_ifs <;> exact List.mem_toFinset.mpr mem_cons_self
  · intro x hx
    rw [List.mem_toFinset] at hx
    rw [Finset.mem_insert, List.mem_toFinset]
    unfold Lru.access at hx
    split_ifs at hx
    · exact (mem_cons.mp hx).imp_right mem_of_mem_erase
    · exact mem_cons.mp hx
    · exact (mem_cons.mp hx).imp_right mem_of_mem_dropLast
  · rw [toFinset_card_of_nodup (Lru.nodup_access n p hnodup)]
    exact length_access_le hn hl p

/-- Evicting the least recently used page is a demand paging policy. -/
theorem policy_lruFaults {l : List α} (hn : 0 < n) (hl : l.length ≤ n) (hnodup : l.Nodup)
    (σ : List α) : Policy n l.toFinset σ (lruFaults n l σ) := by
  induction σ generalizing l with
  | nil => exact .nil
  | cons p σ ih =>
    have hrest := ih (length_access_le hn hl p) (Lru.nodup_access n p hnodup)
    have h : Serves (fun s p _ s' => Demand n s p s') l.toFinset (p :: σ)
        (fault l.toFinset p + lruFaults n (Lru.access n l p).1 σ) :=
      .cons (demand_access hn hl hnodup p) hrest
    unfold fault at h
    simp only [List.mem_toFinset] at h
    exact h

end PittCs.Lib.Paging
