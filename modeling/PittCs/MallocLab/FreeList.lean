import Mathlib.Order.Interval.Finset.Nat
import PittCs.MallocLab.Blocks

/-!
# The free list

`insert_block` puts a free block in front of the list, `remove_block` takes any block
out, and `find_fit` returns the smallest block of the list that is large enough. The
first two write only links of free blocks.
-/

namespace PittCs.MallocLab

open PittCs.Lib Function List

variable {h : Heap} {bs : List Block} {fl xs ys : List Nat} {a : Nat} {b : Block}

namespace Heap.Shape

/-- Blocks are two words apart from each other, so a link of one is not the other link of
another. -/
theorem mod_of_mem (hs : h.Shape bs fl) (ha : a ∈ fl) : a % 16 = 8 ∧ a ≠ 0 := by
  obtain ⟨b, hb, -⟩ := hs.free a ha
  exact ⟨(hs.bounds hb).2.2.1, hs.links.ne_null ha⟩

theorem freeListHead_mem (hs : h.Shape bs fl) (hne : h.freeListHead ≠ 0) :
    h.freeListHead ∈ fl := by
  have heq := hs.links.eq_headD
  cases fl with
  | nil => exact absurd heq hne
  | cons a l => rw [heq]; exact mem_cons_self

end Heap.Shape

theorem insertBlock_mem (h : Heap) (a c : Nat) : (h.insertBlock a).mem c =
    if h.freeListHead ≠ 0 ∧ c = h.freeListHead + 8 then a
    else if c = a + 8 then 0
    else if c = a + 16 then h.freeListHead
    else h.mem c := by
  unfold Heap.insertBlock
  by_cases hz : h.freeListHead = 0
  · simp [hz, Heap.setPrev, Heap.setNext, Heap.write, update_apply]
  · simp [hz, Heap.setPrev, Heap.setNext, Heap.write, update_apply]

/-- `insert_block` changes the memory and the head of the list. -/
theorem insertBlock_eq (h : Heap) (a : Nat) :
    h.insertBlock a = { h with mem := (h.insertBlock a).mem, freeListHead := a } := by
  unfold Heap.insertBlock
  split <;> rfl

theorem relinks_insertBlock (hs : h.Shape bs fl) (hb : (a, b) ∈ h.layout bs)
    (hal : b.alloc = false) : Relinks h (h.insertBlock a) bs := by
  refine ⟨?_, ?_, ?_, fun c hc => ?_⟩
  · rw [insertBlock_eq]
    exact hs.toArena.congr _ _
  · rw [insertBlock_eq]
  · rw [insertBlock_eq]
  · rw [insertBlock_mem] at hc
    split_ifs at hc with h₁ h₂ h₃
    · obtain ⟨b', hb', hal'⟩ := hs.free _ (hs.freeListHead_mem h₁.1)
      exact ⟨_, hb', hal', .inl h₁.2⟩
    · exact ⟨_, hb, hal, .inl h₂⟩
    · exact ⟨_, hb, hal, .inr h₃⟩
    · exact absurd rfl hc

/-- `insert_block`: the block becomes the first of the free list. -/
theorem shape_insertBlock (hs : h.Shape bs fl) (hb : (a, b) ∈ h.layout bs)
    (hal : b.alloc = false) (hnot : a ∉ fl) : (h.insertBlock a).Shape bs (a :: fl) := by
  have hmod : a % 16 = 8 := (hs.bounds hb).2.2.1
  have hhead : h.freeListHead ≠ 0 → h.freeListHead % 16 = 8 ∧ h.freeListHead ≠ a := fun hne =>
    ⟨(hs.mod_of_mem (hs.freeListHead_mem hne)).1, fun heq => hnot (heq ▸ hs.freeListHead_mem hne)⟩
  refine (relinks_insertBlock hs hb hal).shape hs ?_ ?_ (nodup_cons.mpr ⟨hnot, hs.nodup⟩)
  · show Chain 0 _ _ 0 a (a :: fl)
    refine hs.links.insert (by omega) hs.nodup ?_ ?_ (fun c hc => ?_) (fun c hc => ?_)
    · rw [Heap.prev, insertBlock_mem, if_neg, if_pos rfl]
      rintro ⟨hne, heq⟩
      have := hhead hne
      omega
    · rw [Heap.next, insertBlock_mem, if_neg, if_neg (by omega), if_pos rfl]
      rintro ⟨hne, heq⟩
      have := hhead hne
      omega
    · obtain ⟨hcm, hc0⟩ := hs.mod_of_mem hc
      have hca : c ≠ a := fun heq => hnot (heq ▸ hc)
      rw [Heap.prev, insertBlock_mem]
      by_cases heq : c = h.freeListHead
      · rw [if_pos ⟨heq ▸ hc0, by rw [heq]⟩, if_pos heq]
      · rw [if_neg (by omega), if_neg (by omega), if_neg (by omega), if_neg heq]
        rfl
    · obtain ⟨hcm, hc0⟩ := hs.mod_of_mem hc
      have hca : c ≠ a := fun heq => hnot (heq ▸ hc)
      rw [Heap.next, insertBlock_mem, if_neg, if_neg (by omega), if_neg (by omega)]
      · rfl
      · rintro ⟨hne, heq⟩
        have := hhead hne
        omega
  · intro c hc
    rcases mem_cons.mp hc with rfl | hc
    · exact ⟨b, hb, hal⟩
    · exact hs.free c hc

theorem removeBlock_mem (h : Heap) (ha : a ≠ 0) (c : Nat) : (h.removeBlock a).mem c =
    if h.next a ≠ 0 ∧ c = h.next a + 8 then h.prev a
    else if h.prev a ≠ 0 ∧ c = h.prev a + 16 then h.next a
    else h.mem c := by
  unfold Heap.removeBlock
  by_cases hp : h.prev a = 0 <;> by_cases hn : h.next a = 0 <;>
    simp [ha, hp, hn, Heap.setPrev, Heap.setNext, Heap.write, update_apply]

theorem removeBlock_head (h : Heap) (ha : a ≠ 0) : (h.removeBlock a).freeListHead =
    if h.prev a = 0 then h.next a else h.freeListHead := by
  unfold Heap.removeBlock
  by_cases hp : h.prev a = 0 <;> by_cases hn : h.next a = 0 <;>
    simp [ha, hp, hn, Heap.setPrev, Heap.setNext, Heap.write]

theorem removeBlock_arena (ha : h.Arena) (a : Nat) : (h.removeBlock a).Arena := by
  unfold Heap.removeBlock
  split
  · exact ha
  · dsimp only
    split_ifs <;> exact ha.congr _ _

/-- The links of a block of the list lead to other blocks of the list. -/
theorem Heap.Shape.links_mem (hs : h.Shape bs (xs ++ a :: ys)) :
    (h.prev a ≠ 0 → h.prev a ∈ xs) ∧ (h.next a ≠ 0 → h.next a ∈ ys) := by
  obtain ⟨hp, hn⟩ := hs.links.links_of_mem
  refine ⟨fun hne => ?_, fun hne => ?_⟩
  · have hmem : xs.getLastD 0 ∈ 0 :: xs := getLastD_mem_cons
    rw [hp] at hne ⊢
    exact (mem_cons.mp hmem).resolve_left hne
  · rw [hn] at hne ⊢
    cases ys with
    | nil => exact absurd rfl hne
    | cons y ys => exact mem_cons_self

theorem relinks_removeBlock (hs : h.Shape bs (xs ++ a :: ys)) : Relinks h (h.removeBlock a) bs := by
  have ha0 : a ≠ 0 := hs.links.ne_null (by simp)
  obtain ⟨hprev, hnext⟩ := hs.links_mem
  refine ⟨removeBlock_arena hs.toArena a, ?_, ?_, fun c hc => ?_⟩
  · unfold Heap.removeBlock
    dsimp only
    split_ifs <;> rfl
  · unfold Heap.removeBlock
    dsimp only
    split_ifs <;> rfl
  · rw [removeBlock_mem h ha0] at hc
    split_ifs at hc with h₁ h₂
    · obtain ⟨b, hb, hal⟩ := hs.free (h.next a) (by simp [hnext h₁.1])
      exact ⟨_, hb, hal, .inl h₁.2⟩
    · obtain ⟨b, hb, hal⟩ := hs.free (h.prev a) (by simp [hprev h₂.1])
      exact ⟨_, hb, hal, .inr h₂.2⟩
    · exact absurd rfl hc

/-- `remove_block`: the block leaves the free list. -/
theorem shape_removeBlock (hs : h.Shape bs (xs ++ a :: ys)) :
    (h.removeBlock a).Shape bs (xs ++ ys) := by
  have ha0 : a ≠ 0 := hs.links.ne_null (by simp)
  obtain ⟨hprev, hnext⟩ := hs.links_mem
  have hmem : ∀ c ∈ xs ++ ys, c ∈ xs ++ a :: ys := by
    intro c hc
    rcases mem_append.mp hc with hc | hc <;> simp [hc]
  have hpm : h.prev a ≠ 0 → h.prev a % 16 = 8 := fun hne =>
    (hs.mod_of_mem (by simp [hprev hne])).1
  have hnm : h.next a ≠ 0 → h.next a % 16 = 8 := fun hne =>
    (hs.mod_of_mem (by simp [hnext hne])).1
  refine (relinks_removeBlock hs).shape hs ?_ (fun c hc => hs.free c (hmem c hc))
    (hs.nodup.sublist (List.Sublist.append_left (sublist_cons_self a ys) xs))
  rw [removeBlock_head h ha0]
  refine hs.links.remove hs.nodup (fun h0 => hs.links.ne_null h0 rfl) (fun c hc => ?_) fun c hc => ?_
  · obtain ⟨hcm, hc0⟩ := hs.mod_of_mem (hmem c hc)
    rw [Heap.prev, removeBlock_mem h ha0]
    by_cases heq : c = h.next a
    · rw [if_pos ⟨heq ▸ hc0, by rw [heq]⟩, if_pos heq]
    · rw [if_neg (by omega), if_neg, if_neg heq]
      · rfl
      · rintro ⟨hne, heq⟩
        have := hpm hne
        omega
  · obtain ⟨hcm, hc0⟩ := hs.mod_of_mem (hmem c hc)
    rw [Heap.next, removeBlock_mem h ha0, if_neg]
    · by_cases heq : c = h.prev a
      · rw [if_pos ⟨heq ▸ hc0, by rw [heq]⟩, if_pos heq]
      · rw [if_neg (by omega), if_neg heq]
        rfl
    · rintro ⟨hne, heq⟩
      have := hnm hne
      omega

/-! ## Best fit -/

/-- The variables of the loop of `find_fit` after the blocks `seen`: no block was large
enough, or the smallest such block is held. -/
structure Fit.Best (h : Heap) (asize : Nat) (f : Heap.Fit) (seen : List Nat) : Prop where
  none : f.first = true → f.bestFit = 0 ∧ ∀ a ∈ seen, h.getSize a < asize
  some : f.first = false → f.bestFit ∈ seen ∧ f.bestSize = h.getSize f.bestFit ∧
    asize ≤ f.bestSize ∧ ∀ a ∈ seen, asize ≤ h.getSize a → f.bestSize ≤ h.getSize a

theorem Fit.Best.skip {asize : Nat} {f : Heap.Fit} {seen : List Nat}
    (hf : Fit.Best h asize f seen) (ha : h.getSize a < asize) : Fit.Best h asize f (a :: seen) := by
  refine ⟨fun hfirst => ?_, fun hfirst => ?_⟩
  · obtain ⟨hz, hall⟩ := hf.none hfirst
    exact ⟨hz, forall_mem_cons.mpr ⟨ha, hall⟩⟩
  · obtain ⟨hmem, hsize, hle, hall⟩ := hf.some hfirst
    exact ⟨mem_cons_of_mem a hmem, hsize, hle,
      forall_mem_cons.mpr ⟨fun hle' => by omega, hall⟩⟩

/-- The block just seen is the smallest so far. -/
theorem Fit.best_cons {asize : Nat} {seen : List Nat} (ha : asize ≤ h.getSize a)
    (hall : ∀ c ∈ seen, asize ≤ h.getSize c → h.getSize a ≤ h.getSize c) :
    Fit.Best h asize ⟨false, a, h.getSize a⟩ (a :: seen) where
  none := nofun
  some := fun _ => ⟨mem_cons_self, rfl, ha,
    forall_mem_cons.mpr ⟨fun _ => le_refl _, hall⟩⟩

theorem Fit.Best.consider {asize : Nat} {f : Heap.Fit} {seen : List Nat}
    (hf : Fit.Best h asize f seen) (ha : asize ≤ h.getSize a) :
    Fit.Best h asize (f.consider a (h.getSize a)) (a :: seen) := by
  cases hfirst : f.first with
  | true =>
    -- the first block that fits
    have heq : f.consider a (h.getSize a) = ⟨false, a, h.getSize a⟩ := by
      simp [Heap.Fit.consider, hfirst]
    rw [heq]
    refine Fit.best_cons ha fun c hc hle => ?_
    have := (hf.none hfirst).2 c hc
    omega
  | false =>
    obtain ⟨hmem, hsize, hle, hall⟩ := hf.some hfirst
    by_cases hlt : h.getSize a < f.bestSize
    · have heq : f.consider a (h.getSize a) = ⟨false, a, h.getSize a⟩ := by
        simp [Heap.Fit.consider, hfirst, hlt]
      rw [heq]
      refine Fit.best_cons ha fun c hc hle' => ?_
      have := hall c hc hle'
      omega
    · have heq : f.consider a (h.getSize a) = f := by
        simp [Heap.Fit.consider, hfirst, hlt]
      rw [heq]
      refine ⟨fun hcontra => by simp [hfirst] at hcontra, fun _ => ?_⟩
      exact ⟨mem_cons_of_mem a hmem, hsize, hle,
        forall_mem_cons.mpr ⟨fun _ => by omega, hall⟩⟩

/-- The loop of `find_fit` reaches the end of the list. -/
theorem findFitLoop_spec {asize p : Nat} {l seen : List Nat} (hl : ∀ a ∈ l, h.isFree a = true)
    {fuel : Nat} {f : Heap.Fit} {curr : Nat} (hc : Chain 0 h.prev h.next p curr l)
    (hfuel : l.length < fuel) (hf : Fit.Best h asize f seen) :
    ∃ f', h.findFitLoop asize fuel f curr = some f'.bestFit ∧
      Fit.Best h asize f' (l.reverse ++ seen) := by
  induction l generalizing fuel f curr p seen with
  | nil =>
    obtain ⟨fuel, rfl⟩ := Nat.exists_eq_succ_of_ne_zero (Nat.ne_of_gt (Nat.zero_lt_of_lt hfuel))
    have hc0 : curr = 0 := hc
    exact ⟨f, by simp [Heap.findFitLoop, hc0], hf⟩
  | cons a l ih =>
    obtain ⟨fuel, rfl⟩ := Nat.exists_eq_succ_of_ne_zero (Nat.ne_of_gt (Nat.zero_lt_of_lt hfuel))
    obtain ⟨rfl, ha0, -, hc'⟩ := hc
    have hrest : ∀ a ∈ l, h.isFree a = true := fun a ha => hl a (mem_cons_of_mem _ ha)
    have hlen : l.length < fuel := by
      rw [length_cons] at hfuel
      omega
    have hloop : h.findFitLoop asize (fuel + 1) f curr =
        h.findFitLoop asize fuel
          (if asize ≤ h.getSize curr then f.consider curr (h.getSize curr) else f)
          (h.next curr) := by
      rw [Heap.findFitLoop, if_neg ha0]
      simp [hl curr mem_cons_self]
    rw [hloop, reverse_cons, append_assoc]
    refine ih hrest hc' hlen ?_
    split
    · exact hf.consider ‹_›
    · exact hf.skip (by omega)

/-- The free list is shorter than the heap. -/
theorem Heap.Shape.length_lt (hs : h.Shape bs fl) : fl.length < h.memBrk - h.memStartBrk := by
  have hsub : fl.toFinset ⊆ Finset.Ico h.heapStart h.memBrk := by
    intro a ha
    obtain ⟨b, hb, -⟩ := hs.free a (List.mem_toFinset.mp ha)
    have hbd := hs.bounds hb
    have hlarge := b.large
    rw [Finset.mem_Ico]
    dsimp only at hbd
    omega
  have hcard := Finset.card_le_card hsub
  rw [toFinset_card_of_nodup hs.nodup, Nat.card_Ico] at hcard
  have hstart := hs.start
  have hbrk := hs.memBrk
  omega

theorem Heap.Shape.isFree_of_mem (hs : h.Shape bs fl) (ha : a ∈ fl) : h.isFree a = true := by
  obtain ⟨b, hb, hal⟩ := hs.free a ha
  have := hs.getAlloc hb
  simp [Heap.isFree, this, hal]

/-- `find_fit` returns a smallest block of the free list that is large enough, or `NULL`. -/
theorem findFit_spec (hs : h.Shape bs fl) (asize : Nat) : ∃ r, h.findFit asize = some r ∧
    ((r = 0 ∧ ∀ a ∈ fl, h.getSize a < asize) ∨
      (r ∈ fl ∧ asize ≤ h.getSize r ∧ ∀ a ∈ fl, asize ≤ h.getSize a → h.getSize r ≤ h.getSize a)) := by
  unfold Heap.findFit
  split
  · rename_i hhead
    have hnil : fl = [] := by
      cases fl with
      | nil => rfl
      | cons a l =>
        have ha := hs.links.1
        exact absurd (ha.symm.trans hhead) (hs.links.ne_null mem_cons_self)
    exact ⟨0, rfl, .inl ⟨rfl, by simp [hnil]⟩⟩
  · have hstart : Fit.Best h asize ⟨true, 0, 0⟩ [] :=
      ⟨fun _ => ⟨rfl, by simp⟩, nofun⟩
    obtain ⟨f, hloop, hf⟩ := findFitLoop_spec (fun a ha => hs.isFree_of_mem ha) hs.links
      hs.length_lt hstart
    rw [append_nil] at hf
    refine ⟨f.bestFit, hloop, ?_⟩
    cases hfirst : f.first with
    | true =>
      obtain ⟨hz, hall⟩ := hf.none hfirst
      exact .inl ⟨hz, fun a ha => hall a (mem_reverse.mpr ha)⟩
    | false =>
      obtain ⟨hmem, hsize, hle, hall⟩ := hf.some hfirst
      rw [hsize] at hle hall
      exact .inr ⟨mem_reverse.mp hmem, hle, fun a ha => hall a (mem_reverse.mpr ha)⟩

end PittCs.MallocLab
