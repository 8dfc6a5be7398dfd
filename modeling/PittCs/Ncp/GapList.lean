import Mathlib.Data.List.Basic

/-!
# The gap list of the receiver

The sequence numbers that are missing below the greatest one received, as a list
of intervals in order. The linked list of the source is a list here.
-/

namespace PittCs.Ncp

open List

/-- `start` is inclusive, `stop` is not. -/
structure Gap where
  start : Int
  stop : Int
deriving DecidableEq

structure GapList where
  nodes : List Gap
  size : Int
deriving DecidableEq

/-- A gap is dropped when nothing of it is left. -/
def Gap.keep (g : Gap) : List Gap := if g.start ≥ g.stop then [] else [g]

/-- What is left of a gap without a point of it. -/
def Gap.split (g : Gap) (splitPoint : Int) : List Gap :=
  if splitPoint = g.start then Gap.keep ⟨g.start + 1, g.stop⟩
  else if splitPoint = g.stop - 1 then Gap.keep ⟨g.start, g.stop - 1⟩
  else [⟨g.start, splitPoint⟩, ⟨splitPoint + 1, g.stop⟩]

/-- The loop of `split_gap`; nothing when no gap has the point. -/
def splitNodes (splitPoint : Int) : List Gap → Option (List Gap)
  | [] => none
  | g :: rest =>
    if splitPoint < g.start then none
    else if splitPoint ≥ g.stop then (splitNodes splitPoint rest).map (g :: ·)
    else some (g.split splitPoint ++ rest)

namespace GapList

def newList : GapList := ⟨[], 0⟩

/-- A new gap goes to the end. -/
def insert (list : GapList) (newGap : Gap) : GapList :=
  ⟨list.nodes ++ [newGap], list.size + 1⟩

/-- Takes a point out of the gap it is in, if any. -/
def splitGap (list : GapList) (splitPoint : Int) : Bool × GapList :=
  match splitNodes splitPoint list.nodes with
  | none => (false, list)
  | some nodes =>
    (true, ⟨nodes, if nodes.isEmpty then 0 else list.size + nodes.length - list.nodes.length⟩)

end GapList

/-! ## What the list stands for -/

def Gap.Has (g : Gap) (s : Int) : Prop := g.start ≤ s ∧ s < g.stop

/-- The sequence number is in a gap of the list. -/
def Covers (nodes : List Gap) (s : Int) : Prop := ∃ g ∈ nodes, g.Has s

/-- Gaps that are not empty, in order. -/
structure GapsSorted (nodes : List Gap) : Prop where
  proper : ∀ g ∈ nodes, g.start < g.stop
  ordered : nodes.Pairwise fun g g' => g.stop ≤ g'.start

variable {g : Gap} {s : Int} {l : List Gap}

theorem covers_append {l' : List Gap} : Covers (l ++ l') s ↔ Covers l s ∨ Covers l' s := by
  unfold Covers
  constructor
  · rintro ⟨g, hg, hs⟩
    rcases mem_append.mp hg with hg | hg
    · exact Or.inl ⟨g, hg, hs⟩
    · exact Or.inr ⟨g, hg, hs⟩
  · rintro (⟨g, hg, hs⟩ | ⟨g, hg, hs⟩)
    · exact ⟨g, mem_append_left _ hg, hs⟩
    · exact ⟨g, mem_append_right _ hg, hs⟩

theorem covers_cons : Covers (g :: l) s ↔ g.Has s ∨ Covers l s := by
  unfold Covers
  simp only [mem_cons, exists_eq_or_imp]

theorem not_covers_nil : ¬ Covers [] s := by
  rintro ⟨g, hg, _⟩
  exact not_mem_nil hg

theorem GapsSorted.tail (h : GapsSorted (g :: l)) : GapsSorted l where
  proper := fun x hx => h.proper x (mem_cons_of_mem g hx)
  ordered := (pairwise_cons.mp h.ordered).2

theorem GapsSorted.append {l' : List Gap} (h : GapsSorted l) (h' : GapsSorted l')
    (hle : ∀ g ∈ l, ∀ g' ∈ l', g.stop ≤ g'.start) : GapsSorted (l ++ l') where
  proper := by
    intro g hg
    rcases mem_append.mp hg with hg | hg
    · exact h.proper g hg
    · exact h'.proper g hg
  ordered := pairwise_append.mpr ⟨h.ordered, h'.ordered, hle⟩

/-- No gap after a gap has one of the numbers before its end. -/
theorem GapsSorted.lt_of_covers (h : GapsSorted (g :: l)) (hs : Covers l s) : g.stop ≤ s := by
  rcases hs with ⟨x, hx, hstart, _⟩
  have hle := (pairwise_cons.mp h.ordered).1 x hx
  omega

theorem Gap.covers_keep : Covers g.keep s ↔ g.Has s := by
  unfold Gap.keep
  by_cases hempty : g.start ≥ g.stop
  · rw [if_pos hempty]
    refine iff_of_false not_covers_nil ?_
    rintro ⟨h₁, h₂⟩
    omega
  · rw [if_neg hempty, covers_cons]
    exact or_iff_left not_covers_nil

theorem Gap.sorted_keep (g : Gap) : GapsSorted g.keep := by
  unfold Gap.keep
  by_cases hempty : g.start ≥ g.stop
  · rw [if_pos hempty]
    exact ⟨fun _ h => absurd h not_mem_nil, List.Pairwise.nil⟩
  · rw [if_neg hempty]
    refine ⟨?_, pairwise_singleton _ _⟩
    intro x hx
    rw [mem_singleton.mp hx]
    omega

theorem Gap.covers_split {p : Int} (hp : g.Has p) : Covers (g.split p) s ↔ g.Has s ∧ s ≠ p := by
  rcases hp with ⟨hstart, hstop⟩
  unfold Gap.split
  by_cases h₁ : p = g.start
  · rw [if_pos h₁, Gap.covers_keep]
    unfold Gap.Has
    simp only
    omega
  rw [if_neg h₁]
  by_cases h₂ : p = g.stop - 1
  · rw [if_pos h₂, Gap.covers_keep]
    unfold Gap.Has
    simp only
    omega
  · rw [if_neg h₂, covers_cons, covers_cons, or_iff_left not_covers_nil]
    unfold Gap.Has
    simp only
    omega

/-- The pieces of a gap are proper, in order and inside it. -/
theorem Gap.sorted_split {p : Int} (hp : g.Has p) :
    GapsSorted (g.split p) ∧ ∀ x ∈ g.split p, g.start ≤ x.start ∧ x.stop ≤ g.stop := by
  rcases hp with ⟨hstart, hstop⟩
  have hkeep : ∀ y : Gap, g.start ≤ y.start → y.stop ≤ g.stop →
      GapsSorted y.keep ∧ ∀ x ∈ y.keep, g.start ≤ x.start ∧ x.stop ≤ g.stop := by
    intro y hy₁ hy₂
    refine ⟨y.sorted_keep, ?_⟩
    intro x hx
    unfold Gap.keep at hx
    split at hx
    · exact absurd hx not_mem_nil
    · rw [mem_singleton.mp hx]
      exact ⟨hy₁, hy₂⟩
  unfold Gap.split
  by_cases h₁ : p = g.start
  · rw [if_pos h₁]
    exact hkeep _ (Int.le_add_one (Int.le_refl _)) (Int.le_refl _)
  rw [if_neg h₁]
  by_cases h₂ : p = g.stop - 1
  · rw [if_pos h₂]
    exact hkeep _ (Int.le_refl _) (Int.sub_le_self _ (by omega))
  · rw [if_neg h₂]
    refine ⟨⟨?_, ?_⟩, ?_⟩
    · simp only [mem_cons, not_mem_nil, or_false, forall_eq_or_imp, forall_eq]
      omega
    · refine pairwise_pair.mpr ?_
      show p ≤ p + 1
      omega
    · simp only [mem_cons, not_mem_nil, or_false, forall_eq_or_imp, forall_eq]
      omega

/-- The loop finds the gap that has the point, and takes the point out of it. -/
theorem splitNodes_spec {nodes : List Gap} (h : GapsSorted nodes) (p : Int) :
    (splitNodes p nodes = none ∧ ¬ Covers nodes p) ∨
      ∃ nodes', splitNodes p nodes = some nodes' ∧ Covers nodes p ∧ GapsSorted nodes' ∧
        (∀ s, Covers nodes' s ↔ Covers nodes s ∧ s ≠ p) := by
  induction nodes with
  | nil => exact Or.inl ⟨rfl, not_covers_nil⟩
  | cons g rest ih =>
    unfold splitNodes
    by_cases hbefore : p < g.start
    · -- the point is before this gap, and so before all others
      rw [if_pos hbefore]
      refine Or.inl ⟨rfl, ?_⟩
      have hproper := h.proper g mem_cons_self
      rw [covers_cons]
      rintro (⟨hle, _⟩ | hrest)
      · omega
      · have hlt := h.lt_of_covers hrest
        omega
    rw [if_neg hbefore]
    by_cases hafter : p ≥ g.stop
    · -- the point is in one of the gaps that follow, if in any
      rw [if_pos hafter]
      have hnot : ¬ g.Has p := fun hp => by
        have := hp.2
        omega
      rcases ih h.tail with ⟨hnone, hcov⟩ | ⟨nodes', hsome, hcov, hsorted, hiff⟩
      · rw [hnone, covers_cons]
        exact Or.inl ⟨rfl, fun hor => hor.elim hnot hcov⟩
      · refine Or.inr ⟨g :: nodes', by rw [hsome]; rfl, covers_cons.mpr (Or.inr hcov), ?_, ?_⟩
        · refine ⟨?_, pairwise_cons.mpr ⟨?_, hsorted.ordered⟩⟩
          · intro x hx
            rcases mem_cons.mp hx with rfl | hx
            · exact h.proper _ mem_cons_self
            · exact hsorted.proper x hx
          · intro x hx
            -- the first number of the gap was in a gap before
            have hfirst : Covers nodes' x.start :=
              ⟨x, hx, Int.le_refl _, hsorted.proper x hx⟩
            exact h.lt_of_covers ((hiff x.start).mp hfirst).1
        · intro s
          rw [covers_cons, covers_cons, hiff s]
          constructor
          · rintro (hs | ⟨hs, hne⟩)
            · exact ⟨Or.inl hs, fun heq => hnot (heq ▸ hs)⟩
            · exact ⟨Or.inr hs, hne⟩
          · rintro ⟨hs | hs, hne⟩
            · exact Or.inl hs
            · exact Or.inr ⟨hs, hne⟩
    · rw [if_neg hafter]
      have hp : g.Has p := ⟨by omega, by omega⟩
      rcases Gap.sorted_split hp with ⟨hsorted, hinside⟩
      refine Or.inr ⟨_, rfl, covers_cons.mpr (Or.inl hp), hsorted.append h.tail ?_, ?_⟩
      · intro x hx y hy
        have hxg := (hinside x hx).2
        have hgy := (pairwise_cons.mp h.ordered).1 y hy
        omega
      · intro s
        rw [covers_append, covers_cons, Gap.covers_split hp]
        constructor
        · rintro (hs | hs)
          · exact ⟨Or.inl hs.1, hs.2⟩
          · refine ⟨Or.inr hs, ?_⟩
            have hlt := h.lt_of_covers hs
            have := hp.2
            omega
        · rintro ⟨hs | hs, hne⟩
          · exact Or.inl ⟨hs, hne⟩
          · exact Or.inr hs

/-- A list as the operations keep it. -/
structure GapList.WellFormed (list : GapList) : Prop where
  sorted : GapsSorted list.nodes
  size : list.size = list.nodes.length

theorem GapList.wellFormed_newList : newList.WellFormed where
  sorted := ⟨fun _ h => absurd h not_mem_nil, List.Pairwise.nil⟩
  size := rfl

theorem GapList.WellFormed.insert {list : GapList} (h : list.WellFormed)
    (hproper : g.start < g.stop) (hend : ∀ x ∈ list.nodes, x.stop ≤ g.start) :
    (list.insert g).WellFormed where
  sorted := by
    have hsingle : GapsSorted [g] := by
      refine ⟨?_, pairwise_singleton _ _⟩
      intro x hx
      rw [mem_singleton.mp hx]
      exact hproper
    refine h.sorted.append hsingle ?_
    intro x hx y hy
    rw [mem_singleton.mp hy]
    exact hend x hx
  size := by
    show list.size + 1 = ((list.nodes ++ [g]).length : Int)
    rw [h.size, length_append, length_singleton]
    omega

/-- After `split_gap` no gap has the point, and all else is as before. -/
theorem GapList.WellFormed.splitGap {list : GapList} (h : list.WellFormed) (p : Int) :
    (list.splitGap p).2.WellFormed ∧
      ∀ s, Covers (list.splitGap p).2.nodes s ↔ Covers list.nodes s ∧ s ≠ p := by
  unfold GapList.splitGap
  rcases splitNodes_spec h.sorted p with ⟨hnone, hcov⟩ | ⟨nodes', hsome, _, hsorted, hiff⟩
  · rw [hnone]
    refine ⟨h, ?_⟩
    intro s
    refine ⟨fun hs => ⟨hs, ?_⟩, And.left⟩
    rintro rfl
    exact hcov hs
  · rw [hsome]
    refine ⟨⟨hsorted, ?_⟩, hiff⟩
    show (if nodes'.isEmpty then 0 else list.size + nodes'.length - list.nodes.length) =
      (nodes'.length : Int)
    split
    · rename_i hempty
      rw [isEmpty_iff.mp hempty]
      rfl
    · have hsize := h.size
      omega

/-- There are at most as many gaps as there are numbers between their bounds. -/
theorem GapsSorted.length_le {nodes : List Gap} (h : GapsSorted nodes) {lo hi : Int}
    (hlo : lo ≤ hi) (hbound : ∀ g ∈ nodes, lo ≤ g.start ∧ g.stop ≤ hi) :
    nodes.length ≤ hi - lo := by
  induction nodes generalizing lo with
  | nil =>
    simp only [length_nil, Int.ofNat_zero]
    omega
  | cons g rest ih =>
    have hg := hbound g mem_cons_self
    have hproper := h.proper g mem_cons_self
    have hbelow : ∀ x ∈ rest, g.stop ≤ x.start ∧ x.stop ≤ hi := by
      intro x hx
      exact ⟨(pairwise_cons.mp h.ordered).1 x hx,
        (hbound x (mem_cons_of_mem g hx)).2⟩
    have hrest := ih h.tail hg.2 hbelow
    rw [length_cons]
    omega

end PittCs.Ncp
