import Mathlib.Data.Setoid.Basic
import Mathlib.SetTheory.Cardinal.Finite
import PittCs.Cs1501.UnionFind

/-!
# Runs of the union find

Any calls of `union`, `connected` and `findParent`, one after the other. The parents never
form a cycle, and the answers are about the components that the edges of the unions make.
-/

namespace PittCs.Cs1501.UnionFind

open Function PittCs.Lib.SpanningTree

variable {n : ℕ} {u : UnionFind n} {es : List (Edge n)}

/-! ## No cycles -/

/-- Along the parents the rank grows until a node is its own parent. -/
theorem rank_lt_iterate {i : Fin n} (h : u.parentOf i ≠ i) (k : ℕ) :
    u.rank i < u.rank (u.parentOf^[k + 1] i) := by
  induction k with
  | zero => exact u.rank_lt i h
  | succ k ih =>
    rw [iterate_succ_apply']
    by_cases hself : u.parentOf (u.parentOf^[k + 1] i) = u.parentOf^[k + 1] i
    · rwa [hself]
    · exact ih.trans (u.rank_lt _ hself)

/-! ## `numComponents` -/

/-- The loop of `numComponents`, with the nodes that are left. -/
def componentsLoop : List (Fin n) → UnionFind n → (Fin n → Bool) → ℕ → ℕ × UnionFind n
  | [], u, _, components => (components, u)
  | i :: nodes, u, isParent, components =>
    let parent := u.findParent i
    if isParent parent.1 then componentsLoop nodes parent.2 isParent components
    else componentsLoop nodes parent.2 (update isParent parent.1 true) (components + 1)

/-- `numComponents` -/
def numComponents (u : UnionFind n) : ℕ × UnionFind n :=
  componentsLoop (List.finRange n) u (fun _ => false) 0

/-- The parents that were seen are counted. -/
theorem componentsLoop_spec {nodes : List (Fin n)} {seen : Finset (Fin n)} :
    (componentsLoop nodes u (fun i => decide (i ∈ seen)) seen.card).1 =
      (seen ∪ nodes.toFinset.image u.root).card := by
  induction nodes generalizing u seen with
  | nil => simp [componentsLoop]
  | cons i nodes ih =>
    have hroot : (u.findParent i).2.root = u.root := funext fun j => u.root_findParent i j
    unfold componentsLoop
    dsimp only
    rw [findParent_fst, List.toFinset_cons, Finset.image_insert, Finset.union_insert]
    by_cases hseen : u.root i ∈ seen
    · rw [if_pos (decide_eq_true hseen), ih, hroot,
        Finset.insert_eq_of_mem (Finset.mem_union_left _ hseen)]
    · have hupdate : update (fun i => decide (i ∈ seen)) (u.root i) true =
          fun j => decide (j ∈ insert (u.root i) seen) := by
        funext j
        by_cases hj : j = u.root i
        · rw [hj, update_self, decide_eq_true (Finset.mem_insert_self _ _)]
        · rw [update_of_ne hj, decide_eq_decide, Finset.mem_insert, or_iff_right hj]
      rw [if_neg (by rw [decide_eq_false hseen]; exact Bool.false_ne_true), hupdate,
        ← Finset.card_insert_of_notMem hseen, ih, hroot, Finset.insert_union]

/-- Linked nodes are in the same component. -/
def components (es : List (Edge n)) : Setoid (Fin n) where
  r := Linked (edgeEnds n) es
  iseqv := Linked.equivalence es

theorem LinkedBy.numComponents (h : u.LinkedBy es) :
    u.numComponents.1 = Nat.card (Quotient (components es)) := by
  have hker : components es = Setoid.ker u.root := Setoid.ext fun a b => (h a b).symm
  have hloop : u.numComponents.1 = (Finset.univ.image u.root).card := by
    have hspec := @componentsLoop_spec n u (List.finRange n) ∅
    rw [Finset.empty_union, List.toFinset_finRange] at hspec
    exact hspec
  rw [hloop, hker, Nat.card_congr (Setoid.quotientKerEquivRange u.root)]
  refine (Nat.subtype_card _ fun i => ?_).symm
  rw [Finset.mem_image, Set.mem_range]
  exact ⟨fun ⟨a, _, ha⟩ => ⟨a, ha⟩, fun ⟨a, ha⟩ => ⟨a, Finset.mem_univ a, ha⟩⟩

/-! ## Runs -/

inductive Call (n : ℕ) where
  | union (newEdge : Edge n)
  | connected (node1 node2 : Fin n)
  | findParent (node : Fin n)

def call (u : UnionFind n) : Call n → UnionFind n
  | .union newEdge => u.union newEdge
  | .connected node1 node2 => (u.connected node1 node2).2
  | .findParent node => (u.findParent node).2

def after (calls : List (Call n)) : UnionFind n := calls.foldl call (new n)

/-- The edges of the unions, the last one first. -/
def unioned (calls : List (Call n)) : List (Edge n) :=
  calls.foldl (fun es c => match c with
    | .union newEdge => newEdge :: es
    | .connected _ _ | .findParent _ => es) []

theorem linkedBy_after (calls : List (Call n)) : (after calls).LinkedBy (unioned calls) := by
  induction calls using List.reverseRecOn with
  | nil => exact linkedBy_new
  | append_singleton calls c ih =>
    unfold after unioned
    rw [List.foldl_concat, List.foldl_concat]
    cases c with
    | union newEdge => exact ih.union newEdge
    | connected node1 node2 => exact (ih.findParent node1).findParent node2
    | findParent node => exact ih.findParent node

/-- What should hold after the calls. -/
structure Right (u : UnionFind n) (es : List (Edge n)) : Prop where
  acyclic : ∀ i k, u.parentOf^[k + 1] i = i → u.parentOf i = i
  ends : ∀ i fuel, n ≤ fuel → u.findLoop fuel i = u.root i ∧ u.parentOf (u.root i) = u.root i
  reached : ∀ i, ∃ k, u.root i = u.parentOf^[k] i
  connected : ∀ a b, (u.connected a b).1 = true ↔ Linked (edgeEnds n) es a b
  numComponents : u.numComponents.1 = Nat.card (Quotient (components es))

/-- After any calls the parents are a forest, and the answers are right. -/
theorem unionFind_right (calls : List (Call n)) : Right (after calls) (unioned calls) := by
  have hlinked := linkedBy_after calls
  generalize after calls = u at *
  constructor
  case acyclic =>
    intro i k hcycle
    by_contra hne
    have hlt := rank_lt_iterate hne k
    rw [hcycle] at hlt
    exact lt_irrefl _ hlt
  case ends =>
    intro i fuel hfuel
    have hle := u.card_above_le i
    exact ⟨u.findLoop_eq n (hle.trans_le hfuel) hle, u.parentOf_root i⟩
  case reached =>
    intro i
    induction i using u.parent_induction with
    | h i ih =>
      by_cases hi : u.parentOf i = i
      · exact ⟨0, u.root_of_isParent hi⟩
      · rcases ih hi with ⟨k, hk⟩
        rw [u.root_parentOf] at hk
        exact ⟨k + 1, hk⟩
  case connected =>
    intro a b
    unfold UnionFind.connected
    dsimp only
    rw [findParent_fst, findParent_fst, root_findParent, decide_eq_true_iff]
    exact hlinked a b
  case numComponents => exact hlinked.numComponents

end PittCs.Cs1501.UnionFind
