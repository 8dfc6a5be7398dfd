import PittCs.Lib.SpanningTree
import PittCs.Cs1501.NetAnalysis
import Mathlib.Data.Fintype.Card

/-!
# Union find

`UnionFind.java`: a forest of parent pointers with ranks. `findParent` compresses only the
path of the node it is called for, `union` hangs the root of lower rank below the other.
-/

namespace PittCs.Cs1501

open PittCs.Lib.SpanningTree Function List

/-- The ends of an edge. -/
def edgeEnds (n : ℕ) : Ends (Fin n) (Edge n) where
  source := Edge.source
  destination := Edge.destination

/-- `UnionFind`: a node that is not its own parent is below a node of higher rank. -/
structure UnionFind (n : ℕ) where
  parentOf : Fin n → Fin n
  rank : Fin n → ℕ
  rank_lt : ∀ i, parentOf i ≠ i → rank i < rank (parentOf i)

namespace UnionFind

variable {n : ℕ}

/-- The constructor. -/
def new (numNodes : ℕ) : UnionFind numNodes where
  parentOf i := i
  rank _ := 1
  rank_lt _ h := absurd rfl h

/-- The loop of `findParent`. -/
def findLoop (u : UnionFind n) : ℕ → Fin n → Fin n
  | 0, currNode => currNode
  | fuel + 1, currNode =>
    if u.parentOf currNode = currNode then currNode else findLoop u fuel (u.parentOf currNode)

/-- The node in which the loop ends. The ranks grow on the way, so it ends after less steps
than there are nodes. -/
def root (u : UnionFind n) (node : Fin n) : Fin n := u.findLoop n node

/-! ## Roots -/

/-- The nodes of higher rank. -/
def above (u : UnionFind n) (node : Fin n) : Finset (Fin n) :=
  Finset.univ.filter fun i => u.rank node < u.rank i

variable {node : Fin n} {u : UnionFind n} {es : List (Edge n)}

theorem card_above_lt (u : UnionFind n) (h : u.parentOf node ≠ node) :
    (u.above (u.parentOf node)).card < (u.above node).card := by
  have hlt := u.rank_lt node h
  refine Finset.card_lt_card ⟨?_, ?_⟩
  · intro i hi
    rw [above, Finset.mem_filter] at hi ⊢
    exact ⟨hi.1, hlt.trans hi.2⟩
  · intro hsub
    have hmem : u.parentOf node ∈ u.above node := by
      rw [above, Finset.mem_filter]
      exact ⟨Finset.mem_univ _, hlt⟩
    have hself := hsub hmem
    rw [above, Finset.mem_filter] at hself
    exact lt_irrefl _ hself.2

theorem card_above_le (u : UnionFind n) (node : Fin n) : (u.above node).card < n := by
  have hlt : (u.above node).card < (Finset.univ : Finset (Fin n)).card := by
    refine Finset.card_lt_card ⟨Finset.subset_univ _, ?_⟩
    intro hsub
    have hself := hsub (Finset.mem_univ node)
    rw [above, Finset.mem_filter] at hself
    exact lt_irrefl _ hself.2
  rwa [Finset.card_univ, Fintype.card_fin] at hlt

/-- Upwards along the parents. -/
theorem parent_induction (u : UnionFind n) {P : Fin n → Prop}
    (h : ∀ i, (u.parentOf i ≠ i → P (u.parentOf i)) → P i) (i : Fin n) : P i := by
  induction hk : (u.above i).card using Nat.strong_induction_on generalizing i with
  | h k ih =>
    refine h i ?_
    intro hi
    exact ih _ (hk ▸ u.card_above_lt hi) _ rfl

/-- More fuel than there are nodes above makes no difference. -/
theorem findLoop_eq (u : UnionFind n) {fuel : ℕ} (fuel' : ℕ) (h : (u.above node).card < fuel)
    (h' : (u.above node).card < fuel') : u.findLoop fuel node = u.findLoop fuel' node := by
  induction fuel generalizing fuel' node with
  | zero => exact absurd h (Nat.not_lt_zero _)
  | succ fuel ih =>
    cases fuel' with
    | zero => exact absurd h' (Nat.not_lt_zero _)
    | succ fuel' =>
      unfold findLoop
      split
      case isTrue => rfl
      case isFalse hne =>
        have hlt := u.card_above_lt hne
        exact ih fuel' (by omega) (by omega)

theorem root_of_isParent (u : UnionFind n) (h : u.parentOf node = node) : u.root node = node := by
  unfold root
  cases n with
  | zero => exact node.elim0
  | succ n =>
    unfold findLoop
    rw [if_pos h]

theorem root_parentOf (u : UnionFind n) (node : Fin n) : u.root (u.parentOf node) = u.root node := by
  by_cases h : u.parentOf node = node
  · rw [h]
  · have hlt := u.card_above_lt h
    have hle := u.card_above_le node
    unfold root
    cases n with
    | zero => exact node.elim0
    | succ n =>
      rw [u.findLoop_eq n (u.card_above_le _) (by omega)]
      conv_rhs => unfold findLoop
      rw [if_neg h]

/-- The loop ends in a node that is its own parent. -/
theorem parentOf_root (u : UnionFind n) (node : Fin n) : u.parentOf (u.root node) = u.root node := by
  induction node using u.parent_induction with
  | h i ih =>
    by_cases hi : u.parentOf i = i
    · rw [u.root_of_isParent hi, hi]
    · have hup := ih hi
      rwa [u.root_parentOf] at hup

theorem root_eq_self_iff (u : UnionFind n) : u.root node = node ↔ u.parentOf node = node := by
  constructor
  · intro h
    have hroot := u.parentOf_root node
    rwa [h] at hroot
  · exact u.root_of_isParent

theorem rank_le_root (u : UnionFind n) (node : Fin n) : u.rank node ≤ u.rank (u.root node) := by
  induction node using u.parent_induction with
  | h i ih =>
    by_cases hi : u.parentOf i = i
    · rw [u.root_of_isParent hi]
    · have hup := ih hi
      rw [u.root_parentOf] at hup
      exact (u.rank_lt i hi).le.trans hup

theorem rank_lt_root (u : UnionFind n) (h : u.root node ≠ node) :
    u.rank node < u.rank (u.root node) := by
  have hne : u.parentOf node ≠ node := fun hp => h (u.root_of_isParent hp)
  have hup := u.rank_le_root (u.parentOf node)
  rw [u.root_parentOf] at hup
  exact (u.rank_lt node hne).trans_le hup

/-! ## `findParent` -/

theorem rank_lt_compress (u : UnionFind n) (node i : Fin n)
    (h : Function.update u.parentOf node (u.root node) i ≠ i) :
    u.rank i < u.rank (Function.update u.parentOf node (u.root node) i) := by
  by_cases hi : i = node
  · subst hi
    rw [update_self] at h ⊢
    exact u.rank_lt_root h
  · rw [update_of_ne hi] at h ⊢
    exact u.rank_lt i h

/-- `findParent` -/
def findParent (u : UnionFind n) (node : Fin n) : Fin n × UnionFind n :=
  let currNode := u.root node
  (currNode, { u with
    parentOf := Function.update u.parentOf node currNode
    rank_lt := u.rank_lt_compress node })

@[simp]
theorem findParent_fst (u : UnionFind n) (node : Fin n) : (u.findParent node).1 = u.root node := rfl

theorem isParent_findParent (u : UnionFind n) (node i : Fin n) :
    (u.findParent node).2.parentOf i = i ↔ u.parentOf i = i := by
  unfold findParent
  dsimp only
  by_cases hi : i = node
  · subst hi
    rw [update_self, root_eq_self_iff]
  · rw [update_of_ne hi]

/-- Compressing a path changes no root. -/
@[simp]
theorem root_findParent (u : UnionFind n) (node i : Fin n) :
    (u.findParent node).2.root i = u.root i := by
  induction i using u.parent_induction with
  | h i ih =>
    by_cases hi : u.parentOf i = i
    · rw [u.root_of_isParent hi]
      exact root_of_isParent _ ((u.isParent_findParent node i).mpr hi)
    · rw [← root_parentOf]
      by_cases hnode : i = node
      · -- the parent is now the root
        subst hnode
        have hp : (u.findParent i).2.parentOf i = u.root i := update_self i _ _
        rw [hp]
        exact root_of_isParent _ ((u.isParent_findParent i _).mpr (u.parentOf_root i))
      · have hp : (u.findParent node).2.parentOf i = u.parentOf i := update_of_ne hnode _ _
        rw [hp, ih hi, u.root_parentOf]

/-- `connected` -/
def connected (u : UnionFind n) (node1 node2 : Fin n) : Bool × UnionFind n :=
  let parent1 := u.findParent node1
  let parent2 := parent1.2.findParent node2
  (decide (parent1.1 = parent2.1), parent2.2)

/-! ## `union` -/

theorem rank_lt_hang (u : UnionFind n) {below above : Fin n} (h : u.rank below < u.rank above)
    (i : Fin n) (hi : Function.update u.parentOf below above i ≠ i) :
    u.rank i < u.rank (Function.update u.parentOf below above i) := by
  by_cases hb : i = below
  · subst hb
    rwa [update_self]
  · rw [update_of_ne hb] at hi ⊢
    exact u.rank_lt i hi

/-- `parentOf[below] = above` -/
def hang (u : UnionFind n) (below above : Fin n) (h : u.rank below < u.rank above) :
    UnionFind n where
  parentOf := Function.update u.parentOf below above
  rank := u.rank
  rank_lt := u.rank_lt_hang h

theorem rank_lt_raise (u : UnionFind n) (h : u.parentOf node = node) (i : Fin n)
    (hi : u.parentOf i ≠ i) :
    Function.update u.rank node (u.rank node + 1) i <
      Function.update u.rank node (u.rank node + 1) (u.parentOf i) := by
  have hne : i ≠ node := fun he => hi (he ▸ h)
  have hlt := u.rank_lt i hi
  rw [update_of_ne hne]
  by_cases hp : u.parentOf i = node
  · rw [hp] at hlt ⊢
    rw [update_self]
    exact Nat.lt_succ_of_lt hlt
  · rwa [update_of_ne hp]

/-- `rank[node]++`, for a node that is its own parent. -/
def raise (u : UnionFind n) (node : Fin n) (h : u.parentOf node = node) : UnionFind n where
  parentOf := u.parentOf
  rank := Function.update u.rank node (u.rank node + 1)
  rank_lt := u.rank_lt_raise h

theorem rank_lt_raised (u : UnionFind n) {below above : Fin n} (h : u.parentOf above = above)
    (hne : above ≠ below) (hrank : u.rank below = u.rank above) :
    (u.raise above h).rank below < (u.raise above h).rank above := by
  unfold raise
  dsimp only
  rw [update_self, update_of_ne hne.symm, hrank]
  exact Nat.lt_succ_self _

/-- The assignments of `union`, to nodes that are their own parents. -/
def link (u : UnionFind n) (sourceParent destinationParent : Fin n)
    (h : u.parentOf sourceParent = sourceParent) : UnionFind n :=
  if hne : sourceParent = destinationParent then u
  else if hlt : u.rank destinationParent < u.rank sourceParent then
    u.hang destinationParent sourceParent hlt
  else if hlt' : u.rank sourceParent < u.rank destinationParent then
    u.hang sourceParent destinationParent hlt'
  else
    (u.raise sourceParent h).hang destinationParent sourceParent
      (u.rank_lt_raised h hne (Nat.le_antisymm (not_lt.mp hlt') (not_lt.mp hlt)))

theorem isParent_found (u : UnionFind n) (source destination : Fin n) :
    ((u.findParent source).2.findParent destination).2.parentOf (u.findParent source).1 =
      (u.findParent source).1 := by
  rw [isParent_findParent, isParent_findParent]
  exact u.parentOf_root source

/-- `union` -/
def union (u : UnionFind n) (newEdge : Edge n) : UnionFind n :=
  let source := u.findParent newEdge.source
  let destination := source.2.findParent newEdge.destination
  destination.2.link source.1 destination.1 (u.isParent_found newEdge.source newEdge.destination)

theorem findLoop_congr {u' : UnionFind n} (h : u.parentOf = u'.parentOf) (fuel : ℕ) (node : Fin n) :
    u.findLoop fuel node = u'.findLoop fuel node := by
  induction fuel generalizing node with
  | zero => rfl
  | succ fuel ih =>
    unfold findLoop
    rw [h, ih]

/-- The root that is hung below another one is replaced by it. -/
theorem root_hang (u : UnionFind n) {below above : Fin n} (h : u.rank below < u.rank above)
    (hbelow : u.parentOf below = below) (habove : u.parentOf above = above) (i : Fin n) :
    (u.hang below above h).root i = if u.root i = below then above else u.root i := by
  have hne : above ≠ below := by
    rintro rfl
    exact lt_irrefl _ h
  have hpb : (u.hang below above h).parentOf below = above := update_self below _ _
  have hpo : ∀ j, j ≠ below → (u.hang below above h).parentOf j = u.parentOf j :=
    fun j hj => update_of_ne hj _ _
  have hra : (u.hang below above h).root above = above :=
    root_of_isParent _ ((hpo above hne).trans habove)
  induction i using u.parent_induction with
  | h i ih =>
    by_cases hi : u.parentOf i = i
    · rw [u.root_of_isParent hi]
      by_cases hib : i = below
      · rw [if_pos hib, hib, ← root_parentOf, hpb, hra]
      · rw [if_neg hib]
        exact root_of_isParent _ ((hpo i hib).trans hi)
    · have hib : i ≠ below := fun he => hi (he ▸ hbelow)
      rw [← root_parentOf, hpo i hib, ih hi, u.root_parentOf]

theorem root_raise (u : UnionFind n) (h : u.parentOf node = node) (i : Fin n) :
    (u.raise node h).root i = u.root i := by
  have hparent : (u.raise node h).parentOf = u.parentOf := rfl
  exact findLoop_congr hparent n i

/-- One of two roots takes the place of the other. -/
def Merges (u u' : UnionFind n) (a b : Fin n) : Prop :=
  ∃ keep drop, ((keep = a ∧ drop = b) ∨ (keep = b ∧ drop = a)) ∧
    ∀ i, u'.root i = if u.root i = drop then keep else u.root i

theorem merges_link (u : UnionFind n) {a b : Fin n} (ha : u.parentOf a = a) (hb : u.parentOf b = b) :
    Merges u (u.link a b ha) a b := by
  unfold link
  split
  case isTrue hab =>
    refine ⟨a, b, Or.inl ⟨rfl, rfl⟩, ?_⟩
    intro i
    split
    case isTrue hroot => rw [hroot, hab]
    case isFalse => rfl
  case isFalse hab =>
    split
    case isTrue hlt => exact ⟨a, b, Or.inl ⟨rfl, rfl⟩, u.root_hang hlt hb ha⟩
    case isFalse hge =>
      split
      case isTrue hlt => exact ⟨b, a, Or.inr ⟨rfl, rfl⟩, u.root_hang hlt ha hb⟩
      case isFalse hge' =>
        refine ⟨a, b, Or.inl ⟨rfl, rfl⟩, ?_⟩
        intro i
        rw [(u.raise a ha).root_hang _ hb ha, u.root_raise ha]

theorem merges_union (u : UnionFind n) (newEdge : Edge n) :
    Merges u (u.union newEdge) (u.root newEdge.source) (u.root newEdge.destination) := by
  have hb : ((u.findParent newEdge.source).2.findParent newEdge.destination).2.parentOf
      (u.root newEdge.destination) = u.root newEdge.destination := by
    rw [isParent_findParent, isParent_findParent]
    exact u.parentOf_root newEdge.destination
  have hdst : ((u.findParent newEdge.source).2.findParent newEdge.destination).1 =
      u.root newEdge.destination := root_findParent u newEdge.source newEdge.destination
  rcases merges_link _ (u.isParent_found newEdge.source newEdge.destination) hb with
    ⟨keep, drop, hroots, hroot⟩
  refine ⟨keep, drop, hroots, ?_⟩
  intro i
  have hi := hroot i
  rw [root_findParent, root_findParent] at hi
  rw [← hi]
  unfold union
  dsimp only
  congr 2

/-! ## What the edges link -/

/-- The nodes with the same root are those the edges link. -/
def LinkedBy (u : UnionFind n) (es : List (Edge n)) : Prop :=
  ∀ a b, u.root a = u.root b ↔ Linked (edgeEnds n) es a b

theorem linkedBy_new : LinkedBy (new n) [] := by
  intro a b
  have hroot : ∀ i, (new n).root i = i := fun i => root_of_isParent _ rfl
  rw [hroot, hroot, linked_nil]

theorem LinkedBy.of_subset {es' : List (Edge n)} (h : u.LinkedBy es) (hsub : es ⊆ es')
    (hsub' : es' ⊆ es) : u.LinkedBy es' := by
  intro a b
  rw [h]
  exact ⟨fun hab => hab.mono hsub, fun hab => hab.mono hsub'⟩

theorem LinkedBy.findParent (h : u.LinkedBy es) (node : Fin n) :
    (u.findParent node).2.LinkedBy es := by
  intro a b
  rw [root_findParent, root_findParent]
  exact h a b

theorem LinkedBy.union (h : u.LinkedBy es) (e : Edge n) : (u.union e).LinkedBy (e :: es) := by
  intro a b
  rw [linked_cons, ← h, ← h, ← h, ← h, ← h]
  rcases merges_union u e with ⟨keep, drop, ⟨rfl, rfl⟩ | ⟨rfl, rfl⟩, hroot⟩
  · rw [hroot, hroot]
    show _ ↔ u.root a = u.root b ∨ (u.root a = u.root e.source ∧ u.root e.destination = u.root b) ∨
      (u.root a = u.root e.destination ∧ u.root e.source = u.root b)
    grind
  · rw [hroot, hroot]
    show _ ↔ u.root a = u.root b ∨ (u.root a = u.root e.source ∧ u.root e.destination = u.root b) ∨
      (u.root a = u.root e.destination ∧ u.root e.source = u.root b)
    grind

/-! ## `connectedGraph` -/

/-- The loop of `connectedGraph`, with the nodes that are left. -/
def connectedLoop (currParent : Fin n) :
    List (Fin n) → UnionFind n → Bool → Bool × UnionFind n
  | [], u, connected => (connected, u)
  | i :: nodes, u, connected =>
    let parent := u.findParent i
    connectedLoop currParent nodes parent.2 (if currParent ≠ parent.1 then false else connected)

/-- `connectedGraph`. The parent of node 0 is looked up before the loop. -/
def connectedGraph (u : UnionFind n) : Except GraphError (Bool × UnionFind n) :=
  if h : 0 < n then
    let parent := u.findParent ⟨0, h⟩
    .ok (connectedLoop parent.1 (finRange n) parent.2 true)
  else .error (.arrayIndexOutOfBounds 0)

theorem connectedLoop_spec (currParent : Fin n) (nodes : List (Fin n)) (u : UnionFind n)
    (connected : Bool) :
    (connectedLoop currParent nodes u connected).1 = true ↔
      connected = true ∧ ∀ i ∈ nodes, currParent = u.root i := by
  induction nodes generalizing u connected with
  | nil => simp [connectedLoop]
  | cons i nodes ih =>
    unfold connectedLoop
    dsimp only
    rw [ih, findParent_fst, forall_mem_cons]
    simp only [root_findParent]
    by_cases hi : currParent = u.root i
    · rw [if_neg (not_not.mpr hi)]
      exact ⟨fun h => ⟨h.1, hi, h.2⟩, fun h => ⟨h.1, h.2.2⟩⟩
    · rw [if_pos hi]
      exact ⟨fun h => absurd h.1 Bool.false_ne_true, fun h => absurd h.2.1 hi⟩

/-- With a node there is an answer, and it is whether the edges link all nodes. -/
theorem connectedGraph_spec (h : u.LinkedBy es) (hn : 0 < n) :
    ∃ u', u.connectedGraph = .ok (decide (∀ a b, u.root a = u.root b), u') ∧
      ((∀ a b, u.root a = u.root b) ↔ Spans (edgeEnds n) es) := by
  refine ⟨(connectedLoop (u.root ⟨0, hn⟩) (finRange n) (u.findParent ⟨0, hn⟩).2 true).2,
    ?_, forall_congr' fun a => forall_congr' fun b => h a b⟩
  have hanswer : (connectedLoop (u.root ⟨0, hn⟩) (finRange n) (u.findParent ⟨0, hn⟩).2 true).1 =
      decide (∀ a b, u.root a = u.root b) := by
    rw [Bool.eq_iff_iff, connectedLoop_spec, decide_eq_true_iff]
    simp only [root_findParent]
    constructor
    · intro hall a b
      exact (hall.2 a (mem_finRange a)).symm.trans (hall.2 b (mem_finRange b))
    · exact fun hall => ⟨trivial, fun i _ => hall _ i⟩
  unfold connectedGraph
  rw [dif_pos hn, ← hanswer]
  rfl

/-! ## The number of roots -/

/-- The nodes that are their own parents. -/
def roots (u : UnionFind n) : Finset (Fin n) := Finset.univ.filter fun i => u.root i = i

theorem card_roots_new : (new n).roots.card = n := by
  have hall : (new n).roots = Finset.univ :=
    Finset.filter_true_of_mem fun i _ => root_of_isParent _ rfl
  rw [hall, Finset.card_univ, Fintype.card_fin]

/-- An edge between different roots leaves one root less. -/
theorem card_roots_union {e : Edge n} (h : u.root e.source ≠ u.root e.destination) :
    (u.union e).roots.card + 1 = u.roots.card := by
  have hself : ∀ i, u.root (u.root i) = u.root i := fun i =>
    u.root_of_isParent (u.parentOf_root i)
  have herase : ∀ keep drop, u.root keep = keep → u.root drop = drop → keep ≠ drop →
      (∀ i, (u.union e).root i = if u.root i = drop then keep else u.root i) →
      (u.union e).roots.card + 1 = u.roots.card := by
    intro keep drop hkeep hdrop hne hroot
    have hroots : (u.union e).roots = u.roots.erase drop := by
      ext i
      simp only [roots, Finset.mem_erase, Finset.mem_filter, Finset.mem_univ, true_and]
      rw [hroot]
      grind
    rw [hroots]
    refine Finset.card_erase_add_one ?_
    rw [roots, Finset.mem_filter]
    exact ⟨Finset.mem_univ drop, hdrop⟩
  rcases merges_union u e with ⟨keep, drop, ⟨rfl, rfl⟩ | ⟨rfl, rfl⟩, hroot⟩
  · exact herase _ _ (hself _) (hself _) h hroot
  · exact herase _ _ (hself _) (hself _) h.symm hroot

/-- If all nodes have the same root there is only one. -/
theorem card_roots_of_connected (hn : 0 < n) (h : ∀ a b, u.root a = u.root b) :
    u.roots.card = 1 := by
  rw [Finset.card_eq_one]
  refine ⟨u.root ⟨0, hn⟩, ?_⟩
  ext i
  simp only [roots, Finset.mem_filter, Finset.mem_univ, true_and, Finset.mem_singleton]
  constructor
  · exact fun hi => hi.symm.trans (h i _)
  · rintro rfl
    exact u.root_of_isParent (u.parentOf_root _)

end UnionFind

namespace NetAnalysis

/-! ## The edges of a graph -/

/-- The edges in the order in which two loops over the lists meet them. -/
def allEdges (g : NetAnalysis) : List (Edge g.nodeCount) :=
  (finRange g.nodeCount).flatMap g.graph

theorem mem_allEdges {g : NetAnalysis} {e : Edge g.nodeCount} :
    e ∈ g.allEdges ↔ e ∈ g.graph e.source := by
  unfold allEdges
  rw [mem_flatMap]
  constructor
  · rintro ⟨i, -, he⟩
    rwa [g.source i e he]
  · exact fun he => ⟨e.source, mem_finRange _, he⟩

/-- Every two nodes are linked by edges of the graph. -/
def Connected (g : NetAnalysis) : Prop := Spans (edgeEnds g.nodeCount) g.allEdges

end NetAnalysis

end PittCs.Cs1501
