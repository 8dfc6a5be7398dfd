import PittCs.Lib.TransitionSystem
import PittCs.Rcdb.DiGraph

/-!
# Nodes of the deadlock graph

What every graph that its own operations build satisfies, and what `removeNode`
does to the edges between the nodes that stay: `erase` is given the end of the
vector as its second argument, so the edges behind the erased one go too.
-/

namespace PittCs.Rcdb

open Std PittCs.Lib List

namespace DiGraph

/-! ## Graphs -/

/-- The operations that change a graph. -/
inductive Op where
  | addNode (v : Int)
  | removeNode (v : Int)
  | addEdge (source target : Int)
  | removeEdge (source target : Int)

def run (g : DiGraph) : Op → Except Err DiGraph
  | .addNode v => .ok (g.addNode v)
  | .removeNode v => .ok (g.removeNode v)
  | .addEdge source target => g.addEdge source target
  | .removeEdge source target => g.removeEdge source target

/-- A graph under its operations. One that throws changes nothing. -/
def system : TransitionSystem DiGraph Op where
  Init g := g = init
  Next g op g' := g.run op = .ok g'

/-- What `numV` counts, and what a list of neighbours may hold. -/
structure WellFormed (g : DiGraph) : Prop where
  count : g.numV = g.adj.size
  target : ∀ a b, g.Edge a b → g.hasNode b = true
  nodup : ∀ a, (g.neighbours a).Nodup

/-! ## Lookups -/

section Lookups

variable {g : DiGraph} {u v w : Int}

theorem hasNode_iff : g.hasNode v = true ↔ v ∈ g.adj := TreeMap.contains_iff_mem

theorem Edge.source (h : g.Edge u w) : g.hasNode u = true := by
  rw [hasNode_iff]
  by_contra hnot
  simp [Edge, neighbours, TreeMap.getElem?_eq_none hnot] at h

theorem neighbours_of_not_hasNode (h : g.hasNode v = false) : g.neighbours v = [] := by
  have hnot : v ∉ g.adj := by
    intro hin
    rw [hasNode_iff.mpr hin] at h
    cases h
  simp [neighbours, TreeMap.getElem?_eq_none hnot]

theorem hasNode_addNode : (g.addNode v).hasNode w = true ↔ w = v ∨ g.hasNode w = true := by
  unfold addNode
  split
  case isTrue hv =>
    constructor
    · exact .inr
    · rintro (rfl | hw)
      · exact hv
      · exact hw
  case isFalse =>
    rw [hasNode_iff, hasNode_iff, TreeMap.mem_insert, Std.compare_eq_iff_eq, eq_comm]

theorem hasNode_insert (l : List Int) (hu : g.hasNode u = true) :
    ({ g with adj := g.adj.insert u l } : DiGraph).hasNode w = g.hasNode w := by
  rw [Bool.eq_iff_iff]
  rw [hasNode_iff] at hu
  rw [hasNode_iff, hasNode_iff, TreeMap.mem_insert, Std.compare_eq_iff_eq]
  constructor
  · rintro (rfl | hw)
    · exact hu
    · exact hw
  · exact .inr

theorem hasNode_removeNode :
    (g.removeNode v).hasNode w = true ↔ g.hasNode w = true ∧ w ≠ v := by
  unfold removeNode
  split
  case isTrue =>
    rw [hasNode_iff, hasNode_iff, TreeMap.mem_erase, TreeMap.mem_map, ne_eq,
      Std.compare_eq_iff_eq, and_comm, eq_comm]
  case isFalse hv =>
    constructor
    · intro hw
      refine ⟨hw, ?_⟩
      rintro rfl
      exact hv hw
    · exact And.left

/-- What is left of a list of neighbours. -/
theorem neighbours_removeNode (hg : g.WellFormed) (huv : u ≠ v) :
    (g.removeNode v).neighbours u = (g.neighbours u).takeWhile (· ≠ v) := by
  unfold removeNode
  split
  case isTrue =>
    unfold neighbours
    dsimp only
    rw [getElem?_erase_if, if_neg huv, TreeMap.getElem?_map]
    cases g.adj[u]? <;> rfl
  case isFalse hv =>
    -- a node that does not exist is in no list
    symm
    rw [takeWhile_eq_self_iff]
    intro x hx
    have hxv : x ≠ v := by
      rintro rfl
      exact hv (hg.target u x hx)
    simpa using hxv

theorem neighbours_removeNode_self : (g.removeNode v).neighbours v = [] := by
  apply neighbours_of_not_hasNode
  rw [← Bool.not_eq_true, hasNode_removeNode]
  rintro ⟨-, hv⟩
  exact hv rfl

end Lookups

/-! ## Every graph is well formed -/

theorem wellFormed_init : init.WellFormed := by
  refine ⟨rfl, ?_, ?_⟩
  · intro a b h
    simp [Edge, neighbours, init] at h
  · intro a
    simp [neighbours, init]

namespace WellFormed

variable {g g' : DiGraph} {u v w : Int}

theorem addNode (hg : g.WellFormed) (v : Int) : (g.addNode v).WellFormed := by
  constructor
  · unfold DiGraph.addNode
    split
    case isTrue => exact hg.count
    case isFalse hv =>
      dsimp only
      rw [TreeMap.size_insert, hg.count]
      exact (if_neg hv).symm
  · intro a b hab
    unfold Edge at hab
    rw [neighbours_addNode] at hab
    exact hasNode_addNode.mpr (.inr (hg.target a b hab))
  · intro a
    rw [neighbours_addNode]
    exact hg.nodup a

theorem removeNode (hg : g.WellFormed) (v : Int) : (g.removeNode v).WellFormed := by
  constructor
  · unfold DiGraph.removeNode
    split
    case isTrue hv =>
      rw [TreeMap.size_erase, if_pos (by rwa [TreeMap.contains_map]), TreeMap.size_map,
        hg.count]
    case isFalse => exact hg.count
  · intro a b hab
    have hin : b ∈ g.neighbours a := neighbours_removeNode_subset hab
    rw [hasNode_removeNode]
    refine ⟨hg.target a b hin, ?_⟩
    rintro rfl
    by_cases hav : a = b
    · subst hav
      unfold Edge at hab
      rw [neighbours_removeNode_self] at hab
      cases hab
    · unfold Edge at hab
      rw [neighbours_removeNode hg hav] at hab
      simpa using mem_takeWhile_imp hab
  · intro a
    by_cases hav : a = v
    · rw [hav, neighbours_removeNode_self]
      exact nodup_nil
    · rw [neighbours_removeNode hg hav]
      exact (hg.nodup a).sublist (takeWhile_sublist _)

/-- A node gets another list of neighbours. -/
theorem insert (hg : g.WellFormed) (hu : g.hasNode u = true) {l : List Int} (hl : l.Nodup)
    (hnodes : ∀ x ∈ l, g.hasNode x = true) :
    ({ g with adj := g.adj.insert u l } : DiGraph).WellFormed := by
  constructor
  · dsimp only
    rw [TreeMap.size_insert, hg.count]
    exact (if_pos hu).symm
  · intro a b hab
    rw [hasNode_insert l hu]
    unfold Edge at hab
    rw [neighbours_insert] at hab
    split at hab
    · exact hnodes b hab
    · exact hg.target a b hab
  · intro a
    rw [neighbours_insert]
    split
    · exact hl
    · exact hg.nodup a

theorem addEdge (hg : g.WellFormed) (h : g.addEdge u v = .ok g') : g'.WellFormed := by
  unfold DiGraph.addEdge at h
  rcases guard_eq_ok h with ⟨hu, h⟩
  rcases guard_eq_ok h with ⟨hv, h⟩
  simp only [Bool.not_eq_true', Bool.not_eq_false] at hu hv
  by_cases hmem : v ∈ g.neighbours u
  · rw [if_pos hmem] at h
    cases h
    exact hg
  · rw [if_neg hmem] at h
    cases h
    apply hg.insert hu
    · rw [nodup_append]
      refine ⟨hg.nodup u, by simp, ?_⟩
      intro x hx y hy hxy
      rw [mem_singleton] at hy
      exact hmem (hy ▸ hxy ▸ hx)
    · intro x hx
      rcases mem_append.mp hx with hx | hx
      · exact hg.target u x hx
      · rw [mem_singleton.mp hx]
        exact hv

theorem removeEdge (hg : g.WellFormed) (h : g.removeEdge u v = .ok g') : g'.WellFormed := by
  unfold DiGraph.removeEdge at h
  rcases guard_eq_ok h with ⟨hu, h⟩
  rcases guard_eq_ok h with ⟨-, h⟩
  rcases guard_eq_ok h with ⟨-, h⟩
  simp only [Bool.not_eq_true', Bool.not_eq_false] at hu
  cases h
  apply hg.insert hu
  · exact (hg.nodup u).erase v
  · intro x hx
    exact hg.target u x (mem_of_mem_erase hx)

end WellFormed

theorem wellFormed_of_reachable {g : DiGraph} (h : system.Reachable g) : g.WellFormed := by
  refine h.invariant WellFormed ?_ ?_
  · rintro g rfl
    exact wellFormed_init
  · intro g op g' hg _ hnext
    cases op with
    | addNode v =>
      cases hnext
      exact hg.addNode v
    | removeNode v =>
      cases hnext
      exact hg.removeNode v
    | addEdge u v => exact hg.addEdge hnext
    | removeEdge u v => exact hg.removeEdge hnext

/-! ## Removing a node -/

/-- `g'` is `g` without the node `v` and the edges at it. -/
structure Without (g : DiGraph) (v : Int) (g' : DiGraph) : Prop where
  nodes : ∀ u, g'.hasNode u = true ↔ g.hasNode u = true ∧ u ≠ v
  edges : ∀ a b, g'.Edge a b ↔ g.Edge a b ∧ a ≠ v ∧ b ≠ v

/-- No node got an edge after the one to `v`. -/
def LastEdges (g : DiGraph) (v : Int) : Prop :=
  ∀ a, a ≠ v → g.Edge a v → (g.neighbours a).getLast? = some v

/-- What stands before the first `v`. -/
theorem takeWhile_of_split {v : Int} {before after : List Int}
    (h : (before ++ v :: after).Nodup) :
    (before ++ v :: after).takeWhile (· ≠ v) = before := by
  have hbefore : ∀ x ∈ before, decide (x ≠ v) = true := by
    intro x hx
    have hxv : x ≠ v := (nodup_append.mp h).2.2 x hx v (mem_cons_self ..)
    simpa using hxv
  rw [takeWhile_append_of_pos hbefore]
  simp

/-- Removing a node takes exactly its edges when nothing stands behind them. -/
theorem removeNode_without_iff {g : DiGraph} (hg : system.Reachable g) (v : Int) :
    g.Without v (g.removeNode v) ↔ g.LastEdges v := by
  have hwf := wellFormed_of_reachable hg
  constructor
  · intro hwithout a hav hedge
    rcases append_of_mem hedge with ⟨before, after, hsplit⟩
    have hnodup : (before ++ v :: after).Nodup := hsplit ▸ hwf.nodup a
    -- whatever stands behind `v` would have been lost
    have hafter : after = [] := by
      rw [eq_nil_iff_forall_not_mem]
      intro x hx
      have hxv : x ≠ v := by
        rintro rfl
        exact (nodup_cons.mp (nodup_append.mp hnodup).2.1).1 hx
      have hxmem : g.Edge a x := by
        unfold Edge
        rw [hsplit]
        simp [hx]
      have hkept : x ∈ (g.removeNode v).neighbours a :=
        (hwithout.edges a x).mpr ⟨hxmem, hav, hxv⟩
      rw [neighbours_removeNode hwf hav, hsplit, takeWhile_of_split hnodup] at hkept
      exact (nodup_append.mp hnodup).2.2 x hkept x (mem_cons_of_mem _ hx) rfl
    rw [hsplit, hafter]
    simp
  · intro hlast
    refine ⟨fun u => hasNode_removeNode, ?_⟩
    intro a b
    by_cases hav : a = v
    · subst hav
      unfold Edge
      rw [neighbours_removeNode_self]
      simp
    · unfold Edge
      rw [neighbours_removeNode hwf hav]
      by_cases hedge : g.Edge a v
      · rcases getLast?_eq_some_iff.mp (hlast a hav hedge) with ⟨before, hsplit⟩
        have hnodup : (before ++ [v]).Nodup := hsplit ▸ hwf.nodup a
        rw [hsplit, takeWhile_of_split hnodup, mem_append, mem_singleton]
        constructor
        · intro hb
          exact ⟨.inl hb, hav, (nodup_append.mp hnodup).2.2 b hb v (mem_singleton_self v)⟩
        · rintro ⟨hb | hb, -, hbv⟩
          · exact hb
          · exact absurd hb hbv
      · have hself : (g.neighbours a).takeWhile (· ≠ v) = g.neighbours a := by
          rw [takeWhile_eq_self_iff]
          intro x hx
          have hxv : x ≠ v := by
            rintro rfl
            exact hedge hx
          simpa using hxv
        rw [hself]
        constructor
        · intro hb
          refine ⟨hb, hav, ?_⟩
          rintro rfl
          exact hedge hb
        · exact And.left

/-- The graph after some operations, none of which throws, if it passes `p`. -/
theorem exists_of_run {p : DiGraph → Bool} (ops : List Op)
    (h : TransitionSystem.runMeets (fun g op => (g.run op).toOption) (fun _ _ => true) p ops init =
      true) : ∃ g, system.Reachable g ∧ p g = true := by
  exact TransitionSystem.exists_of_runMeets (fun _ _ _ hnext => ok_of_toOption hnext)
    (fun _ _ _ => trivial) (.init rfl) h

/-- The transaction 1 waits for 2 and then also for 3. When 2 ends, 1 no longer
waits for 3. -/
theorem removeNode_loses_edge :
    ¬ ∀ g : DiGraph, system.Reachable g → ∀ v, g.Without v (g.removeNode v) := by
  intro hall
  have hrun : ∃ g, system.Reachable g ∧
      decide (3 ∈ g.neighbours 1 ∧ 3 ∉ (g.removeNode 2).neighbours 1) = true :=
    exists_of_run [.addNode 1, .addNode 2, .addEdge 1 2, .addNode 3, .addEdge 1 3]
      (by decide +kernel)
  rcases hrun with ⟨g, hg, hlost⟩
  rcases of_decide_eq_true hlost with ⟨hedge, hlost⟩
  exact hlost (((hall g hg 2).edges 1 3).mpr ⟨hedge, by decide, by decide⟩)

theorem removeNode_without_iff_chain :
    ∃ g : DiGraph, system.Reachable g ∧ 2 ∈ g.neighbours 1 ∧
      (g.Without 2 (g.removeNode 2) ↔ g.LastEdges 2) := by
  have hrun : ∃ g, system.Reachable g ∧ decide (2 ∈ g.neighbours 1) = true :=
    exists_of_run [.addNode 1, .addNode 2, .addEdge 1 2] (by decide +kernel)
  rcases hrun with ⟨g, hg, hedge⟩
  exact ⟨g, hg, of_decide_eq_true hedge, removeNode_without_iff hg 2⟩

end DiGraph

end PittCs.Rcdb
