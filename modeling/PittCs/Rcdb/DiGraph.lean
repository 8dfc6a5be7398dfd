import Mathlib.Data.List.Basic
import PittCs.Lib.TreeMap
import PittCs.Rcdb.Basic
import Mathlib.Order.WellFounded
import PittCs.Lib.Outcome

/-!
# The deadlock detector

`DiGraph.cpp` and `DeadlockDetector.cpp`. The cycle search keeps two vectors of
`numV` entries and indexes them with transaction ids, so an id outside
`0 .. numV - 1` is undefined behaviour.
-/

namespace PittCs.Rcdb

open Std PittCs.Lib List

/-- `class DiGraph`. -/
structure DiGraph where
  numV : Nat
  adj : TreeMap Int (List Int)

/-- The vectors `visited` and `inStack` of the cycle search. -/
structure Marks where
  visited : Int → Bool
  inStack : Int → Bool

namespace DiGraph

def init : DiGraph := ⟨0, ∅⟩

def hasNode (g : DiGraph) (v : Int) : Bool := g.adj.contains v

/-- `adj[V]`. -/
def neighbours (g : DiGraph) (v : Int) : List Int := (g.adj[v]?).getD []

/-- `DiGraph::addNode`. -/
def addNode (g : DiGraph) (v : Int) : DiGraph :=
  if g.hasNode v then g else ⟨g.numV + 1, g.adj.insert v []⟩

/-- `DiGraph::removeNode`. From every other list it erases the first `V` and all
that stands behind it. -/
def removeNode (g : DiGraph) (v : Int) : DiGraph :=
  if g.hasNode v then
    ⟨g.numV - 1, (g.adj.map fun _ out => out.takeWhile (· ≠ v)).erase v⟩
  else g

/-- `DiGraph::addEdge`. -/
def addEdge (g : DiGraph) (source target : Int) : Except Err DiGraph := do
  if !g.hasNode source then throw (.literal "ADD_EDGE = Source node does not exist")
  if !g.hasNode target then throw (.literal "ADD_EDGE = Destination node does not exist")
  if target ∈ g.neighbours source then return g
  return { g with adj := g.adj.insert source (g.neighbours source ++ [target]) }

/-- `DiGraph::removeEdge`. -/
def removeEdge (g : DiGraph) (source target : Int) : Except Err DiGraph := do
  if !g.hasNode source then throw (.literal "REMOVE_EDGE = Source node does not exist")
  if !g.hasNode target then throw (.literal "REMOVE_EDGE = Destination node does not exist")
  if target ∉ g.neighbours source then throw (.literal "Edge does not exist")
  return { g with adj := g.adj.insert source ((g.neighbours source).erase target) }

/-- The index `v` into a vector of `numV` entries. -/
def checkIndex (g : DiGraph) (v : Int) : Except Err Unit :=
  if 0 ≤ v ∧ v < g.numV then .ok ()
  else .error (.undefinedBehaviour "index out of the vectors of hasCycles")

/-- The loop of `DFSForCycle` over the adjacent nodes. -/
def dfsEdges (g : DiGraph) (dfs : Int → Marks → Except Err (Bool × Marks)) :
    List Int → Marks → Except Err (Bool × Marks)
  | [], m => .ok (false, m)
  | v :: rest, m => do
    g.checkIndex v
    if m.visited v then
      if m.inStack v then return (true, m)
      dfsEdges g dfs rest m
    else
      let (found, m) ← dfs v m
      if found then return (true, m)
      if m.inStack v then return (true, m)
      dfsEdges g dfs rest m

/-- `DiGraph::DFSForCycle`. Every call marks one more node, so the depth is at
most the number of nodes. -/
def dfsForCycle (g : DiGraph) : Nat → Int → Marks → Except Err (Bool × Marks)
  | 0, _, _ => .error (.undefinedBehaviour "recursion deeper than the number of nodes")
  | depth + 1, v, m => do
    g.checkIndex v
    if m.visited v then
      return (false, { m with inStack := fun u => if u = v then false else m.inStack u })
    else
      let m : Marks :=
        ⟨fun u => if u = v then true else m.visited u, fun u => if u = v then true else m.inStack u⟩
      let (found, m) ← g.dfsEdges (g.dfsForCycle depth) (g.neighbours v) m
      if found then return (true, m)
      return (false, { m with inStack := fun u => if u = v then false else m.inStack u })

/-- The loop of `hasCycles` over the nodes. -/
def hasCyclesLoop (g : DiGraph) : List Int → Marks → Except Err Bool
  | [], _ => .ok false
  | v :: rest, m => do
    g.checkIndex v
    if m.visited v then hasCyclesLoop g rest m
    else
      let (found, m) ← g.dfsForCycle (g.adj.size + 1) v m
      if found then return true
      hasCyclesLoop g rest m

/-- `DiGraph::hasCycles`. -/
def hasCycles (g : DiGraph) : Except Err Bool :=
  g.hasCyclesLoop g.adj.keys ⟨fun _ => false, fun _ => false⟩

/-- `DeadlockDetector::waitFor`: the graph afterwards, and whether there is no
cycle. -/
def waitFor (g : DiGraph) (waiting waitingFor : Int) : Except Err (DiGraph × Bool) := do
  let g := (g.addNode waiting).addNode waitingFor
  let g ← g.addEdge waiting waitingFor
  if ← g.hasCycles then
    let g ← g.removeEdge waiting waitingFor
    return (g, false)
  return (g, true)

/-- The loops over the dependencies of a refused request: they stop at the first
cycle. -/
def waitForAll (waiting : Int) : List Int → DiGraph → Except Err (DiGraph × Bool)
  | [], g => .ok (g, true)
  | u :: rest, g => do
    let (g, ok) ← g.waitFor waiting u
    if ok then waitForAll waiting rest g else return (g, false)

end DiGraph

/-!
## What the deadlock detector knows

A search that finds no cycle shows that there is none, so the graph stays acyclic
as long as `waitFor` reports none. One lemma per operation says which edges it
adds or loses.
-/

namespace DiGraph

/-- `a` waits for `b`. -/
def Edge (g : DiGraph) (a b : Int) : Prop := b ∈ g.neighbours a

def Acyclic (g : DiGraph) : Prop := ∀ a, ¬ Relation.TransGen g.Edge a a

theorem Acyclic.of_edge {g g' : DiGraph} (h : g.Acyclic) (hsub : ∀ a b, g'.Edge a b → g.Edge a b) :
    g'.Acyclic := by
  intro a hcycle
  exact h a (Relation.TransGen.mono hsub a a hcycle)

/-! ## The search -/

/-- A node whose search is over. -/
def Done (m : Marks) (v : Int) : Prop := m.visited v = true ∧ m.inStack v = false

/-- From a node whose search is over no infinite path starts. -/
def Explored (g : DiGraph) (m : Marks) : Prop := ∀ v, Done m v → Acc (fun b a => g.Edge a b) v

/-- The marks a search leaves. -/
structure Later (m m' : Marks) : Prop where
  visited : ∀ v, m.visited v = true → m'.visited v = true
  done : ∀ v, Done m v → Done m' v
  fresh : ∀ v, m'.visited v = true → m.visited v = false → Done m' v

theorem Later.refl (m : Marks) : Later m m := by
  refine ⟨fun _ h => h, fun _ h => h, ?_⟩
  intro v hv hv'
  rw [hv] at hv'
  cases hv'

theorem Later.trans {m₁ m₂ m₃ : Marks} (h : Later m₁ m₂) (h' : Later m₂ m₃) : Later m₁ m₃ := by
  constructor
  · intro v hv
    exact h'.visited v (h.visited v hv)
  · intro v hv
    exact h'.done v (h.done v hv)
  · intro v hv hv₁
    cases hv₂ : m₂.visited v with
    | true => exact h'.done v (h.fresh v hv₂ hv₁)
    | false => exact h'.fresh v hv hv₂

/-- What a search from one node establishes when it finds no cycle. -/
def Searches (g : DiGraph) (dfs : Int → Marks → Except Err (Bool × Marks)) : Prop :=
  ∀ v m m', dfs v m = .ok (false, m') → m.visited v = false → Explored g m →
    Explored g m' ∧ Later m m' ∧ Done m' v

theorem dfsEdges_spec {g : DiGraph} {dfs : Int → Marks → Except Err (Bool × Marks)}
    (hdfs : Searches g dfs) {l : List Int} {m m' : Marks}
    (h : g.dfsEdges dfs l m = .ok (false, m')) (hm : Explored g m) :
    Explored g m' ∧ Later m m' ∧ ∀ v ∈ l, Done m' v := by
  induction l generalizing m with
  | nil =>
    cases h
    exact ⟨hm, .refl _, by simp⟩
  | cons v rest ih =>
    unfold dfsEdges at h
    rcases bind_eq_ok.mp h with ⟨_, -, h⟩
    cases hv : m.visited v with
    | true =>
      rw [hv] at h
      cases hs : m.inStack v with
      | true =>
        rw [hs] at h
        cases h
      | false =>
        rw [hs] at h
        rcases ih h hm with ⟨hm', hlater, hrest⟩
        refine ⟨hm', hlater, ?_⟩
        intro u hu
        rcases mem_cons.mp hu with rfl | hu
        · exact hlater.done u ⟨hv, hs⟩
        · exact hrest u hu
    | false =>
      rw [hv] at h
      rcases bind_eq_ok.mp h with ⟨⟨found, m₁⟩, hfound, h⟩
      cases found with
      | true => cases h
      | false =>
        cases hs : m₁.inStack v with
        | true =>
          simp only [hs] at h
          cases h
        | false =>
          simp only [hs] at h
          rcases hdfs v m m₁ hfound hv hm with ⟨hm₁, hlater₁, hdone⟩
          rcases ih h hm₁ with ⟨hm', hlater, hrest⟩
          refine ⟨hm', hlater₁.trans hlater, ?_⟩
          intro u hu
          rcases mem_cons.mp hu with rfl | hu
          · exact hlater.done u hdone
          · exact hrest u hu

theorem dfsForCycle_spec (g : DiGraph) (depth : Nat) : Searches g (g.dfsForCycle depth) := by
  induction depth with
  | zero =>
    intro v m m' h
    cases h
  | succ depth ih =>
    intro v m m' h hv hm
    unfold dfsForCycle at h
    rcases bind_eq_ok.mp h with ⟨_, -, h⟩
    rw [hv] at h
    rcases bind_eq_ok.mp h with ⟨⟨found, m₁⟩, hedges, h⟩
    cases found with
    | true => cases h
    | false =>
      cases h
      -- `v` itself is in the stack while its edges are followed
      have hmark : Explored g ⟨fun u => if u = v then true else m.visited u,
          fun u => if u = v then true else m.inStack u⟩ := by
        intro u hu
        unfold Done at hu
        by_cases huv : u = v
        · simp [huv] at hu
        · simp only [if_neg huv] at hu
          exact hm u hu
      rcases dfsEdges_spec ih hedges hmark with ⟨hm₁, hlater, hdone⟩
      have hacc : Acc (fun b a => g.Edge a b) v :=
        .intro v fun w hw => hm₁ w (hdone w hw)
      have hvisited : m₁.visited v = true := hlater.visited v (by simp)
      refine ⟨?_, ⟨?_, ?_, ?_⟩, ?_⟩
      · intro u hu
        by_cases huv : u = v
        · rw [huv]
          exact hacc
        · unfold Done at hu
          simp only [if_neg huv] at hu
          exact hm₁ u hu
      · intro u hu
        refine hlater.visited u ?_
        dsimp only
        split
        · rfl
        · exact hu
      · intro u hu
        have huv : u ≠ v := by
          rintro rfl
          rw [hu.1] at hv
          cases hv
        have := hlater.done u ⟨by simpa [huv] using hu.1, by simpa [huv] using hu.2⟩
        exact ⟨this.1, by simpa [huv] using this.2⟩
      · intro u hu hu'
        by_cases huv : u = v
        · rw [huv]
          exact ⟨hvisited, by simp⟩
        · have := hlater.fresh u hu (by simpa [huv] using hu')
          exact ⟨this.1, by simpa [huv] using this.2⟩
      · exact ⟨hvisited, by simp⟩

theorem hasCyclesLoop_spec {g : DiGraph} {l : List Int} {m : Marks}
    (h : g.hasCyclesLoop l m = .ok false) (hm : Explored g m)
    (hstack : ∀ v, m.visited v = true → Done m v) :
    ∀ v ∈ l, Acc (fun b a => g.Edge a b) v := by
  induction l generalizing m with
  | nil => simp
  | cons v rest ih =>
    unfold hasCyclesLoop at h
    rcases bind_eq_ok.mp h with ⟨_, -, h⟩
    cases hv : m.visited v with
    | true =>
      rw [hv] at h
      intro u hu
      rcases mem_cons.mp hu with rfl | hu
      · exact hm u (hstack u hv)
      · exact ih h hm hstack u hu
    | false =>
      rw [hv] at h
      rcases bind_eq_ok.mp h with ⟨⟨found, m₁⟩, hfound, h⟩
      cases found with
      | true => cases h
      | false =>
        rcases dfsForCycle_spec g _ v m m₁ hfound hv hm with ⟨hm₁, hlater, hdone⟩
        have hstack₁ : ∀ u, m₁.visited u = true → Done m₁ u := by
          intro u hu
          cases hu' : m.visited u with
          | true => exact hlater.done u (hstack u hu')
          | false => exact hlater.fresh u hu hu'
        intro u hu
        rcases mem_cons.mp hu with rfl | hu
        · exact hm₁ u hdone
        · exact ih h hm₁ hstack₁ u hu

/-- A search that finds no cycle is right. -/
theorem acyclic_of_hasCycles {g : DiGraph} (h : g.hasCycles = .ok false) : g.Acyclic := by
  have hkeys : ∀ v ∈ g.adj.keys, Acc (fun b a => g.Edge a b) v := by
    refine hasCyclesLoop_spec h ?_ ?_
    · rintro v ⟨hv, -⟩
      cases hv
    · intro v hv
      cases hv
  have hacc : ∀ v, Acc (fun b a => g.Edge a b) v := by
    intro v
    by_cases hmem : v ∈ g.adj.keys
    · exact hkeys v hmem
    · -- a node without an entry has no edges
      refine .intro v fun w hw => ?_
      have hnone : g.adj[v]? = none := TreeMap.getElem?_eq_none fun hin =>
        hmem (TreeMap.mem_keys.mpr hin)
      simp [Edge, neighbours, hnone] at hw
  intro a hcycle
  have hwf : WellFounded (Relation.TransGen fun b a => g.Edge a b) :=
    WellFounded.transGen ⟨hacc⟩
  have hback : Relation.TransGen (fun b a => g.Edge a b) a a :=
    Relation.transGen_swap.mpr hcycle
  exact hwf.asymmetric a a hback hback

/-! ## Edges -/

section Edges

variable (g : DiGraph) (u v w : Int)

@[simp] theorem neighbours_addNode : (g.addNode v).neighbours w = g.neighbours w := by
  unfold addNode
  split
  · rfl
  case isFalse hnot =>
    unfold neighbours
    rw [getElem?_insert_if]
    split
    case isTrue heq =>
      have hnone : g.adj[w]? = none := TreeMap.getElem?_eq_none fun hin => hnot (heq ▸ hin)
      rw [hnone]
      rfl
    case isFalse => rfl

/-- Removing a node may lose edges, and never adds one. -/
theorem neighbours_removeNode_subset {g : DiGraph} {v u w : Int}
    (h : w ∈ (g.removeNode v).neighbours u) : w ∈ g.neighbours u := by
  unfold removeNode at h
  split at h
  · unfold neighbours at h ⊢
    rw [getElem?_erase_if] at h
    split at h
    · cases h
    · rw [TreeMap.getElem?_map] at h
      rcases hout : g.adj[u]? with _ | out
      · rw [hout] at h
        cases h
      · rw [hout] at h
        exact takeWhile_subset _ h
  · exact h

theorem Acyclic.removeNode {g : DiGraph} (h : g.Acyclic) (v : Int) : (g.removeNode v).Acyclic :=
  h.of_edge fun _ _ => neighbours_removeNode_subset

theorem neighbours_insert (l : List Int) :
    ({ g with adj := g.adj.insert u l } : DiGraph).neighbours w =
      if w = u then l else g.neighbours w := by
  unfold neighbours
  dsimp only
  rw [getElem?_insert_if]
  split <;> rfl

end Edges

/-- An edge is added once. -/
theorem addEdge_spec {g g' : DiGraph} {a b : Int} (h : g.addEdge a b = .ok g') :
    (∀ x, x ≠ a → g'.neighbours x = g.neighbours x) ∧
      g'.neighbours a = if b ∈ g.neighbours a then g.neighbours a else g.neighbours a ++ [b] := by
  unfold addEdge at h
  rcases guard_eq_ok h with ⟨-, h⟩
  rcases guard_eq_ok h with ⟨-, h⟩
  by_cases hmem : b ∈ g.neighbours a
  · rw [if_pos hmem] at h
    cases h
    exact ⟨fun _ _ => rfl, by rw [if_pos hmem]⟩
  · rw [if_neg hmem] at h
    cases h
    constructor
    · intro x hx
      rw [neighbours_insert, if_neg hx]
    · rw [neighbours_insert, if_pos rfl, if_neg hmem]

theorem removeEdge_spec {g g' : DiGraph} {a b : Int} (h : g.removeEdge a b = .ok g') :
    (∀ x, x ≠ a → g'.neighbours x = g.neighbours x) ∧
      g'.neighbours a = (g.neighbours a).erase b := by
  unfold removeEdge at h
  rcases guard_eq_ok h with ⟨-, h⟩
  rcases guard_eq_ok h with ⟨-, h⟩
  rcases guard_eq_ok h with ⟨-, h⟩
  cases h
  constructor
  · intro x hx
    rw [neighbours_insert, if_neg hx]
  · rw [neighbours_insert, if_pos rfl]

/-! ## Waiting -/

/-- What the graph says of the other nodes stays, and nothing closes a cycle. -/
structure Waited (g : DiGraph) (a : Int) (g' : DiGraph) : Prop where
  others : ∀ x, x ≠ a → g'.neighbours x = g.neighbours x
  acyclic : g.Acyclic → g'.Acyclic

theorem Waited.trans {g g₁ g₂ : DiGraph} {a : Int} (h : Waited g a g₁) (h' : Waited g₁ a g₂) :
    Waited g a g₂ :=
  ⟨fun x hx => (h'.others x hx).trans (h.others x hx), fun hg => h'.acyclic (h.acyclic hg)⟩

theorem waitFor_spec {g g' : DiGraph} {a b : Int} {ok : Bool}
    (h : g.waitFor a b = .ok (g', ok)) :
    Waited g a g' ∧ (ok = true → ∀ x, x ∈ g.neighbours a ∨ x = b → x ∈ g'.neighbours a) := by
  unfold waitFor at h
  rcases bind_eq_ok.mp h with ⟨g₁, hadd, h⟩
  rcases bind_eq_ok.mp h with ⟨found, hcycles, h⟩
  rcases addEdge_spec hadd with ⟨hothers, hedge⟩
  simp only [neighbours_addNode] at hothers hedge
  cases found with
  | false =>
    cases h
    refine ⟨⟨hothers, fun _ => acyclic_of_hasCycles hcycles⟩, ?_⟩
    intro _ x hx
    rw [hedge]
    split
    case isTrue hmem =>
      rcases hx with hx | rfl
      · exact hx
      · exact hmem
    case isFalse => simpa using hx
  | true =>
    rcases bind_eq_ok.mp h with ⟨g₂, hremove, h⟩
    cases h
    rcases removeEdge_spec hremove with ⟨hothers₂, herase⟩
    refine ⟨⟨fun x hx => (hothers₂ x hx).trans (hothers x hx), ?_⟩, by simp⟩
    intro hg
    -- what is left was there before
    refine hg.of_edge ?_
    intro x y hxy
    unfold Edge at hxy ⊢
    by_cases hx : x = a
    · subst hx
      rw [herase, hedge] at hxy
      split at hxy
      · exact mem_of_mem_erase hxy
      case isFalse hmem =>
        rw [erase_append_right _ hmem] at hxy
        simpa using hxy
    · rw [hothers₂ x hx, hothers x hx] at hxy
      exact hxy

theorem waitForAll_spec {g g' : DiGraph} {a : Int} {deps : List Int} {ok : Bool}
    (h : waitForAll a deps g = .ok (g', ok)) :
    Waited g a g' ∧ (ok = true → ∀ x, x ∈ g.neighbours a ∨ x ∈ deps → x ∈ g'.neighbours a) := by
  induction deps generalizing g with
  | nil =>
    cases h
    exact ⟨⟨fun _ _ => rfl, id⟩, by simp⟩
  | cons b deps ih =>
    unfold waitForAll at h
    rcases bind_eq_ok.mp h with ⟨⟨g₁, ok₁⟩, hwait, h⟩
    rcases waitFor_spec hwait with ⟨hwaited, hmem⟩
    cases ok₁ with
    | false =>
      cases h
      exact ⟨hwaited, by simp⟩
    | true =>
      rcases ih h with ⟨hwaited', hmem'⟩
      refine ⟨hwaited.trans hwaited', ?_⟩
      intro hok x hx
      refine hmem' hok x ?_
      rcases hx with hx | hx
      · exact .inl (hmem rfl x (.inl hx))
      · rcases mem_cons.mp hx with rfl | hx
        · exact .inl (hmem rfl x (.inr rfl))
        · exact .inr hx

end DiGraph

end PittCs.Rcdb
