import PittCs.Cs1501.ApFind
import PittCs.Cs1501.UnionFind

/-!
# Two vertices that fail

`connectedTwoVertFail` of `NetAnalysis.java`: one vertex after another is left out, and the
part of the rest that holds vertex 0 (or 1) is searched for an articulation point. When the
vertex that is left out cuts the graph, other parts are not searched; some other vertex then
shows the failure.
-/

namespace PittCs.Cs1501.NetAnalysis

open PittCs.Lib.SpanningTree PittCs.Lib.Separation ApFind List

/-- The loops that add all edges. -/
def unionAll {n : ℕ} : List (Edge n) → UnionFind n → UnionFind n
  | [], u => u
  | nextEdge :: list, u => unionAll list (u.union nextEdge)

/-- `newGraph`: the lists without the edges of a vertex. -/
def newGraph (g : NetAnalysis) (removed : Fin g.nodeCount) : Fin g.nodeCount → List (Edge g.nodeCount) :=
  fun i => (g.graph i).filter fun nextEdge =>
    decide (nextEdge.source ≠ removed ∧ nextEdge.destination ≠ removed)

/-- The vertex where the search starts: 0, or 1 if 0 is removed. -/
def searchRoot (g : NetAnalysis) (h : 3 ≤ g.nodeCount) (removed : Fin g.nodeCount) : Fin g.nodeCount :=
  if removed = ⟨0, by omega⟩ then ⟨1, by omega⟩ else ⟨0, by omega⟩

/-- The loop over the removed vertices: `fails` after it. -/
def failLoop (g : NetAnalysis) (h : 3 ≤ g.nodeCount) : List (Fin g.nodeCount) → Bool → Bool
  | [], fails => fails
  | removed :: vertices, _ =>
    let fails := hasArticulationPoint (g.newGraph removed) (g.searchRoot h removed)
    if fails then fails else failLoop g h vertices fails

/-- `connectedTwoVertFail` -/
def connectedTwoVertFail (g : NetAnalysis) : Except GraphError Bool :=
  if h : 3 ≤ g.nodeCount then do
    let connected ← (unionAll g.allEdges (UnionFind.new g.nodeCount)).connectedGraph
    if !connected.1 then .ok false
    else .ok (!g.failLoop h (finRange g.nodeCount) false)
  else .ok false

/-- The vertices other than two are linked by edges that avoid these. -/
def ConnectedWithout (g : NetAnalysis) (u v : Fin g.nodeCount) : Prop :=
  ∀ a b, (a ≠ u ∧ a ≠ v) → (b ≠ u ∧ b ≠ v) →
    Linked (edgeEnds g.nodeCount) (g.allEdges.filter fun e =>
      decide ((e.source ≠ u ∧ e.source ≠ v) ∧ e.destination ≠ u ∧ e.destination ≠ v)) a b

/-! ## Edges and ways -/

theorem adjacent_symm (g : NetAnalysis) {a b : Fin g.nodeCount} (h : Adjacent g.graph a b) :
    Adjacent g.graph b a := by
  rcases h with ⟨e, he, rfl⟩
  exact ⟨e.getReverse, g.reverse a e he, g.source a e he⟩

/-- The edges between vertices of `S` link what ways inside of `S` join. -/
theorem linked_iff_within (g : NetAnalysis) {S : Fin g.nodeCount → Prop}
    {es : List (Edge g.nodeCount)}
    (hes : ∀ e, e ∈ es ↔ e ∈ g.graph e.source ∧ S e.source ∧ S e.destination)
    {a b : Fin g.nodeCount} :
    Linked (edgeEnds g.nodeCount) es a b ↔ Within (Adjacent g.graph) S a b := by
  constructor
  · intro h
    have hequiv : Equivalence (Within (Adjacent g.graph) S) :=
      ⟨Within.refl, fun hab => hab.symm g.adjacent_symm, Within.trans⟩
    refine h.le hequiv ?_
    intro e he
    have hmem := (hes e).mp he
    exact .step ⟨e, hmem.1, rfl⟩ hmem.2.1 hmem.2.2
  · intro h
    unfold Within at h
    induction h with
    | refl => exact .refl a
    | tail _ hstep ih =>
      rcases hstep with ⟨⟨e, he, rfl⟩, hsource, hdestination⟩
      have hsrc := g.source _ e he
      have hlink : Closes (edgeEnds g.nodeCount) es e := by
        refine closes_of_mem ((hes e).mpr ?_)
        rw [hsrc]
        exact ⟨he, hsource, hdestination⟩
      unfold Closes at hlink
      exact ih.trans (hsrc ▸ hlink)

theorem connected_iff (g : NetAnalysis) :
    g.Connected ↔ ∀ a b, Within (Adjacent g.graph) (fun _ => True) a b := by
  refine forall_congr' fun a => forall_congr' fun b => g.linked_iff_within ?_
  intro e
  rw [mem_allEdges]
  simp

theorem connectedWithout_iff (g : NetAnalysis) (u v : Fin g.nodeCount) :
    g.ConnectedWithout u v ↔ ∀ a b, (a ≠ u ∧ a ≠ v) → (b ≠ u ∧ b ≠ v) →
      Within (Adjacent g.graph) (fun x => x ≠ u ∧ x ≠ v) a b := by
  refine forall_congr' fun a => forall_congr' fun b => imp_congr_right fun _ =>
    imp_congr_right fun _ => g.linked_iff_within ?_
  intro e
  rw [mem_filter, mem_allEdges, decide_eq_true_iff]

theorem adjacent_newGraph (g : NetAnalysis) {removed a b : Fin g.nodeCount} :
    Adjacent (g.newGraph removed) a b ↔ Adjacent g.graph a b ∧ a ≠ removed ∧ b ≠ removed := by
  unfold Adjacent newGraph
  constructor
  · rintro ⟨e, he, rfl⟩
    rw [mem_filter, decide_eq_true_iff] at he
    have hsrc := g.source a e he.1
    exact ⟨⟨e, he.1, rfl⟩, hsrc ▸ he.2.1, he.2.2⟩
  · rintro ⟨⟨e, he, rfl⟩, hne⟩
    refine ⟨e, ?_, rfl⟩
    rw [mem_filter, decide_eq_true_iff, g.source a e he]
    exact ⟨he, hne⟩

/-- Ways in the lists without a vertex are ways that avoid it. -/
theorem within_newGraph (g : NetAnalysis) {removed a b : Fin g.nodeCount}
    {S : Fin g.nodeCount → Prop} :
    Within (Adjacent (g.newGraph removed)) S a b ↔
      Within (Adjacent g.graph) (fun x => x ≠ removed ∧ S x) a b := by
  constructor
  · intro h
    refine h.lift ?_
    intro x y hxy hx hy
    have hadj := g.adjacent_newGraph.mp hxy
    exact ⟨hadj.1, ⟨hadj.2.1, hx⟩, hadj.2.2, hy⟩
  · intro h
    refine h.lift ?_
    intro x y hxy hx hy
    exact ⟨g.adjacent_newGraph.mpr ⟨hxy, hx.1, hy.1⟩, hx.2, hy.2⟩

theorem adjacent_newGraph_symm (g : NetAnalysis) (removed : Fin g.nodeCount) {a b : Fin g.nodeCount}
    (h : Adjacent (g.newGraph removed) a b) : Adjacent (g.newGraph removed) b a := by
  have hadj := g.adjacent_newGraph.mp h
  exact g.adjacent_newGraph.mpr ⟨g.adjacent_symm hadj.1, hadj.2.2, hadj.2.1⟩

/-! ## The search for each removed vertex -/

theorem searchRoot_ne (g : NetAnalysis) (h : 3 ≤ g.nodeCount) (removed : Fin g.nodeCount) :
    g.searchRoot h removed ≠ removed := by
  unfold searchRoot
  split
  case isTrue hzero =>
    rw [hzero]
    intro he
    have hval := congrArg Fin.val he
    exact Nat.one_ne_zero hval
  case isFalse hne => exact fun he => hne he.symm

/-- An articulation point that is found disconnects the graph together with the vertex. -/
theorem not_connectedWithout_of_found (g : NetAnalysis) (h : 3 ≤ g.nodeCount)
    {removed : Fin g.nodeCount}
    (hfound : hasArticulationPoint (g.newGraph removed) (g.searchRoot h removed) = true) :
    ∃ c, removed ≠ c ∧ ¬ g.ConnectedWithout removed c := by
  have hspec := hasArticulationPoint_spec (g.adjacent_newGraph_symm removed) (g.searchRoot h removed)
  rcases hspec.1 hfound with ⟨c, a, b, hac, hbc, hjoined, hcut⟩
  rw [within_newGraph] at hjoined hcut
  have hab : a ≠ b := by
    rintro rfl
    exact hcut (.refl a)
  rcases hjoined.mem_of_ne hab with ⟨⟨har, -⟩, hbr, -⟩
  refine ⟨c, ?_, ?_⟩
  · rintro rfl
    exact hcut (hjoined.mono fun x hx => ⟨hx.1, hx.1⟩)
  · rw [connectedWithout_iff]
    exact fun hall => hcut (hall a b ⟨har, hac⟩ ⟨hbr, hbc⟩)

/-- If the graph is disconnected by two vertices, an articulation point is found. -/
theorem exists_found (g : NetAnalysis) (h : 3 ≤ g.nodeCount) (hconnected : g.Connected)
    {u v : Fin g.nodeCount} (huv : u ≠ v) (hno : ¬ g.ConnectedWithout u v) :
    ∃ removed, hasArticulationPoint (g.newGraph removed) (g.searchRoot h removed) = true := by
  rw [connectedWithout_iff] at hno
  push Not at hno
  rcases hno with ⟨a, b, ha, hb, hab⟩
  -- one of the pair may be a vertex that leaves the rest connected
  rcases exists_pair_of_separated g.adjacent_symm (g.connected_iff.mp hconnected) huv ha.1 ha.2 hb.1
    hb.2 hab with ⟨removed, c, x, y, -, hxr, hxc, hyr, hyc, hrest, hxy⟩
  refine ⟨removed, ?_⟩
  by_contra hfalse
  have hspec := hasArticulationPoint_spec (g.adjacent_newGraph_symm removed) (g.searchRoot h removed)
  have hroot : ∀ z, z ≠ removed → Within (Adjacent (g.newGraph removed)) (fun _ => True)
      (g.searchRoot h removed) z := by
    intro z hz
    rw [within_newGraph]
    exact (hrest _ z (g.searchRoot_ne h removed) hz).mono fun w hw => ⟨hw, trivial⟩
  have hway := hspec.2 (Bool.eq_false_iff.mpr hfalse) c x y hxc hyc (hroot x hxr) (hroot y hyr)
  rw [within_newGraph] at hway
  exact hxy hway

theorem failLoop_iff (g : NetAnalysis) (h : 3 ≤ g.nodeCount) (vertices : List (Fin g.nodeCount)) :
    g.failLoop h vertices false = true ↔ ∃ removed ∈ vertices,
      hasArticulationPoint (g.newGraph removed) (g.searchRoot h removed) = true := by
  induction vertices with
  | nil => simp [failLoop]
  | cons removed vertices ih =>
    unfold failLoop
    dsimp only
    cases hfound : hasArticulationPoint (g.newGraph removed) (g.searchRoot h removed) with
    | true => simp [hfound]
    | false =>
      rw [if_neg Bool.false_ne_true, ih]
      simp [hfound]

theorem linkedBy_unionAll {n : ℕ} (list : List (Edge n)) {u : UnionFind n} {es : List (Edge n)}
    (h : u.LinkedBy es) : (unionAll list u).LinkedBy (list.reverse ++ es) := by
  induction list generalizing u es with
  | nil => exact h
  | cons e list ih =>
    unfold unionAll
    rw [reverse_cons, append_assoc, singleton_append]
    exact ih (h.union e)

/-- The answer for a graph with three vertices. -/
theorem connectedTwoVertFail_right (g : NetAnalysis) (h : 3 ≤ g.nodeCount) :
    ∃ answer, g.connectedTwoVertFail = .ok answer ∧
      (answer = true ↔ g.Connected ∧ ∀ u v, u ≠ v → g.ConnectedWithout u v) := by
  have hlinked : (unionAll g.allEdges (UnionFind.new g.nodeCount)).LinkedBy g.allEdges :=
    (linkedBy_unionAll g.allEdges UnionFind.linkedBy_new).of_subset (by simp) (by simp)
  rcases UnionFind.connectedGraph_spec hlinked (by omega) with ⟨u', hanswer, hspans⟩
  unfold connectedTwoVertFail
  rw [dif_pos h, hanswer]
  by_cases hconnected : g.Connected
  · have hroots := hspans.mpr hconnected
    refine ⟨!g.failLoop h (finRange g.nodeCount) false, ?_, ?_⟩
    · rw [decide_eq_true hroots]
      rfl
    · rw [Bool.not_eq_true', ← Bool.not_eq_true, failLoop_iff]
      constructor
      · intro hnone
        refine ⟨hconnected, ?_⟩
        intro u v huv
        by_contra hno
        rcases g.exists_found h hconnected huv hno with ⟨removed, hfound⟩
        exact hnone ⟨removed, mem_finRange removed, hfound⟩
      · rintro ⟨-, hall⟩ ⟨removed, -, hfound⟩
        rcases g.not_connectedWithout_of_found h hfound with ⟨c, hne, hno⟩
        exact hno (hall removed c hne)
  · have hroots : ¬ ∀ a b, (unionAll g.allEdges (UnionFind.new g.nodeCount)).root a =
        (unionAll g.allEdges (UnionFind.new g.nodeCount)).root b :=
      fun hall => hconnected (hspans.mp hall)
    refine ⟨false, ?_, ?_⟩
    · rw [decide_eq_false hroots]
      rfl
    · exact ⟨fun hfalse => absurd hfalse Bool.false_ne_true, fun hall => absurd hall.1 hconnected⟩

theorem connectedTwoVertFail_right_threeInLine : 3 ≤ threeInLine.nodeCount ∧
    ∃ answer, threeInLine.connectedTwoVertFail = .ok answer ∧
      (answer = true ↔ threeInLine.Connected ∧
        ∀ u v, u ≠ v → threeInLine.ConnectedWithout u v) :=
  ⟨le_refl 3, connectedTwoVertFail_right threeInLine (le_refl 3)⟩

end PittCs.Cs1501.NetAnalysis
