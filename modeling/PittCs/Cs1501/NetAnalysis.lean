import Mathlib.Algebra.Order.Ring.Unbundled.Rat

/-!
# Network graphs

`NetAnalysis.java` with `Edge.java` and `AdjList.java`: an undirected graph as an array of
adjacency lists, with each edge in the list of its source and its reverse in the list of
its destination. Lengths and latencies are exact numbers. `bandwidthAlongPath` is here
too, with the exceptions it may end in.
-/

namespace PittCs.Cs1501

open List

/-- `Integer.MAX_VALUE`. -/
def maxInt : ℤ := 2147483647

/-- `Edge`, between two of `n` vertices; the bandwidth is an `int`. -/
structure Edge (n : ℕ) where
  source : Fin n
  destination : Fin n
  copper : Bool
  bandwidth : ℤ
  length : ℚ
  bandwidth_le : bandwidth ≤ maxInt
deriving DecidableEq

namespace Edge

variable {n : ℕ}

/-- `getLatency`, with the speeds `COPPER` and `OPTICAL`. -/
def getLatency (e : Edge n) : ℚ :=
  if e.copper then e.length / 230000000 else e.length / 200000000

/-- `getReverse` -/
def getReverse (e : Edge n) : Edge n := { e with source := e.destination, destination := e.source }

end Edge

/-- The exceptions of the methods. -/
inductive GraphError where
  | illegalArgument (message : String)
  | arrayIndexOutOfBounds (index : ℤ)
  | nullPointer
deriving DecidableEq

/-- `AdjList.get` -/
def AdjList.get {n : ℕ} (list : List (Edge n)) (index : ℕ) : Except GraphError (Edge n) :=
  if h : index < list.length then .ok list[index]
  else .error (.illegalArgument "index out of bounds")

/-- `NetAnalysis`: what its constructor sees to. -/
structure NetAnalysis where
  nodeCount : ℕ
  graph : Fin nodeCount → List (Edge nodeCount)
  source : ∀ i, ∀ e ∈ graph i, e.source = i
  reverse : ∀ i, ∀ e ∈ graph i, e.getReverse ∈ graph e.destination

namespace NetAnalysis

/-! ## The constructor -/

/-- The edge and its reverse at the ends of two adjacency lists. -/
def insertEdge {n : ℕ} (graph : Fin n → List (Edge n)) (e : Edge n) : Fin n → List (Edge n) :=
  let graph := Function.update graph e.source (graph e.source ++ [e])
  Function.update graph e.destination (graph e.destination ++ [e.getReverse])

theorem mem_insertEdge {n : ℕ} {graph : Fin n → List (Edge n)} {e e' : Edge n} {i : Fin n} :
    e' ∈ insertEdge graph e i ↔
      e' ∈ graph i ∨ (e' = e ∧ i = e.source) ∨ (e' = e.getReverse ∧ i = e.destination) := by
  have happ : ∀ (g : Fin n → List (Edge n)) (j : Fin n) (x : Edge n),
      e' ∈ Function.update g j (g j ++ [x]) i ↔ e' ∈ g i ∨ (e' = x ∧ i = j) := by
    intro g j x
    by_cases hij : i = j
    · rw [hij, Function.update_self, mem_append, mem_singleton]
      simp
    · rw [Function.update_of_ne hij]
      simp [hij]
  unfold insertEdge
  rw [happ, happ, or_assoc]

theorem source_insertEdge {n : ℕ} {graph : Fin n → List (Edge n)} (e : Edge n)
    (h : ∀ i, ∀ e' ∈ graph i, e'.source = i) : ∀ i, ∀ e' ∈ insertEdge graph e i, e'.source = i := by
  intro i e' he'
  rcases mem_insertEdge.mp he' with he' | ⟨rfl, rfl⟩ | ⟨rfl, rfl⟩
  · exact h i e' he'
  · rfl
  · rfl

theorem reverse_insertEdge {n : ℕ} {graph : Fin n → List (Edge n)} (e : Edge n)
    (h : ∀ i, ∀ e' ∈ graph i, e'.getReverse ∈ graph e'.destination) :
    ∀ i, ∀ e' ∈ insertEdge graph e i, e'.getReverse ∈ insertEdge graph e e'.destination := by
  intro i e' he'
  rw [mem_insertEdge]
  rcases mem_insertEdge.mp he' with he' | ⟨rfl, rfl⟩ | ⟨rfl, rfl⟩
  · exact Or.inl (h i e' he')
  · exact Or.inr (Or.inr ⟨rfl, rfl⟩)
  · exact Or.inr (Or.inl ⟨rfl, rfl⟩)

/-- The graph without edges. -/
def empty (nodeCount : ℕ) : NetAnalysis where
  nodeCount := nodeCount
  graph _ := []
  source _ _ h := absurd h not_mem_nil
  reverse _ _ h := absurd h not_mem_nil

/-- The lines of a file that starts with the number of nodes. -/
def addEdges (nodeCount : ℕ) (lines : List (Edge nodeCount)) : Fin nodeCount → List (Edge nodeCount) :=
  lines.foldl insertEdge (empty nodeCount).graph

theorem source_addEdges {n : ℕ} (lines : List (Edge n)) :
    ∀ i, ∀ e ∈ addEdges n lines i, e.source = i := by
  have hfold : ∀ (lines : List (Edge n)) (graph : Fin n → List (Edge n)),
      (∀ i, ∀ e ∈ graph i, e.source = i) → ∀ i, ∀ e ∈ lines.foldl insertEdge graph i, e.source = i := by
    intro lines
    induction lines with
    | nil => exact fun _ h => h
    | cons e lines ih => exact fun _ h => ih _ (source_insertEdge e h)
  exact hfold lines _ (empty n).source

theorem reverse_addEdges {n : ℕ} (lines : List (Edge n)) :
    ∀ i, ∀ e ∈ addEdges n lines i, e.getReverse ∈ addEdges n lines e.destination := by
  have hfold : ∀ (lines : List (Edge n)) (graph : Fin n → List (Edge n)),
      (∀ i, ∀ e ∈ graph i, e.getReverse ∈ graph e.destination) →
      ∀ i, ∀ e ∈ lines.foldl insertEdge graph i, e.getReverse ∈ lines.foldl insertEdge graph e.destination := by
    intro lines
    induction lines with
    | nil => exact fun _ h => h
    | cons e lines ih => exact fun _ h => ih _ (reverse_insertEdge e h)
  exact hfold lines _ (empty n).reverse

/-- The constructor, for the parsed lines of a file. -/
def ofLines (nodeCount : ℕ) (lines : List (Edge nodeCount)) : NetAnalysis where
  nodeCount := nodeCount
  graph := addEdges nodeCount lines
  source := source_addEdges lines
  reverse := reverse_addEdges lines

/-- The edges of the graph are the lines and their reverses. -/
theorem mem_addEdges {n : ℕ} {lines : List (Edge n)} {i : Fin n} {e : Edge n}
    (h : e ∈ addEdges n lines i) : e ∈ lines ∨ e.getReverse ∈ lines := by
  have hfold : ∀ (lines : List (Edge n)) (graph : Fin n → List (Edge n)),
      e ∈ lines.foldl insertEdge graph i → e ∈ graph i ∨ e ∈ lines ∨ e.getReverse ∈ lines := by
    intro lines
    induction lines with
    | nil => exact fun _ h => Or.inl h
    | cons e' lines ih =>
      intro graph h
      rcases ih _ h with hmem | hmem | hmem
      · rcases mem_insertEdge.mp hmem with hmem | ⟨rfl, -⟩ | ⟨rfl, -⟩
        · exact Or.inl hmem
        · exact Or.inr (Or.inl mem_cons_self)
        · exact Or.inr (Or.inr mem_cons_self)
      · exact Or.inr (Or.inl (mem_cons_of_mem e' hmem))
      · exact Or.inr (Or.inr (mem_cons_of_mem e' hmem))
  exact (hfold lines _ h).resolve_left not_mem_nil

/-! ## `bandwidthAlongPath` -/

/-- `inBounds` -/
def InBounds (g : NetAnalysis) (node : ℤ) : Prop := 0 ≤ node ∧ node < g.nodeCount

instance decidableInBounds (g : NetAnalysis) (node : ℤ) : Decidable (g.InBounds node) :=
  inferInstanceAs (Decidable (_ ∧ _))

theorem toNat_lt {g : NetAnalysis} {node : ℤ} (h : g.InBounds node) :
    node.toNat < g.nodeCount := by
  unfold InBounds at h
  omega

/-- `graph[node]` -/
def adjList (g : NetAnalysis) (node : ℤ) : Except GraphError (List (Edge g.nodeCount)) :=
  if h : g.InBounds node then .ok (g.graph ⟨node.toNat, toNat_lt h⟩)
  else .error (.arrayIndexOutOfBounds node)

/-- The inner loop: `currEdge` and `edgeFound` after it. -/
def findEdge {n : ℕ} (currNode nextNode : ℤ) :
    List (Edge n) → Edge n × Bool → Edge n × Bool
  | [], found => found
  | e :: list, found =>
    if currNode = e.source ∧ nextNode = e.destination then (e, true)
    else findEdge currNode nextNode list (e, found.2)

/-- The outer loop, with the nodes that are left. -/
def bandwidthLoop (g : NetAnalysis) :
    List ℤ → ℤ → Edge g.nodeCount → ℤ → Except GraphError ℤ
  | [], _, _, bottleneck => .ok bottleneck
  | nextNode :: p, currNode, currEdge, bottleneck => do
    let list ← g.adjList currNode
    let found := findEdge currNode nextNode list (currEdge, false)
    if found.2 then
      bandwidthLoop g p nextNode found.1
        (if found.1.bandwidth < bottleneck then found.1.bandwidth else bottleneck)
    else .error (.illegalArgument "illegal path")

/-- `bandwidthAlongPath` -/
def bandwidthAlongPath (g : NetAnalysis) : Option (List ℤ) → Except GraphError ℤ
  | some (currNode :: nextNode :: p) => do
    let list ← g.adjList currNode
    let currEdge ← AdjList.get list 0
    if g.InBounds currNode then g.bandwidthLoop (nextNode :: p) currNode currEdge maxInt
    else .error (.illegalArgument "illegal path")
  | _ => .error (.illegalArgument "path too small")

/-- The edges lead from each vertex of the list to the next one. -/
def Joins (g : NetAnalysis) : List ℤ → List (Edge g.nodeCount) → Prop
  | a :: b :: p, e :: es => e ∈ g.graph e.source ∧ e.source = a ∧ e.destination = b ∧ Joins g (b :: p) es
  | [_], [] => True
  | _, _ => False

/-- Two edges with the same ends are the same. -/
def NoParallelEdges (g : NetAnalysis) : Prop :=
  ∀ i, ∀ e ∈ g.graph i, ∀ e' ∈ g.graph i, e.destination = e'.destination → e = e'

/-- What is returned for a path with edges, and what is thrown for any other list. -/
structure BandwidthRight (g : NetAnalysis) (p : List ℤ) (result : Except GraphError ℤ) : Prop where
  minimum : ∀ es, es ≠ [] → g.Joins p es →
    ∃ b, result = .ok b ∧ (es.map Edge.bandwidth).min? = some b
  illegal : (∀ es, es ≠ [] → ¬ g.Joins p es) → ∃ message, result = .error (.illegalArgument message)

theorem adjList_of_inBounds {g : NetAnalysis} {node : ℤ} (h : g.InBounds node) :
    ∃ i : Fin g.nodeCount, (i : ℤ) = node ∧ g.adjList node = .ok (g.graph i) := by
  refine ⟨⟨node.toNat, toNat_lt h⟩, Int.toNat_of_nonneg h.1, ?_⟩
  unfold adjList
  rw [dif_pos h]

theorem inBounds_fin {g : NetAnalysis} (i : Fin g.nodeCount) : g.InBounds i :=
  ⟨Int.natCast_nonneg i, Int.ofNat_lt.mpr i.isLt⟩

/-- The inner loop finds an edge if there is one. -/
theorem findEdge_spec {n : ℕ} (currNode nextNode : ℤ) (list : List (Edge n)) (e : Edge n) :
    (∃ e' ∈ list, currNode = e'.source ∧ nextNode = e'.destination ∧
        findEdge currNode nextNode list (e, false) = (e', true)) ∨
      ((∀ e' ∈ list, ¬ (currNode = e'.source ∧ nextNode = e'.destination)) ∧
        (findEdge currNode nextNode list (e, false)).2 = false) := by
  induction list generalizing e with
  | nil => exact Or.inr ⟨fun _ h => absurd h not_mem_nil, rfl⟩
  | cons e' list ih =>
    unfold findEdge
    split
    case isTrue hends => exact Or.inl ⟨e', mem_cons_self, hends.1, hends.2, rfl⟩
    case isFalse hends =>
      rcases ih e' with ⟨e'', he'', hsrc, hdst, heq⟩ | ⟨hno, hfalse⟩
      · exact Or.inl ⟨e'', mem_cons_of_mem e' he'', hsrc, hdst, heq⟩
      · refine Or.inr ⟨?_, hfalse⟩
        intro e'' he''
        rcases mem_cons.mp he'' with rfl | he''
        · exact hends
        · exact hno e'' he''

/-- Both loops: the least bandwidth, or an illegal path. -/
theorem bandwidthLoop_spec {g : NetAnalysis} (hsimple : g.NoParallelEdges) (p : List ℤ) {currNode : ℤ}
    (hin : g.InBounds currNode) (currEdge : Edge g.nodeCount) (bottleneck : ℤ) :
    (∀ es, g.Joins (currNode :: p) es → g.bandwidthLoop p currNode currEdge bottleneck =
        .ok ((es.map Edge.bandwidth).foldl min bottleneck)) ∧
      ((∀ es, ¬ g.Joins (currNode :: p) es) → g.bandwidthLoop p currNode currEdge bottleneck =
        .error (.illegalArgument "illegal path")) := by
  induction p generalizing currNode currEdge bottleneck with
  | nil =>
    constructor
    · intro es hes
      cases es with
      | nil => rfl
      | cons e es => exact absurd hes (by simp [Joins])
    · exact fun hno => absurd trivial (hno [])
  | cons nextNode p ih =>
    rcases adjList_of_inBounds hin with ⟨i, rfl, hlist⟩
    have hmin : ∀ b : ℤ, (if b < bottleneck then b else bottleneck) = min bottleneck b := by
      intro b
      omega
    unfold bandwidthLoop
    rw [hlist]
    dsimp only [bind, Except.bind]
    rcases findEdge_spec i nextNode (g.graph i) currEdge with
      ⟨e, he, hsrc, rfl, heq⟩ | ⟨hno, hfalse⟩
    · have hmem : e ∈ g.graph e.source := by
        rw [g.source i e he]
        exact he
      rw [heq, if_pos rfl, hmin]
      rcases ih (inBounds_fin e.destination) e (min bottleneck e.bandwidth) with ⟨hvalid, hillegal⟩
      constructor
      · intro es hes
        cases es with
        | nil => exact absurd hes (by simp [Joins])
        | cons e' es =>
          rcases hes with ⟨he', hsrc', hdst', hes⟩
          -- without parallel edges it is the edge that was found
          have hsame : e' = e := by
            have hi : e'.source = i := Fin.ext (Int.ofNat_inj.mp hsrc')
            rw [hi] at he'
            exact hsimple i e' he' e he (Fin.ext (Int.ofNat_inj.mp hdst'))
          rw [hvalid es hes, hsame]
          rfl
      · intro hnone
        exact hillegal fun es hes => hnone (e :: es) ⟨hmem, hsrc.symm, rfl, hes⟩
    · rw [hfalse]
      constructor
      · intro es hes
        cases es with
        | nil => exact absurd hes (by simp [Joins])
        | cons e es =>
          rcases hes with ⟨he, hsrc, hdst, -⟩
          have hi : e.source = i := Fin.ext (Int.ofNat_inj.mp hsrc)
          rw [hi] at he
          exact absurd ⟨hsrc.symm, hdst.symm⟩ (hno e he)
      · exact fun _ => rfl

/-- A path of at least two vertices starts in the graph. -/
theorem inBounds_of_joins {g : NetAnalysis} {a b : ℤ} {p : List ℤ} {es : List (Edge g.nodeCount)}
    (h : g.Joins (a :: b :: p) es) : g.InBounds a := by
  cases es with
  | nil => exact False.elim h
  | cons e es =>
    rw [← h.2.1]
    exact inBounds_fin e.source

theorem bandwidthAlongPath_cons (g : NetAnalysis) (a b : ℤ) (p : List ℤ) :
    g.bandwidthAlongPath (some (a :: b :: p)) = (do
      let list ← g.adjList a
      let currEdge ← AdjList.get list 0
      if g.InBounds a then g.bandwidthLoop (b :: p) a currEdge maxInt
      else .error (.illegalArgument "illegal path")) := rfl

theorem bandwidthAlongPath_inBounds {g : NetAnalysis} (hsimple : g.NoParallelEdges) {a b : ℤ}
    {p : List ℤ} (hin : g.InBounds a) :
    g.BandwidthRight (a :: b :: p) (g.bandwidthAlongPath (some (a :: b :: p))) := by
  rcases adjList_of_inBounds hin with ⟨i, rfl, hlist⟩
  rw [bandwidthAlongPath_cons, hlist]
  dsimp only [bind, Except.bind]
  rcases hgraph : g.graph i with _ | ⟨e, list⟩
  · -- `get` throws the right exception for a vertex without edges
    have hno : ∀ es, ¬ g.Joins (i :: b :: p) es := by
      intro es hes
      cases es with
      | nil => exact hes
      | cons e es =>
        have hi : e.source = i := Fin.ext (Int.ofNat_inj.mp hes.2.1)
        have hmem := hes.1
        rw [hi, hgraph] at hmem
        exact not_mem_nil hmem
    exact ⟨fun es _ hes => absurd hes (hno es), fun _ => ⟨_, rfl⟩⟩
  · have hget : AdjList.get (e :: list) 0 = .ok e := rfl
    rw [hget]
    dsimp only
    rw [if_pos hin]
    rcases bandwidthLoop_spec hsimple (b :: p) hin e maxInt with ⟨hvalid, hillegal⟩
    constructor
    case minimum =>
      intro es hne hes
      refine ⟨_, hvalid es hes, ?_⟩
      cases es with
      | nil => exact absurd rfl hne
      | cons e es =>
        rw [map_cons, min?_cons', foldl_cons, min_eq_right e.bandwidth_le]
    case illegal =>
      intro hno
      refine ⟨_, hillegal ?_⟩
      intro es hes
      cases es with
      | nil => exact hes
      | cons e es => exact hno (e :: es) (cons_ne_nil e es) hes

/-- The array is accessed before the check, so a first vertex that is out of range is
reported by the wrong exception. -/
theorem bandwidthAlongPath_right_iff {g : NetAnalysis} (hsimple : g.NoParallelEdges) (p : List ℤ) :
    g.BandwidthRight p (g.bandwidthAlongPath (some p)) ↔
      ¬ (2 ≤ p.length ∧ ∃ currNode, p.head? = some currNode ∧ ¬ g.InBounds currNode) := by
  rcases p with _ | ⟨a, _ | ⟨b, p⟩⟩
  · constructor
    · exact fun _ h => absurd h.1 (by decide)
    · exact fun _ => ⟨fun es _ hes => absurd hes (by cases es <;> exact id), fun _ => ⟨_, rfl⟩⟩
  · constructor
    · exact fun _ h => absurd h.1 (by simp)
    · intro _
      refine ⟨?_, fun _ => ⟨_, rfl⟩⟩
      intro es hne hes
      cases es with
      | nil => exact absurd rfl hne
      | cons e es => exact False.elim hes
  · by_cases hin : g.InBounds a
    · constructor
      · rintro - ⟨-, x, hx, hout⟩
        cases hx
        exact hout hin
      · exact fun _ => bandwidthAlongPath_inBounds hsimple hin
    · have hthrown : g.bandwidthAlongPath (some (a :: b :: p)) =
          .error (.arrayIndexOutOfBounds a) := by
        rw [bandwidthAlongPath_cons]
        unfold adjList
        rw [dif_neg hin]
        rfl
      constructor
      · intro hright
        rcases hright.illegal fun es _ hes => hin (inBounds_of_joins hes) with ⟨message, hmessage⟩
        rw [hthrown] at hmessage
        cases hmessage
      · intro h
        exact absurd ⟨Nat.le_add_left 2 _, a, rfl, hin⟩ h

/-- A check of all pairs of edges with the same source. -/
theorem noParallelEdges_of_all {g : NetAnalysis}
    (h : ((finRange g.nodeCount).all fun i => (g.graph i).all fun e => (g.graph i).all fun e' =>
      !decide (e.destination = e'.destination) || decide (e = e')) = true) : g.NoParallelEdges := by
  intro i e he e' he' hdst
  rw [all_eq_true] at h
  have hi := h i (mem_finRange i)
  rw [all_eq_true] at hi
  have hpair := hi e he
  rw [all_eq_true] at hpair
  have hsame := hpair e' he'
  rw [decide_eq_true hdst, Bool.not_true, Bool.false_or] at hsame
  exact of_decide_eq_true hsame

/-- Three vertices in a line. -/
def threeInLine : NetAnalysis :=
  ofLines 3 [⟨0, 1, true, 100, 23, by decide⟩, ⟨1, 2, false, 40, 20, by decide⟩]

theorem bandwidthAlongPath_right_threeInLine :
    threeInLine.NoParallelEdges ∧ (threeInLine.BandwidthRight [0, 1, 2]
      (threeInLine.bandwidthAlongPath (some [0, 1, 2])) ↔
        ¬ (2 ≤ [0, 1, 2].length ∧ ∃ currNode : ℤ, [0, 1, 2].head? = some currNode ∧
          ¬ threeInLine.InBounds currNode)) := by
  have hsimple : threeInLine.NoParallelEdges := noParallelEdges_of_all (by decide)
  exact ⟨hsimple, bandwidthAlongPath_right_iff hsimple [0, 1, 2]⟩

/-- The list of the vertices 7 and 0. -/
theorem not_bandwidthAlongPath_right :
    threeInLine.NoParallelEdges ∧
      ¬ threeInLine.BandwidthRight [7, 0] (threeInLine.bandwidthAlongPath (some [7, 0])) := by
  constructor
  · exact noParallelEdges_of_all (by decide)
  · intro hright
    have hno : ∀ es, es ≠ [] → ¬ threeInLine.Joins [7, 0] es := by
      intro es _ hes
      exact absurd (inBounds_of_joins hes) (by decide)
    rcases hright.illegal hno with ⟨message, hmessage⟩
    cases hmessage

end NetAnalysis

end PittCs.Cs1501
