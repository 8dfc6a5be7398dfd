import PittCs.Lib.Relaxation
import PittCs.Lib.TransitionSystem
import PittCs.Cs1501.NetAnalysis
import Mathlib.Data.Fintype.Card
import Mathlib.Tactic.NormNum

/-!
# The path of lowest latency

`lowestLatencyPath` of `NetAnalysis.java`: Dijkstra's algorithm on arrays, which also scans
the vertices at distance `Double.MAX_VALUE`, and the path that is read off the parents.
-/

namespace PittCs.Cs1501.NetAnalysis

open PittCs.Lib PittCs.Lib.Relaxation Function List Option

/-- `Double.MAX_VALUE` -/
def maxValue : ℚ := (2 ^ 53 - 1) * 2 ^ 971

/-- The arrays of `lowestLatencyPath`; the parent -1 is `none`. -/
structure PathState (n : ℕ) where
  parentOf : Fin n → Option (Fin n)
  distance : Fin n → ℚ
  checked : Fin n → Bool

section Algorithm

variable {n : ℕ}

def initState (u : Fin n) : PathState n where
  parentOf _ := none
  distance i := if i = u then 0 else maxValue
  checked _ := false

/-- One round of the loop over the edges of `currNode`. -/
def relaxEdge (currNode : Fin n) (s : PathState n) (currEdge : Edge n) : PathState n :=
  let adjNode := currEdge.destination
  if s.distance currNode + currEdge.getLatency < s.distance adjNode then
    { s with
      distance := Function.update s.distance adjNode (s.distance currNode + currEdge.getLatency)
      parentOf := Function.update s.parentOf adjNode (some currNode) }
  else s

/-- The loop over the edges, after which the node is checked. -/
def scanNode (edges : List (Edge n)) (currNode : Fin n) (s : PathState n) : PathState n :=
  let s := edges.foldl (relaxEdge currNode) s
  { s with checked := Function.update s.checked currNode true }

/-- One round of the search for the nearest unchecked node, in which the last one wins. -/
def nearest (s : PathState n) (small : Option (Fin n) × ℚ) (k : Fin n) : Option (Fin n) × ℚ :=
  if s.distance k ≤ small.2 ∧ s.checked k = false then (some k, s.distance k) else small

/-- `smallNode` after the search. -/
def smallNode (s : PathState n) : Option (Fin n) :=
  ((finRange n).foldl (nearest s) (none, maxValue)).1

/-- The main loop, with the number of rounds that are left. -/
def pathLoop (graph : Fin n → List (Edge n)) : ℕ → Fin n → PathState n → PathState n
  | 0, _, s => s
  | rounds + 1, currNode, s =>
    let s := scanNode (graph currNode) currNode s
    match smallNode s with
    | none => s
    | some currNode => pathLoop graph rounds currNode s

/-- The last loop, which may run on for ever if the number of calls is not bounded: the
node it stops at and the path. -/
def followParents (parentOf : Fin n → Option (Fin n)) : ℕ → Fin n → List ℤ → Option (Fin n × List ℤ)
  | 0, _, _ => none
  | calls + 1, node, path =>
    match parentOf node with
    | none => some (node, path)
    | some parent => followParents parentOf calls parent (node :: path)

end Algorithm

/-- `lowestLatencyPath`, for a graph of `n` nodes: `none` if it does not return within `n`
rounds of its last loop, `some none` for `null`. -/
def lowestLatencyPath (g : NetAnalysis) (u w : ℤ) : Option (Option (List ℤ)) :=
  if h : g.InBounds u ∧ g.InBounds w ∧ u ≠ w then
    let u : Fin g.nodeCount := ⟨u.toNat, toNat_lt h.1⟩
    let w : Fin g.nodeCount := ⟨w.toNat, toNat_lt h.2.1⟩
    let s := pathLoop g.graph g.nodeCount u (initState u)
    match followParents s.parentOf g.nodeCount w [] with
    | none => none
    | some (node, path) => if node = u then some (some (u :: path)) else some none
  else some none

/-- A path of existing edges. -/
def IsPath (g : NetAnalysis) (u w : ℤ) (p : List ℤ) (es : List (Edge g.nodeCount)) : Prop :=
  g.Joins p es ∧ p.head? = some u ∧ p.getLast? = some w

def latency {n : ℕ} (es : List (Edge n)) : ℚ := (es.map Edge.getLatency).sum

/-- When `null` is returned, and what else is. -/
structure PathRight (g : NetAnalysis) (u w : ℤ) (result : Option (Option (List ℤ))) : Prop where
  returns : result ≠ none
  null_iff : result = some none ↔ ¬ g.InBounds u ∨ ¬ g.InBounds w ∨ u = w ∨
    ¬ ∃ p es, g.IsPath u w p es
  least : ∀ p, result = some (some p) → ∃ es, g.IsPath u w p es ∧
    ∀ p' es', g.IsPath u w p' es' → latency es ≤ latency es'

/-! ## The arrays as labels -/

section Scan

variable {n : ℕ} {s : PathState n} {graph : Fin n → List (Edge n)} {u : Fin n}

/-- The edges with their latencies. -/
def Latency (graph : Fin n → List (Edge n)) (u v : Fin n) (d : ℚ) : Prop :=
  ∃ e ∈ graph u, e.destination = v ∧ e.getLatency = d

def PathState.labels (s : PathState n) : Labels (Fin n) ℚ := ⟨s.distance, s.parentOf⟩

def PathState.done (s : PathState n) : Set (Fin n) := {i | s.checked i = true}

theorem labels_relaxEdge (currNode : Fin n) (s : PathState n) (e : Edge n) :
    (relaxEdge currNode s e).labels = s.labels.relax currNode (e.destination, e.getLatency) := by
  unfold relaxEdge Relaxation.Labels.relax
  dsimp only
  by_cases hlt : s.distance currNode + e.getLatency < s.distance e.destination
  · rw [if_pos hlt]
    exact (if_pos hlt).symm
  · rw [if_neg hlt]
    exact (if_neg hlt).symm

theorem checked_relaxEdge (currNode : Fin n) (s : PathState n) (e : Edge n) :
    (relaxEdge currNode s e).checked = s.checked := by
  unfold relaxEdge
  dsimp only
  split
  · rfl
  · rfl

/-- The edges as the ends and costs that are relaxed. -/
def ends (edges : List (Edge n)) : List (Fin n × ℚ) :=
  edges.map fun e => (e.destination, e.getLatency)

theorem labels_scanNode (edges : List (Edge n)) (currNode : Fin n) (s : PathState n) :
    (scanNode edges currNode s).labels =
      (ends edges).foldl (Relaxation.Labels.relax · currNode) s.labels := by
  have hfold : (edges.foldl (relaxEdge currNode) s).labels =
      (ends edges).foldl (Relaxation.Labels.relax · currNode) s.labels := by
    induction edges generalizing s with
    | nil => rfl
    | cons e edges ih =>
      rw [foldl_cons, ih, labels_relaxEdge]
      rfl
  exact hfold

theorem checked_scanNode (edges : List (Edge n)) (currNode : Fin n) (s : PathState n) :
    (scanNode edges currNode s).checked = Function.update s.checked currNode true := by
  have hfold : (edges.foldl (relaxEdge currNode) s).checked = s.checked := by
    induction edges generalizing s with
    | nil => rfl
    | cons e edges ih => rw [foldl_cons, ih, checked_relaxEdge]
  unfold scanNode
  dsimp only
  rw [hfold]

theorem done_scanNode (edges : List (Edge n)) (currNode : Fin n) (s : PathState n) :
    (scanNode edges currNode s).done = insert currNode s.done := by
  ext i
  unfold PathState.done
  rw [checked_scanNode, Set.mem_ofPred_eq, Set.mem_insert_iff, Set.mem_ofPred_eq]
  by_cases hi : i = currNode
  · rw [hi, update_self]
    exact ⟨fun _ => Or.inl rfl, fun _ => rfl⟩
  · rw [update_of_ne hi]
    exact ⟨Or.inr, fun h => h.resolve_left hi⟩

/-- One round of the main loop. -/
theorem scanned_scanNode (hnonneg : ∀ i, ∀ e ∈ graph i, 0 ≤ e.getLatency) {currNode : Fin n}
    (h : Scanning (Latency graph) u maxValue s.labels s.done currNode) :
    Scanned (Latency graph) u maxValue (scanNode (graph currNode) currNode s).labels
      (scanNode (graph currNode) currNode s).done := by
  have hends : ∀ e ∈ ends (graph currNode), Latency graph currNode e.1 e.2 ∧ 0 ≤ e.2 := by
    intro e' he'
    rcases mem_map.mp he' with ⟨e, he, rfl⟩
    exact ⟨⟨e, he, rfl, rfl⟩, hnonneg currNode e he⟩
  rw [labels_scanNode, done_scanNode]
  rcases h.relaxAll hends with ⟨hscan, hsame, hall⟩
  apply hscan.scanned
  rintro v d ⟨e, he, rfl, rfl⟩
  rw [hsame]
  exact hall (e.destination, e.getLatency) (mem_map_of_mem he)

/-! ## The nearest node -/

theorem nearest_foldl (s : PathState n) (ks : List (Fin n)) (small : Option (Fin n) × ℚ) :
    ((∀ k ∈ ks, s.checked k = true ∨ small.2 < s.distance k) ∧
        ks.foldl (nearest s) small = small) ∨
      ∃ k ∈ ks, s.checked k = false ∧ s.distance k ≤ small.2 ∧
        ks.foldl (nearest s) small = (some k, s.distance k) ∧
        ∀ j ∈ ks, s.checked j = false → s.distance k ≤ s.distance j := by
  induction ks generalizing small with
  | nil => exact Or.inl ⟨fun _ hk => absurd hk not_mem_nil, rfl⟩
  | cons k ks ih =>
    rw [foldl_cons]
    by_cases hcloser : s.distance k ≤ small.2 ∧ s.checked k = false
    · have hnew : nearest s small k = (some k, s.distance k) := if_pos hcloser
      rw [hnew]
      right
      rcases ih (some k, s.distance k) with ⟨hfar, heq⟩ | ⟨k', hk', hset, hle, heq, hmin⟩
      · refine ⟨k, mem_cons_self, hcloser.2, hcloser.1, heq, ?_⟩
        intro j hj hset
        rcases mem_cons.mp hj with rfl | hj
        · exact le_refl _
        · rcases hfar j hj with hchecked | hlt
          · rw [hset] at hchecked
            exact absurd hchecked Bool.false_ne_true
          · exact le_of_lt hlt
      · refine ⟨k', mem_cons_of_mem k hk', hset, le_trans hle hcloser.1, heq, ?_⟩
        intro j hj hopen
        rcases mem_cons.mp hj with rfl | hj
        · exact hle
        · exact hmin j hj hopen
    · have hold : nearest s small k = small := if_neg hcloser
      rw [hold]
      have hk : s.checked k = true ∨ small.2 < s.distance k := by
        by_cases hset : s.checked k = true
        · exact Or.inl hset
        · exact Or.inr (not_le.mp fun hle => hcloser ⟨hle, Bool.eq_false_of_not_eq_true hset⟩)
      rcases ih small with ⟨hfar, heq⟩ | ⟨k', hk', hset, hle, heq, hmin⟩
      · refine Or.inl ⟨?_, heq⟩
        intro j hj
        rcases mem_cons.mp hj with rfl | hj
        · exact hk
        · exact hfar j hj
      · refine Or.inr ⟨k', mem_cons_of_mem k hk', hset, hle, heq, ?_⟩
        intro j hj hopen
        rcases mem_cons.mp hj with rfl | hj
        · rcases hk with hchecked | hlt
          · rw [hopen] at hchecked
            exact absurd hchecked Bool.false_ne_true
          · exact hle.trans (le_of_lt hlt)
        · exact hmin j hj hopen

/-- All nodes are checked, or the result is an unchecked one with a least distance. -/
theorem smallNode_spec (hbound : ∀ i, s.distance i ≤ maxValue) :
    (smallNode s = none ∧ ∀ i, i ∈ s.done) ∨
      ∃ k, smallNode s = some k ∧ k ∉ s.done ∧ ∀ i ∉ s.done, s.distance k ≤ s.distance i := by
  unfold smallNode PathState.done
  rcases nearest_foldl s (finRange n) (none, maxValue) with
    ⟨hfar, heq⟩ | ⟨k, -, hset, -, heq, hmin⟩
  · left
    rw [heq]
    refine ⟨rfl, fun i => ?_⟩
    rcases hfar i (mem_finRange i) with hchecked | hlt
    · exact hchecked
    · exact absurd hlt (not_lt.mpr (hbound i))
  · right
    refine ⟨k, by rw [heq], ?_, ?_⟩
    · rw [Set.mem_ofPred_eq, hset]
      exact Bool.false_ne_true
    · intro i hi
      exact hmin i (mem_finRange i) (Bool.eq_false_of_not_eq_true hi)

/-! ## The main loop -/

/-- The number of unchecked nodes. -/
def unchecked (s : PathState n) : ℕ := (finRange n).countP fun i => !s.checked i

theorem unchecked_scanNode_lt {currNode : Fin n} (edges : List (Edge n))
    (h : currNode ∉ s.done) : unchecked (scanNode edges currNode s) < unchecked s := by
  have hset : s.checked currNode = false := Bool.eq_false_of_not_eq_true h
  unfold unchecked
  rw [checked_scanNode]
  apply countP_lt_of_done ?_ (mem_finRange currNode)
  · rw [hset, Bool.not_false]
  · rw [update_self, Bool.not_true]
  · intro i _ hi
    by_cases hcurr : i = currNode
    · rw [hcurr, update_self, Bool.not_true] at hi
      exact absurd hi Bool.false_ne_true
    · rwa [update_of_ne hcurr] at hi

/-- The main loop scans all nodes. -/
theorem pathLoop_spec (hnonneg : ∀ i, ∀ e ∈ graph i, 0 ≤ e.getLatency) {rounds : ℕ} {currNode : Fin n}
    (h : Scanning (Latency graph) u maxValue s.labels s.done currNode)
    (hrounds : unchecked s ≤ rounds) :
    Scanned (Latency graph) u maxValue (pathLoop graph rounds currNode s).labels
        (pathLoop graph rounds currNode s).done ∧
      ∀ i, i ∈ (pathLoop graph rounds currNode s).done := by
  induction rounds generalizing currNode s with
  | zero =>
    have hlt := unchecked_scanNode_lt (graph currNode) h.next
    omega
  | succ rounds ih =>
    have hlt := unchecked_scanNode_lt (graph currNode) h.next
    have hscanned := scanned_scanNode hnonneg h
    unfold pathLoop
    dsimp only
    rcases smallNode_spec (s := scanNode (graph currNode) currNode s) hscanned.bound with
      ⟨hnone, hall⟩ | ⟨k, hsome, hfresh, hleast⟩
    · rw [hnone]
      exact ⟨hscanned, hall⟩
    · rw [hsome]
      exact ih (hscanned.scanning hfresh hleast) (by omega)

theorem maxValue_pos : 0 < maxValue := by
  unfold maxValue
  norm_num

theorem initState_spec (u : Fin n) :
    Scanning (Latency graph) u maxValue (initState u).labels (initState u).done u := by
  have hempty : (initState u).done = ∅ := by
    apply Set.eq_empty_of_forall_notMem
    exact fun i hi => absurd hi Bool.false_ne_true
  have hself : (initState u).labels.dist u = 0 := if_pos rfl
  rw [hempty]
  apply Scanned.scanning
  · exact Scanned.init hself (fun _ => rfl) (fun _ hv => if_neg hv) (le_of_lt maxValue_pos)
  · exact Set.notMem_empty u
  · intro v _
    rw [hself]
    show (0 : ℚ) ≤ if v = u then 0 else maxValue
    split
    · exact le_refl _
    · exact le_of_lt maxValue_pos

/-! ## Back along the parents -/

/-- The last loop takes the nodes behind the first one. -/
theorem followParents_chain {calls : ℕ} {v : Fin n} {l : List (Fin n)} {path : List ℤ}
    (h : Chain (Latency graph) u s.labels s.done v l) (hroot : s.parentOf u = none)
    (hcalls : l.length < calls) :
    followParents s.parentOf calls v path = some (u, l.map (fun i : Fin _ => (i : ℤ)) ++ path) := by
  induction h generalizing calls path with
  | root =>
    cases calls with
    | zero => exact absurd hcalls (Nat.not_lt_zero _)
    | succ calls =>
      unfold followParents
      rw [hroot]
      rfl
  | @snoc p v d l _ _ hparent _ _ _ ih =>
    have hparent' : s.parentOf v = some p := hparent
    rw [length_append] at hcalls
    cases calls with
    | zero => exact absurd hcalls (Nat.not_lt_zero _)
    | succ calls =>
      unfold followParents
      rw [hparent']
      dsimp only
      rw [ih (Nat.lt_of_succ_lt_succ hcalls), map_append, append_assoc]
      rfl

/-- A node without a parent. -/
theorem followParents_none {calls : ℕ} {v : Fin n} {path : List ℤ} (h : s.parentOf v = none)
    (hcalls : 0 < calls) : followParents s.parentOf calls v path = some (v, path) := by
  cases calls with
  | zero => exact absurd hcalls (Nat.lt_irrefl 0)
  | succ calls =>
    unfold followParents
    rw [h]

theorem length_lt_of_chain {done : Set (Fin n)} {v : Fin n} {l : List (Fin n)}
    (h : Chain (Latency graph) u s.labels done v l) : l.length < n := by
  have hle := h.nodup.length_le_card
  rwa [length_cons, Fintype.card_fin] at hle

end Scan

/-! ## Paths of the graph -/

section Paths

variable {g : NetAnalysis}

theorem latency_nil : latency ([] : List (Edge g.nodeCount)) = 0 := rfl

theorem latency_cons (e : Edge g.nodeCount) (es : List (Edge g.nodeCount)) :
    latency (e :: es) = e.getLatency + latency es := sum_cons

/-- The cost of a path is the cost of a walk. -/
theorem walk_of_isPath {u w : Fin g.nodeCount} {p : List ℤ} {es : List (Edge g.nodeCount)}
    (h : g.IsPath u w p es) : Walk (Latency g.graph) u w (latency es) := by
  rcases h with ⟨hjoins, hfirst, hlast⟩
  induction p generalizing u es with
  | nil => cases hfirst
  | cons a p ih =>
    cases hfirst
    cases p with
    | nil =>
      cases es with
      | nil =>
        have huw : u = w := Fin.ext (Int.ofNat_inj.mp (some.inj hlast))
        rw [huw, latency_nil]
        exact Walk.nil w
      | cons e es => exact False.elim hjoins
    | cons b p =>
      cases es with
      | nil => exact False.elim hjoins
      | cons e es =>
        rcases hjoins with ⟨hmem, hsrc, hdst, hjoins⟩
        have hu : e.source = u := Fin.ext (Int.ofNat_inj.mp hsrc)
        rw [getLast?_cons_cons] at hlast
        rw [hu] at hmem
        rw [latency_cons]
        refine Walk.cons ⟨e, hmem, rfl, rfl⟩ (ih hjoins ?_ hlast)
        rw [hdst]
        rfl

/-- One more edge at the end of a path. -/
theorem isPath_concat {u w v : Fin g.nodeCount} {p : List ℤ} {es : List (Edge g.nodeCount)}
    (h : g.IsPath u w p es) {e : Edge g.nodeCount} (he : e ∈ g.graph w) (hdst : e.destination = v) :
    g.IsPath u v (p ++ [(v : ℤ)]) (es ++ [e]) := by
  rcases h with ⟨hjoins, hfirst, hlast⟩
  have hsrc := g.source w e he
  have hmem : e ∈ g.graph e.source := by
    rw [hsrc]
    exact he
  refine ⟨?_, ?_, getLast?_concat⟩
  · clear hfirst
    induction p generalizing es with
    | nil => exact False.elim hjoins
    | cons a p ih =>
      cases p with
      | nil =>
        cases es with
        | nil =>
          have hw : (e.source : ℤ) = a := by
            rw [hsrc]
            exact (some.inj hlast).symm
          exact ⟨hmem, hw, by rw [hdst], trivial⟩
        | cons e' es => exact False.elim hjoins
      | cons b p =>
        cases es with
        | nil => exact False.elim hjoins
        | cons e' es =>
          rcases hjoins with ⟨hmem', hsrc', hdst', hjoins⟩
          rw [getLast?_cons_cons] at hlast
          exact ⟨hmem', hsrc', hdst', ih hjoins hlast⟩
  · cases p with
    | nil => cases hfirst
    | cons a p => exact hfirst

theorem latency_concat (es : List (Edge g.nodeCount)) (e : Edge g.nodeCount) :
    latency (es ++ [e]) = latency es + e.getLatency := by
  unfold latency
  rw [map_append, sum_append, map_singleton, sum_singleton]

/-- A chain is a path of the latency that the label says. -/
theorem isPath_of_chain {u v : Fin g.nodeCount} {L : Labels (Fin g.nodeCount) ℚ}
    {done : Set (Fin g.nodeCount)} {l : List (Fin g.nodeCount)}
    (h : Chain (Latency g.graph) u L done v l) :
    ∃ es, g.IsPath u v ((u : ℤ) :: l.map (fun i : Fin _ => (i : ℤ))) es ∧ latency es = L.dist v := by
  induction h with
  | root hdist _ => exact ⟨[], ⟨trivial, rfl, rfl⟩, hdist.symm⟩
  | snoc _ _ _ hedge hdist _ ih =>
    rcases ih with ⟨es, hpath, hcost⟩
    rcases hedge with ⟨e, he, hdst, hlatency⟩
    refine ⟨es ++ [e], ?_, ?_⟩
    · rw [map_append, ← cons_append]
      exact isPath_concat hpath he hdst
    · rw [latency_concat, hcost, hlatency, hdist]

end Paths

/-! ## The result -/

section Result

variable {g : NetAnalysis} {u w : Fin g.nodeCount}

/-- The arrays at the end. -/
def finalState (g : NetAnalysis) (u : Fin g.nodeCount) : PathState g.nodeCount :=
  pathLoop g.graph g.nodeCount u (initState u)

theorem finalState_spec (hnonneg : ∀ i, ∀ e ∈ g.graph i, 0 ≤ e.getLatency) :
    Scanned (Latency g.graph) u maxValue (finalState g u).labels (finalState g u).done ∧
      ∀ i, i ∈ (finalState g u).done := by
  refine pathLoop_spec hnonneg (initState_spec u) ?_
  have hle := countP_le_length (l := finRange g.nodeCount)
    (p := fun i => !(initState u).checked i)
  rwa [length_finRange] at hle

theorem lowestLatencyPath_fin (h : u ≠ w) : g.lowestLatencyPath u w =
    match followParents (finalState g u).parentOf g.nodeCount w [] with
    | none => none
    | some (node, path) => if node = u then some (some ((u : ℤ) :: path)) else some none := by
  have hne : (u : ℤ) ≠ (w : ℤ) := fun heq => h (Fin.ext (Int.ofNat_inj.mp heq))
  unfold lowestLatencyPath
  rw [dif_pos ⟨inBounds_fin u, inBounds_fin w, hne⟩]
  rfl

/-- A node at a distance below `MAX_VALUE`. -/
theorem right_of_ne (hnonneg : ∀ i, ∀ e ∈ g.graph i, 0 ≤ e.getLatency) (h : u ≠ w)
    (hdist : (finalState g u).distance w ≠ maxValue) :
    g.PathRight u w (g.lowestLatencyPath u w) := by
  rcases finalState_spec (u := u) hnonneg with ⟨hscanned, hall⟩
  rcases hscanned.tree w with htop | ⟨l, hchain⟩
  · exact absurd htop hdist
  have hresult : g.lowestLatencyPath u w = some (some ((u : ℤ) :: l.map fun i : Fin _ => (i : ℤ))) := by
    rw [lowestLatencyPath_fin h, followParents_chain hchain hchain.parent_root (length_lt_of_chain hchain),
      append_nil]
    exact if_pos rfl
  rcases isPath_of_chain hchain with ⟨es, hpath, hcost⟩
  rw [hresult]
  constructor
  case returns => exact some_ne_none _
  case null_iff =>
    constructor
    · intro heq
      cases heq
    · rintro (hu | hw | heq | hno)
      · exact absurd (inBounds_fin u) hu
      · exact absurd (inBounds_fin w) hw
      · exact absurd (Fin.ext (Int.ofNat_inj.mp heq)) h
      · exact absurd ⟨_, es, hpath⟩ hno
  case least =>
    intro p hp
    cases hp
    refine ⟨es, hpath, ?_⟩
    intro p' es' hpath'
    have hle := hscanned.dist_le hall (walk_of_isPath hpath')
    rwa [hscanned.root, zero_add, ← hcost] at hle

theorem exists_below (hnonneg : ∀ i, ∀ e ∈ g.graph i, 0 ≤ e.getLatency)
    (hdist : (finalState g u).distance w ≠ maxValue) :
    ∃ p es, g.IsPath u w p es ∧ latency es < maxValue := by
  have hscanned := (finalState_spec (u := u) hnonneg).1
  rcases hscanned.tree w with htop | ⟨l, hchain⟩
  · exact absurd htop hdist
  rcases isPath_of_chain hchain with ⟨es, hpath, hcost⟩
  refine ⟨_, es, hpath, ?_⟩
  rw [hcost]
  exact lt_of_le_of_ne (hscanned.bound w) hdist

/-- A node at distance `MAX_VALUE`. -/
theorem right_iff_of_eq (hnonneg : ∀ i, ∀ e ∈ g.graph i, 0 ≤ e.getLatency) (h : u ≠ w)
    (hdist : (finalState g u).distance w = maxValue) :
    (g.PathRight u w (g.lowestLatencyPath u w) ↔ ¬ ∃ p es, g.IsPath u w p es) ∧
      ∀ p es, g.IsPath u w p es → maxValue ≤ latency es := by
  rcases finalState_spec (u := u) hnonneg with ⟨hscanned, hall⟩
  have hparent : (finalState g u).parentOf w = none := hscanned.fresh w hdist (Ne.symm h)
  have hpos : 0 < g.nodeCount := Nat.lt_of_le_of_lt (Nat.zero_le _) u.isLt
  have hresult : g.lowestLatencyPath u w = some none := by
    rw [lowestLatencyPath_fin h, followParents_none hparent hpos]
    exact if_neg (Ne.symm h)
  rw [hresult]
  constructor
  · constructor
    · intro hright
      rcases hright.null_iff.mp rfl with hu | hw | heq | hno
      · exact absurd (inBounds_fin u) hu
      · exact absurd (inBounds_fin w) hw
      · exact absurd (Fin.ext (Int.ofNat_inj.mp heq)) h
      · exact hno
    · intro hno
      refine ⟨some_ne_none _, ⟨fun _ => Or.inr (Or.inr (Or.inr hno)), fun _ => rfl⟩, ?_⟩
      intro p hp
      cases hp
  · intro p es hpath
    have hle := hscanned.dist_le hall (walk_of_isPath hpath)
    rw [hscanned.root, zero_add] at hle
    exact le_trans (le_of_eq hdist.symm) hle

end Result

/-- The path is right unless the nodes are connected, but by no path of latency below
`MAX_VALUE`. -/
theorem lowestLatencyPath_right_iff {g : NetAnalysis}
    (hnonneg : ∀ i, ∀ e ∈ g.graph i, 0 ≤ e.getLatency) (u w : ℤ) :
    g.PathRight u w (g.lowestLatencyPath u w) ↔
      (g.InBounds u → g.InBounds w → u ≠ w → (∃ p es, g.IsPath u w p es) →
        ∃ p es, g.IsPath u w p es ∧ latency es < maxValue) := by
  by_cases hall : g.InBounds u ∧ g.InBounds w ∧ u ≠ w
  · rcases hall with ⟨hu, hw, hne⟩
    rcases adjList_of_inBounds hu with ⟨u, rfl, -⟩
    rcases adjList_of_inBounds hw with ⟨w, rfl, -⟩
    have hne' : u ≠ w := fun heq => hne (congrArg (fun i : Fin _ => (i : ℤ)) heq)
    by_cases hdist : (finalState g u).distance w = maxValue
    · rcases right_iff_of_eq hnonneg hne' hdist with ⟨hiff, hfar⟩
      rw [hiff]
      constructor
      · exact fun hno _ _ _ hpath => absurd hpath hno
      · intro hclose hpath
        rcases hclose hu hw hne hpath with ⟨p, es, hes, hlt⟩
        exact absurd hlt (not_lt.mpr (hfar p es hes))
    · constructor
      · exact fun _ _ _ _ _ => exists_below hnonneg hdist
      · exact fun _ => right_of_ne hnonneg hne' hdist
  · -- the arguments are rejected at once
    have hresult : g.lowestLatencyPath u w = some none := dif_neg hall
    have hreason : ¬ g.InBounds u ∨ ¬ g.InBounds w ∨ u = w ∨ ¬ ∃ p es, g.IsPath u w p es := by
      by_contra hnot
      simp only [not_or, not_not] at hnot
      exact hall ⟨hnot.1, hnot.2.1, hnot.2.2.1⟩
    rw [hresult]
    constructor
    · exact fun _ hu hw hne => absurd ⟨hu, hw, hne⟩ hall
    · intro _
      refine ⟨some_ne_none _, ⟨fun _ => hreason, fun _ => rfl⟩, ?_⟩
      intro p hp
      cases hp

theorem getLatency_nonneg {n : ℕ} {lines : List (Edge n)} (h : ∀ e ∈ lines, 0 ≤ e.length)
    (i : Fin n) : ∀ e ∈ addEdges n lines i, 0 ≤ e.getLatency := by
  have hlength : ∀ e : Edge n, 0 ≤ e.length → 0 ≤ e.getLatency := by
    intro e he
    unfold Edge.getLatency
    split
    · exact div_nonneg he (by norm_num)
    · exact div_nonneg he (by norm_num)
  intro e he
  rcases mem_addEdges he with hmem | hmem
  · exact hlength e (h e hmem)
  · exact hlength e (h e.getReverse hmem)

theorem lowestLatencyPath_right_threeInLine :
    (∀ i, ∀ e ∈ threeInLine.graph i, 0 ≤ e.getLatency) ∧
      (threeInLine.PathRight 0 2 (threeInLine.lowestLatencyPath 0 2) ↔
        (threeInLine.InBounds 0 → threeInLine.InBounds 2 → (0 : ℤ) ≠ 2 →
          (∃ p es, threeInLine.IsPath 0 2 p es) →
            ∃ p es, threeInLine.IsPath 0 2 p es ∧ latency es < maxValue)) := by
  have hnonneg : ∀ i, ∀ e ∈ threeInLine.graph i, 0 ≤ e.getLatency := by
    apply getLatency_nonneg
    intro e he
    rcases mem_cons.mp he with rfl | he
    · norm_num
    · rw [mem_singleton.mp he]
      norm_num
  exact ⟨hnonneg, lowestLatencyPath_right_iff hnonneg 0 2⟩

theorem hundred_le_maxInt : (100 : ℤ) ≤ maxInt := by decide

/-- An edge whose length overflows a double. -/
def longEdge : Edge 2 := ⟨0, 1, true, 100, 10 ^ 400, hundred_le_maxInt⟩

def farApart : NetAnalysis := ofLines 2 [longEdge]

theorem not_lowestLatencyPath_right : (∀ i, ∀ e ∈ farApart.graph i, 0 ≤ e.getLatency) ∧
    ¬ farApart.PathRight 0 1 (farApart.lowestLatencyPath 0 1) := by
  constructor
  · apply getLatency_nonneg
    intro e he
    rw [mem_singleton.mp he]
    show (0 : ℚ) ≤ 10 ^ 400
    positivity
  · intro hright
    have hnull : farApart.lowestLatencyPath 0 1 = some none := by decide +kernel
    rcases hright.null_iff.mp hnull with hu | hw | heq | hno
    · exact hu (by decide)
    · exact hw (by decide)
    · cases heq
    · exact hno ⟨[0, 1], [longEdge],
        ⟨mem_cons_self, rfl, rfl, trivial⟩, rfl, rfl⟩

end PittCs.Cs1501.NetAnalysis
