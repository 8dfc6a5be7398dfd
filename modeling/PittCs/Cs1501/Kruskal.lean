import PittCs.Cs1501.IndirectedPq
import Mathlib.Order.WithBot
import PittCs.Cs1501.UnionFind
import Mathlib.Algebra.Order.Ring.Rat

/-!
# Priority queue

`PQ.java` of the network project: the binary heap of `IndirectedPQ.java` without the table.
The slots of the array hold `null` where nothing was stored.
-/

namespace PittCs.Cs1501

open PittCs.Lib.ArrayHeap Function PittCs.Lib.SpanningTree List

variable {α π : Type*}

/-- The fields of `PQ`. -/
structure PQ (α : Type*) where
  heap : Nat → Option α
  heap_length : Nat
  arr_length : Nat

namespace PQ

/-- `INIT_LEN` -/
def INIT_LEN : Nat := 10

/-- The constructor. -/
def new : PQ α := ⟨fun _ => none, 0, INIT_LEN⟩

/-- `size` -/
def size (q : PQ α) : Nat := q.heap_length

/-- `get` -/
def get (index : Nat) (q : PQ α) : Option α :=
  if index < q.heap_length then q.heap index else none

/-- `resize` -/
def resize (q : PQ α) : PQ α :=
  { q with
    arr_length := 2 * q.arr_length
    heap := fun i => if i < q.heap_length then q.heap i else none }

/-- `swap` -/
def swap (x y : Nat) (q : PQ α) : PQ α := { q with heap := exchange q.heap x y }

section Order

variable [LinearOrder π] (rank : α → π)

/-- What `compareTo` compares; no slot in use is `null`. -/
def slotRank (slot : Option α) : WithBot π := slot.elim ⊥ fun a => (rank a : WithBot π)

/-- `compare(x, y) < 0` -/
def less (q : PQ α) (x y : Nat) : Bool :=
  decide (slotRank rank (q.heap x) < slotRank rank (q.heap y))

/-- The loop of `pull_up`. The root is its own parent, where the comparison ends it. -/
def pullUpLoop : Nat → PQ α → Nat → PQ α
  | 0, q, _ => q
  | fuel + 1, q, child_index =>
    let parent_index := parent child_index
    if q.less rank child_index parent_index then
      pullUpLoop fuel (q.swap parent_index child_index) parent_index
    else q

/-- `add` -/
def add (key : α) (q : PQ α) : PQ α :=
  let q := if q.heap_length = q.arr_length then q.resize else q
  let q := { q with heap := Function.update q.heap q.heap_length (some key) }
  let q := pullUpLoop rank q.heap_length q q.heap_length
  { q with heap_length := q.heap_length + 1 }

/-- The condition of the loop of `push_down`. -/
def childLess (q : PQ α) (curr : Nat) : Bool :=
  2 * curr + 1 < q.heap_length &&
    ((2 * curr + 2 < q.heap_length && q.less rank (2 * curr + 2) curr) ||
      q.less rank (2 * curr + 1) curr)

/-- `smallest`, which is `curr` where an iteration starts. -/
def smallestChild (q : PQ α) (curr : Nat) : Nat :=
  let smallest := if q.less rank (2 * curr + 1) curr then 2 * curr + 1 else curr
  if 2 * curr + 2 < q.heap_length && q.less rank (2 * curr + 2) smallest then 2 * curr + 2
  else smallest

/-- The loop of `push_down`. -/
def pushDownLoop : Nat → PQ α → Nat → PQ α
  | 0, q, _ => q
  | fuel + 1, q, curr =>
    if q.childLess rank curr then
      pushDownLoop fuel (q.swap curr (q.smallestChild rank curr)) (q.smallestChild rank curr)
    else q

/-- `remove` -/
def remove (target : Nat) (q : PQ α) : PQ α :=
  if target ≥ q.heap_length then q
  else
    let q := q.swap target (q.heap_length - 1)
    let q := { q with heap_length := q.heap_length - 1 }
    pushDownLoop rank q.heap_length q target

/-! ## As a queue with a table -/

/-- All slots have the one key there is. -/
def noKeys : KeyVal Unit (Option α) (WithBot π) := ⟨fun _ => (), slotRank rank⟩

/-- The queue beside a table. -/
def withTable (q : PQ α) (table : Unit → Option Nat) : IndirectedPQ Unit (Option α) :=
  ⟨q.heap, table, q.heap_length, q.arr_length⟩

omit [LinearOrder π] in
theorem withTable_swap (q : PQ α) (table : Unit → Option Nat) (x y : Nat) :
    ∃ table', (q.withTable table).swap (noKeys rank) x y = (q.swap x y).withTable table' :=
  ⟨_, rfl⟩

theorem withTable_pullUpLoop (fuel : Nat) (q : PQ α) (table : Unit → Option Nat) (c : Nat) :
    ∃ table', (q.withTable table).pullUpLoop (noKeys rank) fuel c =
      (pullUpLoop rank fuel q c).withTable table' := by
  induction fuel generalizing q table c with
  | zero => exact ⟨table, rfl⟩
  | succ fuel ih =>
    unfold IndirectedPQ.pullUpLoop pullUpLoop
    dsimp only
    have hless : (q.withTable table).less (noKeys rank) c (parent c) = q.less rank c (parent c) := rfl
    rw [hless]
    split
    case isTrue =>
      rcases q.withTable_swap rank table (parent c) c with ⟨table', hswap⟩
      rw [hswap]
      exact ih _ table' _
    case isFalse => exact ⟨table, rfl⟩

theorem withTable_pushDownLoop (fuel : Nat) (q : PQ α) (table : Unit → Option Nat) (c : Nat) :
    ∃ table', (q.withTable table).pushDownLoop (noKeys rank) fuel c =
      (pushDownLoop rank fuel q c).withTable table' := by
  induction fuel generalizing q table c with
  | zero => exact ⟨table, rfl⟩
  | succ fuel ih =>
    unfold IndirectedPQ.pushDownLoop pushDownLoop
    have hless : (q.withTable table).childLess (noKeys rank) c = q.childLess rank c := rfl
    have hsmallest : (q.withTable table).smallestChild (noKeys rank) c = q.smallestChild rank c := rfl
    rw [hless, hsmallest]
    split
    case isTrue =>
      rcases q.withTable_swap rank table c (q.smallestChild rank c) with ⟨table', hswap⟩
      rw [hswap]
      exact ih _ table' _
    case isFalse => exact ⟨table, rfl⟩

/-! ## The objects of the queue -/

/-- A heap whose slots hold the objects of `S`. -/
structure Holds (q : PQ α) (S : α → Prop) : Prop where
  isHeap : IsHeap q.heap_length (slotRank rank ∘ q.heap)
  filled : ∀ i < q.heap_length, ∃ a, q.heap i = some a
  holds : ∀ a, S a ↔ ∃ i < q.heap_length, q.heap i = some a

variable {rank} {q : PQ α} {S : α → Prop}

variable (rank) in
theorem holds_new : Holds rank (new : PQ α) fun _ => False where
  isHeap _ _ hi := absurd hi (Nat.not_lt_zero _)
  filled _ hi := absurd hi (Nat.not_lt_zero _)
  holds _ := ⟨False.elim, fun ⟨_, hi, _⟩ => absurd hi (Nat.not_lt_zero _)⟩

theorem Holds.resize (h : Holds rank q S) : Holds rank q.resize S := by
  have hsame : ∀ i < q.heap_length, q.resize.heap i = q.heap i := fun i hi => if_pos hi
  constructor
  case isHeap =>
    intro i hpos hi
    show slotRank rank (q.resize.heap (parent i)) ≤ slotRank rank (q.resize.heap i)
    rw [hsame i hi, hsame _ ((parent_lt hpos).trans hi)]
    exact h.isHeap i hpos hi
  case filled =>
    intro i hi
    rw [hsame i hi]
    exact h.filled i hi
  case holds =>
    intro a
    rw [h.holds]
    constructor
    · rintro ⟨i, hi, hia⟩
      exact ⟨i, hi, (hsame i hi).trans hia⟩
    · rintro ⟨i, hi, hia⟩
      exact ⟨i, hi, (hsame i hi).symm.trans hia⟩

omit [LinearOrder π] in
/-- The objects stay the same when slots are rearranged. -/
theorem filled_rearranged {m : Nat} {p p' : IndirectedPQ Unit (Option α)}
    (hre : Rearranged (noKeys rank) m p p') (hfilled : ∀ i < m, ∃ a, p.heap i = some a) :
    ∀ i < m, ∃ a, p'.heap i = some a := by
  intro i hi
  rcases (hre.exists_heap_eq le_rfl (p'.heap i)).mp ⟨i, hi, rfl⟩ with ⟨j, hj, hji⟩
  rcases hfilled j hj with ⟨a, ha⟩
  exact ⟨a, hji.symm.trans ha⟩

/-- `add` adds the object. -/
theorem holds_add (h : Holds rank q S) (key : α) :
    Holds rank (q.add rank key) fun a => a = key ∨ S a := by
  have hresized : Holds rank (if q.heap_length = q.arr_length then q.resize else q) S := by
    split
    case isTrue => exact h.resize
    case isFalse => exact h
  unfold add
  dsimp only
  generalize (if q.heap_length = q.arr_length then q.resize else q) = q at hresized
  -- the new object at the end, before it is pulled up
  let last : PQ α := { q with heap := Function.update q.heap q.heap_length (some key) }
  have hup : UpTo (q.heap_length + 1) (slotRank rank ∘ last.heap) q.heap_length := by
    show UpTo _ (slotRank rank ∘ Function.update q.heap q.heap_length (some key)) _
    rw [comp_update]
    exact hresized.isHeap.upTo_push _
  have hlast : ∀ i < q.heap_length, last.heap i = q.heap i :=
    fun i hi => update_of_ne hi.ne _ _
  have hkey : last.heap q.heap_length = some key := update_self _ _ _
  have hfilled : ∀ i < q.heap_length + 1, ∃ a, last.heap i = some a := by
    intro i hi
    rcases Nat.lt_succ_iff_lt_or_eq.mp hi with hi | rfl
    · rw [hlast i hi]
      exact hresized.filled i hi
    · exact ⟨key, hkey⟩
  rcases withTable_pullUpLoop rank q.heap_length last (fun _ => none) q.heap_length with ⟨table', heq⟩
  rcases pullUpLoop_spec (I := noKeys rank) (q := last.withTable fun _ => none)
    q.heap_length q.heap_length (Nat.lt_succ_self _) le_rfl hup with ⟨hre, hheap⟩
  rw [heq] at hre hheap
  have hlength : (pullUpLoop rank q.heap_length last q.heap_length).heap_length = q.heap_length :=
    hre.heap_length
  constructor
  case isHeap =>
    show IsHeap ((pullUpLoop rank q.heap_length last q.heap_length).heap_length + 1) _
    rw [hlength]
    exact hheap
  case filled =>
    show ∀ i < (pullUpLoop rank q.heap_length last q.heap_length).heap_length + 1, _
    rw [hlength]
    exact filled_rearranged hre hfilled
  case holds =>
    intro a
    show _ ↔ ∃ i < (pullUpLoop rank q.heap_length last q.heap_length).heap_length + 1, _
    rw [hlength]
    refine Iff.trans ?_ (hre.exists_heap_eq le_rfl (some a)).symm
    rw [hresized.holds]
    constructor
    · rintro (rfl | ⟨i, hi, hia⟩)
      · exact ⟨q.heap_length, Nat.lt_succ_self _, hkey⟩
      · exact ⟨i, Nat.lt_succ_of_lt hi, (hlast i hi).trans hia⟩
    · rintro ⟨i, hi, hia⟩
      rcases Nat.lt_succ_iff_lt_or_eq.mp hi with hi | rfl
      · exact Or.inr ⟨i, hi, (hlast i hi).symm.trans hia⟩
      · exact Or.inl (Option.some_inj.mp (hia.symm.trans hkey))

/-- The object in front has the least rank. -/
theorem Holds.get_zero (h : Holds rank q S) (hpos : 0 < q.size) :
    ∃ a, q.get 0 = some a ∧ S a ∧ ∀ b, S b → rank a ≤ rank b := by
  rcases h.filled 0 hpos with ⟨a, ha⟩
  refine ⟨a, (if_pos hpos).trans ha, (h.holds a).mpr ⟨0, hpos, ha⟩, ?_⟩
  intro b hb
  rcases (h.holds b).mp hb with ⟨i, hi, hib⟩
  have hle := h.isHeap.root_le hi
  rw [comp_apply, comp_apply, ha, hib] at hle
  exact WithBot.coe_le_coe.mp hle

theorem Holds.size_eq_zero (h : Holds rank q S) (hzero : ¬ 0 < q.size) (a : α) : ¬ S a := by
  intro ha
  rcases (h.holds a).mp ha with ⟨i, hi, -⟩
  exact hzero (Nat.zero_lt_of_lt hi)

/-- `remove(0)` removes the object in front; an equal one may be left. -/
theorem holds_remove (h : Holds rank q S) {a : α} (hpos : 0 < q.size) (hget : q.get 0 = some a) :
    ∃ S', Holds rank (q.remove rank 0) S' ∧ (q.remove rank 0).size + 1 = q.size ∧
      (∀ b, S b → b = a ∨ S' b) ∧ ∀ b, S' b → S b := by
  have hfront : q.heap 0 = some a := (if_pos hpos).symm.trans hget
  have hlast : q.heap_length - 1 < q.heap_length := Nat.sub_lt hpos Nat.one_pos
  have hin0 : ¬ 0 ≥ q.heap_length := Nat.not_le.mpr hpos
  unfold remove
  rw [if_neg hin0]
  dsimp only
  -- the last object takes the place of the first
  let gap : PQ α := { q.swap 0 (q.heap_length - 1) with heap_length := q.heap_length - 1 }
  have hgap : ∀ i, i ≠ 0 → i < q.heap_length - 1 → gap.heap i = q.heap i :=
    fun i hi hlt => exchange_of_ne q.heap hi hlt.ne
  have hzero : gap.heap 0 = q.heap (q.heap_length - 1) := exchange_left q.heap 0 _
  have hdown : DownFrom gap.heap_length (slotRank rank ∘ gap.heap) 0 := by
    constructor
    case order =>
      intro i hi hin hpi
      show slotRank rank (gap.heap (parent i)) ≤ slotRank rank (gap.heap i)
      rw [hgap i hi.ne' hin, hgap _ hpi ((parent_lt hi).trans hin)]
      exact h.isHeap i hi (hin.trans hlast)
    case grand => exact fun hlt => absurd hlt (lt_irrefl 0)
  rcases withTable_pushDownLoop rank gap.heap_length gap (fun _ => none) 0 with ⟨table', heq⟩
  rcases pushDownLoop_spec (I := noKeys rank) (q := gap.withTable fun _ => none)
    gap.heap_length 0 (by rw [Nat.zero_add]; exact le_rfl) hdown with ⟨hre, hheap⟩
  rw [heq] at hre hheap
  have hlength : (pushDownLoop rank gap.heap_length gap 0).heap_length = gap.heap_length :=
    hre.heap_length
  have hfilled : ∀ i < gap.heap_length, ∃ a, gap.heap i = some a := by
    intro i hi
    by_cases hi0 : i = 0
    · rw [hi0, hzero]
      exact h.filled _ hlast
    · rw [hgap i hi0 hi]
      exact h.filled i (lt_trans hi hlast)
  have hin : ∀ b, (∃ i < gap.heap_length, gap.heap i = some b) →
      ∃ i < q.heap_length, q.heap i = some b := by
    rintro b ⟨i, hi, hib⟩
    by_cases hi0 : i = 0
    · rw [hi0, hzero] at hib
      exact ⟨q.heap_length - 1, hlast, hib⟩
    · exact ⟨i, lt_trans hi hlast, (hgap i hi0 hi).symm.trans hib⟩
  refine ⟨fun b => ∃ i < gap.heap_length, gap.heap i = some b, ?_, ?_, ?_, ?_⟩
  · constructor
    case isHeap =>
      show IsHeap (pushDownLoop rank gap.heap_length gap 0).heap_length _
      rw [hlength]
      exact hheap
    case filled =>
      show ∀ i < (pushDownLoop rank gap.heap_length gap 0).heap_length, _
      rw [hlength]
      exact filled_rearranged hre hfilled
    case holds =>
      intro b
      show _ ↔ ∃ i < (pushDownLoop rank gap.heap_length gap 0).heap_length, _
      rw [hlength]
      exact (hre.exists_heap_eq le_rfl (some b)).symm
  · show (pushDownLoop rank gap.heap_length gap 0).heap_length + 1 = q.heap_length
    rw [hlength]
    exact Nat.sub_add_cancel hpos
  · intro b hb
    rcases (h.holds b).mp hb with ⟨i, hi, hib⟩
    by_cases hi0 : i = 0
    · rw [hi0, hfront] at hib
      exact Or.inl (Option.some_inj.mp hib).symm
    · refine Or.inr ?_
      by_cases hil : i = q.heap_length - 1
      · -- the last object is in front now
        refine ⟨0, ?_, ?_⟩
        · show 0 < q.heap_length - 1
          omega
        · rw [hzero, ← hil, hib]
      · have hlt : i < q.heap_length - 1 := by omega
        exact ⟨i, hlt, (hgap i hi0 hlt).trans hib⟩
  · intro b hb
    exact (h.holds b).mpr (hin b hb)

end Order

end PQ

/-!
## Spanning tree of least latency

`lowestAvgLatST` of `NetAnalysis.java`: the edges leave a queue by latency, and those
between nodes that are not connected yet make the tree.
-/

/-- `STE` -/
structure STE (n : ℕ) where
  u : Fin n
  w : Fin n
deriving DecidableEq

/-- `getSTE` -/
def Edge.getSTE {n : ℕ} (e : Edge n) : STE n := ⟨e.source, e.destination⟩

namespace NetAnalysis

/-- The loops that fill the queue. -/
def fillQueue {n : ℕ} (edges : PQ (Edge n)) : List (Edge n) → PQ (Edge n)
  | [] => edges
  | e :: list => fillQueue (edges.add Edge.getLatency e) list

/-- The loop of `lowestAvgLatST`. -/
def treeLoop {n : ℕ} : ℕ → PQ (Edge n) → UnionFind n → List (STE n) →
    Except GraphError (UnionFind n × List (STE n))
  | 0, _, u, tree => .ok (u, tree)
  | fuel + 1, edges, u, tree =>
    if edges.size > 0 then
      match edges.get 0 with
      | none => .error .nullPointer
      | some nextEdge =>
        let edges := edges.remove Edge.getLatency 0
        let connected := u.connected nextEdge.source nextEdge.destination
        if !connected.1 then
          treeLoop fuel edges (connected.2.union nextEdge) (tree ++ [nextEdge.getSTE])
        else treeLoop fuel edges connected.2 tree
    else .ok (u, tree)

/-- `lowestAvgLatST`. Every iteration of the loop removes an edge. -/
def lowestAvgLatST (g : NetAnalysis) : Except GraphError (Option (List (STE g.nodeCount))) := do
  let edges := fillQueue PQ.new g.allEdges
  let result ← treeLoop edges.size edges (UnionFind.new g.nodeCount) []
  let connected ← result.1.connectedGraph
  if !connected.1 then .ok none else .ok (some result.2)

/-! ## What it should return -/

/-- A spanning tree of the graph. -/
structure SpanningTree (g : NetAnalysis) (tree : List (Edge g.nodeCount)) : Prop where
  edges : ∀ e ∈ tree, e ∈ g.graph e.source
  length : tree.length = g.nodeCount - 1
  acyclic : Forest (edgeEnds g.nodeCount) tree
  connects : Spans (edgeEnds g.nodeCount) tree

/-- The sum of the latencies. -/
def totalLatency {n : ℕ} (tree : List (Edge n)) : ℚ := total Edge.getLatency tree

/-- `null` for a graph that is not connected, and for any other one the edges of a spanning
tree of least latency. -/
structure LowestRight (g : NetAnalysis)
    (result : Except GraphError (Option (List (STE g.nodeCount)))) : Prop where
  null : result = .ok none ↔ ¬ g.Connected
  lowest : g.Connected → ∃ tree, result = .ok (some (tree.map Edge.getSTE)) ∧
    g.SpanningTree tree ∧ ∀ tree', g.SpanningTree tree' → totalLatency tree ≤ totalLatency tree'

/-! ## The loops -/

theorem holds_fillQueue {n : ℕ} {edges : PQ (Edge n)} {S : Edge n → Prop}
    (h : PQ.Holds Edge.getLatency edges S) (list : List (Edge n)) :
    PQ.Holds Edge.getLatency (fillQueue edges list) fun e => e ∈ list ∨ S e := by
  induction list generalizing edges S with
  | nil => simpa [fillQueue] using h
  | cons e list ih =>
    have hrest := ih (PQ.holds_add h e)
    unfold fillQueue
    convert hrest using 2 with e'
    rw [mem_cons]
    tauto

section Loop

variable {n : ℕ} {all : List (Edge n)}

/-- The tree so far, where `S` are the edges in the queue. -/
structure Grown (all : List (Edge n)) (S : Edge n → Prop) (u : UnionFind n)
    (tree : List (Edge n)) : Prop where
  greedy : Greedy (edgeEnds n) Edge.getLatency all S tree
  linkedBy : u.LinkedBy tree
  roots : u.roots.card + tree.length = n

theorem grown_start {S : Edge n → Prop} (hall : ∀ e ∈ all, S e) :
    Grown all S (UnionFind.new n) [] where
  greedy := .start hall
  linkedBy := UnionFind.linkedBy_new
  roots := UnionFind.card_roots_new

variable {u : UnionFind n} {tree : List (Edge n)}

theorem Grown.findParent {S : Edge n → Prop} (h : Grown all S u tree) (node : Fin n) :
    Grown all S (u.findParent node).2 tree where
  greedy := h.greedy
  linkedBy := h.linkedBy.findParent node
  roots := by
    have hroots : (u.findParent node).2.roots = u.roots := by
      unfold UnionFind.roots
      simp only [UnionFind.root_findParent]
    rw [hroots]
    exact h.roots

/-- No edge is left. -/
theorem Grown.done {S : Edge n → Prop} (h : Grown all S u tree) (hnone : ∀ e, ¬ S e) :
    Grown all (fun _ => False) u tree where
  greedy :=
    { subset := h.greedy.subset
      seen := fun e he => Or.inr ((h.greedy.seen e he).resolve_left (hnone e))
      forest := h.greedy.forest
      completes := h.greedy.completes }
  linkedBy := h.linkedBy
  roots := h.roots

/-- The edge in front joins two roots, or its ends are connected. -/
theorem Grown.next {S S' : Edge n → Prop} {e : Edge n} (h : Grown all S u tree) (hmem : e ∈ all)
    (hmin : ∀ e', S e' → e.getLatency ≤ e'.getLatency) (hleft : ∀ e', S e' → e' = e ∨ S' e') :
    (u.root e.source = u.root e.destination → Grown all S' u tree) ∧
      (u.root e.source ≠ u.root e.destination → Grown all S' (u.union e) (tree ++ [e])) := by
  have hcloses : u.root e.source = u.root e.destination ↔ Closes (edgeEnds n) tree e :=
    h.linkedBy e.source e.destination
  constructor
  · exact fun hsame => ⟨h.greedy.skip hleft (hcloses.mp hsame), h.linkedBy, h.roots⟩
  · intro hne
    refine ⟨h.greedy.take hleft hmem hmin fun hc => hne (hcloses.mpr hc), ?_, ?_⟩
    · refine (h.linkedBy.union e).of_subset ?_ ?_
      · intro x hx
        simpa [or_comm] using hx
      · intro x hx
        simpa [or_comm] using hx
    · have hcard := UnionFind.card_roots_union hne
      have hroots := h.roots
      rw [length_append, length_singleton]
      omega

theorem treeLoop_spec (fuel : ℕ) {edges : PQ (Edge n)} {S : Edge n → Prop}
    (hholds : PQ.Holds Edge.getLatency edges S) (hfuel : edges.size ≤ fuel)
    (hall : ∀ e, S e → e ∈ all) (h : Grown all S u tree) :
    ∃ u' tree', treeLoop fuel edges u (tree.map Edge.getSTE) = .ok (u', tree'.map Edge.getSTE) ∧
      Grown all (fun _ => False) u' tree' := by
  induction fuel generalizing edges S u tree with
  | zero => exact ⟨u, tree, rfl, h.done (hholds.size_eq_zero (Nat.not_lt.mpr hfuel))⟩
  | succ fuel ih =>
    unfold treeLoop
    split
    case isTrue hpos =>
      rcases hholds.get_zero hpos with ⟨e, hget, heS, hmin⟩
      rcases PQ.holds_remove hholds hpos hget with ⟨S', hholds', hsize, hleft, hless⟩
      rw [hget]
      dsimp only
      have hstep := ((h.findParent e.source).findParent e.destination).next (hall e heS) hmin hleft
      simp only [UnionFind.root_findParent] at hstep
      have hfuel' : (edges.remove Edge.getLatency 0).size ≤ fuel := by omega
      have hall' : ∀ e', S' e' → e' ∈ all := fun e' he' => hall e' (hless e' he')
      by_cases hsame : u.root e.source = u.root e.destination
      · have hanswer : (u.connected e.source e.destination).1 = true := by
          simp [UnionFind.connected, hsame]
        rw [hanswer]
        exact ih hholds' hfuel' hall' (hstep.1 hsame)
      · have hanswer : (u.connected e.source e.destination).1 = false := by
          simp [UnionFind.connected, hsame]
        have happ : tree.map Edge.getSTE ++ [e.getSTE] = (tree ++ [e]).map Edge.getSTE := by
          rw [map_append, map_singleton]
        rw [hanswer, happ]
        exact ih hholds' hfuel' hall' (hstep.2 hsame)
    case isFalse hzero => exact ⟨u, tree, rfl, h.done (hholds.size_eq_zero hzero)⟩

end Loop

/-! ## The tree -/

theorem lowestAvgLatST_right {g : NetAnalysis} (hn : 0 < g.nodeCount) :
    g.LowestRight g.lowestAvgLatST := by
  have hholds := holds_fillQueue (PQ.holds_new Edge.getLatency) g.allEdges
  simp only [or_false] at hholds
  rcases treeLoop_spec _ hholds le_rfl (fun _ he => he) (grown_start fun _ he => he) with
    ⟨u, tree, hloop, hgrown⟩
  rcases UnionFind.connectedGraph_spec hgrown.linkedBy hn with ⟨u', hanswer, hspans⟩
  have hresult : g.lowestAvgLatST = if !(decide (∀ a b, u.root a = u.root b)) then .ok none
      else .ok (some (tree.map Edge.getSTE)) := by
    unfold lowestAvgLatST
    dsimp only
    rw [map_nil] at hloop
    rw [hloop]
    show (do
      let connected ← u.connectedGraph
      if !connected.1 then .ok none else .ok (some (tree.map Edge.getSTE))) = _
    rw [hanswer]
    rfl
  have hconnected : (∀ a b, u.root a = u.root b) ↔ g.Connected := by
    rw [hspans]
    constructor
    · exact fun h a b => (h a b).mono hgrown.greedy.subset
    · exact fun h a b => hgrown.greedy.closes (fun _ => id) (h a b)
  rw [hresult]
  by_cases hall : ∀ a b, u.root a = u.root b
  · rw [decide_eq_true hall]
    have hlength : tree.length = g.nodeCount - 1 := by
      have hone := UnionFind.card_roots_of_connected hn hall
      have hroots := hgrown.roots
      omega
    constructor
    case null =>
      constructor
      · intro h
        cases h
      · exact fun h => absurd (hconnected.mp hall) h
    case lowest =>
      intro _
      refine ⟨tree, rfl, ⟨?_, hlength, hgrown.greedy.forest, hspans.mp hall⟩, ?_⟩
      · exact fun e he => mem_allEdges.mp (hgrown.greedy.subset he)
      · intro tree' htree'
        refine hgrown.greedy.total_le ?_ htree'.connects (htree'.length.trans hlength.symm)
        exact fun e he => mem_allEdges.mpr (htree'.edges e he)
  · rw [decide_eq_false hall]
    have hno : ¬ g.Connected := fun h => hall (hconnected.mpr h)
    exact ⟨⟨fun _ => hno, fun _ => rfl⟩, fun h => absurd h hno⟩

/-- Without nodes there is no node 0 to look up. -/
theorem lowestAvgLatST_of_not_pos {g : NetAnalysis} (hn : ¬ 0 < g.nodeCount) :
    g.lowestAvgLatST = .error (.arrayIndexOutOfBounds 0) := by
  have hholds := holds_fillQueue (PQ.holds_new Edge.getLatency) g.allEdges
  simp only [or_false] at hholds
  rcases treeLoop_spec _ hholds le_rfl (fun _ he => he) (grown_start fun _ he => he) with
    ⟨u, tree, hloop, -⟩
  rw [map_nil] at hloop
  unfold lowestAvgLatST
  dsimp only
  rw [hloop]
  show (do
    let connected ← u.connectedGraph
    if !connected.1 then .ok none else .ok (some (tree.map Edge.getSTE))) = _
  unfold UnionFind.connectedGraph
  rw [dif_neg hn]
  rfl

/-- The method is right on the graphs that have a node. -/
theorem lowestAvgLatST_right_iff (g : NetAnalysis) :
    g.LowestRight g.lowestAvgLatST ↔ 0 < g.nodeCount := by
  constructor
  · intro h
    by_contra hn
    have hconnected : g.Connected := by
      intro a
      exact absurd (Nat.zero_lt_of_lt a.isLt) hn
    rcases h.lowest hconnected with ⟨tree, htree, -⟩
    rw [lowestAvgLatST_of_not_pos hn] at htree
    cases htree
  · exact lowestAvgLatST_right

/-- The graph of a file with the one line `0`. -/
theorem not_lowestAvgLatST_right_empty :
    ¬ (ofLines 0 []).LowestRight (ofLines 0 []).lowestAvgLatST := by
  intro h
  have hconnected : (ofLines 0 []).Connected := fun a => Fin.elim0 a
  rcases h.lowest hconnected with ⟨tree, htree, -⟩
  cases htree

end NetAnalysis

end PittCs.Cs1501
