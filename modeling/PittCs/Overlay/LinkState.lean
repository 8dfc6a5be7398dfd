import PittCs.Lib.Dijkstra
import PittCs.Overlay.DistanceVector

/-!
# Link-state routing of `overlay_node.c`

Each node knows all links and computes the least costs of the paths from itself by
Dijkstra's algorithm, with the node before each on such a path. The next hops are found
by going back along these. Ids start at 1 and indices at 0; the ids, the indices, the
costs and the sentinels `INFINITY` and -1 are all `uint32_t`.
-/

namespace PittCs.Overlay

open PittCs.Lib

/-- -1 as `uint32_t`. -/
def minusOne : UInt32 := 4294967295

/-- `struct edge`, without the pointers to its nodes. -/
structure Link where
  srcId : UInt32
  dstId : UInt32
  cost : UInt32
  outstandingHeartbeats : UInt32
deriving DecidableEq

/-- `Node_List` with the ids of its nodes, `Edge_List` and `My_ID`, as read from the
configuration file: the ids are 1, 2, ..., N and the links are between nodes of the
list. -/
structure Topology where
  nodes : List UInt32
  links : List Link
  myId : UInt32
  few : nodes.length < 4294967295
  ids : ∀ id, id ∈ nodes ↔ 1 ≤ id.toNat ∧ id.toNat ≤ nodes.length
  ends : ∀ e ∈ links, e.srcId ∈ nodes ∧ e.dstId ∈ nodes
  mine : myId ∈ nodes

/-- `struct link_state`; its arrays have an entry for each index below `num_nodes`. -/
structure LinkState where
  distances : UInt32 → UInt32
  parentOf : UInt32 → UInt32
  inSet : UInt32 → Bool

/-- `get_edge_cost` -/
def Link.getEdgeCost (e : Link) : UInt32 :=
  if e.outstandingHeartbeats.toNat > maxOutstandingHeartbeats then infinity else e.cost

namespace Topology

/-- `get_node_from_id`; the node is known by its id. -/
def getNodeFromId (t : Topology) (id : UInt32) : Option UInt32 := t.nodes.find? fun n => n = id

/-- `reset_link_state` -/
def resetLinkState (t : Topology) : LinkState where
  distances i := if i + 1 = t.myId then 0 else infinity
  parentOf i := if i + 1 = t.myId then i else minusOne
  inSet _ := false

/-- One round of the loop over all edges for the node at `currIndex`. -/
def relaxLink (currIndex : UInt32) (ls : LinkState) (e : Link) : LinkState :=
  if e.srcId ≠ currIndex + 1 then ls
  else
    let adjIndex := e.dstId - 1
    let edgeCost := e.getEdgeCost
    if edgeCost = infinity then ls
    else if ls.distances currIndex + edgeCost < ls.distances adjIndex then
      { ls with
        distances := Function.update ls.distances adjIndex (ls.distances currIndex + edgeCost)
        parentOf := Function.update ls.parentOf adjIndex (currIndex + 1) }
    else ls

/-- The loop over all edges, after which the node is in the set. -/
def scanLinks (t : Topology) (currIndex : UInt32) (ls : LinkState) : LinkState :=
  let ls := t.links.foldl (relaxLink currIndex) ls
  { ls with inSet := Function.update ls.inSet currIndex true }

/-- One round of the search for the nearest node outside the set: the id and the distance
found so far. -/
def nearer (ls : LinkState) (small : UInt32 × UInt32) (k : UInt32) : UInt32 × UInt32 :=
  if ls.distances k < small.2 ∧ ls.inSet k = false then (k + 1, ls.distances k) else small

/-- The indices of the arrays. -/
def indices (t : Topology) : List UInt32 := (List.range t.nodes.length).map UInt32.ofNat

/-- The id of the nearest node outside the set that has a path, or -1. -/
def smallNode (t : Topology) (ls : LinkState) : UInt32 :=
  (t.indices.foldl (nearer ls) (minusOne, infinity)).1

/-- The main loop of `calc_link_state`, with the number of rounds that are left. -/
def calcLoop (t : Topology) : Nat → UInt32 → LinkState → LinkState
  | 0, _, ls => ls
  | rounds + 1, currIndex, ls =>
    let ls := t.scanLinks currIndex ls
    let small := t.smallNode ls
    if small = minusOne then ls else t.calcLoop rounds (small - 1) ls

/-- `calc_link_state` -/
def calcLinkState (t : Topology) (ls : LinkState) : LinkState :=
  let currIndex := t.myId - 1
  t.calcLoop t.nodes.length currIndex
    { ls with parentOf := Function.update ls.parentOf currIndex t.myId }

/-- `find_parent`, with the number of calls that the counter still allows. -/
def findParent (t : Topology) (ls : LinkState) (targetId : UInt32) : Nat → UInt32 → UInt32
  | 0, _ => minusOne
  | calls + 1, currId =>
    let index := currId - 1
    if index.toNat ≥ t.nodes.length then minusOne
    else
      let nextId := ls.parentOf index
      if nextId = targetId then currId else t.findParent ls targetId calls nextId

/-- One round of `set_forwarding_table_ls`. An unsigned `forward_id` is never negative. -/
def setNextHop (t : Topology) (ls : LinkState) (hop : UInt32 → Option UInt32) (i : UInt32) :
    UInt32 → Option UInt32 :=
  let nodeId := i + 1
  let forwardId := t.findParent ls t.myId (t.nodes.length + 1) nodeId
  match t.getNodeFromId nodeId with
  | none => hop
  | some currNode => Function.update hop currNode (t.getNodeFromId forwardId)

/-- `set_forwarding_table_ls`; `hop` has the `next_hop` of each node. -/
def setForwardingTableLs (t : Topology) (ls : LinkState) (hop : UInt32 → Option UInt32) :
    UInt32 → Option UInt32 :=
  t.indices.foldl (t.setNextHop ls) hop

/-- The three functions one after the other, as they are called whenever a link changes. -/
def linkState (t : Topology) : LinkState := t.calcLinkState t.resetLinkState

def forwarding (t : Topology) (hop : UInt32 → Option UInt32) : UInt32 → Option UInt32 :=
  t.setForwardingTableLs t.linkState hop

end Topology

/-! ## What the tables should be -/

def Link.arc (e : Link) : Arc UInt32 := ⟨e.srcId, e.dstId, e.cost.toNat⟩

namespace Topology

/-- All links. -/
def arcs (t : Topology) : Set (Arc UInt32) := {a | ∃ e ∈ t.links, e.arc = a}

/-- The links with few outstanding heartbeats. -/
def aliveArcs (t : Topology) : Set (Arc UInt32) :=
  {a | ∃ e ∈ t.links, e.outstandingHeartbeats.toNat ≤ maxOutstandingHeartbeats ∧ e.arc = a}

/-- Every path costs less than `INFINITY`. -/
def PathSumsBelow (t : Topology) : Prop :=
  ∀ u l v, IsPath t.arcs u l v → arcsCost l < infinity.toNat

/-- The distance and the next hop of the node `v` are right. -/
structure CorrectAt (t : Topology) (distance : UInt32) (hop : Option UInt32) (v : UInt32) :
    Prop where
  infinity_iff : distance = infinity ↔ ¬ ∃ l, IsPath t.aliveArcs t.myId l v
  least : (∃ l, IsPath t.aliveArcs t.myId l v) →
    LeastCost t.aliveArcs t.myId v distance.toNat
  self : v = t.myId → hop = some t.myId
  unreachable : (¬ ∃ l, IsPath t.aliveArcs t.myId l v) → hop = none
  first : v ≠ t.myId → (∃ l, IsPath t.aliveArcs t.myId l v) →
    ∃ e l, IsPath t.aliveArcs t.myId (e :: l) v ∧ arcsCost (e :: l) = distance.toNat ∧
      hop = some e.dst

/-- All distances and next hops are right, whatever the next hops were before. -/
def Correct (t : Topology) : Prop :=
  ∀ hop, ∀ v ∈ t.nodes, t.CorrectAt (t.linkState.distances (v - 1)) (t.forwarding hop v) v

/-- The links that `calc_link_state` does not disregard. -/
def usedArcs (t : Topology) : Set (Arc UInt32) :=
  {a | ∃ e ∈ t.links, e.getEdgeCost ≠ infinity ∧ e.arc = a}

/-- No sum of a least cost and the cost of a link wraps around to less than the least cost
of the end of the link. -/
def NoWrapAround (t : Topology) : Prop :=
  ∀ e ∈ t.usedArcs, NoWrap t.aliveArcs t.myId infinity.toNat e

end Topology

end PittCs.Overlay
