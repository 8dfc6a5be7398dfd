import Mathlib.Data.Fintype.Pi
import PittCs.Lib.TransitionSystem

/-!
# Distance-vector routing of `overlay_node.c`

A node keeps one row of distances for every neighbour, its own row 0, a next hop for
every destination and, for every adjacent link, the heartbeats it has not seen
answered. `calc_distance_vector` rebuilds row 0 and the next hops from the rows of the
neighbours, and broadcasts row 0 when it changed. What a neighbour is sent also hides
the destinations that are reached through it (poisoned reverse).

The nodes of the configuration file are `Fin n`; in the source their ids start at 1.

`calc_distance_vector` keeps the old row 0 in a block of `malloc(num_nodes)` bytes and
stores a word for every node in it. Whether the block has that much room is up to the
library; where it has not, the call is undefined.
-/

namespace PittCs.Overlay

open PittCs.Lib

/-- `INFINITY`: the largest `uint32_t`. -/
def infinity : UInt32 := 4294967295

/-- `MAX_OUTSTANDING_HEARTBEATS` -/
def maxOutstandingHeartbeats : Nat := 10

/-- `struct edge` as read from the configuration file. -/
structure Edge (n : Nat) where
  src : Fin n
  dst : Fin n
  cost : UInt32
deriving DecidableEq, Repr

/-- `Edge_List` of a configuration file with positive, symmetric link costs. The order
is the order of the file. `room` says how many bytes a block of `malloc` has room for, by
the number asked for. -/
structure Config (n : Nat) where
  edges : List (Edge n)
  room : Nat → Nat
  loopless : ∀ e ∈ edges, e.src ≠ e.dst
  unique : ∀ e ∈ edges, ∀ e' ∈ edges, e.src = e'.src → e.dst = e'.dst → e = e'
  symmetric : ∀ e ∈ edges, ⟨e.dst, e.src, e.cost⟩ ∈ edges
  positive : ∀ e ∈ edges, 0 < e.cost

variable {n : Nat}

/-- A row of the routing table, and the payload of a DV packet. -/
abbrev Vec (n : Nat) : Type := Fin n → UInt32

/-- The edges out of a node, in the order of the file. -/
def Config.adjacent (cfg : Config n) (me : Fin n) : List (Edge n) :=
  cfg.edges.filter fun e => e.src = me

/-- What one node knows. `vectors u` is the row whose column 0 holds `u`: row 0 for the
node itself, and one row for every neighbour. -/
structure Node (n : Nat) where
  vectors : Fin n → Vec n
  nextHop : Fin n → Option (Fin n)
  outstandingHeartbeats : Fin n → Nat

/-- `get_edge_cost` -/
def Node.getEdgeCost (t : Node n) (e : Edge n) : UInt32 :=
  if maxOutstandingHeartbeats < t.outstandingHeartbeats e.dst then infinity else e.cost

/-- Row 0 and the forwarding table while `calc_distance_vector` builds them. -/
structure Route (n : Nat) where
  dist : Vec n
  hop : Fin n → Option (Fin n)

/-- Row 0 and the forwarding table reset to their defaults. -/
def Route.default (me : Fin n) : Route n where
  dist j := if j = me then 0 else infinity
  hop j := if j = me then some me else none

/-- The path to `j` over the edge `e`, when the edge is awake and the neighbour has a path
to `j`. The sum is one of `uint32_t`. -/
def Node.offer (t : Node n) (j : Fin n) (e : Edge n) : Option UInt32 :=
  if t.getEdgeCost e = infinity then none
  else if t.vectors e.dst j = infinity then none
  else some (t.vectors e.dst j + t.getEdgeCost e)

/-- One round of the loop over the neighbours. The loop over the destinations inside it
changes each column by itself. -/
def Node.relax (t : Node n) (r : Route n) (e : Edge n) : Route n where
  dist j := match t.offer j e with
    | some c => if c < r.dist j then c else r.dist j
    | none => r.dist j
  hop j := match t.offer j e with
    | some c => if c < r.dist j then some e.dst else r.hop j
    | none => r.hop j

/-- Row 0 and the forwarding table at the end of the loop over the neighbours. -/
def Config.route (cfg : Config n) (me : Fin n) (t : Node n) : Route n :=
  (cfg.adjacent me).foldl t.relax (Route.default me)

/-- The vector of `send_dv_over_link`: a destination reached through the target is
advertised as unreachable. -/
def Node.vecFor (t : Node n) (me target : Fin n) : Vec n := fun j =>
  if t.nextHop j = some target then infinity else t.vectors me j

/-- `broadcast_dv`: the packets and the nodes they go to. -/
def Config.broadcastDv (cfg : Config n) (me : Fin n) (t : Node n) : List (Fin n × Vec n) :=
  (cfg.adjacent me).map fun e => (e.dst, t.vecFor me e.dst)

/-- `prev_vec` has room for a word for each node. -/
def Config.PrevVecFits (cfg : Config n) : Prop := 4 * n ≤ cfg.room n

instance (cfg : Config n) : Decidable cfg.PrevVecFits :=
  inferInstanceAs (Decidable (4 * n ≤ cfg.room n))

/-- What `calc_distance_vector` does when it has saved row 0: the new state and the
packets it sends. -/
def Config.recalculate (cfg : Config n) (me : Fin n) (t : Node n) :
    Node n × List (Fin n × Vec n) :=
  let r := cfg.route me t
  let t' := { t with vectors := Function.update t.vectors me r.dist, nextHop := r.hop }
  if r.dist = t.vectors me then (t', []) else (t', cfg.broadcastDv me t')

/-- `calc_distance_vector`. It writes past `prev_vec` when the block is too small. -/
def Config.calcDistanceVector (cfg : Config n) (me : Fin n) (t : Node n) :
    Option (Node n × List (Fin n × Vec n)) :=
  if cfg.PrevVecFits then some (cfg.recalculate me t) else none

/-- `init_distance_vector` up to its call of `calc_distance_vector`. -/
def Node.blank (me : Fin n) : Node n where
  vectors u j := if j = u then 0 else infinity
  nextHop j := if j = me then some me else none
  outstandingHeartbeats _ := 0

def Config.initDistanceVector (cfg : Config n) (me : Fin n) :
    Option (Node n × List (Fin n × Vec n)) :=
  cfg.calcDistanceVector me (Node.blank me)

/-- The node with the received row in place. -/
def Node.store (t : Node n) (src : Fin n) (vec : Vec n) : Node n :=
  { t with vectors := Function.update t.vectors src vec }

/-- The node with the counter of one link set. -/
def Node.setOutstanding (t : Node n) (dst : Fin n) (k : Nat) : Node n :=
  { t with outstandingHeartbeats := Function.update t.outstandingHeartbeats dst k }

/-- `handle_dv`: a vector of a node that has no row is dropped. -/
def Config.handleDv (cfg : Config n) (me : Fin n) (t : Node n) (src : Fin n) (vec : Vec n) :
    Option (Node n × List (Fin n × Vec n)) :=
  if src = me ∨ ∃ e ∈ cfg.adjacent me, e.dst = src then
    cfg.calcDistanceVector me (t.store src vec)
  else some (t, [])

/-- One round of the loop of `send_heartbeats`, for the link to `dst`. A link that has just
died is counted once more, so that it is found dead only once. -/
def Config.sendHeartbeat (cfg : Config n) (me : Fin n) (t : Node n) (dst : Fin n) :
    Option (Node n × List (Fin n × Vec n)) :=
  let k := t.outstandingHeartbeats dst
  let k' := if k ≤ maxOutstandingHeartbeats then k + 1 else k
  let t₁ := t.setOutstanding dst k'
  if k' = maxOutstandingHeartbeats + 1 then
    (cfg.calcDistanceVector me t₁).map fun r => (r.1.setOutstanding dst (k' + 1), r.2)
  else some (t₁, [])

/-- `handle_heartbeat_echo` -/
def Config.handleHeartbeatEcho (cfg : Config n) (me : Fin n) (t : Node n) (src : Fin n) :
    Option (Node n × List (Fin n × Vec n)) :=
  if maxOutstandingHeartbeats < t.outstandingHeartbeats src then
    (cfg.calcDistanceVector me (t.setOutstanding src 0)).map fun r => (r.1.setOutstanding src 0, r.2)
  else some (t.setOutstanding src 0, [])

/-! ## The network -/

/-- All nodes, and the DV packets in flight from one node to another, oldest first. -/
structure Net (n : Nat) where
  node : Fin n → Node n
  inFlight : Fin n → Fin n → List (Vec n)

/-- What can happen. `send_heartbeats` is one `heartbeat` for each adjacent edge in turn;
an echo can arrive, or stay away, at any time. -/
inductive Event (n : Nat) where
  | dv (src dst : Fin n)
  | heartbeat (me dst : Fin n)
  | echo (me src : Fin n)
deriving DecidableEq, Repr

/-- `send_heartbeats`: one event for each adjacent edge. -/
def Config.sendHeartbeats (cfg : Config n) (me : Fin n) : List (Event n) :=
  (cfg.adjacent me).map fun e => .heartbeat me e.dst

/-- The vectors among `pkts` that go to `v`, in order. -/
def vecsTo (pkts : List (Fin n × Vec n)) (v : Fin n) : List (Vec n) :=
  (pkts.filter fun p => p.1 = v).map Prod.snd

/-- The node `me` moves on and sends its packets. -/
def Net.put (s : Net n) (me : Fin n) (r : Node n × List (Fin n × Vec n)) : Net n where
  node := Function.update s.node me r.1
  inFlight := Function.update s.inFlight me fun v => s.inFlight me v ++ vecsTo r.2 v

/-- The network without the oldest packet from `src` to `dst`. -/
def Net.take (s : Net n) (src dst : Fin n) (rest : List (Vec n)) : Net n :=
  { s with inFlight := Function.update s.inFlight src (Function.update (s.inFlight src) dst rest) }

/-- The network after an event, unless it cannot happen or a call of
`calc_distance_vector` is undefined. -/
def Config.step (cfg : Config n) (s : Net n) : Event n → Option (Net n)
  | .dv src dst =>
    match s.inFlight src dst with
    | [] => none
    | vec :: rest => (cfg.handleDv dst (s.node dst) src vec).map ((s.take src dst rest).put dst)
  | .heartbeat me dst =>
    if ∃ e ∈ cfg.adjacent me, e.dst = dst then
      (cfg.sendHeartbeat me (s.node me) dst).map (s.put me)
    else none
  | .echo me src =>
    if ∃ e ∈ cfg.adjacent me, e.dst = src then
      (cfg.handleHeartbeatEcho me (s.node me) src).map (s.put me)
    else none

/-- Every node has come out of `init_distance_vector`, with the packets it has sent. -/
def Net.start (r : Fin n → Node n × List (Fin n × Vec n)) : Net n where
  node v := (r v).1
  inFlight u := vecsTo (r u).2

def Config.system (cfg : Config n) : TransitionSystem (Net n) (Event n) where
  Init s := ∃ r, (∀ v, cfg.initDistanceVector v = some (r v)) ∧ s = Net.start r
  Next s e s' := cfg.step s e = some s'

/-- No DV packet is in flight. -/
def Net.Quiet (s : Net n) : Prop := ∀ u v, s.inFlight u v = []

instance (s : Net n) : Decidable s.Quiet := by
  unfold Net.Quiet
  infer_instance

end PittCs.Overlay
