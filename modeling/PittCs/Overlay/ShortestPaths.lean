import Mathlib.Combinatorics.SimpleGraph.Connectivity.Connected
import PittCs.Lib.NextHop
import PittCs.Overlay.Consistency

/-!
# Shortest paths when the network is quiet

With no DV packet in flight and every link alive or dead at both of its ends, the rows of
the neighbours are what they advertise now. Then the tables of all nodes agree with each
other, and row 0 and the next hops are those of the shortest paths over the links that
are alive. This needs a run without silent switches: a node that has silently changed
over to another neighbour still hides its path from the one it left. And no least sum may
be `INFINITY` itself, which would be taken for no path.
-/

namespace PittCs.Overlay

open PittCs.Lib SimpleGraph List

variable {n : Nat} {cfg : Config n} {s : Net n}

/-! ## The overlay graph -/

theorem Config.Linked.symm {u v : Fin n} (h : cfg.Linked u v) : cfg.Linked v u := by
  obtain ⟨e, he, rfl, rfl⟩ := h
  exact ⟨_, cfg.symmetric e he, rfl, rfl⟩

/-- The overlay with all its links. -/
def Config.graph (cfg : Config n) : SimpleGraph (Fin n) where
  Adj u v := cfg.Linked u v
  symm := ⟨fun _ _ h => h.symm⟩
  loopless := ⟨fun _ h => h.ne rfl⟩

/-- The cost of the link from `u` to `v`. -/
def Config.cost (cfg : Config n) (u v : Fin n) : ℕ :=
  ((cfg.edges.find? fun e => e.src = u ∧ e.dst = v).map fun e => e.cost.toNat).getD 0

/-- Every walk that takes no link twice costs less than `b`. -/
def Config.SumsBelow (cfg : Config n) (b : ℕ) : Prop :=
  ∀ u v (p : cfg.graph.Walk u v), p.IsTrail → walkCost cfg.cost p < b

/-- The link to `v` is not dead at `u`. -/
def Net.Awake (s : Net n) (u v : Fin n) : Prop :=
  (s.node u).outstandingHeartbeats v ≤ maxOutstandingHeartbeats

/-- The links that are alive at both ends. -/
def Config.aliveGraph (cfg : Config n) (s : Net n) : SimpleGraph (Fin n) where
  Adj u v := cfg.Linked u v ∧ s.Awake u v ∧ s.Awake v u
  symm := ⟨fun _ _ h => ⟨h.1.symm, h.2.2, h.2.1⟩⟩
  loopless := ⟨fun _ h => h.1.ne rfl⟩

/-- Failures and recoveries of links have been noticed at both ends. -/
def Config.Detected (cfg : Config n) (s : Net n) : Prop :=
  ∀ u v, cfg.Linked u v → (s.Awake u v ↔ s.Awake v u)

/-- Row 0 and the next hop of `v` for the destination `j` are right. -/
structure Config.CorrectAt (cfg : Config n) (s : Net n) (v j : Fin n) : Prop where
  infinity_iff : (s.node v).vectors v j = infinity ↔ ¬ (cfg.aliveGraph s).Reachable v j
  attained : (cfg.aliveGraph s).Reachable v j → ∃ p : (cfg.aliveGraph s).Walk v j,
    walkCost cfg.cost p = ((s.node v).vectors v j).toNat
  shortest : ∀ p : (cfg.aliveGraph s).Walk v j,
    ((s.node v).vectors v j).toNat ≤ walkCost cfg.cost p
  nextHop : v ≠ j → (cfg.aliveGraph s).Reachable v j → ∃ u, (s.node v).nextHop j = some u ∧
    ∃ (hadj : (cfg.aliveGraph s).Adj v u) (p : (cfg.aliveGraph s).Walk u j),
      walkCost cfg.cost (.cons hadj p) = ((s.node v).vectors v j).toNat

/-- Every node has the shortest distances over the links that are alive. -/
def Config.Correct (cfg : Config n) (s : Net n) : Prop := ∀ v j, cfg.CorrectAt s v j

theorem cost_eq {e : Edge n} (he : e ∈ cfg.edges) : cfg.cost e.src e.dst = e.cost.toNat := by
  unfold Config.cost
  cases hf : cfg.edges.find? fun e' => e'.src = e.src ∧ e'.dst = e.dst with
  | none => simpa using find?_eq_none.mp hf e he
  | some e' =>
    have hp : e'.src = e.src ∧ e'.dst = e.dst := by simpa using find?_some hf
    obtain rfl := cfg.unique e' (mem_of_find?_eq_some hf) e he hp.1 hp.2
    rfl

theorem cost_pos {u v : Fin n} (h : cfg.Linked u v) : 0 < cfg.cost u v := by
  obtain ⟨e, he, rfl, rfl⟩ := h
  rw [cost_eq he]
  exact UInt32.lt_iff_toNat_lt.mp (cfg.positive e he)

theorem aliveGraph_le_graph (cfg : Config n) (s : Net n) : cfg.aliveGraph s ≤ cfg.graph :=
  fun _ _ h => h.1

theorem Config.SumsBelow.alive {b : ℕ} (h : cfg.SumsBelow b) {u v : Fin n}
    (p : (cfg.aliveGraph s).Walk u v) (hp : p.IsTrail) : walkCost cfg.cost p < b := by
  rw [← walkCost_mapLe cfg.cost (aliveGraph_le_graph cfg s)]
  exact h u v _ (hp.mapLe _)

/-! ## Quiet networks -/

/-- In a quiet network the row of a neighbour is what it advertises. -/
theorem row_eq_of_quiet (h : cfg.Inv s) (hq : s.Quiet) {u v : Fin n} (huv : cfg.Linked u v)
    (j : Fin n) : (s.node v).vectors u j =
      if (s.node u).nextHop j = some v then infinity else (s.node u).vectors u j := by
  have hsent := h.sent u v huv
  rw [Net.lastSent, hq u v, getLastD_nil] at hsent
  rw [hsent]
  rfl

theorem getEdgeCost_of_awake {v : Fin n} {e : Edge n} (h : s.Awake v e.dst) :
    (s.node v).getEdgeCost e = e.cost := if_neg (Nat.not_lt.mpr h)

theorem awake_of_getEdgeCost {v : Fin n} {e : Edge n}
    (h : (s.node v).getEdgeCost e ≠ infinity) : s.Awake v e.dst := by
  by_contra hdead
  exact h (if_pos (Nat.not_le.mp hdead))

theorem toNat_ne_infinity {x : UInt32} : x.toNat ≠ infinity.toNat ↔ x ≠ infinity := by
  rw [ne_eq, UInt32.toNat_inj]

/-- A distance comes from the next hop, which does not forward back. -/
theorem forward_of_quiet (h : cfg.Inv s) (hq : s.Quiet) (hd : cfg.Detected s) {v j : Fin n}
    (hvj : v ≠ j) (hv : (s.node v).vectors v j ≠ infinity) :
    ∃ u, (s.node v).nextHop j = some u ∧ (cfg.aliveGraph s).Adj v u ∧
      (s.node u).nextHop j ≠ some v ∧ (s.node u).vectors u j ≠ infinity ∧
      ((s.node v).vectors v j).toNat =
        (((s.node u).vectors u j).toNat + cfg.cost v u) % 2 ^ 32 := by
  have hset := h.settled v
  rw [hset.dist] at hv
  rcases route_cases cfg (s.node v) hvj.symm with ⟨hinf, -⟩ | ⟨-, e, hfind, hhop⟩
  · exact absurd hinf hv
  obtain ⟨he, rfl⟩ := mem_adjacent.mp (mem_of_find?_eq_some hfind)
  have hoffer : (s.node e.src).offer j e = some ((cfg.route e.src (s.node e.src)).dist j) := by
    simpa using find?_some hfind
  obtain ⟨hcost, hrow, hsum⟩ := offer_eq_some.mp hoffer
  have hlink : cfg.Linked e.src e.dst := ⟨e, he, rfl, rfl⟩
  have hawake := awake_of_getEdgeCost hcost
  -- the row of the neighbour is not poisoned, so it is the neighbour's own distance
  rw [row_eq_of_quiet h hq hlink.symm] at hrow hsum
  have hback : (s.node e.dst).nextHop j ≠ some e.src := fun hb => hrow (if_pos hb)
  rw [if_neg hback] at hrow hsum
  refine ⟨e.dst, by rw [hset.hop, hhop], ⟨hlink, hawake, (hd _ _ hlink).mp hawake⟩, hback, hrow, ?_⟩
  rw [hset.dist, ← hsum, getEdgeCost_of_awake hawake, cost_eq he]
  exact UInt32.toNat_add _ _

/-- A neighbour that does not forward back offers a path, so there is one. -/
theorem best_of_quiet (h : cfg.Inv s) (hq : s.Quiet) (hcost : cfg.CostsFinite)
    (hclear : ∀ v, ¬ cfg.Collides v (s.node v)) {v u j : Fin n}
    (hadj : (cfg.aliveGraph s).Adj v u) (hu : (s.node u).vectors u j ≠ infinity)
    (hback : (s.node u).nextHop j ≠ some v) :
    (s.node v).vectors v j ≠ infinity ∧ ((s.node v).vectors v j).toNat ≤
      (((s.node u).vectors u j).toNat + cfg.cost v u) % 2 ^ 32 := by
  obtain ⟨⟨e, he, rfl, rfl⟩, hawake, -⟩ := hadj
  have hlink : cfg.Linked e.src e.dst := ⟨e, he, rfl, rfl⟩
  have hmem : e ∈ cfg.adjacent e.src := mem_adjacent.mpr ⟨he, rfl⟩
  have hrow := row_eq_of_quiet h hq hlink.symm j
  rw [if_neg hback] at hrow
  have hoffer : (s.node e.src).offer j e = some ((s.node e.dst).vectors e.dst j + e.cost) := by
    refine offer_eq_some.mpr ?_
    rw [hrow, getEdgeCost_of_awake hawake]
    exact ⟨hcost e he, hu, rfl⟩
  have hle : (cfg.route e.src (s.node e.src)).dist j ≤ _ := foldl_relax_dist_le_offer hmem hoffer
  rw [(h.settled e.src).dist, cost_eq he, ← UInt32.toNat_add]
  refine ⟨?_, UInt32.le_iff_toNat_le.mp hle⟩
  rcases eq_or_ne j e.src with rfl | hj
  · rw [(route_self cfg _ _).1]
    decide
  · exact route_dist_ne_infinity (hclear e.src) hj hmem hoffer

/-- The tables of a quiet network agree between neighbours. -/
theorem nextHops_of_quiet (h : cfg.Inv s) (hq : s.Quiet) (hd : cfg.Detected s)
    (hcost : cfg.CostsFinite) (hclear : ∀ v, ¬ cfg.Collides v (s.node v)) (j : Fin n) :
    NextHops (cfg.aliveGraph s) cfg.cost (2 ^ 32) infinity.toNat j
      (fun v => ((s.node v).vectors v j).toNat) (fun v => (s.node v).nextHop j) where
  dist_target := by
    show ((s.node j).vectors j j).toNat = 0
    rw [(h.settled j).dist, (route_self cfg j _).1]
    rfl
  next_target := (h.settled j).nextHop_self
  forward := by
    intro v hvj hv
    obtain ⟨u, hnext, hadj, hback, hu, hsum⟩ :=
      forward_of_quiet h hq hd hvj (toNat_ne_infinity.mp hv)
    exact ⟨u, hnext, hadj, hback, toNat_ne_infinity.mpr hu, hsum⟩
  best := by
    intro v u hadj hu hback
    obtain ⟨hv, hle⟩ := best_of_quiet h hq hcost hclear hadj (toNat_ne_infinity.mp hu) hback
    exact ⟨toNat_ne_infinity.mpr hv, hle⟩

/-- The step makes no silent switch and no distance of it collides with `INFINITY`. -/
def Config.Sound (cfg : Config n) (s : Net n) (ev : Event n) : Prop :=
  cfg.NoSilentSwitch s ev ∧ cfg.NoCollision s ev

theorem nextHops_of_reachableBy (hcost : cfg.CostsFinite)
    (h : cfg.system.ReachableBy cfg.Sound s) (hq : s.Quiet) (hd : cfg.Detected s) (j : Fin n) :
    NextHops (cfg.aliveGraph s) cfg.cost (2 ^ 32) infinity.toNat j
      (fun v => ((s.node v).vectors v j).toNat) (fun v => (s.node v).nextHop j) :=
  nextHops_of_quiet (inv_of_reachableBy (fun _ _ hg => hg.1) h) hq hd hcost
    (not_collides_of_reachableBy (fun _ _ hg => hg.2) hcost h) j

/-- Where the block of `prev_vec` has room for a word for each node, every recalculation
returns. In every quiet network reached without silent switches and collisions, with every
link alive or dead at both ends, row 0 of every node then holds the shortest distances
over the links that are alive and the next hops are on shortest paths. -/
theorem correct_of_quiet (cfg : Config n) (hfits : cfg.PrevVecFits) (hcost : cfg.CostsFinite)
    (hsum : cfg.SumsBelow (2 ^ 32)) :
    (∀ me t, ∃ r, cfg.calcDistanceVector me t = some r) ∧
      ∀ s, cfg.system.ReachableBy cfg.Sound s → s.Quiet → cfg.Detected s → cfg.Correct s := by
  refine ⟨fun me t => ⟨_, if_pos hfits⟩, fun s h hq hd v j => ?_⟩
  have hnh := nextHops_of_reachableBy hcost h hq hd j
  have hpos : ∀ u v, (cfg.aliveGraph s).Adj u v → 0 < cfg.cost u v := fun u v h => cost_pos h.1
  have halive : ∀ u v (p : (cfg.aliveGraph s).Walk u v), p.IsTrail →
      walkCost cfg.cost p < 2 ^ 32 := fun u v p hp => hsum.alive p hp
  have hfinite : (cfg.aliveGraph s).Reachable v j → (s.node v).vectors v j ≠ infinity := by
    rintro ⟨p⟩
    exact toNat_ne_infinity.mp (hnh.dist_le_walkCost hpos (by decide) halive p).1
  -- a path of next hops, of the cost that row 0 says
  have hpath : (s.node v).vectors v j ≠ infinity → ∃ p : (cfg.aliveGraph s).Walk v j,
      p.IsPath ∧ Follows (fun v => (s.node v).nextHop j) p ∧
        walkCost cfg.cost p = ((s.node v).vectors v j).toNat := by
    intro hv
    obtain ⟨p, hp, hfollow⟩ := hnh.exists_path hpos halive (toNat_ne_infinity.mpr hv)
    exact ⟨p, hp, hfollow,
      (hnh.dist_eq_walkCost halive (toNat_ne_infinity.mpr hv) hp hfollow).symm⟩
  refine ⟨⟨fun hv hr => hfinite hr hv, fun hr => ?_⟩, fun hr => ?_, fun p => ?_, fun hvj hr => ?_⟩
  · by_contra hv
    obtain ⟨p, -⟩ := hpath hv
    exact hr ⟨p⟩
  · obtain ⟨p, -, -, hcost⟩ := hpath (hfinite hr)
    exact ⟨p, hcost⟩
  · exact (hnh.dist_le_walkCost hpos (by decide) halive p).2
  · obtain ⟨p, -, hfollow, hcost⟩ := hpath (hfinite hr)
    cases p with
    | nil => exact absurd rfl hvj
    | @cons _ u _ hadj p => exact ⟨u, (follows_cons.mp hfollow).1, hadj, p, hcost⟩

/-! ## Data packets -/

/-- `MAX_PATH` -/
def maxPath : Nat := 8

/-- `struct data_pkt`; `path` has the nodes that stamped it. -/
structure DataPkt (n : Nat) where
  dstId : Fin n
  dstPort : Nat
  dataLen : Nat
  path : List (Fin n)

def DataPkt.stamp (pkt : DataPkt n) (me : Fin n) : DataPkt n :=
  if pkt.path.length < maxPath then { pkt with path := pkt.path ++ [me] } else pkt

theorem sumsBelow_of_cost_le {b c : ℕ} (hc : ∀ e ∈ cfg.edges, e.cost.toNat ≤ c)
    (hb : Fintype.card (Sym2 (Fin n)) * c < b) : cfg.SumsBelow b := by
  intro u v p hp
  have hle := walkCost_le_length cfg.cost (G := cfg.graph) (c := c) (by
    rintro u v ⟨e, he, rfl, rfl⟩
    rw [cost_eq he]
    exact hc e he) p
  have hlen : p.length ≤ Fintype.card (Sym2 (Fin n)) := by
    rw [← Walk.length_edges]
    exact hp.edges_nodup.length_le_card
  exact (hle.trans (Nat.mul_le_mul_right c hlen)).trans_lt hb

instance (u v : Fin n) : Decidable (cfg.Linked u v) := by
  unfold Config.Linked
  infer_instance

instance (u v : Fin n) : Decidable (s.Awake u v) := by
  unfold Net.Awake
  infer_instance

instance : DecidableRel (cfg.aliveGraph s).Adj := fun u v =>
  inferInstanceAs (Decidable (cfg.Linked u v ∧ s.Awake u v ∧ s.Awake v u))

instance : Decidable (cfg.Detected s) := by
  unfold Config.Detected
  infer_instance

instance (me : Fin n) (t : Node n) : Decidable (cfg.SilentSwitch me t) := by
  unfold Config.SilentSwitch Config.StillBest
  -- the offers are looked at, not all costs
  have : ∀ j e, Decidable (∀ c ∈ t.offer j e, t.vectors me j ≤ c) := fun j e =>
    Option.decidableForallMem (t.offer j e)
  infer_instance

instance : Decidable cfg.CostsFinite := by
  unfold Config.CostsFinite
  infer_instance

instance (me : Fin n) (t : Node n) : Decidable (cfg.Collides me t) := by
  unfold Config.Collides
  have : ∀ j e, Decidable (∀ c ∈ t.offer j e, infinity ≤ c) := fun j e =>
    Option.decidableForallMem (t.offer j e)
  infer_instance

instance (ev : Event n) : Decidable (cfg.Sound s ev) := by
  unfold Config.Sound Config.NoSilentSwitch Config.NoCollision
  infer_instance

/-- What a block of the `malloc` of a common library has room for: it comes in chunks of
at least 32 bytes, of which 8 are the library's own. -/
def chunkRoom (bytes : Nat) : Nat := max 32 ((bytes + 23) / 16 * 16) - 8

/-- Four nodes in a square of links of cost 1. -/
def square : Config 4 where
  edges := [⟨0, 1, 1⟩, ⟨1, 0, 1⟩, ⟨0, 2, 1⟩, ⟨2, 0, 1⟩, ⟨1, 3, 1⟩, ⟨3, 1, 1⟩, ⟨2, 3, 1⟩, ⟨3, 2, 1⟩]
  room := chunkRoom
  loopless := by decide
  unique := by decide
  symmetric := by decide
  positive := by decide

/-- Only the neighbour `other` answers the heartbeats of `me`, and the other link dies. -/
def losesLink (me other : Fin 4) : List (Event 4) :=
  (List.replicate 10 (square.sendHeartbeats me)).flatten ++
    .echo me other :: square.sendHeartbeats me

/-- The first vectors of two nodes reach node 0 in the given order and the network comes to
rest; then the link between nodes 2 and 3 dies, and the network comes to rest again. -/
def failureRun (first second : Fin 4) : List (Event 4) :=
  [.dv first 0, .dv second 0, .dv 0 1, .dv 0 1, .dv 0 2, .dv 0 2, .dv 1 0, .dv 1 3, .dv 1 3,
    .dv 2 0, .dv 2 3, .dv 2 3, .dv 3 1, .dv 3 1, .dv 3 2, .dv 3 2] ++
  losesLink 2 0 ++ losesLink 3 1 ++ [.dv 2 0, .dv 2 3, .dv 3 1, .dv 3 2]

theorem sumsBelow_square {b : ℕ} (hb : 10 < b) : square.SumsBelow b :=
  sumsBelow_of_cost_le (c := 1) (by decide) (by simpa [Sym2.card, Nat.choose] using hb)

/-- The network when all four nodes have been started. -/
def squareInit : Net 4 := .start fun v => square.recalculate v (Node.blank v)

theorem square_init_reachable {G : Net 4 → Event 4 → Prop} :
    square.system.ReachableBy G squareInit :=
  .init ⟨_, fun _ => rfl, rfl⟩

/-- Node 0 hears of node 3 from node 1 first and stays with it. -/
theorem correct_of_quiet_square : ∃ s, square.system.ReachableBy square.Sound s ∧
    s.Quiet ∧ square.Detected s ∧ ¬ s.Awake 2 3 ∧ square.Correct s := by
  have hrun : TransitionSystem.runMeets square.step (fun s ev => decide (square.Sound s ev))
      (fun s => decide (s.Quiet ∧ square.Detected s ∧ ¬ s.Awake 2 3)) (failureRun 1 2)
      squareInit = true := by
    decide +kernel
  obtain ⟨s, hs, hp⟩ := TransitionSystem.exists_of_runMeets (S := square.system)
    (fun _ _ _ h => h) (fun _ _ => of_decide_eq_true) square_init_reachable hrun
  obtain ⟨hq, hd, hdead⟩ := of_decide_eq_true hp
  exact ⟨s, hs, hq, hd, hdead, 
    (correct_of_quiet square (by decide) (by decide) (sumsBelow_square (by decide))).2 s hs hq hd⟩

/-- Node 0 hears of node 3 from node 2 first, hides its path from it, and silently changes
over to node 1. When the link between nodes 2 and 3 dies, node 2 has no path to node 3. -/
theorem not_correct_of_quiet : ¬ ∀ (n : Nat) (cfg : Config n), cfg.SumsBelow (2 ^ 32) →
    ∀ s, cfg.system.Reachable s → s.Quiet → cfg.Detected s → cfg.Correct s := by
  intro hall
  have hrun : TransitionSystem.runMeets square.step (fun _ _ => true)
      (fun s => decide (s.Quiet ∧ square.Detected s ∧ (s.node 2).vectors 2 3 = infinity ∧
        (square.aliveGraph s).Adj 2 0 ∧ (square.aliveGraph s).Adj 0 1 ∧
        (square.aliveGraph s).Adj 1 3)) (failureRun 2 1) squareInit = true := by
    decide +kernel
  obtain ⟨s, hs, hp⟩ := TransitionSystem.exists_of_runMeets (S := square.system)
    (G := fun _ _ => True) (fun _ _ _ h => h) (fun _ _ _ => trivial) square_init_reachable hrun
  obtain ⟨hq, hd, hinf, h20, h01, h13⟩ := of_decide_eq_true hp
  have hcorrect := hall 4 square (sumsBelow_square (by decide)) s hs hq hd 2 3
  exact hcorrect.infinity_iff.mp hinf ⟨.cons h20 (.cons h01 (.cons h13 .nil))⟩

end PittCs.Overlay
