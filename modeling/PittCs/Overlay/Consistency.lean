import PittCs.Overlay.DistanceVector

/-!
# What a node knows of its neighbours

The last vector a node has sent over a link is the one it would send now, in every run
without a silent switch: a recalculation that leaves row 0 as it is and changes a next
hop. Row 0 is broadcast when it changes, but the vector for a neighbour also depends on
the next hops, and their change alone sends nothing.
-/

namespace PittCs.Overlay

open PittCs.Lib Function List Option

variable {n : Nat} {cfg : Config n} {me : Fin n} {t t' : Node n}

/-! ## Recalculation -/

theorem Node.relax_dist_le (t : Node n) (r : Route n) (e : Edge n) (j : Fin n) :
    (t.relax r e).dist j ≤ r.dist j := by
  simp only [Node.relax]
  split
  · split
    · exact UInt32.le_of_lt ‹_›
    · exact UInt32.le_refl _
  · exact UInt32.le_refl _

theorem Node.relax_dist_le_offer {r : Route n} {e : Edge n} {j : Fin n} {c : UInt32}
    (h : t.offer j e = some c) : (t.relax r e).dist j ≤ c := by
  simp only [Node.relax, h]
  split
  · exact UInt32.le_refl _
  · exact UInt32.not_lt.mp ‹_›

theorem foldl_relax_dist_le (es : List (Edge n)) (r : Route n) (j : Fin n) :
    (es.foldl t.relax r).dist j ≤ r.dist j := by
  induction es generalizing r with
  | nil => exact UInt32.le_refl _
  | cons e es ih => exact UInt32.le_trans (ih _) (t.relax_dist_le r e j)

/-- No neighbour offers a shorter path than the one found. -/
theorem foldl_relax_dist_le_offer {es : List (Edge n)} {r : Route n} {j : Fin n} {e : Edge n}
    {c : UInt32} (he : e ∈ es) (h : t.offer j e = some c) :
    (es.foldl t.relax r).dist j ≤ c := by
  induction es generalizing r with
  | nil => cases he
  | cons e' es ih =>
    rcases mem_cons.mp he with rfl | he
    · exact UInt32.le_trans (foldl_relax_dist_le es _ j) (Node.relax_dist_le_offer h)
    · exact ih he

/-- A column is left as it was, or it is that of the first neighbour that offers the
shortest path. -/
theorem foldl_relax_cases (t : Node n) (es : List (Edge n)) (r : Route n) (j : Fin n) :
    ((es.foldl t.relax r).dist j = r.dist j ∧ (es.foldl t.relax r).hop j = r.hop j) ∨
    ((es.foldl t.relax r).dist j < r.dist j ∧
      ∃ e, es.find? (fun e => t.offer j e = some ((es.foldl t.relax r).dist j)) = some e ∧
        (es.foldl t.relax r).hop j = some e.dst) := by
  induction es generalizing r with
  | nil => exact .inl ⟨rfl, rfl⟩
  | cons e es ih =>
    rw [foldl_cons]
    rcases ih (t.relax r e) with ⟨hdist, hhop⟩ | ⟨hlt, e', hfind, hhop⟩
    · -- the rest of the loop changes nothing: `e` decides
      rw [hdist, hhop]
      cases hc : t.offer j e with
      | none => exact .inl (by simp [Node.relax, hc])
      | some c =>
        by_cases hlt : c < r.dist j
        · refine .inr ?_
          simp [Node.relax, hc, hlt]
        · exact .inl (by simp [Node.relax, hc, hlt])
    · -- a later edge improves on `e`, so `e` does not offer as short a path
      refine .inr ⟨UInt32.lt_of_lt_of_le hlt (t.relax_dist_le r e j), e', ?_, hhop⟩
      rw [find?_cons_of_neg, hfind]
      intro hc
      have hle : (t.relax r e).dist j ≤ _ := Node.relax_dist_le_offer (of_decide_eq_true hc)
      exact absurd hlt (UInt32.not_lt.mpr hle)

@[simp]
theorem mem_adjacent {e : Edge n} : e ∈ cfg.adjacent me ↔ e ∈ cfg.edges ∧ e.src = me := by
  simp [Config.adjacent]

theorem dst_ne_of_mem_adjacent {e : Edge n} (he : e ∈ cfg.adjacent me) : e.dst ≠ me := by
  rw [mem_adjacent] at he
  exact fun h => cfg.loopless e he.1 (he.2.trans h.symm)

/-- The route depends on the rows of the neighbours and on which links are awake. -/
theorem route_congr (hvec : ∀ u, u ≠ me → t.vectors u = t'.vectors u)
    (hcost : ∀ e, t.getEdgeCost e = t'.getEdgeCost e) : cfg.route me t = cfg.route me t' := by
  have hrelax : ∀ (r : Route n) (e : Edge n), e ∈ cfg.adjacent me →
      t.relax r e = t'.relax r e := by
    intro r e he
    have hoffer : ∀ j, t.offer j e = t'.offer j e := fun j => by
      simp only [Node.offer, hcost, hvec e.dst (dst_ne_of_mem_adjacent he)]
    simp only [Node.relax, hoffer]
  exact foldl_ext _ _ _ hrelax

/-- Row 0 holds 0 for the node itself, and it is its own next hop. -/
theorem route_self (cfg : Config n) (me : Fin n) (t : Node n) :
    (cfg.route me t).dist me = 0 ∧ (cfg.route me t).hop me = some me := by
  have hdef : (Route.default me).dist me = 0 ∧ (Route.default me).hop me = some me := by
    simp [Route.default]
  rcases foldl_relax_cases t (cfg.adjacent me) (Route.default me) me with ⟨hd, hh⟩ | ⟨hlt, -⟩
  · exact ⟨hd.trans hdef.1, hh.trans hdef.2⟩
  · rw [hdef.1] at hlt
    exact absurd hlt UInt32.not_lt_zero

/-- A destination has no distance and no next hop, or those of the first neighbour that
offers the shortest path. -/
theorem route_cases (cfg : Config n) (t : Node n) {j : Fin n} (hj : j ≠ me) :
    ((cfg.route me t).dist j = infinity ∧ (cfg.route me t).hop j = none) ∨
    ((cfg.route me t).dist j ≠ infinity ∧ ∃ e,
      (cfg.adjacent me).find? (fun e => t.offer j e = some ((cfg.route me t).dist j)) = some e ∧
        (cfg.route me t).hop j = some e.dst) := by
  have hdef : (Route.default me).dist j = infinity ∧ (Route.default me).hop j = none := by
    simp [Route.default, hj]
  rcases foldl_relax_cases t (cfg.adjacent me) (Route.default me) j with ⟨hd, hh⟩ | ⟨hlt, h⟩
  · exact .inl ⟨hd.trans hdef.1, hh.trans hdef.2⟩
  · rw [hdef.1] at hlt
    exact .inr ⟨UInt32.ne_of_lt hlt, h⟩

/-! ## Silent switches -/

/-- The shortest paths the neighbours offer are as long as row 0 says. -/
def Config.StillBest (cfg : Config n) (me : Fin n) (t : Node n) : Prop :=
  ∀ j, j ≠ me → (∀ e ∈ cfg.adjacent me, ∀ c ∈ t.offer j e, t.vectors me j ≤ c) ∧
    (t.vectors me j = infinity ∨ ∃ e ∈ cfg.adjacent me, t.offer j e = some (t.vectors me j))

/-- The first neighbour that offers a path as short as row 0 says. -/
def Config.firstBest (cfg : Config n) (me : Fin n) (t : Node n) (j : Fin n) : Option (Fin n) :=
  if t.vectors me j = infinity then none
  else ((cfg.adjacent me).find? fun e => t.offer j e = some (t.vectors me j)).map Edge.dst

/-- No distance changes, but another neighbour has become the first that offers one. -/
def Config.SilentSwitch (cfg : Config n) (me : Fin n) (t : Node n) : Prop :=
  cfg.StillBest me t ∧ ∃ j, j ≠ me ∧ cfg.firstBest me t j ≠ t.nextHop j

theorem stillBest_of_route_dist (h : (cfg.route me t).dist = t.vectors me) :
    cfg.StillBest me t := by
  intro j hj
  rw [← h]
  refine ⟨fun e he c hc => foldl_relax_dist_le_offer he hc, ?_⟩
  rcases route_cases cfg t hj with ⟨hinf, -⟩ | ⟨-, e, hfind, -⟩
  · exact .inl hinf
  · exact .inr ⟨e, mem_of_find?_eq_some hfind, by simpa using find?_some hfind⟩

theorem firstBest_of_route_dist (h : (cfg.route me t).dist = t.vectors me) {j : Fin n}
    (hj : j ≠ me) : cfg.firstBest me t j = (cfg.route me t).hop j := by
  unfold Config.firstBest
  rw [← h]
  rcases route_cases cfg t hj with ⟨hinf, hhop⟩ | ⟨hinf, e, hfind, hhop⟩
  · rw [if_pos hinf, hhop]
  · rw [if_neg hinf, hfind, hhop, map_some]

/-- Without a silent switch, the next hops stay as they are when row 0 does. -/
theorem route_hop_eq (hself : t.nextHop me = some me) (hsw : ¬ cfg.SilentSwitch me t)
    (h : (cfg.route me t).dist = t.vectors me) : (cfg.route me t).hop = t.nextHop := by
  funext j
  rcases eq_or_ne j me with rfl | hj
  · rw [(route_self cfg j t).2, hself]
  · by_contra hne
    refine hsw ⟨stillBest_of_route_dist h, j, hj, ?_⟩
    rwa [firstBest_of_route_dist h hj]

/-! ## Collisions -/

theorem offer_eq_some {t : Node n} {j : Fin n} {e : Edge n} {c : UInt32} :
    t.offer j e = some c ↔ t.getEdgeCost e ≠ infinity ∧ t.vectors e.dst j ≠ infinity ∧
      t.vectors e.dst j + t.getEdgeCost e = c := by
  unfold Node.offer
  split_ifs <;> simp_all

/-- The least sum that the neighbours offer for some destination is `INFINITY` itself, the
value for no path. -/
def Config.Collides (cfg : Config n) (me : Fin n) (t : Node n) : Prop :=
  ∃ j, j ≠ me ∧ (∃ e ∈ cfg.adjacent me, infinity ∈ t.offer j e) ∧
    ∀ e ∈ cfg.adjacent me, ∀ c ∈ t.offer j e, infinity ≤ c

/-- The neighbours offer the same: their rows are the same, and the links are awake or not
as before. -/
structure Node.SameOffers (me : Fin n) (t t' : Node n) : Prop where
  vectors : ∀ u, u ≠ me → t.vectors u = t'.vectors u
  cost : ∀ e, t.getEdgeCost e = t'.getEdgeCost e

theorem Node.SameOffers.offer (h : Node.SameOffers me t t') {e : Edge n}
    (he : e ∈ cfg.adjacent me) (j : Fin n) : t.offer j e = t'.offer j e := by
  simp only [Node.offer, h.cost, h.vectors e.dst (dst_ne_of_mem_adjacent he)]

theorem Node.SameOffers.collides (h : Node.SameOffers me t t') (hc : cfg.Collides me t) :
    cfg.Collides me t' := by
  rcases hc with ⟨j, hj, ⟨e, he, hinf⟩, hall⟩
  refine ⟨j, hj, ⟨e, he, ?_⟩, fun e' he' c hc => hall e' he' c ?_⟩
  · rwa [← h.offer he]
  · rwa [h.offer he']

/-- Where nothing collides, a row that is offered by some neighbour is not `INFINITY`. -/
theorem route_dist_ne_infinity (h : ¬ cfg.Collides me t) {j : Fin n} (hj : j ≠ me) {e : Edge n}
    (he : e ∈ cfg.adjacent me) {c : UInt32} (hc : t.offer j e = some c) :
    (cfg.route me t).dist j ≠ infinity := by
  intro hinf
  have hall : ∀ e' ∈ cfg.adjacent me, ∀ c' ∈ t.offer j e', infinity ≤ c' := by
    intro e' he' c' hc'
    have hle : (cfg.route me t).dist j ≤ c' := foldl_relax_dist_le_offer he' hc'
    rwa [hinf] at hle
  have hle : c ≤ infinity := UInt32.le_iff_toNat_le.mpr (Nat.le_of_lt_succ c.toNat_lt)
  have heq : c = infinity := UInt32.le_antisymm hle (hall e he c hc)
  exact h ⟨j, hj, ⟨e, he, heq ▸ hc⟩, hall⟩

/-! ## One node -/

/-- Row 0 and the next hops are those of the rows and links the node has. -/
structure Config.Settled (cfg : Config n) (me : Fin n) (t : Node n) : Prop where
  dist : t.vectors me = (cfg.route me t).dist
  hop : t.nextHop = (cfg.route me t).hop

theorem Config.Settled.nextHop_self (h : cfg.Settled me t) : t.nextHop me = some me := by
  rw [h.hop]
  exact (route_self cfg me t).2

/-- A node with the same table, whose links are awake or not as before. -/
theorem Config.Settled.congr (h : cfg.Settled me t) (hvec : t'.vectors = t.vectors)
    (hhop : t'.nextHop = t.nextHop) (hcost : ∀ e, t'.getEdgeCost e = t.getEdgeCost e) :
    cfg.Settled me t' := by
  have hroute : cfg.route me t' = cfg.route me t := route_congr (fun u _ => by rw [hvec]) hcost
  exact ⟨by rw [hvec, hroute, h.dist], by rw [hhop, hroute, h.hop]⟩

theorem calc_fst (cfg : Config n) (me : Fin n) (t : Node n) :
    (cfg.recalculate me t).1 =
      { t with
        vectors := Function.update t.vectors me (cfg.route me t).dist
        nextHop := (cfg.route me t).hop } := by
  simp only [Config.recalculate]
  split <;> rfl

theorem calc_snd (cfg : Config n) (me : Fin n) (t : Node n) :
    (cfg.recalculate me t).2 =
      if (cfg.route me t).dist = t.vectors me then []
      else cfg.broadcastDv me (cfg.recalculate me t).1 := by
  rw [calc_fst]
  simp only [Config.recalculate]
  split <;> rfl

@[simp]
theorem calc_vectors_self (cfg : Config n) (me : Fin n) (t : Node n) :
    (cfg.recalculate me t).1.vectors me = (cfg.route me t).dist := by
  simp [calc_fst]

theorem calc_eq_some {r : Node n × List (Fin n × Vec n)} :
    cfg.calcDistanceVector me t = some r ↔ cfg.PrevVecFits ∧ cfg.recalculate me t = r := by
  unfold Config.calcDistanceVector
  split
  case isTrue hfits => simp [hfits]
  case isFalse hfits => simp [hfits]

variable {v u : Fin n} {s : Net n}

theorem calc_vectors_of_ne (hu : u ≠ me) :
    (cfg.recalculate me t).1.vectors u = t.vectors u := by
  simp [calc_fst, hu]

theorem calc_settled (cfg : Config n) (me : Fin n) (t : Node n) :
    cfg.Settled me (cfg.recalculate me t).1 := by
  have hroute : cfg.route me (cfg.recalculate me t).1 = cfg.route me t := by
    refine route_congr (fun u hu => calc_vectors_of_ne hu) fun e => ?_
    rw [calc_fst]
    rfl
  refine ⟨?_, ?_⟩
  · rw [hroute, calc_vectors_self]
  · rw [hroute, calc_fst]

/-- A recalculation leaves the rows of the neighbours as they are. -/
theorem calc_sameOffers (cfg : Config n) (me : Fin n) (t : Node n) :
    Node.SameOffers me (cfg.recalculate me t).1 t where
  vectors _ hu := calc_vectors_of_ne hu
  cost _ := by
    rw [calc_fst]
    rfl

theorem setOutstanding_getEdgeCost {dst : Fin n} {k : Nat}
    (hk : maxOutstandingHeartbeats < k ↔ maxOutstandingHeartbeats < t.outstandingHeartbeats dst)
    (e : Edge n) : (t.setOutstanding dst k).getEdgeCost e = t.getEdgeCost e := by
  simp only [Node.getEdgeCost, Node.setOutstanding]
  rcases eq_or_ne e.dst dst with he | he
  · simp [he, hk]
  · simp [he]

/-- A counter that leaves its link awake or asleep changes no offer. -/
theorem setOutstanding_sameOffers {dst : Fin n} {k : Nat}
    (hk : maxOutstandingHeartbeats < k ↔ maxOutstandingHeartbeats < t.outstandingHeartbeats dst) :
    Node.SameOffers me (t.setOutstanding dst k) t where
  vectors _ _ := rfl
  cost := setOutstanding_getEdgeCost hk

/-- A broadcast sends every neighbour its own vector. -/
theorem mem_vecsTo_broadcastDv {x : Vec n} (hx : x ∈ vecsTo (cfg.broadcastDv me t) v) :
    x = t.vecFor me v := by
  simp only [vecsTo, Config.broadcastDv, List.mem_map, mem_filter] at hx
  obtain ⟨p, ⟨⟨e, -, rfl⟩, hv⟩, rfl⟩ := hx
  rw [← of_decide_eq_true hv]

theorem vecsTo_broadcastDv_ne_nil (hv : ∃ e ∈ cfg.adjacent me, e.dst = v) :
    vecsTo (cfg.broadcastDv me t) v ≠ [] := by
  obtain ⟨e, he, rfl⟩ := hv
  refine ne_nil_of_mem (a := t.vecFor me e.dst) ?_
  simp only [vecsTo, Config.broadcastDv, List.mem_map, mem_filter]
  exact ⟨_, ⟨⟨e, he, rfl⟩, by simp⟩, rfl⟩

/-- A node sends nothing to a node that is not its neighbour. -/
theorem vecsTo_calc_of_not_adjacent (hv : ¬ ∃ e ∈ cfg.adjacent me, e.dst = v) :
    vecsTo (cfg.recalculate me t).2 v = [] := by
  rw [calc_snd]
  split
  · rfl
  · simp only [vecsTo, Config.broadcastDv, map_eq_nil_iff, filter_eq_nil_iff]
    rintro p hp heq
    obtain ⟨e, he, rfl⟩ := List.mem_map.mp hp
    exact hv ⟨e, he, of_decide_eq_true heq⟩

theorem getLastD_append_of_forall_eq {α : Type} {l l' : List α} {a d : α} (hne : l' ≠ [])
    (h : ∀ x ∈ l', x = a) : (l ++ l').getLastD d = a := by
  rw [getLastD_eq_getLast?, getLast?_append_of_ne_nil l hne,
    getLast?_eq_some_getLast hne]
  exact h _ (getLast_mem hne)

/-- If the last vector on the way to a neighbour was up to date before a recalculation, the
last one is so afterwards. -/
theorem getLastD_vecsTo_calc (hv : ∃ e ∈ cfg.adjacent me, e.dst = v)
    (hself : t.nextHop me = some me) (hsw : ¬ cfg.SilentSwitch me t) {l : List (Vec n)} {d : Vec n}
    (hl : l.getLastD d = t.vecFor me v) :
    (l ++ vecsTo (cfg.recalculate me t).2 v).getLastD d =
      (cfg.recalculate me t).1.vecFor me v := by
  by_cases hsame : (cfg.route me t).dist = t.vectors me
  · have hhop := route_hop_eq hself hsw hsame
    rw [calc_snd, if_pos hsame]
    show (l ++ []).getLastD d = _
    rw [append_nil, hl]
    funext j
    simp only [Node.vecFor, calc_vectors_self, hsame]
    rw [calc_fst, hhop]
  · rw [calc_snd, if_neg hsame]
    exact getLastD_append_of_forall_eq (vecsTo_broadcastDv_ne_nil hv)
      fun x hx => mem_vecsTo_broadcastDv hx

/-! ## The network -/

/-- The link from `u` to `v` is in the configuration. -/
def Config.Linked (cfg : Config n) (u v : Fin n) : Prop := ∃ e ∈ cfg.edges, e.src = u ∧ e.dst = v

theorem linked_iff : cfg.Linked me v ↔ ∃ e ∈ cfg.adjacent me, e.dst = v := by
  simp only [Config.Linked, mem_adjacent, and_assoc]

theorem Config.Linked.ne (h : cfg.Linked u v) : u ≠ v := by
  obtain ⟨e, he, rfl, rfl⟩ := h
  exact cfg.loopless e he

/-- The last vector of `u` that `v` has, or will have when nothing more is sent. -/
def Net.lastSent (s : Net n) (u v : Fin n) : Vec n :=
  (s.inFlight u v).getLastD ((s.node v).vectors u)

/-- Over every link the last vector sent is the one that would be sent now, and only
neighbours talk to each other. -/
structure Config.UpToDate (cfg : Config n) (s : Net n) : Prop where
  sent : ∀ u v, cfg.Linked u v → s.lastSent u v = (s.node u).vecFor u v
  silent : ∀ u v, ¬ cfg.Linked u v → s.inFlight u v = []

structure Config.Inv (cfg : Config n) (s : Net n) : Prop extends cfg.UpToDate s where
  settled : ∀ v, cfg.Settled v (s.node v)

/-- The network with another state of one node. -/
def Net.setNode (s : Net n) (me : Fin n) (t : Node n) : Net n :=
  { s with node := Function.update s.node me t }

/-- The network after `me` has called `calc_distance_vector`. -/
def Config.recalc (cfg : Config n) (s : Net n) (me : Fin n) : Net n :=
  s.put me (cfg.recalculate me (s.node me))

@[simp]
theorem setNode_node_self (s : Net n) (me : Fin n) (t : Node n) :
    (s.setNode me t).node me = t := update_self ..

theorem setNode_node_of_ne (s : Net n) (t : Node n) (hv : v ≠ me) :
    (s.setNode me t).node v = s.node v := update_of_ne hv ..

@[simp]
theorem setNode_inFlight (s : Net n) (me : Fin n) (t : Node n) :
    (s.setNode me t).inFlight = s.inFlight := rfl

@[simp]
theorem take_node (s : Net n) (src dst : Fin n) (rest : List (Vec n)) :
    (s.take src dst rest).node = s.node := rfl

@[simp]
theorem take_inFlight_self (s : Net n) (src dst : Fin n) (rest : List (Vec n)) :
    (s.take src dst rest).inFlight src dst = rest := by
  simp [Net.take]

theorem take_inFlight_of_ne (s : Net n) {src dst : Fin n} (rest : List (Vec n))
    (h : ¬ (u = src ∧ v = dst)) : (s.take src dst rest).inFlight u v = s.inFlight u v := by
  rcases eq_or_ne u src with rfl | hu
  · have hv : v ≠ dst := fun hv => h ⟨rfl, hv⟩
    simp [Net.take, hv]
  · simp [Net.take, hu]

/-- What is sent depends on row 0 and the next hops. -/
theorem vecFor_congr (hown : t'.vectors me = t.vectors me) (hhop : t'.nextHop = t.nextHop) :
    t'.vecFor me v = t.vecFor me v := by
  funext j
  simp only [Node.vecFor, hown, hhop]

/-- A change that leaves alone what was sent last and what would be sent now. -/
theorem Config.UpToDate.congr {s' : Net n} (h : cfg.UpToDate s)
    (hlast : ∀ u v, cfg.Linked u v → s'.lastSent u v = s.lastSent u v)
    (hown : ∀ u, (s'.node u).vectors u = (s.node u).vectors u)
    (hhop : ∀ u, (s'.node u).nextHop = (s.node u).nextHop)
    (hsilent : ∀ u v, ¬ cfg.Linked u v → s'.inFlight u v = s.inFlight u v) : cfg.UpToDate s' := by
  refine ⟨fun u v huv => ?_, fun u v huv => ?_⟩
  · rw [hlast u v huv, h.sent u v huv, vecFor_congr (hown u) (hhop u)]
  · rw [hsilent u v huv, h.silent u v huv]

/-- A change of a node that keeps its table. -/
theorem Config.UpToDate.setNode (h : cfg.UpToDate s) (hvec : t.vectors = (s.node me).vectors)
    (hhop : t.nextHop = (s.node me).nextHop) : cfg.UpToDate (s.setNode me t) := by
  have hsame : ∀ v, ((s.setNode me t).node v).vectors = (s.node v).vectors ∧
      ((s.setNode me t).node v).nextHop = (s.node v).nextHop := by
    intro v
    rcases eq_or_ne v me with rfl | hv
    · rw [setNode_node_self]
      exact ⟨hvec, hhop⟩
    · rw [setNode_node_of_ne s t hv]
      exact ⟨rfl, rfl⟩
  refine h.congr (fun u v _ => ?_) (fun u => by rw [(hsame u).1]) (fun u => (hsame u).2)
    fun _ _ _ => rfl
  rw [Net.lastSent, Net.lastSent, setNode_inFlight, (hsame v).1]

theorem Config.UpToDate.linked (h : cfg.UpToDate s) {vec : Vec n} {rest : List (Vec n)}
    (hq : s.inFlight u v = vec :: rest) : cfg.Linked u v := by
  by_contra hno
  rw [h.silent u v hno] at hq
  cases hq

/-- The oldest vector from `src` moves into its row. -/
theorem Config.UpToDate.store (h : cfg.UpToDate s) {src dst : Fin n} {vec : Vec n}
    {rest : List (Vec n)} (hq : s.inFlight src dst = vec :: rest) :
    cfg.UpToDate ((s.take src dst rest).setNode dst ((s.node dst).store src vec)) := by
  have hlink := h.linked hq
  have hrow : ∀ u v, ¬ (u = src ∧ v = dst) →
      (((s.take src dst rest).setNode dst ((s.node dst).store src vec)).node v).vectors u =
        (s.node v).vectors u := by
    intro u v huv
    rcases eq_or_ne v dst with rfl | hv
    · have hu : u ≠ src := fun hu => huv ⟨hu, rfl⟩
      rw [setNode_node_self]
      exact update_of_ne hu ..
    · rw [setNode_node_of_ne _ _ hv, take_node]
  refine h.congr (fun u v _ => ?_) (fun u => hrow u u fun hu => hlink.ne (hu.1.symm.trans hu.2))
    (fun u => ?_) (fun u v huv => ?_)
  · rw [Net.lastSent, Net.lastSent, setNode_inFlight]
    by_cases huv : u = src ∧ v = dst
    · -- the row now holds what was at the head of the queue
      obtain ⟨rfl, rfl⟩ := huv
      rw [take_inFlight_self, setNode_node_self, hq, getLastD_cons]
      simp [Node.store]
    · rw [take_inFlight_of_ne s rest huv, hrow u v huv]
  · rcases eq_or_ne u dst with rfl | hu
    · rw [setNode_node_self]
      rfl
    · rw [setNode_node_of_ne _ _ hu, take_node]
  · rw [setNode_inFlight]
    refine take_inFlight_of_ne s rest fun hsd => huv ?_
    rw [hsd.1, hsd.2]
    exact hlink

@[simp]
theorem put_node_self (s : Net n) (me : Fin n) (r : Node n × List (Fin n × Vec n)) :
    (s.put me r).node me = r.1 := update_self ..

theorem put_node_of_ne (s : Net n) (r : Node n × List (Fin n × Vec n)) (hv : v ≠ me) :
    (s.put me r).node v = s.node v := update_of_ne hv ..

@[simp]
theorem put_inFlight_self (s : Net n) (me v : Fin n) (r : Node n × List (Fin n × Vec n)) :
    (s.put me r).inFlight me v = s.inFlight me v ++ vecsTo r.2 v := by
  simp [Net.put]

theorem put_inFlight_of_ne (s : Net n) (r : Node n × List (Fin n × Vec n)) (hu : u ≠ me) :
    (s.put me r).inFlight u = s.inFlight u := by
  simp [Net.put, hu]

theorem Config.UpToDate.recalc (h : cfg.UpToDate s) (hself : (s.node me).nextHop me = some me)
    (hsw : ¬ cfg.SilentSwitch me (s.node me)) : cfg.UpToDate (cfg.recalc s me) := by
  unfold Config.recalc
  -- no row of a neighbour changes, at `me` or elsewhere
  have hrow : ∀ u v, u ≠ v → ((s.put me (cfg.recalculate me (s.node me))).node v).vectors u
      = (s.node v).vectors u := by
    intro u v huv
    rcases eq_or_ne v me with rfl | hv
    · rw [put_node_self, calc_vectors_of_ne huv]
    · rw [put_node_of_ne s _ hv]
  refine ⟨fun u v huv => ?_, fun u v huv => ?_⟩
  · have hold := h.sent u v huv
    rw [Net.lastSent, hrow u v huv.ne]
    rcases eq_or_ne u me with rfl | hu
    · rw [put_inFlight_self, put_node_self]
      exact getLastD_vecsTo_calc (linked_iff.mp huv) hself hsw hold
    · rw [put_inFlight_of_ne s _ hu, put_node_of_ne s _ hu]
      exact hold
  · rcases eq_or_ne u me with rfl | hu
    · rw [put_inFlight_self, h.silent u v huv,
        vecsTo_calc_of_not_adjacent fun hadj => huv (linked_iff.mpr hadj)]
      rfl
    · rw [put_inFlight_of_ne s _ hu, h.silent u v huv]

/-- A recalculation settles the node and leaves the others settled. -/
theorem inv_recalc (h : cfg.UpToDate s) (hself : (s.node me).nextHop me = some me)
    (hsettled : ∀ v, v ≠ me → cfg.Settled v (s.node v)) (hsw : ¬ cfg.SilentSwitch me (s.node me)) :
    cfg.Inv (cfg.recalc s me) := by
  refine ⟨h.recalc hself hsw, fun v => ?_⟩
  rcases eq_or_ne v me with rfl | hv
  · rw [Config.recalc, put_node_self]
    exact calc_settled cfg v _
  · rw [Config.recalc, put_node_of_ne s _ hv]
    exact hsettled v hv

/-- A change of one counter that leaves the link awake or asleep as it was. -/
theorem Config.Inv.setOutstanding {s : Net n} (h : cfg.Inv s) {dst : Fin n} {k : Nat}
    (hk : maxOutstandingHeartbeats < k ↔
      maxOutstandingHeartbeats < (s.node me).outstandingHeartbeats dst) :
    cfg.Inv (s.setNode me ((s.node me).setOutstanding dst k)) := by
  refine ⟨h.toUpToDate.setNode rfl rfl, fun v => ?_⟩
  rcases eq_or_ne v me with rfl | hv
  · rw [setNode_node_self]
    exact (h.settled v).congr rfl rfl fun e => setOutstanding_getEdgeCost hk e
  · rw [setNode_node_of_ne _ _ hv]
    exact h.settled v

/-! ## Runs -/

/-- The node that recalculates in a step, with the rows and links it does it with. -/
def Net.recalculates (s : Net n) : Event n → Option (Fin n × Node n)
  | .dv src dst => (s.inFlight src dst).head?.map fun vec => (dst, (s.node dst).store src vec)
  | .heartbeat me dst =>
    let k := (s.node me).outstandingHeartbeats dst
    let k' := if k ≤ maxOutstandingHeartbeats then k + 1 else k
    if k' = maxOutstandingHeartbeats + 1 then some (me, (s.node me).setOutstanding dst k')
    else none
  | .echo me src =>
    if maxOutstandingHeartbeats < (s.node me).outstandingHeartbeats src then
      some (me, (s.node me).setOutstanding src 0)
    else none

/-- The step makes no silent switch. -/
def Config.NoSilentSwitch (cfg : Config n) (s : Net n) (ev : Event n) : Prop :=
  ∀ r ∈ s.recalculates ev, ¬ cfg.SilentSwitch r.1 r.2

/-- No distance of the step collides with `INFINITY`. -/
def Config.NoCollision (cfg : Config n) (s : Net n) (ev : Event n) : Prop :=
  ∀ r ∈ s.recalculates ev, ¬ cfg.Collides r.1 r.2

/-- A step of a node that first changes its rows or links is a step of the changed
network. -/
theorem put_setNode (s : Net n) (me : Fin n) (t : Node n) (r : Node n × List (Fin n × Vec n)) :
    (s.setNode me t).put me r = s.put me r := by
  simp [Net.put, Net.setNode]

theorem setNode_put (s : Net n) (me : Fin n) (t : Node n) (r : Node n × List (Fin n × Vec n)) :
    (s.put me r).setNode me t = s.put me (t, r.2) := by
  simp [Net.put, Net.setNode]

theorem put_nil (s : Net n) (me : Fin n) (t : Node n) : s.put me (t, []) = s.setNode me t := by
  simp [Net.put, Net.setNode, vecsTo]

theorem recalc_setNode (s : Net n) (me : Fin n) (t : Node n) :
    cfg.recalc (s.setNode me t) me = s.put me (cfg.recalculate me t) := by
  rw [Config.recalc, setNode_node_self, put_setNode]

theorem init_eq {r : Fin n → Node n × List (Fin n × Vec n)}
    (h : ∀ v, cfg.initDistanceVector v = some (r v)) :
    r = fun v => cfg.recalculate v (Node.blank v) :=
  funext fun v => (calc_eq_some.mp (h v)).2.symm

/-- `init_distance_vector` has every first vector on its way. -/
theorem inv_init {r : Fin n → Node n × List (Fin n × Vec n)}
    (h : ∀ v, cfg.initDistanceVector v = some (r v)) : cfg.Inv (Net.start r) := by
  rw [init_eq h]
  have hsw : ∀ v, ¬ cfg.SilentSwitch v (Node.blank v) := by
    rintro v ⟨-, j, hj, hne⟩
    simp [Config.firstBest, Node.blank, hj] at hne
  refine ⟨⟨fun u v huv => ?_, fun u v huv => ?_⟩, fun v => calc_settled cfg v _⟩
  · have hrow : ((Net.start fun v => cfg.recalculate v (Node.blank v)).node v).vectors u =
        (Node.blank v).vectors u := calc_vectors_of_ne huv.ne
    rw [Net.lastSent, hrow]
    refine getLastD_vecsTo_calc (l := []) (linked_iff.mp huv) ?_ (hsw u) ?_
    · simp [Node.blank]
    · -- before the first vector arrives, the rows of the neighbours are at their defaults
      funext j
      have huv' := huv.ne
      simp only [getLastD_nil, Node.vecFor, Node.blank]
      split_ifs <;> simp_all
  · exact vecsTo_calc_of_not_adjacent fun hadj => huv (linked_iff.mpr hadj)

/-- The invariant of the nodes other than the one that is about to recalculate. -/
theorem Config.Inv.settled_setNode (h : cfg.Inv s) (t : Node n) (hv : v ≠ me) :
    cfg.Settled v ((s.setNode me t).node v) := by
  rw [setNode_node_of_ne s t hv]
  exact h.settled v

theorem inv_dv {s' : Net n} {src dst : Fin n} (h : cfg.Inv s)
    (hsw : cfg.NoSilentSwitch s (.dv src dst)) (hstep : cfg.step s (.dv src dst) = some s') :
    cfg.Inv s' := by
  simp only [Config.step] at hstep
  split at hstep
  · cases hstep
  · rename_i vec rest hq
    obtain ⟨r, hr, rfl⟩ := map_eq_some_iff.mp hstep
    have hlink := h.linked hq
    -- the vector comes from a neighbour, so it is not dropped
    have hrow : src = dst ∨ ∃ e ∈ cfg.adjacent dst, e.dst = src := by
      obtain ⟨e, he, rfl, rfl⟩ := hlink
      exact .inr ⟨_, mem_adjacent.mpr ⟨cfg.symmetric e he, rfl⟩, rfl⟩
    rw [Config.handleDv, if_pos hrow] at hr
    rw [← (calc_eq_some.mp hr).2, ← recalc_setNode]
    refine inv_recalc (h.toUpToDate.store hq) ?_ (fun v hv => ?_) ?_
    · rw [setNode_node_self]
      exact (h.settled dst).nextHop_self
    · rw [setNode_node_of_ne _ _ hv]
      exact h.settled v
    · rw [setNode_node_self]
      exact hsw (dst, (s.node dst).store src vec) (by simp [Net.recalculates, hq])

/-- The counter of a link changes, and the node recalculates. -/
theorem inv_recalc_setOutstanding (h : cfg.Inv s) {dst : Fin n} {k : Nat}
    (hsw : ¬ cfg.SilentSwitch me ((s.node me).setOutstanding dst k)) :
    cfg.Inv (s.put me (cfg.recalculate me ((s.node me).setOutstanding dst k))) := by
  rw [← recalc_setNode]
  refine inv_recalc (h.toUpToDate.setNode rfl rfl) ?_ (fun v hv => h.settled_setNode _ hv) ?_
  · rw [setNode_node_self]
    exact (h.settled me).nextHop_self
  · rwa [setNode_node_self]

/-- The same, with the counter set once more to a value that leaves the link awake or asleep
as it is. -/
theorem inv_recalc_setOutstanding_twice {s : Net n} (h : cfg.Inv s) {dst : Fin n} {k k' : Nat}
    (hsw : ¬ cfg.SilentSwitch me ((s.node me).setOutstanding dst k))
    (hk : maxOutstandingHeartbeats < k' ↔ maxOutstandingHeartbeats < k) :
    cfg.Inv (s.put me
      ((cfg.recalculate me ((s.node me).setOutstanding dst k)).1.setOutstanding dst k',
        (cfg.recalculate me ((s.node me).setOutstanding dst k)).2)) := by
  have hinv := inv_recalc_setOutstanding h hsw
  rw [← setNode_put, ← put_node_self s me]
  refine hinv.setOutstanding ?_
  rw [put_node_self, calc_fst]
  simpa [Node.setOutstanding] using hk

theorem inv_heartbeat {s s' : Net n} {dst : Fin n} (h : cfg.Inv s)
    (hsw : cfg.NoSilentSwitch s (.heartbeat me dst))
    (hstep : cfg.step s (.heartbeat me dst) = some s') : cfg.Inv s' := by
  simp only [Config.step] at hstep
  split at hstep
  swap
  · cases hstep
  obtain ⟨r, hr, rfl⟩ := map_eq_some_iff.mp hstep
  simp only [Config.NoSilentSwitch, Net.recalculates] at hsw
  simp only [Config.sendHeartbeat] at hr
  generalize hk' : (if (s.node me).outstandingHeartbeats dst ≤ maxOutstandingHeartbeats then
    (s.node me).outstandingHeartbeats dst + 1 else (s.node me).outstandingHeartbeats dst) = k' at *
  split at hr
  · -- the link has just died; its second count does not wake it
    rename_i hdead
    rw [if_pos hdead] at hsw
    obtain ⟨r', hr', rfl⟩ := map_eq_some_iff.mp hr
    rw [← (calc_eq_some.mp hr').2]
    exact inv_recalc_setOutstanding_twice h (hsw _ rfl) (by omega)
  · rename_i hlive
    obtain rfl := some.inj hr
    rw [put_nil]
    refine h.setOutstanding ?_
    split at hk' <;> omega

theorem inv_echo {s s' : Net n} {src : Fin n} (h : cfg.Inv s)
    (hsw : cfg.NoSilentSwitch s (.echo me src))
    (hstep : cfg.step s (.echo me src) = some s') : cfg.Inv s' := by
  simp only [Config.step] at hstep
  split at hstep
  swap
  · cases hstep
  obtain ⟨r, hr, rfl⟩ := map_eq_some_iff.mp hstep
  simp only [Config.NoSilentSwitch, Net.recalculates] at hsw
  simp only [Config.handleHeartbeatEcho] at hr
  split at hr
  · rename_i hdead
    rw [if_pos hdead] at hsw
    obtain ⟨r', hr', rfl⟩ := map_eq_some_iff.mp hr
    rw [← (calc_eq_some.mp hr').2]
    exact inv_recalc_setOutstanding_twice h (hsw _ rfl) Iff.rfl
  · rename_i hlive
    obtain rfl := some.inj hr
    rw [put_nil]
    refine h.setOutstanding ?_
    omega

theorem inv_of_reachableBy {G : Net n → Event n → Prop}
    (hG : ∀ s ev, G s ev → cfg.NoSilentSwitch s ev) (h : cfg.system.ReachableBy G s) :
    cfg.Inv s := by
  refine h.invariant cfg.Inv ?_ ?_
  · rintro s ⟨r, hr, rfl⟩
    exact inv_init hr
  · intro s ev s' hinv hg hstep
    have hsw := hG s ev hg
    cases ev with
    | dv src dst => exact inv_dv hinv hsw hstep
    | heartbeat me dst => exact inv_heartbeat hinv hsw hstep
    | echo me src => exact inv_echo hinv hsw hstep

/-! ## Runs without collisions -/

theorem sameOffers_refl (me : Fin n) (t : Node n) : Node.SameOffers me t t :=
  ⟨fun _ _ => rfl, fun _ => rfl⟩

theorem Node.SameOffers.trans {t'' : Node n} (h : Node.SameOffers me t t')
    (h' : Node.SameOffers me t' t'') : Node.SameOffers me t t'' :=
  ⟨fun u hu => (h.vectors u hu).trans (h'.vectors u hu), fun e => (h.cost e).trans (h'.cost e)⟩

/-- What a node is offered changes in a step only if the step is one in which it
recalculates. -/
theorem sameOffers_of_step {s' : Net n} {ev : Event n} (hstep : cfg.step s ev = some s')
    (v : Fin n) : Node.SameOffers v (s'.node v) (s.node v) ∨
      ∃ t, (v, t) ∈ s.recalculates ev ∧ Node.SameOffers v (s'.node v) t := by
  -- only one node moves
  have hput : ∀ {s₀ : Net n} {me : Fin n} {r : Node n × List (Fin n × Vec n)},
      s₀.node = s.node → s' = s₀.put me r →
      (Node.SameOffers me r.1 (s.node me) ∨
        ∃ t, (me, t) ∈ s.recalculates ev ∧ Node.SameOffers me r.1 t) →
      Node.SameOffers v (s'.node v) (s.node v) ∨
        ∃ t, (v, t) ∈ s.recalculates ev ∧ Node.SameOffers v (s'.node v) t := by
    rintro s₀ me r hnode rfl h
    rcases eq_or_ne v me with rfl | hv
    · rwa [put_node_self]
    · rw [put_node_of_ne s₀ r hv, hnode]
      exact .inl (sameOffers_refl v _)
  cases ev with
  | dv src dst =>
    simp only [Config.step] at hstep
    split at hstep
    · cases hstep
    · rename_i vec rest hq
      obtain ⟨r, hr, hs'⟩ := map_eq_some_iff.mp hstep
      refine hput (take_node s src dst rest) hs'.symm ?_
      unfold Config.handleDv at hr
      split at hr
      · rw [← (calc_eq_some.mp hr).2]
        exact .inr ⟨_, by simp [Net.recalculates, hq], calc_sameOffers cfg dst _⟩
      · obtain rfl := some.inj hr
        exact .inl (sameOffers_refl dst _)
  | heartbeat me dst =>
    simp only [Config.step] at hstep
    split at hstep
    swap
    · cases hstep
    obtain ⟨r, hr, hs'⟩ := map_eq_some_iff.mp hstep
    refine hput rfl hs'.symm ?_
    simp only [Config.sendHeartbeat] at hr
    simp only [Net.recalculates]
    generalize hk' : (if (s.node me).outstandingHeartbeats dst ≤ maxOutstandingHeartbeats then
      (s.node me).outstandingHeartbeats dst + 1 else (s.node me).outstandingHeartbeats dst) = k' at *
    split at hr
    · rename_i hdead
      obtain ⟨r', hr', rfl⟩ := map_eq_some_iff.mp hr
      rw [← (calc_eq_some.mp hr').2, if_pos hdead]
      refine .inr ⟨_, rfl, (setOutstanding_sameOffers ?_).trans (calc_sameOffers cfg me _)⟩
      rw [calc_fst]
      simp [Node.setOutstanding]
      omega
    · rename_i hlive
      obtain rfl := some.inj hr
      refine .inl (setOutstanding_sameOffers ?_)
      split at hk' <;> omega
  | echo me src =>
    simp only [Config.step] at hstep
    split at hstep
    swap
    · cases hstep
    obtain ⟨r, hr, hs'⟩ := map_eq_some_iff.mp hstep
    refine hput rfl hs'.symm ?_
    simp only [Config.handleHeartbeatEcho] at hr
    simp only [Net.recalculates]
    split at hr
    · rename_i hdead
      obtain ⟨r', hr', rfl⟩ := map_eq_some_iff.mp hr
      rw [← (calc_eq_some.mp hr').2, if_pos hdead]
      refine .inr ⟨_, rfl, (setOutstanding_sameOffers ?_).trans (calc_sameOffers cfg me _)⟩
      rw [calc_fst]
      simp [Node.setOutstanding]
    · rename_i hlive
      obtain rfl := some.inj hr
      refine .inl (setOutstanding_sameOffers ?_)
      omega

/-- No link has the cost that stands for a sleeping one. -/
def Config.CostsFinite (cfg : Config n) : Prop := ∀ e ∈ cfg.edges, e.cost ≠ infinity

theorem not_collides_blank (hcost : cfg.CostsFinite) (me : Fin n) :
    ¬ cfg.Collides me (Node.blank me) := by
  rintro ⟨j, -, ⟨e, he, hinf⟩, -⟩
  have hoffer : (Node.blank me).offer j e = some infinity := hinf
  obtain ⟨-, hrow, hsum⟩ := offer_eq_some.mp hoffer
  -- the row of a neighbour has no other distance than the 0 for itself
  have hj : j = e.dst := by
    by_contra hj
    exact hrow (if_neg hj)
  have hzero : (Node.blank me).vectors e.dst j = 0 := if_pos hj
  have hedge : (Node.blank me).getEdgeCost e = e.cost := if_neg (by simp [Node.blank])
  rw [hzero, hedge, UInt32.zero_add] at hsum
  exact hcost e (mem_adjacent.mp he).1 hsum

theorem not_collides_of_reachableBy {G : Net n → Event n → Prop}
    (hG : ∀ s ev, G s ev → cfg.NoCollision s ev) (hcost : cfg.CostsFinite)
    (h : cfg.system.ReachableBy G s) (v : Fin n) : ¬ cfg.Collides v (s.node v) := by
  refine h.invariant (fun s => ∀ v, ¬ cfg.Collides v (s.node v)) ?_ ?_ v
  · rintro s ⟨r, hr, rfl⟩ v hc
    rw [init_eq hr] at hc
    exact not_collides_blank hcost v ((calc_sameOffers cfg v _).collides hc)
  · intro s ev s' hclear hg hstep v hc
    rcases sameOffers_of_step hstep v with hsame | ⟨t, ht, hsame⟩
    · exact hclear v (hsame.collides hc)
    · exact hG s ev hg (v, t) ht (hsame.collides hc)

end PittCs.Overlay
