import PittCs.Overlay.LinkState

/-!
# The tables of link-state routing

The labels of `calc_link_state` are those of the abstract algorithm, computed modulo
2^32. If no sum wraps around, they are the least costs, and going back along the parents
leads to the first hop; if one does, a distance ends up below the least cost.
-/

namespace PittCs.Overlay

open PittCs.Lib Function List

theorem sub_one_eq_iff {a b : UInt32} : a - 1 = b ↔ a = b + 1 := by
  constructor
  · rintro rfl
    exact (UInt32.sub_add_cancel a 1).symm
  · rintro rfl
    exact UInt32.add_sub_cancel b 1

theorem sub_one_inj {a b : UInt32} : a - 1 = b - 1 ↔ a = b := by
  rw [sub_one_eq_iff, UInt32.sub_add_cancel]

/-- The arrays as labels of the ids. -/
def LinkState.labels (ls : LinkState) : Labels UInt32 where
  dist id := (ls.distances (id - 1)).toNat
  parent id := ls.parentOf (id - 1)

/-- The ids in the set. -/
def LinkState.done (ls : LinkState) : Set UInt32 := {id | ls.inSet (id - 1) = true}

/-- The link is not disregarded. -/
theorem Link.alive_of_used {e : Link} (h : e.getEdgeCost ≠ infinity) :
    e.outstandingHeartbeats.toNat ≤ maxOutstandingHeartbeats ∧ e.getEdgeCost = e.cost := by
  unfold Link.getEdgeCost at h ⊢
  split at h
  case isTrue => exact absurd rfl h
  case isFalse hfew =>
    rw [if_neg hfew]
    exact ⟨not_lt.mp hfew, rfl⟩

namespace Topology

variable {t : Topology} {ls : LinkState} {currIndex : UInt32}

/-! ## One round of the main loop -/

theorem inSet_relaxLink (e : Link) : (relaxLink currIndex ls e).inSet = ls.inSet := by
  unfold relaxLink
  split
  · rfl
  dsimp only
  split
  · rfl
  split
  · rfl
  · rfl

/-- A link of another node, or one that is disregarded. -/
theorem relaxLink_of_not {e : Link} (h : ¬ (e.srcId = currIndex + 1 ∧ e.getEdgeCost ≠ infinity)) :
    relaxLink currIndex ls e = ls := by
  unfold relaxLink
  split
  case isTrue => rfl
  case isFalse hsrc =>
    have hcost : e.getEdgeCost = infinity := by
      by_contra hcost
      exact h ⟨not_not.mp hsrc, hcost⟩
    exact if_pos hcost

/-- Writing both arrays at the index of an id. -/
theorem labels_update (ls : LinkState) (id d p : UInt32) :
    LinkState.labels { ls with
      distances := Function.update ls.distances (id - 1) d
      parentOf := Function.update ls.parentOf (id - 1) p } = ls.labels.set id d.toNat p := by
  have hentry : ∀ {β : Type} (f : UInt32 → β) (b : β) (x : UInt32),
      Function.update f (id - 1) b (x - 1) = Function.update (fun y => f (y - 1)) id b x := by
    intro β f b x
    by_cases hx : x = id
    · rw [hx, update_self, update_self]
    · rw [update_of_ne hx, update_of_ne (mt sub_one_inj.mp hx)]
  unfold LinkState.labels Labels.set
  congr 1
  · funext x
    dsimp only
    rw [hentry]
    by_cases hx : x = id
    · rw [hx, update_self, update_self]
    · rw [update_of_ne hx, update_of_ne hx]
  · funext x
    exact hentry ls.parentOf p x

theorem labels_relaxLink {e : Link} (hsrc : e.srcId = currIndex + 1)
    (hcost : e.getEdgeCost ≠ infinity) :
    (relaxLink currIndex ls e).labels = ls.labels.relax infinity.toNat e.arc := by
  have hused := (Link.alive_of_used hcost).2
  have hindex : e.srcId - 1 = currIndex := sub_one_eq_iff.mpr hsrc
  have hsrcArc : e.arc.src = currIndex + 1 := hsrc
  have hsum : (ls.distances currIndex + e.getEdgeCost).toNat =
      ls.labels.sum infinity.toNat e.arc := by
    unfold Labels.sum LinkState.labels Link.arc
    rw [hused, UInt32.toNat_add]
    dsimp only
    rw [hindex]
    rfl
  unfold relaxLink Labels.relax
  rw [if_neg (not_not.mpr hsrc)]
  dsimp only
  rw [if_neg hcost]
  by_cases hlow : ls.distances currIndex + e.getEdgeCost < ls.distances (e.dstId - 1)
  · have hlow' : ls.labels.sum infinity.toNat e.arc < ls.labels.dist e.arc.dst := by
      rw [← hsum]
      exact hlow
    rw [if_pos hlow, if_pos hlow', ← hsum, hsrcArc]
    exact labels_update ..
  · have hlow' : ¬ ls.labels.sum infinity.toNat e.arc < ls.labels.dist e.arc.dst := by
      rw [← hsum]
      exact hlow
    rw [if_neg hlow, if_neg hlow']

/-- The arcs that are relaxed while the node at an index is scanned. -/
def outArcs (currIndex : UInt32) (links : List Link) : List (Arc UInt32) :=
  (links.filter fun e => e.srcId = currIndex + 1 ∧ e.getEdgeCost ≠ infinity).map Link.arc

theorem outArcs_cons (e : Link) (links : List Link) : outArcs currIndex (e :: links) =
    if e.srcId = currIndex + 1 ∧ e.getEdgeCost ≠ infinity then e.arc :: outArcs currIndex links
    else outArcs currIndex links := by
  unfold outArcs
  rw [filter_cons]
  simp only [decide_eq_true_iff]
  split
  · rfl
  · rfl

theorem mem_outArcs {a : Arc UInt32} :
    a ∈ outArcs currIndex t.links ↔ a ∈ t.usedArcs ∧ a.src = currIndex + 1 := by
  unfold outArcs usedArcs
  rw [mem_map, Set.mem_ofPred_eq]
  constructor
  · rintro ⟨e, he, rfl⟩
    rw [mem_filter, decide_eq_true_iff] at he
    exact ⟨⟨e, he.1, he.2.2, rfl⟩, he.2.1⟩
  · rintro ⟨⟨e, he, hcost, rfl⟩, hsrc⟩
    refine ⟨e, ?_, rfl⟩
    rw [mem_filter, decide_eq_true_iff]
    exact ⟨he, hsrc, hcost⟩

theorem labels_foldl (links : List Link) (ls : LinkState) :
    (links.foldl (relaxLink currIndex) ls).labels =
      (outArcs currIndex links).foldl (Labels.relax infinity.toNat) ls.labels := by
  induction links generalizing ls with
  | nil => rfl
  | cons e links ih =>
    rw [foldl_cons, ih, outArcs_cons]
    split
    case isTrue hused => rw [foldl_cons, labels_relaxLink hused.1 hused.2]
    case isFalse hused => rw [relaxLink_of_not hused]

theorem inSet_foldl (links : List Link) (ls : LinkState) :
    (links.foldl (relaxLink currIndex) ls).inSet = ls.inSet := by
  induction links generalizing ls with
  | nil => rfl
  | cons e links ih => rw [foldl_cons, ih, inSet_relaxLink]

theorem labels_scanLinks : (t.scanLinks currIndex ls).labels =
    (outArcs currIndex t.links).foldl (Labels.relax infinity.toNat) ls.labels := by
  rw [← labels_foldl]
  rfl

theorem inSet_scanLinks :
    (t.scanLinks currIndex ls).inSet = Function.update ls.inSet currIndex true := by
  unfold scanLinks
  dsimp only
  rw [inSet_foldl]

theorem done_scanLinks : (t.scanLinks currIndex ls).done = insert (currIndex + 1) ls.done := by
  ext id
  unfold LinkState.done
  rw [inSet_scanLinks, Set.mem_ofPred_eq, Set.mem_insert_iff, Set.mem_ofPred_eq, ← sub_one_eq_iff]
  by_cases hid : id - 1 = currIndex
  · rw [hid, update_self]
    exact ⟨fun _ => Or.inl rfl, fun _ => rfl⟩
  · rw [update_of_ne hid]
    exact ⟨Or.inr, fun h => h.resolve_left hid⟩

/-! ## The nearest node -/

theorem nearer_foldl (ls : LinkState) (ks : List UInt32) (small : UInt32 × UInt32) :
    (ks.foldl (nearer ls) small = small ∨ ∃ k ∈ ks, ls.inSet k = false ∧
      ls.distances k < small.2 ∧ ks.foldl (nearer ls) small = (k + 1, ls.distances k)) ∧
    (ks.foldl (nearer ls) small).2 ≤ small.2 ∧
    ∀ k ∈ ks, ls.inSet k = false → (ks.foldl (nearer ls) small).2 ≤ ls.distances k := by
  induction ks generalizing small with
  | nil => exact ⟨Or.inl rfl, UInt32.le_refl _, fun _ hk => absurd hk not_mem_nil⟩
  | cons k ks ih =>
    rw [foldl_cons]
    rcases ih (nearer ls small k) with ⟨hfrom, hle, hleast⟩
    by_cases hcloser : ls.distances k < small.2 ∧ ls.inSet k = false
    · have hnew : nearer ls small k = (k + 1, ls.distances k) := if_pos hcloser
      rw [hnew] at hfrom hle hleast ⊢
      refine ⟨Or.inr ?_, UInt32.le_trans hle (UInt32.le_of_lt hcloser.1), ?_⟩
      · rcases hfrom with hsame | ⟨k', hk', hset, hlt, heq⟩
        · exact ⟨k, mem_cons_self, hcloser.2, hcloser.1, hsame⟩
        · exact ⟨k', mem_cons_of_mem k hk', hset, UInt32.lt_trans hlt hcloser.1, heq⟩
      · intro k' hk' hset
        rcases mem_cons.mp hk' with rfl | hk'
        · exact hle
        · exact hleast k' hk' hset
    · have hold : nearer ls small k = small := if_neg hcloser
      rw [hold] at hfrom hle hleast ⊢
      refine ⟨?_, hle, ?_⟩
      · rcases hfrom with hsame | ⟨k', hk', hset, hlt, heq⟩
        · exact Or.inl hsame
        · exact Or.inr ⟨k', mem_cons_of_mem k hk', hset, hlt, heq⟩
      · intro k' hk' hset
        rcases mem_cons.mp hk' with rfl | hk'
        · have hfar : ¬ ls.distances k' < small.2 := fun hlt => hcloser ⟨hlt, hset⟩
          exact UInt32.le_trans hle (UInt32.not_lt.mp hfar)
        · exact hleast k' hk' hset

theorem mem_indices {k : UInt32} : k ∈ t.indices ↔ k.toNat < t.nodes.length := by
  have hfew := t.few
  unfold indices
  rw [mem_map]
  constructor
  · rintro ⟨n, hn, rfl⟩
    rw [mem_range] at hn
    rwa [UInt32.toNat_ofNat_of_lt' (by show n < 4294967296; omega)]
  · intro hk
    exact ⟨k.toNat, mem_range.mpr hk, UInt32.ofNat_toNat⟩

/-- The index of an id of the list. -/
theorem index_mem {id : UInt32} (h : id ∈ t.nodes) : id - 1 ∈ t.indices := by
  rw [mem_indices]
  rw [t.ids] at h
  rw [UInt32.toNat_sub_of_le id 1 (UInt32.le_iff_toNat_le.mpr h.1)]
  show id.toNat - 1 < _
  omega

theorem mem_of_index {k : UInt32} (h : k ∈ t.indices) : k + 1 ∈ t.nodes := by
  have hfew := t.few
  rw [mem_indices] at h
  rw [t.ids, UInt32.toNat_add]
  show 1 ≤ (k.toNat + 1) % 4294967296 ∧ (k.toNat + 1) % 4294967296 ≤ _
  omega

theorem minusOne_not_mem : minusOne ∉ t.nodes := by
  have hfew := t.few
  rw [t.ids]
  intro h
  have hlast : minusOne.toNat = 4294967295 := rfl
  omega

/-- No node is left that has a label, or the result is one with a lowest label. -/
theorem smallNode_spec (hout : ∀ id, id ∉ t.nodes → ls.labels.dist id = infinity.toNat) :
    (t.smallNode ls = minusOne ∧ ∀ v ∉ ls.done, ls.labels.dist v = infinity.toNat) ∨
      (t.smallNode ls ≠ minusOne ∧ t.smallNode ls ∈ t.nodes ∧ t.smallNode ls ∉ ls.done ∧
        ls.labels.dist (t.smallNode ls) ≠ infinity.toNat ∧
        ∀ v ∉ ls.done, ls.labels.dist (t.smallNode ls) ≤ ls.labels.dist v) := by
  have htop : ∀ id, ls.labels.dist id ≤ infinity.toNat := by
    intro id
    have hlt := (ls.distances (id - 1)).toNat_lt
    exact Nat.le_of_lt_succ hlt
  have hfresh : ∀ v ∉ ls.done, ls.inSet (v - 1) = false :=
    fun v hv => Bool.eq_false_of_not_eq_true hv
  rcases nearer_foldl ls t.indices (minusOne, infinity) with ⟨hfrom, hle, hleast⟩
  have hmin : ∀ v ∉ ls.done,
      (t.indices.foldl (nearer ls) (minusOne, infinity)).2.toNat ≤ ls.labels.dist v := by
    intro v hv
    by_cases hmem : v ∈ t.nodes
    · exact hleast (v - 1) (index_mem hmem) (hfresh v hv)
    · rw [hout v hmem]
      exact hle
  unfold smallNode
  rcases hfrom with hnone | ⟨k, hk, hset, hlt, hsome⟩
  · left
    rw [hnone] at hmin ⊢
    exact ⟨rfl, fun v hv => le_antisymm (htop v) (hmin v hv)⟩
  · right
    rw [hsome] at hmin ⊢
    have hindex : k + 1 - 1 = k := UInt32.add_sub_cancel k 1
    have hdist : ls.labels.dist (k + 1) = (ls.distances k).toNat := by
      unfold LinkState.labels
      dsimp only
      rw [hindex]
    have hmem := mem_of_index hk
    refine ⟨fun heq => minusOne_not_mem (t := t) ?_, hmem, ?_, ?_, ?_⟩
    · rwa [← heq]
    · unfold LinkState.done
      rw [Set.mem_ofPred_eq]
      dsimp only
      rw [hindex, hset]
      exact Bool.false_ne_true
    · dsimp only
      rw [hdist]
      exact Nat.ne_of_lt hlt
    · dsimp only
      rw [hdist]
      exact hmin

/-! ## The main loop -/

theorem dist_scanLinks_le (v : UInt32) :
    (t.scanLinks currIndex ls).labels.dist v ≤ ls.labels.dist v := by
  rw [labels_scanLinks]
  exact dist_foldl_le _ _ _ v

theorem dist_calcLoop_le (rounds : ℕ) (currIndex : UInt32) (ls : LinkState) (v : UInt32) :
    (t.calcLoop rounds currIndex ls).labels.dist v ≤ ls.labels.dist v := by
  induction rounds generalizing currIndex ls with
  | zero => exact Nat.le_refl _
  | succ rounds ih =>
    unfold calcLoop
    dsimp only
    split
    · exact dist_scanLinks_le v
    · exact (ih _ _).trans (dist_scanLinks_le v)

/-- Walks lead from nodes of the list to nodes of the list. -/
theorem mem_of_walk {u v : UInt32} {l : List (Arc UInt32)} (hl : IsWalk u l v)
    (hA : ∀ e ∈ l, e ∈ t.usedArcs) (hu : u ∈ t.nodes) : v ∈ t.nodes := by
  induction l generalizing u with
  | nil =>
    obtain rfl : u = v := hl
    exact hu
  | cons a l ih =>
    rcases hA a mem_cons_self with ⟨e, he, -, rfl⟩
    exact ih hl.2 (fun a' ha' => hA a' (mem_cons_of_mem _ ha')) (t.ends e he).2

theorem mem_of_labelled {done : Set UInt32}
    (h : Labelled t.usedArcs t.myId infinity.toNat ls.labels done) {v : UInt32}
    (hv : ls.labels.dist v ≠ infinity.toNat) : v ∈ t.nodes := by
  rcases h.tree v hv with ⟨l, hl, -⟩
  exact mem_of_walk hl.walk hl.mem t.mine

/-- What holds when no node is left. -/
structure Finished (t : Topology) (ls : LinkState) : Prop where
  labelled : Labelled t.usedArcs t.myId infinity.toNat ls.labels ls.done
  settled : Settled t.usedArcs t.myId infinity.toNat ls.labels ls.done
  others : ∀ v ∉ ls.done, ls.labels.dist v = infinity.toNat
  noWrap : ∀ e ∈ t.usedArcs, e.src ∈ ls.done → NoWrap t.usedArcs t.myId infinity.toNat e

/-- Some label is too low, since a sum has wrapped around. -/
def Wrapped (t : Topology) (ls : LinkState) : Prop :=
  TooLow t.usedArcs t.myId ls.labels ∧
    ∃ e ∈ t.usedArcs, ¬ NoWrap t.usedArcs t.myId infinity.toNat e

theorem Wrapped.calcLoop (h : t.Wrapped ls) (rounds : ℕ) (currIndex : UInt32) :
    t.Wrapped (t.calcLoop rounds currIndex ls) := by
  rcases h with ⟨⟨v, d, hd, hlow⟩, hwrap⟩
  exact ⟨⟨v, d, hd, lt_of_le_of_lt (dist_calcLoop_le rounds currIndex ls v) hlow⟩, hwrap⟩

/-- The node at the index is scanned next, and no sum has wrapped around so far. -/
structure Ready (t : Topology) (ls : LinkState) (currIndex : UInt32) : Prop where
  scanning : Scanning t.usedArcs t.myId infinity.toNat ls.labels ls.done (currIndex + 1)
  noWrap : ∀ e ∈ t.usedArcs, e.src ∈ ls.done → NoWrap t.usedArcs t.myId infinity.toNat e

/-- The number of nodes that are not in the set. -/
def remaining (t : Topology) (ls : LinkState) : ℕ := t.nodes.countP fun id => !ls.inSet (id - 1)

theorem remaining_scanLinks_lt (hmem : currIndex + 1 ∈ t.nodes) (hfresh : currIndex + 1 ∉ ls.done) :
    t.remaining (t.scanLinks currIndex ls) < t.remaining ls := by
  have hindex : currIndex + 1 - 1 = currIndex := UInt32.add_sub_cancel currIndex 1
  unfold LinkState.done at hfresh
  rw [Set.mem_ofPred_eq, hindex, Bool.not_eq_true] at hfresh
  unfold remaining
  rw [inSet_scanLinks]
  apply countP_lt_of_done ?_ hmem
  · rw [hindex, hfresh, Bool.not_false]
  · rw [hindex, update_self, Bool.not_true]
  · intro id _ hid
    by_cases hcurr : id - 1 = currIndex
    · rw [hcurr, update_self, Bool.not_true] at hid
      exact absurd hid Bool.false_ne_true
    · rwa [update_of_ne hcurr] at hid

section Loop

variable (hsums : ∀ l v, IsPath t.usedArcs t.myId l v → arcsCost l < infinity.toNat)
include hsums

/-- One round: the node is settled, or a sum wraps around. -/
theorem Ready.scanLinks (h : t.Ready ls currIndex) :
    (Labelled t.usedArcs t.myId infinity.toNat (t.scanLinks currIndex ls).labels
        (t.scanLinks currIndex ls).done ∧
      Settled t.usedArcs t.myId infinity.toNat (t.scanLinks currIndex ls).labels
        (t.scanLinks currIndex ls).done ∧
      ∀ e ∈ t.usedArcs, e.src ∈ (t.scanLinks currIndex ls).done →
        NoWrap t.usedArcs t.myId infinity.toNat e) ∨
      t.Wrapped (t.scanLinks currIndex ls) := by
  have houts : ∀ e ∈ outArcs currIndex t.links, e ∈ t.usedArcs ∧ e.src = currIndex + 1 :=
    fun e he => mem_outArcs.mp he
  unfold Wrapped
  rw [done_scanLinks, labels_scanLinks]
  rcases h.scanning.relaxAll hsums houts with ⟨hscan, hall⟩ | ⟨hlow, e, he, hwrap⟩
  · left
    refine ⟨hscan.labelled, ?_, ?_⟩
    · apply hscan.finish
      intro e he hsrc
      exact (hall e (mem_outArcs.mpr ⟨he, hsrc⟩)).2
    · rintro e he (hsrc | hdone)
      · exact (hall e (mem_outArcs.mpr ⟨he, hsrc⟩)).1
      · exact h.noWrap e he hdone
  · exact Or.inr ⟨hlow, e, (houts e he).1, hwrap⟩

/-- The main loop, with a round for each node that is not in the set. -/
theorem Ready.calcLoop {rounds : ℕ} (h : t.Ready ls currIndex) (hrounds : t.remaining ls ≤ rounds) :
    t.Finished (t.calcLoop rounds currIndex ls) ∨ t.Wrapped (t.calcLoop rounds currIndex ls) := by
  induction rounds generalizing currIndex ls with
  | zero =>
    -- the node that is scanned would be one of those that remain
    have hmem := mem_of_labelled h.scanning.labelled h.scanning.found
    have hlt := remaining_scanLinks_lt hmem h.scanning.fresh
    omega
  | succ rounds ih =>
    have hmem := mem_of_labelled h.scanning.labelled h.scanning.found
    have hlt := remaining_scanLinks_lt hmem h.scanning.fresh
    unfold Topology.calcLoop
    dsimp only
    rcases h.scanLinks hsums with ⟨hlabelled, hsettled, hnowrap⟩ | hwrapped
    · have hout : ∀ id, id ∉ t.nodes →
          (t.scanLinks currIndex ls).labels.dist id = infinity.toNat := by
        intro id hid
        by_contra hdist
        exact hid (mem_of_labelled hlabelled hdist)
      rcases smallNode_spec hout with ⟨hnone, hothers⟩ | ⟨hsome, -, hfresh, hfound, hleast⟩
      · rw [if_pos hnone]
        exact Or.inl ⟨hlabelled, hsettled, hothers, hnowrap⟩
      · rw [if_neg hsome]
        apply ih
        · rw [← UInt32.sub_add_cancel (t.smallNode (t.scanLinks currIndex ls)) 1] at hfresh hleast hfound
          exact ⟨hsettled.scan hlabelled hfresh hleast hfound, hnowrap⟩
        · omega
    · split
      · exact Or.inr hwrapped
      · exact Or.inr (hwrapped.calcLoop _ _)

end Loop

/-! ## The beginning -/

/-- Only nodes with a distance have a parent. -/
def Orphans (ls : LinkState) : Prop := ∀ i, ls.distances i = infinity → ls.parentOf i = minusOne

theorem Orphans.relaxLink (h : Orphans ls) (e : Link) : Orphans (relaxLink currIndex ls e) := by
  unfold Topology.relaxLink
  split
  · exact h
  dsimp only
  split
  · exact h
  split
  case isTrue hlow =>
    intro i hi
    dsimp only at hi ⊢
    by_cases hadj : i = e.dstId - 1
    · -- the new distance is below another one, so it is not INFINITY
      rw [hadj, update_self] at hi
      rw [hi] at hlow
      have hlt := UInt32.lt_iff_toNat_lt.mp hlow
      have hbound := (ls.distances (e.dstId - 1)).toNat_lt
      have htop : infinity.toNat = 4294967295 := rfl
      omega
    · rw [update_of_ne hadj] at hi ⊢
      exact h i hi
  case isFalse => exact h

theorem Orphans.scanLinks (h : Orphans ls) : Orphans (t.scanLinks currIndex ls) := by
  have hfold : ∀ (links : List Link) (ls : LinkState), Orphans ls →
      Orphans (links.foldl (Topology.relaxLink currIndex) ls) := by
    intro links
    induction links with
    | nil => exact fun _ h => h
    | cons e links ih => exact fun _ h => ih _ (h.relaxLink e)
  exact hfold t.links ls h

theorem Orphans.calcLoop (h : Orphans ls) (rounds : ℕ) (currIndex : UInt32) :
    Orphans (t.calcLoop rounds currIndex ls) := by
  induction rounds generalizing currIndex ls with
  | zero => exact h
  | succ rounds ih =>
    unfold Topology.calcLoop
    dsimp only
    split
    · exact h.scanLinks
    · exact ih h.scanLinks _

/-- The arrays after the first assignment of `calc_link_state`. -/
def start (t : Topology) : LinkState :=
  { t.resetLinkState with
    parentOf := Function.update t.resetLinkState.parentOf (t.myId - 1) t.myId }

theorem linkState_eq :
    t.linkState = t.calcLoop t.nodes.length (t.myId - 1) t.start := rfl

theorem dist_start (v : UInt32) :
    t.start.distances (v - 1) = if v = t.myId then 0 else infinity := by
  unfold start resetLinkState
  dsimp only
  rw [UInt32.sub_add_cancel]

theorem orphans_start : Orphans t.start := by
  intro i hi
  have hother : i + 1 ≠ t.myId := by
    intro hmy
    have hzero := dist_start (t := t) (i + 1)
    rw [UInt32.add_sub_cancel, hi, if_pos hmy] at hzero
    exact absurd hzero (by decide)
  unfold start resetLinkState
  dsimp only
  rw [update_of_ne (fun h => hother (sub_one_eq_iff.mp h.symm).symm), if_neg hother]

theorem ready_start : t.Ready t.start (t.myId - 1) where
  scanning := by
    rw [UInt32.sub_add_cancel]
    have hempty : t.start.done = ∅ := by
      apply Set.eq_empty_of_forall_notMem
      exact fun id hid => absurd hid Bool.false_ne_true
    rw [hempty]
    apply Scanning.init
    · unfold LinkState.labels
      dsimp only
      rw [dist_start, if_pos rfl]
      rfl
    · exact update_self ..
    · intro v hv
      unfold LinkState.labels
      dsimp only
      rw [dist_start, if_neg hv]
    · decide
  noWrap := fun _ _ hdone => absurd hdone Bool.false_ne_true

/-- The main loop ends with the least costs, or a sum wraps around. -/
theorem finished_or_wrapped (hsums : ∀ l v, IsPath t.usedArcs t.myId l v → arcsCost l < infinity.toNat) :
    t.Finished t.linkState ∨ t.Wrapped t.linkState := by
  rw [linkState_eq]
  exact ready_start.calcLoop hsums countP_le_length

end Topology

end PittCs.Overlay
