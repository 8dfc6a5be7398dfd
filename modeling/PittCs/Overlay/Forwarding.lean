import Mathlib.Algebra.Order.BigOperators.Group.List
import Mathlib.Algebra.Order.Group.Nat
import PittCs.Overlay.LeastCosts

/-!
# The forwarding table of link-state routing

Going back along the parents from a node with a distance leads to the first hop of a path
of least cost, and from the other nodes nowhere. So the tables are right exactly if no
sum of `calc_link_state` wraps around.
-/

namespace PittCs.Overlay.Topology

open PittCs.Lib Function List

variable {t : Topology} {ls : LinkState}

/-! ## Paths over the links that are used -/

theorem usedArcs_subset {a : Arc UInt32} (h : a ∈ t.usedArcs) : a ∈ t.aliveArcs := by
  rcases h with ⟨e, he, hcost, rfl⟩
  exact ⟨e, he, (Link.alive_of_used hcost).1, rfl⟩

theorem aliveArcs_subset {a : Arc UInt32} (h : a ∈ t.aliveArcs) : a ∈ t.arcs := by
  rcases h with ⟨e, he, -, rfl⟩
  exact ⟨e, he, rfl⟩

section Sums

variable (hsums : t.PathSumsBelow)
include hsums

/-- A link of cost `INFINITY` is on no path. -/
theorem isPath_used_iff {u v : UInt32} {l : List (Arc UInt32)} :
    IsPath t.usedArcs u l v ↔ IsPath t.aliveArcs u l v := by
  constructor
  · intro h
    exact h.mono fun e he => usedArcs_subset (h.mem e he)
  · intro h
    apply h.mono
    intro a ha
    have hlt := hsums u l v (h.mono fun e he => aliveArcs_subset (h.mem e he))
    have hle := cost_le_arcsCost ha
    rcases h.mem a ha with ⟨e, he, hfew, rfl⟩
    refine ⟨e, he, ?_, rfl⟩
    unfold Link.getEdgeCost
    rw [if_neg (not_lt.mpr hfew)]
    intro hcost
    have hsame : e.arc.cost = infinity.toNat := congrArg UInt32.toNat hcost
    omega

theorem leastCost_used_iff {u v : UInt32} {d : ℕ} :
    LeastCost t.usedArcs u v d ↔ LeastCost t.aliveArcs u v d := by
  unfold LeastCost
  simp only [isPath_used_iff hsums]

theorem noWrap_used_iff {e : Arc UInt32} :
    NoWrap t.usedArcs t.myId infinity.toNat e ↔ NoWrap t.aliveArcs t.myId infinity.toNat e := by
  unfold NoWrap
  simp only [leastCost_used_iff hsums]

theorem used_sums : ∀ l v, IsPath t.usedArcs t.myId l v → arcsCost l < infinity.toNat := by
  intro l v h
  exact hsums t.myId l v (h.mono fun e he => aliveArcs_subset (usedArcs_subset (h.mem e he)))

end Sums

/-! ## Back along the parents -/

theorem index_lt {id : UInt32} (h : id ∈ t.nodes) : ¬ (id - 1).toNat ≥ t.nodes.length :=
  not_le.mpr (mem_indices.mp (index_mem h))

theorem findParent_self {calls : ℕ} (hroot : ls.labels.parent t.myId = t.myId) :
    t.findParent ls t.myId (calls + 1) t.myId = t.myId := by
  unfold findParent
  dsimp only
  rw [if_neg (index_lt t.mine)]
  exact if_pos hroot

/-- A node without a parent. -/
theorem findParent_orphan {calls : ℕ} {id : UInt32} (hid : id ∈ t.nodes)
    (h : ls.labels.parent id = minusOne) :
    t.findParent ls t.myId (calls + 2) id = minusOne := by
  have hmine : minusOne ≠ t.myId := fun heq => minusOne_not_mem (t := t) (heq ▸ t.mine)
  have hparent : ls.parentOf (id - 1) = minusOne := h
  have hlast : (minusOne - 1).toNat ≥ t.nodes.length := Nat.le_of_lt_succ t.few
  unfold findParent
  dsimp only
  rw [if_neg (index_lt hid), hparent, if_neg hmine]
  unfold findParent
  exact if_pos hlast

/-- The first arc of a path along the parents. -/
theorem findParent_path {l : List (Arc UInt32)} {v : UInt32} {calls : ℕ}
    (hl : IsPath t.usedArcs t.myId l v) (hparent : ∀ e ∈ l, ls.labels.parent e.dst = e.src)
    (hne : l ≠ []) (hcalls : l.length ≤ calls) :
    l.head?.map Arc.dst = some (t.findParent ls t.myId calls v) := by
  induction l using List.reverseRecOn generalizing v calls with
  | nil => exact absurd rfl hne
  | append_singleton l e ih =>
    rcases hl.of_concat with ⟨hinit, rfl, -⟩
    have hlast : ls.parentOf (e.dst - 1) = e.src :=
      hparent e (mem_append_right l (mem_singleton_self e))
    have hmem : e.dst ∈ t.nodes := mem_of_walk hl.walk hl.mem t.mine
    cases calls with
    | zero =>
      rw [length_append] at hcalls
      exact absurd hcalls (Nat.not_succ_le_zero _)
    | succ calls =>
      unfold findParent
      dsimp only
      rw [if_neg (index_lt hmem), hlast]
      cases l with
      | nil =>
        have hsrc : e.src = t.myId := Eq.symm hinit.walk
        rw [if_pos hsrc]
        rfl
      | cons e' l =>
        -- a path does not come back to its first node
        have hsrc : e.src ≠ t.myId := by
          intro heq
          have hnodup := hinit.nodup
          rw [heq] at hinit
          exact (nodup_cons.mp hnodup).1 (hinit.walk.last_mem (cons_ne_nil e' l))
        rw [if_neg hsrc]
        apply ih hinit
        · exact fun e'' he'' => hparent e'' (mem_append_left _ he'')
        · exact cons_ne_nil e' l
        · rw [length_append] at hcalls
          exact Nat.le_of_succ_le_succ hcalls

/-- A path has fewer arcs than there are nodes. -/
theorem length_lt_of_path {l : List (Arc UInt32)} {v : UInt32}
    (hl : IsPath t.usedArcs t.myId l v) : l.length < t.nodes.length := by
  have hsub : t.myId :: l.map Arc.dst ⊆ t.nodes := by
    intro x hx
    rcases mem_cons.mp hx with rfl | hx
    · exact t.mine
    · rcases mem_map.mp hx with ⟨a, ha, rfl⟩
      rcases hl.mem a ha with ⟨e, he, -, rfl⟩
      exact (t.ends e he).2
  have hle := (hl.nodup.subperm hsub).length_le
  rwa [length_cons, length_map] at hle

/-! ## The table -/

theorem getNodeFromId_mem {id : UInt32} (h : id ∈ t.nodes) : t.getNodeFromId id = some id := by
  unfold getNodeFromId
  rcases hfind : t.nodes.find? fun n => n = id with _ | n
  · have hnone := find?_eq_none.mp hfind id h
    rw [decide_eq_true_iff] at hnone
    exact absurd rfl hnone
  · have hsome := find?_some hfind
    rw [decide_eq_true_iff] at hsome
    rw [hsome]

theorem getNodeFromId_minusOne : t.getNodeFromId minusOne = none := by
  unfold getNodeFromId
  rw [find?_eq_none]
  intro n hn heq
  rw [decide_eq_true_iff] at heq
  rw [heq] at hn
  exact minusOne_not_mem hn

theorem setNextHop_eq {k : UInt32} (hk : k ∈ t.indices) (hop : UInt32 → Option UInt32) :
    t.setNextHop ls hop k = Function.update hop (k + 1)
      (t.getNodeFromId (t.findParent ls t.myId (t.nodes.length + 1) (k + 1))) := by
  unfold setNextHop
  dsimp only
  rw [getNodeFromId_mem (mem_of_index hk)]

/-- Each node gets what `find_parent` finds for it. -/
theorem setForwardingTableLs_apply {v : UInt32} (hv : v ∈ t.nodes) (hop : UInt32 → Option UInt32) :
    t.setForwardingTableLs ls hop v =
      t.getNodeFromId (t.findParent ls t.myId (t.nodes.length + 1) v) := by
  have hfold : ∀ (ks : List UInt32) (hop : UInt32 → Option UInt32), (∀ k ∈ ks, k ∈ t.indices) →
      (v - 1 ∈ ks ∨ hop v = t.getNodeFromId (t.findParent ls t.myId (t.nodes.length + 1) v)) →
      ks.foldl (t.setNextHop ls) hop v =
        t.getNodeFromId (t.findParent ls t.myId (t.nodes.length + 1) v) := by
    intro ks
    induction ks with
    | nil => exact fun _ _ h => h.resolve_left not_mem_nil
    | cons k ks ih =>
      intro hop hks h
      rw [foldl_cons]
      apply ih _ fun k' hk' => hks k' (mem_cons_of_mem k hk')
      rw [setNextHop_eq (hks k mem_cons_self)]
      by_cases hkv : v = k + 1
      · right
        rw [hkv, update_self]
      · rw [update_of_ne hkv]
        rcases h with hmem | hset
        · left
          rcases mem_cons.mp hmem with heq | hmem
          · exact absurd (sub_one_eq_iff.mp heq) hkv
          · exact hmem
        · exact Or.inr hset
  exact hfold t.indices hop (fun _ hk => hk) (Or.inl (index_mem hv))

/-! ## Both tables -/

variable {v : UInt32}

theorem Finished.isPath_iff (h : t.Finished t.linkState) (hsums : t.PathSumsBelow) :
    t.linkState.distances (v - 1) = infinity ↔ ¬ ∃ l, IsPath t.aliveArcs t.myId l v := by
  have hleast := h.settled.leastCost h.labelled h.others (by decide) v
  constructor
  · intro hdist
    have hpath := hleast.2 (congrArg UInt32.toNat hdist)
    rintro ⟨l, hl⟩
    exact hpath l ((isPath_used_iff hsums).mpr hl)
  · intro hno
    by_contra hdist
    rcases hleast.1 fun heq => hdist (UInt32.toNat_inj.mp heq) with ⟨⟨l, hl, -⟩, -⟩
    exact hno ⟨l, (isPath_used_iff hsums).mp hl⟩

theorem Finished.correctAt (h : t.Finished t.linkState) (hsums : t.PathSumsBelow) (hv : v ∈ t.nodes)
    (hop : UInt32 → Option UInt32) :
    t.CorrectAt (t.linkState.distances (v - 1)) (t.forwarding hop v) v := by
  have hiff := h.isPath_iff (v := v) hsums
  have hdist : (∃ l, IsPath t.aliveArcs t.myId l v) →
      t.linkState.labels.dist v ≠ infinity.toNat := by
    intro hl heq
    exact hiff.mp (UInt32.toNat_inj.mp heq) hl
  unfold forwarding
  rw [setForwardingTableLs_apply hv]
  constructor
  case infinity_iff => exact hiff
  case least =>
    intro hl
    rw [← leastCost_used_iff hsums]
    exact (h.settled.leastCost h.labelled h.others (by decide) v).1 (hdist hl)
  case self =>
    intro hmy
    rw [hmy, findParent_self h.labelled.parent, getNodeFromId_mem t.mine]
  case unreachable =>
    intro hno
    have hparent := orphans_start.calcLoop t.nodes.length (t.myId - 1) (v - 1) (hiff.mpr hno)
    have hpos : 0 < t.nodes.length := length_pos_of_mem t.mine
    rw [← linkState_eq] at hparent
    rw [← Nat.sub_add_cancel hpos, findParent_orphan hv hparent, getNodeFromId_minusOne]
  case first =>
    intro hmy hl
    rcases h.labelled.tree v (hdist hl) with ⟨l, hpath, hcost, htree⟩
    have hlength := length_lt_of_path hpath
    have hne : l ≠ [] := by
      intro hnil
      rw [hnil] at hpath
      exact hmy (Eq.symm hpath.walk)
    have hfirst : l.head?.map Arc.dst =
        some (t.findParent t.linkState t.myId (t.nodes.length + 1) v) :=
      findParent_path hpath (fun e he => (htree e he).2) hne (by omega)
    cases l with
    | nil => exact absurd rfl hne
    | cons e l =>
      have heq : e.dst = t.findParent t.linkState t.myId (t.nodes.length + 1) v :=
        Option.some.inj hfirst
      rcases hpath.mem e mem_cons_self with ⟨e', he', -, hlink⟩
      refine ⟨e, l, (isPath_used_iff hsums).mp hpath, hcost, ?_⟩
      rw [← heq]
      apply getNodeFromId_mem
      rw [← hlink]
      exact (t.ends e' he').2

theorem Finished.noWrapAround (h : t.Finished t.linkState) (hsums : t.PathSumsBelow) :
    t.NoWrapAround := by
  intro e he
  rw [← noWrap_used_iff hsums]
  by_cases hdone : e.src ∈ t.linkState.done
  · exact h.noWrap e he hdone
  · -- no path leads to the source of the arc
    rintro d d' ⟨⟨l, hl, -⟩, -⟩ -
    have hno := (h.settled.leastCost h.labelled h.others (by decide) e.src).2 (h.others _ hdone)
    exact absurd hl (hno l)

theorem Wrapped.not_correct (h : t.Wrapped t.linkState) (hsums : t.PathSumsBelow) :
    ¬ t.Correct := by
  rcases h with ⟨⟨v, d, hd, hlow⟩, -⟩
  intro hcorrect
  rcases hd.1 with ⟨l, hl, -⟩
  have hv := mem_of_walk hl.walk hl.mem t.mine
  rw [leastCost_used_iff hsums] at hd
  have hleast := (hcorrect (fun _ => none) v hv).least ⟨l, (isPath_used_iff hsums).mp hl⟩
  have heq : t.linkState.labels.dist v = d := hleast.unique hd
  omega

/-- The tables are right exactly if no sum wraps around. -/
theorem linkState_correct_iff (hsums : t.PathSumsBelow) : t.Correct ↔ t.NoWrapAround := by
  rcases finished_or_wrapped (used_sums hsums) with hfinished | hwrapped
  · constructor
    · exact fun _ => hfinished.noWrapAround hsums
    · exact fun _ hop v hv => hfinished.correctAt hsums hv hop
  · constructor
    · intro hcorrect
      exact absurd hcorrect (hwrapped.not_correct hsums)
    · intro hnowrap
      rcases hwrapped.2 with ⟨e, he, hwrap⟩
      rw [noWrap_used_iff hsums] at hwrap
      exact absurd (hnowrap e he) hwrap

/-- A bound on the costs of the links to each node. -/
theorem pathSumsBelow_of_bound (bound : UInt32 → ℕ)
    (hcost : ∀ e ∈ t.links, e.cost.toNat ≤ bound e.dstId)
    (hsum : (t.nodes.map bound).sum < infinity.toNat) : t.PathSumsBelow := by
  intro u l v hl
  have hle : ∀ l : List (Arc UInt32), (∀ a ∈ l, a ∈ t.arcs) →
      arcsCost l ≤ ((l.map Arc.dst).map bound).sum := by
    intro l
    induction l with
    | nil => exact fun _ => Nat.le_refl _
    | cons a l ih =>
      intro hmem
      rcases hmem a mem_cons_self with ⟨e, he, rfl⟩
      rw [arcsCost_cons, map_cons, map_cons, sum_cons]
      exact Nat.add_le_add (hcost e he) (ih fun a ha => hmem a (mem_cons_of_mem _ ha))
  have hsub : l.map Arc.dst ⊆ t.nodes := by
    intro x hx
    rcases mem_map.mp hx with ⟨a, ha, rfl⟩
    rcases hl.mem a ha with ⟨e, he, rfl⟩
    exact (t.ends e he).2
  -- a path leads to each node at most once
  rcases (nodup_cons.mp hl.nodup).2.subperm hsub with ⟨ids, hperm, hsublist⟩
  calc arcsCost l ≤ ((l.map Arc.dst).map bound).sum := hle l hl.mem
    _ = (ids.map bound).sum := (hperm.map bound).sum_eq.symm
    _ ≤ (t.nodes.map bound).sum := (hsublist.map bound).sum_le_sum fun _ _ => Nat.zero_le _
    _ < infinity.toNat := hsum

/-- The nodes 1, 2 and 3. -/
theorem three_ids (id : UInt32) :
    id ∈ ([1, 2, 3] : List UInt32) ↔ 1 ≤ id.toNat ∧ id.toNat ≤ [1, 2, 3].length := by
  rw [mem_cons, mem_cons, mem_singleton]
  simp only [← UInt32.toNat_inj]
  show id.toNat = 1 ∨ id.toNat = 2 ∨ id.toNat = 3 ↔ 1 ≤ id.toNat ∧ id.toNat ≤ 3
  omega

/-- Three nodes in a line. -/
def line : Topology where
  nodes := [1, 2, 3]
  links := [⟨1, 2, 10, 0⟩, ⟨2, 3, 20, 0⟩]
  myId := 1
  few := by decide
  ids := three_ids
  ends := by decide
  mine := by decide

/-- The costs of the link to the third node and of the one back are more than 2^32 with
that of the link to the second. -/
def steep : Topology where
  nodes := [1, 2, 3]
  links := [⟨1, 2, 10, 0⟩, ⟨2, 3, 4294967190, 0⟩, ⟨3, 2, 100, 0⟩]
  myId := 1
  few := by decide
  ids := three_ids
  ends := by decide
  mine := by decide

theorem linkState_correct_iff_line : line.PathSumsBelow ∧ (line.Correct ↔ line.NoWrapAround) := by
  have hsums : line.PathSumsBelow :=
    pathSumsBelow_of_bound (fun _ => 20) (by decide) (by decide)
  exact ⟨hsums, linkState_correct_iff hsums⟩

/-- The distance of the second node wraps around to 4, and the second and the third node
become parents of each other. -/
theorem not_linkState_correct : steep.PathSumsBelow ∧ ¬ steep.Correct := by
  constructor
  · exact pathSumsBelow_of_bound (fun id => if id = 3 then 4294967190 else if id = 2 then 100 else 0)
      (by decide) (by decide)
  · intro hcorrect
    have hreach : ∃ l, IsPath steep.aliveArcs steep.myId l 2 := by
      refine ⟨[⟨1, 2, 10⟩], ⟨rfl, rfl⟩, ?_, by decide⟩
      intro a ha
      rw [mem_singleton.mp ha]
      exact ⟨⟨1, 2, 10, 0⟩, mem_cons_self, by decide, rfl⟩
    rcases (hcorrect (fun _ => none) 2 (by decide)).first (by decide) hreach with ⟨e, l, -, -, hhop⟩
    have hnone : steep.forwarding (fun _ => none) 2 = none := by decide
    rw [hnone] at hhop
    cases hhop

end PittCs.Overlay.Topology
