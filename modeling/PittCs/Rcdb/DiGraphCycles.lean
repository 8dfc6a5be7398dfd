import PittCs.Rcdb.DiGraphNodes

/-!
# The cycle search is exact

With all node ids in `0 .. numV - 1` the search returns, and it reports a cycle
when there is one. While it runs, `inStack` marks the path from the root to the
node in hand: an edge back into that path closes a cycle, and a call that finds
none leaves the marks as they were.
-/

namespace PittCs.Rcdb

open Std PittCs.Lib List

/-! ## One more edge -/

section OneMoreEdge

variable {α : Type} {r r' : α → α → Prop} {a b : α}

/-- A path over one more edge does without it, or leads to its source and on from
its target. -/
theorem transGen_one_more (hr : ∀ x y, r' x y → r x y ∨ x = a ∧ y = b) {x y : α}
    (h : Relation.TransGen r' x y) :
    Relation.TransGen r x y ∨ Relation.ReflTransGen r x a ∧ Relation.ReflTransGen r b y := by
  induction h with
  | single hstep =>
    rcases hr _ _ hstep with hold | ⟨rfl, rfl⟩
    · exact .inl (.single hold)
    · exact .inr ⟨.refl, .refl⟩
  | tail _ hstep ih =>
    rcases hr _ _ hstep with hold | ⟨rfl, rfl⟩
    · rcases ih with hpath | ⟨hto, hfrom⟩
      · exact .inl (hpath.tail hold)
      · exact .inr ⟨hto, hfrom.tail hold⟩
    · rcases ih with hpath | ⟨hto, -⟩
      · exact .inr ⟨hpath.to_reflTransGen, .refl⟩
      · exact .inr ⟨hto, .refl⟩

end OneMoreEdge

namespace DiGraph

/-! ## The search returns -/

/-- Every id is an index into the vectors of the search. -/
def InRange (g : DiGraph) : Prop := ∀ v ∈ g.adj.keys, 0 ≤ v ∧ v < g.numV

instance (g : DiGraph) : Decidable g.InRange :=
  inferInstanceAs (Decidable (∀ v ∈ g.adj.keys, _))

/-- What an index out of range leads to. -/
def outOfVectors : Err := .undefinedBehaviour "index out of the vectors of hasCycles"

/-- The computation returns with `Q`, unless it meets an id that is no index. -/
def Checked {α : Type} (g : DiGraph) (x : Except Err α) (Q : α → Prop) : Prop :=
  Returns x Q ∨ ¬ g.InRange ∧ x = .error outOfVectors

theorem mem_keys_iff {g : DiGraph} {v : Int} : v ∈ g.adj.keys ↔ g.hasNode v = true := by
  rw [TreeMap.mem_keys, hasNode_iff]

section CheckedRules

variable {α β : Type} {g : DiGraph} {x : Except Err α} {f : α → Except Err β} {P : α → Prop}
  {Q : β → Prop} {v : Int}

theorem checked_ok {b : β} (h : Q b) : g.Checked (.ok b) Q := .inl (returns_ok h)

theorem Checked.bind (hx : g.Checked x P) (hf : ∀ a, P a → g.Checked (f a) Q) :
    g.Checked (x >>= f) Q := by
  rcases hx with ⟨a, rfl, ha⟩ | ⟨hrange, rfl⟩
  · exact hf a ha
  · exact .inr ⟨hrange, rfl⟩

theorem Checked.mono {P' : α → Prop} (hx : g.Checked x P) (h : ∀ a, P a → P' a) :
    g.Checked x P' :=
  hx.imp_left fun hx => hx.mono h

theorem checkIndex_checked (hv : g.hasNode v = true) :
    g.Checked (g.checkIndex v) fun _ => 0 ≤ v ∧ v < g.numV := by
  unfold checkIndex
  split
  case isTrue h => exact checked_ok h
  case isFalse h =>
    refine .inr ⟨?_, rfl⟩
    intro hrange
    exact h (hrange v (mem_keys_iff.mpr hv))

end CheckedRules

/-- How many nodes the search has still to visit. -/
def unvisited (g : DiGraph) (m : Marks) : Nat := g.adj.keys.countP fun v => !m.visited v

/-- The marks a search leaves that finds no cycle. -/
structure Back (m m' : Marks) : Prop where
  inStack : m'.inStack = m.inStack
  visited : ∀ v, m.visited v = true → m'.visited v = true

/-- The stack holds visited nodes from which `v` can be reached. -/
def Path (g : DiGraph) (m : Marks) (v : Int) : Prop :=
  ∀ u, m.inStack u = true → m.visited u = true ∧ Relation.ReflTransGen g.Edge u v

/-- What a search that started with the marks `m` reports. -/
def Reports (g : DiGraph) (m : Marks) (r : Bool × Marks) : Prop :=
  (r.1 = true → ∃ a, Relation.TransGen g.Edge a a) ∧ (r.1 = false → Back m r.2)

/-- A search that returns when at most `n` nodes are unvisited. -/
def Finds (g : DiGraph) (n : Nat) (dfs : Int → Marks → Except Err (Bool × Marks)) : Prop :=
  ∀ v m, g.hasNode v = true → m.visited v = false → g.Path m v → g.unvisited m ≤ n →
    g.Checked (dfs v m) (g.Reports m)

theorem Back.trans {m₁ m₂ m₃ : Marks} (h : Back m₁ m₂) (h' : Back m₂ m₃) : Back m₁ m₃ :=
  ⟨h'.inStack.trans h.inStack, fun v hv => h'.visited v (h.visited v hv)⟩

theorem Back.unvisited_le {m m' : Marks} (h : Back m m') (g : DiGraph) :
    g.unvisited m' ≤ g.unvisited m := by
  apply countP_mono_left
  intro v _ hv
  cases hm : m.visited v with
  | false => rfl
  | true =>
    rw [h.visited v hm] at hv
    cases hv

theorem Path.not_inStack {g : DiGraph} {m : Marks} {u v : Int} (h : g.Path m u)
    (hv : m.visited v = false) : m.inStack v = false := by
  rw [← Bool.not_eq_true]
  intro hin
  rw [(h v hin).1] at hv
  cases hv

/-- A visited node is one less to visit. -/
theorem unvisited_lt {g : DiGraph} {m m' : Marks} {v : Int} (hnode : g.hasNode v = true)
    (hv : m.visited v = false) (hm' : m'.visited = fun u => if u = v then true else m.visited u) :
    g.unvisited m' < g.unvisited m := by
  have hmem : v ∈ g.adj.keys := mem_keys_iff.mpr hnode
  have hother : ∀ u, u ≠ v → m'.visited u = m.visited u := by
    intro u hu
    rw [hm']
    exact if_neg hu
  have hself : m'.visited v = true := by
    rw [hm']
    exact if_pos rfl
  unfold unvisited
  apply countP_lt_of_done ?_ hmem
  · rw [hv, Bool.not_false]
  · rw [hself, Bool.not_true]
  · intro u _ hu
    by_cases huv : u = v
    · rw [huv, hself, Bool.not_true] at hu
      exact absurd hu Bool.false_ne_true
    · rwa [hother u huv] at hu

theorem dfsEdges_checked {g : DiGraph} (hg : g.WellFormed) {n : Nat}
    {dfs : Int → Marks → Except Err (Bool × Marks)} (hdfs : g.Finds n dfs) {v : Int}
    {l : List Int} {m : Marks} (hl : ∀ w ∈ l, g.Edge v w) (hpath : g.Path m v)
    (hn : g.unvisited m ≤ n) : g.Checked (g.dfsEdges dfs l m) (g.Reports m) := by
  induction l generalizing m with
  | nil => exact checked_ok ⟨by simp, fun _ => ⟨rfl, fun _ hv => hv⟩⟩
  | cons w rest ih =>
    have hedge : g.Edge v w := hl w (mem_cons_self ..)
    have hnode : g.hasNode w = true := hg.target v w hedge
    have hrest : ∀ x ∈ rest, g.Edge v x := fun x hx => hl x (mem_cons_of_mem _ hx)
    unfold dfsEdges
    refine (checkIndex_checked hnode).bind fun _ _ => ?_
    cases hw : m.visited w with
    | true =>
      cases hs : m.inStack w with
      | true =>
        -- an edge back into the path
        have hcycle : Relation.TransGen g.Edge w w :=
          Relation.TransGen.tail' (hpath w hs).2 hedge
        exact checked_ok ⟨fun _ => ⟨w, hcycle⟩, by simp⟩
      | false => exact ih hrest hpath hn
    | false =>
      have hpathw : g.Path m w := fun u hu => ⟨(hpath u hu).1, (hpath u hu).2.tail hedge⟩
      refine (hdfs w m hnode hw hpathw hn).bind ?_
      rintro ⟨found, m₁⟩ hreports
      cases found with
      | true => exact checked_ok ⟨hreports.1, by simp⟩
      | false =>
        have hback : Back m m₁ := hreports.2 rfl
        have hs : m₁.inStack w = false := by
          rw [hback.inStack]
          exact hpath.not_inStack hw
        have hpath₁ : g.Path m₁ v := by
          intro u hu
          rw [hback.inStack] at hu
          exact ⟨hback.visited u (hpath u hu).1, (hpath u hu).2⟩
        simp only [hs]
        refine (ih hrest hpath₁ ((hback.unvisited_le g).trans hn)).mono ?_
        intro r hr
        exact ⟨hr.1, fun hfalse => hback.trans (hr.2 hfalse)⟩

theorem dfsForCycle_checked {g : DiGraph} (hg : g.WellFormed) (n : Nat) :
    g.Finds n (g.dfsForCycle n) := by
  induction n with
  | zero =>
    intro v m hnode hv _ hn
    -- `v` is unvisited
    have hlt : 0 < g.unvisited m :=
      countP_pos_iff.mpr ⟨v, mem_keys_iff.mpr hnode, by simp [hv]⟩
    omega
  | succ n ih =>
    intro v m hnode hv hpath hn
    have hstack : m.inStack v = false := hpath.not_inStack hv
    unfold dfsForCycle
    refine (checkIndex_checked hnode).bind fun _ _ => ?_
    rw [hv]
    let marked : Marks := ⟨fun u => if u = v then true else m.visited u,
      fun u => if u = v then true else m.inStack u⟩
    have hpathv : g.Path marked v := by
      intro u hu
      by_cases huv : u = v
      · subst huv
        exact ⟨by simp [marked], .refl⟩
      · have hin : m.inStack u = true := by simpa [marked, huv] using hu
        exact ⟨by simpa [marked, huv] using (hpath u hin).1, (hpath u hin).2⟩
    have hlt : g.unvisited marked < g.unvisited m := unvisited_lt hnode hv rfl
    have hedges : g.Checked (g.dfsEdges (g.dfsForCycle n) (g.neighbours v) marked)
        (g.Reports marked) :=
      dfsEdges_checked hg ih (fun _ hw => hw) hpathv (by omega)
    refine hedges.bind ?_
    rintro ⟨found, m₁⟩ hreports
    cases found with
    | true => exact checked_ok ⟨hreports.1, by simp⟩
    | false =>
      have hback : Back marked m₁ := hreports.2 rfl
      refine checked_ok ⟨by simp, fun _ => ⟨?_, ?_⟩⟩
      · funext u
        by_cases huv : u = v
        · rw [huv, hstack]
          simp
        · simp [huv, hback.inStack, marked]
      · intro u hu
        apply hback.visited
        by_cases huv : u = v
        · simp [marked, huv]
        · simpa [marked, huv] using hu

/-- A search that finds nothing has met every node. -/
theorem hasCyclesLoop_checked {g : DiGraph} (hg : g.WellFormed) {l : List Int} {m : Marks}
    (hl : ∀ v ∈ l, g.hasNode v = true) (hempty : m.inStack = fun _ => false) :
    g.Checked (g.hasCyclesLoop l m) fun found =>
      (found = true → ∃ a, Relation.TransGen g.Edge a a) ∧
        (found = false → ∀ v ∈ l, 0 ≤ v ∧ v < g.numV) := by
  induction l generalizing m with
  | nil => exact checked_ok (by simp)
  | cons v rest ih =>
    have hnode : g.hasNode v = true := hl v (mem_cons_self ..)
    have hrest : ∀ w ∈ rest, g.hasNode w = true := fun w hw => hl w (mem_cons_of_mem _ hw)
    unfold hasCyclesLoop
    refine (checkIndex_checked hnode).bind fun _ hindex => ?_
    have hcons : ∀ {found : Bool}, (found = true → ∃ a, Relation.TransGen g.Edge a a) ∧
        (found = false → ∀ w ∈ rest, 0 ≤ w ∧ w < g.numV) →
        (found = true → ∃ a, Relation.TransGen g.Edge a a) ∧
          (found = false → ∀ w ∈ v :: rest, 0 ≤ w ∧ w < g.numV) := by
      rintro found ⟨hcycle, hrange⟩
      refine ⟨hcycle, fun hfalse w hw => ?_⟩
      rcases mem_cons.mp hw with rfl | hw
      · exact hindex
      · exact hrange hfalse w hw
    cases hv : m.visited v with
    | true => exact (ih hrest hempty).mono fun _ => hcons
    | false =>
      have hpath : g.Path m v := by
        intro u hu
        rw [hempty] at hu
        cases hu
      have hfuel : g.unvisited m ≤ g.adj.size + 1 := by
        have hle : g.unvisited m ≤ g.adj.keys.length := countP_le_length
        rw [TreeMap.length_keys] at hle
        omega
      refine (dfsForCycle_checked hg _ v m hnode hv hpath hfuel).bind ?_
      rintro ⟨found, m₁⟩ hreports
      cases found with
      | true => exact checked_ok ⟨hreports.1, by simp⟩
      | false =>
        have hempty₁ : m₁.inStack = fun _ => false :=
          (hreports.2 rfl).inStack.trans hempty
        exact (ih hrest hempty₁).mono fun _ => hcons

theorem hasCycles_checked {g : DiGraph} (hg : g.WellFormed) :
    g.Checked g.hasCycles fun found =>
      (found = true → ∃ a, Relation.TransGen g.Edge a a) ∧ (found = false → g.InRange) :=
  hasCyclesLoop_checked hg (fun _ hv => mem_keys_iff.mp hv) rfl

/-- The search returns, and reports exactly the cycles. -/
theorem hasCycles_iff {g : DiGraph} (hg : g.WellFormed) (hrange : g.InRange) :
    ∃ found, g.hasCycles = .ok found ∧
      (found = true ↔ ∃ a, Relation.TransGen g.Edge a a) := by
  rcases hasCycles_checked hg with ⟨found, hrun, hcycle, -⟩ | ⟨hnot, -⟩
  · refine ⟨found, hrun, hcycle, ?_⟩
    rintro ⟨a, ha⟩
    cases found with
    | true => rfl
    | false => exact absurd ha (acyclic_of_hasCycles hrun a)
  · exact absurd hrange hnot

/-- Where there is no cycle, the search leaves its vectors when some id is no index. -/
theorem hasCycles_of_not_inRange {g : DiGraph} (hg : g.WellFormed) (hacyclic : g.Acyclic)
    (hrange : ¬ g.InRange) : g.hasCycles = .error outOfVectors := by
  rcases hasCycles_checked hg with ⟨found, -, hcycle, hfalse⟩ | ⟨-, hrun⟩
  · cases found with
    | true =>
      rcases hcycle rfl with ⟨a, ha⟩
      exact absurd ha (hacyclic a)
    | false => exact absurd (hfalse rfl) hrange
  · exact hrun

/-! ## The detector -/

theorem addEdge_returns {g : DiGraph} {a b : Int} (ha : g.hasNode a = true)
    (hb : g.hasNode b = true) : ∃ g', g.addEdge a b = .ok g' ∧ g'.numV = g.numV ∧
      ∀ v, g'.hasNode v = g.hasNode v := by
  unfold addEdge
  by_cases hmem : b ∈ g.neighbours a
  · exact ⟨g, by simp [ha, hb, hmem, Pure.pure, Except.pure], rfl, fun _ => rfl⟩
  · refine ⟨{ g with adj := g.adj.insert a (g.neighbours a ++ [b]) }, ?_, rfl, ?_⟩
    · simp [ha, hb, hmem, Pure.pure, Except.pure]
    · intro v
      exact hasNode_insert _ ha

theorem removeEdge_returns {g : DiGraph} {a b : Int} (ha : g.hasNode a = true)
    (hb : g.hasNode b = true) (hedge : g.Edge a b) : ∃ g', g.removeEdge a b = .ok g' := by
  have hmem : b ∈ g.neighbours a := hedge
  unfold removeEdge
  refine ⟨{ g with adj := g.adj.insert a ((g.neighbours a).erase b) }, ?_⟩
  simp [ha, hb, hmem, Pure.pure, Except.pure]

theorem InRange.of_nodes {g g' : DiGraph} (h : g.InRange) (hnum : g'.numV = g.numV)
    (hnodes : ∀ v, g'.hasNode v = g.hasNode v) : g'.InRange := by
  intro v hv
  rw [hnum]
  apply h v
  rw [mem_keys_iff, ← hnodes v]
  exact mem_keys_iff.mp hv

theorem Edge.addNode_iff {g : DiGraph} {v a b : Int} : (g.addNode v).Edge a b ↔ g.Edge a b := by
  unfold Edge
  rw [neighbours_addNode]

theorem edge_addEdge_iff {g g' : DiGraph} {a b : Int} (h : g.addEdge a b = .ok g') (x y : Int) :
    g'.Edge x y ↔ g.Edge x y ∨ x = a ∧ y = b := by
  rcases addEdge_spec h with ⟨hothers, hsource⟩
  unfold Edge
  by_cases hx : x = a
  · subst hx
    rw [hsource]
    split
    case isTrue hmem =>
      constructor
      · exact .inl
      · rintro (hy | ⟨-, rfl⟩)
        · exact hy
        · exact hmem
    case isFalse => simp
  · rw [hothers x hx]
    simp [hx]

/-- The outcome of a wait in a graph without a cycle. -/
structure WaitOutcome (g : DiGraph) (a b : Int) (g' : DiGraph) (ok : Bool) : Prop where
  refused : ok = false ↔ Relation.ReflTransGen g.Edge b a
  kept : ok = false → ∀ x y, g'.Edge x y ↔ g.Edge x y
  added : ok = true → ∀ x y, g'.Edge x y ↔ g.Edge x y ∨ x = a ∧ y = b

/-- The graph in which a wait looks for a cycle: a cycle leads through the new edge. -/
theorem waitFor_graph {g : DiGraph} (hg : g.WellFormed) (hacyclic : g.Acyclic) (a b : Int) :
    ∃ g₁, ((g.addNode a).addNode b).addEdge a b = .ok g₁ ∧ g₁.WellFormed ∧
      (g₁.InRange ↔ ((g.addNode a).addNode b).InRange) ∧
      ((∃ x, Relation.TransGen g₁.Edge x x) ↔ Relation.ReflTransGen g.Edge b a) := by
  have ha : ((g.addNode a).addNode b).hasNode a = true :=
    hasNode_addNode.mpr (.inr (hasNode_addNode.mpr (.inl rfl)))
  have hb : ((g.addNode a).addNode b).hasNode b = true := hasNode_addNode.mpr (.inl rfl)
  rcases addEdge_returns ha hb with ⟨g₁, hadd, hnum, hnodes⟩
  have hedges : ∀ x y, g₁.Edge x y ↔ g.Edge x y ∨ x = a ∧ y = b := by
    intro x y
    rw [edge_addEdge_iff hadd, Edge.addNode_iff, Edge.addNode_iff]
  refine ⟨g₁, hadd, ((hg.addNode a).addNode b).addEdge hadd, ?_, ?_⟩
  · constructor
    · intro h
      exact h.of_nodes hnum.symm fun v => (hnodes v).symm
    · intro h
      exact h.of_nodes hnum hnodes
  · constructor
    · rintro ⟨x, hx⟩
      rcases transGen_one_more (fun x y => (hedges x y).mp) hx with hold | ⟨hto, hfrom⟩
      · exact absurd hold (hacyclic x)
      · exact hfrom.trans hto
    · intro hpath
      have hpath₁ : Relation.ReflTransGen g₁.Edge b a :=
        Relation.ReflTransGen.mono (fun x y hxy => (hedges x y).mpr (.inl hxy)) _ _ hpath
      exact ⟨a, Relation.TransGen.head' ((hedges a b).mpr (.inr ⟨rfl, rfl⟩)) hpath₁⟩

/-- Taking a refused edge away again. -/
theorem removeEdge_undoes {g g₁ : DiGraph} {a b : Int} (hnew : ¬ g.Edge a b)
    (hadd : ((g.addNode a).addNode b).addEdge a b = .ok g₁) :
    ∃ g₂, g₁.removeEdge a b = .ok g₂ ∧ ∀ x y, g₂.Edge x y ↔ g.Edge x y := by
  have ha : ((g.addNode a).addNode b).hasNode a = true :=
    hasNode_addNode.mpr (.inr (hasNode_addNode.mpr (.inl rfl)))
  have hb : ((g.addNode a).addNode b).hasNode b = true := hasNode_addNode.mpr (.inl rfl)
  have hnodes : ∀ v, g₁.hasNode v = ((g.addNode a).addNode b).hasNode v := by
    rcases addEdge_returns ha hb with ⟨g', hadd', -, hnodes⟩
    rw [hadd] at hadd'
    cases hadd'
    exact hnodes
  have hedge : g₁.Edge a b := (edge_addEdge_iff hadd a b).mpr (.inr ⟨rfl, rfl⟩)
  rcases removeEdge_returns ((hnodes a).trans ha) ((hnodes b).trans hb) hedge with ⟨g₂, hremove⟩
  refine ⟨g₂, hremove, fun x y => ?_⟩
  rcases addEdge_spec hadd with ⟨hothers, hsource⟩
  rcases removeEdge_spec hremove with ⟨hothers₂, herase⟩
  have hnew : b ∉ g.neighbours a := hnew
  simp only [neighbours_addNode, if_neg hnew] at hothers hsource
  unfold Edge
  by_cases hx : x = a
  · rw [hx, herase, hsource, erase_append_right _ hnew]
    simp
  · rw [hothers₂ x hx, hothers x hx]

/-- A wait is refused when the other transaction already waits for this one. -/
theorem waitFor_outcome {g : DiGraph} (hg : g.WellFormed) (hacyclic : g.Acyclic) {a b : Int}
    (hrange : ((g.addNode a).addNode b).InRange) :
    ∃ g' ok, g.waitFor a b = .ok (g', ok) ∧ g.WaitOutcome a b g' ok := by
  rcases waitFor_graph hg hacyclic a b with ⟨g₁, hadd, hwf, hrange₁, hreach⟩
  rcases hasCycles_iff hwf (hrange₁.mpr hrange) with ⟨found, hsearch, hfound⟩
  rw [hreach] at hfound
  unfold waitFor
  simp only [hadd, Bind.bind, Except.bind, hsearch]
  cases found with
  | false =>
    refine ⟨g₁, true, rfl, ⟨by simpa using hfound, by simp, fun _ x y => ?_⟩⟩
    rw [edge_addEdge_iff hadd, Edge.addNode_iff, Edge.addNode_iff]
  | true =>
    have hpath : Relation.ReflTransGen g.Edge b a := hfound.mp rfl
    have hnew : ¬ g.Edge a b := fun hedge => hacyclic a (Relation.TransGen.head' hedge hpath)
    rcases removeEdge_undoes hnew hadd with ⟨g₂, hremove, hedges⟩
    refine ⟨g₂, false, by simp [hremove, Pure.pure, Except.pure], ?_⟩
    exact ⟨by simpa using hfound, fun _ => hedges, by simp⟩

/-- A wait that closes no cycle looks at every id. -/
theorem waitFor_of_not_inRange {g : DiGraph} (hg : g.WellFormed) (hacyclic : g.Acyclic)
    {a b : Int} (hreach : ¬ Relation.ReflTransGen g.Edge b a)
    (hrange : ¬ ((g.addNode a).addNode b).InRange) :
    g.waitFor a b = .error outOfVectors := by
  rcases waitFor_graph hg hacyclic a b with ⟨g₁, hadd, hwf, hrange₁, hcycle⟩
  have hacyclic₁ : g₁.Acyclic := fun x hx => hreach (hcycle.mp ⟨x, hx⟩)
  have hsearch := hasCycles_of_not_inRange hwf hacyclic₁ (mt hrange₁.mp hrange)
  unfold waitFor
  simp only [hadd, Bind.bind, Except.bind, hsearch]

/-- The calls of `DeadlockDetector`. -/
inductive DetectorOp where
  | addTransaction (t : Int)
  | waitFor (waiting waitingFor : Int)
  | endTransaction (t : Int)

def detect (g : DiGraph) : DetectorOp → Except Err DiGraph
  | .addTransaction t => .ok (g.addNode t)
  | .waitFor a b => (g.waitFor a b).map Prod.fst
  | .endTransaction t => .ok (g.removeNode t)

/-- The graph a detector keeps. -/
def detector : TransitionSystem DiGraph DetectorOp where
  Init g := g = init
  Next g op g' := g.detect op = .ok g'

theorem Reachable.addNode {g : DiGraph} (hg : system.Reachable g) (v : Int) :
    system.Reachable (g.addNode v) :=
  .step hg trivial (show g.run (.addNode v) = .ok (g.addNode v) from rfl)

theorem Reachable.removeNode {g : DiGraph} (hg : system.Reachable g) (v : Int) :
    system.Reachable (g.removeNode v) :=
  .step hg trivial (show g.run (.removeNode v) = .ok (g.removeNode v) from rfl)

theorem waitFor_reachable {g g' : DiGraph} {a b : Int} {ok : Bool} (hg : system.Reachable g)
    (h : g.waitFor a b = .ok (g', ok)) : system.Reachable g' := by
  unfold waitFor at h
  rcases bind_eq_ok.mp h with ⟨g₁, hadd, h⟩
  rcases bind_eq_ok.mp h with ⟨found, -, h⟩
  have hnodes : system.Reachable ((g.addNode a).addNode b) :=
    Reachable.addNode (Reachable.addNode hg a) b
  have hg₁ : system.Reachable g₁ := .step (l := Op.addEdge a b) hnodes trivial hadd
  cases found with
  | false =>
    cases h
    exact hg₁
  | true =>
    rcases bind_eq_ok.mp h with ⟨g₂, hremove, h⟩
    cases h
    exact .step (l := Op.removeEdge a b) hg₁ trivial hremove

/-- The detector's graph is one its operations build, and has no cycle. -/
theorem detector_invariant {g : DiGraph} (h : detector.Reachable g) :
    system.Reachable g ∧ g.Acyclic := by
  refine h.invariant (fun g => system.Reachable g ∧ g.Acyclic) ?_ ?_
  · rintro g rfl
    refine ⟨.init rfl, ?_⟩
    intro a hcycle
    rcases Relation.TransGen.head'_iff.mp hcycle with ⟨b, hedge, -⟩
    have hnode := wellFormed_init.target a b hedge
    simp [init, hasNode] at hnode
  · rintro g op g' ⟨hg, hacyclic⟩ _ hnext
    cases op with
    | addTransaction t =>
      cases hnext
      refine ⟨Reachable.addNode hg t, hacyclic.of_edge ?_⟩
      intro a b hab
      exact Edge.addNode_iff.mp hab
    | waitFor a b =>
      change (g.waitFor a b).map Prod.fst = .ok g' at hnext
      cases hwait : g.waitFor a b with
      | error e =>
        rw [hwait] at hnext
        cases hnext
      | ok r =>
        rw [hwait] at hnext
        cases hnext
        exact ⟨waitFor_reachable hg hwait, (waitFor_spec hwait).1.acyclic hacyclic⟩
    | endTransaction t =>
      cases hnext
      exact ⟨Reachable.removeNode hg t, hacyclic.removeNode t⟩

/-- The search finds exactly the cycles; the detector's graph never has one, and a
wait is refused exactly when it would close one. -/
theorem cycle_detection_exact :
    (∀ g : DiGraph, system.Reachable g → g.InRange →
      ∃ found, g.hasCycles = .ok found ∧ (found = true ↔ ∃ a, Relation.TransGen g.Edge a a)) ∧
    ∀ g : DiGraph, detector.Reachable g → g.Acyclic ∧
      ∀ a b, ((g.addNode a).addNode b).InRange →
        ∃ g' ok, g.waitFor a b = .ok (g', ok) ∧ g.WaitOutcome a b g' ok := by
  constructor
  · intro g hg hrange
    exact hasCycles_iff (wellFormed_of_reachable hg) hrange
  · intro g hg
    rcases detector_invariant hg with ⟨hbuilt, hacyclic⟩
    exact ⟨hacyclic, fun a b hrange =>
      waitFor_outcome (wellFormed_of_reachable hbuilt) hacyclic hrange⟩

/-- Two transactions that would wait for each other. -/
theorem cycle_detection_exact_two :
    ∃ g, detector.Reachable g ∧ ∃ g' ok, g.waitFor 1 0 = .ok (g', ok) ∧ g.WaitOutcome 1 0 g' ok := by
  have hrun : TransitionSystem.runMeets (fun g op => (detect g op).toOption) (fun _ _ => true)
      (fun g => decide ((g.addNode 1).addNode 0).InRange)
      [.addTransaction 0, .addTransaction 1, .waitFor 0 1] init = true := by decide +kernel
  rcases TransitionSystem.exists_of_runMeets (S := detector)
    (fun _ _ _ hnext => ok_of_toOption hnext) (fun _ _ _ => trivial) (.init rfl) hrun with
    ⟨g, hg, hrange⟩
  exact ⟨g, hg, (cycle_detection_exact.2 g hg).2 1 0 (of_decide_eq_true hrange)⟩

end DiGraph

end PittCs.Rcdb
