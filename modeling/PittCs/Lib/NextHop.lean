import Mathlib.Combinatorics.SimpleGraph.Paths
import Mathlib.Data.Nat.ModEq

/-!
# Next hops and distances of a weighted graph

Every vertex holds a distance to one target and a next hop towards it, and the
distances are computed modulo `M`. When each vertex agrees with its neighbours, the
next hops cannot run in a circle: the weights around it would add up to a multiple of
`M`. So they lead to the target, and the distances are those of the shortest walks.

A vertex does not take part in the comparison of the neighbour it forwards to; this is
what remains of the agreement under poisoned reverse.
-/

namespace PittCs.Lib

open SimpleGraph List Option

universe u

variable {V : Type u} {G : SimpleGraph V} (w : V → V → ℕ)

/-- The sum of the weights along a walk. -/
def walkCost {u v : V} : G.Walk u v → ℕ
  | .nil => 0
  | .cons (v := x) _ p => w u x + walkCost p

@[simp]
theorem walkCost_nil (u : V) : walkCost w (.nil : G.Walk u u) = 0 := rfl

@[simp]
theorem walkCost_cons {u x v : V} (h : G.Adj u x) (p : G.Walk x v) :
    walkCost w (.cons h p) = w u x + walkCost w p := rfl

/-- A walk costs the same in a larger graph. -/
@[simp]
theorem walkCost_mapLe {G' : SimpleGraph V} (hle : G ≤ G') {u v : V} (p : G.Walk u v) :
    walkCost w (p.mapLe hle) = walkCost w p := by
  induction p with
  | nil => rfl
  | cons h p ih =>
    show w _ _ + walkCost w (p.mapLe hle) = w _ _ + walkCost w p
    rw [ih]
    rfl

/-- Bounded weights bound the cost by the length. -/
theorem walkCost_le_length {c : ℕ} (hc : ∀ u v, G.Adj u v → w u v ≤ c) {u v : V}
    (p : G.Walk u v) : walkCost w p ≤ p.length * c := by
  induction p with
  | nil => simp
  | cons h p ih =>
    have hw := hc _ _ h
    rw [walkCost_cons, Walk.length_cons, Nat.succ_mul]
    omega

/-- The distances `dist` and next hops `next` towards `j` agree between neighbours. The
value `inf` stands for no path. -/
structure NextHops (G : SimpleGraph V) (w : V → V → ℕ) (M inf : ℕ) (j : V) (dist : V → ℕ)
    (next : V → Option V) : Prop where
  dist_target : dist j = 0
  next_target : next j = some j
  forward : ∀ v, v ≠ j → dist v ≠ inf → ∃ u, next v = some u ∧ G.Adj v u ∧ next u ≠ some v ∧
    dist u ≠ inf ∧ dist v = (dist u + w v u) % M
  best : ∀ v u, G.Adj v u → dist u ≠ inf → next u ≠ some v →
    dist v ≠ inf ∧ dist v ≤ (dist u + w v u) % M

/-- The walk takes the next hop at every vertex. -/
def Follows (next : V → Option V) {u v : V} (p : G.Walk u v) : Prop :=
  ∀ d ∈ p.darts, next d.fst = some d.snd

theorem follows_cons {next : V → Option V} {u x v : V} {h : G.Adj u x} {p : G.Walk x v} :
    Follows next (.cons h p) ↔ next u = some x ∧ Follows next p := by
  simp [Follows]

/-- The last vertex of a path is left by none of its edges. -/
theorem fst_ne_of_isPath {u v : V} {p : G.Walk u v} (hp : p.IsPath) {d : G.Dart}
    (hd : d ∈ p.darts) : d.fst ≠ v := by
  intro heq
  have hnodup := (Walk.isPath_def p).mp hp
  rw [← Walk.map_fst_darts_append, nodup_append] at hnodup
  exact hnodup.2.2 d.fst (mem_map_of_mem hd) v (by simp) heq

/-- The first vertex of a path is entered by none of its edges. -/
theorem snd_ne_of_isPath {u v : V} {p : G.Walk u v} (hp : p.IsPath) {d : G.Dart}
    (hd : d ∈ p.darts) : d.snd ≠ u := by
  intro heq
  have hnodup := (Walk.isPath_def p).mp hp
  rw [← Walk.cons_map_snd_darts, nodup_cons] at hnodup
  exact hnodup.1 (mem_map.mpr ⟨d, hd, heq⟩)

/-- An edge of a walk is one of its darts, in one direction or the other. -/
theorem exists_dart_of_mem_edges {u v a b : V} {p : G.Walk u v} (h : s(a, b) ∈ p.edges) :
    ∃ d ∈ p.darts, (d.fst = a ∧ d.snd = b) ∨ (d.fst = b ∧ d.snd = a) := by
  obtain ⟨d, hd, heq⟩ := mem_map.mp h
  refine ⟨d, hd, ?_⟩
  have heq' : s(d.fst, d.snd) = s(a, b) := heq
  simpa only [Sym2.eq_iff] using heq'

namespace NextHops

variable {w} {M inf : ℕ} {j : V} {dist : V → ℕ} {next : V → Option V}

/-- A vertex that forwards to another one is not the target. -/
theorem ne_target (h : NextHops G w M inf j dist next) {v u : V} (hadj : G.Adj v u)
    (hnext : next v = some u) : v ≠ j := by
  rintro rfl
  rw [h.next_target] at hnext
  exact hadj.ne (some.inj hnext)

/-- Along next hops the distance falls by the cost, up to a multiple of `M`. -/
theorem modEq_of_follows (h : NextHops G w M inf j dist next) {u v : V} (p : G.Walk u v)
    (hp : Follows next p) (hu : dist u ≠ inf) :
    dist v ≠ inf ∧ dist u ≡ dist v + walkCost w p [MOD M] := by
  induction p with
  | nil => exact ⟨hu, rfl⟩
  | @cons u x v hadj p ih =>
    obtain ⟨hnext, hp⟩ := follows_cons.mp hp
    obtain ⟨x', hx', -, -, hx, hd⟩ := h.forward u (h.ne_target hadj hnext) hu
    obtain rfl : x' = x := some.inj (hx'.symm.trans hnext)
    obtain ⟨hv, hmod⟩ := ih hp hx
    refine ⟨hv, ?_⟩
    calc dist u ≡ dist x' + w u x' [MOD M] := by rw [hd]; exact Nat.mod_modEq _ _
      _ ≡ dist v + walkCost w p + w u x' [MOD M] := hmod.add_right _
      _ = dist v + walkCost w (.cons hadj p) := by rw [walkCost_cons]; omega

/-- The next hops do not lead back to a vertex already passed. -/
theorem notMem_support (h : NextHops G w M inf j dist next)
    (hpos : ∀ u v, G.Adj u v → 0 < w u v)
    (hsum : ∀ u v (p : G.Walk u v), p.IsTrail → walkCost w p < M)
    {v x u : V} {p : G.Walk v x} (hpath : p.IsPath) (hp : Follows next p) (hv : dist v ≠ inf)
    (hadj : G.Adj x u) (hnext : next x = some u) : u ∉ p.support := by
  classical
  intro hu
  -- the circle is the part of `p` from `u` on, closed by the step from `x`
  have hq : (p.dropUntil u hu).IsPath := hpath.dropUntil hu
  have hfollow : Follows next (p.dropUntil u hu) := fun d hd =>
    hp d (p.darts_dropUntil_subset_darts hu hd)
  have hx := (h.modEq_of_follows p hp hv).1
  obtain ⟨u', hu', -, hback, hdu, hd⟩ := h.forward x (h.ne_target hadj hnext) hx
  obtain rfl : u' = u := some.inj (hu'.symm.trans hnext)
  have htrail : (Walk.cons hadj (p.dropUntil u' hu)).IsTrail := by
    rw [Walk.isTrail_cons]
    refine ⟨hq.isTrail, fun hmem => ?_⟩
    obtain ⟨d, hd, ⟨hfst, -⟩ | ⟨hfst, hsnd⟩⟩ := exists_dart_of_mem_edges hmem
    · exact fst_ne_of_isPath hq hd hfst
    · have hloop := hfollow d hd
      rw [hfst, hsnd] at hloop
      exact hback hloop
  have hlt := hsum _ _ _ htrail
  have hgt := hpos x u' hadj
  have hmod := (h.modEq_of_follows _ hfollow hdu).2
  -- once around, the distance at `x` is itself plus the weights of the circle
  have hcircle : dist x + 0 ≡ dist x + walkCost w (Walk.cons hadj (p.dropUntil u' hu)) [MOD M] :=
    calc dist x + 0 ≡ dist u' + w x u' [MOD M] := by rw [hd]; exact Nat.mod_modEq _ _
      _ ≡ dist x + walkCost w (p.dropUntil u' hu) + w x u' [MOD M] := hmod.add_right _
      _ = dist x + walkCost w (Walk.cons hadj (p.dropUntil u' hu)) := by
        rw [walkCost_cons]; omega
  have hdvd := (Nat.modEq_zero_iff_dvd).mp (Nat.ModEq.add_left_cancel' _ hcircle).symm
  have hle := Nat.le_of_dvd (by rw [walkCost_cons]; omega) hdvd
  omega

/-- Every distance is below the modulus. -/
theorem dist_lt (h : NextHops G w M inf j dist next) (hM : 0 < M) {v : V} (hv : dist v ≠ inf) :
    dist v < M := by
  rcases eq_or_ne v j with rfl | hvj
  · rw [h.dist_target]
    exact hM
  · obtain ⟨u, -, -, -, -, hd⟩ := h.forward v hvj hv
    rw [hd]
    exact Nat.mod_lt _ hM

/-- The distance is the cost of every path of next hops to the target. -/
theorem dist_eq_walkCost (h : NextHops G w M inf j dist next)
    (hsum : ∀ u v (p : G.Walk u v), p.IsTrail → walkCost w p < M) {v : V} (hv : dist v ≠ inf)
    {p : G.Walk v j} (hpath : p.IsPath) (hp : Follows next p) : dist v = walkCost w p := by
  have hlt := hsum _ _ p hpath.isTrail
  have hmod := (h.modEq_of_follows p hp hv).2
  rw [h.dist_target, Nat.zero_add] at hmod
  exact hmod.eq_of_lt_of_lt (h.dist_lt (by omega) hv) hlt

variable [Fintype V]

/-- The next hops lead from every vertex that has a distance to the target. -/
theorem exists_path (h : NextHops G w M inf j dist next) (hpos : ∀ u v, G.Adj u v → 0 < w u v)
    (hsum : ∀ u v (p : G.Walk u v), p.IsTrail → walkCost w p < M) {v : V} (hv : dist v ≠ inf) :
    ∃ p : G.Walk v j, p.IsPath ∧ Follows next p := by
  -- a path of next hops grows until it meets the target; it has fewer edges than vertices
  have grow : ∀ (k : ℕ) (x : V) (p : G.Walk v x), p.IsPath → Follows next p →
      Fintype.card V - p.length ≤ k → ∃ p : G.Walk v j, p.IsPath ∧ Follows next p := by
    intro k
    induction k with
    | zero =>
      intro x p hpath _ hk
      have := hpath.length_lt
      omega
    | succ k ih =>
      intro x p hpath hp hk
      rcases eq_or_ne x j with rfl | hxj
      · exact ⟨p, hpath, hp⟩
      have hx := (h.modEq_of_follows p hp hv).1
      obtain ⟨u, hnext, hadj, -⟩ := h.forward x hxj hx
      have hfresh := h.notMem_support hpos hsum hpath hp hv hadj hnext
      refine ih u (p.concat hadj) (hpath.concat hfresh hadj) ?_ ?_
      · intro d hd
        rw [Walk.darts_concat, concat_eq_append, mem_append, mem_singleton] at hd
        rcases hd with hd | rfl
        · exact hp d hd
        · exact hnext
      · rw [Walk.length_concat]
        omega
  exact grow _ v .nil (by simp) (by simp [Follows]) le_rfl

/-- A neighbour of a vertex with a distance has one, at most one edge longer. -/
theorem dist_le_of_adj (h : NextHops G w M inf j dist next)
    (hpos : ∀ u v, G.Adj u v → 0 < w u v)
    (hsum : ∀ u v (p : G.Walk u v), p.IsTrail → walkCost w p < M) {v u : V}
    (hadj : G.Adj v u) (hu : dist u ≠ inf) : dist v ≠ inf ∧ dist v ≤ w v u + dist u := by
  obtain ⟨p, hpath, hp⟩ := h.exists_path hpos hsum hu
  have hdu := h.dist_eq_walkCost hsum hu hpath hp
  by_cases hnext : next u = some v
  · -- `u` forwards to `v`, so `v` is the nearer one
    cases p with
    | nil => exact absurd rfl (h.ne_target hadj.symm hnext)
    | @cons _ x _ hux q =>
      obtain ⟨hx, hq⟩ := follows_cons.mp hp
      obtain rfl : v = x := some.inj (hnext.symm.trans hx)
      have hqpath : q.IsPath := ((Walk.cons_isPath_iff hux q).mp hpath).1
      have hv := (h.modEq_of_follows (.cons hux .nil : G.Walk u v)
        (follows_cons.mpr ⟨hnext, by simp [Follows]⟩) hu).1
      have hdv := h.dist_eq_walkCost hsum hv hqpath hq
      rw [walkCost_cons] at hdu
      exact ⟨hv, by omega⟩
  · -- the edge in front of the path of `u` is not on it, so the sum is that of a trail
    have htrail : (Walk.cons hadj p).IsTrail := by
      rw [Walk.isTrail_cons]
      refine ⟨hpath.isTrail, fun hmem => ?_⟩
      obtain ⟨d, hd, ⟨-, hsnd⟩ | ⟨hfst, hsnd⟩⟩ := exists_dart_of_mem_edges hmem
      · exact snd_ne_of_isPath hpath hd hsnd
      · have hloop := hp d hd
        rw [hfst, hsnd] at hloop
        exact hnext hloop
    have hlt := hsum _ _ _ htrail
    rw [walkCost_cons, ← hdu] at hlt
    obtain ⟨hv, hbest⟩ := h.best v u hadj hu hnext
    rw [Nat.mod_eq_of_lt (by omega)] at hbest
    exact ⟨hv, by omega⟩

/-- Along a walk to the target every vertex has a distance, at most the cost of the
rest of the walk. -/
theorem dist_le_walkCost (h : NextHops G w M inf j dist next)
    (hpos : ∀ u v, G.Adj u v → 0 < w u v) (hinf : 0 < inf)
    (hsum : ∀ u v (p : G.Walk u v), p.IsTrail → walkCost w p < M) {v : V} (p : G.Walk v j) :
    dist v ≠ inf ∧ dist v ≤ walkCost w p := by
  induction p with
  | nil =>
    rw [h.dist_target]
    exact ⟨hinf.ne, Nat.zero_le _⟩
  | cons hadj p ih =>
    obtain ⟨hx, hle⟩ := ih h
    obtain ⟨hv, hle'⟩ := h.dist_le_of_adj hpos hsum hadj hx
    exact ⟨hv, by rw [walkCost_cons]; omega⟩

end NextHops

end PittCs.Lib
