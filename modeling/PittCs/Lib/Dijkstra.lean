import Mathlib.Algebra.GroupWithZero.Nat
import Mathlib.Data.List.Induction
import Mathlib.Data.List.Nodup
import Mathlib.Data.Set.Insert

/-!
# Least costs by settling one vertex after the other

Walks and paths over directed arcs with costs, and the invariant of Dijkstra's algorithm
for labels that are computed modulo `inf + 1`, where `inf` stands for no path. A path
meets no vertex twice; when all of them cost less than `inf`, only an arc that leads back
to a settled vertex can wrap around. Either no arc does so and the labels are the least
costs, or one does, and from then on a label is too low.
-/

namespace PittCs.Lib

open Function List

universe u

variable {V : Type u}

structure Arc (V : Type u) where
  src : V
  dst : V
  cost : ℕ

/-- The arcs lead one after the other from the first vertex to the last. -/
def IsWalk : V → List (Arc V) → V → Prop
  | u, [], v => u = v
  | u, e :: l, v => e.src = u ∧ IsWalk e.dst l v

def arcsCost (l : List (Arc V)) : ℕ := (l.map Arc.cost).sum

@[simp]
theorem arcsCost_nil : arcsCost ([] : List (Arc V)) = 0 := rfl

@[simp]
theorem arcsCost_cons (e : Arc V) (l : List (Arc V)) : arcsCost (e :: l) = e.cost + arcsCost l :=
  sum_cons

theorem arcsCost_append (l l' : List (Arc V)) : arcsCost (l ++ l') = arcsCost l + arcsCost l' := by
  unfold arcsCost
  rw [map_append, sum_append]

theorem IsWalk.append {u v w : V} {l l' : List (Arc V)} (h : IsWalk u l v) (h' : IsWalk v l' w) :
    IsWalk u (l ++ l') w := by
  induction l generalizing u with
  | nil =>
    obtain rfl : u = v := h
    exact h'
  | cons e l ih => exact ⟨h.1, ih h.2⟩

/-- A vertex of a walk is its last one, or one that it leaves. -/
theorem IsWalk.mem_vertices {u v x : V} {l : List (Arc V)} (h : IsWalk u l v)
    (hx : x ∈ u :: l.map Arc.dst) : x = v ∨ ∃ e ∈ l, e.src = x := by
  induction l generalizing u with
  | nil =>
    left
    obtain rfl : u = v := h
    exact mem_singleton.mp hx
  | cons e l ih =>
    rcases mem_cons.mp hx with rfl | hx
    · exact Or.inr ⟨e, mem_cons_self, h.1⟩
    · rcases ih h.2 hx with hlast | ⟨e', he', hsrc⟩
      · exact Or.inl hlast
      · exact Or.inr ⟨e', mem_cons_of_mem e he', hsrc⟩

/-- A walk over arcs of `A` that meets no vertex twice. -/
structure IsPath (A : Set (Arc V)) (u : V) (l : List (Arc V)) (v : V) : Prop where
  walk : IsWalk u l v
  mem : ∀ e ∈ l, e ∈ A
  nodup : (u :: l.map Arc.dst).Nodup

/-- The least cost of a path from `u` to `v` is `d`. -/
def LeastCost (A : Set (Arc V)) (u v : V) (d : ℕ) : Prop :=
  (∃ l, IsPath A u l v ∧ arcsCost l = d) ∧ ∀ l, IsPath A u l v → d ≤ arcsCost l

theorem LeastCost.unique {A : Set (Arc V)} {u v : V} {d d' : ℕ} (h : LeastCost A u v d)
    (h' : LeastCost A u v d') : d = d' := by
  rcases h with ⟨⟨l, hl, rfl⟩, hmin⟩
  rcases h' with ⟨⟨l', hl', rfl⟩, hmin'⟩
  exact le_antisymm (hmin l' hl') (hmin' l hl)

theorem IsPath.nil (A : Set (Arc V)) (u : V) : IsPath A u [] u where
  walk := rfl
  mem _ h := absurd h not_mem_nil
  nodup := nodup_singleton u

/-- One more arc, to a vertex that was not met. -/
theorem IsPath.concat {A : Set (Arc V)} {u v : V} {l : List (Arc V)} (h : IsPath A u l v)
    {e : Arc V} (he : e ∈ A) (hsrc : e.src = v) (hnew : e.dst ∉ u :: l.map Arc.dst) :
    IsPath A u (l ++ [e]) e.dst where
  walk := h.walk.append ⟨hsrc, rfl⟩
  mem := by
    intro e' he'
    rcases mem_append.mp he' with he' | he'
    · exact h.mem e' he'
    · rw [mem_singleton.mp he']
      exact he
  nodup := by
    rw [map_append, ← cons_append]
    refine nodup_append.mpr ⟨h.nodup, nodup_singleton _, ?_⟩
    rintro x hx y hy rfl
    rw [map_singleton, mem_singleton] at hy
    exact hnew (hy ▸ hx)

/-- A path without its last arc. -/
theorem IsPath.of_concat {A : Set (Arc V)} {u v : V} {l : List (Arc V)} {e : Arc V}
    (h : IsPath A u (l ++ [e]) v) : IsPath A u l e.src ∧ e.dst = v ∧ v ∉ u :: l.map Arc.dst := by
  have hwalk : ∀ (l : List (Arc V)) (u : V), IsWalk u (l ++ [e]) v → IsWalk u l e.src ∧ e.dst = v := by
    intro l
    induction l with
    | nil => exact fun u hl => ⟨hl.1.symm, hl.2⟩
    | cons e' l ih => exact fun u hl => ⟨⟨hl.1, (ih e'.dst hl.2).1⟩, (ih e'.dst hl.2).2⟩
  rcases hwalk l u h.walk with ⟨hinit, hlast⟩
  have hnodup := h.nodup
  rw [map_append, ← cons_append] at hnodup
  rcases nodup_append.mp hnodup with ⟨hnodup, -, hdisjoint⟩
  refine ⟨⟨hinit, fun e' he' => h.mem e' (mem_append_left _ he'), hnodup⟩, hlast, ?_⟩
  intro hmem
  exact hdisjoint v hmem e.dst (mem_singleton_self _) hlast.symm

theorem IsPath.mono {A B : Set (Arc V)} {u v : V} {l : List (Arc V)} (h : IsPath A u l v)
    (hmem : ∀ e ∈ l, e ∈ B) : IsPath B u l v := ⟨h.walk, hmem, h.nodup⟩

/-- A walk of at least one arc ends where one of its arcs leads. -/
theorem IsWalk.last_mem {u v : V} {l : List (Arc V)} (h : IsWalk u l v) (hne : l ≠ []) :
    v ∈ l.map Arc.dst := by
  induction l generalizing u with
  | nil => exact absurd rfl hne
  | cons e l ih =>
    rw [map_cons]
    cases l with
    | nil =>
      obtain rfl : e.dst = v := h.2
      exact mem_cons_self
    | cons e' l => exact mem_cons_of_mem _ (ih h.2 (cons_ne_nil e' l))

theorem cost_le_arcsCost {e : Arc V} {l : List (Arc V)} (h : e ∈ l) : e.cost ≤ arcsCost l := by
  induction l with
  | nil => exact absurd h not_mem_nil
  | cons e' l ih =>
    rw [arcsCost_cons]
    rcases mem_cons.mp h with rfl | h
    · exact Nat.le_add_right _ _
    · have hle := ih h
      omega

/-! ## Labels -/

/-- For each vertex the cost found so far and the vertex before it. -/
structure Labels (V : Type u) where
  dist : V → ℕ
  parent : V → V

section Invariant

variable {A : Set (Arc V)} {s : V} {inf : ℕ} {L : Labels V} {done : Set V}

/-- The label of a vertex that has one is the cost of a path over vertices of `done`, which
is found by going back along the parents. -/
structure Labelled (A : Set (Arc V)) (s : V) (inf : ℕ) (L : Labels V) (done : Set V) : Prop where
  root : L.dist s = 0
  parent : L.parent s = s
  bound : ∀ v, L.dist v ≤ inf
  tree : ∀ v, L.dist v ≠ inf → ∃ l, IsPath A s l v ∧ arcsCost l = L.dist v ∧
    ∀ e ∈ l, e.src ∈ done ∧ L.parent e.dst = e.src

/-- The vertices of `done` are settled: their arcs are taken into account, and their labels
are not above those of the others. -/
structure Settled (A : Set (Arc V)) (s : V) (inf : ℕ) (L : Labels V) (done : Set V) : Prop where
  closed : ∀ e ∈ A, e.src ∈ done → L.dist e.dst ≠ inf ∧ L.dist e.dst ≤ L.dist e.src + e.cost
  order : ∀ u ∈ done, ∀ v ∉ done, L.dist u ≤ L.dist v
  found : ∀ u ∈ done, L.dist u ≠ inf

/-- The vertex `u` is the next to be settled, and its arcs are being relaxed. -/
structure Scanning (A : Set (Arc V)) (s : V) (inf : ℕ) (L : Labels V) (done : Set V) (u : V) :
    Prop where
  labelled : Labelled A s inf L (insert u done)
  settled : Settled A s inf L done
  fresh : u ∉ done
  least : ∀ v ∉ done, L.dist u ≤ L.dist v
  found : L.dist u ≠ inf

/-- The sum of a label and the cost of an arc, modulo `inf + 1`. -/
def Labels.sum (inf : ℕ) (L : Labels V) (e : Arc V) : ℕ := (L.dist e.src + e.cost) % (inf + 1)

/-- An arc does not wrap around to less than the least cost of its end. -/
def NoWrap (A : Set (Arc V)) (s : V) (inf : ℕ) (e : Arc V) : Prop :=
  ∀ d d', LeastCost A s e.src d → LeastCost A s e.dst d' → d' ≤ (d + e.cost) % (inf + 1)

/-- A label is below the least cost of its vertex. -/
def TooLow (A : Set (Arc V)) (s : V) (L : Labels V) : Prop :=
  ∃ v d, LeastCost A s v d ∧ L.dist v < d

namespace Scanning

variable {u : V}

/-- No walk to a settled vertex, or to the next one, is cheaper than its label says. -/
theorem dist_le (h : Scanning A s inf L done u) {x v : V} {l : List (Arc V)} (hl : IsWalk x l v)
    (hA : ∀ e ∈ l, e ∈ A) (hv : v ∈ insert u done) : L.dist v ≤ L.dist x + arcsCost l := by
  induction l generalizing x with
  | nil =>
    obtain rfl : x = v := hl
    exact Nat.le_add_right _ _
  | cons e l ih =>
    by_cases hx : x ∈ done
    · have hrest := ih hl.2 fun e' he' => hA e' (mem_cons_of_mem e he')
      have hedge := (h.settled.closed e (hA e mem_cons_self) (hl.1.symm ▸ hx)).2
      rw [hl.1] at hedge
      rw [arcsCost_cons]
      omega
    · -- the walk starts where no label is lower
      have hle : L.dist v ≤ L.dist x := by
        rcases hv with rfl | hv
        · exact h.least x hx
        · exact h.settled.order v hv x hx
      omega

theorem leastCost (h : Scanning A s inf L done u) {v : V} (hv : v ∈ insert u done) :
    LeastCost A s v (L.dist v) := by
  have hfound : L.dist v ≠ inf := by
    rcases hv with rfl | hv
    · exact h.found
    · exact h.settled.found v hv
  rcases h.labelled.tree v hfound with ⟨l, hl, hcost, -⟩
  refine ⟨⟨l, hl, hcost⟩, ?_⟩
  intro l' hl'
  have hle := h.dist_le hl'.walk hl'.mem hv
  rwa [h.labelled.root, Nat.zero_add] at hle

/-- An arc to a vertex that is not settled makes a path, so that nothing wraps around. -/
theorem exists_path {e : Arc V} (h : Scanning A s inf L done u) (hsums : ∀ l v, IsPath A s l v → arcsCost l < inf)
    (he : e ∈ A) (hsrc : e.src = u) (hdst : e.dst ∉ insert u done) :
    ∃ l, IsPath A s (l ++ [e]) e.dst ∧ arcsCost (l ++ [e]) = L.dist u + e.cost ∧
      L.sum inf e = L.dist u + e.cost ∧ L.dist u + e.cost < inf ∧
      ∀ e' ∈ l, e'.src ∈ insert u done ∧ L.parent e'.dst = e'.src ∧ e'.dst ∈ insert u done := by
  rcases h.labelled.tree u h.found with ⟨l, hl, hcost, htree⟩
  have hinner : ∀ x ∈ s :: l.map Arc.dst, x ∈ insert u done := by
    intro x hx
    rcases hl.walk.mem_vertices hx with rfl | ⟨e', he', rfl⟩
    · exact Set.mem_insert _ _
    · exact (htree e' he').1
  have hpath := hl.concat he hsrc fun hmem => hdst (hinner _ hmem)
  have hsum : arcsCost (l ++ [e]) = L.dist u + e.cost := by
    rw [arcsCost_append, hcost, arcsCost_cons, arcsCost_nil, Nat.add_zero]
  have hlt := hsums _ _ hpath
  rw [hsum] at hlt
  refine ⟨l, hpath, hsum, ?_, hlt, ?_⟩
  · unfold Labels.sum
    rw [hsrc, Nat.mod_eq_of_lt (by omega)]
  · intro e' he'
    rcases htree e' he' with ⟨hdone, hparent⟩
    exact ⟨hdone, hparent, hinner _ (mem_cons_of_mem _ (mem_map_of_mem he'))⟩

/-- The vertex is settled when its arcs are taken into account. -/
theorem finish (h : Scanning A s inf L done u)
    (hall : ∀ e ∈ A, e.src = u → L.dist e.dst ≠ inf ∧ L.dist e.dst ≤ L.dist u + e.cost) :
    Settled A s inf L (insert u done) where
  closed := by
    intro e he hsrc
    rcases hsrc with hu | hdone
    · rw [hu]
      exact hall e he hu
    · exact h.settled.closed e he hdone
  order := by
    intro x hx v hv
    have hv' : v ∉ done := fun hmem => hv (Set.mem_insert_of_mem u hmem)
    rcases hx with rfl | hx
    · exact h.least v hv'
    · exact h.settled.order x hx v hv'
  found := by
    intro x hx
    rcases hx with rfl | hx
    · exact h.found
    · exact h.settled.found x hx

end Scanning

/-! ## Relaxing an arc -/

section Relax

variable [DecidableEq V]

def Labels.set (L : Labels V) (v : V) (d : ℕ) (p : V) : Labels V :=
  ⟨Function.update L.dist v d, Function.update L.parent v p⟩

@[simp]
theorem Labels.dist_set_self (L : Labels V) (v : V) (d : ℕ) (p : V) : (L.set v d p).dist v = d := by
  unfold Labels.set
  exact update_self ..

@[simp]
theorem Labels.parent_set_self (L : Labels V) (v : V) (d : ℕ) (p : V) :
    (L.set v d p).parent v = p := by
  unfold Labels.set
  exact update_self ..

theorem Labels.dist_set_of_ne (L : Labels V) {v x : V} (h : x ≠ v) (d : ℕ) (p : V) :
    (L.set v d p).dist x = L.dist x := by
  unfold Labels.set
  exact update_of_ne h ..

theorem Labels.parent_set_of_ne (L : Labels V) {v x : V} (h : x ≠ v) (d : ℕ) (p : V) :
    (L.set v d p).parent x = L.parent x := by
  unfold Labels.set
  exact update_of_ne h ..

/-- The label of the end of an arc is lowered if the way over the arc is shorter. -/
def Labels.relax (inf : ℕ) (L : Labels V) (e : Arc V) : Labels V :=
  if L.sum inf e < L.dist e.dst then L.set e.dst (L.sum inf e) e.src else L

/-- Labels only get lower. -/
theorem Labels.dist_relax_le (inf : ℕ) (L : Labels V) (e : Arc V) (v : V) :
    (L.relax inf e).dist v ≤ L.dist v := by
  unfold Labels.relax
  split
  case isTrue hlt =>
    by_cases hv : v = e.dst
    · subst hv
      rw [L.dist_set_self]
      exact Nat.le_of_lt hlt
    · rw [L.dist_set_of_ne hv]
  case isFalse => exact Nat.le_refl _

theorem dist_foldl_le (inf : ℕ) (L : Labels V) (es : List (Arc V)) (v : V) :
    (es.foldl (Labels.relax inf) L).dist v ≤ L.dist v := by
  induction es generalizing L with
  | nil => exact Nat.le_refl _
  | cons e es ih => exact (ih (L.relax inf e)).trans (L.dist_relax_le inf e v)

theorem TooLow.foldl (h : TooLow A s L) (es : List (Arc V)) :
    TooLow A s (es.foldl (Labels.relax inf) L) := by
  rcases h with ⟨v, d, hd, hlow⟩
  exact ⟨v, d, hd, lt_of_le_of_lt (dist_foldl_le inf L es v) hlow⟩

namespace Scanning

variable {u : V} {e : Arc V}

/-- Lowering the label of a vertex that is not settled. -/
theorem set (h : Scanning A s inf L done u) {l : List (Arc V)} (hsrc : e.src = u)
    (hdst : e.dst ∉ insert u done) (hpath : IsPath A s (l ++ [e]) e.dst)
    (hcost : arcsCost (l ++ [e]) = L.dist u + e.cost) (hlt : L.dist u + e.cost < L.dist e.dst)
    (htree : ∀ e' ∈ l, e'.src ∈ insert u done ∧ L.parent e'.dst = e'.src ∧
      e'.dst ∈ insert u done) :
    Scanning A s inf (L.set e.dst (L.dist u + e.cost) u) done u := by
  have hne : ∀ x ∈ insert u done, x ≠ e.dst := fun x hx heq => hdst (heq ▸ hx)
  have hold : ∀ x ∈ insert u done,
      (L.set e.dst (L.dist u + e.cost) u).dist x = L.dist x :=
    fun x hx => L.dist_set_of_ne (hne x hx) _ _
  have hu := Set.mem_insert u done
  have hdone : ∀ x ∈ done, x ∈ insert u done := fun x hx => Set.mem_insert_of_mem u hx
  have hroot : s ≠ e.dst := by
    intro heq
    have hzero := h.labelled.root
    rw [heq] at hzero
    omega
  have hle : ∀ x, (L.set e.dst (L.dist u + e.cost) u).dist x ≤ L.dist x := by
    intro x
    by_cases hx : x = e.dst
    · rw [hx, L.dist_set_self]
      exact Nat.le_of_lt hlt
    · rw [L.dist_set_of_ne hx]
  constructor
  case labelled =>
    constructor
    case root => rw [L.dist_set_of_ne hroot, h.labelled.root]
    case parent => rw [L.parent_set_of_ne hroot, h.labelled.parent]
    case bound => exact fun v => (hle v).trans (h.labelled.bound v)
    case tree =>
      intro v hv
      by_cases hdstv : v = e.dst
      · -- the new label comes with the new path
        subst hdstv
        refine ⟨l ++ [e], hpath, by rw [L.dist_set_self, hcost], ?_⟩
        intro e' he'
        rcases mem_append.mp he' with he' | he'
        · rcases htree e' he' with ⟨hsrc', hparent, hdst'⟩
          rw [L.parent_set_of_ne (hne _ hdst')]
          exact ⟨hsrc', hparent⟩
        · rw [mem_singleton.mp he', L.parent_set_self, hsrc]
          exact ⟨hu, rfl⟩
      · rw [L.dist_set_of_ne hdstv] at hv ⊢
        rcases h.labelled.tree v hv with ⟨lv, hlv, hcostv, htreev⟩
        refine ⟨lv, hlv, hcostv, ?_⟩
        intro e' he'
        rcases htreev e' he' with ⟨hsrc', hparent⟩
        refine ⟨hsrc', ?_⟩
        rw [L.parent_set_of_ne ?_]
        · exact hparent
        · -- the end of the arc is the last vertex, or left again
          have hmem : e'.dst ∈ s :: lv.map Arc.dst :=
            mem_cons_of_mem _ (mem_map_of_mem he')
          rcases hlv.walk.mem_vertices hmem with hlast | ⟨e'', he'', hsrc''⟩
          · rw [hlast]
            exact hdstv
          · exact hne _ (hsrc'' ▸ (htreev e'' he'').1)
  case settled =>
    constructor
    case closed =>
      intro e' he' hsrc'
      rcases h.settled.closed e' he' hsrc' with ⟨hfound, hshort⟩
      have hbound := h.labelled.bound e'.dst
      have hless := hle e'.dst
      rw [hold _ (hdone _ hsrc')]
      exact ⟨by omega, by omega⟩
    case order =>
      intro x hx v hv
      rw [hold x (hdone x hx)]
      by_cases hdstv : v = e.dst
      · rw [hdstv, L.dist_set_self]
        have hmin := h.settled.order x hx u h.fresh
        omega
      · rw [L.dist_set_of_ne hdstv]
        exact h.settled.order x hx v hv
    case found =>
      intro x hx
      rw [hold x (hdone x hx)]
      exact h.settled.found x hx
  case fresh => exact h.fresh
  case least =>
    intro v hv
    rw [hold u hu]
    by_cases hdstv : v = e.dst
    · rw [hdstv, L.dist_set_self]
      exact Nat.le_add_right _ _
    · rw [L.dist_set_of_ne hdstv]
      exact h.least v hv
  case found =>
    rw [hold u hu]
    exact h.found

/-- One arc of the vertex that is scanned: it is taken into account, or it wraps around. -/
theorem relax (h : Scanning A s inf L done u) (hsums : ∀ l v, IsPath A s l v → arcsCost l < inf)
    (he : e ∈ A) (hsrc : e.src = u) :
    (Scanning A s inf (L.relax inf e) done u ∧ NoWrap A s inf e ∧
        (L.relax inf e).dist u = L.dist u ∧ (L.relax inf e).dist e.dst ≠ inf ∧
        (L.relax inf e).dist e.dst ≤ L.dist u + e.cost) ∨
      (TooLow A s (L.relax inf e) ∧ ¬ NoWrap A s inf e) := by
  have hleast := h.leastCost (Set.mem_insert u done)
  by_cases hdst : e.dst ∈ insert u done
  · -- the end is settled already, so its label is the least cost
    have hleast' := h.leastCost hdst
    have hwrap : NoWrap A s inf e ↔ L.dist e.dst ≤ L.sum inf e := by
      unfold NoWrap Labels.sum
      rw [hsrc]
      constructor
      · exact fun hno => hno _ _ hleast hleast'
      · intro hle d d' hd hd'
        rw [hd.unique hleast, hd'.unique hleast']
        exact hle
    by_cases hlow : L.sum inf e < L.dist e.dst
    · right
      refine ⟨⟨e.dst, L.dist e.dst, hleast', ?_⟩, ?_⟩
      · unfold Labels.relax
        rw [if_pos hlow, L.dist_set_self]
        exact hlow
      · rw [hwrap]
        exact not_le.mpr hlow
    · left
      have hsame : L.relax inf e = L := if_neg hlow
      have hfound : L.dist e.dst ≠ inf ∧ L.dist e.dst ≤ L.dist u := by
        rcases hdst with heq | hmem
        · rw [heq]
          exact ⟨h.found, Nat.le_refl _⟩
        · exact ⟨h.settled.found _ hmem, h.settled.order _ hmem u h.fresh⟩
      rw [hsame]
      exact ⟨h, hwrap.mpr (not_lt.mp hlow), rfl, hfound.1, by omega⟩
  · left
    rcases h.exists_path hsums he hsrc hdst with ⟨l, hpath, hcost, hsum, hlt, htree⟩
    have hwrap : NoWrap A s inf e := by
      intro d d' hd hd'
      have hmod : (d + e.cost) % (inf + 1) = L.dist u + e.cost := by
        rw [← hsum]
        unfold Labels.sum
        rw [hsrc] at hd ⊢
        rw [hd.unique hleast]
      rw [hmod, ← hcost]
      exact hd'.2 _ hpath
    by_cases hlow : L.sum inf e < L.dist e.dst
    · have hset : L.relax inf e = L.set e.dst (L.dist u + e.cost) u := by
        unfold Labels.relax
        rw [if_pos hlow, hsum, hsrc]
      have hu : u ≠ e.dst := fun heq => hdst (heq ▸ Set.mem_insert u done)
      rw [hset, L.dist_set_self, L.dist_set_of_ne hu]
      rw [hsum] at hlow
      exact ⟨h.set hsrc hdst hpath hcost hlow htree, hwrap, rfl, by omega, Nat.le_refl _⟩
    · have hsame : L.relax inf e = L := if_neg hlow
      rw [hsame]
      rw [hsum] at hlow
      exact ⟨h, hwrap, rfl, by omega, by omega⟩

/-- All arcs of the vertex, one after the other. -/
theorem relaxAll (h : Scanning A s inf L done u)
    (hsums : ∀ l v, IsPath A s l v → arcsCost l < inf) {es : List (Arc V)}
    (hes : ∀ e ∈ es, e ∈ A ∧ e.src = u) :
    (Scanning A s inf (es.foldl (Labels.relax inf) L) done u ∧
        ∀ e ∈ es, NoWrap A s inf e ∧ (es.foldl (Labels.relax inf) L).dist e.dst ≠ inf ∧
          (es.foldl (Labels.relax inf) L).dist e.dst ≤
            (es.foldl (Labels.relax inf) L).dist u + e.cost) ∨
      (TooLow A s (es.foldl (Labels.relax inf) L) ∧ ∃ e ∈ es, ¬ NoWrap A s inf e) := by
  induction es generalizing L with
  | nil => exact Or.inl ⟨h, fun _ he => absurd he not_mem_nil⟩
  | cons e es ih =>
    rcases hes e mem_cons_self with ⟨he, hsrc⟩
    have hrest : ∀ e' ∈ es, e' ∈ A ∧ e'.src = u :=
      fun e' he' => hes e' (mem_cons_of_mem e he')
    rw [foldl_cons]
    rcases h.relax hsums he hsrc with ⟨hscan, hwrap, hsame, hfound, hshort⟩ | ⟨hlow, hwrap⟩
    · rcases ih hscan hrest with ⟨hscan', hall⟩ | ⟨hlow, e', he', hwrap'⟩
      · refine Or.inl ⟨hscan', ?_⟩
        intro e' he'
        rcases mem_cons.mp he' with rfl | he'
        · -- the label has only become lower since
          have hle := dist_foldl_le inf (L.relax inf e') es e'.dst
          have hbound := hscan.labelled.bound e'.dst
          have hu := hscan'.leastCost (Set.mem_insert u done)
          have hu' := hscan.leastCost (Set.mem_insert u done)
          rw [← hsame, hu'.unique hu] at hshort
          exact ⟨hwrap, by omega, by omega⟩
        · exact hall e' he'
      · exact Or.inr ⟨hlow, e', mem_cons_of_mem e he', hwrap'⟩
    · exact Or.inr ⟨hlow.foldl es, e, mem_cons_self, hwrap⟩

end Scanning

end Relax

/-! ## The beginning and the end -/

theorem Labelled.mono {done' : Set V} (h : Labelled A s inf L done) (hsub : done ⊆ done') :
    Labelled A s inf L done' where
  root := h.root
  parent := h.parent
  bound := h.bound
  tree := by
    intro v hv
    rcases h.tree v hv with ⟨l, hl, hcost, htree⟩
    exact ⟨l, hl, hcost, fun e he => ⟨hsub (htree e he).1, (htree e he).2⟩⟩

/-- At first only the root has a label. -/
theorem Scanning.init (hroot : L.dist s = 0) (hparent : L.parent s = s)
    (hothers : ∀ v, v ≠ s → L.dist v = inf) (hinf : 0 < inf) : Scanning A s inf L ∅ s where
  labelled :=
    { root := hroot
      parent := hparent
      bound := by
        intro v
        by_cases hv : v = s
        · rw [hv, hroot]
          exact Nat.zero_le inf
        · exact Nat.le_of_eq (hothers v hv)
      tree := by
        intro v hv
        by_cases hvs : v = s
        · subst hvs
          exact ⟨[], IsPath.nil A v, hroot.symm, fun _ he => absurd he not_mem_nil⟩
        · exact absurd (hothers v hvs) hv }
  settled := ⟨fun _ _ h => absurd h (Set.notMem_empty _), fun _ h => absurd h (Set.notMem_empty _),
    fun _ h => absurd h (Set.notMem_empty _)⟩
  fresh := Set.notMem_empty s
  least v _ := by
    rw [hroot]
    exact Nat.zero_le _
  found := by
    rw [hroot]
    exact Nat.ne_of_lt hinf

/-- The next vertex is one with a lowest label. -/
theorem Settled.scan {u : V} (h : Settled A s inf L done) (hlabelled : Labelled A s inf L done)
    (hfresh : u ∉ done) (hleast : ∀ v ∉ done, L.dist u ≤ L.dist v) (hfound : L.dist u ≠ inf) :
    Scanning A s inf L done u where
  labelled := hlabelled.mono (Set.subset_insert u done)
  settled := h
  fresh := hfresh
  least := hleast
  found := hfound

/-- When all labels are settled, they are the least costs. -/
theorem Settled.leastCost (h : Settled A s inf L done) (hlabelled : Labelled A s inf L done)
    (hall : ∀ v ∉ done, L.dist v = inf) (hinf : 0 < inf) (v : V) :
    (L.dist v ≠ inf → LeastCost A s v (L.dist v)) ∧
      (L.dist v = inf → ∀ l, ¬ IsPath A s l v) := by
  have hroot : s ∈ done := by
    by_contra hs
    have hzero := hlabelled.root
    have htop := hall s hs
    omega
  have hwalk : ∀ (l : List (Arc V)) (x : V), x ∈ done → IsWalk x l v → (∀ e ∈ l, e ∈ A) →
      v ∈ done ∧ L.dist v ≤ L.dist x + arcsCost l := by
    intro l
    induction l with
    | nil =>
      rintro x hx rfl -
      exact ⟨hx, Nat.le_add_right _ _⟩
    | cons e l ih =>
      rintro x hx ⟨rfl, hl⟩ hA
      rcases h.closed e (hA e mem_cons_self) hx with ⟨hfound, hshort⟩
      have hdst : e.dst ∈ done := by
        by_contra hnot
        exact hfound (hall _ hnot)
      rcases ih e.dst hdst hl fun e' he' => hA e' (mem_cons_of_mem e he') with ⟨hv, hle⟩
      refine ⟨hv, ?_⟩
      rw [arcsCost_cons]
      omega
  constructor
  · intro hv
    rcases hlabelled.tree v hv with ⟨l, hl, hcost, -⟩
    refine ⟨⟨l, hl, hcost⟩, ?_⟩
    intro l' hl'
    have hle := (hwalk l' s hroot hl'.walk hl'.mem).2
    rwa [hlabelled.root, Nat.zero_add] at hle
  · intro hv l hl
    exact h.found v (hwalk l s hroot hl.walk hl.mem).1 hv

end Invariant

end PittCs.Lib
