import Mathlib.Algebra.Order.Monoid.Defs
import Mathlib.Data.List.Nodup
import Mathlib.Data.Set.Insert

/-!
# Least costs by relaxation, with a top label

Dijkstra's algorithm over costs in an ordered monoid, where the label `top` stands for no
way and vertices with this label are scanned like all others. A relation gives the edges
with their costs. When all vertices are scanned, a label below `top` is the least cost of
a walk, found by going back along the parents, and no walk to any other vertex costs less
than `top`.
-/

namespace PittCs.Lib.Relaxation

open Function List

universe u v

variable {V : Type u} {C : Type v} [AddCommMonoid C]

/-- Walks with their costs. -/
inductive Walk (E : V → V → C → Prop) : V → V → C → Prop where
  | nil (x : V) : Walk E x x 0
  | cons {x y z : V} {d c : C} : E x y d → Walk E y z c → Walk E x z (d + c)

/-- For each vertex the cost found so far and the vertex before it, if any. -/
structure Labels (V : Type u) (C : Type v) where
  dist : V → C
  parent : V → Option V

/-- The vertices behind `s` on the way to a vertex along the parents, which are in `done`. -/
inductive Chain (E : V → V → C → Prop) (s : V) (L : Labels V C) (done : Set V) :
    V → List V → Prop where
  | root : L.dist s = 0 → L.parent s = none → Chain E s L done s []
  | snoc {p v : V} {d : C} {l : List V} : Chain E s L done p l → p ∈ done → L.parent v = some p →
      E p v d → L.dist v = L.dist p + d → v ∉ s :: l → Chain E s L done v (l ++ [v])

variable {E : V → V → C → Prop} {s : V} {top : C} {L : Labels V C} {done : Set V}

namespace Chain

/-- A chain stays when the labels of its vertices do. -/
theorem agree {L' : Labels V C} {done' : Set V} (hdone : ∀ x ∈ done, x ∈ done' ∧
    L'.dist x = L.dist x ∧ L'.parent x = L.parent x) {v : V} {l : List V} (h : Chain E s L done v l)
    (hv : L'.dist v = L.dist v ∧ L'.parent v = L.parent v) : Chain E s L' done' v l := by
  induction h with
  | root hdist hparent => exact .root (hv.1.trans hdist) (hv.2.trans hparent)
  | snoc _ hp hparent hedge hdist hnew ih =>
    rcases hdone _ hp with ⟨hp', hsame⟩
    refine .snoc (ih hsame) hp' (hv.2.trans hparent) hedge ?_ hnew
    rw [hv.1, hsame.1, hdist]

theorem mem_or {v x : V} {l : List V} (h : Chain E s L done v l) (hx : x ∈ s :: l) :
    x = v ∨ x ∈ done := by
  induction h with
  | root => exact Or.inl (mem_singleton.mp hx)
  | snoc _ hp _ _ _ _ ih =>
    rw [← cons_append, mem_append, mem_singleton] at hx
    rcases hx with hx | hx
    · right
      rcases ih hx with rfl | hdone
      · exact hp
      · exact hdone
    · exact Or.inl hx

theorem nodup {v : V} {l : List V} (h : Chain E s L done v l) : (s :: l).Nodup := by
  induction h with
  | root => exact nodup_singleton s
  | snoc _ _ _ _ _ hnew ih =>
    rw [← cons_append]
    refine nodup_append.mpr ⟨ih, nodup_singleton _, ?_⟩
    intro x hx y hy heq
    rw [heq, mem_singleton.mp hy] at hx
    exact hnew hx

theorem parent_root {v : V} {l : List V} (h : Chain E s L done v l) : L.parent s = none := by
  induction h with
  | root _ hparent => exact hparent
  | snoc _ _ _ _ _ _ ih => exact ih

end Chain

variable [LinearOrder C]

/-- The vertices of `done` are scanned: their edges are taken into account, and their labels
are not above those of the others. -/
structure Scanned (E : V → V → C → Prop) (s : V) (top : C) (L : Labels V C) (done : Set V) :
    Prop where
  root : L.dist s = 0
  low : ∀ v, 0 ≤ L.dist v
  bound : ∀ v, L.dist v ≤ top
  fresh : ∀ v, L.dist v = top → v ≠ s → L.parent v = none
  tree : ∀ v, L.dist v = top ∨ ∃ l, Chain E s L done v l
  order : ∀ u ∈ done, ∀ v ∉ done, L.dist u ≤ L.dist v
  closed : ∀ u ∈ done, ∀ v d, E u v d → L.dist v ≤ L.dist u + d

/-- The edges of the vertex `u`, which has the least label outside `done`, are being
relaxed. -/
structure Scanning (E : V → V → C → Prop) (s : V) (top : C) (L : Labels V C) (done : Set V)
    (u : V) : Prop where
  root : L.dist s = 0
  low : ∀ v, 0 ≤ L.dist v
  bound : ∀ v, L.dist v ≤ top
  fresh : ∀ v, L.dist v = top → v ≠ s → L.parent v = none
  tree : ∀ v, L.dist v = top ∨ ∃ l, Chain E s L (insert u done) v l
  order : ∀ u ∈ done, ∀ v ∉ done, L.dist u ≤ L.dist v
  closed : ∀ u ∈ done, ∀ v d, E u v d → L.dist v ≤ L.dist u + d
  next : u ∉ done
  least : ∀ v ∉ done, L.dist u ≤ L.dist v

theorem Scanned.scanning {u : V} (h : Scanned E s top L done) (hu : u ∉ done)
    (hleast : ∀ v ∉ done, L.dist u ≤ L.dist v) : Scanning E s top L done u where
  root := h.root
  low := h.low
  bound := h.bound
  fresh := h.fresh
  tree := by
    intro v
    rcases h.tree v with htop | ⟨l, hl⟩
    · exact Or.inl htop
    · right
      exact ⟨l, hl.agree (fun x hx => ⟨Set.mem_insert_of_mem u hx, rfl, rfl⟩) ⟨rfl, rfl⟩⟩
  order := h.order
  closed := h.closed
  next := hu
  least := hleast

theorem Scanning.scanned {u : V} (h : Scanning E s top L done u)
    (hall : ∀ v d, E u v d → L.dist v ≤ L.dist u + d) : Scanned E s top L (insert u done) where
  root := h.root
  low := h.low
  bound := h.bound
  fresh := h.fresh
  tree := h.tree
  order := by
    intro x hx v hv
    have hnot : v ∉ done := fun hmem => hv (Set.mem_insert_of_mem u hmem)
    rcases hx with rfl | hx
    · exact h.least v hnot
    · exact h.order x hx v hnot
  closed := by
    intro x hx v d hedge
    rcases hx with rfl | hx
    · exact hall v d hedge
    · exact h.closed x hx v d hedge

/-- At first only `s` has a label below `top`. -/
theorem Scanned.init (hdist : L.dist s = 0) (hparent : ∀ v, L.parent v = none)
    (hothers : ∀ v, v ≠ s → L.dist v = top) (htop : 0 ≤ top) : Scanned E s top L ∅ where
  root := hdist
  low := by
    intro v
    by_cases hv : v = s
    · rw [hv, hdist]
    · rw [hothers v hv]
      exact htop
  bound := by
    intro v
    by_cases hv : v = s
    · rw [hv, hdist]
      exact htop
    · exact le_of_eq (hothers v hv)
  fresh := fun v _ _ => hparent v
  tree := by
    intro v
    by_cases hv : v = s
    · rw [hv]
      exact Or.inr ⟨[], .root hdist (hparent s)⟩
    · exact Or.inl (hothers v hv)
  order := fun u hu => absurd hu (Set.notMem_empty u)
  closed := fun u hu => absurd hu (Set.notMem_empty u)

/-- When all vertices are scanned, no walk is cheaper than the labels say. -/
theorem Scanned.dist_le [IsOrderedAddMonoid C] (h : Scanned E s top L done) (hall : ∀ v, v ∈ done) {x v : V} {c : C}
    (hwalk : Walk E x v c) : L.dist v ≤ L.dist x + c := by
  induction hwalk with
  | nil x => exact le_of_eq (add_zero _).symm
  | @cons x y z d c hedge _ ih =>
    calc L.dist z ≤ L.dist y + c := ih
      _ ≤ (L.dist x + d) + c := add_le_add_left (h.closed x (hall x) y d hedge) c
      _ = L.dist x + (d + c) := add_assoc _ _ _

section Relax

variable [DecidableEq V]

def Labels.set (L : Labels V C) (v : V) (d : C) (p : V) : Labels V C :=
  ⟨Function.update L.dist v d, Function.update L.parent v (some p)⟩

/-- The label of the end of an edge is lowered if the way over the edge is shorter. -/
def Labels.relax (L : Labels V C) (u : V) (e : V × C) : Labels V C :=
  if L.dist u + e.2 < L.dist e.1 then L.set e.1 (L.dist u + e.2) u else L

theorem Labels.relax_le (L : Labels V C) (u : V) (e : V × C) (v : V) :
    (L.relax u e).dist v ≤ L.dist v := by
  unfold Labels.relax
  split
  case isTrue hlt =>
    by_cases hv : v = e.1
    · rw [hv]
      exact (le_of_eq (update_self ..)).trans (le_of_lt hlt)
    · exact le_of_eq (update_of_ne hv ..)
  case isFalse => exact le_refl _

variable [IsOrderedAddMonoid C]

/-- Relaxing one edge of the vertex that is scanned. -/
theorem Scanning.relax {u v : V} {d : C} (h : Scanning E s top L done u) (hedge : E u v d)
    (hd : 0 ≤ d) : Scanning E s top (L.relax u (v, d)) done u ∧
      (L.relax u (v, d)).dist u = L.dist u ∧ (L.relax u (v, d)).dist v ≤ L.dist u + d := by
  by_cases hlt : L.dist u + d < L.dist v
  · have hset : L.relax u (v, d) = L.set v (L.dist u + d) u := if_pos hlt
    have hle : L.dist u ≤ L.dist u + d := le_add_of_nonneg_right hd
    -- the label of a scanned vertex is not above that of `u`
    have hv : v ∉ insert u done := by
      rintro (rfl | hmem)
      · exact absurd (hle.trans_lt hlt) (lt_irrefl _)
      · exact absurd ((h.order v hmem u h.next).trans hle) (not_le.mpr hlt)
    have hne : ∀ x ∈ insert u done, x ≠ v := fun x hx heq => hv (heq ▸ hx)
    have hother : ∀ x, x ≠ v → (L.set v (L.dist u + d) u).dist x = L.dist x ∧
        (L.set v (L.dist u + d) u).parent x = L.parent x :=
      fun x hx => ⟨update_of_ne hx .., update_of_ne hx ..⟩
    have hself : (L.set v (L.dist u + d) u).dist v = L.dist u + d := update_self ..
    have hagree : ∀ x ∈ insert u done, x ∈ insert u done ∧
        (L.set v (L.dist u + d) u).dist x = L.dist x ∧
        (L.set v (L.dist u + d) u).parent x = L.parent x :=
      fun x hx => ⟨hx, hother x (hne x hx)⟩
    have hu := Set.mem_insert u done
    have hdone : ∀ x ∈ done, x ≠ v := fun x hx => hne x (Set.mem_insert_of_mem u hx)
    have hbelow : ∀ x, (L.set v (L.dist u + d) u).dist x ≤ L.dist x := by
      intro x
      rw [← hset]
      exact L.relax_le u (v, d) x
    have hvtop : L.dist u + d < top := lt_of_lt_of_le hlt (h.bound v)
    rw [hset]
    refine ⟨?_, (hother u (hne u hu)).1, le_of_eq hself⟩
    constructor
    case root =>
      have hs : s ≠ v := by
        intro heq
        rw [← heq, h.root] at hlt
        exact absurd hlt (not_lt.mpr (add_nonneg (h.low u) hd))
      rw [(hother s hs).1, h.root]
    case low =>
      intro x
      by_cases hxv : x = v
      · rw [hxv, hself]
        exact add_nonneg (h.low u) hd
      · rw [(hother x hxv).1]
        exact h.low x
    case bound => exact fun x => (hbelow x).trans (h.bound x)
    case fresh =>
      intro x hx hxs
      by_cases hxv : x = v
      · rw [hxv, hself] at hx
        exact absurd hx (ne_of_lt hvtop)
      · rw [(hother x hxv).1] at hx
        rw [(hother x hxv).2]
        exact h.fresh x hx hxs
    case tree =>
      intro x
      by_cases hxv : x = v
      · -- the new label comes with the chain of `u`
        subst hxv
        rcases h.tree u with htop | ⟨l, hl⟩
        · have hutop := lt_of_le_of_lt hle hvtop
          exact absurd htop (ne_of_lt hutop)
        · have hl' := hl.agree hagree (hother u (hne u hu))
          refine Or.inr ⟨l ++ [x], .snoc hl' hu (update_self ..) hedge ?_ ?_⟩
          · rw [hself, (hother u (hne u hu)).1]
          · intro hmem
            rcases hl'.mem_or hmem with heq | hmem
            · exact hv (heq ▸ hu)
            · exact hv hmem
      · rw [(hother x hxv).1]
        rcases h.tree x with htop | ⟨l, hl⟩
        · exact Or.inl htop
        · exact Or.inr ⟨l, hl.agree hagree (hother x hxv)⟩
    case order =>
      intro x hx y hy
      rw [(hother x (hdone x hx)).1]
      by_cases hyv : y = v
      · rw [hyv, hself]
        exact (h.order x hx u h.next).trans hle
      · rw [(hother y hyv).1]
        exact h.order x hx y hy
    case closed =>
      intro x hx y c hxy
      rw [(hother x (hdone x hx)).1]
      exact (hbelow y).trans (h.closed x hx y c hxy)
    case next => exact h.next
    case least =>
      intro y hy
      rw [(hother u (hne u hu)).1]
      by_cases hyv : y = v
      · rw [hyv, hself]
        exact hle
      · rw [(hother y hyv).1]
        exact h.least y hy
  · have hsame : L.relax u (v, d) = L := if_neg hlt
    rw [hsame]
    exact ⟨h, rfl, not_lt.mp hlt⟩

/-- Relaxing all edges of the vertex. -/
theorem Scanning.relaxAll {u : V} (h : Scanning E s top L done u) {es : List (V × C)}
    (hes : ∀ e ∈ es, E u e.1 e.2 ∧ 0 ≤ e.2) :
    Scanning E s top (es.foldl (Labels.relax · u) L) done u ∧
      (es.foldl (Labels.relax · u) L).dist u = L.dist u ∧
      ∀ e ∈ es, (es.foldl (Labels.relax · u) L).dist e.1 ≤ L.dist u + e.2 := by
  have hbelow : ∀ (es : List (V × C)) (L : Labels V C) (v : V),
      (es.foldl (Labels.relax · u) L).dist v ≤ L.dist v := by
    intro es
    induction es with
    | nil => exact fun _ _ => le_refl _
    | cons e es ih => exact fun L v => (ih (L.relax u e) v).trans (L.relax_le u e v)
  induction es generalizing L with
  | nil => exact ⟨h, rfl, fun _ he => absurd he not_mem_nil⟩
  | cons e es ih =>
    rcases hes e mem_cons_self with ⟨hedge, hnonneg⟩
    rcases h.relax hedge hnonneg with ⟨hscan, hsame, hshort⟩
    rcases ih hscan fun e' he' => hes e' (mem_cons_of_mem e he') with ⟨hscan', hsame', hall⟩
    rw [hsame] at hsame' hall
    refine ⟨hscan', hsame', ?_⟩
    intro e' he'
    rcases mem_cons.mp he' with rfl | he'
    · exact (hbelow es _ _).trans hshort
    · exact hall e' he'

end Relax

end PittCs.Lib.Relaxation
