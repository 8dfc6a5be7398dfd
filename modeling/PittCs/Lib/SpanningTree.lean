import Mathlib.Algebra.BigOperators.Group.List.Basic
import Mathlib.Algebra.Order.Monoid.Defs

/-!
# Spanning trees

Lists of edges between vertices, read as undirected. `Linked` is the equivalence the edges
of a list generate. A list is a `Forest` if the ends of no edge are linked by the others.
-/

namespace PittCs.Lib.SpanningTree

open List

universe u v w

/-- The two ends of an edge. -/
structure Ends (V : Type u) (ε : Type v) where
  source : ε → V
  destination : ε → V

variable {V : Type u} {ε : Type v} (G : Ends V ε)

/-- The vertices are linked by edges of the list, in either direction. -/
def Linked (es : List ε) : V → V → Prop :=
  Relation.EqvGen fun a b => ∃ e ∈ es, G.source e = a ∧ G.destination e = b

/-- The edges link all vertices. -/
def Spans (es : List ε) : Prop := ∀ a b, Linked G es a b

/-- The ends of an edge are linked. -/
def Closes (es : List ε) (e : ε) : Prop := Linked G es (G.source e) (G.destination e)

/-- No edge closes a cycle with the others. -/
def Forest (es : List ε) : Prop :=
  ∀ before e after, es = before ++ e :: after → ¬ Closes G (before ++ after) e

variable {G} {es es' : List ε} {e f : ε} {a b c : V}

/-! ## Linked vertices -/

namespace Linked

theorem refl (a : V) : Linked G es a a := Relation.EqvGen.refl a

theorem symm (h : Linked G es a b) : Linked G es b a := Relation.EqvGen.symm a b h

theorem trans (h : Linked G es a b) (h' : Linked G es b c) : Linked G es a c :=
  Relation.EqvGen.trans a b c h h'

theorem equivalence (es : List ε) : Equivalence (Linked G es) where
  refl := refl
  symm := symm
  trans := trans

/-- An equivalence that holds of the ends of all edges holds of linked vertices. -/
theorem le {R : V → V → Prop} (hR : Equivalence R)
    (hends : ∀ e ∈ es, R (G.source e) (G.destination e)) (h : Linked G es a b) : R a b := by
  unfold Linked at h
  induction h with
  | rel a b hab =>
    rcases hab with ⟨e, he, rfl, rfl⟩
    exact hends e he
  | refl a => exact hR.refl a
  | symm a b _ ih => exact hR.symm ih
  | trans a b c _ _ ih ih' => exact hR.trans ih ih'

theorem mono_of_closes (h : Linked G es a b) (hes : ∀ e ∈ es, Closes G es' e) :
    Linked G es' a b :=
  h.le (equivalence es') hes

end Linked

theorem closes_of_mem (h : e ∈ es) : Closes G es e := Relation.EqvGen.rel _ _ ⟨e, h, rfl, rfl⟩

theorem Linked.mono (h : Linked G es a b) (hsub : es ⊆ es') : Linked G es' a b :=
  h.mono_of_closes fun _ he => closes_of_mem (hsub he)

theorem linked_nil : Linked G [] a b ↔ a = b := by
  constructor
  · intro h
    exact h.le eq_equivalence fun e he => absurd he not_mem_nil
  · rintro rfl
    exact .refl a

/-- What one more edge links. -/
theorem linked_cons : Linked G (e :: es) a b ↔
    Linked G es a b ∨
      (Linked G es a (G.source e) ∧ Linked G es (G.destination e) b) ∨
      (Linked G es a (G.destination e) ∧ Linked G es (G.source e) b) := by
  have hnew : Linked G (e :: es) (G.source e) (G.destination e) := closes_of_mem mem_cons_self
  have hold : ∀ {x y}, Linked G es x y → Linked G (e :: es) x y := fun h =>
    h.mono (subset_cons_self e es)
  constructor
  · intro h
    unfold Linked at h
    induction h with
    | rel a b hab =>
      rcases hab with ⟨e', he', rfl, rfl⟩
      rcases mem_cons.mp he' with rfl | he'
      · exact Or.inr (Or.inl ⟨.refl _, .refl _⟩)
      · exact Or.inl (closes_of_mem he')
    | refl a => exact Or.inl (.refl a)
    | symm a b _ ih =>
      rcases ih with h | ⟨h, h'⟩ | ⟨h, h'⟩
      · exact Or.inl h.symm
      · exact Or.inr (Or.inr ⟨h'.symm, h.symm⟩)
      · exact Or.inr (Or.inl ⟨h'.symm, h.symm⟩)
    | trans a b c _ _ ih ih' =>
      -- a way through the edge and back again needs no edge
      rcases ih with h | ⟨h, h'⟩ | ⟨h, h'⟩
      · rcases ih' with k | ⟨k, k'⟩ | ⟨k, k'⟩
        · exact Or.inl (h.trans k)
        · exact Or.inr (Or.inl ⟨h.trans k, k'⟩)
        · exact Or.inr (Or.inr ⟨h.trans k, k'⟩)
      · rcases ih' with k | ⟨k, k'⟩ | ⟨-, k'⟩
        · exact Or.inr (Or.inl ⟨h, h'.trans k⟩)
        · exact Or.inr (Or.inl ⟨h, k'⟩)
        · exact Or.inl (h.trans k')
      · rcases ih' with k | ⟨-, k'⟩ | ⟨k, k'⟩
        · exact Or.inr (Or.inr ⟨h, h'.trans k⟩)
        · exact Or.inl (h.trans k')
        · exact Or.inr (Or.inr ⟨h, k'⟩)
  · rintro (h | ⟨h, h'⟩ | ⟨h, h'⟩)
    · exact hold h
    · exact (hold h).trans (hnew.trans (hold h'))
    · exact (hold h).trans (hnew.symm.trans (hold h'))

/-- An edge between linked vertices links nothing new. -/
theorem linked_cons_of_closes (h : Closes G es e) : Linked G (e :: es) a b ↔ Linked G es a b := by
  constructor
  · intro hab
    refine hab.mono_of_closes ?_
    intro e' he'
    rcases mem_cons.mp he' with rfl | he'
    · exact h
    · exact closes_of_mem he'
  · exact fun hab => hab.mono (subset_cons_self e es)

/-- If an edge closes the gap between the ends of another, so does the other for it. -/
theorem linked_exchange (hopen : ¬ Closes G es e) (h : Closes G (f :: es) e) :
    Closes G (e :: es) f := by
  unfold Closes at h ⊢
  rw [linked_cons] at h ⊢
  rcases h with h | ⟨h, h'⟩ | ⟨h, h'⟩
  · exact absurd h hopen
  · exact Or.inr (Or.inl ⟨h.symm, h'.symm⟩)
  · exact Or.inr (Or.inr ⟨h', h⟩)

/-- The edge that links two vertices when edges are added one after another. -/
theorem exists_closing {more : List ε} (hopen : ¬ Linked G es a b)
    (h : Linked G (es ++ more) a b) :
    ∃ before f after, more = before ++ f :: after ∧ ¬ Linked G (es ++ before) a b ∧
      Linked G (f :: (es ++ before)) a b := by
  induction more generalizing es with
  | nil =>
    rw [append_nil] at h
    exact absurd h hopen
  | cons f more ih =>
    by_cases hf : Linked G (f :: es) a b
    · refine ⟨[], f, more, rfl, ?_, ?_⟩
      · rwa [append_nil]
      · rwa [append_nil]
    · have hopen' : ¬ Linked G (es ++ [f]) a b := by
        intro hl
        refine hf (hl.mono ?_)
        intro x hx
        rcases mem_append.mp hx with hx | hx
        · exact mem_cons_of_mem f hx
        · exact mem_cons.mpr (Or.inl (mem_singleton.mp hx))
      have h' : Linked G ((es ++ [f]) ++ more) a b := by
        rwa [append_assoc, singleton_append]
      rcases ih hopen' h' with ⟨before, g, after, rfl, hno, hyes⟩
      rw [append_assoc, singleton_append] at hno hyes
      exact ⟨f :: before, g, after, rfl, hno, hyes⟩

/-! ## Forests -/

theorem forest_nil : Forest G [] := by
  intro before e after h
  exact absurd h.symm (append_ne_nil_of_right_ne_nil before (cons_ne_nil e after))

/-- An edge that links two vertices that were not linked closes no cycle. -/
theorem Forest.push (h : Forest G es) (hopen : ¬ Closes G es e) : Forest G (es ++ [e]) := by
  intro before f after hsplit hcycle
  rcases eq_nil_or_concat after with rfl | ⟨after, g, rfl⟩
  · -- the new edge itself
    have hlast := append_inj_left' hsplit (by simp)
    have hfe : e = f := by simpa [hlast] using hsplit
    rw [append_nil, ← hlast, ← hfe] at hcycle
    exact hopen hcycle
  · -- an edge that was there: the new one would have closed the cycle
    have hcons : before ++ f :: after.concat g = (before ++ f :: after) ++ [g] := by
      simp [concat_eq_append]
    rw [hcons] at hsplit
    have hes := append_inj_left' hsplit (by simp)
    have hge : e = g := by simpa [hes] using hsplit
    have hold : ¬ Closes G (before ++ after) f := h before f after hes
    have hnew : Closes G (g :: (before ++ after)) f := by
      refine Linked.mono hcycle ?_
      intro x hx
      simp only [concat_eq_append, mem_append, mem_cons, not_mem_nil,
        or_false] at hx ⊢
      tauto
    refine hopen (Linked.mono (hge ▸ linked_exchange hold hnew) ?_)
    intro x hx
    rw [hes]
    simp only [mem_append, mem_cons] at hx ⊢
    tauto

/-! ## Taking edges by weight -/

section Weight

variable {M : Type w} [AddCommMonoid M] [LinearOrder M] {weight : ε → M}

/-- The sum of the weights. -/
def total (weight : ε → M) (es : List ε) : M := (es.map weight).sum

/-- Some of the edges are taken and some are left. -/
structure Greedy (G : Ends V ε) (weight : ε → M) (all : List ε) (left : ε → Prop)
    (tree : List ε) : Prop where
  subset : tree ⊆ all
  seen : ∀ e ∈ all, left e ∨ Closes G tree e
  forest : Forest G tree
  completes : ∀ T ⊆ all, Spans G T → ∃ more ⊆ all, Spans G (tree ++ more) ∧
    (tree ++ more).length = T.length ∧ total weight (tree ++ more) ≤ total weight T

namespace Greedy

variable {all tree : List ε} {left left' : ε → Prop}

theorem start (hall : ∀ e ∈ all, left e) : Greedy G weight all left [] where
  subset := nil_subset all
  seen e he := Or.inl (hall e he)
  forest := forest_nil
  completes T hT hspans := ⟨T, hT, hspans, rfl, le_rfl⟩

/-- The next edge is between linked vertices. -/
theorem skip (h : Greedy G weight all left tree) (hleft : ∀ e', left e' → e' = e ∨ left' e')
    (he : Closes G tree e) : Greedy G weight all left' tree where
  subset := h.subset
  seen e' he' := by
    rcases h.seen e' he' with hl | hc
    · rcases hleft e' hl with rfl | hl
      · exact Or.inr he
      · exact Or.inl hl
    · exact Or.inr hc
  forest := h.forest
  completes := h.completes

/-- The next edge is taken. It takes the place of one that is not lighter. -/
theorem take [IsOrderedAddMonoid M] (h : Greedy G weight all left tree)
    (hleft : ∀ e', left e' → e' = e ∨ left' e')
    (hmem : e ∈ all) (hmin : ∀ e', left e' → weight e ≤ weight e') (hopen : ¬ Closes G tree e) :
    Greedy G weight all left' (tree ++ [e]) where
  subset := by
    intro x hx
    rcases mem_append.mp hx with hx | hx
    · exact h.subset hx
    · exact mem_singleton.mp hx ▸ hmem
  seen := by
    have hmono : ∀ {e'}, Closes G tree e' → Closes G (tree ++ [e]) e' := fun hc =>
      Linked.mono hc (subset_append_left tree [e])
    intro e' he'
    rcases h.seen e' he' with hl | hc
    · rcases hleft e' hl with rfl | hl
      · exact Or.inr (closes_of_mem (mem_append_right tree mem_cons_self))
      · exact Or.inl hl
    · exact Or.inr (hmono hc)
  forest := h.forest.push hopen
  completes := by
    intro T hT hspans
    rcases h.completes T hT hspans with ⟨more, hmore, hall, hlength, hweight⟩
    rcases exists_closing hopen (hall _ _) with ⟨before, f, after, rfl, hno, hyes⟩
    have hf : Closes G (e :: (tree ++ before)) f := linked_exchange hno hyes
    have hleftf : left f := by
      rcases h.seen f (hmore (by simp)) with hl | hc
      · exact hl
      · -- an edge between linked vertices would not have closed the gap
        have hc' : Closes G (tree ++ before) f := Linked.mono hc (subset_append_left tree before)
        exact absurd ((linked_cons_of_closes hc').mp hyes) hno
    refine ⟨before ++ after, ?_, ?_, ?_, ?_⟩
    · intro x hx
      refine hmore ?_
      simp only [mem_append, mem_cons] at hx ⊢
      tauto
    · intro a b
      refine (hall a b).mono_of_closes ?_
      intro x hx
      by_cases hxf : x = f
      · subst hxf
        refine Linked.mono hf ?_
        intro y hy
        simp only [mem_append, mem_cons, not_mem_nil, or_false] at hy ⊢
        tauto
      · refine closes_of_mem ?_
        simp only [mem_append, mem_cons, not_mem_nil, or_false] at hx ⊢
        tauto
    · rw [← hlength]
      simp only [length_append, length_cons, length_nil]
      omega
    · have hle := hmin f hleftf
      refine le_trans ?_ hweight
      simp only [total, map_append, map_cons, map_nil, sum_append,
        sum_cons, sum_nil, add_zero, add_assoc]
      have hrest : weight e + ((before.map weight).sum + (after.map weight).sum) ≤
          (before.map weight).sum + (weight f + (after.map weight).sum) := by
        calc
          weight e + ((before.map weight).sum + (after.map weight).sum) ≤
              weight f + ((before.map weight).sum + (after.map weight).sum) :=
            add_le_add_left hle _
          _ = (before.map weight).sum + (weight f + (after.map weight).sum) := add_left_comm _ _ _
      exact add_le_add_right hrest _

/-- When no edge is left, what is taken links what all edges link. -/
theorem closes (h : Greedy G weight all left tree) (hdone : ∀ e, ¬ left e)
    (hab : Linked G all a b) : Linked G tree a b :=
  hab.mono_of_closes fun e he => (h.seen e he).resolve_left (hdone e)

/-- No spanning list of the same length is lighter. -/
theorem total_le (h : Greedy G weight all left tree) {T : List ε} (hT : T ⊆ all)
    (hspans : Spans G T) (hlength : T.length = tree.length) :
    total weight tree ≤ total weight T := by
  rcases h.completes T hT hspans with ⟨more, -, -, hmore, hweight⟩
  have hnil : more = [] := by
    rw [length_append, hlength] at hmore
    exact eq_nil_of_length_eq_zero (by omega)
  rwa [hnil, append_nil] at hweight

end Greedy

end Weight

end PittCs.Lib.SpanningTree
