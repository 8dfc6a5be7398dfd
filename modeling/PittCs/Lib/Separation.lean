import Mathlib.Data.Finset.Card
import Mathlib.Data.Fintype.Basic

/-!
# Vertices that separate others

`Within adj S` says that a way leads from one vertex to another on which all steps stay in
`S`. A vertex separates two others if no way without it leads from one to the other.
-/

namespace PittCs.Lib.Separation

universe u

variable {V : Type u}

/-- A way inside of `S`. -/
def Within (adj : V → V → Prop) (S : V → Prop) : V → V → Prop :=
  Relation.ReflTransGen fun a b => adj a b ∧ S a ∧ S b

/-- Some vertex separates two others that are joined. -/
def HasCut (adj : V → V → Prop) : Prop :=
  ∃ c a b, a ≠ c ∧ b ≠ c ∧ Within adj (fun _ => True) a b ∧ ¬ Within adj (· ≠ c) a b

variable {adj : V → V → Prop} {S T A : V → Prop} {a b c d : V}

namespace Within

theorem refl (a : V) : Within adj S a a := Relation.ReflTransGen.refl

theorem trans (h : Within adj S a b) (h' : Within adj S b c) : Within adj S a c :=
  Relation.ReflTransGen.trans h h'

theorem step (h : adj a b) (ha : S a) (hb : S b) : Within adj S a b :=
  Relation.ReflTransGen.single ⟨h, ha, hb⟩

theorem lift {adj' : V → V → Prop} (h : Within adj S a b)
    (hstep : ∀ x y, adj x y → S x → S y → adj' x y ∧ T x ∧ T y) : Within adj' T a b := by
  unfold Within at h ⊢
  induction h with
  | refl => exact Relation.ReflTransGen.refl
  | tail _ hlast ih => exact ih.tail (hstep _ _ hlast.1 hlast.2.1 hlast.2.2)

theorem mono (h : Within adj S a b) (hST : ∀ x, S x → T x) : Within adj T a b :=
  h.lift fun x y hxy hx hy => ⟨hxy, hST x hx, hST y hy⟩

theorem symm (hsymm : ∀ {a b}, adj a b → adj b a) (h : Within adj S a b) : Within adj S b a := by
  unfold Within at h ⊢
  induction h with
  | refl => exact Relation.ReflTransGen.refl
  | tail _ hstep ih => exact Relation.ReflTransGen.head ⟨hsymm hstep.1, hstep.2.2, hstep.2.1⟩ ih

/-- A way does not leave what is closed under the steps in `S`. -/
theorem mem_of_closed (h : Within adj S a b)
    (hclosed : ∀ x y, A x → adj x y → S x → S y → A y) (ha : A a) : A b := by
  unfold Within at h
  induction h with
  | refl => exact ha
  | tail _ hstep ih => exact hclosed _ _ ih hstep.1 hstep.2.1 hstep.2.2

/-- No way leads out of what is closed. -/
theorem not_of_closed (hclosed : ∀ x y, A x → adj x y → S x → S y → A y) (ha : A a)
    (hb : ¬ A b) : ¬ Within adj S a b :=
  fun h => hb (h.mem_of_closed hclosed ha)

/-- A way to somewhere else starts and ends in `S`. -/
theorem mem_of_ne (h : Within adj S a b) (hne : a ≠ b) : S a ∧ S b := by
  unfold Within at h
  constructor
  · rcases Relation.ReflTransGen.cases_head h with rfl | ⟨x, hx, -⟩
    · exact absurd rfl hne
    · exact hx.2.1
  · rcases Relation.ReflTransGen.cases_tail h with rfl | ⟨x, -, hx⟩
    · exact absurd rfl hne
    · exact hx.2.2

end Within

/-! ## A vertex that separates nothing -/

section Connected

variable (hsymm : ∀ {a b}, adj a b → adj b a) (hall : ∀ a b, Within adj (fun _ => True) a b)

include hall in
/-- What has no step out of it holds all vertices. -/
theorem exists_step_out (ha : A a) (hb : ¬ A b) : ∃ x y, A x ∧ ¬ A y ∧ adj x y := by
  by_contra hnone
  refine Within.not_of_closed ?_ ha hb (hall a b)
  intro x y hx hxy _ _
  by_contra hy
  exact hnone ⟨x, y, hx, hy, hxy⟩

include hsymm hall

open Classical in
/-- A part of one side of `c`, with `c`, grows until one vertex is missing. -/
theorem exists_last [Fintype V] {side : V → Prop} (hside : ∀ x y, side x → adj x y → y = c ∨ side y)
    (grown : Finset V) (hc : c ∈ grown) (hjoined : ∀ x ∈ grown, Within adj (· ∈ grown) c x)
    (hleft : ∃ x, side x ∧ x ∉ grown) :
    ∃ r, r ≠ c ∧ side r ∧ ∀ x, side x → x ≠ r → Within adj (· ≠ r) c x := by
  induction hk : grownᶜ.card using Nat.strong_induction_on generalizing grown with
  | h k ih =>
    -- a step leads from what is left of the side to the part
    rcases hleft with ⟨z, hz, hzg⟩
    have hstep : ∃ y x, (side y ∧ y ∉ grown) ∧ x ∈ grown ∧ adj y x := by
      have hcout : ¬ (side c ∧ c ∉ grown) := fun h => h.2 hc
      rcases exists_step_out (A := fun x => side x ∧ x ∉ grown) hall ⟨hz, hzg⟩ hcout with
        ⟨y, x, hy, hx, hyx⟩
      refine ⟨y, x, hy, ?_, hyx⟩
      by_contra hxg
      rcases hside y x hy.1 hyx with rfl | hxs
      · exact hxg hc
      · exact hx ⟨hxs, hxg⟩
    rcases hstep with ⟨y, x, ⟨hys, hyg⟩, hxg, hyx⟩
    have hyc : y ≠ c := fun he => hyg (he ▸ hc)
    have hsub : ∀ w, w ∈ grown → w ∈ insert y grown := fun _ => Finset.mem_insert_of_mem
    by_cases hmore : ∃ x, side x ∧ x ∉ insert y grown
    · have hjoined' : ∀ w ∈ insert y grown, Within adj (· ∈ insert y grown) c w := by
        intro w hw
        rcases Finset.mem_insert.mp hw with rfl | hw
        · have hlast : Within adj (· ∈ insert w grown) x w :=
            .step (hsymm hyx) (hsub x hxg) (Finset.mem_insert_self _ _)
          exact ((hjoined x hxg).mono hsub).trans hlast
        · exact (hjoined w hw).mono hsub
      have hless : (insert y grown)ᶜ.card < k := by
        rw [← hk]
        refine Finset.card_lt_card ((Finset.compl_ssubset_compl).mpr ?_)
        exact Finset.ssubset_insert hyg
      exact ih _ hless (insert y grown) (hsub c hc) hjoined' hmore rfl
    · refine ⟨y, hyc, hys, ?_⟩
      intro w hw hwy
      have hwg : w ∈ grown := by
        by_contra hno
        refine hmore ⟨w, hw, ?_⟩
        rw [Finset.mem_insert]
        exact fun h => h.elim hwy hno
      exact (hjoined w hwg).mono fun v hv he => hyg (he ▸ hv)

/-- On every side of a vertex there is one that separates nothing. -/
theorem exists_not_separating [Fintype V] (hbc : b ≠ c) :
    ∃ r, r ≠ c ∧ Within adj (· ≠ c) b r ∧ ∀ x y, x ≠ r → y ≠ r → Within adj (· ≠ r) x y := by
  have hside : ∀ x y, (x ≠ c ∧ Within adj (· ≠ c) b x) → adj x y →
      y = c ∨ (y ≠ c ∧ Within adj (· ≠ c) b y) := by
    intro x y hx hxy
    by_cases hy : y = c
    · exact Or.inl hy
    · exact Or.inr ⟨hy, hx.2.trans (.step hxy hx.1 hy)⟩
  have hstart : ∀ x ∈ ({c} : Finset V), Within adj (· ∈ ({c} : Finset V)) c x := by
    intro x hx
    rw [Finset.mem_singleton.mp hx]
    exact .refl c
  rcases exists_last hsymm hall hside {c} (Finset.mem_singleton_self c) hstart
    ⟨b, ⟨hbc, .refl b⟩, fun h => hbc (Finset.mem_singleton.mp h)⟩ with ⟨r, hrc, ⟨-, hbr⟩, hrest⟩
  refine ⟨r, hrc, hbr, ?_⟩
  -- the other sides of `c` are joined to it without `r`
  have hto : ∀ x, x ≠ r → Within adj (· ≠ r) c x := by
    intro x hxr
    by_contra hno
    have hxc : x ≠ c := by
      rintro rfl
      exact hno (.refl x)
    have hxside : ¬ Within adj (· ≠ c) b x := fun h => hno (hrest x ⟨hxc, h⟩ hxr)
    refine Within.not_of_closed (A := fun y => y ≠ c ∧ ¬ Within adj (· ≠ c) b y ∧
      ¬ Within adj (· ≠ r) c y) ?_ ⟨hxc, hxside, hno⟩ (fun h => h.1 rfl) (hall x c)
    rintro y z ⟨hyc, hyside, hyno⟩ hyz - -
    have hyr : y ≠ r := by
      rintro rfl
      exact hyside hbr
    have hzc : z ≠ c := by
      rintro rfl
      exact hyno (.step (hsymm hyz) hrc.symm hyr)
    have hzside : ¬ Within adj (· ≠ c) b z := fun h =>
      hyside (h.trans (.step (hsymm hyz) hzc hyc))
    have hzr : z ≠ r := by
      rintro rfl
      exact hzside hbr
    exact ⟨hzc, hzside, fun h => hyno (h.trans (.step (hsymm hyz) hzr hyr))⟩
  intro x y hx hy
  exact ((hto x hx).symm hsymm).trans (hto y hy)

/-- With a third vertex on the side of `a`, one that separates nothing leaves some of it. -/
theorem exists_pair_of_side [Fintype V] (hac : a ≠ c) (hbc : b ≠ c) (hdc : d ≠ c) (hda : d ≠ a)
    (had : Within adj (· ≠ c) a d) (hab : ¬ Within adj (· ≠ c) a b) :
    ∃ r x y, r ≠ c ∧ x ≠ r ∧ x ≠ c ∧ y ≠ r ∧ y ≠ c ∧
      (∀ z w, z ≠ r → w ≠ r → Within adj (· ≠ r) z w) ∧ ¬ Within adj (· ≠ c) x y := by
  rcases exists_not_separating hsymm hall hac with ⟨r, hrc, har, hr⟩
  have hbr : b ≠ r := fun he => hab (he ▸ har)
  by_cases hra : r = a
  · refine ⟨r, d, b, hrc, hra ▸ hda, hdc, hbr, hbc, hr, ?_⟩
    exact fun h => hab (had.trans h)
  · exact ⟨r, a, b, hrc, fun he => hra he.symm, hac, hbr, hbc, hr, hab⟩

/-- If two vertices separate others, so do two of which one separates nothing by itself. -/
theorem exists_pair_of_separated [Fintype V] {u v : V} (huv : u ≠ v) (hau : a ≠ u) (hav : a ≠ v)
    (hbu : b ≠ u) (hbv : b ≠ v) (hab : ¬ Within adj (fun x => x ≠ u ∧ x ≠ v) a b) :
    ∃ r c x y, r ≠ c ∧ x ≠ r ∧ x ≠ c ∧ y ≠ r ∧ y ≠ c ∧
      (∀ z w, z ≠ r → w ≠ r → Within adj (· ≠ r) z w) ∧
      ¬ Within adj (fun z => z ≠ r ∧ z ≠ c) x y := by
  by_cases hu : ∀ z w, z ≠ u → w ≠ u → Within adj (· ≠ u) z w
  · exact ⟨u, v, a, b, huv, hau, hav, hbu, hbv, hu, hab⟩
  · -- `u` separates others by itself, and there is a third vertex beside those
    push Not at hu
    rcases hu with ⟨z, w, hzu, hwu, hzw⟩
    have hab' : a ≠ b := by
      rintro rfl
      exact hab (.refl a)
    have hthird : ∃ d, d ≠ u ∧ d ≠ z ∧ d ≠ w := by
      by_contra hnone
      push Not at hnone
      -- three vertices have no room in two
      have htwo : ∀ x, x ≠ u → x = z ∨ x = w := fun x hx => or_iff_not_imp_left.mpr (hnone x hx)
      have ha := htwo a hau
      have hb := htwo b hbu
      have hv := htwo v huv.symm
      clear hab hzw hnone htwo
      grind
    rcases hthird with ⟨d, hdu, hdz, hdw⟩
    have hpair : ∃ r x y, r ≠ u ∧ x ≠ r ∧ x ≠ u ∧ y ≠ r ∧ y ≠ u ∧
        (∀ z w, z ≠ r → w ≠ r → Within adj (· ≠ r) z w) ∧ ¬ Within adj (· ≠ u) x y := by
      by_cases hzd : Within adj (· ≠ u) z d
      · exact exists_pair_of_side hsymm hall hzu hwu hdu hdz hzd hzw
      · by_cases hwd : Within adj (· ≠ u) w d
        · refine exists_pair_of_side hsymm hall hwu hzu hdu hdw hwd ?_
          exact fun h => hzw (h.symm hsymm)
        · rcases exists_not_separating hsymm hall hdu with ⟨r, hru, hdr, hr⟩
          refine ⟨r, z, w, hru, ?_, hzu, ?_, hwu, hr, hzw⟩
          · rintro rfl
            exact hzd (hdr.symm hsymm)
          · rintro rfl
            exact hwd (hdr.symm hsymm)
    rcases hpair with ⟨r, x, y, hru, hxr, hxu, hyr, hyu, hr, hxy⟩
    exact ⟨r, u, x, y, hru, hxr, hxu, hyr, hyu, hr, fun h => hxy (h.mono fun _ hz => hz.2)⟩

end Connected

end PittCs.Lib.Separation
