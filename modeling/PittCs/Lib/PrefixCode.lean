import Mathlib.InformationTheory.Coding.KraftMcMillan

/-!
# Prefix-free binary codes

The Kraft sum of a list of code lengths, its bound for prefix-free codes, and the
exchange argument on lengths: among items of given weights the two lightest may take
the two greatest lengths, these may be made equal, and two items of equal length may
be merged into one that is a bit shorter (`exists_merge`). No step raises the cost or
the Kraft sum above one.
-/

namespace PittCs.Lib.PrefixCode

open InformationTheory List

universe u v

variable {α : Type u} {β : Type v}

/-- No code word is a prefix of another letter's. -/
def PrefixFree (letters : List α) (code : α → List β) : Prop :=
  ∀ a ∈ letters, ∀ b ∈ letters, a ≠ b → ¬ code a <+: code b

/-- A set of words in which no word is a prefix of another, and none is empty. -/
theorem uniquelyDecodable_of_prefix_eq {S : Set (List β)} (hnil : [] ∉ S)
    (hS : ∀ u ∈ S, ∀ v ∈ S, u <+: v → u = v) : UniquelyDecodable S := by
  intro L₁
  induction L₁ with
  | nil =>
    intro L₂ _ h₂ hflat
    cases L₂ with
    | nil => rfl
    | cons v L₂ =>
      have hv : v = [] := (append_eq_nil_iff.mp hflat.symm).1
      exact absurd (hv ▸ h₂ v mem_cons_self) hnil
  | cons u L₁ ih =>
    intro L₂ h₁ h₂ hflat
    have hu := h₁ u mem_cons_self
    cases L₂ with
    | nil =>
      have hu' : u = [] := (append_eq_nil_iff.mp hflat).1
      exact absurd (hu' ▸ hu) hnil
    | cons v L₂ =>
      have hv := h₂ v mem_cons_self
      rw [flatten_cons, flatten_cons] at hflat
      -- both first words are prefixes of the same word, so one is a prefix of the other
      have huv : u = v := by
        rcases prefix_or_prefix_of_prefix (prefix_append u L₁.flatten)
          (hflat ▸ prefix_append v L₂.flatten) with hpre | hpre
        · exact hS u hu v hv hpre
        · exact (hS v hv u hu hpre).symm
      subst huv
      rw [ih L₂ (fun w hw => h₁ w (mem_cons_of_mem _ hw))
        (fun w hw => h₂ w (mem_cons_of_mem _ hw)) (append_cancel_left hflat)]

/-- The Kraft sum of code lengths. -/
noncomputable def kraft (ls : List ℕ) : ℝ := (ls.map fun l => (1 / 2 : ℝ) ^ l).sum

@[simp] theorem kraft_nil : kraft [] = 0 := rfl

@[simp] theorem kraft_cons (l : ℕ) (ls : List ℕ) : kraft (l :: ls) = (1 / 2) ^ l + kraft ls := rfl

theorem kraft_nonneg (ls : List ℕ) : 0 ≤ kraft ls := by
  induction ls with
  | nil => exact le_rfl
  | cons l ls ih =>
    rw [kraft_cons]
    positivity

theorem kraft_perm {ls ls' : List ℕ} (h : ls.Perm ls') : kraft ls = kraft ls' :=
  (h.map _).sum_eq

/-- The lengths of a prefix-free code over at least two letters. -/
theorem kraft_le_one [Fintype β] [DecidableEq β] [Nonempty β] (hcard : Fintype.card β = 2)
    {letters : List α} (hnodup : letters.Nodup) (hlen : 2 ≤ letters.length) {code : α → List β}
    (hfree : PrefixFree letters code) : kraft (letters.map fun a => (code a).length) ≤ 1 := by
  have hinj : ∀ a ∈ letters, ∀ b ∈ letters, code a = code b → a = b := by
    intro a ha b hb heq
    by_contra hne
    exact hfree a ha b hb hne (heq ▸ prefix_rfl)
  have hwords : (letters.map code).Nodup := List.Nodup.map_on hinj hnodup
  -- a second letter rules out the empty word
  have hnil : [] ∉ letters.map code := by
    intro hmem
    obtain ⟨a, ha, hcode⟩ := mem_map.mp hmem
    obtain ⟨b, hb, hne⟩ : ∃ b ∈ letters, b ≠ a := by
      by_contra hall
      have hrep : ∀ b ∈ letters, b = a := fun b hb => by
        by_contra hne
        exact hall ⟨b, hb, hne⟩
      have hsub := eq_replicate_of_mem hrep
      rw [hsub] at hnodup
      have hle := nodup_replicate.mp hnodup
      omega
    exact hfree a ha b hb hne.symm (by rw [hcode]; exact nil_prefix)
  have hud : UniquelyDecodable ((letters.map code).toFinset : Set (List β)) := by
    refine uniquelyDecodable_of_prefix_eq (by simpa using hnil) ?_
    intro u hu v hv hpre
    simp only [coe_toFinset, Set.mem_ofPred_eq, mem_map] at hu hv
    obtain ⟨a, ha, rfl⟩ := hu
    obtain ⟨b, hb, rfl⟩ := hv
    by_contra hne
    exact hfree a ha b hb (fun hab => hne (hab ▸ rfl)) hpre
  have hkraft := kraft_mcmillan_inequality hud
  rw [sum_toFinset _ hwords, hcard] at hkraft
  simpa [kraft, Function.comp_def] using hkraft

/-! ## Exchanging and merging lengths -/

section Exchange

variable {ι : Type u} (wt : ι → ℕ)

/-- The weighted sum of lengths. -/
def cost (ps : List (ι × ℕ)) : ℕ := (ps.map fun p => wt p.1 * p.2).sum

@[simp] theorem cost_nil : cost wt [] = 0 := rfl

@[simp] theorem cost_cons (p : ι × ℕ) (ps : List (ι × ℕ)) :
    cost wt (p :: ps) = wt p.1 * p.2 + cost wt ps := rfl

theorem cost_perm {ps ps' : List (ι × ℕ)} (h : ps.Perm ps') : cost wt ps = cost wt ps' :=
  (h.map _).sum_eq

variable {wt}

/-- The lengths can be exchanged so that the lightest item gets the greatest one. -/
theorem exists_longest_first (x : ι) (l : ℕ) (ps : List (ι × ℕ))
    (hx : ∀ p ∈ ps, wt x ≤ wt p.1) :
    ∃ l' ps', ps'.map Prod.fst = ps.map Prod.fst ∧
      (l' :: ps'.map Prod.snd).Perm (l :: ps.map Prod.snd) ∧ (∀ p ∈ ps', p.2 ≤ l') ∧
      wt x * l' + cost wt ps' ≤ wt x * l + cost wt ps := by
  induction ps generalizing l with
  | nil => exact ⟨l, [], rfl, .refl _, nofun, le_rfl⟩
  | cons p ps ih =>
    have hxp := hx p mem_cons_self
    have hxs := fun p hp => hx p (mem_cons_of_mem _ hp)
    rcases le_total p.2 l with hle | hle
    · obtain ⟨l', ps', hfst, hperm, hmax, hcost⟩ := ih l hxs
      refine ⟨l', p :: ps', by simp [hfst], ?_, ?_, ?_⟩
      · exact (List.Perm.swap _ _ _).trans ((hperm.cons p.2).trans (List.Perm.swap _ _ _))
      · intro p' hp'
        rcases mem_cons.mp hp' with rfl | hp'
        · have hmem : l ∈ l' :: ps'.map Prod.snd := hperm.mem_iff.mpr mem_cons_self
          rcases mem_cons.mp hmem with rfl | hmem
          · exact hle
          · obtain ⟨p'', hp'', rfl⟩ := mem_map.mp hmem
            exact hle.trans (hmax p'' hp'')
        · exact hmax p' hp'
      · rw [cost_cons, cost_cons]
        omega
    · -- the item takes the length of `x`
      obtain ⟨l', ps', hfst, hperm, hmax, hcost⟩ := ih p.2 hxs
      -- giving the greater length to the lighter item does not raise the cost
      have hexch := mul_add_mul_le_mul_add_mul hxp hle
      refine ⟨l', (p.1, l) :: ps', by simp [hfst], ?_, ?_, ?_⟩
      · exact (List.Perm.swap _ _ _).trans (hperm.cons l)
      · intro p' hp'
        rcases mem_cons.mp hp' with rfl | hp'
        · have hmem : p.2 ∈ l' :: ps'.map Prod.snd := hperm.mem_iff.mpr mem_cons_self
          rcases mem_cons.mp hmem with heq | hmem
          · exact hle.trans heq.le
          · obtain ⟨p'', hp'', heq⟩ := mem_map.mp hmem
            exact hle.trans (heq ▸ hmax p'' hp'')
        · exact hmax p' hp'
      · rw [cost_cons, cost_cons]
        dsimp only
        omega

/-- A Kraft sum in units of the greatest length. -/
theorem kraft_mul_pow {ls : List ℕ} {n : ℕ} (h : ∀ l ∈ ls, l ≤ n) :
    kraft ls * 2 ^ n = ((ls.map fun l => 2 ^ (n - l)).sum : ℕ) := by
  induction ls with
  | nil => simp
  | cons l ls ih =>
    have hl := h l mem_cons_self
    have hpow : (1 / 2 : ℝ) ^ l * 2 ^ n = 2 ^ (n - l) := by
      rw [one_div, inv_pow, inv_mul_eq_iff_eq_mul₀ (by positivity), ← pow_add]
      congr 1
      omega
    rw [kraft_cons, add_mul, hpow, ih fun l' hl' => h l' (mem_cons_of_mem _ hl')]
    push_cast [map_cons, sum_cons]
    rfl

theorem kraft_le_one_iff {ls : List ℕ} {n : ℕ} (h : ∀ l ∈ ls, l ≤ n) :
    kraft ls ≤ 1 ↔ (ls.map fun l => 2 ^ (n - l)).sum ≤ 2 ^ n := by
  have hpos : (0 : ℝ) < 2 ^ n := by positivity
  rw [← mul_le_mul_iff_left₀ hpos, kraft_mul_pow h, one_mul]
  exact_mod_cast Iff.rfl

/-- If one length is greater than all others, it can be cut to the next one: in units
of that length all other terms are even, and so the sum is below the bound. -/
theorem kraft_cut {l m : ℕ} {ls : List ℕ} (hlm : m ≤ l) (hls : ∀ k ∈ ls, k ≤ m)
    (h : kraft (l :: m :: ls) ≤ 1) : kraft (m :: m :: ls) ≤ 1 := by
  rcases Nat.eq_or_lt_of_le hlm with rfl | hlt
  · exact h
  · have hbig : ∀ k ∈ l :: m :: ls, k ≤ l := by
      intro k hk
      simp only [mem_cons] at hk
      rcases hk with rfl | rfl | hk
      · exact le_rfl
      · exact hlm
      · exact (hls k hk).trans hlm
    have hsmall : ∀ k ∈ m :: m :: ls, k ≤ m := by
      intro k hk
      simp only [mem_cons] at hk
      rcases hk with rfl | rfl | hk
      · exact le_rfl
      · exact le_rfl
      · exact hls k hk
    rw [kraft_le_one_iff hbig] at h
    rw [kraft_le_one_iff hsmall]
    obtain ⟨d, rfl⟩ := Nat.exists_eq_add_of_lt hlt
    -- the other terms are multiples of `2 ^ (d + 1)`
    have hscale : ∀ ks : List ℕ, (∀ k ∈ ks, k ≤ m) →
        (ks.map fun k => 2 ^ (m + d + 1 - k)).sum =
          2 ^ (d + 1) * (ks.map fun k => 2 ^ (m - k)).sum := by
      intro ks hks
      induction ks with
      | nil => simp
      | cons k ks ih =>
        have hk := hks k mem_cons_self
        rw [map_cons, map_cons, sum_cons, sum_cons, mul_add, ← pow_add,
          ih fun k' hk' => hks k' (mem_cons_of_mem _ hk')]
        congr 2
        omega
    have htail : ∀ k ∈ m :: ls, k ≤ m := fun k hk => hsmall k (mem_cons_of_mem _ hk)
    rw [map_cons, sum_cons, hscale (m :: ls) htail, Nat.sub_self, pow_zero] at h
    rw [map_cons, sum_cons, Nat.sub_self, pow_zero]
    have hbound : (2 : ℕ) ^ (m + d + 1) = 2 ^ (d + 1) * 2 ^ m := by
      rw [← pow_add]
      congr 1
      omega
    rw [hbound] at h
    have hlt' : ((m :: ls).map fun k => 2 ^ (m - k)).sum < 2 ^ m :=
      lt_of_mul_lt_mul_left (Nat.lt_of_succ_le (by omega)) (Nat.zero_le (2 ^ (d + 1)))
    omega

/-- Two equal lengths can be merged into one that is shorter by one. -/
theorem kraft_merge {m : ℕ} {ls : List ℕ} (h : kraft (m :: m :: ls) ≤ 1) :
    0 < m ∧ kraft ((m - 1) :: ls) ≤ 1 := by
  rw [kraft_cons, kraft_cons] at h
  have hnonneg := kraft_nonneg ls
  cases m with
  | zero =>
    rw [pow_zero] at h
    linarith
  | succ m =>
    refine ⟨Nat.succ_pos m, ?_⟩
    rw [kraft_cons, Nat.add_sub_cancel]
    rw [pow_succ] at h
    linarith

/-- The exchange argument: the two lightest items are merged into one of their joint
weight, at a saving of that weight. -/
theorem exists_merge {x y : ι} {lx ly : ℕ} {ps : List (ι × ℕ)} (hxy : wt x ≤ wt y)
    (hy : ∀ p ∈ ps, wt y ≤ wt p.1) (h : kraft (lx :: ly :: ps.map Prod.snd) ≤ 1) :
    ∃ l ps', ps'.map Prod.fst = ps.map Prod.fst ∧ kraft (l :: ps'.map Prod.snd) ≤ 1 ∧
      (wt x + wt y) * l + (wt x + wt y) + cost wt ps' ≤
        wt x * lx + wt y * ly + cost wt ps := by
  -- the lightest item gets the greatest length
  have hx : ∀ p ∈ (y, ly) :: ps, wt x ≤ wt p.1 := by
    intro p hp
    rcases mem_cons.mp hp with rfl | hp
    · exact hxy
    · exact hxy.trans (hy p hp)
  obtain ⟨l₁, qs, hfst, hperm₁, hmax₁, hcost₁⟩ := exists_longest_first x lx ((y, ly) :: ps) hx
  obtain ⟨m, qs, rfl, hqs⟩ : ∃ m qs', qs = (y, m) :: qs' ∧
      qs'.map Prod.fst = ps.map Prod.fst := by
    cases qs with
    | nil => cases hfst
    | cons q qs =>
      obtain ⟨hq, hqs⟩ := List.cons.inj hfst
      exact ⟨q.2, qs, by rw [← show q.1 = y from hq], hqs⟩
  -- the next one gets the greatest of the others
  have hyq : ∀ p ∈ qs, wt y ≤ wt p.1 := by
    intro p hp
    have hmem : p.1 ∈ qs.map Prod.fst := mem_map_of_mem hp
    rw [hqs] at hmem
    obtain ⟨p', hp', heq⟩ := mem_map.mp hmem
    exact heq ▸ hy p' hp'
  obtain ⟨l₂, rs, hrs, hperm₂, hmax₂, hcost₂⟩ := exists_longest_first y m qs hyq
  have hle : l₂ ≤ l₁ := by
    have hmem : l₂ ∈ m :: qs.map Prod.snd := hperm₂.mem_iff.mp mem_cons_self
    rcases mem_cons.mp hmem with rfl | hmem
    · exact hmax₁ (y, l₂) mem_cons_self
    · obtain ⟨p, hp, rfl⟩ := mem_map.mp hmem
      exact hmax₁ p (mem_cons_of_mem _ hp)
  have hkraft : kraft (l₁ :: l₂ :: rs.map Prod.snd) ≤ 1 := by
    rw [kraft_perm ((hperm₂.cons l₁).trans hperm₁)]
    exact h
  have hrest : ∀ k ∈ rs.map Prod.snd, k ≤ l₂ := by
    intro k hk
    obtain ⟨p, hp, rfl⟩ := mem_map.mp hk
    exact hmax₂ p hp
  have hcut := kraft_cut hle hrest hkraft
  obtain ⟨hpos, hmerge⟩ := kraft_merge hcut
  refine ⟨l₂ - 1, rs, hrs.trans hqs, hmerge, ?_⟩
  have hxl : wt x * l₂ ≤ wt x * l₁ := Nat.mul_le_mul_left _ hle
  have hsplit : (wt x + wt y) * (l₂ - 1) + (wt x + wt y) = wt x * l₂ + wt y * l₂ := by
    obtain ⟨k, rfl⟩ := Nat.exists_eq_succ_of_ne_zero hpos.ne'
    rw [Nat.succ_sub_one, Nat.mul_succ, Nat.mul_succ, Nat.add_mul]
    omega
  rw [cost_cons, cost_cons] at hcost₁
  dsimp only at hcost₁
  omega

end Exchange

end PittCs.Lib.PrefixCode
