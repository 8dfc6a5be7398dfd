import PittCs.Cs1699.Huffman
import PittCs.Lib.PrefixCode

/-!
# Round trip of the Huffman code

Decoding what `toHuffmanCode` returns gives the word without its `NUL` characters:
the search for `NUL` stops at the marker of the root, so that its code word is empty.
The round trip therefore holds exactly for the words without `NUL`.
-/

namespace PittCs.Cs1699

open BTree List PittCs.Lib.PrefixCode Function

/-- The code word of a letter. -/
def codeOf (tree : HTree) (c : HChar) : List HBit := (encodeLetter c tree).getD []

theorem mapM_eq_some_map {α β : Type*} {f : α → Option β} {g : α → β} {l : List α}
    (h : ∀ a ∈ l, f a = some (g a)) : l.mapM f = some (l.map g) := by
  induction l with
  | nil => rfl
  | cons a l ih =>
    rw [mapM_cons, h a mem_cons_self, ih fun b hb => h b (mem_cons_of_mem a hb)]
    rfl

/-- The code of a word is that of its letters, one after the other. -/
theorem encodeWord_eq {tree : HTree} {w : HString}
    (h : ∀ c ∈ w, (encodeLetter c tree).isSome = true) :
    encodeWord tree w = some (w.flatMap (codeOf tree)) := by
  have hmap : (w.mapM fun c => encodeLetter c tree) = some (w.map (codeOf tree)) := by
    refine mapM_eq_some_map fun c hc => ?_
    obtain ⟨bits, hbits⟩ := Option.isSome_iff_exists.mp (h c hc)
    simp [codeOf, hbits]
  rw [encodeWord, hmap, Option.map_some, foldl_map, foldl_append_eq_append, nil_append, flatMap]

/-! ## Decoding -/

/-- The clause for an inner node. -/
theorem decodeWord_inner {root l r : HTree} (h : ¬ (l = emptyBTree ∧ r = emptyBTree)) (fuel : Nat)
    (y : HChar × Nat) (x : HBit) (xs : List HBit) :
    decodeWord root (fuel + 1) (bTree y l r) (x :: xs) =
      if x = .L then decodeWord root fuel l xs else decodeWord root fuel r xs := by
  cases l with
  | emptyBTree =>
    cases r with
    | emptyBTree => exact absurd ⟨rfl, rfl⟩ h
    | bTree _ _ _ => simp [decodeWord]
  | bTree _ _ _ => simp [decodeWord]

/-- One code word: the letter, and then the rest from the root. -/
theorem decodeWord_leads {root curr : HTree} {bits : List HBit} {c : HChar}
    (h : Leads curr bits c) (rest : List HBit) (fuel : Nat) :
    decodeWord root (fuel + bits.length + 1) curr (bits ++ rest) =
      if rest = [] then some [c] else (decodeWord root fuel root rest).map (c :: ·) := by
  induction bits generalizing curr with
  | nil =>
    obtain ⟨n, hn⟩ := h
    obtain rfl : curr = bTree (c, n) emptyBTree emptyBTree := by simpa [follow] using hn
    cases rest with
    | nil | cons x xs => simp [decodeWord]
  | cons b bits ih =>
    obtain ⟨n, hn⟩ := h
    cases curr with
    | emptyBTree => cases hn
    | bTree y l r =>
      -- a leaf leads nowhere
      have hinner : ¬ (l = emptyBTree ∧ r = emptyBTree) := by
        rintro ⟨rfl, rfl⟩
        cases bits <;> simp [follow] at hn
      rw [cons_append, length_cons, ← Nat.add_assoc, decodeWord_inner hinner]
      unfold follow at hn
      split at hn
      case isTrue hb =>
        rw [if_pos hb]
        exact ih ⟨n, hn⟩
      case isFalse hb =>
        rw [if_neg hb]
        exact ih ⟨n, hn⟩

/-- A word of letters whose code words lead to their leaves. -/
theorem decodeWord_flatMap {root : HTree} {code : HChar → List HBit} {cs : HString}
    (h : ∀ c ∈ cs, code c ≠ [] ∧ Leads root (code c) c) (hne : cs ≠ []) {fuel : Nat}
    (hfuel : 2 * (cs.flatMap code).length ≤ fuel) :
    decodeWord root fuel root (cs.flatMap code) = some cs := by
  induction cs generalizing fuel with
  | nil => exact absurd rfl hne
  | cons c cs ih =>
    obtain ⟨hcode, hleads⟩ := h c mem_cons_self
    have hpos : 0 < (code c).length := length_pos_of_ne_nil hcode
    rw [flatMap_cons, length_append] at hfuel
    obtain ⟨f, rfl⟩ : ∃ f, fuel = f + (code c).length + 1 :=
      ⟨fuel - (code c).length - 1, by omega⟩
    rw [flatMap_cons, decodeWord_leads hleads]
    cases cs with
    | nil => simp
    | cons c' cs =>
      have hrest : (c' :: cs).flatMap code ≠ [] := by
        have hc' := (h c' (by simp)).1
        simp [hc']
      rw [if_neg hrest, ih (fun a ha => h a (mem_cons_of_mem c ha)) (by simp) (by omega)]
      rfl

/-! ## The tree of a word -/

/-- What the round trip needs of the tree. -/
structure ReadsBack (w : HString) (tree : HTree) : Prop where
  letter : ∀ c ∈ w, c ≠ NUL → codeOf tree c ≠ [] ∧ encodeLetter c tree = some (codeOf tree c) ∧
    Leads tree (codeOf tree c) c
  marker : encodeLetter NUL tree = some []
  inner : ∃ x l r, tree = bTree x l r ∧ l ≠ emptyBTree

/-- Letters with their leaves at the end of their code words, below a root of their own. -/
theorem readsBack_of_forall {w : HString} {n : Nat} {l r : HTree} (hl : l ≠ emptyBTree)
    (h : ∀ c ∈ w, c ≠ NUL →
      ∃ bits, encodeLetter c (bTree (NUL, n) l r) = some bits ∧ Leads (bTree (NUL, n) l r) bits c) :
    ReadsBack w (bTree (NUL, n) l r) := by
  refine ⟨fun c hc hnul => ?_, by simp [encodeLetter], ⟨_, l, r, rfl, hl⟩⟩
  obtain ⟨bits, henc, k, hk⟩ := h c hc hnul
  have hcode : codeOf (bTree (NUL, n) l r) c = bits := by simp [codeOf, henc]
  rw [hcode]
  refine ⟨?_, henc, k, hk⟩
  rintro rfl
  exact hl (by cases hk; rfl)

theorem exists_readsBack {w : HString} (hw : w ≠ []) :
    ∃ tree, collapseTrees (initTrees w) = some tree ∧ ReadsBack w tree := by
  have hcounts := countsOf_charCounts w
  by_cases hlen : 2 ≤ (charCounts w).length
  · obtain ⟨l, r, heq, hl, hr, hperm⟩ := exists_collapseTrees_initTrees hlen
    refine ⟨_, heq, readsBack_of_forall hl.ne_empty fun c hc hnul => ?_⟩
    refine exists_encodeLetter (.inner hl hr) hnul ?_
    rw [letters, (hperm.map Prod.fst).mem_iff, hcounts.mem]
    exact hc
  · -- one letter, below the artificial root
    obtain ⟨c₀, hc₀⟩ := exists_mem_of_ne_nil w hw
    have hmem := (hcounts.mem c₀).mpr hc₀
    obtain ⟨x, hx⟩ : ∃ x, charCounts w = [x] := by
      rw [← length_eq_one_iff]
      have hpos := length_pos_of_mem (mem_map.mp hmem).choose_spec.1
      omega
    have hne : bTree x emptyBTree emptyBTree ≠ emptyBTree := by
      intro h
      cases h
    refine ⟨_, collapseTrees_initTrees_single hx, readsBack_of_forall hne fun c hc hnul => ?_⟩
    have hcx : x.1 = c := by
      have hcx := (hcounts.mem c).mpr hc
      rw [hx] at hcx
      simpa [eq_comm] using hcx
    refine ⟨[.L], ?_, x.2, ?_⟩
    · simp [encodeLetter, containsLetter, hcx, Ne.symm hnul]
    · simp [follow, ← hcx]

namespace ReadsBack

variable {w : HString} {tree : HTree}

theorem codeOf_NUL (h : ReadsBack w tree) : codeOf tree NUL = [] := by simp [codeOf, h.marker]

theorem encodeWord_eq (h : ReadsBack w tree) :
    encodeWord tree w = some (w.flatMap (codeOf tree)) := by
  refine PittCs.Cs1699.encodeWord_eq fun c hc => ?_
  by_cases hnul : c = NUL
  · simp [hnul, h.marker]
  · simp [(h.letter c hc hnul).2.1]

/-- `NUL` leaves no trace in the code. -/
theorem flatMap_filter (h : ReadsBack w tree) :
    (w.filter (· ≠ NUL)).flatMap (codeOf tree) = w.flatMap (codeOf tree) := by
  have hnul := h.codeOf_NUL
  clear h
  induction w with
  | nil => rfl
  | cons c w ih =>
    by_cases hc : c = NUL
    · subst hc
      simpa [hnul] using ih
    · simpa [hc] using ih

/-- Decoding gives the word without `NUL`, and an error if nothing is left. -/
theorem decodeWord_eq (h : ReadsBack w tree) :
    decodeWord tree (2 * (w.flatMap (codeOf tree)).length + 1) tree (w.flatMap (codeOf tree)) =
      if w.filter (· ≠ NUL) = [] then none else some (w.filter (· ≠ NUL)) := by
  rw [← h.flatMap_filter]
  split
  case isTrue hnil =>
    obtain ⟨x, l, r, rfl, hl⟩ := h.inner
    rw [hnil]
    cases l with
    | emptyBTree => exact absurd rfl hl
    | bTree _ _ _ => simp [decodeWord]
  case isFalse hne =>
    refine decodeWord_flatMap (fun c hc => ?_) hne (Nat.le_succ _)
    obtain ⟨hmem, hnul⟩ := mem_filter.mp hc
    obtain ⟨hcode, _, hleads⟩ := h.letter c hmem (of_decide_eq_true hnul)
    exact ⟨hcode, hleads⟩

end ReadsBack

/-- The round trip holds exactly for the words without `NUL`, for any `show` and `read`
that agree on the tree and the code of the word. -/
theorem fromHuffmanCode_toHuffmanCode_iff (showTree : HTree → HString)
    (readTree : HString → Option HTree) (showCode : List HBit → HString)
    (readCode : HString → Option (List HBit)) {w : HString} (hw : w ≠ [])
    (htree : ∀ t, collapseTrees (initTrees w) = some t → readTree (showTree t) = some t)
    (hcode : ∀ t c, collapseTrees (initTrees w) = some t → encodeWord t w = some c →
      readCode (showCode c) = some c) :
    ∃ t c, toHuffmanCode showTree showCode w = some (t, c) ∧
      (fromHuffmanCode readTree readCode t c = some w ↔ NUL ∉ w) := by
  obtain ⟨tree, hcollapse, h⟩ := exists_readsBack hw
  have henc := h.encodeWord_eq
  refine ⟨showTree tree, showCode (w.flatMap (codeOf tree)), ?_, ?_⟩
  · simp [toHuffmanCode, hcollapse, henc]
  · rw [fromHuffmanCode, htree tree hcollapse, Option.bind_some, hcode tree _ hcollapse henc,
      Option.bind_some, h.decodeWord_eq]
    constructor
    · intro heq hmem
      split at heq
      · cases heq
      · have hfilter := Option.some_inj.mp heq
        rw [← hfilter] at hmem
        exact absurd rfl (of_decide_eq_true (mem_filter.mp hmem).2)
    · intro hnot
      have hfilter : w.filter (· ≠ NUL) = w :=
        filter_eq_self.mpr fun c hc => decide_eq_true fun he => hnot (he ▸ hc)
      rw [hfilter, if_neg hw]

/-- The tree of `aab`. -/
def aabTree : HTree :=
  combine (bTree (98, 1) emptyBTree emptyBTree) (bTree (97, 2) emptyBTree emptyBTree)

/-- `show` of it. -/
def aabString : HString :=
  lit ("BTree ('\\NUL',3) (BTree ('b',1) EmptyBTree EmptyBTree) " ++
    "(BTree ('a',2) EmptyBTree EmptyBTree)")

theorem collapseTrees_aab : collapseTrees (initTrees (lit "aab")) = some aabTree := by
  have hinit : initTrees (lit "aab") = [bTree (98, 1) emptyBTree emptyBTree,
      bTree (97, 2) emptyBTree emptyBTree] := by decide +kernel
  rw [hinit, collapseTrees]
  rfl

/-- The round trip of `aab`. -/
theorem fromHuffmanCode_toHuffmanCode_aab :
    ∃ t c, toHuffmanCode (fun _ => aabString) (fun _ => lit "[R,R,L]") (lit "aab") = some (t, c) ∧
      fromHuffmanCode (fun _ => some aabTree) (fun _ => some [.R, .R, .L]) t c =
        some (lit "aab") := by
  have htree : ∀ t, collapseTrees (initTrees (lit "aab")) = some t → some aabTree = some t := by
    intro t ht
    rwa [collapseTrees_aab] at ht
  have hcode : ∀ t c, collapseTrees (initTrees (lit "aab")) = some t →
      encodeWord t (lit "aab") = some c → some [HBit.R, .R, .L] = some c := by
    intro t c ht hc
    cases htree t ht
    rw [← hc]
    decide +kernel
  obtain ⟨t, c, hto, hfrom⟩ := fromHuffmanCode_toHuffmanCode_iff (fun _ => aabString)
    (fun _ => some aabTree) (fun _ => lit "[R,R,L]") (fun _ => some [.R, .R, .L])
    (w := lit "aab") (by decide +kernel) htree hcode
  exact ⟨t, c, hto, hfrom.mpr (by decide +kernel)⟩

/-- The tree of the word of a single `NUL`. -/
def nulTree : HTree := bTree (NUL, 0) (bTree (NUL, 1) emptyBTree emptyBTree) emptyBTree

/-- `show` of it. -/
def nulString : HString :=
  lit "BTree ('\\NUL',0) (BTree ('\\NUL',1) EmptyBTree EmptyBTree) EmptyBTree"

/-- The word of a single `NUL` has an empty code, which does not decode. -/
theorem fromHuffmanCode_toHuffmanCode_NUL :
    ∃ t c, toHuffmanCode (fun _ => nulString) (fun _ => lit "[]") [NUL] = some (t, c) ∧
      fromHuffmanCode (fun _ => some nulTree) (fun _ => some []) t c ≠ some [NUL] := by
  have hcounts : charCounts [NUL] = [(NUL, 1)] := by decide
  refine ⟨nulString, lit "[]", ?_, by decide⟩
  rw [toHuffmanCode, collapseTrees_initTrees_single hcounts]
  rfl

/-!
## Optimality of the Huffman code

The length of the code of a word is the cost of its tree, the sum of the frequencies
of all nodes below the root. Each step of `collapseTrees` merges the two lightest
trees, which is what the exchange argument does to the lengths of an arbitrary
prefix-free code; so the cost of the tree is a lower bound (`treeCost_collapseTrees`).
-/

instance : Fintype HBit := ⟨{.L, .R}, fun x => by cases x <;> simp⟩

instance : Nonempty HBit := ⟨.L⟩

/-- The frequencies of all nodes below the root. -/
def treeCost : HTree → Nat
  | emptyBTree => 0
  | bTree _ l r => treeCost l + treeCost r + freq l + freq r

@[simp] theorem treeCost_leaf (x : HChar × Nat) :
    treeCost (bTree x emptyBTree emptyBTree) = 0 := rfl

@[simp] theorem treeCost_combine (l r : HTree) :
    treeCost (combine l r) = treeCost l + treeCost r + freq l + freq r := rfl

/-! ## The code of a tree -/

/-- Code words lead to different leaves. -/
theorem Leads.eq_of_isPrefix {t : HTree} {p q : List HBit} {c d : HChar} (hc : Leads t p c)
    (hd : Leads t q d) (hpre : p <+: q) : c = d := by
  obtain ⟨s, rfl⟩ := hpre
  obtain ⟨n, hn⟩ := hc
  obtain ⟨m, hm⟩ := hd
  induction p generalizing t with
  | nil =>
    obtain rfl : t = bTree (c, n) emptyBTree emptyBTree := by simpa [follow] using hn
    cases s with
    | nil =>
      simp only [append_nil, follow, Option.some_inj] at hm
      cases hm
      rfl
    | cons x xs =>
      -- nothing is below a leaf
      cases xs <;> simp [follow] at hm
  | cons b p ih =>
    cases t with
    | emptyBTree => cases hn
    | bTree y l r =>
      rw [cons_append] at hm
      unfold follow at hn hm
      split at hn
      case isTrue hb => exact ih hn (by rwa [if_pos hb] at hm)
      case isFalse hb => exact ih hn (by rwa [if_neg hb] at hm)

/-- The cost of a tree is the length of the code words, by frequency. -/
theorem sum_leaves_eq_treeCost {t : HTree} (h : IsHuffman t) (hnodup : (letters t).Nodup)
    (hnul : NUL ∉ letters t) :
    ((leaves t).map fun p => p.2 * (codeOf t p.1).length).sum = treeCost t := by
  induction h with
  | leaf x => simp [codeOf, encodeLetter]
  | @inner l r hl hr ihl ihr =>
    rw [letters_combine hl] at hnodup hnul
    obtain ⟨hndl, hndr, hdisj⟩ := nodup_append.mp hnodup
    rw [mem_append, not_or] at hnul
    have hne : ∀ p : HChar × Nat, p.1 ∈ letters l ++ letters r → p.1 ≠ NUL := by
      intro p hp he
      rw [he, mem_append] at hp
      exact hp.elim hnul.1 hnul.2
    have hleft : ∀ p ∈ leaves l, (codeOf (combine l r) p.1).length =
        (codeOf l p.1).length + 1 := by
      intro p hp
      have hmem : p.1 ∈ letters l := mem_map_of_mem hp
      have hnp := hne p (mem_append_left _ hmem)
      obtain ⟨bits, henc, _⟩ := exists_encodeLetter hl hnp hmem
      simp [codeOf, encodeLetter_combine hl hr hnp, hmem, henc]
    have hright : ∀ p ∈ leaves r, (codeOf (combine l r) p.1).length =
        (codeOf r p.1).length + 1 := by
      intro p hp
      have hmem : p.1 ∈ letters r := mem_map_of_mem hp
      have hnp := hne p (mem_append_right _ hmem)
      have hnl : p.1 ∉ letters l := fun hml => hdisj p.1 hml p.1 hmem rfl
      obtain ⟨bits, henc, _⟩ := exists_encodeLetter hr hnp hmem
      simp [codeOf, encodeLetter_combine hl hr hnp, hmem, hnl, henc]
    have hsum : ∀ (s : HTree), (∀ p ∈ leaves s, (codeOf (combine l r) p.1).length =
        (codeOf s p.1).length + 1) →
        ((leaves s).map fun p => p.2 * (codeOf (combine l r) p.1).length).sum =
          ((leaves s).map fun p => p.2 * (codeOf s p.1).length).sum +
            ((leaves s).map Prod.snd).sum := by
      intro s hs
      rw [← sum_map_add]
      refine congrArg List.sum (map_congr_left fun p hp => ?_)
      rw [hs p hp, Nat.mul_succ]
    rw [leaves_combine hl, map_append, sum_append, hsum l hleft, hsum r hright,
      ihl hndl hnul.1, ihr hndr hnul.2, ← freq_eq_sum hl, ← freq_eq_sum hr, treeCost_combine]
    omega

/-- A length by letters, counted over the word. -/
theorem length_flatMap_eq (w : HString) (code : HChar → List HBit) :
    (w.flatMap code).length =
      ((charCounts w).map fun p => p.2 * (code p.1).length).sum := by
  have hcounts := countsOf_charCounts w
  have hkeys : ((charCounts w).map Prod.fst).toFinset = w.toFinset := by
    ext c
    rw [List.mem_toFinset, List.mem_toFinset, hcounts.mem]
  have hmap : ((charCounts w).map fun p => p.2 * (code p.1).length) =
      ((charCounts w).map Prod.fst).map fun c => w.count c * (code c).length := by
    rw [List.map_map]
    refine map_congr_left fun p hp => ?_
    rw [hcounts.count p hp, charCount, comp_apply, count_eq_length_filter]
  rw [hmap, ← sum_toFinset _ hcounts.nodup, hkeys, length_flatMap,
    Finset.sum_list_map_count]
  simp

/-! ## The lower bound -/

/-- A rearrangement of the first components carries the pairs along. -/
theorem exists_perm_map_fst {α β : Type*} {ps : List (α × β)} {ts : List α}
    (h : ts.Perm (ps.map Prod.fst)) : ∃ qs : List (α × β), qs.Perm ps ∧ qs.map Prod.fst = ts := by
  induction ps generalizing ts with
  | nil => exact ⟨[], .refl _, by simpa using h.symm⟩
  | cons p ps ih =>
    rw [map_cons] at h
    obtain ⟨ts₁, ts₂, rfl⟩ := append_of_mem (h.mem_iff.mpr mem_cons_self)
    have hrest := (perm_middle.symm.trans h).cons_inv
    obtain ⟨qs, hperm, hqs⟩ := ih hrest
    obtain ⟨qs₁, qs₂, rfl, hq₁, hq₂⟩ := map_eq_append_iff.mp hqs
    exact ⟨qs₁ ++ p :: qs₂, perm_middle.trans (hperm.cons p), by simp [hq₁, hq₂]⟩

theorem pairwise_sortTrees (ts : List HTree) :
    (sortTrees ts).Pairwise fun x y => freq x ≤ freq y :=
  pairwise_insertionSort _ ts

theorem exists_eq_cons_cons {α β : Type*} {ps : List (α × β)} {x y : α} {ts : List α}
    (h : ps.map Prod.fst = x :: y :: ts) :
    ∃ l m qs, ps = (x, l) :: (y, m) :: qs ∧ qs.map Prod.fst = ts := by
  obtain ⟨⟨_, l⟩, ps, rfl, rfl, hps⟩ := map_eq_cons_iff.mp h
  obtain ⟨⟨_, m⟩, qs, rfl, rfl, hqs⟩ := map_eq_cons_iff.mp hps
  exact ⟨l, m, qs, rfl, hqs⟩

/-- No assignment of lengths with a Kraft sum of at most one is cheaper than the tree
that the sorted list collapses to. -/
theorem treeCost_collapseTrees {ts : List HTree} (hlen : 2 ≤ ts.length)
    (hsorted : ts.Pairwise fun x y => freq x ≤ freq y) {ps : List (HTree × ℕ)}
    (hps : ps.map Prod.fst = ts) (hkraft : kraft (ps.map Prod.snd) ≤ 1) :
    ∀ t ∈ collapseTrees ts, treeCost t ≤ cost freq ps + (ts.map treeCost).sum := by
  induction ts using collapseTrees.induct generalizing ps with
  | case1 | case2 x _ | case3 x _ => simp at hlen
  | case4 x y =>
    intro t ht
    rw [collapseTrees, Option.mem_def, Option.some_inj] at ht
    subst ht
    obtain ⟨lx, ly, qs, rfl, hqs⟩ := exists_eq_cons_cons hps
    obtain rfl : qs = [] := map_eq_nil_iff.mp hqs
    have hxy : freq x ≤ freq y := rel_of_pairwise_cons hsorted mem_cons_self
    obtain ⟨l, qs, hfst, _, hcost⟩ := exists_merge hxy (forall_mem_nil _) hkraft
    obtain rfl : qs = [] := map_eq_nil_iff.mp hfst
    rw [cost_cons, cost_cons, treeCost_combine]
    simp only [cost_nil, map_cons, map_nil, sum_cons, sum_nil] at hcost ⊢
    omega
  | case5 x y z xs ih =>
    intro t ht
    rw [collapseTrees] at ht
    obtain ⟨lx, ly, qs, rfl, hqs⟩ := exists_eq_cons_cons hps
    obtain ⟨hx, hrest⟩ := pairwise_cons.mp hsorted
    have hy : ∀ p ∈ qs, freq y ≤ freq p.1 := by
      intro p hp
      have hmem : p.1 ∈ qs.map Prod.fst := mem_map_of_mem hp
      rw [hqs] at hmem
      exact rel_of_pairwise_cons hrest hmem
    -- the two lightest trees are merged, in the list and in the lengths
    obtain ⟨l, qs', hfst, hkraft', hcost⟩ := exists_merge (hx y mem_cons_self) hy hkraft
    have hperm : (sortTrees (combine x y :: z :: xs)).Perm
        (((combine x y, l) :: qs').map Prod.fst) := by
      rw [map_cons, hfst, hqs]
      exact perm_sortTrees _
    obtain ⟨rs, hrs, hrsfst⟩ := exists_perm_map_fst hperm
    have hle := ih (by simp) (pairwise_sortTrees _) hrsfst
      (by rw [kraft_perm (hrs.map Prod.snd)]; exact hkraft') t ht
    rw [cost_perm freq hrs, ((perm_sortTrees _).map treeCost).sum_eq, cost_cons, map_cons,
      sum_cons, treeCost_combine, freq_combine] at hle
    rw [cost_cons, cost_cons]
    simp only [map_cons, sum_cons] at hle hcost ⊢
    omega

/-- The bound for the trees of a word: every letter has a leaf of its own. -/
theorem treeCost_le_of_kraft {w : HString} (hlen : 2 ≤ (charCounts w).length) (len : HChar → ℕ)
    (hkraft : kraft ((charCounts w).map fun p => len p.1) ≤ 1) :
    ∀ t ∈ collapseTrees (initTrees w),
      treeCost t ≤ ((charCounts w).map fun p => p.2 * len p.1).sum := by
  have hleaves : (initTrees w).Perm ((charCounts w).map fun x => bTree x emptyBTree emptyBTree) :=
    perm_sortTrees _
  have hperm : (initTrees w).Perm (((charCounts w).map fun x =>
      (bTree x emptyBTree emptyBTree, len x.1)).map Prod.fst) := by
    rw [List.map_map]
    exact hleaves
  obtain ⟨ps, hps, hfst⟩ := exists_perm_map_fst hperm
  have hsorted : (initTrees w).Pairwise fun x y => freq x ≤ freq y := pairwise_sortTrees _
  intro t ht
  have hle := treeCost_collapseTrees (by simpa [initTrees] using hlen) hsorted hfst
    (by rw [kraft_perm (hps.map Prod.snd), List.map_map]; exact hkraft) t ht
  have hzero : ((initTrees w).map treeCost).sum = 0 := by
    rw [(hleaves.map treeCost).sum_eq, List.map_map]
    simp [comp_def]
  rw [cost_perm freq hps, hzero, Nat.add_zero, cost, List.map_map] at hle
  exact hle

/-- The code of the tree of a word is prefix-free and no prefix-free code of its
letters is shorter. -/
theorem huffman_optimal {w : HString} (hnul : NUL ∉ w)
    (htwo : ∃ a ∈ w, ∃ b ∈ w, a ≠ b) :
    ∃ tree bits, collapseTrees (initTrees w) = some tree ∧ encodeWord tree w = some bits ∧
      (∀ c ∈ w, encodeLetter c tree = some (codeOf tree c)) ∧ PrefixFree w (codeOf tree) ∧
      ∀ code : HChar → List HBit, PrefixFree w code → bits.length ≤ (w.flatMap code).length := by
  obtain ⟨a, ha, b, hb, hab⟩ := htwo
  have hcounts := countsOf_charCounts w
  have hlen : 2 ≤ (charCounts w).length := by
    by_contra hlt
    have ha' := (hcounts.mem a).mpr ha
    have hb' := (hcounts.mem b).mpr hb
    cases hcs : charCounts w with
    | nil => simp [hcs] at ha'
    | cons x xs =>
      obtain rfl : xs = [] := by
        rw [hcs, length_cons] at hlt
        exact length_eq_zero_iff.mp (by omega)
      rw [hcs, map_singleton, mem_singleton] at ha' hb'
      exact hab (ha'.trans hb'.symm)
  -- two letters, so the tree is no single leaf
  obtain ⟨l, r, heq, hl, hr, hperm⟩ := exists_collapseTrees_initTrees hlen
  have htree : IsHuffman (combine l r) := .inner hl hr
  have hletters : (letters (combine l r)).Perm ((charCounts w).map Prod.fst) :=
    hperm.map Prod.fst
  have hmem : ∀ c, c ∈ letters (combine l r) ↔ c ∈ w := fun c => by
    rw [hletters.mem_iff, hcounts.mem]
  have henc : ∀ c ∈ w, encodeLetter c (combine l r) = some (codeOf (combine l r) c) ∧
      Leads (combine l r) (codeOf (combine l r) c) c := by
    intro c hc
    obtain ⟨bits, hbits, hleads⟩ :=
      exists_encodeLetter htree (fun he => hnul (he ▸ hc)) ((hmem c).mpr hc)
    have hcode : codeOf (combine l r) c = bits := by simp [codeOf, hbits]
    exact hcode ▸ ⟨hbits, hleads⟩
  refine ⟨combine l r, w.flatMap (codeOf (combine l r)), heq,
    encodeWord_eq fun c hc => by simp [(henc c hc).1], fun c hc => (henc c hc).1, ?_, ?_⟩
  · intro c hc d hd hcd hpre
    exact hcd ((henc c hc).2.eq_of_isPrefix (henc d hd).2 hpre)
  · intro code hfree
    have hfree' : PrefixFree ((charCounts w).map Prod.fst) code := fun c hc d hd =>
      hfree c ((hcounts.mem c).mp hc) d ((hcounts.mem d).mp hd)
    have hkraft := kraft_le_one rfl hcounts.nodup (by simpa using hlen) hfree'
    have hlower := treeCost_le_of_kraft hlen (fun c => (code c).length)
      (by rw [List.map_map] at hkraft; exact hkraft) _ heq
    rw [length_flatMap_eq w code, length_flatMap_eq w, ← (hperm.map _).sum_eq,
      sum_leaves_eq_treeCost htree (hletters.nodup_iff.mpr hcounts.nodup)
        fun he => hnul ((hmem NUL).mp he)]
    exact hlower

/-- The code of `aab`. -/
theorem huffman_optimal_aab :
    ∃ tree bits, collapseTrees (initTrees (lit "aab")) = some tree ∧
      encodeWord tree (lit "aab") = some bits ∧
      (∀ c ∈ lit "aab", encodeLetter c tree = some (codeOf tree c)) ∧
      PrefixFree (lit "aab") (codeOf tree) ∧
      ∀ code : HChar → List HBit, PrefixFree (lit "aab") code →
        bits.length ≤ ((lit "aab").flatMap code).length :=
  huffman_optimal (by decide +kernel) ⟨97, by decide +kernel, 98, by decide +kernel, by decide⟩

end PittCs.Cs1699
