import PittCs.Cs445.PhraseLayout

/-!
# What the search finds and what it leaves

The search over all start cells, where no dead end gets stuck before a layout is found, and
what a search that does its work says about the dead ends.
-/

namespace PittCs.Cs445.FindPhrase

open List Option

variable {b : Board} {M M' : Finset Cell} {dir : Dir} {p : Cell} {words phrase : List Word}
  {solution : List Line} {currPhrase : List Word} {found : Bool} {s s' : State}

/-! ## Marks that stay -/

theorem firstFound_marks {attempt : Dir → State → Except Exc (Bool × State)}
    {T Q : Dir → Finset Cell → Prop}
    (h : ∀ d M found s', attempt d (.ofMarks b M solution currPhrase) = .ok (found, s') →
      (found = true → T d M) ∧ (found = false → ∃ M', M ⊆ M' ∧
        s' = .ofMarks b M' solution currPhrase ∧ (M' = M → Q d M)))
    {ds : List Dir} (hrun : firstFound attempt ds (.ofMarks b M solution currPhrase) = .ok (found, s')) :
    (found = true → ∃ d M₁, M ⊆ M₁ ∧ T d M₁) ∧ (found = false → ∃ M', M ⊆ M' ∧
      s' = .ofMarks b M' solution currPhrase ∧ (M' = M → ∀ d ∈ ds, Q d M)) := by
  induction ds generalizing M with
  | nil =>
    cases hrun
    refine ⟨fun hf => absurd hf Bool.false_ne_true, fun _ => ⟨M, Finset.Subset.refl M, rfl, ?_⟩⟩
    exact fun _ d hd => absurd hd not_mem_nil
  | cons d ds ih =>
    rw [firstFound] at hrun
    rcases Lib.bind_eq_ok.mp hrun with ⟨⟨f, s₁⟩, hfirst, hrest⟩
    have hd := h d M f s₁ hfirst
    cases f with
    | true =>
      cases hrest
      exact ⟨fun _ => ⟨d, M, Finset.Subset.refl M, hd.1 rfl⟩, fun hf => absurd hf.symm Bool.false_ne_true⟩
    | false =>
      rcases hd.2 rfl with ⟨M₁, hM₁, rfl, hQ⟩
      have hih := ih hrest
      constructor
      · intro hf
        rcases hih.1 hf with ⟨d', M₂, hM₂, hT⟩
        exact ⟨d', M₂, Finset.Subset.trans hM₁ hM₂, hT⟩
      · intro hf
        rcases hih.2 hf with ⟨M₂, hM₂, hs', hQs⟩
        refine ⟨M₂, Finset.Subset.trans hM₁ hM₂, hs', fun heq => ?_⟩
        -- marks that are the same at the end were the same in between
        have hsame : M₁ = M := Finset.Subset.antisymm (heq ▸ hM₂) hM₁
        rw [hsame] at hQs hQ
        exact forall_mem_cons.mpr ⟨hQ rfl, hQs heq⟩

/-- No beginning of the words from this cell on ends with a word that is stuck. -/
def NoStuck (b : Board) (M : Finset Cell) (dir : Dir) (p : Cell) (words : List Word) : Prop :=
  ∀ E, Lies b M E → E.map (·.word) <+: words → Begins dir p E → ¬ ∃ q ∈ E.getLast?, q.Stuck

theorem mem_cells_start {word : Word} (hword : word ≠ []) (dir : Dir) (p : Cell) :
    p ∈ dir.cells p word.length := by
  cases word with
  | nil => exact absurd rfl hword
  | cons letter rest => exact mem_cons_self

theorem noStuck_of_not_free {word : Word} {rest : List Word} (h : ¬ b.Free M dir p word) :
    NoStuck b M dir p (word :: rest) := by
  intro E hE hbeginning hbegins _
  cases E with
  | nil =>
    rcases hbegins with ⟨q, hq, -⟩
    cases hq
  | cons q E =>
    rcases hbegins with ⟨q', hq', hdir, hstart⟩
    have hqq : q = q' := some.inj hq'
    have hword : q.word = word := (cons_prefix_cons.mp hbeginning).1
    have hfree := hE.free
    rw [hqq, hdir, hstart, ← hqq, hword] at hfree
    exact h hfree

theorem NoStuck.cons {word : Word} {rest : List Word} (hstuck : ¬ Placement.Stuck ⟨dir, p, word⟩)
    (h : rest ≠ [] → ∀ d : Dir, NoStuck b (M ∪ (dir.cells p word.length).toFinset) d
      (d.move 1 (Placement.last ⟨dir, p, word⟩)) rest) : NoStuck b M dir p (word :: rest) := by
  intro E hE hbeginning hbegins hlast
  cases E with
  | nil =>
    rcases hbegins with ⟨q, hq, -⟩
    cases hq
  | cons q E =>
    rcases cons_prefix_cons.mp hbeginning with ⟨hword, hbeginning'⟩
    rcases hbegins with ⟨q', hq', hdir, hstart⟩
    have hqq : q = q' := some.inj hq'
    have heq : q = ⟨dir, p, word⟩ := by rw [← hdir, ← hstart, ← hword, hqq]
    subst heq
    rcases hlast with ⟨e, he, hes⟩
    by_cases hne : E = []
    · rw [hne] at he
      have hqe : ⟨dir, p, word⟩ = e := some.inj he
      exact hstuck (hqe ▸ hes)
    · have hrest : rest ≠ [] := by
        rintro rfl
        exact hne (map_eq_nil_iff.mp (prefix_nil.mp hbeginning'))
      rcases begins_of_follows hE.follows hne with ⟨d, hd⟩
      refine h hrest d E hE.rest hbeginning' hd ⟨e, ?_, hes⟩
      cases E with
      | nil => exact absurd rfl hne
      | cons q₂ E =>
        rw [getLast?_cons_cons] at he
        exact he

/-- What `matchWord` finds lies there; when it finds nothing, only marks are added, and some
are if a word got stuck. -/
theorem matchWord_marks (hb : b.Lower) (hne : words ≠ [])
    (hwords : ∀ word ∈ words, word ≠ [] ∧ ∀ c ∈ word, c.isLower = true)
    (hrun : matchWord dir p words (.ofMarks b M solution currPhrase) = .ok (found, s')) :
    (found = true → Full b M dir p words ∧ b.Wide) ∧ (found = false → ∃ M', M ⊆ M' ∧
      s' = .ofMarks b M' solution currPhrase ∧ (M' = M → NoStuck b M dir p words)) := by
  induction words generalizing M dir p solution currPhrase found s' with
  | nil => exact absurd rfl hne
  | cons word rest ih =>
    rcases forall_mem_cons.mp hwords with ⟨⟨hword, hlower⟩, hrestwords⟩
    by_cases hfree : b.Free M dir p word
    case neg =>
      rw [matchWord_miss hb hword hlower hfree] at hrun
      cases hrun
      refine ⟨fun hf => absurd hf Bool.false_ne_true, fun _ => ?_⟩
      exact ⟨M, Finset.Subset.refl M, rfl, fun _ => noStuck_of_not_free hfree⟩
    rw [matchWord_hit hb hword hlower hfree] at hrun
    rcases Lib.bind_eq_ok.mp hrun with ⟨⟨f, s₁⟩, hnext, hend⟩
    have hlastin := not_outside_last hword hfree.1
    have hmarks := firstFound_marks
      (T := fun d M₁ => b.Wide ∧ (rest ≠ [] → Full b M₁ d
        (d.move 1 (Placement.last ⟨dir, p, word⟩)) rest))
      (Q := fun d M₁ => rest ≠ [] → NoStuck b M₁ d (d.move 1 (Placement.last ⟨dir, p, word⟩)) rest)
      (fun d M₁ f s₂ hd => by
        by_cases hrest : rest = []
        · subst hrest
          by_cases hout : b.Outside (d.move 1 (Placement.last ⟨dir, p, word⟩))
          · have houtside : (State.ofMarks b M₁ (lineOf dir p word.length :: solution)
                (word :: currPhrase)).board.Outside (d.move 1 (Placement.last ⟨dir, p, word⟩)) := hout
            rw [matchWord_outside houtside] at hd
            cases hd
            refine ⟨fun hf => absurd hf Bool.false_ne_true, fun _ => ?_⟩
            exact ⟨M₁, Finset.Subset.refl _, rfl, fun _ h => absurd rfl h⟩
          · have hinside : ¬ (State.ofMarks b M₁ (lineOf dir p word.length :: solution)
                (word :: currPhrase)).board.Outside (d.move 1 (Placement.last ⟨dir, p, word⟩)) := hout
            rw [matchWord_nil hinside] at hd
            cases hd
            exact ⟨fun _ => ⟨wide_of_next hlastin hout, fun h => absurd rfl h⟩,
              fun hf => absurd hf.symm Bool.false_ne_true⟩
        · have hrec := ih hrest hrestwords hd
          refine ⟨fun hf => ⟨(hrec.1 hf).2, fun _ => (hrec.1 hf).1⟩, fun hf => ?_⟩
          rcases hrec.2 hf with ⟨M₂, hM₂, hs₂, hno⟩
          exact ⟨M₂, hM₂, hs₂, fun heq _ => hno heq⟩)
      hnext
    cases f with
    | true =>
      cases hend
      refine ⟨fun _ => ?_, fun hf => absurd hf.symm Bool.false_ne_true⟩
      rcases hmarks.1 rfl with ⟨d, M₁, hM₁, hwide, hfull⟩
      refine ⟨?_, hwide⟩
      by_cases hrest : rest = []
      · rw [hrest]
        exact full_singleton hfree
      · exact (full_cons_iff hrest).mpr ⟨hfree, d, (hfull hrest).mono hM₁⟩
    | false =>
      rcases hmarks.2 rfl with ⟨M₂, hM₂, rfl, hno⟩
      have hM : M ⊆ M₂ := Finset.Subset.trans Finset.subset_union_left hM₂
      by_cases hstuck : Placement.Stuck ⟨dir, p, word⟩
      · cases backtrack_stuck hstuck hword hend
        refine ⟨fun hf => absurd hf Bool.false_ne_true, fun _ => ⟨M₂, hM, rfl, fun heq => ?_⟩⟩
        have hstart : p ∈ M₂ := hM₂ (Finset.mem_union_right _
          (List.mem_toFinset.mpr (mem_cells_start hword dir p)))
        exact absurd (heq ▸ hstart) (hfree.2 p (mem_cells_start hword dir p))
      · rw [backtrack_forward hb hstuck hword] at hend
        cases hend
        refine ⟨fun hf => absurd hf Bool.false_ne_true, fun _ => ⟨_, ?_, rfl, fun heq => ?_⟩⟩
        · intro x hx
          refine Finset.mem_sdiff.mpr ⟨hM hx, fun hcell => ?_⟩
          exact hfree.2 x (List.mem_toFinset.mp hcell) hx
        · have hsame : M₂ = M ∪ (dir.cells p word.length).toFinset := by
            refine Finset.Subset.antisymm (fun x hx => ?_) hM₂
            by_cases hcell : x ∈ (dir.cells p word.length).toFinset
            · exact Finset.mem_union_right _ hcell
            · exact Finset.mem_union_left _ (heq ▸ Finset.mem_sdiff.mpr ⟨hx, hcell⟩)
          exact .cons hstuck fun hrest d => hno hsame d (mem_dirs d) hrest

theorem matchPhrase_marks (hb : b.Lower) (hphrase : IsPhrase phrase)
    (hrun : matchPhrase p phrase (.ofMarks b M solution currPhrase) = .ok (found, s')) :
    (found = true → (∃ d, Full b M d p phrase) ∧ b.Wide) ∧ (found = false → ∃ M', M ⊆ M' ∧
      s' = .ofMarks b M' solution currPhrase ∧ (M' = M → ∀ d, NoStuck b M d p phrase)) := by
  have hmarks := firstFound_marks (T := fun d M₁ => Full b M₁ d p phrase ∧ b.Wide)
    (Q := fun d M₁ => NoStuck b M₁ d p phrase)
    (fun d M₁ f s₁ hd => matchWord_marks hb hphrase.1 hphrase.2 hd) hrun
  constructor
  · intro hf
    rcases hmarks.1 hf with ⟨d, M₁, hM₁, hfull, hwide⟩
    exact ⟨⟨d, hfull.mono hM₁⟩, hwide⟩
  · intro hf
    rcases hmarks.2 hf with ⟨M', hM', hs', hno⟩
    exact ⟨M', hM', hs', fun heq d => hno heq d (mem_dirs d)⟩

/-! ## The search over all start cells -/

/-- The search ends and finds the phrase just when it lies on the board, and a start cell
without the phrase leaves the board as it was. -/
structure Right (b : Board) (phrase : List Word) : Prop where
  ends : ∃ found b', search phrase b = .ok (found, b') ∧ (found = true ↔ ∃ L, IsLayout b phrase L)
  kept : ∀ ps p qs b₁ s', b.starts = ps ++ p :: qs → searchFrom phrase ps b = .ok (false, b₁) →
    matchPhrase p phrase ⟨b₁, [], []⟩ = .ok (false, s') → s'.board = b₁

/-- The layout begins at an earlier cell than the bad end, or in directions tried earlier. -/
def Before (L E : List Placement) : Prop :=
  ∃ q ∈ L.head?, ∃ e ∈ E.head?, StartsBefore q.start e.start ∨ q.start = e.start ∧ TriedBefore L E

def NotAfter (L E : List Placement) : Prop :=
  ∃ q ∈ L.head?, ∃ e ∈ E.head?, StartsBefore q.start e.start ∨ q.start = e.start

theorem mem_starts : p ∈ b.starts ↔ ¬ b.Outside p := by
  unfold Board.starts Board.Outside
  rw [mem_flatMap]
  constructor
  · rintro ⟨r, hr, hp⟩
    rcases mem_map.mp hp with ⟨c, hc, rfl⟩
    have hr' := mem_range.mp hr
    have hc' := mem_range.mp hc
    simp only
    omega
  · intro h
    refine ⟨p.1.toNat, mem_range.mpr (by omega), mem_map.mpr ⟨p.2.toNat, ?_, ?_⟩⟩
    · exact mem_range.mpr (by omega)
    · exact Prod.ext (Int.toNat_of_nonneg (by omega)) (Int.toNat_of_nonneg (by omega))

theorem starts_sorted (b : Board) : b.starts.Pairwise StartsBefore := by
  unfold Board.starts
  rw [pairwise_flatMap]
  constructor
  · intro r _
    refine List.Pairwise.map _ (fun c c' hc => ?_) (pairwise_lt_range (n := b.cols))
    exact Or.inr ⟨rfl, Int.ofNat_lt.mpr hc⟩
  · refine (pairwise_lt_range (n := b.rows)).imp ?_
    intro r r' hr p hp p' hp'
    rcases mem_map.mp hp with ⟨c, -, rfl⟩
    rcases mem_map.mp hp' with ⟨c', -, rfl⟩
    exact Or.inl (Int.ofNat_lt.mpr hr)

theorem StartsBefore.asymm {p p' : Cell} (h : StartsBefore p p') : ¬ StartsBefore p' p := by
  unfold StartsBefore at h ⊢
  omega

/-- Start cells before `p` are in the part before it. -/
theorem mem_of_startsBefore {ps qs : List Cell} {p' : Cell} (hsplit : b.starts = ps ++ p :: qs)
    (hp' : ¬ b.Outside p') (hbefore : StartsBefore p' p) : p' ∈ ps := by
  have hmem := mem_starts.mpr hp'
  have hsorted := starts_sorted b
  rw [hsplit] at hmem hsorted
  rcases mem_append.mp hmem with hmem | hmem
  · exact hmem
  · have hcons := pairwise_cons.mp (pairwise_append.mp hsorted).2.1
    rcases mem_cons.mp hmem with rfl | hmem
    · exact absurd hbefore hbefore.asymm
    · exact absurd (hcons.1 p' hmem) hbefore.asymm

theorem startsBefore_of_mem {ps qs : List Cell} {p' : Cell} (hsplit : b.starts = ps ++ p :: qs)
    (hp' : p' ∈ ps) : StartsBefore p' p := by
  have hsorted := starts_sorted b
  rw [hsplit] at hsorted
  exact (pairwise_append.mp hsorted).2.2 p' hp' p mem_cons_self

theorem searchFrom_append (ps qs : List Cell) (b₁ : Board) : searchFrom phrase (ps ++ qs) b₁ =
    searchFrom phrase ps b₁ >>= fun r => if r.1 then .ok (true, r.2) else searchFrom phrase qs r.2 := by
  induction ps generalizing b₁ with
  | nil => rfl
  | cons p ps ih =>
    rw [cons_append, searchFrom, searchFrom]
    cases matchPhrase p phrase ⟨b₁, [], []⟩ with
    | error e => rfl
    | ok r =>
      rcases r with ⟨f, s⟩
      cases f with
      | true => rfl
      | false => exact ih s.board

theorem ofMarks_empty (b : Board) : State.ofMarks b ∅ [] [] = ⟨b, [], []⟩ := by
  unfold State.ofMarks
  rw [marked_empty]

/-- A layout, from its first word on. -/
theorem exists_layout_iff (hphrase : phrase ≠ []) :
    (∃ L, IsLayout b phrase L) ↔ ∃ d p, Full b ∅ d p phrase := by
  constructor
  · rintro ⟨L, hL⟩
    have hwords := hL.words
    cases L with
    | nil => exact absurd hwords.symm hphrase
    | cons q L =>
      refine ⟨q.dir, q.start, q :: L, lies_empty_iff.mpr ?_, hwords, q, rfl, rfl, rfl⟩
      rw [hwords]
      exact hL
  · rintro ⟨d, p, L, hL, hwords, -⟩
    have hlayout := lies_empty_iff.mp hL
    rw [hwords] at hlayout
    exact ⟨L, hlayout⟩

theorem not_outside_of_full (hphrase : IsPhrase phrase) (h : Full b M dir p phrase) :
    ¬ b.Outside p := by
  cases phrase with
  | nil => exact absurd rfl hphrase.1
  | cons word rest =>
    rcases h with ⟨L, hL, hwords, hbegins⟩
    rcases eq_of_begins hbegins hwords with ⟨L', rfl, -⟩
    exact not_outside_of_free (hphrase.2 word mem_cons_self).1 hL.free

/-- Every bad end comes after a layout. -/
def CleanBoard (b : Board) (phrase : List Word) : Prop :=
  ((∃ L, IsLayout b phrase L) → b.Wide) ∧
    ∀ E, BadEnd b phrase E → ∃ L, IsLayout b phrase L ∧ Before L E

/-- A bad end from a cell on, without marks, is one of the board. -/
theorem badEnd_of_lies {E : List Placement} (hE : Lies b ∅ E) (hbeginning : E.map (·.word) <+: phrase)
    (hdead : ¬ ∃ L, Lies b ∅ L ∧ L.map (·.word) = phrase ∧ E <+: L)
    (hstuck : ∃ q ∈ E.getLast?, q.Stuck) : BadEnd b phrase E where
  layout := lies_empty_iff.mp hE
  beginning := hbeginning
  dead := by
    rintro ⟨L, hL, hEL⟩
    refine hdead ⟨L, lies_empty_iff.mpr ?_, hL.words, hEL⟩
    rw [hL.words]
    exact hL
  stuck := hstuck

/-- Where no layout begins earlier, a start cell is clean. -/
theorem CleanBoard.clean (hclean : CleanBoard b phrase) (hphrase : IsPhrase phrase)
    {ps qs : List Cell} (hsplit : b.starts = ps ++ p :: qs)
    (hcells : ∀ p' ∈ ps, ∀ d, ¬ Full b ∅ d p' phrase) {d : Dir}
    (hdirs : ∀ d', d'.number < d.number → ¬ Full b ∅ d' p phrase) : Clean b ∅ d p phrase := by
  intro E hE hbeginning hbegins hdead hstuck
  rcases hclean.2 E (badEnd_of_lies hE hbeginning hdead hstuck) with ⟨L, hL, q, hq, e, he, hbefore⟩
  have hlies : Lies b ∅ L := by
    rw [lies_empty_iff, hL.words]
    exact hL
  have hfull : Full b ∅ q.dir q.start phrase := ⟨L, hlies, hL.words, q, hq, rfl, rfl⟩
  have hestart : e.start = p := by
    rcases hbegins with ⟨e', he', -, hstart⟩
    rw [mem_unique he he', hstart]
  rw [hestart] at hbefore
  rcases hbefore with hbefore | ⟨hsame, htried⟩
  · have hin := mem_of_startsBefore hsplit (not_outside_of_full hphrase hfull) hbefore
    exact absurd hfull (hcells q.start hin q.dir)
  · have hbeginsL : Begins q.dir p L := ⟨q, hq, rfl, hsame⟩
    have hle := number_le_of_triedBefore hbeginsL hbegins htried
    rw [hsame] at hfull
    have hnot : ¬ q.dir.number < d.number := fun hlt => hdirs q.dir hlt hfull
    have hdd : q.dir = d := Dir.number_inj (by omega)
    rw [hdd] at hbeginsL
    exact ⟨L, hlies, hL.words, hbeginsL, htried⟩

theorem matchPhrase_clean (hb : b.Lower) (hphrase : IsPhrase phrase) (hclean : CleanBoard b phrase)
    {ps qs : List Cell} (hsplit : b.starts = ps ++ p :: qs)
    (hcells : ∀ p' ∈ ps, ∀ d, ¬ Full b ∅ d p' phrase) :
    ((∃ d, Full b ∅ d p phrase) → ∃ s', matchPhrase p phrase ⟨b, [], []⟩ = .ok (true, s')) ∧
      ((∀ d, ¬ Full b ∅ d p phrase) →
        matchPhrase p phrase ⟨b, [], []⟩ = .ok (false, ⟨b, [], []⟩)) := by
  rw [← ofMarks_empty]
  refine firstFound_spec (fun d hdirs => ?_) dirs_sorted fun d hd => absurd (mem_dirs d) hd
  refine matchWord_clean hb hphrase.1 (fun hfull => ?_) hphrase.2
    (hclean.clean hphrase hsplit hcells hdirs)
  exact hclean.1 ((exists_layout_iff hphrase.1).mpr ⟨d, p, hfull⟩)

theorem searchFrom_clean (hb : b.Lower) (hphrase : IsPhrase phrase) (hclean : CleanBoard b phrase)
    (mid : List Cell) : ∀ ps qs : List Cell, b.starts = ps ++ mid ++ qs →
      (∀ p' ∈ ps, ∀ d, ¬ Full b ∅ d p' phrase) →
      ((∃ p ∈ mid, ∃ d, Full b ∅ d p phrase) → ∃ b', searchFrom phrase mid b = .ok (true, b')) ∧
        ((∀ p ∈ mid, ∀ d, ¬ Full b ∅ d p phrase) → searchFrom phrase mid b = .ok (false, b)) := by
  induction mid with
  | nil =>
    intro ps qs _ _
    exact ⟨fun ⟨p, hp, _⟩ => absurd hp not_mem_nil, fun _ => rfl⟩
  | cons p mid ih =>
    intro ps qs hsplit hcells
    have hsplit' : b.starts = ps ++ p :: (mid ++ qs) := by
      rw [hsplit, append_assoc, cons_append]
    have hsplit'' : b.starts = (ps ++ [p]) ++ mid ++ qs := by
      rw [hsplit', append_assoc, append_assoc, singleton_append]
    have hp := matchPhrase_clean hb hphrase hclean hsplit' hcells
    rw [searchFrom]
    by_cases hfull : ∃ d, Full b ∅ d p phrase
    · rcases hp.1 hfull with ⟨s', hs'⟩
      rw [hs']
      refine ⟨fun _ => ⟨s'.board, rfl⟩, fun hno => ?_⟩
      rcases hfull with ⟨d, hd⟩
      exact absurd hd (hno p mem_cons_self d)
    · have hnone : ∀ d, ¬ Full b ∅ d p phrase := fun d hd => hfull ⟨d, hd⟩
      rw [hp.2 hnone]
      have hcells' : ∀ p' ∈ ps ++ [p], ∀ d, ¬ Full b ∅ d p' phrase := by
        intro p' hp'
        rcases mem_append.mp hp' with hp' | hp'
        · exact hcells p' hp'
        · rw [mem_singleton.mp hp']
          exact hnone
      have hmid := ih (ps ++ [p]) qs hsplit'' hcells'
      constructor
      · rintro ⟨p', hp', d, hd⟩
        rcases mem_cons.mp hp' with rfl | hp'
        · exact absurd hd (hnone d)
        · exact hmid.1 ⟨p', hp', d, hd⟩
      · exact fun hno => hmid.2 fun p' hp' => hno p' (mem_cons_of_mem p hp')

theorem right_of_clean (hb : b.Lower) (hphrase : IsPhrase phrase) (hclean : CleanBoard b phrase) :
    Right b phrase := by
  constructor
  case ends =>
    have hall := searchFrom_clean hb hphrase hclean b.starts [] []
      (append_nil _).symm fun _ hp => absurd hp not_mem_nil
    rw [exists_layout_iff hphrase.1]
    by_cases hfull : ∃ d p, Full b ∅ d p phrase
    · rcases hfull with ⟨d, p, hd⟩
      have hp := mem_starts.mpr (not_outside_of_full hphrase hd)
      rcases hall.1 ⟨p, hp, d, hd⟩ with ⟨b', hb'⟩
      exact ⟨true, b', hb', fun _ => ⟨d, p, hd⟩, fun _ => rfl⟩
    · refine ⟨false, b, hall.2 fun p _ d hd => hfull ⟨d, p, hd⟩, fun hf => ?_, fun h => absurd h hfull⟩
      exact absurd hf Bool.false_ne_true
  case kept =>
    intro ps p qs b₁ s' hsplit hsearch hmatch
    have hsplit' : b.starts = [] ++ ps ++ p :: qs := by rw [nil_append, hsplit]
    have hps := searchFrom_clean hb hphrase hclean ps [] (p :: qs) hsplit'
      fun _ hp => absurd hp not_mem_nil
    by_cases hfull : ∃ p ∈ ps, ∃ d, Full b ∅ d p phrase
    · rcases hps.1 hfull with ⟨b', hb'⟩
      rw [hb'] at hsearch
      cases hsearch
    have hnone : ∀ p ∈ ps, ∀ d, ¬ Full b ∅ d p phrase := fun p hp d hd => hfull ⟨p, hp, d, hd⟩
    rw [hps.2 hnone] at hsearch
    cases hsearch
    have hp := matchPhrase_clean hb hphrase hclean hsplit hnone
    by_cases hfullp : ∃ d, Full b ∅ d p phrase
    · rcases hp.1 hfullp with ⟨s₁, hs₁⟩
      rw [hs₁] at hmatch
      cases hmatch
    · rw [hp.2 fun d hd => hfullp ⟨d, hd⟩] at hmatch
      cases hmatch
      rfl

/-! ## What a right search says about the bad ends -/

/-- A search that keeps the board reaches every start cell with the board as it was. -/
theorem Right.search_kept (hright : Right b phrase) (hb : b.Lower) (hphrase : IsPhrase phrase)
    (mid : List Cell) : ∀ (ps qs : List Cell) {b₁ : Board} {found : Bool},
      b.starts = ps ++ mid ++ qs → searchFrom phrase ps b = .ok (false, b) →
      searchFrom phrase mid b = .ok (found, b₁) →
      (found = false → b₁ = b) ∧
        (found = true → (∃ p ∈ mid, ∃ d, Full b ∅ d p phrase) ∧ b.Wide) := by
  induction mid with
  | nil =>
    intro ps qs b₁ found _ _ hrun
    cases hrun
    exact ⟨fun _ => rfl, fun hf => absurd hf Bool.false_ne_true⟩
  | cons p mid ih =>
    intro ps qs b₁ found hsplit hps hrun
    rw [searchFrom] at hrun
    rcases Lib.bind_eq_ok.mp hrun with ⟨⟨f, s⟩, hmatch, hrest⟩
    have hsplit' : b.starts = ps ++ p :: (mid ++ qs) := by
      rw [hsplit, append_assoc, cons_append]
    cases f with
    | true =>
      cases hrest
      rw [← ofMarks_empty] at hmatch
      rcases (matchPhrase_marks hb hphrase hmatch).1 rfl with ⟨hfull, hwide⟩
      exact ⟨fun hf => absurd hf.symm Bool.false_ne_true,
        fun _ => ⟨⟨p, mem_cons_self, hfull⟩, hwide⟩⟩
    | false =>
      have hboard : s.board = b := hright.kept ps p (mid ++ qs) b s hsplit' hps hmatch
      have hrest' : searchFrom phrase mid b = .ok (found, b₁) := by
        rw [← hboard]
        exact hrest
      have hps' : searchFrom phrase (ps ++ [p]) b = .ok (false, b) := by
        rw [searchFrom_append, hps, Lib.ok_bind, if_neg Bool.false_ne_true, searchFrom, hmatch,
          Lib.ok_bind]
        exact congrArg (fun board => Except.ok (false, board)) hboard
      have hsplit'' : b.starts = (ps ++ [p]) ++ mid ++ qs := by
        rw [hsplit', append_assoc, append_assoc, singleton_append]
      have hih := ih (ps ++ [p]) qs hsplit'' hps' hrest'
      refine ⟨hih.1, fun hf => ?_⟩
      rcases hih.2 hf with ⟨⟨p', hp', hfull⟩, hwide⟩
      exact ⟨⟨p', mem_cons_of_mem p hp', hfull⟩, hwide⟩

theorem Right.wide (hright : Right b phrase) (hb : b.Lower) (hphrase : IsPhrase phrase)
    (hlayout : ∃ L, IsLayout b phrase L) : b.Wide := by
  rcases hright.ends with ⟨found, b', hrun, hfound⟩
  exact ((hright.search_kept hb hphrase b.starts [] [] (append_nil _).symm rfl hrun).2 (hfound.mpr hlayout)).2

theorem Right.notAfter (hright : Right b phrase) (hb : b.Lower) (hphrase : IsPhrase phrase)
    {E : List Placement} (hE : BadEnd b phrase E) : ∃ L, IsLayout b phrase L ∧ NotAfter L E := by
  rcases hright.ends with ⟨found, b', hrun, -⟩
  rcases hE.stuck with ⟨e', he', -⟩
  cases E with
  | nil => cases he'
  | cons e E =>
    have hlies : Lies b ∅ (e :: E) := lies_empty_iff.mpr hE.layout
    have hword : e.word ≠ [] :=
      (hphrase.2 e.word (hE.beginning.subset mem_cons_self)).1
    have hin : e.start ∈ b.starts := mem_starts.mpr (not_outside_of_free hword hlies.free)
    rcases append_of_mem hin with ⟨ps, qs, hsplit⟩
    unfold search at hrun
    rw [hsplit, searchFrom_append] at hrun
    rcases Lib.bind_eq_ok.mp hrun with ⟨⟨f, b₁⟩, hps, hrest⟩
    have hkept := hright.search_kept hb hphrase ps [] (e.start :: qs) hsplit rfl hps
    -- a layout that begins at a cell that is not after the bad end
    have hfound : ∀ p d, Full b ∅ d p phrase → (StartsBefore p e.start ∨ p = e.start) →
        ∃ L, IsLayout b phrase L ∧ NotAfter L (e :: E) := by
      rintro p d ⟨L, hL, hwords, q, hq, -, hstart⟩ hp
      have hlayout := lies_empty_iff.mp hL
      rw [hwords] at hlayout
      exact ⟨L, hlayout, q, hq, e, rfl, hstart ▸ hp⟩
    cases f with
    | true =>
      rcases (hkept.2 rfl).1 with ⟨p, hp, d, hd⟩
      exact hfound p d hd (Or.inl (startsBefore_of_mem hsplit hp))
    | false =>
      have hb₁ := hkept.1 rfl
      subst hb₁
      rw [if_neg Bool.false_ne_true, searchFrom] at hrest
      rcases Lib.bind_eq_ok.mp hrest with ⟨⟨f, s⟩, hmatch, -⟩
      have hmatch' := hmatch
      rw [← ofMarks_empty] at hmatch'
      have hmarks := matchPhrase_marks hb hphrase hmatch'
      cases f with
      | true =>
        rcases (hmarks.1 rfl).1 with ⟨d, hd⟩
        exact hfound e.start d hd (Or.inr rfl)
      | false =>
        have hboard := hright.kept ps e.start qs b₁ s hsplit hps hmatch
        rcases hmarks.2 rfl with ⟨M', -, rfl, hno⟩
        have hM' : M' = ∅ := marked_inj hb (hboard.trans (marked_empty b₁).symm)
        exact absurd hE.stuck (hno hM' e.dir (e :: E) hlies hE.beginning ⟨e, rfl, rfl, rfl⟩)

/-- The search does its work where every bad end comes after a layout; and where it does its
work, no bad end comes before all start cells of layouts. -/
theorem search_right (hb : b.Lower) (hphrase : IsPhrase phrase) :
    (CleanBoard b phrase → Right b phrase) ∧ (Right b phrase →
      ((∃ L, IsLayout b phrase L) → b.Wide) ∧
        ∀ E, BadEnd b phrase E → ∃ L, IsLayout b phrase L ∧ NotAfter L E) :=
  ⟨right_of_clean hb hphrase, fun hright =>
    ⟨hright.wide hb hphrase, fun _ hE => hright.notAfter hb hphrase hE⟩⟩

/-- One row, `a b`. -/
def twoLetters : Board where
  rows := 1
  cols := 2
  letter p := if p = (0, 0) then 'a' else 'b'

theorem twoLetters_lower : twoLetters.Lower := by
  intro p
  unfold twoLetters
  dsimp only
  split
  case isTrue | isFalse => decide

/-- One row, `abdabc`. -/
def sixLetters : Board where
  rows := 1
  cols := 6
  letter p :=
    if p.2 = 5 then 'c' else if p.2 % 3 = 0 then 'a' else if p.2 % 3 = 1 then 'b' else 'd'

/-- The phrase `ab c`: the first `ab` on the grid is a dead end. -/
theorem search_right_second : Right sixLetters [['a', 'b'], ['c']] := by
  have hlower : sixLetters.Lower := by
    intro p
    unfold sixLetters
    dsimp only
    split_ifs
    all_goals decide
  refine (search_right hlower (by simp [IsPhrase])).1 ⟨fun _ => Or.inr (by decide), ?_⟩
  intro E hE
  rcases hE.stuck with ⟨q, hq, hstuck⟩
  match E, hE, hq with
  | [e], hE, hq =>
    -- no `ab` runs to the left or up
    obtain rfl : e = q := Option.some.inj hq
    have hword : e.word = ['a', 'b'] := (cons_prefix_cons.mp hE.beginning).1
    have hspells := hE.layout.spells e mem_cons_self
    rw [hword] at hspells
    rcases hspells with ⟨-, ha, -, hb, -⟩
    unfold Placement.Stuck at hstuck
    rw [hword] at hstuck
    rcases hstuck with hone | hleft | hup
    · cases hone
    · rw [hleft] at hb
      simp only [sixLetters, Dir.move] at ha hb
      grind
    · rw [hup] at hb
      exact absurd (ha.symm.trans hb) (by decide)
  | e₁ :: e₂ :: E, hE, _ =>
    have hwords := hE.beginning.eq_of_length_le (Nat.le_add_left 2 _)
    have hlayout := hE.layout
    rw [hwords] at hlayout
    exact absurd ⟨_, hlayout, prefix_refl _⟩ hE.dead

/-- `a c`: the word `a` has one letter, and no word `c` is on the grid. -/
theorem not_right_single : ¬ Right twoLetters [['a'], ['c']] := by
  intro hright
  have hno : ∀ L, ¬ IsLayout twoLetters [['a'], ['c']] L := by
    intro L hL
    have hmem : ['c'] ∈ L.map (·.word) := by
      rw [hL.words]
      decide
    rcases mem_map.mp hmem with ⟨q, hq, hword⟩
    have hspells := hL.spells q hq
    rw [hword] at hspells
    have hletter := hspells.2.1
    unfold twoLetters at hletter
    dsimp only at hletter
    split at hletter
    case isTrue | isFalse => exact absurd hletter (by decide)
  have hbad : BadEnd twoLetters [['a'], ['c']] [⟨.right, (0, 0), ['a']⟩] := by
    constructor
    case layout =>
      refine ⟨rfl, fun q hq => ?_, pairwise_singleton _ _, .singleton _⟩
      rw [mem_singleton.mp hq]
      exact ⟨by decide, rfl, trivial⟩
    case beginning => exact ⟨[['c']], rfl⟩
    case dead => exact fun ⟨L, hL, _⟩ => hno L hL
    case stuck => exact ⟨_, rfl, Or.inl rfl⟩
  have hphrase : IsPhrase [['a'], ['c']] := by
    refine ⟨cons_ne_nil _ _, fun word hword => ?_⟩
    rcases mem_cons.mp hword with rfl | hword
    · refine ⟨cons_ne_nil _ _, fun c hc => ?_⟩
      rw [mem_singleton.mp hc]
      decide
    · rw [mem_singleton.mp hword]
      refine ⟨cons_ne_nil _ _, fun c hc => ?_⟩
      rw [mem_singleton.mp hc]
      decide
  rcases hright.notAfter twoLetters_lower hphrase hbad with ⟨L, hL, -⟩
  exact hno L hL

end PittCs.Cs445.FindPhrase
