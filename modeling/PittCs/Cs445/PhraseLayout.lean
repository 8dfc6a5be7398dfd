import Mathlib.Data.List.Chain
import PittCs.Cs445.FindPhrase

/-!
# Layouts of a phrase

What the search is for: the words of the phrase on segments of the grid that share no cell,
each in the cell next to the end of the one before. A beginning of a layout that no layout
extends is a dead end; the search has to take its marks back, and does not where the last
word runs to the left or up, or has one letter.
-/

namespace PittCs.Cs445.FindPhrase

open List Option

structure Placement where
  dir : Dir
  start : Cell
  word : Word
deriving DecidableEq

namespace Placement

def cells (q : Placement) : List Cell := q.dir.cells q.start q.word.length

def last (q : Placement) : Cell := q.dir.move ((q.word.length : Int) - 1) q.start

/-- The next word starts in the cell next to the end, in the direction in which it runs. -/
def Follows (q q' : Placement) : Prop := q'.start = q'.dir.move 1 q.last

/-- `lowerLine` does not take the marks of this word back. -/
def Stuck (q : Placement) : Prop := q.word.length = 1 ∨ q.dir = .left ∨ q.dir = .up

end Placement

/-- The words lie on the board. -/
structure IsLayout (b : Board) (words : List Word) (L : List Placement) : Prop where
  words : L.map (·.word) = words
  spells : ∀ q ∈ L, b.Spells q.dir q.start q.word
  disjoint : L.Pairwise fun q q' => q.cells.Disjoint q'.cells
  follows : L.IsChain Placement.Follows

/-- The beginning of a layout that cannot be completed, with marks that would stay. -/
structure BadEnd (b : Board) (phrase : List Word) (E : List Placement) : Prop where
  layout : IsLayout b (E.map (·.word)) E
  beginning : E.map (·.word) <+: phrase
  dead : ¬ ∃ L, IsLayout b phrase L ∧ E <+: L
  stuck : ∃ q ∈ E.getLast?, q.Stuck

def Dir.number : Dir → Nat
  | right => 1
  | down => 2
  | left => 3
  | up => 4

/-- The order of the start cells. -/
def StartsBefore (p p' : Cell) : Prop := p.1 < p'.1 ∨ p.1 = p'.1 ∧ p.2 < p'.2

/-- The order of the directions that are tried. -/
def TriedBefore (L E : List Placement) : Prop :=
  List.Lex (fun d d' : Dir => d.number < d'.number) (L.map (·.dir)) (E.map (·.dir))

/-- There is more than one cell. -/
def Board.Wide (b : Board) : Prop := 1 < b.rows ∨ 1 < b.cols

/-- Words of lower-case letters. -/
def IsPhrase (phrase : List Word) : Prop :=
  phrase ≠ [] ∧ ∀ word ∈ phrase, word ≠ [] ∧ ∀ c ∈ word, c.isLower = true

/-! ## Layouts from a cell on -/

/-- Words that lie one behind the other on cells that are not marked. -/
inductive Lies (b : Board) : Finset Cell → List Placement → Prop where
  | nil (M : Finset Cell) : Lies b M []
  | cons {M : Finset Cell} {q : Placement} {L : List Placement}
      (hfree : b.Free M q.dir q.start q.word) (hnext : ∀ q' ∈ L.head?, q.Follows q')
      (hrest : Lies b (M ∪ q.cells.toFinset) L) : Lies b M (q :: L)

section

variable {b : Board} {M M' : Finset Cell} {L E : List Placement} {q : Placement}

theorem Lies.free (h : Lies b M (q :: L)) : b.Free M q.dir q.start q.word := by
  cases h with
  | cons hfree hnext hrest => exact hfree

theorem Lies.follows (h : Lies b M (q :: L)) : ∀ q' ∈ L.head?, q.Follows q' := by
  cases h with
  | cons hfree hnext hrest => exact hnext

theorem Lies.rest (h : Lies b M (q :: L)) : Lies b (M ∪ q.cells.toFinset) L := by
  cases h with
  | cons hfree hnext hrest => exact hrest

/-- Fewer marks leave more room. -/
theorem Lies.mono (h : Lies b M L) (hM : M' ⊆ M) : Lies b M' L := by
  induction h generalizing M' with
  | nil M => exact .nil M'
  | cons hfree hnext hrest ih =>
    refine .cons ⟨hfree.1, fun x hx hx' => hfree.2 x hx (hM hx')⟩ hnext (ih ?_)
    exact Finset.union_subset_union hM (Finset.Subset.refl _)

theorem lies_iff : Lies b M L ↔ IsLayout b (L.map (·.word)) L ∧ ∀ q ∈ L, ∀ x ∈ q.cells, x ∉ M := by
  induction L generalizing M with
  | nil =>
    refine iff_of_true (.nil M) ⟨⟨rfl, ?_, List.Pairwise.nil, .nil⟩, ?_⟩
    · exact fun _ hq => absurd hq not_mem_nil
    · exact fun _ hq => absurd hq not_mem_nil
  | cons q L ih =>
    constructor
    · intro h
      rcases ih.mp h.rest with ⟨hlayout, havoid⟩
      have hfree := h.free
      refine ⟨⟨rfl, ?_, ?_, ?_⟩, ?_⟩
      · exact forall_mem_cons.mpr ⟨hfree.1, hlayout.spells⟩
      · refine pairwise_cons.mpr ⟨fun q' hq' x hx hx' => ?_, hlayout.disjoint⟩
        exact havoid q' hq' x hx' (Finset.mem_union_right _ (List.mem_toFinset.mpr hx))
      · exact isChain_cons.mpr ⟨h.follows, hlayout.follows⟩
      · refine forall_mem_cons.mpr ⟨hfree.2, fun q' hq' x hx hM => ?_⟩
        exact havoid q' hq' x hx (Finset.mem_union_left _ hM)
    · rintro ⟨hlayout, havoid⟩
      have hspells := forall_mem_cons.mp hlayout.spells
      have hdisjoint := pairwise_cons.mp hlayout.disjoint
      have hfollows := isChain_cons.mp hlayout.follows
      refine .cons ⟨hspells.1, havoid q mem_cons_self⟩ hfollows.1 (ih.mpr ⟨⟨rfl, hspells.2,
        hdisjoint.2, hfollows.2⟩, fun q' hq' x hx hM => ?_⟩)
      rcases Finset.mem_union.mp hM with hM | hM
      · exact havoid q' (mem_cons_of_mem q hq') x hx hM
      · exact hdisjoint.1 q' hq' (List.mem_toFinset.mp hM) hx

theorem lies_empty_iff : Lies b ∅ L ↔ IsLayout b (L.map (·.word)) L := by
  rw [lies_iff]
  exact and_iff_left fun _ _ _ _ => Finset.notMem_empty _

/-- It begins in this direction at this cell. -/
def Begins (dir : Dir) (p : Cell) (L : List Placement) : Prop :=
  ∃ q ∈ L.head?, q.dir = dir ∧ q.start = p

/-- All the words lie on the board from this cell on. -/
def Full (b : Board) (M : Finset Cell) (dir : Dir) (p : Cell) (words : List Word) : Prop :=
  ∃ L, Lies b M L ∧ L.map (·.word) = words ∧ Begins dir p L

variable {dir : Dir} {p : Cell} {word : Word} {rest words : List Word}

theorem eq_of_begins (hL : Begins dir p L) (hwords : L.map (·.word) = word :: rest) :
    ∃ L', L = ⟨dir, p, word⟩ :: L' ∧ L'.map (·.word) = rest := by
  rcases hL with ⟨q, hq, hdir, hstart⟩
  cases L with
  | nil => cases hq
  | cons q' L' =>
    have hqq : q' = q := some.inj hq
    rcases List.cons.inj hwords with ⟨hword, hrest⟩
    have heq : q' = ⟨dir, p, word⟩ := by
      rw [← hdir, ← hstart, ← hword, hqq]
    exact ⟨L', by rw [heq], hrest⟩

theorem begins_cons (dir : Dir) (p : Cell) (word : Word) (L : List Placement) :
    Begins dir p (⟨dir, p, word⟩ :: L) := ⟨_, rfl, rfl, rfl⟩

/-- What follows a placement begins next to its end. -/
theorem begins_of_follows (h : ∀ q' ∈ L.head?, q.Follows q') (hL : L ≠ []) :
    ∃ dir, Begins dir (dir.move 1 q.last) L := by
  cases L with
  | nil => exact absurd rfl hL
  | cons q' L => exact ⟨q'.dir, q', rfl, rfl, h q' rfl⟩

theorem follows_of_begins (h : Begins dir (dir.move 1 q.last) L) : ∀ q' ∈ L.head?, q.Follows q' := by
  rcases h with ⟨q'', hq'', hdir, hstart⟩
  intro q' hq'
  have heq : q' = q'' := mem_unique hq' hq''
  rw [heq]
  unfold Placement.Follows
  rw [hstart, hdir]

theorem full_singleton (hfree : b.Free M dir p word) : Full b M dir p [word] :=
  ⟨[⟨dir, p, word⟩], .cons hfree (fun _ hq => nomatch hq) (.nil _), rfl, begins_cons dir p word []⟩

theorem full_cons_iff (hrest : rest ≠ []) : Full b M dir p (word :: rest) ↔
    b.Free M dir p word ∧ ∃ dir', Full b (M ∪ (dir.cells p word.length).toFinset) dir'
      (dir'.move 1 (Placement.last ⟨dir, p, word⟩)) rest := by
  constructor
  · rintro ⟨L, hL, hwords, hbegins⟩
    rcases eq_of_begins hbegins hwords with ⟨L', rfl, hwords'⟩
    have hne : L' ≠ [] := fun heq => hrest (by rw [← hwords', heq]; rfl)
    rcases begins_of_follows hL.follows hne with ⟨dir', hdir'⟩
    exact ⟨hL.free, dir', L', hL.rest, hwords', hdir'⟩
  · rintro ⟨hfree, dir', L, hL, hwords, hbegins⟩
    refine ⟨⟨dir, p, word⟩ :: L, .cons hfree (follows_of_begins hbegins) hL, ?_, begins_cons _ _ _ _⟩
    rw [map_cons, hwords]

theorem Full.mono (h : Full b M dir p words) (hM : M' ⊆ M) : Full b M' dir p words := by
  rcases h with ⟨L, hL, hwords, hbegins⟩
  exact ⟨L, hL.mono hM, hwords, hbegins⟩

theorem not_full_of_not_free (hfree : ¬ b.Free M dir p word) : ¬ Full b M dir p (word :: rest) := by
  rintro ⟨L, hL, hwords, hbegins⟩
  rcases eq_of_begins hbegins hwords with ⟨L', rfl, -⟩
  exact hfree hL.free

/-! ## The directions one after the other -/

theorem firstFound_spec {attempt : Dir → State → Except Exc (Bool × State)} {P : Dir → Prop} {s : State}
    (h : ∀ d, (∀ d', d'.number < d.number → ¬ P d') →
      (P d → ∃ s', attempt d s = .ok (true, s')) ∧ (¬ P d → attempt d s = .ok (false, s)))
    {ds : List Dir} (hsorted : ds.Pairwise fun d d' => d.number < d'.number)
    (hbefore : ∀ d, d ∉ ds → ¬ P d) :
    ((∃ d, P d) → ∃ s', firstFound attempt ds s = .ok (true, s')) ∧
      ((∀ d, ¬ P d) → firstFound attempt ds s = .ok (false, s)) := by
  induction ds with
  | nil =>
    refine ⟨fun ⟨d, hd⟩ => absurd hd (hbefore d not_mem_nil), fun _ => rfl⟩
  | cons d ds ih =>
    rcases pairwise_cons.mp hsorted with ⟨hlt, hsorted'⟩
    have hd := h d fun d' hd' => hbefore d' fun hmem => by
      rcases mem_cons.mp hmem with rfl | hmem
      · exact Nat.lt_irrefl _ hd'
      · exact Nat.lt_asymm hd' (hlt d' hmem)
    rw [firstFound]
    by_cases hP : P d
    · rcases hd.1 hP with ⟨s', hs'⟩
      rw [hs']
      exact ⟨fun _ => ⟨s', rfl⟩, fun hno => absurd hP (hno d)⟩
    · rw [hd.2 hP]
      refine ih hsorted' fun d' hd' hP' => ?_
      by_cases heq : d' = d
      · exact hP (heq ▸ hP')
      · exact hbefore d' (fun hmem => (mem_cons.mp hmem).elim heq hd') hP'

theorem dirs_sorted : dirs.Pairwise fun d d' => d.number < d'.number := by decide

theorem mem_dirs (d : Dir) : d ∈ dirs := by cases d <;> decide

/-! ## One word -/

theorem matchWord_outside {s : State} (h : s.board.Outside p) :
    matchWord dir p words s = .ok (false, s) := by
  rw [matchWord.eq_def]
  exact if_pos h

theorem matchWord_nil {s : State} (h : ¬ s.board.Outside p) :
    matchWord dir p [] s = .ok (true, s) := by
  rw [matchWord.eq_def]
  exact if_neg h

theorem not_outside_of_free (hword : word ≠ []) (h : b.Free M dir p word) : ¬ b.Outside p := by
  cases word with
  | nil => exact absurd rfl hword
  | cons letter rest => exact h.1.1

/-- The state with these marks. -/
def State.ofMarks (b : Board) (M : Finset Cell) (solution : List Line) (currPhrase : List Word) :
    State := ⟨b.marked M, solution, currPhrase⟩

variable {solution : List Line} {currPhrase : List Word}

theorem matchWord_miss (hb : b.Lower) (hword : word ≠ []) (hlower : ∀ c ∈ word, c.isLower = true)
    (hfree : ¬ b.Free M dir p word) :
    matchWord dir p (word :: rest) (.ofMarks b M solution currPhrase) =
      .ok (false, .ofMarks b M solution currPhrase) := by
  by_cases hout : (b.marked M).Outside p
  · exact matchWord_outside hout
  · rw [matchWord.eq_def]
    dsimp only [State.ofMarks]
    rw [if_neg hout, (checkDir_marked hb hword hlower).2 hfree]
    rfl

/-- The word was found: the next ones are looked for, or its marks are taken back. -/
theorem matchWord_hit (hb : b.Lower) (hword : word ≠ []) (hlower : ∀ c ∈ word, c.isLower = true)
    (hfree : b.Free M dir p word) :
    matchWord dir p (word :: rest) (.ofMarks b M solution currPhrase) =
      firstFound (fun d s => matchWord d (d.move 1 (Placement.last ⟨dir, p, word⟩)) rest s) dirs
        (.ofMarks b (M ∪ (dir.cells p word.length).toFinset) (lineOf dir p word.length :: solution)
          (word :: currPhrase)) >>= fun r => backtrack r.1 r.2 := by
  have hin := not_outside_of_free hword hfree
  have hout : ¬ (b.marked M).Outside p := hin
  rw [matchWord.eq_def]
  dsimp only [State.ofMarks]
  rw [if_neg hout, (checkDir_marked hb hword hlower).1 hfree]
  rfl

theorem backtrack_forward (hb : b.Lower) (hq : ¬ Placement.Stuck ⟨dir, p, word⟩) (hword : word ≠ [])
    (M : Finset Cell) :
    backtrack false (.ofMarks b M (lineOf dir p word.length :: solution) (word :: currPhrase)) =
      .ok (false, .ofMarks b (M \ (dir.cells p word.length).toFinset) solution currPhrase) := by
  have hlen : 2 ≤ word.length := by
    have hpos := length_pos_iff.mpr hword
    have hone : word.length ≠ 1 := fun h => hq (Or.inl h)
    omega
  have hdir : dir = .right ∨ dir = .down := by
    cases dir with
    | right => exact Or.inl rfl
    | down => exact Or.inr rfl
    | left => exact absurd (Or.inr (Or.inl rfl)) hq
    | up => exact absurd (Or.inr (Or.inr rfl)) hq
  have hline := lowerLine_forward (M := M) (p := p) hb hdir hlen
  unfold backtrack State.ofMarks
  rw [if_neg Bool.false_ne_true]
  dsimp only
  rw [hline]
  rfl

/-- A word that is stuck ends the search or leaves its marks. -/
theorem backtrack_stuck (hq : Placement.Stuck ⟨dir, p, word⟩) (hword : word ≠ []) {M : Finset Cell}
    {r : Bool × State}
    (h : backtrack false (.ofMarks b M (lineOf dir p word.length :: solution) (word :: currPhrase)) =
      .ok r) : r = (false, .ofMarks b M solution currPhrase) := by
  unfold backtrack State.ofMarks at h
  rw [if_neg Bool.false_ne_true] at h
  dsimp only at h
  by_cases hone : word.length = 1
  · rw [hone, lowerLine_single] at h
    cases h
  · have hlen : 2 ≤ word.length := by
      have hpos := length_pos_iff.mpr hword
      omega
    rw [lowerLine_backward (hq.resolve_left hone) hlen] at h
    cases h
    rfl

theorem not_outside_last (hword : word ≠ []) (h : b.Spells dir p word) :
    ¬ b.Outside (Placement.last ⟨dir, p, word⟩) := by
  induction word generalizing p with
  | nil => exact absurd rfl hword
  | cons letter rest ih =>
    cases rest with
    | nil =>
      have hzero : Placement.last ⟨dir, p, [letter]⟩ = p := by cases dir <;> simp [Placement.last, Dir.move]
      rw [hzero]
      exact h.1
    | cons next rest =>
      have hlast : Placement.last ⟨dir, p, letter :: next :: rest⟩ =
          Placement.last ⟨dir, dir.move 1 p, next :: rest⟩ := by
        unfold Placement.last
        dsimp only
        rw [Dir.move_move]
        congr 1
        simp only [length_cons]
        omega
      rw [hlast]
      exact ih (cons_ne_nil next rest) h.2.2

/-! ## The search does what it should where nothing gets stuck -/

/-- Every bad end of the words comes after a layout of them. -/
def Clean (b : Board) (M : Finset Cell) (dir : Dir) (p : Cell) (words : List Word) : Prop :=
  ∀ E, Lies b M E → E.map (·.word) <+: words → Begins dir p E →
    (¬ ∃ L, Lies b M L ∧ L.map (·.word) = words ∧ E <+: L) → (∃ q ∈ E.getLast?, q.Stuck) →
    ∃ L, Lies b M L ∧ L.map (·.word) = words ∧ Begins dir p L ∧ TriedBefore L E

theorem triedBefore_cons {q : Placement} : TriedBefore (q :: L) (q :: E) ↔ TriedBefore L E := by
  unfold TriedBefore
  rw [map_cons, map_cons]
  constructor
  · intro h
    cases h with
    | rel hlt => exact absurd hlt (Nat.lt_irrefl _)
    | cons h => exact h
  · exact List.Lex.cons

/-- What begins earlier begins in an earlier direction, or in the same. -/
theorem number_le_of_triedBefore {d d' : Dir} {p p' : Cell} (hL : Begins d p L) (hE : Begins d' p' E)
    (h : TriedBefore L E) : d.number ≤ d'.number := by
  rcases hL with ⟨q, hq, rfl, -⟩
  rcases hE with ⟨q', hq', rfl, -⟩
  cases L with
  | nil => cases hq
  | cons q₁ L =>
    cases E with
    | nil => cases hq'
    | cons q₂ E =>
      have h₁ : q₁ = q := some.inj hq
      have h₂ : q₂ = q' := some.inj hq'
      rw [← h₁, ← h₂]
      unfold TriedBefore at h
      rw [map_cons, map_cons] at h
      generalize q₁.dir = d₁ at h ⊢
      generalize q₂.dir = d₂ at h ⊢
      cases h with
      | rel hlt => exact Nat.le_of_lt hlt
      | cons => exact Nat.le_refl _

theorem Dir.number_inj {d d' : Dir} (h : d.number = d'.number) : d = d' := by
  cases d <;> cases d' <;> first | rfl | cases h

/-- After a word has been placed, the others are clean in the direction that comes next. -/
theorem Clean.after (hclean : Clean b M dir p (word :: rest)) (hrest : rest ≠ [])
    (hfree : b.Free M dir p word) {d : Dir}
    (hbefore : ∀ d', d'.number < d.number → ¬ Full b (M ∪ (dir.cells p word.length).toFinset) d'
      (d'.move 1 (Placement.last ⟨dir, p, word⟩)) rest) :
    Clean b (M ∪ (dir.cells p word.length).toFinset) d
      (d.move 1 (Placement.last ⟨dir, p, word⟩)) rest := by
  intro E hE hbeginning hbegins hdead hstuck
  have hEne : E ≠ [] := by
    rintro rfl
    rcases hbegins with ⟨q, hq, -⟩
    cases hq
  have hcons : Lies b M (⟨dir, p, word⟩ :: E) := .cons hfree (follows_of_begins hbegins) hE
  have hbeginning' : (Placement.mk dir p word :: E).map (·.word) <+: word :: rest := by
    rw [map_cons, cons_prefix_cons]
    exact ⟨rfl, hbeginning⟩
  have hdead' : ¬ ∃ L, Lies b M L ∧ L.map (·.word) = word :: rest ∧ ⟨dir, p, word⟩ :: E <+: L := by
    rintro ⟨L, hL, hwords, hEL⟩
    cases L with
    | nil => cases hwords
    | cons q L =>
      rcases cons_prefix_cons.mp hEL with ⟨heq, hEL'⟩
      rw [← heq] at hL
      exact hdead ⟨L, hL.rest, (List.cons.inj hwords).2, hEL'⟩
  have hstuck' : ∃ q ∈ (Placement.mk dir p word :: E).getLast?, q.Stuck := by
    rcases hstuck with ⟨q, hq, hqs⟩
    refine ⟨q, ?_, hqs⟩
    rw [getLast?_cons, mem_def.mp hq]
    rfl
  rcases hclean _ hcons hbeginning' (begins_cons dir p word E) hdead' hstuck' with
    ⟨L, hL, hwords, hbeginsL, htried⟩
  rcases eq_of_begins hbeginsL hwords with ⟨L', rfl, hwords'⟩
  have hL'ne : L' ≠ [] := fun heq => hrest (by rw [← hwords', heq]; rfl)
  rcases begins_of_follows hL.follows hL'ne with ⟨d', hd'⟩
  have htried' := triedBefore_cons.mp htried
  have hle := number_le_of_triedBefore hd' hbegins htried'
  have hnot : ¬ d'.number < d.number := fun hlt => hbefore d' hlt ⟨L', hL.rest, hwords', hd'⟩
  have hdd : d' = d := Dir.number_inj (by omega)
  rw [hdd] at hd'
  exact ⟨L', hL.rest, hwords', hd', htried'⟩

/-- A clean word that leads nowhere is not stuck. -/
theorem Clean.not_stuck (hclean : Clean b M dir p (word :: rest)) (hfree : b.Free M dir p word)
    (hnone : ¬ Full b M dir p (word :: rest)) : ¬ Placement.Stuck ⟨dir, p, word⟩ := by
  intro hstuck
  have hlies : Lies b M [⟨dir, p, word⟩] := .cons hfree (fun _ hq => nomatch hq) (.nil _)
  have hbeginning : [Placement.mk dir p word].map (·.word) <+: word :: rest :=
    cons_prefix_cons.mpr ⟨rfl, nil_prefix⟩
  have hdead : ¬ ∃ L, Lies b M L ∧ L.map (·.word) = word :: rest ∧ [⟨dir, p, word⟩] <+: L := by
    rintro ⟨L, hL, hwords, hEL⟩
    cases L with
    | nil => cases hwords
    | cons q L =>
      have heq := (cons_prefix_cons.mp hEL).1
      exact hnone ⟨q :: L, hL, hwords, q, rfl, by rw [← heq], by rw [← heq]⟩
  rcases hclean _ hlies hbeginning (begins_cons dir p word []) hdead ⟨_, rfl, hstuck⟩ with
    ⟨L, hL, hwords, hbegins, -⟩
  exact hnone ⟨L, hL, hwords, hbegins⟩

theorem Board.Wide.exists_next (h : b.Wide) {p : Cell} (hp : ¬ b.Outside p) :
    ∃ d : Dir, ¬ b.Outside (d.move 1 p) := by
  unfold Board.Outside at hp ⊢
  rcases h with h | h
  · by_cases hrow : p.1 + 1 < b.rows
    · refine ⟨.down, ?_⟩
      simp only [Dir.move]
      omega
    · refine ⟨.up, ?_⟩
      simp only [Dir.move]
      omega
  · by_cases hcol : p.2 + 1 < b.cols
    · refine ⟨.right, ?_⟩
      simp only [Dir.move]
      omega
    · refine ⟨.left, ?_⟩
      simp only [Dir.move]
      omega

theorem wide_of_next {d : Dir} (hp : ¬ b.Outside p) (hnext : ¬ b.Outside (d.move 1 p)) : b.Wide := by
  unfold Board.Outside at hp hnext
  unfold Board.Wide
  cases d <;> simp only [Dir.move] at hnext <;> omega

theorem union_sdiff_cells (hfree : b.Free M dir p word) :
    (M ∪ (dir.cells p word.length).toFinset) \ (dir.cells p word.length).toFinset = M := by
  refine Finset.ext fun x => ?_
  rw [Finset.mem_sdiff, Finset.mem_union, List.mem_toFinset]
  constructor
  · rintro ⟨hx | hx, hnot⟩
    · exact hx
    · exact absurd hx hnot
  · exact fun hx => ⟨Or.inl hx, fun hcell => hfree.2 x hcell hx⟩

/-- From a clean cell the words are found just when they lie there, and otherwise the board
is left as it was. -/
theorem matchWord_clean (hb : b.Lower) (hne : words ≠ [])
    (hwide : Full b M dir p words → b.Wide)
    (hwords : ∀ word ∈ words, word ≠ [] ∧ ∀ c ∈ word, c.isLower = true)
    (hclean : Clean b M dir p words) :
    (Full b M dir p words → ∃ s', matchWord dir p words (.ofMarks b M solution currPhrase) =
      .ok (true, s')) ∧
    (¬ Full b M dir p words → matchWord dir p words (.ofMarks b M solution currPhrase) =
      .ok (false, .ofMarks b M solution currPhrase)) := by
  induction words generalizing M dir p solution currPhrase with
  | nil => exact absurd rfl hne
  | cons word rest ih =>
    rcases forall_mem_cons.mp hwords with ⟨⟨hword, hlower⟩, hrestwords⟩
    by_cases hfree : b.Free M dir p word
    case neg =>
      have hnot : ¬ Full b M dir p (word :: rest) := not_full_of_not_free hfree
      exact ⟨fun h => absurd h hnot, fun _ => matchWord_miss hb hword hlower hfree⟩
    -- the four directions from the end of the word
    have hnext : (Full b M dir p (word :: rest) → ∃ s', firstFound
          (fun d s => matchWord d (d.move 1 (Placement.last ⟨dir, p, word⟩)) rest s) dirs
          (.ofMarks b (M ∪ (dir.cells p word.length).toFinset)
            (lineOf dir p word.length :: solution) (word :: currPhrase)) = .ok (true, s')) ∧
        (¬ Full b M dir p (word :: rest) → firstFound
          (fun d s => matchWord d (d.move 1 (Placement.last ⟨dir, p, word⟩)) rest s) dirs
          (.ofMarks b (M ∪ (dir.cells p word.length).toFinset)
            (lineOf dir p word.length :: solution) (word :: currPhrase)) =
          .ok (false, .ofMarks b (M ∪ (dir.cells p word.length).toFinset)
            (lineOf dir p word.length :: solution) (word :: currPhrase))) := by
      by_cases hrest : rest = []
      · subst hrest
        refine ⟨fun _ => ?_, fun hnot => absurd (full_singleton hfree) hnot⟩
        refine (firstFound_spec (P := fun d => ¬ b.Outside
          (d.move 1 (Placement.last ⟨dir, p, word⟩))) (fun d _ => ⟨fun hin => ?_, fun hout => ?_⟩)
          dirs_sorted fun d hd => absurd (mem_dirs d) hd).1
          ((hwide (full_singleton hfree)).exists_next (not_outside_last hword hfree.1))
        · exact ⟨_, matchWord_nil hin⟩
        · exact matchWord_outside (Classical.not_not.mp hout)
      · have hspec := firstFound_spec
          (s := .ofMarks b (M ∪ (dir.cells p word.length).toFinset)
            (lineOf dir p word.length :: solution) (word :: currPhrase))
          (P := fun d => Full b (M ∪ (dir.cells p word.length).toFinset) d
            (d.move 1 (Placement.last ⟨dir, p, word⟩)) rest)
          (fun d hbefore => ih hrest (fun h => hwide ((full_cons_iff hrest).mpr ⟨hfree, d, h⟩))
            hrestwords (hclean.after hrest hfree hbefore))
          dirs_sorted fun d hd => absurd (mem_dirs d) hd
        rw [full_cons_iff hrest]
        refine ⟨fun h => hspec.1 h.2, fun hnot => hspec.2 fun d hd => hnot ⟨hfree, d, hd⟩⟩
    rw [matchWord_hit hb hword hlower hfree]
    constructor
    · intro hfull
      rcases hnext.1 hfull with ⟨s', hs'⟩
      rw [hs']
      exact ⟨s', rfl⟩
    · intro hnot
      rw [hnext.2 hnot, Lib.ok_bind]
      rw [backtrack_forward hb (hclean.not_stuck hfree hnot) hword, union_sdiff_cells hfree]

end

end PittCs.Cs445.FindPhrase
