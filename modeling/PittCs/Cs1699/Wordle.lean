import Mathlib.Data.List.TakeWhile
import PittCs.Cs1699.Basic

/-!
# Wordle and its helper

`Wordle.hs` and `WordleHelper.hs`. A failing `!!` and a call of `error` are a missing
result. The hint says of every position of the guess how it relates to the goal; the
helper keeps the words of which its filters, one for each position, hold. Both come down
to one mark for each position.
-/

namespace PittCs.Cs1699.Wordle

open List

/-! ## The game -/

/-- The step of the fold in `getHint`. -/
def hintStep (goal acc : HString) (x : HChar) : Option HString :=
  if !goal.contains x then some (acc ++ [chr '-'])
  else goal[acc.length]?.map fun y => if y != x then acc ++ [chr '+'] else acc ++ [chr '*']

/-- `getHint`. -/
def getHint (goal guess : HString) : Option HString := guess.foldlM (hintStep goal) []

/-! ## The helper -/

/-- `filter` with a condition that may fail. -/
def filterE {α : Type} (p : α → Option Bool) : List α → Option (List α)
  | [] => some []
  | x :: xs => (p x).bind fun keep => (filterE p xs).map fun ys => if keep then x :: ys else ys

/-- The words that are left, and the three lists of what is known. -/
abbrev Knowledge := List HString × HString × List (HChar × Nat) × List (HChar × Nat)

/-- `filterList`. -/
def filterList : HString → HString → Nat → List HString → HString → List (HChar × Nat) →
    List (HChar × Nat) → Option Knowledge
  | [], _, _, dict, a, b, c => some (dict, a, b, c)
  | _ :: _, [], _, dict, a, b, c => some (dict, a, b, c)
  | g :: guess, h :: hint, pos, dict, a, b, c =>
    if h == chr '-' then
      filterList guess hint (pos + 1) (dict.filter fun x => !x.contains g) (a ++ [g]) b c
    else if h == chr '+' then
      (filterE (fun x => if x.contains g then x[pos]?.map (· != g) else some false) dict).bind
        fun newDict => filterList guess hint (pos + 1) newDict a (b ++ [(g, pos)]) c
    else if h == chr '*' then
      (filterE (fun x => if x.contains g then x[pos]?.map (· == g) else some false) dict).bind
        fun newDict => filterList guess hint (pos + 1) newDict a b (c ++ [(g, pos)])
    else none

/-- A character of a hint. -/
def isHint (x : HChar) : Bool := !(x != chr '-' && x != chr '+' && x != chr '*')

/-- What `helper` does with a line of input. -/
def helperStep (s : Knowledge) (ln : HString) : Option Knowledge :=
  if ln == lit "0" then some s
  else
    filterList (ln.takeWhile fun x => !isHint x) (ln.dropWhile fun x => !isHint x) 0 s.1 s.2.1
      s.2.2.1 s.2.2.2

/-! ## Marks -/

/-- How a character of the guess at a position relates to a word. -/
def mark (word : HString) (x : HChar) (i : Nat) : HChar :=
  if !word.contains x then chr '-' else if word[i]? = some x then chr '*' else chr '+'

def marks (word guess : HString) (pos : Nat) : HString :=
  (guess.zipIdx pos).map fun p => mark word p.1 p.2

theorem marks_cons (word : HString) (x : HChar) (guess : HString) (pos : Nat) :
    marks word (x :: guess) pos = mark word x pos :: marks word guess (pos + 1) := rfl

theorem length_marks (word guess : HString) (pos : Nat) :
    (marks word guess pos).length = guess.length := by
  simp [marks]

theorem hintStep_eq {goal acc : HString} {x : HChar} (h : acc.length < goal.length) :
    hintStep goal acc x = some (acc ++ [mark goal x acc.length]) := by
  unfold hintStep mark
  by_cases hx : x ∈ goal
  · rw [List.getElem?_eq_getElem h]
    by_cases heq : goal[acc.length] = x
    · simp [hx, heq]
    · simp [hx, heq]
  · simp [hx]

theorem foldlM_hintStep {goal guess acc : HString} (h : acc.length + guess.length ≤ goal.length) :
    guess.foldlM (hintStep goal) acc = some (acc ++ marks goal guess acc.length) := by
  induction guess generalizing acc with
  | nil => simp [marks]
  | cons x guess ih =>
    rw [length_cons] at h
    rw [foldlM_cons, hintStep_eq (by omega), Option.bind_eq_bind, Option.bind_some,
      ih (by simp; omega), marks_cons, append_assoc]
    simp

theorem getHint_eq {goal guess : HString} (h : guess.length ≤ goal.length) :
    getHint goal guess = some (marks goal guess 0) := by
  rw [getHint, foldlM_hintStep (by simpa using h)]
  rfl

theorem isHint_mark (word : HString) (x : HChar) (i : Nat) : isHint (mark word x i) := by
  unfold mark
  split
  · decide
  · split <;> decide

/-! ## Filtering -/

theorem filterE_eq {α : Type} {p : α → Option Bool} {q : α → Bool} {l : List α}
    (h : ∀ x ∈ l, p x = some (q x)) : filterE p l = some (l.filter q) := by
  induction l with
  | nil => rfl
  | cons x l ih =>
    rw [filterE, h x mem_cons_self, Option.bind_some,
      ih fun y hy => h y (mem_cons_of_mem x hy), Option.map_some, filter_cons]

/-- The three characters of hints differ. -/
theorem hint_chars : chr '-' ≠ chr '+' ∧ chr '-' ≠ chr '*' ∧ chr '+' ≠ chr '*' := by decide

/-- One round of `filterList` keeps the words with the mark of the hint. -/
theorem filterList_cons (g : HChar) (guess hint goal : HString) (pos : Nat) {dict : List HString}
    (hdict : ∀ w ∈ dict, pos < w.length) (a : HString) (b c : List (HChar × Nat)) :
    ∃ a' b' c', filterList (g :: guess) (mark goal g pos :: hint) pos dict a b c =
      filterList guess hint (pos + 1) (dict.filter fun w => mark w g pos == mark goal g pos)
        a' b' c' := by
  rcases hint_chars with ⟨hmp, hms, hps⟩
  have hat : ∀ w ∈ dict, ∃ y, w[pos]? = some y := by
    intro w hw
    exact ⟨_, List.getElem?_eq_getElem (hdict w hw)⟩
  by_cases hg : g ∈ goal
  · by_cases hpos : goal[pos]? = some g
    · have hmark : mark goal g pos = chr '*' := by simp [mark, hg, hpos]
      -- the letter is in its place
      have hfilter : filterE (fun x => if x.contains g then x[pos]?.map (· == g) else some false)
          dict = some (dict.filter fun w => mark w g pos == chr '*') := by
        apply filterE_eq
        intro w hw
        rcases hat w hw with ⟨y, hy⟩
        by_cases hwg : g ∈ w
        · by_cases hyg : y = g
          · simp [mark, hwg, hy, hyg]
          · simp [mark, hwg, hy, hyg, hps]
        · simp [mark, hwg, hms]
      refine ⟨a, b, c ++ [(g, pos)], ?_⟩
      rw [hmark, filterList, if_neg (by simpa using hms.symm), if_neg (by simpa using hps.symm),
        if_pos (by simp), hfilter, Option.bind_some]
    · have hmark : mark goal g pos = chr '+' := by simp [mark, hg, hpos]
      -- the letter is elsewhere
      have hfilter : filterE (fun x => if x.contains g then x[pos]?.map (· != g) else some false)
          dict = some (dict.filter fun w => mark w g pos == chr '+') := by
        apply filterE_eq
        intro w hw
        rcases hat w hw with ⟨y, hy⟩
        by_cases hwg : g ∈ w
        · by_cases hyg : y = g
          · simp [mark, hwg, hy, hyg, hps.symm]
          · simp [mark, hwg, hy, hyg]
        · simp [mark, hwg, hmp]
      refine ⟨a, b ++ [(g, pos)], c, ?_⟩
      rw [hmark, filterList, if_neg (by simpa using hmp.symm), if_pos (by simp), hfilter,
        Option.bind_some]
  · have hmark : mark goal g pos = chr '-' := by simp [mark, hg]
    have hfilter : (fun w : HString => mark w g pos == chr '-') = fun w => !w.contains g := by
      funext w
      by_cases hwg : g ∈ w
      · by_cases hy : w[pos]? = some g
        · simp [mark, hwg, hy, hms.symm]
        · simp [mark, hwg, hy, hmp.symm]
      · simp [mark, hwg]
    refine ⟨a ++ [g], b, c, ?_⟩
    rw [hmark, filterList, if_pos (by simp), hfilter]

theorem filterList_marks (guess goal : HString) (pos : Nat) {dict : List HString}
    (hdict : ∀ w ∈ dict, pos + guess.length ≤ w.length) (a : HString) (b c : List (HChar × Nat)) :
    ∃ a' b' c', filterList guess (marks goal guess pos) pos dict a b c =
      some (dict.filter fun w => marks w guess pos == marks goal guess pos, a', b', c') := by
  induction guess generalizing pos dict a b c with
  | nil =>
    refine ⟨a, b, c, ?_⟩
    rw [filterList]
    have hall : dict.filter (fun w => marks w [] pos == marks goal [] pos) = dict :=
      filter_eq_self.mpr fun w _ => beq_self_eq_true _
    rw [hall]
  | cons g guess ih =>
    rw [marks_cons]
    have hhead : ∀ w ∈ dict, pos < w.length := by
      intro w hw
      have hlen := hdict w hw
      rw [length_cons] at hlen
      omega
    have htail : ∀ w ∈ dict.filter fun w => mark w g pos == mark goal g pos,
        pos + 1 + guess.length ≤ w.length := by
      intro w hw
      have hlen := hdict w (mem_filter.mp hw).1
      rw [length_cons] at hlen
      omega
    obtain ⟨a₁, b₁, c₁, hround⟩ :=
      filterList_cons g guess (marks goal guess (pos + 1)) goal pos hhead a b c
    obtain ⟨a₂, b₂, c₂, hrest⟩ := ih (pos + 1) htail a₁ b₁ c₁
    refine ⟨a₂, b₂, c₂, ?_⟩
    rw [hround, hrest, List.filter_filter]
    congr 2
    apply filter_congr
    intro w _
    simp only [marks_cons, cons_beq_cons, Bool.and_comm]

/-! ## Rounds -/

/-- A line of input: a guess and its hint. -/
def roundLine (goal guess : HString) : Option HString := (getHint goal guess).map (guess ++ ·)

theorem isHint_of_mem_marks {word guess : HString} {pos : Nat} {x : HChar}
    (h : x ∈ marks word guess pos) : isHint x := by
  rcases mem_map.mp h with ⟨p, -, rfl⟩
  exact isHint_mark word p.1 p.2

/-- The helper reads the guess and the hint out of the line. -/
theorem helperStep_line {guess hint : HString} (s : Knowledge) (hguess : ∀ x ∈ guess, isHint x = false)
    (hhint : ∀ x ∈ hint, isHint x) (hlen : hint.length = guess.length) :
    helperStep s (guess ++ hint) = filterList guess hint 0 s.1 s.2.1 s.2.2.1 s.2.2.2 := by
  have hzero : guess ++ hint ≠ lit "0" := by
    intro heq
    have hlength := congrArg List.length heq
    rw [length_append, hlen, show (lit "0").length = 1 from rfl] at hlength
    omega
  have htake : guess.takeWhile (fun x => !isHint x) = guess := by
    rw [takeWhile_eq_self_iff]
    intro x hx
    simp [hguess x hx]
  have hdrop : guess.dropWhile (fun x => !isHint x) = [] := by
    rw [dropWhile_eq_nil_iff]
    intro x hx
    simp [hguess x hx]
  have hhead : hint.takeWhile (fun x => !isHint x) = [] ∧ hint.dropWhile (fun x => !isHint x) = hint := by
    cases hint with
    | nil => exact ⟨rfl, rfl⟩
    | cons x hint => simp [hhint x mem_cons_self]
  rw [helperStep, if_neg (by simpa using hzero), takeWhile_append, dropWhile_append, htake,
    hdrop, hhead.1, hhead.2]
  simp

section Agree

variable {n : Nat} {dict : List HString} {goal guess : HString}

/-- One round of the helper. -/
theorem filterList_getHint (hdict : ∀ w ∈ dict, w.length = n) (hgoal : goal.length = n)
    (hguess : guess.length = n) (a : HString) (b c : List (HChar × Nat)) :
    ∃ hint a' b' c', getHint goal guess = some hint ∧
      filterList guess hint 0 dict a b c =
        some (dict.filter fun w => getHint w guess == getHint goal guess, a', b', c') := by
  obtain ⟨a', b', c', hfilter⟩ := filterList_marks guess goal 0
    (fun w hw => by rw [hdict w hw]; omega) a b c
  refine ⟨marks goal guess 0, a', b', c', getHint_eq (by omega), ?_⟩
  rw [hfilter]
  congr 2
  apply filter_congr
  intro w hw
  rw [getHint_eq (by rw [hdict w hw]; omega), getHint_eq (by omega)]
  rfl

/-- Several rounds of the helper. -/
theorem foldlM_helperStep {guesses : List HString} (s : Knowledge) (hdict : ∀ w ∈ s.1, w.length = n)
    (hgoal : goal.length = n) (hguesses : ∀ g ∈ guesses, g.length = n ∧ ∀ x ∈ g, isHint x = false) :
    ∃ lines a' b' c', guesses.mapM (roundLine goal) = some lines ∧
      lines.foldlM helperStep s =
        some (s.1.filter fun w => guesses.all fun g => getHint w g == getHint goal g, a', b', c') := by
  induction guesses generalizing s with
  | nil =>
    refine ⟨[], s.2.1, s.2.2.1, s.2.2.2, rfl, ?_⟩
    have hall : s.1.filter (fun w => ([] : List HString).all fun g =>
        getHint w g == getHint goal g) = s.1 := filter_eq_self.mpr fun w _ => rfl
    rw [hall]
    rfl
  | cons g guesses ih =>
    obtain ⟨hlen, hfree⟩ := hguesses g mem_cons_self
    obtain ⟨hint, a₁, b₁, c₁, hhint, hfilter⟩ :=
      filterList_getHint hdict hgoal hlen s.2.1 s.2.2.1 s.2.2.2
    have hmarks : hint = marks goal g 0 :=
      Option.some.inj (hhint.symm.trans (getHint_eq (by omega)))
    have hstep : helperStep s (g ++ hint) =
        some (s.1.filter fun w => getHint w g == getHint goal g, a₁, b₁, c₁) := by
      rw [helperStep_line s hfree, hfilter]
      · intro x hx
        rw [hmarks] at hx
        exact isHint_of_mem_marks hx
      · rw [hmarks, length_marks]
    obtain ⟨lines, a', b', c', hlines, hfold⟩ := ih
      (s.1.filter fun w => getHint w g == getHint goal g, a₁, b₁, c₁)
      (fun w hw => hdict w (mem_filter.mp hw).1)
      (fun g' hg' => hguesses g' (mem_cons_of_mem g hg'))
    refine ⟨(g ++ hint) :: lines, a', b', c', ?_, ?_⟩
    · rw [mapM_cons, hlines, roundLine, hhint]
      rfl
    · rw [foldlM_cons, hstep, Option.bind_eq_bind, Option.bind_some, hfold, List.filter_filter]
      congr 2
      apply filter_congr
      intro w _
      rw [all_cons, Bool.and_comm]

/-- The helper keeps exactly the words that would have given the same hint, in their
order, after one guess and after any sequence of guesses; the goal is one of them. -/
theorem helper_agrees (hdict : ∀ w ∈ dict, w.length = n) (hgoal : goal ∈ dict) :
    (∀ (guess : HString) a b c, guess.length = n → (∀ x ∈ guess, isHint x = false) →
      ∃ hint a' b' c', getHint goal guess = some hint ∧
        filterList guess hint 0 dict a b c =
          some (dict.filter fun w => getHint w guess == getHint goal guess, a', b', c') ∧
        goal ∈ dict.filter fun w => getHint w guess == getHint goal guess) ∧
    (∀ (guesses : List HString) a b c, (∀ g ∈ guesses, g.length = n ∧ ∀ x ∈ g, isHint x = false) →
      ∃ lines a' b' c', guesses.mapM (roundLine goal) = some lines ∧
        lines.foldlM helperStep (dict, a, b, c) =
          some (dict.filter fun w => guesses.all fun g => getHint w g == getHint goal g,
            a', b', c') ∧
        goal ∈ dict.filter fun w => guesses.all fun g => getHint w g == getHint goal g) := by
  have hlen := hdict goal hgoal
  constructor
  · intro guess a b c hguess _
    obtain ⟨hint, a', b', c', hhint, hfilter⟩ := filterList_getHint hdict hlen hguess a b c
    exact ⟨hint, a', b', c', hhint, hfilter, mem_filter.mpr ⟨hgoal, by simp⟩⟩
  · intro guesses a b c hguesses
    obtain ⟨lines, a', b', c', hlines, hfold⟩ :=
      foldlM_helperStep (dict, a, b, c) hdict hlen hguesses
    exact ⟨lines, a', b', c', hlines, hfold, mem_filter.mpr ⟨hgoal, by simp⟩⟩

theorem helper_agrees_watts :
    (∀ (guess : HString) a b c, guess.length = 5 → (∀ x ∈ guess, isHint x = false) →
      ∃ hint a' b' c', getHint (lit "wroth") guess = some hint ∧
        filterList guess hint 0 [lit "watts", lit "wroth"] a b c =
          some ([lit "watts", lit "wroth"].filter fun w =>
            getHint w guess == getHint (lit "wroth") guess, a', b', c') ∧
        lit "wroth" ∈ [lit "watts", lit "wroth"].filter fun w =>
          getHint w guess == getHint (lit "wroth") guess) ∧
    (∀ (guesses : List HString) a b c, (∀ g ∈ guesses, g.length = 5 ∧ ∀ x ∈ g, isHint x = false) →
      ∃ lines a' b' c', guesses.mapM (roundLine (lit "wroth")) = some lines ∧
        lines.foldlM helperStep ([lit "watts", lit "wroth"], a, b, c) =
          some ([lit "watts", lit "wroth"].filter fun w =>
            guesses.all fun g => getHint w g == getHint (lit "wroth") g, a', b', c') ∧
        lit "wroth" ∈ [lit "watts", lit "wroth"].filter fun w =>
          guesses.all fun g => getHint w g == getHint (lit "wroth") g) :=
  helper_agrees (by simp [lit]) (by simp)

end Agree

end PittCs.Cs1699.Wordle
