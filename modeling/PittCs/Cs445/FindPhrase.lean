import Mathlib.Data.Finset.Basic
import Mathlib.Data.Finset.Lattice.Lemmas
import PittCs.Lib.Outcome

/-!
# Searching a grid for a phrase

`FindPhrase.java`. A cell is a row and a column. The search marks the letters it uses by
writing them in upper case, on the board itself, and takes its marks back when it fails.
The words that are still to be found stand for `phrase` and `currWord`, the letters that
are still to be matched for `word` and `count`.
-/

namespace PittCs.Cs445.FindPhrase

open Function List

abbrev Cell := Int × Int

abbrev Word := List Char

/-- 1 to 4. -/
inductive Dir where
  | right
  | down
  | left
  | up
deriving DecidableEq

def Dir.move : Dir → Int → Cell → Cell
  | right, n, p => (p.1, p.2 + n)
  | down, n, p => (p.1 + n, p.2)
  | left, n, p => (p.1, p.2 - n)
  | up, n, p => (p.1 - n, p.2)

structure Board where
  rows : Nat
  cols : Nat
  letter : Cell → Char

/-- The test that begins `matchWord` and `checkDir`. -/
def Board.Outside (b : Board) (p : Cell) : Prop :=
  p.1 ≥ b.rows ∨ p.1 < 0 ∨ p.2 ≥ b.cols ∨ p.2 < 0

instance decidableOutside (b : Board) (p : Cell) : Decidable (b.Outside p) :=
  inferInstanceAs (Decidable (_ ∨ _))

def Board.toUpperCase (b : Board) (p : Cell) : Board :=
  { b with letter := Function.update b.letter p (b.letter p).toUpper }

def Board.toLowerCase (b : Board) (p : Cell) : Board :=
  { b with letter := Function.update b.letter p (b.letter p).toLower }

structure Line where
  x_initial : Int
  y_initial : Int
  x_final : Int
  y_final : Int

structure State where
  board : Board
  solution : List Line
  currPhrase : List Word

inductive Exc where
  | stringIndexOutOfBounds
  | emptyStack
  /-- `/ by zero`. -/
  | arithmetic
  /-- A loop that does not end. -/
  | diverges
deriving DecidableEq

/-- Matches the rest of a word and marks it. -/
def checkDir (dir : Dir) : Cell → Word → Board → Except Exc (Bool × Board)
  | p, word, bo =>
    if bo.Outside p then .ok (false, bo)
    else
      match word with
      | [] => .error .stringIndexOutOfBounds
      | [letter] => .ok (if letter = bo.letter p then (true, bo.toUpperCase p) else (false, bo))
      | letter :: next :: rest =>
        if letter = bo.letter p then do
          let (result, bo) ← checkDir dir (dir.move 1 p) (next :: rest) (bo.toUpperCase p)
          return (result, if result then bo else bo.toLowerCase p)
        else .ok (false, bo)

/-- The loops of `lowerLine`: `i += delta / Math.abs(delta)` after each turn. -/
def lowerLoop (cell : Int → Cell) (delta i last : Int) (board : Board) : Except Exc Board :=
  if i ≤ last then
    let board := board.toLowerCase (cell i)
    if delta = 0 then .error .arithmetic
    else if delta > 0 then lowerLoop cell delta (i + 1) last board
    else .error .diverges
  else .ok board
termination_by (last + 1 - i).toNat

def lowerLine (lower : Line) (board : Board) : Except Exc Board :=
  let delta_y := lower.y_final - lower.y_initial
  let delta_x := lower.x_final - lower.x_initial
  if delta_y = 0 then
    lowerLoop (fun i => (lower.y_final, i)) delta_x lower.x_initial lower.x_final board
  else if delta_x = 0 then
    lowerLoop (fun i => (i, lower.x_final)) delta_y lower.y_initial lower.y_final board
  else .ok board

/-- Tries directions one after the other, until something is found. -/
def firstFound (attempt : Dir → State → Except Exc (Bool × State)) :
    List Dir → State → Except Exc (Bool × State)
  | [], s => .ok (false, s)
  | dir :: dirs, s => do
      let (found, s) ← attempt dir s
      if found then return (true, s) else firstFound attempt dirs s

def dirs : List Dir := [.right, .down, .left, .up]

/-- The end of `matchWord`: if the next word is not found, the last one is taken back. -/
def backtrack (found : Bool) (s : State) : Except Exc (Bool × State) :=
  if found then .ok (true, s)
  else
    match s.solution, s.currPhrase with
    | makeLower :: solution, _ :: currPhrase => do
      let bo ← lowerLine makeLower s.board
      return (false, ⟨bo, solution, currPhrase⟩)
    | _, _ => .error .emptyStack

def matchWord : Dir → Cell → List Word → State → Except Exc (Bool × State)
  | dir, p, words, s =>
    if s.board.Outside p then .ok (false, s)
    else
      match words with
      | [] => .ok (true, s)
      | word :: rest => do
        let (hit, bo) ← checkDir dir p word s.board
        if hit then
          let last := dir.move ((word.length : Int) - 1) p
          let coordinates : Line := ⟨p.2, p.1, last.2, last.1⟩
          let pushed : State := ⟨bo, coordinates :: s.solution, word :: s.currPhrase⟩
          let (found, s) ← firstFound (fun dir s => matchWord dir (dir.move 1 last) rest s) dirs pushed
          backtrack found s
        else return (false, { s with board := bo })

def matchPhrase (p : Cell) (phrase : List Word) (s : State) : Except Exc (Bool × State) :=
  firstFound (fun dir s => matchWord dir p phrase s) dirs s

/-- The start cells, row by row. -/
def Board.starts (b : Board) : List Cell :=
  (List.range b.rows).flatMap fun (r : Nat) => (List.range b.cols).map fun (c : Nat) => (r, c)

/-- The search over some start cells. -/
def searchFrom (phrase : List Word) : List Cell → Board → Except Exc (Bool × Board)
  | [], board => .ok (false, board)
  | p :: ps, board => do
      let (found, s) ← matchPhrase p phrase ⟨board, [], []⟩
      if found then return (true, s.board) else searchFrom phrase ps s.board

def search (phrase : List Word) (board : Board) : Except Exc (Bool × Board) :=
  searchFrom phrase board.starts board

/-! ## Letters and marks -/

/-- There are 26 lower-case letters. -/
theorem exists_of_isLower {c : Char} (h : c.isLower = true) : ∃ k < 26, c = Char.ofNat (97 + k) := by
  have hval : (c.val ≥ 'a'.val && c.val ≤ 'z'.val) = true := h
  have hrange : 97 ≤ c.toNat ∧ c.toNat ≤ 122 := by
    simpa [UInt32.le_iff_toNat_le] using hval
  refine ⟨c.toNat - 97, by omega, ?_⟩
  rw [Nat.add_sub_cancel' hrange.1, Char.ofNat_toNat]

theorem toLower_of_isLower {c : Char} (h : c.isLower = true) : c.toLower = c := by
  obtain ⟨k, hk, rfl⟩ := exists_of_isLower h
  revert k
  decide

theorem toLower_toUpper {c : Char} (h : c.isLower = true) : c.toUpper.toLower = c := by
  obtain ⟨k, hk, rfl⟩ := exists_of_isLower h
  revert k
  decide

/-- What is marked does not match. -/
theorem ne_toUpper {c d : Char} (hc : c.isLower = true) (hd : d.isLower = true) :
    c ≠ d.toUpper := by
  rintro rfl
  obtain ⟨k, hk, rfl⟩ := exists_of_isLower hd
  revert k
  decide

/-- The board with some cells marked. -/
def Board.marked (b : Board) (M : Finset Cell) : Board :=
  { b with letter := fun p => if p ∈ M then (b.letter p).toUpper else b.letter p }

/-- All letters are lower-case. -/
def Board.Lower (b : Board) : Prop := ∀ p, (b.letter p).isLower = true

section

variable {b : Board} {M : Finset Cell} {p : Cell}

theorem marked_letter_of_mem (h : p ∈ M) : (b.marked M).letter p = (b.letter p).toUpper := if_pos h

theorem marked_letter_of_not_mem (h : p ∉ M) : (b.marked M).letter p = b.letter p := if_neg h

theorem marked_empty (b : Board) : b.marked ∅ = b := by
  unfold Board.marked
  simp only [Finset.notMem_empty, if_false]

theorem toUpperCase_marked (h : p ∉ M) : (b.marked M).toUpperCase p = b.marked (insert p M) := by
  have hletter : Function.update (b.marked M).letter p ((b.marked M).letter p).toUpper =
      (b.marked (insert p M)).letter := by
    funext q
    by_cases hq : q = p
    · rw [hq, update_self, marked_letter_of_not_mem h,
        marked_letter_of_mem (Finset.mem_insert_self p M)]
    · rw [update_of_ne hq]
      simp only [Board.marked, Finset.mem_insert, hq, false_or]
  unfold Board.toUpperCase
  rw [hletter]
  rfl

theorem toLowerCase_marked (hb : b.Lower) : (b.marked M).toLowerCase p = b.marked (M.erase p) := by
  have hletter : Function.update (b.marked M).letter p ((b.marked M).letter p).toLower =
      (b.marked (M.erase p)).letter := by
    funext q
    by_cases hq : q = p
    · rw [hq, update_self, marked_letter_of_not_mem (Finset.notMem_erase p M)]
      by_cases hp : p ∈ M
      · rw [marked_letter_of_mem hp, toLower_toUpper (hb p)]
      · rw [marked_letter_of_not_mem hp, toLower_of_isLower (hb p)]
    · rw [update_of_ne hq]
      simp only [Board.marked, Finset.mem_erase, ne_eq, hq, not_false_eq_true, true_and]
  unfold Board.toLowerCase
  rw [hletter]
  rfl

/-- Different marks make different boards. -/
theorem marked_inj (hb : b.Lower) {M' : Finset Cell} (h : b.marked M = b.marked M') : M = M' := by
  have hletter : ∀ q, (b.marked M).letter q = (b.marked M').letter q := fun q => by rw [h]
  refine Finset.ext fun q => ?_
  have hq := hletter q
  by_cases hM : q ∈ M <;> by_cases hM' : q ∈ M'
  · exact iff_of_true hM hM'
  · rw [marked_letter_of_mem hM, marked_letter_of_not_mem hM'] at hq
    exact absurd hq.symm (ne_toUpper (hb q) (hb q))
  · rw [marked_letter_of_not_mem hM, marked_letter_of_mem hM'] at hq
    exact absurd hq (ne_toUpper (hb q) (hb q))
  · exact iff_of_false hM hM'

end

/-! ## Segments -/

/-- So many cells in a direction. -/
def Dir.cells (dir : Dir) : Cell → Nat → List Cell
  | _, 0 => []
  | p, n + 1 => p :: dir.cells (dir.move 1 p) n

/-- The word stands on the grid from this cell on. -/
def Board.Spells (b : Board) (dir : Dir) : Cell → Word → Prop
  | _, [] => True
  | p, letter :: rest => ¬ b.Outside p ∧ b.letter p = letter ∧ b.Spells dir (dir.move 1 p) rest

theorem Dir.move_move (dir : Dir) (m n : Int) (p : Cell) :
    dir.move m (dir.move n p) = dir.move (n + m) p := by
  cases dir with
  | right => exact Prod.ext rfl (Int.add_assoc _ _ _)
  | down => exact Prod.ext (Int.add_assoc _ _ _) rfl
  | left =>
    refine Prod.ext rfl ?_
    show p.2 - n - m = p.2 - (n + m)
    omega
  | up =>
    refine Prod.ext ?_ rfl
    show p.1 - n - m = p.1 - (n + m)
    omega

theorem Dir.mem_cells {dir : Dir} {p q : Cell} {n : Nat} :
    q ∈ dir.cells p n ↔ ∃ i < n, q = dir.move i p := by
  induction n generalizing p with
  | zero => simp [Dir.cells]
  | succ n ih =>
    have hzero : dir.move 0 p = p := by cases dir <;> simp [Dir.move]
    rw [Dir.cells, mem_cons, ih]
    constructor
    · rintro (rfl | ⟨i, hi, rfl⟩)
      · exact ⟨0, Nat.succ_pos n, hzero.symm⟩
      · refine ⟨i + 1, Nat.succ_lt_succ hi, ?_⟩
        rw [Dir.move_move, Int.add_comm]
        rfl
    · rintro ⟨i, hi, rfl⟩
      cases i with
      | zero =>
        left
        exact hzero
      | succ i =>
        right
        refine ⟨i, Nat.lt_of_succ_lt_succ hi, ?_⟩
        rw [Dir.move_move, Int.add_comm]
        rfl

theorem Dir.move_inj {dir : Dir} {m n : Int} {p : Cell} (h : dir.move m p = dir.move n p) : m = n := by
  have hrow := congrArg Prod.fst h
  have hcol := congrArg Prod.snd h
  cases dir <;> simp only [Dir.move] at hrow hcol <;> omega

/-- A segment does not come back to where it began. -/
theorem Dir.not_mem_cells (dir : Dir) (p : Cell) (n : Nat) : p ∉ dir.cells (dir.move 1 p) n := by
  intro h
  rcases Dir.mem_cells.mp h with ⟨i, -, hi⟩
  rw [Dir.move_move] at hi
  have hzero : dir.move 0 p = p := by cases dir <;> simp [Dir.move]
  have heq := Dir.move_inj (hzero.trans hi)
  omega

section

variable {b : Board} {dir : Dir} {p : Cell} {word : Word} {M : Finset Cell}

/-- The word stands there on cells that are not marked. -/
def Board.Free (b : Board) (M : Finset Cell) (dir : Dir) (p : Cell) (word : Word) : Prop :=
  b.Spells dir p word ∧ ∀ q ∈ dir.cells p word.length, q ∉ M

theorem letter_eq_iff (hb : b.Lower) {letter : Char} (hletter : letter.isLower = true) :
    letter = (b.marked M).letter p ↔ p ∉ M ∧ b.letter p = letter := by
  by_cases hp : p ∈ M
  · rw [marked_letter_of_mem hp]
    exact iff_of_false (ne_toUpper hletter (hb p)) fun h => h.1 hp
  · rw [marked_letter_of_not_mem hp]
    exact ⟨fun h => ⟨hp, h.symm⟩, fun h => h.2.symm⟩

theorem free_cons_iff {letter : Char} {rest : Word} : b.Free M dir p (letter :: rest) ↔
    ¬ b.Outside p ∧ p ∉ M ∧ b.letter p = letter ∧ b.Free (insert p M) dir (dir.move 1 p) rest := by
  unfold Board.Free
  rw [Board.Spells, length_cons, Dir.cells, forall_mem_cons]
  constructor
  · rintro ⟨⟨hin, hletter, hrest⟩, hp, hcells⟩
    refine ⟨hin, hp, hletter, hrest, fun q hq => ?_⟩
    rw [Finset.mem_insert]
    rintro (rfl | hM)
    · exact dir.not_mem_cells q _ hq
    · exact hcells q hq hM
  · rintro ⟨hin, hp, hletter, hrest, hcells⟩
    exact ⟨⟨hin, hletter, hrest⟩, hp, fun q hq hM => hcells q hq (Finset.mem_insert_of_mem hM)⟩

theorem union_cells_cons (dir : Dir) (p : Cell) (n : Nat) :
    M ∪ (dir.cells p (n + 1)).toFinset = insert p M ∪ (dir.cells (dir.move 1 p) n).toFinset := by
  rw [Dir.cells, toFinset_cons, Finset.union_insert, Finset.insert_union]

theorem checkDir_outside {bo : Board} (h : bo.Outside p) :
    checkDir dir p word bo = .ok (false, bo) := by
  rw [checkDir.eq_def]
  exact if_pos h

theorem checkDir_singleton {bo : Board} (h : ¬ bo.Outside p) (letter : Char) :
    checkDir dir p [letter] bo =
      .ok (if letter = bo.letter p then (true, bo.toUpperCase p) else (false, bo)) := by
  rw [checkDir.eq_def]
  exact if_neg h

theorem checkDir_cons {bo : Board} (h : ¬ bo.Outside p) (letter next : Char) (rest : Word) :
    checkDir dir p (letter :: next :: rest) bo =
      if letter = bo.letter p then do
        let (result, bo) ← checkDir dir (dir.move 1 p) (next :: rest) (bo.toUpperCase p)
        return (result, if result then bo else bo.toLowerCase p)
      else .ok (false, bo) := by
  rw [checkDir.eq_def]
  exact if_neg h

/-- `checkDir` marks the word where it stands free, and leaves the board where it does not. -/
theorem checkDir_marked (hb : b.Lower) (hword : word ≠ []) (hlower : ∀ c ∈ word, c.isLower = true) :
    (b.Free M dir p word → checkDir dir p word (b.marked M) =
      .ok (true, b.marked (M ∪ (dir.cells p word.length).toFinset))) ∧
    (¬ b.Free M dir p word → checkDir dir p word (b.marked M) = .ok (false, b.marked M)) := by
  induction word generalizing p M with
  | nil => exact absurd rfl hword
  | cons letter rest ih =>
    have hletter := hlower letter mem_cons_self
    rw [free_cons_iff]
    by_cases hout : b.Outside p
    · have hout' : (b.marked M).Outside p := hout
      rw [checkDir_outside hout']
      exact ⟨fun h => absurd hout h.1, fun _ => rfl⟩
    · have hout' : ¬ (b.marked M).Outside p := hout
      by_cases hmatch : letter = (b.marked M).letter p
      · rcases (letter_eq_iff hb hletter).mp hmatch with ⟨hp, heq⟩
        cases rest with
        | nil =>
          have hfree : b.Free (insert p M) dir (dir.move 1 p) [] :=
            ⟨trivial, fun _ hq => absurd hq not_mem_nil⟩
          rw [checkDir_singleton hout', if_pos hmatch, toUpperCase_marked hp, length_singleton,
            union_cells_cons]
          refine ⟨fun _ => ?_, fun h => absurd ⟨hout, hp, heq, hfree⟩ h⟩
          rw [Dir.cells, toFinset_nil, Finset.union_empty]
        | cons next rest =>
          have htail : ∀ c ∈ next :: rest, c.isLower = true := fun c hc =>
            hlower c (mem_cons_of_mem letter hc)
          have hnext := @ih (dir.move 1 p) (insert p M) (cons_ne_nil next rest) htail
          rw [checkDir_cons hout', if_pos hmatch, toUpperCase_marked hp]
          constructor
          · rintro ⟨-, -, -, hfree⟩
            rw [hnext.1 hfree]
            exact congrArg (fun N => Except.ok (true, b.marked N))
              (union_cells_cons dir p (next :: rest).length).symm
          · intro hnot
            have hfree : ¬ b.Free (insert p M) dir (dir.move 1 p) (next :: rest) := fun hfree =>
              hnot ⟨hout, hp, heq, hfree⟩
            rw [hnext.2 hfree]
            have hback : (b.marked (insert p M)).toLowerCase p = b.marked M := by
              rw [toLowerCase_marked hb, Finset.erase_insert hp]
            exact congrArg (fun board => Except.ok (false, board)) hback
      · have hnot : ¬ (¬ b.Outside p ∧ p ∉ M ∧ b.letter p = letter ∧
            b.Free (insert p M) dir (dir.move 1 p) rest) := fun h =>
          hmatch ((letter_eq_iff hb hletter).mpr ⟨h.2.1, h.2.2.1⟩)
        refine ⟨fun h => absurd h hnot, fun _ => ?_⟩
        cases rest with
        | nil => rw [checkDir_singleton hout', if_neg hmatch]
        | cons next rest => rw [checkDir_cons hout', if_neg hmatch]

/-! ## Taking marks back -/

theorem lowerLoop_marked (hb : b.Lower) (dir : Dir) (cell : Int → Cell) {delta : Int} (hdelta : 0 < delta)
    (hstep : ∀ i, cell (i + 1) = dir.move 1 (cell i)) (n : Nat) (i : Int) :
    lowerLoop cell delta i (i + n - 1) (b.marked M) =
      .ok (b.marked (M \ (dir.cells (cell i) n).toFinset)) := by
  induction n generalizing i M with
  | zero =>
    have hdone : ¬ i ≤ i + (0 : Nat) - 1 := by omega
    rw [lowerLoop, if_neg hdone, Dir.cells, toFinset_nil, Finset.sdiff_empty]
  | succ n ih =>
    have hgo : i ≤ i + (n + 1 : Nat) - 1 := by omega
    have hlast : i + (n + 1 : Nat) - 1 = i + 1 + n - 1 := by omega
    rw [lowerLoop, if_pos hgo]
    dsimp only
    rw [if_neg (Int.ne_of_gt hdelta), if_pos hdelta, toLowerCase_marked hb, hlast, ih, hstep,
      Dir.cells, toFinset_cons]
    refine congrArg (fun N => Except.ok (b.marked N)) (Finset.ext fun q => ?_)
    simp only [Finset.mem_sdiff, Finset.mem_erase, Finset.mem_insert]
    tauto

theorem lowerLoop_done {cell : Int → Cell} {delta i last : Int} {board : Board} (h : last < i) :
    lowerLoop cell delta i last board = .ok board := by
  rw [lowerLoop, if_neg (Int.not_le.mpr h)]

/-- The line of a word that was found. -/
def lineOf (dir : Dir) (p : Cell) (n : Nat) : Line :=
  ⟨p.2, p.1, (dir.move ((n : Int) - 1) p).2, (dir.move ((n : Int) - 1) p).1⟩

/-- A line of one cell cannot be taken back. -/
theorem lowerLine_single (dir : Dir) (p : Cell) (board : Board) :
    lowerLine (lineOf dir p 1) board = .error .arithmetic := by
  have hmove : dir.move (((1 : Nat) : Int) - 1) p = p := by cases dir <;> simp [Dir.move]
  unfold lowerLine lineOf
  rw [hmove]
  simp only [Int.sub_self, if_true]
  rw [lowerLoop, if_pos (Int.le_refl _)]
  rfl

theorem lowerLine_forward (hb : b.Lower) (hdir : dir = .right ∨ dir = .down) {n : Nat} (hn : 2 ≤ n) :
    lowerLine (lineOf dir p n) (b.marked M) =
      .ok (b.marked (M \ (dir.cells p n).toFinset)) := by
  rcases hdir with rfl | rfl
  · have hzero : p.1 - p.1 = 0 := Int.sub_self _
    have hdelta : (0 : Int) < p.2 + ((n : Int) - 1) - p.2 := by omega
    have hlast : p.2 + ((n : Int) - 1) = p.2 + n - 1 := by omega
    show (if p.1 - p.1 = 0 then lowerLoop (fun i => (p.1, i)) (p.2 + ((n : Int) - 1) - p.2) p.2
      (p.2 + ((n : Int) - 1)) (b.marked M) else _) = _
    rw [if_pos hzero]
    have hloop := lowerLoop_marked (M := M) hb .right (fun i => (p.1, i)) hdelta (fun _ => rfl) n p.2
    rw [← hlast] at hloop
    exact hloop
  · have hne : ¬ p.1 + ((n : Int) - 1) - p.1 = 0 := by omega
    have hzero : p.2 - p.2 = 0 := Int.sub_self _
    have hdelta : (0 : Int) < p.1 + ((n : Int) - 1) - p.1 := by omega
    have hlast : p.1 + ((n : Int) - 1) = p.1 + n - 1 := by omega
    show (if p.1 + ((n : Int) - 1) - p.1 = 0 then _ else if p.2 - p.2 = 0 then
      lowerLoop (fun i => (i, p.2)) (p.1 + ((n : Int) - 1) - p.1) p.1 (p.1 + ((n : Int) - 1))
        (b.marked M) else _) = _
    rw [if_neg hne, if_pos hzero]
    have hloop := lowerLoop_marked (M := M) hb .down (fun i => (i, p.2)) hdelta (fun _ => rfl) n p.1
    rw [← hlast] at hloop
    exact hloop

/-- The marks of a line to the left or up stay. -/
theorem lowerLine_backward (hdir : dir = .left ∨ dir = .up) {n : Nat} (hn : 2 ≤ n) (board : Board) :
    lowerLine (lineOf dir p n) board = .ok board := by
  rcases hdir with rfl | rfl
  · have hzero : p.1 - p.1 = 0 := Int.sub_self _
    show (if p.1 - p.1 = 0 then lowerLoop (fun i => (p.1, i)) (p.2 - ((n : Int) - 1) - p.2) p.2
      (p.2 - ((n : Int) - 1)) board else _) = _
    rw [if_pos hzero]
    exact lowerLoop_done (by omega)
  · have hne : ¬ p.1 - ((n : Int) - 1) - p.1 = 0 := by omega
    have hzero : p.2 - p.2 = 0 := Int.sub_self _
    show (if p.1 - ((n : Int) - 1) - p.1 = 0 then _ else if p.2 - p.2 = 0 then
      lowerLoop (fun i => (i, p.2)) (p.1 - ((n : Int) - 1) - p.1) p.1 (p.1 - ((n : Int) - 1))
        board else _) = _
    rw [if_neg hne, if_pos hzero]
    exact lowerLoop_done (by omega)

end

end PittCs.Cs445.FindPhrase
