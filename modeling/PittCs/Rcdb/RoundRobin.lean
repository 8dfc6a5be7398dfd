import Mathlib.Data.Nat.Find
import PittCs.Lib.Outcome
import PittCs.Lib.RoundRobin

/-!
# Feeding the scheduler round robin

`run_roundrobin`: each turn of the `while` loop reads one line of every file and
passes the valid ones to `schedule`. The loop ends after the first turn that passes
nothing, also when files have lines left.
-/

namespace PittCs.Rcdb

open PittCs.Lib List

/-! ## Lines -/

/-- `std::isspace`. -/
def isspace (c : UInt8) : Bool := c == 32 || (9 ≤ c && c ≤ 13)

/-- `B`, `C`, `A`, `Q`, `I`, `U`, `R`, `T`, `M`, `G`, `D`. -/
def commandLetters : List UInt8 := [66, 67, 65, 81, 73, 85, 82, 84, 77, 71, 68]

/-- `isValidInput`: the first character that is no space decides. -/
def isValidInput : List UInt8 → Bool
  | [] => false
  | c :: rest => if isspace c then isValidInput rest else commandLetters.contains c

/-- `line.erase(std::remove(line.begin(), line.end(), '\r'), line.end())`. -/
def eraseReturns (line : List UInt8) : List UInt8 := line.filter fun c => c ≠ 13

/-- `std::getline`: the next line and what is left behind its end; nothing at the end of
the file. -/
def getline : List UInt8 → Option (List UInt8 × List UInt8)
  | [] => none
  | c :: bytes => some ((c :: bytes).takeWhile (· ≠ 10), ((c :: bytes).dropWhile (· ≠ 10)).drop 1)

/-- The lines of a file. A newline ends a line, and so does the end of the file. -/
def lines : List UInt8 → List (List UInt8)
  | [] => []
  | c :: bytes =>
    if c = 10 then [] :: lines bytes
    else
      match lines bytes with
      | [] => [[c]]
      | line :: rest => (c :: line) :: rest

/-! ## The loops -/

/-- `transactionFile`. Of the stream only what has not been read yet matters. -/
structure TransactionFile where
  transactionID : Int
  fileptr : List UInt8

/-- The loop of `main` that opens the programs; `none` is one that does not open. -/
def openFiles (transactionID : Int) : List (Option (List UInt8)) → List TransactionFile
  | [] => []
  | none :: programs => openFiles transactionID programs
  | some bytes :: programs => ⟨transactionID, bytes⟩ :: openFiles (transactionID + 1) programs

section Loops

variable {σ ε : Type} (schedule : σ → Int → List UInt8 → Except ε σ)

/-- The body of the `for` loop, with the value of `allFilesClosed`. -/
def readLine (scheduler : σ) (allFilesClosed : Bool) (file : TransactionFile) :
    Except ε (σ × Bool × TransactionFile) :=
  match getline file.fileptr with
  | none => .ok (scheduler, allFilesClosed, file)
  | some (line, rest) =>
    if isValidInput line then do
      let scheduler ← schedule scheduler file.transactionID (eraseReturns line)
      .ok (scheduler, false, { file with fileptr := rest })
    else .ok (scheduler, allFilesClosed, { file with fileptr := rest })

/-- The `for` loop. -/
def readLines (scheduler : σ) (allFilesClosed : Bool) :
    List TransactionFile → Except ε (σ × Bool × List TransactionFile)
  | [] => .ok (scheduler, allFilesClosed, [])
  | file :: inputFiles => do
    let (scheduler, allFilesClosed, file) ← readLine schedule scheduler allFilesClosed file
    let (scheduler, allFilesClosed, inputFiles) ←
      readLines scheduler allFilesClosed inputFiles
    .ok (scheduler, allFilesClosed, file :: inputFiles)

/-- The `while` loop, for at most so many tests of its condition; `none` if that is not
enough. -/
def whileOpen (scheduler : σ) (allFilesClosed : Bool) (inputFiles : List TransactionFile) :
    Nat → Except ε (Option σ)
  | 0 => .ok none
  | fuel + 1 =>
    if allFilesClosed then .ok (some scheduler)
    else do
      let (scheduler, allFilesClosed, inputFiles) ← readLines schedule scheduler true inputFiles
      whileOpen scheduler allFilesClosed inputFiles fuel

/-- `run_roundrobin` up to the end of its loop. -/
def runRoundrobin (scheduler : σ) (inputFiles : List TransactionFile) (fuel : Nat) :
    Except ε (Option σ) :=
  whileOpen schedule scheduler false inputFiles fuel

/-- These calls of `schedule`, one after the other. -/
def feed (scheduler : σ) (calls : List (Int × List UInt8)) : Except ε σ :=
  calls.foldlM (fun scheduler call => schedule scheduler call.1 call.2) scheduler

end Loops

/-- Whatever `schedule` does, the loop makes exactly these calls and ends. -/
def Calls (inputFiles : List TransactionFile) (calls : List (Int × List UInt8)) : Prop :=
  ∃ bound, ∀ {σ ε : Type} (schedule : σ → Int → List UInt8 → Except ε σ) (scheduler : σ)
    (fuel : Nat), bound ≤ fuel →
      runRoundrobin schedule scheduler inputFiles fuel =
        (feed schedule scheduler calls).map some

/-- Every valid line of every file is passed on once, in the order of the file. -/
def FeedsAll (inputFiles : List TransactionFile) (calls : List (Int × List UInt8)) : Prop :=
  ∀ file ∈ inputFiles, valuesOf file.transactionID calls =
    ((lines file.fileptr).filter isValidInput).map eraseReturns

/-- Some file has a valid line at this place. -/
def ValidAt (inputFiles : List TransactionFile) (k : Nat) : Prop :=
  ∃ file ∈ inputFiles, ∃ line, (lines file.fileptr)[k]? = some line ∧ isValidInput line = true

/-- Before each valid line, every line number has a valid line in some file. -/
def NoIdleRound (inputFiles : List TransactionFile) : Prop :=
  ∀ k, ValidAt inputFiles k → ∀ j, j < k → ValidAt inputFiles j

/-! ## One line at a time -/

theorem getline_cons_of_ne {c : UInt8} {bytes line rest : List UInt8} (hc : c ≠ 10)
    (hget : getline bytes = some (line, rest)) :
    getline (c :: bytes) = some (c :: line, rest) := by
  cases bytes with
  | nil => cases hget
  | cons b bs =>
    rcases Prod.mk.inj (Option.some.inj hget) with ⟨hline, hrest⟩
    have htake : (c :: b :: bs).takeWhile (· ≠ 10) = c :: line := by
      rw [takeWhile_cons_of_pos (by simpa using hc), hline]
    have hdrop : ((c :: b :: bs).dropWhile (· ≠ 10)).drop 1 = rest := by
      rw [dropWhile_cons_of_pos (by simpa using hc), hrest]
    rw [getline, htake, hdrop]

/-- `getline` takes the first line off. -/
theorem getline_eq (bytes : List UInt8) :
    getline bytes = none ∧ lines bytes = [] ∨
      ∃ line rest, getline bytes = some (line, rest) ∧ lines bytes = line :: lines rest := by
  induction bytes with
  | nil => exact .inl ⟨rfl, rfl⟩
  | cons c bytes ih =>
    right
    by_cases hc : c = 10
    case pos => exact ⟨[], bytes, by simp [getline, hc], by simp [lines, hc]⟩
    case neg =>
        rcases ih with ⟨hget, hlines⟩ | ⟨line, rest, hget, hlines⟩
        case inl =>
            have hnil : bytes = [] := by
              cases bytes with
              | nil => rfl
              | cons b bs => cases hget
            exact ⟨[c], [], by simp [getline, hc, hnil], by simp [lines, hc, hlines]⟩
        case inr =>
            refine ⟨c :: line, rest, ?_, by simp [lines, hc, hlines]⟩
            exact getline_cons_of_ne hc hget

/-- What `schedule` gets to see of a line. -/
def accepted (line : List UInt8) : Option (List UInt8) :=
  if isValidInput line then some (eraseReturns line) else none

theorem reduceOption_map_accepted (ls : List (List UInt8)) :
    (ls.map accepted).reduceOption = (ls.filter isValidInput).map eraseReturns := by
  induction ls with
  | nil => rfl
  | cons line ls ih =>
    by_cases h : isValidInput line = true
    · simp [accepted, h, ih]
    · simp [accepted, h, ih]

/-- A file as a source of commands. -/
def TransactionFile.source (file : TransactionFile) : Source Int (List UInt8) where
  name := file.transactionID
  items := (lines file.fileptr).map accepted

theorem validAt_iff {inputFiles : List TransactionFile} {k : Nat} :
    ValidAt inputFiles k ↔ row (inputFiles.map TransactionFile.source) k ≠ [] := by
  rw [row_ne_nil_iff]
  constructor
  · rintro ⟨file, hfile, line, hline, hvalid⟩
    refine ⟨file.source, mem_map_of_mem hfile, ?_⟩
    simp [Source.at, TransactionFile.source, hline, accepted, hvalid]
  · rintro ⟨s, hs, hat⟩
    rcases mem_map.mp hs with ⟨file, hfile, rfl⟩
    rw [Source.at, TransactionFile.source, List.getElem?_map] at hat
    cases hline : (lines file.fileptr)[k]? with
    | none => simp [hline] at hat
    | some line =>
      refine ⟨file, hfile, line, hline, ?_⟩
      by_contra hinvalid
      simp [hline, accepted, hinvalid] at hat

/-! ## What the loops do -/

section Loops

variable {σ ε : Type} {schedule : σ → Int → List UInt8 → Except ε σ}

/-- The file after one turn. -/
def TransactionFile.advance (file : TransactionFile) : TransactionFile :=
  { file with fileptr := ((getline file.fileptr).map Prod.snd).getD file.fileptr }

@[simp] theorem source_advance (file : TransactionFile) :
    file.advance.source = file.source.tail := by
  rcases getline_eq file.fileptr with ⟨hget, hlines⟩ | ⟨line, rest, hget, hlines⟩
  · simp [TransactionFile.advance, TransactionFile.source, Source.tail, hget, hlines]
  · simp [TransactionFile.advance, TransactionFile.source, Source.tail, hget, hlines]

theorem feed_append (scheduler : σ) (calls calls' : List (Int × List UInt8)) :
    feed schedule scheduler (calls ++ calls') = (do
      let scheduler ← feed schedule scheduler calls
      feed schedule scheduler calls') :=
  foldlM_append

/-- One turn: the call for the next line if it is valid. -/
theorem readLine_eq (scheduler : σ) (closed : Bool) (file : TransactionFile) :
    readLine schedule scheduler closed file = (do
      let scheduler ← feed schedule scheduler (row [file.source] 0)
      .ok (scheduler, closed && (row [file.source] 0).isEmpty, file.advance)) := by
  rcases getline_eq file.fileptr with ⟨hget, hlines⟩ | ⟨line, rest, hget, hlines⟩
  case inl =>
      have hrow : row [file.source] 0 = [] := by
        simp [row, Source.at, TransactionFile.source, hlines]
      simp [readLine, hget, hrow, feed, TransactionFile.advance]
  case inr =>
      by_cases hvalid : isValidInput line = true
      case pos =>
          have hrow : row [file.source] 0 = [(file.transactionID, eraseReturns line)] := by
            simp [row, Source.at, TransactionFile.source, hlines, accepted, hvalid]
          simp [readLine, hget, hvalid, hrow, feed, TransactionFile.advance]
      case neg =>
          have hrow : row [file.source] 0 = [] := by
            simp [row, Source.at, TransactionFile.source, hlines, accepted, hvalid]
          simp [readLine, hget, hvalid, hrow, feed, TransactionFile.advance]

/-- A whole turn of the `while` loop: the calls of one round. -/
theorem readLines_eq (scheduler : σ) (closed : Bool) (files : List TransactionFile) :
    readLines schedule scheduler closed files = (do
      let scheduler ← feed schedule scheduler (row (files.map TransactionFile.source) 0)
      .ok (scheduler, closed && (row (files.map TransactionFile.source) 0).isEmpty,
        files.map TransactionFile.advance)) := by
  induction files generalizing scheduler closed with
  | nil => simp [readLines, row, feed]
  | cons file files ih =>
    have hrow : row ((file :: files).map TransactionFile.source) 0 =
        row [file.source] 0 ++ row (files.map TransactionFile.source) 0 := by
      rw [map_cons, ← singleton_append]
      exact filterMap_append
    rw [readLines, readLine_eq, hrow, feed_append]
    -- Either call may fail, and then nothing comes after it.
    cases hfirst : feed schedule scheduler (row [file.source] 0) with
    | error e => rfl
    | ok scheduler' =>
      have hrest := ih scheduler' (closed && (row [file.source] 0).isEmpty)
      have hempty : (closed && (row [file.source] 0 ++
          row (files.map TransactionFile.source) 0).isEmpty) =
          (closed && (row [file.source] 0).isEmpty &&
            (row (files.map TransactionFile.source) 0).isEmpty) := by
        rw [Bool.and_assoc]
        congr 1
        cases row [file.source] 0 <;> rfl
      simp only [ok_bind, hrest, hempty]
      cases feed schedule scheduler' (row (files.map TransactionFile.source) 0) with
      | error e => rfl
      | ok scheduler'' => rfl

/-- The loop makes the calls of the rounds before the first round without a call. -/
theorem whileOpen_eq {n : Nat} {files : List TransactionFile}
    (hbusy : ∀ k, k < n → row (files.map TransactionFile.source) k ≠ [])
    (hidle : row (files.map TransactionFile.source) n = []) (scheduler : σ) {fuel : Nat}
    (hfuel : n + 2 ≤ fuel) :
    whileOpen schedule scheduler false files fuel =
      (feed schedule scheduler (rows (files.map TransactionFile.source) n)).map some := by
  induction n generalizing files scheduler fuel with
  | zero =>
    rcases Nat.exists_eq_add_of_le' hfuel with ⟨k, rfl⟩
    simp [whileOpen, readLines_eq, hidle, rows, feed]
    rfl
  | succ n ih =>
    rcases Nat.exists_eq_add_of_le' (Nat.le_of_add_left_le hfuel) with ⟨k, rfl⟩
    have hsources : (files.map TransactionFile.advance).map TransactionFile.source =
        (files.map TransactionFile.source).map Source.tail := by
      simp [Function.comp_def]
    have hopen : (row (files.map TransactionFile.source) 0).isEmpty = false := by
      simpa using hbusy 0 (Nat.succ_pos n)
    rw [whileOpen, readLines_eq, hopen, rows_succ, feed_append]
    cases hfirst : feed schedule scheduler (row (files.map TransactionFile.source) 0) with
    | error e => rfl
    | ok scheduler' =>
      have hbusy' : ∀ k, k < n →
          row ((files.map TransactionFile.advance).map TransactionFile.source) k ≠ [] := by
        intro k hk
        rw [hsources, row_map_tail]
        exact hbusy (k + 1) (Nat.succ_lt_succ hk)
      have hidle' :
          row ((files.map TransactionFile.advance).map TransactionFile.source) n = [] := by
        rw [hsources, row_map_tail, hidle]
      have hrest := ih hbusy' hidle' scheduler' (Nat.le_of_succ_le_succ hfuel)
      rw [hsources] at hrest
      exact hrest

end Loops

/-! ## All of the input -/

/-- The loop makes the calls of the rounds before the first round without a call, and no
others. -/
theorem exists_calls (inputFiles : List TransactionFile) :
    ∃ n, Calls inputFiles (rows (inputFiles.map TransactionFile.source) n) ∧
      row (inputFiles.map TransactionFile.source) n = [] ∧
      ∀ k, k < n → row (inputFiles.map TransactionFile.source) k ≠ [] := by
  classical
  have hex := exists_row_eq_nil (inputFiles.map TransactionFile.source)
  have hidle := Nat.find_spec hex
  have hbusy : ∀ k, k < Nat.find hex → row (inputFiles.map TransactionFile.source) k ≠ [] :=
    fun k hk => Nat.find_min hex hk
  refine ⟨Nat.find hex, ⟨Nat.find hex + 2, ?_⟩, hidle, hbusy⟩
  intro σ ε schedule scheduler fuel hfuel
  exact whileOpen_eq hbusy hidle scheduler hfuel

/-- A scheduler that records its calls. -/
def recordCall (done : List (Int × List UInt8)) (transactionID : Int) (line : List UInt8) :
    Except Unit (List (Int × List UInt8)) :=
  .ok (done ++ [(transactionID, line)])

theorem feed_recordCall (done calls : List (Int × List UInt8)) :
    feed recordCall done calls = .ok (done ++ calls) := by
  induction calls generalizing done with
  | nil =>
    rw [append_nil]
    rfl
  | cons call calls ih =>
    have hrest := ih (done ++ [call])
    rw [append_assoc, singleton_append] at hrest
    exact hrest

/-- The calls of the loop are determined. -/
theorem Calls.unique {inputFiles : List TransactionFile} {calls calls' : List (Int × List UInt8)}
    (h : Calls inputFiles calls) (h' : Calls inputFiles calls') : calls = calls' := by
  rcases h with ⟨bound, h⟩
  rcases h' with ⟨bound', h'⟩
  have hrun := h recordCall [] (max bound bound') (Nat.le_max_left ..)
  rw [h' recordCall [] (max bound bound') (Nat.le_max_right ..), feed_recordCall,
    feed_recordCall] at hrun
  simpa [Except.map] using hrun.symm

theorem openFiles_ids (transactionID : Int) (programs : List (Option (List UInt8))) :
    ((openFiles transactionID programs).map TransactionFile.transactionID).Nodup ∧
      ∀ file ∈ openFiles transactionID programs, transactionID ≤ file.transactionID := by
  induction programs generalizing transactionID with
  | nil => simp [openFiles]
  | cons program programs ih =>
    cases program with
    | none => exact ih transactionID
    | some bytes =>
      rcases ih (transactionID + 1) with ⟨hnodup, hle⟩
      refine ⟨nodup_cons.mpr ⟨?_, hnodup⟩, ?_⟩
      · intro hmem
        rcases mem_map.mp hmem with ⟨file, hfile, heq⟩
        have := hle file hfile
        dsimp only at heq
        omega
      · intro file hfile
        rcases mem_cons.mp hfile with rfl | hfile
        · exact le_refl _
        · have := hle file hfile
          omega

instance (inputFiles : List TransactionFile) (calls : List (Int × List UInt8)) :
    Decidable (FeedsAll inputFiles calls) :=
  inferInstanceAs (Decidable (∀ file ∈ inputFiles, _ = _))

theorem feedsAll_iff {inputFiles : List TransactionFile} {calls : List (Int × List UInt8)} :
    FeedsAll inputFiles calls ↔ ∀ s ∈ inputFiles.map TransactionFile.source,
      valuesOf s.name calls = s.items.reduceOption := by
  simp [FeedsAll, TransactionFile.source, reduceOption_map_accepted]

/-- Everything is fed exactly if no round before a valid line is without one. -/
theorem run_roundrobin_feeds_all_iff (programs : List (Option (List UInt8))) :
    ∃ calls, Calls (openFiles 0 programs) calls ∧
      (FeedsAll (openFiles 0 programs) calls ↔ NoIdleRound (openFiles 0 programs)) := by
  rcases exists_calls (openFiles 0 programs) with ⟨n, hcalls, hidle, hbusy⟩
  have hnames : (((openFiles 0 programs).map TransactionFile.source).map Source.name).Nodup := by
    rw [map_map]
    exact (openFiles_ids 0 programs).1
  refine ⟨_, hcalls, ?_⟩
  rw [feedsAll_iff, valuesOf_rows_eq_all_iff hnames]
  constructor
  · intro hall k hk j hj
    rw [validAt_iff] at hk ⊢
    -- A valid line is in a round before the end, and so are all rounds before it.
    have hlt : k < n := by
      by_contra hge
      exact hk (hall k (Nat.le_of_not_lt hge))
    exact hbusy j (Nat.lt_trans hj hlt)
  · intro hno k hk
    rcases Nat.eq_or_lt_of_le hk with rfl | hlt
    · exact hidle
    · by_contra hne
      exact validAt_iff.mp (hno k (validAt_iff.mpr hne) n hlt) hidle

/-- One file that begins with a blank line: the command behind it is not fed. -/
theorem run_roundrobin_drops_line_behind_blank :
    ¬ ∀ programs, ∃ calls, Calls (openFiles 0 programs) calls ∧
      FeedsAll (openFiles 0 programs) calls := by
  intro h
  rcases h [some [10, 66, 32, 49]] with ⟨calls, hcalls, hfeeds⟩
  have hidle : row ((openFiles 0 [some [10, 66, 32, 49]]).map TransactionFile.source) 0 = [] := by
    decide
  have hnone : Calls (openFiles 0 [some [10, 66, 32, 49]]) [] := by
    refine ⟨2, fun schedule scheduler fuel hfuel => ?_⟩
    exact whileOpen_eq (fun k hk => absurd hk (Nat.not_lt_zero k)) hidle scheduler hfuel
  rw [hcalls.unique hnone] at hfeeds
  revert hfeeds
  decide

end PittCs.Rcdb
