import Mathlib.Data.List.Basic

/-!
# The files of a backup

`backup` writes the new state to a second file, removes the old file and renames the
second one, and `main` looks only at the first name. Each point between two
file-system calls is a crash point. From the removal to the renaming there is no file
under the name that `main` asks for.
-/

namespace PittCs.Chat

open Option

/-- The text of a file. -/
abbrev Text := List Char

/-- `backup_file` and `backup_file + "_next"`; `none` for a file that does not exist. -/
structure Files where
  backupFile : Option Text
  nextFile : Option Text
deriving DecidableEq

/-- How far a call of `backup` is. -/
inductive Point where
  | begin
  | opened
  | written
  | closed
  | oldFound
  | oldGone
  | nextFound
  | returned
deriving DecidableEq

/-- The next file-system call of `backup`. Of what is written, the part `flushed` is in
the file before it is closed. -/
def backupCall (newState : Text) (flushed : Nat) : Point × Files → Point × Files
  | (.begin, files) => (.opened, { files with nextFile := some [] })
  | (.opened, files) => (.written, { files with nextFile := some (newState.take flushed) })
  | (.written, files) => (.closed, { files with nextFile := some newState })
  -- `os.path.exists(backup_file)`, then `os.remove`.
  | (.closed, files) => (if files.backupFile.isSome then .oldFound else .oldGone, files)
  | (.oldFound, files) => (.oldGone, { files with backupFile := none })
  -- `os.path.exists(backup_file + "_next")`, then `os.rename`.
  | (.oldGone, files) => (if files.nextFile.isSome then .nextFound else .returned, files)
  | (.nextFound, files) => (.returned, { backupFile := files.nextFile, nextFile := none })
  | (.returned, files) => (.returned, files)

/-- What the process leaves when it stops after `k` calls. -/
def stoppedAfter (newState : Text) (flushed : Nat) (files : Files) : Nat → Point × Files
  | 0 => (.begin, files)
  | k + 1 => backupCall newState flushed (stoppedAfter newState flushed files k)

/-- What `main` does with the files: it loads a state, or starts with the empty one. -/
inductive Restart where
  | loadState (text : Text)
  | createFile
deriving DecidableEq

/-- The recovery in `main`. -/
def restart (files : Files) : Restart :=
  match files.backupFile with
  | some text => .loadState text
  | none => .createFile

/-- The server comes back with the earlier or with the new state. -/
def Recovers (oldState newState : Text) (files : Files) : Prop :=
  restart files = .loadState oldState ∨ restart files = .loadState newState

instance (oldState newState : Text) (files : Files) :
    Decidable (Recovers oldState newState files) :=
  inferInstanceAs (Decidable (_ ∨ _))

/-! ## One call -/

/-- What the files hold at each point; `saved` is the state saved before, if there is one. -/
def FilesAt (saved : Option Text) (newState : Text) : Point → Files → Prop
  | .begin, files => files.backupFile = saved
  | .opened, files => files.backupFile = saved
  | .written, files => files.backupFile = saved
  | .closed, files => files.backupFile = saved ∧ files.nextFile = some newState
  | .oldFound, files => files.backupFile = saved ∧ files.nextFile = some newState
  | .oldGone, files => files.backupFile = none ∧ files.nextFile = some newState
  | .nextFound, files => files.backupFile = none ∧ files.nextFile = some newState
  | .returned, files => files.backupFile = some newState

/-- No file has the name that `main` asks for. -/
def Point.Unnamed (p : Point) : Prop := p = .oldGone ∨ p = .nextFound

instance (p : Point) : Decidable p.Unnamed := inferInstanceAs (Decidable (_ ∨ _))

/-- The calls before this point when there is an earlier file. -/
def Point.calls : Point → Nat
  | .begin => 0
  | .opened => 1
  | .written => 2
  | .closed => 3
  | .oldFound => 4
  | .oldGone => 5
  | .nextFound => 6
  | .returned => 7

theorem Point.unnamed_iff (p : Point) : p.Unnamed ↔ 5 ≤ p.calls ∧ p.calls < 7 := by
  cases p <;> decide

section Calls

variable {saved : Option Text} {oldState newState : Text} {p : Point} {files : Files}

/-- Every call leads from what the files hold before to what they hold after. -/
theorem FilesAt.call (h : FilesAt saved newState p files) (flushed : Nat) :
    FilesAt saved newState (backupCall newState flushed (p, files)).1
      (backupCall newState flushed (p, files)).2 := by
  cases p with
  | begin | opened | returned => exact h
  | written => exact ⟨h, rfl⟩
  | closed =>
    cases hfile : files.backupFile with
    | none => simpa [backupCall, hfile, FilesAt] using h.2
    | some text => simpa [backupCall, hfile, FilesAt] using h
  | oldFound => exact ⟨rfl, h.2⟩
  | oldGone => simpa [backupCall, h.2, FilesAt] using h.1
  | nextFound => exact h.2

theorem FilesAt.calls_call (h : FilesAt (some oldState) newState p files) (flushed : Nat) :
    (backupCall newState flushed (p, files)).1.calls = min (p.calls + 1) 7 := by
  cases p with
  | begin | opened | written | oldFound | nextFound | returned => rfl
  | closed => simp [backupCall, h.1, Point.calls]
  | oldGone => simp [backupCall, h.2, Point.calls]

/-- Away from the unnamed points there is a state to load, the earlier or the new one. -/
theorem FilesAt.backupFile (h : FilesAt (some oldState) newState p files) (hp : ¬ p.Unnamed) :
    files.backupFile = some oldState ∨ files.backupFile = some newState := by
  cases p with
  | begin | opened | written => exact .inl h
  | closed | oldFound => exact .inl h.1
  | oldGone => exact absurd (.inl rfl) hp
  | nextFound => exact absurd (.inr rfl) hp
  | returned => exact .inr h

theorem FilesAt.backupFile_eq_none (h : FilesAt saved newState p files) (hp : p.Unnamed) :
    files.backupFile = none := by
  rcases hp with rfl | rfl
  · exact h.1
  · exact h.1

/-- Recovery fails exactly at the unnamed points. -/
theorem FilesAt.recovers_iff (h : FilesAt (some oldState) newState p files) :
    Recovers oldState newState files ↔ ¬ p.Unnamed := by
  constructor
  · intro hrecovers hp
    simp [Recovers, restart, h.backupFile_eq_none hp] at hrecovers
  · intro hp
    rcases h.backupFile hp with hfile | hfile
    · exact .inl (by simp [restart, hfile])
    · exact .inr (by simp [restart, hfile])

end Calls

/-! ## One backup -/

section Backup

variable (oldState newState : Text) (leftover : Option Text) (flushed : Nat)

theorem filesAt_stoppedAfter (saved : Option Text) (k : Nat) :
    FilesAt saved newState (stoppedAfter newState flushed ⟨saved, leftover⟩ k).1
      (stoppedAfter newState flushed ⟨saved, leftover⟩ k).2 := by
  induction k with
  | zero => rfl
  | succ k ih => exact ih.call flushed

/-- With an earlier file no call is left out. -/
theorem calls_stoppedAfter (k : Nat) :
    (stoppedAfter newState flushed ⟨some oldState, leftover⟩ k).1.calls = min k 7 := by
  induction k with
  | zero => rfl
  | succ k ih =>
    have hfiles := filesAt_stoppedAfter newState leftover flushed (some oldState) k
    rw [stoppedAfter, hfiles.calls_call, ih]
    omega

/-- A restart finds the earlier or the new state unless the process stops after the old
file is removed and before the new one is renamed. -/
theorem backup_crash_recovers_iff (k : Nat) :
    Recovers oldState newState (stoppedAfter newState flushed ⟨some oldState, leftover⟩ k).2 ↔
      ¬ (5 ≤ k ∧ k < 7) := by
  rw [(filesAt_stoppedAfter newState leftover flushed (some oldState) k).recovers_iff,
    Point.unnamed_iff, calls_stoppedAfter]
  omega

/-- Stopped right after the removal. -/
theorem backup_crash_loses_state :
    ¬ ∀ (oldState newState : Text) (leftover : Option Text) (flushed k : Nat),
      Recovers oldState newState
        (stoppedAfter newState flushed ⟨some oldState, leftover⟩ k).2 := by
  intro h
  exact absurd (h ['a'] ['b'] none 0 5) (by decide)

end Backup

end PittCs.Chat
