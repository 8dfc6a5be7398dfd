import PittCs.Rcdb.LockCoverage
import PittCs.Rcdb.SchedulerLocks

/-!
# Who is in the way of a request

The holders whose locks a request conflicts with, at the table and at the record,
compared with the list that the lock manager returns. The list is complete but
for one case: a request that is refused at the table does not look at the record.
-/

namespace PittCs.Rcdb

open LockManager

namespace LockManager

/-- The table lock of `u` is in the way. -/
def TableConflict (m : LockManager) (tx : Int) (tb : Str) (desired : LockType) (u : Int) : Prop :=
  u ≠ tx ∧ alreadyHolds (m.tableLock? tb tx) desired = false ∧
    ∃ k, m.tableLock? tb u = some k ∧ blocks desired k = true

/-- The record lock of `u` is in the way. -/
def RecordConflict (m : LockManager) (tx : Int) (tb : Str) (c : Int) (desired : LockType)
    (u : Int) : Prop :=
  u ≠ tx ∧ coversRecord desired (m.recordLock? tb c tx) = false ∧
    ∃ k, m.recordLock? tb c u = some k ∧ blocksRecord desired k = true

/-- A write lock on a table is the only lock on it. -/
def WriteExclusive (m : LockManager) : Prop :=
  ∀ tb w u k, m.tableLock? tb w = some .writeLock → m.tableLock? tb u = some k → u = w

/-- A record lock comes with a lock on the table. -/
def RecordNeedsTable (m : LockManager) : Prop :=
  ∀ tb c u k, m.recordLock? tb c u = some k → ∃ k', m.tableLock? tb u = some k'

variable {m m' : LockManager} {tx : Int} {desired : LockType} {tb : Str} {result : List Int}

theorem TableConflict.congr {u : Int} (h : TableConflict m tx tb desired u)
    (htx : SameLocks m m' tx) (hu : SameLocks m m' u) : TableConflict m' tx tb desired u := by
  unfold TableConflict at h ⊢
  rw [htx.1, hu.1]
  exact h

theorem RecordConflict.congr {u : Int} {c : Int} (h : RecordConflict m tx tb c desired u)
    (htx : SameLocks m m' tx) (hu : SameLocks m m' u) : RecordConflict m' tx tb c desired u := by
  unfold RecordConflict at h ⊢
  rw [htx.2, hu.2]
  exact h

/-! ## The two invariants of locks -/

theorem WriteExclusive.of_tableLock (h : WriteExclusive m)
    (hsub : ∀ tb u k, m'.tableLock? tb u = some k → m.tableLock? tb u = some k) :
    WriteExclusive m' := by
  intro tb w u k hw hu
  exact h tb w u k (hsub tb w _ hw) (hsub tb u k hu)

theorem stored_eq_writeLock {held : Option LockType} (h : stored held desired = .writeLock) :
    desired = .writeLock := by
  rcases held with _ | k
  · exact h
  · cases k <;> cases desired <;> first | rfl | cases h

/-- A write lock blocks every request. -/
theorem blocks_writeLock (desired : LockType) : blocks desired .writeLock = true := by
  cases desired <;> rfl

theorem WriteExclusive.tableOutcome (h : WriteExclusive m)
    (hout : TableOutcome m tx tb desired (result, m')) : WriteExclusive m' := by
  cases hout with
  | kept _ | refused _ _ _ => exact h
  | granted hfree hnew hset =>
    intro tb' w u k hw hu
    rw [hset.table] at hw hu
    by_cases hwx : tb' = tb ∧ w = tx
    · -- the new lock is a write lock: nobody else holds anything
      rcases hwx with ⟨rfl, rfl⟩
      rw [if_pos ⟨rfl, rfl⟩] at hw
      by_contra hne
      rw [if_neg fun he => hne he.2] at hu
      have hblock := hfree u k hne hu
      rw [stored_eq_writeLock (Option.some.inj hw)] at hblock
      cases hblock
    · rw [if_neg hwx] at hw
      by_cases hux : tb' = tb ∧ u = tx
      · -- the older write lock would have been in the way
        rcases hux with ⟨rfl, rfl⟩
        by_contra hne
        have hblock := hfree w _ (Ne.symm hne) hw
        rw [blocks_writeLock] at hblock
        cases hblock
      · rw [if_neg hux] at hu
        exact h tb' w u k hw hu

theorem WriteExclusive.itemOutcome {c : Int} (h : WriteExclusive m)
    (hout : ItemOutcome m tx tb c desired (result, m')) : WriteExclusive m' := by
  cases hout with
  | refusedTable _ _ => exact h
  | kept htable _ | refused _ htable _ _ => exact h.tableOutcome htable
  | granted htable _ _ hset =>
    refine (h.tableOutcome htable).of_tableLock ?_
    intro tb' u k hk
    rw [hset.table] at hk
    exact hk

theorem RecordNeedsTable.tableOutcome (h : RecordNeedsTable m)
    (hout : TableOutcome m tx tb desired (result, m')) : RecordNeedsTable m' := by
  cases hout with
  | kept _ | refused _ _ _ => exact h
  | granted _ _ hset =>
    intro tb' c u k hk
    rw [hset.record] at hk
    rcases h tb' c u k hk with ⟨k', hk'⟩
    rw [hset.table]
    split
    · exact ⟨_, rfl⟩
    · exact ⟨k', hk'⟩

theorem RecordNeedsTable.itemOutcome {c : Int} (h : RecordNeedsTable m)
    (hout : ItemOutcome m tx tb c desired (result, m')) : RecordNeedsTable m' := by
  cases hout with
  | refusedTable _ _ => exact h
  | kept htable _ | refused _ htable _ _ => exact h.tableOutcome htable
  | granted htable _ _ hset =>
    intro tb' c' u k hk
    rw [hset.record] at hk
    rw [hset.table]
    split at hk
    case isTrue heq =>
      rcases heq with ⟨rfl, rfl, rfl⟩
      rcases htable.holds with ⟨k', hk', -⟩
      exact ⟨k', hk'⟩
    case isFalse => exact h.tableOutcome htable tb' c' u k hk

/-- Releasing everything keeps both. -/
theorem RecordNeedsTable.releaseAllLocks (h : RecordNeedsTable m) (hown : OwnsAll m tx) :
    RecordNeedsTable (m.releaseAllLocks tx) := by
  intro tb c u k hk
  by_cases heq : u = tx
  · subst heq
    rw [(releaseAllLocks_none hown).2] at hk
    cases hk
  · rcases releaseAllLocks_of_ne heq with ⟨htable, hrecord⟩
    rw [hrecord] at hk
    rw [htable]
    exact h tb c u k hk

end LockManager

namespace Scheduler

/-- The locks of `u` are in the way of the request. -/
def Conflict (m : LockManager) (tx : Int) : LockRequest → Int → Prop
  | .table tb desired, u => TableConflict m tx tb desired u
  | .item tb c desired, u =>
    TableConflict m tx tb (intentOf desired) u ∨ RecordConflict m tx tb c desired u
  | .nothing, _ => False

/-- A request that is refused at the table does not hide a conflict at the record. -/
def SeesRecord (m : LockManager) (tx : Int) : LockRequest → Prop
  | .item tb c desired => (∃ u, TableConflict m tx tb (intentOf desired) u) →
    ∀ u, RecordConflict m tx tb c desired u → TableConflict m tx tb (intentOf desired) u
  | _ => True

variable {m m' : LockManager} {tx : Int} {request : LockRequest}

/-- Only the locks of the two transactions matter. -/
theorem Conflict.congr {u : Int} (h : Conflict m tx request u) (htx : SameLocks m m' tx)
    (hu : SameLocks m m' u) : Conflict m' tx request u := by
  cases request with
  | table tb desired => exact TableConflict.congr h htx hu
  | item tb c desired =>
    rcases h with h | h
    · exact .inl (h.congr htx hu)
    · exact .inr (h.congr htx hu)
  | nothing => exact h

/-- A transaction that is waited for holds something. -/
theorem Conflict.holds {u : Int} (h : Conflict m tx request u) : ¬ HoldsNothing m u := by
  rintro ⟨htable, hrecord⟩
  cases request with
  | table tb desired =>
    rcases h with ⟨-, -, k, hk, -⟩
    rw [htable tb] at hk
    cases hk
  | item tb c desired =>
    rcases h with ⟨-, -, k, hk, -⟩ | ⟨-, -, k, hk, -⟩
    · rw [htable tb] at hk
      cases hk
    · rw [hrecord tb c] at hk
      cases hk
  | nothing => exact h

/-! ## Conflicts and outcomes -/

theorem not_tableConflict_of_granted {tb : Str} {desired : LockType}
    (h : TableOutcome m tx tb desired ([], m')) (u : Int) : ¬ TableConflict m tx tb desired u := by
  rintro ⟨hne, hnew, k, hk, hblock⟩
  generalize hr : ([], m') = r at h
  cases h with
  | kept hheld =>
    rw [hnew] at hheld
    cases hheld
  | granted hfree _ _ =>
    rw [hfree u k hne hk] at hblock
    cases hblock
  | refused hnil _ _ =>
    cases hr
    exact hnil rfl

/-- A granted table lock is enough afterwards as well. -/
theorem not_tableConflict_after {tb : Str} {desired : LockType}
    (h : TableOutcome m tx tb desired ([], m')) (u : Int) : ¬ TableConflict m' tx tb desired u := by
  rintro ⟨-, hnew, -⟩
  rcases h.holds with ⟨k, hk, henough⟩
  rw [hk, henough] at hnew
  cases hnew

/-- A request that is granted had nobody in its way. -/
theorem RequestOutcome.not_conflict (h : RequestOutcome m tx request ([], m')) (u : Int) :
    ¬ Conflict m tx request u := by
  cases request with
  | table tb desired => exact not_tableConflict_of_granted h u
  | item tb c desired =>
    unfold RequestOutcome at h
    generalize hr : ([], m') = r at h
    cases h with
    | refusedTable hne _ | refused hne _ _ _ =>
      cases hr
      exact absurd rfl hne
    | kept htable hheld =>
      rintro (htab | ⟨-, hnew, -⟩)
      · exact not_tableConflict_of_granted htable u htab
      · rw [recordLock?_of_tableOutcome htable, hnew] at hheld
        cases hheld
    | granted htable _ hfree _ =>
      rintro (htab | ⟨hne, -, k, hk, hblock⟩)
      · exact not_tableConflict_of_granted htable u htab
      · rw [← recordLock?_of_tableOutcome htable] at hk
        rw [hfree u k hne hk] at hblock
        cases hblock
  | nothing => exact id

/-- The list of a refused request names everybody in its way, unless it hides a
conflict at the record. -/
theorem RequestOutcome.mem_deps {deps : List Int} (h : RequestOutcome m tx request (deps, m'))
    (hne : deps ≠ []) (hsees : SeesRecord m tx request) {u : Int} (hu : Conflict m' tx request u) :
    u ∈ deps := by
  cases request with
  | table tb desired =>
    cases h with
    | kept _ | granted _ _ _ => exact absurd rfl hne
    | refused _ _ hmem => exact (hmem u).mpr ⟨hu.1, hu.2.2⟩
  | item tb c desired =>
    cases h with
    | refusedTable _ htable =>
      have hdeps : ∀ w, TableConflict m tx tb (intentOf desired) w → w ∈ deps := by
        intro w hw
        cases htable with
        | kept _ | granted _ _ _ => exact absurd rfl hne
        | refused _ _ hmem => exact (hmem w).mpr ⟨hw.1, hw.2.2⟩
      have hsome : ∃ w, TableConflict m tx tb (intentOf desired) w := by
        rcases List.exists_mem_of_ne_nil _ hne with ⟨w, hw⟩
        cases htable with
        | kept _ | granted _ _ _ => exact absurd rfl hne
        | refused _ hnew hmem =>
          rcases (hmem w).mp hw with ⟨hw1, hw2⟩
          exact ⟨w, hw1, hnew, hw2⟩
      rcases hu with hu | hu
      · exact hdeps u hu
      · exact hdeps u (hsees hsome u hu)
    | kept _ _ | granted _ _ _ _ => exact absurd rfl hne
    | refused _ htable _ hmem =>
      rcases hu with hu | hu
      · exact absurd hu (not_tableConflict_after htable u)
      · exact (hmem u).mpr ⟨hu.1, hu.2.2⟩
  | nothing =>
    cases h
    exact absurd rfl hne

/-- A refused request still has somebody in its way. -/
theorem RequestOutcome.exists_conflict {deps : List Int}
    (h : RequestOutcome m tx request (deps, m')) (hne : deps ≠ []) :
    ∃ u, Conflict m' tx request u := by
  rcases List.exists_mem_of_ne_nil _ hne with ⟨u, hu⟩
  refine ⟨u, ?_⟩
  cases request with
  | table tb desired =>
    cases h with
    | kept _ | granted _ _ _ => exact absurd rfl hne
    | refused _ hnew hmem =>
      rcases (hmem u).mp hu with ⟨h1, h2⟩
      exact ⟨h1, hnew, h2⟩
  | item tb c desired =>
    cases h with
    | refusedTable _ htable =>
      left
      cases htable with
      | kept _ | granted _ _ _ => exact absurd rfl hne
      | refused _ hnew hmem =>
        rcases (hmem u).mp hu with ⟨h1, h2⟩
        exact ⟨h1, hnew, h2⟩
    | kept _ _ | granted _ _ _ _ => exact absurd rfl hne
    | refused _ _ hnew hmem =>
      right
      rcases (hmem u).mp hu with ⟨h1, h2⟩
      exact ⟨h1, hnew, h2⟩
  | nothing =>
    cases h
    exact absurd rfl hne

end Scheduler

end PittCs.Rcdb
