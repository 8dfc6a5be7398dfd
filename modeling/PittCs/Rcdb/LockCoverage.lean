import PittCs.Rcdb.LockCompatibility

/-!
# What a lock protects

A transaction may read or write a record if a lock on the table or a lock on the
record lets it. Two transactions never may at the same time when one of them
writes, as long as the table locks are compatible and the record locks exclude
each other; and a transaction keeps what it may do while it asks for more.
-/

namespace PittCs.Rcdb

open LockManager

/-- A kind of table lock under which every record may be read. -/
def readsTable (k : LockType) : Bool :=
  k = .readLock ∨ k = .readIntentWriteLock ∨ k = .writeLock

/-- A kind of table lock under which record locks for writing may be held. -/
def writesRecords (k : LockType) : Bool :=
  k = .intentWriteLock ∨ k = .readIntentWriteLock ∨ k = .writeLock

namespace LockManager

/-- The transaction may read the record. -/
def MayRead (m : LockManager) (tx : Int) (tb : Str) (c : Int) : Prop :=
  ∃ k, m.tableLock? tb tx = some k ∧ (readsTable k = true ∨ ∃ kr, m.recordLock? tb c tx = some kr)

/-- The transaction may write the record. -/
def MayWrite (m : LockManager) (tx : Int) (tb : Str) (c : Int) : Prop :=
  ∃ k, m.tableLock? tb tx = some k ∧
    (k = .writeLock ∨ writesRecords k = true ∧ m.recordLock? tb c tx = some .writeLock)

variable {m m' : LockManager} {tb : Str} {tx c : Int} {desired : LockType} {result : List Int}

theorem MayWrite.mayRead (h : MayWrite m tx tb c) : MayRead m tx tb c := by
  rcases h with ⟨k, hk, rfl | ⟨-, hrecord⟩⟩
  · exact ⟨_, hk, .inl rfl⟩
  · exact ⟨k, hk, .inr ⟨_, hrecord⟩⟩

theorem MayRead.congr {u : Int} (h : MayRead m u tb c) (hsame : SameLocks m m' u) :
    MayRead m' u tb c := by
  rcases h with ⟨k, hk, hread⟩
  refine ⟨k, (hsame.1 tb).trans hk, hread.imp_right ?_⟩
  rintro ⟨kr, hkr⟩
  exact ⟨kr, (hsame.2 tb c).trans hkr⟩

theorem MayWrite.congr {u : Int} (h : MayWrite m u tb c) (hsame : SameLocks m m' u) :
    MayWrite m' u tb c := by
  rcases h with ⟨k, hk, hwrite⟩
  refine ⟨k, (hsame.1 tb).trans hk, hwrite.imp_right ?_⟩
  rintro ⟨hintent, hkr⟩
  exact ⟨hintent, (hsame.2 tb c).trans hkr⟩

/-- Two transactions only hold locks on one record to read it. -/
def RecordExclusive (m : LockManager) : Prop :=
  ∀ tb c u v ku kv, u ≠ v → m.recordLock? tb c u = some ku → m.recordLock? tb c v = some kv →
    ku = .readLock ∧ kv = .readLock

/-- While one transaction may write a record, no other may read it. -/
theorem MayWrite.excludes {u v : Int} (hcompat : TableCompat m) (hexcl : RecordExclusive m)
    (huv : u ≠ v) (hu : MayWrite m u tb c) : ¬ MayRead m v tb c := by
  rintro ⟨kv, hkv, hread⟩
  rcases hu with ⟨ku, hku, hwrite⟩
  have hpair := hcompat tb u v ku kv huv hku hkv
  rcases hwrite with rfl | ⟨hintent, hrecord⟩
  · -- a write lock on the table is compatible with nothing
    cases hpair
  · rcases hread with hread | ⟨kr, hkr⟩
    · cases ku <;> cases kv <;> simp_all [compatible, readsTable, writesRecords]
    · have := (hexcl tb c u v _ _ huv hrecord hkr).1
      cases this

/-! ## Asking for more -/

/-- A granted request leaves a table lock that is enough for it. -/
theorem TableOutcome.holds (h : TableOutcome m tx tb desired ([], m')) :
    ∃ k, m'.tableLock? tb tx = some k ∧ alreadyHolds (some k) desired = true := by
  generalize hr : ([], m') = r at h
  cases h with
  | kept hheld =>
    cases hr
    rcases hk : m.tableLock? tb tx with _ | k
    · rw [hk] at hheld
      cases hheld
    · rw [hk] at hheld
      exact ⟨k, rfl, hheld⟩
  | granted _ hnew hset =>
    cases hr
    refine ⟨_, by rw [hset.table, if_pos ⟨rfl, rfl⟩], ?_⟩
    rcases m.tableLock? tb tx with _ | k
    · cases desired <;> rfl
    · cases desired <;> cases k <;> rfl
  | refused hne _ _ =>
    cases hr
    exact absurd rfl hne

/-- A granted request for a record leaves both locks. -/
theorem ItemOutcome.holds (hd : desired = .readLock ∨ desired = .writeLock)
    (h : ItemOutcome m tx tb c desired ([], m')) :
    (∃ k, m'.tableLock? tb tx = some k ∧ alreadyHolds (some k) (intentOf desired) = true) ∧
      coversRecord desired (m'.recordLock? tb c tx) = true := by
  generalize hr : ([], m') = r at h
  cases h with
  | refusedTable hne _ | refused hne _ _ _ =>
    cases hr
    exact absurd rfl hne
  | kept htable hheld =>
    cases hr
    exact ⟨htable.holds, hheld⟩
  | granted htable _ _ hset =>
    cases hr
    constructor
    · rw [hset.table]
      exact htable.holds
    · rw [hset.record, if_pos ⟨rfl, rfl, rfl⟩]
      rcases hd with rfl | rfl <;> rfl

/-- The kind of a table lock only grows. -/
theorem stored_grows {k : LockType} (hnew : alreadyHolds (some k) desired = false) :
    (readsTable k = true → readsTable (stored (some k) desired) = true) ∧
      (writesRecords k = true → writesRecords (stored (some k) desired) = true) ∧
      k ≠ .writeLock := by
  cases k <;> cases desired <;> simp_all [alreadyHolds, readsTable, writesRecords, stored]

theorem TableOutcome.grows (h : TableOutcome m tx tb desired (result, m')) {tb' : Str}
    {k : LockType} (hk : m.tableLock? tb' tx = some k) :
    ∃ k', m'.tableLock? tb' tx = some k' ∧ (readsTable k = true → readsTable k' = true) ∧
      (writesRecords k = true → writesRecords k' = true) ∧ (k = .writeLock → k' = .writeLock) := by
  cases h with
  | kept _ | refused _ _ _ => exact ⟨k, hk, id, id, id⟩
  | granted _ hnew hset =>
    by_cases htb : tb' = tb
    · subst htb
      rw [hk] at hnew hset
      rcases stored_grows hnew with ⟨hread, hwrite, hne⟩
      exact ⟨_, by rw [hset.table, if_pos ⟨rfl, rfl⟩], hread, hwrite, fun he => absurd he hne⟩
    · refine ⟨k, ?_, id, id, id⟩
      rw [hset.table, if_neg fun he => htb he.1]
      exact hk

/-- A table request leaves the record locks. -/
theorem recordLock?_of_tableOutcome (h : TableOutcome m tx tb desired (result, m')) (tb' : Str)
    (c u : Int) : m'.recordLock? tb' c u = m.recordLock? tb' c u := by
  cases h with
  | kept _ | refused _ _ _ => rfl
  | granted _ _ hset => exact hset.record tb' c u

/-- A request for a record leaves the record locks, or adds the one asked for. -/
theorem ItemOutcome.record (h : ItemOutcome m tx tb c desired (result, m')) :
    (∀ tb' c' u, m'.recordLock? tb' c' u = m.recordLock? tb' c' u) ∨
      (∀ tb' c' u, m'.recordLock? tb' c' u =
        if tb' = tb ∧ c' = c ∧ u = tx then some desired else m.recordLock? tb' c' u) ∧
      coversRecord desired (m.recordLock? tb c tx) = false ∧
      ∀ u k, u ≠ tx → m.recordLock? tb c u = some k → blocksRecord desired k = false := by
  cases h with
  | refusedTable _ _ => exact .inl fun _ _ _ => rfl
  | kept htable _ | refused _ htable _ _ => exact .inl (recordLock?_of_tableOutcome htable)
  | granted htable hnew hfree hset =>
    refine .inr ⟨?_, ?_, ?_⟩
    · intro tb' c' u
      rw [hset.record, recordLock?_of_tableOutcome htable]
    · rw [← recordLock?_of_tableOutcome htable]
      exact hnew
    · intro u k hu hk
      exact hfree u k hu ((recordLock?_of_tableOutcome htable ..).trans hk)

theorem ItemOutcome.grows (h : ItemOutcome m tx tb c desired (result, m')) {tb' : Str}
    {k : LockType} (hk : m.tableLock? tb' tx = some k) :
    ∃ k', m'.tableLock? tb' tx = some k' ∧ (readsTable k = true → readsTable k' = true) ∧
      (writesRecords k = true → writesRecords k' = true) ∧ (k = .writeLock → k' = .writeLock) := by
  cases h with
  | refusedTable _ _ => exact ⟨k, hk, id, id, id⟩
  | kept htable _ | refused _ htable _ _ => exact htable.grows hk
  | granted htable _ _ hset =>
    rw [hset.table]
    exact htable.grows hk

/-- The record locks of the requester only grow. -/
theorem ItemOutcome.record_grows (h : ItemOutcome m tx tb c desired (result, m')) {tb' : Str}
    {c' : Int} {k : LockType} (hk : m.recordLock? tb' c' tx = some k) :
    ∃ k', m'.recordLock? tb' c' tx = some k' ∧ (k = .writeLock → k' = .writeLock) := by
  rcases h.record with hsame | ⟨hset, hnew, -⟩
  · exact ⟨k, (hsame ..).trans hk, id⟩
  · by_cases heq : tb' = tb ∧ c' = c
    · rcases heq with ⟨rfl, rfl⟩
      refine ⟨desired, by rw [hset, if_pos ⟨rfl, rfl, rfl⟩], ?_⟩
      intro hwrite
      -- a write lock already covers every request
      rw [hk, hwrite] at hnew
      cases desired <;> cases hnew
    · refine ⟨k, ?_, id⟩
      rw [hset, if_neg fun he => heq ⟨he.1, he.2.1⟩]
      exact hk

theorem RecordExclusive.itemOutcome (h : RecordExclusive m)
    (hout : ItemOutcome m tx tb c desired (result, m')) : RecordExclusive m' := by
  rcases hout.record with hsame | ⟨hset, -, hfree⟩
  · intro tb' c' u v ku kv huv hu hv
    rw [hsame] at hu hv
    exact h tb' c' u v ku kv huv hu hv
  · -- the new lock against every other holder of the record
    have hnew : ∀ v kv, v ≠ tx → m.recordLock? tb c v = some kv →
        desired = .readLock ∧ kv = .readLock := by
      intro v kv hv hlock
      have hblock := hfree v kv hv hlock
      cases desired <;> simp_all [blocksRecord]
    intro tb' c' u v ku kv huv hu hv
    rw [hset] at hu hv
    split at hu
    case isTrue heq =>
      rcases heq with ⟨rfl, rfl, rfl⟩
      rw [if_neg fun he => huv he.2.2.symm] at hv
      cases hu
      exact hnew v kv (Ne.symm huv) hv
    case isFalse hne =>
      split at hv
      case isTrue heq =>
        rcases heq with ⟨rfl, rfl, rfl⟩
        cases hv
        exact (hnew u ku huv hu).symm
      case isFalse => exact h tb' c' u v ku kv huv hu hv

theorem RecordExclusive.of_recordLock (h : RecordExclusive m)
    (hsub : ∀ tb c u k, m'.recordLock? tb c u = some k → m.recordLock? tb c u = some k) :
    RecordExclusive m' := by
  intro tb c u v ku kv huv hu hv
  exact h tb c u v ku kv huv (hsub tb c u ku hu) (hsub tb c v kv hv)

end LockManager

end PittCs.Rcdb
