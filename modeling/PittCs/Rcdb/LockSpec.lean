import PittCs.Rcdb.LockManager

/-!
# What the lock manager does

One statement per operation of `LockManager.cpp`, in terms of who holds which
lock: a request is granted, was granted before or is refused, and a release
takes away locks of one transaction only.
-/

namespace PittCs.Rcdb

open Std PittCs.Lib List

namespace LockManager

/-! ## What a request does -/

/-- A table without an entry has no record locks either. -/
def Known (m : LockManager) : Prop :=
  ∀ tb, m.tableLevelLocks[tb]? = none → ∀ c u, m.recordLock? tb c u = none

/-- The lists of a transaction name every lock it holds. -/
def OwnsAll (m : LockManager) (tx : Int) : Prop :=
  (∀ tb k, m.tableLock? tb tx = some k → tb ∈ (m.ownedBy tx).tableLocksOwned) ∧
    ∀ tb c k, m.recordLock? tb c tx = some k →
      c ∈ ((m.ownedBy tx).recordLocksOwned[tb]?).getD []

/-- One table lock is stored. -/
structure TableSet (m : LockManager) (tableName : Str) (tx : Int) (kind : LockType)
    (m' : LockManager) : Prop where
  table : ∀ tb u, m'.tableLock? tb u =
    if tb = tableName ∧ u = tx then some kind else m.tableLock? tb u
  record : ∀ tb c u, m'.recordLock? tb c u = m.recordLock? tb c u
  known : Known m'
  owns : ∀ u, OwnsAll m u → OwnsAll m' u

/-- The outcome of `tryAcquireTableLock`. -/
inductive TableOutcome (m : LockManager) (tx : Int) (tableName : Str) (desired : LockType) :
    List Int × LockManager → Prop
  | kept (hheld : alreadyHolds (m.tableLock? tableName tx) desired = true) :
      TableOutcome m tx tableName desired ([], m)
  | granted {m' : LockManager}
      (hfree : ∀ u k, u ≠ tx → m.tableLock? tableName u = some k → blocks desired k = false)
      (hnew : alreadyHolds (m.tableLock? tableName tx) desired = false)
      (hset : TableSet m tableName tx (stored (m.tableLock? tableName tx) desired) m') :
      TableOutcome m tx tableName desired ([], m')
  | refused {result : List Int} (hne : result ≠ [])
      (hnew : alreadyHolds (m.tableLock? tableName tx) desired = false)
      (hmem : ∀ u, u ∈ result ↔
        u ≠ tx ∧ ∃ k, m.tableLock? tableName u = some k ∧ blocks desired k = true) :
      TableOutcome m tx tableName desired (result, m)

variable {m m' : LockManager} {tx u coffeeID : Int} {tableName : Str} {desired : LockType}
  {result : List Int}

theorem Known.setTableLock (h : Known m) (tableName : Str) (tx : Int) (kind : LockType) :
    Known (m.setTableLock tableName tx kind) := by
  intro tb htb c u
  refine h tb ?_ c u
  simp only [LockManager.setTableLock, getElem?_insert_if] at htb
  split at htb
  · cases htb
  · exact htb

/-- A stored lock must be in the owner's list already. -/
theorem tableSet_setTableLock (hk : Known m)
    (hown : OwnsAll m tx → tableName ∈ (m.ownedBy tx).tableLocksOwned) (kind : LockType) :
    TableSet m tableName tx kind (m.setTableLock tableName tx kind) where
  table := by
    intro tb u
    exact tableLock?_setTableLock ..
  record := by
    intro tb c u
    rfl
  known := hk.setTableLock tableName tx kind
  owns := by
    intro u hu
    refine ⟨fun tb k hlock => ?_, hu.2⟩
    rw [tableLock?_setTableLock] at hlock
    split at hlock
    · next h =>
        rcases h with ⟨rfl, rfl⟩
        exact hown hu
    · exact hu.1 tb k hlock

/-- Storing a second time overwrites the first lock. -/
theorem TableSet.again {kind : LockType} (h : TableSet m tableName tx kind m') (kind' : LockType) :
    TableSet m tableName tx kind' (m'.setTableLock tableName tx kind') := by
  have hlock : m'.tableLock? tableName tx = some kind := by
    rw [h.table]
    simp
  have hset := tableSet_setTableLock h.known (fun hu => hu.1 _ _ hlock) kind'
  refine ⟨fun tb u => ?_, fun tb c u => ?_, hset.known, fun u hu => hset.owns u (h.owns u hu)⟩
  · rw [hset.table, h.table]
    split <;> rfl
  · rw [hset.record, h.record]

theorem OwnsAll.ownTable (h : OwnsAll m u) (tx : Int) (tableName : Str) :
    OwnsAll (m.ownTable tx tableName) u := by
  constructor
  · intro tb k hlock
    have hin := h.1 tb k hlock
    rw [ownedBy_ownTable]
    split
    · next hu =>
        subst hu
        exact mem_append_left _ hin
    · exact hin
  · intro tb c k hlock
    have hin := h.2 tb c k hlock
    rw [ownedBy_ownTable]
    split
    · next hu =>
        subst hu
        exact hin
    · exact hin

theorem TableSet.of_ownTable {kind : LockType}
    (h : TableSet (m.ownTable tx tableName) tableName tx kind m') :
    TableSet m tableName tx kind m' :=
  ⟨h.table, h.record, h.known, fun u hu => h.owns u (hu.ownTable tx tableName)⟩

theorem mem_tableLocksOwned_ownTable (m : LockManager) (tx : Int) (tableName : Str) :
    tableName ∈ ((m.ownTable tx tableName).ownedBy tx).tableLocksOwned := by
  rw [ownedBy_ownTable, if_pos rfl]
  simp

theorem grantTable_spec (hk : Known m) (tx : Int) (tableName : Str) (desired : LockType) :
    TableSet m tableName tx (stored (m.tableLock? tableName tx) desired)
      (m.grantTable tx tableName (m.tableLock? tableName tx) desired) := by
  unfold grantTable
  rcases hheld : m.tableLock? tableName tx with _ | k
  · -- a first lock on the table
    have hset := tableSet_setTableLock (m := m.ownTable tx tableName) hk
      (fun _ => mem_tableLocksOwned_ownTable m tx tableName) (stored none desired)
    simpa using hset.of_ownTable
  · -- an escalation, stored twice when a case falls through
    have hown : OwnsAll m tx → tableName ∈ (m.ownedBy tx).tableLocksOwned :=
      fun hu => hu.1 _ _ hheld
    by_cases hfall : some k = some LockType.intentReadLock ∧ desired = .readLock
    · have hset := (tableSet_setTableLock hk hown .readLock).again (stored (some k) desired)
      simpa [hfall] using hset
    · have hset := tableSet_setTableLock hk hown (stored (some k) desired)
      dsimp only
      rw [if_neg hfall, if_neg (by simp)]
      exact hset

/-- The entries made for a table that was never locked before. -/
def newTable (m : LockManager) (tableName : Str) (tx : Int) (kind : LockType) : LockManager :=
  { m with
    tableLevelLocks := m.tableLevelLocks.insert tableName (TreeMap.ofList [(tx, kind)])
    recordLevelLocks := m.recordLevelLocks.insert tableName ∅ }

theorem newTable_spec (hk : Known m) (hnone : m.tableLevelLocks[tableName]? = none) (tx : Int)
    (kind : LockType) :
    TableSet m tableName tx kind ((m.newTable tableName tx kind).ownTable tx tableName) := by
  have htable : ∀ tb u, (m.newTable tableName tx kind).tableLock? tb u =
      if tb = tableName ∧ u = tx then some kind else m.tableLock? tb u := by
    intro tb u
    simp only [tableLock?, tableHolders, newTable, getElem?_insert_if]
    by_cases htb : tb = tableName
    · subst htb
      simp [hnone, getElem?_insert_if]
    · simp [htb]
  have hrecord : ∀ tb c u, (m.newTable tableName tx kind).recordLock? tb c u =
      m.recordLock? tb c u := by
    intro tb c u
    by_cases htb : tb = tableName
    · subst htb
      rw [hk tb hnone c u]
      simp [recordLock?, recordHolders, newTable]
    · simp [recordLock?, recordHolders, newTable, getElem?_insert_if, htb]
  refine ⟨htable, hrecord, fun tb htb c u => ?_, fun u hu => ?_⟩
  · refine (hrecord tb c u).trans (hk tb ?_ c u)
    have htb' : (m.newTable tableName tx kind).tableLevelLocks[tb]? = none := htb
    simp only [newTable, getElem?_insert_if] at htb'
    split at htb'
    · cases htb'
    · exact htb'
  · constructor
    · intro tb k hlock
      rw [tableLock?_ownTable, htable] at hlock
      split at hlock
      · next h =>
          rcases h with ⟨rfl, rfl⟩
          exact mem_tableLocksOwned_ownTable ..
      · have hin := hu.ownTable tx tableName
        exact hin.1 tb k hlock
    · intro tb c k hlock
      rw [recordLock?_ownTable, hrecord] at hlock
      have hin := hu.ownTable tx tableName
      exact hin.2 tb c k hlock

/-- `tryAcquireTableLock` meets one of the three outcomes. -/
theorem tryAcquireTableLock_spec (hk : Known m) (tx : Int) (tableName : Str) (desired : LockType) :
    TableOutcome m tx tableName desired (m.tryAcquireTableLock tx tableName desired) := by
  rcases hlocks : m.tableLevelLocks[tableName]? with _ | locks
  · -- the first lock ever asked for on this table
    have hnone : ∀ u, m.tableLock? tableName u = none := by
      intro u
      simp [tableLock?, tableHolders, hlocks]
    have heq : m.tryAcquireTableLock tx tableName desired =
        ([], (m.newTable tableName tx desired).ownTable tx tableName) := by
      unfold tryAcquireTableLock
      rw [hlocks]
      rfl
    have hset := newTable_spec hk hlocks tx desired
    rw [heq]
    refine .granted (fun u k _ hu => ?_) ?_ ?_
    · rw [hnone u] at hu
      cases hu
    · rw [hnone tx]
      rfl
    · rw [hnone tx]
      exact hset
  · have hlock : ∀ u, m.tableLock? tableName u = locks[u]? := by
      intro u
      simp [tableLock?, tableHolders, hlocks]
    have hgrant := grantTable_spec hk tx tableName desired
    have hmem : ∀ u, u ∈ dependencies locks tx (blocks desired) ↔
        u ≠ tx ∧ ∃ k, m.tableLock? tableName u = some k ∧ blocks desired k = true := by
      intro u
      rw [mem_dependencies, hlock u]
    rw [tryAcquireTableLock_some hlocks, ← hlock tx]
    by_cases hheld : alreadyHolds (m.tableLock? tableName tx) desired = true
    · rw [if_pos hheld]
      exact .kept hheld
    · rw [if_neg hheld]
      have hnew : alreadyHolds (m.tableLock? tableName tx) desired = false := by simpa using hheld
      by_cases hdep : dependencies locks tx (blocks desired) = []
      · rw [if_pos hdep]
        refine .granted (fun u k hu hk' => ?_) hnew hgrant
        by_contra hb
        have hin := (hmem u).mpr ⟨hu, k, hk', by simpa using hb⟩
        rw [hdep] at hin
        cases hin
      · rw [if_neg hdep]
        exact .refused hdep hnew hmem

/-! ## Record locks -/

/-- One record lock is stored. -/
structure RecordSet (m : LockManager) (tableName : Str) (coffeeID tx : Int) (kind : LockType)
    (m' : LockManager) : Prop where
  table : ∀ tb u, m'.tableLock? tb u = m.tableLock? tb u
  record : ∀ tb c u, m'.recordLock? tb c u =
    if tb = tableName ∧ c = coffeeID ∧ u = tx then some kind else m.recordLock? tb c u
  known : Known m'
  owns : ∀ u, OwnsAll m u → OwnsAll m' u

/-- The record lock `held` suffices for the request. -/
def coversRecord (desired : LockType) (held : Option LockType) : Bool :=
  match desired with
  | .readLock => held.isSome
  | _ => held = some .writeLock

/-- The table lock a request for a record asks for first. -/
def intentOf : LockType → LockType
  | .readLock => .intentReadLock
  | _ => .intentWriteLock

/-- Another holder's record lock is in the way. -/
def blocksRecord (desired held : LockType) : Bool :=
  match desired with
  | .readLock => held ≠ .readLock
  | _ => true

/-- The outcome of `tryAcquireItemLock`: refused at the table, or with the table
lock `m₁` in hand granted, granted before, or refused at the record. -/
inductive ItemOutcome (m : LockManager) (tx : Int) (tableName : Str) (coffeeID : Int)
    (desired : LockType) : List Int × LockManager → Prop
  | refusedTable {result : List Int} (hne : result ≠ [])
      (htable : TableOutcome m tx tableName (intentOf desired) (result, m)) :
      ItemOutcome m tx tableName coffeeID desired (result, m)
  | kept {m₁ : LockManager} (htable : TableOutcome m tx tableName (intentOf desired) ([], m₁))
      (hheld : coversRecord desired (m₁.recordLock? tableName coffeeID tx) = true) :
      ItemOutcome m tx tableName coffeeID desired ([], m₁)
  | granted {m₁ m' : LockManager}
      (htable : TableOutcome m tx tableName (intentOf desired) ([], m₁))
      (hnew : coversRecord desired (m₁.recordLock? tableName coffeeID tx) = false)
      (hfree : ∀ u k, u ≠ tx → m₁.recordLock? tableName coffeeID u = some k →
        blocksRecord desired k = false)
      (hset : RecordSet m₁ tableName coffeeID tx desired m') :
      ItemOutcome m tx tableName coffeeID desired ([], m')
  | refused {m₁ : LockManager} {result : List Int} (hne : result ≠ [])
      (htable : TableOutcome m tx tableName (intentOf desired) ([], m₁))
      (hnew : coversRecord desired (m₁.recordLock? tableName coffeeID tx) = false)
      (hmem : ∀ u, u ∈ result ↔ u ≠ tx ∧
        ∃ k, m₁.recordLock? tableName coffeeID u = some k ∧ blocksRecord desired k = true) :
      ItemOutcome m tx tableName coffeeID desired (result, m₁)

theorem TableOutcome.known (hk : Known m) (h : TableOutcome m tx tableName desired (result, m')) :
    Known m' := by
  cases h with
  | kept _ | refused _ _ _ => exact hk
  | granted _ _ hset => exact hset.known

theorem ItemOutcome.known (hk : Known m)
    (hout : ItemOutcome m tx tableName coffeeID desired (result, m')) : Known m' := by
  cases hout with
  | refusedTable _ _ => exact hk
  | kept htable _ | refused _ htable _ _ => exact htable.known hk
  | granted _ _ _ hset => exact hset.known

theorem OwnsAll.ownRecord (h : OwnsAll m u) (tx : Int) (tableName : Str) (coffeeID : Int) :
    OwnsAll (m.ownRecord tx tableName coffeeID) u := by
  have hown : (m.ownRecord tx tableName coffeeID).ownedBy u =
      if u = tx then
        { m.ownedBy tx with
          recordLocksOwned := (m.ownedBy tx).recordLocksOwned.insert tableName
            (((m.ownedBy tx).recordLocksOwned[tableName]?).getD [] ++ [coffeeID]) }
      else m.ownedBy u := by
    simp only [LockManager.ownRecord, ownedBy, getElem?_insert_if]
    split <;> rfl
  constructor
  · intro tb k hlock
    have hin := h.1 tb k hlock
    rw [hown]
    split
    · next hu =>
        subst hu
        exact hin
    · exact hin
  · intro tb c k hlock
    have hin := h.2 tb c k hlock
    rw [hown]
    split
    · next hu =>
        subst hu
        dsimp only
        rw [getElem?_insert_if]
        split
        · next htb =>
            subst htb
            exact mem_append_left _ hin
        · exact hin
    · exact hin

theorem mem_recordLocksOwned_ownRecord (m : LockManager) (tx : Int) (tableName : Str)
    (coffeeID : Int) :
    coffeeID ∈ (((m.ownRecord tx tableName coffeeID).ownedBy tx).recordLocksOwned[tableName]?).getD
      [] := by
  simp [ownRecord, ownedBy]

theorem recordSet_setRecordLock (hk : Known m) (htab : m.tableLevelLocks[tableName]? ≠ none)
    (hown : OwnsAll m tx → coffeeID ∈ ((m.ownedBy tx).recordLocksOwned[tableName]?).getD [])
    (kind : LockType) :
    RecordSet m tableName coffeeID tx kind (m.setRecordLock tableName coffeeID tx kind) where
  table := by
    intro tb u
    rfl
  record := by
    intro tb c u
    exact recordLock?_setRecordLock ..
  known := by
    intro tb htb c u
    have hne : tb ≠ tableName := fun he => htab (he ▸ htb)
    rw [recordLock?_setRecordLock, if_neg (fun h => hne h.1)]
    exact hk tb htb c u
  owns := by
    intro u hu
    refine ⟨hu.1, fun tb c k hlock => ?_⟩
    rw [recordLock?_setRecordLock] at hlock
    split at hlock
    · next h =>
        rcases h with ⟨rfl, rfl, rfl⟩
        exact hown hu
    · exact hu.2 tb c k hlock

theorem RecordSet.of_ownRecord {kind : LockType}
    (h : RecordSet (m.ownRecord tx tableName coffeeID) tableName coffeeID tx kind m') :
    RecordSet m tableName coffeeID tx kind m' :=
  ⟨h.table, h.record, h.known, fun u hu => h.owns u (hu.ownRecord tx tableName coffeeID)⟩

/-- A granted table lock leaves an entry for the table. -/
theorem TableOutcome.isSome (h : TableOutcome m tx tableName desired ([], m')) :
    m'.tableLevelLocks[tableName]? ≠ none := by
  have hlock : m'.tableLock? tableName tx ≠ none := by
    generalize hr : ([], m') = r at h
    cases h with
    | kept hheld =>
      cases hr
      intro hnone
      rw [hnone] at hheld
      cases hheld
    | granted _ _ hset =>
      cases hr
      rw [hset.table]
      simp
    | refused hne _ _ =>
      cases hr
      exact absurd rfl hne
  intro hnone
  apply hlock
  simp [tableLock?, tableHolders, hnone]

/-- A refused table lock changes nothing. -/
theorem TableOutcome.eq_of_ne_nil (h : TableOutcome m tx tableName desired (result, m'))
    (hne : result ≠ []) : m' = m := by
  cases h with
  | kept _ | refused _ _ _ => rfl
  | granted _ _ _ => exact absurd rfl hne

theorem recordLock?_eq {o : Option Holders} (h : (m.recordHolders tableName)[coffeeID]? = o)
    (u : Int) : m.recordLock? tableName coffeeID u = (o.getD ∅)[u]? := by
  simp [recordLock?, h]

/-- The holders that `tryAcquireItemLock` finds in the way of a request. -/
theorem mem_dependencies_record {recordLock : Holders}
    (h : (m.recordHolders tableName)[coffeeID]? = some recordLock) (desired : LockType) (u : Int) :
    u ∈ dependencies recordLock tx (blocksRecord desired) ↔ u ≠ tx ∧
      ∃ k, m.recordLock? tableName coffeeID u = some k ∧ blocksRecord desired k = true := by
  rw [mem_dependencies, recordLock?_eq h u]
  rfl

/-- No holder in the way: the record lock may be stored. -/
theorem free_of_dependencies {recordLock : Holders}
    (h : (m.recordHolders tableName)[coffeeID]? = some recordLock)
    (hdep : dependencies recordLock tx (blocksRecord desired) = []) :
    ∀ u k, u ≠ tx → m.recordLock? tableName coffeeID u = some k →
      blocksRecord desired k = false := by
  intro u k hu hk
  by_contra hb
  have hin := (mem_dependencies_record h desired u).mpr ⟨hu, k, hk, by simpa using hb⟩
  rw [hdep] at hin
  cases hin

/-- `tryAcquireItemLock` meets one of the four outcomes. -/
theorem tryAcquireItemLock_spec (hk : Known m) (tx : Int) (tableName : Str) (coffeeID : Int)
    (hd : desired = .readLock ∨ desired = .writeLock) :
    ∃ r, m.tryAcquireItemLock tx tableName coffeeID desired = .ok r ∧
      ItemOutcome m tx tableName coffeeID desired r := by
  have htable := tryAcquireTableLock_spec hk tx tableName (intentOf desired)
  rcases hr : m.tryAcquireTableLock tx tableName (intentOf desired) with ⟨result, m₁⟩
  rw [hr] at htable
  have hk₁ := htable.known hk
  cases result with
  | cons u l =>
    -- refused at the table
    have hm := htable.eq_of_ne_nil (by simp)
    subst hm
    refine ⟨(u :: l, m₁), ?_, .refusedTable (by simp) htable⟩
    rcases hd with rfl | rfl
    · simp only [intentOf] at hr
      simp only [tryAcquireItemLock, hr]
    · simp only [intentOf] at hr
      simp only [tryAcquireItemLock, hr]
  | nil =>
    have htab := htable.isSome
    have hfresh : (OwnsAll (m₁.ownRecord tx tableName coffeeID) tx →
        coffeeID ∈ (((m₁.ownRecord tx tableName coffeeID).ownedBy
          tx).recordLocksOwned[tableName]?).getD []) :=
      fun _ => mem_recordLocksOwned_ownRecord m₁ tx tableName coffeeID
    have hnewSet : ∀ kind, RecordSet m₁ tableName coffeeID tx kind
        ((m₁.ownRecord tx tableName coffeeID).setRecordLock tableName coffeeID tx kind) :=
      fun kind => (recordSet_setRecordLock (m := m₁.ownRecord tx tableName coffeeID) hk₁ htab
        hfresh kind).of_ownRecord
    rcases hrec : (m₁.recordHolders tableName)[coffeeID]? with _ | recordLock
    · -- nobody has ever locked the record
      have hnone : ∀ u, m₁.recordLock? tableName coffeeID u = none := by
        intro u
        simp [recordLock?_eq hrec u]
      have hnew : coversRecord desired (m₁.recordLock? tableName coffeeID tx) = false := by
        rw [hnone tx]
        cases desired <;> rfl
      have hfree : ∀ u k, u ≠ tx → m₁.recordLock? tableName coffeeID u = some k →
          blocksRecord desired k = false := by
        intro u k _ hu
        rw [hnone u] at hu
        cases hu
      refine ⟨_, ?_, .granted htable hnew hfree (hnewSet desired)⟩
      rcases hd with rfl | rfl
      · simp only [intentOf] at hr
        simp only [tryAcquireItemLock, hr, hrec]
        rfl
      · simp only [intentOf] at hr
        simp only [tryAcquireItemLock, hr, hrec]
        rfl
    · have hlock : ∀ u, m₁.recordLock? tableName coffeeID u = recordLock[u]? :=
        fun u => recordLock?_eq hrec u
      rcases hd with rfl | rfl
      · -- read
        simp only [intentOf] at hr
        simp only [tryAcquireItemLock, hr, hrec]
        have hmem : tx ∈ recordLock ↔ (recordLock[tx]?).isSome :=
          TreeMap.mem_iff_isSome_getElem?
        have hdep : dependencies recordLock tx (fun k => k ≠ .readLock) =
            dependencies recordLock tx (blocksRecord .readLock) := rfl
        by_cases hin : tx ∈ recordLock
        · rw [if_pos hin]
          exact ⟨_, rfl, .kept htable (by rw [hlock tx]; exact hmem.mp hin)⟩
        · rw [if_neg hin]
          have hnew : coversRecord .readLock (m₁.recordLock? tableName coffeeID tx) = false := by
            rw [hlock tx]
            have hnot : ¬ (recordLock[tx]?).isSome = true := fun h => hin (hmem.mpr h)
            simpa only [coversRecord, Bool.not_eq_true] using hnot
          rw [hdep]
          by_cases hnil : dependencies recordLock tx (blocksRecord .readLock) = []
          · rw [if_pos hnil, hnil]
            exact ⟨_, rfl, .granted htable hnew (free_of_dependencies hrec hnil)
              (hnewSet .readLock)⟩
          · rw [if_neg hnil]
            exact ⟨_, rfl, .refused hnil htable hnew (mem_dependencies_record hrec .readLock)⟩
      · -- write
        simp only [intentOf] at hr
        simp only [tryAcquireItemLock, hr, hrec]
        have hdep : dependencies recordLock tx (fun _ => true) =
            dependencies recordLock tx (blocksRecord .writeLock) := rfl
        by_cases hin : recordLock[tx]? = some .writeLock
        · rw [if_pos hin]
          exact ⟨_, rfl, .kept htable (by rw [hlock tx, hin]; rfl)⟩
        · rw [if_neg hin]
          have hnew : coversRecord .writeLock (m₁.recordLock? tableName coffeeID tx) = false := by
            rw [hlock tx]
            simpa [coversRecord] using hin
          rw [hdep]
          by_cases hnil : dependencies recordLock tx (blocksRecord .writeLock) = []
          · rw [if_pos hnil, hnil]
            refine ⟨_, rfl, .granted htable hnew (free_of_dependencies hrec hnil) ?_⟩
            by_cases hheld : tx ∈ recordLock
            · -- a read lock becomes a write lock
              rw [if_pos hheld]
              have hsome := TreeMap.mem_iff_isSome_getElem?.mp hheld
              rw [← hlock tx] at hsome
              rcases Option.isSome_iff_exists.mp hsome with ⟨k, hk'⟩
              exact recordSet_setRecordLock hk₁ htab (fun hu => hu.2 _ _ _ hk') .writeLock
            · rw [if_neg hheld]
              exact hnewSet .writeLock
          · rw [if_neg hnil]
            exact ⟨_, rfl, .refused hnil htable hnew (mem_dependencies_record hrec .writeLock)⟩

/-! ## Releasing -/

theorem tableLock?_foldl_eraseRecordLock (tx : Int) (l : List (Str × Int)) (m : LockManager)
    (tb : Str) (u : Int) :
    (l.foldl (eraseRecordLock tx) m).tableLock? tb u = m.tableLock? tb u := by
  induction l generalizing m with
  | nil => rfl
  | cons e l ih =>
    rw [foldl_cons, ih]
    rfl

theorem recordLock?_foldl_eraseRecordLock (tx : Int) (l : List (Str × Int)) (m : LockManager)
    (tb : Str) (c u : Int) :
    (l.foldl (eraseRecordLock tx) m).recordLock? tb c u =
      if (tb, c) ∈ l ∧ u = tx then none else m.recordLock? tb c u := by
  induction l generalizing m with
  | nil => simp
  | cons e l ih =>
    rw [foldl_cons, ih, recordLock?_eraseRecordLock]
    by_cases hu : u = tx
    · by_cases he : (tb, c) = e
      · simp [he, hu]
      · simp [he, hu]
    · simp [hu]

theorem recordLock?_foldl_eraseTableLock (tx : Int) (l : List Str) (m : LockManager) (tb : Str)
    (c u : Int) : (l.foldl (eraseTableLock tx) m).recordLock? tb c u = m.recordLock? tb c u := by
  induction l generalizing m with
  | nil => rfl
  | cons e l ih =>
    rw [foldl_cons, ih]
    rfl

theorem tableLock?_foldl_eraseTableLock (tx : Int) (l : List Str) (m : LockManager) (tb : Str)
    (u : Int) :
    (l.foldl (eraseTableLock tx) m).tableLock? tb u =
      if tb ∈ l ∧ u = tx then none else m.tableLock? tb u := by
  induction l generalizing m with
  | nil => simp
  | cons e l ih =>
    rw [foldl_cons, ih, tableLock?_eraseTableLock]
    by_cases hu : u = tx
    · by_cases he : tb = e
      · simp [he, hu]
      · simp [he, hu]
    · simp [hu]

theorem tableLock?_releaseAllLocks (m : LockManager) (tx : Int) (tb : Str) (u : Int) :
    (m.releaseAllLocks tx).tableLock? tb u =
      if tb ∈ (m.ownedBy tx).tableLocksOwned ∧ u = tx then none else m.tableLock? tb u := by
  unfold releaseAllLocks
  refine (tableLock?_foldl_eraseTableLock ..).trans ?_
  rw [tableLock?_foldl_eraseRecordLock]

theorem recordLock?_releaseAllLocks (m : LockManager) (tx : Int) (tb : Str) (c u : Int) :
    (m.releaseAllLocks tx).recordLock? tb c u =
      if (tb, c) ∈ LocksOwned.records (m.ownedBy tx) ∧ u = tx then none
      else m.recordLock? tb c u := by
  unfold releaseAllLocks
  refine (recordLock?_foldl_eraseTableLock ..).trans ?_
  rw [recordLock?_foldl_eraseRecordLock]

theorem mem_records {o : LocksOwned} {tb : Str} {c : Int} :
    (tb, c) ∈ LocksOwned.records o ↔ c ∈ (o.recordLocksOwned[tb]?).getD [] := by
  simp only [LocksOwned.records, mem_flatMap, mem_map, Prod.mk.injEq]
  constructor
  · rintro ⟨⟨tb', cs⟩, hmem, c', hc', rfl, rfl⟩
    rw [TreeMap.mem_toList_iff_getElem?_eq_some.mp hmem]
    exact hc'
  · intro hc
    rcases hcs : o.recordLocksOwned[tb]? with _ | cs
    · rw [hcs] at hc
      cases hc
    · rw [hcs] at hc
      exact ⟨(tb, cs), TreeMap.mem_toList_iff_getElem?_eq_some.mpr hcs, c, hc, rfl, rfl⟩

/-- Releasing takes away locks of `tx` only. -/
theorem releaseAllLocks_table_some {tb : Str} {k : LockType}
    (h : (m.releaseAllLocks tx).tableLock? tb u = some k) : m.tableLock? tb u = some k := by
  rw [tableLock?_releaseAllLocks] at h
  split at h
  · cases h
  · exact h

theorem releaseAllLocks_record_some {tb : Str} {c : Int} {k : LockType}
    (h : (m.releaseAllLocks tx).recordLock? tb c u = some k) : m.recordLock? tb c u = some k := by
  rw [recordLock?_releaseAllLocks] at h
  split at h
  · cases h
  · exact h

theorem releaseAllLocks_of_ne (h : u ≠ tx) :
    (∀ tb, (m.releaseAllLocks tx).tableLock? tb u = m.tableLock? tb u) ∧
      ∀ tb c, (m.releaseAllLocks tx).recordLock? tb c u = m.recordLock? tb c u := by
  constructor
  · intro tb
    rw [tableLock?_releaseAllLocks, if_neg (fun hu => h hu.2)]
  · intro tb c
    rw [recordLock?_releaseAllLocks, if_neg (fun hu => h hu.2)]

/-- A transaction whose lists are complete holds nothing afterwards. -/
theorem releaseAllLocks_none (h : OwnsAll m tx) :
    (∀ tb, (m.releaseAllLocks tx).tableLock? tb tx = none) ∧
      ∀ tb c, (m.releaseAllLocks tx).recordLock? tb c tx = none := by
  constructor
  · intro tb
    rw [tableLock?_releaseAllLocks]
    rcases hk : m.tableLock? tb tx with _ | k
    · split <;> rfl
    · rw [if_pos ⟨h.1 tb k hk, rfl⟩]
  · intro tb c
    rw [recordLock?_releaseAllLocks]
    rcases hk : m.recordLock? tb c tx with _ | k
    · split <;> rfl
    · rw [if_pos ⟨mem_records.mpr (h.2 tb c k hk), rfl⟩]

theorem Known.releaseAllLocks (hk : Known m) (tx : Int) : Known (m.releaseAllLocks tx) := by
  have hkeys : ∀ (l : List Str) (m : LockManager) (tb : Str),
      (l.foldl (eraseTableLock tx) m).tableLevelLocks[tb]? = none →
        m.tableLevelLocks[tb]? = none := by
    intro l
    induction l with
    | nil =>
      intro m tb h
      exact h
    | cons e l ih =>
      intro m tb h
      have h' := ih _ tb h
      simp only [eraseTableLock, getElem?_insert_if] at h'
      split at h'
      · cases h'
      · exact h'
  have hkeys' : ∀ (l : List (Str × Int)) (m : LockManager),
      (l.foldl (eraseRecordLock tx) m).tableLevelLocks = m.tableLevelLocks := by
    intro l
    induction l with
    | nil =>
      intro m
      rfl
    | cons e l ih =>
      intro m
      rw [foldl_cons, ih]
      rfl
  intro tb htb c u
  have hold := hkeys _ _ tb htb
  rw [hkeys'] at hold
  rcases hlock : (m.releaseAllLocks tx).recordLock? tb c u with _ | k
  · rfl
  · have := releaseAllLocks_record_some hlock
    rw [hk tb hold c u] at this
    cases this

theorem ownedBy_releaseAllLocks (h : u ≠ tx) : (m.releaseAllLocks tx).ownedBy u = m.ownedBy u := by
  have htables : ∀ (l : List Str) (m : LockManager),
      (l.foldl (eraseTableLock tx) m).owned = m.owned := by
    intro l
    induction l with
    | nil =>
      intro m
      rfl
    | cons e l ih =>
      intro m
      rw [foldl_cons, ih]
      rfl
  have hrecords : ∀ (l : List (Str × Int)) (m : LockManager),
      (l.foldl (eraseRecordLock tx) m).owned = m.owned := by
    intro l
    induction l with
    | nil =>
      intro m
      rfl
    | cons e l ih =>
      intro m
      rw [foldl_cons, ih]
      rfl
  unfold ownedBy releaseAllLocks
  dsimp only
  rw [getElem?_insert_if, if_neg h, htables, hrecords]

theorem OwnsAll.releaseAllLocks (htx : OwnsAll m tx) (hu : OwnsAll m u) :
    OwnsAll (m.releaseAllLocks tx) u := by
  by_cases heq : u = tx
  · subst heq
    rcases releaseAllLocks_none htx with ⟨htable, hrecord⟩
    constructor
    · intro tb k hlock
      rw [htable tb] at hlock
      cases hlock
    · intro tb c k hlock
      rw [hrecord tb c] at hlock
      cases hlock
  · constructor
    · intro tb k hlock
      rw [ownedBy_releaseAllLocks heq]
      exact hu.1 tb k (releaseAllLocks_table_some hlock)
    · intro tb c k hlock
      rw [ownedBy_releaseAllLocks heq]
      exact hu.2 tb c k (releaseAllLocks_record_some hlock)

/-! ## Holding nothing -/

/-- The transaction has no entry in any map. -/
def HoldsNothing (m : LockManager) (tx : Int) : Prop :=
  (∀ tb, m.tableLock? tb tx = none) ∧ ∀ tb c, m.recordLock? tb c tx = none

theorem holdsNothing_init (u : Int) : HoldsNothing .init u := by
  constructor
  · intro tb
    simp [tableLock?, tableHolders, LockManager.init]
  · intro tb c
    simp [recordLock?, recordHolders, LockManager.init]

theorem HoldsNothing.ownsAll (h : HoldsNothing m tx) : OwnsAll m tx := by
  constructor
  · intro tb k hlock
    rw [h.1 tb] at hlock
    cases hlock
  · intro tb c k hlock
    rw [h.2 tb c] at hlock
    cases hlock

/-- The locks of one transaction are the same in two states. -/
def SameLocks (m m' : LockManager) (u : Int) : Prop :=
  (∀ tb, m'.tableLock? tb u = m.tableLock? tb u) ∧
    ∀ tb c, m'.recordLock? tb c u = m.recordLock? tb c u

theorem SameLocks.symm (h : SameLocks m m' u) : SameLocks m' m u :=
  ⟨fun tb => (h.1 tb).symm, fun tb c => (h.2 tb c).symm⟩

theorem SameLocks.trans {m'' : LockManager} (h : SameLocks m m' u) (h' : SameLocks m' m'' u) :
    SameLocks m m'' u :=
  ⟨fun tb => (h'.1 tb).trans (h.1 tb), fun tb c => (h'.2 tb c).trans (h.2 tb c)⟩

theorem HoldsNothing.congr (h : HoldsNothing m u) (hsame : SameLocks m m' u) :
    HoldsNothing m' u := by
  constructor
  · intro tb
    rw [hsame.1, h.1]
  · intro tb c
    rw [hsame.2, h.2]

/-- A transaction that holds nothing may start with empty lists. -/
theorem OwnsAll.renew (htx : HoldsNothing m tx) (hu : OwnsAll m u) :
    OwnsAll { m with owned := (m.owned.insert tx {}).insert tx {} } u := by
  by_cases heq : u = tx
  · subst heq
    exact HoldsNothing.ownsAll htx
  · have howned : ({ m with owned := (m.owned.insert tx {}).insert tx {} } : LockManager).ownedBy u
        = m.ownedBy u := by
      simp [ownedBy, getElem?_insert_if, heq]
    constructor
    · intro tb k hlock
      rw [howned]
      exact hu.1 tb k hlock
    · intro tb c k hlock
      rw [howned]
      exact hu.2 tb c k hlock

theorem TableOutcome.sameLocks {m m' : LockManager} {tx u : Int} {tableName : Str}
    {desired : LockType} {result : List Int} (h : TableOutcome m tx tableName desired (result, m'))
    (hu : u ≠ tx) : SameLocks m m' u := by
  cases h with
  | kept _ | refused _ _ _ => exact ⟨fun _ => rfl, fun _ _ => rfl⟩
  | granted _ _ hset =>
    constructor
    · intro tb
      rw [hset.table, if_neg fun he => hu he.2]
    · intro tb c
      exact hset.record tb c u

theorem ItemOutcome.sameLocks {m m' : LockManager} {tx u : Int} {tableName : Str}
    {coffeeID : Int} {desired : LockType} {result : List Int}
    (h : ItemOutcome m tx tableName coffeeID desired (result, m')) (hu : u ≠ tx) :
    SameLocks m m' u := by
  cases h with
  | refusedTable _ _ => exact ⟨fun _ => rfl, fun _ _ => rfl⟩
  | kept htable _ | refused _ htable _ _ => exact htable.sameLocks hu
  | granted htable _ _ hset =>
    rcases htable.sameLocks hu with ⟨hsame, hsame'⟩
    constructor
    · intro tb
      rw [hset.table, hsame]
    · intro tb c
      rw [hset.record, if_neg fun he => hu he.2.2, hsame']

theorem TableOutcome.ownsAll (h : TableOutcome m tx tableName desired (result, m'))
    (hu : OwnsAll m u) : OwnsAll m' u := by
  cases h with
  | kept _ | refused _ _ _ => exact hu
  | granted _ _ hset => exact hset.owns u hu

theorem ItemOutcome.ownsAll (h : ItemOutcome m tx tableName coffeeID desired (result, m'))
    (hu : OwnsAll m u) : OwnsAll m' u := by
  cases h with
  | refusedTable _ _ => exact hu
  | kept htable _ | refused _ htable _ _ => exact htable.ownsAll hu
  | granted htable _ _ hset => exact hset.owns u (htable.ownsAll hu)

end LockManager

end PittCs.Rcdb
