import Mathlib.Data.List.Basic
import PittCs.Lib.TreeMap
import PittCs.Rcdb.Basic

/-!
# The lock manager

`LockManager.cpp`. Locks are held on tables and on records, in two maps from the
locked thing to its holders. A `Lock` repeats the holder's id, which is also its
key in the map, so the map holds the kind only. The lists of what a transaction
owns are fields of `transactionInfo` in the source; they belong to the locks and
are kept here, by transaction id.
-/

namespace PittCs.Rcdb

open Std PittCs.Lib Option

/-- `lockType`. -/
inductive LockType where
  | readLock
  | intentReadLock
  | writeLock
  | intentWriteLock
  | readIntentWriteLock
deriving DecidableEq

/-- The holders of one table or record. -/
abbrev Holders := TreeMap Int LockType

/-- `tableLocksOwned` and `recordLocksOwned` of a transaction. -/
structure LocksOwned where
  tableLocksOwned : List Str := []
  recordLocksOwned : TreeMap Str (List Int) := ∅

structure LockManager where
  tableLevelLocks : TreeMap Str Holders
  recordLevelLocks : TreeMap Str (TreeMap Int Holders)
  owned : TreeMap Int LocksOwned

namespace LockManager

def init : LockManager := ⟨∅, ∅, ∅⟩

/-- `tableLevelLocks[tableName]`. -/
def tableHolders (m : LockManager) (tableName : Str) : Holders :=
  (m.tableLevelLocks[tableName]?).getD ∅

/-- `recordLevelLocks[tableName]`. -/
def recordHolders (m : LockManager) (tableName : Str) : TreeMap Int Holders :=
  (m.recordLevelLocks[tableName]?).getD ∅

/-- The kind of table lock a transaction holds. -/
def tableLock? (m : LockManager) (tableName : Str) (tx : Int) : Option LockType :=
  (m.tableHolders tableName)[tx]?

/-- The kind of record lock a transaction holds. -/
def recordLock? (m : LockManager) (tableName : Str) (coffeeID tx : Int) : Option LockType :=
  (((m.recordHolders tableName)[coffeeID]?).getD ∅)[tx]?

def ownedBy (m : LockManager) (tx : Int) : LocksOwned := (m.owned[tx]?).getD {}

/-- `tableLevelLocks[tableName][tx] = {tx, kind}`. -/
def setTableLock (m : LockManager) (tableName : Str) (tx : Int) (kind : LockType) : LockManager :=
  { m with
    tableLevelLocks := m.tableLevelLocks.insert tableName ((m.tableHolders tableName).insert tx kind) }

/-- `transactions[tx].tableLocksOwned.push_back(tableName)`. -/
def ownTable (m : LockManager) (tx : Int) (tableName : Str) : LockManager :=
  let o := m.ownedBy tx
  { m with
    owned := m.owned.insert tx { o with tableLocksOwned := o.tableLocksOwned ++ [tableName] } }

/-- `recordLevelLocks[tableName][coffeeID][tx] = {tx, kind}`. -/
def setRecordLock (m : LockManager) (tableName : Str) (coffeeID tx : Int) (kind : LockType) :
    LockManager :=
  let records := m.recordHolders tableName
  { m with
    recordLevelLocks := m.recordLevelLocks.insert tableName
      (records.insert coffeeID (((records[coffeeID]?).getD ∅).insert tx kind)) }

/-- `transactions[tx].recordLocksOwned[tableName].push_back(coffeeID)`. -/
def ownRecord (m : LockManager) (tx : Int) (tableName : Str) (coffeeID : Int) : LockManager :=
  let o := m.ownedBy tx
  let ids := (o.recordLocksOwned[tableName]?).getD []
  { m with
    owned := m.owned.insert tx
      { o with recordLocksOwned := o.recordLocksOwned.insert tableName (ids ++ [coffeeID]) } }

/-- The other holders whose kind stands in the way, in the order of the map. -/
def dependencies (locks : Holders) (tx : Int) (blocking : LockType → Bool) : List Int :=
  (locks.toList.filter fun v => v.1 ≠ tx ∧ blocking v.2).map Prod.fst

/-- `Scheduler::tryAcquireTableLock`: the transactions in the way, none if the
lock was granted. -/
def tryAcquireTableLock (m : LockManager) (tx : Int) (tableName : Str) (desiredLock : LockType) :
    List Int × LockManager :=
  match m.tableLevelLocks[tableName]? with
  | none =>
    ([], { m with
      tableLevelLocks := m.tableLevelLocks.insert tableName (TreeMap.ofList [(tx, desiredLock)])
      recordLevelLocks := m.recordLevelLocks.insert tableName ∅ }.ownTable tx tableName)
  | some locks =>
    match desiredLock with
    | .intentReadLock =>
      if tx ∈ locks then ([], m)
      else
        let result := dependencies locks tx fun k => k = .writeLock
        if result = [] then
          (result, (m.setTableLock tableName tx .intentReadLock).ownTable tx tableName)
        else (result, m)
    | .intentWriteLock =>
      match locks[tx]? with
      | some .intentWriteLock | some .readIntentWriteLock | some .writeLock => ([], m)
      | held =>
        let result := dependencies locks tx fun k =>
          k = .readLock ∨ k = .readIntentWriteLock ∨ k = .writeLock
        if result = [] then
          match held with
          | none => (result, (m.setTableLock tableName tx .intentWriteLock).ownTable tx tableName)
          | some .intentReadLock => (result, m.setTableLock tableName tx .intentWriteLock)
          | some .readLock => (result, m.setTableLock tableName tx .readIntentWriteLock)
          | some .readIntentWriteLock | some .intentWriteLock | some .writeLock => (result, m)
        else (result, m)
    | .readLock =>
      match locks[tx]? with
      | some .readLock | some .readIntentWriteLock | some .writeLock => ([], m)
      | held =>
        let result := dependencies locks tx fun k =>
          k = .intentWriteLock ∨ k = .readIntentWriteLock ∨ k = .writeLock
        if result = [] then
          match held with
          | none => (result, (m.setTableLock tableName tx .readLock).ownTable tx tableName)
          | some .intentReadLock =>
            -- the case has no break: control falls through to the next one
            (result,
              (m.setTableLock tableName tx .readLock).setTableLock tableName tx .readIntentWriteLock)
          | some .intentWriteLock => (result, m.setTableLock tableName tx .readIntentWriteLock)
          | some .readLock | some .readIntentWriteLock | some .writeLock => (result, m)
        else (result, m)
    | .readIntentWriteLock =>
      match locks[tx]? with
      | some .readIntentWriteLock | some .writeLock => ([], m)
      | held =>
        let result := dependencies locks tx fun k => k ≠ .intentReadLock
        if result = [] then
          match held with
          | none =>
            (result, (m.setTableLock tableName tx .readIntentWriteLock).ownTable tx tableName)
          | some .writeLock => (result, m)
          | some _ => (result, m.setTableLock tableName tx .readIntentWriteLock)
        else (result, m)
    | .writeLock =>
      match locks[tx]? with
      | some .writeLock => ([], m)
      | held =>
        let result := dependencies locks tx fun _ => true
        if result = [] then
          let m := if held = none then m.ownTable tx tableName else m
          (result, m.setTableLock tableName tx .writeLock)
        else (result, m)

/-- `Scheduler::tryAcquireItemLock`. -/
def tryAcquireItemLock (m : LockManager) (tx : Int) (tableName : Str) (coffeeID : Int)
    (desiredLock : LockType) : Except Err (List Int × LockManager) :=
  match desiredLock with
  | .readLock =>
    match m.tryAcquireTableLock tx tableName .intentReadLock with
    | ([], m) =>
      match (m.recordHolders tableName)[coffeeID]? with
      | none =>
        .ok ([], (m.setRecordLock tableName coffeeID tx .readLock).ownRecord tx tableName coffeeID)
      | some recordLock =>
        if tx ∈ recordLock then .ok ([], m)
        else
          let result := dependencies recordLock tx fun k => k ≠ .readLock
          if result = [] then
            .ok (result,
              (m.setRecordLock tableName coffeeID tx .readLock).ownRecord tx tableName coffeeID)
          else .ok (result, m)
    | (result, m) => .ok (result, m)
  | .writeLock =>
    match m.tryAcquireTableLock tx tableName .intentWriteLock with
    | ([], m) =>
      match (m.recordHolders tableName)[coffeeID]? with
      | none =>
        .ok ([], (m.setRecordLock tableName coffeeID tx .writeLock).ownRecord tx tableName coffeeID)
      | some recordLock =>
        if recordLock[tx]? = some .writeLock then .ok ([], m)
        else
          let result := dependencies recordLock tx fun _ => true
          if result = [] then
            let m := if tx ∈ recordLock then m else m.ownRecord tx tableName coffeeID
            .ok (result, m.setRecordLock tableName coffeeID tx .writeLock)
          else .ok (result, m)
    | (result, m) => .ok (result, m)
  | _ => .error (.literal "Attempting to acquire intent locks on lowest data item")

/-- `tableLevelLocks[tableName].erase(tx)`. -/
def eraseTableLock (tx : Int) (m : LockManager) (tableName : Str) : LockManager :=
  { m with
    tableLevelLocks := m.tableLevelLocks.insert tableName ((m.tableHolders tableName).erase tx) }

/-- `recordLevelLocks[tableName][coffeeID].erase(tx)`. -/
def eraseRecordLock (tx : Int) (m : LockManager) (lock : Str × Int) : LockManager :=
  let records := m.recordHolders lock.1
  { m with
    recordLevelLocks := m.recordLevelLocks.insert lock.1
      (records.insert lock.2 (((records[lock.2]?).getD ∅).erase tx)) }

/-- The record locks a transaction owns, in the order they are released. -/
def LocksOwned.records (o : LocksOwned) : List (Str × Int) :=
  o.recordLocksOwned.toList.flatMap fun e => e.2.map fun c => (e.1, c)

/-- `Scheduler::releaseAllLocks`. -/
def releaseAllLocks (m : LockManager) (tx : Int) : LockManager :=
  let o := m.ownedBy tx
  let m := (LocksOwned.records o).foldl (eraseRecordLock tx) m
  let m := o.tableLocksOwned.foldl (eraseTableLock tx) m
  { m with owned := m.owned.insert tx {} }

/-! ## What the table-lock cases have in common

Every case returns at once if the transaction holds enough already, else
collects the holders in the way, and if there are none stores a kind. -/

/-- The request is granted without any change. -/
def alreadyHolds : Option LockType → LockType → Bool
  | none, _ => false
  | some _, .intentReadLock => true
  | some k, .intentWriteLock => k = .intentWriteLock ∨ k = .readIntentWriteLock ∨ k = .writeLock
  | some k, .readLock => k = .readLock ∨ k = .readIntentWriteLock ∨ k = .writeLock
  | some k, .readIntentWriteLock => k = .readIntentWriteLock ∨ k = .writeLock
  | some k, .writeLock => k = .writeLock

/-- Another holder's kind is in the way of the request. -/
def blocks (desired held : LockType) : Bool :=
  match desired with
  | .intentReadLock => held = .writeLock
  | .intentWriteLock => held = .readLock ∨ held = .readIntentWriteLock ∨ held = .writeLock
  | .readLock => held = .intentWriteLock ∨ held = .readIntentWriteLock ∨ held = .writeLock
  | .readIntentWriteLock => held ≠ .intentReadLock
  | .writeLock => true

/-- The kind a granted request ends up with. -/
def stored : Option LockType → LockType → LockType
  | none, desired => desired
  | some .readLock, .intentWriteLock => .readIntentWriteLock
  | some _, .readLock => .readIntentWriteLock
  | some _, desired => desired

/-- The state after a request is granted to a transaction that holds `held`. -/
def grantTable (m : LockManager) (tx : Int) (tableName : Str) (held : Option LockType)
    (desired : LockType) : LockManager :=
  let m := if held = none then m.ownTable tx tableName else m
  let m :=
    if held = some .intentReadLock ∧ desired = .readLock then
      m.setTableLock tableName tx .readLock
    else m
  m.setTableLock tableName tx (stored held desired)

theorem tryAcquireTableLock_some {m : LockManager} {tableName : Str} {locks : Holders}
    (h : m.tableLevelLocks[tableName]? = some locks) (tx : Int) (desired : LockType) :
    m.tryAcquireTableLock tx tableName desired =
      if alreadyHolds locks[tx]? desired then ([], m)
      else if dependencies locks tx (blocks desired) = [] then
        ([], m.grantTable tx tableName locks[tx]? desired)
      else (dependencies locks tx (blocks desired), m) := by
  have hmem : tx ∈ locks ↔ (locks[tx]?).isSome := TreeMap.mem_iff_isSome_getElem?
  unfold tryAcquireTableLock
  rw [h]
  have hintentRead : (fun k => decide (k = .writeLock)) = blocks .intentReadLock := rfl
  have hintentWrite : (fun k => decide (k = .readLock ∨ k = .readIntentWriteLock ∨
    k = .writeLock)) = blocks .intentWriteLock := rfl
  have hread : (fun k => decide (k = .intentWriteLock ∨ k = .readIntentWriteLock ∨
    k = .writeLock)) = blocks .readLock := rfl
  have hreadIntentWrite : (fun k => decide (k ≠ .intentReadLock)) = blocks .readIntentWriteLock :=
    rfl
  have hwrite : (fun _ => true) = blocks .writeLock := rfl
  -- one goal per desired kind, then per held kind
  cases desired
  all_goals
    simp only [hmem, hintentRead, hintentWrite, hread, hreadIntentWrite, hwrite]
    rcases locks[tx]? with _ | k
    · split <;> (simp_all [alreadyHolds, grantTable, stored]; try rfl)
    · cases k <;> (first | rfl | (split <;> simp_all [alreadyHolds, grantTable, stored]))

/-! ## Lookups after an update -/

section Lookup

variable (m : LockManager) (tableName tb : Str) (coffeeID c tx u : Int) (kind : LockType)

@[simp] theorem tableHolders_setTableLock :
    (m.setTableLock tableName tx kind).tableHolders tb =
      if tb = tableName then (m.tableHolders tableName).insert tx kind else m.tableHolders tb := by
  simp only [tableHolders, setTableLock, getElem?_insert_if]
  split <;> simp_all

@[simp] theorem tableLock?_setTableLock :
    (m.setTableLock tableName tx kind).tableLock? tb u =
      if tb = tableName ∧ u = tx then some kind else m.tableLock? tb u := by
  simp only [tableLock?, tableHolders_setTableLock]
  by_cases htb : tb = tableName
  · subst htb
    rw [if_pos rfl, getElem?_insert_if]
    simp
  · simp [htb]

@[simp] theorem tableLock?_ownTable : (m.ownTable tx tableName).tableLock? tb u = m.tableLock? tb u :=
  rfl

@[simp] theorem recordLock?_ownTable :
    (m.ownTable tx tableName).recordLock? tb c u = m.recordLock? tb c u := rfl

@[simp] theorem recordLock?_setRecordLock :
    (m.setRecordLock tableName coffeeID tx kind).recordLock? tb c u =
      if tb = tableName ∧ c = coffeeID ∧ u = tx then some kind else m.recordLock? tb c u := by
  simp only [recordLock?, recordHolders, setRecordLock, getElem?_insert_if]
  by_cases htb : tb = tableName
  · subst htb
    simp only [if_true, getD_some, true_and, getElem?_insert_if]
    by_cases hc : c = coffeeID
    · subst hc
      simp only [if_true, getD_some, true_and, getElem?_insert_if]
    · simp [hc]
  · simp [htb]

@[simp] theorem tableLock?_eraseTableLock :
    (eraseTableLock tx m tableName).tableLock? tb u =
      if tb = tableName ∧ u = tx then none else m.tableLock? tb u := by
  simp only [tableLock?, tableHolders, eraseTableLock, getElem?_insert_if]
  by_cases htb : tb = tableName
  · subst htb
    simp only [if_true, getD_some, true_and, getElem?_erase_if]
  · simp [htb]

@[simp] theorem recordLock?_eraseRecordLock (lock : Str × Int) :
    (eraseRecordLock tx m lock).recordLock? tb c u =
      if (tb, c) = lock ∧ u = tx then none else m.recordLock? tb c u := by
  rcases lock with ⟨tableName, coffeeID⟩
  simp only [recordLock?, recordHolders, eraseRecordLock, getElem?_insert_if, Prod.mk.injEq]
  by_cases htb : tb = tableName
  · subst htb
    simp only [if_true, getD_some, true_and, getElem?_insert_if]
    by_cases hc : c = coffeeID
    · subst hc
      simp only [if_true, getD_some, true_and, getElem?_erase_if]
    · simp [hc]
  · simp [htb]

@[simp] theorem ownedBy_setTableLock :
    (m.setTableLock tableName tx kind).ownedBy u = m.ownedBy u := rfl

@[simp] theorem ownedBy_setRecordLock :
    (m.setRecordLock tableName coffeeID tx kind).ownedBy u = m.ownedBy u := rfl

theorem ownedBy_ownTable :
    (m.ownTable tx tableName).ownedBy u =
      if u = tx then
        { m.ownedBy tx with
          tableLocksOwned := (m.ownedBy tx).tableLocksOwned ++ [tableName] }
      else m.ownedBy u := by
  simp only [ownTable, ownedBy, getElem?_insert_if]
  split <;> rfl

theorem mem_dependencies {locks : Holders} {blocking : LockType → Bool} :
    u ∈ dependencies locks tx blocking ↔ u ≠ tx ∧ ∃ k, locks[u]? = some k ∧ blocking k = true := by
  simp only [dependencies, List.mem_map, List.mem_filter, decide_eq_true_eq]
  constructor
  · rintro ⟨⟨v, k⟩, ⟨hmem, hne, hk⟩, rfl⟩
    exact ⟨hne, k, TreeMap.mem_toList_iff_getElem?_eq_some.mp hmem, hk⟩
  · rintro ⟨hne, k, hk, hb⟩
    exact ⟨(u, k), ⟨TreeMap.mem_toList_iff_getElem?_eq_some.mpr hk, hne, hb⟩, rfl⟩

end Lookup

end LockManager

end PittCs.Rcdb
