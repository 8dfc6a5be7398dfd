import PittCs.Lib.Outcome
import PittCs.Rcdb.Table

/-!
# Transactions

`Transaction.cpp`: the operations of one transaction on the tables, and the undo
log that `abort` plays back. Table objects are shared through `open_tables`.
-/

namespace PittCs.Rcdb

open Std PittCs.Lib

/-- `struct record_id`, ordered by table and id. -/
structure RecordId where
  table : Str
  coffeeID : Int
deriving DecidableEq

namespace RecordId

@[ext] theorem ext {x y : RecordId} (h1 : x.table = y.table) (h2 : x.coffeeID = y.coffeeID) :
    x = y := by
  cases x
  cases y
  simp_all

instance : Ord RecordId := ⟨compareLex (compareOn table) (compareOn coffeeID)⟩

instance : TransOrd RecordId :=
  inferInstanceAs (TransCmp (compareLex (compareOn table) (compareOn coffeeID)))

instance : LawfulEqOrd RecordId where
  compare_self := ReflOrd.compare_self (α := RecordId)
  eq_of_compare {a b} h := by
    have h' : compareLex (compareOn table) (compareOn coffeeID) a b = .eq := h
    simp only [compareLex_eq_eq, compareOn, LawfulEqOrd.compare_eq_iff_eq] at h'
    exact RecordId.ext h'.1 h'.2

end RecordId

/-- What the transactions share: the column buffer over the disk and the open
tables. -/
structure Database where
  store : Store
  openTables : TreeMap Str Table

/-- `state` of a transaction. -/
inductive TxState where
  | idle
  | running
  | aborted
  | committed
deriving DecidableEq

/-- `class Transaction`. -/
structure Transaction where
  id : Int
  state : TxState
  insertedRecords : TreeSet RecordId
  modifiedRecords : TreeMap RecordId Int
  newTables : TreeSet Str
  droppedTables : TreeSet Str

/-- `tables/{name}_deleted`, the directory of a dropped table. -/
def deletedDir (name : Str) : Str := name.append ColumnBuffer.deletedName

/-- `rename` of a directory: it fails, and its result is not looked at, if the
source is missing or the target exists and is not empty, as table directories are. -/
def Disk.rename (d : Disk) (source target : Str) : Disk :=
  match d[source]? with
  | none => d
  | some dir => if target ∈ d then d else (d.erase source).insert target dir

namespace Transaction

/-- `Transaction::Transaction`. -/
def init (id : Int) : Transaction := ⟨id, .idle, ∅, ∅, ∅, ∅⟩

/-- `Transaction::begin`. -/
def begin (x : Transaction) : Except Err Transaction := do
  if x.state ≠ .idle then throw (.runtimeError "may not start transaction")
  return { x with state := .running }

/-- `Transaction::commit`. -/
def commit (x : Transaction) (db : Database) : Except Err (Transaction × Database) := do
  if x.state ≠ .running then throw (.runtimeError "may not commit transaction")
  -- delete all tables marked for deletion
  let disk := x.droppedTables.toList.foldl (fun (d : Disk) name => d.erase (deletedDir name))
    db.store.disk
  return ({ x with state := .committed }, { db with store := { db.store with disk } })

/-- `abort`: drop a new table. -/
def dropNew (db : Database) (name : Str) : Database :=
  match db.openTables[name]? with
  | none => db
  | some t => ⟨(t.drop db.store).1, db.openTables.erase name⟩

/-- `abort`: move a dropped table back and open it. -/
def restore (db : Database) (name : Str) : Except Err Database := do
  let disk := Disk.rename db.store.disk (deletedDir name) name
  let (t, store) ← Table.open { db.store with disk } name
  return ⟨store, db.openTables.insert name t⟩

/-- `abort`: delete an inserted record and take it out of the index. -/
def undoInsert (x : Transaction) (db : Database) (r : RecordId) : Except Err Database :=
  if r.table ∈ x.newTables then .ok db
  else
    match db.openTables[r.table]? with
    | none => .error .outOfRange
    | some t => do
      let (t, store, _) ← t.deleteRecord db.store r.coffeeID
      let mem := { t.mem with coffeeIdIndex := t.mem.coffeeIdIndex.erase r.coffeeID }
      return ⟨store, db.openTables.insert r.table { t with mem }⟩

/-- `abort`: put an old intensity back. -/
def undoUpdate (x : Transaction) (db : Database) (e : RecordId × Int) : Except Err Database :=
  if e.1.table ∈ x.newTables then .ok db
  else if e.1 ∈ x.insertedRecords then .ok db
  else
    match db.openTables[e.1.table]? with
    | none => .error .outOfRange
    | some t => do
      let (t, store, _) ← t.update db.store e.1.coffeeID e.2
      return ⟨store, db.openTables.insert e.1.table t⟩

/-- `Transaction::abort`. -/
def abort (x : Transaction) (db : Database) : Except Err (Transaction × Database) := do
  if x.state ≠ .running then throw (.runtimeError "may not abort transaction")
  let db := x.newTables.toList.foldl dropNew db
  let db ← x.droppedTables.toList.foldlM restore db
  let db ← x.insertedRecords.toList.foldlM (undoInsert x) db
  let db ← x.modifiedRecords.toList.foldlM (undoUpdate x) db
  return ({ x with state := .aborted }, db)

/-- The checks that open every operation. -/
def checkTable (x : Transaction) (table : Str) : Except Err Unit := do
  if x.state ≠ .running then throw (.runtimeError "transaction has not been started yet")
  if table.length > 32 ∨ table.length ≤ 0 then
    throw (.invalidArgument "table name must be between 1 and 32 characters long")

/-- A check of one argument. -/
def check (ok : Bool) (what : String) : Except Err Unit := do
  if !ok then throw (.invalidArgument what)

/-- The open table, or the table on disk opened, or none. -/
def findTable (db : Database) (table : Str) : Except Err (Option (Table × Store)) :=
  match db.openTables[table]? with
  | some t => .ok (some (t, db.store))
  | none =>
    if table ∈ db.store.disk then do
      let ts ← Table.open db.store table
      return some ts
    else .ok none

/-- `Transaction::insert`. -/
def insert (x : Transaction) (db : Database) (table : Str) (coffeeID : Int) (coffeeName : Str)
    (intensity : Int) (countryOfOrigin : Str) : Except Err (Transaction × Database) := do
  x.checkTable table
  check (0 ≤ coffeeID) "coffeeID must be positive"
  check (coffeeName.length ≤ 8 ∧ coffeeName.length > 0)
    "coffeeName must be between 1 and 8 characters long"
  check (0 ≤ intensity) "intensity must be positive"
  check (countryOfOrigin.length ≤ 8 ∧ countryOfOrigin.length > 0)
    "countryOfOrigin must be between 1 and 8 characters long"
  let (x, t, store) ← match ← findTable db table with
    | some (t, store) => pure (x, t, store)
    | none => do
      let (t, store) ← Table.create db.store table
      pure ({ x with newTables := x.newTables.insert table }, t, store)
  let (t, store, code) ← t.insert store coffeeID coffeeName intensity countryOfOrigin
  let x :=
    if code = 0 then { x with insertedRecords := x.insertedRecords.insert ⟨table, coffeeID⟩ }
    else x
  return (x, ⟨store, db.openTables.insert table t⟩)

/-- `Transaction::update`. -/
def update (x : Transaction) (db : Database) (table : Str) (coffeeID intensity : Int) :
    Except Err (Transaction × Database × Int) := do
  x.checkTable table
  check (0 ≤ coffeeID) "coffeeID must be positive"
  check (0 ≤ intensity) "intensity must be positive"
  match ← findTable db table with
  | none => return (x, db, -1)
  | some (t, store) =>
    if (⟨table, coffeeID⟩ : RecordId) ∈ x.modifiedRecords then
      let (t, store, code) ← t.update store coffeeID intensity
      return (x, ⟨store, db.openTables.insert table t⟩, code)
    else
      let (store, found) ← t.retrieve store coffeeID
      match found with
      | none => return (x, ⟨store, db.openTables.insert table t⟩, -1)
      | some r =>
        let (t, store, code) ← t.update store coffeeID intensity
        let db : Database := ⟨store, db.openTables.insert table t⟩
        if code = 0 then
          return ({ x with
            modifiedRecords := x.modifiedRecords.insert ⟨table, coffeeID⟩ r.intensity }, db, 0)
        else return (x, db, -1)

/-- The operations that read a table: `f` on the table if there is one. -/
def reading {α : Type} (db : Database) (table : Str) (none_ : α)
    (f : Table → Store → Except Err (Store × α)) : Except Err (Database × α) := do
  match ← findTable db table with
  | none => return (db, none_)
  | some (t, store) =>
    let (store, a) ← f t store
    return (⟨store, db.openTables.insert table t⟩, a)

/-- `Transaction::retrieve`. -/
def retrieve (x : Transaction) (db : Database) (table : Str) (coffeeID : Int) :
    Except Err (Database × Option Record) := do
  x.checkTable table
  check (0 ≤ coffeeID) "coffeeID must be positive"
  reading db table none fun t s => t.retrieve s coffeeID

/-- `Transaction::retrieve_all`. -/
def retrieveAll (x : Transaction) (db : Database) (table : Str) :
    Except Err (Database × List Record) := do
  x.checkTable table
  reading db table [] fun t s => t.retrieveAll s

/-- `Transaction::retrieve_by_country`. -/
def retrieveByCountry (x : Transaction) (db : Database) (garbage : Chars8) (table : Str)
    (countryOfOrigin : Str) : Except Err (Database × List Record) := do
  x.checkTable table
  check (countryOfOrigin.length ≤ 8 ∧ countryOfOrigin.length > 0)
    "countryOfOrigin must be between 1 and 8 characters long"
  reading db table [] fun t s => t.retrieveByCountry s garbage countryOfOrigin

/-- `Transaction::count_by_intensity`. -/
def countByIntensity (x : Transaction) (db : Database) (table : Str) (val : Int) :
    Except Err (Database × Int) := do
  x.checkTable table
  check (0 ≤ val) "intensity must be positive"
  reading db table (-1) fun t s => .ok (s, t.countByIntensity val)

/-- `Transaction::drop_table`. -/
def dropTable (x : Transaction) (db : Database) (table : Str) :
    Except Err (Transaction × Database × Int) := do
  x.checkTable table
  match ← findTable db table with
  | none => return (x, db, -1)
  | some (t, store) =>
    let openTables := db.openTables.erase table
    if table ∈ x.droppedTables then
      -- table has been recreated since drop, delete again
      return (x, ⟨(t.drop store).1, openTables⟩, 0)
    if table ∈ x.newTables then
      -- table has been created in this transaction only, drop and do not save
      return (x, ⟨(t.drop store).1, openTables⟩, 0)
    -- gracefully close deleted table and mark it as deleted
    let store ← t.close store
    let disk := Disk.rename store.disk table (deletedDir table)
    return ({ x with droppedTables := x.droppedTables.insert table },
      ⟨{ store with disk }, openTables⟩, 0)

/-! ## The state of the transaction -/

section State

variable {x x' : Transaction} {db db' : Database}

theorem begin_state (h : x.begin = .ok x') : x'.state = .running := by
  unfold begin at h
  split at h
  · cases h
  · cases h
    rfl

theorem commit_state (h : x.commit db = .ok (x', db')) :
    x.state = .running ∧ x'.state = .committed := by
  unfold commit at h
  split at h
  · cases h
  case isFalse hstate =>
    cases h
    exact ⟨not_not.mp hstate, rfl⟩

theorem abort_state (h : x.abort db = .ok (x', db')) :
    x.state = .running ∧ x'.state = .aborted := by
  unfold abort at h
  split at h
  · cases h
  case isFalse hstate =>
    rcases bind_eq_ok.mp h with ⟨db₁, -, h⟩
    rcases bind_eq_ok.mp h with ⟨db₂, -, h⟩
    rcases bind_eq_ok.mp h with ⟨db₃, -, h⟩
    cases h
    exact ⟨not_not.mp hstate, rfl⟩

theorem insert_state {table coffeeName countryOfOrigin : Str} {coffeeID intensity : Int}
    (h : x.insert db table coffeeID coffeeName intensity countryOfOrigin = .ok (x', db')) :
    x'.state = x.state := by
  unfold insert at h
  rcases bind_eq_ok.mp h with ⟨_, -, h⟩
  rcases bind_eq_ok.mp h with ⟨_, -, h⟩
  rcases bind_eq_ok.mp h with ⟨_, -, h⟩
  rcases bind_eq_ok.mp h with ⟨_, -, h⟩
  rcases bind_eq_ok.mp h with ⟨_, -, h⟩
  rcases bind_eq_ok.mp h with ⟨found, -, h⟩
  cases found with
  | some ts =>
    rcases bind_eq_ok.mp h with ⟨_, hpure, h⟩
    cases hpure
    rcases bind_eq_ok.mp h with ⟨⟨t', store', code⟩, -, h⟩
    cases h
    split <;> rfl
  | none =>
    -- creating the table only adds it to the new tables
    rcases bind_eq_ok.mp h with ⟨⟨t, store⟩, -, h⟩
    rcases bind_eq_ok.mp h with ⟨_, hpure, h⟩
    cases hpure
    rcases bind_eq_ok.mp h with ⟨⟨t', store', code⟩, -, h⟩
    cases h
    split <;> rfl

theorem update_state {table : Str} {coffeeID intensity code : Int}
    (h : x.update db table coffeeID intensity = .ok (x', db', code)) : x'.state = x.state := by
  unfold update at h
  rcases bind_eq_ok.mp h with ⟨_, -, h⟩
  rcases bind_eq_ok.mp h with ⟨_, -, h⟩
  rcases bind_eq_ok.mp h with ⟨_, -, h⟩
  rcases bind_eq_ok.mp h with ⟨found, -, h⟩
  cases found with
  | none =>
    cases h
    rfl
  | some ts =>
    rcases ts with ⟨t, store⟩
    dsimp only at h
    split at h
    · rcases bind_eq_ok.mp h with ⟨_, -, h⟩
      cases h
      rfl
    · rcases bind_eq_ok.mp h with ⟨⟨_, old⟩, -, h⟩
      cases old with
      | none =>
        cases h
        rfl
      | some r =>
        rcases bind_eq_ok.mp h with ⟨_, -, h⟩
        split at h
        · cases h
          rfl
        · cases h
          rfl

theorem dropTable_state {table : Str} {code : Int}
    (h : x.dropTable db table = .ok (x', db', code)) : x'.state = x.state := by
  unfold dropTable at h
  rcases bind_eq_ok.mp h with ⟨_, -, h⟩
  rcases bind_eq_ok.mp h with ⟨found, -, h⟩
  cases found with
  | none =>
    cases h
    rfl
  | some ts =>
    rcases ts with ⟨t, store⟩
    dsimp only at h
    by_cases hdropped : table ∈ x.droppedTables
    · rw [if_pos hdropped] at h
      cases h
      rfl
    rw [if_neg hdropped] at h
    by_cases hnew : table ∈ x.newTables
    · rw [if_pos hnew] at h
      cases h
      rfl
    rw [if_neg hnew] at h
    rcases bind_eq_ok.mp h with ⟨_, -, h⟩
    cases h
    rfl

end State

end Transaction

end PittCs.Rcdb
