import Mathlib.Data.List.Infix
import PittCs.Lib.TransitionSystem
import PittCs.Rcdb.DiGraph
import PittCs.Rcdb.LockManager
import PittCs.Rcdb.Transaction

/-!
# Operations and their parser

`Operation`, `getOperation` and `parse` of the scheduler. The parser works on the
bytes of the command with `strtok`; a missing token is a null pointer, which the
source passes on to `string(...)` and `atoi`.
-/

namespace PittCs.Rcdb

open Std PittCs.Lib

/-- `opType`. -/
inductive OpType where
  | begin
  | commit
  | abort
  | quit
  | insert
  | update
  | retrieveRecord
  | retrieveEntireTable
  | retrieveCoffeeName
  | count
  | dropTable
  | invalid
deriving DecidableEq

/-- `struct Operation`. -/
structure Operation where
  operationType : OpType
  tableName : Str
  coffeeID : Int
  coffeeName : Str
  intensity : Int
  countryOfOrigin : Str
deriving DecidableEq

/-- `getOperation`. -/
def getOperation (command : UInt8) : OpType :=
  match Char.ofNat command.toNat with
  | 'B' => .begin
  | 'C' => .commit
  | 'A' => .abort
  | 'Q' => .quit
  | 'I' => .insert
  | 'U' => .update
  | 'R' => .retrieveRecord
  | 'T' => .retrieveEntireTable
  | 'M' => .retrieveCoffeeName
  | 'G' => .count
  | 'D' => .dropTable
  | _ => .invalid

/-- `strtok`: the next token and the bytes behind the delimiter that ends it. -/
def strtok (delims : List UInt8) (bytes : List UInt8) : Option (List UInt8 × List UInt8) :=
  let rest := bytes.dropWhile fun c => delims.contains c
  if rest = [] then none
  else
    let token := rest.takeWhile fun c => !delims.contains c
    some (token, rest.drop (token.length + 1))

/-- The delimiters `" "`. -/
def spaceDelim : List UInt8 := [32]

/-- The delimiters `"(),"`. -/
def listDelims : List UInt8 := [40, 41, 44]

/-- The delimiters `"( ),"`. -/
def argDelims : List UInt8 := [40, 32, 41, 44]

/-- The next token as a string. -/
def stringToken (delims : List UInt8) (bytes : List UInt8) : Except Err (Str × List UInt8) :=
  match strtok delims bytes with
  | none => .error (.undefinedBehaviour "string of a null pointer")
  | some (token, rest) => .ok (Str.ofBytes token, rest)

/-- `atoi`: white space, a sign and digits; a value outside `int` is undefined. -/
def atoi (bytes : List UInt8) : Except Err Int :=
  let s := bytes.dropWhile fun c => c = 32 ∨ (9 ≤ c ∧ c ≤ 13)
  let (negative, s) := match s with
    | 45 :: rest => (true, rest)
    | 43 :: rest => (false, rest)
    | _ => (false, s)
  let digits := s.takeWhile fun c => 48 ≤ c ∧ c ≤ 57
  let magnitude : Nat := digits.foldl (fun n c => 10 * n + (c.toNat - 48)) 0
  let value : Int := if negative then -magnitude else magnitude
  if -2147483648 ≤ value ∧ value < 2147483648 then .ok value
  else .error (.undefinedBehaviour "atoi of a value outside int")

/-- The next token as an `int`. -/
def intToken (delims : List UInt8) (bytes : List UInt8) : Except Err (Int × List UInt8) := do
  match strtok delims bytes with
  | none => throw (.undefinedBehaviour "atoi of a null pointer")
  | some (token, rest) => return (← atoi token, rest)

/-- `find("_deleted") != npos`. -/
def Str.mentionsDeleted (s : Str) : Bool :=
  (Str.ofString "_deleted").chars <:+: s.chars

/-- The table name, which most operations read first. -/
def tableToken (bytes : List UInt8) : Except Err (Str × List UInt8) := do
  let (tableName, rest) ← stringToken argDelims bytes
  if tableName.mentionsDeleted then
    throw (.runtimeError "Invalid Argument: table name may not contain _deleted")
  return (tableName, rest)

/-- A number that may not be negative. -/
def natToken (delims : List UInt8) (what : String) (bytes : List UInt8) :
    Except Err (Int × List UInt8) := do
  let (value, rest) ← intToken delims bytes
  if value < 0 then throw (.runtimeError what)
  return (value, rest)

def emptyStr : Str := Str.ofBytes []

/-- `parse`. -/
def parse (command : Str) : Except Err Operation := do
  match strtok spaceDelim command.chars with
  | none => throw (.undefinedBehaviour "dereference of a null token")
  | some (token, rest) =>
    let op : Operation := ⟨getOperation (token.headD 0), emptyStr, 0, emptyStr, 0, emptyStr⟩
    match op.operationType with
    | .insert =>
      let (tableName, rest) ← tableToken rest
      let (coffeeID, rest) ← natToken argDelims "Invalid Argument: coffee ID" rest
      let (coffeeName, rest) ← stringToken listDelims rest
      let (intensity, rest) ← natToken listDelims "Invalid Argument: intensity" rest
      let (countryOfOrigin, _) ← stringToken argDelims rest
      return { op with tableName, coffeeID, coffeeName, intensity, countryOfOrigin }
    | .update =>
      let (tableName, rest) ← tableToken rest
      let (coffeeID, rest) ← natToken argDelims "Invalid Argument: coffee ID" rest
      let (intensity, _) ← natToken argDelims "Invalid Argument: intensity" rest
      return { op with tableName, coffeeID, intensity }
    | .retrieveRecord =>
      let (tableName, rest) ← tableToken rest
      let (coffeeID, _) ← natToken argDelims "Invalid Argument: coffee ID" rest
      return { op with tableName, coffeeID }
    | .dropTable | .retrieveEntireTable =>
      let (tableName, _) ← tableToken rest
      return { op with tableName }
    | .retrieveCoffeeName =>
      let (tableName, rest) ← tableToken rest
      let (countryOfOrigin, _) ← stringToken argDelims rest
      return { op with tableName, countryOfOrigin }
    | .count =>
      let (tableName, rest) ← tableToken rest
      let (intensity, _) ← natToken argDelims "Invalid intensity" rest
      return { op with tableName, intensity }
    | _ => return op

/-- The mode of a `B` command, read again from the input. -/
def parseMode (command : Str) : Except Err Int := do
  match strtok spaceDelim command.chars with
  | none => throw (.undefinedBehaviour "strtok of an empty command")
  | some (_, rest) =>
    let (mode, _) ← intToken spaceDelim rest
    return mode

/-!
## The scheduler

`Scheduler.cpp` and `SchedulerInternal.cpp` as a machine. `tryRunningBlocked` and
`prematureAbort` call each other, and a blocked write that stays blocked is tried
again for ever, so the calls in progress are a stack of frames and `step` runs
one turn of the innermost loop. A call of `schedule` starts on an empty stack. An
exception ends the program: nothing in the source catches one.

The clock times of the statistics, the log files and the boolean that `schedule`
returns are left out. `history` is the order in which operations were executed
and transactions ended, which the source writes to its log.
-/

/-- `transactionStatus`. -/
inductive TransactionStatus where
  | running
  | blocked
  | aborted
  | committed
  | terminated
deriving DecidableEq

/-- `transactionInfo`. -/
structure TransactionInfo where
  executionMode : Int
  transaction : Transaction
  transactionStatus : TransactionStatus
  operationBuffer : List Operation

/-- `operationStat`. -/
structure OperationStat where
  operation : Operation
  complete : Bool

/-- What has happened: an operation was executed, or a transaction committed or
aborted. -/
inductive Event where
  | executed (tx : Int) (op : Operation)
  | ended (tx : Int)
deriving DecidableEq

/-- `class Scheduler`. -/
structure Scheduler where
  numCommits : Nat
  deadlockDetector : DiGraph
  db : Database
  transactions : TreeMap Int TransactionInfo
  locks : LockManager
  operationStats : TreeMap Int (List OperationStat)
  history : List Event

/-- The calls in progress, innermost first. -/
inductive Frame where
  /-- The loop of `tryRunningBlocked`, with the transactions still to visit. -/
  | pass (keys : List Int)
  /-- The `while` loop of `tryRunningBlocked` for one transaction. -/
  | retry (tx : Int)
  /-- The end of a turn of that loop in which the transaction was aborted. -/
  | reblock (tx : Int)
  /-- The end of `prematureAbort`. -/
  | removeStat (tx : Int)
  /-- The loop of `runRemaining`. -/
  | remaining

/-- The scheduler and its calls in progress. -/
structure Config where
  core : Scheduler
  stack : List Frame

namespace Scheduler

/-- `Scheduler::Scheduler`, with the tables already on disk. -/
def init (disk : Disk) : Scheduler := ⟨0, .init, ⟨⟨.init, disk⟩, ∅⟩, ∅, .init, ∅, []⟩

/-- `transactions[tx]`; a missing entry is made by the default constructor. -/
def info (s : Scheduler) (tx : Int) : TransactionInfo :=
  (s.transactions[tx]?).getD ⟨0, Transaction.init (-1), .running, []⟩

def setInfo (s : Scheduler) (tx : Int) (i : TransactionInfo) : Scheduler :=
  { s with transactions := s.transactions.insert tx i }

/-- `transactions[tx].transactionStatus = status`. -/
def setStatus (s : Scheduler) (tx : Int) (status : TransactionStatus) : Scheduler :=
  s.setInfo tx { s.info tx with transactionStatus := status }

/-- `transactions[tx].operationBuffer = ops`. -/
def setBuffer (s : Scheduler) (tx : Int) (ops : List Operation) : Scheduler :=
  s.setInfo tx { s.info tx with operationBuffer := ops }

/-- `doesTableExist`. -/
def doesTableExist (db : Database) (tableName : Str) : Bool := db.store.disk.contains tableName

/-- `operationStats[tx]`. -/
def stats (s : Scheduler) (tx : Int) : List OperationStat := (s.operationStats[tx]?).getD []

/-- `operationStats[tx].push_back({op, false, ...})`. -/
def pushStat (s : Scheduler) (tx : Int) (op : Operation) : Scheduler :=
  { s with operationStats := s.operationStats.insert tx (s.stats tx ++ [⟨op, false⟩]) }

/-- `addEndTime`. -/
def addEndTime (s : Scheduler) (tx : Int) (op : Operation) : Except Err Scheduler :=
  match (s.stats tx).findIdx? fun st => st.operation = op ∧ st.complete = false with
  | none => .error (.literal "Could not find operation in operationStats")
  | some i =>
    .ok { s with
      operationStats := s.operationStats.insert tx
        ((s.stats tx).modify i fun st => { st with complete := true }) }

/-- `removeFromOperationStat`. -/
def removeFromOperationStat (s : Scheduler) (tx : Int) : Scheduler :=
  { s with operationStats := s.operationStats.insert tx ((s.stats tx).filter (·.complete)) }

/-! ## Executing an operation -/

/-- The call on the `Transaction` object. The records a read returns are only
printed, so what stands in an uninitialised field of them does not matter. -/
def callTransaction (tx : Int) (x : Transaction) (db : Database) (op : Operation) :
    Except Err (Transaction × Database) :=
  match op.operationType with
  | .begin => do
    let x ← (Transaction.init tx).begin
    return (x, db)
  | .commit => x.commit db
  | .abort => x.abort db
  | .insert =>
    if op.coffeeID < 0 ∨ op.intensity < 0 then .ok (x, db)
    else x.insert db op.tableName op.coffeeID (op.coffeeName.take 8) op.intensity
      (op.countryOfOrigin.take 8)
  | .update => do
    let (x, db, _) ← x.update db op.tableName op.coffeeID op.intensity
    return (x, db)
  | .retrieveRecord => do
    let (db, _) ← x.retrieve db op.tableName op.coffeeID
    return (x, db)
  | .retrieveEntireTable => do
    let (db, _) ← x.retrieveAll db op.tableName
    return (x, db)
  | .retrieveCoffeeName => do
    let (db, _) ← x.retrieveByCountry db (strncpy8 emptyStr) op.tableName op.countryOfOrigin
    return (x, db)
  | .count => do
    let (db, _) ← x.countByIntensity db op.tableName op.intensity
    return (x, db)
  | .dropTable => do
    let (x, db, _) ← x.dropTable db op.tableName
    return (x, db)
  | .quit | .invalid => .ok (x, db)

/-- What an executed operation adds to the history. -/
def event (tx : Int) (op : Operation) : Event :=
  match op.operationType with
  | .commit | .abort => .ended tx
  | _ => .executed tx op

/-- What `execute` does after the call on the `Transaction` object. -/
def concludeCall (s : Scheduler) (tx : Int) (op : Operation) (x : Transaction) : Scheduler :=
  let i := s.info tx
  match op.operationType with
  | .begin =>
    { s with locks := { s.locks with owned := s.locks.owned.insert tx {} } }.setInfo tx
      { i with transaction := x, operationBuffer := [] }
  | .commit =>
    { s with
      deadlockDetector := s.deadlockDetector.removeNode tx
      numCommits := s.numCommits + 1 }.setInfo tx
        { i with transaction := x, operationBuffer := [] }
  | .abort =>
    { s with deadlockDetector := s.deadlockDetector.removeNode tx }.setInfo tx
      { i with transaction := x, operationBuffer := [] }
  | _ => s.setInfo tx { i with transaction := x }

/-- `Scheduler::execute`. -/
def execute (s : Scheduler) (tx : Int) (op : Operation) : Except Err Scheduler := do
  let (x, db) ← callTransaction tx (s.info tx).transaction s.db op
  let s := { s with db, history := s.history ++ [event tx op] }
  (s.concludeCall tx op x).addEndTime tx op

/-! ## Requesting locks -/

/-- What an operation has to lock. -/
inductive LockRequest where
  | table (tableName : Str) (desired : LockType)
  | item (tableName : Str) (coffeeID : Int) (desired : LockType)
  | nothing

/-- The locks an operation asks for in transaction mode. -/
def lockRequest (db : Database) (op : Operation) : LockRequest :=
  match op.operationType with
  | .dropTable => .table op.tableName .writeLock
  | .insert =>
    if doesTableExist db op.tableName then .item op.tableName op.coffeeID .writeLock
    else .table op.tableName .writeLock
  | .update => .item op.tableName op.coffeeID .writeLock
  | .retrieveRecord => .item op.tableName op.coffeeID .readLock
  | .retrieveEntireTable | .retrieveCoffeeName | .count => .table op.tableName .readLock
  | _ => .nothing

/-- Ask the lock manager. -/
def requestLocks (locks : LockManager) (tx : Int) :
    LockRequest → Except Err (List Int × LockManager)
  | .table tableName desired => .ok (locks.tryAcquireTableLock tx tableName desired)
  | .item tableName coffeeID desired => locks.tryAcquireItemLock tx tableName coffeeID desired
  | .nothing => .ok ([], locks)

/-- The result of asking for locks: granted, refused, or refused with a cycle in
the waits-for graph. -/
inductive Attempt where
  | granted (s : Scheduler)
  | refused (s : Scheduler)
  | deadlock (s : Scheduler)

/-- Ask for the locks of an operation and record whom it has to wait for. -/
def attempt (s : Scheduler) (tx : Int) (op : Operation) : Except Err Attempt := do
  let (dependencies, locks) ← requestLocks s.locks tx (lockRequest s.db op)
  let s := { s with locks }
  if dependencies = [] then return .granted s
  let (g, noCycle) ← DiGraph.waitForAll tx dependencies s.deadlockDetector
  let s := { s with deadlockDetector := g }
  if noCycle then return .refused s else return .deadlock s

/-- `prematureAbort` up to its call of `tryRunningBlocked`. -/
def prematureAbort (s : Scheduler) (tx : Int) : Except Err Scheduler := do
  let s := { s with
    locks := s.locks.releaseAllLocks tx
    deadlockDetector := s.deadlockDetector.removeNode tx }
  let i := s.info tx
  let (x, db) ← i.transaction.abort s.db
  let s := { s with db, history := s.history ++ [Event.ended tx] }
  return s.setInfo tx
    { i with transaction := x, operationBuffer := [], transactionStatus := .aborted }

/-- A call of `tryRunningBlocked`. -/
def tryRunningBlocked (s : Scheduler) : Frame := .pass s.transactions.keys

/-- `checkBlocked`. -/
def checkBlocked (s : Scheduler) : Bool :=
  s.transactions.toList.any fun e => e.2.transactionStatus = .blocked

/-! ## The machine -/

/-- An operation that asks for its locks at once: `scheduleTransaction`, and
`scheduleProcess` for what changes a table. -/
def scheduleLocked (s : Scheduler) (tx : Int) (op : Operation) :
    Except Err (Scheduler × List Frame) := do
  match ← s.attempt tx op with
  | .granted s => return (← s.execute tx op, [])
  | .refused s =>
    let s := s.setBuffer tx ((s.info tx).operationBuffer ++ [op])
    return (s.setStatus tx .blocked, [])
  | .deadlock s =>
    let s ← s.prematureAbort tx
    return (s, [s.tryRunningBlocked, .removeStat tx])

/-- An operation that reads. -/
def isRead (op : Operation) : Bool :=
  match op.operationType with
  | .retrieveRecord | .retrieveEntireTable | .retrieveCoffeeName | .count => true
  | _ => false

/-- `scheduleTransaction` and `scheduleProcess`: processes read without locks, and
in any other mode `schedule` runs into the next case and returns. -/
def scheduleOp (s : Scheduler) (tx : Int) (op : Operation) :
    Except Err (Scheduler × List Frame) :=
  let mode := (s.info tx).executionMode
  if mode = 1 then s.scheduleLocked tx op
  else if mode = 0 then
    if isRead op then do
      return (← s.execute tx op, [])
    else s.scheduleLocked tx op
  else .ok (s, [])

/-- The case `BEGIN` of `schedule`. -/
def scheduleBegin (s : Scheduler) (tx : Int) (input : Str) (op : Operation) :
    Except Err Scheduler := do
  if tx ∈ s.transactions ∧ ((s.info tx).transactionStatus = .running ∨
      (s.info tx).transactionStatus = .blocked) then
    throw (.runtimeError "Attempting to BEGIN an already running transaction")
  let s := s.pushStat tx op
  let mode ← parseMode input
  let s := s.setInfo tx ⟨mode, Transaction.init (-1), .running, []⟩
  let s := { s with locks := { s.locks with owned := s.locks.owned.insert tx {} } }
  let s ← s.execute tx op
  return { s with deadlockDetector := s.deadlockDetector.addNode tx }

/-- The cases `COMMIT` and `ABORT` of `schedule` for a running transaction. -/
def scheduleEnd (s : Scheduler) (tx : Int) (op : Operation) :
    Except Err (Scheduler × List Frame) := do
  let s ← s.execute tx op
  let s := { s with
    locks := s.locks.releaseAllLocks tx
    deadlockDetector := s.deadlockDetector.removeNode tx }
  let s := s.setStatus tx (if op.operationType = .commit then .committed else .aborted)
  return (s, [s.tryRunningBlocked])

/-- `Scheduler::Quit`. -/
def quit (s : Scheduler) (tx : Int) : Except Err Scheduler := do
  if tx ∉ s.transactions then
    throw (.runtimeError "Attempting to QUIT a non-existing transaction")
  let i := s.info tx
  if i.transactionStatus ≠ .aborted ∧ i.transactionStatus ≠ .committed then
    let (x, db) ← i.transaction.abort s.db
    let s := { s with db, history := s.history ++ [Event.ended tx] }
    return s.setInfo tx { i with transaction := x, transactionStatus := .terminated }
  return s.setStatus tx .terminated

/-- The cases of `schedule` after a `BEGIN`: ignored once the transaction has
concluded, buffered while it is blocked. -/
def scheduleNext (s : Scheduler) (tx : Int) (op : Operation) :
    Except Err (Scheduler × List Frame) := do
  if tx ∉ s.transactions then
    throw (.runtimeError "Attempting to execute operations without BEGIN-ing a new transaction")
  let status := (s.info tx).transactionStatus
  if status = .aborted ∨ status = .committed then return (s, [])
  let s := s.pushStat tx op
  if status = .blocked then
    return (s.setBuffer tx ((s.info tx).operationBuffer ++ [op]), [])
  if op.operationType = .commit ∨ op.operationType = .abort then s.scheduleEnd tx op
  else s.scheduleOp tx op

/-- `Scheduler::schedule`, with the calls of `tryRunningBlocked` it makes. -/
def schedule (s : Scheduler) (tx : Int) (input : Str) : Except Err (Scheduler × List Frame) := do
  if tx ∈ s.transactions ∧ (s.info tx).transactionStatus = .terminated then return (s, [])
  let s :=
    if tx ∈ s.operationStats then s
    else { s with operationStats := s.operationStats.insert tx [] }
  let op ← parse input
  match op.operationType with
  | .begin => return (← s.scheduleBegin tx input op, [])
  | .invalid => return (s, [])
  | .quit => return (← s.quit tx, [])
  | _ => s.scheduleNext tx op

/-- One turn of the `while` loop of `tryRunningBlocked`: the state and the frames
that go on. -/
def retryStep (s : Scheduler) (tx : Int) : Except Err (Scheduler × List Frame) :=
  match (s.info tx).operationBuffer with
  | [] => .ok (s, [])
  | op :: rest =>
    match op.operationType with
    | .begin => .error (.runtimeError
        "Attempting to begin transaction when the previous one hasn't completed.")
    | .commit => do
      let s ← (s.setBuffer tx rest).execute tx op
      return (s.setStatus tx .committed, [])
    | .abort => do
      let s ← (s.setBuffer tx rest).execute tx op
      return (s.setStatus tx .aborted, [])
    | .quit | .invalid => .ok (s, [.retry tx])
    | _ => do
      match ← s.attempt tx op with
      | .granted s =>
        let s ← s.execute tx op
        return (s.setBuffer tx rest, [.retry tx])
      | .refused s =>
        -- only the reads leave the loop
        return (s.setStatus tx .blocked, if isRead op then [] else [.retry tx])
      | .deadlock s =>
        let s ← s.prematureAbort tx
        return (s, [s.tryRunningBlocked, .removeStat tx, .reblock tx])

/-- One turn of the innermost frame. -/
def frameStep (s : Scheduler) : Frame → Except Err (Scheduler × List Frame)
  | .pass [] => .ok (s, [])
  | .pass (tx :: keys) =>
    if (s.info tx).transactionStatus = .blocked then
      .ok (s.setStatus tx .running, [.retry tx, .pass keys])
    else .ok (s, [.pass keys])
  | .retry tx => s.retryStep tx
  | .reblock tx => .ok (s.setStatus tx .blocked, [])
  | .removeStat tx => .ok (s.removeFromOperationStat tx, [])
  | .remaining =>
    if s.checkBlocked then .ok (s, [s.tryRunningBlocked, .remaining]) else .ok (s, [])

end Scheduler

/-- What makes the machine move. -/
inductive Action where
  /-- A call of `schedule`. -/
  | schedule (tx : Int) (input : Str)
  /-- A call of `runRemaining`. -/
  | runRemaining
  /-- A turn of the call in progress. -/
  | turn

namespace Config

def next (c : Config) : Action → Except Err Config
  | .schedule tx input =>
    match c.stack with
    | [] => do
      let (s, frames) ← c.core.schedule tx input
      return ⟨s, frames⟩
    | _ => .error (.literal "a call is in progress")
  | .runRemaining =>
    match c.stack with
    | [] => .ok ⟨c.core, [.remaining]⟩
    | _ => .error (.literal "a call is in progress")
  | .turn =>
    match c.stack with
    | [] => .error (.literal "no call is in progress")
    | f :: rest => do
      let (s, frames) ← c.core.frameStep f
      return ⟨s, frames ++ rest⟩

end Config

/-- The scheduler over any disk. -/
def schedulerSystem : TransitionSystem Config Action where
  Init c := ∃ disk, c = ⟨Scheduler.init disk, []⟩
  Next c a c' := c.next a = .ok c'

/-- The command `text` given to `schedule`. -/
def Action.command (tx : Int) (text : String) : Action := .schedule tx (Str.ofString text)

namespace Config

/-- The scheduler over an empty disk. -/
def init : Config := ⟨Scheduler.init ∅, []⟩

/-- The actions can be taken one after the other, each passes `check`, and `p`
holds afterwards. -/
def runMeets (check : Config → Action → Bool) (p : Config → Bool) : List Action → Config → Bool
  | [], c => p c
  | a :: actions, c => check c a &&
    match c.next a with
    | .ok c' => runMeets check p actions c'
    | .error _ => false

/-- A run that passes its checks is guarded by what they mean. -/
theorem exists_of_runMeets {G : Config → Action → Prop} {check : Config → Action → Bool}
    {p : Config → Bool} {actions : List Action} {c : Config}
    (hcheck : ∀ c a, check c a = true → G c a) (hc : schedulerSystem.ReachableBy G c)
    (h : runMeets check p actions c = true) :
    ∃ c', schedulerSystem.ReachableBy G c' ∧ p c' = true := by
  induction actions generalizing c with
  | nil => exact ⟨c, hc, h⟩
  | cons a actions ih =>
    unfold runMeets at h
    rcases Bool.and_eq_true_iff.mp h with ⟨ha, h⟩
    split at h
    case h_1 c₁ hnext => exact ih (.step hc (hcheck c a ha) hnext) h
    case h_2 => cases h

theorem init_reachable {G : Config → Action → Prop} : schedulerSystem.ReachableBy G init :=
  .init ⟨∅, rfl⟩

/-- A run over an empty disk. -/
theorem reachable_of_runMeets {p : Config → Bool} {actions : List Action}
    (h : runMeets (fun _ _ => true) p actions init = true) :
    ∃ c, schedulerSystem.Reachable c ∧ p c = true :=
  exists_of_runMeets (fun _ _ _ => trivial) init_reachable h

/-- No `while` loop is running. -/
def noRetry (c : Config) : Bool :=
  match c.stack with
  | .retry _ :: _ => false
  | _ => true

theorem not_retry_of_noRetry {c : Config} (h : c.noRetry = true) {tx : Int} {rest : List Frame} :
    c.stack ≠ .retry tx :: rest := by
  intro hstack
  unfold noRetry at h
  rw [hstack] at h
  cases h

end Config

end PittCs.Rcdb
