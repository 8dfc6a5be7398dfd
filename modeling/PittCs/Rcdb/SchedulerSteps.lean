import PittCs.Rcdb.Scheduler

/-!
# What a step of the scheduler does

The statistics of the scheduler decide nothing, so the results below are about a
`View` that leaves them out. `Moved` lists everything a step can do to the view
and to the calls in progress, with the guards of the source; `next_moved` shows
that it does. Every invariant is then a case analysis of `Moved`.
-/

namespace PittCs.Rcdb

open Std PittCs.Lib Function

/-- The scheduler without its statistics. -/
structure View where
  graph : DiGraph
  db : Database
  locks : LockManager
  history : List Event
  info : Int → TransactionInfo
  known : Int → Prop

namespace View

/-- The status of a transaction. -/
def status (v : View) (tx : Int) : TransactionStatus := (v.info tx).transactionStatus

/-- The `Transaction` object of a transaction. -/
def transaction (v : View) (tx : Int) : Transaction := (v.info tx).transaction

/-- The buffered operations of a transaction. -/
def buffer (v : View) (tx : Int) : List Operation := (v.info tx).operationBuffer

/-- The view with one transaction changed. -/
def setInfo (v : View) (tx : Int) (i : TransactionInfo) : View :=
  { v with info := Function.update v.info tx i, known := fun u => u = tx ∨ v.known u }

section SetInfo

variable (v : View) (tx u : Int) (i j : TransactionInfo)

theorem setInfo_setInfo : (v.setInfo tx i).setInfo tx j = v.setInfo tx j := by
  unfold setInfo
  congr 1
  · exact update_idem ..
  · funext u
    simp

theorem info_setInfo : (v.setInfo tx i).info u = if u = tx then i else v.info u :=
  update_apply ..

theorem info_setInfo_self : (v.setInfo tx i).info tx = i := update_self ..

theorem status_setInfo :
    (v.setInfo tx i).status u = if u = tx then i.transactionStatus else v.status u := by
  unfold status
  rw [info_setInfo]
  split <;> rfl

theorem buffer_setInfo :
    (v.setInfo tx i).buffer u = if u = tx then i.operationBuffer else v.buffer u := by
  unfold buffer
  rw [info_setInfo]
  split <;> rfl

theorem transaction_setInfo :
    (v.setInfo tx i).transaction u = if u = tx then i.transaction else v.transaction u := by
  unfold transaction
  rw [info_setInfo]
  split <;> rfl

theorem known_setInfo : (v.setInfo tx i).known u ↔ u = tx ∨ v.known u := Iff.rfl

@[simp] theorem setInfo_locks : (v.setInfo tx i).locks = v.locks := rfl
@[simp] theorem setInfo_history : (v.setInfo tx i).history = v.history := rfl

variable {v tx}

theorem known_setInfo_of_known (h : v.known tx) : (v.setInfo tx i).known u ↔ v.known u := by
  constructor
  · rintro (rfl | hu)
    · exact h
    · exact hu
  · exact .inr

end SetInfo

end View

namespace Scheduler

def view (s : Scheduler) : View :=
  ⟨s.deadlockDetector, s.db, s.locks, s.history, s.info, fun u => u ∈ s.transactions⟩

section ViewLemmas

variable (s : Scheduler) (tx : Int)

@[simp] theorem view_db : s.view.db = s.db := rfl
@[simp] theorem view_locks : s.view.locks = s.locks := rfl
@[simp] theorem view_graph : s.view.graph = s.deadlockDetector := rfl
@[simp] theorem view_history : s.view.history = s.history := rfl
@[simp] theorem view_info : s.view.info = s.info := rfl

theorem view_setInfo (i : TransactionInfo) : (s.setInfo tx i).view = s.view.setInfo tx i := by
  unfold view View.setInfo
  congr 1
  · funext u
    simp only [info, setInfo, getElem?_insert_if, update_apply]
    split <;> simp_all
  · funext u
    simp only [setInfo, TreeMap.mem_insert, LawfulEqOrd.compare_eq_iff_eq, @eq_comm Int tx u]

theorem view_setStatus (status : TransactionStatus) :
    (s.setStatus tx status).view =
      s.view.setInfo tx { s.info tx with transactionStatus := status } :=
  view_setInfo ..

theorem view_setBuffer (ops : List Operation) :
    (s.setBuffer tx ops).view = s.view.setInfo tx { s.info tx with operationBuffer := ops } :=
  view_setInfo ..

theorem info_setInfo_self (i : TransactionInfo) : (s.setInfo tx i).info tx = i := by
  simp [info, setInfo]

theorem info_of_view_eq {s s' : Scheduler} (h : s'.view = s.view) (tx : Int) :
    s'.info tx = s.info tx :=
  congrFun (congrArg View.info h) tx

theorem addEndTime_view {s s' : Scheduler} {tx : Int} {op : Operation}
    (h : s.addEndTime tx op = .ok s') : s'.view = s.view := by
  unfold addEndTime at h
  split at h
  · cases h
  · cases h
    rfl

end ViewLemmas

/-- Reading, writing or dropping: the operations that work on a table. -/
def isAccess (op : Operation) : Bool :=
  match op.operationType with
  | .insert | .update | .retrieveRecord | .retrieveEntireTable | .retrieveCoffeeName | .count
  | .dropTable => true
  | _ => false

/-- `COMMIT` or `ABORT`. -/
def isEnd (op : Operation) : Prop := op.operationType = .commit ∨ op.operationType = .abort

theorem not_isAccess_of_isEnd {op : Operation} (h : isEnd op) : isAccess op = false := by
  unfold isAccess
  rcases h with h | h <;> rw [h]

variable {op : Operation} {s' : Scheduler} {input : Str} {frames : List Frame}

/-- `execute` is the call, then its conclusion, then the statistics. -/
theorem execute_view {s : Scheduler} {tx : Int} (h : s.execute tx op = .ok s') :
    ∃ x db, callTransaction tx (s.info tx).transaction s.db op = .ok (x, db) ∧
      s'.view = (concludeCall { s with db, history := s.history ++ [event tx op] } tx op x).view := by
  unfold execute at h
  rcases bind_eq_ok.mp h with ⟨⟨x, db⟩, hcall, hend⟩
  exact ⟨x, db, hcall, addEndTime_view hend⟩

/-- `execute` of an operation on a table. -/
theorem execute_access {s : Scheduler} {tx : Int} (hop : isAccess op = true)
    (h : s.execute tx op = .ok s') :
    ∃ x db, callTransaction tx (s.info tx).transaction s.db op = .ok (x, db) ∧
      s'.view = { s.view with db, history := s.history ++ [Event.executed tx op] }.setInfo tx
        { s.info tx with transaction := x } := by
  rcases execute_view h with ⟨x, db, hcall, hview⟩
  refine ⟨x, db, hcall, hview.trans ?_⟩
  unfold isAccess at hop
  cases ht : op.operationType <;>
    first
    | (rw [ht] at hop; cases hop; done)
    | (simp only [concludeCall, event, ht, view_setInfo]; rfl)

/-- `execute` of `COMMIT` or `ABORT`. -/
theorem execute_end {s : Scheduler} {tx : Int} (hop : isEnd op) (h : s.execute tx op = .ok s') :
    ∃ x db, callTransaction tx (s.info tx).transaction s.db op = .ok (x, db) ∧
      s'.view = { s.view with
          db
          history := s.history ++ [Event.ended tx]
          graph := s.deadlockDetector.removeNode tx }.setInfo tx
        { s.info tx with transaction := x, operationBuffer := [] } := by
  rcases execute_view h with ⟨x, db, hcall, hview⟩
  refine ⟨x, db, hcall, hview.trans ?_⟩
  rcases hop with ht | ht
  · simp only [concludeCall, event, ht, view_setInfo]
    rfl
  · simp only [concludeCall, event, ht, view_setInfo]
    rfl

/-- The operation gets its locks and is executed; `ops` are buffered afterwards. -/
def Granted (v : View) (tx : Int) (op : Operation) (ops : List Operation) (v' : View) : Prop :=
  ∃ locks x db, requestLocks v.locks tx (lockRequest v.db op) = .ok ([], locks) ∧
    callTransaction tx (v.transaction tx) v.db op = .ok (x, db) ∧
    v' = { v with locks, db, history := v.history ++ [Event.executed tx op] }.setInfo tx
      { v.info tx with transaction := x, operationBuffer := ops }

/-- The operation has to wait, and no cycle was found. -/
def Refused (v : View) (tx : Int) (op : Operation) (v' : View) : Prop :=
  ∃ deps locks g, requestLocks v.locks tx (lockRequest v.db op) = .ok (deps, locks) ∧
    deps ≠ [] ∧ DiGraph.waitForAll tx deps v.graph = .ok (g, true) ∧
    v' = { v with locks, graph := g }

/-- The operation has to wait, a cycle was found, and the transaction is aborted. -/
def Deadlocked (v : View) (tx : Int) (op : Operation) (v' : View) : Prop :=
  ∃ deps locks g x db, requestLocks v.locks tx (lockRequest v.db op) = .ok (deps, locks) ∧
    deps ≠ [] ∧ DiGraph.waitForAll tx deps v.graph = .ok (g, false) ∧
    (v.transaction tx).abort v.db = .ok (x, db) ∧
    v' = { v with
        locks := locks.releaseAllLocks tx
        graph := g.removeNode tx
        db
        history := v.history ++ [Event.ended tx] }.setInfo tx
      { v.info tx with transaction := x, operationBuffer := [], transactionStatus := .aborted }

theorem Deadlocked.known {v v' : View} {tx : Int} (h : Deadlocked v tx op v') (u : Int) :
    v'.known u ↔ u = tx ∨ v.known u := by
  rcases h with ⟨_, _, _, _, _, _, _, _, _, rfl⟩
  exact View.known_setInfo ..

/-- The status after `COMMIT` or `ABORT`. -/
def endStatus (op : Operation) : TransactionStatus :=
  if op.operationType = .commit then .committed else .aborted

/-- Why `schedule` does nothing: the transaction has quit or concluded, the command
is none, or the transaction is running in a mode that does not exist. -/
def Ignores (v : View) (tx : Int) (input : Str) : Prop :=
  v.known tx ∧ v.status tx = .terminated ∨ ∃ op, parse input = .ok op ∧
    (op.operationType = .invalid ∨
      (isEnd op ∨ isAccess op = true) ∧ (v.status tx = .aborted ∨ v.status tx = .committed) ∨
      isAccess op = true ∧ v.known tx ∧ v.status tx = .running ∧
        (v.info tx).executionMode ≠ 1 ∧ (v.info tx).executionMode ≠ 0)

/-- Everything a step can do. -/
inductive Moved : View → List Frame → Action → View → List Frame → Prop
  /-- `schedule` ignores the command. -/
  | ignored {v tx input} (hwhy : Ignores v tx input) : Moved v [] (.schedule tx input) v []
  /-- `BEGIN`. -/
  | begin {v tx input op x mode} (hnot : ¬ (v.known tx ∧ (v.status tx = .running ∨
        v.status tx = .blocked))) (hterm : ¬ (v.known tx ∧ v.status tx = .terminated))
      (hparse : parse input = .ok op) (hop : op.operationType = .begin)
      (hmode : parseMode input = .ok mode) (hx : (Transaction.init tx).begin = .ok x) :
      Moved v [] (.schedule tx input)
        ({ v with
          graph := v.graph.addNode tx
          locks := { v.locks with owned := (v.locks.owned.insert tx {}).insert tx {} }
          history := v.history ++ [Event.executed tx op] }.setInfo tx ⟨mode, x, .running, []⟩) []
  /-- `QUIT` of a transaction that has not concluded. -/
  | quitActive {v tx input op x db} (hparse : parse input = .ok op)
      (hop : op.operationType = .quit) (hknown : v.known tx)
      (hstatus : v.status tx = .running ∨ v.status tx = .blocked)
      (hx : (v.transaction tx).abort v.db = .ok (x, db)) :
      Moved v [] (.schedule tx input)
        ({ v with db, history := v.history ++ [Event.ended tx] }.setInfo tx
          { v.info tx with transaction := x, transactionStatus := .terminated }) []
  /-- `QUIT` of a transaction that has concluded. -/
  | quitDone {v tx input op} (hparse : parse input = .ok op)
      (hop : op.operationType = .quit) (hknown : v.known tx)
      (hstatus : v.status tx = .aborted ∨ v.status tx = .committed) :
      Moved v [] (.schedule tx input)
        (v.setInfo tx { v.info tx with transactionStatus := .terminated }) []
  /-- The command of a blocked transaction. -/
  | buffered {v tx input op} (hparse : parse input = .ok op)
      (hop : isEnd op ∨ isAccess op = true) (hknown : v.known tx)
      (hstatus : v.status tx = .blocked) :
      Moved v [] (.schedule tx input)
        (v.setInfo tx { v.info tx with operationBuffer := v.buffer tx ++ [op] }) []
  /-- `COMMIT` or `ABORT` of a running transaction. -/
  | ended {v tx input op x db keys} (hparse : parse input = .ok op) (hop : isEnd op)
      (hknown : v.known tx) (hstatus : v.status tx = .running)
      (hx : callTransaction tx (v.transaction tx) v.db op = .ok (x, db))
      (hkeys : ∀ u, u ∈ keys ↔ v.known u) :
      Moved v [] (.schedule tx input)
        ({ v with
          db
          history := v.history ++ [Event.ended tx]
          locks := v.locks.releaseAllLocks tx
          graph := (v.graph.removeNode tx).removeNode tx }.setInfo tx
          { v.info tx with
            transaction := x
            operationBuffer := []
            transactionStatus := endStatus op }) [.pass keys]
  /-- A process reads. -/
  | readUnlocked {v tx input op x db} (hparse : parse input = .ok op)
      (hop : isRead op = true) (hknown : v.known tx) (hstatus : v.status tx = .running)
      (hmode : (v.info tx).executionMode = 0)
      (hx : callTransaction tx (v.transaction tx) v.db op = .ok (x, db)) :
      Moved v [] (.schedule tx input)
        ({ v with db, history := v.history ++ [Event.executed tx op] }.setInfo tx
          { v.info tx with transaction := x }) []
  /-- A command that gets its locks. -/
  | granted {v tx input op v'} (hparse : parse input = .ok op) (hop : isAccess op = true)
      (hknown : v.known tx) (hstatus : v.status tx = .running)
      (hmode : (v.info tx).executionMode = 1 ∨ (v.info tx).executionMode = 0 ∧ isRead op = false)
      (h : Granted v tx op (v.buffer tx) v') : Moved v [] (.schedule tx input) v' []
  /-- A command that blocks its transaction. -/
  | refused {v tx input op v₁} (hparse : parse input = .ok op) (hop : isAccess op = true)
      (hknown : v.known tx) (hstatus : v.status tx = .running)
      (hmode : (v.info tx).executionMode = 1 ∨ (v.info tx).executionMode = 0 ∧ isRead op = false)
      (h : Refused v tx op v₁) :
      Moved v [] (.schedule tx input)
        (v₁.setInfo tx { v.info tx with
          operationBuffer := v.buffer tx ++ [op], transactionStatus := .blocked }) []
  /-- A command that would deadlock. -/
  | deadlocked {v tx input op v' keys} (hparse : parse input = .ok op) (hop : isAccess op = true)
      (hknown : v.known tx) (hstatus : v.status tx = .running)
      (hmode : (v.info tx).executionMode = 1 ∨ (v.info tx).executionMode = 0 ∧ isRead op = false)
      (h : Deadlocked v tx op v') (hkeys : ∀ u, u ∈ keys ↔ v.known u) :
      Moved v [] (.schedule tx input) v' [.pass keys, .removeStat tx]
  /-- A call of `runRemaining`. -/
  | runRemaining {v} : Moved v [] .runRemaining v [.remaining]
  /-- A pass is over, or an operation statistic is removed. -/
  | leave {v f rest} (hf : f = .pass [] ∨ (∃ tx, f = .removeStat tx) ∨ f = .remaining) :
      Moved v (f :: rest) .turn v rest
  /-- `runRemaining` goes round again. -/
  | again {v keys rest} (hkeys : ∀ u, u ∈ keys ↔ v.known u) :
      Moved v (.remaining :: rest) .turn v (.pass keys :: .remaining :: rest)
  /-- A pass skips a transaction that is not blocked. -/
  | skip {v tx keys rest} (hstatus : v.status tx ≠ .blocked) :
      Moved v (.pass (tx :: keys) :: rest) .turn v (.pass keys :: rest)
  /-- A pass takes up a blocked transaction. -/
  | unblock {v tx keys rest} (hstatus : v.status tx = .blocked) :
      Moved v (.pass (tx :: keys) :: rest) .turn
        (v.setInfo tx { v.info tx with transactionStatus := .running })
        (.retry tx :: .pass keys :: rest)
  /-- The buffer is exhausted. -/
  | exhausted {v tx rest} (hbuf : v.buffer tx = []) :
      Moved v (.retry tx :: rest) .turn v rest
  /-- An operation that the loop does nothing about. -/
  | spin {v tx rest op ops} (hbuf : v.buffer tx = op :: ops)
      (hop : op.operationType = .quit ∨ op.operationType = .invalid) :
      Moved v (.retry tx :: rest) .turn v (.retry tx :: rest)
  /-- A buffered `COMMIT` or `ABORT`. -/
  | retryEnded {v tx rest op ops x db} (hbuf : v.buffer tx = op :: ops) (hop : isEnd op)
      (hx : callTransaction tx (v.transaction tx) v.db op = .ok (x, db)) :
      Moved v (.retry tx :: rest) .turn
        ({ v with
          db
          history := v.history ++ [Event.ended tx]
          graph := v.graph.removeNode tx }.setInfo tx
          { v.info tx with
            transaction := x
            operationBuffer := []
            transactionStatus := endStatus op }) rest
  /-- A buffered operation that gets its locks. -/
  | retryGranted {v tx rest op ops v'} (hbuf : v.buffer tx = op :: ops)
      (hop : isAccess op = true) (h : Granted v tx op ops v') :
      Moved v (.retry tx :: rest) .turn v' (.retry tx :: rest)
  /-- A buffered operation that has to wait on; only reads leave the loop. -/
  | retryRefused {v tx rest op ops v₁} (hbuf : v.buffer tx = op :: ops)
      (hop : isAccess op = true) (h : Refused v tx op v₁) :
      Moved v (.retry tx :: rest) .turn
        (v₁.setInfo tx { v.info tx with transactionStatus := .blocked })
        (if isRead op then rest else .retry tx :: rest)
  /-- A buffered operation that would deadlock. -/
  | retryDeadlocked {v tx rest op ops v' keys} (hbuf : v.buffer tx = op :: ops)
      (hop : isAccess op = true) (h : Deadlocked v tx op v')
      (hkeys : ∀ u, u ∈ keys ↔ u = tx ∨ v.known u) :
      Moved v (.retry tx :: rest) .turn v'
        (.pass keys :: .removeStat tx :: .reblock tx :: rest)
  /-- The transaction that was just aborted is marked blocked. -/
  | reblock {v tx rest} :
      Moved v (.reblock tx :: rest) .turn
        (v.setInfo tx { v.info tx with transactionStatus := .blocked }) rest

theorem Moved.of_view_eq {v v₁ v₂ : View} {stack stack' : List Frame} {a : Action}
    (h : Moved v stack a v₁ stack') (heq : v₂ = v₁) : Moved v stack a v₂ stack' :=
  heq ▸ h

/-! ## The code only makes these moves -/

/-- What `attempt` returns. -/
theorem attempt_cases {s : Scheduler} {tx : Int} {a : Attempt} (h : s.attempt tx op = .ok a) :
    ∃ deps locks, requestLocks s.locks tx (lockRequest s.db op) = .ok (deps, locks) ∧
      ((deps = [] ∧ a = .granted { s with locks }) ∨
        ∃ g noCycle, deps ≠ [] ∧
          DiGraph.waitForAll tx deps s.deadlockDetector = .ok (g, noCycle) ∧
          a = if noCycle then .refused { s with locks, deadlockDetector := g }
            else .deadlock { s with locks, deadlockDetector := g }) := by
  unfold attempt at h
  rcases bind_eq_ok.mp h with ⟨⟨deps, locks⟩, hreq, h⟩
  refine ⟨deps, locks, hreq, ?_⟩
  dsimp only at h
  by_cases hdeps : deps = []
  · rw [if_pos hdeps] at h
    cases h
    exact .inl ⟨hdeps, rfl⟩
  · rw [if_neg hdeps] at h
    rcases bind_eq_ok.mp h with ⟨⟨g, noCycle⟩, hwait, h⟩
    refine .inr ⟨g, noCycle, hdeps, hwait, ?_⟩
    cases noCycle with
    | true | false =>
      cases h
      rfl

/-- A deadlocked request is one that `attempt` finds to be so. -/
theorem attempt_of_deadlocked {s : Scheduler} {v' : View} {tx : Int}
    (h : Deadlocked s.view tx op v') : ∃ s', s.attempt tx op = .ok (.deadlock s') := by
  rcases h with ⟨deps, locks, g, _, _, hreq, hdeps, hwait, -, -⟩
  refine ⟨{ s with locks, deadlockDetector := g }, ?_⟩
  unfold attempt
  refine bind_eq_ok.mpr ⟨_, hreq, ?_⟩
  dsimp only
  rw [if_neg hdeps]
  exact bind_eq_ok.mpr ⟨_, hwait, rfl⟩

theorem prematureAbort_view {s : Scheduler} {tx : Int} (h : s.prematureAbort tx = .ok s') :
    ∃ x db, (s.info tx).transaction.abort s.db = .ok (x, db) ∧
      s'.view = { s.view with
          locks := s.locks.releaseAllLocks tx
          graph := s.deadlockDetector.removeNode tx
          db
          history := s.history ++ [Event.ended tx] }.setInfo tx
        { s.info tx with
          transaction := x, operationBuffer := [], transactionStatus := .aborted } := by
  unfold prematureAbort at h
  rcases bind_eq_ok.mp h with ⟨⟨x, db⟩, habort, h⟩
  cases h
  exact ⟨x, db, habort, view_setInfo ..⟩

theorem mem_keys (s : Scheduler) (u : Int) : u ∈ s.transactions.keys ↔ s.view.known u :=
  TreeMap.mem_keys

/-- A locked request, granted: the state after `execute`. -/
theorem granted_view {s : Scheduler} {tx : Int} {locks : LockManager} (hop : isAccess op = true)
    (hreq : requestLocks s.locks tx (lockRequest s.db op) = .ok ([], locks))
    (h : execute { s with locks } tx op = .ok s') :
    Granted s.view tx op (s.view.buffer tx) s'.view := by
  rcases execute_access hop h with ⟨x, db, hcall, hview⟩
  exact ⟨locks, x, db, hreq, hcall, hview⟩

/-- A locked request that deadlocks: the state after `prematureAbort`. -/
theorem deadlocked_view {s : Scheduler} {tx : Int} {deps : List Int} {locks : LockManager}
    {g : DiGraph} (hreq : requestLocks s.locks tx (lockRequest s.db op) = .ok (deps, locks))
    (hdeps : deps ≠ []) (hwait : DiGraph.waitForAll tx deps s.deadlockDetector = .ok (g, false))
    (h : prematureAbort { s with locks, deadlockDetector := g } tx = .ok s') :
    Deadlocked s.view tx op s'.view := by
  rcases prematureAbort_view h with ⟨x, db, habort, hview⟩
  exact ⟨deps, locks, g, x, db, hreq, hdeps, hwait, habort, hview⟩

theorem scheduleLocked_moved {s : Scheduler} {tx : Int} (hparse : parse input = .ok op)
    (hop : isAccess op = true) (hknown : s.view.known tx) (hstatus : s.view.status tx = .running)
    (hmode : (s.info tx).executionMode = 1 ∨ (s.info tx).executionMode = 0 ∧ isRead op = false)
    (h : s.scheduleLocked tx op = .ok (s', frames)) :
    Moved s.view [] (.schedule tx input) s'.view frames := by
  unfold scheduleLocked at h
  rcases bind_eq_ok.mp h with ⟨a, hatt, h⟩
  rcases attempt_cases hatt with ⟨deps, locks, hreq, ⟨rfl, rfl⟩ | ⟨g, noCycle, hdeps, hwait, rfl⟩⟩
  · rcases bind_eq_ok.mp h with ⟨s₁, hexec, h⟩
    cases h
    exact .granted hparse hop hknown hstatus hmode (granted_view hop hreq hexec)
  · cases noCycle with
    | true =>
      cases h
      have hmove := Moved.refused hparse hop hknown hstatus hmode
        ⟨deps, locks, g, hreq, hdeps, hwait, rfl⟩
      rw [view_setStatus, view_setBuffer, View.setInfo_setInfo, setBuffer, info_setInfo_self]
      exact hmove
    | false =>
      rcases bind_eq_ok.mp h with ⟨s₁, habort, h⟩
      cases h
      have hdead := deadlocked_view hreq hdeps hwait habort
      refine .deadlocked hparse hop hknown hstatus hmode hdead fun u => ?_
      rw [mem_keys, hdead.known]
      constructor
      · rintro (rfl | hu)
        · exact hknown
        · exact hu
      · exact .inr

theorem isAccess_of_isRead (h : isRead op = true) : isAccess op = true := by
  unfold isRead at h
  unfold isAccess
  split at h <;> simp_all

theorem scheduleOp_moved {s : Scheduler} {tx : Int} (hparse : parse input = .ok op)
    (hop : isAccess op = true) (hknown : s.view.known tx) (hstatus : s.view.status tx = .running)
    (h : s.scheduleOp tx op = .ok (s', frames)) :
    Moved s.view [] (.schedule tx input) s'.view frames := by
  unfold scheduleOp at h
  dsimp only at h
  split at h
  case isTrue hmode =>
    exact scheduleLocked_moved hparse hop hknown hstatus (.inl hmode) h
  case isFalse hmode1 =>
    split at h
    case isTrue hmode =>
      split at h
      case isTrue hread =>
        rcases bind_eq_ok.mp h with ⟨s₁, hexec, h⟩
        cases h
        rcases execute_access hop hexec with ⟨x, db, hcall, hview⟩
        rw [hview]
        exact .readUnlocked hparse hread hknown hstatus hmode hcall
      case isFalse hread =>
        have hread : isRead op = false := by simpa using hread
        exact scheduleLocked_moved hparse hop hknown hstatus (.inr ⟨hmode, hread⟩) h
    case isFalse hmode0 =>
      -- a mode that is neither 0 nor 1
      cases h
      exact .ignored (.inr ⟨op, hparse, .inr (.inr ⟨hop, hknown, hstatus, hmode1, hmode0⟩)⟩)

theorem scheduleEnd_moved {s : Scheduler} {tx : Int} (hparse : parse input = .ok op)
    (hop : isEnd op) (hknown : s.view.known tx) (hstatus : s.view.status tx = .running)
    (h : s.scheduleEnd tx op = .ok (s', frames)) :
    Moved s.view [] (.schedule tx input) s'.view frames := by
  unfold scheduleEnd at h
  rcases bind_eq_ok.mp h with ⟨s₁, hexec, h⟩
  cases h
  rcases execute_end hop hexec with ⟨x, db, hcall, hview⟩
  have hfinal : (setStatus { s₁ with
        locks := s₁.locks.releaseAllLocks tx
        deadlockDetector := s₁.deadlockDetector.removeNode tx } tx (endStatus op)).view =
      { s.view with
        db
        history := s.history ++ [Event.ended tx]
        locks := s.locks.releaseAllLocks tx
        graph := (s.deadlockDetector.removeNode tx).removeNode tx }.setInfo tx
        { s.info tx with
          transaction := x, operationBuffer := [], transactionStatus := endStatus op } := by
    rw [view_setStatus]
    change { s₁.view with
        locks := s₁.view.locks.releaseAllLocks tx
        graph := s₁.view.graph.removeNode tx }.setInfo tx
      { s₁.view.info tx with transactionStatus := endStatus op } = _
    rw [hview, View.info_setInfo_self]
    exact View.setInfo_setInfo { s.view with
      db
      history := s.history ++ [Event.ended tx]
      locks := s.locks.releaseAllLocks tx
      graph := (s.deadlockDetector.removeNode tx).removeNode tx } ..
  have hkeys (u : Int) : u ∈ (setStatus { s₁ with
        locks := s₁.locks.releaseAllLocks tx
        deadlockDetector := s₁.deadlockDetector.removeNode tx } tx (endStatus op)).transactions.keys ↔
      s.view.known u := by
    rw [mem_keys, hfinal]
    exact View.known_setInfo_of_known _ _ hknown
  exact (Moved.ended hparse hop hknown hstatus hcall hkeys).of_view_eq hfinal

theorem scheduleBegin_moved {s : Scheduler} {tx : Int} (hparse : parse input = .ok op)
    (hop : op.operationType = .begin) (hterm : ¬ (s.view.known tx ∧ s.view.status tx = .terminated))
    (h : s.scheduleBegin tx input op = .ok s') :
    Moved s.view [] (.schedule tx input) s'.view [] := by
  unfold scheduleBegin at h
  split at h
  · cases h
  case isFalse hnot =>
    rcases bind_eq_ok.mp h with ⟨mode, hmode, h⟩
    rcases bind_eq_ok.mp h with ⟨s₁, hexec, h⟩
    cases h
    rcases execute_view hexec with ⟨x, db, hcall, hview⟩
    simp only [callTransaction, hop] at hcall
    rcases bind_eq_ok.mp hcall with ⟨x', hbegin, hcall⟩
    cases hcall
    have hmove : Moved s.view [] (.schedule tx input) _ [] :=
      .begin hnot hterm hparse hop hmode hbegin
    refine hmove.of_view_eq ?_
    simp only [concludeCall, hop, event] at hview
    have hinfo := info_setInfo_self (s.pushStat tx op) tx ⟨mode, Transaction.init (-1), .running, []⟩
    have hset := view_setInfo (s.pushStat tx op) tx ⟨mode, Transaction.init (-1), .running, []⟩
    change { s₁.view with graph := s₁.view.graph.addNode tx } = _
    rw [hview, view_setInfo]
    change View.setInfo { ((s.pushStat tx op).setInfo tx _).view with
      graph := _, locks := _, history := _ } tx { ((s.pushStat tx op).setInfo tx _).info tx with
        transaction := x, operationBuffer := [] } = _
    rw [hinfo, hset]
    exact View.setInfo_setInfo { s.view with
      graph := s.deadlockDetector.addNode tx
      locks := { s.locks with owned := (s.locks.owned.insert tx {}).insert tx {} }
      history := s.history ++ [Event.executed tx op] } ..

theorem quit_moved {s : Scheduler} {tx : Int} (hparse : parse input = .ok op)
    (hop : op.operationType = .quit) (hterm : ¬ (s.view.known tx ∧ s.view.status tx = .terminated))
    (h : s.quit tx = .ok s') : Moved s.view [] (.schedule tx input) s'.view [] := by
  unfold quit at h
  split at h
  · cases h
  case isFalse hmem =>
    have hknown : s.view.known tx := not_not.mp hmem
    dsimp only [pure_bind] at h
    split at h
    case isTrue hactive =>
      rcases bind_eq_ok.mp h with ⟨⟨x, db⟩, habort, h⟩
      cases h
      have hstatus : s.view.status tx = .running ∨ s.view.status tx = .blocked := by
        have hterm : s.view.status tx ≠ .terminated := fun ht => hterm ⟨hknown, ht⟩
        have hactive : s.view.status tx ≠ .aborted ∧ s.view.status tx ≠ .committed := hactive
        cases hs : s.view.status tx <;> simp_all
      rw [view_setInfo]
      exact .quitActive hparse hop hknown hstatus habort
    case isFalse hdone =>
      cases h
      have hstatus : s.view.status tx = .aborted ∨ s.view.status tx = .committed := by
        have hdone : ¬ (s.view.status tx ≠ .aborted ∧ s.view.status tx ≠ .committed) := hdone
        tauto
      rw [view_setStatus]
      exact .quitDone hparse hop hknown hstatus

theorem scheduleNext_moved {s : Scheduler} {tx : Int} (hparse : parse input = .ok op)
    (hop : isEnd op ∨ isAccess op = true)
    (hterm : ¬ (s.view.known tx ∧ s.view.status tx = .terminated))
    (h : s.scheduleNext tx op = .ok (s', frames)) :
    Moved s.view [] (.schedule tx input) s'.view frames := by
  unfold scheduleNext at h
  by_cases hmem : tx ∉ s.transactions
  · rw [if_pos hmem] at h
    cases h
  rw [if_neg hmem] at h
  dsimp only [pure_bind] at h
  have hknown : s.view.known tx := not_not.mp hmem
  by_cases hdone : (s.info tx).transactionStatus = .aborted ∨
      (s.info tx).transactionStatus = .committed
  · rw [if_pos hdone] at h
    cases h
    exact .ignored (.inr ⟨op, hparse, .inr (.inl ⟨hop, hdone⟩)⟩)
  rw [if_neg hdone] at h
  by_cases hblocked : (s.info tx).transactionStatus = .blocked
  · rw [if_pos hblocked] at h
    cases h
    rw [view_setBuffer]
    exact .buffered hparse hop hknown hblocked
  rw [if_neg hblocked] at h
  have hrunning : s.view.status tx = .running := by
    have hterm : (s.info tx).transactionStatus ≠ .terminated := fun ht => hterm ⟨hknown, ht⟩
    change (s.info tx).transactionStatus = .running
    cases hs : (s.info tx).transactionStatus <;> simp_all
  by_cases hend : op.operationType = .commit ∨ op.operationType = .abort
  · rw [if_pos hend] at h
    exact scheduleEnd_moved (s := s.pushStat tx op) hparse hend hknown hrunning h
  · rw [if_neg hend] at h
    exact scheduleOp_moved (s := s.pushStat tx op) hparse (hop.resolve_left hend) hknown
      hrunning h

theorem schedule_moved {s : Scheduler} {tx : Int} (h : s.schedule tx input = .ok (s', frames)) :
    Moved s.view [] (.schedule tx input) s'.view frames := by
  unfold schedule at h
  split at h
  case isTrue hterm =>
    cases h
    exact .ignored (.inl hterm)
  case isFalse hterm =>
    -- making the entry of the statistics does not change the view
    have hview : (if tx ∈ s.operationStats then s
        else { s with operationStats := s.operationStats.insert tx [] }).view = s.view := by
      split <;> rfl
    dsimp only [pure_bind] at h
    generalize (if tx ∈ s.operationStats then s
      else { s with operationStats := s.operationStats.insert tx [] }) = s₀ at h hview
    have hterm : ¬ (s₀.view.known tx ∧ s₀.view.status tx = .terminated) := hview ▸ hterm
    rcases bind_eq_ok.mp h with ⟨op, hparse, h⟩
    rw [← hview]
    split at h
    case h_1 hop =>
      rcases bind_eq_ok.mp h with ⟨s₁, hbegin, h⟩
      cases h
      exact scheduleBegin_moved hparse hop hterm hbegin
    case h_2 hop =>
      cases h
      exact .ignored (.inr ⟨op, hparse, .inl hop⟩)
    case h_3 hop =>
      rcases bind_eq_ok.mp h with ⟨s₁, hquit, h⟩
      cases h
      exact quit_moved hparse hop hterm hquit
    case h_4 hbegin hinvalid hquit =>
      have hop : isEnd op ∨ isAccess op = true := by
        unfold isEnd isAccess
        cases ht : op.operationType <;> simp_all
      exact scheduleNext_moved hparse hop hterm h

/-- A buffered operation on a table is tried again. -/
theorem retryAccess_moved {s s' : Scheduler} {tx : Int} {op : Operation} {ops : List Operation}
    {frames rest : List Frame} (hbuf : s.view.buffer tx = op :: ops) (hop : isAccess op = true)
    (h : (do
      match ← s.attempt tx op with
      | .granted s =>
        let s ← s.execute tx op
        return (s.setBuffer tx ops, [Frame.retry tx])
      | .refused s => return (s.setStatus tx .blocked, if isRead op then [] else [.retry tx])
      | .deadlock s =>
        let s ← s.prematureAbort tx
        return (s, [s.tryRunningBlocked, .removeStat tx, .reblock tx])) = Except.ok (s', frames)) :
    Moved s.view (.retry tx :: rest) .turn s'.view (frames ++ rest) := by
  rcases bind_eq_ok.mp h with ⟨a, hatt, h⟩
  rcases attempt_cases hatt with ⟨deps, locks, hreq, ⟨rfl, rfl⟩ | ⟨g, noCycle, hdeps, hwait, rfl⟩⟩
  · rcases bind_eq_ok.mp h with ⟨s₁, hexec, h⟩
    cases h
    rcases execute_access hop hexec with ⟨x, db, hcall, hview⟩
    have hgranted : Granted s.view tx op ops (s₁.setBuffer tx ops).view := by
      refine ⟨locks, x, db, hreq, hcall, ?_⟩
      rw [view_setBuffer, ← view_info, hview, View.info_setInfo_self, View.setInfo_setInfo]
      rfl
    exact .retryGranted hbuf hop hgranted
  · cases noCycle with
    | true =>
      cases h
      have hmove : Moved s.view (.retry tx :: rest) .turn _ _ :=
        .retryRefused hbuf hop ⟨deps, locks, g, hreq, hdeps, hwait, rfl⟩
      rw [view_setStatus]
      cases hread : isRead op with
      | true | false =>
        rw [hread] at hmove
        exact hmove
    | false =>
      rcases bind_eq_ok.mp h with ⟨s₁, habort, h⟩
      cases h
      have hdead := deadlocked_view hreq hdeps hwait habort
      refine .retryDeadlocked hbuf hop hdead fun u => ?_
      rw [mem_keys, hdead.known]

/-- A buffered `COMMIT` or `ABORT` is replayed. -/
theorem retryEnd_moved {s : Scheduler} {tx : Int} {ops : List Operation} {rest : List Frame}
    (hbuf : s.view.buffer tx = op :: ops) (hop : isEnd op)
    (h : (s.setBuffer tx ops).execute tx op = .ok s') :
    Moved s.view (.retry tx :: rest) .turn (s'.setStatus tx (endStatus op)).view rest := by
  rcases execute_end hop h with ⟨x, db, hcall, hview⟩
  have hinfo : (s.setBuffer tx ops).info tx = { s.info tx with operationBuffer := ops } :=
    info_setInfo_self ..
  rw [hinfo] at hcall
  refine (Moved.retryEnded hbuf hop hcall).of_view_eq ?_
  rw [view_setStatus, ← view_info, hview, View.info_setInfo_self, View.setInfo_setInfo, hinfo,
    view_setBuffer]
  exact View.setInfo_setInfo { s.view with
    db
    history := s.history ++ [Event.ended tx]
    graph := s.deadlockDetector.removeNode tx } ..

theorem retryStep_moved {s s' : Scheduler} {tx : Int} {frames rest : List Frame}
    (h : s.retryStep tx = .ok (s', frames)) :
    Moved s.view (.retry tx :: rest) .turn s'.view (frames ++ rest) := by
  unfold retryStep at h
  cases hbuf : (s.info tx).operationBuffer with
  | nil =>
    rw [hbuf] at h
    cases h
    exact .exhausted hbuf
  | cons op ops =>
    rw [hbuf] at h
    dsimp only at h
    split at h
    case h_1 => cases h
    case h_2 hop =>
      rcases bind_eq_ok.mp h with ⟨s₁, hexec, h⟩
      cases h
      have hmove : Moved s.view (.retry tx :: rest) .turn _ _ :=
        retryEnd_moved hbuf (.inl hop) hexec
      rwa [endStatus, if_pos hop] at hmove
    case h_3 hop =>
      rcases bind_eq_ok.mp h with ⟨s₁, hexec, h⟩
      cases h
      have hmove : Moved s.view (.retry tx :: rest) .turn _ _ :=
        retryEnd_moved hbuf (.inr hop) hexec
      rwa [endStatus, if_neg (by rw [hop]; decide)] at hmove
    case h_4 hop =>
      cases h
      exact .spin hbuf (.inl hop)
    case h_5 hop =>
      cases h
      exact .spin hbuf (.inr hop)
    case h_6 =>
      have hop : isAccess op = true := by
        unfold isAccess
        cases ht : op.operationType <;> simp_all
      exact retryAccess_moved hbuf hop h

theorem frameStep_moved {s s' : Scheduler} {f : Frame} {frames rest : List Frame}
    (h : s.frameStep f = .ok (s', frames)) :
    Moved s.view (f :: rest) .turn s'.view (frames ++ rest) := by
  unfold frameStep at h
  split at h
  case h_1 =>
    cases h
    exact .leave (.inl rfl)
  case h_2 tx keys =>
    by_cases hstatus : (s.info tx).transactionStatus = .blocked
    · rw [if_pos hstatus] at h
      cases h
      rw [view_setStatus]
      exact .unblock hstatus
    · rw [if_neg hstatus] at h
      cases h
      exact .skip hstatus
  case h_3 tx => exact retryStep_moved h
  case h_4 tx =>
    cases h
    rw [view_setStatus]
    exact .reblock
  case h_5 tx =>
    cases h
    exact .leave (.inr (.inl ⟨tx, rfl⟩))
  case h_6 =>
    cases hblocked : s.checkBlocked with
    | true =>
      rw [hblocked] at h
      cases h
      exact .again (mem_keys s)
    | false =>
      rw [hblocked] at h
      cases h
      exact .leave (.inr (.inr rfl))

/-- Every step of the scheduler is one of the moves. -/
theorem next_moved {c c' : Config} {a : Action} (h : c.next a = .ok c') :
    Moved c.core.view c.stack a c'.core.view c'.stack := by
  rcases c with ⟨s, stack⟩
  cases a with
  | schedule tx input =>
    cases stack with
    | nil =>
      rcases bind_eq_ok.mp h with ⟨⟨s', frames⟩, hstep, h⟩
      cases h
      exact schedule_moved hstep
    | cons f rest => cases h
  | runRemaining =>
    cases stack with
    | nil =>
      cases h
      exact .runRemaining
    | cons f rest => cases h
  | turn =>
    cases stack with
    | nil => cases h
    | cons f rest =>
      rcases bind_eq_ok.mp h with ⟨⟨s', frames⟩, hstep, h⟩
      cases h
      exact frameStep_moved hstep

end Scheduler

end PittCs.Rcdb
