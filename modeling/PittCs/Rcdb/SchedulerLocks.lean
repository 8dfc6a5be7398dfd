import PittCs.Rcdb.LockCompatibility
import PittCs.Rcdb.SchedulerBuffers

/-!
# The locks of concluded transactions

A transaction that has concluded should hold no locks. A direct `COMMIT` or
`ABORT` and a premature abort release them. A `COMMIT` or `ABORT` that is replayed
from a buffer and `QUIT` do not, so the result below is about the runs in which
these only meet transactions without locks.
-/

namespace PittCs.Rcdb

open Std PittCs.Lib LockManager List

namespace Scheduler

/-! ## What a request for locks does -/

/-- The outcome of the request of an operation. -/
def RequestOutcome (m : LockManager) (tx : Int) : LockRequest → List Int × LockManager → Prop
  | .table tableName desired, r => TableOutcome m tx tableName desired r
  | .item tableName coffeeID desired, r => ItemOutcome m tx tableName coffeeID desired r
  | .nothing, r => r = ([], m)

theorem requestLocks_spec {m : LockManager} (hk : Known m) {tx : Int} {request : LockRequest}
    {r : List Int × LockManager} (h : requestLocks m tx request = .ok r) :
    RequestOutcome m tx request r := by
  cases request with
  | table tableName desired =>
    cases h
    exact tryAcquireTableLock_spec hk tx tableName desired
  | item tableName coffeeID desired => exact itemOutcome_of_ok hk h
  | nothing =>
    cases h
    rfl

namespace RequestOutcome

variable {m m' : LockManager} {tx u : Int} {request : LockRequest} {deps : List Int}

theorem known (h : RequestOutcome m tx request (deps, m')) (hk : Known m) : Known m' := by
  cases request with
  | table => exact TableOutcome.known hk h
  | item => exact ItemOutcome.known hk h
  | nothing =>
    cases h
    exact hk

theorem ownsAll (h : RequestOutcome m tx request (deps, m')) (hu : OwnsAll m u) :
    OwnsAll m' u := by
  cases request with
  | table => exact TableOutcome.ownsAll h hu
  | item => exact ItemOutcome.ownsAll h hu
  | nothing =>
    cases h
    exact hu

/-- The locks of the other transactions stay. -/
theorem sameLocks (h : RequestOutcome m tx request (deps, m')) (hu : u ≠ tx) :
    SameLocks m m' u := by
  cases request with
  | table => exact TableOutcome.sameLocks h hu
  | item => exact ItemOutcome.sameLocks h hu
  | nothing =>
    cases h
    exact ⟨fun _ => rfl, fun _ _ => rfl⟩

end RequestOutcome

/-! ## The invariant -/

/-- `COMMIT`, `ABORT` from a buffer and `QUIT` only meet transactions that hold
nothing. -/
structure EndsClean (c : Config) (a : Action) : Prop where
  replayed : ∀ tx rest op ops, c.stack = .retry tx :: rest →
    (c.core.info tx).operationBuffer = op :: ops → isEnd op → HoldsNothing c.core.locks tx
  quit : ∀ tx input op, a = .schedule tx input → parse input = .ok op →
    op.operationType = .quit → HoldsNothing c.core.locks tx

/-- Only active transactions hold locks, and the lists of owned locks are complete. -/
structure LocksInv (v : View) : Prop where
  known : Known v.locks
  owns : ∀ u, OwnsAll v.locks u
  active : ∀ u, ¬ (v.known u ∧ (v.info u).Active) → HoldsNothing v.locks u

namespace LocksInv

variable {v v₁ : View} {tx : Int} {i : TransactionInfo}

/-- Only the locks and the infos matter. -/
theorem congr (h : LocksInv v) (hlocks : v₁.locks = v.locks) (hinfo : v₁.info = v.info)
    (hknown : v₁.known = v.known) : LocksInv v₁ := by
  constructor
  · rw [hlocks]
    exact h.known
  · rw [hlocks]
    exact h.owns
  · rw [hlocks, hinfo, hknown]
    exact h.active

/-- A transaction may conclude once it holds nothing. -/
theorem setInfo (h : LocksInv v) (hi : i.Active ∨ HoldsNothing v.locks tx) :
    LocksInv (v.setInfo tx i) := by
  refine ⟨h.known, h.owns, ?_⟩
  intro u hu
  by_cases heq : u = tx
  · subst heq
    rw [View.info_setInfo_self] at hu
    exact hi.resolve_left fun hactive => hu ⟨.inl rfl, hactive⟩
  · rw [View.info_setInfo, if_neg heq] at hu
    exact h.active u fun hactive => hu ⟨.inr hactive.1, hactive.2⟩

/-- An active transaction asks for locks. -/
theorem request {request : LockRequest} {deps : List Int} {locks : LockManager}
    (h : LocksInv v) (hlocks : v₁.locks = locks) (hinfo : v₁.info = v.info)
    (hknown : v₁.known = v.known) (htx : v.known tx ∧ (v.info tx).Active)
    (hreq : requestLocks v.locks tx request = .ok (deps, locks)) : LocksInv v₁ := by
  have hout := requestLocks_spec h.known hreq
  constructor
  · rw [hlocks]
    exact hout.known h.known
  · rw [hlocks]
    exact fun u => hout.ownsAll (h.owns u)
  · rw [hlocks, hinfo, hknown]
    intro u hu
    have hne : u ≠ tx := fun heq => hu (heq ▸ htx)
    exact (h.active u hu).congr (hout.sameLocks hne)

theorem released (h : LocksInv v) (tx : Int) : HoldsNothing (v.locks.releaseAllLocks tx) tx :=
  releaseAllLocks_none (h.owns tx)

/-- A transaction releases its locks. -/
theorem release (h : LocksInv v) (hlocks : v₁.locks = v.locks.releaseAllLocks tx)
    (hinfo : v₁.info = v.info) (hknown : v₁.known = v.known) : LocksInv v₁ := by
  constructor
  · rw [hlocks]
    exact h.known.releaseAllLocks tx
  · rw [hlocks]
    exact fun u => (h.owns tx).releaseAllLocks (h.owns u)
  · rw [hlocks, hinfo, hknown]
    intro u hu
    by_cases heq : u = tx
    · subst heq
      exact h.released u
    · exact (h.active u hu).congr (releaseAllLocks_of_ne heq)

/-- A new transaction starts with empty lists. -/
theorem renew (h : LocksInv v) (htx : HoldsNothing v.locks tx)
    (hlocks : v₁.locks = { v.locks with owned := (v.locks.owned.insert tx {}).insert tx {} })
    (hinfo : v₁.info = v.info) (hknown : v₁.known = v.known) : LocksInv v₁ := by
  constructor
  · rw [hlocks]
    exact h.known
  · rw [hlocks]
    exact fun u => (h.owns u).renew htx
  · rw [hinfo, hknown, hlocks]
    exact h.active

/-- Aborting on a deadlock releases everything. -/
theorem deadlocked {v' : View} {op : Operation} (h : LocksInv v)
    (htx : v.known tx ∧ (v.info tx).Active) (hdead : Deadlocked v tx op v') : LocksInv v' := by
  rcases hdead with ⟨deps, locks, g, x, db, hreq, -, -, -, rfl⟩
  have hasked : LocksInv { v with locks } := h.request rfl rfl rfl htx hreq
  exact .setInfo (hasked.release rfl rfl rfl) (.inr (hasked.released tx))

end LocksInv

/-- One step keeps the invariant, if it ends no transaction that holds locks. -/
theorem LocksInv.moved {v v' : View} {stack stack' : List Frame} {a : Action}
    (h : LocksInv v) (hcalls : CallsOk v stack) (hmove : Moved v stack a v' stack')
    (hreplayed : ∀ tx rest op ops, stack = .retry tx :: rest → v.buffer tx = op :: ops →
      isEnd op → HoldsNothing v.locks tx)
    (hquit : ∀ tx input op, a = .schedule tx input → parse input = .ok op →
      op.operationType = .quit → HoldsNothing v.locks tx) : LocksInv v' := by
  cases hmove with
  | ignored | runRemaining | leave | again | skip | exhausted | spin => exact h
  | begin hnot =>
    have hnothing := h.active _ hnot
    exact .setInfo (h.renew hnothing rfl rfl rfl) (.inl (.inl rfl))
  | quitActive hparse hop =>
    exact .setInfo (h.congr rfl rfl rfl) (.inr (hquit _ _ _ rfl hparse hop))
  | quitDone hparse hop =>
    exact h.setInfo (.inr (hquit _ _ _ rfl hparse hop))
  | buffered _ _ _ hstatus => exact h.setInfo (.inl (.inr hstatus))
  | ended => exact .setInfo (h.release rfl rfl rfl) (.inr (h.released _))
  | readUnlocked _ _ _ hstatus =>
    exact .setInfo (h.congr rfl rfl rfl) (.inl (.inl hstatus))
  | granted _ _ hknown hstatus _ hgranted =>
    rcases hgranted with ⟨locks, x, db, hreq, -, rfl⟩
    exact .setInfo (h.request rfl rfl rfl ⟨hknown, .inl hstatus⟩ hreq) (.inl (.inl hstatus))
  | refused _ _ hknown hstatus _ hrefused =>
    rcases hrefused with ⟨deps, locks, g, hreq, -, -, rfl⟩
    exact .setInfo (h.request rfl rfl rfl ⟨hknown, .inl hstatus⟩ hreq) (.inl (.inr rfl))
  | deadlocked _ _ hknown hstatus _ hdead => exact h.deadlocked ⟨hknown, .inl hstatus⟩ hdead
  | unblock => exact h.setInfo (.inl (.inl rfl))
  | retryEnded hbuf hop =>
    exact .setInfo (h.congr rfl rfl rfl) (.inr (hreplayed _ _ _ _ rfl hbuf hop))
  | @retryGranted tx _ _ _ _ _ _ hgranted =>
    rcases hgranted with ⟨locks, x, db, hreq, -, rfl⟩
    have htx := hcalls.active tx (mem_cons_self ..)
    exact .setInfo (h.request rfl rfl rfl htx hreq) (.inl htx.2)
  | @retryRefused tx _ _ _ _ _ _ hrefused =>
    rcases hrefused with ⟨deps, locks, g, hreq, -, -, rfl⟩
    have htx := hcalls.active tx (mem_cons_self ..)
    exact .setInfo (h.request rfl rfl rfl htx hreq) (.inl (.inr rfl))
  | @retryDeadlocked tx _ _ _ _ _ _ _ hdead =>
    exact h.deadlocked (hcalls.active tx (mem_cons_self ..)) hdead
  | reblock => exact h.setInfo (.inl (.inr rfl))

theorem locksInv_reachable {c : Config} (h : schedulerSystem.ReachableBy EndsClean c) :
    LocksInv c.core.view := by
  have hinv : LocksInv c.core.view ∧ CallsOk c.core.view c.stack := by
    refine h.invariant (fun c => LocksInv c.core.view ∧ CallsOk c.core.view c.stack) ?_ ?_
    · rintro c ⟨disk, rfl⟩
      exact ⟨⟨known_init, fun u => (holdsNothing_init u).ownsAll, fun u _ => holdsNothing_init u⟩,
        .nil⟩
    · intro c a c' hinv hguard hnext
      have hmove := next_moved hnext
      exact ⟨hinv.1.moved hinv.2 hmove hguard.replayed hguard.quit, hinv.2.moved hmove⟩
  exact hinv.1

/-- A transaction that has committed, aborted or terminated. -/
def Concluded (i : TransactionInfo) : Prop :=
  i.transactionStatus = .committed ∨ i.transactionStatus = .aborted ∨
    i.transactionStatus = .terminated

/-- In every run in which `COMMIT` and `ABORT` from a buffer and `QUIT` only meet
transactions without locks, a concluded transaction has no entry in any map of
locks. -/
theorem holdsNothing_of_endsClean {c : Config} (h : schedulerSystem.ReachableBy EndsClean c) :
    ∀ tx ∈ c.core.transactions, Concluded (c.core.info tx) →
      (∀ tb, tx ∉ c.core.locks.tableHolders tb) ∧
        ∀ tb (coffeeID : Int) (holders : Holders),
          (c.core.locks.recordHolders tb)[coffeeID]? = some holders →
          tx ∉ holders := by
  intro tx _ hdone
  have hnot : ¬ (c.core.view.known tx ∧ (c.core.view.info tx).Active) := by
    rintro ⟨-, hactive⟩
    rcases hdone with hdone | hdone | hdone <;>
      rcases hactive with hactive | hactive <;> simp_all
  have hnothing := (locksInv_reachable h).active tx hnot
  have hempty : ∀ holders : Holders, holders[tx]? = none → tx ∉ holders := by
    intro holders hnone hmem
    have hsome := TreeMap.mem_iff_isSome_getElem?.mp hmem
    rw [hnone] at hsome
    cases hsome
  constructor
  · intro tb
    exact hempty _ (hnothing.1 tb)
  · intro tb coffeeID holders hholders
    have hnone := hnothing.2 tb coffeeID
    simp only [view_locks, recordLock?, hholders, Option.getD_some] at hnone
    exact hempty holders hnone

/-- The action is not a `QUIT`. -/
def notQuit : Action → Bool
  | .schedule _ input =>
    match parse input with
    | .ok op => op.operationType ≠ .quit
    | .error _ => true
  | _ => true

theorem holdsNothing_of_endsClean_commit :
    ∃ c, schedulerSystem.ReachableBy EndsClean c ∧ Concluded (c.core.info 0) ∧
      ∀ tb, 0 ∉ c.core.locks.tableHolders tb := by
  have hcheck : ∀ (c : Config) (a : Action), (c.noRetry && notQuit a) = true → EndsClean c a := by
    intro c a h
    rcases Bool.and_eq_true_iff.mp h with ⟨hretry, hquit⟩
    constructor
    · intro tx rest op ops hstack
      exact absurd hstack (Config.not_retry_of_noRetry hretry)
    · rintro tx input op rfl hparse hop
      simp [notQuit, hparse, hop] at hquit
  have hmeets : Config.runMeets (fun c a => c.noRetry && notQuit a)
      (fun c => 0 ∈ c.core.transactions ∧ (c.core.info 0).transactionStatus = .committed)
      [.command 0 "B 1", .command 0 "D A", .command 0 "C", .turn, .turn] .init = true := by
    decide +kernel
  rcases Config.exists_of_runMeets hcheck Config.init_reachable hmeets with ⟨c, hreach, hmem⟩
  rcases of_decide_eq_true hmem with ⟨hmem, hstatus⟩
  exact ⟨c, hreach, .inl hstatus, (holdsNothing_of_endsClean hreach 0 hmem (.inl hstatus)).1⟩

/-- Transaction 1 waits for 0, sends `COMMIT` and is taken up again. -/
def replayedCommitRun : List Action :=
  [.command 0 "B 1", .command 1 "B 1", .command 0 "U A 1 6", .command 1 "R A 1",
    .command 1 "C", .command 0 "C"] ++ List.replicate 5 .turn

/-- It keeps its lock on the table when its `COMMIT` is replayed. -/
theorem holds_replayedCommitRun :
    ∃ c, schedulerSystem.Reachable c ∧ c.stack = [] ∧ 1 ∈ c.core.transactions ∧
      Concluded (c.core.info 1) ∧ 1 ∈ c.core.locks.tableHolders (Str.ofString "A") := by
  have hmeets : Config.runMeets (fun _ _ => true) (fun c => c.stack.isEmpty ∧
      1 ∈ c.core.transactions ∧ (c.core.info 1).transactionStatus = .committed ∧
      1 ∈ c.core.locks.tableHolders (Str.ofString "A")) replayedCommitRun .init = true := by
    decide +kernel
  rcases Config.reachable_of_runMeets hmeets with ⟨c, hc, h⟩
  rcases of_decide_eq_true h with ⟨hstack, hmem, hstatus, hlock⟩
  exact ⟨c, hc, isEmpty_iff.mp hstack, hmem, .inl hstatus, hlock⟩

end Scheduler

end PittCs.Rcdb
