import PittCs.Rcdb.SchedulerBuffers

/-!
# The two statuses of a transaction

The scheduler keeps a status for every transaction and the `Transaction` object
keeps a state. They agree in every run in which no operation that is taken from a
buffer closes a cycle in the waits-for graph. When one does, `prematureAbort`
runs inside the loop of `tryRunningBlocked`, which then marks the transaction
blocked although its object has been aborted.
-/

namespace PittCs.Rcdb

open Std PittCs.Lib List

namespace TransactionInfo

/-- The two fields agree. -/
structure Agrees (i : TransactionInfo) : Prop where
  active_iff : i.Active ↔ i.transaction.state = .running
  committed : i.transactionStatus = .committed → i.transaction.state = .committed
  aborted : i.transactionStatus = .aborted → i.transaction.state = .aborted

/-- While the transaction has not concluded, the fields agree when the object runs. -/
theorem Agrees.of_active {i : TransactionInfo} (h : i.Active)
    (hstate : i.transaction.state = .running) : i.Agrees := by
  constructor
  · exact ⟨fun _ => hstate, fun _ => h⟩
  · intro hc
    rcases h with h | h <;> simp [h] at hc
  · intro ha
    rcases h with h | h <;> simp [h] at ha

/-- Once it has concluded, they agree when the object is in the state named. -/
theorem Agrees.of_concluded {i : TransactionInfo} (hactive : ¬ i.Active)
    (hstate : i.transaction.state ≠ .running)
    (hcommitted : i.transactionStatus = .committed → i.transaction.state = .committed)
    (haborted : i.transactionStatus = .aborted → i.transaction.state = .aborted) : i.Agrees :=
  ⟨⟨fun h => absurd h hactive, fun h => absurd h hstate⟩, hcommitted, haborted⟩

/-- A terminated transaction agrees with any object that has concluded. -/
theorem Agrees.of_terminated {i : TransactionInfo} (hstatus : i.transactionStatus = .terminated)
    (hstate : i.transaction.state ≠ .running) : i.Agrees := by
  refine .of_concluded ?_ hstate ?_ ?_
  · intro h
    rcases h with h | h <;> simp [hstatus] at h
  · intro h
    simp [hstatus] at h
  · intro h
    simp [hstatus] at h

/-- Whether they agree depends on nothing else. -/
theorem Agrees.congr {i j : TransactionInfo} (h : i.Agrees)
    (hstatus : j.transactionStatus = i.transactionStatus)
    (hstate : j.transaction.state = i.transaction.state) : j.Agrees := by
  rcases h with ⟨hactive, hcommitted, haborted⟩
  unfold Active at hactive
  constructor
  · unfold Active
    rw [hstatus, hstate]
    exact hactive
  · rw [hstatus, hstate]
    exact hcommitted
  · rw [hstatus, hstate]
    exact haborted

end TransactionInfo

namespace Scheduler

/-- The status of every transaction agrees with the state of its object. -/
def StatusAgrees (s : Scheduler) : Prop := ∀ tx ∈ s.transactions, (s.info tx).Agrees

/-! ## The state of the object after a call -/

theorem callTransaction_access_state {tx : Int} {x x' : Transaction} {db db' : Database}
    {op : Operation} (hop : isAccess op = true)
    (h : callTransaction tx x db op = .ok (x', db')) : x'.state = x.state := by
  unfold callTransaction at h
  unfold isAccess at hop
  cases ht : op.operationType <;> rw [ht] at h hop <;> dsimp only at h
  case insert =>
    split at h
    · cases h
      rfl
    · exact Transaction.insert_state h
  case update =>
    rcases bind_eq_ok.mp h with ⟨⟨x₁, db₁, code⟩, hcall, h⟩
    cases h
    exact Transaction.update_state hcall
  case dropTable =>
    rcases bind_eq_ok.mp h with ⟨⟨x₁, db₁, code⟩, hcall, h⟩
    cases h
    exact Transaction.dropTable_state hcall
  case retrieveRecord | retrieveEntireTable | retrieveCoffeeName | count =>
    rcases bind_eq_ok.mp h with ⟨_, -, h⟩
    cases h
    rfl
  case begin | commit | abort | quit | invalid => cases hop

/-- `COMMIT` and `ABORT` are for running objects, and leave them concluded. -/
theorem callTransaction_end_state {tx : Int} {x x' : Transaction} {db db' : Database}
    {op : Operation} (hop : isEnd op) (h : callTransaction tx x db op = .ok (x', db')) :
    x'.state ≠ .running ∧ (endStatus op = .committed → x'.state = .committed) ∧
      (endStatus op = .aborted → x'.state = .aborted) := by
  unfold callTransaction at h
  rcases hop with ht | ht
  · rw [ht] at h
    simp [endStatus, ht, (Transaction.commit_state h).2]
  · rw [ht] at h
    simp [endStatus, ht, (Transaction.abort_state h).2]

theorem endStatus_concluded (op : Operation) :
    endStatus op = .committed ∨ endStatus op = .aborted := by
  unfold endStatus
  split
  · exact .inl rfl
  · exact .inr rfl

end Scheduler

/-- The fields agree after `COMMIT` or `ABORT`. -/
theorem TransactionInfo.Agrees.endStatus {tx : Int} {x : Transaction} {db db' : Database}
    {op : Operation} {i : TransactionInfo} (hop : Scheduler.isEnd op)
    (h : Scheduler.callTransaction tx x db op = .ok (i.transaction, db'))
    (hstatus : i.transactionStatus = Scheduler.endStatus op := by rfl) : i.Agrees := by
  rcases Scheduler.callTransaction_end_state hop h with ⟨hstate, hcommitted, haborted⟩
  rw [← hstatus] at hcommitted haborted
  refine .of_concluded ?_ hstate hcommitted haborted
  intro hactive
  unfold Active at hactive
  rw [hstatus] at hactive
  rcases Scheduler.endStatus_concluded op with hend | hend <;> simp [hend] at hactive

/-- The fields agree after a premature abort. -/
theorem TransactionInfo.Agrees.aborted_state {i : TransactionInfo}
    (hstatus : i.transactionStatus = .aborted) (hstate : i.transaction.state = .aborted) :
    i.Agrees :=
  .of_concluded (by simp [Active, hstatus]) (by simp [hstate]) (by simp [hstatus])
    fun _ => hstate

namespace Scheduler

/-! ## The invariant -/

/-- No operation at the front of a buffer closes a cycle when it is tried again. -/
def NoRetryDeadlock (c : Config) (_ : Action) : Prop :=
  ∀ tx rest op ops s, c.stack = .retry tx :: rest → (c.core.info tx).operationBuffer = op :: ops →
    c.core.attempt tx op ≠ .ok (.deadlock s)

/-- The statuses agree, and no transaction is about to be marked blocked. -/
structure StatusInv (v : View) (stack : List Frame) : Prop where
  agrees : ∀ tx, v.known tx → (v.info tx).Agrees
  no_reblock : ∀ tx, .reblock tx ∉ stack

theorem agrees_setInfo {v : View} {tx : Int} {i : TransactionInfo}
    (h : ∀ u, v.known u → (v.info u).Agrees) (hi : i.Agrees) :
    ∀ u, (v.setInfo tx i).known u → ((v.setInfo tx i).info u).Agrees := by
  intro u hu
  rw [View.info_setInfo]
  split
  · exact hi
  case isFalse hne => exact h u (hu.resolve_left hne)

/-- One step keeps the invariant, if it is not a deadlock found in a retry. -/
theorem StatusInv.moved {v v' : View} {stack stack' : List Frame} {a : Action}
    (h : StatusInv v stack) (hcalls : CallsOk v stack) (hmove : Moved v stack a v' stack')
    (hguard : ∀ tx rest op ops v', stack = .retry tx :: rest → v.buffer tx = op :: ops →
      ¬ Deadlocked v tx op v') : StatusInv v' stack' := by
  rcases h with ⟨hagrees, hreblock⟩
  have htail : ∀ tx, .reblock tx ∉ stack.tail := fun tx htx =>
    hreblock tx (mem_of_mem_tail htx)
  cases hmove with
  | ignored | spin => exact ⟨hagrees, hreblock⟩
  | begin _ _ _ _ _ hx =>
    refine ⟨agrees_setInfo hagrees ?_, hreblock⟩
    exact .of_active (.inl rfl) (Transaction.begin_state hx)
  | quitActive _ _ _ _ hx =>
    refine ⟨agrees_setInfo hagrees (.of_terminated rfl ?_), hreblock⟩
    simp [(Transaction.abort_state hx).2]
  | quitDone _ _ hknown hstatus =>
    refine ⟨agrees_setInfo hagrees (.of_terminated rfl ?_), hreblock⟩
    rcases hstatus with hstatus | hstatus
    · simp [(hagrees _ hknown).aborted hstatus]
    · simp [(hagrees _ hknown).committed hstatus]
  | buffered _ _ hknown _ =>
    exact ⟨agrees_setInfo hagrees ((hagrees _ hknown).congr rfl rfl), hreblock⟩
  | ended _ hop _ _ hx _ =>
    exact ⟨agrees_setInfo hagrees (.endStatus hop hx), by simp⟩
  | readUnlocked _ hop hknown _ _ hx =>
    have hstate := callTransaction_access_state (isAccess_of_isRead hop) hx
    exact ⟨agrees_setInfo hagrees ((hagrees _ hknown).congr rfl hstate), hreblock⟩
  | granted _ hop hknown _ _ hgranted =>
    rcases hgranted with ⟨locks, x, db, -, hx, rfl⟩
    have hstate := callTransaction_access_state hop hx
    exact ⟨agrees_setInfo hagrees ((hagrees _ hknown).congr rfl hstate), hreblock⟩
  | refused _ _ hknown hstatus _ hrefused =>
    rcases hrefused with ⟨deps, locks, g, -, -, -, rfl⟩
    refine ⟨agrees_setInfo hagrees (.of_active (.inr rfl) ?_), hreblock⟩
    exact (hagrees _ hknown).active_iff.mp (.inl hstatus)
  | deadlocked _ _ _ _ _ hdead hkeys =>
    rcases hdead with ⟨_, _, _, x, db, -, -, -, hx, rfl⟩
    exact ⟨agrees_setInfo hagrees (.aborted_state rfl (Transaction.abort_state hx).2), by simp⟩
  | runRemaining => exact ⟨hagrees, by simp⟩
  | leave | exhausted => exact ⟨hagrees, htail⟩
  | again | skip => exact ⟨hagrees, by simpa using hreblock⟩
  | @unblock tx keys rest hstatus =>
    have hknown : v.known tx :=
      hcalls.keys _ (mem_cons_self ..) tx (mem_cons_self ..)
    have hstate := (hagrees tx hknown).active_iff.mp (.inr hstatus)
    exact ⟨agrees_setInfo hagrees (.of_active (.inl rfl) hstate), by simpa using hreblock⟩
  | retryEnded _ hop hx => exact ⟨agrees_setInfo hagrees (.endStatus hop hx), htail⟩
  | @retryGranted tx _ _ _ _ _ hop hgranted =>
    rcases hgranted with ⟨locks, x, db, -, hx, rfl⟩
    have hknown := (hcalls.active tx (mem_cons_self ..)).1
    have hstate := callTransaction_access_state hop hx
    exact ⟨agrees_setInfo hagrees ((hagrees _ hknown).congr rfl hstate), hreblock⟩
  | @retryRefused tx rest op _ _ _ _ hrefused =>
    rcases hrefused with ⟨deps, locks, g, -, -, -, rfl⟩
    rcases hcalls.active tx (mem_cons_self ..) with ⟨hknown, hactive⟩
    have hstate := (hagrees tx hknown).active_iff.mp hactive
    refine ⟨agrees_setInfo hagrees (.of_active (.inr rfl) hstate), ?_⟩
    split
    · exact htail
    · exact hreblock
  | retryDeadlocked hbuf _ hdead => exact absurd hdead (hguard _ _ _ _ _ rfl hbuf)
  | reblock => exact absurd (mem_cons_self ..) (hreblock _)

/-- In every run without such deadlocks the statuses agree. -/
theorem statusInv_reachable {c : Config} (h : schedulerSystem.ReachableBy NoRetryDeadlock c) :
    StatusInv c.core.view c.stack := by
  have hinv : StatusInv c.core.view c.stack ∧ CallsOk c.core.view c.stack := by
    refine h.invariant (fun c => StatusInv c.core.view c.stack ∧ CallsOk c.core.view c.stack) ?_ ?_
    · rintro c ⟨disk, rfl⟩
      refine ⟨⟨?_, by simp⟩, .nil⟩
      intro tx hknown
      exact absurd hknown TreeMap.not_mem_emptyc
    · intro c a c' hinv hguard hnext
      refine ⟨hinv.1.moved hinv.2 (next_moved hnext) ?_, hinv.2.moved (next_moved hnext)⟩
      intro tx rest op ops v' hstack hbuf hdead
      rcases attempt_of_deadlocked hdead with ⟨s, hs⟩
      exact hguard tx rest op ops s hstack hbuf hs
  exact hinv.1

/-- A concluded transaction that sends `COMMIT` or `ABORT` is ignored. -/
theorem schedule_end_of_concluded {s : Scheduler} {tx : Int} {input : Str} {op : Operation}
    (hmem : tx ∈ s.transactions) (hagrees : (s.info tx).Agrees)
    (hstate : (s.info tx).transaction.state ≠ .running) (hparse : parse input = .ok op)
    (hop : isEnd op) : ∃ s', s.schedule tx input = .ok (s', []) ∧ s'.view = s.view := by
  unfold schedule
  by_cases hterm : (s.info tx).transactionStatus = .terminated
  · rw [if_pos ⟨hmem, hterm⟩]
    exact ⟨s, rfl, rfl⟩
  rw [if_neg fun h => hterm h.2]
  have hdone : (s.info tx).transactionStatus = .aborted ∨
      (s.info tx).transactionStatus = .committed := by
    have hactive : ¬ (s.info tx).Active := fun h => hstate (hagrees.active_iff.mp h)
    unfold TransactionInfo.Active at hactive
    cases hs : (s.info tx).transactionStatus <;> simp_all
  have hview : (if tx ∈ s.operationStats then s
      else { s with operationStats := s.operationStats.insert tx [] }).view = s.view := by
    split <;> rfl
  dsimp only [pure_bind]
  generalize (if tx ∈ s.operationStats then s
    else { s with operationStats := s.operationStats.insert tx [] }) = s₀ at hview
  have hmem₀ : ¬ tx ∉ s₀.transactions := by
    have hknown : s₀.view.known tx := by
      rw [hview]
      exact hmem
    exact not_not.mpr hknown
  have hnext : s₀.scheduleNext tx op = .ok (s₀, []) := by
    unfold scheduleNext
    rw [if_neg hmem₀]
    dsimp only [pure_bind]
    rw [info_of_view_eq hview, if_pos hdone]
    rfl
  refine ⟨s₀, bind_eq_ok.mpr ⟨op, hparse, ?_⟩, hview⟩
  rcases hop with ht | ht
  · rw [ht]
    exact hnext
  · rw [ht]
    exact hnext

/-- In every run in which no buffered operation closes a cycle when it is tried
again, the two statuses agree, `COMMIT` and `ABORT` of a transaction whose object
has concluded return and change nothing, and the loop of `tryRunningBlocked` only
replays the operations of running objects. -/
theorem statusAgrees_of_noRetryDeadlock {c : Config}
    (h : schedulerSystem.ReachableBy NoRetryDeadlock c) :
    c.core.StatusAgrees ∧
      (∀ tx ∈ c.core.transactions, (c.core.info tx).transaction.state ≠ .running →
        ∀ input op, parse input = .ok op → isEnd op →
          ∃ s', c.core.schedule tx input = .ok (s', []) ∧ s'.view = c.core.view) ∧
      ∀ tx, .retry tx ∈ c.stack → (c.core.info tx).transaction.state = .running := by
  have hinv := statusInv_reachable h
  refine ⟨?_, ?_, ?_⟩
  · intro tx hmem
    exact hinv.agrees tx hmem
  · intro tx hmem hstate input op hparse hop
    exact schedule_end_of_concluded hmem (hinv.agrees tx hmem) hstate hparse hop
  · intro tx htx
    rcases (callsOk_reachable h).active tx htx with ⟨hknown, hactive⟩
    exact (hinv.agrees tx hknown).active_iff.mp hactive

/-- The operation that the innermost loop is about to try again closes no cycle. -/
def retriesWithoutCycle (c : Config) : Bool :=
  match c.stack with
  | .retry tx :: _ =>
    match (c.core.info tx).operationBuffer with
    | op :: _ =>
      match c.core.attempt tx op with
      | .ok (.deadlock _) => false
      | _ => true
    | [] => true
  | _ => true

theorem noRetryDeadlock_of_retriesWithoutCycle {c : Config} (h : retriesWithoutCycle c = true)
    (a : Action) : NoRetryDeadlock c a := by
  intro tx rest op ops s hstack hbuf hattempt
  unfold retriesWithoutCycle at h
  rw [hstack] at h
  dsimp only at h
  rw [hbuf] at h
  dsimp only at h
  rw [hattempt] at h
  cases h

/-- The update of 1 waits for 0, and is replayed with the commit after it once 0 has
committed. -/
def replayedUpdateRun : List Action :=
  [.command 0 "B 1", .command 1 "B 1", .command 0 "U A 1 6", .command 1 "U A 1 7",
    .command 1 "C", .command 0 "C"] ++ List.replicate 5 .turn

theorem statusAgrees_of_noRetryDeadlock_replayedUpdateRun :
    ∃ c, schedulerSystem.ReachableBy NoRetryDeadlock c ∧ c.stack = [] ∧
      (c.core.info 0).transactionStatus = .committed ∧
      (c.core.info 0).transaction.state = .committed ∧
      (c.core.info 1).transactionStatus = .committed ∧
      (c.core.info 1).transaction.state = .committed := by
  have hcheck : ∀ (c : Config) (a : Action), retriesWithoutCycle c = true → NoRetryDeadlock c a :=
    fun c a hc => noRetryDeadlock_of_retriesWithoutCycle hc a
  have hmeets : Config.runMeets (fun c _ => retriesWithoutCycle c)
      (fun c => c.stack.isEmpty ∧ 0 ∈ c.core.transactions ∧ 1 ∈ c.core.transactions ∧
        (c.core.info 0).transactionStatus = .committed ∧
        (c.core.info 1).transactionStatus = .committed)
      replayedUpdateRun .init = true := by
    decide +kernel
  rcases Config.exists_of_runMeets hcheck Config.init_reachable hmeets with ⟨c, hreach, h⟩
  rcases of_decide_eq_true h with ⟨hstack, hmem₀, hmem₁, hstatus₀, hstatus₁⟩
  have hagrees := (statusAgrees_of_noRetryDeadlock hreach).1
  exact ⟨c, hreach, isEmpty_iff.mp hstack, hstatus₀, (hagrees 0 hmem₀).committed hstatus₀,
    hstatus₁, (hagrees 1 hmem₁).committed hstatus₁⟩

/-- Transaction 1 closes a cycle while it is taken up again. -/
def retryDeadlockRun : List Action :=
  [.command 0 "B 1", .command 1 "B 1", .command 2 "B 1", .command 2 "U A 1 6",
    .command 1 "U A 2 6", .command 0 "U A 1 7", .command 0 "R A 2", .command 1 "U A 1 8",
    .command 2 "C"] ++ List.replicate 15 .turn

/-- It is then marked blocked although its object has been aborted. -/
theorem not_statusAgrees_retryDeadlockRun :
    ∃ c, schedulerSystem.Reachable c ∧ c.stack = [] ∧ ¬ c.core.StatusAgrees := by
  have hmeets : Config.runMeets (fun _ _ => true) (fun c => c.stack.isEmpty ∧
      1 ∈ c.core.transactions ∧ (c.core.info 1).transactionStatus = .blocked ∧
      (c.core.info 1).transaction.state = .aborted) retryDeadlockRun .init = true := by
    decide +kernel
  rcases Config.reachable_of_runMeets hmeets with ⟨c, hc, h⟩
  rcases of_decide_eq_true h with ⟨hstack, hmem, hstatus, hstate⟩
  refine ⟨c, hc, isEmpty_iff.mp hstack, ?_⟩
  intro hagrees
  have hrunning := (hagrees 1 hmem).active_iff.mp (.inr hstatus)
  simp [hstate] at hrunning

end Scheduler

end PittCs.Rcdb
