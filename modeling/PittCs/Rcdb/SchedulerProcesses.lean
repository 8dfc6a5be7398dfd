import PittCs.Rcdb.SchedulerLocks

/-!
# Processes

A transaction that began in mode 0 is a process: it reads without locks. The
rule is in `scheduleProcess` only. The operations that a process sends while it
is blocked are tried again by `tryRunningBlocked`, which does not look at the
mode and asks for read locks, so the result is about the runs in which such a
read needs no lock that the process does not hold.
-/

namespace PittCs.Rcdb

open Std PittCs.Lib LockManager List

namespace LockManager

/-- The kinds of lock that are only taken to read. -/
def isReadKind (k : LockType) : Bool := k = .readLock ∨ k = .intentReadLock

/-- The transaction holds no `READ_LOCK` and no `INTENT_READ_LOCK`. -/
def NoReadLocks (m : LockManager) (tx : Int) : Prop :=
  (∀ tb k, m.tableLock? tb tx = some k → isReadKind k = false) ∧
    ∀ tb c k, m.recordLock? tb c tx = some k → isReadKind k = false

theorem NoReadLocks.congr {m m' : LockManager} {u : Int} (h : NoReadLocks m u)
    (hsame : SameLocks m m' u) : NoReadLocks m' u := by
  constructor
  · intro tb k hk
    rw [hsame.1] at hk
    exact h.1 tb k hk
  · intro tb c k hk
    rw [hsame.2] at hk
    exact h.2 tb c k hk

theorem NoReadLocks.releaseAllLocks {m : LockManager} {u : Int} (h : NoReadLocks m u) (tx : Int) :
    NoReadLocks (m.releaseAllLocks tx) u :=
  ⟨fun tb k hk => h.1 tb k (releaseAllLocks_table_some hk),
    fun tb c k hk => h.2 tb c k (releaseAllLocks_record_some hk)⟩

/-- A request for one of the kinds that write is not answered with a lock to read. -/
theorem isReadKind_stored (held : Option LockType) {desired : LockType}
    (hd : desired = .writeLock ∨ desired = .intentWriteLock) :
    isReadKind (stored held desired) = false := by
  rcases hd with rfl | rfl
  · rcases held with _ | k
    · rfl
    · cases k <;> rfl
  · rcases held with _ | k
    · rfl
    · cases k <;> rfl

theorem NoReadLocks.tableOutcome {m m' : LockManager} {tx : Int} {tb : Str} {desired : LockType}
    {result : List Int} (h : NoReadLocks m tx)
    (hout : TableOutcome m tx tb desired (result, m'))
    (hd : desired = .writeLock ∨ desired = .intentWriteLock) : NoReadLocks m' tx := by
  cases hout with
  | kept _ | refused _ _ _ => exact h
  | granted _ _ hset =>
    constructor
    · intro tb' k hk
      rw [hset.table] at hk
      split at hk
      · cases hk
        exact isReadKind_stored _ hd
      · exact h.1 tb' k hk
    · intro tb' c k hk
      rw [hset.record] at hk
      exact h.2 tb' c k hk

theorem NoReadLocks.itemOutcome {m m' : LockManager} {tx : Int} {tb : Str} {c : Int}
    {result : List Int} (h : NoReadLocks m tx)
    (hout : ItemOutcome m tx tb c .writeLock (result, m')) : NoReadLocks m' tx := by
  cases hout with
  | refusedTable _ _ => exact h
  | kept htable _ | refused _ htable _ _ => exact h.tableOutcome htable (.inr rfl)
  | granted htable _ _ hset =>
    have htab := h.tableOutcome htable (.inr rfl)
    constructor
    · intro tb' k hk
      rw [hset.table] at hk
      exact htab.1 tb' k hk
    · intro tb' c' k hk
      rw [hset.record] at hk
      split at hk
      · cases hk
        rfl
      · exact htab.2 tb' c' k hk

end LockManager

namespace Scheduler

/-- The operation is sent to `schedule`, or taken from the buffer of a transaction
that is tried again. -/
def Tries (v : View) (stack : List Frame) (a : Action) (tx : Int) (op : Operation) : Prop :=
  (∃ input, a = .schedule tx input ∧ parse input = .ok op) ∨
    ∃ rest ops, a = .turn ∧ stack = .retry tx :: rest ∧ v.buffer tx = op :: ops

/-- A read that a process has buffered needs no lock that it does not hold, and a
process does not begin under an id that still holds read locks. -/
structure ReadsUnlocked (v : View) (stack : List Frame) (a : Action) : Prop where
  buffered : ∀ tx rest op ops, stack = .retry tx :: rest → v.buffer tx = op :: ops →
    isRead op = true → (v.info tx).executionMode = 0 →
      requestLocks v.locks tx (lockRequest v.db op) = .ok ([], v.locks)
  begins : ∀ tx input op, a = .schedule tx input → parse input = .ok op →
    op.operationType = .begin → parseMode input = .ok 0 → NoReadLocks v.locks tx

/-- Processes hold no read locks. -/
structure ProcessInv (v : View) : Prop where
  locks : Known v.locks
  reads : ∀ u, v.known u → (v.info u).executionMode = 0 → NoReadLocks v.locks u

/-- What changes a table asks for write locks. -/
theorem lockRequest_write {db : Database} {op : Operation} (hop : isAccess op = true)
    (hread : isRead op = false) :
    (∃ tb, lockRequest db op = .table tb .writeLock) ∨
      ∃ tb c, lockRequest db op = .item tb c .writeLock := by
  unfold lockRequest
  unfold isAccess at hop
  unfold isRead at hread
  cases ht : op.operationType with
  | insert =>
    dsimp only
    split
    · exact .inr ⟨_, _, rfl⟩
    · exact .inl ⟨_, rfl⟩
  | update => exact .inr ⟨_, _, rfl⟩
  | dropTable => exact .inl ⟨_, rfl⟩
  | retrieveRecord | retrieveEntireTable | retrieveCoffeeName | count =>
    rw [ht] at hread
    cases hread
  | begin | commit | abort | quit | invalid =>
    rw [ht] at hop
    cases hop

namespace ProcessInv

variable {v v₁ v' : View} {tx : Int} {i : TransactionInfo} {op : Operation}

/-- One transaction changes, with its locks. -/
theorem change (h : ProcessInv v) (hlocks : Known v₁.locks) (hinfo : v₁.info = v.info)
    (hknown : v₁.known = v.known) (hothers : ∀ u, u ≠ tx → SameLocks v.locks v₁.locks u)
    (hi : i.executionMode = 0 → NoReadLocks v₁.locks tx) : ProcessInv (v₁.setInfo tx i) := by
  refine ⟨hlocks, ?_⟩
  intro u hu hmode
  by_cases heq : u = tx
  · subst heq
    rw [View.info_setInfo_self] at hmode
    exact hi hmode
  · rw [View.info_setInfo, if_neg heq, hinfo] at hmode
    have hu' : v.known u := by
      rcases hu with hu | hu
      · exact absurd hu heq
      · exact hknown ▸ hu
    exact (h.reads u hu' hmode).congr (hothers u heq)

/-- One transaction changes, but neither its mode nor any lock. -/
theorem setInfo (h : ProcessInv v) (hlocks : v₁.locks = v.locks) (hinfo : v₁.info = v.info)
    (hknown : v₁.known = v.known) (htx : v.known tx)
    (hi : i.executionMode = (v.info tx).executionMode) : ProcessInv (v₁.setInfo tx i) := by
  refine h.change (hlocks ▸ h.locks) hinfo hknown ?_ ?_
  · intro u _
    rw [hlocks]
    exact ⟨fun _ => rfl, fun _ _ => rfl⟩
  · intro hmode
    rw [hlocks]
    exact h.reads tx htx (hi ▸ hmode)

/-- A request that is not a process's read. -/
theorem request {deps : List Int} {locks : LockManager} (h : ProcessInv v)
    (hop : isAccess op = true)
    (hreq : requestLocks v.locks tx (lockRequest v.db op) = .ok (deps, locks))
    (htx : v.known tx)
    (hread : (v.info tx).executionMode = 0 → isRead op = true →
      requestLocks v.locks tx (lockRequest v.db op) = .ok ([], v.locks))
    (hmode : (v.info tx).executionMode = 0) : NoReadLocks locks tx := by
  have hnone := h.reads tx htx hmode
  cases hisRead : isRead op with
  | true =>
    have hsame := hread hmode hisRead
    rw [hreq] at hsame
    cases hsame
    exact hnone
  | false =>
    have hout := requestLocks_spec h.locks hreq
    rcases lockRequest_write hop hisRead with ⟨tb, heq⟩ | ⟨tb, c, heq⟩
    · rw [heq] at hout
      exact hnone.tableOutcome hout (.inl rfl)
    · rw [heq] at hout
      exact hnone.itemOutcome hout

theorem granted {ops : List Operation} (h : ProcessInv v) (hop : isAccess op = true)
    (htx : v.known tx) (hgranted : Granted v tx op ops v')
    (hread : (v.info tx).executionMode = 0 → isRead op = true →
      requestLocks v.locks tx (lockRequest v.db op) = .ok ([], v.locks)) : ProcessInv v' := by
  rcases hgranted with ⟨locks, x, db, hreq, -, rfl⟩
  have hout := requestLocks_spec h.locks hreq
  exact h.change (hout.known h.locks) rfl rfl (fun _ => hout.sameLocks)
    (h.request hop hreq htx hread)

theorem refused (h : ProcessInv v) (hop : isAccess op = true)
    (htx : v.known tx) (hrefused : Refused v tx op v₁)
    (hi : i.executionMode = (v.info tx).executionMode)
    (hread : (v.info tx).executionMode = 0 → isRead op = true →
      requestLocks v.locks tx (lockRequest v.db op) = .ok ([], v.locks)) :
    ProcessInv (v₁.setInfo tx i) := by
  rcases hrefused with ⟨deps, locks, g, hreq, hdeps, -, rfl⟩
  have hout := requestLocks_spec h.locks hreq
  refine h.change (hout.known h.locks) rfl rfl (fun _ => hout.sameLocks) ?_
  intro hmode
  exact h.request hop hreq htx hread (hi ▸ hmode)

theorem deadlocked (h : ProcessInv v) (hop : isAccess op = true)
    (htx : v.known tx) (hdead : Deadlocked v tx op v')
    (hread : (v.info tx).executionMode = 0 → isRead op = true →
      requestLocks v.locks tx (lockRequest v.db op) = .ok ([], v.locks)) : ProcessInv v' := by
  rcases hdead with ⟨deps, locks, g, x, db, hreq, hdeps, -, -, rfl⟩
  have hout := requestLocks_spec h.locks hreq
  refine h.change ((hout.known h.locks).releaseAllLocks tx) rfl rfl ?_ ?_
  · intro u hu
    exact (hout.sameLocks hu).trans (releaseAllLocks_of_ne hu)
  · intro hmode
    exact (h.request hop hreq htx hread hmode).releaseAllLocks tx

end ProcessInv

/-- One step keeps the locks of processes. -/
theorem ProcessInv.moved {v v' : View} {stack stack' : List Frame} {a : Action}
    (h : ProcessInv v) (hcalls : CallsOk v stack) (hmove : Moved v stack a v' stack')
    (hguard : ReadsUnlocked v stack a) : ProcessInv v' := by
  -- a command that asks for locks is not a process's read
  have hsent : ∀ {i : TransactionInfo} {op : Operation} {locks : Except Err (List Int × LockManager)},
      (i.executionMode = 1 ∨ i.executionMode = 0 ∧ isRead op = false) →
        i.executionMode = 0 → isRead op = true → locks = .ok ([], v.locks) := by
    rintro i op locks (hmode | ⟨-, hread⟩) hzero hisRead
    · rw [hzero] at hmode
      cases hmode
    · rw [hisRead] at hread
      cases hread
  cases hmove with
  | ignored | runRemaining | leave | again | skip | exhausted | spin => exact h
  | begin _ _ hparse hop hmode _ =>
    refine h.change h.locks rfl rfl (fun _ _ => ⟨fun _ => rfl, fun _ _ => rfl⟩) ?_
    rintro rfl
    exact hguard.begins _ _ _ rfl hparse hop hmode
  | quitActive _ _ hknown | quitDone _ _ hknown | buffered _ _ hknown
  | readUnlocked _ _ hknown => exact h.setInfo rfl rfl rfl hknown rfl
  | @ended tx _ _ _ _ _ _ _ hknown =>
    refine h.change (h.locks.releaseAllLocks tx) rfl rfl (fun _ => releaseAllLocks_of_ne) ?_
    intro hmode
    exact (h.reads tx hknown hmode).releaseAllLocks tx
  | granted _ hop hknown _ hmode hgranted => exact h.granted hop hknown hgranted (hsent hmode)
  | refused _ hop hknown _ hmode hrefused =>
    refine h.refused hop hknown hrefused ?_ (hsent hmode)
    rfl
  | deadlocked _ hop hknown _ hmode hdead => exact h.deadlocked hop hknown hdead (hsent hmode)
  | unblock =>
    exact h.setInfo rfl rfl rfl (hcalls.keys _ (mem_cons_self ..) _ (mem_cons_self ..)) rfl
  | @retryEnded tx =>
    exact h.setInfo rfl rfl rfl (hcalls.active tx (mem_cons_self ..)).1 rfl
  | @retryGranted tx _ _ _ _ hbuf hop hgranted =>
    refine h.granted hop (hcalls.active tx (mem_cons_self ..)).1 hgranted ?_
    intro hmode hisRead
    exact hguard.buffered _ _ _ _ rfl hbuf hisRead hmode
  | @retryRefused tx _ _ _ _ hbuf hop hrefused =>
    refine h.refused hop (hcalls.active tx (mem_cons_self ..)).1 hrefused ?_ ?_
    · rfl
    · intro hmode hisRead
      exact hguard.buffered _ _ _ _ rfl hbuf hisRead hmode
  | @retryDeadlocked tx _ _ _ _ _ hbuf hop hdead =>
    refine h.deadlocked hop (hcalls.active tx (mem_cons_self ..)).1 hdead ?_
    intro hmode hisRead
    exact hguard.buffered _ _ _ _ rfl hbuf hisRead hmode
  | @reblock tx => exact h.setInfo rfl rfl rfl (hcalls.reblocked tx (mem_cons_self ..)) rfl

/-- A process's read leaves its status as it is. -/
theorem status_of_read {v v' : View} {stack stack' : List Frame} {a : Action} {tx : Int}
    {op : Operation} (hmove : Moved v stack a v' stack') (hguard : ReadsUnlocked v stack a)
    (hmode : (v.info tx).executionMode = 0) (hread : isRead op = true)
    (htries : Tries v stack a tx op) : v'.status tx = v.status tx := by
  have hop : isAccess op = true := isAccess_of_isRead hread
  rcases htries with ⟨input, rfl, hparse⟩ | ⟨rest, ops, rfl, rfl, hbuf⟩
  · -- sent: other commands parse to something else
    have hsame : ∀ {op'}, parse input = .ok op' → op' = op := by
      intro op' hparse'
      rw [hparse] at hparse'
      cases hparse'
      rfl
    cases hmove with
    | ignored => rfl
    | begin _ _ hparse' hop' | quitActive hparse' hop' | quitDone hparse' hop' =>
      cases hsame hparse'
      simp [isAccess, hop'] at hop
    | buffered | readUnlocked =>
      rw [View.status_setInfo, if_pos rfl]
      rfl
    | ended hparse' hop' =>
      cases hsame hparse'
      rcases hop' with hop' | hop' <;> simp [isAccess, hop'] at hop
    | granted hparse' _ _ _ hmode' | refused hparse' _ _ _ hmode' | deadlocked hparse' _ _ _ hmode' =>
      cases hsame hparse'
      rcases hmode' with hmode' | ⟨-, hread'⟩
      · rw [hmode] at hmode'
        cases hmode'
      · rw [hread] at hread'
        cases hread'
  · -- taken from the buffer: the request takes nothing
    have hreq := hguard.buffered tx rest op ops rfl hbuf hread hmode
    have hfront : ∀ {op' ops'}, v.buffer tx = op' :: ops' → op' = op := by
      intro op' ops' hbuf'
      rw [hbuf] at hbuf'
      cases hbuf'
      rfl
    cases hmove with
    | leave hf => simp at hf
    | exhausted hbuf' => simp [hbuf] at hbuf'
    | spin => rfl
    | retryEnded hbuf' hop' =>
      cases hfront hbuf'
      rcases hop' with hop' | hop' <;> simp [isAccess, hop'] at hop
    | retryGranted _ _ hgranted =>
      rcases hgranted with ⟨locks, x, db, -, -, rfl⟩
      rw [View.status_setInfo, if_pos rfl]
      rfl
    | retryRefused hbuf' _ hrefused =>
      cases hfront hbuf'
      rcases hrefused with ⟨deps, locks, g, hreq', hdeps, -, -⟩
      rw [hreq] at hreq'
      cases hreq'
      exact absurd rfl hdeps
    | retryDeadlocked hbuf' _ hdead =>
      cases hfront hbuf'
      rcases hdead with ⟨deps, locks, g, x, db, hreq', hdeps, -⟩
      rw [hreq] at hreq'
      cases hreq'
      exact absurd rfl hdeps

/-- The guard on the states of the machine. -/
def ReadsUnlockedStep (c : Config) (a : Action) : Prop := ReadsUnlocked c.core.view c.stack a

theorem processInv_reachable {c : Config} (h : schedulerSystem.ReachableBy ReadsUnlockedStep c) :
    ProcessInv c.core.view := by
  have hinv : ProcessInv c.core.view ∧ CallsOk c.core.view c.stack := by
    refine h.invariant (fun c => ProcessInv c.core.view ∧ CallsOk c.core.view c.stack) ?_ ?_
    · rintro c ⟨disk, rfl⟩
      refine ⟨⟨known_init, ?_⟩, .nil⟩
      intro u hknown
      exact absurd hknown TreeMap.not_mem_emptyc
    · intro c a c' hinv hguard hnext
      have hmove := next_moved hnext
      exact ⟨hinv.1.moved hinv.2 hmove hguard, hinv.2.moved hmove⟩
  exact hinv.1

/-- In every run in which the reads that processes have buffered need no new locks,
a process holds no read lock, and no read blocks or aborts it. -/
theorem process_of_readsUnlocked {c : Config}
    (h : schedulerSystem.ReachableBy ReadsUnlockedStep c) :
    (∀ tx ∈ c.core.transactions, (c.core.info tx).executionMode = 0 →
      NoReadLocks c.core.locks tx) ∧
    ∀ a c', ReadsUnlockedStep c a → c.next a = .ok c' → ∀ tx ∈ c.core.transactions,
      (c.core.info tx).executionMode = 0 → ∀ op, isRead op = true →
        Tries c.core.view c.stack a tx op →
          (c'.core.info tx).transactionStatus = (c.core.info tx).transactionStatus := by
  constructor
  · intro tx hmem hmode
    exact (processInv_reachable h).reads tx hmem hmode
  · intro a c' hguard hnext tx _ hmode op hread htries
    exact status_of_read (next_moved hnext) hguard hmode hread htries

/-- The command is not a `BEGIN`, or no lock has been taken yet. -/
def beginsUnlocked (c : Config) : Action → Bool
  | .schedule _ input =>
    match parse input with
    | .ok op => op.operationType ≠ .begin ∨
        c.core.locks.tableLevelLocks.isEmpty ∧ c.core.locks.recordLevelLocks.isEmpty
    | .error _ => true
  | _ => true

theorem noReadLocks_of_isEmpty {m : LockManager} (htable : m.tableLevelLocks.isEmpty = true)
    (hrecord : m.recordLevelLocks.isEmpty = true) (tx : Int) : NoReadLocks m tx := by
  constructor
  · intro tb k hk
    have hnone : m.tableLevelLocks[tb]? = none := TreeMap.getElem?_of_isEmpty htable
    simp [tableLock?, tableHolders, hnone] at hk
  · intro tb c k hk
    have hnone : m.recordLevelLocks[tb]? = none := TreeMap.getElem?_of_isEmpty hrecord
    simp [recordLock?, recordHolders, hnone] at hk

/-- A process that has updated a record scans the table and holds no read lock. -/
theorem process_of_readsUnlocked_scan :
    ∃ c, schedulerSystem.ReachableBy ReadsUnlockedStep c ∧ c.core.history.length = 3 ∧
      c.core.locks.tableLock? (Str.ofString "A") 0 = some .intentWriteLock ∧
      NoReadLocks c.core.locks 0 := by
  have hcheck : ∀ (c : Config) (a : Action),
      (c.noRetry && beginsUnlocked c a) = true → ReadsUnlockedStep c a := by
    intro c a h
    rcases Bool.and_eq_true_iff.mp h with ⟨hretry, hbegins⟩
    constructor
    · intro tx rest op ops hstack
      exact absurd hstack (Config.not_retry_of_noRetry hretry)
    · rintro tx input op rfl hparse hop _
      simp only [beginsUnlocked, hparse, decide_eq_true_eq] at hbegins
      rcases hbegins with hne | ⟨htable, hrecord⟩
      · exact absurd hop hne
      · exact noReadLocks_of_isEmpty htable hrecord tx
  have hmeets : Config.runMeets (fun c a => c.noRetry && beginsUnlocked c a)
      (fun c => c.core.history.length = 3 ∧ 0 ∈ c.core.transactions ∧
        (c.core.info 0).executionMode = 0 ∧
        c.core.locks.tableLock? (Str.ofString "A") 0 = some .intentWriteLock)
      [.command 0 "B 0", .command 0 "U A 1 6", .command 0 "T A"] .init = true := by
    decide +kernel
  rcases Config.exists_of_runMeets hcheck Config.init_reachable hmeets with ⟨c, hreach, h⟩
  rcases of_decide_eq_true h with ⟨hlength, hmem, hmode, hlock⟩
  exact ⟨c, hreach, hlength, hlock, (process_of_readsUnlocked hreach).1 0 hmem hmode⟩

/-- Process 1 waits for 0 to write a record and sends a scan. -/
def bufferedScanRun : List Action :=
  [.command 0 "B 1", .command 1 "B 0", .command 0 "U A 1 6", .command 1 "U A 1 7",
    .command 1 "T B", .command 0 "C"] ++ List.replicate 6 .turn

/-- The scan is tried again with a lock. -/
theorem holds_bufferedScanRun :
    ∃ c, schedulerSystem.Reachable c ∧ c.stack = [] ∧ 1 ∈ c.core.transactions ∧
      (c.core.info 1).executionMode = 0 ∧
      c.core.locks.tableLock? (Str.ofString "B") 1 = some .readLock := by
  have hmeets : Config.runMeets (fun _ _ => true) (fun c => c.stack.isEmpty ∧
      1 ∈ c.core.transactions ∧ (c.core.info 1).executionMode = 0 ∧
      c.core.locks.tableLock? (Str.ofString "B") 1 = some .readLock)
      bufferedScanRun .init = true := by
    decide +kernel
  rcases Config.reachable_of_runMeets hmeets with ⟨c, hreach, h⟩
  rcases of_decide_eq_true h with ⟨hstack, hmem, hmode, hlock⟩
  exact ⟨c, hreach, isEmpty_iff.mp hstack, hmem, hmode, hlock⟩

end Scheduler

end PittCs.Rcdb
