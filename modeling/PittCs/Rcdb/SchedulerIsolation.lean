import PittCs.Rcdb.LockCoverage
import PittCs.Rcdb.SchedulerLocks

/-!
# Isolation

Transactions in mode 1 should not read what a live transaction has written, nor
write what a live transaction has read or written. The locks of every live
transaction cover what it has executed, so this follows from the exclusion of
locks. The lock manager breaks that exclusion in one case, when a holder of
`INTENT_READ_LOCK` scans a table that another transaction reads; the result is
about the runs in which this does not happen.
-/

namespace PittCs.Rcdb

open Std PittCs.Lib LockManager List Relation

namespace Operation

/-- The operation reads the record. -/
def Reads (op : Operation) (tb : Str) (c : Int) : Prop :=
  match op.operationType with
  | .retrieveRecord => op.tableName = tb ∧ op.coffeeID = c
  | .retrieveEntireTable | .retrieveCoffeeName | .count => op.tableName = tb
  | _ => False

/-- The operation writes the record. -/
def Writes (op : Operation) (tb : Str) (c : Int) : Prop :=
  match op.operationType with
  | .insert | .update => op.tableName = tb ∧ op.coffeeID = c
  | .dropTable => op.tableName = tb
  | _ => False

/-- The operation reads or writes a record that the earlier one wrote, or writes
one that the earlier one read. -/
def Conflicts (op earlier : Operation) : Prop :=
  ∃ tb c, (op.Reads tb c ∨ op.Writes tb c) ∧ earlier.Writes tb c ∨
    op.Writes tb c ∧ earlier.Reads tb c

end Operation

/-! ## Histories -/

/-- The transaction has executed the operation and has not ended since. -/
def LiveIn (history : List Event) (u : Int) (op : Operation) : Prop :=
  ∃ before after, history = before ++ Event.executed u op :: after ∧ Event.ended u ∉ after

/-- No operation was executed that conflicts with one of another live transaction. -/
def Strict (history : List Event) : Prop :=
  ∀ before after tx op, history = before ++ Event.executed tx op :: after →
    ∀ u earlier, u ≠ tx → LiveIn before u earlier → ¬ op.Conflicts earlier

theorem LiveIn.of_append {history : List Event} {e : Event} {u : Int} {op : Operation}
    (h : LiveIn (history ++ [e]) u op) : e = .executed u op ∨ e ≠ .ended u ∧ LiveIn history u op := by
  rcases h with ⟨before, after, heq, hafter⟩
  rcases eq_nil_or_concat after with rfl | ⟨after', e', rfl⟩
  · left
    have hlast := append_inj_right' heq rfl
    exact (singleton_inj.mp hlast)
  · right
    have heq' : history ++ [e] = (before ++ Event.executed u op :: after') ++ [e'] := by
      simpa using heq
    have hinit := append_inj_left' heq' rfl
    have hlast := singleton_inj.mp (append_inj_right' heq' rfl)
    subst hlast
    refine ⟨?_, before, after', hinit, ?_⟩
    · rintro rfl
      exact hafter (by simp)
    · intro hmem
      exact hafter (by simp [hmem])

theorem Strict.append {history : List Event} {e : Event} (h : Strict history)
    (he : ∀ tx op, e = .executed tx op → ∀ u earlier, u ≠ tx → LiveIn history u earlier →
      ¬ op.Conflicts earlier) : Strict (history ++ [e]) := by
  intro before after tx op heq
  rcases eq_nil_or_concat after with rfl | ⟨after', e', rfl⟩
  · have hinit := append_inj_left' heq rfl
    have hlast := singleton_inj.mp (append_inj_right' heq rfl)
    subst hinit
    exact he tx op hlast
  · have heq' : history ++ [e] = (before ++ Event.executed tx op :: after') ++ [e'] := by
      simpa using heq
    exact h before after' tx op (append_inj_left' heq' rfl)

/-! ## Operations and their locks -/

/-- The locks of the transaction let it execute the operation. -/
def Covered (m : LockManager) (u : Int) (op : Operation) : Prop :=
  (∀ tb c, op.Reads tb c → MayRead m u tb c) ∧ ∀ tb c, op.Writes tb c → MayWrite m u tb c

theorem Covered.congr {m m' : LockManager} {u : Int} {op : Operation} (h : Covered m u op)
    (hsame : SameLocks m m' u) : Covered m' u op :=
  ⟨fun tb c hreads => (h.1 tb c hreads).congr hsame,
    fun tb c hwrites => (h.2 tb c hwrites).congr hsame⟩

/-- The locks of different transactions exclude each other. -/
structure LocksExclude (m : LockManager) : Prop where
  known : Known m
  compat : TableCompat m
  exclusive : RecordExclusive m

theorem LocksExclude.releaseAllLocks {m : LockManager} (h : LocksExclude m) (tx : Int) :
    LocksExclude (m.releaseAllLocks tx) :=
  ⟨h.known.releaseAllLocks tx, h.compat.releaseAllLocks tx,
    h.exclusive.of_recordLock fun _ _ _ _ => releaseAllLocks_record_some⟩

/-- The locks of two transactions do not let both execute conflicting operations. -/
theorem Covered.not_conflicts {m : LockManager} (hm : LocksExclude m) {u v : Int} (huv : u ≠ v)
    {op earlier : Operation} (hop : Covered m v op) (hearlier : Covered m u earlier) :
    ¬ op.Conflicts earlier := by
  rcases hm with ⟨-, hcompat, hexcl⟩
  rintro ⟨tb, c, ⟨haccess, hwrites⟩ | ⟨hwrites, hreads⟩⟩
  · have hread : MayRead m v tb c := by
      rcases haccess with hreads | hwrites
      · exact hop.1 tb c hreads
      · exact (hop.2 tb c hwrites).mayRead
    exact (hearlier.2 tb c hwrites).excludes hcompat hexcl huv hread
  · exact (hop.2 tb c hwrites).excludes hcompat hexcl (Ne.symm huv) (hearlier.1 tb c hreads)

namespace Scheduler

namespace RequestOutcome

variable {m m' : LockManager} {tx u : Int} {request : LockRequest} {deps : List Int}

theorem tableCompat (h : RequestOutcome m tx request (deps, m')) (hcompat : TableCompat m)
    (hgood : ∀ tb, request = .table tb .readLock → ¬ OvertakesReader m tx tb .readLock) :
    TableCompat m' := by
  cases request with
  | table tb desired =>
    refine hcompat.tableOutcome h ?_
    intro hover
    rcases hover with ⟨rfl, hheld, hother⟩
    exact hgood tb rfl ⟨rfl, hheld, hother⟩
  | item => exact hcompat.itemOutcome h
  | nothing =>
    cases h
    exact hcompat

theorem recordExclusive (h : RequestOutcome m tx request (deps, m')) (hexcl : RecordExclusive m) :
    RecordExclusive m' := by
  cases request with
  | table tb desired =>
    refine hexcl.of_recordLock ?_
    intro tb' c u k hk
    cases h with
    | kept _ | refused _ _ _ => exact hk
    | granted _ _ hset =>
      rw [hset.record] at hk
      exact hk
  | item => exact hexcl.itemOutcome h
  | nothing =>
    cases h
    exact hexcl

theorem locksExclude (h : RequestOutcome m tx request (deps, m')) (hm : LocksExclude m)
    (hgood : ∀ tb, request = .table tb .readLock → ¬ OvertakesReader m tx tb .readLock) :
    LocksExclude m' :=
  ⟨h.known hm.known, h.tableCompat hm.compat hgood, h.recordExclusive hm.exclusive⟩

/-- What the requester may do with a table, it may still do. -/
theorem grows (h : RequestOutcome m tx request (deps, m')) {tb : Str} {k : LockType}
    (hk : m.tableLock? tb tx = some k) :
    ∃ k', m'.tableLock? tb tx = some k' ∧ (readsTable k = true → readsTable k' = true) ∧
      (writesRecords k = true → writesRecords k' = true) ∧ (k = .writeLock → k' = .writeLock) := by
  cases request with
  | table => exact TableOutcome.grows h hk
  | item => exact ItemOutcome.grows h hk
  | nothing =>
    cases h
    exact ⟨k, hk, id, id, id⟩

theorem record_grows (h : RequestOutcome m tx request (deps, m')) {tb : Str} {c : Int}
    {k : LockType} (hk : m.recordLock? tb c tx = some k) :
    ∃ k', m'.recordLock? tb c tx = some k' ∧ (k = .writeLock → k' = .writeLock) := by
  cases request with
  | table tb' desired =>
    refine ⟨k, ?_, id⟩
    cases h with
    | kept _ | refused _ _ _ => exact hk
    | granted _ _ hset =>
      rw [hset.record]
      exact hk
  | item => exact ItemOutcome.record_grows h hk
  | nothing =>
    cases h
    exact ⟨k, hk, id⟩

theorem mayRead (h : RequestOutcome m tx request (deps, m')) {tb : Str} {c : Int}
    (hread : MayRead m u tb c) : MayRead m' u tb c := by
  rcases hread with ⟨k, hk, hread⟩
  by_cases heq : u = tx
  · subst heq
    rcases h.grows hk with ⟨k', hk', hreads, -, -⟩
    refine ⟨k', hk', ?_⟩
    rcases hread with hread | ⟨kr, hkr⟩
    · exact .inl (hreads hread)
    · rcases h.record_grows hkr with ⟨kr', hkr', -⟩
      exact .inr ⟨kr', hkr'⟩
  · exact MayRead.congr ⟨k, hk, hread⟩ (h.sameLocks heq)

theorem mayWrite (h : RequestOutcome m tx request (deps, m')) {tb : Str} {c : Int}
    (hwrite : MayWrite m u tb c) : MayWrite m' u tb c := by
  rcases hwrite with ⟨k, hk, hwrite⟩
  by_cases heq : u = tx
  · subst heq
    rcases h.grows hk with ⟨k', hk', -, hwrites, hkeeps⟩
    refine ⟨k', hk', ?_⟩
    rcases hwrite with hwrite | ⟨hintent, hkr⟩
    · exact .inl (hkeeps hwrite)
    · rcases h.record_grows hkr with ⟨kr', hkr', hkeeps'⟩
      rw [hkeeps' rfl] at hkr'
      exact .inr ⟨hwrites hintent, hkr'⟩
  · exact MayWrite.congr ⟨k, hk, hwrite⟩ (h.sameLocks heq)

theorem covered (h : RequestOutcome m tx request (deps, m')) {op : Operation}
    (hop : Covered m u op) : Covered m' u op :=
  ⟨fun tb c hreads => h.mayRead (hop.1 tb c hreads),
    fun tb c hwrites => h.mayWrite (hop.2 tb c hwrites)⟩

end RequestOutcome

/-- A write lock on a record, granted. -/
theorem mayWrite_of_item {m m' : LockManager} {tx : Int} {tb : Str} {c : Int}
    (h : ItemOutcome m tx tb c .writeLock ([], m')) : MayWrite m' tx tb c := by
  rcases h.holds (.inr rfl) with ⟨⟨k, hk, hintent⟩, hrecord⟩
  refine ⟨k, hk, .inr ⟨?_, of_decide_eq_true hrecord⟩⟩
  exact hintent

/-- A read lock on a record, granted. -/
theorem mayRead_of_item {m m' : LockManager} {tx : Int} {tb : Str} {c : Int}
    (h : ItemOutcome m tx tb c .readLock ([], m')) : MayRead m' tx tb c := by
  rcases h.holds (.inl rfl) with ⟨⟨k, hk, -⟩, hrecord⟩
  exact ⟨k, hk, .inr (Option.isSome_iff_exists.mp hrecord)⟩

/-- A write lock on a table, granted. -/
theorem mayWrite_of_table {m m' : LockManager} {tx : Int} {tb : Str}
    (h : TableOutcome m tx tb .writeLock ([], m')) (c : Int) : MayWrite m' tx tb c := by
  rcases h.holds with ⟨k, hk, hwrite⟩
  exact ⟨k, hk, .inl (of_decide_eq_true hwrite)⟩

/-- A read lock on a table, granted. -/
theorem mayRead_of_table {m m' : LockManager} {tx : Int} {tb : Str}
    (h : TableOutcome m tx tb .readLock ([], m')) (c : Int) : MayRead m' tx tb c := by
  rcases h.holds with ⟨k, hk, hread⟩
  exact ⟨k, hk, .inl hread⟩

/-- The locks an operation asks for cover it. -/
theorem covered_of_granted {m m' : LockManager} {tx : Int} {db : Database} {op : Operation}
    (h : RequestOutcome m tx (lockRequest db op) ([], m')) : Covered m' tx op := by
  unfold Covered Operation.Reads Operation.Writes
  unfold lockRequest at h
  cases ht : op.operationType <;> rw [ht] at h <;> dsimp only at h ⊢
  case insert =>
    -- into a new table under a lock on the table, else under a lock on the record
    refine ⟨fun _ _ hfalse => hfalse.elim, ?_⟩
    rintro tb c ⟨rfl, rfl⟩
    split at h
    · exact mayWrite_of_item h
    · exact mayWrite_of_table h _
  case update =>
    refine ⟨fun _ _ hfalse => hfalse.elim, ?_⟩
    rintro tb c ⟨rfl, rfl⟩
    exact mayWrite_of_item h
  case dropTable =>
    refine ⟨fun _ _ hfalse => hfalse.elim, ?_⟩
    rintro tb c rfl
    exact mayWrite_of_table h c
  case retrieveRecord =>
    refine ⟨?_, fun _ _ hfalse => hfalse.elim⟩
    rintro tb c ⟨rfl, rfl⟩
    exact mayRead_of_item h
  case retrieveEntireTable | retrieveCoffeeName | count =>
    refine ⟨?_, fun _ _ hfalse => hfalse.elim⟩
    rintro tb c rfl
    exact mayRead_of_table h c
  case begin | commit | abort | quit | invalid =>
    exact ⟨fun _ _ hfalse => hfalse.elim, fun _ _ hfalse => hfalse.elim⟩

/-! ## The invariant -/

/-- Transactions begin in mode 1. -/
def BeginsTransactions (_ : Config) (a : Action) : Prop :=
  ∀ tx input op mode, a = .schedule tx input → parse input = .ok op →
    op.operationType = .begin → parseMode input = .ok mode → mode = 1

/-- Transactions begin in mode 1, and no holder of `INTENT_READ_LOCK` asks for
`READ_LOCK` on a table that another transaction reads. -/
structure NoOvertaking (c : Config) (a : Action) : Prop where
  mode : BeginsTransactions c a
  scan : ∀ tx op, Asks c.core.view c.stack a tx op → ∀ tb,
    lockRequest c.core.db op = .table tb .readLock →
      ¬ OvertakesReader c.core.locks tx tb .readLock

/-- The locks exclude each other and cover what live transactions have executed. -/
structure IsolationInv (v : View) : Prop where
  locks : LocksExclude v.locks
  mode : ∀ u, v.known u → (v.info u).executionMode = 1
  covered : ∀ u op, LiveIn v.history u op → Covered v.locks u op
  strict : Strict v.history

namespace IsolationInv

variable {v v₁ : View} {tx : Int} {i : TransactionInfo}

theorem setInfo (h : IsolationInv v) (hi : i.executionMode = 1) :
    IsolationInv (v.setInfo tx i) := by
  refine ⟨h.locks, ?_, h.covered, h.strict⟩
  intro u hu
  rw [View.info_setInfo]
  split
  · exact hi
  case isFalse hne => exact h.mode u (hu.resolve_left hne)

/-- Asking for locks. -/
theorem request {op : Operation} {deps : List Int} {locks : LockManager} (h : IsolationInv v)
    (hreq : requestLocks v.locks tx (lockRequest v.db op) = .ok (deps, locks))
    (hgood : ∀ tb, lockRequest v.db op = .table tb .readLock →
      ¬ OvertakesReader v.locks tx tb .readLock) (g : DiGraph) :
    IsolationInv { v with locks, graph := g } := by
  have hout := requestLocks_spec h.locks.known hreq
  refine ⟨hout.locksExclude h.locks hgood, h.mode, ?_, h.strict⟩
  intro u op hlive
  exact hout.covered (h.covered u op hlive)

/-- Executing an operation that is covered. -/
theorem executed {op : Operation} (h : IsolationInv v) (hop : Covered v.locks tx op)
    (db : Database) :
    IsolationInv { v with db, history := v.history ++ [Event.executed tx op] } := by
  refine ⟨h.locks, h.mode, ?_, ?_⟩
  · intro u op' hlive
    rcases hlive.of_append with heq | ⟨-, hlive⟩
    · cases heq
      exact hop
    · exact h.covered u op' hlive
  · refine h.strict.append ?_
    intro tx' op' heq u earlier hne hlive
    cases heq
    exact hop.not_conflicts h.locks hne (h.covered u earlier hlive)

/-- The end of a transaction, which may keep its locks. -/
theorem ended (h : IsolationInv v) (tx : Int) (db : Database) (g : DiGraph) :
    IsolationInv { v with db, graph := g, history := v.history ++ [Event.ended tx] } := by
  refine ⟨h.locks, h.mode, ?_, ?_⟩
  · intro u op hlive
    rcases hlive.of_append with heq | ⟨-, hlive⟩
    · cases heq
    · exact h.covered u op hlive
  · refine h.strict.append ?_
    intro tx' op' heq
    cases heq

/-- A transaction that has ended gives its locks back. -/
theorem released (h : IsolationInv v) (hended : ∀ op, ¬ LiveIn v.history tx op) :
    IsolationInv { v with locks := v.locks.releaseAllLocks tx } := by
  refine ⟨h.locks.releaseAllLocks tx, h.mode, ?_, h.strict⟩
  intro u op hlive
  have hne : u ≠ tx := fun heq => hended op (heq ▸ hlive)
  exact (h.covered u op hlive).congr (releaseAllLocks_of_ne hne)

end IsolationInv

theorem not_liveIn_ended (history : List Event) (tx : Int) (op : Operation) :
    ¬ LiveIn (history ++ [Event.ended tx]) tx op := by
  intro hlive
  rcases hlive.of_append with heq | ⟨hne, -⟩
  · cases heq
  · exact hne rfl

/-- A granted operation is executed. -/
theorem IsolationInv.granted {v v' : View} {tx : Int} {op : Operation} {ops : List Operation}
    (h : IsolationInv v) (htx : v.known tx)
    (hgood : ∀ tb, lockRequest v.db op = .table tb .readLock →
      ¬ OvertakesReader v.locks tx tb .readLock)
    (hgranted : Granted v tx op ops v') : IsolationInv v' := by
  rcases hgranted with ⟨locks, x, db, hreq, -, rfl⟩
  have hasked : IsolationInv { v with locks } := h.request hreq hgood v.graph
  have hop : Covered locks tx op := covered_of_granted (requestLocks_spec h.locks.known hreq)
  exact (hasked.executed hop db).setInfo (h.mode tx htx)

theorem IsolationInv.refused {v v₁ : View} {tx : Int} {op : Operation} {i : TransactionInfo}
    (h : IsolationInv v) (hi : i.executionMode = 1)
    (hgood : ∀ tb, lockRequest v.db op = .table tb .readLock →
      ¬ OvertakesReader v.locks tx tb .readLock)
    (hrefused : Refused v tx op v₁) : IsolationInv (v₁.setInfo tx i) := by
  rcases hrefused with ⟨deps, locks, g, hreq, -, -, rfl⟩
  exact (h.request hreq hgood g).setInfo hi

theorem IsolationInv.deadlocked {v v' : View} {tx : Int} {op : Operation}
    (h : IsolationInv v) (htx : v.known tx)
    (hgood : ∀ tb, lockRequest v.db op = .table tb .readLock →
      ¬ OvertakesReader v.locks tx tb .readLock)
    (hdead : Deadlocked v tx op v') : IsolationInv v' := by
  rcases hdead with ⟨deps, locks, g, x, db, hreq, -, -, -, rfl⟩
  have hasked : IsolationInv { v with locks } := h.request hreq hgood v.graph
  have hended := hasked.ended tx db (g.removeNode tx)
  exact (hended.released (not_liveIn_ended v.history tx)).setInfo (h.mode tx htx)

/-- One step keeps the invariant. -/
theorem IsolationInv.moved {v v' : View} {stack stack' : List Frame} {a : Action}
    (h : IsolationInv v) (hcalls : CallsOk v stack) (hmove : Moved v stack a v' stack')
    (hmode : ∀ tx input op mode, a = .schedule tx input → parse input = .ok op →
      op.operationType = .begin → parseMode input = .ok mode → mode = 1)
    (hscan : ∀ tx op, Asks v stack a tx op → ∀ tb, lockRequest v.db op = .table tb .readLock →
      ¬ OvertakesReader v.locks tx tb .readLock) : IsolationInv v' := by
  cases hmove with
  | ignored | runRemaining | leave | again | skip | exhausted | spin => exact h
  | @begin tx input op x mode hnot _ hparse hop hm hx =>
    have hcovered : Covered v.locks tx op := by
      unfold Covered Operation.Reads Operation.Writes
      rw [hop]
      exact ⟨fun _ _ hfalse => hfalse.elim, fun _ _ hfalse => hfalse.elim⟩
    have hexecuted := h.executed hcovered v.db
    -- resetting the lists of owned locks changes no lock
    have hrenewed : IsolationInv { v with
        graph := v.graph.addNode tx
        locks := { v.locks with owned := (v.locks.owned.insert tx {}).insert tx {} }
        history := v.history ++ [Event.executed tx op] } :=
      ⟨⟨h.locks.known, h.locks.compat, h.locks.exclusive⟩, h.mode, hexecuted.covered,
        hexecuted.strict⟩
    exact hrenewed.setInfo (hmode _ _ _ _ rfl hparse hop hm)
  | @quitActive tx _ _ _ db _ _ hknown =>
    exact (h.ended tx db v.graph).setInfo (h.mode _ hknown)
  | quitDone _ _ hknown | buffered _ _ hknown => exact h.setInfo (h.mode _ hknown)
  | @ended tx _ _ x db _ _ _ hknown _ _ _ =>
    have hended := h.ended tx db ((v.graph.removeNode tx).removeNode tx)
    exact (hended.released (not_liveIn_ended v.history tx)).setInfo (h.mode _ hknown)
  | readUnlocked _ _ hknown _ hzero =>
    -- processes do not occur
    rw [h.mode _ hknown] at hzero
    cases hzero
  | granted hparse _ hknown hstatus hlocks hgranted =>
    exact h.granted hknown (hscan _ _ (.inl ⟨_, rfl, hparse, hstatus, hlocks⟩)) hgranted
  | refused hparse _ hknown hstatus hlocks hrefused =>
    exact h.refused (h.mode _ hknown) (hscan _ _ (.inl ⟨_, rfl, hparse, hstatus, hlocks⟩)) hrefused
  | deadlocked hparse _ hknown hstatus hlocks hdead =>
    exact h.deadlocked hknown (hscan _ _ (.inl ⟨_, rfl, hparse, hstatus, hlocks⟩)) hdead
  | unblock =>
    exact h.setInfo (h.mode _ (hcalls.keys _ (mem_cons_self ..) _ (mem_cons_self ..)))
  | @retryEnded tx _ _ _ _ db =>
    have hknown := (hcalls.active tx (mem_cons_self ..)).1
    exact (h.ended tx db (v.graph.removeNode tx)).setInfo (h.mode _ hknown)
  | @retryGranted tx _ _ _ _ hbuf _ hgranted =>
    have hknown := (hcalls.active tx (mem_cons_self ..)).1
    exact h.granted hknown (hscan _ _ (.inr ⟨_, _, rfl, rfl, hbuf⟩)) hgranted
  | @retryRefused tx _ _ _ _ hbuf _ hrefused =>
    have hknown := (hcalls.active tx (mem_cons_self ..)).1
    exact h.refused (h.mode _ hknown) (hscan _ _ (.inr ⟨_, _, rfl, rfl, hbuf⟩)) hrefused
  | @retryDeadlocked tx _ _ _ _ _ hbuf _ hdead =>
    have hknown := (hcalls.active tx (mem_cons_self ..)).1
    exact h.deadlocked hknown (hscan _ _ (.inr ⟨_, _, rfl, rfl, hbuf⟩)) hdead
  | @reblock tx _ => exact h.setInfo (h.mode _ (hcalls.reblocked tx (mem_cons_self ..)))

theorem isolationInv_reachable {c : Config} (h : schedulerSystem.ReachableBy NoOvertaking c) :
    IsolationInv c.core.view := by
  have hinv : IsolationInv c.core.view ∧ CallsOk c.core.view c.stack := by
    refine h.invariant (fun c => IsolationInv c.core.view ∧ CallsOk c.core.view c.stack) ?_ ?_
    · rintro c ⟨disk, rfl⟩
      refine ⟨⟨⟨known_init, tableCompat_init, ?_⟩, ?_, ?_, ?_⟩, .nil⟩
      · intro tb c u v ku kv _ hu
        simp [init, recordLock?, recordHolders, LockManager.init] at hu
      · intro u hknown
        exact absurd hknown TreeMap.not_mem_emptyc
      · rintro u op ⟨before, after, heq, -⟩
        simp [init] at heq
      · intro before after tx op heq
        simp [init] at heq
    · intro c a c' hinv hguard hnext
      have hmove := next_moved hnext
      exact ⟨hinv.1.moved hinv.2 hmove hguard.mode hguard.scan, hinv.2.moved hmove⟩
  exact hinv.1

/-- Every history of transactions in mode 1 is strict and free of conflicts between
live transactions, if no holder of `INTENT_READ_LOCK` scans a table that another
transaction reads. -/
theorem strict_of_noOvertaking {c : Config} (h : schedulerSystem.ReachableBy NoOvertaking c) :
    Strict c.core.history :=
  (isolationInv_reachable h).strict

/-- The action does not begin a transaction in another mode. -/
def beginsMode1 : Action → Bool
  | .schedule _ input =>
    match parse input, parseMode input with
    | .ok op, .ok mode => op.operationType ≠ .begin ∨ mode = 1
    | _, _ => true
  | _ => true

theorem beginsTransactions_of_beginsMode1 {c : Config} {a : Action} (h : beginsMode1 a = true) :
    BeginsTransactions c a := by
  rintro tx input op mode rfl hparse hop hmode
  simp only [beginsMode1, hparse, hmode, hop] at h
  simpa using h

/-- Nobody asks for a `READ_LOCK` on a table. -/
def noScan (c : Config) : Action → Bool
  | .schedule _ input =>
    match parse input with
    | .ok op =>
      match lockRequest c.core.db op with
      | .table _ desired => desired ≠ .readLock
      | _ => true
    | .error _ => true
  | _ => true

theorem noOvertaking_of_noScan (c : Config) (a : Action)
    (h : (c.noRetry && beginsMode1 a && noScan c a) = true) : NoOvertaking c a := by
  simp only [Bool.and_eq_true] at h
  rcases h with ⟨⟨hretry, hmode⟩, hscan⟩
  refine ⟨beginsTransactions_of_beginsMode1 hmode, ?_⟩
  rintro tx op (⟨input, rfl, hparse, -, -⟩ | ⟨rest, ops, -, hstack, -⟩) tb hreq
  · simp [noScan, hparse, hreq] at hscan
  · exact absurd hstack (Config.not_retry_of_noRetry hretry)

theorem strict_of_noOvertaking_update :
    ∃ c, schedulerSystem.ReachableBy NoOvertaking c ∧ c.core.history.length = 4 ∧
      Strict c.core.history := by
  have hmeets : Config.runMeets (fun c a => c.noRetry && beginsMode1 a && noScan c a)
      (fun c => c.core.history.length = 4)
      [.command 0 "B 1", .command 1 "B 1", .command 0 "U A 1 6", .command 1 "U A 2 6"]
      .init = true := by
    decide +kernel
  rcases Config.exists_of_runMeets noOvertaking_of_noScan Config.init_reachable hmeets
    with ⟨c, hreach, hlength⟩
  exact ⟨c, hreach, of_decide_eq_true hlength, strict_of_noOvertaking hreach⟩

/-- The operation that a command stands for. -/
def parsed (text : String) : Operation :=
  match parse (Str.ofString text) with
  | .ok op => op
  | .error _ => ⟨.invalid, emptyStr, 0, emptyStr, 0, emptyStr⟩

/-- Transaction 1 reads a record, 2 and then 1 scan the table, and 1 updates it. -/
def overtakingRun : List Action :=
  [.command 0 "B 1", .command 0 "I A (1, n, 5, US)", .command 0 "I A (2, n, 5, US)",
    .command 0 "C", .turn, .turn, .command 1 "B 1", .command 2 "B 1", .command 1 "R A 1",
    .command 2 "T A", .command 1 "T A", .command 1 "U A 2 7"]

/-- The update is executed although 2 has read the table and is live. -/
theorem not_strict_overtakingRun :
    ∃ c, schedulerSystem.ReachableBy BeginsTransactions c ∧ ¬ Strict c.core.history := by
  have hmeets : Config.runMeets (fun _ a => beginsMode1 a) (fun c => c.core.history =
      [.executed 0 (parsed "B 1"), .executed 0 (parsed "I A (1, n, 5, US)"),
        .executed 0 (parsed "I A (2, n, 5, US)"), .ended 0, .executed 1 (parsed "B 1"),
        .executed 2 (parsed "B 1"), .executed 1 (parsed "R A 1"), .executed 2 (parsed "T A"),
        .executed 1 (parsed "T A"), .executed 1 (parsed "U A 2 7")]) overtakingRun .init = true := by
    decide +kernel
  rcases Config.exists_of_runMeets (fun _ _ => beginsTransactions_of_beginsMode1)
    Config.init_reachable hmeets with ⟨c, hreach, hhistory⟩
  have hhistory := of_decide_eq_true hhistory
  refine ⟨c, hreach, ?_⟩
  intro hstrict
  have hlive : LiveIn (c.core.history.take 9) 2 (parsed "T A") := by
    rw [hhistory]
    exact ⟨[.executed 0 (parsed "B 1"), .executed 0 (parsed "I A (1, n, 5, US)"),
      .executed 0 (parsed "I A (2, n, 5, US)"), .ended 0, .executed 1 (parsed "B 1"),
      .executed 2 (parsed "B 1"), .executed 1 (parsed "R A 1")],
      [.executed 1 (parsed "T A")], rfl, by simp⟩
  have hlast : c.core.history = c.core.history.take 9 ++
      Event.executed 1 (parsed "U A 2 7") :: [] := by
    rw [hhistory]
    rfl
  refine hstrict _ _ 1 _ hlast 2 _ (by decide) hlive ⟨Str.ofString "A", 2, .inr ?_⟩
  have hupdate : (parsed "U A 2 7").operationType = .update ∧
      (parsed "U A 2 7").tableName = Str.ofString "A" ∧ (parsed "U A 2 7").coffeeID = 2 := by
    decide +kernel
  have hscan : (parsed "T A").operationType = .retrieveEntireTable ∧
      (parsed "T A").tableName = Str.ofString "A" := by
    decide +kernel
  constructor
  · unfold Operation.Writes
    rw [hupdate.1]
    exact hupdate.2
  · unfold Operation.Reads
    rw [hscan.1]
    exact hscan.2

end Scheduler

/-! ## Serial order -/

namespace Scheduler

end Scheduler

end PittCs.Rcdb
