import PittCs.Rcdb.LockConflict
import PittCs.Rcdb.SchedulerIsolation
import PittCs.Rcdb.SchedulerStatus
import PittCs.Rcdb.TableFiles

/-!
# Who holds locks

A transaction that holds locks has not concluded, or has quit. A transaction that
has created or dropped a table holds the write lock on it, so that the request of
an `INSERT`, which depends on whether the table is there, meets the same
transactions before and after.
-/

namespace PittCs.Rcdb

open Std PittCs.Lib LockManager

namespace Scheduler

/-! ## Requests and tables -/

theorem lockRequest_congr {db db' : Database} {op : Operation}
    (h : op.operationType = .insert →
      (op.tableName ∈ db'.store.disk ↔ op.tableName ∈ db.store.disk)) :
    lockRequest db' op = lockRequest db op := by
  unfold lockRequest
  cases ht : op.operationType
  case insert =>
    have hexists : doesTableExist db' op.tableName = doesTableExist db op.tableName := by
      unfold doesTableExist
      rw [Bool.eq_iff_iff]
      exact h ht
    dsimp only
    rw [hexists]
  all_goals rfl

/-- The request of an `INSERT`. -/
theorem lockRequest_insert {db : Database} {op : Operation} (h : op.operationType = .insert) :
    op.tableName ∈ db.store.disk ∧
        lockRequest db op = .item op.tableName op.coffeeID .writeLock ∨
      op.tableName ∉ db.store.disk ∧ lockRequest db op = .table op.tableName .writeLock := by
  unfold lockRequest
  rw [h]
  dsimp only
  by_cases hmem : op.tableName ∈ db.store.disk
  · exact .inl ⟨hmem, if_pos hmem⟩
  · exact .inr ⟨hmem, if_neg hmem⟩

/-- Against a write lock on the table both requests of an `INSERT` conflict with
its holder only. -/
theorem conflict_writeLock {m : LockManager} (hw : WriteExclusive m) (hr : RecordNeedsTable m)
    {tx w : Int} (hne : tx ≠ w) {op : Operation} (hop : op.operationType = .insert)
    (hlock : m.tableLock? op.tableName w = some .writeLock) (db : Database) (u : Int) :
    Conflict m tx (lockRequest db op) u ↔ u = w := by
  have hnone : m.tableLock? op.tableName tx = none := by
    rcases hk : m.tableLock? op.tableName tx with _ | k
    · rfl
    · exact absurd (hw _ w tx k hlock hk) hne
  have hconflict : ∀ desired, TableConflict m tx op.tableName desired w := by
    intro desired
    refine ⟨Ne.symm hne, ?_, _, hlock, blocks_writeLock desired⟩
    rw [hnone]
    rfl
  have honly : ∀ desired, TableConflict m tx op.tableName desired u → u = w := by
    rintro desired ⟨-, -, k, hk, -⟩
    exact hw _ w u k hlock hk
  rcases lockRequest_insert hop with ⟨-, hreq⟩ | ⟨-, hreq⟩
  · rw [hreq]
    constructor
    · rintro (h | ⟨-, -, k, hk, -⟩)
      · exact honly _ h
      · rcases hr _ _ _ _ hk with ⟨k', hk'⟩
        exact hw _ w u k' hlock hk'
    · rintro rfl
      exact .inl (hconflict _)
  · rw [hreq]
    constructor
    · exact honly _
    · rintro rfl
      exact hconflict _

/-- Once the table is there, an `INSERT` asks for less. -/
theorem conflict_table_of_item {m : LockManager} (hw : WriteExclusive m)
    (hr : RecordNeedsTable m) {tx u : Int} {tb : Str} {c : Int}
    (h : Conflict m tx (.item tb c .writeLock) u) : Conflict m tx (.table tb .writeLock) u := by
  have hother : ∀ k, u ≠ tx → m.tableLock? tb u = some k →
      TableConflict m tx tb .writeLock u := by
    intro k hne hk
    refine ⟨hne, ?_, k, hk, rfl⟩
    rcases htx : m.tableLock? tb tx with _ | k'
    · rfl
    · cases k'
      case writeLock => exact absurd (hw tb tx u k htx hk) hne
      all_goals rfl
  rcases h with ⟨hne, -, k, hk, -⟩ | ⟨hne, -, k, hk, -⟩
  · exact hother k hne hk
  · rcases hr _ _ _ _ hk with ⟨k', hk'⟩
    exact hother k' hne hk'

/-- Tables that appear, and tables that disappear under a write lock of `w`, give
an operation no new conflict. -/
theorem Conflict.of_tables {m : LockManager} (hw : WriteExclusive m) (hr : RecordNeedsTable m)
    {tx w u : Int} (hne : tx ≠ w) {db db' : Database} {op : Operation}
    (htables : op.operationType = .insert →
      (op.tableName ∈ db.store.disk → op.tableName ∈ db'.store.disk) ∨
        m.tableLock? op.tableName w = some .writeLock)
    (h : Conflict m tx (lockRequest db' op) u) : Conflict m tx (lockRequest db op) u := by
  by_cases hop : op.operationType = .insert
  · rcases htables hop with hkeeps | hlock
    · rcases lockRequest_insert hop with ⟨hmem, hreq⟩ | ⟨hnot, hreq⟩
      · rw [lockRequest_congr fun _ => ⟨fun _ => hmem, hkeeps⟩] at h
        exact h
      · rw [hreq]
        rcases lockRequest_insert hop with ⟨-, hreq'⟩ | ⟨-, hreq'⟩
        · rw [hreq'] at h
          exact conflict_table_of_item hw hr h
        · rw [hreq'] at h
          exact h
    · rw [conflict_writeLock hw hr hne hop hlock] at h ⊢
      exact h
  · rw [lockRequest_congr fun hins => absurd hins hop] at h
    exact h

/-- An `INSERT` into a table that is not there asks for a write lock on it. -/
theorem lockRequest_of_not_mem {db : Database} {op : Operation} (h : op.operationType = .insert)
    (hnot : op.tableName ∉ db.store.disk) :
    lockRequest db op = .table op.tableName .writeLock := by
  rcases lockRequest_insert h with ⟨hmem, -⟩ | ⟨-, hreq⟩
  · exact absurd hmem hnot
  · exact hreq

/-- A read changes no table, and the transaction not at all. -/
theorem callTransaction_read {tx : Int} {x x' : Transaction} {db db' : Database}
    {op : Operation} (hop : isRead op = true) (hnames : db.NamesOk)
    (h : callTransaction tx x db op = .ok (x', db')) :
    x' = x ∧ db'.NamesOk ∧ ∀ tb, db.SameTable db' tb := by
  unfold callTransaction at h
  unfold isRead at hop
  split at hop
  case h_1 ht =>
    rw [ht] at h
    rcases bind_eq_ok.mp h with ⟨⟨db₁, a⟩, hcall, h⟩
    cases h
    rcases bind_eq_ok.mp hcall with ⟨_, -, hcall⟩
    rcases bind_eq_ok.mp hcall with ⟨_, -, hcall⟩
    exact ⟨rfl, Transaction.reading_names (fun _ _ _ _ => Table.retrieve_sameNames) hnames hcall⟩
  case h_2 ht =>
    rw [ht] at h
    rcases bind_eq_ok.mp h with ⟨⟨db₁, a⟩, hcall, h⟩
    cases h
    rcases bind_eq_ok.mp hcall with ⟨_, -, hcall⟩
    exact ⟨rfl, Transaction.reading_names (fun _ _ _ _ => Table.retrieveAll_sameNames) hnames
      hcall⟩
  case h_3 ht =>
    rw [ht] at h
    rcases bind_eq_ok.mp h with ⟨⟨db₁, a⟩, hcall, h⟩
    cases h
    rcases bind_eq_ok.mp hcall with ⟨_, -, hcall⟩
    rcases bind_eq_ok.mp hcall with ⟨_, -, hcall⟩
    exact ⟨rfl, Transaction.reading_names (fun _ _ _ _ => Table.retrieveByCountry_sameNames) hnames
      hcall⟩
  case h_4 ht =>
    rw [ht] at h
    rcases bind_eq_ok.mp h with ⟨⟨db₁, a⟩, hcall, h⟩
    cases h
    rcases bind_eq_ok.mp hcall with ⟨_, -, hcall⟩
    rcases bind_eq_ok.mp hcall with ⟨_, -, hcall⟩
    refine ⟨rfl, Transaction.reading_names ?_ hnames hcall⟩
    intro t s s' a hcount
    cases hcount
    exact .refl _
  case h_5 => cases hop

/-- What an operation on a table does to the tables: only a write lock on the
table lets one disappear. -/
theorem callTransaction_names {tx : Int} {x x' : Transaction} {db db' : Database}
    {op : Operation} (hop : isAccess op = true) (hnames : db.NamesOk)
    (h : callTransaction tx x db op = .ok (x', db')) :
    db'.NamesOk ∧
      (∀ tb, (tb ∈ db.store.disk → tb ∈ db'.store.disk) ∨
        lockRequest db op = .table tb .writeLock) ∧
      ∀ tb, x'.changed tb → x.changed tb ∨ lockRequest db op = .table tb .writeLock := by
  cases ht : op.operationType with
  | insert =>
    unfold callTransaction at h
    rw [ht] at h
    dsimp only at h
    split at h
    · cases h
      exact ⟨hnames, fun _ => .inl id, fun _ => .inl⟩
    · rcases Transaction.insert_names hnames h with ⟨hnames', hsame, hchanged⟩
      refine ⟨hnames', ?_, ?_⟩
      · intro tb
        rcases hsame tb with hsame | ⟨rfl, hnot⟩
        · exact .inl hsame.mpr
        · exact .inr (lockRequest_of_not_mem ht hnot)
      · intro tb htb
        rcases hchanged tb htb with htb | ⟨rfl, hnot⟩
        · exact .inl htb
        · exact .inr (lockRequest_of_not_mem ht hnot)
  | update =>
    unfold callTransaction at h
    rw [ht] at h
    rcases bind_eq_ok.mp h with ⟨⟨x₁, db₁, code⟩, hcall, h⟩
    cases h
    rcases Transaction.update_names hnames hcall with ⟨hnames', hsame, hchanged⟩
    exact ⟨hnames', fun tb => .inl (hsame tb).mpr, fun tb htb => .inl ((hchanged tb).mp htb)⟩
  | dropTable =>
    unfold callTransaction at h
    rw [ht] at h
    rcases bind_eq_ok.mp h with ⟨⟨x₁, db₁, code⟩, hcall, h⟩
    cases h
    rcases Transaction.dropTable_names hnames hcall with ⟨hnames', hsame, hdeleted, hchanged⟩
    have hreq : lockRequest db op = .table op.tableName .writeLock := by
      unfold lockRequest
      rw [ht]
    refine ⟨hnames', ?_, ?_⟩
    · intro tb
      by_cases htb : tb = op.tableName
      · exact .inr (htb ▸ hreq)
      · left
        intro hmem
        by_cases hdel : tb = deletedDir op.tableName
        · subst hdel
          exact hdeleted hmem htb
        · exact (hsame tb htb hdel).mpr hmem
    · intro tb htb
      rcases hchanged tb htb with htb | rfl
      · exact .inl htb
      · exact .inr hreq
  | retrieveRecord | retrieveEntireTable | retrieveCoffeeName | count =>
    have hread : isRead op = true := by
      unfold isRead
      rw [ht]
    rcases callTransaction_read hread hnames h with ⟨rfl, hnames', hsame⟩
    exact ⟨hnames', fun tb => .inl (hsame tb).mpr, fun _ => .inl⟩
  | begin | commit | abort | quit | invalid =>
    unfold isAccess at hop
    rw [ht] at hop
    cases hop

/-! ## The locks -/

/-- What every request keeps of the lock manager. -/
structure LocksOk (m : LockManager) : Prop where
  known : Known m
  owns : ∀ u, OwnsAll m u
  exclusive : WriteExclusive m
  needsTable : RecordNeedsTable m

namespace LocksOk

variable {m m' : LockManager} {tx : Int}

theorem request {request : LockRequest} {deps : List Int} (h : LocksOk m)
    (hout : RequestOutcome m tx request (deps, m')) : LocksOk m' := by
  refine ⟨hout.known h.known, fun u => hout.ownsAll (h.owns u), ?_, ?_⟩
  · cases request with
    | table => exact h.exclusive.tableOutcome hout
    | item => exact h.exclusive.itemOutcome hout
    | nothing =>
      cases hout
      exact h.exclusive
  · cases request with
    | table => exact h.needsTable.tableOutcome hout
    | item => exact h.needsTable.itemOutcome hout
    | nothing =>
      cases hout
      exact h.needsTable

theorem release (h : LocksOk m) (tx : Int) : LocksOk (m.releaseAllLocks tx) := by
  constructor
  · exact h.known.releaseAllLocks tx
  · exact fun u => (h.owns tx).releaseAllLocks (h.owns u)
  · refine h.exclusive.of_tableLock ?_
    intro tb u k hk
    exact releaseAllLocks_table_some hk
  · exact h.needsTable.releaseAllLocks (h.owns tx)

theorem renew (h : LocksOk m) (htx : HoldsNothing m tx) :
    LocksOk { m with owned := (m.owned.insert tx {}).insert tx {} } :=
  ⟨h.known, fun u => (h.owns u).renew htx, h.exclusive, h.needsTable⟩

end LocksOk

/-- A granted request for a write lock on a table. -/
theorem writeLock_of_granted {m m' : LockManager} {tx : Int} {tb : Str}
    (h : RequestOutcome m tx (.table tb .writeLock) ([], m')) :
    m'.tableLock? tb tx = some .writeLock := by
  rcases TableOutcome.holds h with ⟨k, hk, henough⟩
  cases k with
  | writeLock => exact hk
  | _ => cases henough

/-! ## The holders -/

/-- Who holds locks, and what a transaction that changes tables holds. -/
structure HoldersOk (v : View) : Prop where
  locks : LocksOk v.locks
  names : v.db.NamesOk
  changed : ∀ u, (v.transaction u).state = .running → ∀ tb, (v.transaction u).changed tb →
    v.locks.tableLock? tb u = some .writeLock
  idle : ∀ u, ¬ HoldsNothing v.locks u →
    v.known u ∧ ((v.info u).Active ∨ v.status u = .terminated)
  blocked : ∀ u, v.status u = .blocked → v.known u

namespace HoldersOk

variable {v v₁ v' : View} {tx : Int} {i : TransactionInfo} {op : Operation}

/-- One transaction changes, with its locks. -/
theorem change (h : HoldersOk v) (hinfo : v₁.info = v.info) (hknown : v₁.known = v.known)
    (hlocks : LocksOk v₁.locks) (hnames : v₁.db.NamesOk)
    (hothers : ∀ u, u ≠ tx → SameLocks v.locks v₁.locks u)
    (hchanged : i.transaction.state = .running → ∀ tb, i.transaction.changed tb →
      v₁.locks.tableLock? tb tx = some .writeLock)
    (hidle : ¬ HoldsNothing v₁.locks tx → i.Active ∨ i.transactionStatus = .terminated) :
    HoldersOk (v₁.setInfo tx i) := by
  refine ⟨hlocks, hnames, ?_, ?_, ?_⟩
  · intro u
    rw [View.transaction_setInfo]
    by_cases heq : u = tx
    · rw [if_pos heq, heq]
      exact hchanged
    · rw [if_neg heq]
      intro hstate tb htb
      rw [View.setInfo_locks, (hothers u heq).1]
      unfold View.transaction at hstate htb
      rw [hinfo] at hstate htb
      exact h.changed u hstate tb htb
  · intro u hu
    rw [View.info_setInfo, View.status_setInfo]
    by_cases heq : u = tx
    · rw [if_pos heq, if_pos heq]
      exact ⟨.inl heq, hidle (heq ▸ hu)⟩
    · rw [if_neg heq, if_neg heq]
      have hholds : ¬ HoldsNothing v.locks u := fun hnone => hu (hnone.congr (hothers u heq))
      rcases h.idle u hholds with ⟨hk, hor⟩
      refine ⟨.inr (hknown ▸ hk), ?_⟩
      unfold View.status
      rw [hinfo]
      exact hor
  · intro u hu
    rw [View.status_setInfo] at hu
    by_cases heq : u = tx
    · exact .inl heq
    · rw [if_neg heq] at hu
      unfold View.status at hu
      rw [hinfo] at hu
      exact .inr (hknown ▸ h.blocked u hu)

/-- The status or the buffer of a transaction changes. -/
theorem setInfo (h : HoldersOk v) (hx : i.transaction = v.transaction tx)
    (hidle : ¬ HoldsNothing v.locks tx → i.Active ∨ i.transactionStatus = .terminated) :
    HoldersOk (v.setInfo tx i) := by
  refine h.change rfl rfl h.locks h.names (fun _ _ => ⟨fun _ => rfl, fun _ _ => rfl⟩) ?_ hidle
  rw [hx]
  exact h.changed tx

/-- The object of a transaction concludes, and its locks are released. -/
theorem concluded {m : LockManager} (h : HoldersOk v) (hm : LocksOk m)
    (hothers : ∀ u, u ≠ tx → SameLocks v.locks m u) (hinfo : v₁.info = v.info)
    (hknown : v₁.known = v.known) (hlocks : v₁.locks = m.releaseAllLocks tx)
    (hnames : v₁.db.NamesOk) (hi : i.transaction.state ≠ .running) :
    HoldersOk (v₁.setInfo tx i) := by
  have hreleased : HoldsNothing v₁.locks tx := by
    rw [hlocks]
    exact releaseAllLocks_none (hm.owns tx)
  refine h.change hinfo hknown ?_ hnames ?_ (fun hstate => absurd hstate hi)
    (fun hholds => absurd hreleased hholds)
  · rw [hlocks]
    exact hm.release tx
  · intro u hu
    rw [hlocks]
    exact (hothers u hu).trans (releaseAllLocks_of_ne hu)

theorem request {request : LockRequest} {deps : List Int} {locks : LockManager} (h : HoldersOk v)
    (hreq : requestLocks v.locks tx request = .ok (deps, locks)) (hx : i.transaction = v.transaction tx)
    (hi : i.Active) (g : DiGraph) : HoldersOk ({ v with locks, graph := g }.setInfo tx i) := by
  have hout := requestLocks_spec h.locks.known hreq
  refine h.change rfl rfl (h.locks.request hout) h.names (fun _ => hout.sameLocks) ?_
    (fun _ => .inl hi)
  intro hstate tb htb
  rw [hx] at hstate htb
  rcases hout.grows (h.changed tx hstate tb htb) with ⟨k, hk, -, -, hwrite⟩
  rw [hwrite rfl] at hk
  exact hk

/-- A granted operation. -/
theorem granted {ops : List Operation} (h : HoldersOk v) (hop : isAccess op = true)
    (hactive : (v.info tx).Active) (hgranted : Granted v tx op ops v') : HoldersOk v' := by
  rcases hgranted with ⟨locks, x, db, hreq, hcall, rfl⟩
  have hout := requestLocks_spec h.locks.known hreq
  rcases callTransaction_names hop h.names hcall with ⟨hnames, -, hchanged⟩
  refine h.change rfl rfl (h.locks.request hout) hnames (fun _ => hout.sameLocks) ?_
    (fun _ => .inl hactive)
  intro hstate tb htb
  rcases hchanged tb htb with htb | htable
  · have hrunning : (v.transaction tx).state = .running :=
      (callTransaction_access_state hop hcall).symm.trans hstate
    rcases hout.grows (h.changed tx hrunning tb htb) with ⟨k, hk, -, -, hwrite⟩
    rw [hwrite rfl] at hk
    exact hk
  · rw [htable] at hout
    exact writeLock_of_granted hout

theorem deadlocked (h : HoldersOk v) (hdead : Deadlocked v tx op v') : HoldersOk v' := by
  rcases hdead with ⟨deps, locks, g, x, db, hreq, -, -, habort, rfl⟩
  have hout := requestLocks_spec h.locks.known hreq
  have hnames := (Transaction.abort_names h.names habort).1
  refine h.concluded (h.locks.request hout) (fun _ => hout.sameLocks) rfl rfl rfl hnames ?_
  rw [(Transaction.abort_state habort).2]
  decide

end HoldersOk

theorem callTransaction_end_names {tx : Int} {x x' : Transaction} {db db' : Database}
    {op : Operation} (hop : isEnd op) (hnames : db.NamesOk)
    (h : callTransaction tx x db op = .ok (x', db')) : db'.NamesOk := by
  unfold callTransaction at h
  rcases hop with ht | ht
  · rw [ht] at h
    exact Transaction.commit_names hnames h
  · rw [ht] at h
    exact (Transaction.abort_names hnames h).1

/-- One step keeps it, if no `COMMIT` or `ABORT` is replayed from a buffer. -/
theorem HoldersOk.moved {v v' : View} {stack stack' : List Frame} {a : Action}
    (h : HoldersOk v) (hcalls : CallsOk v stack) (hmove : Moved v stack a v' stack')
    (hreplay : ∀ tx rest op ops, stack = .retry tx :: rest → v.buffer tx = op :: ops →
      ¬ isEnd op) : HoldersOk v' := by
  cases hmove with
  | ignored | runRemaining | leave | again | skip | exhausted | spin => exact h
  | @begin tx _ _ x _ hnot hterm _ _ _ hx =>
    have hnothing : HoldsNothing v.locks tx := by
      by_contra hholds
      rcases h.idle tx hholds with ⟨hknown, hactive | hterminated⟩
      · exact hnot ⟨hknown, hactive⟩
      · exact hterm ⟨hknown, hterminated⟩
    refine h.change rfl rfl (h.locks.renew hnothing) h.names
      (fun _ _ => ⟨fun _ => rfl, fun _ _ => rfl⟩) ?_ (fun _ => .inl (.inl rfl))
    intro _ tb htb
    cases hx
    rcases htb with htb | htb
    · exact absurd htb TreeSet.not_mem_emptyc
    · exact absurd htb TreeSet.not_mem_emptyc
  | quitActive _ _ _ _ hx =>
    refine h.change rfl rfl h.locks (Transaction.abort_names h.names hx).1
      (fun _ _ => ⟨fun _ => rfl, fun _ _ => rfl⟩) ?_ (fun _ => .inr rfl)
    intro hstate
    rw [(Transaction.abort_state hx).2] at hstate
    cases hstate
  | quitDone => exact h.setInfo rfl fun _ => .inr rfl
  | buffered _ _ _ hstatus => exact h.setInfo rfl fun _ => .inl (.inr hstatus)
  | ended _ hop _ _ hx =>
    exact h.concluded h.locks (fun _ _ => ⟨fun _ => rfl, fun _ _ => rfl⟩) rfl rfl rfl
      (callTransaction_end_names hop h.names hx) (callTransaction_end_state hop hx).1
  | readUnlocked _ hop _ hstatus _ hx =>
    rcases callTransaction_read hop h.names hx with ⟨rfl, hnames, -⟩
    exact h.change rfl rfl h.locks hnames (fun _ _ => ⟨fun _ => rfl, fun _ _ => rfl⟩)
      (h.changed _) (fun _ => .inl (.inl hstatus))
  | granted _ hop _ hstatus _ hgranted => exact h.granted hop (.inl hstatus) hgranted
  | refused _ _ _ _ _ hrefused | retryRefused _ _ hrefused =>
    rcases hrefused with ⟨deps, locks, g, hreq, -, -, rfl⟩
    refine h.request hreq ?_ ?_ g
    · rfl
    · exact .inr rfl
  | deadlocked _ _ _ _ _ hdead | retryDeadlocked _ _ hdead => exact h.deadlocked hdead
  | unblock => exact h.setInfo rfl fun _ => .inl (.inl rfl)
  | retryEnded hbuf hop => exact absurd hop (hreplay _ _ _ _ rfl hbuf)
  | @retryGranted tx _ _ _ _ _ hop hgranted =>
    exact h.granted hop (hcalls.active tx (List.mem_cons_self ..)).2 hgranted
  | reblock => exact h.setInfo rfl fun _ => .inl (.inr rfl)

theorem holdersOk_init (disk : Disk) : HoldersOk (init disk).view := by
  refine ⟨⟨known_init, fun u => (holdsNothing_init u).ownsAll, ?_, ?_⟩, ?_, ?_, ?_, ?_⟩
  · intro tb w u k hw
    rw [view_locks, init, (holdsNothing_init w).1] at hw
    cases hw
  · intro tb c u k hk
    rw [view_locks, init, (holdsNothing_init u).2] at hk
    cases hk
  · intro k t hk
    simp [init] at hk
  · intro u hstate
    cases hstate
  · intro u hholds
    exact absurd (holdsNothing_init u) hholds
  · intro u hblocked
    cases hblocked

end Scheduler

end PittCs.Rcdb
